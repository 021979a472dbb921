import Xv6.Kernel.Copyuvm
import Xv6.Kernel.Growproc

/-!
# The heap stays below the shared window

`allocuvm` refuses sizes from `kernBase` on, and the shared window lies below
that. What keeps the heap out of the window is that memory runs out first:
there are `physTop / pgSize` frames, fewer than the pages below the window, and
a page of the heap takes one of them for itself.
-/

namespace Xv6

open Outcome

variable [Image]

/-- Pages below the size have a frame each; the other user pages that are
mapped are shared pages in the window. -/
structure HeapAndWindow (pg : PgDir) (oldsz : Nat) : Prop where
  below : ∀ w, w * pgSize < oldsz → (pg.page w).p = true ∧ IsFrame (p2v (pg.page w).pa)
  apart : ∀ v w, v * pgSize < oldsz → w * pgSize < oldsz →
    p2v (pg.page v).pa = p2v (pg.page w).pa → v = w
  window : ∀ w < 2 ^ 19, (pg.page w).p = true →
    w * pgSize < oldsz ∨ windowStart ≤ w ∧ IsFrame (p2v (pg.page w).pa)

/-- Distinct frames are no more than physical memory has. -/
theorem length_le_physTop {fs : List Nat} (hnodup : fs.Nodup) (h : ∀ f ∈ fs, IsFrame f) :
    fs.length ≤ physTop / pgSize := by
  have hinj : Set.InjOn (fun f => (f - kernBase) / pgSize) { f | f ∈ fs } := by
    intro f hf g hg heq
    have hf' := h f hf
    have hg' := h g hg
    have hf₁ := hf'.bounds
    have hg₁ := hg'.bounds
    have hf₂ := hf'.2.1
    have hg₂ := hg'.2.1
    simp only [pgSize] at *
    omega
  have hsub : (fs.map fun f => (f - kernBase) / pgSize).toFinset ⊆
      Finset.range (physTop / pgSize) := by
    intro k hk
    rw [List.mem_toFinset, List.mem_map] at hk
    obtain ⟨f, hf, rfl⟩ := hk
    have hbounds := (h f hf).bounds
    rw [Finset.mem_range]
    simp only [pgSize, physTop] at *
    omega
  have hcard := Finset.card_le_card hsub
  rwa [List.toFinset_card_of_nodup (hnodup.map_on hinj), List.length_map, Finset.card_range] at hcard

/-- So the size has no more pages than that. -/
theorem HeapAndWindow.pages_le {pg : PgDir} {oldsz : Nat} (h : HeapAndWindow pg oldsz) :
    pagesFor oldsz ≤ physTop / pgSize := by
  have hframe : ∀ f ∈ (List.range (pagesFor oldsz)).map fun w => p2v (pg.page w).pa, IsFrame f := by
    intro f hf
    obtain ⟨w, hw, rfl⟩ := List.mem_map.mp hf
    exact (h.below w ((lt_pagesFor w oldsz).mp (List.mem_range.mp hw))).2
  have hnodup : ((List.range (pagesFor oldsz)).map fun w => p2v (pg.page w).pa).Nodup := by
    refine List.nodup_range.map_on fun v hv w hw heq => ?_
    rw [List.mem_range, lt_pagesFor] at hv hw
    exact h.apart v w hv hw heq
  have hle := length_le_physTop hnodup hframe
  rwa [List.length_map, List.length_range] at hle

/-- **The heap never grows into the window.** `allocuvm` comes back, without a
remap or another panic, and if it succeeds the new size is below the window,
whose pages are as they were. The free list is threaded through the free pages,
so that no page is on it twice. -/
theorem allocuvm_below_window {pg : PgDir} {oldsz : Nat} {m : Mem} (h : HeapAndWindow pg oldsz)
    (hm : FreelistOK m) (hnodup : m.freelist.Nodup) (newsz : Nat) :
    ∃ r pg' m', allocuvm pg oldsz newsz m = .ok (r, pg', m') ∧
      (r ≠ 0 → newsz ≤ windowStart * pgSize ∧
        ∀ w, windowStart ≤ w → w < 2 ^ 19 → pg'.page w = pg.page w) := by
  have hpages := h.pages_le
  have hfree := length_le_physTop hnodup hm
  have hroom : physTop / pgSize + physTop / pgSize ≤ windowStart := by decide
  by_cases hkern : kernBase ≤ newsz
  · refine ⟨0, pg, m, ?_, fun h0 => absurd rfl h0⟩
    rw [allocuvm, if_pos hkern]
  by_cases hlt : newsz < oldsz
  · refine ⟨oldsz, pg, m, ?_, fun _ => ⟨?_, fun _ _ _ => rfl⟩⟩
    · rw [allocuvm, if_neg hkern, if_pos hlt]
    · simp only [pagesFor, pgSize] at *
      omega
  -- a page that gets a frame is below the window
  obtain ⟨b, pg', m', hloop⟩ : ∃ b pg' m', allocLoop oldsz newsz (newsz / pgSize + 1) pg
      (pagesFor oldsz * pgSize) m = .ok (b, pg', m') := allocLoop_returns_within (by omega) hm
    (fun w h₁ h₂ _ => by
      refine Bool.eq_false_iff.mpr fun hp => ?_
      rcases h.window w (by simp only [windowStart, shmemPages] at *; omega) hp with hlow | ⟨hhigh, -⟩
      · exact absurd ((lt_pagesFor w oldsz).mpr hlow) (by omega)
      · omega)
    (fun w h₁ _ hp => by
      rcases h.window w (by simp only [pgSize, kernBase] at *; omega) hp with hlow | ⟨-, hframe⟩
      · exact (h.below w hlow).2
      · exact hframe)
  refine ⟨if b then newsz else 0, pg', m', ?_, fun hr => ?_⟩
  · rw [allocuvm_eq (by omega) (by omega)]
    exact ok_bind hloop rfl
  · cases b with
    | false => exact absurd rfl hr
    | true =>
      have halloced := (allocLoop_alloced (by omega) (Nat.le_refl _) hm
        (Nat.div_le_div_right (by simp only [pgSize]; omega))
        ((pagesFor_le newsz).trans (Nat.le_add_left ..)) hloop).1
      have hneeds := halloced.room rfl
      have hnew : newsz ≤ windowStart * pgSize := by
        simp only [PgDir.needs, pagesFor, pgSize] at *
        omega
      obtain ⟨-, -, -, hout, -⟩ := allocLoop_spec (by omega) (Nat.le_refl _) hm hloop
      refine ⟨hnew, fun w h₁ h₂ => hout w (by omega) (.inr ?_)⟩
      exact hnew.trans (Nat.mul_le_mul_right _ h₁)

/-- One page of the heap, and a shared page at the upper end of the window. -/
def sharingDir : PgDir where
  frame := 0x80400000
  pde d :=
    if d = 0 then
      some ⟨0x80401000, fun j => if j = 0 then .map (v2p 0x80402000) permWU else .zero⟩
    else if d = 511 then
      some ⟨0x80403000, fun j => if j = 1023 then .map (v2p 0x80404000) permWU else .zero⟩
    else none

omit [Image] in
theorem sharingDir_page {w : Nat} (hw : w < 2 ^ 19) (hp : (sharingDir.page w).p = true) :
    w = 0 ∨ w = windowPage 0 := by
  simp only [PgDir.page, PgDir.entry, pdx_page (show w < 2 ^ 20 by omega), ptx_page,
    sharingDir] at hp
  rw [windowPage]
  by_cases hlow : w / 1024 = 0
  · simp only [hlow, if_true] at hp
    split at hp
    · omega
    · cases hp
  by_cases hhigh : w / 1024 = 511
  · simp only [hhigh, OfNat.ofNat_ne_zero, if_false, if_true] at hp
    split at hp
    · omega
    · cases hp
  · simp only [hlow, hhigh, if_false] at hp
    cases hp

omit [Image] in
/-- The heap grows by two pages. -/
theorem allocuvm_below_window_sharing :
    @HeapAndWindow sampleImage sharingDir pgSize ∧ (sharingDir.page (windowPage 0)).p = true ∧
      ∃ r pg' m', @allocuvm sampleImage sharingDir pgSize (3 * pgSize)
          ⟨frames 100 0x82400000, fun _ _ => 0⟩ = .ok (r, pg', m') ∧
        (r ≠ 0 → 3 * pgSize ≤ windowStart * pgSize ∧
          ∀ w, windowStart ≤ w → w < 2 ^ 19 → pg'.page w = sharingDir.page w) := by
  let _ := sampleImage
  have hzero : ∀ w, w * pgSize < pgSize → w = 0 := fun w hw => by
    simp only [pgSize] at hw
    omega
  have hheap : HeapAndWindow sharingDir pgSize := by
    refine ⟨fun w hw => ?_, fun v w hv hw _ => by rw [hzero v hv, hzero w hw], fun w hw hp => ?_⟩
    · rw [hzero w hw]
      decide
    · rcases sharingDir_page hw hp with rfl | rfl
      · exact .inl (by decide)
      · exact .inr (by decide)
  obtain ⟨hok, hnodup⟩ := frames_ok (n := 100) (by decide)
  exact ⟨hheap, by decide, allocuvm_below_window hheap hok hnodup (3 * pgSize)⟩

end Xv6
