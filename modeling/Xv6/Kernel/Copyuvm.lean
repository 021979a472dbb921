import Xv6.Kernel.Boot
import Xv6.Kernel.Frames

/-!
# `copyuvm`, with and without enough memory

When the memory gives out at a page, `copyuvm` gives everything back. When it gives out at
a page table, the frame just taken for the page is in no table, and is lost
(`copyuvm_restores`). With enough memory it makes a copy that shares nothing with the
original (`copyuvm_copies`).
-/

namespace Xv6

open Outcome

/-! ## §1  Without enough memory -/

/-- What the kernel's directory is for the loop. -/
theorem copiedTo_zero {d : PgDir} (htab : ∀ t, (d.pde t).isSome ↔ KernelTab t)
    (hzero : ∀ w < 2 ^ 19, d.page w = .zero) (hkern : (d.page (2 ^ 19)).p = true) :
    CopiedTo 0 d where
  le := Nat.zero_le _
  tab t ht := by
    rw [htab]
    unfold KernelTab
    omega
  fresh u hu _ := by
    rw [hzero u hu]
    rfl
  kernel := hkern

theorem own_pos_of_maps {pg : PgDir} {w f : Nat} (hw : w < 2 ^ 19) (h : (pg.page w).Maps f) :
    0 < pg.own f := by
  have hpos := Tally.le_sum (f := fun v => (pg.page v).uses f)
    (Finset.mem_Ico.mpr ⟨Nat.zero_le w, hw⟩)
  have huses := uses_pos.mpr h
  simp only [PgDir.own, PgDir.pages]
  omega

variable [Image]

theorem ownsFrames_of_own {pg : PgDir} (h : ∀ f, 0 < pg.own f → IsFrame f) : OwnsFrames pg where
  frame := h _ (by simp only [PgDir.own, if_true]; omega)
  tab d hd f hf := by
    refine h f ?_
    have hpos := Tally.le_sum (f := fun d => if pg.tabFrame d = some f then 1 else 0)
      (Finset.mem_range.mpr hd)
    rw [if_pos hf] at hpos
    simp only [PgDir.own, PgDir.tabs]
    omega
  page w hw hp := h _ (own_pos_of_maps hw ⟨hp, rfl⟩)

section Copyuvm

variable {pg : PgDir} {sz : Nat} {m m' : Mem}

/-- Memory enough for the kernel's part and the first `w` pages with their tables. -/
def copyRoom (w : Nat) : Nat := 65 + w + tabsFor w

/-- **`copyuvm` fails** if there is not enough for `setupkvm`, or at some page: there all the
frames are back on the list, but for one where the table of the page was missing. -/
theorem copyuvm_fails (hm : FreelistOK m) (h : copyuvm pg sz m = .ok (none, m')) :
    ((m.freelist.length < 65 ∨ ∃ w, w * pgSize < sz ∧ (∀ u ≤ w, (pg.page u).p = true) ∧
        m.freelist.length = copyRoom w) ∧ ∀ f, m'.freelist.count f = m.freelist.count f) ∨
    ((∃ w, w * pgSize < sz ∧ (∀ u ≤ w, (pg.page u).p = true) ∧ w % 1024 = 0 ∧
        m.freelist.length = copyRoom w + 1) ∧
      ∃ f₀, ∀ f, m'.freelist.count f + (if f₀ = f then 1 else 0) = m.freelist.count f) := by
  unfold copyuvm at h
  obtain ⟨⟨r₁, m₁⟩, hsetup, h⟩ := bind_ok h
  obtain ⟨hok₁, hnone₁, hsome₁⟩ := setupkvm_spec hsetup
  obtain ⟨hcount, hfew⟩ := setupkvm_count hsetup
  cases r₁ with
  | none =>
    simp only [Except.ok.injEq, Prod.mk.injEq, true_and] at h
    subst h
    exact .inl ⟨.inl (hfew rfl), hnone₁ rfl⟩
  | some d₁ =>
    obtain ⟨hbal₁, hpages₁, -⟩ := hsome₁ d₁ rfl
    obtain ⟨⟨fs, htook, hlen⟩, htab, hkern⟩ := hcount d₁ rfl
    simp only at h
    obtain ⟨⟨b, d₂, m₂⟩, hloop, h⟩ := bind_ok h
    cases b with
    | true => simp at h
    | false =>
      simp only [Bool.false_eq_true, if_false] at h
      obtain ⟨m₃, hfree, h⟩ := bind_ok h
      simp only [Except.ok.injEq, Prod.mk.injEq, true_and] at h
      subst h
      obtain ⟨hback, -⟩ := freevm_spec hfree
      have hl := htook.length
      rw [show (0 : Nat) = 0 * pgSize from (Nat.zero_mul pgSize).symm] at hloop
      obtain ⟨w, -, hw, hpresent, hcase⟩ :=
        copyLoop_fails (copiedTo_zero htab hpages₁ hkern) (hok₁ hm) hloop
      have hpre : ∀ u ≤ w, (pg.page u).p = true := fun u hu => hpresent u (Nat.zero_le u) hu
      rcases hcase with ⟨hroom, hbal⟩ | ⟨hmod, hroom, f₀, hbal⟩
      · refine .inl ⟨.inr ⟨w, hw, hpre, ?_⟩, fun f => ?_⟩
        · simp only [copyRoom, tabsFor] at *
          omega
        · rw [hback f, hbal f, hbal₁ f]
      · refine .inr ⟨⟨w, hw, hpre, hmod, ?_⟩, f₀, fun f => ?_⟩
        · simp only [copyRoom, tabsFor] at *
          omega
        · rw [hback f, hbal f, hbal₁ f]

/-- The same facts, as a condition under which `copyuvm` does fail. -/
theorem copyuvm_stops {w : Nat} (hm : FreelistOK m) (hw : w * pgSize < sz) (hsz : sz ≤ kernBase)
    (hpresent : ∀ u ≤ w, (pg.page u).p = true)
    (hroom : m.freelist.length = copyRoom w ∨
      w % 1024 = 0 ∧ m.freelist.length = copyRoom w + 1) :
    ∃ m', copyuvm pg sz m = .ok (none, m') := by
  obtain ⟨res, m₁, hsetup⟩ := setupkvm_returns hm
  obtain ⟨hok₁, -, hsome₁⟩ := setupkvm_spec hsetup
  obtain ⟨hcount, hfew⟩ := setupkvm_count hsetup
  cases res with
  | none =>
    have hlt := hfew rfl
    simp only [copyRoom] at hroom
    omega
  | some d₁ =>
    obtain ⟨hbal₁, hpages₁, -⟩ := hsome₁ d₁ rfl
    obtain ⟨⟨fs, htook, hlen⟩, htab, hkern⟩ := hcount d₁ rfl
    have hl := htook.length
    have hloop : ∃ d' m', copyLoop pg sz (sz / pgSize + 1) d₁ (0 * pgSize) m₁ =
        .ok (false, d', m') := by
      refine copyLoop_stops hw ?_ (copiedTo_zero htab hpages₁ hkern) (Nat.zero_le w) ?_
        (fun u _ hu => hpresent u hu) ?_
      · simp only [pgSize, kernBase] at *
        omega
      · simp only [pgSize] at *
        omega
      · simp only [copyRoom, tabsFor] at *
        omega
    obtain ⟨d₂, m₂, hloop⟩ := hloop
    obtain ⟨-, hle, -⟩ := copyLoop_spec hsz (hok₁ hm) hloop
    -- what the copy uses was on the free list
    have howns : OwnsFrames d₂ := ownsFrames_of_own fun f hf => by
      refine hm f (List.count_pos_iff.mp ?_)
      have h₁ := hle f
      have h₂ := hbal₁ f
      omega
    obtain ⟨m₃, hfree⟩ := freevm_owns howns m₂
    rw [Nat.zero_mul] at hloop
    exact ⟨m₃, ok_bind hsetup (ok_bind hloop (ok_bind hfree rfl))⟩

theorem copyuvm_few (pg : PgDir) (sz : Nat) (hm : FreelistOK m) (hfew : m.freelist.length < 65) :
    ∃ m', copyuvm pg sz m = .ok (none, m') := by
  obtain ⟨res, m₁, hsetup⟩ := setupkvm_returns hm
  cases res with
  | none => exact ⟨m₁, ok_bind hsetup rfl⟩
  | some d₁ =>
    obtain ⟨⟨fs, htook, hlen⟩, -⟩ := (setupkvm_count hsetup).1 d₁ rfl
    have hl := htook.length
    omega

omit [Image] in
/-- A frame fewer. -/
theorem lost_of_count {f₀ : Nat} (hnodup : m.freelist.Nodup)
    (hcount : ∀ f, m'.freelist.count f + (if f₀ = f then 1 else 0) = m.freelist.count f) :
    f₀ ∈ m.freelist ∧ f₀ ∉ m'.freelist := by
  have h₀ := hcount f₀
  have hle := List.nodup_iff_count_le_one.mp hnodup f₀
  rw [if_pos rfl] at h₀
  exact ⟨List.count_pos_iff.mp (by omega), List.count_eq_zero.mp (by omega)⟩

/-- **A failed `copyuvm` gives back what it took** unless the memory gave out at a page
table. The page tables come every 1024 pages, so the length of the free list tells:
66 frames, or 1025 more, or 1025 more than that, and so on. Then the frame of the page
is lost, and otherwise the free list has the frames it had before. -/
theorem copyuvm_restores (hm : FreelistOK m) (hnodup : m.freelist.Nodup)
    (h : copyuvm pg sz m = .ok (none, m')) :
    (∀ f, f ∈ m'.freelist ↔ f ∈ m.freelist) ↔ m.freelist.length % 1025 ≠ 66 := by
  rcases copyuvm_fails hm h with ⟨hlen, hcount⟩ | ⟨⟨w, -, -, hmod, hlen⟩, f₀, hcount⟩
  · refine ⟨fun _ => ?_, fun _ f => ?_⟩
    · rcases hlen with hlen | ⟨w, -, -, hlen⟩
      · omega
      · rw [hlen]
        simp only [copyRoom, tabsFor]
        omega
    · rw [← List.count_pos_iff, ← List.count_pos_iff, hcount f]
  · refine ⟨fun hsame => ?_, fun hne => ?_⟩
    · obtain ⟨hin, hout⟩ := lost_of_count hnodup hcount
      exact absurd ((hsame f₀).mpr hin) hout
    · refine absurd ?_ hne
      rw [hlen]
      simp only [copyRoom, tabsFor]
      omega

omit [Image]

/-- Consecutive frames are a free list. -/
theorem frames_ok {n : Nat} (hn : n ≤ 4096) :
    @FreelistOK sampleImage ⟨frames n 0x82400000, fun _ _ => 0⟩ ∧ (frames n 0x82400000).Nodup := by
  refine ⟨fun f hf => ?_, List.nodup_iff_count_le_one.mpr fun f => count_frames f n _⟩
  obtain ⟨h₁, h₂, h₃⟩ := mem_frames hf
  change f < 2 ^ 32 ∧ f % pgSize = 0 ∧ 0x80180000 ≤ f ∧ v2p f < physTop
  simp only [v2p, kernBase, physTop, pgSize] at *
  omega

theorem frames_length : ∀ n a : Nat, (frames n a).length = n
  | 0, _ => rfl
  | n + 1, a => congrArg (· + 1) (frames_length n (a + pgSize))

/-- 64 frames are not enough for the kernel's part, and are all given back. -/
theorem copyuvm_restores_few : ∃ m', @copyuvm sampleImage (sampleProc true 1).pgdir pgSize
      ⟨frames 64 0x82400000, fun _ _ => 0⟩ = .ok (none, m') ∧
    ∀ f, f ∈ m'.freelist ↔ f ∈ frames 64 0x82400000 := by
  let _ := sampleImage
  obtain ⟨hok, hnodup⟩ := frames_ok (n := 64) (by decide)
  obtain ⟨m', h⟩ := copyuvm_few (sampleProc true 1).pgdir pgSize hok
    (by rw [frames_length]; decide)
  exact ⟨m', h, (copyuvm_restores hok hnodup h).mpr (by rw [frames_length]; decide)⟩

/-- With 66 frames, one is lost. -/
theorem copyuvm_loses_frame : ¬ ∀ (_ : Image) (pg : PgDir) (sz : Nat) (m m' : Mem),
    FreelistOK m → m.freelist.Nodup → copyuvm pg sz m = .ok (none, m') →
    ∀ f, f ∈ m'.freelist ↔ f ∈ m.freelist := by
  intro hall
  let _ := sampleImage
  obtain ⟨hok, hnodup⟩ := frames_ok (n := 66) (by decide)
  have hlen : (frames 66 0x82400000).length = 66 := frames_length ..
  have hrun : ∃ m', copyuvm (sampleProc true 1).pgdir pgSize
      ⟨frames 66 0x82400000, fun _ _ => 0⟩ = .ok (none, m') :=
    copyuvm_stops hok (by decide : 0 * pgSize < pgSize) (by decide)
      (fun u hu => by rw [Nat.le_zero.mp hu]; decide) (.inr ⟨rfl, hlen⟩)
  obtain ⟨m', h⟩ := hrun
  rcases copyuvm_fails hok h with ⟨hfew, -⟩ | ⟨-, f₀, hcount⟩
  · simp only [hlen] at hfew
    rcases hfew with hfew | ⟨w, -, -, hw⟩
    · omega
    · simp only [copyRoom, tabsFor] at hw
      omega
  · obtain ⟨hin, hout⟩ := lost_of_count hnodup hcount
    exact hout ((hall _ _ _ _ _ hok hnodup h f₀).mpr hin)

end Copyuvm

/-! ## §2  With enough memory -/

/-- The directory `d` is a copy of the first `sz` bytes under `pg`. -/
structure SpaceCopied (pg : PgDir) (sz : Nat) (m m' : Mem) (d : PgDir) : Prop where
  -- every page: the same flag bits, a frame that was free, the same contents
  page : ∀ v, v * pgSize < sz → ∃ f, f ∈ m.freelist ∧ f ∉ m'.freelist ∧
    d.page v = (pg.page v).at (v2p f) ∧ m'.ram f = m.ram (p2v (pg.page v).pa)
  distinct : ∀ v w, v * pgSize < sz → w * pgSize < sz →
    p2v (d.page v).pa = p2v (d.page w).pa → v = w
  apart : ∀ v, v * pgSize < sz → pg.own (p2v (d.page v).pa) = 0
  rest : ∀ v < 2 ^ 19, sz ≤ v * pgSize → (d.page v).p = false
  kernel : ∃ k m₁, setupkvm m = .ok (some k, m₁) ∧
    ∀ v, 2 ^ 19 ≤ v → v < 2 ^ 20 → d.page v = k.page v
  parent : ∀ f, 0 < pg.own f → m'.ram f = m.ram f

omit [Image] in
/-- Two pages under one frame. -/
theorem two_le_own {pg : PgDir} {v w f : Nat} (hv : v < 2 ^ 19) (hw : w < 2 ^ 19) (hne : v ≠ w)
    (h₁ : (pg.page v).Maps f) (h₂ : (pg.page w).Maps f) : 2 ≤ pg.own f := by
  have hpair := Finset.sum_le_sum_of_subset (f := fun u => (pg.page u).uses f)
    (Finset.insert_subset (Finset.mem_Ico.mpr ⟨Nat.zero_le v, hv⟩)
      (Finset.singleton_subset_iff.mpr (Finset.mem_Ico.mpr ⟨Nat.zero_le w, hw⟩)))
  rw [Finset.sum_pair hne] at hpair
  have hv' := uses_pos.mpr h₁
  have hw' := uses_pos.mpr h₂
  simp only [PgDir.own, PgDir.pages]
  omega

/-- **`copyuvm` copies.** If it returns a directory, every page below `sz` has the same flag
bits there and a frame of its own that was on the free list, with the contents of the
parent's; nothing else is mapped below the kernel, whose half is what `setupkvm` makes
it; and no frame of the parent is written. -/
theorem copyuvm_copies {pg d : PgDir} {sz : Nat} {m m' : Mem} (hm : FreelistOK m)
    (hnodup : m.freelist.Nodup) (hpar : ∀ f ∈ m.freelist, pg.own f = 0)
    (h : copyuvm pg sz m = .ok (some d, m')) : SpaceCopied pg sz m m' d := by
  unfold copyuvm at h
  obtain ⟨⟨res, m₁⟩, hsetup, h⟩ := bind_ok h
  cases res with
  | none => simp at h
  | some k =>
  obtain ⟨hok₁, -, hsome₁⟩ := setupkvm_spec hsetup
  obtain ⟨hbal₁, hpages₁, -⟩ := hsome₁ k rfl
  obtain ⟨⟨fs₁, htook₁, -⟩, htab, hkern⟩ := (setupkvm_count hsetup).1 k rfl
  simp only at h
  obtain ⟨⟨b, d₂, m₂⟩, hloop, h⟩ := bind_ok h
  cases b with
  | false =>
    obtain ⟨m₃, -, h⟩ := bind_ok h
    simp at h
  | true =>
  simp only [if_true, Except.ok.injEq, Prod.mk.injEq, Option.some.injEq] at h
  obtain ⟨rfl, rfl⟩ := h
  rw [show (0 : Nat) = 0 * pgSize from (Nat.zero_mul pgSize).symm] at hloop
  have hinv := copiedTo_zero htab hpages₁ hkern
  have hfuel : sz ≤ (0 + (sz / pgSize + 1)) * pgSize := by
    simp only [pgSize]
    omega
  have hsz := copyLoop_user hinv hfuel hloop
  have huser : ∀ v, v * pgSize < sz → v < 2 ^ 19 := fun v hv => by
    simp only [pgSize, kernBase] at *
    omega
  obtain ⟨-, -, hbal, hout, hmapped⟩ := copyLoop_spec hsz (hok₁ hm) hloop
  have hcount : ∀ f, m₂.freelist.count f + d₂.own f = m.freelist.count f :=
    fun f => (hbal rfl f).trans (hbal₁ f)
  have hone := fun f => List.nodup_iff_count_le_one.mp hnodup f
  have hsub : ∀ f, f ∈ m₁.freelist → f ∈ m.freelist := fun f hf => by
    rw [htook₁.list]
    exact List.mem_append_right _ hf
  have hnot : ∀ v, v * pgSize < sz → (pg.page v).p = true → p2v (pg.page v).pa ∉ m.freelist :=
    fun v hv hp hin => by
      have hzero := hpar _ hin
      have hpos := own_pos_of_maps (huser v hv) ⟨hp, rfl⟩
      omega
  obtain ⟨fs₂, htook₂, -, hcopied⟩ := copyLoop_contents hsz hinv (hok₁ hm)
    (List.nodup_append.mp (htook₁.list ▸ hnodup)).2.1
    (fun v hv hp hin => hnot v hv hp (hsub _ hin)) hloop (Nat.zero_le _)
    ((pagesFor_le sz).trans_eq (Nat.zero_add _).symm)
  have htook := htook₁.trans htook₂
  have hfresh : ∀ f ∈ fs₂, f ∈ m.freelist := fun f hf => by
    rw [htook.list]
    exact List.mem_append_left _ (List.mem_append_right _ hf)
  -- the page under which a frame is now
  have hpage : ∀ v, v * pgSize < sz → ∃ f ∈ m.freelist, (d₂.page v).Maps f ∧
      d₂.page v = (pg.page v).at (v2p f) ∧ m₂.ram f = m.ram (p2v (pg.page v).pa) := by
    intro v hv
    have hp := (hmapped rfl hfuel v (Nat.zero_le v) hv).1
    obtain ⟨f, hf, heq, hram⟩ := hcopied v (Nat.zero_le v) hv
    have hframe := hm f (hfresh f hf)
    refine ⟨f, hfresh f hf, ⟨?_, ?_⟩, heq, ?_⟩
    · rw [heq, Pte.at_p]
      exact hp
    · rw [heq, Pte.at_pa]
      exact hframe.p2v_v2p
    · rw [hram]
      refine htook₁.ram _ fun hin => hnot v hv hp ?_
      rw [htook₁.list]
      exact List.mem_append_left _ hin
  refine ⟨fun v hv => ?_, fun v w hv hw heq => ?_, fun v hv => ?_, fun v hv hge => ?_,
    ⟨k, m₁, hsetup, fun v hlo hhi => ?_⟩, fun f hf => ?_⟩
  · obtain ⟨f, hf, hmaps, heq, hram⟩ := hpage v hv
    refine ⟨f, hf, ?_, heq, hram⟩
    have hpos := own_pos_of_maps (huser v hv) hmaps
    have hle := hone f
    have hc := hcount f
    exact List.count_eq_zero.mp (by omega)
  · obtain ⟨f, hf, hmaps, -⟩ := hpage v hv
    obtain ⟨g, hg, hmaps', -⟩ := hpage w hw
    have hsame : f = g := by rw [← hmaps.2, heq, hmaps'.2]
    by_contra hne
    have htwo := two_le_own (huser v hv) (huser w hw) hne hmaps (hsame ▸ hmaps')
    have hle := hone f
    have hc := hcount f
    omega
  · obtain ⟨f, hf, hmaps, -⟩ := hpage v hv
    rw [hmaps.2]
    exact hpar f hf
  · rw [hout rfl v (by omega) (.inr hge), hpages₁ v hv]
    rfl
  · exact hout rfl v hhi (.inr (hsz.trans (Nat.mul_le_mul_right pgSize hlo)))
  · refine htook.ram f fun hin => ?_
    have hzero := hpar f (by rw [htook.list]; exact List.mem_append_left _ hin)
    omega

omit [Image] in
/-- The one page of a process, copied into frames from a list of 4096. -/
theorem copyuvm_copies_page : ∃ d m', @copyuvm sampleImage (sampleProc true 1).pgdir pgSize
      ⟨frames 4096 0x82400000, fun _ _ => 0⟩ = .ok (some d, m') ∧
    @SpaceCopied sampleImage (sampleProc true 1).pgdir pgSize ⟨frames 4096 0x82400000, fun _ _ => 0⟩
      m' d := by
  let _ := sampleImage
  obtain ⟨hok, hnodup⟩ := frames_ok (n := 4096) (by decide)
  have hrun : ∃ d m', copyuvm (sampleProc true 1).pgdir pgSize
      ⟨frames 4096 0x82400000, fun _ _ => 0⟩ = .ok (some d, m') ∧ Fits d 0 m' := by
    refine copyuvm_fits (n := 1) hok (by decide) (by decide) (fun w hw => ?_)
      (by rw [frames_length]; decide)
    have hzero : w = 0 := by
      simp only [pgSize] at hw
      omega
    rw [hzero]
    decide
  obtain ⟨d, m', h, -⟩ := hrun
  refine ⟨d, m', h, copyuvm_copies hok hnodup (fun f hf => ?_) h⟩
  -- the parent's frames lie before the list
  obtain ⟨h₁, -, -⟩ := mem_frames hf
  by_contra hne
  obtain ⟨-, htabs⟩ := sample_tabs 1 f
  obtain ⟨-, hpages⟩ := sample_pages 1 f (n := 2 ^ 19) (by decide) (Nat.le_refl _)
  have hown : PgDir.own ⟨sampleBase 1, samplePde (sampleBase 1)⟩ f ≠ 0 := hne
  have hbase : sampleBase 1 = 0x80480000 := rfl
  have hback : p2v (v2p (sampleBase 1 + 2 * pgSize)) = sampleBase 1 + 2 * pgSize := rfl
  rw [hback] at hpages
  simp only [PgDir.own, ne_eq, Nat.add_eq_zero_iff, not_and_or] at hown
  simp only [hbase, pgSize] at *
  rcases hown with (hframe | ht) | hp
  · split at hframe <;> omega
  · have := htabs (Nat.pos_of_ne_zero ht)
    omega
  · have := hpages (Nat.pos_of_ne_zero hp)
    omega

end Xv6
