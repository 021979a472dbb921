import Xv6.Kernel.VmSpec

/-!
# How many frames `setupkvm` and `copyuvm` take

A function that only allocates takes frames off the head of the free list and writes
to no other frame (`Took`). With the page tables a directory has before and after, this
says how many frames `setupkvm` needs, and after how many `copyuvm` stops: one frame
for the page, and before the first page of each 4 MB one more for a page table.

The loop of `copyuvm` stops where the memory gives out (`copyLoop_fails`,
`copyLoop_stops`).
-/

namespace Xv6

open Outcome Function

/-! ## §1  Frames taken off the list -/

/-- The frames `fs` were taken off the free list, in this order, and no other frame was
written. -/
structure Took (fs : List Nat) (m m' : Mem) : Prop where
  list : m.freelist = fs ++ m'.freelist
  ram : ∀ f, f ∉ fs → m'.ram f = m.ram f

section Took

variable {fs fs' : List Nat} {m m' m'' : Mem} {r : Nat}

theorem Took.refl (m : Mem) : Took [] m m := ⟨rfl, fun _ _ => rfl⟩

theorem Took.trans (h : Took fs m m') (h' : Took fs' m' m'') : Took (fs ++ fs') m m'' where
  list := by rw [h.list, h'.list, List.append_assoc]
  ram f hf := by
    rw [List.mem_append, not_or] at hf
    rw [h'.ram f hf.2, h.ram f hf.1]

theorem Took.length (h : Took fs m m') : m.freelist.length = fs.length + m'.freelist.length := by
  rw [h.list, List.length_append]

theorem kalloc_took (h : kalloc m = (some r, m')) : Took [r] m m' where
  list := (kalloc_some h).1
  ram _ _ := by rw [(kalloc_some h).2]

/-- A frame that was taken is written. -/
theorem Took.memset (h : Took fs m m') (hr : r ∈ fs) (c : UInt8) : Took fs m (m'.memset r c) where
  list := h.list
  ram f hf := by
    have hne : f ≠ r := fun heq => hf (heq ▸ hr)
    exact (update_of_ne hne ..).trans (h.ram f hf)

theorem Took.copyPage (h : Took fs m m') (hr : r ∈ fs) (src : Nat) :
    Took fs m (m'.copyPage r src) where
  list := h.list
  ram f hf := by
    have hne : f ≠ r := fun heq => hf (heq ▸ hr)
    exact (update_of_ne hne ..).trans (h.ram f hf)

end Took

/-! ## §2  Page tables -/

section Tables

variable {pg pg' : PgDir} {m m' : Mem}

/-- How many page tables the directory does not have. -/
def PgDir.missing (pg : PgDir) : Nat :=
  ∑ d ∈ Finset.range 1024, if (pg.pde d).isSome then 0 else 1

theorem missing_setEntry (pg : PgDir) (va : Nat) (e : Pte) :
    (pg.setEntry va e).missing = pg.missing := by
  refine Finset.sum_congr rfl fun d _ => ?_
  simp only [PgDir.setEntry_pde_isSome]

/-- A new page table is one less to come. -/
theorem missing_newTab {d : Nat} (hd : d < 1024) (hnone : pg.pde d = none) (t : PgTab) :
    PgDir.missing { pg with pde := update pg.pde d (some t) } + 1 = pg.missing := by
  have := Tally.sum_change (s := Finset.range 1024) (i := d)
    (f := fun d => if (pg.pde d).isSome then 0 else 1)
    (g := fun d' => if ((update pg.pde d (some t)) d').isSome then 0 else 1)
    (Finset.mem_range.mpr hd) (by intro j _ hj; simp [hj])
  simpa [PgDir.missing, hnone] using this

/-- A page table for every table that is there now and was not before. -/
structure Tabled (pg pg' : PgDir) (m m' : Mem) (fs : List Nat) : Prop where
  took : Took fs m m'
  count : pg'.missing + fs.length = pg.missing

theorem Tabled.refl (pg : PgDir) (m : Mem) : Tabled pg pg m m [] := ⟨Took.refl m, Nat.add_zero _⟩

theorem Tabled.trans {pg'' : PgDir} {m'' : Mem} {fs fs' : List Nat} (h : Tabled pg pg' m m' fs)
    (h' : Tabled pg' pg'' m' m'' fs') : Tabled pg pg'' m m'' (fs ++ fs') where
  took := h.took.trans h'.took
  count := by
    rw [List.length_append, ← h.count, ← h'.count]
    omega

/-- **`walkpgdir` with `alloc`** takes a frame if the table is not there. -/
theorem walkpgdir_tabled {va : Nat} (h : walkpgdir pg va true m = some (pg', m')) :
    ∃ fs, Tabled pg pg' m m' fs ∧ fs.length = (if (pg.pde (pdx va)).isSome then 0 else 1) ∧
      ∀ d, (pg'.pde d).isSome ↔ (pg.pde d).isSome ∨ d = pdx va := by
  unfold walkpgdir at h
  split at h
  · rename_i t ht
    simp only [Option.some.injEq, Prod.mk.injEq] at h
    obtain ⟨rfl, rfl⟩ := h
    refine ⟨[], Tabled.refl pg m, by simp [ht], fun d => ?_⟩
    constructor
    · exact .inl
    · rintro (hd | rfl)
      · exact hd
      · rw [ht]
        rfl
  · rename_i hnone
    simp only [if_true] at h
    split at h
    · simp at h
    · rename_i r m₁ hk
      simp only [Option.some.injEq, Prod.mk.injEq] at h
      obtain ⟨rfl, rfl⟩ := h
      refine ⟨[r], ⟨(kalloc_took hk).memset (List.mem_singleton.mpr rfl) 0,
        missing_newTab (pdx_lt va) hnone _⟩, by simp [hnone], fun d => ?_⟩
      by_cases hd : d = pdx va
      · simp [hd]
      · simp [hd]

/-- A null pointer: the list was empty, and the table is not there. -/
theorem walkpgdir_null {va : Nat} (h : walkpgdir pg va true m = none) :
    m.freelist = [] ∧ pg.pde (pdx va) = none := by
  unfold walkpgdir at h
  split at h
  · simp at h
  · rename_i hnone
    simp only [if_true] at h
    split at h
    · rename_i hk
      exact ⟨(kalloc_none hk).2, hnone⟩
    · simp at h

/-- **The loop of `mappages`** makes the tables of the pages it comes to. If it fails, the
list is empty and the table of some page is not there. -/
theorem mapLoop_tabled {perm : Perm} : ∀ {n v pa : Nat} {pg pg' : PgDir} {m m' : Mem} {b : Bool},
    v + n ≤ 2 ^ 20 → mapLoop perm n pg (v * pgSize) pa m = .ok (b, pg', m') →
    (∃ fs, Tabled pg pg' m m' fs) ∧
      (∀ d, (pg'.pde d).isSome → (pg.pde d).isSome ∨ ∃ w, v ≤ w ∧ w < v + n ∧ d = w / 1024) ∧
      (b = true → ∀ w, v ≤ w → w < v + n → (pg'.pde (w / 1024)).isSome) ∧
      (b = false → m'.freelist = [] ∧ ∃ w, v ≤ w ∧ w < v + n ∧ pg'.pde (w / 1024) = none)
  | 0, v, pa, pg, pg', m, m', b, _, h => by
    simp only [mapLoop, Except.ok.injEq, Prod.mk.injEq] at h
    obtain ⟨rfl, rfl, rfl⟩ := h
    refine ⟨⟨[], Tabled.refl pg m⟩, fun d hd => .inl hd, fun _ w h₁ h₂ => ?_, by simp⟩
    omega
  | n + 1, v, pa, pg, pg', m, m', b, hv, h => by
    rw [mapLoop] at h
    split at h
    · rename_i hwalk
      cases h
      obtain ⟨hempty, hnone⟩ := walkpgdir_null hwalk
      rw [pdx_page (by omega)] at hnone
      exact ⟨⟨[], Tabled.refl pg m⟩, fun d hd => .inl hd, by simp,
        fun _ => ⟨hempty, v, Nat.le_refl v, by omega, hnone⟩⟩
    · rename_i pg₁ m₁ hwalk
      obtain ⟨fs, htab, -, hiff⟩ := walkpgdir_tabled hwalk
      rw [pdx_page (by omega)] at hiff
      split at h
      · simp at h
      · have hnext := (Nat.add_one_mul v pgSize).symm
        rw [hnext] at h
        obtain ⟨⟨fs', htab'⟩, hnew, hall, hfail⟩ := mapLoop_tabled (by omega) h
        have hset : Tabled pg (pg₁.setEntry (v * pgSize) (.map pa perm)) m m₁ fs :=
          ⟨htab.took, (congrArg (· + fs.length) (missing_setEntry ..)).trans htab.count⟩
        refine ⟨⟨fs ++ fs', hset.trans htab'⟩, fun d hd => ?_, fun hb w h₁ h₂ => ?_, fun hb => ?_⟩
        · rcases hnew d hd with hd | ⟨w, h₁, h₂, hw⟩
          · rw [PgDir.setEntry_pde_isSome, hiff] at hd
            exact hd.imp_right fun hd => ⟨v, Nat.le_refl v, by omega, hd⟩
          · exact .inr ⟨w, by omega, by omega, hw⟩
        · rcases Nat.eq_or_lt_of_le h₁ with rfl | h₁
          · -- the table of the first page stays
            obtain ⟨hgrew, -⟩ := mapLoop_spec (by omega) h
            exact hgrew.tab _ ((PgDir.setEntry_pde_isSome ..).mpr ((hiff _).mpr (.inr rfl)))
          · exact hall hb w h₁ (by omega)
        · obtain ⟨hempty, w, h₁, h₂, hnone⟩ := hfail hb
          exact ⟨hempty, w, by omega, by omega, hnone⟩

/-- The loop of `mappages` comes back if the pages are not mapped. -/
theorem mapLoop_returns (perm : Perm) : ∀ {n v : Nat} (pa : Nat) (pg : PgDir) (m : Mem),
    v + n ≤ 2 ^ 20 → (∀ w, v ≤ w → w < v + n → (pg.page w).p = false) →
    ∃ r, mapLoop perm n pg (v * pgSize) pa m = .ok r
  | 0, v, pa, pg, m, _, _ => ⟨(true, pg, m), rfl⟩
  | n + 1, v, pa, pg, m, hv, hfresh => by
    cases hwalk : walkpgdir pg (v * pgSize) true m with
    | none => exact ⟨(false, pg, m), by rw [mapLoop, hwalk]⟩
    | some r =>
      obtain ⟨pg₁, m₁⟩ := r
      obtain ⟨-, htab, hentry⟩ := walkpgdir_alloc hwalk
      have hp : (pg₁.entry (v * pgSize)).p = false := by
        rw [hentry]
        exact hfresh v (Nat.le_refl v) (by omega)
      have hnext := (Nat.add_one_mul v pgSize).symm
      obtain ⟨r, hr⟩ := mapLoop_returns perm (n := n) (v := v + 1) (pa + pgSize)
        (pg₁.setEntry (v * pgSize) (.map pa perm)) m₁ (by omega) fun w h₁ h₂ => by
          rw [PgDir.page_setEntry _ (by omega) (by omega) htab, if_neg (by omega), PgDir.page,
            hentry]
          exact hfresh w (by omega) (by omega)
      refine ⟨r, ?_⟩
      simp only [mapLoop, hwalk, hp, Bool.false_eq_true, if_false, hnext]
      exact hr

/-- A page that is mapped already. -/
theorem mappages_present {v : Nat} (pa : Nat) (perm : Perm) (m : Mem)
    (hp : (pg.page v).p = true) : mappages pg (v * pgSize) pgSize pa perm m = .error .remap := by
  obtain ⟨t, ht⟩ := Option.isSome_iff_exists.mp (tab_of_present hp)
  have hwalk : walkpgdir pg (v * pgSize) true m = some (pg, m) := by
    unfold walkpgdir
    rw [ht]
  rw [mappages_page, mapLoop, hwalk]
  exact if_pos hp

/-- **`mappages` of one page** fails only for want of a page table. -/
theorem mappages_page_tabled {v pa : Nat} {perm : Perm} {b : Bool} (hv : v < 2 ^ 20)
    (h : mappages pg (v * pgSize) pgSize pa perm m = .ok (b, pg', m')) :
    if b then ∃ fs, Took fs m m' ∧ fs.length = (if (pg.pde (v / 1024)).isSome then 0 else 1) ∧
      ∀ d, (pg'.pde d).isSome ↔ (pg.pde d).isSome ∨ d = v / 1024
    else m.freelist = [] ∧ pg.pde (v / 1024) = none ∧ pg' = pg ∧ m' = m := by
  rw [mappages_page, mapLoop] at h
  split at h
  · rename_i hwalk
    cases h
    obtain ⟨hempty, hnone⟩ := walkpgdir_null hwalk
    rw [pdx_page hv] at hnone
    exact ⟨hempty, hnone, rfl, rfl⟩
  · rename_i pg₁ m₁ hwalk
    obtain ⟨fs, htab, hlen, hiff⟩ := walkpgdir_tabled hwalk
    rw [pdx_page hv] at hlen hiff
    split at h
    · simp at h
    · simp only [mapLoop, Except.ok.injEq, Prod.mk.injEq] at h
      obtain ⟨rfl, rfl, rfl⟩ := h
      refine ⟨fs, htab.took, hlen, fun d => ?_⟩
      rw [PgDir.setEntry_pde_isSome]
      exact hiff d

/-- It comes back if the page is not mapped. -/
theorem mappages_page_returns {v : Nat} (pa : Nat) (perm : Perm) (m : Mem) (hv : v < 2 ^ 20)
    (hp : (pg.page v).p = false) :
    ∃ b pg' m', mappages pg (v * pgSize) pgSize pa perm m = .ok (b, pg', m') := by
  rw [mappages_page]
  obtain ⟨⟨b, pg', m'⟩, hr⟩ := mapLoop_returns perm (n := 1) (v := v) pa pg m (by omega) fun w h₁ h₂ => by
    rw [show w = v by omega]
    exact hp
  exact ⟨b, pg', m', hr⟩

end Tables

/-! ## §3  `freevm` -/

section Freevm

variable [Image] {pg pg' : PgDir} {m m' : Mem} {v : Nat}

/-- Everything `freevm` passes to `kfree` is a frame. -/
structure OwnsFrames (pg : PgDir) : Prop where
  frame : IsFrame pg.frame
  tab : ∀ d < 1024, ∀ f, pg.tabFrame d = some f → IsFrame f
  page : ∀ w < 2 ^ 19, (pg.page w).p = true → IsFrame (p2v (pg.page w).pa)

theorem kfree_frame (h : IsFrame v) (m : Mem) : ∃ m', kfree v m = .ok m' :=
  ⟨_, kfree_of_isFrame m h⟩

/-- **`deallocuvm` comes back** if it comes to frames only. -/
theorem deallocuvm_returns (pg : PgDir) {oldsz newsz : Nat} (m : Mem) (hsz : oldsz ≤ kernBase)
    (h : ∀ w, pgRoundUp newsz ≤ w * pgSize → w * pgSize < oldsz → (pg.page w).p = true →
      IsFrame (p2v (pg.page w).pa)) :
    ∃ pg' m', deallocuvm pg oldsz newsz m =
      .ok (if oldsz ≤ newsz then oldsz else newsz, pg', m') := by
  have hframes : ∀ f ∈ pg.framesAt (pageAddrs newsz oldsz), IsFrame f := by
    intro f hf
    obtain ⟨w, hlo, hhi, hp, rfl⟩ := mem_framesAt hf
    exact h w hlo hhi hp
  obtain ⟨m', hfree⟩ := kfreeAll_ok_iff.mpr hframes
  refine ⟨pg.clear (pageAddrs newsz oldsz), m', ?_⟩
  rw [deallocuvm_eq_visit hsz, visitPages_range newsz hsz, hfree, ← Nat.min_def, Nat.min_comm]
  rfl

theorem freevm_owns (h : OwnsFrames pg) (m : Mem) : ∃ m', freevm pg m = .ok m' := by
  rw [freevm_eq, if_neg h.frame.ne_zero]
  refine kfreeAll_ok_iff.mpr fun f hf => ?_
  simp only [PgDir.frames, List.mem_append, List.mem_singleton] at hf
  rcases hf with (hf | hf) | rfl
  · obtain ⟨w, -, hhi, hp, rfl⟩ := mem_framesAt hf
    exact h.page w (by simp only [pgSize, kernBase] at hhi; omega) hp
  · obtain ⟨d, hd, hf⟩ := List.mem_filterMap.mp hf
    exact h.tab d (List.mem_range.mp hd) f hf
  · exact h.frame

/-- New page tables were on the free list. -/
theorem OwnsFrames.of_grew (h : OwnsFrames pg) (hm : FreelistOK m) (hgrew : Grew pg pg' m m')
    (hpage : ∀ w < 2 ^ 19, (pg'.page w).p = true → IsFrame (p2v (pg'.page w).pa)) :
    OwnsFrames pg' where
  frame := by
    rw [hgrew.frame]
    exact h.frame
  tab d hd g hg := by
    have hpos := Tally.le_sum (f := fun d => if pg'.tabFrame d = some g then 1 else 0)
      (Finset.mem_range.mpr hd)
    have hbal := hgrew.balance g
    rw [if_pos hg] at hpos
    -- a table of the new directory was on the free list, or is an old one
    by_cases hlist : g ∈ m.freelist
    · exact hm g hlist
    · rw [List.count_eq_zero.mpr hlist, PgDir.tabs, PgDir.tabs] at hbal
      obtain ⟨d', hd', hd''⟩ := Tally.exists_pos_of_sum (s := Finset.range 1024)
        (f := fun d => if pg.tabFrame d = some g then 1 else 0) (by omega)
      refine h.tab d' (Finset.mem_range.mp hd') g ?_
      by_contra hne
      simp [hne] at hd''
  page := hpage

end Freevm

/-! ## §4  `setupkvm` -/

/-- The first and the last page of a row of `kmap`. -/
def KMap.first (r : KMap) : Nat := r.virt / pgSize
def KMap.last (r : KMap) : Nat := (r.virt + r.size - 1) / pgSize

theorem KMap.last_lt (r : KMap) (h : r.virt + r.size ≤ 2 ^ 32) : r.last < 2 ^ 20 := by
  simp only [KMap.last, pgSize]
  omega

/-- The tables of the pages in a row of `kmap`. -/
def KMap.Covers (r : KMap) (d : Nat) : Prop := ∃ w, r.first ≤ w ∧ w ≤ r.last ∧ d = w / 1024

section Rows

variable {r : KMap} {pg pg' : PgDir} {m m' : Mem} {b : Bool}

theorem mappages_row (pg : PgDir) (m : Mem) : mappages pg r.virt r.size r.physStart r.perm m =
    mapLoop r.perm (r.last - r.first + 1) pg (r.first * pgSize) r.physStart m := by
  have hn : (r.last * pgSize - r.first * pgSize) / pgSize = r.last - r.first := by
    simp only [pgSize]
    omega
  rw [← hn]
  rfl

theorem KMap.first_le_last (hpos : 0 < r.size) : r.first ≤ r.last :=
  Nat.div_le_div_right (by omega)

/-- One row: what it maps is present, what was present stays so, and the tables are
those of its pages. -/
theorem mappages_row_tabled (hpos : 0 < r.size) (hend : r.virt + r.size ≤ 2 ^ 32)
    (h : mappages pg r.virt r.size r.physStart r.perm m = .ok (b, pg', m')) :
    (∃ fs, Tabled pg pg' m m' fs) ∧
      (∀ d, (pg'.pde d).isSome → (pg.pde d).isSome ∨ r.Covers d) ∧
      (∀ w < 2 ^ 20, (pg.page w).p = true → (pg'.page w).p = true) ∧
      (b = true → (∀ d, r.Covers d → (pg'.pde d).isSome) ∧
        ∀ w, r.first ≤ w → w ≤ r.last → (pg'.page w).p = true) ∧
      (b = false → m'.freelist = [] ∧ ∃ d, r.Covers d ∧ pg'.pde d = none) := by
  have hlast := r.last_lt hend
  have hle := KMap.first_le_last hpos
  have hn : r.first + (r.last - r.first + 1) = r.last + 1 := by omega
  rw [mappages_row] at h
  obtain ⟨htab, hnew, hall, hfail⟩ := mapLoop_tabled (by omega) h
  obtain ⟨-, k, -, hk, -, hpages⟩ := mapLoop_spec (by omega) h
  rw [hn] at hnew hall hfail
  refine ⟨htab, fun d hd => ?_, fun w hw hp => ?_, fun hb => ⟨?_, fun w h₁ h₂ => ?_⟩, fun hb => ?_⟩
  · exact (hnew d hd).imp_right fun ⟨w, h₁, h₂, hw⟩ => ⟨w, h₁, by omega, hw⟩
  · rw [hpages w hw]
    split
    · rfl
    · exact hp
  · rintro d ⟨w, h₁, h₂, rfl⟩
    exact hall hb w h₁ (by omega)
  · rw [hpages w (by omega), if_pos (by rw [hk hb]; omega)]
    rfl
  · obtain ⟨hempty, w, h₁, h₂, hnone⟩ := hfail hb
    exact ⟨hempty, w / 1024, ⟨w, h₁, by omega, rfl⟩, hnone⟩

end Rows

variable [Image]

/-- The tables of all the rows, or, when the list ran empty, some of them. -/
theorem mapKernel_tabled {m' : Mem} {res : Option PgDir} : ∀ {rs : List KMap} {pg : PgDir} {m : Mem},
    (∀ r ∈ rs, 0 < r.size ∧ r.virt + r.size ≤ 2 ^ 32) → mapKernel rs pg m = .ok (res, m') →
    (∀ pg', res = some pg' → (∃ fs, Tabled pg pg' m m' fs) ∧
      (∀ d, (pg'.pde d).isSome ↔ (pg.pde d).isSome ∨ ∃ r ∈ rs, r.Covers d) ∧
      (∀ w < 2 ^ 20, (pg.page w).p = true → (pg'.page w).p = true) ∧
      ∀ r ∈ rs, ∀ w, r.first ≤ w → w ≤ r.last → (pg'.page w).p = true) ∧
    (res = none → ∃ pg' : PgDir, (∀ d, (pg'.pde d).isSome → (pg.pde d).isSome ∨ ∃ r ∈ rs, r.Covers d) ∧
      (∃ d, (∃ r ∈ rs, r.Covers d) ∧ pg'.pde d = none) ∧
      m.freelist.length + pg'.missing = pg.missing)
  | [], pg, m, _, h => by
    simp only [mapKernel, Except.ok.injEq, Prod.mk.injEq] at h
    obtain ⟨rfl, rfl⟩ := h
    refine ⟨?_, by simp⟩
    rintro _ ⟨⟩
    exact ⟨⟨[], Tabled.refl pg m⟩, by simp, fun _ _ h => h, by simp⟩
  | r :: rs, pg, m, hsize, h => by
    rw [mapKernel] at h
    obtain ⟨⟨b, pg₁, m₁⟩, hmap, h⟩ := bind_ok h
    obtain ⟨hpos, hend⟩ := hsize r List.mem_cons_self
    obtain ⟨⟨fs, htab⟩, hnew, hkeep, hdone, hfail⟩ := mappages_row_tabled hpos hend hmap
    have hold : ∀ d, (pg₁.pde d).isSome → (pg.pde d).isSome ∨ ∃ r' ∈ r :: rs, r'.Covers d :=
      fun d hd => (hnew d hd).imp_right fun hd => ⟨r, List.mem_cons_self, hd⟩
    cases b with
    | true =>
      obtain ⟨hcover, hpresent⟩ := hdone rfl
      obtain ⟨hsome, hnone⟩ :=
        mapKernel_tabled (fun r' hr' => hsize r' (List.mem_cons_of_mem _ hr')) h
      have hrow : ∀ d, (pg₁.pde d).isSome ↔ (pg.pde d).isSome ∨ r.Covers d := fun d =>
        ⟨hnew d, fun hd => hd.elim ((mapLoop_spec (by
          have := r.last_lt hend
          have := KMap.first_le_last hpos
          omega) (mappages_row pg m ▸ hmap)).1.tab d) (hcover d)⟩
      refine ⟨fun pg' hpg => ?_, fun hres => ?_⟩
      · obtain ⟨⟨fs', htab'⟩, hiff, hkeep', hpresent'⟩ := hsome pg' hpg
        refine ⟨⟨fs ++ fs', htab.trans htab'⟩, fun d => ?_,
          fun w hw hp => hkeep' w hw (hkeep w hw hp), fun r' hr' w h₁ h₂ => ?_⟩
        · rw [hiff, hrow, List.exists_mem_cons_iff, or_assoc]
        · rcases List.mem_cons.mp hr' with rfl | hr'
          · have := r'.last_lt hend
            exact hkeep' w (by omega) (hpresent w h₁ h₂)
          · exact hpresent' r' hr' w h₁ h₂
      · obtain ⟨pg', htabs, ⟨d, ⟨r', hr', hd⟩, hgone⟩, hcount⟩ := hnone hres
        refine ⟨pg', fun d hd => ?_, ⟨d, ⟨r', List.mem_cons_of_mem _ hr', hd⟩, hgone⟩, ?_⟩
        · rcases htabs d hd with hd | ⟨r', hr', hd⟩
          · exact hold d hd
          · exact .inr ⟨r', List.mem_cons_of_mem _ hr', hd⟩
        · have h₁ := htab.took.length
          have h₂ := htab.count
          omega
    | false =>
      simp only [Bool.false_eq_true, if_false] at h
      obtain ⟨m₂, hfree, h⟩ := bind_ok h
      cases h
      obtain ⟨hempty, d, hd, hgone⟩ := hfail rfl
      refine ⟨by simp, fun _ => ⟨pg₁, hold, ⟨d, ⟨r, List.mem_cons_self, hd⟩, hgone⟩, ?_⟩⟩
      have h₁ := htab.took.length
      have h₂ := htab.count
      rw [hempty, List.length_nil] at h₁
      omega

omit [Image] in
/-- The page tables of the kernel: up to `PHYSTOP`, and for the devices. -/
def KernelTab (d : Nat) : Prop := 512 ≤ d ∧ d < 568 ∨ 1016 ≤ d ∧ d < 1024

instance (d : Nat) : Decidable (KernelTab d) := by
  unfold KernelTab
  infer_instance

theorem kmap_covers (d : Nat) : (∃ r ∈ kmap, r.Covers d) ↔ KernelTab d := by
  have h₁ := Image.kernLink_lt_data
  have h₂ := Image.data_le_kend
  have h₃ := Image.kend_lt
  have h₄ := Image.data_aligned
  constructor
  · rintro ⟨r, hr, w, h₅, h₆, rfl⟩
    simp only [kmap, List.mem_cons, List.not_mem_nil, or_false] at hr
    rcases hr with rfl | rfl | rfl | rfl <;>
      simp only [KernelTab, KMap.first, KMap.last, KMap.size, v2p, kernLink, kernBase, extMem,
        physTop, devSpace, pgSize] at * <;> omega
  · intro hd
    -- the first page of the table is in some row
    by_contra hno
    have hrow : ∀ r ∈ kmap, ¬ (r.first ≤ d * 1024 ∧ d * 1024 ≤ r.last) :=
      fun r hr h => hno ⟨r, hr, d * 1024, h.1, h.2, by omega⟩
    simp only [kmap, List.mem_cons, List.not_mem_nil, or_false, forall_eq_or_imp, forall_eq,
      KernelTab, KMap.first, KMap.last, KMap.size, v2p, kernLink, kernBase, extMem, physTop,
      devSpace, pgSize] at *
    omega

omit [Image] in
/-- A directory with tables for the kernel only. -/
theorem missing_kernel_le {pg : PgDir} (h : ∀ d, (pg.pde d).isSome → KernelTab d) :
    960 ≤ pg.missing := by
  have hsum : 960 = ∑ d ∈ Finset.range 1024, if KernelTab d then 0 else 1 := by decide +kernel
  rw [hsum]
  refine Finset.sum_le_sum fun d _ => ?_
  by_cases hd : (pg.pde d).isSome
  · rw [if_pos (h d hd)]
    exact Nat.zero_le _
  · rw [if_neg hd]
    split <;> omega

omit [Image] in
theorem missing_kernel {pg : PgDir} (h : ∀ d, (pg.pde d).isSome ↔ KernelTab d) :
    pg.missing = 960 := by
  have hsum : 960 = ∑ d ∈ Finset.range 1024, if KernelTab d then 0 else 1 := by decide +kernel
  rw [hsum]
  exact Finset.sum_congr rfl fun d _ => by simp only [h]

omit [Image] in
/-- One of the kernel's tables is not there. -/
theorem missing_kernel_lt {pg : PgDir} (h : ∀ d, (pg.pde d).isSome → KernelTab d) {d : Nat}
    (hd : KernelTab d) (hnone : pg.pde d = none) : 960 < pg.missing := by
  have hone : PgDir.missing { pg with
      pde := update pg.pde d (some ⟨0, fun _ => .zero⟩) } + 1 = pg.missing :=
    missing_newTab (by unfold KernelTab at hd; omega) hnone _
  have hle : 960 ≤ PgDir.missing { pg with
      pde := update pg.pde d (some ⟨0, fun _ => .zero⟩) } := missing_kernel_le fun d' hd' => by
    by_cases heq : d' = d
    · exact heq ▸ hd
    · refine h d' ?_
      simpa [heq] using hd'
  omega

omit [Image] in
theorem missing_empty (r : Nat) : PgDir.missing ⟨r, fun _ => none⟩ = 1024 := by
  simp [PgDir.missing]

/-- **`setupkvm` takes 65 frames**: the directory and 64 page tables. It fails only if there are
fewer. -/
theorem setupkvm_count {m m' : Mem} {res : Option PgDir} (h : setupkvm m = .ok (res, m')) :
    (∀ pg, res = some pg → (∃ fs, Took fs m m' ∧ fs.length = 65) ∧
      (∀ d, (pg.pde d).isSome ↔ KernelTab d) ∧ (pg.page (2 ^ 19)).p = true) ∧
    (res = none → m.freelist.length < 65) := by
  unfold setupkvm at h
  split at h
  · rename_i m₁ hk
    cases h
    rw [(kalloc_none hk).2]
    exact ⟨by simp, fun _ => by decide⟩
  · rename_i r m₁ hk
    simp only at h
    split at h
    · simp at h
    · obtain ⟨hsome, hnone⟩ := mapKernel_tabled (fun r hr => (kmap_kernel hr).2) h
      have hfirst : Took [r] m (m₁.memset r 0) :=
        (kalloc_took hk).memset (List.mem_singleton.mpr rfl) 0
      refine ⟨fun pg hpg => ?_, fun hres => ?_⟩
      · obtain ⟨⟨fs, htab⟩, hiff, -, hpresent⟩ := hsome pg hpg
        have htabs : ∀ d, (pg.pde d).isSome ↔ KernelTab d := fun d => by
          rw [hiff, kmap_covers]
          simp
        refine ⟨⟨_, hfirst.trans htab.took, ?_⟩, htabs, ?_⟩
        · have hcount := htab.count
          rw [missing_kernel htabs, missing_empty] at hcount
          rw [List.length_append, List.length_singleton]
          omega
        · refine hpresent _ List.mem_cons_self (2 ^ 19) ?_ ?_ <;>
            simp only [KMap.first, KMap.last, KMap.size, kernBase, extMem, pgSize] <;> omega
      · obtain ⟨pg', hsub, ⟨d, hd, hgone⟩, hcount⟩ := hnone hres
        have hlt := missing_kernel_lt (fun d hd => by
          simpa [kmap_covers] using hsub d hd) ((kmap_covers d).mp hd) hgone
        have hlen := hfirst.length
        rw [missing_empty] at hcount
        rw [List.length_singleton] at hlen
        omega

/-- The rows of `kmap` stand in the order of their addresses. -/
theorem kmap_ascending : kmap.Pairwise fun r r' => r.last < r'.first := by
  have h₁ := Image.kernLink_lt_data
  have h₂ := Image.data_le_kend
  have h₃ := Image.kend_lt
  have h₄ := Image.data_aligned
  simp only [kmap, List.pairwise_cons, List.mem_cons, List.not_mem_nil, or_false, forall_eq_or_imp,
    forall_eq, KMap.first, KMap.last, KMap.size, v2p, kernLink, kernBase, extMem, physTop, devSpace,
    pgSize] at *
  refine ⟨⟨?_, ?_, ?_⟩, ⟨?_, ?_⟩, ?_, by simp⟩ <;> omega

/-- Rows one above the other are mapped, or everything is given back. -/
theorem mapKernel_returns {rs : List KMap} {pg : PgDir} {m : Mem}
    (hsize : ∀ r ∈ rs, kernBase ≤ r.virt ∧ 0 < r.size ∧ r.virt + r.size ≤ 2 ^ 32)
    (hpair : rs.Pairwise fun r r' => r.last < r'.first)
    (hfresh : ∀ r ∈ rs, ∀ w, r.first ≤ w → w ≤ r.last → (pg.page w).p = false)
    (howns : OwnsFrames pg) (hm : FreelistOK m) : ∃ res, mapKernel rs pg m = .ok res := by
  induction rs generalizing pg m with
  | nil => exact ⟨_, rfl⟩
  | cons r rs ih =>
    obtain ⟨hvirt, hpos, hend⟩ := hsize r List.mem_cons_self
    obtain ⟨hr, hpair⟩ := List.pairwise_cons.mp hpair
    have hlast := r.last_lt hend
    have hle := KMap.first_le_last hpos
    obtain ⟨⟨b, pg₁, m₁⟩, hloop⟩ := mapLoop_returns r.perm
      (n := r.last - r.first + 1) (v := r.first) r.physStart pg m (by omega)
      fun w h₁ h₂ => hfresh r List.mem_cons_self w h₁ (by omega)
    have hmap : mappages pg r.virt r.size r.physStart r.perm m = .ok (b, pg₁, m₁) :=
      (mappages_row pg m).trans hloop
    obtain ⟨hgrew, hsame⟩ := mappages_kernel hvirt hpos hend hmap
    have howns₁ : OwnsFrames pg₁ := howns.of_grew hm hgrew fun w hw hp => by
      rw [hsame w hw] at hp ⊢
      exact howns.page w hw hp
    cases b with
    | true =>
      obtain ⟨-, k, hk, -, -, hpages⟩ := mapLoop_spec (by omega) hloop
      obtain ⟨res, hres⟩ := ih (fun r' hr' => hsize r' (List.mem_cons_of_mem _ hr')) hpair
        (fun r' hr' w h₁ h₂ => by
          have hmem := List.mem_cons_of_mem r hr'
          have hlt := hr r' hr'
          have hw := r'.last_lt (hsize r' hmem).2.2
          rw [hpages w (by omega), if_neg (by omega)]
          exact hfresh r' hmem w h₁ h₂) howns₁ (hgrew.freelistOK hm)
      exact ⟨res, ok_bind hmap hres⟩
    | false =>
      obtain ⟨m₂, hfree⟩ := freevm_owns howns₁ m₁
      exact ⟨_, ok_bind hmap (ok_bind hfree rfl)⟩

/-- **`setupkvm` comes back**, however little memory there is. -/
theorem setupkvm_returns {m : Mem} (hm : FreelistOK m) :
    ∃ res m', setupkvm m = .ok (res, m') := by
  unfold setupkvm
  cases hk : kalloc m with
  | mk r m₁ =>
  cases r with
  | none => exact ⟨none, m₁, rfl⟩
  | some r =>
    obtain ⟨hr, hm₁⟩ := kalloc_frame hk hm
    have howns : OwnsFrames ⟨r, fun _ => none⟩ := by
      refine ⟨hr, fun d _ f hf => ?_, fun w _ hp => ?_⟩
      · simp [PgDir.tabFrame] at hf
      · simp [PgDir.page, PgDir.entry, Pte.zero] at hp
    have hlow : ¬ p2v physTop > devSpace := by decide
    simp only [hlow, if_false]
    obtain ⟨⟨res, m'⟩, hres⟩ := mapKernel_returns (fun r hr => kmap_kernel hr) kmap_ascending
      (fun _ _ _ _ _ => rfl) howns (m := m₁.memset r 0) hm₁
    exact ⟨res, m', hres⟩

/-! ## §5  The loop of `copyuvm` -/

/-- The page tables for `v` pages from address 0 on. -/
def tabsFor (v : Nat) : Nat := (v + 1023) / 1024

/-- The pages below `sz`. -/
def pagesFor (sz : Nat) : Nat := (sz + pgSize - 1) / pgSize

omit [Image] in
theorem pagesFor_le (sz : Nat) : pagesFor sz ≤ sz / pgSize + 1 := by
  simp only [pagesFor, pgSize]
  omega

/-- The directory `d` has the tables for the first `v` user pages, and the kernel's. -/
structure CopiedTo (v : Nat) (d : PgDir) : Prop where
  le : v ≤ 2 ^ 19
  tab : ∀ t < 512, (d.pde t).isSome ↔ t * 1024 < v
  fresh : ∀ u < 2 ^ 19, v ≤ u → (d.page u).p = false
  kernel : (d.page (2 ^ 19)).p = true

/-- The same flag bits, and another page. -/
def Pte.at (e : Pte) (pa : Nat) : Pte := { e with pa := pa }

omit [Image] in
@[simp] theorem Pte.at_p (e : Pte) (pa : Nat) : (e.at pa).p = e.p := rfl

omit [Image] in
@[simp] theorem Pte.at_pa (e : Pte) (pa : Nat) : (e.at pa).pa = pa := rfl

omit [Image] in
theorem Pte.map_flags {e : Pte} (h : e.p = true) (pa : Nat) : Pte.map pa e.flags = e.at pa := by
  simp [Pte.map, Pte.flags, Pte.at, h]

section CopyLoop

variable {pg d d' : PgDir} {sz fuel v : Nat} {m m' : Mem} {b : Bool}

omit [Image] in
/-- A page is copied: it is a user page, and its first page needs a table. -/
theorem CopiedTo.next (hinv : CopiedTo v d) {pa : Nat} {perm : Perm}
    (h : mappages d (v * pgSize) pgSize pa perm m = .ok (true, d', m')) :
    v < 2 ^ 19 ∧ CopiedTo (v + 1) d' ∧
      ∃ fs, Took fs m m' ∧ fs.length + tabsFor v = tabsFor (v + 1) := by
  have hle := hinv.le
  have hlt : v < 2 ^ 19 := by
    rcases Nat.lt_or_eq_of_le hle with hlt | rfl
    · exact hlt
    · rw [mappages_present pa perm m hinv.kernel] at h
      cases h
  obtain ⟨fs, htook, hlen, hiff⟩ := mappages_page_tabled (by omega) h
  obtain ⟨-, -, hpages⟩ := mappages_page_spec (by omega) h
  have hv := hinv.tab (v / 1024) (by omega)
  refine ⟨hlt, ⟨by omega, fun t ht => ?_, fun u hu hle => ?_, ?_⟩, fs, htook, ?_⟩
  · rw [hiff, hinv.tab t ht]
    omega
  · rw [hpages u (by omega), if_neg (by omega)]
    exact hinv.fresh u hu (by omega)
  · rw [hpages _ (by omega), if_neg (by omega)]
    exact hinv.kernel
  · simp only [tabsFor, hlen, hv]
    split <;> omega

omit [Image] in
/-- The loop does not come to the end of pages of the kernel. -/
theorem copyLoop_user (hinv : CopiedTo v d) (hfuel : sz ≤ (v + fuel) * pgSize)
    (h : copyLoop pg sz fuel d (v * pgSize) m = .ok (true, d', m')) : sz ≤ kernBase := by
  induction fuel generalizing v d m with
  | zero =>
    have hle := hinv.le
    simp only [pgSize, kernBase] at *
    omega
  | succ fuel ih =>
    have hle := hinv.le
    rcases copyLoop_round h with ⟨hge, -⟩ |
      ⟨-, -, ⟨-, ⟨⟩, -⟩ | ⟨mem, m₁, b₁, d₁, m₂, -, hmap, ⟨-, ⟨⟩, -⟩ | ⟨rfl, h⟩⟩⟩
    · simp only [pgSize, kernBase] at *
      omega
    · obtain ⟨-, hnext, -⟩ := hinv.next hmap
      refine ih hnext ?_ h
      rw [Nat.add_assoc, Nat.add_comm 1]
      exact hfuel

/-- **Where `copyuvm` stops.** The memory gives out at a page `w`; either there was no frame for
the page, and none is lost, or there was none for its table, and the frame of the page is lost. -/
theorem copyLoop_fails : ∀ {fuel v : Nat} {d : PgDir} {m : Mem}, CopiedTo v d → FreelistOK m →
    copyLoop pg sz fuel d (v * pgSize) m = .ok (false, d', m') →
    ∃ w, v ≤ w ∧ w * pgSize < sz ∧ (∀ u, v ≤ u → u ≤ w → (pg.page u).p = true) ∧
      ((m.freelist.length + v + tabsFor v = w + tabsFor w ∧
          ∀ f, m'.freelist.count f + d'.own f = m.freelist.count f + d.own f) ∨
        (w % 1024 = 0 ∧ m.freelist.length + v + tabsFor v = w + tabsFor w + 1 ∧
          ∃ f₀, ∀ f, m'.freelist.count f + d'.own f + (if f₀ = f then 1 else 0) =
            m.freelist.count f + d.own f))
  | 0, v, d, m, _, _, h => by simp [copyLoop] at h
  | fuel + 1, v, d, m, hinv, hm, h => by
    have hle := hinv.le
    have hhere : (pg.page v).p = true → ∀ u, v ≤ u → u ≤ v → (pg.page u).p = true :=
      fun hp u h₁ h₂ => Nat.le_antisymm h₂ h₁ ▸ hp
    rcases copyLoop_round h with ⟨-, ⟨⟩, -⟩ |
      ⟨hlt, hp, ⟨hempty, -, rfl, rfl⟩ | ⟨mem, m₁, b₁, d₁, m₂, hk, hmap, h⟩⟩
    · exact ⟨v, Nat.le_refl v, hlt, hhere hp, .inl ⟨by simp [hempty], fun _ => rfl⟩⟩
    have hcount := kalloc_count hk
    have hlen := (kalloc_took hk).length
    obtain ⟨hmem, hm₁⟩ := kalloc_frame hk hm
    rcases h with ⟨rfl, -, rfl, rfl⟩ | ⟨rfl, h⟩
    · -- the frame `mem` is in no tally from here on
      obtain ⟨hempty, hnone, rfl, rfl⟩ := mappages_page_tabled (by omega) hmap
      rw [copyPage_freelist] at hempty
      have hv := hinv.tab (v / 1024)
      rw [hnone] at hv
      refine ⟨v, Nat.le_refl v, hlt, hhere hp, .inr ⟨?_, ?_, mem, fun f => ?_⟩⟩
      · by_contra hmod
        have hsome := (hv (by omega)).mpr (by omega)
        cases hsome
      · simp [hlen, hempty]
        omega
      · rw [hcount f, copyPage_freelist]
        omega
    · obtain ⟨hv, hnext, fs, htook, htabs⟩ := hinv.next hmap
      obtain ⟨hgrew, hfresh, hpages⟩ := mappages_page_spec (by omega) hmap
      simp only [true_and] at hpages
      have hown := hgrew.own_map hv (hfresh rfl) hpages
      simp only [hmem.p2v_v2p, copyPage_freelist] at hown
      have hlen₂ := htook.length
      rw [copyPage_freelist] at hlen₂
      rw [List.length_singleton] at hlen
      obtain ⟨w, hvw, hw, hpresent, hcase⟩ := copyLoop_fails hnext (hgrew.freelistOK hm₁) h
      refine ⟨w, by omega, hw, fun u h₁ h₂ => ?_, ?_⟩
      · rcases Nat.eq_or_lt_of_le h₁ with rfl | h₁
        · exact hp
        · exact hpresent u h₁ h₂
      · rcases hcase with ⟨hl, hbal⟩ | ⟨hmod, hl, f₀, hbal⟩
        · refine .inl ⟨by omega, fun f => ?_⟩
          have := hbal f
          have := hown f
          have := hcount f
          omega
        · refine .inr ⟨hmod, by omega, f₀, fun f => ?_⟩
          have := hbal f
          have := hown f
          have := hcount f
          omega

omit [Image] in
/-- If the memory is just enough for the pages before `w`, the loop does stop there. -/
theorem copyLoop_stops {w : Nat} (hw : w * pgSize < sz) (hw' : w < 2 ^ 19) :
    ∀ {fuel v : Nat} {d : PgDir} {m : Mem}, CopiedTo v d → v ≤ w → w < v + fuel →
      (∀ u, v ≤ u → u ≤ w → (pg.page u).p = true) →
      (m.freelist.length + v + tabsFor v = w + tabsFor w ∨
        w % 1024 = 0 ∧ m.freelist.length + v + tabsFor v = w + tabsFor w + 1) →
      ∃ d' m', copyLoop pg sz fuel d (v * pgSize) m = .ok (false, d', m')
  | 0, v, d, m, _, h₁, h₂, _, _ => by omega
  | fuel + 1, v, d, m, hinv, hvw, hfuel, hpresent, hroom => by
    have hv : v * pgSize < sz := (Nat.mul_le_mul_right _ hvw).trans_lt hw
    have hp : (pg.entry (v * pgSize)).p = true := hpresent v (Nat.le_refl v) hvw
    have htab := tab_of_present hp
    rw [copyLoop, if_pos hv, walkpgdir_noalloc, if_pos htab]
    simp only [hp, if_true]
    cases hl : m.freelist with
    | nil => exact ⟨d, m, by simp [kalloc, hl]⟩
    | cons mem rest =>
      have hk : kalloc m = (some mem, { m with freelist := rest }) := by simp [kalloc, hl]
      obtain ⟨b, d₁, m₂, hmap⟩ := mappages_page_returns (v2p mem)
        ⟨(pg.entry (v * pgSize)).w, (pg.entry (v * pgSize)).u⟩
        (Mem.copyPage { m with freelist := rest } mem (p2v (pg.entry (v * pgSize)).pa))
        (by omega) (hinv.fresh v (by omega) (Nat.le_refl v))
      rw [hk]
      cases b with
      | false => exact ⟨d₁, m₂, ok_bind hmap rfl⟩
      | true =>
        obtain ⟨-, hnext, fs, htook, htabs⟩ := hinv.next hmap
        have hlen := htook.length
        have hnext' := (Nat.add_one_mul v pgSize).symm
        simp only [hl, List.length_cons, copyPage_freelist] at hroom hlen
        have hlt : v < w := by
          rcases Nat.lt_or_eq_of_le hvw with hlt | rfl
          · exact hlt
          · -- the page and its table: more than there is
            simp only [tabsFor] at *
            omega
        have hrest : ∃ d' m', copyLoop pg sz fuel d₁ ((v + 1) * pgSize) m₂ =
            .ok (false, d', m') :=
          copyLoop_stops hw hw' hnext hlt (by omega)
            (fun u h₁ h₂ => hpresent u (by omega) h₂) (by omega)
        obtain ⟨d', m', hloop⟩ := hrest
        rw [← hnext'] at hloop
        exact ⟨d', m', ok_bind hmap hloop⟩

/-- **What `copyuvm` copies.** The frames it takes are those of the pages and of their tables,
and the frame of a page has the contents of the parent's. -/
theorem copyLoop_contents (hsz : sz ≤ kernBase) : ∀ {fuel v : Nat} {d : PgDir} {m : Mem},
    CopiedTo v d → FreelistOK m → m.freelist.Nodup →
    (∀ w, w * pgSize < sz → (pg.page w).p = true → p2v (pg.page w).pa ∉ m.freelist) →
    copyLoop pg sz fuel d (v * pgSize) m = .ok (true, d', m') → v ≤ pagesFor sz →
    pagesFor sz ≤ v + fuel →
    ∃ fs, Took fs m m' ∧ fs.length + v + tabsFor v = pagesFor sz + tabsFor (pagesFor sz) ∧
      ∀ w, v ≤ w → w * pgSize < sz → ∃ f ∈ fs, d'.page w = (pg.page w).at (v2p f) ∧
        m'.ram f = m.ram (p2v (pg.page w).pa)
  | 0, v, d, m, _, _, _, _, h, hv, hfuel => by
    simp only [copyLoop, Except.ok.injEq, Prod.mk.injEq] at h
    obtain ⟨-, rfl, rfl⟩ := h
    have heq : v = pagesFor sz := Nat.le_antisymm hv hfuel
    refine ⟨[], Took.refl m, by simp [heq], fun w h₁ h₂ => ?_⟩
    simp only [pagesFor, pgSize] at *
    omega
  | fuel + 1, v, d, m, hinv, hm, hnodup, hpar, h, hv, hfuel => by
    have hle := hinv.le
    rcases copyLoop_round h with ⟨hge, -, rfl, rfl⟩ |
      ⟨hlt, hp, ⟨-, ⟨⟩, -⟩ | ⟨mem, m₁, b₁, d₁, m₂, hk, hmap, ⟨-, ⟨⟩, -⟩ | ⟨rfl, h⟩⟩⟩
    · have heq : v = pagesFor sz := by
        simp only [pagesFor, pgSize] at *
        omega
      refine ⟨[], Took.refl m', by simp [heq], fun w h₁ h₂ => ?_⟩
      simp only [pgSize] at *
      omega
    obtain ⟨hv19, hnext, fs₁, htook₁, htabs⟩ := hinv.next hmap
    obtain ⟨hgrew, -, hpages⟩ := mappages_page_spec (by omega) hmap
    obtain ⟨-, hm₁⟩ := kalloc_frame hk hm
    have hm₂ : FreelistOK m₂ := hgrew.freelistOK hm₁
    have htook : Took ([mem] ++ fs₁) m m₂ :=
      ((kalloc_took hk).copyPage (List.mem_singleton.mpr rfl) _).trans htook₁
    have hsplit : ([mem] ++ fs₁ ++ m₂.freelist).Nodup := htook.list ▸ hnodup
    have hsub : ∀ f, f ∈ m₂.freelist → f ∈ m.freelist := fun f hf => by
      rw [htook.list]
      exact List.mem_append_right _ hf
    have hnot : ∀ w, w * pgSize < sz → (pg.page w).p = true →
        p2v (pg.page w).pa ∉ [mem] ++ fs₁ := fun w h₁ h₂ hin =>
      hpar w h₁ h₂ (by rw [htook.list]; exact List.mem_append_left _ hin)
    have hv' : v + 1 ≤ pagesFor sz := by
      simp only [pagesFor, pgSize] at *
      omega
    obtain ⟨fs₂, htook₂, hlen, hcopied⟩ := copyLoop_contents hsz hnext hm₂
      (List.nodup_append.mp hsplit).2.1 (fun w h₁ h₂ hin => hpar w h₁ h₂ (hsub _ hin)) h hv'
      (by omega)
    refine ⟨[mem] ++ fs₁ ++ fs₂, htook.trans htook₂, ?_, fun w h₁ h₂ => ?_⟩
    · simp only [List.length_append, List.length_singleton]
      omega
    · rcases Nat.eq_or_lt_of_le h₁ with rfl | h₁
      · refine ⟨mem, by simp, ?_, ?_⟩
        · obtain ⟨-, -, -, hout, -⟩ := copyLoop_spec hsz hm₂ h
          rw [hout rfl v (by omega) (.inl (Nat.lt_succ_self v)), hpages v (by omega),
            if_pos ⟨rfl, rfl⟩, Pte.map_flags hp]
        · -- nothing is written to the frame afterwards
          rw [htook₂.list, List.append_assoc, List.singleton_append] at hsplit
          have hnotin := (List.nodup_cons.mp hsplit).1
          rw [List.mem_append, List.mem_append, not_or, not_or] at hnotin
          rw [htook₂.ram mem hnotin.2.1, htook₁.ram mem hnotin.1, Mem.copyPage]
          simp only [update_self]
          rw [(kalloc_some hk).2]
      · obtain ⟨f, hf, hpage, hram⟩ := hcopied w h₁ h₂
        refine ⟨f, List.mem_append_right _ hf, hpage, ?_⟩
        rw [hram]
        refine htook.ram _ (hnot w h₂ ?_)
        obtain ⟨-, -, -, -, hmapped⟩ := copyLoop_spec hsz hm₂ h
        refine (hmapped rfl ?_ w h₁ h₂).1
        simp only [pagesFor, pgSize] at *
        omega

end CopyLoop

end Xv6
