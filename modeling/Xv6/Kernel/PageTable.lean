import Xv6.Kernel.Kalloc
import Xv6.Library.Outcome
import Xv6.Library.Tally

/-!
# Page directories, `walkpgdir` and `mappages`

A page directory is kept with its page tables: the frame of the directory,
and for each present directory entry the frame of the page table and its
1024 entries. Directory entries are always made with the same generous
permissions, so only their presence and the table they point to are kept.

§3 sets up the accounting used for everything that allocates: `own pg f`
tallies how often the frame `f` is used by the directory `pg` as the
directory itself, as a page table, or under a user mapping. An allocation
moves a frame from the free list to such a tally and a `kfree` moves it back,
so the sum of both is what the specifications below keep (`Grew.balance`).
-/

namespace Xv6

open Outcome Function

/-! ## §1  The data -/

/-- A page-table entry: the page's physical address and the bits `PTE_P`,
`PTE_W` and `PTE_U`. -/
structure Pte where
  pa : Nat
  p : Bool
  w : Bool
  u : Bool
deriving DecidableEq

def Pte.zero : Pte := ⟨0, false, false, false⟩

/-- The `perm` argument of `mappages`. -/
structure Perm where
  w : Bool
  u : Bool
deriving DecidableEq

/-- `PTE_W|PTE_U`. -/
def permWU : Perm := ⟨true, true⟩

/-- `pa | perm | PTE_P`, for a page-aligned `pa`. -/
def Pte.map (pa : Nat) (perm : Perm) : Pte := ⟨pa, true, perm.w, perm.u⟩

structure PgTab where
  frame : Nat
  pte : Nat → Pte

/-- A page directory. The null pointer is `PgDir.null`, at address 0. -/
structure PgDir where
  frame : Nat
  pde : Nat → Option PgTab

def PgDir.null : PgDir := ⟨0, fun _ => none⟩

namespace PgDir

/-- The entry that translates `va`; 0 where there is no page table. -/
def entry (pg : PgDir) (va : Nat) : Pte :=
  match pg.pde (pdx va) with
  | none => .zero
  | some t => t.pte (ptx va)

/-- `*pte = e`, through the pointer `walkpgdir` returns for `va`. -/
def setEntry (pg : PgDir) (va : Nat) (e : Pte) : PgDir :=
  match pg.pde (pdx va) with
  | none => pg
  | some t =>
    { pg with
      pde := update pg.pde (pdx va)
        (some { t with pte := update t.pte (ptx va) e }) }

/-- The entry of page number `v`. -/
def page (pg : PgDir) (v : Nat) : Pte := pg.entry (v * pgSize)

/-- The frame of page table `d`. -/
def tabFrame (pg : PgDir) (d : Nat) : Option Nat := (pg.pde d).map PgTab.frame

end PgDir

/-! ## §2  The functions -/

/-- `walkpgdir`: `none` is the null pointer; otherwise the result points to
the entry of `va` in the directory returned. -/
def walkpgdir (pg : PgDir) (va : Nat) (alloc : Bool) (m : Mem) : Option (PgDir × Mem) :=
  match pg.pde (pdx va) with
  | some _ => some (pg, m)
  | none =>
    if alloc then
      match kalloc m with
      | (none, _) => none
      | (some pgtab, m) =>
        -- Make sure all those PTE_P bits are zero.
        some ({ pg with
          pde := update pg.pde (pdx va) (some ⟨pgtab, fun _ => .zero⟩) },
          m.memset pgtab 0)
    else none

/-- The loop of `mappages`, `n` pages left from `a` on. The flag is false
for the return value -1. -/
def mapLoop (perm : Perm) : Nat → PgDir → Nat → Nat → Mem →
    Except Panic (Bool × PgDir × Mem)
  | 0, pg, _, _, m => .ok (true, pg, m)
  | n + 1, pg, a, pa, m =>
    match walkpgdir pg a true m with
    | none => .ok (false, pg, m)
    | some (pg, m) =>
      if (pg.entry a).p then .error .remap
      else mapLoop perm n (pg.setEntry a (.map pa perm)) (a + pgSize) (pa + pgSize) m

def mappages (pg : PgDir) (va size pa : Nat) (perm : Perm) (m : Mem) :
    Except Panic (Bool × PgDir × Mem) :=
  let a := pgRoundDown va
  let last := pgRoundDown (va + size - 1)
  -- for(;;) until a == last
  mapLoop perm ((last - a) / pgSize + 1) pg a pa m

/-! ## §3  Who uses a frame -/

/-- `e` is a mapping of the frame `f`. -/
def Pte.Maps (e : Pte) (f : Nat) : Prop := e.p = true ∧ p2v e.pa = f

instance (e : Pte) (f : Nat) : Decidable (e.Maps f) := by
  unfold Pte.Maps; infer_instance

def Pte.uses (e : Pte) (f : Nat) : Nat := if e.Maps f then 1 else 0

namespace PgDir

/-- How many page tables of `pg` are at `f`. -/
def tabs (pg : PgDir) (f : Nat) : Nat :=
  ∑ d ∈ Finset.range 1024, if pg.tabFrame d = some f then 1 else 0

/-- How many of the pages `lo, …, hi - 1` are mapped to `f`. -/
def pages (pg : PgDir) (lo hi f : Nat) : Nat :=
  ∑ v ∈ Finset.Ico lo hi, (pg.page v).uses f

/-- How often `pg` uses `f`: as the directory, as a page table, or under a
mapping below `kernBase`. -/
def own (pg : PgDir) (f : Nat) : Nat :=
  (if pg.frame = f then 1 else 0) + pg.tabs f + pg.pages 0 (2 ^ 19) f

end PgDir

@[simp] theorem uses_zero (f : Nat) : Pte.zero.uses f = 0 := by
  simp [Pte.uses, Pte.Maps, Pte.zero]

theorem uses_of_not_present {e : Pte} (h : e.p = false) (f : Nat) : e.uses f = 0 := by
  simp [Pte.uses, Pte.Maps, h]

theorem uses_map (pa : Nat) (perm : Perm) (f : Nat) :
    (Pte.map pa perm).uses f = if p2v pa = f then 1 else 0 := by
  simp [Pte.uses, Pte.Maps, Pte.map]

theorem uses_pos {e : Pte} {f : Nat} : 0 < e.uses f ↔ e.Maps f := by
  unfold Pte.uses
  split <;> simp_all

/-! ## §4  Entries under `setEntry` and `walkpgdir` -/

theorem pdx_lt (va : Nat) : pdx va < 1024 := Nat.mod_lt _ (by decide)

namespace PgDir

theorem entry_setEntry {pg : PgDir} {va : Nat} (e : Pte) (vb : Nat)
    (h : (pg.pde (pdx va)).isSome) :
    (pg.setEntry va e).entry vb =
      if pdx vb = pdx va ∧ ptx vb = ptx va then e else pg.entry vb := by
  obtain ⟨t, ht⟩ := Option.isSome_iff_exists.mp h
  simp only [setEntry, ht, entry]
  by_cases hd : pdx vb = pdx va
  · by_cases hx : ptx vb = ptx va
    · simp [hd, hx]
    · simp [hd, hx, ht]
  · simp [hd]

theorem setEntry_frame (pg : PgDir) (va : Nat) (e : Pte) :
    (pg.setEntry va e).frame = pg.frame := by
  unfold setEntry
  split <;> rfl

theorem setEntry_tabFrame (pg : PgDir) (va : Nat) (e : Pte) (d : Nat) :
    (pg.setEntry va e).tabFrame d = pg.tabFrame d := by
  unfold setEntry
  split
  · rfl
  · rename_i t ht
    by_cases hd : d = pdx va
    · subst hd
      simp [tabFrame, ht]
    · simp [tabFrame, hd]

theorem pde_isSome_iff (pg : PgDir) (d : Nat) :
    (pg.pde d).isSome ↔ (pg.tabFrame d).isSome := by
  simp [tabFrame]

theorem setEntry_pde_isSome (pg : PgDir) (va : Nat) (e : Pte) (d : Nat) :
    ((pg.setEntry va e).pde d).isSome ↔ (pg.pde d).isSome := by
  rw [pde_isSome_iff, pde_isSome_iff, setEntry_tabFrame]

theorem setEntry_tabs (pg : PgDir) (va : Nat) (e : Pte) (f : Nat) :
    (pg.setEntry va e).tabs f = pg.tabs f := by
  simp only [tabs, setEntry_tabFrame]

/-- Writing the entry of page `v` changes that page only. -/
theorem page_setEntry {pg : PgDir} {v w : Nat} (e : Pte) (hv : v < 2 ^ 20)
    (hw : w < 2 ^ 20) (h : (pg.pde (pdx (v * pgSize))).isSome) :
    (pg.setEntry (v * pgSize) e).page w = if w = v then e else pg.page w := by
  rw [page, entry_setEntry e _ h, pdx_page hv, pdx_page hw, ptx_page, ptx_page]
  by_cases hvw : w = v
  · simp [hvw]
  · rw [if_neg hvw, if_neg (by omega)]
    rfl

/-- A page that is not mapped has no table or a 0 entry there; either way its
entry is not present. -/
theorem entry_eq_zero_of_isNone {pg : PgDir} {va : Nat} (h : pg.pde (pdx va) = none) :
    pg.entry va = .zero := by
  simp [entry, h]

end PgDir

/-- A page that is present has its page table. -/
theorem tab_of_present {pg : PgDir} {v : Nat} (h : (pg.page v).p = true) :
    (pg.pde (pdx (v * pgSize))).isSome := by
  by_contra hno
  rw [PgDir.page, PgDir.entry_eq_zero_of_isNone (by simpa using hno)] at h
  simp [Pte.zero] at h

/-- What `walkpgdir` and `mappages` do to directory and memory beside the
entries they write: page tables are added, each taken from the free list. -/
structure Grew (pg pg' : PgDir) (m m' : Mem) : Prop where
  frame : pg'.frame = pg.frame
  tab : ∀ d, (pg.pde d).isSome → (pg'.pde d).isSome
  balance : ∀ f, m'.freelist.count f + pg'.tabs f = m.freelist.count f + pg.tabs f
  count : ∀ f, m'.freelist.count f ≤ m.freelist.count f

theorem Grew.refl (pg : PgDir) (m : Mem) : Grew pg pg m m :=
  ⟨rfl, fun _ h => h, fun _ => rfl, fun _ => Nat.le_refl _⟩

variable {pg pg' : PgDir} {m m' : Mem}

theorem Grew.trans {pg'' : PgDir} {m'' : Mem} (h₁ : Grew pg pg' m m') (h₂ : Grew pg' pg'' m' m'') :
    Grew pg pg'' m m'' where
  frame := h₂.frame.trans h₁.frame
  tab d h := h₂.tab d (h₁.tab d h)
  balance f := (h₂.balance f).trans (h₁.balance f)
  count f := (h₂.count f).trans (h₁.count f)

theorem Grew.freelistOK [Image] (h : Grew pg pg' m m') (hok : FreelistOK m) :
    FreelistOK m' := hok.of_count_le h.count

theorem Grew.setEntry (h : Grew pg pg' m m') (va : Nat) (e : Pte) :
    Grew pg (pg'.setEntry va e) m m' where
  frame := (pg'.setEntry_frame va e).trans h.frame
  tab d hd := (pg'.setEntry_pde_isSome va e d).mpr (h.tab d hd)
  balance f := by rw [PgDir.setEntry_tabs]; exact h.balance f
  count := h.count

/-- A new page table at `d`, all entries 0. -/
theorem tabs_newTab {d : Nat} (hd : d < 1024) (hnone : pg.pde d = none) (r f : Nat) :
    PgDir.tabs { pg with pde := update pg.pde d (some ⟨r, fun _ => .zero⟩) } f =
      pg.tabs f + if r = f then 1 else 0 := by
  have := Tally.sum_change (s := Finset.range 1024)
    (f := fun d => if pg.tabFrame d = some f then 1 else 0)
    (g := fun d' => if PgDir.tabFrame
      { pg with pde := update pg.pde d (some ⟨r, fun _ => .zero⟩) } d' = some f
      then 1 else 0) (Finset.mem_range.mpr hd)
    (by intro j _ hj; simp [PgDir.tabFrame, hj])
  simp only [PgDir.tabFrame, hnone, update_self, Option.map_none, Option.map_some,
    reduceCtorEq, if_false, Option.some.injEq, Nat.add_zero] at this
  exact this

theorem entry_newTab {d : Nat} (hnone : pg.pde d = none) (r vb : Nat) :
    PgDir.entry { pg with pde := update pg.pde d (some ⟨r, fun _ => .zero⟩) } vb =
      pg.entry vb := by
  by_cases hd : pdx vb = d
  · simp [PgDir.entry, hd, hnone]
  · simp [PgDir.entry, hd]

/-- **`walkpgdir` with `alloc`.** A non-null result points into a directory
with the same entries; at most a page table was added. -/
theorem walkpgdir_alloc {va : Nat} (h : walkpgdir pg va true m = some (pg', m')) :
    Grew pg pg' m m' ∧ (pg'.pde (pdx va)).isSome ∧ ∀ vb, pg'.entry vb = pg.entry vb := by
  unfold walkpgdir at h
  split at h
  · rename_i t ht
    simp only [Option.some.injEq, Prod.mk.injEq] at h
    obtain ⟨rfl, rfl⟩ := h
    exact ⟨Grew.refl pg m, by simp [ht], fun _ => rfl⟩
  · rename_i hnone
    simp only [if_true] at h
    split at h
    · simp at h
    · rename_i r m₁ hk
      simp only [Option.some.injEq, Prod.mk.injEq] at h
      obtain ⟨rfl, rfl⟩ := h
      refine ⟨⟨rfl, ?_, ?_, ?_⟩, by simp, entry_newTab hnone r⟩
      · intro d hd
        by_cases hdd : d = pdx va
        · subst hdd
          simp
        · simpa [hdd] using hd
      · intro f
        rw [tabs_newTab (pdx_lt va) hnone, memset_freelist, kalloc_count hk f]
        omega
      · intro f
        rw [memset_freelist, kalloc_count hk f]
        omega

/-- `walkpgdir` without `alloc` only looks. -/
theorem walkpgdir_noalloc (pg : PgDir) (va : Nat) (m : Mem) :
    walkpgdir pg va false m = if (pg.pde (pdx va)).isSome then some (pg, m) else none := by
  unfold walkpgdir
  split <;> simp_all

/-! ## §5  `mappages` -/

/-- **The loop of `mappages`.** Some `k` pages were mapped, all of them on
success; each was unmapped before, and no other entry changed. -/
theorem mapLoop_spec {perm : Perm} : ∀ {n v pa : Nat} {pg pg' : PgDir} {m m' : Mem} {b : Bool},
    v + n ≤ 2 ^ 20 → mapLoop perm n pg (v * pgSize) pa m = .ok (b, pg', m') →
    Grew pg pg' m m' ∧ ∃ k ≤ n, (b = true → k = n) ∧
      (∀ w, v ≤ w → w < v + k → (pg.page w).p = false) ∧
      (∀ w < 2 ^ 20, pg'.page w =
        if v ≤ w ∧ w < v + k then .map (pa + (w - v) * pgSize) perm else pg.page w)
  | 0, v, pa, pg, pg', m, m', b, _, h => by
    simp only [mapLoop, Except.ok.injEq, Prod.mk.injEq] at h
    obtain ⟨rfl, rfl, rfl⟩ := h
    refine ⟨Grew.refl pg m, 0, Nat.le_refl 0, fun _ => rfl, ?_, ?_⟩
    · intro w h₁ h₂
      omega
    · intro w _
      rw [if_neg (by omega)]
  | n + 1, v, pa, pg, pg', m, m', b, hv, h => by
    rw [mapLoop] at h
    split at h
    · cases h
      refine ⟨Grew.refl pg m, 0, Nat.zero_le _, by simp, ?_, ?_⟩
      · intro w h₁ h₂
        omega
      · intro w _
        rw [if_neg (by omega)]
    · rename_i pg₁ m₁ hw
      obtain ⟨hgrew, htab, hentry⟩ := walkpgdir_alloc hw
      split at h
      · simp at h
      · rename_i hnp
        have hnext := (Nat.add_one_mul v pgSize).symm
        rw [hnext] at h
        obtain ⟨hgrew', k, hk, hkn, hfresh, hpages⟩ := mapLoop_spec (by omega) h
        have hvlt : v < 2 ^ 20 := by omega
        have hold : (pg.page v).p = false := by
          rw [PgDir.page, ← hentry]
          simpa using hnp
        have hpage₁ : ∀ w < 2 ^ 20, (pg₁.setEntry (v * pgSize) (.map pa perm)).page w =
            if w = v then .map pa perm else pg.page w := by
          intro w hw'
          rw [PgDir.page_setEntry _ hvlt hw' htab]
          simp only [PgDir.page, hentry]
        refine ⟨(hgrew.setEntry _ _).trans hgrew', k + 1, by omega, fun hb => by
          rw [hkn hb], ?_, ?_⟩
        · intro w h₁ h₂
          rcases Nat.eq_or_lt_of_le h₁ with rfl | h₁
          · exact hold
          · have := hfresh w h₁ (by omega)
            rwa [hpage₁ w (by omega), if_neg (by omega)] at this
        · intro w hw'
          rw [hpages w hw', hpage₁ w hw']
          by_cases hwv : w = v
          · subst hwv
            rw [if_neg (by omega), if_pos rfl, if_pos (by omega)]
            simp
          · by_cases hin : v + 1 ≤ w ∧ w < v + 1 + k
            · rw [if_pos hin, if_pos (by omega)]
              have : w - v = (w - (v + 1)) + 1 := by omega
              rw [this, Nat.succ_mul, Nat.add_assoc, Nat.add_comm pgSize]
            · rw [if_neg hin, if_neg hwv, if_neg (by omega)]

/-- One aligned page: `mappages` makes one round. -/
theorem mappages_page (pg : PgDir) (v pa : Nat) (perm : Perm) (m : Mem) :
    mappages pg (v * pgSize) pgSize pa perm m = mapLoop perm 1 pg (v * pgSize) pa m := by
  have h₁ : pgRoundDown (v * pgSize) = v * pgSize := by
    simp only [pgRoundDown, pgSize]
    omega
  have h₂ : pgRoundDown (v * pgSize + pgSize - 1) = v * pgSize := by
    simp only [pgRoundDown, pgSize]
    omega
  simp [mappages, h₁, h₂]

/-- **`mappages` of one page.** On success the page, unmapped before, is
mapped; on failure nothing is. -/
theorem mappages_page_spec {v pa : Nat} {perm : Perm} {b : Bool} (hv : v < 2 ^ 20)
    (h : mappages pg (v * pgSize) pgSize pa perm m = .ok (b, pg', m')) :
    Grew pg pg' m m' ∧ (b = true → (pg.page v).p = false) ∧
      ∀ w < 2 ^ 20, pg'.page w = if b = true ∧ w = v then .map pa perm else pg.page w := by
  rw [mappages_page] at h
  obtain ⟨hgrew, k, hk, hkn, hfresh, hpages⟩ := mapLoop_spec (by omega) h
  refine ⟨hgrew, fun hb => hfresh v (Nat.le_refl v) (by rw [hkn hb]; omega), ?_⟩
  intro w hw
  rw [hpages w hw]
  cases b with
  | true =>
    rw [hkn rfl]
    by_cases hwv : w = v
    · subst hwv
      simp
    · rw [if_neg (by omega), if_neg (by simp [hwv])]
  | false =>
    -- with one page left, failure means the very first walk failed
    have hk0 : k = 0 := by
      rw [mapLoop] at h
      split at h
      · rcases Nat.eq_zero_or_pos k with rfl | hpos
        · rfl
        · cases h
          have h₁ := hfresh v (Nat.le_refl v) (by omega)
          have h₂ := hpages v hv
          rw [if_pos (by omega)] at h₂
          rw [h₂] at h₁
          simp [Pte.map] at h₁
      · split at h
        · simp at h
        · simp [mapLoop] at h
    subst hk0
    rw [if_neg (by omega), if_neg (by simp)]

/-! ## §6  The tallies under a change of one page -/

namespace PgDir

/-- One page changes. -/
theorem pages_change {pg pg' : PgDir} {lo hi v : Nat} (hlo : lo ≤ v) (hhi : v < hi)
    (h : ∀ w, lo ≤ w → w < hi → w ≠ v → pg'.page w = pg.page w) (f : Nat) :
    pg'.pages lo hi f + (pg.page v).uses f = pg.pages lo hi f + (pg'.page v).uses f := by
  refine Tally.sum_change (f := fun w => (pg.page w).uses f)
    (g := fun w => (pg'.page w).uses f) (Finset.mem_Ico.mpr ⟨hlo, hhi⟩) fun j hj hne => ?_
  obtain ⟨h₁, h₂⟩ := Finset.mem_Ico.mp hj
  rw [h j h₁ h₂ hne]

theorem pages_congr {pg pg' : PgDir} {lo hi : Nat}
    (h : ∀ w, lo ≤ w → w < hi → pg'.page w = pg.page w) (f : Nat) :
    pg'.pages lo hi f = pg.pages lo hi f :=
  Finset.sum_congr rfl fun j hj => by
    rw [h j (Finset.mem_Ico.mp hj).1 (Finset.mem_Ico.mp hj).2]

/-- No mapping, no use. -/
theorem pages_eq_zero {pg : PgDir} {lo hi : Nat}
    (h : ∀ w, lo ≤ w → w < hi → (pg.page w).p = false) (f : Nat) : pg.pages lo hi f = 0 :=
  Finset.sum_eq_zero fun j hj =>
    uses_of_not_present (h j (Finset.mem_Ico.mp hj).1 (Finset.mem_Ico.mp hj).2) f

/-- Writing the entry of user page `v`. -/
theorem own_setEntry {pg : PgDir} {v : Nat} (e : Pte) (hv : v < 2 ^ 19)
    (h : (pg.pde (pdx (v * pgSize))).isSome) (f : Nat) :
    (pg.setEntry (v * pgSize) e).own f + (pg.page v).uses f = pg.own f + e.uses f := by
  have hrest : ∀ w, 0 ≤ w → w < 2 ^ 19 → w ≠ v →
      (pg.setEntry (v * pgSize) e).page w = pg.page w :=
    fun w _ hw hne => by rw [page_setEntry e (by omega) (by omega) h, if_neg hne]
  have hchange := pages_change (Nat.zero_le v) hv hrest f
  rw [page_setEntry e (by omega) (by omega) h, if_pos rfl] at hchange
  simp only [own, setEntry_frame, setEntry_tabs]
  omega

theorem pages_split (pg : PgDir) {lo mid hi : Nat} (h₁ : lo ≤ mid) (h₂ : mid ≤ hi) (f : Nat) :
    pg.pages lo hi f = pg.pages lo mid f + pg.pages mid hi f :=
  (Finset.sum_Ico_consecutive _ h₁ h₂).symm

end PgDir

/-- A user page that was mapped moves into the tally of the directory; the
page tables it needed came from the free list. -/
theorem Grew.own_map {v pa : Nat} {perm : Perm} (hgrew : Grew pg pg' m m') (hv : v < 2 ^ 19)
    (hold : (pg.page v).p = false)
    (hpages : ∀ w < 2 ^ 20, pg'.page w = if w = v then .map pa perm else pg.page w) (f : Nat) :
    m'.freelist.count f + pg'.own f =
      m.freelist.count f + pg.own f + if p2v pa = f then 1 else 0 := by
  have hrest : ∀ w, 0 ≤ w → w < 2 ^ 19 → w ≠ v → pg'.page w = pg.page w :=
    fun w _ hw hne => by rw [hpages w (by omega), if_neg hne]
  have hchange := PgDir.pages_change (Nat.zero_le v) hv hrest f
  rw [uses_of_not_present hold, hpages v (by omega), if_pos rfl, uses_map] at hchange
  have hbal := hgrew.balance f
  simp only [PgDir.own, hgrew.frame]
  omega

/-- Nothing was mapped: at most page tables moved into the tally. -/
theorem Grew.own_same (hgrew : Grew pg pg' m m') (hpages : ∀ w < 2 ^ 19, pg'.page w = pg.page w)
    (f : Nat) :
    m'.freelist.count f + pg'.own f = m.freelist.count f + pg.own f := by
  have hrest : ∀ w, 0 ≤ w → w < 2 ^ 19 → pg'.page w = pg.page w := fun w _ hw => hpages w hw
  have hsame := PgDir.pages_congr hrest f
  have hbal := hgrew.balance f
  simp only [PgDir.own, hgrew.frame]
  omega

end Xv6
