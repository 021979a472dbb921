import Xv6.Kernel.Boot
import Xv6.Kernel.Frames

/-!
# `growproc`

`sbrk` should change the size by `n` and map or unmap the pages in between, or fail and
change nothing (`GrowsRight`). It does so unless

- the new size would be 0 or less: the pages down to 0 are freed and the call fails, or
  nothing is freed and the call succeeds;
- a page of the shared window lies between the sizes. Growing, `mappages` panics at a
  shared page, or the memory gives out first, and then `deallocuvm` frees the shared pages
  along with the new ones.

`growproc_right_iff` says exactly when.
-/

namespace Xv6

open Outcome

/-! ## §1  The frames for a stretch of pages -/

/-- The page tables that the pages `lo, …, hi - 1` lack. -/
def PgDir.lacks (pg : PgDir) (lo hi : Nat) : Nat :=
  ∑ d ∈ (Finset.Ico lo hi).image (· / 1024), if (pg.pde d).isSome then 0 else 1

/-- The frames it takes to map them. -/
def PgDir.needs (pg : PgDir) (lo hi : Nat) : Nat := hi - lo + pg.lacks lo hi

section Needs

variable {pg pg₁ : PgDir} {v hi : Nat}

/-- The first page gets its table. -/
theorem PgDir.lacks_step (hv : v < hi)
    (h : ∀ d, (pg₁.pde d).isSome ↔ (pg.pde d).isSome ∨ d = v / 1024) :
    (if (pg.pde (v / 1024)).isSome then 0 else 1) + pg₁.lacks (v + 1) hi = pg.lacks v hi := by
  have hsplit : (Finset.Ico v hi).image (· / 1024) =
      insert (v / 1024) ((Finset.Ico (v + 1) hi).image (· / 1024)) := by
    rw [← Finset.insert_Ico_add_one_left_eq_Ico hv, Finset.image_insert]
  have hrest : pg₁.lacks (v + 1) hi =
      ∑ d ∈ ((Finset.Ico (v + 1) hi).image (· / 1024)).erase (v / 1024),
        if (pg.pde d).isSome then 0 else 1 := by
    rw [PgDir.lacks, ← Finset.sum_erase (a := v / 1024)
      (f := fun d => if (pg₁.pde d).isSome then 0 else 1) _ (if_pos ((h _).mpr (.inr rfl)))]
    refine Finset.sum_congr rfl fun d hd => ?_
    simp only [h, Finset.ne_of_mem_erase hd, or_false]
  rw [hrest, PgDir.lacks, hsplit, ← Finset.erase_insert_eq_erase,
    Finset.add_sum_erase _ (fun d => if (pg.pde d).isSome then 0 else 1)
      (Finset.mem_insert_self ..)]

theorem PgDir.lacks_pos (hv : v < hi) (h : pg.pde (v / 1024) = none) : 0 < pg.lacks v hi := by
  have hle := Tally.le_sum (f := fun d => if (pg.pde d).isSome then 0 else 1)
    (Finset.mem_image_of_mem (· / 1024) (Finset.mem_Ico.mpr ⟨Nat.le_refl v, hv⟩))
  simp only [h, Option.isSome_none, Bool.false_eq_true, if_false] at hle
  exact hle

theorem PgDir.needs_self (pg : PgDir) (v : Nat) : pg.needs v v = 0 := by
  simp [PgDir.needs, PgDir.lacks]

end Needs

/-! ## §2  The loop of `allocuvm` -/

/-- Frames are left as they are, or filled with zeros. -/
def Zeroed (m m' : Mem) : Prop := ∀ f, m'.ram f = m.ram f ∨ m'.ram f = fun _ => 0

section Zeroed

variable {m m' m'' : Mem}

theorem Zeroed.trans (h : Zeroed m m') (h' : Zeroed m' m'') : Zeroed m m'' := fun f => by
  rcases h' f with h' | h'
  · rw [h']
    exact h f
  · exact .inr h'

theorem Zeroed.of_ram (h : m'.ram = m.ram) : Zeroed m m' := fun f => .inl (by rw [h])

theorem zeroed_memset (m : Mem) (r : Nat) : Zeroed m (m.memset r 0) := fun f => by
  by_cases hf : f = r
  · exact .inr (by simp [Mem.memset, hf])
  · exact .inl (by simp [Mem.memset, hf])

/-- What is zero stays zero. -/
theorem Zeroed.zero (h : Zeroed m m') {f : Nat} (hf : m.ram f = fun _ => 0) :
    m'.ram f = fun _ => 0 := by
  rcases h f with h | h
  · rw [h, hf]
  · exact h

theorem walkpgdir_zeroed {pg pg' : PgDir} {va : Nat} (h : walkpgdir pg va true m = some (pg', m')) :
    Zeroed m m' := by
  unfold walkpgdir at h
  split at h
  · simp only [Option.some.injEq, Prod.mk.injEq] at h
    exact .of_ram (by rw [h.2])
  · simp only [if_true] at h
    split at h
    · simp at h
    · rename_i r m₁ hk
      simp only [Option.some.injEq, Prod.mk.injEq] at h
      rw [← h.2]
      exact (Zeroed.of_ram (kalloc_some hk).2).trans (zeroed_memset m₁ r)

theorem mappages_page_zeroed {pg pg' : PgDir} {v pa : Nat} {perm : Perm} {b : Bool}
    (h : mappages pg (v * pgSize) pgSize pa perm m = .ok (b, pg', m')) : Zeroed m m' := by
  rw [mappages_page, mapLoop] at h
  split at h
  · simp only [Except.ok.injEq, Prod.mk.injEq] at h
    exact .of_ram (by rw [h.2.2])
  · rename_i hwalk
    split at h
    · simp at h
    · simp only [mapLoop, Except.ok.injEq, Prod.mk.injEq] at h
      rw [← h.2.2]
      exact walkpgdir_zeroed hwalk

end Zeroed

variable [Image]

section AllocLoop

variable {oldsz newsz fuel v : Nat} {pg pg' : PgDir} {m m' : Mem} {b : Bool}

omit [Image] in
/-- Page tables are only added. -/
theorem Grew.tabs_le (h : Grew pg pg' m m') (f : Nat) : pg.tabs f ≤ pg'.tabs f := by
  have h₁ := h.balance f
  have h₂ := h.count f
  omega

theorem Shed.tabs_eq (h : Shed pg pg' m m') (f : Nat) : pg'.tabs f = pg.tabs f := by
  simp only [PgDir.tabs, h.tab]

/-- What `allocuvm` leaves, by its outcome. Pages that are mapped were not, and are zero, and
there was memory for them; if it fails there was not. -/
structure Alloced (v newsz : Nat) (pg pg' : PgDir) (m m' : Mem) (b : Bool) : Prop where
  tabs : ∀ f, pg.tabs f ≤ pg'.tabs f
  fresh : b = true → ∀ w, v ≤ w → w * pgSize < newsz → (pg.page w).p = false
  zero : b = true → ∀ w, v ≤ w → w * pgSize < newsz →
    m'.ram (p2v (pg'.page w).pa) = fun _ => 0
  room : b = true → pg.needs v (pagesFor newsz) ≤ m.freelist.length
  short : b = false → m.freelist.length < pg.needs v (pagesFor newsz)

theorem allocLoop_alloced (hsz : newsz < kernBase) : ∀ {fuel v : Nat} {pg : PgDir} {m : Mem},
    pgRoundUp oldsz ≤ v * pgSize → FreelistOK m → v ≤ pagesFor newsz → pagesFor newsz ≤ v + fuel →
    allocLoop oldsz newsz fuel pg (v * pgSize) m = .ok (b, pg', m') →
    Alloced v newsz pg pg' m m' b ∧ (b = true → Zeroed m m') := by
  -- at the end there is nothing left to do
  have hdone : ∀ {v : Nat} {pg : PgDir} {m : Mem}, v = pagesFor newsz →
      Alloced v newsz pg pg m m true := by
    rintro v pg m rfl
    have hno : ∀ w, pagesFor newsz ≤ w → ¬ w * pgSize < newsz := fun w h₁ => by
      simp only [pagesFor, pgSize] at *
      omega
    exact ⟨fun _ => Nat.le_refl _, fun _ w h₁ h₂ => absurd h₂ (hno w h₁),
      fun _ w h₁ h₂ => absurd h₂ (hno w h₁), fun _ => by rw [PgDir.needs_self]; exact Nat.zero_le _,
      by simp⟩
  intro fuel
  induction fuel with
  | zero =>
    intro v pg m _ _ hv hfuel h
    simp only [allocLoop, Except.ok.injEq, Prod.mk.injEq] at h
    obtain ⟨rfl, rfl, rfl⟩ := h
    exact ⟨hdone (Nat.le_antisymm hv hfuel), fun _ => .of_ram rfl⟩
  | succ fuel ih =>
    intro v pg m hold hm hv hfuel h
    have hpages : ∀ w, w < pagesFor newsz ↔ w * pgSize < newsz := fun w => by
      simp only [pagesFor, pgSize]
      omega
    have hbound : pagesFor newsz ≤ 2 ^ 19 := by
      simp only [pagesFor, pgSize, kernBase] at *
      omega
    rcases allocLoop_round h with ⟨hge, rfl, rfl, rfl⟩ |
      ⟨hlt, ⟨hempty, rfl, r, hd⟩ | ⟨mem, m₁, b₁, pg₁, m₂, hk, hmap, h⟩⟩
    · exact ⟨hdone (Nat.le_antisymm hv (Nat.le_of_not_lt fun hlt =>
        absurd ((hpages v).mp hlt) (Nat.not_lt.mpr hge))), fun _ => .of_ram rfl⟩
    · -- no frame for the page
      have hvlt := (hpages v).mpr hlt
      obtain ⟨hshed, -⟩ := deallocuvm_spec (Nat.le_of_lt hsz) hd
      refine ⟨⟨fun f => (hshed.tabs_eq f).ge, by simp, by simp, by simp, fun _ => ?_⟩, by simp⟩
      rw [hempty, PgDir.needs]
      simp only [List.length_nil]
      omega
    have hvlt := (hpages v).mpr hlt
    have hlen := (kalloc_took hk).length
    rw [List.length_singleton] at hlen
    rcases h with ⟨rfl, rfl, r, m₃, hd, -⟩ | ⟨rfl, h⟩
    · -- no frame for the table
      obtain ⟨hempty, hnone, rfl, rfl⟩ := mappages_page_tabled (by omega) hmap
      rw [memset_freelist] at hempty
      have hpos := PgDir.lacks_pos hvlt hnone
      obtain ⟨hshed, -⟩ := deallocuvm_spec (Nat.le_of_lt hsz) hd
      refine ⟨⟨fun f => (hshed.tabs_eq f).ge, by simp, by simp, by simp, fun _ => ?_⟩, by simp⟩
      rw [hlen, hempty, PgDir.needs]
      simp only [List.length_nil]
      omega
    · obtain ⟨fs, htook, hfs, htab⟩ := mappages_page_tabled (by omega) hmap
      obtain ⟨hgrew, hfresh, hentry⟩ := mappages_page_spec (by omega) hmap
      simp only [true_and] at hentry
      obtain ⟨hmem, hm₁⟩ := kalloc_frame hk hm
      have hm₂ : FreelistOK m₂ := hgrew.freelistOK hm₁
      have hold' : pgRoundUp oldsz ≤ (v + 1) * pgSize :=
        hold.trans (Nat.mul_le_mul_right _ (Nat.le_succ v))
      obtain ⟨hrest, hzero⟩ := ih hold' hm₂ hvlt (by omega) h
      have hneeds := PgDir.lacks_step hvlt htab
      have hlen₂ := htook.length
      rw [memset_freelist] at hlen₂
      have hzero₁ : Zeroed (m₁.memset mem 0) m₂ := mappages_page_zeroed hmap
      refine ⟨⟨fun f => (hgrew.tabs_le f).trans (hrest.tabs f), fun hb w h₁ h₂ => ?_,
        fun hb w h₁ h₂ => ?_, fun hb => ?_, fun hb => ?_⟩, fun hb => ?_⟩
      · rcases Nat.eq_or_lt_of_le h₁ with rfl | h₁
        · exact hfresh rfl
        · have hw := (hpages w).mpr h₂
          have := hrest.fresh hb w h₁ h₂
          rwa [hentry w (by omega), if_neg (by omega)] at this
      · rcases Nat.eq_or_lt_of_le h₁ with rfl | h₁
        · -- the frame of this page stays as `memset` left it
          obtain ⟨-, -, -, -, hbelow, -⟩ := allocLoop_spec hsz hold' hm₂ h
          rw [hbelow hb v (Nat.lt_succ_self v), hentry v (by omega), if_pos rfl]
          change m'.ram (p2v (v2p mem)) = _
          rw [hmem.p2v_v2p]
          exact (hzero hb).zero (hzero₁.zero (by simp [Mem.memset]))
        · exact hrest.zero hb w h₁ h₂
      · have := hrest.room hb
        simp only [PgDir.needs] at *
        omega
      · have := hrest.short hb
        simp only [PgDir.needs] at *
        omega
      · exact ((Zeroed.of_ram (kalloc_some hk).2).trans (zeroed_memset m₁ mem)).trans
          (hzero₁.trans (hzero hb))

/-- **The loop of `allocuvm` comes back** if the pages for which there may be a frame are not
mapped. -/
theorem allocLoop_returns_within (hsz : newsz < kernBase) : ∀ {fuel v : Nat} {pg : PgDir} {m : Mem},
    FreelistOK m →
    (∀ w, v ≤ w → w < v + m.freelist.length → w * pgSize < newsz → (pg.page w).p = false) →
    (∀ w, w * pgSize < newsz → pgRoundUp oldsz ≤ w * pgSize → (pg.page w).p = true →
      IsFrame (p2v (pg.page w).pa)) →
    ∃ b pg' m', allocLoop oldsz newsz fuel pg (v * pgSize) m = .ok (b, pg', m')
  | 0, v, pg, m, _, _, _ => ⟨true, pg, m, rfl⟩
  | fuel + 1, v, pg, m, hm, hfresh, hframes => by
    have hdealloc := fun m₀ : Mem => deallocuvm_returns pg m₀ (Nat.le_of_lt hsz)
      fun w h₁ h₂ => hframes w h₂ h₁
    rw [allocLoop]
    by_cases hlt : v * pgSize < newsz
    · have hv : v < 2 ^ 19 := by
        simp only [pgSize, kernBase] at *
        omega
      rw [if_pos hlt]
      cases hk : kalloc m with
      | mk r m₁ =>
      cases r with
      | none =>
        obtain ⟨pg', m', hd⟩ := hdealloc m₁
        exact ⟨false, pg', m', ok_bind hd rfl⟩
      | some mem =>
        obtain ⟨hmem, hm₁⟩ := kalloc_frame hk hm
        have hlen := (kalloc_took hk).length
        rw [List.length_singleton] at hlen
        obtain ⟨b₁, pg₁, m₂, hmap⟩ := mappages_page_returns (v2p mem) permWU
          (m₁.memset mem 0) (by omega) (hfresh v (Nat.le_refl v) (by omega) hlt)
        have htabled := mappages_page_tabled (by omega) hmap
        cases b₁ with
        | false =>
          obtain ⟨-, -, rfl, rfl⟩ := htabled
          obtain ⟨pg', m', hd⟩ := hdealloc (m₁.memset mem 0)
          obtain ⟨m₃, hfree⟩ := kfree_frame hmem m'
          exact ⟨false, pg', m₃, ok_bind hmap (ok_bind hd (ok_bind hfree rfl))⟩
        | true =>
          obtain ⟨fs, htook, -⟩ := htabled
          have hlen₂ := htook.length
          rw [memset_freelist] at hlen₂
          obtain ⟨hgrew, -, hentry⟩ := mappages_page_spec (by omega) hmap
          simp only [true_and] at hentry
          have hnext := (Nat.add_one_mul v pgSize).symm
          have huser : ∀ w, w * pgSize < newsz → w < 2 ^ 20 := fun w hw => by
            simp only [pgSize, kernBase] at *
            omega
          have hrest : ∃ b pg' m', allocLoop oldsz newsz fuel pg₁ ((v + 1) * pgSize) m₂ =
              .ok (b, pg', m') := by
            refine allocLoop_returns_within hsz (hgrew.freelistOK hm₁)
              (fun w h₁ h₂ h₃ => ?_) fun w h₁ h₂ hp => ?_
            · rw [hentry w (huser w h₃), if_neg (by omega)]
              exact hfresh w (by omega) (by omega) h₃
            · rw [hentry w (huser w h₁)] at hp ⊢
              by_cases hwv : w = v
              · rw [if_pos hwv]
                change IsFrame (p2v (v2p mem))
                rw [hmem.p2v_v2p]
                exact hmem
              · rw [if_neg hwv] at hp ⊢
                exact hframes w h₁ h₂ hp
          obtain ⟨b, pg', m', hloop⟩ := hrest
          refine ⟨b, pg', m', ok_bind hmap ?_⟩
          rw [hnext]
          exact hloop
    · exact ⟨true, pg, m, by rw [if_neg hlt]⟩

/-- In particular if none of its pages is mapped. -/
theorem allocLoop_returns (hsz : newsz < kernBase) {fuel v : Nat} {pg : PgDir} {m : Mem}
    (hm : FreelistOK m) (hfresh : ∀ w, v ≤ w → w * pgSize < newsz → (pg.page w).p = false)
    (hframes : ∀ w, w * pgSize < newsz → pgRoundUp oldsz ≤ w * pgSize → (pg.page w).p = true →
      IsFrame (p2v (pg.page w).pa)) :
    ∃ b pg' m', allocLoop oldsz newsz fuel pg (v * pgSize) m = .ok (b, pg', m') :=
  allocLoop_returns_within hsz hm (fun w h₁ _ h₂ => hfresh w h₁ h₂) hframes

end AllocLoop

/-! ## §3  What `growproc` should do -/

/-- Where a page is mapped to. -/
def PgDir.translation (pg : PgDir) (w : Nat) : Option Pte :=
  if (pg.page w).p then some (pg.page w) else none

/-- The pages below the size are there, and outside the window no other user page is. -/
structure Heap (q : Proc) : Prop where
  size : q.sz < kernBase
  below : ∀ w, w * pgSize < q.sz → (q.pgdir.page w).p = true ∧ IsFrame (p2v (q.pgdir.page w).pa)
  above : ∀ w < windowStart, q.sz ≤ w * pgSize → (q.pgdir.page w).p = false

/-- The size is changed by `n`; the pages below it are there, new ones zero; the pages from it on
are not; and the window is as it was. -/
structure Grown (p : Fin nproc) (n : Int) (s s' : Kernel) : Prop where
  nonneg : 0 ≤ (s.proc p).sz + n
  lt : (s.proc p).sz + n < kernBase
  sz : ((s'.proc p).sz : Int) = (s.proc p).sz + n
  below : ∀ w, w * pgSize < (s'.proc p).sz → ((s'.proc p).pgdir.page w).p = true
  zero : ∀ w, (s.proc p).sz ≤ w * pgSize → w * pgSize < (s'.proc p).sz →
    s'.mem.ram (p2v ((s'.proc p).pgdir.page w).pa) = fun _ => 0
  above : ∀ w < windowStart, (s'.proc p).sz ≤ w * pgSize → ((s'.proc p).pgdir.page w).p = false
  window : ∀ w, windowStart ≤ w → w < 2 ^ 19 →
    (s'.proc p).pgdir.translation w = (s.proc p).pgdir.translation w

/-- Size and translations are as they were, and no frame that was mapped is free. -/
structure Kept (p : Fin nproc) (s s' : Kernel) : Prop where
  sz : (s'.proc p).sz = (s.proc p).sz
  translation : ∀ w < 2 ^ 19, (s'.proc p).pgdir.translation w = (s.proc p).pgdir.translation w
  free : ∀ w < 2 ^ 19, ((s.proc p).pgdir.page w).p = true →
    p2v ((s.proc p).pgdir.page w).pa ∉ s.mem.freelist →
    p2v ((s.proc p).pgdir.page w).pa ∉ s'.mem.freelist

/-- `growproc(n)` returns 0 and has done what was asked for, or -1 and has done nothing. -/
def GrowsRight (p : Fin nproc) (n : Int) (s : Kernel) : Prop :=
  ∃ r s', growproc p n s = .ok (r, s') ∧ (r = 0 ∧ Grown p n s s' ∨ r = -1 ∧ Kept p s s')

/-- No page of the window lies between the sizes. -/
def WindowClear (lo hi : Nat) : Prop :=
  ∀ w, pgRoundUp lo ≤ w * pgSize → w * pgSize < hi → w < windowStart

/-- The pages between the sizes are not mapped, and there is not enough memory for them. -/
def MemoryShort (q : Proc) (newsz : Nat) (m : Mem) : Prop :=
  (∀ w, pgRoundUp q.sz ≤ w * pgSize → w * pgSize < newsz → (q.pgdir.page w).p = false) ∧
    m.freelist.length < q.pgdir.needs (pagesFor q.sz) (pagesFor newsz)

section Growproc

variable {pg pg' : PgDir} {p : Fin nproc} {n : Int} {s : Kernel}

omit [Image] in
theorem translation_congr {w : Nat} (h : pg'.page w = pg.page w) :
    pg'.translation w = pg.translation w := by
  rw [PgDir.translation, PgDir.translation, h]

omit [Image] in
theorem translation_none {w : Nat} : pg.translation w = none ↔ (pg.page w).p = false := by
  rw [PgDir.translation]
  split <;> simp_all

omit [Image] in
/-- The same translations, the same use of frames. -/
theorem pages_translation {lo hi : Nat}
    (h : ∀ w, lo ≤ w → w < hi → pg'.translation w = pg.translation w) (f : Nat) :
    pg'.pages lo hi f = pg.pages lo hi f := by
  refine Finset.sum_congr rfl fun w hw => ?_
  obtain ⟨h₁, h₂⟩ := Finset.mem_Ico.mp hw
  have htr := h w h₁ h₂
  by_cases hp : (pg.page w).p = true
  · rw [PgDir.translation, PgDir.translation, if_pos hp] at htr
    split at htr
    · rw [Option.some.inj htr]
    · cases htr
  · have hno : (pg.page w).p = false := by simpa using hp
    have hno' := translation_none.mp (htr.trans (translation_none.mpr hno))
    rw [uses_of_not_present hno, uses_of_not_present hno']

/-- `allocuvm` for a larger size. -/
theorem allocuvm_eq {oldsz newsz : Nat} (hlt : newsz < kernBase) (hle : oldsz ≤ newsz) (m : Mem) :
    allocuvm pg oldsz newsz m = (do
      let (b, pg, m) ← allocLoop oldsz newsz (newsz / pgSize + 1) pg (pagesFor oldsz * pgSize) m
      .ok (if b then newsz else 0, pg, m)) := by
  rw [allocuvm, if_neg (Nat.not_le.mpr hlt), if_neg (Nat.not_lt.mpr hle)]
  rfl

/-- The state after `growproc`. -/
def Kernel.resized (s : Kernel) (p : Fin nproc) (sz : Nat) (pg : PgDir) (m : Mem) : Kernel :=
  { s with mem := m }.setProc p { s.proc p with pgdir := pg, sz := sz }

omit [Image] in
@[simp] theorem resized_proc (s : Kernel) (p : Fin nproc) (sz : Nat) (pg : PgDir) (m : Mem) :
    (s.resized p sz pg m).proc p = { s.proc p with pgdir := pg, sz := sz } :=
  Kernel.setProc_self ..

/-- What is mapped between the sizes is mapped by the loop. -/
theorem growproc_alloc {newsz : Nat} (hnew : ((s.proc p).sz : Int) + n = newsz) (hn : 0 < n)
    (hlt : newsz < kernBase) : growproc p n s = (do
      let (b, pg, m) ← allocLoop (s.proc p).sz newsz (newsz / pgSize + 1) (s.proc p).pgdir
        (pagesFor (s.proc p).sz * pgSize) s.mem
      .ok (if b then (0, s.resized p newsz pg m) else (-1, s.resized p (s.proc p).sz pg m))) := by
  have hmod : ((((s.proc p).sz : Int) + n) % 2 ^ 32).toNat = newsz := by
    rw [hnew]
    simp only [kernBase] at hlt
    omega
  simp only [growproc, hmod, if_pos hn, allocuvm_eq hlt (show (s.proc p).sz ≤ newsz by omega)]
  cases allocLoop (s.proc p).sz newsz (newsz / pgSize + 1) (s.proc p).pgdir
      (pagesFor (s.proc p).sz * pgSize) s.mem with
  | error e => rfl
  | ok r =>
    obtain ⟨b, pg, m⟩ := r
    cases b with
    | false => rfl
    | true =>
      have hne : newsz ≠ 0 := by omega
      change (if newsz = 0 then _ else _) = _
      rw [if_neg hne]
      rfl

section Alloc

variable {newsz : Nat} {m' : Mem} {b : Bool} (hheap : Heap (s.proc p)) (hm : FreelistOK s.mem)
  (hlt : newsz < kernBase) (hle : (s.proc p).sz ≤ newsz)
  (hloop : allocLoop (s.proc p).sz newsz (newsz / pgSize + 1) (s.proc p).pgdir
    (pagesFor (s.proc p).sz * pgSize) s.mem = .ok (b, pg', m'))

omit [Image] in
theorem lt_pagesFor (w sz : Nat) : w < pagesFor sz ↔ w * pgSize < sz := by
  simp only [pagesFor, pgSize]
  omega

include hm hlt hle hloop in
theorem growproc_alloced :
    Alloced (pagesFor (s.proc p).sz) newsz (s.proc p).pgdir pg' s.mem m' b :=
  (allocLoop_alloced hlt (Nat.le_refl _) hm
    (Nat.div_le_div_right (by simp only [pgSize]; omega))
    ((pagesFor_le newsz).trans (Nat.le_add_left ..)) hloop).1

include hheap hm hlt hle hloop in
/-- It grew. -/
theorem grown_of_alloc (hb : b = true) (hclear : WindowClear (s.proc p).sz newsz)
    (hnew : ((s.proc p).sz : Int) + n = newsz) :
    Grown p n s (s.resized p newsz pg' m') := by
  have hal := growproc_alloced hm hlt hle hloop
  obtain ⟨-, -, -, hout, hbelow, hmapped, -⟩ := allocLoop_spec hlt (Nat.le_refl _) hm hloop
  have huser : ∀ w, w * pgSize < newsz → w < 2 ^ 19 := fun w hw => by
    simp only [pgSize, kernBase] at *
    omega
  refine ⟨by omega, by omega, ?_, fun w hw => ?_, fun w h₁ h₂ => ?_, fun w h₁ h₂ => ?_,
    fun w h₁ h₂ => ?_⟩
  · rw [resized_proc, hnew]
  · rw [resized_proc] at hw ⊢
    by_cases hold : w < pagesFor (s.proc p).sz
    · change (pg'.page w).p = true
      rw [hbelow hb w hold]
      exact (hheap.below w ((lt_pagesFor w _).mp hold)).1
    · have hfuel : newsz ≤ (pagesFor (s.proc p).sz + (newsz / pgSize + 1)) * pgSize := by
        simp only [pagesFor, pgSize]
        omega
      obtain ⟨mem, -, hentry⟩ := hmapped hb hfuel w (Nat.le_of_not_lt hold) hw
      change (pg'.page w).p = true
      rw [hentry]
      rfl
  · rw [resized_proc] at h₂ ⊢
    refine hal.zero hb w (Nat.le_of_not_lt fun hlt' => ?_) h₂
    exact absurd ((lt_pagesFor w _).mp hlt') (Nat.not_lt.mpr h₁)
  · rw [resized_proc] at h₂ ⊢
    change (pg'.page w).p = false
    have hw : w < 2 ^ 20 := h₁.trans (by decide)
    rw [hout w hw (.inr h₂)]
    exact hheap.above w h₁ (hle.trans h₂)
  · rw [resized_proc]
    have hw : w < 2 ^ 20 := h₂.trans (by decide)
    refine translation_congr (hout w hw ?_)
    by_contra hno
    rw [not_or, Nat.not_lt, Nat.not_le] at hno
    exact absurd (hclear w hno.1 hno.2) (Nat.not_lt.mpr h₁)

include hm hlt hle hloop in
/-- It ran out of memory. -/
theorem kept_of_alloc (hb : b = false)
    (hfresh : ∀ w, pgRoundUp (s.proc p).sz ≤ w * pgSize → w * pgSize < newsz →
      ((s.proc p).pgdir.page w).p = false) : Kept p s (s.resized p (s.proc p).sz pg' m') := by
  have hal := growproc_alloced hm hlt hle hloop
  obtain ⟨-, hframe, hbal, hout, -, -, hgone⟩ := allocLoop_spec hlt (Nat.le_refl _) hm hloop
  have htr : ∀ w < 2 ^ 19, pg'.translation w = (s.proc p).pgdir.translation w := by
    intro w hw
    by_cases hin : pgRoundUp (s.proc p).sz ≤ w * pgSize ∧ w * pgSize < newsz
    · rw [translation_none.mpr (hgone hb w hin.1 hin.2),
        translation_none.mpr (hfresh w hin.1 hin.2)]
    · refine translation_congr (hout w (hw.trans (by decide)) ?_)
      by_contra hno
      rw [not_or, Nat.not_lt, Nat.not_le] at hno
      exact hin hno
  refine ⟨by rw [resized_proc], fun w hw => by rw [resized_proc]; exact htr w hw,
    fun w hw hp hnot => ?_⟩
  rw [← List.count_eq_zero] at hnot ⊢
  -- the directory uses every frame at least as often as before
  have hpages : pg'.pages 0 (2 ^ 19) (p2v ((s.proc p).pgdir.page w).pa) =
      (s.proc p).pgdir.pages 0 (2 ^ 19) (p2v ((s.proc p).pgdir.page w).pa) :=
    pages_translation (fun w _ hw => htr w hw) _
  have htabs := hal.tabs (p2v ((s.proc p).pgdir.page w).pa)
  have hcount := hbal (p2v ((s.proc p).pgdir.page w).pa)
  simp only [PgDir.own, hframe] at hcount
  change m'.freelist.count _ = 0
  omega

end Alloc

section Grow

variable {newsz : Nat} (hheap : Heap (s.proc p)) (hm : FreelistOK s.mem) (hn : 0 < n)
  (hlt : newsz < kernBase) (hnew : ((s.proc p).sz : Int) + n = newsz)

include hm hn hlt hnew in
/-- If it went right, no page of the window was to be mapped, or there was no memory. -/
theorem growproc_grow_only (h : GrowsRight p n s) :
    WindowClear (s.proc p).sz newsz ∨ MemoryShort (s.proc p) newsz s.mem := by
  obtain ⟨r, s', h, hright⟩ := h
  have hle : (s.proc p).sz ≤ newsz := by omega
  rw [growproc_alloc hnew hn hlt] at h
  obtain ⟨⟨b, pg', m'⟩, hloop, h⟩ := bind_ok h
  have hal := growproc_alloced hm hlt hle hloop
  obtain ⟨-, -, -, -, -, hmapped, hgone⟩ := allocLoop_spec hlt (Nat.le_refl _) hm hloop
  simp only [Except.ok.injEq] at h
  have hround : ∀ w, pgRoundUp (s.proc p).sz ≤ w * pgSize → pagesFor (s.proc p).sz ≤ w :=
    fun w hw => Nat.le_of_mul_le_mul_right hw (by decide)
  have huser : ∀ w, w * pgSize < newsz → w < 2 ^ 19 := fun w hw => by
    simp only [pgSize, kernBase] at *
    omega
  cases b with
  | true =>
    rw [if_pos rfl] at h
    obtain ⟨rfl, rfl⟩ := h
    rcases hright with ⟨-, hgrown⟩ | ⟨hr, -⟩
    · -- a page of the window would have been mapped
      refine .inl fun w h₁ h₂ => ?_
      by_contra hwin
      have hfuel : newsz ≤ (pagesFor (s.proc p).sz + (newsz / pgSize + 1)) * pgSize := by
        simp only [pagesFor, pgSize]
        omega
      obtain ⟨mem, -, hentry⟩ := hmapped rfl hfuel w (hround w h₁) h₂
      have hsame := hgrown.window w (Nat.le_of_not_lt hwin) (huser w h₂)
      rw [resized_proc, translation_none.mpr (hal.fresh rfl w (hround w h₁) h₂),
        translation_none] at hsame
      change (pg'.page w).p = false at hsame
      rw [hentry] at hsame
      cases hsame
    · cases hr
  | false =>
    rw [if_neg (by simp)] at h
    obtain ⟨rfl, rfl⟩ := h
    rcases hright with ⟨hr, -⟩ | ⟨-, hkept⟩
    · cases hr
    · refine .inr ⟨fun w h₁ h₂ => ?_, hal.short rfl⟩
      have hsame := hkept.translation w (huser w h₂)
      rw [resized_proc] at hsame
      exact translation_none.mp (hsame.symm.trans (translation_none.mpr (hgone rfl w h₁ h₂)))

include hheap hm hn hlt hnew in
theorem growproc_grow_right
    (hcond : WindowClear (s.proc p).sz newsz ∨ MemoryShort (s.proc p) newsz s.mem) :
    GrowsRight p n s := by
  have hle : (s.proc p).sz ≤ newsz := by omega
  have hfresh : ∀ w, pgRoundUp (s.proc p).sz ≤ w * pgSize → w * pgSize < newsz →
      ((s.proc p).pgdir.page w).p = false := by
    intro w h₁ h₂
    rcases hcond with hclear | hshort
    · refine hheap.above w (hclear w h₁ h₂) (Nat.le_trans ?_ h₁)
      simp only [pgRoundUp, pgSize]
      omega
    · exact hshort.1 w h₁ h₂
  have hrun : ∃ b pg' m', allocLoop (s.proc p).sz newsz (newsz / pgSize + 1) (s.proc p).pgdir
      (pagesFor (s.proc p).sz * pgSize) s.mem = .ok (b, pg', m') :=
    allocLoop_returns hlt hm (fun w h₁ h₂ => hfresh w (Nat.mul_le_mul_right _ h₁) h₂)
      fun w h₂ h₁ hp => by
        rw [hfresh w h₁ h₂] at hp
        cases hp
  obtain ⟨b, pg', m', hloop⟩ := hrun
  have hcall := growproc_alloc hnew hn hlt
  cases b with
  | false =>
    exact ⟨-1, _, hcall.trans (ok_bind hloop rfl), .inr ⟨rfl, kept_of_alloc hm hlt hle hloop rfl hfresh⟩⟩
  | true =>
    refine ⟨0, _, hcall.trans (ok_bind hloop rfl), .inl ⟨rfl, ?_⟩⟩
    refine grown_of_alloc hheap hm hlt hle hloop rfl ?_ hnew
    rcases hcond with hclear | hshort
    · exact hclear
    · have hroom := (growproc_alloced hm hlt hle hloop).room rfl
      have := hshort.2
      omega

end Grow

/-- A size the kernel has no room for. -/
theorem growproc_too_large (hheap : Heap (s.proc p)) (hn : 0 < n) (hmax : n < 2 ^ 31)
    (hge : (kernBase : Int) ≤ (s.proc p).sz + n) : GrowsRight p n s := by
  have hsize := hheap.size
  have hmod : kernBase ≤ ((((s.proc p).sz : Int) + n) % 2 ^ 32).toNat := by
    simp only [kernBase] at *
    omega
  refine ⟨-1, s, ?_, .inr ⟨rfl, rfl, fun _ _ => rfl, fun _ _ _ h => h⟩⟩
  have hself : ({ s with mem := s.mem } : Kernel).setProc p
      { s.proc p with pgdir := (s.proc p).pgdir } = s := Kernel.setProc_eq_self s p
  simp only [growproc, if_pos hn, allocuvm, if_pos hmod]
  exact congrArg (fun s' => Except.ok ((-1 : Int), s')) hself

section Shrink

variable (hheap : Heap (s.proc p)) (hn : n < 0) (hmin : -(2 ^ 31) ≤ n)

include hheap hn hmin in
/-- The new size is below 0, as a `uint` far above the old one: nothing happens, and the result
is the old size. -/
theorem growproc_below_zero (hlow : ((s.proc p).sz : Int) + n < 0) :
    growproc p n s = .ok (if (s.proc p).sz = 0 then -1 else 0, s) := by
  have hsize := hheap.size
  have hmod : (s.proc p).sz ≤ ((((s.proc p).sz : Int) + n) % 2 ^ 32).toNat := by
    simp only [kernBase] at *
    omega
  have hself : ({ s with mem := s.mem } : Kernel).setProc p
      { s.proc p with pgdir := (s.proc p).pgdir } = s := Kernel.setProc_eq_self s p
  simp only [growproc, if_neg (show ¬ 0 < n by omega), if_pos hn, deallocuvm, if_pos hmod]
  change (if (s.proc p).sz = 0 then _ else _) = _
  split
  · exact congrArg (fun s' => Except.ok ((-1 : Int), s')) hself
  · exact congrArg (fun s' => Except.ok ((0 : Int), s')) hself

include hheap hn in
/-- The pages between the sizes are freed. -/
theorem growproc_dealloc {newsz : Nat} (hnew : ((s.proc p).sz : Int) + n = newsz) :
    ∃ pg' m', deallocuvm (s.proc p).pgdir (s.proc p).sz newsz s.mem = .ok (newsz, pg', m') ∧
      growproc p n s = .ok (if newsz = 0 then (-1, s.resized p (s.proc p).sz pg' m')
        else (0, s.resized p newsz pg' m')) := by
  have hsize := hheap.size
  have hlt : newsz < (s.proc p).sz := by omega
  have hmod : ((((s.proc p).sz : Int) + n) % 2 ^ 32).toNat = newsz := by
    rw [hnew]
    simp only [kernBase] at *
    omega
  obtain ⟨pg', m', hd⟩ := deallocuvm_returns (s.proc p).pgdir s.mem (Nat.le_of_lt hsize)
    fun w (_ : pgRoundUp newsz ≤ w * pgSize) h₂ _ => (hheap.below w h₂).2
  rw [if_neg (by omega)] at hd
  refine ⟨pg', m', hd, ?_⟩
  simp only [growproc, hmod, if_neg (show ¬ 0 < n by omega), if_pos hn]
  refine ok_bind hd ?_
  change (if newsz = 0 then _ else _) = _
  split <;> rfl

include hheap hn hmin in
/-- **Shrinking.** -/
theorem growproc_shrink_iff : GrowsRight p n s ↔ (s.proc p).sz = 0 ∨
    0 < (s.proc p).sz + n ∧ WindowClear ((s.proc p).sz + n).toNat (s.proc p).sz := by
  have hsize := hheap.size
  by_cases hlow : ((s.proc p).sz : Int) + n < 0
  · have hrun := growproc_below_zero hheap hn hmin hlow
    constructor
    · rintro ⟨r, s', h, hright⟩
      rw [hrun] at h
      simp only [Except.ok.injEq, Prod.mk.injEq] at h
      by_contra hno
      rw [not_or] at hno
      rw [if_neg hno.1] at h
      obtain ⟨rfl, rfl⟩ := h
      rcases hright with ⟨-, hgrown⟩ | ⟨hr, -⟩
      · have := hgrown.nonneg
        omega
      · cases hr
    · rintro (hzero | ⟨hpos, -⟩)
      · exact ⟨-1, s, by rw [hrun, if_pos hzero], .inr ⟨rfl, rfl, fun _ _ => rfl, fun _ _ _ h => h⟩⟩
      · omega
  · obtain ⟨newsz, hnew⟩ : ∃ newsz : Nat, ((s.proc p).sz : Int) + n = newsz :=
      ⟨((s.proc p).sz + n).toNat, by omega⟩
    obtain ⟨pg', m', hd, hrun⟩ := growproc_dealloc hheap hn hnew
    obtain ⟨-, hout, hgone⟩ := deallocuvm_spec (Nat.le_of_lt hsize) hd
    have hlt : newsz < (s.proc p).sz := by omega
    have hgone := hgone hlt
    have hne : (s.proc p).sz ≠ 0 := by omega
    have huser : ∀ w, w * pgSize < (s.proc p).sz → w < 2 ^ 19 := fun w hw => by
      simp only [pgSize, kernBase] at *
      omega
    rw [hnew, Int.toNat_natCast]
    by_cases hzero : newsz = 0
    · -- everything was freed
      refine ⟨?_, fun h => h.elim (fun h => absurd h hne) fun h => absurd h.1 (by omega)⟩
      rintro ⟨r, s', h, hright⟩
      rw [hrun, if_pos hzero] at h
      cases h
      rcases hright with ⟨hr, -⟩ | ⟨-, hkept⟩
      · cases hr
      · have hin : 0 * pgSize < (s.proc p).sz := by omega
        have hsame := hkept.translation 0 (by decide)
        rw [resized_proc, translation_none.mpr (hgone 0 (by rw [hzero]; decide) hin)] at hsame
        have hp := (hheap.below 0 hin).1
        rw [translation_none.mp hsame.symm] at hp
        cases hp
    · constructor
      · rintro ⟨r, s', h, hright⟩
        rw [hrun, if_neg hzero] at h
        cases h
        rcases hright with ⟨-, hgrown⟩ | ⟨hr, -⟩
        · refine .inr ⟨by omega, fun w h₁ h₂ => ?_⟩
          by_contra hwin
          have hsame := hgrown.window w (Nat.le_of_not_lt hwin) (huser w h₂)
          rw [resized_proc, translation_none.mpr (hgone w h₁ h₂)] at hsame
          have hp := (hheap.below w h₂).1
          rw [translation_none.mp hsame.symm] at hp
          cases hp
        · cases hr
      · rintro (h | ⟨-, hclear⟩)
        · exact absurd h hne
        · refine ⟨0, _, by rw [hrun, if_neg hzero], .inl ⟨rfl, by omega, by omega, ?_, fun w hw => ?_,
            fun w h₁ h₂ => ?_, fun w h₁ h₂ => ?_, fun w h₁ h₂ => ?_⟩⟩
          · rw [resized_proc, hnew]
          · rw [resized_proc] at hw ⊢
            change w * pgSize < newsz at hw
            change (pg'.page w).p = true
            have hw' := hw.trans hlt
            rw [hout w ((huser w hw').trans (by decide)) (.inl (Nat.lt_of_lt_of_le hw ?_))]
            · exact (hheap.below w hw').1
            · simp only [pgRoundUp, pgSize]
              omega
          · rw [resized_proc] at h₂
            change w * pgSize < newsz at h₂
            omega
          · rw [resized_proc] at h₂ ⊢
            change newsz ≤ w * pgSize at h₂
            change (pg'.page w).p = false
            by_cases hin : w * pgSize < (s.proc p).sz
            · refine hgone w ?_ hin
              simp only [pgRoundUp, pgSize] at *
              omega
            · rw [hout w (h₁.trans (by decide)) (.inr (Nat.le_of_not_lt hin))]
              exact hheap.above w h₁ (Nat.le_of_not_lt hin)
          · rw [resized_proc]
            refine translation_congr (hout w (h₂.trans (by decide)) ?_)
            by_contra hno
            rw [not_or, Nat.not_lt, Nat.not_le] at hno
            exact absurd (hclear w hno.1 hno.2) (Nat.not_lt.mpr h₁)

end Shrink

/-- When `growproc(n)` goes right. -/
def GrowCondition (q : Proc) (n : Int) (m : Mem) : Prop :=
  n = 0 ∨
  n < 0 ∧ (q.sz = 0 ∨ 0 < q.sz + n ∧ WindowClear (q.sz + n).toNat q.sz) ∨
  0 < n ∧ ((kernBase : Int) ≤ q.sz + n ∨ WindowClear q.sz (q.sz + n).toNat ∨
    MemoryShort q (q.sz + n).toNat m)

/-- **`growproc` goes right** for a process of size `sz` exactly if `n` is 0; or `n` is
negative, the new size is positive (or the old one 0) and no page of the window is below
the old size and above the new; or `n` is positive and either the new size is too large
for a user, or no page of the window is below it, or nothing is mapped below it above the
old size and the memory does not suffice. -/
theorem growproc_right_iff (hheap : Heap (s.proc p)) (hm : FreelistOK s.mem)
    (hmin : -(2 ^ 31) ≤ n) (hmax : n < 2 ^ 31) :
    GrowsRight p n s ↔ GrowCondition (s.proc p) n s.mem := by
  have hsize := hheap.size
  rw [GrowCondition]
  rcases lt_trichotomy n 0 with hn | rfl | hn
  · rw [growproc_shrink_iff hheap hn hmin]
    have h₁ : n ≠ 0 := by omega
    have h₂ : ¬ 0 < n := by omega
    simp only [h₁, h₂, hn, false_and, or_false, true_and, false_or]
  · refine ⟨fun _ => .inl rfl, fun _ => ⟨0, s, by simp [growproc], .inl ⟨rfl, by omega, by omega, ?_,
      fun w hw => (hheap.below w hw).1, fun w h₁ h₂ => ?_, hheap.above, fun _ _ _ => rfl⟩⟩⟩
    · omega
    · omega
  · have h₁ : n ≠ 0 := by omega
    have h₂ : ¬ n < 0 := by omega
    simp only [h₁, h₂, hn, false_and, true_and, false_or]
    obtain ⟨newsz, hnew⟩ : ∃ newsz : Nat, ((s.proc p).sz : Int) + n = newsz :=
      ⟨((s.proc p).sz + n).toNat, by omega⟩
    rw [hnew, Int.toNat_natCast]
    by_cases hlt : newsz < kernBase
    · have hbelow : ¬ (kernBase : Int) ≤ newsz := by omega
      simp only [hbelow, false_or]
      exact ⟨growproc_grow_only hm hn hlt hnew, growproc_grow_right hheap hm hn hlt hnew⟩
    · exact ⟨fun _ => .inl (by omega),
        fun _ => growproc_too_large hheap hn hmax (by rw [hnew]; omega)⟩

omit [Image]

theorem sampleTwo_heap : @Heap sampleImage (sampleTwo.proc 1) := by
  let _ := sampleImage
  refine ⟨by decide, fun w hw => ?_, fun w hw hge => ?_⟩
  · have hzero : w = 0 := by
      change w * 4096 < 4096 at hw
      omega
    rw [hzero]
    exact ⟨by decide, by decide⟩
  · have hpos : w ≠ 0 := by
      rintro rfl
      change 4096 ≤ 0 * 4096 at hge
      omega
    change (PgDir.page ⟨sampleBase 1, samplePde (sampleBase 1)⟩ w).p = false
    rw [sample_page 1 w (hw.trans (by decide)), if_neg hpos]
    rfl

/-- One page more. -/
theorem growproc_right_page : @GrowsRight sampleImage 1 4096 sampleTwo := by
  let _ := sampleImage
  refine (growproc_right_iff sampleTwo_heap (sample_boot _).free (by decide) (by decide)).mpr ?_
  refine .inr (.inr ⟨by decide, .inr (.inl fun w _ h => ?_)⟩)
  change w * 4096 < 8192 at h
  change w < 2 ^ 19 - 32
  omega

/-- `sbrk(-8192)` of a process with one page returns its old size, as if it had succeeded. -/
theorem growproc_past_zero : ¬ ∀ (_ : Image) (s : Kernel) (p : Fin nproc) (n : Int),
    Heap (s.proc p) → FreelistOK s.mem → -(2 ^ 31) ≤ n → n < 2 ^ 31 → GrowsRight p n s := by
  intro hall
  let _ := sampleImage
  obtain ⟨r, s', h, hright⟩ := hall sampleImage sampleTwo 1 (-8192) sampleTwo_heap
    (sample_boot _).free (by decide) (by decide)
  have hrun := growproc_below_zero (n := -8192) sampleTwo_heap (by decide) (by decide) (by decide)
  rw [hrun] at h
  rcases hright with ⟨-, hgrown⟩ | ⟨rfl, -⟩
  · exact absurd hgrown.nonneg (by decide)
  · simp only [Except.ok.injEq, Prod.mk.injEq] at h
    exact absurd h.1 (by decide)

end Growproc

end Xv6
