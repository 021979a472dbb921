import Xv6.Kernel.ShmSpec

/-!
# What `fork` and `wait` do

`manage_fork` goes through the window positions of the parent. Where the
parent's `bitmap` is set it maps the parent's page into the child, copies the
record and counts the child at the first slot with that page. `Inherited`
says what a part of this loop has done; the counter of a slot grows by the
number of positions that found it.
-/

namespace Xv6

open Outcome Kernel

/-! ## §1  `manage_fork` -/

/-- The test at the head of `manage_fork`'s loop: the parent's bit is set and
the child's is not. -/
def Proc.Copies (q r : Proc) (i : Fin shmemPages) : Prop :=
  q.bitmap i = 1 ∧ r.bitmap i ≠ 1

instance (q r : Proc) (i : Fin shmemPages) : Decidable (q.Copies r i) := by
  unfold Proc.Copies; infer_instance

/-- The other positions of the child are tested as before. -/
theorem copies_inherit {q r : Proc} {i j : Fin shmemPages} {pg : PgDir} (hj : j ≠ i) :
    q.Copies (r.inherit q i pg) j ↔ q.Copies r j := by
  simp [Proc.Copies, Proc.inherit, hj]

/-- What `manage_fork` has done after the positions `is`: the child `c` has
the pages and records of the parent `p` there. -/
structure Inherited (p c : Fin nproc) (is : List (Fin shmemPages)) (s s' : Kernel) : Prop where
  others : ∀ q, q ≠ c → s'.proc q = s.proc q
  addr : s'.shTable.shmemAddr = s.shTable.shmemAddr
  key : s'.shTable.shmemKey = s.shTable.shmemKey
  lock : s'.shTable.lock = s.shTable.lock
  initproc : s'.initproc = s.initproc
  counter_le : ∀ t, s.shTable.shmemCounter t ≤ s'.shTable.shmemCounter t
  cap : ∀ t, s.shTable.shmemCounter t ≤ 16 → s'.shTable.shmemCounter t ≤ 16
  grew : Grew (s.proc c).pgdir (s'.proc c).pgdir s.mem s'.mem
  page_copied : ∀ i ∈ is, (s.proc p).Copies (s.proc c) i →
    (s'.proc c).pgdir.page (windowPage i) = .map (v2p ((s.proc p).phySharedPage i)) permWU
  page_other : ∀ w < 2 ^ 20, (∀ i ∈ is, (s.proc p).Copies (s.proc c) i → w ≠ windowPage i) →
    (s'.proc c).pgdir.page w = (s.proc c).pgdir.page w
  rec_copied : ∀ i ∈ is, (s.proc p).Copies (s.proc c) i →
    (s'.proc c).phySharedPage i = (s.proc p).phySharedPage i ∧
    (s'.proc c).vmSharedPage i = (s.proc p).vmSharedPage i ∧
    (s'.proc c).pKey i = (s.proc p).pKey i ∧ (s'.proc c).bitmap i = 1
  rec_other : ∀ i, (i ∈ is → ¬ (s.proc p).Copies (s.proc c) i) →
    (s'.proc c).phySharedPage i = (s.proc c).phySharedPage i ∧
    (s'.proc c).vmSharedPage i = (s.proc c).vmSharedPage i ∧
    (s'.proc c).pKey i = (s.proc c).pKey i ∧ (s'.proc c).bitmap i = (s.proc c).bitmap i
  rest : (s'.proc c).sz = (s.proc c).sz ∧ (s'.proc c).kstack = (s.proc c).kstack ∧
    (s'.proc c).state = (s.proc c).state ∧ (s'.proc c).pid = (s.proc c).pid ∧
    (s'.proc c).parent = (s.proc c).parent

/-- How often the positions `is` count at slot `t`. -/
def Proc.hits (q r : Proc) (tab : ShmTable) (is : List (Fin shmemPages)) (t : Fin shmemPages) :
    Nat :=
  is.countP fun i => q.Copies r i ∧ slotOf tab (q.phySharedPage i) = some t

theorem Inherited.nil (p c : Fin nproc) (s : Kernel) : Inherited p c [] s s where
  others _ _ := rfl
  addr := rfl
  key := rfl
  lock := rfl
  initproc := rfl
  counter_le _ := Int.le_refl _
  cap _ h := h
  grew := Grew.refl _ _
  page_copied i hi := by simp at hi
  page_other _ _ _ := rfl
  rec_copied i hi := by simp at hi
  rec_other _ _ := ⟨rfl, rfl, rfl, rfl⟩
  rest := ⟨rfl, rfl, rfl, rfl, rfl⟩

variable {c p : Fin nproc} {s s' : Kernel}

/-- A position that is not copied changes nothing. -/
theorem Inherited.skip {i : Fin shmemPages} {is : List (Fin shmemPages)}
    (hno : ¬ (s.proc p).Copies (s.proc c) i) (h : Inherited p c is s s') :
    Inherited p c (i :: is) s s' where
  others := h.others
  addr := h.addr
  key := h.key
  lock := h.lock
  initproc := h.initproc
  counter_le := h.counter_le
  cap := h.cap
  grew := h.grew
  page_copied j hj hc := by
    rcases List.mem_cons.mp hj with rfl | hj
    · exact absurd hc hno
    · exact h.page_copied j hj hc
  page_other w hw hne := h.page_other w hw fun j hj => hne j (List.mem_cons_of_mem _ hj)
  rec_copied j hj hc := by
    rcases List.mem_cons.mp hj with rfl | hj
    · exact absurd hc hno
    · exact h.rec_copied j hj hc
  rec_other j hj := h.rec_other j fun hmem => hj (List.mem_cons_of_mem _ hmem)
  rest := h.rest

/-- One copied position, then the rest. -/
theorem Inherited.cons {i : Fin shmemPages} {is : List (Fin shmemPages)} {pg : PgDir} {m : Mem}
    {t : ShmTable} (hpc : p ≠ c) (hi : i ∉ is) (hcopies : (s.proc p).Copies (s.proc c) i)
    (hmap : Mapped (s.proc c).pgdir pg s.mem m (windowPage i)
      (v2p ((s.proc p).phySharedPage i))) (haddr : t.shmemAddr = s.shTable.shmemAddr)
    (hkey : t.shmemKey = s.shTable.shmemKey) (hlock : t.lock = s.shTable.lock)
    (hcount : ∀ y, s.shTable.shmemCounter y ≤ t.shmemCounter y)
    (hcap : ∀ y, s.shTable.shmemCounter y ≤ 16 → t.shmemCounter y ≤ 16)
    (h : Inherited p c is ({ s with mem := m, shTable := t }.setProc c
      ((s.proc c).inherit (s.proc p) i pg)) s') :
    Inherited p c (i :: is) s s' := by
  have hp : ({ s with mem := m, shTable := t }.setProc c
      ((s.proc c).inherit (s.proc p) i pg)).proc p = s.proc p :=
    setProc_ne hpc _
  have hdiff : ∀ j ∈ is, j ≠ i := fun j hj heq => hi (heq ▸ hj)
  obtain ⟨hothers, haddr', hkey', hlock', hinit, hle, hcap', hgrew, hpage, hpageo, hrec, hreco,
    hrest⟩ := h
  simp only [hp, setProc_self] at hgrew hpage hpageo hrec hreco hrest
  have hwin : ∀ j : Fin shmemPages, windowPage j < 2 ^ 20 := by
    intro j
    simp only [windowPage]
    omega
  refine ⟨?_, haddr'.trans haddr, hkey'.trans hkey, hlock'.trans hlock, hinit, ?_,
    fun y hy => hcap' y (hcap y hy), ?_, ?_, ?_, ?_, ?_, hrest⟩
  · intro q hq
    rw [hothers q hq, setProc_ne hq]
  · exact fun y => (hcount y).trans (hle y)
  · exact hmap.grew.trans hgrew
  · intro j hj hc
    by_cases hji : j = i
    · subst hji
      rw [hpageo _ (hwin j), Proc.inherit, hmap.page _ (hwin j), if_pos rfl]
      intro k hk _ heq
      exact hdiff k hk (Fin.ext (windowPage_inj k.isLt j.isLt heq.symm))
    · exact hpage j ((List.mem_cons.mp hj).resolve_left hji) ((copies_inherit hji).mpr hc)
  · intro w hw hne
    rw [hpageo w hw, Proc.inherit, hmap.page w hw,
      if_neg (hne i (List.mem_cons_self ..) hcopies)]
    exact fun j hj hc => hne j (List.mem_cons_of_mem _ hj) ((copies_inherit (hdiff j hj)).mp hc)
  · intro j hj hc
    by_cases hji : j = i
    · subst hji
      obtain ⟨h₁, h₂, h₃, h₄⟩ := hreco j fun hmem => absurd hmem hi
      rw [h₁, h₂, h₃, h₄]
      simp [Proc.inherit]
    · exact hrec j ((List.mem_cons.mp hj).resolve_left hji) ((copies_inherit hji).mpr hc)
  · intro j hj
    have hji : j ≠ i := fun heq => hj (heq ▸ List.mem_cons_self ..) (heq ▸ hcopies)
    obtain ⟨h₁, h₂, h₃, h₄⟩ := hreco j fun hmem hc =>
      hj (List.mem_cons_of_mem _ hmem) ((copies_inherit hji).mp hc)
    rw [h₁, h₂, h₃, h₄]
    simp [Proc.inherit, hji]

/-! ## §2  The loop -/

variable [Image]

/-- One round of `manage_fork`. -/
theorem forkPos_ok {i : Fin shmemPages} {gone : Bool} (h : forkPos p c i s = .ok (gone, s')) :
    (¬ (s.proc p).Copies (s.proc c) i ∧ gone = false ∧ s' = s) ∨
      ((s.proc p).Copies (s.proc c) i ∧ ∃ pg m,
        Mapped (s.proc c).pgdir pg s.mem m (windowPage i) (v2p ((s.proc p).phySharedPage i)) ∧
        ((gone = false ∧ slotOf s.shTable ((s.proc p).phySharedPage i) = none ∧
            s' = { s with mem := m }.setProc c ((s.proc c).inherit (s.proc p) i pg)) ∨
          (gone = false ∧ ∃ y, slotOf s.shTable ((s.proc p).phySharedPage i) = some y ∧
            s.shTable.shmemCounter y ≠ 16 ∧
            s' = { s with
              mem := m
              shTable := s.shTable.setCounter y (s.shTable.shmemCounter y + 1) }.setProc c
                ((s.proc c).inherit (s.proc p) i pg)) ∨
          (gone = true ∧ ∃ y, slotOf s.shTable ((s.proc p).phySharedPage i) = some y ∧
            s.shTable.shmemCounter y = 16 ∧
            exit p ({ s with mem := m }.setProc c ((s.proc c).inherit (s.proc p) i pg))
              = .ok s'))) := by
  unfold forkPos at h
  simp only at h
  split at h
  · rename_i hbit
    have hcopies : (s.proc p).Copies (s.proc c) i := ⟨hbit.1, fun hc => hbit.2 (by rw [hbit.1, hc])⟩
    refine .inr ⟨hcopies, ?_⟩
    obtain ⟨⟨b, pg, m⟩, hmap, h⟩ := bind_ok h
    split at h
    · rename_i hb
      refine ⟨pg, m, mappages_window hmap hb, ?_⟩
      split at h
      · rename_i hslot
        simp only [Except.ok.injEq, Prod.mk.injEq] at h
        exact .inl ⟨h.1.symm, hslot, h.2.symm⟩
      · rename_i y hslot
        split at h
        · rename_i hcap
          obtain ⟨s₁, hexit, h⟩ := bind_ok h
          cases h
          exact .inr (.inr ⟨rfl, y, hslot, hcap, hexit⟩)
        · rename_i hcap
          simp only [Except.ok.injEq, Prod.mk.injEq] at h
          exact .inr (.inl ⟨h.1.symm, y, hslot, hcap, h.2.symm⟩)
    · simp at h
  · rename_i hbit
    simp only [Except.ok.injEq, Prod.mk.injEq] at h
    refine .inl ⟨fun hc => hbit ⟨hc.1, fun heq => hc.2 (by rw [← heq, hc.1])⟩, h.1.symm, h.2.symm⟩


/-- How `manage_fork` ends on the positions `is`. Either the loop went
through, and every slot was counted once for each position that found it; or
the parent went into `exit` after some of the positions, at a slot with 16
processes. -/
def ForkLoop (p c : Fin nproc) (is : List (Fin shmemPages)) (s : Kernel) (gone : Bool)
    (s' : Kernel) : Prop :=
  (gone = false ∧ Inherited p c is s s' ∧ ∀ t, s'.shTable.shmemCounter t =
    s.shTable.shmemCounter t + (s.proc p).hits (s.proc c) s.shTable is t) ∨
  (gone = true ∧ (∃ t, 16 < s.shTable.shmemCounter t + (s.proc p).hits (s.proc c) s.shTable is t) ∧
    ∃ js s₁, js ⊆ is ∧ Inherited p c js s s₁ ∧ exit p s₁ = .ok s')

omit [Image] in
theorem slotOf_congr {t t' : ShmTable} (h : t.shmemAddr = t'.shmemAddr) (f : Nat) :
    slotOf t f = slotOf t' f := by
  rw [slotOf, slotOf, h]

/-- One copied position in front of the loop. -/
theorem ForkLoop.cons {i : Fin shmemPages} {is : List (Fin shmemPages)} {pg : PgDir} {m : Mem}
    {t : ShmTable} {gone : Bool} (hpc : p ≠ c) (hi : i ∉ is)
    (hcopies : (s.proc p).Copies (s.proc c) i)
    (hmap : Mapped (s.proc c).pgdir pg s.mem m (windowPage i)
      (v2p ((s.proc p).phySharedPage i))) (haddr : t.shmemAddr = s.shTable.shmemAddr)
    (hkey : t.shmemKey = s.shTable.shmemKey) (hlock : t.lock = s.shTable.lock)
    (hcount : ∀ y, t.shmemCounter y = s.shTable.shmemCounter y +
      if slotOf s.shTable ((s.proc p).phySharedPage i) = some y then 1 else 0)
    (hcap : ∀ y, s.shTable.shmemCounter y ≤ 16 → t.shmemCounter y ≤ 16)
    (h : ForkLoop p c is ({ s with mem := m, shTable := t }.setProc c
      ((s.proc c).inherit (s.proc p) i pg)) gone s') :
    ForkLoop p c (i :: is) s gone s' := by
  have hle : ∀ y, s.shTable.shmemCounter y ≤ t.shmemCounter y := by
    intro y
    rw [hcount y]
    split <;> omega
  -- this position has been counted
  have hsum : ∀ y, t.shmemCounter y + (({ s with mem := m, shTable := t }.setProc c
      ((s.proc c).inherit (s.proc p) i pg)).proc p).hits ((s.proc c).inherit (s.proc p) i pg) t is y =
      s.shTable.shmemCounter y + (s.proc p).hits (s.proc c) s.shTable (i :: is) y := by
    intro y
    have hrest : (s.proc p).hits ((s.proc c).inherit (s.proc p) i pg) t is y =
        (s.proc p).hits (s.proc c) s.shTable is y := by
      refine List.countP_congr fun j hj => ?_
      have hji : j ≠ i := fun heq => hi (heq ▸ hj)
      simp only [copies_inherit hji, slotOf_congr haddr]
    rw [setProc_ne hpc, hrest, hcount y]
    by_cases hy : slotOf s.shTable ((s.proc p).phySharedPage i) = some y
    · simp [Proc.hits, hcopies, hy]
      omega
    · simp [Proc.hits, hy]
  rcases h with ⟨hg, hinh, hcnt⟩ | ⟨hg, ⟨y, hfull⟩, js, s₁, hjs, hinh, hexit⟩
  · refine .inl ⟨hg, hinh.cons hpc hi hcopies hmap haddr hkey hlock hle hcap, fun y => ?_⟩
    rw [hcnt y, setProc_self]
    exact hsum y
  · rw [setProc_self] at hfull
    refine .inr ⟨hg, ⟨y, (hsum y).symm ▸ hfull⟩, i :: js, s₁, List.cons_subset_cons i hjs, ?_, hexit⟩
    exact hinh.cons hpc (fun hmem => hi (hjs hmem)) hcopies hmap haddr hkey hlock hle hcap

/-- **`manage_fork`.** -/
theorem manageFork_ok (hpc : p ≠ c) :
    ∀ {is : List (Fin shmemPages)} {s s' : Kernel} {gone : Bool}, is.Nodup →
      manageFork p c is s = .ok (gone, s') → ForkLoop p c is s gone s'
  | [], s, s', gone, _, h => by
    simp only [manageFork, Except.ok.injEq, Prod.mk.injEq] at h
    obtain ⟨rfl, rfl⟩ := h
    exact .inl ⟨rfl, Inherited.nil p c s, fun t => by simp [Proc.hits]⟩
  | i :: is, s, s', gone, hnd, h => by
    obtain ⟨hi, hnd⟩ := List.nodup_cons.mp hnd
    rw [manageFork] at h
    obtain ⟨⟨g, s₁⟩, hpos, hloop⟩ := bind_ok h
    rcases forkPos_ok hpos with ⟨hno, rfl, rfl⟩ | ⟨hcopies, pg, m, hmap, hcase⟩
    · -- the position is skipped
      have hhits : ∀ t, (s₁.proc p).hits (s₁.proc c) s₁.shTable (i :: is) t =
          (s₁.proc p).hits (s₁.proc c) s₁.shTable is t := fun t => by simp [Proc.hits, hno]
      rcases manageFork_ok hpc hnd hloop with ⟨hg, hinh, hcnt⟩ | ⟨hg, ⟨t, hfull⟩, js, s₂, hjs, hrest⟩
      · exact .inl ⟨hg, hinh.skip hno, fun t => by rw [hcnt t, hhits t]⟩
      · exact .inr ⟨hg, ⟨t, by rw [hhits t]; exact hfull⟩, js, s₂,
          fun j hj => List.mem_cons_of_mem _ (hjs hj), hrest⟩
    · rcases hcase with ⟨rfl, hslot, rfl⟩ | ⟨rfl, y, hslot, hcap, rfl⟩ |
        ⟨rfl, y, hslot, hcap, hexit⟩
      · -- no slot has this page
        refine ForkLoop.cons hpc hi hcopies hmap rfl rfl rfl (fun t => ?_) (fun _ h => h)
          (manageFork_ok hpc hnd hloop)
        simp [hslot]
      · refine ForkLoop.cons (t := s.shTable.setCounter y (s.shTable.shmemCounter y + 1)) hpc hi
          hcopies hmap rfl rfl rfl (fun t => ?_) (fun t ht => ?_)
          (manageFork_ok hpc hnd hloop)
        · by_cases ht : t = y
          · subst ht
            simp [hslot]
          · simp [hslot, ht, Ne.symm ht]
        · by_cases hty : t = y
          · subst hty
            simp only [ShmTable.setCounter_counter, if_true]
            omega
          · simpa [hty] using ht
      · -- the slot is at the cap
        simp only [if_true, Except.ok.injEq, Prod.mk.injEq] at hloop
        obtain ⟨rfl, rfl⟩ := hloop
        refine .inr ⟨rfl, ⟨y, ?_⟩, [i], _, by simp, ?_, hexit⟩
        · simp [Proc.hits, hcopies, hslot, hcap]
        exact Inherited.cons hpc (by simp) hcopies hmap rfl rfl rfl (fun _ => Int.le_refl _)
          (fun _ h => h) (Inherited.nil p c _)

/-! ## §3  `fork` -/

/-- The child before `manage_fork`: a kernel stack `k`, a copy `d` of the
parent's address space and no shared page. -/
def Proc.newborn (r q : Proc) (p : Fin nproc) (pid k : Nat) (d : PgDir) : Proc :=
  { r with
    state := .embryo
    pid := pid
    kstack := k
    pgdir := d
    sz := q.sz
    parent := some p
    esp := q.esp
    phySharedPage := fun _ => 0
    vmSharedPage := fun _ => 0
    bitmap := fun _ => 0
    pKey := fun _ => zeroKey }

/-- The state in which `manage_fork` starts: child `np` of `p`, with what
`allocproc` and `copyuvm` gave it. -/
def Kernel.born (s : Kernel) (p np : Fin nproc) (k : Nat) (d : PgDir) (m : Mem) : Kernel :=
  { s with mem := m, nextpid := s.nextpid + 1 }.setProc np
    ((s.proc np).newborn (s.proc p) p s.nextpid k d)

omit [Image] in
@[simp] theorem born_self (s : Kernel) (p np : Fin nproc) (k : Nat) (d : PgDir) (m : Mem) :
    (s.born p np k d m).proc np = (s.proc np).newborn (s.proc p) p s.nextpid k d := by
  simp [Kernel.born]

omit [Image] in
theorem born_ne {np q : Fin nproc} (h : q ≠ np) (k : Nat) (d : PgDir) (m : Mem) :
    (s.born p np k d m).proc q = s.proc q :=
  setProc_ne h _

/-- A call that failed: the table is as before, no process slot in use has
changed, and no frame was put on the free list. -/
structure Quiet (s s' : Kernel) : Prop where
  table : s'.shTable = s.shTable
  initproc : s'.initproc = s.initproc
  proc : ∀ q, s'.proc q = s.proc q ∨
    ((s.proc q).state = .unused ∧ (s'.proc q).state = .unused ∧ (s'.proc q).sz = (s.proc q).sz)
  count : ∀ f, s'.mem.freelist.count f ≤ s.mem.freelist.count f

omit [Image] in
theorem Quiet.refl (s : Kernel) : Quiet s s :=
  ⟨rfl, rfl, fun _ => .inl rfl, fun _ => Nat.le_refl _⟩

theorem Quiet.freelistOK (h : Quiet s s') (hm : FreelistOK s.mem) :
    FreelistOK s'.mem := hm.of_count_le h.count

omit [Image] in
/-- `allocproc`: no free slot, no memory, or a new process. -/
theorem allocproc_ok {r : Option (Fin nproc)} (h : allocproc s = (r, s')) :
    (r = none ∧ Quiet s s') ∨ ∃ np k m, r = some np ∧ (s.proc np).state = .unused ∧
      s.mem.freelist = k :: m.freelist ∧
      s' = { s with mem := m, nextpid := s.nextpid + 1 }.setProc np { s.proc np with
        state := .embryo
        pid := s.nextpid
        kstack := k
        phySharedPage := fun _ => 0
        vmSharedPage := fun _ => 0
        bitmap := fun _ => 0
        pKey := fun _ => zeroKey } := by
  unfold allocproc at h
  split at h
  · cases h
    exact .inl ⟨rfl, Quiet.refl s⟩
  · rename_i np hnp
    have hun : (s.proc np).state = .unused := by simpa using find_finRange_some hnp
    simp only [setProc_mem, setProc_self] at h
    split at h
    · rename_i m hk
      cases h
      refine .inl ⟨rfl, rfl, rfl, fun q => ?_, fun f => ?_⟩
      · by_cases hq : q = np
        · subst hq
          exact .inr ⟨hun, by simp, by simp⟩
        · exact .inl (by simp [setProc, hq])
      · rw [setProc_mem, (kalloc_none hk).1]
    · rename_i k m hk
      cases h
      refine .inr ⟨np, k, m, rfl, hun, (kalloc_some hk).1, ?_⟩
      simp [setProc]

/-- **`fork`**: it failed, or `manage_fork` ran for a new child and came back,
or ended the parent. -/
theorem fork_ok {r : CallResult} (hlive : s.Live p)
    (hsz : (s.proc p).sz ≤ kernBase) (hm : FreelistOK s.mem) (h : fork p s = .ok (r, s')) :
    (r = .value (-1) ∧ Quiet s s') ∨
      ∃ np k m₁ d m₂, p ≠ np ∧ (s.proc np).state = .unused ∧
        s.mem.freelist = k :: m₁.freelist ∧
        copyuvm (s.proc p).pgdir (s.proc p).sz m₁ = .ok (some d, m₂) ∧
        ((r = .value s.nextpid ∧ ∃ s₂,
            Inherited p np (List.finRange shmemPages) (s.born p np k d m₂) s₂ ∧
            (∀ t, s₂.shTable.shmemCounter t = s.shTable.shmemCounter t +
              ((s.born p np k d m₂).proc p).hits ((s.born p np k d m₂).proc np) s.shTable
                (List.finRange shmemPages) t) ∧
            s' = s₂.setProc np { s₂.proc np with state := .runnable }) ∨
          (r = .exited ∧ (∃ t, 16 < s.shTable.shmemCounter t +
              ((s.born p np k d m₂).proc p).hits ((s.born p np k d m₂).proc np) s.shTable
                (List.finRange shmemPages) t) ∧
            ∃ js s₁, Inherited p np js (s.born p np k d m₂) s₁ ∧ exit p s₁ = .ok s')) := by
  unfold fork at h
  split at h
  · rename_i s₁ halloc
    cases h
    rcases allocproc_ok halloc with ⟨-, hq⟩ | ⟨_, _, _, hr, -⟩
    · exact .inl ⟨rfl, hq⟩
    · simp at hr
  · rename_i np s₁ halloc
    rcases allocproc_ok halloc with ⟨hr, -⟩ | ⟨np', k, m₁, hr, hun, hl, rfl⟩
    · simp at hr
    · cases hr
      have hne : p ≠ np := fun heq => live_ne_unused hlive (heq ▸ hun)
      obtain ⟨⟨d, m₂⟩, hcopy, h⟩ := bind_ok h
      simp only [setProc_ne hne, setProc_mem] at hcopy
      have hm₁ : FreelistOK m₁ := fun f hf => hm f (by rw [hl]; exact List.mem_cons_of_mem _ hf)
      obtain ⟨hm₂, hnone, -⟩ := copyuvm_spec hsz hm₁ hcopy
      cases d with
      | none =>
        obtain ⟨m₃, hfree, h⟩ := bind_ok h
        cases h
        refine .inl ⟨rfl, rfl, rfl, fun q => ?_, fun f => ?_⟩
        · by_cases hq : q = np
          · subst hq
            exact .inr ⟨hun, by simp, by simp⟩
          · exact .inl (by simp [setProc, hq])
        · have h₁ := kfree_count hfree f
          have h₂ := hnone rfl f
          simp only [setProc_self, setProc_mem] at h₁ ⊢
          rw [hl, List.count_cons]
          simp only [beq_iff_eq]
          omega
      | some d =>
        obtain ⟨⟨gone, s₂⟩, hloop, h⟩ := bind_ok h
        have hfork := manageFork_ok hne (List.nodup_finRange _) hloop
        simp only [setProc_ne hne, setProc_self] at hfork
        have hborn : ForkLoop p np (List.finRange shmemPages) (s.born p np k d m₂) gone s₂ := by
          simpa [Kernel.born, setProc, Proc.newborn] using hfork
        refine .inr ⟨np, k, m₁, d, m₂, hne, hun, hl, hcopy, ?_⟩
        rcases hborn with ⟨rfl, hinh, hcnt⟩ | ⟨rfl, hfull, js, s₁, -, hinh, hexit⟩
        · simp only [Bool.false_eq_true, if_false, Except.ok.injEq, Prod.mk.injEq] at h
          have hpid := hinh.rest.2.2.2.1
          rw [born_self] at hpid
          refine .inl ⟨?_, s₂, hinh, hcnt, h.2.symm⟩
          rw [← h.1, hpid]
          rfl
        · cases h
          exact .inr ⟨rfl, hfull, js, s₁, hinh, hexit⟩

/-! ## §4  `wait` -/

/-- **`wait`**: nothing changed, or one zombie child was reaped: its kernel
stack and its whole address space went to the free list. -/
theorem wait_ok {r : CallResult} (h : wait p s = .ok (r, s')) :
    s' = s ∨ ∃ c m, (s.proc c).parent = some p ∧ (s.proc c).state = .zombie ∧
      (∀ f, m.freelist.count f = s.mem.freelist.count f +
        (if (s.proc c).kstack = f then 1 else 0) + (s.proc c).pgdir.own f) ∧
      (FreelistOK s.mem → FreelistOK m) ∧
      s' = { s with mem := m }.setProc c { s.proc c with
        kstack := 0, pid := 0, parent := none, killed := false, state := .unused } := by
  unfold wait at h
  split at h
  · rename_i c hc
    have hc := find_finRange_some hc
    simp only [Bool.decide_and, Bool.and_eq_true, decide_eq_true_eq] at hc
    obtain ⟨m₁, hstack, h⟩ := bind_ok h
    obtain ⟨m₂, hfree, h⟩ := bind_ok h
    cases h
    obtain ⟨hcount, hok⟩ := freevm_spec hfree
    refine .inr ⟨c, m₂, hc.1, hc.2, fun f => ?_,
      fun h₀ => hok (kfree_freelistOK hstack h₀), rfl⟩
    rw [hcount f, kfree_count hstack f]
  · split at h
    · cases h
      exact .inl rfl
    · cases h
      exact .inl rfl

end Xv6
