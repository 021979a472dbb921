import Xv6.Library.Monitor
import Xv6.Library.Tally

/-!
# `semaphores.c`

`sem_down` and `sem_up` as the program of a monitor: the lock is `sem->lk`,
the data are the other fields of `sem_t`, and the channel of `sleep` and
`wakeup` is the address of the semaphore in the calling process.

A label carries how many units its process has taken, which is no part of the
source. It is what the counting invariant is about: in every run in which a
process gives back only what it has taken, value and units taken make up the
initial value.
-/

namespace Xv6

open Monitor Transition Function

/-! ## §1  The functions -/

/-- `sem_t` without the lock. -/
structure Sem where
  value : Int
  maxval : Int
  isactive : Int
  locked : Int
deriving DecidableEq

/-- `sem_init`. -/
def semInit (value : Int) : Sem := ⟨value, value, 0, 0⟩

/-- The first branch of `sem_down`. -/
def Sem.take (sem : Sem) : Sem :=
  { sem with
    locked := if sem.value = 1 then 1 else sem.locked
    value := sem.value - 1
    isactive := 1 }

/-- The second branch of `sem_down`, after its loop. -/
def Sem.takeSlow (sem : Sem) : Sem :=
  { sem with
    locked := if sem.value = 1 then 1 else 0
    value := sem.value - 1
    isactive := 1 }

/-- The body of `sem_up` before its `wakeup`. -/
def Sem.raise (sem : Sem) : Sem :=
  { sem with
    value := sem.value + 1
    isactive := if sem.value + 1 = sem.maxval then 0 else sem.isactive
    locked := 0 }

/-- Where a call is while it has `sem->lk`. -/
inductive SemPc where
  | downTest    -- `if (!sem->locked)`
  | downLoop    -- `while(sem->locked)`
  | downDone
  | upRaise
  | upWake      -- `wakeup(sem)`
  | upDone
deriving DecidableEq

/-- `sem_down` and `sem_up` of processes that have the semaphore at the
addresses `addr`. `mayUp` tells with how many units taken a process may call
`sem_up`. -/
def semProgram {ι : Type*} (addr : ι → Nat) (mayUp : Nat → Bool) :
    Program ι Nat (SemPc × Nat) Nat Sem where
  enter _ units l :=
    match l with
    | (.downTest, n) => n = units
    | (.upRaise, n) => n = units && mayUp units
    | _ => false
  act p l sem :=
    match l with
    | (.downTest, n) =>
      if sem.locked = 0 then .go (.downDone, n + 1) sem.take else .go (.downLoop, n) sem
    | (.downLoop, n) =>
      if sem.locked ≠ 0 then .sleep (addr p) (.downLoop, n)
      else .go (.downDone, n + 1) sem.takeSlow
    | (.downDone, n) => .leave n
    | (.upRaise, n) => .go (.upWake, n - 1) sem.raise
    | (.upWake, n) => .wakeup (addr p) (.upDone, n)
    | (.upDone, n) => .leave n

/-- The two branches of `sem_down` end alike. -/
theorem Sem.takeSlow_eq {sem : Sem} (hl : sem.locked = 0) : sem.takeSlow = sem.take := by
  rw [Sem.takeSlow, Sem.take, hl]

/-- What `semProgram` does, with its guards. -/
inductive SemAct (a : Nat) (sem : Sem) : SemPc × Nat → Act Nat (SemPc × Nat) Nat Sem → Prop where
  | take {pc n} (hpc : pc = .downTest ∨ pc = .downLoop) (hl : sem.locked = 0) :
      SemAct a sem (pc, n) (.go (.downDone, n + 1) sem.take)
  | test {n} : SemAct a sem (.downTest, n) (.go (.downLoop, n) sem)
  | sleep {n} : SemAct a sem (.downLoop, n) (.sleep a (.downLoop, n))
  | raise {n} : SemAct a sem (.upRaise, n) (.go (.upWake, n - 1) sem.raise)
  | wake {n} : SemAct a sem (.upWake, n) (.wakeup a (.upDone, n))
  | done {pc n} (hpc : pc = .downDone ∨ pc = .upDone) : SemAct a sem (pc, n) (.leave n)

theorem sem_acts {ι : Type*} (addr : ι → Nat) (mayUp : Nat → Bool) (p : ι) (l : SemPc × Nat)
    (sem : Sem) : SemAct (addr p) sem l ((semProgram addr mayUp).act p l sem) := by
  obtain ⟨pc, n⟩ := l
  cases pc with
  | downTest =>
    simp only [semProgram]
    split
    · exact .take (.inl rfl) ‹_›
    · exact .test
  | downLoop =>
    simp only [semProgram]
    split
    · exact .sleep
    · rename_i hl
      rw [not_not] at hl
      rw [Sem.takeSlow_eq hl]
      exact .take (.inr rfl) hl
  | downDone => exact .done (.inl rfl)
  | upRaise => exact .raise
  | upWake => exact .wake
  | upDone => exact .done (.inr rfl)

/-- `sem_up` only after a `sem_down` of one's own. -/
def paired (units : Nat) : Bool := 1 ≤ units

/-! ## §2  The fields -/

/-- The fields of a semaphore with initial value `N`: `locked` says that no
unit is left, `isactive` that one is taken. -/
structure Sem.OK (N : Int) (sem : Sem) : Prop where
  maxval : sem.maxval = N
  nonneg : 0 ≤ sem.value
  le : sem.value ≤ N
  locked : sem.locked = if sem.value = 0 then 1 else 0
  isactive : sem.isactive = if sem.value = N then 0 else 1

theorem semInit_ok {N : Int} (hN : 1 ≤ N) : (semInit N).OK N where
  maxval := rfl
  nonneg := Int.le_trans (by decide) hN
  le := Int.le_refl N
  locked := (if_neg (show ¬ N = 0 by omega)).symm
  isactive := (if_pos rfl).symm

theorem Sem.OK.pos {N : Int} {sem : Sem} (h : sem.OK N) (hl : sem.locked = 0) :
    1 ≤ sem.value := by
  have h₁ := h.nonneg
  have h₂ := h.locked
  rw [hl] at h₂
  split at h₂ <;> omega

theorem Sem.OK.take {N : Int} {sem : Sem} (h : sem.OK N) (hl : sem.locked = 0) :
    sem.take.OK N := by
  have hpos := h.pos hl
  have hle := h.le
  refine ⟨h.maxval, ?_, ?_, ?_, ?_⟩ <;> simp only [Sem.take, hl]
  · omega
  · omega
  · by_cases h1 : sem.value = 1
    · rw [if_pos h1, if_pos (by omega)]
    · rw [if_neg h1, if_neg (by omega)]
  · rw [if_neg (by omega)]

theorem Sem.OK.raise {N : Int} {sem : Sem} (h : sem.OK N) (hlt : sem.value < N) :
    sem.raise.OK N := by
  have hpos := h.nonneg
  have hact := h.isactive
  rw [if_neg (by omega)] at hact
  refine ⟨h.maxval, ?_, ?_, ?_, ?_⟩ <;> simp only [Sem.raise, h.maxval, hact]
  · omega
  · omega
  · rw [if_neg (by omega)]

/-! ## §3  Units -/

/-- The units a process has taken. -/
def units : Place (SemPc × Nat) Nat → Nat
  | .out n => n
  | .inside l => l.2

section Back

variable {ι : Type*} [DecidableEq ι]

/-- A completed call, with the units before and after: one more after `sem_down`, one
less after `sem_up`. -/
def Back (c : (SemPc × Nat) × Nat) : Prop :=
  c.1.1 = .downTest ∧ c.2 = c.1.2 + 1 ∨ c.1.1 = .upRaise ∧ c.2 = c.1.2 - 1

/-- A call that entered at `l₀` and is at `l`. -/
def OnWay (l₀ l : SemPc × Nat) : Prop :=
  match l.1 with
  | .downTest | .downLoop => l₀ = (.downTest, l.2)
  | .downDone => l₀.1 = .downTest ∧ l.2 = l₀.2 + 1
  | .upRaise => l₀ = (.upRaise, l.2)
  | .upWake | .upDone => l₀.1 = .upRaise ∧ l.2 = l₀.2 - 1

/-- The calls of a process. -/
def SemCallsOK : Record (SemPc × Nat) Nat → Prop
  | .out _ cs => ∀ c ∈ cs, Back c
  | .inside l₀ l cs => (∀ c ∈ cs, Back c) ∧ OnWay l₀ l

omit [DecidableEq ι] in
theorem SemCallsOK.enter {addr : ι → Nat} {mayUp : Nat → Bool} {p : ι} {o : Nat}
    {l : SemPc × Nat} {cs : List ((SemPc × Nat) × Nat)} (h : SemCallsOK (.out o cs))
    (hen : (semProgram addr mayUp).enter p o l = true) : SemCallsOK (.inside l l cs) := by
  obtain ⟨pc, n⟩ := l
  cases pc with
  | downTest | upRaise => exact ⟨h, rfl⟩
  | _ => cases hen

theorem SemCallsOK.act {a : Nat} {sem : Sem} {l₀ l : SemPc × Nat}
    {cs : List ((SemPc × Nat) × Nat)} {x : Act Nat (SemPc × Nat) Nat Sem} (hx : SemAct a sem l x)
    (h : SemCallsOK (.inside l₀ l cs)) : SemCallsOK ((Record.inside l₀ l cs).seen x.place) := by
  obtain ⟨hcs, hway⟩ := h
  cases hx with
  | take hpc _ =>
    obtain rfl : l₀ = (.downTest, _) := by rcases hpc with rfl | rfl <;> exact hway
    exact ⟨hcs, rfl, rfl⟩
  | raise =>
    obtain rfl : l₀ = (.upRaise, _) := hway
    exact ⟨hcs, rfl, rfl⟩
  | test | sleep | wake => exact ⟨hcs, hway⟩
  | done hpc =>
    refine List.forall_mem_append.mpr ⟨hcs, List.forall_mem_singleton.mpr ?_⟩
    rcases hpc with rfl | rfl
    · exact .inl hway
    · exact .inr hway

/-- **What a unit is.** In every run a process that is back from `sem_down` has one unit
more than at its call, and one that is back from `sem_up` one less. -/
theorem units_back {addr : ι → Nat} {mayUp : Nat → Bool} {sem : Sem}
    {s : State ι Nat (SemPc × Nat) Nat Sem} {es : List (Monitor.Event ι (SemPc × Nat))}
    (hrun : (system (semProgram addr mayUp)).Run (initial sem 0) es s) (p : ι) :
    ∀ c ∈ (records (semProgram addr mayUp) sem 0 es p).calls, Back c := by
  have h := (records_run (J := fun (_ : Sem) r => ∀ q, SemCallsOK (r q))
    (fun {d r q o l cs} h hq hen => (forall_update_iff r fun _ => SemCallsOK).mpr
      ⟨(hq ▸ h q : SemCallsOK (.out o cs)).enter hen, fun x _ => h x⟩)
    (fun {d r q l₀ l cs} h hq => (forall_update_iff r fun _ => SemCallsOK).mpr
      ⟨SemCallsOK.act (sem_acts addr mayUp q l d) (hq ▸ h q), fun x _ => h x⟩)
    hrun (r := fun _ => .out 0 []) (fun _ => rfl)
    fun _ c hc => absurd hc List.not_mem_nil).2.2 p
  change SemCallsOK (records _ sem 0 es p) at h
  cases hr : records (semProgram addr mayUp) sem 0 es p with
  | out o cs =>
    rw [hr] at h
    exact h
  | inside l₀ l cs =>
    rw [hr] at h
    exact h.1

end Back

section Counting

variable {ι : Type*} [Fintype ι] [DecidableEq ι]

/-- One process moves. -/
theorem units_put (a : Atomic ι (SemPc × Nat) Nat Sem) (p : ι) (x : Place (SemPc × Nat) Nat) :
    ∑ q, units ((a.put p x).place q) + units (a.place p) = ∑ q, units (a.place q) + units x := by
  have := Tally.sum_change (s := Finset.univ) (i := p) (f := fun q => units (a.place q))
    (g := fun q => units ((a.put p x).place q)) (Finset.mem_univ p)
    (fun q _ hq => by simp only [Atomic.put, update_of_ne hq])
  simpa only [Atomic.put, update_self] using this

/-- The fields are in order, the units taken are missing from the value, and
nobody is in `sem_up` without a unit. -/
structure SemOK (N : Int) (a : Atomic ι (SemPc × Nat) Nat Sem) : Prop where
  fields : a.data.OK N
  total : a.data.value + ((∑ p, units (a.place p) : Nat) : Int) = N
  up : ∀ p n, a.place p = .inside (.upRaise, n) → 1 ≤ n

/-- A process moves, and value and units move against each other. -/
theorem SemOK.put {N : Int} {a : Atomic ι (SemPc × Nat) Nat Sem} (h : SemOK N a) {p : ι}
    {sem : Sem} {x : Place (SemPc × Nat) Nat} (hfields : sem.OK N)
    (hbal : sem.value + units x = a.data.value + units (a.place p))
    (hup : ∀ n, x = .inside (.upRaise, n) → 1 ≤ n) : SemOK N ({ a with data := sem }.put p x) := by
  refine ⟨hfields, ?_, fun q n hq => ?_⟩
  · have h₁ := units_put { a with data := sem } p x
    have h₂ := h.total
    simp only [Atomic.put] at h₁ ⊢
    omega
  · by_cases hqp : q = p
    · subst hqp
      simp only [Atomic.put, update_self] at hq
      exact hup n hq
    · simp only [Atomic.put, update_of_ne hqp] at hq
      exact h.up q n hq

/-- **Step.** -/
theorem SemOK.step {N : Int} {addr : ι → Nat} {a a' : Atomic ι (SemPc × Nat) Nat Sem} {p : ι}
    (h : SemOK N a) (hs : (atomic (semProgram addr paired)).step a p a') : SemOK N a' := by
  cases hp : a.place p with
  | out n =>
    simp only [atomic, hp] at hs
    obtain ⟨⟨pc, k⟩, hen, rfl⟩ := hs
    have hk : k = n := by cases pc <;> simp_all [semProgram]
    refine h.put h.fields (by rw [hp, hk]; rfl) fun m hm => ?_
    cases hm
    simp only [semProgram, paired, Bool.and_eq_true, decide_eq_true_eq] at hen
    omega
  | inside l =>
    rw [atomic_inside hs hp]
    have hacts := sem_acts addr paired p l a.data
    generalize (semProgram addr paired).act p l a.data = x at hacts
    cases hacts with
    | take _ hl =>
      refine h.put (h.fields.take hl) ?_ (by simp [Act.place])
      rw [hp]
      simp only [Sem.take, Act.data, Act.place, units]
      omega
    | @raise n =>
      have hn := h.up p n hp
      have hle := Tally.le_sum (f := fun q => units (a.place q)) (Finset.mem_univ p)
      have htotal := h.total
      rw [hp] at hle
      change n ≤ _ at hle
      refine h.put (h.fields.raise (by omega)) ?_ (by simp [Act.place])
      rw [hp]
      simp only [Sem.raise, Act.data, Act.place, units]
      omega
    | test | sleep | wake | done _ =>
      exact h.put h.fields (by rw [hp]; rfl) (by simp [Act.place])

/-- **Run.** -/
theorem SemOK.run {N : Int} (hN : 1 ≤ N) {addr : ι → Nat}
    {s : State ι Nat (SemPc × Nat) Nat Sem} {es : List (Monitor.Event ι (SemPc × Nat))}
    (hrun : (system (semProgram addr paired)).Run (initial (semInit N) 0) es s) :
    SemOK N s.view := by
  obtain ⟨ps, hps⟩ := refines_atomic hrun
  refine hps.invariant (I := SemOK N) (fun _ _ _ h hs => h.step hs) ?_
  exact ⟨semInit_ok hN, by simp [State.view, initial, Loc.place, units, semInit],
    fun p n hp => by simp [State.view, initial, Loc.place] at hp⟩

/-- The processes that have a unit: each is between a completed `sem_down` and
its `sem_up`, or inside a call that has the lock. -/
def inside (s : State ι Nat (SemPc × Nat) Nat Sem) : Finset ι :=
  Finset.univ.filter fun p => 0 < units (s.loc p).place

omit [DecidableEq ι] in
theorem card_inside_le (s : State ι Nat (SemPc × Nat) Nat Sem) :
    (inside s).card ≤ ∑ p, units (s.loc p).place := by
  rw [inside, Finset.card_filter]
  refine Finset.sum_le_sum fun p _ => ?_
  split <;> omega

omit [DecidableEq ι] in
/-- Without a second unit for anybody, units are processes. -/
theorem card_inside_eq {s : State ι Nat (SemPc × Nat) Nat Sem}
    (hone : ∀ p, units (s.loc p).place ≤ 1) :
    (inside s).card = ∑ p, units (s.loc p).place := by
  rw [inside, Finset.card_filter]
  refine Finset.sum_congr rfl fun p _ => ?_
  have := hone p
  split <;> omega

/-- **The semaphore counts.** In every state reached, value and units taken
make up the initial value, which bounds both; `locked` says that the value is
0, `isactive` that it is not the initial one. So at most `N` processes have a
unit, and exactly `N - value` of them if nobody has two. Every `sem_down` has given its
process a unit, and every `sem_up` has taken one. -/
theorem sem_counts {N : Int} (hN : 1 ≤ N) {addr : ι → Nat}
    {s : State ι Nat (SemPc × Nat) Nat Sem} {es : List (Monitor.Event ι (SemPc × Nat))}
    (hrun : (system (semProgram addr paired)).Run (initial (semInit N) 0) es s) :
    s.data.value + ((∑ p, units (s.loc p).place : Nat) : Int) = N ∧
    0 ≤ s.data.value ∧ s.data.value ≤ N ∧
    (s.data.locked = 1 ↔ s.data.value = 0) ∧ (s.data.isactive = 1 ↔ s.data.value ≠ N) ∧
    ((inside s).card : Int) ≤ N ∧
    ((∀ p, units (s.loc p).place ≤ 1) → s.data.value + ((inside s).card : Int) = N) ∧
    ∀ p, ∀ c ∈ (records (semProgram addr paired) (semInit N) 0 es p).calls, Back c := by
  have h := SemOK.run hN hrun
  have htotal : s.data.value + ((∑ p, units (s.loc p).place : Nat) : Int) = N := h.total
  have hle := card_inside_le s
  have hnonneg : 0 ≤ s.data.value := h.fields.nonneg
  have hlocked : s.data.locked = if s.data.value = 0 then 1 else 0 := h.fields.locked
  have hactive : s.data.isactive = if s.data.value = N then 0 else 1 := h.fields.isactive
  refine ⟨htotal, hnonneg, h.fields.le, ?_, ?_, by omega, fun hone => ?_,
    units_back hrun⟩
  · rw [hlocked]
    split <;> simp_all
  · rw [hactive]
    split <;> simp_all
  · rw [card_inside_eq hone]
    exact htotal

end Counting

/-- Process 0 takes the only unit; process 1 finds the semaphore locked and
goes to sleep; process 0 gives the unit back. -/
def takeAndSleep : List (Monitor.Event (Fin 2) (SemPc × Nat)) :=
  [.enter 0 (.downTest, 0), .proc 0, .proc 0, .proc 0,
    .enter 1 (.downTest, 0), .proc 1, .proc 1, .proc 1, .proc 1, .proc 1, .proc 1, .proc 1, .drop,
    .enter 0 (.upRaise, 1), .proc 0, .proc 0, .proc 0, .proc 0, .proc 0, .proc 0, .proc 0]

theorem sem_counts_takeAndSleep : ∃ s : State (Fin 2) Nat (SemPc × Nat) Nat Sem,
    takeAndSleep.foldlM (next (semProgram (fun _ => 0x7ffff000) paired)) (initial (semInit 1) 0)
      = some s ∧ s.data.value + ((inside s).card : Int) = 1 := by
  refine ⟨_, rfl, ?_⟩
  have hrun : (system (semProgram (fun _ => 0x7ffff000) paired)).Run (initial (semInit 1) 0)
    takeAndSleep _ := run_of_foldlM rfl
  exact (sem_counts (by decide) hrun).2.2.2.2.2.2.1 (by decide)

end Xv6
