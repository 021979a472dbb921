import Xv6.Kernel.Proc
import Xv6.Library.Transition

/-!
# The process table: `fork`, `exit`, `wait` and `kill`

The fields of `struct proc` that tell who exists, whose child it is and who is
to die. A step is what one process does under one hold of `ptable.lock`, or one
of the writes `fork` makes without it: the parent pointer of the child, and the
state of a slot that is given back. So every state of a run is one with the lock
free, and between two steps of a call the other processes make theirs. `fork` may
also end in `manage_fork`, which calls `exit` for the parent when a shared page has
16 users; the child is then left as an EMBRYO.

`sleep` and `wakeup` on other channels, `yield` and the scheduler run beside.
-/

namespace Xv6.Ptable

open Transition

/-! ## §1  The table -/

/-- What a process sleeps on: a `struct proc`, as in `wait`, or something else. -/
inductive Chan where
  | proc (p : Fin nproc)
  | other (a : Nat)
deriving DecidableEq

/-- `struct proc`. -/
structure Slot where
  state : ProcState
  pid : Int32
  parent : Option (Fin nproc)
  chan : Option Chan
  killed : Bool
deriving DecidableEq

/-- How far `fork` is with the slot it has from `allocproc`. -/
inductive Stage where
  | kstack    -- `kalloc()` for the kernel stack
  | copyuvm
  | ready     -- the parent is set, the state is not
deriving DecidableEq

/-- Where a process is. -/
inductive Place where
  | outside
  | fork (np : Fin nproc) (g : Stage)
  | wait    -- in the loop of `wait`, asleep or woken
  | exiting -- in the `exit` of `manage_fork`, before it takes the lock
deriving DecidableEq

structure State where
  slot : Fin nproc → Slot
  initproc : Fin nproc
  nextpid : Int32
  place : Fin nproc → Place

namespace State

def set (s : State) (p : Fin nproc) (q : Slot) : State :=
  { s with slot := Function.update s.slot p q }

def go (s : State) (p : Fin nproc) (a : Place) : State :=
  { s with place := Function.update s.place p a }

def setState (s : State) (p : Fin nproc) (st : ProcState) : State :=
  s.set p { s.slot p with state := st }

end State

/-! ## §2  The functions -/

/-- `wakeup1`. -/
def wakeup1 (c : Option Chan) (s : State) : State :=
  { s with slot := fun p =>
      if (s.slot p).state = .sleeping ∧ (s.slot p).chan = c then
        { s.slot p with state := .runnable }
      else s.slot p }

/-- `allocproc` under the lock: the slot and its pid, or none. -/
def allocproc (s : State) : Option (Fin nproc) × State :=
  match (List.finRange nproc).find? fun p => (s.slot p).state = .unused with
  | none => (none, s)
  | some p =>
    (some p, { s.set p { s.slot p with state := .embryo, pid := s.nextpid } with
      nextpid := s.nextpid + 1 })

/-- One round of the loop in `exit` that passes children to `initproc`. -/
def adopt (cur : Fin nproc) (s : State) (p : Fin nproc) : State :=
  if (s.slot p).parent = some cur then
    let s := s.set p { s.slot p with parent := some s.initproc }
    if (s.slot p).state = .zombie then wakeup1 (some (.proc s.initproc)) s else s
  else s

/-- `exit` from `acquire(&ptable.lock)` on. -/
def exit (cur : Fin nproc) (s : State) : State :=
  let s := wakeup1 ((s.slot cur).parent.map .proc) s
  let s := (List.finRange nproc).foldl (adopt cur) s
  s.setState cur .zombie

inductive WaitResult where
  | reaped (p : Fin nproc) (pid : Int32)
  | failed
  | sleeps
deriving DecidableEq

/-- `wait` from the head of its loop on. -/
def wait (cur : Fin nproc) (s : State) : WaitResult × State :=
  match (List.finRange nproc).find? fun p =>
      (s.slot p).parent = some cur ∧ (s.slot p).state = .zombie with
  | some p =>
    (.reaped p (s.slot p).pid,
      (s.set p { s.slot p with pid := 0, parent := none, killed := false, state := .unused }).go
        cur .outside)
  | none =>
    let havekids := (List.finRange nproc).any fun p => (s.slot p).parent = some cur
    if !havekids || (s.slot cur).killed then (.failed, s.go cur .outside)
    else (.sleeps, (s.set cur { s.slot cur with
      chan := some (.proc cur), state := .sleeping }).go cur .wait)

/-- The first slot with the pid, whatever its state. -/
def findPid (s : State) (pid : Int32) : Option (Fin nproc) :=
  (List.finRange nproc).find? fun p => (s.slot p).pid = pid

/-- `kill`: 0 or -1. -/
def kill (pid : Int32) (s : State) : Int × State :=
  match findPid s pid with
  | some p =>
    (0, s.set p { s.slot p with
      killed := true
      state := if (s.slot p).state = .sleeping then .runnable else (s.slot p).state })
  | none => (-1, s)

/-! ## §3  The machine -/

/-- Results stand with the calls. -/
inductive Event where
  | alloc (p : Fin nproc) (r : Option (Fin nproc))    -- `fork` begins
  | kstack (p : Fin nproc) (ok : Bool)
  | copyuvm (p : Fin nproc) (ok : Bool)
  | ready (p np : Fin nproc)                          -- `fork` returns
  | giveUp (p np : Fin nproc)                         -- `manage_fork` calls `exit`
  | exit (p : Fin nproc)
  | wait (p : Fin nproc) (r : WaitResult)
  | kill (p : Fin nproc) (pid : Int32) (r : Int)
  | sched (p : Fin nproc)
  | yield (p : Fin nproc)
  | sleep (p : Fin nproc) (a : Nat)
  | wakeup (p : Fin nproc) (a : Nat)

/-- Process `p` executes its own code, at place `a`. -/
def State.runs (s : State) (p : Fin nproc) (a : Place) : Prop :=
  (s.slot p).state = .running ∧ s.place p = a

instance (s : State) (p : Fin nproc) (a : Place) : Decidable (s.runs p a) :=
  inferInstanceAs (Decidable (_ ∧ _))

/-- Process `p` runs and may be in an `exit` that `manage_fork` has called. -/
def State.free (s : State) (p : Fin nproc) : Prop :=
  (s.slot p).state = .running ∧ (s.place p = .outside ∨ s.place p = .exiting)

instance (s : State) (p : Fin nproc) : Decidable (s.free p) :=
  inferInstanceAs (Decidable (_ ∧ _))

def next (s : State) : Event → Option State
  | .alloc p r =>
    if s.runs p .outside ∧ (allocproc s).1 = r then
      match r with
      | some np => some ((allocproc s).2.go p (.fork np .kstack))
      | none => some s
    else none
  | .kstack p ok =>
    match s.place p with
    | .fork np .kstack =>
      if (s.slot p).state = .running then
        if ok then some (s.go p (.fork np .copyuvm))
        else some ((s.setState np .unused).go p .outside)
      else none
    | _ => none
  | .copyuvm p ok =>
    match s.place p with
    | .fork np .copyuvm =>
      if (s.slot p).state = .running then
        if ok then some ((s.set np { s.slot np with parent := some p }).go p (.fork np .ready))
        else some ((s.setState np .unused).go p .outside)
      else none
    | _ => none
  | .ready p np =>
    if s.runs p (.fork np .ready) then
      some (((s.setState np .runnable).go np .outside).go p .outside)
    else none
  | .giveUp p np =>
    -- `initproc` panics
    if s.runs p (.fork np .ready) ∧ p ≠ s.initproc then some (s.go p .exiting) else none
  | .exit p => if s.free p ∧ p ≠ s.initproc then some (exit p s) else none
  | .wait p r =>
    if (s.runs p .outside ∨ s.runs p .wait) ∧ (wait p s).1 = r then some (wait p s).2 else none
  | .kill p pid r =>
    if s.runs p .outside ∧ (kill pid s).1 = r then some (kill pid s).2 else none
  | .sched p =>
    if (s.slot p).state = .runnable then
      some (s.set p { s.slot p with state := .running, chan := none })
    else none
  | .yield p =>
    if (s.slot p).state = .running then some (s.setState p .runnable) else none
  | .sleep p a =>
    if s.free p then
      some (s.set p { s.slot p with state := .sleeping, chan := some (.other a) })
    else none
  | .wakeup p a => if s.free p then some (wakeup1 (some (.other a)) s) else none

def system : System State Event := .ofNext next

/-- After `userinit`: `initproc` is there and nobody else, and no field of another
slot has ever been written. -/
structure Boot (s : State) : Prop where
  init : s.slot s.initproc = ⟨.runnable, 1, none, none, false⟩
  others : ∀ p, p ≠ s.initproc → s.slot p = ⟨.unused, 0, none, none, false⟩
  nextpid : s.nextpid = 2
  place : ∀ p, s.place p = .outside

/-! ## §4  What a step can be -/

inductive Step (s : State) : Event → State → Prop where
  | full {p} : s.runs p .outside → Step s (.alloc p none) s
  | alloc {p np} : s.runs p .outside → (s.slot np).state = .unused →
      Step s (.alloc p (some np))
        ({ s.set np { s.slot np with state := .embryo, pid := s.nextpid } with
          nextpid := s.nextpid + 1 }.go p (.fork np .kstack))
  | kstack {p np} : s.runs p (.fork np .kstack) →
      Step s (.kstack p true) (s.go p (.fork np .copyuvm))
  | kstackFails {p np} : s.runs p (.fork np .kstack) →
      Step s (.kstack p false) ((s.setState np .unused).go p .outside)
  | copyuvm {p np} : s.runs p (.fork np .copyuvm) →
      Step s (.copyuvm p true)
        ((s.set np { s.slot np with parent := some p }).go p (.fork np .ready))
  | copyuvmFails {p np} : s.runs p (.fork np .copyuvm) →
      Step s (.copyuvm p false) ((s.setState np .unused).go p .outside)
  | ready {p np} : s.runs p (.fork np .ready) →
      Step s (.ready p np) (((s.setState np .runnable).go np .outside).go p .outside)
  | giveUp {p np} : s.runs p (.fork np .ready) → Step s (.giveUp p np) (s.go p .exiting)
  | exit {p} : s.free p → p ≠ s.initproc → Step s (.exit p) (exit p s)
  | reap {p q} : (s.slot p).state = .running → (s.slot q).parent = some p →
      (s.slot q).state = .zombie →
      Step s (.wait p (.reaped q (s.slot q).pid))
        ((s.set q { s.slot q with
          pid := 0, parent := none, killed := false, state := .unused }).go p .outside)
  | waitFails {p} : (s.slot p).state = .running → Step s (.wait p .failed) (s.go p .outside)
  | waitSleeps {p} : (s.slot p).state = .running →
      (∀ q, (s.slot q).parent = some p → (s.slot q).state ≠ .zombie) →
      Step s (.wait p .sleeps)
        ((s.set p { s.slot p with chan := some (.proc p), state := .sleeping }).go p .wait)
  | kill {p pid} : s.runs p .outside → Step s (.kill p pid (kill pid s).1) (kill pid s).2
  | sched {p} : (s.slot p).state = .runnable →
      Step s (.sched p) (s.set p { s.slot p with state := .running, chan := none })
  | yield {p} : (s.slot p).state = .running → Step s (.yield p) (s.setState p .runnable)
  | sleep {p a} : s.free p →
      Step s (.sleep p a) (s.set p { s.slot p with state := .sleeping, chan := some (.other a) })
  | wakeup {p a} : s.free p → Step s (.wakeup p a) (wakeup1 (some (.other a)) s)

/-- The outcomes of `wait`. -/
theorem step_wait {s : State} {p : Fin nproc} (hp : (s.slot p).state = .running) :
    Step s (.wait p (wait p s).1) (wait p s).2 := by
  unfold wait
  split
  · rename_i q hq
    have hfound := List.find?_some hq
    rw [decide_eq_true_eq] at hfound
    exact .reap hp hfound.1 hfound.2
  · rename_i hnone
    rw [List.find?_eq_none] at hnone
    simp only
    split
    · exact .waitFails hp
    · refine .waitSleeps hp fun q hq hz => ?_
      exact hnone q (List.mem_finRange q) (decide_eq_true ⟨hq, hz⟩)

theorem step_of_next {s s' : State} {e : Event} (h : next s e = some s') : Step s e s' := by
  cases e with
  | alloc p r =>
    obtain ⟨⟨hp, rfl⟩, h⟩ := Option.ite_none_right_eq_some.mp h
    cases hfind : (List.finRange nproc).find? fun p => (s.slot p).state = .unused with
    | none =>
      have halloc : allocproc s = (none, s) := by
        rw [allocproc, hfind]
      rw [halloc] at h ⊢
      cases h
      exact .full hp
    | some np =>
      have halloc : allocproc s = (some np,
          { s.set np { s.slot np with state := .embryo, pid := s.nextpid } with
            nextpid := s.nextpid + 1 }) := by
        rw [allocproc, hfind]
      rw [halloc] at h ⊢
      cases h
      have hfree := List.find?_some hfind
      exact .alloc hp (of_decide_eq_true hfree)
  | kstack p ok =>
    simp only [next] at h
    split at h
    · rename_i np hplace
      obtain ⟨hp, h⟩ := Option.ite_none_right_eq_some.mp h
      cases ok <;> cases h
      · exact .kstackFails ⟨hp, hplace⟩
      · exact .kstack ⟨hp, hplace⟩
    · cases h
  | copyuvm p ok =>
    simp only [next] at h
    split at h
    · rename_i np hplace
      obtain ⟨hp, h⟩ := Option.ite_none_right_eq_some.mp h
      cases ok <;> cases h
      · exact .copyuvmFails ⟨hp, hplace⟩
      · exact .copyuvm ⟨hp, hplace⟩
    · cases h
  | ready p np =>
    obtain ⟨hp, ⟨⟩⟩ := Option.ite_none_right_eq_some.mp h
    exact .ready hp
  | giveUp p np =>
    obtain ⟨hp, ⟨⟩⟩ := Option.ite_none_right_eq_some.mp h
    exact .giveUp hp.1
  | exit p =>
    obtain ⟨hp, ⟨⟩⟩ := Option.ite_none_right_eq_some.mp h
    exact .exit hp.1 hp.2
  | wait p r =>
    obtain ⟨⟨hp, rfl⟩, ⟨⟩⟩ := Option.ite_none_right_eq_some.mp h
    exact step_wait (hp.elim And.left And.left)
  | kill p pid r =>
    obtain ⟨⟨hp, rfl⟩, ⟨⟩⟩ := Option.ite_none_right_eq_some.mp h
    exact .kill hp
  | sched p =>
    obtain ⟨hp, ⟨⟩⟩ := Option.ite_none_right_eq_some.mp h
    exact .sched hp
  | yield p =>
    obtain ⟨hp, ⟨⟩⟩ := Option.ite_none_right_eq_some.mp h
    exact .yield hp
  | sleep p a =>
    obtain ⟨hp, ⟨⟩⟩ := Option.ite_none_right_eq_some.mp h
    exact .sleep hp
  | wakeup p a =>
    obtain ⟨hp, ⟨⟩⟩ := Option.ite_none_right_eq_some.mp h
    exact .wakeup hp

end Xv6.Ptable
