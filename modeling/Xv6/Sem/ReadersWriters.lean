import Xv6.Sem.Semaphore

/-!
# Readers and writers

The protocol of the test programs. A writer loops while one of the semaphores
is active and then takes `writers`; a reader loops while `writers` is active and
then takes `readers`. Test and `sem_down` are separate calls, and what was
tested need not hold any more when the unit is taken.

The machine makes one move of one call at a time. Seen from one semaphore it
does what `semProgram` does (`rw_simulates`), so the counting invariant of the
semaphores carries over.
-/

namespace Xv6

open Monitor Transition Function

/-! ## §1  The protocol -/

/-- `isActive` -/
def isActive (sem : Sem) : Bool := sem.isactive = 1

/-- The role a process plays, and the semaphore of that role. -/
inductive RwRole where
  | writer
  | reader
deriving DecidableEq

/-- Where a process is. -/
inductive RwPc where
  | rest
  | testWriters                      -- `while (isActive(writers) || ..`
  | testReaders                      -- `.. || isActive(readers))`
  | readTest                         -- `while (isActive(writers))`
  | call (r : RwRole) (l : SemPc)    -- inside `sem_down` or `sem_up`
  | crit (r : RwRole)
deriving DecidableEq

/-- The units a process has of the semaphore whose code it is in. -/
def SemPc.units : SemPc → Nat
  | .downDone | .upRaise => 1
  | .downTest | .downLoop | .upWake | .upDone => 0

structure RwState (ι : Type*) where
  sem : RwRole → Sem
  pc : ι → RwPc

inductive RwEvent (ι : Type*) where
  | write (p : ι)
  | read (p : ι)
  | step (p : ι)

section Machine

variable {ι : Type*} [DecidableEq ι]

def RwState.move (s : RwState ι) (p : ι) (pc : RwPc) : RwState ι :=
  { s with pc := update s.pc p pc }

/-- The next move of a process. `sleep` and `wakeup` are no more than a change
of label: a sleeper may look again at any time. -/
def rwStep (s : RwState ι) (p : ι) : Option (RwState ι) :=
  match s.pc p with
  | .rest => none
  | .testWriters =>
    some (s.move p (if isActive (s.sem .writer) then .testWriters else .testReaders))
  | .testReaders =>
    some (s.move p (if isActive (s.sem .reader) then .testWriters else .call .writer .downTest))
  | .readTest =>
    some (s.move p (if isActive (s.sem .writer) then .readTest else .call .reader .downTest))
  | .call r l =>
    match (semProgram (fun _ => 0) paired).act p (l, l.units) (s.sem r) with
    | .go l' sem => some ({ s with sem := update s.sem r sem }.move p (.call r l'.1))
    | .sleep _ l' | .wakeup _ l' => some (s.move p (.call r l'.1))
    | .leave _ => some (s.move p (if l = .downDone then .crit r else .rest))
  | .crit r => some (s.move p (.call r .upRaise))

def rwNext (s : RwState ι) : RwEvent ι → Option (RwState ι)
  | .write p => if s.pc p = .rest then some (s.move p .testWriters) else none
  | .read p => if s.pc p = .rest then some (s.move p .readTest) else none
  | .step p => rwStep s p

def rwSystem (ι : Type*) [DecidableEq ι] : System (RwState ι) (RwEvent ι) := .ofNext rwNext

/-- `sem_init(writers, 1)`, `sem_init(readers, N)`. -/
def rwInitial (ι : Type*) (N : Int) : RwState ι where
  sem
    | .writer => semInit 1
    | .reader => semInit N
  pc _ := .rest

/-- A writer in its critical section is alone. -/
def RwState.Exclusive (s : RwState ι) : Prop :=
  ∀ p, s.pc p = .crit .writer → ∀ q, q ≠ p → ∀ r, s.pc q ≠ .crit r

/-- The condition a process of role `r` has tested. -/
def RwState.Clear (s : RwState ι) : RwRole → Prop
  | .writer => isActive (s.sem .writer) = false ∧ isActive (s.sem .reader) = false
  | .reader => isActive (s.sem .writer) = false

instance (s : RwState ι) (r : RwRole) : Decidable (s.Clear r) := by
  cases r <;> unfold RwState.Clear <;> infer_instance

/-- When `sem_down` takes its unit, what the process has tested still holds. -/
def Rechecked (s : RwState ι) : RwEvent ι → Prop
  | .step p => ∀ r, s.pc p = .call r .downTest ∨ s.pc p = .call r .downLoop →
      (s.sem r).locked = 0 → s.Clear r
  | _ => True

/-! ## §2  What one semaphore sees -/

def RwPc.place (r : RwRole) : RwPc → Place (SemPc × Nat) Nat
  | .call r' l => if r' = r then .inside (l, l.units) else .out 0
  | .crit r' => if r' = r then .out 1 else .out 0
  | _ => .out 0

def RwState.view (r : RwRole) (s : RwState ι) : Atomic ι (SemPc × Nat) Nat Sem :=
  ⟨s.sem r, fun p => (s.pc p).place r⟩

theorem rwView_move (s : RwState ι) (r : RwRole) (p : ι) (pc : RwPc) :
    (s.move p pc).view r = (s.view r).put p (pc.place r) := by
  have hplace : (fun q => (update s.pc p pc q).place r) =
      update (fun q => (s.pc q).place r) p (pc.place r) := by
    funext q
    by_cases hq : q = p
    · rw [hq, update_self, update_self]
    · rw [update_of_ne hq, update_of_ne hq]
  exact congrArg (Atomic.mk (s.sem r)) hplace

variable {s s' : RwState ι}

/-- A process that is where it was, seen from the semaphore. -/
theorem rwView_same {r : RwRole} {p : ι} {pc : RwPc} (h : pc.place r = (s.pc p).place r) :
    (s.move p pc).view r = s.view r := by
  rw [rwView_move, h]
  exact congrArg (Atomic.mk (s.sem r)) (update_eq_self p _)

omit [DecidableEq ι] in
/-- The labels `act` leads to have the units that belong to them, and only
`sem_down` adds one. -/
theorem act_units {p : ι} {l : SemPc} {sem : Sem} {l' : SemPc × Nat}
    (h : (∃ sem', (semProgram (fun _ : ι => 0) paired).act p (l, l.units) sem = .go l' sem') ∨
      (∃ c, (semProgram (fun _ : ι => 0) paired).act p (l, l.units) sem = .sleep c l') ∨
      ∃ c, (semProgram (fun _ : ι => 0) paired).act p (l, l.units) sem = .wakeup c l') :
    l' = (l'.1, l'.1.units) ∧
      (l'.1.units ≤ l.units ∨ (l = .downTest ∨ l = .downLoop) ∧ sem.locked = 0) := by
  cases l with
  | downTest | downLoop =>
    simp only [semProgram, SemPc.units] at h
    split at h <;> rename_i hlocked <;> rcases h with ⟨_, h⟩ | ⟨_, h⟩ | ⟨_, h⟩ <;> cases h <;>
      exact ⟨rfl, by simp_all [SemPc.units]⟩
  | downDone | upRaise | upWake | upDone =>
    rcases h with ⟨_, h⟩ | ⟨_, h⟩ | ⟨_, h⟩ <;> cases h <;> exact ⟨rfl, .inl (by decide)⟩

omit [DecidableEq ι] in
/-- A call ends with a unit if it was `sem_down`, and without one if not. -/
theorem act_leave {p : ι} {l : SemPc} {sem : Sem} {n : Nat}
    (h : (semProgram (fun _ : ι => 0) paired).act p (l, l.units) sem = .leave n) :
    n = if l = .downDone then 1 else 0 := by
  cases l with
  | downTest | downLoop =>
    simp only [semProgram] at h
    split at h <;> cases h
  | downDone | upDone =>
    cases h
    rfl
  | upRaise | upWake => cases h

/-- **Each semaphore sees calls of `sem_down` and `sem_up`**, each `sem_up` after a
`sem_down` of the same process. -/
theorem rw_simulates {e : RwEvent ι} (h : rwNext s e = some s') (r : RwRole) :
    s'.view r = s.view r ∨
      ∃ p, (atomic (semProgram (fun _ => 0) paired)).step (s.view r) p (s'.view r) := by
  cases e with
  | write p | read p =>
    rw [rwNext] at h
    split at h <;> cases h
    rename_i hpc
    exact .inl (rwView_same (by rw [hpc]; rfl))
  | step p =>
    rw [rwNext, rwStep] at h
    split at h
    · cases h
    · rename_i hpc
      cases h
      refine .inl (rwView_same ?_)
      rw [hpc]
      split <;> rfl
    · -- the call of `sem_down(writers)`
      rename_i hpc
      cases h
      split
      · exact .inl (rwView_same (by rw [hpc]; rfl))
      · cases r with
        | writer =>
          refine .inr ⟨p, ?_⟩
          rw [rwView_move]
          simp only [atomic, RwState.view, hpc, RwPc.place]
          exact ⟨_, rfl, rfl⟩
        | reader => exact .inl (rwView_same (by rw [hpc]; rfl))
    · rename_i hpc
      cases h
      split
      · exact .inl (rwView_same (by rw [hpc]))
      · cases r with
        | reader =>
          refine .inr ⟨p, ?_⟩
          rw [rwView_move]
          simp only [atomic, RwState.view, hpc, RwPc.place]
          exact ⟨_, rfl, rfl⟩
        | writer => exact .inl (rwView_same (by rw [hpc]; rfl))
    · rename_i r' l hpc
      by_cases hr : r' = r
      · -- a move inside the semaphore's own code
        subst hr
        refine .inr ⟨p, ?_⟩
        have hplace : (s.view r').place p = .inside (l, l.units) := by
          simp only [RwState.view, hpc, RwPc.place, if_true]
        have hdata : (s.view r').data = s.sem r' := rfl
        simp only [atomic, hplace, hdata]
        split at h <;> rename_i hact <;> cases h <;> rw [rwView_move, hact] <;> simp only
        · rw [RwPc.place, if_pos rfl, ← (act_units (.inl ⟨_, hact⟩)).1]
          simp only [RwState.view, update_self]
        · rw [RwPc.place, if_pos rfl, ← (act_units (.inr (.inl ⟨_, hact⟩))).1]
        · rw [RwPc.place, if_pos rfl, ← (act_units (.inr (.inr ⟨_, hact⟩))).1]
        · rw [act_leave hact]
          split <;> simp only [RwPc.place, if_true]
      · -- a move inside the other one's
        have hout : (s.pc p).place r = .out 0 := by rw [hpc, RwPc.place, if_neg hr]
        refine .inl ?_
        split at h <;> cases h
        · rw [rwView_move, RwPc.place, if_neg hr, ← hout]
          simp only [RwState.view, update_of_ne (Ne.symm hr)]
          exact congrArg (Atomic.mk _) (update_eq_self p _)
        · exact rwView_same (by rw [hout, RwPc.place, if_neg hr])
        · exact rwView_same (by rw [hout, RwPc.place, if_neg hr])
        · refine rwView_same ?_
          rw [hout]
          split <;> simp only [RwPc.place, if_neg hr]
    · rename_i r' hpc
      cases h
      by_cases hr : r' = r
      · subst hr
        refine .inr ⟨p, ?_⟩
        rw [rwView_move]
        simp only [atomic, RwState.view, hpc, RwPc.place, if_true]
        exact ⟨_, rfl, rfl⟩
      · exact .inl (rwView_same (by rw [hpc, RwPc.place, RwPc.place, if_neg hr, if_neg hr]))

/-! ## §3  Exclusion -/

variable [Fintype ι]

/-- Both semaphores count, and nobody has a unit of `readers` while somebody has
the one of `writers`. -/
structure RwOK (N : Int) (s : RwState ι) : Prop where
  writers : SemOK 1 (s.view .writer)
  readers : SemOK N (s.view .reader)
  apart : ∀ p q, 0 < units ((s.view .writer).place p) → units ((s.view .reader).place q) = 0

omit [DecidableEq ι] in
/-- A semaphore that is not active has all its units. -/
theorem units_of_not_active {N : Int} {r : RwRole} (h : SemOK N (s.view r))
    (hidle : isActive (s.sem r) = false) (p : ι) : units ((s.view r).place p) = 0 := by
  have hactive := h.fields.isactive
  have hvalue : (s.view r).data.value = N := by
    by_contra hne
    rw [if_neg hne] at hactive
    rw [isActive, decide_eq_false_iff_not] at hidle
    exact hidle hactive
  have htotal := h.total
  have hle := Tally.le_sum (f := fun q => units ((s.view r).place q)) (Finset.mem_univ p)
  change units ((s.view r).place p) ≤ _ at hle
  omega

omit [Fintype ι] in
/-- One process moves, and only a `sem_down` adds to its units. -/
theorem rwNext_units {e : RwEvent ι} (h : rwNext s e = some s') :
    ∃ p pc, s'.pc = update s.pc p pc ∧
      ∀ r, units (pc.place r) ≤ units ((s.pc p).place r) ∨
        e = .step p ∧ (s.pc p = .call r .downTest ∨ s.pc p = .call r .downLoop) ∧
          (s.sem r).locked = 0 := by
  cases e with
  | write p | read p =>
    rw [rwNext] at h
    split at h <;> cases h
    exact ⟨p, _, rfl, fun r => .inl (Nat.zero_le _)⟩
  | step p =>
    rw [rwNext, rwStep] at h
    split at h
    · cases h
    · cases h
      refine ⟨p, _, rfl, fun r => .inl ?_⟩
      split <;> exact Nat.zero_le _
    · cases h
      refine ⟨p, _, rfl, fun r => .inl ?_⟩
      split <;> cases r <;> exact Nat.zero_le _
    · cases h
      refine ⟨p, _, rfl, fun r => .inl ?_⟩
      split <;> cases r <;> exact Nat.zero_le _
    · rename_i r' l hpc
      have hcall : ∀ {l' : SemPc},
          (l'.units ≤ l.units ∨ (l = .downTest ∨ l = .downLoop) ∧ (s.sem r').locked = 0) →
          ∀ r, units ((RwPc.call r' l').place r) ≤ units ((s.pc p).place r) ∨
            RwEvent.step p = .step p ∧
              (s.pc p = .call r .downTest ∨ s.pc p = .call r .downLoop) ∧
              (s.sem r).locked = 0 := by
        intro l' hl r
        rw [hpc]
        by_cases hr : r' = r
        · subst hr
          rcases hl with hle | ⟨hdown, hfree⟩
          · refine .inl ?_
            rw [RwPc.place, RwPc.place, if_pos rfl, if_pos rfl]
            exact hle
          · exact .inr ⟨rfl, hdown.imp (congrArg _) (congrArg _), hfree⟩
        · rw [RwPc.place, if_neg hr]
          exact .inl (Nat.zero_le _)
      split at h <;> rename_i hact <;> cases h
      · exact ⟨p, _, rfl, hcall (act_units (.inl ⟨_, hact⟩)).2⟩
      · exact ⟨p, _, rfl, hcall (act_units (.inr (.inl ⟨_, hact⟩))).2⟩
      · exact ⟨p, _, rfl, hcall (act_units (.inr (.inr ⟨_, hact⟩))).2⟩
      · refine ⟨p, _, rfl, fun r => .inl ?_⟩
        split
        · rename_i hl
          rw [hpc, hl, RwPc.place, RwPc.place]
          split <;> exact Nat.le_refl _
        · exact Nat.zero_le _
    · rename_i r' hpc
      cases h
      refine ⟨p, _, rfl, fun r => .inl ?_⟩
      rw [hpc, RwPc.place, RwPc.place]
      split <;> exact Nat.le_refl _

/-- Nobody has units of both. -/
theorem units_one_role (pc : RwPc) :
    units (pc.place .writer) = 0 ∨ units (pc.place .reader) = 0 := by
  rcases pc with _ | _ | _ | _ | ⟨r, l⟩ | r
  case call => cases r <;> simp [RwPc.place, units]
  case crit => cases r <;> simp [RwPc.place, units]
  all_goals exact .inl rfl

/-- **Step.** -/
theorem RwOK.step {N : Int} {e : RwEvent ι} (h : RwOK N s) (hg : Rechecked s e)
    (hnext : rwNext s e = some s') : RwOK N s' := by
  have hsem : ∀ {M : Int} {r : RwRole}, SemOK M (s.view r) → SemOK M (s'.view r) := by
    intro M r hok
    rcases rw_simulates hnext r with heq | ⟨p, hstep⟩
    · rwa [heq]
    · exact hok.step hstep
  obtain ⟨p₀, pc, hpc, hunits⟩ := rwNext_units hnext
  -- who has more units than before is the process that moved, and its way was clear
  have hmore : ∀ p r, units ((s'.view r).place p) ≤ units ((s.view r).place p) ∨
      p = p₀ ∧ s.Clear r := by
    intro p r
    change units ((s'.pc p).place r) ≤ units ((s.pc p).place r) ∨ _
    rw [hpc]
    by_cases hp : p = p₀
    · rw [hp, update_self]
      refine (hunits r).imp_right fun ⟨he, hdown, hfree⟩ => ?_
      subst he
      exact ⟨rfl, hg r hdown hfree⟩
    · rw [update_of_ne hp]
      exact .inl (Nat.le_refl _)
  refine ⟨hsem h.writers, hsem h.readers, fun p q hp => ?_⟩
  by_cases hpq : p = q
  · subst hpq
    exact (units_one_role (s'.pc p)).resolve_left (Nat.ne_of_gt hp)
  rcases hmore p .writer with hold | ⟨rfl, hclear⟩
  · have hw : 0 < units ((s.view .writer).place p) := Nat.lt_of_lt_of_le hp hold
    rcases hmore q .reader with hle | ⟨-, hclear⟩
    · have := h.apart p q hw
      omega
    · rw [units_of_not_active h.writers hclear p] at hw
      exact absurd hw (Nat.lt_irrefl 0)
  · have hr := units_of_not_active h.readers hclear.2 q
    rcases hmore q .reader with hle | ⟨rfl, -⟩
    · omega
    · exact absurd rfl hpq

omit [DecidableEq ι] in
/-- A writer in its critical section has the only unit of `writers`. -/
theorem RwOK.exclusive {N : Int} (h : RwOK N s) : s.Exclusive := by
  intro p hp q hqp r hq
  have hplace : ∀ {x : ι} {r : RwRole}, s.pc x = .crit r → units ((s.view r).place x) = 1 := by
    intro x r hx
    simp only [RwState.view, hx, RwPc.place, if_true, units]
  have hone := hplace hp
  cases r with
  | reader =>
    have hzero := h.apart p q (by omega)
    rw [hplace hq] at hzero
    exact absurd hzero (by decide)
  | writer =>
    have htotal := h.writers.total
    have hnonneg := h.writers.fields.nonneg
    have htwo := Finset.add_le_sum (f := fun x => units ((s.view .writer).place x))
      (fun _ _ => Nat.zero_le _) (Finset.mem_univ p) (Finset.mem_univ q) (Ne.symm hqp)
    change units ((s.view .writer).place p) + units ((s.view .writer).place q) ≤ _ at htwo
    rw [hone, hplace hq] at htwo
    omega

/-- **A writer is alone** in every run in which no `sem_down` takes its unit
after what the process has tested ceased to hold: no other process is then in a
critical section of either kind. -/
theorem rw_exclusive {N : Int} (hN : 1 ≤ N) {es : List (RwEvent ι)} {s : RwState ι}
    (hrun : ((rwSystem ι).guarded Rechecked).Run (rwInitial ι N) es s) : s.Exclusive := by
  have hinit : RwOK N (rwInitial ι N) := by
    refine ⟨⟨semInit_ok (Int.le_refl 1), ?_, ?_⟩, ⟨semInit_ok hN, ?_, ?_⟩, fun _ _ _ => rfl⟩
    all_goals simp [RwState.view, rwInitial, RwPc.place, units, semInit]
  have hok := hrun.invariant (fun _ _ _ h hstep => h.step hstep.1 hstep.2) hinit
  exact hok.exclusive

end Machine

/-- Process 0 goes all the way into its critical section as a writer, and process 1
stays behind: it finds `writers` active. -/
def oneWriter : List (RwEvent (Fin 2)) :=
  [.write 0, .step 0, .step 0, .step 0, .step 0, .read 1, .step 1]

instance (s : RwState (Fin 2)) (e : RwEvent (Fin 2)) : Decidable (Rechecked s e) :=
  match e with
  | .step p => decidable_of_iff
      ((s.pc p = .call .writer .downTest ∨ s.pc p = .call .writer .downLoop →
          (s.sem .writer).locked = 0 → s.Clear .writer) ∧
        (s.pc p = .call .reader .downTest ∨ s.pc p = .call .reader .downLoop →
          (s.sem .reader).locked = 0 → s.Clear .reader))
      ⟨fun h r => by cases r; exacts [h.1, h.2], fun h => ⟨h .writer, h .reader⟩⟩
  | .write _ | .read _ => isTrue trivial

theorem rw_exclusive_oneWriter : ∃ s : RwState (Fin 2),
    oneWriter.foldlM (System.guardedNext rwNext Rechecked) (rwInitial (Fin 2) 16) = some s ∧
    s.pc 0 = .crit .writer ∧ s.Exclusive := by
  obtain ⟨s, hs, hpc⟩ : ∃ s : RwState (Fin 2),
      oneWriter.foldlM (System.guardedNext rwNext Rechecked) (rwInitial (Fin 2) 16) = some s ∧
      s.pc 0 = .crit .writer := ⟨_, rfl, rfl⟩
  exact ⟨s, hs, hpc, rw_exclusive (by decide) (System.run_ofNext hs)⟩

/-- Process 0 tests as a writer and process 1 as a reader before either goes on. -/
def bothTest : List (RwEvent (Fin 2)) :=
  [.write 0, .step 0, .step 0, .read 1, .step 1, .step 0, .step 0, .step 1, .step 1]

/-- Both processes find the way clear, and then both are in their critical sections. -/
theorem rw_exclusive_bothTest : ¬ ∀ (ι : Type) (_ : DecidableEq ι) (_ : Fintype ι) (N : Int),
    1 ≤ N → ∀ (es : List (RwEvent ι)) (s : RwState ι), (rwSystem ι).Run (rwInitial ι N) es s →
    s.Exclusive := by
  intro h
  obtain ⟨s, hs, hwriter, hreader⟩ : ∃ s : RwState (Fin 2),
      bothTest.foldlM (System.guardedNext rwNext fun _ _ => True) (rwInitial (Fin 2) 16) = some s ∧
      s.pc 0 = .crit .writer ∧ s.pc 1 = .crit .reader := ⟨_, rfl, rfl, rfl⟩
  exact h (Fin 2) _ inferInstance 16 (by decide) bothTest s (System.run_ofNext hs).of_guarded 0 hwriter 1
    (by decide) .reader hreader

end Xv6
