import Xv6.Sem.Semaphore

/-!
# Calls in any order

`sem_up` need not come after a `sem_down` of the same process, nor after one
at all: a semaphore may start at 0 and be raised by an event. Here are the
fields after any sequence of completed calls (`semCalls`); what processes do to
a semaphore at the same time is such a sequence, of the calls they complete
(`sem_linear`).

The value counts the calls in every sequence. `locked` and `isactive` follow
the value as long as the semaphore starts above 0 and no `sem_up` raises the
value above what it started with: `sem_init` leaves a semaphore of value 0
unlocked, and `sem_up` clears `isactive` only when it meets `maxval`.
-/

namespace Xv6

open Monitor Transition Function

/-! ## §1  Completed calls -/

inductive SemCall where
  | up
  | down
deriving DecidableEq

/-- What a call that completes does to the fields. A `sem_down` of a locked
semaphore does not complete: it sleeps. -/
def Sem.call (sem : Sem) : SemCall → Option Sem
  | .up => some sem.raise
  | .down => if sem.locked = 0 then some sem.take else none

/-- Processes complete calls, one after the other. -/
def semCalls (ι : Type*) : System Sem (ι × SemCall) := .ofNext fun sem e => sem.call e.2

section Calls

variable {ι : Type*}

def ups (cs : List (ι × SemCall)) : Nat := cs.countP fun e => e.2 = .up

def downs (cs : List (ι × SemCall)) : Nat := cs.countP fun e => e.2 = .down

/-- What is left after the calls `cs` on a semaphore of value `N`. -/
def level (N : Int) (cs : List (ι × SemCall)) : Int := N + ups cs - downs cs

theorem ups_snoc (cs : List (ι × SemCall)) (p : ι) (c : SemCall) :
    ups (cs ++ [(p, c)]) = ups cs + if c = .up then 1 else 0 := by
  cases c <;> simp [ups]

theorem downs_snoc (cs : List (ι × SemCall)) (p : ι) (c : SemCall) :
    downs (cs ++ [(p, c)]) = downs cs + if c = .down then 1 else 0 := by
  cases c <;> simp [downs]

theorem semCalls_up {p : ι} {sem sem' : Sem} (h : (semCalls ι).step sem (p, .up) sem') :
    sem' = sem.raise := (Option.some.inj h).symm

theorem semCalls_down {p : ι} {sem sem' : Sem} (h : (semCalls ι).step sem (p, .down) sem') :
    sem.locked = 0 ∧ sem' = sem.take := by
  change (if sem.locked = 0 then some sem.take else none) = some sem' at h
  split at h
  · exact ⟨‹_›, (Option.some.inj h).symm⟩
  · cases h

variable {cs : List (ι × SemCall)}

/-- **The value counts the calls**, whatever their order, and `maxval` stays. -/
theorem semCalls_value {N : Int} {sem : Sem} (hrun : (semCalls ι).Run (semInit N) cs sem) :
    sem.value = level N cs ∧ sem.maxval = N := by
  refine hrun.history (I := fun cs sem => sem.value = level N cs ∧ sem.maxval = N) ?_ ?_
  · rintro cs sem ⟨p, c⟩ sem' ⟨hvalue, hmax⟩ hstep
    simp only [level] at *
    rw [ups_snoc, downs_snoc]
    cases c with
    | up =>
      obtain rfl := semCalls_up hstep
      refine ⟨?_, hmax⟩
      simp only [Sem.raise, if_true, reduceCtorEq, if_false]
      omega
    | down =>
      obtain ⟨-, rfl⟩ := semCalls_down hstep
      refine ⟨?_, hmax⟩
      simp only [Sem.take, if_true, reduceCtorEq, if_false]
      omega
  · simp [level, ups, downs, semInit]

/-! ## §2  The fields -/

/-- The fields as `semaphores.h` has them, after the calls `cs`: the value is
what is left, and not negative, so a `sem_down` does not complete when nothing
is left; `locked` is set if the value is 0, `isactive` if it is not `maxval`. -/
structure SemCounted (N : Int) (cs : List (ι × SemCall)) (sem : Sem) : Prop where
  value : sem.value = level N cs
  nonneg : 0 ≤ level N cs
  blocks : level N cs = 0 → sem.call .down = none
  locked : sem.locked = 1 ↔ sem.value = 0
  isactive : sem.isactive = 1 ↔ sem.value ≠ sem.maxval

/-- At no time were there more `sem_up`s than `sem_down`s. -/
def Covered (cs : List (ι × SemCall)) : Prop := ∀ l, l <+: cs → ups l ≤ downs l

theorem Sem.OK.counted {N : Int} {sem : Sem} (h : sem.OK N) (hvalue : sem.value = level N cs) :
    SemCounted N cs sem := by
  have hlocked := h.locked
  have hactive := h.isactive
  refine ⟨hvalue, hvalue ▸ h.nonneg, fun hzero => ?_, ?_, ?_⟩
  · rw [if_pos (hvalue.trans hzero)] at hlocked
    rw [Sem.call, hlocked]
    rfl
  · by_cases hzero : sem.value = 0
    · rw [hlocked, if_pos hzero]
      exact iff_of_true rfl hzero
    · rw [hlocked, if_neg hzero]
      exact iff_of_false (by decide) hzero
  · rw [h.maxval]
    by_cases hfull : sem.value = N
    · rw [hactive, if_pos hfull]
      exact iff_of_false (by decide) (not_not_intro hfull)
    · rw [hactive, if_neg hfull]
      exact iff_of_true rfl hfull

/-- **The fields stay in order** while the `sem_up`s are covered. -/
theorem semCalls_ok {N : Int} (hN : 1 ≤ N) {sem : Sem} (hrun : (semCalls ι).Run (semInit N) cs sem)
    (hcov : Covered cs) : sem.OK N := by
  induction hrun with
  | nil => exact semInit_ok hN
  | @snoc cs e sem sem' hrun hlast ih =>
    have hok := ih fun l hl => hcov l (hl.trans (List.prefix_append _ _))
    obtain ⟨p, c⟩ := e
    cases c with
    | down =>
      obtain ⟨hl, rfl⟩ := semCalls_down hlast
      exact hok.take hl
    | up =>
      obtain rfl := semCalls_up hlast
      -- the new `sem_up` is covered too, so a unit is missing
      have hnow := hcov _ (List.prefix_refl _)
      rw [ups_snoc, downs_snoc, if_pos rfl, if_neg (by simp)] at hnow
      have hvalue := (semCalls_value hrun).1
      rw [level] at hvalue
      exact hok.raise (by omega)

/-- The first `sem_up` too many finds `isactive` cleared and leaves it so. -/
theorem SemCounted.no_more {N : Int} {sem : Sem} {p : ι}
    (hrun : (semCalls ι).Run (semInit N) cs sem) (h : SemCounted N cs sem)
    (h' : SemCounted N (cs ++ [(p, .up)]) sem.raise) : ups cs ≠ downs cs := by
  intro heq
  have hmax := (semCalls_value hrun).2
  have hfull : sem.value = N := by
    rw [h.value, level, heq]
    omega
  have hidle : sem.isactive ≠ 1 := mt h.isactive.mp (by rw [hfull, hmax]; simp)
  have hover : sem.raise.value ≠ sem.raise.maxval := by
    simp only [Sem.raise, hfull, hmax]
    omega
  have hactive := h'.isactive.mpr hover
  rw [Sem.raise, hfull, hmax, if_neg (by omega)] at hactive
  exact hidle hactive

/-- **The fields and the calls.** For every initial value and every sequence of
completed calls, the fields say what they should after each of the calls if and
only if the semaphore started above 0 and at no time there were more `sem_up`s than
`sem_down`s. -/
theorem sem_counted_iff {N : Int} (hN : 0 ≤ N) {cs : List (ι × SemCall)} {sem : Sem}
    (hrun : (semCalls ι).Run (semInit N) cs sem) :
    (∀ l sem', l <+: cs → (semCalls ι).Run (semInit N) l sem' → SemCounted N l sem') ↔
      1 ≤ N ∧ Covered cs := by
  constructor
  · intro hall
    constructor
    · have h₀ := (hall [] _ (List.nil_prefix) .nil).locked
      simp only [semInit] at h₀
      omega
    · intro l
      induction l using List.reverseRecOn with
      | nil => exact fun _ => Nat.le_refl 0
      | append_singleton l e ih =>
        intro hl
        have hpre : l <+: cs := (List.prefix_append _ _).trans hl
        have hle := ih hpre
        obtain ⟨p, c⟩ := e
        rw [ups_snoc, downs_snoc]
        cases c with
        | down => exact Nat.le_trans hle (Nat.le_add_right _ _)
        | up =>
          obtain ⟨r, hr⟩ := hl
          rw [← hr] at hrun
          obtain ⟨sem₂, hrun₂, -⟩ := hrun.of_append
          obtain ⟨sem₁, hrun₁, hlast⟩ := hrun₂.last
          obtain rfl := semCalls_up hlast
          have hne := SemCounted.no_more hrun₁ (hall _ _ hpre hrun₁)
            (hall _ _ ⟨r, hr⟩ hrun₂)
          simp only [if_true, reduceCtorEq, if_false]
          omega
  · rintro ⟨hpos, hcov⟩ l sem' hl hrun'
    exact (semCalls_ok hpos hrun' fun l' hl' => hcov l' (hl'.trans hl)).counted
      (semCalls_value hrun').1

end Calls

/-- Process 1 gives back what process 0 has taken, and takes it itself. -/
def handOver : List (Fin 2 × SemCall) := [(0, .down), (1, .up), (1, .down)]

theorem sem_counted_handOver : (semCalls (Fin 2)).Run (semInit 1) handOver ⟨0, 1, 1, 1⟩ ∧
    SemCounted 1 handOver ⟨0, 1, 1, 1⟩ := by
  have hrun : (semCalls (Fin 2)).Run (semInit 1) handOver ⟨0, 1, 1, 1⟩ :=
    (System.run_ofNext (g := fun _ _ => True) rfl).of_guarded
  have hcov : ∀ l ∈ handOver.inits, ups l ≤ downs l := by decide
  refine ⟨hrun, (sem_counted_iff (by decide) hrun).mpr ⟨by decide, fun l hl => ?_⟩ _ _
    (List.prefix_refl _) hrun⟩
  exact hcov l ((List.mem_inits l _).mpr hl)

/-- A semaphore that starts at 0 is not locked: `sem_down` completes at once, with
nothing left to take. -/
theorem sem_counted_zero : ¬ ∀ (N : Int) (cs : List (Fin 2 × SemCall)) (sem : Sem), 0 ≤ N →
    (semCalls (Fin 2)).Run (semInit N) cs sem → SemCounted N cs sem := by
  intro h
  have hrun : (semCalls (Fin 2)).Run (semInit 0) [(0, .down)] (semInit 0).take := .single rfl
  have := (h 0 _ _ (by decide) hrun).nonneg
  revert this
  decide

/-! ## §3  Calls at the same time -/

section Linear

variable {ι : Type*}

def SemPc.call : SemPc → SemCall
  | .downTest | .downLoop | .downDone => .down
  | .upRaise | .upWake | .upDone => .up

/-- The call has changed the fields. -/
def SemPc.tookEffect : SemPc → Bool
  | .downDone | .upWake | .upDone => true
  | _ => false

/-- The calls of a process, completed, or under way if the fields have changed. -/
def madeCalls : Record (SemPc × Nat) Nat → List SemCall
  | .out _ cs => cs.map fun c => c.1.1.call
  | .inside _ l cs => (cs.map fun c => c.1.1.call) ++ if l.1.tookEffect then [l.1.call] else []

/-- One move of one process makes a call, as far as the fields are concerned, or
does not touch them. -/
theorem SemAct.calls {a : Nat} {sem : Sem} {l₀ l : SemPc × Nat} {cs : List ((SemPc × Nat) × Nat)}
    {x : Act Nat (SemPc × Nat) Nat Sem} (hx : SemAct a sem l x)
    (h : SemCallsOK (.inside l₀ l cs)) (p : ι) :
    x.data sem = sem ∧
      madeCalls ((Record.inside l₀ l cs).seen x.place) = madeCalls (.inside l₀ l cs) ∨
    ∃ c, (semCalls ι).step sem (p, c) (x.data sem) ∧
      madeCalls ((Record.inside l₀ l cs).seen x.place) = madeCalls (.inside l₀ l cs) ++ [c] := by
  cases hx with
  | take hpc hl =>
    refine .inr ⟨.down, if_pos hl, ?_⟩
    rcases hpc with rfl | rfl <;> exact congrArg (· ++ _) (List.append_nil _).symm
  | raise => exact .inr ⟨.up, rfl, congrArg (· ++ _) (List.append_nil _).symm⟩
  | test | sleep | wake => exact .inl ⟨rfl, rfl⟩
  | done hpc =>
    refine .inl ⟨rfl, List.map_append.trans (congrArg _ ?_)⟩
    rcases hpc with rfl | rfl <;> exact (congrArg (fun pc => [SemPc.call pc]) h.2.1 :)

variable [DecidableEq ι] {addr : ι → Nat} {mayUp : Nat → Bool}
  {s s' : State ι Nat (SemPc × Nat) Nat Sem}

/-- **Run**: the calls go on from `cs`. -/
theorem calls_run {fs : List (Monitor.Event ι (SemPc × Nat))}
    (hrun : (system (semProgram addr mayUp)).Run s fs s') {r : ι → Record (SemPc × Nat) Nat}
    (hplace : ∀ p, (r p).place = (s.loc p).place) (hok : ∀ p, SemCallsOK (r p))
    {cs : List (ι × SemCall)} (hcs : ∀ p, share p cs = madeCalls (r p)) :
    (fs.foldl (record (semProgram addr mayUp)) (s, r)).1 = s' ∧
    (∀ p, ((fs.foldl (record (semProgram addr mayUp)) (s, r)).2 p).place = (s'.loc p).place) ∧
    (∀ p, SemCallsOK ((fs.foldl (record (semProgram addr mayUp)) (s, r)).2 p)) ∧
    ∃ cs', (semCalls ι).Run s.data cs' s'.data ∧
      ∀ p, share p (cs ++ cs') =
        madeCalls ((fs.foldl (record (semProgram addr mayUp)) (s, r)).2 p) := by
  refine records_run (J := fun sem r => (∀ q, SemCallsOK (r q)) ∧
    ∃ cs', (semCalls ι).Run s.data cs' sem ∧ ∀ q, share q (cs ++ cs') = madeCalls (r q))
    (fun {sem r q o l cs₁} h hq hen => ?_) (fun {sem r q l₀ l cs₁} h hq => ?_) hrun hplace
    ⟨hok, [], .nil, fun p => by rw [List.append_nil, hcs]⟩
  · obtain ⟨hok, cs', hcalls, hshare⟩ := h
    have hout : SemCallsOK (.out o cs₁) := hq ▸ hok q
    refine ⟨(forall_update_iff r fun _ => SemCallsOK).mpr ⟨hout.enter hen, fun x _ => hok x⟩,
      cs', hcalls, (forall_update_iff r fun q x => share q (cs ++ cs') = madeCalls x).mpr
        ⟨?_, fun x _ => hshare x⟩⟩
    rw [hshare, hq]
    obtain ⟨pc, n⟩ := l
    cases pc with
    | downTest | upRaise => exact (List.append_nil _).symm
    | _ => cases hen
  · obtain ⟨hok, cs', hcalls, hshare⟩ := h
    have hin : SemCallsOK (.inside l₀ l cs₁) := hq ▸ hok q
    have hx := sem_acts addr mayUp q l sem
    refine ⟨(forall_update_iff r fun _ => SemCallsOK).mpr ⟨hin.act hx, fun x _ => hok x⟩, ?_⟩
    rcases hx.calls hin q with ⟨hdata, hmade⟩ | ⟨c, hstep, hmade⟩
    · rw [hdata]
      refine ⟨cs', hcalls, (forall_update_iff r fun q x => share q (cs ++ cs') = madeCalls x).mpr
        ⟨?_, fun x _ => hshare x⟩⟩
      rw [hshare, hq, hmade]
    · refine ⟨cs' ++ [(q, c)], hcalls.snoc hstep, ?_⟩
      rw [← List.append_assoc]
      refine (forall_update_iff r fun x y => share x (cs ++ cs' ++ [(q, c)]) = madeCalls y).mpr
        ⟨?_, fun x hx => ?_⟩
      · rw [share_concat_self, hshare, hq, hmade]
      · rw [share_concat_ne hx]
        exact hshare x

/-- **Calls at the same time are calls one after the other.** Whatever processes do to a
semaphore at once, with whoever may call `sem_up`, the fields are those after the calls
that the processes have completed, of each process in its order, and the calls under way
that have changed the fields already. The calls of a run that goes on follow those, so a
call that has returned comes before one that starts later. -/
theorem sem_linear {N : Int} {es fs : List (Monitor.Event ι (SemPc × Nat))}
    (hrun : (system (semProgram addr mayUp)).Run (initial (semInit N) 0) es s)
    (hrest : (system (semProgram addr mayUp)).Run s fs s') :
    ∃ cs cs', (semCalls ι).Run (semInit N) cs s.data ∧
      (∀ p, share p cs = madeCalls (records (semProgram addr mayUp) (semInit N) 0 es p)) ∧
      (semCalls ι).Run s.data cs' s'.data ∧
      ∀ p, share p (cs ++ cs') =
        madeCalls (records (semProgram addr mayUp) (semInit N) 0 (es ++ fs) p) := by
  have hnone : ∀ p : ι, share p ([] : List (ι × SemCall)) = [] := fun _ => rfl
  obtain ⟨hs, hplace, hok, cs, hcs, hshare⟩ := calls_run hrun (r := fun _ => .out 0 [])
    (fun _ => rfl) (fun _ c hc => absurd hc List.not_mem_nil) hnone
  obtain ⟨-, -, -, cs', hcs', hshare'⟩ := calls_run hrest hplace hok hshare
  refine ⟨cs, cs', hcs, hshare, hcs', fun p => ?_⟩
  subst hs
  rw [records, List.foldl_append]
  exact hshare' p

end Linear

theorem sem_linear_takeAndSleep : ∃ s s' : State (Fin 2) Nat (SemPc × Nat) Nat Sem,
    (takeAndSleep.take 13).foldlM (next (semProgram (fun _ => 0) paired)) (initial (semInit 1) 0)
      = some s ∧
    (takeAndSleep.drop 13).foldlM (next (semProgram (fun _ => 0) paired)) s = some s' ∧
    ∃ cs cs', (semCalls (Fin 2)).Run (semInit 1) cs s.data ∧
      (semCalls (Fin 2)).Run s.data cs' s'.data ∧ share 1 (cs ++ cs') =
        madeCalls (records (semProgram (fun _ => 0) paired) (semInit 1) 0 takeAndSleep 1) := by
  obtain ⟨s, hs, s', hs'⟩ : ∃ s, (takeAndSleep.take 13).foldlM
      (next (semProgram (fun _ => 0) paired)) (initial (semInit 1) 0) = some s ∧
      ∃ s', (takeAndSleep.drop 13).foldlM (next (semProgram (fun _ => 0) paired)) s = some s' :=
    ⟨_, rfl, _, rfl⟩
  obtain ⟨cs, cs', hcs, -, hcs', hshare⟩ := sem_linear (run_of_foldlM hs) (run_of_foldlM hs')
  rw [List.take_append_drop] at hshare
  exact ⟨s, s', hs, hs', cs, cs', hcs, hcs', hshare 1⟩

end Xv6
