import Xv6.Library.Monitor

/-!
# `sleeplock.c`

`acquiresleep`, `releasesleep` and `holdingsleep` as the program of a monitor:
the lock is `lk->lk`, the data are `locked` and `pid`, and the channel is the
sleep lock itself. A release is guarded as in `iunlock` and `brelse`: the
process calls `holdingsleep` and panics when it returns 0.

`holdingsleep` looks at `locked` alone. A process that does not own the lock
passes the guard while another one owns it, and then frees the other's lock.
The lock excludes, and the guard stops who does not own it, in every run in
which no process comes to the guard while another one owns the lock.
-/

namespace Xv6

open Monitor Transition Function

/-! ## §1  The functions -/

/-- `struct sleeplock` without `lk` and `name`. -/
structure Sleeplock where
  locked : Nat
  pid : Int

/-- `initsleeplock`. -/
def initsleeplock : Sleeplock := ⟨0, 0⟩

/-- Where a call is while it has `lk->lk`. -/
inductive SleepPc where
  | acquire     -- `while (lk->locked)`
  | acquired
  | holding     -- `r = lk->locked`
  | clear       -- `lk->locked = 0`
  | wake        -- `wakeup(lk)`
  | released
deriving DecidableEq

/-- Between two calls: nothing is left to do, or `holdingsleep` has just
returned, not 0 or 0. -/
inductive Guard where
  | done
  | passed
  | panicked
deriving DecidableEq

/-- The calls of processes with the pids `pid`. A process that has passed the
guard goes on to `releasesleep`, and one that has panicked does nothing more.
Labels carry whether the process owns the lock, which is no part of the source:
it does from the assignments of `acquiresleep` to those of `releasesleep`. -/
def sleeplockProgram {ι : Type*} (pid : ι → Int) :
    Program ι Unit (SleepPc × Bool) (Guard × Bool) Sleeplock where
  enter _ o l :=
    match o, l with
    | (.done, own), (.acquire, own') | (.done, own), (.holding, own')
    | (.passed, own), (.clear, own') => own' = own
    | _, _ => false
  act p l lk :=
    match l with
    | (.acquire, own) =>
      if lk.locked ≠ 0 then .sleep () (.acquire, own) else .go (.acquired, true) ⟨1, pid p⟩
    | (.acquired, own) => .leave (.done, own)
    | (.holding, own) => .leave (if lk.locked ≠ 0 then .passed else .panicked, own)
    | (.clear, _) => .go (.wake, false) ⟨0, 0⟩
    | (.wake, own) => .wakeup () (.released, own)
    | (.released, own) => .leave (.done, own)

/-! ## §2  Who owns the lock -/

/-- Whether a process owns the lock. -/
def owns : Place (SleepPc × Bool) (Guard × Bool) → Bool
  | .out o => o.2
  | .inside l => l.2

/-- A process that has passed the guard, or is about to clear `locked`. -/
def releases : Place (SleepPc × Bool) (Guard × Bool) → Bool
  | .out o => o.1 = .passed
  | .inside l => l.1 = .clear

variable {ι : Type*} [DecidableEq ι] {pid : ι → Int}

/-- `locked` and `pid` are those of the only owner, and only an owner releases. -/
structure SleepOK (pid : ι → Int) (a : Atomic ι (SleepPc × Bool) (Guard × Bool) Sleeplock) :
    Prop where
  held : ∀ p, owns (a.place p) = true → a.data.locked = 1 ∧ a.data.pid = pid p
  one : ∀ p q, owns (a.place p) = true → owns (a.place q) = true → p = q
  releases : ∀ p, releases (a.place p) = true → owns (a.place p) = true

variable {a a' : Atomic ι (SleepPc × Bool) (Guard × Bool) Sleeplock} {p : ι}

/-- A process moves and owns no more and no less than before. -/
theorem SleepOK.keep (h : SleepOK pid a) {x : Place (SleepPc × Bool) (Guard × Bool)}
    (hx : owns x = owns (a.place p)) (hrel : Xv6.releases x = true → owns x = true) :
    SleepOK pid (a.put p x) := by
  have howns : ∀ q, owns ((a.put p x).place q) = owns (a.place q) := by
    refine (forall_update_iff a.place fun q y => owns y = owns (a.place q)).mpr ⟨hx, ?_⟩
    exact fun q _ => rfl
  refine ⟨fun q hq => h.held q ?_, fun q r hq hr => h.one q r ?_ ?_, ?_⟩
  · rwa [howns] at hq
  · rwa [howns] at hq
  · rwa [howns] at hr
  · refine (forall_update_iff a.place fun _ y => Xv6.releases y = true → owns y = true).mpr ?_
    exact ⟨hrel, fun q _ => h.releases q⟩

/-- A process moves, and after that nobody else owns the lock. -/
theorem SleepOK.alone (h : SleepOK pid a) {x : Place (SleepPc × Bool) (Guard × Bool)}
    {lk : Sleeplock} (hothers : ∀ q, q ≠ p → owns (a.place q) = false)
    (hx : owns x = true → lk.locked = 1 ∧ lk.pid = pid p)
    (hrel : Xv6.releases x = false) : SleepOK pid ({ a with data := lk }.put p x) := by
  have honly : ∀ q, owns (({ a with data := lk }.put p x).place q) = true → q = p := by
    intro q hq
    by_contra hne
    simp only [Atomic.put, update_of_ne hne, hothers q hne] at hq
    cases hq
  refine ⟨fun q hq => ?_, fun q r hq hr => (honly q hq).trans (honly r hr).symm, ?_⟩
  · obtain rfl := honly q hq
    simp only [Atomic.put, update_self] at hq
    exact hx hq
  · refine (forall_update_iff a.place fun _ y => Xv6.releases y = true → owns y = true).mpr ?_
    exact ⟨by simp [hrel], fun q _ => h.releases q⟩

/-- **Step**, unless the guard is read by a process that does not own the lock
while it is held. -/
theorem SleepOK.step (h : SleepOK pid a) (hs : (atomic (sleeplockProgram pid)).step a p a')
    (hguard : ∀ own, a.place p = .inside (.holding, own) → own = true ∨ a.data.locked = 0) :
    SleepOK pid a' := by
  simp only [atomic] at hs
  split at hs
  · -- a call starts
    rename_i o hp
    obtain ⟨⟨pc, own'⟩, hen, rfl⟩ := hs
    obtain ⟨g, own⟩ := o
    have hrel := h.releases p
    rw [hp] at hrel
    refine h.keep ?_ ?_ <;> cases g <;> cases pc <;>
      simp_all [sleeplockProgram, owns, Xv6.releases]
  · rename_i l hp
    obtain ⟨pc, own⟩ := l
    cases pc with
    | acquire =>
      by_cases hl : a.data.locked = 0
      · simp only [sleeplockProgram, hl, ne_eq, not_true_eq_false, if_false] at hs
        rw [hs]
        refine h.alone (fun q _ => Bool.eq_false_iff.mpr fun hq => ?_) (fun _ => ⟨rfl, rfl⟩) rfl
        rw [(h.held q hq).1] at hl
        cases hl
      · simp only [sleeplockProgram, hl, ne_eq, not_false_eq_true, if_true] at hs
        rw [hs]
        exact h.keep (by rw [hp]) (by simp [Xv6.releases])
    | holding =>
      simp only [sleeplockProgram] at hs
      rw [hs]
      refine h.keep (by rw [hp]; rfl) fun hpass => ?_
      refine (hguard own hp).resolve_right fun hl => ?_
      simp [Xv6.releases, hl] at hpass
    | clear =>
      -- it owns the lock, and so nobody else does
      have hown := h.releases p (by rw [hp]; rfl)
      simp only [sleeplockProgram] at hs
      rw [hs]
      refine h.alone (fun q hq => Bool.eq_false_iff.mpr fun hq' => hq (h.one q p hq' hown)) ?_ rfl
      exact fun hx => absurd hx (by simp [owns])
    | acquired | wake | released =>
      simp only [sleeplockProgram] at hs
      rw [hs]
      exact h.keep (by rw [hp]; rfl) (by simp [Xv6.releases])

/-! ## §3  Runs -/

/-- At most one process owns the lock; who passes the guard owns it; and
`releasesleep` frees only the lock of its caller. -/
structure Excludes (s : State ι Unit (SleepPc × Bool) (Guard × Bool) Sleeplock) : Prop where
  one : ∀ p q, owns (s.loc p).place = true → owns (s.loc q).place = true → p = q
  passed : ∀ p own, s.loc p = .out (.passed, own) → own = true
  clears : ∀ p own, s.loc p = .body (.clear, own) → own = true

/-- A process that reads `locked` for the guard owns the lock, or the lock is free. -/
def guardsOwn (lk : Sleeplock) : Loc Unit (SleepPc × Bool) (Guard × Bool) → Bool
  | .body (.holding, own) => own || lk.locked == 0
  | _ => true

/-- No process is at the guard while another one owns the lock. -/
def OwnersRelease (s : State ι Unit (SleepPc × Bool) (Guard × Bool) Sleeplock) : Prop :=
  ∀ p, guardsOwn s.data (s.loc p) = true

instance [Fintype ι] (s : State ι Unit (SleepPc × Bool) (Guard × Bool) Sleeplock) :
    Decidable (OwnersRelease s) :=
  inferInstanceAs (Decidable (∀ p, guardsOwn s.data (s.loc p) = true))

/-- **The lock excludes, and the guard stops who does not own it**, in every
run in which only the owner comes to the guard of a lock that is held. -/
theorem sleeplock_excludes {s : State ι Unit (SleepPc × Bool) (Guard × Bool) Sleeplock}
    {es : List (Monitor.Event ι (SleepPc × Bool))}
    (hrun : ((system (sleeplockProgram pid)).guarded fun s _ => OwnersRelease s).Run
      (initial initsleeplock (.done, false)) es s) : Excludes s := by
  have h : SleepOK pid s.view := by
    refine hrun.invariant (I := fun s => SleepOK pid s.view) (fun s e s' hs hstep => ?_) ?_
    · rcases refines_step (step_of_next hstep.2) with heq | ⟨p, hmove, hbody⟩
      · rw [heq]
        exact hs
      · refine hs.step hmove fun own hp => ?_
        have hguard := hstep.1 p
        rw [hbody _ hp] at hguard
        simpa [guardsOwn, State.view] using hguard
    · constructor <;> simp [State.view, initial, Loc.place, owns, releases]
  refine ⟨h.one, fun p own hp => ?_, fun p own hp => ?_⟩
  · have := h.releases p
    simpa [State.view, hp, Loc.place, releases, owns] using this
  · have := h.releases p
    simpa [State.view, hp, Loc.place, releases, owns] using this

/-- Process 0 takes the lock, process 1 goes to sleep, process 0 releases. -/
def lockAndRelease : List (Monitor.Event (Fin 2) (SleepPc × Bool)) :=
  [.enter 0 (.acquire, false), .proc 0, .proc 0, .proc 0,
    .enter 1 (.acquire, false), .proc 1, .proc 1, .proc 1, .proc 1, .proc 1, .proc 1, .drop,
    .enter 0 (.holding, true), .proc 0, .proc 0, .enter 0 (.clear, true), .proc 0, .proc 0]

theorem sleeplock_excludes_two : ∃ s,
    lockAndRelease.foldlM (System.guardedNext (next (sleeplockProgram fun p : Fin 2 => p + 1))
      fun s _ => OwnersRelease s) (initial initsleeplock (.done, false)) = some s ∧ Excludes s := by
  obtain ⟨s, hs⟩ : ∃ s, lockAndRelease.foldlM (System.guardedNext
      (next (sleeplockProgram fun p : Fin 2 => p + 1)) fun s _ => OwnersRelease s)
      (initial initsleeplock (.done, false)) = some s := ⟨_, rfl⟩
  exact ⟨s, hs, sleeplock_excludes (System.run_ofNext hs)⟩

/-- Process 0 takes the lock; process 1 passes the guard, frees it, and takes it too. -/
def lockAndSteal : List (Monitor.Event (Fin 2) (SleepPc × Bool)) :=
  [.enter 0 (.acquire, false), .proc 0, .proc 0, .proc 0,
    .enter 1 (.holding, false), .proc 1, .proc 1, .enter 1 (.clear, false), .proc 1, .proc 1,
    .proc 1, .proc 1, .proc 1, .proc 1, .proc 1,
    .enter 1 (.acquire, false), .proc 1, .proc 1, .proc 1]

/-- **The guard does not see whose lock it is.** -/
theorem sleeplock_stolen : ¬ ∀ (es : List (Monitor.Event (Fin 2) (SleepPc × Bool)))
    (s : State (Fin 2) Unit (SleepPc × Bool) (Guard × Bool) Sleeplock),
    (system (sleeplockProgram fun p : Fin 2 => p + 1)).Run (initial initsleeplock (.done, false)) es s →
      Excludes s := by
  intro hall
  obtain ⟨s, hs, h₀, h₁⟩ : ∃ s,
      lockAndSteal.foldlM (next (sleeplockProgram fun p : Fin 2 => p + 1))
        (initial initsleeplock (.done, false)) = some s ∧
      owns (s.loc 0).place = true ∧ owns (s.loc 1).place = true := ⟨_, rfl, rfl, rfl⟩
  exact absurd ((hall _ s (run_of_foldlM hs)).one 0 1 h₀ h₁) (by decide)

end Xv6
