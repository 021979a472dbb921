import Xv6.Pipe.Pipe

/-!
# Who sleeps on a pipe

A reader sleeps on an empty pipe, a writer on a full one. `piperead` and
`pipeclose` wake whoever they make room or an end for. `pipewrite` does so at its
end and before it sleeps, but not when it gives up: a writer that has filled the
pipe, and then finds the read end closed or itself killed, returns without a
`wakeup`, and a reader that slept before its first byte sleeps on.
-/

namespace Xv6

open Monitor Transition Function

/-! ## §1  Labels -/

variable {ι : Type*}

/-- When a process has to sleep. -/
def PipeBlocked : PipeChan → PipeTrace ι → Prop
  | .nread, t => t.pipe.empty = true ∧ t.pipe.writeopen = true
  | .nwrite, t => t.pipe.full = true ∧ t.pipe.readopen = true

/-- The wakeups that are still to come. -/
def PipePending : PipePc → PipeChan → Prop
  | .write _ _ _ _, c => c = .nread
  | .copy _ _, c => c = .nwrite
  | .closing writable, c => c = if writable then .nread else .nwrite
  | _, _ => False

/-- A writer goes to sleep on a full pipe whose read end is open. -/
def PipeAt : PipePc → PipeTrace ι → Prop
  | .full _ _ _ _, t => PipeBlocked .nwrite t
  | _, _ => True

theorem pipe_sleeps {p : ι} {pc pc' : PipePc} {t : PipeTrace ι} {c : PipeChan} (hat : PipeAt pc t)
    (h : (pipeProgram ι).act p pc t = .sleep c pc') :
    PipeBlocked c t ∧ (∀ c', ¬ PipePending pc c') ∧ ∀ t' : PipeTrace ι, PipeAt pc' t' := by
  have hacts := pipe_acts p t pc
  rw [h] at hacts
  cases hacts with
  | full => exact ⟨hat, fun _ => id, fun _ => trivial⟩
  | empty hempty hopen => exact ⟨⟨hempty, hopen⟩, fun _ => id, fun _ => trivial⟩

theorem pipe_goes {p : ι} {pc pc' : PipePc} {t t' : PipeTrace ι}
    (h : (pipeProgram ι).act p pc t = .go pc' t') :
    PipeAt pc' t' ∧ ∀ c, PipePending pc c ∨ (PipeBlocked c t ∧ ¬ PipeBlocked c t') →
      PipePending pc' c := by
  have hacts := pipe_acts p t pc
  rw [h] at hacts
  cases hacts with
  | put _ hroom =>
    refine ⟨trivial, fun c hc => ?_⟩
    rcases hc with hc | ⟨hb, -⟩
    · exact hc
    · cases c with
      | nread => rfl
      | nwrite => exact absurd (hroom.symm.trans hb.1) nofun
  | start => exact ⟨trivial, fun c hc => hc.elim False.elim fun hb => absurd hb.1 hb.2⟩
  | take _ hsome =>
    refine ⟨trivial, fun c hc => ?_⟩
    rcases hc with hc | ⟨hb, -⟩
    · exact hc
    · cases c with
      | nwrite => rfl
      | nread => exact absurd (hsome.symm.trans hb.1) nofun
  | @shut writable =>
    refine ⟨trivial, fun c hc => hc.elim False.elim fun hb => ?_⟩
    cases writable <;> cases c
    · exact absurd hb.1 hb.2
    · rfl
    · rfl
    · exact absurd hb.1 hb.2

theorem pipe_wakes {p : ι} {pc pc' : PipePc} {t : PipeTrace ι} {c' : PipeChan}
    (h : (pipeProgram ι).act p pc t = .wakeup c' pc') :
    PipeAt pc' t ∧ ∀ c, PipePending pc c → c = c' ∨ PipePending pc' c := by
  have hacts := pipe_acts p t pc
  rw [h] at hacts
  cases hacts with
  | wait _ hfull hopen => exact ⟨⟨hfull, hopen⟩, fun c hc => .inl hc⟩
  | end_ _ | copied | wake => exact ⟨trivial, fun c hc => .inl hc⟩

theorem pipeProgram_signals : SignalsAt (pipeProgram ι) PipeAt PipeBlocked PipePending where
  enters := by
    intro p o pc h t
    cases pc with
    | full => cases h
    | _ => trivial
  sleeps := pipe_sleeps
  goes := fun _ h => pipe_goes h
  wakes := fun _ h => pipe_wakes h

/-! ## §2  Giving up -/

variable [DecidableEq ι]

/-- `pipewrite` is about to return -1: the pipe is full, and the read end is
closed or the process was killed. -/
def GivesUp (s : PipeState ι) (p : ι) : Prop :=
  ∃ addr n i killed, s.loc p = .body (.write addr n i killed) ∧ (i : Int) < n ∧
    s.data.pipe.full = true ∧ (s.data.pipe.readopen = false ∨ killed 0 = true)

/-- No reader sleeps, or is about to, when a writer gives up. -/
def GivesUpAlone (s : PipeState ι)
    (e : Monitor.Event ι PipePc) : Prop :=
  ∀ p, e = .proc p → GivesUp s p → ∀ q, (s.loc q).waits (s.sleeping q) ≠ some .nread

omit [DecidableEq ι] in
/-- Who leaves with a wakeup pending is a writer that gives up. -/
theorem leavesNobody_of_givesUp {s : PipeState ι}
    {e : Monitor.Event ι PipePc} (h : GivesUpAlone s e) :
    LeavesNobody (pipeProgram ι) PipePending s e := by
  intro p pc o c he hloc hact hpending
  have hacts := pipe_acts p s.data pc
  rw [hact] at hacts
  cases hacts with
  | @giveUp addr n killed i hi hfull hquit =>
    obtain rfl : c = .nread := hpending
    exact h p he ⟨addr, n, i, killed, hloc, hi, hfull, hquit⟩
  | wrote | killed | read | closed => exact hpending.elim

/-- **Nobody sleeps in vain**, in a run in which no writer gives up while a reader
sleeps: with the lock free, who sleeps on `&p->nread` has an empty pipe whose write
end is open, and who sleeps on `&p->nwrite` a full one whose read end is. -/
theorem pipe_sleepers (c : UInt32) {es : List (Monitor.Event ι PipePc)}
    {s : PipeState ι}
    (hrun : ((system (pipeProgram ι)).guarded GivesUpAlone).Run (initial (pipeAt c) .none) es s)
    (hfree : s.lk = none) {p : ι} (hsl : s.sleeping p = true) :
    (s.chan p = some .nread → s.data.pipe.empty = true ∧ s.data.pipe.writeopen = true) ∧
    (s.chan p = some .nwrite → s.data.pipe.full = true ∧ s.data.pipe.readopen = true) := by
  have hquiet := hrun.mono_guard fun s e => leavesNobody_of_givesUp
  obtain ⟨ch, hch, hblocked⟩ := no_lost_wakeup_at pipeProgram_signals hquiet hfree hsl
  rw [hch]
  constructor
  · intro h
    cases h
    exact hblocked
  · intro h
    cases h
    exact hblocked

/-- Process 1 finds the pipe empty and goes to sleep. -/
def readerSleeps : List (Monitor.Event (Fin 2) PipePc) :=
  [.enter 1 (.read 1 fun _ => false), .proc 1, .proc 1, .proc 1, .proc 1, .proc 1, .proc 1, .drop]

/-- The step is none of a writer with the lock. -/
def noWriter (s : PipeState (Fin 2)) :
    Monitor.Event (Fin 2) PipePc → Bool
  | .proc p =>
    match s.loc p with
    | .body (.write _ _ _ _) => false
    | _ => true
  | _ => true

theorem pipe_sleepers_reader : ∃ s : PipeState (Fin 2),
    readerSleeps.foldlM (System.guardedNext (next (pipeProgram (Fin 2))) (noWriter · ·))
      (initial (pipeAt 0) .none) = some s ∧
    s.sleeping 1 = true ∧ s.data.pipe.empty = true ∧ s.data.pipe.writeopen = true := by
  obtain ⟨s, hs, hlk, hsl, hchan⟩ : ∃ s : PipeState (Fin 2),
      readerSleeps.foldlM (System.guardedNext (next (pipeProgram (Fin 2))) (noWriter · ·))
        (initial (pipeAt 0) .none) = some s ∧
      s.lk = none ∧ s.sleeping 1 = true ∧ s.chan 1 = some .nread := ⟨_, rfl, rfl, rfl, rfl⟩
  have hrun : ((system (pipeProgram (Fin 2))).guarded (noWriter · ·)).Run
    (initial (pipeAt 0) .none) readerSleeps s := System.run_ofNext hs
  have hquiet := hrun.mono_guard fun s e he => (by
    intro p hp hgive
    obtain ⟨addr, n, i, killed, hloc, -⟩ := hgive
    subst hp
    simp [noWriter, hloc] at he : GivesUpAlone s e)
  exact ⟨s, hs, hsl, (pipe_sleepers 0 hquiet hlk hsl).1 hchan⟩

/-- A writer puts bytes as long as there is room. -/
theorem run_puts {p : ι} {addr : Nat → UInt8} {n : Int} {killed : Nat → Bool} :
    ∀ (k i : Nat) (s : PipeState ι),
      s.loc p = .body (.write addr n i killed) → (i + k : Int) ≤ n →
      s.data.pipe.count + k ≤ pipeSize →
      ∃ es s', (system (pipeProgram ι)).Run s es s' ∧
        s'.loc = update s.loc p (.body (.write addr n (i + k) killed)) ∧
        s'.data.pipe.count = s.data.pipe.count + k ∧ s'.data.pipe.readopen = s.data.pipe.readopen ∧
        s'.lk = s.lk ∧ s'.sleeping = s.sleeping ∧ s'.chan = s.chan
  | 0, i, s, hloc, _, _ => by
    refine ⟨[], s, .nil, ?_, rfl, rfl, rfl, rfl, rfl⟩
    rw [Nat.add_zero, ← hloc, update_eq_self]
  | k + 1, i, s, hloc, hn, hroom => by
    have hfull : s.data.pipe.full = false := by
      rw [← Bool.not_eq_true, Pipe.full_iff]
      omega
    have hstep : (system (pipeProgram ι)).step s (.proc p)
        ({ s with data := s.data.put p (addr i) }.move p (.body (.write addr n (i + 1) killed))) := by
      have hi : (i : Int) < n := by omega
      simp only [system, next, stepProc, hloc, pipeProgram, hi, hfull, if_true]
      rfl
    have hcount : (s.data.put p (addr i)).pipe.count = s.data.pipe.count + 1 :=
      Pipe.count_put (by omega) _
    obtain ⟨es, s', hrun, hloc', hcount', hopen, hlk, hsl, hchan⟩ := run_puts k (i + 1)
      ({ s with data := s.data.put p (addr i) }.move p (.body (.write addr n (i + 1) killed)))
      (update_self ..) (by push_cast; omega)
      (by change (s.data.put p (addr i)).pipe.count + k ≤ _; omega)
    refine ⟨_, s', (System.Run.single hstep).append hrun, ?_, ?_, hopen, hlk, hsl, hchan⟩
    · rw [hloc', State.move, update_idem, Nat.add_assoc, Nat.add_comm 1]
    · rw [hcount']
      change (s.data.put p (addr i)).pipe.count + k = _
      omega

/-- A writer fills the pipe while a reader sleeps, and is killed: it leaves
without a `wakeup`, and the reader sleeps on beside a full pipe. -/
theorem pipe_sleepers_killed : ¬ ∀ (ι : Type) (_ : DecidableEq ι) (c : UInt32)
    (es : List (Monitor.Event ι PipePc)) (s : PipeState ι),
    (system (pipeProgram ι)).Run (initial (pipeAt c) .none) es s → s.lk = none →
    ∀ p, s.sleeping p = true →
      (s.chan p = some .nread → s.data.pipe.empty = true ∧ s.data.pipe.writeopen = true) ∧
      (s.chan p = some .nwrite → s.data.pipe.full = true ∧ s.data.pipe.readopen = true) := by
  intro h
  -- process 1 sleeps, process 0 has the lock at the start of a write of 513 bytes
  obtain ⟨s₁, hrun₁, hloc₁, hcount₁, hsl₁, hchan₁⟩ :
      ∃ s : PipeState (Fin 2),
        (system (pipeProgram (Fin 2))).Run (initial (pipeAt 0) .none)
          (readerSleeps ++ [.enter 0 (.write (fun _ => 7) 513 0 fun _ => true), .proc 0]) s ∧
        s.loc 0 = .body (.write (fun _ => 7) 513 0 fun _ => true) ∧ s.data.pipe.count = 0 ∧
        s.sleeping 1 = true ∧ s.chan 1 = some .nread :=
    ⟨_, run_of_foldlM rfl, rfl, rfl, rfl, rfl⟩
  obtain ⟨es, s₂, hrun₂, hloc₂, hcount₂, -, -, hsl₂, hchan₂⟩ := run_puts 512 0 s₁ hloc₁
    (by decide) (by rw [hcount₁]; decide)
  have hfull : s₂.data.pipe.full = true := by
    rw [Pipe.full_iff, hcount₂, hcount₁]
    rfl
  have hleave : (system (pipeProgram (Fin 2))).step s₂ (.proc 0)
      ({ s₂ with lk := none }.move 0 (.out (.wrote (-1)))) := by
    simp only [system, next, stepProc, hloc₂, update_self, pipeProgram, hfull]
    simp
  have hempty := ((h (Fin 2) _ 0 _ _ ((hrun₁.append hrun₂).snoc hleave) rfl 1
    (by rw [← hsl₁, ← hsl₂]; rfl)).1 (by rw [← hchan₁, ← hchan₂]; rfl)).1
  have hzero : s₂.data.pipe.count = 0 := (Pipe.empty_iff _).mp hempty
  rw [hcount₂, hcount₁] at hzero
  exact absurd hzero (by decide)

end Xv6
