import Xv6.Log.Recover

/-!
# What a crash leaves of the operations

A transaction has no name in the source. The history of a run gives it one:
an operation belongs to the transaction that was open when it began, a header
that reaches the disk ends the transaction, and so does a crash. Recovery
gives the result of the operations of the committed transactions, as long as
no transaction outgrows the log. The tests of `log_write` do not see to that,
as they are made before the lock is taken; in a log that is as large as the
buffer cache, like the one that `mkfs` makes, `bget` does.
-/

namespace Xv6

open Transition Function

variable {ι : Type*} [DecidableEq ι]

/-! ## §1  Operations and transactions of a history -/

/-- A change of a block, with the number of its operation and of the
transaction that was open. -/
structure LogWrite where
  op : Nat
  txn : Nat
  block : Nat
  data : Block

/-- What a history says: the open transaction, the number of operations begun,
the operation each process is in, all changes in order, and the transactions
whose header reached the disk. -/
structure LogHistory (ι : Type*) where
  txn : Nat
  ops : Nat
  op : ι → Nat
  writes : List LogWrite
  committed : List Nat

def LogHistory.record (g : LogHistory ι) : LogEvent ι → LogHistory ι
  | .beginOp p => { g with op := update g.op p g.ops, ops := g.ops + 1 }
  | .modify p b v => { g with writes := g.writes ++ [⟨g.op p, g.txn, b, v⟩] }
  | .header _ => { g with committed := g.committed ++ [g.txn], txn := g.txn + 1 }
  | .crash => { g with txn := g.txn + 1 }
  | _ => g

def logHistory (es : List (LogEvent ι)) : LogHistory ι :=
  es.foldl LogHistory.record ⟨0, 0, fun _ => 0, [], []⟩

theorem logHistory_snoc (es : List (LogEvent ι)) (e : LogEvent ι) :
    logHistory (es ++ [e]) = (logHistory es).record e := by
  rw [logHistory, List.foldl_append]
  rfl

/-- The changes made to a disk, one after the other. -/
def replay (d : Disk) (ws : List LogWrite) : Disk :=
  ws.foldl (fun d w => update d w.block w.data) d

/-- The result of the operations of the committed transactions. -/
def committedView (d : Disk) (g : LogHistory ι) : Disk :=
  replay d (g.writes.filter fun w => w.txn ∈ g.committed)

/-- The same with the open transaction. -/
def currentView (d : Disk) (g : LogHistory ι) : Disk :=
  replay d (g.writes.filter fun w => w.txn ∈ g.committed ∨ w.txn = g.txn)

/-- Transactions are numbered in order, and the changes of one operation
belong to one transaction. -/
structure HistoryOK (g : LogHistory ι) (s : LogState ι) : Prop where
  past : ∀ t ∈ g.committed, t < g.txn
  le : ∀ w ∈ g.writes, w.txn ≤ g.txn
  begun : ∀ w ∈ g.writes, w.op < g.ops
  now : ∀ p, (s.loc p).inOp = true → g.op p < g.ops ∧
    ∀ w ∈ g.writes, w.op = g.op p → w.txn = g.txn
  whole : ∀ w ∈ g.writes, ∀ w' ∈ g.writes, w.op = w'.op → w.txn = w'.txn

section History

variable {g : LogHistory ι} {s : LogState ι} (h : HistoryOK g s)

include h

theorem HistoryOK.committedView (d : Disk) (e : LogEvent ι) :
    committedView d (g.record e) = nextCommitted (Xv6.committedView d g) (currentView d g) e := by
  cases e with
  | modify p b v =>
    have hfresh : g.txn ∉ g.committed := fun hmem => Nat.lt_irrefl _ (h.past _ hmem)
    simp only [LogHistory.record, Xv6.committedView, nextCommitted]
    rw [List.filter_append, List.filter_cons_of_neg (by simp [hfresh]), List.filter_nil,
      List.append_nil]
    rfl
  | header p =>
    simp [LogHistory.record, Xv6.committedView, nextCommitted, currentView]
  | _ => rfl

theorem HistoryOK.currentView (d : Disk) (e : LogEvent ι) :
    currentView d (g.record e) = nextCurrent (Xv6.committedView d g) (Xv6.currentView d g) e := by
  -- a transaction that has just begun has no changes yet
  have hnext : ∀ w ∈ g.writes, w.txn ≠ g.txn + 1 := fun w hw => by
    have := h.le w hw
    omega
  cases e with
  | modify p b v =>
    simp only [LogHistory.record, Xv6.currentView, nextCurrent]
    rw [List.filter_append, List.filter_cons_of_pos (by simp), List.filter_nil, replay,
      List.foldl_append]
    rfl
  | header p =>
    simp only [LogHistory.record, Xv6.currentView, nextCurrent]
    refine congrArg _ (List.filter_congr fun w hw => ?_)
    simp [hnext w hw]
  | crash =>
    simp only [LogHistory.record, Xv6.currentView, nextCurrent, Xv6.committedView]
    refine congrArg _ (List.filter_congr fun w hw => ?_)
    simp [hnext w hw]
  | _ => rfl

omit [DecidableEq ι] in
/-- A step that begins no operation and changes no block. -/
theorem HistoryOK.kept {s' : LogState ι}
    (hin : ∀ p, (s'.loc p).inOp = true → (s.loc p).inOp = true) : HistoryOK g s' :=
  { h with now := fun p hp => h.now p (hin p hp) }

end History

/-- **Step.** -/
theorem HistoryOK.step {A : LogArea} {g : LogHistory ι} {s s' : LogState ι}
    {e : LogEvent ι} (h : HistoryOK g s) (hphase : LogPhase s)
    (hs : logNext A s e = some s') : HistoryOK (g.record e) s' := by
  have hmove : ∀ {s₁ : LogState ι} {p : ι} {l : LogLoc}, s₁.loc = s.loc →
      (l.inOp = true → (s.loc p).inOp = true) →
      ∀ q, ((s₁.move p l).loc q).inOp = true → (s.loc q).inOp = true := by
    intro s₁ p l hloc hl q hq
    by_cases hqp : q = p
    · rw [hqp] at hq ⊢
      exact hl (by simpa [LogState.move] using hq)
    · simpa [LogState.move, hqp, hloc] using hq
  cases e with
  | beginOp p =>
    obtain ⟨-, -, -, -, rfl⟩ := logNext_beginOp hs
    refine ⟨h.past, h.le, fun w hw => Nat.lt_succ_of_lt (h.begun w hw), fun q hq => ?_, h.whole⟩
    by_cases hqp : q = p
    · subst hqp
      simp only [LogHistory.record, update_self]
      refine ⟨Nat.lt_succ_self _, fun w hw heq => ?_⟩
      have := h.begun w hw
      omega
    · have := h.now q (by simpa [LogState.move, hqp] using hq)
      simp only [LogHistory.record, update_of_ne hqp]
      exact ⟨Nat.lt_succ_of_lt this.1, this.2⟩
  | modify p b v =>
    obtain ⟨hloc, rfl⟩ := logNext_modify hs
    have hp := h.now p (by rw [hloc]; rfl)
    have hnew : ∀ w ∈ g.writes ++ [⟨g.op p, g.txn, b, v⟩], w ∈ g.writes ∨
        w = ⟨g.op p, g.txn, b, v⟩ := by
      simp
    refine ⟨h.past, fun w hw => ?_, fun w hw => ?_, fun q hq => ?_, fun w hw w' hw' heq => ?_⟩
    · rcases hnew w hw with hw | rfl
      · exact h.le w hw
      · exact Nat.le_refl _
    · rcases hnew w hw with hw | rfl
      · exact h.begun w hw
      · exact hp.1
    · have hq' := h.now q (hmove (p := p) (l := .modified b) (rfl : s.loc = s.loc)
        (fun _ => by rw [hloc]; rfl) q hq)
      refine ⟨hq'.1, fun w hw heq => ?_⟩
      rcases hnew w hw with hw | rfl
      · exact hq'.2 w hw heq
      · rfl
    · rcases hnew w hw with hw | rfl <;> rcases hnew w' hw' with hw' | rfl
      · exact h.whole w hw w' hw' heq
      · exact hp.2 w hw heq
      · exact (hp.2 w' hw' heq.symm).symm
      · rfl
  | check p b =>
    obtain ⟨hloc, -, rfl⟩ := logNext_check hs
    exact h.kept (hmove rfl fun _ => by rw [hloc]; rfl)
  | append p b =>
    obtain ⟨hloc, rfl⟩ := logNext_append hs
    exact h.kept (hmove rfl fun _ => by rw [hloc]; rfl)
  | endOp p =>
    obtain ⟨-, ⟨-, rfl⟩ | ⟨-, rfl⟩⟩ := logNext_endOp hs
    · exact h.kept (hmove rfl fun hl => by cases hl)
    · exact h.kept (hmove rfl fun hl => by cases hl)
  | commit p =>
    have hnone := ((hphase.committing_of_loc (commits_of_commitStep hs)).step hs).inOp_eq
    exact h.kept fun q hq => absurd hq (by simp [hnone q])
  | header p =>
    obtain ⟨hloc, -, rfl⟩ := logNext_header hs
    have hcom := hphase.committing_of_loc (p := p) (by rw [hloc]; rfl)
    have hnone := (hcom.moved (l := .install 0) (rfl : (s.putHead A).booting = _) rfl rfl rfl rfl
      (by simp [LogLoc.cleared])).inOp_eq
    refine ⟨fun t ht => ?_, fun w hw => Nat.le_succ_of_le (h.le w hw), h.begun,
      fun q hq => absurd hq (by simp [hnone q]), h.whole⟩
    rcases List.mem_append.mp ht with ht | ht
    · exact Nat.lt_succ_of_lt (h.past t ht)
    · rw [List.mem_singleton.mp ht]
      exact Nat.lt_succ_self _
  | finish p =>
    obtain ⟨-, rfl⟩ := logNext_finish hs
    exact h.kept (hmove rfl fun hl => by cases hl)
  | crash =>
    cases hs
    refine ⟨fun t ht => Nat.lt_succ_of_lt (h.past t ht),
      fun w hw => Nat.le_succ_of_le (h.le w hw), h.begun, fun p hp => ?_, h.whole⟩
    cases hp
  | boot =>
    have hloc : s'.loc = s.loc := by
      obtain ⟨-, rfl⟩ | ⟨_, _, -, -, rfl⟩ | ⟨_, -, -, rfl⟩ | ⟨-, rfl⟩ := bootStep_cases hs <;> rfl
    exact h.kept fun p hp => by rwa [hloc] at hp

/-! ## §2  Crash and recovery -/

/-- The log in every state of a run, beside the two views of its history. -/
theorem logInv_run {A : LogArea} {d₀ : Disk} (hA : 1 ≤ A.size) (hd : readHead (d₀ A.start) = [])
    {es : List (LogEvent ι)} {s : LogState ι}
    (hrun : ((logSystem A).guarded (LogFits A)).Run (.restart d₀) es s) :
    LogInv A (committedView d₀ (logHistory es)) (currentView d₀ (logHistory es)) s ∧
      HistoryOK (logHistory es) s := by
  refine hrun.history (I := fun es s =>
    LogInv A (committedView d₀ (logHistory es)) (currentView d₀ (logHistory es)) s ∧
      HistoryOK (logHistory es) s) (fun es s e s' h hs => ?_) ⟨?_, ?_⟩
  · rw [logHistory_snoc, h.2.committedView, h.2.currentView]
    exact ⟨h.1.step hs, h.2.step h.1.toPhase hs.2⟩
  · exact .booting .readHead
      { booting_restart d₀ with
        mirror := rfl, view := fun _ _ => rfl,
        disk := ⟨[], hd, by simpa using hA, by simp, by simp, fun _ _ _ => rfl⟩ }
  · exact ⟨by simp [logHistory], by simp [logHistory], by simp [logHistory],
      fun p hp => (by cases hp), by simp [logHistory]⟩

/-- The loop of `install_trans` during recovery, to its end. -/
theorem run_install {A : LogArea} {g : LogState ι → LogEvent ι → Prop}
    (hg : ∀ s, g s .boot) : ∀ {bs : List Nat} {i : Nat} {s : LogState ι},
    s.booting = some (.install i) → s.cache = s.disk → s.lh.drop i = bs →
    ∃ es s', ((logSystem A).guarded g).Run s es s' ∧ s'.booting = some .clearHead ∧ s'.lh = [] ∧
      s'.cache = s'.disk ∧ s'.disk = installFrom A s.disk i bs
  | [], i, s, hboot, hmirror, hbs => by
    have hnone : s.lh[i]? = none := List.getElem?_eq_none_iff.mpr (by simpa using hbs)
    refine ⟨[.boot], { s with lh := [], booting := some .clearHead }, .single ⟨hg s, ?_⟩, rfl, rfl,
      hmirror, rfl⟩
    change bootStep A s = _
    rw [bootStep, hboot]
    simp only [hnone]
  | b :: bs, i, s, hboot, hmirror, hbs => by
    have hi : s.lh[i]? = some b := by
      have := congrArg (fun l => l[0]?) hbs
      simpa using this
    have hrest : s.lh.drop (i + 1) = bs := by
      rw [← List.drop_drop, hbs]
      rfl
    have hstep : ((logSystem A).guarded g).step s .boot
        { s.installBlock A i b with booting := some (.install (i + 1)) } := by
      refine ⟨hg s, ?_⟩
      change bootStep A s = _
      rw [bootStep, hboot]
      simp only [hi]
    obtain ⟨es, s', hrun, hboot', hnil, hmirror', hdisk⟩ := run_install (A := A) hg
      (s := { s.installBlock A i b with booting := some (.install (i + 1)) }) rfl
      (by simp only [LogState.installBlock, LogState.bwrite, hmirror]) hrest
    refine ⟨_, s', (System.Run.single hstep).append hrun, hboot', hnil, hmirror', ?_⟩
    rw [hdisk, installFrom]
    simp only [LogState.installBlock, LogState.bwrite, hmirror]

/-- **Recovery ends**, with the disk that `recover` says. -/
theorem run_recover (A : LogArea) {g : LogState ι → LogEvent ι → Prop} (hg : ∀ s, g s .boot)
    (d : Disk) : ∃ es s', ((logSystem A).guarded g).Run (.restart d) es s' ∧
      s'.booting = none ∧ s'.disk = recover A d := by
  let s₁ : LogState ι := { LogState.restart d with
    lh := readHead (d A.start), booting := some (.install 0) }
  have hfirst : ((logSystem A).guarded g).step (.restart d) .boot s₁ := ⟨hg _, rfl⟩
  obtain ⟨es, s₂, hrun, hboot, hnil, hmirror, hdisk⟩ := run_install (A := A) hg (s := s₁) rfl rfl rfl
  have hlast : ((logSystem A).guarded g).step s₂ .boot { s₂.putHead A with booting := none } := by
    refine ⟨hg _, ?_⟩
    change bootStep A s₂ = _
    rw [bootStep, hboot]
  refine ⟨_, _, ((System.Run.single hfirst).append hrun).snoc hlast, rfl, ?_⟩
  change update s₂.disk A.start (writeHead (s₂.cache A.start) s₂.lh) = _
  rw [hmirror, hnil, hdisk]
  rfl

/-- **All or nothing.** In every state of every run, crashes and recoveries
included: recovery from the disk as it is ends, and outside the log it gives
the result of the operations of the committed transactions; an operation
belongs to one transaction; and nobody is in an operation during a commit. -/
theorem recover_committed {A : LogArea} {d₀ : Disk} (hA : 1 ≤ A.size)
    (hd : readHead (d₀ A.start) = []) {es : List (LogEvent ι)} {s : LogState ι}
    (hrun : ((logSystem A).guarded (LogFits A)).Run (.restart d₀) es s) :
    (∀ b, ¬ A.inside b → recover A s.disk b = committedView d₀ (logHistory es) b) ∧
    (∃ fs s', ((logSystem A).guarded (LogFits A)).Run (LogState.restart (ι := ι) s.disk) fs s' ∧
      s'.booting = none ∧ s'.disk = recover A s.disk) ∧
    (∀ w ∈ (logHistory es).writes, ∀ w' ∈ (logHistory es).writes, w.op = w'.op → w.txn = w'.txn) ∧
    (s.committing = true → s.outstanding = 0 ∧ ∀ p, (s.loc p).inOp = false) := by
  obtain ⟨hinv, hhist⟩ := logInv_run hA hd hrun
  obtain ⟨hd, hlog⟩ := hinv.recovers
  refine ⟨hlog.recover.2, run_recover A (fun _ => trivial) s.disk, hhist.whole, fun hcom => ?_⟩
  cases hinv.toPhase with
  | booting r h => exact absurd (h.committing.symm.trans hcom) (by simp)
  | opened h => exact absurd (h.committing.symm.trans hcom) (by simp)
  | committing q h => exact ⟨h.outstanding, h.inOp_eq⟩

/-- The log area that `mkfs` makes, and a disk of zeros. -/
def mkfsLog : LogArea := ⟨2, logSize⟩

def zeros : Disk := fun _ _ => 0

def ones : Block := fun _ => 1

/-- Process `p` changes block `b` and calls `log_write`. -/
def logged (p : ι) (b : Nat) : List (LogEvent ι) := [.modify p b ones, .check p b, .append p b]

/-- One operation that changes one block, up to the header of its commit. -/
def oneCommit : List (LogEvent (Fin 1)) :=
  [.boot, .boot, .boot, .beginOp 0] ++ logged 0 100 ++
    [.endOp 0, .commit 0, .commit 0, .commit 0, .header 0]

theorem recover_committed_oneCommit : ∃ s : LogState (Fin 1),
    ((logSystem mkfsLog).guarded (LogFits mkfsLog)).Run (.restart zeros) oneCommit s ∧
    recover mkfsLog s.disk 100 = committedView zeros (logHistory oneCommit) 100 ∧
    committedView zeros (logHistory oneCommit) 100 0 = 1 := by
  have hsome : (oneCommit.foldlM (System.guardedNext (logNext mkfsLog) (LogFits mkfsLog))
      (.restart zeros)).isSome = true := by
    decide +kernel
  obtain ⟨s, hs⟩ := Option.isSome_iff_exists.mp hsome
  have hrun := System.run_ofNext hs
  exact ⟨s, hrun, (recover_committed (by decide) (by decide +kernel) hrun).1 100 (by decide), rfl⟩

/-- A log area of 20 blocks. -/
def shortLog : LogArea := ⟨2, 20⟩

/-- Two operations note 18 blocks; then both find room for one block more, before
either notes its own, and the last one commits. -/
def overfull : List (LogEvent (Fin 2)) :=
  [.boot, .boot, .boot, .beginOp 0, .beginOp 1] ++
    (List.range 9).flatMap (fun i => logged 0 (100 + i)) ++
    (List.range 9).flatMap (fun i => logged 1 (110 + i)) ++
    [.modify 0 109 ones, .modify 1 119 ones, .check 0 109, .check 1 119, .append 0 109,
      .append 1 119, .endOp 0, .endOp 1] ++
    List.replicate 21 (.commit 1)

/-- Without that condition a commit may copy a block to the one behind the
log before its header is on the disk. -/
theorem recover_overfull : ¬ ∀ (A : LogArea) (d₀ : Disk) (es : List (LogEvent (Fin 2)))
    (s : LogState (Fin 2)), 1 ≤ A.size → readHead (d₀ A.start) = [] →
    ((logSystem A).guarded (HomeWrites A)).Run (.restart d₀) es s →
    ∀ b, ¬ A.inside b → recover A s.disk b = committedView d₀ (logHistory es) b := by
  intro hall
  have hend : (overfull.foldlM (System.guardedNext (logNext shortLog) (HomeWrites shortLog))
      (.restart zeros)).map (fun s => recover shortLog s.disk 22 0) = some 1 := by
    decide +kernel
  obtain ⟨s, hs, hval⟩ := Option.map_eq_some_iff.mp hend
  have := hall shortLog zeros overfull s (by decide) (by decide +kernel) (System.run_ofNext hs)
    22 (by decide)
  have hzero : committedView zeros (logHistory overfull) 22 0 = 0 := by decide +kernel
  rw [this, hzero] at hval
  exact absurd hval (by decide)

end Xv6
