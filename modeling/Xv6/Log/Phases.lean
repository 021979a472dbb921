import Xv6.Log.Log

/-!
# The phases of the log

Whatever is on the disk, the log is in one of three phases: a recovery with
nobody about, operations with no commit under way, or one process that commits
while everybody else waits. What the disk holds in each of them is a matter of
`Recover`, how many blocks the operations may note one of `Room`.
-/

namespace Xv6

open Transition

/-- Between `begin_op` and `end_op`. -/
def LogLoc.inOp : LogLoc → Bool
  | .op | .modified _ | .checked _ => true
  | _ => false

/-- The block a process has changed and not yet noted in the log. -/
def LogLoc.inHand : LogLoc → Option Nat
  | .modified b | .checked b => some b
  | _ => none

/-- In the commit of the last `end_op`. -/
def LogLoc.commits : LogLoc → Bool
  | .commit | .writeLog _ | .writeHead | .install _ | .clearHead | .finish => true
  | _ => false

/-- Behind `log.lh.n = 0`. -/
def LogLoc.cleared : LogLoc → Bool
  | .clearHead | .finish => true
  | _ => false

variable {ι : Type*}

structure Booting (s : LogState ι) (r : Recovery) : Prop where
  booting : s.booting = some r
  idle : ∀ p, s.loc p = .idle
  outstanding : s.outstanding = 0
  committing : s.committing = false
  nil : (∀ tail, r ≠ .install tail) → s.lh = []

structure Opened (s : LogState ι) : Prop where
  booting : s.booting = none
  committing : s.committing = false
  quiet : ∀ p, s.loc p = .idle ∨ (s.loc p).inOp = true
  ops : ∃ P : Finset ι, (∀ p, p ∈ P ↔ (s.loc p).inOp = true) ∧ P.card = s.outstanding
  empty : s.outstanding = 0 → s.lh = []

structure Committing (s : LogState ι) (q : ι) : Prop where
  booting : s.booting = none
  committing : s.committing = true
  outstanding : s.outstanding = 0
  others : ∀ p, p ≠ q → s.loc p = .idle
  commits : (s.loc q).commits = true
  nil : (s.loc q).cleared = true → s.lh = []

inductive LogPhase (s : LogState ι) : Prop where
  | booting (r : Recovery) (h : Booting s r)
  | opened (h : Opened s)
  | committing (q : ι) (h : Committing s q)

theorem Booting.inOp_eq {s : LogState ι} {r : Recovery} (h : Booting s r) (p : ι) :
    (s.loc p).inOp = false := by
  rw [h.idle p]
  rfl

theorem LogLoc.inOp_of_commits {l : LogLoc} (h : l.commits = true) : l.inOp = false := by
  cases l <;> first | rfl | cases h

theorem booting_restart (d : Disk) : Booting (LogState.restart (ι := ι) d) .readHead :=
  ⟨rfl, fun _ => rfl, rfl, rfl, fun _ => rfl⟩

variable [DecidableEq ι] {A : LogArea} {s s' : LogState ι} {p : ι}

theorem Committing.inOp_eq {q : ι} (h : Committing s q) (p : ι) : (s.loc p).inOp = false := by
  by_cases hp : p = q
  · rw [hp]
    exact LogLoc.inOp_of_commits h.commits
  · rw [h.others p hp]
    rfl

/-! ## §1  Operations -/

theorem Opened.quiet_move (h : Opened s) {l : LogLoc} (hl : l = .idle ∨ l.inOp = true) (q : ι) :
    (s.move p l).loc q = .idle ∨ ((s.move p l).loc q).inOp = true :=
  (Function.forall_update_iff s.loc fun _ l => l = .idle ∨ l.inOp = true).mpr
    ⟨hl, fun q _ => h.quiet q⟩ q

theorem Opened.beginOp (h : Opened s) (hloc : s.loc p = .idle) :
    Opened ({ s with outstanding := s.outstanding + 1 }.move p .op) := by
  obtain ⟨P, hP, hcard⟩ := h.ops
  have hp : p ∉ P := by
    rw [hP p, hloc]
    simp [LogLoc.inOp]
  refine ⟨h.booting, h.committing, h.quiet_move (.inr rfl), ⟨insert p P, fun q => ?_, ?_⟩, ?_⟩
  · by_cases hq : q = p
    · simp [LogState.move, hq, LogLoc.inOp]
    · simpa [LogState.move, hq] using hP q
  · rw [Finset.card_insert_of_notMem hp, hcard]
    rfl
  · simp [LogState.move]

/-- A process in an operation moves on in it. -/
theorem Opened.moveOp (h : Opened s) (hp : (s.loc p).inOp = true) {l : LogLoc}
    (hl : l.inOp = true) {cache : Disk} {lh : List Nat} :
    Opened ({ s with cache := cache, lh := lh }.move p l) := by
  obtain ⟨P, hP, hcard⟩ := h.ops
  refine ⟨h.booting, h.committing, h.quiet_move (.inr hl), ⟨P, fun q => ?_, hcard⟩, fun h0 => ?_⟩
  · by_cases hq : q = p
    · simpa [LogState.move, hq, hl, hp] using hP p
    · simpa [LogState.move, hq] using hP q
  · have hpos : 0 < P.card := Finset.card_pos.mpr ⟨p, (hP p).mpr hp⟩
    change s.outstanding = 0 at h0
    omega

/-- The end of an operation that is not the last one. -/
theorem Opened.endOp (h : Opened s) (hloc : s.loc p = .op) (hmany : s.outstanding ≠ 1) :
    Opened ({ s with outstanding := s.outstanding - 1 }.move p .idle) := by
  obtain ⟨P, hP, hcard⟩ := h.ops
  have hp : p ∈ P := (hP p).mpr (by rw [hloc]; rfl)
  have hpos : 0 < P.card := Finset.card_pos.mpr ⟨p, hp⟩
  refine ⟨h.booting, h.committing, h.quiet_move (.inl rfl), ⟨P.erase p, fun q => ?_, ?_⟩,
    fun h0 => ?_⟩
  · by_cases hq : q = p
    · simp [LogState.move, hq, LogLoc.inOp]
    · simpa [LogState.move, hq] using hP q
  · rw [Finset.card_erase_of_mem hp, hcard]
    rfl
  · change s.outstanding - 1 = 0 at h0
    omega

omit [DecidableEq ι] in
/-- Whoever ends the last operation is alone. -/
theorem Opened.alone (h : Opened s) (hloc : s.loc p = .op) (hone : s.outstanding = 1) (q : ι)
    (hq : q ≠ p) : s.loc q = .idle := by
  obtain ⟨P, hP, hcard⟩ := h.ops
  refine (h.quiet q).resolve_right fun hin => hq ?_
  exact Finset.card_le_one.mp (by omega) q ((hP q).mpr hin) p ((hP p).mpr (by rw [hloc]; rfl))

theorem Opened.lastOp (h : Opened s) (hloc : s.loc p = .op) (hone : s.outstanding = 1) :
    Committing ({ s with outstanding := 0, committing := true }.move p .commit) p := by
  refine ⟨h.booting, rfl, rfl, fun q hq => ?_, ?_, fun hl => ?_⟩
  · simpa [LogState.move, hq] using h.alone hloc hone q hq
  · simp [LogState.move, LogLoc.commits]
  · simp [LogState.move, LogLoc.cleared] at hl

/-! ## §2  Commit and recovery -/

/-- The committing process moves on, with the new memory `s'`. -/
theorem Committing.moved {q : ι} (h : Committing s q) {l : LogLoc}
    (hboot : s'.booting = s.booting) (hcom : s'.committing = s.committing)
    (hout : s'.outstanding = s.outstanding) (hloc : s'.loc = s.loc) (hl : l.commits = true)
    (hnil : l.cleared = true → s'.lh = []) : Committing (s'.move q l) q where
  booting := hboot.trans h.booting
  committing := hcom.trans h.committing
  outstanding := hout.trans h.outstanding
  others p hp := by
    simp only [LogState.move, Function.update_of_ne hp, hloc]
    exact h.others p hp
  commits := by simpa [LogState.move] using hl
  nil := by simpa [LogState.move] using hnil

theorem Committing.step {q : ι} (h : Committing s q) (hs : commitStep A s q = some s') :
    Committing s' q := by
  obtain ⟨-, rfl⟩ | ⟨tail, b, -, -, -, rfl⟩ | ⟨tail, -, -, rfl⟩ | ⟨tail, b, -, -, rfl⟩ |
    ⟨tail, -, -, rfl⟩ | ⟨hloc, rfl⟩ := commitStep_cases hs
  · refine h.moved rfl rfl rfl rfl ?_ fun hl => ?_
    · split <;> rfl
    · split at hl
      · assumption
      · cases hl
  · exact h.moved rfl rfl rfl rfl rfl (by simp [LogLoc.cleared])
  · exact h.moved rfl rfl rfl rfl rfl (by simp [LogLoc.cleared])
  · exact h.moved rfl rfl rfl rfl rfl (by simp [LogLoc.cleared])
  · exact h.moved rfl rfl rfl rfl rfl fun _ => rfl
  · exact h.moved rfl rfl rfl rfl rfl fun _ => h.nil (by rw [hloc]; rfl)

theorem Committing.idle_finish {q : ι} (h : Committing s q) (p : ι) :
    ({ s with committing := false }.move q .idle).loc p = .idle := by
  by_cases hp : p = q
  · simp [LogState.move, hp]
  · simpa [LogState.move, hp] using h.others p hp

/-- A commit that is over. -/
theorem Committing.finish {q : ι} (h : Committing s q) (hloc : s.loc q = .finish) :
    Opened ({ s with committing := false }.move q .idle) := by
  refine ⟨h.booting, rfl, fun p => .inl (h.idle_finish p),
    ⟨∅, fun p => ?_, h.outstanding.symm⟩, fun _ => h.nil (by rw [hloc]; rfl)⟩
  rw [h.idle_finish p]
  simp [LogLoc.inOp]

omit [DecidableEq ι] in
/-- Recovery is over. -/
theorem Booting.opened (h : Booting s .clearHead) : Opened { s.putHead A with booting := none } := by
  refine ⟨rfl, h.committing, fun p => .inl (h.idle p), ⟨∅, fun p => ?_, h.outstanding.symm⟩,
    fun _ => h.nil (by simp)⟩
  change _ ↔ (s.loc p).inOp = true
  rw [h.inOp_eq p]
  simp

omit [DecidableEq ι] in
theorem Booting.step {r : Recovery} (h : Booting s r) (hs : bootStep A s = some s') :
    LogPhase s' := by
  obtain ⟨-, rfl⟩ | ⟨tail, b, -, -, rfl⟩ | ⟨tail, -, -, rfl⟩ | ⟨hboot, rfl⟩ := bootStep_cases hs
  · exact .booting _ { h with booting := rfl, nil := fun hr => absurd rfl (hr 0) }
  · exact .booting _ { h with booting := rfl, nil := fun hr => absurd rfl (hr (tail + 1)) }
  · exact .booting _ { h with booting := rfl, nil := fun _ => rfl }
  · obtain rfl : r = .clearHead := Option.some.inj (h.booting.symm.trans hboot)
    exact .opened h.opened

/-! ## §3  Steps -/

/-- A process is in an operation only while the log is open. -/
theorem LogPhase.opened_of_inOp (h : LogPhase s) (hp : (s.loc p).inOp = true) : Opened s := by
  cases h with
  | booting r h =>
    rw [h.inOp_eq p] at hp
    cases hp
  | opened h => exact h
  | committing q h =>
    rw [h.inOp_eq p] at hp
    cases hp

/-- A process in a commit is the only one that is not idle. -/
theorem LogPhase.committing_of_loc (h : LogPhase s) (hp : (s.loc p).commits = true) :
    Committing s p := by
  cases h with
  | booting r h =>
    rw [h.idle p] at hp
    cases hp
  | opened h =>
    rcases h.quiet p with hloc | hin
    · rw [hloc] at hp
      cases hp
    · rw [LogLoc.inOp_of_commits hp] at hin
      cases hin
  | committing q h =>
    by_cases hpq : p = q
    · exact hpq ▸ h
    · rw [h.others p hpq] at hp
      cases hp

omit [DecidableEq ι] in
theorem LogPhase.opened_of_admits (h : LogPhase s) (hboot : s.booting = none)
    (hcom : s.committing = false) : Opened s := by
  cases h with
  | booting r h =>
    rw [h.booting] at hboot
    cases hboot
  | opened h => exact h
  | committing q h =>
    rw [h.committing] at hcom
    cases hcom

omit [DecidableEq ι] in
theorem LogPhase.booting_of_boot (h : LogPhase s) (hs : bootStep A s = some s') :
    ∃ r, Booting s r := by
  cases h with
  | booting r h => exact ⟨r, h⟩
  | opened h =>
    rw [bootStep, h.booting] at hs
    cases hs
  | committing q h =>
    rw [bootStep, h.booting] at hs
    cases hs

theorem commits_of_commitStep (hs : commitStep A s p = some s') : (s.loc p).commits = true := by
  obtain ⟨hloc, -⟩ | ⟨tail, b, hloc, -⟩ | ⟨tail, hloc, -⟩ | ⟨tail, b, hloc, -⟩ |
    ⟨tail, hloc, -⟩ | ⟨hloc, -⟩ := commitStep_cases hs <;> rw [hloc] <;> rfl

/-- **Step.** -/
theorem LogPhase.step {e : LogEvent ι} (h : LogPhase s) (hs : logNext A s e = some s') :
    LogPhase s' := by
  cases e with
  | beginOp p =>
    obtain ⟨hboot, hloc, hcom, -, rfl⟩ := logNext_beginOp hs
    exact .opened ((h.opened_of_admits hboot hcom).beginOp hloc)
  | modify p b v =>
    obtain ⟨hloc, rfl⟩ := logNext_modify hs
    have hin : (s.loc p).inOp = true := by rw [hloc]; rfl
    exact .opened ((h.opened_of_inOp hin).moveOp hin rfl)
  | check p b =>
    obtain ⟨hloc, -, rfl⟩ := logNext_check hs
    have hin : (s.loc p).inOp = true := by rw [hloc]; rfl
    exact .opened ((h.opened_of_inOp hin).moveOp hin rfl)
  | append p b =>
    obtain ⟨hloc, rfl⟩ := logNext_append hs
    have hin : (s.loc p).inOp = true := by rw [hloc]; rfl
    exact .opened ((h.opened_of_inOp hin).moveOp hin rfl)
  | endOp p =>
    obtain ⟨hloc, ⟨hone, rfl⟩ | ⟨hmany, rfl⟩⟩ := logNext_endOp hs
    · have hin : (s.loc p).inOp = true := by rw [hloc]; rfl
      exact .committing p ((h.opened_of_inOp hin).lastOp hloc hone)
    · have hin : (s.loc p).inOp = true := by rw [hloc]; rfl
      exact .opened ((h.opened_of_inOp hin).endOp hloc hmany)
  | commit p =>
    exact .committing p ((h.committing_of_loc (commits_of_commitStep hs)).step hs)
  | header p =>
    obtain ⟨hloc, -, rfl⟩ := logNext_header hs
    have hcom := h.committing_of_loc (p := p) (by rw [hloc]; rfl)
    exact .committing p (hcom.moved rfl rfl rfl rfl rfl (by simp [LogLoc.cleared]))
  | finish p =>
    obtain ⟨hloc, rfl⟩ := logNext_finish hs
    exact .opened ((h.committing_of_loc (p := p) (by rw [hloc]; rfl)).finish hloc)
  | crash =>
    cases hs
    exact .booting _ (booting_restart _)
  | boot =>
    obtain ⟨r, hboot⟩ := h.booting_of_boot hs
    exact hboot.step hs

end Xv6
