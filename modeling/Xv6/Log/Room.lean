import Xv6.Log.Crash
import Xv6.Library.Tally

/-!
# Room in the log

`begin_op` sets `MAXOPBLOCKS` blocks of `LOGSIZE` aside for each operation, but
the log that `mkfs` makes holds `LOGSIZE - 1`, as its header takes one block.
Three operations that use all that was set aside for them fill the log one
block too far. With one block less for each the test of `log_write` never
fails.
-/

namespace Xv6

open Transition Function

variable {ι : Type*} [DecidableEq ι]

/-! ## §1  The blocks of a history -/

/-- What a history says: the blocks noted in the open transaction, and for
each process the blocks that its operation has called `log_write` on and those
it has noted. -/
structure LogBlocks (ι : Type*) where
  txn : Finset Nat
  called : ι → Finset Nat
  noted : ι → Finset Nat

def LogBlocks.record (g : LogBlocks ι) : LogEvent ι → LogBlocks ι
  | .beginOp p =>
    { g with called := update g.called p ∅, noted := update g.noted p ∅ }
  | .modify p b _ => { g with called := update g.called p (insert b (g.called p)) }
  | .append p b =>
    { g with txn := insert b g.txn, noted := update g.noted p (insert b (g.noted p)) }
  | .finish _ => { g with txn := ∅ }
  | .crash => { g with txn := ∅ }
  | _ => g

def logBlocks (es : List (LogEvent ι)) : LogBlocks ι :=
  es.foldl LogBlocks.record ⟨∅, fun _ => ∅, fun _ => ∅⟩

theorem logBlocks_snoc (es : List (LogEvent ι)) (e : LogEvent ι) :
    logBlocks (es ++ [e]) = (logBlocks es).record e := by
  rw [logBlocks, List.foldl_append]
  rfl

/-- No operation calls `log_write` on more than `k` blocks. -/
def OpsWithin (k : Nat) (es : List (LogEvent ι)) : Prop :=
  ∀ fs, fs <+: es → ∀ p, ((logBlocks fs).called p).card ≤ k

instance [Fintype ι] (k : Nat) (es : List (LogEvent ι)) : Decidable (OpsWithin k es) :=
  decidable_of_iff (∀ fs ∈ es.inits, ∀ p, ((logBlocks fs).called p).card ≤ k)
    (by simp only [List.mem_inits, OpsWithin])

theorem OpsWithin.of_snoc {k : Nat} {es : List (LogEvent ι)} {e : LogEvent ι}
    (h : OpsWithin k (es ++ [e])) : OpsWithin k es :=
  fun fs hfs => h fs (hfs.trans (List.prefix_append es [e]))

/-! ## §2  The header lists the blocks of the transaction -/

structure RoomInv (g : LogBlocks ι) (s : LogState ι) : Prop where
  phase : LogPhase s
  hand : ∀ p b, (s.loc p).inHand = some b → b ∈ g.called p
  noted : ∀ p, (s.loc p).inOp = true → g.noted p ⊆ g.called p ∧ g.noted p ⊆ g.txn
  lh : s.booting = none → s.committing = false → s.lh.Nodup ∧ s.lh.toFinset = g.txn
  booting : s.booting ≠ none → g.txn = ∅

section Step

variable {A : LogArea} {g : LogBlocks ι} {s s' : LogState ι}

theorem nodup_absorb {lh : List Nat} (h : lh.Nodup) (b : Nat) : (absorb lh b).Nodup := by
  rw [absorb]
  split
  · exact h
  · rename_i hb
    rw [List.nodup_append]
    exact ⟨h, List.nodup_singleton b, fun c hc d hd heq =>
      hb (by rw [← List.mem_singleton.mp hd, ← heq]; exact hc)⟩

theorem toFinset_absorb (lh : List Nat) (b : Nat) :
    (absorb lh b).toFinset = insert b lh.toFinset := by
  ext c
  rw [List.mem_toFinset, mem_absorb, Finset.mem_insert, List.mem_toFinset, or_comm]

omit [DecidableEq ι] in
/-- With nobody in an operation only the header counts. -/
theorem RoomInv.of_quiet {g : LogBlocks ι} (hphase : LogPhase s)
    (hidle : ∀ p, (s.loc p).inOp = false)
    (hlh : s.booting = none → s.committing = false → s.lh = [] ∧ g.txn = ∅)
    (hboot : s.booting ≠ none → g.txn = ∅) : RoomInv g s := by
  refine ⟨hphase, fun p b hb => ?_, fun p hp => ?_, fun hb hc => ?_, hboot⟩
  · have := hidle p
    cases hloc : s.loc p <;> rw [hloc] at hb this <;> first | cases hb; done | cases this
  · rw [hidle p] at hp
    cases hp
  · rw [(hlh hb hc).1, (hlh hb hc).2]
    exact ⟨List.nodup_nil, rfl⟩

/-- A process moves on; the others, and what they have noted, stay as they are. -/
theorem RoomInv.moved (h : RoomInv g s) {g' : LogBlocks ι} {p : ι} {l : LogLoc}
    (hphase : LogPhase (s'.move p l)) (hloc : s'.loc = s.loc)
    (hothers : ∀ q, q ≠ p → g'.called q = g.called q ∧ g'.noted q = g.noted q)
    (htxn : g.txn ⊆ g'.txn) (hhand : ∀ b, l.inHand = some b → b ∈ g'.called p)
    (hnoted : l.inOp = true → g'.noted p ⊆ g'.called p ∧ g'.noted p ⊆ g'.txn)
    (hlh : s'.booting = none → s'.committing = false → s'.lh.Nodup ∧ s'.lh.toFinset = g'.txn)
    (hboot : s'.booting ≠ none → g'.txn = ∅) : RoomInv g' (s'.move p l) := by
  have hself : (s'.move p l).loc p = l := update_self ..
  have hne : ∀ {q}, q ≠ p → (s'.move p l).loc q = s.loc q := fun hq =>
    (update_of_ne hq ..).trans (congrFun hloc _)
  refine ⟨hphase, fun q b hb => ?_, fun q hq => ?_, hlh, hboot⟩ <;> by_cases hqp : q = p
  · rw [hqp, hself] at hb
    exact hqp ▸ hhand b hb
  · rw [hne hqp] at hb
    exact (hothers q hqp).1 ▸ h.hand q b hb
  · rw [hqp, hself] at hq
    exact hqp ▸ hnoted hq
  · rw [hne hqp] at hq
    rw [(hothers q hqp).1, (hothers q hqp).2]
    exact ⟨(h.noted q hq).1, (h.noted q hq).2.trans htxn⟩

/-- **Step.** -/
theorem RoomInv.step {e : LogEvent ι} (h : RoomInv g s) (hs : logNext A s e = some s') :
    RoomInv (g.record e) s' := by
  have hphase' := h.phase.step hs
  have hsame : ∀ p q : ι, q ≠ p → g.called q = g.called q ∧ g.noted q = g.noted q :=
    fun _ _ _ => ⟨rfl, rfl⟩
  cases e with
  | beginOp p =>
    obtain ⟨-, -, -, -, rfl⟩ := logNext_beginOp hs
    exact h.moved hphase' rfl (fun q hq => by simp [LogBlocks.record, hq]) subset_rfl nofun
      (fun _ => by simp [LogBlocks.record]) h.lh h.booting
  | modify p b v =>
    obtain ⟨hloc, rfl⟩ := logNext_modify hs
    obtain ⟨hcalled, htxn⟩ := h.noted p (by rw [hloc]; rfl)
    refine h.moved hphase' rfl (fun q hq => by simp [LogBlocks.record, hq]) subset_rfl ?_ ?_ h.lh
      h.booting <;> simp only [LogBlocks.record, update_self]
    · rintro c ⟨⟩
      exact Finset.mem_insert_self ..
    · exact fun _ => ⟨hcalled.trans (Finset.subset_insert _ _), htxn⟩
  | check p b =>
    obtain ⟨hloc, -, rfl⟩ := logNext_check hs
    exact h.moved hphase' rfl (hsame p) subset_rfl (fun c hc => h.hand p c (by rw [hloc]; exact hc))
      (fun _ => h.noted p (by rw [hloc]; rfl)) h.lh h.booting
  | append p b =>
    obtain ⟨hloc, rfl⟩ := logNext_append hs
    obtain ⟨hcalled, htxn⟩ := h.noted p (by rw [hloc]; rfl)
    refine h.moved hphase' rfl (fun q hq => by simp [LogBlocks.record, hq])
      (Finset.subset_insert _ _) nofun (fun _ => ?_) (fun hboot hcom => ?_) fun hboot => ?_
    · simp only [LogBlocks.record, update_self]
      exact ⟨Finset.insert_subset (h.hand p b (by rw [hloc]; rfl)) hcalled,
        Finset.insert_subset_insert b htxn⟩
    · obtain ⟨hnodup, hset⟩ := h.lh hboot hcom
      refine ⟨nodup_absorb hnodup b, ?_⟩
      simp only [LogBlocks.record, toFinset_absorb, hset]
    · exact absurd (h.phase.opened_of_inOp (p := p) (by rw [hloc]; rfl)).booting hboot
  | endOp p =>
    obtain ⟨hloc, ⟨hone, rfl⟩ | ⟨-, rfl⟩⟩ := logNext_endOp hs
    · have hcom := (h.phase.opened_of_inOp (p := p) (by rw [hloc]; rfl)).lastOp hloc hone
      exact .of_quiet hphase' hcom.inOp_eq (fun _ hc => absurd hcom.committing (by simp [hc]))
        fun hb => absurd hcom.booting hb
    · exact h.moved hphase' rfl (hsame p) subset_rfl nofun nofun h.lh h.booting
  | commit p =>
    have hcom := (h.phase.committing_of_loc (commits_of_commitStep hs)).step hs
    exact .of_quiet hphase' hcom.inOp_eq (fun _ hc => absurd hcom.committing (by simp [hc]))
      fun hb => absurd hcom.booting hb
  | header p =>
    obtain ⟨hloc, -, rfl⟩ := logNext_header hs
    have hcom := (h.phase.committing_of_loc (p := p) (by rw [hloc]; rfl)).moved
      (l := .install 0) (rfl : (s.putHead A).booting = _) rfl rfl rfl rfl (by simp [LogLoc.cleared])
    exact .of_quiet hphase' hcom.inOp_eq (fun _ hc => absurd hcom.committing (by simp [hc]))
      fun hb => absurd hcom.booting hb
  | finish p =>
    obtain ⟨hloc, rfl⟩ := logNext_finish hs
    have hcom := h.phase.committing_of_loc (p := p) (by rw [hloc]; rfl)
    refine .of_quiet hphase' (fun q => ?_) (fun _ _ => ⟨hcom.nil (by rw [hloc]; rfl), rfl⟩)
      fun _ => rfl
    rw [hcom.idle_finish q]
    rfl
  | crash =>
    cases hs
    exact .of_quiet hphase' (fun _ => rfl) (fun _ _ => ⟨rfl, rfl⟩) fun _ => rfl
  | boot =>
    obtain ⟨r, hr⟩ := h.phase.booting_of_boot hs
    have htxn : g.txn = ∅ := h.booting (by rw [hr.booting]; simp)
    refine .of_quiet hphase' (fun q => ?_) (fun hb _ => ⟨?_, htxn⟩) fun _ => htxn
    · obtain ⟨-, rfl⟩ | ⟨_, _, -, -, rfl⟩ | ⟨_, -, -, rfl⟩ | ⟨-, rfl⟩ := bootStep_cases hs <;>
        exact hr.inOp_eq q
    · obtain ⟨-, rfl⟩ | ⟨_, _, -, -, rfl⟩ | ⟨_, -, -, rfl⟩ | ⟨hboot, rfl⟩ := bootStep_cases hs
      · cases hb
      · cases hb
      · rfl
      · obtain rfl := Option.some.inj (hr.booting.symm.trans hboot)
        exact hr.nil (by simp)

/-! ## §3  One block less -/

/-- Room for the blocks noted so far and for those still to come, when no
operation needs all that `begin_op` set aside for it. -/
def RoomLeft (g : LogBlocks ι) (s : LogState ι) : Prop :=
  s.booting = none → s.committing = false → ∀ P : Finset ι,
    (∀ p, p ∈ P ↔ (s.loc p).inOp = true) →
    s.lh.length + ∑ p ∈ P, (maxOpBlocks - 1 - (g.noted p).card) + 2 ≤ logSize

omit [DecidableEq ι] in
theorem RoomLeft.of_quiet (hidle : ∀ p, (s.loc p).inOp = false)
    (hlh : s.booting = none → s.committing = false → s.lh = []) : RoomLeft g s := by
  intro hboot hcom P hP
  have hempty : P = ∅ := by
    refine Finset.eq_empty_of_forall_notMem fun p hp => ?_
    have := (hP p).mp hp
    rw [hidle p] at this
    cases this
  rw [hlh hboot hcom, hempty, Finset.sum_empty]
  decide

omit [DecidableEq ι] in
theorem RoomLeft.of_committing {q : ι} (h : Committing s q) : RoomLeft g s :=
  fun _ hcom => absurd h.committing (by simp [hcom])

omit [DecidableEq ι] in
/-- Nobody begins or ends an operation and nothing is noted. -/
theorem RoomLeft.kept (h : RoomLeft g s) {g' : LogBlocks ι} (hnoted : g'.noted = g.noted)
    (hboot : s'.booting = s.booting) (hcom : s'.committing = s.committing) (hlh : s'.lh = s.lh)
    (hin : ∀ p, (s'.loc p).inOp = (s.loc p).inOp) : RoomLeft g' s' := by
  intro hb hc P hP
  rw [hlh, hnoted]
  refine h (hboot ▸ hb) (hcom ▸ hc) P fun p => ?_
  rw [hP p, hin p]

/-- `begin_op`: the first operation finds the log empty, and with more than
one of them each brings a block that it does not need. -/
theorem RoomLeft.beginOp {p : ι} (hopen : Opened s) (hloc : s.loc p = .idle)
    (hadm : s.lh.length + (s.outstanding + 1) * maxOpBlocks ≤ logSize) :
    RoomLeft g ({ s with outstanding := s.outstanding + 1 }.move p .op) := by
  intro _ _ P hP
  have hcard : P.card = s.outstanding + 1 := by
    obtain ⟨Q, hQ, hQcard⟩ := (hopen.beginOp hloc).ops
    have : P = Q := by
      ext q
      rw [hP q, hQ q]
    rw [this, hQcard]
    rfl
  have hsum := Finset.sum_le_card_nsmul P (fun q => maxOpBlocks - 1 - (g.noted q).card)
    (maxOpBlocks - 1) fun _ _ => Nat.sub_le ..
  rw [hcard, smul_eq_mul] at hsum
  simp only [LogState.move, maxOpBlocks, logSize] at *
  rcases Nat.eq_zero_or_pos s.outstanding with h0 | hpos
  · rw [h0] at hsum
    rw [hopen.empty h0, List.length_nil]
    omega
  · omega

/-- `end_op` gives back what was set aside. -/
theorem RoomLeft.endOp {p : ι} (h : RoomLeft g s) (hopen : Opened s) (hloc : s.loc p = .op)
    {n : Nat} : RoomLeft g ({ s with outstanding := n }.move p .idle) := by
  intro _ _ P hP
  have hp : p ∉ P := by
    rw [hP p]
    simp [LogState.move, LogLoc.inOp]
  have := h hopen.booting hopen.committing (insert p P) fun q => by
    by_cases hqp : q = p
    · rw [hqp, hloc]
      simp [LogLoc.inOp]
    · simpa [LogState.move, hqp] using hP q
  rw [Finset.sum_insert hp] at this
  simp only [LogState.move]
  omega

/-- `log_write` uses what was set aside: a block that is not in the log is one
that the operation has not noted before. -/
theorem RoomLeft.append {p : ι} {b : Nat} (h : RoomLeft g s) (hinv : RoomInv g s)
    (hloc : s.loc p = .checked b) (hfew : (g.called p).card < maxOpBlocks) :
    RoomLeft (g.record (.append p b)) ({ s with lh := absorb s.lh b }.move p .op) := by
  have hin : (s.loc p).inOp = true := by rw [hloc]; rfl
  have hopen := hinv.phase.opened_of_inOp hin
  intro _ _ P hP
  have hp : p ∈ P := (hP p).mpr (by simp [LogState.move, LogLoc.inOp])
  have hold := h hopen.booting hopen.committing P fun q => by
    by_cases hqp : q = p
    · rw [hqp]
      exact iff_of_true hp hin
    · simpa [LogState.move, hqp] using hP q
  have hchange := Tally.sum_change (s := P) (i := p)
    (f := fun q => maxOpBlocks - 1 - (g.noted q).card)
    (g := fun q => maxOpBlocks - 1 - ((g.record (.append p b)).noted q).card) hp
    fun q _ hqp => by simp [LogBlocks.record, hqp]
  obtain ⟨hcalled, htxn⟩ := hinv.noted p hin
  have hsub : insert b (g.noted p) ⊆ g.called p :=
    Finset.insert_subset (hinv.hand p b (by rw [hloc]; rfl)) hcalled
  have hle := Finset.card_le_card hsub
  have hnew : (g.record (.append p b)).noted p = insert b (g.noted p) := by
    simp [LogBlocks.record]
  simp only [hnew] at hchange
  simp only [LogState.move, absorb]
  split
  · have := Finset.card_le_card (Finset.subset_insert b (g.noted p))
    omega
  · rename_i hb
    have hfresh : b ∉ g.noted p := fun hmem => hb <| by
      rw [← List.mem_toFinset, (hinv.lh hopen.booting hopen.committing).2]
      exact htxn hmem
    rw [Finset.card_insert_of_notMem hfresh] at hchange hle
    rw [List.length_append, List.length_singleton]
    omega

theorem inOp_move {p : ι} {l : LogLoc} (hl : l.inOp = (s.loc p).inOp) (q : ι) :
    ((s.move p l).loc q).inOp = (s.loc q).inOp :=
  (forall_update_iff s.loc fun q l => l.inOp = (s.loc q).inOp).mpr ⟨hl, fun _ _ => rfl⟩ q

/-- **Step.** -/
theorem RoomLeft.step {e : LogEvent ι} (h : RoomLeft g s) (hinv : RoomInv g s)
    (hfew : ∀ p, (g.called p).card < maxOpBlocks) (hs : logNext A s e = some s') :
    RoomLeft (g.record e) s' := by
  cases e with
  | beginOp p =>
    obtain ⟨hboot, hloc, hcom, hadm, rfl⟩ := logNext_beginOp hs
    exact .beginOp (hinv.phase.opened_of_admits hboot hcom) hloc hadm
  | modify p b v =>
    obtain ⟨hloc, rfl⟩ := logNext_modify hs
    exact h.kept rfl rfl rfl rfl (inOp_move (by rw [hloc]; rfl))
  | check p b =>
    obtain ⟨hloc, -, rfl⟩ := logNext_check hs
    exact h.kept rfl rfl rfl rfl (inOp_move (by rw [hloc]; rfl))
  | append p b =>
    obtain ⟨hloc, rfl⟩ := logNext_append hs
    exact h.append hinv hloc (hfew p)
  | endOp p =>
    obtain ⟨hloc, hlast⟩ := logNext_endOp hs
    have hopen := hinv.phase.opened_of_inOp (p := p) (by rw [hloc]; rfl)
    rcases hlast with ⟨hone, rfl⟩ | ⟨-, rfl⟩
    · exact .of_committing (hopen.lastOp hloc hone)
    · exact h.endOp hopen hloc
  | commit p =>
    exact .of_committing ((hinv.phase.committing_of_loc (commits_of_commitStep hs)).step hs)
  | header p =>
    obtain ⟨hloc, -, rfl⟩ := logNext_header hs
    exact .of_committing ((hinv.phase.committing_of_loc (p := p) (by rw [hloc]; rfl)).moved
      (l := .install 0) (rfl : (s.putHead A).booting = _) rfl rfl rfl rfl (by simp [LogLoc.cleared]))
  | finish p =>
    obtain ⟨hloc, rfl⟩ := logNext_finish hs
    have hcom := hinv.phase.committing_of_loc (p := p) (by rw [hloc]; rfl)
    refine .of_quiet (fun q => ?_) fun _ _ => hcom.nil (by rw [hloc]; rfl)
    rw [hcom.idle_finish q]
    rfl
  | crash =>
    cases hs
    exact .of_quiet (fun _ => rfl) fun _ _ => rfl
  | boot =>
    obtain ⟨r, hr⟩ := hinv.phase.booting_of_boot hs
    obtain ⟨-, rfl⟩ | ⟨_, _, -, -, rfl⟩ | ⟨_, -, -, rfl⟩ | ⟨hboot, rfl⟩ := bootStep_cases hs
    · exact fun hb => by cases hb
    · exact fun hb => by cases hb
    · exact fun hb => by cases hb
    · obtain rfl := Option.some.inj (hr.booting.symm.trans hboot)
      exact .of_quiet hr.inOp_eq fun _ _ => hr.nil (by simp)

end Step

/-! ## §4  Runs -/

theorem roomInv_run {A : LogArea} {d₀ : Disk} {es : List (LogEvent ι)} {s : LogState ι}
    (hrun : (logSystem A).Run (.restart d₀) es s) : RoomInv (logBlocks es) s := by
  refine hrun.history (I := fun es s => RoomInv (logBlocks es) s) (fun es s e s' h hs => ?_) ?_
  · rw [logBlocks_snoc]
    exact h.step hs
  · exact .of_quiet (.booting _ (booting_restart d₀)) (fun _ => rfl) (fun _ _ => ⟨rfl, rfl⟩)
      fun _ => rfl

theorem roomLeft_run {A : LogArea} {d₀ : Disk} {k : Nat} (hk : k < maxOpBlocks)
    {es : List (LogEvent ι)} {s : LogState ι} (hrun : (logSystem A).Run (.restart d₀) es s)
    (hops : OpsWithin k es) : RoomLeft (logBlocks es) s := by
  induction hrun with
  | nil => exact .of_quiet (fun _ => rfl) fun _ _ => rfl
  | snoc hrun hlast ih =>
    rw [logBlocks_snoc]
    refine (ih hops.of_snoc).step (roomInv_run hrun) (fun p => ?_) hlast
    exact Nat.lt_of_le_of_lt (hops.of_snoc _ (List.prefix_refl _) p) hk

/-- **When a transaction is too big.** With the log that `mkfs` makes,
`log_write` panics exactly when `LOGSIZE - 1` different blocks are noted in the
transaction, and it never does if every operation calls it on fewer than
`MAXOPBLOCKS` blocks. -/
theorem log_write_tooBig_iff {A : LogArea} (hA : A.size = logSize) {d₀ : Disk}
    {es : List (LogEvent ι)} {s : LogState ι} (hrun : (logSystem A).Run (.restart d₀) es s)
    {p : ι} {b : Nat} (hcall : s.loc p = .modified b) :
    (s.tooBig A = true ↔ logSize - 1 ≤ (logBlocks es).txn.card) ∧
    (∀ k < maxOpBlocks, OpsWithin k es → s.tooBig A = false) := by
  have hinv := roomInv_run hrun
  have hopen := hinv.phase.opened_of_inOp (p := p) (by rw [hcall]; rfl)
  obtain ⟨hnodup, hset⟩ := hinv.lh hopen.booting hopen.committing
  have hcard : (logBlocks es).txn.card = s.lh.length := by
    rw [← hset]
    exact List.toFinset_card_of_nodup hnodup
  constructor
  · rw [hcard, LogState.tooBig, hA, Bool.or_eq_true, decide_eq_true_eq, decide_eq_true_eq]
    simp only [logSize, maxOpBlocks]
    omega
  · intro k hk hops
    obtain ⟨P, hP, -⟩ := hopen.ops
    have := roomLeft_run hk hrun hops hopen.booting hopen.committing P hP
    rw [LogState.tooBig, hA, Bool.or_eq_false_iff, decide_eq_false_iff_not,
      decide_eq_false_iff_not]
    omega

/-- An operation that notes a block is committed; the next one has noted two blocks and
changed a third. -/
def afterCommit : List (LogEvent (Fin 1)) :=
  [.boot, .boot, .boot, .beginOp 0] ++ logged 0 100 ++
    [.endOp 0, .commit 0, .commit 0, .commit 0, .header 0, .commit 0, .commit 0, .commit 0,
      .finish 0, .beginOp 0] ++ logged 0 101 ++ logged 0 102 ++ [.modify 0 103 ones]

theorem log_write_tooBig_iff_afterCommit : ∃ s : LogState (Fin 1),
    (logSystem mkfsLog).Run (.restart zeros) afterCommit s ∧ s.loc 0 = .modified 103 ∧
    (s.tooBig mkfsLog = true ↔ logSize - 1 ≤ (logBlocks afterCommit).txn.card) ∧
    (logBlocks afterCommit).txn = {101, 102} ∧ s.tooBig mkfsLog = false := by
  have hend : (afterCommit.foldlM (System.guardedNext (logNext mkfsLog) (HomeWrites mkfsLog))
      (.restart zeros)).map (fun s => s.loc 0) = some (.modified 103) := by
    decide +kernel
  obtain ⟨s, hs, hloc⟩ := Option.map_eq_some_iff.mp hend
  have hrun := (System.run_ofNext hs).of_guarded
  have hops : OpsWithin 3 afterCommit := by decide +kernel
  have h := log_write_tooBig_iff rfl hrun hloc
  exact ⟨s, hrun, hloc, h.1, by decide +kernel, h.2 3 (by decide) hops⟩

/-- Three operations, ten blocks each: the last block finds the log full. -/
def threeFull : List (LogEvent (Fin 3)) :=
  [.boot, .boot, .boot, .beginOp 0, .beginOp 1, .beginOp 2] ++
    (List.range 10).flatMap (fun i => logged 0 (100 + i)) ++
    (List.range 10).flatMap (fun i => logged 1 (110 + i)) ++
    (List.range 9).flatMap (fun i => logged 2 (120 + i)) ++ [.modify 2 129 ones]

theorem log_write_tooBig_threeFull : ¬ ∀ (es : List (LogEvent (Fin 3))) (s : LogState (Fin 3)),
    (logSystem mkfsLog).Run (.restart zeros) es s → OpsWithin maxOpBlocks es →
    ∀ p b, s.loc p = .modified b → s.tooBig mkfsLog = false := by
  intro hall
  have hend : (threeFull.foldlM (System.guardedNext (logNext mkfsLog) (HomeWrites mkfsLog))
      (.restart zeros)).map (fun s => (s.loc 2, s.tooBig mkfsLog)) = some (.modified 129, true) := by
    decide +kernel
  obtain ⟨s, hs, hval⟩ := Option.map_eq_some_iff.mp hend
  have hops : OpsWithin maxOpBlocks threeFull := by decide +kernel
  obtain ⟨hloc, hbig⟩ : s.loc 2 = .modified 129 ∧ s.tooBig mkfsLog = true := Prod.ext_iff.mp hval
  have := hall threeFull s (System.run_ofNext hs).of_guarded hops 2 129 hloc
  rw [hbig] at this
  cases this

end Xv6
