import Xv6.Library.Bytes
import Xv6.Library.Transition

/-!
# `log.c`

The log of the file system, with the processes that use it, the commit, the
crash and the recovery. The steps are the sections under `log.lock`, the tests
`log_write` makes before it takes that lock, and single disk writes.

`cache` is what `bread` returns for a block; a `bwrite` puts it on the disk. A
process that has to wait in `begin_op` takes no step, and neither does one
that panics, in `bget` for example: the blocks that are noted keep their
buffers until the commit has written them home.
-/

namespace Xv6

open Transition Function

/-- A disk block; only the first `BSIZE` bytes count. -/
abbrev Block := Nat → UInt8

abbrev Disk := Nat → Block

def maxOpBlocks : Nat := 10

/-- `LOGSIZE`. -/
def logSize : Nat := maxOpBlocks * 3

/-- `NBUF`. -/
def nbuf : Nat := maxOpBlocks * 3

/-- `log.start` and `log.size`, from the super block. -/
structure LogArea where
  start : Nat
  size : Nat

/-- The header block and the log blocks. -/
def LogArea.inside (A : LogArea) (b : Nat) : Prop := A.start ≤ b ∧ b < A.start + A.size

/-! ## §1  The header block

`struct logheader`: an `int` count and `int` block numbers. -/

/-- `lh->n`; a negative count makes every loop over the blocks empty. -/
def headCount (b : Block) : Nat :=
  let n := Bytes.getLe b 0 4
  if n < 2 ^ 31 then n else 0

def headBlock (b : Block) (i : Nat) : Nat := Bytes.getLe b (4 + 4 * i) 4

/-- `read_head`: the block numbers in the header. -/
def readHead (b : Block) : List Nat := (List.range (headCount b)).map (headBlock b)

/-- The loop of `write_head`, from index `i` on. -/
def putBlocks (b : Block) (i : Nat) : List Nat → Block
  | [] => b
  | x :: xs => putBlocks (Bytes.setLe b (4 + 4 * i) 4 x) (i + 1) xs

/-- `write_head`: what it makes of the old header block. -/
def writeHead (b : Block) (lh : List Nat) : Block :=
  putBlocks (Bytes.setLe b 0 4 lh.length) 0 lh

theorem putBlocks_before {o k i : Nat} (h : o + k ≤ 4 + 4 * i) (xs : List Nat) (b : Block) :
    Bytes.getLe (putBlocks b i xs) o k = Bytes.getLe b o k := by
  induction xs generalizing b i with
  | nil => rfl
  | cons x xs ih => rw [putBlocks, ih (by omega), Bytes.getLe_setLe_of_disjoint (by omega)]

theorem putBlocks_at {i : Nat} {xs : List Nat} (hxs : ∀ x ∈ xs, x < 2 ^ 32) (b : Block) (j : Nat)
    (hj : j < xs.length) : headBlock (putBlocks b i xs) (i + j) = xs[j] := by
  induction xs generalizing b i j with
  | nil => simp at hj
  | cons x xs ih =>
    rw [putBlocks]
    cases j with
    | zero =>
      have hx : x < 256 ^ 4 := hxs x (by simp)
      rw [headBlock, putBlocks_before (by omega), Nat.add_zero, Bytes.getLe_setLe hx]
      rfl
    | succ j =>
      have := ih (i := i + 1) (fun y hy => hxs y (by simp [hy]))
        (Bytes.setLe b (4 + 4 * i) 4 x) j (by simpa using hj)
      rw [Nat.add_assoc, Nat.add_comm 1 j] at this
      exact this

/-- What `write_head` writes, `read_head` reads. -/
theorem readHead_writeHead {lh : List Nat} (hn : lh.length < 2 ^ 31) (hlh : ∀ x ∈ lh, x < 2 ^ 32)
    (b : Block) : readHead (writeHead b lh) = lh := by
  have hcount : headCount (writeHead b lh) = lh.length := by
    rw [headCount, writeHead, putBlocks_before (by omega), Bytes.getLe_setLe (by omega)]
    exact if_pos hn
  rw [readHead, hcount]
  refine List.ext_getElem (by simp) fun j hj _ => ?_
  rw [List.getElem_map, List.getElem_range]
  have := putBlocks_at (i := 0) hlh (Bytes.setLe b 0 4 lh.length) j (by simpa using hj)
  rwa [Nat.zero_add] at this

/-! ## §2  The machine -/

/-- Where a process is. -/
inductive LogLoc where
  | idle
  | op                      -- between `begin_op` and `end_op`
  | modified (b : Nat)      -- has changed block `b`, calls `log_write`
  | checked (b : Nat)       -- in `log_write`, past its tests
  | commit                  -- the last `end_op`: `if (log.lh.n > 0)`
  | writeLog (tail : Nat)
  | writeHead
  | install (tail : Nat)
  | clearHead
  | finish                  -- `log.committing = 0`
deriving DecidableEq

/-- The steps of `recover_from_log`. -/
inductive Recovery where
  | readHead
  | install (tail : Nat)
  | clearHead

structure LogState (ι : Type*) where
  disk : Disk
  cache : Disk
  lh : List Nat
  outstanding : Nat
  committing : Bool
  loc : ι → LogLoc
  booting : Option Recovery

/-- `modify p b v`: process `p` changes block `b` to `v` in the cache;
`commit p` and `boot` are the next step of a commit and of a recovery. -/
inductive LogEvent (ι : Type*) where
  | beginOp (p : ι)
  | modify (p : ι) (b : Nat) (v : Block)
  | check (p : ι) (b : Nat)
  | append (p : ι) (b : Nat)
  | endOp (p : ι)
  | commit (p : ι)
  | header (p : ι)
  | finish (p : ι)
  | crash
  | boot

variable {ι : Type*} [DecidableEq ι]

namespace LogState

def move (s : LogState ι) (p : ι) (l : LogLoc) : LogState ι :=
  { s with loc := update s.loc p l }

omit [DecidableEq ι] in
/-- A block changed in the cache and written to the disk. -/
def bwrite (s : LogState ι) (b : Nat) (v : Block) : LogState ι :=
  { s with cache := update s.cache b v, disk := update s.disk b v }

/-- The test of `begin_op`. -/
def admits (s : LogState ι) : Bool :=
  !s.committing && s.lh.length + (s.outstanding + 1) * maxOpBlocks ≤ logSize

/-- The first test of `log_write`: "too big a transaction". -/
def tooBig (A : LogArea) (s : LogState ι) : Bool :=
  logSize ≤ s.lh.length || A.size ≤ s.lh.length + 1

omit [DecidableEq ι] in
/-- `bget` finds a buffer for block `b`. A noted block has one, which is dirty, and
another block needs one that is not. What others have in use is not counted, it only
makes `bget` fail earlier. -/
def bget (s : LogState ι) (b : Nat) : Bool := b ∈ s.lh || s.lh.length < nbuf

/-- One round of `write_log`. -/
def copyToLog (A : LogArea) (s : LogState ι) (tail b : Nat) : LogState ι :=
  s.bwrite (A.start + tail + 1) (s.cache b)

/-- One round of `install_trans`. -/
def installBlock (A : LogArea) (s : LogState ι) (tail b : Nat) : LogState ι :=
  s.bwrite b (s.cache (A.start + tail + 1))

/-- `write_head`. -/
def putHead (A : LogArea) (s : LogState ι) : LogState ι :=
  s.bwrite A.start (Xv6.writeHead (s.cache A.start) s.lh)

end LogState

/-- `log_write` under the lock: the block is noted unless it is there. -/
def absorb (lh : List Nat) (b : Nat) : List Nat := if b ∈ lh then lh else lh ++ [b]

/-- One step of `commit`, but for the one that writes the header. Behind that one
there are no more dirty buffers than before, and none in a recovery, so `bget` does
not fail there. -/
def commitStep (A : LogArea) (s : LogState ι) (p : ι) : Option (LogState ι) :=
  match s.loc p with
  | .commit => some (s.move p (if s.lh = [] then .finish else .writeLog 0))
  | .writeLog tail =>
    match s.lh[tail]? with
    | some b =>
      if s.bget (A.start + tail + 1) then
        some ((s.copyToLog A tail b).move p (.writeLog (tail + 1)))
      else none
    | none => some (s.move p .writeHead)
  | .install tail =>
    match s.lh[tail]? with
    | some b => some ((s.installBlock A tail b).move p (.install (tail + 1)))
    | none => some ({ s with lh := [] }.move p .clearHead)
  | .clearHead => some ((s.putHead A).move p .finish)
  | _ => none

/-- One step of `recover_from_log`. -/
def bootStep (A : LogArea) (s : LogState ι) : Option (LogState ι) :=
  match s.booting with
  | some .readHead =>
    some { s with lh := readHead (s.cache A.start), booting := some (.install 0) }
  | some (.install tail) =>
    match s.lh[tail]? with
    | some b => some { s.installBlock A tail b with booting := some (.install (tail + 1)) }
    | none => some { s with lh := [], booting := some .clearHead }
  | some .clearHead => some { s.putHead A with booting := none }
  | none => none

/-- What is left after a crash: the disk. -/
def LogState.restart (d : Disk) : LogState ι where
  disk := d
  cache := d
  lh := []
  outstanding := 0
  committing := false
  loc := fun _ => .idle
  booting := some .readHead

def logNext (A : LogArea) (s : LogState ι) : LogEvent ι → Option (LogState ι)
  | .beginOp p =>
    match s.booting, s.loc p with
    | none, .idle =>
      if s.admits then some ({ s with outstanding := s.outstanding + 1 }.move p .op) else none
    | _, _ => none
  | .modify p b v =>
    if s.loc p = .op ∧ s.bget b then
      some ({ s with cache := update s.cache b v }.move p (.modified b))
    else none
  | .check p b =>
    if s.loc p = .modified b ∧ s.tooBig A = false ∧ 1 ≤ s.outstanding then
      some (s.move p (.checked b))
    else none
  | .append p b =>
    if s.loc p = .checked b then some ({ s with lh := absorb s.lh b }.move p .op) else none
  | .endOp p =>
    match s.loc p with
    | .op =>
      -- "log.committing"
      if s.committing then none
      else if s.outstanding = 1 then
        some ({ s with outstanding := 0, committing := true }.move p .commit)
      else some ({ s with outstanding := s.outstanding - 1 }.move p .idle)
    | _ => none
  | .commit p => commitStep A s p
  | .header p =>
    if s.loc p = .writeHead ∧ s.bget A.start then some ((s.putHead A).move p (.install 0))
    else none
  | .finish p =>
    if s.loc p = .finish then some ({ s with committing := false }.move p .idle) else none
  | .crash => some (LogState.restart s.disk)
  | .boot => bootStep A s

def logSystem (A : LogArea) : System (LogState ι) (LogEvent ι) := .ofNext (logNext A)

/-! ## §3  What each step can do -/

section Steps

variable {A : LogArea} {s s' : LogState ι} {p : ι} {b : Nat} {v : Block}

theorem logNext_beginOp (hs : logNext A s (.beginOp p) = some s') :
    s.booting = none ∧ s.loc p = .idle ∧ s.committing = false ∧
      s.lh.length + (s.outstanding + 1) * maxOpBlocks ≤ logSize ∧
      s' = { s with outstanding := s.outstanding + 1 }.move p .op := by
  simp only [logNext] at hs
  split at hs
  · rename_i hboot hloc
    split at hs
    · rename_i hadm
      cases hs
      rw [LogState.admits, Bool.and_eq_true, Bool.not_eq_true', decide_eq_true_eq] at hadm
      exact ⟨hboot, hloc, hadm.1, hadm.2, rfl⟩
    · cases hs
  · cases hs

theorem logNext_modify (hs : logNext A s (.modify p b v) = some s') :
    s.loc p = .op ∧
      s' = { s with cache := update s.cache b v }.move p (.modified b) := by
  obtain ⟨hloc, ⟨⟩⟩ := Option.ite_none_right_eq_some.mp hs
  exact ⟨hloc.1, rfl⟩

theorem logNext_check (hs : logNext A s (.check p b) = some s') :
    s.loc p = .modified b ∧ s.tooBig A = false ∧ s' = s.move p (.checked b) := by
  obtain ⟨hc, ⟨⟩⟩ := Option.ite_none_right_eq_some.mp hs
  exact ⟨hc.1, hc.2.1, rfl⟩

theorem logNext_append (hs : logNext A s (.append p b) = some s') :
    s.loc p = .checked b ∧ s' = { s with lh := absorb s.lh b }.move p .op := by
  obtain ⟨hloc, ⟨⟩⟩ := Option.ite_none_right_eq_some.mp hs
  exact ⟨hloc, rfl⟩

theorem logNext_endOp (hs : logNext A s (.endOp p) = some s') :
    s.loc p = .op ∧
      (s.outstanding = 1 ∧
          s' = { s with outstanding := 0, committing := true }.move p .commit ∨
        s.outstanding ≠ 1 ∧ s' = { s with outstanding := s.outstanding - 1 }.move p .idle) := by
  simp only [logNext] at hs
  split at hs
  · rename_i hloc
    split at hs
    · cases hs
    · split at hs
      · cases hs
        exact ⟨hloc, .inl ⟨‹_›, rfl⟩⟩
      · cases hs
        exact ⟨hloc, .inr ⟨‹_›, rfl⟩⟩
  · cases hs

theorem commitStep_cases (hs : commitStep A s p = some s') :
    (s.loc p = .commit ∧ s' = s.move p (if s.lh = [] then .finish else .writeLog 0)) ∨
    (∃ tail b, s.loc p = .writeLog tail ∧ s.lh[tail]? = some b ∧
      s.bget (A.start + tail + 1) = true ∧ s' = (s.copyToLog A tail b).move p (.writeLog (tail + 1))) ∨
    (∃ tail, s.loc p = .writeLog tail ∧ s.lh[tail]? = none ∧ s' = s.move p .writeHead) ∨
    (∃ tail b, s.loc p = .install tail ∧ s.lh[tail]? = some b ∧
      s' = (s.installBlock A tail b).move p (.install (tail + 1))) ∨
    (∃ tail, s.loc p = .install tail ∧ s.lh[tail]? = none ∧
      s' = { s with lh := [] }.move p .clearHead) ∨
    (s.loc p = .clearHead ∧ s' = (s.putHead A).move p .finish) := by
  unfold commitStep at hs
  split at hs
  · cases hs
    exact .inl ⟨‹_›, rfl⟩
  · split at hs
    · obtain ⟨hget, ⟨⟩⟩ := Option.ite_none_right_eq_some.mp hs
      exact .inr (.inl ⟨_, _, ‹_›, ‹_›, hget, rfl⟩)
    · cases hs
      exact .inr (.inr (.inl ⟨_, ‹_›, ‹_›, rfl⟩))
  · split at hs
    · cases hs
      exact .inr (.inr (.inr (.inl ⟨_, _, ‹_›, ‹_›, rfl⟩)))
    · cases hs
      exact .inr (.inr (.inr (.inr (.inl ⟨_, ‹_›, ‹_›, rfl⟩))))
  · cases hs
    exact .inr (.inr (.inr (.inr (.inr ⟨‹_›, rfl⟩))))
  · cases hs

theorem logNext_header (hs : logNext A s (.header p) = some s') :
    s.loc p = .writeHead ∧ s.bget A.start = true ∧ s' = (s.putHead A).move p (.install 0) := by
  obtain ⟨hloc, ⟨⟩⟩ := Option.ite_none_right_eq_some.mp hs
  exact ⟨hloc.1, hloc.2, rfl⟩

theorem logNext_finish (hs : logNext A s (.finish p) = some s') :
    s.loc p = .finish ∧ s' = { s with committing := false }.move p .idle := by
  obtain ⟨hloc, ⟨⟩⟩ := Option.ite_none_right_eq_some.mp hs
  exact ⟨hloc, rfl⟩

omit [DecidableEq ι] in
theorem bootStep_cases (hs : bootStep A s = some s') :
    (s.booting = some .readHead ∧
      s' = { s with lh := readHead (s.cache A.start), booting := some (.install 0) }) ∨
    (∃ tail b, s.booting = some (.install tail) ∧ s.lh[tail]? = some b ∧
      s' = { s.installBlock A tail b with booting := some (.install (tail + 1)) }) ∨
    (∃ tail, s.booting = some (.install tail) ∧ s.lh[tail]? = none ∧
      s' = { s with lh := [], booting := some .clearHead }) ∨
    (s.booting = some .clearHead ∧ s' = { s.putHead A with booting := none }) := by
  unfold bootStep at hs
  split at hs
  · cases hs
    exact .inl ⟨‹_›, rfl⟩
  · split at hs
    · cases hs
      exact .inr (.inl ⟨_, _, ‹_›, ‹_›, rfl⟩)
    · cases hs
      exact .inr (.inr (.inl ⟨_, ‹_›, ‹_›, rfl⟩))
  · cases hs
    exact .inr (.inr (.inr ⟨‹_›, rfl⟩))
  · cases hs

end Steps

end Xv6
