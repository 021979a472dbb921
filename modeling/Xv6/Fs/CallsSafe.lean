import Xv6.Fs.Calls

/-!
# What a call takes it gives back

A process has transactions, inode locks and references to inodes in hand (`Held`).
`ledger` says what each operation needs of them and does to them. Among the needs: a
lock or a reference that is given back is there, an inode is locked by a process
that has a reference to it, and what is changed in an inode is written back
before the lock is released.

Every call keeps to the ledger, whatever the answers are, on every path through
it. When it returns, nothing is in hand that was not before, but for what a
successful `open` or `chdir` has stored (`calls_give_back`).
-/

namespace Xv6.Fs.Call

open Prog Function

/-! ## §1  The ledger -/

/-- What a process knows of an inode that it has locked. -/
inductive Status where
  | unknown      -- it may not be in memory
  | clean        -- in memory, as on the disk
  | attrs        -- attributes have been set
  | truncated    -- without blocks
  | dying        -- the type has been cleared
  | dead         -- on the disk, too
deriving DecidableEq

/-- What a process has in hand. -/
structure Held where
  ops : Nat                      -- transactions
  lock : Ip → Option Status
  refs : Ip → Nat
  cwd : Option Ip
  file : Option Ip               -- the inode of the open file it works on
  stored : List Ip               -- what it has left in file structures

/-- One reference. -/
def one (ip k : Ip) : Nat := if k = ip then 1 else 0

namespace Held

def Has (g : Held) (ip : Ip) : Prop := 1 ≤ g.refs ip ∨ g.file = some ip

def setLock (g : Held) (ip : Ip) (st : Option Status) : Held :=
  { g with lock := update g.lock ip st }

def take (g : Held) (ip : Ip) : Held := { g with refs := fun k => g.refs k + one ip k }

def drop (g : Held) (ip : Ip) : Held := { g with refs := fun k => g.refs k - one ip k }

/-- A reference goes from the process to a file or a child. -/
def store (g : Held) (ip : Ip) : Held :=
  { g with refs := fun k => g.refs k - one ip k, stored := ip :: g.stored }

def setOps (g : Held) (n : Nat) : Held := { g with ops := n }

end Held

/-- What `iupdate` leaves. -/
def Status.updated : Status → Status
  | attrs => clean
  | dying => dead
  | st => st

def ledger : Ledger Op Res Held where
  need o g :=
    match o with
    | .beginOp => g.ops = 0
    | .endOp => g.ops = 1
    | .idup ip => 1 ≤ g.refs ip
    | .acquiresleep ip => g.Has ip
    | .releasesleep ip => g.lock ip = some .unknown ∨ g.lock ip = some .clean
    | .load ip => g.lock ip = some .unknown
    | .dead ip => g.lock ip = some .unknown
    | .ref ip => g.lock ip = some .clean
    | .itrunc ip => g.lock ip = some .clean
    | .clearType ip => g.lock ip = some .truncated
    | .iupdate ip => g.lock ip = some .attrs ∨ g.lock ip = some .dying
    | .invalidate ip => g.lock ip = some .dead
    | .decRef ip => 1 ≤ g.refs ip ∧ g.lock ip = none
    | .inode ip => g.lock ip = some .clean
    | .setAttrs ip .. => g.lock ip = some .clean
    | .readi ip .. => g.lock ip = some .clean
    | .writei ip .. => g.lock ip = some .clean
    | .setCwd (some ip) => 1 ≤ g.refs ip
    | .openFile ip => 1 ≤ g.refs ip ∧ g.lock ip = none
    | _ => True
  can o g :=
    match o with
    | .acquiresleep ip => fun _ => g.lock ip = none
    | .cwd => fun ip => g.cwd = some ip
    | _ => fun _ => True
  after o g :=
    match o with
    | .beginOp => fun _ => g.setOps (g.ops + 1)
    | .endOp => fun _ => g.setOps (g.ops - 1)
    | .iget .. => fun ip => g.take ip
    | .idup ip => fun _ => g.take ip
    | .acquiresleep ip => fun _ => g.setLock ip (some .unknown)
    | .releasesleep ip => fun _ => g.setLock ip none
    | .load ip => fun _ => g.setLock ip (some .clean)
    | .dead ip => fun (dead : Bool) => if dead then g.setLock ip (some .clean) else g
    | .itrunc ip => fun _ => g.setLock ip (some .truncated)
    | .clearType ip => fun _ => g.setLock ip (some .dying)
    | .iupdate ip => fun _ => g.setLock ip ((g.lock ip).map Status.updated)
    | .invalidate ip => fun _ => g.setLock ip (some .unknown)
    | .setAttrs ip .. => fun _ => g.setLock ip (some .attrs)
    | .decRef ip => fun _ => g.drop ip
    | .setCwd ip => fun _ => { g with cwd := ip }
    | .openFile ip => fun _ => g.store ip
    | _ => fun _ => g

namespace Held

variable (g : Held) (ip k : Ip) (st st' : Option Status) (n m : Nat)

@[simp] theorem setLock_lock : (g.setLock ip st).lock k = if k = ip then st else g.lock k :=
  update_apply ..
@[simp] theorem setLock_refs : (g.setLock ip st).refs = g.refs := rfl
@[simp] theorem setLock_ops : (g.setLock ip st).ops = g.ops := rfl
@[simp] theorem take_refs : (g.take ip).refs k = g.refs k + one ip k := rfl
@[simp] theorem take_lock : (g.take ip).lock = g.lock := rfl
@[simp] theorem take_ops : (g.take ip).ops = g.ops := rfl
@[simp] theorem take_stored : (g.take ip).stored = g.stored := rfl
@[simp] theorem drop_refs : (g.drop ip).refs k = g.refs k - one ip k := rfl
@[simp] theorem drop_stored : (g.drop ip).stored = g.stored := rfl

@[simp] theorem one_self : one ip ip = 1 := if_pos rfl

@[simp] theorem setLock_setLock : (g.setLock ip st).setLock ip st' = g.setLock ip st' := by
  simp [setLock]

theorem setLock_self {g : Held} {ip : Ip} {st : Option Status} (h : g.lock ip = st) :
    g.setLock ip st = g := by
  rw [setLock, ← h, update_eq_self]

theorem setOps_self {g : Held} {n : Nat} (h : g.ops = n) : g.setOps n = g := by
  rw [setOps, ← h]

@[simp] theorem drop_take : (g.take ip).drop ip = g := by
  simp [take, drop]

theorem store_take : (g.take ip).store ip = { g with stored := ip :: g.stored } := by
  simp [take, store]

theorem take_comm : (g.take ip).take k = (g.take k).take ip := by
  simp only [take, Nat.add_right_comm]

/-- References are dropped in any order. -/
theorem drop_take_take : ((g.take ip).take k).drop ip = g.take k := by
  rw [take_comm, drop_take]

theorem one_le_take : 1 ≤ (g.take ip).refs ip := by
  rw [take_refs, one_self]
  exact Nat.le_add_left ..

theorem has_take : (g.take ip).Has ip := .inl (g.one_le_take ip)

theorem has_locked : ((g.take ip).setLock ip st).Has ip := g.has_take ip

end Held

open Held

/-! ## §2  `fs.c` -/

section Fs

variable {g : Held} {ip dp : Ip} {α : Type}

theorem panic_safe {p : Panic} {Q : α → Held → Prop} : Safe ledger (panic p) g Q :=
  ⟨trivial, fun r => nomatch (r : Empty)⟩

/-- What is in hand at the end is `g'`. -/
abbrev Leaves (x : M α) (g g' : Held) : Prop := Safe ledger x g fun _ g'' => g'' = g'

theorem inode_safe (hlock : g.lock ip = some .clean) : Leaves (inode ip) g g :=
  safe_perform hlock fun _ _ => rfl

theorem iget_safe (dev inum : Nat) :
    Safe ledger (iget dev inum) g fun ip g' => g' = g.take ip :=
  safe_perform trivial fun _ _ => rfl

theorem ialloc_safe (dev : Nat) (type : Int16) :
    Safe ledger (ialloc dev type) g fun ip g' => g' = g.take ip :=
  safe_bind (safe_perform trivial fun _ _ => iget_safe _ _)

/-- Behind an `ilock` that returns, the lock was free and is held. -/
theorem ilock_safe {x : Unit → M α} {Q : α → Held → Prop} (hhas : g.Has ip)
    (hx : g.lock ip = none → Safe ledger (x ()) (g.setLock ip (some .clean)) Q) :
    Safe ledger (ilock ip >>= x) g Q := by
  refine safe_bind (safe_bind (safe_perform hhas fun _ hfree => safe_perform ?_ fun _ _ => ?_))
  · simp [ledger]
  · change Safe ledger _ ((g.setLock ip _).setLock ip _) Q
    rw [setLock_setLock]
    exact hx hfree

theorem iunlock_safe (hlock : g.lock ip = some .clean) :
    Leaves (iunlock ip) g (g.setLock ip none) :=
  safe_perform (.inr hlock) fun _ _ => rfl

theorem onlyIf_safe {c : Bool} {x : M Unit} {Q : Unit → Held → Prop}
    (hx : c = true → Safe ledger x g Q) (hno : Q () g) : Safe ledger (onlyIf c x) g Q := by
  cases c with
  | true => exact hx rfl
  | false => exact hno

theorem free_safe (hlock : g.lock ip = some .clean) :
    Leaves (free ip) g (g.setLock ip (some .unknown)) := by
  refine safe_bind (safe_perform hlock fun _ _ => safe_bind (safe_perform ?_ fun _ _ =>
    safe_bind (safe_perform ?_ fun _ _ => safe_perform ?_ fun _ _ => ?_)))
  · simp [ledger]
  · simp [ledger]
  · simp [ledger, Status.updated]
  · simp [ledger]

theorem freeLast_safe (hlock : g.lock ip = some .clean) :
    Safe ledger (freeLast ip) g fun _ g' => ∃ st, (st = .unknown ∨ st = .clean) ∧
      g' = g.setLock ip (some st) := by
  refine safe_bind (safe_perform hlock fun r _ => onlyIf_safe (fun _ => ?_) ?_)
  · exact (free_safe hlock).mono fun _ _ hg => ⟨.unknown, .inl rfl, hg⟩
  · exact ⟨.clean, .inr rfl, (setLock_self hlock).symm⟩

/-- `iput` drops one reference, and waits if it has the lock itself. -/
theorem iput_safe (href : 1 ≤ g.refs ip) :
    Safe ledger (iput ip) g fun _ g' => g.lock ip = none ∧ g' = g.drop ip := by
  refine safe_bind (safe_perform (.inl href) fun _ hfree => ?_)
  change g.lock ip = none at hfree
  have hlast : ∀ st, st = .unknown ∨ st = .clean →
      Safe ledger (do perform (.releasesleep ip); perform (.decRef ip)) (g.setLock ip (some st))
        fun _ g' => g.lock ip = none ∧ g' = g.drop ip := by
    intro st hst
    refine safe_bind (safe_perform ?_ fun _ _ => safe_perform ?_ fun _ _ => ⟨hfree, ?_⟩)
    · rcases hst with rfl | rfl <;> simp [ledger]
    · simpa [ledger] using href
    · simp only [ledger, setLock_setLock, setLock_self hfree]
  refine safe_bind (safe_perform (by simp [ledger]) fun dead _ => ?_)
  refine safe_bind (onlyIf_safe (fun hdead => ?_) ?_)
  · change dead = true at hdead
    simp only [ledger, hdead, if_true, setLock_setLock]
    refine (freeLast_safe (by simp)).mono ?_
    rintro _ _ ⟨st, hst, rfl⟩
    rw [setLock_setLock]
    exact hlast st hst
  · simp only [ledger, setLock_setLock]
    split
    · exact hlast .clean (.inr rfl)
    · exact hlast .unknown (.inl rfl)

theorem iunlockput_safe (hlock : g.lock ip = some .clean) (href : 1 ≤ g.refs ip) :
    Safe ledger (iunlockput ip) g fun _ g' => g' = (g.setLock ip none).drop ip := by
  exact (iunlock_safe hlock).andThen fun _ =>
    (iput_safe (g := g.setLock ip none) href).mono fun _ _ hg => hg.2

theorem addNlink_safe (hlock : g.lock ip = some .clean) (d : Int16) :
    Leaves (addNlink ip d) g g := by
  refine (inode_safe hlock).andThen fun v => ?_
  refine safe_bind (safe_perform hlock fun _ _ => safe_perform ?_ fun _ _ => ?_)
  · simp [ledger]
  · simp [ledger, Status.updated, setLock_self hlock]

theorem consoleRw_safe (hlock : g.lock ip = some .clean) (hhas : g.Has ip) (n : UInt32) :
    Leaves (consoleRw ip n) g g := by
  refine (iunlock_safe hlock).andThen fun _ => ?_
  refine safe_bind (safe_perform trivial fun r _ => ?_)
  refine ilock_safe (g := g.setLock ip none) hhas fun _ => ?_
  exact (setLock_setLock ..).trans (setLock_self hlock)

theorem readi_safe (hlock : g.lock ip = some .clean) (hhas : g.Has ip) (off n : UInt32) :
    Leaves (readi ip off n) g g := by
  refine (inode_safe hlock).andThen fun v => safe_ite (fun _ => ?_) fun _ => ?_
  · exact safe_ite (fun _ => rfl) fun _ => consoleRw_safe hlock hhas n
  · exact safe_perform hlock fun _ _ => rfl

theorem writei_safe (hlock : g.lock ip = some .clean) (hhas : g.Has ip) (bytes : List UInt8)
    (off : UInt32) : Leaves (writei ip bytes off) g g := by
  refine (inode_safe hlock).andThen fun v => safe_ite (fun _ => ?_) fun _ => ?_
  · exact safe_ite (fun _ => rfl) fun _ => (consoleRw_safe hlock hhas _).andThen fun _ => rfl
  · exact safe_perform hlock fun _ _ => rfl

theorem readDirent_safe (hlock : g.lock dp = some .clean) (hhas : g.Has dp) (err : Panic)
    (off : Nat) : Leaves (readDirent err dp off) g g := by
  refine (readi_safe hlock hhas _ _).andThen ?_
  rintro (- | l)
  · exact panic_safe
  · exact safe_ite (fun _ => rfl) fun _ => panic_safe

theorem writeDirent_safe (hlock : g.lock dp = some .clean) (hhas : g.Has dp) (err : Panic)
    (off : Nat) (de : List UInt8) :
    Leaves (writeDirent err dp off de) g g :=
  (writei_safe hlock hhas _ _).andThen fun _ => safe_ite (fun _ => rfl) fun _ => panic_safe

theorem dirScan_safe {rd : Nat → M Dirent} (hrd : ∀ off, Leaves (rd off) g g)
    (p : Dirent → Bool) (size : Nat) :
    ∀ fuel off, Leaves (dirScan rd p size fuel off) g g
  | 0, _ => rfl
  | fuel + 1, off =>
    safe_ite (fun _ => (hrd off).andThen fun _ =>
      safe_ite (fun _ => rfl) fun _ => dirScan_safe hrd p size fuel _) fun _ => rfl

/-- `dirlookup` gives a reference to what it finds. -/
theorem dirlookup_safe (hlock : g.lock dp = some .clean) (hhas : g.Has dp) (name : List UInt8) :
    Safe ledger (dirlookup dp name) g fun r g' =>
      g' = match r with | none => g | some (ip, _) => g.take ip := by
  refine (inode_safe hlock).andThen fun v => safe_ite (fun _ => panic_safe) fun _ => ?_
  refine (dirScan_safe (readDirent_safe hlock hhas _) _ _ _ _).andThen ?_
  rintro ⟨off, - | de⟩
  · exact rfl
  · refine (iget_safe _ _).bind ?_
    rintro ip _ rfl
    exact rfl

theorem dirEnter_safe (hlock : g.lock dp = some .clean) (hhas : g.Has dp) (name : List UInt8)
    (inum : Nat) : Leaves (dirEnter dp name inum) g g := by
  refine (inode_safe hlock).andThen fun v => ?_
  refine (dirScan_safe (readDirent_safe hlock hhas _) _ _ _ _).andThen fun _ => ?_
  exact writeDirent_safe hlock hhas _ _ _

theorem dirlink_safe (hlock : g.lock dp = some .clean) (hhas : g.Has dp) (name : List UInt8)
    (inum : Nat) : Leaves (dirlink dp name inum) g g := by
  refine (dirlookup_safe hlock hhas name).bind ?_
  rintro (- | ⟨ip, off⟩) _ rfl
  · exact (dirEnter_safe hlock hhas name inum).andThen fun _ => rfl
  · refine (iput_safe (one_le_take ..)).bind ?_
    rintro _ _ ⟨-, rfl⟩
    exact drop_take ..

theorem isdirempty_safe (hlock : g.lock dp = some .clean) (hhas : g.Has dp) :
    Leaves (isdirempty dp) g g := by
  refine (inode_safe hlock).andThen fun v => ?_
  exact (dirScan_safe (readDirent_safe hlock hhas _) _ _ _ _).andThen fun _ => rfl

/-- What a lookup leaves: a reference to what it returns. -/
def Found (g : Held) (r : Option (Ip × List UInt8)) (g' : Held) : Prop :=
  g' = match r with | none => g | some (ip, _) => g.take ip

theorem namexLoop_safe (parent : Bool) : ∀ (es : List (List UInt8)) (ip : Ip) (name : List UInt8),
    Safe ledger (namexLoop parent ip name es) (g.take ip) (Found g)
  | [], ip, name => by
    refine safe_ite (fun _ => (iput_safe (one_le_take ..)).bind ?_) fun _ => rfl
    rintro _ _ ⟨-, rfl⟩
    exact drop_take ..
  | name :: rest, ip, _ => by
    refine ilock_safe (g.has_take ip) fun hfree => ?_
    have hput : ∀ x : M (Option (Ip × List UInt8)), Safe ledger x g (Found g) →
        Safe ledger (do iunlockput ip; x) ((g.take ip).setLock ip (some .clean)) (Found g) := by
      intro x hx
      refine (iunlockput_safe (by simp) (by simp)).andThen fun _ => ?_
      rw [setLock_setLock, setLock_self hfree, drop_take]
      exact hx
    refine (inode_safe (by simp)).andThen fun v => safe_ite (fun _ => hput _ rfl) fun _ => ?_
    refine safe_ite (fun _ => ?_) fun _ => ?_
    · refine (iunlock_safe (by simp)).andThen fun _ => ?_
      rw [setLock_setLock, setLock_self hfree]
      exact rfl
    · refine (dirlookup_safe (by simp) (has_locked ..) name).bind ?_
      rintro (- | ⟨next, off⟩) _ rfl
      · exact hput _ rfl
      · refine (iunlockput_safe (by simp) (by simp; omega)).andThen fun _ => ?_
        have hleft : ((((g.take ip).setLock ip (some .clean)).take next).setLock ip none).drop ip =
            g.take next := by
          have hsame : ((g.take ip).setLock ip (some .clean)).take next =
              ((g.take ip).take next).setLock ip (some .clean) := rfl
          rw [hsame, setLock_setLock, setLock_self (g := (g.take ip).take next) hfree,
            drop_take_take]
        rw [hleft]
        exact namexLoop_safe parent rest next name

/-- Whoever has a working directory has a reference to it. -/
def Held.Settled (g : Held) : Prop := ∀ ip, g.cwd = some ip → 1 ≤ g.refs ip

theorem namex_safe (hcwd : g.Settled) (path : Path) (parent : Bool) :
    Safe ledger (namex path parent) g (Found g) := by
  have hstart : Safe ledger (namexStart path) g fun ip g' => g' = g.take ip := by
    refine safe_ite (fun _ => iget_safe _ _) fun _ => ?_
    refine safe_bind (safe_perform trivial fun ip hip => ?_)
    exact safe_bind (safe_perform (hcwd ip hip) fun _ _ => rfl)
  refine hstart.bind ?_
  rintro ip _ rfl
  exact namexLoop_safe parent _ ip []

theorem namei_safe (hcwd : g.Settled) (path : Path) :
    Safe ledger (namei path) g fun r g' => g' = match r with | none => g | some ip => g.take ip := by
  refine (namex_safe hcwd path false).bind ?_
  rintro (- | ⟨ip, name⟩) _ rfl
  · exact rfl
  · exact rfl

theorem nameiparent_safe (hcwd : g.Settled) (path : Path) :
    Safe ledger (nameiparent path) g (Found g) := namex_safe hcwd path true

end Fs

/-! ## §3  The calls -/

section Calls

variable {g : Held} {ip dp : Ip}

/-- Between calls: no transaction, no lock, and only the working directory in hand. -/
structure Held.Idle (g : Held) : Prop where
  ops : g.ops = 0
  lock : ∀ ip, g.lock ip = none
  settled : g.Settled

/-- In a transaction. -/
def Held.inOp (g : Held) : Held := g.setOps 1

theorem beginOp_safe (h : g.Idle) : Leaves (perform .beginOp) g g.inOp :=
  safe_perform h.ops fun _ _ => by simp [ledger, h.ops, Held.inOp]

theorem endOp_safe (h : g.ops = 0) : Leaves (perform .endOp) g.inOp g :=
  safe_perform rfl fun _ _ => setOps_self h

theorem fail_safe (h : g.ops = 0) : Safe ledger fail g.inOp fun r g' => r = -1 ∧ g' = g := by
  exact (endOp_safe h).andThen fun _ => ⟨rfl, rfl⟩

theorem fail_back (h : g.ops = 0) : Leaves fail g.inOp g :=
  (fail_safe h).mono fun _ _ hg => hg.2

/-- A lock and a reference are given back. -/
theorem unlockput_safe (hfree : g.lock ip = none) :
    Leaves (iunlockput ip) ((g.take ip).setLock ip (some .clean)) g := by
  refine (iunlockput_safe (by simp) (by simp)).mono ?_
  rintro _ _ rfl
  rw [setLock_setLock, setLock_self (g := g.take ip) hfree, drop_take]

theorem linkBad_safe (hops : g.ops = 0) (hfree : g.lock ip = none) :
    Leaves (linkBad ip) (g.inOp.take ip) g := by
  refine ilock_safe (has_take ..) fun _ => ?_
  refine (addNlink_safe (by simp) _).andThen fun _ => ?_
  exact (unlockput_safe (g := g.inOp) hfree).andThen fun _ => fail_back hops

theorem sysLink_safe (h : g.Idle) (old new : Option Path) : Leaves (sysLink old new) g g := by
  cases old with
  | none => exact rfl
  | some old =>
  cases new with
  | none => exact rfl
  | some new =>
  have hfail := fail_back h.ops
  refine (beginOp_safe h).andThen fun _ => ?_
  refine (namei_safe (g := g.inOp) h.settled old).bind ?_
  rintro (- | ip) _ rfl
  · exact hfail
  refine ilock_safe (has_take ..) fun hfree => ?_
  refine (inode_safe (by simp)).andThen fun v => safe_ite (fun _ => ?_) fun _ => ?_
  · exact (unlockput_safe (g := g.inOp) (h.lock ip)).andThen fun _ => hfail
  refine (addNlink_safe (by simp) _).andThen fun _ => (iunlock_safe (by simp)).andThen fun _ => ?_
  rw [setLock_setLock, setLock_self hfree]
  -- the inode is in hand, and not locked
  have hsettled : (g.inOp.take ip).Settled := fun k hk => Nat.le_add_right_of_le (h.settled k hk)
  have hbad : Leaves (linkBad ip) (g.inOp.take ip) g :=
    linkBad_safe h.ops (h.lock ip)
  refine (nameiparent_safe hsettled new).bind ?_
  rintro (- | ⟨dp, name⟩) _ rfl
  · exact hbad
  refine ilock_safe (has_take ..) fun _ => ?_
  refine (inode_safe (by simp)).andThen fun w => safe_ite (fun _ => ?_) fun _ => ?_
  · exact (unlockput_safe (g := g.inOp.take ip) (h.lock dp)).andThen fun _ => hbad
  refine (dirlink_safe (by simp) (has_locked ..) name _).andThen fun r => ?_
  refine (unlockput_safe (g := g.inOp.take ip) (h.lock dp)).andThen fun _ => ?_
  refine safe_ite (fun _ => hbad) fun _ => ?_
  refine (iput_safe (one_le_take ..)).bind ?_
  rintro _ _ ⟨-, rfl⟩
  rw [drop_take]
  exact (endOp_safe h.ops).andThen fun _ => rfl

theorem unlinkBad_safe (hops : g.ops = 0) (hfree : g.lock dp = none) :
    Leaves (unlinkBad dp) ((g.inOp.take dp).setLock dp (some .clean)) g := by
  exact (unlockput_safe (g := g.inOp) hfree).andThen fun _ => fail_back hops

theorem occupied_safe (hlock : g.lock ip = some .clean) (hhas : g.Has ip) (type : Int16) :
    Leaves (occupied ip type) g g :=
  safe_ite (fun _ => (isdirempty_safe hlock hhas).andThen fun _ => rfl) fun _ => rfl

/-- Two inodes in hand, both locked. -/
def Held.both (g : Held) (dp ip : Ip) : Held :=
  ((g.take dp).setLock dp (some .clean)).take ip |>.setLock ip (some .clean)

theorem Held.both_lock (hne : ip ≠ dp) : (g.both dp ip).lock dp = some .clean := by
  simp [Held.both, hne.symm]

theorem Held.both_has : (g.both dp ip).Has dp := by
  refine .inl ?_
  simp only [Held.both, setLock_refs, take_refs, one_self]
  omega

/-- The first of two is given back. -/
theorem unlockput_first (hdp : g.lock dp = none) (hne : ip ≠ dp) :
    Safe ledger (iunlockput dp) (g.both dp ip) fun _ g' =>
      g' = (g.take ip).setLock ip (some .clean) := by
  have hswap : g.both dp ip =
      (((g.take ip).setLock ip (some .clean)).take dp).setLock dp (some .clean) := by
    simp only [Held.both, Held.setLock, Held.take, Nat.add_right_comm _ (one dp _),
      update_comm hne.symm]
  rw [hswap]
  refine unlockput_safe ?_
  rw [setLock_lock, if_neg hne.symm]
  exact hdp

theorem unlinkEntry_safe (h : g.Idle) (hne : ip ≠ dp) (off : Nat) (type : Int16) :
    Leaves (unlinkEntry dp ip off type) (g.inOp.both dp ip) g := by
  have hlock := both_lock (g := g.inOp) hne
  refine (writeDirent_safe hlock both_has _ _ _).andThen fun _ => ?_
  refine (onlyIf_safe (fun _ => addNlink_safe hlock _) rfl).andThen fun _ => ?_
  refine (unlockput_first (g := g.inOp) (h.lock dp) hne).andThen fun _ => ?_
  refine (addNlink_safe (by simp) _).andThen fun _ => ?_
  refine (unlockput_safe (g := g.inOp) (h.lock ip)).andThen fun _ => ?_
  exact (endOp_safe h.ops).andThen fun _ => rfl

theorem sysUnlink_safe (h : g.Idle) (path : Option Path) : Leaves (sysUnlink path) g g := by
  cases path with
  | none => exact rfl
  | some path =>
  refine (beginOp_safe h).andThen fun _ => ?_
  refine (nameiparent_safe (g := g.inOp) h.settled path).bind ?_
  rintro (- | ⟨dp, name⟩) _ rfl
  · exact fail_back h.ops
  have hbad := unlinkBad_safe h.ops (h.lock dp)
  refine ilock_safe (has_take ..) fun _ => ?_
  refine safe_ite (fun _ => hbad) fun _ => ?_
  refine (dirlookup_safe (by simp) (has_locked ..) name).bind ?_
  rintro (- | ⟨ip, off⟩) _ rfl
  · exact hbad
  refine ilock_safe (has_take ..) fun hfree => ?_
  have hne : ip ≠ dp := by
    rintro rfl
    simp at hfree
  refine (inode_safe (by simp)).andThen fun v => safe_ite (fun _ => panic_safe) fun _ => ?_
  refine (occupied_safe (by simp) (has_locked ..) _).andThen fun full => safe_ite (fun _ => ?_)
    fun _ => unlinkEntry_safe h hne off _
  exact (unlockput_safe (g := (g.inOp.take dp).setLock dp (some .clean)) hfree).andThen fun _ =>
    hbad

theorem createDots_safe (hdp : g.lock dp = some .clean) (hip : g.lock ip = some .clean)
    (hhas : g.Has ip) (inum parent : Nat) :
    Leaves (createDots dp ip inum parent) g g := by
  refine (addNlink_safe hdp _).andThen fun _ => ?_
  refine (dirlink_safe hip hhas _ _).andThen fun r => safe_ite (fun _ => panic_safe) fun _ => ?_
  exact (dirlink_safe hip hhas _ _).andThen fun r => safe_ite (fun _ => panic_safe) fun _ => rfl

/-- What `create` returns is locked. -/
def Created (g : Held) (r : Option Ip) (g' : Held) : Prop :=
  match r with
  | none => g' = g
  | some ip => g.lock ip = none ∧ g' = (g.take ip).setLock ip (some .clean)

theorem createNew_safe (hfree : g.lock dp = none) (name : List UInt8) (type major minor : Int16) :
    Safe ledger (createNew dp name type major minor) ((g.take dp).setLock dp (some .clean))
      (Created g) := by
  refine (inode_safe (by simp)).andThen fun w => ?_
  refine (ialloc_safe _ _).bind ?_
  rintro ip _ rfl
  refine ilock_safe (has_take ..) fun hip => ?_
  have hne : ip ≠ dp := by
    rintro rfl
    simp at hip
  have hlock := both_lock (g := g) hne
  refine (inode_safe (by simp)).andThen fun v => ?_
  refine safe_bind (safe_perform (by simp [ledger]) fun _ _ => safe_bind (safe_perform
    (by simp [ledger]) fun _ _ => ?_))
  have hback : ledger.after (.iupdate ip) (ledger.after (.setAttrs ip major minor 1) (g.both dp ip) ())
      () = g.both dp ip := by
    simp [ledger, Status.updated, Held.both]
  change Safe ledger _ (ledger.after (.iupdate ip) (ledger.after (.setAttrs ip major minor 1)
    (g.both dp ip) ()) ()) _
  rw [hback]
  refine (onlyIf_safe (fun _ => createDots_safe hlock (by simp [Held.both]) (has_locked ..) _ _)
    rfl).andThen fun _ => ?_
  refine (dirlink_safe hlock both_has name _).andThen fun r =>
    safe_ite (fun _ => panic_safe) fun _ => ?_
  refine (unlockput_first hfree hne).andThen fun _ => ?_
  refine ⟨?_, rfl⟩
  change ((g.take dp).setLock dp (some .clean)).lock ip = none at hip
  rwa [setLock_lock, if_neg hne] at hip

theorem create_safe (hcwd : g.Settled) (path : Path) (type major minor : Int16) :
    Safe ledger (create path type major minor) g (Created g) := by
  refine (nameiparent_safe hcwd path).bind ?_
  rintro (- | ⟨dp, name⟩) _ rfl
  · exact rfl
  refine ilock_safe (has_take ..) fun hfree => ?_
  refine (dirlookup_safe (by simp) (has_locked ..) name).bind ?_
  rintro (- | ⟨ip, off⟩) _ rfl
  · exact createNew_safe (g := g) hfree name type major minor
  -- the entry's inode is in hand while the directory is given back
  have hswap : ((g.take dp).setLock dp (some .clean)).take ip =
      ((g.take ip).take dp).setLock dp (some .clean) := by
    rw [take_comm]
    rfl
  dsimp only
  rw [hswap]
  refine (unlockput_safe (g := g.take ip) hfree).andThen fun _ => ?_
  refine ilock_safe (has_take ..) fun hip => ?_
  refine (inode_safe (by simp)).andThen fun v => safe_ite (fun _ => ⟨hip, rfl⟩) fun _ => ?_
  exact (unlockput_safe (g := g) hip).andThen fun _ => rfl

theorem openInode_safe (hcwd : g.Settled) (path : Path) (omode : UInt32) :
    Safe ledger (openInode path omode) g (Created g) := by
  refine safe_ite (fun _ => create_safe hcwd path _ _ _) fun _ => ?_
  refine (namei_safe hcwd path).bind ?_
  rintro (- | ip) _ rfl
  · exact rfl
  refine ilock_safe (has_take ..) fun hip => ?_
  refine (inode_safe (by simp)).andThen fun v => safe_ite (fun _ => ?_) fun _ => ⟨hip, rfl⟩
  exact (unlockput_safe (g := g) hip).andThen fun _ => rfl

/-- What `sys_open` leaves: a file with a reference, or nothing. -/
def Opened (g : Held) (r : Int) (g' : Held) : Prop :=
  r < 0 ∧ g' = g ∨ 0 ≤ r ∧ ∃ ip, g' = { g with stored := ip :: g.stored }

theorem sysOpen_safe (h : g.Idle) (path : Option Path) (omode : Option UInt32) :
    Safe ledger (sysOpen path omode) g (Opened g) := by
  cases path with
  | none => exact .inl ⟨by decide, rfl⟩
  | some path =>
  cases omode with
  | none => exact .inl ⟨by decide, rfl⟩
  | some omode =>
  have hfail : Safe ledger fail g.inOp (Opened g) :=
    (fail_safe h.ops).mono fun r g' hr => .inl ⟨by rw [hr.1]; decide, hr.2⟩
  refine (beginOp_safe h).andThen fun _ => ?_
  refine (openInode_safe (g := g.inOp) h.settled path omode).bind ?_
  rintro (- | ip) g' hr
  · cases hr
    exact hfail
  obtain ⟨hip, rfl⟩ := hr
  have hbad : Safe ledger (openBad ip) ((g.inOp.take ip).setLock ip (some .clean)) (Opened g) := by
    exact (unlockput_safe (g := g.inOp) hip).andThen fun _ => hfail
  refine safe_bind (safe_perform trivial fun (f : Bool) _ => safe_ite (fun _ => ?_) fun _ => hbad)
  refine safe_bind (safe_perform trivial ?_)
  rintro (- | fd) -
  · exact hbad
  refine (iunlock_safe (by simp [ledger])).andThen fun _ => ?_
  have hleft : (ledger.after .fdalloc (ledger.after (.ask .filealloc)
      ((g.inOp.take ip).setLock ip (some .clean)) f) (some fd)).setLock ip none = (g.take ip).inOp := by
    change ((g.inOp.take ip).setLock ip (some .clean)).setLock ip none = _
    rw [setLock_setLock, setLock_self (g := g.inOp.take ip) hip]
    rfl
  rw [hleft]
  refine (endOp_safe (g := g.take ip) h.ops).andThen fun _ => ?_
  exact safe_bind (safe_perform ⟨g.one_le_take ip, hip⟩ fun _ _ =>
    .inr ⟨Int.natCast_nonneg _, ip, g.store_take ip⟩)

theorem createDone_safe (h : g.Idle) {r : Option Ip} {g' : Held} (hr : Created g.inOp r g') :
    Leaves (createDone r) g' g := by
  cases r with
  | none =>
    cases hr
    exact fail_back h.ops
  | some ip =>
    obtain ⟨hip, rfl⟩ := hr
    refine (unlockput_safe (g := g.inOp) hip).andThen fun _ => ?_
    exact (endOp_safe h.ops).andThen fun _ => rfl

theorem sysMkdir_safe (h : g.Idle) (path : Option Path) : Leaves (sysMkdir path) g g := by
  refine (beginOp_safe h).andThen fun _ => ?_
  cases path with
  | none => exact fail_back h.ops
  | some path =>
    exact (create_safe (g := g.inOp) h.settled path _ _ _).bind fun r g' hr => createDone_safe h hr

theorem sysMknod_safe (h : g.Idle) (path : Option Path) (major minor : Option Int16) :
    Leaves (sysMknod path major minor) g g := by
  have hfail := fail_back h.ops
  refine (beginOp_safe h).andThen fun _ => ?_
  cases path with
  | none => exact hfail
  | some path =>
  cases major with
  | none => exact hfail
  | some major =>
  cases minor with
  | none => exact hfail
  | some minor =>
    exact (create_safe (g := g.inOp) h.settled path _ _ _).bind fun r g' hr => createDone_safe h hr

/-- What `sys_chdir` leaves: another directory in place of the old one, or nothing. -/
def Moved (g : Held) (r : Int) (g' : Held) : Prop :=
  r = -1 ∧ g' = g ∨
    r = 0 ∧ ∃ old ip, g.cwd = some old ∧ g' = { (g.take ip).drop old with cwd := some ip }

theorem sysChdir_safe (h : g.Idle) (path : Option Path) :
    Safe ledger (sysChdir path) g (Moved g) := by
  have hfail : Safe ledger fail g.inOp (Moved g) := (fail_safe h.ops).mono fun _ _ hr => .inl hr
  refine (beginOp_safe h).andThen fun _ => ?_
  cases path with
  | none => exact hfail
  | some path =>
  refine (namei_safe (g := g.inOp) h.settled path).bind ?_
  rintro (- | ip) _ rfl
  · exact hfail
  refine ilock_safe (has_take ..) fun hip => ?_
  refine (inode_safe (by simp)).andThen fun v => safe_ite (fun _ => ?_) fun _ => ?_
  · exact (unlockput_safe (g := g.inOp) hip).andThen fun _ => hfail
  refine (iunlock_safe (by simp)).andThen fun _ => ?_
  rw [setLock_setLock, setLock_self hip]
  refine safe_bind (safe_perform trivial fun old hold => ?_)
  change g.cwd = some old at hold
  have hcwd := h.settled old hold
  refine (iput_safe (g := g.inOp.take ip) (Nat.le_add_right_of_le hcwd)).bind ?_
  rintro _ _ ⟨-, rfl⟩
  refine (endOp_safe (g := (g.take ip).drop old) h.ops).andThen fun _ => ?_
  refine safe_bind (safe_perform ?_ fun _ _ => .inr ⟨rfl, old, ip, hold, rfl⟩)
  -- the new directory may be the old one
  change 1 ≤ g.refs ip + one ip ip - one old ip
  rw [one_self]
  by_cases heq : ip = old
  · subst heq
    rw [one_self]
    omega
  · have hzero : one old ip = 0 := if_neg heq
    omega

theorem loaduvm_safe (hlock : g.lock ip = some .clean) (hhas : g.Has ip) (offset sz : UInt32) :
    ∀ pages i, Leaves (loaduvm ip offset sz pages i) g g
  | 0, _ => rfl
  | pages + 1, _ =>
    safe_ite (fun _ => (readi_safe hlock hhas _ _).andThen fun _ =>
      safe_ite (fun _ => loaduvm_safe hlock hhas offset sz pages _) fun _ => rfl) fun _ => rfl

theorem loadSegs_safe (hlock : g.lock ip = some .clean) (hhas : g.Has ip) :
    ∀ phnum off, Leaves (loadSegs ip phnum off) g g
  | 0, _ => rfl
  | phnum + 1, off => by
    refine (readi_safe hlock hhas _ _).andThen ?_
    rintro (- | ph)
    · exact rfl
    refine safe_ite (fun _ => rfl) fun _ => ?_
    refine safe_ite (fun _ => loadSegs_safe hlock hhas phnum _) fun _ => ?_
    refine safe_ite (fun _ => rfl) fun _ => safe_ite (fun _ => rfl) fun _ => ?_
    refine safe_bind (safe_perform trivial fun (room : Bool) _ => safe_ite (fun _ => ?_) fun _ => rfl)
    refine safe_ite (fun _ => rfl) fun _ => ?_
    refine (loaduvm_safe hlock hhas _ _ _ _).andThen fun ok => ?_
    exact safe_ite (fun _ => loadSegs_safe hlock hhas phnum _) fun _ => rfl

theorem loadElf_safe (hlock : g.lock ip = some .clean) (hhas : g.Has ip) :
    Leaves (loadElf ip) g g := by
  refine (readi_safe hlock hhas _ _).andThen ?_
  rintro (- | elf)
  · exact rfl
  refine safe_ite (fun _ => rfl) fun _ => ?_
  refine safe_bind (safe_perform trivial fun (kvm : Bool) _ => safe_ite (fun _ => ?_) fun _ => rfl)
  exact loadSegs_safe hlock hhas _ _

theorem exec_safe (h : g.Idle) (path : Path) : Leaves (exec path) g g := by
  refine (beginOp_safe h).andThen fun _ => ?_
  refine (namei_safe (g := g.inOp) h.settled path).bind ?_
  rintro (- | ip) _ rfl
  · exact fail_back h.ops
  refine ilock_safe (has_take ..) fun hip => ?_
  refine (loadElf_safe (by simp) (has_locked ..)).andThen fun loaded => ?_
  refine (unlockput_safe (g := g.inOp) hip).andThen fun _ => ?_
  refine (endOp_safe h.ops).andThen fun _ => ?_
  refine safe_ite (fun _ => ?_) fun _ => rfl
  exact safe_bind (safe_perform trivial fun _ _ => rfl)

theorem filewriteLoop_safe (h : g.Idle) (hhas : g.Has ip) :
    ∀ fuel bytes, Leaves (filewriteLoop ip fuel bytes) g g
  | 0, _ => rfl
  | fuel + 1, bytes => by
    refine safe_ite (fun _ => rfl) fun _ => (beginOp_safe h).andThen fun _ => ?_
    refine ilock_safe (g := g.inOp) hhas fun hfree => ?_
    refine safe_bind (safe_perform trivial fun (off : UInt32) _ => ?_)
    refine (writei_safe (g := g.inOp.setLock ip (some .clean)) (by simp) hhas _ _).andThen fun r => ?_
    refine (iunlock_safe (by simp)).andThen fun _ => ?_
    rw [setLock_setLock, setLock_self hfree]
    refine (endOp_safe h.ops).bind fun _ _ hg => ?_
    rw [hg]
    cases r with
    | none => exact rfl
    | some n =>
      exact safe_ite (fun _ => panic_safe) fun _ => filewriteLoop_safe h hhas fuel _

theorem filewrite_safe (h : g.Idle) (hhas : g.Has ip) (bytes : List UInt8) :
    Safe ledger (filewrite ip bytes) g fun _ g' => g' = g :=
  (filewriteLoop_safe h hhas _ _).andThen fun _ => rfl

/-- Seven thousand bytes, in two chunks. -/
theorem filewrite_safe_long : ∃ (bytes : List UInt8) (g : Held), maxWrite < bytes.length ∧
    Safe ledger (filewrite 7 bytes) g fun _ g' => g' = g := by
  obtain ⟨bytes, hlen⟩ : ∃ bytes : List UInt8, bytes.length = 7000 :=
    ⟨List.replicate 7000 1, List.length_replicate⟩
  exact ⟨bytes, ⟨0, fun _ => none, 0, none, some 7, []⟩, by rw [hlen]; decide,
    filewrite_safe ⟨rfl, fun _ => rfl, fun _ h => by cases h⟩ (.inr rfl) bytes⟩

end Calls

/-! ## §4  Counted along a trace -/

/-- An operation with its answer. -/
abbrev Event := (o : Op) × Res o

namespace Event

def begins : Event → Bool
  | ⟨.beginOp, _⟩ => true
  | _ => false

def ends : Event → Bool
  | ⟨.endOp, _⟩ => true
  | _ => false

def acquires (k : Ip) : Event → Bool
  | ⟨.acquiresleep ip, _⟩ => ip = k
  | _ => false

def releases (k : Ip) : Event → Bool
  | ⟨.releasesleep ip, _⟩ => ip = k
  | _ => false

/-- `ref` of `k` goes up. -/
def takes (k : Ip) : Event → Bool
  | ⟨.iget _ _, (ip : Ip)⟩ => decide (ip = k)
  | ⟨.idup ip, _⟩ => ip = k
  | _ => false

/-- `ref` of `k` goes down. -/
def drops (k : Ip) : Event → Bool
  | ⟨.decRef ip, _⟩ => ip = k
  | _ => false

end Event

/-- The books of a process: transactions, locks, and references in hand or stored. -/
structure Counts (g : Held) (tr : List Event) (g' : Held) : Prop where
  ops : g'.ops + tr.countP Event.ends = g.ops + tr.countP Event.begins
  lock : ∀ k, (g'.lock k).isSome.toNat + tr.countP (Event.releases k) =
    (g.lock k).isSome.toNat + tr.countP (Event.acquires k)
  refs : ∀ k, g'.refs k + g'.stored.count k + tr.countP (Event.drops k) =
    g.refs k + g.stored.count k + tr.countP (Event.takes k)

/-- An operation that moves neither transactions, locks nor references. -/
structure Event.Idle (e : Event) : Prop where
  begins : e.begins = false
  ends : e.ends = false
  acquires : ∀ k, e.acquires k = false
  releases : ∀ k, e.releases k = false
  takes : ∀ k, e.takes k = false
  drops : ∀ k, e.drops k = false

section Counting

variable {g g' : Held} {e : Event}

theorem Event.Idle.counts (h : e.Idle) : Counts g [e] g where
  ops := by simp [h.begins, h.ends]
  lock k := by simp [h.acquires, h.releases]
  refs k := by simp [h.takes, h.drops]

/-- Something is learnt or changed of a locked inode. -/
theorem Event.Idle.counts_setLock (h : e.Idle) {ip : Ip} {st : Option Status}
    (hst : st.isSome = (g.lock ip).isSome) : Counts g [e] (g.setLock ip st) where
  ops := by simp [h.begins, h.ends]
  lock k := by
    rw [setLock_lock]
    by_cases hk : k = ip
    · rw [if_pos hk, hst, hk]
      simp [h.acquires, h.releases]
    · rw [if_neg hk]
      simp [h.acquires, h.releases]
  refs k := by simp [h.takes, h.drops, Held.setLock]

/-- A reference in hand is stored. -/
theorem Event.Idle.counts_store (h : e.Idle) {ip : Ip} (href : 1 ≤ g.refs ip) :
    Counts g [e] (g.store ip) where
  ops := by simp [h.begins, h.ends, Held.store]
  lock k := by simp [h.acquires, h.releases, Held.store]
  refs k := by
    simp only [h.takes, h.drops, Held.store, List.countP_singleton, List.count_cons]
    by_cases hk : k = ip
    · subst hk
      simp only [one_self, beq_self_eq_true, if_true]
      omega
    · have hzero : one ip k = 0 := if_neg hk
      simp only [hzero, beq_iff_eq, Ne.symm hk, if_false]
      omega

/-- A reference is taken. -/
theorem counts_take {ip : Ip} (hops : e.begins = false ∧ e.ends = false)
    (hlock : ∀ k, e.acquires k = false ∧ e.releases k = false) (hdrops : ∀ k, e.drops k = false)
    (htakes : ∀ k, e.takes k = decide (ip = k)) : Counts g [e] (g.take ip) where
  ops := by simp [hops.1, hops.2]
  lock k := by simp [(hlock k).1, (hlock k).2]
  refs k := by
    simp only [hdrops, htakes, Held.take, List.countP_singleton]
    by_cases hk : k = ip
    · subst hk
      simp
      omega
    · have hzero : one ip k = 0 := if_neg hk
      simp [hzero, Ne.symm hk]

/-- What a locked inode is known to be stays known, in other words. -/
theorem Event.Idle.counts_known (h : e.Idle) {ip : Ip} {st st' : Status}
    (hst : g.lock ip = some st) : Counts g [e] (g.setLock ip (some st')) :=
  h.counts_setLock (by rw [hst]; rfl)

/-- **Every operation keeps the books.** -/
theorem counts_after {o : Op} {r : Res o} (hneed : ledger.need o g) (hcan : ledger.can o g r) :
    Counts g [⟨o, r⟩] (ledger.after o g r) := by
  cases o with
  | beginOp => exact ⟨rfl, fun _ => rfl, fun _ => rfl⟩
  | endOp =>
    change g.ops = 1 at hneed
    refine ⟨?_, fun _ => rfl, fun _ => rfl⟩
    change g.ops - 1 + 1 = g.ops + 0
    rw [hneed]
  | iget dev inum | idup ip =>
    exact counts_take ⟨rfl, rfl⟩ (fun _ => ⟨rfl, rfl⟩) (fun _ => rfl) fun _ => rfl
  | decRef ip =>
    have href : 1 ≤ g.refs ip := hneed.1
    refine ⟨rfl, fun k => rfl, fun k => ?_⟩
    by_cases hk : k = ip
    · subst hk
      simp [ledger, Event.takes, Event.drops]
      omega
    · have hzero : one ip k = 0 := if_neg hk
      simp [ledger, Event.takes, Event.drops, hzero, Ne.symm hk]
  | acquiresleep ip =>
    change g.lock ip = none at hcan
    refine ⟨rfl, fun k => ?_, fun k => rfl⟩
    by_cases hk : k = ip
    · subst hk
      simp [ledger, Event.acquires, Event.releases, hcan]
    · simp [ledger, Event.acquires, Event.releases, hk, Ne.symm hk]
  | releasesleep ip =>
    have hsome : (g.lock ip).isSome = true := by
      rcases hneed with h | h <;> rw [h] <;> rfl
    refine ⟨rfl, fun k => ?_, fun k => rfl⟩
    by_cases hk : k = ip
    · subst hk
      simp [ledger, Event.acquires, Event.releases, hsome]
    · simp [ledger, Event.acquires, Event.releases, hk, Ne.symm hk]
  | load ip | itrunc ip | clearType ip | invalidate ip | setAttrs ip =>
    refine Event.Idle.counts_known ⟨rfl, rfl, fun _ => rfl, fun _ => rfl, fun _ => rfl,
      fun _ => rfl⟩ hneed
  | dead ip =>
    have h : Event.Idle ⟨.dead ip, r⟩ :=
      ⟨rfl, rfl, fun _ => rfl, fun _ => rfl, fun _ => rfl, fun _ => rfl⟩
    change Bool at r
    cases r with
    | true => exact h.counts_known hneed
    | false => exact h.counts
  | iupdate ip =>
    refine Event.Idle.counts_setLock ⟨rfl, rfl, fun _ => rfl, fun _ => rfl, fun _ => rfl,
      fun _ => rfl⟩ ?_
    exact Option.isSome_map
  | openFile ip =>
    refine Event.Idle.counts_store ⟨rfl, rfl, fun _ => rfl, fun _ => rfl, fun _ => rfl,
      fun _ => rfl⟩ hneed.1
  | setCwd ip => exact ⟨rfl, fun _ => rfl, fun _ => rfl⟩
  | _ => exact Event.Idle.counts ⟨rfl, rfl, fun _ => rfl, fun _ => rfl, fun _ => rfl, fun _ => rfl⟩

theorem Counts.append {g₁ g₂ g₃ : Held} {tr tr' : List Event} (h : Counts g₁ tr g₂)
    (h' : Counts g₂ tr' g₃) : Counts g₁ (tr ++ tr') g₃ where
  ops := by
    rw [List.countP_append, List.countP_append]
    have := h.ops
    have := h'.ops
    omega
  lock k := by
    rw [List.countP_append, List.countP_append]
    have := h.lock k
    have := h'.lock k
    omega
  refs k := by
    rw [List.countP_append, List.countP_append]
    have := h.refs k
    have := h'.refs k
    omega

/-- The books of a whole trace. -/
theorem counts_trace : ∀ {tr : List Event} {g g' : Held}, ledger.Keeps g tr →
    ledger.Follows g tr g' → Counts g tr g'
  | [], _, _, _, rfl => ⟨rfl, fun _ => rfl, fun _ => rfl⟩
  | ⟨_, _⟩ :: _, _, _, ⟨hneed, hkeeps⟩, ⟨hcan, hfollows⟩ =>
    (counts_after hneed hcan).append (counts_trace hkeeps hfollows)

end Counting

/-! ## §5  The calls with a path -/

/-- What a call leaves behind: `took` and `gave` say how often it took a reference
to an inode and gave one up. -/
def PathCall.Stored (cwd : Option Ip) (r : Int) (took gave : Ip → Nat) : PathCall → Prop
  | opens .. => r < 0 ∧ took = gave ∨ 0 ≤ r ∧ ∃ ip, ∀ k, took k = gave k + one ip k
  | chdir _ => r = -1 ∧ took = gave ∨
      r = 0 ∧ ∃ old ip, cwd = some old ∧ ∀ k, took k + one old k = gave k + one ip k
  | _ => took = gave

section PathCalls

variable {g g' : Held} {tr : List Event} {r : Int}

/-- How the process leaves the call. -/
def PathCall.Ends (g : Held) (r : Int) (g' : Held) : PathCall → Prop
  | opens .. => Opened g r g'
  | chdir _ => Moved g r g'
  | _ => g' = g

theorem PathCall.safe (h : g.Idle) : ∀ c : PathCall, Safe ledger c.prog g fun r g' => c.Ends g r g'
  | link old new => sysLink_safe h old new
  | unlink path => sysUnlink_safe h path
  | opens path omode => sysOpen_safe h path omode
  | mkdir path => sysMkdir_safe h path
  | mknod path major minor => sysMknod_safe h path major minor
  | chdir path => sysChdir_safe h path
  | exec path => exec_safe h path

/-- The working directory is in hand. -/
theorem one_le_of_settled (h : g.Settled) {old : Ip} (hold : g.cwd = some old) (k : Ip) :
    one old k ≤ g.refs k := by
  rw [one]
  split
  · next hk => exact hk ▸ h old hold
  · exact Nat.zero_le _

/-- No transaction and no lock is left, and there is a working directory as before. -/
theorem PathCall.Ends.idle (h : g.Idle) {c : PathCall} (hc : c.Ends g r g') : g'.Idle := by
  cases c with
  | opens _ _ =>
    obtain ⟨-, rfl⟩ | ⟨-, ip, rfl⟩ := hc
    · exact h
    · exact ⟨h.ops, h.lock, h.settled⟩
  | chdir _ =>
    obtain ⟨-, rfl⟩ | ⟨-, old, ip, hold, rfl⟩ := hc
    · exact h
    · refine ⟨h.ops, h.lock, ?_⟩
      rintro _ ⟨⟩
      have hle := one_le_of_settled h.settled hold ip
      simp only [drop_refs, take_refs, one_self]
      omega
  | _ =>
    cases hc
    exact h

/-- The references that are taken and not given up are those that are stored. -/
theorem PathCall.Ends.stored (h : g.Idle) {c : PathCall} (hc : c.Ends g r g')
    (hcounts : Counts g tr g') : c.Stored g.cwd r (fun k => tr.countP (Event.takes k))
      fun k => tr.countP (Event.drops k) := by
  have hsame : Counts g tr g →
      (fun k => tr.countP (Event.takes k)) = fun k => tr.countP (Event.drops k) := by
    intro hg
    funext k
    have := hg.refs k
    omega
  cases c with
  | opens _ _ =>
    obtain ⟨hr, rfl⟩ | ⟨hr, ip, rfl⟩ := hc
    · exact .inl ⟨hr, hsame hcounts⟩
    · refine .inr ⟨hr, ip, fun k => ?_⟩
      have hrefs := hcounts.refs k
      have hone : (ip :: g.stored).count k = g.stored.count k + one ip k := by
        rw [List.count_cons, one]
        simp only [beq_iff_eq, eq_comm (a := k)]
      simp only [hone] at hrefs
      change tr.countP (Event.takes k) = tr.countP (Event.drops k) + one ip k
      omega
  | chdir _ =>
    obtain ⟨hr, rfl⟩ | ⟨hr, old, ip, hold, rfl⟩ := hc
    · exact .inl ⟨hr, hsame hcounts⟩
    · refine .inr ⟨hr, old, ip, hold, fun k => ?_⟩
      have hrefs := hcounts.refs k
      have hle := one_le_of_settled h.settled hold k
      simp only [drop_refs, take_refs, drop_stored, take_stored] at hrefs
      change tr.countP (Event.takes k) + one old k = tr.countP (Event.drops k) + one ip k
      omega
  | _ =>
    cases hc
    exact hsame hcounts

/-- **A call with a path gives back what it takes.** A process that is in no transaction
and has no inode locked makes the call, and the operations of the call are `tr`, with
their answers, when it returns `r`. Then every operation was in order, transactions do
not nest, each one that was begun was ended, each lock that was taken was released, and
the references it took are those it gave up, but for what it has stored: one by a
successful `open`, one in the place of the old one by a successful `chdir`. -/
theorem calls_give_back (h : g.Idle) (c : PathCall) (htrace : c.prog.Trace tr r)
    (hfollows : ledger.Follows g tr g') :
    ledger.Keeps g tr ∧ tr.countP Event.begins = tr.countP Event.ends ∧
      (∀ k, tr.countP (Event.acquires k) = tr.countP (Event.releases k)) ∧ g'.Idle ∧
      c.Stored g.cwd r (fun k => tr.countP (Event.takes k)) fun k => tr.countP (Event.drops k) := by
  obtain ⟨hkeeps, hends⟩ := (c.safe h).trace htrace hfollows
  have hcounts := counts_trace hkeeps hfollows
  have hidle := hends.idle h
  refine ⟨hkeeps, ?_, fun k => ?_, hidle, hends.stored h hcounts⟩
  · have hops := hcounts.ops
    rw [hidle.ops, h.ops] at hops
    omega
  · have hlock := hcounts.lock k
    rw [hidle.lock, h.lock] at hlock
    omega

/-- `open("/", O_RDONLY)` leaves one more reference, in the file. -/
theorem calls_give_back_root : ∃ (g g' : Held) (tr : List Event),
    g.Idle ∧ (PathCall.opens (some [slash]) (some 0)).prog.Trace tr 0 ∧ ledger.Follows g tr g' ∧
      tr.countP Event.begins = 1 ∧ tr.countP Event.ends = 1 ∧
      tr.countP (Event.takes 0) = tr.countP (Event.drops 0) + 1 ∧ g'.Idle := by
  let g : Held := ⟨0, fun _ => none, fun k => one 7 k, some 7, none, []⟩
  let v : View := ⟨1, 1, tDir, 0, 0, 1, 512⟩
  let tr : List Event := [⟨.beginOp, ()⟩, ⟨.iget 1 1, (0 : Ip)⟩, ⟨.acquiresleep 0, ()⟩,
    ⟨.load 0, ()⟩, ⟨.inode 0, v⟩, ⟨.ask .filealloc, true⟩, ⟨.fdalloc, some (0 : Fin 16)⟩,
    ⟨.releasesleep 0, ()⟩, ⟨.endOp, ()⟩, ⟨.openFile 0, ()⟩]
  have hidle : g.Idle := ⟨rfl, fun _ => rfl, fun k hk => by cases hk; decide⟩
  have htrace : (PathCall.opens (some [slash]) (some 0)).prog.Trace tr 0 :=
    .op (.op (.op (.op (.op (.op (.op (.op (.op (.op .ret)))))))))
  obtain ⟨g', hfollows⟩ : ∃ g', ledger.Follows g tr g' :=
    ⟨_, trivial, trivial, rfl, trivial, trivial, trivial, trivial, trivial, trivial, trivial, rfl⟩
  obtain ⟨-, hops, -, hidle', -⟩ := calls_give_back hidle _ htrace hfollows
  exact ⟨g, g', tr, hidle, htrace, hfollows, by decide, hops.symm.trans (by decide), by decide, hidle'⟩

end PathCalls

end Xv6.Fs.Call
