import Xv6.Fs.Calls
import Xv6.Kernel.Layout

/-!
# Running the calls of the file system

What each operation of the calls does to the inodes, the inode cache and the tables
of a process (`handle`), so that a call can be run from a state. The inodes are given as
byte sequences with attributes; an entry of the cache has its own copy of the
attributes, which is loaded by `ilock` and written back by `iupdate`.

A call runs on its own here, and between calls no inode is locked. Then a process
that finds an inode locked has locked it itself, and sleeps for ever.
-/

namespace Xv6.Fs.Call

open Function

/-! ## §1  States -/

abbrev Pid := Fin 64

abbrev nofile : Nat := 16

/-- Where a call stops. -/
inductive Stop where
  | panic (p : Panic)
  | igetNoInodes     -- "iget: no inodes"
  | iallocNoInodes   -- "ialloc: no inodes"
  | ilock            -- "ilock"
  | ilockNoType      -- "ilock: no type"
  | iunlock          -- "iunlock"
  | selfWait         -- it waits for a lock that it has
  | wait             -- it waits for the lock of another process
  | noCwd            -- the process has no current directory
  | notLoaded        -- attributes are used that are not valid
deriving DecidableEq

/-- The attributes of an inode, as its entry in the cache has them. -/
structure Attrs where
  type : Int16
  major : Int16
  minor : Int16
  nlink : Int16
deriving DecidableEq

/-- `struct inode`; `copy` is `none` when `valid` is 0. -/
structure CacheInode where
  dev : Nat
  inum : Nat
  ref : Nat
  lock : Option Pid
  copy : Option Attrs

/-- What comes from outside of the file system. -/
structure World where
  ask : Nat → Bool
  device : Nat → Option (List UInt8)
  offset : Nat → UInt32

structure State where
  ninodes : Nat
  files : InodeTable
  icache : Ip → CacheInode
  cwd : Pid → Option Ip
  ofile : Pid → Fin nofile → Option (Option Ip)   -- `some none` is a file without inode yet
  ftable : Nat                                    -- free file structures
  world : World

/-- The attributes of an inode on the disk. -/
def attrsOf (f : Inode) : Attrs := ⟨f.type, f.major, f.minor, f.nlink⟩

/-- What `iupdate` writes, to an inode with the given bytes. -/
def Attrs.file (a : Attrs) (data : List UInt8) : Option Inode :=
  if a.type = 0 then none else some ⟨a.type, a.major, a.minor, a.nlink, data⟩

namespace CacheInode

def withRef (c : CacheInode) (n : Nat) : CacheInode := { c with ref := n }

def withLock (c : CacheInode) (l : Option Pid) : CacheInode := { c with lock := l }

def withCopy (c : CacheInode) (a : Option Attrs) : CacheInode := { c with copy := a }

end CacheInode

namespace State

variable (s : State)

def put (ip : Ip) (c : CacheInode) : State := { s with icache := update s.icache ip c }

def write (i : Nat) (f : Option Inode) : State := { s with files := update s.files i f }

/-- The inode that an entry of the cache stands for. -/
def file (ip : Ip) : Option Inode := s.files (s.icache ip).inum

def setCwd (p : Pid) (ip : Option Ip) : State := { s with cwd := update s.cwd p ip }

def setFile (p : Pid) (fd : Fin nofile) (f : Option (Option Ip)) : State :=
  { s with ofile := update s.ofile p (update (s.ofile p) fd f) }

end State

/-! ## §2  Operations -/

/-- The loop of `iget` for an inode that is in use. -/
def cached (s : State) (dev inum : Nat) : Option Ip :=
  (List.finRange ninode).find? fun k =>
    0 < (s.icache k).ref ∧ (s.icache k).dev = dev ∧ (s.icache k).inum = inum

/-- The entry it recycles. -/
def unusedEntry (s : State) : Option Ip :=
  (List.finRange ninode).find? fun k => (s.icache k).ref = 0

def doIget (dev inum : Nat) (s : State) : Except Stop (Ip × State) :=
  match cached s dev inum with
  | some k => .ok (k, s.put k ((s.icache k).withRef ((s.icache k).ref + 1)))
  | none =>
    match unusedEntry s with
    | some k => .ok (k, s.put k ⟨dev, inum, 1, (s.icache k).lock, none⟩)
    | none => .error .igetNoInodes

def doLoad (ip : Ip) (s : State) : Except Stop (Unit × State) :=
  if (s.icache ip).ref < 1 then .error .ilock
  else
    match (s.icache ip).copy with
    | some _ => .ok ((), s)
    | none =>
      match s.file ip with
      | some f => .ok ((), s.put ip ((s.icache ip).withCopy (some (attrsOf f))))
      | none => .error .ilockNoType

/-- The fields of an inode that is in memory. -/
def viewOf (c : CacheInode) (a : Attrs) (f : Inode) : View :=
  ⟨c.dev, c.inum, a.type, a.major, a.minor, a.nlink, UInt32.ofNat f.data.length⟩

def doInode (ip : Ip) (s : State) : Except Stop (View × State) :=
  match (s.icache ip).copy, s.file ip with
  | some a, some f => .ok (viewOf (s.icache ip) a f, s)
  | _, _ => .error .notLoaded

/-- `iupdate`. -/
def doUpdate (ip : Ip) (s : State) : Except Stop (Unit × State) :=
  match (s.icache ip).copy with
  | some a => .ok ((), s.write (s.icache ip).inum (a.file (((s.file ip).map Inode.data).getD [])))
  | none => .error .notLoaded

def setType (ip : Ip) (type : Int16) (s : State) : Except Stop (Unit × State) :=
  match (s.icache ip).copy with
  | some a => .ok ((), s.put ip ((s.icache ip).withCopy (some { a with type := type })))
  | none => .error .notLoaded

def setAttrs (ip : Ip) (major minor nlink : Int16) (s : State) : Except Stop (Unit × State) :=
  match (s.icache ip).copy with
  | some a => .ok ((), s.put ip ((s.icache ip).withCopy (some ⟨a.type, major, minor, nlink⟩)))
  | none => .error .notLoaded

def doTrunc (ip : Ip) (s : State) : State :=
  s.write (s.icache ip).inum ((s.file ip).map fun f => { f with data := [] })

def doIalloc (type : Int16) (s : State) : Except Stop (Nat × State) :=
  match s.files.firstFree s.ninodes with
  | some i => .ok (i, s.write i (some ⟨type, 0, 0, 0, []⟩))
  | none => .error .iallocNoInodes

def doReadi (ip : Ip) (off n : UInt32) (s : State) :
    Except Stop (Option (List UInt8) × State) :=
  match s.file ip with
  | some f => .ok (f.readi off n, s)
  | none => .error .notLoaded

def doWritei (ip : Ip) (bytes : List UInt8) (off : UInt32) (s : State) :
    Except Stop (Option UInt32 × State) :=
  match s.file ip with
  | some f =>
    match f.writei (bytesAt bytes) off (UInt32.ofNat bytes.length) with
    | some f => .ok (some (UInt32.ofNat bytes.length), s.write (s.icache ip).inum (some f))
    | none => .ok (none, s)
  | none => .error .notLoaded

/-- The first descriptor without a file. -/
def freeFd (s : State) (p : Pid) : Option (Fin nofile) :=
  (List.finRange nofile).find? fun fd => s.ofile p fd = none

def doFdalloc (p : Pid) (s : State) : Option (Fin nofile) × State :=
  match freeFd s p with
  | some fd => (some fd, s.setFile p fd (some none))
  | none => (none, s)

/-- `f->ip = ip` for the descriptor that was allocated. -/
def doOpenFile (p : Pid) (ip : Ip) (s : State) : State :=
  match (List.finRange nofile).find? fun fd => s.ofile p fd = some none with
  | some fd => { s.setFile p fd (some (some ip)) with ftable := s.ftable - 1 }
  | none => s

/-- The answer to a question, and the world behind it. -/
def doAsk (a : Ask) (s : State) : Bool × State :=
  match a with
  | .filealloc => (decide (0 < s.ftable), s)
  | _ => (s.world.ask 0, { s with world := { s.world with ask := fun n => s.world.ask (n + 1) } })

def doDevice (s : State) : Option (List UInt8) × State :=
  (s.world.device 0,
    { s with world := { s.world with device := fun n => s.world.device (n + 1) } })

def doOffset (s : State) : UInt32 × State :=
  (s.world.offset 0,
    { s with world := { s.world with offset := fun n => s.world.offset (n + 1) } })

/-- What an operation of process `p` does. -/
def handle (p : Pid) : Prog.Handler Op Res State Stop
  | .beginOp, s => .ok ((), s)
  | .endOp, s => .ok ((), s)
  | .iget dev inum, s => doIget dev inum s
  | .idup ip, s => .ok ((), s.put ip ((s.icache ip).withRef ((s.icache ip).ref + 1)))
  | .acquiresleep ip, s =>
    match (s.icache ip).lock with
    | none => .ok ((), s.put ip ((s.icache ip).withLock (some p)))
    | some q => .error (if q = p then .selfWait else .wait)
  | .releasesleep ip, s =>
    if (s.icache ip).lock = some p ∧ 1 ≤ (s.icache ip).ref then
      .ok ((), s.put ip ((s.icache ip).withLock none))
    else .error .iunlock
  | .load ip, s => doLoad ip s
  | .dead ip, s => .ok ((s.icache ip).copy.any fun a => a.nlink = 0, s)
  | .ref ip, s => .ok ((s.icache ip).ref, s)
  | .itrunc ip, s => .ok ((), doTrunc ip s)
  | .clearType ip, s => setType ip 0 s
  | .iupdate ip, s => doUpdate ip s
  | .invalidate ip, s => .ok ((), s.put ip ((s.icache ip).withCopy none))
  | .decRef ip, s => .ok ((), s.put ip ((s.icache ip).withRef ((s.icache ip).ref - 1)))
  | .inode ip, s => doInode ip s
  | .setAttrs ip major minor nlink, s => setAttrs ip major minor nlink s
  | .ialloc _ type, s => doIalloc type s
  | .readi ip off n, s => doReadi ip off n s
  | .writei ip bytes off, s => doWritei ip bytes off s
  | .cwd, s =>
    match s.cwd p with
    | some ip => .ok (ip, s)
    | none => .error .noCwd
  | .setCwd ip, s => .ok ((), s.setCwd p ip)
  | .fdalloc, s => .ok (doFdalloc p s)
  | .openFile ip, s => .ok ((), doOpenFile p ip s)
  | .offset, s => .ok (doOffset s)
  | .device _, s => .ok (doDevice s)
  | .ask a, s => .ok (doAsk a s)
  | .panic e, _ => .error (.panic e)

end Xv6.Fs.Call
