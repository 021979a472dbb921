import Xv6.Kernel.Proc

/-!
# `shm.c`: shared pages, and the calls of `proc.c` that move them

`shmget`, `shmrem` and `manage_fork`, with the three calls of `proc.c` that
use them or undo their work: `fork`, `exit` and `wait`. Each is a function of
the calling process and the kernel state; a call of `panic` is an error.

A buffer of a user is the memory from the pointer on. The kernel reads keys
in place, so the bytes behind the terminator are part of the argument.
-/

namespace Xv6

open Function

/-- How a call ends: it returns a value, its process is gone, or the process
sleeps inside it. -/
inductive CallResult where
  | value (v : Int)
  | exited
  | asleep
deriving DecidableEq

variable [Image]

/-! ## §1  `shmrem` -/

/-- The inner body of `shmrem`'s exit path, for window position `i` and table
slot `y`. -/
def detachAt (p : Fin nproc) (i y : Fin shmemPages) (s : Kernel) : Except Panic Kernel :=
  let q := s.proc p
  let t := s.shTable
  if q.phySharedPage i = t.shmemAddr y then
    if t.shmemCounter y = 1 then do
      let m ← kfree (t.shmemAddr y) s.mem
      let s := { s with mem := m, shTable := t.free y }
      clearPte p (q.vmSharedPage i)
        (s.setProc p { q with phySharedPage := update q.phySharedPage i 0 })
    else if 1 < t.shmemCounter y then
      let s := { s with shTable := t.setCounter y (t.shmemCounter y - 1) }
      clearPte p (q.vmSharedPage i)
        (s.setProc p { q with phySharedPage := update q.phySharedPage i 0 })
    else if t.shmemCounter y < 0 then .error .negativeCounter
    else .ok s
  else .ok s

/-- One round of the outer loop: nothing stops the inner loop at a match. -/
def detachPos (p : Fin nproc) (s : Kernel) (i : Fin shmemPages) : Except Panic Kernel :=
  if (s.proc p).bitmap i = 1 then
    (List.finRange shmemPages).foldlM (fun s y => detachAt p i y s) s
  else .ok s

def detachAll (p : Fin nproc) (s : Kernel) : Except Panic Kernel :=
  (List.finRange shmemPages).foldlM (detachPos p) s

/-- The two detaching branches of the key path, for slot `i` and record `y`:
the last holder frees the page and keeps `p_key` and `bitmap`; any other
holder keeps `bitmap` only. -/
def detachKey (p : Fin nproc) (i y : Fin shmemPages) (s : Kernel) :
    Except Panic (Int × Kernel) :=
  let q := s.proc p
  let t := s.shTable
  if t.shmemCounter i = 1 then do
    let m ← kfree (t.shmemAddr i) s.mem
    let s ← clearPte p (q.vmSharedPage y) { s with mem := m, shTable := t.free i }
    .ok (0, s.setProc p { s.proc p with
      vmSharedPage := update q.vmSharedPage y 0
      phySharedPage := update q.phySharedPage y 0 })
  else do
    let s ← clearPte p (q.vmSharedPage y)
      { s with shTable := t.setCounter i (t.shmemCounter i - 1) }
    .ok (1, s.setProc p { s.proc p with
      vmSharedPage := update q.vmSharedPage y 0
      phySharedPage := update q.phySharedPage y 0
      pKey := update q.pKey y zeroKey })

/-- The search of the key path: the first slot and record that both compare
equal to `key`. -/
def findDetach (p : Fin nproc) (key : Buf) (s : Kernel) :
    Option (Fin shmemPages × Fin shmemPages) :=
  (List.finRange shmemPages).findSome? fun i =>
    if strncmp (s.shTable.shmemKey i).buf key 16 = 0 then
      (findRec (s.proc p) key).map fun y => (i, y)
    else none

/-- `shmrem`. The comparison with the exit sentinel runs over 16 bytes,
past the end of the literal. -/
def shmrem (p : Fin nproc) (key : Buf) (s : Kernel) : Except Panic (Int × Kernel) := do
  let s ← acquire s
  if memcmp key Image.shmremLit 16 = 0 then
    let s ← detachAll p s
    let s ← release s
    .ok (1, s)
  else
    match findDetach p key s with
    | some (i, y) =>
      let (r, s) ← detachKey p i y s
      let s ← release s
      .ok (r, s)
    | none =>
      let s ← release s
      .ok (-1, s)

/-! ## §2  `exit` and `wait` -/

/-- The end of `exit`, with `ptable.lock` held: pass abandoned children to
init and become a zombie. -/
def becomeZombie (p : Fin nproc) (s : Kernel) : Kernel :=
  { s with
    proc := fun q =>
      let c := s.proc q
      let c := if c.parent = some p then { c with parent := some s.initproc } else c
      if q = p then { c with state := .zombie } else c }

def exit (p : Fin nproc) (s : Kernel) : Except Panic Kernel :=
  if p = s.initproc then .error .initExiting
  else do
    let (_, s) ← shmrem p Image.exitLit s
    .ok (becomeZombie p s)

/-- `wait`: reap the first zombie child. -/
def wait (p : Fin nproc) (s : Kernel) : Except Panic (CallResult × Kernel) :=
  match (List.finRange nproc).find? fun c =>
      (s.proc c).parent = some p ∧ (s.proc c).state = .zombie with
  | some c => do
      let q := s.proc c
      let m ← kfree q.kstack s.mem
      let m ← freevm q.pgdir m
      .ok (.value q.pid, { s with mem := m }.setProc c
        { q with kstack := 0, pid := 0, parent := none, killed := false, state := .unused })
  | none =>
    if (∀ c, (s.proc c).parent ≠ some p) ∨ (s.proc p).killed then .ok (.value (-1), s)
    else .ok (.asleep, s)

/-! ## §3  `shmget` -/

/-- The caller's records of a page `f` placed at `pos`, with the new page
directory. The key is copied over what the record held. -/
def Proc.attach (q : Proc) (pos : Fin shmemPages) (f : Nat) (key : Buf) (pg : PgDir) : Proc :=
  { q with
    pgdir := pg
    top := windowAddr pos
    bitmap := update q.bitmap pos 1
    phySharedPage := update q.phySharedPage pos f
    vmSharedPage := update q.vmSharedPage pos (windowAddr pos)
    pKey := update q.pKey pos (memmove (q.pKey pos) key (strlen key)) }

/-- The part of `shmget` that places the page of slot `t` in the window of
the caller and counts it. When `find_pos` gives -1, `top` is `KERNBASE`,
which every address space maps: `mappages` panics. -/
def placePage (p : Fin nproc) (key : Buf) (t : Fin shmemPages) (s : Kernel) :
    Except Panic (Nat × Kernel) :=
  let q := s.proc p
  let f := s.shTable.shmemAddr t
  match findPos q with
  | none => .error .remap
  | some pos => do
      let top := windowAddr pos
      let (b, pg, m) ← mappages q.pgdir top pgSize (v2p f) permWU s.mem
      if b then
        let s := { s with
          mem := m
          shTable := s.shTable.setCounter t (s.shTable.shmemCounter t + 1) }
        .ok (top, s.setProc p (q.attach pos f key pg))
      else .error .failedToMap

def shmget (p : Fin nproc) (key : Buf) (s : Kernel) : Except Panic (CallResult × Kernel) := do
  let s ← acquire s
  match scanKeys s.shTable key (List.finRange shmemPages) none with
  | (some i, _) =>
    match findRec (s.proc p) key with
    | some y =>
      let s ← release s
      .ok (.value ((s.proc p).vmSharedPage y), s)
    | none =>
      if s.shTable.shmemCounter i < 16 then
        let (temp, s) ← placePage p key i s
        let s ← release s
        .ok (.value temp, s)
      else
        let _ ← release s
        .error .maxProcesses
  | (none, none) =>
    -- "Full shared pages.\n": `exit` is called with the table locked
    let s ← exit p s
    .ok (.exited, s)
  | (none, some free) =>
    match kalloc s.mem with
    | (none, _) => .error .failedToAllocate
    | (some f, m) =>
      let s := { s with mem := m.memset f 0, shTable := s.shTable.setAddr free f }
      let (temp, s) ← placePage p key free s
      let t := s.shTable
      let s ← release { s with
        shTable := t.setKey free (memmove (t.shmemKey free) key (strlen key)) }
      .ok (.value temp, s)

/-! ## §4  `manage_fork` and `fork` -/

/-- The child's records after position `i` of the parent `q` was copied, with
the new page directory. -/
def Proc.inherit (r q : Proc) (i : Fin shmemPages) (pg : PgDir) : Proc :=
  { r with
    pgdir := pg
    phySharedPage := update r.phySharedPage i (q.phySharedPage i)
    vmSharedPage := update r.vmSharedPage i (q.vmSharedPage i)
    pKey := update r.pKey i (q.pKey i)
    bitmap := update r.bitmap i 1 }

/-- The first slot whose page is `f`: the inner loop of `manage_fork`. -/
def slotOf (t : ShmTable) (f : Nat) : Option (Fin shmemPages) :=
  (List.finRange shmemPages).find? fun y => t.shmemAddr y = f

/-- One round of `manage_fork`, for window position `i`. The flag tells that
the parent went into `exit`, from which it does not come back. -/
def forkPos (p c : Fin nproc) (i : Fin shmemPages) (s : Kernel) :
    Except Panic (Bool × Kernel) :=
  let q := s.proc p
  let r := s.proc c
  if q.bitmap i = 1 ∧ q.bitmap i ≠ r.bitmap i then do
    let f := q.phySharedPage i
    let (b, pg, m) ← mappages r.pgdir (windowAddr i) pgSize (v2p f) permWU s.mem
    if b then
      let s := { s with mem := m }.setProc c (r.inherit q i pg)
      let t := s.shTable
      match slotOf t f with
      | none => .ok (false, s)
      | some y =>
        if t.shmemCounter y = 16 then
          -- "Fork - Max process for shared page!\n"
          let s ← exit p s
          .ok (true, s)
        else
          .ok (false, { s with shTable := t.setCounter y (t.shmemCounter y + 1) })
    else .error .manageFork
  else .ok (false, s)

def manageFork (p c : Fin nproc) : List (Fin shmemPages) → Kernel → Except Panic (Bool × Kernel)
  | [], s => .ok (false, s)
  | i :: is, s => do
      let (gone, s) ← forkPos p c i s
      if gone then .ok (true, s) else manageFork p c is s

def fork (p : Fin nproc) (s : Kernel) : Except Panic (CallResult × Kernel) :=
  match allocproc s with
  | (none, s) => .ok (.value (-1), s)
  | (some np, s) => do
      let (d, m) ← copyuvm (s.proc p).pgdir (s.proc p).sz s.mem
      let s := { s with mem := m }
      match d with
      | none =>
        let m ← kfree (s.proc np).kstack s.mem
        .ok (.value (-1), { s with mem := m }.setProc np
          { s.proc np with pgdir := .null, kstack := 0, state := .unused })
      | some d =>
        let s := s.setProc np { s.proc np with
          pgdir := d
          sz := (s.proc p).sz
          parent := some p
          esp := (s.proc p).esp }
        let (gone, s) ← manageFork p np (List.finRange shmemPages) s
        if gone then .ok (.exited, s)
        else .ok (.value (s.proc np).pid,
          s.setProc np { s.proc np with state := .runnable })

end Xv6
