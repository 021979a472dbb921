import Xv6.Kernel.Layout
import Xv6.Library.Transition

/-!
# Open files: `file.c`, and the calls that open and close

`sys_open`, `sys_dup`, `sys_pipe`, `sys_close`, `fork` and `exit`, as far as they take and
drop references to files, pipes and inodes. A step is one critical section (of
`ftable.lock`, of a pipe's lock, of the inode cache) or a write to a table that only
its process looks at, so the calls of different processes interleave between any two
of them. Every call may fail wherever the source lets it fail.

What `fileclose` has to do behind `ftable.lock` is a list of tokens: references that
are out of every table and that the process has yet to drop.
-/

namespace Xv6.Ftable

open Transition Function

/-! ## §1  The state -/

abbrev nofile : Nat := 16
abbrev nfile : Nat := 100

/-- `type` of a `struct file`, with `pipe` or `ip`. -/
inductive FType where
  | none
  | pipe (pi : Nat)
  | inode (ip : Nat)
deriving DecidableEq

structure File where
  ref : Nat
  type : FType
  readable : Bool
  writable : Bool
deriving DecidableEq

structure Pipe where
  readopen : Bool
  writeopen : Bool
deriving DecidableEq

/-- A reference: to a file, to an end of a pipe (`true` is the write end), to an inode. -/
inductive Token where
  | file (f : Fin nfile)
  | pipe (pi : Nat) (w : Bool)
  | inode (ip : Nat)
deriving DecidableEq

/-- What a file refers to. -/
def File.tokens (x : File) : List Token :=
  match x.type with
  | .none => []
  | .pipe pi => [.pipe pi x.writable]
  | .inode ip => [.inode ip]

/-- Where a process is, with its local variables. -/
inductive Pc where
  | unused
  | embryo
  | idle                                            -- outside of these calls
  | openAlloc (ip : Nat)                            -- `sys_open` at `filealloc`
  | openFd (ip : Nat) (f : Fin nfile)               -- at `fdalloc`
  | openSet (ip : Nat) (f : Fin nfile)              -- at `f->type = FD_INODE`
  | dup (f : Fin nfile)                             -- `sys_dup` at `filedup`
  | pipe0                                           -- `pipealloc` at the first `filealloc`
  | pipe1 (f0 : Fin nfile)                          -- at the second
  | pipe2 (f0 f1 : Fin nfile)                       -- at `kalloc`
  | pipeFd (f0 f1 : Fin nfile)                      -- `sys_pipe` at `fdalloc(rf)`
  | pipeFd1 (f0 f1 : Fin nfile) (fd0 : Fin nofile)  -- at `fdalloc(wf)`
  | release (t : Token) (ts : List Token)           -- dropping references, then done
  | fork (np : Fin nproc) (i : Nat)                 -- `fork` in its loop
  | exit (i : Nat)                                  -- `exit` at `fileclose(ofile[i])`
  | exitClose (i : Nat) (f : Fin nfile) (ts : List Token)
deriving DecidableEq

/-- `iref` is `ref` of the inodes in memory, `others` how many of these references are
not those of files or of these calls. -/
structure State where
  file : Fin nfile → File
  ofile : Fin nproc → Fin nofile → Option (Fin nfile)
  pipe : Nat → Option Pipe
  iref : Nat → Nat
  others : Nat → Nat
  pc : Fin nproc → Pc

namespace State

def goto (s : State) (p : Fin nproc) (c : Pc) : State := { s with pc := update s.pc p c }

def setFile (s : State) (f : Fin nfile) (x : File) : State :=
  { s with file := update s.file f x }

def setFd (s : State) (p : Fin nproc) (fd : Fin nofile) (x : Option (Fin nfile)) : State :=
  { s with ofile := update s.ofile p (update (s.ofile p) fd x) }

def setPipe (s : State) (pi : Nat) (q : Option Pipe) : State :=
  { s with pipe := update s.pipe pi q }

def setIref (s : State) (ip n : Nat) : State := { s with iref := update s.iref ip n }

/-- The file that `filealloc` takes. -/
def filealloc (s : State) : Option (Fin nfile) :=
  (List.finRange nfile).find? fun f => (s.file f).ref = 0

/-- The descriptor that `fdalloc` takes. -/
def fdalloc (s : State) (p : Fin nproc) : Option (Fin nofile) :=
  (List.finRange nofile).find? fun fd => s.ofile p fd = none

end State

/-! ## §2  Dropping a reference -/

def Pipe.close (q : Pipe) (w : Bool) : Pipe :=
  if w then { q with writeopen := false } else { q with readopen := false }

/-- `fileclose` under `ftable.lock`, `pipeclose`, or `iput`: what is left to drop, and the
pipe that was freed. There is no next state where the source panics, or would work on
a pipe or an inode that is not there. -/
def drop (s : State) : Token → Option (State × List Token × Option Nat)
  | .file f =>
    match (s.file f).ref with
    | 0 => none
    | 1 => some (s.setFile f { s.file f with ref := 0, type := .none }, (s.file f).tokens, none)
    | n + 2 => some (s.setFile f { s.file f with ref := n + 1 }, [], none)
  | .pipe pi w =>
    match s.pipe pi with
    | none => none
    | some q =>
      if q.close w = ⟨false, false⟩ then some (s.setPipe pi none, [], some pi)
      else some (s.setPipe pi (some (q.close w)), [], none)
  | .inode ip =>
    match s.iref ip with
    | 0 => none
    | n + 1 => some (s.setIref ip n, [], none)

/-- The process goes on dropping, or is done. -/
def Pc.releasing : List Token → Pc
  | [] => .idle
  | t :: ts => .release t ts

/-! ## §3  The machine -/

inductive Event where
  | openInode (p : Fin nproc) (ip : Nat)      -- `namei` or `create` has returned `ip`
  | filealloc (p : Fin nproc) (r : Option (Fin nfile))
  | fdalloc (p : Fin nproc) (r : Option (Fin nofile))
  | openSet (p : Fin nproc) (readable writable : Bool)
  | dup (p : Fin nproc) (fd : Fin nofile) (r : Option (Fin nofile))
  | filedup (p : Fin nproc)
  | pipe (p : Fin nproc)
  | kalloc (p : Fin nproc) (r : Option Nat)
  | close (p : Fin nproc) (fd : Fin nofile)
  | drop (p : Fin nproc) (freed : Option Nat)
  | fork (p np : Fin nproc)
  | forkStep (p : Fin nproc)
  | exit (p : Fin nproc)
  | exitStep (p : Fin nproc)
  | iget (ip : Nat)                           -- somebody else takes a reference
  | iput (ip : Nat)                           -- and drops it

/-- `(*f0)->type = FD_PIPE` and the rest of `pipealloc` behind `kalloc`. -/
def State.setPipeFiles (s : State) (f0 f1 : Fin nfile) (pi : Nat) : State :=
  let s := s.setPipe pi (some ⟨true, true⟩)
  let s := s.setFile f0 { s.file f0 with type := .pipe pi, readable := true, writable := false }
  s.setFile f1 { s.file f1 with type := .pipe pi, readable := false, writable := true }

def next (s : State) : Event → Option State
  | .openInode p ip =>
    if s.pc p = .idle then some ((s.setIref ip (s.iref ip + 1)).goto p (.openAlloc ip)) else none
  | .filealloc p r =>
    if s.filealloc = r then
      match s.pc p, r with
      | .openAlloc ip, some f =>
        some ((s.setFile f { s.file f with ref := 1 }).goto p (.openFd ip f))
      | .openAlloc ip, none => some (s.goto p (.release (.inode ip) []))
      | .pipe0, some f => some ((s.setFile f { s.file f with ref := 1 }).goto p (.pipe1 f))
      | .pipe0, none => some (s.goto p .idle)
      | .pipe1 f0, some f => some ((s.setFile f { s.file f with ref := 1 }).goto p (.pipe2 f0 f))
      | .pipe1 f0, none => some (s.goto p (.release (.file f0) []))
      | _, _ => none
    else none
  | .fdalloc p r =>
    if s.fdalloc p = r then
      match s.pc p, r with
      | .openFd ip f, some fd => some ((s.setFd p fd (some f)).goto p (.openSet ip f))
      | .openFd ip f, none => some (s.goto p (.release (.file f) [.inode ip]))
      | .pipeFd f0 f1, some fd => some ((s.setFd p fd (some f0)).goto p (.pipeFd1 f0 f1 fd))
      | .pipeFd f0 f1, none => some (s.goto p (.release (.file f0) [.file f1]))
      | .pipeFd1 _ f1 _, some fd => some ((s.setFd p fd (some f1)).goto p .idle)
      | .pipeFd1 f0 f1 fd0, none =>
        some ((s.setFd p fd0 none).goto p (.release (.file f0) [.file f1]))
      | _, _ => none
    else none
  | .openSet p readable writable =>
    match s.pc p with
    | .openSet ip f =>
      some ((s.setFile f ⟨(s.file f).ref, .inode ip, readable, writable⟩).goto p .idle)
    | _ => none
  | .dup p fd r =>
    if s.pc p = .idle ∧ s.fdalloc p = r then
      match s.ofile p fd, r with
      | some f, some fd' => some ((s.setFd p fd' (some f)).goto p (.dup f))
      | _, _ => some s
    else none
  | .filedup p =>
    match s.pc p with
    | .dup f =>
      if (s.file f).ref = 0 then none
      else some ((s.setFile f { s.file f with ref := (s.file f).ref + 1 }).goto p .idle)
    | _ => none
  | .pipe p => if s.pc p = .idle then some (s.goto p .pipe0) else none
  | .kalloc p r =>
    match s.pc p, r with
    | .pipe2 f0 f1, none => some (s.goto p (.release (.file f0) [.file f1]))
    | .pipe2 f0 f1, some pi =>
      if s.pipe pi = none then some ((s.setPipeFiles f0 f1 pi).goto p (.pipeFd f0 f1)) else none
    | _, _ => none
  | .close p fd =>
    if s.pc p = .idle then
      match s.ofile p fd with
      | some f => some ((s.setFd p fd none).goto p (.release (.file f) []))
      | none => some s
    else none
  | .drop p freed =>
    match s.pc p with
    | .release t ts =>
      match drop s t with
      | some (s', new, fr) =>
        if fr = freed then some (s'.goto p (.releasing (new ++ ts))) else none
      | none => none
    | .exitClose i f (t :: ts) =>
      match drop s t with
      | some (s', new, fr) =>
        if fr = freed then some (s'.goto p (.exitClose i f (new ++ ts))) else none
      | none => none
    | _ => none
  | .fork p np =>
    if s.pc p = .idle ∧ s.pc np = .unused then some ((s.goto np .embryo).goto p (.fork np 0))
    else none
  | .forkStep p =>
    match s.pc p with
    | .fork np i =>
      if h : i < nofile then
        match s.ofile p ⟨i, h⟩ with
        | some f =>
          if (s.file f).ref = 0 then none
          else some (((s.setFile f { s.file f with ref := (s.file f).ref + 1 }).setFd np ⟨i, h⟩
            (some f)).goto p (.fork np (i + 1)))
        | none => some (s.goto p (.fork np (i + 1)))
      else some ((s.goto np .idle).goto p .idle)
    | _ => none
  | .exit p => if s.pc p = .idle then some (s.goto p (.exit 0)) else none
  | .exitStep p =>
    match s.pc p with
    | .exit i =>
      if h : i < nofile then
        match s.ofile p ⟨i, h⟩ with
        | some f =>
          match drop s (.file f) with
          | some (s', new, _) => some (s'.goto p (.exitClose i f new))
          | none => none
        | none => some (s.goto p (.exit (i + 1)))
      else some (s.goto p .unused)
    | .exitClose i _ [] =>
      if h : i < nofile then some ((s.setFd p ⟨i, h⟩ none).goto p (.exit (i + 1))) else none
    | _ => none
  | .iget ip =>
    some { s.setIref ip (s.iref ip + 1) with
      others := update s.others ip (s.others ip + 1) }
  | .iput ip =>
    match s.others ip, s.iref ip with
    | n + 1, k + 1 => some { s.setIref ip k with others := update s.others ip n }
    | _, _ => none

def system : System State Event := .ofNext next

/-- No file is open yet; some processes exist. -/
structure Boot (s : State) : Prop where
  file : ∀ f, (s.file f).ref = 0 ∧ (s.file f).type = .none
  ofile : ∀ p fd, s.ofile p fd = none
  pipe : ∀ pi, s.pipe pi = none
  iref : ∀ ip, s.iref ip = s.others ip
  pc : ∀ p, s.pc p = .idle ∨ s.pc p = .unused

end Xv6.Ftable
