import Xv6.Kernel.Strings
import Xv6.Kernel.Vm

/-!
# Processes, the shared-page table and the kernel state

The part of `struct proc` that address spaces and shared pages depend on, the
table `sh_table` of `shm.c`, and the whole kernel state as one record.

System calls are whole calls here: a call of process `p` is a function of the
state. The scheduling states SLEEPING, RUNNABLE and RUNNING all count as live;
waking a process moves it between them and changes nothing else, so the
wakeups inside `exit` leave no trace in this state.
-/

namespace Xv6

open Function

/-- `enum procstate`. -/
inductive ProcState where
  | unused | embryo | sleeping | runnable | running | zombie
deriving DecidableEq

/-- `struct proc`, the fields of address spaces and shared pages. `esp` is the
user stack pointer of the saved trap frame. -/
structure Proc where
  sz : Nat
  pgdir : PgDir
  kstack : Nat
  state : ProcState
  pid : Nat
  parent : Option (Fin nproc)
  esp : Nat
  killed : Bool
  top : Nat
  phySharedPage : Fin shmemPages → Nat
  vmSharedPage : Fin shmemPages → Nat
  pKey : Fin shmemPages → Key
  bitmap : Fin shmemPages → UInt8

/-- `shm_table`: for each slot its page, its counter and its key, and the
lock (held or free). -/
structure ShmTable where
  lock : Bool
  shmemAddr : Fin shmemPages → Nat
  shmemCounter : Fin shmemPages → Int
  shmemKey : Fin shmemPages → Key

namespace ShmTable

def setAddr (t : ShmTable) (i : Fin shmemPages) (a : Nat) : ShmTable :=
  { t with shmemAddr := update t.shmemAddr i a }

def setCounter (t : ShmTable) (i : Fin shmemPages) (c : Int) : ShmTable :=
  { t with shmemCounter := update t.shmemCounter i c }

def setKey (t : ShmTable) (i : Fin shmemPages) (k : Key) : ShmTable :=
  { t with shmemKey := update t.shmemKey i k }

/-- Counter, address and key of a slot set to 0, as both paths of `shmrem` do
when the last holder leaves. -/
def free (t : ShmTable) (i : Fin shmemPages) : ShmTable :=
  ((t.setCounter i 0).setAddr i 0).setKey i zeroKey

end ShmTable

structure Kernel where
  mem : Mem
  shTable : ShmTable
  proc : Fin nproc → Proc
  initproc : Fin nproc
  nextpid : Nat

/-- A process that can make system calls. -/
def ProcState.live : ProcState → Bool
  | .sleeping | .runnable | .running => true
  | _ => false

theorem live_ne_unused {q : Proc} (h : q.state.live = true) : q.state ≠ .unused := by
  intro hun
  rw [hun] at h
  simp [ProcState.live] at h

namespace Kernel

abbrev Live (s : Kernel) (p : Fin nproc) : Prop := (s.proc p).state.live = true

def setProc (s : Kernel) (p : Fin nproc) (q : Proc) : Kernel :=
  { s with proc := update s.proc p q }

@[simp] theorem setProc_self (s : Kernel) (p : Fin nproc) (q : Proc) :
    (s.setProc p q).proc p = q := by
  simp [setProc]

theorem setProc_ne {s : Kernel} {p p' : Fin nproc} (h : p' ≠ p) (q : Proc) :
    (s.setProc p q).proc p' = s.proc p' := by
  simp [setProc, h]

theorem setProc_eq_self (s : Kernel) (p : Fin nproc) : s.setProc p (s.proc p) = s := by
  simp [setProc]

/-- What holds of every process holds after one of them changed. -/
theorem forall_setProc {P : Proc → Prop} {s : Kernel} {p : Fin nproc} {q : Proc}
    (h : ∀ p', P (s.proc p')) (hq : P q) (p' : Fin nproc) : P ((s.setProc p q).proc p') := by
  by_cases hp : p' = p
  · rw [hp, setProc_self]
    exact hq
  · rw [setProc_ne hp]
    exact h p'

@[simp] theorem setProc_mem (s : Kernel) (p : Fin nproc) (q : Proc) :
    (s.setProc p q).mem = s.mem := rfl
@[simp] theorem setProc_shTable (s : Kernel) (p : Fin nproc) (q : Proc) :
    (s.setProc p q).shTable = s.shTable := rfl

end Kernel

/-! ## §1  The lock of the table

Whole calls run one after the other, so a lock found held is held by the
caller itself: `acquire` panics on it. -/

def acquire (s : Kernel) : Except Panic Kernel :=
  if s.shTable.lock then .error .acquire
  else .ok { s with shTable := { s.shTable with lock := true } }

def release (s : Kernel) : Except Panic Kernel :=
  if s.shTable.lock then .ok { s with shTable := { s.shTable with lock := false } }
  else .error .release

/-- `shmeminit`. -/
def shmeminit (s : Kernel) : Kernel :=
  { s with
    shTable :=
      { lock := false
        shmemAddr := fun _ => 0
        shmemCounter := fun _ => 0
        shmemKey := fun _ => zeroKey } }

/-! ## §2  Small functions of `proc.c` and `shm.c` -/

/-- `allocproc`: a process slot in state EMBRYO with a kernel stack and no
shared pages. -/
def allocproc (s : Kernel) : Option (Fin nproc) × Kernel :=
  match (List.finRange nproc).find? fun p => (s.proc p).state = .unused with
  | none => (none, s)
  | some p =>
    let s := { s.setProc p { s.proc p with state := .embryo, pid := s.nextpid } with
      nextpid := s.nextpid + 1 }
    match kalloc s.mem with
    | (none, m) =>
      (none, { s with mem := m }.setProc p { s.proc p with kstack := 0, state := .unused })
    | (some k, m) =>
      (some p, { s with mem := m }.setProc p
        { s.proc p with
          kstack := k
          phySharedPage := fun _ => 0
          vmSharedPage := fun _ => 0
          bitmap := fun _ => 0
          pKey := fun _ => zeroKey })

/-- `find_pos`: the first window position without a page; `none` is -1. -/
def findPos (q : Proc) : Option (Fin shmemPages) :=
  (List.finRange shmemPages).find? fun i => q.phySharedPage i = 0

/-- The first record of the process whose key compares equal: the inner loop
of `shmget` and of `shmrem`. -/
def findRec (q : Proc) (key : Buf) : Option (Fin shmemPages) :=
  (List.finRange shmemPages).find? fun y => strncmp (q.pKey y).buf key 16 = 0

/-- The first loop of `shmget`: remember the first hole, stop at the key. The
first component is `i` when the loop broke, the second `first_free_addr`. -/
def scanKeys (t : ShmTable) (key : Buf) : List (Fin shmemPages) → Option (Fin shmemPages) →
    Option (Fin shmemPages) × Option (Fin shmemPages)
  | [], free => (none, free)
  | i :: is, free =>
    if t.shmemKey i 0 = 0 ∧ free = none then scanKeys t key is (some i)
    else if strncmp (t.shmemKey i).buf key 16 = 0 then (some i, free)
    else scanKeys t key is free

/-- A 0 stored in the first word of the page `v`. -/
def Mem.zeroWord (m : Mem) (v : Nat) : Mem :=
  { m with ram := update m.ram v fun o => if o < 4 then 0 else m.ram v o }

/-- `pte_t *temp = walkpgdir(pgdir, va, 0); *temp = 0`. A null `temp` makes it
a store to address 0 of the running process. -/
def clearPte (p : Fin nproc) (va : Nat) (s : Kernel) : Except Panic Kernel :=
  let pg := (s.proc p).pgdir
  match walkpgdir pg va false s.mem with
  | some _ => .ok (s.setProc p { s.proc p with pgdir := pg.setEntry va .zero })
  | none =>
    let e := pg.entry 0
    if e.p && e.w then
      .ok { s with mem := s.mem.zeroWord (p2v e.pa) }
    else .error .trap

/-! ## §3  `growproc` -/

variable [Image]

/-- `growproc`: 0 or -1. -/
def growproc (p : Fin nproc) (n : Int) (s : Kernel) : Except Panic (Int × Kernel) :=
  let q := s.proc p
  -- `sz + n` as a uint
  let newsz := ((q.sz + n) % 2 ^ 32).toNat
  if 0 < n then do
    let (sz, pg, m) ← allocuvm q.pgdir q.sz newsz s.mem
    let s := { s with mem := m }
    if sz = 0 then .ok (-1, s.setProc p { q with pgdir := pg })
    else .ok (0, s.setProc p { q with pgdir := pg, sz := sz })
  else if n < 0 then do
    let (sz, pg, m) ← deallocuvm q.pgdir q.sz newsz s.mem
    let s := { s with mem := m }
    if sz = 0 then .ok (-1, s.setProc p { q with pgdir := pg })
    else .ok (0, s.setProc p { q with pgdir := pg, sz := sz })
  else .ok (0, s)

end Xv6
