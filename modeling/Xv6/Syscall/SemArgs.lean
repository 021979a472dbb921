import Xv6.Library.Program
import Xv6.Syscall.Argptr

/-!
# The semaphore calls and the memory of the caller

A semaphore is in the memory of the process: the calls of `sysproc.c` get its
address, check it with `argptr`, and then work on it word by word. They check
the size of the pointer, not the size of `sem_t`; and a pointer into the shared
window is not checked at all.

The functions of `semaphores.c` and `spinlock.c` are programs over accesses to
words. What they can find in a word is left open, as other processors write to
it at the same time: a word counts as accessed if it is in some execution.
-/

namespace Xv6

open Outcome

/-! ## §1  Words -/

/-- An access to the word at an address. `stop` is the end of a call that does
not return: a panic, or a loop that has not come to its end. -/
inductive WordOp where
  | load (a : Nat)
  | store (a v : Nat)
  | xchg (a v : Nat)
  | stop

@[reducible]
def WordOp.Answer : WordOp → Type
  | .load _ | .xchg _ _ => Nat
  | .store _ _ => Unit
  | .stop => Empty

def WordOp.addr : WordOp → Option Nat
  | .load a | .store a _ | .xchg a _ => some a
  | .stop => none

abbrev WordProg : Type → Type := Prog WordOp WordOp.Answer

namespace Words

def load (a : Nat) : WordProg Nat := Prog.perform (WordOp.load a)

def store (a v : Nat) : WordProg Unit := Prog.perform (WordOp.store a v)

def xchg (a v : Nat) : WordProg Nat := Prog.perform (WordOp.xchg a v)

def storeIf (c : Prop) [Decidable c] (a v : Nat) : WordProg Unit :=
  if c then store a v else pure ()

def stop {α : Type} : WordProg α := .op .stop Empty.elim

/-! ## §2  `spinlock.c` -/

/-- `struct spinlock`: `locked`, `name`, `cpu` and ten words `pcs`. -/
def lkLocked : Nat := 0
def lkName : Nat := lkLocked + 4
def lkCpu : Nat := lkName + 4
def lkPcs : Nat := lkCpu + 4
def sizeofSpinlock : Nat := lkPcs + 10 * 4

/-- The processor: the address of its `struct cpu`, and the return addresses
that are found on its stack. -/
structure Cpu where
  self : Nat
  pcs : Nat → Nat

def initlock (lk name : Nat) : WordProg Unit := do
  store (lk + lkName) name
  store (lk + lkLocked) 0
  store (lk + lkCpu) 0

def holding (cpu : Cpu) (lk : Nat) : WordProg Bool := do
  let locked ← load (lk + lkLocked)
  if locked ≠ 0 then do
    let c ← load (lk + lkCpu)
    pure (decide (c = cpu.self))
  else pure false

/-- `while(xchg(&lk->locked, 1) != 0)`, for at most `n` rounds. -/
def spin (lk : Nat) : Nat → WordProg Unit
  | 0 => stop
  | n + 1 => do
      let old ← xchg (lk + lkLocked) 1
      if old ≠ 0 then spin lk n else pure ()

/-- `getcallerpcs`: all ten words are written, with zeros behind the last frame. -/
def getcallerpcs (cpu : Cpu) (pcs : Nat) : List Nat → WordProg Unit
  | [] => pure ()
  | i :: is => do
      store (pcs + 4 * i) (cpu.pcs i)
      getcallerpcs cpu pcs is

def acquire (cpu : Cpu) (n lk : Nat) : WordProg Unit := do
  if ← holding cpu lk then stop
  else do
    spin lk n
    store (lk + lkCpu) cpu.self
    getcallerpcs cpu (lk + lkPcs) (List.range 10)

def release (cpu : Cpu) (lk : Nat) : WordProg Unit := do
  if ← holding cpu lk then do
    store (lk + lkPcs) 0
    store (lk + lkCpu) 0
    store (lk + lkLocked) 0
  else stop

/-! ## §3  `semaphores.c` -/

/-- `sem_t`: the lock and four words. -/
def semValue : Nat := sizeofSpinlock
def semMaxval : Nat := semValue + 4
def semIsactive : Nat := semMaxval + 4
def semLocked : Nat := semIsactive + 4

/-- `sem_init`; `name` is the address of `"sem lock"`. -/
def semInit (name sem value : Nat) : WordProg Unit := do
  store (sem + semMaxval) value
  store (sem + semValue) value
  store (sem + semIsactive) 0
  store (sem + semLocked) 0
  initlock sem name

/-- `sem_up`; `wakeup` looks at the address only. -/
def semUp (cpu : Cpu) (n sem : Nat) : WordProg Unit := do
  acquire cpu n sem
  let value ← load (sem + semValue)
  store (sem + semValue) ((value + 1) % 2 ^ 32)
  let value ← load (sem + semValue)
  let maxval ← load (sem + semMaxval)
  storeIf (value = maxval) (sem + semIsactive) 0
  store (sem + semLocked) 0
  release cpu sem

/-- `while(sem->locked) sleep(sem, &(sem->lk))`, for at most `n` rounds: `sleep`
gives the lock up and takes it again. -/
def semWait (cpu : Cpu) (n sem : Nat) : Nat → WordProg Unit
  | 0 => stop
  | k + 1 => do
      let locked ← load (sem + semLocked)
      if locked ≠ 0 then do
        release cpu sem
        acquire cpu n sem
        semWait cpu n sem k
      else pure ()

/-- `value--` and `isactive = 1`. -/
def semTake (sem : Nat) : WordProg Unit := do
  let value ← load (sem + semValue)
  store (sem + semValue) ((value + 2 ^ 32 - 1) % 2 ^ 32)
  store (sem + semIsactive) 1

/-- The two branches of `sem_down`. -/
def semDownTake (cpu : Cpu) (n sem locked : Nat) : WordProg Unit :=
  if locked = 0 then do
    let value ← load (sem + semValue)
    storeIf (value = 1) (sem + semLocked) 1
    semTake sem
  else do
    semWait cpu n sem n
    let value ← load (sem + semValue)
    store (sem + semLocked) (if value = 1 then 1 else 0)
    semTake sem

def semDown (cpu : Cpu) (n sem : Nat) : WordProg Unit := do
  acquire cpu n sem
  let locked ← load (sem + semLocked)
  semDownTake cpu n sem locked
  release cpu sem

def isActive (sem : Nat) : WordProg Int := do
  let isactive ← load (sem + semIsactive)
  pure (if isactive = 1 then 1 else 0)

end Words

/-! ## §4  `sysproc.c` -/

/-- `sizeof(sem)`, of a pointer. -/
def sizeofPtr : Int := 4

/-- A call with one semaphore: what it goes on to do once it has accepted its
pointer; `none` is -1. -/
def sysSem (body : Nat → WordProg Int) (q : Proc) (m : Mem) :
    Except Panic (Option (WordProg Int)) := do
  match ← argptr q m 0 sizeofPtr with
  | none => .ok none
  | some sem => .ok (some (body sem))

def sysSemInit (name : Nat) (q : Proc) (m : Mem) : Except Panic (Option (WordProg Int)) := do
  match ← argptr q m 0 sizeofPtr with
  | none => .ok none
  | some sem =>
    match ← argint q m 1 with
    | none => .ok none
    | some value => .ok (some do
        Words.semInit name sem value
        pure 1)

def sysSemUp (cpu : Words.Cpu) (n : Nat) : Proc → Mem → Except Panic (Option (WordProg Int)) :=
  sysSem fun sem => do
    Words.semUp cpu n sem
    pure 1

def sysSemDown (cpu : Words.Cpu) (n : Nat) : Proc → Mem → Except Panic (Option (WordProg Int)) :=
  sysSem fun sem => do
    Words.semDown cpu n sem
    pure 1

def sysIsActive : Proc → Mem → Except Panic (Option (WordProg Int)) := sysSem Words.isActive

inductive SemSys where
  | init
  | up
  | down
  | isActive

namespace SemSys

/-- The call on processor `cpu`, with at most `n` rounds in each of its loops. -/
def start (c : SemSys) (cpu : Words.Cpu) (name n : Nat) (q : Proc) (m : Mem) :
    Except Panic (Option (WordProg Int)) :=
  match c with
  | init => sysSemInit name q m
  | up => sysSemUp cpu n q m
  | down => sysSemDown cpu n q m
  | isActive => sysIsActive q m

/-- The call reads or writes the byte at `b`, in some execution. -/
def Touches (c : SemSys) (q : Proc) (m : Mem) (b : Nat) : Prop :=
  ∃ cpu name n prog o a, c.start cpu name n q m = .ok (some prog) ∧ prog.Asks o ∧
    o.addr = some a ∧ a ≤ b ∧ b < a + 4

/-- The call accepts the pointer `sem`. -/
def Accepts (c : SemSys) (q : Proc) (m : Mem) (sem : Nat) : Prop :=
  argptr q m 0 sizeofPtr = .ok (some sem) ∧
    (c = init → ∃ value, argint q m 1 = .ok (some value))

/-- What the call does with a pointer it has accepted. -/
def body (c : SemSys) (cpu : Words.Cpu) (name n value sem : Nat) : WordProg Int :=
  match c with
  | init => do
      Words.semInit name sem value
      pure 1
  | up => do
      Words.semUp cpu n sem
      pure 1
  | down => do
      Words.semDown cpu n sem
      pure 1
  | isActive => Words.isActive sem

end SemSys

theorem sysSem_ok {body : Nat → WordProg Int} {q : Proc} {m : Mem} {prog : WordProg Int} :
    sysSem body q m = .ok (some prog) ↔
      ∃ sem, argptr q m 0 sizeofPtr = .ok (some sem) ∧ prog = body sem := by
  constructor
  · intro h
    obtain ⟨r, hptr, h⟩ := bind_ok h
    cases r with
    | none => cases h
    | some sem =>
      cases h
      exact ⟨sem, hptr, rfl⟩
  · rintro ⟨sem, hptr, rfl⟩
    exact ok_bind hptr rfl

theorem sysSemInit_ok {name : Nat} {q : Proc} {m : Mem} {prog : WordProg Int} :
    sysSemInit name q m = .ok (some prog) ↔
      ∃ sem value, argptr q m 0 sizeofPtr = .ok (some sem) ∧ argint q m 1 = .ok (some value) ∧
        prog = SemSys.init.body ⟨0, fun _ => 0⟩ name 0 value sem := by
  constructor
  · intro h
    obtain ⟨r, hptr, h⟩ := bind_ok h
    cases r with
    | none => cases h
    | some sem =>
      obtain ⟨r, hint, h⟩ := bind_ok h
      cases r with
      | none => cases h
      | some value =>
        cases h
        exact ⟨sem, value, hptr, hint, rfl⟩
  · rintro ⟨sem, value, hptr, hint, rfl⟩
    exact ok_bind hptr (ok_bind hint rfl)

/-- A call that goes on has accepted its pointer, and does its work. -/
theorem SemSys.start_ok {c : SemSys} {cpu : Words.Cpu} {name n : Nat} {q : Proc} {m : Mem}
    {prog : WordProg Int} (h : c.start cpu name n q m = .ok (some prog)) :
    ∃ sem value, c.Accepts q m sem ∧ prog = c.body cpu name n value sem := by
  cases c with
  | init =>
    obtain ⟨sem, value, hptr, hint, rfl⟩ := sysSemInit_ok.mp h
    exact ⟨sem, value, ⟨hptr, fun _ => ⟨value, hint⟩⟩, rfl⟩
  | up | down | isActive =>
    obtain ⟨sem, hptr, rfl⟩ := sysSem_ok.mp h
    exact ⟨sem, 0, ⟨hptr, nofun⟩, rfl⟩

/-- A pointer that is accepted is worked on. -/
theorem SemSys.Accepts.start {c : SemSys} {q : Proc} {m : Mem} {sem : Nat}
    (h : c.Accepts q m sem) (cpu : Words.Cpu) (name n : Nat) :
    ∃ value, c.start cpu name n q m = .ok (some (c.body cpu name n value sem)) := by
  obtain ⟨hptr, hinit⟩ := h
  cases c with
  | init =>
    obtain ⟨value, hint⟩ := hinit rfl
    exact ⟨value, sysSemInit_ok.mpr ⟨sem, value, hptr, hint, rfl⟩⟩
  | up | down | isActive => exact ⟨0, sysSem_ok.mpr ⟨sem, hptr, rfl⟩⟩

/-! ## §5  The words that are accessed -/

/-- The words of `sem_t` that the call uses. `sem_init` leaves `pcs` alone, the others
leave `name` alone, and `sem_down` does without `maxval`. -/
def SemSys.words : SemSys → List Nat
  | .init => [0, 4, 8, 52, 56, 60, 64]
  | .up => [0, 8, 12, 16, 20, 24, 28, 32, 36, 40, 44, 48, 52, 56, 60, 64]
  | .down => [0, 8, 12, 16, 20, 24, 28, 32, 36, 40, 44, 48, 52, 60, 64]
  | .isActive => [60]

/-- The access is to a word of the list, `sem` being the address of the structure. -/
def WordOp.At (sem : Nat) (words : List Nat) (o : WordOp) : Prop :=
  ∀ a, o.addr = some a → ∃ off ∈ words, a = sem + off

theorem WordOp.at_of {sem off : Nat} {words : List Nat} {o : WordOp} (h : off ∈ words)
    (ho : o.addr = some (sem + off)) : o.At sem words := by
  intro a ha
  rw [ho] at ha
  exact ⟨off, h, (Option.some.inj ha).symm⟩

namespace Words

open Prog

section Only

variable {sem : Nat} {words : List Nat} {cpu : Cpu} {n : Nat}

theorem asksOnly_load (off : Nat) (h : off ∈ words) :
    AsksOnly (WordOp.At sem words) (load (sem + off)) :=
  asksOnly_perform (o := .load _) (WordOp.at_of h rfl)

theorem asksOnly_store (off : Nat) (h : off ∈ words) {v : Nat} :
    AsksOnly (WordOp.At sem words) (store (sem + off) v) :=
  asksOnly_perform (o := .store _ _) (WordOp.at_of h rfl)

theorem asksOnly_storeIf (off : Nat) (h : off ∈ words) {c : Prop} [Decidable c] {v : Nat} :
    AsksOnly (WordOp.At sem words) (storeIf c (sem + off) v) :=
  asksOnly_ite (asksOnly_store off h) (asksOnly_pure _)

theorem asksOnly_xchg (off : Nat) (h : off ∈ words) {v : Nat} :
    AsksOnly (WordOp.At sem words) (xchg (sem + off) v) :=
  asksOnly_perform (o := .xchg _ _) (WordOp.at_of h rfl)

theorem asksOnly_stop {α : Type} : AsksOnly (WordOp.At sem words) (stop : WordProg α) := by
  intro o h
  cases h with
  | here => exact nofun
  | later r _ => exact r.elim

/-- The words of the lock that `acquire` and `release` use. -/
def LockWords (words : List Nat) : Prop := 0 ∈ words ∧ 8 ∈ words ∧ ∀ i < 10, 12 + 4 * i ∈ words

instance (words : List Nat) : Decidable (LockWords words) :=
  inferInstanceAs (Decidable (_ ∧ _ ∧ _))

theorem asksOnly_holding (h : LockWords words) :
    AsksOnly (WordOp.At sem words) (holding cpu sem) := by
  refine (asksOnly_load 0 h.1).bind fun locked => ?_
  refine asksOnly_ite ?_ (asksOnly_pure _)
  exact (asksOnly_load 8 h.2.1).bind fun _ => asksOnly_pure _

theorem asksOnly_spin (h : LockWords words) : ∀ n, AsksOnly (WordOp.At sem words) (spin sem n)
  | 0 => asksOnly_stop
  | n + 1 => (asksOnly_xchg 0 h.1).bind fun _ => asksOnly_ite (asksOnly_spin h n) (asksOnly_pure _)

theorem asksOnly_getcallerpcs (h : LockWords words) : ∀ is : List Nat, (∀ i ∈ is, i < 10) →
    AsksOnly (WordOp.At sem words) (getcallerpcs cpu (sem + lkPcs) is)
  | [], _ => asksOnly_pure _
  | i :: is, his => by
    obtain ⟨hi, his⟩ := List.forall_mem_cons.mp his
    refine AsksOnly.bind ?_ fun _ => asksOnly_getcallerpcs h is his
    rw [Nat.add_assoc]
    exact asksOnly_store (12 + 4 * i) (h.2.2 i hi)

theorem asksOnly_acquire (h : LockWords words) :
    AsksOnly (WordOp.At sem words) (acquire cpu n sem) := by
  refine (asksOnly_holding h).bind fun held => ?_
  refine asksOnly_ite asksOnly_stop ((asksOnly_spin h n).bind fun _ => ?_)
  exact (asksOnly_store 8 h.2.1).bind fun _ =>
    asksOnly_getcallerpcs h _ fun i hi => List.mem_range.mp hi

theorem asksOnly_release (h : LockWords words) :
    AsksOnly (WordOp.At sem words) (release cpu sem) := by
  refine (asksOnly_holding h).bind fun held => ?_
  refine asksOnly_ite ?_ asksOnly_stop
  refine (asksOnly_store 12 (h.2.2 0 (by decide))).bind fun _ => ?_
  exact (asksOnly_store 8 h.2.1).bind fun _ => asksOnly_store 0 h.1

theorem asksOnly_semWait (h : LockWords words) (hl : 64 ∈ words) :
    ∀ k, AsksOnly (WordOp.At sem words) (semWait cpu n sem k)
  | 0 => asksOnly_stop
  | k + 1 => by
    refine (asksOnly_load 64 hl).bind fun locked => asksOnly_ite ?_ (asksOnly_pure _)
    refine (asksOnly_release h).bind fun _ => ?_
    exact (asksOnly_acquire h).bind fun _ => asksOnly_semWait h hl k

end Only

end Words

open Words

open Prog in
/-- **No call accesses other words.** -/
theorem SemSys.asksOnly_body (c : SemSys) (cpu : Words.Cpu) (name n value sem : Nat) :
    AsksOnly (WordOp.At sem c.words) (c.body cpu name n value sem) := by
  cases c with
  | init =>
    refine AsksOnly.bind ?_ fun _ => asksOnly_pure _
    refine (asksOnly_store 56 (by decide)).bind fun _ => ?_
    refine (asksOnly_store 52 (by decide)).bind fun _ => ?_
    refine (asksOnly_store 60 (by decide)).bind fun _ => ?_
    refine (asksOnly_store 64 (by decide)).bind fun _ => ?_
    refine (asksOnly_store 4 (by decide)).bind fun _ => ?_
    refine (asksOnly_store 0 (by decide)).bind fun _ => ?_
    exact asksOnly_store 8 (by decide)
  | up =>
    have hlock : Words.LockWords up.words := by decide
    refine AsksOnly.bind ?_ fun _ => asksOnly_pure _
    refine (asksOnly_acquire hlock).bind fun _ => ?_
    refine (asksOnly_load 52 (by decide)).bind fun _ => ?_
    refine (asksOnly_store 52 (by decide)).bind fun _ => ?_
    refine (asksOnly_load 52 (by decide)).bind fun _ => ?_
    refine (asksOnly_load 56 (by decide)).bind fun _ => ?_
    refine (asksOnly_storeIf 60 (by decide)).bind fun _ => ?_
    exact (asksOnly_store 64 (by decide)).bind fun _ => asksOnly_release hlock
  | down =>
    have hlock : Words.LockWords down.words := by decide
    have htake : AsksOnly (WordOp.At sem down.words) (Words.semTake sem) := by
      refine (asksOnly_load 52 (by decide)).bind fun _ => ?_
      refine (asksOnly_store 52 (by decide)).bind fun _ => ?_
      exact asksOnly_store 60 (by decide)
    refine AsksOnly.bind ?_ fun _ => asksOnly_pure _
    refine (asksOnly_acquire hlock).bind fun _ => ?_
    refine (asksOnly_load 64 (by decide)).bind fun _ => ?_
    refine (asksOnly_ite ?_ ?_).bind fun _ => asksOnly_release hlock
    · refine (asksOnly_load 52 (by decide)).bind fun _ => ?_
      exact (asksOnly_storeIf 64 (by decide)).bind fun _ => htake
    · refine (asksOnly_semWait hlock (by decide) n).bind fun _ => ?_
      refine (asksOnly_load 52 (by decide)).bind fun _ => ?_
      exact (asksOnly_store 64 (by decide)).bind fun _ => htake
  | isActive =>
    refine AsksOnly.bind ?_ fun _ => asksOnly_pure _
    exact asksOnly_load 60 (by decide)

/-- Every word is 0, and no call is stopped. -/
def zeroAnswers : (o : WordOp) → Option o.Answer
  | .load _ | .xchg _ _ => some (0 : Nat)
  | .store _ _ => some ()
  | .stop => none

/-- **All of its words are accessed**, in the execution that finds zeros. -/
theorem SemSys.asks_words (c : SemSys) (value sem : Nat) {off : Nat} (h : off ∈ c.words) :
    ∃ o, (c.body ⟨0, fun _ => 0⟩ 0 1 value sem).Asks o ∧ o.addr = some (sem + off) := by
  -- the offsets in the order in which they are accessed
  suffices hpath : ∃ offs : List Nat, (∀ off ∈ c.words, off ∈ offs) ∧
      ((c.body ⟨0, fun _ => 0⟩ 0 1 value sem).path zeroAnswers).filterMap WordOp.addr =
        offs.map (sem + ·) by
    obtain ⟨offs, hsub, hpath⟩ := hpath
    have hmem : sem + off ∈ offs.map (sem + ·) := List.mem_map_of_mem (hsub off h)
    rw [← hpath] at hmem
    obtain ⟨o, ho, haddr⟩ := List.mem_filterMap.mp hmem
    exact ⟨o, Prog.asks_of_mem_path ho, haddr⟩
  cases c with
  | init => exact ⟨[56, 52, 60, 64, 4, 0, 8], by decide, rfl⟩
  | up =>
    exact ⟨[0, 0, 8, 12, 16, 20, 24, 28, 32, 36, 40, 44, 48, 52, 52, 52, 56, 60, 64, 0],
      by decide, rfl⟩
  | down =>
    exact ⟨[0, 0, 8, 12, 16, 20, 24, 28, 32, 36, 40, 44, 48, 64, 52, 52, 52, 60, 0],
      by decide, rfl⟩
  | isActive => exact ⟨[60], by decide, rfl⟩

/-- The bytes of these words. -/
def SemSys.bytes (c : SemSys) : List Nat := c.words.flatMap fun off => [off, off + 1, off + 2, off + 3]

/-- **The bytes a call touches**: those of its words, for each pointer it accepts. -/
theorem SemSys.touches_iff {c : SemSys} {q : Proc} {m : Mem} {b : Nat} :
    c.Touches q m b ↔ ∃ sem, c.Accepts q m sem ∧ ∃ off ∈ c.bytes, b = sem + off := by
  constructor
  · rintro ⟨cpu, name, n, prog, o, a, hstart, hask, haddr, hle, hlt⟩
    obtain ⟨sem, value, hacc, rfl⟩ := start_ok hstart
    obtain ⟨off, hoff, rfl⟩ := c.asksOnly_body cpu name n value sem o hask a haddr
    refine ⟨sem, hacc, b - sem, List.mem_flatMap.mpr ⟨off, hoff, ?_⟩, by omega⟩
    simp only [List.mem_cons, List.not_mem_nil, or_false]
    omega
  · rintro ⟨sem, hacc, k, hk, rfl⟩
    obtain ⟨off, hoff, hk⟩ := List.mem_flatMap.mp hk
    obtain ⟨value, hstart⟩ := hacc.start ⟨0, fun _ => 0⟩ 0 1
    obtain ⟨o, hask, haddr⟩ := c.asks_words value sem hoff
    simp only [List.mem_cons, List.not_mem_nil, or_false] at hk
    exact ⟨_, _, _, _, o, sem + off, hstart, hask, haddr, by omega, by omega⟩

/-! ## §6  Which pointers are safe -/

/-- A byte of the user memory of the process: below `sz`, or in a page of the shared
window that it maps. -/
def UserByte (q : Proc) (b : Nat) : Prop :=
  b < q.sz ∨ InWindow b ∧ (q.pgdir.entry b).p = true

/-- Behind the last byte that the call uses. -/
def SemSys.size : SemSys → Nat
  | isActive => 64
  | _ => 68

/-- Where the words that the call uses go beyond `sz`, they do so inside the window: from
the first such byte on up to the last, which is below `KERNBASE`; and the pages of these
two bytes are mapped. -/
def SemSys.Fits (c : SemSys) (q : Proc) (sem : Nat) : Prop :=
  ∀ off, c.bytes.find? (fun off => q.sz ≤ sem + off) = some off →
    kernBase - pgSize * 32 ≤ sem + off ∧ sem + c.size ≤ kernBase ∧
      (q.pgdir.page ((sem + off) / pgSize)).p = true ∧
      (q.pgdir.page ((sem + c.size - 1) / pgSize)).p = true

theorem SemSys.bytes_sorted (c : SemSys) : c.bytes.Pairwise (· < ·) := by
  cases c <;> decide

theorem SemSys.lt_size {c : SemSys} : ∀ {off : Nat}, off ∈ c.bytes → off < c.size ∧ c.size ≤ 68 := by
  have h : ∀ off ∈ c.bytes, off < c.size ∧ c.size ≤ 68 := by
    cases c <;> decide
  exact fun {off} => h off

theorem SemSys.last_mem (c : SemSys) : c.size - 1 ∈ c.bytes := by
  cases c <;> decide

/-- The first byte beyond `sz` and the last one decide. -/
theorem SemSys.fits_iff {c : SemSys} {q : Proc} {sem : Nat} :
    (∀ off ∈ c.bytes, UserByte q (sem + off)) ↔ c.Fits q sem := by
  constructor
  · intro hall off hfind
    have hmem := List.mem_of_find?_eq_some hfind
    have hsz : q.sz ≤ sem + off := by simpa using List.find?_some hfind
    have hsize := lt_size hmem
    obtain ⟨⟨-, hlow⟩, hfirst⟩ := (hall off hmem).resolve_left (by omega)
    obtain ⟨⟨hhigh, -⟩, hlast⟩ := (hall _ c.last_mem).resolve_left (by omega)
    rw [entry_eq_page] at hfirst hlast
    rw [← Nat.add_sub_assoc (by omega)] at hhigh hlast
    exact ⟨hlow, by omega, hfirst, hlast⟩
  · intro hfits k hk
    by_cases hsz : sem + k < q.sz
    · exact .inl hsz
    · right
      have hsome : (c.bytes.find? fun off => q.sz ≤ sem + off).isSome := by
        rw [List.find?_isSome]
        exact ⟨k, hk, by simpa using Nat.le_of_not_lt hsz⟩
      obtain ⟨off, hfind⟩ := Option.isSome_iff_exists.mp hsome
      obtain ⟨hlow, hhigh, hfirst, hlast⟩ := hfits off hfind
      -- `off` comes first in an ascending list
      have hle : off ≤ k := by
        obtain ⟨-, as, bs, hsplit, hbefore⟩ := List.find?_eq_some_iff_append.mp hfind
        have hsorted := c.bytes_sorted
        rw [hsplit] at hk hsorted
        rcases List.mem_append.mp hk with hk | hk
        · have := hbefore k hk
          simp at this
          omega
        · rcases List.mem_cons.mp hk with rfl | hk
          · exact Nat.le_refl _
          · have hlt := (List.pairwise_append.mp hsorted).2.1
            exact Nat.le_of_lt (List.rel_of_pairwise_cons hlt hk)
      have hsize := lt_size hk
      refine ⟨⟨by omega, by omega⟩, ?_⟩
      rw [entry_eq_page]
      -- 68 bytes lie in two pages
      have hpage : (sem + k) / pgSize = (sem + off) / pgSize ∨
          (sem + k) / pgSize = (sem + c.size - 1) / pgSize := by
        simp only [pgSize]
        omega
      rcases hpage with heq | heq
      · rw [heq]
        exact hfirst
      · rw [heq]
        exact hlast

/-- **The semaphore calls stay in user memory, or have accepted too much.** For every
process and every semaphore call: each byte that the call touches is user memory if and
only if every pointer that it accepts leaves room for the words it uses, below `sz` or in
mapped pages of the window. -/
theorem semArgs_user_iff (c : SemSys) (q : Proc) (m : Mem) :
    (∀ b, c.Touches q m b → UserByte q b) ↔ ∀ sem, c.Accepts q m sem → c.Fits q sem := by
  constructor
  · intro hall sem hacc
    refine SemSys.fits_iff.mp fun off hoff => hall _ ?_
    exact SemSys.touches_iff.mpr ⟨sem, hacc, off, hoff, rfl⟩
  · intro hfits b hb
    obtain ⟨sem, hacc, off, hoff, rfl⟩ := SemSys.touches_iff.mp hb
    exact SemSys.fits_iff.mpr (hfits sem hacc) off hoff

/-- A semaphore in the last word of the heap is accepted: `sem_up` writes behind `sz`. -/
theorem semArgs_heapEnd : ¬ ∀ (c : SemSys) (q : Proc) (m : Mem) (b : Nat),
    c.Touches q m b → UserByte q b := by
  intro h
  have hptr : argptr ((sampleArg [0xfc, 0x0f, 0, 0]).proc 1) (sampleArg [0xfc, 0x0f, 0, 0]).mem 0
    sizeofPtr = .ok (some 0xffc) := rfl
  have htouch : SemSys.up.Touches ((sampleArg [0xfc, 0x0f, 0, 0]).proc 1)
      (sampleArg [0xfc, 0x0f, 0, 0]).mem 0x1004 :=
    SemSys.touches_iff.mpr ⟨0xffc, ⟨hptr, nofun⟩, 8, by decide, rfl⟩
  rcases h _ _ _ _ htouch with hlow | ⟨hwin, -⟩
  · exact absurd hlow (by decide)
  · exact absurd hwin (by decide)

end Xv6
