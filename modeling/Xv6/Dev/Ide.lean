import Xv6.Library.Mutex
import Xv6.Library.Queue

/-!
# `ide.c`

`iderw` and `ideintr` as the program of a monitor: the lock is `idelock`, the
channel of a request is its buffer. The processes are `some p`; `none` is the
processor that takes the interrupts of the disk.

Beside the queue and the buffers the data have the disk: the command it works on,
and its contents. A command is started by `idestart`. That it has been carried out
is seen at its interrupt, so the transfer is made there. The histories are no part
of the source: the requests in the order in which they were put into the queue, the
commands the disk has carried out, and the requests that were marked as done. A
request is known by its number in the first of them, which its process brings
along (`ticket`).
-/

namespace Xv6

open Monitor Transition Function

/-! ## §1  The functions -/

/-- `struct buf` without its lock and the links of the cache. -/
structure DiskBuf (β D : Type*) where
  valid : Bool
  dirty : Bool
  dev : Nat
  blockno : Nat
  qnext : Option β
  data : D

/-- `(b->flags & (B_VALID|B_DIRTY)) == B_VALID` -/
def DiskBuf.synced {β D : Type*} (x : DiskBuf β D) : Bool := x.valid && !x.dirty

/-- What is written to the ports of the disk for a buffer. `data` are the bytes that
are transferred, to the disk or from it. -/
structure IdeCmd (β D : Type*) where
  buf : β
  dev : Nat
  sector : Nat
  write : Bool
  data : D

structure Ide (β D : Type*) where
  idequeue : Option β
  buf : β → DiskBuf β D
  cmd : Option (IdeCmd β D)
  disk : Nat → Nat → D
  port : D
  arrived : List β
  transferred : List (IdeCmd β D)
  completed : List β

namespace Ide

def fssize : Nat := 1000

variable {β D : Type*} [DecidableEq β]

def setBuf (d : Ide β D) (b : β) (x : DiskBuf β D) : Ide β D :=
  { d with buf := update d.buf b x }

/-- `*pp`, where `pp` is the address of `idequeue` or of the `qnext` of a buffer. -/
def load (d : Ide β D) : Option β → Option β
  | none => d.idequeue
  | some x => (d.buf x).qnext

/-- `*pp = b` -/
def store (d : Ide β D) (pp : Option β) (b : β) : Ide β D :=
  match pp with
  | none => { d with idequeue := some b }
  | some x => d.setBuf x { d.buf x with qnext := some b }

/-- The command for a buffer: one sector is one block. -/
def command (d : Ide β D) (b : β) : IdeCmd β D :=
  ⟨b, (d.buf b).dev % 2, (d.buf b).blockno, (d.buf b).dirty, (d.buf b).data⟩

/-- `idestart`; `none` is its panic. -/
def idestart (d : Ide β D) (b : β) : Option (Ide β D) :=
  if fssize ≤ (d.buf b).blockno then none else some { d with cmd := some (d.command b) }

/-- The disk carries its command out. -/
def transfer (d : Ide β D) : Ide β D :=
  match d.cmd with
  | none => d
  | some c =>
    if c.write then
      { d with
        cmd := none
        disk := update d.disk c.dev (update (d.disk c.dev) c.sector c.data)
        transferred := d.transferred ++ [c] }
    else
      { d with
        cmd := none
        port := d.disk c.dev c.sector
        transferred := d.transferred ++ [{ c with data := d.disk c.dev c.sector }] }

/-- `if(!(b->flags & B_DIRTY) && idewait(1) >= 0) insl(0x1f0, b->data, BSIZE/4)`;
`ok` tells what `idewait` gives. -/
def insl (d : Ide β D) (b : β) (ok : Bool) : Ide β D :=
  if !(d.buf b).dirty && ok then d.setBuf b { d.buf b with data := d.port } else d

/-- `b->flags |= B_VALID; b->flags &= ~B_DIRTY` -/
def complete (d : Ide β D) (b : β) : Ide β D :=
  { d.setBuf b { d.buf b with valid := true, dirty := false } with
    completed := d.completed ++ [b] }

end Ide

/-- Where a call is while it has `idelock`. -/
inductive IdePc (β D : Type*) where
  | append (b : β) (x : DiskBuf β D)   -- `b->qnext = 0`; `x` is what the caller has put into `b`
  | walk (b : β) (pp : Option β)       -- `for(pp=&idequeue; *pp; pp=&(*pp)->qnext)`
  | begun (b : β) (k : Nat)            -- `if(idequeue == b)`
  | wait (b : β) (k : Nat)             -- `while((b->flags & (B_VALID|B_DIRTY)) != B_VALID)`
  | done (b : β) (k : Nat)
  | intr (ok : Bool)                   -- `if((b = idequeue) == 0)`
  | read (b : β) (ok : Bool)
  | mark (b : β)
  | wake (b : β)                       -- `wakeup(b)`
  | next                               -- `if(idequeue != 0)`
  | finish
  | panicked                           -- nothing happens any more

/-- `iderw` of the processes and `ideintr`. The tests of `iderw` come before the lock; a
caller that fails one of them does not get as far. -/
def ideProgram (ι β D : Type*) [DecidableEq β] (havedisk1 : Bool) :
    Program (Option ι) β (IdePc β D) Unit (Ide β D) where
  enter q _ l :=
    match q, l with
    | some _, .append _ x => !x.synced && (x.dev = 0 || havedisk1)
    | none, .intr _ => true
    | _, _ => false
  act _ l d :=
    match l with
    | .append b x => .go (.walk b none) (d.setBuf b { x with qnext := none })
    | .walk b pp =>
      match d.load pp with
      | some y => .go (.walk b (some y)) d
      | none => .go (.begun b d.arrived.length) { d.store pp b with arrived := d.arrived ++ [b] }
    | .begun b k =>
      if d.idequeue = some b then
        match d.idestart b with
        | some d' => .go (.wait b k) d'
        | none => .go .panicked d
      else .go (.wait b k) d
    | .wait b k => if (d.buf b).synced then .go (.done b k) d else .sleep b (.wait b k)
    | .done _ _ => .leave ()
    | .intr ok =>
      match d.idequeue with
      | none => .leave ()
      | some b => .go (.read b ok) { d.transfer with idequeue := (d.buf b).qnext }
    | .read b ok => .go (.mark b) (d.insl b ok)
    | .mark b => .go (.wake b) (d.complete b)
    | .wake b => .wakeup b .next
    | .next =>
      match d.idequeue with
      | none => .go .finish d
      | some b =>
        match d.idestart b with
        | some d' => .go .finish d'
        | none => .go .panicked d
    | .finish => .leave ()
    | .panicked => .go .panicked d

/-! ## §2  What is assumed -/

section Line

variable {ι β D : Type*}

/-- The buffer whose lock a process in `iderw` has. -/
def IdePc.owns : IdePc β D → Option β
  | .append b _ | .walk b _ | .begun b _ | .wait b _ | .done b _ => some b
  | _ => none

/-- The request of a process, by its number. -/
def IdePc.ticket : IdePc β D → Option (β × Nat)
  | .begun b k | .wait b k | .done b k => some (b, k)
  | _ => none

def ownsAt : Place (IdePc β D) Unit → Option β
  | .inside l => l.owns
  | .out _ => none

def ticketAt : Place (IdePc β D) Unit → Option (β × Nat)
  | .inside l => l.ticket
  | .out _ => none

/-- Each process has the lock of another buffer; an interrupt comes for a command, once,
and after its transfer. -/
def IdeCalls (a : Atomic (Option ι) (IdePc β D) Unit (Ide β D)) (_ : Option ι) :
    IdePc β D → Prop
  | .append b _ => ∀ q, ownsAt (a.place q) ≠ some b
  | .intr ok => ok = true ∧ a.data.cmd.isSome
  | _ => True

/-! ## §3  The invariant -/

/-- The queue as a list of pointers. -/
def Ide.queue (d : Ide β D) : Queue.Pointers β := ⟨d.idequeue, fun b => (d.buf b).qnext⟩

/-- The queue is `xs`, and with what the handler holds in its hands it is what has
arrived and is not completed. -/
structure InLine (d : Ide β D) (held xs : List β) : Prop where
  queue : Queue.Queued d.queue xs
  apart : ∀ b ∈ held, b ∉ xs
  order : d.arrived = d.completed ++ (held ++ xs)
  moved : d.transferred.map IdeCmd.buf = d.completed ++ held

/-- Request `k` is done: the buffer is valid and not dirty, and the disk has carried out a
command for it, with the bytes that are in it. -/
structure Finished (d : Ide β D) (b : β) (k : Nat) : Prop where
  synced : (d.buf b).synced = true
  cmd : ∃ c, d.transferred[k]? = some c ∧ c.buf = b ∧ c.dev = (d.buf b).dev % 2 ∧
    c.sector = (d.buf b).blockno ∧ c.data = (d.buf b).data

/-- The labels at which a process waits for the lock. -/
def Spinning (xs : List β) (q : Option ι) : IdePc β D → Prop
  | .append _ x => x.synced = false
  | .wait _ _ => True
  | .intr ok => q = none ∧ ok = true ∧ xs ≠ []
  | _ => False

/-- The processes and their requests, while `h` has the lock. -/
structure Requests (d : Ide β D) (place : Option ι → Place (IdePc β D) Unit)
    (h : Option (Option ι)) (held xs : List β) : Prop where
  apart : ∀ {q r b}, ownsAt (place q) = some b → ownsAt (place r) = some b → q = r
  ticket : ∀ {q b k}, ticketAt (place q) = some (b, k) → d.arrived[k]? = some b ∧
    (k < d.completed.length → Finished d b k) ∧
    (d.completed.length ≤ k → (d.buf b).synced = false)
  owner : ∀ b ∈ held ++ xs, ∃ q k, ticketAt (place q) = some (b, k) ∧ d.completed.length ≤ k
  spins : ∀ {q l}, some q ≠ h → place q = .inside l → Spinning xs q l

/-- The disk works on the first request of the queue. -/
def Busy (d : Ide β D) (xs : List β) : Prop := d.cmd = xs.head?.map d.command

/-- The queue is in order. -/
structure IdeOK (d : Ide β D) (place : Option ι → Place (IdePc β D) Unit)
    (h : Option (Option ι)) (xs : List β) : Prop where
  line : InLine d [] xs
  requests : Requests d place h [] xs
  busy : Busy d xs

/-- The command that the handler has found carried out for `b`. -/
structure Carried (d : Ide β D) (b : β) (data : D) : Prop where
  idle : d.cmd = none
  last : ∃ c, d.transferred.getLast? = some c ∧ c.dev = (d.buf b).dev % 2 ∧
    c.sector = (d.buf b).blockno ∧ c.data = data

/-- The assertions under the lock. -/
def IdeAt (p : Option ι) (l : IdePc β D) (a : Atomic (Option ι) (IdePc β D) Unit (Ide β D)) :
    Prop :=
  match l with
  | .append _ x => x.synced = false ∧ ∃ xs, IdeOK a.data a.place (some p) xs
  | .walk b pp => ∃ xs zs, IdeOK a.data a.place (some p) xs ∧ b ∉ xs ∧
      (a.data.buf b).qnext = none ∧ (a.data.buf b).synced = false ∧ Queue.Cursor xs pp zs
  | .begun b _ => ∃ xs, InLine a.data [] (xs ++ [b]) ∧
      Requests a.data a.place (some p) [] (xs ++ [b]) ∧ Busy a.data xs
  | .wait _ _ => ∃ xs, IdeOK a.data a.place (some p) xs
  | .done _ k => k < a.data.completed.length ∧ ∃ xs, IdeOK a.data a.place (some p) xs
  | .intr ok => p = none ∧ ok = true ∧ ∃ xs, xs ≠ [] ∧ IdeOK a.data a.place (some p) xs
  | .read b ok => ok = true ∧ ∃ xs, InLine a.data [b] xs ∧
      Requests a.data a.place (some p) [b] xs ∧
      Carried a.data b (if (a.data.buf b).dirty then (a.data.buf b).data else a.data.port)
  | .mark b => ∃ xs, InLine a.data [b] xs ∧ Requests a.data a.place (some p) [b] xs ∧
      Carried a.data b (a.data.buf b).data
  | .wake _ | .next => ∃ xs, InLine a.data [] xs ∧ Requests a.data a.place (some p) [] xs ∧
      a.data.cmd = none
  | .finish => ∃ xs, IdeOK a.data a.place (some p) xs
  | .panicked => True

end Line

/-! ## §4  Requests -/

section Requests

variable {ι β D : Type*} {d d' : Ide β D}
  {place : Option ι → Place (IdePc β D) Unit} {h h' : Option (Option ι)} {held held' xs xs' : List β}
  {p : Option ι} {x : Place (IdePc β D) Unit} {b : β} {k : Nat}

theorem owns_of_ticket (ht : ticketAt x = some (b, k)) : ownsAt x = some b := by
  cases x with
  | out o => cases ht
  | inside l => cases l <;> cases ht <;> rfl

/-- What a request is about. -/
def DiskBuf.core (x : DiskBuf β D) : Bool × Nat × Nat × D := (x.synced, x.dev, x.blockno, x.data)

theorem Finished.congr (hf : Finished d b k) (hcmd : d'.transferred[k]? = d.transferred[k]?)
    (hbuf : (d'.buf b).core = (d.buf b).core) : Finished d' b k := by
  simp only [DiskBuf.core, Prod.mk.injEq] at hbuf
  obtain ⟨hs, hdev, hblock, hdata⟩ := hbuf
  refine ⟨hs.trans hf.synced, ?_⟩
  rw [hcmd, hdev, hblock, hdata]
  exact hf.cmd

theorem Requests.take (hr : Requests d place none held xs) (p : Option ι) :
    Requests d place (some p) held xs :=
  ⟨hr.apart, hr.ticket, hr.owner, fun _ hl => hr.spins (by simp) hl⟩

/-- The process of a buffer in the queue is the only one with this buffer, and its request
is not completed. -/
theorem Requests.ticket_of_mem (hr : Requests d place h held xs) (hb : b ∈ held ++ xs)
    {q : Option ι} (hq : ownsAt (place q) = some b) :
    ∃ k, ticketAt (place q) = some (b, k) ∧ d.completed.length ≤ k := by
  obtain ⟨r, k, ht, hk⟩ := hr.owner b hb
  obtain rfl := hr.apart hq (owns_of_ticket ht)
  exact ⟨k, ht, hk⟩

variable [DecidableEq ι]

/-- One process moves, and no request is completed. -/
theorem Requests.put (hr : Requests d place h held xs)
    (harr : ∀ (k : Nat) b, d.arrived[k]? = some b → d'.arrived[k]? = some b)
    (hcomp : d'.completed = d.completed)
    (hcmd : ∀ k < d.completed.length, d'.transferred[k]? = d.transferred[k]?)
    (hbuf : ∀ q b k, ticketAt (place q) = some (b, k) →
      (k < d.completed.length → (d'.buf b).core = (d.buf b).core) ∧
      (d'.buf b).synced = (d.buf b).synced)
    (howns : ∀ b, ownsAt x = some b → ownsAt (place p) = some b)
    (hkept : ∀ t, ticketAt x = some t → ticketAt (place p) = some t)
    (hdrop : ∀ b k, ticketAt (place p) = some (b, k) →
      ticketAt x = some (b, k) ∨ k < d.completed.length)
    (hline : ∀ b ∈ held' ++ xs', b ∈ held ++ xs)
    (hspin : ∀ q (l : IdePc β D), q ≠ p → some q ≠ h' →
      some q ≠ h ∧ (Spinning xs q l → Spinning xs' q l))
    (hx : some p ≠ h' → ∀ l, x = .inside l → Spinning xs' p l) :
    Requests d' (update place p x) h' held' xs' := by
  have hown : ∀ q b, ownsAt (update place p x q) = some b → ownsAt (place q) = some b := by
    intro q b hq
    by_cases hqp : q = p
    · subst hqp
      rw [update_self] at hq
      exact howns b hq
    · rwa [update_of_ne hqp] at hq
  have htick : ∀ q t, ticketAt (update place p x q) = some t →
      ticketAt (place q) = some t := by
    intro q t hq
    by_cases hqp : q = p
    · subst hqp
      rw [update_self] at hq
      exact hkept t hq
    · rwa [update_of_ne hqp] at hq
  refine ⟨fun hq hr' => hr.apart (hown _ _ hq) (hown _ _ hr'), fun {q b k} ht => ?_,
    fun b hb => ?_, fun {q l} hq hl => ?_⟩
  · have ht' := htick q _ ht
    obtain ⟨hat, hfin, hopen⟩ := hr.ticket ht'
    obtain ⟨hcore, hs⟩ := hbuf q b k ht'
    rw [hcomp]
    refine ⟨harr k b hat, fun hk => (hfin hk).congr (hcmd k hk) (hcore hk), fun hk => ?_⟩
    rw [hs]
    exact hopen hk
  · obtain ⟨q, k, ht, hk⟩ := hr.owner b (hline b hb)
    refine ⟨q, k, ?_, hcomp ▸ hk⟩
    by_cases hqp : q = p
    · subst hqp
      rw [update_self]
      exact (hdrop b k ht).resolve_right (Nat.not_lt.mpr hk)
    · rw [update_of_ne hqp]
      exact ht
  · by_cases hqp : q = p
    · subst hqp
      rw [update_self] at hl
      exact hx hq l hl
    · rw [update_of_ne hqp] at hl
      obtain ⟨hh, himp⟩ := hspin q l hqp hq
      exact himp (hr.spins hh hl)

/-- The holder of the lock goes to another label, with the same buffer and request. -/
theorem Requests.relabel (hr : Requests d place (some p) held xs)
    (harr : d'.arrived = d.arrived) (hcomp : d'.completed = d.completed)
    (hcmd : d'.transferred = d.transferred) (hbuf : d'.buf = d.buf)
    (howns : ownsAt x = ownsAt (place p)) (htick : ticketAt x = ticketAt (place p)) :
    Requests d' (update place p x) (some p) held xs := by
  refine hr.put (fun k b hk => by rw [harr]; exact hk) hcomp (fun k _ => by rw [hcmd])
    (fun q b k _ => by rw [hbuf]; exact ⟨fun _ => rfl, rfl⟩) (fun b hb => howns ▸ hb)
    (fun t ht => htick ▸ ht) (fun b k ht => .inl (htick.trans ht)) (fun b hb => hb)
    (fun q l _ hq => ⟨hq, id⟩) (fun hp => absurd rfl hp)

/-- The holder gives the lock up, and goes on waiting for it or leaves. -/
theorem Requests.drop (hr : Requests d place (some p) held xs)
    (howns : ∀ b, ownsAt x = some b → ownsAt (place p) = some b)
    (hkept : ∀ t, ticketAt x = some t → ticketAt (place p) = some t)
    (hdrop : ∀ b k, ticketAt (place p) = some (b, k) →
      ticketAt x = some (b, k) ∨ k < d.completed.length)
    (hx : ∀ l, x = .inside l → Spinning xs p l) :
    Requests d (update place p x) none held xs :=
  hr.put (fun _ _ hk => hk) rfl (fun _ _ => rfl) (fun _ _ _ _ => ⟨fun _ => rfl, rfl⟩) howns hkept
    hdrop (fun _ hb => hb) (fun _ _ hqp _ => ⟨fun heq => hqp (Option.some.inj heq), id⟩)
    fun _ => hx

/-- A call that may start. -/
def Enters (place : Option ι → Place (IdePc β D) Unit) (xs : List β) (p : Option ι) :
    IdePc β D → Prop
  | .append b x => x.synced = false ∧ ∀ q, ownsAt (place q) ≠ some b
  | .intr ok => p = none ∧ ok = true ∧ xs ≠ []
  | _ => False

/-- A call starts. -/
theorem Requests.enter (hr : Requests d place h held xs) {o : Unit} {l : IdePc β D}
    (hp : place p = .out o) (hl : Enters place xs p l) :
    Requests d (update place p (.inside l)) h held xs := by
  have htick : ticketAt (.inside l) = none := by cases l <;> first | rfl | exact hl.elim
  have hsame : ∀ q, ticketAt (update place p (.inside l) q) = ticketAt (place q) := by
    intro q
    by_cases hqp : q = p
    · subst hqp
      rw [update_self, htick, hp]
      rfl
    · rw [update_of_ne hqp]
  have hfresh : ∀ q b, ownsAt (.inside l) = some b → ownsAt (place q) ≠ some b := by
    intro q b hb
    cases l with
    | append b' x =>
      cases hb
      exact hl.2 q
    | intr ok => cases hb
    | _ => exact hl.elim
  refine ⟨fun {q r b} hq hr' => ?_, fun {q b k} ht => hr.ticket (hsame q ▸ ht), fun b hb => ?_,
    fun {q l'} hq hl' => ?_⟩
  · by_cases hqp : q = p
    · by_cases hrp : r = p
      · rw [hqp, hrp]
      · rw [hqp, update_self] at hq
        rw [update_of_ne hrp] at hr'
        exact absurd hr' (hfresh r b hq)
    · rw [update_of_ne hqp] at hq
      by_cases hrp : r = p
      · rw [hrp, update_self] at hr'
        exact absurd hq (hfresh q b hr')
      · rw [update_of_ne hrp] at hr'
        exact hr.apart hq hr'
  · obtain ⟨q, k, ht, hk⟩ := hr.owner b hb
    exact ⟨q, k, (hsame q).trans ht, hk⟩
  · by_cases hqp : q = p
    · subst hqp
      rw [update_self] at hl'
      cases hl'
      cases l with
      | append b x => exact hl.1
      | intr ok => exact hl
      | _ => exact hl.elim
    · rw [update_of_ne hqp] at hl'
      exact hr.spins hq hl'

end Requests

/-! ## §5  The steps of the functions -/

section Steps

variable {ι β D : Type*} {d d' : Ide β D}
  {place : Option ι → Place (IdePc β D) Unit} {held xs zs : List β} {p : Option ι} {b : β} {k : Nat}

/-- The queue depends on its pointers and on the histories. -/
theorem InLine.congr (hl : InLine d held xs) (hhead : d'.idequeue = d.idequeue)
    (hnext : ∀ y ∈ xs, (d'.buf y).qnext = (d.buf y).qnext) (harr : d'.arrived = d.arrived)
    (hcomp : d'.completed = d.completed) (hcmd : d'.transferred = d.transferred) :
    InLine d' held xs := by
  refine ⟨hl.queue.congr hhead hnext, hl.apart, ?_, ?_⟩
  · rw [harr, hcomp]
    exact hl.order
  · rw [hcmd, hcomp]
    exact hl.moved

theorem Busy.congr (hb : Busy d xs) (hcmd : d'.cmd = d.cmd)
    (hbuf : ∀ y ∈ xs, d'.command y = d.command y) : Busy d' xs := by
  unfold Busy at *
  rw [hcmd, hb]
  cases xs with
  | nil => rfl
  | cons y xs => exact congrArg some (hbuf y (List.mem_cons_self ..)).symm

theorem Ide.load_queue (d : Ide β D) (pp : Option β) : d.load pp = d.queue.get pp := by
  cases pp <;> rfl

/-- The disk carries out the command for the first buffer. -/
theorem transfer_command (hcmd : d.cmd = some (d.command b)) : ∃ c,
    d.transfer.transferred = d.transferred ++ [c] ∧ c.buf = b ∧ c.dev = (d.buf b).dev % 2 ∧
      c.sector = (d.buf b).blockno ∧
      c.data = if (d.buf b).dirty then (d.buf b).data else d.transfer.port := by
  simp only [Ide.transfer, hcmd]
  by_cases hw : (d.buf b).dirty = true
  · have hw' : (d.command b).write = true := hw
    rw [if_pos hw', if_pos hw]
    exact ⟨d.command b, rfl, rfl, rfl, rfl, rfl⟩
  · have hw' : ¬ (d.command b).write = true := hw
    rw [if_neg hw', if_neg hw]
    exact ⟨_, rfl, rfl, rfl, rfl, rfl⟩

theorem transfer_rest (d : Ide β D) : d.transfer.buf = d.buf ∧ d.transfer.arrived = d.arrived ∧
    d.transfer.completed = d.completed ∧ d.transfer.cmd = none := by
  unfold Ide.transfer
  split
  · exact ⟨rfl, rfl, rfl, ‹_›⟩
  · split <;> exact ⟨rfl, rfl, rfl, rfl⟩

/-- **A command is started** for the first of the queue. -/
theorem busy_started (xs : List β) {y : β} (hstart : d.idestart y = some d') (hy : xs.head? = some y) :
    Busy d' xs ∧ d'.idequeue = d.idequeue ∧ d'.buf = d.buf ∧ d'.arrived = d.arrived ∧
      d'.completed = d.completed ∧ d'.transferred = d.transferred := by
  unfold Ide.idestart at hstart
  split at hstart
  · cases hstart
  · cases hstart
    refine ⟨?_, rfl, rfl, rfl, rfl, rfl⟩
    rw [Busy, hy]
    rfl

variable [DecidableEq β]

theorem Ide.store_queue (d : Ide β D) (pp : Option β) (b : β) :
    (d.store pp b).queue = d.queue.set pp (some b) := by
  cases pp with
  | none => rfl
  | some y =>
    have hnext : (fun z => (update d.buf y { d.buf y with qnext := some b } z).qnext) =
        update (fun z => (d.buf z).qnext) y (some b) := by
      funext z
      by_cases hz : z = y
      · rw [hz, update_self, update_self]
      · rw [update_of_ne hz, update_of_ne hz]
    exact congrArg (Queue.Pointers.mk d.idequeue) hnext

/-- A store into the queue changes links only. -/
theorem Ide.store_buf (d : Ide β D) (pp : Option β) (b y : β) :
    ((d.store pp b).buf y).core = (d.buf y).core ∧ ((d.store pp b).buf y).dirty = (d.buf y).dirty := by
  cases pp with
  | none => exact ⟨rfl, rfl⟩
  | some z =>
    by_cases hz : y = z
    · subst hz
      have hself : (d.store (some y) b).buf y = { d.buf y with qnext := some b } :=
        update_self ..
      rw [hself]
      exact ⟨rfl, rfl⟩
    · have hother : (d.store (some z) b).buf y = d.buf y := update_of_ne hz ..
      rw [hother]
      exact ⟨rfl, rfl⟩

theorem Ide.store_rest (d : Ide β D) (pp : Option β) (b : β) :
    (d.store pp b).completed = d.completed ∧ (d.store pp b).transferred = d.transferred ∧
      (d.store pp b).cmd = d.cmd := by
  cases pp <;> exact ⟨rfl, rfl, rfl⟩

variable [DecidableEq ι]

/-- **A request is prepared**: its buffer is not in the queue. -/
theorem IdeOK.append {y : DiskBuf β D} (hok : IdeOK d place (some p) xs)
    (hp : place p = .inside (.append b y)) :
    IdeOK (d.setBuf b { y with qnext := none })
      (update place p (.inside (.walk b none))) (some p) xs ∧ b ∉ xs := by
  have howns : ownsAt (place p) = some b := by rw [hp]; rfl
  have hnone : ticketAt (place p) = none := by rw [hp]; rfl
  have hb : b ∉ xs := by
    intro hmem
    obtain ⟨k, ht, -⟩ := hok.requests.ticket_of_mem hmem howns
    rw [hnone] at ht
    cases ht
  have hother : ∀ z, z ≠ b → (d.setBuf b { y with qnext := none }).buf z = d.buf z :=
    fun z hz => update_of_ne hz ..
  have hxs : ∀ z ∈ xs, z ≠ b := fun z hz heq => hb (heq ▸ hz)
  refine ⟨⟨hok.line.congr rfl (fun z hz => by rw [hother z (hxs z hz)]) rfl rfl rfl, ?_, ?_⟩, hb⟩
  · refine hok.requests.put (fun _ _ hk => hk) rfl (fun _ _ => rfl) (fun q z k ht => ?_)
      (fun z hz => ?_) (fun t ht => by cases ht) (fun z k ht => by rw [hnone] at ht; cases ht)
      (fun _ hz => hz) (fun q l _ hq => ⟨hq, id⟩) (fun hne => absurd rfl hne)
    · -- a request of another process is about another buffer
      have hz : z ≠ b := by
        rintro rfl
        obtain rfl := hok.requests.apart howns (owns_of_ticket ht)
        rw [hnone] at ht
        cases ht
      rw [hother z hz]
      exact ⟨fun _ => rfl, rfl⟩
    · rw [howns]
      exact hz
  · refine hok.busy.congr rfl fun z hz => ?_
    simp only [Ide.command, hother z (hxs z hz)]

/-- **A request is put into the queue**, at the end. -/
theorem IdeOK.link {pp : Option β} (hok : IdeOK d place (some p) xs) (hb : b ∉ xs)
    (hnull : (d.buf b).qnext = none) (hopen : (d.buf b).synced = false)
    (hp : place p = .inside (.walk b pp)) (hpp : pp = xs.getLast?) :
    InLine { d.store pp b with arrived := d.arrived ++ [b] } [] (xs ++ [b]) ∧
    Requests { d.store pp b with arrived := d.arrived ++ [b] }
      (update place p (.inside (.begun b d.arrived.length))) (some p) [] (xs ++ [b]) ∧
    Busy { d.store pp b with arrived := d.arrived ++ [b] } xs := by
  obtain ⟨hcomp, hcmd, hcur⟩ := d.store_rest pp b
  have howns : ownsAt (place p) = some b := by rw [hp]; rfl
  have hnone : ticketAt (place p) = none := by rw [hp]; rfl
  have hlen : d.completed.length ≤ d.arrived.length := by
    rw [hok.line.order, List.length_append]
    exact Nat.le_add_right _ _
  have hr := hok.requests
  refine ⟨⟨?_, nofun, ?_, ?_⟩, ⟨fun {q r z} hq hr' => ?_, fun {q z k} ht => ?_, fun z hz => ?_,
    fun {q l} hq hl => ?_⟩, ?_⟩
  · change Queue.Queued (d.store pp b).queue (xs ++ [b])
    rw [d.store_queue, hpp]
    exact hok.line.queue.append hb hnull
  · change d.arrived ++ [b] = (d.store pp b).completed ++ ([] ++ (xs ++ [b]))
    rw [hcomp, hok.line.order]
    simp only [List.nil_append, List.append_assoc]
  · change (d.store pp b).transferred.map IdeCmd.buf = (d.store pp b).completed ++ []
    rw [hcomp, hcmd]
    exact hok.line.moved
  · -- the process has its buffer from before
    have hsame : ∀ q, ownsAt (update place p (.inside (.begun b d.arrived.length)) q) =
        ownsAt (place q) := by
      intro q
      by_cases hqp : q = p
      · rw [hqp, update_self, howns]
        rfl
      · rw [update_of_ne hqp]
    rw [hsame] at hq hr'
    exact hr.apart hq hr'
  · change (d.arrived ++ [b])[k]? = some z ∧
      (k < (d.store pp b).completed.length → Finished _ z k) ∧
      ((d.store pp b).completed.length ≤ k → ((d.store pp b).buf z).synced = false)
    have hcore := (d.store_buf pp b z).1
    rw [hcomp]
    by_cases hqp : q = p
    · subst hqp
      rw [update_self] at ht
      cases ht
      refine ⟨List.getElem?_concat_length .., fun hk => absurd hk (Nat.not_lt.mpr hlen), fun _ => ?_⟩
      exact (congrArg Prod.fst hcore).trans hopen
    · rw [update_of_ne hqp] at ht
      obtain ⟨hat, hfin, hwait⟩ := hr.ticket ht
      refine ⟨?_, fun hk => (hfin hk).congr ?_ hcore, fun hk => ?_⟩
      · rw [List.getElem?_append_left (List.getElem?_eq_some_iff.mp hat).1]
        exact hat
      · change (d.store pp b).transferred[k]? = _
        rw [hcmd]
      · exact (congrArg Prod.fst hcore).trans (hwait hk)
  · change ∃ q k, _ ∧ (d.store pp b).completed.length ≤ k
    rw [hcomp]
    rcases List.mem_append.mp (show z ∈ xs ++ [b] from hz) with hz | hz
    · obtain ⟨q, k, ht, hk⟩ := hr.owner z hz
      have hqp : q ≠ p := by
        rintro rfl
        rw [hnone] at ht
        cases ht
      exact ⟨q, k, by rw [update_of_ne hqp]; exact ht, hk⟩
    · rw [List.mem_singleton.mp hz]
      exact ⟨p, d.arrived.length, by rw [update_self]; rfl, hlen⟩
  · have hqp : q ≠ p := fun heq => hq (congrArg some heq)
    rw [update_of_ne hqp] at hl
    have := hr.spins hq hl
    cases l with
    | intr ok => exact ⟨this.1, this.2.1, by simp⟩
    | _ => exact this
  · refine hok.busy.congr hcur fun z _ => ?_
    have hcore := d.store_buf pp b z
    simp only [DiskBuf.core, Prod.mk.injEq] at hcore
    change Ide.command (d.store pp b) z = _
    simp only [Ide.command, hcore]

omit [DecidableEq β] in
/-- **The handler takes the first buffer out of the queue**, for which the disk has done
its work. -/
theorem IdeOK.dequeue (hok : IdeOK d place (some none) (b :: xs)) {ok : Bool}
    (hp : place none = .inside (.intr ok)) :
    InLine { d.transfer with idequeue := (d.buf b).qnext } [b] xs ∧
    Requests { d.transfer with idequeue := (d.buf b).qnext }
      (update place none (.inside (.read b ok))) (some none) [b] xs ∧
    Carried { d.transfer with idequeue := (d.buf b).qnext } b
      (if (d.transfer.buf b).dirty then (d.transfer.buf b).data else d.transfer.port) := by
  obtain ⟨hbuf, harr, hcomp, hidle⟩ := transfer_rest d
  obtain ⟨c, hcmd, hcb, hdev, hsector, hdata⟩ := transfer_command hok.busy
  have hlen : d.transferred.length = d.completed.length := by
    have := congrArg List.length hok.line.moved
    rwa [List.length_map, List.append_nil] at this
  have hqueue := hok.line.queue.tail
  refine ⟨⟨?_, ?_, ?_, ?_⟩, ?_, ⟨hidle, c, ?_, ?_, ?_, by rw [hbuf]; exact hdata⟩⟩
  · refine hqueue.congr rfl fun y _ => ?_
    change (d.transfer.buf y).qnext = (d.buf y).qnext
    rw [hbuf]
  · intro y hy
    rw [List.mem_singleton.mp hy]
    exact (List.nodup_cons.mp hok.line.queue.nodup).1
  · change d.transfer.arrived = d.transfer.completed ++ ([b] ++ xs)
    rw [harr, hcomp]
    exact hok.line.order
  · change d.transfer.transferred.map IdeCmd.buf = d.transfer.completed ++ [b]
    rw [hcmd, hcomp, List.map_append, hok.line.moved, List.append_nil, List.map_singleton, hcb]
  · refine hok.requests.put (fun k y hk => ?_) hcomp (fun k hk => ?_) (fun q y k _ => ?_)
      (fun y hy => by cases hy) (fun t ht => by cases ht)
      (fun y k ht => by rw [hp] at ht; cases ht) (fun y hy => hy)
      (fun q l hqp hq => ⟨hq, fun hs => ?_⟩) (fun hne => absurd rfl hne)
    · change d.transfer.arrived[k]? = some y
      rw [harr]
      exact hk
    · change d.transfer.transferred[k]? = _
      rw [hcmd, List.getElem?_append_left (by omega)]
    · change (_ → (d.transfer.buf y).core = _) ∧ (d.transfer.buf y).synced = _
      rw [hbuf]
      exact ⟨fun _ => rfl, rfl⟩
    · cases l with
      | intr ok => exact absurd hs.1 hqp
      | _ => exact hs
  · change d.transfer.transferred.getLast? = some c
    rw [hcmd, List.getLast?_concat]
  · change c.dev = (d.transfer.buf b).dev % 2
    rw [hbuf]
    exact hdev
  · change c.sector = (d.transfer.buf b).blockno
    rw [hbuf]
    exact hsector

/-- **The bytes come into the buffer.** -/
theorem read_carried (hl : InLine d [b] xs) (hr : Requests d place (some p) [b] xs)
    (hp : place p = .inside (.read b true))
    (hc : Carried d b (if (d.buf b).dirty then (d.buf b).data else d.port)) :
    InLine (d.insl b true) [b] xs ∧
    Requests (d.insl b true) (update place p (.inside (.mark b))) (some p) [b] xs ∧
    Carried (d.insl b true) b ((d.insl b true).buf b).data := by
  unfold Ide.insl
  by_cases hd : (d.buf b).dirty = true
  · rw [if_pos hd] at hc
    rw [if_neg (by simp [hd])]
    exact ⟨hl, hr.relabel rfl rfl rfl rfl (by rw [hp]; rfl) (by rw [hp]; rfl), hc⟩
  · rw [if_neg hd] at hc
    rw [if_pos (by simp [hd])]
    have hself : (d.setBuf b { d.buf b with data := d.port }).buf b =
        { d.buf b with data := d.port } := update_self ..
    have hother : ∀ y, y ≠ b → (d.setBuf b { d.buf b with data := d.port }).buf y = d.buf y :=
      fun y hy => update_of_ne hy ..
    refine ⟨hl.congr rfl (fun y hy => ?_) rfl rfl rfl, ?_, ⟨hc.idle, ?_⟩⟩
    · by_cases hyb : y = b
      · rw [hyb, hself]
      · rw [hother y hyb]
    · refine hr.put (fun _ _ hk => hk) rfl (fun _ _ => rfl) (fun q y k ht => ?_)
        (fun y hy => by cases hy) (fun t ht => by cases ht)
        (fun y k ht => by rw [hp] at ht; cases ht) (fun y hy => hy)
        (fun q l _ hq => ⟨hq, id⟩) (fun hne => absurd rfl hne)
      by_cases hyb : y = b
      · -- the request of this buffer is not completed
        subst hyb
        obtain ⟨k', ht', hk'⟩ := hr.ticket_of_mem (List.mem_cons_self ..) (owns_of_ticket ht)
        rw [ht] at ht'
        cases ht'
        rw [hself]
        exact ⟨fun hk => absurd hk (Nat.not_lt.mpr hk'), rfl⟩
      · rw [hother y hyb]
        exact ⟨fun _ => rfl, rfl⟩
    · rw [hself]
      exact hc.last

/-- **The request is marked as done.** -/
theorem mark_completed (hl : InLine d [b] xs) (hr : Requests d place (some p) [b] xs)
    (hp : place p = .inside (.mark b)) (hc : Carried d b (d.buf b).data) :
    InLine (d.complete b) [] xs ∧
    Requests (d.complete b) (update place p (.inside (.wake b))) (some p) [] xs ∧
    (d.complete b).cmd = none := by
  have hself : (d.complete b).buf b = { d.buf b with valid := true, dirty := false } :=
    update_self ..
  have hother : ∀ y, y ≠ b → (d.complete b).buf y = d.buf y := fun y hy => update_of_ne hy ..
  have hcomp : (d.complete b).completed.length = d.completed.length + 1 := List.length_append
  have hbxs : b ∉ xs := hl.apart b (List.mem_singleton_self b)
  -- request number `completed.length` is that of `b`
  have hnow : d.arrived[d.completed.length]? = some b := by
    rw [hl.order, List.getElem?_append_right (Nat.le_refl _), Nat.sub_self]
    rfl
  have hlater : ∀ {k y}, d.arrived[k]? = some y → d.completed.length < k → y ∈ xs := by
    intro k y hk hlt
    rw [hl.order, List.getElem?_append_right (Nat.le_of_lt hlt)] at hk
    obtain ⟨j, hj⟩ : ∃ j, k - d.completed.length = j + 1 := ⟨k - d.completed.length - 1, by omega⟩
    rw [hj] at hk
    exact List.mem_of_getElem? (show xs[j]? = some y from hk)
  refine ⟨⟨hl.queue.congr rfl fun y hy => ?_, nofun, ?_, ?_⟩, ⟨fun {q r y} hq hr' => ?_,
    fun {q y k} ht => ?_, fun y hy => ?_, fun {q l} hq hlab => ?_⟩, hc.idle⟩
  · change ((d.complete b).buf y).qnext = (d.buf y).qnext
    rw [hother y fun heq => hbxs (heq ▸ hy)]
  · change d.arrived = d.completed ++ [b] ++ ([] ++ xs)
    rw [hl.order, List.nil_append, List.append_assoc]
  · change d.transferred.map IdeCmd.buf = d.completed ++ [b] ++ []
    rw [hl.moved, List.append_nil]
  · have hsame : ∀ q, ownsAt (update place p (.inside (.wake b)) q) = ownsAt (place q) := by
      intro q
      by_cases hqp : q = p
      · rw [hqp, update_self, hp]
        rfl
      · rw [update_of_ne hqp]
    rw [hsame] at hq hr'
    exact hr.apart hq hr'
  · have hqp : q ≠ p := by
      rintro rfl
      rw [update_self] at ht
      cases ht
    rw [update_of_ne hqp] at ht
    obtain ⟨hat, hfin, hopen⟩ := hr.ticket ht
    rw [hcomp]
    refine ⟨hat, fun hk => ?_, fun hk => ?_⟩
    · rcases Nat.lt_or_ge k d.completed.length with hlt | hge
      · -- completed before
        have hyb : y ≠ b := by
          rintro rfl
          obtain ⟨k', ht', hk'⟩ := hr.ticket_of_mem (List.mem_cons_self ..) (owns_of_ticket ht)
          rw [ht] at ht'
          cases ht'
          omega
        exact (hfin hlt).congr rfl (by rw [hother y hyb])
      · -- the request of `b`
        obtain rfl : k = d.completed.length := by omega
        rw [hnow] at hat
        cases hat
        obtain ⟨c, hlast, hdev, hsector, hdata⟩ := hc.last
        have hlen : d.transferred.length = d.completed.length + 1 := by
          have := congrArg List.length hl.moved
          rwa [List.length_map, List.length_append] at this
        have hget : d.transferred[d.completed.length]? = some c := by
          rw [List.getLast?_eq_getElem?, hlen] at hlast
          exact hlast
        have hbuf : c.buf = b := by
          have := congrArg (fun l => l[d.completed.length]?) hl.moved
          simp only [List.getElem?_map, hget, List.getElem?_concat_length] at this
          exact Option.some.inj this
        refine ⟨by rw [hself]; rfl, c, hget, hbuf, ?_, ?_, ?_⟩ <;> rw [hself]
        · exact hdev
        · exact hsector
        · exact hdata
    · have hyb : y ≠ b := fun heq => hbxs (heq ▸ hlater hat (by omega))
      rw [hother y hyb]
      exact hopen (by omega)
  · obtain ⟨q, k, ht, hk⟩ := hr.owner y (List.mem_cons_of_mem _ hy)
    have hqp : q ≠ p := by
      rintro rfl
      rw [hp] at ht
      cases ht
    refine ⟨q, k, by rw [update_of_ne hqp]; exact ht, ?_⟩
    rw [hcomp]
    refine Nat.lt_of_le_of_ne hk fun heq => ?_
    have hat := (hr.ticket ht).1
    rw [← heq, hnow] at hat
    exact hbxs (Option.some.inj hat ▸ hy)
  · have hqp : q ≠ p := fun heq => hq (congrArg some heq)
    rw [update_of_ne hqp] at hlab
    exact hr.spins hq hlab

end Steps

/-! ## §6  Nobody sleeps for a request that is done -/

section Signals

variable {ι β D : Type*} [DecidableEq β] {havedisk1 : Bool} {d d' : Ide β D} {p : Option ι}
  {l l' : IdePc β D}

/-- A process sleeps for its request. -/
theorem ide_sleeps {c : β} (hact : (ideProgram ι β D havedisk1).act p l d = .sleep c l') :
    ∃ k, l = .wait c k ∧ l' = .wait c k ∧ (d.buf c).synced = false := by
  cases l <;> simp only [ideProgram] at hact
  case wait b k =>
    split at hact
    · cases hact
    · cases hact
      exact ⟨k, rfl, rfl, Bool.eq_false_iff.mpr ‹_›⟩
  all_goals repeat' split at hact
  all_goals cases hact

/-- The handler wakes the process of its buffer. -/
theorem ide_wakes {c : β} (hact : (ideProgram ι β D havedisk1).act p l d = .wakeup c l') :
    l = .wake c ∧ l' = .next := by
  cases l <;> simp only [ideProgram] at hact
  case wake b =>
    cases hact
    exact ⟨rfl, rfl⟩
  all_goals repeat' split at hact
  all_goals cases hact

theorem ide_leaves {o : Unit} (hact : (ideProgram ι β D havedisk1).act p l d = .leave o) :
    (∃ b k, l = .done b k) ∨ l = .finish ∨ ∃ ok, l = .intr ok ∧ d.idequeue = none := by
  cases l <;> simp only [ideProgram] at hact
  case done b k => exact .inl ⟨b, k, rfl⟩
  case finish => exact .inr (.inl rfl)
  case intr ok =>
    split at hact
    · exact .inr (.inr ⟨ok, rfl, ‹_›⟩)
    · cases hact
  all_goals repeat' split at hact
  all_goals cases hact

/-- What a process brings along for its buffer is a request. -/
def IdePc.Open (l : IdePc β D) (_ : Ide β D) : Prop :=
  ∀ b x, l = .append b x → x.synced = false

def IdePc.wakes (l : IdePc β D) (b : β) : Prop := l = .wake b

/-- A request is done only by the handler that marks it, and it wakes its process. -/
theorem ide_unblocks {c : β} (hopen : l.Open d)
    (hact : (ideProgram ι β D havedisk1).act p l d = .go l' d') (h : (d.buf c).synced = false)
    (h' : ¬ (d'.buf c).synced = false) : l' = .wake c := by
  have hsame : d'.buf = d.buf → l' = .wake c := by
    intro he
    rw [he] at h'
    exact absurd h h'
  have hstart : ∀ {b e}, d.idestart b = some e → e.buf = d.buf := by
    intro b e he
    unfold Ide.idestart at he
    split at he <;> cases he
    rfl
  cases l with
  | append b x =>
    cases hact
    by_cases hc : c = b
    · subst hc
      simp only [Ide.setBuf, update_self] at h'
      exact absurd (hopen c x rfl) h'
    · simp only [Ide.setBuf, update_of_ne hc] at h'
      exact absurd h h'
  | walk b pp =>
    simp only [ideProgram] at hact
    split at hact
    · cases hact
      exact hsame rfl
    · cases hact
      have hcore := (d.store_buf pp b c).1
      have hs : ((d.store pp b).buf c).synced = (d.buf c).synced := congrArg Prod.fst hcore
      exact absurd (hs.trans h) h'
  | begun b k | wait b k | intr ok | next | panicked =>
    -- the buffers stay as they are
    simp only [ideProgram] at hact
    (repeat' split at hact) <;> cases hact <;> first
      | exact hsame rfl
      | exact hsame (hstart ‹_›)
      | exact hsame (transfer_rest d).1
  | read b ok =>
    cases hact
    have hs : ((d.insl b ok).buf c).synced = (d.buf c).synced := by
      unfold Ide.insl
      split
      · by_cases hc : c = b
        · subst hc
          simp only [Ide.setBuf, update_self]
          rfl
        · simp only [Ide.setBuf, update_of_ne hc]
      · rfl
    exact absurd (hs.trans h) h'
  | mark b =>
    cases hact
    by_cases hc : c = b
    · rw [hc]
    · simp only [Ide.complete, Ide.setBuf, update_of_ne hc] at h'
      exact absurd h h'
  | done b k | wake b | finish => cases hact

/-- No process goes back to the start of a call. -/
theorem ide_goes_on {b : β} {x : DiskBuf β D} :
    (ideProgram ι β D havedisk1).act p l d ≠ .go (.append b x) d' := by
  intro hact
  cases l <;> simp only [ideProgram] at hact
  all_goals repeat' split at hact
  all_goals cases hact

theorem ide_signals : SignalsAt (ideProgram ι β D havedisk1) IdePc.Open
    (fun b d => (d.buf b).synced = false) IdePc.wakes where
  enters := by
    rintro p o l hen d b x rfl
    cases p with
    | none => cases hen
    | some p =>
      simp only [ideProgram, Bool.and_eq_true, Bool.not_eq_true'] at hen
      exact hen.1
  sleeps := by
    intro p l d c l' _ hact
    obtain ⟨k, rfl, rfl, hopen⟩ := ide_sleeps hact
    exact ⟨hopen, (fun c' hc => by cases hc), fun d' b x hl => by cases hl⟩
  goes := by
    intro p l d l' d' hopen hact
    refine ⟨fun b x hl => absurd (hl ▸ hact) ide_goes_on, fun c hc => ?_⟩
    rcases hc with rfl | ⟨h, h'⟩
    · cases hact
    · exact ide_unblocks hopen hact h h'
  wakes := by
    intro p l d c' l' _ hact
    obtain ⟨rfl, rfl⟩ := ide_wakes hact
    refine ⟨(fun b x hl => by cases hl), fun c hc => ?_⟩
    cases hc
    exact .inl rfl

end Signals

/-! ## §7  Runs -/

section Runs

variable {ι β D : Type*} {havedisk1 : Bool}

/-- While nobody has `idelock`. -/
def IdeFree (a : Atomic (Option ι) (IdePc β D) Unit (Ide β D)) : Prop :=
  ∃ xs, IdeOK a.data a.place none xs

variable {d d' : Ide β D} {xs : List β}

theorem Busy.ne_nil (hb : Busy d xs) (hcmd : d.cmd.isSome) : xs ≠ [] := by
  rintro rfl
  rw [hb] at hcmd
  cases hcmd

variable {a : Atomic (Option ι) (IdePc β D) Unit (Ide β D)} {p : Option ι} {l l' : IdePc β D}

theorem ide_take (hfree : IdeFree a) (hp : a.place p = .inside l) : IdeAt p l a := by
  obtain ⟨xs, hok⟩ := hfree
  have hspin := hok.requests.spins (by simp) hp
  have hok' : IdeOK a.data a.place (some p) xs := ⟨hok.line, hok.requests.take p, hok.busy⟩
  cases l with
  | append b x => exact ⟨hspin, xs, hok'⟩
  | wait b k => exact ⟨xs, hok'⟩
  | intr ok => exact ⟨hspin.1, hspin.2.1, xs, hspin.2.2, hok'⟩
  | _ => exact hspin.elim

/-- The driver before the first request. -/
def Ide.idle (buf : β → DiskBuf β D) (disk : Nat → Nat → D) (port : D) : Ide β D :=
  ⟨none, buf, none, disk, port, [], [], []⟩

theorem idle_free (buf : β → DiskBuf β D) (disk : Nat → Nat → D) (port : D) :
    IdeFree (initial (Ide.idle buf disk port) () : State (Option ι) β (IdePc β D) Unit _).view := by
  refine ⟨[], ⟨⟨rfl, List.nodup_nil⟩, nofun, rfl, rfl⟩, ⟨fun hq => ?_, fun ht => ?_, nofun,
    fun _ hl => ?_⟩, rfl⟩
  · cases hq
  · cases ht
  · cases hl

variable [DecidableEq β]

/-- Who enters is a process with a buffer of its own or the handler. -/
theorem enters_of {o : Unit} (hen : (ideProgram ι β D havedisk1).enter p o l = true)
    (hG : IdeCalls a p l) (hne : a.data.cmd.isSome → xs ≠ []) : Enters a.place xs p l := by
  cases p with
  | some p =>
    cases l with
    | append b x =>
      simp only [ideProgram, Bool.and_eq_true, Bool.not_eq_true'] at hen
      exact ⟨hen.1, hG⟩
    | _ => cases hen
  | none =>
    cases l with
    | intr ok => exact ⟨rfl, hG.1, hne hG.2⟩
    | _ => cases hen

variable [DecidableEq ι]

theorem IdeOK.enter {h : Option (Option ι)} {o : Unit} (hok : IdeOK a.data a.place h xs)
    (hp : a.place p = .out o) (hen : (ideProgram ι β D havedisk1).enter p o l = true)
    (hG : IdeCalls a p l) : IdeOK a.data (a.put p (.inside l)).place h xs :=
  ⟨hok.line, hok.requests.enter hp (enters_of hen hG hok.busy.ne_nil), hok.busy⟩

theorem ide_enterAt {q : Option ι} {o : Unit} {m : IdePc β D} (hat : IdeAt q m a)
    (hp : a.place p = .out o) (hen : (ideProgram ι β D havedisk1).enter p o l = true)
    (hG : IdeCalls a p l) :
    IdeAt q m (a.put p (.inside l)) := by
  -- while no command is in progress, the handler does not enter
  have hidle : ∀ {xs : List β}, a.data.cmd = none → a.data.cmd.isSome → xs ≠ [] := by
    intro xs hnone hsome
    rw [hnone] at hsome
    cases hsome
  cases m with
  | append b x =>
    obtain ⟨hx, xs, hok⟩ := hat
    exact ⟨hx, xs, hok.enter hp hen hG⟩
  | walk b pp =>
    obtain ⟨xs, zs, hok, hrest⟩ := hat
    exact ⟨xs, zs, hok.enter hp hen hG, hrest⟩
  | begun b k =>
    obtain ⟨xs, hl, hr, hb⟩ := hat
    exact ⟨xs, hl, hr.enter hp (enters_of hen hG fun _ => by simp), hb⟩
  | wait b k | finish =>
    obtain ⟨xs, hok⟩ := hat
    exact ⟨xs, hok.enter hp hen hG⟩
  | done b k =>
    obtain ⟨hk, xs, hok⟩ := hat
    exact ⟨hk, xs, hok.enter hp hen hG⟩
  | intr ok =>
    obtain ⟨hq, hk, xs, hne, hok⟩ := hat
    exact ⟨hq, hk, xs, hne, hok.enter hp hen hG⟩
  | read b ok =>
    obtain ⟨hk, xs, hl, hr, hc⟩ := hat
    exact ⟨hk, xs, hl, hr.enter hp (enters_of hen hG (hidle hc.idle)), hc⟩
  | mark b =>
    obtain ⟨xs, hl, hr, hc⟩ := hat
    exact ⟨xs, hl, hr.enter hp (enters_of hen hG (hidle hc.idle)), hc⟩
  | wake b | next =>
    obtain ⟨xs, hl, hr, hc⟩ := hat
    exact ⟨xs, hl, hr.enter hp (enters_of hen hG (hidle hc)), hc⟩
  | panicked => trivial

omit [DecidableEq β] in
/-- The holder goes on with the same buffer and request. -/
theorem IdeOK.relabel {place : Option ι → Place (IdePc β D) Unit} {x : Place (IdePc β D) Unit}
    (hl : InLine d [] xs) (hr : Requests d place (some p) [] xs) (hb : Busy d' xs)
    (hhead : d'.idequeue = d.idequeue) (hbuf : d'.buf = d.buf) (harr : d'.arrived = d.arrived)
    (hcomp : d'.completed = d.completed) (hcmd : d'.transferred = d.transferred)
    (howns : ownsAt x = ownsAt (place p)) (htick : ticketAt x = ticketAt (place p)) :
    IdeOK d' (update place p x) (some p) xs :=
  ⟨hl.congr hhead (fun _ _ => by rw [hbuf]) harr hcomp hcmd,
    hr.relabel harr hcomp hcmd hbuf howns htick, hb⟩

omit [DecidableEq β] in
theorem IdeOK.goes {place : Option ι → Place (IdePc β D) Unit} {x : Place (IdePc β D) Unit}
    (hok : IdeOK d place (some p) xs) (howns : ownsAt x = ownsAt (place p))
    (htick : ticketAt x = ticketAt (place p)) :
    IdeOK d (update place p x) (some p) xs :=
  IdeOK.relabel hok.line hok.requests hok.busy rfl rfl rfl rfl rfl howns htick

/-- **The steps under the lock.** -/
theorem ide_go (hat : IdeAt p l a) (hp : a.place p = .inside l)
    (hact : (ideProgram ι β D havedisk1).act p l a.data = .go l' d) :
    IdeAt p l' ({ a with data := d }.put p (.inside l')) := by
  have hsame : ∀ l' : IdePc β D, l'.owns = l.owns → l'.ticket = l.ticket →
      ownsAt (.inside l') = ownsAt (a.place p) ∧ ticketAt (.inside l') = ticketAt (a.place p) :=
    fun l' h₁ h₂ => by rw [hp]; exact ⟨h₁, h₂⟩
  cases l with
  | append b x =>
    cases hact
    obtain ⟨hx, xs, hok⟩ := hat
    obtain ⟨hok', hb⟩ := hok.append hp
    have hself : (a.data.setBuf b { x with qnext := none }).buf b = { x with qnext := none } :=
      update_self ..
    refine ⟨xs, xs, hok', hb, ?_, ?_, Queue.cursor_first xs⟩
    · change ((a.data.setBuf b { x with qnext := none }).buf b).qnext = none
      rw [hself]
    · change ((a.data.setBuf b { x with qnext := none }).buf b).synced = false
      rw [hself]
      exact hx
  | walk b pp =>
    obtain ⟨xs, zs, hok, hb, hnull, hopen, hcur⟩ := hat
    have hget := hok.line.queue.get hcur
    rw [← Ide.load_queue] at hget
    simp only [ideProgram, hget] at hact
    cases zs with
    | nil =>
      cases hact
      exact ⟨xs, hok.link hb hnull hopen hp hcur.last⟩
    | cons z zs =>
      cases hact
      obtain ⟨h₁, h₂⟩ := hsame (.walk b (some z)) rfl rfl
      exact ⟨xs, zs, hok.goes h₁ h₂, hb, hnull, hopen, hcur.next⟩
  | begun b k =>
    obtain ⟨xs, hl, hr, hb⟩ := hat
    obtain ⟨h₁, h₂⟩ := hsame (.wait b k) rfl rfl
    have hhead : a.data.idequeue = (xs ++ [b]).head? := hl.queue.head
    cases xs with
    | nil =>
      -- the first request
      simp only [ideProgram] at hact
      rw [if_pos (show a.data.idequeue = some b from hhead)] at hact
      cases hs : a.data.idestart b with
      | none =>
        rw [hs] at hact
        cases hact
        trivial
      | some d' =>
        rw [hs] at hact
        cases hact
        obtain ⟨hbusy, hh, hbuf, harr, hcomp, hcmd⟩ := busy_started [b] hs rfl
        exact ⟨[b], IdeOK.relabel hl hr hbusy hh hbuf harr hcomp hcmd h₁ h₂⟩
    | cons y ys =>
      have hyb : y ≠ b := by
        rintro rfl
        exact (List.nodup_cons.mp hl.queue.nodup).1
          (List.mem_append_right _ (List.mem_singleton_self _))
      simp only [ideProgram] at hact
      rw [if_neg (by rw [hhead]; simpa using hyb)] at hact
      cases hact
      exact ⟨y :: ys ++ [b], IdeOK.relabel hl hr hb rfl rfl rfl rfl rfl h₁ h₂⟩
  | wait b k =>
    obtain ⟨xs, hok⟩ := hat
    obtain ⟨h₁, h₂⟩ := hsame (.done b k) rfl rfl
    simp only [ideProgram] at hact
    split at hact
    · rename_i hs
      cases hact
      refine ⟨?_, xs, hok.goes h₁ h₂⟩
      -- the flags of a request that is not completed say so
      by_contra hk
      have ht : ticketAt (a.place p) = some (b, k) := by rw [hp]; rfl
      rw [(hok.requests.ticket ht).2.2 (Nat.le_of_not_lt hk)] at hs
      cases hs
    · cases hact
  | intr ok =>
    obtain ⟨rfl, rfl, xs, hne, hok⟩ := hat
    cases xs with
    | nil => exact absurd rfl hne
    | cons b xs =>
      have hhead : a.data.idequeue = some b := hok.line.queue.head
      simp only [ideProgram, hhead] at hact
      cases hact
      exact ⟨rfl, xs, hok.dequeue hp⟩
  | read b ok =>
    obtain ⟨rfl, xs, hl, hr, hc⟩ := hat
    cases hact
    exact ⟨xs, read_carried hl hr hp hc⟩
  | mark b =>
    obtain ⟨xs, hl, hr, hc⟩ := hat
    cases hact
    exact ⟨xs, mark_completed hl hr hp hc⟩
  | next =>
    obtain ⟨xs, hl, hr, hc⟩ := hat
    obtain ⟨h₁, h₂⟩ := hsame .finish rfl rfl
    have hhead : a.data.idequeue = xs.head? := hl.queue.head
    cases xs with
    | nil =>
      simp only [ideProgram, hhead, List.head?_nil] at hact
      cases hact
      exact ⟨[], IdeOK.relabel hl hr hc rfl rfl rfl rfl rfl h₁ h₂⟩
    | cons y ys =>
      simp only [ideProgram, hhead, List.head?_cons] at hact
      cases hs : a.data.idestart y with
      | none =>
        rw [hs] at hact
        cases hact
        trivial
      | some d' =>
        rw [hs] at hact
        cases hact
        obtain ⟨hbusy, hh, hbuf, harr, hcomp, hcmd⟩ := busy_started (y :: ys) hs rfl
        exact ⟨y :: ys, IdeOK.relabel hl hr hbusy hh hbuf harr hcomp hcmd h₁ h₂⟩
  | panicked =>
    cases hact
    trivial
  | done b k | wake b | finish => cases hact

/-- **The lock protects the queue.** -/
theorem ide_locked :
    Locked (ideProgram ι β D havedisk1) IdeCalls (IdeFree (ι := ι)) IdeAt where
  enter := fun ⟨xs, hok⟩ hp hen hG => ⟨xs, hok.enter hp hen hG⟩
  enterAt := fun hat _ _ hp hen hG => ide_enterAt hat hp hen hG
  take := ide_take
  go := ide_go
  sleep := by
    intro a p l c l' hat hp hact
    obtain ⟨k, rfl, rfl, -⟩ := ide_sleeps hact
    obtain ⟨xs, hok⟩ := hat
    refine ⟨xs, hok.line, hok.requests.drop (fun b hb => ?_) (fun t ht => ?_)
      (fun b k' ht => .inl ?_) (fun l hl => ?_), hok.busy⟩
    · rw [hp]
      exact hb
    · rw [hp]
      exact ht
    · rw [hp] at ht
      exact ht
    · cases hl
      trivial
  wakeup := by
    intro a p l c l' hat hp hact
    obtain ⟨rfl, rfl⟩ := ide_wakes hact
    obtain ⟨xs, hl, hr, hc⟩ := hat
    exact ⟨xs, hl, hr.relabel rfl rfl rfl rfl (by rw [hp]; rfl) (by rw [hp]; rfl), hc⟩
  leave := by
    intro a p l o hat hp hact
    have hleave : ∀ xs, IdeOK a.data a.place (some p) xs →
        (∀ b k, l.ticket = some (b, k) → k < a.data.completed.length) →
        IdeFree (a.put p (.out o)) := by
      intro xs hok hk
      refine ⟨xs, hok.line, hok.requests.drop (fun b hb => by cases hb) (fun t ht => by cases ht)
        (fun b k ht => .inr (hk b k ?_)) (fun l hl => by cases hl), hok.busy⟩
      rw [hp] at ht
      exact ht
    rcases ide_leaves hact with ⟨b, k, rfl⟩ | rfl | ⟨ok, rfl, hnone⟩
    · obtain ⟨hk, xs, hok⟩ := hat
      exact hleave xs hok fun b' k' ht => by cases ht; exact hk
    · obtain ⟨xs, hok⟩ := hat
      exact hleave xs hok fun b' k' ht => by cases ht
    · -- there is a request, or no interrupt would have come
      obtain ⟨-, -, xs, hne, hok⟩ := hat
      have hhead : a.data.idequeue = xs.head? := hok.line.queue.head
      rw [hnone] at hhead
      exact absurd (List.head?_eq_none_iff.mp hhead.symm) hne

/-- **Requests are carried out in order.** With `idelock` free, `idequeue` is a list without
repetition; it holds the requests that have arrived and are not completed, in the order of
their arrival, each with its process in `iderw`; all others are completed, in that order,
each with one command; the disk works on the first of the queue; and nobody sleeps for a
buffer that is done. A process at the end of `iderw` has its own request completed: the
buffer is valid and not dirty, and its bytes were transferred. -/
theorem iderw_in_order {buf : β → DiskBuf β D} {disk : Nat → Nat → D} {port : D}
    {es : List (Monitor.Event (Option ι) (IdePc β D))}
    {s : State (Option ι) β (IdePc β D) Unit (Ide β D)}
    (hrun : ((system (ideProgram ι β D havedisk1)).guarded (Entering IdeCalls)).Run
      (initial (Ide.idle buf disk port) ()) es s) :
    (s.lk = none → ∃ xs, Queue.Queued s.data.queue xs ∧
      s.data.arrived = s.data.completed ++ xs ∧
      s.data.transferred.map IdeCmd.buf = s.data.completed ∧
      s.data.cmd = xs.head?.map s.data.command ∧
      (∀ b, b ∈ xs ↔ ∃ p k, ticketAt (s.loc p).place = some (b, k) ∧ s.data.completed.length ≤ k) ∧
      ∀ p, s.sleeping p = true → ∃ b, s.chan p = some b ∧ (s.data.buf b).synced = false) ∧
    ∀ p b k, s.loc p = .body (.done b k) →
      s.data.arrived[k]? = some b ∧ s.data.completed[k]? = some b ∧ Finished s.data b k := by
  obtain ⟨hd, hheld⟩ := locked_run ide_locked hrun (idle_free buf disk port)
  constructor
  · intro hlk
    obtain ⟨xs, hok⟩ := hheld.free hlk
    have horder : s.data.arrived = s.data.completed ++ xs := hok.line.order
    refine ⟨xs, hok.line.queue, horder, ?_, hok.busy, fun b => ⟨hok.requests.owner b, ?_⟩, ?_⟩
    · rw [← List.append_nil s.data.completed]
      exact hok.line.moved
    · rintro ⟨p, k, ht, hk⟩
      have hat := (hok.requests.ticket ht).1
      change s.data.arrived[k]? = some b at hat
      rw [horder, List.getElem?_append_right hk] at hat
      exact List.mem_of_getElem? hat
    · intro p hp
      have hleave : ∀ s e, LeavesNobody (ideProgram ι β D havedisk1) IdePc.wakes s e := by
        rintro s e p l o c - - hact rfl
        cases hact
      exact no_lost_wakeup_at ide_signals (hrun.of_guarded.to_guarded hleave) hlk hp
  · intro p b k hloc
    have hat := hheld.taken hd (p := p) (by rw [hloc]; rfl)
    rw [hloc] at hat
    obtain ⟨hk, xs, hok⟩ := hat
    change k < s.data.completed.length at hk
    have ht : ticketAt (s.view.place p) = some (b, k) := by
      change ticketAt (s.loc p).place = _
      rw [hloc]
      rfl
    obtain ⟨harr, hfin, -⟩ := hok.requests.ticket ht
    refine ⟨harr, ?_, hfin hk⟩
    have horder : s.data.arrived = s.data.completed ++ xs := hok.line.order
    change s.data.arrived[k]? = some b at harr
    rwa [horder, List.getElem?_append_left hk] at harr

/-- One more place, or the end. -/
theorem walk_steps (havedisk1 : Bool) {b : β} : ∀ {zs : List β} {pp : Option β}
    {s : State (Option ι) β (IdePc β D) Unit (Ide β D)},
    s.loc p = .body (.walk b pp) → Queue.Queued s.data.queue xs → Queue.Cursor xs pp zs →
    ∃ k s', (system (ideProgram ι β D havedisk1)).Run s
      (List.replicate (zs.length + 1) (.proc p)) s' ∧ s'.loc p = .body (.begun b k)
  | [], pp, s, hloc, hq, hcur => by
    have hget : s.data.load pp = none := (Ide.load_queue _ _).trans (hq.get hcur)
    have hact : (ideProgram ι β D havedisk1).act p (.walk b pp) s.data =
        .go (.begun b s.data.arrived.length)
          { s.data.store pp b with arrived := s.data.arrived ++ [b] } := by
      simp only [ideProgram, hget]
    exact ⟨s.data.arrived.length, _, .single (next_go hloc hact), update_self ..⟩
  | z :: zs, pp, s, hloc, hq, hcur => by
    have hget : s.data.load pp = some z := (Ide.load_queue _ _).trans (hq.get hcur)
    have hact : (ideProgram ι β D havedisk1).act p (.walk b pp) s.data =
        .go (.walk b (some z)) s.data := by
      simp only [ideProgram, hget]
    have hstep : (system (ideProgram ι β D havedisk1)).step s (.proc p)
        (s.move p (.body (.walk b (some z)))) := next_go hloc hact
    obtain ⟨k, s', hrest, hend⟩ := walk_steps havedisk1
      (s := s.move p (.body (.walk b (some z)))) (update_self ..) hq hcur.next
    exact ⟨k, s', (System.Run.single hstep).append hrest, hend⟩

/-- **The walk ends**: a process that looks for the end of the queue gets there by itself,
with no more steps than there are requests in front of it. -/
theorem iderw_walk_ends {buf : β → DiskBuf β D} {disk : Nat → Nat → D} {port : D}
    {es : List (Monitor.Event (Option ι) (IdePc β D))}
    {s : State (Option ι) β (IdePc β D) Unit (Ide β D)}
    (hrun : ((system (ideProgram ι β D havedisk1)).guarded (Entering IdeCalls)).Run
      (initial (Ide.idle buf disk port) ()) es s) {b : β} {pp : Option β}
    (hloc : s.loc p = .body (.walk b pp)) :
    ∃ n k s', n ≤ s.data.arrived.length - s.data.completed.length ∧
      (system (ideProgram ι β D havedisk1)).Run s (List.replicate (n + 1) (.proc p)) s' ∧
      s'.loc p = .body (.begun b k) := by
  obtain ⟨hd, hheld⟩ := locked_run ide_locked hrun (idle_free buf disk port)
  have hat := hheld.taken hd (p := p) (by rw [hloc]; rfl)
  rw [hloc] at hat
  obtain ⟨xs, zs, hok, -, -, -, hcur⟩ := hat
  obtain ⟨k, s', hsteps, hend⟩ := walk_steps havedisk1 hloc hok.line.queue hcur
  refine ⟨zs.length, k, s', ?_, hsteps, hend⟩
  obtain ⟨ys, hxs, -⟩ := hcur
  have horder : s.data.arrived = s.data.completed ++ xs := hok.line.order
  rw [horder, hxs, List.length_append, List.length_append]
  omega

end Runs

instance IdeCalls.decidable {ι β D : Type*} [Fintype ι] [DecidableEq β]
    (a : Atomic (Option ι) (IdePc β D) Unit (Ide β D)) (p : Option ι) :
    (l : IdePc β D) → Decidable (IdeCalls a p l)
  | .append b _ => inferInstanceAs (Decidable (∀ q, ownsAt (a.place q) ≠ some b))
  | .intr ok => inferInstanceAs (Decidable (ok = true ∧ a.data.cmd.isSome = true))
  | .walk _ _ | .begun _ _ | .wait _ _ | .done _ _ | .read _ _ | .mark _ | .wake _ | .next | .finish
  | .panicked => .isTrue trivial

/-- Process 0 reads buffer 0, and sleeps; process 1 writes buffer 1, and sleeps; the
interrupt of the read comes, and process 0 goes on. -/
def readAndWrite : List (Monitor.Event (Option (Fin 2)) (IdePc (Fin 2) Nat)) :=
  let a := .proc (some 0)
  let b := .proc (some 1)
  let i := .proc none
  [.enter (some 0) (.append 0 ⟨false, false, 1, 5, none, 0⟩), a, a, a, a, a, a, a, a, a, .drop,
    .enter (some 1) (.append 1 ⟨true, true, 1, 7, none, 9⟩), b, b, b, b, b, b, b, b, b, b, .drop,
    .enter none (.intr true), i, i, i, i, i, i, i, i, i, i, .grab, .resume (some 0), a, a, a]

/-- The disk has its sector numbers as contents. -/
def readAndWriteStart : State (Option (Fin 2)) (Fin 2) (IdePc (Fin 2) Nat) Unit (Ide (Fin 2) Nat) :=
  initial (Ide.idle (fun _ => ⟨false, false, 1, 0, none, 0⟩) (fun _ sector => sector) 0) ()

/-- The steps with two processes and two buffers. -/
abbrev twoNext :=
  System.guardedNext (next (ideProgram (Fin 2) (Fin 2) Nat true)) (Entering IdeCalls)

theorem iderw_in_order_readAndWrite : ∃ s,
    readAndWrite.foldlM twoNext readAndWriteStart = some s ∧
    s.loc (some 0) = .body (.done 0 0) ∧ Finished s.data 0 0 := by
  obtain ⟨s, hs, hloc⟩ : ∃ s, readAndWrite.foldlM twoNext readAndWriteStart = some s ∧
      s.loc (some 0) = .body (.done 0 0) := ⟨_, rfl, rfl⟩
  have hrun : ((system (ideProgram (Fin 2) (Fin 2) Nat true)).guarded (Entering IdeCalls)).Run
    readAndWriteStart readAndWrite s := System.run_ofNext hs
  exact ⟨s, hs, hloc, ((iderw_in_order hrun).2 _ _ _ hloc).2.2⟩

/-- Process 1 looks for its place behind the request of process 0. -/
theorem iderw_walk_ends_second : ∃ s,
    (readAndWrite.take 14).foldlM twoNext readAndWriteStart = some s ∧
    ∃ n k s', n ≤ 1 ∧ (system (ideProgram (Fin 2) (Fin 2) Nat true)).Run s
      (List.replicate (n + 1) (.proc (some 1))) s' ∧ s'.loc (some 1) = .body (.begun 1 k) := by
  obtain ⟨s, hs, hloc, hone⟩ : ∃ s, (readAndWrite.take 14).foldlM twoNext
      readAndWriteStart = some s ∧ s.loc (some 1) = .body (.walk 1 none) ∧
      s.data.arrived.length - s.data.completed.length = 1 := ⟨_, rfl, rfl, rfl⟩
  exact ⟨s, hs, hone ▸ iderw_walk_ends (System.run_ofNext hs) hloc⟩

end Xv6
