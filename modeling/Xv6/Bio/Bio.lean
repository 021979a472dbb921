import Xv6.Library.Links
import Xv6.Log.Log

/-!
# `bio.c`

The buffer cache and the processes that use it. A process that has several
buffers in use at a time is several users here, one for each of them: from
`bget` to `brelse`. The steps are the sections under `bcache.lock`, taking and
giving back the lock of a buffer, disk transfers, and changes of the data under
that lock.

`write_log`, `write_head` and `install_trans` are users as well: they read, they
change, they call `bwrite`. A change is followed by `log_write` or `bwrite`
before the buffer is released; a user that waits for a lock takes no step, and
neither does one that panics.
-/

namespace Xv6

open Transition Links Function

/-- `dev` and `blockno`. -/
abbrev BlockId := Nat × Nat

/-- `struct buf`. There are never as many references as `refcnt` can count. -/
structure Buffer where
  id : BlockId
  valid : Bool
  dirty : Bool
  refcnt : Nat
  locked : Bool
  data : Block

/-- Where a user is with the block `k` it asked for. -/
inductive BioLoc where
  | idle
  | got (k : BlockId) (b : Fin nbuf)       -- out of `bget`'s loops, calls `acquiresleep`
  | locked (k : BlockId) (b : Fin nbuf)    -- back from `bget`
  | holding (k : BlockId) (b : Fin nbuf)   -- back from `bread`
  | changed (k : BlockId) (b : Fin nbuf)
  | released (k : BlockId) (b : Fin nbuf)  -- in `brelse`, behind `releasesleep`
deriving DecidableEq

/-- `links` are the `next` and `prev` of the buffers and of `bcache.head`. -/
structure BioState (ι : Type*) where
  bufs : Fin nbuf → Buffer
  links : Pointers (Fin nbuf)
  disk : BlockId → Block
  loc : ι → BioLoc

inductive BioEvent (ι : Type*) where
  | bget (p : ι) (k : BlockId)
  | acquiresleep (p : ι)
  | bread (p : ι)
  | modify (p : ι) (k : BlockId) (v : Block)
  | logWrite (p : ι)
  | bwrite (p : ι)
  | releasesleep (p : ι)
  | brelse (p : ι)

/-- `binit`, before a disk. -/
def binit {ι : Type*} (disk : BlockId → Block) : BioState ι where
  bufs := fun _ =>
    { id := (0, 0), valid := false, dirty := false, refcnt := 0, locked := false,
      data := fun _ => 0 }
  links := (List.finRange nbuf).foldl linkFront empty
  disk := disk
  loc := fun _ => .idle

variable {ι : Type*} [DecidableEq ι]

namespace BioState

/-- User `p` moves on, and buffer `b` becomes `B`. -/
def put (s : BioState ι) (p : ι) (l : BioLoc) (b : Fin nbuf) (B : Buffer) : BioState ι :=
  { s with bufs := update s.bufs b B, loc := update s.loc p l }

omit [DecidableEq ι] in
/-- The first loop of `bget`: is the block cached? -/
def cached (s : BioState ι) (k : BlockId) : Option (Fin nbuf) :=
  scan s.links.next (fun b => (s.bufs b).id = k) nbuf (s.links.next none)

omit [DecidableEq ι] in
/-- The second loop of `bget`: a buffer to recycle. -/
def unused (s : BioState ι) : Option (Fin nbuf) :=
  scan s.links.prev (fun b => (s.bufs b).refcnt = 0 && (s.bufs b).dirty = false) nbuf
    (s.links.prev none)

end BioState

/-- `iderw`: what becomes of the buffer and the disk. -/
def iderw (disk : BlockId → Block) (B : Buffer) : Option (Buffer × (BlockId → Block)) :=
  if B.locked = false then none                          -- "iderw: buf not locked"
  else if B.valid = true ∧ B.dirty = false then none     -- "iderw: nothing to do"
  else if B.dirty then
    some ({ B with dirty := false, valid := true }, update disk B.id B.data)
  else some ({ B with data := disk B.id, valid := true }, disk)

theorem iderw_read {disk : BlockId → Block} {B : Buffer} (hlock : B.locked = true)
    (hvalid : B.valid = false) (hdirty : B.dirty = false) :
    iderw disk B = some ({ B with data := disk B.id, valid := true }, disk) := by
  simp [iderw, hlock, hvalid, hdirty]

theorem iderw_write {disk : BlockId → Block} {B : Buffer} (hlock : B.locked = true)
    (hdirty : B.dirty = true) :
    iderw disk B =
      some ({ B with dirty := false, valid := true }, update disk B.id B.data) := by
  simp [iderw, hlock, hdirty]

def bioNext (s : BioState ι) : BioEvent ι → Option (BioState ι)
  | .bget p k =>
    match s.loc p with
    | .idle =>
      match s.cached k with
      | some b => some (s.put p (.got k b) b { s.bufs b with refcnt := (s.bufs b).refcnt + 1 })
      | none =>
        match s.unused with
        | some b => some (s.put p (.got k b) b
            { s.bufs b with id := k, valid := false, dirty := false, refcnt := 1 })
        | none => none  -- "bget: no buffers"
    | _ => none
  | .acquiresleep p =>
    match s.loc p with
    | .got k b =>
      if (s.bufs b).locked then none
      else some (s.put p (.locked k b) b { s.bufs b with locked := true })
    | _ => none
  | .bread p =>
    match s.loc p with
    | .locked k b =>
      if (s.bufs b).valid then some (s.put p (.holding k b) b (s.bufs b))
      else
        match iderw s.disk (s.bufs b) with
        | some (B, disk) => some { s.put p (.holding k b) b B with disk := disk }
        | none => none
    | _ => none
  | .modify p k v =>
    match s.loc p with
    | .holding k' b | .changed k' b =>
      if k' = k then some (s.put p (.changed k b) b { s.bufs b with data := v }) else none
    | _ => none
  | .logWrite p =>
    match s.loc p with
    | .holding k b | .changed k b =>
      some (s.put p (.holding k b) b { s.bufs b with dirty := true })
    | _ => none
  | .bwrite p =>
    match s.loc p with
    | .holding k b | .changed k b =>
      match iderw s.disk { s.bufs b with dirty := true } with
      | some (B, disk) => some { s.put p (.holding k b) b B with disk := disk }
      | none => none
    | _ => none
  | .releasesleep p =>
    match s.loc p with
    | .holding k b =>
      -- "brelse"
      if (s.bufs b).locked then
        some (s.put p (.released k b) b { s.bufs b with locked := false })
      else none
    | _ => none
  | .brelse p =>
    match s.loc p with
    | .released _ b =>
      let s' := s.put p .idle b { s.bufs b with refcnt := (s.bufs b).refcnt - 1 }
      -- no one is waiting for it
      if (s'.bufs b).refcnt = 0 then some { s' with links := linkFront (unlink s'.links b) b }
      else some s'
    | _ => none

def bioSystem : System (BioState ι) (BioEvent ι) := .ofNext bioNext

/-- Blocks are asked for with a device number other than 0. -/
def RealDev (_ : BioState ι) : BioEvent ι → Prop
  | .bget _ k => k.1 ≠ 0
  | _ => True

instance (s : BioState ι) : (e : BioEvent ι) → Decidable (RealDev s e)
  | .bget _ k => inferInstanceAs (Decidable (k.1 ≠ 0))
  | .acquiresleep _ | .bread _ | .modify .. | .logWrite _ | .bwrite _ | .releasesleep _
  | .brelse _ => isTrue trivial

end Xv6
