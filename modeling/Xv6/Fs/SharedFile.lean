import Xv6.Fs.FileRuns

/-!
# One `struct file` shared by several processes

`fork` and `dup` give several processes one `struct file`, and with it one offset.
`filewrite` cuts a write into chunks, each under its own hold of the inode lock;
under the lock it calls `writei` at `f->off` and then advances the offset, and
`fileread` does the same with `readi`. A step here is a single one of these
statements, so what holds under the lock has to be kept by the lock.

The machine runs over any layer of inodes: over the byte sequences of
`Fs/InodeTable.lean`, where the results are proved, and over the disk, which
refines them (`shared_refines`). Beside the sharing processes others use the file
system, this inode included, in whole critical sections.
-/

namespace Xv6.Fs.Shared

open Transition Function

/-! ## §1  The machine -/

/-- `struct file` of type FD_INODE. -/
structure File where
  readable : Bool
  writable : Bool
  off : UInt32
deriving DecidableEq

/-- `max` in `filewrite`. -/
def maxChunk : Nat := (logSize - 1 - 1 - 2) / 2 * 512

/-- The `n1` bytes at `addr + i`. -/
def chunk (src : List UInt8) (i : Nat) : List UInt8 := (src.drop i).take maxChunk

/-- Between `ilock` and `iunlock`. -/
inductive Stage where
  | ilock             -- the lock is not taken yet
  | locked
  | moved (r : Int)   -- `readi` or `writei` has returned
  | added (r : Int)   -- `f->off` is advanced
deriving DecidableEq

/-- Where a process is, with the arguments of its call. -/
inductive Pc where
  | idle
  | read (n : Nat) (g : Stage)
  | write (src : List UInt8) (i : Nat) (g : Stage)
  | returns (r : Int)
  | short             -- `panic("short filewrite")`
deriving DecidableEq

namespace Pc

def stage : Pc → Option Stage
  | read _ g => some g
  | write _ _ g => some g
  | _ => none

/-- The same call at another stage. -/
def move (g : Stage) : Pc → Pc
  | read n _ => read n g
  | write src i _ => write src i g
  | pc => pc

/-- The head of the loop of `filewrite`. -/
def loop (src : List UInt8) (i : Nat) : Pc :=
  if i < src.length then write src i .ilock else returns src.length

/-- Behind `iunlock`. -/
def unlocked (r : Int) : Pc → Pc
  | read _ _ => returns r
  | write src i _ =>
    if r < 0 then returns (if i = src.length then src.length else -1)
    else if r ≠ (chunk src i).length then short
    else loop src (i + r.toNat)
  | pc => pc

end Pc

/-- `φ` is the state of the inodes and their blocks, `ι` the processes. -/
structure State (φ ι : Type) where
  fs : φ
  file : File
  lock : Option ι
  pc : ι → Pc

inductive Event (ι : Type) where
  | read (p : ι) (n : Nat)
  | write (p : ι) (src : List UInt8)
  | ilock (p : ι)
  | readi (p : ι) (off n : UInt32) (r : Option (List UInt8))
  | writei (p : ι) (off : UInt32) (bytes : List UInt8) (r : Option UInt32)
  | add (p : ι)
  | iunlock (p : ι)
  | ret (p : ι) (r : Int)
  | other (e : InodeEvent)    -- not through this `struct file`

/-- The inode an event is about. -/
def target : InodeEvent → Nat
  | .ialloc _ i | .ilock i | .evict i | .readi i _ _ _ | .writei i _ _ _ _ | .iupdate i _ _ _
  | .iput i => i

/-- Freed, and not only put. -/
def frees : InodeEvent → Bool
  | .iput _ => true
  | _ => false

section Machine

variable {φ ι : Type} [DecidableEq ι]

def State.goto (s : State φ ι) (p : ι) (pc : Pc) : State φ ι :=
  { s with pc := update s.pc p pc }

/-- `if(r > 0) f->off += r;` -/
def File.add (f : File) (r : Int) : File :=
  if 0 < r then { f with off := f.off + UInt32.ofNat r.toNat } else f

/-- What `readi` and `writei` return to their callers. -/
def readResult (r : Option (List UInt8)) : Int := r.elim (-1) fun l => l.length

def writeResult (r : Option UInt32) : Int := r.elim (-1) fun n => n.toNat

/-- `inum` is the inode of the file. `sys_read` and `sys_write` pass no negative
length. -/
def next (fsNext : φ → InodeEvent → Option φ) (inum : Nat) (s : State φ ι) :
    Event ι → Option (State φ ι)
  | .read p n =>
    if s.pc p = .idle ∧ n < 2 ^ 31 then
      some (s.goto p (if s.file.readable then .read n .ilock else .returns (-1)))
    else none
  | .write p src =>
    if s.pc p = .idle ∧ src.length < 2 ^ 31 then
      some (s.goto p (if s.file.writable then .loop src 0 else .returns (-1)))
    else none
  | .ilock p =>
    if s.lock = none ∧ (s.pc p).stage = some .ilock then
      some { s with lock := some p, pc := update s.pc p ((s.pc p).move .locked) }
    else none
  | .readi p off n r =>
    if s.pc p = .read n.toNat .locked ∧ off = s.file.off then do
      let fs ← fsNext s.fs (.readi inum off n r)
      some { s with
        fs := fs
        pc := update s.pc p (.read n.toNat (.moved (readResult r))) }
    else none
  | .writei p off bytes r =>
    match s.pc p with
    | .write src i .locked =>
      if bytes = chunk src i ∧ off = s.file.off then do
        let fs ← fsNext s.fs
          (.writei inum (bytesAt bytes) off (UInt32.ofNat bytes.length) r)
        some { s with
          fs := fs
          pc := update s.pc p (.write src i (.moved (writeResult r))) }
      else none
    | _ => none
  | .add p =>
    match (s.pc p).stage with
    | some (.moved r) =>
      some { s with
        file := s.file.add r
        pc := update s.pc p ((s.pc p).move (.added r)) }
    | _ => none
  | .iunlock p =>
    match (s.pc p).stage with
    | some (.added r) =>
      some { s with lock := none, pc := update s.pc p ((s.pc p).unlocked r) }
    | _ => none
  | .ret p r => if s.pc p = .returns r then some (s.goto p .idle) else none
  | .other e =>
    -- the open file keeps its inode from being freed, and the lock keeps others out
    if target e = inum → s.lock = none ∧ frees e = false then do
      let fs ← fsNext s.fs e
      some { s with fs := fs }
    else none

def system (fsNext : φ → InodeEvent → Option φ) (inum : Nat) :
    System (State φ ι) (Event ι) := .ofNext (next fsNext inum)

/-- What a step can be. -/
inductive Step (fsNext : φ → InodeEvent → Option φ) (inum : Nat) (s : State φ ι) :
    Event ι → State φ ι → Prop where
  | call {p e pc} : (s.pc p).stage = none → pc.stage = none ∨ pc.stage = some .ilock →
      (∀ q off n r, e ≠ .readi q off n r) →
      (∀ q off b r, e ≠ .writei q off b r) → (∀ x, e ≠ .other x) →
      Step fsNext inum s e (s.goto p pc)
  | ilock {p} : s.lock = none → (s.pc p).stage = some .ilock →
      Step fsNext inum s (.ilock p)
        { s with lock := some p, pc := update s.pc p ((s.pc p).move .locked) }
  | readi {p n r fs} : s.pc p = .read n.toNat .locked →
      fsNext s.fs (.readi inum s.file.off n r) = some fs →
      Step fsNext inum s (.readi p s.file.off n r)
        { s with
          fs := fs
          pc := update s.pc p (.read n.toNat (.moved (readResult r))) }
  | writei {p src i r fs} : s.pc p = .write src i .locked →
      fsNext s.fs (.writei inum (bytesAt (chunk src i)) s.file.off
        (UInt32.ofNat (chunk src i).length) r) = some fs →
      Step fsNext inum s (.writei p s.file.off (chunk src i) r)
        { s with
          fs := fs
          pc := update s.pc p (.write src i (.moved (writeResult r))) }
  | add {p r} : (s.pc p).stage = some (.moved r) →
      Step fsNext inum s (.add p)
        { s with
          file := s.file.add r
          pc := update s.pc p ((s.pc p).move (.added r)) }
  | iunlock {p r} : (s.pc p).stage = some (.added r) →
      Step fsNext inum s (.iunlock p)
        { s with lock := none, pc := update s.pc p ((s.pc p).unlocked r) }
  | other {e fs} : (target e = inum → s.lock = none ∧ frees e = false) →
      fsNext s.fs e = some fs → Step fsNext inum s (.other e) { s with fs := fs }

theorem loop_stage (src : List UInt8) (i : Nat) :
    (Pc.loop src i).stage = none ∨ (Pc.loop src i).stage = some .ilock := by
  unfold Pc.loop
  split
  · exact .inr rfl
  · exact .inl rfl

theorem step_of_next {fsNext : φ → InodeEvent → Option φ} {inum : Nat} {s s' : State φ ι}
    {e : Event ι} (h : next fsNext inum s e = some s') : Step fsNext inum s e s' := by
  cases e with
  | read p n =>
    obtain ⟨hp, ⟨⟩⟩ := Option.ite_none_right_eq_some.mp h
    refine .call (by rw [hp.1]; rfl) ?_ nofun nofun nofun
    split
    · exact .inr rfl
    · exact .inl rfl
  | write p src =>
    obtain ⟨hp, ⟨⟩⟩ := Option.ite_none_right_eq_some.mp h
    refine .call (by rw [hp.1]; rfl) ?_ nofun nofun nofun
    split
    · exact loop_stage src 0
    · exact .inl rfl
  | ilock p =>
    obtain ⟨hp, ⟨⟩⟩ := Option.ite_none_right_eq_some.mp h
    exact .ilock hp.1 hp.2
  | readi p off n r =>
    obtain ⟨⟨hp, rfl⟩, h⟩ := Option.ite_none_right_eq_some.mp h
    obtain ⟨fs, hfs, ⟨⟩⟩ := Option.bind_eq_some_iff.mp h
    exact .readi hp hfs
  | writei p off bytes r =>
    simp only [next] at h
    split at h
    · rename_i src i hp
      obtain ⟨⟨rfl, rfl⟩, h⟩ := Option.ite_none_right_eq_some.mp h
      obtain ⟨fs, hfs, ⟨⟩⟩ := Option.bind_eq_some_iff.mp h
      exact .writei hp hfs
    · cases h
  | add p =>
    simp only [next] at h
    split at h
    · rename_i r hp
      cases h
      exact .add hp
    · cases h
  | iunlock p =>
    simp only [next] at h
    split at h
    · rename_i r hp
      cases h
      exact .iunlock hp
    · cases h
  | ret p r =>
    obtain ⟨hp, ⟨⟩⟩ := Option.ite_none_right_eq_some.mp h
    exact .call (by rw [hp]; rfl) (.inl rfl) nofun nofun nofun
  | other e =>
    obtain ⟨hother, h⟩ := Option.ite_none_right_eq_some.mp h
    obtain ⟨fs, hfs, ⟨⟩⟩ := Option.bind_eq_some_iff.mp h
    exact .other hother hfs

end Machine

/-! ## §2  The inode beside the file -/

section Table

variable {ninodes i : Nat} {t t' : InodeTable} {ip : Inode} {e : InodeEvent}

/-- An inode that is not freed keeps its type, and its bytes unless it is written. -/
theorem tableNext_keeps (h : tableNext ninodes t e = some t') (hip : t i = some ip)
    (hfree : target e = i → frees e = false) : ∃ ip', t' i = some ip' ∧ ip'.type = ip.type ∧
      (ip'.data = ip.data ∨
        ∃ src off n r, e = .writei i src off n r ∧ ip' = (ip.writei src off n).getD ip) := by
  have hset : ∀ {j : Nat} {x : Inode}, j ≠ i → update t j (some x) i = some ip := by
    intro j x hj
    rw [update_of_ne (Ne.symm hj), hip]
  cases e with
  | ialloc type j =>
    simp only [tableNext] at h
    split at h
    · rename_i halloc
      cases h
      have hji : j ≠ i := by
        rintro rfl
        have hnone := List.find?_some halloc.2
        simp only [hip] at hnone
        cases hnone
      exact ⟨ip, hset hji, rfl, .inl rfl⟩
    · cases h
  | ilock j =>
    simp only [tableNext] at h
    split at h
    · cases h
      exact ⟨ip, hip, rfl, .inl rfl⟩
    · cases h
  | evict j =>
    cases h
    exact ⟨ip, hip, rfl, .inl rfl⟩
  | readi j off n r =>
    obtain ⟨ip', hip', h⟩ := Option.bind_eq_some_iff.mp h
    split at h
    · cases h
      exact ⟨ip, hip, rfl, .inl rfl⟩
    · cases h
  | writei j src off n r =>
    obtain ⟨ip', hip', h⟩ := Option.bind_eq_some_iff.mp h
    split at h
    · cases h
      by_cases hji : j = i
      · subst hji
        obtain rfl := Option.some.inj (hip.symm.trans hip')
        refine ⟨_, update_self .., ?_, .inr ⟨src, off, n, r, rfl, rfl⟩⟩
        unfold Inode.writei
        split <;> rfl
      · exact ⟨ip, hset hji, rfl, .inl rfl⟩
    · cases h
  | iupdate j major minor nlink =>
    obtain ⟨ip', hip', h⟩ := Option.bind_eq_some_iff.mp h
    cases h
    by_cases hji : j = i
    · subst hji
      obtain rfl := Option.some.inj (hip.symm.trans hip')
      exact ⟨_, update_self .., rfl, .inl rfl⟩
    · exact ⟨ip, hset hji, rfl, .inl rfl⟩
  | iput j =>
    obtain ⟨ip', hip', h⟩ := Option.bind_eq_some_iff.mp h
    split at h
    · cases h
      have hji : j ≠ i := by
        intro heq
        cases hfree heq
      exact ⟨ip, by rw [update_of_ne (Ne.symm hji), hip], rfl, .inl rfl⟩
    · cases h

/-- A file grows up to the largest size. -/
theorem writei_grows {src : Nat → UInt8} {off n : UInt32} (hmax : ip.data.length ≤ maxfile * bsize) :
    ip.data.length ≤ ((ip.writei src off n).getD ip).data.length ∧
      ((ip.writei src off n).getD ip).data.length ≤ maxfile * bsize := by
  unfold Inode.writei
  split
  · exact ⟨le_rfl, hmax⟩
  · rename_i hok
    push Not at hok
    rw [Option.getD_some, overwrite_length hok.1]
    exact ⟨le_max_left .., max_le hmax hok.2.2⟩

theorem tableNext_writei {src : Nat → UInt8} {off n : UInt32} {r : Option UInt32}
    (hip : t i = some ip) (h : tableNext ninodes t (.writei i src off n r) = some t') :
    t' i = some ((ip.writei src off n).getD ip) ∧ (ip.writei src off n).map (fun _ => n) = r := by
  simp only [tableNext, hip, Option.bind_eq_bind, Option.bind_some] at h
  split at h
  · rename_i hwrite
    cases h
    exact ⟨update_self .., hwrite.2⟩
  · cases h

/-- A write that returns overwrites the bytes at the offset. -/
theorem writei_some {src : Nat → UInt8} {off n n' : UInt32}
    (h : (ip.writei src off n).map (fun _ => n) = some n') :
    n' = n ∧ off.toNat ≤ ip.data.length ∧
      ((ip.writei src off n).getD ip).data = overwrite ip.data off.toNat n.toNat src := by
  obtain ⟨ip', hip', rfl⟩ := Option.map_eq_some_iff.mp h
  rw [hip', Option.getD_some]
  unfold Inode.writei at hip'
  split at hip'
  · cases hip'
  · rename_i hok
    push Not at hok
    obtain rfl := Option.some.inj hip'
    exact ⟨rfl, hok.1, rfl⟩

end Table

/-! ## §3  The ledger -/

/-- The bytes an event moves through the file. -/
def Event.count {ι : Type} : Event ι → Nat
  | .readi _ _ _ (some l) => l.length
  | .writei _ _ bytes (some _) => bytes.length
  | _ => 0

/-- All bytes written and read through the file. -/
def total {ι : Type} (es : List (Event ι)) : Nat := (es.map Event.count).sum

theorem total_append {ι : Type} (es fs : List (Event ι)) : total (es ++ fs) = total es + total fs := by
  rw [total, List.map_append, List.sum_append]
  rfl

theorem total_snoc {ι : Type} (es : List (Event ι)) (e : Event ι) :
    total (es ++ [e]) = total es + e.count := by
  rw [total_append]
  rfl

/-- Moved, and not yet added to `f->off`. -/
def Pc.pending (pc : Pc) : Nat :=
  match pc.stage with
  | some (.moved r) => r.toNat
  | _ => 0

def State.pending {φ ι : Type} (s : State φ ι) : Nat := s.lock.elim 0 fun p => (s.pc p).pending

section Runs

variable {ι : Type} {ninodes inum : Nat} {s s' : State InodeTable ι} {hist : List (Event ι)}
  {e : Event ι}

/-- The file is open at offset 0, its inode is no device, and nobody is at work
on it. -/
structure Opened (inum : Nat) (s : State InodeTable ι) : Prop where
  off : s.file.off = 0
  lock : s.lock = none
  idle : ∀ p, s.pc p = .idle
  inode : ∃ ip, s.fs inum = some ip ∧ ip.type ≠ tDev ∧ ip.data.length ≤ maxfile * bsize

structure Ledger (inum : Nat) (hist : List (Event ι)) (s : State InodeTable ι) : Prop where
  held : ∀ p g, (s.pc p).stage = some g → g ≠ .ilock → s.lock = some p
  sum : s.file.off.toNat + s.pending = total hist
  inode : ∃ ip, s.fs inum = some ip ∧ s.file.off.toNat + s.pending ≤ ip.data.length ∧
    ip.data.length ≤ maxfile * bsize

theorem Opened.ledger (h : Opened inum s) : Ledger inum [] s := by
  have hoff : s.file.off.toNat = 0 := by
    rw [h.off]
    rfl
  have hpending : s.pending = 0 := by
    rw [State.pending, h.lock]
    rfl
  obtain ⟨ip, hip, -, hmax⟩ := h.inode
  refine ⟨fun p g hp => ?_, ?_, ⟨ip, hip, ?_, hmax⟩⟩
  · rw [h.idle p] at hp
    cases hp
  · rw [hoff, hpending]
    rfl
  · rw [hoff, hpending]
    exact Nat.zero_le _

/-- Under the lock nothing but the holder's own bytes is pending. -/
theorem pending_of_lock {φ : Type} {s : State φ ι} {p : ι} (h : s.lock = some p) :
    s.pending = (s.pc p).pending := by
  rw [State.pending, h]
  rfl

theorem pending_of_free {φ : Type} {s : State φ ι} (h : s.lock = none) : s.pending = 0 := by
  rw [State.pending, h]
  rfl

variable [DecidableEq ι]

/-- A process that has neither lock nor bytes changes nothing. -/
theorem pending_goto {φ : Type} {s : State φ ι} {p : ι} {pc : Pc}
    (h : pc.pending = (s.pc p).pending) : (s.goto p pc).pending = s.pending := by
  unfold State.pending
  cases hl : s.lock with
  | none =>
    rw [State.goto, hl]
    rfl
  | some q =>
    rw [State.goto, hl]
    by_cases hqp : q = p
    · subst hqp
      simp only [Option.elim, update_self, h]
    · simp only [Option.elim, update_of_ne hqp]

theorem move_stage {pc : Pc} {g : Stage} (h : pc.stage = some g) (g' : Stage) :
    (pc.move g').stage = some g' := by
  cases pc <;> first | rfl | cases h

theorem unlocked_stage {pc : Pc} {g : Stage} (h : pc.stage = some g) (r : Int) :
    (pc.unlocked r).stage = none ∨ (pc.unlocked r).stage = some .ilock := by
  cases pc with
  | read n g' => exact .inl rfl
  | write src i g' =>
    simp only [Pc.unlocked]
    split
    · exact .inl rfl
    · split
      · exact .inl rfl
      · exact loop_stage _ _
  | _ => cases h

/-- One process moves on. -/
theorem Ledger.move (h : Ledger inum hist s) {p : ι} {pc : Pc} {hist' : List (Event ι)}
    (hpc : s'.pc = update s.pc p pc)
    (hself : ∀ g, pc.stage = some g → g ≠ .ilock → s'.lock = some p)
    (hothers : ∀ q, q ≠ p → s.lock = some q → s'.lock = some q)
    (hsum : s'.file.off.toNat + s'.pending = total hist')
    (hinode : ∃ ip, s'.fs inum = some ip ∧ total hist' ≤ ip.data.length ∧
      ip.data.length ≤ maxfile * bsize) : Ledger inum hist' s' := by
  refine ⟨fun q g hq hg => ?_, hsum, hsum ▸ hinode⟩
  by_cases hqp : q = p
  · subst hqp
    rw [hpc, update_self] at hq
    exact hself g hq hg
  · rw [hpc, update_of_ne hqp] at hq
    exact hothers q hqp (h.held q g hq hg)

omit [DecidableEq ι] in
/-- The inode, by the ledger. -/
theorem Ledger.total_le (h : Ledger inum hist s) : ∃ ip, s.fs inum = some ip ∧
    total hist ≤ ip.data.length ∧ ip.data.length ≤ maxfile * bsize := by
  rw [← h.sum]
  exact h.inode

omit [DecidableEq ι] in
theorem Ledger.holder (h : Ledger inum hist s) {p : ι} {g : Stage} (hp : (s.pc p).stage = some g)
    (hg : g ≠ .ilock) : s.lock = some p ∧ s.pending = (s.pc p).pending :=
  ⟨h.held p g hp hg, pending_of_lock (h.held p g hp hg)⟩

omit [DecidableEq ι] in
/-- Before `readi` or `writei` the offset is where the ledger is. -/
theorem Ledger.locked (h : Ledger inum hist s) {p : ι} (hp : (s.pc p).stage = some .locked) :
    s.lock = some p ∧ s.file.off.toNat = total hist := by
  obtain ⟨hlock, hpending⟩ := h.holder hp nofun
  rw [Pc.pending, hp] at hpending
  simp only at hpending
  have hsum := h.sum
  rw [hpending, Nat.add_zero] at hsum
  exact ⟨hlock, hsum⟩

theorem chunk_word (src : List UInt8) (i : Nat) :
    (UInt32.ofNat (chunk src i).length).toNat = (chunk src i).length := by
  have hle : (chunk src i).length ≤ maxChunk := List.length_take_le ..
  have hmax : maxChunk = 6656 := rfl
  exact UInt32.toNat_ofNat_of_lt' (by rw [UInt32.size]; omega)

/-- `readi` through the file. -/
theorem Ledger.readi (h : Ledger inum hist s) {p : ι} {n : UInt32} {r : Option (List UInt8)}
    {fs : InodeTable} (hp : s.pc p = .read n.toNat .locked)
    (hfs : tableNext ninodes s.fs (.readi inum s.file.off n r) = some fs) :
    Ledger inum (hist ++ [.readi p s.file.off n r])
      { s with
        fs := fs
        pc := update s.pc p (.read n.toNat (.moved (readResult r))) } := by
  obtain ⟨hlock, hsum⟩ := h.locked (p := p) (by rw [hp]; rfl)
  obtain ⟨ip, hip, hle, hmax⟩ := h.total_le
  -- `readi` returns what is left, and changes nothing
  simp only [tableNext, hip, Option.bind_eq_bind, Option.bind_some] at hfs
  split at hfs
  · rename_i hread
    cases hfs
    refine h.move rfl (fun _ _ _ => hlock) (fun _ _ hq => hq) ?_ ⟨ip, hip, ?_, hmax⟩
    · simp only [State.pending, hlock, Option.elim, update_self, total_snoc, ← hsum]
      cases r <;> rfl
    · rw [total_snoc]
      rcases r with - | l
      · exact hle
      · have hlen : l.length ≤ ip.data.length - s.file.off.toNat := by
          have hl := hread.2
          unfold Inode.readi at hl
          split at hl
          · cases hl
          · obtain rfl := Option.some.inj hl
            rw [List.length_take, List.length_drop]
            exact Nat.min_le_right ..
        simp only [Event.count]
        omega
  · cases hfs

/-- `writei` through the file. -/
theorem Ledger.writei (h : Ledger inum hist s) {p : ι} {src : List UInt8} {i : Nat}
    {r : Option UInt32} {fs : InodeTable} (hp : s.pc p = .write src i .locked)
    (hfs : tableNext ninodes s.fs (.writei inum (bytesAt (chunk src i)) s.file.off
      (UInt32.ofNat (chunk src i).length) r) = some fs) :
    Ledger inum (hist ++ [.writei p s.file.off (chunk src i) r])
      { s with
        fs := fs
        pc := update s.pc p (.write src i (.moved (writeResult r))) } := by
  obtain ⟨hlock, hsum⟩ := h.locked (p := p) (by rw [hp]; rfl)
  obtain ⟨ip, hip, hle, hmax⟩ := h.total_le
  obtain ⟨hip', hr⟩ := tableNext_writei hip hfs
  have hcount : (writeResult r).toNat = (Event.writei p s.file.off (chunk src i) r).count := by
    rcases r with - | n
    · rfl
    · obtain ⟨rfl, -, -⟩ := writei_some hr
      exact chunk_word src i
  refine h.move rfl (fun _ _ _ => hlock) (fun _ _ hq => hq) ?_ ⟨_, hip', ?_, (writei_grows hmax).2⟩
  · simp only [State.pending, hlock, Option.elim, update_self, total_snoc, ← hsum,
      ← hcount]
    rfl
  · rw [total_snoc, ← hcount]
    rcases r with - | n
    · exact le_trans hle (writei_grows hmax).1
    · obtain ⟨-, hoff, hdata⟩ := writei_some hr
      rw [hcount, hdata, overwrite_length hoff, chunk_word, ← hsum]
      exact le_max_right ..

/-- `if(r > 0) f->off += r;` below the wrap. -/
theorem add_toNat (f : File) {r : Int} (h : f.off.toNat + r.toNat < 2 ^ 32) :
    (f.add r).off.toNat = f.off.toNat + r.toNat := by
  unfold File.add
  split
  · rw [UInt32.toNat_add, UInt32.toNat_ofNat_of_lt' (by rw [UInt32.size]; omega)]
    exact Nat.mod_eq_of_lt h
  · omega

omit [DecidableEq ι] in
theorem count_eq_zero (hread : ∀ p off n r, e ≠ .readi p off n r)
    (hwrite : ∀ p off b r, e ≠ .writei p off b r) : e.count = 0 := by
  cases e with
  | readi p off n r => exact absurd rfl (hread p off n r)
  | writei p off b r => exact absurd rfl (hwrite p off b r)
  | _ => rfl

/-- **What one step keeps.** -/
theorem Ledger.step (h : Ledger inum hist s) (hs : Step (tableNext ninodes) inum s e s') :
    Ledger inum (hist ++ [e]) s' := by
  cases hs with
  | @call p _ pc hp hpc hread hwrite _ =>
    have hcount := count_eq_zero hread hwrite
    have hpending : (s.goto p pc).pending = s.pending := by
      refine pending_goto ?_
      rw [Pc.pending, Pc.pending, hp]
      rcases hpc with hpc | hpc <;> rw [hpc]
    have hnot : ∀ g, pc.stage = some g → g ≠ .ilock → False := by
      intro g hg hne
      rcases hpc with hpc | hpc <;> rw [hpc] at hg <;> cases hg
      exact hne rfl
    refine h.move rfl (fun g hg hne => (hnot g hg hne).elim) (fun _ _ hq => hq) ?_ ?_
    · rw [hpending, total_snoc, hcount]
      exact h.sum
    · rw [total_snoc, hcount]
      exact h.total_le
  | @ilock p hlock hp =>
    have hstage := move_stage hp .locked
    have hpending : s.pending = 0 := pending_of_free hlock
    refine h.move rfl (fun _ _ _ => rfl) (fun q _ hq => ?_) ?_ ?_
    · rw [hlock] at hq
      cases hq
    · have hsum := h.sum
      simp only [State.pending, Option.elim, update_self, Pc.pending, hstage,
        total_snoc, Event.count]
      omega
    · rw [total_snoc]
      exact h.total_le
  | readi hp hfs => exact h.readi hp hfs
  | writei hp hfs => exact h.writei hp hfs
  | @add p r hp =>
    obtain ⟨hlock, hpending⟩ := h.holder hp nofun
    rw [Pc.pending, hp] at hpending
    simp only at hpending
    have hstage := move_stage hp (.added r)
    obtain ⟨ip, hip, hle, hmax⟩ := h.total_le
    have hsum := h.sum
    rw [hpending] at hsum
    have hword : s.file.off.toNat + r.toNat < 2 ^ 32 := by
      have hbound : maxfile * bsize = 71680 := rfl
      omega
    refine h.move rfl (fun _ _ _ => hlock) (fun _ _ hq => hq) ?_ ?_
    · simp only [State.pending, hlock, Option.elim, update_self, Pc.pending, hstage,
        total_snoc, Event.count, add_toNat s.file hword]
      omega
    · rw [total_snoc]
      exact h.total_le
  | @iunlock p r hp =>
    obtain ⟨hlock, hpending⟩ := h.holder hp nofun
    rw [Pc.pending, hp] at hpending
    simp only at hpending
    have hnot : ∀ g, ((s.pc p).unlocked r).stage = some g → g ≠ .ilock → False := by
      intro g hg hne
      rcases unlocked_stage hp r with hst | hst <;> rw [hst] at hg <;> cases hg
      exact hne rfl
    refine h.move rfl (fun g hg hne => (hnot g hg hne).elim) (fun q hq hlq => ?_) ?_ ?_
    · rw [hlock] at hlq
      exact absurd (Option.some.inj hlq).symm hq
    · have hsum := h.sum
      simp only [State.pending, Option.elim, total_snoc, Event.count]
      omega
    · rw [total_snoc]
      exact h.total_le
  | @other x fs hother hfs =>
    obtain ⟨ip, hip, hle, hmax⟩ := h.inode
    obtain ⟨ip', hip', -, hdata⟩ := tableNext_keeps hfs hip fun ht => (hother ht).2
    refine ⟨h.held, ?_, ⟨ip', hip', ?_⟩⟩
    · rw [total_snoc]
      exact h.sum
    · rcases hdata with heq | ⟨src, off, n, r, -, rfl⟩
      · rw [heq]
        exact ⟨hle, hmax⟩
      · exact ⟨le_trans hle (writei_grows hmax).1, (writei_grows hmax).2⟩

theorem Ledger.run {s₀ : State InodeTable ι} {es : List (Event ι)} (h₀ : Opened inum s₀)
    (hr : (system (tableNext ninodes) inum).Run s₀ es s) : Ledger inum es s :=
  hr.history (fun _ _ _ _ h hs => h.step (step_of_next hs)) h₀.ledger

/-! ## §4  Where the chunks are -/

/-- Somebody writes the inode, but not through this `struct file`. -/
def Event.foreign (inum : Nat) (e : Event ι) : Prop :=
  ∃ src off n r, e = .other (.writei inum src off n r)

/-- The file holds these bytes at this offset. -/
def Holds (inum off : Nat) (bytes : List UInt8) (s : State InodeTable ι) : Prop :=
  ∃ ip, s.fs inum = some ip ∧ (ip.data.drop off).take bytes.length = bytes

/-- A chunk that `writei` takes lands at `f->off`, which is where the ledger is. -/
theorem Ledger.lands (h : Ledger inum hist s) {p : ι} {off : UInt32} {bytes : List UInt8}
    {r : Option UInt32}
    (hs : Step (tableNext ninodes) inum s (.writei p off bytes r) s') :
    off.toNat = total hist ∧ (r ≠ none → Holds inum off.toNat bytes s') := by
  cases hs with
  | call _ _ _ hwrite _ => exact absurd rfl (hwrite _ _ _ _)
  | @writei p src i r fs hp hfs =>
    obtain ⟨ip, hip, -, -⟩ := h.total_le
    obtain ⟨hip', hr⟩ := tableNext_writei hip hfs
    refine ⟨(h.locked (p := p) (by rw [hp]; rfl)).2, fun hsome => ⟨_, hip', ?_⟩⟩
    obtain ⟨n, rfl⟩ := Option.ne_none_iff_exists'.mp hsome
    obtain ⟨-, hoff, hdata⟩ := writei_some hr
    rw [hdata, chunk_word, overwrite_range_eq hoff]
    exact map_bytesAt _

/-- Bytes before the offset stay. -/
theorem Ledger.keeps (h : Ledger inum hist s) (hs : Step (tableNext ninodes) inum s e s')
    {off : Nat} {bytes : List UInt8} (hle : off + bytes.length ≤ total hist)
    (hforeign : ¬ e.foreign inum) (hold : Holds inum off bytes s) : Holds inum off bytes s' := by
  obtain ⟨ip, hip, hbytes⟩ := hold
  cases hs with
  | call _ _ _ _ _ | ilock _ _ | add _ | iunlock _ => exact ⟨ip, hip, hbytes⟩
  | readi hp hfs =>
    obtain ⟨ip', hip', -, hdata⟩ := tableNext_keeps hfs hip fun _ => rfl
    rcases hdata with heq | ⟨_, _, _, _, he, -⟩
    · exact ⟨ip', hip', by rw [heq, hbytes]⟩
    · cases he
  | @writei p src i r fs hp hfs =>
    obtain ⟨hat, -⟩ := h.lands (.writei hp hfs)
    obtain ⟨hip', hr⟩ := tableNext_writei hip hfs
    refine ⟨_, hip', ?_⟩
    rcases r with - | n
    · rw [Option.map_eq_none_iff.mp hr, Option.getD_none, hbytes]
    · obtain ⟨-, hoff, hdata⟩ := writei_some hr
      rw [hdata, overwrite_before hoff (by omega), hbytes]
  | other hother hfs =>
    obtain ⟨ip', hip', -, hdata⟩ := tableNext_keeps hfs hip fun ht => (hother ht).2
    rcases hdata with heq | ⟨src, o, n, r, rfl, -⟩
    · exact ⟨ip', hip', by rw [heq, hbytes]⟩
    · exact absurd ⟨src, o, n, r, rfl⟩ hforeign

/-- **One offset for all.** Whatever the processes that share the file do, and in
whatever order: whenever the inode lock is free, `f->off` is the number of bytes
written and read through the file; each chunk is written at the number of bytes
before it; so a chunk ends before the next one begins, and what it wrote is in
the file as long as nobody writes the inode through another `struct file`. -/
theorem shared_offset {s₀ : State InodeTable ι} {es : List (Event ι)} (h₀ : Opened inum s₀)
    (hr : (system (tableNext ninodes) inum).Run s₀ es s) :
    (s.lock = none → s.file.off.toNat = total es) ∧
    (∀ l p off bytes r rest, es = l ++ .writei p off bytes r :: rest → off.toNat = total l) ∧
    (∀ l p off bytes n m p' off' bytes' r' rest,
      es = l ++ .writei p off bytes (some n) :: (m ++ .writei p' off' bytes' r' :: rest) →
      off.toNat + bytes.length ≤ off'.toNat) ∧
    ∀ l p off bytes n rest, es = l ++ .writei p off bytes (some n) :: rest →
      (∀ e ∈ rest, ¬ e.foreign inum) → Holds inum off.toNat bytes s := by
  have hlands : ∀ l p off bytes r rest, es = l ++ .writei p off bytes r :: rest →
      off.toNat = total l := by
    rintro l p off bytes r rest rfl
    obtain ⟨s₁, s₂, hl, hw, -⟩ := hr.split
    exact ((Ledger.run h₀ hl).lands (step_of_next hw)).1
  refine ⟨fun hlock => ?_, hlands, ?_, ?_⟩
  · have hsum := (Ledger.run h₀ hr).sum
    rwa [pending_of_free hlock, Nat.add_zero] at hsum
  · intro l p off bytes n m p' off' bytes' r' rest hes
    have hfirst := hlands _ _ _ _ _ _ hes
    have hsecond := hlands (l ++ .writei p off bytes (some n) :: m) p' off' bytes' r' rest
      (by rw [hes]; simp)
    rw [total_append, ← List.singleton_append, total_append] at hsecond
    have hcount : total [(.writei p off bytes (some n) : Event ι)] = bytes.length := rfl
    omega
  · rintro l p off bytes n rest rfl hforeign
    obtain ⟨s₁, s₂, hl, hw, hrest⟩ := hr.split
    have h₁ := Ledger.run h₀ hl
    have hw' := step_of_next hw
    obtain ⟨hoff, hholds⟩ := h₁.lands hw'
    have hle : off.toNat + bytes.length ≤ total (l ++ [.writei p off bytes (some n)]) := by
      rw [total_snoc, hoff]
      rfl
    -- from the chunk on, with the whole history
    refine (hrest.history (I := fun r t => Ledger inum (l ++ [.writei p off bytes (some n)] ++ r) t ∧
      ((∀ e ∈ r, ¬ e.foreign inum) → Holds inum off.toNat bytes t))
      (fun r t e t' ht hs => ?_) ⟨?_, fun _ => hholds nofun⟩).2 hforeign
    · have hs' := step_of_next hs
      rw [← List.append_assoc]
      refine ⟨ht.1.step hs', fun hall => ?_⟩
      refine ht.1.keeps hs' ?_ (hall e (by simp)) (ht.2 fun x hx => hall x (by simp [hx]))
      rw [total_append]
      omega
    · rw [List.append_nil]
      exact h₁.step hw'

end Runs

/-- Two processes write to an empty file. -/
theorem shared_offset_twoWriters : ∃ (s₀ : State InodeTable (Fin 2)) (es : List (Event (Fin 2)))
    (s : State InodeTable (Fin 2)), Opened 1 s₀ ∧ (system (tableNext 8) 1).Run s₀ es s ∧
      Holds 1 0 [1, 2] s ∧ s.file.off.toNat = 3 := by
  let s₀ : State InodeTable (Fin 2) :=
    ⟨fun i => if i = 1 then some ⟨tFile, 0, 0, 1, []⟩ else none, ⟨true, true, 0⟩, none,
      fun _ => .idle⟩
  have hopen : Opened 1 s₀ := ⟨rfl, rfl, fun _ => rfl, _, rfl, by decide, by decide⟩
  obtain ⟨s, hs, hlock⟩ : ∃ s, [Event.write 0 [1, 2], .write 1 [3], .ilock 0,
      .writei 0 0 [1, 2] (some 2), .add 0, .iunlock 0, .ilock 1, .writei 1 2 [3] (some 1), .add 1,
      .iunlock 1].foldlM (System.guardedNext (next (tableNext 8) 1) fun _ _ => True) s₀ = some s ∧
      s.lock = none := ⟨_, rfl, rfl⟩
  have hrun := (System.run_ofNext hs).of_guarded
  obtain ⟨hsum, -, -, hholds⟩ := shared_offset hopen hrun
  refine ⟨s₀, _, s, hopen, hrun, hholds [.write 0 [1, 2], .write 1 [3], .ilock 0] 0 0 [1, 2] 2 _ rfl
    ?_, hsum hlock⟩
  rintro e he ⟨src, off, n, r, rfl⟩
  simp at he

/-! ## §5  On the disk -/

section Disk

variable {φ φ' ι : Type} [DecidableEq ι] {inum : Nat}

/-- The same state over another layer of inodes. -/
def State.over (v : φ → φ') (s : State φ ι) : State φ' ι := ⟨v s.fs, s.file, s.lock, s.pc⟩

/-- What one layer does, a layer that it refines does as well. -/
theorem next_over {fsNext : φ → InodeEvent → Option φ} {fsNext' : φ' → InodeEvent → Option φ'}
    {v : φ → φ'} {s s' : State φ ι} {e : Event ι}
    (hv : ∀ x f, fsNext s.fs x = some f → fsNext' (v s.fs) x = some (v f))
    (h : next fsNext inum s e = some s') :
    next fsNext' inum (s.over v) e = some (s'.over v) := by
  cases e with
  | read p n | write p src | ilock p | ret p r =>
    simp only [next] at h
    split at h
    · rename_i hp
      cases h
      exact if_pos hp
    · cases h
  | readi p off n r =>
    simp only [next] at h
    split at h
    · rename_i hp
      obtain ⟨fs, hfs, h⟩ := Option.bind_eq_some_iff.mp h
      cases h
      exact (if_pos hp).trans (Option.bind_eq_some_iff.mpr ⟨v fs, hv _ _ hfs, rfl⟩)
    · cases h
  | writei p off bytes r =>
    simp only [next] at h
    split at h
    · rename_i src i hp
      split at h
      · rename_i hargs
        obtain ⟨fs, hfs, h⟩ := Option.bind_eq_some_iff.mp h
        cases h
        simp only [next, State.over, hp]
        exact (if_pos hargs).trans (Option.bind_eq_some_iff.mpr ⟨v fs, hv _ _ hfs, rfl⟩)
      · cases h
    · cases h
  | add p | iunlock p =>
    simp only [next] at h
    split at h
    · rename_i r hp
      cases h
      simp only [next, State.over, hp]
    · cases h
  | other x =>
    simp only [next] at h
    split at h
    · rename_i hother
      obtain ⟨fs, hfs, h⟩ := Option.bind_eq_some_iff.mp h
      cases h
      exact (if_pos hother).trans (Option.bind_eq_some_iff.mpr ⟨v fs, hv _ _ hfs, rfl⟩)
    · cases h

/-- The inodes change by their own events only. -/
theorem fs_step {fsNext : φ → InodeEvent → Option φ} {s s' : State φ ι} {e : Event ι}
    (h : Step fsNext inum s e s') : s'.fs = s.fs ∨ ∃ x, fsNext s.fs x = some s'.fs := by
  cases h with
  | call _ _ _ _ _ => exact .inl rfl
  | ilock _ _ => exact .inl rfl
  | readi _ hfs => exact .inr ⟨_, hfs⟩
  | writei _ hfs => exact .inr ⟨_, hfs⟩
  | add _ => exact .inl rfl
  | iunlock _ => exact .inl rfl
  | other _ hfs => exact .inr ⟨_, hfs⟩

/-- **The shared file on the disk** behaves like the one over byte sequences, from a
consistent image without holes. -/
theorem shared_refines {S : Superblock} {image : Disk} {s₀ s : State InodeState ι}
    {es : List (Event ι)} (himage : Consistent S image) (hholes : NoHoles S image)
    (h₀ : s₀.fs = .boot image) (hr : (system (inodeNext S) inum).Run s₀ es s) :
    (system (tableNext S.ninodes) inum).Run (s₀.over (·.files S)) es (s.over (·.files S)) := by
  refine (System.Run.refines (I := fun s : State InodeState ι => FileInv S s.fs ∧
    NoHoles S s.fs.disk) (fun s e s' h hs => ⟨?_, next_over (fun x f hx => ?_) hs⟩) hr ?_).2
  · rcases fs_step (step_of_next hs) with heq | ⟨x, hx⟩
    · rwa [heq]
    · exact ⟨(h.1.step (h.1.evictable h.2 x) hx).1, NoHoles.step h.1 h.2 hx⟩
  · exact (h.1.step (h.1.evictable h.2 x) hx).2
  · rw [h₀]
    exact ⟨himage.inv, hholes⟩

/-- A round of the loop of `filewrite` in which `writei` writes the chunk. -/
theorem chunk_run {fsNext : φ → InodeEvent → Option φ} {x y : φ} {f g : File} {pc : ι → Pc}
    {p : ι} {src : List UInt8} {i : Nat} {n : UInt32} {c : Pc} (hp : pc p = .write src i .ilock)
    (hn : (chunk src i).length = n.toNat) (hadd : f.add n.toNat = g)
    (hc : Pc.loop src (i + n.toNat) = c)
    (hfs : fsNext x (.writei inum (bytesAt (chunk src i)) f.off n (some n)) = some y) :
    (system fsNext inum).Run ⟨x, f, none, pc⟩
      [.ilock p, .writei p f.off (chunk src i) (some n), .add p, .iunlock p]
      ⟨y, g, none, update pc p c⟩ := by
  refine (System.run_ofNext (g := fun _ _ => True) ?_).of_guarded
  have hnot : ¬ (n.toNat : Int) < 0 := by omega
  simp [System.guardedNext, next, hp, Pc.stage, Pc.move, hn, hfs, writeResult, Pc.unlocked, hnot,
    hadd, hc]

end Disk

/-- More than one chunk. -/
def long : List UInt8 := List.replicate 7000 7

/-- Process 1 writes a byte between the two chunks of process 0. -/
def twoWriters : List (Event (Fin 2)) :=
  [.other (.ialloc tFile 1), .other (.ilock 1), .write 0 long, .write 1 [8],
    .ilock 0, .writei 0 0 (chunk long 0) (some 6656), .add 0, .iunlock 0,
    .ilock 1, .writei 1 6656 [8] (some 1), .add 1, .iunlock 1,
    .ilock 0, .writei 0 6657 (chunk long 6656) (some 344), .add 0, .iunlock 0]

theorem twoWriters_run : ∃ s,
    (system (inodeNext smallDisk) 1).Run ⟨.boot emptyImage, ⟨true, true, 0⟩, none, fun _ => .idle⟩
      twoWriters s := by
  have hlen : long.length = 7000 := List.length_replicate
  have hchunk (i : Nat) : (chunk long i).length = min maxChunk (7000 - i) := by
    rw [chunk, List.length_take, List.length_drop, hlen]
  obtain ⟨s, hs⟩ := Option.isSome_iff_exists.mp (by decide +kernel : ([.ialloc tFile 1, .ilock 1,
    .writei 1 (bytesAt (chunk long 0)) 0 6656 (some 6656), .writei 1 (bytesAt [8]) 6656 1 (some 1),
    .writei 1 (bytesAt (chunk long 6656)) 6657 344 (some 344)].foldlM (inodeNext smallDisk)
      (.boot emptyImage)).isSome)
  simp only [List.foldlM_cons, Option.bind_eq_bind, Option.bind_eq_some_iff] at hs
  obtain ⟨s₁, hs₁, s₂, hs₂, s₃, hs₃, s₄, hs₄, s₅, hs₅, -⟩ := hs
  have hstart : (system (inodeNext smallDisk) 1).Run
      ⟨.boot emptyImage, ⟨true, true, 0⟩, none, fun _ => .idle⟩
      [.other (.ialloc tFile 1), .other (.ilock 1), .write (0 : Fin 2) long, .write 1 [8]]
      ⟨s₂, ⟨true, true, 0⟩, none,
        update (update (fun _ => .idle) 0 (.write long 0 .ilock)) 1 (.write [8] 0 .ilock)⟩ := by
    refine (System.run_ofNext (g := fun _ _ => True) ?_).of_guarded
    simp [System.guardedNext, next, hs₁, hs₂, hlen, State.goto, frees, Pc.loop]
  have h₁ := hstart.append (chunk_run (p := 0) (n := 6656) (g := ⟨true, true, 6656⟩) rfl
    ((hchunk 0).trans (by decide)) (by decide) (if_pos (by rw [hlen]; decide)) hs₃)
  have h₂ := h₁.append (chunk_run (p := 1) (n := 1) (g := ⟨true, true, 6657⟩) rfl rfl
    (by decide) rfl hs₄)
  exact ⟨_, h₂.append (chunk_run (p := 0) (n := 344) rfl
    ((hchunk 6656).trans (by decide)) rfl rfl hs₅)⟩

theorem shared_refines_twoWriters : ∃ (s₀ s : State InodeState (Fin 2)),
    (system (inodeNext smallDisk) 1).Run s₀ twoWriters s ∧
    (system (tableNext smallDisk.ninodes) 1).Run (s₀.over (·.files smallDisk)) twoWriters
      (s.over (·.files smallDisk)) := by
  obtain ⟨s, hrun⟩ := twoWriters_run
  exact ⟨_, s, hrun, shared_refines emptyImage_consistent
    (fun i hi => absurd hi (emptyImage_free i)) rfl hrun⟩

end Xv6.Fs.Shared
