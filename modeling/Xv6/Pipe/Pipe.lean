import Xv6.Library.Monitor
import Xv6.Library.Ring

/-!
# `pipe.c`

`pipewrite`, `piperead` and `pipeclose` as the program of a monitor: the lock
is `p->lock`, the channels are the addresses of the two counters.

The data carry, beside the pipe, all bytes that were put into it and all that
were taken out, in order, each with the process that did it. That is no part of
the source; it is what the property of a pipe is about, and what it has to do
with the buffers and results of the calls is part of the property.
`myproc()->killed` is set by others at any time without the lock, so a call brings
along what its coming reads of it will give, and a run may bring along anything.
-/

namespace Xv6

open Monitor Transition Function

/-! ## §1  The functions -/

def pipeSize : Nat := 512

/-- `struct pipe` without the lock. -/
structure Pipe where
  data : Nat → UInt8
  nread : UInt32
  nwrite : UInt32
  readopen : Bool
  writeopen : Bool

/-- `p->nwrite == p->nread + PIPESIZE` -/
def Pipe.full (p : Pipe) : Bool := p.nwrite = p.nread + 512

/-- `p->nread == p->nwrite` -/
def Pipe.empty (p : Pipe) : Bool := p.nread = p.nwrite

/-- `p->data[p->nwrite++ % PIPESIZE] = a` -/
def Pipe.put (p : Pipe) (a : UInt8) : Pipe :=
  { p with
    data := Function.update p.data (p.nwrite.toNat % pipeSize) a
    nwrite := p.nwrite + 1 }

/-- `p->data[p->nread % PIPESIZE]` -/
def Pipe.front (p : Pipe) : UInt8 := p.data (p.nread.toNat % pipeSize)

/-- A pipe with all bytes ever put into it and taken out of it, and by whom. -/
structure PipeTrace (ι : Type*) where
  pipe : Pipe
  sent : List (ι × UInt8)
  got : List (ι × UInt8)

def PipeTrace.put {ι : Type*} (t : PipeTrace ι) (p : ι) (a : UInt8) : PipeTrace ι :=
  { t with pipe := t.pipe.put a, sent := t.sent ++ [(p, a)] }

def PipeTrace.take {ι : Type*} (t : PipeTrace ι) (p : ι) : PipeTrace ι :=
  { t with
    pipe := { t.pipe with nread := t.pipe.nread + 1 }
    got := t.got ++ [(p, t.pipe.front)] }

/-- The first lines of `pipeclose`. -/
def PipeTrace.shut {ι : Type*} (t : PipeTrace ι) : Bool → PipeTrace ι
  | true => { t with pipe := { t.pipe with writeopen := false } }
  | false => { t with pipe := { t.pipe with readopen := false } }

/-- What a process sleeps on: `&p->nread` or `&p->nwrite`. -/
inductive PipeChan where
  | nread
  | nwrite
deriving DecidableEq

/-- Where a call is while it has the lock. `killed` is what the coming reads
of `myproc()->killed` give. -/
inductive PipePc where
  | write (addr : Nat → UInt8) (n : Int) (i : Nat) (killed : Nat → Bool)   -- `for(i = 0; i < n; i++)`
  | full (addr : Nat → UInt8) (n : Int) (i : Nat) (killed : Nat → Bool)    -- `sleep(&p->nwrite, ..)`
  | wrote (n : Int)
  | read (n : Int) (killed : Nat → Bool)      -- `while(p->nread == p->nwrite && p->writeopen)`
  | copy (n : Int) (bytes : List UInt8)       -- `for(i = 0; i < n; i++)`
  | copied (bytes : List UInt8)
  | close (writable : Bool)
  | closing (writable : Bool)                 -- the `wakeup` of `pipeclose`
  | closed

/-- How the last call of a process ended. -/
inductive PipeResult where
  | none
  | wrote (r : Int)
  | read (r : Int) (bytes : List UInt8)
  | closed

/-- `pipewrite`, `piperead` and `pipeclose`. After the second `pipeclose` the
page of the pipe is freed; nobody has a descriptor of it then. -/
def pipeProgram (ι : Type*) : Program ι PipeChan PipePc PipeResult (PipeTrace ι) where
  enter _ _ pc :=
    match pc with
    | .write _ _ 0 _ | .read _ _ | .close _ => true
    | _ => false
  act p pc t :=
    match pc with
    | .write addr n i killed =>
      if i < n then
        if t.pipe.full then
          if !t.pipe.readopen || killed 0 then .leave (.wrote (-1))
          else .wakeup .nread (.full addr n i fun k => killed (k + 1))
        else .go (.write addr n (i + 1) killed) (t.put p (addr i))
      else .wakeup .nread (.wrote n)
    | .full addr n i killed => .sleep .nwrite (.write addr n i killed)
    | .wrote n => .leave (.wrote n)
    | .read n killed =>
      if t.pipe.empty && t.pipe.writeopen then
        if killed 0 then .leave (.read (-1) [])
        else .sleep .nread (.read n fun k => killed (k + 1))
      else .go (.copy n []) t
    | .copy n bytes =>
      if bytes.length < n && !t.pipe.empty then
        .go (.copy n (bytes ++ [t.pipe.front])) (t.take p)
      else .wakeup .nwrite (.copied bytes)
    | .copied bytes => .leave (.read bytes.length bytes)
    | .close writable => .go (.closing writable) (t.shut writable)
    | .closing writable => .wakeup (if writable then .nread else .nwrite) .closed
    | .closed => .leave .closed

abbrev PipeState (ι : Type*) := State ι PipeChan PipePc PipeResult (PipeTrace ι)

abbrev PipeMove (ι : Type*) := Act PipeChan PipePc PipeResult (PipeTrace ι)

/-- What `pipeProgram` does, with its guards. -/
inductive PipeAct {ι : Type*} (p : ι) (t : PipeTrace ι) : PipePc → PipeMove ι → Prop where
  | put {addr n killed} {i : Nat} (hi : (i : Int) < n) (hroom : t.pipe.full = false) :
      PipeAct p t (.write addr n i killed)
        (.go (.write addr n (i + 1) killed) (t.put p (addr i)))
  | giveUp {addr n killed} {i : Nat} (hi : (i : Int) < n) (hfull : t.pipe.full = true)
      (hquit : t.pipe.readopen = false ∨ killed 0 = true) :
      PipeAct p t (.write addr n i killed) (.leave (.wrote (-1)))
  | wait {addr n killed} {i : Nat} (hi : (i : Int) < n) (hfull : t.pipe.full = true)
      (hopen : t.pipe.readopen = true) :
      PipeAct p t (.write addr n i killed)
        (.wakeup .nread (.full addr n i fun k => killed (k + 1)))
  | full {addr n i killed} :
      PipeAct p t (.full addr n i killed) (.sleep .nwrite (.write addr n i killed))
  | end_ {addr n killed} {i : Nat} (hi : ¬ (i : Int) < n) :
      PipeAct p t (.write addr n i killed) (.wakeup .nread (.wrote n))
  | wrote {n} : PipeAct p t (.wrote n) (.leave (.wrote n))
  | killed {n killed} : PipeAct p t (.read n killed) (.leave (.read (-1) []))
  | empty {n killed} (hempty : t.pipe.empty = true) (hopen : t.pipe.writeopen = true) :
      PipeAct p t (.read n killed) (.sleep .nread (.read n fun k => killed (k + 1)))
  | start {n killed} : PipeAct p t (.read n killed) (.go (.copy n []) t)
  | take {n bytes} (hlt : (bytes.length : Int) < n) (hsome : t.pipe.empty = false) :
      PipeAct p t (.copy n bytes) (.go (.copy n (bytes ++ [t.pipe.front])) (t.take p))
  | copied {n bytes} : PipeAct p t (.copy n bytes) (.wakeup .nwrite (.copied bytes))
  | read {bytes} : PipeAct p t (.copied bytes) (.leave (.read bytes.length bytes))
  | shut {writable} : PipeAct p t (.close writable) (.go (.closing writable) (t.shut writable))
  | wake {writable} : PipeAct p t (.closing writable)
      (.wakeup (if writable then .nread else .nwrite) .closed)
  | closed : PipeAct p t .closed (.leave .closed)

theorem pipe_acts {ι : Type*} (p : ι) (t : PipeTrace ι) (pc : PipePc) :
    PipeAct p t pc ((pipeProgram ι).act p pc t) := by
  cases pc with
  | write addr n i killed =>
    simp only [pipeProgram]
    split
    · rename_i hi
      split
      · rename_i hfull
        split
        · rename_i hquit
          simp only [Bool.or_eq_true, Bool.not_eq_true'] at hquit
          exact .giveUp hi hfull hquit
        · rename_i hstay
          simp only [Bool.or_eq_true, Bool.not_eq_true', not_or, Bool.not_eq_false] at hstay
          exact .wait hi hfull hstay.1
      · rename_i hfull
        exact .put hi (Bool.not_eq_true _ ▸ hfull)
    · exact .end_ ‹_›
  | read n killed =>
    simp only [pipeProgram]
    split
    · rename_i hempty
      rw [Bool.and_eq_true] at hempty
      split
      · exact .killed
      · exact .empty hempty.1 hempty.2
    · exact .start
  | copy n bytes =>
    simp only [pipeProgram]
    split
    · rename_i hmore
      simp only [Bool.and_eq_true, decide_eq_true_eq, Bool.not_eq_true'] at hmore
      exact .take hmore.1 hmore.2
    · exact .copied
  | full addr n i killed => exact .full
  | wrote n => exact .wrote
  | copied bytes => exact .read
  | close writable => exact .shut
  | closing writable => exact .wake
  | closed => exact .closed

/-! ## §2  The counters -/

/-- `p->nwrite - p->nread`, as the 32-bit machine computes it. -/
def Pipe.count (p : Pipe) : Nat := (p.nwrite - p.nread).toNat

/-- The bytes that are in the pipe. -/
def Pipe.buffered (p : Pipe) : List UInt8 :=
  Ring.contents pipeSize p.data p.nread.toNat p.count

/-- The size of the pipe divides the range of the counters. -/
theorem pipeSize_dvd : pipeSize ∣ 2 ^ 32 := by decide

theorem Pipe.full_iff (p : Pipe) : p.full = true ↔ p.count = pipeSize := by
  rw [Pipe.full, decide_eq_true_eq]
  exact Ring.distance_eq_iff 512

theorem Pipe.empty_iff (p : Pipe) : p.empty = true ↔ p.count = 0 := by
  rw [Pipe.empty, decide_eq_true_eq, Pipe.count]
  constructor
  · intro heq
    rw [heq, UInt32.sub_self]
    rfl
  · intro hzero
    by_contra hne
    exact Nat.ne_of_gt (Ring.distance_pos hne) hzero

theorem Pipe.count_put {p : Pipe} (h : p.count < pipeSize) (a : UInt8) :
    (p.put a).count = p.count + 1 :=
  Ring.distance_succ (Nat.lt_of_le_of_lt h (by decide))

/-! ## §3  A pipe is a queue -/

variable {ι : Type*}

/-- The counters are at most the size apart, and what was sent is what was got
and what is buffered, in this order. -/
structure PipeTrace.OK (t : PipeTrace ι) : Prop where
  le : t.pipe.count ≤ pipeSize
  sent : t.sent.map Prod.snd = t.got.map Prod.snd ++ t.pipe.buffered

theorem PipeTrace.OK.put {t : PipeTrace ι} (h : t.OK) (hroom : t.pipe.full = false) (p : ι)
    (a : UInt8) : (t.put p a).OK := by
  have hne : t.pipe.count ≠ pipeSize := fun heq => by
    rw [t.pipe.full_iff.mpr heq] at hroom
    cases hroom
  have hlt : t.pipe.count < pipeSize := Nat.lt_of_le_of_ne h.le hne
  have hwrap : t.pipe.count + 1 < 2 ^ 32 := Nat.lt_of_le_of_lt hlt (by decide)
  have hcount : (t.put p a).pipe.count = t.pipe.count + 1 := Pipe.count_put hlt a
  have hbuf : (t.put p a).pipe.buffered = t.pipe.buffered ++ [a] :=
    Ring.between_push pipeSize_dvd hlt hwrap t.pipe.data a
  refine ⟨by rw [hcount]; exact hlt, ?_⟩
  rw [hbuf, ← List.append_assoc]
  exact List.map_append.trans (congrArg (· ++ [a]) h.sent)

theorem PipeTrace.OK.take {t : PipeTrace ι} (h : t.OK) (hsome : t.pipe.empty = false) (p : ι) :
    (t.take p).OK := by
  have hne : t.pipe.nread ≠ t.pipe.nwrite := of_decide_eq_false hsome
  have hcount : (t.take p).pipe.count + 1 = t.pipe.count := Ring.distance_shrink hne
  have hbuf : t.pipe.buffered = t.pipe.front :: (t.take p).pipe.buffered :=
    Ring.between_pop pipeSize_dvd hne t.pipe.data
  have hle := h.le
  refine ⟨by omega, ?_⟩
  change t.sent.map Prod.snd = (t.got ++ [(p, t.pipe.front)]).map Prod.snd ++ _
  rw [h.sent, hbuf, List.map_append, List.append_assoc]
  rfl

/-- **Step**: a change of the pipe puts a byte, takes one, or closes an end. -/
theorem PipeTrace.OK.go {p : ι} {pc pc' : PipePc} {t t' : PipeTrace ι} (h : t.OK)
    (hact : (pipeProgram ι).act p pc t = .go pc' t') : t'.OK := by
  have hacts := pipe_acts p t pc
  rw [hact] at hacts
  cases hacts with
  | put _ hroom => exact h.put hroom p _
  | start => exact h
  | take _ hsome => exact h.take hsome p
  | @shut writable => cases writable <;> exact ⟨h.le, h.sent⟩

/-- `pipealloc`, with both counters at `c`. -/
def pipeAt (c : UInt32) : PipeTrace ι where
  pipe :=
    { data := fun _ => 0
      nread := c
      nwrite := c
      readopen := true
      writeopen := true }
  sent := []
  got := []

theorem pipeAt_ok (c : UInt32) : (pipeAt c : PipeTrace ι).OK := by
  have hcount : (pipeAt c : PipeTrace ι).pipe.count = 0 :=
    (Pipe.empty_iff _).mp (by simp [Pipe.empty, pipeAt])
  refine ⟨by omega, ?_⟩
  rw [Pipe.buffered, hcount]
  rfl

/-! ## §4  What the calls put and take -/

/-- The bytes that a call has put into the pipe and taken out of it, by its arguments
and what it returned. -/
inductive PipeCall : PipePc → PipeResult → List UInt8 → List UInt8 → Prop where
  | wrote {addr n killed} :
      PipeCall (.write addr n 0 killed) (.wrote n) ((List.range n.toNat).map addr) []
  | gaveUp {addr n killed} {i : Nat} (hi : (i : Int) < n) :
      PipeCall (.write addr n 0 killed) (.wrote (-1)) ((List.range i).map addr) []
  | read {n killed bytes} (hlen : bytes.length ≤ n.toNat) :
      PipeCall (.read n killed) (.read bytes.length bytes) [] bytes
  | killed {n killed} : PipeCall (.read n killed) (.read (-1) []) [] []
  | closed {writable} : PipeCall (.close writable) .closed [] []

/-- The same for a call that is under way, by the label at which it entered and where
it is. -/
inductive Underway : PipePc → PipePc → List UInt8 → List UInt8 → Prop where
  | write {addr n killed i killed'} (hi : i ≤ n.toNat) :
      Underway (.write addr n 0 killed) (.write addr n i killed') ((List.range i).map addr) []
  | full {addr n killed i killed'} (hi : i ≤ n.toNat) :
      Underway (.write addr n 0 killed) (.full addr n i killed') ((List.range i).map addr) []
  | wrote {addr n killed} :
      Underway (.write addr n 0 killed) (.wrote n) ((List.range n.toNat).map addr) []
  | read {n killed killed'} : Underway (.read n killed) (.read n killed') [] []
  | copy {n killed bytes} (hlen : bytes.length ≤ n.toNat) :
      Underway (.read n killed) (.copy n bytes) [] bytes
  | copied {n killed bytes} (hlen : bytes.length ≤ n.toNat) :
      Underway (.read n killed) (.copied bytes) [] bytes
  | close {writable} : Underway (.close writable) (.close writable) [] []
  | closing {writable} : Underway (.close writable) (.closing writable) [] []
  | closed {writable} : Underway (.close writable) .closed [] []

/-- Calls, one after the other, and the bytes they have put and taken. -/
inductive Through : List (PipePc × PipeResult) → List UInt8 → List UInt8 → Prop where
  | nil : Through [] [] []
  | snoc {cs pc r a b a' b'} : Through cs a b → PipeCall pc r a' b' →
      Through (cs ++ [(pc, r)]) (a ++ a') (b ++ b')

/-- The same for a process: its completed calls, and the one it is in. -/
inductive Accounts : Record PipePc PipeResult → List UInt8 → List UInt8 → Prop where
  | out {o cs a b} : Through cs a b → Accounts (.out o cs) a b
  | inside {pc₀ pc cs a b a' b'} : Through cs a b → Underway pc₀ pc a' b' →
      Accounts (.inside pc₀ pc cs) (a ++ a') (b ++ b')

section Calls

variable [DecidableEq ι] {p : ι} {t : PipeTrace ι}

/-- **A move of the process**, by its own account. -/
theorem Accounts.act {pc₀ pc : PipePc} {cs : List (PipePc × PipeResult)}
    {x : PipeMove ι} (hx : PipeAct p t pc x)
    (h : Accounts (.inside pc₀ pc cs) (share p t.sent) (share p t.got)) :
    Accounts ((Record.inside pc₀ pc cs).seen x.place) (share p (x.data t).sent)
      (share p (x.data t).got) := by
  generalize hsent : share p t.sent = l at h
  generalize hgot : share p t.got = m at h
  obtain ⟨⟩ | ⟨hcs, hnow⟩ := h
  have hsame : ∀ {pc'}, Underway pc₀ pc' _ _ →
      Accounts (.inside pc₀ pc' cs) (share p t.sent) (share p t.got) := fun hnow' => by
    rw [hsent, hgot]
    exact .inside hcs hnow'
  have hleave : ∀ {r}, PipeCall pc₀ r _ _ →
      Accounts (.out r (cs ++ [(pc₀, r)])) (share p t.sent) (share p t.got) := fun hmoved => by
    rw [hsent, hgot]
    exact .out (hcs.snoc hmoved)
  cases hx with
  | @put addr n killed i hi _ =>
    cases hnow with
    | write _ =>
      change Accounts _ (share p (t.sent ++ [(p, addr i)])) _
      rw [share_concat_self, hsent, List.append_assoc,
        show (List.range i).map addr ++ [addr i] = (List.range (i + 1)).map addr by
          rw [List.range_succ, List.map_append]; rfl]
      change Accounts _ _ (share p t.got)
      rw [hgot]
      exact .inside hcs (.write (by omega))
  | giveUp hi _ _ =>
    cases hnow with
    | write _ => exact hleave (.gaveUp hi)
  | wait _ _ _ =>
    cases hnow with
    | write hi => exact hsame (.full hi)
  | full =>
    cases hnow with
    | full hi => exact hsame (.write hi)
  | @end_ addr n killed i hi =>
    cases hnow with
    | write hle =>
      obtain rfl : i = n.toNat := by omega
      exact hsame .wrote
  | wrote =>
    cases hnow with
    | wrote => exact hleave .wrote
  | killed =>
    cases hnow with
    | read => exact hleave .killed
  | empty _ _ =>
    cases hnow with
    | read => exact hsame .read
  | start =>
    cases hnow with
    | read => exact hsame (.copy (Nat.zero_le _))
  | @take n bytes hlt _ =>
    cases hnow with
    | copy _ =>
      change Accounts _ _ (share p (t.got ++ [(p, t.pipe.front)]))
      rw [share_concat_self, hgot, List.append_assoc]
      change Accounts _ (share p t.sent) _
      rw [hsent]
      refine .inside hcs (.copy ?_)
      rw [List.length_append, List.length_singleton]
      omega
  | copied =>
    cases hnow with
    | copy hlen => exact hsame (.copied hlen)
  | read =>
    cases hnow with
    | copied hlen => exact hleave (.read hlen)
  | @shut writable =>
    cases hnow with
    | close => cases writable <;> exact hsame .closing
  | wake =>
    cases hnow with
    | closing => exact hsame .closed
  | closed =>
    cases hnow with
    | closed => exact hleave .closed

/-- The moves of a process are not in another's account. -/
theorem PipeAct.share {q : ι} {pc : PipePc} {x : PipeMove ι}
    (hx : PipeAct p t pc x) (hne : q ≠ p) :
    share q (x.data t).sent = Monitor.share q t.sent ∧
      Monitor.share q (x.data t).got = Monitor.share q t.got := by
  cases hx with
  | put _ _ => exact ⟨share_concat_ne hne _ _, rfl⟩
  | take _ _ => exact ⟨rfl, share_concat_ne hne _ _⟩
  | @shut writable => cases writable <;> exact ⟨rfl, rfl⟩
  | _ => exact ⟨rfl, rfl⟩

/-- **The calls of every run.** -/
theorem pipe_accounts {c : UInt32} {es : List (Monitor.Event ι PipePc)}
    {s : PipeState ι}
    (hrun : (system (pipeProgram ι)).Run (initial (pipeAt c) .none) es s) (p : ι) :
    Accounts (records (pipeProgram ι) (pipeAt c) .none es p) (share p s.data.sent)
      (share p s.data.got) := by
  refine (records_run
    (J := fun (t : PipeTrace ι) r => ∀ q, Accounts (r q) (share q t.sent) (share q t.got))
    (fun {t r q o pc cs} h hq hen => ?_) (fun {t r q pc₀ pc cs} h hq => ?_) hrun
    (r := fun _ => .out .none []) (fun _ => rfl) fun _ => .out .nil).2.2 p
  · refine (forall_update_iff r fun q r => Accounts r (share q t.sent) (share q t.got)).mpr
      ⟨?_, fun x _ => h x⟩
    have hout := h q
    rw [hq] at hout
    obtain ⟨hcs⟩ | ⟨⟩ := hout
    have hstart : Underway pc pc [] [] := by
      cases pc with
      | write addr n i killed =>
        cases i with
        | zero => exact .write (Nat.zero_le _)
        | succ i => cases hen
      | read n killed => exact .read
      | close writable => exact .close
      | _ => cases hen
    rw [← List.append_nil (share q t.sent), ← List.append_nil (share q t.got)]
    exact .inside hcs hstart
  · have hx := pipe_acts q t pc
    refine (forall_update_iff r fun q r => Accounts r (share q (Act.data t _).sent)
      (share q (Act.data t _).got)).mpr ⟨?_, fun x hne => ?_⟩
    · exact Accounts.act hx (hq ▸ h q)
    · rw [(hx.share hne).1, (hx.share hne).2]
      exact h x

end Calls

variable [DecidableEq ι]

/-- **A pipe is a queue.** Whatever readers and writers do, wherever the
counters start: the bytes taken out are the first of the bytes put in, and the
rest of them are in the pipe, as many as the counters say. What a process has put in
is what its calls of `pipewrite` had in their buffers, as far as they got, call after
call; and what it has taken out is what its calls of `piperead` have returned. -/
theorem pipe_fifo (c : UInt32) {es : List (Monitor.Event ι PipePc)}
    {s : PipeState ι}
    (hrun : (system (pipeProgram ι)).Run (initial (pipeAt c) .none) es s) :
    (s.data.pipe.nwrite - s.data.pipe.nread).toNat ≤ pipeSize ∧
    s.data.got.map Prod.snd <+: s.data.sent.map Prod.snd ∧
    s.data.sent.map Prod.snd = s.data.got.map Prod.snd ++ s.data.pipe.buffered ∧
    s.data.pipe.buffered.length = (s.data.pipe.nwrite - s.data.pipe.nread).toNat ∧
    ∀ p, Accounts (records (pipeProgram ι) (pipeAt c) .none es p) (share p s.data.sent)
      (share p s.data.got) := by
  have h : s.data.OK :=
    data_invariant (fun _ _ _ _ _ hd hact => hd.go hact) hrun (pipeAt_ok c)
  exact ⟨h.le, ⟨_, h.sent.symm⟩, h.sent, Ring.contents_length .., pipe_accounts hrun⟩

/-- Process 0 writes two bytes across the wrap of the counter, process 1 reads
one of them. -/
def writeAndRead : List (Monitor.Event (Fin 2) PipePc) :=
  .enter 0 (.write (fun i => [7, 8].getD i 0) 2 0 fun _ => false) :: List.replicate 8 (.proc 0) ++
    .enter 1 (.read 1 fun _ => false) :: List.replicate 8 (.proc 1)

theorem pipe_fifo_writeAndRead :
    ∃ s : PipeState (Fin 2),
      writeAndRead.foldlM (next (pipeProgram (Fin 2))) (initial (pipeAt 0xffffffff) .none) = some s ∧
      s.data.got = [(1, 7)] ∧ s.data.sent.map Prod.snd = [7] ++ s.data.pipe.buffered ∧
      Accounts (records (pipeProgram (Fin 2)) (pipeAt 0xffffffff) .none writeAndRead 1) [] [7] := by
  obtain ⟨s, hs, hgot, hput⟩ : ∃ s : PipeState (Fin 2),
      writeAndRead.foldlM (next (pipeProgram (Fin 2))) (initial (pipeAt 0xffffffff) .none) = some s ∧
      s.data.got = [(1, 7)] ∧ share 1 s.data.sent = [] := ⟨_, rfl, rfl, rfl⟩
  obtain ⟨-, -, hsent, -, hcalls⟩ := pipe_fifo 0xffffffff (run_of_foldlM hs)
  have hone := hcalls 1
  rw [hput, hgot] at hone
  rw [hgot] at hsent
  exact ⟨s, hs, hgot, hsent, hone⟩

end Xv6
