import Xv6.Library.Monitor
import Xv6.Library.Ring

/-!
# `console.c`: the input

`consoleintr` and `consoleread` as the program of a monitor: the lock is
`cons.lock`, the channel is `&input.r`.

The three indices of `input` cut the ring in two parts: from `r` to `w` stand
the bytes a reader may have, from `w` to `e` the line that is being edited. Both
parts are compared with plain lists that know nothing of indices:

- `line` and `committed`: what has been typed and not erased since the last
  commit, and everything that was committed. A byte joins the line; the line is
  committed when it ends, or when no more than `INPUT_BUF` bytes could be kept.
- `log`: who took which byte, in order; `calls p`: the calls of `consoleread`
  that process `p` has behind it, with what they stored through `dst`.

An interrupt brings along the characters that `getc` is going to return. What
`consputc` puts on the screen is left out, and so is `procdump`, which runs
after the lock has been given up.
-/

namespace Xv6

open Monitor Transition Function

/-! ## §1  The functions -/

def inputBuf : Nat := 128

/-- `C(x)`: Control-x. -/
def ctrl (x : Char) : UInt8 := x.toUInt8 - '@'.toUInt8

def newline : UInt8 := '\n'.toUInt8

/-- `(c == '\r') ? '\n' : c` -/
def unreturn (c : UInt8) : UInt8 := if c = '\r'.toUInt8 then newline else c

/-- `input`. -/
structure Input where
  buf : Nat → UInt8
  r : UInt32
  w : UInt32
  e : UInt32

/-- `input.buf[input.e++ % INPUT_BUF] = c` -/
def Input.store (i : Input) (c : UInt8) : Input :=
  { i with buf := update i.buf (i.e.toNat % inputBuf) c, e := i.e + 1 }

/-- `c == '\n' || c == C('D') || input.e == input.r+INPUT_BUF` -/
def Input.ends (i : Input) (c : UInt8) : Bool :=
  c = newline || c = ctrl 'D' || i.e = i.r + 128

/-- `input.w = input.e` -/
def Input.commit (i : Input) : Input := { i with w := i.e }

/-- `input.buf[(input.e-1) % INPUT_BUF]` -/
def Input.last (i : Input) : UInt8 := i.buf ((i.e - 1).toNat % inputBuf)

/-- `input.buf[input.r % INPUT_BUF]` -/
def Input.first (i : Input) : UInt8 := i.buf (i.r.toNat % inputBuf)

/-- `input.r++` -/
def Input.advance (i : Input) : Input := { i with r := i.r + 1 }

/-- `input.r--` -/
def Input.putBack (i : Input) : Input := { i with r := i.r - 1 }

/-- Why a call of `consoleread` came to its end: the process was killed, there
were bytes enough, the line was over, or the next committed byte, the one at
`pos` of all of them, was a `^D`. -/
inductive ReadEnd where
  | killed
  | count
  | newline
  | eof (pos : Nat)

/-- A call of `consoleread` that is over: how many bytes were asked for, and
which ones were stored. -/
structure ReadCall where
  n : Int
  dst : List UInt8
  ended : ReadEnd

/-- The input with the history of what was typed and read. -/
structure Console (ι : Type*) where
  input : Input
  line : List UInt8
  committed : List UInt8
  log : List (ι × UInt8)
  calls : ι → List ReadCall

section

variable {ι : Type*}

/-- A byte is typed. The line is committed with it if it ends the line, or if
there are `INPUT_BUF` bytes that nobody has read. -/
def Console.type (d : Console ι) (c : UInt8) : Console ι :=
  if c = newline ∨ c = ctrl 'D' ∨
      d.committed.length + (d.line.length + 1) = d.log.length + inputBuf then
    { d with committed := d.committed ++ (d.line ++ [c]), line := [] }
  else { d with line := d.line ++ [c] }

/-- The same, with what `consoleintr` does to the input. -/
def Console.put (d : Console ι) (c : UInt8) : Console ι :=
  { d.type c with
    input := if (d.input.store c).ends c then (d.input.store c).commit else d.input.store c }

/-- `input.e--` -/
def Console.erase (d : Console ι) : Console ι :=
  { d with input := { d.input with e := d.input.e - 1 }, line := d.line.dropLast }

/-- `c = input.buf[input.r++ % INPUT_BUF]`, by process `p`. -/
def Console.take (d : Console ι) (p : ι) : Console ι :=
  { d with input := d.input.advance, log := d.log ++ [(p, d.input.first)] }

/-- A call of `p` is over. -/
def Console.finish [DecidableEq ι] (d : Console ι) (p : ι) (call : ReadCall) : Console ι :=
  { d with calls := update d.calls p (d.calls p ++ [call]) }

end

/-- The one channel, `&input.r`. -/
inductive ConsoleChan where
  | r
deriving DecidableEq

/-- A call of `consoleread` under way: `n` bytes are to come of `target`, and
`dst` have been stored. `killed` is what the coming reads of
`myproc()->killed` give. -/
structure Reading where
  n : Int
  target : Int
  dst : List UInt8
  killed : Nat → Bool

/-- Where a call is while it has the lock. `cs` is what `getc` is still going
to return, `dump` is `doprocdump`. -/
inductive ConsolePc where
  | intr (cs : List UInt8) (dump : Bool)   -- `while((c = getc()) >= 0)`
  | kill (cs : List UInt8) (dump : Bool)   -- the loop of `C('U')`
  | wake (cs : List UInt8) (dump : Bool)   -- `wakeup(&input.r)`
  | read (ρ : Reading)                     -- `while(n > 0)`
  | back (r : Int)                         -- `release(&cons.lock)`, returns `r`

/-- How the last call ended. -/
inductive ConsoleResult where
  | none
  | intr (dump : Bool)
  | read (r : Int)

/-- `consoleintr` and `consoleread`. One round of a loop is one step: nobody
else can look at `input` meanwhile. -/
def consoleProgram (ι : Type*) [DecidableEq ι] :
    Program ι ConsoleChan ConsolePc ConsoleResult (Console ι) where
  enter _ _ pc :=
    match pc with
    | .intr _ dump => !dump
    | .read ρ => ρ.n = ρ.target && ρ.dst.isEmpty
    | _ => false
  act p pc d :=
    match pc with
    | .intr [] dump => .leave (.intr dump)
    | .intr (c :: cs) dump =>
      if c = ctrl 'P' then .go (.intr cs true) d
      else if c = ctrl 'U' then .go (.kill cs dump) d
      else if c = ctrl 'H' || c = 0x7f then
        if d.input.e ≠ d.input.w then .go (.intr cs dump) d.erase
        else .go (.intr cs dump) d
      else if c ≠ 0 && d.input.e - d.input.r < 128 then
        if (d.input.store (unreturn c)).ends (unreturn c) then
          .go (.wake cs dump) (d.put (unreturn c))
        else .go (.intr cs dump) (d.put (unreturn c))
      else .go (.intr cs dump) d
    | .kill cs dump =>
      if d.input.e ≠ d.input.w && d.input.last ≠ newline then .go (.kill cs dump) d.erase
      else .go (.intr cs dump) d
    | .wake cs dump => .wakeup .r (.intr cs dump)
    | .read ρ =>
      if 0 < ρ.n then
        if d.input.r = d.input.w then
          if ρ.killed 0 then .go (.back (-1)) (d.finish p ⟨ρ.target, ρ.dst, .killed⟩)
          else .sleep .r (.read { ρ with killed := fun k => ρ.killed (k + 1) })
        else if d.input.first = ctrl 'D' then
          if ρ.n < ρ.target then
            .go (.back (ρ.target - ρ.n))
              ({ d with input := d.input.advance.putBack }.finish p
                ⟨ρ.target, ρ.dst, .eof d.log.length⟩)
          else
            .go (.back (ρ.target - ρ.n))
              ((d.take p).finish p ⟨ρ.target, ρ.dst, .eof d.log.length⟩)
        else if d.input.first = newline then
          .go (.back (ρ.target - (ρ.n - 1)))
            ((d.take p).finish p ⟨ρ.target, ρ.dst ++ [d.input.first], .newline⟩)
        else
          .go (.read { ρ with n := ρ.n - 1, dst := ρ.dst ++ [d.input.first] }) (d.take p)
      else .go (.back (ρ.target - ρ.n)) (d.finish p ⟨ρ.target, ρ.dst, .count⟩)
    | .back r => .leave (.read r)

/-- Nothing typed yet, all three indices at `c`. -/
def consoleAt {ι : Type*} (c : UInt32) : Console ι where
  input := { buf := fun _ => 0, r := c, w := c, e := c }
  line := []
  committed := []
  log := []
  calls := fun _ => []

/-! ## §2  What a step can do -/

section Changes

variable {ι : Type*} [DecidableEq ι]

/-- In `consoleintr`. -/
def ConsolePc.typing : ConsolePc → Bool
  | .intr _ _ | .kill _ _ | .wake _ _ => true
  | _ => false

/-- The changes of the data, by process `p`: three of `consoleintr`, and one
round of the loop of `consoleread` with its ways out. -/
inductive Moves (p : ι) (d : Console ι) : ConsolePc → ConsolePc → Console ι → Prop where
  | idle {pc pc'} (h : pc.typing = true) (h' : pc'.typing = true) : Moves p d pc pc' d
  | erase {pc pc'} (h : pc.typing = true) (h' : pc'.typing = true)
      (hne : d.input.e ≠ d.input.w) : Moves p d pc pc' d.erase
  | put {pc pc'} (h : pc.typing = true) (h' : pc'.typing = true) (c : UInt8)
      (hroom : d.input.e - d.input.r < 128) : Moves p d pc pc' (d.put c)
  | killed {ρ} (hn : 0 < ρ.n) :
      Moves p d (.read ρ) (.back (-1)) (d.finish p ⟨ρ.target, ρ.dst, .killed⟩)
  | kept {ρ} (hn : 0 < ρ.n) (hne : d.input.r ≠ d.input.w) (hc : d.input.first = ctrl 'D')
      (hlt : ρ.n < ρ.target) :
      Moves p d (.read ρ) (.back (ρ.target - ρ.n))
        (d.finish p ⟨ρ.target, ρ.dst, .eof d.log.length⟩)
  | eof {ρ} (hn : 0 < ρ.n) (hne : d.input.r ≠ d.input.w) (hc : d.input.first = ctrl 'D')
      (hlt : ¬ ρ.n < ρ.target) :
      Moves p d (.read ρ) (.back (ρ.target - ρ.n))
        ((d.take p).finish p ⟨ρ.target, ρ.dst, .eof d.log.length⟩)
  | newline {ρ} (hn : 0 < ρ.n) (hne : d.input.r ≠ d.input.w) (hc : d.input.first = newline) :
      Moves p d (.read ρ) (.back (ρ.target - (ρ.n - 1)))
        ((d.take p).finish p ⟨ρ.target, ρ.dst ++ [d.input.first], .newline⟩)
  | byte {ρ} (hn : 0 < ρ.n) (hne : d.input.r ≠ d.input.w) (heof : d.input.first ≠ ctrl 'D')
      (hnl : d.input.first ≠ Xv6.newline) :
      Moves p d (.read ρ) (.read { ρ with n := ρ.n - 1, dst := ρ.dst ++ [d.input.first] })
        (d.take p)
  | count {ρ} (hn : ¬ 0 < ρ.n) :
      Moves p d (.read ρ) (.back (ρ.target - ρ.n)) (d.finish p ⟨ρ.target, ρ.dst, .count⟩)

/-- A byte that is put back is where it was. -/
theorem Input.advance_putBack (i : Input) : i.advance.putBack = i := by
  rw [Input.advance, Input.putBack]
  exact congrArg (fun r => { i with r := r }) (UInt32.add_sub_cancel i.r 1)

/-- What a process can do at a label. -/
inductive Acts (p : ι) (d : Console ι) :
    ConsolePc → Act ConsoleChan ConsolePc ConsoleResult (Console ι) → Prop where
  | go {pc pc' d'} (hm : Moves p d pc pc' d') : Acts p d pc (.go pc' d')
  | sleep {ρ} : Acts p d (.read ρ) (.sleep .r (.read { ρ with killed := fun k => ρ.killed (k + 1) }))
  | wake {cs dump} : Acts p d (.wake cs dump) (.wakeup .r (.intr cs dump))
  | out {dump} : Acts p d (.intr [] dump) (.leave (.intr dump))
  | back {r} : Acts p d (.back r) (.leave (.read r))

theorem acts (p : ι) (pc : ConsolePc) (d : Console ι) :
    Acts p d pc ((consoleProgram ι).act p pc d) := by
  cases pc with
  | intr cs dump =>
    cases cs with
    | nil => exact .out
    | cons c cs =>
      simp only [consoleProgram]
      split
      · exact .go (.idle rfl rfl)
      split
      · exact .go (.idle rfl rfl)
      split
      · split
        · exact .go (.erase rfl rfl ‹_›)
        · exact .go (.idle rfl rfl)
      split
      · rename_i hroom
        rw [Bool.and_eq_true, decide_eq_true_eq, decide_eq_true_eq] at hroom
        split
        · exact .go (.put rfl rfl _ hroom.2)
        · exact .go (.put rfl rfl _ hroom.2)
      · exact .go (.idle rfl rfl)
  | kill cs dump =>
    simp only [consoleProgram]
    split
    · rename_i hmore
      rw [Bool.and_eq_true, decide_eq_true_eq, decide_eq_true_eq] at hmore
      exact .go (.erase rfl rfl hmore.1)
    · exact .go (.idle rfl rfl)
  | wake cs dump => exact .wake
  | read ρ =>
    simp only [consoleProgram]
    split
    · rename_i hn
      split
      · split
        · exact .go (.killed hn)
        · exact .sleep
      · rename_i hne
        split
        · rename_i hc
          split
          · rename_i hlt
            rw [Input.advance_putBack]
            exact .go (.kept hn hne hc hlt)
          · rename_i hge
            exact .go (.eof hn hne hc hge)
        · rename_i heof
          split
          · exact .go (.newline hn hne ‹_›)
          · exact .go (.byte hn hne heof ‹_›)
    · exact .go (.count ‹_›)
  | back r => exact .back

end Changes

/-! ## §3  The ring -/

section Ring

variable {ι : Type*} {d : Console ι}

theorem inputBuf_dvd : inputBuf ∣ 2 ^ 32 := by decide

/-- The bytes a reader may have. -/
def Input.unread (i : Input) : List UInt8 := Ring.between inputBuf i.buf i.r i.w

/-- The line that is being edited. -/
def Input.edited (i : Input) : List UInt8 := Ring.between inputBuf i.buf i.w i.e

/-- The parts of the ring do not overlap, and they are what the lists say. A
line under way has no newline. -/
structure Console.OK (d : Console ι) : Prop where
  le : (d.input.w - d.input.r).toNat + (d.input.e - d.input.w).toNat ≤ inputBuf
  committed : d.committed = d.log.map Prod.snd ++ d.input.unread
  line : d.line = d.input.edited
  plain : newline ∉ d.line

/-- The whole of the ring, in parts. -/
theorem Console.OK.distance (h : d.OK) : (d.input.e - d.input.r).toNat =
    (d.input.w - d.input.r).toNat + (d.input.e - d.input.w).toNat :=
  Ring.distance_add (Nat.lt_of_le_of_lt h.le (by decide))

/-- `input.e == input.r+INPUT_BUF` says that as many bytes are unread as the
ring has cells. -/
theorem Console.OK.ends_iff (h : d.OK) (hroom : d.input.e - d.input.r < 128) (c : UInt8) :
    (d.input.store c).ends c = true ↔ c = newline ∨ c = ctrl 'D' ∨
      d.committed.length + (d.line.length + 1) = d.log.length + inputBuf := by
  have hlt : (d.input.e - d.input.r).toNat < 128 := UInt32.lt_iff_toNat_lt.mp hroom
  have hfull : (d.input.store c).e = (d.input.store c).r + 128 ↔
      (d.input.e - d.input.r).toNat + 1 = inputBuf := by
    change d.input.e + 1 = d.input.r + 128 ↔ _
    rw [Ring.distance_eq_iff, Ring.distance_succ (by omega)]
    rfl
  have hcommitted : d.committed.length = d.log.length + (d.input.w - d.input.r).toNat := by
    rw [h.committed, List.length_append, List.length_map, Input.unread, Ring.between_length]
  have hline : d.line.length = (d.input.e - d.input.w).toNat := by
    rw [h.line, Input.edited, Ring.between_length]
  have hdist := h.distance
  rw [Input.ends, Bool.or_eq_true, Bool.or_eq_true, decide_eq_true_eq, decide_eq_true_eq,
    decide_eq_true_eq, hfull, or_assoc]
  refine or_congr_right (or_congr_right ?_)
  omega

/-- A byte is typed: nothing that was there is overwritten. -/
theorem Console.OK.put (h : d.OK) (hroom : d.input.e - d.input.r < 128) (c : UInt8) :
    (d.put c).OK := by
  have hlt : (d.input.e - d.input.r).toNat < inputBuf := UInt32.lt_iff_toNat_lt.mp hroom
  have hdist := h.distance
  have hbuf : inputBuf = 128 := rfl
  have hunread : Ring.between inputBuf (d.input.store c).buf d.input.r d.input.w =
      d.input.unread := by
    apply Ring.between_update inputBuf_dvd _ hlt
    omega
  have hedited : Ring.between inputBuf (d.input.store c).buf d.input.w (d.input.e + 1) =
      d.line ++ [c] := by
    rw [h.line]
    apply Ring.between_push inputBuf_dvd
    · omega
    · omega
  have hgrow : (d.input.e + 1 - d.input.w).toNat = (d.input.e - d.input.w).toNat + 1 :=
    Ring.distance_succ (by omega)
  by_cases hends : (d.input.store c).ends c = true
  · have hput : d.put c =
        { d with
          input := (d.input.store c).commit
          committed := d.committed ++ (d.line ++ [c])
          line := [] } := by
      rw [Console.put, if_pos hends, Console.type, if_pos ((h.ends_iff hroom c).mp hends)]
    have hall : Ring.between inputBuf (d.input.store c).buf d.input.r (d.input.e + 1) =
        d.input.unread ++ (d.line ++ [c]) := by
      rw [Ring.between_append inputBuf_dvd (show _ + (d.input.e + 1 - d.input.w).toNat < _ by omega),
        hunread, hedited]
    rw [hput]
    refine ⟨?_, ?_, ?_, List.not_mem_nil⟩
    · change (d.input.e + 1 - d.input.r).toNat + (d.input.e + 1 - (d.input.e + 1)).toNat ≤ _
      rw [UInt32.sub_self, Ring.distance_succ (by omega)]
      exact hlt
    · change d.committed ++ _ = _ ++ Ring.between inputBuf (d.input.store c).buf d.input.r _
      rw [h.committed, List.append_assoc]
      exact congrArg _ hall.symm
    · exact (Ring.between_self ..).symm
  · have hput : d.put c = { d with input := d.input.store c, line := d.line ++ [c] } := by
      rw [Console.put, if_neg hends, Console.type, if_neg (fun hc => hends ((h.ends_iff hroom c).mpr hc))]
    rw [hput]
    refine ⟨?_, ?_, ?_, ?_⟩
    · change (d.input.w - d.input.r).toNat + (d.input.e + 1 - d.input.w).toNat ≤ _
      omega
    · change d.committed = _ ++ Ring.between inputBuf (d.input.store c).buf d.input.r d.input.w
      rw [hunread]
      exact h.committed
    · exact hedited.symm
    · intro hmem
      rcases List.mem_append.mp hmem with hline | hlast
      · exact h.plain hline
      · rw [List.mem_singleton] at hlast
        exact hends ((h.ends_iff hroom c).mpr (.inl hlast.symm))

/-- The last byte of the line is erased. -/
theorem Console.OK.erase (h : d.OK) (hne : d.input.e ≠ d.input.w) : d.erase.OK := by
  have hsplit := Ring.between_concat inputBuf_dvd (Ne.symm hne) d.input.buf
  have hdist : (d.input.e - 1 - d.input.w).toNat + 1 = (d.input.e - d.input.w).toNat :=
    Ring.distance_pred (Ne.symm hne)
  have hle := h.le
  refine ⟨?_, h.committed, ?_, fun hmem => h.plain (List.dropLast_subset _ hmem)⟩
  · change (d.input.w - d.input.r).toNat + (d.input.e - 1 - d.input.w).toNat ≤ _
    omega
  · change d.line.dropLast = Ring.between inputBuf d.input.buf d.input.w (d.input.e - 1)
    rw [h.line, Input.edited, hsplit, List.dropLast_concat]

/-- The line, with its last byte. -/
theorem Console.OK.line_eq (h : d.OK) (hne : d.input.e ≠ d.input.w) :
    d.line = d.line.dropLast ++ [d.input.last] := by
  have hsplit := Ring.between_concat inputBuf_dvd (Ne.symm hne) d.input.buf
  rw [h.line, Input.edited, hsplit, List.dropLast_concat]
  rfl

/-- What a reader may have, with its first byte. -/
theorem unread_eq {i : Input} (hne : i.r ≠ i.w) : i.unread = i.first :: i.advance.unread :=
  Ring.between_pop inputBuf_dvd hne i.buf

/-- The first byte a reader may have is the first committed one that nobody
took. -/
theorem Console.OK.committed_front (h : d.OK) {c : UInt8} (hne : d.input.r ≠ d.input.w)
    (hc : d.input.first = c) : d.committed[d.log.length]? = some c := by
  have hlen : (d.log.map Prod.snd).length = d.log.length := List.length_map _
  rw [h.committed, ← hlen, List.getElem?_append_right (Nat.le_refl _), Nat.sub_self, unread_eq hne,
    hc]
  rfl

/-- The first byte is taken. -/
theorem Console.OK.take (h : d.OK) (hne : d.input.r ≠ d.input.w) (p : ι) : (d.take p).OK := by
  have hdist : (d.input.w - (d.input.r + 1)).toNat + 1 = (d.input.w - d.input.r).toNat :=
    Ring.distance_shrink hne
  have hle := h.le
  refine ⟨?_, ?_, h.line, h.plain⟩
  · change (d.input.w - (d.input.r + 1)).toNat + (d.input.e - d.input.w).toNat ≤ _
    omega
  · change d.committed = (d.log ++ [(p, d.input.first)]).map Prod.snd ++ d.input.advance.unread
    rw [h.committed, unread_eq hne, List.map_append, List.append_assoc]
    rfl

theorem Console.OK.finish [DecidableEq ι] (h : d.OK) (p : ι) (call : ReadCall) :
    (d.finish p call).OK :=
  ⟨h.le, h.committed, h.line, h.plain⟩

/-- **The ring, step.** -/
theorem Console.OK.moves [DecidableEq ι] {p : ι} {pc pc' : ConsolePc} {d' : Console ι} (h : d.OK)
    (hm : Moves p d pc pc' d') : d'.OK := by
  cases hm with
  | idle => exact h
  | erase _ _ hne => exact h.erase hne
  | put _ _ c hroom => exact h.put hroom c
  | killed _ => exact h.finish p _
  | kept _ _ _ _ => exact h.finish p _
  | eof _ hne _ _ => exact (h.take hne p).finish p _
  | newline _ hne _ => exact (h.take hne p).finish p _
  | byte _ hne _ _ => exact h.take hne p
  | count _ => exact h.finish p _

theorem consoleAt_ok (c : UInt32) : (consoleAt c : Console ι).OK := by
  refine ⟨?_, ?_, ?_, List.not_mem_nil⟩
  · change (c - c).toNat + (c - c).toNat ≤ _
    rw [UInt32.sub_self]
    exact Nat.zero_le _
  · exact (Ring.between_self ..).symm
  · exact (Ring.between_self ..).symm

/-- The loop of `C('U')` goes on until the whole line is gone. -/
theorem Console.OK.kill_iff (h : d.OK) :
    (d.input.e ≠ d.input.w && d.input.last ≠ newline) = true ↔ d.line ≠ [] := by
  rw [Bool.and_eq_true, decide_eq_true_eq, decide_eq_true_eq]
  constructor
  · rintro ⟨hne, -⟩ hnil
    have hline := h.line_eq hne
    rw [hnil] at hline
    exact List.cons_ne_nil _ _ hline.symm
  · intro hline
    have hne : d.input.e ≠ d.input.w := by
      intro heq
      apply hline
      rw [h.line, Input.edited, heq, Ring.between_self]
    refine ⟨hne, fun hlast => h.plain ?_⟩
    rw [h.line_eq hne, hlast]
    exact List.mem_concat_self

end Ring

/-! ## §4  The readers -/

section Readers

variable {ι : Type*} [DecidableEq ι]

/-- What a call took off the ring: what it stored, or a `^D` if it found one
before there was anything to store. -/
def ReadCall.took (call : ReadCall) : List UInt8 :=
  match call.ended with
  | .eof _ => if call.dst = [] then [ctrl 'D'] else call.dst
  | _ => call.dst

/-- What a call returned. -/
def ReadCall.ret (call : ReadCall) : Int :=
  match call.ended with
  | .killed => -1
  | _ => call.dst.length

/-- Bytes that do not end a read. -/
def Ordinary (bytes : List UInt8) : Prop := ∀ c ∈ bytes, c ≠ newline ∧ c ≠ ctrl 'D'

/-- A call was right to end when it did. One that ended at a `^D` has left it
there for the next call, unless it had nothing else to return. -/
def ReadCall.Right (committed : List UInt8) (log : List (ι × UInt8)) (p : ι) (call : ReadCall) :
    Prop :=
  match call.ended with
  | .killed => Ordinary call.dst ∧ call.dst.length < call.n
  | .count => Ordinary call.dst ∧ call.dst.length = call.n.toNat
  | .newline => ∃ bytes, Ordinary bytes ∧ call.dst = bytes ++ [newline] ∧ call.dst.length ≤ call.n
  | .eof pos => Ordinary call.dst ∧ call.dst.length < call.n ∧
      committed[pos]? = some (ctrl 'D') ∧ (call.dst = [] → log[pos]? = some (p, ctrl 'D'))

/-- The call that a process is in has stored these bytes. -/
def stored : Place ConsolePc ConsoleResult → List UInt8
  | .inside (.read ρ) => ρ.dst
  | _ => []

/-- What is known where a process is. -/
def Console.At (d : Console ι) (p : ι) : Place ConsolePc ConsoleResult → Prop
  | .inside (.read ρ) => Ordinary ρ.dst ∧ ρ.n + ρ.dst.length = ρ.target ∧ (ρ.dst = [] ∨ 0 ≤ ρ.n)
  | .inside (.back r) | .out (.read r) => ∃ call, (d.calls p).getLast? = some call ∧ call.ret = r
  | _ => True

/-- Process `p` at `x` has taken what its calls took, one after the other. -/
structure Served (d : Console ι) (p : ι) (x : Place ConsolePc ConsoleResult) : Prop where
  account : share p d.log = (d.calls p).flatMap ReadCall.took ++ stored x
  calls : ∀ call ∈ d.calls p, call.Right d.committed d.log p
  here : d.At p x

/-- Nothing typed or read is forgotten, and only `p` reads. -/
structure Grows (p : ι) (d d' : Console ι) : Prop where
  committed : d.committed <+: d'.committed
  log : d.log <+: d'.log
  shares : ∀ q, q ≠ p → share q d'.log = share q d.log
  calls : ∀ q, q ≠ p → d'.calls q = d.calls q

variable {p q : ι}

theorem grows_refl (p : ι) (d : Console ι) : Grows p d d :=
  ⟨List.prefix_refl _, List.prefix_refl _, fun _ _ => rfl, fun _ _ => rfl⟩

theorem grows_take (p : ι) (d : Console ι) : Grows p d (d.take p) :=
  ⟨List.prefix_refl _, List.prefix_append _ _, fun _ hq => share_concat_ne hq _ _, fun _ _ => rfl⟩

variable {d d' : Console ι}

theorem Grows.finish (h : Grows p d d') (call : ReadCall) :
    Grows p d (d'.finish p call) :=
  ⟨h.committed, h.log, h.shares, fun q hq => by
    rw [← h.calls q hq]
    exact update_of_ne hq _ _⟩

omit [DecidableEq ι] in
@[simp] theorem put_log (d : Console ι) (c : UInt8) : (d.put c).log = d.log := by
  unfold Console.put Console.type
  split <;> rfl

omit [DecidableEq ι] in
@[simp] theorem put_calls (d : Console ι) (c : UInt8) : (d.put c).calls = d.calls := by
  unfold Console.put Console.type
  split <;> rfl

omit [DecidableEq ι] in
theorem put_committed (d : Console ι) (c : UInt8) : d.committed <+: (d.put c).committed := by
  unfold Console.put Console.type
  split
  · exact List.prefix_append _ _
  · exact List.prefix_refl _

/-- The handler leaves the readers alone. -/
theorem grows_of_eq (hcommitted : d.committed <+: d'.committed) (hlog : d'.log = d.log)
    (hcalls : d'.calls = d.calls) : Grows p d d' := by
  refine ⟨hcommitted, ?_, fun q _ => ?_, fun q _ => ?_⟩
  · exact hlog ▸ List.prefix_refl d.log
  · rw [hlog]
  · rw [hcalls]

variable {pc pc' : ConsolePc}

theorem Moves.grows (hm : Moves p d pc pc' d') :
    Grows p d d' := by
  cases hm with
  | idle => exact grows_refl p d
  | erase => exact grows_of_eq (List.prefix_refl _) rfl rfl
  | put _ _ c _ => exact grows_of_eq (put_committed d c) (put_log d c) (put_calls d c)
  | killed _ | kept _ _ _ _ | count _ => exact (grows_refl p d).finish _
  | eof _ _ _ _ => exact (grows_take p d).finish _
  | newline _ _ _ => exact (grows_take p d).finish _
  | byte _ _ _ _ => exact grows_take p d

theorem getElem?_of_prefix {α : Type*} {xs ys : List α} {k : Nat} {x : α} (h : xs <+: ys)
    (hk : xs[k]? = some x) : ys[k]? = some x := by
  obtain ⟨zs, rfl⟩ := h
  obtain ⟨hlt, -⟩ := List.getElem?_eq_some_iff.mp hk
  rw [List.getElem?_append_left hlt]
  exact hk

/-- What was right stays right. -/
theorem ReadCall.Right.grows {call : ReadCall} (h : call.Right d.committed d.log q)
    (hg : Grows p d d') :
    call.Right d'.committed d'.log q := by
  unfold ReadCall.Right at h ⊢
  split at h
  · exact h
  · exact h
  · exact h
  · obtain ⟨hord, hlt, hpos, hlog⟩ := h
    exact ⟨hord, hlt, getElem?_of_prefix hg.committed hpos,
      fun hnil => getElem?_of_prefix hg.log (hlog hnil)⟩

/-- **Frame**: a step of `p` is none of the business of `q`. -/
theorem Served.frame {x : Place ConsolePc ConsoleResult} (h : Served d q x) (hg : Grows p d d')
    (hq : q ≠ p) : Served d' q x := by
  refine ⟨?_, ?_, ?_⟩
  · rw [hg.shares q hq, hg.calls q hq]
    exact h.account
  · intro call hcall
    rw [hg.calls q hq] at hcall
    exact (h.calls call hcall).grows hg
  · have hat := h.here
    unfold Console.At at hat ⊢
    rw [hg.calls q hq]
    exact hat

/-- A call is over, and it has taken `bytes` more. -/
theorem Served.finish {ρ : Reading} {call : ReadCall} {r : Int} (h : Served d p (.inside (.read ρ)))
    (hg : Grows p d d') (hcalls : d'.calls = d.calls) {bytes : List UInt8}
    (hshare : share p d'.log = share p d.log ++ bytes) (htook : call.took = ρ.dst ++ bytes)
    (hright : call.Right d'.committed d'.log p) (hret : call.ret = r) :
    Served (d'.finish p call) p (.inside (.back r)) := by
  have hnow : (d'.finish p call).calls p = d.calls p ++ [call] := by
    rw [← hcalls]
    exact update_self ..
  refine ⟨?_, ?_, ?_⟩
  · change share p d'.log = _
    rw [hshare, h.account, hnow, List.flatMap_append, List.flatMap_singleton, htook]
    simp [stored]
  · intro c hc
    rw [hnow] at hc
    rcases List.mem_append.mp hc with hold | hlast
    · exact (h.calls c hold).grows (hg.finish call)
    · rw [List.mem_singleton] at hlast
      subst hlast
      exact hright
  · refine ⟨call, ?_, hret⟩
    rw [hnow]
    exact List.getLast?_concat

theorem stored_typing (h : pc.typing = true) : stored (.inside pc) = [] := by
  cases pc <;> first | rfl | cases h

omit [DecidableEq ι] in
theorem at_typing (h : pc.typing = true) (d : Console ι) (p : ι) :
    d.At p (.inside pc) := by
  cases pc <;> trivial

/-- A step of the handler, seen from the process it runs on. -/
theorem Served.typing (h : Served d p (.inside pc)) (hpc : pc.typing = true)
    (hpc' : pc'.typing = true) (hg : Grows p d d') (hlog : d'.log = d.log)
    (hcalls : d'.calls = d.calls) :
    Served d' p (.inside pc') := by
  refine ⟨?_, ?_, at_typing hpc' d' p⟩
  · rw [hlog, hcalls, h.account, stored_typing hpc, stored_typing hpc']
  · intro call hcall
    rw [hcalls] at hcall
    exact (h.calls call hcall).grows hg

theorem Ordinary.concat {bytes : List UInt8} {c : UInt8} (h : Ordinary bytes) (hnl : c ≠ newline)
    (heof : c ≠ ctrl 'D') : Ordinary (bytes ++ [c]) := by
  intro b hb
  rcases List.mem_append.mp hb with hold | hlast
  · exact h b hold
  · rw [List.mem_singleton] at hlast
    rw [hlast]
    exact ⟨hnl, heof⟩

/-- **The reader, step.** Its own account stays right. -/
theorem Served.moves (hd : d.OK) (h : Served d p (.inside pc)) (hm : Moves p d pc pc' d') :
    Served d' p (.inside pc') := by
  have hg := hm.grows
  cases hm with
  | idle hpc hpc' => exact h.typing hpc hpc' hg rfl rfl
  | erase hpc hpc' _ => exact h.typing hpc hpc' hg rfl rfl
  | put hpc hpc' c _ => exact h.typing hpc hpc' hg (put_log d c) (put_calls d c)
  | @killed ρ hn =>
    obtain ⟨hord, hsum, -⟩ := h.here
    refine h.finish (grows_refl p d) rfl (List.append_nil _).symm (List.append_nil _).symm ?_ rfl
    exact ⟨hord, show (ρ.dst.length : Int) < ρ.target by omega⟩
  | @kept ρ hn hne hc hlt =>
    obtain ⟨hord, hsum, -⟩ := h.here
    have hsome : ρ.dst ≠ [] := by
      rintro hnil
      rw [hnil] at hsum
      simp only [List.length_nil] at hsum
      omega
    refine h.finish (grows_refl p d) rfl (List.append_nil _).symm ?_ ?_ ?_
    · rw [List.append_nil]
      exact if_neg hsome
    · refine ⟨hord, show (ρ.dst.length : Int) < ρ.target by omega, ?_, fun hnil => ?_⟩
      · exact hd.committed_front hne hc
      · exact absurd hnil hsome
    · exact show (ρ.dst.length : Int) = ρ.target - ρ.n by omega
  | @eof ρ hn hne hc hlt =>
    obtain ⟨hord, hsum, -⟩ := h.here
    have hnil : ρ.dst = [] := by
      apply List.eq_nil_of_length_eq_zero
      omega
    refine h.finish (grows_take p d) rfl (share_concat_self p d.log _) ?_ ?_ ?_
    · rw [hnil, hc]
      rfl
    · refine ⟨hord, show (ρ.dst.length : Int) < ρ.target by omega, ?_, fun _ => ?_⟩
      · exact hd.committed_front hne hc
      · change (d.log ++ [(p, d.input.first)])[d.log.length]? = _
        rw [List.getElem?_concat_length, hc]
    · exact show (ρ.dst.length : Int) = ρ.target - ρ.n by omega
  | @newline ρ hn hne hc =>
    obtain ⟨hord, hsum, -⟩ := h.here
    refine h.finish (grows_take p d) rfl (share_concat_self p d.log _) rfl ?_ ?_
    · refine ⟨ρ.dst, hord, by rw [hc], ?_⟩
      change ((ρ.dst ++ [d.input.first]).length : Int) ≤ ρ.target
      rw [List.length_append, List.length_singleton]
      omega
    · change ((ρ.dst ++ [d.input.first]).length : Int) = _
      rw [List.length_append, List.length_singleton]
      omega
  | @byte ρ hn hne heof hnl =>
    obtain ⟨hord, hsum, -⟩ := h.here
    refine ⟨?_, fun call hcall => (h.calls call hcall).grows hg, ?_⟩
    · change share p (d.log ++ [_]) = _
      rw [share_concat_self, h.account, List.append_assoc]
      rfl
    · refine ⟨hord.concat hnl heof, ?_, .inr (show 0 ≤ ρ.n - 1 by omega)⟩
      change ρ.n - 1 + ((ρ.dst ++ [d.input.first]).length : Int) = ρ.target
      rw [List.length_append, List.length_singleton]
      omega
  | @count ρ hn =>
    obtain ⟨hord, hsum, hleft⟩ := h.here
    refine h.finish (grows_refl p d) rfl (List.append_nil _).symm (List.append_nil _).symm ?_ ?_
    · refine ⟨hord, show ρ.dst.length = ρ.target.toNat from ?_⟩
      rcases hleft with hnil | hle
      · rw [hnil] at hsum ⊢
        simp only [List.length_nil] at hsum ⊢
        omega
      · omega
    · exact show (ρ.dst.length : Int) = ρ.target - ρ.n by omega

end Readers

/-! ## §5  Runs -/

section Runs

variable {ι : Type*} [DecidableEq ι]

/-- The ring and all readers. -/
structure ConsoleOK (a : Atomic ι ConsolePc ConsoleResult (Console ι)) : Prop where
  data : a.data.OK
  readers : ∀ p, Served a.data p (a.place p)

/-- A step of `p` that changes the data. -/
theorem ConsoleOK.go {a : Atomic ι ConsolePc ConsoleResult (Console ι)} (h : ConsoleOK a) {p : ι}
    {pc pc' : ConsolePc} {d' : Console ι} (hplace : a.place p = .inside pc)
    (hm : Moves p a.data pc pc' d') : ConsoleOK ({ a with data := d' }.put p (.inside pc')) := by
  refine ⟨h.data.moves hm, fun q => ?_⟩
  by_cases hq : q = p
  · subst hq
    have hself := h.readers q
    rw [hplace] at hself
    change Served d' q (update a.place q _ q)
    rw [update_self]
    exact hself.moves h.data hm
  · change Served d' q (update a.place p _ q)
    rw [update_of_ne hq]
    exact (h.readers q).frame hm.grows hq

/-- A step of `p` that does not. -/
theorem ConsoleOK.move {a : Atomic ι ConsolePc ConsoleResult (Console ι)} (h : ConsoleOK a) {p : ι}
    {x : Place ConsolePc ConsoleResult} (hstored : stored x = stored (a.place p))
    (hat : a.data.At p x) : ConsoleOK (a.put p x) := by
  refine ⟨h.data, fun q => ?_⟩
  change Served a.data q (update a.place p x q)
  by_cases hq : q = p
  · subst hq
    rw [update_self]
    have hself := h.readers q
    refine ⟨?_, hself.calls, hat⟩
    rw [hstored]
    exact hself.account
  · rw [update_of_ne hq]
    exact h.readers q

/-- **Step.** -/
theorem ConsoleOK.step {a a' : Atomic ι ConsolePc ConsoleResult (Console ι)} {p : ι}
    (h : ConsoleOK a) (hstep : (atomic (consoleProgram ι)).step a p a') : ConsoleOK a' := by
  cases hplace : a.place p with
  | out o =>
    simp only [atomic, hplace] at hstep
    obtain ⟨pc, henter, rfl⟩ := hstep
    cases pc with
    | intr cs dump =>
      refine h.move ?_ trivial
      rw [hplace]
      rfl
    | read ρ =>
      simp only [consoleProgram, Bool.and_eq_true, decide_eq_true_eq, List.isEmpty_iff]
        at henter
      obtain ⟨hn, hdst⟩ := henter
      refine h.move ?_ ?_
      · rw [hplace]
        exact hdst
      · refine ⟨?_, ?_, .inl hdst⟩
        · rw [hdst]
          exact fun c hc => absurd hc List.not_mem_nil
        · rw [hdst, hn]
          exact Int.add_zero _
    | kill cs dump => cases henter
    | wake cs dump => cases henter
    | back r => cases henter
  | inside pc =>
    simp only [atomic, hplace] at hstep
    have hacts := acts p pc a.data
    generalize (consoleProgram ι).act p pc a.data = x at hacts hstep
    have hhere := (h.readers p).here
    rw [hplace] at hhere
    cases hacts with
    | go hm =>
      subst hstep
      exact h.go hplace hm
    | sleep | back =>
      subst hstep
      exact h.move (by rw [hplace]; rfl) hhere
    | wake | out =>
      subst hstep
      exact h.move (by rw [hplace]; rfl) trivial

variable {s : State ι ConsoleChan ConsolePc ConsoleResult (Console ι)}

theorem ConsoleOK.run {c : UInt32} {es : List (Monitor.Event ι ConsolePc)}
    (hrun : (system (consoleProgram ι)).Run (initial (consoleAt c) .none) es s) :
    ConsoleOK s.view := by
  obtain ⟨ps, hps⟩ := refines_atomic hrun
  refine hps.invariant (fun _ _ _ hs hstep => hs.step hstep) ⟨consoleAt_ok c, fun _ => ?_⟩
  exact ⟨rfl, fun _ hcall => absurd hcall List.not_mem_nil, trivial⟩

/-- A step leaves the data alone or is one of the moves. -/
theorem data_moves {s' : State ι ConsoleChan ConsolePc ConsoleResult (Console ι)}
    {e : Monitor.Event ι ConsolePc} (hstep : next (consoleProgram ι) s e = some s') :
    s'.data = s.data ∨ ∃ p pc pc', Moves p s.data pc pc' s'.data := by
  cases step_of_next hstep with
  | @go p pc pc' d' hloc hact =>
    have hacts := acts p pc s.data
    rw [hact] at hacts
    cases hacts with
    | go hm => exact .inr ⟨p, pc, pc', hm⟩
  | _ => exact .inl rfl

theorem pred_ne (e : UInt32) : e ≠ e - 1 := by
  have hlt := e.toNat_lt
  rw [Ne, ← UInt32.toNat_inj, UInt32.toNat_sub]
  change ¬ e.toNat = (2 ^ 32 - 1 + e.toNat) % 2 ^ 32
  omega

theorem succ_ne_pred (e : UInt32) : e + 1 ≠ e - 1 := by
  have hlt := e.toNat_lt
  rw [Ne, ← UInt32.toNat_inj, UInt32.toNat_sub, UInt32.toNat_add]
  change ¬ (e.toNat + 1) % 2 ^ 32 = (2 ^ 32 - 1 + e.toNat) % 2 ^ 32
  omega

/-- Only the erasing of a byte moves `e` back. -/
theorem Moves.erased {p : ι} {pc pc' : ConsolePc} {d d' : Console ι} (hm : Moves p d pc pc' d')
    (he : d'.input.e = d.input.e - 1) : d.input.e ≠ d.input.w ∧ d' = d.erase := by
  cases hm with
  | erase _ _ hne => exact ⟨hne, rfl⟩
  | put _ _ c _ =>
    have hput : (d.put c).input.e = d.input.e + 1 := by
      change Input.e (if _ then _ else _) = _
      split <;> rfl
    rw [hput] at he
    exact absurd he (succ_ne_pred _)
  | _ => exact absurd he (pred_ne _)

/-- **A `^D` ends a read**, and stays if there was something to return. -/
theorem read_eof (h : ConsoleOK s.view) {p : ι} {ρ : Reading} {rest : List UInt8}
    (hloc : s.loc p = .body (.read ρ)) (hn : 0 < ρ.n)
    (hunread : s.data.input.unread = ctrl 'D' :: rest) :
    ∃ s', next (consoleProgram ι) s (.proc p) = some s' ∧
      s'.loc p = .body (.back ρ.dst.length) ∧
      s'.data.input.unread = if ρ.dst = [] then rest else ctrl 'D' :: rest := by
  have hhere : s.data.At p (.inside (.read ρ)) := by
    have hp := (h.readers p).here
    change s.data.At p (s.loc p).place at hp
    rwa [hloc] at hp
  obtain ⟨-, hsum, -⟩ := hhere
  have hne : s.data.input.r ≠ s.data.input.w := by
    intro heq
    rw [Input.unread, heq, Ring.between_self] at hunread
    cases hunread
  rw [unread_eq hne] at hunread
  obtain ⟨hc, hrest⟩ := List.cons.inj hunread
  have hret : ρ.target - ρ.n = ρ.dst.length := by omega
  by_cases hnil : ρ.dst = []
  · have hge : ¬ ρ.n < ρ.target := by
      rw [hnil] at hsum
      simp only [List.length_nil] at hsum
      omega
    have hact : (consoleProgram ι).act p (.read ρ) s.data = .go (.back (ρ.target - ρ.n))
        ((s.data.take p).finish p ⟨ρ.target, ρ.dst, .eof s.data.log.length⟩) := by
      simp only [consoleProgram, if_pos hn, if_neg hne, if_pos hc, if_neg hge]
    refine ⟨_, next_go hloc hact, ?_, ?_⟩
    · rw [hret]
      exact update_self ..
    · rw [if_pos hnil]
      exact hrest
  · have hlt : ρ.n < ρ.target := by
      have := List.length_pos_iff.mpr hnil
      omega
    have hact : (consoleProgram ι).act p (.read ρ) s.data = .go (.back (ρ.target - ρ.n))
        ({ s.data with input := s.data.input.advance.putBack }.finish p
          ⟨ρ.target, ρ.dst, .eof s.data.log.length⟩) := by
      simp only [consoleProgram, if_pos hn, if_neg hne, if_pos hc, if_pos hlt]
    refine ⟨_, next_go hloc hact, ?_, ?_⟩
    · rw [hret]
      exact update_self ..
    · rw [if_neg hnil]
      change s.data.input.advance.putBack.unread = _
      rw [Input.advance_putBack, unread_eq hne, hc, hrest]

/-- The rest of the loop of `C('U')`. -/
theorem kill_steps {p : ι} {cs : List UInt8} {dump : Bool} : ∀ (n : Nat)
    {s : State ι ConsoleChan ConsolePc ConsoleResult (Console ι)}, s.data.OK →
    s.loc p = .body (.kill cs dump) → s.data.line.length = n →
    ∃ s', (system (consoleProgram ι)).Run s (List.replicate (n + 1) (.proc p)) s' ∧
      s'.loc p = .body (.intr cs dump) ∧ s'.data.line = [] ∧
      s'.data.committed = s.data.committed
  | 0, s, h, hloc, hn => by
    have hnil : s.data.line = [] := List.eq_nil_of_length_eq_zero hn
    have hstop := fun hmore => h.kill_iff.mp hmore hnil
    have hact : (consoleProgram ι).act p (.kill cs dump) s.data =
        .go (.intr cs dump) s.data := if_neg hstop
    exact ⟨_, .single (next_go hloc hact), update_self .., hnil, rfl⟩
  | n + 1, s, h, hloc, hn => by
    have hmore := h.kill_iff.mpr (List.ne_nil_of_length_eq_add_one hn)
    have hact : (consoleProgram ι).act p (.kill cs dump) s.data =
        .go (.kill cs dump) s.data.erase := if_pos hmore
    rw [Bool.and_eq_true, decide_eq_true_eq, decide_eq_true_eq] at hmore
    have hlen : s.data.line.dropLast.length = n := by
      rw [List.length_dropLast, hn, Nat.add_sub_cancel]
    have hstep : (system (consoleProgram ι)).step s (.proc p)
        ({ s with data := s.data.erase }.move p (.body (.kill cs dump))) := next_go hloc hact
    obtain ⟨s', hrest, hend⟩ := kill_steps n
      (s := { s with data := s.data.erase }.move p (.body (.kill cs dump)))
      (h.erase hmore.1) (update_self ..) hlen
    exact ⟨s', (System.Run.single hstep).append hrest, hend⟩

/-- **Kill line**: the loop of `C('U')` ends, with the whole line gone and
everything committed still there. -/
theorem consoleintr_kill {c : UInt32} {es : List (Monitor.Event ι ConsolePc)}
    (hrun : (system (consoleProgram ι)).Run (initial (consoleAt c) .none) es s) {p : ι}
    {cs : List UInt8} {dump : Bool} (hloc : s.loc p = .body (.kill cs dump)) :
    ∃ s', (system (consoleProgram ι)).Run s
        (List.replicate (s.data.line.length + 1) (.proc p)) s' ∧
      s'.loc p = .body (.intr cs dump) ∧ s'.data.line = [] ∧
      s'.data.committed = s.data.committed :=
  kill_steps _ (ConsoleOK.run hrun).data hloc rfl

/-- **The console's input.** Whatever is typed and read, by whom and in which
order, wherever the indices start and however often they wrap:

- at most `INPUT_BUF` bytes are in the ring, and `w` is between `r` and `e`;
- the bytes taken by readers and those from `r` to `w` are the committed bytes,
  in order, and from `w` to `e` stands the line;
- what a process took is what its calls stored, one after the other, and a `^D`
  for each call that found it first; every call was right to end when it did and
  returned as many bytes as it stored;
- a reader that comes to a `^D` ends its call, and takes it only if it has
  nothing else to return;
- no step changes what is committed, and one that moves `e` back takes one byte
  off the line and nothing else. -/
theorem console_committed (c : UInt32) {es : List (Monitor.Event ι ConsolePc)}
    {s : State ι ConsoleChan ConsolePc ConsoleResult (Console ι)}
    (hrun : (system (consoleProgram ι)).Run (initial (consoleAt c) .none) es s) :
    (s.data.input.e - s.data.input.r).toNat ≤ inputBuf ∧
    (s.data.input.w - s.data.input.r).toNat ≤ (s.data.input.e - s.data.input.r).toNat ∧
    s.data.committed = s.data.log.map Prod.snd ++ s.data.input.unread ∧
    s.data.line = s.data.input.edited ∧
    (∀ p, share p s.data.log =
      (s.data.calls p).flatMap ReadCall.took ++ stored (s.loc p).place) ∧
    (∀ p, ∀ call ∈ s.data.calls p, call.Right s.data.committed s.data.log p) ∧
    (∀ p r, s.loc p = .out (.read r) →
      ∃ call, (s.data.calls p).getLast? = some call ∧ call.ret = r) ∧
    (∀ p ρ rest, s.loc p = .body (.read ρ) → 0 < ρ.n →
      s.data.input.unread = ctrl 'D' :: rest →
      ∃ s', next (consoleProgram ι) s (.proc p) = some s' ∧
        s'.loc p = .body (.back ρ.dst.length) ∧
        s'.data.input.unread = if ρ.dst = [] then rest else ctrl 'D' :: rest) ∧
    ∀ e s', next (consoleProgram ι) s e = some s' →
      s.data.committed <+: s'.data.committed ∧
      (s'.data.input.e = s.data.input.e - 1 →
        s'.data.committed = s.data.committed ∧
        s'.data.input.unread = s.data.input.unread ∧
        ∃ b, s.data.line = s'.data.line ++ [b]) := by
  have h := ConsoleOK.run hrun
  have hd : s.data.OK := h.data
  have hdist := hd.distance
  have hle := hd.le
  refine ⟨by omega, by omega, hd.committed, hd.line, fun p => (h.readers p).account,
    fun p => (h.readers p).calls, ?_, fun p ρ rest => read_eof h, ?_⟩
  · intro p r hloc
    have hhere : s.data.At p (s.loc p).place := (h.readers p).here
    rw [hloc] at hhere
    exact hhere
  · intro e s' hstep
    rcases data_moves hstep with heq | ⟨p, pc, pc', hm⟩
    · rw [heq]
      exact ⟨List.prefix_refl _, fun he => absurd he (pred_ne _)⟩
    · refine ⟨hm.grows.committed, fun he => ?_⟩
      obtain ⟨hne, herase⟩ := hm.erased he
      rw [herase]
      exact ⟨rfl, rfl, _, hd.line_eq hne⟩

end Runs

/-- At the wrap of the indices somebody types `ab`, a backspace, `c` and `^D`;
process 1 reads twice. -/
def typeAndRead : List (Monitor.Event (Fin 2) ConsolePc) :=
  .enter 0 (.intr ['a'.toUInt8, 'b'.toUInt8, ctrl 'H', 'c'.toUInt8, ctrl 'D'] false) ::
      List.replicate 11 (.proc 0) ++
    .enter 1 (.read ⟨10, 10, [], fun _ => false⟩) :: List.replicate 5 (.proc 1) ++
    .enter 1 (.read ⟨10, 10, [], fun _ => false⟩) :: List.replicate 3 (.proc 1)

theorem console_committed_typeAndRead :
    ∃ s : State (Fin 2) ConsoleChan ConsolePc ConsoleResult (Console (Fin 2)),
      typeAndRead.foldlM (next (consoleProgram (Fin 2))) (initial (consoleAt 0xffffffff) .none) =
        some s ∧
      s.data.log = [(1, 'a'.toUInt8), (1, 'c'.toUInt8), (1, ctrl 'D')] ∧
      s.loc 1 = .out (.read 0) ∧
      s.data.committed = s.data.log.map Prod.snd ++ s.data.input.unread := by
  refine ⟨_, rfl, rfl, rfl, ?_⟩
  have hrun : (system (consoleProgram (Fin 2))).Run (initial (consoleAt 0xffffffff) .none)
    typeAndRead _ := run_of_foldlM rfl
  exact (console_committed 0xffffffff hrun).2.2.1

/-- `ab` and `^U` are typed. -/
theorem consoleintr_kill_two :
    ∃ s s' : State (Fin 1) ConsoleChan ConsolePc ConsoleResult (Console (Fin 1)),
      s.data.line.length = 2 ∧ (system (consoleProgram (Fin 1))).Run s [.proc 0, .proc 0, .proc 0] s' ∧
      s'.data.line = [] := by
  obtain ⟨s, hs, hloc, hline⟩ : ∃ s, (.enter 0 (.intr ['a'.toUInt8, 'b'.toUInt8, ctrl 'U'] false) ::
      List.replicate 4 (.proc 0)).foldlM (next (consoleProgram (Fin 1)))
        (initial (consoleAt 0) .none) = some s ∧ s.loc 0 = .body (.kill [] false) ∧
      s.data.line.length = 2 := ⟨_, rfl, rfl, rfl⟩
  obtain ⟨s', hrun, -, hend, -⟩ := consoleintr_kill (run_of_foldlM hs) hloc
  rw [hline] at hrun
  exact ⟨s, s', hline, hrun, hend⟩

end Xv6
