import Mathlib

/-!
# `grep.c`

The matcher takes a pattern apart while it runs. What a pattern means is said here
about its items: a byte or `.`, with or without a `*`, and a `$` at the end; and
`match` decides it (`matchText_iff`).

`grep` reads into a buffer, writes the lines in it that match, and carries the bytes
behind the last newline over to the next read. When a read leaves no newline in the
buffer it carries nothing over, as if the line were longer than the buffer: the
beginning of the line is lost. So `grep` is right for every pattern exactly if every
read brings a newline (`grep_right_iff`).

A string is the list of its bytes before the NUL.
-/

namespace Xv6.Grep

/-! ## §1  The matcher -/

/-- `c == '.' || c == t`. -/
def takes (c t : UInt8) : Bool := c = '.'.toUInt8 || c = t

/-- The loop of `matchstar(c, re, text)`; `here` is `matchhere(re, ·)`. -/
def matchstar (here : List UInt8 → Bool) (c : UInt8) : List UInt8 → Bool
  | [] => here []
  | t :: text => here (t :: text) || (takes c t && matchstar here c text)

/-- The last test of `matchhere`; `here` is `matchhere(re+1, ·)`. -/
def matchone (here : List UInt8 → Bool) (c : UInt8) : List UInt8 → Bool
  | [] => false
  | t :: text => takes c t && here text

def matchhere : List UInt8 → List UInt8 → Bool
  | [], _ => true
  | [c], text => if c = '$'.toUInt8 then text.isEmpty else matchone (matchhere []) c text
  | c :: d :: re, text =>
    if d = '*'.toUInt8 then matchstar (matchhere re) c text
    else matchone (matchhere (d :: re)) c text

/-- The loop of `match`. -/
def matchFrom (re : List UInt8) : List UInt8 → Bool
  | [] => matchhere re []
  | t :: text => matchhere re (t :: text) || matchFrom re text

/-- `match(re, text)`. -/
def matchText : List UInt8 → List UInt8 → Bool
  | [], text => matchFrom [] text
  | c :: re, text => if c = '^'.toUInt8 then matchhere re text else matchFrom (c :: re) text

/-! ## §2  What a pattern means -/

inductive Item where
  | one (c : UInt8)
  | many (c : UInt8)      -- followed by `*`
  | atEnd                 -- `$`

/-- The items of a pattern. The first byte of an item is taken as it stands, also `*`. -/
def items : List UInt8 → List Item
  | [] => []
  | [c] => if c = '$'.toUInt8 then [.atEnd] else [.one c]
  | c :: d :: re => if d = '*'.toUInt8 then .many c :: items re else .one c :: items (d :: re)

/-- The item matches `s`, with `rest` behind it. -/
def Item.Matches : Item → List UInt8 → List UInt8 → Prop
  | .one c, s, _ => ∃ t, s = [t] ∧ takes c t = true
  | .many c, s, _ => ∀ t ∈ s, takes c t = true
  | .atEnd, s, rest => s = [] ∧ rest = []

/-- The items match, one after the other, from the beginning of the text on. -/
def MatchHere : List Item → List UInt8 → Prop
  | [], _ => True
  | i :: is, text => ∃ s rest, text = s ++ rest ∧ i.Matches s rest ∧ MatchHere is rest

/-- After a leading `^` at the beginning of the text, otherwise at some place of it. -/
def Match (re text : List UInt8) : Prop :=
  if re.head? = some '^'.toUInt8 then MatchHere (items re.tail) text
  else ∃ skipped rest, text = skipped ++ rest ∧ MatchHere (items re) rest

variable {here : List UInt8 → Bool} {c : UInt8} {re text : List UInt8}

theorem matchone_iff : matchone here c text = true ↔
    ∃ s rest, text = s ++ rest ∧ (Item.one c).Matches s rest ∧ here rest = true := by
  cases text with
  | nil =>
    refine iff_of_false (by simp [matchone]) ?_
    rintro ⟨s, rest, htext, ⟨t, rfl, -⟩, -⟩
    cases htext
  | cons t text =>
    rw [matchone, Bool.and_eq_true]
    constructor
    · rintro ⟨ht, hrest⟩
      exact ⟨[t], text, rfl, ⟨t, rfl, ht⟩, hrest⟩
    · rintro ⟨s, rest, htext, ⟨t', rfl, ht⟩, hrest⟩
      cases htext
      exact ⟨ht, hrest⟩

/-- **`matchstar`** tries every number of bytes the starred item can take. -/
theorem matchstar_iff : matchstar here c text = true ↔
    ∃ s rest, text = s ++ rest ∧ (Item.many c).Matches s rest ∧ here rest = true := by
  induction text with
  | nil =>
    rw [matchstar]
    constructor
    · intro h
      exact ⟨[], [], rfl, by simp [Item.Matches], h⟩
    · rintro ⟨s, rest, htext, -, h⟩
      obtain ⟨-, rfl⟩ := List.append_eq_nil_iff.mp htext.symm
      exact h
  | cons t text ih =>
    rw [matchstar, Bool.or_eq_true, Bool.and_eq_true, ih]
    constructor
    · rintro (h | ⟨ht, s, rest, rfl, hs, h⟩)
      · exact ⟨[], t :: text, rfl, by simp [Item.Matches], h⟩
      · exact ⟨t :: s, rest, rfl, List.forall_mem_cons.mpr ⟨ht, hs⟩, h⟩
    · rintro ⟨s, rest, htext, hs, h⟩
      cases s with
      | nil =>
        rw [htext]
        exact .inl h
      | cons t' s =>
        cases htext
        obtain ⟨ht, hs⟩ := List.forall_mem_cons.mp hs
        exact .inr ⟨ht, s, rest, rfl, hs, h⟩

/-- **`matchhere`** decides a match at the beginning of the text. -/
theorem matchhere_iff : matchhere re text = true ↔ MatchHere (items re) text := by
  induction re using items.induct generalizing text with
  | case1 => simp [matchhere, items, MatchHere]
  | case2 =>
    simp only [matchhere, items, if_true, MatchHere, Item.Matches, and_true, List.isEmpty_iff]
    constructor
    · rintro rfl
      exact ⟨[], [], rfl, rfl, rfl⟩
    · rintro ⟨s, rest, rfl, rfl, rfl⟩
      rfl
  | case3 c hc => simp only [matchhere, items, hc, if_false, matchone_iff, MatchHere]
  | case4 c re ih => simp only [matchhere, items, if_true, matchstar_iff, MatchHere, ih]
  | case5 c d re hd ih => simp only [matchhere, items, hd, if_false, matchone_iff, MatchHere, ih]

/-- The loop of `match` is that of `matchstar` for `.`. -/
theorem matchFrom_eq : matchFrom re text = matchstar (matchhere re) '.'.toUInt8 text := by
  induction text with
  | nil => rfl
  | cons t text ih => simp [matchFrom, matchstar, takes, ih]

theorem matchFrom_iff : matchFrom re text = true ↔
    ∃ skipped rest, text = skipped ++ rest ∧ MatchHere (items re) rest := by
  rw [matchFrom_eq, matchstar_iff]
  simp [Item.Matches, takes, matchhere_iff]

/-- **`match` decides what the pattern means.** -/
theorem matchText_iff (re text : List UInt8) : matchText re text = true ↔ Match re text := by
  cases re with
  | nil => exact matchFrom_iff
  | cons c re =>
    simp only [matchText, Match, List.head?_cons, Option.some.injEq, List.tail_cons]
    split
    · exact matchhere_iff
    · exact matchFrom_iff

/-! ## §3  `grep` -/

def newline : UInt8 := '\n'.toUInt8

/-- `strchr(s, c)`: what stands before the byte it finds, and behind. -/
def strchr (c : UInt8) : List UInt8 → Option (List UInt8 × List UInt8)
  | [] => none
  | x :: s =>
    if x = 0 then none
    else if x = c then some ([], s)
    else (strchr c s).map fun r => (x :: r.1, r.2)

/-- The inner loop of `grep`: the lines from `p` on that are passed to `match`, and the
last `p`. -/
def lineLoop : Nat → List UInt8 → List (List UInt8) × List UInt8
  | 0, p => ([], p)
  | n + 1, p =>
    match strchr newline p with
    | none => ([], p)
    | some (line, rest) => (line :: (lineLoop n rest).1, (lineLoop n rest).2)

/-- Lines with their newlines. -/
def terminated (lines : List (List UInt8)) : List UInt8 := lines.flatMap (· ++ [newline])

/-- `if(match(pattern, p)) write(1, p, q+1 - p)`, for each of the lines. -/
def writes (re : List UInt8) (lines : List (List UInt8)) : List UInt8 :=
  terminated (lines.filter (matchText re))

/-- The bytes at the beginning of the buffer for the next `read`. -/
def carried (buf : List UInt8) : List UInt8 :=
  let (lines, p) := lineLoop buf.length buf
  -- if(p == buf) m = 0
  if lines = [] then [] else p

/-- The outer loop: what is written when `read` returns `reads`, the buffer holding
`buf`. -/
def grepLoop (re : List UInt8) : List UInt8 → List (List UInt8) → List UInt8
  | _, [] => []
  | buf, r :: reads =>
    writes re (lineLoop (buf ++ r).length (buf ++ r)).1 ++ grepLoop re (carried (buf ++ r)) reads

def grep (re : List UInt8) (reads : List (List UInt8)) : List UInt8 := grepLoop re [] reads

/-- `read` returns at least a byte, and no more than there is room for. -/
def Reads : List UInt8 → List (List UInt8) → Prop
  | _, [] => True
  | buf, r :: reads =>
    r ≠ [] ∧ r.length ≤ 1024 - buf.length - 1 ∧ Reads (carried (buf ++ r)) reads

/-- `s` is the lines, and `p` behind the last newline. -/
structure Split (s : List UInt8) (lines : List (List UInt8)) (p : List UInt8) : Prop where
  eq : s = terminated lines ++ p
  line : ∀ line ∈ lines, newline ∉ line
  rest : newline ∉ p

variable {s p buf : List UInt8} {lines ls : List (List UInt8)} {reads : List (List UInt8)}

/-- Every string is split in some way. -/
theorem exists_split (s : List UInt8) : ∃ lines p, Split s lines p := by
  induction s with
  | nil => exact ⟨[], [], rfl, by simp, by simp⟩
  | cons x s ih =>
    obtain ⟨lines, p, rfl, hlines, hp⟩ := ih
    by_cases hx : newline = x
    · exact ⟨[] :: lines, p, by rw [← hx]; rfl, by simpa using hlines, hp⟩
    · cases lines with
      | nil => exact ⟨[], x :: p, rfl, by simp, by simp [hx, hp]⟩
      | cons line lines =>
        rw [List.forall_mem_cons] at hlines
        refine ⟨(x :: line) :: lines, p, rfl, ?_, hp⟩
        exact List.forall_mem_cons.mpr ⟨by simp [hx, hlines.1], hlines.2⟩

theorem strchr_line {line : List UInt8} (hnl : newline ∉ line) (h0 : 0 ∉ line)
    (rest : List UInt8) : strchr newline (line ++ newline :: rest) = some (line, rest) := by
  induction line with
  | nil => rfl
  | cons x line ih =>
    rw [List.mem_cons, not_or] at hnl h0
    rw [List.cons_append, strchr, if_neg (Ne.symm h0.1), if_neg (Ne.symm hnl.1), ih hnl.2 h0.2]
    rfl

theorem strchr_none (hnl : newline ∉ s) : strchr newline s = none := by
  induction s with
  | nil => rfl
  | cons x s ih =>
    rw [List.mem_cons, not_or] at hnl
    rw [strchr, if_neg (Ne.symm hnl.1), ih hnl.2]
    exact ite_self none

/-- **The inner loop** finds the lines of the buffer. -/
theorem lineLoop_eq {n : Nat} (h : Split s lines p) (h0 : 0 ∉ s) (hn : s.length ≤ n) :
    lineLoop n s = (lines, p) := by
  obtain ⟨rfl, hlines, hp⟩ := h
  induction lines generalizing n with
  | nil =>
    cases n with
    | zero => rfl
    | succ n => rw [lineLoop, show terminated [] ++ p = p from rfl, strchr_none hp]
  | cons line lines ih =>
    obtain ⟨hline, hlines⟩ := List.forall_mem_cons.mp hlines
    have hs : terminated (line :: lines) ++ p = line ++ newline :: (terminated lines ++ p) := by
      simp [terminated]
    rw [hs] at h0 hn ⊢
    rw [List.mem_append, not_or, List.mem_cons, not_or] at h0
    rw [List.length_append, List.length_cons] at hn
    cases n with
    | zero => omega
    | succ n =>
      have hrest := ih (n := n) hlines h0.2.2 (by omega)
      simp only [lineLoop, strchr_line hline h0.1, hrest]

theorem Split.append {q : List UInt8} (h : Split s lines p) (h' : Split (p ++ buf) ls q) :
    Split (s ++ buf) (lines ++ ls) q := by
  refine ⟨?_, fun line hline => ?_, h'.rest⟩
  · rw [h.eq, List.append_assoc, h'.eq, terminated, terminated, terminated, List.flatMap_append,
      List.append_assoc]
  · rcases List.mem_append.mp hline with hline | hline
    · exact h.line line hline
    · exact h'.line line hline

/-- **Step**: the lines of the buffer are written if they match, and what is behind them is
carried over if there was a newline. -/
theorem grepLoop_step {r : List UInt8} (hbuf : newline ∉ buf) (h0 : 0 ∉ buf ++ r) :
    ∃ lines p, Split (buf ++ r) lines p ∧ 0 ∉ p ∧ (lines = [] ↔ newline ∉ r) ∧
      ∀ re reads, grepLoop re buf (r :: reads) =
        writes re lines ++ grepLoop re (if newline ∈ r then p else []) reads := by
  obtain ⟨lines, p, h⟩ := exists_split (buf ++ r)
  have hloop := lineLoop_eq h h0 (Nat.le_refl _)
  have hnone : lines = [] ↔ newline ∉ r := by
    constructor
    · rintro rfl hr
      have heq : buf ++ r = p := h.eq
      exact h.rest (heq ▸ List.mem_append_right _ hr)
    · intro hr
      cases lines with
      | nil => rfl
      | cons line lines =>
        have hmem : newline ∈ buf ++ r := by simp [h.eq, terminated]
        exact ((List.mem_append.mp hmem).elim hbuf hr).elim
  refine ⟨lines, p, h, fun hp => h0 ?_, hnone, fun re reads => ?_⟩
  · rw [h.eq]
    exact List.mem_append_right _ hp
  · simp only [grepLoop, carried, hloop, hnone, ite_not]

/-- **Run**: if every read brings a newline, the lines that are passed to `match` are those
of the stream. -/
theorem grepLoop_right (re : List UInt8) (hbuf : newline ∉ buf) (h0 : 0 ∉ buf)
    (hreads : ∀ r ∈ reads, 0 ∉ r ∧ newline ∈ r) :
    ∃ lines p, Split (buf ++ reads.flatten) lines p ∧ grepLoop re buf reads = writes re lines := by
  induction reads generalizing buf with
  | nil => exact ⟨[], buf, ⟨by simp [terminated], by simp, hbuf⟩, rfl⟩
  | cons r reads ih =>
    obtain ⟨hr, hreads⟩ := List.forall_mem_cons.mp hreads
    obtain ⟨lines, p, hsplit, hp, -, hstep⟩ := grepLoop_step (r := r) hbuf (by simp [h0, hr.1])
    obtain ⟨ls, q, hrest, hloop⟩ := ih hsplit.rest hp hreads
    refine ⟨lines ++ ls, q, ?_, ?_⟩
    · rw [List.flatten_cons, ← List.append_assoc]
      exact hsplit.append hrest
    · rw [hstep, if_pos hr.2, hloop]
      simp [writes, terminated]

/-- **Run**: every read that brings no newline loses a byte at least, which the empty
pattern shows. -/
theorem grepLoop_length (hbuf : newline ∉ buf) (h0 : 0 ∉ buf)
    (hreads : ∀ r ∈ reads, 0 ∉ r ∧ r ≠ []) :
    (grepLoop [] buf reads).length + reads.countP (newline ∉ ·) ≤
      buf.length + reads.flatten.length := by
  induction reads generalizing buf with
  | nil => simp [grepLoop]
  | cons r reads ih =>
    obtain ⟨⟨hr0, hr⟩, hreads⟩ := List.forall_mem_cons.mp hreads
    obtain ⟨lines, p, hsplit, hp, hnone, hstep⟩ := grepLoop_step (r := r) hbuf (by simp [h0, hr0])
    have hall : writes [] lines = terminated lines := by
      rw [writes, List.filter_eq_self.mpr fun line _ => by cases line <;> rfl]
    have hlen := congrArg List.length hsplit.eq
    have hpos := List.length_pos_iff.mpr hr
    rw [List.length_append, List.length_append] at hlen
    rw [hstep, hall, List.length_append, List.flatten_cons, List.length_append]
    by_cases hnl : newline ∈ r
    · have := ih hsplit.rest hp hreads
      rw [if_pos hnl, List.countP_cons_of_neg (by simpa using hnl)]
      omega
    · have := ih List.not_mem_nil List.not_mem_nil hreads
      rw [if_neg hnl, List.countP_cons_of_pos (by simpa using hnl), hnone.mpr hnl]
      simp only [terminated, List.flatMap_nil, List.length_nil] at this ⊢
      omega

theorem Reads.ne_nil (h : Reads buf reads) : ∀ r ∈ reads, r ≠ [] := by
  induction reads generalizing buf with
  | nil => simp
  | cons r reads ih => exact List.forall_mem_cons.mpr ⟨h.1, ih h.2.2⟩

/-- **`grep` is right for every pattern exactly if every read brings a newline**, on a
stream of lines that fit into the buffer. -/
theorem grep_right_iff (hls : ∀ l ∈ ls, l.length < 1023 ∧ newline ∉ l ∧ 0 ∉ l)
    (hreads : Reads [] reads) (hstream : reads.flatten = terminated ls) :
    (∀ re, grep re reads = terminated (ls.filter (matchText re))) ↔ ∀ r ∈ reads, newline ∈ r := by
  have hsplit : Split reads.flatten ls [] :=
    ⟨by rw [hstream, List.append_nil], fun l hl => (hls l hl).2.1, List.not_mem_nil⟩
  have h0 : 0 ∉ reads.flatten := by
    rw [hstream, terminated, List.mem_flatMap]
    rintro ⟨l, hl, h⟩
    rcases List.mem_append.mp h with h | h
    · exact (hls l hl).2.2 h
    · exact absurd (List.mem_singleton.mp h) (by decide)
  have hr0 : ∀ r ∈ reads, 0 ∉ r := fun r hr h => h0 (List.mem_flatten.mpr ⟨r, hr, h⟩)
  constructor
  · intro hright
    have hlen := grepLoop_length List.not_mem_nil List.not_mem_nil fun r hr =>
      ⟨hr0 r hr, hreads.ne_nil r hr⟩
    have hempty : grepLoop [] [] reads = terminated ls := by
      rw [← grep, hright, List.filter_eq_self.mpr fun line _ => by cases line <;> rfl]
    rw [hempty, hstream, List.length_nil, Nat.zero_add] at hlen
    have hnone : reads.countP (newline ∉ ·) = 0 := by omega
    simpa [List.countP_eq_zero] using hnone
  · intro hnl re
    obtain ⟨lines, p, hlines, hloop⟩ := grepLoop_right re List.not_mem_nil List.not_mem_nil
      fun r hr => ⟨hr0 r hr, hnl r hr⟩
    rw [List.nil_append] at hlines
    have heq := (lineLoop_eq hlines h0 (Nat.le_refl _)).symm.trans (lineLoop_eq hsplit h0 (Nat.le_refl _))
    rw [grep, hloop, writes, (Prod.mk.inj heq).1]

/-- `ab`, `c` and `d`, read in two pieces. -/
theorem grep_right_two : Reads [] [[97, 98, 10, 99], [10, 100, 10]] ∧ ∀ re,
    grep re [[97, 98, 10, 99], [10, 100, 10]] =
      terminated ([[97, 98], [99], [100]].filter (matchText re)) := by
  have hreads : Reads [] [[97, 98, 10, 99], [10, 100, 10]] :=
    ⟨by decide, by decide, by decide, by decide, trivial⟩
  exact ⟨hreads, (@grep_right_iff [[97, 98], [99], [100]] _ (by decide) hreads rfl).mpr (by decide)⟩

end Xv6.Grep
