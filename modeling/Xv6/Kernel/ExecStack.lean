import Xv6.Kernel.ExecArgs

/-!
# The stack of a new program

When strings and words fit on the stack page, `exec` leaves them there as
`main` expects them (`StackHolds`): the return address, `argc`, the pointer to
`argv`, the pointers, a 0, and above them the strings, the first argument
highest. When they do not fit, and no string is as long as the image, `exec`
fails and has changed nothing of the caller.
-/

namespace Xv6

open Outcome Function

/-! ## §1  Where the strings go -/

/-- The bytes that a string of `n` characters takes on the stack. -/
def strRoom (n : Nat) : Nat := (n + 1 + 3) / 4 * 4

def argRoom (argv : List (List UInt8)) : Nat := (argv.map fun a => strRoom a.length).sum

/-- The bytes for the strings and the words. -/
def stackRoom (argv : List (List UInt8)) : Nat := argRoom argv + 4 * (4 + argv.length)

/-- The strings and the pointer array fit. -/
def StackFits (argv : List (List UInt8)) : Prop := argv.length ≤ 32 ∧ stackRoom argv ≤ pgSize

/-- The addresses of the strings, pushed from `sp` down. -/
def place : List (List UInt8) → Nat → List Nat
  | [], _ => []
  | a :: argv, sp => (sp - strRoom a.length) :: place argv (sp - strRoom a.length)

theorem length_place (argv : List (List UInt8)) (sp : Nat) : (place argv sp).length = argv.length := by
  induction argv generalizing sp with
  | nil => rfl
  | cons a argv ih => rw [place, List.length_cons, ih, List.length_cons]

theorem strAddr_room {sp n : Nat} (hsp : sp < kernBase) (halign : sp % 4 = 0)
    (h : strRoom n ≤ sp) : strAddr sp n = sp - strRoom n := by
  simp only [strRoom] at *
  rw [strAddr_of_le hsp (by omega)]
  omega

theorem argRoom_nil : argRoom [] = 0 := rfl

theorem argRoom_cons (a : List UInt8) (argv : List (List UInt8)) :
    argRoom (a :: argv) = strRoom a.length + argRoom argv := by
  rw [argRoom, List.map_cons, List.sum_cons]
  rfl

/-- A string and its place: aligned, above where the strings end, and below
where they started. -/
structure Placed (lo hi : Nat) (a : List UInt8) (p : Nat) : Prop where
  aligned : p % 4 = 0
  low : lo ≤ p
  high : p + (a.length + 1) ≤ hi

/-- Every string has its place, and each ends where the one before it begins. -/
theorem place_placed (argv : List (List UInt8)) (sp : Nat) (halign : sp % 4 = 0)
    (h : argRoom argv ≤ sp) :
    List.Forall₂ (Placed (sp - argRoom argv) sp) argv (place argv sp) ∧
      (argv.zip (place argv sp)).Pairwise fun x y => y.2 + (y.1.length + 1) ≤ x.2 := by
  induction argv generalizing sp with
  | nil => exact ⟨.nil, .nil⟩
  | cons a argv ih =>
    rw [argRoom_cons] at h ⊢
    have hroom : a.length + 1 ≤ strRoom a.length ∧ strRoom a.length % 4 = 0 := by
      simp only [strRoom]
      omega
    obtain ⟨hrest, hpair⟩ := ih (sp - strRoom a.length) (by omega) (by omega)
    constructor
    · refine .cons ⟨by omega, by omega, by omega⟩ ?_
      exact hrest.imp fun b p hp =>
        ⟨hp.aligned, by have := hp.low; omega, by have := hp.high; omega⟩
    · exact .cons (fun x hx => (List.forall₂_zip hrest hx).high) hpair

/-! ## §2  What is written -/

/-- The bytes `bs` from offset `off` of a page on. -/
def BytesAt (c : Page) (off : Nat) (bs : List UInt8) : Prop :=
  ∀ j < bs.length, c (off + j) = bs.getD j 0

/-- Only bytes of the page `f` below `off` were written. -/
structure PushedBelow (f off : Nat) (m m' : Mem) : Prop where
  other : ∀ g, g ≠ f → m'.ram g = m.ram g
  above : ∀ o, off ≤ o → m'.ram f o = m.ram f o

theorem PushedBelow.trans {f off off' : Nat} {m m' m'' : Mem} (h : PushedBelow f off m m')
    (h' : PushedBelow f off' m' m'') (hle : off' ≤ off) : PushedBelow f off m m'' where
  other g hg := (h'.other g hg).trans (h.other g hg)
  above o ho := (h'.above o (hle.trans ho)).trans (h.above o ho)

theorem BytesAt.kept {f off off' : Nat} {m m' : Mem} {bs : List UInt8}
    (h : BytesAt (m.ram f) off' bs) (hp : PushedBelow f off m m') (hle : off ≤ off') :
    BytesAt (m'.ram f) off' bs := fun j hj =>
  (hp.above _ (hle.trans (Nat.le_add_right _ _))).trans (h j hj)

/-- A store below `hi`. -/
theorem store_pushed (f off hi : Nat) (m : Mem) (bs : List UInt8) (h : off + bs.length ≤ hi) :
    PushedBelow f hi m (m.store f off bs.length fun o => bs.getD o 0) ∧
      BytesAt ((m.store f off bs.length fun o => bs.getD o 0).ram f) off bs := by
  refine ⟨⟨fun g hg => update_of_ne hg .., fun o ho => ?_⟩, fun j hj => ?_⟩
  · simp only [Mem.store, update_self]
    rw [if_neg (by omega)]
  · simp only [Mem.store, update_self]
    rw [if_pos (by omega), Nat.add_sub_cancel_left]

variable [Image]

section Push

variable {pg : PgDir} {sz f : Nat} (h : NewSpace pg sz) (hf : IsFrame f)
  (hstack : pg.page (sz / pgSize - 1) = .map (v2p f) permWU)

include h hf hstack

/-- **Strings and words that fit** are pushed, each below the one before. -/
theorem NewSpace.pushArgs_fits (cur : PgDir) (argv : List (List UInt8)) (sp : Nat) (ptrs : List Nat)
    (m : Mem)
    (hhigh : sp ≤ sz) (halign : sp % 4 = 0) (hargc : ptrs.length + argv.length ≤ 32)
    (hroom : sz - pgSize + argRoom argv + 4 * (4 + (ptrs.length + argv.length)) ≤ sp) :
    ∃ m', pushArgs cur pg argv sp ptrs m =
        .ok (some (sp - argRoom argv - 4 * (4 + (ptrs.length + argv.length))), m') ∧
      PushedBelow f (sp - (sz - pgSize)) m m' ∧
      List.Forall₂ (fun a p => BytesAt (m'.ram f) (p - (sz - pgSize)) (a ++ [0])) argv
        (place argv sp) ∧
      BytesAt (m'.ram f)
        (sp - argRoom argv - 4 * (4 + (ptrs.length + argv.length)) - (sz - pgSize))
        ((ustack (sp - argRoom argv) (ptrs ++ place argv sp)).flatMap wordBytes) := by
  have hlt := h.image.lt
  induction argv generalizing sp ptrs m with
  | nil =>
    rw [argRoom_nil, List.length_nil, Nat.add_zero, Nat.add_zero] at hroom
    rw [argRoom_nil, List.length_nil, Nat.add_zero, Nat.sub_zero]
    have hsize := length_ustack_bytes sp ptrs
    have haddr : ustackAddr sp ptrs = sp - 4 * (4 + ptrs.length) :=
      ustackAddr_of_le (by omega) (by omega)
    have hrun := (h.copyout_stack cur (ustackAddr sp ptrs)
      ((ustack sp ptrs).flatMap wordBytes) m hf hstack (by omega) (by omega) (by omega)).1
    obtain ⟨hpushed, hbytes⟩ := store_pushed f
      (ustackAddr sp ptrs - (sz - pgSize)) (sp - (sz - pgSize)) m
      ((ustack sp ptrs).flatMap wordBytes) (by omega)
    refine ⟨_, ?_, hpushed, .nil, ?_⟩
    · rw [pushArgs, hrun, bind_of_ok, ← haddr]
      exact if_pos rfl
    · rw [place, List.append_nil, ← haddr]
      exact hbytes
  | cons a argv ih =>
    rw [argRoom_cons, List.length_cons] at hroom
    rw [List.length_cons] at hargc
    have hstr : a.length + 1 ≤ strRoom a.length ∧ strRoom a.length % 4 = 0 := by
      simp only [strRoom]
      omega
    have hbuf : (a ++ [0]).length = a.length + 1 := by simp
    have haddr : strAddr sp a.length = sp - strRoom a.length :=
      strAddr_room (by omega) halign (by omega)
    have hrun := (h.copyout_stack cur (sp - strRoom a.length) (a ++ [0]) m hf hstack
      (by omega) (by omega) (by omega)).1
    obtain ⟨hpushed₁, hbytes₁⟩ := store_pushed f
      (sp - strRoom a.length - (sz - pgSize)) (sp - (sz - pgSize)) m
      (a ++ [0]) (by omega)
    generalize m.store f _ _ _ = m₁ at hrun hpushed₁ hbytes₁
    have hcount : (ptrs ++ [sp - strRoom a.length]).length + argv.length =
        ptrs.length + (argv.length + 1) := by
      rw [List.length_append, List.length_singleton]
      omega
    obtain ⟨m', hrest, hpushed, hstrings, hwords⟩ := ih (sp - strRoom a.length)
      (ptrs ++ [sp - strRoom a.length]) m₁ (by omega) (by omega) (by omega)
      (by rw [hcount]; omega)
    have hsub : sp - strRoom a.length - argRoom argv = sp - argRoom (a :: argv) := by
      rw [argRoom_cons]
      omega
    rw [hcount, hsub] at hrest hwords
    rw [List.append_assoc, List.singleton_append] at hwords
    refine ⟨m', ?_, hpushed₁.trans hpushed (by omega), .cons ?_ hstrings, hwords⟩
    · rw [pushArgs, if_neg (by omega), haddr, hrun, bind_of_ok]
      exact (if_pos rfl).trans hrest
    · exact hbytes₁.kept hpushed (Nat.le_refl _)

omit hf hstack in
/-- **Strings or words that do not fit** are refused, where the strings land
outside the gap. -/
theorem NewSpace.pushArgs_misfits (cur : PgDir) (argv : List (List UInt8)) (sp : Nat)
    (ptrs : List Nat) (m : Mem)
    (hlow : sz - pgSize ≤ sp) (hhigh : sp ≤ sz) (halign : sp % 4 = 0) (hptrs : ptrs.length ≤ 32)
    (hlen : ∀ a ∈ argv, a.length < sz)
    (hroom : ¬ (ptrs.length + argv.length ≤ 32 ∧
      sz - pgSize + argRoom argv + 4 * (4 + (ptrs.length + argv.length)) ≤ sp)) :
    ∃ m', pushArgs cur pg argv sp ptrs m = .ok (none, m') := by
  have hlt := h.image.lt
  have htwo := h.two
  have hsz := h.aligned
  obtain ⟨f, hf, hstack⟩ := h.stack
  induction argv generalizing sp ptrs m with
  | nil =>
    have hsize := length_ustack_bytes sp ptrs
    rw [argRoom_nil, List.length_nil, Nat.add_zero, Nat.add_zero] at hroom
    have haddr : ustackAddr sp ptrs = sp - 4 * (4 + ptrs.length) :=
      ustackAddr_of_le (by omega) (by simp only [pgSize] at *; omega)
    have hend : ustackAddr sp ptrs + 4 * (4 + ptrs.length) = sp := by
      simp only [pgSize] at *
      omega
    obtain ⟨⟨m', hrun⟩, -⟩ := h.copyout_below cur (ustackAddr sp ptrs)
      ((ustack sp ptrs).flatMap wordBytes) m (by omega)
      (by simp only [pgSize] at *; omega) (by omega)
    refine ⟨m', ?_⟩
    rw [pushArgs, hrun, bind_of_ok]
    exact if_neg Bool.false_ne_true
  | cons a argv ih =>
    obtain ⟨ha, hlen⟩ := List.forall_mem_cons.mp hlen
    have hbuf : (a ++ [0]).length = a.length + 1 := by simp
    rw [pushArgs]
    by_cases hmax : 32 ≤ ptrs.length
    · rw [if_pos hmax]
      exact ⟨m, rfl⟩
    rw [if_neg hmax]
    have hstr : a.length + 1 ≤ strRoom a.length ∧ strRoom a.length ≤ a.length + 4 ∧
        strRoom a.length % 4 = 0 := by
      simp only [strRoom]
      omega
    by_cases hfit : sz - pgSize + strRoom a.length ≤ sp
    · have haddr : strAddr sp a.length = sp - strRoom a.length :=
        strAddr_room (by omega) halign (by omega)
      have hrun := (h.copyout_stack cur (sp - strRoom a.length) (a ++ [0]) m hf hstack
        (by omega) (by omega) (by omega)).1
      generalize m.store f _ _ _ = m₁ at hrun
      rw [haddr, hrun, bind_of_ok]
      have hone : (ptrs ++ [sp - strRoom a.length]).length = ptrs.length + 1 :=
        List.length_append
      rw [argRoom_cons, List.length_cons] at hroom
      obtain ⟨m', hrest⟩ := ih (sp - strRoom a.length)
        (ptrs ++ [sp - strRoom a.length]) m₁ (by omega) (by omega) (by omega)
        (by omega) hlen (by rw [hone]; omega)
      exact ⟨m', (if_pos rfl).trans hrest⟩
    · have hfails : ∃ m', copyout cur pg (strAddr sp a.length) (a ++ [0]) m = .ok (false, m') := by
        by_cases hzero : a.length + 1 ≤ sp
        · have haddr := strAddr_of_le (show sp < kernBase by omega) hzero
          refine (h.copyout_below cur _ _ m ?_ ?_ (by omega)).1
          · rw [haddr]
            simp only [strRoom, pgSize] at *
            omega
          · rw [haddr, hbuf]
            simp only [pgSize] at *
            omega
        · -- less than a page below 0: among the devices
          have haddr := strAddr_of_lt (show a.length < kernBase by omega)
            (show sp < a.length + 1 by omega)
          refine (h.copyout_high cur _ _ m ?_ ?_ (.inr ?_) (by omega)).1 <;> rw [haddr] <;>
            simp only [kernBase, devSpace, pgSize] at * <;> omega
      obtain ⟨m', hrun⟩ := hfails
      refine ⟨m', ?_⟩
      rw [hrun, bind_of_ok]
      exact if_neg Bool.false_ne_true

end Push

/-! ## §3  What the program finds -/

/-- A byte of the user's memory; `none` where the user may not read. -/
def userByte (pg : PgDir) (m : Mem) (va : Nat) : Option UInt8 :=
  let e := pg.entry va
  if e.p && e.u then some (m.ram (p2v e.pa) (va % pgSize)) else none

/-- A word of the user's memory. -/
def userWord (pg : PgDir) (m : Mem) (va : Nat) : Option Nat := do
  let b₀ ← userByte pg m va
  let b₁ ← userByte pg m (va + 1)
  let b₂ ← userByte pg m (va + 2)
  let b₃ ← userByte pg m (va + 3)
  some (b₀.toNat + 2 ^ 8 * b₁.toNat + 2 ^ 16 * b₂.toNat + 2 ^ 24 * b₃.toNat)

/-- **The stack of a new program**, from `sp` up: the return address, `argc`, the
pointer to `argv`, the pointers and a 0; then the strings, with their NUL, apart
from the words and from each other. All of it is on the page below `sz`, and the
page below that is not the user's. -/
structure StackHolds (pg : PgDir) (m : Mem) (sz sp : Nat) (argv : List (List UInt8)) : Prop where
  low : sz - pgSize ≤ sp
  returnPc : userWord pg m sp = some 0xffffffff
  argc : userWord pg m (sp + 4) = some argv.length
  argvPtr : userWord pg m (sp + 8) = some (sp + 12)
  null : userWord pg m (sp + 12 + 4 * argv.length) = some 0
  strings : ∃ ptr : Fin argv.length → Nat,
    (∀ i : Fin argv.length, userWord pg m (sp + 12 + 4 * (i : Nat)) = some (ptr i)) ∧
    (∀ i, ptr i % 4 = 0 ∧ sp + 12 + 4 * argv.length + 4 ≤ ptr i ∧
      ptr i + (argv.get i).length + 1 ≤ sz) ∧
    (∀ i, (∀ j < (argv.get i).length, userByte pg m (ptr i + j) = some ((argv.get i).getD j 0)) ∧
      userByte pg m (ptr i + (argv.get i).length) = some 0) ∧
    ∀ i j, i < j → ptr j + (argv.get j).length + 1 ≤ ptr i
  guard : (pg.page (sz / pgSize - 2)).u = false

omit [Image] in
theorem ustack_argv (sp : Nat) (ptrs : List Nat) :
    (ustack sp ptrs).getD 2 0 = (sp + 2 ^ 32 - (ptrs.length + 1) * 4) % 2 ^ 32 := by
  rw [ustack, List.cons_append, List.cons_append, List.cons_append, List.cons_append,
    List.cons_append, List.cons_append, List.getD_cons_succ, List.getD_cons_succ,
    List.getD_cons_zero]

omit [Image] in
/-- The bytes of the words in a row. -/
theorem getD_flatMap_wordBytes {ws : List Nat} {i : Nat} (hi : i < ws.length) {k : Nat} (hk : k < 4) :
    (ws.flatMap wordBytes).getD (4 * i + k) 0 = (wordBytes (ws.getD i 0)).getD k 0 := by
  induction ws generalizing i with
  | nil => exact absurd hi (Nat.not_lt_zero _)
  | cons w ws ih =>
    have hfour : (wordBytes w).length = 4 := rfl
    rw [List.flatMap_cons]
    cases i with
    | zero =>
      rw [Nat.mul_zero, Nat.zero_add, List.getD_append _ _ _ _ (by omega)]
      rfl
    | succ i =>
      rw [List.getD_append_right _ _ _ _ (by omega), hfour,
        show 4 * (i + 1) + k - 4 = 4 * i + k by omega]
      exact ih (Nat.lt_of_succ_lt_succ hi)

omit [Image] in
theorem wordBytes_value {w : Nat} (hw : w < 2 ^ 32) :
    (((wordBytes w).getD 0 0).toNat + 2 ^ 8 * ((wordBytes w).getD 1 0).toNat +
      2 ^ 16 * ((wordBytes w).getD 2 0).toNat + 2 ^ 24 * ((wordBytes w).getD 3 0).toNat) = w := by
  simp only [wordBytes, List.getD_cons_zero, List.getD_cons_succ, UInt8.toNat_ofNat']
  omega

section Read

variable {pg : PgDir} {sz f : Nat} {m : Mem} (h : NewSpace pg sz) (hf : IsFrame f)
  (hstack : pg.page (sz / pgSize - 1) = .map (v2p f) permWU)

include h hf hstack

/-- A byte of the stack page. -/
theorem NewSpace.userByte_stack {o : Nat} (ho : o < pgSize) :
    userByte pg m (sz - pgSize + o) = some (m.ram f o) := by
  obtain ⟨g, rfl, hg, -⟩ := h.pages
  have hbase : (g + 2) * pgSize - pgSize = (g + 1) * pgSize := by
    simp only [pgSize]
    omega
  have hnum : (g + 2) * pgSize / pgSize - 1 = g + 1 := by
    simp only [pgSize]
    omega
  have hpdx : pdx ((g + 1) * pgSize + o) = pdx ((g + 1) * pgSize) := by
    simp only [pdx, pgSize] at *
    omega
  have hptx : ptx ((g + 1) * pgSize + o) = ptx ((g + 1) * pgSize) := by
    simp only [ptx, pgSize] at *
    omega
  have hmod : ((g + 1) * pgSize + o) % pgSize = o := by
    simp only [pgSize] at *
    omega
  rw [hnum] at hstack
  have hentry : pg.entry ((g + 1) * pgSize + o) = .map (v2p f) permWU := by
    rw [← hstack, PgDir.page]
    simp only [PgDir.entry, hpdx, hptx]
  rw [hbase, userByte, hentry, hmod]
  change some (m.ram (p2v (v2p f)) o) = _
  rw [hf.p2v_v2p]

/-- A word among words stored on the stack page. -/
theorem NewSpace.userWord_stack {off i : Nat} {ws : List Nat}
    (hbytes : BytesAt (m.ram f) off (ws.flatMap wordBytes)) (hoff : off + 4 * ws.length ≤ pgSize)
    (hi : i < ws.length) (hw : ws.getD i 0 < 2 ^ 32) :
    userWord pg m (sz - pgSize + off + 4 * i) = some (ws.getD i 0) := by
  have hbyte : ∀ k < 4, userByte pg m (sz - pgSize + off + 4 * i + k) =
      some ((wordBytes (ws.getD i 0)).getD k 0) := by
    intro k hk
    have hsize := length_flatMap_wordBytes ws
    rw [show sz - pgSize + off + 4 * i + k = sz - pgSize + (off + (4 * i + k)) by omega,
      h.userByte_stack hf hstack (by omega), hbytes (4 * i + k) (by omega),
      getD_flatMap_wordBytes hi hk]
  have hbyte₀ := hbyte 0 (by decide)
  rw [Nat.add_zero] at hbyte₀
  unfold userWord
  rw [hbyte₀, hbyte 1 (by decide), hbyte 2 (by decide), hbyte 3 (by decide)]
  exact congrArg some (wordBytes_value hw)

/-- **Strings and words that fit**: the stack is as it should be, also after
other pages were written. -/
theorem NewSpace.stackHolds {cur : PgDir} {argv : List (List UInt8)} {m₁ m' : Mem} {sp : Nat}
    (hfits : StackFits argv) (hrun : pushArgs cur pg argv sz [] m = .ok (some sp, m₁))
    (hram : m'.ram f = m₁.ram f) : StackHolds pg m' sz sp argv := by
  obtain ⟨hargc, hroom⟩ := hfits
  have hlt := h.image.lt
  have htwo := h.two
  have halign : sz % 4 = 0 := by
    have := h.aligned
    simp only [pgSize] at this
    omega
  unfold stackRoom at hroom
  obtain ⟨m₂, hpush, -, hstrings, hwords⟩ := h.pushArgs_fits hf hstack cur argv sz [] m
    (Nat.le_refl sz) halign (by rw [List.length_nil]; omega)
    (by rw [List.length_nil]; omega)
  rw [hrun] at hpush
  rw [List.length_nil, Nat.zero_add] at hpush hwords
  simp only [Except.ok.injEq, Prod.mk.injEq, Option.some.injEq] at hpush
  obtain ⟨hsp, rfl⟩ := hpush
  rw [List.nil_append, ← hsp, ← hram] at hwords
  rw [← hram] at hstrings
  obtain ⟨hplaced, hpair⟩ := place_placed argv sz halign (by omega)
  have hlen := length_place argv sz
  generalize hps : place argv sz = ps at hwords hstrings hplaced hpair hlen
  generalize hR : argRoom argv = R at hroom hsp hwords hplaced
  -- the words: entry `i` of `ustack`
  have hword : ∀ i < 4 + argv.length, ∀ w < 2 ^ 32, (ustack (sz - R) ps).getD i 0 = w →
      userWord pg m' (sp + 4 * i) = some w := by
    rintro i hi w hw rfl
    have hsize := length_ustack (sz - R) ps
    have hread := h.userWord_stack hf hstack hwords (by omega) (i := i) (by omega) hw
    rwa [show sz - pgSize + (sp - (sz - pgSize)) + 4 * i = sp + 4 * i by omega] at hread
  have hptr : ∀ i (hi : i < argv.length), Placed (sz - R) sz argv[i] (ps.getD i 0) := by
    intro i hi
    rw [List.getD_eq_getElem _ _ (by omega)]
    exact (List.forall₂_iff_get.mp hplaced).2 i hi (by omega)
  have hbytes : ∀ i (hi : i < argv.length),
      BytesAt (m'.ram f) (ps.getD i 0 - (sz - pgSize)) (argv[i] ++ [0]) := by
    intro i hi
    rw [List.getD_eq_getElem _ _ (by omega)]
    exact (List.forall₂_iff_get.mp hstrings).2 i hi (by omega)
  have hbyte : ∀ i (hi : i < argv.length), ∀ j < argv[i].length + 1,
      userByte pg m' (ps.getD i 0 + j) = some ((argv[i] ++ [0]).getD j 0) := by
    intro i hi j hj
    have hp := hptr i hi
    have hlow := hp.low
    have hhigh := hp.high
    rw [show ps.getD i 0 + j = sz - pgSize + (ps.getD i 0 - (sz - pgSize) + j) by omega,
      h.userByte_stack hf hstack (by omega), hbytes i hi j (by simpa using hj)]
  refine ⟨by omega, hword 0 (by omega) _ (by decide) rfl, ?_, ?_, ?_,
    ⟨fun i => ps.getD i 0, fun i => ?_, fun i => ?_, fun i => ⟨fun j hj => ?_, ?_⟩, fun i j hij => ?_⟩,
    h.guard⟩
  · refine hword 1 (by omega) _ (by omega) ?_
    rw [← hlen]
    rfl
  · refine hword 2 (by omega) _ ?_ ?_
    · simp only [kernBase] at hlt
      omega
    · rw [ustack_argv]
      simp only [kernBase] at hlt
      omega
  · rw [show sp + 12 + 4 * argv.length = sp + 4 * (3 + argv.length) by omega]
    refine hword (3 + argv.length) (by omega) 0 (by decide) ?_
    rw [ustack, ← hlen, List.getD_append_right _ _ _ _ (by simp; omega)]
    simp
  · have hp := hptr i i.isLt
    have hhigh := hp.high
    rw [show sp + 12 + 4 * (i : Nat) = sp + 4 * (3 + (i : Nat)) by omega]
    refine hword (3 + i) (by omega) (ps.getD i 0) ?_ ?_
    · simp only [kernBase] at hlt
      omega
    · rw [ustack, List.getD_append _ _ _ _ (by simp; omega),
        List.getD_append_right _ _ _ _ (by simp)]
      simp
  · have hp := hptr i i.isLt
    have hlow := hp.low
    have hhigh := hp.high
    beta_reduce
    rw [List.get_eq_getElem]
    exact ⟨hp.aligned, by omega, by omega⟩
  · rw [List.get_eq_getElem] at hj ⊢
    rw [hbyte i i.isLt j (Nat.lt_succ_of_lt hj), List.getD_append _ _ _ _ hj]
  · have hlast := hbyte i i.isLt argv[(i : Nat)].length (Nat.lt_succ_self _)
    rw [List.getD_append_right _ _ _ _ (Nat.le_refl _), Nat.sub_self] at hlast
    exact hlast
  · have hzip := List.pairwise_iff_getElem.mp hpair i j
      (by rw [List.length_zip]; omega) (by rw [List.length_zip]; omega) hij
    rw [List.getElem_zip, List.getElem_zip] at hzip
    beta_reduce
    rw [List.getD_eq_getElem (l := ps) _ (n := j) (by omega),
      List.getD_eq_getElem (l := ps) _ (n := i) (by omega), List.get_eq_getElem]
    exact hzip

end Read

/-! ## §4  `exec` -/

/-- What `exec` writes of a process beside the fields of `Proc`: the name, and
the address where it starts (`tf->eip`). -/
structure ProcStart where
  name : List UInt8
  eip : Nat

/-- `last`: the path after its last slash. -/
def lastElement (path : List UInt8) : List UInt8 :=
  path.foldl (fun last c => if c = 0x2f then [] else last ++ [c]) []

/-- `safestrcpy(s, t, n)` over the old contents of `s`. -/
def safestrcpy (s t : List UInt8) (n : Nat) : List UInt8 :=
  let copied := (t ++ [0]).take (n - 1) ++ [0]
  copied ++ s.drop copied.length

/-- `exec` with all it writes of the process. -/
def execNamed (p : Fin nproc) (path : List UInt8) (ip : Option Inode) (argv : List (List UInt8))
    (s : Kernel) (t : Fin nproc → ProcStart) :
    Except Panic (CallResult × Kernel × (Fin nproc → ProcStart)) :=
  match ip with
  | none => .ok (.value (-1), s, t)
  | some ip =>
    if readi ip 0 52 ≠ some 52 ∨ ip.u32 0 ≠ elfMagic then .ok (.value (-1), s, t)
    else do
      let (r, m) ← buildImage ip s.mem
      match r with
      | none => .ok (.value (-1), { s with mem := m }, t)
      | some (sz, pg) =>
        let q := s.proc p
        let (r, m) ← pushArgs q.pgdir pg argv sz [] m
        match r with
        | none =>
          let m ← freevm pg m
          .ok (.value (-1), { s with mem := m }, t)
        | some sp =>
          -- Save program name for debugging.
          let name := safestrcpy (t p).name (lastElement path) 16
          -- Commit to the user image.
          let t := update t p ⟨name, ip.u32 24⟩
          let m ← freevm q.pgdir m
          .ok (.value 0, { s with mem := m }.setProc p
            { q with pgdir := pg, sz := sz, esp := sp }, t)

/-- It is `exec`, if name and start are left out. -/
theorem execNamed_exec (p : Fin nproc) (path : List UInt8) (ip : Option Inode)
    (argv : List (List UInt8)) (s : Kernel) (t : Fin nproc → ProcStart) :
    (do
      let (r, s, _) ← execNamed p path ip argv s t
      .ok (r, s)) = exec p ip argv s := by
  cases ip with
  | none => rfl
  | some ip =>
    rw [exec, execNamed]
    dsimp only
    split
    · rfl
    · rw [bind_assoc]
      refine bind_congr fun x => ?_
      obtain ⟨_ | ⟨sz, pg⟩, m⟩ := x
      · rfl
      · dsimp only
        rw [bind_assoc]
        refine bind_congr fun x => ?_
        obtain ⟨_ | sp, m⟩ := x
        all_goals
          dsimp only
          rw [bind_assoc]
          exact bind_congr fun m => bind_of_ok _ _

/-- **The stack after `exec`.** If strings and pointers fit on the stack page, a
process for which `exec` returns 0 finds them on its stack. If they do not fit, and
their length is below the new size, `exec` returns -1 and leaves the process as it
was: page table, size, name and trap frame. The frames that the caller uses are not
free. -/
theorem execNamed_stack {p : Fin nproc} {path : List UInt8} {ip : Inode} {argv : List (List UInt8)}
    {s : Kernel} {t : Fin nproc → ProcStart} (hm : FreelistOK s.mem)
    (hused : ∀ f ∈ s.mem.freelist, (s.proc p).pgdir.own f = 0) :
    (∀ s' t', StackFits argv → execNamed p path (some ip) argv s t = .ok (.value 0, s', t') →
      StackHolds (s'.proc p).pgdir s'.mem (s'.proc p).sz (s'.proc p).esp argv) ∧
    (∀ sz pg m', readi ip 0 52 = some 52 → ip.u32 0 = elfMagic →
      buildImage ip s.mem = .ok (some (sz, pg), m') → ¬ StackFits argv →
      (argv.map List.length).sum < sz →
      ∃ m, execNamed p path (some ip) argv s t = .ok (.value (-1), { s with mem := m }, t)) := by
  constructor
  · intro s' t' hfits hrun
    rw [execNamed] at hrun
    dsimp only at hrun
    split at hrun
    · cases hrun
    obtain ⟨⟨r, m₁⟩, hbuild, hrun⟩ := bind_ok hrun
    cases r with
    | none => cases hrun
    | some r =>
      obtain ⟨sz, pg⟩ := r
      have hspace := buildImage_space hm hbuild
      have hbal := ((buildImage_built hm hbuild).2.2 sz pg rfl).2
      obtain ⟨f, hf, hstack⟩ := hspace.stack
      obtain ⟨⟨r, m₂⟩, hpush, hrun⟩ := bind_ok hrun
      cases r with
      | none =>
        obtain ⟨m₃, -, hrun⟩ := bind_ok hrun
        cases hrun
      | some sp =>
        obtain ⟨m₃, hfree, hrun⟩ := bind_ok hrun
        cases hrun
        -- the frame of the stack came from the free list
        have hmaps : (pg.page (sz / pgSize - 1)).Maps f := by
          rw [hstack]
          exact ⟨rfl, hf.p2v_v2p⟩
        have hlt := hspace.image.lt
        have hown : 0 < pg.own f :=
          own_pos_of_maps (by simp only [pgSize, kernBase] at *; omega) hmaps
        have hwas : f ∈ s.mem.freelist := by
          refine List.count_pos_iff.mp ?_
          have := hbal f
          omega
        rw [Kernel.setProc_self]
        exact hspace.stackHolds hf hstack hfits hpush (freevm_ram hfree (hused f hwas))
  · intro sz pg m₁ hread hmagic hbuild hfits hsum
    have hspace := buildImage_space hm hbuild
    have hbal := ((buildImage_built hm hbuild).2.2 sz pg rfl).2
    have hlen : ∀ a ∈ argv, a.length < sz := by
      intro a ha
      refine Nat.lt_of_le_of_lt ?_ hsum
      exact List.single_le_sum (fun _ _ => Nat.zero_le _) _ (List.mem_map_of_mem ha)
    have halign : sz % 4 = 0 := by
      have := hspace.aligned
      simp only [pgSize] at this
      omega
    have htwo := hspace.two
    obtain ⟨m₂, hpush⟩ := hspace.pushArgs_misfits (s.proc p).pgdir argv sz [] m₁
      (Nat.sub_le _ _) (Nat.le_refl sz) halign (Nat.zero_le _) hlen
      (by
        rw [List.length_nil]
        rintro ⟨h₁, h₂⟩
        exact hfits ⟨by omega, by rw [stackRoom]; omega⟩)
    have howns : OwnsFrames pg := ownsFrames_of_own fun f hf => by
      refine hm f (List.count_pos_iff.mp ?_)
      have := hbal f
      omega
    obtain ⟨m₃, hfree⟩ := freevm_owns howns m₂
    refine ⟨m₃, ?_⟩
    rw [execNamed]
    dsimp only
    rw [if_neg (by simp [hread, hmagic]), hbuild, bind_of_ok]
    dsimp only
    rw [hpush, bind_of_ok]
    dsimp only
    rw [hfree, bind_of_ok]

/-- With memory enough, `exec` of a program without segments and of arguments that fit
returns 0. -/
theorem execNamed_fits {p : Fin nproc} (path : List UInt8) {ip : Inode} {argv : List (List UInt8)}
    {s : Kernel} (t : Fin nproc → ProcStart) (hm : FreelistOK s.mem)
    (hread : readi ip 0 52 = some 52) (hmagic : ip.u32 0 = elfMagic) (hseg : ip.u16 44 = 0)
    (hlen : 1027 ≤ s.mem.freelist.length) (hown : OwnsFrames (s.proc p).pgdir)
    (hfits : StackFits argv) :
    ∃ s' t', execNamed p path (some ip) argv s t = .ok (.value 0, s', t') := by
  obtain ⟨pg, m₁, -, hbuild, -⟩ := buildImage_empty hm hseg hlen
  have hspace := buildImage_space hm hbuild
  obtain ⟨f, hf, hstack⟩ := hspace.stack
  obtain ⟨hargc, hroom⟩ := hfits
  rw [stackRoom] at hroom
  obtain ⟨m₂, hpush, -⟩ := hspace.pushArgs_fits hf hstack (s.proc p).pgdir argv (2 * pgSize) []
    m₁ (Nat.le_refl (2 * pgSize)) (by decide)
    (by rw [List.length_nil]; omega) (by rw [List.length_nil]; omega)
  generalize 2 * pgSize - argRoom argv - _ = sp at hpush
  obtain ⟨m₃, hfree⟩ := freevm_owns hown m₂
  refine ⟨{ s with mem := m₃ }.setProc p { s.proc p with pgdir := pg, sz := 2 * pgSize, esp := sp },
    update t p ⟨safestrcpy (t p).name (lastElement path) 16, ip.u32 24⟩, ?_⟩
  rw [execNamed]
  dsimp only
  rw [if_neg (by simp [hread, hmagic]), hbuild, bind_of_ok]
  dsimp only
  rw [hpush, bind_of_ok]
  dsimp only
  rw [hfree, bind_of_ok]

omit [Image] in
/-- `echo a`, in process 1. -/
theorem execNamed_stack_echo : ∃ s' t',
    @execNamed sampleImage 1 [0x65, 0x63, 0x68, 0x6f] (some emptyProgram)
      [[0x65, 0x63, 0x68, 0x6f], [0x61]] (sample fun _ => true) (fun _ => ⟨[], 0⟩) =
        .ok (.value 0, s', t') ∧
    StackHolds (s'.proc 1).pgdir s'.mem (s'.proc 1).sz (s'.proc 1).esp
      [[0x65, 0x63, 0x68, 0x6f], [0x61]] := by
  let _ := sampleImage
  have hm := (frames_ok (n := 4096) (Nat.le_refl _)).1
  have hfits : StackFits [[0x65, 0x63, 0x68, 0x6f], [0x61]] := ⟨by decide, by decide⟩
  obtain ⟨s', t', hrun⟩ := execNamed_fits (p := 1) [0x65, 0x63, 0x68, 0x6f]
    (s := sample fun _ => true) (fun _ => ⟨[], 0⟩) hm
    (show readi emptyProgram 0 52 = some 52 from rfl) rfl rfl
    (by rw [sample, frames_length]; decide) (sample_ownsFrames 1) hfits
  refine ⟨s', t', hrun, (execNamed_stack hm fun f hf => ?_).1 s' t' hfits hrun⟩
  exact sample_own_high 1 (mem_frames hf).1

end Xv6
