import Xv6.Shm.Table

/-!
# `argptr`: pointer arguments of system calls

A system call fetches its arguments from the user stack. `argptr` checks a
pointer argument in two branches: a pointer into the 32 pages below
`KERNBASE` is accepted as it is, without a look at the size or at the page
table; any other has to lie below `sz` with all its bytes.

So what is accepted is user memory exactly if a pointer into the window comes
with a size that ends at `KERNBASE` or before, and only touches pages that are
mapped (`argptr_user_iff`).
-/

namespace Xv6

open Outcome Transition

/-! ## §1  Fetching arguments -/

/-- A byte read by the kernel at a user address. A page that is not present
is a fault. -/
def loadByte (pg : PgDir) (m : Mem) (va : Nat) : Except Panic UInt8 :=
  let e := pg.entry va
  if e.p then .ok (m.ram (p2v e.pa) (va % pgSize)) else .error .trap

/-- `*(int*)va`, as a `uint`. -/
def loadWord (pg : PgDir) (m : Mem) (va : Nat) : Except Panic Nat := do
  let b₀ ← loadByte pg m va
  let b₁ ← loadByte pg m (va + 1)
  let b₂ ← loadByte pg m (va + 2)
  let b₃ ← loadByte pg m (va + 3)
  .ok (b₀.toNat + 2 ^ 8 * b₁.toNat + 2 ^ 16 * b₂.toNat + 2 ^ 24 * b₃.toNat)

/-- `fetchint`: the word at `addr`; `none` is -1. -/
def fetchint (q : Proc) (m : Mem) (addr : Nat) : Except Panic (Option Nat) :=
  if q.sz ≤ addr ∨ q.sz < (addr + 4) % 2 ^ 32 then .ok none
  else do
    let i ← loadWord q.pgdir m addr
    .ok (some i)

/-- `argint`: argument `n` of the call. -/
def argint (q : Proc) (m : Mem) (n : Nat) : Except Panic (Option Nat) :=
  fetchint q m ((q.esp + 4 + 4 * n) % 2 ^ 32)

/-- The test of `argptr` for the shared window. -/
def InWindow (i : Nat) : Prop := i < kernBase ∧ kernBase - pgSize * 32 ≤ i

instance (i : Nat) : Decidable (InWindow i) := inferInstanceAs (Decidable (_ ∧ _))

/-- `argptr`: the pointer it stores; `none` is -1. -/
def argptr (q : Proc) (m : Mem) (n : Nat) (size : Int) : Except Panic (Option Nat) := do
  match ← argint q m n with
  | none => .ok none
  | some i =>
    if InWindow i then .ok (some i)
    else if size < 0 ∨ q.sz ≤ i ∨ q.sz < (i + size.toNat) % 2 ^ 32 then .ok none
    else .ok (some i)

/-! ## §2  What is accepted -/

theorem argptr_ok {q : Proc} {m : Mem} {n i : Nat} {size : Int} :
    argptr q m n size = .ok (some i) ↔ argint q m n = .ok (some i) ∧
      (InWindow i ∨ (0 ≤ size ∧ i < q.sz ∧ (i + size.toNat) % 2 ^ 32 ≤ q.sz)) := by
  constructor
  · intro h
    obtain ⟨r, harg, h⟩ := bind_ok h
    cases r with
    | none => cases h
    | some j =>
      simp only at h
      split at h
      · cases h
        exact ⟨harg, .inl ‹_›⟩
      · split at h
        · cases h
        · cases h
          exact ⟨harg, .inr (by omega)⟩
  · rintro ⟨harg, hcase⟩
    refine ok_bind harg ?_
    dsimp only
    by_cases hwin : InWindow i
    · rw [if_pos hwin]
    · have hlow := hcase.resolve_left hwin
      rw [if_neg hwin, if_neg (by omega)]

/-- All bytes from `i` on, `size` of them, are user memory of the process:
below `sz`, or in pages of the window that it maps. -/
def UserBytes (q : Proc) (i : Nat) (size : Int) : Prop :=
  (∀ b : Nat, i ≤ b → (b : Int) < i + size → b < q.sz) ∨
  ∀ b : Nat, i ≤ b → (b : Int) < i + size → InWindow b ∧ (q.pgdir.entry b).p = true

/-- The addresses of one page have one entry. -/
theorem entry_eq_page (pg : PgDir) (b : Nat) : pg.entry b = pg.page (b / pgSize) := by
  have hdir : pdx b = pdx (b / pgSize * pgSize) := by
    simp only [pdx, pgSize]
    omega
  have htab : ptx b = ptx (b / pgSize * pgSize) := by
    simp only [ptx, pgSize]
    omega
  rw [PgDir.page, PgDir.entry, PgDir.entry, hdir, htab]

/-- A pointer into the window with its size: it does not run into the kernel,
and every page it touches is mapped. -/
def WindowBytes (q : Proc) (i : Nat) (size : Int) : Prop :=
  i + size ≤ kernBase ∧
    ∀ w, i / pgSize ≤ w → ((w * pgSize : Nat) : Int) < i + size → (q.pgdir.page w).p = true

theorem userBytes_iff {q : Proc} {i : Nat} {size : Int} (hwin : InWindow i) :
    UserBytes q i size ↔ size ≤ 0 ∨ i + size ≤ q.sz ∨ WindowBytes q i size := by
  obtain ⟨hlt, hge⟩ := hwin
  constructor
  · intro h
    by_cases hpos : size ≤ 0
    · exact .inl hpos
    · -- the last byte decides where the range ends
      have hlast : i ≤ (i + size - 1).toNat ∧ (((i + size - 1).toNat : Nat) : Int) < i + size := by
        omega
      rcases h with h | h
      · have := h _ hlast.1 hlast.2
        exact .inr (.inl (by omega))
      · obtain ⟨⟨hend, -⟩, -⟩ := h _ hlast.1 hlast.2
        refine .inr (.inr ⟨by omega, fun w hw hwend => ?_⟩)
        have hfirst : (max i (w * pgSize)) / pgSize = w := by
          simp only [pgSize] at *
          omega
        rw [← hfirst, ← entry_eq_page]
        exact (h _ (Nat.le_max_left ..) (by omega)).2
  · rintro (hneg | hsz | ⟨hend, hpages⟩)
    · exact .inl fun b hb hlt => by omega
    · exact .inl fun b hb hlt => by omega
    · refine .inr fun b hb hblt => ⟨⟨by omega, by omega⟩, ?_⟩
      rw [entry_eq_page]
      refine hpages _ (Nat.div_le_div_right hb) ?_
      have := Nat.div_mul_le_self b pgSize
      omega

variable [Image]

/-- **`argptr` gives user memory, or a pointer into the window it did not
check.** In every state reached, for every argument and size: what `argptr`
accepts is user memory of the process if and only if a pointer into the window
comes with no bytes, or with bytes below `sz`, or with bytes that end at
`KERNBASE` and lie in mapped pages. -/
theorem argptr_user_iff {s₀ s : Kernel} {es : List Event} (hboot : Boot s₀)
    (hrun : kernel.Run s₀ es s) (p : Fin nproc) (n : Nat) {size : Int} (hsize : size < 2 ^ 31) :
    (∀ i, argptr (s.proc p) s.mem n size = .ok (some i) → UserBytes (s.proc p) i size) ↔
      ∀ i, argint (s.proc p) s.mem n = .ok (some i) → InWindow i →
        size ≤ 0 ∨ i + size ≤ (s.proc p).sz ∨ WindowBytes (s.proc p) i size := by
  have hsz := (Sane.run hrun hboot.sane).size p
  constructor
  · intro h i harg hwin
    exact (userBytes_iff hwin).mp (h i (argptr_ok.mpr ⟨harg, .inl hwin⟩))
  · intro h i hptr
    obtain ⟨harg, hcase⟩ := argptr_ok.mp hptr
    by_cases hwin : InWindow i
    · exact (userBytes_iff hwin).mpr (h i harg hwin)
    · -- below `sz` the sum does not wrap
      obtain ⟨hpos, hi, hend⟩ := hcase.resolve_left hwin
      refine .inl fun b hb hlt => ?_
      simp only [kernBase] at hsz
      omega

/-- The initial states do not depend on the contents of memory, nor on the
stack pointer of a process. -/
theorem Boot.withUser {s : Kernel} (h : Boot s) (ram : Nat → Page) (p : Fin nproc) (esp : Nat) :
    Boot ({ s with mem := { s.mem with ram := ram } }.setProc p { s.proc p with esp := esp }) where
  table := h.table
  free := h.free
  blank := Kernel.forall_setProc (P := fun q => q.state ≠ .unused → q.Blank) h.blank fun huse =>
    ⟨(h.blank p huse).phy, (h.blank p huse).vm, (h.blank p huse).key, (h.blank p huse).bitmap⟩
  image := Kernel.forall_setProc (P := fun q => q.state ≠ .unused → UserImage q.pgdir q.sz)
    h.image (h.image p)
  size := Kernel.forall_setProc (P := fun q => q.sz ≤ windowStart * pgSize) h.size (h.size p)
  once f hf := by
    have hsum : ∑ p', (({ s with mem := { s.mem with ram := ram } }.setProc p
        { s.proc p with esp := esp }).proc p').own f = ∑ p', (s.proc p').own f := by
      refine Finset.sum_congr rfl fun p' _ => ?_
      by_cases hp : p' = p
      · rw [hp, Kernel.setProc_self]
        rfl
      · rw [Kernel.setProc_ne hp]
    have := h.once f hf
    rw [Kernel.tally] at this ⊢
    rw [hsum]
    exact this

/-- Processes 1 and 2, with a stack of process 1 at address 0 that has the
four bytes `b` as its first argument. -/
def sampleArg (b : List UInt8) : Kernel :=
  { sampleTwo with mem := { sampleTwo.mem with ram := fun _ o => (0 :: 0 :: 0 :: 0 :: b).getD o 0 } }
    |>.setProc 1 { sampleTwo.proc 1 with esp := 0 }

/-- Process 1 attaches a page, and has a pointer to it as its argument. -/
def argAttached : Kernel :=
  @stateAfter sampleImage anyCall [(1, .shmget (bufOf [97]) 8)] (sampleArg [0, 0xf0, 0xff, 0x7f])

omit [Image] in
theorem argptr_user_attached :
    argptr (argAttached.proc 1) argAttached.mem 0 16 = .ok (some 0x7ffff000) ∧
      UserBytes (argAttached.proc 1) 0x7ffff000 16 := by
  have hptr : argptr (argAttached.proc 1) argAttached.mem 0 16 = .ok (some 0x7ffff000) := rfl
  let _ := sampleImage
  have hrun := (run_calls (g := anyCall) (G := fun _ _ => True) (fun _ _ _ => trivial)
    [(1, .shmget (bufOf [97]) 8)] (s := sampleArg [0, 0xf0, 0xff, 0x7f]) rfl).of_guarded
  refine ⟨hptr, (argptr_user_iff ((sample_boot _).withUser _ 1 0) hrun 1 0 (by decide)).mpr
    (fun i harg _ => .inr (.inr ?_)) _ hptr⟩
  have hi : 0x7ffff000 = i :=
    Option.some.inj (Except.ok.inj ((argptr_ok.mp hptr).1.symm.trans harg))
  subst hi
  refine ⟨by decide, fun w hlo hhi => ?_⟩
  have hw : w = 0x7ffff := by
    simp only [pgSize] at hlo hhi
    omega
  rw [hw]
  decide

omit [Image] in
/-- The last byte of the window is accepted with any size: the range runs into
the kernel. -/
theorem argptr_into_kernel : ¬ ∀ (_ : Image) (s₀ s : Kernel) (es : List Event) (p : Fin nproc)
    (n i : Nat) (size : Int), Boot s₀ → kernel.Run s₀ es s → size < 2 ^ 31 →
    argptr (s.proc p) s.mem n size = .ok (some i) → UserBytes (s.proc p) i size := by
  intro h
  let _ := sampleImage
  rcases h sampleImage (sampleArg [0xff, 0xff, 0xff, 0x7f]) _ [] 1 0 0x7fffffff 2
    ((sample_boot _).withUser _ 1 0) .nil (by decide) rfl with hlow | hwin
  · have := hlow 0x7fffffff (by decide) (by decide)
    revert this
    decide
  · have := (hwin 0x80000000 (by decide) (by decide)).1
    revert this
    decide

end Xv6
