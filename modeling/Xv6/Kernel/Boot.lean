import Xv6.Kernel.Calls
import Xv6.Kernel.Progress

/-!
# Where runs start

The runs of this development start in a state with an empty table and any
number of processes that have no shared page yet. What has to be assumed of
such a state is that memory is used consistently: every frame is on the free
list, or used by one process for one purpose, or neither (`Kernel.tally`).

§3 builds such a state for every set of processes, so nothing that is proved
from `Boot` is empty.
-/

namespace Xv6

variable [Image]

/-! ## §1  Who accounts for a frame -/

/-- The first page of the window; the user pages below it are private. -/
def windowStart : Nat := 2 ^ 19 - shmemPages

/-- How often a process uses the frame `f` for itself: as its kernel stack, as
its directory or one of its page tables, or under a page below the window. -/
def Proc.own (q : Proc) (f : Nat) : Nat :=
  if q.state = .unused then 0
  else (if q.kstack = f then 1 else 0) + (if q.pgdir.frame = f then 1 else 0) +
    q.pgdir.tabs f + q.pgdir.pages 0 windowStart f

/-- How many slots of the table have the page `f`. -/
def ShmTable.slots (t : ShmTable) (f : Nat) : Nat :=
  ∑ i, if t.shmemAddr i = f then 1 else 0

/-- Everything that accounts for the frame `f`: the free list, the processes,
and the slots of the table. -/
def Kernel.tally (s : Kernel) (f : Nat) : Nat :=
  s.mem.freelist.count f + ∑ p, (s.proc p).own f + s.shTable.slots f

/-! ## §2  Initial states -/

/-- The records of a process that never attached a page. -/
structure Proc.Blank (q : Proc) : Prop where
  phy : ∀ i, q.phySharedPage i = 0
  vm : ∀ i, q.vmSharedPage i = 0
  key : ∀ i, q.pKey i = zeroKey
  bitmap : ∀ i, q.bitmap i = 0

/-- A state from which the runs of this development start: the table as
`shmeminit` leaves it, any processes without shared pages, each with its user
pages below its size and the size below the window, and every frame used at
most once. The state at the end of `main` is one. -/
structure Boot (s : Kernel) : Prop where
  table : s.shTable = (shmeminit s).shTable
  free : FreelistOK s.mem
  blank : ∀ p, (s.proc p).state ≠ .unused → (s.proc p).Blank
  image : ∀ p, (s.proc p).state ≠ .unused → UserImage (s.proc p).pgdir (s.proc p).sz
  size : ∀ p, (s.proc p).sz ≤ windowStart * pgSize
  once : ∀ f, f ≠ 0 → s.tally f ≤ 1

/-! ## §3  An initial state for every set of processes

Each process has 128 frames of its own, of which it uses the first 68: its
directory, its kernel stack, its one user page, the page table for it, and
the 64 page tables of the kernel half. The free list follows behind. -/

/-- A kernel image: text and data end at 1.5 MB, and the two literals `"-1"`
are one string followed by zeros. -/
@[reducible] def sampleImage : Image where
  data := 0x80110000
  kend := 0x80180000
  data_aligned := by decide
  kernLink_lt_data := by decide
  data_le_kend := by decide
  kend_lt := by decide
  shmremLit := fun i => [0x2d, 0x31].getD i 0
  exitLit := fun i => [0x2d, 0x31].getD i 0
  shmremLit_eq := by decide
  exitLit_eq := by decide

/-- The first of the frames of process `p`. -/
def sampleBase (p : Nat) : Nat := 0x80400000 + p * (128 * pgSize)

/-- The page-table entries of the kernel half, as `kmap` has them. -/
def samplePte (v : Nat) : Pte :=
  if v < 2 ^ 19 + 256 then ⟨(v - 2 ^ 19) * pgSize, true, true, false⟩
  else if v * pgSize < 0x80110000 then ⟨(v - 2 ^ 19) * pgSize, true, false, false⟩
  else if v < 2 ^ 19 + physTop / pgSize then ⟨(v - 2 ^ 19) * pgSize, true, true, false⟩
  else if devSpace ≤ v * pgSize then ⟨v * pgSize, true, true, false⟩
  else .zero

def samplePde (base d : Nat) : Option PgTab :=
  if d = 0 then
    some ⟨base + 3 * pgSize,
      fun j => if j = 0 then .map (v2p (base + 2 * pgSize)) permWU else .zero⟩
  else if 512 ≤ d ∧ d < 568 then
    some ⟨base + (4 + (d - 512)) * pgSize, fun j => samplePte (d * 1024 + j)⟩
  else if 1016 ≤ d ∧ d < 1024 then
    some ⟨base + (60 + (d - 1016)) * pgSize, fun j => samplePte (d * 1024 + j)⟩
  else none

abbrev sampleDir (p : Nat) : PgDir := ⟨sampleBase p, samplePde (sampleBase p)⟩

/-- A process with one page, or a slot that is not in use. -/
def sampleProc (live : Bool) (p : Nat) : Proc where
  sz := if live then pgSize else 0
  pgdir := if live then sampleDir p else .null
  kstack := if live then sampleBase p + pgSize else 0
  state := if live then .runnable else .unused
  pid := if live then p + 1 else 0
  parent := none
  esp := pgSize
  killed := false
  top := 0
  phySharedPage := fun _ => 0
  vmSharedPage := fun _ => 0
  pKey := fun _ => zeroKey
  bitmap := fun _ => 0

/-- `n` consecutive frames from `a` on. -/
def frames : Nat → Nat → List Nat
  | 0, _ => []
  | n + 1, a => a :: frames n (a + pgSize)

/-- The state with the processes `L`. -/
def sample (L : Fin nproc → Bool) : Kernel where
  mem := ⟨frames 4096 0x82400000, fun _ _ => 0⟩
  shTable := ⟨false, fun _ => 0, fun _ => 0, fun _ => zeroKey⟩
  proc := fun p => sampleProc (L p) p
  initproc := 0
  nextpid := nproc + 1

omit [Image]

/-- What is on the list of `frames`. -/
theorem mem_frames {f : Nat} : ∀ {n a : Nat}, f ∈ frames n a →
    a ≤ f ∧ f < a + n * pgSize ∧ (f - a) % pgSize = 0
  | 0, a, h => by simp [frames] at h
  | n + 1, a, h => by
    rw [frames, List.mem_cons] at h
    rcases h with rfl | h
    · simp [pgSize]
    · obtain ⟨h₁, h₂, h₃⟩ := mem_frames h
      simp only [pgSize] at *
      omega

theorem count_frames (f : Nat) : ∀ n a : Nat, (frames n a).count f ≤ 1
  | 0, a => by simp [frames]
  | n + 1, a => by
    rw [frames, List.count_cons]
    have hrest := count_frames f n (a + pgSize)
    by_cases hf : a = f
    · have hnot : f ∉ frames n (a + pgSize) := fun hmem => by
        have := (mem_frames hmem).1
        simp only [pgSize] at this
        omega
      rw [List.count_eq_zero.mpr hnot]
      simp [hf]
    · simp [hf, hrest]

/-- Below `kernBase` only page 0 is mapped. -/
theorem sample_page (p v : Nat) (hv : v < 2 ^ 19) :
    (sampleDir p).page v =
      if v = 0 then .map (v2p (sampleBase p + 2 * pgSize)) permWU else .zero := by
  have hd : v / 1024 < 512 := by omega
  simp only [PgDir.page, PgDir.entry, pdx_page (show v < 2 ^ 20 by omega), ptx_page]
  by_cases h0 : v / 1024 = 0
  · simp only [samplePde, h0, if_true]
    by_cases hv0 : v = 0
    · simp [hv0]
    · rw [if_neg (by omega), if_neg hv0]
  · have hnone : samplePde (sampleBase p) (v / 1024) = none := by
      rw [samplePde, if_neg h0, if_neg (by omega), if_neg (by omega)]
    rw [hnone, if_neg (by omega)]

theorem sample_tabFrame {p d f : Nat}
    (h : (sampleDir p).tabFrame d = some f) :
    (d = 0 ∧ f = sampleBase p + 3 * pgSize) ∨
      (512 ≤ d ∧ d < 568 ∧ f = sampleBase p + (4 + (d - 512)) * pgSize) ∨
      (1016 ≤ d ∧ d < 1024 ∧ f = sampleBase p + (60 + (d - 1016)) * pgSize) := by
  simp only [PgDir.tabFrame, samplePde] at h
  split at h
  · rename_i hd
    exact .inl ⟨hd, by simpa using h.symm⟩
  · split at h
    · rename_i hd
      exact .inr (.inl ⟨hd.1, hd.2, by simpa using h.symm⟩)
    · split at h
      · rename_i hd
        exact .inr (.inr ⟨hd.1, hd.2, by simpa using h.symm⟩)
      · simp at h

theorem sample_tabs (p f : Nat) :
    (sampleDir p).tabs f ≤ 1 ∧
      (0 < (sampleDir p).tabs f →
        sampleBase p + 3 * pgSize ≤ f ∧ f < sampleBase p + 68 * pgSize) := by
  have hfr : ∀ d, 0 < (if (sampleDir p).tabFrame d = some f
      then 1 else 0) → (sampleDir p).tabFrame d = some f := by
    intro d hd
    by_contra hne
    simp [hne] at hd
  constructor
  · refine Tally.sum_le_one (fun d _ => by split <;> omega) fun d _ e _ hd he => ?_
    have h₁ := sample_tabFrame (hfr d hd)
    have h₂ := sample_tabFrame (hfr e he)
    simp only [pgSize] at h₁ h₂
    omega
  · intro hpos
    obtain ⟨d, -, hd⟩ := Tally.exists_pos_of_sum hpos
    have h₁ := sample_tabFrame (hfr d hd)
    simp only [pgSize] at *
    omega

theorem sample_pages (p f : Nat) {n : Nat} (hpos : 0 < n) (hn : n ≤ 2 ^ 19) :
    (sampleDir p).pages 0 n f ≤ 1 ∧
      (0 < (sampleDir p).pages 0 n f →
        p2v (v2p (sampleBase p + 2 * pgSize)) = f) := by
  have hsum : (sampleDir p).pages 0 n f =
      if p2v (v2p (sampleBase p + 2 * pgSize)) = f then 1 else 0 := by
    rw [PgDir.pages, Finset.sum_eq_single_of_mem 0 (Finset.mem_Ico.mpr ⟨le_rfl, hpos⟩)]
    · rw [sample_page p 0 (by decide), if_pos rfl, uses_map]
    · intro v hv hne
      have hlt : v < 2 ^ 19 := (Finset.mem_Ico.mp hv).2.trans_le hn
      rw [sample_page p v hlt, if_neg hne, uses_zero]
  rw [hsum]
  constructor
  · split <;> omega
  · intro hpos
    by_contra hne
    simp [hne] at hpos

/-- A process uses each of its frames once. -/
theorem sampleProc_own (live : Bool) (p : Fin nproc) (f : Nat) :
    (sampleProc live p).own f ≤ 1 ∧ (0 < (sampleProc live p).own f →
      sampleBase p ≤ f ∧ f < sampleBase p + 128 * pgSize) := by
  cases live with
  | false => simp [Proc.own, sampleProc]
  | true =>
    obtain ⟨ht₁, ht₂⟩ := sample_tabs p f
    obtain ⟨hp₁, hp₂⟩ := sample_pages p f (n := windowStart) (by decide) (by decide)
    have hp : (p : Nat) < 64 := p.isLt
    have hframe : p2v (v2p (sampleBase p + 2 * pgSize)) = sampleBase p + 2 * pgSize :=
      p2v_v2p (by simp only [sampleBase, pgSize]; omega)
    rw [hframe] at hp₂
    simp only [Proc.own, sampleProc, if_true, reduceCtorEq, if_false]
    generalize (sampleDir p).tabs f = a at *
    generalize (sampleDir p).pages 0 windowStart f = b at *
    by_cases hk : sampleBase p + pgSize = f
    · have hd : sampleBase p ≠ f := by simp only [pgSize] at hk; omega
      rw [if_pos hk, if_neg hd]
      simp only [pgSize] at *
      omega
    · by_cases hd : sampleBase p = f
      · rw [if_neg hk, if_pos hd]
        simp only [pgSize] at *
        omega
      · rw [if_neg hk, if_neg hd]
        simp only [pgSize] at *
        omega

/-- **There is an initial state for every set of processes.** -/
theorem sample_boot (L : Fin nproc → Bool) : @Boot sampleImage (sample L) := by
  let _ := sampleImage
  refine ⟨rfl, fun f hf => ?_, fun p _ => ⟨fun _ => rfl, fun _ => rfl, fun _ => rfl, fun _ => rfl⟩,
    fun p hp => ?_, fun p => ?_, fun f _ => ?_⟩
  · obtain ⟨h₁, h₂, h₃⟩ := mem_frames hf
    simp only [pgSize] at h₂ h₃
    refine ⟨by omega, by simp only [pgSize]; omega, ?_, ?_⟩
    · change 0x80180000 ≤ f
      omega
    · simp only [v2p, kernBase, physTop]
      omega
  · have hlive : L p = true := by
      by_contra hno
      simp [sample, sampleProc, hno] at hp
    refine ⟨by simp only [sample, sampleProc, hlive]; decide, fun w hw => ?_⟩
    simp only [sample, sampleProc, hlive, if_true]
    rw [sample_page p w hw]
    by_cases h0 : w = 0
    · simp [h0, Pte.map, pgSize]
    · have hw : ¬ w * 4096 < 4096 := by omega
      simp [h0, Pte.zero, pgSize, hw]
  · simp only [sample, sampleProc]
    split <;> decide
  · rename_i hf
    -- the free list lies behind the frames of all processes
    have hlist := count_frames f 4096 0x82400000
    have hprocs : ∑ p, (sampleProc (L p) p).own f ≤ 1 :=
      Tally.sum_le_one (fun p _ => (sampleProc_own (L p) p f).1) fun p _ q _ hp hq => by
        have h₁ := (sampleProc_own (L p) p f).2 hp
        have h₂ := (sampleProc_own (L q) q f).2 hq
        simp only [sampleBase, pgSize] at h₁ h₂
        exact Fin.ext (by omega)
    have hsep : 0 < ∑ p, (sampleProc (L p) p).own f → (frames 4096 0x82400000).count f = 0 := by
      intro hpos
      obtain ⟨p, -, hp⟩ := Tally.exists_pos_of_sum hpos
      have h₁ := (sampleProc_own (L p) p f).2 hp
      have hp : (p : Nat) < 64 := p.isLt
      rw [List.count_eq_zero]
      intro hmem
      have h₂ := mem_frames hmem
      simp only [sampleBase, pgSize] at h₁ h₂
      omega
    have hslots : (sample L).shTable.slots f = 0 :=
      Finset.sum_eq_zero fun t _ => if_neg (Ne.symm hf)
    rw [Kernel.tally, hslots]
    simp only [sample]
    omega

/-- Two processes, 1 and 2. -/
def sampleTwo : Kernel := sample fun p => p = 1 || p = 2

/-- A user buffer that holds a string and zeros behind it. -/
def bufOf (l : List UInt8) : Buf := fun i => l.getD i 0

/-- An ELF file without segments. -/
def emptyProgram : Inode := ⟨52, fun i => [0x7f, 0x45, 0x4c, 0x46].getD i 0⟩

theorem sample_ownsFrames (p : Fin nproc) :
    @OwnsFrames sampleImage (sampleDir p) := by
  let _ := sampleImage
  have hp : (p : Nat) < 64 := p.isLt
  have hframe : ∀ n, n < 128 → IsFrame (sampleBase p + n * pgSize) := by
    intro n hn
    refine ⟨?_, ?_, ?_, ?_⟩
    · simp only [sampleBase, pgSize]
      omega
    · simp only [sampleBase, pgSize]
      omega
    · change 0x80180000 ≤ _
      simp only [sampleBase, pgSize]
      omega
    · simp only [v2p, kernBase, physTop, sampleBase, pgSize]
      omega
  refine ⟨?_, fun d hd f hf => ?_, fun w hw hpres => ?_⟩
  · simpa using hframe 0 (by omega)
  · rcases sample_tabFrame hf with ⟨-, heq⟩ | ⟨h₁, h₂, heq⟩ | ⟨h₁, h₂, heq⟩
    · exact heq ▸ hframe 3 (by omega)
    · exact heq ▸ hframe _ (by omega)
    · exact heq ▸ hframe _ (by omega)
  · rw [sample_page p w hw] at hpres ⊢
    by_cases hw0 : w = 0
    · rw [if_pos hw0]
      change IsFrame (p2v (v2p _))
      rw [(hframe 2 (by omega)).p2v_v2p]
      exact hframe 2 (by omega)
    · rw [if_neg hw0] at hpres
      simp [Pte.zero] at hpres

/-- The page tables of the processes lie below the free frames. -/
theorem sample_own_high (p : Fin nproc) {f : Nat} (hf : 0x82400000 ≤ f) :
    (sampleDir p).own f = 0 := by
  have hp : (p : Nat) < 64 := p.isLt
  have hlow : ∀ n, n < 128 → sampleBase p + n * pgSize ≠ f := by
    intro n hn
    simp only [sampleBase, pgSize]
    omega
  have htabs : (sampleDir p).tabs f = 0 := by
    by_contra hne
    have := ((sample_tabs p f).2 (Nat.pos_of_ne_zero hne)).2
    simp only [sampleBase, pgSize] at this
    omega
  have hpages : (sampleDir p).pages 0 (2 ^ 19) f = 0 := by
    by_contra hne
    have := (sample_pages p f (by decide) (Nat.le_refl _)).2 (Nat.pos_of_ne_zero hne)
    rw [p2v_v2p (by simp only [sampleBase, pgSize]; omega)] at this
    exact hlow 2 (by omega) this
  rw [PgDir.own, htabs, hpages, if_neg (by simpa using hlow 0 (by omega))]

end Xv6
