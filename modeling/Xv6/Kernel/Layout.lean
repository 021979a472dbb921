import Mathlib

/-!
# Constants of the kernel image

The numbers of `memlayout.h`, `mmu.h` and `param.h`, the two address
translations, what the linker fixes, and the ways the kernel can stop.

An address is a `Nat` below `2^32`; the translations wrap as `uint`
arithmetic does, so `v2p 0` is `0x80000000`, as in the source.
-/

namespace Xv6

/-! ## §1  `memlayout.h`, `mmu.h`, `param.h` -/

def extMem : Nat := 0x100000
def physTop : Nat := 0xE000000
def devSpace : Nat := 0xFE000000
def kernBase : Nat := 0x80000000
def kernLink : Nat := kernBase + extMem
def pgSize : Nat := 4096

/-- Process slots (`NPROC`). -/
abbrev nproc : Nat := 64

instance neZero_nproc : NeZero nproc := ⟨by decide⟩

/-- Shared pages in the system, and window positions of a process
(`SHMEM_PAGES`). -/
abbrev shmemPages : Nat := 32

/-- `V2P`, a `uint` subtraction. -/
def v2p (a : Nat) : Nat := (a + 2 ^ 32 - kernBase) % 2 ^ 32

/-- `P2V`, a `uint` addition. -/
def p2v (a : Nat) : Nat := (a + kernBase) % 2 ^ 32

/-- `PDX`. -/
def pdx (va : Nat) : Nat := va / 2 ^ 22 % 1024
/-- `PTX`. -/
def ptx (va : Nat) : Nat := va / 2 ^ 12 % 1024

/-- `PGROUNDUP`, for sizes at most `kernBase` (no wrap). -/
def pgRoundUp (sz : Nat) : Nat := (sz + pgSize - 1) / pgSize * pgSize
/-- `PGROUNDDOWN`. -/
def pgRoundDown (a : Nat) : Nat := a / pgSize * pgSize

/-- The address of window position `i`: `KERNBASE - PGSIZE*(i+1)`. -/
def windowAddr (i : Nat) : Nat := kernBase - pgSize * (i + 1)

theorem p2v_v2p {a : Nat} (h : a < 2 ^ 32) : p2v (v2p a) = a := by
  simp only [p2v, v2p, kernBase]
  omega

/-! ## §2  Virtual pages

A page below `2^32` is named by its number `v`; the code names it by the
address `v * pgSize`. -/

theorem pdx_page {v : Nat} (h : v < 2 ^ 20) : pdx (v * pgSize) = v / 1024 := by
  simp only [pdx, pgSize]
  omega

theorem ptx_page (v : Nat) : ptx (v * pgSize) = v % 1024 := by
  simp only [ptx, pgSize]
  omega

/-- The page number of window position `i`. -/
def windowPage (i : Nat) : Nat := 2 ^ 19 - (i + 1)

theorem windowPage_mul {i : Nat} (h : i < shmemPages) :
    windowPage i * pgSize = windowAddr i := by
  simp only [windowPage, windowAddr, pgSize, kernBase, shmemPages] at *
  omega

theorem windowAddr_ne_zero {i : Nat} (h : i < shmemPages) : windowAddr i ≠ 0 := by
  simp only [windowAddr, pgSize, kernBase, shmemPages] at *
  omega

theorem windowPage_inj {i j : Nat} (hi : i < shmemPages) (hj : j < shmemPages)
    (h : windowPage i = windowPage j) : i = j := by
  simp only [windowPage, shmemPages] at *
  omega

/-! ## §3  What the linker fixes -/

/-- The symbols of the linked kernel the code depends on: `data` and `end`,
and the bytes at the two string literals `"-1"` (in `shmrem`, where it is
compared over 16 bytes, and in `exit`, where it is passed). Only the three
bytes of the literal are known; what follows them is whatever the linker put
there. -/
class Image where
  data : Nat
  kend : Nat
  data_aligned : data % pgSize = 0
  kernLink_lt_data : kernLink < data
  data_le_kend : data ≤ kend
  kend_lt : kend < kernBase + physTop
  shmremLit : Nat → UInt8
  exitLit : Nat → UInt8
  shmremLit_eq : shmremLit 0 = 0x2d ∧ shmremLit 1 = 0x31 ∧ shmremLit 2 = 0
  exitLit_eq : exitLit 0 = 0x2d ∧ exitLit 1 = 0x31 ∧ exitLit 2 = 0

/-- A page frame the allocator accepts: a `uint` that passes the check at the
head of `kfree`. -/
def IsFrame [Image] (v : Nat) : Prop :=
  v < 2 ^ 32 ∧ v % pgSize = 0 ∧ Image.kend ≤ v ∧ v2p v < physTop

instance [Image] (v : Nat) : Decidable (IsFrame v) := by
  unfold IsFrame; infer_instance

/-- Frames are kernel addresses above the kernel's own memory. -/
theorem IsFrame.bounds [Image] {v : Nat} (h : IsFrame v) :
    kernBase < v ∧ v < kernBase + physTop := by
  obtain ⟨hlt, -, hend, htop⟩ := h
  have h₁ := Image.kernLink_lt_data
  have h₂ := Image.data_le_kend
  simp only [v2p, kernLink, kernBase, extMem, physTop] at *
  omega

theorem IsFrame.ne_zero [Image] {v : Nat} (h : IsFrame v) : v ≠ 0 := by
  have := h.bounds.1
  omega

/-- What a page-table entry made from a frame points back to. -/
theorem IsFrame.p2v_v2p [Image] {v : Nat} (h : IsFrame v) : p2v (v2p v) = v :=
  Xv6.p2v_v2p h.1

/-! ## §4  Stopping -/

/-- How the kernel stops: a call of `panic`, or a page fault taken in the
kernel, which `trap` turns into one. -/
inductive Panic where
  | kfree              -- "kfree"
  | remap              -- "remap"
  | physTopTooHigh     -- "PHYSTOP too high"
  | freevmNoPgdir      -- "freevm: no pgdir"
  | copyuvmPte         -- "copyuvm: pte should exist"
  | copyuvmPresent     -- "copyuvm: page not present"
  | loaduvmAligned     -- "loaduvm: addr must be page aligned"
  | loaduvmExists      -- "loaduvm: address should exist"
  | clearpteu          -- "clearpteu"
  | acquire            -- "acquire"
  | release            -- "release"
  | initExiting        -- "init exiting"
  | failedToMap        -- "Failed to map page.\n"
  | failedToAllocate   -- "Failed to allocate.\n"
  | maxProcesses       -- "Max processes.\n"
  | negativeCounter    -- "ERROR negative counter %d\n"
  | manageFork         -- "Manage Fork\n"
  | trap               -- "trap"
deriving DecidableEq

end Xv6
