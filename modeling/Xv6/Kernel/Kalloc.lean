import Xv6.Kernel.Layout

/-!
# `kalloc.c`: the page allocator

`kmem.freelist` is kept as the list of the frames on it, head first, and the
contents of physical memory beside it, page by page. The link words that the
source threads through the free pages are not contents anyone may rely on,
and are not kept.

Every frame that enters the list has passed the check of `kfree`, so the list
holds only real frames (`FreelistOK`) however its clients misuse it; that it
holds each of them *once* is what the ownership tallies of the later files
are for.
-/

namespace Xv6

/-- The contents of one page. -/
abbrev Page : Type := Nat → UInt8

/-- Physical memory as the kernel sees it: the free list, and the pages by
their kernel address. -/
structure Mem where
  freelist : List Nat
  ram : Nat → Page

/-- `memset(v, c, PGSIZE)` on a page. -/
def Mem.memset (m : Mem) (v : Nat) (c : UInt8) : Mem :=
  { m with ram := Function.update m.ram v fun _ => c }

/-- `memmove(dst, src, PGSIZE)` on two pages. -/
def Mem.copyPage (m : Mem) (dst src : Nat) : Mem :=
  { m with ram := Function.update m.ram dst (m.ram src) }

def kalloc (m : Mem) : Option Nat × Mem :=
  match m.freelist with
  | [] => (none, m)
  | r :: rest => (some r, { m with freelist := rest })

variable {m m' : Mem}

@[simp] theorem memset_freelist (m : Mem) (v : Nat) (c : UInt8) :
    (m.memset v c).freelist = m.freelist := rfl

@[simp] theorem copyPage_freelist (m : Mem) (dst src : Nat) :
    (m.copyPage dst src).freelist = m.freelist := rfl

theorem kalloc_some {r : Nat} (h : kalloc m = (some r, m')) :
    m.freelist = r :: m'.freelist ∧ m'.ram = m.ram := by
  unfold kalloc at h
  split at h
  · simp at h
  · rename_i r' rest heq
    simp only [Prod.mk.injEq, Option.some.injEq] at h
    obtain ⟨rfl, rfl⟩ := h
    exact ⟨heq, rfl⟩

theorem kalloc_none (h : kalloc m = (none, m')) :
    m' = m ∧ m.freelist = [] := by
  unfold kalloc at h
  split at h
  · rename_i heq
    simp only [Prod.mk.injEq, true_and] at h
    exact ⟨h.symm, heq⟩
  · simp at h

/-- The frame handed out leaves the list once. -/
theorem kalloc_count {r : Nat} (h : kalloc m = (some r, m')) (f : Nat) :
    m.freelist.count f = m'.freelist.count f + if r = f then 1 else 0 := by
  rw [(kalloc_some h).1, List.count_cons]
  simp

variable [Image]

def kfree (v : Nat) (m : Mem) : Except Panic Mem :=
  if IsFrame v then
    -- Fill with junk to catch dangling refs.
    let m := m.memset v 1
    .ok { m with freelist := v :: m.freelist }
  else .error .kfree

/-- Only frames are on the free list. -/
def FreelistOK (m : Mem) : Prop := ∀ f ∈ m.freelist, IsFrame f

/-- A free list that gained nothing. -/
theorem FreelistOK.of_count_le (h : FreelistOK m)
    (hle : ∀ f, m'.freelist.count f ≤ m.freelist.count f) : FreelistOK m' := fun f hf =>
  h f (List.count_pos_iff.mp (Nat.lt_of_lt_of_le (List.count_pos_iff.mpr hf) (hle f)))

theorem kalloc_frame {r : Nat} (h : kalloc m = (some r, m')) (hok : FreelistOK m) :
    IsFrame r ∧ FreelistOK m' := by
  have hl := (kalloc_some h).1
  constructor
  · exact hok r (by simp [hl])
  · intro f hf
    exact hok f (by simp [hl, hf])

theorem kfree_ok {v : Nat} (h : kfree v m = .ok m') :
    IsFrame v ∧ m'.freelist = v :: m.freelist := by
  unfold kfree at h
  split at h
  · rename_i hv
    simp only [Except.ok.injEq] at h
    subst h
    exact ⟨hv, rfl⟩
  · simp at h

theorem kfree_count {v : Nat} (h : kfree v m = .ok m') (f : Nat) :
    m'.freelist.count f = m.freelist.count f + if v = f then 1 else 0 := by
  rw [(kfree_ok h).2, List.count_cons]
  simp

theorem kfree_freelistOK {v : Nat} (h : kfree v m = .ok m') (hok : FreelistOK m) :
    FreelistOK m' := by
  obtain ⟨hv, hl⟩ := kfree_ok h
  intro f hf
  rw [hl, List.mem_cons] at hf
  rcases hf with rfl | hf
  · exact hv
  · exact hok f hf

theorem kfree_of_isFrame {v : Nat} (m : Mem) (h : IsFrame v) :
    kfree v m = .ok { m.memset v 1 with freelist := v :: m.freelist } := by
  simp [kfree, h]

end Xv6
