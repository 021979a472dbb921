import Mathlib

/-!
# `memmove`, in the kernel and in the user library

`string.c` copies upwards or downwards, as the ranges lie; `ulib.c` always copies
upwards, and takes its length as an `int`. Copying upwards into a range that starts
inside the source reads bytes that were written before: the result is the right one
just when the source repeats itself at that distance (`copyUp_moved_iff`).

Ranges do not wrap around, so addresses are natural numbers.
-/

namespace Xv6

open Function

abbrev Memory : Type := Nat → UInt8

/-! ## §1  The functions -/

/-- `while(n-- > 0) *d++ = *s++`. -/
def copyUp : Nat → Nat → Nat → Memory → Memory
  | 0, _, _, M => M
  | n + 1, d, s, M => copyUp n (d + 1) (s + 1) (update M d (M s))

/-- `while(n-- > 0) *--d = *--s`. -/
def copyDown : Nat → Nat → Nat → Memory → Memory
  | 0, _, _, M => M
  | n + 1, d, s, M => copyDown n (d - 1) (s - 1) (update M (d - 1) (M (s - 1)))

/-- `memmove` of `string.c`. The end of the source is computed as a pointer. -/
def kernelMemmove (dst src : Nat) (n : UInt32) (M : Memory) : Memory :=
  if src < dst ∧ dst < (src + n.toNat) % 2 ^ 32 then
    copyDown n.toNat (dst + n.toNat) (src + n.toNat) M
  else copyUp n.toNat dst src M

/-- `memmove` of `ulib.c`. -/
def userMemmove (dst src : Nat) (n : Int32) (M : Memory) : Memory :=
  copyUp n.toInt.toNat dst src M

/-! ## §2  What is to be left -/

/-- The destination has what the source had, and nothing else changed. -/
structure Moved (dst src n : Nat) (M M' : Memory) : Prop where
  inside : ∀ i < n, M' (dst + i) = M (src + i)
  outside : ∀ a, a < dst ∨ dst + n ≤ a → M' a = M a

variable {dst src n d s : Nat} {M M' : Memory}

theorem Moved.unique {M'' : Memory} (h : Moved dst src n M M') (h' : Moved dst src n M M'') :
    M' = M'' := by
  funext a
  by_cases ha : a < dst ∨ dst + n ≤ a
  · rw [h.outside a ha, h'.outside a ha]
  · obtain ⟨i, rfl⟩ := Nat.exists_eq_add_of_le (show dst ≤ a by omega)
    rw [h.inside i (by omega), h'.inside i (by omega)]

/-! ## §3  The two loops -/

theorem copyUp_outside : ∀ {n d s : Nat} {M : Memory} {a : Nat}, a < d ∨ d + n ≤ a →
    copyUp n d s M a = M a
  | 0, _, _, _, _, _ => rfl
  | n + 1, d, s, M, a, ha => by
    rw [copyUp, copyUp_outside (by omega), update_of_ne (by omega)]

/-- Upwards from above: every byte is read before it is written. -/
theorem copyUp_moved (h : d ≤ s) : Moved d s n M (copyUp n d s M) := by
  refine ⟨fun i hi => ?_, fun a ha => copyUp_outside ha⟩
  induction n generalizing d s M i with
  | zero => exact absurd hi (Nat.not_lt_zero i)
  | succ n ih =>
    rw [copyUp]
    rcases i with - | i
    · rw [copyUp_outside (by omega)]
      exact update_self ..
    · have hrest := ih (M := update M d (M s)) (Nat.succ_le_succ h) i (by omega)
      rw [show d + (i + 1) = d + 1 + i by omega, hrest, update_of_ne (by omega)]
      exact congrArg M (by omega)

/-- Upwards from below: a byte ends up as the one at the distance `d - s` before it. -/
theorem copyUp_repeats : ∀ {n d s : Nat} {M : Memory}, s < d → ∀ i < n,
    copyUp n d s M (d + i) = copyUp n d s M (s + i)
  | 0, _, _, _, _, i, hi => absurd hi (Nat.not_lt_zero i)
  | n + 1, d, s, M, h, i, hi => by
    rw [copyUp]
    rcases i with - | i
    · show copyUp n (d + 1) (s + 1) _ d = copyUp n (d + 1) (s + 1) _ s
      rw [copyUp_outside (by omega), copyUp_outside (by omega), update_self,
        update_of_ne (by omega)]
    · have hrest := copyUp_repeats (n := n) (M := update M d (M s))
        (Nat.succ_lt_succ h) i (by omega)
      rwa [Nat.succ_add_eq_add_succ, Nat.succ_add_eq_add_succ] at hrest

/-- **Copying upwards from below** is right iff the source repeats itself at the distance
of the two ranges, as far as they overlap. -/
theorem copyUp_moved_iff (h : s < d) :
    Moved d s n M (copyUp n d s M) ↔ ∀ i, d + i < s + n → M (d + i) = M (s + i) := by
  have hrep := copyUp_repeats (n := n) (M := M) h
  constructor
  · intro hmoved i hi
    -- the byte at `d + i` is in both ranges
    obtain ⟨k, hk⟩ := Nat.exists_eq_add_of_lt h
    have hfar : s + (i + k + 1) = d + i := by omega
    have hmove := hmoved.inside (i + k + 1) (by omega)
    rw [hrep _ (by omega), hfar, hmoved.inside i (by omega)] at hmove
    exact hmove.symm
  · intro hsame
    refine ⟨fun i => ?_, fun a ha => copyUp_outside ha⟩
    induction i using Nat.strong_induction_on with
    | _ i ih =>
      intro hi
      rw [hrep i hi]
      by_cases hbefore : s + i < d
      · exact copyUp_outside (.inl hbefore)
      · obtain ⟨j, hj⟩ := Nat.exists_eq_add_of_le (Nat.le_of_not_lt hbefore)
        rw [hj, ih j (by omega) (by omega), hsame j (by omega)]

theorem copyDown_moved : ∀ {n d s : Nat} {M : Memory}, s ≤ d →
    Moved d s n M (copyDown n (d + n) (s + n) M)
  | 0, _, _, _, _ => ⟨fun i hi => absurd hi (Nat.not_lt_zero i), fun _ _ => rfl⟩
  | n + 1, d, s, M, h => by
    have hrest := copyDown_moved (n := n) (M := update M (d + n) (M (s + n))) h
    refine ⟨fun i hi => ?_, fun a ha => ?_⟩
    · rcases Nat.lt_succ_iff_lt_or_eq.mp hi with hi | rfl
      · exact (hrest.inside i hi).trans (update_of_ne (by omega) ..)
      · exact (hrest.outside _ (.inr (Nat.le_refl _))).trans (update_self ..)
    · exact (hrest.outside a (by omega)).trans (update_of_ne (by omega) ..)

/-! ## §4  The two functions -/

theorem kernelMemmove_moved {n : UInt32} (hdst : dst + n.toNat ≤ 2 ^ 32) :
    Moved dst src n.toNat M (kernelMemmove dst src n M) := by
  unfold kernelMemmove
  split
  · exact copyDown_moved (by omega)
  · rename_i hno
    by_cases hle : dst ≤ src
    · exact copyUp_moved hle
    · -- the ranges do not overlap, so nothing has to repeat
      have hapart : src + n.toNat ≤ dst := by
        by_contra hover
        exact hno ⟨by omega, by rw [Nat.mod_eq_of_lt (by omega)]; omega⟩
      exact (copyUp_moved_iff (by omega)).mpr fun i hi => absurd hi (by omega)

/-- When the user library's copy is right: the destination does not start inside the
source, or the source repeats itself. With a length beyond the `int`s nothing is copied. -/
def CopiesUp (dst src n : Nat) (M : Memory) : Prop :=
  if n < 2 ^ 31 then dst ≤ src ∨ ∀ i, dst + i < src + n → M (dst + i) = M (src + i)
  else ∀ i < n, M (dst + i) = M (src + i)

theorem toNat_toInt_of_lt {n : UInt32} (h : n.toNat < 2 ^ 31) :
    n.toInt32.toInt.toNat = n.toNat := by
  have hint : n.toInt32.toInt = (n.toNat : Int) := by
    rw [Int32.toInt, UInt32.toBitVec_toInt32, BitVec.toInt_eq_toNat_of_lt]
    · rfl
    · change 2 * n.toNat < 2 ^ 32
      omega
  rw [hint, Int.toNat_natCast]

theorem toNat_toInt_of_le {n : UInt32} (h : 2 ^ 31 ≤ n.toNat) : n.toInt32.toInt.toNat = 0 := by
  have hneg : n.toInt32.toInt < 0 := by
    rw [Int32.toInt, UInt32.toBitVec_toInt32, BitVec.toInt_neg_iff]
    change 2 ^ 32 ≤ 2 * n.toNat
    omega
  exact Int.toNat_of_nonpos (Int.le_of_lt hneg)

theorem userMemmove_moved_iff {n : UInt32} :
    Moved dst src n.toNat M (userMemmove dst src n.toInt32 M) ↔ CopiesUp dst src n.toNat M := by
  unfold userMemmove CopiesUp
  split
  · rename_i hlt
    rw [toNat_toInt_of_lt hlt]
    by_cases hle : dst ≤ src
    · exact iff_of_true (copyUp_moved hle) (.inl hle)
    · rw [copyUp_moved_iff (Nat.lt_of_not_le hle)]
      exact ⟨.inr, fun h => h.resolve_left hle⟩
  · rename_i hge
    rw [toNat_toInt_of_le (Nat.le_of_not_lt hge)]
    exact ⟨fun h => h.inside, fun h => ⟨h, fun _ _ => rfl⟩⟩

/-- **The two `memmove`s.** For ranges that do not wrap around, both move the source, and
so agree, iff copying upwards is right. -/
theorem memmove_both_iff (n : UInt32) (hdst : dst + n.toNat ≤ 2 ^ 32)
    (_hsrc : src + n.toNat ≤ 2 ^ 32) :
    Moved dst src n.toNat M (kernelMemmove dst src n M) ∧
      Moved dst src n.toNat M (userMemmove dst src n.toInt32 M) ∧
      kernelMemmove dst src n M = userMemmove dst src n.toInt32 M ↔
    CopiesUp dst src n.toNat M := by
  have hkernel := @kernelMemmove_moved dst src M n hdst
  rw [userMemmove_moved_iff]
  constructor
  · rintro ⟨-, h, -⟩
    exact h
  · intro h
    exact ⟨hkernel, h, hkernel.unique (userMemmove_moved_iff.mpr h)⟩

/-- The bytes 0, 1, 2 and so on. -/
def counting : Memory := UInt8.ofNat

/-- Three bytes, moved down by one. -/
theorem memmove_both_downwards : kernelMemmove 4 5 3 counting = userMemmove 4 5 3 counting :=
  ((@memmove_both_iff 4 5 counting 3 (by decide) (by decide)).mpr
    (.inl (by decide))).2.2

/-- Two bytes, moved up by one: the second is read after it was written. -/
theorem memmove_upwards_differs : ¬ ∀ (M : Memory) (dst src : Nat) (n : UInt32),
    dst + n.toNat ≤ 2 ^ 32 → src + n.toNat ≤ 2 ^ 32 →
    Moved dst src n.toNat M (kernelMemmove dst src n M) ∧
      Moved dst src n.toNat M (userMemmove dst src n.toInt32 M) ∧
      kernelMemmove dst src n M = userMemmove dst src n.toInt32 M := by
  intro h
  have hmoved := (h counting 5 4 2 (by decide) (by decide)).2.1.inside 1 (by decide)
  exact absurd hmoved (by decide)

end Xv6
