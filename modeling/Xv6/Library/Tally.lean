import Mathlib

/-!
# Tallies: finite sums and head counts under a change at one point

Ownership of a resource is kept here as a *tally*: a natural number for each
holder, summed over all holders. An operation changes one holder, so the two
facts a proof needs are how a sum moves when one summand changes and how a
head count moves when one member joins or leaves.
-/

namespace Tally

open Finset

variable {ι : Type*}

/-- A summand is at most the sum. -/
theorem le_sum {s : Finset ι} {f : ι → ℕ} {i : ι} (hi : i ∈ s) :
    f i ≤ ∑ j ∈ s, f j :=
  Finset.single_le_sum (fun _ _ => Nat.zero_le _) hi

/-- A positive sum has a positive summand. -/
theorem exists_pos_of_sum {s : Finset ι} {f : ι → ℕ} (h : 0 < ∑ j ∈ s, f j) :
    ∃ i ∈ s, 0 < f i := by
  by_contra hnone
  push Not at hnone
  have : ∑ j ∈ s, f j = 0 :=
    Finset.sum_eq_zero fun j hj => Nat.le_zero.mp (hnone j hj)
  omega

/-- Summands of at most 1, no two of them positive. -/
theorem sum_le_one {s : Finset ι} {f : ι → ℕ} (hle : ∀ i ∈ s, f i ≤ 1)
    (huniq : ∀ i ∈ s, ∀ j ∈ s, 0 < f i → 0 < f j → i = j) : ∑ i ∈ s, f i ≤ 1 := by
  rcases Nat.eq_zero_or_pos (∑ i ∈ s, f i) with h0 | hpos
  · omega
  · obtain ⟨i, hi, hfi⟩ := exists_pos_of_sum hpos
    rw [Finset.sum_eq_single_of_mem i hi]
    · exact hle i hi
    · intro j hj hne
      by_contra hnz
      exact hne (huniq j hj i hi (Nat.pos_of_ne_zero hnz) hfi)

/-- A sum over a list of indices is the sum over their range. -/
theorem sum_map_range (g : ℕ → ℕ) : ∀ n : ℕ,
    ((List.range n).map g).sum = ∑ i ∈ Finset.range n, g i
  | 0 => rfl
  | n + 1 => by
    rw [List.range_succ, List.map_append, List.sum_append, sum_map_range g n,
      Finset.sum_range_succ]
    simp

/-- A count over all indices of a finite type, as a sum. -/
theorem countP_finRange {n : ℕ} (p : Fin n → Prop) [DecidablePred p] :
    (List.finRange n).countP (fun i => p i) = ∑ i, if p i then 1 else 0 := by
  rw [← Finset.card_filter, Finset.card_def, Finset.filter_val, Finset.val_univ_fin,
    ← Multiset.countP_eq_card_filter, Multiset.coe_countP]

variable [DecidableEq ι]

/-- Two families that agree off `i` have sums that differ by what `i`
contributes. Stated without subtraction. -/
theorem sum_change {M : Type*} [AddCommMonoid M] {s : Finset ι} {f g : ι → M} {i : ι} (hi : i ∈ s)
    (h : ∀ j ∈ s, j ≠ i → g j = f j) :
    ∑ j ∈ s, g j + f i = ∑ j ∈ s, f j + g i := by
  rw [← Finset.add_sum_erase s g hi, ← Finset.add_sum_erase s f hi]
  have hrest : ∑ j ∈ s.erase i, g j = ∑ j ∈ s.erase i, f j :=
    Finset.sum_congr rfl fun j hj =>
      h j (Finset.mem_of_mem_erase hj) (Finset.ne_of_mem_erase hj)
  rw [hrest, add_right_comm, add_comm (g i), add_right_comm]

/-- Two summands are at most the sum. -/
theorem add_le_sum {s : Finset ι} {f : ι → ℕ} {i j : ι} (hi : i ∈ s)
    (hj : j ∈ s) (hij : i ≠ j) : f i + f j ≤ ∑ k ∈ s, f k := by
  rw [← Finset.add_sum_erase s f hi]
  have := le_sum (f := f) (Finset.mem_erase.mpr ⟨hij.symm, hj⟩)
  omega

end Tally
