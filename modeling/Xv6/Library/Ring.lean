import Mathlib

/-!
# Ring buffers

The contents of a ring of `cap` cells from position `r` on. Positions are
counters that only grow; a cell is reached through its position modulo `cap`,
so counters that wrap at a multiple of `cap` do as well (`contents_mod`).

In a program the positions are such counters, of 32 bits: `between` is what lies
between two of them, and §2 says what happens to it when one of them moves.
-/

namespace Ring

open Function

variable {α : Type*}

/-! ## §1  Positions -/

/-- The `n` elements from position `r` on. -/
def contents (cap : Nat) (cells : Nat → α) (r n : Nat) : List α :=
  (List.range n).map fun j => cells ((r + j) % cap)

@[simp] theorem contents_length (cap : Nat) (cells : Nat → α) (r n : Nat) :
    (contents cap cells r n).length = n := by
  simp [contents]

/-- Only the position modulo the capacity counts. -/
theorem contents_mod {cap r r' : Nat} (h : r % cap = r' % cap) (cells : Nat → α) (n : Nat) :
    contents cap cells r n = contents cap cells r' n := by
  refine List.map_congr_left fun j _ => ?_
  rw [Nat.add_mod, h, ← Nat.add_mod]

/-- Two positions less than one round apart are different cells. -/
theorem cell_ne {cap r j n : Nat} (hj : j < n) (hn : n < cap) : (r + j) % cap ≠ (r + n) % cap := by
  intro heq
  have hdvd : cap ∣ (r + n) - (r + j) :=
    Nat.dvd_of_mod_eq_zero (Nat.sub_mod_eq_zero_of_mod_eq heq.symm)
  have := Nat.le_of_dvd (by omega) hdvd
  omega

/-- An element stored further on leaves the elements before it alone. -/
theorem contents_update {cap m n : Nat} (hm : m ≤ n) (hn : n < cap) (cells : Nat → α) (r : Nat)
    (a : α) :
    contents cap (update cells ((r + n) % cap) a) r m = contents cap cells r m := by
  refine List.map_congr_left fun j hj => ?_
  have hjn : j < n := Nat.lt_of_lt_of_le (List.mem_range.mp hj) hm
  exact update_of_ne (cell_ne hjn hn) ..

/-- The elements up to a position, and those from it on. -/
theorem contents_add (cap : Nat) (cells : Nat → α) (r m n : Nat) :
    contents cap cells r (m + n) = contents cap cells r m ++ contents cap cells (r + m) n := by
  rw [contents, List.range_add, List.map_append, List.map_map, contents, contents]
  refine congrArg₂ _ rfl (List.map_congr_left fun j _ => ?_)
  rw [Function.comp, Nat.add_assoc]

/-- The last element, and the others. -/
theorem contents_concat (cap : Nat) (cells : Nat → α) (r n : Nat) :
    contents cap cells r (n + 1) = contents cap cells r n ++ [cells ((r + n) % cap)] :=
  contents_add cap cells r n 1

/-- **Push**: an element stored behind the last one. -/
theorem contents_push {cap n : Nat} (hn : n < cap) (cells : Nat → α) (r : Nat) (a : α) :
    contents cap (update cells ((r + n) % cap) a) r (n + 1) =
      contents cap cells r n ++ [a] := by
  rw [contents_concat, contents_update (Nat.le_refl n) hn, update_self]

/-- **Pop**: the first element, and the others. -/
theorem contents_pop (cap : Nat) (cells : Nat → α) (r n : Nat) :
    contents cap cells r (n + 1) = cells (r % cap) :: contents cap cells (r + 1) n := by
  rw [contents, List.range_succ_eq_map, List.map_cons, List.map_map, contents]
  refine congrArg₂ _ rfl (List.map_congr_left fun j _ => ?_)
  simp only [Function.comp, Nat.succ_eq_add_one, Nat.add_assoc, Nat.add_comm 1 j]

/-! ## §2  Counters of 32 bits -/

/-- The elements from one counter to another. -/
def between (cap : Nat) (cells : Nat → α) (a b : UInt32) : List α :=
  contents cap cells a.toNat (b - a).toNat

@[simp] theorem between_length (cap : Nat) (cells : Nat → α) (a b : UInt32) :
    (between cap cells a b).length = (b - a).toNat :=
  contents_length ..

@[simp] theorem between_self (cap : Nat) (cells : Nat → α) (a : UInt32) :
    between cap cells a a = [] := by
  apply List.eq_nil_of_length_eq_zero
  rw [between_length, UInt32.sub_self]
  rfl

section Distance

variable {a b c : UInt32}

theorem distance_pos (hne : a ≠ b) : 0 < (b - a).toNat := by
  have h₁ := a.toNat_lt
  have h₂ := b.toNat_lt
  rw [Ne, ← UInt32.toNat_inj] at hne
  rw [UInt32.toNat_sub]
  omega

theorem distance_succ (hlt : (b - a).toNat + 1 < 2 ^ 32) :
    (b + 1 - a).toNat = (b - a).toNat + 1 := by
  have h₁ := a.toNat_lt
  have h₂ := b.toNat_lt
  rw [UInt32.toNat_sub] at hlt
  rw [UInt32.toNat_sub, UInt32.toNat_sub, UInt32.toNat_add]
  change (2 ^ 32 - a.toNat + (b.toNat + 1) % 2 ^ 32) % 2 ^ 32 = _
  omega

theorem distance_pred (hne : a ≠ b) : (b - 1 - a).toNat + 1 = (b - a).toNat := by
  have hpos := distance_pos hne
  have h₁ := a.toNat_lt
  have h₂ := b.toNat_lt
  rw [UInt32.toNat_sub] at hpos
  rw [UInt32.toNat_sub, UInt32.toNat_sub, UInt32.toNat_sub]
  change (2 ^ 32 - a.toNat + (2 ^ 32 - 1 + b.toNat) % 2 ^ 32) % 2 ^ 32 + 1 = _
  omega

theorem distance_shrink (hne : a ≠ b) : (b - (a + 1)).toNat + 1 = (b - a).toNat := by
  have hpos := distance_pos hne
  have h₁ := a.toNat_lt
  have h₂ := b.toNat_lt
  rw [UInt32.toNat_sub] at hpos
  rw [UInt32.toNat_sub, UInt32.toNat_sub, UInt32.toNat_add]
  change (2 ^ 32 - (a.toNat + 1) % 2 ^ 32 + b.toNat) % 2 ^ 32 + 1 = _
  omega

theorem distance_add (hlt : (b - a).toNat + (c - b).toNat < 2 ^ 32) :
    (c - a).toNat = (b - a).toNat + (c - b).toNat := by
  have h₁ := a.toNat_lt
  have h₂ := b.toNat_lt
  have h₃ := c.toNat_lt
  rw [UInt32.toNat_sub, UInt32.toNat_sub] at hlt ⊢
  rw [UInt32.toNat_sub]
  omega

theorem distance_eq_iff (k : UInt32) : b = a + k ↔ (b - a).toNat = k.toNat := by
  have h₁ := a.toNat_lt
  have h₂ := b.toNat_lt
  have h₃ := k.toNat_lt
  rw [← UInt32.toNat_inj, UInt32.toNat_add, UInt32.toNat_sub]
  omega

/-- A counter and how far the other one is, as far as the cell goes. -/
theorem index_add {cap : Nat} (hcap : cap ∣ 2 ^ 32) (a b : UInt32) :
    (a.toNat + (b - a).toNat) % cap = b.toNat % cap := by
  have hsum : (a.toNat + (b - a).toNat) % 2 ^ 32 = b.toNat := by
    have h₁ := a.toNat_lt
    have h₂ := b.toNat_lt
    rw [UInt32.toNat_sub]
    omega
  rw [← Nat.mod_mod_of_dvd _ hcap, hsum]

theorem index_succ {cap : Nat} (hcap : cap ∣ 2 ^ 32) (a : UInt32) :
    (a + 1).toNat % cap = (a.toNat + 1) % cap := by
  rw [UInt32.toNat_add]
  exact Nat.mod_mod_of_dvd _ hcap

end Distance

section Between

variable {cap : Nat} {a b c : UInt32}

/-- An element is stored at the second counter, which moves on. -/
theorem between_push (hcap : cap ∣ 2 ^ 32) (hlt : (b - a).toNat < cap)
    (hwrap : (b - a).toNat + 1 < 2 ^ 32) (cells : Nat → α) (x : α) :
    between cap (update cells (b.toNat % cap) x) a (b + 1) =
      between cap cells a b ++ [x] := by
  rw [between, distance_succ hwrap, ← index_add hcap a b]
  exact contents_push hlt cells a.toNat x

/-- An element is stored at a counter beyond both. -/
theorem between_update (hcap : cap ∣ 2 ^ 32) (hle : (b - a).toNat ≤ (c - a).toNat)
    (hlt : (c - a).toNat < cap) (cells : Nat → α) (x : α) :
    between cap (update cells (c.toNat % cap) x) a b = between cap cells a b := by
  rw [between, ← index_add hcap a c]
  exact contents_update hle hlt cells a.toNat x

/-- The first counter moves on. -/
theorem between_pop (hcap : cap ∣ 2 ^ 32) (hne : a ≠ b) (cells : Nat → α) :
    between cap cells a b = cells (a.toNat % cap) :: between cap cells (a + 1) b := by
  rw [between, ← distance_shrink hne, contents_pop, contents_mod (index_succ hcap a).symm]
  rfl

/-- The second counter moves back. -/
theorem between_concat (hcap : cap ∣ 2 ^ 32) (hne : a ≠ b) (cells : Nat → α) :
    between cap cells a b = between cap cells a (b - 1) ++ [cells ((b - 1).toNat % cap)] := by
  rw [between, ← distance_pred hne, contents_concat, index_add hcap]
  rfl

/-- A counter in between. -/
theorem between_append (hcap : cap ∣ 2 ^ 32) (hlt : (b - a).toNat + (c - b).toNat < 2 ^ 32)
    (cells : Nat → α) :
    between cap cells a c = between cap cells a b ++ between cap cells b c := by
  rw [between, distance_add hlt, contents_add, contents_mod (index_add hcap a b)]
  rfl

end Between

end Ring
