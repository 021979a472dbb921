import Xv6.Kernel.Layout

/-!
# `string.c` on byte buffers, and 16-byte keys

A buffer is the memory from a pointer on, `Nat → UInt8`. A key slot of the
kernel (`shmem_key`, `keys`) is 16 bytes with no room for a terminator.

The one fact the shared-page proofs need is at the end of §3: for a stored
key that is zero-padded, `strncmp` over 16 bytes against a user buffer is
equality with the padded copy of the user's key (`strncmp_eq_zero_iff_keyOf`).
-/

namespace Xv6

abbrev Buf : Type := Nat → UInt8

/-! ## §1  The functions -/

/-- The loop of `strncmp`, `n` bytes left, both pointers advanced by `k`. -/
def strncmpFrom (p q : Buf) (k : Nat) : Nat → Int
  | 0 => 0
  | n + 1 =>
    if p k ≠ 0 ∧ p k = q k then strncmpFrom p q (k + 1) n
    else ((p k).toNat : Int) - (q k).toNat

def strncmp (p q : Buf) (n : Nat) : Int := strncmpFrom p q 0 n

/-- The loop of `memcmp`, `n` bytes left, both pointers advanced by `k`. -/
def memcmpFrom (s₁ s₂ : Buf) (k : Nat) : Nat → Int
  | 0 => 0
  | n + 1 =>
    if s₁ k ≠ s₂ k then ((s₁ k).toNat : Int) - (s₂ k).toNat
    else memcmpFrom s₁ s₂ (k + 1) n

def memcmp (s₁ s₂ : Buf) (n : Nat) : Int := memcmpFrom s₁ s₂ 0 n

/-- The loop of `strlen`. User strings end below `kernBase`, which bounds the
number of rounds. -/
def strlenFrom (s : Buf) (n : Nat) : Nat → Nat
  | 0 => n
  | fuel + 1 => if s n = 0 then n else strlenFrom s (n + 1) fuel

def strlen (s : Buf) : Nat := strlenFrom s 0 kernBase

/-- A key slot. -/
abbrev Key : Type := Fin 16 → UInt8

/-- A key slot read through a pointer to its first byte. -/
def Key.buf (k : Key) : Buf := fun i => if h : i < 16 then k ⟨i, h⟩ else 0

/-- `memmove` of `n` bytes into a key slot (source and slot are apart). -/
def memmove (dst : Key) (src : Buf) (n : Nat) : Key :=
  fun i => if i.val < n then src i.val else dst i

/-- `memset(key, 0, 16)`. -/
def zeroKey : Key := fun _ => 0

/-! ## §2  What the comparisons decide -/

theorem toNat_sub_eq_zero {a b : UInt8} :
    (a.toNat : Int) - b.toNat = 0 ↔ a = b := by
  rw [← UInt8.toNat_inj]
  omega

/-- `strncmp` answers 0 exactly when the buffers agree up to and including
the first 0 of the left one, or over all `n` bytes. -/
theorem strncmpFrom_eq_zero_iff (p q : Buf) : ∀ (n k : Nat),
    strncmpFrom p q k n = 0 ↔
      ∀ i, k ≤ i → i < k + n → (∀ j, k ≤ j → j < i → p j ≠ 0) → p i = q i
  | 0, k => by
    simp only [strncmpFrom, true_iff]
    intro i h₁ h₂
    omega
  | n + 1, k => by
    by_cases h : p k ≠ 0 ∧ p k = q k
    · rw [strncmpFrom, if_pos h, strncmpFrom_eq_zero_iff p q n (k + 1)]
      constructor
      · intro hall i h₁ h₂ hnz
        rcases Nat.eq_or_lt_of_le h₁ with rfl | h₁
        · exact h.2
        · exact hall i h₁ (by omega) fun j hj₁ hj₂ => hnz j (by omega) hj₂
      · intro hall i h₁ h₂ hnz
        refine hall i (by omega) (by omega) fun j hj₁ hj₂ => ?_
        rcases Nat.eq_or_lt_of_le hj₁ with rfl | hj₁
        · exact h.1
        · exact hnz j hj₁ hj₂
    · rw [strncmpFrom, if_neg h, toNat_sub_eq_zero]
      constructor
      · intro heq i h₁ h₂ hnz
        rcases Nat.eq_or_lt_of_le h₁ with rfl | h₁
        · exact heq
        · exact absurd ⟨hnz k (Nat.le_refl k) h₁, heq⟩ h
      · intro hall
        exact hall k (Nat.le_refl k) (by omega) (by intro j h₁ h₂; omega)

theorem strncmp_eq_zero_iff (p q : Buf) (n : Nat) :
    strncmp p q n = 0 ↔ ∀ i < n, (∀ j < i, p j ≠ 0) → p i = q i := by
  rw [strncmp, strncmpFrom_eq_zero_iff]
  simp

/-! ## §3  NUL-terminated keys -/

/-- `s` holds a NUL-terminated string of `n` bytes. -/
def IsStr (s : Buf) (n : Nat) : Prop := s n = 0 ∧ ∀ i < n, s i ≠ 0

theorem strlenFrom_eq {s : Buf} {n : Nat} (h : IsStr s n) : ∀ (fuel k : Nat),
    k ≤ n → n < k + fuel → strlenFrom s k fuel = n
  | 0, k, h₁, h₂ => by omega
  | fuel + 1, k, h₁, h₂ => by
    rcases Nat.eq_or_lt_of_le h₁ with rfl | h₁
    · simp [strlenFrom, h.1]
    · rw [strlenFrom, if_neg (h.2 k h₁)]
      exact strlenFrom_eq h fuel (k + 1) (by omega) (by omega)

theorem IsStr.strlen {s : Buf} {n : Nat} (h : IsStr s n) (hn : n < kernBase) :
    strlen s = n :=
  strlenFrom_eq h kernBase 0 (Nat.zero_le n) (by omega)

/-- A key a user may pass: a NUL-terminated string of 1 to 16 bytes. -/
def IsKey (s : Buf) : Prop := IsStr s (strlen s) ∧ 1 ≤ strlen s ∧ strlen s ≤ 16

theorem IsStr.isKey {s : Buf} {n : Nat} (h : IsStr s n) (h₁ : 1 ≤ n)
    (h₁₆ : n ≤ 16) : IsKey s := by
  have hlen := h.strlen (by simp only [kernBase]; omega)
  rw [IsKey, hlen]
  exact ⟨h, h₁, h₁₆⟩

/-- The zero-padded copy of the user's key. -/
def keyOf (s : Buf) : Key := memmove zeroKey s (strlen s)

/-- Once a byte is 0, all later ones are. -/
def Padded (k : Key) : Prop := ∀ i j : Fin 16, i ≤ j → k i = 0 → k j = 0

theorem zeroKey_padded : Padded zeroKey := fun _ _ _ _ => rfl

theorem keyOf_padded {s : Buf} (h : IsKey s) : Padded (keyOf s) := by
  intro i j hij hi
  simp only [keyOf, memmove, zeroKey] at hi ⊢
  split at hi
  · rename_i hlt
    exact absurd hi (h.1.2 i.val hlt)
  · rw [if_neg (by omega)]

theorem keyOf_zero_ne {s : Buf} (h : IsKey s) : keyOf s 0 ≠ 0 := by
  have hlt : (0 : Fin 16).val < strlen s := h.2.1
  simp only [keyOf, memmove, if_pos hlt]
  exact h.1.2 0 h.2.1

/-- For a zero-padded slot, its first byte decides whether it is empty. -/
theorem Padded.eq_zero_iff {k : Key} (h : Padded k) : k 0 = 0 ↔ k = zeroKey := by
  constructor
  · intro h₀
    funext i
    exact h 0 i (Fin.zero_le i) h₀
  · rintro rfl
    rfl

theorem Key.buf_of_lt (k : Key) {i : Nat} (h : i < 16) : k.buf i = k ⟨i, h⟩ := by
  simp [Key.buf, h]

/-- **Key comparison.** On a zero-padded slot, `strncmp` over 16 bytes
against a user buffer decides equality with the padded copy of its key. -/
theorem strncmp_eq_zero_iff_keyOf {k : Key} {s : Buf} (hk : Padded k) (hs : IsKey s) :
    strncmp k.buf s 16 = 0 ↔ k = keyOf s := by
  rw [strncmp_eq_zero_iff]
  obtain ⟨⟨hnul, hnz⟩, -, h16⟩ := hs
  constructor
  · intro hall
    -- below the user's terminator the slot is non-zero, by induction
    have hagree : ∀ i, i < strlen s → ∀ h : i < 16, k ⟨i, h⟩ = s i := by
      intro i
      induction i using Nat.strong_induction_on with
      | _ i ih =>
        intro hi h
        rw [← Key.buf_of_lt k h]
        refine hall i h fun j hj => ?_
        rw [Key.buf_of_lt k (by omega), ih j hj (by omega) (by omega)]
        exact hnz j (by omega)
    funext i
    simp only [keyOf, memmove, zeroKey]
    by_cases hi : i.val < strlen s
    · rw [if_pos hi]
      exact hagree i.val hi i.isLt
    · rw [if_neg hi]
      have hlen : strlen s < 16 := by omega
      have hend : k ⟨strlen s, hlen⟩ = 0 := by
        rw [← Key.buf_of_lt k hlen, hall _ hlen, hnul]
        intro j hj
        rw [Key.buf_of_lt k (by omega), hagree j hj (by omega)]
        exact hnz j hj
      exact hk ⟨strlen s, hlen⟩ i (by simp only [Fin.le_def]; omega) hend
  · rintro rfl i hi hpre
    rw [Key.buf_of_lt _ hi]
    simp only [keyOf, memmove, zeroKey]
    by_cases hlt : i < strlen s
    · rw [if_pos hlt]
    · rw [if_neg hlt]
      -- no byte before `i` is 0, so `i` is the terminator
      have : i = strlen s := by
        by_contra hne
        refine hpre (strlen s) (by omega) ?_
        rw [Key.buf_of_lt _ (by omega)]
        simp [keyOf, memmove, zeroKey]
      rw [this, hnul]

/-- Two stored keys, both zero-padded, compare equal only if they are. -/
theorem strncmp_buf_eq_zero_iff {k k' : Key} (hk : Padded k) (hk' : Padded k') :
    strncmp k.buf k'.buf 16 = 0 ↔ k = k' := by
  rw [strncmp_eq_zero_iff]
  constructor
  · intro hall
    have hagree : ∀ i (h : i < 16), k ⟨i, h⟩ = k' ⟨i, h⟩ := by
      intro i
      induction i using Nat.strong_induction_on with
      | _ i ih =>
        intro h
        by_cases hpre : ∀ j < i, k.buf j ≠ 0
        · have := hall i h hpre
          rwa [Key.buf_of_lt _ h, Key.buf_of_lt _ h] at this
        · push Not at hpre
          obtain ⟨j, hj, hz⟩ := hpre
          rw [Key.buf_of_lt _ (by omega)] at hz
          have hle : (⟨j, by omega⟩ : Fin 16) ≤ ⟨i, h⟩ := by
            simp only [Fin.le_def]; omega
          rw [hk _ _ hle hz, hk' _ _ hle (by rw [← ih j hj]; exact hz)]
    funext i
    exact hagree i.val i.isLt
  · rintro rfl i _ _
    rfl

end Xv6
