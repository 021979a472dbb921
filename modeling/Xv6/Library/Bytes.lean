import Mathlib

/-!
# Numbers, words and bits in byte memory

Memory is a function from offsets to bytes. A number of `k` bytes at offset
`o` is stored with its lowest byte first. What is stored is read back
(`getLe_setLe`), and reading elsewhere does not notice the store
(`getLe_setLe_of_disjoint`); nothing else about the encoding is used outside
this file. Bit `k` of a memory is bit `k % 8` of its byte `k / 8`.
-/

namespace Bytes

open Function

/-- The number in the `k` bytes from offset `o` on. -/
def getLe (b : Nat → UInt8) (o : Nat) : Nat → Nat
  | 0 => 0
  | k + 1 => (b o).toNat + 256 * getLe b (o + 1) k

/-- The number `v` stored in the `k` bytes from offset `o` on. -/
def setLe (b : Nat → UInt8) (o k v : Nat) : Nat → UInt8 := fun i =>
  if o ≤ i ∧ i < o + k then UInt8.ofNat (v / 256 ^ (i - o)) else b i

theorem getLe_congr {b c : Nat → UInt8} {o k : Nat} (h : ∀ i, o ≤ i → i < o + k → b i = c i) :
    getLe b o k = getLe c o k := by
  induction k generalizing o with
  | zero => rfl
  | succ k ih =>
    rw [getLe, getLe, h o (Nat.le_refl o) (by omega), ih fun i hi hlt => h i (by omega) (by omega)]

/-- Bytes that are the digits of a number are read as that number. -/
theorem getLe_digits {b : Nat → UInt8} {o k v : Nat} (hv : v < 256 ^ k)
    (h : ∀ j < k, b (o + j) = UInt8.ofNat (v / 256 ^ j)) : getLe b o k = v := by
  induction k generalizing o v with
  | zero =>
    have : v = 0 := by simpa using hv
    rw [this, getLe]
  | succ k ih =>
    have hrest : getLe b (o + 1) k = v / 256 := by
      refine ih (by rw [Nat.pow_succ] at hv; omega) fun j hj => ?_
      rw [Nat.add_assoc, Nat.add_comm 1 j, h (j + 1) (by omega), Nat.pow_succ,
        Nat.div_div_eq_div_mul, Nat.mul_comm]
    have hfirst : b o = UInt8.ofNat v := by simpa using h 0 (by omega)
    rw [getLe, hrest, hfirst, UInt8.toNat_ofNat']
    omega

theorem getLe_setLe {o k v : Nat} (hv : v < 256 ^ k) (b : Nat → UInt8) :
    getLe (setLe b o k v) o k = v := by
  refine getLe_digits hv fun j hj => ?_
  rw [setLe, if_pos ⟨by omega, by omega⟩, Nat.add_sub_cancel_left]

theorem setLe_of_outside {o k v i : Nat} (h : i < o ∨ o + k ≤ i) (b : Nat → UInt8) :
    setLe b o k v i = b i :=
  if_neg (by omega)

theorem getLe_setLe_of_disjoint {o k v o' k' : Nat} (h : o + k ≤ o' ∨ o' + k' ≤ o)
    (b : Nat → UInt8) : getLe (setLe b o k v) o' k' = getLe b o' k' :=
  getLe_congr fun _ _ _ => setLe_of_outside (by omega) b

/-! ## Words -/

/-- `n` words of four bytes from offset `o` on. -/
def setWords (b : Nat → UInt8) (o : Nat) (w : Nat → Nat) : Nat → Nat → UInt8
  | 0 => b
  | n + 1 => setLe (setWords b o w n) (o + 4 * n) 4 (w n)

theorem setWords_of_outside {o n i : Nat} (h : i < o ∨ o + 4 * n ≤ i) (b : Nat → UInt8)
    (w : Nat → Nat) : setWords b o w n i = b i := by
  induction n with
  | zero => rfl
  | succ n ih => rw [setWords, setLe_of_outside (by omega), ih (by omega)]

theorem getLe_setWords {o n i : Nat} (hi : i < n) {w : Nat → Nat} (hw : w i < 256 ^ 4)
    (b : Nat → UInt8) : getLe (setWords b o w n) (o + 4 * i) 4 = w i := by
  induction n with
  | zero => omega
  | succ n ih =>
    rw [setWords]
    by_cases hin : i = n
    · rw [hin] at hw ⊢
      exact getLe_setLe hw _
    · rw [getLe_setLe_of_disjoint (by omega), ih (by omega)]

/-! ## Bits -/

/-- `1 << (k % 8)`. -/
def mask (k : Nat) : UInt8 := 1 <<< UInt8.ofNat (k % 8)

def getBit (b : Nat → UInt8) (k : Nat) : Bool := b (k / 8) &&& mask k ≠ 0

def setBit (b : Nat → UInt8) (k : Nat) : Nat → UInt8 :=
  update b (k / 8) (b (k / 8) ||| mask k)

def clearBit (b : Nat → UInt8) (k : Nat) : Nat → UInt8 :=
  update b (k / 8) (b (k / 8) &&& ~~~ mask k)

theorem toNat_mask (k : Nat) : (mask k).toNat = 2 ^ (k % 8) := by
  have hk : k % 8 < 8 := Nat.mod_lt _ (by decide)
  have hshift : k % 8 % 2 ^ 8 % 8 = k % 8 := by omega
  rw [mask, UInt8.toNat_shiftLeft, UInt8.toNat_ofNat', hshift, Nat.shiftLeft_eq, UInt8.toNat_one,
    Nat.one_mul]
  exact Nat.mod_eq_of_lt (Nat.pow_lt_pow_right (by decide) hk)

theorem getBit_eq (b : Nat → UInt8) (k : Nat) :
    getBit b k = (b (k / 8)).toNat.testBit (k % 8) := by
  have h : (b (k / 8) &&& mask k).toNat =
      ((b (k / 8)).toNat.testBit (k % 8)).toNat * 2 ^ (k % 8) := by
    rw [UInt8.toNat_and, toNat_mask, Nat.and_two_pow]
  rw [getBit]
  cases hbit : (b (k / 8)).toNat.testBit (k % 8) with
  | true =>
    have hpos := Nat.two_pow_pos (k % 8)
    rw [hbit, Bool.toNat_true, Nat.one_mul] at h
    refine decide_eq_true fun hz => ?_
    rw [hz, UInt8.toNat_zero] at h
    omega
  | false =>
    rw [hbit, Bool.toNat_false, Nat.zero_mul] at h
    refine decide_eq_false (not_not_intro (UInt8.toNat_inj.mp ?_))
    rw [h, UInt8.toNat_zero]

theorem getBit_setBit (b : Nat → UInt8) (k j : Nat) :
    getBit (setBit b k) j = (decide (j = k) || getBit b j) := by
  rw [getBit_eq, getBit_eq, setBit]
  by_cases hjk : j / 8 = k / 8
  · rw [hjk, update_self, UInt8.toNat_or, Nat.testBit_or, toNat_mask, Nat.testBit_two_pow,
      Bool.or_comm]
    congr 1
    exact decide_eq_decide.mpr ⟨fun h => by omega, fun h => by omega⟩
  · have hne : j ≠ k := fun h => hjk (by rw [h])
    rw [update_of_ne hjk]
    simp [hne]

theorem getBit_clearBit (b : Nat → UInt8) (k j : Nat) :
    getBit (clearBit b k) j = (!decide (j = k) && getBit b j) := by
  rw [getBit_eq, getBit_eq, clearBit]
  by_cases hjk : j / 8 = k / 8
  · have hj : j % 8 < 8 := Nat.mod_lt _ (by decide)
    have hlt : 2 ^ (k % 8) < 2 ^ 8 :=
      Nat.pow_lt_pow_right (by decide) (Nat.mod_lt _ (by decide))
    have hnot : (~~~ mask k).toNat = 2 ^ 8 - (2 ^ (k % 8) + 1) := by
      rw [UInt8.toNat_not, toNat_mask, show UInt8.size = 2 ^ 8 from rfl]
      omega
    rw [hjk, update_self, UInt8.toNat_and, Nat.testBit_and, hnot,
      Nat.testBit_two_pow_sub_succ hlt, Nat.testBit_two_pow, Bool.and_comm]
    simp only [hj, decide_true, Bool.true_and]
    congr 2
    exact decide_eq_decide.mpr ⟨fun h => by omega, fun h => by omega⟩
  · have hne : j ≠ k := fun h => hjk (by rw [h])
    rw [update_of_ne hjk]
    simp [hne]

/-! ## Copies -/

/-- `m` bytes of `src` copied to offset `o`. -/
def copy (b : Nat → UInt8) (o m : Nat) (src : Nat → UInt8) : Nat → UInt8 := fun i =>
  if o ≤ i ∧ i < o + m then src (i - o) else b i

end Bytes
