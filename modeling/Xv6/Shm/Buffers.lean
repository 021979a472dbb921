import Xv6.Shm.Table

/-!
# What lies behind a key

The kernel reads a user's key in place, so a call sees the bytes behind the
terminator too. `strncmp` and the copy of `strlen` bytes stop at the
terminator, and `shmget` uses nothing else: it does the same for any two
buffers with the same key. `shmrem` compares 16 bytes with the sentinel of
`exit`, so a user who knows the bytes behind that literal reaches the path
that detaches everything.
-/

namespace Xv6

open Outcome

/-! ## §1  Buffers with the same key -/

/-- Both buffers hold the same NUL-terminated key of 1 to 16 bytes. -/
def SameKey (b₁ b₂ : Buf) : Prop :=
  ∃ n, 1 ≤ n ∧ n ≤ 16 ∧ IsStr b₁ n ∧ IsStr b₂ n ∧ ∀ i < n, b₁ i = b₂ i

variable {b₁ b₂ : Buf}

theorem SameKey.symm (h : SameKey b₁ b₂) : SameKey b₂ b₁ := by
  obtain ⟨n, h₁, h₁₆, hs₁, hs₂, heq⟩ := h
  exact ⟨n, h₁, h₁₆, hs₂, hs₁, fun i hi => (heq i hi).symm⟩

/-- `strncmp` does not look past the terminator. -/
theorem strncmpFrom_congr {n : Nat} (h₁ : IsStr b₁ n) (h₂ : IsStr b₂ n) (heq : ∀ i < n, b₁ i = b₂ i)
    (x : Buf) : ∀ (m k : Nat), k ≤ n →
    strncmpFrom x b₁ k m = strncmpFrom x b₂ k m
  | 0, _, _ => rfl
  | m + 1, k, hk => by
    have hat : b₁ k = b₂ k := by
      rcases Nat.eq_or_lt_of_le hk with rfl | hlt
      · rw [h₁.1, h₂.1]
      · exact heq k hlt
    rw [strncmpFrom, strncmpFrom, hat]
    by_cases hc : x k ≠ 0 ∧ x k = b₂ k
    · have hlt : k < n := by
        refine Nat.lt_of_le_of_ne hk ?_
        rintro rfl
        exact hc.1 (hc.2.trans h₂.1)
      rw [if_pos hc, if_pos hc]
      exact strncmpFrom_congr h₁ h₂ heq x m (k + 1) hlt
    · rw [if_neg hc, if_neg hc]

theorem SameKey.strncmp_eq (h : SameKey b₁ b₂) (x : Buf) :
    strncmp x b₁ 16 = strncmp x b₂ 16 := by
  obtain ⟨n, -, -, hs₁, hs₂, heq⟩ := h
  exact strncmpFrom_congr hs₁ hs₂ heq x 16 0 (Nat.zero_le n)

/-- The copy of the key is the same. -/
theorem SameKey.memmove_eq (h : SameKey b₁ b₂) (k : Key) :
    memmove k b₁ (strlen b₁) = memmove k b₂ (strlen b₂) := by
  obtain ⟨n, -, h₁₆, hs₁, hs₂, heq⟩ := h
  have hn : n < kernBase := by
    simp only [kernBase]
    omega
  rw [hs₁.strlen hn, hs₂.strlen hn]
  funext i
  simp only [memmove]
  split
  · exact heq i ‹_›
  · rfl

/-! ## §2  The calls -/

theorem SameKey.findRec_eq (h : SameKey b₁ b₂) (q : Proc) :
    findRec q b₁ = findRec q b₂ := by
  simp only [findRec, h.strncmp_eq]

theorem SameKey.scanKeys_eq (h : SameKey b₁ b₂) (t : ShmTable) (is : List (Fin shmemPages))
    (free : Option (Fin shmemPages)) :
    scanKeys t b₁ is free = scanKeys t b₂ is free := by
  induction is generalizing free with
  | nil => rfl
  | cons i is ih => simp only [scanKeys, h.strncmp_eq, ih]

theorem SameKey.findDetach_eq (h : SameKey b₁ b₂) (p : Fin nproc) (s : Kernel) :
    findDetach p b₁ s = findDetach p b₂ s := by
  simp only [findDetach, h.strncmp_eq, h.findRec_eq]

theorem SameKey.placePage_eq (h : SameKey b₁ b₂) (p : Fin nproc) (t : Fin shmemPages) (s : Kernel) :
    placePage p b₁ t s = placePage p b₂ t s := by
  simp only [placePage, Proc.attach, h.memmove_eq]

variable [Image]

theorem SameKey.shmget_eq (h : SameKey b₁ b₂) (p : Fin nproc) (s : Kernel) :
    shmget p b₁ s = shmget p b₂ s := by
  simp only [shmget, h.scanKeys_eq, h.findRec_eq, h.placePage_eq, h.memmove_eq]

theorem SameKey.shmrem_eq (h : SameKey b₁ b₂)
    (htest : memcmp b₁ Image.shmremLit 16 = 0 ↔ memcmp b₂ Image.shmremLit 16 = 0) (p : Fin nproc)
    (s : Kernel) : shmrem p b₁ s = shmrem p b₂ s := by
  simp only [shmrem, htest, h.findDetach_eq]

/-- The path of a key returns 0, or 1 and empties the record. -/
theorem detachKey_result {p : Fin nproc} {i y : Fin shmemPages} {s s' : Kernel} {r : Int}
    (h : detachKey p i y s = .ok (r, s')) : r = 0 ∨ r = 1 ∧ (s'.proc p).pKey y = zeroKey := by
  unfold detachKey at h
  simp only at h
  split at h
  · obtain ⟨m, -, h⟩ := bind_ok h
    obtain ⟨s₁, -, h⟩ := bind_ok h
    cases h
    exact .inl rfl
  · obtain ⟨s₁, -, h⟩ := bind_ok h
    cases h
    exact .inr ⟨rfl, by simp⟩

/-- Of two buffers with the same key, one taken for the sentinel and one not:
the values or the recorded keys differ. -/
theorem SameKey.shmrem_differs (h : SameKey b₁ b₂) (h₁ : memcmp b₁ Image.shmremLit 16 = 0)
    (h₂ : memcmp b₂ Image.shmremLit 16 ≠ 0) {p : Fin nproc} {s s₁ s₂ : Kernel} {r₁ r₂ : Int}
    (hrun₁ : shmrem p b₁ s = .ok (r₁, s₁)) (hrun₂ : shmrem p b₂ s = .ok (r₂, s₂)) :
    ¬ (r₁ = r₂ ∧ (s₁.proc p).pKey = (s₂.proc p).pKey) := by
  rintro ⟨rfl, hkeys⟩
  obtain ⟨-, ⟨-, rfl, s₁', hall, rfl⟩ | ⟨hno, -⟩ | ⟨hno, -⟩⟩ := shmrem_ok hrun₁
  · obtain ⟨-, ⟨hyes, -⟩ | ⟨-, -, hr, -⟩ | ⟨-, i, y, s₂', hfind, hdet, rfl⟩⟩ := shmrem_ok hrun₂
    · exact h₂ hyes
    · cases hr
    · rcases detachKey_result hdet with hr | ⟨-, hzero⟩
      · cases hr
      · -- the emptied record is the one that had compared equal
        obtain ⟨n, hn, h₁₆, -, hs₂, -⟩ := h
        have hrec : (s.proc p).pKey y = zeroKey := by
          have hkept := detachAll_field (f := Proc.pKey) (fun _ _ _ => rfl) hall
          exact (congrFun (hkept.symm.trans hkeys) y).trans hzero
        refine strncmp_empty_ne ?_ (hs₂.isKey hn h₁₆) (findRec_some (findDetach_some hfind).2)
        rw [hrec]
        rfl
  · exact absurd h₁ hno
  · exact absurd h₁ hno

/-- **Two buffers with the same key.** `shmget` does the same for both, in
every state. `shmrem` does if and only if both or neither of them are taken
for the sentinel of `exit`: then the calls are the same, and otherwise two
calls that return differ in their value or in the recorded keys. -/
theorem sameKey_calls (p : Fin nproc) (s : Kernel) {b₁ b₂ : Buf} {lim₁ lim₂ : Nat}
    (h : SameKey b₁ b₂) (h₁ : keyLengthOk b₁ lim₁ = true) (h₂ : keyLengthOk b₂ lim₂ = true) :
    (Call.shmget b₁ lim₁).run p s = (Call.shmget b₂ lim₂).run p s ∧
    ((memcmp b₁ Image.shmremLit 16 = 0 ↔ memcmp b₂ Image.shmremLit 16 = 0) →
      (Call.shmrem b₁ lim₁).run p s = (Call.shmrem b₂ lim₂).run p s) ∧
    ∀ r₁ r₂ s₁ s₂, (Call.shmrem b₁ lim₁).run p s = .ok (r₁, s₁) →
      (Call.shmrem b₂ lim₂).run p s = .ok (r₂, s₂) →
      r₁ = r₂ → (s₁.proc p).pKey = (s₂.proc p).pKey →
      (memcmp b₁ Image.shmremLit 16 = 0 ↔ memcmp b₂ Image.shmremLit 16 = 0) := by
  simp only [Call.run, sysShmget, sysShmrem, h₁, h₂, if_true]
  refine ⟨h.shmget_eq p s, fun htest => by rw [h.shmrem_eq htest], ?_⟩
  intro r₁ r₂ s₁ s₂ hrun₁ hrun₂ hr hkeys
  obtain ⟨⟨v₁, s₁'⟩, hrem₁, hret₁⟩ := bind_ok hrun₁
  obtain ⟨⟨v₂, s₂'⟩, hrem₂, hret₂⟩ := bind_ok hrun₂
  cases hret₁
  cases hret₂
  have hv : v₁ = v₂ := by simpa using hr
  by_contra hdiff
  by_cases htest : memcmp b₁ Image.shmremLit 16 = 0
  · exact h.shmrem_differs htest (fun h' => hdiff ⟨fun _ => h', fun _ => htest⟩) hrem₁ hrem₂
      ⟨hv, hkeys⟩
  · have htest₂ : memcmp b₂ Image.shmremLit 16 = 0 := by
      by_contra h'
      exact hdiff ⟨fun hc => absurd hc htest, fun hc => absurd hc h'⟩
    exact h.symm.shmrem_differs htest₂ htest hrem₂ hrem₁ ⟨hv.symm, hkeys.symm⟩

omit [Image] in
/-- Bytes behind an ordinary key make no difference. -/
theorem sameKey_calls_sample :
    @Call.run sampleImage (.shmrem (bufOf [97]) 8) 1 sampleTwo =
      @Call.run sampleImage (.shmrem (bufOf [97, 0, 1]) 8) 1 sampleTwo := by
  let _ := sampleImage
  exact (sameKey_calls 1 sampleTwo
    ⟨1, by decide, by decide, ⟨rfl, by decide⟩, ⟨rfl, by decide⟩, by decide⟩
    (show keyLengthOk _ 8 = true from rfl) (show keyLengthOk _ 8 = true from rfl)).2.1
    (by decide)

omit [Image] in
/-- The key `"-1"`: followed by the bytes behind the literal it is taken for
the sentinel, and `shmrem` returns 1; followed by others it is a key nobody
has, and `shmrem` returns -1. -/
theorem sameKey_sentinel : ¬ ∀ (_ : Image) (p : Fin nproc) (s : Kernel) (b₁ b₂ : Buf)
    (lim₁ lim₂ : Nat), SameKey b₁ b₂ → keyLengthOk b₁ lim₁ = true → keyLengthOk b₂ lim₂ = true →
    (Call.shmrem b₁ lim₁).run p s = (Call.shmrem b₂ lim₂).run p s := by
  intro h
  have heq := h sampleImage 1 sampleTwo (bufOf [0x2d, 0x31]) (bufOf [0x2d, 0x31, 0, 1]) 8 8
    ⟨2, by decide, by decide, ⟨rfl, by decide⟩, ⟨rfl, by decide⟩, by decide⟩ rfl rfl
  obtain ⟨s₁, h₁⟩ : ∃ s₁, @Call.run sampleImage (.shmrem (bufOf [0x2d, 0x31]) 8) 1 sampleTwo =
    .ok (.value 1, s₁) := ⟨_, rfl⟩
  obtain ⟨s₂, h₂⟩ : ∃ s₂, @Call.run sampleImage (.shmrem (bufOf [0x2d, 0x31, 0, 1]) 8) 1 sampleTwo =
    .ok (.value (-1), s₂) := ⟨_, rfl⟩
  rw [h₁, h₂] at heq
  cases heq

end Xv6
