import Xv6.Fs.InodeTable
import Xv6.Kernel.Strings

/-!
# Directories: entries, names and scans

A directory is a file of 16-byte entries: an inode number and a name of up to 14
bytes. `namecmp` compares two names up to their first 0, so a name counts as the
bytes before it (`namecmp_iff`). `dirlookup`, `dirlink` and `isdirempty` go through
the entries in order until one meets a condition; the scan stands once
(`dirScan`), and on a directory of whole entries it is a search in the list of
entries (`dirScan_eq`).
-/

namespace Xv6.Fs

/-! ## §1  Names -/

def dirsiz : Nat := 14

/-- A string in memory: its bytes, and a 0 behind them. -/
def buf (l : List UInt8) : Buf := fun k => l.getD k 0

def namecmp (s t : List UInt8) : Int := strncmp (buf s) (buf t) dirsiz

/-- What counts of a name: at most 14 bytes, and those before the first 0. -/
def cstr (l : List UInt8) : List UInt8 := (l.take dirsiz).takeWhile (· ≠ 0)

/-- `strncpy(de.name, name, DIRSIZ)`. -/
def strncpy (name : List UInt8) : List UInt8 :=
  cstr name ++ List.replicate (dirsiz - (cstr name).length) 0

theorem takeWhile_take_of_zero {l : List UInt8} : ∀ n,
    ((List.range n).map (buf l)).takeWhile (· ≠ 0) = (l.take n).takeWhile (· ≠ 0) := by
  induction l with
  | nil =>
    intro n
    cases n with
    | zero => rfl
    | succ n =>
      rw [List.range_succ_eq_map, List.map_cons, List.takeWhile_cons_of_neg, List.take_nil]
      · rfl
      · simp [buf]
  | cons a l ih =>
    intro n
    cases n with
    | zero => rfl
    | succ n =>
      have hshift : (List.range n).map (buf (a :: l) ∘ Nat.succ) = (List.range n).map (buf l) :=
        rfl
      rw [List.range_succ_eq_map, List.map_cons, List.map_map, hshift, List.take_succ_cons]
      change List.takeWhile _ (a :: _) = _
      by_cases ha : a = 0
      · rw [List.takeWhile_cons_of_neg, List.takeWhile_cons_of_neg] <;> simpa using ha
      · rw [List.takeWhile_cons_of_pos, List.takeWhile_cons_of_pos, ih]
        · simpa using ha
        · simpa using ha

/-- The loop of `strncmp` answers 0 on equal strings. -/
theorem strncmpFrom_eq_zero_iff_takeWhile (p q : Buf) : ∀ n k, strncmpFrom p q k n = 0 ↔
    ((List.range' k n).map p).takeWhile (· ≠ 0) = ((List.range' k n).map q).takeWhile (· ≠ 0)
  | 0, k => by simp [strncmpFrom]
  | n + 1, k => by
    rw [strncmpFrom, List.range'_succ, List.map_cons, List.map_cons]
    by_cases hp : p k = 0
    · rw [if_neg fun h => h.1 hp, List.takeWhile_cons_of_neg (by simpa using hp),
        toNat_sub_eq_zero]
      by_cases hq : q k = 0
      · rw [List.takeWhile_cons_of_neg (by simpa using hq), hp, hq]
        exact iff_of_true rfl rfl
      · rw [List.takeWhile_cons_of_pos (by simpa using hq), hp]
        exact ⟨fun h => absurd h.symm hq, fun h => by cases h⟩
    · rw [List.takeWhile_cons_of_pos (by simpa using hp)]
      by_cases hpq : p k = q k
      · rw [if_pos ⟨hp, hpq⟩, List.takeWhile_cons_of_pos (by simpa [← hpq] using hp), hpq,
          strncmpFrom_eq_zero_iff_takeWhile p q n (k + 1)]
        exact ⟨fun h => by rw [h], fun h => (List.cons.inj h).2⟩
      · rw [if_neg fun h => hpq h.2, toNat_sub_eq_zero]
        refine ⟨fun h => absurd h hpq, fun h => ?_⟩
        by_cases hq : q k = 0
        · rw [List.takeWhile_cons_of_neg (by simpa using hq)] at h
          cases h
        · rw [List.takeWhile_cons_of_pos (by simpa using hq)] at h
          exact (List.cons.inj h).1

/-- **Two names are equal when they agree up to the first 0.** -/
theorem namecmp_iff (s t : List UInt8) : namecmp s t = 0 ↔ cstr s = cstr t := by
  rw [namecmp, strncmp, strncmpFrom_eq_zero_iff_takeWhile, ← List.range_eq_range',
    takeWhile_take_of_zero, takeWhile_take_of_zero]
  rfl

theorem cstr_length_le (l : List UInt8) : (cstr l).length ≤ dirsiz :=
  Nat.le_trans (List.takeWhile_sublist _).length_le (List.length_take_le _ _)

theorem strncpy_length (name : List UInt8) : (strncpy name).length = dirsiz := by
  have := cstr_length_le name
  rw [strncpy, List.length_append, List.length_replicate]
  omega

/-- A stored name counts as the name that was stored. -/
theorem cstr_strncpy (name : List UInt8) : cstr (strncpy name) = cstr name := by
  have hall : ∀ a ∈ cstr name, a ≠ 0 := fun a ha => by
    simpa using List.mem_takeWhile_imp ha
  have htake : (strncpy name).take dirsiz = strncpy name :=
    List.take_of_length_le (Nat.le_of_eq (strncpy_length name))
  rw [cstr, htake, strncpy, List.takeWhile_append_of_pos (by simpa using hall)]
  cases hn : dirsiz - (cstr name).length with
  | zero => simp
  | succ n =>
    rw [List.replicate_succ, List.takeWhile_cons_of_neg (by simp), List.append_nil]

/-! ## §2  Entries -/

/-- `struct dirent`. -/
structure Dirent where
  inum : Nat
  name : List UInt8
deriving DecidableEq

def direntSize : Nat := 16

def Dirent.ofBytes (l : List UInt8) : Dirent where
  inum := (l.getD 0 0).toNat + 256 * (l.getD 1 0).toNat
  name := l.drop 2

/-- The entry that `dirlink` and `mkfs` write. -/
def direntBytes (inum : Nat) (name : List UInt8) : List UInt8 :=
  UInt8.ofNat inum :: UInt8.ofNat (inum / 256) :: strncpy name

theorem direntBytes_length (inum : Nat) (name : List UInt8) :
    (direntBytes inum name).length = direntSize := by
  rw [direntBytes, List.length_cons, List.length_cons, strncpy_length]
  rfl

theorem ofBytes_direntBytes {inum : Nat} (h : inum < 2 ^ 16) (name : List UInt8) :
    Dirent.ofBytes (direntBytes inum name) = ⟨inum, strncpy name⟩ := by
  rw [Dirent.ofBytes, direntBytes, Dirent.mk.injEq]
  refine ⟨?_, rfl⟩
  change (UInt8.ofNat inum).toNat + 256 * (UInt8.ofNat (inum / 256)).toNat = inum
  rw [UInt8.toNat_ofNat', UInt8.toNat_ofNat']
  omega

/-- Entry `k` of a directory. -/
def direntAt (data : List UInt8) (k : Nat) : Dirent :=
  .ofBytes ((data.drop (direntSize * k)).take direntSize)

/-- The entries of a directory. -/
def dirents (data : List UInt8) : List Dirent :=
  (List.range (data.length / direntSize)).map (direntAt data)

theorem dirents_length (data : List UInt8) : (dirents data).length = data.length / direntSize := by
  rw [dirents, List.length_map, List.length_range]

/-! ## §3  Scans -/

/-- The loops of `dirlookup`, `dirlink` and `isdirempty`: the offset of the first
entry that meets `p`, and the entry, or the end. -/
def dirScan {m : Type → Type} [Monad m] (rd : Nat → m Dirent) (p : Dirent → Bool) (size : Nat) :
    Nat → Nat → m (Nat × Option Dirent)
  | 0, off => pure (off, none)
  | fuel + 1, off =>
    if off < size then do
      let de ← rd off
      if p de then pure (off, some de) else dirScan rd p size fuel (off + direntSize)
    else pure (off, none)

/-- **A scan finds the first entry** when every entry can be read. -/
theorem dirScan_eq {σ ε : Type} {rd : Nat → StateT σ (Except ε) Dirent} {p : Dirent → Bool}
    {es : List Dirent} {s : σ}
    (hrd : ∀ k (hk : k < es.length), rd (direntSize * k) s = .ok (es[k], s)) :
    ∀ fuel k, es.length ≤ k + fuel → k ≤ es.length →
      dirScan rd p (direntSize * es.length) fuel (direntSize * k) s =
        .ok ((direntSize * (k + (es.drop k).findIdx p), es[k + (es.drop k).findIdx p]?), s)
  | 0, k, hfuel, hk => by
    obtain rfl : k = es.length := by omega
    rw [List.drop_length, List.findIdx_nil, Nat.add_zero, List.getElem?_eq_none (Nat.le_refl _)]
    rfl
  | fuel + 1, k, hfuel, hk => by
    rw [dirScan]
    by_cases hlt : k < es.length
    · rw [if_pos (Nat.mul_lt_mul_of_pos_left hlt (by decide)), List.drop_eq_getElem_cons hlt,
        List.findIdx_cons]
      change (rd (direntSize * k) s >>= fun x => _) = _
      rw [hrd k hlt]
      by_cases hp : p es[k] = true
      · simp only [bind, Except.bind, hp, if_true, cond_true, Nat.add_zero]
        rw [List.getElem?_eq_getElem hlt]
        rfl
      · have hrec := dirScan_eq (p := p) hrd fuel (k + 1) (by omega) hlt
        simp only [Nat.mul_add, Nat.mul_one] at hrec
        simp only [bind, Except.bind, hp, if_false, cond_false, Bool.false_eq_true]
        rw [hrec, show k + ((es.drop (k + 1)).findIdx p + 1) = k + 1 + (es.drop (k + 1)).findIdx p
          by omega, Nat.mul_add direntSize (k + 1), Nat.mul_add direntSize k, Nat.mul_one]
    · obtain rfl : k = es.length := by omega
      rw [if_neg (Nat.lt_irrefl _), List.drop_length, List.findIdx_nil, Nat.add_zero,
        List.getElem?_eq_none (Nat.le_refl _)]
      rfl

end Xv6.Fs
