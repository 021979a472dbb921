import Xv6.Fs.Dir
import Xv6.Library.Outcome
import Xv6.Library.Slots

/-!
# Directories as finite maps

`dirlookup`, `dirlink`, `isdirempty` and the clearing of an entry in `sys_unlink`, on
the bytes of a directory. The entries are a table of slots (`slots`), an entry with
inode number 0 being an empty one, and a name counts as its bytes before the
first 0, at most 14 of them.

From the two dot entries that `create` makes on, whatever entries are made and
cleared, the directory is the finite map that its history says
(`directory_is_map`) — except that `dirlink` panics when the file is at its
largest size and has no empty entry.
-/

namespace Xv6.Fs

open Transition Outcome Function

/-! ## §1  The functions -/

inductive DirPanic where
  | notDir         -- "dirlookup not DIR"
  | lookupRead     -- "dirlookup read"
  | linkRead       -- "dirlink read"
  | link           -- "dirlink"
  | emptyRead      -- "isdirempty: readi"
  | unlinkWrite    -- "unlink: writei"
deriving DecidableEq

/-- On one directory. -/
abbrev DirM := StateT Inode (Except DirPanic)

/-- `readi(dp, (char*)&de, off, sizeof(de))`, which has to read all of it. -/
def readDirent (err : DirPanic) (off : Nat) : DirM Dirent := fun dp =>
  match dp.readi (UInt32.ofNat off) 16 with
  | some l => if l.length = direntSize then .ok (.ofBytes l, dp) else .error err
  | none => .error err

/-- `writei(dp, (char*)&de, off, sizeof(de))`. -/
def writeDirent (err : DirPanic) (off : Nat) (de : List UInt8) : DirM Unit := fun dp =>
  match dp.writei (bytesAt de) (UInt32.ofNat off) 16 with
  | some dp => .ok ((), dp)
  | none => .error err

/-- The entry has the name. -/
def Dirent.named (name : List UInt8) (de : Dirent) : Bool :=
  de.inum ≠ 0 && namecmp name de.name = 0

/-- The inode number and the offset of the entry. -/
def dirlookup (name : List UInt8) : DirM (Option (Nat × Nat)) := do
  let dp ← get
  if dp.type ≠ tDir then throw .notDir
  else
    let (off, de) ← dirScan (readDirent .lookupRead) (Dirent.named name) dp.data.length
      dp.data.length 0
    pure (de.map fun de => (de.inum, off))

/-- `dirlink` from its loop on. -/
def dirEnter (name : List UInt8) (inum : Nat) : DirM Unit := do
  let dp ← get
  let (off, _) ← dirScan (readDirent .linkRead) (fun de => de.inum = 0) dp.data.length
    dp.data.length 0
  writeDirent .link off (direntBytes inum name)

def dirlink (name : List UInt8) (inum : Nat) : DirM Int := do
  match ← dirlookup name with
  | some _ => pure (-1)
  | none => do
      dirEnter name inum
      pure 0

def isdirempty : DirM Bool := do
  let dp ← get
  let (_, de) ← dirScan (readDirent .emptyRead) (fun de => de.inum ≠ 0) dp.data.length
    dp.data.length (2 * direntSize)
  pure de.isNone

/-- The names `.` and `..`. -/
def dot : List UInt8 := [46]
def dotdot : List UInt8 := [46, 46]

/-- What `sys_unlink` does to the directory; whether it did. -/
def dirClear (name : List UInt8) : DirM Bool := do
  if namecmp name dot = 0 || namecmp name dotdot = 0 then pure false
  else
    match ← dirlookup name with
    | none => pure false
    | some (_, off) => do
        writeDirent .unlinkWrite off (List.replicate direntSize 0)
        pure true

/-! ## §2  Entries as slots -/

def Dirent.slot (de : Dirent) : Option (List UInt8 × Nat) :=
  if de.inum = 0 then none else some (cstr de.name, de.inum)

/-- The entries by their names. -/
def slots (data : List UInt8) : List (Option (List UInt8 × Nat)) := (dirents data).map Dirent.slot

structure DirInv (dp : Inode) : Prop where
  type : dp.type = tDir
  whole : direntSize ∣ dp.data.length
  size : dp.data.length ≤ maxfile * bsize
  unique : Slots.Unique (slots dp.data)

section Bytes

variable {data : List UInt8}

theorem slots_length (data : List UInt8) : (slots data).length = data.length / direntSize := by
  rw [slots, List.length_map, dirents_length]

theorem getElem_dirents {k : Nat} (hk : k < (dirents data).length) :
    (dirents data)[k] = direntAt data k := by
  simp only [dirents, List.getElem_map, List.getElem_range]

/-- Writing an entry. -/
theorem dirents_overwrite (hwhole : direntSize ∣ data.length) {i : Nat}
    (hi : i ≤ data.length / direntSize) {de : List UInt8} (hde : de.length = direntSize) :
    dirents (overwrite data (direntSize * i) direntSize (bytesAt de)) =
      Slots.put (dirents data) i (.ofBytes de) := by
  obtain ⟨n, hn⟩ := hwhole
  have hcount : (dirents data).length = n := by
    rw [dirents_length, hn, Nat.mul_div_cancel_left n (by decide)]
  rw [← dirents_length, hcount] at hi
  have hoff : direntSize * i ≤ data.length := by
    rw [hn]
    exact Nat.mul_le_mul_left _ hi
  have hcount' : (dirents (overwrite data (direntSize * i) direntSize (bytesAt de))).length =
      max n (i + 1) := by
    rw [dirents_length, overwrite_length hoff, hn]
    simp only [direntSize]
    omega
  refine List.ext_getElem (by rw [hcount', Slots.length_put (hcount ▸ hi), hcount])
    fun k hk hk' => ?_
  have hput := Slots.getElem?_put (hcount ▸ hi) (Dirent.ofBytes de) k
  rw [List.getElem?_eq_getElem hk'] at hput
  rw [getElem_dirents, direntAt]
  refine Option.some.inj (Eq.trans ?_ hput.symm)
  split
  · rename_i hki
    rw [hki, overwrite_range_eq hoff, ← hde, map_bytesAt]
  · rename_i hki
    rw [hcount'] at hk
    rw [List.getElem?_eq_getElem (by omega), getElem_dirents, direntAt]
    rcases Nat.lt_or_gt_of_ne hki with hlt | hgt
    · rw [overwrite_before hoff]
      simp only [direntSize]
      omega
    · rw [overwrite_after hoff]
      simp only [direntSize]
      omega

/-- An entry can be read. -/
theorem readi_dirent {dp : Inode} (hwhole : direntSize ∣ dp.data.length)
    (hsize : dp.data.length ≤ maxfile * bsize) {k : Nat} (hk : k < (dirents dp.data).length) :
    dp.readi (UInt32.ofNat (direntSize * k)) 16 =
        some ((dp.data.drop (direntSize * k)).take direntSize) ∧
      ((dp.data.drop (direntSize * k)).take direntSize).length = direntSize := by
  have hlt : direntSize * k + direntSize ≤ dp.data.length := by
    obtain ⟨n, hn⟩ := hwhole
    rw [dirents_length, hn, Nat.mul_div_cancel_left n (by decide)] at hk
    rw [hn, ← Nat.mul_succ]
    exact Nat.mul_le_mul_left _ hk
  have hbound : maxfile * bsize = 71680 := rfl
  simp only [direntSize] at hlt
  have hword : (UInt32.ofNat (direntSize * k)).toNat = direntSize * k := by
    refine UInt32.toNat_ofNat_of_lt' ?_
    simp only [UInt32.size, direntSize]
    omega
  constructor
  · rw [Inode.readi, hword, if_neg]
    · rfl
    · simp only [direntSize, UInt32.toNat_ofNat, not_or, Nat.not_lt, Nat.not_le]
      omega
  · rw [List.length_take, List.length_drop]
    simp only [direntSize]
    omega

/-- The entries can be read one by one. -/
theorem readDirent_ok {dp : Inode} (h : DirInv dp) (err : DirPanic) {k : Nat}
    (hk : k < (dirents dp.data).length) :
    readDirent err (direntSize * k) dp = .ok ((dirents dp.data)[k], dp) := by
  obtain ⟨hread, hlen⟩ := readi_dirent h.whole h.size hk
  rw [readDirent, hread]
  simp only
  rw [if_pos hlen, getElem_dirents, direntAt]

end Bytes

/-! ## §3  What the functions do -/

/-- The directory with entry `i` written. -/
def Inode.setDirent (dp : Inode) (i : Nat) (de : List UInt8) : Inode :=
  { dp with data := overwrite dp.data (direntSize * i) direntSize (bytesAt de) }

section Functions

variable {dp : Inode} {name : List UInt8} {inum i : Nat} {de : List UInt8}

/-- A scan from entry `k` on. -/
theorem DirInv.scan (h : DirInv dp) (err : DirPanic) (p : Dirent → Bool) {k : Nat}
    (hk : k ≤ (dirents dp.data).length) :
    dirScan (readDirent err) p dp.data.length dp.data.length (direntSize * k) dp =
      .ok ((direntSize * (k + ((dirents dp.data).drop k).findIdx p),
        (dirents dp.data)[k + ((dirents dp.data).drop k).findIdx p]?), dp) := by
  have hlen : dp.data.length = direntSize * (dirents dp.data).length := by
    rw [dirents_length, Nat.mul_div_cancel' h.whole]
  have hread : ∀ k (hk : k < (dirents dp.data).length),
      readDirent err (direntSize * k) dp = .ok ((dirents dp.data)[k], dp) :=
    fun k hk => readDirent_ok h err hk
  have hscan := dirScan_eq (p := p) hread dp.data.length k (by rw [hlen, direntSize]; omega) hk
  rwa [← hlen] at hscan

theorem named_eq_has (de : Dirent) : de.named name = Slots.has (cstr name) de.slot := by
  unfold Dirent.named Dirent.slot
  by_cases hzero : de.inum = 0
  · simp [hzero, Slots.has]
  · simp only [hzero, if_false, Slots.has, Option.any_some, ne_eq, not_false_eq_true, decide_true,
      Bool.true_and, decide_eq_decide, namecmp_iff]
    exact eq_comm

/-- The first entry with a name, as a search in the slots. -/
theorem findIdx_named (data name : List UInt8) :
    (dirents data).findIdx (Dirent.named name) = Slots.index (slots data) (cstr name) := by
  rw [Slots.index, slots, List.findIdx_map]
  exact congrArg (fun p => List.findIdx p _) (funext named_eq_has)

theorem inum_named (data name : List UInt8) :
    ((dirents data)[Slots.index (slots data) (cstr name)]?).map Dirent.inum =
      Slots.get (slots data) (cstr name) := by
  cases hget : Slots.get (slots data) (cstr name) with
  | some inum =>
    have hslot := Slots.getElem?_index hget
    rw [slots, List.getElem?_map, Option.map_eq_some_iff] at hslot
    obtain ⟨de, hde, hslot⟩ := hslot
    rw [← slots] at hde
    rw [hde]
    unfold Dirent.slot at hslot
    split at hslot
    · cases hslot
    · rw [Option.some.injEq, Prod.mk.injEq] at hslot
      exact congrArg some hslot.2
  | none =>
    rw [Option.map_eq_none_iff, List.getElem?_eq_none_iff]
    have hend := Slots.length_le_index hget
    rwa [slots_length, ← dirents_length] at hend

theorem DirInv.dirlookup (h : DirInv dp) (name : List UInt8) :
    dirlookup name dp = .ok ((Slots.get (slots dp.data) (cstr name)).map fun inum =>
      (inum, direntSize * Slots.index (slots dp.data) (cstr name)), dp) := by
  have hscan := h.scan .lookupRead (Dirent.named name) (Nat.zero_le _)
  rw [Nat.mul_zero, List.drop_zero, Nat.zero_add, findIdx_named] at hscan
  have htype : ¬ dp.type ≠ tDir := fun hne => hne h.type
  refine (run_bind_ok rfl).trans ?_
  rw [if_neg htype]
  refine (run_bind_ok hscan).trans ?_
  rw [← inum_named, Option.map_map]
  rfl

/-- There is room for every entry that is there. -/
theorem DirInv.room (h : DirInv dp) (hi : i < (slots dp.data).length) :
    direntSize * (i + 1) ≤ maxfile * bsize := by
  refine le_trans (Nat.mul_le_mul_left _ hi) (le_trans ?_ h.size)
  rw [slots_length]
  exact Nat.mul_div_le ..

theorem toNat_direntOff (h : direntSize * i ≤ maxfile * bsize) :
    (UInt32.ofNat (direntSize * i)).toNat = direntSize * i := by
  have hbound : maxfile * bsize = 71680 := rfl
  refine UInt32.toNat_ofNat_of_lt' ?_
  simp only [UInt32.size]
  omega

/-- An entry is written where there is room for it. -/
theorem writei_dirent (hi : i ≤ dp.data.length / direntSize)
    (hmax : direntSize * (i + 1) ≤ maxfile * bsize) (de : List UInt8) :
    dp.writei (bytesAt de) (UInt32.ofNat (direntSize * i)) 16 = some (dp.setDirent i de) := by
  have hbound : maxfile * bsize = 71680 := rfl
  rw [Inode.writei, toNat_direntOff (le_trans (Nat.mul_le_mul_left _ (Nat.le_succ i)) hmax), if_neg]
  · rfl
  · simp only [direntSize, UInt32.toNat_ofNat, not_or, Nat.not_lt, Nat.not_le] at *
    omega

/-- Behind the largest size there is none. -/
theorem writei_dirent_full (hlow : direntSize * i ≤ maxfile * bsize)
    (hmax : maxfile * bsize < direntSize * (i + 1)) (de : List UInt8) :
    dp.writei (bytesAt de) (UInt32.ofNat (direntSize * i)) 16 = none := by
  rw [Inode.writei, toNat_direntOff hlow, if_pos]
  simp only [direntSize, UInt32.toNat_ofNat] at *
  omega

theorem writeDirent_ok (err : DirPanic) (hi : i ≤ (slots dp.data).length)
    (hmax : direntSize * (i + 1) ≤ maxfile * bsize) (de : List UInt8) :
    writeDirent err (direntSize * i) de dp = .ok ((), dp.setDirent i de) := by
  rw [slots_length] at hi
  rw [writeDirent, writei_dirent hi hmax]

theorem writeDirent_full (err : DirPanic) (hlow : direntSize * i ≤ maxfile * bsize)
    (hmax : maxfile * bsize < direntSize * (i + 1)) (de : List UInt8) :
    writeDirent err (direntSize * i) de dp = .error err := by
  rw [writeDirent, writei_dirent_full hlow hmax]

/-- What writing an entry does to the slots. -/
theorem DirInv.slots_setDirent (h : DirInv dp) (hi : i ≤ (slots dp.data).length)
    (hde : de.length = direntSize) :
    slots (dp.setDirent i de).data = Slots.put (slots dp.data) i (Dirent.ofBytes de).slot := by
  rw [slots_length] at hi
  rw [slots, Inode.setDirent, dirents_overwrite h.whole hi hde, Slots.map_put]
  rfl

theorem setDirent_length (hi : i ≤ (slots dp.data).length) (de : List UInt8) :
    (dp.setDirent i de).data.length = max dp.data.length (direntSize * (i + 1)) := by
  rw [slots_length] at hi
  rw [Inode.setDirent, overwrite_length, Nat.mul_add, Nat.mul_one]
  exact le_trans (Nat.mul_le_mul_left _ hi) (Nat.mul_div_le _ _)

theorem DirInv.setDirent (h : DirInv dp) (hi : i ≤ (slots dp.data).length)
    (hmax : direntSize * (i + 1) ≤ maxfile * bsize) (hde : de.length = direntSize)
    (hu : Slots.Unique (Slots.put (slots dp.data) i (Dirent.ofBytes de).slot)) :
    DirInv (dp.setDirent i de) := by
  have hlen := setDirent_length hi de
  refine ⟨h.type, ?_, ?_, ?_⟩
  · rw [hlen]
    rcases max_choice dp.data.length (direntSize * (i + 1)) with heq | heq <;> rw [heq]
    · exact h.whole
    · exact Nat.dvd_mul_right ..
  · rw [hlen]
    exact max_le h.size hmax
  · rw [h.slots_setDirent hi hde]
    exact hu

theorem slot_direntBytes (hlo : 1 ≤ inum) (hhi : inum ≤ 65535) (name : List UInt8) :
    (Dirent.ofBytes (direntBytes inum name)).slot = some (cstr name, inum) := by
  rw [ofBytes_direntBytes (by omega), Dirent.slot, if_neg (by simp only; omega), cstr_strncpy]

theorem slot_cleared : (Dirent.ofBytes (List.replicate direntSize 0)).slot = none := rfl

/-- There is an empty entry, or room for one more. -/
def Fits (dp : Inode) : Prop :=
  Slots.hole (slots dp.data) < (slots dp.data).length ∨ dp.data.length < maxfile * bsize

theorem DirInv.fits_iff (h : DirInv dp) :
    Fits dp ↔ direntSize * (Slots.hole (slots dp.data) + 1) ≤ maxfile * bsize := by
  have hle := Slots.hole_le (slots dp.data)
  obtain ⟨n, hn⟩ := h.whole
  have hsize := h.size
  have hbound : maxfile * bsize = direntSize * 4480 := rfl
  have hlen : (slots dp.data).length = n := by
    rw [slots_length, hn, Nat.mul_div_cancel_left n (by decide)]
  rw [hlen] at hle
  rw [Fits, hlen, hn, hbound]
  rw [hn, hbound] at hsize
  simp only [direntSize] at hsize ⊢
  omega

/-- The place that `dirlink` looks for. -/
theorem DirInv.scan_hole (h : DirInv dp) (err : DirPanic) : ∃ de,
    dirScan (readDirent err) (fun de => de.inum = 0) dp.data.length dp.data.length 0 dp =
      .ok ((direntSize * Slots.hole (slots dp.data), de), dp) := by
  have hhole : (dirents dp.data).findIdx (fun de => decide (de.inum = 0)) =
      Slots.hole (slots dp.data) := by
    rw [Slots.hole, slots, List.findIdx_map]
    refine congrArg (fun p => List.findIdx p _) (funext fun de => ?_)
    simp only [Function.comp, Dirent.slot]
    split <;> simp [*]
  have hscan := h.scan err (fun de => decide (de.inum = 0)) (Nat.zero_le _)
  rw [Nat.mul_zero, List.drop_zero, Nat.zero_add, hhole] at hscan
  exact ⟨_, hscan⟩

theorem DirInv.dirlink_present (h : DirInv dp) (hk : Slots.get (slots dp.data) (cstr name) ≠ none)
    (inum : Nat) : dirlink name inum dp = .ok (-1, dp) := by
  obtain ⟨v, hv⟩ := Option.ne_none_iff_exists'.mp hk
  refine (run_bind_ok (h.dirlookup name)).trans ?_
  rw [hv]
  rfl

theorem DirInv.dirlink_absent (h : DirInv dp) (hk : Slots.get (slots dp.data) (cstr name) = none)
    (hfits : Fits dp) (inum : Nat) : dirlink name inum dp =
      .ok (0, dp.setDirent (Slots.hole (slots dp.data)) (direntBytes inum name)) := by
  obtain ⟨de, hscan⟩ := h.scan_hole .linkRead
  have hwrite := writeDirent_ok .link (Slots.hole_le _) (h.fits_iff.mp hfits) (direntBytes inum name)
  have henter : dirEnter name inum dp =
      .ok ((), dp.setDirent (Slots.hole (slots dp.data)) (direntBytes inum name)) :=
    (run_bind_ok rfl).trans ((run_bind_ok hscan).trans hwrite)
  refine (run_bind_ok (h.dirlookup name)).trans ?_
  rw [hk]
  exact (run_bind_ok henter).trans rfl

/-- `dirlink` of an absent name fills the first empty slot, or one more. -/
theorem DirInv.enter (h : DirInv dp) (name : List UInt8) (hlo : 1 ≤ inum) (hhi : inum ≤ 65535)
    (hk : Slots.get (slots dp.data) (cstr name) = none) (hfits : Fits dp) : ∃ dp',
      dirlink name inum dp = .ok (0, dp') ∧ DirInv dp' ∧
      slots dp'.data =
        Slots.put (slots dp.data) (Slots.hole (slots dp.data)) (some (cstr name, inum)) ∧
      dp'.data.length =
        max dp.data.length (direntSize * (Slots.hole (slots dp.data) + 1)) := by
  have hle := Slots.hole_le (slots dp.data)
  have hde := direntBytes_length inum name
  have hslot := slot_direntBytes hlo hhi name
  refine ⟨_, h.dirlink_absent hk hfits inum, h.setDirent hle (h.fits_iff.mp hfits) hde ?_, ?_,
    setDirent_length hle _⟩
  · rw [hslot]
    exact h.unique.put_some hle hk
  · rw [h.slots_setDirent hle hde, hslot]

/-- **A full directory.** -/
theorem DirInv.dirlink_full (h : DirInv dp) (hk : Slots.get (slots dp.data) (cstr name) = none)
    (hfits : ¬ Fits dp) (inum : Nat) : dirlink name inum dp = .error .link := by
  obtain ⟨de, hscan⟩ := h.scan_hole .linkRead
  have hlow : direntSize * Slots.hole (slots dp.data) ≤ maxfile * bsize := by
    refine le_trans (Nat.mul_le_mul_left _ (Slots.hole_le _)) (le_trans ?_ h.size)
    rw [slots_length]
    exact Nat.mul_div_le ..
  have hwrite : writeDirent .link (direntSize * Slots.hole (slots dp.data)) (direntBytes inum name)
      dp = .error .link :=
    writeDirent_full .link hlow (Nat.lt_of_not_le fun hle => hfits (h.fits_iff.mpr hle)) _
  have henter : dirEnter name inum dp = .error .link :=
    (run_bind_ok rfl).trans ((run_bind_ok hscan).trans hwrite)
  refine (run_bind_ok (h.dirlookup name)).trans ?_
  rw [hk]
  exact run_bind_error henter

theorem namecmp_dots (name : List UInt8) :
    (namecmp name dot = 0 || namecmp name dotdot = 0) = true ↔
      cstr name = dot ∨ cstr name = dotdot := by
  rw [Bool.or_eq_true, decide_eq_true_eq, decide_eq_true_eq, namecmp_iff, namecmp_iff]
  rfl

theorem dirClear_dots (hname : cstr name = dot ∨ cstr name = dotdot) :
    dirClear name dp = .ok (false, dp) := by
  rw [dirClear, if_pos ((namecmp_dots name).mpr hname)]
  rfl

theorem DirInv.dirClear_absent (h : DirInv dp) (hk : Slots.get (slots dp.data) (cstr name) = none) :
    dirClear name dp = .ok (false, dp) := by
  rw [dirClear]
  split
  · rfl
  · refine (run_bind_ok (h.dirlookup name)).trans ?_
    rw [hk]
    rfl

theorem DirInv.dirClear_present (h : DirInv dp)
    (hk : Slots.get (slots dp.data) (cstr name) = some inum)
    (hname : ¬ (cstr name = dot ∨ cstr name = dotdot)) :
    dirClear name dp = .ok (true, dp.setDirent (Slots.index (slots dp.data) (cstr name))
      (List.replicate direntSize 0)) := by
  obtain ⟨hlt, -⟩ := List.getElem?_eq_some_iff.mp (Slots.getElem?_index hk)
  have hwrite := writeDirent_ok .unlinkWrite hlt.le (h.room hlt) (List.replicate direntSize 0)
  rw [dirClear, if_neg (mt (namecmp_dots name).mp hname)]
  refine (run_bind_ok (h.dirlookup name)).trans ?_
  rw [hk]
  exact (run_bind_ok hwrite).trans rfl

theorem DirInv.isdirempty (h : DirInv dp) (htwo : 2 ≤ (slots dp.data).length) :
    isdirempty dp = .ok (((slots dp.data).drop 2).all Option.isNone, dp) := by
  have hlen : 2 ≤ (dirents dp.data).length := by rwa [slots_length, ← dirents_length] at htwo
  have hscan := h.scan .emptyRead (fun de => decide (de.inum ≠ 0)) hlen
  refine (run_bind_ok rfl).trans ((run_bind_ok hscan).trans ?_)
  have hall : ((dirents dp.data)[2 + ((dirents dp.data).drop 2).findIdx
      (fun de => decide (de.inum ≠ 0))]?).isNone = ((slots dp.data).drop 2).all Option.isNone := by
    rw [← List.getElem?_drop, slots, ← List.map_drop]
    generalize (dirents dp.data).drop 2 = l
    rw [Bool.eq_iff_iff, Option.isNone_iff_eq_none, List.getElem?_eq_none_iff, List.all_map,
      List.all_eq_true]
    constructor
    · intro hle de hde
      have hend : l.findIdx (fun de => decide (de.inum ≠ 0)) = l.length :=
        le_antisymm List.findIdx_le_length hle
      have hzero := List.findIdx_eq_length.mp hend de hde
      simp only [ne_eq, decide_not, Bool.not_eq_eq_eq_not, Bool.not_false, decide_eq_true_eq] at hzero
      simp [Dirent.slot, hzero]
    · intro hnone
      refine (List.findIdx_eq_length.mpr fun de hde => ?_).ge
      have hslot := hnone de hde
      simp only [Function.comp, Dirent.slot] at hslot
      split at hslot
      · rename_i hzero
        simp [hzero]
      · cases hslot
  rw [← hall]
  rfl

end Functions

/-! ## §4  The map of a history -/

/-- Calls on the directory with what they return; `dirlookup` returns inode number 0
for none. -/
inductive DirEvent where
  | dirlookup (name : List UInt8) (r : Nat)
  | dirlink (name : List UInt8) (inum : Nat) (r : Int)
  | clear (name : List UInt8) (r : Bool)
  | isdirempty (r : Bool)

def DirEvent.Step (dp dp' : Inode) : DirEvent → Prop
  | dirlookup name r => ∃ x, Fs.dirlookup name dp = .ok (x, dp') ∧ x.elim 0 Prod.fst = r
  | dirlink name inum r => 1 ≤ inum ∧ inum ≤ 65535 ∧ Fs.dirlink name inum dp = .ok (r, dp')
  | clear name r => dirClear name dp = .ok (r, dp')
  | isdirempty r => Fs.isdirempty dp = .ok (r, dp')

def dirSystem : System Inode DirEvent where
  step dp e dp' := e.Step dp dp'

/-- What an event does to the map from names to inode numbers; 0 is no entry. -/
def DirEvent.apply (m : List UInt8 → Nat) : DirEvent → List UInt8 → Nat
  | dirlink name inum r => if r = 0 then update m (cstr name) inum else m
  | clear name r => if r then update m (cstr name) 0 else m
  | _ => m

/-- The dot entries, then the history: a name has the inode number of its last
successful `dirlink`, unless it was cleared since. -/
def dirMap (own parent : Nat) (es : List DirEvent) : List UInt8 → Nat :=
  es.foldl DirEvent.apply fun n => if n = dot then own else if n = dotdot then parent else 0

/-- `create` has made the two dot entries in a new directory. -/
def Created (own parent : Nat) (dp : Inode) : Prop :=
  1 ≤ own ∧ own ≤ 65535 ∧ 1 ≤ parent ∧ parent ≤ 65535 ∧
  ∃ major minor nlink dp₁, dirlink dot own ⟨tDir, major, minor, nlink, []⟩ = .ok (0, dp₁) ∧
    dirlink dotdot parent dp₁ = .ok (0, dp)

/-- The directory is the map `m`, with the dot entries in front. -/
structure IsMap (own parent : Nat) (m : List UInt8 → Nat) (dp : Inode) : Prop where
  inv : DirInv dp
  map : ∀ n, (Slots.get (slots dp.data) n).getD 0 = m n
  own_entry : (slots dp.data)[0]? = some (some (dot, own))
  parent_entry : (slots dp.data)[1]? = some (some (dotdot, parent))

section Maps

variable {own parent inum : Nat} {m : List UInt8 → Nat} {dp dp' : Inode} {name n : List UInt8}

theorem slots_ne_zero {i v : Nat} (h : (slots dp.data)[i]? = some (some (n, v))) : v ≠ 0 := by
  rw [slots, List.getElem?_map, Option.map_eq_some_iff] at h
  obtain ⟨de, -, hslot⟩ := h
  unfold Dirent.slot at hslot
  split at hslot
  · cases hslot
  · rw [Option.some.injEq, Prod.mk.injEq] at hslot
    rename_i hzero
    exact hslot.2 ▸ hzero

/-- A name is absent iff its number is 0. -/
theorem get_eq_none_iff_zero : Slots.get (slots dp.data) n = none ↔
    (Slots.get (slots dp.data) n).getD 0 = 0 := by
  cases hget : Slots.get (slots dp.data) n with
  | none => exact iff_of_true rfl rfl
  | some v => exact iff_of_false nofun (slots_ne_zero (Slots.getElem?_index hget))

theorem IsMap.get (h : IsMap own parent m dp) (n : List UInt8) :
    Slots.get (slots dp.data) n = if m n = 0 then none else some (m n) := by
  rw [← h.map n]
  split
  · rename_i hzero
    exact get_eq_none_iff_zero.mpr hzero
  · rename_i hzero
    cases hget : Slots.get (slots dp.data) n with
    | none => exact absurd (by rw [hget]; rfl) hzero
    | some v => rfl

theorem IsMap.two_le (h : IsMap own parent m dp) : 2 ≤ (slots dp.data).length := by
  obtain ⟨hlt, -⟩ := List.getElem?_eq_some_iff.mp h.parent_entry
  exact hlt

/-- A slot other than the first two has changed. -/
theorem IsMap.put (h : IsMap own parent m dp) {i : Nat} {x m'} (hinv : DirInv dp')
    (hslots : slots dp'.data = Slots.put (slots dp.data) i x) (hi : i ≤ (slots dp.data).length)
    (hmap : ∀ n, (Slots.get (Slots.put (slots dp.data) i x) n).getD 0 = m' n)
    (hpos : i ≠ 0 ∧ i ≠ 1) : IsMap own parent m' dp' := by
  refine ⟨hinv, fun n => ?_, ?_, ?_⟩ <;> rw [hslots]
  · exact hmap n
  · rw [Slots.getElem?_put hi, if_neg (Ne.symm hpos.1)]
    exact h.own_entry
  · rw [Slots.getElem?_put hi, if_neg (Ne.symm hpos.2)]
    exact h.parent_entry

/-- The first two entries are not empty. -/
theorem IsMap.hole_pos (h : IsMap own parent m dp) :
    Slots.hole (slots dp.data) ≠ 0 ∧ Slots.hole (slots dp.data) ≠ 1 := by
  have hfree := Slots.getElem?_hole (slots dp.data)
  constructor <;> intro heq <;> rw [heq] at hfree
  · rw [h.own_entry] at hfree
    cases hfree
  · rw [h.parent_entry] at hfree
    cases hfree

/-- `dirlink` of an absent name. -/
theorem IsMap.enter (h : IsMap own parent m dp) (hlo : 1 ≤ inum) (hhi : inum ≤ 65535)
    (hname : m (cstr name) = 0) (hfits : Fits dp) : ∃ dp',
      dirlink name inum dp = .ok (0, dp') ∧
      IsMap own parent (update m (cstr name) inum) dp' ∧
      slots dp'.data =
        Slots.put (slots dp.data) (Slots.hole (slots dp.data)) (some (cstr name, inum)) ∧
      dp'.data.length =
        max dp.data.length (direntSize * (Slots.hole (slots dp.data) + 1)) := by
  have habsent : Slots.get (slots dp.data) (cstr name) = none := by rw [h.get, if_pos hname]
  have hle := Slots.hole_le (slots dp.data)
  obtain ⟨dp', hlink, hinv, hslots, hlen⟩ := h.inv.enter name hlo hhi habsent hfits
  refine ⟨dp', hlink, h.put hinv hslots hle (fun n => ?_) h.hole_pos, hslots, hlen⟩
  rw [Slots.get_put_some h.inv.unique hle (Slots.getElem?_hole _) habsent, update_apply]
  split
  · rfl
  · exact h.map n

/-- **What one call keeps.** -/
theorem IsMap.step {e : DirEvent} (h : IsMap own parent m dp) (hs : e.Step dp dp') :
    IsMap own parent (e.apply m) dp' := by
  cases e with
  | dirlookup name r =>
    obtain ⟨x, hx, -⟩ := hs
    rw [h.inv.dirlookup] at hx
    cases hx
    exact h
  | dirlink name inum r =>
    obtain ⟨hlo, hhi, hlink⟩ := hs
    by_cases hname : m (cstr name) = 0
    · by_cases hfits : Fits dp
      · obtain ⟨dp'', hok, hmap, -⟩ := h.enter hlo hhi hname hfits
        cases hok.symm.trans hlink
        exact hmap
      · rw [h.inv.dirlink_full (by rw [h.get, if_pos hname]) hfits] at hlink
        cases hlink
    · rw [h.inv.dirlink_present (by rw [h.get, if_neg hname]; nofun)] at hlink
      cases hlink
      exact h
  | clear name r =>
    change dirClear name dp = .ok (r, dp') at hs
    by_cases hdots : cstr name = dot ∨ cstr name = dotdot
    · cases (dirClear_dots hdots).symm.trans hs
      exact h
    · cases hget : Slots.get (slots dp.data) (cstr name) with
      | none =>
        cases (h.inv.dirClear_absent hget).symm.trans hs
        exact h
      | some inum =>
        cases (h.inv.dirClear_present hget hdots).symm.trans hs
        have hat := Slots.getElem?_index hget
        obtain ⟨hlt, -⟩ := List.getElem?_eq_some_iff.mp hat
        have hde : (List.replicate direntSize (0 : UInt8)).length = direntSize :=
          List.length_replicate ..
        refine h.put (h.inv.setDirent hlt.le (h.inv.room hlt) hde
          (h.inv.unique.put_none hlt.le)) (h.inv.slots_setDirent hlt.le hde) hlt.le
          (fun n => ?_) ⟨fun hi => ?_, fun hi => ?_⟩
        · rw [slot_cleared]
          rw [Slots.get_put_none h.inv.unique hat]
          change _ = update m (cstr name) 0 n
          rw [update_apply]
          split
          · rfl
          · exact h.map n
        · rw [hi, h.own_entry] at hat
          rw [Option.some.injEq, Option.some.injEq, Prod.mk.injEq] at hat
          exact hdots (.inl hat.1.symm)
        · rw [hi, h.parent_entry] at hat
          rw [Option.some.injEq, Option.some.injEq, Prod.mk.injEq] at hat
          exact hdots (.inr hat.1.symm)
  | isdirempty r =>
    change Fs.isdirempty dp = .ok (r, dp') at hs
    rw [h.inv.isdirempty h.two_le] at hs
    cases hs
    exact h

/-- A directory without entries. -/
theorem empty_inv {dp : Inode} (htype : dp.type = tDir) (hdata : dp.data = []) : DirInv dp := by
  refine ⟨htype, ?_, ?_, ?_⟩ <;> rw [hdata]
  · exact Nat.dvd_zero _
  · exact Nat.zero_le _
  · intro i j k v w hi
    cases hi

/-- The dot entries in a new directory. -/
theorem dots_enter (major minor nlink : Int16) (hlo : 1 ≤ own) (hhi : own ≤ 65535)
    (hlo' : 1 ≤ parent) (hhi' : parent ≤ 65535) : ∃ dp₁ dp,
      dirlink dot own ⟨tDir, major, minor, nlink, []⟩ = .ok (0, dp₁) ∧
      dirlink dotdot parent dp₁ = .ok (0, dp) ∧ DirInv dp ∧
      slots dp.data = [some (dot, own), some (dotdot, parent)] := by
  have h₀ : DirInv ⟨tDir, major, minor, nlink, []⟩ := empty_inv rfl rfl
  have hsmall : ∀ {dp : Inode}, dp.data.length ≤ 32 → Fits dp := fun hlen =>
    .inr (Nat.lt_of_le_of_lt hlen (by decide))
  have hslots₀ : slots (Inode.mk tDir major minor nlink []).data = [] := by simp [slots, dirents]
  obtain ⟨dp₁, hdot, h₁, hslots₁, hlen₁⟩ := h₀.enter dot hlo hhi (by rw [hslots₀]; rfl)
    (hsmall (Nat.zero_le _))
  rw [hslots₀] at hslots₁ hlen₁
  change slots dp₁.data = [some (dot, own)] at hslots₁
  have hlen : dp₁.data.length = 16 := hlen₁
  obtain ⟨dp₂, hdotdot, h₂, hslots₂, -⟩ := h₁.enter dotdot hlo' hhi' (by rw [hslots₁]; rfl)
    (hsmall (by omega))
  rw [hslots₁] at hslots₂
  exact ⟨dp₁, dp₂, hdot, hdotdot, h₂, hslots₂⟩

theorem Created.isMap (h : Created own parent dp) : IsMap own parent (dirMap own parent []) dp := by
  obtain ⟨hlo, hhi, hlo', hhi', major, minor, nlink, dp₁, hdot, hdotdot⟩ := h
  obtain ⟨_, _, hdot', hdotdot', hinv, hslots⟩ := dots_enter major minor nlink hlo hhi hlo' hhi'
  cases hdot'.symm.trans hdot
  cases hdotdot'.symm.trans hdotdot
  refine ⟨hinv, fun n => ?_, by rw [hslots]; rfl, by rw [hslots]; rfl⟩
  rw [hslots]
  change _ = if n = dot then own else if n = dotdot then parent else 0
  by_cases hdot : n = dot
  · subst hdot
    rfl
  · by_cases hdotdot : n = dotdot
    · subst hdotdot
      rfl
    · simp [Slots.get, Slots.index, Slots.has, List.findIdx_cons, hdot, hdotdot, Ne.symm hdot,
        Ne.symm hdotdot]

theorem IsMap.run {dp₀ : Inode} {es : List DirEvent} (h₀ : Created own parent dp₀)
    (hr : dirSystem.Run dp₀ es dp) : IsMap own parent (dirMap own parent es) dp := by
  refine hr.history (I := fun es dp => IsMap own parent (dirMap own parent es) dp)
    (fun hist dp e dp' h hs => ?_) h₀.isMap
  rw [dirMap, List.foldl_append]
  exact h.step hs

/-- `dirlookup` answers as the map says, whatever the name. -/
def LooksUp (m : List UInt8 → Nat) (dp : Inode) : Prop :=
  ∀ name, ∃ x, dirlookup name dp = .ok (x, dp) ∧ x.elim 0 Prod.fst = m (cstr name)

theorem IsMap.looksUp (h : IsMap own parent m dp) : LooksUp m dp := by
  intro name
  refine ⟨_, h.inv.dirlookup name, ?_⟩
  rw [← h.map]
  cases Slots.get (slots dp.data) (cstr name) <;> rfl

/-- What `dirlink` is to do: nothing for a name that is there; else the name is
added, in an empty slot if there is one and else behind the last entry, and all
other names stay. -/
def LinksRight (m : List UInt8 → Nat) (dp : Inode) (name : List UInt8) (inum : Nat) : Prop :=
  if m (cstr name) ≠ 0 then dirlink name inum dp = .ok (-1, dp)
  else ∃ dp', dirlink name inum dp = .ok (0, dp') ∧
    LooksUp (update m (cstr name) inum) dp' ∧
    dp'.data.length = if Slots.hole (slots dp.data) < (slots dp.data).length then dp.data.length
      else dp.data.length + direntSize

theorem IsMap.linksRight_iff (h : IsMap own parent m dp) (hlo : 1 ≤ inum) (hhi : inum ≤ 65535) :
    LinksRight m dp name inum ↔ m (cstr name) ≠ 0 ∨ Fits dp := by
  unfold LinksRight
  by_cases hname : m (cstr name) = 0
  · rw [if_neg (not_not.mpr hname)]
    simp only [hname, ne_eq, not_true_eq_false, false_or]
    constructor
    · rintro ⟨dp', hlink, -⟩
      by_contra hfits
      rw [h.inv.dirlink_full (by rw [h.get, if_pos hname]) hfits] at hlink
      cases hlink
    · intro hfits
      obtain ⟨dp', hlink, hmap, -, hlen⟩ := h.enter hlo hhi hname hfits
      refine ⟨dp', hlink, hmap.looksUp, ?_⟩
      rw [hlen]
      have hle := Slots.hole_le (slots dp.data)
      obtain ⟨n, hn⟩ := h.inv.whole
      rw [slots_length, hn, Nat.mul_div_cancel_left n (by decide)] at hle ⊢
      simp only [direntSize]
      split <;> omega
  · rw [if_pos hname]
    exact iff_of_true (h.inv.dirlink_present (by rw [h.get, if_neg hname]; nofun) inum)
      (.inl hname)

/-- Only the dot entries are left, slot by slot and name by name. -/
theorem IsMap.all_isNone_iff (h : IsMap own parent m dp) :
    ((slots dp.data).drop 2).all Option.isNone = true ↔ ∀ n, m n ≠ 0 ↔ n = dot ∨ n = dotdot := by
  have hnames : ∀ n, m n ≠ 0 ↔ ∃ (i : Nat) (v : Nat), (slots dp.data)[i]? = some (some (n, v)) := by
    intro n
    rw [← h.map n, Ne, ← get_eq_none_iff_zero, Slots.get_eq_none_iff h.inv.unique]
    push Not
    rfl
  rw [List.all_eq_true]
  constructor
  · intro hall n
    rw [hnames]
    constructor
    · rintro ⟨i, v, hi⟩
      rcases i with - | - | i
      · rw [h.own_entry, Option.some.injEq, Option.some.injEq, Prod.mk.injEq] at hi
        exact .inl hi.1.symm
      · rw [h.parent_entry, Option.some.injEq, Option.some.injEq, Prod.mk.injEq] at hi
        exact .inr hi.1.symm
      · rw [show i + 1 + 1 = 2 + i by omega, ← List.getElem?_drop] at hi
        cases hall _ (List.mem_of_getElem? hi)
    · rintro (rfl | rfl)
      · exact ⟨0, own, h.own_entry⟩
      · exact ⟨1, parent, h.parent_entry⟩
  · intro honly x hx
    obtain ⟨i, hi⟩ := List.getElem?_of_mem hx
    rw [List.getElem?_drop] at hi
    rcases x with - | ⟨n, v⟩
    · rfl
    · exfalso
      rcases (honly n).mp ((hnames n).mpr ⟨_, v, hi⟩) with rfl | rfl
      · have := h.inv.unique _ _ _ _ _ hi h.own_entry
        omega
      · have := h.inv.unique _ _ _ _ _ hi h.parent_entry
        omega

/-- **A directory is a finite map.** From the dot entries on, after any calls: no
name stands in two entries; `dirlookup` returns the number of the last successful
`dirlink` of the name, unless cleared since; `isdirempty` holds iff only `.` and
`..` are left; and `dirlink` does what it is to do iff the name is there, or an
entry is empty, or the directory is below the largest size of a file. -/
theorem directory_is_map {dp₀ : Inode} {es : List DirEvent} (h₀ : Created own parent dp₀)
    (hr : dirSystem.Run dp₀ es dp) :
    Slots.Unique (slots dp.data) ∧ LooksUp (dirMap own parent es) dp ∧
    (∃ r, isdirempty dp = .ok (r, dp) ∧
      (r = true ↔ ∀ n, dirMap own parent es n ≠ 0 ↔ n = dot ∨ n = dotdot)) ∧
    ∀ name inum, 1 ≤ inum → inum ≤ 65535 →
      (LinksRight (dirMap own parent es) dp name inum ↔
        dirMap own parent es (cstr name) ≠ 0 ∨ Fits dp) := by
  have h := IsMap.run h₀ hr
  refine ⟨h.inv.unique, h.looksUp, ⟨_, h.inv.isdirempty h.two_le, h.all_isNone_iff⟩, ?_⟩
  intro name inum hlo hhi
  exact h.linksRight_iff hlo hhi

/-! A directory that is filled up: names of three bytes, none of them 0. -/

def fillName (k : Nat) : List UInt8 := [1, UInt8.ofNat (k % 255 + 1), UInt8.ofNat (k / 255 + 1)]

theorem fillName_toNat {k : Nat} (hk : k < 65025) :
    (UInt8.ofNat (k % 255 + 1)).toNat = k % 255 + 1 ∧
      (UInt8.ofNat (k / 255 + 1)).toNat = k / 255 + 1 := by
  constructor <;> refine UInt8.toNat_ofNat_of_lt' ?_ <;> simp only [UInt8.size] <;> omega

theorem cstr_fillName {k : Nat} (hk : k < 65025) : cstr (fillName k) = fillName k := by
  obtain ⟨hlow, hhigh⟩ := fillName_toNat hk
  have hne : ∀ {x : UInt8} {n : Nat}, x.toNat = n + 1 → x ≠ 0 := by
    rintro x n hx rfl
    cases hx
  have hlow' := hne hlow
  have hhigh' := hne hhigh
  unfold fillName
  generalize UInt8.ofNat (k % 255 + 1) = a at hlow'
  generalize UInt8.ofNat (k / 255 + 1) = b at hhigh'
  simp [cstr, dirsiz, hlow', hhigh']

theorem fillName_inj {j k : Nat} (hj : j < 65025) (hk : k < 65025) (h : fillName j = fillName k) :
    j = k := by
  simp only [fillName, List.cons.injEq, true_and, and_true] at h
  obtain ⟨hlow, hhigh⟩ := h
  have hlow' := congrArg UInt8.toNat hlow
  have hhigh' := congrArg UInt8.toNat hhigh
  rw [(fillName_toNat hj).1, (fillName_toNat hk).1] at hlow'
  rw [(fillName_toNat hj).2, (fillName_toNat hk).2] at hhigh'
  omega

/-- The first `k` names are linked. -/
def fills (k : Nat) : List DirEvent := (List.range k).map fun j => .dirlink (fillName j) 1 0

theorem fills_succ (k : Nat) : fills (k + 1) = fills k ++ [.dirlink (fillName k) 1 0] := by
  rw [fills, List.range_succ, List.map_append]
  rfl

/-- The names that are there then. -/
theorem dirMap_fills {k : Nat} (hk : k ≤ 65025) (hn : dirMap own parent (fills k) n ≠ 0) :
    n = dot ∨ n = dotdot ∨ ∃ j < k, n = fillName j := by
  induction k with
  | zero =>
    change (if n = dot then own else if n = dotdot then parent else 0) ≠ 0 at hn
    split at hn
    · exact .inl ‹_›
    · split at hn
      · exact .inr (.inl ‹_›)
      · exact absurd rfl hn
  | succ k ih =>
    rw [fills_succ, dirMap, List.foldl_append] at hn
    change update (dirMap own parent (fills k)) (cstr (fillName k)) 1 n ≠ 0 at hn
    rw [update_apply, cstr_fillName hk] at hn
    split at hn
    · exact .inr (.inr ⟨k, Nat.lt_succ_self k, ‹_›⟩)
    · rcases ih (Nat.le_of_succ_le hk) hn with h | h | ⟨j, hj, h⟩
      · exact .inl h
      · exact .inr (.inl h)
      · exact .inr (.inr ⟨j, Nat.lt_succ_of_lt hj, h⟩)

theorem dirMap_fills_fresh {k : Nat} (hk : k < 65025) :
    dirMap own parent (fills k) (cstr (fillName k)) = 0 := by
  by_contra hne
  rw [cstr_fillName hk] at hne
  rcases dirMap_fills hk.le hne with h | h | ⟨j, hj, h⟩
  · cases h
  · cases h
  · exact absurd (fillName_inj hk (hj.trans hk) h) hj.ne'

/-- They can all be linked, each behind the last. -/
theorem fills_run {dp₀ : Inode} (h₀ : Created own parent dp₀)
    (hslots : slots dp₀.data = [some (dot, own), some (dotdot, parent)]) :
    ∀ k ≤ 4478, ∃ dp, dirSystem.Run dp₀ (fills k) dp ∧ (slots dp.data).length = k + 2 ∧
      Slots.hole (slots dp.data) = (slots dp.data).length := by
  intro k hk
  induction k with
  | zero => exact ⟨dp₀, .nil, by rw [hslots]; rfl, by rw [hslots]; rfl⟩
  | succ k ih =>
    obtain ⟨dp, hrun, hlen, hhole⟩ := ih (Nat.le_of_succ_le hk)
    have h := IsMap.run h₀ hrun
    have hfits : Fits dp := by
      rw [h.inv.fits_iff, hhole, hlen, show maxfile * bsize = direntSize * 4480 from rfl]
      exact Nat.mul_le_mul_left _ (by omega)
    obtain ⟨dp', hlink, -, hslots', -⟩ := h.enter le_rfl (by decide : 1 ≤ 65535)
      (dirMap_fills_fresh (by omega)) hfits
    rw [hhole] at hslots'
    refine ⟨dp', ?_, ?_, ?_⟩
    · rw [fills_succ]
      exact hrun.snoc ⟨le_rfl, by decide, hlink⟩
    · rw [hslots', Slots.length_put le_rfl, hlen]
      omega
    · rw [hslots']
      exact Slots.hole_put_end hhole _

end Maps

/-- The dot entries of inode 2 in inode 1. -/
theorem dots_created : ∃ dp₀, Created 2 1 dp₀ ∧
    slots dp₀.data = [some (dot, 2), some (dotdot, 1)] := by
  obtain ⟨dp₁, dp₀, hdot, hdotdot, -, hslots⟩ :=
    dots_enter 0 0 1 (by decide : 1 ≤ 2) (by decide) (by decide : 1 ≤ 1) (by decide)
  exact ⟨dp₀, ⟨by decide, by decide, by decide, by decide, 0, 0, 1, dp₁, hdot, hdotdot⟩, hslots⟩

/-- The dot entries of inode 2 in inode 1, and one name more. -/
theorem directory_is_map_oneName : ∃ dp₀ es dp, Created 2 1 dp₀ ∧ dirSystem.Run dp₀ es dp ∧
    LooksUp (dirMap 2 1 es) dp ∧ dirMap 2 1 es (fillName 0) = 1 := by
  obtain ⟨dp₀, h₀, hslots⟩ := dots_created
  obtain ⟨dp, hrun, -⟩ := fills_run h₀ hslots 1 (by decide)
  exact ⟨dp₀, fills 1, dp, h₀, hrun, (directory_is_map h₀ hrun).2.1, rfl⟩

/-- With 4480 entries, all in use, a new name makes `dirlink` panic. -/
theorem directory_is_map_full : ¬ ∀ own parent dp₀ es dp, Created own parent dp₀ →
    dirSystem.Run dp₀ es dp → ∀ name inum, 1 ≤ inum → inum ≤ 65535 →
      LinksRight (dirMap own parent es) dp name inum := by
  intro hall
  obtain ⟨dp₀, h₀, hslots⟩ := dots_created
  obtain ⟨k, hk⟩ : ∃ k, k = 4478 := ⟨_, rfl⟩
  obtain ⟨dp, hrun, hlen, hhole⟩ := fills_run h₀ hslots k hk.le
  have h := IsMap.run h₀ hrun
  have hlinks := hall 2 1 dp₀ _ dp h₀ hrun (fillName k) 1 le_rfl (by decide)
  rcases (h.linksRight_iff le_rfl (by decide)).mp hlinks with hname | hfits
  · exact hname (dirMap_fills_fresh (by omega))
  · rw [h.inv.fits_iff, hhole, hlen, hk] at hfits
    exact absurd hfits (by decide)

end Xv6.Fs
