import Xv6.Fs.Layout
import Xv6.Library.Transition

/-!
# Inodes as byte sequences

What the layers above `readi` and `writei` rely on: a table of inodes, each with
its attributes and a sequence of bytes. `InodeEvent` lists the ways in which the
code changes or reads the inodes, and `tableNext` what each does to the table.
`Fs/Files.lean` shows that the blocks on the disk behave like this.
-/

namespace Xv6.Fs

open Transition Function

/-- `n` bytes of `src` in place of those from `off` on. -/
def overwrite (l : List UInt8) (off n : Nat) (src : Nat → UInt8) : List UInt8 :=
  l.take off ++ (List.range n).map src ++ l.drop (off + n)

theorem overwrite_length {l : List UInt8} {off n : Nat} {src : Nat → UInt8}
    (hoff : off ≤ l.length) : (overwrite l off n src).length = max l.length (off + n) := by
  simp only [overwrite, List.length_append, List.length_take, List.length_map, List.length_range,
    List.length_drop]
  omega

/-- Bytes before the range stay. -/
theorem overwrite_before {l : List UInt8} {off n a m : Nat} {src : Nat → UInt8}
    (hoff : off ≤ l.length) (ham : a + m ≤ off) :
    ((overwrite l off n src).drop a).take m = (l.drop a).take m := by
  have htake : (overwrite l off n src).take (a + m) = l.take (a + m) := by
    rw [overwrite, List.append_assoc, List.take_append_of_le_length, List.take_take,
      Nat.min_eq_left ham]
    rw [List.length_take]
    omega
  rw [List.take_drop, List.take_drop, htake]

/-- So do those behind it. -/
theorem overwrite_after {l : List UInt8} {off n a : Nat} {src : Nat → UInt8}
    (hoff : off ≤ l.length) (ha : off + n ≤ a) : (overwrite l off n src).drop a = l.drop a := by
  obtain ⟨k, rfl⟩ := Nat.exists_eq_add_of_le ha
  have hlen : (l.take off ++ (List.range n).map src).length = off + n := by
    rw [List.length_append, List.length_take, List.length_map, List.length_range,
      Nat.min_eq_left hoff]
  rw [overwrite, ← List.drop_drop, ← hlen, List.drop_left, List.drop_drop]

/-- The range holds what was written. -/
theorem overwrite_range_eq {l : List UInt8} {off n : Nat} {src : Nat → UInt8}
    (hoff : off ≤ l.length) :
    ((overwrite l off n src).drop off).take n = (List.range n).map src := by
  have hlen : (l.take off).length = off := by
    rw [List.length_take, Nat.min_eq_left hoff]
  rw [overwrite, List.append_assoc, List.drop_append_of_le_length (by rw [hlen]),
    List.drop_of_length_le (by rw [hlen]), List.nil_append, List.take_append_of_le_length,
    List.take_of_length_le]
  · simp
  · simp

/-- The buffer as `writei` reads it. -/
def bytesAt (bytes : List UInt8) (k : Nat) : UInt8 := bytes.getD k 0

theorem map_bytesAt (bytes : List UInt8) : (List.range bytes.length).map (bytesAt bytes) = bytes := by
  refine List.ext_getElem (by simp) fun k hk hk' => ?_
  rw [List.getElem_map, List.getElem_range, bytesAt, List.getD_eq_getElem _ _ hk']

structure Inode where
  type : Int16
  major : Int16
  minor : Int16
  nlink : Int16
  data : List UInt8
deriving DecidableEq

namespace Inode

/-- The bytes from `off` up to `off + n` or the end; `none` if `off` is behind
the end or the range wraps. -/
def readi (ip : Inode) (off n : UInt32) : Option (List UInt8) :=
  if ip.data.length < off.toNat ∨ 2 ^ 32 ≤ off.toNat + n.toNat then none
  else some ((ip.data.drop off.toNat).take n.toNat)

/-- The bytes from `off` up to `off + n` are overwritten; `none` if `off` is behind
the end, the range wraps or ends behind the largest file. -/
def writei (ip : Inode) (src : Nat → UInt8) (off n : UInt32) : Option Inode :=
  if ip.data.length < off.toNat ∨ 2 ^ 32 ≤ off.toNat + n.toNat ∨
      maxfile * bsize < off.toNat + n.toNat then none
  else some { ip with data := overwrite ip.data off.toNat n.toNat src }

end Inode

/-- What happens to the inodes, with the results returned. -/
inductive InodeEvent where
  | ialloc (type : Int16) (i : Nat)                      -- returns inode i
  | ilock (i : Nat)                                      -- the inode is in memory from here on
  | evict (i : Nat)                                      -- its slot in the inode cache is reused
  | readi (i : Nat) (off n : UInt32) (r : Option (List UInt8))
  | writei (i : Nat) (src : Nat → UInt8) (off n : UInt32) (r : Option UInt32)
  | iupdate (i : Nat) (major minor nlink : Int16)        -- attributes are set and written back
  | iput (i : Nat)                                       -- of the last reference to a dead inode

/-- A table of inodes; `none` is a free inode. -/
abbrev InodeTable := Nat → Option Inode

/-- The inode `ialloc` takes. -/
def InodeTable.firstFree (t : InodeTable) (ninodes : Nat) : Option Nat :=
  (List.range' 1 (ninodes - 1)).find? fun i => (t i).isNone

def tableNext (ninodes : Nat) (t : InodeTable) : InodeEvent → Option InodeTable
  | .ialloc type i =>
    if type ≠ 0 ∧ t.firstFree ninodes = some i then
      some (update t i (some ⟨type, 0, 0, 0, []⟩))
    else none
  | .ilock i => if (t i).isSome then some t else none
  | .evict _ => some t
  | .readi i off n r => do
      let ip ← t i
      if ip.type ≠ tDev ∧ ip.readi off n = r then some t else none
  | .writei i src off n r => do
      let ip ← t i
      if ip.type ≠ tDev ∧ (ip.writei src off n).map (fun _ => n) = r then
        some (update t i (some ((ip.writei src off n).getD ip)))
      else none
  | .iupdate i major minor nlink => do
      let ip ← t i
      some (update t i (some { ip with major := major, minor := minor, nlink := nlink }))
  | .iput i => do
      let ip ← t i
      if ip.nlink = 0 then some (update t i none) else none

/-- The inodes of a file system as a transition system. -/
def tableSystem (ninodes : Nat) : System InodeTable InodeEvent := .ofNext (tableNext ninodes)

end Xv6.Fs
