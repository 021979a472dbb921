import Xv6.Fs.FileRuns
import Xv6.Fs.MkfsSpec
import Xv6.Fs.Directory

/-!
# The kernel on the image of `mkfs`

What `mkfs` leaves for the kernel to find. Its files have their blocks, which the
bitmap marks, and the kernel's `readi` and `dirlookup` find the input files in
the image without changing it. What can go wrong is the last thing `main` does to
the root directory: its size is rounded up to the *next* block, and when the
entries fill their last block that one does not exist (`image_ok_iff`).
-/

namespace Xv6.Fs

open Outcome Function

/-! ## §1  `dirlookup` on a disk -/

section Lookup

variable {S : Superblock} {d : Disk} {din : Dinode} {i : Nat} {ip : Inode}

/-- On a directory in memory, with the disk: a read may allocate blocks. -/
abbrev DiskM := StateT (Disk × Dinode) (Except BlockPanic)

/-- `readi(dp, (char*)&de, off, sizeof(de))` in `dirlookup`. -/
def diskDirent (S : Superblock) (off : Nat) : DiskM Dirent := fun x => do
  let (r, d, din) ← readi S x.1 x.2 (UInt32.ofNat off) 16
  match r with
  | some l => if l.length = direntSize then .ok (.ofBytes l, (d, din)) else .error .dirlookupRead
  | none => .error .dirlookupRead

def diskLookup (S : Superblock) (name : List UInt8) : DiskM (Option (Nat × Nat)) := do
  let (_, din) ← get
  if din.type ≠ tDir then throw .dirlookupNotDir
  else
    let (off, de) ← dirScan (diskDirent S) (Dirent.named name) din.size.toNat din.size.toNat 0
    pure (de.map fun de => (de.inum, off))

/-- Every block that the size calls for is there. -/
def Mapped (d : Disk) (din : Dinode) : Prop :=
  ∀ bn, bn * bsize < din.size.toNat → blockOf d din bn ≠ 0

/-- Blocks that are there are read without any being allocated. -/
theorem eachBlock_mapped : ∀ {fuel off n : Nat} {dst : List UInt8}, n ≤ fuel →
    off + n ≤ din.size.toNat → din.size.toNat ≤ maxfile * bsize → Mapped d din →
    ∃ dst', eachBlock S readBody fuel off n d din dst = .ok (d, din, dst')
  | 0, off, n, dst, _, _, _, _ => ⟨dst, rfl⟩
  | fuel + 1, off, n, dst, hfuel, hend, hsize, hmapped => by
    rw [eachBlock]
    split
    · exact ⟨dst, rfl⟩
    · rename_i hn
      have hn : 0 < n := Nat.pos_of_ne_zero hn
      have hblock : blockOf d din (off / bsize) ≠ 0 :=
        hmapped _ (Nat.lt_of_le_of_lt (Nat.div_mul_le_self ..) (by omega))
      have hle := chunk_le off n
      have hpos := chunk_pos off hn
      have hfuel₁ : n - chunk off n ≤ fuel := by omega
      have hend₁ : off + chunk off n + (n - chunk off n) ≤ din.size.toNat := by omega
      obtain ⟨dst', hrest⟩ := eachBlock_mapped hfuel₁ hend₁ hsize hmapped
      exact ⟨dst', ok_bind (bmap_mapped (block_lt hn (by omega)) hblock) hrest⟩

/-- **A file that has its blocks is read** as the byte sequence it is, and nothing
changes. -/
theorem readi_of_mapped (hcons : Consistent S d) (hi : Allocated S (dinode S d) i)
    (hdev : (dinode S d i).type ≠ tDev) (hmapped : Mapped d (dinode S d i))
    (hip : inodesOf S (dinode S d) d i = some ip) (off n : UInt32) :
    readi S d (dinode S d i) off n = .ok (ip.readi off n, d, dinode S d i) := by
  have hsize := hcons.sizes i hi
  obtain ⟨r, hr⟩ : ∃ r, readi S d (dinode S d i) off n = .ok (r, d, dinode S d i) := by
    rw [readi, if_neg hdev]
    split
    · exact ⟨none, rfl⟩
    · rename_i hout
      have hin := mt outside_iff.mpr hout
      simp only [readLength hin]
      have hend : off.toNat + min n.toNat ((dinode S d i).size.toNat - off.toNat) ≤
          (dinode S d i).size.toNat := by omega
      obtain ⟨dst, hloop⟩ := eachBlock_mapped (Nat.le_refl _) hend hsize hmapped
      exact ⟨some dst, ok_bind hloop rfl⟩
  -- with the inode in memory it is a read of the byte sequence
  have hmem : update (fun _ => none) i (some (dinode S d i)) i = some (dinode S d i) :=
    update_self ..
  have hstate : FileInv S ⟨d, update (fun _ => none) i (some (dinode S d i))⟩ ∧
      InodeState.files S ⟨d, update (fun _ => none) i (some (dinode S d i))⟩ =
        inodesOf S (dinode S d) d :=
    hcons.inv.load rfl (by rintro _ ⟨⟩; exact ⟨hi, rfl, fun _ => rfl⟩)
  rw [hr, (hstate.1.readi hmem hr).2.2 ip (by rw [hstate.2]; exact hip)]

/-- **`dirlookup` on the disk** is `dirlookup` on the bytes of the directory. -/
theorem diskLookup_of_mapped (hcons : Consistent S d) (hi : Allocated S (dinode S d) i)
    (hmapped : Mapped d (dinode S d i)) (hip : inodesOf S (dinode S d) d i = some ip)
    (hdir : ip.type = tDir) (hwhole : direntSize ∣ ip.data.length) (name : List UInt8) :
    diskLookup S name (d, dinode S d i) =
      .ok ((Slots.get (slots ip.data) (cstr name)).map fun inum =>
        (inum, direntSize * Slots.index (slots ip.data) (cstr name)), (d, dinode S d i)) := by
  have hdata := inodesOf_alloc (d := d) hi
  rw [hip, Option.some.injEq] at hdata
  have htype : (dinode S d i).type = tDir := by
    rw [← hdir, hdata]
  have hsize : (dinode S d i).size.toNat = ip.data.length := by
    rw [hdata, length_fileData]
  have hlen : ip.data.length = direntSize * (dirents ip.data).length := by
    rw [dirents_length, Nat.mul_div_cancel' hwhole]
  have hmax : ip.data.length ≤ maxfile * bsize := hsize ▸ hcons.sizes i hi
  have hdev : (dinode S d i).type ≠ tDev := by
    rw [htype]
    decide
  -- both scans go through the same entries
  have hread : ∀ k (hk : k < (dirents ip.data).length),
      diskDirent S (direntSize * k) (d, dinode S d i) =
        .ok ((dirents ip.data)[k], (d, dinode S d i)) := by
    intro k hk
    obtain ⟨hread, hfull⟩ := readi_dirent hwhole hmax hk
    refine ok_bind (readi_of_mapped hcons hi hdev hmapped hip _ _) ?_
    rw [hread]
    simp only
    rw [if_pos hfull, getElem_dirents, direntAt]
  have hscan := dirScan_eq (p := Dirent.named name) hread ip.data.length 0
    (by rw [hlen, direntSize]; omega) (Nat.zero_le _)
  rw [← hlen, Nat.mul_zero, List.drop_zero, Nat.zero_add, findIdx_named] at hscan
  refine (run_bind_ok rfl).trans ?_
  simp only
  rw [if_neg (not_not.mpr htype), hsize]
  refine (run_bind_ok hscan).trans ?_
  rw [← inum_named, Option.map_map]
  rfl

end Lookup

namespace Mkfs

/-! ## §2  The entries of the root directory -/

section Entries

theorem dirents_append {a : List UInt8} (ha : direntSize ∣ a.length) (b : List UInt8) :
    dirents (a ++ b) = dirents a ++ dirents b := by
  obtain ⟨n, hn⟩ := ha
  have hpos : 0 < direntSize := by decide
  rw [dirents, dirents, dirents, List.length_append, hn, Nat.mul_add_div hpos,
    Nat.mul_div_cancel_left n hpos, List.range_add, List.map_append, List.map_map]
  congr 1
  · refine List.map_congr_left fun k hk => ?_
    have hle : direntSize * k + direntSize ≤ a.length := by
      rw [hn, ← Nat.mul_succ]
      exact Nat.mul_le_mul_left _ (List.mem_range.mp hk)
    rw [direntAt, direntAt, List.drop_append_of_le_length (by omega),
      List.take_append_of_le_length (by rw [List.length_drop]; omega)]
  · refine List.map_congr_left fun k _ => ?_
    rw [Function.comp, direntAt, direntAt, Nat.mul_add, ← hn, List.drop_length_add_append]

theorem slots_direntBytes {inum : Nat} (hpos : inum ≠ 0) (hlt : inum < 2 ^ 16) (name : List UInt8)
    (rest : List UInt8) :
    slots (direntBytes inum name ++ rest) = some (cstr name, inum) :: slots rest := by
  have hone : dirents (direntBytes inum name) = [⟨inum, strncpy name⟩] := by
    rw [dirents, direntBytes_length]
    change [direntAt (direntBytes inum name) 0] = _
    rw [direntAt, Nat.mul_zero, List.drop_zero,
      List.take_of_length_le (Nat.le_of_eq (direntBytes_length ..)), ofBytes_direntBytes hlt]
  rw [slots, dirents_append (by rw [direntBytes_length]), hone, List.map_append, ← slots]
  change Dirent.slot ⟨inum, strncpy name⟩ :: _ = _
  rw [Dirent.slot, if_neg hpos, cstr_strncpy]
  rfl

/-- Behind the entries there are zeros. -/
theorem slots_zeros (n : Nat) :
    slots (List.replicate (direntSize * n) 0) = List.replicate n none := by
  refine List.ext_getElem (by rw [slots_length, List.length_replicate, List.length_replicate,
    Nat.mul_div_cancel_left n (by decide)]) fun k hk _ => ?_
  rw [slots_length, List.length_replicate, Nat.mul_div_cancel_left n (by decide)] at hk
  have hle : direntSize ≤ direntSize * n - direntSize * k := by
    rw [← Nat.mul_sub]
    exact Nat.le_mul_of_pos_right _ (by omega)
  rw [List.getElem_replicate]
  simp only [slots, dirents, List.getElem_map, List.getElem_range, direntAt, List.drop_replicate,
    List.take_replicate, Nat.min_eq_left hle]
  rfl

/-- The names in the root directory. -/
def rootNames (files : List File) : List (List UInt8) :=
  dot :: dotdot :: files.map fun f => cstr f.stored

theorem slots_files (rest : List UInt8) : ∀ (files : List File) (k : Nat),
    files.length + k + 2 ≤ 2 ^ 16 →
    slots ((files.zipIdx k).flatMap (fun x => direntBytes (x.2 + 2) x.1.stored) ++ rest) =
      ((files.map fun f => cstr f.stored).zipIdx (k + 2)).map some ++ slots rest
  | [], _, _ => rfl
  | f :: files, k, hlen => by
    rw [List.length_cons] at hlen
    rw [List.zipIdx_cons, List.flatMap_cons, List.append_assoc,
      slots_direntBytes (by omega) (by omega), slots_files rest files (k + 1) (by omega)]
    rfl

/-- The slots of the root directory, with zeros behind its entries. -/
def rootSlots (files : List File) (n : Nat) : List (Option (List UInt8 × Nat)) :=
  some (dot, rootino) :: some (dotdot, rootino) ::
    (((files.map fun f => cstr f.stored).zipIdx 2).map some ++ List.replicate n none)

theorem slots_root (files : List File) (hlen : files.length + 2 ≤ 2 ^ 16) (n : Nat) :
    slots (rootData files ++ List.replicate (direntSize * n) 0) = rootSlots files n := by
  rw [rootData, List.append_assoc, List.append_assoc, slots_direntBytes (by decide) (by decide),
    slots_direntBytes (by decide) (by decide), slots_files _ files 0 (by omega), slots_zeros]
  rfl

theorem rootSlots_name {files : List File} {n i : Nat} {k : List UInt8} {v : Nat}
    (h : (rootSlots files n)[i]? = some (some (k, v))) : (rootNames files)[i]? = some k := by
  match i with
  | 0 => cases h; rfl
  | 1 => cases h; rfl
  | i + 2 =>
    change (((files.map fun f => cstr f.stored).zipIdx 2).map some ++
      List.replicate n none)[i]? = _ at h
    change (files.map fun f => cstr f.stored)[i]? = some k
    by_cases hi : i < files.length
    · rw [List.getElem?_append_left (by simpa using hi), List.getElem?_map,
        List.getElem?_zipIdx] at h
      simp only [List.getElem?_map, Option.map_map, Option.map_eq_some_iff] at h ⊢
      obtain ⟨f, hf, heq⟩ := h
      cases heq
      exact ⟨f, hf, rfl⟩
    · rw [List.getElem?_append_right (by simpa using hi)] at h
      have := List.mem_of_getElem? h
      rw [List.mem_replicate] at this
      cases this.2

theorem rootSlots_unique {files : List File} (hnames : (rootNames files).Nodup) (n : Nat) :
    Slots.Unique (rootSlots files n) := by
  intro i j k v w hi hj
  have hi' := rootSlots_name hi
  have hlt := (List.getElem?_eq_some_iff.mp hi').1
  exact (List.getElem?_inj hlt hnames).mp (hi'.trans (rootSlots_name hj).symm)

/-- Input file `j` is found under its name. -/
theorem rootSlots_get {files : List File} (hnames : (rootNames files).Nodup) (n : Nat) {j : Nat}
    {f : File} (hf : files[j]? = some f) :
    Slots.get (rootSlots files n) (cstr f.stored) = some (j + 2) := by
  refine (Slots.get_eq_some_iff (rootSlots_unique hnames n)).mpr ⟨j + 2, ?_⟩
  change (((files.map fun f => cstr f.stored).zipIdx 2).map some ++
    List.replicate n none)[j]? = _
  have hj := (List.getElem?_eq_some_iff.mp hf).1
  rw [List.getElem?_append_left (by simpa using hj), List.getElem?_map, List.getElem?_zipIdx,
    List.getElem?_map, hf]
  simp [Nat.add_comm]

theorem rootData_length (files : List File) :
    (rootData files).length = direntSize * (files.length + 2) := by
  have hfiles : ∀ (files : List File) (k : Nat),
      ((files.zipIdx k).flatMap fun x => direntBytes (x.2 + 2) x.1.stored).length =
        direntSize * files.length := by
    intro files
    induction files with
    | nil => intro k; rfl
    | cons f files ih =>
      intro k
      rw [List.zipIdx_cons, List.flatMap_cons, List.length_append, direntBytes_length, ih,
        List.length_cons, Nat.mul_succ, Nat.add_comm]
  rw [rootData, List.length_append, List.length_append, direntBytes_length, direntBytes_length,
    hfiles, Nat.mul_add]
  omega

end Entries

/-! ## §3  The finished image -/

/-- What the image is for: every file has its blocks, which are its own, behind the
metadata and marked; and the kernel finds the input files under their names, and
reads them, without changing anything. -/
structure ImageOK (files : List File) (s : State) : Prop where
  mapped : ∀ i, Allocated sb (dinode sb s.disk) i → Mapped s.disk (dinode sb s.disk i)
  once : ∀ P Q, slot sb (dinode sb s.disk) s.disk P ≠ 0 →
    slot sb (dinode sb s.disk) s.disk P = slot sb (dinode sb s.disk) s.disk Q → P = Q
  range : ∀ P, slot sb (dinode sb s.disk) s.disk P ≠ 0 →
    nmeta ≤ slot sb (dinode sb s.disk) s.disk P ∧ slot sb (dinode sb s.disk) s.disk P < s.freeblock
  bitmap : ∀ b, b < bpb → bit sb s.disk b = decide (b < s.freeblock)
  found : ∀ (j : Nat) f, files[j]? = some f → ∃ off,
    diskLookup sb f.stored (s.disk, dinode sb s.disk rootino) =
      .ok (some (j + 2, off), (s.disk, dinode sb s.disk rootino))
  bytes : ∀ (j : Nat) f, files[j]? = some f → ∀ off n,
    readi sb s.disk (dinode sb s.disk (j + 2)) off n =
      .ok ((⟨tFile, 0, 0, 1, f.content⟩ : Inode).readi off n, s.disk, dinode sb s.disk (j + 2))

section Image

variable {files : List File} {s s' : State}

/-- The root directory as the kernel sees it: zeros behind the entries. -/
def rootInode (files : List File) : Inode :=
  ⟨tDir, 0, 0, 1, rootData files ++
    List.replicate (direntSize * (32 - (files.length + 2) % 32)) 0⟩

/-- The size of the root directory is the next multiple of the block size. -/
theorem fixedRoot_size {n : Nat} (hn : n ≤ ninodes)
    (hsize : (dinode sb s.image rootino).size.toNat = direntSize * n) :
    (fixedRoot s).size.toNat = direntSize * n + direntSize * (32 - n % 32) := by
  have hround : (direntSize * n / bsize + 1) * bsize = direntSize * n + direntSize * (32 - n % 32) := by
    simp only [direntSize, bsize]
    omega
  change (UInt32.ofNat _).toNat = _
  rw [hsize, hround, UInt32.toNat_ofNat_of_lt']
  simp only [direntSize, ninodes] at hn ⊢
  rw [UInt32.size]
  omega

/-- What the last step of `main` leaves: the same files but for the size of the
root directory. -/
structure Finished (files : List File) (s s' : State) : Prop where
  built : Built s (fileTable files)
  freeblock : s'.freeblock = s.freeblock
  inodes : dinode sb s'.disk = update (dinode sb s.image) rootino (fixedRoot s)
  stored : slot sb (dinode sb s'.disk) s'.disk = slot sb (dinode sb s.image) s.image
  bits : ∀ b, bit sb s'.disk b = bit sb s.image b
  cons : Consistent sb s'.disk
  table : inodesOf sb (dinode sb s'.disk) s'.disk =
    update (fileTable files) rootino (some (rootInode files))

/-- The root directory before its size is rounded up. -/
theorem Built.root (h : Built s (fileTable files)) :
    Allocated sb (dinode sb s.image) rootino ∧
      inodesOf sb (dinode sb s.image) s.image rootino = some ⟨tDir, 0, 0, 1, rootData files⟩ ∧
      (dinode sb s.image rootino).size.toNat = direntSize * (files.length + 2) := by
  have hroot : inodesOf sb (dinode sb s.image) s.image rootino = _ := congrFun h.files rootino
  have halloc : Allocated sb (dinode sb s.image) rootino := by
    by_contra hnot
    rw [inodesOf, if_neg hnot] at hroot
    cases hroot
  refine ⟨halloc, hroot, ?_⟩
  rw [inodesOf_alloc halloc] at hroot
  have hdata : fileData sb (dinode sb s.image) s.image rootino = rootData files :=
    congrArg Inode.data (Option.some.inj hroot)
  rw [← rootData_length, ← hdata, length_fileData]

/-- A sequence that is read beyond its end, where there are zeros. -/
theorem map_range_padded {f g : Nat → UInt8} (hfg : ∀ x, f x = g x) {n m : Nat}
    (hrest : ∀ x, n ≤ x → g x = 0) :
    (List.range (n + m)).map f = (List.range n).map g ++ List.replicate m 0 := by
  rw [List.range_add, List.map_append, List.map_map]
  congr 1
  · exact List.map_congr_left fun x _ => hfg x
  · rw [List.eq_replicate_iff]
    refine ⟨by rw [List.length_map, List.length_range], fun b hb => ?_⟩
    obtain ⟨x, -, rfl⟩ := List.mem_map.mp hb
    exact (hfg _).trans (hrest _ (Nat.le_add_right ..))

theorem finished (h : main files = .ok s') (hlen : files.length + 1 < ninodes)
    (hfits : s'.freeblock ≤ fssize) : ∃ s, Finished files s s' := by
  obtain ⟨s, hbuilt, hfree, hdisk⟩ := main_built h hlen hfits
  obtain ⟨hroot, hfile, hsize⟩ := hbuilt.root
  have hnew := fixedRoot_size (n := files.length + 2) (by omega) hsize
  obtain ⟨hslot, hok, hbytes⟩ := iupdate_keeps hbuilt.cons.alloc hroot.2.1
    (slot_update_attrs (D := dinode sb s.image) (rfl : (fixedRoot s).type = _) rfl)
  have hinodes : dinode sb s'.disk = update (dinode sb s.image) rootino (fixedRoot s) := by
    rw [hdisk, dinode_iupdate]
  refine ⟨s, hbuilt, hfree, hinodes, ?_, fun b => ?_, ⟨?_, fun i hi => ?_⟩, ?_⟩
  · rw [hinodes, hdisk, hslot]
  · rw [bit, bit, hdisk, iupdate_data hroot.2.1 (sb.bmapstart_le_bblock b)]
  · rw [hinodes, hdisk]
    exact hok
  · rw [hinodes] at hi ⊢
    by_cases hi₁ : i = rootino
    · rw [hi₁, update_self, hnew]
      simp only [ninodes] at hlen
      simp only [direntSize, maxfile, ndirect, nindirect, bsize]
      omega
    · rw [Allocated, update_of_ne hi₁] at hi
      rw [update_of_ne hi₁]
      exact hbuilt.cons.sizes i hi
  · rw [hinodes, hdisk, ← hbuilt.files]
    refine files_update (fun j x _ => hbytes j x) ?_
    have hroot' : Allocated sb (update (dinode sb s.image) rootino (fixedRoot s)) rootino := by
      rw [Allocated, update_self]
      exact hroot
    have hbytes := hbytes rootino
    have hrest := hbuilt.rest rootino hroot
    rw [inodesOf_alloc hroot, Option.some.injEq, Inode.mk.injEq] at hfile
    obtain ⟨htype, hmajor, hminor, hnlink, hdata⟩ := hfile
    rw [inodesOf_alloc hroot', update_self, rootInode, Option.some.injEq, Inode.mk.injEq]
    refine ⟨htype, hmajor, hminor, hnlink, ?_⟩
    rw [fileData, update_self, hnew, ← hdata, fileData, hsize]
    exact map_range_padded hbytes (hsize ▸ hrest)

namespace Finished

variable (h : Finished files s s')
include h

theorem allocated {i : Nat} : Allocated sb (dinode sb s'.disk) i ↔
    Allocated sb (dinode sb s.image) i := by
  rw [h.inodes, Allocated, Allocated]
  by_cases hi : i = rootino
  · rw [hi, update_self]
    rfl
  · rw [update_of_ne hi]

/-- A file has its blocks iff the blocks its size calls for on the disk are those
it called for before the last step. -/
theorem mapped_iff {i : Nat} (hi : Allocated sb (dinode sb s'.disk) i) :
    Mapped s'.disk (dinode sb s'.disk i) ↔
      ∀ bn, bn * bsize < (dinode sb s'.disk i).size.toNat →
        bn * bsize < (dinode sb s.image i).size.toNat := by
  refine forall_congr' fun bn => forall_congr' fun hbn => ?_
  have hbn : bn < maxfile := by
    have := h.cons.sizes i hi
    simp only [bsize] at this hbn
    omega
  rw [← h.built.tight i (h.allocated.mp hi) ⟨bn, hbn⟩, ← h.stored, slot_data hi]

theorem mapped_of_ne {i : Nat} (hi : Allocated sb (dinode sb s'.disk) i) (hne : i ≠ rootino) :
    Mapped s'.disk (dinode sb s'.disk i) := by
  rw [h.mapped_iff hi, h.inodes, update_of_ne hne]
  exact fun _ hbn => hbn

theorem root : Allocated sb (dinode sb s'.disk) rootino := h.allocated.mpr h.built.root.1

/-- The root directory has the block behind its entries iff they leave room there. -/
theorem mapped_root_iff (hlen : files.length + 1 < ninodes) :
    Mapped s'.disk (dinode sb s'.disk rootino) ↔ (files.length + 2) % 32 ≠ 0 := by
  obtain ⟨-, -, hsize⟩ := h.built.root
  rw [h.mapped_iff h.root, h.inodes, update_self,
    fixedRoot_size (n := files.length + 2) (by omega) hsize, hsize]
  simp only [direntSize, bsize]
  constructor
  · intro hall hfull
    have := hall ((files.length + 2) / 32) (by omega)
    omega
  · intro hroom bn hbn
    omega

theorem lookup (hlen : files.length + 1 < ninodes)
    (hmapped : Mapped s'.disk (dinode sb s'.disk rootino)) (name : List UInt8) :
    ∃ off, diskLookup sb name (s'.disk, dinode sb s'.disk rootino) =
      .ok ((Slots.get (rootSlots files (32 - (files.length + 2) % 32)) (cstr name)).map (·, off),
        (s'.disk, dinode sb s'.disk rootino)) := by
  have hip : inodesOf sb (dinode sb s'.disk) s'.disk rootino = some (rootInode files) := by
    rw [h.table, update_self]
  have hwhole : direntSize ∣ (rootInode files).data.length := by
    rw [rootInode, List.length_append, rootData_length, List.length_replicate]
    exact Nat.dvd_add (Nat.dvd_mul_right ..) (Nat.dvd_mul_right ..)
  have hslots : slots (rootInode files).data = _ :=
    slots_root files (by simp only [ninodes] at hlen; omega) _
  have hlookup := diskLookup_of_mapped h.cons h.root hmapped hip rfl hwhole name
  rw [hslots] at hlookup
  exact ⟨_, hlookup⟩

theorem bytes {j : Nat} {f : File} (hf : files[j]? = some f) (off n : UInt32) :
    readi sb s'.disk (dinode sb s'.disk (j + 2)) off n =
      .ok ((⟨tFile, 0, 0, 1, f.content⟩ : Inode).readi off n, s'.disk, dinode sb s'.disk (j + 2)) := by
  have hne : j + 2 ≠ rootino := by simp [rootino]
  have hip : inodesOf sb (dinode sb s'.disk) s'.disk (j + 2) = some ⟨tFile, 0, 0, 1, f.content⟩ := by
    rw [h.table, update_of_ne hne, fileTable, hf]
    rfl
  have hi : Allocated sb (dinode sb s'.disk) (j + 2) := by
    by_contra hnot
    rw [inodesOf, if_neg hnot] at hip
    cases hip
  have hdev : (dinode sb s'.disk (j + 2)).type ≠ tDev := by
    rw [inodesOf_alloc hi, Option.some.injEq, Inode.mk.injEq] at hip
    rw [hip.1]
    decide
  exact readi_of_mapped h.cons hi hdev (h.mapped_of_ne hi hne) hip off n

end Finished

/-- **The image is right iff the last block of the root directory has room.** Its
size is rounded up to the next block even when the entries fill the last one; then
the block it claims does not exist, and the kernel's first `dirlookup` that gets
there allocates one. (A name that hides behind `.` or `..` is not found either.) -/
theorem image_ok_iff (h : main files = .ok s) (hlen : files.length + 1 < ninodes)
    (hfits : s.freeblock ≤ fssize) (hnames : (files.map fun f => cstr f.stored).Nodup) :
    ImageOK files s ↔
      (files.length + 2) % 32 ≠ 0 ∧ ∀ f ∈ files, cstr f.stored ≠ dot ∧ cstr f.stored ≠ dotdot := by
  obtain ⟨s₀, hfin⟩ := finished h hlen hfits
  constructor
  · intro hok
    have hmapped := hok.mapped rootino hfin.root
    refine ⟨(hfin.mapped_root_iff hlen).mp hmapped, fun f hf => ?_⟩
    obtain ⟨j, hj⟩ := List.mem_iff_getElem?.mp hf
    obtain ⟨off, hfound⟩ := hok.found j f hj
    obtain ⟨off', hget⟩ := hfin.lookup hlen hmapped f.stored
    rw [hfound] at hget
    constructor <;> intro hdot <;> rw [hdot] at hget <;> cases hget
  · rintro ⟨hroom, hdots⟩
    have hmapped := (hfin.mapped_root_iff hlen).mpr hroom
    have hall : (rootNames files).Nodup := by
      rw [rootNames, List.nodup_cons, List.nodup_cons]
      refine ⟨?_, ?_, hnames⟩
      · rw [List.mem_cons, List.mem_map]
        rintro (hbad | ⟨f, hf, hbad⟩)
        · exact absurd hbad (by decide)
        · exact (hdots f hf).1 hbad
      · rw [List.mem_map]
        rintro ⟨f, hf, hbad⟩
        exact (hdots f hf).2 hbad
    refine ⟨fun i hi => ?_, ?_, fun P hP => ?_, fun b hb => ?_, fun j f hf => ?_, fun j f hf => ?_⟩
    · by_cases hroot : i = rootino
      · rw [hroot]
        exact hmapped
      · exact hfin.mapped_of_ne hi hroot
    · exact hfin.cons.alloc.once
    · rw [hfin.stored] at hP ⊢
      rw [hfin.freeblock]
      exact stored_range hfin.built.cons.alloc hP
    · rw [hfin.bits, hfin.freeblock]
      exact bit_marked _ _ hb
    · obtain ⟨off, hget⟩ := hfin.lookup hlen hmapped f.stored
      rw [rootSlots_get hall _ hf] at hget
      exact ⟨off, hget⟩
    · exact hfin.bytes hf

end Image

/-- An empty input file. -/
def bare (name : List UInt8) : File := ⟨name, [], fun _ hc => by cases hc⟩

theorem main_fits {files : List File} {n : Nat}
    (h : (main files).toOption.any (·.freeblock ≤ n) = true) :
    ∃ s, main files = .ok s ∧ s.freeblock ≤ n := by
  match hmain : main files with
  | .error e => rw [hmain] at h; cases h
  | .ok s =>
    rw [hmain] at h
    exact ⟨s, rfl, of_decide_eq_true h⟩

/-- An empty file, and one that takes a block and a part of the next. -/
def twoFiles : List File :=
  [bare [97], ⟨[95, 98], [List.replicate 512 1, [2, 3, 4]], by decide +kernel⟩]

theorem image_ok_twoFiles : ∃ s, main twoFiles = .ok s ∧ ImageOK twoFiles s := by
  obtain ⟨s, hmain, hfits⟩ := @main_fits twoFiles fssize (by decide +kernel)
  refine ⟨s, hmain, (image_ok_iff hmain (by decide) hfits (by decide)).mpr ⟨by decide, ?_⟩⟩
  decide

/-- Thirty empty files, whose entries with `.` and `..` fill one block. -/
def fullRoot : List File := (List.range 30).map fun k => bare [UInt8.ofNat (65 + k)]

theorem fullRoot_finished : ∃ s s₀, main fullRoot = .ok s ∧ s.freeblock ≤ 900 ∧
    Finished fullRoot s₀ s := by
  obtain ⟨s, hmain, hfits⟩ := @main_fits fullRoot 900 (by decide +kernel)
  obtain ⟨s₀, hfin⟩ := finished hmain (by decide) (hfits.trans (by decide))
  exact ⟨s, s₀, hmain, hfits, hfin⟩

theorem image_full_root : ∃ files s, main files = .ok s ∧ files.length + 1 < ninodes ∧
    s.freeblock ≤ fssize ∧ (rootNames files).Nodup ∧ ¬ ImageOK files s := by
  obtain ⟨s, s₀, hmain, hfits, hfin⟩ := fullRoot_finished
  have hlen : fullRoot.length + 1 < ninodes := by decide
  refine ⟨_, s, hmain, hlen, hfits.trans (by decide), by decide +kernel, fun hok => ?_⟩
  exact (hfin.mapped_root_iff hlen).mp (hok.mapped rootino hfin.root) (by decide)

/-- The kernel looks up a name that is not there. `dirlookup` reads on behind the
entries, at offset 512, and the block that it gets there is lost when the inode of
the root directory leaves memory. -/
theorem full_root_leaks : ∃ files s, main files = .ok s ∧ Consistent sb s.disk ∧
    ∃ r s', (inodeSystem sb).Run (.boot s.disk)
        [.ilock rootino, .readi rootino 512 16 r, .evict rootino] s' ∧
      ∃ b, sb.datastart ≤ b ∧ b < sb.size ∧ bit sb s'.disk b = true ∧
        ∀ P, slot sb (dinode sb s'.disk) s'.disk P ≠ b := by
  obtain ⟨s, s₀, hmain, hfits, hfin⟩ := fullRoot_finished
  obtain ⟨hroot, -, hsize⟩ := hfin.built.root
  have hfixed := fixedRoot_size (n := fullRoot.length + 2) (by decide) hsize
  have htype : (dinode sb s.disk rootino).type = tDir := by
    have hip : inodesOf sb (dinode sb s.disk) s.disk rootino = some (rootInode fullRoot) := by
      rw [hfin.table, update_self]
    rw [inodesOf_alloc hfin.root] at hip
    exact congrArg Inode.type (Option.some.inj hip)
  -- its entries end with the first block, and the second has no address
  have hnone := mt (hfin.built.tight rootino hroot (directBn (k := 1) (by decide))).mp
    (by rw [hsize]; decide)
  rw [← hfin.stored, not_not] at hnone
  have hhole := (slot_addrPlace hfin.root 1).symm.trans hnone
  have hbit : ∀ b, 900 ≤ b → b < bpb → bit sb s.disk b = false := by
    intro b hlo hhi
    rw [hfin.bits, State.image, bit_marked _ _ hhi, ← hfin.freeblock]
    exact decide_eq_false (by omega)
  refine ⟨_, s, hmain, hfin.cons, hole_leaks (k := 1) (n := 16) hfin.cons hfin.root
    (by rw [htype]; decide) ?_ (UInt32.toNat_inj.mp hhole) ?_ (by decide) (by decide)⟩
  · rw [hfin.inodes, update_self, hfixed]
    decide
  · refine Finset.one_lt_card.mpr ⟨998, ?_, 999, ?_, by decide⟩ <;>
      exact Finset.mem_filter.mpr
        ⟨Finset.mem_range.mpr (by decide), hbit _ (by decide) (by decide)⟩

end Mkfs

end Xv6.Fs
