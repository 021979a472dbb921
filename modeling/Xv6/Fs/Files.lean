import Xv6.Fs.Inode
import Xv6.Fs.InodeTable

/-!
# Files on the disk are byte sequences

The state is the disk together with the inodes that are in memory. The code
changes it in the ways that `InodeEvent` lists; `create`, `dirlink`, `unlink` and
the other callers are sequences of these. `FileInv` is what holds between any
two of them, and by it each event on the disk is the same event on the table of
byte sequences (`FileInv.step`).

An inode in memory can be ahead of the disk in one way only: `bmap` has given it
a block inside its size, which nothing writes back. It takes a hole in the file
for that to happen.
-/

namespace Xv6.Fs

open Transition Function

/-! ## §1  The disk and the inodes in memory -/

structure InodeState where
  disk : Disk
  mem : Nat → Option Dinode

/-- The inodes as the kernel sees them: in memory, or on the disk. -/
def InodeState.table (S : Superblock) (s : InodeState) (i : Nat) : Dinode :=
  (s.mem i).getD (dinode S s.disk i)

def inodeNext (S : Superblock) (s : InodeState) : InodeEvent → Option InodeState
  | .ialloc type i =>
    match ialloc S s.disk type with
    | .ok (j, d) => if type ≠ 0 ∧ j = i then some { s with disk := d } else none
    | .error _ => none
  | .ilock i =>
    match s.mem i with
    | some _ => some s
    | none =>
      if Allocated S (dinode S s.disk) i then
        some { s with mem := update s.mem i (some (dinode S s.disk i)) }
      else none
  | .evict i => some { s with mem := update s.mem i none }
  | .readi i off n r =>
    match s.mem i with
    | some din =>
      match readi S s.disk din off n with
      | .ok (r', d, din') =>
        if r' = r then some ⟨d, update s.mem i (some din')⟩ else none
      | .error _ => none
    | none => none
  | .writei i src off n r =>
    match s.mem i with
    | some din =>
      match writei S s.disk i din src off n with
      | .ok (r', d, din') =>
        if r' = r then some ⟨d, update s.mem i (some din')⟩ else none
      | .error _ => none
    | none => none
  | .iupdate i major minor nlink =>
    match s.mem i with
    | some din =>
      let din := { din with major := major, minor := minor, nlink := nlink }
      some ⟨iupdate S s.disk i din, update s.mem i (some din)⟩
    | none => none
  | .iput i =>
    match s.mem i with
    | some din =>
      if din.nlink = 0 then
        match itrunc S s.disk i din with
        | .ok (d, din) =>
          some ⟨iupdate S d i { din with type := 0 }, update s.mem i none⟩
        | .error _ => none
      else none
    | none => none

section Inversion

variable {S : Superblock} {s s' : InodeState} {i : Nat}

theorem inodeNext_ialloc {type : Int16} (h : inodeNext S s (.ialloc type i) = some s') :
    ∃ d, type ≠ 0 ∧ ialloc S s.disk type = .ok (i, d) ∧ s' = { s with disk := d } := by
  rw [inodeNext] at h
  split at h
  · rename_i j d halloc
    split at h
    · rename_i hcond
      obtain ⟨htype, rfl⟩ := hcond
      exact ⟨d, htype, halloc, (Option.some.inj h).symm⟩
    · cases h
  · cases h

theorem inodeNext_ilock (h : inodeNext S s (.ilock i) = some s') :
    (∃ din, s.mem i = some din ∧ s' = s) ∨ s.mem i = none ∧ Allocated S (dinode S s.disk) i ∧
      s' = { s with mem := update s.mem i (some (dinode S s.disk i)) } := by
  rw [inodeNext] at h
  split at h
  · rename_i din hmem
    exact .inl ⟨din, hmem, (Option.some.inj h).symm⟩
  · rename_i hmem
    split at h
    · rename_i hi
      exact .inr ⟨hmem, hi, (Option.some.inj h).symm⟩
    · cases h

theorem inodeNext_readi {off n : UInt32} {r : Option (List UInt8)}
    (h : inodeNext S s (.readi i off n r) = some s') :
    ∃ din d din', s.mem i = some din ∧ readi S s.disk din off n = .ok (r, d, din') ∧
      s' = ⟨d, update s.mem i (some din')⟩ := by
  rw [inodeNext] at h
  split at h
  · rename_i din hmem
    split at h
    · rename_i r' d din' hread
      split at h
      · rename_i hr
        subst hr
        exact ⟨din, d, din', hmem, hread, (Option.some.inj h).symm⟩
      · cases h
    · cases h
  · cases h

theorem inodeNext_writei {src : Nat → UInt8} {off n : UInt32} {r : Option UInt32}
    (h : inodeNext S s (.writei i src off n r) = some s') :
    ∃ din d din', s.mem i = some din ∧ writei S s.disk i din src off n = .ok (r, d, din') ∧
      s' = ⟨d, update s.mem i (some din')⟩ := by
  rw [inodeNext] at h
  split at h
  · rename_i din hmem
    split at h
    · rename_i r' d din' hwrite
      split at h
      · rename_i hr
        subst hr
        exact ⟨din, d, din', hmem, hwrite, (Option.some.inj h).symm⟩
      · cases h
    · cases h
  · cases h

theorem inodeNext_iupdate {major minor nlink : Int16}
    (h : inodeNext S s (.iupdate i major minor nlink) = some s') :
    ∃ din, s.mem i = some din ∧
      s' = ⟨iupdate S s.disk i { din with major := major, minor := minor, nlink := nlink },
        update s.mem i
          (some { din with major := major, minor := minor, nlink := nlink })⟩ := by
  rw [inodeNext] at h
  split at h
  · rename_i din hmem
    exact ⟨din, hmem, (Option.some.inj h).symm⟩
  · cases h

theorem inodeNext_iput (h : inodeNext S s (.iput i) = some s') :
    ∃ din d din', s.mem i = some din ∧ din.nlink = 0 ∧ itrunc S s.disk i din = .ok (d, din') ∧
      s' = ⟨iupdate S d i { din' with type := 0 }, update s.mem i none⟩ := by
  rw [inodeNext] at h
  split at h
  · rename_i din hmem
    split at h
    · rename_i hdead
      split at h
      · rename_i d din' htrunc
        exact ⟨din, d, din', hmem, hdead, htrunc, (Option.some.inj h).symm⟩
      · cases h
    · cases h
  · cases h

end Inversion

def inodeSystem (S : Superblock) : System InodeState InodeEvent := .ofNext (inodeNext S)

/-! ## §2  Consistency -/

/-- The block numbers on the disk agree with the bitmap, and no file is larger
than a file can be. -/
structure Consistent (S : Superblock) (d : Disk) : Prop where
  alloc : AllocOK S (slot S (dinode S d) d) (bit S d)
  sizes : ∀ i, Allocated S (dinode S d) i → (dinode S d i).size.toNat ≤ maxfile * bsize

/-- No inode lacks an address inside its size. -/
def NoHoles (S : Superblock) (d : Disk) : Prop :=
  ∀ i, Allocated S (dinode S d) i → (dinode S d i).HasAddrs (dinode S d i).size.toNat

/-- An inode in memory differs from the disk at most in addresses, and only if
the inode on the disk has a hole. -/
structure InMemory (S : Superblock) (d : Disk) (i : Nat) (din : Dinode) : Prop where
  alloc : Allocated S (dinode S d) i
  attrs : din = { dinode S d i with addrs := din.addrs }
  addrs : (dinode S d i).HasAddrs (dinode S d i).size.toNat → din = dinode S d i

structure FileInv (S : Superblock) (s : InodeState) : Prop where
  alloc : AllocOK S (slot S (s.table S) s.disk) (bit S s.disk)
  sizes : ∀ i, Allocated S (s.table S) i → (s.table S i).size.toNat ≤ maxfile * bsize
  mem : ∀ i din, s.mem i = some din → InMemory S s.disk i din

theorem Consistent.inv {S : Superblock} {d : Disk} (h : Consistent S d) :
    FileInv S ⟨d, fun _ => none⟩ :=
  ⟨h.alloc, h.sizes, nofun⟩

/-- An inode may leave memory when the disk has all its addresses. -/
def Evictable (S : Superblock) (s : InodeState) : InodeEvent → Prop
  | .evict i => (s.mem i).isSome → (dinode S s.disk i).HasAddrs (dinode S s.disk i).size.toNat
  | _ => True

instance (S : Superblock) (s : InodeState) : (e : InodeEvent) → Decidable (Evictable S s e)
  | .evict _ => inferInstanceAs (Decidable (_ → Dinode.HasAddrs _ _))
  | .ialloc .. | .ilock _ | .readi .. | .writei .. | .iupdate .. | .iput _ =>
    inferInstanceAs (Decidable True)

/-! ## §3  The files as byte sequences -/

/-- The bytes of file `i`. -/
def fileData (S : Superblock) (D : Nat → Dinode) (d : Disk) (i : Nat) : List UInt8 :=
  (List.range (D i).size.toNat).map (byteAt (slot S D d) d i)

theorem length_fileData (S : Superblock) (D : Nat → Dinode) (d : Disk) (i : Nat) :
    (fileData S D d i).length = (D i).size.toNat := by
  rw [fileData, List.length_map, List.length_range]

/-- The table of byte sequences that a table of inodes and a disk stand for. -/
def inodesOf (S : Superblock) (D : Nat → Dinode) (d : Disk) : InodeTable := fun i =>
  if Allocated S D i then
    some ⟨(D i).type, (D i).major, (D i).minor, (D i).nlink, fileData S D d i⟩
  else none

def InodeState.files (S : Superblock) (s : InodeState) : InodeTable :=
  inodesOf S (s.table S) s.disk

section View

variable {S : Superblock} {D D' : Nat → Dinode} {d d' : Disk} {i j : Nat} {s : InodeState}

theorem inodesOf_alloc (hi : Allocated S D i) : inodesOf S D d i =
    some ⟨(D i).type, (D i).major, (D i).minor, (D i).nlink, fileData S D d i⟩ := if_pos hi

/-- A file whose attributes and bytes are as before. -/
theorem inodesOf_congr (hattrs : D' j = { D j with addrs := (D' j).addrs })
    (hbytes : ∀ x, byteAt (slot S D' d') d' j x = byteAt (slot S D d) d j x) :
    inodesOf S D' d' j = inodesOf S D d j := by
  have htype : (D' j).type = (D j).type := by rw [hattrs]
  have halloc : Allocated S D' j ↔ Allocated S D j := by rw [Allocated, Allocated, htype]
  have hdata : fileData S D' d' j = fileData S D d j := by
    have hsize : (D' j).size = (D j).size := by rw [hattrs]
    rw [fileData, fileData, hsize]
    exact List.map_congr_left fun x _ => hbytes x
  rw [inodesOf, inodesOf]
  refine if_congr halloc ?_ rfl
  rw [hdata, hattrs]

/-- Inodes behind the last one do not matter. -/
theorem slot_agree (h : ∀ j, j < S.ninodes → D' j = D j) : slot S D' d = slot S D d :=
  slot_congr (fun j hj => by rw [h j hj]) fun j hj => by rw [h j hj]

theorem inodesOf_agree (h : ∀ j, j < S.ninodes → D' j = D j) :
    inodesOf S D' d = inodesOf S D d := by
  funext j
  by_cases hj : j < S.ninodes
  · exact inodesOf_congr (by rw [h j hj]) fun x => by rw [slot_agree h]
  · rw [inodesOf, inodesOf, if_neg fun halloc => hj halloc.2.1, if_neg fun halloc => hj halloc.2.1]

/-- `FileInv`, and what the files are, by a table that agrees with the state. -/
theorem FileInv.of_table (hagree : ∀ j, j < S.ninodes → s.table S j = D j)
    (halloc : AllocOK S (slot S D s.disk) (bit S s.disk))
    (hsizes : ∀ j, Allocated S D j → (D j).size.toNat ≤ maxfile * bsize)
    (hmem : ∀ j din, s.mem j = some din → InMemory S s.disk j din) :
    FileInv S s ∧ s.files S = inodesOf S D s.disk := by
  refine ⟨⟨?_, fun j hj => ?_, hmem⟩, inodesOf_agree hagree⟩
  · rwa [slot_agree hagree]
  · rw [hagree j hj.2.1]
    refine hsizes j ?_
    rw [Allocated, ← hagree j hj.2.1]
    exact hj

theorem InMemory.congr {din : Dinode} (h : InMemory S d j din)
    (hsame : dinode S d' j = dinode S d j) : InMemory S d' j din where
  alloc := by
    rw [Allocated, hsame]
    exact h.alloc
  attrs := by rw [hsame]; exact h.attrs
  addrs := by rw [hsame]; exact h.addrs

theorem FileInv.allocated (h : FileInv S s) {din : Dinode} (hmem : s.mem i = some din) :
    Allocated S (s.table S) i := by
  have hm := h.mem i din hmem
  refine ⟨hm.alloc.1, hm.alloc.2.1, ?_⟩
  rw [InodeState.table, hmem, Option.getD_some, hm.attrs]
  exact hm.alloc.2.2

theorem table_mem {din : Dinode} (hmem : s.mem i = some din) : s.table S i = din := by
  rw [InodeState.table, hmem, Option.getD_some]

/-- Inode `i` has changed, in memory or on the disk, and no other one on the disk. -/
theorem FileInv.put (h : FileInv S s) {o : Option Dinode} {din' : Dinode}
    (hothers : ∀ j, j < S.ninodes → j ≠ i → dinode S d' j = dinode S s.disk j)
    (htab : o.getD (dinode S d' i) = din')
    (halloc : AllocOK S (slot S (update (s.table S) i din') d') (bit S d'))
    (hsize : Allocated S (update (s.table S) i din') i → din'.size.toNat ≤ maxfile * bsize)
    (hm : ∀ dj, o = some dj → InMemory S d' i dj) :
    FileInv S ⟨d', update s.mem i o⟩ ∧ InodeState.files S ⟨d', update s.mem i o⟩ =
      inodesOf S (update (s.table S) i din') d' := by
  refine FileInv.of_table (fun j hj => ?_) halloc (fun j hj => ?_) fun j dj hj => ?_
  · change (update s.mem i o j).getD (dinode S d' j) = _
    by_cases hji : j = i
    · rw [hji, update_self, update_self, htab]
    · rw [update_of_ne hji, update_of_ne hji, hothers j hj hji]
      rfl
  · by_cases hji : j = i
    · rw [hji] at hj ⊢
      rw [update_self]
      exact hsize hj
    · rw [update_of_ne hji]
      rw [Allocated, update_of_ne hji] at hj
      exact h.sizes j hj
  · change update s.mem i o j = some dj at hj
    by_cases hji : j = i
    · rw [hji, update_self] at hj
      exact hji ▸ hm dj hj
    · rw [update_of_ne hji] at hj
      have hjm := h.mem j dj hj
      exact hjm.congr (hothers j hjm.alloc.2.1 hji)

/-- Inode `i` has changed in memory. -/
theorem FileInv.set (h : FileInv S s) {din' : Dinode}
    (hothers : ∀ j, j < S.ninodes → j ≠ i → dinode S d' j = dinode S s.disk j)
    (halloc : AllocOK S (slot S (update (s.table S) i din') d') (bit S d'))
    (hsize : din'.size.toNat ≤ maxfile * bsize) (hm : InMemory S d' i din') :
    FileInv S ⟨d', update s.mem i (some din')⟩ ∧
      InodeState.files S ⟨d', update s.mem i (some din')⟩ =
        inodesOf S (update (s.table S) i din') d' :=
  h.put hothers rfl halloc (fun _ => hsize) (by rintro _ ⟨⟩; exact hm)

/-- An inode is read into memory, or leaves it as it is on the disk. -/
theorem FileInv.load (h : FileInv S s) {o : Option Dinode}
    (htab : o.getD (dinode S s.disk i) = s.table S i)
    (hm : ∀ din, o = some din → InMemory S s.disk i din) :
    FileInv S { s with mem := update s.mem i o } ∧
      InodeState.files S { s with mem := update s.mem i o } = s.files S := by
  have hsame := update_eq_self i (s.table S)
  have hput := h.put (fun _ _ _ => rfl) htab (by rw [hsame]; exact h.alloc)
    (fun hi => h.sizes i (hsame ▸ hi)) hm
  rwa [hsame] at hput

end View

/-! ## §4  One event at a time -/

section Events

variable {S : Superblock} {s s' : InodeState} {i : Nat} {din : Dinode}

/-- A part of a sequence that is given by its elements. -/
theorem take_drop_range {α : Type} (f : Nat → α) (L off n : Nat) :
    (((List.range L).map f).drop off).take n =
      (List.range (min n (L - off))).map fun k => f (off + k) := by
  refine List.ext_getElem (by simp) fun k h₁ h₂ => ?_
  simp

theorem overwrite_range (f src : Nat → UInt8) {L off : Nat} (hoff : off ≤ L) (n : Nat) :
    overwrite ((List.range L).map f) off n src =
      (List.range (max L (off + n))).map fun x =>
        if off ≤ x ∧ x < off + n then src (x - off) else f x := by
  refine List.ext_getElem ?_ fun k h₁ h₂ => ?_
  · simp only [overwrite, List.length_append, List.length_take, List.length_map, List.length_range,
      List.length_drop]
    omega
  · simp only [overwrite, List.getElem_append, List.length_append, List.length_take,
      List.length_map, List.length_range, List.getElem_take, List.getElem_map, List.getElem_range,
      List.getElem_drop]
    split
    · split
      · rw [if_neg (by omega)]
      · rw [if_pos (by omega), Nat.min_eq_left hoff]
    · rw [if_neg (by omega)]
      exact congrArg f (by omega)

/-- The files other than `i` are as before. -/
theorem files_update {D : Nat → Dinode} {d d' : Disk} {din' : Dinode} {ip : Option Inode}
    (hbytes : ∀ j x, j ≠ i → byteAt (slot S (update D i din') d') d' j x =
      byteAt (slot S D d) d j x)
    (hi : inodesOf S (update D i din') d' i = ip) :
    inodesOf S (update D i din') d' = update (inodesOf S D d) i ip := by
  funext j
  by_cases hji : j = i
  · rw [hji, update_self, hi]
  · rw [update_of_ne hji]
    exact inodesOf_congr (by rw [update_of_ne hji]) fun x => hbytes j x hji

theorem FileInv.readi (h : FileInv S s) (hmem : s.mem i = some din) {off n : UInt32}
    {r : Option (List UInt8)} {d' : Disk} {din' : Dinode}
    (hread : readi S s.disk din off n = .ok (r, d', din')) :
    FileInv S ⟨d', update s.mem i (some din')⟩ ∧
      InodeState.files S ⟨d', update s.mem i (some din')⟩ = s.files S ∧
      ∀ ip, s.files S i = some ip → ip.readi off n = r := by
  have hi := h.allocated hmem
  have hm := h.mem i din hmem
  have htab : s.table S i = din := table_mem hmem
  have hsize := h.sizes i hi
  rw [← htab] at hread
  have hspec := readi_spec h.alloc hi hsize hread
  split at hspec
  · rename_i hout
    obtain ⟨rfl, rfl, rfl⟩ := hspec
    have hsame : (⟨s.disk, update s.mem i (some (s.table S i))⟩ : InodeState) = s := by
      rw [htab, ← hmem, update_eq_self]
    rw [hsame]
    refine ⟨h, rfl, fun ip hip => ?_⟩
    cases (inodesOf_alloc hi).symm.trans hip
    rw [Inode.readi, length_fileData]
    exact if_pos hout
  · rename_i hin
    obtain ⟨rfl, hup⟩ := hspec
    have hdinode : ∀ j, j < S.ninodes → dinode S d' j = dinode S s.disk j := fun j hj =>
      dinode_congr hj hup.inodes
    have hattrs := hup.attrs
    rw [update_self] at hattrs
    have hbytes : ∀ j x, byteAt (slot S (update (s.table S) i din') d') d' j x =
        byteAt (slot S (s.table S) s.disk) s.disk j x := by
      intro j x
      rw [hup.bytes]
      split
      · rename_i hx
        rw [bytesFrom, hx.1, Nat.add_sub_cancel' hx.2.1]
      · rfl
    obtain ⟨hinv, hfiles⟩ := h.set (i := i) (fun j hj _ => hdinode j hj) hup.ok
      (by rw [hattrs]; exact hsize)
      (InMemory.congr (d := s.disk) ⟨hm.alloc, by rw [hattrs, htab, hm.attrs], fun hall => by
        have heq := htab.trans (hm.addrs hall)
        have hkept := hup.stored (by rw [heq]; exact hall.mono (by rw [heq] at hin; omega))
        rwa [update_self, heq] at hkept⟩ (hdinode _ hi.2.1))
    refine ⟨hinv, hfiles.trans (funext fun j => inodesOf_congr ?_ fun x => hbytes j x), ?_⟩
    · by_cases hji : j = i
      · rw [hji, update_self, ← hattrs]
      · rw [update_of_ne hji]
    · intro ip hip
      cases (inodesOf_alloc hi).symm.trans hip
      rw [Inode.readi, length_fileData, if_neg hin]
      exact congrArg some (take_drop_range ..)

theorem Written.size_eq {D : Nat → Dinode} {d d' : Disk} {off n : Nat} {src : Nat → UInt8}
    {din' : Dinode} (w : Written S D d i off n src d' din') (hoff : off ≤ (D i).size.toNat) :
    din'.size.toNat = max (D i).size.toNat (off + n) := by
  rw [w.size]
  split <;> omega

/-- A write overwrites the bytes of its file and leaves the other files alone. -/
theorem Written.inodesOf {D : Nat → Dinode} {d d' : Disk} {off n : Nat} {src : Nat → UInt8}
    {din' : Dinode} (w : Written S D d i off n src d' din') (hi : Allocated S D i)
    (hoff : off ≤ (D i).size.toNat) {ip : Inode} (hip : inodesOf S D d i = some ip) :
    inodesOf S (update D i din') d' =
      update (inodesOf S D d) i (some { ip with data := overwrite ip.data off n src }) := by
  refine files_update (fun j x hji => ?_) ?_
  · rw [w.bytes, if_neg fun hx => hji hx.1]
  · cases (inodesOf_alloc hi).symm.trans hip
    have hi' : Allocated S (update D i din') i :=
      (allocated_update (by rw [w.attrs]) i).mpr hi
    have hdata : fileData S (update D i din') d' i =
        overwrite (fileData S D d i) off n src := by
      rw [fileData, fileData, overwrite_range _ _ hoff, update_self, w.size_eq hoff]
      refine List.map_congr_left fun x _ => (w.bytes i x).trans (if_congr ?_ rfl rfl)
      exact ⟨fun hx => hx.2, fun hx => ⟨rfl, hx⟩⟩
    rw [inodesOf_alloc hi', hdata, update_self]
    conv_lhs => rw [w.attrs]

theorem FileInv.writei (h : FileInv S s) (hmem : s.mem i = some din) {src : Nat → UInt8}
    {off n : UInt32} {r : Option UInt32} {d' : Disk} {din' : Dinode}
    (hwrite : writei S s.disk i din src off n = .ok (r, d', din')) :
    FileInv S ⟨d', update s.mem i (some din')⟩ ∧
      ∀ ip, s.files S i = some ip → (ip.writei src off n).map (fun _ => n) = r ∧
        InodeState.files S ⟨d', update s.mem i (some din')⟩ =
          update (s.files S) i (some ((ip.writei src off n).getD ip)) := by
  have hi := h.allocated hmem
  have hm := h.mem i din hmem
  have htab : s.table S i = din := table_mem hmem
  have hsize := h.sizes i hi
  rw [← htab] at hwrite
  have hspec := writei_spec h.alloc hi hwrite
  split at hspec
  · rename_i hout
    obtain ⟨rfl, rfl, rfl⟩ := hspec
    have hsame : (⟨s.disk, update s.mem i (some (s.table S i))⟩ : InodeState) = s := by
      rw [htab, ← hmem, update_eq_self]
    rw [hsame]
    refine ⟨h, fun ip hip => ?_⟩
    have hnone : ip.writei src off n = none := by
      cases (inodesOf_alloc hi).symm.trans hip
      rw [Inode.writei, length_fileData]
      exact if_pos hout
    rw [hnone, Option.getD_none, ← hip, update_eq_self]
    exact ⟨rfl, rfl⟩
  · rename_i hin
    obtain ⟨rfl, w⟩ := hspec
    have hoff : off.toNat ≤ (s.table S i).size.toNat := by omega
    have hsize' := w.size_eq hoff
    have hmem' : InMemory S d' i din' := by
      rcases w.stored with heq | ⟨hkept, hsame, haddrs⟩
      · refine ⟨⟨hi.1, hi.2.1, ?_⟩, by rw [heq], fun _ => heq.symm⟩
        rw [heq, w.attrs]
        exact hi.2.2
      · refine InMemory.congr (d := s.disk) ⟨hm.alloc, ?_, fun hall => ?_⟩ hkept
        · rw [w.attrs, hsame, htab, hm.attrs]
        · have heq := htab.trans (hm.addrs hall)
          rw [haddrs (by rw [heq]; exact hall), heq]
    obtain ⟨hinv, hfiles⟩ := h.set w.others w.ok (by omega) hmem'
    refine ⟨hinv, fun ip hip => ?_⟩
    have hnew : ip.writei src off n =
        some { ip with data := overwrite ip.data off.toNat n.toNat src } := by
      cases (inodesOf_alloc hi).symm.trans hip
      rw [Inode.writei, length_fileData]
      exact if_neg hin
    rw [hnew, hfiles]
    exact ⟨rfl, w.inodesOf hi hoff hip⟩

/-- `iupdate` after attributes have been set. -/
theorem FileInv.iupdate (h : FileInv S s) (hmem : s.mem i = some din) (major minor nlink : Int16) :
    let din' := { din with major := major, minor := minor, nlink := nlink }
    FileInv S ⟨iupdate S s.disk i din', update s.mem i (some din')⟩ ∧
      ∀ ip, s.files S i = some ip →
        InodeState.files S ⟨iupdate S s.disk i din', update s.mem i (some din')⟩ =
          update (s.files S) i
            (some { ip with major := major, minor := minor, nlink := nlink }) := by
  intro din'
  have hi := h.allocated hmem
  have htab : s.table S i = din := table_mem hmem
  obtain ⟨-, hok, hbytes⟩ := iupdate_keeps h.alloc hi.2.1
    (slot_update_attrs (D := s.table S) (by rw [htab] : din'.type = _) (by rw [htab]))
  have hdisk : dinode S (Fs.iupdate S s.disk i din') i = din' := by
    rw [dinode_iupdate, update_self]
  obtain ⟨hinv, hfiles⟩ : FileInv S ⟨Fs.iupdate S s.disk i din', update s.mem i (some din')⟩ ∧
      _ := h.set
    (fun j _ hji => by rw [dinode_iupdate, update_of_ne hji]) hok
    (by
      have := h.sizes i hi
      rwa [htab] at this)
    ⟨⟨hi.1, hi.2.1, by
      rw [hdisk]
      have := hi.2.2
      rwa [htab] at this⟩, by rw [hdisk], fun _ => hdisk.symm⟩
  refine ⟨hinv, fun ip hip => hfiles.trans (files_update (fun j x _ => hbytes j x) ?_)⟩
  cases (inodesOf_alloc hi).symm.trans hip
  have hi' : Allocated S (update (s.table S) i din') i :=
    (allocated_update (by rw [htab]) i).mpr hi
  have hdata : fileData S (update (s.table S) i din') (Fs.iupdate S s.disk i din') i =
      fileData S (s.table S) s.disk i := by
    rw [fileData, fileData, update_self, htab]
    exact List.map_congr_left fun x _ => hbytes i x
  rw [inodesOf_alloc hi', hdata, update_self, htab]

/-- `ialloc` takes the first free inode; nothing in memory is affected. -/
theorem FileInv.ialloc (h : FileInv S s) {type : Int16} (htype : type ≠ 0) {d' : Disk}
    (halloc : ialloc S s.disk type = .ok (i, d')) :
    FileInv S { s with disk := d' } ∧ (s.files S).firstFree S.ninodes = some i ∧
      InodeState.files S { s with disk := d' } =
        update (s.files S) i (some ⟨type, 0, 0, 0, []⟩) := by
  -- an inode is free in the table just when its type on the disk is 0
  have hfree : ∀ j ∈ List.range' 1 (S.ninodes - 1),
      (s.files S j).isNone = decide ((dinode S s.disk j).type = 0) := by
    intro j hj
    have hrange : 1 ≤ j ∧ j < S.ninodes := by
      have := List.mem_range'_1.mp hj
      omega
    have htype : (s.table S j).type = (dinode S s.disk j).type := by
      cases hmem : s.mem j with
      | none => rw [InodeState.table, hmem, Option.getD_none]
      | some dj => rw [table_mem hmem, (h.mem j dj hmem).attrs]
    rw [InodeState.files, inodesOf]
    split
    · rename_i hA
      exact (decide_eq_false (htype ▸ hA.2.2)).symm
    · rename_i hA
      refine (decide_eq_true ?_).symm
      by_contra hne
      exact hA ⟨hrange.1, hrange.2, htype ▸ hne⟩
  unfold Fs.ialloc at halloc
  split at halloc
  · rename_i j hfind
    cases halloc
    have hfirst : (s.files S).firstFree S.ninodes = some i := by
      rw [InodeTable.firstFree, List.find?_congr hfree]
      exact hfind
    have hrange : 1 ≤ i ∧ i < S.ninodes := by
      have := List.mem_range'_1.mp (List.mem_of_find?_eq_some hfind)
      omega
    have hzero : (dinode S s.disk i).type = 0 := by simpa using List.find?_some hfind
    have hnone : s.mem i = none := by
      cases hmem : s.mem i with
      | none => rfl
      | some dj => exact absurd hzero (h.mem i dj hmem).alloc.2.2
    have htab : s.table S i = dinode S s.disk i := by rw [InodeState.table, hnone, Option.getD_none]
    -- the new inode has no blocks, as the free one had none
    obtain ⟨-, hok, hbytes⟩ := iupdate_keeps h.alloc hrange.2
      fun d => slot_update_bare (d := d) (.inl (htab ▸ hzero : (s.table S i).type = 0))
        (.inr fun _ => rfl : Dinode.Bare ⟨type, 0, 0, 0, 0, fun _ => 0⟩)
    have hdinode : ∀ j, j ≠ i → dinode S
        (Fs.iupdate S s.disk i ⟨type, 0, 0, 0, 0, fun _ => 0⟩) j = dinode S s.disk j := by
      intro j hji
      rw [dinode_iupdate, update_of_ne hji]
    have hput := h.put (o := none) (fun j _ hji => hdinode j hji)
      (by rw [Option.getD_none, dinode_iupdate, update_self]) hok (fun _ => Nat.zero_le _) nofun
    rw [← hnone, update_eq_self] at hput
    obtain ⟨hinv, hfiles⟩ := hput
    refine ⟨hinv, hfirst, hfiles.trans (files_update (fun j x _ => hbytes j x) ?_)⟩
    have hi : Allocated S (update (s.table S) i ⟨type, 0, 0, 0, 0, fun _ => 0⟩) i :=
      ⟨hrange.1, hrange.2, by rw [update_self]; exact htype⟩
    rw [inodesOf_alloc hi, fileData, update_self]
    rfl
  · cases halloc

/-- `iput` of a dead inode frees it and its blocks. -/
theorem FileInv.iput (h : FileInv S s) (hmem : s.mem i = some din) :
    ∃ d, itrunc S s.disk i din = .ok (d, din.truncated) ∧
      let s' : InodeState :=
        ⟨Fs.iupdate S d i { din.truncated with type := 0 }, update s.mem i none⟩
      FileInv S s' ∧ s'.files S = update (s.files S) i none := by
  have hi := h.allocated hmem
  have htab : s.table S i = din := table_mem hmem
  obtain ⟨d, htrunc, hok, hdata, hdin⟩ := itrunc_spec h.alloc hi
  rw [htab] at htrunc hok hdin
  refine ⟨d, htrunc, ?_⟩
  intro s'
  obtain ⟨hslot, hok', hbytes⟩ := iupdate_keeps (i := i) hok hi.2.1
    fun d => slot_update_bare (d := d) (by rw [update_self]; exact .inr fun _ => rfl)
      (.inl rfl : Dinode.Bare { din.truncated with type := 0 })
  rw [update_idem] at hslot hok' hbytes
  have hothers : ∀ j, j < S.ninodes → j ≠ i → dinode S s'.disk j = dinode S s.disk j := by
    intro j hj hji
    rw [dinode_iupdate, update_of_ne hji, hdin j hj, update_of_ne hji]
  obtain ⟨hinv, hfiles⟩ := h.put (o := none) hothers
    (by rw [Option.getD_none, dinode_iupdate, update_self]) hok' (fun _ => Nat.zero_le _) nofun
  refine ⟨hinv, hfiles.trans (files_update (fun j x hji => ?_) (if_neg fun hA => hA.2.2 ?_))⟩
  · -- the blocks of the other files are where they were, with what they held
    have hkeep₁ : KeepsIndirect S (s.table S) s.disk d := fun j hj => hdata _ (h.alloc.data _ hj).1
    have hplace : ∀ bn, slot S (update (s.table S) i din.truncated) d (.data j bn) =
        slot S (s.table S) s.disk (.data j bn) := by
      intro bn
      rw [slot_update_of_ne (P := .data j bn) hji, hkeep₁.slot]
    refine (hbytes j x).trans (byteAt_congr hplace (fun bn hbn => ?_) x)
    exact hdata _ (h.alloc.data _ hbn).1
  · rw [update_self]

/-- **One event on the disk is the same event on the byte sequences.** -/
theorem FileInv.step {e : InodeEvent} (h : FileInv S s) (hev : Evictable S s e)
    (hstep : inodeNext S s e = some s') :
    FileInv S s' ∧ tableNext S.ninodes (s.files S) e = some (s'.files S) := by
  have hfile : ∀ {i din}, s.mem i = some din → ∃ ip, s.files S i = some ip ∧ ip.type = din.type ∧
      ip.nlink = din.nlink := by
    intro i din hmem
    refine ⟨_, inodesOf_alloc (h.allocated hmem), ?_, ?_⟩
    · rw [table_mem hmem]
    · rw [table_mem hmem]
  cases e with
  | ialloc type i =>
    obtain ⟨d, htype, halloc, rfl⟩ := inodeNext_ialloc hstep
    obtain ⟨hinv, hfirst, hfiles⟩ := h.ialloc htype halloc
    refine ⟨hinv, ?_⟩
    rw [tableNext, if_pos ⟨htype, hfirst⟩, hfiles]
  | ilock i =>
    obtain ⟨din, hmem, rfl⟩ | ⟨hmem, hi, rfl⟩ := inodeNext_ilock hstep
    · obtain ⟨ip, hip, -⟩ := hfile hmem
      refine ⟨h, ?_⟩
      rw [tableNext, hip]
      exact if_pos rfl
    · have htab : s.table S i = dinode S s.disk i := by
        rw [InodeState.table, hmem, Option.getD_none]
      have hi' : Allocated S (s.table S) i := ⟨hi.1, hi.2.1, htab ▸ hi.2.2⟩
      obtain ⟨hinv, hfiles⟩ := h.load (o := some (dinode S s.disk i)) htab.symm (by
        rintro _ ⟨⟩
        exact ⟨hi, rfl, fun _ => rfl⟩)
      refine ⟨hinv, ?_⟩
      rw [tableNext, hfiles, if_pos]
      rw [InodeState.files, inodesOf_alloc hi', Option.isSome_some]
  | evict i =>
    rw [inodeNext] at hstep
    cases hstep
    have htab : dinode S s.disk i = s.table S i := by
      cases hmem : s.mem i with
      | none => rw [InodeState.table, hmem, Option.getD_none]
      | some din => rw [table_mem hmem, (h.mem i din hmem).addrs (hev (by rw [hmem]; rfl))]
    obtain ⟨hinv, hfiles⟩ := h.load (o := none) htab (by rintro _ ⟨⟩)
    exact ⟨hinv, congrArg some hfiles.symm⟩
  | readi i off n r =>
    obtain ⟨din, d, din', hmem, hread, rfl⟩ := inodeNext_readi hstep
    obtain ⟨hinv, hfiles, hresult⟩ := h.readi hmem hread
    obtain ⟨ip, hip, htype, -⟩ := hfile hmem
    have hdev : ip.type ≠ tDev := by
      intro hdev
      rw [Fs.readi, if_pos (htype ▸ hdev)] at hread
      cases hread
    refine ⟨hinv, ?_⟩
    rw [hfiles, tableNext, hip]
    exact if_pos ⟨hdev, hresult ip hip⟩
  | writei i src off n r =>
    obtain ⟨din, d, din', hmem, hwrite, rfl⟩ := inodeNext_writei hstep
    obtain ⟨hinv, hall⟩ := h.writei hmem hwrite
    obtain ⟨ip, hip, htype, -⟩ := hfile hmem
    obtain ⟨hresult, hfiles⟩ := hall ip hip
    have hdev : ip.type ≠ tDev := by
      intro hdev
      rw [Fs.writei, if_pos (htype ▸ hdev)] at hwrite
      cases hwrite
    refine ⟨hinv, ?_⟩
    rw [hfiles, tableNext, hip]
    exact if_pos ⟨hdev, hresult⟩
  | iupdate i major minor nlink =>
    obtain ⟨din, hmem, rfl⟩ := inodeNext_iupdate hstep
    obtain ⟨hinv, hfiles⟩ := h.iupdate hmem major minor nlink
    obtain ⟨ip, hip, -⟩ := hfile hmem
    refine ⟨hinv, ?_⟩
    rw [hfiles ip hip, tableNext, hip]
    rfl
  | iput i =>
    obtain ⟨din, d, din', hmem, hdead, htrunc, rfl⟩ := inodeNext_iput hstep
    obtain ⟨d', htrunc', hinv, hfiles⟩ := h.iput hmem
    cases htrunc.symm.trans htrunc'
    obtain ⟨ip, hip, -, hnlink⟩ := hfile hmem
    refine ⟨hinv, ?_⟩
    rw [hfiles, tableNext, hip]
    exact if_pos (hnlink.trans hdead)

end Events

end Xv6.Fs
