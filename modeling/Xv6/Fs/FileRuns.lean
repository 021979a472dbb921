import Xv6.Fs.Files

/-!
# Runs of the file system on the disk

From a consistent image, whatever the order of the calls:

- the files are byte sequences (`files_are_byte_sequences`), as long as an inode
  with a hole does not leave memory;
- without holes no hole comes up (`NoHoles.step`), the inodes in memory are those
  on the disk, and every data block in use is stored in one place
  (`blocks_stored_once`).
-/

namespace Xv6.Fs

open Transition Function

/-! ## §1  Byte sequences -/

section Runs

variable {S : Superblock} {image : Disk} {s s' : InodeState} {es : List InodeEvent}

/-- The state in which no inode is in memory yet. -/
def InodeState.boot (image : Disk) : InodeState := ⟨image, fun _ => none⟩

/-- In every run the files are byte sequences, as `tableNext` says. -/
theorem FileInv.run (himage : Consistent S image)
    (hrun : ((inodeSystem S).guarded (Evictable S)).Run (.boot image) es s) :
    FileInv S s ∧ (tableSystem S.ninodes).Run ((InodeState.boot image).files S) es (s.files S) := by
  refine System.Run.refines (fun s e s' h hstep => ?_) hrun himage.inv
  exact FileInv.step h hstep.1 hstep.2

/-- Thirty-two blocks: boot and super block, two of log, two of inodes, the bitmap,
and twenty-five data blocks. -/
def smallDisk : Superblock where
  size := 32
  ninodes := 8
  nlog := 2
  logstart := 2
  inodestart := 4
  bmapstart := 6
  log_behind := by decide
  inodes_behind := by decide
  bmap_behind := by decide
  data_behind := by decide
  size_word := by decide

/-- No file yet: all is zero but the bits of the blocks before the data. -/
def emptyImage : Disk := fun b k => if b = 6 ∧ k = 0 then 127 else 0

theorem emptyImage_free (i : Nat) : ¬ Allocated smallDisk (dinode smallDisk emptyImage) i := by
  intro hi
  have hall : ∀ i < 8, (dinode smallDisk emptyImage i).type = 0 := by decide +kernel
  exact hi.2.2 (hall i hi.2.1)

theorem emptyImage_consistent : Consistent smallDisk emptyImage := by
  have hslot : ∀ P, slot smallDisk (dinode smallDisk emptyImage) emptyImage P = 0 := fun P =>
    slot_of_not_allocated (emptyImage_free _)
  refine ⟨⟨fun P hP => absurd (hslot P) hP, fun P _ hP => absurd (hslot P) hP, fun b hlo hhi => ?_,
    by decide +kernel⟩, fun i hi => absurd hi (emptyImage_free i)⟩
  have hbits : ∀ b, b < smallDisk.size → smallDisk.datastart ≤ b →
      bit smallDisk emptyImage b = false := by decide +kernel
  rw [hbits b hhi hlo]
  refine ⟨nofun, fun ⟨P, hP⟩ => ?_⟩
  have := smallDisk.datastart_pos
  have := hslot P
  omega

/-- A file is made, written and read back, and its inode leaves memory. -/
def oneFile : List InodeEvent :=
  [.ialloc tFile 1, .ilock 1, .writei 1 (fun k => UInt8.ofNat (k + 7)) 0 3 (some 3),
   .readi 1 1 5 (some [8, 9]), .evict 1]

/-- Only inode `i` has changed on the disk, and it lacks no address. -/
theorem NoHoles.set {d d' : Disk} {i : Nat} (h : NoHoles S d)
    (hothers : ∀ j, j < S.ninodes → j ≠ i → dinode S d' j = dinode S d j)
    (hi : Allocated S (dinode S d') i → (dinode S d' i).HasAddrs (dinode S d' i).size.toNat) :
    NoHoles S d' := by
  intro j hj
  by_cases hji : j = i
  · rw [hji] at hj ⊢
    exact hi hj
  · rw [Allocated, hothers j hj.2.1 hji] at hj
    rw [hothers j hj.2.1 hji]
    exact h j hj

/-- Without holes the inodes in memory are those on the disk. -/
theorem FileInv.mem_eq (h : FileInv S s) (hn : NoHoles S s.disk) {i : Nat} {din : Dinode}
    (hmem : s.mem i = some din) : din = dinode S s.disk i :=
  (h.mem i din hmem).addrs (hn i (h.mem i din hmem).alloc)

theorem FileInv.table_eq (h : FileInv S s) (hn : NoHoles S s.disk) :
    s.table S = dinode S s.disk := by
  funext i
  cases hmem : s.mem i with
  | none => rw [InodeState.table, hmem, Option.getD_none]
  | some din => rw [table_mem hmem, h.mem_eq hn hmem]

theorem FileInv.evictable (h : FileInv S s) (hn : NoHoles S s.disk) (e : InodeEvent) :
    Evictable S s e := by
  cases e with
  | evict i =>
    intro hmem
    obtain ⟨din, hmem⟩ := Option.isSome_iff_exists.mp hmem
    exact hn i (h.mem i din hmem).alloc
  | _ => trivial

/-- No event makes a hole. -/
theorem NoHoles.step {e : InodeEvent} (h : FileInv S s) (hn : NoHoles S s.disk)
    (hstep : inodeNext S s e = some s') : NoHoles S s'.disk := by
  cases e with
  | ialloc type i =>
    obtain ⟨d, -, halloc, rfl⟩ := inodeNext_ialloc hstep
    unfold ialloc at halloc
    split at halloc
    · cases halloc
      refine hn.set (i := i) (fun k _ hk => ?_) fun _ => ?_
      · rw [dinode_iupdate, update_of_ne hk]
      · rw [dinode_iupdate, update_self]
        exact fun k hk => absurd hk (Nat.not_lt_zero _)
    · cases halloc
  | ilock i =>
    obtain ⟨din, -, rfl⟩ | ⟨-, -, rfl⟩ := inodeNext_ilock hstep
    · exact hn
    · exact hn
  | evict i =>
    rw [inodeNext] at hstep
    cases hstep
    exact hn
  | readi i off n r =>
    obtain ⟨din, d, din', hmem, hread, rfl⟩ := inodeNext_readi hstep
    have hi := h.allocated hmem
    rw [← table_mem (S := S) hmem] at hread
    have hspec := readi_spec h.alloc hi (h.sizes i hi) hread
    split at hspec
    · rw [hspec.2.1]
      exact hn
    · have hsame : ∀ j, j < S.ninodes → dinode S d j = dinode S s.disk j := fun j hj =>
        dinode_congr hj hspec.2.inodes
      refine hn.set (i := i) (fun j hj _ => hsame j hj) fun hA => ?_
      rw [Allocated, hsame i hi.2.1] at hA
      rw [hsame i hi.2.1]
      exact hn i hA
  | writei i src off n r =>
    obtain ⟨din, d, din', hmem, hwrite, rfl⟩ := inodeNext_writei hstep
    have hi := h.allocated hmem
    rw [← table_mem (S := S) hmem] at hwrite
    have hspec := writei_spec h.alloc hi hwrite
    split at hspec
    · rw [hspec.2.1]
      exact hn
    · have w := hspec.2
      have hfull : (s.table S i).HasAddrs (s.table S i).size.toNat := by
        rw [h.table_eq hn]
        exact hn i (h.mem i din hmem).alloc
      refine hn.set w.others fun hA => ?_
      rcases w.stored with heq | ⟨heq, -, -⟩
      · rw [heq]
        exact w.full hfull
      · rw [heq, ← h.table_eq hn]
        exact hfull
  | iupdate i major minor nlink =>
    obtain ⟨din, hmem, rfl⟩ := inodeNext_iupdate hstep
    refine hn.set (i := i) (fun j _ hj => ?_) fun _ => ?_
    · rw [dinode_iupdate, update_of_ne hj]
    · rw [dinode_iupdate, update_self]
      have := hn i (h.mem i din hmem).alloc
      rwa [← h.mem_eq hn hmem] at this
  | iput i =>
    obtain ⟨din, d, din', hmem, -, htrunc, rfl⟩ := inodeNext_iput hstep
    obtain ⟨d', htrunc', -, -, hdin⟩ := itrunc_spec h.alloc (h.allocated hmem)
    rw [table_mem hmem] at htrunc' hdin
    cases htrunc.symm.trans htrunc'
    refine hn.set (i := i) (fun j hj hji => ?_) fun hA => ?_
    · rw [dinode_iupdate, update_of_ne hji, hdin j hj, update_of_ne hji]
    · rw [Allocated, dinode_iupdate, update_self] at hA
      exact absurd rfl hA.2.2

theorem NoHoles.run (himage : Consistent S image) (hholes : NoHoles S image)
    (hrun : (inodeSystem S).Run (.boot image) es s) : FileInv S s ∧ NoHoles S s.disk := by
  refine System.Run.invariant (I := fun s => FileInv S s ∧ NoHoles S s.disk)
    (fun s e s' h hstep => ?_) hrun ⟨himage.inv, hholes⟩
  exact ⟨(h.1.step (h.1.evictable h.2 e) hstep).1, NoHoles.step h.1 h.2 hstep⟩

/-- **Every data block in use is stored in one place.** From a consistent image
without holes, in every state that calls of `ialloc`, `writei`, `iupdate`, `readi`
and the `iput` of dead inodes lead to, in any order: the block numbers in the
allocated inodes and their indirect blocks are data blocks, each is stored once,
and they are the data blocks whose bit is set. So `itrunc` never frees a block
that is free. -/
theorem blocks_stored_once (himage : Consistent S image) (hholes : NoHoles S image)
    (hrun : (inodeSystem S).Run (.boot image) es s) :
    AllocOK S (slot S (dinode S s.disk) s.disk) (bit S s.disk) ∧
      ∀ i din, s.mem i = some din → din = dinode S s.disk i ∧
        ∃ d, itrunc S s.disk i din = .ok (d, din.truncated) := by
  obtain ⟨h, hn⟩ := NoHoles.run himage hholes hrun
  refine ⟨?_, fun i din hmem => ⟨h.mem_eq hn hmem, ?_⟩⟩
  · rw [← h.table_eq hn]
    exact h.alloc
  · obtain ⟨d, htrunc, -⟩ := h.iput hmem
    exact ⟨d, htrunc⟩

/-- Its inode is read again and freed. -/
def fileFreed : List InodeEvent := oneFile ++ [.ilock 1, .iput 1]

theorem blocks_stored_once_fileFreed : ∃ s,
    (inodeSystem smallDisk).Run (.boot emptyImage) fileFreed s ∧
      AllocOK smallDisk (slot smallDisk (dinode smallDisk s.disk) s.disk) (bit smallDisk s.disk) := by
  obtain ⟨s, hs⟩ := Option.isSome_iff_exists.mp (by decide +kernel :
    (fileFreed.foldlM (System.guardedNext (inodeNext smallDisk) fun _ _ => True)
      (.boot emptyImage)).isSome)
  have hrun := (System.run_ofNext hs).of_guarded
  exact ⟨s, hrun, (blocks_stored_once emptyImage_consistent
    (fun i hi => absurd hi (emptyImage_free i)) hrun).1⟩

/-- Bytes at the start of a block need two blocks at most. -/
theorem rangeNeeds_le_two {d : Disk} {k n : Nat} (hn : n ≤ bsize) (din : Dinode) :
    rangeNeeds d din (k * bsize) n ≤ 2 := by
  have hsub : missing d din (k * bsize) n ⊆ {k} := by
    intro bn hbn
    obtain ⟨-, -, hlo, hhi, -⟩ := mem_missing.mp hbn
    rw [Finset.mem_singleton]
    simp only [bsize] at hn hlo hhi
    omega
  have hcard := Finset.card_le_card hsub
  rw [Finset.card_singleton] at hcard
  rw [rangeNeeds]
  split <;> omega

/-- A read where an inode lacks an address allocates a block for it, in memory
only: when the inode leaves memory the bit is set, and no inode stores the block. -/
theorem hole_leaks (himage : Consistent S image) {i : Nat} (hi : Allocated S (dinode S image) i)
    (hdev : (dinode S image i).type ≠ tDev) {k : Fin (ndirect + 1)}
    (hsize : k * bsize < (dinode S image i).size.toNat) (hhole : (dinode S image i).addrs k = 0)
    (hfree : 2 ≤ freeCount S image) {n : UInt32} (hpos : 0 < n.toNat) (hn : n.toNat ≤ bsize) :
    ∃ r s, (inodeSystem S).Run (.boot image)
        [.ilock i, .readi i (UInt32.ofNat (k * bsize)) n r, .evict i] s ∧
      ∃ b, S.datastart ≤ b ∧ b < S.size ∧ bit S s.disk b = true ∧
        ∀ P, slot S (dinode S s.disk) s.disk P ≠ b := by
  have hoff : (UInt32.ofNat (k * bsize)).toNat = k * bsize :=
    UInt32.toNat_ofNat_of_lt' (Nat.lt_trans hsize (UInt32.toNat_lt _))
  have hmax := himage.sizes i hi
  obtain ⟨⟨r, d', din'⟩, hread⟩ : ∃ x, readi S image (dinode S image i)
      (UInt32.ofNat (k * bsize)) n = .ok x := by
    refine readi_total himage.alloc hi hdev hmax ?_
    rw [hoff]
    exact (rangeNeeds_le_two (Nat.le_trans (Nat.min_le_left ..) hn) _).trans hfree
  have hspec := readi_spec himage.alloc hi hmax hread
  have hend : k * bsize + n.toNat < 2 ^ 32 :=
    Nat.lt_of_le_of_lt (Nat.add_le_add (Nat.le_trans (Nat.le_of_lt hsize) hmax) hn) (by decide)
  rw [hoff, if_neg (by omega)] at hspec
  obtain ⟨-, hup⟩ := hspec
  have haddr := hup.addrs_passed (k := k) hi
    (Nat.mul_lt_mul_of_pos_right (Nat.lt_succ_self _) (by decide)) (by omega) (by omega)
  have hstored := slot_addrPlace (d := d') (hup.allocated hi) k
  have hne : slot S (update (dinode S image) i din') d' (addrPlace i k) ≠ 0 := by
    rw [hstored]
    exact fun heq => haddr (UInt32.toNat_inj.mp heq)
  let mem : Nat → Option Dinode := update (fun _ => none) i (some (dinode S image i))
  have hlock : (inodeSystem S).step (.boot image) (.ilock i) ⟨image, mem⟩ := if_pos hi
  have hstep : (inodeSystem S).step ⟨image, mem⟩ (.readi i (UInt32.ofNat (k * bsize)) n r)
      ⟨d', update mem i (some din')⟩ := by
    change inodeNext S _ _ = _
    simp only [inodeNext, mem, update_self, hread, if_true]
  refine ⟨r, _, .snoc (.snoc (.snoc .nil hlock) hstep) rfl, _, (hup.ok.data _ hne).1,
    (hup.ok.data _ hne).2, hup.ok.bit_of_stored hne, fun P hP => ?_⟩
  change slot S (dinode S d') d' P = _ at hP
  rw [slot_agree fun j hj => dinode_congr hj hup.inodes] at hP
  have hsame := hup.slot_old (hP ▸ hne)
  have hplace := hup.ok.once _ _ (hsame ▸ hP ▸ hne) (hsame.trans hP)
  rw [hplace, slot_addrPlace hi, hhole] at hP
  exact hne hP.symm

end Runs

end Xv6.Fs
