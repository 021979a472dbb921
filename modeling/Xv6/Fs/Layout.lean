import Xv6.Log.Log

/-!
# The disk format of `fs.h`

Boot block, super block, log, inode blocks, bitmap, data blocks. The disk is
the flat array of blocks that the buffer cache provides; an operation sees its
own changes, and the log makes them last.
-/

namespace Xv6.Fs

open Function

/-! ## §1  The areas of the disk -/

def bsize : Nat := 512
def ndirect : Nat := 12
def nindirect : Nat := bsize / 4
def maxfile : Nat := ndirect + nindirect

/-- Inodes in a block (`IPB`). -/
def ipb : Nat := bsize / 64

/-- Bits in a block (`BPB`). -/
def bpb : Nat := bsize * 8

/-- `struct superblock`. The areas lie behind one another, and the bitmap has a
bit for every block. -/
structure Superblock where
  size : Nat
  ninodes : Nat
  nlog : Nat
  logstart : Nat
  inodestart : Nat
  bmapstart : Nat
  log_behind : 2 ≤ logstart
  inodes_behind : logstart + nlog ≤ inodestart
  bmap_behind : inodestart + (ninodes / ipb + 1) ≤ bmapstart
  data_behind : bmapstart + (size / bpb + 1) ≤ size
  size_word : size < 2 ^ 31

namespace Superblock

variable (S : Superblock)

/-- `IBLOCK`. -/
def iblock (i : Nat) : Nat := i / ipb + S.inodestart

/-- `BBLOCK`. -/
def bblock (b : Nat) : Nat := b / bpb + S.bmapstart

/-- The first data block. -/
def datastart : Nat := S.bmapstart + (S.size / bpb + 1)

theorem iblock_lt {i : Nat} (hi : i < S.ninodes) : S.iblock i < S.bmapstart := by
  have h := S.bmap_behind
  have hle : i / ipb ≤ S.ninodes / ipb := Nat.div_le_div_right hi.le
  simp only [iblock]
  omega

theorem bmapstart_le_bblock (b : Nat) : S.bmapstart ≤ S.bblock b := Nat.le_add_left ..

theorem bblock_lt {b : Nat} (hb : b < S.size) : S.bblock b < S.datastart := by
  have hle : b / bpb ≤ S.size / bpb := Nat.div_le_div_right hb.le
  simp only [bblock, datastart]
  omega

theorem bmapstart_lt_datastart : S.bmapstart < S.datastart :=
  Nat.lt_add_of_pos_right (Nat.succ_pos _)

theorem datastart_pos : 0 < S.datastart := Nat.zero_lt_of_lt S.bmapstart_lt_datastart

end Superblock

/-! ## §2  Inodes on disk -/

/-- `struct dinode`. -/
@[ext]
structure Dinode where
  type : Int16
  major : Int16
  minor : Int16
  nlink : Int16
  size : UInt32
  addrs : Fin (ndirect + 1) → UInt32

def tDir : Int16 := 1
def tFile : Int16 := 2
def tDev : Int16 := 3

def getShort (b : Block) (o : Nat) : Int16 := (UInt16.ofNat (Bytes.getLe b o 2)).toInt16

def setShort (b : Block) (o : Nat) (v : Int16) : Block := Bytes.setLe b o 2 v.toUInt16.toNat

namespace Dinode

/-- The inode stored at offset `o` of a block. -/
def get (b : Block) (o : Nat) : Dinode where
  type := getShort b o
  major := getShort b (o + 2)
  minor := getShort b (o + 4)
  nlink := getShort b (o + 6)
  size := UInt32.ofNat (Bytes.getLe b (o + 8) 4)
  addrs := fun k => UInt32.ofNat (Bytes.getLe b (o + 12 + 4 * k) 4)

/-- The block with an inode stored at offset `o`. -/
def put (b : Block) (o : Nat) (din : Dinode) : Block :=
  let b := setShort b o din.type
  let b := setShort b (o + 2) din.major
  let b := setShort b (o + 4) din.minor
  let b := setShort b (o + 6) din.nlink
  let b := Bytes.setLe b (o + 8) 4 din.size.toNat
  Bytes.setWords b (o + 12) (fun k => if h : k < ndirect + 1 then (din.addrs ⟨k, h⟩).toNat else 0)
    (ndirect + 1)

theorem put_of_outside {o k : Nat} (h : k < o ∨ o + 64 ≤ k) (b : Block) (din : Dinode) :
    put b o din k = b k := by
  simp only [put, setShort]
  rw [Bytes.setWords_of_outside (by simp only [ndirect]; omega)]
  iterate 5 rw [Bytes.setLe_of_outside (by omega)]

theorem get_congr {b c : Block} {o : Nat} (h : ∀ k, o ≤ k → k < o + 64 → b k = c k) :
    get b o = get c o := by
  have hle : ∀ p n, o ≤ p → p + n ≤ o + 64 → Bytes.getLe b p n = Bytes.getLe c p n :=
    fun p n hp hn => Bytes.getLe_congr fun k hk hlt => h k (by omega) (by omega)
  have haddrs : (get b o).addrs = (get c o).addrs := by
    funext k
    have hk : (k : Nat) < 13 := k.isLt
    simp only [get, hle (o + 12 + 4 * k) 4 (by omega) (by omega)]
  simp only [get, getShort, Dinode.mk.injEq, hle o 2 (by omega) (by omega),
    hle (o + 2) 2 (by omega) (by omega), hle (o + 4) 2 (by omega) (by omega),
    hle (o + 6) 2 (by omega) (by omega), hle (o + 8) 4 (by omega) (by omega), true_and]
  exact haddrs

theorem getShort_setShort (b : Block) (o : Nat) (v : Int16) : getShort (setShort b o v) o = v := by
  have hlt : v.toUInt16.toNat < 256 ^ 2 := v.toUInt16.toNat_lt
  rw [getShort, setShort, Bytes.getLe_setLe hlt, UInt16.ofNat_toNat]
  rfl

/-- What is stored is read. -/
theorem get_put (b : Block) (o : Nat) (din : Dinode) : get (put b o din) o = din := by
  -- the words do not touch the fields before them
  have hword : ∀ p n (b : Block) (w : Nat → Nat), p + n ≤ o + 12 →
      Bytes.getLe (Bytes.setWords b (o + 12) w (ndirect + 1)) p n = Bytes.getLe b p n :=
    fun p n b w hp => Bytes.getLe_congr fun k _ hk => Bytes.setWords_of_outside (by omega) b w
  ext k
  · simp only [get, getShort, put, setShort]
    rw [hword _ _ _ _ (by omega)]
    iterate 4 rw [Bytes.getLe_setLe_of_disjoint (by omega)]
    exact getShort_setShort b o din.type
  · simp only [get, getShort, put, setShort]
    rw [hword _ _ _ _ (by omega)]
    iterate 3 rw [Bytes.getLe_setLe_of_disjoint (by omega)]
    exact getShort_setShort _ (o + 2) din.major
  · simp only [get, getShort, put, setShort]
    rw [hword _ _ _ _ (by omega)]
    iterate 2 rw [Bytes.getLe_setLe_of_disjoint (by omega)]
    exact getShort_setShort _ (o + 4) din.minor
  · simp only [get, getShort, put, setShort]
    rw [hword _ _ _ _ (by omega), Bytes.getLe_setLe_of_disjoint (by omega)]
    exact getShort_setShort _ (o + 6) din.nlink
  · simp only [get, put]
    rw [hword _ _ _ _ (by omega), Bytes.getLe_setLe din.size.toNat_lt, UInt32.ofNat_toNat]
  · simp only [get, put]
    have hlt : (if h : (k : Nat) < ndirect + 1 then (din.addrs ⟨k, h⟩).toNat else 0) < 256 ^ 4 := by
      rw [dif_pos k.isLt]
      exact (din.addrs k).toNat_lt
    rw [Bytes.getLe_setWords k.isLt hlt, dif_pos k.isLt, UInt32.ofNat_toNat]

/-- Address `k` becomes `b`. -/
def setAddr (din : Dinode) (k : Fin (ndirect + 1)) (b : Nat) : Dinode :=
  { din with addrs := update din.addrs k (UInt32.ofNat b) }

theorem setAddr_self (din : Dinode) (k : Fin (ndirect + 1)) (b : Nat) :
    (din.setAddr k b).addrs k = UInt32.ofNat b := update_self ..

theorem setAddr_of_ne {k j : Fin (ndirect + 1)} (h : j ≠ k) (din : Dinode) (b : Nat) :
    (din.setAddr k b).addrs j = din.addrs j := update_of_ne h ..

end Dinode

/-- Inode `i` on the disk. -/
def dinode (S : Superblock) (d : Disk) (i : Nat) : Dinode :=
  Dinode.get (d (S.iblock i)) (64 * (i % ipb))

/-- `iupdate`, with `din` in memory. -/
def iupdate (S : Superblock) (d : Disk) (i : Nat) (din : Dinode) : Disk :=
  update d (S.iblock i) (Dinode.put (d (S.iblock i)) (64 * (i % ipb)) din)

section Frames

variable {S : Superblock} {d : Disk}

theorem dinode_iupdate (i : Nat) (din : Dinode) :
    dinode S (iupdate S d i din) = update (dinode S d) i din := by
  funext j
  by_cases hji : j = i
  · rw [hji, update_self, dinode, iupdate, update_self, Dinode.get_put]
  · rw [update_of_ne hji]
    by_cases hblock : S.iblock j = S.iblock i
    · -- another inode of the same block
      have hoff : j % ipb ≠ i % ipb := by
        intro heq
        simp only [Superblock.iblock] at hblock
        refine hji ?_
        rw [← Nat.div_add_mod j ipb, ← Nat.div_add_mod i ipb, heq, Nat.add_right_cancel hblock]
      rw [dinode, iupdate, hblock, update_self, dinode, hblock]
      exact Dinode.get_congr fun k hk hlt => Dinode.put_of_outside (by omega) _ _
    · rw [dinode, iupdate, update_of_ne hblock]
      rfl

theorem iupdate_of_ne {i b : Nat} (h : b ≠ S.iblock i) (din : Dinode) :
    iupdate S d i din b = d b := update_of_ne h ..

theorem iupdate_data {i b : Nat} (hi : i < S.ninodes) (hb : S.bmapstart ≤ b) (din : Dinode) :
    iupdate S d i din b = d b := by
  have := S.iblock_lt hi
  exact iupdate_of_ne (by omega) din

/-- An inode does not depend on the blocks behind the inode blocks. -/
theorem dinode_congr {d' : Disk} {i : Nat} (hi : i < S.ninodes)
    (h : ∀ b, b < S.bmapstart → d' b = d b) : dinode S d' i = dinode S d i := by
  rw [dinode, dinode, h _ (S.iblock_lt hi)]

/-! ## §3  The bitmap -/

def bit (S : Superblock) (d : Disk) (b : Nat) : Bool := Bytes.getBit (d (S.bblock b)) (b % bpb)

def setBit (S : Superblock) (d : Disk) (b : Nat) : Disk :=
  update d (S.bblock b) (Bytes.setBit (d (S.bblock b)) (b % bpb))

def clearBit (S : Superblock) (d : Disk) (b : Nat) : Disk :=
  update d (S.bblock b) (Bytes.clearBit (d (S.bblock b)) (b % bpb))

theorem bit_position {b c : Nat} (hblock : S.bblock c = S.bblock b) : c % bpb = b % bpb ↔ c = b := by
  simp only [Superblock.bblock] at hblock
  refine ⟨fun h => ?_, fun h => by rw [h]⟩
  rw [← Nat.div_add_mod c bpb, ← Nat.div_add_mod b bpb, h, Nat.add_right_cancel hblock]

theorem bit_setBit (b c : Nat) : bit S (setBit S d b) c = (decide (c = b) || bit S d c) := by
  by_cases hblock : S.bblock c = S.bblock b
  · rw [bit, setBit, hblock, update_self, Bytes.getBit_setBit, bit, hblock]
    congr 1
    exact decide_eq_decide.mpr (bit_position hblock)
  · have hne : c ≠ b := fun h => hblock (by rw [h])
    rw [bit, setBit, update_of_ne hblock, bit]
    simp [hne]

theorem bit_clearBit (b c : Nat) : bit S (clearBit S d b) c = (!decide (c = b) && bit S d c) := by
  by_cases hblock : S.bblock c = S.bblock b
  · rw [bit, clearBit, hblock, update_self, Bytes.getBit_clearBit, bit, hblock]
    congr 2
    exact decide_eq_decide.mpr (bit_position hblock)
  · have hne : c ≠ b := fun h => hblock (by rw [h])
    rw [bit, clearBit, update_of_ne hblock, bit]
    simp [hne]

/-- A bit does not depend on the blocks around the bitmap. -/
theorem bit_congr {d' : Disk} {b : Nat} (hb : b < S.size)
    (h : ∀ c, S.bmapstart ≤ c → c < S.datastart → d' c = d c) : bit S d' b = bit S d b := by
  rw [bit, bit, h _ (S.bmapstart_le_bblock b) (S.bblock_lt hb)]

end Frames

end Xv6.Fs
