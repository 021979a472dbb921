import Xv6.Fs.Layout
import Xv6.Library.Outcome

/-!
# Blocks of files: `balloc`, `bfree`, `bmap`, `itrunc`

Each function takes the disk and the inode in memory and gives both back. An
inode in memory may be ahead of the disk, so the blocks a file has are read
off a table `D` of inodes beside the disk: the inodes on the disk, but for the
one in memory.
-/

namespace Xv6.Fs

open Function

/-- The panics of this layer. `device` is no panic: control goes to the driver
of the device. -/
inductive BlockPanic where
  | outOfBlocks          -- "balloc: out of blocks"
  | freeingFreeBlock     -- "freeing free block"
  | outOfRange           -- "bmap: out of range"
  | noInodes             -- "ialloc: no inodes"
  | dirlookupNotDir      -- "dirlookup not DIR"
  | dirlookupRead        -- "dirlookup read"
  | device (major : Int16)
deriving DecidableEq

/-! ## §1  The functions -/

/-- The two loops of `balloc` visit the blocks in order. -/
def freeBlock (S : Superblock) (d : Disk) : Option Nat :=
  (List.range S.size).find? fun b => bit S d b = false

/-- `balloc`, with the block set to zero. -/
def balloc (S : Superblock) (d : Disk) : Except BlockPanic (Nat × Disk) :=
  match freeBlock S d with
  | some b => .ok (b, update (setBit S d b) b fun _ => 0)
  | none => .error .outOfBlocks

def bfree (S : Superblock) (d : Disk) (b : Nat) : Except BlockPanic Disk :=
  if bit S d b then .ok (clearBit S d b) else .error .freeingFreeBlock

def indirectIdx : Fin (ndirect + 1) := ⟨ndirect, by decide⟩

/-- Entry `j` of an indirect block. -/
def entry (b : Block) (j : Nat) : Nat := Bytes.getLe b (4 * j) 4

def setEntry (b : Block) (j v : Nat) : Block := Bytes.setLe b (4 * j) 4 v

/-- The indirect block of an inode, allocated if it has none. -/
def bmapIndirect (S : Superblock) (d : Disk) (din : Dinode) :
    Except BlockPanic (Nat × Disk × Dinode) :=
  if din.addrs indirectIdx = 0 then do
    let (b, d) ← balloc S d
    return (b, d, din.setAddr indirectIdx b)
  else return ((din.addrs indirectIdx).toNat, d, din)

def bmap (S : Superblock) (d : Disk) (din : Dinode) (bn : Nat) :
    Except BlockPanic (Nat × Disk × Dinode) :=
  if h : bn < ndirect then
    let k : Fin (ndirect + 1) := ⟨bn, Nat.lt_succ_of_lt h⟩
    if din.addrs k = 0 then do
      let (b, d) ← balloc S d
      return (b, d, din.setAddr k b)
    else return ((din.addrs k).toNat, d, din)
  else if bn - ndirect < nindirect then do
    let (ind, d, din) ← bmapIndirect S d din
    let a := entry (d ind) (bn - ndirect)
    if a = 0 then do
      let (b, d) ← balloc S d
      return (b, update d ind (setEntry (d ind) (bn - ndirect) b), din)
    else return (a, d, din)
  else .error .outOfRange

/-- One round of the first loop of `itrunc`. -/
def freeDirect (S : Superblock) (x : Disk × Dinode) (k : Fin (ndirect + 1)) :
    Except BlockPanic (Disk × Dinode) :=
  if x.2.addrs k = 0 then .ok x
  else do
    let d ← bfree S x.1 (x.2.addrs k).toNat
    return (d, x.2.setAddr k 0)

/-- One round of the second loop, over the entries of the indirect block `a`. -/
def freeEntry (S : Superblock) (a : Block) (d : Disk) (j : Nat) : Except BlockPanic Disk :=
  if entry a j = 0 then .ok d else bfree S d (entry a j)

def directIdx : List (Fin (ndirect + 1)) := (List.finRange ndirect).map Fin.castSucc

/-- The second half of `itrunc`: the entries of the indirect block, and then the
indirect block. -/
def freeIndirect (S : Superblock) (d : Disk) (din : Dinode) : Except BlockPanic (Disk × Dinode) :=
  if din.addrs indirectIdx = 0 then .ok (d, din)
  else do
    let ind := (din.addrs indirectIdx).toNat
    let d ← (List.range nindirect).foldlM (freeEntry S (d ind)) d
    let d ← bfree S d ind
    return (d, din.setAddr indirectIdx 0)

def itrunc (S : Superblock) (d : Disk) (i : Nat) (din : Dinode) :
    Except BlockPanic (Disk × Dinode) := do
  let (d, din) ← directIdx.foldlM (freeDirect S) (d, din)
  let (d, din) ← freeIndirect S d din
  let din := { din with size := 0 }
  return (iupdate S d i din, din)

/-! ## §2  Who has which block -/

/-- Where a block number can be stored: for block `bn` of file `i`, in its inode
or in its indirect block, or for the indirect block itself. -/
inductive Place where
  | data (i : Nat) (bn : Fin maxfile)
  | indirect (i : Nat)
deriving DecidableEq

def Place.inum : Place → Nat
  | .data i _ => i
  | .indirect i => i

/-- A block that is found in the inode itself. -/
def directBn {k : Nat} (hk : k < ndirect) : Fin maxfile :=
  ⟨k, Nat.lt_of_lt_of_le hk (Nat.le_add_right ..)⟩

/-- A block that is found in the indirect block. -/
def entryBn {j : Nat} (hj : j < nindirect) : Fin maxfile :=
  ⟨ndirect + j, Nat.add_lt_add_left hj _⟩

/-- Block `bn` of an inode, 0 if it has none. -/
def blockOf (d : Disk) (din : Dinode) (bn : Nat) : Nat :=
  if h : bn < ndirect then (din.addrs ⟨bn, Nat.lt_succ_of_lt h⟩).toNat
  else if din.addrs indirectIdx = 0 then 0
  else entry (d (din.addrs indirectIdx).toNat) (bn - ndirect)

/-- Inode `i` is allocated. -/
def Allocated (S : Superblock) (D : Nat → Dinode) (i : Nat) : Prop :=
  1 ≤ i ∧ i < S.ninodes ∧ (D i).type ≠ 0

instance (S : Superblock) (D : Nat → Dinode) (i : Nat) : Decidable (Allocated S D i) :=
  inferInstanceAs (Decidable (_ ∧ _ ∧ _))

/-- The block number stored at a place of an allocated inode. -/
def slot (S : Superblock) (D : Nat → Dinode) (d : Disk) (P : Place) : Nat :=
  if Allocated S D P.inum then
    match P with
    | .data i bn => blockOf d (D i) bn
    | .indirect i => ((D i).addrs indirectIdx).toNat
  else 0

/-- The block numbers stored (`m`, 0 for none) and the bitmap agree: each is a
data block and stored once, and the blocks in use are the stored ones and the
ones before the data. -/
structure AllocOK (S : Superblock) (m : Place → Nat) (bit : Nat → Bool) : Prop where
  data : ∀ P, m P ≠ 0 → S.datastart ≤ m P ∧ m P < S.size
  once : ∀ P Q, m P ≠ 0 → m P = m Q → P = Q
  marked : ∀ b, S.datastart ≤ b → b < S.size → (bit b = true ↔ ∃ P, m P = b)
  before : ∀ b, b < S.datastart → bit b = true

/-- The blocks of the inodes `D` on the disk `d`. -/
abbrev BlocksOK (S : Superblock) (D : Nat → Dinode) (d : Disk) : Prop :=
  AllocOK S (slot S D d) (bit S d)

namespace AllocOK

variable {S : Superblock} {m : Place → Nat} {bit : Nat → Bool} {P : Place} {b : Nat}

theorem free_data (h : AllocOK S m bit) (hb : bit b = false) : S.datastart ≤ b := by
  by_contra hlt
  rw [h.before b (by omega)] at hb
  cases hb

theorem free_unowned (h : AllocOK S m bit) (hb : bit b = false) (hsize : b < S.size) (P : Place) :
    m P ≠ b := by
  intro hP
  have := (h.marked b (h.free_data hb) hsize).mpr ⟨P, hP⟩
  rw [hb] at this
  cases this

/-- A free block is stored at an empty place. -/
theorem add (h : AllocOK S m bit) (hP : m P = 0) (hb : bit b = false) (hsize : b < S.size) :
    AllocOK S (update m P b) (fun c => decide (c = b) || bit c) := by
  have hdata := h.free_data hb
  have hno := h.free_unowned hb hsize
  refine ⟨fun Q hQ => ?_, fun Q R hQ heq => ?_, fun c hc hcs => ?_, fun c hc => ?_⟩
  · by_cases hQP : Q = P
    · rw [hQP, update_self]
      exact ⟨hdata, hsize⟩
    · rw [update_of_ne hQP] at hQ ⊢
      exact h.data Q hQ
  · by_cases hQP : Q = P <;> by_cases hRP : R = P
    · rw [hQP, hRP]
    · rw [hQP, update_self, update_of_ne hRP] at heq
      exact absurd heq.symm (hno R)
    · rw [hRP, update_self, update_of_ne hQP] at heq
      exact absurd heq (hno Q)
    · rw [update_of_ne hQP] at hQ heq
      rw [update_of_ne hRP] at heq
      exact h.once Q R hQ heq
  · rw [Bool.or_eq_true, decide_eq_true_eq]
    constructor
    · rintro (rfl | hbit)
      · exact ⟨P, update_self ..⟩
      · obtain ⟨Q, hQ⟩ := (h.marked c hc hcs).mp hbit
        have hQP : Q ≠ P := by
          rintro rfl
          have := S.datastart_pos
          omega
        exact ⟨Q, by rw [update_of_ne hQP, hQ]⟩
    · rintro ⟨Q, hQ⟩
      by_cases hQP : Q = P
      · rw [hQP, update_self] at hQ
        exact .inl hQ.symm
      · rw [update_of_ne hQP] at hQ
        exact .inr ((h.marked c hc hcs).mpr ⟨Q, hQ⟩)
  · rw [h.before c hc, Bool.or_true]

/-- A stored block is given up. -/
theorem remove (h : AllocOK S m bit) (hP : m P ≠ 0) :
    AllocOK S (update m P 0) (fun c => !decide (c = m P) && bit c) := by
  obtain ⟨hdata, hsize⟩ := h.data P hP
  refine ⟨fun Q hQ => ?_, fun Q R hQ heq => ?_, fun c hc hcs => ?_, fun c hc => ?_⟩
  · by_cases hQP : Q = P
    · rw [hQP, update_self] at hQ
      exact absurd rfl hQ
    · rw [update_of_ne hQP] at hQ ⊢
      exact h.data Q hQ
  · by_cases hQP : Q = P
    · rw [hQP, update_self] at hQ
      exact absurd rfl hQ
    · rw [update_of_ne hQP] at hQ heq
      by_cases hRP : R = P
      · rw [hRP, update_self] at heq
        exact absurd heq hQ
      · rw [update_of_ne hRP] at heq
        exact h.once Q R hQ heq
  · rw [Bool.and_eq_true, Bool.not_eq_true', decide_eq_false_iff_not]
    constructor
    · rintro ⟨hne, hbit⟩
      obtain ⟨Q, hQ⟩ := (h.marked c hc hcs).mp hbit
      have hQP : Q ≠ P := by
        rintro rfl
        exact hne hQ.symm
      exact ⟨Q, by rw [update_of_ne hQP, hQ]⟩
    · rintro ⟨Q, hQ⟩
      have hQP : Q ≠ P := by
        rintro rfl
        rw [update_self] at hQ
        have := S.datastart_pos
        omega
      rw [update_of_ne hQP] at hQ
      refine ⟨fun heq => hQP (h.once Q P ?_ (hQ.trans heq)), (h.marked c hc hcs).mpr ⟨Q, hQ⟩⟩
      have := S.datastart_pos
      omega
  · have hne : c ≠ m P := by omega
    rw [h.before c hc]
    simp [hne]

theorem congr_bit (h : AllocOK S m bit) {bit' : Nat → Bool} (hbit : ∀ b, b < S.size → bit' b = bit b) :
    AllocOK S m bit' := by
  have hsize := S.data_behind
  refine ⟨h.data, h.once, fun b hb hbs => ?_, fun b hb => ?_⟩
  · rw [hbit b hbs]
    exact h.marked b hb hbs
  · rw [hbit b (Nat.lt_of_lt_of_le hb hsize)]
    exact h.before b hb

theorem bit_of_stored (h : AllocOK S m bit) (hP : m P ≠ 0) : bit (m P) = true :=
  (h.marked _ (h.data P hP).1 (h.data P hP).2).mpr ⟨P, rfl⟩

end AllocOK

/-! ## §3  The bytes of the files -/

/-- Byte `x` of file `i`; 0 where the file has no block. -/
def byteAt (m : Place → Nat) (d : Disk) (i x : Nat) : UInt8 :=
  if h : x / bsize < maxfile then
    if m (.data i ⟨x / bsize, h⟩) = 0 then 0 else d (m (.data i ⟨x / bsize, h⟩)) (x % bsize)
  else 0

theorem byteAt_congr {m m' : Place → Nat} {d d' : Disk} {i : Nat}
    (hm : ∀ bn, m' (.data i bn) = m (.data i bn))
    (hd : ∀ bn, m (.data i bn) ≠ 0 → d' (m (.data i bn)) = d (m (.data i bn))) (x : Nat) :
    byteAt m' d' i x = byteAt m d i x := by
  unfold byteAt
  split
  · rename_i hx
    rw [hm]
    split
    · rfl
    · rename_i hne
      rw [hd _ hne]
  · rfl

/-- A block of zeros at an empty place changes no byte. -/
theorem byteAt_add {m : Place → Nat} {d d' : Disk} {P : Place} {b : Nat} (hP : m P = 0)
    (hzero : d' b = fun _ => 0)
    (hkeep : ∀ i bn, m (.data i bn) ≠ 0 → d' (m (.data i bn)) = d (m (.data i bn))) (i x : Nat) :
    byteAt (update m P b) d' i x = byteAt m d i x := by
  unfold byteAt
  split
  · rename_i hx
    by_cases hQ : Place.data i ⟨x / bsize, hx⟩ = P
    · rw [hQ, update_self, hP, if_pos rfl, hzero]
      split <;> rfl
    · rw [update_of_ne hQ]
      split
      · rfl
      · rename_i hne
        rw [hkeep i _ hne]
  · rfl

/-- A write to block `bn` of file `i` changes the bytes of that block alone. -/
theorem byteAt_write {S : Superblock} {m : Place → Nat} {bit : Nat → Bool} (h : AllocOK S m bit)
    {i : Nat} {bn : Fin maxfile} (hb : m (.data i bn) ≠ 0) (d : Disk) (v : Block) (j x : Nat) :
    byteAt m (update d (m (.data i bn)) v) j x =
      if j = i ∧ x / bsize = bn then v (x % bsize) else byteAt m d j x := by
  unfold byteAt
  split
  · rename_i hx
    by_cases hQ : Place.data j ⟨x / bsize, hx⟩ = .data i bn
    · have hji : j = i ∧ x / bsize = bn := by
        cases hQ
        exact ⟨rfl, rfl⟩
      rw [if_pos hji, hQ, if_neg hb, update_self]
    · have hji : ¬ (j = i ∧ x / bsize = bn) := by
        rintro ⟨rfl, hbn⟩
        exact hQ (by rw [show (⟨x / bsize, hx⟩ : Fin maxfile) = bn from Fin.ext hbn])
      rw [if_neg hji]
      split
      · rfl
      · rename_i hne
        rw [update_of_ne fun heq => hQ (h.once _ _ hne heq)]
  · rename_i hx
    rw [if_neg]
    rintro ⟨-, hbn⟩
    exact hx (hbn ▸ bn.isLt)

/-! ## §4  Storing a block number -/

section Store

variable {S : Superblock} {D : Nat → Dinode} {d d' : Disk} {i : Nat}

theorem allocated_update {din : Dinode} (htype : din.type = (D i).type) (j : Nat) :
    Allocated S (update D i din) j ↔ Allocated S D j := by
  by_cases hji : j = i
  · rw [hji, Allocated, Allocated, update_self, htype]
  · rw [Allocated, Allocated, update_of_ne hji]

theorem blockOf_congr {din : Dinode}
    (h : din.addrs indirectIdx ≠ 0 →
      d' (din.addrs indirectIdx).toNat = d (din.addrs indirectIdx).toNat) (bn : Nat) :
    blockOf d' din bn = blockOf d din bn := by
  unfold blockOf
  split
  · rfl
  · split
    · rfl
    · rename_i hne
      rw [h hne]

theorem slot_data (hi : Allocated S D i) (bn : Fin maxfile) :
    slot S D d (.data i bn) = blockOf d (D i) bn := if_pos hi

theorem slot_indirect (hi : Allocated S D i) :
    slot S D d (.indirect i) = ((D i).addrs indirectIdx).toNat := if_pos hi

theorem slot_of_not_allocated {P : Place} (hi : ¬ Allocated S D P.inum) : slot S D d P = 0 :=
  if_neg hi

/-- The indirect blocks are as before. -/
def KeepsIndirect (S : Superblock) (D : Nat → Dinode) (d d' : Disk) : Prop :=
  ∀ j, slot S D d (.indirect j) ≠ 0 → d' (slot S D d (.indirect j)) = d (slot S D d (.indirect j))

theorem KeepsIndirect.blockOf (h : KeepsIndirect S D d d') {j : Nat} (hj : Allocated S D j)
    (bn : Nat) : blockOf d' (D j) bn = blockOf d (D j) bn := by
  refine blockOf_congr (fun hne => ?_) bn
  have := h j
  rw [slot_indirect hj] at this
  exact this fun heq => hne (UInt32.toNat_inj.mp heq)

theorem KeepsIndirect.slot (h : KeepsIndirect S D d d') : slot S D d' = slot S D d := by
  funext P
  by_cases hP : Allocated S D P.inum
  · cases P with
    | data j bn =>
      change Allocated S D j at hP
      rw [slot_data hP, slot_data hP, h.blockOf hP]
    | indirect j =>
      change Allocated S D j at hP
      rw [slot_indirect hP, slot_indirect hP]
  · rw [slot_of_not_allocated hP, slot_of_not_allocated hP]

theorem slot_update_of_ne {din : Dinode} {P : Place} (hP : P.inum ≠ i) :
    slot S (update D i din) d P = slot S D d P := by
  have hA : Allocated S (update D i din) P.inum ↔ Allocated S D P.inum := by
    rw [Allocated, Allocated, update_of_ne hP]
  cases P with
  | data j bn =>
    refine if_congr hA ?_ rfl
    change Fs.blockOf d (update D i din j) bn = Fs.blockOf d (D j) bn
    rw [update_of_ne (show j ≠ i from hP)]
  | indirect j =>
    refine if_congr hA ?_ rfl
    change ((update D i din j).addrs indirectIdx).toNat = ((D j).addrs indirectIdx).toNat
    rw [update_of_ne (show j ≠ i from hP)]

/-- An inode without blocks, or none at all. -/
def Dinode.Bare (din : Dinode) : Prop := din.type = 0 ∨ ∀ k, din.addrs k = 0

theorem slot_bare (h : (D i).Bare) {P : Place} (hP : P.inum = i) : slot S D d P = 0 := by
  by_cases hi : Allocated S D i
  · have haddrs := h.resolve_left hi.2.2
    cases P with
    | data j bn =>
      obtain rfl : j = i := hP
      rw [slot_data hi, blockOf]
      split
      · rw [haddrs]
        rfl
      · exact if_pos (haddrs _)
    | indirect j =>
      obtain rfl : j = i := hP
      rw [slot_indirect hi, haddrs]
      rfl
  · exact slot_of_not_allocated (hP ▸ hi)

/-- Such an inode for another one changes no block number stored. -/
theorem slot_update_bare {din : Dinode} (h : (D i).Bare) (h' : din.Bare) :
    slot S (update D i din) d = slot S D d := by
  funext P
  by_cases hP : P.inum = i
  · rw [slot_bare h hP, slot_bare (i := i) (by rwa [update_self]) hP]
  · exact slot_update_of_ne hP

/-- Direct address `k` becomes `b`. -/
theorem slot_setDirect (hi : Allocated S D i) {k : Nat} (hk : k < ndirect) {b : Nat}
    (hb : b < 2 ^ 32) :
    slot S (update D i ((D i).setAddr ⟨k, Nat.lt_succ_of_lt hk⟩ b)) d =
      update (slot S D d) (.data i (directBn hk)) b := by
  have hi' : Allocated S (update D i ((D i).setAddr ⟨k, Nat.lt_succ_of_lt hk⟩ b)) i :=
    (allocated_update (by rfl) i).mpr hi
  have hne : indirectIdx ≠ (⟨k, Nat.lt_succ_of_lt hk⟩ : Fin (ndirect + 1)) :=
    fun heq => Nat.ne_of_gt hk (congrArg Fin.val heq)
  funext P
  by_cases hP : P.inum = i
  · cases P with
    | data j bn =>
      obtain rfl : j = i := hP
      rw [slot_data hi', update_self]
      by_cases hbn : (bn : Nat) = k
      · obtain rfl : bn = directBn hk := Fin.ext hbn
        have hk' : (directBn hk : Nat) < ndirect := hk
        rw [update_self, blockOf, dif_pos hk']
        change (((D j).setAddr ⟨k, _⟩ b).addrs ⟨k, _⟩).toNat = b
        rw [Dinode.setAddr_self, UInt32.toNat_ofNat_of_lt' hb]
      · rw [update_of_ne fun heq => hbn (by cases heq; rfl), slot_data hi]
        unfold blockOf
        split
        · rw [Dinode.setAddr_of_ne fun heq => hbn (congrArg Fin.val heq)]
        · rw [Dinode.setAddr_of_ne hne]
    | indirect j =>
      obtain rfl : j = i := hP
      rw [slot_indirect hi', update_self, update_of_ne (by simp),
        slot_indirect hi, Dinode.setAddr_of_ne hne]
  · rw [slot_update_of_ne hP, update_of_ne]
    rintro rfl
    exact hP rfl

theorem entry_zero {b : Block} (h : b = fun _ => 0) (j : Nat) : entry b j = 0 := by
  rw [h, entry]
  exact Bytes.getLe_digits (by decide) fun j hj => by simp

/-- An inode without an indirect block gets one, with no entries. -/
theorem slot_setIndirect (hi : Allocated S D i) (hnone : (D i).addrs indirectIdx = 0) {b : Nat}
    (hb : b < 2 ^ 32) (hzero : d b = fun _ => 0) :
    slot S (update D i ((D i).setAddr indirectIdx b)) d =
      update (slot S D d) (.indirect i) b := by
  have hi' : Allocated S (update D i ((D i).setAddr indirectIdx b)) i :=
    (allocated_update (by rfl) i).mpr hi
  funext P
  by_cases hP : P.inum = i
  · cases P with
    | data j bn =>
      obtain rfl : j = i := hP
      rw [slot_data hi', update_self, update_of_ne (by simp), slot_data hi]
      unfold blockOf
      split
      · rename_i hbn
        rw [Dinode.setAddr_of_ne fun heq => Nat.ne_of_lt hbn (congrArg Fin.val heq)]
      · rw [Dinode.setAddr_self, UInt32.toNat_ofNat_of_lt' hb]
        split
        · rfl
        · exact entry_zero hzero _
    | indirect j =>
      obtain rfl : j = i := hP
      rw [slot_indirect hi', update_self, update_self, Dinode.setAddr_self,
        UInt32.toNat_ofNat_of_lt' hb]
  · rw [slot_update_of_ne hP, update_of_ne]
    rintro rfl
    exact hP rfl

/-- Entry `j` of the indirect block becomes `b`. -/
theorem slot_setEntry (hi : Allocated S D i) {bit : Nat → Bool} (h : AllocOK S (slot S D d) bit)
    (hind : slot S D d (.indirect i) ≠ 0) {j : Nat} (hj : j < nindirect) {b : Nat}
    (hb : b < 2 ^ 32) :
    slot S D (update d (slot S D d (.indirect i))
        (setEntry (d (slot S D d (.indirect i))) j b)) =
      update (slot S D d) (.data i (entryBn hj)) b := by
  funext P
  by_cases hP : Allocated S D P.inum
  · cases P with
    | data l bn =>
      change Allocated S D l at hP
      rw [slot_data hP]
      by_cases hli : l = i
      · subst hli
        have hne : (D l).addrs indirectIdx ≠ 0 := by
          intro heq
          rw [slot_indirect hi, heq] at hind
          exact hind rfl
        by_cases hbn : (bn : Nat) = ndirect + j
        · obtain rfl : bn = entryBn hj := Fin.ext hbn
          have hbig : ¬ (entryBn hj : Nat) < ndirect := Nat.not_lt.mpr (Nat.le_add_right ..)
          rw [update_self, blockOf, dif_neg hbig, if_neg hne, slot_indirect hi,
            update_self, entry, setEntry, hbn, Nat.add_sub_cancel_left,
            Bytes.getLe_setLe hb]
        · rw [update_of_ne fun heq => hbn (by cases heq; rfl), slot_data hi]
          unfold blockOf
          split
          · rfl
          · rename_i hbig
            rw [slot_indirect hi, update_self, entry, setEntry,
              Bytes.getLe_setLe_of_disjoint (by omega)]
            rfl
      · have hkeep : blockOf (update d (slot S D d (.indirect i))
            (setEntry (d (slot S D d (.indirect i))) j b)) (D l) bn = blockOf d (D l) bn := by
          refine blockOf_congr (fun hne => update_of_ne (fun heq => ?_) ..) bn
          rw [← slot_indirect (d := d) hP] at heq
          have := h.once (.indirect l) (.indirect i) (by rw [heq]; exact hind) heq
          cases this
          exact hli rfl
        rw [hkeep, update_of_ne fun heq => hli (by cases heq; rfl), slot_data hP]
    | indirect l =>
      change Allocated S D l at hP
      rw [slot_indirect hP, update_of_ne (by simp), slot_indirect hP]
  · have hPi : P ≠ .data i (entryBn hj) := by
      rintro rfl
      exact hP hi
    rw [slot_of_not_allocated hP, update_of_ne hPi, slot_of_not_allocated hP]

end Store

end Xv6.Fs
