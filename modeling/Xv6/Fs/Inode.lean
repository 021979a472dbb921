import Xv6.Fs.BlocksSpec

/-!
# Reading and writing an inode: `ialloc`, `readi`, `writei`

`readi` and `writei` run the same loop over the blocks a byte range touches and
differ in what they do to each block, so the loop stands once (`eachBlock`).
Its rule (`eachBlock_rule`) carries an invariant from one offset to the next.
`UpTo` is that invariant: what the disk and the inode are when the loop has
come to some offset. With it `readi` returns the bytes of the file
(`readi_spec`) and `writei` changes those bytes and no others (`writei_spec`).
Both return when as many blocks are free as the range still lacks
(`readi_total`, `writei_total`).
-/

namespace Xv6.Fs

open Outcome Function

/-! ## §1  The functions -/

/-- The first free inode, cleared but for its type. -/
def ialloc (S : Superblock) (d : Disk) (type : Int16) : Except BlockPanic (Nat × Disk) :=
  match (List.range' 1 (S.ninodes - 1)).find? fun i => (dinode S d i).type = 0 with
  | some i => .ok (i, iupdate S d i ⟨type, 0, 0, 0, 0, fun _ => 0⟩)
  | none => .error .noInodes

/-- The loop of `readi` and of `writei`, with `n` bytes to go from `off` on. Its
body gets the block, the offset in it and the number of bytes. -/
def eachBlock {α : Type} (S : Superblock) (body : Nat → Nat → Nat → Disk → α → Disk × α) :
    Nat → Nat → Nat → Disk → Dinode → α → Except BlockPanic (Disk × Dinode × α)
  | 0, _, _, d, din, a => .ok (d, din, a)
  | fuel + 1, off, n, d, din, a =>
    if n = 0 then .ok (d, din, a)
    else do
      let (b, d, din) ← bmap S d din (off / bsize)
      let m := min n (bsize - off % bsize)
      let (d, a) := body b (off % bsize) m d a
      eachBlock S body fuel (off + m) (n - m) d din a

/-- `memmove(dst, bp->data + off%BSIZE, m)`, with what was read before. -/
def readBody (b o m : Nat) (d : Disk) (dst : List UInt8) : Disk × List UInt8 :=
  (d, dst ++ (List.range m).map fun k => d b (o + k))

/-- `memmove(bp->data + off%BSIZE, src, m)`, and `src` moves on. -/
def writeBody (b o m : Nat) (d : Disk) (src : Nat → UInt8) : Disk × (Nat → UInt8) :=
  (update d b (Bytes.copy (d b) o m src), fun k => src (m + k))

/-- `readi`. The result is `none` for -1 and else the bytes copied. -/
def readi (S : Superblock) (d : Disk) (din : Dinode) (off n : UInt32) :
    Except BlockPanic (Option (List UInt8) × Disk × Dinode) :=
  if din.type = tDev then .error (.device din.major)
  else if off > din.size ∨ off + n < off then .ok (none, d, din)
  else
    let n := if off + n > din.size then din.size - off else n
    do
      -- off + n does not wrap, so from here on the offsets are numbers
      let (d, din, dst) ← eachBlock S readBody n.toNat off.toNat n.toNat d din []
      return (some dst, d, din)

/-- `writei`. -/
def writei (S : Superblock) (d : Disk) (i : Nat) (din : Dinode) (src : Nat → UInt8)
    (off n : UInt32) : Except BlockPanic (Option UInt32 × Disk × Dinode) :=
  if din.type = tDev then .error (.device din.major)
  else if off > din.size ∨ off + n < off then .ok (none, d, din)
  else if (off + n).toNat > maxfile * bsize then .ok (none, d, din)
  else do
    let (d, din, _) ← eachBlock S writeBody n.toNat off.toNat n.toNat d din src
    if n > 0 ∧ off + n > din.size then
      let din := { din with size := off + n }
      return (some n, iupdate S d i din, din)
    else return (some n, d, din)

/-! ## §2  The loop -/

section Loop

variable {S : Superblock} {i : Nat} {α : Type} {body : Nat → Nat → Nat → Disk → α → Disk × α}

/-- The bytes of the next round: all that are left, or up to the end of the block. -/
def chunk (off n : Nat) : Nat := min n (bsize - off % bsize)

theorem chunk_pos (off : Nat) {n : Nat} (hn : 0 < n) : 0 < chunk off n := by
  have : off % bsize < bsize := Nat.mod_lt _ (by decide)
  rw [chunk]
  omega

theorem chunk_le (off n : Nat) : chunk off n ≤ n := Nat.min_le_left ..

theorem block_lt {off n : Nat} (hn : 0 < n) (hmax : off + n ≤ maxfile * bsize) :
    off / bsize < maxfile :=
  Nat.div_lt_of_lt_mul (by rw [Nat.mul_comm]; omega)

/-- **Loop rule**: what each round carries over, from one offset to the next,
holds when the loop is done. -/
theorem eachBlock_rule {I : Nat → (Nat → Dinode) → Disk → α → Prop}
    (hok : ∀ {off D d a}, I off D d a → BlocksOK S D d ∧ Allocated S D i)
    (hstep : ∀ {off n D d a} (hn : 0 < n) (hmax : off + n ≤ maxfile * bsize), I off D d a →
      ∀ {b d₁ din₁}, BlockMapped S D d i ⟨off / bsize, block_lt hn hmax⟩ b d₁ din₁ →
        I (off + chunk off n) (update D i din₁)
          (body b (off % bsize) (chunk off n) d₁ a).1 (body b (off % bsize) (chunk off n) d₁ a).2) :
    ∀ {fuel off n : Nat} {D : Nat → Dinode} {d d' : Disk} {din' : Dinode} {a a' : α}, n ≤ fuel →
      off + n ≤ maxfile * bsize → I off D d a →
      eachBlock S body fuel off n d (D i) a = .ok (d', din', a') →
      I (off + n) (update D i din') d' a'
  | 0, off, n, D, d, d', din', a, a', hfuel, _, hI, h => by
    cases h
    obtain rfl : n = 0 := Nat.le_zero.mp hfuel
    rwa [update_eq_self]
  | fuel + 1, off, n, D, d, d', din', a, a', hfuel, hmax, hI, h => by
    rw [eachBlock] at h
    split at h
    · rename_i hn
      cases h
      rwa [hn, update_eq_self]
    · rename_i hn
      have hn : 0 < n := Nat.pos_of_ne_zero hn
      obtain ⟨⟨b, d₁, din₁⟩, hb, hrest⟩ := bind_ok h
      obtain ⟨halloc, hi⟩ := hok hI
      have hm := bmap_spec halloc hi ⟨off / bsize, block_lt hn hmax⟩ hb
      have hnext := hstep hn hmax hI hm
      have hle := chunk_le off n
      have hpos := chunk_pos off hn
      have hrest' : eachBlock S body fuel (off + chunk off n) (n - chunk off n)
          (body b (off % bsize) (chunk off n) d₁ a).1 (update D i din₁ i)
          (body b (off % bsize) (chunk off n) d₁ a).2 = .ok (d', din', a') := by
        rw [update_self]
        exact hrest
      have := eachBlock_rule hok hstep (by omega) (by omega) hnext hrest'
      rwa [update_idem, show off + chunk off n + (n - chunk off n) = off + n by omega]
        at this

end Loop

/-! ## §3  Up to an offset -/

section Range

variable {S : Superblock} {D D₁ : Nat → Dinode} {d d₁ d₂ d' : Disk} {i off cur n : Nat}
  {v : Nat → UInt8}

/-- Every address that the first `n` bytes call for is there. -/
def Dinode.HasAddrs (din : Dinode) (n : Nat) : Prop :=
  ∀ k : Fin (ndirect + 1), (k : Nat) * bsize < n → din.addrs k ≠ 0

instance (din : Dinode) (n : Nat) : Decidable (din.HasAddrs n) :=
  inferInstanceAs (Decidable (∀ _, _ → _))

theorem Dinode.HasAddrs.mono {din : Dinode} {m : Nat} (h : din.HasAddrs n) (hm : m ≤ n) :
    din.HasAddrs m := fun k hk => h k (Nat.lt_of_lt_of_le hk hm)

/-- Where a loop stands that started at `off`, with table `D` and disk `d`, and
has come to `cur`: the bytes from `off` to `cur` are those of `v`. -/
structure UpTo (S : Superblock) (D : Nat → Dinode) (d : Disk) (i off : Nat) (v : Nat → UInt8)
    (cur : Nat) (D' : Nat → Dinode) (d' : Disk) : Prop where
  ok : AllocOK S (slot S D' d') (bit S d')
  grows : ∀ P, slot S D d P ≠ 0 → slot S D' d' P = slot S D d P
  table : ∀ j, j ≠ i → D' j = D j
  attrs : D' i = { D i with addrs := (D' i).addrs }
  inodes : ∀ c, c < S.bmapstart → d' c = d c
  bytes : ∀ j x, byteAt (slot S D' d') d' j x =
    if j = i ∧ off ≤ x ∧ x < cur then v (x - off) else byteAt (slot S D d) d j x
  mapped : off < cur → ∀ bn : Fin maxfile, off < (bn + 1) * bsize → bn * bsize < cur →
    slot S D' d' (.data i bn) ≠ 0
  kept : ∀ j (bn : Fin maxfile), (j = i → cur ≤ bn * bsize) →
    slot S D' d' (.data j bn) = slot S D d (.data j bn)
  stored : (D i).HasAddrs cur → D' i = D i

theorem UpTo.refl (hok : BlocksOK S D d) (v : Nat → UInt8) :
    UpTo S D d i off v off D d where
  ok := hok
  grows _ _ := rfl
  table _ _ := rfl
  attrs := rfl
  inodes _ _ := rfl
  bytes j x := (if_neg (by omega)).symm
  mapped h := absurd h (Nat.lt_irrefl _)
  kept _ _ _ := rfl
  stored _ := rfl

/-- A byte of the block at hand is in the chunk just when its offset is. -/
theorem mem_chunk {x : Nat} (hx : x / bsize = cur / bsize) :
    (cur % bsize ≤ x % bsize ∧ x % bsize < cur % bsize + chunk cur n) ↔
      cur ≤ x ∧ x < cur + chunk cur n := by
  have hx' := Nat.div_add_mod x bsize
  have hcur := Nat.div_add_mod cur bsize
  rw [hx] at hx'
  omega

theorem block_of_mem_chunk {x : Nat} (hle : cur ≤ x) (hlt : x < cur + chunk cur n) :
    x / bsize = cur / bsize := by
  have hc : chunk cur n ≤ bsize - cur % bsize := Nat.min_le_right ..
  simp only [bsize] at hc ⊢
  omega

/-- A byte of the block at hand. -/
theorem BlockMapped.byteAt {bn : Fin maxfile} {b x : Nat} {din₂ : Dinode}
    (hm : BlockMapped S D₁ d₁ i bn b d₂ din₂) (hx : x / bsize = bn) :
    byteAt (slot S (update D₁ i din₂) d₂) d₂ i x = d₂ b (x % bsize) := by
  have hbn : (⟨x / bsize, hx ▸ bn.isLt⟩ : Fin maxfile) = bn := Fin.ext hx
  rw [Fs.byteAt, dif_pos (hx ▸ bn.isLt), hbn, hm.block, if_neg hm.pos]

/-- The block at hand is no indirect block, so writing it leaves the block numbers
stored and the bitmap as they are. -/
theorem BlockMapped.overwrite {bn : Fin maxfile} {b : Nat} {din₂ : Dinode} {d₃ : Disk}
    (hm : BlockMapped S D₁ d₁ i bn b d₂ din₂) (hframe : ∀ c, c ≠ b → d₃ c = d₂ c) :
    slot S (update D₁ i din₂) d₃ = slot S (update D₁ i din₂) d₂ ∧
      BlocksOK S (update D₁ i din₂) d₃ ∧
      (∀ c, c < S.datastart → d₃ c = d₂ c) := by
  have hne : slot S (update D₁ i din₂) d₂ (.data i bn) ≠ 0 := hm.block ▸ hm.pos
  have hdata : S.datastart ≤ b := hm.block ▸ (hm.grown.ok.data _ hne).1
  have hbefore : ∀ c, c < S.datastart → d₃ c = d₂ c := fun c hc => hframe c (by omega)
  have hslot : slot S (update D₁ i din₂) d₃ = slot S (update D₁ i din₂) d₂ := by
    refine KeepsIndirect.slot fun j hj => hframe _ fun heq => ?_
    cases hm.grown.ok.once _ _ hj (heq.trans hm.block.symm)
  refine ⟨hslot, ?_, hbefore⟩
  rw [BlocksOK, hslot]
  exact hm.grown.ok.congr_bit fun c hc => bit_congr hc fun x _ hx => hbefore x hx

/-- **One round** takes the loop on to the end of its chunk. -/
theorem UpTo.step (h : UpTo S D d i off v cur D₁ d₁) (hoff : off ≤ cur) (hn : 0 < n)
    (hmax : cur + n ≤ maxfile * bsize) {b : Nat} {din₂ : Dinode}
    (hm : BlockMapped S D₁ d₁ i ⟨cur / bsize, block_lt hn hmax⟩ b d₂ din₂) :
    UpTo S D d i off v (cur + chunk cur n) (update D₁ i din₂)
      (update d₂ b (Bytes.copy (d₂ b) (cur % bsize) (chunk cur n)
        fun k => v (cur - off + k))) := by
  have hb := hm.block
  have hne : slot S (update D₁ i din₂) d₂ (.data i ⟨cur / bsize, block_lt hn hmax⟩) ≠ 0 :=
    hb ▸ hm.pos
  have hstart := S.bmapstart_lt_datastart
  have hchunk : chunk cur n ≤ bsize - cur % bsize := Nat.min_le_right ..
  obtain ⟨hslot, hok, hbefore⟩ := hm.overwrite (fun c hc => update_of_ne hc (Bytes.copy
    (d₂ b) (cur % bsize) (chunk cur n) fun k => v (cur - off + k)) d₂)
  refine ⟨hok, fun P hP => ?_, fun j hj => ?_, ?_, fun c hc => ?_, fun j x => ?_,
    fun _ bn hlo hhi => ?_, fun j bn hbn => ?_, fun hall => ?_⟩
  · have hP₁ := h.grows P hP
    rw [hslot, hm.grown.grows P (hP₁ ▸ hP), hP₁]
  · rw [update_of_ne hj, h.table j hj]
  · rw [update_self]
    calc din₂ = { D₁ i with addrs := din₂.addrs } := hm.attrs
      _ = { D i with addrs := din₂.addrs } := by rw [h.attrs]
  · rw [hbefore c (by omega), hm.grown.inodes c hc, h.inodes c hc]
  · rw [hslot]
    have hwrite := byteAt_write hm.grown.ok hne d₂
      (Bytes.copy (d₂ b) (cur % bsize) (chunk cur n) fun k => v (cur - off + k)) j x
    rw [hb] at hwrite
    rw [hwrite, hm.grown.bytes j x, h.bytes j x]
    by_cases hx : j = i ∧ x / bsize = cur / bsize
    · rw [if_pos hx, Bytes.copy]
      obtain ⟨rfl, hx⟩ := hx
      by_cases hin : cur ≤ x ∧ x < cur + chunk cur n
      · rw [if_pos ((mem_chunk hx).mpr hin), if_pos ⟨rfl, by omega, hin.2⟩]
        have hx' := Nat.div_add_mod x bsize
        have hcur := Nat.div_add_mod cur bsize
        rw [hx] at hx'
        exact congrArg v (by omega)
      · rw [if_neg fun hc => hin ((mem_chunk hx).mp hc)]
        -- behind the chunk in the same block, or before `cur`
        rw [← hm.byteAt hx, hm.grown.bytes j x, h.bytes j x]
        refine if_congr ⟨fun hc => ⟨rfl, hc.2.1, by omega⟩, fun hc => ⟨rfl, hc.2.1, ?_⟩⟩ rfl rfl
        by_contra hle
        exact hin ⟨by omega, hc.2.2⟩
    · rw [if_neg hx]
      refine if_congr ⟨fun hc => ⟨hc.1, hc.2.1, by omega⟩, fun hc => ⟨hc.1, hc.2.1, ?_⟩⟩ rfl rfl
      by_contra hle
      exact hx ⟨hc.1, block_of_mem_chunk (by omega) hc.2.2⟩
  · rw [hslot]
    by_cases hbn : bn = ⟨cur / bsize, block_lt hn hmax⟩
    · rw [hbn]
      exact hne
    · have hval : (bn : Nat) ≠ cur / bsize := fun heq => hbn (Fin.ext heq)
      have hbefore : bn * bsize < cur ∧ off < cur := by
        simp only [bsize] at hlo hhi hchunk hval ⊢
        omega
      have hold := h.mapped hbefore.2 bn hlo hbefore.1
      rw [hm.grown.grows _ hold]
      exact hold
  · have hpos := chunk_pos cur hn
    have hne' : Place.data j bn ≠ .data i ⟨cur / bsize, block_lt hn hmax⟩ := by
      intro heq
      cases heq
      have hle := Nat.div_mul_le_self cur bsize
      have hlt := hbn rfl
      simp only at hlt
      omega
    rw [hslot, hm.others _ hne' (by simp)]
    refine h.kept j bn fun hji => ?_
    have := hbn hji
    omega
  · have hsame := h.stored (hall.mono (Nat.le_add_right ..))
    rw [update_self, ← hsame]
    refine hm.stored ?_
    rw [hsame]
    refine hall _ (Nat.lt_of_le_of_lt ?_ (Nat.lt_add_of_pos_right (chunk_pos cur hn)))
    calc min (cur / bsize) ndirect * bsize ≤ cur / bsize * bsize :=
          Nat.mul_le_mul_right _ (Nat.min_le_left ..)
      _ ≤ cur := Nat.div_mul_le_self ..

/-- Where an address of an inode is found among the block numbers stored. -/
def addrPlace (i : Nat) (k : Fin (ndirect + 1)) : Place :=
  if h : (k : Nat) < ndirect then .data i (directBn h) else .indirect i

theorem slot_addrPlace (hi : Allocated S D i) (k : Fin (ndirect + 1)) :
    slot S D d (addrPlace i k) = ((D i).addrs k).toNat := by
  unfold addrPlace
  split
  · rename_i h
    rw [slot_data hi]
    exact dif_pos h
  · rename_i h
    have hk : k = indirectIdx := Fin.ext (by
      have := k.isLt
      change (k : Nat) = ndirect
      omega)
    rw [slot_indirect hi, hk]

/-- A block is reached through an address that is there. -/
theorem addrs_of_slot (hi : Allocated S D i) {bn : Fin maxfile}
    (h : slot S D d (.data i bn) ≠ 0) : (D i).addrs (addrIdx bn) ≠ 0 := by
  intro hzero
  refine h ?_
  rw [slot_data hi, blockOf]
  split
  · rename_i hlt
    rw [← addrIdx_direct hlt, hzero]
    rfl
  · rename_i hge
    rw [addrIdx_indirect hge] at hzero
    exact if_pos hzero

section Addresses

variable {D' : Nat → Dinode} {j : Nat} {k : Fin (ndirect + 1)} (h : UpTo S D d i off v cur D' d')
include h

theorem UpTo.allocated (hj : Allocated S D j) : Allocated S D' j := by
  refine ⟨hj.1, hj.2.1, ?_⟩
  by_cases hji : j = i
  · subst hji
    rw [h.attrs]
    exact hj.2.2
  · rw [h.table j hji]
    exact hj.2.2

/-- An address that is there is not lost. -/
theorem UpTo.addrs_kept (hj : Allocated S D j) (hk : (D j).addrs k ≠ 0) :
    (D' j).addrs k = (D j).addrs k := by
  have hold : slot S D d (addrPlace j k) ≠ 0 := by
    rw [slot_addrPlace hj]
    exact fun heq => hk (UInt32.toNat_inj.mp heq)
  have hgrows := h.grows _ hold
  rw [slot_addrPlace (h.allocated hj), slot_addrPlace hj] at hgrows
  exact UInt32.toNat_inj.mp hgrows

/-- An address that the loop has passed is there. -/
theorem UpTo.addrs_passed (hi : Allocated S D i) (hlo : off < (k + 1) * bsize)
    (hhi : k * bsize < cur) (hlt : off < cur) : (D' i).addrs k ≠ 0 := by
  have hkmax : (k : Nat) < maxfile := Nat.lt_of_lt_of_le k.isLt (by decide)
  have hidx : addrIdx (⟨k, hkmax⟩ : Fin maxfile) = k :=
    Fin.ext (Nat.min_eq_left (Nat.le_of_lt_succ k.isLt))
  rw [← hidx]
  exact addrs_of_slot (h.allocated hi) (h.mapped hlt ⟨k, hkmax⟩ hlo hhi)

theorem UpTo.hasAddrs (hi : Allocated S D i) {m : Nat} (hoff : off ≤ m) (hlt : off < cur)
    (hall : (D i).HasAddrs m) : (D' i).HasAddrs (max m cur) := by
  intro k hk
  by_cases hkm : (k : Nat) * bsize < m
  · rw [h.addrs_kept hi (hall k hkm)]
    exact hall k hkm
  · refine h.addrs_passed hi ?_ (by omega) hlt
    rw [Nat.add_mul]
    have : 0 < 1 * bsize := by decide
    omega

/-- What the old inodes store with the new blocks, the new inodes store too. -/
theorem UpTo.slot_old {P : Place} (hP : slot S D d' P ≠ 0) : slot S D' d' P = slot S D d' P := by
  have hi : Allocated S D P.inum := by
    by_contra hno
    exact hP (slot_of_not_allocated hno)
  cases P with
  | indirect j =>
    change Allocated S D j at hi
    rw [slot_indirect hi] at hP ⊢
    rw [slot_indirect (h.allocated hi), h.addrs_kept hi fun hzero => hP (by rw [hzero]; rfl)]
  | data j bn =>
    change Allocated S D j at hi
    have hkept := h.addrs_kept hi (addrs_of_slot hi hP)
    rw [slot_data (h.allocated hi), slot_data hi, blockOf, blockOf]
    split
    · rename_i hlt
      rw [addrIdx_direct hlt] at hkept
      rw [hkept]
    · rename_i hge
      rw [addrIdx_indirect hge] at hkept
      rw [hkept]

end Addresses

end Range

/-! ## §4  `readi` and `writei` -/

section Spec

variable {S : Superblock} {D : Nat → Dinode} {d d' : Disk} {i : Nat}

/-- `iupdate` writes no block that a file has, and no bit. -/
theorem iupdate_frame {m : Place → Nat} (hok : AllocOK S m (bit S d)) (hi : i < S.ninodes)
    (din : Dinode) :
    AllocOK S m (bit S (iupdate S d i din)) ∧
      ∀ P, m P ≠ 0 → iupdate S d i din (m P) = d (m P) := by
  have hstart := S.bmapstart_lt_datastart
  constructor
  · exact hok.congr_bit fun b hb => bit_congr hb fun c hc _ => iupdate_data hi hc _
  · intro P hP
    have := (hok.data P hP).1
    exact iupdate_data hi (by omega) _

/-- Which blocks files have depends on the types and the addresses alone. -/
theorem slot_congr {D' : Nat → Dinode} (htype : ∀ j, j < S.ninodes → (D' j).type = (D j).type)
    (haddrs : ∀ j, j < S.ninodes → (D' j).addrs = (D j).addrs) : slot S D' d = slot S D d := by
  funext P
  by_cases hP : P.inum < S.ninodes
  · have halloc : Allocated S D' P.inum ↔ Allocated S D P.inum := by
      rw [Allocated, Allocated, htype _ hP]
    cases P with
    | data j bn => simp only [slot, halloc, blockOf, haddrs j hP]
    | indirect j => simp only [slot, halloc, haddrs j hP]
  · rw [slot_of_not_allocated fun h => hP h.2.1, slot_of_not_allocated fun h => hP h.2.1]

theorem slot_update_attrs {din : Dinode} (htype : din.type = (D i).type)
    (haddrs : din.addrs = (D i).addrs) (d : Disk) :
    slot S (update D i din) d = slot S D d := by
  refine slot_congr (fun j _ => ?_) fun j _ => ?_
  · by_cases hji : j = i
    · rw [hji, update_self, htype]
    · rw [update_of_ne hji]
  · by_cases hji : j = i
    · rw [hji, update_self, haddrs]
    · rw [update_of_ne hji]

/-- An inode goes to the disk that has the blocks it had: nothing changes but
its attributes. -/
theorem iupdate_keeps (hok : BlocksOK S D d) (hi : i < S.ninodes) {din : Dinode}
    (hslot : ∀ d, slot S (update D i din) d = slot S D d) :
    slot S (update D i din) (iupdate S d i din) = slot S D d ∧
      BlocksOK S (update D i din) (iupdate S d i din) ∧
      ∀ j x, byteAt (slot S (update D i din) (iupdate S d i din)) (iupdate S d i din) j x =
        byteAt (slot S D d) d j x := by
  obtain ⟨hok', hkeep⟩ := iupdate_frame hok hi din
  have hsame : slot S (update D i din) (iupdate S d i din) = slot S D d := by
    rw [hslot]
    exact KeepsIndirect.slot fun j hj => hkeep (.indirect j) hj
  rw [BlocksOK, hsame]
  exact ⟨rfl, hok', fun j x => byteAt_congr (fun _ => rfl) (fun bn hbn => hkeep _ hbn) x⟩

/-- The bytes of file `i` from `off` on. -/
def bytesFrom (S : Superblock) (D : Nat → Dinode) (d : Disk) (i off k : Nat) : UInt8 :=
  byteAt (slot S D d) d i (off + k)

/-- The loop of `readi` returns the bytes of the range: it leaves the range as if
it had been written with its own bytes. -/
theorem readLoop_spec (hok : BlocksOK S D d) (hi : Allocated S D i) {off n : Nat}
    (hmax : off + n ≤ maxfile * bsize) {din' : Dinode} {dst : List UInt8}
    (h : eachBlock S readBody n off n d (D i) [] = .ok (d', din', dst)) :
    UpTo S D d i off (bytesFrom S D d i off) (off + n) (update D i din') d' ∧
      dst = (List.range n).map (bytesFrom S D d i off) := by
  have hend := eachBlock_rule (i := i) (I := fun cur D' d' dst => off ≤ cur ∧ Allocated S D' i ∧
      UpTo S D d i off (bytesFrom S D d i off) cur D' d' ∧
      dst = (List.range (cur - off)).map (bytesFrom S D d i off))
    (fun hI => ⟨hI.2.2.1.ok, hI.2.1⟩)
    (fun {cur n D₁ d₁ dst} hn hmax hI {b d₂ din₂} hm => by
      obtain ⟨hle, hi₁, hup, rfl⟩ := hI
      have hstep := hup.step hle hn hmax hm
      have hbyte : ∀ k, k < chunk cur n →
          d₂ b (cur % bsize + k) = bytesFrom S D d i off (cur - off + k) := by
        intro k hk
        have hx := block_of_mem_chunk (n := n) (x := cur + k) (Nat.le_add_right ..) (by omega)
        have hmod : (cur + k) % bsize = cur % bsize + k := by
          have h₁ := Nat.div_add_mod (cur + k) bsize
          have h₂ := Nat.div_add_mod cur bsize
          rw [hx] at h₁
          omega
        rw [← hmod, ← hm.byteAt hx, hm.grown.bytes, hup.bytes, if_neg (by omega), bytesFrom,
          ← Nat.add_assoc, Nat.add_sub_cancel' hle]
      have hsame : update d₂ b (Bytes.copy (d₂ b) (cur % bsize) (chunk cur n)
          fun k => bytesFrom S D d i off (cur - off + k)) = d₂ := by
        refine update_eq_self_iff.mpr (funext fun x => ?_)
        rw [Bytes.copy]
        split
        · rename_i hx
          rw [← hbyte _ (by omega), Nat.add_sub_cancel' hx.1]
        · rfl
      rw [hsame] at hstep
      refine ⟨by omega, (allocated_update (by rw [hm.attrs]) i).mpr hi₁, hstep, ?_⟩
      change _ ++ (List.range (chunk cur n)).map _ = _
      rw [show cur + chunk cur n - off = cur - off + chunk cur n by omega, List.range_add,
        List.map_append, List.map_map]
      exact congrArg _ (List.map_congr_left fun k hk => hbyte k (List.mem_range.mp hk)))
    (Nat.le_refl _) hmax ⟨Nat.le_refl _, hi, .refl hok _, by rw [Nat.sub_self]; rfl⟩ h
  rw [Nat.add_sub_cancel_left] at hend
  exact hend.2.2

/-- The loop of `writei` writes the range. -/
theorem writeLoop_spec (hok : BlocksOK S D d) (hi : Allocated S D i) {off n : Nat}
    (hmax : off + n ≤ maxfile * bsize) {src src' : Nat → UInt8} {din' : Dinode}
    (h : eachBlock S writeBody n off n d (D i) src = .ok (d', din', src')) :
    UpTo S D d i off src (off + n) (update D i din') d' := by
  have hend := eachBlock_rule (i := i) (I := fun cur D' d' src' => off ≤ cur ∧ Allocated S D' i ∧
      UpTo S D d i off src cur D' d' ∧ src' = fun k => src (cur - off + k))
    (fun hI => ⟨hI.2.2.1.ok, hI.2.1⟩)
    (fun {cur n D₁ d₁ src'} hn hmax hI {b d₂ din₂} hm => by
      obtain ⟨hle, hi₁, hup, rfl⟩ := hI
      refine ⟨by omega, (allocated_update (by rw [hm.attrs]) i).mpr hi₁, hup.step hle hn hmax hm,
        funext fun k => ?_⟩
      change src (cur - off + (chunk cur n + k)) = _
      exact congrArg src (by omega))
    (Nat.le_refl _) hmax ⟨Nat.le_refl _, hi, .refl hok _, by simp⟩ h
  exact hend.2.2.1

variable {n off size : UInt32}

/-- The test that `readi` and `writei` begin with. -/
theorem outside_iff : (off > size ∨ off + n < off) ↔
    (size.toNat < off.toNat ∨ 2 ^ 32 ≤ off.toNat + n.toNat) := by
  refine or_congr UInt32.lt_iff_toNat_lt ?_
  rw [UInt32.lt_iff_toNat_lt, UInt32.toNat_add]
  have := n.toNat_lt
  have := off.toNat_lt
  omega

theorem toNat_add_of_inside (h : ¬ (size.toNat < off.toNat ∨ 2 ^ 32 ≤ off.toNat + n.toNat)) :
    (off + n).toNat = off.toNat + n.toNat := by
  rw [UInt32.toNat_add]
  exact Nat.mod_eq_of_lt (by omega)

/-- The number of bytes `readi` reads. -/
theorem readLength (h : ¬ (size.toNat < off.toNat ∨ 2 ^ 32 ≤ off.toNat + n.toNat)) :
    (if off + n > size then size - off else n).toNat = min n.toNat (size.toNat - off.toNat) := by
  have hcmp : off + n > size ↔ size.toNat < off.toNat + n.toNat := by
    rw [gt_iff_lt, UInt32.lt_iff_toNat_lt, toNat_add_of_inside h]
  split
  · rename_i hgt
    rw [UInt32.toNat_sub_of_le _ _ (UInt32.le_iff_toNat_le.mpr (by omega))]
    have := hcmp.mp hgt
    omega
  · rename_i hle
    have := mt hcmp.mpr hle
    omega

/-- **`readi`** fails just when the offset is behind the end or the range wraps,
and returns else the bytes of the file. No byte of any file changes. -/
theorem readi_spec (hok : BlocksOK S D d) (hi : Allocated S D i)
    (hsize : (D i).size.toNat ≤ maxfile * bsize) {r : Option (List UInt8)} {din' : Dinode}
    (h : readi S d (D i) off n = .ok (r, d', din')) :
    if (D i).size.toNat < off.toNat ∨ 2 ^ 32 ≤ off.toNat + n.toNat then
      r = none ∧ d' = d ∧ din' = D i
    else
      r = some ((List.range (min n.toNat ((D i).size.toNat - off.toNat))).map
        (bytesFrom S D d i off.toNat)) ∧
      UpTo S D d i off.toNat (bytesFrom S D d i off.toNat)
        (off.toNat + min n.toNat ((D i).size.toNat - off.toNat)) (update D i din') d' := by
  unfold readi at h
  split at h
  · cases h
  split at h
  · rename_i hout
    cases h
    rw [if_pos (outside_iff.mp hout)]
    exact ⟨rfl, rfl, rfl⟩
  · rename_i hout
    have hin := mt outside_iff.mpr hout
    simp only [readLength hin] at h
    obtain ⟨⟨d₁, din₁, dst⟩, hloop, hrest⟩ := bind_ok h
    cases hrest
    obtain ⟨hup, rfl⟩ := readLoop_spec hok hi (by omega) hloop
    rw [if_neg hin]
    exact ⟨rfl, hup⟩

/-- What a successful `writei` leaves: `UpTo` before the size is set, and after
it the inode on the disk as in memory if the file has grown. -/
structure Written (S : Superblock) (D : Nat → Dinode) (d : Disk) (i off n : Nat) (src : Nat → UInt8)
    (d' : Disk) (din' : Dinode) : Prop where
  ok : AllocOK S (slot S (update D i din') d') (bit S d')
  bytes : ∀ j x, byteAt (slot S (update D i din') d') d' j x =
    if j = i ∧ off ≤ x ∧ x < off + n then src (x - off) else byteAt (slot S D d) d j x
  attrs : din' = { D i with size := din'.size, addrs := din'.addrs }
  size : din'.size.toNat = max (D i).size.toNat (if n = 0 then 0 else off + n)
  full : (D i).HasAddrs (D i).size.toNat → din'.HasAddrs din'.size.toNat
  mapped : 0 < n → ∀ bn : Fin maxfile, off < (bn + 1) * bsize → bn * bsize < off + n →
    slot S (update D i din') d' (.data i bn) ≠ 0
  grows : ∀ P, slot S D d P ≠ 0 → slot S (update D i din') d' P = slot S D d P
  kept : ∀ j (bn : Fin maxfile), (j = i → off + n ≤ bn * bsize) →
    slot S (update D i din') d' (.data j bn) = slot S D d (.data j bn)
  others : ∀ j, j < S.ninodes → j ≠ i → dinode S d' j = dinode S d j
  stored : dinode S d' i = din' ∨ dinode S d' i = dinode S d i ∧ din'.size = (D i).size ∧
    ((D i).HasAddrs (D i).size.toNat → din' = D i)

/-- **`writei`** fails just when the offset is behind the end, the range wraps or
ends behind the largest file, and changes nothing then. -/
theorem writei_spec (hok : BlocksOK S D d) (hi : Allocated S D i)
    {src : Nat → UInt8} {r : Option UInt32} {din' : Dinode}
    (h : writei S d i (D i) src off n = .ok (r, d', din')) :
    if (D i).size.toNat < off.toNat ∨ 2 ^ 32 ≤ off.toNat + n.toNat ∨
        maxfile * bsize < off.toNat + n.toNat then
      r = none ∧ d' = d ∧ din' = D i
    else r = some n ∧ Written S D d i off.toNat n.toNat src d' din' := by
  unfold writei at h
  split at h
  · cases h
  split at h
  · rename_i hout
    cases h
    rw [if_pos ((outside_iff.mp hout).imp_right .inl)]
    exact ⟨rfl, rfl, rfl⟩
  · rename_i hout
    have hin := mt outside_iff.mpr hout
    have hadd := toNat_add_of_inside hin
    rw [hadd] at h
    split at h
    · rename_i hbig
      cases h
      rw [if_pos (.inr (.inr hbig))]
      exact ⟨rfl, rfl, rfl⟩
    · rename_i hbig
      rw [if_neg (by omega)]
      obtain ⟨⟨d₁, din₁, src'⟩, hloop, hrest⟩ := bind_ok h
      have hup := writeLoop_spec hok hi (Nat.le_of_not_lt hbig) hloop
      have hattrs := hup.attrs
      rw [update_self] at hattrs
      have hsize₁ : din₁.size = (D i).size := by rw [hattrs]
      have hpos : n > 0 ↔ 0 < n.toNat := UInt32.lt_iff_toNat_lt
      have hothers : ∀ j, j < S.ninodes → dinode S d₁ j = dinode S d j := fun j hj =>
        dinode_congr hj hup.inodes
      simp only at hrest
      split at hrest
      · -- the file has grown: the inode goes to the disk
        rename_i hgrow
        cases hrest
        have hlt : (D i).size.toNat < off.toNat + n.toNat := by
          rw [← hadd, ← hsize₁]
          exact UInt32.lt_iff_toNat_lt.mp hgrow.2
        have hn : 0 < n.toNat := hpos.mp hgrow.1
        obtain ⟨hslot, hok', hbytes⟩ := iupdate_keeps hup.ok hi.2.1
          (slot_update_attrs (i := i)
            (by rw [update_self] : ({ din₁ with size := off + n } : Dinode).type = _)
            (by rw [update_self]))
        rw [update_idem] at hslot hok' hbytes
        refine ⟨rfl, hok', fun j x => (hbytes j x).trans (hup.bytes j x), ?_, ?_, fun hall => ?_,
          fun _ => by rw [hslot]; exact hup.mapped (by omega), by rw [hslot]; exact hup.grows,
          by rw [hslot]; exact hup.kept, fun j hj hji => ?_, .inl ?_⟩
        · rw [hattrs]
        · change (off + n).toNat = _
          rw [hadd, if_neg (Nat.ne_of_gt hn)]
          omega
        · have := hup.hasAddrs hi (by omega) (by omega) hall
          rw [update_self] at this
          exact this.mono (by rw [hadd]; omega)
        · rw [dinode_iupdate, update_of_ne hji, hothers j hj]
        · rw [dinode_iupdate, update_self]
      · rename_i hgrow
        cases hrest
        have hle : n.toNat = 0 ∨ off.toNat + n.toNat ≤ (D i).size.toNat := by
          rw [hpos, gt_iff_lt, UInt32.lt_iff_toNat_lt, hadd, hsize₁] at hgrow
          omega
        have hkept : (D i).HasAddrs (D i).size.toNat → din' = D i := by
          intro hall
          have := hup.stored (hall.mono (by omega))
          rwa [update_self] at this
        refine ⟨rfl, hup.ok, hup.bytes, ?_, ?_, fun hall => ?_, fun hn => hup.mapped (by omega),
          hup.grows, hup.kept, fun j hj _ => hothers j hj,
          .inr ⟨hothers i hi.2.1, hsize₁, hkept⟩⟩
        · rw [hsize₁, hattrs]
        · rw [hsize₁]
          split <;> omega
        · rw [hkept hall]
          exact hall

end Spec

/-! ## §5  Enough free blocks -/

section Total

variable {S : Superblock} {D : Nat → Dinode} {d d' : Disk} {i off n : Nat}

/-- The blocks that `n` bytes from `off` on touch and the file does not have. -/
def missing (d : Disk) (din : Dinode) (off n : Nat) : Finset Nat :=
  (Finset.range maxfile).filter fun bn =>
    0 < n ∧ off / bsize ≤ bn ∧ bn * bsize < off + n ∧ blockOf d din bn = 0

/-- The blocks a range needs: those it lacks, and the indirect block. -/
def rangeNeeds (d : Disk) (din : Dinode) (off n : Nat) : Nat :=
  (missing d din off n).card +
    if 0 < n ∧ ndirect * bsize < off + n ∧ din.addrs indirectIdx = 0 then 1 else 0

theorem mem_missing {din : Dinode} {bn : Nat} : bn ∈ missing d din off n ↔
    bn < maxfile ∧ 0 < n ∧ off / bsize ≤ bn ∧ bn * bsize < off + n ∧ blockOf d din bn = 0 := by
  rw [missing, Finset.mem_filter, Finset.mem_range]

/-- The two parts of what `bmap` needs. -/
theorem bmapNeeds_le (din : Dinode) (bn : Nat) : bmapNeeds d din bn ≤
    (if blockOf d din bn = 0 then 1 else 0) +
      if ndirect ≤ bn ∧ din.addrs indirectIdx = 0 then 1 else 0 := by
  simp only [bmapNeeds]
  split
  · exact Nat.zero_le _
  · rename_i hzero
    rw [if_pos (not_not.mp hzero)]
    split
    · exact Nat.le_add_right ..
    · rename_i hge
      split
      · rename_i hnone
        rw [if_pos ⟨Nat.le_of_not_lt hge, hnone⟩]
      · exact Nat.le_add_right ..

theorem card_erase_missing (hn : 0 < n) (hmax : off + n ≤ maxfile * bsize) (din : Dinode) :
    ((missing d din off n).erase (off / bsize)).card +
      (if blockOf d din (off / bsize) = 0 then 1 else 0) ≤ (missing d din off n).card := by
  split
  · rename_i hzero
    refine Nat.le_of_eq (Finset.card_erase_add_one (mem_missing.mpr ⟨block_lt hn hmax, hn,
      Nat.le_refl _, ?_, hzero⟩))
    exact Nat.lt_of_le_of_lt (Nat.div_mul_le_self ..) (Nat.lt_add_of_pos_right hn)
  · rw [Nat.add_zero]
    exact Finset.card_erase_le

theorem indirect_needed (hn : 0 < n) (h : ndirect ≤ off / bsize) : ndirect * bsize < off + n := by
  have := Nat.mul_le_of_le_div bsize ndirect off h
  omega

theorem bmapNeeds_le_rangeNeeds (hn : 0 < n) (hmax : off + n ≤ maxfile * bsize) (din : Dinode) :
    bmapNeeds d din (off / bsize) ≤ rangeNeeds d din off n := by
  have hneeds := bmapNeeds_le (d := d) din (off / bsize)
  have herase := card_erase_missing (d := d) hn hmax din
  have hindirect : (if ndirect ≤ off / bsize ∧ din.addrs indirectIdx = 0 then 1 else 0) ≤
      if 0 < n ∧ ndirect * bsize < off + n ∧ din.addrs indirectIdx = 0 then 1 else 0 := by
    split
    · rename_i h
      rw [if_pos ⟨hn, indirect_needed hn h.1, h.2⟩]
    · exact Nat.zero_le _
  rw [rangeNeeds]
  omega

/-- One round uses up what its block needs. -/
theorem rangeNeeds_step (hi : Allocated S D i) (hn : 0 < n) (hmax : off + n ≤ maxfile * bsize)
    {b : Nat} {d₁ d₂ : Disk} {din₁ : Dinode}
    (hm : BlockMapped S D d i ⟨off / bsize, block_lt hn hmax⟩ b d₁ din₁)
    (hframe : ∀ c, c ≠ b → d₂ c = d₁ c) :
    rangeNeeds d₂ din₁ (off + chunk off n) (n - chunk off n) + bmapNeeds d (D i) (off / bsize) ≤
      rangeNeeds d (D i) off n := by
  have hi₁ : Allocated S (update D i din₁) i :=
    (allocated_update (by rw [hm.attrs]) i).mpr hi
  have hchunk : chunk off n = n ∨ off / bsize + 1 ≤ (off + chunk off n) / bsize := by
    simp only [chunk, bsize]
    omega
  have hle := chunk_le off n
  have hend : off + chunk off n + (n - chunk off n) = off + n := by omega
  -- what is missing now was missing before, and lies behind this block
  have hsub : missing d₂ din₁ (off + chunk off n) (n - chunk off n) ⊆
      (missing d (D i) off n).erase (off / bsize) := by
    intro bn hbn
    obtain ⟨hlt, hleft, hlo, hhi, hzero⟩ := mem_missing.mp hbn
    have hbehind : off / bsize < bn := by omega
    refine Finset.mem_erase.mpr ⟨Nat.ne_of_gt hbehind, mem_missing.mpr ⟨hlt, hn,
      Nat.le_of_lt hbehind, by omega, ?_⟩⟩
    have hother := hm.others (.data i ⟨bn, hlt⟩)
      (fun heq => Nat.ne_of_gt hbehind (by cases heq; rfl)) (by simp)
    rw [← (hm.overwrite hframe).1, slot_data hi₁, slot_data hi, update_self] at hother
    rw [← hother, hzero]
  have hcard := Finset.card_le_card hsub
  have hindirect : (if 0 < n - chunk off n ∧ ndirect * bsize < off + n ∧ din₁.addrs indirectIdx = 0
      then 1 else 0) + (if ndirect ≤ off / bsize ∧ (D i).addrs indirectIdx = 0 then 1 else 0) ≤
      if 0 < n ∧ ndirect * bsize < off + n ∧ (D i).addrs indirectIdx = 0 then 1 else 0 := by
    by_cases hdirect : off / bsize < ndirect
    · have hno : ¬ (ndirect ≤ off / bsize ∧ (D i).addrs indirectIdx = 0) := by omega
      rw [hm.kept hdirect, if_neg hno, Nat.add_zero]
      split
      · rename_i h
        rw [if_pos ⟨hn, h.2⟩]
      · exact Nat.zero_le _
    · have hge := Nat.le_of_not_lt hdirect
      rw [if_neg fun h => hm.indirect hge h.2.2, Nat.zero_add]
      split
      · rename_i h
        rw [if_pos ⟨hn, indirect_needed hn hge, h.2⟩]
      · exact Nat.zero_le _
  have hneeds := bmapNeeds_le (d := d) (D i) (off / bsize)
  have herase := card_erase_missing (d := d) hn hmax (D i)
  rw [rangeNeeds, rangeNeeds, hend]
  omega

/-- The loop comes to its end when the blocks it needs are free. -/
theorem eachBlock_total {α : Type} {body : Nat → Nat → Nat → Disk → α → Disk × α}
    (hbody : ∀ b o m d a c, c ≠ b → (body b o m d a).1 c = d c) :
    ∀ {fuel off n : Nat} {D : Nat → Dinode} {d : Disk} (a : α), n ≤ fuel →
      off + n ≤ maxfile * bsize → BlocksOK S D d → Allocated S D i →
      rangeNeeds d (D i) off n ≤ freeCount S d → ∃ r, eachBlock S body fuel off n d (D i) a = .ok r
  | 0, _, _, _, _, _, _, _, _, _, _ => ⟨_, rfl⟩
  | fuel + 1, off, n, D, d, a, hfuel, hmax, hok, hi, hfree => by
    rw [eachBlock]
    split
    · exact ⟨_, rfl⟩
    · rename_i hn
      have hn : 0 < n := Nat.pos_of_ne_zero hn
      obtain ⟨b, d₁, din₁, hb⟩ := bmap_total hok ⟨off / bsize, block_lt hn hmax⟩
        (Nat.le_trans (bmapNeeds_le_rangeNeeds hn hmax (D i)) hfree)
      have hm := bmap_spec hok hi ⟨off / bsize, block_lt hn hmax⟩ hb
      have hframe := hbody b (off % bsize) (chunk off n) d₁ a
      obtain ⟨-, hok₂, hbefore⟩ := hm.overwrite hframe
      have hstep := rangeNeeds_step hi hn hmax hm hframe
      have hcount := hm.count
      have hle := chunk_le off n
      have hpos := chunk_pos off hn
      have hfree₂ : freeCount S (body b (off % bsize) (chunk off n) d₁ a).1 = freeCount S d₁ :=
        freeCount_congr fun c _ hc => hbefore c hc
      have hfuel₂ : n - chunk off n ≤ fuel := by omega
      have hmax₂ : off + chunk off n + (n - chunk off n) ≤ maxfile * bsize := by omega
      obtain ⟨r, hr⟩ := eachBlock_total hbody
        (body b (off % bsize) (chunk off n) d₁ a).2 hfuel₂ hmax₂ hok₂
        ((allocated_update (by rw [hm.attrs]) i).mpr hi)
        (by rw [update_self, hfree₂]; simp only at hcount; omega)
      rw [update_self] at hr
      exact ⟨r, ok_bind hb hr⟩

theorem writeBody_frame (b o m : Nat) (d : Disk) (src : Nat → UInt8) (c : Nat) (hc : c ≠ b) :
    (writeBody b o m d src).1 c = d c := update_of_ne hc ..

/-- `readi` returns: it needs the blocks that the bytes it reads lack. -/
theorem readi_total (hok : BlocksOK S D d) (hi : Allocated S D i)
    (hdev : (D i).type ≠ tDev) (hsize : (D i).size.toNat ≤ maxfile * bsize) {off n : UInt32}
    (hfree : rangeNeeds d (D i) off.toNat (min n.toNat ((D i).size.toNat - off.toNat)) ≤
      freeCount S d) : ∃ r, readi S d (D i) off n = .ok r := by
  unfold readi
  rw [if_neg hdev]
  split
  · exact ⟨_, rfl⟩
  · rename_i hout
    have hin := mt outside_iff.mpr hout
    simp only [readLength hin]
    have hframe : ∀ b o m d a c, c ≠ b → (readBody b o m d a).1 c = d c := fun _ _ _ _ _ _ _ => rfl
    obtain ⟨r, hr⟩ := eachBlock_total hframe [] (Nat.le_refl _) (by omega) hok hi hfree
    rw [hr]
    exact ⟨_, rfl⟩

end Total

end Xv6.Fs
