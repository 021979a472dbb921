import Xv6.Fs.Blocks

/-!
# What `bmap` and `itrunc` do to the blocks of the files

`bmap` adds blocks to a file and changes no byte of any file (`bmap_spec`);
`itrunc` gives up all blocks of a file and touches no other (`itrunc_spec`).
Neither stops when the bitmap agrees with the block numbers stored, `bmap` as
long as there are free blocks.
-/

namespace Xv6.Fs

open Outcome Function

variable {S : Superblock} {D : Nat → Dinode} {d d' : Disk} {i : Nat}

/-! ## §1  Allocation -/

/-- Block `b` was free on `d`; on `d'` it is in use and holds zeros. -/
structure Fresh (S : Superblock) (d : Disk) (b : Nat) (d' : Disk) : Prop where
  free : bit S d b = false
  lt : b < S.size
  data : S.datastart ≤ b
  zero : d' b = fun _ => 0
  rest : ∀ c, S.datastart ≤ c → c ≠ b → d' c = d c
  inodes : ∀ c, c < S.bmapstart → d' c = d c
  bits : ∀ c, c < S.size → bit S d' c = (decide (c = b) || bit S d c)

variable {b bn : Nat}

theorem Fresh.word (h : Fresh S d b d') : b < 2 ^ 32 := by
  have := S.size_word
  have := h.lt
  omega

theorem freeBlock_some (h : freeBlock S d = some b) : bit S d b = false ∧ b < S.size := by
  refine ⟨by simpa using List.find?_some h, ?_⟩
  simpa using List.mem_of_find?_eq_some h

theorem balloc_fresh {m : Place → Nat} (hok : AllocOK S m (bit S d)) (h : balloc S d = .ok (b, d')) :
    Fresh S d b d' := by
  unfold balloc at h
  split at h
  · rename_i hfree
    cases h
    obtain ⟨hbit, hlt⟩ := freeBlock_some hfree
    have hdata := hok.free_data hbit
    have hb := S.bblock_lt hlt
    have hstart := S.bmapstart_lt_datastart
    refine ⟨hbit, hlt, hdata, update_self .., fun c hc hcb => ?_, fun c hc => ?_,
      fun c hc => ?_⟩
    · rw [update_of_ne hcb, setBit, update_of_ne (by omega)]
    · have := S.bmapstart_le_bblock b
      rw [update_of_ne (by omega), setBit, update_of_ne (by omega)]
    · rw [← bit_setBit]
      exact bit_congr hc fun x _ hx => update_of_ne (by omega) ..
  · cases h

theorem balloc_total (hb : b < S.size) (hfree : bit S d b = false) :
    ∃ r, balloc S d = .ok r := by
  unfold balloc
  cases hf : freeBlock S d with
  | some c => exact ⟨_, rfl⟩
  | none =>
    have := List.find?_eq_none.mp hf b (List.mem_range.mpr hb)
    simp [hfree] at this

/-- The number of free blocks. -/
def freeCount (S : Superblock) (d : Disk) : Nat :=
  ((Finset.range S.size).filter fun b => bit S d b = false).card

theorem freeCount_congr (h : ∀ c, S.bmapstart ≤ c → c < S.datastart → d' c = d c) :
    freeCount S d' = freeCount S d := by
  rw [freeCount, freeCount]
  refine congrArg _ (Finset.filter_congr fun b hb => ?_)
  rw [bit_congr (Finset.mem_range.mp hb) h]

theorem Fresh.freeCount (h : Fresh S d b d') : freeCount S d' + 1 = freeCount S d := by
  have hset : (Finset.range S.size).filter (fun c => bit S d' c = false) =
      ((Finset.range S.size).filter fun c => bit S d c = false).erase b := by
    ext c
    rw [Finset.mem_erase, Finset.mem_filter, Finset.mem_filter, Finset.mem_range]
    constructor
    · rintro ⟨hc, hbit⟩
      rw [h.bits c hc, Bool.or_eq_false_iff, decide_eq_false_iff_not] at hbit
      exact ⟨hbit.1, hc, hbit.2⟩
    · rintro ⟨hne, hc, hbit⟩
      rw [h.bits c hc, hbit]
      simp [hne, hc]
  have hmem : b ∈ (Finset.range S.size).filter fun c => bit S d c = false :=
    Finset.mem_filter.mpr ⟨Finset.mem_range.mpr h.lt, h.free⟩
  rw [Fs.freeCount, hset]
  exact Finset.card_erase_add_one hmem

theorem balloc_of_free (h : 1 ≤ freeCount S d) : ∃ r, balloc S d = .ok r := by
  obtain ⟨b, hb⟩ := Finset.card_pos.mp h
  rw [Finset.mem_filter, Finset.mem_range] at hb
  exact balloc_total hb.1 hb.2

/-- From table `D` and disk `d` to `D'` and `d'` the files get blocks, and no
byte changes. -/
structure Grown (S : Superblock) (D : Nat → Dinode) (d : Disk) (D' : Nat → Dinode) (d' : Disk) :
    Prop where
  ok : AllocOK S (slot S D' d') (bit S d')
  grows : ∀ P, slot S D d P ≠ 0 → slot S D' d' P = slot S D d P
  bytes : ∀ j x, byteAt (slot S D' d') d' j x = byteAt (slot S D d) d j x
  inodes : ∀ c, c < S.bmapstart → d' c = d c

theorem Grown.refl (h : BlocksOK S D d) : Grown S D d D d :=
  ⟨h, fun _ _ => rfl, fun _ _ => rfl, fun _ _ => rfl⟩

theorem Grown.trans {D₁ D₂ : Nat → Dinode} {d₁ d₂ : Disk} (h₁ : Grown S D d D₁ d₁)
    (h₂ : Grown S D₁ d₁ D₂ d₂) : Grown S D d D₂ d₂ where
  ok := h₂.ok
  grows P hP := by
    have hP₁ := h₁.grows P hP
    rw [h₂.grows P (hP₁ ▸ hP), hP₁]
  bytes j x := (h₂.bytes j x).trans (h₁.bytes j x)
  inodes c hc := (h₂.inodes c hc).trans (h₁.inodes c hc)

/-- A fresh block is nobody's, so what is stored is as before. -/
theorem Fresh.keeps {m : Place → Nat} (hf : Fresh S d b d') (hok : AllocOK S m (bit S d))
    (P : Place) (hP : m P ≠ 0) : d' (m P) = d (m P) :=
  hf.rest _ (hok.data P hP).1 (hok.free_unowned hf.free hf.lt P)

theorem Fresh.slot_eq (hf : Fresh S d b d') (hok : BlocksOK S D d) :
    slot S D d' = slot S D d :=
  KeepsIndirect.slot fun j hj => hf.keeps hok (.indirect j) hj

/-- A fresh block is stored at an empty place. -/
theorem Fresh.grown {d₁ : Disk} (hf : Fresh S d b d₁) (hok : BlocksOK S D d)
    {P : Place} (hP : slot S D d P = 0) {D' : Nat → Dinode}
    (hslot : slot S D' d' = update (slot S D d) P b)
    (hsame : ∀ c, c < S.datastart → d' c = d₁ c) (hzero : d' b = fun _ => 0)
    (hdata : ∀ j bn, slot S D d (.data j bn) ≠ 0 →
      d' (slot S D d (.data j bn)) = d (slot S D d (.data j bn))) : Grown S D d D' d' := by
  have hstart := S.bmapstart_lt_datastart
  refine ⟨?_, fun Q hQ => ?_, fun j x => ?_, fun c hc => ?_⟩
  · rw [hslot]
    refine (hok.add hP hf.free hf.lt).congr_bit fun c hc => ?_
    rw [← hf.bits c hc]
    exact bit_congr hc fun x _ hx => hsame x hx
  · have hQP : Q ≠ P := by
      rintro rfl
      exact hQ hP
    rw [hslot, update_of_ne hQP]
  · rw [hslot]
    exact byteAt_add hP hzero hdata j x
  · rw [hsame c (by omega), hf.inodes c hc]

/-- A direct address is allocated. -/
theorem Fresh.setDirect {k : Nat} (hf : Fresh S d b d') (hok : BlocksOK S D d)
    (hi : Allocated S D i) (hk : k < ndirect) (hnone : (D i).addrs ⟨k, Nat.lt_succ_of_lt hk⟩ = 0) :
    Grown S D d (update D i ((D i).setAddr ⟨k, Nat.lt_succ_of_lt hk⟩ b)) d' ∧
      slot S (update D i ((D i).setAddr ⟨k, Nat.lt_succ_of_lt hk⟩ b)) d' =
        update (slot S D d) (.data i (directBn hk)) b := by
  have hslot : slot S (update D i ((D i).setAddr ⟨k, Nat.lt_succ_of_lt hk⟩ b)) d' =
      update (slot S D d) (.data i (directBn hk)) b := by
    rw [slot_setDirect hi hk hf.word, hf.slot_eq hok]
  refine ⟨hf.grown hok ?_ hslot (fun _ _ => rfl) hf.zero fun j bn => hf.keeps hok _, hslot⟩
  have hk' : (directBn hk : Nat) < ndirect := hk
  rw [slot_data hi, blockOf, dif_pos hk']
  change ((D i).addrs ⟨k, _⟩).toNat = 0
  rw [hnone]
  rfl

/-- The indirect block is allocated. -/
theorem Fresh.setIndirect (hf : Fresh S d b d') (hok : BlocksOK S D d)
    (hi : Allocated S D i) (hnone : (D i).addrs indirectIdx = 0) :
    Grown S D d (update D i ((D i).setAddr indirectIdx b)) d' ∧
      slot S (update D i ((D i).setAddr indirectIdx b)) d' =
        update (slot S D d) (.indirect i) b := by
  have hslot : slot S (update D i ((D i).setAddr indirectIdx b)) d' =
      update (slot S D d) (.indirect i) b := by
    rw [slot_setIndirect hi hnone hf.word hf.zero, hf.slot_eq hok]
  refine ⟨hf.grown hok ?_ hslot (fun _ _ => rfl) hf.zero fun j bn => hf.keeps hok _, hslot⟩
  rw [slot_indirect hi, hnone]
  rfl

/-- A block in the indirect block is allocated. -/
theorem Fresh.setEntry {j : Nat} (hf : Fresh S d b d') (hok : BlocksOK S D d)
    (hi : Allocated S D i) (hind : slot S D d (.indirect i) ≠ 0) (hj : j < nindirect)
    (hnone : slot S D d (.data i (entryBn hj)) = 0) :
    Grown S D d D (update d' (slot S D d (.indirect i))
        (setEntry (d' (slot S D d (.indirect i))) j b)) ∧
      slot S D (update d' (slot S D d (.indirect i))
        (Fs.setEntry (d' (slot S D d (.indirect i))) j b)) =
        update (slot S D d) (.data i (entryBn hj)) b := by
  have hslot' := hf.slot_eq hok
  have hok' : AllocOK S (slot S D d') (bit S d) := by rwa [hslot']
  have hslot := slot_setEntry (d := d') (b := b) hi hok' (by rwa [hslot']) hj hf.word
  rw [hslot'] at hslot
  have hdata := (hok.data _ hind).1
  refine ⟨hf.grown hok hnone hslot (fun c hc => update_of_ne (by omega) ..) ?_
    fun l bn hbn => ?_, hslot⟩
  · rw [update_of_ne (hok.free_unowned hf.free hf.lt _).symm, hf.zero]
  · -- the indirect block holds no bytes of a file
    have hne : slot S D d (.data l bn) ≠ slot S D d (.indirect i) := fun heq => by
      cases hok.once _ _ hbn heq
    rw [update_of_ne hne, hf.keeps hok _ hbn]

/-! ## §2  `bmap` -/

/-- A block the file has is found, and nothing changes. -/
theorem bmap_mapped {din : Dinode} (hbn : bn < maxfile) (h : blockOf d din bn ≠ 0) :
    bmap S d din bn = .ok (blockOf d din bn, d, din) := by
  unfold blockOf at h ⊢
  unfold bmap
  split at h
  · rename_i hlt
    rw [dif_pos hlt, dif_pos hlt, if_neg fun heq => h (by rw [heq]; rfl)]
    rfl
  · rename_i hlt
    split at h
    · exact absurd rfl h
    · rename_i hind
      have hj : bn - ndirect < nindirect := by
        simp only [maxfile] at hbn
        omega
      rw [dif_neg hlt, dif_neg hlt, if_pos hj, if_neg hind, bmapIndirect, if_neg hind]
      simp only [pure, Except.pure, bind, Except.bind, if_neg h]

/-- The blocks `bmap` has to allocate. -/
def bmapNeeds (d : Disk) (din : Dinode) (bn : Nat) : Nat :=
  if blockOf d din bn ≠ 0 then 0
  else if bn < ndirect then 1
  else if din.addrs indirectIdx = 0 then 2
  else 1

/-- The address in the inode that leads to block `bn`. -/
def addrIdx (bn : Nat) : Fin (ndirect + 1) := ⟨min bn ndirect, by omega⟩

theorem addrIdx_direct (h : bn < ndirect) : addrIdx bn = ⟨bn, Nat.lt_succ_of_lt h⟩ :=
  Fin.ext (Nat.min_eq_left (Nat.le_of_lt h))

theorem addrIdx_indirect (h : ¬ bn < ndirect) : addrIdx bn = indirectIdx :=
  Fin.ext (Nat.min_eq_right (Nat.le_of_not_lt h))

/-- After `bmap`: block `bn` of file `i` is `b`, and nothing else has changed but
that the file may have an indirect block now. -/
structure BlockMapped (S : Superblock) (D : Nat → Dinode) (d : Disk) (i : Nat) (bn : Fin maxfile)
    (b : Nat) (d' : Disk) (din' : Dinode) : Prop where
  grown : Grown S D d (update D i din') d'
  block : slot S (update D i din') d' (.data i bn) = b
  pos : b ≠ 0
  attrs : din' = { D i with addrs := din'.addrs }
  others : ∀ P, P ≠ .data i bn → P ≠ .indirect i →
    slot S (update D i din') d' P = slot S D d P
  indirect : ndirect ≤ (bn : Nat) → din'.addrs indirectIdx ≠ 0
  kept : (bn : Nat) < ndirect → din'.addrs indirectIdx = (D i).addrs indirectIdx
  stored : (D i).addrs (addrIdx bn) ≠ 0 → din' = D i
  count : freeCount S d' + bmapNeeds d (D i) bn = freeCount S d

/-- The first half of `bmap` behind the direct blocks. -/
theorem bmapIndirect_spec (hok : BlocksOK S D d) (hi : Allocated S D i) {ind : Nat}
    {din' : Dinode} (h : bmapIndirect S d (D i) = .ok (ind, d', din')) :
    Grown S D d (update D i din') d' ∧
      slot S (update D i din') d' (.indirect i) = ind ∧ ind ≠ 0 ∧
      din' = { D i with addrs := din'.addrs } ∧
      (∀ P, P ≠ .indirect i → slot S (update D i din') d' P = slot S D d P) ∧
      ((D i).addrs indirectIdx ≠ 0 → din' = D i) ∧
      freeCount S d' + (if (D i).addrs indirectIdx = 0 then 1 else 0) = freeCount S d := by
  unfold bmapIndirect at h
  split at h
  · rename_i hnone
    obtain ⟨⟨b₁, d₁⟩, hb, hrest⟩ := bind_ok h
    cases hrest
    have hf := balloc_fresh hok hb
    obtain ⟨hgrown, hslot⟩ := hf.setIndirect hok hi hnone
    have hpos := S.datastart_pos
    have hdata := hf.data
    rw [if_pos hnone]
    refine ⟨hgrown, by rw [hslot, update_self], by omega, rfl, fun P hP => ?_,
      fun hne => absurd hnone hne, hf.freeCount⟩
    rw [hslot, update_of_ne hP]
  · rename_i hne
    cases h
    rw [update_eq_self, if_neg hne]
    exact ⟨.refl hok, slot_indirect hi, fun heq => hne (UInt32.toNat_inj.mp heq), rfl,
      fun _ _ => rfl, fun _ => rfl, rfl⟩

/-- Behind it, the entries of the indirect block are the file's other blocks. -/
theorem bmapIndirect_entry (hok : BlocksOK S D d) (hi : Allocated S D i) {ind : Nat}
    {din' : Dinode} (h : bmapIndirect S d (D i) = .ok (ind, d', din')) :
    Allocated S (update D i din') i ∧ (din'.addrs indirectIdx).toNat = ind ∧
      S.datastart ≤ ind ∧ ∀ bn : Fin maxfile, ¬ bn < ndirect →
        entry (d' ind) (bn - ndirect) = blockOf d (D i) bn := by
  obtain ⟨hgrown, hslot, hne, hattrs, hothers, -⟩ := bmapIndirect_spec hok hi h
  have hi' : Allocated S (update D i din') i := (allocated_update (by rw [hattrs]) i).mpr hi
  have hind : (din'.addrs indirectIdx).toNat = ind := by
    rw [← hslot, slot_indirect hi', update_self]
  refine ⟨hi', hind, hslot ▸ (hgrown.ok.data _ (by rwa [hslot])).1, fun bn hk => ?_⟩
  have hother := hothers (.data i bn) (by simp)
  rw [slot_data hi', slot_data hi, update_self] at hother
  rw [← hother, blockOf, dif_neg hk, hind, if_neg]
  exact fun heq => hne (by rw [← hind, heq]; rfl)

theorem bmapNeeds_direct {din : Dinode} {k : Nat} (hk : k < ndirect)
    (hnone : din.addrs ⟨k, Nat.lt_succ_of_lt hk⟩ = 0) : bmapNeeds d din k = 1 := by
  rw [bmapNeeds, blockOf, dif_pos hk, hnone, if_pos hk]
  rfl

theorem bmapNeeds_mapped {din : Dinode} (h : blockOf d din bn ≠ 0) :
    bmapNeeds d din bn = 0 := if_pos h

/-- `bmap` finds or makes a block. -/
theorem bmap_spec (hok : BlocksOK S D d) (hi : Allocated S D i) (bn : Fin maxfile)
    {din' : Dinode} (h : bmap S d (D i) bn = .ok (b, d', din')) :
    BlockMapped S D d i bn b d' din' := by
  have hpos := S.datastart_pos
  by_cases hmapped : blockOf d (D i) bn ≠ 0
  · rw [bmap_mapped bn.isLt hmapped] at h
    cases h
    refine { grown := ?_, block := ?_, pos := hmapped, attrs := rfl, others := fun P _ _ => ?_,
             indirect := fun hbn heq => hmapped ?_, kept := fun _ => rfl,
             stored := fun _ => rfl, count := ?_ }
    · rw [update_eq_self]
      exact .refl hok
    · rw [update_eq_self, slot_data hi]
    · rw [update_eq_self]
    · rw [blockOf, dif_neg (by omega), if_pos heq]
    · rw [bmapNeeds_mapped hmapped, Nat.add_zero]
  · rw [not_not] at hmapped
    unfold bmap at h
    split at h
    · rename_i hk
      have hnone : (D i).addrs ⟨bn, Nat.lt_succ_of_lt hk⟩ = 0 := by
        rw [blockOf, dif_pos hk] at hmapped
        exact UInt32.toNat_inj.mp hmapped
      simp only [if_pos hnone] at h
      obtain ⟨⟨b₁, d₁⟩, hb, hrest⟩ := bind_ok h
      cases hrest
      have hf := balloc_fresh hok hb
      obtain ⟨hgrown, hslot⟩ := hf.setDirect hok hi hk hnone
      have hdata := hf.data
      refine { grown := hgrown, block := ?_, pos := by omega, attrs := rfl, others := fun P hP _ => ?_,
               indirect := fun hbn => absurd hk (by omega), kept := fun _ => ?_,
               stored := fun hne => absurd (addrIdx_direct hk ▸ hnone) hne, count := ?_ }
      · rw [hslot]
        exact update_self ..
      · rw [hslot]
        exact update_of_ne hP ..
      · exact Dinode.setAddr_of_ne (fun heq => Nat.ne_of_gt hk (congrArg Fin.val heq)) ..
      · rw [bmapNeeds_direct hk hnone]
        exact hf.freeCount
    · rename_i hk
      split at h
      · rename_i hj
        obtain ⟨⟨ind, d₁, din₁⟩, hbi, h⟩ := bind_ok h
        obtain ⟨hgrown, hslot, hne, hattrs, hothers, hsame₁, hcount⟩ := bmapIndirect_spec hok hi hbi
        obtain ⟨hi₁, hind, hdata₁, hentry⟩ := bmapIndirect_entry hok hi hbi
        have hbn : bn = entryBn hj := Fin.ext (by
          change (bn : Nat) = ndirect + (bn - ndirect)
          omega)
        have hzero : slot S (update D i din₁) d₁ (.data i bn) = 0 := by
          rw [hothers _ (by simp), slot_data hi, hmapped]
        simp only [if_pos ((hentry bn hk).trans hmapped)] at h
        obtain ⟨⟨b₁, d₂⟩, hb, hrest⟩ := bind_ok h
        cases hrest
        have hf := balloc_fresh hgrown.ok hb
        obtain ⟨hgrown', hslot'⟩ := hf.setEntry (j := bn - ndirect) hgrown.ok hi₁
          (by rw [hslot]; exact hne) hj (by rw [← hbn]; exact hzero)
        rw [hslot] at hgrown' hslot'
        rw [← hbn] at hslot'
        have hdata := hf.data
        have hcount' := hf.freeCount
        have hsame : freeCount S (update d₂ ind (setEntry (d₂ ind) (bn - ndirect) b₁)) =
            freeCount S d₂ := freeCount_congr fun c _ hc => update_of_ne (by omega) ..
        refine { grown := hgrown.trans hgrown', block := ?_, pos := by omega, attrs := hattrs,
                 others := fun P hP hPi => ?_, indirect := fun _ heq => hne ?_,
                 kept := fun hlt => absurd hlt hk,
                 stored := fun hne => hsame₁ (addrIdx_indirect hk ▸ hne), count := ?_ }
        · rw [hslot']
          exact update_self ..
        · rw [hslot', update_of_ne hP, hothers P hPi]
        · rw [← hind, heq]
          rfl
        · rw [bmapNeeds, if_neg (not_not.mpr hmapped), if_neg hk]
          change freeCount S (update d₂ ind (setEntry (d₂ ind) (bn - ndirect) b₁)) + _ = _
          rw [hsame]
          split at hcount <;> rename_i hz
          · rw [if_pos hz]
            omega
          · rw [if_neg hz]
            omega
      · cases h

/-- `bmap` returns as long as there are free blocks. -/
theorem bmap_total (hok : BlocksOK S D d) (bn : Fin maxfile)
    (hfree : bmapNeeds d (D i) bn ≤ freeCount S d) :
    ∃ b d' din', bmap S d (D i) bn = .ok (b, d', din') := by
  by_cases hmapped : blockOf d (D i) bn ≠ 0
  · exact ⟨_, _, _, bmap_mapped bn.isLt hmapped⟩
  · rw [bmapNeeds, if_neg hmapped] at hfree
    unfold bmap
    split
    · rename_i hk
      rw [if_pos hk] at hfree
      simp only
      split
      · obtain ⟨r, hr⟩ := balloc_of_free hfree
        rw [hr]
        exact ⟨_, _, _, rfl⟩
      · exact ⟨_, _, _, rfl⟩
    · rename_i hk
      rw [if_neg hk] at hfree
      have hj : (bn : Nat) - ndirect < nindirect := by
        have := bn.isLt
        simp only [maxfile] at this
        omega
      rw [if_pos hj]
      obtain ⟨ind, d₁, din₁, hbi, hleft⟩ : ∃ ind d₁ din₁,
          bmapIndirect S d (D i) = .ok (ind, d₁, din₁) ∧ 1 ≤ freeCount S d₁ := by
        by_cases hnone : (D i).addrs indirectIdx = 0
        · rw [if_pos hnone] at hfree
          obtain ⟨⟨b, d₁⟩, hr⟩ := balloc_of_free (S := S) (d := d) (by omega)
          have hcount := (balloc_fresh hok hr).freeCount
          refine ⟨b, d₁, (D i).setAddr indirectIdx b, ?_, by omega⟩
          rw [bmapIndirect, if_pos hnone, hr]
          rfl
        · rw [if_neg hnone] at hfree
          exact ⟨_, _, _, by rw [bmapIndirect, if_neg hnone]; rfl, hfree⟩
      rw [hbi]
      simp only [bind, Except.bind]
      split
      · obtain ⟨r, hr⟩ := balloc_of_free hleft
        rw [hr]
        exact ⟨_, _, _, rfl⟩
      · exact ⟨_, _, _, rfl⟩

/-! ## §3  `itrunc` -/

/-- A block that is stored is freed. -/
theorem bfree_spec {m : Place → Nat} (hok : AllocOK S m (bit S d)) {P : Place} (hP : m P ≠ 0) :
    ∃ d', bfree S d (m P) = .ok d' ∧ AllocOK S (update m P 0) (bit S d') ∧
      (∀ c, S.datastart ≤ c → d' c = d c) ∧ (∀ c, c < S.bmapstart → d' c = d c) := by
  have hlt := (hok.data P hP).2
  refine ⟨clearBit S d (m P), ?_, ?_, fun c hc => ?_, fun c hc => ?_⟩
  · rw [bfree, if_pos (hok.bit_of_stored hP)]
  · exact (hok.remove hP).congr_bit fun c _ => bit_clearBit ..
  · have := S.bblock_lt hlt
    exact update_of_ne (by omega) ..
  · have := S.bmapstart_le_bblock (m P)
    exact update_of_ne (by omega) ..

/-- The direct blocks are given up one after the other. -/
theorem freeDirects_spec (hi : Allocated S D i) : ∀ (ks : List (Fin ndirect)) {d : Disk}
    {din : Dinode}, din.type = (D i).type →
    BlocksOK S (update D i din) d →
    ∃ d' din', (ks.map Fin.castSucc).foldlM (freeDirect S) (d, din) = .ok (d', din') ∧
      BlocksOK S (update D i din') d' ∧
      (∀ c, S.datastart ≤ c → d' c = d c) ∧ (∀ c, c < S.bmapstart → d' c = d c) ∧
      din' = { din with addrs := din'.addrs } ∧
      (∀ k ∈ ks, din'.addrs k.castSucc = 0) ∧
      (∀ k : Fin (ndirect + 1), (∀ j ∈ ks, k ≠ j.castSucc) → din'.addrs k = din.addrs k) ∧
      (∀ k, din.addrs k = 0 → din'.addrs k = 0)
  | [], d, din, _, hok =>
    ⟨d, din, rfl, hok, fun _ _ => rfl, fun _ _ => rfl, rfl, by simp, fun _ _ => rfl, fun _ h => h⟩
  | k :: ks, d, din, htype, hok => by
    have hi' : Allocated S (update D i din) i := (allocated_update htype i).mpr hi
    have hk : (k.castSucc : Fin (ndirect + 1)) = ⟨k, Nat.lt_succ_of_lt k.isLt⟩ := rfl
    -- one round
    obtain ⟨d₁, hround, hok₁, hdata₁, hin₁⟩ : ∃ d₁,
        freeDirect S (d, din) k.castSucc = .ok (d₁, din.setAddr k.castSucc 0) ∧
        AllocOK S (slot S (update D i (din.setAddr k.castSucc 0)) d₁) (bit S d₁) ∧
        (∀ c, S.datastart ≤ c → d₁ c = d c) ∧ (∀ c, c < S.bmapstart → d₁ c = d c) := by
      have hslot := slot_setDirect (d := d) hi' k.isLt (b := 0) (by decide)
      rw [update_self, update_idem] at hslot
      have hval : slot S (update D i din) d (.data i (directBn k.isLt)) =
          (din.addrs k.castSucc).toNat := by
        have hk' : (directBn k.isLt : Nat) < ndirect := k.isLt
        rw [slot_data hi', update_self, blockOf, dif_pos hk']
        rfl
      by_cases hzero : din.addrs k.castSucc = 0
      · refine ⟨d, ?_, ?_, fun _ _ => rfl, fun _ _ => rfl⟩
        · have hsame : din.setAddr k.castSucc 0 = din := by
            rw [Dinode.setAddr, Dinode.mk.injEq]
            refine ⟨rfl, rfl, rfl, rfl, rfl, ?_⟩
            rw [show UInt32.ofNat 0 = din.addrs k.castSucc from hzero.symm]
            exact update_eq_self ..
          rw [freeDirect, if_pos hzero, hsame]
        · rw [hk, hslot, update_eq_self_iff.mpr]
          · exact hok
          · rw [hval, hzero]
            rfl
      · obtain ⟨d₁, hfree, hok₁, hdata₁, hin₁⟩ := bfree_spec hok
          (P := .data i (directBn k.isLt))
          (by rw [hval]; exact fun heq => hzero (UInt32.toNat_inj.mp heq))
        refine ⟨d₁, ?_, ?_, hdata₁, hin₁⟩
        · rw [hval] at hfree
          rw [freeDirect, if_neg hzero, hfree]
          rfl
        · have hkeep : slot S (update D i (din.setAddr k.castSucc 0)) d₁ =
              slot S (update D i (din.setAddr k.castSucc 0)) d := by
            refine KeepsIndirect.slot fun j hj => hdata₁ _ ?_
            rw [hk, hslot] at hj ⊢
            rw [update_of_ne (by simp)] at hj ⊢
            exact (hok.data _ hj).1
          rw [hkeep, hk, hslot]
          exact hok₁
    obtain ⟨d', din', hrest, hok', hdata, hin, hattrs, hdone, hother, hz⟩ :=
      freeDirects_spec hi ks (show (din.setAddr k.castSucc 0).type = (D i).type from htype) hok₁
    refine ⟨d', din', ?_, hok', fun c hc => (hdata c hc).trans (hdata₁ c hc),
      fun c hc => (hin c hc).trans (hin₁ c hc), hattrs, fun j hj => ?_, fun j hj => ?_,
      fun j hj => hz j ?_⟩
    · rw [List.map_cons, List.foldlM_cons, hround]
      exact hrest
    · rcases List.mem_cons.mp hj with rfl | hj
      · exact hz _ (Dinode.setAddr_self ..)
      · exact hdone j hj
    · rw [hother j fun l hl => hj l (List.mem_cons_of_mem _ hl)]
      exact Dinode.setAddr_of_ne (hj k (List.mem_cons_self ..)) ..
    · by_cases hjk : j = k.castSucc
      · rw [hjk]
        exact Dinode.setAddr_self ..
      · rw [Dinode.setAddr_of_ne hjk]
        exact hj

/-- The block numbers stored, without the first `n` of the indirect block. -/
def dropEntries (m : Place → Nat) (i n : Nat) : Place → Nat
  | .data j bn => if j = i ∧ ndirect ≤ (bn : Nat) ∧ bn - ndirect < n then 0 else m (.data j bn)
  | .indirect j => m (.indirect j)

theorem dropEntries_zero (m : Place → Nat) : dropEntries m i 0 = m := by
  funext P
  cases P with
  | data j bn => exact if_neg (by omega)
  | indirect j => rfl

theorem dropEntries_succ (m : Place → Nat) {n : Nat} (hn : n < nindirect) :
    dropEntries m i (n + 1) = update (dropEntries m i n) (.data i (entryBn hn)) 0 := by
  funext P
  cases P with
  | data j bn =>
    by_cases hP : Place.data j bn = .data i (entryBn hn)
    · rw [hP, update_self]
      refine if_pos ⟨rfl, Nat.le_add_right .., ?_⟩
      change ndirect + n - ndirect < n + 1
      omega
    · rw [update_of_ne hP]
      have hne : ¬ (j = i ∧ (bn : Nat) = ndirect + n) := by
        rintro ⟨rfl, hbn⟩
        exact hP (by rw [show bn = entryBn hn from Fin.ext hbn])
      simp only [dropEntries]
      refine if_congr ⟨fun h => ⟨h.1, h.2.1, ?_⟩, fun h => ⟨h.1, h.2.1, ?_⟩⟩ rfl rfl
      · have : ¬ (bn : Nat) = ndirect + n := fun hbn => hne ⟨h.1, hbn⟩
        omega
      · omega
  | indirect j => rw [update_of_ne (by simp)]; rfl

theorem dropEntries_entry (m : Place → Nat) {n : Nat} (hn : n < nindirect) :
    dropEntries m i n (.data i (entryBn hn)) = m (.data i (entryBn hn)) := by
  refine if_neg fun h => ?_
  have : ndirect + n - ndirect < n := h.2.2
  omega

/-- The blocks in the indirect block are given up one after the other. -/
theorem freeEntries_spec {m : Place → Nat} {a : Block}
    (ha : ∀ j (hj : j < nindirect), m (.data i (entryBn hj)) = entry a j)
    (hok : AllocOK S m (bit S d)) : ∀ n, n ≤ nindirect →
    ∃ d', (List.range n).foldlM (freeEntry S a) d = .ok d' ∧
      AllocOK S (dropEntries m i n) (bit S d') ∧ (∀ c, S.datastart ≤ c → d' c = d c) ∧
      (∀ c, c < S.bmapstart → d' c = d c)
  | 0, _ => ⟨d, rfl, by rwa [dropEntries_zero], fun _ _ => rfl, fun _ _ => rfl⟩
  | n + 1, hn => by
    obtain ⟨d₁, hrest, hok₁, hdata₁, hin₁⟩ := freeEntries_spec ha hok n (Nat.le_of_lt hn)
    rw [List.range_succ, List.foldlM_append, hrest, dropEntries_succ m hn]
    have hval : dropEntries m i n (.data i (entryBn hn)) = entry a n := by
      rw [dropEntries_entry, ha n hn]
    by_cases hzero : entry a n = 0
    · refine ⟨d₁, ?_, ?_, hdata₁, hin₁⟩
      · simp only [bind, Except.bind, List.foldlM_cons, List.foldlM_nil, freeEntry, if_pos hzero]
        rfl
      · rw [update_eq_self_iff.mpr]
        · exact hok₁
        · rw [hval, hzero]
    · obtain ⟨d', hfree, hok', hdata, hin⟩ := bfree_spec hok₁ (P := .data i (entryBn hn))
        (by rw [hval]; exact hzero)
      rw [hval] at hfree
      refine ⟨d', ?_, hok', fun c hc => (hdata c hc).trans (hdata₁ c hc),
        fun c hc => (hin c hc).trans (hin₁ c hc)⟩
      simp only [bind, Except.bind, List.foldlM_cons, List.foldlM_nil, freeEntry, if_neg hzero,
        hfree]
      rfl

/-- An inode without blocks. -/
def Dinode.truncated (din : Dinode) : Dinode := { din with size := 0, addrs := fun _ => 0 }

/-- Without the entries and the indirect block a file with no direct blocks has
none at all. -/
theorem slot_truncated (hi : Allocated S D i) (hdirect : ∀ k : Fin ndirect, (D i).addrs k.castSucc = 0) :
    slot S (update D i (D i).truncated) d =
      update (dropEntries (slot S D d) i nindirect) (.indirect i) 0 := by
  have hi' : Allocated S (update D i (D i).truncated) i := (allocated_update (by rfl) i).mpr hi
  funext P
  by_cases hP : P.inum = i
  · cases P with
    | data j bn =>
      obtain rfl : j = i := hP
      have hnone : blockOf d (D j).truncated bn = 0 := by
        unfold blockOf
        split
        · rfl
        · exact if_pos rfl
      rw [slot_data hi', update_self, hnone, update_of_ne (by simp)]
      symm
      by_cases hbn : ndirect ≤ (bn : Nat)
      · have hlt : (bn : Nat) - ndirect < nindirect := by
          have := bn.isLt
          simp only [maxfile] at this
          omega
        exact if_pos ⟨rfl, hbn, hlt⟩
      · rw [dropEntries, if_neg fun h => hbn h.2.1, slot_data hi, blockOf, dif_pos (by omega)]
        have := hdirect ⟨bn, by omega⟩
        change ((D j).addrs ⟨bn, _⟩).toNat = 0
        rw [show (⟨bn, _⟩ : Fin (ndirect + 1)) = Fin.castSucc ⟨bn, by omega⟩ from rfl, this]
        rfl
    | indirect j =>
      obtain rfl : j = i := hP
      rw [slot_indirect hi', update_self, update_self]
      rfl
  · rw [slot_update_of_ne hP]
    cases P with
    | data j bn =>
      rw [update_of_ne (by simp), dropEntries, if_neg fun h => hP h.1]
    | indirect j =>
      rw [update_of_ne fun heq => hP (by cases heq; rfl)]
      rfl

/-- The indirect block is given up with its entries. -/
theorem freeIndirect_spec (hok : BlocksOK S D d) (hi : Allocated S D i)
    (hdirect : ∀ k : Fin ndirect, (D i).addrs k.castSucc = 0) :
    ∃ d', freeIndirect S d (D i) = .ok (d', (D i).setAddr indirectIdx 0) ∧
      AllocOK S (slot S (update D i (D i).truncated) d) (bit S d') ∧
      (∀ c, S.datastart ≤ c → d' c = d c) ∧ (∀ c, c < S.bmapstart → d' c = d c) := by
  rw [slot_truncated hi hdirect]
  by_cases hzero : (D i).addrs indirectIdx = 0
  · -- there is none, and so there are no entries either
    have hsame : (D i).setAddr indirectIdx 0 = D i := by
      refine Dinode.ext rfl rfl rfl rfl rfl ?_
      refine update_eq_self_iff.mpr ?_
      rw [hzero]
      rfl
    have hnone : update (dropEntries (slot S D d) i nindirect) (.indirect i) 0 =
        slot S D d := by
      funext P
      by_cases hP : P = .indirect i
      · rw [hP, update_self, slot_indirect hi, hzero]
        rfl
      · rw [update_of_ne hP]
        cases P with
        | data j bn =>
          simp only [dropEntries]
          split
          · rename_i h
            obtain ⟨rfl, hbn, -⟩ := h
            rw [slot_data hi, blockOf, dif_neg (by omega), if_pos hzero]
          · rfl
        | indirect j => rfl
    rw [hnone, hsame]
    exact ⟨d, if_pos hzero, hok, fun _ _ => rfl, fun _ _ => rfl⟩
  · have hentries : ∀ j (hj : j < nindirect), slot S D d (.data i (entryBn hj)) =
        entry (d ((D i).addrs indirectIdx).toNat) j := by
      intro j hj
      have hbig : ¬ (entryBn hj : Nat) < ndirect := Nat.not_lt.mpr (Nat.le_add_right ..)
      rw [slot_data hi, blockOf, dif_neg hbig, if_neg hzero]
      change entry _ (ndirect + j - ndirect) = _
      rw [Nat.add_sub_cancel_left]
    have hind : dropEntries (slot S D d) i nindirect (.indirect i) =
        ((D i).addrs indirectIdx).toNat := slot_indirect (d := d) hi
    obtain ⟨d₁, hloop, hok₁, hdata₁, hin₁⟩ :=
      freeEntries_spec hentries hok nindirect (Nat.le_refl _)
    obtain ⟨d₂, hfree, hok₂, hdata₂, hin₂⟩ := bfree_spec hok₁ (P := .indirect i) (by
      rw [hind]
      exact fun heq => hzero (UInt32.toNat_inj.mp heq))
    rw [hind] at hfree
    refine ⟨d₂, ?_, hok₂, fun c hc => (hdata₂ c hc).trans (hdata₁ c hc),
      fun c hc => (hin₂ c hc).trans (hin₁ c hc)⟩
    rw [freeIndirect, if_neg hzero]
    simp only [bind, Except.bind, hloop, hfree]
    rfl

/-- **`itrunc` gives up all blocks of a file**, and never finds one of them
free. -/
theorem itrunc_spec (hok : BlocksOK S D d) (hi : Allocated S D i) :
    ∃ d', itrunc S d i (D i) = .ok (d', (D i).truncated) ∧
      AllocOK S (slot S (update D i (D i).truncated) d') (bit S d') ∧
      (∀ c, S.datastart ≤ c → d' c = d c) ∧
      ∀ j, j < S.ninodes → dinode S d' j = update (dinode S d) i (D i).truncated j := by
  have hstart := S.bmapstart_lt_datastart
  obtain ⟨d₁, din₁, hdirects, hok₁, hdata₁, hin₁, hattrs, hdone, hkept, -⟩ :=
    freeDirects_spec hi (List.finRange ndirect) (d := d) (rfl : (D i).type = (D i).type)
      (by rwa [update_eq_self])
  have hdone₁ : ∀ k : Fin ndirect, din₁.addrs k.castSucc = 0 := fun k =>
    hdone k (List.mem_finRange k)
  have htrunc : din₁.truncated = (D i).truncated := by rw [hattrs]; rfl
  obtain ⟨d₂, hrest, hok₂, hdata₂, hin₂⟩ := freeIndirect_spec hok₁
    ((allocated_update (by rw [hattrs]) i).mpr hi) (by rwa [update_self])
  rw [update_self, update_idem, htrunc] at hok₂
  rw [update_self] at hrest
  have hfinal : { din₁.setAddr indirectIdx 0 with size := 0 } = (D i).truncated := by
    rw [← htrunc]
    refine Dinode.ext rfl rfl rfl rfl rfl (funext fun k => ?_)
    change update din₁.addrs indirectIdx (UInt32.ofNat 0) k = 0
    by_cases hk : k = indirectIdx
    · rw [hk, update_self]
      rfl
    · have hlt : (k : Nat) < ndirect := Nat.lt_of_le_of_ne (Nat.le_of_lt_succ k.isLt) fun heq =>
        hk (Fin.ext heq)
      rw [update_of_ne hk]
      exact hdone₁ ⟨k, hlt⟩
  have hiupdate : ∀ c, S.bmapstart ≤ c → iupdate S d₂ i (D i).truncated c = d₂ c := fun c hc =>
    iupdate_data hi.2.1 hc _
  refine ⟨iupdate S d₂ i (D i).truncated, ?_, ?_, fun c hc => ?_, fun j hj => ?_⟩
  · unfold itrunc
    rw [directIdx, hdirects]
    simp only [bind, Except.bind, hrest, hfinal]
    rfl
  · have hkeep : slot S (update D i (D i).truncated) (iupdate S d₂ i (D i).truncated) =
        slot S (update D i (D i).truncated) d₁ := by
      refine KeepsIndirect.slot fun j hj => ?_
      have hdata := (hok₂.data _ hj).1
      rw [hiupdate _ (by omega), hdata₂ _ hdata]
    rw [hkeep]
    exact hok₂.congr_bit fun b hb => bit_congr hb fun c hc _ => hiupdate c hc
  · rw [hiupdate c (by omega), hdata₂ c hc, hdata₁ c hc]
  · rw [dinode_iupdate]
    by_cases hji : j = i
    · rw [hji, update_self, update_self]
    · rw [update_of_ne hji, update_of_ne hji]
      exact dinode_congr hj fun c hc => (hin₂ c hc).trans (hin₁ c hc)

end Xv6.Fs
