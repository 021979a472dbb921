import Xv6.Fs.Mkfs

/-!
# The image `mkfs` writes, seen by `fs.c`

`marked` is the image with the bitmap filled in up to `freeblock`. On it the block
map of `mkfs` finds what `bmap` finds (`fileBlock_bmap`), and an append is a
`writei` at the end of the file (`iappend_writei`); so what is known of `writei`
carries over to `mkfs`.
-/

namespace Xv6.Fs.Mkfs

open Outcome Function

/-! ## §1  The bitmap -/

def marked (d : Disk) (freeblock : Nat) : Disk :=
  update d sb.bmapstart (bitmapBlock freeblock)

theorem bitmapBlock_succ (n : Nat) : bitmapBlock (n + 1) = Bytes.setBit (bitmapBlock n) n := by
  rw [bitmapBlock, List.range_succ, List.foldl_append]
  rfl

theorem getBit_bitmapBlock (n b : Nat) : Bytes.getBit (bitmapBlock n) b = decide (b < n) := by
  induction n with
  | zero =>
    rw [Bytes.getBit_eq]
    exact Nat.zero_testBit _
  | succ n ih =>
    rw [bitmapBlock_succ, Bytes.getBit_setBit, ih, ← Bool.decide_or]
    exact decide_eq_decide.mpr (by omega)

theorem bit_marked (d : Disk) (freeblock : Nat) {b : Nat} (hb : b < bpb) :
    bit sb (marked d freeblock) b = decide (b < freeblock) := by
  have hblock : sb.bblock b = sb.bmapstart := by
    rw [Superblock.bblock, Nat.div_eq_of_lt hb, Nat.zero_add]
  rw [bit, hblock, marked, update_self, Nat.mod_eq_of_lt hb, getBit_bitmapBlock]

variable {c i n : Nat}

theorem marked_of_ne (h : c ≠ sb.bmapstart) (d : Disk) (freeblock : Nat) :
    marked d freeblock c = d c := update_of_ne h ..

theorem marked_update (h : c ≠ sb.bmapstart) (d : Disk) (freeblock : Nat) (v : Block) :
    marked (update d c v) freeblock = update (marked d freeblock) c v :=
  update_comm h ..

theorem dinode_marked (d : Disk) (freeblock : Nat) (hi : i < ninodes) :
    dinode sb (marked d freeblock) i = dinode sb d i :=
  dinode_congr (S := sb) hi fun _ hc => marked_of_ne (Nat.ne_of_lt hc) d freeblock

theorem marked_iupdate (d : Disk) (freeblock : Nat) (hi : i < ninodes) (din : Dinode) :
    marked (iupdate sb d i din) freeblock = iupdate sb (marked d freeblock) i din := by
  have hne : sb.iblock i ≠ sb.bmapstart := Nat.ne_of_lt (sb.iblock_lt hi)
  rw [iupdate, iupdate, marked_update hne, marked_of_ne hne]

/-- Blocks from `freeblock` on have not been written, and come behind the bitmap. -/
structure Ready (d : Disk) (freeblock : Nat) : Prop where
  zero : ∀ c, freeblock ≤ c → d c = fun _ => 0
  lo : nmeta ≤ freeblock

theorem nmeta_eq : nmeta = sb.datastart := rfl

theorem Ready.succ {d : Disk} (h : Ready d n) : Ready d (n + 1) :=
  ⟨fun c hc => h.zero c (by omega), Nat.le_succ_of_le h.lo⟩

theorem Ready.update {d : Disk} (h : Ready d n) (hc : c < n) (v : Block) :
    Ready (update d c v) n :=
  ⟨fun x hx => by rw [update_of_ne (by omega), h.zero x hx], h.lo⟩

/-- On the marked image `balloc` takes the block that `freeblock` names. -/
theorem balloc_marked {d : Disk} (h : Ready d n) (hn : n < fssize) :
    Fs.balloc sb (marked d n) = .ok (n, marked d (n + 1)) := by
  have hbpb : fssize ≤ bpb := by decide
  have hne : n ≠ sb.bmapstart := by
    have hstart := sb.bmapstart_lt_datastart
    have := h.lo
    rw [nmeta_eq] at this
    omega
  have hfree : freeBlock sb (marked d n) = some n := by
    refine List.find?_range_eq_some.mpr ⟨?_, List.mem_range.mpr hn, fun c hc => ?_⟩
    · rw [bit_marked d n (by omega)]
      simp
    · rw [bit_marked d n (by omega)]
      simpa using hc
  have hblock : sb.bblock n = sb.bmapstart := by
    rw [Superblock.bblock, Nat.div_eq_of_lt (by omega), Nat.zero_add]
  have hset : Fs.setBit sb (marked d n) n = marked d (n + 1) := by
    rw [Fs.setBit, hblock, Nat.mod_eq_of_lt (by omega), marked, update_self,
      update_idem, ← bitmapBlock_succ]
    rfl
  rw [Fs.balloc, hfree]
  simp only
  rw [hset, update_eq_self_iff.mpr]
  rw [marked_of_ne hne, h.zero n (Nat.le_refl n)]

/-! ## §2  The block map and the append -/

section Append

variable {d d' : Disk} {n n' i x : Nat} {D : Nat → Dinode} {din' : Dinode}

theorem fileBlock_le (d : Disk) (n : Nat) (din : Dinode) (fbn : Nat) :
    n ≤ (fileBlock d n din fbn).2.2.1 := by
  unfold fileBlock
  split
  · simp only
    split
    · exact Nat.le_succ n
    · exact Nat.le_refl n
  · simp only
    split <;> split
    · exact Nat.le_add_right n 2
    · exact Nat.le_succ n
    · exact Nat.le_succ n
    · exact Nat.le_refl n

/-- A block that the marked image knows is behind the bitmap and before `freeblock`. -/
theorem stored_range (hok : BlocksOK sb D (marked d n)) {P : Place}
    (hP : slot sb D (marked d n) P ≠ 0) :
    nmeta ≤ slot sb D (marked d n) P ∧ slot sb D (marked d n) P < n := by
  obtain ⟨hlo, hhi⟩ := hok.data P hP
  have hbit := hok.bit_of_stored hP
  rw [bit_marked d n (Nat.lt_of_lt_of_le hhi (by decide))] at hbit
  exact ⟨hlo, of_decide_eq_true hbit⟩

/-- **The block map of `mkfs` is `bmap`** on the marked image. -/
theorem fileBlock_bmap (h : Ready d n) (hok : BlocksOK sb D (marked d n))
    (hi : Allocated sb D i) (bn : Fin maxfile)
    (hblock : fileBlock d n (D i) bn = (x, d', n', din')) (hfits : n' ≤ fssize) :
    bmap sb (marked d n) (D i) bn = .ok (x, marked d' n', din') ∧ Ready d' n' := by
  have hstart := sb.bmapstart_lt_datastart
  unfold fileBlock at hblock
  unfold bmap
  by_cases hk : (bn : Nat) < ndirect
  · rw [dif_pos hk] at hblock ⊢
    simp only at hblock ⊢
    split at hblock
    · rename_i hnone
      cases hblock
      rw [if_pos hnone, balloc_marked h (by omega)]
      exact ⟨rfl, h.succ⟩
    · rename_i hsome
      cases hblock
      rw [if_neg hsome]
      exact ⟨rfl, h⟩
  · have hj : (bn : Nat) - ndirect < nindirect := by
      have := bn.isLt
      simp only [maxfile] at this
      omega
    rw [dif_neg hk] at hblock ⊢
    rw [if_pos hj, bmapIndirect]
    by_cases hnone : (D i).addrs indirectIdx = 0
    · -- the indirect block is new, and so its entries are 0
      have hlo := h.lo
      have hne : n ≠ sb.bmapstart := by
        rw [nmeta_eq] at hlo
        omega
      have hzero := h.zero n (Nat.le_refl n)
      simp only [if_pos hnone, hzero, entry_zero rfl, if_true] at hblock ⊢
      cases hblock
      rw [balloc_marked h (by omega)]
      simp only [bind, Except.bind, pure, Except.pure, marked_of_ne hne, hzero, entry_zero rfl,
        if_true]
      rw [balloc_marked h.succ (by omega)]
      simp only [marked_of_ne hne, hzero, marked_update hne]
      exact ⟨trivial, h.succ.succ.update (by omega) _⟩
    · have hind : slot sb D (marked d n) (.indirect i) = ((D i).addrs indirectIdx).toNat :=
        slot_indirect hi
      obtain ⟨hlo, hhi⟩ := stored_range hok (P := .indirect i) (by
        rw [hind]
        exact fun heq => hnone (UInt32.toNat_inj.mp heq))
      rw [hind] at hlo hhi
      have hne : ((D i).addrs indirectIdx).toNat ≠ sb.bmapstart := by
        rw [nmeta_eq] at hlo
        omega
      simp only [if_neg hnone] at hblock ⊢
      simp only [bind, Except.bind, pure, Except.pure, marked_of_ne hne]
      split at hblock
      · rename_i hentry
        cases hblock
        rw [if_pos hentry, balloc_marked h (by omega)]
        simp only [marked_of_ne hne, marked_update hne]
        exact ⟨trivial, h.succ.update (by omega) _⟩
      · rename_i hentry
        cases hblock
        rw [if_neg hentry]
        exact ⟨rfl, h⟩

theorem appendLoop_le : ∀ {fuel off : Nat} {p : List UInt8} {d : Disk} {n : Nat} {din : Dinode},
    appendLoop fuel off p d n din = .ok (d', n', din') → n ≤ n'
  | 0, _, _, _, _, _, h => by
    cases h
    exact Nat.le_refl _
  | fuel + 1, off, p, d, n, din, h => by
    rw [appendLoop] at h
    split at h
    · cases h
      exact Nat.le_refl _
    · simp only at h
      split at h
      · exact Nat.le_trans (fileBlock_le d n din (off / bsize)) (appendLoop_le h)
      · cases h

theorem buf_drop (p : List UInt8) (m : Nat) : buf (p.drop m) = fun k => buf p (m + k) := by
  funext k
  simp [buf, List.getD_eq_getElem?_getD]

/-- **The loop of `iappend` is the loop of `writei`** on the marked image. -/
theorem appendLoop_eachBlock : ∀ {fuel off : Nat} {p : List UInt8} {d : Disk} {n : Nat}
    {D : Nat → Dinode}, Ready d n → BlocksOK sb D (marked d n) →
    Allocated sb D i → p.length ≤ fuel → off ≤ maxfile * bsize →
    appendLoop fuel off p d n (D i) = .ok (d', n', din') → n' ≤ fssize →
    (∃ src, eachBlock sb writeBody fuel off p.length (marked d n) (D i) (buf p) =
      .ok (marked d' n', din', src)) ∧ Ready d' n' ∧ off + p.length ≤ maxfile * bsize
  | 0, off, p, d, n, D, hr, _, _, hfuel, hmax, h, _ => by
    cases h
    exact ⟨⟨_, rfl⟩, hr, by omega⟩
  | fuel + 1, off, p, d, n, D, hr, hok, hi, hfuel, hmax, h, hfits => by
    rw [appendLoop] at h
    split at h
    · rename_i hp
      cases h
      subst hp
      exact ⟨⟨_, rfl⟩, hr, hmax⟩
    · rename_i hp
      simp only at h
      split at h
      · rename_i hbn
        rcases hblock : fileBlock d n (D i) (off / bsize) with ⟨x, d₁, n₁, din₁⟩
        rw [hblock] at h
        simp only at h
        have hn : 0 < p.length := List.length_pos_iff.mpr hp
        have hchunk : min p.length ((off / bsize + 1) * bsize - off) = chunk off p.length := by
          simp only [chunk, bsize]
          omega
        have hoff : off - off / bsize * bsize = off % bsize := by
          simp only [bsize]
          omega
        rw [hchunk, hoff] at h
        obtain ⟨hb, hr₁⟩ := fileBlock_bmap hr hok hi ⟨off / bsize, hbn⟩ hblock
          (Nat.le_trans (appendLoop_le h) hfits)
        have hm := bmap_spec hok hi ⟨off / bsize, hbn⟩ hb
        -- the block is a data block, so writing it and marking commute
        obtain ⟨hlo, hhi⟩ := stored_range hm.grown.ok (P := .data i ⟨off / bsize, hbn⟩)
          (hm.block ▸ hm.pos)
        rw [hm.block] at hlo hhi
        have hne : x ≠ sb.bmapstart := by
          have := sb.bmapstart_lt_datastart
          rw [nmeta_eq] at hlo
          omega
        have hwrite : marked (update d₁ x (Bytes.copy (d₁ x) (off % bsize)
            (chunk off p.length) (buf p))) n₁ =
            (writeBody x (off % bsize) (chunk off p.length) (marked d₁ n₁) (buf p)).1 := by
          rw [marked_update hne, writeBody, marked_of_ne hne]
        obtain ⟨-, hok₂, -⟩ := hm.overwrite
          (writeBody_frame x (off % bsize) (chunk off p.length) (marked d₁ n₁) (buf p))
        rw [← hwrite] at hok₂
        have hle := chunk_le off p.length
        have hpos := chunk_pos off hn
        have hend : off + chunk off p.length ≤ maxfile * bsize := by
          simp only [chunk, bsize] at hbn ⊢
          omega
        have hi₁ : Allocated sb (update D i din₁) i :=
          (allocated_update (by rw [hm.attrs]) i).mpr hi
        have h₁ : appendLoop fuel (off + chunk off p.length) (p.drop (chunk off p.length))
            (update d₁ x (Bytes.copy (d₁ x) (off % bsize) (chunk off p.length) (buf p)))
            n₁ (update D i din₁ i) = .ok (d', n', din') := by
          rw [update_self]
          exact h
        obtain ⟨⟨src, hsrc⟩, hr', hlen⟩ := appendLoop_eachBlock (hr₁.update hhi _) hok₂ hi₁
          (by rw [List.length_drop]; omega) hend h₁ hfits
        rw [List.length_drop] at hlen
        rw [List.length_drop, update_self, hwrite, buf_drop] at hsrc
        refine ⟨⟨src, ?_⟩, hr', by omega⟩
        rw [eachBlock, if_neg (Nat.ne_of_gt hn)]
        exact ok_bind hb hsrc
      · cases h

/-- The image with the bitmap as it will be. -/
def State.image (s : State) : Disk := marked s.disk s.freeblock

/-- **An append is a `writei`** at the end of the file, on the marked image. -/
theorem iappend_writei {s s' : State} {p : List UInt8} (hr : Ready s.disk s.freeblock)
    (hc : Consistent sb s.image) (hi : Allocated sb (dinode sb s.image) i)
    (hdev : (dinode sb s.image i).type ≠ tDev) (hp : p ≠ []) (hlen : p.length ≤ bsize)
    (h : iappend i s p = .ok s') (hfits : s'.freeblock ≤ fssize) :
    (∃ din', writei sb s.image i (dinode sb s.image i) (buf p) (dinode sb s.image i).size
      (UInt32.ofNat p.length) = .ok (some (UInt32.ofNat p.length), s'.image, din')) ∧
      Ready s'.disk s'.freeblock ∧ s'.freeinode = s.freeinode := by
  have hsame : dinode sb s.disk i = dinode sb s.image i := (dinode_marked _ _ hi.2.1).symm
  have hsize := hc.sizes i hi
  obtain ⟨⟨d₁, n₁, din₁⟩, hloop, hrest⟩ := bind_ok h
  rw [hsame] at hloop
  cases hrest
  obtain ⟨⟨src, heach⟩, hr₁, hmax⟩ := appendLoop_eachBlock hr hc.alloc hi (Nat.le_refl _) hsize
    hloop hfits
  have hup := writeLoop_spec hc.alloc hi hmax heach
  have hattrs := hup.attrs
  rw [update_self] at hattrs
  have hn : 0 < p.length := List.length_pos_iff.mpr hp
  have hlen32 : (UInt32.ofNat p.length).toNat = p.length :=
    UInt32.toNat_ofNat_of_lt' (Nat.lt_of_le_of_lt hlen (by decide))
  have hbound : maxfile * bsize < 2 ^ 32 := by decide
  have hin : ¬ ((dinode sb s.image i).size.toNat < (dinode sb s.image i).size.toNat ∨
      2 ^ 32 ≤ (dinode sb s.image i).size.toNat + (UInt32.ofNat p.length).toNat) := by
    rw [hlen32]
    omega
  have hadd := toNat_add_of_inside hin
  have hsum : (dinode sb s.image i).size + UInt32.ofNat p.length =
      UInt32.ofNat ((dinode sb s.image i).size.toNat + p.length) := by
    rw [UInt32.ofNat_add, UInt32.ofNat_toNat]
  refine ⟨⟨{ din₁ with size := UInt32.ofNat ((dinode sb s.image i).size.toNat + p.length) }, ?_⟩,
    ⟨fun c hc => ?_, hr₁.lo⟩, rfl⟩
  · rw [writei, if_neg hdev, if_neg (mt outside_iff.mp hin), hadd, hlen32, if_neg (by omega)]
    refine ok_bind heach ?_
    simp only
    rw [if_pos, hsum]
    · change Except.ok _ = Except.ok (_, marked _ _, _)
      rw [marked_iupdate _ _ hi.2.1, hsame]
    · refine ⟨UInt32.lt_iff_toNat_lt.mpr (by rw [hlen32]; exact hn), UInt32.lt_iff_toNat_lt.mpr ?_⟩
      rw [hadd, hlen32, hattrs]
      exact Nat.lt_add_of_pos_right hn
  · have hlt := sb.iblock_lt hi.2.1
    have hstart := sb.bmapstart_lt_datastart
    have hlo := hr₁.lo
    rw [nmeta_eq] at hlo
    change iupdate sb d₁ i _ c = _
    change n₁ ≤ c at hc
    rw [iupdate_of_ne (by omega), hr₁.zero c hc]

end Append

/-! ## §3  What holds while the image is built -/

/-- The image is consistent and holds the files of table `t`; each file has the
blocks its size calls for and no others, and its blocks hold zeros behind its end. -/
structure Built (s : State) (t : InodeTable) : Prop where
  ready : Ready s.disk s.freeblock
  cons : Consistent sb s.image
  inodes : 1 ≤ s.freeinode
  free : ∀ i, s.freeinode ≤ i → i < ninodes → (dinode sb s.image i).type = 0
  tight : ∀ i, Allocated sb (dinode sb s.image) i → ∀ bn : Fin maxfile,
    slot sb (dinode sb s.image) s.image (.data i bn) ≠ 0 ↔
      bn * bsize < (dinode sb s.image i).size.toNat
  rest : ∀ i, Allocated sb (dinode sb s.image) i → ∀ x, (dinode sb s.image i).size.toNat ≤ x →
    byteAt (slot sb (dinode sb s.image) s.image) s.image i x = 0
  files : inodesOf sb (dinode sb s.image) s.image = t

section Steps

variable {s s' : State} {t : InodeTable} {i : Nat}

theorem byteAt_of_unmapped {m : Place → Nat} {d : Disk} (h : ∀ bn, m (.data i bn) = 0) (x : Nat) :
    byteAt m d i x = 0 := by
  rw [byteAt]
  split
  · exact if_pos (h _)
  · rfl

/-- `ialloc` makes an empty file. -/
theorem Built.ialloc (h : Built s t) (hlt : s.freeinode < ninodes) {type : Int16} (htype : type ≠ 0) :
    Built (ialloc type s).2
      (update t s.freeinode (some ⟨type, 0, 0, 1, []⟩)) := by
  have himage : (Mkfs.ialloc type s).2.image =
      iupdate sb s.image s.freeinode ⟨type, 0, 0, 1, 0, fun _ => 0⟩ := marked_iupdate _ _ hlt _
  have hD : dinode sb (Mkfs.ialloc type s).2.image = update (dinode sb s.image) s.freeinode
      ⟨type, 0, 0, 1, 0, fun _ => 0⟩ := by
    rw [himage, dinode_iupdate]
  have hbare : (dinode sb s.image s.freeinode).Bare := .inl (h.free _ (Nat.le_refl _) hlt)
  obtain ⟨hslot, hok, hbytes⟩ := iupdate_keeps h.cons.alloc hlt fun d => slot_update_bare (d := d) hbare
    (.inr fun _ => rfl : Dinode.Bare ⟨type, 0, 0, 1, 0, fun _ => 0⟩)
  rw [← hD, ← himage] at hslot hok hbytes
  have hother : ∀ j, j ≠ s.freeinode → dinode sb (Mkfs.ialloc type s).2.image j =
      dinode sb s.image j := fun j hj => by rw [hD, update_of_ne hj]
  have hnew : dinode sb (Mkfs.ialloc type s).2.image s.freeinode =
      ⟨type, 0, 0, 1, 0, fun _ => 0⟩ := by rw [hD, update_self]
  refine { ready := ⟨fun c hc => ?_, h.ready.lo⟩, cons := ⟨hok, fun j hj => ?_⟩,
           inodes := Nat.le_succ_of_le h.inodes, free := fun j hj hjn => ?_,
           tight := fun j hj bn => ?_, rest := fun j hj x hx => ?_, files := ?_ }
  · have := sb.iblock_lt hlt
    have hstart := sb.bmapstart_lt_datastart
    have hlo := h.ready.lo
    rw [nmeta_eq] at hlo
    change s.freeblock ≤ c at hc
    change iupdate sb s.disk s.freeinode _ c = _
    rw [iupdate_of_ne (by omega), h.ready.zero c hc]
  · by_cases hji : j = s.freeinode
    · rw [hji, hnew]
      exact Nat.zero_le _
    · rw [Allocated, hother j hji] at hj
      rw [hother j hji]
      exact h.cons.sizes j hj
  · change s.freeinode + 1 ≤ j at hj
    rw [hother j (by omega)]
    exact h.free j (by omega) hjn
  · rw [hslot]
    by_cases hji : j = s.freeinode
    · rw [hji, hnew, slot_bare hbare (P := .data s.freeinode bn) rfl]
      exact ⟨fun hne => absurd rfl hne, fun hlt => absurd hlt (Nat.not_lt_zero _)⟩
    · rw [Allocated, hother j hji] at hj
      rw [hother j hji]
      exact h.tight j hj bn
  · rw [hbytes]
    by_cases hji : j = s.freeinode
    · rw [hji]
      exact byteAt_of_unmapped (fun bn => slot_bare hbare rfl) x
    · rw [Allocated, hother j hji] at hj
      rw [hother j hji] at hx
      exact h.rest j hj x hx
  · rw [← h.files, hD]
    refine files_update (fun j x _ => by rw [← hD]; exact hbytes j x) ?_
    have hi : Allocated sb (update (dinode sb s.image) s.freeinode
        ⟨type, 0, 0, 1, 0, fun _ => 0⟩) s.freeinode :=
      ⟨h.inodes, hlt, by rw [update_self]; exact htype⟩
    rw [inodesOf_alloc hi, fileData, update_self]
    rfl

/-- `iappend` appends to its file. -/
theorem Built.iappend (h : Built s t) {ip : Inode} (hip : t i = some ip) (hdev : ip.type ≠ tDev)
    {p : List UInt8} (hp : p ≠ []) (hlen : p.length ≤ bsize) (happ : iappend i s p = .ok s')
    (hfits : s'.freeblock ≤ fssize) :
    Built s' (update t i (some { ip with data := ip.data ++ p })) ∧
      s'.freeinode = s.freeinode := by
  have hi : Allocated sb (dinode sb s.image) i := by
    by_contra hA
    rw [← h.files, inodesOf, if_neg hA] at hip
    cases hip
  have hip' := inodesOf_alloc (d := s.image) hi
  rw [h.files, hip] at hip'
  obtain rfl := Option.some.inj hip'
  obtain ⟨⟨din', hwrite⟩, hr', hino⟩ := iappend_writei h.ready h.cons hi hdev hp hlen happ hfits
  have hn : 0 < p.length := List.length_pos_iff.mpr hp
  have hlen32 : (UInt32.ofNat p.length).toNat = p.length :=
    UInt32.toNat_ofNat_of_lt' (Nat.lt_of_le_of_lt hlen (by decide))
  have hspec := writei_spec h.cons.alloc hi hwrite
  split at hspec
  · cases hspec.1
  rename_i hin
  have w := hspec.2
  rw [hlen32] at w hin
  have hsize := w.size_eq (Nat.le_refl _)
  have hD : ∀ j, j < sb.ninodes →
      dinode sb s'.image j = update (dinode sb s.image) i din' j := by
    intro j hj
    by_cases hji : j = i
    · rw [hji, update_self]
      refine w.stored.resolve_right fun hkept => ?_
      rw [hkept.2.1] at hsize
      omega
    · rw [update_of_ne hji, w.others j hj hji]
  have hslot := slot_agree (S := sb) (d := s'.image) hD
  have hother : ∀ {j}, Allocated sb (dinode sb s'.image) j → j ≠ i →
      dinode sb s'.image j = dinode sb s.image j ∧ Allocated sb (dinode sb s.image) j := by
    intro j hj hji
    have heq : dinode sb s'.image j = dinode sb s.image j := w.others j hj.2.1 hji
    rw [Allocated, heq] at hj
    exact ⟨heq, hj⟩
  have hself : dinode sb s'.image i = din' := by rw [hD i hi.2.1, update_self]
  refine ⟨{ ready := hr', cons := ⟨by rw [hslot]; exact w.ok, fun j hj => ?_⟩,
            inodes := hino ▸ h.inodes, free := fun j hj hjn => ?_, tight := fun j hj bn => ?_,
            rest := fun j hj x hx => ?_, files := ?_ }, hino⟩
  · by_cases hji : j = i
    · rw [hji, hself, hsize]
      have := h.cons.sizes i hi
      omega
    · rw [(hother hj hji).1]
      exact h.cons.sizes j (hother hj hji).2
  · rw [hino] at hj
    have hji : j ≠ i := by
      rintro rfl
      exact hi.2.2 (h.free j hj hjn)
    rw [w.others j hjn hji]
    exact h.free j hj hjn
  · rw [hslot]
    by_cases hji : j = i
    · subst hji
      have hold := h.tight j hi bn
      rw [hself, hsize]
      constructor
      · intro hne
        by_contra hle
        refine hold.not.mpr ?_ ?_
        · omega
        · rw [← w.kept j bn fun _ => by omega]
          exact hne
      · intro hlt
        by_cases hin : bn * bsize < (dinode sb s.image j).size.toNat
        · rw [w.grows _ (hold.mpr hin)]
          exact hold.mpr hin
        · refine w.mapped hn bn ?_ (by omega)
          rw [Nat.add_mul]
          have : 0 < 1 * bsize := by decide
          omega
    · rw [w.kept j bn fun heq => absurd heq hji, (hother hj hji).1]
      exact h.tight j (hother hj hji).2 bn
  · rw [hslot, w.bytes]
    by_cases hji : j = i
    · subst hji
      rw [hself, hsize] at hx
      rw [if_neg (by omega)]
      exact h.rest j hi x (by omega)
    · rw [if_neg fun hc => hji hc.1]
      rw [(hother hj hji).1] at hx
      exact h.rest j (hother hj hji).2 x hx
  · rw [inodesOf_agree hD, w.inodesOf hi (Nat.le_refl _) (inodesOf_alloc hi), h.files]
    have happend : overwrite (fileData sb (dinode sb s.image) s.image i)
        (dinode sb s.image i).size.toNat p.length (buf p) =
        fileData sb (dinode sb s.image) s.image i ++ p := by
      have hl := length_fileData sb (dinode sb s.image) s.image i
      have hbuf : (List.range p.length).map (buf p) = p := by
        refine List.ext_getElem (by simp) fun k _ hk => ?_
        simp [buf, List.getD_eq_getElem?_getD, hk]
      rw [overwrite, ← hl, List.take_length, hbuf, List.drop_of_length_le (Nat.le_add_right ..),
        List.append_nil]
    rw [happend]

theorem iappend_le {p : List UInt8} (h : iappend i s p = .ok s') : s.freeblock ≤ s'.freeblock := by
  obtain ⟨⟨d₁, n₁, din₁⟩, hloop, hrest⟩ := bind_ok h
  cases hrest
  exact appendLoop_le hloop

theorem iappends_le : ∀ {cs : List (List UInt8)} {s : State}, cs.foldlM (Mkfs.iappend i) s = .ok s' →
    s.freeblock ≤ s'.freeblock
  | [], _, h => by
    cases h
    exact Nat.le_refl _
  | c :: cs, s, h => by
    rw [List.foldlM_cons] at h
    obtain ⟨s₁, hfirst, hrest⟩ := bind_ok h
    exact Nat.le_trans (iappend_le hfirst) (iappends_le hrest)

/-- What `read` returns, piece by piece, ends up in the file. -/
theorem Built.iappends : ∀ {cs : List (List UInt8)} {s : State} {t : InodeTable} {ip : Inode},
    (∀ c ∈ cs, c ≠ [] ∧ c.length ≤ bsize) → Built s t → t i = some ip → ip.type ≠ tDev →
    cs.foldlM (Mkfs.iappend i) s = .ok s' → s'.freeblock ≤ fssize →
    Built s' (update t i (some { ip with data := ip.data ++ cs.flatten })) ∧
      s'.freeinode = s.freeinode
  | [], s, t, ip, _, h, hip, _, hfold, _ => by
    cases hfold
    rw [List.flatten_nil, List.append_nil, ← hip, update_eq_self]
    exact ⟨h, rfl⟩
  | c :: cs, s, t, ip, hcs, h, hip, hdev, hfold, hfits => by
    rw [List.foldlM_cons] at hfold
    obtain ⟨s₁, hfirst, hrest⟩ := bind_ok hfold
    obtain ⟨hc, hlen⟩ := hcs c (List.mem_cons_self ..)
    obtain ⟨h₁, hino₁⟩ := h.iappend hip hdev hc hlen hfirst (Nat.le_trans (iappends_le hrest) hfits)
    obtain ⟨h', hino'⟩ := Built.iappends (fun c' hc' => hcs c' (List.mem_cons_of_mem _ hc')) h₁
      (update_self ..) hdev hrest hfits
    rw [update_idem] at h'
    refine ⟨?_, hino'.trans hino₁⟩
    rw [List.flatten_cons, ← List.append_assoc]
    exact h'

end Steps

/-! ## §4  The finished image -/

/-- The entries of the root directory. -/
def rootData (files : List File) : List UInt8 :=
  direntBytes rootino [46] ++ direntBytes rootino [46, 46] ++
    files.zipIdx.flatMap fun x => direntBytes (x.2 + 2) x.1.stored

/-- The files that the input files become: the root directory, and from inode 2 on
the input files in order. -/
def fileTable (files : List File) : InodeTable
  | 0 => none
  | 1 => some ⟨tDir, 0, 0, 1, rootData files⟩
  | i + 2 => files[i]?.map fun f => ⟨tFile, 0, 0, 1, f.content⟩

theorem rootData_snoc (files : List File) (f : File) :
    rootData (files ++ [f]) = rootData files ++ direntBytes (files.length + 2) f.stored := by
  rw [rootData, rootData, List.zipIdx_append, List.flatMap_append, List.append_assoc,
    List.append_assoc, List.append_assoc]
  simp

theorem fileTable_snoc (files : List File) (f : File) :
    fileTable (files ++ [f]) = update (update (fileTable files) rootino
      (some ⟨tDir, 0, 0, 1, rootData files ++ direntBytes (files.length + 2) f.stored⟩))
      (files.length + 2) (some ⟨tFile, 0, 0, 1, f.content⟩) := by
  funext i
  match i with
  | 0 => rfl
  | 1 =>
    rw [update_of_ne (by omega), show (1 : Nat) = rootino from rfl, update_self,
      ← rootData_snoc]
    rfl
  | i + 2 =>
    by_cases hi : i = files.length
    · rw [hi, update_self]
      simp [fileTable]
    · rw [update_of_ne (by omega), update_of_ne (by simp [rootino])]
      simp only [fileTable]
      by_cases hlt : i < files.length
      · rw [List.getElem?_append_left hlt]
      · rw [List.getElem?_eq_none (by simp; omega), List.getElem?_eq_none (by omega)]

theorem initial_disk (hc : c ≠ 1) : initial.disk c = fun _ => 0 := by
  simp only [initial]
  rw [update_of_ne hc]

theorem initial_free (hi : i < ninodes) : (dinode sb initial.image i).type = 0 := by
  have hlo : 1 < sb.iblock i := Nat.lt_of_lt_of_le (by decide) (Nat.le_add_left ..)
  have hzero : initial.disk (sb.iblock i) = fun _ => 0 := initial_disk (by omega)
  rw [State.image, dinode_marked _ _ hi, dinode, hzero]
  rfl

theorem built_initial : Built initial fun _ => none := by
  have hnone : ∀ i, ¬ Allocated sb (dinode sb initial.image) i := fun i hi =>
    hi.2.2 (initial_free hi.2.1)
  have hslot : ∀ P, slot sb (dinode sb initial.image) initial.image P = 0 := fun P =>
    slot_of_not_allocated (hnone _)
  have hbit : ∀ b, b < sb.size → bit sb initial.image b = decide (b < nmeta) := fun b hb =>
    bit_marked _ _ (Nat.lt_of_lt_of_le hb (by decide))
  refine { ready := ⟨fun c hc => ?_, Nat.le_refl _⟩, cons := ⟨⟨fun P hP => absurd (hslot P) hP,
             fun P _ hP => absurd (hslot P) hP, fun b hlo hhi => ?_, fun b hb => ?_⟩,
             fun i hi => absurd hi (hnone i)⟩,
           inodes := Nat.le_refl _, free := fun i _ hi => initial_free hi,
           tight := fun i hi => absurd hi (hnone i), rest := fun i hi => absurd hi (hnone i),
           files := funext fun i => if_neg (hnone i) }
  · exact initial_disk (Nat.ne_of_gt (Nat.lt_of_lt_of_le (by decide : 1 < nmeta) hc))
  · rw [hbit b hhi, decide_eq_true_eq]
    refine ⟨fun h => absurd h (Nat.not_lt.mpr hlo), fun ⟨P, hP⟩ => ?_⟩
    have := sb.datastart_pos
    rw [hslot P] at hP
    omega
  · rw [hbit b (Nat.lt_trans hb (by decide))]
    exact decide_eq_true hb

section Main

variable {s s' : State}

theorem built_root (h : makeRoot = .ok s) (hfits : s.freeblock ≤ fssize) :
    Built s (fileTable []) ∧ s.freeinode = 2 := by
  unfold makeRoot at h
  change (if (1 : Nat) ≠ rootino then _ else _) = _ at h
  rw [if_neg (by decide)] at h
  obtain ⟨s₁, hdot, hdotdot⟩ := bind_ok h
  have h₀ := built_initial.ialloc (by decide) (by decide : tDir ≠ 0)
  obtain ⟨h₁, hino₁⟩ := h₀.iappend (i := rootino) (update_self ..)
    (by decide) (by simp [direntBytes]) (by rw [direntBytes_length]; decide) hdot
    (Nat.le_trans (iappend_le hdotdot) hfits)
  obtain ⟨h₂, hino₂⟩ := h₁.iappend (i := rootino) (update_self ..)
    (by decide) (by simp [direntBytes]) (by rw [direntBytes_length]; decide) hdotdot hfits
  refine ⟨?_, hino₂.trans hino₁⟩
  have htable : fileTable [] = update (fun _ => none) rootino
      (some ⟨tDir, 0, 0, 1, rootData []⟩) := by
    funext i
    rcases i with - | - | i
    · rfl
    · rfl
    · rw [update_of_ne (by simp [rootino])]
      rfl
  rw [update_idem] at h₂
  rw [htable]
  change Built s (update (update (fun _ => none) rootino _) rootino _) at h₂
  rw [update_idem] at h₂
  simpa [rootData] using h₂

theorem addFile_le {f : File} (h : addFile s f = .ok s') : s.freeblock ≤ s'.freeblock := by
  unfold addFile at h
  split at h
  · cases h
  · obtain ⟨s₁, hfirst, hrest⟩ := bind_ok h
    have hentry : s.freeblock ≤ s₁.freeblock :=
      iappend_le (s := (ialloc tFile s).2) (i := rootino) hfirst
    exact Nat.le_trans hentry (iappends_le hrest)

theorem addFiles_le : ∀ {files : List File} {s : State}, files.foldlM addFile s = .ok s' →
    s.freeblock ≤ s'.freeblock
  | [], _, h => by
    cases h
    exact Nat.le_refl _
  | f :: files, s, h => by
    rw [List.foldlM_cons] at h
    obtain ⟨s₁, hfirst, hrest⟩ := bind_ok h
    exact Nat.le_trans (addFile_le hfirst) (addFiles_le hrest)

/-- An input file gets the next inode and an entry in the root directory. -/
theorem Built.addFile {seen : List File} (h : Built s (fileTable seen))
    (hino : s.freeinode = seen.length + 2) (hlt : seen.length + 2 < ninodes) {f : File}
    (hadd : addFile s f = .ok s') (hfits : s'.freeblock ≤ fssize) :
    Built s' (fileTable (seen ++ [f])) ∧ s'.freeinode = (seen ++ [f]).length + 2 := by
  unfold Mkfs.addFile at hadd
  split at hadd
  · cases hadd
  · obtain ⟨s₁, hentry, hchunks⟩ := bind_ok hadd
    have h₀ := h.ialloc (hino ▸ hlt) (by decide : tFile ≠ 0)
    rw [hino] at h₀
    change Mkfs.iappend rootino (Mkfs.ialloc tFile s).2 (direntBytes s.freeinode f.stored) = _ at hentry
    rw [hino] at hentry
    have hroot : update (fileTable seen) (seen.length + 2) (some ⟨tFile, 0, 0, 1, []⟩)
        rootino = some ⟨tDir, 0, 0, 1, rootData seen⟩ :=
      update_of_ne (by simp [rootino]) ..
    obtain ⟨h₁, hino₁⟩ := h₀.iappend hroot (by decide : tDir ≠ tDev)
      (by simp [direntBytes]) (by rw [direntBytes_length]; decide) hentry
      (Nat.le_trans (iappends_le hchunks) hfits)
    have hfile : update (update (fileTable seen) (seen.length + 2)
        (some ⟨tFile, 0, 0, 1, []⟩)) rootino (some ⟨tDir, 0, 0, 1, rootData seen ++
          direntBytes (seen.length + 2) f.stored⟩) (seen.length + 2) =
        some ⟨tFile, 0, 0, 1, []⟩ := by
      rw [update_of_ne (by simp [rootino]), update_self]
    change (f.chunks.foldlM (Mkfs.iappend s.freeinode) s₁) = _ at hchunks
    rw [hino] at hchunks
    obtain ⟨h₂, hino₂⟩ := Built.iappends f.reads h₁ hfile (by decide) hchunks hfits
    refine ⟨?_, ?_⟩
    · rw [fileTable_snoc, update_comm (by simp [rootino])]
      rw [update_comm (by simp [rootino]), update_idem] at h₂
      simpa [File.content] using h₂
    · rw [hino₂, hino₁]
      change s.freeinode + 1 = _
      simp [hino]

theorem Built.addFiles : ∀ {files seen : List File} {s : State}, Built s (fileTable seen) →
    s.freeinode = seen.length + 2 → seen.length + files.length + 1 < ninodes →
    files.foldlM Mkfs.addFile s = .ok s' → s'.freeblock ≤ fssize → Built s' (fileTable (seen ++ files))
  | [], seen, s, h, _, _, hfold, _ => by
    cases hfold
    rwa [List.append_nil]
  | f :: files, seen, s, h, hino, hlen, hfold, hfits => by
    rw [List.length_cons] at hlen
    rw [List.foldlM_cons] at hfold
    obtain ⟨s₁, hfirst, hrest⟩ := bind_ok hfold
    obtain ⟨h₁, hino₁⟩ := h.addFile hino (by omega) hfirst (Nat.le_trans (addFiles_le hrest) hfits)
    have := Built.addFiles h₁ hino₁ (by rw [List.length_append, List.length_singleton]; omega)
      hrest hfits
    rwa [List.append_assoc, List.singleton_append] at this

/-- The root directory with its size rounded up. -/
def fixedRoot (s : State) : Dinode :=
  { dinode sb s.image rootino with
    size := UInt32.ofNat (((dinode sb s.image rootino).size.toNat / bsize + 1) * bsize) }

/-- `main` builds the files, and writes the root inode and the bitmap at the end. -/
theorem main_built {files : List File} (h : main files = .ok s')
    (hlen : files.length + 1 < ninodes) (hfits : s'.freeblock ≤ fssize) :
    ∃ s, Built s (fileTable files) ∧ s'.freeblock = s.freeblock ∧
      s'.disk = iupdate sb s.image rootino (fixedRoot s) := by
  obtain ⟨s₀, hroot, h⟩ := bind_ok h
  obtain ⟨s, hfiles, h⟩ := bind_ok h
  obtain ⟨d, hbitmap, h⟩ := bind_ok h
  cases h
  obtain ⟨h₀, hino₀⟩ := built_root hroot (Nat.le_trans (addFiles_le hfiles) hfits)
  have hbuilt := Built.addFiles h₀ hino₀ (by simpa using hlen) hfiles hfits
  refine ⟨s, hbuilt, rfl, ?_⟩
  unfold balloc at hbitmap
  split at hbitmap
  · cases hbitmap
    change marked (fixRoot s.disk) s.freeblock = _
    rw [fixRoot, marked_iupdate _ _ (by decide), fixedRoot, State.image, dinode_marked _ _ (by decide)]
  · cases hbitmap

end Main

end Xv6.Fs.Mkfs
