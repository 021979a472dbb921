import Xv6.Fs.SharedFile

/-!
# The blocks that a chunk of `filewrite` logs

Each chunk of `filewrite` is one transaction, and `begin_op` sets `MAXOPBLOCKS`
blocks of the log aside for it. `balloc`, `bmap` and `writei` are run here with
the set of blocks that `log_write` has been called on; without it they are the
functions of `Fs/Blocks.lean` and `Fs/Inode.lean`. How many blocks a chunk logs
is read off the inode, the bitmap, the offset and the length (`chunkBlocks`).
-/

namespace Xv6.Fs

open Outcome Transition Function Finset

/-! ## §1  The functions, with their calls of `log_write` -/

/-- The state is the set of blocks that have been logged. -/
abbrev Logging := StateT (Finset Nat) (Except BlockPanic)

def logWrite (b : Nat) : Logging Unit := modify (insert b)

namespace Logging

/-- The bitmap block is logged, and in `bzero` the new block. -/
def balloc (S : Superblock) (d : Disk) : Logging (Nat × Disk) :=
  match freeBlock S d with
  | some b => do
      logWrite (S.bblock b)
      logWrite b
      return (b, update (setBit S d b) b fun _ => 0)
  | none => throw .outOfBlocks

def bmapIndirect (S : Superblock) (d : Disk) (din : Dinode) : Logging (Nat × Disk × Dinode) :=
  if din.addrs indirectIdx = 0 then do
    let (b, d) ← balloc S d
    return (b, d, din.setAddr indirectIdx b)
  else return ((din.addrs indirectIdx).toNat, d, din)

def bmap (S : Superblock) (d : Disk) (din : Dinode) (bn : Nat) : Logging (Nat × Disk × Dinode) :=
  if h : bn < ndirect then
    let k : Fin (ndirect + 1) := ⟨bn, Nat.lt_succ_of_lt h⟩
    if din.addrs k = 0 then do
      let (b, d) ← balloc S d
      return (b, d, din.setAddr k b)
    else return ((din.addrs k).toNat, d, din)
  else if bn - ndirect < nindirect then do
    let (ind, d, din) ← bmapIndirect S d din
    let a := entry (d ind) (bn - ndirect)
    if a = 0 then do
      let (b, d) ← balloc S d
      logWrite ind
      return (b, update d ind (setEntry (d ind) (bn - ndirect) b), din)
    else return (a, d, din)
  else throw .outOfRange

/-- The loop of `writei`. -/
def writeLoop (S : Superblock) : Nat → Nat → Nat → Disk → Dinode → (Nat → UInt8) →
    Logging (Disk × Dinode × (Nat → UInt8))
  | 0, _, _, d, din, src => return (d, din, src)
  | fuel + 1, off, n, d, din, src =>
    if n = 0 then return (d, din, src)
    else do
      let (b, d, din) ← bmap S d din (off / bsize)
      let m := min n (bsize - off % bsize)
      let (d, src) := writeBody b (off % bsize) m d src
      logWrite b
      writeLoop S fuel (off + m) (n - m) d din src

def writei (S : Superblock) (d : Disk) (i : Nat) (din : Dinode) (src : Nat → UInt8)
    (off n : UInt32) : Logging (Option UInt32 × Disk × Dinode) :=
  if din.type = tDev then throw (.device din.major)
  else if off > din.size ∨ off + n < off then return (none, d, din)
  else if (off + n).toNat > maxfile * bsize then return (none, d, din)
  else do
    let (d, din, _) ← writeLoop S n.toNat off.toNat n.toNat d din src
    if n > 0 ∧ off + n > din.size then
      let din := { din with size := off + n }
      -- in `iupdate`
      logWrite (S.iblock i)
      return (some n, iupdate S d i din, din)
    else return (some n, d, din)

/-- What `filewrite` does between `begin_op` and `end_op` when `k` bytes of `buf`
have been written: `ilock` has the inode in memory or reads it, and `iunlock` does
not log. -/
def filewriteChunk (S : Superblock) (s : InodeState) (i : Nat) (buf : List UInt8) (k : Nat)
    (off : UInt32) : Logging (Option UInt32 × InodeState) := do
  let n1 := UInt32.ofNat (Shared.chunk buf k).length
  let (r, d, din) ← writei S s.disk i (s.table S i) (bytesAt (Shared.chunk buf k)) off n1
  return (r, ⟨d, update s.mem i (some din)⟩)

/-! Without the set they are the functions that do not log. -/

section Erase

variable {S : Superblock} {d d' : Disk} {i : Nat} {din : Dinode} {L L' : Finset Nat}

theorem bind_run {α β : Type} {x : Logging α} {f : α → Logging β} {b : β}
    (h : (x >>= f) L = .ok (b, L')) : ∃ a L₁, x L = .ok (a, L₁) ∧ f a L₁ = .ok (b, L') := by
  obtain ⟨⟨a, L₁⟩, hx, hf⟩ := bind_ok h
  exact ⟨a, L₁, hx, hf⟩

theorem balloc_run {b : Nat} (h : balloc S d L = .ok ((b, d'), L')) :
    Fs.balloc S d = .ok (b, d') ∧ L' = insert b (insert (S.bblock b) L) := by
  cases hfree : freeBlock S d with
  | none =>
    simp only [balloc, hfree] at h
    cases h
  | some c =>
    simp only [balloc, hfree] at h
    cases h
    rw [Fs.balloc, hfree]
    exact ⟨rfl, rfl⟩

/-- The block of the indirect addresses is logged if it is new. -/
theorem bmapIndirect_run {ind : Nat} {din' : Dinode}
    (h : bmapIndirect S d din L = .ok ((ind, d', din'), L')) :
    Fs.bmapIndirect S d din = .ok (ind, d', din') ∧
      (din.addrs indirectIdx = 0 ∧ Fs.balloc S d = .ok (ind, d') ∧
          L' = insert ind (insert (S.bblock ind) L) ∨
        din.addrs indirectIdx ≠ 0 ∧ d' = d ∧ L' = L) := by
  unfold bmapIndirect at h
  rw [Fs.bmapIndirect]
  split at h
  · rename_i hnone
    obtain ⟨⟨b, d₁⟩, L₁, hb, hrest⟩ := bind_run h
    obtain ⟨hballoc, rfl⟩ := balloc_run hb
    cases hrest
    rw [if_pos hnone]
    exact ⟨ok_bind hballoc rfl, .inl ⟨hnone, hballoc, rfl⟩⟩
  · rename_i hne
    cases h
    rw [if_neg hne]
    exact ⟨rfl, .inr ⟨hne, rfl, rfl⟩⟩

theorem bmap_erase {bn b : Nat} {din' : Dinode} (h : bmap S d din bn L = .ok ((b, d', din'), L')) :
    Fs.bmap S d din bn = .ok (b, d', din') := by
  unfold bmap at h
  unfold Fs.bmap
  split at h
  · rename_i hk
    rw [dif_pos hk]
    simp only at h ⊢
    split at h
    · rename_i hnone
      obtain ⟨⟨c, d₁⟩, L₁, hb, hrest⟩ := bind_run h
      cases hrest
      rw [if_pos hnone]
      exact ok_bind (balloc_run hb).1 rfl
    · rename_i hne
      cases h
      rw [if_neg hne]
      rfl
  · rename_i hk
    rw [dif_neg hk]
    split at h
    · rename_i hj
      rw [if_pos hj]
      obtain ⟨⟨ind, d₁, din₁⟩, L₁, hind, h⟩ := bind_run h
      refine ok_bind (bmapIndirect_run hind).1 ?_
      simp only at h ⊢
      split at h
      · rename_i hentry
        obtain ⟨⟨c, d₂⟩, L₂, hb, hrest⟩ := bind_run h
        cases hrest
        rw [if_pos hentry]
        exact ok_bind (balloc_run hb).1 rfl
      · rename_i hentry
        cases h
        rw [if_neg hentry]
        rfl
    · cases h

theorem writeLoop_erase : ∀ {fuel off n : Nat} {d d' : Disk} {din din' : Dinode}
    {src src' : Nat → UInt8} {L L' : Finset Nat},
    writeLoop S fuel off n d din src L = .ok ((d', din', src'), L') →
      eachBlock S writeBody fuel off n d din src = .ok (d', din', src')
  | 0, _, _, _, _, _, _, _, _, _, _, h => by
    cases h
    rfl
  | fuel + 1, off, n, d, d', din, din', src, src', L, L', h => by
    rw [writeLoop] at h
    rw [eachBlock]
    split at h
    · rename_i hn
      cases h
      rw [if_pos hn]
    · rename_i hn
      rw [if_neg hn]
      obtain ⟨⟨b, d₁, din₁⟩, L₁, hb, h⟩ := bind_run h
      refine ok_bind (bmap_erase hb) ?_
      obtain ⟨-, L₂, hlog, h⟩ := bind_run h
      exact writeLoop_erase h

/-- **`writei`** with its log is `writei`. -/
theorem writei_erase {src : Nat → UInt8} {off n : UInt32} {r : Option UInt32} {din' : Dinode}
    (h : writei S d i din src off n L = .ok ((r, d', din'), L')) :
    Fs.writei S d i din src off n = .ok (r, d', din') := by
  unfold writei at h
  unfold Fs.writei
  split at h
  · cases h
  rename_i hdev
  rw [if_neg hdev]
  split at h
  · rename_i hout
    cases h
    rw [if_pos hout]
  rename_i hout
  rw [if_neg hout]
  split at h
  · rename_i hbig
    cases h
    rw [if_pos hbig]
  rename_i hbig
  rw [if_neg hbig]
  obtain ⟨⟨d₁, din₁, src₁⟩, L₁, hloop, h⟩ := bind_run h
  refine ok_bind (writeLoop_erase hloop) ?_
  simp only at h ⊢
  split at h
  · rename_i hgrow
    obtain ⟨-, L₂, hlog, hrest⟩ := bind_run h
    cases hrest
    rw [if_pos hgrow]
    rfl
  · rename_i hgrow
    cases h
    rw [if_neg hgrow]
    rfl

end Erase

/-! ## §2  Free blocks are taken in order -/

section Free

variable {S : Superblock} {D : Nat → Dinode} {d d' : Disk} {i : Nat} {L L' : Finset Nat}

/-- The free blocks, in the order in which `balloc` takes them. -/
def freeBlocks (S : Superblock) (d : Disk) : List Nat :=
  (List.range S.size).filter fun b => bit S d b = false

theorem freeBlocks_congr (h : ∀ c, S.bmapstart ≤ c → c < S.datastart → d' c = d c) :
    freeBlocks S d' = freeBlocks S d := by
  refine List.filter_congr fun b hb => ?_
  rw [bit_congr (List.mem_range.mp hb) h]

theorem balloc_freeBlocks {m : Place → Nat} (hok : AllocOK S m (bit S d)) {b : Nat}
    (h : Fs.balloc S d = .ok (b, d')) : freeBlocks S d = b :: freeBlocks S d' := by
  have hf := balloc_fresh hok h
  have hfirst : (freeBlocks S d).head? = some b := by
    rw [freeBlocks, List.head?_filter]
    unfold Fs.balloc at h
    split at h
    · rename_i c hfree
      cases h
      exact hfree
    · cases h
  have hnodup : (freeBlocks S d).Nodup := List.nodup_range.filter _
  obtain ⟨t, ht⟩ : ∃ t, freeBlocks S d = b :: t := by
    cases hl : freeBlocks S d with
    | nil => rw [hl] at hfirst; cases hfirst
    | cons c t =>
      rw [hl] at hfirst
      cases hfirst
      exact ⟨t, rfl⟩
  -- the bits differ at `b` alone
  have hrest : freeBlocks S d' = (freeBlocks S d).filter (· ≠ b) := by
    rw [freeBlocks, freeBlocks, List.filter_filter]
    refine List.filter_congr fun c hc => ?_
    rw [hf.bits c (List.mem_range.mp hc)]
    cases bit S d c <;> simp
  rw [ht, List.nodup_cons] at hnodup
  rw [hrest, ht, List.filter_cons_of_neg (by simp)]
  congr 1
  refine (List.filter_eq_self.mpr fun c hc => ?_).symm
  exact decide_eq_true fun heq => hnodup.1 (heq ▸ hc)

/-- What `bmap` logs: for a block that the file lacks the block, the indirect
block if the number goes there, and the bitmap blocks of what it takes. -/
def bmapLogs (d : Disk) (din : Dinode) (bn b ind : Nat) : Finset Nat :=
  if blockOf d din bn = 0 then insert b (if ndirect ≤ bn then {ind} else ∅) else ∅

theorem bmap_logs (hok : BlocksOK S D d) (hi : Allocated S D i)
    (bn : Fin maxfile) {b : Nat} {din' : Dinode}
    (h : bmap S d (D i) bn L = .ok ((b, d', din'), L')) :
    freeBlocks S d' = (freeBlocks S d).drop (bmapNeeds d (D i) bn) ∧
      L' = L ∪ bmapLogs d (D i) bn b (din'.addrs indirectIdx).toNat ∪
        ((freeBlocks S d).take (bmapNeeds d (D i) bn)).toFinset.image S.bblock := by
  unfold bmap at h
  split at h
  · rename_i hk
    simp only at h
    split at h
    · rename_i hnone
      obtain ⟨⟨c, d₁⟩, L₁, hb, hrest⟩ := bind_run h
      obtain ⟨hballoc, rfl⟩ := balloc_run hb
      cases hrest
      have hzero : blockOf d (D i) bn = 0 := by
        rw [blockOf, dif_pos hk, hnone]
        rfl
      rw [bmapNeeds_direct hk hnone, balloc_freeBlocks hok hballoc, bmapLogs, if_pos hzero,
        if_neg (Nat.not_le.mpr hk)]
      exact ⟨rfl, by ext x; simp⟩
    · rename_i hne
      cases h
      have hmapped : blockOf d (D i) bn ≠ 0 := by
        rw [blockOf, dif_pos hk]
        exact fun heq => hne (UInt32.toNat_inj.mp heq)
      rw [bmapNeeds_mapped hmapped, bmapLogs, if_neg hmapped]
      exact ⟨rfl, by simp⟩
  · rename_i hk
    split at h
    · rename_i hj
      obtain ⟨⟨ind, d₁, din₁⟩, L₁, hind, h⟩ := bind_run h
      obtain ⟨hbi, hnew⟩ := bmapIndirect_run hind
      obtain ⟨hgrown, -⟩ := bmapIndirect_spec hok hi hbi
      obtain ⟨-, hindeq, hdata, hentry⟩ := bmapIndirect_entry hok hi hbi
      simp only [hentry bn hk] at h
      split at h
      · rename_i hzero
        obtain ⟨⟨c, d₂⟩, L₂, hb, hrest⟩ := bind_run h
        obtain ⟨hballoc, rfl⟩ := balloc_run hb
        cases hrest
        have hkeep : freeBlocks S (update d₂ ind (setEntry (d₂ ind) (bn - ndirect) c)) =
            freeBlocks S d₂ :=
          freeBlocks_congr fun x _ hx => update_of_ne (by omega) ..
        have hnext := balloc_freeBlocks hgrown.ok hballoc
        rw [hkeep, bmapLogs, if_pos hzero, if_pos (Nat.le_of_not_lt hk), hindeq, bmapNeeds,
          if_neg (not_not.mpr hzero), if_neg hk]
        obtain ⟨hnone, hballoc₁, rfl⟩ | ⟨hsome, rfl, rfl⟩ := hnew
        · rw [if_pos hnone, balloc_freeBlocks hok hballoc₁, hnext]
          exact ⟨rfl, by ext x; simp [or_left_comm]⟩
        · rw [if_neg hsome, hnext]
          exact ⟨rfl, by ext x; simp [or_comm, or_left_comm]⟩
      · rename_i hmapped
        cases h
        have hsome : (D i).addrs indirectIdx ≠ 0 := by
          intro heq
          rw [blockOf, dif_neg hk, if_pos heq] at hmapped
          exact hmapped rfl
        obtain ⟨hnone, -⟩ | ⟨-, rfl, rfl⟩ := hnew
        · exact absurd hnone hsome
        · rw [bmapNeeds_mapped hmapped, bmapLogs, if_neg hmapped]
          exact ⟨rfl, by simp⟩
    · cases h

end Free

/-! ## §3  What a chunk logs -/

section Count

variable {S : Superblock} {D₀ D : Nat → Dinode} {d₀ d d' : Disk} {i : Nat} {L L' T : Finset Nat}

/-- The blocks among `T` that a file lacks. -/
def lacking (d : Disk) (din : Dinode) (T : Finset Nat) : Finset Nat :=
  T.filter fun bn => blockOf d din bn = 0

/-- The free blocks it takes to write the blocks `T`. -/
def allocates (d : Disk) (din : Dinode) (T : Finset Nat) : Nat :=
  (lacking d din T).card +
    if din.addrs indirectIdx = 0 ∧ ∃ bn ∈ T, ndirect ≤ bn then 1 else 0

/-- The bitmap blocks in which the next `k` free blocks are marked. -/
def bitmapBlocks (S : Superblock) (d : Disk) (k : Nat) : Finset Nat :=
  ((freeBlocks S d).take k).toFinset.image S.bblock

/-- The loop of `writei`, begun with table `D₀` and disk `d₀`, has written the
blocks `T` of file `i`. -/
structure LogsUpTo (S : Superblock) (D₀ : Nat → Dinode) (d₀ : Disk) (i : Nat) (T : Finset Nat)
    (D : Nat → Dinode) (d : Disk) (L : Finset Nat) : Prop where
  ok : AllocOK S (slot S D d) (bit S d)
  alloc : Allocated S D i
  inFile : ∀ bn ∈ T, bn < maxfile
  here : ∀ bn ∈ T, blockOf d (D i) bn ≠ 0
  others : ∀ bn, bn < maxfile → bn ∉ T → blockOf d (D i) bn = blockOf d₀ (D₀ i) bn
  indirect : (D i).addrs indirectIdx = 0 ↔
    (D₀ i).addrs indirectIdx = 0 ∧ ∀ bn ∈ T, bn < ndirect
  size : (D i).size = (D₀ i).size
  free : freeBlocks S d = (freeBlocks S d₀).drop (allocates d₀ (D₀ i) T)
  logged : L = T.image (blockOf d (D i)) ∪
    (if ∃ bn ∈ lacking d₀ (D₀ i) T, ndirect ≤ bn then {((D i).addrs indirectIdx).toNat} else ∅) ∪
    bitmapBlocks S d₀ (allocates d₀ (D₀ i) T)

theorem LogsUpTo.start (hok : BlocksOK S D d) (hi : Allocated S D i) :
    LogsUpTo S D d i ∅ D d ∅ where
  ok := hok
  alloc := hi
  inFile _ h := nomatch h
  here _ h := nomatch h
  others _ _ _ := rfl
  indirect := by simp
  size := rfl
  free := by simp [allocates, lacking]
  logged := by simp [allocates, lacking, bitmapBlocks]

/-- A block reached through the indirect block. -/
theorem indirect_of_blockOf {din : Dinode} {bn : Nat} (hbn : ndirect ≤ bn)
    (h : blockOf d din bn ≠ 0) : din.addrs indirectIdx ≠ 0 := by
  intro heq
  rw [blockOf, dif_neg (Nat.not_lt.mpr hbn), if_pos heq] at h
  exact h rfl

/-- One block more needs what `bmap` needs for it. -/
theorem LogsUpTo.allocates_insert (h : LogsUpTo S D₀ d₀ i T D d L) {bn : Nat} (hbn : bn < maxfile) :
    allocates d₀ (D₀ i) (insert bn T) = allocates d₀ (D₀ i) T + bmapNeeds d (D i) bn := by
  by_cases hT : bn ∈ T
  · rw [insert_eq_of_mem hT, bmapNeeds_mapped (h.here bn hT), Nat.add_zero]
  · have hsame := h.others bn hbn hT
    by_cases hmapped : blockOf d (D i) bn ≠ 0
    · -- the file has the block, and with it the indirect block it needs
      have hmapped₀ : ¬ blockOf d₀ (D₀ i) bn = 0 := hsame ▸ hmapped
      have hind : (D₀ i).addrs indirectIdx = 0 → ¬ ndirect ≤ bn := fun hnone hle =>
        indirect_of_blockOf hle hmapped₀ hnone
      rw [bmapNeeds_mapped hmapped, allocates, allocates, lacking, filter_insert,
        if_neg hmapped₀, Nat.add_zero]
      congr 1
      refine if_congr (and_congr_right fun hnone => ?_) rfl rfl
      simp [hind hnone]
    · have hzero := not_not.mp hmapped
      have hzero₀ : blockOf d₀ (D₀ i) bn = 0 := hsame ▸ hzero
      have hcard : (lacking d₀ (D₀ i) (insert bn T)).card = (lacking d₀ (D₀ i) T).card + 1 := by
        rw [lacking, filter_insert, if_pos hzero₀]
        exact card_insert_of_notMem fun hmem => hT (mem_filter.mp hmem).1
      rw [allocates, allocates, hcard, bmapNeeds, if_neg hmapped]
      by_cases hlt : bn < ndirect
      · have hiff : (∃ x ∈ insert bn T, ndirect ≤ x) ↔ ∃ x ∈ T, ndirect ≤ x := by
          simp [Nat.not_le.mpr hlt]
        rw [if_pos hlt, if_congr (and_congr_right fun _ => hiff) rfl rfl]
        omega
      · have hex : ∃ x ∈ insert bn T, ndirect ≤ x :=
          ⟨bn, mem_insert_self .., Nat.le_of_not_lt hlt⟩
        rw [if_neg hlt]
        by_cases hnone : (D₀ i).addrs indirectIdx = 0
        · by_cases hT' : ∃ x ∈ T, ndirect ≤ x
          · have hind : ¬ (D i).addrs indirectIdx = 0 := fun heq => by
              obtain ⟨x, hx, hle⟩ := hT'
              exact absurd ((h.indirect.mp heq).2 x hx) (Nat.not_lt.mpr hle)
            rw [if_pos ⟨hnone, hex⟩, if_pos ⟨hnone, hT'⟩, if_neg hind]
          · have hind : (D i).addrs indirectIdx = 0 := h.indirect.mpr ⟨hnone, fun x hx =>
              Nat.lt_of_not_le fun hle => hT' ⟨x, hx, hle⟩⟩
            rw [if_pos ⟨hnone, hex⟩, if_neg fun hc => hT' hc.2, if_pos hind]
        · rw [if_neg fun hc => hnone hc.1, if_neg fun hc => hnone hc.1,
            if_neg fun heq => hnone (h.indirect.mp heq).1]

theorem bitmapBlocks_add (k j : Nat) (hd : freeBlocks S d = (freeBlocks S d₀).drop k) :
    bitmapBlocks S d₀ (k + j) = bitmapBlocks S d₀ k ∪ bitmapBlocks S d j := by
  rw [bitmapBlocks, bitmapBlocks, bitmapBlocks, hd, List.take_add, List.toFinset_append,
    image_union]

/-- The indirect block is logged when a first block number goes there. -/
theorem LogsUpTo.indirect_insert (h : LogsUpTo S D₀ d₀ i T D d L) {bn : Fin maxfile} :
    (∃ x ∈ lacking d₀ (D₀ i) (insert (bn : Nat) T), ndirect ≤ x) ↔
      (∃ x ∈ lacking d₀ (D₀ i) T, ndirect ≤ x) ∨ blockOf d (D i) bn = 0 ∧ ndirect ≤ (bn : Nat) := by
  constructor
  · rintro ⟨x, hx, hle⟩
    obtain ⟨hx, hzero⟩ := mem_filter.mp hx
    by_cases hxT : x ∈ T
    · exact .inl ⟨x, mem_filter.mpr ⟨hxT, hzero⟩, hle⟩
    · obtain rfl := (mem_insert.mp hx).resolve_right hxT
      exact .inr ⟨(h.others _ bn.isLt hxT).trans hzero, hle⟩
  · rintro (⟨x, hx, hle⟩ | ⟨hzero, hle⟩)
    · obtain ⟨hx, hlack⟩ := mem_filter.mp hx
      exact ⟨x, mem_filter.mpr ⟨mem_insert_of_mem hx, hlack⟩, hle⟩
    · have hT : (bn : Nat) ∉ T := fun hmem => h.here _ hmem hzero
      have hlack : blockOf d₀ (D₀ i) bn = 0 := h.others _ bn.isLt hT ▸ hzero
      exact ⟨bn, mem_filter.mpr ⟨mem_insert_self .., hlack⟩, hle⟩

theorem logged_insert {A B B' : Finset Nat} {b k k' : Nat} {p q r : Prop} [Decidable p]
    [Decidable q] [Decidable r] (h : p → k = k') :
    insert b (A ∪ (if p then {k} else ∅) ∪ B ∪
        (if q then insert b (if r then {k'} else ∅) else ∅) ∪ B') =
      insert b A ∪ (if p ∨ q ∧ r then {k'} else ∅) ∪ (B ∪ B') := by
  by_cases hp : p
  · obtain rfl := h hp
    grind
  · grind

/-- **One round** of the loop: `bmap`, `memmove` and `log_write`. -/
theorem LogsUpTo.step (h : LogsUpTo S D₀ d₀ i T D d L) {bn : Fin maxfile} {b : Nat} {d₁ d₂ : Disk}
    {din₁ : Dinode} (hm : BlockMapped S D d i bn b d₁ din₁)
    (hfree : freeBlocks S d₁ = (freeBlocks S d).drop (bmapNeeds d (D i) bn))
    (hframe : ∀ c, c ≠ b → d₂ c = d₁ c) :
    LogsUpTo S D₀ d₀ i (insert (bn : Nat) T) (update D i din₁) d₂
      (insert b (L ∪ bmapLogs d (D i) bn b (din₁.addrs indirectIdx).toNat ∪
        bitmapBlocks S d (bmapNeeds d (D i) bn))) := by
  obtain ⟨hslot, hok, hbefore⟩ := hm.overwrite hframe
  have hi₁ : Allocated S (update D i din₁) i :=
    (allocated_update (by rw [hm.attrs]) i).mpr h.alloc
  -- the blocks of the file, by the block numbers stored
  have hnow : ∀ x (hx : x < maxfile), blockOf d₂ (update D i din₁ i) x =
      slot S (update D i din₁) d₁ (.data i ⟨x, hx⟩) := fun x hx => by
    rw [← hslot, slot_data hi₁]
  have hself : blockOf d₂ (update D i din₁ i) bn = b := (hnow bn bn.isLt).trans hm.block
  have hkeep : ∀ x ∈ T, blockOf d₂ (update D i din₁ i) x = blockOf d (D i) x :=
    fun x hx => by
      have hold : slot S D d (.data i ⟨x, h.inFile x hx⟩) ≠ 0 := by
        rw [slot_data h.alloc]
        exact h.here x hx
      rw [hnow x (h.inFile x hx), hm.grown.grows _ hold, slot_data h.alloc]
  have hother : ∀ x, x < maxfile → x ≠ bn →
      blockOf d₂ (update D i din₁ i) x = blockOf d (D i) x := fun x hx hne => by
    rw [hnow x hx, hm.others _ (fun heq => hne (by cases heq; rfl)) (by simp), slot_data h.alloc]
  have hsize : (update D i din₁ i).size = (D i).size := by
    rw [update_self, hm.attrs]
  refine { ok := hok, alloc := hi₁, inFile := fun x hx => ?_, here := fun x hx => ?_,
           others := fun x hx hxT => ?_, indirect := ?_, size := hsize.trans h.size,
           free := ?_, logged := ?_ }
  · obtain rfl | hx := mem_insert.mp hx
    · exact bn.isLt
    · exact h.inFile x hx
  · obtain rfl | hx := mem_insert.mp hx
    · rw [hself]
      exact hm.pos
    · rw [hkeep x hx]
      exact h.here x hx
  · rw [mem_insert, not_or] at hxT
    rw [hother x hx hxT.1, h.others x hx hxT.2]
  · rw [update_self]
    by_cases hlt : (bn : Nat) < ndirect
    · rw [hm.kept hlt, h.indirect]
      simp [hlt]
    · refine iff_of_false (hm.indirect (Nat.le_of_not_lt hlt)) fun hc => hlt ?_
      exact hc.2 bn (mem_insert_self ..)
  · rw [freeBlocks_congr fun c _ hc => hbefore c hc, hfree, h.free, List.drop_drop,
      h.allocates_insert bn.isLt]
  · rw [h.allocates_insert bn.isLt, bitmapBlocks_add _ _ h.free, image_insert, hself,
      image_congr hkeep, h.logged, if_congr h.indirect_insert rfl rfl, bmapLogs]
    -- an indirect block that has been logged stays where it is
    have hind : (∃ x ∈ lacking d₀ (D₀ i) T, ndirect ≤ x) →
        ((D i).addrs indirectIdx).toNat =
          ((update D i din₁ i).addrs indirectIdx).toNat := by
      rintro ⟨x, hx, hle⟩
      have hne := indirect_of_blockOf hle (h.here x (mem_filter.mp hx).1)
      have hold : slot S D d (.indirect i) ≠ 0 := by
        rw [slot_indirect h.alloc]
        exact fun heq => hne (UInt32.toNat_inj.mp heq)
      rw [← slot_indirect hi₁ (d := d₁), hm.grown.grows _ hold, slot_indirect h.alloc]
    rw [update_self] at hind ⊢
    exact logged_insert hind

/-- The blocks of a file that `n` bytes from `off` on lie in. -/
def blocksOf (off n : Nat) : Finset Nat :=
  if n = 0 then ∅ else Icc (off / bsize) ((off + n - 1) / bsize)

theorem blocksOf_chunk {off n : Nat} (hn : 0 < n) :
    blocksOf off n = insert (off / bsize) (blocksOf (off + chunk off n) (n - chunk off n)) := by
  have hle := chunk_le off n
  rw [blocksOf, if_neg (Nat.ne_of_gt hn), blocksOf]
  ext x
  rw [mem_insert, mem_Icc]
  by_cases hlast : n - chunk off n = 0
  · rw [if_pos hlast]
    have hend : (off + n - 1) / bsize = off / bsize := by
      simp only [chunk, bsize] at hlast ⊢
      omega
    simp only [hend, notMem_empty, or_false]
    omega
  · rw [if_neg hlast, mem_Icc]
    have hnext : (off + chunk off n) / bsize = off / bsize + 1 := by
      simp only [chunk, bsize] at hlast ⊢
      omega
    have hend : off + chunk off n + (n - chunk off n) = off + n := by omega
    have hge : off / bsize ≤ (off + n - 1) / bsize := Nat.div_le_div_right (by omega)
    rw [hnext, hend]
    omega

/-- **The loop of `writei`** writes and logs the blocks of its range. -/
theorem writeLoop_logs : ∀ {fuel off n : Nat} {T : Finset Nat} {D : Nat → Dinode} {d d' : Disk}
    {din' : Dinode} {src src' : Nat → UInt8} {L L' : Finset Nat}, n ≤ fuel →
    off + n ≤ maxfile * bsize → LogsUpTo S D₀ d₀ i T D d L →
    writeLoop S fuel off n d (D i) src L = .ok ((d', din', src'), L') →
    LogsUpTo S D₀ d₀ i (T ∪ blocksOf off n) (update D i din') d' L'
  | 0, off, n, T, D, d, d', din', src, src', L, L', hfuel, _, h, hrun => by
    cases hrun
    obtain rfl : n = 0 := Nat.le_zero.mp hfuel
    rwa [update_eq_self, blocksOf, if_pos rfl, union_empty]
  | fuel + 1, off, n, T, D, d, d', din', src, src', L, L', hfuel, hmax, h, hrun => by
    rw [writeLoop] at hrun
    split at hrun
    · rename_i hn
      cases hrun
      rwa [update_eq_self, blocksOf, if_pos hn, union_empty]
    · rename_i hn
      have hn : 0 < n := Nat.pos_of_ne_zero hn
      obtain ⟨⟨b, d₁, din₁⟩, L₁, hb, hrun⟩ := bind_run hrun
      have hm := bmap_spec h.ok h.alloc ⟨off / bsize, block_lt hn hmax⟩ (bmap_erase hb)
      obtain ⟨hfree, rfl⟩ := bmap_logs h.ok h.alloc ⟨off / bsize, block_lt hn hmax⟩ hb
      have hnext := h.step hm hfree
        (writeBody_frame b (off % bsize) (chunk off n) d₁ src)
      obtain ⟨_, L₂, hlog, hrun⟩ := bind_run hrun
      cases hlog
      have hle := chunk_le off n
      have hpos := chunk_pos off hn
      have hfuel₁ : n - chunk off n ≤ fuel := by omega
      have hmax₁ : off + chunk off n + (n - chunk off n) ≤ maxfile * bsize := by omega
      have hrest := writeLoop_logs hfuel₁ hmax₁ hnext (by rw [update_self]; exact hrun)
      rw [update_idem] at hrest
      rwa [blocksOf_chunk hn, union_insert, ← insert_union]

theorem lt_of_mem_bitmapBlocks {k x : Nat} (h : x ∈ bitmapBlocks S d k) :
    S.bmapstart ≤ x ∧ x < S.datastart := by
  obtain ⟨b, hb, rfl⟩ := mem_image.mp h
  have hmem := List.mem_of_mem_take (List.mem_toFinset.mp hb)
  exact ⟨S.bmapstart_le_bblock b, S.bblock_lt (List.mem_range.mp (List.mem_filter.mp hmem).1)⟩

/-- The blocks written are blocks of files, and so is the indirect block. -/
theorem LogsUpTo.data (h : LogsUpTo S D₀ d₀ i T D d L) {bn : Nat} (hbn : bn ∈ T) :
    S.datastart ≤ blockOf d (D i) bn ∧
      (ndirect ≤ bn → S.datastart ≤ ((D i).addrs indirectIdx).toNat) := by
  have hslot := slot_data (d := d) h.alloc ⟨bn, h.inFile bn hbn⟩
  refine ⟨hslot ▸ (h.ok.data _ (hslot ▸ h.here bn hbn)).1, fun hle => ?_⟩
  have hind := slot_indirect (d := d) h.alloc
  refine hind ▸ (h.ok.data _ fun heq => ?_).1
  exact indirect_of_blockOf hle (h.here bn hbn) (UInt32.toNat_inj.mp (hind.symm.trans heq))

/-- The blocks logged, counted by what they are. -/
theorem LogsUpTo.card (h : LogsUpTo S D₀ d₀ i T D d L) : L.card = T.card +
    (if ∃ bn ∈ lacking d₀ (D₀ i) T, ndirect ≤ bn then 1 else 0) +
    (bitmapBlocks S d₀ (allocates d₀ (D₀ i) T)).card := by
  have hdata : (T.image (blockOf d (D i))).card = T.card := by
    refine card_image_of_injOn fun x hx y hy heq => ?_
    have hx' := slot_data (d := d) h.alloc ⟨x, h.inFile x hx⟩
    have hy' := slot_data (d := d) h.alloc ⟨y, h.inFile y hy⟩
    have := h.ok.once _ _ (hx' ▸ h.here x hx) (hx'.trans (heq.trans hy'.symm))
    cases this
    rfl
  have hindirect : ∀ bn ∈ T, ((D i).addrs indirectIdx).toNat ≠ blockOf d (D i) bn := by
    intro bn hbn heq
    have hslot := slot_data (d := d) h.alloc ⟨bn, h.inFile bn hbn⟩
    have hind := slot_indirect (d := d) h.alloc
    cases h.ok.once _ _ (hslot ▸ h.here bn hbn) (hslot.trans (heq.symm.trans hind.symm))
  rw [h.logged, card_union_of_disjoint, card_union_of_disjoint, hdata]
  · congr 2
    split <;> rfl
  · refine disjoint_left.mpr fun x hx hxi => ?_
    obtain ⟨bn, hbn, rfl⟩ := mem_image.mp hx
    split at hxi
    · exact hindirect bn hbn (mem_singleton.mp hxi).symm
    · cases hxi
  · refine disjoint_left.mpr fun x hx hxb => ?_
    have hlt := (lt_of_mem_bitmapBlocks hxb).2
    obtain hx | hx := mem_union.mp hx
    · obtain ⟨bn, hbn, rfl⟩ := mem_image.mp hx
      exact Nat.not_lt.mpr (h.data hbn).1 hlt
    · split at hx
      · rename_i hex
        obtain ⟨bn, hbn, hle⟩ := hex
        rw [mem_singleton.mp hx] at hlt
        exact Nat.not_lt.mpr ((h.data (mem_filter.mp hbn).1).2 hle) hlt
      · cases hx

theorem LogsUpTo.iblock_notMem (h : LogsUpTo S D₀ d₀ i T D d L) : S.iblock i ∉ L := by
  have hlt := S.iblock_lt h.alloc.2.1
  have hstart := S.bmapstart_lt_datastart
  intro hmem
  rw [h.logged, mem_union, mem_union] at hmem
  obtain (hx | hx) | hx := hmem
  · obtain ⟨bn, hbn, heq⟩ := mem_image.mp hx
    have := (h.data hbn).1
    omega
  · split at hx
    · rename_i hex
      obtain ⟨bn, hbn, hle⟩ := hex
      have := (h.data (mem_filter.mp hbn).1).2 hle
      rw [mem_singleton] at hx
      omega
    · cases hx
  · have := (lt_of_mem_bitmapBlocks hx).1
    omega

end Count

/-! ## §4  A chunk and the reservation of `begin_op` -/

section Chunk

variable {S : Superblock} {s : InodeState} {D : Nat → Dinode} {d d' : Disk} {i : Nat}
  {L : Finset Nat}

/-- `writei` refuses the range, and logs nothing. -/
def Refused (din : Dinode) (off n : Nat) : Prop :=
  din.size.toNat < off ∨ maxfile * bsize < off + n

/-- The blocks of the log that a chunk of `n` bytes at `off` takes: its blocks of the
file; the indirect block, if a number is stored there; the bitmap blocks that mark
the blocks it allocates; and the block of the inode, if the file grows. -/
def chunkBlocks (S : Superblock) (d : Disk) (din : Dinode) (off n : Nat) : Nat :=
  (blocksOf off n).card +
    (if ∃ bn ∈ lacking d din (blocksOf off n), ndirect ≤ bn then 1 else 0) +
    (bitmapBlocks S d (allocates d din (blocksOf off n))).card +
    (if din.size.toNat < off + n then 1 else 0)

theorem writei_logs (hok : BlocksOK S D d) (hi : Allocated S D i)
    {src : Nat → UInt8} {off n : UInt32} (hn : 0 < n.toNat) {r : Option UInt32} {din' : Dinode}
    (h : writei S d i (D i) src off n ∅ = .ok ((r, d', din'), L)) :
    Refused (D i) off.toNat n.toNat ∧ L = ∅ ∨
      ¬ Refused (D i) off.toNat n.toNat ∧ L.card = chunkBlocks S d (D i) off.toNat n.toNat := by
  have hword : maxfile * bsize < 2 ^ 32 := by decide
  unfold writei at h
  split at h
  · cases h
  split at h
  · rename_i hout
    cases h
    refine .inl ⟨?_, rfl⟩
    have := outside_iff.mp hout
    rw [Refused]
    omega
  rename_i hout
  have hin := mt outside_iff.mpr hout
  have hadd := toNat_add_of_inside hin
  rw [hadd] at h
  split at h
  · rename_i hbig
    cases h
    exact .inl ⟨.inr hbig, rfl⟩
  rename_i hbig
  refine .inr ⟨by rw [Refused]; omega, ?_⟩
  obtain ⟨⟨d₁, din₁, src₁⟩, L₁, hloop, h⟩ := bind_run h
  have hlogs := writeLoop_logs (Nat.le_refl _) (Nat.le_of_not_lt hbig) (.start hok hi) hloop
  rw [empty_union] at hlogs
  have hsize : din₁.size = (D i).size := by
    have := hlogs.size
    rwa [update_self] at this
  have hgrows : (n > 0 ∧ off + n > din₁.size) ↔ (D i).size.toNat < off.toNat + n.toNat := by
    rw [gt_iff_lt, gt_iff_lt, UInt32.lt_iff_toNat_lt, UInt32.lt_iff_toNat_lt, hadd, hsize]
    exact and_iff_right hn
  simp only at h
  split at h
  · rename_i hgrow
    obtain ⟨_, L₂, hlog, hrest⟩ := bind_run h
    cases hlog
    cases hrest
    rw [card_insert_of_notMem hlogs.iblock_notMem, hlogs.card, chunkBlocks,
      if_pos (hgrows.mp hgrow)]
  · rename_i hgrow
    cases h
    rw [hlogs.card, chunkBlocks, if_neg (mt hgrows.mpr hgrow), Nat.add_zero]

/-- **A chunk of `filewrite` keeps to its reservation** just when `writei` refuses
it or `chunkBlocks` is at most `MAXOPBLOCKS`. `filewrite` has written `k` bytes of
`buf`; the offset, the inode and the disk are whatever they are when `ilock`
returns. The longest chunks, `maxChunk` bytes, lie in 13 blocks or more, so none
of them that is written keeps to it. -/
theorem filewrite_chunk_logs_iff (h : FileInv S s) (hi : Allocated S (s.table S) i)
    {buf : List UInt8} {k : Nat} (hk : k < buf.length) {off : UInt32} {r : Option UInt32}
    {s' : InodeState} (hrun : filewriteChunk S s i buf k off ∅ = .ok ((r, s'), L)) :
    L.card ≤ maxOpBlocks ↔
      Refused (s.table S i) off.toNat (Shared.chunk buf k).length ∨
        chunkBlocks S s.disk (s.table S i) off.toNat (Shared.chunk buf k).length ≤ maxOpBlocks := by
  obtain ⟨⟨r₁, d₁, din₁⟩, L₁, hwrite, hrest⟩ := bind_run hrun
  cases hrest
  have hlen := Shared.chunk_word buf k
  have hpos : 0 < (Shared.chunk buf k).length := by
    rw [Shared.chunk, List.length_take, List.length_drop]
    exact Nat.lt_min.mpr ⟨by decide, by omega⟩
  obtain ⟨href, rfl⟩ | ⟨href, hcard⟩ := writei_logs h.alloc hi (by rw [hlen]; exact hpos) hwrite
  · rw [hlen] at href
    exact iff_of_true (Nat.zero_le _) (.inl href)
  · rw [hlen] at href hcard
    rw [hcard]
    exact ⟨.inr, fun hor => hor.resolve_left href⟩

/-- A new file, in memory. -/
def newFile : List InodeEvent := [.ialloc tFile 1, .ilock 1]

def newFileState : InodeState :=
  (newFile.foldlM (System.guardedNext (inodeNext smallDisk) fun _ _ => True)
    (.boot emptyImage)).get (by decide +kernel)

theorem newFileState_run :
    (inodeSystem smallDisk).Run (.boot emptyImage) newFile newFileState :=
  (System.run_ofNext (Option.some_get _).symm).of_guarded

theorem newFileState_inv : FileInv smallDisk newFileState ∧ NoHoles smallDisk newFileState.disk :=
  NoHoles.run emptyImage_consistent (fun i hi => absurd hi (emptyImage_free i)) newFileState_run

/-- Three bytes: the block, its bit and the inode. -/
theorem filewrite_chunk_logs_short : ∃ r s' L,
    filewriteChunk smallDisk newFileState 1 [7, 8, 9] 0 0 ∅ = .ok ((r, s'), L) ∧
      (L.card ≤ maxOpBlocks ↔ Refused (newFileState.table smallDisk 1) 0 3 ∨
        chunkBlocks smallDisk newFileState.disk (newFileState.table smallDisk 1) 0 3 ≤
          maxOpBlocks) := by
  cases hrun : filewriteChunk smallDisk newFileState 1 [7, 8, 9] 0 0 ∅ with
  | error e =>
    have : (filewriteChunk smallDisk newFileState 1 [7, 8, 9] 0 0 ∅).isOk := by decide +kernel
    rw [hrun] at this
    cases this
  | ok x =>
    exact ⟨x.1.1, x.1.2, x.2, rfl, filewrite_chunk_logs_iff newFileState_inv.1
      (by decide +kernel) (by decide) hrun⟩

/-- **A chunk logs more than was reserved.** 4608 bytes at the start of an empty
file are one chunk for `filewrite`: nine blocks of the file, the bitmap block and
the block of the inode. -/
theorem filewrite_chunk_exceeds :
    (inodeSystem smallDisk).Run (.boot emptyImage) newFile newFileState ∧
      NoHoles smallDisk newFileState.disk ∧ (newFileState.table smallDisk 1).type = tFile ∧
      ∃ r s' L, filewriteChunk smallDisk newFileState 1 (List.replicate 4608 7) 0 0 ∅ =
        .ok ((r, s'), L) ∧ L.card = 11 ∧ maxOpBlocks < L.card := by
  refine ⟨newFileState_run, newFileState_inv.2, by decide +kernel, ?_⟩
  have hcard : ((filewriteChunk smallDisk newFileState 1 (List.replicate 4608 7) 0 0 ∅).map
      fun x => x.2.card).toOption = some 11 := by decide +kernel
  cases hrun : filewriteChunk smallDisk newFileState 1 (List.replicate 4608 7) 0 0 ∅ with
  | error e =>
    rw [hrun] at hcard
    cases hcard
  | ok x =>
    rw [hrun] at hcard
    have heleven : x.2.card = 11 := Option.some.inj hcard
    exact ⟨x.1.1, x.1.2, x.2, rfl, heleven, by rw [heleven]; decide⟩

end Chunk

end Logging

end Xv6.Fs
