import Xv6.Shm.Records

/-!
# Holders and counters

A live process *holds* the page `f` at a position when its record there has
`f`. While no call is made through a stale record, every page held is the
page of a slot with the recorded key, and the counter of a slot is at least
the number of its holders (`Linked`). So a slot is never emptied while
somebody still holds its page.

The counter may be larger than the number of holders: `fork` counts set bits
without a page at the first free slot, and a slot keeps such a count when it
is filled. §5 gives the exact change of both sides in a `fork`.
-/

namespace Xv6

open Outcome Transition Function Kernel

/-! ## §1  Counting holders -/

/-- At how many positions the process holds `f`. -/
def Proc.holds (q : Proc) (f : Nat) : Nat :=
  if q.state.live = true then ∑ i, if q.phySharedPage i = f then 1 else 0 else 0

/-- By how many positions of live processes `f` is held. -/
def Kernel.holders (s : Kernel) (f : Nat) : Nat := ∑ p, (s.proc p).holds f

theorem holders_setProc (s : Kernel) (p : Fin nproc) (q : Proc) (f : Nat) :
    (s.setProc p q).holders f + (s.proc p).holds f = s.holders f + q.holds f := by
  have := Tally.sum_change (s := Finset.univ) (i := p) (f := fun p' => (s.proc p').holds f)
    (g := fun p' => ((s.setProc p q).proc p').holds f) (Finset.mem_univ p)
    (by intro j _ hj; simp only [setProc_ne hj])
  simpa only [Kernel.holders, setProc_self] using this

variable {q q' : Proc} {i t y : Fin shmemPages}

/-- A live process changes one position. -/
theorem holds_update {b : Nat} (hlive : q.state.live = true) (hstate : q'.state = q.state)
    (hphy : q'.phySharedPage = update q.phySharedPage i b) (f : Nat) :
    q'.holds f + (if q.phySharedPage i = f then 1 else 0) =
      q.holds f + if b = f then 1 else 0 := by
  have := Tally.sum_change (s := Finset.univ) (i := i)
    (f := fun j => if q.phySharedPage j = f then 1 else 0)
    (g := fun j => if q'.phySharedPage j = f then 1 else 0) (Finset.mem_univ i)
    (by intro j _ hj; simp [hphy, hj])
  simpa [Proc.holds, hstate, hlive, hphy] using this

variable {s s' : Kernel} {c np p : Fin nproc}

/-- The same for all holders. -/
theorem holders_update {b : Nat} (hlive : s.Live p)
    (hstate : q.state = (s.proc p).state)
    (hphy : q.phySharedPage = update (s.proc p).phySharedPage i b) (f : Nat) :
    (s.setProc p q).holders f + (if (s.proc p).phySharedPage i = f then 1 else 0) =
      s.holders f + if b = f then 1 else 0 := by
  have h₁ := holders_setProc s p q f
  have h₂ := holds_update hlive hstate hphy f
  omega

theorem holders_pos {f : Nat} (hlive : s.Live p)
    (hphy : (s.proc p).phySharedPage i = f) :
    1 ≤ s.holders f := by
  have h₁ := Tally.le_sum (s := Finset.univ)
    (f := fun j => if (s.proc p).phySharedPage j = f then 1 else 0) (Finset.mem_univ i)
  have h₂ := Tally.le_sum (s := Finset.univ) (f := fun p => (s.proc p).holds f)
    (Finset.mem_univ p)
  simp only [Proc.holds, hlive, if_true] at h₂
  rw [if_pos hphy] at h₁
  exact h₁.trans h₂

/-- Who holds `f`, if anybody does. -/
theorem exists_holder {f : Nat} (h : 0 < s.holders f) :
    ∃ p i, s.Live p ∧ (s.proc p).phySharedPage i = f := by
  obtain ⟨p, -, hp⟩ := Tally.exists_pos_of_sum h
  by_cases hlive : s.Live p
  · rw [Proc.holds, if_pos hlive] at hp
    obtain ⟨i, -, hi⟩ := Tally.exists_pos_of_sum hp
    refine ⟨p, i, hlive, ?_⟩
    by_contra hne
    simp [hne] at hi
  · rw [Proc.holds, if_neg hlive] at hp
    omega

variable [Image]

/-! ## §2  The invariant -/

structure Linked (s : Kernel) : Prop where
  records : Records s
  slot : ∀ p i, (s.proc p).state.live = true → (s.proc p).phySharedPage i ≠ 0 →
    ∃ t, s.shTable.shmemAddr t = (s.proc p).phySharedPage i ∧
      s.shTable.shmemKey t = (s.proc p).pKey i
  count : ∀ t, s.shTable.shmemKey t ≠ zeroKey →
    (s.holders (s.shTable.shmemAddr t) : Int) ≤ s.shTable.shmemCounter t

theorem Linked.withLock (h : Linked s) (b : Bool) : Linked (s.withLock b) :=
  ⟨h.records.withLock b, h.slot, h.count⟩

theorem Linked.used_iff (h : Linked s) (t : Fin shmemPages) :
    s.shTable.shmemKey t ≠ zeroKey ↔ s.shTable.shmemAddr t ≠ 0 :=
  not_congr (h.records.sane.table.empty t)

/-- A page on the free list is not held. -/
theorem Linked.not_held (h : Linked s) {f : Nat} (hf : f ∈ s.mem.freelist) (hf0 : f ≠ 0) :
    s.holders f = 0 := by
  by_contra hne
  obtain ⟨p, i, hlive, hphy⟩ := exists_holder (Nat.pos_of_ne_zero hne)
  obtain ⟨t, ht, -⟩ := h.slot p i hlive fun h0 => hf0 (hphy.symm.trans h0)
  have h₁ := slots_pos (ht.trans hphy)
  have h₂ := List.count_pos_iff.mpr hf
  have h₃ := h.records.apart f hf0
  omega

/-! ## §3  Placing and giving up a page -/

/-- A page of slot `t` is placed at a free position, under the key of the
slot. The slot may be new. -/
theorem Linked.place {pos : Fin shmemPages} {f : Nat} {key : Buf} {pg : PgDir} {m : Mem}
    {tab : ShmTable} (h : Linked s) (hlive : s.Live p)
    (hpos : (s.proc p).phySharedPage pos = 0)
    (hkey : memmove ((s.proc p).pKey pos) key (strlen key) = keyOf key)
    (haddr : tab.shmemAddr t = f) (htkey : tab.shmemKey t = keyOf key)
    (hother : ∀ t', t' ≠ t → tab.shmemAddr t' = s.shTable.shmemAddr t' ∧
      tab.shmemKey t' = s.shTable.shmemKey t' ∧ tab.shmemCounter t' = s.shTable.shmemCounter t')
    (hfresh : s.shTable.shmemAddr t = 0 ∨
      (s.shTable.shmemAddr t = f ∧ s.shTable.shmemKey t = keyOf key))
    (hcount : (s.holders f : Int) + 1 ≤ tab.shmemCounter t)
    (hrec : Records ({ s with mem := m, shTable := tab }.setProc p
      ((s.proc p).attach pos f key pg))) :
    Linked ({ s with mem := m, shTable := tab }.setProc p ((s.proc p).attach pos f key pg)) := by
  refine ⟨hrec, fun p' i hlive' hi => ?_, fun t' ht' => ?_⟩
  · -- a record of an old page still finds its slot
    have hold : ∀ f' k, (∃ t', s.shTable.shmemAddr t' = f' ∧ s.shTable.shmemKey t' = k) → f' ≠ 0 →
        ∃ t', tab.shmemAddr t' = f' ∧ tab.shmemKey t' = k := by
      rintro f' k ⟨t', h₁, h₂⟩ hf'
      by_cases ht' : t' = t
      · subst ht'
        rcases hfresh with h0 | ⟨h₃, h₄⟩
        · exact absurd (h₁.symm.trans h0) hf'
        · exact ⟨t', haddr.trans (h₃.symm.trans h₁), htkey.trans (h₄.symm.trans h₂)⟩
      · obtain ⟨h₃, h₄, -⟩ := hother t' ht'
        exact ⟨t', h₃.trans h₁, h₄.trans h₂⟩
    by_cases hp : p' = p
    · subst hp
      simp only [setProc_self, setProc_shTable] at *
      by_cases hip : i = pos
      · subst hip
        exact ⟨t, by simp [Proc.attach, haddr], by simp [Proc.attach, htkey, hkey]⟩
      · have hi' : (s.proc p').phySharedPage i ≠ 0 := by simpa [Proc.attach, hip] using hi
        simpa [Proc.attach, hip] using hold _ _ (h.slot p' i hlive hi') hi'
    · simp only [setProc_ne hp, setProc_shTable] at *
      exact hold _ _ (h.slot p' i hlive' hi) hi
  · have hnew := holders_update (s := { s with mem := m, shTable := tab }) (p := p) (b := f)
      (q := (s.proc p).attach pos f key pg) (i := pos) hlive rfl rfl
    simp only [setProc_shTable] at ht' ⊢
    have hne : tab.shmemAddr t' ≠ 0 := fun h0 => ht' ((hrec.sane.table.empty t').mpr h0)
    have hcnt := hnew (tab.shmemAddr t')
    change _ + _ = s.holders _ + _ at hcnt
    simp only [hpos] at hcnt
    rw [if_neg (Ne.symm hne), Nat.add_zero] at hcnt
    rw [hcnt]
    by_cases htt : t' = t
    · subst htt
      rw [haddr, if_pos rfl]
      exact_mod_cast hcount
    · have hinj : tab.shmemAddr t' ≠ f := fun heq =>
        htt (hrec.addr_inj (i := t') (j := t) (heq.trans haddr.symm) hne)
      obtain ⟨h₁, h₂, h₃⟩ := hother t' htt
      rw [if_neg (Ne.symm hinj), Nat.add_zero, h₁, h₃]
      exact h.count t' (by rwa [← h₂])

/-- A position is given up at the slot with its page. When it was the last
hold, no other record names the page, so none loses its slot. -/
theorem Linked.giveUp {m : Mem} {tab : ShmTable} (h : Linked s)
    (hlive : s.Live p)
    (hphy : (s.proc p).phySharedPage i = s.shTable.shmemAddr y)
    (hg : GiveUp s.shTable s.mem y tab m) (hstate : q'.state = (s.proc p).state)
    (hphy' : q'.phySharedPage = update (s.proc p).phySharedPage i 0)
    (hkey' : ∀ j, j ≠ i → q'.pKey j = (s.proc p).pKey j)
    (hrec : Records ({ s with mem := m, shTable := tab }.setProc p q')) :
    Linked ({ s with mem := m, shTable := tab }.setProc p q') := by
  have hcnt : ∀ g, g ≠ 0 → ({ s with mem := m, shTable := tab }.setProc p q').holders g +
      (if s.shTable.shmemAddr y = g then 1 else 0) = s.holders g := by
    intro g hg0
    have := holders_update (s := { s with mem := m, shTable := tab }) (p := p) (b := 0)
      (q := q') (i := i) hlive hstate hphy' g
    rw [hphy, if_neg (Ne.symm hg0), Nat.add_zero] at this
    exact this
  -- a record that still has its page is an old one, at another position
  have hold : ∀ p' j, (({ s with mem := m, shTable := tab }.setProc p q').proc p').state.live
      = true → (({ s with mem := m, shTable := tab }.setProc p q').proc p').phySharedPage j ≠ 0 →
      ∃ t, s.shTable.shmemAddr t =
          (({ s with mem := m, shTable := tab }.setProc p q').proc p').phySharedPage j ∧
        s.shTable.shmemKey t =
          (({ s with mem := m, shTable := tab }.setProc p q').proc p').pKey j := by
    intro p' j hlive' hj
    by_cases hp : p' = p
    · subst hp
      simp only [setProc_self] at hj ⊢
      have hji : j ≠ i := by
        rintro rfl
        simp [hphy'] at hj
      have hj' : (s.proc p').phySharedPage j ≠ 0 := by simpa [hphy', hji] using hj
      simpa [hphy', hji, hkey' j hji] using h.slot p' j hlive hj'
    · simp only [setProc_ne hp] at hlive' hj ⊢
      exact h.slot p' j hlive' hj
  cases hg with
  | last hone hframe hl =>
    have hy0 := hframe.ne_zero
    refine ⟨hrec, fun p' j hlive' hj => ?_, fun t ht => ?_⟩
    · obtain ⟨t, ht, htk⟩ := hold p' j hlive' hj
      have hty : t ≠ y := by
        rintro rfl
        have h₁ := holders_pos hlive' ht.symm
        have h₂ := hcnt _ hy0
        have h₃ := h.count t ((h.used_iff t).mpr hy0)
        rw [if_pos rfl] at h₂
        omega
      exact ⟨t, by simpa [hty] using ht, by simpa [hty] using htk⟩
    · have hty : t ≠ y := by
        rintro rfl
        simp at ht
      have ht' : s.shTable.shmemKey t ≠ zeroKey := by simpa [hty] using ht
      have h₁ := hcnt _ ((h.used_iff t).mp ht')
      have h₂ := h.count t ht'
      simp only [setProc_shTable, ShmTable.free_addr, ShmTable.free_counter, hty, if_false]
      omega
  | other hgt hl =>
    refine ⟨hrec, hold, fun t ht => ?_⟩
    have ht' : s.shTable.shmemKey t ≠ zeroKey := ht
    have h₁ := hcnt _ ((h.used_iff t).mp ht')
    have h₂ := h.count t ht'
    simp only [setProc_shTable, ShmTable.setCounter_addr, ShmTable.setCounter_counter]
    by_cases hty : t = y
    · subst hty
      rw [if_pos rfl] at h₁
      rw [if_pos rfl]
      omega
    · rw [if_neg hty]
      omega

/-! ## §4  The calls -/

/-- The exit path: whatever free slots it passes, pages held are given up at
their own slots. -/
theorem Linked.detachAt (h : Linked s) (hlive : s.Live p)
    (hd : detachAt p i y s = .ok s') :
    Linked s' ∧ s'.Live p := by
  have hrec := h.records.detachAt hd
  rcases detachAt_ok hd with ⟨rfl, -⟩ | ⟨pg, t, m, hphy, hgive, -, rfl⟩
  · exact ⟨h, hlive⟩
  · exact ⟨h.giveUp hlive hphy hgive rfl rfl (fun _ _ => rfl) hrec, by simpa [Live] using hlive⟩

theorem Linked.detachAll (h : Linked s) (hlive : s.Live p)
    (hd : detachAll p s = .ok s') :
    Linked s' ∧ s'.Live p :=
  detachAll_inv (I := fun s => Linked s ∧ s.Live p)
    (fun _ _ _ _ hs _ hd => hs.1.detachAt hs.2 hd) ⟨h, hlive⟩ hd

/-- A record that compares equal to the key and has its page is the record of
the slot that does. -/
theorem Linked.record_slot (h : Linked s) {key : Buf} (hlive : s.Live p)
    (hkey : IsKey key) (hi : strncmp (s.shTable.shmemKey i).buf key 16 = 0)
    (hy : strncmp ((s.proc p).pKey y).buf key 16 = 0) (hphy : (s.proc p).phySharedPage y ≠ 0) :
    (s.proc p).phySharedPage y = s.shTable.shmemAddr i ∧ (s.proc p).pKey y = keyOf key := by
  obtain ⟨t, ht, htk⟩ := h.slot p y hlive hphy
  have htable := h.records.sane.table
  rw [← htk] at hy
  have hik := (htable.match_pos hkey hi).1
  have htk' := (htable.match_pos hkey hy).1
  have hti : t = i := htable.distinct t i (htk'.trans hik.symm)
    ((h.used_iff t).mpr (by rw [ht]; exact hphy))
  subst hti
  exact ⟨ht.symm, htk.symm.trans htk'⟩

/-- `shmrem` by key, through a record that has its page. -/
theorem Linked.shmrem_key {key : Buf} {r : Int} (h : Linked s)
    (hlive : s.Live p) (hkey : IsKey key)
    (hcmp : memcmp key Image.shmremLit 16 ≠ 0)
    (hcare : ∀ t y, strncmp (s.shTable.shmemKey t).buf key 16 = 0 →
      findRec (s.proc p) key = some y → (s.proc p).phySharedPage y ≠ 0)
    (hr : shmrem p key s = .ok (r, s')) : Linked s' := by
  have hrec := h.records.shmrem hkey hr
  obtain ⟨-, ⟨h0, -⟩ | ⟨-, -, -, rfl⟩ | ⟨-, i, y, s₁, hfind, hdet, rfl⟩⟩ := shmrem_ok hr
  · exact absurd h0 hcmp
  · exact h
  · obtain ⟨hi, hy⟩ := findDetach_some hfind
    have hpos := (h.records.sane.table.match_pos hkey hi).2
    obtain ⟨hslot, -⟩ := h.record_slot hlive hkey hi (findRec_some hy) (hcare i y hi hy)
    obtain ⟨pg, t, m, k, hgive, -, hk, rfl⟩ := detachKey_ok (s := s.withLock true) hpos hdet
    refine Linked.withLock ?_ false
    refine (h.withLock true).giveUp hlive hslot hgive rfl rfl (fun j hj => ?_)
      (hrec.withLock t.lock)
    rcases hk with ⟨-, -, rfl⟩ | ⟨-, -, rfl⟩
    · rfl
    · simp [hj]

/-- `shmget`, when a record is not written over the rest of a longer key. -/
theorem Linked.shmget {key : Buf} {r : CallResult} (h : Linked s)
    (hlive : s.Live p) (hkey : IsKey key)
    (hcare : ∀ pos, findPos (s.proc p) = some pos →
      (findRec (s.proc p) key = none ∨ ∀ t, strncmp (s.shTable.shmemKey t).buf key 16 ≠ 0) →
      memmove ((s.proc p).pKey pos) key (strlen key) = keyOf key)
    (hg : shmget p key s = .ok (r, s')) : Linked s' := by
  have hrec := h.records.shmget hkey hg
  rcases shmget_ok hkey hg with _ | ⟨t, pos, pg, m, ht, hy, -, hpos, hmap⟩ |
    ⟨t, pos, f, pg, m₁, m, hno, ht, hl, hpos, hmap⟩
  · exact h
  · obtain ⟨htk, -⟩ := h.records.sane.table.match_pos hkey ht
    have hused : s.shTable.shmemKey t ≠ zeroKey := by
      rw [htk]
      exact fun hz => keyOf_zero_ne hkey ((keyOf_padded hkey).eq_zero_iff.mpr hz)
    refine h.place hlive (findPos_some hpos) (hcare pos hpos (.inl hy)) rfl htk
      (fun t' ht' => ?_) (.inr ⟨rfl, htk⟩) ?_ hrec
    · simp [ht']
    · have := h.count t hused
      simp only [ShmTable.setCounter_counter, if_true]
      omega
  · have hf : IsFrame f := h.records.sane.free f (by simp [hl])
    have hfree : s.shTable.shmemAddr t = 0 :=
      (h.records.sane.table.empty t).mp ((h.records.sane.table.padded t).eq_zero_iff.mp ht)
    have hnone := h.not_held (f := f) (by simp [hl]) hf.ne_zero
    refine h.place (t := t) hlive (findPos_some hpos) (hcare pos hpos (.inr hno)) ?_ ?_
      (fun t' ht' => ?_) (.inl hfree) ?_ hrec
    · simp
    · simp [memmove_empty h.records.sane.table ht]
    · simp [ht']
    · have := h.records.sane.table.nonneg t
      simp only [ShmTable.setKey_counter, ShmTable.setCounter_counter, if_true, hnone]
      omega

/-- `exit` passes a literal that `shmrem` recognises. -/
def SentinelKnown : Prop := memcmp Image.exitLit Image.shmremLit 16 = 0

omit [Image] in
theorem sentinelKnown_sample : @SentinelKnown sampleImage :=
  show memcmp _ _ _ = _ from rfl

omit [Image] in
/-- A process that becomes a zombie holds nothing any more. -/
theorem holders_becomeZombie (p : Fin nproc) (s : Kernel) (f : Nat) :
    (becomeZombie p s).holders f + (s.proc p).holds f = s.holders f := by
  have hother : ∀ q, q ≠ p → ((becomeZombie p s).proc q).holds f = (s.proc q).holds f := by
    intro q hq
    obtain ⟨par, heq⟩ := becomeZombie_proc p q s
    rw [heq, if_neg hq]
    rfl
  have hself : ((becomeZombie p s).proc p).holds f = 0 := by
    obtain ⟨par, heq⟩ := becomeZombie_proc p p s
    rw [heq, if_pos rfl]
    rfl
  have := Tally.sum_change (s := Finset.univ) (i := p) (f := fun q => (s.proc q).holds f)
    (g := fun q => ((becomeZombie p s).proc q).holds f) (Finset.mem_univ p)
    (fun q _ hq => hother q hq)
  simp only [hself, Nat.add_zero] at this
  exact this

theorem Linked.exit (h : Linked s) (hsent : SentinelKnown) (hlive : s.Live p)
    (he : exit p s = .ok s') : Linked s' := by
  have hrec := h.records.exit he
  obtain ⟨-, r, s₁, hrem, rfl⟩ := exit_ok he
  obtain ⟨-, ⟨-, -, s₂, hall, rfl⟩ | ⟨hno, -⟩ | ⟨hno, -⟩⟩ := shmrem_ok hrem
  · have h₂ := ((h.withLock true).detachAll hlive hall).1.withLock false
    refine ⟨hrec, fun q i hq hi => ?_, fun t ht => ?_⟩
    · obtain ⟨par, heq⟩ := becomeZombie_proc p q (s₂.withLock false)
      by_cases hqp : q = p
      · rw [heq, if_pos hqp] at hq
        simp [ProcState.live] at hq
      · rw [heq, if_neg hqp] at hq hi ⊢
        exact h₂.slot q i hq hi
    · have h₃ := holders_becomeZombie p (s₂.withLock false) (s₂.shTable.shmemAddr t)
      have h₄ := h₂.count t ht
      simp only [withLock_addr, withLock_counter] at h₄
      simp only [becomeZombie, withLock_addr, withLock_counter] at h₃ ⊢
      omega
  · exact absurd hsent hno
  · exact absurd hsent hno

/-! ## §5  `fork` -/

omit [Image] in
/-- A child that cannot run yet holds nothing. -/
theorem holders_inherited {is : List (Fin shmemPages)} (hc : (s.proc c).state.live = false)
    (hi : Inherited p c is s s') (f : Nat) :
    s'.holders f = s.holders f := by
  refine Finset.sum_congr rfl fun q _ => ?_
  by_cases hq : q = c
  · simp only [hq, Proc.holds, hi.rest.2.2.1, hc, Bool.false_eq_true, if_false]
  · rw [hi.others q hq]

theorem Linked.inherited {is : List (Fin shmemPages)} (h : Linked s)
    (hc : (s.proc c).state = .embryo) (hi : Inherited p c is s s') :
    Linked s' where
  records := h.records.inherited hc hi
  slot q i hlive hphy := by
    by_cases hq : q = c
    · rw [hq, hi.rest.2.2.1, hc] at hlive
      simp [ProcState.live] at hlive
    · rw [hi.others q hq] at hlive hphy ⊢
      rw [hi.addr, hi.key]
      exact h.slot q i hlive hphy
  count t ht := by
    rw [hi.key] at ht
    rw [hi.addr, holders_inherited (by rw [hc]; rfl) hi]
    exact (h.count t ht).trans (hi.counter_le t)

/-- Pages of slots in use are different, so `manage_fork` counts a page at its
own slot. -/
theorem Records.slotOf_iff (h : Records s) {f : Nat} (hf : f ≠ 0) (t : Fin shmemPages) :
    slotOf s.shTable f = some t ↔ s.shTable.shmemAddr t = f := by
  constructor
  · intro hs
    simpa using find_finRange_some hs
  · intro ht
    cases hs : slotOf s.shTable f with
    | none =>
      have := find_finRange_none hs t
      simp [ht] at this
    | some y =>
      have hy : s.shTable.shmemAddr y = f := by simpa using find_finRange_some hs
      rw [h.addr_inj (hy.trans ht.symm) (hy ▸ hf)]

omit [Image] in
/-- A child that got all positions of its parent holds what its parent
holds. -/
theorem holds_inherited (hp : (s.proc p).RecordsOK) (hlive : s.Live p)
    (hphy : ∀ i, (s.proc c).phySharedPage i = 0) (hbit : ∀ i, (s.proc c).bitmap i = 0)
    (hi : Inherited p c (List.finRange shmemPages) s s') (hlive' : q'.state.live = true)
    (hq' : q'.phySharedPage = (s'.proc c).phySharedPage) (f : Nat) :
    q'.holds f = (s.proc p).holds f := by
  rw [Proc.holds, Proc.holds, if_pos hlive', if_pos hlive]
  refine Finset.sum_congr rfl fun i _ => ?_
  by_cases hc : (s.proc p).Copies (s.proc c) i
  · rw [hq', (hi.rec_copied i (List.mem_finRange i) hc).1]
  · -- the parent's bit is not set, so neither has a page here
    have h₀ : (s.proc p).phySharedPage i = 0 := by
      by_contra hne
      exact hc ⟨(hp.held i hne).bitmap, by rw [hbit i]; decide⟩
    rw [hq', (hi.rec_other i fun _ => hc).1, hphy i, h₀]

/-- How often `manage_fork` counts at a slot in use: once for each position of
the parent with its page. -/
theorem Records.hits_eq {r : Proc} (h : Records s) (hlive : s.Live p)
    (hbit : ∀ i, r.bitmap i = 0) (ht : s.shTable.shmemAddr t ≠ 0) :
    (s.proc p).hits r s.shTable (List.finRange shmemPages) t =
      (s.proc p).holds (s.shTable.shmemAddr t) := by
  rw [Proc.hits, Tally.countP_finRange, Proc.holds, if_pos hlive]
  refine Finset.sum_congr rfl fun i _ => ?_
  have hiff : ((s.proc p).Copies r i ∧
      slotOf s.shTable ((s.proc p).phySharedPage i) = some t) ↔
      (s.proc p).phySharedPage i = s.shTable.shmemAddr t := by
    constructor
    · rintro ⟨-, hs⟩
      have : s.shTable.shmemAddr t = (s.proc p).phySharedPage i := by
        simpa using find_finRange_some hs
      exact this.symm
    · intro heq
      have hne : (s.proc p).phySharedPage i ≠ 0 := by rw [heq]; exact ht
      refine ⟨⟨((h.ok p hlive).held i hne).bitmap, by rw [hbit i]; decide⟩, ?_⟩
      exact (h.slotOf_iff hne t).mpr heq.symm
  simp only [hiff]

omit [Image] in
/-- When every set bit of the parent has a page, free slots are not counted. -/
theorem hits_eq_zero {r : Proc} {tab : ShmTable} {is : List (Fin shmemPages)}
    (hpages : ∀ i, q.bitmap i = 1 → q.phySharedPage i ≠ 0) (ht : tab.shmemAddr t = 0) :
    q.hits r tab is t = 0 := by
  refine List.countP_eq_zero.mpr fun i _ => ?_
  simp only [decide_eq_true_eq]
  rintro ⟨hc, hs⟩
  have hslot : tab.shmemAddr t = q.phySharedPage i := of_decide_eq_true (find_finRange_some hs)
  exact hpages i hc.1 (hslot.symm.trans ht)

omit [Image] in
theorem holds_unused (h : q.state = .unused) (f : Nat) : q.holds f = 0 := by
  rw [Proc.holds, h]
  rfl

omit [Image] in
/-- A child that is only born holds nothing. -/
theorem holders_born (hun : (s.proc np).state = .unused) (k : Nat) (d : PgDir) (m : Mem) (f : Nat) :
    (s.born p np k d m).holders f = s.holders f := by
  refine Finset.sum_congr rfl fun q _ => ?_
  by_cases hq : q = np
  · rw [hq, holds_unused hun, born_self]
    rfl
  · rw [born_ne hq k d m]

/-- A new child, before `manage_fork`. -/
theorem Linked.born {k : Nat} {m₁ m₂ : Mem} {d : PgDir} (h : Linked s)
    (hun : (s.proc np).state = .unused) (hl : s.mem.freelist = k :: m₁.freelist)
    (hcopy : copyuvm (s.proc p).pgdir (s.proc p).sz m₁ = .ok (some d, m₂)) :
    Linked (s.born p np k d m₂) := by
  have hother : ∀ q, ((s.born p np k d m₂).proc q).state.live = true →
      (s.born p np k d m₂).proc q = s.proc q := by
    intro q hlive
    by_cases hq : q = np
    · rw [hq, born_self] at hlive
      simp [Proc.newborn, ProcState.live] at hlive
    · exact born_ne hq k d m₂
  refine ⟨h.records.born np hl hcopy, fun q i hlive hphy => ?_, fun t ht => ?_⟩
  · have heq := hother q hlive
    rw [heq] at hlive hphy ⊢
    exact h.slot q i hlive hphy
  · change ((s.born p np k d m₂).holders (s.shTable.shmemAddr t) : Int) ≤ s.shTable.shmemCounter t
    rw [holders_born hun]
    exact h.count t ht

omit [Image] in
/-- A child that starts to run holds what its parent holds. -/
theorem holders_forked {k : Nat} {m₂ : Mem} {d : PgDir} {s₂ : Kernel} (hne : p ≠ np)
    (hlive : s.Live p) (hok : (s.proc p).RecordsOK)
    (hinh : Inherited p np (List.finRange shmemPages) (s.born p np k d m₂) s₂)
    (hqlive : q'.state.live = true) (hqphy : q'.phySharedPage = (s₂.proc np).phySharedPage)
    (f : Nat) :
    (s₂.setProc np q').holders f = (s.born p np k d m₂).holders f + (s.proc p).holds f := by
  have hparent : (s.born p np k d m₂).proc p = s.proc p := born_ne hne k d m₂
  have hchild := holds_inherited (p := p) (c := np) (s := s.born p np k d m₂) (by rwa [hparent])
    (by rwa [Live, hparent]) (fun i => by rw [born_self]; rfl) (fun i => by rw [born_self]; rfl) hinh
    hqlive hqphy f
  have hsum := holders_setProc s₂ np q' f
  have hdead : (s₂.proc np).holds f = 0 := by
    rw [Proc.holds, hinh.rest.2.2.1, born_self]
    rfl
  have hold := holders_inherited (by rw [born_self]; rfl) hinh f
  rw [hparent] at hchild
  omega

/-- The child starts to run. -/
theorem Linked.fork_done {k : Nat} {m₂ : Mem} {d : PgDir} {s₂ : Kernel}
    (hb : Linked (s.born p np k d m₂)) (hne : p ≠ np) (hlive : s.Live p)
    (hinh : Inherited p np (List.finRange shmemPages) (s.born p np k d m₂) s₂)
    (hcnt : ∀ t, s₂.shTable.shmemCounter t = (s.born p np k d m₂).shTable.shmemCounter t +
      ((s.born p np k d m₂).proc p).hits ((s.born p np k d m₂).proc np)
        (s.born p np k d m₂).shTable (List.finRange shmemPages) t)
    (hq' : q' = { s₂.proc np with state := .runnable }) (hrec : Records (s₂.setProc np q')) :
    Linked (s₂.setProc np q') := by
  have h₂ := hb.inherited (by rw [born_self]; rfl) hinh
  have hlive' : ((s.born p np k d m₂).proc p).state.live = true := by
    rw [born_ne hne k d m₂]
    exact hlive
  have hbit : ∀ i, ((s.born p np k d m₂).proc np).bitmap i = 0 := fun i => by rw [born_self]; rfl
  have hphy : ∀ i, ((s.born p np k d m₂).proc np).phySharedPage i = 0 :=
    fun i => by rw [born_self]; rfl
  have hqlive : q'.state.live = true := by rw [hq']; rfl
  have hqphy : q'.phySharedPage = (s₂.proc np).phySharedPage := by rw [hq']
  have hqkey : q'.pKey = (s₂.proc np).pKey := by rw [hq']
  refine ⟨hrec, fun q i hq hi => ?_, fun t ht => ?_⟩
  · by_cases hqn : q = np
    · subst hqn
      rw [setProc_self, hqphy] at hi
      rw [setProc_self, hqphy, hqkey, setProc_shTable]
      by_cases hc : ((s.born p q k d m₂).proc p).Copies ((s.born p q k d m₂).proc q) i
      · obtain ⟨h₁, -, h₃, -⟩ := hinh.rec_copied i (List.mem_finRange i) hc
        rw [h₁] at hi
        rw [h₁, h₃, hinh.addr, hinh.key]
        exact hb.slot p i hlive' hi
      · rw [(hinh.rec_other i fun _ => hc).1, hphy i] at hi
        exact absurd rfl hi
    · rw [setProc_ne hqn] at hq hi ⊢
      exact h₂.slot q i hq hi
  · have ht₂ : s₂.shTable.shmemKey t ≠ zeroKey := ht
    have hused := (h₂.used_iff t).mp ht₂
    rw [hinh.addr] at hused
    -- counter and holders grow by what the parent holds
    have hok := hb.records.ok p hlive'
    rw [born_ne hne k d m₂] at hok
    have hsum := holders_forked hne hlive hok hinh hqlive hqphy
      ((s.born p np k d m₂).shTable.shmemAddr t)
    have hhits := hb.records.hits_eq hlive' hbit hused
    have hb' := hb.count t (by rw [← hinh.key]; exact ht₂)
    rw [born_ne hne k d m₂] at hhits
    rw [setProc_shTable, hinh.addr, hcnt t, born_ne hne k d m₂, hhits]
    omega

theorem Linked.quiet (h : Linked s) (hq : Quiet s s') : Linked s' := by
  have hlive : ∀ q, s'.Live q → s'.proc q = s.proc q := by
    intro q hl
    rcases hq.proc q with heq | ⟨-, hun, -⟩
    · exact heq
    · exact absurd hun (live_ne_unused hl)
  refine ⟨h.records.quiet hq, fun q i hl hi => ?_, fun t ht => ?_⟩
  · have heq := hlive q hl
    rw [heq] at hl hi ⊢
    rw [hq.table]
    exact h.slot q i hl hi
  · rw [hq.table] at ht ⊢
    have hsame : s'.holders (s.shTable.shmemAddr t) = s.holders (s.shTable.shmemAddr t) := by
      refine Finset.sum_congr rfl fun q _ => ?_
      rcases hq.proc q with heq | ⟨hun, hun', -⟩
      · rw [heq]
      · rw [holds_unused hun, holds_unused hun']
    rw [hsame]
    exact h.count t ht

theorem Linked.fork {r : CallResult} (h : Linked s) (hsent : SentinelKnown)
    (hlive : s.Live p) (hf : fork p s = .ok (r, s')) : Linked s' := by
  have hrec := h.records.fork hlive hf
  rcases fork_ok hlive (h.records.sane.size p).le h.records.sane.free hf with
    ⟨-, hq⟩ | ⟨np, k, m₁, d, m₂, hne, hun, hl, hcopy, hend⟩
  · exact h.quiet hq
  · have hborn := h.born hun hl hcopy
    rcases hend with ⟨-, s₂, hinh, hcnt, rfl⟩ | ⟨-, -, js, s₁, hinh, hexit⟩
    · exact hborn.fork_done hne hlive hinh hcnt rfl hrec
    · refine (hborn.inherited (by rw [born_self]; rfl) hinh).exit hsent ?_ hexit
      rwa [Live, hinh.others p hne, born_ne hne k d m₂]

theorem Boot.linked (h : Boot s) : Linked s where
  records := h.records
  slot p i hlive hphy := absurd ((h.blank p (live_ne_unused hlive)).phy i) hphy
  count t ht := by
    rw [h.table] at ht
    exact absurd rfl ht

theorem Boot.visible (h : Boot s) (p : Fin nproc) (hlive : s.Live p) :
    (s.proc p).Visible := by
  have huse := live_ne_unused hlive
  refine ⟨fun i hp => ?_, fun i => by rw [(h.blank p huse).phy i]; decide⟩
  -- the user pages of a process end below the window
  have hlt := ((h.image p huse).present _ (windowPage_user i)).mp hp
  have habove := (h.size p).trans (Nat.mul_le_mul_right _ (windowStart_le i))
  omega

end Xv6
