import Xv6.Shm.Linked

/-!
# Exact counters, and frames used once

`Linked` lets a counter be larger than the number of holders. Here both are
equal, free slots are not counted at all, and every frame is accounted for at
most once by the free list, the processes and the slots together (`Counted`).
The exit path of `shmrem` keeps that and, unlike in `Linked`, leaves its
caller without any page (`detachAll_leaves`).
-/

namespace Xv6

open Outcome Transition Kernel

/-! ## §1  The tally of frames -/

/-- How often the processes use the frame `f` for themselves. -/
def Kernel.owned (s : Kernel) (f : Nat) : Nat := ∑ p, (s.proc p).own f

theorem tally_eq (s : Kernel) (f : Nat) :
    s.tally f = s.mem.freelist.count f + s.owned f + s.shTable.slots f := rfl

theorem owned_setProc (s : Kernel) (p : Fin nproc) (q : Proc) (f : Nat) :
    (s.setProc p q).owned f + (s.proc p).own f = s.owned f + q.own f := by
  have := Tally.sum_change (s := Finset.univ) (i := p) (f := fun p' => (s.proc p').own f)
    (g := fun p' => ((s.setProc p q).proc p').own f) (Finset.mem_univ p)
    (by intro j _ hj; simp only [setProc_ne hj])
  simpa only [Kernel.owned, setProc_self] using this

theorem own_of_used {q : Proc} (h : q.state ≠ .unused) (f : Nat) :
    q.own f = (if q.kstack = f then 1 else 0) + (if q.pgdir.frame = f then 1 else 0) +
      q.pgdir.tabs f + q.pgdir.pages 0 windowStart f := by
  rw [Proc.own, if_neg h]

theorem own_unused {q : Proc} (h : q.state = .unused) (f : Nat) : q.own f = 0 := by
  rw [Proc.own, if_pos h]

variable {i pos y : Fin shmemPages}

/-- A page mapped in the window costs at most a page table. -/
theorem own_mapped {q q' : Proc} {m m' : Mem} {pa : Nat} (huse : q.state ≠ .unused)
    (hstate : q'.state = q.state) (hstack : q'.kstack = q.kstack)
    (hmap : Mapped q.pgdir q'.pgdir m m' (windowPage pos) pa) (f : Nat) :
    m'.freelist.count f + q'.own f = m.freelist.count f + q.own f := by
  have hpages : q'.pgdir.pages 0 windowStart f = q.pgdir.pages 0 windowStart f :=
    PgDir.pages_congr (fun w _ hw => by
      have hle := windowStart_le pos
      have hlt := windowPage_user pos
      rw [hmap.page w (by omega), if_neg (by omega)]) f
  have hbal := hmap.grew.balance f
  rw [own_of_used huse, own_of_used (by rw [hstate]; exact huse), hstack, hmap.grew.frame, hpages]
  omega

/-- A page unmapped in the window frees nothing of the process itself. -/
theorem own_cleared {q q' : Proc} (hstate : q'.state = q.state) (hstack : q'.kstack = q.kstack)
    (hclear : Cleared q.pgdir q'.pgdir (windowPage pos)) (f : Nat) :
    q'.own f = q.own f := by
  have hpages : q'.pgdir.pages 0 windowStart f = q.pgdir.pages 0 windowStart f :=
    PgDir.pages_congr (fun w _ hw => by
      have hle := windowStart_le pos
      have hlt := windowPage_user pos
      rw [hclear.page w (by omega), if_neg (by omega)]) f
  simp only [Proc.own, hstate, hstack, hclear.frame, PgDir.tabs, hclear.tab, hpages]

variable [Image]

/-! ## §2  The invariant -/

structure Counted (s : Kernel) : Prop where
  linked : Linked s
  exact : ∀ t, s.shTable.shmemKey t ≠ zeroKey →
    s.shTable.shmemCounter t = s.holders (s.shTable.shmemAddr t)
  free : ∀ t, s.shTable.shmemKey t = zeroKey → s.shTable.shmemCounter t = 0
  cap : ∀ t, s.shTable.shmemCounter t ≤ 16
  once : ∀ f, f ≠ 0 → s.tally f ≤ 1

variable {s s' : Kernel}

theorem Counted.withLock (h : Counted s) (b : Bool) : Counted (s.withLock b) :=
  ⟨h.linked.withLock b, h.exact, h.free, h.cap, h.once⟩

/-- A slot that is counted is in use. -/
theorem Counted.used (h : Counted s) {t : Fin shmemPages} (ht : s.shTable.shmemCounter t ≠ 0) :
    s.shTable.shmemAddr t ≠ 0 :=
  (h.linked.used_iff t).mp fun hz => ht (h.free t hz)

variable {p : Fin nproc}

/-- A page is placed at a free position and counted at its slot. -/
theorem Counted.place {t : Fin shmemPages} {f : Nat} {key : Buf} {pg : PgDir} {m : Mem}
    {tab : ShmTable} (h : Counted s) (hlive : s.Live p)
    (hpos : (s.proc p).phySharedPage pos = 0) (haddr : tab.shmemAddr t = f)
    (htkey : tab.shmemKey t ≠ zeroKey)
    (hother : ∀ t', t' ≠ t → tab.shmemAddr t' = s.shTable.shmemAddr t' ∧
      tab.shmemKey t' = s.shTable.shmemKey t' ∧ tab.shmemCounter t' = s.shTable.shmemCounter t')
    (hcount : tab.shmemCounter t = s.holders f + 1) (hcap : tab.shmemCounter t ≤ 16)
    (honce : ∀ g, g ≠ 0 → ({ s with mem := m, shTable := tab }.setProc p
      ((s.proc p).attach pos f key pg)).tally g ≤ 1)
    (hlinked : Linked ({ s with mem := m, shTable := tab }.setProc p
      ((s.proc p).attach pos f key pg))) :
    Counted ({ s with mem := m, shTable := tab }.setProc p ((s.proc p).attach pos f key pg)) := by
  refine ⟨hlinked, fun t' ht' => ?_, fun t' ht' => ?_, fun t' => ?_, honce⟩
  · have hne := (hlinked.used_iff t').mp ht'
    have hcnt := holders_update (s := { s with mem := m, shTable := tab }) (p := p) (b := f)
      (q := (s.proc p).attach pos f key pg) (i := pos) hlive rfl rfl (tab.shmemAddr t')
    change _ + _ = s.holders _ + _ at hcnt
    simp only [setProc_shTable] at ht' hne ⊢
    simp only [hpos] at hcnt
    rw [if_neg (Ne.symm hne), Nat.add_zero] at hcnt
    by_cases htt : t' = t
    · subst htt
      rw [hcnt, haddr, if_pos rfl]
      omega
    · have hinj : f ≠ tab.shmemAddr t' := fun heq =>
        htt (hlinked.records.addr_inj (i := t') (j := t) (heq.symm.trans haddr.symm) hne)
      obtain ⟨h₁, h₂, h₃⟩ := hother t' htt
      rw [hcnt, if_neg hinj, Nat.add_zero, h₃, h₁]
      exact h.exact t' (by rw [← h₂]; exact ht')
  · simp only [setProc_shTable] at ht' ⊢
    have htt : t' ≠ t := by
      rintro rfl
      exact htkey ht'
    obtain ⟨-, h₂, h₃⟩ := hother t' htt
    rw [h₃]
    exact h.free t' (by rw [← h₂]; exact ht')
  · simp only [setProc_shTable]
    by_cases htt : t' = t
    · rw [htt]
      exact hcap
    · rw [(hother t' htt).2.2]
      exact h.cap t'

/-! ## §3  The exit path of `shmrem` -/

/-- A position is given up at the slot of its page. -/
theorem Counted.giveUp {q' : Proc} {m : Mem} {tab : ShmTable} (h : Counted s)
    (hlive : s.Live p)
    (hphy : (s.proc p).phySharedPage i = s.shTable.shmemAddr y)
    (hg : GiveUp s.shTable s.mem y tab m) (hstate : q'.state = (s.proc p).state)
    (hstack : q'.kstack = (s.proc p).kstack)
    (hphy' : q'.phySharedPage = Function.update (s.proc p).phySharedPage i 0)
    (hclear : Cleared (s.proc p).pgdir q'.pgdir (windowPage i))
    (hlinked : Linked ({ s with mem := m, shTable := tab }.setProc p q')) :
    Counted ({ s with mem := m, shTable := tab }.setProc p q') := by
  have hused : s.shTable.shmemAddr y ≠ 0 := by
    refine h.used fun h0 => ?_
    cases hg with
    | last hone => omega
    | other hgt => omega
  have hcnt : ∀ g, g ≠ 0 → ({ s with mem := m, shTable := tab }.setProc p q').holders g +
      (if s.shTable.shmemAddr y = g then 1 else 0) = s.holders g := by
    intro g hg0
    have := holders_update (s := { s with mem := m, shTable := tab }) (p := p) (b := 0)
      (q := q') (i := i) hlive hstate hphy' g
    rw [hphy, if_neg (Ne.symm hg0), Nat.add_zero] at this
    exact this
  have honce : ∀ g, g ≠ 0 → ({ s with mem := m, shTable := tab }.setProc p q').tally g ≤ 1 := by
    intro g hg0
    have h₁ := owned_setProc { s with mem := m, shTable := tab } p q' g
    rw [own_cleared (q := s.proc p) hstate hstack hclear g] at h₁
    have h₂ := hg.conserves hg0
    have h₃ := h.once g hg0
    rw [tally_eq] at h₃ ⊢
    rw [Nat.add_right_cancel h₁]
    change m.freelist.count g + s.owned g + tab.slots g ≤ 1
    omega
  have hne : ∀ t, t ≠ y → s.shTable.shmemAddr t ≠ 0 →
      s.shTable.shmemAddr y ≠ s.shTable.shmemAddr t := fun t hty ht0 heq =>
    hty (h.linked.records.addr_inj heq.symm ht0)
  cases hg with
  | last hone hframe hl =>
    refine ⟨hlinked, fun t ht => ?_, fun t ht => ?_, fun t => ?_, honce⟩
    · have hty : t ≠ y := by
        rintro rfl
        simp at ht
      have ht' : s.shTable.shmemKey t ≠ zeroKey := by simpa [hty] using ht
      have ht0 := (h.linked.used_iff t).mp ht'
      have h₁ := hcnt _ ht0
      rw [if_neg (hne t hty ht0), Nat.add_zero] at h₁
      simp only [setProc_shTable, ShmTable.free_addr, ShmTable.free_counter, hty,
        if_false]
      rw [h₁]
      exact h.exact t ht'
    · by_cases hty : t = y
      · simp [hty]
      · simpa [hty] using h.free t (by simpa [hty] using ht)
    · by_cases hty : t = y
      · simp [hty]
      · simpa [hty] using h.cap t
  | other hgt hl =>
    refine ⟨hlinked, fun t ht => ?_, fun t ht => ?_, fun t => ?_, honce⟩
    · have ht' : s.shTable.shmemKey t ≠ zeroKey := ht
      have ht0 := (h.linked.used_iff t).mp ht'
      have h₁ := hcnt _ ht0
      have h₂ := h.exact t ht'
      simp only [setProc_shTable, ShmTable.setCounter_addr, ShmTable.setCounter_counter]
      by_cases hty : t = y
      · subst hty
        rw [if_pos rfl] at h₁
        rw [if_pos rfl]
        omega
      · rw [if_neg (hne t hty ht0)] at h₁
        rw [if_neg hty]
        omega
    · have hty : t ≠ y := by
        rintro rfl
        exact hused ((h.linked.records.sane.table.empty t).mp ht)
      simpa [hty] using h.free t ht
    · have hcap := h.cap t
      by_cases hty : t = y
      · subst hty
        simp only [setProc_shTable, ShmTable.setCounter_counter, if_true]
        omega
      · simpa [hty] using hcap

theorem Counted.detachAt (h : Counted s) (hlive : s.Live p)
    (hd : detachAt p i y s = .ok s') : Counted s' := by
  have hlinked := (h.linked.detachAt hlive hd).1
  rcases detachAt_ok hd with ⟨rfl, -⟩ | ⟨pg, tab, m, hphy, hgive, hclear, rfl⟩
  · exact h
  · -- a page that is counted is held, so its place in the window is cleared
    have hused : s.shTable.shmemAddr y ≠ 0 := by
      refine h.used fun h0 => ?_
      cases hgive with
      | last hone => omega
      | other hgt => omega
    have hheld := (h.linked.records.ok p hlive).held i (by rw [hphy]; exact hused)
    rw [hheld.vm, pageOf_windowAddr i.isLt] at hclear
    exact h.giveUp hlive hphy hgive rfl rfl rfl hclear hlinked

/-- A process on its way out: counters exact, and no page of its window
without a record. -/
structure Leaving (p : Fin nproc) (s : Kernel) : Prop where
  counted : Counted s
  live : (s.proc p).state.live = true
  visible : (s.proc p).Visible

/-- One step of the exit path, at a position with a page: it is given up if
the slot is the one of its page. -/
theorem Leaving.detachAt (h : Leaving p s) (hd : detachAt p i y s = .ok s') :
    Leaving p s' ∧ (∀ j, (s.proc p).phySharedPage j = 0 → (s'.proc p).phySharedPage j = 0) ∧
      ((s'.proc p).phySharedPage i = 0 ∨
        s' = s ∧ s.shTable.shmemAddr y ≠ (s.proc p).phySharedPage i) := by
  have hcounted := h.counted.detachAt h.live hd
  rcases detachAt_ok hd with ⟨rfl, hzero⟩ | ⟨pg, tab, m, hphy, hgive, hclear, rfl⟩
  · refine ⟨h, fun _ hj => hj, ?_⟩
    by_cases h0 : (s'.proc p).phySharedPage i = 0
    · exact .inl h0
    · refine .inr ⟨rfl, fun heq => ?_⟩
      -- the slot of a page that is held is counted
      have h₁ := hzero heq.symm
      have h₂ := holders_pos h.live heq.symm
      have h₃ := h.counted.exact y ((h.counted.linked.used_iff y).mpr (by rw [heq]; exact h0))
      omega
  · refine ⟨⟨hcounted, by simpa using h.live, ?_⟩, fun j hj => ?_, .inl (by simp)⟩
    · rw [setProc_self]
      exact h.visible.drop (h.counted.linked.records.ok p h.live) hclear rfl
    · by_cases hji : j = i
      · simp [hji]
      · simpa [hji] using hj

/-- After one round of the outer loop the position has no page. -/
theorem Leaving.detachPos (h : Leaving p s) (hd : detachPos p s i = .ok s') :
    Leaving p s' ∧ (∀ j, (s.proc p).phySharedPage j = 0 → (s'.proc p).phySharedPage j = 0) ∧
      (s'.proc p).phySharedPage i = 0 := by
  unfold Xv6.detachPos at hd
  split at hd
  · -- the slots already passed are not those of the page at `i`
    have hloop : Leaving p s' ∧
        (∀ j, (s.proc p).phySharedPage j = 0 → (s'.proc p).phySharedPage j = 0) ∧
        ((s'.proc p).phySharedPage i = 0 ∨ ∀ y ∈ List.finRange shmemPages,
          s'.shTable.shmemAddr y ≠ (s'.proc p).phySharedPage i) := by
      refine Post.foldlM (I := fun seen s₁ => Leaving p s₁ ∧
        (∀ j, (s.proc p).phySharedPage j = 0 → (s₁.proc p).phySharedPage j = 0) ∧
        ((s₁.proc p).phySharedPage i = 0 ∨ ∀ y ∈ seen,
          s₁.shTable.shmemAddr y ≠ (s₁.proc p).phySharedPage i))
        ⟨h, fun _ hj => hj, .inr (by simp)⟩ (fun seen y s₁ hs₁ s₂ hd₂ => ?_) s' hd
      obtain ⟨hleave, hzero, hseen⟩ := hs₁
      obtain ⟨hleave₂, hzero₂, hgone | ⟨rfl, hne⟩⟩ := hleave.detachAt hd₂
      · exact ⟨hleave₂, fun j hj => hzero₂ j (hzero j hj), .inl hgone⟩
      · refine ⟨hleave₂, hzero, hseen.imp_right fun hall y' hy' => ?_⟩
        rcases List.mem_append.mp hy' with hy' | hy'
        · exact hall y' hy'
        · rw [List.mem_singleton.mp hy']
          exact hne
    obtain ⟨hleave, hzero, hgone | hall⟩ := hloop
    · exact ⟨hleave, hzero, hgone⟩
    · refine ⟨hleave, hzero, ?_⟩
      by_contra hne
      obtain ⟨t, ht, -⟩ := hleave.counted.linked.slot p i hleave.live hne
      exact hall t (List.mem_finRange t) ht
  · rename_i hbit
    cases hd
    refine ⟨h, fun _ hj => hj, ?_⟩
    by_contra hne
    exact hbit ((h.counted.linked.records.ok p h.live).held i hne).bitmap

/-- **The exit path leaves its caller without pages.** -/
theorem Leaving.detachAll (h : Leaving p s) (hd : detachAll p s = .ok s') :
    Leaving p s' ∧ ∀ i, (s'.proc p).phySharedPage i = 0 := by
  have hloop : Leaving p s' ∧ ∀ i ∈ List.finRange shmemPages, (s'.proc p).phySharedPage i = 0 := by
    refine Post.foldlM (I := fun seen s₁ => Leaving p s₁ ∧
      ∀ i ∈ seen, (s₁.proc p).phySharedPage i = 0) ⟨h, by simp⟩
      (fun seen i s₁ hs₁ s₂ hd₂ => ?_) s' hd
    obtain ⟨hleave, hzero, hi⟩ := hs₁.1.detachPos hd₂
    refine ⟨hleave, fun j hj => ?_⟩
    rcases List.mem_append.mp hj with hj | hj
    · exact hzero j (hs₁.2 j hj)
    · rw [List.mem_singleton.mp hj]
      exact hi
  exact ⟨hloop.1, fun i => hloop.2 i (List.mem_finRange i)⟩

end Xv6
