import Xv6.Shm.Attach
import Xv6.Shm.Counted

/-!
# Attachment records that say what is mapped

In runs without `shmrem`, in which no attached process commits to `exec` and
no `fork` is stopped at the limit of 16, the records of every live process are
in order (`Proc.Neat`): a set bit has a page, an unset one has nothing, and no
page has two positions. Together with exact counters, and with the fact that
a process that is not live has an empty window, this is kept by `shmget`,
`fork`, `exec`, `exit` and `wait` (`Exact`).
-/

namespace Xv6

open Outcome Transition Function Kernel

/-! ## §1  The records of a live process -/

structure Proc.Neat (q : Proc) : Prop where
  page : ∀ i, q.bitmap i = 1 → q.phySharedPage i ≠ 0
  blank : ∀ i, q.bitmap i ≠ 1 → q.vmSharedPage i = 0 ∧ q.pKey i = zeroKey
  uniq : ∀ i j, q.phySharedPage i = q.phySharedPage j → q.phySharedPage i ≠ 0 → i = j
  visible : q.Visible

theorem Proc.Neat.tidy {q : Proc} (h : q.Neat) : q.Tidy := fun i hi =>
  (h.blank i fun hbit => h.page i hbit hi).2

theorem Proc.Neat.attach {q : Proc} {pos : Fin shmemPages} {f : Nat} {key : Buf} {pg : PgDir}
    {m m' : Mem} (h : q.Neat) (hf : f ≠ 0) (hf32 : f < 2 ^ 32)
    (hnew : ∀ i, q.phySharedPage i ≠ f)
    (hmap : Mapped q.pgdir pg m m' (windowPage pos) (v2p f)) : (q.attach pos f key pg).Neat := by
  refine ⟨fun i hi => ?_, fun i hi => ?_, fun i j hij hi => ?_, h.visible.attach hf hf32 hmap⟩
  · by_cases hip : i = pos
    · simpa [Proc.attach, hip] using hf
    · simpa [Proc.attach, hip] using h.page i (by simpa [Proc.attach, hip] using hi)
  · have hip : i ≠ pos := by
      rintro rfl
      simp [Proc.attach] at hi
    simpa [Proc.attach, hip] using h.blank i (by simpa [Proc.attach, hip] using hi)
  · simp only [Proc.attach] at hij hi
    by_cases hip : i = pos
    · by_cases hjp : j = pos
      · rw [hip, hjp]
      · subst hip
        rw [update_self, update_of_ne hjp] at hij
        exact absurd hij.symm (hnew j)
    · by_cases hjp : j = pos
      · subst hjp
        rw [update_self, update_of_ne hip] at hij
        exact absurd hij (hnew i)
      · rw [update_of_ne hip, update_of_ne hjp] at hij
        rw [update_of_ne hip] at hi
        exact h.uniq i j hij hi

variable {np p : Fin nproc} {s s' s₂ : Kernel}

/-- A child born without records, after all positions of its parent. -/
theorem Proc.Neat.inherited {c : Fin nproc} {q' : Proc} (hp : (s.proc p).Neat)
    (hborn : (s.proc c).Blank)
    (hwin : ∀ i : Fin shmemPages, ((s.proc c).pgdir.page (windowPage i)).p = false)
    (hi : Inherited p c (List.finRange shmemPages) s s')
    (hq : q' = { s'.proc c with state := q'.state }) : q'.Neat := by
  -- position by position: copied from the parent, or blank in both
  have hcase : ∀ i, ((s.proc p).bitmap i = 1 ∧ q'.phySharedPage i = (s.proc p).phySharedPage i ∧
      q'.bitmap i = 1) ∨
      ((s.proc p).bitmap i ≠ 1 ∧ q'.phySharedPage i = 0 ∧ q'.vmSharedPage i = 0 ∧
        q'.pKey i = zeroKey ∧ q'.bitmap i = 0 ∧
        (q'.pgdir.page (windowPage i)).p = false) := by
    intro i
    rw [hq]
    by_cases hbit : (s.proc p).bitmap i = 1
    · have hc : (s.proc p).Copies (s.proc c) i := ⟨hbit, by rw [hborn.bitmap i]; decide⟩
      obtain ⟨h₁, -, -, h₄⟩ := hi.rec_copied i (List.mem_finRange i) hc
      exact .inl ⟨hbit, h₁, h₄⟩
    · have hc : ¬ (s.proc p).Copies (s.proc c) i := fun hc => hbit hc.1
      obtain ⟨h₁, h₂, h₃, h₄⟩ := hi.rec_other i fun _ => hc
      refine .inr ⟨hbit, h₁.trans (hborn.phy i), h₂.trans (hborn.vm i), h₃.trans (hborn.key i),
        h₄.trans (hborn.bitmap i), ?_⟩
      simp only
      rw [hi.page_other _ (windowPage_lt i) fun j _ hj heq => ?_]
      · exact hwin i
      · exact hc (Fin.ext (windowPage_inj i.isLt j.isLt heq) ▸ hj)
  refine ⟨fun i hbit => ?_, fun i hbit => ?_, fun i j hij hne => ?_, fun i hpres => ?_, fun i => ?_⟩
  · rcases hcase i with ⟨hb, h₁, -⟩ | ⟨-, -, -, -, h₅, -⟩
    · rw [h₁]
      exact hp.page i hb
    · rw [h₅] at hbit
      simp at hbit
  · rcases hcase i with ⟨-, -, h₃⟩ | ⟨-, -, h₃, h₄, -⟩
    · exact absurd h₃ hbit
    · exact ⟨h₃, h₄⟩
  · rcases hcase i with ⟨-, h₁, -⟩ | ⟨-, h₁, -⟩
    · rcases hcase j with ⟨-, h₂, -⟩ | ⟨-, h₂, -⟩
      · rw [h₁, h₂] at hij
        rw [h₁] at hne
        exact hp.uniq i j hij hne
      · exact absurd (hij.trans h₂) hne
    · exact absurd h₁ hne
  · rcases hcase i with ⟨hb, h₁, -⟩ | ⟨-, -, -, -, -, h₆⟩
    · rw [h₁]
      exact hp.page i hb
    · rw [h₆] at hpres
      simp at hpres
  · rcases hcase i with ⟨-, h₁, -⟩ | ⟨-, h₁, -⟩
    · rw [h₁]
      exact hp.visible.bound i
    · rw [h₁]
      decide

variable [Image]

/-! ## §2  The invariant -/

structure Exact (s : Kernel) : Prop where
  counted : Counted s
  neat : ∀ p, (s.proc p).state.live = true → (s.proc p).Neat
  dead : ∀ p, (s.proc p).state ≠ .unused → (s.proc p).state.live = false →
    ∀ i : Fin shmemPages, ((s.proc p).pgdir.page (windowPage i)).p = false
  size : ∀ p, (s.proc p).sz ≤ windowStart * pgSize

omit [Image] in
/-- A page mapped in the window moves at most a frame from the free list to
the page tables of the process. -/
theorem owned_mapped {q : Proc} {m m' : Mem} {pos : Fin shmemPages} {pa : Nat}
    (huse : (s.proc p).state ≠ .unused) (hstate : q.state = (s.proc p).state)
    (hstack : q.kstack = (s.proc p).kstack)
    (hmap : Mapped (s.proc p).pgdir q.pgdir m m' (windowPage pos) pa) (f : Nat) :
    m'.freelist.count f + (s.setProc p q).owned f = m.freelist.count f + s.owned f := by
  have h₁ := owned_setProc s p q f
  have h₂ := own_mapped huse hstate hstack hmap f
  omega

theorem Exact.shmget {key : Buf} {r : CallResult} (h : Exact s)
    (hlive : s.Live p) (hkey : IsKey key) (hg : shmget p key s = .ok (r, s')) :
    Exact s' := by
  have hlink := h.counted.linked
  have htable := hlink.records.sane.table
  have hneat := h.neat p hlive
  have huse := live_ne_unused hlive
  have hlinked := hlink.shmget hlive hkey (hneat.tidy.careful hkey).2 hg
  -- the parts that are about other processes, or about fields `shmget` leaves alone
  have hrest : ∀ {m tab pos f pg}, Counted ({ s with mem := m, shTable := tab }.setProc p
      ((s.proc p).attach pos f key pg)) → ((s.proc p).attach pos f key pg).Neat →
      Exact ({ s with mem := m, shTable := tab }.setProc p ((s.proc p).attach pos f key pg)) := by
    intro m tab pos f pg hcounted hnew
    refine ⟨hcounted, forall_setProc (P := fun q => q.state.live = true → q.Neat) h.neat
      fun _ => hnew, forall_setProc (P := fun q => q.state ≠ .unused →
        q.state.live = false → ∀ i : Fin shmemPages, (q.pgdir.page (windowPage i)).p = false)
      h.dead fun _ hdead => ?_, forall_setProc (P := fun q => q.sz ≤ windowStart * pgSize)
      h.size (h.size p)⟩
    rw [show ((s.proc p).attach pos f key pg).state = (s.proc p).state from rfl, hlive] at hdead
    cases hdead
  rcases shmget_ok hkey hg with _ | ⟨t, pos, pg, m, ht, hy, hlt, hpos, hmap⟩ |
    ⟨t, pos, f, pg, m₁, m, hno, ht, hl, hpos, hmap⟩
  · exact h
  · obtain ⟨htk, -⟩ := htable.match_pos hkey ht
    have hkt : s.shTable.shmemKey t ≠ zeroKey := by
      rw [htk]
      exact fun hz => keyOf_zero_ne hkey ((keyOf_padded hkey).eq_zero_iff.mpr hz)
    have hused := (hlink.used_iff t).mp hkt
    -- a position with this page would have had its key recorded
    have hnew : ∀ i, (s.proc p).phySharedPage i ≠ s.shTable.shmemAddr t := by
      intro i hi
      obtain ⟨t', ht', htk'⟩ := hlink.slot p i hlive (by rw [hi]; exact hused)
      have htt : t' = t := hlink.records.addr_inj (ht'.trans hi) (by rw [ht', hi]; exact hused)
      have hmatch := findRec_none hy i
      rw [← htk', htt] at hmatch
      exact hmatch ht
    refine hrest (h.counted.place hlive (findPos_some hpos) (t := t) rfl hkt
      (fun t' ht' => by simp [ht']) ?_ ?_ (fun g hg0 => ?_) hlinked)
      (hneat.attach hused (htable.bound t) hnew hmap)
    · simp only [ShmTable.setCounter_counter, if_true]
      rw [h.counted.exact t hkt]
    · simp only [ShmTable.setCounter_counter, if_true]
      omega
    · have h₁ := owned_mapped (s := { s with
        mem := m, shTable := s.shTable.setCounter t (s.shTable.shmemCounter t + 1) })
        (q := (s.proc p).attach pos (s.shTable.shmemAddr t) key pg) huse rfl rfl hmap g
      have h₂ := h.counted.once g hg0
      rw [tally_eq] at h₂ ⊢
      change _ = s.mem.freelist.count g + s.owned g at h₁
      rw [setProc_mem, setProc_shTable, h₁, slots_congr (ShmTable.setCounter_addr ..)]
      exact h₂
  · have hf : IsFrame f := hlink.records.sane.free f (by simp [hl])
    have hzero : s.shTable.shmemKey t = zeroKey := (htable.padded t).eq_zero_iff.mp ht
    have hfree : s.shTable.shmemAddr t = 0 := (htable.empty t).mp hzero
    have hnone := hlink.not_held (f := f) (by simp [hl]) hf.ne_zero
    have hnew : ∀ i, (s.proc p).phySharedPage i ≠ f := by
      intro i hi
      have := holders_pos hlive hi
      omega
    have hkt : memmove (s.shTable.shmemKey t) key (strlen key) ≠ zeroKey := by
      rw [memmove_empty htable ht]
      exact fun hz => keyOf_zero_ne hkey ((keyOf_padded hkey).eq_zero_iff.mpr hz)
    have hcnt := h.counted.free t hzero
    refine hrest (h.counted.place (t := t) hlive (findPos_some hpos) (by simp) (by simpa using hkt)
      (fun t' ht' => by simp [ht']) ?_ ?_ (fun g hg0 => ?_) hlinked)
      (hneat.attach hf.ne_zero hf.1 hnew hmap)
    · simp only [ShmTable.setKey_counter, ShmTable.setCounter_counter, if_true, hnone]
      omega
    · simp only [ShmTable.setKey_counter, ShmTable.setCounter_counter, if_true]
      omega
    · have h₁ := owned_mapped (s := { s with mem := m, shTable := ((s.shTable.setAddr t f).setCounter
        t (s.shTable.shmemCounter t + 1)).setKey t (memmove (s.shTable.shmemKey t) key
          (strlen key)) }) (q := (s.proc p).attach pos f key pg) huse rfl rfl hmap g
      have h₂ := h.counted.once g hg0
      have h₃ := slots_setAddr s.shTable t f g
      rw [hfree, if_neg (Ne.symm hg0), Nat.add_zero] at h₃
      change _ = m₁.freelist.count g + s.owned g at h₁
      rw [tally_eq, hl, List.count_cons] at h₂
      simp only [beq_iff_eq] at h₂
      rw [tally_eq, setProc_mem, setProc_shTable, h₁,
        slots_congr (show (((s.shTable.setAddr t f).setCounter t
          (s.shTable.shmemCounter t + 1)).setKey t (memmove (s.shTable.shmemKey t) key
            (strlen key))).shmemAddr = (s.shTable.setAddr t f).shmemAddr from rfl), h₃]
      omega

omit [Image] in
/-- Becoming a zombie gives up no frame. -/
theorem owned_becomeZombie (hlive : s.Live p) (f : Nat) :
    (becomeZombie p s).owned f = s.owned f := by
  refine Finset.sum_congr rfl fun q _ => ?_
  obtain ⟨par, heq⟩ := becomeZombie_proc p q s
  rw [heq]
  by_cases hq : q = p
  · rw [if_pos hq, hq, own_of_used (live_ne_unused hlive)]
    exact own_of_used (by simp) f
  · rw [if_neg hq]
    rfl

/-- **`exit`** empties the window of its caller. -/
theorem Exact.exit (h : Exact s) (hsent : SentinelKnown) (hlive : s.Live p)
    (he : exit p s = .ok s') : Exact s' := by
  have hlinked := h.counted.linked.exit hsent hlive he
  obtain ⟨-, r, s₁, hrem, rfl⟩ := exit_ok he
  obtain ⟨-, ⟨-, -, s₂, hall, rfl⟩ | ⟨hno, -⟩ | ⟨hno, -⟩⟩ := shmrem_ok hrem
  · obtain ⟨hleave, hgone⟩ := Leaving.detachAll
      ⟨h.counted.withLock true, hlive, (h.neat p hlive).visible⟩ hall
    obtain ⟨hothers, hstate⟩ := detachAll_frame hall
    have hproc : ∀ q, q ≠ p → ∃ par, (becomeZombie p (s₂.withLock false)).proc q =
        { s.proc q with parent := par } := by
      intro q hq
      obtain ⟨par, heq⟩ := becomeZombie_proc p q (s₂.withLock false)
      rw [if_neg hq, withLock_proc, hothers q hq] at heq
      exact ⟨par, heq⟩
    obtain ⟨par, hself⟩ := becomeZombie_proc p p (s₂.withLock false)
    rw [if_pos rfl] at hself
    refine ⟨⟨hlinked, fun t ht => ?_, hleave.counted.free, hleave.counted.cap, fun f hf => ?_⟩,
      fun q hq => ?_, fun q huse hdead => ?_, fun q => ?_⟩
    · -- nothing is held any more by the process that is gone
      have hused := (hlinked.used_iff t).mp ht
      have h₁ := holders_becomeZombie p (s₂.withLock false) (s₂.shTable.shmemAddr t)
      have h₂ : (s₂.proc p).holds (s₂.shTable.shmemAddr t) = 0 := by
        rw [Proc.holds, if_pos hleave.live]
        refine Finset.sum_eq_zero fun i _ => if_neg ?_
        rw [hgone i]
        exact Ne.symm hused
      have h₃ := hleave.counted.exact t ht
      rw [withLock_proc, h₂, Nat.add_zero] at h₁
      change s₂.shTable.shmemCounter t = ((becomeZombie p (s₂.withLock false)).holders
        (s₂.shTable.shmemAddr t) : Int)
      rw [h₁]
      exact h₃
    · have h₁ := hleave.counted.once f hf
      have h₂ := owned_becomeZombie (s := s₂.withLock false) hleave.live f
      rw [tally_eq] at h₁ ⊢
      rw [h₂]
      exact h₁
    · by_cases hqp : q = p
      · rw [hqp, hself] at hq
        simp [ProcState.live] at hq
      · obtain ⟨par, heq⟩ := hproc q hqp
        rw [heq] at hq ⊢
        have hneat := h.neat q hq
        exact ⟨hneat.page, hneat.blank, hneat.uniq, hneat.visible.page, hneat.visible.bound⟩
    · by_cases hqp : q = p
      · intro i
        rw [hqp, hself]
        by_contra hp
        exact hleave.visible.page i (by simpa using hp) (hgone i)
      · obtain ⟨par, heq⟩ := hproc q hqp
        rw [heq] at huse hdead ⊢
        exact h.dead q huse hdead
    · by_cases hqp : q = p
      · have hsz := detachAll_field (f := Proc.sz) (fun _ _ _ => rfl) hall
        rw [hqp, hself]
        simp only [withLock_proc] at hsz ⊢
        rw [hsz]
        exact h.size p
      · obtain ⟨par, heq⟩ := hproc q hqp
        rw [heq]
        exact h.size q
  · exact absurd hsent hno
  · exact absurd hsent hno

theorem Exact.quiet (h : Exact s) (hq : Quiet s s') : Exact s' := by
  have hsame : ∀ q, (s'.proc q).state ≠ .unused → s'.proc q = s.proc q := by
    intro q huse
    rcases hq.proc q with heq | ⟨-, hun, -⟩
    · exact heq
    · exact absurd hun huse
  have howned : ∀ f, s'.owned f = s.owned f := by
    intro f
    refine Finset.sum_congr rfl fun q _ => ?_
    rcases hq.proc q with heq | ⟨hun, hun', -⟩
    · rw [heq]
    · rw [own_unused hun, own_unused hun']
  have hholders : ∀ f, s'.holders f = s.holders f := by
    intro f
    refine Finset.sum_congr rfl fun q _ => ?_
    rcases hq.proc q with heq | ⟨hun, hun', -⟩
    · rw [heq]
    · rw [holds_unused hun, holds_unused hun']
  refine ⟨⟨h.counted.linked.quiet hq, fun t ht => ?_, fun t ht => ?_, fun t => ?_, fun f hf => ?_⟩,
    fun q hlive => ?_, fun q huse => ?_, fun q => ?_⟩
  · rw [hq.table] at ht ⊢
    rw [hholders]
    exact h.counted.exact t ht
  · rw [hq.table] at ht ⊢
    exact h.counted.free t ht
  · rw [hq.table]
    exact h.counted.cap t
  · have h₁ := h.counted.once f hf
    have h₂ := hq.count f
    rw [tally_eq] at h₁ ⊢
    rw [howned f, hq.table]
    omega
  · have heq := hsame q (live_ne_unused hlive)
    rw [heq] at hlive ⊢
    exact h.neat q hlive
  · have heq := hsame q huse
    rw [heq] at huse ⊢
    exact h.dead q huse
  · rcases hq.proc q with heq | ⟨-, -, hsz⟩
    · rw [heq]
      exact h.size q
    · rw [hsz]
      exact h.size q

omit [Image] in
/-- With an empty window, a process uses what its directory does, and its
kernel stack. -/
theorem own_empty_window {q : Proc} (huse : q.state ≠ .unused)
    (hwin : ∀ i : Fin shmemPages, (q.pgdir.page (windowPage i)).p = false) (f : Nat) :
    q.own f = (if q.kstack = f then 1 else 0) + q.pgdir.own f := by
  have hzero : q.pgdir.pages windowStart (2 ^ 19) f = 0 := by
    refine PgDir.pages_eq_zero (fun w hlo hhi => ?_) f
    have hi : 2 ^ 19 - (w + 1) < shmemPages := by
      simp only [windowStart, shmemPages] at hlo ⊢
      omega
    have hw : windowPage (2 ^ 19 - (w + 1)) = w := by
      simp only [windowPage]
      omega
    rw [← hw]
    exact hwin ⟨_, hi⟩
  have hsplit := q.pgdir.pages_split (Nat.zero_le windowStart)
    (show windowStart ≤ 2 ^ 19 by decide) f
  rw [own_of_used huse, PgDir.own, hsplit, hzero]
  omega

omit [Image] in
/-- What a child has after `manage_fork` came from the free list. -/
theorem own_forked {k : Nat} {m₁ m₂ : Mem} {d : PgDir} (hl : s.mem.freelist = k :: m₁.freelist)
    (hcopy : ∀ f, m₂.freelist.count f + d.own f = m₁.freelist.count f)
    (hinh : Inherited p np (List.finRange shmemPages) (s.born p np k d m₂) s₂) (f : Nat) :
    s₂.mem.freelist.count f + (s₂.proc np).own f ≤ s.mem.freelist.count f := by
  have hbal : s₂.mem.freelist.count f + (s₂.proc np).pgdir.tabs f =
      m₂.freelist.count f + d.tabs f := by
    have := hinh.grew.balance f
    rw [born_self] at this
    exact this
  have hframe : (s₂.proc np).pgdir.frame = d.frame := by
    rw [hinh.grew.frame, born_self]
    rfl
  have hstack : (s₂.proc np).kstack = k := by
    rw [hinh.rest.2.1, born_self]
    rfl
  have hpages : (s₂.proc np).pgdir.pages 0 windowStart f = d.pages 0 windowStart f := by
    refine PgDir.pages_congr (fun w _ hw => ?_) f
    rw [hinh.page_other w (by simp only [windowStart] at hw; omega) fun i _ _ heq => ?_, born_self]
    · rfl
    · have := windowStart_le i
      omega
  have hsplit := d.pages_split (Nat.zero_le windowStart) (show windowStart ≤ 2 ^ 19 by decide) f
  have hown := hcopy f
  rw [PgDir.own, hsplit] at hown
  rw [own_of_used (by rw [hinh.rest.2.2.1, born_self]; simp [Proc.newborn]), hpages, hframe, hstack,
    hl, List.count_cons]
  simp only [beq_iff_eq]
  omega

omit [Image] in
/-- The frames of a child that starts to run. -/
theorem owned_forked {k : Nat} {m₂ : Mem} {d : PgDir} {q : Proc} (hun : (s.proc np).state = .unused)
    (hinh : Inherited p np (List.finRange shmemPages) (s.born p np k d m₂) s₂)
    (hq : ∀ f, q.own f = (s₂.proc np).own f) (f : Nat) :
    (s₂.setProc np q).owned f = s.owned f + (s₂.proc np).own f := by
  have hchange := Tally.sum_change (s := Finset.univ) (i := np) (f := fun r => (s.proc r).own f)
    (g := fun r => ((s₂.setProc np q).proc r).own f) (Finset.mem_univ np)
    (by intro j _ hj; simp only [setProc_ne hj, hinh.others j hj, born_ne hj])
  simp only [setProc_self, own_unused hun, Nat.add_zero, hq f] at hchange
  exact hchange

/-- The child starts to run: it is counted once for each of its positions, and
its private frames come from the free list. -/
theorem Exact.forked {k : Nat} {m₁ m₂ : Mem} {d : PgDir} {q : Proc} (h : Exact s)
    (hlive : s.Live p) (hne : p ≠ np) (hun : (s.proc np).state = .unused)
    (hl : s.mem.freelist = k :: m₁.freelist)
    (hcopy : copyuvm (s.proc p).pgdir (s.proc p).sz m₁ = .ok (some d, m₂))
    (hinh : Inherited p np (List.finRange shmemPages) (s.born p np k d m₂) s₂)
    (hcnt : ∀ t, s₂.shTable.shmemCounter t = s.shTable.shmemCounter t +
      ((s.born p np k d m₂).proc p).hits ((s.born p np k d m₂).proc np) s.shTable
        (List.finRange shmemPages) t) (hq : q = { s₂.proc np with state := .runnable })
    (hlinked : Linked (s₂.setProc np q)) :
    Exact (s₂.setProc np q) := by
  have hlink := h.counted.linked
  have hsane := hlink.records.sane
  have hneat := h.neat p hlive
  have hparent : (s.born p np k d m₂).proc p = s.proc p := born_ne hne k d m₂
  have hm₁ : FreelistOK m₁ := fun f hf =>
    hsane.free f (by rw [hl]; exact List.mem_cons_of_mem _ hf)
  obtain ⟨-, -, hsome⟩ := copyuvm_spec (hsane.size p).le hm₁ hcopy
  obtain ⟨hbal, hzero, -⟩ := hsome d rfl
  have hqlive : q.state.live = true := by rw [hq]; rfl
  have hothers : ∀ r, r ≠ np → s₂.proc r = s.proc r := fun r hr => by
    rw [hinh.others r hr, born_ne hr]
  have huse : (s₂.proc np).state ≠ .unused := by
    rw [hinh.rest.2.2.1, born_self]
    simp [Proc.newborn]
  rw [hparent] at hcnt
  refine ⟨⟨hlinked, fun t ht => ?_, fun t ht => ?_, fun t => ?_, fun f hf => ?_⟩,
    fun r hr => ?_, fun r huse' hdead => ?_, fun r => ?_⟩
  · have hused := (hlinked.used_iff t).mp ht
    rw [setProc_shTable, hinh.addr] at hused
    have hsum := holders_forked hne hlive (hlink.records.ok p hlive) hinh hqlive (by rw [hq])
      (s.shTable.shmemAddr t)
    rw [holders_born hun] at hsum
    rw [setProc_shTable, hinh.addr, hcnt t,
      hlink.records.hits_eq hlive (fun i => by rw [born_self]; rfl) hused,
      h.counted.exact t ((hlink.used_iff t).mpr hused)]
    change _ = (((s₂.setProc np q).holders (s.shTable.shmemAddr t) : Nat) : Int)
    rw [hsum]
    omega
  · -- every bit of the parent has a page, so free slots are not counted
    rw [setProc_shTable, hinh.key] at ht
    rw [setProc_shTable, hcnt t, h.counted.free t ht,
      hits_eq_zero hneat.page ((hsane.table.empty t).mp ht)]
    rfl
  · exact hinh.cap t (h.counted.cap t)
  · have h₁ := own_forked hl hbal hinh f
    have h₂ := owned_forked (q := q) hun hinh (fun g => by
      rw [own_of_used huse, own_of_used (live_ne_unused hqlive), hq]) f
    have h₃ := h.counted.once f hf
    rw [tally_eq] at h₃ ⊢
    rw [h₂, setProc_mem, setProc_shTable, slots_congr hinh.addr]
    change s₂.mem.freelist.count f + (s.owned f + (s₂.proc np).own f) + s.shTable.slots f ≤ 1
    omega
  · by_cases hrn : r = np
    · rw [hrn, setProc_self]
      refine Proc.Neat.inherited (by rw [hparent]; exact hneat) ?_ (fun i => ?_) hinh
        (by rw [hq])
      · rw [born_self]
        exact ⟨fun _ => rfl, fun _ => rfl, fun _ => rfl, fun _ => rfl⟩
      · have hstart := windowStart_le i
        have hsz := h.size p
        rw [born_self]
        change (d.page (windowPage i)).p = false
        rw [hzero _ (windowPage_user i) (hsz.trans (Nat.mul_le_mul_right _ hstart))]
        rfl
    · rw [setProc_ne hrn, hothers r hrn] at hr ⊢
      exact h.neat r hr
  · by_cases hrn : r = np
    · rw [hrn, setProc_self, hqlive] at hdead
      cases hdead
    · rw [setProc_ne hrn, hothers r hrn] at huse' hdead ⊢
      exact h.dead r huse' hdead
  · by_cases hrn : r = np
    · have hsz : q.sz = (s.proc p).sz := by
        rw [hq]
        simp only
        rw [hinh.rest.1, born_self]
        rfl
      rw [hrn, setProc_self, hsz]
      exact h.size p
    · rw [setProc_ne hrn, hothers r hrn]
      exact h.size r

/-- **`fork`**, unless it is stopped at the limit. -/
theorem Exact.fork {r : CallResult} (h : Exact s) (hsent : SentinelKnown)
    (hlive : s.Live p) (hf : fork p s = .ok (r, s')) (hr : r ≠ .exited) :
    Exact s' := by
  have hsane := h.counted.linked.records.sane
  have hlinked := h.counted.linked.fork hsent hlive hf
  rcases fork_ok hlive (hsane.size p).le hsane.free hf with
    ⟨-, hq⟩ | ⟨np, k, m₁, d, m₂, hne, hun, hl, hcopy, ⟨-, s₂, hinh, hcnt, rfl⟩ | ⟨hexit, -⟩⟩
  · exact h.quiet hq
  · exact h.forked hlive hne hun hl hcopy hinh hcnt rfl hlinked
  · exact absurd hexit hr

/-- A process without shared pages is replaced by another one without, whose
frames come from its own or from the free list. -/
theorem Exact.replace {c : Fin nproc} {q : Proc} {m : Mem} (h : Exact s)
    (hsane : Sane ({ s with mem := m }.setProc c q)) (hheld : ∀ f, f ≠ 0 → (s.proc c).holds f = 0)
    (hlive : q.state ≠ .unused → q.state.live = true)
    (hneat : q.state.live = true → q.Neat ∧ ∀ i, q.phySharedPage i = 0)
    (hsz : q.sz ≤ windowStart * pgSize) (hown : ∀ f, f ≠ 0 →
      m.freelist.count f + q.own f ≤ s.mem.freelist.count f + (s.proc c).own f) :
    Exact ({ s with mem := m }.setProc c q) := by
  have hlink := h.counted.linked
  have hholds : ∀ f, f ≠ 0 → q.holds f = 0 := by
    intro f hf
    rw [Proc.holds]
    split
    · rename_i hl
      refine Finset.sum_eq_zero fun i _ => if_neg ?_
      rw [(hneat hl).2 i]
      exact Ne.symm hf
    · rfl
  have hholders : ∀ f, f ≠ 0 → ({ s with mem := m }.setProc c q).holders f = s.holders f := by
    intro f hf
    have := holders_setProc { s with mem := m } c q f
    rw [hholds f hf, Nat.add_zero] at this
    change _ + (s.proc c).holds f = s.holders f at this
    rw [hheld f hf, Nat.add_zero] at this
    exact this
  have honce : ∀ f, f ≠ 0 → ({ s with mem := m }.setProc c q).tally f ≤ 1 := by
    intro f hf
    have h₁ := owned_setProc { s with mem := m } c q f
    change _ + (s.proc c).own f = s.owned f + q.own f at h₁
    have h₂ := hown f hf
    have h₃ := h.counted.once f hf
    rw [tally_eq] at h₃ ⊢
    rw [setProc_mem, setProc_shTable]
    change m.freelist.count f + _ + s.shTable.slots f ≤ 1
    omega
  have hrec : Records ({ s with mem := m }.setProc c q) := by
    refine ⟨hsane, fun f hf => ?_, forall_setProc
      (P := fun q => q.state.live = true → q.RecordsOK) hlink.records.ok fun hl => ?_⟩
    · have := honce f hf
      rw [tally_eq] at this
      omega
    · obtain ⟨hq, hphy⟩ := hneat hl
      exact ⟨fun i hi => absurd (hphy i) hi,
        fun i => .inl (hq.blank i fun hbit => hq.page i hbit (hphy i)).1⟩
  refine ⟨⟨⟨hrec, fun p i hl hi => ?_, fun t ht => ?_⟩, fun t ht => ?_, h.counted.free,
    h.counted.cap, honce⟩, forall_setProc (P := fun q => q.state.live = true → q.Neat)
      h.neat fun hl => (hneat hl).1, forall_setProc (P := fun q => q.state ≠ .unused →
        q.state.live = false → ∀ i : Fin shmemPages, (q.pgdir.page (windowPage i)).p = false)
      h.dead fun huse hdead => ?_, forall_setProc (P := fun q => q.sz ≤ windowStart * pgSize)
      h.size hsz⟩
  · by_cases hp : p = c
    · rw [hp, setProc_self] at hl hi
      exact absurd ((hneat hl).2 i) hi
    · rw [setProc_ne hp] at hl hi ⊢
      exact hlink.slot p i hl hi
  · have hused := (hlink.used_iff t).mp ht
    rw [setProc_shTable, hholders _ hused]
    exact hlink.count t ht
  · have hused := (hlink.used_iff t).mp ht
    rw [setProc_shTable, hholders _ hused]
    exact h.counted.exact t ht
  · rw [hlive huse] at hdead
    cases hdead

/-- **`wait`** frees the address space of a process whose window is empty. -/
theorem Exact.wait {r : CallResult} (h : Exact s) (hw : wait p s = .ok (r, s')) : Exact s' := by
  have hsane := h.counted.linked.records.sane.wait hw
  rcases wait_ok hw with rfl | ⟨c, m, -, hzombie, hcount, -, rfl⟩
  · exact h
  · refine h.replace hsane (fun f _ => ?_) (fun hun => absurd rfl hun) (fun hl => ?_) (h.size c)
      (fun f _ => ?_)
    · rw [Proc.holds, hzombie]
      rfl
    · simp [ProcState.live] at hl
    · have huse : (s.proc c).state ≠ .unused := by
        rw [hzombie]
        decide
      have hwin := h.dead c huse (by rw [hzombie]; rfl)
      rw [own_unused rfl, own_empty_window huse hwin f, hcount f]
      omega

/-- There is less memory than the user half below the window, so an address
space made of different free frames ends below it. -/
theorem UserImage.below_window {pg : PgDir} {sz : Nat} {m : Mem} (hi : UserImage pg sz)
    (hm : FreelistOK m) (hown : ∀ f, pg.own f ≤ m.freelist.count f)
    (honce : ∀ f, f ≠ 0 → m.freelist.count f ≤ 1) : sz ≤ windowStart * pgSize := by
  by_contra hlt
  have hpages : ∀ f, pg.pages 0 (2 ^ 19) f ≤ m.freelist.count f := fun f =>
    (Nat.le_add_left ..).trans (hown f)
  have hmaps : ∀ w, w ≤ windowStart → w < 2 ^ 19 ∧ (pg.page w).Maps (p2v (pg.page w).pa) := by
    intro w hw
    have hlow : w < 2 ^ 19 := by
      simp only [windowStart, shmemPages] at hw
      omega
    refine ⟨hlow, (hi.present w hlow).mpr ?_, rfl⟩
    exact (Nat.mul_le_mul_right pgSize hw).trans_lt (Nat.lt_of_not_le hlt)
  have hframe : ∀ w, w ≤ windowStart → IsFrame (p2v (pg.page w).pa) := by
    intro w hw
    obtain ⟨hlow, hw'⟩ := hmaps w hw
    have h₁ := Tally.le_sum (f := fun w' => (pg.page w').uses (p2v (pg.page w).pa))
      (Finset.mem_Ico.mpr ⟨Nat.zero_le w, hlow⟩)
    have h₂ := hpages (p2v (pg.page w).pa)
    have h₃ := uses_pos.mpr hw'
    exact hm _ (List.count_pos_iff.mp (Nat.lt_of_lt_of_le h₃ (h₁.trans h₂)))
  have hinj : ∀ w, w ≤ windowStart → ∀ v, v ≤ windowStart →
      p2v (pg.page w).pa = p2v (pg.page v).pa → w = v := by
    intro w hw v hv heq
    by_contra hne
    obtain ⟨hlow, hw'⟩ := hmaps w hw
    obtain ⟨hlow', hv'⟩ := hmaps v hv
    rw [← heq] at hv'
    have h₁ := Tally.add_le_sum (f := fun w' => (pg.page w').uses (p2v (pg.page w).pa))
      (Finset.mem_Ico.mpr ⟨Nat.zero_le w, hlow⟩) (Finset.mem_Ico.mpr ⟨Nat.zero_le v, hlow'⟩) hne
    have h₂ := hpages (p2v (pg.page w).pa)
    have h₃ := honce _ (hframe w hw).ne_zero
    have h₄ := uses_pos.mpr hw'
    have h₅ := uses_pos.mpr hv'
    rw [PgDir.pages] at h₂
    omega
  -- more pages than there are frames
  have hcard := Finset.card_le_card_of_injOn (s := Finset.range (windowStart + 1))
    (t := Finset.Ico (2 ^ 19) (2 ^ 19 + 57344)) (fun w => p2v (pg.page w).pa / pgSize)
    (fun w hw => ?_) (fun w hw v hv heq => ?_)
  · rw [Finset.card_range, Nat.card_Ico] at hcard
    simp only [windowStart, shmemPages] at hcard
    omega
  · have hb := (hframe w (Nat.lt_succ_iff.mp (Finset.mem_range.mp hw))).bounds
    simp only [kernBase, physTop, pgSize, Finset.coe_Ico, Set.mem_Ico] at hb ⊢
    omega
  · have hw' := Nat.lt_succ_iff.mp (Finset.mem_range.mp hw)
    have hv' := Nat.lt_succ_iff.mp (Finset.mem_range.mp hv)
    refine hinj w hw' v hv' ?_
    have h₁ := (hframe w hw').2.1
    have h₂ := (hframe v hv').2.1
    simp only [pgSize] at heq h₁ h₂
    omega

/-- **`exec`** by a process without a page in its window. -/
theorem Exact.exec {ip : Option Inode} {argv : List (List UInt8)} {r : CallResult} (h : Exact s)
    (hlive : s.Live p) (he : exec p ip argv s = .ok (r, s'))
    (hwin : r = .value 0 →
      ∀ i : Fin shmemPages, ((s.proc p).pgdir.page (windowPage i)).p = false) : Exact s' := by
  have hrec := h.counted.linked.records
  have hneat := h.neat p hlive
  have huse := live_ne_unused hlive
  have hsane := hrec.sane.exec he
  rcases exec_ok hrec.sane.free he with ⟨-, m, hm, hcount, rfl⟩ |
    ⟨hr, pg, sz, sp, m, hm, himage, hfree, hbal, rfl⟩
  · refine h.quiet ⟨rfl, rfl, fun _ => .inl rfl, fun f => (hcount f).le⟩
  · have hphy : ∀ i, (s.proc p).phySharedPage i = 0 := by
      intro i
      by_contra hne
      have hpage := congrArg Pte.p ((hrec.ok p hlive).held i hne).page
      rw [hwin hr i] at hpage
      simp [Pte.map] at hpage
    have hsz : sz ≤ windowStart * pgSize := himage.below_window hrec.sane.free hfree fun f hf => by
      have := h.counted.once f hf
      rw [tally_eq] at this
      omega
    have habsent : ∀ i : Fin shmemPages, (pg.page (windowPage i)).p = false := by
      intro i
      rw [← Bool.not_eq_true, himage.present _ (windowPage_user i)]
      have := Nat.mul_le_mul_right pgSize (windowStart_le i)
      omega
    refine h.replace hsane (fun f hf => ?_) (fun _ => hlive) (fun _ => ⟨⟨hneat.page, hneat.blank,
      hneat.uniq, fun i hp => ?_, hneat.visible.bound⟩, hphy⟩) hsz (fun f _ => ?_)
    · rw [Proc.holds, if_pos hlive]
      refine Finset.sum_eq_zero fun i _ => if_neg ?_
      rw [hphy i]
      exact Ne.symm hf
    · simp only [habsent i] at hp
      cases hp
    · have h₁ := hbal f
      rw [own_empty_window huse (hwin hr) f, own_empty_window (q := { s.proc p with
        pgdir := pg, sz := sz, esp := sp }) huse habsent f]
      simp only
      omega

theorem Boot.exact (h : Boot s) : Exact s where
  counted := by
    refine ⟨h.linked, fun t ht => ?_, fun t _ => ?_, fun t => ?_, h.once⟩
    · rw [h.table] at ht
      exact absurd rfl ht
    · rw [h.table]
      rfl
    · rw [h.table]
      simp [shmeminit]
  neat p hlive := by
    have hb := h.blank p (live_ne_unused hlive)
    refine ⟨fun i hbit => ?_, fun i _ => ⟨hb.vm i, hb.key i⟩, fun i j _ hne => ?_,
      h.visible p hlive⟩
    · rw [hb.bitmap i] at hbit
      simp at hbit
    · exact absurd (hb.phy i) hne
  dead p huse _ i := by
    have hi := (h.image p huse).present _ (windowPage_user i)
    have h₁ := h.size p
    have h₂ := Nat.mul_le_mul_right pgSize (windowStart_le i)
    rw [← Bool.not_eq_true, hi]
    omega
  size := h.size

end Xv6
