import Xv6.Shm.Table

/-!
# The records of a process and its page table

What every run of `shmget`, `shmrem`, `fork` and `exit` keeps, however the
calls are misused: a position with a page (`phy_shared_page` not 0) has its
bit set, the address of its own place in the window recorded, and exactly
that page mapped there, writable and for the user. The converse is not kept:
a set bit does not mean a page, and a recorded key does not mean one either.

The pages of the slots are also kept apart from each other and from the free
list (`Records.apart`), as long as nothing frees whole address spaces.
-/

namespace Xv6

open Outcome Transition Function Kernel

/-! ## §1  The slots as a tally -/

theorem slots_congr {t t' : ShmTable} (h : t'.shmemAddr = t.shmemAddr) (f : Nat) :
    t'.slots f = t.slots f := by
  rw [ShmTable.slots, ShmTable.slots, h]

theorem slots_setAddr (t : ShmTable) (i : Fin shmemPages) (a f : Nat) :
    (t.setAddr i a).slots f + (if t.shmemAddr i = f then 1 else 0) =
      t.slots f + if a = f then 1 else 0 := by
  have := Tally.sum_change (s := Finset.univ) (i := i)
    (f := fun j => if t.shmemAddr j = f then 1 else 0)
    (g := fun j => if (t.setAddr i a).shmemAddr j = f then 1 else 0) (Finset.mem_univ i)
    (by intro j _ hj; simp [hj])
  simpa [ShmTable.slots] using this

variable {i j : Fin shmemPages}

theorem slots_pos {t : ShmTable} {f : Nat} (h : t.shmemAddr i = f) :
    1 ≤ t.slots f := by
  have := Tally.le_sum (s := Finset.univ) (f := fun j => if t.shmemAddr j = f then 1 else 0)
    (Finset.mem_univ i)
  simpa [ShmTable.slots, h] using this

/-- Two slots with one page count twice. -/
theorem slots_two {t : ShmTable} {f : Nat} (hij : i ≠ j) (hi : t.shmemAddr i = f)
    (hj : t.shmemAddr j = f) : 2 ≤ t.slots f := by
  have := Tally.add_le_sum (s := Finset.univ) (f := fun j => if t.shmemAddr j = f then 1 else 0)
    (Finset.mem_univ i) (Finset.mem_univ j) hij
  simpa [ShmTable.slots, hi, hj] using this

/-! ## §2  The records of one process -/

/-- Position `i` has its page: bit set, address recorded, page mapped. -/
structure Proc.HeldAt (q : Proc) (i : Fin shmemPages) : Prop where
  bitmap : q.bitmap i = 1
  vm : q.vmSharedPage i = windowAddr i
  page : q.pgdir.page (windowPage i) = .map (v2p (q.phySharedPage i)) permWU

structure Proc.RecordsOK (q : Proc) : Prop where
  held : ∀ i, q.phySharedPage i ≠ 0 → q.HeldAt i
  vm : ∀ i, q.vmSharedPage i = 0 ∨ q.vmSharedPage i = windowAddr i

theorem windowPage_lt (i : Fin shmemPages) : windowPage i < 2 ^ 20 := by
  simp only [windowPage]
  omega

/-- The window is the top of the user half. -/
theorem windowPage_user (i : Fin shmemPages) : windowPage i < 2 ^ 19 := by
  simp only [windowPage]
  omega

theorem windowStart_le (i : Fin shmemPages) : windowStart ≤ windowPage i := by
  have hi : (i : Nat) < 32 := i.isLt
  simp only [windowStart, windowPage, shmemPages]
  omega

theorem windowPage_ne (h : i ≠ j) : windowPage i ≠ windowPage j :=
  fun heq => h (Fin.ext (windowPage_inj i.isLt j.isLt heq))

theorem Proc.RecordsOK.attach {q : Proc} {pos : Fin shmemPages} {f : Nat} {key : Buf}
    {pg : PgDir} {m m' : Mem} (h : q.RecordsOK)
    (hmap : Mapped q.pgdir pg m m' (windowPage pos) (v2p f)) :
    (q.attach pos f key pg).RecordsOK := by
  refine ⟨fun i hi => ?_, fun i => ?_⟩
  · by_cases hip : i = pos
    · subst hip
      refine ⟨by simp [Proc.attach], by simp [Proc.attach], ?_⟩
      simp [Proc.attach, hmap.page _ (windowPage_lt i)]
    · have hold := h.held i (by simpa [Proc.attach, hip] using hi)
      refine ⟨by simpa [Proc.attach, hip] using hold.bitmap,
        by simpa [Proc.attach, hip] using hold.vm, ?_⟩
      have hpage := hold.page
      simp only [Proc.attach, update_of_ne hip]
      rw [hmap.page _ (windowPage_lt i), if_neg (windowPage_ne hip), hpage]
  · by_cases hip : i = pos
    · simp [Proc.attach, hip]
    · simpa [Proc.attach, hip] using h.vm i

/-- The page `shmrem` unmaps is not that of another position. -/
theorem Proc.RecordsOK.pageOf_ne {q : Proc} (h : q.RecordsOK) (hij : j ≠ i) :
    windowPage j ≠ pageOf (q.vmSharedPage i) := by
  rcases h.vm i with h0 | hw
  · rw [h0]
    have : pageOf 0 = 0 := rfl
    have hj : (j : Nat) < 32 := j.isLt
    rw [this]
    simp only [windowPage]
    omega
  · rw [hw, pageOf_windowAddr i.isLt]
    exact windowPage_ne hij

/-- A position is dropped, and possibly more of its record with it. -/
theorem Proc.RecordsOK.drop {q q' : Proc} (h : q.RecordsOK)
    (hclear : Cleared q.pgdir q'.pgdir (pageOf (q.vmSharedPage i)))
    (hphy : q'.phySharedPage = update q.phySharedPage i 0)
    (hvm : q'.vmSharedPage = q.vmSharedPage ∨
      q'.vmSharedPage = update q.vmSharedPage i 0) (hbit : q'.bitmap = q.bitmap) :
    q'.RecordsOK := by
  refine ⟨fun j hj => ?_, fun j => ?_⟩
  · have hji : j ≠ i := by
      rintro rfl
      simp [hphy] at hj
    have hold := h.held j (by simpa [hphy, hji] using hj)
    refine ⟨by rw [hbit]; exact hold.bitmap, ?_, ?_⟩
    · rcases hvm with hvm | hvm
      · rw [hvm]
        exact hold.vm
      · simpa [hvm, hji] using hold.vm
    · rw [hclear.page _ (windowPage_lt j), if_neg (h.pageOf_ne hji), hold.page, hphy,
        update_of_ne hji]
  · rcases hvm with hvm | hvm
    · rw [hvm]
      exact h.vm j
    · by_cases hji : j = i
      · simp [hvm, hji]
      · simpa [hvm, hji] using h.vm j

variable {p : Fin nproc} {s s' : Kernel}

/-- A child born without records gets proper ones. -/
theorem Proc.RecordsOK.inherited {c : Fin nproc} {is : List (Fin shmemPages)}
    (hp : (s.proc p).RecordsOK) (hphy : ∀ i, (s.proc c).phySharedPage i = 0)
    (hvm : ∀ i, (s.proc c).vmSharedPage i = 0) (h : Inherited p c is s s') :
    (s'.proc c).RecordsOK := by
  refine ⟨fun i hi => ?_, fun i => ?_⟩
  · by_cases hcopied : i ∈ is ∧ (s.proc p).Copies (s.proc c) i
    · obtain ⟨h₁, h₂, -, h₄⟩ := h.rec_copied i hcopied.1 hcopied.2
      have hheld := hp.held i (by rwa [← h₁])
      exact ⟨h₄, h₂.trans hheld.vm, by rw [h.page_copied i hcopied.1 hcopied.2, h₁]⟩
    · have h₁ := (h.rec_other i fun hmem hc => hcopied ⟨hmem, hc⟩).1
      exact absurd (h₁.trans (hphy i)) hi
  · by_cases hcopied : i ∈ is ∧ (s.proc p).Copies (s.proc c) i
    · rw [(h.rec_copied i hcopied.1 hcopied.2).2.1]
      exact hp.vm i
    · rw [(h.rec_other i fun hmem hc => hcopied ⟨hmem, hc⟩).2.1]
      exact .inl (hvm i)

/-- No page is mapped in the window without a record of it. -/
structure Proc.Visible (q : Proc) : Prop where
  page : ∀ i : Fin shmemPages, (q.pgdir.page (windowPage i)).p = true → q.phySharedPage i ≠ 0
  bound : ∀ i, q.phySharedPage i < 2 ^ 32

theorem Proc.Visible.attach {q : Proc} {pos : Fin shmemPages} {f : Nat} {key : Buf} {pg : PgDir}
    {m m' : Mem} (h : q.Visible) (hf : f ≠ 0) (hf32 : f < 2 ^ 32)
    (hmap : Mapped q.pgdir pg m m' (windowPage pos) (v2p f)) :
    (q.attach pos f key pg).Visible := by
  refine ⟨fun i hp => ?_, fun i => ?_⟩
  · by_cases hip : i = pos
    · simpa [Proc.attach, hip] using hf
    · simp only [Proc.attach, hmap.page _ (windowPage_lt i), if_neg (windowPage_ne hip)] at hp
      simpa [Proc.attach, hip] using h.page i hp
  · by_cases hip : i = pos
    · simpa [Proc.attach, hip] using hf32
    · simpa [Proc.attach, hip] using h.bound i

/-- A position is dropped: its page is unmapped, or it had none. -/
theorem Proc.Visible.drop {q q' : Proc} (h : q.Visible) (hok : q.RecordsOK)
    (hclear : Cleared q.pgdir q'.pgdir (pageOf (q.vmSharedPage i)))
    (hphy : q'.phySharedPage = update q.phySharedPage i 0) : q'.Visible := by
  have hpage : ∀ j : Fin shmemPages, (q'.pgdir.page (windowPage j)).p = true →
      (q.pgdir.page (windowPage j)).p = true ∧ windowPage j ≠ pageOf (q.vmSharedPage i) := by
    intro j hp
    rw [hclear.page _ (windowPage_lt j)] at hp
    split at hp
    · simp [Pte.zero] at hp
    · exact ⟨hp, ‹_›⟩
  refine ⟨fun j hp => ?_, fun j => ?_⟩
  · obtain ⟨hold, hne⟩ := hpage j hp
    by_cases hji : j = i
    · subst hji
      have hheld := hok.held j (h.page j hold)
      rw [hheld.vm, pageOf_windowAddr j.isLt] at hne
      exact absurd rfl hne
    · simpa [hphy, hji] using h.page j hold
  · by_cases hji : j = i
    · simp [hphy, hji]
    · simpa [hphy, hji] using h.bound j

/-! ## §3  All processes -/

variable [Image]

/-- A page given up moves from its slot to the free list. -/
theorem GiveUp.conserves {t t' : ShmTable} {m m' : Mem} {y : Fin shmemPages}
    (h : GiveUp t m y t' m') {f : Nat} (hf : f ≠ 0) :
    m'.freelist.count f + t'.slots f = m.freelist.count f + t.slots f := by
  cases h with
  | last hone hframe hl =>
    have hslots : (t.free y).slots f + (if t.shmemAddr y = f then 1 else 0) = t.slots f := by
      have := slots_setAddr t y 0 f
      rw [if_neg (Ne.symm hf), Nat.add_zero] at this
      rw [slots_congr (show (t.free y).shmemAddr = (t.setAddr y 0).shmemAddr from rfl)]
      exact this
    rw [hl, List.count_cons]
    simp only [beq_iff_eq]
    omega
  | other hgt hl =>
    rw [hl, slots_congr (show (t.setCounter y (t.shmemCounter y - 1)).shmemAddr =
      t.shmemAddr from rfl)]

structure Records (s : Kernel) : Prop where
  sane : Sane s
  apart : ∀ f, f ≠ 0 → s.mem.freelist.count f + s.shTable.slots f ≤ 1
  ok : ∀ p, (s.proc p).state.live = true → (s.proc p).RecordsOK

/-- No two slots in use have the same page. -/
theorem Records.addr_inj (h : Records s) (heq : s.shTable.shmemAddr i = s.shTable.shmemAddr j)
    (hne : s.shTable.shmemAddr i ≠ 0) :
    i = j := by
  by_contra hij
  have h₁ := slots_two hij rfl heq.symm
  have h₂ := h.apart _ hne
  omega

omit [Image] in
/-- Records when one process changes. -/
theorem ok_setProc {q : Proc} (h : ∀ p', s.Live p' → (s.proc p').RecordsOK)
    (hq : q.state.live = true → q.RecordsOK) (p' : Fin nproc) :
    ((s.setProc p q).proc p').state.live = true → ((s.setProc p q).proc p').RecordsOK := by
  by_cases hp : p' = p
  · subst hp
    simpa using hq
  · rw [setProc_ne hp]
    exact h p'

theorem Records.withLock (h : Records s) (b : Bool) : Records (s.withLock b) :=
  ⟨h.sane.withLock b, h.apart, h.ok⟩

theorem Records.detachAt {y : Fin shmemPages} (h : Records s) (hd : detachAt p i y s = .ok s') :
    Records s' := by
  have hsane := h.sane.detachAt hd
  rcases detachAt_ok hd with ⟨rfl, -⟩ | ⟨pg, t, m, -, hgive, hclear, rfl⟩
  · exact h
  · refine ⟨hsane, fun f hf => ?_, ok_setProc h.ok fun hlive => ?_⟩
    · have := h.apart f hf
      rw [← hgive.conserves hf] at this
      exact this
    · exact (h.ok p hlive).drop hclear rfl (.inl rfl) rfl

theorem Records.shmrem {key : Buf} {r : Int} (h : Records s) (hkey : IsKey key)
    (hr : shmrem p key s = .ok (r, s')) : Records s' := by
  have hsane := h.sane.shmrem hkey hr
  obtain
    ⟨-, ⟨-, -, s₁, hall, rfl⟩ | ⟨-, -, -, rfl⟩ | ⟨-, i, y, s₁, hfind, hdet, rfl⟩⟩ := shmrem_ok hr
  · have h₁ := detachAll_inv (I := Records) (fun _ _ _ _ hs _ hd => hs.detachAt hd)
      (h.withLock true) hall
    exact h₁.withLock false
  · exact h
  · have hpos := (h.sane.table.match_pos hkey (findDetach_some hfind).1).2
    obtain ⟨pg, t, m, k, hgive, hclear, -, rfl⟩ := detachKey_ok (s := s.withLock true) hpos hdet
    refine ⟨hsane, fun f hf => ?_, ok_setProc h.ok fun hlive => ?_⟩
    · have := h.apart f hf
      have hcons := hgive.conserves hf
      rw [slots_congr (withLock_addr s true)] at hcons
      exact hcons.symm ▸ this
    · exact (h.ok p hlive).drop hclear rfl (.inr rfl) rfl

theorem Records.shmget {key : Buf} {r : CallResult} (h : Records s) (hkey : IsKey key)
    (hg : shmget p key s = .ok (r, s')) : Records s' := by
  have hsane := h.sane.shmget hkey hg
  rcases shmget_ok hkey hg with _ | ⟨t, pos, pg, m, -, -, -, -, hmap⟩ |
    ⟨t, pos, f, pg, m₁, m, hno, ht, hl, -, hmap⟩
  · exact h
  · refine ⟨hsane, fun f hf => ?_, ok_setProc h.ok fun hlive => (h.ok p hlive).attach hmap⟩
    exact (Nat.add_le_add_right (hmap.grew.count f) _).trans (h.apart f hf)
  · refine ⟨hsane, fun g hg => ?_, ok_setProc h.ok fun hlive => (h.ok p hlive).attach hmap⟩
    have h₀ := h.apart g hg
    have hslots := slots_setAddr s.shTable t f g
    have hfree : s.shTable.shmemAddr t = 0 :=
      (h.sane.table.empty t).mp ((h.sane.table.padded t).eq_zero_iff.mp ht)
    rw [hfree, if_neg (Ne.symm hg), Nat.add_zero] at hslots
    have hcount := hmap.grew.count g
    rw [hl, List.count_cons] at h₀
    simp only [beq_iff_eq] at h₀
    simp only [setProc_mem, setProc_shTable]
    rw [slots_congr (show (((s.shTable.setAddr t f).setCounter t
      (s.shTable.shmemCounter t + 1)).setKey t (memmove (s.shTable.shmemKey t) key
        (strlen key))).shmemAddr = (s.shTable.setAddr t f).shmemAddr from rfl), hslots]
    omega

theorem Records.exit (h : Records s) (he : exit p s = .ok s') :
    Records s' := by
  have hsane := h.sane.exit he
  obtain ⟨-, r, s₁, hrem, rfl⟩ := exit_ok he
  have h₁ := h.shmrem exitLit_isKey hrem
  refine ⟨hsane, h₁.apart, fun q hlive => ?_⟩
  obtain ⟨par, hq⟩ := becomeZombie_proc p q s₁
  by_cases hqp : q = p
  · rw [hq, if_pos hqp] at hlive
    simp [ProcState.live] at hlive
  · rw [hq, if_neg hqp] at hlive ⊢
    have hok := h₁.ok q hlive
    exact ⟨fun i hi => ⟨(hok.held i hi).bitmap, (hok.held i hi).vm, (hok.held i hi).page⟩, hok.vm⟩

/-- `manage_fork` while the child cannot run yet. -/
theorem Records.inherited {c : Fin nproc} {is : List (Fin shmemPages)} (h : Records s)
    (hc : (s.proc c).state = .embryo) (hi : Inherited p c is s s') :
    Records s' where
  sane := h.sane.inherited hi
  apart f hf := by
    rw [slots_congr hi.addr]
    exact (Nat.add_le_add_right (hi.grew.count f) _).trans (h.apart f hf)
  ok q hlive := by
    by_cases hq : q = c
    · rw [hq, hi.rest.2.2.1, hc] at hlive
      simp [ProcState.live] at hlive
    · rw [hi.others q hq] at hlive ⊢
      exact h.ok q hlive

theorem Records.quiet (h : Records s) (hq : Quiet s s') : Records s' where
  sane := h.sane.quiet hq
  apart f hf := by
    rw [hq.table]
    exact (Nat.add_le_add_right (hq.count f) _).trans (h.apart f hf)
  ok q hlive := by
    rcases hq.proc q with heq | ⟨-, hun, -⟩
    · rw [heq] at hlive ⊢
      exact h.ok q hlive
    · rw [hun] at hlive
      simp [ProcState.live] at hlive

/-- The child's state before `manage_fork` runs. -/
theorem Records.born (np : Fin nproc) {k : Nat} {m₁ m₂ : Mem} {d : PgDir} (h : Records s)
    (hl : s.mem.freelist = k :: m₁.freelist)
    (hcopy : copyuvm (s.proc p).pgdir (s.proc p).sz m₁ = .ok (some d, m₂)) :
    Records (s.born p np k d m₂) := by
  have hm₁ : FreelistOK m₁ := fun f hf =>
    h.sane.free f (by rw [hl]; exact List.mem_cons_of_mem _ hf)
  obtain ⟨hm₂, -, hsome⟩ := copyuvm_spec (h.sane.size p).le hm₁ hcopy
  refine ⟨⟨hm₂, h.sane.table, size_setProc h.sane.size (h.sane.size p)⟩, fun f hf => ?_,
    ok_setProc h.ok fun hlive => ?_⟩
  · have h₀ := h.apart f hf
    have h₁ := (hsome d rfl).1 f
    rw [hl, List.count_cons] at h₀
    simp only [Kernel.born, setProc_mem, setProc_shTable]
    omega
  · simp [Proc.newborn, ProcState.live] at hlive

theorem Records.fork {r : CallResult} (h : Records s) (hlive : s.Live p)
    (hf : fork p s = .ok (r, s')) : Records s' := by
  have hsane := h.sane.fork hlive hf
  rcases fork_ok hlive (h.sane.size p).le h.sane.free hf with
    ⟨-, hq⟩ | ⟨np, k, m₁, d, m₂, hne, -, hl, hcopy, hend⟩
  · exact h.quiet hq
  · have hborn := h.born np hl hcopy
    rcases hend with ⟨-, s₂, hinh, -, rfl⟩ | ⟨-, -, js, s₁, hinh, hexit⟩
    · have h₂ := hborn.inherited (by simp [Proc.newborn]) hinh
      refine ⟨hsane, h₂.apart, ok_setProc h₂.ok fun _ => ?_⟩
      -- the parent's records are in order, so the child's are
      have hp := h.ok p hlive
      rw [← born_ne hne k d m₂] at hp
      have hok := Proc.RecordsOK.inherited hp (fun i => by rw [born_self]; rfl)
        (fun i => by rw [born_self]; rfl) hinh
      exact ⟨fun i hi => ⟨(hok.held i hi).bitmap, (hok.held i hi).vm, (hok.held i hi).page⟩,
        hok.vm⟩
    · exact (hborn.inherited (by simp [Proc.newborn]) hinh).exit hexit

theorem Boot.records (h : Boot s) : Records s where
  sane := h.sane
  apart f hf := by
    have := h.once f hf
    simp only [Kernel.tally] at this
    omega
  ok p hlive := by
    have hb := h.blank p (by intro hun; rw [hun] at hlive; simp [ProcState.live] at hlive)
    exact ⟨fun i hi => absurd (hb.phy i) hi, fun i => .inl (hb.vm i)⟩

end Xv6
