import Xv6.Kernel.Progress
import Xv6.Shm.Linked

/-!
# What a child gets from `fork`

`manage_fork` copies the positions whose bit is set in the parent, and counts
each of them at the first slot with its page. After any run of `shmget` and
`shmrem` a child made by a successful `fork` has exactly the attachments of
its parent, each counted once, if and only if every set bit of the parent
still has a page and no two of its positions have the page of one slot
(`ForksWell`). Every `shmrem` leaves a bit set, so a single `shmget` and
`shmrem` before the `fork` breaks it.
-/

namespace Xv6

open Outcome Transition Kernel

variable [Image]

/-! ## §1  Runs of `shmget` and `shmrem` -/

def Call.attaches : Call → Bool
  | .shmget _ _ | .shmrem _ _ => true
  | _ => false

/-- What these runs keep, whatever the calls are. -/
structure Settled (s : Kernel) : Prop where
  records : Records s
  visible : ∀ p, (s.proc p).state.live = true → (s.proc p).Visible
  size : ∀ p, (s.proc p).sz ≤ windowStart * pgSize

variable {s s' : Kernel} {p : Fin nproc}

omit [Image] in
theorem visible_setProc {q : Proc} (h : ∀ p', s.Live p' → (s.proc p').Visible)
    (hq : q.state.live = true → q.Visible) (p' : Fin nproc) :
    ((s.setProc p q).proc p').state.live = true → ((s.setProc p q).proc p').Visible := by
  by_cases hp : p' = p
  · subst hp
    simpa using hq
  · rw [setProc_ne hp]
    exact h p'

omit [Image] in
theorem sz_setProc {q : Proc} {b : Nat} (h : ∀ p', (s.proc p').sz ≤ b) (hq : q.sz = (s.proc p).sz)
    (p' : Fin nproc) :
    ((s.setProc p q).proc p').sz ≤ b := by
  by_cases hp : p' = p
  · subst hp
    rw [setProc_self, hq]
    exact h p'
  · rw [setProc_ne hp]
    exact h p'

theorem Settled.shmget {key : Buf} {r : CallResult} (h : Settled s) (hkey : IsKey key)
    (hg : shmget p key s = .ok (r, s')) : Settled s' := by
  have hrec := h.records.shmget hkey hg
  have htable := h.records.sane.table
  rcases shmget_ok hkey hg with _ | ⟨t, pos, pg, m, ht, -, -, -, hmap⟩ |
    ⟨t, pos, f, pg, m₁, m, -, -, hl, -, hmap⟩
  · exact h
  · have hused : s.shTable.shmemAddr t ≠ 0 := fun h0 => by
      have hz := (htable.match_pos hkey ht).1.symm.trans ((htable.empty t).mpr h0)
      exact keyOf_zero_ne hkey ((keyOf_padded hkey).eq_zero_iff.mpr hz)
    exact ⟨hrec, visible_setProc h.visible fun hlive =>
      (h.visible p hlive).attach hused (htable.bound t) hmap, sz_setProc h.size rfl⟩
  · have hf : IsFrame f := h.records.sane.free f (by simp [hl])
    exact ⟨hrec, visible_setProc h.visible fun hlive =>
      (h.visible p hlive).attach hf.ne_zero hf.1 hmap, sz_setProc h.size rfl⟩

theorem Settled.detachAt {i y : Fin shmemPages} (h : Settled s) (hd : detachAt p i y s = .ok s') :
    Settled s' := by
  have hrec := h.records.detachAt hd
  rcases detachAt_ok hd with ⟨rfl, -⟩ | ⟨pg, t, m, -, -, hclear, rfl⟩
  · exact h
  · exact ⟨hrec, visible_setProc h.visible fun hlive =>
      (h.visible p hlive).drop (h.records.ok p hlive) hclear rfl, sz_setProc h.size rfl⟩

theorem Settled.shmrem {key : Buf} {r : Int} (h : Settled s) (hkey : IsKey key)
    (hr : shmrem p key s = .ok (r, s')) : Settled s' := by
  have hrec := h.records.shmrem hkey hr
  have htable := h.records.sane.table
  obtain
    ⟨-, ⟨-, -, s₁, hall, rfl⟩ | ⟨-, -, -, rfl⟩ | ⟨-, i, y, s₁, hfind, hdet, rfl⟩⟩ := shmrem_ok hr
  · have h₁ := detachAll_inv (I := Settled) (fun _ _ _ _ hs _ hd => hs.detachAt hd)
      ⟨h.records.withLock true, h.visible, h.size⟩ hall
    exact ⟨hrec, h₁.visible, h₁.size⟩
  · exact h
  · have hpos := (htable.match_pos hkey (findDetach_some hfind).1).2
    obtain ⟨pg, t, m, k, -, hclear, -, rfl⟩ := detachKey_ok (s := s.withLock true) hpos hdet
    exact ⟨hrec, visible_setProc h.visible fun hlive =>
      (h.visible p hlive).drop (h.records.ok p hlive) hclear rfl, sz_setProc h.size rfl⟩

/-- **Run.** -/
theorem Settled.run {s₀ : Kernel} {es : List Event} (hboot : Boot s₀)
    (hrun : (kernel.guarded fun _ e => e.call.attaches = true).Run s₀ es s) : Settled s := by
  refine hrun.invariant (I := Settled) (fun s e s' h hs => ?_)
    ⟨hboot.records, hboot.visible, hboot.size⟩
  obtain ⟨who, call, result⟩ := e
  obtain ⟨hc, -, hcall⟩ := hs
  cases call_does hcall with
  | getRefused | remRefused => exact h
  | shmget hkey _ hg => exact h.shmget hkey hg
  | shmrem hkey _ hr => exact h.shmrem hkey hr
  | _ => cases hc

/-! ## §2  What `fork` does to the attachments -/

/-- `p` maps the page of slot `t`, which is in use. -/
def AttachedTo (s : Kernel) (p : Fin nproc) (t : Fin shmemPages) : Prop :=
  s.shTable.shmemKey t ≠ zeroKey ∧ ∃ i : Fin shmemPages,
    ((s.proc p).pgdir.entry (windowAddr i)).Maps (s.shTable.shmemAddr t)

/-- The attachments of the child `c` are those `p` had, and each slot `p` was
attached to is counted once more. -/
structure SharesExactly (s s' : Kernel) (p c : Fin nproc) : Prop where
  mapped : ∀ i : Fin shmemPages, ((s'.proc c).pgdir.entry (windowAddr i)).p =
    ((s.proc p).pgdir.entry (windowAddr i)).p
  same : ∀ i : Fin shmemPages, ((s.proc p).pgdir.entry (windowAddr i)).p = true →
    ((s'.proc c).pgdir.entry (windowAddr i)).pa = ((s.proc p).pgdir.entry (windowAddr i)).pa ∧
    (s'.proc c).pKey i = (s.proc p).pKey i ∧
    (s'.proc c).vmSharedPage i = (s.proc p).vmSharedPage i
  addr : s'.shTable.shmemAddr = s.shTable.shmemAddr
  key : s'.shTable.shmemKey = s.shTable.shmemKey
  counted : ∀ t, AttachedTo s p t → s'.shTable.shmemCounter t = s.shTable.shmemCounter t + 1
  uncounted : ∀ t, ¬ AttachedTo s p t → s'.shTable.shmemCounter t = s.shTable.shmemCounter t

/-- Every set bit has a page, and no two positions have the page of one
slot. -/
def ForksWell (s : Kernel) (p : Fin nproc) : Prop :=
  (∀ i, (s.proc p).bitmap i = 1 → (s.proc p).phySharedPage i ≠ 0) ∧
  ∀ t i j, s.shTable.shmemAddr t ≠ 0 → (s.proc p).phySharedPage i = s.shTable.shmemAddr t →
    (s.proc p).phySharedPage j = s.shTable.shmemAddr t → i = j

/-- In the window the records say what is mapped. -/
theorem Settled.entry (h : Settled s) (hlive : s.Live p) (i : Fin shmemPages) :
    ((s.proc p).pgdir.entry (windowAddr i)).p = decide ((s.proc p).phySharedPage i ≠ 0) ∧
      ((s.proc p).phySharedPage i ≠ 0 → (s.proc p).pgdir.entry (windowAddr i) =
        .map (v2p ((s.proc p).phySharedPage i)) permWU) := by
  have hpage : (s.proc p).pgdir.entry (windowAddr i) = (s.proc p).pgdir.page (windowPage i) := by
    rw [PgDir.page, windowPage_mul i.isLt]
  rw [hpage]
  have hheld := fun hphy => ((h.records.ok p hlive).held i hphy).page
  refine ⟨?_, hheld⟩
  by_cases hphy : (s.proc p).phySharedPage i = 0
  · simp only [hphy, ne_eq, not_true_eq_false, decide_false]
    by_contra hp
    exact (h.visible p hlive).page i (by simpa using hp) hphy
  · rw [hheld hphy]
    simp [hphy, Pte.map]

theorem Settled.attachedTo_iff (h : Settled s) (hlive : s.Live p)
    (t : Fin shmemPages) :
    AttachedTo s p t ↔ s.shTable.shmemAddr t ≠ 0 ∧
      ∃ i, (s.proc p).phySharedPage i = s.shTable.shmemAddr t := by
  have hused := h.records.sane.table.empty t
  have hback := fun i => p2v_v2p ((h.visible p hlive).bound i)
  constructor
  · rintro ⟨hkey, i, hp, hpa⟩
    obtain ⟨hpres, hentry⟩ := h.entry hlive i
    have hphy : (s.proc p).phySharedPage i ≠ 0 := by
      rw [hp] at hpres
      exact of_decide_eq_true hpres.symm
    rw [hentry hphy] at hpa
    exact ⟨fun h0 => hkey (hused.mpr h0), i, (hback i).symm.trans hpa⟩
  · rintro ⟨haddr, i, hi⟩
    have hphy : (s.proc p).phySharedPage i ≠ 0 := by
      rw [hi]
      exact haddr
    refine ⟨fun hz => haddr (hused.mp hz), i, ?_⟩
    rw [(h.entry hlive i).2 hphy]
    exact ⟨rfl, (hback i).trans hi⟩

omit [Image] in
/-- What a live process holds is counted once for each position. -/
theorem holds_eq_one {q : Proc} {f : Nat} (hlive : q.state.live = true)
    (huniq : ∀ i j, q.phySharedPage i = f → q.phySharedPage j = f → i = j)
    (hex : ∃ i, q.phySharedPage i = f) : q.holds f = 1 := by
  obtain ⟨i, hi⟩ := hex
  have h₁ := Tally.le_sum (s := Finset.univ) (f := fun j => if q.phySharedPage j = f then 1 else 0)
    (Finset.mem_univ i)
  have h₂ := Tally.sum_le_one (s := Finset.univ)
    (f := fun j => if q.phySharedPage j = f then 1 else 0) (fun j _ => by split <;> omega)
    (fun j _ k _ hj hk => by
      refine huniq j k ?_ ?_
      · by_contra hne
        simp [hne] at hj
      · by_contra hne
        simp [hne] at hk)
  rw [Proc.holds, if_pos hlive]
  simp only [hi, if_true] at h₁
  omega

omit [Image] in
theorem two_le_holds {q : Proc} {f : Nat} {i j : Fin shmemPages} (hlive : q.state.live = true)
    (hij : i ≠ j) (hi : q.phySharedPage i = f) (hj : q.phySharedPage j = f) : 2 ≤ q.holds f := by
  have := Tally.add_le_sum (s := Finset.univ)
    (f := fun k => if q.phySharedPage k = f then 1 else 0) (Finset.mem_univ i)
    (Finset.mem_univ j) hij
  rw [Proc.holds, if_pos hlive]
  simpa [hi, hj] using this

theorem Settled.holds_unattached {t : Fin shmemPages} (h : Settled s)
    (hlive : s.Live p) (h0 : s.shTable.shmemAddr t ≠ 0)
    (ht : ¬ AttachedTo s p t) : (s.proc p).holds (s.shTable.shmemAddr t) = 0 := by
  rw [Proc.holds, if_pos hlive]
  refine Finset.sum_eq_zero fun i _ => if_neg fun hi => ?_
  exact ht ((h.attachedTo_iff hlive t).mpr ⟨h0, i, hi⟩)

/-- A successful `fork` of `p` with child `c`, as far as shared pages go. -/
structure Forked (s s' : Kernel) (p c : Fin nproc) : Prop where
  born : (s.proc c).state = .unused ∧ (s'.proc c).state = .runnable
  others : ∀ q, q ≠ c → s'.proc q = s.proc q
  addr : s'.shTable.shmemAddr = s.shTable.shmemAddr
  key : s'.shTable.shmemKey = s.shTable.shmemKey
  copied : ∀ i : Fin shmemPages, (s.proc p).bitmap i = 1 →
    (s'.proc c).pgdir.entry (windowAddr i) = .map (v2p ((s.proc p).phySharedPage i)) permWU ∧
    (s'.proc c).pKey i = (s.proc p).pKey i ∧
    (s'.proc c).vmSharedPage i = (s.proc p).vmSharedPage i
  skipped : ∀ i : Fin shmemPages, (s.proc p).bitmap i ≠ 1 →
    (s'.proc c).pgdir.entry (windowAddr i) = .zero
  used : ∀ t, s.shTable.shmemAddr t ≠ 0 → s'.shTable.shmemCounter t =
    s.shTable.shmemCounter t + (s.proc p).holds (s.shTable.shmemAddr t)
  free : (∀ i, (s.proc p).bitmap i = 1 → (s.proc p).phySharedPage i ≠ 0) →
    ∀ t, s.shTable.shmemAddr t = 0 → s'.shTable.shmemCounter t = s.shTable.shmemCounter t

theorem Settled.forked {v : Int} (h : Settled s) (hlive : s.Live p)
    (hf : fork p s = .ok (.value v, s')) (hv : v ≠ -1) :
    ∃ c, Forked s s' p c := by
  rcases fork_ok hlive (h.records.sane.size p).le h.records.sane.free hf with
    ⟨hr, -⟩ | ⟨c, k, m₁, d, m₂, hne, hun, hl, hcopy, ⟨-, s₂, hinh, hcnt, rfl⟩ | ⟨hr, -⟩⟩
  · cases hr
    exact absurd rfl hv
  · have hm₁ : FreelistOK m₁ := fun f hf =>
      h.records.sane.free f (by rw [hl]; exact List.mem_cons_of_mem _ hf)
    obtain ⟨-, -, hsome⟩ := copyuvm_spec (h.records.sane.size p).le hm₁ hcopy
    have hparent : (s.born p c k d m₂).proc p = s.proc p := born_ne hne k d m₂
    have hbit : ∀ i, ((s.born p c k d m₂).proc c).bitmap i = 0 := fun i => by
      rw [born_self]; rfl
    have hcopies : ∀ i, ((s.born p c k d m₂).proc p).Copies
        ((s.born p c k d m₂).proc c) i ↔ (s.proc p).bitmap i = 1 := by
      intro i
      rw [Proc.Copies, hparent, hbit i]
      exact and_iff_left (by decide)
    have hentry : ∀ i : Fin shmemPages, (s₂.proc c).pgdir.entry (windowAddr i) =
        (s₂.proc c).pgdir.page (windowPage i) := fun i => by
      rw [PgDir.page, windowPage_mul i.isLt]
    refine ⟨c, ⟨hun, by simp⟩, fun q hq => ?_, hinh.addr, hinh.key, fun i hi => ?_,
      fun i hi => ?_, fun t ht => ?_, fun hpages t ht => ?_⟩
    · rw [setProc_ne hq, hinh.others q hq, born_ne hq]
    · have hc := (hcopies i).mpr hi
      obtain ⟨-, h₂, h₃, -⟩ := hinh.rec_copied i (List.mem_finRange i) hc
      rw [setProc_self]
      simp only
      rw [hentry i, hinh.page_copied i (List.mem_finRange i) hc, h₂, h₃, hparent]
      exact ⟨rfl, rfl, rfl⟩
    · rw [setProc_self]
      simp only
      rw [hentry i, hinh.page_other _ (windowPage_lt i) fun j _ hj heq => ?_]
      · -- the copy of the private pages ends below the window
        have habove : (s.proc p).sz ≤ windowPage i * pgSize :=
          (h.size p).trans (Nat.mul_le_mul_right _ (windowStart_le i))
        rw [born_self]
        exact (hsome d rfl).2.1 _ (windowPage_user i) habove
      · rw [Fin.ext (windowPage_inj i.isLt j.isLt heq)] at hi
        exact hi ((hcopies j).mp hj)
    · rw [setProc_shTable, hcnt t, hparent, h.records.hits_eq hlive hbit ht]
    · rw [setProc_shTable, hcnt t, hparent, hits_eq_zero hpages ht]
      exact Int.add_zero _
  · cases hr

/-- The child's attachments are the parent's if and only if the parent's
records are in order. -/
theorem Settled.shares_iff {c : Fin nproc} (h : Settled s) (hlive : s.Live p)
    (hf : Forked s s' p c) :
    SharesExactly s s' p c ↔ ForksWell s p := by
  constructor
  · intro hx
    constructor
    · intro i hi hphy
      have hm := hx.mapped i
      rw [(hf.copied i hi).1, (h.entry hlive i).1, hphy] at hm
      simp [Pte.map] at hm
    · intro t i j ht hi hj
      by_contra hij
      have h₁ := hx.counted t ((h.attachedTo_iff hlive t).mpr ⟨ht, i, hi⟩)
      have h₂ := hf.used t ht
      have h₃ := two_le_holds hlive hij hi hj
      omega
  · rintro ⟨hbits, huniq⟩
    have hheld := (h.records.ok p hlive).held
    refine ⟨fun i => ?_, fun i hp => ?_, hf.addr, hf.key, fun t ht => ?_, fun t ht => ?_⟩
    · rw [(h.entry hlive i).1]
      by_cases hi : (s.proc p).bitmap i = 1
      · rw [(hf.copied i hi).1]
        simp [Pte.map, hbits i hi]
      · have hphy : (s.proc p).phySharedPage i = 0 := by
          by_contra hne
          exact hi (hheld i hne).bitmap
        rw [hf.skipped i hi]
        simp [Pte.zero, hphy]
    · have hphy : (s.proc p).phySharedPage i ≠ 0 := by
        rw [(h.entry hlive i).1] at hp
        exact of_decide_eq_true hp
      obtain ⟨h₁, h₂, h₃⟩ := hf.copied i (hheld i hphy).bitmap
      rw [h₁, (h.entry hlive i).2 hphy]
      exact ⟨rfl, h₂, h₃⟩
    · obtain ⟨hne, hex⟩ := (h.attachedTo_iff hlive t).mp ht
      rw [hf.used t hne, holds_eq_one hlive (fun i j => huniq t i j hne) hex]
      rfl
    · by_cases h0 : s.shTable.shmemAddr t = 0
      · exact hf.free hbits t h0
      · rw [hf.used t h0, h.holds_unattached hlive h0 ht]
        exact Int.add_zero _

/-- **What a child gets.** After any run of `shmget` and `shmrem`, a
successful `fork` has one child, and it shares exactly what its parent is
attached to if and only if the parent's bits and pages are in order. -/
theorem fork_shares_iff {s₀ s s' : Kernel} {es : List Event} {p : Fin nproc} {v : Int}
    (hboot : Boot s₀) (hrun : (kernel.guarded fun _ e => e.call.attaches = true).Run s₀ es s)
    (hs : kernel.step s ⟨p, .fork, .value v⟩ s') (hv : v ≠ -1) :
    ∃ c, (s.proc c).state = .unused ∧ (s'.proc c).state = .runnable ∧
      (∀ q, q ≠ c → s'.proc q = s.proc q) ∧ (SharesExactly s s' p c ↔ ForksWell s p) := by
  have h := Settled.run hboot hrun
  obtain ⟨hlive, hcall⟩ := hs
  obtain ⟨c, hf⟩ := h.forked hlive hcall hv
  exact ⟨c, hf.born.1, hf.born.2, hf.others, h.shares_iff hlive hf⟩

/-- `fork` by a process with one private page. -/
theorem Settled.fork_one (h : Settled s) (hlive : s.Live p)
    (hun : ∃ q, (s.proc q).state = .unused) (hsz : (s.proc p).sz = pgSize)
    (hpage : ((s.proc p).pgdir.page 0).p = true) (hlen : 1027 ≤ s.mem.freelist.length)
    (hcap : ∀ t, s.shTable.shmemCounter t +
      (List.finRange shmemPages).countP (fun i => (s.proc p).bitmap i = 1) ≤ 16) :
    ∃ s', fork p s = .ok (.value s.nextpid, s') := by
  refine fork_fits (n := 1) hlive hun h.records.sane.free ?_ ?_ (fun w hw => ?_) hlen hcap
  · rw [hsz]
    decide
  · rw [hsz, Nat.one_mul]
  · have hw0 : w = 0 := by
      simp only [hsz, pgSize] at hw
      omega
    rw [hw0]
    exact hpage

def attachCall (_ : Kernel) (_ : Fin nproc) (c : Call) : Bool := c.attaches

/-- Process 1 attaches one page. -/
def attachOne : List (Fin nproc × Call) := [(1, .shmget (bufOf [97]) 8)]

omit [Image] in
/-- The child of process 1 shares its page. -/
theorem fork_shares_attachOne :
    let s := @stateAfter sampleImage attachCall attachOne sampleTwo
    ∃ s' v c, v ≠ -1 ∧ (@kernel sampleImage).step s ⟨1, .fork, .value v⟩ s' ∧
      SharesExactly s s' 1 c := by
  let _ := sampleImage
  have hrun := run_calls (g := attachCall) (fun _ _ hc => hc) attachOne (s := sampleTwo) rfl
  obtain ⟨s', hfork⟩ := (Settled.run (sample_boot _) hrun).fork_one (p := 1) rfl ⟨0, rfl⟩ rfl rfl
    (by decide +kernel) (by decide)
  obtain ⟨c, -, -, -, hiff⟩ := fork_shares_iff (sample_boot _) hrun ⟨rfl, hfork⟩ (by decide)
  refine ⟨s', _, c, ?_, ⟨rfl, hfork⟩, hiff.mpr ⟨by decide, fun t i j ht hi hj => ?_⟩⟩
  · decide
  · -- only position 0 has a page
    have hone : ∀ k, ((stateAfter attachCall attachOne sampleTwo).proc 1).phySharedPage k ≠ 0 →
        k = 0 := by decide
    exact (hone i (by rw [hi]; exact ht)).trans (hone j (by rw [hj]; exact ht)).symm

/-- Process 1 attaches a page and detaches it again. -/
def attachDetach : List (Fin nproc × Call) :=
  [(1, .shmget (bufOf [97]) 8), (1, .shmrem (bufOf [97]) 8)]

omit [Image] in
/-- After an attachment that was given up, the bit of its position is still
set: the child maps physical address 0x80000000 there, where its parent maps
nothing, and the first free slot is counted. -/
theorem fork_shares_detached : ¬ ∀ (_ : Image) (s₀ s s' : Kernel) (es : List Event)
    (p : Fin nproc) (v : Int), Boot s₀ →
    (kernel.guarded fun _ e => e.call.attaches = true).Run s₀ es s →
    kernel.step s ⟨p, .fork, .value v⟩ s' → v ≠ -1 →
    ∃ c, (s.proc c).state = .unused ∧ (s'.proc c).state = .runnable ∧
      SharesExactly s s' p c := by
  intro h
  let _ := sampleImage
  have hrun := run_calls (g := attachCall) (fun _ _ hc => hc) attachDetach (s := sampleTwo) rfl
  have hset := Settled.run (sample_boot _) hrun
  obtain ⟨s', hfork⟩ := hset.fork_one (p := 1) rfl ⟨0, rfl⟩ rfl rfl (by decide +kernel)
    (by decide)
  obtain ⟨c, hun, hrunnable, hshares⟩ :=
    h sampleImage _ _ _ _ 1 _ (sample_boot _) hrun ⟨rfl, hfork⟩ (by decide)
  obtain ⟨c', hforked⟩ := hset.forked rfl hfork (by decide)
  have hc : c = c' := by
    by_contra hne
    rw [hforked.others c hne, hun] at hrunnable
    cases hrunnable
  subst hc
  exact ((hset.shares_iff rfl hforked).mp hshares).1 0 rfl rfl

end Xv6
