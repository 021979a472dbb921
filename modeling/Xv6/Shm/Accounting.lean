import Xv6.Shm.Exact
import Xv6.Shm.Inherit

/-!
# Who maps a shared page, and when its frame is freed

The counter of a slot against the page tables of the processes: in runs of
`shmget`, `fork`, `exit` and `wait` it is the number of live processes that
map the page of the slot in their window, and the frame of the page goes back
to the free list at the `exit` of the last of them, once.

`exec` is the call that breaks this: its commit frees the old address space
with the shared pages in it, and leaves the table and the records as they
are. In runs in which no process with a page in its window commits to `exec`
free frames are not mapped and not in the table, and the records say what is
mapped (`FramesAgree`).
-/

namespace Xv6

open Outcome Transition Kernel

/-! ## §1  Orderly runs -/

variable [Image]

/-- In this state the call comes back with -1. -/
def Event.Fails (s : Kernel) (e : Event) : Prop :=
  ∃ s', e.call.run e.who s = .ok (.value (-1), s')

/-- The calls of the runs considered here: no detaching by key, no `sbrk`; a
process that forks has no page counted 16, and one that calls `exec` has none
in its window, unless the call fails. -/
def Orderly (s : Kernel) (e : Event) : Prop :=
  match e.call with
  | .shmget _ _ | .exit | .wait => True
  | .fork => e.Fails s ∨ ∀ t, AttachedTo s e.who t → s.shTable.shmemCounter t < 16
  | .exec _ _ => e.Fails s ∨
      ∀ i : Fin shmemPages, ((s.proc e.who).pgdir.entry (windowAddr i)).p = false
  | .shmrem _ _ | .sbrk _ => False

/-- The same without `exec`. -/
def Plain (s : Kernel) (e : Event) : Prop :=
  match e.call with
  | .exec _ _ => False
  | _ => Orderly s e

variable {s s' : Kernel}

theorem Event.Fails.result {e : Event} (h : e.Fails s) (hs : kernel.step s e s') :
    e.result = .value (-1) := by
  obtain ⟨s₁, hrun⟩ := h
  exact (Prod.mk.inj (Except.ok.inj (hs.2.symm.trans hrun))).1

theorem Plain.orderly {e : Event} (h : Plain s e) : Orderly s e := by
  obtain ⟨who, call, result⟩ := e
  cases call with
  | exec ip argv => exact h.elim
  | _ => exact h

omit [Image] in
theorem entry_windowAddr (pg : PgDir) (i : Fin shmemPages) :
    pg.entry (windowAddr i) = pg.page (windowPage i) := by
  rw [PgDir.page, windowPage_mul i.isLt]

theorem Exact.settled (h : Exact s) : Settled s :=
  ⟨h.counted.linked.records, fun p hlive => (h.neat p hlive).visible, h.size⟩

/-- **A process without a page counted 16 is not stopped in `manage_fork`.** -/
theorem Exact.fork_returns {p : Fin nproc} {r : CallResult} (h : Exact s)
    (hlive : s.Live p) (hf : Xv6.fork p s = .ok (r, s'))
    (hroom : ∀ t, AttachedTo s p t → s.shTable.shmemCounter t < 16) : r ≠ .exited := by
  have hrec := h.counted.linked.records
  have hneat := h.neat p hlive
  rcases fork_ok hlive (hrec.sane.size p).le hrec.sane.free hf with
    ⟨rfl, -⟩ | ⟨np, k, m₁, d, m₂, hne, -, -, -, ⟨rfl, -⟩ | ⟨-, ⟨t, hfull⟩, -⟩⟩
  · nofun
  · nofun
  · -- no slot gets beyond 16 by the positions of `p`
    have hcap := h.counted.cap t
    rw [born_ne hne k d m₂] at hfull
    by_cases h0 : s.shTable.shmemAddr t = 0
    · rw [hits_eq_zero hneat.page h0] at hfull
      omega
    rw [hrec.hits_eq hlive (fun i => by rw [born_self]; rfl) h0] at hfull
    by_cases ht : AttachedTo s p t
    · have hex := ((h.settled.attachedTo_iff hlive t).mp ht).2
      rw [holds_eq_one hlive (fun i j hi hj => hneat.uniq i j (hi.trans hj.symm)
        (by rw [hi]; exact h0)) hex] at hfull
      have := hroom t ht
      omega
    · rw [h.settled.holds_unattached hlive h0 ht] at hfull
      omega

/-- A `fork` in these runs comes back. -/
theorem Exact.fork_orderly {p : Fin nproc} {r : CallResult} (h : Exact s)
    (hs : kernel.step s ⟨p, .fork, r⟩ s') (hord : Orderly s ⟨p, .fork, r⟩) : r ≠ .exited := by
  rcases hord with hfail | hroom
  · rw [show r = .value (-1) from hfail.result hs]
    nofun
  · exact h.fork_returns hs.1 hs.2 hroom

theorem Exact.step {e : Event} (h : Exact s) (hsent : SentinelKnown)
    (hs : (kernel.guarded Orderly).step s e s') : Exact s' := by
  obtain ⟨who, call, result⟩ := e
  obtain ⟨hord, hlive, hcall⟩ := hs
  cases call_does hcall with
  | getRefused => exact h
  | shmget hkey _ hg => exact h.shmget hlive hkey hg
  | fork hf => exact h.fork hsent hlive hf (h.fork_orderly ⟨hlive, hcall⟩ hord)
  | exec he =>
    refine h.exec hlive he fun hr i => ?_
    rcases hord with hfail | hempty
    · cases (hfail.result ⟨hlive, hcall⟩).symm.trans hr
    · rw [← entry_windowAddr]
      exact hempty i
  | exit he => exact h.exit hsent hlive he
  | wait hw => exact h.wait hw
  | remRefused | shmrem | sbrk => exact hord.elim

/-- **Run.** -/
theorem Exact.run {s₀ : Kernel} {es : List Event} (hsent : SentinelKnown) (hboot : Boot s₀)
    (hrun : (kernel.guarded Orderly).Run s₀ es s) : Exact s :=
  hrun.invariant (I := Exact) (fun _ _ _ h hs => h.step hsent hs) hboot.exact

/-! ## §2  Page tables instead of records -/

/-- The live processes that map the frame `f` somewhere in their window. -/
def Kernel.mappers (s : Kernel) (f : Nat) : Finset (Fin nproc) :=
  Finset.univ.filter fun p => (s.proc p).state.live = true ∧
    ∃ i : Fin shmemPages, ((s.proc p).pgdir.entry (windowAddr i)).Maps f

variable {f : Nat} {p : Fin nproc}

omit [Image] in
theorem mem_mappers :
    p ∈ s.mappers f ↔ (s.proc p).state.live = true ∧
      ∃ i : Fin shmemPages, ((s.proc p).pgdir.entry (windowAddr i)).Maps f := by
  simp [Kernel.mappers]

/-- A live process maps `f` at a position if and only if it has `f` recorded
there. -/
theorem Exact.maps_iff (h : Exact s) (hlive : s.Live p) (i : Fin shmemPages)
    (f : Nat) :
    ((s.proc p).pgdir.entry (windowAddr i)).Maps f ↔ (s.proc p).phySharedPage i = f ∧ f ≠ 0 := by
  obtain ⟨hpres, hentry⟩ := h.settled.entry hlive i
  have hback := p2v_v2p ((h.neat p hlive).visible.bound i)
  constructor
  · rintro ⟨hp, hpa⟩
    rw [hp] at hpres
    have hphy : (s.proc p).phySharedPage i ≠ 0 := of_decide_eq_true hpres.symm
    rw [hentry hphy] at hpa
    have heq := hback.symm.trans hpa
    exact ⟨heq, heq ▸ hphy⟩
  · rintro ⟨rfl, hne⟩
    rw [hentry hne]
    exact ⟨rfl, hback⟩

theorem Exact.mem_mappers_iff (h : Exact s) :
    p ∈ s.mappers f ↔
      (s.proc p).state.live = true ∧ f ≠ 0 ∧ ∃ i, (s.proc p).phySharedPage i = f := by
  rw [mem_mappers]
  refine and_congr_right fun hlive => ?_
  constructor
  · rintro ⟨i, hi⟩
    obtain ⟨h₁, h₂⟩ := (h.maps_iff hlive i f).mp hi
    exact ⟨h₂, i, h₁⟩
  · rintro ⟨h₂, i, h₁⟩
    exact ⟨i, (h.maps_iff hlive i f).mpr ⟨h₁, h₂⟩⟩

/-- A page is held once by each process that maps it. -/
theorem Exact.holders_eq (h : Exact s) (hf : f ≠ 0) :
    s.holders f = (s.mappers f).card := by
  rw [Kernel.mappers, Finset.card_filter]
  refine Finset.sum_congr rfl fun p _ => ?_
  have hiff := h.mem_mappers_iff (f := f) (p := p)
  rw [mem_mappers] at hiff
  by_cases hp : (s.proc p).state.live = true ∧ f ≠ 0 ∧ ∃ i, (s.proc p).phySharedPage i = f
  · rw [if_pos (hiff.mpr hp)]
    refine holds_eq_one hp.1 (fun i j hi hj => ?_) hp.2.2
    exact (h.neat p hp.1).uniq i j (hi.trans hj.symm) (by rw [hi]; exact hf)
  · rw [if_neg fun hm => hp (hiff.mp hm), Proc.holds]
    split
    · rename_i hlive
      exact Finset.sum_eq_zero fun i _ => if_neg fun hi => hp ⟨hlive, hf, i, hi⟩
    · rfl

theorem Exact.counter_eq (h : Exact s) (t : Fin shmemPages) :
    s.shTable.shmemCounter t = ((s.mappers (s.shTable.shmemAddr t)).card : Int) := by
  by_cases hkey : s.shTable.shmemKey t = zeroKey
  · -- nobody maps the address 0 that a free slot has
    have haddr := (h.counted.linked.records.sane.table.empty t).mp hkey
    have hnone : s.mappers (s.shTable.shmemAddr t) = ∅ := by
      refine Finset.eq_empty_of_forall_notMem fun p hp => ?_
      exact (h.mem_mappers_iff.mp hp).2.1 haddr
    rw [h.counted.free t hkey, hnone]
    rfl
  · rw [h.counted.exact t hkey, h.holders_eq ((h.counted.linked.used_iff t).mp hkey)]

/-! ## §3  `find_pos` -/

/-- The branches of `shmget` that call `find_pos`: the key has a slot but no
record, and the slot is below the limit; or the key has no slot and there is
a free one. -/
def CallsFindPos (p : Fin nproc) (key : Buf) (s : Kernel) : Prop :=
  match scanKeys s.shTable key (List.finRange shmemPages) none with
  | (some i, _) => findRec (s.proc p) key = none ∧ s.shTable.shmemCounter i < 16
  | (none, free) => free ≠ none

/-- A process without a free position has the page of every slot, under the
key of the slot. -/
theorem Exact.full_window (h : Exact s) (hlive : s.Live p)
    (hfull : findPos (s.proc p) = none) (t : Fin shmemPages) : ∃ i, (s.proc p).phySharedPage i ≠ 0 ∧
      s.shTable.shmemAddr t = (s.proc p).phySharedPage i ∧
      s.shTable.shmemKey t = (s.proc p).pKey i := by
  have hphy : ∀ i, (s.proc p).phySharedPage i ≠ 0 := fun i => by
    simpa using find_finRange_none hfull i
  choose slot hslot using fun i => h.counted.linked.slot p i hlive (hphy i)
  -- different positions have different pages, so they meet all the slots
  have hinj : Function.Injective slot := fun i j hij =>
    (h.neat p hlive).uniq i j ((hslot i).1.symm.trans (hij ▸ (hslot j).1)) (hphy i)
  obtain ⟨i, rfl⟩ := Finite.surjective_of_injective hinj t
  exact ⟨i, hphy i, hslot i⟩

theorem Exact.findPos_ne_none (h : Exact s) {key : Buf} (hlive : s.Live p)
    (hkey : IsKey key) (hc : CallsFindPos p key s) :
    findPos (s.proc p) ≠ none := by
  intro hfull
  have htable := h.counted.linked.records.sane.table
  unfold CallsFindPos at hc
  split at hc
  · rename_i t _ hscan
    have hfst := scanKeys_fst s.shTable hkey (List.finRange shmemPages) none
    rw [hscan] at hfst
    have ht : strncmp (s.shTable.shmemKey t).buf key 16 = 0 := by
      simpa using find_finRange_some hfst.symm
    obtain ⟨i, -, -, hi⟩ := h.full_window hlive hfull t
    rw [hi] at ht
    exact findRec_none hc.1 i ht
  · rename_i free hscan
    have hsnd : (scanKeys s.shTable key (List.finRange shmemPages) none).2 = _ :=
      scanKeys_snd s.shTable (by rw [hscan])
    obtain ⟨t, rfl⟩ := Option.ne_none_iff_exists'.mp hc
    rw [hscan, Option.none_or] at hsnd
    have hempty : s.shTable.shmemKey t 0 = 0 := by simpa using find_finRange_some hsnd.symm
    obtain ⟨i, hne, hi, -⟩ := h.full_window hlive hfull t
    exact hne (hi.symm.trans ((htable.empty t).mp ((htable.padded t).eq_zero_iff.mp hempty)))

/-! ## §4  When a page is freed -/

/-- A page that somebody maps is the page of a slot. -/
theorem Exact.slots_pos (h : Exact s) (hp : p ∈ s.mappers f) : 1 ≤ s.shTable.slots f := by
  obtain ⟨hlive, hne, i, hi⟩ := h.mem_mappers_iff.mp hp
  obtain ⟨t, ht, -⟩ := h.counted.linked.slot p i hlive (by rw [hi]; exact hne)
  exact Xv6.slots_pos (ht.trans hi)

/-- A page that is in a slot is mapped by somebody. -/
theorem Exact.slots_eq_zero (h : Exact s) (hf : f ≠ 0) (hnone : s.mappers f = ∅) :
    s.shTable.slots f = 0 := by
  refine Finset.sum_eq_zero fun t _ => if_neg fun ht => ?_
  have htable := h.counted.linked.records.sane.table
  have hkey : s.shTable.shmemKey t ≠ zeroKey := fun hz => hf (ht.symm.trans ((htable.empty t).mp hz))
  have h₁ := h.counter_eq t
  have h₂ := htable.pos t hkey
  rw [ht, hnone, Finset.card_empty] at h₁
  omega

/-- A `fork` that comes back leaves every process in use alone. -/
theorem fork_others {q : Fin nproc} {r : CallResult} (h : Sane s)
    (hlive : s.Live p) (hf : fork p s = .ok (r, s')) (hr : r ≠ .exited)
    (huse : (s.proc q).state ≠ .unused) : s'.proc q = s.proc q := by
  rcases fork_ok hlive (h.size p).le h.free hf with
    ⟨-, hq⟩ | ⟨np, k, m₁, d, m₂, -, hun, -, -, ⟨-, s₂, hinh, -, rfl⟩ | ⟨hexit, -⟩⟩
  · rcases hq.proc q with heq | ⟨hun, -⟩
    · exact heq
    · exact absurd hun huse
  · have hne : q ≠ np := fun heq => huse (heq ▸ hun)
    rw [setProc_ne hne, hinh.others q hne, born_ne hne]
  · exact absurd hexit hr

/-- Who maps a page goes on mapping it, until its own `exit`. -/
theorem Exact.mappers_kept {e : Event} (h : Exact s) (h' : Exact s')
    (hs : (kernel.guarded Plain).step s e s') {q : Fin nproc} (hq : q ∈ s.mappers f)
    (hexit : e.call = .exit → q ≠ e.who) : q ∈ s'.mappers f := by
  obtain ⟨hlive, hf, i, hi⟩ := h.mem_mappers_iff.mp hq
  have hsane := h.counted.linked.records.sane
  refine h'.mem_mappers_iff.mpr ?_
  -- in all the cases the record of `q` stays
  suffices hkeep : (s'.proc q).state = (s.proc q).state ∧
      (s'.proc q).phySharedPage i = (s.proc q).phySharedPage i by
    exact ⟨by rw [hkeep.1]; exact hlive, hf, i, hkeep.2.trans hi⟩
  obtain ⟨who, call, result⟩ := e
  obtain ⟨hord, hwho, hcall⟩ := hs
  cases call_does (p := who) hcall with
  | getRefused => exact ⟨rfl, rfl⟩
  | @shmget key _ _ _ hkey _ hg =>
    -- a page is placed where there was none
    have hplace : ∀ {m tab pos g pg}, findPos (s.proc who) = some pos →
        ((({ s with mem := m, shTable := tab }.setProc who
          ((s.proc who).attach pos g key pg)).proc q).state = (s.proc q).state ∧
        (({ s with mem := m, shTable := tab }.setProc who
          ((s.proc who).attach pos g key pg)).proc q).phySharedPage i =
            (s.proc q).phySharedPage i) := by
      intro m tab pos g pg hpos
      by_cases hqw : q = who
      · subst hqw
        have hip : i ≠ pos := by
          rintro rfl
          exact hf (hi.symm.trans (findPos_some hpos))
        simp [Proc.attach, hip]
      · rw [setProc_ne hqw]
        exact ⟨rfl, rfl⟩
    cases shmget_ok hkey hg with
    | again => exact ⟨rfl, rfl⟩
    | placed _ _ _ _ _ _ _ hpos | fresh _ _ _ _ _ _ _ _ _ hpos => exact hplace hpos
  | fork hfork =>
    rw [fork_others hsane hwho hfork (h.fork_orderly ⟨hwho, hcall⟩ hord) (live_ne_unused hlive)]
    exact ⟨rfl, rfl⟩
  | exit he =>
    obtain ⟨par, heq⟩ := (exit_frame hsane.table he).1 q (hexit rfl)
    rw [heq]
    exact ⟨rfl, rfl⟩
  | wait hw =>
    rcases wait_ok hw with rfl | ⟨c, m, -, hzombie, -, -, rfl⟩
    · exact ⟨rfl, rfl⟩
    · have hqc : q ≠ c := by
        rintro rfl
        rw [hzombie] at hlive
        simp [ProcState.live] at hlive
      rw [setProc_ne hqc]
      exact ⟨rfl, rfl⟩
  | remRefused | shmrem | exec | sbrk => exact hord.elim

/-- `exit` moves pages from slots to the free list. -/
theorem exit_conserves (hsent : SentinelKnown) (he : exit p s = .ok s') (hf : f ≠ 0) :
    s'.mem.freelist.count f + s'.shTable.slots f =
      s.mem.freelist.count f + s.shTable.slots f := by
  obtain ⟨-, r, s₁, hrem, rfl⟩ := exit_ok he
  obtain ⟨-, ⟨-, -, s₂, hall, rfl⟩ | ⟨hno, -⟩ | ⟨hno, -⟩⟩ := shmrem_ok hrem
  · have h₂ := detachAll_inv (I := fun s₁ => s₁.mem.freelist.count f + s₁.shTable.slots f =
      s.mem.freelist.count f + s.shTable.slots f) (fun i y s₁ s₂ h₁ _ hd => by
        rcases detachAt_ok hd with ⟨rfl, -⟩ | ⟨pg, tab, m, -, hgive, -, rfl⟩
        · exact h₁
        · exact (hgive.conserves hf).trans h₁) (s := s.withLock true) rfl hall
    exact h₂
  · exact absurd hsent hno
  · exact absurd hsent hno

/-- **The page of a slot is freed by the `exit` of the last process that maps
it**, and by nothing else. -/
theorem Exact.freed_iff {e : Event} (h : Exact s) (hsent : SentinelKnown)
    (hs : (kernel.guarded Plain).step s e s') {t : Fin shmemPages}
    (ht : s.shTable.shmemKey t ≠ zeroKey) :
    s.shTable.shmemAddr t ∈ s'.mem.freelist ↔
      e.call = .exit ∧ s.mappers (s.shTable.shmemAddr t) = {e.who} := by
  have h' := h.step hsent ⟨hs.1.orderly, hs.2⟩
  have hf := (h.counted.linked.used_iff t).mp ht
  constructor
  · intro hmem
    have hgone : ∀ q, q ∉ s'.mappers (s.shTable.shmemAddr t) := by
      intro q hq
      have h₁ := h'.slots_pos hq
      have h₂ := h'.counted.once _ hf
      have h₃ := List.count_pos_iff.mpr hmem
      rw [tally_eq] at h₂
      omega
    -- so everybody who mapped the page has just left
    have hwho : ∀ q ∈ s.mappers (s.shTable.shmemAddr t), e.call = .exit ∧ q = e.who := by
      intro q hq
      by_contra hno
      exact hgone q (h.mappers_kept h' hs hq fun hc heq => hno ⟨hc, heq⟩)
    have hsome : (s.mappers (s.shTable.shmemAddr t)).Nonempty := by
      have h₁ := h.counter_eq t
      have h₂ := h.counted.linked.records.sane.table.pos t ht
      rw [← Finset.card_pos]
      omega
    obtain ⟨q, hq⟩ := hsome
    exact ⟨(hwho q hq).1,
      Finset.eq_singleton_iff_nonempty_unique_mem.mpr ⟨⟨q, hq⟩, fun q' hq' => (hwho q' hq').2⟩⟩
  · rintro ⟨hcall, hlast⟩
    obtain ⟨who, call, result⟩ := e
    obtain ⟨-, hlive, hrun⟩ := hs
    subst hcall
    obtain ⟨s₁, hexit, hret⟩ := bind_ok hrun
    cases hret
    obtain ⟨hothers, hzombie⟩ := exit_frame h.counted.linked.records.sane.table hexit
    have hnone : s'.mappers (s.shTable.shmemAddr t) = ∅ := by
      refine Finset.eq_empty_of_forall_notMem fun q hq => ?_
      obtain ⟨hq', -⟩ := mem_mappers.mp hq
      by_cases hqw : q = who
      · rw [hqw, hzombie] at hq'
        simp [ProcState.live] at hq'
      · obtain ⟨par, heq⟩ := hothers q hqw
        have hold : q ∈ s.mappers (s.shTable.shmemAddr t) := by
          rw [mem_mappers, heq] at hq
          exact mem_mappers.mpr hq
        rw [hlast] at hold
        exact hqw (Finset.mem_singleton.mp hold)
    have h₁ := h'.slots_eq_zero hf hnone
    have h₂ := exit_conserves hsent hexit hf
    have h₃ := Xv6.slots_pos (t := s.shTable) (i := t) rfl
    exact List.count_pos_iff.mp (by omega)

/-- **Counters and page tables.** In every state reached by `shmget`, `fork`,
`exit` and `wait`: each counter is the number of live processes that map the
page of its slot, none of them twice, and is between 1 and 16 exactly for the
slots in use; `shmget` never calls `find_pos` in vain; every frame is used at
most once by the free list, the processes and the slots together; a process
that is gone has an empty window, so `wait` cannot free a shared page; and a
step puts the page of a slot on the free list exactly if it is the `exit` of
the last process that maps it. -/
theorem counters_count_mappers {s₀ s : Kernel} {es : List Event} (hsent : SentinelKnown)
    (hboot : Boot s₀) (hrun : (kernel.guarded Plain).Run s₀ es s) :
    (∀ t, s.shTable.shmemCounter t = ((s.mappers (s.shTable.shmemAddr t)).card : Int) ∧
      (s.shTable.shmemKey t ≠ zeroKey ↔
        1 ≤ s.shTable.shmemCounter t ∧ s.shTable.shmemCounter t ≤ 16) ∧
      (s.shTable.shmemKey t = zeroKey → s.shTable.shmemCounter t = 0)) ∧
    (∀ (t : Fin shmemPages) (p : Fin nproc), (s.proc p).state.live = true →
      ∀ i j : Fin shmemPages,
      ((s.proc p).pgdir.entry (windowAddr i)).Maps (s.shTable.shmemAddr t) →
      ((s.proc p).pgdir.entry (windowAddr j)).Maps (s.shTable.shmemAddr t) → i = j) ∧
    (∀ (p : Fin nproc) (key : Buf), (s.proc p).state.live = true → IsKey key →
      CallsFindPos p key s → findPos (s.proc p) ≠ none) ∧
    (∀ f, f ≠ 0 → s.tally f ≤ 1) ∧
    (∀ p, (s.proc p).state = .zombie →
      ∀ i : Fin shmemPages, ((s.proc p).pgdir.entry (windowAddr i)).p = false) ∧
    (∀ e s', (kernel.guarded Plain).step s e s' → ∀ t, s.shTable.shmemKey t ≠ zeroKey →
      s.shTable.shmemAddr t ∉ s.mem.freelist ∧
      s'.mem.freelist.count (s.shTable.shmemAddr t) ≤ 1 ∧
      (s.shTable.shmemAddr t ∈ s'.mem.freelist ↔
        e.call = .exit ∧ s.mappers (s.shTable.shmemAddr t) = {e.who})) := by
  have h := Exact.run hsent hboot (hrun.mono_guard fun _ _ hp => hp.orderly)
  have htable := h.counted.linked.records.sane.table
  refine ⟨fun t => ⟨h.counter_eq t, ⟨fun hk => ⟨htable.pos t hk, h.counted.cap t⟩, fun hc hz => ?_⟩,
    h.counted.free t⟩, fun t p hlive i j hi hj => ?_,
    fun p key hlive hkey => h.findPos_ne_none hlive hkey, h.counted.once, fun p hz i => ?_,
    fun e s' hs t ht => ⟨fun hmem => ?_, ?_, h.freed_iff hsent hs ht⟩⟩
  · have := h.counted.free t hz
    omega
  · obtain ⟨hi, hne⟩ := (h.maps_iff hlive i _).mp hi
    obtain ⟨hj, -⟩ := (h.maps_iff hlive j _).mp hj
    exact (h.neat p hlive).uniq i j (hi.trans hj.symm) (by rw [hi]; exact hne)
  · rw [entry_windowAddr]
    exact h.dead p (by rw [hz]; decide) (by rw [hz]; rfl) i
  · have h₁ := Xv6.slots_pos (t := s.shTable) (i := t) rfl
    have h₂ := h.counted.once _ ((h.counted.linked.used_iff t).mp ht)
    have h₃ := List.count_pos_iff.mpr hmem
    rw [tally_eq] at h₂
    omega
  · have h' := h.step hsent ⟨hs.1.orderly, hs.2⟩
    have := h'.counted.once _ ((h.counted.linked.used_iff t).mp ht)
    rw [tally_eq] at this
    omega

/-- A check of a call that makes it plain. -/
def plainCall (_ : Kernel) (_ : Fin nproc) : Call → Bool
  | .shmget _ _ | .exit | .wait => true
  | _ => false

theorem plain_of_plainCall (s : Kernel) (e : Event) (h : plainCall s e.who e.call = true) :
    Plain s e := by
  obtain ⟨who, call, result⟩ := e
  cases call <;> trivial

omit [Image] in
/-- After two processes attached a page, its counter is 2. -/
theorem counters_count_mappers_twoAttach :
    ((@stateAfter sampleImage plainCall twoAttach sampleTwo).mappers
      ((@stateAfter sampleImage plainCall twoAttach sampleTwo).shTable.shmemAddr 0)).card = 2 := by
  let _ := sampleImage
  have hcount := ((counters_count_mappers sentinelKnown_sample (sample_boot _)
    (run_calls plain_of_plainCall twoAttach (s := sampleTwo) rfl)).1 0).1
  have htwo : (stateAfter plainCall twoAttach sampleTwo).shTable.shmemCounter 0 = 2 := rfl
  rw [htwo] at hcount
  exact Int.natCast_inj.mp hcount.symm

/-! ## §5  Free frames, and `exec` -/

/-- The frame of a slot in use is not free, no process maps a free frame in
its user half, and for each position of a live process: the bit, the page and
the address are recorded if and only if the page table maps that page there,
writable and for the user. -/
structure FramesAgree (s : Kernel) : Prop where
  slot : ∀ t, s.shTable.shmemKey t ≠ zeroKey → s.shTable.shmemAddr t ∉ s.mem.freelist
  mapped : ∀ p, (s.proc p).state ≠ .unused → ∀ w < 2 ^ 19, ∀ f,
    ((s.proc p).pgdir.page w).Maps f → f ∉ s.mem.freelist
  present : ∀ p, (s.proc p).state.live = true → ∀ i : Fin shmemPages,
    ((s.proc p).pgdir.entry (windowAddr i)).p = true →
      (s.proc p).bitmap i = 1 ∧ (s.proc p).phySharedPage i ≠ 0 ∧
      (s.proc p).vmSharedPage i = windowAddr i ∧
      (s.proc p).pgdir.entry (windowAddr i) = .map (v2p ((s.proc p).phySharedPage i)) permWU
  absent : ∀ p, (s.proc p).state.live = true → ∀ i : Fin shmemPages,
    ((s.proc p).pgdir.entry (windowAddr i)).p = false →
      (s.proc p).bitmap i ≠ 1 ∧ (s.proc p).phySharedPage i = 0 ∧ (s.proc p).vmSharedPage i = 0

/-- A frame that is accounted for elsewhere is not free. -/
theorem Exact.not_free (h : Exact s) (hf : 0 < s.owned f + s.shTable.slots f) :
    f ∉ s.mem.freelist := by
  intro hmem
  have h₁ := h.counted.once f (h.counted.linked.records.sane.free f hmem).ne_zero
  have h₂ := List.count_pos_iff.mpr hmem
  rw [tally_eq] at h₁
  omega

/-- **Free frames are out of use.** -/
theorem Exact.framesAgree (h : Exact s) : FramesAgree s where
  slot t ht := by
    refine h.not_free ?_
    have := Xv6.slots_pos (t := s.shTable) (i := t) rfl
    omega
  mapped p huse w hw f hmaps := by
    by_cases hlow : w < windowStart
    · -- a page below the window is private
      refine h.not_free ?_
      have h₁ := Tally.le_sum (f := fun w => ((s.proc p).pgdir.page w).uses f)
        (Finset.mem_Ico.mpr ⟨Nat.zero_le w, hlow⟩)
      have h₂ := uses_pos.mpr hmaps
      have h₃ := own_of_used huse f
      have h₄ := Tally.le_sum (f := fun q => (s.proc q).own f) (Finset.mem_univ p)
      rw [PgDir.pages] at h₃
      rw [Kernel.owned]
      omega
    · have hi : 2 ^ 19 - (w + 1) < shmemPages := by
        simp only [windowStart, shmemPages] at hlow ⊢
        omega
      have hwin : windowPage (2 ^ 19 - (w + 1)) = w := by
        simp only [windowPage]
        omega
      have hentry := entry_windowAddr (s.proc p).pgdir ⟨_, hi⟩
      simp only [hwin] at hentry
      by_cases hlive : (s.proc p).state.live = true
      · rw [← hentry] at hmaps
        have := h.slots_pos (mem_mappers.mpr ⟨hlive, ⟨_, hi⟩, hmaps⟩)
        exact h.not_free (by omega)
      · have hdead := h.dead p huse (by simpa using hlive) ⟨_, hi⟩
        simp only [hwin] at hdead
        have hpres := hmaps.1
        rw [hdead] at hpres
        cases hpres
  present p hlive i hp := by
    obtain ⟨hpres, hentry⟩ := h.settled.entry hlive i
    rw [hp] at hpres
    have hphy : (s.proc p).phySharedPage i ≠ 0 := of_decide_eq_true hpres.symm
    have hheld := (h.counted.linked.records.ok p hlive).held i hphy
    exact ⟨hheld.bitmap, hphy, hheld.vm, hentry hphy⟩
  absent p hlive i hp := by
    have hpres := (h.settled.entry hlive i).1
    rw [hp] at hpres
    have hphy : (s.proc p).phySharedPage i = 0 := by simpa using hpres.symm
    have hbit : (s.proc p).bitmap i ≠ 1 := fun hb => (h.neat p hlive).page i hb hphy
    exact ⟨hbit, hphy, ((h.neat p hlive).blank i hbit).1⟩

theorem framesAgree_of_orderly {s₀ s : Kernel} {es : List Event} (hsent : SentinelKnown)
    (hboot : Boot s₀) (hrun : (kernel.guarded Orderly).Run s₀ es s) : FramesAgree s :=
  (Exact.run hsent hboot hrun).framesAgree

omit [Image] in
theorem framesAgree_of_orderly_twoAttach :
    @FramesAgree (@stateAfter sampleImage plainCall twoAttach sampleTwo) :=
  let _ := sampleImage
  framesAgree_of_orderly sentinelKnown_sample (sample_boot _)
    (run_calls (fun s e hc => (plain_of_plainCall s e hc).orderly) twoAttach (s := sampleTwo) rfl)

/-- When `exec` commits, all frames that the user half of its caller maps are
on the free list. -/
theorem exec_frees {ip : Option Inode} {argv : List (List UInt8)} (hm : FreelistOK s.mem)
    (he : exec p ip argv s = .ok (.value 0, s')) {w : Nat} (hw : w < 2 ^ 19)
    (hmaps : ((s.proc p).pgdir.page w).Maps f) :
    s'.shTable = s.shTable ∧ f ∈ s'.mem.freelist := by
  rcases exec_ok hm he with ⟨hr, -⟩ | ⟨-, pg, sz, sp, m, -, -, hfree, hbal, rfl⟩
  · cases hr
  · have h₁ := Tally.le_sum (f := fun w => ((s.proc p).pgdir.page w).uses f)
      (Finset.mem_Ico.mpr ⟨Nat.zero_le w, hw⟩)
    have h₂ := uses_pos.mpr hmaps
    have h₃ : (s.proc p).pgdir.pages 0 (2 ^ 19) f ≤ (s.proc p).pgdir.own f := Nat.le_add_left ..
    have h₄ := hfree f
    have h₅ := hbal f
    rw [PgDir.pages] at h₃
    exact ⟨rfl, List.count_pos_iff.mp (by rw [setProc_mem]; simp only; omega)⟩

/-- The calls of these runs, whoever makes them. -/
def Call.keepsPages : Call → Bool
  | .shmget _ _ | .fork | .exec _ _ | .exit | .wait => true
  | _ => false

def keepsCall (_ : Kernel) (_ : Fin nproc) (c : Call) : Bool := c.keepsPages

/-- `shmget` of a new key leaves the caller with frames. -/
theorem OwnsFrames.shmget {key : Buf} {r : CallResult} (h : OwnsFrames (s.proc p).pgdir)
    (hsane : Sane s) (hkey : IsKey key) (hno : ∀ t, s.shTable.shmemKey t = zeroKey)
    (hg : shmget p key s = .ok (r, s')) :
    OwnsFrames (s'.proc p).pgdir := by
  have hmatch : ∀ t, strncmp (s.shTable.shmemKey t).buf key 16 ≠ 0 := fun t =>
    strncmp_empty_ne (by rw [hno t]; rfl) hkey
  rcases shmget_ok hkey hg with ⟨t, y, ht⟩ | ⟨t, pos, pg, m, ht⟩ |
    ⟨t, pos, f, pg, m₁, m, -, -, hl, -, hmap⟩
  · exact absurd ht (hmatch t)
  · exact absurd ht (hmatch t)
  · have hm₁ : FreelistOK m₁ := fun g hg => hsane.free g (by rw [hl]; exact List.mem_cons_of_mem _ hg)
    rw [setProc_self]
    exact h.mapped hm₁ hmap (hsane.free f (by simp [hl]))

omit [Image] in
/-- Process 1 attaches a page, then commits to `exec`: its old address space
is freed with the shared page in it, and the table still has the page. -/
theorem framesAgree_exec : ¬ ∀ (_ : Image) (s₀ s : Kernel) (es : List Event), SentinelKnown →
    Boot s₀ → (kernel.guarded fun _ e => e.call.keepsPages = true).Run s₀ es s →
    FramesAgree s := by
  intro h
  let _ := sampleImage
  have hrun := run_calls (g := keepsCall) (fun _ _ hc => hc) attachOne (s := sampleTwo) rfl
  have hget : shmget 1 (bufOf [97]) sampleTwo =
    .ok (.value 0x7ffff000, stateAfter keepsCall attachOne sampleTwo) := rfl
  have hboot := sample_boot fun p => p = 1 || p = 2
  have hkey : IsKey (bufOf [97]) := isKey_of_keyLengthOk (show keyLengthOk _ 8 = true from rfl)
  have hfree := (hboot.sane.shmget hkey hget).free
  have hown : OwnsFrames ((stateAfter keepsCall attachOne sampleTwo).proc 1).pgdir :=
    (sample_ownsFrames 1).shmget hboot.sane hkey (fun _ => rfl) hget
  obtain ⟨s', hexec⟩ := exec_empty (p := 1) hfree
    (show readi emptyProgram 0 52 = some 52 from rfl) rfl rfl (by decide +kernel) hown
  obtain ⟨htable, hmem⟩ := exec_frees hfree hexec (w := windowPage 0)
    (f := (stateAfter keepsCall attachOne sampleTwo).shTable.shmemAddr 0) (by decide) (by decide)
  have hstep : (kernel.guarded fun _ e => e.call.keepsPages = true).step
      (stateAfter keepsCall attachOne sampleTwo)
      ⟨1, .exec (some emptyProgram) [], .value 0⟩ s' := ⟨rfl, rfl, hexec⟩
  refine (h _ _ s' _ sentinelKnown_sample hboot (hrun.snoc hstep)).slot 0 ?_ ?_
  · rw [htable]
    decide
  · rw [htable]
    exact hmem

end Xv6
