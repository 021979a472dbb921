import Xv6.Shm.Linked

/-!
# What `shmget` returns and what `shmrem` may touch

`shmget` and `shmrem` decide from the recorded keys whether the caller has a
page. A key record outlives its page: the last holder that detaches keeps it,
and copying a shorter key over a longer one leaves the rest of the old one.
As long as no call goes through such a record (`Careful`), an address
returned by `shmget` is the caller's place of the page of that key, and
`shmrem` touches only what its caller is attached to. A run of three calls
that is not careful breaks each of the two.
-/

namespace Xv6

open Outcome Transition Kernel

variable [Image]

/-! ## §1  Careful calls -/

/-- The calls of the runs considered here. -/
def Call.sharesPages : Call → Bool
  | .shmget _ _ | .shmrem _ _ | .fork | .exit => true
  | _ => false

/-- If some slot has the key and a record of the process compares equal to
it, the record still has its page. -/
def NotStale (s : Kernel) (p : Fin nproc) (key : Buf) : Prop :=
  ∀ t y, strncmp (s.shTable.shmemKey t).buf key 16 = 0 → findRec (s.proc p) key = some y →
    (s.proc p).phySharedPage y ≠ 0

/-- If `shmget` places a page, no byte of an older, longer key stays behind
the copied one. -/
def CleanRecord (s : Kernel) (p : Fin nproc) (key : Buf) : Prop :=
  ∀ pos, findPos (s.proc p) = some pos →
    (findRec (s.proc p) key = none ∨ ∀ t, strncmp (s.shTable.shmemKey t).buf key 16 ≠ 0) →
    memmove ((s.proc p).pKey pos) key (strlen key) = keyOf key

/-- A call that does not go through a stale record, and whose key is not the
sentinel of `exit`. -/
def Careful (s : Kernel) (e : Event) : Prop :=
  match e.call with
  | .shmget key lim => keyLengthOk key lim = true →
      NotStale s e.who key ∧ CleanRecord s e.who key
  | .shmrem key lim => keyLengthOk key lim = true →
      memcmp key Image.shmremLit 16 ≠ 0 ∧ NotStale s e.who key
  | .fork | .exit => True
  | _ => False

/-- No record without a page has a key. -/
def Proc.Tidy (q : Proc) : Prop := ∀ y, q.phySharedPage y = 0 → q.pKey y = zeroKey

instance (q : Proc) : Decidable q.Tidy := by
  unfold Proc.Tidy; infer_instance

variable {s s' s₀ : Kernel} {p : Fin nproc}

omit [Image] in
/-- A process with tidy records passes any key with care. -/
theorem Proc.Tidy.careful {key : Buf} (h : (s.proc p).Tidy) (hkey : IsKey key) :
    NotStale s p key ∧ CleanRecord s p key := by
  constructor
  · intro t y _ hy hphy
    refine strncmp_empty_ne ?_ hkey (findRec_some hy)
    rw [h y hphy]
    rfl
  · intro pos hpos _
    rw [h pos (findPos_some hpos), keyOf]

/-- A check of a call that implies care. -/
def tidyCall (s : Kernel) (p : Fin nproc) : Call → Bool
  | .shmget _ _ => decide (s.proc p).Tidy
  | .shmrem key _ => decide (s.proc p).Tidy && decide (memcmp key Image.shmremLit 16 ≠ 0)
  | .fork | .exit => true
  | _ => false

theorem careful_of_tidyCall (s : Kernel) (e : Event)
    (h : tidyCall s e.who e.call = true) : Careful s e := by
  obtain ⟨who, call, result⟩ := e
  cases call with
  | shmget key lim =>
    exact fun hlen => (of_decide_eq_true h : (s.proc who).Tidy).careful (isKey_of_keyLengthOk hlen)
  | shmrem key lim =>
    simp only [tidyCall, Bool.and_eq_true, decide_eq_true_eq] at h
    exact fun hlen => ⟨h.2, (h.1.careful (isKey_of_keyLengthOk hlen)).1⟩
  | fork => trivial
  | exit => trivial
  | exec ip argv => cases h
  | sbrk n => cases h
  | wait => cases h

variable {e : Event}

/-- **Step.** -/
theorem Linked.step (h : Linked s) (hsent : SentinelKnown)
    (hs : (kernel.guarded Careful).step s e s') : Linked s' := by
  obtain ⟨who, call, result⟩ := e
  obtain ⟨hcare, hlive, hcall⟩ := hs
  cases call_does hcall with
  | getRefused | remRefused => exact h
  | shmget hkey hlen hg => exact h.shmget hlive hkey (hcare hlen).2 hg
  | shmrem hkey hlen hr => exact h.shmrem_key hlive hkey (hcare hlen).1 (hcare hlen).2 hr
  | fork hf => exact h.fork hsent hlive hf
  | exit he => exact h.exit hsent hlive he
  | exec | sbrk | wait => exact hcare.elim

variable {es : List Event}

/-- **Run.** -/
theorem Linked.run (hsent : SentinelKnown) (hrun : (kernel.guarded Careful).Run s₀ es s)
    (h : Linked s₀) : Linked s :=
  hrun.invariant (fun _ _ _ hs hstep => hs.step hsent hstep) h

/-! ## §2  What `shmget` returns -/

/-- The entry `e` maps the page `f`, writable and for the user. -/
def Pte.MapsUser (e : Pte) (f : Nat) : Prop :=
  e.p = true ∧ e.w = true ∧ e.u = true ∧ p2v e.pa = f

/-- `a` is an address of the window where `p` sees the page of the one slot
with the key `k`. -/
def SeesKey (s : Kernel) (p : Fin nproc) (k : Key) (a : Int) : Prop :=
  ∃ i : Fin shmemPages, a = windowAddr i ∧ ∃ t, s.shTable.shmemKey t = k ∧
    (∀ t', s.shTable.shmemKey t' = k → t' = t) ∧
    ((s.proc p).pgdir.entry (windowAddr i)).MapsUser (s.shTable.shmemAddr t)

/-- A record with its page shows that page at its place. -/
theorem Linked.seesKey (h : Linked s) {y : Fin shmemPages} (hlive : s.Live p)
    (hphy : (s.proc p).phySharedPage y ≠ 0) :
    SeesKey s p ((s.proc p).pKey y) (windowAddr y) := by
  obtain ⟨t, ht, htk⟩ := h.slot p y hlive hphy
  have htable := h.records.sane.table
  have hused : s.shTable.shmemKey t ≠ zeroKey := (h.used_iff t).mpr (by rw [ht]; exact hphy)
  refine ⟨y, rfl, t, htk, fun t' ht' => ?_, ?_⟩
  · exact htable.distinct t' t (ht'.trans htk.symm) (by rw [ht', ← htk]; exact hused)
  · have hpage := ((h.records.ok p hlive).held y hphy).page
    rw [PgDir.page, windowPage_mul y.isLt, ← ht] at hpage
    rw [hpage]
    exact ⟨rfl, rfl, rfl, p2v_v2p (htable.bound t)⟩

/-- After a careful `shmget`, the caller has a record with its page at the
address returned. -/
theorem shmget_record {key : Buf} {r : CallResult} (h : Linked s)
    (hlive : s.Live p) (hkey : IsKey key) (hns : NotStale s p key)
    (hcr : CleanRecord s p key) (hg : shmget p key s = .ok (r, s')) :
    ∃ y : Fin shmemPages, r = .value (windowAddr y) ∧ s'.Live p ∧
      (s'.proc p).phySharedPage y ≠ 0 ∧ (s'.proc p).pKey y = keyOf key := by
  rcases shmget_ok hkey hg with ⟨t, y, ht, hy⟩ | ⟨t, pos, pg, m, ht, hy, -, hpos⟩ |
    ⟨t, pos, f, pg, m₁, m, hno, -, hl, hpos⟩
  · have hphy := hns t y ht hy
    have hvm := ((h.records.ok p hlive).held y hphy).vm
    obtain ⟨-, hrec⟩ := h.record_slot hlive hkey ht (findRec_some hy) hphy
    exact ⟨y, by rw [hvm], hlive, hphy, hrec⟩
  · have hused : s.shTable.shmemAddr t ≠ 0 := by
      rw [← h.used_iff, (h.records.sane.table.match_pos hkey ht).1]
      exact fun hz => keyOf_zero_ne hkey ((keyOf_padded hkey).eq_zero_iff.mpr hz)
    refine ⟨pos, rfl, by simpa [Live, Proc.attach] using hlive,
      by simpa [Proc.attach] using hused, ?_⟩
    simpa [Proc.attach] using hcr pos hpos (.inl hy)
  · have hf : IsFrame f := h.records.sane.free f (by simp [hl])
    refine ⟨pos, rfl, by simpa [Live, Proc.attach] using hlive,
      by simpa [Proc.attach] using hf.ne_zero, ?_⟩
    simpa [Proc.attach] using hcr pos hpos (.inr hno)

/-! ## §3  What a call leaves alone -/

theorem detachAll_frame (h : detachAll p s = .ok s') :
    (∀ q, q ≠ p → s'.proc q = s.proc q) ∧ (s'.proc p).state = (s.proc p).state :=
  ⟨fun _ hq => detachAll_others h hq, detachAll_field (f := Proc.state) (fun _ _ _ => rfl) h⟩

theorem shmrem_frame {key : Buf} {r : Int} (htable : TableOK s.shTable) (hkey : IsKey key)
    (h : shmrem p key s = .ok (r, s')) :
    (∀ q, q ≠ p → s'.proc q = s.proc q) ∧ (s'.proc p).state = (s.proc p).state := by
  obtain
    ⟨-, ⟨-, -, s₁, hall, rfl⟩ | ⟨-, -, -, rfl⟩ | ⟨-, i, y, s₁, hfind, hdet, rfl⟩⟩ := shmrem_ok h
  · simpa using detachAll_frame hall
  · exact ⟨fun _ _ => rfl, rfl⟩
  · have hpos := (htable.match_pos hkey (findDetach_some hfind).1).2
    obtain ⟨pg, t, m, k, -, -, -, rfl⟩ := detachKey_ok (s := s.withLock true) hpos hdet
    exact ⟨fun q hq => by simp [setProc_ne hq], by simp⟩

/-- `exit` leaves the other processes alone, but for who their parent is. -/
theorem exit_frame (htable : TableOK s.shTable) (h : exit p s = .ok s') :
    (∀ q, q ≠ p → ∃ par, s'.proc q = { s.proc q with parent := par }) ∧
      (s'.proc p).state = .zombie := by
  obtain ⟨-, r, s₁, hrem, rfl⟩ := exit_ok h
  obtain ⟨hothers, -⟩ := shmrem_frame htable exitLit_isKey hrem
  constructor
  · intro q hq
    obtain ⟨par, heq⟩ := becomeZombie_proc p q s₁
    rw [if_neg hq, hothers q hq] at heq
    exact ⟨par, heq⟩
  · obtain ⟨par, heq⟩ := becomeZombie_proc p p s₁
    rw [heq, if_pos rfl]

/-- `fork` leaves every process in use alone, unless the caller had to
exit. -/
theorem fork_frame {r : CallResult} (h : Sane s) (hlive : s.Live p)
    (hf : fork p s = .ok (r, s')) :
    (∀ q, q ≠ p → (s.proc q).state ≠ .unused →
      ∃ par, s'.proc q = { s.proc q with parent := par }) ∧
      (s'.proc p = s.proc p ∨ (s'.proc p).state = .zombie) := by
  rcases fork_ok hlive (h.size p).le h.free hf with
    ⟨-, hq⟩ | ⟨np, k, m₁, d, m₂, hne, hun, -, -, hend⟩
  · have hsame : ∀ q, (s.proc q).state ≠ .unused → s'.proc q = s.proc q := by
      intro q huse
      rcases hq.proc q with heq | ⟨hun, -⟩
      · exact heq
      · exact absurd hun huse
    exact ⟨fun q _ huse => ⟨(s.proc q).parent, hsame q huse⟩,
      .inl (hsame p (live_ne_unused hlive))⟩
  · have hnp : ∀ q, (s.proc q).state ≠ .unused → q ≠ np := fun q huse heq => huse (heq ▸ hun)
    rcases hend with ⟨-, s₂, hinh, -, rfl⟩ | ⟨-, -, js, s₁, hinh, hexit⟩
    · have hsame : ∀ q, q ≠ np → (s₂.setProc np
          { s₂.proc np with state := .runnable }).proc q = s.proc q := by
        intro q hq
        rw [setProc_ne hq, hinh.others q hq, born_ne hq]
      exact ⟨fun q _ huse => ⟨(s.proc q).parent, hsame q (hnp q huse)⟩, .inl (hsame p hne)⟩
    · have htable : TableOK s₁.shTable :=
        TableOK.mono (t := s.shTable) h.table hinh.key hinh.addr hinh.counter_le
      obtain ⟨hothers, hzombie⟩ := exit_frame htable hexit
      refine ⟨fun q hq huse => ?_, .inr hzombie⟩
      obtain ⟨par, heq⟩ := hothers q hq
      rw [hinh.others q (hnp q huse), born_ne (hnp q huse)] at heq
      exact ⟨par, heq⟩

/-- A step leaves the other processes in use alone, but for their parent. -/
theorem step_others (h : Sane s) (hs : kernel.step s e s') (hc : e.call.sharesPages = true)
    {q : Fin nproc} (hq : q ≠ e.who) (huse : (s.proc q).state ≠ .unused) :
    ∃ par, s'.proc q = { s.proc q with parent := par } := by
  obtain ⟨who, call, result⟩ := e
  obtain ⟨hlive, hcall⟩ := hs
  cases call_does (p := who) hcall with
  | getRefused | remRefused => exact ⟨_, rfl⟩
  | shmget hkey _ hg =>
    cases shmget_ok hkey hg with
    | again => exact ⟨_, rfl⟩
    | placed | fresh => exact ⟨_, setProc_ne hq _⟩
  | shmrem hkey _ hr => exact ⟨_, (shmrem_frame h.table hkey hr).1 q hq⟩
  | fork hf => exact (fork_frame h hlive hf).1 q hq huse
  | exit he => exact (exit_frame h.table he).1 q hq
  | exec | sbrk | wait => cases hc

/-- The caller stays live or becomes a zombie. -/
theorem step_who (h : Sane s) (hs : kernel.step s e s') (hc : e.call.sharesPages = true) :
    (s'.proc e.who).state = (s.proc e.who).state ∨ (s'.proc e.who).state = .zombie := by
  obtain ⟨who, call, result⟩ := e
  obtain ⟨hlive, hcall⟩ := hs
  cases call_does (p := who) hcall with
  | getRefused | remRefused => exact .inl rfl
  | shmget hkey _ hg =>
    cases shmget_ok hkey hg with
    | again => exact .inl rfl
    | placed | fresh => exact .inl (by simp [Proc.attach])
  | shmrem hkey _ hr => exact .inl (shmrem_frame h.table hkey hr).2
  | fork hf => exact (fork_frame h hlive hf).2.imp (congrArg Proc.state) id
  | exit he => exact .inr (exit_frame h.table he).2
  | exec | sbrk | wait => cases hc

/-- In these runs no process slot becomes free. -/
theorem step_unused (h : Sane s) (hs : kernel.step s e s') (hc : e.call.sharesPages = true)
    {q : Fin nproc} (hun : (s'.proc q).state = .unused) :
    (s.proc q).state = .unused ∧ q ≠ e.who := by
  have hwho : q ≠ e.who := by
    rintro rfl
    rcases step_who h hs hc with heq | hz
    · exact live_ne_unused hs.1 (heq.symm.trans hun)
    · rw [hun] at hz
      cases hz
  refine ⟨?_, hwho⟩
  by_contra huse
  obtain ⟨par, heq⟩ := step_others h hs hc hwho huse
  rw [heq] at hun
  exact huse hun

/-! ## §4  The last call on a key -/

/-- The key a call is about. -/
def Call.keyArg : Call → Option Key
  | .shmget key lim | .shmrem key lim => if keyLengthOk key lim then some (keyOf key) else none
  | _ => none

/-- The address a call got, if it was `shmget`. -/
def Event.got (e : Event) : Option Int :=
  match e.call, e.result with
  | .shmget _ _, .value a => some a
  | _, _ => none

/-- The address the last call of `p` on the key `k` got, if that call was
`shmget`. -/
def lastGet (p : Fin nproc) (k : Key) (es : List Event) : Option Int :=
  es.foldl (fun acc e => if e.who = p ∧ e.call.keyArg = some k then e.got else acc) none

omit [Image] in
theorem lastGet_snoc (p : Fin nproc) (k : Key) (es : List Event) (e : Event) :
    lastGet p k (es ++ [e]) =
      if e.who = p ∧ e.call.keyArg = some k then e.got else lastGet p k es := by
  simp [lastGet]

omit [Image] in
/-- A process that made no call got nothing. -/
theorem lastGet_silent {k : Key} (h : ∀ e ∈ es, e.who ≠ p) : lastGet p k es = none := by
  induction es using List.reverseRecOn with
  | nil => rfl
  | append_singleton es e ih =>
    rw [lastGet_snoc, if_neg fun hc => h e (by simp) hc.1]
    exact ih fun e' he' => h e' (by simp [he'])

/-- A record on another key survives a careful call of its process. -/
theorem record_kept (h : Linked s) (hs : (kernel.guarded Careful).step s e s')
    (hlive' : (s'.proc e.who).state.live = true) {y : Fin shmemPages}
    (hphy : (s.proc e.who).phySharedPage y ≠ 0) (hne : e.call.keyArg ≠ some ((s.proc e.who).pKey y)) :
    (s'.proc e.who).phySharedPage y ≠ 0 ∧ (s'.proc e.who).pKey y = (s.proc e.who).pKey y := by
  obtain ⟨who, call, result⟩ := e
  obtain ⟨hcare, hlive, hcall⟩ := hs
  cases call_does (p := who) hcall with
  | getRefused | remRefused => exact ⟨hphy, rfl⟩
  | @shmget key _ _ _ hkey _ hg =>
    -- a page is placed at a position without one
    have hplace : ∀ pos f pg, findPos (s.proc who) = some pos →
        ((s.proc who).attach pos f key pg).phySharedPage y ≠ 0 ∧
        ((s.proc who).attach pos f key pg).pKey y = (s.proc who).pKey y := by
      intro pos f pg hpos
      have hyp : y ≠ pos := by
        rintro rfl
        exact hphy (findPos_some hpos)
      simpa [Proc.attach, hyp] using hphy
    rcases shmget_ok hkey hg with _ | ⟨t, pos, pg, m, -, -, -, hpos⟩ |
      ⟨t, pos, f, pg, m₁, m, -, -, -, hpos⟩
    · exact ⟨hphy, rfl⟩
    · simpa only [setProc_self] using hplace pos _ pg hpos
    · simpa only [setProc_self] using hplace pos f pg hpos
  | shmrem hkey hlen hr =>
    obtain ⟨hcmp, hns⟩ := hcare hlen
    obtain ⟨-, ⟨h0, -⟩ | ⟨-, -, -, rfl⟩ | ⟨-, i, y', s₁, hfind, hdet, rfl⟩⟩ := shmrem_ok hr
    · exact absurd h0 hcmp
    · exact ⟨hphy, rfl⟩
    · obtain ⟨hi, hy'⟩ := findDetach_some hfind
      obtain ⟨-, hrec⟩ := h.record_slot hlive hkey hi (findRec_some hy') (hns i y' hi hy')
      have hyy : y ≠ y' := by
        rintro rfl
        exact hne (by simp [Call.keyArg, hlen, hrec])
      have hpos := (h.records.sane.table.match_pos hkey hi).2
      obtain ⟨pg, t, m, k, -, -, hk, rfl⟩ := detachKey_ok (s := s.withLock true) hpos hdet
      refine ⟨by simpa [hyy] using hphy, ?_⟩
      rcases hk with ⟨-, -, rfl⟩ | ⟨-, -, rfl⟩
      · simp
      · simp [hyy]
  | fork hf =>
    rcases (fork_frame h.records.sane hlive hf).2 with heq | hz
    · simp only at heq hphy ⊢
      rw [heq]
      exact ⟨hphy, rfl⟩
    · rw [hz] at hlive'
      simp [ProcState.live] at hlive'
  | exit he =>
    rw [(exit_frame h.records.sane.table he).2] at hlive'
    simp [ProcState.live] at hlive'
  | exec | sbrk | wait => exact hcare.elim

omit [Image] in
theorem Careful.sharesPages [Image] (h : Careful s e) :
    e.call.sharesPages = true := by
  obtain ⟨who, call, result⟩ := e
  cases call <;> trivial

/-- What the history of a run says about its last state: whoever got an
address by its last call on a key has a record with its page there. -/
structure History (es : List Event) (s : Kernel) : Prop where
  linked : Linked s
  record : ∀ p k a, (s.proc p).state.live = true → lastGet p k es = some a →
    ∃ y : Fin shmemPages, a = windowAddr y ∧ (s.proc p).phySharedPage y ≠ 0 ∧
      (s.proc p).pKey y = k
  silent : ∀ p, (s.proc p).state = .unused → ∀ e ∈ es, e.who ≠ p

theorem History.step (h : History es s) (hsent : SentinelKnown)
    (hs : (kernel.guarded Careful).step s e s') :
    History (es ++ [e]) s' := by
  have hsane := h.linked.records.sane
  have hshares := hs.1.sharesPages
  refine ⟨h.linked.step hsent hs, fun p k a hlive' hlast => ?_, fun p hun e' he' => ?_⟩
  · rw [lastGet_snoc] at hlast
    by_cases hwho : e.who = p
    · subst hwho
      by_cases hkey : e.call.keyArg = some k
      · -- the call itself is the last one on the key
        rw [if_pos ⟨rfl, hkey⟩] at hlast
        obtain ⟨who, call, result⟩ := e
        obtain ⟨hcare, hlive, hcall⟩ := hs
        cases call_does hcall with
        | getRefused hno => simp [Call.keyArg, hno] at hkey
        | shmget hisKey hlen hg =>
          obtain ⟨hns, hcr⟩ := hcare hlen
          obtain ⟨y, rfl, -, hphy, hrec⟩ := shmget_record h.linked hlive hisKey hns hcr hg
          simp only [Event.got, Option.some.injEq] at hlast
          simp only [Call.keyArg, hlen, if_true, Option.some.injEq] at hkey
          exact ⟨y, hlast.symm, hphy, hrec.trans hkey⟩
        | _ => simp [Event.got] at hlast
      · rw [if_neg fun hc => hkey hc.2] at hlast
        obtain ⟨y, ha, hphy, hk⟩ := h.record e.who k a hs.2.1 hlast
        obtain ⟨hphy', hk'⟩ := record_kept h.linked hs hlive' hphy (by rwa [hk])
        exact ⟨y, ha, hphy', hk'.trans hk⟩
    · rw [if_neg fun hc => hwho hc.1] at hlast
      by_cases hun : (s.proc p).state = .unused
      · -- a child born in this step has made no call yet
        rw [lastGet_silent (h.silent p hun)] at hlast
        cases hlast
      · obtain ⟨par, heq⟩ := step_others hsane hs.2 hshares (Ne.symm hwho) hun
        rw [heq] at hlive' ⊢
        exact h.record p k a hlive' hlast
  · obtain ⟨hun', hwho⟩ := step_unused hsane hs.2 hshares hun
    rcases List.mem_append.mp he' with he' | he'
    · exact h.silent p hun' e' he'
    · rw [List.mem_singleton.mp he']
      exact Ne.symm hwho

theorem History.run (hsent : SentinelKnown) (hboot : Boot s₀)
    (hrun : (kernel.guarded Careful).Run s₀ es s) : History es s :=
  hrun.history (fun _ _ _ _ hs hstep => hs.step hsent hstep)
    ⟨hboot.linked, fun _ _ _ _ h => (by cases h), fun _ _ _ h => (by cases h)⟩

/-- **What `shmget` returns.** In a careful run every address returned is the
caller's place of the page of the one slot with that key. So processes whose
last call on a key was `shmget` see the same page, and on different keys
different pages. -/
theorem shmget_sound {s₀ s : Kernel} {es : List Event} (hsent : SentinelKnown) (hboot : Boot s₀)
    (hrun : (kernel.guarded Careful).Run s₀ es s) :
    (∀ p key lim r s', (kernel.guarded Careful).step s ⟨p, .shmget key lim, r⟩ s' →
      keyLengthOk key lim = true → ∃ a, r = .value a ∧ SeesKey s' p (keyOf key) a) ∧
    (∀ p q k a b, (s.proc p).state.live = true → (s.proc q).state.live = true →
      lastGet p k es = some a → lastGet q k es = some b →
      ∃ f, ((s.proc p).pgdir.entry a.toNat).MapsUser f ∧
        ((s.proc q).pgdir.entry b.toNat).MapsUser f) ∧
    (∀ p q k k' a b, k ≠ k' → (s.proc p).state.live = true → (s.proc q).state.live = true →
      lastGet p k es = some a → lastGet q k' es = some b →
      ∃ f f', f ≠ f' ∧ ((s.proc p).pgdir.entry a.toNat).MapsUser f ∧
        ((s.proc q).pgdir.entry b.toNat).MapsUser f') := by
  have h := History.run hsent hboot hrun
  -- whoever got an address sees the page of the key there
  have hsees : ∀ p k a, (s.proc p).state.live = true → lastGet p k es = some a →
      ∃ t, s.shTable.shmemKey t = k ∧ (∀ t', s.shTable.shmemKey t' = k → t' = t) ∧
        s.shTable.shmemAddr t ≠ 0 ∧
        ((s.proc p).pgdir.entry a.toNat).MapsUser (s.shTable.shmemAddr t) := by
    intro p k a hlive hlast
    obtain ⟨y, rfl, hphy, rfl⟩ := h.record p k a hlive hlast
    obtain ⟨i, ha, t, htk, huniq, hmaps⟩ := h.linked.seesKey hlive hphy
    obtain ⟨t', ht', htk'⟩ := h.linked.slot p y hlive hphy
    rw [huniq t' htk'] at ht'
    have hi : windowAddr y = windowAddr i := by exact_mod_cast ha
    refine ⟨t, htk, huniq, by rw [ht']; exact hphy, ?_⟩
    rw [Int.toNat_natCast, hi]
    exact hmaps
  refine ⟨fun p key lim r s' hs hlen => ?_, fun p q k a b hp hq ha hb => ?_,
    fun p q k k' a b hne hp hq ha hb => ?_⟩
  · have hlinked' := h.linked.step hsent hs
    obtain ⟨hcare, hlive, hcall⟩ := hs
    rcases call_does hcall with hno | ⟨hkey, -, hg⟩
    · rw [hlen] at hno
      cases hno
    · obtain ⟨y, hr, hlive', hphy, hrec⟩ :=
        shmget_record h.linked hlive hkey (hcare hlen).1 (hcare hlen).2 hg
      rw [← hrec]
      exact ⟨_, hr, hlinked'.seesKey hlive' hphy⟩
  · obtain ⟨t, -, huniq, -, hmaps⟩ := hsees p k a hp ha
    obtain ⟨t', htk', -, -, hmaps'⟩ := hsees q k b hq hb
    rw [huniq t' htk'] at hmaps'
    exact ⟨_, hmaps, hmaps'⟩
  · obtain ⟨t, htk, -, hused, hmaps⟩ := hsees p k a hp ha
    obtain ⟨t', htk', -, -, hmaps'⟩ := hsees q k' b hq hb
    refine ⟨_, _, fun heq => hne ?_, hmaps, hmaps'⟩
    rw [← htk, ← htk', h.linked.records.addr_inj heq hused]

/-- Process 2 attaches the page of another key first, so it sees the shared
page at its second place. -/
def twoAttach : List (Fin nproc × Call) :=
  [(1, .shmget (bufOf [97]) 8), (2, .shmget (bufOf [98]) 8), (2, .shmget (bufOf [97]) 8)]

omit [Image] in
theorem shmget_sound_twoAttach : ∃ f,
    (((@stateAfter sampleImage (@tidyCall sampleImage) twoAttach sampleTwo).proc 1).pgdir.entry
      0x7ffff000).MapsUser f ∧
    (((@stateAfter sampleImage (@tidyCall sampleImage) twoAttach sampleTwo).proc 2).pgdir.entry
      0x7fffe000).MapsUser f := by
  let _ := sampleImage
  exact (shmget_sound sentinelKnown_sample (sample_boot _)
    (run_calls careful_of_tidyCall twoAttach rfl)).2.1 1 2 (keyOf (bufOf [97]))
    0x7ffff000 0x7fffe000 rfl rfl rfl rfl

/-- Process 1 creates the page of a key and detaches as its last holder, which
leaves the key in its record. Then process 2 creates the page anew. -/
def recreate : List (Fin nproc × Call) :=
  [(1, .shmget (bufOf [97]) 8), (1, .shmrem (bufOf [97]) 8), (2, .shmget (bufOf [97]) 8)]

def shareCall (_ : Kernel) (_ : Fin nproc) (c : Call) : Bool := c.sharesPages

omit [Image] in
/-- Without care: process 1 asks for the key again. The scan finds the new
slot, the old record matches, and `shmget` returns its cleared address 0. -/
theorem shmget_stale_unsound : ¬ ∀ (_ : Image) (s₀ s s' : Kernel) (es : List Event) (p : Fin nproc)
    (key : Buf) (lim : Nat) (r : CallResult), SentinelKnown → Boot s₀ →
    (kernel.guarded fun _ e => e.call.sharesPages = true).Run s₀ es s →
    kernel.step s ⟨p, .shmget key lim, r⟩ s' → keyLengthOk key lim = true →
    ∃ a, r = .value a ∧ SeesKey s' p (keyOf key) a := by
  intro h
  let _ := sampleImage
  have hrun := run_calls (g := shareCall) (fun _ _ hc => hc) recreate (s := sampleTwo) rfl
  obtain ⟨a, ha, i, hi, -⟩ := h sampleImage _ _ _ _ 1 (bufOf [97]) 8 (.value 0)
    sentinelKnown_sample (sample_boot _) hrun ⟨rfl, rfl⟩ rfl
  cases ha
  have := windowAddr_ne_zero i.isLt
  omega

/-! ## §5  What `shmrem` may touch -/

/-- `shmrem` finds the table unlocked and leaves it so. -/
theorem shmrem_lock {key : Buf} {v : Int} (h : shmrem p key s = .ok (v, s')) :
    s'.shTable.lock = false := by
  obtain ⟨hlock, hcase⟩ := shmrem_ok h
  rcases hcase with ⟨-, -, s₂, -, rfl⟩ | ⟨-, -, -, rfl⟩ | ⟨-, i, y, s₂, -, -, rfl⟩
  · rfl
  · exact hlock
  · rfl

theorem exit_lock (h : exit p s = .ok s') : s'.shTable.lock = false := by
  obtain ⟨-, r, s₁, hrem, rfl⟩ := exit_ok h
  exact (shmrem_lock hrem :)

theorem step_lock (hsane : Sane s) (h : s.shTable.lock = false) (hs : kernel.step s e s') :
    s'.shTable.lock = false := by
  obtain ⟨who, call, result⟩ := e
  obtain ⟨hlive, hcall⟩ := hs
  cases call_does (p := who) hcall with
  | getRefused | remRefused => exact h
  | shmget hkey _ hg => cases shmget_ok hkey hg <;> exact h
  | shmrem _ _ hr => exact shmrem_lock hr
  | fork hf =>
    rcases fork_ok hlive (hsane.size who).le hsane.free hf with
      ⟨-, hq⟩ | ⟨np, k, m₁, d, m₂, -, -, -, -, ⟨-, s₂, hinh, -, rfl⟩ | ⟨-, -, js, s₁, -, hexit⟩⟩
    · rw [hq.table]
      exact h
    · exact hinh.lock.trans h
    · exact exit_lock hexit
  | exit he => exact exit_lock he
  | exec he =>
    rcases exec_ok hsane.free he with ⟨-, m, -, -, rfl⟩ | ⟨-, pg, sz, sp, m, -, -, -, -, rfl⟩ <;>
      exact h
  | sbrk hgrow _ =>
    obtain ⟨m, pg, sz, -, -, -, rfl⟩ := growproc_ok hsane.free (hsane.size who) hgrow
    exact h
  | wait hw => rcases wait_ok hw with rfl | ⟨c, m, -, -, -, -, rfl⟩ <;> exact h

/-- **Run.** Between calls the table is unlocked. -/
theorem Boot.lock_run (hboot : Boot s₀) (hrun : kernel.Run s₀ es s) : s.shTable.lock = false := by
  have hinv : Sane s ∧ s.shTable.lock = false :=
    hrun.invariant (I := fun s => Sane s ∧ s.shTable.lock = false)
      (fun _ _ _ h hs => ⟨h.1.step hs, step_lock h.1 h.2 hs⟩)
      ⟨hboot.sane, by rw [hboot.table]; rfl⟩
  exact hinv.2

/-- A slot and a record that match, without staleness: the caller sees the
page of the key. -/
theorem Linked.attached_of_found (h : Linked s) {key : Buf} {i y : Fin shmemPages}
    (hlive : s.Live p) (hkey : IsKey key) (hns : NotStale s p key)
    (hfind : findDetach p key s = some (i, y)) :
    SeesKey s p (keyOf key) (windowAddr y) := by
  obtain ⟨hi, hy⟩ := findDetach_some hfind
  have hphy := hns i y hi hy
  obtain ⟨-, hrec⟩ := h.record_slot hlive hkey hi (findRec_some hy) hphy
  rw [← hrec]
  exact h.seesKey hlive hphy

/-- **What `shmrem` may touch.** In a careful run, `shmrem` by a process that
is not attached to the key returns -1 and changes nothing; and no `shmrem`
changes a slot whose page its caller does not map, or frees that page. -/
theorem shmrem_unattached {s₀ s : Kernel} {es : List Event} (hsent : SentinelKnown)
    (hboot : Boot s₀) (hrun : (kernel.guarded Careful).Run s₀ es s) :
    (∀ p key lim, (s.proc p).state.live = true →
      Careful s ⟨p, .shmrem key lim, .value (-1)⟩ → (¬ ∃ a, SeesKey s p (keyOf key) a) →
      (Call.shmrem key lim).run p s = .ok (.value (-1), s)) ∧
    (∀ p key lim r s', (kernel.guarded Careful).step s ⟨p, .shmrem key lim, r⟩ s' →
      ∀ t, (¬ ∃ i : Fin shmemPages,
          ((s.proc p).pgdir.entry (windowAddr i)).MapsUser (s.shTable.shmemAddr t)) →
        s'.shTable.shmemAddr t = s.shTable.shmemAddr t ∧
        s'.shTable.shmemCounter t = s.shTable.shmemCounter t ∧
        s'.shTable.shmemKey t = s.shTable.shmemKey t ∧
        s'.mem.freelist.count (s.shTable.shmemAddr t) =
          s.mem.freelist.count (s.shTable.shmemAddr t)) := by
  have hlinked := Linked.run hsent hrun hboot.linked
  have hlock := hboot.lock_run hrun.of_guarded
  refine ⟨fun p key lim hlive hcare hno => ?_, fun p key lim r s' hs t hno => ?_⟩
  · rw [Call.run, sysShmrem]
    split
    · rename_i hlen
      obtain ⟨hcmp, hns⟩ := hcare hlen
      have hnone : findDetach p key s = none := by
        by_contra hsome
        obtain ⟨⟨i, y⟩, hfind⟩ := Option.ne_none_iff_exists'.mp hsome
        exact hno ⟨_, hlinked.attached_of_found hlive (isKey_of_keyLengthOk hlen) hns hfind⟩
      rw [shmrem_none hlock hcmp hnone]
      rfl
    · rfl
  · obtain ⟨hcare, hlive, hcall⟩ := hs
    rcases call_does (p := p) hcall with _ | _ | _ | ⟨hkey, hlen, hr⟩
    · exact ⟨rfl, rfl, rfl, rfl⟩
    · obtain ⟨hcmp, hns⟩ := hcare hlen
      obtain ⟨-, ⟨h0, -⟩ | ⟨-, -, -, rfl⟩ | ⟨-, i, y, s₁, hfind, hdet, rfl⟩⟩ := shmrem_ok hr
      · exact absurd h0 hcmp
      · exact ⟨rfl, rfl, rfl, rfl⟩
      · obtain ⟨j, -, t', -, huniq, hmaps⟩ :=
          hlinked.attached_of_found hlive hkey hns hfind
        have hi := hlinked.records.sane.table.match_pos hkey (findDetach_some hfind).1
        -- the slot given up is the one whose page the caller maps
        rw [← huniq i hi.1] at hmaps
        have hti : t ≠ i := by
          rintro rfl
          exact hno ⟨j, hmaps⟩
        have hne : s.shTable.shmemAddr i ≠ s.shTable.shmemAddr t := fun heq =>
          hno ⟨j, heq ▸ hmaps⟩
        obtain ⟨pg, tab, m, k, hgive, -, -, rfl⟩ :=
          detachKey_ok (s := s.withLock true) hi.2 hdet
        cases hgive with
        | last _ _ hl => simp [ShmTable.free, hti, hl, hne]
        | other _ hl => simp [hti, hl]

omit [Image]

/-- A process with an empty window is attached to nothing. -/
theorem not_seesKey_of_absent
    (h : ∀ i : Fin shmemPages, ((s.proc p).pgdir.entry (windowAddr i)).p = false) (k : Key) :
    ¬ ∃ a, SeesKey s p k a := by
  rintro ⟨a, i, -, t, -, -, hmaps⟩
  rw [Pte.MapsUser, h i] at hmaps
  simp at hmaps

/-- Process 2, which has no page, cannot detach that of process 1. -/
theorem shmrem_unattached_other :
    let s := @stateAfter sampleImage (@tidyCall sampleImage) [(1, .shmget (bufOf [97]) 8)] sampleTwo
    @Call.run sampleImage (.shmrem (bufOf [97]) 8) 2 s = .ok (.value (-1), s) := by
  let _ := sampleImage
  exact (shmrem_unattached sentinelKnown_sample (sample_boot _)
    (run_calls careful_of_tidyCall [(1, .shmget (bufOf [97]) 8)] rfl)).1 2 (bufOf [97]) 8
    rfl (careful_of_tidyCall _ _ rfl) (not_seesKey_of_absent (by decide) _)

/-- Without care: process 1 detaches a second time. Its old record matches
the slot that process 2 created, so `shmrem` returns 0 and frees a page that
only process 2 has. -/
theorem shmrem_stale_detaches : ¬ ∀ (_ : Image) (s₀ s : Kernel) (es : List Event) (p : Fin nproc)
    (key : Buf) (lim : Nat), SentinelKnown → Boot s₀ →
    (kernel.guarded fun _ e => e.call.sharesPages = true).Run s₀ es s →
    (s.proc p).state.live = true → (¬ ∃ a, SeesKey s p (keyOf key) a) →
    (Call.shmrem key lim).run p s = .ok (.value (-1), s) := by
  intro h
  let _ := sampleImage
  have hrun := run_calls (g := shareCall) (fun _ _ hc => hc) recreate (s := sampleTwo) rfl
  have hret : ∃ s', @Call.run sampleImage (.shmrem (bufOf [97]) 8) 1
      (@stateAfter sampleImage shareCall recreate sampleTwo) = .ok (.value 0, s') := ⟨_, rfl⟩
  rw [h sampleImage _ _ _ 1 (bufOf [97]) 8 sentinelKnown_sample (sample_boot _) hrun rfl
    (not_seesKey_of_absent (by decide) _)] at hret
  obtain ⟨s', hret⟩ := hret
  cases hret

end Xv6
