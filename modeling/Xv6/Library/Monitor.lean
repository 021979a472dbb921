import Xv6.Library.Transition

/-!
# Monitors: a lock, shared data, `sleep` and `wakeup`

Processes share data under one spin lock. Under the lock a process changes
the data, wakes the sleepers of a channel, or sleeps on a channel, which gives
the lock up until it has been woken. Who sleeps, and where, is kept in a
process table under a second lock, which a scheduler and others take too.

A `Program` says what the processes do under the lock; `system` is the machine
that runs it, one lock operation or one write at a time, with wakeups for no
reason allowed whenever the table is locked by somebody else.

Three facts are proved about every program:

- `no_lost_wakeup` — if a process sleeps only while its channel is blocked,
  and whoever unblocks a channel wakes its sleepers before leaving, then with
  the lock free nobody sleeps on a channel that is not blocked;
- `refines_atomic` — the machine refines the one in which every process makes
  its next move under the lock at any time, in one step. An invariant of the
  moves is an invariant of the machine, and one of the data alone needs the
  changes of the data only (`data_invariant`);
- `records_run` — the same for a relation between the data and the calls that
  the processes have completed, which are read off the run (`records`).
-/

namespace Monitor

open Transition Function

/-- What a process does next while it has the lock: change the data, sleep on
a channel, wake a channel, or leave. -/
inductive Act (χ L O δ : Type*) where
  | go (l : L) (d : δ)
  | sleep (c : χ) (l : L)
  | wakeup (c : χ) (l : L)
  | leave (o : O)

/-- The operations of a monitor: which of them a process may start, and what
it does at a label under the lock. -/
structure Program (ι χ L O δ : Type*) where
  enter : ι → O → L → Bool
  act : ι → L → δ → Act χ L O δ

/-- Where a process is. -/
inductive Loc (χ L O : Type*) where
  | out (o : O)
  | spin (l : L)                -- takes the lock, then at `l`
  | body (l : L)                -- has the lock
  | sleepLock (c : χ) (l : L)   -- `sleep`: takes the table lock
  | sleepDrop (c : χ) (l : L)   -- has both, gives the lock up
  | mark (c : χ) (l : L)        -- has the table lock, goes to sleep
  | sched (c : χ) (l : L)       -- sleeps, hands the table lock on
  | asleep (c : χ) (l : L)      -- switched out
  | tidy (l : L)                -- resumed with the table lock
  | wakeLock (c : χ) (l : L)    -- `wakeup`: takes the table lock
  | scan (c : χ) (l : L)        -- has both, wakes the sleepers of `c`
  | wakeDrop (l : L)            -- has both, gives the table lock up

/-- Who has the table lock. -/
inductive Owner (ι : Type*) where
  | free
  | proc (p : ι)
  | other

structure State (ι χ L O δ : Type*) where
  data : δ
  lk : Option ι
  pt : Owner ι
  loc : ι → Loc χ L O
  sleeping : ι → Bool
  chan : ι → Option χ

/-- The next step of a process, or of the rest of the kernel: somebody takes
the table lock, gives it up, wakes a process, or resumes one. -/
inductive Event (ι L : Type*) where
  | enter (p : ι) (l : L)
  | proc (p : ι)
  | grab
  | drop
  | rouse (p : ι)
  | resume (p : ι)

variable {ι χ L O δ : Type*} [DecidableEq ι]

def State.move (s : State ι χ L O δ) (p : ι) (a : Loc χ L O) : State ι χ L O δ :=
  { s with loc := update s.loc p a }

/-- Everybody at `out o`, both locks free. -/
def initial (d : δ) (o : O) : State ι χ L O δ where
  data := d
  lk := none
  pt := .free
  loc := fun _ => .out o
  sleeping := fun _ => false
  chan := fun _ => none

variable [DecidableEq χ]

/-- One step of process `p` from where it is; `none` if it has to wait. -/
def stepProc (P : Program ι χ L O δ) (s : State ι χ L O δ) (p : ι) :
    Option (State ι χ L O δ) :=
  match s.loc p with
  | .out _ => none
  | .spin l =>
    match s.lk with
    | none => some ({ s with lk := some p }.move p (.body l))
    | some _ => none
  | .body l =>
    match P.act p l s.data with
    | .go l' d => some ({ s with data := d }.move p (.body l'))
    | .sleep c l' => some (s.move p (.sleepLock c l'))
    | .wakeup c l' => some (s.move p (.wakeLock c l'))
    | .leave o => some ({ s with lk := none }.move p (.out o))
  | .sleepLock c l =>
    match s.pt with
    | .free => some ({ s with pt := .proc p }.move p (.sleepDrop c l))
    | _ => none
  | .sleepDrop c l => some ({ s with lk := none }.move p (.mark c l))
  | .mark c l =>
    some ({ s with
      sleeping := update s.sleeping p true
      chan := update s.chan p (some c) }.move p (.sched c l))
  | .sched c l => some ({ s with pt := .other }.move p (.asleep c l))
  | .asleep _ _ => none
  | .tidy l =>
    some ({ s with
      pt := .free
      chan := update s.chan p none }.move p (.spin l))
  | .wakeLock c l =>
    match s.pt with
    | .free => some ({ s with pt := .proc p }.move p (.scan c l))
    | _ => none
  | .scan c l =>
    some ({ s with
      sleeping := fun q => s.sleeping q && !decide (s.chan q = some c) }.move p (.wakeDrop l))
  | .wakeDrop l => some ({ s with pt := .free }.move p (.body l))

def next (P : Program ι χ L O δ) (s : State ι χ L O δ) :
    Event ι L → Option (State ι χ L O δ)
  | .enter p l =>
    match s.loc p with
    | .out o => if P.enter p o l then some (s.move p (.spin l)) else none
    | _ => none
  | .proc p => stepProc P s p
  | .grab =>
    match s.pt with
    | .free => some { s with pt := .other }
    | _ => none
  | .drop =>
    match s.pt with
    | .other => some { s with pt := .free }
    | _ => none
  | .rouse p =>
    match s.pt with
    | .other => some { s with sleeping := update s.sleeping p false }
    | _ => none
  | .resume p =>
    match s.pt, s.loc p, s.sleeping p with
    | .other, .asleep _ l, false => some ({ s with pt := .proc p }.move p (.tidy l))
    | _, _, _ => none

def system (P : Program ι χ L O δ) : System (State ι χ L O δ) (Event ι L) where
  step s e s' := next P s e = some s'

variable {P : Program ι χ L O δ} {s s' : State ι χ L O δ}

/-- A process that changes the data. -/
theorem next_go {p : ι} {l l' : L} {d : δ} (hloc : s.loc p = .body l)
    (h : P.act p l s.data = .go l' d) :
    next P s (.proc p) = some ({ s with data := d }.move p (.body l')) := by
  simp only [next, stepProc, hloc, h]

/-- Events that can all happen, one after the other, are a run. -/
theorem run_of_foldlM : ∀ {es : List (Event ι L)}
    {s s' : State ι χ L O δ}, es.foldlM (next P) s = some s' → (system P).Run s es s'
  | [], s, s', h => by
    cases h
    exact .nil
  | e :: es, s, s', h => by
    rw [List.foldlM_cons] at h
    obtain ⟨s₁, hstep, hrest⟩ := Option.bind_eq_some_iff.mp h
    exact (System.Run.single (T := system P) hstep).append (run_of_foldlM hrest)

/-! ## §1  The steps, one by one -/

/-- What `next` can do, with its guards. -/
inductive Step (P : Program ι χ L O δ) (s : State ι χ L O δ) : State ι χ L O δ → Prop where
  | enter {p o l} (hloc : s.loc p = .out o) (h : P.enter p o l = true) :
      Step P s (s.move p (.spin l))
  | spin {p l} (hloc : s.loc p = .spin l) (hlk : s.lk = none) :
      Step P s ({ s with lk := some p }.move p (.body l))
  | go {p l l' d} (hloc : s.loc p = .body l) (h : P.act p l s.data = .go l' d) :
      Step P s ({ s with data := d }.move p (.body l'))
  | sleep {p l c l'} (hloc : s.loc p = .body l) (h : P.act p l s.data = .sleep c l') :
      Step P s (s.move p (.sleepLock c l'))
  | wakeup {p l c l'} (hloc : s.loc p = .body l) (h : P.act p l s.data = .wakeup c l') :
      Step P s (s.move p (.wakeLock c l'))
  | leave {p l o} (hloc : s.loc p = .body l) (h : P.act p l s.data = .leave o) :
      Step P s ({ s with lk := none }.move p (.out o))
  | sleepLock {p c l} (hloc : s.loc p = .sleepLock c l) (hpt : s.pt = .free) :
      Step P s ({ s with pt := .proc p }.move p (.sleepDrop c l))
  | sleepDrop {p c l} (hloc : s.loc p = .sleepDrop c l) :
      Step P s ({ s with lk := none }.move p (.mark c l))
  | mark {p c l} (hloc : s.loc p = .mark c l) :
      Step P s ({ s with
        sleeping := update s.sleeping p true
        chan := update s.chan p (some c) }.move p (.sched c l))
  | sched {p c l} (hloc : s.loc p = .sched c l) :
      Step P s ({ s with pt := .other }.move p (.asleep c l))
  | tidy {p l} (hloc : s.loc p = .tidy l) :
      Step P s ({ s with
        pt := .free
        chan := update s.chan p none }.move p (.spin l))
  | wakeLock {p c l} (hloc : s.loc p = .wakeLock c l) (hpt : s.pt = .free) :
      Step P s ({ s with pt := .proc p }.move p (.scan c l))
  | scan {p c l} (hloc : s.loc p = .scan c l) :
      Step P s ({ s with
        sleeping := fun q => s.sleeping q && !decide (s.chan q = some c) }.move p (.wakeDrop l))
  | wakeDrop {p l} (hloc : s.loc p = .wakeDrop l) :
      Step P s ({ s with pt := .free }.move p (.body l))
  | grab (hpt : s.pt = .free) : Step P s { s with pt := .other }
  | drop (hpt : s.pt = .other) : Step P s { s with pt := .free }
  | rouse (p : ι) (hpt : s.pt = .other) :
      Step P s { s with sleeping := update s.sleeping p false }
  | resume {p c l} (hloc : s.loc p = .asleep c l) (hpt : s.pt = .other)
      (hsl : s.sleeping p = false) :
      Step P s ({ s with pt := .proc p }.move p (.tidy l))

theorem step_of_stepProc {p : ι} (h : stepProc P s p = some s') : Step P s s' := by
  unfold stepProc at h
  split at h
  case h_1 => cases h
  case h_2 hloc =>
    split at h
    · cases h
      exact .spin hloc ‹_›
    · cases h
  case h_3 hloc =>
    split at h <;> cases h
    · exact .go hloc ‹_›
    · exact .sleep hloc ‹_›
    · exact .wakeup hloc ‹_›
    · exact .leave hloc ‹_›
  case h_4 hloc =>
    split at h
    · cases h
      exact .sleepLock hloc ‹_›
    · cases h
  case h_5 hloc =>
    cases h
    exact .sleepDrop hloc
  case h_6 hloc =>
    cases h
    exact .mark hloc
  case h_7 hloc =>
    cases h
    exact .sched hloc
  case h_8 => cases h
  case h_9 hloc =>
    cases h
    exact .tidy hloc
  case h_10 hloc =>
    split at h
    · cases h
      exact .wakeLock hloc ‹_›
    · cases h
  case h_11 hloc =>
    cases h
    exact .scan hloc
  case h_12 hloc =>
    cases h
    exact .wakeDrop hloc

theorem step_of_next {e : Event ι L} (h : next P s e = some s') : Step P s s' := by
  cases e with
  | enter p l =>
    simp only [next] at h
    split at h
    · split at h
      · cases h
        exact .enter ‹_› ‹_›
      · cases h
    · cases h
  | proc p => exact step_of_stepProc h
  | grab =>
    simp only [next] at h
    split at h <;> cases h
    exact .grab ‹_›
  | drop =>
    simp only [next] at h
    split at h <;> cases h
    exact .drop ‹_›
  | rouse p =>
    simp only [next] at h
    split at h <;> cases h
    exact .rouse p ‹_›
  | resume p =>
    simp only [next] at h
    split at h <;> cases h
    exact .resume ‹_› ‹_› ‹_›

/-! ## §2  Who has the locks -/

/-- The places between taking the lock and giving it up. -/
def Loc.hasLock : Loc χ L O → Bool
  | .body _ | .sleepLock _ _ | .sleepDrop _ _ | .wakeLock _ _ | .scan _ _ | .wakeDrop _ => true
  | _ => false

/-- The same for the table lock. -/
def Loc.hasTable : Loc χ L O → Bool
  | .sleepDrop _ _ | .mark _ _ | .sched _ _ | .tidy _ | .scan _ _ | .wakeDrop _ => true
  | _ => false

/-- The channel of a process that is marked as asleep. -/
def Loc.chan? : Loc χ L O → Option χ
  | .sched c _ | .asleep c _ => some c
  | _ => none

/-- The lock belongs to the process at a place that has it, the same for the
table lock, and who is marked as sleeping is inside `sleep` with its channel
recorded. -/
structure Disciplined (s : State ι χ L O δ) : Prop where
  lk : ∀ p, s.lk = some p ↔ (s.loc p).hasLock = true
  pt : ∀ p, s.pt = .proc p ↔ (s.loc p).hasTable = true
  sleeping : ∀ p, s.sleeping p = true → ∃ c, (s.loc p).chan? = some c
  chan : ∀ p c, (s.loc p).chan? = some c → s.chan p = some c

section Owning

variable {α : Type*} {own own' : ι → Prop} {f : α → Bool} {loc : ι → α} {p : ι} {a : α}

/-- A process moves without taking or giving up what `own` is about. -/
theorem owns_keep (h : ∀ q, own q ↔ f (loc q) = true) (hown : ∀ q, own' q ↔ own q)
    (ha : f a = f (loc p)) (q : ι) : own' q ↔ f (update loc p a q) = true := by
  by_cases hq : q = p
  · rw [hq, update_self, ha, hown, h]
  · rw [update_of_ne hq, hown, h]

theorem owns_take (h : ∀ q, own q ↔ f (loc q) = true) (hfree : ∀ q, ¬ own q)
    (hown : ∀ q, own' q ↔ q = p) (ha : f a = true) (q : ι) :
    own' q ↔ f (update loc p a q) = true := by
  by_cases hq : q = p
  · rw [hq, update_self, ha]
    simp [hown]
  · rw [update_of_ne hq, ← h q, hown]
    exact iff_of_false hq (hfree q)

theorem owns_drop (h : ∀ q, own q ↔ f (loc q) = true) (honly : ∀ q, own q → q = p)
    (hown : ∀ q, ¬ own' q) (ha : f a = false) (q : ι) :
    own' q ↔ f (update loc p a q) = true := by
  by_cases hq : q = p
  · rw [hq, update_self, ha]
    simp [hown]
  · rw [update_of_ne hq, ← h q]
    exact iff_of_false (hown q) fun ho => hq (honly q ho)

end Owning

omit [DecidableEq χ] [DecidableEq ι] in
theorem initial_disciplined (d : δ) (o : O) :
    Disciplined (initial d o : State ι χ L O δ) where
  lk p := by simp [initial, Loc.hasLock]
  pt p := by simp [initial, Loc.hasTable]
  sleeping p hp := by simp [initial] at hp
  chan p c hc := by simp [initial, Loc.chan?] at hc

omit [DecidableEq χ] in
/-- A process that moves while nobody's mark changes stays inside `sleep` if
it is marked. -/
theorem Disciplined.sleeping_keep (h : Disciplined s) {p : ι} {a : Loc χ L O}
    (ha : ∀ c, (s.loc p).chan? = some c → a.chan? = some c) (q : ι) (hq : s.sleeping q = true) :
    ∃ c, (update s.loc p a q).chan? = some c := by
  obtain ⟨c, hc⟩ := h.sleeping q hq
  by_cases hqp : q = p
  · subst hqp
    exact ⟨c, by rw [update_self, ha c hc]⟩
  · exact ⟨c, by rw [update_of_ne hqp, hc]⟩

omit [DecidableEq χ] in
theorem Disciplined.chan_keep (h : Disciplined s) {p : ι} {a : Loc χ L O}
    (ha : ∀ c, a.chan? = some c → (s.loc p).chan? = some c) (q : ι) (c : χ)
    (hc : (update s.loc p a q).chan? = some c) : s.chan q = some c := by
  by_cases hqp : q = p
  · subst hqp
    rw [update_self] at hc
    exact h.chan q c (ha c hc)
  · rw [update_of_ne hqp] at hc
    exact h.chan q c hc

theorem Disciplined.step (h : Disciplined s) (hs : Step P s s') : Disciplined s' := by
  have hlk : ∀ {p}, (s.loc p).hasLock = true → ∀ q, s.lk = some q → q = p := by
    intro p hp q hq
    rw [(h.lk p).mpr hp] at hq
    exact (Option.some.inj hq).symm
  have hpt : ∀ {p}, (s.loc p).hasTable = true → ∀ q, s.pt = .proc q → q = p := by
    intro p hp q hq
    rw [(h.pt p).mpr hp] at hq
    exact (Owner.proc.inj hq).symm
  cases hs with
  | enter hloc _ | go hloc _ | sleep hloc _ | wakeup hloc _ =>
    exact ⟨owns_keep h.lk (fun _ => Iff.rfl) (by rw [hloc]; rfl),
      owns_keep h.pt (fun _ => Iff.rfl) (by rw [hloc]; rfl),
      h.sleeping_keep (by simp [hloc, Loc.chan?]), h.chan_keep (by simp [Loc.chan?])⟩
  | spin hloc hfree =>
    exact ⟨owns_take h.lk (by simp [hfree]) (by simp [State.move, eq_comm]) rfl,
      owns_keep h.pt (fun _ => Iff.rfl) (by rw [hloc]; rfl),
      h.sleeping_keep (by simp [hloc, Loc.chan?]), h.chan_keep (by simp [Loc.chan?])⟩
  | leave hloc _ | sleepDrop hloc =>
    exact ⟨owns_drop h.lk (hlk (by rw [hloc]; rfl)) (by simp [State.move]) rfl,
      owns_keep h.pt (fun _ => Iff.rfl) (by rw [hloc]; rfl),
      h.sleeping_keep (by simp [hloc, Loc.chan?]), h.chan_keep (by simp [Loc.chan?])⟩
  | sleepLock hloc hfree | wakeLock hloc hfree =>
    exact ⟨owns_keep h.lk (fun _ => Iff.rfl) (by rw [hloc]; rfl),
      owns_take h.pt (by simp [hfree]) (by simp [State.move, eq_comm]) rfl,
      h.sleeping_keep (by simp [hloc, Loc.chan?]), h.chan_keep (by simp [Loc.chan?])⟩
  | @mark p c l hloc =>
    refine ⟨owns_keep h.lk (fun _ => Iff.rfl) (by rw [hloc]; rfl),
      owns_keep h.pt (fun _ => Iff.rfl) (by rw [hloc]; rfl), fun q hq => ?_, fun q c' hc' => ?_⟩
    · by_cases hqp : q = p
      · exact ⟨c, by simp [State.move, hqp, Loc.chan?]⟩
      · simpa [State.move, hqp] using h.sleeping q (by simpa [State.move, hqp] using hq)
    · by_cases hqp : q = p
      · simpa [State.move, hqp, Loc.chan?] using hc'
      · simpa [State.move, hqp] using h.chan q c' (by simpa [State.move, hqp] using hc')
  | sched hloc =>
    exact ⟨owns_keep h.lk (fun _ => Iff.rfl) (by rw [hloc]; rfl),
      owns_drop h.pt (hpt (by rw [hloc]; rfl)) (by simp [State.move]) rfl,
      h.sleeping_keep (by simp [hloc, Loc.chan?]), h.chan_keep (by simp [hloc, Loc.chan?])⟩
  | @tidy p l hloc =>
    refine ⟨owns_keep h.lk (fun _ => Iff.rfl) (by rw [hloc]; rfl),
      owns_drop h.pt (hpt (by rw [hloc]; rfl)) (by simp [State.move]) rfl,
      h.sleeping_keep (by simp [hloc, Loc.chan?]), fun q c hc => ?_⟩
    by_cases hqp : q = p
    · simp [State.move, hqp, Loc.chan?] at hc
    · simpa [State.move, hqp] using h.chan q c (by simpa [State.move, hqp] using hc)
  | scan hloc =>
    refine ⟨owns_keep h.lk (fun _ => Iff.rfl) (by rw [hloc]; rfl),
      owns_keep h.pt (fun _ => Iff.rfl) (by rw [hloc]; rfl), fun q hq => ?_,
      h.chan_keep (by simp [Loc.chan?])⟩
    exact h.sleeping_keep (by simp [hloc, Loc.chan?]) q (Bool.and_eq_true_iff.mp hq).1
  | wakeDrop hloc =>
    exact ⟨owns_keep h.lk (fun _ => Iff.rfl) (by rw [hloc]; rfl),
      owns_drop h.pt (hpt (by rw [hloc]; rfl)) (by simp [State.move]) rfl,
      h.sleeping_keep (by simp [hloc, Loc.chan?]), h.chan_keep (by simp [Loc.chan?])⟩
  | grab hfree => exact ⟨h.lk, fun p => by simp [← h.pt p, hfree], h.sleeping, h.chan⟩
  | drop hother => exact ⟨h.lk, fun p => by simp [← h.pt p, hother], h.sleeping, h.chan⟩
  | rouse p _ =>
    refine ⟨h.lk, h.pt, fun q hq => ?_, h.chan⟩
    by_cases hqp : q = p
    · simp [hqp] at hq
    · exact h.sleeping q (by simpa [hqp] using hq)
  | @resume p c l hloc hother hsl =>
    refine ⟨owns_keep h.lk (fun _ => Iff.rfl) (by rw [hloc]; rfl),
      owns_take h.pt (by simp [hother]) (by simp [State.move, eq_comm]) rfl, fun q hq => ?_,
      h.chan_keep (by simp [Loc.chan?])⟩
    have hqp : q ≠ p := by
      rintro rfl
      rw [show s.sleeping q = true from hq] at hsl
      cases hsl
    simpa [State.move, hqp] using h.sleeping q hq

/-! ## §3  No wakeup is lost -/

/-- The channel a process waits for: on its way into `sleep`, or marked as
sleeping. -/
def Loc.waits (a : Loc χ L O) (sleeping : Bool) : Option χ :=
  match a with
  | .sleepLock c _ | .sleepDrop c _ | .mark c _ => some c
  | .sched c _ | .asleep c _ => if sleeping then some c else none
  | _ => none

/-- A process with the lock that will still wake `c`, if `Pending` says so of
the labels. -/
def Loc.promises (Pending : L → χ → Prop) : Loc χ L O → χ → Prop
  | .body l, c | .wakeDrop l, c => Pending l c
  | .wakeLock c' l, c | .scan c' l, c => c = c' ∨ Pending l c
  | _, _ => False

/-- A process sleeps on a channel only while it is blocked, and who unblocks a
channel wakes its sleepers before sleeping or leaving. `Pending l c`: from
label `l` on, a wakeup of `c` is still to come. -/
structure Signals (P : Program ι χ L O δ) (Blocked : χ → δ → Prop) (Pending : L → χ → Prop) :
    Prop where
  sleeps : ∀ {p l d c l'}, P.act p l d = .sleep c l' → Blocked c d ∧ ∀ c', ¬ Pending l c'
  goes : ∀ {p l d l' d' c}, P.act p l d = .go l' d' →
    (Pending l c ∨ (Blocked c d ∧ ¬ Blocked c d')) → Pending l' c
  wakes : ∀ {p l d c' l' c}, P.act p l d = .wakeup c' l' → Pending l c → c = c' ∨ Pending l' c
  leaves : ∀ {p l d o c}, P.act p l d = .leave o → ¬ Pending l c

/-- The same for a program whose labels come with an assertion `At` about the
data, which holds whenever a process is at the label with the lock. Nothing is
said about a process that leaves. -/
structure SignalsAt (P : Program ι χ L O δ) (At : L → δ → Prop) (Blocked : χ → δ → Prop)
    (Pending : L → χ → Prop) : Prop where
  enters : ∀ {p o l}, P.enter p o l = true → ∀ d, At l d
  sleeps : ∀ {p l d c l'}, At l d → P.act p l d = .sleep c l' →
    Blocked c d ∧ (∀ c', ¬ Pending l c') ∧ ∀ d', At l' d'
  goes : ∀ {p l d l' d'}, At l d → P.act p l d = .go l' d' →
    At l' d' ∧ ∀ c, Pending l c ∨ (Blocked c d ∧ ¬ Blocked c d') → Pending l' c
  wakes : ∀ {p l d c' l'}, At l d → P.act p l d = .wakeup c' l' →
    At l' d ∧ ∀ c, Pending l c → c = c' ∨ Pending l' c

/-- Whoever waits is blocked, or somebody with the lock is about to wake it. -/
def Awaited (Blocked : χ → δ → Prop) (Pending : L → χ → Prop) (s : State ι χ L O δ) : Prop :=
  ∀ p c, (s.loc p).waits (s.sleeping p) = some c →
    Blocked c s.data ∨ ∃ q, (s.loc q).promises Pending c

/-- What is asserted where a process is: about the data while it has the lock,
and about all data while it has not. -/
def Loc.Asserts (At : L → δ → Prop) (d : δ) : Loc χ L O → Prop
  | .out _ => True
  | .spin l | .sleepLock _ l | .sleepDrop _ l | .mark _ l | .sched _ l | .asleep _ l
  | .tidy l => ∀ d', At l d'
  | .body l | .wakeLock _ l | .scan _ l | .wakeDrop l => At l d

/-- Nobody leaves the lock with a wakeup pending that somebody waits for. -/
def LeavesNobody (P : Program ι χ L O δ) (Pending : L → χ → Prop) (s : State ι χ L O δ)
    (e : Event ι L) : Prop :=
  ∀ p l o c, e = .proc p → s.loc p = .body l → P.act p l s.data = .leave o → Pending l c →
    ∀ q, (s.loc q).waits (s.sleeping q) ≠ some c

section Awaited

variable {P : Program ι χ L O δ} {At : L → δ → Prop} {Blocked : χ → δ → Prop}
  {Pending : L → χ → Prop} {s s' : State ι χ L O δ}

variable {a : Loc χ L O}

section

omit [DecidableEq ι] [DecidableEq χ]

theorem Loc.promises.hasLock {c : χ} (h : a.promises Pending c) :
    a.hasLock = true := by
  cases a <;> first | rfl | exact h.elim

/-- Who promises something has the lock. -/
theorem Disciplined.promises_eq (h : Disciplined s) {p q : ι} {c : χ}
    (hp : (s.loc p).hasLock = true) (hq : (s.loc q).promises Pending c) : q = p := by
  have h₁ := (h.lk p).mpr hp
  have h₂ := (h.lk q).mpr hq.hasLock
  rw [h₁] at h₂
  exact (Option.some.inj h₂).symm

/-- A mark that is taken away ends a wait, at most. -/
theorem Loc.waits_mono {b b' : Bool} {c : χ} (hb : b' = true → b = true) (h : a.waits b' = some c) :
    a.waits b = some c := by
  cases b' with
  | true => rwa [hb rfl]
  | false => cases a <;> simp_all [Loc.waits]

/-- Steps that move no process and wake some, at most. -/
theorem Awaited.still (h : Awaited Blocked Pending s) (hdata : s'.data = s.data)
    (hloc : s'.loc = s.loc) (hsl : ∀ q, s'.sleeping q = true → s.sleeping q = true) :
    Awaited Blocked Pending s' := by
  intro q c hq
  rw [hloc] at hq
  rw [hdata, hloc]
  exact h q c (Loc.waits_mono (hsl q) hq)

/-- Without the lock nothing is asserted about the data. -/
theorem Loc.Asserts.of_hasLock {d d' : δ} (h : a.Asserts At d) (ha : a.hasLock = false) :
    a.Asserts At d' := by
  cases a <;> first | exact h | cases ha

end

omit [DecidableEq χ] in
/-- Steps that let nobody start to wait, and take no promise back. -/
theorem Awaited.quiet (h : Awaited Blocked Pending s) {p : ι} (hdata : s'.data = s.data)
    (hloc : s'.loc = update s.loc p a)
    (hwait : ∀ c, a.waits (s'.sleeping p) = some c → (s.loc p).waits (s.sleeping p) = some c)
    (hother : ∀ q, q ≠ p → s'.sleeping q = true → s.sleeping q = true)
    (hprom : ∀ c, (s.loc p).promises Pending c → a.promises Pending c) :
    Awaited Blocked Pending s' := by
  intro q c hq
  have hold : (s.loc q).waits (s.sleeping q) = some c := by
    by_cases hqp : q = p
    · subst hqp
      rw [hloc, update_self] at hq
      exact hwait c hq
    · rw [hloc, update_of_ne hqp] at hq
      exact Loc.waits_mono (hother q hqp) hq
  rw [hdata]
  refine (h q c hold).imp_right fun ⟨r, hr⟩ => ⟨r, ?_⟩
  by_cases hrp : r = p
  · subst hrp
    rw [hloc, update_self]
    exact hprom c hr
  · rw [hloc, update_of_ne hrp]
    exact hr

omit [DecidableEq χ] in
theorem asserts_move (h : ∀ q, (s.loc q).Asserts At s.data) {p : ι} (ha : a.Asserts At s.data)
    (q : ι) : (update s.loc p a q).Asserts At s.data := by
  by_cases hq : q = p
  · rw [hq, update_self]
    exact ha
  · rw [update_of_ne hq]
    exact h q

/-- **The assertions hold, step.** -/
theorem asserts_step (h : ∀ q, (s.loc q).Asserts At s.data) (hd : Disciplined s)
    (hsig : SignalsAt P At Blocked Pending) (hs : Step P s s') (q : ι) :
    (s'.loc q).Asserts At s'.data := by
  have hat : ∀ {p a}, s.loc p = a → a.Asserts At s.data := fun hloc => hloc ▸ h _
  cases hs with
  | enter hloc hen =>
    refine asserts_move h ?_ q
    exact hsig.enters hen
  | spin hloc _ =>
    refine asserts_move h ?_ q
    exact hat hloc s.data
  | @go p l l' d hloc hact =>
    by_cases hq : q = p
    · simp only [State.move, hq, update_self]
      exact (hsig.goes (hat hloc) hact).1
    · simp only [State.move, update_of_ne hq]
      refine (h q).of_hasLock ?_
      rw [← Bool.not_eq_true, ← hd.lk q, (hd.lk p).mpr (by rw [hloc]; rfl)]
      exact fun heq => hq (Option.some.inj heq).symm
  | sleep hloc hact =>
    refine asserts_move h ?_ q
    exact (hsig.sleeps (hat hloc) hact).2.2
  | wakeup hloc hact =>
    refine asserts_move h ?_ q
    exact (hsig.wakes (hat hloc) hact).1
  | leave hloc _ =>
    refine asserts_move h ?_ q
    trivial
  | sleepLock hloc _ | sleepDrop hloc | mark hloc | sched hloc | tidy hloc | wakeLock hloc _
  | scan hloc | wakeDrop hloc | resume hloc _ _ =>
    have hl := hat hloc
    refine asserts_move h ?_ q
    exact hl
  | grab _ | drop _ | rouse _ _ => exact h q

/-- **Step.** -/
theorem Awaited.step (h : Awaited Blocked Pending s) (hd : Disciplined s)
    (hat : ∀ q, (s.loc q).Asserts At s.data) (hsig : SignalsAt P At Blocked Pending)
    (hleave : ∀ {p l o c}, s.loc p = .body l → P.act p l s.data = .leave o →
      s' = { s with lk := none }.move p (.out o) → Pending l c →
      ∀ q, (s.loc q).waits (s.sleeping q) ≠ some c)
    (hs : Step P s s') : Awaited Blocked Pending s' := by
  have hbody : ∀ {p l}, s.loc p = .body l → At l s.data := by
    intro p l hloc
    have := hat p
    rwa [hloc] at this
  cases hs with
  | enter hloc _ | spin hloc _ | tidy hloc | wakeLock hloc _ | wakeDrop hloc | resume hloc _ _ =>
    exact h.quiet rfl rfl (by simp [Loc.waits]) (fun _ _ hq => hq)
      (by simp [hloc, Loc.promises])
  | @go p l l' d hloc hact =>
    -- only the holder of the lock can have promised anything
    intro q c hq
    have hqp : q ≠ p := by
      rintro rfl
      simp [State.move, Loc.waits] at hq
    simp only [State.move, update_of_ne hqp] at hq
    by_cases hblock : Blocked c d
    · exact .inl hblock
    · refine .inr ⟨p, ?_⟩
      simp only [State.move, update_self]
      refine (hsig.goes (hbody hloc) hact).2 c ?_
      rcases h q c hq with hb | ⟨r, hr⟩
      · exact .inr ⟨hb, hblock⟩
      · rw [hd.promises_eq (p := p) (by rw [hloc]; rfl) hr, hloc] at hr
        exact .inl hr
  | @sleep p l c l' hloc hact =>
    obtain ⟨hblock, hnone, -⟩ := hsig.sleeps (hbody hloc) hact
    intro q c' hq
    by_cases hqp : q = p
    · subst hqp
      simp only [State.move, update_self, Loc.waits, Option.some.injEq] at hq
      exact .inl (hq ▸ hblock)
    · simp only [State.move, update_of_ne hqp] at hq
      refine .inl ((h q c' hq).resolve_right fun ⟨r, hr⟩ => ?_)
      rw [hd.promises_eq (p := p) (by rw [hloc]; rfl) hr, hloc] at hr
      exact hnone c' hr
  | wakeup hloc hact =>
    refine h.quiet rfl rfl (by simp [Loc.waits]) (fun _ _ hq => hq) fun c hc => ?_
    rw [hloc] at hc
    exact (hsig.wakes (hbody hloc) hact).2 c hc
  | @leave p l o hloc hact =>
    -- who waits waits for something else than what the leaving process owed
    intro q c hq
    have hqp : q ≠ p := by
      rintro rfl
      simp [State.move, Loc.waits] at hq
    simp only [State.move, update_of_ne hqp] at hq
    refine .inl ((h q c hq).resolve_right fun ⟨r, hr⟩ => ?_)
    rw [hd.promises_eq (p := p) (by rw [hloc]; rfl) hr, hloc] at hr
    exact hleave hloc hact rfl hr q hq
  | sleepLock hloc _ | sleepDrop hloc =>
    exact h.quiet rfl rfl (by simp [hloc, Loc.waits]) (fun _ _ hq => hq)
      (by simp [hloc, Loc.promises])
  | @mark p c l hloc =>
    refine h.quiet rfl rfl (by simp [hloc, Loc.waits]) (fun q hqp hq => ?_)
      (by simp [hloc, Loc.promises])
    simpa [State.move, hqp] using hq
  | sched hloc =>
    exact h.quiet rfl rfl (fun c hc => by rw [hloc]; exact hc) (fun _ _ hq => hq)
      (by simp [hloc, Loc.promises])
  | @scan p c l hloc =>
    -- who still waits waits for another channel, or would need one of the locks
    intro q c' hq
    have hqp : q ≠ p := by
      rintro rfl
      simp [State.move, Loc.waits] at hq
    simp only [State.move, update_of_ne hqp] at hq
    have hlk := (hd.lk p).mpr (by rw [hloc]; rfl)
    have hpt := (hd.pt p).mpr (by rw [hloc]; rfl)
    have hother : (s.loc q).hasLock = false ∧ (s.loc q).hasTable = false := by
      refine ⟨?_, ?_⟩ <;> rw [← Bool.not_eq_true]
      · rw [← hd.lk q, hlk]
        exact fun heq => hqp (Option.some.inj heq).symm
      · rw [← hd.pt q, hpt]
        exact fun heq => hqp (Owner.proc.inj heq).symm
    have hasleep : ∃ l', s.loc q = .asleep c' l' ∧ s.sleeping q = true ∧ s.chan q ≠ some c := by
      cases hq' : s.loc q <;> rw [hq'] at hq hother <;>
        simp_all [Loc.waits, Loc.hasLock, Loc.hasTable]
    obtain ⟨l', hl', hsl, hchan⟩ := hasleep
    have hne : c' ≠ c := by
      rintro rfl
      exact hchan (hd.chan q c' (by rw [hl']; rfl))
    refine (h q c' (by rw [hl', hsl]; rfl)).imp_right fun ⟨r, hr⟩ => ⟨p, ?_⟩
    rw [hd.promises_eq (p := p) (by rw [hloc]; rfl) hr, hloc] at hr
    simp only [State.move, update_self]
    exact hr.resolve_left hne
  | grab _ => exact h.still rfl rfl fun _ hq => hq
  | drop _ => exact h.still rfl rfl fun _ hq => hq
  | rouse p _ =>
    refine h.still rfl rfl fun q hq => ?_
    by_cases hqp : q = p
    · simp [hqp] at hq
    · simpa [hqp] using hq

theorem stepProc_loc {p : ι} (h : stepProc P s p = some s') :
    ∃ a, s'.loc = update s.loc p a := by
  cases hloc : s.loc p <;> simp only [stepProc, hloc] at h <;>
    first
    | (cases h; exact ⟨_, rfl⟩)
    | (split at h <;> cases h <;> exact ⟨_, rfl⟩)
    | cases h

/-- A process with the lock leaves by a step of its own. -/
theorem leave_event {e : Event ι L} {p : ι} {l : L} {o : O} (hloc : s.loc p = .body l)
    (h : next P s e = some s') (hout : s'.loc p = .out o) : e = .proc p := by
  have hmoved : ∀ {q a}, s'.loc = update s.loc q a → q = p := by
    intro q a hs'
    by_contra hq
    rw [hs', update_of_ne (Ne.symm hq), hloc] at hout
    cases hout
  have hkept : s'.loc ≠ s.loc := by
    intro hs'
    rw [hs', hloc] at hout
    cases hout
  cases e with
  | proc q =>
    obtain ⟨a, ha⟩ := stepProc_loc h
    rw [hmoved ha]
  | enter q l' =>
    simp only [next] at h
    split at h
    · rename_i hq
      split at h <;> cases h
      rw [hmoved rfl, hloc] at hq
      cases hq
    · cases h
  | resume q =>
    simp only [next] at h
    split at h <;> cases h
    rename_i hq _
    rw [hmoved rfl, hloc] at hq
    cases hq
  | grab | drop | rouse =>
    simp only [next] at h
    split at h <;> cases h
    exact absurd rfl hkept

/-- **No wakeup is lost** in a run in which nobody leaves with a wakeup pending
that somebody waits for: with the lock free, whoever is marked as sleeping on a
channel is blocked. -/
theorem no_lost_wakeup_at (hsig : SignalsAt P At Blocked Pending) {d : δ} {o : O}
    {es : List (Event ι L)}
    (hrun : ((system P).guarded (LeavesNobody P Pending)).Run (initial d o) es s)
    (hfree : s.lk = none) {p : ι} (hsl : s.sleeping p = true) :
    ∃ c, s.chan p = some c ∧ Blocked c s.data := by
  have hinit : Disciplined (initial d o : State ι χ L O δ) ∧
      Awaited Blocked Pending (initial d o : State ι χ L O δ) ∧
      ∀ q, ((initial d o : State ι χ L O δ).loc q).Asserts At d :=
    ⟨initial_disciplined d o, fun p c hp => by simp [initial, Loc.waits] at hp, fun _ => trivial⟩
  obtain ⟨hd, ha, -⟩ := hrun.invariant
    (I := fun s => Disciplined s ∧ Awaited Blocked Pending s ∧ ∀ q, (s.loc q).Asserts At s.data)
    (fun s e s' hs hstep => by
      have hst := step_of_next hstep.2
      refine ⟨hs.1.step hst, hs.2.1.step hs.1 hs.2.2 hsig (fun {p l o c} hloc hact hs' => ?_) hst,
        asserts_step hs.2.2 hs.1 hsig hst⟩
      refine hstep.1 _ _ _ _ (leave_event (o := o) hloc hstep.2 ?_) hloc hact
      rw [hs']
      exact update_self ..) hinit
  obtain ⟨c, hc⟩ := hd.sleeping p hsl
  refine ⟨c, hd.chan p c hc, (ha p c ?_).resolve_right fun ⟨q, hq⟩ => ?_⟩
  · cases hp : s.loc p <;> rw [hp] at hc <;> simp_all [Loc.chan?, Loc.waits]
  · rw [(hd.lk q).mpr hq.hasLock] at hfree
    cases hfree

/-- **No wakeup is lost.** With the lock free, whoever is marked as sleeping
on a channel is blocked. -/
theorem no_lost_wakeup (hsig : Signals P Blocked Pending) {d : δ} {o : O} {es : List (Event ι L)}
    (hrun : (system P).Run (initial d o) es s) (hfree : s.lk = none) {p : ι}
    (hsl : s.sleeping p = true) : ∃ c, s.chan p = some c ∧ Blocked c s.data := by
  have hat : SignalsAt P (fun _ _ => True) Blocked Pending :=
    ⟨fun _ _ => trivial, fun _ h => ⟨(hsig.sleeps h).1, (hsig.sleeps h).2, fun _ => trivial⟩,
      fun _ h => ⟨trivial, fun _ hc => hsig.goes h hc⟩,
      fun _ h => ⟨trivial, fun _ hc => hsig.wakes h hc⟩⟩
  have hpaid : ∀ s e, LeavesNobody P Pending s e := fun s e p l o c _ _ hact hc =>
    absurd hc (hsig.leaves hact)
  exact no_lost_wakeup_at hat (hrun.to_guarded fun s e => hpaid s e) hfree hsl

end Awaited

/-! ## §4  The machine without locks -/

/-- A process is outside with what it remembers, or inside at a label. -/
inductive Place (L O : Type*) where
  | out (o : O)
  | inside (l : L)

structure Atomic (ι L O δ : Type*) where
  data : δ
  place : ι → Place L O

def Atomic.put (a : Atomic ι L O δ) (p : ι) (x : Place L O) : Atomic ι L O δ :=
  { a with place := update a.place p x }

/-- Every process makes its next move at any time: it starts an operation, or
does what the program says at its label. To sleep and to wake are no more
than a change of label here. -/
def atomic (P : Program ι χ L O δ) : System (Atomic ι L O δ) ι where
  step a p a' :=
    match a.place p with
    | .out o => ∃ l, P.enter p o l = true ∧ a' = a.put p (.inside l)
    | .inside l =>
      match P.act p l a.data with
      | .go l' d => a' = { a with data := d }.put p (.inside l')
      | .sleep _ l' | .wakeup _ l' => a' = a.put p (.inside l')
      | .leave o => a' = a.put p (.out o)

/-- The data after a move. -/
def Act.data (d : δ) : Act χ L O δ → δ
  | .go _ d' => d'
  | _ => d

/-- Where a move leads. -/
def Act.place : Act χ L O δ → Place L O
  | .go l _ | .sleep _ l | .wakeup _ l => .inside l
  | .leave o => .out o

omit [DecidableEq χ] in
theorem atomic_inside {a a' : Atomic ι L O δ} {p : ι} {l : L} (h : (atomic P).step a p a')
    (hp : a.place p = .inside l) :
    a' = { a with data := (P.act p l a.data).data a.data }.put p (P.act p l a.data).place := by
  simp only [atomic, hp] at h
  cases hx : P.act p l a.data <;> rw [hx] at h <;> exact h

def Loc.place : Loc χ L O → Place L O
  | .out o => .out o
  | .spin l | .body l | .sleepLock _ l | .sleepDrop _ l | .mark _ l | .sched _ l | .asleep _ l
  | .tidy l | .wakeLock _ l | .scan _ l | .wakeDrop l => .inside l

def State.view (s : State ι χ L O δ) : Atomic ι L O δ := ⟨s.data, fun p => (s.loc p).place⟩

omit [DecidableEq χ] in
/-- A process that moves, seen from outside. -/
theorem view_moved {p : ι} {a : Loc χ L O} (hloc : s'.loc = update s.loc p a) :
    s'.view = { s.view with data := s'.data }.put p a.place := by
  have hplace : (fun q => (update s.loc p a q).place) =
      update (fun q => (s.loc q).place) p a.place := by
    funext q
    by_cases hq : q = p
    · rw [hq, update_self, update_self]
    · rw [update_of_ne hq, update_of_ne hq]
  rw [State.view, State.view, Atomic.put, hloc, hplace]

omit [DecidableEq χ] in
/-- A process that keeps its label has not moved, seen from outside. -/
theorem view_kept {p : ι} {a : Loc χ L O} (hdata : s'.data = s.data)
    (hloc : s'.loc = update s.loc p a) (ha : a.place = (s.loc p).place) :
    s'.view = s.view := by
  rw [view_moved hloc, Atomic.put, ha, hdata]
  exact congrArg (Atomic.mk s.data) (update_eq_self p _)

/-- **Refinement, step.** A process that makes a move has the lock, or is outside. -/
theorem refines_step (hs : Step P s s') :
    s'.view = s.view ∨ ∃ p, (atomic P).step s.view p s'.view ∧
      ∀ l, (s.loc p).place = .inside l → s.loc p = .body l := by
  have hmove : ∀ {p l a}, s.loc p = .body l → s'.loc = update s.loc p a →
      (atomic P).step s.view p ({ s.view with data := s'.data }.put p a.place) →
      s'.view = s.view ∨ ∃ p, (atomic P).step s.view p s'.view ∧
        ∀ l, (s.loc p).place = .inside l → s.loc p = .body l := by
    intro p l a hloc ha hstep
    rw [view_moved ha]
    refine .inr ⟨p, hstep, fun k hk => ?_⟩
    rw [hloc] at hk ⊢
    cases hk
    rfl
  cases hs with
  | @enter p o l hloc hen =>
    have hview : (s.move p (.spin l)).view = _ := view_moved rfl
    refine .inr ⟨p, ?_, fun k hk => ?_⟩
    · rw [hview]
      simp only [atomic, State.view, hloc, Loc.place]
      exact ⟨l, hen, rfl⟩
    · rw [hloc] at hk
      cases hk
  | go hloc hact | sleep hloc hact | wakeup hloc hact | leave hloc hact =>
    refine hmove hloc rfl ?_
    simp only [atomic, State.view, hloc, Loc.place, hact]
    rfl
  | spin hloc _ | sleepLock hloc _ | sleepDrop hloc | mark hloc | sched hloc | tidy hloc
  | wakeLock hloc _ | scan hloc | wakeDrop hloc | resume hloc _ _ =>
    exact .inl (view_kept rfl rfl (by rw [hloc]; rfl))
  | grab _ | drop _ | rouse _ _ => exact .inl rfl

/-- **Refinement, run**: what the machine does is something the moves alone
could do. -/
theorem refines_atomic {es : List (Event ι L)} (hrun : (system P).Run s es s') :
    ∃ ps, (atomic P).Run s.view ps s'.view :=
  hrun.simulate fun _ _ _ hstep =>
    (refines_step (step_of_next hstep)).imp_right (Exists.imp fun _ => And.left)

/-- **Data invariant**: what every change of the data keeps holds along every
run. -/
theorem data_invariant {I : δ → Prop} (hgo : ∀ p l d l' d', I d → P.act p l d = .go l' d' → I d')
    {es : List (Event ι L)} (hrun : (system P).Run s es s') (h : I s.data) : I s'.data := by
  refine hrun.invariant (I := fun s => I s.data) (fun s e s' hs hstep => ?_) h
  cases step_of_next hstep with
  | go _ hact => exact hgo _ _ _ _ _ hs hact
  | _ => exact hs

/-! ## §5  The calls of a run

What the processes have done is read off the run itself: `records` follows each of them
by where it enters and by what it remembers when it leaves. -/

/-- A process with the calls it has completed, by the label at which each of them
entered. It is outside, or inside a call that entered at `l₀`. -/
inductive Record (L O : Type*) where
  | out (o : O) (calls : List (L × O))
  | inside (l₀ l : L) (calls : List (L × O))

namespace Record

def calls : Record L O → List (L × O)
  | out _ cs | inside _ _ cs => cs

def place : Record L O → Place L O
  | out o _ => .out o
  | inside _ l _ => .inside l

/-- The process is seen at a place. -/
def seen : Record L O → Place L O → Record L O
  | out _ cs, .out o => out o cs
  | out _ cs, .inside l => inside l l cs
  | inside l₀ _ cs, .inside l => inside l₀ l cs
  | inside l₀ _ cs, .out o => out o (cs ++ [(l₀, o)])

theorem seen_place (r : Record L O) (x : Place L O) : (r.seen x).place = x := by
  cases r <;> cases x <;> rfl

theorem seen_self {r : Record L O} {x : Place L O} (h : r.place = x) : r.seen x = r := by
  subst h
  cases r <;> rfl

end Record

/-- The state and the records after an event. -/
def record (P : Program ι χ L O δ) (x : State ι χ L O δ × (ι → Record L O)) (e : Event ι L) :
    State ι χ L O δ × (ι → Record L O) :=
  match next P x.1 e with
  | some s => (s, fun p => (x.2 p).seen (s.loc p).place)
  | none => x

/-- The records at the end of a run from `initial d o`. -/
def records (P : Program ι χ L O δ) (d : δ) (o : O) (es : List (Event ι L)) : ι → Record L O :=
  (es.foldl (record P) (initial d o, fun _ => .out o [])).2

section Rule

variable {J : δ → (ι → Record L O) → Prop}
  (henter : ∀ {d r p o l cs}, J d r → r p = .out o cs → P.enter p o l = true →
    J d (update r p (.inside l l cs)))
  (hact : ∀ {d r p l₀ l cs}, J d r → r p = .inside l₀ l cs →
    J ((P.act p l d).data d) (update r p ((Record.inside l₀ l cs).seen (P.act p l d).place)))

include henter hact

/-- **Records, step.** Only the process that moves is seen elsewhere. -/
theorem records_step {r : ι → Record L O} (hs : Step P s s')
    (hplace : ∀ p, (r p).place = (s.loc p).place) (h : J s.data r) :
    J s'.data fun p => (r p).seen (s'.loc p).place := by
  have hview : s.view = ⟨s.data, fun q => (r q).place⟩ :=
    congrArg (Atomic.mk s.data) (funext fun q => (hplace q).symm)
  have hput : ∀ {p d x}, s'.view = ⟨d, update (fun q => (r q).place) p x⟩ →
      J d (update r p ((r p).seen x)) → J s'.data fun q => (r q).seen (s'.loc q).place := by
    intro p d x hview' hJ
    have hloc : ∀ q, (s'.loc q).place = update (fun q => (r q).place) p x q :=
      congrFun (congrArg Atomic.place hview')
    have hr : (fun q => (r q).seen (s'.loc q).place) = update r p ((r p).seen x) := by
      funext q
      rw [hloc q]
      by_cases hq : q = p
      · rw [hq, update_self, update_self]
      · rw [update_of_ne hq, update_of_ne hq, Record.seen_self rfl]
    rw [hr, show s'.data = d from congrArg Atomic.data hview']
    exact hJ
  rcases refines_step hs with hsame | ⟨p, hmove, -⟩
  · have hr : (fun q => (r q).seen (s'.loc q).place) = r := funext fun q =>
      Record.seen_self ((hplace q).trans (congrFun (congrArg Atomic.place hsame) q).symm)
    rw [hr, show s'.data = s.data from congrArg Atomic.data hsame]
    exact h
  · rw [hview] at hmove
    cases hrp : r p with
    | out o cs =>
      simp only [atomic, hrp, Record.place] at hmove
      obtain ⟨l, hen, hmove⟩ := hmove
      exact hput hmove (by rw [hrp]; exact henter h hrp hen)
    | inside l₀ l cs =>
      have hplace : (r p).place = .inside l := by rw [hrp]; rfl
      exact hput (atomic_inside hmove hplace) (by rw [hrp]; exact hact h hrp)

/-- **Records, run**: what is kept when a process enters and when it makes a move holds
between the data and the records. -/
theorem records_run {es : List (Event ι L)} (hrun : (system P).Run s es s')
    {r : ι → Record L O} (hplace : ∀ p, (r p).place = (s.loc p).place) (h : J s.data r) :
    (es.foldl (record P) (s, r)).1 = s' ∧
      (∀ p, ((es.foldl (record P) (s, r)).2 p).place = (s'.loc p).place) ∧
      J s'.data (es.foldl (record P) (s, r)).2 := by
  refine hrun.history (I := fun es t => (es.foldl (record P) (s, r)).1 = t ∧
    (∀ p, ((es.foldl (record P) (s, r)).2 p).place = (t.loc p).place) ∧
    J t.data (es.foldl (record P) (s, r)).2) (fun hist t e t' ht hstep => ?_) ⟨rfl, hplace, h⟩
  obtain ⟨ht, hp, hJ⟩ := ht
  rw [List.foldl_append, List.foldl_cons, List.foldl_nil, record, ht,
    show next P t e = some t' from hstep]
  exact ⟨rfl, fun p => Record.seen_place _ _,
    records_step (J := J) henter hact (step_of_next hstep) hp hJ⟩

end Rule

/-- What process `p` has in a list of everybody's. -/
def share {α : Type*} (p : ι) (l : List (ι × α)) : List α :=
  (l.filter fun x => x.1 = p).map Prod.snd

section Share

variable {α : Type*}

theorem share_concat_self (p : ι) (l : List (ι × α)) (a : α) :
    share p (l ++ [(p, a)]) = share p l ++ [a] := by
  simp [share]

theorem share_concat_ne {p q : ι} (hne : q ≠ p) (l : List (ι × α)) (a : α) :
    share q (l ++ [(p, a)]) = share q l := by
  simp [share, Ne.symm hne]

end Share

end Monitor
