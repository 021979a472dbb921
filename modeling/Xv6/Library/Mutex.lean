import Xv6.Library.Monitor

/-!
# What holds under the lock of a monitor

An operation of a monitor changes the data in several steps, and between them
the data need not be in order: that they are is what the lock is for. Here an
invariant `I` is to hold while nobody has the lock, and an assertion `At p l`
while process `p` has it and is at label `l`. Both speak of the data and of
where the processes are (`Atomic`).

`Locked` lists what has to be shown, one condition for each thing a process can
do; `locked_run` concludes that `I` and `At` hold along every run. A process may
enter while another one has the lock, so both must survive that; `G` is what is
known about the processes that enter.
-/

namespace Monitor

open Transition Function

variable {ι χ L O δ : Type*}

/-- The conditions on `I` and `At`. -/
structure Locked [DecidableEq ι] (P : Program ι χ L O δ)
    (G : Atomic ι L O δ → ι → L → Prop) (I : Atomic ι L O δ → Prop)
    (At : ι → L → Atomic ι L O δ → Prop) : Prop where
  enter : ∀ {a p o l}, I a → a.place p = .out o → P.enter p o l = true → G a p l →
    I (a.put p (.inside l))
  enterAt : ∀ {a q m p o l}, At q m a → q ≠ p → a.place q = .inside m → a.place p = .out o →
    P.enter p o l = true → G a p l → At q m (a.put p (.inside l))
  take : ∀ {a p l}, I a → a.place p = .inside l → At p l a
  go : ∀ {a p l l' d}, At p l a → a.place p = .inside l → P.act p l a.data = .go l' d →
    At p l' ({ a with data := d }.put p (.inside l'))
  sleep : ∀ {a p l c l'}, At p l a → a.place p = .inside l → P.act p l a.data = .sleep c l' →
    I (a.put p (.inside l'))
  wakeup : ∀ {a p l c l'}, At p l a → a.place p = .inside l → P.act p l a.data = .wakeup c l' →
    At p l' (a.put p (.inside l'))
  leave : ∀ {a p l o}, At p l a → a.place p = .inside l → P.act p l a.data = .leave o →
    I (a.put p (.out o))

/-- What holds when the holder of the lock is at `x`: once it is on its way to
sleep, its work is done. -/
def Loc.Holds (I : Prop) (At : L → Prop) : Loc χ L O → Prop
  | .body l | .wakeLock _ l | .scan _ l | .wakeDrop l => At l
  | _ => I

/-- `I` while the lock is free, `At` while a process has it. -/
def Held (I : Atomic ι L O δ → Prop) (At : ι → L → Atomic ι L O δ → Prop)
    (s : State ι χ L O δ) : Prop :=
  match s.lk with
  | none => I s.view
  | some p => (s.loc p).Holds (I s.view) fun l => At p l s.view

/-- Who enters is known to `G`. -/
def Entering (G : Atomic ι L O δ → ι → L → Prop) (s : State ι χ L O δ) (e : Event ι L) : Prop :=
  ∀ p l, e = .enter p l → G s.view p l

instance Entering.decidable {G : Atomic ι L O δ → ι → L → Prop} [∀ a p l, Decidable (G a p l)]
    (s : State ι χ L O δ) : (e : Event ι L) → Decidable (Entering G s e)
  | .enter p l => decidable_of_iff (G s.view p l)
      ⟨fun h _ _ he => by cases he; exact h, fun h => h p l rfl⟩
  | .proc _ | .grab | .drop | .rouse _ | .resume _ => .isTrue nofun

section Locked

variable {P : Program ι χ L O δ} {G : Atomic ι L O δ → ι → L → Prop}
  {I : Atomic ι L O δ → Prop} {At : ι → L → Atomic ι L O δ → Prop} {s s' : State ι χ L O δ}

theorem Held.free (h : Held I At s) (hlk : s.lk = none) : I s.view := by
  rw [Held, hlk] at h
  exact h

theorem Held.taken (h : Held I At s) (hd : Disciplined s) {p : ι} (hp : (s.loc p).hasLock = true) :
    (s.loc p).Holds (I s.view) fun l => At p l s.view := by
  rw [Held, (hd.lk p).mpr hp] at h
  exact h

theorem held_free (hlk : s.lk = none) (h : I s.view) : Held I At s := by
  rw [Held, hlk]
  exact h

theorem held_taken {p : ι} (hlk : s.lk = some p)
    (h : (s.loc p).Holds (I s.view) fun l => At p l s.view) : Held I At s := by
  rw [Held, hlk]
  exact h

/-- Steps that are not seen from outside, and do not move the holder. -/
theorem Held.still (h : Held I At s) (hview : s'.view = s.view) (hlk : s'.lk = s.lk)
    (hloc : ∀ q, s.lk = some q → s'.loc q = s.loc q) : Held I At s' := by
  cases hl : s.lk with
  | none => exact held_free (hlk.trans hl) (hview ▸ h.free hl)
  | some q =>
    refine held_taken (hlk.trans hl) ?_
    rw [hview, hloc q hl]
    rw [Held, hl] at h
    exact h

variable [DecidableEq ι]

/-- A process without the lock moves, and is not seen to. -/
theorem Held.quiet (h : Held I At s) (hd : Disciplined s) {p : ι} {a : Loc χ L O}
    (hdata : s'.data = s.data) (hlk : s'.lk = s.lk) (hloc : s'.loc = update s.loc p a)
    (ha : a.place = (s.loc p).place) (hp : (s.loc p).hasLock = false) : Held I At s' := by
  refine h.still (view_kept hdata hloc ha) hlk fun q hq => ?_
  rw [hloc, update_of_ne]
  rintro rfl
  rw [hd.lk q, hp] at hq
  cases hq

/-- The holder moves inside `sleep` or `wakeup`. -/
theorem Held.inner (h : Held I At s) (hd : Disciplined s) {p : ι} {a : Loc χ L O}
    (hdata : s'.data = s.data) (hlk : s'.lk = s.lk) (hloc : s'.loc = update s.loc p a)
    (ha : a.place = (s.loc p).place) (hp : (s.loc p).hasLock = true)
    (hholds : ∀ I At, (s.loc p).Holds I At → a.Holds I At) : Held I At s' := by
  refine held_taken (hlk.trans ((hd.lk p).mpr hp)) ?_
  rw [view_kept hdata hloc ha, hloc, update_self]
  exact hholds _ _ (h.taken hd hp)

variable [DecidableEq χ]

/-- A process starts an operation by an event of its own. -/
theorem enter_event {e : Event ι L} {p : ι} {l : L} {o : O} (hloc : s.loc p = .out o)
    (h : next P s e = some s') (hspin : s'.loc p = .spin l) : e = .enter p l := by
  have hmoved : ∀ {q a}, s'.loc = update s.loc q a → q = p := by
    intro q a hs'
    by_contra hq
    rw [hs', update_of_ne (Ne.symm hq), hloc] at hspin
    cases hspin
  have hkept : s'.loc ≠ s.loc := by
    intro hs'
    rw [hs', hloc] at hspin
    cases hspin
  cases e with
  | enter q l' =>
    simp only [next] at h
    split at h
    · split at h <;> cases h
      obtain rfl := hmoved rfl
      simp only [State.move, update_self, Loc.spin.injEq] at hspin
      rw [hspin]
    · cases h
  | proc q =>
    have h' : stepProc P s q = some s' := h
    obtain ⟨a, ha⟩ := stepProc_loc h'
    obtain rfl := hmoved ha
    rw [stepProc, hloc] at h'
    cases h'
  | resume q =>
    simp only [next] at h
    split at h <;> cases h
    rename_i hq _
    rw [hmoved rfl, hloc] at hq
    cases hq
  | grab | drop | rouse =>
    simp only [next] at h
    split at h <;> cases h
    exact absurd rfl hkept

/-- **Step.** -/
theorem Held.step (hP : Locked P G I At) (h : Held I At s) (hd : Disciplined s)
    (hG : ∀ p o l, s.loc p = .out o → s' = s.move p (.spin l) → G s.view p l)
    (hs : Step P s s') : Held I At s' := by
  have hplace : ∀ {p a}, s.loc p = a → s.view.place p = a.place := fun hloc => hloc ▸ rfl
  -- the assertion of a process in its body
  have hbody : ∀ {p l}, s.loc p = .body l → s.lk = some p ∧ At p l s.view := fun {p l} hloc => by
    have hlk : (s.loc p).hasLock = true := by rw [hloc]; rfl
    have := h.taken hd hlk
    rw [hloc] at this
    exact ⟨(hd.lk p).mpr hlk, this⟩
  cases hs with
  | @enter p o l hloc hen =>
    have hg := hG p o l hloc rfl
    have hview : (s.move p (.spin l)).view = _ := view_moved rfl
    cases hlk : s.lk with
    | none =>
      refine held_free hlk ?_
      rw [hview]
      exact hP.enter (h.free hlk) (hplace hloc) hen hg
    | some q =>
      have hq := (hd.lk q).mp hlk
      have hqp : q ≠ p := by
        rintro rfl
        rw [hloc] at hq
        cases hq
      have hold := h.taken hd hq
      refine held_taken (p := q) hlk ?_
      rw [hview]
      simp only [State.move, update_of_ne hqp]
      cases hlq : s.loc q with
      | body m | wakeLock c m | scan c m | wakeDrop m =>
        rw [hlq] at hold
        exact hP.enterAt hold hqp (hplace hlq) (hplace hloc) hen hg
      | _ =>
        rw [hlq] at hold
        exact hP.enter hold (hplace hloc) hen hg
  | @spin p l hloc hlk =>
    refine held_taken (p := p) rfl ?_
    have hview : ({ s with lk := some p }.move p (.body l)).view = s.view :=
      view_kept rfl rfl (by rw [hloc]; rfl)
    rw [hview]
    simp only [State.move, update_self]
    exact hP.take (h.free hlk) (hplace hloc)
  | @go p l l' d hloc hact =>
    obtain ⟨hlk, hat⟩ := hbody hloc
    have hview : ({ s with data := d }.move p (.body l')).view = _ := view_moved (s := s) rfl
    refine held_taken (p := p) hlk ?_
    rw [hview]
    simp only [State.move, update_self]
    exact hP.go hat (hplace hloc) hact
  | @sleep p l c l' hloc hact =>
    obtain ⟨hlk, hat⟩ := hbody hloc
    have hview : (s.move p (.sleepLock c l')).view = _ := view_moved rfl
    refine held_taken (p := p) hlk ?_
    rw [hview]
    simp only [State.move, update_self]
    exact hP.sleep hat (hplace hloc) hact
  | @wakeup p l c l' hloc hact =>
    obtain ⟨hlk, hat⟩ := hbody hloc
    have hview : (s.move p (.wakeLock c l')).view = _ := view_moved rfl
    refine held_taken (p := p) hlk ?_
    rw [hview]
    simp only [State.move, update_self]
    exact hP.wakeup hat (hplace hloc) hact
  | @leave p l o hloc hact =>
    obtain ⟨-, hat⟩ := hbody hloc
    have hview : ({ s with lk := none }.move p (.out o)).view = _ := view_moved (s := s) rfl
    refine held_free rfl ?_
    rw [hview]
    exact hP.leave hat (hplace hloc) hact
  | @sleepDrop p c l hloc =>
    have hhas : (s.loc p).hasLock = true := by rw [hloc]; rfl
    have hI := h.taken hd hhas
    rw [hloc] at hI
    refine held_free rfl ?_
    have hview : ({ s with lk := none }.move p (.mark c l)).view = s.view :=
      view_kept rfl rfl (by rw [hloc]; rfl)
    rw [hview]
    exact hI
  | sleepLock hloc _ | wakeLock hloc _ | scan hloc | wakeDrop hloc =>
    refine h.inner hd rfl rfl rfl (by rw [hloc]; rfl) (by rw [hloc]; rfl) fun I At hh => ?_
    rw [hloc] at hh
    exact hh
  | mark hloc | sched hloc | tidy hloc | resume hloc _ _ =>
    exact h.quiet hd rfl rfl rfl (by rw [hloc]; rfl) (by rw [hloc]; rfl)
  | grab _ | drop _ | rouse _ _ => exact h.still rfl rfl fun _ _ => rfl

/-- **Run.** -/
theorem locked_run (hP : Locked P G I At) {d : δ} {o : O} {es : List (Event ι L)}
    (hrun : ((system P).guarded (Entering G)).Run (initial d o) es s)
    (h₀ : I (initial d o : State ι χ L O δ).view) : Disciplined s ∧ Held I At s := by
  refine hrun.invariant (I := fun s => Disciplined s ∧ Held I At s) (fun s e s' hs hstep => ?_)
    ⟨initial_disciplined d o, held_free rfl h₀⟩
  have hst := step_of_next hstep.2
  refine ⟨hs.1.step hst, hs.2.step hP hs.1 (fun p o l hloc hs' => ?_) hst⟩
  refine hstep.1 p l (enter_event hloc hstep.2 ?_)
  rw [hs']
  exact update_self ..

end Locked

end Monitor
