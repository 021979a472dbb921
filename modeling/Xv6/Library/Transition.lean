import Mathlib

/-!
# Labelled transition systems and the invariants of their runs

A system is a step relation `step s e s'`: in state `s` the event `e` may
happen and lead to `s'`. A run carries its history, the list of its events,
oldest first, so a property may speak of the state alone or of the state
together with everything that led to it.

Four rules do the inductions of a development built on this file:

- `Run.invariant` — an invariant of single steps holds along every run;
- `Run.history` — the same for a relation between histories and states;
- `Run.simulate` — a simulation of single steps simulates every run;
- `Run.refines` — the same with an invariant, and event by event.

`guarded` restricts a system to the steps that meet a condition on the state
*before* the step. A theorem about the runs of `guarded T g` is a theorem
about the runs of `T` all of whose steps meet `g`.
-/

/-! The numerals of the thread types `Fin 1`, `Fin 2`, `Fin 3`. -/

instance neZero_one : NeZero 1 := ⟨by decide⟩
instance neZero_two : NeZero 2 := ⟨by decide⟩
instance neZero_three : NeZero 3 := ⟨by decide⟩

namespace Transition

variable {σ ε : Type*}

/-- A labelled transition system. -/
structure System (σ ε : Type*) where
  step : σ → ε → σ → Prop

namespace System

variable (T : System σ ε)

/-- `T.Run s es s'`: from `s` the events `es`, in this order, lead to `s'`. -/
inductive Run (s : σ) : List ε → σ → Prop where
  | nil : Run s [] s
  | snoc {es : List ε} {e : ε} {s' s'' : σ} :
      Run s es s' → T.step s' e s'' → Run s (es ++ [e]) s''

/-- The steps of `T` whose source state and event meet `g`. -/
def guarded (g : σ → ε → Prop) : System σ ε where
  step s e s' := g s e ∧ T.step s e s'

variable {T}

variable {s s' : σ} {es : List ε}

/-- **Invariant rule**: what one step preserves, a whole run preserves. -/
theorem Run.invariant {I : σ → Prop} (hstep : ∀ s e s', I s → T.step s e s' → I s')
    (hrun : T.Run s es s') (h₀ : I s) : I s' := by
  induction hrun with
  | nil => exact h₀
  | snoc _ hlast ih => exact hstep _ _ _ ih hlast

/-- **History rule**: a relation between histories and states, kept when one
event is appended, holds at the end of every run. -/
theorem Run.history {I : List ε → σ → Prop}
    (hstep : ∀ hist s e s', I hist s → T.step s e s' → I (hist ++ [e]) s') (hrun : T.Run s es s')
    (h₀ : I [] s) : I es s' := by
  induction hrun with
  | nil => exact h₀
  | snoc _ hlast ih => exact hstep _ _ _ _ ih hlast

/-- One step is a run of length one. -/
theorem Run.single {e : ε} (h : T.step s e s') : T.Run s [e] s' :=
  (Run.snoc Run.nil h : T.Run s ([] ++ [e]) s')

/-- Runs compose. -/
theorem Run.append {s'' : σ} {fs : List ε} (h₁ : T.Run s es s') (h₂ : T.Run s' fs s'') :
    T.Run s (es ++ fs) s'' := by
  induction h₂ with
  | nil => simpa using h₁
  | snoc _ hlast ih =>
    rw [← List.append_assoc]
    exact Run.snoc ih hlast

/-- The last step of a run. -/
theorem Run.last {e : ε} (h : T.Run s (es ++ [e]) s') :
    ∃ s₁, T.Run s es s₁ ∧ T.step s₁ e s' := by
  generalize hl : es ++ [e] = l at h
  cases h with
  | nil => exact absurd hl (by simp)
  | snoc hrun hlast =>
    obtain ⟨rfl, he⟩ := List.append_inj' hl rfl
    obtain rfl := List.singleton_inj.mp he
    exact ⟨_, hrun, hlast⟩

/-- A run stops after any of its events. -/
theorem Run.of_append {l r : List ε} (h : T.Run s (l ++ r) s') :
    ∃ s₁, T.Run s l s₁ ∧ T.Run s₁ r s' := by
  induction r using List.reverseRecOn generalizing s' with
  | nil =>
    rw [List.append_nil] at h
    exact ⟨s', h, .nil⟩
  | append_singleton r e ih =>
    rw [← List.append_assoc] at h
    obtain ⟨s₂, hrun, hlast⟩ := h.last
    obtain ⟨s₁, hl, hr⟩ := ih hrun
    exact ⟨s₁, hl, hr.snoc hlast⟩

/-- The states around an event of a run. -/
theorem Run.split {l r : List ε} {e : ε} (h : T.Run s (l ++ e :: r) s') :
    ∃ s₁ s₂, T.Run s l s₁ ∧ T.step s₁ e s₂ ∧ T.Run s₂ r s' := by
  rw [← List.singleton_append, ← List.append_assoc] at h
  obtain ⟨s₂, hfirst, hrest⟩ := h.of_append
  obtain ⟨s₁, hl, he⟩ := hfirst.last
  exact ⟨s₁, s₂, hl, he, hrest⟩

/-- A run of a guarded system is a run of the system. -/
theorem Run.of_guarded {g : σ → ε → Prop} (h : (T.guarded g).Run s es s') : T.Run s es s' := by
  induction h with
  | nil => exact Run.nil
  | snoc _ hlast ih => exact Run.snoc ih hlast.2

/-- A guard that always holds excludes no run. -/
theorem Run.to_guarded {g : σ → ε → Prop} (hg : ∀ s e, g s e) (h : T.Run s es s') :
    (T.guarded g).Run s es s' := by
  induction h with
  | nil => exact Run.nil
  | snoc _ hlast ih => exact Run.snoc ih ⟨hg _ _, hlast⟩

/-- A weaker guard allows more runs. -/
theorem Run.mono_guard {g g' : σ → ε → Prop} (hgg : ∀ s e, g s e → g' s e)
    (h : (T.guarded g).Run s es s') :
    (T.guarded g').Run s es s' := by
  induction h with
  | nil => exact Run.nil
  | snoc _ hlast ih => exact Run.snoc ih ⟨hgg _ _ hlast.1, hlast.2⟩

/-- A system that a function runs: in each state an event leads to one state
or cannot happen. -/
def ofNext (next : σ → ε → Option σ) : System σ ε where
  step s e s' := next s e = some s'

/-- The same function where the guard holds. -/
def guardedNext (next : σ → ε → Option σ) (g : σ → ε → Prop) [∀ s e, Decidable (g s e)]
    (s : σ) (e : ε) : Option σ :=
  if g s e then next s e else none

/-- Events that can all happen, one after the other, are a run. -/
theorem run_ofNext {next : σ → ε → Option σ} {g : σ → ε → Prop} [∀ s e, Decidable (g s e)] :
    ∀ {es : List ε} {s s' : σ}, es.foldlM (guardedNext next g) s = some s' →
      ((ofNext next).guarded g).Run s es s'
  | [], s, s', h => by
    cases h
    exact .nil
  | e :: es, s, s', h => by
    rw [List.foldlM_cons] at h
    obtain ⟨s₁, hstep, hrest⟩ := Option.bind_eq_some_iff.mp h
    have hfirst : ((ofNext next).guarded g).step s e s₁ := by
      rw [guardedNext] at hstep
      split at hstep
      · rename_i hg
        exact ⟨hg, hstep⟩
      · cases hstep
    exact (Run.single hfirst).append (run_ofNext hrest)

/-- **Simulation**: when every step of `T` is a step of `A` or none in an
abstract view of the states, runs of `T` are runs of `A` in that view. -/
theorem Run.simulate {α η : Type*} {A : System α η} {view : σ → α}
    (hsim : ∀ s e s', T.step s e s' → view s' = view s ∨ ∃ a, A.step (view s) a (view s'))
    (hrun : T.Run s es s') :
    ∃ as, A.Run (view s) as (view s') := by
  induction hrun with
  | nil => exact ⟨[], .nil⟩
  | snoc _ hlast ih =>
    obtain ⟨as, has⟩ := ih
    rcases hsim _ _ _ hlast with heq | ⟨a, ha⟩
    · exact ⟨as, heq ▸ has⟩
    · exact ⟨as ++ [a], has.snoc ha⟩

/-- **Refinement**: when every step of `T` from a state that meets an invariant
is the same step of `A` in an abstract view, and keeps the invariant, runs of
`T` are the same runs of `A`. -/
theorem Run.refines {α : Type*} {A : System α ε} {I : σ → Prop} {view : σ → α}
    (hstep : ∀ s e s', I s → T.step s e s' → I s' ∧ A.step (view s) e (view s'))
    (hrun : T.Run s es s') (h₀ : I s) :
    I s' ∧ A.Run (view s) es (view s') := by
  induction hrun with
  | nil => exact ⟨h₀, .nil⟩
  | snoc _ hlast ih =>
    obtain ⟨hI, hview⟩ := hstep _ _ _ ih.1 hlast
    exact ⟨hI, ih.2.snoc hview⟩

end System

end Transition
