import Mathlib

/-!
# Postconditions of computations that may stop

`Post x Q` says that whatever value the computation `x : Except ε α` returns
satisfies `Q`; a computation that stops with an error satisfies every
postcondition. The rules follow the constructors of a `do` block: a returned
value, an error, a sequence, and a loop over a list (`Post.foldlM`, whose
invariant may speak of the elements already visited).

`bind_ok` is the inversion rule for the other direction, when a proof starts
from a computation that is known to have returned, and `ok_bind` puts together
a computation that returns from stages that do.
-/

namespace Outcome

variable {ε α β : Type}

/-- Every value `x` can return satisfies `Q`. -/
def Post (x : Except ε α) (Q : α → Prop) : Prop := ∀ a, x = .ok a → Q a

theorem Post.ok {a : α} {Q : α → Prop} (h : Q a) : Post (.ok a : Except ε α) Q := by
  intro b hb
  cases hb
  exact h

theorem Post.mono {x : Except ε α} {P Q : α → Prop} (h : Post x P)
    (hPQ : ∀ a, P a → Q a) : Post x Q := fun a ha => hPQ a (h a ha)

/-- A computation that returned `b` after a bind returned at both stages. -/
theorem bind_ok {x : Except ε α} {f : α → Except ε β} {b : β}
    (h : x >>= f = .ok b) : ∃ a, x = .ok a ∧ f a = .ok b := by
  cases x with
  | error e => cases h
  | ok a => exact ⟨a, rfl, h⟩

theorem bind_of_ok (a : α) (f : α → Except ε β) : ((.ok a : Except ε α) >>= f) = f a := rfl

theorem ok_bind {x : Except ε α} {f : α → Except ε β} {a : α} {b : β} (hx : x = .ok a)
    (hf : f a = .ok b) : x >>= f = .ok b := by
  rw [hx]
  exact hf

theorem Post.bind {x : Except ε α} {f : α → Except ε β} {P : α → Prop}
    {Q : β → Prop} (hx : Post x P) (hf : ∀ a, P a → Post (f a) Q) :
    Post (x >>= f) Q := by
  intro b hb
  obtain ⟨a, ha, hfa⟩ := bind_ok hb
  exact hf a (hx a ha) b hfa

variable {f : β → α → Except ε β}

/-- **Loop rule**: the invariant may mention the elements already visited. -/
theorem Post.foldlM_from {I : List α → β → Prop}
    (hstep : ∀ seen x b, I seen b → Post (f b x) (I (seen ++ [x]))) :
    ∀ (xs seen : List α) (b : β), I seen b → Post (xs.foldlM f b) (I (seen ++ xs))
  | [], seen, b, h₀ => by
    rw [List.append_nil]
    exact Post.ok h₀
  | x :: xs, seen, b, h₀ => by
    rw [List.foldlM_cons]
    refine Post.bind (hstep seen x b h₀) fun b' hb' => ?_
    have := Post.foldlM_from hstep xs (seen ++ [x]) b' hb'
    rwa [List.append_assoc, List.singleton_append] at this

theorem Post.foldlM {I : List α → β → Prop} {xs : List α} {b : β} (h₀ : I [] b)
    (hstep : ∀ seen x b, I seen b → Post (f b x) (I (seen ++ [x]))) :
    Post (xs.foldlM f b) (I xs) :=
  Post.foldlM_from hstep xs [] b h₀

/-- The loop rule for an invariant of the accumulated value alone. -/
theorem Post.foldlM_inv {I : β → Prop} {xs : List α} {b : β} (h₀ : I b)
    (hstep : ∀ x b, I b → Post (f b x) I) : Post (xs.foldlM f b) I :=
  Post.foldlM (I := fun _ b => I b) h₀ fun _ x b h => hstep x b h

/-! Computations with a state: what a sequence does, by what its first part does. -/

section State

variable {σ : Type} {x : StateT σ (Except ε) α} {f : α → StateT σ (Except ε) β} {s s' : σ} {a : α}

theorem run_bind_ok (h : x s = .ok (a, s')) : (x >>= f) s = f a s' := by
  change (x s >>= fun y => f y.1 y.2) = _
  rw [h]
  rfl

theorem run_bind_error {e : ε} (h : x s = .error e) : (x >>= f) s = .error e := by
  change (x s >>= fun y => f y.1 y.2) = _
  rw [h]
  rfl

end State

end Outcome
