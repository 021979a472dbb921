import Mathlib

/-!
# Programs over operations

A program is a tree: it asks for an operation, and goes on with the answer
(`Prog`). What a program may do is told by a ledger (`Ledger`): which operations it
may ask for in which position, which answers may come, and the position after
them. A program that keeps to the ledger whatever the answers are, and ends in a
position of `Q`, is `Safe`; a program is safe if its parts are (`safe_bind`), and what
is safe keeps to the ledger along every trace (`Safe.trace`). Without a ledger, what
matters is which operations a program asks for at all (`Asks`).

A handler answers every operation from a state, or stops. `run` is what a program
does under a handler, and `Ends` says how that ends; the rules of §3 go through a
program part by part.
-/

/-- A program with operations `o : Op` that are answered in `Res o`. -/
inductive Prog (Op : Type) (Res : Op → Type) (α : Type) where
  | ret (a : α)
  | op (o : Op) (k : Res o → Prog Op Res α)

/-- What may be asked for, what may be answered, and what is then the case. -/
structure Ledger (Op : Type) (Res : Op → Type) (γ : Type) where
  need : Op → γ → Prop
  can : (o : Op) → γ → Res o → Prop
  after : (o : Op) → γ → Res o → γ

namespace Prog

variable {Op : Type} {Res : Op → Type} {α β γ : Type}

def bind : Prog Op Res α → (α → Prog Op Res β) → Prog Op Res β
  | ret a, f => f a
  | op o k, f => op o fun r => (k r).bind f

instance : Monad (Prog Op Res) where
  pure := ret
  bind := bind

/-- One operation. -/
def perform (o : Op) : Prog Op Res (Res o) := op o ret

/-! ## §1  Keeping to a ledger -/

variable {L : Ledger Op Res γ}

/-- From position `g` the program keeps to the ledger, and ends as `Q` says. -/
def Safe (L : Ledger Op Res γ) : Prog Op Res α → γ → (α → γ → Prop) → Prop
  | ret a, g, Q => Q a g
  | op o k, g, Q => L.need o g ∧ ∀ r, L.can o g r → (k r).Safe L (L.after o g r) Q

/-- **One part after the other.** -/
theorem safe_bind {f : α → Prog Op Res β} {Q : β → γ → Prop} : ∀ {p : Prog Op Res α} {g : γ},
    Safe L p g (fun a g' => Safe L (f a) g' Q) → Safe L (p >>= f) g Q
  | ret _, _, h => h
  | op _ _, _, ⟨hneed, hrest⟩ => ⟨hneed, fun r hr => safe_bind (hrest r hr)⟩

theorem safe_perform {o : Op} {g : γ} {Q : Res o → γ → Prop} (hneed : L.need o g)
    (h : ∀ r, L.can o g r → Q r (L.after o g r)) : Safe L (perform o) g Q :=
  ⟨hneed, h⟩

theorem Safe.mono {Q Q' : α → γ → Prop} (hQ : ∀ a g, Q a g → Q' a g) :
    ∀ {p : Prog Op Res α} {g : γ}, Safe L p g Q → Safe L p g Q'
  | ret _, _, h => hQ _ _ h
  | op _ _, _, ⟨hneed, hrest⟩ => ⟨hneed, fun r hr => (hrest r hr).mono hQ⟩

/-- What the first part leaves behind is what the second starts from. -/
theorem Safe.bind {p : Prog Op Res α} {f : α → Prog Op Res β} {g : γ} {P : α → γ → Prop}
    {Q : β → γ → Prop} (h : Safe L p g P) (hf : ∀ a g', P a g' → Safe L (f a) g' Q) :
    Safe L (p >>= f) g Q :=
  safe_bind (h.mono hf)

/-- The position after the first part is known. -/
theorem Safe.andThen {p : Prog Op Res α} {f : α → Prog Op Res β} {g g₁ : γ} {Q : β → γ → Prop}
    (h : Safe L p g fun _ g' => g' = g₁) (hf : ∀ a, Safe L (f a) g₁ Q) : Safe L (p >>= f) g Q :=
  h.bind fun a _ hg => hg ▸ hf a

theorem safe_ite {c : Prop} [Decidable c] {p p' : Prog Op Res α} {g : γ} {Q : α → γ → Prop}
    (hpos : c → Safe L p g Q) (hneg : ¬c → Safe L p' g Q) : Safe L (if c then p else p') g Q := by
  split
  · exact hpos ‹_›
  · exact hneg ‹_›

/-! ## §2  Traces -/

/-- The operations of one execution, with their answers, and what it returns. -/
inductive Trace : Prog Op Res α → List ((o : Op) × Res o) → α → Prop where
  | ret {a : α} : Trace (ret a) [] a
  | op {o : Op} {k : Res o → Prog Op Res α} {r : Res o} {tr : List ((o : Op) × Res o)} {a : α}
      (h : Trace (k r) tr a) : Trace (op o k) (⟨o, r⟩ :: tr) a

/-- Operation `o` is asked for in some execution, finished or not. -/
inductive Asks : Prog Op Res α → Op → Prop where
  | here {o : Op} {k : Res o → Prog Op Res α} : Asks (op o k) o
  | later {o o' : Op} {k : Res o → Prog Op Res α} (r : Res o) (h : Asks (k r) o') :
      Asks (op o k) o'

/-- Whatever the answers, nothing outside `S` is asked for. -/
def AsksOnly (S : Op → Prop) (p : Prog Op Res α) : Prop := ∀ o, p.Asks o → S o

section AsksOnly

variable {S : Op → Prop}

theorem asksOnly_pure (a : α) : AsksOnly S (pure a : Prog Op Res α) := nofun

theorem asksOnly_perform {o : Op} (h : S o) : AsksOnly S (perform o : Prog Op Res (Res o)) := by
  intro o' hask
  cases hask with
  | here => exact h
  | later r hask => cases hask

theorem AsksOnly.bind {f : α → Prog Op Res β} : ∀ {p : Prog Op Res α}, AsksOnly S p →
    (∀ a, AsksOnly S (f a)) → AsksOnly S (p >>= f)
  | ret a, _, hf => hf a
  | op o k, hp, hf => by
    intro o' h
    cases h with
    | here => exact hp o .here
    | later r h => exact AsksOnly.bind (fun o'' h' => hp o'' (.later r h')) hf o' h

theorem asksOnly_ite {c : Prop} [Decidable c] {p p' : Prog Op Res α} (hpos : AsksOnly S p)
    (hneg : AsksOnly S p') : AsksOnly S (if c then p else p') := by
  split
  · exact hpos
  · exact hneg

end AsksOnly

/-- The operations of the execution in which `ans` answers, up to the first it does not
answer. -/
def path (ans : (o : Op) → Option (Res o)) : Prog Op Res α → List Op
  | ret _ => []
  | op o k => o :: match ans o with
      | some r => (k r).path ans
      | none => []

theorem asks_of_mem_path {ans : (o : Op) → Option (Res o)} {o' : Op} :
    ∀ {p : Prog Op Res α}, o' ∈ p.path ans → p.Asks o'
  | ret _, h => nomatch h
  | op o k, h => by
    rw [path] at h
    rcases List.mem_cons.mp h with rfl | h
    · exact .here
    · split at h
      · exact .later _ (asks_of_mem_path h)
      · cases h

end Prog

namespace Ledger

variable {Op : Type} {Res : Op → Type} {γ : Type}

/-- Every answer of the trace may come, and leads from `g` to the last position. -/
def Follows (L : Ledger Op Res γ) : γ → List ((o : Op) × Res o) → γ → Prop
  | g, [], g' => g' = g
  | g, ⟨o, r⟩ :: tr, g' => L.can o g r ∧ L.Follows (L.after o g r) tr g'

/-- Every operation of the trace may be asked for. -/
def Keeps (L : Ledger Op Res γ) : γ → List ((o : Op) × Res o) → Prop
  | _, [] => True
  | g, ⟨o, r⟩ :: tr => L.need o g ∧ L.Keeps (L.after o g r) tr

end Ledger

/-- **A safe program keeps to the ledger along every trace.** -/
theorem Prog.Safe.trace {Op : Type} {Res : Op → Type} {α γ : Type} {L : Ledger Op Res γ}
    {p : Prog Op Res α} {Q : α → γ → Prop} {tr : List ((o : Op) × Res o)} {a : α}
    (ht : p.Trace tr a) : ∀ {g g' : γ}, p.Safe L g Q → L.Follows g tr g' → L.Keeps g tr ∧ Q a g' := by
  induction ht with
  | ret =>
    intro g g' hsafe hfollows
    cases hfollows
    exact ⟨trivial, hsafe⟩
  | op h ih =>
    intro g g' hsafe hfollows
    obtain ⟨hneed, hrest⟩ := hsafe
    obtain ⟨hcan, hfollows⟩ := hfollows
    obtain ⟨hkeeps, hQ⟩ := ih (hrest _ hcan) hfollows
    exact ⟨⟨hneed, hkeeps⟩, hQ⟩

/-! ## §3  Handlers -/

namespace Prog

variable {Op : Type} {Res : Op → Type} {α β σ ε : Type}

/-- Answers to operations, by a state, or a reason to stop. -/
abbrev Handler (Op : Type) (Res : Op → Type) (σ ε : Type) : Type :=
  (o : Op) → σ → Except ε (Res o × σ)

variable {h : Handler Op Res σ ε}

def run (h : Handler Op Res σ ε) : Prog Op Res α → σ → Except ε (α × σ)
  | ret a, s => .ok (a, s)
  | op o k, s => h o s >>= fun x => (k x.1).run h x.2

theorem run_bind (f : α → Prog Op Res β) : ∀ (p : Prog Op Res α) (s : σ),
    (p >>= f).run h s = p.run h s >>= fun x => (f x.1).run h x.2
  | ret _, _ => rfl
  | op o k, s => by
    change (h o s >>= fun x => (k x.1 >>= f).run h x.2) =
      (h o s >>= fun x => (k x.1).run h x.2) >>= fun x => (f x.1).run h x.2
    cases h o s with
    | error e => rfl
    | ok x => exact run_bind f (k x.1) x.2

/-- From `s` the program returns as `Q` says, or stops as `E` says. -/
def Ends (h : Handler Op Res σ ε) (p : Prog Op Res α) (s : σ) (Q : α → σ → Prop)
    (E : ε → Prop) : Prop :=
  match p.run h s with
  | .ok x => Q x.1 x.2
  | .error e => E e

variable {p : Prog Op Res α} {s : σ} {Q Q' : α → σ → Prop} {E E' : ε → Prop}

theorem ends_pure {a : α} (hQ : Q a s) : Ends h (pure a : Prog Op Res α) s Q E := hQ

theorem ends_perform {o : Op} {Q : Res o → σ → Prop} {r : Res o} {t : σ} (ho : h o s = .ok (r, t))
    (hQ : Q r t) : Ends h (perform o) s Q E := by
  rw [Ends, perform, run, ho]
  exact hQ

theorem ends_stop {o : Op} {k : Res o → Prog Op Res α} {e : ε} (ho : h o s = .error e) (hE : E e) :
    Ends h (op o k) s Q E := by
  rw [Ends, run, ho]
  exact hE

/-- **One part after the other.** -/
theorem Ends.bind {f : α → Prog Op Res β} {P : α → σ → Prop} {Q : β → σ → Prop}
    (hp : Ends h p s P E) (hf : ∀ a s', P a s' → Ends h (f a) s' Q E) :
    Ends h (p >>= f) s Q E := by
  rw [Ends] at hp ⊢
  rw [run_bind]
  cases hrun : p.run h s with
  | error e =>
    rw [hrun] at hp
    exact hp
  | ok x =>
    rw [hrun] at hp
    exact hf x.1 x.2 hp

theorem bind_assoc {γ : Type} (f : α → Prog Op Res β) (g : β → Prog Op Res γ) :
    ∀ p : Prog Op Res α, p >>= f >>= g = p >>= fun a => f a >>= g
  | ret _ => rfl
  | op o k => congrArg (op o) (funext fun r => bind_assoc f g (k r))

/-- Two parts that are known together. -/
theorem Ends.bind₂ {γ : Type} {q : α → Prog Op Res β} {f : β → Prog Op Res γ} {P : β → σ → Prop}
    {Q : γ → σ → Prop} (hpq : Ends h (p >>= q) s P E)
    (hf : ∀ b s', P b s' → Ends h (f b) s' Q E) : Ends h (p >>= fun a => q a >>= f) s Q E := by
  rw [← bind_assoc]
  exact hpq.bind hf

theorem Ends.mono (hp : Ends h p s Q E) (hQ : ∀ a s', Q a s' → Q' a s')
    (hE : ∀ e, E e → E' e) : Ends h p s Q' E' := by
  rw [Ends] at hp ⊢
  split
  · rename_i x hx
    rw [hx] at hp
    exact hQ _ _ hp
  · rename_i e he
    rw [he] at hp
    exact hE _ hp

theorem ends_ite {c : Prop} [Decidable c] {p p' : Prog Op Res α} (hpos : c → Ends h p s Q E)
    (hneg : ¬c → Ends h p' s Q E) : Ends h (if c then p else p') s Q E := by
  split
  · exact hpos ‹_›
  · exact hneg ‹_›

/-- What is known of a program that returned. -/
theorem Ends.of_ok (hp : Ends h p s Q E) {a : α} {s' : σ} (hrun : p.run h s = .ok (a, s')) :
    Q a s' := by
  rw [Ends, hrun] at hp
  exact hp

/-- A program that cannot stop returns. -/
theorem Ends.returns (hp : Ends h p s Q fun _ => False) :
    ∃ a s', p.run h s = .ok (a, s') ∧ Q a s' := by
  rw [Ends] at hp
  split at hp
  · rename_i x hx
    exact ⟨x.1, x.2, hx, hp⟩
  · exact hp.elim

end Prog
