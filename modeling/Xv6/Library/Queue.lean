import Mathlib

/-!
# A queue through one pointer

The nodes of a queue are linked by `next`, from the head to the last node, whose
pointer is null. Such a queue is changed at its ends: the head is taken off, and
a node is put behind the last one. To find where, a program walks along the
places at which a pointer to a node is stored, the head (`none`) and the `next`
of the nodes; `Cursor xs pp zs` says that `pp` is the place in front of `zs`, a
tail of the queue `xs`.
-/

namespace Queue

open Function

variable {α : Type*}

structure Pointers (α : Type*) where
  head : Option α
  next : α → Option α

/-- `*pp`. -/
def Pointers.get (l : Pointers α) : Option α → Option α
  | none => l.head
  | some x => l.next x

/-- `*pp = v`. -/
def Pointers.set [DecidableEq α] (l : Pointers α) (pp v : Option α) : Pointers α :=
  match pp with
  | none => { l with head := v }
  | some x => { l with next := update l.next x v }

/-- From `h` on, `next` runs through `xs`. -/
def Chain (next : α → Option α) : Option α → List α → Prop
  | h, [] => h = none
  | h, x :: xs => h = some x ∧ Chain next (next x) xs

/-- The queue is `xs`: no node comes twice. -/
structure Queued (l : Pointers α) (xs : List α) : Prop where
  chain : Chain l.next l.head xs
  nodup : xs.Nodup

/-- The place in front of `zs`. -/
def Cursor (xs : List α) (pp : Option α) (zs : List α) : Prop :=
  ∃ ys, xs = ys ++ zs ∧ pp = ys.getLast?

variable {xs : List α}

theorem Chain.head {next : α → Option α} {h : Option α} (hc : Chain next h xs) :
    h = xs.head? := by
  cases xs with
  | nil => exact hc
  | cons x xs => exact hc.1

/-- Pointers of other nodes do not matter. -/
theorem Chain.congr {next next' : α → Option α} : ∀ {xs : List α} {h : Option α},
    (∀ x ∈ xs, next' x = next x) → Chain next h xs → Chain next' h xs
  | [], _, _, hc => hc
  | x :: xs, _, heq, hc => by
    refine ⟨hc.1, ?_⟩
    rw [heq x (List.mem_cons_self ..)]
    exact hc.2.congr fun y hy => heq y (List.mem_cons_of_mem _ hy)

theorem Queued.head {l : Pointers α} (h : Queued l xs) : l.head = xs.head? :=
  h.chain.head

/-- A queue is not touched by what happens to other nodes. -/
theorem Queued.congr {l l' : Pointers α} (h : Queued l xs) (hhead : l'.head = l.head)
    (hnext : ∀ x ∈ xs, l'.next x = l.next x) : Queued l' xs := by
  refine ⟨?_, h.nodup⟩
  rw [hhead]
  exact h.chain.congr hnext

/-- The first node is taken off. -/
theorem Queued.tail {l : Pointers α} {x : α} (h : Queued l (x :: xs)) :
    Queued { l with head := l.next x } xs :=
  ⟨h.chain.2, (List.nodup_cons.mp h.nodup).2⟩

/-! ## §1  The walk to the end -/

/-- It starts at the head. -/
theorem cursor_first (xs : List α) : Cursor xs none xs := ⟨[], rfl, rfl⟩

theorem Cursor.next {zs : List α} {pp : Option α} {z : α} (h : Cursor xs pp (z :: zs)) :
    Cursor xs (some z) zs := by
  obtain ⟨ys, hxs, -⟩ := h
  refine ⟨ys ++ [z], ?_, ?_⟩
  · rw [hxs, List.append_assoc, List.singleton_append]
  · rw [List.getLast?_append, List.getLast?_singleton]
    rfl

/-- At the end it is in front of nothing. -/
theorem Cursor.last {pp : Option α} (h : Cursor xs pp []) : pp = xs.getLast? := by
  obtain ⟨ys, hxs, hpp⟩ := h
  rw [List.append_nil] at hxs
  rw [hpp, hxs]

theorem Chain.tail {next : α → Option α} : ∀ {ys zs : List α} {h : Option α},
    Chain next h (ys ++ zs) → (ys.getLast?).elim h next = zs.head?
  | [], _, _, hc => hc.head
  | [y], _, _, hc => hc.2.head
  | y :: y' :: ys, zs, _, hc => by
    have := show ((y' :: ys).getLast?).elim (next y) next = zs.head? from Chain.tail hc.2
    rw [List.getLast?_cons_cons]
    cases hl : (y' :: ys).getLast? with
    | none => simp at hl
    | some w =>
      rw [hl] at this
      exact this

/-- What is stored at the place in front of `zs` is the first of `zs`. -/
theorem Queued.get {l : Pointers α} {zs : List α} {pp : Option α} (h : Queued l xs)
    (hc : Cursor xs pp zs) : l.get pp = zs.head? := by
  obtain ⟨ys, rfl, rfl⟩ := hc
  rw [← h.chain.tail]
  cases ys.getLast? with
  | none => rfl
  | some y => rfl

variable [DecidableEq α]

/-- The last pointer is set to a node whose own pointer is null. -/
theorem Chain.snoc {next : α → Option α} {x y : α} (hx : next x = none) :
    ∀ {ys : List α} {h : Option α}, Chain next h (ys ++ [y]) → (ys ++ [y]).Nodup → x ∉ ys ++ [y] →
      Chain (update next y (some x)) h (ys ++ [y] ++ [x])
  | [], _, hc, _, hmem => by
    have hne : x ≠ y := fun heq => hmem (heq ▸ List.mem_singleton_self y)
    refine ⟨hc.1, update_self .., ?_⟩
    rw [update_of_ne hne]
    exact hx
  | z :: ys, _, hc, hnodup, hmem => by
    obtain ⟨hz, hnodup⟩ := List.nodup_cons.mp hnodup
    have hne : z ≠ y := by
      rintro rfl
      exact hz (List.mem_append_right _ (List.mem_singleton_self _))
    refine ⟨hc.1, ?_⟩
    rw [update_of_ne hne]
    exact hc.2.snoc hx hnodup fun hin => hmem (List.mem_cons_of_mem _ hin)

/-- **A node is put behind the last one.** -/
theorem Queued.append {l : Pointers α} {x : α} (h : Queued l xs) (hx : x ∉ xs)
    (hnull : l.next x = none) : Queued (l.set xs.getLast? (some x)) (xs ++ [x]) := by
  constructor
  · rcases List.eq_nil_or_concat xs with rfl | ⟨ys, y, rfl⟩
    · exact ⟨rfl, hnull⟩
    · rw [List.concat_eq_append] at h hx ⊢
      rw [List.getLast?_concat]
      exact h.chain.snoc hnull h.nodup hx
  · rw [List.nodup_append]
    refine ⟨h.nodup, List.nodup_singleton x, fun y hy z hz heq => ?_⟩
    rw [heq, List.mem_singleton.mp hz] at hy
    exact hx hy

end Queue
