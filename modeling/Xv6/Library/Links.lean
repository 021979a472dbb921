import Mathlib

/-!
# A circular list through `prev` and `next`

Nodes are of type `α`, and `none` is the head of the list, a node that holds
nothing. `Linked l xs` says that the pointers of `l` run through the nodes
`xs`, in this order from the head on, and back to it, in both directions. The
two pieces of list surgery, taking a node out and putting one in behind the
head, are stated as the assignments a program makes, in their order.
-/

namespace Links

open Function

variable {α : Type*}

/-- The two pointers of each node. -/
structure Pointers (α : Type*) where
  next : Option α → Option α
  prev : Option α → Option α

/-- The head and the nodes: where the links of a list start. -/
def firsts (xs : List α) : List (Option α) := none :: xs.map some

/-- The nodes and the head: where they end. -/
def lasts (xs : List α) : List (Option α) := xs.map some ++ [none]

structure Linked (l : Pointers α) (xs : List α) : Prop where
  nodup : xs.Nodup
  next : (firsts xs).map l.next = lasts xs
  prev : (lasts xs).map l.prev = firsts xs

theorem firsts_append (xs ys : List α) : firsts (xs ++ ys) = firsts xs ++ ys.map some := by
  simp [firsts]

theorem lasts_append (xs ys : List α) : lasts (xs ++ ys) = xs.map some ++ lasts ys := by
  simp [lasts]

theorem nodup_firsts {xs : List α} (h : xs.Nodup) : (firsts xs).Nodup :=
  List.nodup_cons.mpr ⟨by simp, h.map (Option.some_injective _)⟩

theorem nodup_lasts {xs : List α} (h : xs.Nodup) : (lasts xs).Nodup := by
  rw [lasts, List.nodup_append]
  refine ⟨h.map (Option.some_injective _), List.nodup_singleton _, fun y hy z hz heq => ?_⟩
  rw [heq, List.mem_singleton.mp hz] at hy
  simp at hy

theorem some_mem_lasts {xs : List α} {x : α} : some x ∈ lasts xs ↔ x ∈ xs := by
  simp [lasts]

theorem exists_lasts_eq (xs : List α) : ∃ c cs, lasts xs = c :: cs := by
  cases xs with
  | nil => exact ⟨none, [], rfl⟩
  | cons x xs => exact ⟨some x, lasts xs, rfl⟩

/-! ## §1  Walking along the list -/

/-- From node `x` on, the first node that meets a test, with at most `fuel`
nodes looked at; `none` at the head. -/
def scan (f : Option α → Option α) (test : α → Bool) : Nat → Option α → Option α
  | 0, _ => none
  | _ + 1, none => none
  | fuel + 1, some x => if test x then some x else scan f test fuel (f (some x))

theorem scan_eq_find? {f : Option α → Option α} (test : α → Bool) : ∀ {xs : List α} {x : Option α}
    {fuel : Nat}, (x :: xs.map some).map f = xs.map some ++ [none] → xs.length ≤ fuel →
    scan f test fuel (f x) = xs.find? test
  | [], x, fuel, h, _ => by
    have hx : f x = none := by simpa using h
    rw [hx]
    cases fuel <;> rfl
  | y :: ys, x, fuel, h, hfuel => by
    obtain ⟨hx, hrest⟩ : f x = some y ∧ (some y :: ys.map some).map f = ys.map some ++ [none] := by
      simpa using h
    cases fuel with
    | zero => simp at hfuel
    | succ fuel =>
      rw [hx, scan, List.find?_cons]
      cases htest : test y with
      | true => rfl
      | false => exact scan_eq_find? test hrest (by simpa using hfuel)

theorem Linked.scan_next {l : Pointers α} {xs : List α} (h : Linked l xs) (test : α → Bool)
    {fuel : Nat} (hfuel : xs.length ≤ fuel) :
    scan l.next test fuel (l.next none) = xs.find? test :=
  scan_eq_find? test h.next hfuel

theorem Linked.scan_prev {l : Pointers α} {xs : List α} (h : Linked l xs) (test : α → Bool)
    {fuel : Nat} (hfuel : xs.length ≤ fuel) :
    scan l.prev test fuel (l.prev none) = xs.reverse.find? test := by
  refine scan_eq_find? test ?_ (by simpa using hfuel)
  have := congrArg List.reverse h.prev
  simpa [firsts, lasts, List.map_reverse] using this

/-! ## §2  Surgery -/

variable [DecidableEq α]

/-- `x->next->prev = x->prev; x->prev->next = x->next`. -/
def unlink (l : Pointers α) (x : α) : Pointers α :=
  let l := { l with prev := update l.prev (l.next (some x)) (l.prev (some x)) }
  { l with next := update l.next (l.prev (some x)) (l.next (some x)) }

/-- `x->next = head.next; x->prev = &head; head.next->prev = x;
head.next = x`. -/
def linkFront (l : Pointers α) (x : α) : Pointers α :=
  let l := { l with next := update l.next (some x) (l.next none) }
  let l := { l with prev := update l.prev (some x) none }
  let l := { l with prev := update l.prev (l.next none) (some x) }
  { l with next := update l.next none (some x) }

omit [DecidableEq α] in
theorem map_update_of_notMem {β γ : Type*} [DecidableEq β] {f : β → γ} {a : β} {v : γ}
    {xs : List β} (h : a ∉ xs) : xs.map (update f a v) = xs.map f := by
  refine List.map_congr_left fun x hx => update_of_ne ?_ ..
  rintro rfl
  exact h hx

theorem linked_linkFront {l : Pointers α} {xs : List α} (h : Linked l xs) {x : α} (hx : x ∉ xs) :
    Linked (linkFront l x) (x :: xs) := by
  have hlasts : some x ∉ lasts xs := fun hmem => hx (some_mem_lasts.mp hmem)
  -- the old first node, or the head
  obtain ⟨c, cs, hc⟩ := exists_lasts_eq xs
  have hnext := h.next
  have hprev := h.prev
  have hnodup := nodup_lasts h.nodup
  rw [hc] at hnext hprev hlasts hnodup
  obtain ⟨hxc, hxcs⟩ := not_or.mp fun hor => hlasts (List.mem_cons.mpr hor)
  rw [firsts, List.map_cons, List.cons.injEq] at hnext
  rw [firsts, List.map_cons, List.cons.injEq] at hprev
  have hnext' : (linkFront l x).next =
      update (update l.next (some x) c) none (some x) := by
    simp [linkFront, hnext.1]
  have hprev' : (linkFront l x).prev =
      update (update l.prev (some x) none) c (some x) := by
    simp [linkFront, hnext.1]
  have hlasts' : lasts (x :: xs) = some x :: c :: cs := by rw [← hc]; rfl
  refine ⟨List.nodup_cons.mpr ⟨hx, h.nodup⟩, ?_, ?_⟩
  · rw [hnext', hlasts', firsts, List.map_cons, update_self,
      map_update_of_notMem (by simp), List.map_cons, List.map_cons, update_self,
      map_update_of_notMem (by simpa using hx), hnext.2]
  · rw [hprev', hlasts', List.map_cons, List.map_cons, update_of_ne hxc,
      update_self, update_self,
      map_update_of_notMem (List.nodup_cons.mp hnodup).1, map_update_of_notMem hxcs, hprev.2]
    rfl

theorem linked_unlink {l : Pointers α} {xs ys : List α} {x : α} (h : Linked l (xs ++ x :: ys)) :
    Linked (unlink l x) (xs ++ ys) := by
  obtain ⟨hxy, hnodup⟩ : x ∉ ys ∧ (xs ++ ys).Nodup := by
    have := List.nodup_middle.mp h.nodup
    rw [List.nodup_cons, List.mem_append, not_or] at this
    exact ⟨this.1.2, this.2⟩
  -- the neighbours of `x`
  obtain ⟨init, a, ha⟩ : ∃ init a, firsts xs = init ++ [a] :=
    ⟨_, _, (List.dropLast_append_getLast (List.cons_ne_nil _ _)).symm⟩
  obtain ⟨c, cs, hc⟩ := exists_lasts_eq ys
  have hlen : init.length = xs.length := by
    have := congrArg List.length ha
    simpa [firsts] using this.symm
  have hfirsts : firsts (xs ++ x :: ys) = init ++ a :: some x :: ys.map some := by
    rw [firsts_append, ha]
    simp
  have hlasts : lasts (xs ++ x :: ys) = xs.map some ++ some x :: c :: cs := by
    rw [lasts_append, ← hc]
    rfl
  obtain ⟨hinit, -, hnx, hys⟩ : init.map l.next = xs.map some ∧ l.next a = some x ∧
      l.next (some x) = c ∧ (ys.map some).map l.next = cs := by
    have := h.next
    rw [hfirsts, hlasts, List.map_append] at this
    obtain ⟨h₁, h₂⟩ := List.append_inj this (by simpa using hlen)
    simpa [h₁] using h₂
  obtain ⟨hxs, hpx, -, hcs⟩ : (xs.map some).map l.prev = init ∧ l.prev (some x) = a ∧
      l.prev c = some x ∧ cs.map l.prev = ys.map some := by
    have := h.prev
    rw [hfirsts, hlasts, List.map_append] at this
    obtain ⟨h₁, h₂⟩ := List.append_inj this (by simpa using hlen.symm)
    simpa [h₁] using h₂
  have hcx : some x ≠ c := by
    rintro rfl
    exact hxy (some_mem_lasts.mp (by rw [hc]; exact List.mem_cons_self ..))
  have hnext : (unlink l x).next = update l.next a c := by
    simp [unlink, hnx, hpx, update_of_ne hcx]
  have hprev : (unlink l x).prev = update l.prev c a := by
    simp [unlink, hnx, hpx]
  have hfirsts' : firsts (xs ++ ys) = init ++ a :: ys.map some := by
    rw [firsts_append, ha]
    simp
  have hlasts' : lasts (xs ++ ys) = xs.map some ++ c :: cs := by rw [lasts_append, hc]
  have hn₁ := nodup_firsts hnodup
  have hn₂ := nodup_lasts hnodup
  rw [hfirsts', List.nodup_append, List.nodup_cons] at hn₁
  rw [hlasts', List.nodup_append, List.nodup_cons] at hn₂
  refine ⟨hnodup, ?_, ?_⟩
  · rw [hfirsts', hlasts', hnext, List.map_append,
      map_update_of_notMem fun hmem => hn₁.2.2 a hmem a (.head _) rfl, hinit, List.map_cons,
      update_self, map_update_of_notMem hn₁.2.1.1, hys]
  · rw [hfirsts', hlasts', hprev, List.map_append,
      map_update_of_notMem fun hmem => hn₂.2.2 c hmem c (.head _) rfl, hxs, List.map_cons,
      update_self, map_update_of_notMem hn₂.2.1.1, hcs]

/-- A node moved to the front: the list has the same nodes. -/
theorem linked_moveFront {l : Pointers α} {xs : List α} (h : Linked l xs) {x : α} (hx : x ∈ xs) :
    Linked (linkFront (unlink l x) x) (x :: xs.erase x) := by
  obtain ⟨as, bs, hnot, rfl, herase⟩ := List.exists_erase_eq hx
  rw [herase]
  refine linked_linkFront (linked_unlink h) fun hmem => ?_
  have hnodup := h.nodup
  rw [List.nodup_append, List.nodup_cons] at hnodup
  rcases List.mem_append.mp hmem with hmem | hmem
  · exact hnot hmem
  · exact hnodup.2.1.1 hmem

/-- A list of the head alone. -/
def empty : Pointers α := ⟨fun _ => none, fun _ => none⟩

omit [DecidableEq α] in
theorem linked_empty : Linked (empty (α := α)) [] := ⟨List.nodup_nil, rfl, rfl⟩

/-- All nodes put in, one after the other. -/
theorem linked_foldl {l : Pointers α} {xs : List α} (h : Linked l xs) : ∀ {ys : List α},
    (ys.reverse ++ xs).Nodup → Linked (ys.foldl linkFront l) (ys.reverse ++ xs)
  | [], _ => h
  | y :: ys, hnodup => by
    rw [List.reverse_cons, List.append_assoc, List.singleton_append] at hnodup ⊢
    have hy : (y :: xs).Nodup := (List.nodup_append.mp hnodup).2.1
    exact linked_foldl (linked_linkFront h (List.nodup_cons.mp hy).1) hnodup

end Links
