import Mathlib

/-!
# Tables of slots

A table is a list of slots, each empty or with a key and a value, and a search
goes through them from the start. Where no key stands in two slots the table is
a finite map: `get` finds a value iff some slot has it, and writing one slot
changes the map at one key (`get_put_some`, `get_put_none`).
-/

namespace Slots

/-- Slot `i` gets a new content; `i` may be the first behind the end. -/
def put {α : Type*} (l : List α) (i : Nat) (x : α) : List α := l.take i ++ x :: l.drop (i + 1)

section Put

variable {α : Type*} {l : List α} {i : Nat}

theorem getElem?_put (hi : i ≤ l.length) (x : α) (j : Nat) :
    (put l i x)[j]? = if j = i then some x else l[j]? := by
  have hlen : (l.take i).length = i := by rw [List.length_take, Nat.min_eq_left hi]
  rcases Nat.lt_trichotomy j i with hlt | rfl | hgt
  · rw [if_neg (Nat.ne_of_lt hlt), put, List.getElem?_append_left (by omega),
      List.getElem?_take_of_lt hlt]
  · rw [if_pos rfl, put, List.getElem?_append_right (by omega), hlen, Nat.sub_self,
      List.getElem?_cons_zero]
  · obtain ⟨k, rfl⟩ : ∃ k, j = i + 1 + k := ⟨j - (i + 1), by omega⟩
    rw [if_neg (by omega), put, List.getElem?_append_right (by omega), hlen,
      show i + 1 + k - i = k + 1 by omega, List.getElem?_cons_succ, List.getElem?_drop]

theorem length_put (hi : i ≤ l.length) (x : α) : (put l i x).length = max l.length (i + 1) := by
  rw [put, List.length_append, List.length_take, List.length_cons, List.length_drop]
  omega

theorem map_put {β : Type*} (f : α → β) (l : List α) (i : Nat) (x : α) :
    (put l i x).map f = put (l.map f) i (f x) := by
  rw [put, put, List.map_append, List.map_cons, List.map_take, List.map_drop]

end Put

section Tables

variable {κ ν : Type*} [DecidableEq κ]

/-- The slot holds the key. -/
def has (k : κ) (x : Option (κ × ν)) : Bool := x.any fun y => y.1 = k

/-- Where the key is, or the end. -/
def index (l : List (Option (κ × ν))) (k : κ) : Nat := l.findIdx (has k)

def get (l : List (Option (κ × ν))) (k : κ) : Option ν := l[index l k]?.join.map Prod.snd

/-- The first empty slot, or the end. -/
def hole (l : List (Option (κ × ν))) : Nat := l.findIdx Option.isNone

/-- No key stands in two slots. -/
def Unique (l : List (Option (κ × ν))) : Prop :=
  ∀ (i j : Nat) k v w, l[i]? = some (some (k, v)) → l[j]? = some (some (k, w)) → i = j

variable {l : List (Option (κ × ν))} {i : Nat} {k : κ} {v : ν}

theorem has_iff {x : Option (κ × ν)} : has k x = true ↔ ∃ v, x = some (k, v) := by
  rcases x with - | ⟨k', v⟩
  · simp [has]
  · simp only [has, Option.any_some, decide_eq_true_eq, Option.some.injEq, Prod.mk.injEq]
    exact ⟨fun h => ⟨v, h, rfl⟩, fun ⟨_, h, _⟩ => h⟩

/-- The value found stands where the search ended. -/
theorem getElem?_index (h : get l k = some v) : l[index l k]? = some (some (k, v)) := by
  rw [get, Option.map_eq_some_iff] at h
  obtain ⟨⟨k', w⟩, hslot, rfl⟩ := h
  rw [Option.join_eq_some_iff] at hslot
  obtain ⟨hlt, hat⟩ := List.getElem?_eq_some_iff.mp hslot
  have hhas : has k l[index l k] = true := List.findIdx_getElem
  obtain ⟨u, hu⟩ := has_iff.mp hhas
  rw [hat] at hu
  cases hu
  exact hslot

/-- A search that finds nothing has gone to the end. -/
theorem length_le_index (h : get l k = none) : l.length ≤ index l k := by
  by_contra hlt
  rw [Nat.not_le] at hlt
  have hhas : has k l[index l k] = true := List.findIdx_getElem
  obtain ⟨w, hw⟩ := has_iff.mp hhas
  rw [get, List.getElem?_eq_getElem hlt, hw] at h
  cases h

omit [DecidableEq κ] in
theorem hole_le (l : List (Option (κ × ν))) : hole l ≤ l.length := List.findIdx_le_length

omit [DecidableEq κ] in
/-- Nothing stands in the first empty slot. -/
theorem getElem?_hole (l : List (Option (κ × ν))) : l[hole l]?.join = none := by
  by_cases hlt : hole l < l.length
  · rw [List.getElem?_eq_getElem hlt, Option.join_some]
    have hnone : (l[hole l]).isNone = true := List.findIdx_getElem
    exact Option.isNone_iff_eq_none.mp hnone
  · rw [List.getElem?_eq_none (by omega)]
    rfl

omit [DecidableEq κ] in
/-- A table without empty slots gets one more at the end. -/
theorem hole_put_end (h : hole l = l.length) (x : κ × ν) :
    hole (put l l.length (some x)) = (put l l.length (some x)).length := by
  have happend : put l l.length (some x) = l ++ [some x] := by
    rw [put, List.take_length, List.drop_eq_nil_of_le (Nat.le_succ _)]
  rw [hole, List.findIdx_eq_length] at h ⊢
  rw [happend]
  intro y hy
  rw [List.mem_append, List.mem_singleton] at hy
  rcases hy with hy | rfl
  · exact h y hy
  · rfl

/-- **A search finds a key that is there**, with the value of its slot. -/
theorem get_eq_some_iff (hu : Unique l) : get l k = some v ↔
    ∃ i : Nat, l[i]? = some (some (k, v)) := by
  refine ⟨fun h => ⟨_, getElem?_index h⟩, fun ⟨i, hi⟩ => ?_⟩
  obtain ⟨hlt, hat⟩ := List.getElem?_eq_some_iff.mp hi
  have hindex : index l k < l.length :=
    List.findIdx_lt_length.mpr ⟨l[i], List.getElem_mem hlt, has_iff.mpr ⟨v, hat⟩⟩
  have hhas : has k l[index l k] = true := List.findIdx_getElem
  obtain ⟨w, hw⟩ := has_iff.mp hhas
  have hslot : l[index l k]? = some (some (k, w)) := by rw [List.getElem?_eq_getElem hindex, hw]
  rw [hu i _ k v w hi hslot] at hi
  rw [get, hi]
  rfl

theorem get_eq_none_iff (hu : Unique l) : get l k = none ↔
    ∀ (i : Nat) v, l[i]? ≠ some (some (k, v)) := by
  rw [Option.eq_none_iff_forall_not_mem]
  refine ⟨fun h i v hi => h v ((get_eq_some_iff hu).mpr ⟨i, hi⟩), fun h v hv => ?_⟩
  obtain ⟨i, hi⟩ := (get_eq_some_iff hu).mp hv
  exact h i v hi

omit [DecidableEq κ] in
theorem Unique.put_none (hu : Unique l) (hi : i ≤ l.length) : Unique (put l i none) := by
  intro a b k v w ha hb
  rw [getElem?_put hi] at ha hb
  split at ha
  · cases ha
  · split at hb
    · cases hb
    · exact hu a b k v w ha hb

theorem Unique.put_some (hu : Unique l) (hi : i ≤ l.length) (hk : get l k = none) :
    Unique (put l i (some (k, v))) := by
  rw [get_eq_none_iff hu] at hk
  intro a b k' v' w ha hb
  rw [getElem?_put hi] at ha hb
  split at ha <;> split at hb
  · rename_i ha' hb'
    rw [ha', hb']
  · cases ha
    exact absurd hb (hk b w)
  · cases hb
    exact absurd ha (hk a v')
  · exact hu a b k' v' w ha hb

/-- **A new key** in an empty slot or at the end changes the map at this key. -/
theorem get_put_some (hu : Unique l) (hi : i ≤ l.length) (hfree : l[i]?.join = none)
    (hk : get l k = none) (k' : κ) :
    get (put l i (some (k, v))) k' = if k' = k then some v else get l k' := by
  have hu' := hu.put_some (v := v) hi hk
  by_cases hkk : k' = k
  · rw [if_pos hkk, get_eq_some_iff hu', hkk]
    exact ⟨i, by rw [getElem?_put hi, if_pos rfl]⟩
  · rw [if_neg hkk]
    refine Option.ext fun w => ?_
    rw [get_eq_some_iff hu', get_eq_some_iff hu]
    refine exists_congr fun j => ?_
    rw [getElem?_put hi]
    split
    · rename_i hj
      refine iff_of_false (fun heq => ?_) fun heq => ?_
      · cases heq
        exact hkk rfl
      · rw [← hj, heq] at hfree
        cases hfree
    · rfl

/-- **Emptying a slot** removes its key from the map. -/
theorem get_put_none (hu : Unique l) (hi : l[i]? = some (some (k, v))) (k' : κ) :
    get (put l i none) k' = if k' = k then none else get l k' := by
  obtain ⟨hlt, -⟩ := List.getElem?_eq_some_iff.mp hi
  have hu' := hu.put_none (Nat.le_of_lt hlt)
  refine Option.ext fun w => ?_
  rw [get_eq_some_iff hu']
  simp only [getElem?_put (Nat.le_of_lt hlt)]
  by_cases hkk : k' = k
  · rw [if_pos hkk]
    refine iff_of_false (fun ⟨j, hj⟩ => ?_) nofun
    split at hj
    · cases hj
    · rename_i hne
      exact hne (hu j i k w v (hkk ▸ hj) hi)
  · rw [if_neg hkk, get_eq_some_iff hu]
    refine exists_congr fun j => ?_
    split
    · rename_i hj
      refine iff_of_false nofun fun heq => ?_
      rw [hj, hi] at heq
      cases heq
      exact hkk rfl
    · rfl

end Tables

end Slots
