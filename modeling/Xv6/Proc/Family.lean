import Xv6.Proc.Table

/-!
# Parents, children and zombies

Along every run of `fork`, `exit`, `wait` and `kill`: every process but `initproc`
has a parent that is alive, also when it is a zombie; nobody sleeps in `wait`
beside a child that is a zombie; and a zombie stays one until its parent reaps
it, once.
-/

namespace Xv6.Ptable

open Transition Function

/-! ## §1  What holds between two steps -/

structure Family (s : State) : Prop where
  init : (s.slot s.initproc).state.live = true
  parents : ∀ p, p ≠ s.initproc → (s.slot p).state.live = true ∨ (s.slot p).state = .zombie →
    ∃ q, q ≠ p ∧ (s.slot p).parent = some q ∧ (s.slot q).state.live = true
  forks : ∀ p np g, s.place p = .fork np g → (s.slot p).state.live = true ∧
    (s.slot np).state = .embryo ∧ (g = .ready → (s.slot np).parent = some p)
  alone : ∀ p q np g g', s.place p = .fork np g → s.place q = .fork np g' → p = q
  waits : ∀ p, (s.slot p).state = .sleeping → s.place p = .wait →
    (s.slot p).chan = some (.proc p) ∧
    ∀ q, (s.slot q).parent = some p → (s.slot q).state ≠ .zombie

theorem Boot.family {s : State} (h : Boot s) : Family s where
  init := by rw [h.init]; rfl
  parents p hp hst := by
    rw [h.others p hp] at hst
    rcases hst with hst | hst <;> cases hst
  forks p np g hp := by
    rw [h.place p] at hp
    cases hp
  alone p q np g g' hp := by
    rw [h.place p] at hp
    cases hp
  waits p _ hp := by
    rw [h.place p] at hp
    cases hp

section Slots

variable {s s' : State} {p : Fin nproc}

@[simp] theorem set_slot_self (s : State) (p : Fin nproc) (q : Slot) : (s.set p q).slot p = q :=
  update_self ..

theorem set_slot_ne {p' : Fin nproc} (h : p' ≠ p) (q : Slot) : (s.set p q).slot p' = s.slot p' :=
  update_of_ne h ..

/-- What the new slot keeps, every slot has kept. -/
theorem set_keeps {α : Type} (f : Slot → α) {q : Slot} (hq : f q = f (s.slot p)) (x : Fin nproc) :
    f ((s.set p q).slot x) = f (s.slot x) := by
  by_cases hx : x = p
  · rw [hx, set_slot_self, hq]
  · rw [set_slot_ne hx]

@[simp] theorem set_initproc (s : State) (p : Fin nproc) (q : Slot) :
    (s.set p q).initproc = s.initproc := rfl
@[simp] theorem go_slot (s : State) (p : Fin nproc) (a : Place) : (s.go p a).slot = s.slot := rfl
@[simp] theorem go_place_self (s : State) (p : Fin nproc) (a : Place) : (s.go p a).place p = a :=
  update_self ..

theorem go_place_ne {p' : Fin nproc} (h : p' ≠ p) (a : Place) :
    (s.go p a).place p' = s.place p' := update_of_ne h ..

end Slots

/-! ## §2  Wakeups -/

/-- A wakeup leaves the state of a process or makes a sleeper RUNNABLE. -/
def Rouses (st st' : ProcState) : Prop :=
  st' = st ∨ st = .sleeping ∧ st' = .runnable

namespace Rouses

variable {st st' st'' : ProcState}

theorem trans (h : Rouses st st') (h' : Rouses st' st'') : Rouses st st'' := by
  rcases h with rfl | ⟨hsl, rfl⟩
  · exact h'
  · rcases h' with rfl | ⟨hsl', -⟩
    · exact .inr ⟨hsl, rfl⟩
    · cases hsl'

theorem live (h : Rouses st st') : st'.live = st.live := by
  rcases h with rfl | ⟨rfl, rfl⟩ <;> rfl

/-- States other than SLEEPING and RUNNABLE stay. -/
theorem eq_iff (h : Rouses st st') {x : ProcState} (h₁ : x ≠ .sleeping) (h₂ : x ≠ .runnable) :
    st' = x ↔ st = x := by
  rcases h with rfl | ⟨rfl, rfl⟩
  · rfl
  · exact iff_of_false (Ne.symm h₂) (Ne.symm h₁)

theorem zombie_iff (h : Rouses st st') : st' = .zombie ↔ st = .zombie :=
  h.eq_iff (by decide) (by decide)

theorem sleeping (h : Rouses st st') (hst : st' = .sleeping) : st = .sleeping := by
  rcases h with rfl | ⟨hsl, -⟩
  · exact hst
  · exact hsl

end Rouses

/-- Some sleepers have been woken; besides, nobody's state, parent, channel or pid
has changed. -/
structure Roused (s s' : State) : Prop where
  initproc : s'.initproc = s.initproc
  place : s'.place = s.place
  parent : ∀ p, (s'.slot p).parent = (s.slot p).parent
  chan : ∀ p, (s'.slot p).chan = (s.slot p).chan
  pid : ∀ p, (s'.slot p).pid = (s.slot p).pid
  state : ∀ p, Rouses (s.slot p).state (s'.slot p).state

theorem Roused.refl (s : State) : Roused s s :=
  ⟨rfl, rfl, fun _ => rfl, fun _ => rfl, fun _ => rfl, fun _ => .inl rfl⟩

theorem wakeup1_roused (c : Option Chan) (s : State) : Roused s (wakeup1 c s) where
  initproc := rfl
  place := rfl
  parent p := by simp only [wakeup1]; split <;> rfl
  chan p := by simp only [wakeup1]; split <;> rfl
  pid p := by simp only [wakeup1]; split <;> rfl
  state p := by
    simp only [wakeup1]
    split
    · rename_i h
      exact .inr ⟨h.1, rfl⟩
    · exact .inl rfl

theorem wakeup1_killed (c : Option Chan) (s : State) (p : Fin nproc) :
    ((wakeup1 c s).slot p).killed = (s.slot p).killed := by
  simp only [wakeup1]
  split <;> rfl

/-- Who sleeps on the channel is woken. -/
theorem wakeup1_wakes {c : Option Chan} {s : State} {p : Fin nproc} (hc : (s.slot p).chan = c) :
    ((wakeup1 c s).slot p).state ≠ .sleeping := by
  simp only [wakeup1]
  split
  · exact nofun
  · rename_i h
    exact fun hsl => h ⟨hsl, hc⟩

theorem kill_roused (pid : Int32) (s : State) : Roused s (kill pid s).2 := by
  unfold kill
  split
  · rename_i p _
    refine ⟨rfl, rfl, fun q => ?_, fun q => ?_, fun q => ?_, fun q => ?_⟩ <;> simp only <;>
      by_cases hq : q = p
    · rw [hq, set_slot_self]
    · rw [set_slot_ne hq]
    · rw [hq, set_slot_self]
    · rw [set_slot_ne hq]
    · rw [hq, set_slot_self]
    · rw [set_slot_ne hq]
    · rw [hq, set_slot_self]
      simp only
      split
      · rename_i hsl
        exact .inr ⟨hsl, rfl⟩
      · exact .inl rfl
    · rw [set_slot_ne hq]
      exact .inl rfl
  · exact .refl s

theorem Family.roused {s s' : State} (h : Family s) (hr : Roused s s') : Family s' where
  init := by
    rw [hr.initproc, (hr.state _).live]
    exact h.init
  parents p hp hst := by
    rw [hr.initproc] at hp
    rw [(hr.state p).live, (hr.state p).zombie_iff] at hst
    obtain ⟨q, hqp, hq, hlive⟩ := h.parents p hp hst
    exact ⟨q, hqp, (hr.parent p).trans hq, (hr.state q).live.trans hlive⟩
  forks p np g hp := by
    rw [hr.place] at hp
    obtain ⟨hlive, hembryo, hparent⟩ := h.forks p np g hp
    exact ⟨(hr.state p).live.trans hlive, ((hr.state np).eq_iff (by decide) (by decide)).mpr hembryo,
      fun hg => (hr.parent np).trans (hparent hg)⟩
  alone p q np g g' hp hq := by
    rw [hr.place] at hp hq
    exact h.alone p q np g g' hp hq
  waits p hsl hp := by
    rw [hr.place] at hp
    obtain ⟨hchan, hkids⟩ := h.waits p ((hr.state p).sleeping hsl) hp
    refine ⟨(hr.chan p).trans hchan, fun q hq => ?_⟩
    rw [hr.parent] at hq
    rw [Ne, (hr.state q).zombie_iff]
    exact hkids q hq

/-! ## §3  One slot changes -/

section Steps

variable {s s' : State} {p np : Fin nproc}

@[simp] theorem go_go (s : State) (p : Fin nproc) (a b : Place) :
    (s.go p a).go p b = s.go p b := by
  simp only [State.go, update_idem]

/-- A process gets to another place: in `fork` alone with the slot of its child, and
not asleep in `wait` beside a zombie child. -/
theorem Family.go (h : Family s) {a : Place}
    (hfork : ∀ np g, a = .fork np g → (s.slot p).state.live = true ∧
      (s.slot np).state = .embryo ∧ (g = .ready → (s.slot np).parent = some p) ∧
      ∀ x g', s.place x = .fork np g' → x = p)
    (hwait : a = .wait → (s.slot p).state = .sleeping → (s.slot p).chan = some (.proc p) ∧
      ∀ q, (s.slot q).parent = some p → (s.slot q).state ≠ .zombie) : Family (s.go p a) := by
  have hplace : ∀ {x b}, (s.go p a).place x = b → x = p ∧ a = b ∨ s.place x = b := by
    intro x b hx
    by_cases hxp : x = p
    · rw [hxp, go_place_self] at hx
      exact .inl ⟨hxp, hx⟩
    · rw [go_place_ne hxp] at hx
      exact .inr hx
  refine ⟨h.init, h.parents, fun x np g hx => ?_, fun x y np g g' hx hy => ?_, fun x hsl hx => ?_⟩
  · rcases hplace hx with ⟨rfl, ha⟩ | hx
    · obtain ⟨hl, hembryo, hparent, -⟩ := hfork np g ha
      exact ⟨hl, hembryo, hparent⟩
    · exact h.forks x np g hx
  · rcases hplace hx with ⟨hxp, ha⟩ | hx' <;> rcases hplace hy with ⟨hyp, hb⟩ | hy'
    · rw [hxp, hyp]
    · rw [hxp, (hfork np g ha).2.2.2 y g' hy']
    · rw [hyp, (hfork np g' hb).2.2.2 x g hx']
    · exact h.alone x y np g g' hx' hy'
  · rcases hplace hx with ⟨rfl, ha⟩ | hx
    · exact hwait ha hsl
    · exact h.waits x hsl hx

/-- A process is outside of the calls. -/
theorem Family.outside (h : Family s) (p : Fin nproc) : Family (s.go p .outside) :=
  h.go nofun nofun

/-- A live process stays one, with its parent, and does not fall asleep in `wait`. -/
theorem Family.live (h : Family s) {q : Slot} (hold : (s.slot p).state.live = true)
    (hnew : q.state.live = true) (hparent : q.parent = (s.slot p).parent)
    (hwait : q.state = .sleeping → s.place p ≠ .wait) : Family (s.set p q) := by
  have hlive : ∀ x, ((s.set p q).slot x).state.live = (s.slot x).state.live := by
    intro x
    by_cases hx : x = p
    · rw [hx, set_slot_self, hold, hnew]
    · rw [set_slot_ne hx]
  have hpar : ∀ x, ((s.set p q).slot x).parent = (s.slot x).parent := by
    intro x
    by_cases hx : x = p
    · rw [hx, set_slot_self, hparent]
    · rw [set_slot_ne hx]
  -- a state that is not live is another process's, and has not changed
  have hdead : ∀ {x st}, st.live = false → (((s.set p q).slot x).state = st ↔
      (s.slot x).state = st) := by
    intro x st hst
    by_cases hx : x = p
    · rw [hx, set_slot_self]
      refine iff_of_false ?_ ?_
      · rintro rfl
        rw [hnew] at hst
        cases hst
      · rintro rfl
        rw [hold] at hst
        cases hst
    · rw [set_slot_ne hx]
  refine ⟨(hlive _).trans h.init, fun x hx hst => ?_, fun x np g hx => ?_, h.alone,
    fun x hsl hx => ?_⟩
  · rw [hlive, hdead rfl] at hst
    obtain ⟨y, hyx, hy, hl⟩ := h.parents x hx hst
    exact ⟨y, hyx, (hpar x).trans hy, (hlive y).trans hl⟩
  · obtain ⟨hl, hembryo, hparent⟩ := h.forks x np g hx
    exact ⟨(hlive x).trans hl, (hdead rfl).mpr hembryo, fun hg => (hpar np).trans (hparent hg)⟩
  · by_cases hxp : x = p
    · rw [hxp, set_slot_self] at hsl
      exact absurd (hxp ▸ hx) (hwait hsl)
    · rw [set_slot_ne hxp] at hsl ⊢
      obtain ⟨hchan, hkids⟩ := h.waits x hsl hx
      refine ⟨hchan, fun y hy => ?_⟩
      rw [hpar] at hy
      rw [Ne, hdead rfl]
      exact hkids y hy

/-- A slot that is nobody's gets another value. -/
theorem Family.nobodys (h : Family s) {q : Slot} (hp : (s.slot p).state.live = true)
    (hold : (s.slot np).state = .unused ∨ (s.slot np).state = .embryo) (hnew : q.state ≠ .zombie)
    (hchild : q.state.live = true → q.state ≠ .sleeping ∧ q.parent = some p)
    (hothers : ∀ x np' g, s.place x = .fork np' g → np' ≠ np) : Family (s.set np q) := by
  have hnot : ∀ {x}, (s.slot x).state.live = true ∨ (s.slot x).state = .zombie → x ≠ np := by
    rintro x hx rfl
    rcases hold with h | h <;> rw [h] at hx <;> rcases hx with hx | hx <;> cases hx
  refine ⟨?_, fun x hx hst => ?_, fun x np' g hx => ?_, h.alone, fun x hsl hx => ?_⟩
  · rw [set_initproc, set_slot_ne (hnot (.inl h.init))]
    exact h.init
  · by_cases hxnp : x = np
    · subst hxnp
      rw [set_slot_self] at hst ⊢
      have hpx : p ≠ x := hnot (.inl hp)
      exact ⟨p, hpx, (hchild (hst.resolve_right hnew)).2, by rwa [set_slot_ne hpx]⟩
    · rw [set_slot_ne hxnp] at hst ⊢
      obtain ⟨y, hyx, hy, hl⟩ := h.parents x hx hst
      exact ⟨y, hyx, hy, by rwa [set_slot_ne (hnot (.inl hl))]⟩
  · obtain ⟨hl, hembryo, hparent⟩ := h.forks x np' g hx
    rw [set_slot_ne (hnot (.inl hl)), set_slot_ne (hothers x np' g hx)]
    exact ⟨hl, hembryo, hparent⟩
  · have hxnp : x ≠ np := by
      rintro rfl
      rw [set_slot_self] at hsl
      exact (hchild (by rw [hsl]; rfl)).1 hsl
    rw [set_slot_ne hxnp] at hsl ⊢
    obtain ⟨hchan, hkids⟩ := h.waits x hsl hx
    refine ⟨hchan, fun y hy => ?_⟩
    by_cases hynp : y = np
    · rw [hynp, set_slot_self]
      exact hnew
    · rw [set_slot_ne hynp] at hy ⊢
      exact hkids y hy

/-- `fork` of process `p` works on a slot that is nobody's. -/
theorem Family.reslot (h : Family s) {q : Slot} {a : Place} (hp : (s.slot p).state.live = true)
    (hold : (s.slot np).state = .unused ∨ (s.slot np).state = .embryo) (hnew : q.state ≠ .zombie)
    (hchild : q.state.live = true → q.state ≠ .sleeping ∧ q.parent = some p)
    (hothers : ∀ x np' g, x ≠ p → s.place x = .fork np' g → np' ≠ np)
    (ha : a = .outside ∨ ∃ g, a = .fork np g ∧ q.state = .embryo ∧
      (g = .ready → q.parent = some p)) : Family ((s.set np q).go p a) := by
  have halone : ∀ x np' g, (s.go p .outside).place x = .fork np' g → np' ≠ np := by
    intro x np' g hx
    by_cases hxp : x = p
    · rw [hxp, go_place_self] at hx
      cases hx
    · rw [go_place_ne hxp] at hx
      exact hothers x np' g hxp hx
  have hset : Family ((s.go p .outside).set np q) :=
    (h.outside p).nobodys hp hold hnew hchild halone
  rcases ha with rfl | ⟨g, rfl, hembryo, hparent⟩
  · exact hset
  · have hpnp : p ≠ np := by
      rintro rfl
      rcases hold with h | h <;> rw [h] at hp <;> cases hp
    have hgo := hset.go (p := p) (a := .fork np g) ?_ nofun
    · exact (go_go (s.set np q) ..) ▸ hgo
    · rintro _ _ ⟨⟩
      rw [set_slot_self, set_slot_ne hpnp]
      exact ⟨hp, hembryo, hparent, fun x g' hx => absurd rfl (halone x _ g' hx)⟩

end Steps

/-! ## §4  `exit` and `wait` -/

/-- What the loop of `exit` has done after the slots `l`. -/
structure Adopted (cur : Fin nproc) (l : List (Fin nproc)) (s s' : State) : Prop where
  initproc : s'.initproc = s.initproc
  place : s'.place = s.place
  chan : ∀ p, (s'.slot p).chan = (s.slot p).chan
  pid : ∀ p, (s'.slot p).pid = (s.slot p).pid
  killed : ∀ p, (s'.slot p).killed = (s.slot p).killed
  state : ∀ p, Rouses (s.slot p).state (s'.slot p).state
  parent : ∀ p, (s'.slot p).parent =
    if p ∈ l ∧ (s.slot p).parent = some cur then some s.initproc else (s.slot p).parent
  woken : ∀ p ∈ l, (s.slot p).parent = some cur → (s.slot p).state = .zombie →
    (s.slot s.initproc).chan = some (.proc s.initproc) →
    (s'.slot s.initproc).state ≠ .sleeping

section Exit

variable {s s' : State} {cur p : Fin nproc} {l : List (Fin nproc)}

/-- One more round, by what it does to the state before it. -/
theorem Adopted.round {s'' : State} (h : Adopted cur l s s') (hp : p ∉ l)
    (hr : Adopted cur [p] s' s'') : Adopted cur (l ++ [p]) s s'' where
  initproc := hr.initproc.trans h.initproc
  place := hr.place.trans h.place
  chan q := (hr.chan q).trans (h.chan q)
  pid q := (hr.pid q).trans (h.pid q)
  killed q := (hr.killed q).trans (h.killed q)
  state q := (h.state q).trans (hr.state q)
  parent q := by
    rw [hr.parent, h.parent, h.initproc]
    by_cases hq : q ∈ l
    · have hqp : q ≠ p := fun heq => hp (heq ▸ hq)
      by_cases hc : (s.slot q).parent = some cur
      · simp [hq, hc, hqp]
      · simp [hq, hc, hqp]
    · by_cases hqp : q = p
      · subst hqp
        simp [hq]
      · simp [hq, hqp]
  woken q hq hc hz hchan := by
    rw [List.mem_append, List.mem_singleton] at hq
    rcases hq with hq | rfl
    · exact fun hsl => h.woken q hq hc hz hchan ((hr.state _).sleeping hsl)
    · rw [← h.initproc]
      refine hr.woken q (List.mem_singleton_self q) ?_ ((h.state q).zombie_iff.mpr hz) ?_
      · rw [h.parent, if_neg fun hl => hp hl.1]
        exact hc
      · rw [h.initproc, h.chan]
        exact hchan

/-- A round of the loop. -/
theorem adopt_adopted (cur : Fin nproc) (s : State) (p : Fin nproc) :
    Adopted cur [p] s (adopt cur s p) := by
  have hparent : ∀ q, ((s.set p { s.slot p with parent := some s.initproc }).slot q).parent =
      if q = p then some s.initproc else (s.slot q).parent := by
    intro q
    by_cases hq : q = p
    · rw [if_pos hq, hq, set_slot_self]
    · rw [if_neg hq, set_slot_ne hq]
  unfold adopt
  split
  · rename_i hchild
    have hif : ∀ q, (if q ∈ [p] ∧ (s.slot q).parent = some cur then some s.initproc
        else (s.slot q).parent) = if q = p then some s.initproc else (s.slot q).parent := by
      intro q
      by_cases hq : q = p
      · simp [hq, hchild]
      · simp [hq]
    simp only
    split
    · -- a zombie: `initproc` is woken
      rename_i hz
      have hr := wakeup1_roused (some (.proc s.initproc))
        (s.set p { s.slot p with parent := some s.initproc })
      refine ⟨hr.initproc, hr.place, fun q => (hr.chan q).trans (set_keeps Slot.chan (by rfl) q),
        fun q => (hr.pid q).trans (set_keeps Slot.pid (by rfl) q),
        fun q => (wakeup1_killed _ _ q).trans (set_keeps Slot.killed (by rfl) q),
        fun q => ?_, fun q => ?_,
        fun q _ _ _ hchan => wakeup1_wakes ((set_keeps Slot.chan (by rfl) _).trans hchan)⟩
      · have hst : ((s.set p { s.slot p with parent := some s.initproc }).slot q).state =
            (s.slot q).state := set_keeps Slot.state (by rfl) q
        have hrst := hr.state q
        rwa [hst] at hrst
      · rw [hif, ← hparent]
        exact hr.parent q
    · rename_i hz
      refine ⟨rfl, rfl, set_keeps Slot.chan (by rfl), set_keeps Slot.pid (by rfl),
        set_keeps Slot.killed (by rfl), fun q => .inl (set_keeps Slot.state (by rfl) q),
        fun q => (hparent q).trans (hif q).symm, fun q hq _ hzombie => ?_⟩
      rw [List.mem_singleton] at hq
      subst hq
      rw [set_slot_self] at hz
      exact absurd hzombie hz
  · rename_i hchild
    refine ⟨rfl, rfl, fun _ => rfl, fun _ => rfl, fun _ => rfl, fun _ => .inl rfl, fun q => ?_,
      fun q hq hc => ?_⟩
    · rw [if_neg]
      rintro ⟨hq, hc⟩
      rw [List.mem_singleton] at hq
      exact hchild (hq ▸ hc)
    · rw [List.mem_singleton] at hq
      exact absurd (hq ▸ hc) hchild

/-- **The loop of `exit`.** -/
theorem foldl_adopt (cur : Fin nproc) (s : State) : ∀ l : List (Fin nproc), l.Nodup →
    Adopted cur l s (l.foldl (adopt cur) s) := by
  intro l
  induction l using List.reverseRecOn with
  | nil =>
    intro _
    refine ⟨rfl, rfl, fun _ => rfl, fun _ => rfl, fun _ => rfl, fun _ => .inl rfl, fun q => ?_,
      fun q hq => absurd hq List.not_mem_nil⟩
    simp
  | append_singleton l p ih =>
    intro hnodup
    rw [List.foldl_append]
    have hsplit := List.nodup_append.mp hnodup
    refine (ih hsplit.1).round (fun hp => ?_) (adopt_adopted cur _ p)
    exact hsplit.2.2 p hp p (List.mem_singleton_self p) rfl

/-- What `exit` leaves: a zombie, its children with `initproc`, and its parent
awake, and `initproc` as well if one of the children is a zombie. -/
structure Exited (cur : Fin nproc) (s s' : State) : Prop where
  initproc : s'.initproc = s.initproc
  place : s'.place = s.place
  chan : ∀ p, (s'.slot p).chan = (s.slot p).chan
  pid : ∀ p, (s'.slot p).pid = (s.slot p).pid
  killed : ∀ p, (s'.slot p).killed = (s.slot p).killed
  self : (s'.slot cur).state = .zombie
  state : ∀ p, p ≠ cur → Rouses (s.slot p).state (s'.slot p).state
  parent : ∀ p, (s'.slot p).parent =
    if (s.slot p).parent = some cur then some s.initproc else (s.slot p).parent
  parentWoken : ∀ q, q ≠ cur → (s.slot cur).parent = some q → (s.slot q).chan = some (.proc q) →
    (s'.slot q).state ≠ .sleeping
  initWoken : ∀ p, (s.slot p).parent = some cur → (s.slot p).state = .zombie →
    s.initproc ≠ cur → (s.slot s.initproc).chan = some (.proc s.initproc) →
    (s'.slot s.initproc).state ≠ .sleeping

theorem exit_exited (cur : Fin nproc) (s : State) : Exited cur s (exit cur s) := by
  have hr := wakeup1_roused ((s.slot cur).parent.map .proc) s
  have ha := foldl_adopt cur (wakeup1 ((s.slot cur).parent.map .proc) s) (List.finRange nproc)
    (List.nodup_finRange nproc)
  unfold exit
  generalize hs₁ : wakeup1 ((s.slot cur).parent.map .proc) s = s₁ at hr ha
  generalize hs₂ : (List.finRange nproc).foldl (adopt cur) s₁ = s₂ at ha
  simp only [hs₂]
  have hne : ∀ {q}, q ≠ cur → (s₂.setState cur .zombie).slot q = s₂.slot q := fun hq =>
    set_slot_ne hq _
  have hself : (s₂.setState cur .zombie).slot cur = { s₂.slot cur with state := .zombie } :=
    set_slot_self ..
  have hk : ∀ q, (s₁.slot q).killed = (s.slot q).killed := fun q => hs₁ ▸ wakeup1_killed _ s q
  refine ⟨ha.initproc.trans hr.initproc, ha.place.trans hr.place, fun q => ?_, fun q => ?_,
    fun q => (set_keeps Slot.killed (by rfl) q).trans ((ha.killed q).trans (hk q)), ?_,
    fun q hq => by rw [hne hq]; exact (hr.state q).trans (ha.state q), fun q => ?_,
    fun q hq hpar hchan => ?_, fun q hpar hz hinit hchan => ?_⟩
  · exact (set_keeps Slot.chan (by rfl) q).trans ((ha.chan q).trans (hr.chan q))
  · exact (set_keeps Slot.pid (by rfl) q).trans ((ha.pid q).trans (hr.pid q))
  · rw [hself]
  · refine (set_keeps Slot.parent (by rfl) q).trans ?_
    rw [ha.parent, hr.parent, hr.initproc]
    simp [List.mem_finRange]
  · rw [hne hq]
    have hawake : (s₁.slot q).state ≠ .sleeping := by
      rw [← hs₁]
      refine wakeup1_wakes ?_
      rw [hpar]
      exact hchan
    exact fun hsl => hawake ((ha.state q).sleeping hsl)
  · rw [hne hinit, ← hr.initproc]
    refine ha.woken q (List.mem_finRange q) ((hr.parent q).trans hpar)
      ((hr.state q).zombie_iff.mpr hz) ?_
    rw [hr.initproc]
    exact (hr.chan _).trans hchan

end Exit

section Calls

variable {s s' : State} {p : Fin nproc}

/-- A process exits that is not `initproc`. -/
theorem Family.exit (h : Family s) (hp : (s.slot p).state = .running)
    (hout : ∀ np g, s.place p ≠ .fork np g) (hinit : p ≠ s.initproc) : Family (exit p s) := by
  have he := exit_exited p s
  have hlive : ∀ {q}, q ≠ p → ((Ptable.exit p s).slot q).state.live = (s.slot q).state.live :=
    fun hq => (he.state _ hq).live
  have hzombie : ∀ {q}, q ≠ p → (((Ptable.exit p s).slot q).state = .zombie ↔
      (s.slot q).state = .zombie) := fun hq => (he.state _ hq).zombie_iff
  have hasleep : ∀ {q}, ((Ptable.exit p s).slot q).state = .sleeping →
      q ≠ p ∧ (s.slot q).state = .sleeping := by
    intro q hq
    have hqp : q ≠ p := by
      rintro rfl
      rw [he.self] at hq
      cases hq
    exact ⟨hqp, (he.state q hqp).sleeping hq⟩
  refine ⟨?_, fun q hq hst => ?_, fun q np g hq => ?_, fun q r np g g' hq hr => ?_,
    fun q hsl hq => ?_⟩
  · rw [he.initproc, hlive (Ne.symm hinit)]
    exact h.init
  · rw [he.initproc] at hq
    have hold : (s.slot q).state.live = true ∨ (s.slot q).state = .zombie := by
      by_cases hqp : q = p
      · rw [hqp, hp]
        exact .inl rfl
      · rwa [hlive hqp, hzombie hqp] at hst
    obtain ⟨r, hrq, hr, hrl⟩ := h.parents q hq hold
    rw [he.parent]
    by_cases hrp : r = p
    · refine ⟨s.initproc, Ne.symm hq, ?_, ?_⟩
      · rw [if_pos (hrp ▸ hr)]
      · rw [hlive (Ne.symm hinit)]
        exact h.init
    · refine ⟨r, hrq, ?_, (hlive hrp).trans hrl⟩
      rw [if_neg, hr]
      rw [hr]
      exact fun heq => hrp (Option.some.inj heq)
  · rw [he.place] at hq
    obtain ⟨hl, hembryo, hparent⟩ := h.forks q np g hq
    have hqp : q ≠ p := fun heq => hout np g (heq ▸ hq)
    have hnp : np ≠ p := by
      rintro rfl
      rw [hp] at hembryo
      cases hembryo
    refine ⟨(hlive hqp).trans hl, ?_, fun hg => ?_⟩
    · exact ((he.state np hnp).eq_iff (by decide) (by decide)).mpr hembryo
    · rw [he.parent, hparent hg, if_neg fun heq => hqp (Option.some.inj heq)]
  · rw [he.place] at hq hr
    exact h.alone q r np g g' hq hr
  · obtain ⟨hqp, hold⟩ := hasleep hsl
    rw [he.place] at hq
    obtain ⟨hchan, hkids⟩ := h.waits q hold hq
    refine ⟨(he.chan q).trans hchan, fun r hr hz => ?_⟩
    rw [he.parent] at hr
    by_cases hrp : r = p
    · -- the exiting process has woken its parent
      subst hrp
      obtain ⟨x, hxr, hx, -⟩ := h.parents r hinit (.inl (by rw [hp]; rfl))
      rw [if_neg (by rw [hx]; exact fun heq => hxr (Option.some.inj heq)), hx] at hr
      obtain rfl := Option.some.inj hr
      exact he.parentWoken x hqp hx hchan hsl
    · rw [hzombie hrp] at hz
      by_cases hc : (s.slot r).parent = some p
      · -- a zombie that `initproc` gets wakes it
        rw [if_pos hc] at hr
        obtain rfl := Option.some.inj hr
        exact he.initWoken r hc hz (Ne.symm hinit) hchan hsl
      · rw [if_neg hc] at hr
        exact hkids r hr hz

/-- A parent reaps a child. -/
theorem Family.reap (h : Family s) {q : Fin nproc} (hz : (s.slot q).state = .zombie) {r : Slot}
    (hr : r.state = .unused) : Family (s.set q r) := by
  have hnot : ∀ {x}, (s.slot x).state.live = true → x ≠ q := by
    rintro x hx rfl
    rw [hz] at hx
    cases hx
  refine ⟨?_, fun x hx hst => ?_, fun x np g hx => ?_, h.alone, fun x hsl hx => ?_⟩
  · simp only [set_initproc]
    rw [set_slot_ne (hnot h.init)]
    exact h.init
  · have hxq : x ≠ q := by
      rintro rfl
      rw [set_slot_self, hr] at hst
      rcases hst with hst | hst <;> cases hst
    rw [set_slot_ne hxq] at hst ⊢
    obtain ⟨y, hyx, hy, hl⟩ := h.parents x hx hst
    exact ⟨y, hyx, hy, by rw [set_slot_ne (hnot hl)]; exact hl⟩
  · obtain ⟨hl, hembryo, hparent⟩ := h.forks x np g hx
    have hnp : np ≠ q := by
      rintro rfl
      rw [hz] at hembryo
      cases hembryo
    rw [set_slot_ne (hnot hl), set_slot_ne hnp]
    exact ⟨hl, hembryo, hparent⟩
  · have hxq : x ≠ q := by
      rintro rfl
      rw [set_slot_self, hr] at hsl
      cases hsl
    rw [set_slot_ne hxq] at hsl ⊢
    obtain ⟨hchan, hkids⟩ := h.waits x hsl hx
    refine ⟨hchan, fun y hy => ?_⟩
    by_cases hyq : y = q
    · rw [hyq, set_slot_self, hr]
      decide
    · rw [set_slot_ne hyq] at hy ⊢
      exact hkids y hy

/-- A process goes to sleep in `wait`. -/
theorem Family.sleeps (h : Family s) (hp : (s.slot p).state = .running)
    (hkids : ∀ q, (s.slot q).parent = some p → (s.slot q).state ≠ .zombie) :
    Family ((s.set p { s.slot p with chan := some (.proc p), state := .sleeping }).go p .wait) := by
  have hset : Family ((s.go p .outside).set p { s.slot p with
      chan := some (.proc p), state := .sleeping }) := by
    refine (h.outside p).live (by rw [go_slot, hp]; rfl) rfl rfl fun _ => ?_
    rw [go_place_self]
    exact nofun
  have hgo := hset.go (p := p) (a := .wait) nofun fun _ _ => ?_
  · exact (go_go (s.set p _) ..) ▸ hgo
  · simp only [set_slot_self, true_and]
    intro y hy
    by_cases hyp : y = p
    · rw [hyp, set_slot_self]
      exact nofun
    · rw [set_slot_ne hyp] at hy ⊢
      exact hkids y hy

end Calls

/-! ## §5  Every step, every run -/

/-- **What one step keeps.** -/
theorem Family.step {s s' : State} {e : Event} (h : Family s) (hs : Step s e s') : Family s' := by
  -- a `fork` is alone with its slot
  have hothers : ∀ {p np g}, s.place p = .fork np g → ∀ x np' g', x ≠ p →
      s.place x = .fork np' g' → np' ≠ np := by
    rintro p np g hp x _ g' hx hplace rfl
    exact hx (h.alone x p _ g' g hplace hp)
  have hlive : ∀ {p}, (s.slot p).state = .running → (s.slot p).state.live = true := by
    intro p hp
    rw [hp]
    rfl
  cases hs with
  | full hp => exact h
  | @alloc p np hp hnp =>
    have hset : Family ((s.set np { s.slot np with state := .embryo, pid := s.nextpid }).go p
        (.fork np .kstack)) := by
      refine h.reslot (hlive hp.1) (.inl hnp) nofun nofun
        ?_ (.inr ⟨_, rfl, rfl, nofun⟩)
      rintro x _ g - hplace rfl
      have hembryo := (h.forks x _ g hplace).2.1
      rw [hnp] at hembryo
      cases hembryo
    exact ⟨hset.init, hset.parents, hset.forks, hset.alone, hset.waits⟩
  | @kstack p np hp =>
    obtain ⟨hl, hembryo, -⟩ := h.forks p np _ hp.2
    have hset := h.reslot (q := s.slot np) (a := .fork np .copyuvm) hl (.inr hembryo)
      (by rw [hembryo]; exact nofun)
      (by rw [hembryo]; exact nofun) (hothers hp.2)
      (.inr ⟨_, rfl, hembryo, nofun⟩)
    rwa [State.set, update_eq_self] at hset
  | @kstackFails p np hp | @copyuvmFails p np hp =>
    obtain ⟨hl, hembryo, -⟩ := h.forks p np _ hp.2
    exact h.reslot hl (.inr hembryo) nofun nofun
      (hothers hp.2) (.inl rfl)
  | @copyuvm p np hp =>
    obtain ⟨hl, hembryo, -⟩ := h.forks p np _ hp.2
    refine h.reslot hl (.inr hembryo) ?_ ?_ (hothers hp.2) (.inr ⟨_, rfl, hembryo, fun _ => rfl⟩)
    · rw [hembryo]
      exact nofun
    · rw [hembryo]
      exact nofun
  | @ready p np hp =>
    obtain ⟨hl, hembryo, hparent⟩ := h.forks p np _ hp.2
    refine (h.outside np).reslot (a := .outside) hl (.inr hembryo) nofun
      (fun _ => ⟨nofun, hparent rfl⟩) (fun x np' g hx hplace => ?_) (.inl rfl)
    by_cases hxnp : x = np
    · rw [hxnp, go_place_self] at hplace
      cases hplace
    · rw [go_place_ne hxnp] at hplace
      exact hothers hp.2 x np' g hx hplace
  | giveUp hp => exact h.go nofun nofun
  | exit hp hinit =>
    refine h.exit hp.1 (fun np g hplace => ?_) hinit
    rcases hp.2 with hout | hout <;> rw [hout] at hplace <;> cases hplace
  | reap hp hpar hz => exact (h.reap hz rfl).outside _
  | waitFails hp => exact h.outside _
  | waitSleeps hp hkids => exact h.sleeps hp hkids
  | kill hp => exact h.roused (kill_roused _ s)
  | sched hp => exact h.live (by rw [hp]; rfl) rfl rfl nofun
  | yield hp => exact h.live (hlive hp) rfl rfl nofun
  | sleep hp =>
    refine h.live (hlive hp.1) rfl rfl fun _ hplace => ?_
    rcases hp.2 with hout | hout <;> rw [hout] at hplace <;> cases hplace
  | wakeup hp => exact h.roused (wakeup1_roused _ s)

theorem Family.run {s₀ s : State} {es : List Event} (h₀ : Boot s₀) (hr : system.Run s₀ es s) :
    Family s :=
  hr.invariant (fun _ _ _ h hs => h.step (step_of_next hs)) h₀.family

/-- The event makes a zombie of process `p`. -/
def Event.exits (p : Fin nproc) : Event → Bool
  | .exit q => q = p
  | _ => false

/-- The event is a `wait` that returns with process `p`. -/
def Event.reaps (p : Fin nproc) : Event → Bool
  | .wait _ (.reaped q _) => q = p
  | _ => false

/-- A step that is neither `exit` nor a `wait` that returns a child. -/
def Event.calm : Event → Bool
  | .exit _ | .wait _ (.reaped _ _) => false
  | _ => true

section Zombies

variable {s s' : State} {e : Event} {p q : Fin nproc}

theorem not_exits_of_calm (h : e.calm = true) (p : Fin nproc) : e.exits p = false := by
  cases e <;> first | rfl | cases h

theorem not_reaps_of_calm (h : e.calm = true) (p : Fin nproc) : e.reaps p = false := by
  unfold Event.reaps
  split
  · cases h
  · rfl

/-- A slot that is no zombie and becomes none. -/
theorem zombie_set {x : Slot} (hold : (s.slot q).state ≠ .zombie) (hnew : x.state ≠ .zombie)
    (p : Fin nproc) :
    (((s.set q x).slot p).state = .zombie ↔ (s.slot p).state = .zombie) ∧
    ((s.slot p).state = .zombie → ((s.set q x).slot p).pid = (s.slot p).pid) := by
  by_cases hp : p = q
  · rw [hp, set_slot_self]
    exact ⟨iff_of_false hnew hold, fun hz => absurd hz hold⟩
  · rw [set_slot_ne hp]
    exact ⟨Iff.rfl, fun _ => rfl⟩

/-- No other step makes a zombie, or changes one. -/
theorem zombie_calm (h : Family s) (hs : Step s e s') (he : e.calm = true) (p : Fin nproc) :
    ((s'.slot p).state = .zombie ↔ (s.slot p).state = .zombie) ∧
    ((s.slot p).state = .zombie → (s'.slot p).pid = (s.slot p).pid) := by
  have hrouse : ∀ {s'}, Roused s s' → ((s'.slot p).state = .zombie ↔ (s.slot p).state = .zombie) ∧
      ((s.slot p).state = .zombie → (s'.slot p).pid = (s.slot p).pid) := fun hr =>
    ⟨(hr.state p).zombie_iff, fun _ => hr.pid p⟩
  have hne : ∀ {q : Fin nproc} {st}, (s.slot q).state = st → st ≠ .zombie →
      (s.slot q).state ≠ .zombie := fun hq hst => by rwa [hq]
  have hembryo : ∀ {q np g}, s.place q = .fork np g → (s.slot np).state = .embryo :=
    fun hq => (h.forks _ _ _ hq).2.1
  cases hs with
  | full hp | kstack hp | giveUp hp | waitFails hp => exact ⟨Iff.rfl, fun _ => rfl⟩
  | alloc hp hnp => exact zombie_set (hne hnp (by decide)) (by nofun) p
  | kstackFails hp | copyuvmFails hp | ready hp =>
    exact zombie_set (hne (hembryo hp.2) (by decide)) (by nofun) p
  | copyuvm hp =>
    have hnp := hne (hembryo hp.2) (by decide)
    exact zombie_set hnp (by exact hnp) p
  | exit hp hinit => cases he
  | reap hp hpar hz => cases he
  | waitSleeps hp hkids | sched hp | yield hp => exact zombie_set (hne hp (by decide)) (by nofun) p
  | kill hp => exact hrouse (kill_roused _ s)
  | sleep hp => exact zombie_set (hne hp.1 (by decide)) (by nofun) p
  | wakeup hp => exact hrouse (wakeup1_roused _ s)

/-- **A zombie stays one, under its pid, until a `wait` of its parent returns that
pid and frees its slot.** -/
theorem zombie_step (h : Family s) (hs : Step s e s') (hz : (s.slot p).state = .zombie) :
    (s'.slot p).state = .zombie ∧ (s'.slot p).pid = (s.slot p).pid ∨
    ∃ q, (s.slot p).parent = some q ∧ e = .wait q (.reaped p (s.slot p).pid) ∧
      (s'.slot p).state = .unused := by
  by_cases he : e.calm = true
  · obtain ⟨hst, hpid⟩ := zombie_calm h hs he p
    exact .inl ⟨hst.mpr hz, hpid hz⟩
  · cases hs with
    | @exit q hp hinit =>
      have hx := exit_exited q s
      by_cases hpq : p = q
      · rw [hpq, hp.1] at hz
        cases hz
      · exact .inl ⟨(hx.state p hpq).zombie_iff.mpr hz, hx.pid p⟩
    | @reap r q hp hpar hq =>
      by_cases hpq : p = q
      · subst hpq
        exact .inr ⟨r, hpar, rfl, congrArg Slot.state (set_slot_self ..)⟩
      · refine .inl ?_
        rw [go_slot, set_slot_ne hpq]
        exact ⟨hz, rfl⟩
    | _ => exact absurd rfl he

/-- How many zombies slot `p` holds. -/
def State.zombies (s : State) (p : Fin nproc) : Nat :=
  if (s.slot p).state = .zombie then 1 else 0

theorem zombies_congr (h : (s'.slot p).state = .zombie ↔ (s.slot p).state = .zombie) :
    s'.zombies p = s.zombies p := by
  unfold State.zombies
  simp only [h]

/-- What a step adds to the exits of a slot and to its reaps. -/
theorem zombies_step (h : Family s) (hs : Step s e s') (p : Fin nproc) :
    [e].countP (Event.exits p) + s.zombies p = [e].countP (Event.reaps p) + s'.zombies p := by
  by_cases he : e.calm = true
  · rw [zombies_congr (zombie_calm h hs he p).1, List.countP_singleton, List.countP_singleton,
      not_exits_of_calm he, not_reaps_of_calm he]
  · cases hs with
    | @exit q hp hinit =>
      have hx := exit_exited q s
      by_cases hpq : p = q
      · subst hpq
        simp [Event.exits, Event.reaps, State.zombies, hx.self, hp.1]
      · rw [zombies_congr (hx.state p hpq).zombie_iff]
        simp [Event.exits, Event.reaps, Ne.symm hpq]
    | @reap r q hp hpar hq =>
      by_cases hpq : p = q
      · subst hpq
        simp [Event.exits, Event.reaps, State.zombies, hq]
      · have hsame : (((s.set q { s.slot q with
            pid := 0, parent := none, killed := false, state := .unused }).go r .outside).slot
              p).state = .zombie ↔ (s.slot p).state = .zombie := by
          rw [go_slot, set_slot_ne hpq]
        rw [zombies_congr hsame]
        simp [Event.exits, Event.reaps, Ne.symm hpq]
    | _ => exact absurd rfl he

/-- Between two states of a run every exit of a slot is followed by one reap,
except the last if the slot is a zombie. -/
theorem zombies_run {es : List Event} (h : Family s) (hr : system.Run s es s') (p : Fin nproc) :
    es.countP (Event.exits p) + s.zombies p = es.countP (Event.reaps p) + s'.zombies p := by
  refine (hr.history (I := fun es t => Family t ∧
    es.countP (Event.exits p) + s.zombies p = es.countP (Event.reaps p) + t.zombies p)
    (fun hist t e t' ht hs => ?_) ⟨h, by simp⟩).2
  obtain ⟨hfam, hcount⟩ := ht
  have hstep := step_of_next hs
  refine ⟨hfam.step hstep, ?_⟩
  have hone := zombies_step hfam hstep p
  rw [List.countP_append, List.countP_append]
  omega

end Zombies

/-- **Parents, children and zombies.** In every state of every run every process
but `initproc`, alive or a zombie, has a parent that is neither free nor a zombie, and nobody sleeps
in `wait` beside a zombie child. A zombie stays one, under its pid, until a `wait`
of its parent returns that pid and leaves its slot UNUSED; and between any two
states of a run the slot's exits and the `wait`s that return it are as many,
up to the zombies at the two ends. -/
theorem family_holds {s₀ s : State} {es : List Event} (h₀ : Boot s₀) (hr : system.Run s₀ es s) :
    (∀ p, p ≠ s.initproc → (s.slot p).state.live = true ∨ (s.slot p).state = .zombie →
      ∃ q, (s.slot p).parent = some q ∧ (s.slot q).state ≠ .unused ∧ (s.slot q).state ≠ .zombie) ∧
    (∀ p, (s.slot p).state = .sleeping → s.place p = .wait →
      ∀ q, (s.slot q).parent = some p → (s.slot q).state ≠ .zombie) ∧
    (∀ p e s', system.step s e s' → (s.slot p).state = .zombie →
      (s'.slot p).state = .zombie ∧ (s'.slot p).pid = (s.slot p).pid ∨
      ∃ q, (s.slot p).parent = some q ∧ e = .wait q (.reaped p (s.slot p).pid) ∧
        (s'.slot p).state = .unused) ∧
    ∀ p es' s', system.Run s es' s' →
      es'.countP (Event.exits p) + s.zombies p = es'.countP (Event.reaps p) + s'.zombies p := by
  have h := Family.run h₀ hr
  refine ⟨fun p hp hst => ?_, fun p hsl hp => (h.waits p hsl hp).2,
    fun p e s' hs hz => zombie_step h (step_of_next hs) hz, fun p es' s' hr' => zombies_run h hr' p⟩
  obtain ⟨q, -, hq, hl⟩ := h.parents p hp hst
  refine ⟨q, hq, fun heq => ?_, fun heq => ?_⟩ <;> rw [heq] at hl <;> cases hl

/-- The state after `userinit`. -/
def booted : State where
  slot p := if p = 0 then ⟨.runnable, 1, none, none, false⟩ else ⟨.unused, 0, none, none, false⟩
  initproc := 0
  nextpid := 2
  place _ := .outside

theorem boot_booted : Boot booted where
  init := rfl
  others _ hp := if_neg hp
  nextpid := rfl
  place _ := rfl

set_option maxRecDepth 4096 in
/-- `initproc` forks and waits; the child forks, too, and exits in `manage_fork`. Its
own child stays an EMBRYO, with `initproc`. -/
theorem family_holds_waiting : ∃ es s, Boot booted ∧ system.Run booted es s ∧
    (s.slot 1).state = .zombie ∧ (s.slot 2).state = .embryo ∧ (s.slot 2).parent = some 0 ∧
    ∃ q, (s.slot 1).parent = some q ∧ (s.slot q).state ≠ .unused ∧ (s.slot q).state ≠ .zombie := by
  obtain ⟨s, hs, hz, hchild, hparent, hinit⟩ : ∃ s, [Event.sched 0, .alloc 0 (some 1), .kstack 0 true,
      .copyuvm 0 true, .ready 0 1, .wait 0 .sleeps, .sched 1, .alloc 1 (some 2),
      .kstack 1 true, .copyuvm 1 true, .giveUp 1 2, .exit 1].foldlM
        (System.guardedNext next fun _ _ => True) booted = some s ∧
      (s.slot 1).state = .zombie ∧ (s.slot 2).state = .embryo ∧ (s.slot 2).parent = some 0 ∧
      s.initproc = 0 := ⟨_, rfl, rfl, rfl, rfl, rfl⟩
  have hrun := (System.run_ofNext hs).of_guarded
  refine ⟨_, s, boot_booted, hrun, hz, hchild, hparent, ?_⟩
  exact (family_holds boot_booted hrun).1 1 (by rw [hinit]; decide) (.inr hz)

end Xv6.Ptable
