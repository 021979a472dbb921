import Xv6.Proc.Family

/-!
# Who `kill` kills

`kill` takes the first slot with the pid, whatever the state of the slot, and a
slot keeps its pid and its `killed` when a `fork` that has taken it fails. So it
may report success for a slot that is nobody's, and mark the next process that
gets the slot.

Where no UNUSED slot has the pid that is killed, and no `fork` fails after its
child has been killed, `kill` finds exactly the processes, and a child starts
with `killed` set only if it was killed under its own pid.
-/

namespace Xv6.Ptable

open Transition

/-! ## §1  Who writes `killed` and `pid`, and who frees a slot -/

section Writes

variable {s s' : State} {e : Event} {q : Fin nproc}

theorem findPid_some {pid : Int32} (h : findPid s pid = some q) : (s.slot q).pid = pid := by
  have hfound := List.find?_some h
  exact of_decide_eq_true hfound

theorem findPid_none {pid : Int32} (h : findPid s pid = none) (q : Fin nproc) :
    (s.slot q).pid ≠ pid := by
  rw [findPid, List.find?_eq_none] at h
  exact fun hpid => h q (List.mem_finRange q) (decide_eq_true hpid)

theorem kill_some {pid : Int32} (h : findPid s pid = some q) :
    kill pid s = (0, s.set q { s.slot q with
      killed := true
      state := if (s.slot q).state = .sleeping then .runnable else (s.slot q).state }) := by
  rw [kill, h]

theorem kill_none {pid : Int32} (h : findPid s pid = none) : kill pid s = (-1, s) := by
  rw [kill, h]

/-- Only `kill` sets `killed`, in the first slot with the pid. -/
theorem killed_step (hs : Step s e s') (hk : (s'.slot q).killed = true) :
    (s.slot q).killed = true ∨
    ∃ p, e = .kill p (s.slot q).pid 0 ∧ findPid s (s.slot q).pid = some q := by
  have hset : ∀ {x : Fin nproc} {y : Slot}, (y.killed = true → (s.slot x).killed = true) →
      ((s.set x y).slot q).killed = true → (s.slot q).killed = true := by
    intro x y hy hkilled
    by_cases hq : q = x
    · subst hq
      rw [set_slot_self] at hkilled
      exact hy hkilled
    · rwa [set_slot_ne hq] at hkilled
  cases hs with
  | full _ | kstack _ | giveUp _ | waitFails _ => exact .inl hk
  | alloc _ _ | kstackFails _ | copyuvm _ | copyuvmFails _ | ready _ | waitSleeps _ _ | sched _
  | yield _ | sleep _ => exact .inl (hset (by exact id) hk)
  | @exit p _ _ => exact .inl (((exit_exited p s).killed q).symm.trans hk)
  | reap _ _ _ => exact .inl (hset (by nofun) hk)
  | @kill p pid _ =>
    cases hfind : findPid s pid with
    | none =>
      rw [kill_none hfind] at hk
      exact .inl hk
    | some x =>
      rw [kill_some hfind] at hk ⊢
      by_cases hq : q = x
      · subst hq
        rw [findPid_some hfind]
        exact .inr ⟨p, rfl, hfind⟩
      · simp only at hk
        rw [set_slot_ne hq] at hk
        exact .inl hk
  | wakeup _ => exact .inl ((wakeup1_killed _ s q).symm.trans hk)

/-- The pid of a slot changes when the slot is taken and when it is reaped. -/
theorem pid_step (hs : Step s e s') : (s'.slot q).pid = (s.slot q).pid ∨
    (∃ p, e = .alloc p (some q) ∧ (s.slot q).state = .unused) ∨ (s.slot q).state = .zombie := by
  cases hs with
  | full _ | kstack _ | giveUp _ | waitFails _ => exact .inl rfl
  | @alloc p np _ hnp =>
    by_cases hq : q = np
    · subst hq
      exact .inr (.inl ⟨p, rfl, hnp⟩)
    · exact .inl (congrArg Slot.pid (set_slot_ne hq _))
  | kstackFails _ | copyuvm _ | copyuvmFails _ | ready _ | waitSleeps _ _ | sched _ | yield _
  | sleep _ => exact .inl (set_keeps Slot.pid (by rfl) q)
  | @exit p _ _ => exact .inl ((exit_exited p s).pid q)
  | @reap p x _ _ hx =>
    by_cases hq : q = x
    · subst hq
      exact .inr (.inr hx)
    · exact .inl (congrArg Slot.pid (set_slot_ne hq _))
  | kill _ => exact .inl ((kill_roused _ s).pid q)
  | wakeup _ => exact .inl ((wakeup1_roused _ s).pid q)

/-- The `fork` of some process fails in this step, with slot `np` in its hands. -/
def FailsWith (s : State) (np : Fin nproc) : Event → Prop
  | .kstack p ok => ok = false ∧ s.place p = .fork np .kstack
  | .copyuvm p ok => ok = false ∧ s.place p = .fork np .copyuvm
  | _ => False

/-- A slot is freed by a `fork` that fails, or by `wait`, which clears `killed`. -/
theorem unused_step (hs : Step s e s') (hu : (s'.slot q).state = .unused) :
    (s.slot q).state = .unused ∨ FailsWith s q e ∨ (s'.slot q).killed = false := by
  have hset : ∀ {x : Fin nproc} {y : Slot}, y.state ≠ .unused →
      ((s.set x y).slot q).state = .unused → (s.slot q).state = .unused := by
    intro x y hy hu
    by_cases hq : q = x
    · rw [hq, set_slot_self] at hu
      exact absurd hu hy
    · rwa [set_slot_ne hq] at hu
  have hfree : ∀ {x : Fin nproc}, ((s.setState x .unused).slot q).state = .unused →
      (s.slot q).state = .unused ∨ q = x := by
    intro x hu
    by_cases hq : q = x
    · exact .inr hq
    · rw [State.setState, set_slot_ne hq] at hu
      exact .inl hu
  cases hs with
  | full _ | kstack _ | giveUp _ | waitFails _ => exact .inl hu
  | alloc _ _ | ready _ | waitSleeps _ _ | sched _ | yield _ | sleep _ =>
    exact .inl (hset (by nofun) hu)
  | kstackFails hp | copyuvmFails hp =>
    rcases hfree hu with hold | rfl
    · exact .inl hold
    · exact .inr (.inl ⟨rfl, hp.2⟩)
  | @copyuvm p np hp =>
    have hsame : ((s.set np { s.slot np with parent := some p }).slot q).state =
        (s.slot q).state := set_keeps Slot.state (by rfl) q
    exact .inl (hsame.symm.trans hu)
  | @exit p _ _ =>
    have hx := exit_exited p s
    by_cases hq : q = p
    · rw [hq, hx.self] at hu
      cases hu
    · exact .inl (((hx.state q hq).eq_iff (by decide) (by decide)).mp hu)
  | @reap p x _ _ _ =>
    by_cases hq : q = x
    · subst hq
      exact .inr (.inr (congrArg Slot.killed (set_slot_self ..)))
    · rw [go_slot, set_slot_ne hq] at hu
      exact .inl hu
  | kill _ => exact .inl ((((kill_roused _ s).state q).eq_iff (by decide) (by decide)).mp hu)
  | wakeup _ => exact .inl ((((wakeup1_roused _ s).state q).eq_iff (by decide) (by decide)).mp hu)

/-- A `fork` under way was there before, with the same slot, or has just taken it. -/
theorem fork_step {p np : Fin nproc} {g : Stage} (hs : Step s e s')
    (hp : s'.place p = .fork np g) : (∃ g', s.place p = .fork np g') ∨
      e = .alloc p (some np) ∧ (s.slot np).state = .unused := by
  have hgo : ∀ {t : State} {x : Fin nproc} {a : Place}, t.place = s.place →
      (t.go x a).place p = .fork np g → s.place p = .fork np g ∨ p = x ∧ a = .fork np g := by
    intro t x a ht hplace
    by_cases hpx : p = x
    · subst hpx
      rw [go_place_self] at hplace
      exact .inr ⟨rfl, hplace⟩
    · rw [go_place_ne hpx, ht] at hplace
      exact .inl hplace
  cases hs with
  | full _ | sched _ | yield _ | sleep _ | wakeup _ => exact .inl ⟨g, hp⟩
  | alloc _ hnp =>
    rcases hgo (by rfl) hp with hold | ⟨rfl, ha⟩
    · exact .inl ⟨g, hold⟩
    · cases ha
      exact .inr ⟨rfl, hnp⟩
  | kstack hx =>
    rcases hgo rfl hp with hold | ⟨rfl, ha⟩
    · exact .inl ⟨g, hold⟩
    · cases ha
      exact .inl ⟨_, hx.2⟩
  | kstackFails _ | copyuvmFails _ | giveUp _ | reap _ _ _ | waitFails _ | waitSleeps _ _ =>
    exact .inl ⟨g, (hgo (by rfl) hp).resolve_right fun ha => nomatch ha.2⟩
  | copyuvm hx =>
    rcases hgo (by rfl) hp with hold | ⟨rfl, ha⟩
    · exact .inl ⟨g, hold⟩
    · cases ha
      exact .inl ⟨_, hx.2⟩
  | @ready x y _ =>
    by_cases hpx : p = x
    · rw [hpx, go_place_self] at hp
      cases hp
    · rw [go_place_ne hpx] at hp
      exact .inl ⟨g, (hgo (by rfl) hp).resolve_right fun ha => nomatch ha.2⟩
  | @exit x _ _ =>
    rw [(exit_exited x s).place] at hp
    exact .inl ⟨g, hp⟩
  | kill _ =>
    rw [(kill_roused _ s).place] at hp
    exact .inl ⟨g, hp⟩

end Writes

/-! ## §2  What `kill` and `fork` are to do -/

/-- After its latest allocation slot `np` was killed under this pid. -/
def KilledSince (hist : List Event) (np : Fin nproc) (pid : Int32) : Prop :=
  ∃ l r p, hist = l ++ .alloc p (some np) :: r ∧ (∀ x, Event.alloc x (some np) ∉ r) ∧
    ∃ x, Event.kill x pid 0 ∈ r

/-- A step from `s` to `s'` after the history: `kill` returns 0 and marks a
process iff there is one with that pid; and a child that becomes RUNNABLE with
`killed` set was killed. -/
def KillsRight (hist : List Event) (s s' : State) : Event → Prop
  | .kill _ pid r =>
    (r = 0 ↔ ∃ q, (s.slot q).state ≠ .unused ∧ (s.slot q).pid = pid) ∧
    (r = 0 → ∃ q, (s.slot q).state ≠ .unused ∧ (s.slot q).pid = pid ∧
      (s'.slot q).killed = true) ∧
    (r ≠ 0 → ∀ q, (s'.slot q).killed = (s.slot q).killed)
  | .ready _ np => (s'.slot np).killed = true → KilledSince hist np (s'.slot np).pid
  | _ => True

/-- `kill` is called with a pid that no UNUSED slot has, and `fork` does not fail
after its child was killed. -/
def Careful (s : State) : Event → Prop
  | .kill _ pid _ => ∀ q, (s.slot q).state = .unused → (s.slot q).pid ≠ pid
  | .kstack p ok => ok = false → ∀ np, s.place p = .fork np .kstack → (s.slot np).killed = false
  | .copyuvm p ok => ok = false → ∀ np, s.place p = .fork np .copyuvm → (s.slot np).killed = false
  | _ => True

/-- Free slots are unmarked, and a slot that `fork` is at work on is marked only if
it was killed since it was taken. -/
structure Unmarked (hist : List Event) (s : State) : Prop where
  family : Family s
  free : ∀ q, (s.slot q).state = .unused → (s.slot q).killed = false
  taken : ∀ p np g, s.place p = .fork np g →
    ∃ l r x, hist = l ++ .alloc x (some np) :: r ∧ (∀ y, Event.alloc y (some np) ∉ r) ∧
      ((s.slot np).killed = true → ∃ y, Event.kill y (s.slot np).pid 0 ∈ r)

theorem Boot.unmarked {s : State} (h : Boot s) : Unmarked [] s where
  family := h.family
  free q hq := by
    by_cases hinit : q = s.initproc
    · rw [hinit, h.init] at hq
      cases hq
    · rw [h.others q hinit]
  taken p np g hp := by
    rw [h.place p] at hp
    cases hp

section Steps

variable {hist : List Event} {s s' : State} {e : Event}

/-- Under care a free slot is not marked. -/
theorem Unmarked.free_step (h : Unmarked hist s) (hc : Careful s e) (hs : Step s e s')
    (q : Fin nproc) (hu : (s'.slot q).state = .unused) : (s'.slot q).killed = false := by
  by_contra hk
  rw [Bool.not_eq_false] at hk
  have hmarked : (s.slot q).state = .unused → False := by
    intro hold
    rcases killed_step hs hk with hkilled | ⟨p, rfl, -⟩
    · rw [h.free q hold] at hkilled
      cases hkilled
    · exact hc q hold rfl
  rcases unused_step hs hu with hold | hfail | hclear
  · exact hmarked hold
  · have hkilled : (s.slot q).killed = true := by
      rcases killed_step hs hk with hkilled | ⟨p, rfl, -⟩
      · exact hkilled
      · exact hfail.elim
    have hunmarked : (s.slot q).killed = false := by
      cases e with
      | kstack p ok => exact hc hfail.1 q hfail.2
      | copyuvm p ok => exact hc hfail.1 q hfail.2
      | _ => exact hfail.elim
    rw [hunmarked] at hkilled
    cases hkilled
  · rw [hclear] at hk
    cases hk

/-- **What one careful step keeps.** -/
theorem Unmarked.step (h : Unmarked hist s) (hc : Careful s e) (hs : Step s e s') :
    Unmarked (hist ++ [e]) s' := by
  refine ⟨h.family.step hs, h.free_step hc hs, fun p np g hp => ?_⟩
  rcases fork_step hs hp with ⟨g', hold⟩ | ⟨rfl, hfree⟩
  · obtain ⟨l, r, x, rfl, halone, hkill⟩ := h.taken p np g' hold
    have hembryo := (h.family.forks p np g' hold).2.1
    -- the slot is in use, so it is not taken again, and its pid stays
    have hpid : (s'.slot np).pid = (s.slot np).pid := by
      rcases pid_step (q := np) hs with heq | ⟨-, -, hst⟩ | hst
      · exact heq
      · rw [hembryo] at hst
        cases hst
      · rw [hembryo] at hst
        cases hst
    refine ⟨l, r ++ [e], x, by simp, fun y hy => ?_, fun hk => ?_⟩
    · rw [List.mem_append, List.mem_singleton] at hy
      rcases hy with hy | rfl
      · exact halone y hy
      · cases hs with
        | alloc _ hst =>
          rw [hembryo] at hst
          cases hst
    · rcases killed_step hs hk with hkilled | ⟨y, hy, -⟩
      · obtain ⟨y, hy⟩ := hkill hkilled
        rw [hpid]
        exact ⟨y, List.mem_append_left _ hy⟩
      · rw [hpid]
        exact ⟨y, List.mem_append_right _ (hy ▸ List.mem_singleton_self _)⟩
  · refine ⟨hist, [], p, rfl, fun y => List.not_mem_nil, fun hk => ?_⟩
    rcases killed_step hs hk with hkilled | ⟨y, hy, -⟩
    · rw [h.free np hfree] at hkilled
      cases hkilled
    · cases hy

theorem Unmarked.run {s₀ : State} {es : List Event} (h₀ : Boot s₀)
    (hr : (system.guarded Careful).Run s₀ es s) : Unmarked es s := by
  refine hr.history (fun hist s e s' h hs => ?_) h₀.unmarked
  exact h.step hs.1 (step_of_next hs.2)

/-- `kill` of a pid that no UNUSED slot has. -/
theorem kill_right {p : Fin nproc} {pid : Int32}
    (hc : ∀ q, (s.slot q).state = .unused → (s.slot q).pid ≠ pid) :
    KillsRight hist s (Ptable.kill pid s).2 (.kill p pid (Ptable.kill pid s).1) := by
  cases hfind : findPid s pid with
  | none =>
    rw [kill_none hfind]
    refine ⟨iff_of_false (show (-1 : Int) ≠ 0 by decide) ?_, fun hr => ?_, fun _ _ => rfl⟩
    · rintro ⟨q, -, hq⟩
      exact findPid_none hfind q hq
    · cases hr
  | some q =>
    have hpid := findPid_some hfind
    have hused : (s.slot q).state ≠ .unused := fun hu => hc q hu hpid
    rw [kill_some hfind]
    refine ⟨iff_of_true rfl ⟨q, hused, hpid⟩, fun _ => ⟨q, hused, hpid, ?_⟩, fun hr => ?_⟩
    · exact congrArg Slot.killed (set_slot_self ..)
    · exact absurd rfl hr

end Steps

/-- **Who `kill` kills.** In every run in which `kill` is never called with the pid
field of an UNUSED slot and no `fork` fails whose child is already killed:
`kill` returns 0 and sets `killed` iff some process that is not UNUSED has that
pid, and a child becomes RUNNABLE with `killed` set only if it was killed, under
its pid, since its allocation. -/
theorem kills_right {s₀ s s' : State} {es : List Event} {e : Event} (h₀ : Boot s₀)
    (hr : (system.guarded Careful).Run s₀ es s) (hs : (system.guarded Careful).step s e s') :
    KillsRight es s s' e := by
  have h := Unmarked.run h₀ hr
  obtain ⟨hc, hnext⟩ := hs
  have hstep := step_of_next hnext
  cases hstep with
  | kill _ => exact kill_right hc
  | @ready p np hp =>
    intro hk
    obtain ⟨l, r, x, hsplit, halone, hkill⟩ := h.taken p np _ hp.2
    refine ⟨l, r, x, hsplit, halone, ?_⟩
    have hkilled : ((s.setState np .runnable).slot np).killed = (s.slot np).killed :=
      set_keeps Slot.killed (by rfl) np
    have hpid : ((s.setState np .runnable).slot np).pid = (s.slot np).pid :=
      set_keeps Slot.pid (by rfl) np
    simp only [go_slot] at hk ⊢
    rw [hkilled] at hk
    rw [hpid]
    exact hkill hk
  | _ => trivial

instance (s : State) (e : Event) : Decidable (Careful s e) :=
  match e with
  | .kill _ pid _ =>
    inferInstanceAs (Decidable (∀ q, (s.slot q).state = .unused → (s.slot q).pid ≠ pid))
  | .kstack p ok => inferInstanceAs (Decidable (ok = false →
      ∀ np, s.place p = .fork np .kstack → (s.slot np).killed = false))
  | .copyuvm p ok => inferInstanceAs (Decidable (ok = false →
      ∀ np, s.place p = .fork np .copyuvm → (s.slot np).killed = false))
  | .alloc _ _ | .ready _ _ | .giveUp _ _ | .exit _ | .wait _ _ | .sched _ | .yield _ | .sleep _ _
  | .wakeup _ _ => isTrue trivial

set_option maxRecDepth 4096 in
/-- The first child kills the second while `fork` is at work on it. -/
theorem kills_right_embryo : ∃ es s s', Boot booted ∧
    (system.guarded Careful).Run booted es s ∧
    (system.guarded Careful).step s (.ready 0 2) s' ∧ (s'.slot 2).killed = true ∧
    KilledSince es 2 3 := by
  obtain ⟨s, s', hs, hlast, hk, hpid⟩ : ∃ s s', [Event.sched 0, .alloc 0 (some 1),
      .kstack 0 true, .copyuvm 0 true, .ready 0 1, .alloc 0 (some 2), .sched 1, .kill 1 3 0,
      .kstack 0 true, .copyuvm 0 true].foldlM (System.guardedNext next Careful) booted = some s ∧
      next s (.ready 0 2) = some s' ∧ (s'.slot 2).killed = true ∧ (s'.slot 2).pid = 3 :=
    ⟨_, _, rfl, rfl, rfl, rfl⟩
  have hrun := System.run_ofNext hs
  have hstep : (system.guarded Careful).step s (.ready 0 2) s' := ⟨trivial, hlast⟩
  refine ⟨_, s, s', boot_booted, hrun, hstep, hk, ?_⟩
  have hsince : KilledSince _ 2 (s'.slot 2).pid := kills_right boot_booted hrun hstep hk
  rwa [hpid] at hsince

set_option maxRecDepth 4096 in
/-- Right after `userinit`, `kill(0)` finds an UNUSED slot. -/
theorem kills_right_zero : ¬ ∀ {s₀ s s' : State} {es : List Event} {e : Event}, Boot s₀ →
    system.Run s₀ es s → system.step s e s' → KillsRight es s s' e := by
  intro hall
  obtain ⟨s, s', hs, hlast, hpids⟩ : ∃ s s', next booted (.sched 0) = some s ∧
      next s (.kill 0 0 0) = some s' ∧
      ∀ q, ¬ ((s.slot q).state ≠ .unused ∧ (s.slot q).pid = 0) :=
    ⟨_, _, rfl, rfl, by decide⟩
  have hrun : system.Run booted [.sched 0] s := .single hs
  obtain ⟨q, hq⟩ := (hall boot_booted hrun hlast).1.mp rfl
  exact hpids q hq

end Xv6.Ptable
