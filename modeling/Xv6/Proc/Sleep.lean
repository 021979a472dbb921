import Xv6.Library.Monitor

/-!
# `sleep` and `wakeup`, one write at a time

Processes that run

    acquire(lk); while(!cond) sleep(chan, lk); ...; release(lk)
    acquire(lk); cond := true; wakeup(chan); release(lk)

on any number of CPUs, each with its scheduler. `lk` is `ptable.lock` or another
lock; with `ptable.lock` the code of `sleep` takes and drops no second lock, and
the waker calls `wakeup1`. Every lock operation, every write of `p->chan` and
`p->state` and every `swtch` is a step of its own. `yield` and `kill` run beside.

`updates` counts the updates of `cond` and `seen` what the count was when a
process last found `cond` false. They are no part of the source; they say what
"before the last update" means.
-/

namespace Xv6.Sleep

open Monitor Transition Function

/-! ## §1  The machine -/

inductive Lock where
  | ptable
  | other
deriving DecidableEq

/-- `p->state` of a process that is neither being made nor gone. -/
inductive Status where
  | sleeping
  | runnable
  | running
deriving DecidableEq

/-- Where a process goes on when it has the CPU again. -/
inductive Resume where
  | sleep
  | yield

/-- Where a process is. -/
inductive Pc (n : Nat) where
  | user                        -- holds no spin lock; a timer interrupt may come
  -- the waiting process
  | waitLock                    -- `acquire(lk)`
  | test                        -- `while(!cond)`
  | sleepLock                   -- `sleep`: `acquire(&ptable.lock)`
  | sleepUnlock                 -- `release(lk)`
  | setChan                     -- `p->chan = chan`
  | setSleeping                 -- `p->state = SLEEPING`
  | tidy                        -- `p->chan = 0`
  | tidyUnlock                  -- `release(&ptable.lock)`
  | body                        -- after the loop, with `lk`
  -- the waking process
  | wakerLock                   -- `acquire(lk)`
  | update                      -- `cond := true`
  | wakeLock                    -- `wakeup`: `acquire(&ptable.lock)`
  | scan (i : Nat)              -- `wakeup1`: `if(p->state == SLEEPING && p->chan == chan)`
  | wake (i : Fin n)            -- `p->state = RUNNABLE`
  | wakeUnlock                  -- `release(&ptable.lock)`
  | unlock                      -- `release(lk)`
  -- `yield` and `kill`
  | yieldLock                   -- `acquire(&ptable.lock)`
  | setRunnable                 -- `p->state = RUNNABLE`
  | killLock (i : Fin n)        -- `acquire(&ptable.lock)`
  | killTest (i : Fin n)        -- `if(p->state == SLEEPING)`
  | killWake (i : Fin n)        -- `p->state = RUNNABLE`
  | tableUnlock                 -- `release(&ptable.lock)`
  -- `sched`
  | sched (k : Resume)          -- about to `swtch` to the scheduler
  | switched (k : Resume)       -- has no CPU

/-- What a CPU does: `scheduler` before it has the lock, its loop over the table,
`swtch` to the process it has chosen, and the code of that process. -/
inductive Cpu (n : Nat) where
  | idle
  | scan (i : Nat)
  | dispatch (p : Fin n)
  | run (p : Fin n)

/-- Who executes the code that has a lock. -/
inductive Holder (n m : Nat) where
  | proc (p : Fin n)
  | cpu (c : Fin m)
deriving DecidableEq

structure State (n m : Nat) where
  cond : Bool
  lock : Lock → Option (Holder n m)
  status : Fin n → Status
  chan : Fin n → Nat
  pc : Fin n → Pc n
  cpu : Fin m → Cpu n
  updates : Nat
  seen : Fin n → Nat

/-- One statement. -/
inductive Instr (n : Nat) where
  | acquire (x : Lock) (k : Pc n)
  | release (x : Lock) (k : Pc n)
  | status (i : Fin n) (st : Status) (k : Pc n)
  | chan (c : Nat) (k : Pc n)
  | test (k k' : Pc n)          -- `k` if `cond`, and `k'` if not
  | update (k : Pc n)
  | goto (k : Pc n)
  | swtch (k : Resume)

section Machine

variable {n m : Nat} (lk : Lock) (chan : Nat)

/-- The statement a process is at. -/
def instr (s : State n m) (p : Fin n) : Option (Instr n) :=
  match s.pc p with
  | .user | .body | .switched _ => none
  | .waitLock => some (.acquire lk .test)
  | .test => some (.test .body (if lk ≠ .ptable then .sleepLock else .setChan))
  | .sleepLock => some (.acquire .ptable .sleepUnlock)
  | .sleepUnlock => some (.release lk .setChan)
  | .setChan => some (.chan chan .setSleeping)
  | .setSleeping => some (.status p .sleeping (.sched .sleep))
  | .tidy => some (.chan 0 (if lk ≠ .ptable then .tidyUnlock else .test))
  | .tidyUnlock => some (.release .ptable .waitLock)
  | .wakerLock => some (.acquire lk .update)
  | .update => some (.update (if lk ≠ .ptable then .wakeLock else .scan 0))
  | .wakeLock => some (.acquire .ptable (.scan 0))
  | .scan i =>
    if h : i < n then
      if s.status ⟨i, h⟩ = .sleeping ∧ s.chan ⟨i, h⟩ = chan then some (.goto (.wake ⟨i, h⟩))
      else some (.goto (.scan (i + 1)))
    else some (.goto (if lk ≠ .ptable then .wakeUnlock else .unlock))
  | .wake i => some (.status i .runnable (.scan (i + 1)))
  | .wakeUnlock => some (.release .ptable .unlock)
  | .unlock => some (.release lk .user)
  | .yieldLock => some (.acquire .ptable .setRunnable)
  | .setRunnable => some (.status p .runnable (.sched .yield))
  | .killLock i => some (.acquire .ptable (.killTest i))
  | .killTest i =>
    some (.goto (if s.status i = .sleeping then .killWake i else .tableUnlock))
  | .killWake i => some (.status i .runnable .tableUnlock)
  | .tableUnlock => some (.release .ptable .user)
  | .sched k => some (.swtch k)

def State.goto (s : State n m) (p : Fin n) (k : Pc n) : State n m :=
  { s with pc := update s.pc p k }

/-- CPU `c` executes a statement of process `p`; `none` while it spins. -/
def exec (s : State n m) (c : Fin m) (p : Fin n) : Instr n → Option (State n m)
  | .acquire x k =>
    if s.lock x = none then
      some ({ s with lock := update s.lock x (some (.proc p)) }.goto p k)
    else none
  | .release x k => some ({ s with lock := update s.lock x none }.goto p k)
  | .status i st k => some ({ s with status := update s.status i st }.goto p k)
  | .chan ch k => some ({ s with chan := update s.chan p ch }.goto p k)
  | .test k k' =>
    if s.cond then some (s.goto p k)
    else some ({ s with seen := update s.seen p s.updates }.goto p k')
  | .update k => some ({ s with cond := true, updates := s.updates + 1 }.goto p k)
  | .goto k => some (s.goto p k)
  | .swtch k =>
    -- the scheduler goes on behind the process, with the lock
    some ({ s with
      lock := update s.lock .ptable (some (.cpu c))
      cpu := update s.cpu c (.scan (p + 1)) }.goto p (.switched k))

/-- Where a process goes on that has the CPU again. -/
def Resume.pc : Resume → Pc n
  | .sleep => .tidy
  | .yield => .tableUnlock

/-- The next step of a CPU. -/
def stepCpu (s : State n m) (c : Fin m) : Option (State n m) :=
  match s.cpu c with
  | .idle =>
    if s.lock .ptable = none then
      some { s with
        lock := update s.lock .ptable (some (.cpu c))
        cpu := update s.cpu c (.scan 0) }
    else none
  | .scan i =>
    if h : i < n then
      if s.status ⟨i, h⟩ = .runnable then
        some { s with
          status := update s.status ⟨i, h⟩ .running
          cpu := update s.cpu c (.dispatch ⟨i, h⟩) }
      else some { s with cpu := update s.cpu c (.scan (i + 1)) }
    else some { s with
      lock := update s.lock .ptable none
      cpu := update s.cpu c .idle }
  | .dispatch p =>
    match s.pc p with
    | .switched k =>
      some ({ s with
        lock := update s.lock .ptable (some (.proc p))
        cpu := update s.cpu c (.run p) }.goto p k.pc)
    | _ => none
  | .run p => (instr lk chan s p).bind (exec s c p)

/-- A CPU makes a step; or the process it runs begins something, or does what it
likes with `cond` after its loop. -/
inductive Event (n m : Nat) where
  | step (c : Fin m)
  | wait (c : Fin m)
  | wake (c : Fin m)
  | yield (c : Fin m)
  | kill (c : Fin m) (i : Fin n)
  | body (c : Fin m) (b : Bool)

/-- The process that CPU `c` runs begins something. -/
def start (s : State n m) (c : Fin m) (k : Pc n) : Option (State n m) :=
  match s.cpu c with
  | .run p =>
    match s.pc p with
    | .user => some (s.goto p k)
    | _ => none
  | _ => none

def next (s : State n m) : Event n m → Option (State n m)
  | .step c => stepCpu lk chan s c
  | .wait c => start s c .waitLock
  | .wake c => start s c .wakerLock
  | .yield c => start s c .yieldLock
  | .kill c i => start s c (.killLock i)
  | .body c b =>
    match s.cpu c with
    | .run p =>
      match s.pc p with
      | .body => some ({ s with cond := b }.goto p .unlock)
      | _ => none
    | _ => none

def system (n m : Nat) : System (State n m) (Event n m) := .ofNext (next lk chan)

/-- Every process waits for its first turn: `forkret` releases the lock as the end
of `yield` does. -/
def initial (n m : Nat) (cond : Bool) : State n m where
  cond := cond
  lock _ := none
  status _ := .runnable
  chan _ := 0
  pc _ := .switched .yield
  cpu _ := .idle
  updates := 0
  seen _ := 0

/-! ## §2  The steps, one by one -/

variable {lk chan}

/-- What `next` can do, with its guards. -/
inductive Step (lk : Lock) (chan : Nat) (s : State n m) : State n m → Prop where
  | exec {c p i s'} (hcpu : s.cpu c = .run p) (hi : instr lk chan s p = some i)
      (h : exec s c p i = some s') : Step lk chan s s'
  | start {c p k} (hcpu : s.cpu c = .run p) (hpc : s.pc p = .user)
      (hk : k = .waitLock ∨ k = .wakerLock ∨ k = .yieldLock ∨ ∃ i, k = .killLock i) :
      Step lk chan s (s.goto p k)
  | body {c p} (b : Bool) (hcpu : s.cpu c = .run p) (hpc : s.pc p = .body) :
      Step lk chan s ({ s with cond := b }.goto p .unlock)
  | lock {c} (hcpu : s.cpu c = .idle) (hfree : s.lock .ptable = none) :
      Step lk chan s { s with
        lock := update s.lock .ptable (some (.cpu c))
        cpu := update s.cpu c (.scan 0) }
  | choose {c i} (hcpu : s.cpu c = .scan i) (hi : i < n) (hst : s.status ⟨i, hi⟩ = .runnable) :
      Step lk chan s { s with
        status := update s.status ⟨i, hi⟩ .running
        cpu := update s.cpu c (.dispatch ⟨i, hi⟩) }
  | skip {c i} (hcpu : s.cpu c = .scan i) :
      Step lk chan s { s with cpu := update s.cpu c (.scan (i + 1)) }
  | unlock {c i} (hcpu : s.cpu c = .scan i) :
      Step lk chan s { s with
        lock := update s.lock .ptable none
        cpu := update s.cpu c .idle }
  | resume {c p k} (hcpu : s.cpu c = .dispatch p) (hpc : s.pc p = .switched k) :
      Step lk chan s ({ s with
        lock := update s.lock .ptable (some (.proc p))
        cpu := update s.cpu c (.run p) }.goto p k.pc)

theorem step_of_start {s s' : State n m} {c : Fin m} {k : Pc n} (h : start s c k = some s')
    (hk : k = .waitLock ∨ k = .wakerLock ∨ k = .yieldLock ∨ ∃ i, k = .killLock i) :
    Step lk chan s s' := by
  unfold start at h
  split at h
  · rename_i hcpu
    split at h
    · rename_i hpc
      cases h
      exact .start hcpu hpc hk
    · cases h
  · cases h

theorem step_of_next {s s' : State n m} {e : Event n m} (h : next lk chan s e = some s') :
    Step lk chan s s' := by
  cases e with
  | step c =>
    rw [next, stepCpu] at h
    split at h
    · rename_i hcpu
      split at h <;> cases h
      exact .lock hcpu ‹_›
    · rename_i hcpu
      split at h
      · split at h <;> cases h
        · exact .choose hcpu ‹_› ‹_›
        · exact .skip hcpu
      · cases h
        exact .unlock hcpu
    · rename_i hcpu
      split at h <;> cases h
      exact .resume hcpu ‹_›
    · rename_i hcpu
      obtain ⟨i, hi, hexec⟩ := Option.bind_eq_some_iff.mp h
      exact .exec hcpu hi hexec
  | wait c => exact step_of_start h (.inl rfl)
  | wake c => exact step_of_start h (.inr (.inl rfl))
  | yield c => exact step_of_start h (.inr (.inr (.inl rfl)))
  | kill c i => exact step_of_start h (.inr (.inr (.inr ⟨i, rfl⟩)))
  | body c b =>
    rw [next] at h
    split at h
    · rename_i hcpu
      split at h <;> cases h
      exact .body b hcpu ‹_›
    · cases h

/-! ## §3  Who has the locks -/

/-- The places between taking `lk` as the caller's lock and giving it up. -/
def Pc.hasLk : Pc n → Bool
  | .test | .sleepLock | .sleepUnlock | .body | .update | .wakeLock | .scan _ | .wake _
  | .wakeUnlock | .unlock => true
  | _ => false

/-- The same for `ptable.lock`. -/
def Pc.hasTable : Pc n → Bool
  | .sleepUnlock | .setChan | .setSleeping | .tidy | .tidyUnlock | .scan _ | .wake _ | .wakeUnlock
  | .setRunnable | .killTest _ | .killWake _ | .tableUnlock | .sched _ => true
  | _ => false

def Pc.holds (lk : Lock) (k : Pc n) (x : Lock) : Bool :=
  decide (x = lk) && k.hasLk || decide (x = .ptable) && k.hasTable

/-- With `ptable.lock` nobody takes a second lock. -/
def Pc.fits (lk : Lock) : Pc n → Bool
  | .sleepLock | .sleepUnlock | .tidyUnlock | .wakeLock | .wakeUnlock => decide (lk ≠ .ptable)
  | _ => true

/-- A process that is not RUNNING is about to give up its CPU, or has none. -/
def Pc.parked : Pc n → Bool
  | .sched _ | .switched _ => true
  | _ => false

def Cpu.holds : Cpu n → Lock → Bool
  | .scan _, x | .dispatch _, x => decide (x = .ptable)
  | _, _ => false

/-- What a statement does to the locks its process has. -/
def Instr.Takes (lk : Lock) (k₀ : Pc n) : Instr n → Prop
  | .acquire x k => k.fits lk = true ∧ ∀ y, k.holds lk y = (decide (y = x) || k₀.holds lk y)
  | .release x k => k.fits lk = true ∧ k₀.holds lk x = true ∧
      ∀ y, k.holds lk y = (!decide (y = x) && k₀.holds lk y)
  | .status _ _ k | .chan _ k | .update k | .goto k =>
    k.fits lk = true ∧ ∀ y, k.holds lk y = k₀.holds lk y
  | .test k k' => (k.fits lk = true ∧ ∀ y, k.holds lk y = k₀.holds lk y) ∧
      k'.fits lk = true ∧ ∀ y, k'.holds lk y = k₀.holds lk y
  | .swtch _ => ∀ y, k₀.holds lk y = decide (y = .ptable)

theorem instr_takes {s : State n m} {p : Fin n} {i : Instr n} (hfits : (s.pc p).fits lk = true)
    (h : instr lk chan s p = some i) : i.Takes lk (s.pc p) := by
  have hlk : ∀ {k : Pc n}, s.pc p = k → k.fits lk = true := fun hpc => hpc ▸ hfits
  cases hpc : s.pc p with
  | scan i =>
    simp only [instr, hpc] at h
    split at h
    · split at h <;> cases h <;> exact ⟨rfl, fun _ => rfl⟩
    · cases h
      cases lk <;> exact ⟨rfl, fun y => by cases y <;> rfl⟩
  | killTest i =>
    simp only [instr, hpc] at h
    cases h
    split <;> exact ⟨rfl, fun _ => rfl⟩
  | user | body | switched _ => simp [instr, hpc] at h
  | sleepLock | sleepUnlock | tidyUnlock | wakeLock | wakeUnlock =>
    simp only [instr, hpc, Option.some.injEq] at h
    subst h
    cases lk with
    | ptable => cases hlk hpc
    | other =>
      first
      | exact ⟨rfl, fun y => by cases y <;> rfl⟩
      | exact ⟨rfl, rfl, fun y => by cases y <;> rfl⟩
  | _ =>
    simp only [instr, hpc, Option.some.injEq] at h
    subst h
    cases lk <;> first
      | exact ⟨rfl, fun y => by cases y <;> rfl⟩
      | exact ⟨rfl, rfl, fun y => by cases y <;> rfl⟩
      | exact ⟨⟨rfl, fun y => by cases y <;> rfl⟩, rfl, fun y => by cases y <;> rfl⟩
      | exact fun y => by cases y <;> rfl

/-- A lock belongs to whoever is at a place that has it. -/
structure Locks (lk : Lock) (s : State n m) : Prop where
  procs : ∀ x p, s.lock x = some (.proc p) ↔ (s.pc p).holds lk x = true
  cpus : ∀ x c, s.lock x = some (.cpu c) ↔ (s.cpu c).holds x = true

section Locks

variable {s s' : State n m} {p q : Fin n} {c : Fin m} {k : Pc n} {x : Lock}

theorem Locks.proc_unique (h : Locks lk s) (hp : (s.pc p).holds lk x = true)
    (hq : (s.pc q).holds lk x = true) : p = q := by
  have h₁ := (h.procs x p).mpr hp
  rw [(h.procs x q).mpr hq] at h₁
  exact (Holder.proc.inj (Option.some.inj h₁)).symm

theorem Locks.not_both (h : Locks lk s) (hp : (s.pc p).holds lk x = true) :
    (s.cpu c).holds x = false := by
  rw [← Bool.not_eq_true, ← h.cpus x c, (h.procs x p).mpr hp]
  exact fun heq => nomatch Option.some.inj heq

/-- A process and its CPU move, and the locks of nobody else are touched. -/
theorem Locks.moved (h : Locks lk s) {a : Cpu n} (hpc : s'.pc = update s.pc p k)
    (hcpu : s'.cpu = update s.cpu c a)
    (hproc : ∀ y, s'.lock y = some (.proc p) ↔ k.holds lk y = true)
    (hsched : ∀ y, s'.lock y = some (.cpu c) ↔ a.holds y = true)
    (hrest : ∀ y o, o ≠ .proc p → o ≠ .cpu c → (s'.lock y = some o ↔ s.lock y = some o)) :
    Locks lk s' where
  procs y q := by
    rw [hpc]
    by_cases hq : q = p
    · rw [hq, update_self]
      exact hproc y
    · rw [update_of_ne hq, ← h.procs y q]
      exact hrest y _ (fun heq => hq (Holder.proc.inj heq)) nofun
  cpus y c' := by
    rw [hcpu]
    by_cases hc : c' = c
    · rw [hc, update_self]
      exact hsched y
    · rw [update_of_ne hc, ← h.cpus y c']
      exact hrest y _ nofun (fun heq => hc (Holder.cpu.inj heq))

/-- A scheduler moves without a process. -/
theorem Locks.movedCpu (h : Locks lk s) {a : Cpu n} (hpc : s'.pc = s.pc)
    (hcpu : s'.cpu = update s.cpu c a)
    (hsched : ∀ y, s'.lock y = some (.cpu c) ↔ a.holds y = true)
    (hrest : ∀ y o, o ≠ .cpu c → (s'.lock y = some o ↔ s.lock y = some o)) : Locks lk s' where
  procs y q := by
    rw [hpc, ← h.procs y q]
    exact hrest y _ nofun
  cpus y c' := by
    rw [hcpu]
    by_cases hc : c' = c
    · rw [hc, update_self]
      exact hsched y
    · rw [update_of_ne hc, ← h.cpus y c']
      exact hrest y _ (fun heq => hc (Holder.cpu.inj heq))

/-- A process moves and keeps its locks. -/
theorem Locks.goto (h : Locks lk s) (hlock : s'.lock = s.lock) (hcpu : s'.cpu = s.cpu)
    (hpc : s'.pc = update s.pc p k) (hk : ∀ y, k.holds lk y = (s.pc p).holds lk y) :
    Locks lk s' where
  procs y q := by
    rw [hpc, hlock, h.procs y q]
    by_cases hq : q = p
    · rw [hq, update_self, hk]
    · rw [update_of_ne hq]
  cpus y c := by
    rw [hcpu, hlock]
    exact h.cpus y c

/-- **Locks, statement.** -/
theorem Locks.exec (h : Locks lk s) {i : Instr n} (hcpu : s.cpu c = .run p)
    (hi : i.Takes lk (s.pc p)) (hexec : exec s c p i = some s') : Locks lk s' := by
  have hrun : update s.cpu c (.run p) = s.cpu := by rw [← hcpu, update_eq_self]
  have hnot : ∀ y, s.lock y ≠ some (.cpu c) := fun y heq => by
    have := (h.cpus y c).mp heq
    rw [hcpu] at this
    cases this
  cases i with
  | acquire x k =>
    simp only [Sleep.exec] at hexec
    split at hexec <;> cases hexec
    rename_i hfree
    refine h.moved (c := c) (a := .run p) rfl hrun.symm (fun y => ?_) (fun y => ?_)
      fun y o hp hc => ?_
    all_goals
      simp only [State.goto]
      by_cases hy : y = x
    · simp [hy, hi.2]
    · simp [hy, hi.2, h.procs]
    · simp [hy, Cpu.holds]
    · simp [hy, Cpu.holds, hnot]
    · simp [hy, hfree, Ne.symm hp]
    · simp [hy]
  | release x k =>
    cases hexec
    have hx := (h.procs x p).mpr hi.2.1
    refine h.moved (c := c) (a := .run p) rfl hrun.symm (fun y => ?_) (fun y => ?_)
      fun y o hp hc => ?_
    all_goals
      simp only [State.goto]
      by_cases hy : y = x
    · simp [hy, hi.2]
    · simp [hy, hi.2, h.procs]
    · simp [hy, Cpu.holds]
    · simp [hy, Cpu.holds, hnot]
    · simp [hy, hx, Ne.symm hp]
    · simp [hy]
  | status j st k | chan ch k | update k | goto k =>
    cases hexec
    exact h.goto rfl rfl rfl hi.2
  | test k k' =>
    simp only [Sleep.exec] at hexec
    split at hexec <;> cases hexec
    · exact h.goto rfl rfl rfl hi.1.2
    · exact h.goto rfl rfl rfl hi.2.2
  | swtch r =>
    cases hexec
    have hhas : ∀ y, (s.pc p).holds lk y = decide (y = .ptable) := hi
    have hp := (h.procs .ptable p).mpr (by rw [hhas]; rfl)
    have hnone : ∀ y, (Pc.switched r : Pc n).holds lk y = false := fun y => by
      cases lk <;> cases y <;> rfl
    refine h.moved (c := c) rfl rfl (fun y => ?_) (fun y => ?_) fun y o hpo hc => ?_
    all_goals
      simp only [State.goto]
      by_cases hy : y = .ptable
    · simp [hy, hnone]
    · simp [hy, hnone, h.procs, hhas]
    · simp [hy, Cpu.holds]
    · simp [hy, Cpu.holds, hnot]
    · simp [hy, hp, Ne.symm hpo, Ne.symm hc]
    · simp [hy]

/-- **Locks, step.** -/
theorem Locks.step (h : Locks lk s) (hfits : ∀ p, (s.pc p).fits lk = true)
    (hs : Step lk chan s s') : Locks lk s' := by
  cases hs with
  | exec hcpu hi hexec => exact h.exec hcpu (instr_takes (hfits _) hi) hexec
  | start _ hpc hk =>
    refine h.goto rfl rfl rfl fun y => ?_
    rw [hpc]
    rcases hk with rfl | rfl | rfl | ⟨i, rfl⟩ <;> rfl
  | body b _ hpc =>
    refine h.goto rfl rfl rfl fun y => ?_
    rw [hpc]
    rfl
  | @lock c hcpu hfree =>
    refine h.movedCpu (c := c) rfl rfl (fun y => ?_) fun y o hc => ?_
    all_goals by_cases hy : y = .ptable
    · simp [hy, Cpu.holds]
    · simp [hy, Cpu.holds, h.cpus, hcpu]
    · simp [hy, hfree, Ne.symm hc]
    · simp [hy]
  | @choose c i hcpu hi hst | @skip c i hcpu =>
    refine h.movedCpu (c := c) rfl rfl (fun y => ?_) fun y o hc => Iff.rfl
    rw [h.cpus y c, hcpu]
    rfl
  | @unlock c i hcpu =>
    have hmine : s.lock .ptable = some (.cpu c) := (h.cpus .ptable c).mpr (by rw [hcpu]; rfl)
    refine h.movedCpu (c := c) rfl rfl (fun y => ?_) fun y o hc => ?_
    all_goals by_cases hy : y = .ptable
    · simp [hy, Cpu.holds]
    · simp [hy, Cpu.holds, h.cpus, hcpu]
    · simp [hy, hmine, Ne.symm hc]
    · simp [hy]
  | @resume c p r hcpu hpc =>
    have hmine : s.lock .ptable = some (.cpu c) := (h.cpus .ptable c).mpr (by rw [hcpu]; rfl)
    have hnone : ∀ y, (Pc.switched r : Pc n).holds lk y = false := fun y => by
      cases lk <;> cases y <;> rfl
    have hhas : ∀ y, (r.pc : Pc n).holds lk y = decide (y = .ptable) := fun y => by
      cases r <;> cases lk <;> cases y <;> rfl
    refine h.moved (c := c) rfl rfl (fun y => ?_) (fun y => ?_) fun y o hp hc => ?_
    all_goals
      simp only [State.goto]
      by_cases hy : y = .ptable
    · simp [hy, hhas]
    · simp [hy, hhas, h.procs, hpc, hnone]
    · simp [hy, Cpu.holds]
    · simp [hy, Cpu.holds, h.cpus, hcpu]
    · simp [hy, hmine, Ne.symm hp, Ne.symm hc]
    · simp [hy]

end Locks

/-! ## §4  The table -/

/-- The process whose state is about to be written, after a test that found it
asleep. -/
def Pc.target : Pc n → Option (Fin n)
  | .wake i | .killWake i => some i
  | _ => none

/-- The locks are in order; a process that is not RUNNING is on its way to the
scheduler or has no CPU; who is chosen to run has none yet; what a test of
`p->state` has found holds until the write; and `p->chan` is set before `p->state`. -/
structure Disciplined (lk : Lock) (chan : Nat) (s : State n m) : Prop where
  locks : Locks lk s
  fits : ∀ p, (s.pc p).fits lk = true
  parked : ∀ p, s.status p ≠ .running → (s.pc p).parked = true
  ready : ∀ c p, s.cpu c = .dispatch p → s.status p = .running ∧ ∃ k, s.pc p = .switched k
  target : ∀ p i, (s.pc p).target = some i → s.status i = .sleeping
  chan : ∀ p, s.pc p = .setSleeping → s.chan p = chan

section Table

variable {s s' : State n m} {p q : Fin n} {c : Fin m} {k : Pc n} {i : Fin n}

theorem holds_of_target (h : k.target = some i) : k.holds lk .ptable = true := by
  cases k with
  | wake _ | killWake _ => cases lk <;> rfl
  | _ => cases h

theorem holds_of_table (h : k.hasTable = true) : k.holds lk .ptable = true := by
  rw [Pc.holds, h]
  simp

/-- What a statement says about its process and what it writes. -/
def Instr.Quiet (chan : Nat) (s : State n m) (p : Fin n) : Instr n → Prop
  | .acquire _ k | .release _ k | .update k =>
    (s.pc p).parked = false ∧ k.target = none ∧ k ≠ .setSleeping
  | .test k k' => (s.pc p).parked = false ∧ (k.target = none ∧ k ≠ .setSleeping) ∧
      k'.target = none ∧ k' ≠ .setSleeping
  | .goto k => (s.pc p).parked = false ∧ (∀ j, k.target = some j → s.status j = .sleeping) ∧
      k ≠ .setSleeping
  | .chan ch k => (s.pc p).parked = false ∧ k.target = none ∧ (k = .setSleeping → ch = chan)
  | .status j _ k => ((s.pc p).hasTable = true ∧ (s.pc p).parked = false) ∧
      (k.target = none ∧ k ≠ .setSleeping) ∧
      ((s.pc p).target = some j ∨ j = p ∧ k.parked = true)
  | .swtch r => s.pc p = .sched r

theorem instr_quiet {i : Instr n} (h : instr lk chan s p = some i) : i.Quiet chan s p := by
  cases hpc : s.pc p with
  | scan j =>
    simp only [instr, hpc] at h
    split at h
    · split at h <;> cases h
      · rename_i htest
        refine ⟨by rw [hpc]; rfl, fun _ heq => ?_, nofun⟩
        obtain rfl := Option.some.inj heq
        exact htest.1
      · exact ⟨by rw [hpc]; rfl, nofun, nofun⟩
    · cases h
      cases lk <;> exact ⟨by rw [hpc]; rfl, nofun, nofun⟩
  | killTest j =>
    simp only [instr, hpc, Option.some.injEq] at h
    subst h
    refine ⟨by rw [hpc]; rfl, ?_⟩
    split
    · rename_i htest
      refine ⟨fun _ heq => ?_, nofun⟩
      obtain rfl := Option.some.inj heq
      exact htest
    · exact ⟨nofun, nofun⟩
  | user | body | switched _ => simp [instr, hpc] at h
  | _ =>
    simp only [instr, hpc, Option.some.injEq] at h
    subst h
    cases lk <;> simp [Instr.Quiet, hpc, Pc.parked, Pc.target, Pc.hasTable]

/-- A process moves, and no `p->state` changes. -/
theorem Disciplined.moved (h : Disciplined lk chan s) (hlocks : Locks lk s')
    (hpc : s'.pc = update s.pc p k) (hst : s'.status = s.status)
    (hfits : k.fits lk = true) (hpark : s.status p ≠ .running → k.parked = true)
    (hcpu : ∀ c q, s'.cpu c = .dispatch q →
      s.cpu c = .dispatch q ∧ (q = p → ∃ r, k = .switched r))
    (htarget : ∀ j, k.target = some j → s.status j = .sleeping)
    (hchan : ∀ q, q ≠ p → s'.chan q = s.chan q) (hset : k = .setSleeping → s'.chan p = chan) :
    Disciplined lk chan s' where
  locks := hlocks
  fits q := by
    rw [hpc]
    by_cases hq : q = p
    · rwa [hq, update_self]
    · rw [update_of_ne hq]
      exact h.fits q
  parked q hq := by
    rw [hst] at hq
    rw [hpc]
    by_cases hqp : q = p
    · rw [hqp, update_self]
      exact hpark (hqp ▸ hq)
    · rw [update_of_ne hqp]
      exact h.parked q hq
  ready c q hq := by
    obtain ⟨hold, hk⟩ := hcpu c q hq
    obtain ⟨hrun, r, hr⟩ := h.ready c q hold
    refine ⟨hst ▸ hrun, ?_⟩
    rw [hpc]
    by_cases hqp : q = p
    · rw [hqp, update_self]
      exact hk hqp
    · rw [update_of_ne hqp]
      exact ⟨r, hr⟩
  target q j hq := by
    rw [hst]
    rw [hpc] at hq
    by_cases hqp : q = p
    · rw [hqp, update_self] at hq
      exact htarget j hq
    · rw [update_of_ne hqp] at hq
      exact h.target q j hq
  chan q hq := by
    rw [hpc] at hq
    by_cases hqp : q = p
    · rw [hqp, update_self] at hq
      rw [hqp]
      exact hset hq
    · rw [update_of_ne hqp] at hq
      rw [hchan q hqp]
      exact h.chan q hq

/-- The same for a process that has its CPU and keeps it. -/
theorem Disciplined.goto (h : Disciplined lk chan s) (hlocks : Locks lk s')
    (hnot : (s.pc p).parked = false) (hpc : s'.pc = update s.pc p k)
    (hfits : k.fits lk = true) (hcpu : s'.cpu = s.cpu) (hst : s'.status = s.status)
    (htarget : ∀ j, k.target = some j → s.status j = .sleeping)
    (hchan : ∀ q, q ≠ p → s'.chan q = s.chan q) (hset : k = .setSleeping → s'.chan p = chan) :
    Disciplined lk chan s' := by
  refine h.moved hlocks hpc hst hfits (fun hp => ?_) (fun c q hq => ?_) htarget hchan hset
  · rw [h.parked p hp] at hnot
    cases hnot
  · rw [hcpu] at hq
    refine ⟨hq, ?_⟩
    rintro rfl
    obtain ⟨-, r, hr⟩ := h.ready c q hq
    rw [hr] at hnot
    cases hnot

/-- A process that has the table writes `p->state`. -/
theorem Disciplined.status (h : Disciplined lk chan s) {st : Status}
    (hlocks : Locks lk ({ s with status := update s.status i st }.goto p k))
    (hhas : (s.pc p).hasTable = true) (hnot : (s.pc p).parked = false)
    (hfits : k.fits lk = true) (hk : k.target = none ∧ k ≠ .setSleeping)
    (hi : (s.pc p).target = some i ∨ i = p ∧ k.parked = true) :
    Disciplined lk chan ({ s with status := update s.status i st }.goto p k) where
  locks := hlocks
  fits q := by
    simp only [State.goto]
    by_cases hq : q = p
    · rwa [hq, update_self]
    · rw [update_of_ne hq]
      exact h.fits q
  parked q hq := by
    simp only [State.goto] at hq ⊢
    by_cases hqp : q = p
    · rw [hqp, update_self]
      rcases hi with ht | ⟨-, hk⟩
      · -- the process asleep is another one than the one that runs
        have hpi : p ≠ i := by
          rintro rfl
          have hp := h.parked p (by rw [h.target p p ht]; decide)
          rw [hnot] at hp
          cases hp
        rw [hqp, update_of_ne hpi] at hq
        rw [h.parked p hq] at hnot
        cases hnot
      · exact hk
    · rw [update_of_ne hqp]
      refine h.parked q ?_
      by_cases hqi : q = i
      · rcases hi with ht | ⟨rfl, -⟩
        · rw [hqi, h.target p i ht]
          decide
        · exact absurd hqi hqp
      · rwa [update_of_ne hqi] at hq
  ready c q hq := by
    have hc := h.locks.not_both (c := c) (holds_of_table hhas)
    rw [show s.cpu c = .dispatch q from hq] at hc
    cases hc
  target q j hq := by
    simp only [State.goto] at hq
    by_cases hqp : q = p
    · rw [hqp, update_self, hk.1] at hq
      cases hq
    · rw [update_of_ne hqp] at hq
      exact absurd (h.locks.proc_unique (holds_of_target hq) (holds_of_table hhas)) hqp
  chan q hq := by
    simp only [State.goto] at hq ⊢
    by_cases hqp : q = p
    · rw [hqp, update_self] at hq
      exact absurd hq hk.2
    · rw [update_of_ne hqp] at hq
      exact h.chan q hq

/-- **The table, step.** -/
theorem Disciplined.exec (h : Disciplined lk chan s) {i : Instr n} (hcpu : s.cpu c = .run p)
    (hi : instr lk chan s p = some i) (hexec : exec s c p i = some s') :
    Disciplined lk chan s' := by
  have htakes := instr_takes (h.fits p) hi
  have hquiet := instr_quiet hi
  have hlocks := h.locks.exec hcpu htakes hexec
  cases i with
  | acquire x k =>
    simp only [Sleep.exec] at hexec
    split at hexec <;> cases hexec
    exact h.goto hlocks hquiet.1 rfl htakes.1 rfl rfl (by simp [hquiet.2.1]) (fun _ _ => rfl)
      fun heq => absurd heq hquiet.2.2
  | release x k | update k =>
    cases hexec
    exact h.goto hlocks hquiet.1 rfl htakes.1 rfl rfl (by simp [hquiet.2.1]) (fun _ _ => rfl)
      fun heq => absurd heq hquiet.2.2
  | goto k =>
    cases hexec
    exact h.goto hlocks hquiet.1 rfl htakes.1 rfl rfl hquiet.2.1 (fun _ _ => rfl)
      fun heq => absurd heq hquiet.2.2
  | chan ch k =>
    cases hexec
    refine h.goto hlocks hquiet.1 rfl htakes.1 rfl rfl (by simp [hquiet.2.1])
      (fun q hq => update_of_ne hq ..) fun heq => ?_
    exact (update_self ..).trans (hquiet.2.2 heq)
  | test k k' =>
    simp only [Sleep.exec] at hexec
    split at hexec <;> cases hexec
    · exact h.goto hlocks hquiet.1 rfl htakes.1.1 rfl rfl (by simp [hquiet.2.1.1])
        (fun _ _ => rfl) fun heq => absurd heq hquiet.2.1.2
    · exact h.goto hlocks hquiet.1 rfl htakes.2.1 rfl rfl (by simp [hquiet.2.2.1])
        (fun _ _ => rfl) fun heq => absurd heq hquiet.2.2.2
  | status j st k =>
    cases hexec
    exact h.status hlocks hquiet.1.1 hquiet.1.2 htakes.1 hquiet.2.1 hquiet.2.2
  | swtch r =>
    cases hexec
    have hpc : s.pc p = .sched r := hquiet
    refine h.moved hlocks rfl rfl rfl (fun _ => rfl) (fun c' q hq => ⟨?_, fun _ => ⟨r, rfl⟩⟩)
      nofun (fun _ _ => rfl) nofun
    simp only [State.goto] at hq
    by_cases hc : c' = c
    · rw [hc, update_self] at hq
      cases hq
    · rwa [update_of_ne hc] at hq

/-- A scheduler moves without a process: it has the lock, or takes it. -/
theorem Disciplined.cpu (h : Disciplined lk chan s) (hlocks : Locks lk s') {a : Cpu n}
    (hpc : s'.pc = s.pc) (hchan : s'.chan = s.chan) (hst : s'.status = s.status)
    (hcpu : s'.cpu = update s.cpu c a) (ha : ∀ q, a ≠ .dispatch q) :
    Disciplined lk chan s' where
  locks := hlocks
  fits q := by rw [hpc]; exact h.fits q
  parked q hq := by
    rw [hst] at hq
    rw [hpc]
    exact h.parked q hq
  ready c' q hq := by
    rw [hcpu] at hq
    rw [hst, hpc]
    by_cases hc : c' = c
    · rw [hc, update_self] at hq
      exact absurd hq (ha q)
    · rw [update_of_ne hc] at hq
      exact h.ready c' q hq
  target q j hq := by
    rw [hpc] at hq
    rw [hst]
    exact h.target q j hq
  chan q hq := by
    rw [hpc] at hq
    rw [hchan]
    exact h.chan q hq

/-- A scheduler chooses a process. -/
theorem Disciplined.choose (h : Disciplined lk chan s) {j : Nat} (hcpu : s.cpu c = .scan j)
    (hj : s.status i = .runnable)
    (hlocks : Locks lk { s with
      status := update s.status i .running
      cpu := update s.cpu c (.dispatch i) }) :
    Disciplined lk chan { s with
      status := update s.status i .running
      cpu := update s.cpu c (.dispatch i) } := by
  have hmine : s.lock .ptable = some (.cpu c) := (h.locks.cpus .ptable c).mpr (by rw [hcpu]; rfl)
  -- nobody else has the table
  have hnobody : ∀ q, (s.pc q).holds lk .ptable = false := fun q => by
    rw [← Bool.not_eq_true, ← h.locks.procs, hmine]
    exact fun heq => nomatch Option.some.inj heq
  refine ⟨hlocks, h.fits, fun q hq => ?_, fun c' q hq => ?_, fun q j hq => ?_, h.chan⟩
  · simp only at hq
    refine h.parked q ?_
    by_cases hqi : q = i
    · rw [hqi, update_self] at hq
      exact absurd rfl hq
    · rwa [update_of_ne hqi] at hq
  · simp only at hq ⊢
    by_cases hc : c' = c
    · rw [hc, update_self] at hq
      obtain rfl := Cpu.dispatch.inj hq
      refine ⟨update_self .., ?_⟩
      have hpark := h.parked i (by rw [hj]; decide)
      have hno := hnobody i
      cases hpc : s.pc i with
      | switched r => exact ⟨r, rfl⟩
      | sched r =>
        rw [hpc, holds_of_table rfl] at hno
        cases hno
      | _ =>
        rw [hpc] at hpark
        cases hpark
    · rw [update_of_ne hc] at hq
      have hother := (h.locks.cpus .ptable c').mpr (by rw [hq]; rfl)
      rw [hmine] at hother
      exact absurd (Holder.cpu.inj (Option.some.inj hother)).symm hc
  · have hno := hnobody q
    rw [holds_of_target hq] at hno
    cases hno

/-- **The table, step.** -/
theorem Disciplined.step (h : Disciplined lk chan s) (hs : Step lk chan s s') :
    Disciplined lk chan s' := by
  have hlocks := h.locks.step h.fits hs
  cases hs with
  | exec hcpu hi hexec => exact h.exec hcpu hi hexec
  | start _ hpc hk =>
    refine h.goto hlocks (by rw [hpc]; rfl) rfl ?_ rfl rfl ?_ (fun _ _ => rfl) ?_ <;>
      rcases hk with rfl | rfl | rfl | ⟨i, rfl⟩ <;> simp [Pc.fits, Pc.target]
  | body b _ hpc =>
    exact h.goto hlocks (by rw [hpc]; rfl) rfl rfl rfl rfl nofun
      (fun _ _ => rfl) nofun
  | lock hcpu hfree | skip hcpu | unlock hcpu =>
    exact h.cpu hlocks rfl rfl rfl rfl nofun
  | choose hcpu hi hst => exact h.choose hcpu hst hlocks
  | @resume c p r hcpu hpc =>
    have hrun := (h.ready c p hcpu).1
    have hmine := (h.locks.cpus .ptable c).mpr (by rw [hcpu]; rfl)
    refine h.moved hlocks rfl rfl (by cases r <;> rfl) (fun hne => absurd hrun hne)
      (fun c' q hq => ?_) (by cases r <;> exact nofun) (fun _ _ => rfl)
      (by cases r <;> exact nofun)
    simp only [State.goto] at hq
    by_cases hc : c' = c
    · rw [hc, update_self] at hq
      cases hq
    · rw [update_of_ne hc] at hq
      have hother := (h.locks.cpus .ptable c').mpr (by rw [hq]; rfl)
      rw [hmine] at hother
      exact absurd (Holder.cpu.inj (Option.some.inj hother)).symm hc

theorem initial_disciplined (cond : Bool) : Disciplined lk chan (initial n m cond) where
  locks :=
    { procs := fun x p => by cases lk <;> cases x <;> simp [initial, Pc.holds, Pc.hasLk, Pc.hasTable]
      cpus := fun x c => by simp [initial, Cpu.holds] }
  fits _ := rfl
  parked _ _ := rfl
  ready _ _ hq := nomatch hq
  target _ _ hq := nomatch hq
  chan _ hq := nomatch hq

end Table

/-! ## §5  No wakeup is lost -/

/-- A process that has found `cond` false and is on its way into `sleep`. -/
def Pc.falls : Pc n → Bool
  | .sleepLock | .sleepUnlock | .setChan | .setSleeping => true
  | _ => false

/-- A process that will still look at process `j` in `wakeup1`. -/
def Pc.wakes (j : Fin n) : Pc n → Bool
  | .wakeLock => true
  | .scan i => i ≤ j
  | .wake i => i ≤ j
  | _ => false

/-- A process on its way into `sleep`, or asleep on the channel. -/
def Waits (chan : Nat) (s : State n m) (p : Fin n) : Prop :=
  (s.pc p).falls = true ∨ s.status p = .sleeping ∧ s.chan p = chan

/-- Whoever waits has found `cond` false after the last update, or a wakeup is on
its way to it. -/
def Awaited (chan : Nat) (s : State n m) : Prop :=
  ∀ p, Waits chan s p → s.seen p = s.updates ∨ ∃ q, (s.pc q).wakes p = true

/-- Inside the loop of `wakeup1`. -/
def Pc.scans : Pc n → Bool
  | .scan _ | .wake _ => true
  | _ => false

/-- What a statement does to the waits and the wakeups on their way. -/
def Instr.Signals (chan : Nat) (s : State n m) (p : Fin n) : Instr n → Prop
  | .acquire _ k => (k.falls = true → (s.pc p).falls = true) ∧
      ∀ j, (s.pc p).wakes j = true → k.wakes j = true
  | .release _ k | .chan _ k => (k.falls = true → (s.pc p).falls = true) ∧
      ∀ j, (s.pc p).wakes j = false
  | .status j st k => k.falls = false ∧ (st = .sleeping → j = p ∧ (s.pc p).falls = true) ∧
      ∀ q, (s.pc p).wakes q = true → k.wakes q = true ∨
        (s.pc p).scans = true ∧ q = j ∧ st ≠ .sleeping
  | .test k _ => k.falls = false ∧ ∀ j, (s.pc p).wakes j = false
  | .update k => ∀ j, k.wakes j = true
  | .goto k => k.falls = false ∧ ∀ q, (s.pc p).wakes q = true → k.wakes q = true ∨
      (s.pc p).scans = true ∧ ¬ (s.status q = .sleeping ∧ s.chan q = chan)
  | .swtch _ => ∀ j, (s.pc p).wakes j = false

section Wakeup

variable {s s' : State n m} {p q : Fin n} {c : Fin m} {k : Pc n}

theorem instr_signals {i : Instr n} (h : instr lk chan s p = some i) : i.Signals chan s p := by
  cases hpc : s.pc p with
  | scan j =>
    simp only [instr, hpc] at h
    split at h
    · rename_i hj
      split at h <;> cases h
      · refine ⟨rfl, fun q hq => .inl ?_⟩
        rwa [hpc] at hq
      · rename_i htest
        refine ⟨rfl, fun q hq => ?_⟩
        rw [hpc] at hq ⊢
        have hle : j ≤ q := of_decide_eq_true hq
        by_cases hqj : (q : Nat) = j
        · obtain rfl : q = ⟨j, hj⟩ := Fin.ext hqj
          exact .inr ⟨rfl, htest⟩
        · exact .inl (decide_eq_true (by omega))
    · rename_i hj
      cases h
      refine ⟨by cases lk <;> rfl, fun q hq => ?_⟩
      rw [hpc] at hq
      have hle : j ≤ q := of_decide_eq_true hq
      exact absurd q.2 (by omega)
  | wake j =>
    simp only [instr, hpc, Option.some.injEq] at h
    subst h
    refine ⟨rfl, nofun, fun q hq => ?_⟩
    rw [hpc] at hq ⊢
    have hle : (j : Nat) ≤ q := of_decide_eq_true hq
    by_cases hqj : (q : Nat) = j
    · exact .inr ⟨rfl, Fin.ext hqj, nofun⟩
    · exact .inl (decide_eq_true (by omega))
  | killTest j =>
    simp only [instr, hpc, Option.some.injEq] at h
    subst h
    refine ⟨by split <;> rfl, fun q hq => ?_⟩
    rw [hpc] at hq
    cases hq
  | user | body | switched _ => simp [instr, hpc] at h
  | _ =>
    simp only [instr, hpc, Option.some.injEq] at h
    subst h
    cases lk <;> simp [Instr.Signals, hpc, Pc.falls, Pc.wakes]

/-- While a process is in the loop of `wakeup1`, nobody is on its way into `sleep`. -/
theorem Locks.not_falls (h : Locks lk s) (hp : (s.pc p).scans = true) (q : Fin n) :
    (s.pc q).falls = false := by
  by_contra hq
  rw [Bool.not_eq_false] at hq
  have hall : ∀ x, x = lk ∨ x = .ptable → (s.pc p).holds lk x = true := by
    intro x hx
    cases hpc : s.pc p with
    | scan _ | wake _ => rcases hx with rfl | rfl <;> simp [Pc.holds, Pc.hasLk, Pc.hasTable]
    | _ =>
      rw [hpc] at hp
      cases hp
  have hsome : ∃ x, (x = lk ∨ x = .ptable) ∧ (s.pc q).holds lk x = true := by
    cases hpc : s.pc q with
    | sleepLock | sleepUnlock => exact ⟨lk, .inl rfl, by simp [Pc.holds, Pc.hasLk]⟩
    | setChan | setSleeping => exact ⟨.ptable, .inr rfl, by simp [Pc.holds, Pc.hasTable]⟩
    | _ =>
      rw [hpc] at hq
      cases hq
  obtain ⟨x, hx, hqx⟩ := hsome
  have heq := h.proc_unique (hall x hx) hqx
  subst heq
  cases hpc : s.pc p <;> simp [hpc, Pc.scans, Pc.falls] at hp hq

/-- A process moves: nobody starts to wait, and no wakeup is taken back from
somebody who waits. -/
theorem Awaited.moved (h : Awaited chan s) (hpc : s'.pc = update s.pc p k)
    (hupd : s'.updates = s.updates) (hseen : s'.seen = s.seen)
    (hwait : ∀ q, Waits chan s' q → Waits chan s q)
    (hkeep : ∀ q, Waits chan s' q → (s.pc p).wakes q = true → k.wakes q = true) :
    Awaited chan s' := by
  intro q hq
  rw [hupd, hseen]
  refine (h q (hwait q hq)).imp_right fun ⟨r, hr⟩ => ⟨r, ?_⟩
  rw [hpc]
  by_cases hrp : r = p
  · rw [hrp] at hr
    rw [hrp, update_self]
    exact hkeep q hq hr
  · rwa [update_of_ne hrp]

/-- Who is on its way into `sleep` after a step that sends nobody there. -/
theorem falls_of_moved (h : (update s.pc p k q).falls = true)
    (hk : k.falls = true → (s.pc p).falls = true) : (s.pc q).falls = true := by
  by_cases hqp : q = p
  · rw [hqp, update_self] at h
    exact hqp ▸ hk h
  · rwa [update_of_ne hqp] at h

/-- A process moves that keeps `p->state` and `p->chan`. -/
theorem Awaited.goto (h : Awaited chan s) (hpc : s'.pc = update s.pc p k)
    (hst : s'.status = s.status) (hchan : s'.chan = s.chan) (hupd : s'.updates = s.updates)
    (hseen : s'.seen = s.seen) (hk : k.falls = true → (s.pc p).falls = true)
    (hkeep : ∀ q, Waits chan s q → (s.pc p).wakes q = true → k.wakes q = true) :
    Awaited chan s' := by
  have hwait : ∀ q, Waits chan s' q → Waits chan s q := by
    rintro q (hf | ha)
    · rw [hpc] at hf
      exact .inl (falls_of_moved hf hk)
    · rw [hst, hchan] at ha
      exact .inr ha
  exact h.moved hpc hupd hseen hwait fun q hq => hkeep q (hwait q hq)

/-- **No wakeup is lost, statement.** -/
theorem Awaited.exec (h : Awaited chan s) (hd : Disciplined lk chan s) {i : Instr n}
    (hi : instr lk chan s p = some i) (hexec : exec s c p i = some s') : Awaited chan s' := by
  have hsig := instr_signals hi
  have hquiet := instr_quiet hi
  cases i with
  | acquire x k =>
    simp only [Sleep.exec] at hexec
    split at hexec <;> cases hexec
    exact h.goto rfl rfl rfl rfl rfl hsig.1 fun q _ hq => hsig.2 q hq
  | release x k =>
    cases hexec
    exact h.goto rfl rfl rfl rfl rfl hsig.1 fun q _ hq => absurd hq (by simp [hsig.2 q])
  | chan ch k =>
    cases hexec
    refine h.moved rfl rfl rfl (fun q hq => ?_) fun q _ hq => absurd hq (by simp [hsig.2 q])
    rcases hq with hf | ⟨hst, hch⟩
    · exact .inl (falls_of_moved hf hsig.1)
    · simp only [State.goto] at hst hch
      refine .inr ⟨hst, ?_⟩
      rwa [update_of_ne] at hch
      -- a process that writes its channel is RUNNING
      rintro rfl
      have hpark := hd.parked q (by rw [hst]; decide)
      rw [hquiet.1] at hpark
      cases hpark
  | status j st k =>
    cases hexec
    have hk : k.falls = true → (s.pc p).falls = true := fun hk => absurd hk (by simp [hsig.1])
    refine h.moved rfl rfl rfl (fun q hq => ?_) fun q hw hq => ?_
    · rcases hq with hf | ⟨hst, hch⟩
      · exact .inl (falls_of_moved hf hk)
      · simp only [State.goto] at hst
        by_cases hqj : q = j
        · rw [hqj, update_self] at hst
          obtain ⟨hjp, hfalls⟩ := hsig.2.1 hst
          exact .inl (by rw [hqj, hjp]; exact hfalls)
        · rw [update_of_ne hqj] at hst
          exact .inr ⟨hst, hch⟩
    · -- who is passed over has been woken, and is not on its way into `sleep`
      refine (hsig.2.2 q hq).resolve_right fun ⟨hscan, hqj, hst⟩ => ?_
      rcases hw with hf | ⟨hsl, -⟩
      · have hno := hd.locks.not_falls hscan q
        rw [falls_of_moved hf hk] at hno
        cases hno
      · simp only [State.goto] at hsl
        rw [hqj, update_self] at hsl
        exact hst hsl
  | test k k' =>
    simp only [Sleep.exec] at hexec
    split at hexec <;> cases hexec
    · exact h.goto rfl rfl rfl rfl rfl (fun hk => absurd hk (by simp [hsig.1]))
        fun q _ hq => absurd hq (by simp [hsig.2 q])
    · -- the process has looked after the last update
      intro q hq
      by_cases hqp : q = p
      · exact .inl (by simp [State.goto, hqp])
      · simp only [Waits, State.goto, update_of_ne hqp] at hq ⊢
        refine (h q hq).imp_right fun ⟨r, hr⟩ => ⟨r, ?_⟩
        rw [update_of_ne]
        · exact hr
        · rintro rfl
          rw [hsig.2 q] at hr
          cases hr
  | update k =>
    cases hexec
    intro q _
    refine .inr ⟨p, ?_⟩
    simp only [State.goto, update_self]
    exact hsig q
  | goto k =>
    cases hexec
    refine h.goto rfl rfl rfl rfl rfl (fun hk => absurd hk (by simp [hsig.1])) fun q hw hq => ?_
    refine (hsig.2 q hq).resolve_right fun ⟨hscan, hno⟩ => ?_
    have hf := hd.locks.not_falls hscan q
    exact hw.elim (fun hq => absurd hq (by simp [hf])) hno
  | swtch r =>
    cases hexec
    have hno : ∀ q, (s.pc p).wakes q = false := hsig
    exact h.goto rfl rfl rfl rfl rfl nofun
      fun q _ hq => absurd hq (by simp [hno q])

/-- **No wakeup is lost, step.** -/
theorem Awaited.step (h : Awaited chan s) (hd : Disciplined lk chan s) (hs : Step lk chan s s') :
    Awaited chan s' := by
  cases hs with
  | exec _ hi hexec => exact h.exec hd hi hexec
  | start _ hpc hk =>
    refine h.goto rfl rfl rfl rfl rfl (fun hf => ?_) fun q _ hq => ?_
    · rcases hk with rfl | rfl | rfl | ⟨i, rfl⟩ <;> cases hf
    · rw [hpc] at hq
      cases hq
  | body b _ hpc =>
    refine h.goto rfl rfl rfl rfl rfl nofun fun q _ hq => ?_
    rw [hpc] at hq
    cases hq
  | choose _ hi hst =>
    intro q hq
    refine h q (hq.imp_right fun ⟨hsl, hch⟩ => ⟨?_, hch⟩)
    simp only at hsl
    by_cases hqi : q = ⟨_, hi⟩
    · rw [hqi, update_self] at hsl
      cases hsl
    · rwa [update_of_ne hqi] at hsl
  | lock _ _ | skip _ | unlock _ => exact h
  | @resume c p r hcpu hpc =>
    refine h.goto rfl rfl rfl rfl rfl (fun hf => ?_) fun q _ hq => ?_
    · cases r <;> cases hf
    · rw [hpc] at hq
      cases hq

/-- **No wakeup is lost.** For any number of processes and CPUs, whether `lk` is
`ptable.lock` or not: in no state reached with `lk` free is `cond` true and a
process SLEEPING on `chan` that found `cond` false before the last update. -/
theorem sleep_wakeup (lk : Lock) (chan : Nat) {n m : Nat} {cond : Bool} {es : List (Event n m)}
    {s : State n m} (hrun : (system lk chan n m).Run (initial n m cond) es s)
    (hlk : s.lock lk = none) (p : Fin n) :
    ¬ (s.cond = true ∧ s.seen p < s.updates ∧ s.status p = .sleeping ∧ s.chan p = chan) := by
  rintro ⟨-, hseen, hst, hch⟩
  have hinit : Awaited chan (initial n m cond) := by
    rintro p (hp | ⟨hp, -⟩) <;> cases hp
  obtain ⟨hd, ha⟩ := hrun.invariant (I := fun s => Disciplined lk chan s ∧ Awaited chan s)
    (fun _ _ _ hs hstep => ⟨hs.1.step (step_of_next hstep), hs.2.step hs.1 (step_of_next hstep)⟩)
    ⟨initial_disciplined cond, hinit⟩
  obtain ⟨q, hq⟩ := (ha p (.inr ⟨hst, hch⟩)).resolve_left (Nat.ne_of_lt hseen)
  -- who is on its way with a wakeup has the lock
  have hhas : (s.pc q).holds lk lk = true := by
    cases hpc : s.pc q with
    | wakeLock | scan _ | wake _ => simp [Pc.holds, Pc.hasLk]
    | _ =>
      rw [hpc] at hq
      cases hq
  rw [(hd.locks.procs lk q).mpr hhas] at hlk
  cases hlk

end Wakeup

end Machine

/-- On one CPU process 0 goes to sleep, and process 1 sets `cond` and wakes it. -/
def sleepAndWake : List (Event 2 1) :=
  List.replicate 4 (.step 0) ++ .wait 0 :: List.replicate 10 (.step 0) ++
    .wake 0 :: List.replicate 9 (.step 0)

theorem sleep_wakeup_sleepAndWake : ∃ s : State 2 1,
    sleepAndWake.foldlM (System.guardedNext (next .other 7) fun _ _ => True) (initial 2 1 false) =
      some s ∧
    s.cond = true ∧ s.seen 0 < s.updates ∧ s.chan 0 = 7 ∧ s.status 0 ≠ .sleeping := by
  obtain ⟨s, hs, hlk, hcond, hseen, hchan⟩ : ∃ s : State 2 1,
      sleepAndWake.foldlM (System.guardedNext (next .other 7) fun _ _ => True)
        (initial 2 1 false) = some s ∧
      s.lock .other = none ∧ s.cond = true ∧ s.seen 0 < s.updates ∧ s.chan 0 = 7 :=
    ⟨_, rfl, rfl, rfl, by decide, rfl⟩
  refine ⟨s, hs, hcond, hseen, hchan, fun hst => ?_⟩
  exact sleep_wakeup .other 7 (System.run_ofNext hs).of_guarded hlk 0 ⟨hcond, hseen, hst, hchan⟩

end Xv6.Sleep
