import Xv6.Sem.Semaphore
import Xv6.Shm.Attach

/-!
# Who is woken by `sem_up`

`sleep` and `wakeup` meet at a channel, and the channel of a semaphore is the
address at which the calling process sees it. When all processes see it at one
address, nobody sleeps on a semaphore that is not locked. When two of them
see it at different addresses, the `sem_up` of one does not wake the other,
whatever the initial value is; and `shmget` gives different addresses to
processes that attach their pages in different orders.
-/

namespace Xv6

open Monitor Transition Function

variable {ι : Type*} {addr : ι → Nat} {mayUp : Nat → Bool}

/-! ## §1  One address -/

/-- Who sleeps found the semaphore locked. -/
theorem act_sleep {p : ι} {l l' : SemPc × Nat} {sem : Sem} {c : Nat}
    (h : (semProgram addr mayUp).act p l sem = .sleep c l') :
    l.1 = .downLoop ∧ c = addr p ∧ sem.locked ≠ 0 := by
  obtain ⟨pc, n⟩ := l
  cases pc with
  | downLoop =>
    simp only [semProgram] at h
    split at h <;> cases h
    exact ⟨rfl, rfl, ‹_›⟩
  | downTest =>
    simp only [semProgram] at h
    split at h <;> cases h
  | downDone => cases h
  | upRaise => cases h
  | upWake => cases h
  | upDone => cases h

/-- A change of the fields: the test of `sem_down` failed and nothing changed,
or a unit was taken from a semaphore not locked, or one was given back. -/
theorem act_go {p : ι} {l l' : SemPc × Nat} {sem sem' : Sem}
    (h : (semProgram addr mayUp).act p l sem = .go l' sem') :
    l.1 ≠ .upWake ∧ (sem' = sem ∨ sem.locked = 0 ∨ l'.1 = .upWake) := by
  obtain ⟨pc, n⟩ := l
  cases pc with
  | downTest =>
    simp only [semProgram] at h
    split at h <;> cases h
    · exact ⟨by simp, .inr (.inl ‹_›)⟩
    · exact ⟨by simp, .inl rfl⟩
  | downLoop =>
    simp only [semProgram, ne_eq, ite_not] at h
    split at h <;> cases h
    exact ⟨by simp, .inr (.inl ‹_›)⟩
  | upRaise =>
    cases h
    exact ⟨by simp, .inr (.inr rfl)⟩
  | downDone => cases h
  | upWake => cases h
  | upDone => cases h

/-- With one address for all, who clears `locked` wakes everybody. -/
theorem semProgram_signals (hsame : ∀ p q, addr p = addr q) :
    Signals (semProgram addr mayUp) (fun c sem => (∃ p, addr p = c) ∧ sem.locked ≠ 0)
      (fun l c => l.1 = .upWake ∧ ∃ p, addr p = c) where
  sleeps := by
    intro p l sem c l' hact
    obtain ⟨hpc, rfl, hlocked⟩ := act_sleep hact
    exact ⟨⟨⟨p, rfl⟩, hlocked⟩, by simp [hpc]⟩
  goes := by
    intro p l sem l' sem' c hact hcase
    obtain ⟨hpc, hchange⟩ := act_go hact
    rcases hcase with ⟨hwake, -⟩ | ⟨⟨hused, hlocked⟩, hfree⟩
    · exact absurd hwake hpc
    · rcases hchange with rfl | hzero | hraise
      · exact absurd ⟨hused, hlocked⟩ hfree
      · exact absurd hzero hlocked
      · exact ⟨hraise, hused⟩
  wakes := by
    rintro p ⟨pc, n⟩ sem c' l' c hact ⟨hpc, q, rfl⟩
    cases hpc
    cases hact
    exact .inl (hsame q p)
  leaves := by
    rintro p ⟨pc, n⟩ sem o c hact ⟨hpc, -⟩
    cases hpc
    cases hact

/-! ## §2  Whole calls -/

variable [DecidableEq ι]

section

variable (addr mayUp)

variable {s : State ι Nat (SemPc × Nat) Nat Sem}

/-- A `sem_down` that finds a unit. -/
theorem run_down {p : ι} {n : Nat} (hloc : s.loc p = .out n) (hlk : s.lk = none)
    (hlocked : s.data.locked = 0) :
    ∃ es, (system (semProgram addr mayUp)).Run s es
      { s with data := s.data.take, loc := update s.loc p (.out (n + 1)) } := by
  obtain ⟨data, lk, pt, loc, sleeping, chan⟩ := s
  simp only at hloc hlk hlocked
  subst hlk
  refine ⟨[.enter p (.downTest, n), .proc p, .proc p, .proc p], run_of_foldlM ?_⟩
  simp [next, stepProc, State.move, semProgram, hloc, hlocked]

/-- A `sem_down` that finds none: it ends up asleep, both locks free. -/
theorem run_sleep {p : ι} {n : Nat} (hloc : s.loc p = .out n) (hlk : s.lk = none)
    (hpt : s.pt = .free) (hlocked : s.data.locked ≠ 0) :
    ∃ es, (system (semProgram addr mayUp)).Run s es
      { s with
        loc := update s.loc p (.asleep (addr p) (.downLoop, n))
        sleeping := update s.sleeping p true
        chan := update s.chan p (some (addr p)) } := by
  obtain ⟨data, lk, pt, loc, sleeping, chan⟩ := s
  simp only at hloc hlk hpt hlocked
  subst hlk hpt
  refine ⟨.enter p (.downTest, n) :: (List.replicate 7 (.proc p) ++ [.drop]), run_of_foldlM ?_⟩
  simp [List.replicate, next, stepProc, State.move, semProgram, hloc, hlocked]

/-- A `sem_up`: it wakes the sleepers at its own address. -/
theorem run_up {p : ι} {n : Nat} (hloc : s.loc p = .out n) (hup : mayUp n = true)
    (hlk : s.lk = none) (hpt : s.pt = .free) :
    ∃ es, (system (semProgram addr mayUp)).Run s es
      { s with
        data := s.data.raise
        loc := update s.loc p (.out (n - 1))
        sleeping := fun q => s.sleeping q && !decide (s.chan q = some (addr p)) } := by
  obtain ⟨data, lk, pt, loc, sleeping, chan⟩ := s
  simp only at hloc hlk hpt
  subst hlk hpt
  refine ⟨.enter p (.upRaise, n) :: List.replicate 7 (.proc p), run_of_foldlM ?_⟩
  simp [List.replicate, next, stepProc, State.move, semProgram, hloc, hup]

/-- `n` calls of `sem_down` by one process. -/
theorem run_downs (q : ι) (N : Int) : ∀ n : Nat, (n : Int) ≤ N →
    ∃ es s, (system (semProgram addr mayUp)).Run (initial (semInit N) 0) es s ∧
      s.lk = none ∧ s.pt = .free ∧ s.loc q = .out n ∧ (∀ p, p ≠ q → s.loc p = .out 0) ∧
      s.data.value = N - n ∧ (s.data.locked ≠ 0 ↔ 0 < n ∧ (n : Int) = N)
  | 0, hn => ⟨[], _, .nil, rfl, rfl, rfl, fun _ _ => rfl, by simp [initial, semInit],
      by simp [initial, semInit]⟩
  | n + 1, hn => by
    obtain ⟨es, s, hrun, hlk, hpt, hq, hothers, hvalue, hlocked⟩ := run_downs q N n (by omega)
    have hfree : s.data.locked = 0 := by
      by_contra hne
      have := hlocked.mp hne
      omega
    obtain ⟨fs, hdown⟩ := run_down addr mayUp hq hlk hfree
    refine ⟨es ++ fs, _, hrun.append hdown, hlk, hpt, by simp, fun p hp => ?_, ?_, ?_⟩
    · simpa [hp] using hothers p hp
    · simp only [Sem.take, hvalue]
      omega
    · simp only [Sem.take, hvalue, hfree]
      by_cases h1 : N - n = 1
      · rw [if_pos h1]
        omega
      · rw [if_neg h1]
        omega

end

/-! ## §3  Two addresses -/

/-- **A wakeup that is lost.** One process takes all units, another goes to
sleep, the first gives a unit back: it wakes nobody at the other address. -/
theorem lost_wakeup (hmay : ∀ n, paired n = true → mayUp n = true) {N : Int} (hN : 1 ≤ N)
    {p q : ι} (hpq : addr p ≠ addr q) :
    ∃ es s, (system (semProgram addr mayUp)).Run (initial (semInit N) 0) es s ∧
      s.lk = none ∧ s.sleeping p = true ∧ s.data.locked = 0 := by
  have hne : p ≠ q := fun heq => hpq (heq ▸ rfl)
  obtain ⟨es, s, hrun, hlk, hpt, hq, hothers, -, hlocked⟩ :=
    run_downs addr mayUp q N N.toNat (by omega)
  obtain ⟨fs, hsleep⟩ := run_sleep addr mayUp (hothers p hne) hlk hpt
    (hlocked.mpr ⟨by omega, by omega⟩)
  have hup : mayUp N.toNat = true := hmay _ (by simp only [paired, decide_eq_true_eq]; omega)
  obtain ⟨gs, hraise⟩ := run_up addr mayUp (p := q) (n := N.toNat)
    (s := { s with
      loc := update s.loc p (.asleep (addr p) (.downLoop, 0))
      sleeping := update s.sleeping p true
      chan := update s.chan p (some (addr p)) })
    (by simpa [Ne.symm hne] using hq) hup hlk hpt
  refine ⟨es ++ fs ++ gs, _, (hrun.append hsleep).append hraise, hlk, ?_, rfl⟩
  simpa using hpq

/-- **Who is woken depends on the address.** For every initial value of at
least 1 and whichever calls are allowed beyond those in pairs: no process is
ever asleep in `sem_down` with the lock free and the semaphore not locked, if
and only if all processes have the semaphore at the same address. -/
theorem sem_wakes_iff (addr : ι → Nat) {mayUp : Nat → Bool}
    (hmay : ∀ n, paired n = true → mayUp n = true) {N : Int} (hN : 1 ≤ N) :
    (∀ es s, (system (semProgram addr mayUp)).Run (initial (semInit N) 0) es s →
      s.lk = none → ∀ p, s.sleeping p = true → s.data.locked ≠ 0) ↔
    ∀ p q, addr p = addr q := by
  constructor
  · intro h p q
    by_contra hpq
    obtain ⟨es, s, hrun, hlk, hsl, hzero⟩ := lost_wakeup hmay hN hpq
    exact h es s hrun hlk p hsl hzero
  · intro hsame es s hrun hlk p hsl
    obtain ⟨c, -, -, hlocked⟩ := no_lost_wakeup (semProgram_signals hsame) hrun hlk hsl
    exact hlocked

/-- Both processes have the semaphore at one address: the sleeper waits for a
unit that is taken. -/
theorem sem_wakes_iff_one : ∃ s : State (Fin 2) Nat (SemPc × Nat) Nat Sem,
    (takeAndSleep.take 13).foldlM (next (semProgram (fun _ => 0x7ffff000) paired))
      (initial (semInit 1) 0) = some s ∧ s.sleeping 1 = true ∧ s.data.locked ≠ 0 := by
  refine ⟨_, rfl, rfl, ?_⟩
  exact (sem_wakes_iff (fun _ => 0x7ffff000) (fun _ h => h) (Int.le_refl 1)).mpr (fun _ _ => rfl)
    (takeAndSleep.take 13) _ (run_of_foldlM rfl) rfl 1 rfl

/-! ## §4  The addresses `shmget` gives -/

/-- A live process and a place of its window where it has the page of slot `t`. -/
structure Attachment (s : Kernel) (t : Fin shmemPages) where
  proc : Fin nproc
  pos : Fin shmemPages
  live : (s.proc proc).state.live = true
  maps : ((s.proc proc).pgdir.entry (windowAddr pos)).MapsUser (s.shTable.shmemAddr t)

/-- Where its process sees a semaphore at offset `off` of the page. -/
def Attachment.semAddr {s : Kernel} {t : Fin shmemPages} (off : Nat) (a : Attachment s t) : Nat :=
  windowAddr a.pos + off

/-- Process 2 attached another page first, so it sees the page of slot 0 one
place below process 1: its `sem_up` does not wake process 1. -/
theorem sem_wakes_twoAttach : ¬ ∀ (_ : Image) (s₀ s : Kernel) (es : List Event), Boot s₀ →
    kernel.Run s₀ es s → ∀ (t : Fin shmemPages) (ι : Type) (_ : DecidableEq ι)
    (a : ι → Attachment s t), Function.Injective (fun x => (a x).proc) →
    ∀ (off : Nat) (N : Int), off < pgSize → 1 ≤ N →
    ∀ fs st, (system (semProgram (fun x => (a x).semAddr off) fun _ => true)).Run
      (initial (semInit N) 0) fs st →
    st.lk = none → ∀ x, st.sleeping x = true → st.data.locked ≠ 0 := by
  intro h
  let _ := sampleImage
  have hrun := (run_calls (g := anyCall) (G := fun _ _ => True) (fun _ _ _ => trivial) twoAttach
    (s := sampleTwo) rfl).of_guarded
  let a : Bool → Attachment (stateAfter anyCall twoAttach sampleTwo) 0 := fun x =>
    bif x then ⟨1, 0, rfl, rfl, rfl, rfl, by decide +kernel⟩
    else ⟨2, 1, rfl, rfl, rfl, rfl, by decide +kernel⟩
  have hinj : Function.Injective fun x => (a x).proc := by
    intro x y hxy
    cases x <;> cases y <;> first | rfl | exact absurd hxy (by decide)
  have hsame := (sem_wakes_iff (fun x => (a x).semAddr 0) (fun _ _ => rfl) (Int.le_refl 1)).mp
    (h sampleImage _ _ _ (sample_boot _) hrun 0 Bool _ a hinj 0 1 (by decide) (Int.le_refl 1))
  have heq : windowAddr 0 + 0 = windowAddr 1 + 0 := hsame true false
  exact absurd heq (by decide)

end Xv6
