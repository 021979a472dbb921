import Xv6.Kernel.ExecSpec
import Xv6.Library.Transition

/-!
# System calls as the steps of a transition system

A run of the kernel is a sequence of whole system calls, each made by a live
process and each of them returning (a `panic` ends the run: there is no step
for it). The steps carry the call, its caller and how it ended.
-/

namespace Xv6

open Transition

/-- `argstr` on a string argument: `key` is the memory from the pointer on,
`lim` the number of its bytes below `sz`. The result is the length, `none`
for -1. -/
def argstr (key : Buf) : Nat → Option Nat
  | 0 => none
  | lim + 1 =>
    match argstr key lim with
    | some n => some n
    | none => if key lim = 0 then some lim else none

theorem argstr_eq_none {key : Buf} : ∀ {lim : Nat}, argstr key lim = none →
    ∀ i < lim, key i ≠ 0
  | 0, _, i, hi => by omega
  | lim + 1, h, i, hi => by
    rw [argstr] at h
    split at h
    · simp at h
    · rename_i hnone
      split at h
      · simp at h
      · rename_i hne
        rcases Nat.lt_succ_iff_lt_or_eq.mp hi with hlt | rfl
        · exact argstr_eq_none hnone i hlt
        · exact hne

/-- The length `argstr` reports is the position of the first terminator. -/
theorem argstr_isStr {key : Buf} : ∀ {lim n : Nat}, argstr key lim = some n → IsStr key n
  | 0, n, h => by simp [argstr] at h
  | lim + 1, n, h => by
    rw [argstr] at h
    split at h
    · rename_i n' hn
      cases h
      exact argstr_isStr hn
    · rename_i hnone
      split at h
      · rename_i hz
        cases h
        exact ⟨hz, argstr_eq_none hnone⟩
      · simp at h

inductive Call where
  | shmget (key : Buf) (lim : Nat)
  | shmrem (key : Buf) (lim : Nat)
  | fork
  | exec (ip : Option Inode) (argv : List (List UInt8))
  | sbrk (n : Int)
  | exit
  | wait

variable [Image]

/-- The check `sys_shmget` and `sys_shmrem` make on the length. -/
def keyLengthOk (key : Buf) (lim : Nat) : Bool :=
  match argstr key lim with
  | none => false
  | some n => 0 < n && n ≤ 16

def sysShmget (p : Fin nproc) (key : Buf) (lim : Nat) (s : Kernel) :
    Except Panic (CallResult × Kernel) :=
  if keyLengthOk key lim then shmget p key s else .ok (.value (-1), s)

def sysShmrem (p : Fin nproc) (key : Buf) (lim : Nat) (s : Kernel) :
    Except Panic (CallResult × Kernel) :=
  if keyLengthOk key lim then do
    let (r, s) ← shmrem p key s
    .ok (.value r, s)
  else .ok (.value (-1), s)

def sysSbrk (p : Fin nproc) (n : Int) (s : Kernel) : Except Panic (CallResult × Kernel) := do
  let addr := (s.proc p).sz
  let (r, s) ← growproc p n s
  if r < 0 then .ok (.value (-1), s) else .ok (.value addr, s)

def Call.run (c : Call) (p : Fin nproc) (s : Kernel) : Except Panic (CallResult × Kernel) :=
  match c with
  | .shmget key lim => sysShmget p key lim s
  | .shmrem key lim => sysShmrem p key lim s
  | .fork => Xv6.fork p s
  | .exec ip argv => Xv6.exec p ip argv s
  | .sbrk n => sysSbrk p n s
  | .exit => do
      let s ← Xv6.exit p s
      .ok (.exited, s)
  | .wait => Xv6.wait p s

/-- One completed call. -/
structure Event where
  who : Fin nproc
  call : Call
  result : CallResult

/-- The kernel: any live process may make any call. -/
def kernel : System Kernel Event where
  step s e s' := (s.proc e.who).state.live ∧ e.call.run e.who s = .ok (e.result, s')

/-- Calls made one after the other: their events and the state they lead to,
if every call is allowed by `g`, every caller is live and no call panics. -/
def runCalls (g : Kernel → Fin nproc → Call → Bool) :
    List (Fin nproc × Call) → Kernel → Option (List Event × Kernel)
  | [], s => some ([], s)
  | (p, c) :: cs, s =>
    if g s p c && (s.proc p).state.live then
      match c.run p s with
      | .error _ => none
      | .ok (r, s) => (runCalls g cs s).map fun (es, s) => (⟨p, c, r⟩ :: es, s)
    else none

def eventsOf (g : Kernel → Fin nproc → Call → Bool) (cs : List (Fin nproc × Call)) (s : Kernel) :
    List Event :=
  ((runCalls g cs s).getD ([], s)).1

def stateAfter (g : Kernel → Fin nproc → Call → Bool) (cs : List (Fin nproc × Call))
    (s : Kernel) : Kernel :=
  ((runCalls g cs s).getD ([], s)).2

/-- What `runCalls` computes is a run. -/
theorem run_of_runCalls {g : Kernel → Fin nproc → Call → Bool} {G : Kernel → Event → Prop}
    (hg : ∀ s e, g s e.who e.call = true → G s e) :
    ∀ {cs : List (Fin nproc × Call)} {s s' : Kernel} {es : List Event},
      runCalls g cs s = some (es, s') → (kernel.guarded G).Run s es s'
  | [], s, s', es, h => by
    cases h
    exact .nil
  | (p, c) :: cs, s, s', es, h => by
    rw [runCalls] at h
    split at h
    · rename_i hok
      obtain ⟨hguard, hlive⟩ := Bool.and_eq_true_iff.mp hok
      split at h
      · cases h
      · rename_i r s₁ hcall
        obtain ⟨⟨es', s₂⟩, hrest, heq⟩ := Option.map_eq_some_iff.mp h
        cases heq
        have hstep : (kernel.guarded G).step s ⟨p, c, r⟩ s₁ :=
          ⟨hg s ⟨p, c, r⟩ hguard, hlive, hcall⟩
        exact (System.Run.single hstep).append (run_of_runCalls hg hrest)
    · cases h

theorem run_calls {g : Kernel → Fin nproc → Call → Bool} {G : Kernel → Event → Prop}
    (hg : ∀ s e, g s e.who e.call = true → G s e) (cs : List (Fin nproc × Call)) {s : Kernel}
    (h : (runCalls g cs s).isSome = true) :
    (kernel.guarded G).Run s (eventsOf g cs s) (stateAfter g cs s) := by
  obtain ⟨⟨es, s'⟩, hrun⟩ := Option.isSome_iff_exists.mp h
  simpa [eventsOf, stateAfter, hrun] using run_of_runCalls hg hrun

omit [Image] in
theorem isKey_of_keyLengthOk {key : Buf} {lim : Nat} (h : keyLengthOk key lim) : IsKey key := by
  unfold keyLengthOk at h
  split at h
  · simp at h
  · rename_i n hn
    simp only [Bool.and_eq_true, decide_eq_true_eq] at h
    exact (argstr_isStr hn).isKey h.1 h.2

end Xv6
