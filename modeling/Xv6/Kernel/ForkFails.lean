import Xv6.Kernel.Copyuvm

/-!
# `fork` that cannot succeed

There is no process slot, or no memory for the kernel stack or the address space, or a
page of the parent has 16 holders already (`CannotFork`). Then `fork` should return -1 and
leave everything as it was (`ForkFailsCleanly`).

It does so if it fails in `allocproc`, or in `copyuvm` at a user page. If the memory gives out
at a page table of the copy a frame is lost; behind `copyuvm` there is no way back:
`manage_fork` panics without memory, and at the limit of 16 it takes the parent into `exit`,
with the child in EMBRYO.
-/

namespace Xv6

open Outcome Kernel

variable [Image]

/-- Why a `fork` cannot succeed. -/
def CannotFork (p : Fin nproc) (s : Kernel) : Prop :=
  (∀ q, (s.proc q).state ≠ .unused) ∨
  s.mem.freelist.length < 1 + copyRoom (pagesFor (s.proc p).sz) ∨
  ∃ i y, (s.proc p).bitmap i = 1 ∧ slotOf s.shTable ((s.proc p).phySharedPage i) = some y ∧
    s.shTable.shmemCounter y = 16

/-- Nothing has happened. -/
structure Unforked (p : Fin nproc) (s s' : Kernel) : Prop where
  running : s'.proc p = s.proc p
  embryo : ∀ q, (s'.proc q).state = .embryo → (s.proc q).state = .embryo
  counter : s'.shTable.shmemCounter = s.shTable.shmemCounter
  pgdir : ∀ q, (s.proc q).state ≠ .unused → (s'.proc q).pgdir = (s.proc q).pgdir
  free : ∀ f, f ∈ s'.mem.freelist ↔ f ∈ s.mem.freelist

def ForkFailsCleanly (p : Fin nproc) (s : Kernel) : Prop :=
  ∃ s', fork p s = .ok (.value (-1), s') ∧ Unforked p s s'

/-- No process slot; or no memory for the kernel stack and the kernel's part of the
directory; or memory for them and for just the first `w` pages with their tables, all of
them there, and there are more. -/
def ForkCondition (p : Fin nproc) (s : Kernel) : Prop :=
  (∀ q, (s.proc q).state ≠ .unused) ∨ s.mem.freelist.length ≤ 65 ∨
  ∃ w, w * pgSize < (s.proc p).sz ∧ (∀ u ≤ w, ((s.proc p).pgdir.page u).p = true) ∧
    s.mem.freelist.length = 1 + copyRoom w

section

variable {p : Fin nproc} {s s' : Kernel}

omit [Image] in
/-- `allocproc` gives no process. -/
theorem allocproc_none (h : allocproc s = (none, s')) :
    s'.mem.freelist = s.mem.freelist ∧
      ((∀ q, (s.proc q).state ≠ .unused) ∨ s.mem.freelist = []) := by
  unfold allocproc at h
  split at h
  · rename_i hnone
    cases h
    exact ⟨rfl, .inl fun q => by simpa using find_finRange_none hnone q⟩
  · simp only [setProc_mem, setProc_self] at h
    split at h
    · rename_i m hk
      cases h
      obtain ⟨rfl, hempty⟩ := kalloc_none hk
      exact ⟨rfl, .inr hempty⟩
    · cases h

/-- **The ways of `fork` to -1**: there is no process, or no copy of the address space, and then
the kernel stack is freed. -/
theorem fork_minus_one (hlive : s.Live p)
    (h : fork p s = .ok (.value (-1), s')) :
    (s'.mem.freelist = s.mem.freelist ∧
      ((∀ q, (s.proc q).state ≠ .unused) ∨ s.mem.freelist = [])) ∨
    ∃ q k m₁ m₂, (s.proc q).state = .unused ∧ s.mem.freelist = k :: m₁.freelist ∧
      copyuvm (s.proc p).pgdir (s.proc p).sz m₁ = .ok (none, m₂) ∧
      s'.mem.freelist = k :: m₂.freelist := by
  unfold fork at h
  split at h
  · rename_i s₁ halloc
    cases h
    exact .inl (allocproc_none halloc)
  · rename_i np s₁ halloc
    rcases allocproc_ok halloc with ⟨hr, -⟩ | ⟨np', k, m₁, hr, hun, hl, rfl⟩
    · cases hr
    cases hr
    have hne : p ≠ np := fun heq => live_ne_unused hlive (heq ▸ hun)
    obtain ⟨⟨d, m₂⟩, hcopy, h⟩ := bind_ok h
    simp only [setProc_ne hne] at hcopy
    cases d with
    | none =>
      obtain ⟨m₃, hfree, h⟩ := bind_ok h
      cases h
      simp only [setProc_self] at hfree
      exact .inr ⟨np, k, m₁, m₂, hun, hl, hcopy, (kfree_ok hfree).2⟩
    | some d =>
      obtain ⟨⟨gone, s₂⟩, hloop, h⟩ := bind_ok h
      cases gone with
      | true => cases h
      | false =>
        simp only [Bool.false_eq_true, if_false, Except.ok.injEq, Prod.mk.injEq,
          CallResult.value.injEq] at h
        omega

/-- If nothing is put on the free list or lost, all else is as it was. -/
theorem unforked_of_free (hlive : s.Live p) (hsz : (s.proc p).sz ≤ kernBase)
    (hm : FreelistOK s.mem) (h : fork p s = .ok (.value (-1), s'))
    (hfree : ∀ f, f ∈ s'.mem.freelist ↔ f ∈ s.mem.freelist) : Unforked p s s' := by
  have hquiet : Quiet s s' := by
    rcases fork_ok hlive hsz hm h with ⟨-, hquiet⟩ |
      ⟨_, _, _, _, _, -, -, -, -, ⟨hr, -⟩ | ⟨hr, -⟩⟩
    · exact hquiet
    · simp only [CallResult.value.injEq] at hr
      omega
    · cases hr
  have hsame : ∀ q, (s.proc q).state ≠ .unused → s'.proc q = s.proc q := fun q hq =>
    (hquiet.proc q).resolve_right fun hno => hq hno.1
  refine ⟨hsame p (live_ne_unused hlive), fun q hq => ?_, by rw [hquiet.table],
    fun q hq => by rw [hsame q hq], hfree⟩
  · rcases hquiet.proc q with heq | ⟨-, hun, -⟩
    · rw [← heq]
      exact hq
    · rw [hun] at hq
      cases hq

/-- `fork` without a process, or whose `copyuvm` fails. -/
theorem fork_fails (hlive : s.Live p) (hm : FreelistOK s.mem)
    (hcopy : (∃ q, (s.proc q).state = .unused) → ∀ k (m₁ : Mem), s.mem.freelist = k :: m₁.freelist →
      ∃ m₂, copyuvm (s.proc p).pgdir (s.proc p).sz m₁ = .ok (none, m₂)) :
    ∃ s', fork p s = .ok (.value (-1), s') := by
  unfold fork
  cases halloc : allocproc s with
  | mk r s₁ =>
  rcases allocproc_ok halloc with ⟨rfl, -⟩ | ⟨np, k, m₁, rfl, hnp, hl, rfl⟩
  · exact ⟨s₁, rfl⟩
  · have hne : p ≠ np := fun heq => live_ne_unused hlive (heq ▸ hnp)
    obtain ⟨m₂, hcopy⟩ := hcopy ⟨np, hnp⟩ k m₁ hl
    obtain ⟨m₃, hfree⟩ := kfree_frame (hm k (by rw [hl]; exact List.mem_cons_self)) m₂
    dsimp only
    rw [setProc_ne hne, setProc_self]
    exact ⟨_, ok_bind hcopy (ok_bind hfree rfl)⟩

/-- **A `fork` that cannot succeed fails cleanly** exactly if it fails in `allocproc`, or in
`copyuvm` before the first user page or at a user page. -/
theorem fork_fails_cleanly_iff (hlive : (s.proc p).state.live = true)
    (hsz : (s.proc p).sz ≤ kernBase) (hm : FreelistOK s.mem) (hnodup : s.mem.freelist.Nodup) :
    ForkFailsCleanly p s ↔ ForkCondition p s := by
  have hm₁ : ∀ {k : Nat} {m₁ : Mem}, s.mem.freelist = k :: m₁.freelist → FreelistOK m₁ :=
    fun hl f hf => hm f (by rw [hl]; exact List.mem_cons_of_mem _ hf)
  constructor
  · rintro ⟨s', h, hun⟩
    rcases fork_minus_one hlive h with ⟨-, hnone | hempty⟩ | ⟨-, k, m₁, m₂, -, hl, hcopy, hl'⟩
    · exact .inl hnone
    · exact .inr (.inl (by simp [hempty]))
    · have hlen : s.mem.freelist.length = 1 + m₁.freelist.length := by
        rw [hl, List.length_cons, Nat.add_comm]
      rcases copyuvm_fails (hm₁ hl) hcopy with ⟨hfew | ⟨w, hw, hpre, hroom⟩, -⟩ | ⟨-, f₀, hcount⟩
      · exact .inr (.inl (by omega))
      · exact .inr (.inr ⟨w, hw, hpre, by rw [hlen, hroom]⟩)
      · -- a frame was lost
        rw [hl] at hnodup
        obtain ⟨hin, hout⟩ := lost_of_count hnodup.of_cons hcount
        have hback := (hun.free f₀).mpr (by rw [hl]; exact List.mem_cons_of_mem _ hin)
        rw [hl', List.mem_cons] at hback
        rcases hback with rfl | hback
        · exact absurd hin (List.nodup_cons.mp hnodup).1
        · exact absurd hback hout
  · intro hcond
    have hrun : ∃ s', fork p s = .ok (.value (-1), s') := by
      refine fork_fails hlive hm fun ⟨q, hq⟩ k m₁ hl => ?_
      have hlen : s.mem.freelist.length = 1 + m₁.freelist.length := by
        rw [hl, List.length_cons, Nat.add_comm]
      rcases hcond with hnone | hfew | ⟨w, hw, hpre, hroom⟩
      · exact absurd hq (hnone q)
      · exact copyuvm_few _ _ (hm₁ hl) (by omega)
      · exact copyuvm_stops (hm₁ hl) hw hsz hpre (.inl (by omega))
    obtain ⟨s', h⟩ := hrun
    refine ⟨s', h, unforked_of_free hlive hsz hm h fun f => ?_⟩
    rcases fork_minus_one hlive h with ⟨hsame, -⟩ | ⟨q, k, m₁, m₂, hq, hl, hcopy, hl'⟩
    · rw [hsame]
    · have hlen : s.mem.freelist.length = 1 + m₁.freelist.length := by
        rw [hl, List.length_cons, Nat.add_comm]
      rcases copyuvm_fails (hm₁ hl) hcopy with ⟨-, hcount⟩ | ⟨⟨w', -, -, hmod, hroom'⟩, -⟩
      · rw [hl, hl', List.mem_cons, List.mem_cons, ← List.count_pos_iff, ← List.count_pos_iff,
          hcount f]
      · -- then the memory gave out at a page table
        rcases hcond with hnone | hfew | ⟨w, -, -, hroom⟩
        · exact absurd hq (hnone q)
        · simp only [copyRoom] at hroom'
          omega
        · simp only [copyRoom, tabsFor] at hroom hroom'
          omega

omit [Image] in
/-- 65 frames and one page to copy: -1, and nothing has happened. -/
theorem fork_fails_cleanly_few : @ForkFailsCleanly sampleImage 1
    { sampleTwo with mem := ⟨frames 65 0x82400000, fun _ _ => 0⟩ } := by
  let _ := sampleImage
  obtain ⟨hok, hnodup⟩ := frames_ok (n := 65) (by decide)
  refine (fork_fails_cleanly_iff (by decide) (by decide) hok hnodup).mpr (.inr (.inl ?_))
  exact Nat.le_of_eq (frames_length ..)

/-- A page with 16 holders, attached by process 1 at the first window position. -/
def sampleShared : Kernel :=
  { sampleTwo.setProc 1 { sampleTwo.proc 1 with
      bitmap := fun i => if i = 0 then 1 else 0
      phySharedPage := fun i => if i = 0 then 0x83400000 else 0 } with
    shTable := (sampleTwo.shTable.setAddr 0 0x83400000).setCounter 0 16 }

omit [Image] in
/-- The parent of a seventeenth holder is taken into `exit`. -/
theorem fork_at_limit : ¬ ∀ (_ : Image) (p : Fin nproc) (s : Kernel),
    (s.proc p).state.live = true → (s.proc p).sz ≤ kernBase → FreelistOK s.mem →
    s.mem.freelist.Nodup → CannotFork p s → ForkFailsCleanly p s := by
  intro hall
  let _ := sampleImage
  obtain ⟨hok, hnodup⟩ := frames_ok (n := 4096) (by decide)
  have hcannot : CannotFork 1 sampleShared := .inr (.inr ⟨0, 0, by decide, by decide, by decide⟩)
  obtain ⟨s', h, -⟩ := hall sampleImage 1 sampleShared (by decide) (by decide) hok hnodup hcannot
  rcases fork_minus_one (by decide) h with ⟨-, hnone | hempty⟩ | ⟨-, k, m₁, m₂, -, hl, hcopy, -⟩
  · exact hnone 3 (by decide)
  · cases hempty
  · -- the copy succeeds
    have hlen : 4096 = m₁.freelist.length + 1 := by
      rw [← List.length_cons (a := k), ← hl]
      exact (frames_length ..).symm
    have hfits : ∃ d m', copyuvm (sampleShared.proc 1).pgdir (sampleShared.proc 1).sz m₁ =
        .ok (some d, m') ∧ Fits d 0 m' := by
      refine copyuvm_fits (n := 1) (fun f hf => hok f ?_) (by decide) (by decide) (fun w hw => ?_)
        (by omega)
      · exact hl ▸ List.mem_cons_of_mem k hf
      have hzero : w = 0 := by
        change w * 4096 < 4096 at hw
        omega
      rw [hzero]
      decide
    obtain ⟨d, m', hcopy', -⟩ := hfits
    rw [hcopy'] at hcopy
    cases hcopy

end

end Xv6
