import Xv6.Fs.Ftable
import Xv6.Library.Tally

/-!
# Every reference is accounted for

References are given out (`supply`: `ref` of the files, the open ends of the pipes,
the references to inodes that are not somebody else's) and stand somewhere: in the
tables of open files, in a file that is in use, in the hands of a process in the
middle of a call. The two are equal in every state (`Accounts.tokens`), where a
process that has entered a file before counting it, or counted it out before clearing
the entry, owes one.

So between calls `ref` of a file is the number of its descriptors, each file of an
inode stands for one reference of the inode, and a pipe is there as long as a
descriptor of one of its ends is.
-/

namespace Xv6.Ftable

open Transition Finset Function

/-! ## §1  Supply and demand -/

namespace Pc

/-- The references a process has in hand. -/
def holds : Pc → List Token
  | openAlloc ip => [.inode ip]
  | openFd ip f => [.inode ip, .file f]
  | openSet ip _ => [.inode ip]
  | pipe1 f0 => [.file f0]
  | pipe2 f0 f1 => [.file f0, .file f1]
  | pipeFd f0 f1 => [.file f0, .file f1]
  | pipeFd1 _ f1 _ => [.file f1]
  | release t ts => t :: ts
  | exitClose _ _ ts => ts
  | _ => []

/-- The file of an entry that is not counted. -/
def owes : Pc → Option (Fin nfile)
  | dup f => some f
  | exitClose _ f _ => some f
  | _ => none

/-- The files that have no type yet. -/
def making : Pc → List (Fin nfile)
  | openFd _ f => [f]
  | openSet _ f => [f]
  | pipe1 f0 => [f0]
  | pipe2 f0 f1 => [f0, f1]
  | _ => []

end Pc

/-- 1 for the token of the file, if there is one. -/
def fileInd (x : Option (Fin nfile)) (r : Token) : Int := if x.map Token.file = some r then 1 else 0

/-- What a process has in hand, less what it owes. -/
def net (c : Pc) (r : Token) : Int := c.holds.count r - fileInd c.owes r

/-- The entries of a table. -/
def uses (t : Fin nofile → Option (Fin nfile)) (r : Token) : Int := ∑ fd, fileInd (t fd) r

/-- What a file in use refers to. -/
def fileTok (x : File) (r : Token) : Int := if x.ref = 0 then 0 else x.tokens.count r

def isOpen (q : Option Pipe) (w : Bool) : Bool :=
  q.any fun q => if w then q.writeopen else q.readopen

namespace State

def supply (s : State) : Token → Int
  | .file f => (s.file f).ref
  | .pipe pi w => (isOpen (s.pipe pi) w).toNat
  | .inode ip => s.iref ip - s.others ip

/-- What process `p` accounts for. -/
def share (s : State) (p : Fin nproc) (r : Token) : Int := uses (s.ofile p) r + net (s.pc p) r

/-- References given out and not found, or less than nothing. -/
def gap (s : State) (r : Token) : Int :=
  s.supply r - ∑ f, fileTok (s.file f) r - ∑ p, s.share p r

end State

section Fields

variable (s : State) (p q : Fin nproc) (c : Pc) (f g : Fin nfile) (x : File) (fd : Fin nofile)
  (y : Option (Fin nfile))

@[simp] theorem goto_file : (s.goto p c).file = s.file := rfl
@[simp] theorem goto_ofile : (s.goto p c).ofile = s.ofile := rfl
@[simp] theorem goto_pc : (s.goto p c).pc q = if q = p then c else s.pc q :=
  update_apply ..

@[simp] theorem setFile_file : (s.setFile f x).file g = if g = f then x else s.file g :=
  update_apply ..
@[simp] theorem setFile_ofile : (s.setFile f x).ofile = s.ofile := rfl
@[simp] theorem setFile_pipe : (s.setFile f x).pipe = s.pipe := rfl

@[simp] theorem setFd_file : (s.setFd p fd y).file = s.file := rfl
@[simp] theorem setFd_ofile : (s.setFd p fd y).ofile q =
    if q = p then update (s.ofile p) fd y else s.ofile q := update_apply ..
@[simp] theorem setFd_pc : (s.setFd p fd y).pc = s.pc := rfl

end Fields

section Gap

variable {s : State} {p : Fin nproc} {r : Token}

theorem gap_goto (s : State) (p : Fin nproc) (c : Pc) (r : Token) :
    (s.goto p c).gap r = s.gap r - net c r + net (s.pc p) r := by
  have hsum : ∑ q, (s.goto p c).share q r + s.share p r =
      ∑ q, s.share q r + (s.goto p c).share p r := by
    refine Tally.sum_change (f := (s.share · r)) (mem_univ p) fun q _ hq => ?_
    simp [State.share, hq]
  have hself : (s.goto p c).share p r = uses (s.ofile p) r + net c r := by
    simp [State.share]
  have hsupply : (s.goto p c).supply r = s.supply r := by cases r <;> rfl
  rw [hself, State.share] at hsum
  rw [State.gap, State.gap, hsupply]
  change _ - ∑ f, fileTok (s.file f) r - _ = _
  omega

theorem uses_update (t : Fin nofile → Option (Fin nfile)) (fd : Fin nofile)
    (x : Option (Fin nfile)) (r : Token) :
    uses (update t fd x) r = uses t r - fileInd (t fd) r + fileInd x r := by
  have hsum := Tally.sum_change (f := fun j => fileInd (t j) r)
    (g := fun j => fileInd (update t fd x j) r) (mem_univ fd) fun j _ hj => by
      rw [update_of_ne hj]
  rw [update_self] at hsum
  rw [uses, uses]
  omega

theorem gap_setFd (s : State) (p : Fin nproc) (fd : Fin nofile) (x : Option (Fin nfile))
    (r : Token) : (s.setFd p fd x).gap r = s.gap r + fileInd (s.ofile p fd) r - fileInd x r := by
  have hsum : ∑ q, (s.setFd p fd x).share q r + s.share p r =
      ∑ q, s.share q r + (s.setFd p fd x).share p r := by
    refine Tally.sum_change (f := (s.share · r)) (mem_univ p) fun q _ hq => ?_
    simp [State.share, hq]
  have hself : (s.setFd p fd x).share p r =
      uses (update (s.ofile p) fd x) r + net (s.pc p) r := by
    simp [State.share]
  have hsupply : (s.setFd p fd x).supply r = s.supply r := by cases r <;> rfl
  rw [hself, State.share, uses_update] at hsum
  rw [State.gap, State.gap, hsupply]
  change _ - ∑ f, fileTok (s.file f) r - _ = _
  omega

theorem gap_setFile (s : State) (f : Fin nfile) (x : File) (r : Token) :
    (s.setFile f x).gap r = s.gap r + (if .file f = r then (x.ref : Int) - (s.file f).ref else 0) -
      fileTok x r + fileTok (s.file f) r := by
  have hsum : ∑ j, fileTok ((s.setFile f x).file j) r + fileTok (s.file f) r =
      ∑ j, fileTok (s.file j) r + fileTok ((s.setFile f x).file f) r := by
    refine Tally.sum_change (f := fun j => fileTok (s.file j) r) (mem_univ f) fun j _ hj => ?_
    simp [hj]
  have hself : (s.setFile f x).file f = x := by simp
  have hsupply : (s.setFile f x).supply r =
      s.supply r + if .file f = r then (x.ref : Int) - (s.file f).ref else 0 := by
    cases r with
    | file f' =>
      simp only [State.supply, setFile_file, Token.file.injEq]
      by_cases hf : f' = f
      · subst hf
        rw [if_pos rfl, if_pos rfl]
        omega
      · rw [if_neg hf, if_neg (Ne.symm hf), Int.add_zero]
    | pipe pi w => exact (Int.add_zero _).symm
    | inode ip => exact (Int.add_zero _).symm
  rw [hself] at hsum
  rw [State.gap, State.gap, hsupply]
  change _ - _ - ∑ p, s.share p r = _
  omega

/-- A file that stays in use, with what it refers to. -/
theorem gap_setRef {s : State} {f : Fin nfile} {x : File} (htokens : x.tokens = (s.file f).tokens)
    (hold : (s.file f).ref ≠ 0) (hnew : x.ref ≠ 0) (r : Token) :
    (s.setFile f x).gap r =
      s.gap r + if .file f = r then (x.ref : Int) - (s.file f).ref else 0 := by
  rw [gap_setFile, fileTok, fileTok, if_neg hold, if_neg hnew, htokens]
  omega

theorem gap_setPipe (s : State) (pi : Nat) (q : Option Pipe) (r : Token) :
    (s.setPipe pi q).gap r = s.gap r + (s.setPipe pi q).supply r - s.supply r := by
  rw [State.gap, State.gap]
  change _ - ∑ f, fileTok (s.file f) r - ∑ p, s.share p r = _
  omega

theorem gap_setIref (s : State) (ip n : Nat) (r : Token) :
    (s.setIref ip n).gap r = s.gap r + if .inode ip = r then (n : Int) - s.iref ip else 0 := by
  have hsupply : (s.setIref ip n).supply r =
      s.supply r + if .inode ip = r then (n : Int) - s.iref ip else 0 := by
    cases r with
    | file f => exact (Int.add_zero _).symm
    | pipe pi w => exact (Int.add_zero _).symm
    | inode ip' =>
      simp only [State.supply, State.setIref, Token.inode.injEq]
      by_cases hip : ip' = ip
      · subst hip
        rw [update_self, if_pos rfl]
        omega
      · rw [update_of_ne hip, if_neg (Ne.symm hip), Int.add_zero]
  rw [State.gap, State.gap, hsupply]
  change _ - ∑ f, fileTok (s.file f) r - ∑ p, s.share p r = _
  omega

end Gap

/-! ## §2  What holds in every state -/

/-- A file without a type yet, with one reference. -/
def Fresh (s : State) (f : Fin nfile) : Prop := (s.file f).type = .none ∧ (s.file f).ref = 1

/-- What a process relies on in the middle of a call. -/
def Pc.OK (s : State) (p : Fin nproc) : Pc → Prop
  | .unused => ∀ fd, s.ofile p fd = none
  | .openFd _ f => Fresh s f
  | .openSet _ f => Fresh s f ∧ ∃ fd, s.ofile p fd = some f
  | .dup f => ∃ fd fd', fd ≠ fd' ∧ s.ofile p fd = some f ∧ s.ofile p fd' = some f
  | .pipe1 f0 => Fresh s f0
  | .pipe2 f0 f1 => Fresh s f0 ∧ Fresh s f1 ∧ f0 ≠ f1
  | .pipeFd1 f0 _ fd0 => s.ofile p fd0 = some f0
  | .fork np i => s.pc np = .embryo ∧ ∀ fd : Fin nofile, i ≤ fd → s.ofile np fd = none
  | .exit i => ∀ fd : Fin nofile, fd < i → s.ofile p fd = none
  | .exitClose i f _ => (∀ fd : Fin nofile, fd < i → s.ofile p fd = none) ∧
      ∃ fd : Fin nofile, fd.val = i ∧ s.ofile p fd = some f
  | _ => True

def PcOK (s : State) (p : Fin nproc) : Prop := (s.pc p).OK s p

structure Accounts (s : State) : Prop where
  tokens : ∀ r, s.gap r = 0
  free : ∀ f, (s.file f).ref = 0 → (s.file f).type = .none
  ends : ∀ pi, s.pipe pi ≠ some ⟨false, false⟩
  procs : ∀ p, PcOK s p
  alone : ∀ p q np i j, s.pc p = .fork np i → s.pc q = .fork np j → p = q

section Shares

variable {s : State} {p q : Fin nproc} {f : Fin nfile} {r : Token}

theorem fileInd_nonneg (x : Option (Fin nfile)) (r : Token) : 0 ≤ fileInd x r := by
  unfold fileInd
  split <;> decide

theorem fileInd_le_uses (t : Fin nofile → Option (Fin nfile)) (fd : Fin nofile) (r : Token) :
    fileInd (t fd) r ≤ uses t r :=
  Finset.single_le_sum (f := fun fd => fileInd (t fd) r) (fun fd _ => fileInd_nonneg (t fd) r)
    (mem_univ fd)

theorem fileInd_file (f : Fin nfile) : fileInd (some f) (.file f) = 1 := if_pos rfl

theorem two_le_uses {t : Fin nofile → Option (Fin nfile)} {fd fd' : Fin nofile} (hne : fd ≠ fd')
    (hfd : t fd = some f) (hfd' : t fd' = some f) : 2 ≤ uses t (.file f) := by
  have hrest : fileInd (t fd') (.file f) ≤ ∑ x ∈ univ.erase fd, fileInd (t x) (.file f) :=
    Finset.single_le_sum (f := fun x => fileInd (t x) (.file f))
      (fun x _ => fileInd_nonneg (t x) _) (Finset.mem_erase.mpr ⟨Ne.symm hne, mem_univ fd'⟩)
  rw [uses, ← Finset.add_sum_erase univ (fun x => fileInd (t x) (.file f)) (mem_univ fd)]
  rw [hfd', fileInd_file] at hrest
  rw [hfd, fileInd_file]
  omega

theorem fileTok_nonneg (x : File) (r : Token) : 0 ≤ fileTok x r := by
  unfold fileTok
  split
  · exact le_rfl
  · exact Int.natCast_nonneg _

/-- A file refers to no file. -/
theorem fileTok_file (x : File) (f : Fin nfile) : fileTok x (.file f) = 0 := by
  unfold fileTok File.tokens
  split
  · rfl
  · split <;> rfl

/-- What is owed stands in the table. -/
theorem PcOK.owes_le (h : PcOK s p) (r : Token) : fileInd (s.pc p).owes r ≤ uses (s.ofile p) r := by
  unfold PcOK at h
  cases hpc : s.pc p with
  | dup f =>
    rw [hpc] at h
    obtain ⟨fd, -, -, hfd, -⟩ := h
    have hle := fileInd_le_uses (s.ofile p) fd r
    rwa [hfd] at hle
  | exitClose i f ts =>
    rw [hpc] at h
    obtain ⟨-, fd, -, hfd⟩ := h
    have hle := fileInd_le_uses (s.ofile p) fd r
    rwa [hfd] at hle
  | _ => exact Finset.sum_nonneg fun fd _ => fileInd_nonneg _ r

theorem PcOK.count_le_share (h : PcOK s p) (r : Token) :
    ((s.pc p).holds.count r : Int) ≤ s.share p r := by
  have hle := h.owes_le r
  unfold State.share net
  omega

theorem PcOK.share_nonneg (h : PcOK s p) (r : Token) : 0 ≤ s.share p r :=
  le_trans (Int.natCast_nonneg _) (h.count_le_share r)

/-- An entry counts for a process that owes nothing. -/
theorem entry_share (howes : (s.pc p).owes = none) {fd : Fin nofile} (hfd : s.ofile p fd = some f) :
    1 ≤ s.share p (.file f) := by
  have hle := fileInd_le_uses (s.ofile p) fd (.file f)
  rw [hfd, fileInd_file] at hle
  have hnone : fileInd (s.pc p).owes (.file f) = 0 := by rw [howes]; rfl
  unfold State.share net
  omega

theorem held_share (h : PcOK s p) (hr : r ∈ (s.pc p).holds) : 1 ≤ s.share p r := by
  have hcount := List.count_pos_iff.mpr hr
  have hle := h.count_le_share r
  omega

/-- **Shares are part of the supply.** -/
theorem Accounts.share_le (h : Accounts s) (p : Fin nproc) (r : Token) : s.share p r ≤ s.supply r := by
  have hgap := h.tokens r
  have hfiles : 0 ≤ ∑ f, fileTok (s.file f) r :=
    Finset.sum_nonneg fun f _ => fileTok_nonneg (s.file f) r
  have hle : s.share p r ≤ ∑ q, s.share q r :=
    Finset.single_le_sum (f := fun q => s.share q r) (fun q _ => (h.procs q).share_nonneg r)
      (mem_univ p)
  unfold State.gap at hgap
  omega

theorem Accounts.share_add_le (h : Accounts s) (hpq : p ≠ q) (r : Token) :
    s.share p r + s.share q r ≤ s.supply r := by
  have hgap := h.tokens r
  have hfiles : 0 ≤ ∑ f, fileTok (s.file f) r :=
    Finset.sum_nonneg fun f _ => fileTok_nonneg (s.file f) r
  have hle : s.share p r + s.share q r ≤ ∑ x, s.share x r := by
    rw [← Finset.add_sum_erase univ (fun x => s.share x r) (mem_univ p)]
    have hq : s.share q r ≤ ∑ x ∈ univ.erase p, s.share x r :=
      Finset.single_le_sum (f := fun x => s.share x r) (fun x _ => (h.procs x).share_nonneg r)
        (Finset.mem_erase.mpr ⟨Ne.symm hpq, mem_univ q⟩)
    omega
  unfold State.gap at hgap
  omega

/-- A file in the making is its process's own. -/
theorem PcOK.making (h : PcOK s p) (hf : f ∈ (s.pc p).making) :
    Fresh s f ∧ 1 ≤ s.share p (.file f) := by
  have hok : (s.pc p).OK s p := h
  cases hpc : s.pc p with
  | openFd ip g | pipe1 g =>
    rw [hpc] at hok hf
    obtain rfl := List.mem_singleton.mp hf
    exact ⟨hok, held_share h (by rw [hpc]; simp [Pc.holds])⟩
  | openSet ip g =>
    rw [hpc] at hok hf
    obtain rfl := List.mem_singleton.mp hf
    obtain ⟨hfresh, fd, hfd⟩ := hok
    exact ⟨hfresh, entry_share (by rw [hpc]; rfl) hfd⟩
  | pipe2 g g' =>
    rw [hpc] at hok hf
    rcases List.mem_pair.mp hf with rfl | rfl
    · exact ⟨hok.1, held_share h (by rw [hpc]; simp [Pc.holds])⟩
    · exact ⟨hok.2.1, held_share h (by rw [hpc]; simp [Pc.holds])⟩
  | _ =>
    rw [hpc] at hf
    cases hf

/-- A file that one process accounts for is in nobody else's making. -/
theorem Accounts.not_making (h : Accounts s) (hp : 1 ≤ s.share p (.file f)) (hpq : q ≠ p) :
    f ∉ (s.pc q).making := by
  intro hf
  obtain ⟨⟨-, href⟩, hq⟩ := (h.procs q).making hf
  have hle := h.share_add_le hpq (.file f)
  have hsupply : s.supply (.file f) = (s.file f).ref := rfl
  omega

/-- A free file is in nobody's making. -/
theorem Accounts.not_making_free (h : Accounts s) (hf : (s.file f).ref = 0) (q : Fin nproc) :
    f ∉ (s.pc q).making := by
  intro hmaking
  obtain ⟨⟨-, href⟩, -⟩ := (h.procs q).making hmaking
  omega

end Shares

section Moves

variable {s s' : State} {p q : Fin nproc}

/-- What a process relies on is its own, the files in its making and its child. -/
theorem PcOK.frame (h : PcOK s q) (hpc : s'.pc q = s.pc q) (hofile : s'.ofile q = s.ofile q)
    (hfile : ∀ f ∈ (s.pc q).making, s'.file f = s.file f)
    (hchild : ∀ np i, s.pc q = .fork np i → s'.pc np = s.pc np ∧ s'.ofile np = s.ofile np) :
    PcOK s' q := by
  unfold PcOK at h ⊢
  have hfresh : ∀ f ∈ (s.pc q).making, Fresh s f → Fresh s' f := by
    intro f hf hold
    unfold Fresh
    rw [hfile f hf]
    exact hold
  rw [hpc]
  cases hc : s.pc q with
  | openFd ip f | pipe1 f =>
    rw [hc] at h hfresh
    exact hfresh f (by simp [Pc.making]) h
  | openSet ip f =>
    rw [hc] at h hfresh
    exact ⟨hfresh f (by simp [Pc.making]) h.1, hofile.symm ▸ h.2⟩
  | pipe2 f0 f1 =>
    rw [hc] at h hfresh
    exact ⟨hfresh f0 (by simp [Pc.making]) h.1, hfresh f1 (by simp [Pc.making]) h.2.1, h.2.2⟩
  | fork np i =>
    rw [hc] at h
    obtain ⟨hpc', hofile'⟩ := hchild np i hc
    exact ⟨hpc'.trans h.1, hofile'.symm ▸ h.2⟩
  | _ =>
    rw [hc] at h
    simp only [Pc.OK, hofile] at h ⊢ <;> exact h

/-- One process has moved. It has touched no file that is in another's making, and no other
table than that of the child it is making. -/
theorem Accounts.moved (h : Accounts s) {c₀ : Pc} (hc₀ : s.pc p = c₀) (htok : ∀ r, s'.gap r = 0)
    (hfree : ∀ f, s'.file f ≠ s.file f → (s'.file f).ref = 0 → (s'.file f).type = .none)
    (hends : ∀ pi, s'.pipe pi ≠ some ⟨false, false⟩) (hpc : ∀ q, q ≠ p → s'.pc q = s.pc q)
    (hofile : ∀ q, q ≠ p → (∀ i, c₀ ≠ .fork q i) → s'.ofile q = s.ofile q)
    (hfile : ∀ f, s'.file f ≠ s.file f → ∀ q, q ≠ p → f ∉ (s.pc q).making)
    (hembryo : c₀ ≠ .embryo) (hp : PcOK s' p)
    (hfork : ∀ np i, s'.pc p = .fork np i → ∃ j, c₀ = .fork np j) : Accounts s' := by
  subst hc₀
  refine ⟨htok, fun f hf => ?_, hends, fun q => ?_, fun a b np i j ha hb => ?_⟩
  · by_cases hsame : s'.file f = s.file f
    · rw [hsame] at hf ⊢
      exact h.free f hf
    · exact hfree f hsame hf
  · by_cases hqp : q = p
    · rw [hqp]
      exact hp
    by_cases hchild : ∃ i, s.pc p = .fork q i
    · -- the child, which waits
      obtain ⟨i, hi⟩ := hchild
      have hok := h.procs p
      rw [PcOK, hi] at hok
      rw [PcOK, hpc q hqp, hok.1]
      trivial
    · have hown := hofile q hqp fun i hi => hchild ⟨i, hi⟩
      refine (h.procs q).frame (hpc q hqp) hown (fun f hf => ?_) fun np i hq => ?_
      · by_contra hne
        exact hfile f hne q hqp hf
      · have hok := h.procs q
        rw [PcOK, hq] at hok
        have hnp : np ≠ p := fun heq => hembryo (heq ▸ hok.1)
        exact ⟨hpc np hnp, hofile np hnp fun j hj => hqp (h.alone q p np i j hq hj)⟩
  · have hback : ∀ {x k}, s'.pc x = .fork np k → ∃ k', s.pc x = .fork np k' := by
      intro x k hx
      by_cases hxp : x = p
      · rw [hxp] at hx ⊢
        exact hfork np k hx
      · exact ⟨k, (hpc x hxp) ▸ hx⟩
    obtain ⟨i', ha'⟩ := hback ha
    obtain ⟨j', hb'⟩ := hback hb
    exact h.alone a b np i' j' ha' hb'

/-- The same where the data have changed first and the process goes on then. -/
theorem Accounts.goes (h : Accounts s) {s₁ : State} {c₀ c : Pc} (hc₀ : s.pc p = c₀)
    (hpc : s₁.pc = s.pc) (htok : ∀ r, s₁.gap r = net c r - net c₀ r)
    (hfree : ∀ f, s₁.file f ≠ s.file f → (s₁.file f).ref = 0 → (s₁.file f).type = .none)
    (hends : ∀ pi, s₁.pipe pi ≠ some ⟨false, false⟩)
    (hofile : ∀ q, q ≠ p → (∀ i, c₀ ≠ .fork q i) → s₁.ofile q = s.ofile q)
    (hfile : ∀ f, s₁.file f ≠ s.file f → ∀ q, q ≠ p → f ∉ (s.pc q).making)
    (hembryo : c₀ ≠ .embryo) (hok : c.OK (s₁.goto p c) p)
    (hfork : ∀ np i, c = .fork np i → ∃ j, c₀ = .fork np j) : Accounts (s₁.goto p c) := by
  refine h.moved hc₀ (fun r => ?_) hfree hends (fun q hq => ?_) hofile hfile hembryo ?_
    fun np i hc => ?_
  · rw [gap_goto, htok, hpc, hc₀]
    omega
  · rw [goto_pc, if_neg hq, hpc]
  · rw [PcOK, goto_pc, if_pos rfl]
    exact hok
  · rw [goto_pc, if_pos rfl] at hc
    exact hfork np i hc

/-- Only the process goes on. -/
theorem Accounts.goesOn (h : Accounts s) {c₀ c : Pc} (hc₀ : s.pc p = c₀)
    (hnet : ∀ r, net c r = net c₀ r) (hembryo : c₀ ≠ .embryo) (hok : c.OK (s.goto p c) p)
    (hfork : ∀ np i, c = .fork np i → ∃ j, c₀ = .fork np j) : Accounts (s.goto p c) := by
  refine h.goes hc₀ rfl (fun r => ?_) (fun f hf => absurd rfl hf) h.ends (fun _ _ _ => rfl)
    (fun f hf => absurd rfl hf) hembryo hok hfork
  rw [h.tokens, hnet]
  omega

/-- A process and its child go on. -/
theorem Accounts.goTogether (h : Accounts s) {np : Fin nproc} {c₀ c d₀ d : Pc}
    (hc₀ : s.pc p = c₀) (hd₀ : s.pc np = d₀) (hne : np ≠ p) (hnet : ∀ r, net c r = net c₀ r)
    (hnetd : ∀ r, net d r = net d₀ r) (hembryo : c₀ ≠ .embryo)
    (hothers : ∀ q i, q ≠ p → s.pc q ≠ .fork np i)
    (hok : c.OK ((s.goto np d).goto p c) p) (hokd : d.OK ((s.goto np d).goto p c) np)
    (hfork : ∀ m i, c = .fork m i → m = np) (hforkd : ∀ m i, d ≠ .fork m i) :
    Accounts ((s.goto np d).goto p c) := by
  have hpcp : ((s.goto np d).goto p c).pc p = c := by rw [goto_pc, if_pos rfl]
  have hpcnp : ((s.goto np d).goto p c).pc np = d := by rw [goto_pc, if_neg hne, goto_pc, if_pos rfl]
  have hpc : ∀ q, q ≠ p → q ≠ np → ((s.goto np d).goto p c).pc q = s.pc q := by
    intro q hqp hqnp
    rw [goto_pc, if_neg hqp, goto_pc, if_neg hqnp]
  refine ⟨fun r => ?_, h.free, h.ends, fun q => ?_, fun a b m i j ha hb => ?_⟩
  · rw [gap_goto, gap_goto, h.tokens, goto_pc, if_neg (Ne.symm hne), hc₀, hd₀, hnet, hnetd]
    omega
  · by_cases hqp : q = p
    · rw [hqp, PcOK, hpcp]
      exact hok
    by_cases hqnp : q = np
    · rw [hqnp, PcOK, hpcnp]
      exact hokd
    refine (h.procs q).frame (hpc q hqp hqnp) rfl (fun _ _ => rfl) fun m i hq => ⟨?_, rfl⟩
    have hqok := h.procs q
    rw [PcOK, hq] at hqok
    refine hpc m (fun hm => hembryo ?_) fun hm => hothers q i hqp (hm ▸ hq)
    rw [← hc₀, ← hm]
    exact hqok.1
  · -- the parent is the only one that makes `np`
    have hwho : ∀ {x k}, ((s.goto np d).goto p c).pc x = .fork m k →
        (x = p ∧ m = np) ∨ (x ≠ p ∧ s.pc x = .fork m k) := by
      intro x k hx
      by_cases hxp : x = p
      · rw [hxp, hpcp] at hx
        exact .inl ⟨hxp, hfork m k hx⟩
      by_cases hxnp : x = np
      · rw [hxnp, hpcnp] at hx
        exact absurd hx (hforkd m k)
      · exact .inr ⟨hxp, (hpc x hxp hxnp) ▸ hx⟩
    rcases hwho ha with ⟨rfl, rfl⟩ | ⟨hap, ha'⟩
    · rcases hwho hb with ⟨rfl, -⟩ | ⟨hbp, hb'⟩
      · rfl
      · exact absurd hb' (hothers b j hbp)
    · rcases hwho hb with ⟨rfl, rfl⟩ | ⟨hbp, hb'⟩
      · exact absurd ha' (hothers a i hap)
      · exact h.alone a b m i j ha' hb'

end Moves

/-! ## §3  Dropping a reference -/

section Drop

variable {s s' : State} {t r : Token} {new : List Token} {fr : Option Nat}

theorem count_cons_int (t : Token) (ts : List Token) (r : Token) :
    ((t :: ts).count r : Int) = ts.count r + if t = r then 1 else 0 := by
  rw [List.count_cons, Int.natCast_add]
  simp only [beq_iff_eq]
  split <;> rfl

theorem fileInd_some (f : Fin nfile) (r : Token) :
    fileInd (some f) r = if .file f = r then 1 else 0 := by
  simp [fileInd]

/-- What `drop` does. -/
structure Drops (s : State) (t : Token) (s' : State) (new : List Token) : Prop where
  gap : ∀ r, s'.gap r = s.gap r - (if t = r then 1 else 0) + new.count r
  pc : s'.pc = s.pc
  ofile : s'.ofile = s.ofile
  others : s'.others = s.others
  file : ∀ f, s'.file f ≠ s.file f → t = .file f ∧
    ((s'.file f).ref = 0 → (s'.file f).type = .none)
  ends : ∀ pi, s'.pipe pi = some ⟨false, false⟩ → s.pipe pi = some ⟨false, false⟩

theorem drop_file {f : Fin nfile} (h : drop s (.file f) = some (s', new, fr)) :
    Drops s (.file f) s' new ∧ fr = none := by
  simp only [drop] at h
  have hfile : ∀ {x : File} (g : Fin nfile), (s.setFile f x).file g ≠ s.file g →
      Token.file f = .file g ∧ (s.setFile f x).file g = x := by
    intro x g hne
    rw [setFile_file] at hne ⊢
    by_cases hg : g = f
    · rw [if_pos hg, hg]
      exact ⟨rfl, rfl⟩
    · rw [if_neg hg] at hne
      exact absurd rfl hne
  split at h
  · cases h
  · rename_i href
    cases h
    refine ⟨⟨fun r => ?_, rfl, rfl, rfl, fun g hg => ?_, fun _ hpi => hpi⟩, rfl⟩
    · have hold : fileTok (s.file f) r = ((s.file f).tokens.count r : Int) :=
        if_neg (by rw [href]; decide)
      have hnew : ∀ x : File, x.ref = 0 → fileTok x r = 0 := fun x hx => if_pos hx
      rw [gap_setFile, hold, hnew _ rfl, href]
      dsimp only
      split <;> omega
    · obtain ⟨heq, hx⟩ := hfile g hg
      rw [hx]
      exact ⟨heq, fun _ => rfl⟩
  · rename_i n href
    cases h
    refine ⟨⟨fun r => ?_, rfl, rfl, rfl, fun g hg => ?_, fun _ hpi => hpi⟩, rfl⟩
    · rw [gap_setRef (by rfl) (by rw [href]; nofun) (by nofun), href, List.count_nil]
      dsimp only
      split <;> omega
    · obtain ⟨heq, hx⟩ := hfile g hg
      rw [hx]
      exact ⟨heq, nofun⟩

theorem drop_inode {ip : Nat} (h : drop s (.inode ip) = some (s', new, fr)) :
    Drops s (.inode ip) s' new ∧ fr = none := by
  simp only [drop] at h
  split at h
  · cases h
  · rename_i n href
    cases h
    refine ⟨⟨fun r => ?_, rfl, rfl, rfl, fun f hf => absurd rfl hf, fun _ hpi => hpi⟩, rfl⟩
    rw [gap_setIref, href, List.count_nil]
    split <;> omega

/-- The end was open: somebody held it. -/
theorem drop_pipe {pi : Nat} {w : Bool} (h : drop s (.pipe pi w) = some (s', new, fr))
    (hopen : 1 ≤ s.supply (.pipe pi w)) : Drops s (.pipe pi w) s' new := by
  have hw : isOpen (s.pipe pi) w = true := by
    by_contra hne
    rw [Bool.not_eq_true] at hne
    rw [State.supply, hne] at hopen
    exact absurd hopen (by decide)
  have hsupply : ∀ (q' : Option Pipe), (∀ w', isOpen q' w' = (isOpen (s.pipe pi) w' && w' != w)) →
      ∀ r, (s.setPipe pi q').gap r = s.gap r - (if .pipe pi w = r then 1 else 0) + 0 := by
    intro q' hq' r
    rw [gap_setPipe]
    cases r with
    | file f => simp [State.supply, State.setPipe]
    | inode ip => simp [State.supply, State.setPipe]
    | pipe pi' w' =>
      simp only [State.supply, State.setPipe, Token.pipe.injEq]
      by_cases hpi : pi' = pi
      · subst hpi
        rw [update_self, hq' w']
        by_cases hw' : w' = w
        · subst hw'
          simp [hw]
        · have hne : (w' != w) = true := bne_iff_ne.mpr hw'
          simp [hne, Ne.symm hw']
      · rw [update_of_ne hpi]
        simp [Ne.symm hpi]
  simp only [drop] at h
  split at h
  · cases h
  · rename_i q hq
    have hclose : ∀ w', isOpen (some (q.close w)) w' = (isOpen (s.pipe pi) w' && w' != w) := by
      intro w'
      rw [hq]
      cases w <;> cases w' <;> simp [isOpen, Pipe.close]
    split at h
    · rename_i hboth
      cases h
      refine ⟨hsupply none fun w' => ?_, rfl, rfl, rfl, fun f hf => absurd rfl hf, fun pi' hpi' => ?_⟩
      · rw [← hclose, hboth]
        cases w' <;> rfl
      · by_cases heq : pi' = pi
        · subst heq
          simp [State.setPipe] at hpi'
        · simpa [State.setPipe, heq] using hpi'
    · rename_i hboth
      cases h
      refine ⟨hsupply _ hclose, rfl, rfl, rfl, fun f hf => absurd rfl hf, fun pi' hpi' => ?_⟩
      by_cases heq : pi' = pi
      · subst heq
        simp only [State.setPipe, update_self, Option.some.injEq] at hpi'
        exact absurd hpi' hboth
      · simpa [State.setPipe, heq] using hpi'

theorem drop_spec (h : drop s t = some (s', new, fr)) (hsupply : 1 ≤ s.supply t) :
    Drops s t s' new := by
  cases t with
  | file f => exact (drop_file h).1
  | pipe pi w => exact drop_pipe h hsupply
  | inode ip => exact (drop_inode h).1

/-- Only the end of a pipe changes a pipe. -/
theorem drop_pipes (h : drop s t = some (s', new, fr)) (ht : ∀ pi w, t ≠ .pipe pi w) :
    s'.pipe = s.pipe := by
  cases t with
  | file f =>
    simp only [drop] at h
    split at h <;> cases h <;> rfl
  | inode ip =>
    simp only [drop] at h
    split at h <;> cases h
    rfl
  | pipe pi w => exact absurd rfl (ht pi w)

/-- What somebody holds can be dropped. -/
theorem drop_ne_none (hsupply : 1 ≤ s.supply t) : drop s t ≠ none := by
  cases t with
  | file f =>
    simp only [drop]
    split
    · rename_i href
      rw [State.supply, href] at hsupply
      exact absurd hsupply (by decide)
    · exact Option.some_ne_none _
    · exact Option.some_ne_none _
  | pipe pi w =>
    simp only [drop]
    split
    · rename_i hnone
      rw [State.supply, hnone] at hsupply
      exact absurd hsupply (by simp [isOpen])
    · split <;> exact Option.some_ne_none _
  | inode ip =>
    simp only [drop]
    split
    · rename_i href
      rw [State.supply, href] at hsupply
      omega
    · exact Option.some_ne_none _

end Drop

/-! ## §4  The calls -/

section Calls

variable {s s' : State} {p np : Fin nproc} {f f0 f1 : Fin nfile} {fd : Fin nofile} {c₀ c : Pc}

theorem fileInd_none (r : Token) : fileInd none r = 0 := rfl

theorem filealloc_free (h : s.filealloc = some f) : (s.file f).ref = 0 := by
  have hfound := List.find?_some h
  exact of_decide_eq_true hfound

theorem fdalloc_free (h : s.fdalloc p = some fd) : s.ofile p fd = none := by
  have hfound := List.find?_some h
  exact of_decide_eq_true hfound

/-- Nothing in hand. -/
theorem net_idle (r : Token) : net .idle r = 0 := rfl

theorem net_dup (f : Fin nfile) (r : Token) :
    net (.dup f) r = -(if .file f = r then 1 else 0) := by
  simp only [net, Pc.holds, Pc.owes, fileInd_some, List.count_nil]
  omega

theorem net_exitClose (i : Nat) (f : Fin nfile) (ts : List Token) (r : Token) :
    net (.exitClose i f ts) r = ts.count r - if .file f = r then 1 else 0 := by
  simp only [net, Pc.holds, Pc.owes, fileInd_some]

/-- The same in hand, in another order. -/
theorem net_perm (hholds : c.holds.Perm c₀.holds) (howes : c.owes = c₀.owes) (r : Token) :
    net c r = net c₀ r := by
  rw [net, net, hholds.count_eq, howes]

/-- More in hand. -/
theorem net_append {ts : List Token} (hholds : c.holds.Perm (ts ++ c₀.holds))
    (howes : c.owes = c₀.owes) (r : Token) : net c r = net c₀ r + ts.count r := by
  rw [net, net, hholds.count_eq, howes, List.count_append]
  omega

/-- One more in hand. -/
theorem net_cons {t : Token} (hholds : c.holds.Perm (t :: c₀.holds)) (howes : c.owes = c₀.owes)
    (r : Token) : net c r = net c₀ r + if t = r then 1 else 0 := by
  have hnet : net c r = net c₀ r + [t].count r := net_append hholds howes r
  rw [hnet, count_cons_int, List.count_nil]
  omega

/-- `f` is a file that the process accounts for, and its count changes. -/
theorem setFile_ne {x : File} {g : Fin nfile} (h : (s.setFile f x).file g ≠ s.file g) : g = f := by
  by_contra hg
  exact h (by rw [setFile_file, if_neg hg])

/-- `filealloc` gives a file to a process. -/
theorem Accounts.filealloc (h : Accounts s) (hp : s.pc p = c₀) (hf : s.filealloc = some f)
    (hholds : c.holds.Perm (.file f :: c₀.holds)) (howes : c.owes = c₀.owes)
    (hembryo : c₀ ≠ .embryo) (hfork : ∀ np i, c ≠ .fork np i)
    (hok : c.OK ((s.setFile f { s.file f with ref := 1 }).goto p c) p) :
    Accounts ((s.setFile f { s.file f with ref := 1 }).goto p c) := by
  have href := filealloc_free hf
  have htype := h.free f href
  refine h.goes hp rfl (fun r => ?_) (fun g hg h0 => ?_) h.ends (fun _ _ _ => rfl)
    (fun g hg q _ => ?_) hembryo hok fun np i hc => absurd hc (hfork np i)
  · have hnew : fileTok { s.file f with ref := 1 } r = 0 := by
      rw [fileTok, if_neg (by nofun), File.tokens]
      simp only [htype, List.count_nil]
      rfl
    have hzero : fileTok (s.file f) r = 0 := if_pos href
    rw [gap_setFile, h.tokens, hnew, hzero, href, net_cons hholds howes]
    dsimp only
    split <;> omega
  · obtain rfl := setFile_ne hg
    rw [setFile_file, if_pos rfl] at h0
    cases h0
  · obtain rfl := setFile_ne hg
    exact h.not_making_free href q

/-- A new file is fresh, and the others in the making stay so. -/
theorem Accounts.filealloc_fresh (h : Accounts s) (hf : s.filealloc = some f) :
    Fresh (s.setFile f { s.file f with ref := 1 }) f := by
  rw [Fresh, setFile_file, if_pos rfl]
  exact ⟨h.free f (filealloc_free hf), rfl⟩

/-- A descriptor for a file that the process has in hand. -/
theorem Accounts.fdalloc (h : Accounts s) (hp : s.pc p = c₀) (hfd : s.fdalloc p = some fd)
    (hholds : c₀.holds.Perm (.file f :: c.holds)) (howes : c₀.owes = c.owes)
    (hembryo : c₀ ≠ .embryo) (hfork : ∀ np i, c ≠ .fork np i)
    (hok : c.OK ((s.setFd p fd (some f)).goto p c) p) :
    Accounts ((s.setFd p fd (some f)).goto p c) := by
  refine h.goes hp rfl (fun r => ?_) (fun g hg => absurd rfl hg) h.ends (fun q hq _ => ?_)
    (fun g hg => absurd rfl hg) hembryo hok fun np i hc => absurd hc (hfork np i)
  · rw [gap_setFd, h.tokens, fdalloc_free hfd, fileInd_some, fileInd_none, net_cons hholds howes]
    omega
  · rw [setFd_ofile, if_neg hq]

/-- An entry is cleared. -/
theorem Accounts.clearFd (h : Accounts s) (hp : s.pc p = c₀) (hfd : s.ofile p fd = some f)
    (hnet : ∀ r, net c r = net c₀ r + if .file f = r then 1 else 0) (hembryo : c₀ ≠ .embryo)
    (hfork : ∀ np i, c ≠ .fork np i) (hok : c.OK ((s.setFd p fd none).goto p c) p) :
    Accounts ((s.setFd p fd none).goto p c) := by
  refine h.goes hp rfl (fun r => ?_) (fun g hg => absurd rfl hg) h.ends (fun q hq _ => ?_)
    (fun g hg => absurd rfl hg) hembryo hok fun np i hc => absurd hc (hfork np i)
  · rw [gap_setFd, h.tokens, hfd, fileInd_some, fileInd_none, hnet]
    omega
  · rw [setFd_ofile, if_neg hq]

/-- A reference is dropped. -/
theorem Accounts.drop (h : Accounts s) (hp : s.pc p = c₀) {t : Token} {new : List Token}
    {fr : Option Nat} (hd : drop s t = some (s', new, fr)) (hshare : 1 ≤ s.share p t)
    (hnet : ∀ r, net c r = net c₀ r - (if t = r then 1 else 0) + new.count r)
    (hembryo : c₀ ≠ .embryo) (hfork : ∀ np i, c ≠ .fork np i)
    (hok : s'.ofile = s.ofile → c.OK (s'.goto p c) p) : Accounts (s'.goto p c) := by
  have hdrop := drop_spec hd (le_trans hshare (h.share_le p t))
  refine h.goes hp hdrop.pc (fun r => ?_) (fun g hg => (hdrop.file g hg).2)
    (fun pi hpi => h.ends pi (hdrop.ends pi hpi)) (fun q _ _ => by rw [hdrop.ofile])
    (fun g hg q hq => ?_) hembryo (hok hdrop.ofile) fun np i hc => absurd hc (hfork np i)
  · rw [hdrop.gap, h.tokens, hnet]
    omega
  · obtain ⟨rfl, -⟩ := hdrop.file g hg
    exact h.not_making hshare hq

/-- The descriptor that was there counts. -/
theorem Accounts.dup_share (h : Accounts s) (hp : s.pc p = .dup f) : 1 ≤ s.share p (.file f) := by
  have hok := h.procs p
  rw [PcOK, hp] at hok
  obtain ⟨fd, fd', hne, hfd, hfd'⟩ := hok
  have htwo := two_le_uses hne hfd hfd'
  rw [State.share, hp, net_dup, if_pos rfl]
  omega

/-- A file that somebody accounts for is in use. -/
theorem Accounts.ref_ne_zero (h : Accounts s) (hshare : 1 ≤ s.share p (.file f)) :
    (s.file f).ref ≠ 0 := by
  have hle := h.share_le p (.file f)
  have hsupply : s.supply (.file f) = (s.file f).ref := rfl
  omega

/-- `filedup` for an entry that stands in the table. -/
theorem Accounts.filedup (h : Accounts s) (hp : s.pc p = .dup f) :
    Accounts ((s.setFile f { s.file f with ref := (s.file f).ref + 1 }).goto p .idle) := by
  have hshare := h.dup_share hp
  refine h.goes hp rfl (fun r => ?_) (fun g hg h0 => ?_) h.ends (fun _ _ _ => rfl)
    (fun g hg q hq => ?_) (by nofun) trivial (by nofun)
  · rw [gap_setRef (by rfl) (h.ref_ne_zero hshare) (by nofun), h.tokens, net_idle, net_dup]
    dsimp only
    split <;> omega
  · obtain rfl := setFile_ne hg
    rw [setFile_file, if_pos rfl] at h0
    cases h0
  · obtain rfl := setFile_ne hg
    exact h.not_making hshare hq

/-- The child that a process is making. -/
theorem Accounts.child (h : Accounts s) {i : Nat} (hp : s.pc p = .fork np i) :
    s.pc np = .embryo ∧ np ≠ p ∧ ∀ fd : Fin nofile, i ≤ fd → s.ofile np fd = none := by
  have hok := h.procs p
  rw [PcOK, hp] at hok
  obtain ⟨hnp, hrest⟩ := hok
  refine ⟨hnp, ?_, hrest⟩
  rintro rfl
  rw [hp] at hnp
  cases hnp

/-- The copy of an entry that `fork` makes. -/
theorem Accounts.forkCopy (h : Accounts s) {i : Nat} (hp : s.pc p = .fork np i) {fd : Fin nofile}
    (hi : fd.val = i) (hfd : s.ofile p fd = some f) :
    Accounts (((s.setFile f { s.file f with ref := (s.file f).ref + 1 }).setFd np fd
      (some f)).goto p (.fork np (i + 1))) := by
  obtain ⟨hnp, hne, hrest⟩ := h.child hp
  have hshare : 1 ≤ s.share p (.file f) := entry_share (by rw [hp]; rfl) hfd
  refine h.goes hp rfl (fun r => ?_) (fun g hg h0 => ?_) h.ends (fun q hq hchild => ?_)
    (fun g hg q hq => ?_) (by nofun) ⟨?_, fun fd' hfd' => ?_⟩ fun m j hc => ?_
  · rw [gap_setFd, gap_setRef (by rfl) (h.ref_ne_zero hshare) (by nofun), h.tokens,
      setFile_ofile, hrest fd (by omega), fileInd_none, fileInd_some]
    have hnet : net (.fork np (i + 1)) r - net (.fork np i) r = 0 := rfl
    rw [hnet]
    dsimp only
    split <;> omega
  · obtain rfl := setFile_ne hg
    rw [setFd_file, setFile_file, if_pos rfl] at h0
    cases h0
  · rw [setFd_ofile, if_neg fun heq => hchild i (by rw [heq]), setFile_ofile]
  · obtain rfl := setFile_ne hg
    exact h.not_making hshare hq
  · rw [goto_pc, if_neg hne]
    exact hnp
  · rw [goto_ofile, setFd_ofile, if_pos rfl, setFile_ofile, update_of_ne]
    · exact hrest fd' (by omega)
    · rintro rfl
      omega
  · cases hc
    exact ⟨i, rfl⟩

/-- `allocproc` and the start of the loop. -/
theorem Accounts.fork (h : Accounts s) (hp : s.pc p = .idle) (hnp : s.pc np = .unused) :
    Accounts ((s.goto np .embryo).goto p (.fork np 0)) := by
  have hne : np ≠ p := by
    rintro rfl
    rw [hp] at hnp
    cases hnp
  have hempty := h.procs np
  rw [PcOK, hnp] at hempty
  refine h.goTogether hp hnp hne (fun _ => rfl) (fun _ => rfl) (by nofun) (fun q i _ hq => ?_)
    ⟨?_, fun fd _ => hempty fd⟩ trivial (fun m i hc => ?_) (by nofun)
  · have hq' := h.procs q
    rw [PcOK, hq, Pc.OK, hnp] at hq'
    exact absurd hq'.1 (by nofun)
  · rw [goto_pc, if_neg hne, goto_pc, if_pos rfl]
  · cases hc
    rfl

/-- The child is there. -/
theorem Accounts.forkEnd (h : Accounts s) {i : Nat} (hp : s.pc p = .fork np i) :
    Accounts ((s.goto np .idle).goto p .idle) := by
  obtain ⟨hnp, hne, -⟩ := h.child hp
  refine h.goTogether hp hnp hne (fun _ => rfl) (fun _ => rfl) (by nofun) (fun q j hq hpc => ?_)
    trivial trivial (by nofun) (by nofun)
  exact hq (h.alone q p np j i hpc hp)

/-- The type of a new file. -/
theorem Accounts.openSet (h : Accounts s) {ip : Nat} (hp : s.pc p = .openSet ip f)
    (readable writable : Bool) :
    Accounts ((s.setFile f ⟨(s.file f).ref, .inode ip, readable, writable⟩).goto p .idle) := by
  obtain ⟨⟨htype, href⟩, hshare⟩ := (h.procs p).making (f := f) (by simp [hp, Pc.making])
  refine h.goes hp rfl (fun r => ?_) (fun g hg h0 => ?_) h.ends (fun _ _ _ => rfl)
    (fun g hg q hq => ?_) (by nofun) trivial (by nofun)
  · have hold : fileTok (s.file f) r = 0 := by
      simp [fileTok, File.tokens, htype]
    rw [gap_setFile, h.tokens, hold, net_idle, href]
    simp only [net, Pc.holds, Pc.owes, fileTok, File.tokens, fileInd_none, if_neg Nat.one_ne_zero]
    split <;> omega
  · obtain rfl := setFile_ne hg
    rw [setFile_file, if_pos rfl] at h0
    exact absurd (h0.symm.trans href) (by decide)
  · obtain rfl := setFile_ne hg
    exact h.not_making hshare hq

/-- A new pipe has two open ends. -/
theorem gap_newPipe {pi : Nat} (hpi : s.pipe pi = none) (r : Token) :
    (s.setPipe pi (some ⟨true, true⟩)).gap r =
      s.gap r + (if .pipe pi false = r then 1 else 0) + if .pipe pi true = r then 1 else 0 := by
  rw [gap_setPipe]
  cases r with
  | file f => simp [State.supply, State.setPipe]
  | inode ip => simp [State.supply, State.setPipe]
  | pipe pi' w =>
    simp only [State.supply, State.setPipe, Token.pipe.injEq, update_apply]
    by_cases heq : pi' = pi
    · subst heq
      rw [if_pos rfl, hpi]
      cases w <;> simp [isOpen]
    · simp [heq, Ne.symm heq]

/-- The rest of `pipealloc`. -/
theorem Accounts.setPipeFiles (h : Accounts s) {pi : Nat} (hp : s.pc p = .pipe2 f0 f1)
    (hpi : s.pipe pi = none) :
    Accounts ((s.setPipeFiles f0 f1 pi).goto p (.pipeFd f0 f1)) := by
  obtain ⟨⟨htype0, href0⟩, hshare0⟩ := (h.procs p).making (f := f0) (by simp [hp, Pc.making])
  obtain ⟨⟨htype1, href1⟩, hshare1⟩ := (h.procs p).making (f := f1) (by simp [hp, Pc.making])
  have hok := h.procs p
  rw [PcOK, hp] at hok
  have hne : f1 ≠ f0 := Ne.symm hok.2.2
  have hwhich : ∀ g, (s.setPipeFiles f0 f1 pi).file g ≠ s.file g →
      (g = f0 ∨ g = f1) ∧ ((s.setPipeFiles f0 f1 pi).file g).ref = 1 := by
    intro g hg
    simp only [State.setPipeFiles, setFile_file] at hg ⊢
    by_cases h1 : g = f1
    · rw [if_pos h1, if_neg hne]
      exact ⟨.inr h1, href1⟩
    · rw [if_neg h1] at hg ⊢
      by_cases h0 : g = f0
      · rw [if_pos h0]
        exact ⟨.inl h0, href0⟩
      · rw [if_neg h0] at hg
        exact absurd rfl hg
  refine h.goes hp rfl (fun r => ?_) (fun g hg h0 => ?_) (fun pi' hpi' => ?_) (fun _ _ _ => rfl)
    (fun g hg q hq => ?_) (by nofun) trivial (by nofun)
  · have hold0 : fileTok (s.file f0) r = 0 := by simp [fileTok, File.tokens, htype0]
    have hold1 : fileTok (s.file f1) r = 0 := by simp [fileTok, File.tokens, htype1]
    have hnet : net (.pipeFd f0 f1) r - net (.pipe2 f0 f1) r = 0 := Int.sub_self _
    have hfile : (s.setPipe pi (some ⟨true, true⟩)).file = s.file := rfl
    simp only [State.setPipeFiles, gap_setFile, gap_newPipe hpi, h.tokens, hnet, setFile_file,
      if_neg hne, hfile, hold0, hold1]
    simp only [fileTok, File.tokens, href0, href1, if_neg Nat.one_ne_zero, count_cons_int,
      List.count_nil]
    split <;> split <;> omega
  · rw [(hwhich g hg).2] at h0
    cases h0
  · simp only [State.setPipeFiles, setFile_pipe, State.setPipe, update_apply] at hpi'
    split at hpi'
    · cases hpi'
    · exact h.ends pi' hpi'
  · rcases (hwhich g hg).1 with rfl | rfl
    · exact h.not_making hshare0 hq
    · exact h.not_making hshare1 hq

end Calls

end Xv6.Ftable
