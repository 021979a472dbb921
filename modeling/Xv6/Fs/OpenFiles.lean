import Xv6.Fs.FtableSpec

/-!
# Files, pipes and inodes between calls

The accounts hold in every state of every run. Where no call is under way they say
what `ref` of a file is, which inodes the files hold, and which pipes there are; and
a pipe's life is the events that allocate and free it.
-/

namespace Xv6.Ftable

open Transition Finset Function

/-! ## §1  One step -/

section Runs

variable {s s' : State} {e : Event} {p : Fin nproc}

/-- References of somebody else come and go. -/
theorem Accounts.elsewhere (h : Accounts s) {iref others : Nat → Nat}
    (hsame : ∀ ip, (iref ip : Int) - others ip = s.iref ip - s.others ip) :
    Accounts { s with iref := iref, others := others } := by
  refine ⟨fun r => ?_, h.free, h.ends, fun p => ?_, h.alone⟩
  · rw [← h.tokens r]
    cases r with
    | inode ip => simp only [State.gap, State.supply, State.share, hsame]
    | file f => rfl
    | pipe pi w => rfl
  · exact (h.procs p).frame rfl rfl (fun _ _ => rfl) fun _ _ _ => ⟨rfl, rfl⟩

/-- The next reference to drop, and what its file referred to. -/
theorem releasing_holds (ts : List Token) :
    (Pc.releasing ts).holds = ts ∧ (Pc.releasing ts).owes = none ∧
      (∀ np i, Pc.releasing ts ≠ .fork np i) ∧ ∀ s p, (Pc.releasing ts).OK s p := by
  cases ts with
  | nil => exact ⟨rfl, rfl, by nofun, fun _ _ => trivial⟩
  | cons t ts => exact ⟨rfl, rfl, by nofun, fun _ _ => trivial⟩

theorem Accounts.step_filealloc (h : Accounts s) {r : Option (Fin nfile)}
    (hs : next s (.filealloc p r) = some s') : Accounts s' := by
  simp only [next, Option.ite_none_right_eq_some] at hs
  obtain ⟨hr, hs⟩ := hs
  split at hs
  · rename_i ip f hp
    cases hs
    exact h.filealloc hp hr (.swap ..) rfl (by simp) (by simp) (h.filealloc_fresh hr)
  · rename_i ip hp
    cases hs
    exact h.goesOn hp (fun _ => rfl) (by simp) trivial (by simp)
  · rename_i f hp
    cases hs
    exact h.filealloc hp hr (.refl _) rfl (by simp) (by simp) (h.filealloc_fresh hr)
  · rename_i hp
    cases hs
    exact h.goesOn hp (fun _ => rfl) (by simp) trivial (by simp)
  · rename_i f0 f hp
    cases hs
    obtain ⟨hfresh, -⟩ := (h.procs p).making (f := f0) (by simp [hp, Pc.making])
    have hne : f0 ≠ f := by
      rintro rfl
      have hfree := filealloc_free hr
      rw [hfresh.2] at hfree
      cases hfree
    refine h.filealloc hp hr (.swap ..) rfl (by simp) (by simp) ⟨?_, h.filealloc_fresh hr, hne⟩
    rw [Fresh, goto_file, setFile_file, if_neg hne]
    exact hfresh
  · rename_i f0 hp
    cases hs
    exact h.goesOn hp (fun _ => rfl) (by simp) trivial (by simp)
  · cases hs

theorem Accounts.step_fdalloc (h : Accounts s) {r : Option (Fin nofile)}
    (hs : next s (.fdalloc p r) = some s') : Accounts s' := by
  simp only [next, Option.ite_none_right_eq_some] at hs
  obtain ⟨hr, hs⟩ := hs
  split at hs
  · rename_i ip f fd hp
    cases hs
    obtain ⟨hfresh, -⟩ := (h.procs p).making (f := f) (by simp [hp, Pc.making])
    refine h.fdalloc hp hr (.swap ..) rfl (by simp) (by simp) ⟨hfresh, fd, ?_⟩
    simp
  · rename_i ip f hp
    cases hs
    exact h.goesOn hp (net_perm (.swap ..) rfl) (by simp) trivial (by simp)
  · rename_i f0 f1 fd hp
    cases hs
    refine h.fdalloc hp hr (.refl _) rfl (by simp) (by simp) ?_
    simp [Pc.OK]
  · rename_i f0 f1 hp
    cases hs
    exact h.goesOn hp (fun _ => rfl) (by simp) trivial (by simp)
  · rename_i f0 f1 fd0 fd hp
    cases hs
    exact h.fdalloc hp hr (.refl _) rfl (by simp) (by simp) trivial
  · rename_i f0 f1 fd0 hp
    cases hs
    have hok := h.procs p
    rw [PcOK, hp] at hok
    exact h.clearFd hp hok (net_cons (.refl _) rfl) (by simp) (by simp) trivial
  · cases hs

theorem Accounts.step_drop (h : Accounts s) {freed : Option Nat}
    (hs : next s (.drop p freed) = some s') : Accounts s' := by
  simp only [next] at hs
  split at hs
  · rename_i t ts hp
    split at hs
    swap
    · cases hs
    rename_i s₁ new fr hd
    obtain ⟨-, ⟨⟩⟩ := Option.ite_none_right_eq_some.mp hs
    obtain ⟨hholds, howes, hfork, hok⟩ := releasing_holds (new ++ ts)
    refine h.drop hp hd (held_share (h.procs p) (by simp [hp, Pc.holds])) (fun r => ?_) (by simp)
      hfork fun _ => hok _ _
    rw [net, net, hholds, howes]
    simp only [Pc.holds, Pc.owes, count_cons_int, List.count_append]
    omega
  · rename_i i f t ts hp
    split at hs
    swap
    · cases hs
    rename_i s₁ new fr hd
    obtain ⟨-, ⟨⟩⟩ := Option.ite_none_right_eq_some.mp hs
    have hexit := h.procs p
    rw [PcOK, hp] at hexit
    refine h.drop hp hd (held_share (h.procs p) (by simp [hp, Pc.holds])) (fun r => ?_) (by simp)
      (by simp) fun hofile => ?_
    · rw [net_exitClose, net_exitClose, count_cons_int, List.count_append]
      omega
    · simp only [Pc.OK, goto_ofile, hofile]
      exact hexit
  · cases hs

theorem Accounts.step_exit (h : Accounts s) (hs : next s (.exitStep p) = some s') :
    Accounts s' := by
  have hexit := h.procs p
  simp only [next] at hs
  split at hs
  · rename_i i hp
    rw [PcOK, hp] at hexit
    split at hs
    · rename_i hi
      split at hs
      · rename_i f hfd
        split at hs
        swap
        · cases hs
        rename_i s₁ new fr hd
        cases hs
        refine h.drop hp hd (entry_share (by rw [hp]; rfl) hfd) (fun r => ?_) (by simp) (by simp)
          fun hofile => ?_
        · have hzero : net (.exit i) r = 0 := rfl
          rw [net_exitClose, hzero]
          omega
        · simp only [Pc.OK, goto_ofile, hofile]
          exact ⟨hexit, ⟨i, hi⟩, rfl, hfd⟩
      · rename_i hfd
        cases hs
        refine h.goesOn hp (fun _ => rfl) (by simp) (fun fd hlt => ?_) (by simp)
        rcases Nat.lt_succ_iff_lt_or_eq.mp hlt with hlt | heq
        · exact hexit fd hlt
        · rw [← hfd]
          exact congrArg (s.ofile p) (Fin.ext heq)
    · rename_i hi
      cases hs
      exact h.goesOn hp (fun _ => rfl) (by simp) (fun fd => hexit fd (by omega)) (by simp)
  · rename_i i f hp
    rw [PcOK, hp] at hexit
    split at hs
    swap
    · cases hs
    rename_i hi
    cases hs
    obtain ⟨hbelow, fd, rfl, hfd⟩ := hexit
    refine h.clearFd hp hfd (fun r => ?_) (by simp) (by simp) fun fd' hlt => ?_
    · have hzero : net (.exit (fd.val + 1)) r = 0 := rfl
      rw [net_exitClose, hzero, List.count_nil]
      omega
    · rw [goto_ofile, setFd_ofile, if_pos rfl, update_apply]
      split
      · rfl
      · rename_i hne
        refine hbelow fd' ?_
        have hval : fd'.val ≠ fd.val := fun heq => hne (Fin.ext heq)
        omega
  · cases hs

theorem Accounts.step (h : Accounts s) (hs : next s e = some s') : Accounts s' := by
  cases e with
  | openInode p ip =>
    obtain ⟨hp, hs⟩ := Option.ite_none_right_eq_some.mp hs
    cases hs
    refine h.goes hp rfl (fun r => ?_) (fun f hf => absurd rfl hf) h.ends (fun _ _ _ => rfl)
      (fun f hf => absurd rfl hf) (by nofun) trivial (by nofun)
    have hnet : net (.openAlloc ip) r = net .idle r + if .inode ip = r then 1 else 0 :=
      net_cons (.refl _) (by rfl) r
    rw [gap_setIref, h.tokens, hnet]
    split <;> omega
  | filealloc p r => exact h.step_filealloc hs
  | fdalloc p r => exact h.step_fdalloc hs
  | openSet p readable writable =>
    simp only [next] at hs
    split at hs
    swap
    · cases hs
    rename_i ip f hp
    cases hs
    exact h.openSet hp readable writable
  | dup p fd r =>
    simp only [next, Option.ite_none_right_eq_some] at hs
    obtain ⟨⟨hp, hr⟩, hs⟩ := hs
    split at hs
    · rename_i f fd' hfd
      cases hs
      have hfree := fdalloc_free hr
      have hne : fd ≠ fd' := by
        rintro rfl
        rw [hfree] at hfd
        cases hfd
      refine h.goes hp rfl (fun r => ?_) (fun g hg => absurd rfl hg) h.ends (fun q hq _ => ?_)
        (fun g hg => absurd rfl hg) (by nofun) ⟨fd, fd', hne, ?_, ?_⟩ (by nofun)
      · rw [gap_setFd, h.tokens, hfree, fileInd_none, fileInd_some, net_dup, net_idle]
        omega
      · rw [setFd_ofile, if_neg hq]
      · rw [goto_ofile, setFd_ofile, if_pos rfl, update_of_ne hne]
        exact hfd
      · rw [goto_ofile, setFd_ofile, if_pos rfl, update_self]
    · cases hs
      exact h
  | filedup p =>
    simp only [next] at hs
    split at hs
    swap
    · cases hs
    rename_i f hp
    obtain ⟨-, ⟨⟩⟩ := Option.ite_none_left_eq_some.mp hs
    exact h.filedup hp
  | pipe p =>
    obtain ⟨hp, hs⟩ := Option.ite_none_right_eq_some.mp hs
    cases hs
    exact h.goesOn hp (fun _ => rfl) (by nofun) trivial (by nofun)
  | kalloc p r =>
    simp only [next] at hs
    split at hs
    · rename_i f0 f1 hp
      cases hs
      exact h.goesOn hp (fun _ => rfl) (by nofun) trivial (by nofun)
    · rename_i f0 f1 pi hp
      obtain ⟨hpi, ⟨⟩⟩ := Option.ite_none_right_eq_some.mp hs
      exact h.setPipeFiles hp hpi
    · cases hs
  | close p fd =>
    obtain ⟨hp, hs⟩ := Option.ite_none_right_eq_some.mp hs
    split at hs
    · rename_i f hfd
      cases hs
      exact h.clearFd hp hfd (net_cons (.refl _) rfl) (by nofun) (by nofun) trivial
    · cases hs
      exact h
  | drop p freed => exact h.step_drop hs
  | fork p np =>
    obtain ⟨hp, hs⟩ := Option.ite_none_right_eq_some.mp hs
    cases hs
    exact h.fork hp.1 hp.2
  | forkStep p =>
    simp only [next] at hs
    split at hs
    swap
    · cases hs
    rename_i np i hp
    split at hs
    · rename_i hi
      split at hs
      · rename_i f hfd
        obtain ⟨-, ⟨⟩⟩ := Option.ite_none_left_eq_some.mp hs
        exact h.forkCopy hp rfl hfd
      · rename_i hfd
        cases hs
        obtain ⟨hnp, hne, hrest⟩ := h.child hp
        refine h.goesOn hp (fun _ => rfl) (by nofun) ⟨?_, fun fd hfd' => hrest fd (by omega)⟩
          fun m j hc => ?_
        · rw [goto_pc, if_neg hne]
          exact hnp
        · cases hc
          exact ⟨i, rfl⟩
    · cases hs
      exact h.forkEnd hp
  | exit p =>
    obtain ⟨hp, hs⟩ := Option.ite_none_right_eq_some.mp hs
    cases hs
    exact h.goesOn hp (fun _ => rfl) (by nofun) (fun fd hlt => absurd hlt (by omega)) (by nofun)
  | exitStep p => exact h.step_exit hs
  | iget ip =>
    cases hs
    refine h.elsewhere fun ip' => ?_
    simp only [State.setIref, update_apply]
    split
    · rename_i heq
      rw [heq]
      omega
    · rfl
  | iput ip =>
    simp only [next] at hs
    split at hs
    swap
    · cases hs
    rename_i n k hothers hiref
    cases hs
    refine h.elsewhere fun ip' => ?_
    simp only [State.setIref, update_apply]
    split
    · rename_i heq
      rw [heq]
      omega
    · rfl

end Runs

/-! ## §2  Between calls -/

section Quiet

variable {s : State}

/-- No process is in the middle of a call. -/
def State.Quiet (s : State) : Prop := ∀ p, s.pc p = .idle ∨ s.pc p = .unused

/-- The entries of live processes that point to `f`. -/
def State.entries (s : State) (f : Fin nfile) : Finset (Fin nproc × Fin nofile) :=
  univ.filter fun x => s.pc x.1 ≠ .unused ∧ s.ofile x.1 x.2 = some f

/-- The files in use that hold inode `ip`. -/
def State.filesOf (s : State) (ip : Nat) : Finset (Fin nfile) :=
  univ.filter fun f => 0 < (s.file f).ref ∧ (s.file f).type = .inode ip

theorem State.Quiet.share (h : s.Quiet) (p : Fin nproc) (r : Token) :
    s.share p r = uses (s.ofile p) r := by
  rw [State.share]
  rcases h p with hp | hp <;> rw [hp] <;> exact Int.add_zero _

/-- A table holds files only. -/
theorem uses_eq_zero (t : Fin nofile → Option (Fin nfile)) {r : Token} (hr : ∀ f, r ≠ .file f) :
    uses t r = 0 := by
  refine Finset.sum_eq_zero fun fd _ => if_neg fun heq => ?_
  obtain ⟨f, -, rfl⟩ := Option.map_eq_some_iff.mp heq
  exact hr f rfl

theorem Accounts.supply_eq (h : Accounts s) (r : Token) :
    s.supply r = ∑ f, fileTok (s.file f) r + ∑ p, s.share p r := by
  have hgap := h.tokens r
  rw [State.gap] at hgap
  omega

/-- **`ref` is the number of descriptors.** -/
theorem Accounts.ref_eq (h : Accounts s) (hq : s.Quiet) (f : Fin nfile) :
    (s.file f).ref = (s.entries f).card := by
  have hsupply := h.supply_eq (.file f)
  have hfiles : ∑ g, fileTok (s.file g) (.file f) = 0 :=
    Finset.sum_eq_zero fun g _ => fileTok_file (s.file g) f
  have hshares : ∑ p, s.share p (.file f) = ((s.entries f).card : Int) := by
    rw [State.entries, Finset.card_filter, Nat.cast_sum, Fintype.sum_prod_type]
    refine Finset.sum_congr rfl fun p _ => ?_
    rw [hq.share, uses]
    refine Finset.sum_congr rfl fun fd _ => ?_
    have hempty : s.pc p = .unused → s.ofile p fd ≠ some f := by
      intro hp
      have hok := h.procs p
      rw [PcOK, hp] at hok
      rw [hok fd]
      exact (Option.some_ne_none f).symm
    by_cases hfd : s.ofile p fd = some f
    · rw [hfd, fileInd_file, if_pos ⟨fun hp => hempty hp hfd, rfl⟩]
      rfl
    · rw [if_neg fun hx => hfd hx.2, fileInd, if_neg]
      · rfl
      · intro heq
        obtain ⟨g, hg, heq⟩ := Option.map_eq_some_iff.mp heq
        cases heq
        exact hfd hg
  rw [hfiles, hshares, Int.zero_add] at hsupply
  exact Int.ofNat_inj.mp hsupply

/-- **Each file of an inode stands for one reference.** -/
theorem Accounts.iref_eq (h : Accounts s) (hq : s.Quiet) (ip : Nat) :
    s.iref ip = s.others ip + (s.filesOf ip).card := by
  have hsupply := h.supply_eq (.inode ip)
  have hshares : ∑ p, s.share p (.inode ip) = 0 :=
    Finset.sum_eq_zero fun p _ => by rw [hq.share, uses_eq_zero _ (by nofun)]
  have hfiles : ∑ f, fileTok (s.file f) (.inode ip) = ((s.filesOf ip).card : Int) := by
    rw [State.filesOf, Finset.card_filter, Nat.cast_sum]
    refine Finset.sum_congr rfl fun f _ => ?_
    rw [fileTok, File.tokens]
    by_cases href : (s.file f).ref = 0
    · rw [if_pos href, if_neg (by omega)]
      rfl
    · rw [if_neg href]
      cases htype : (s.file f).type with
      | none => simp
      | pipe pi => simp
      | inode ip' => by_cases heq : ip' = ip <;> simp [heq, Nat.pos_of_ne_zero href]
  rw [hfiles, hshares, State.supply] at hsupply
  omega

/-- An end of a pipe is open if a file in use is that end, or a process is about to
close it. -/
theorem Accounts.isOpen_iff (h : Accounts s) (pi : Nat) (w : Bool) :
    isOpen (s.pipe pi) w = true ↔
      (∃ f, 0 < (s.file f).ref ∧ (s.file f).type = .pipe pi ∧ (s.file f).writable = w) ∨
      ∃ p, .pipe pi w ∈ (s.pc p).holds := by
  have hsupply := h.supply_eq (.pipe pi w)
  have hshare : ∀ p, s.share p (.pipe pi w) = ((s.pc p).holds.count (.pipe pi w) : Int) := by
    intro p
    have howes : fileInd (s.pc p).owes (.pipe pi w) = 0 := by
      refine if_neg fun heq => ?_
      obtain ⟨f, -, heq⟩ := Option.map_eq_some_iff.mp heq
      cases heq
    rw [State.share, uses_eq_zero _ (by simp), net, howes]
    omega
  have htok : ∀ f, 0 < fileTok (s.file f) (.pipe pi w) ↔
      0 < (s.file f).ref ∧ (s.file f).type = .pipe pi ∧ (s.file f).writable = w := by
    intro f
    rw [fileTok, File.tokens]
    by_cases href : (s.file f).ref = 0
    · rw [if_pos href, href]
      simp
    · rw [if_neg href]
      cases htype : (s.file f).type with
      | none => simp
      | inode ip => simp
      | pipe pi' =>
        rw [count_cons_int, List.count_nil]
        simp only [Token.pipe.injEq, FType.pipe.injEq, Nat.pos_of_ne_zero href, true_and]
        split <;> simp_all
  have hfiles := Finset.sum_pos_iff_of_nonneg (s := univ)
    (f := fun f => fileTok (s.file f) (.pipe pi w)) fun f _ => fileTok_nonneg (s.file f) _
  have hprocs := Finset.sum_pos_iff_of_nonneg (s := univ) (f := fun p => s.share p (.pipe pi w))
    fun p _ => (h.procs p).share_nonneg _
  have hfiles0 : 0 ≤ ∑ f, fileTok (s.file f) (.pipe pi w) :=
    Finset.sum_nonneg fun f _ => fileTok_nonneg (s.file f) _
  have hprocs0 : 0 ≤ ∑ p, s.share p (.pipe pi w) :=
    Finset.sum_nonneg fun p _ => (h.procs p).share_nonneg _
  have hopen : isOpen (s.pipe pi) w = true ↔ 0 < s.supply (.pipe pi w) := by
    rw [State.supply]
    cases isOpen (s.pipe pi) w <;> decide
  rw [hopen, hsupply]
  constructor
  · intro hpos
    have hor : 0 < ∑ f, fileTok (s.file f) (.pipe pi w) ∨ 0 < ∑ p, s.share p (.pipe pi w) := by
      omega
    rcases hor with hpos | hpos
    · obtain ⟨f, -, hf⟩ := hfiles.mp hpos
      exact .inl ⟨f, (htok f).mp hf⟩
    · obtain ⟨p, -, hp⟩ := hprocs.mp hpos
      rw [hshare] at hp
      exact .inr ⟨p, List.count_pos_iff.mp (by omega)⟩
  · rintro (⟨f, hf⟩ | ⟨p, hp⟩)
    · have hpos := hfiles.mpr ⟨f, mem_univ f, (htok f).mpr hf⟩
      omega
    · have hpos := hprocs.mpr ⟨p, mem_univ p, by
        rw [hshare]
        have hcount := List.count_pos_iff.mpr hp
        omega⟩
      omega

end Quiet

/-! ## §3  The life of a pipe -/

/-- The reference that a process drops next. -/
def Pc.dropping : Pc → Option Token
  | release t _ => some t
  | exitClose _ _ (t :: _) => some t
  | _ => none

/-- The page that `kalloc` gives to a pipe. -/
def Event.allocates : Event → Option Nat
  | kalloc _ r => r
  | _ => none

/-- The pipe whose page goes to `kfree`. -/
def Event.frees : Event → Option Nat
  | drop _ freed => freed
  | _ => none

section Pipes

variable {s s' : State} {e : Event}

/-- What a step does to the pipes. -/
inductive PipeStep (s : State) : Event → State → Prop where
  | new {p : Fin nproc} {pi : Nat} {s' : State} (hfresh : s.pipe pi = none)
      (hpipe : s'.pipe = update s.pipe pi (some ⟨true, true⟩)) :
      PipeStep s (.kalloc p (some pi)) s'
  | closed {p : Fin nproc} {pi : Nat} {w : Bool} {q : Pipe} {s' : State}
      (hdrop : (s.pc p).dropping = some (.pipe pi w)) (hq : s.pipe pi = some q)
      (hrest : q.close w ≠ ⟨false, false⟩)
      (hpipe : s'.pipe = update s.pipe pi (some (q.close w))) :
      PipeStep s (.drop p none) s'
  | freed {p : Fin nproc} {pi : Nat} {w : Bool} {q : Pipe} {s' : State}
      (hdrop : (s.pc p).dropping = some (.pipe pi w)) (hq : s.pipe pi = some q)
      (hrest : q.close w = ⟨false, false⟩) (hpipe : s'.pipe = update s.pipe pi none) :
      PipeStep s (.drop p (some pi)) s'
  | same {e : Event} {s' : State} (halloc : e.allocates = none) (hfrees : e.frees = none)
      (hdrop : ∀ p fr pi w, e = .drop p fr → (s.pc p).dropping ≠ some (.pipe pi w))
      (hpipe : s'.pipe = s.pipe) : PipeStep s e s'

/-- A step that has nothing to do with pipes. -/
theorem PipeStep.other (halloc : e.allocates = none) (hdrop : ∀ p fr, e ≠ .drop p fr)
    (hpipe : s'.pipe = s.pipe) : PipeStep s e s' := by
  refine .same halloc ?_ (fun p fr _ _ he => absurd he (hdrop p fr)) hpipe
  cases e with
  | drop p fr => exact absurd rfl (hdrop p fr)
  | _ => rfl

/-- What dropping one reference does to the pipes. -/
theorem pipeStep_drop {p : Fin nproc} {t : Token} {s₁ : State} {new : List Token} {fr : Option Nat}
    (hp : (s.pc p).dropping = some t) (hd : drop s t = some (s₁, new, fr))
    (hpipe : s'.pipe = s₁.pipe) : PipeStep s (.drop p fr) s' := by
  cases t with
  | file f =>
    obtain ⟨-, rfl⟩ := drop_file hd
    refine .same rfl rfl (fun q fr' pi w he => ?_) (hpipe.trans (drop_pipes hd (by nofun)))
    cases he
    rw [hp]
    nofun
  | inode ip =>
    obtain ⟨-, rfl⟩ := drop_inode hd
    refine .same rfl rfl (fun q fr' pi w he => ?_) (hpipe.trans (drop_pipes hd (by nofun)))
    cases he
    rw [hp]
    nofun
  | pipe pi w =>
    simp only [Xv6.Ftable.drop] at hd
    split at hd
    · cases hd
    rename_i q hq
    split at hd
    · rename_i hrest
      cases hd
      exact .freed hp hq hrest hpipe
    · rename_i hrest
      cases hd
      exact .closed hp hq hrest hpipe

theorem pipe_step (hs : next s e = some s') : PipeStep s e s' := by
  cases e with
  | kalloc p r =>
    simp only [next] at hs
    split at hs
    · cases hs
      exact .other rfl (by nofun) rfl
    · obtain ⟨hpi, ⟨⟩⟩ := Option.ite_none_right_eq_some.mp hs
      exact .new hpi rfl
    · cases hs
  | drop p fr =>
    simp only [next] at hs
    split at hs
    · rename_i t ts hp
      split at hs
      swap
      · cases hs
      rename_i s₁ new fr' hd
      obtain ⟨rfl, ⟨⟩⟩ := Option.ite_none_right_eq_some.mp hs
      exact pipeStep_drop (by rw [hp]; rfl) hd rfl
    · rename_i i f t ts hp
      split at hs
      swap
      · cases hs
      rename_i s₁ new fr' hd
      obtain ⟨rfl, ⟨⟩⟩ := Option.ite_none_right_eq_some.mp hs
      exact pipeStep_drop (by rw [hp]; rfl) hd rfl
    · cases hs
  | exitStep p =>
    refine .other rfl (by nofun) ?_
    simp only [next] at hs
    split at hs
    · split at hs
      · split at hs
        · rename_i f hfd
          split at hs
          swap
          · cases hs
          rename_i s₁ new fr hd
          cases hs
          have hsame : s₁.pipe = s.pipe := drop_pipes hd (by nofun)
          exact hsame
        · cases hs
          rfl
      · cases hs
        rfl
    · split at hs <;> cases hs
      rfl
    · cases hs
  | _ =>
    refine .other rfl (by nofun) ?_
    simp only [next] at hs
    repeat' split at hs
    all_goals cases hs
    all_goals rfl

theorem close_eq_closed (q : Pipe) (w : Bool) :
    q.close w = ⟨false, false⟩ ↔ isOpen (some q) (!w) = false := by
  obtain ⟨r, w'⟩ := q
  cases w <;> simp [Pipe.close, isOpen]

/-- **A pipe is freed by the `pipeclose` that finds the other end closed**, and by nothing
else. -/
theorem freed_iff (h : PipeStep s e s') (pi : Nat) :
    s.pipe pi ≠ none ∧ s'.pipe pi = none ↔
      ∃ p w fr, e = .drop p fr ∧ (s.pc p).dropping = some (.pipe pi w) ∧ s.pipe pi ≠ none ∧
        isOpen (s.pipe pi) (!w) = false := by
  cases h with
  | new hfresh hpipe =>
    rename_i p pi'
    refine ⟨fun ⟨hold, hnew⟩ => ?_, fun ⟨_, _, _, he, _⟩ => nomatch he⟩
    rw [hpipe, update_apply] at hnew
    split at hnew
    · cases hnew
    · exact absurd hnew hold
  | closed hdrop hq hrest hpipe =>
    rename_i p pi' w q
    constructor
    · rintro ⟨hold, hnew⟩
      rw [hpipe, update_apply] at hnew
      split at hnew
      · cases hnew
      · exact absurd hnew hold
    · rintro ⟨p', w', fr, he, hdrop', -, hother⟩
      cases he
      cases hdrop.symm.trans hdrop'
      rw [hq] at hother
      exact absurd ((close_eq_closed q w).mpr hother) hrest
  | freed hdrop hq hrest hpipe =>
    rename_i p pi' w q
    constructor
    · rintro ⟨hold, hnew⟩
      rw [hpipe, update_apply] at hnew
      split at hnew
      · rename_i heq
        subst heq
        refine ⟨p, w, some pi, rfl, hdrop, hold, ?_⟩
        rw [hq]
        exact (close_eq_closed q w).mp hrest
      · exact absurd hnew hold
    · rintro ⟨p', w', fr, he, hdrop', hold, -⟩
      cases he
      cases hdrop.symm.trans hdrop'
      refine ⟨hold, ?_⟩
      rw [hpipe, update_self]
  | same halloc hfrees hdrop hpipe =>
    constructor
    · rintro ⟨hold, hnew⟩
      exact absurd (hpipe ▸ hnew) hold
    · rintro ⟨p, w, fr, he, hdrop', -⟩
      exact absurd hdrop' (hdrop p fr pi w he)

/-- Allocated and freed, one after the other. -/
theorem PipeStep.count (h : PipeStep s e s') (pi : Nat) :
    [e].countP (fun e => e.allocates = some pi) + (s.pipe pi).isSome.toNat =
      [e].countP (fun e => e.frees = some pi) + (s'.pipe pi).isSome.toNat := by
  cases h with
  | new hfresh hpipe =>
    rename_i p pi'
    rw [hpipe, update_apply]
    by_cases heq : pi = pi'
    · subst heq
      simp [Event.allocates, Event.frees, hfresh]
    · simp [Event.allocates, Event.frees, heq, Ne.symm heq]
  | closed hdrop hq hrest hpipe =>
    rename_i p pi' w q
    rw [hpipe, update_apply]
    by_cases heq : pi = pi'
    · subst heq
      simp [Event.allocates, Event.frees, hq]
    · simp [Event.allocates, Event.frees, heq]
  | freed hdrop hq hrest hpipe =>
    rename_i p pi' w q
    rw [hpipe, update_apply]
    by_cases heq : pi = pi'
    · subst heq
      simp [Event.allocates, Event.frees, hq]
    · simp [Event.allocates, Event.frees, heq, Ne.symm heq]
  | same halloc hfrees hdrop hpipe => simp [halloc, hfrees, hpipe]

end Pipes

/-! ## §4  Every run -/

/-- The process is about to panic in `filedup` or `fileclose`, or to work on a pipe or an
inode that is not there. -/
def State.Panics (s : State) (p : Fin nproc) : Prop :=
  match s.pc p with
  | .dup f => (s.file f).ref = 0
  | .fork _ i => ∃ (fd : Fin nofile) (f : Fin nfile), fd.val = i ∧ s.ofile p fd = some f ∧
      (s.file f).ref = 0
  | .exit i => ∃ (fd : Fin nofile) (f : Fin nfile), fd.val = i ∧ s.ofile p fd = some f ∧
      drop s (.file f) = none
  | .release t _ => drop s t = none
  | .exitClose _ _ (t :: _) => drop s t = none
  | _ => False

section Runs

variable {s₀ s : State} {es : List Event}

theorem Accounts.not_panics (h : Accounts s) (p : Fin nproc) : ¬s.Panics p := by
  have hdrop : ∀ {t}, 1 ≤ s.share p t → Xv6.Ftable.drop s t ≠ none := fun hshare =>
    drop_ne_none (le_trans hshare (h.share_le p _))
  unfold State.Panics
  split
  · rename_i f hp
    exact h.ref_ne_zero (h.dup_share hp)
  · rename_i np i hp
    rintro ⟨fd, f, -, hfd, href⟩
    exact h.ref_ne_zero (entry_share (by rw [hp]; rfl) hfd) href
  · rename_i i hp
    rintro ⟨fd, f, -, hfd, hnone⟩
    exact hdrop (entry_share (by rw [hp]; rfl) hfd) hnone
  · rename_i t ts hp
    exact hdrop (held_share (h.procs p) (by simp [hp, Pc.holds]))
  · rename_i i f t ts hp
    exact hdrop (held_share (h.procs p) (by simp [hp, Pc.holds]))
  · exact id

theorem Boot.accounts (h : Boot s) : Accounts s := by
  have hquiet : s.Quiet := h.pc
  refine ⟨fun r => ?_, fun f _ => (h.file f).2, fun pi => ?_, fun p => ?_, fun p q np i j hp => ?_⟩
  · have hfiles : ∑ f, fileTok (s.file f) r = 0 := Finset.sum_eq_zero fun f _ => if_pos (h.file f).1
    have hshares : ∑ p, s.share p r = 0 := by
      refine Finset.sum_eq_zero fun p _ => ?_
      rw [hquiet.share]
      exact Finset.sum_eq_zero fun fd _ => by rw [h.ofile, fileInd_none]
    have hsupply : s.supply r = 0 := by
      cases r with
      | file f => rw [State.supply, (h.file f).1]; rfl
      | pipe pi w => rw [State.supply, h.pipe]; rfl
      | inode ip => rw [State.supply, h.iref, Int.sub_self]
    rw [State.gap, hfiles, hshares, hsupply]
    rfl
  · rw [h.pipe]
    simp
  · rw [PcOK]
    rcases h.pc p with hp | hp
    · rw [hp]
      trivial
    · rw [hp]
      exact h.ofile p
  · rcases h.pc p with hp' | hp' <;> rw [hp'] at hp <;> cases hp

theorem Accounts.run (h₀ : Boot s₀) (hr : system.Run s₀ es s) : Accounts s :=
  hr.invariant (fun _ _ _ h hs => h.step hs) h₀.accounts

theorem pipes_run (h₀ : Boot s₀) (hr : system.Run s₀ es s) (pi : Nat) :
    es.countP (fun e => e.allocates = some pi) =
      es.countP (fun e => e.frees = some pi) + (s.pipe pi).isSome.toNat := by
  refine hr.history (I := fun es s => es.countP (fun e => e.allocates = some pi) =
    es.countP (fun e => e.frees = some pi) + (s.pipe pi).isSome.toNat)
    (fun hist t e t' hcount hs => ?_) (by rw [h₀.pipe]; rfl)
  have hone := (pipe_step hs).count pi
  rw [List.countP_append, List.countP_append]
  omega

/-- A pipe that is there has an open end. -/
theorem Accounts.pipe_iff (h : Accounts s) (pi : Nat) :
    s.pipe pi ≠ none ↔ ∃ w, isOpen (s.pipe pi) w = true := by
  have hends := h.ends pi
  cases hq : s.pipe pi with
  | none => simp [isOpen]
  | some q =>
    obtain ⟨r, w⟩ := q
    rw [hq] at hends
    cases r <;> cases w <;> simp_all [isOpen]

/-- **Every reference is accounted for.** In every state of every run in which no call is
under way, `ref` of each file is the number of entries of live processes that point to
it, each file of an inode that is in use stands for one reference of the inode, and an
end of a pipe is open as long as an entry points to a file of that end. In every
state, a pipe is there as long as an end of it is open, and an end is open as long as
a file in use is that end or a process is on its way to close it. A pipe is freed
by the `pipeclose` of one end that finds the other closed and by nothing else, and as
often as it was allocated, but once less if it is there. And no call panics. -/
theorem files_accounted (h₀ : Boot s₀) (hr : system.Run s₀ es s) :
    (s.Quiet →
      (∀ f, (s.file f).ref = (s.entries f).card) ∧
      (∀ ip, s.iref ip = s.others ip + (s.filesOf ip).card) ∧
      ∀ pi w, isOpen (s.pipe pi) w = true ↔ ∃ f, (s.entries f).Nonempty ∧
        (s.file f).type = .pipe pi ∧ (s.file f).writable = w) ∧
    (∀ pi, s.pipe pi ≠ none ↔ ∃ w, isOpen (s.pipe pi) w = true) ∧
    (∀ pi w, isOpen (s.pipe pi) w = true ↔
      (∃ f, 0 < (s.file f).ref ∧ (s.file f).type = .pipe pi ∧ (s.file f).writable = w) ∨
      ∃ p, .pipe pi w ∈ (s.pc p).holds) ∧
    (∀ e s', system.step s e s' → ∀ pi, s.pipe pi ≠ none ∧ s'.pipe pi = none ↔
      ∃ p w fr, e = .drop p fr ∧ (s.pc p).dropping = some (.pipe pi w) ∧ s.pipe pi ≠ none ∧
        isOpen (s.pipe pi) (!w) = false) ∧
    (∀ pi, es.countP (fun e => e.allocates = some pi) =
      es.countP (fun e => e.frees = some pi) + (s.pipe pi).isSome.toNat) ∧
    ∀ p, ¬s.Panics p := by
  have h := Accounts.run h₀ hr
  refine ⟨fun hq => ⟨h.ref_eq hq, h.iref_eq hq, fun pi w => ?_⟩, h.pipe_iff, h.isOpen_iff,
    fun e s' hs pi => freed_iff (pipe_step hs) pi, pipes_run h₀ hr, h.not_panics⟩
  rw [h.isOpen_iff]
  constructor
  · rintro (⟨f, href, hfile⟩ | ⟨p, hp⟩)
    · rw [h.ref_eq hq, Finset.card_pos] at href
      exact ⟨f, href, hfile⟩
    · rcases hq p with hidle | hunused
      · rw [hidle] at hp
        cases hp
      · rw [hunused] at hp
        cases hp
  · rintro ⟨f, hf, hfile⟩
    refine .inl ⟨f, ?_, hfile⟩
    rw [h.ref_eq hq, Finset.card_pos]
    exact hf

/-- One process, and no file. -/
def booted : State where
  file _ := ⟨0, .none, false, false⟩
  ofile _ _ := none
  pipe _ := none
  iref _ := 0
  others _ := 0
  pc p := if p = 0 then .idle else .unused

theorem boot_booted : Boot booted where
  file _ := ⟨rfl, rfl⟩
  ofile _ _ := rfl
  pipe _ := rfl
  iref _ := rfl
  pc p := by
    by_cases hp : p = 0
    · exact .inl (if_pos hp)
    · exact .inr (if_neg hp)

set_option maxRecDepth 4096 in
/-- A pipe in the page 7, with its two descriptors. -/
theorem files_accounted_pipe : ∃ es s, Boot booted ∧ system.Run booted es s ∧ s.Quiet ∧
    s.pipe 7 = some ⟨true, true⟩ ∧ (s.file 1).ref = (s.entries 1).card := by
  obtain ⟨s, hs, hpc, hpipe⟩ : ∃ s, [Event.pipe 0, .filealloc 0 (some 0), .filealloc 0 (some 1),
      .kalloc 0 (some 7), .fdalloc 0 (some 0), .fdalloc 0 (some 1)].foldlM
        (System.guardedNext next fun _ _ => True) booted = some s ∧
      (∀ p, s.pc p = .idle ∨ s.pc p = .unused) ∧ s.pipe 7 = some ⟨true, true⟩ :=
    ⟨_, rfl, by decide, rfl⟩
  have hrun := (System.run_ofNext hs).of_guarded
  exact ⟨_, s, boot_booted, hrun, hpc, hpipe, ((files_accounted boot_booted hrun).1 hpc).1 1⟩

end Runs

end Xv6.Ftable
