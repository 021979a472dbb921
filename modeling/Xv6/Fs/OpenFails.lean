import Xv6.Fs.Paths

/-!
# `open` that fails

`sys_open` with `O_CREATE` makes the file first and takes a file structure and a
descriptor afterwards. If there is none, it returns -1 and the file stays. In all
other cases a call that returns -1 has left the inodes as they were
(`open_fails_cleanly_iff`).
-/

namespace Xv6.Fs.Call

open Prog Function

/-- The allocated inodes, their link counts and the directories are the same. -/
structure SameTree (F F' : InodeTable) : Prop where
  alloc : ∀ i, (F' i).isSome = (F i).isSome
  nlink : ∀ i, (F' i).map Inode.nlink = (F i).map Inode.nlink
  dirs : ∀ i, (F' i).filter (fun f => f.type = tDir) = (F i).filter fun f => f.type = tDir

theorem SameTree.refl (F : InodeTable) : SameTree F F := ⟨fun _ => rfl, fun _ => rfl, fun _ => rfl⟩

/-- The call is to make the file: the directory is there, and the name is not in it. -/
def Creates (s : State) (p : Pid) (path : Path) (omode : UInt32) : Prop :=
  omode &&& oCreate ≠ 0 ∧ ∃ d name f,
    walkParent s.files (startOf s p path) (segments path) = some (d, name) ∧
      s.files d = some f ∧ lookup f name = none

/-- A file structure and a descriptor are free. -/
def FileRoom (s : State) (p : Pid) : Prop := 0 < s.ftable ∧ ∃ fd, s.ofile p fd = none

section Open

variable {p : Pid} {s s₁ s₂ : State} {F : InodeTable} {H : Refs} {ip dp k : Ip} {i d : Nat} {f : Inode}
  {path : Path} {omode : UInt32}

/-- The locks of a call that has one inode locked. -/
def lockOf (p : Pid) (ip : Ip) : Ip → Option Pid := update unlocked ip (some p)

theorem lockOf_self (p : Pid) (ip : Ip) : lockOf p ip ip = some p := update_self ..

theorem lockOf_ne_none (p : Pid) (ip : Ip) : lockOf p ip ip ≠ none := by
  rw [lockOf_self]
  nofun

theorem unlock_other (hne : k ≠ dp) :
    update (update (lockOf p dp) k (some p)) dp none = lockOf p k := by
  rw [update_comm hne, show update (lockOf p dp) dp none = unlocked from
    unlock_again dp p]
  rfl

theorem fail_ends {Q : Int → State → Prop} {E : Stop → Prop} (h : Q (-1) s₁) :
    Ends (handle p) fail s₁ Q E := by
  refine Ends.bind (P := fun _ s' => s' = s₁) (ends_perform (o := Op.endOp) (r := ()) rfl rfl) ?_
  rintro - _ rfl
  exact ends_pure h

theorem openBad_ends (hn : Near s F [(k, i)] (lockOf p k) s₂)
    (hspared : ∀ f, F i = some f → Spared s i f) {E : Stop → Prop} :
    Ends (handle p) (openBad k) s₂ (fun r s' => r = -1 ∧ s'.files = F) E := by
  refine (iunlockput_ends hn List.mem_cons_self (lockOf_self p k) hspared).bind fun _ s' hn' => ?_
  exact fail_ends ⟨rfl, hn'.files⟩

/-- `sys_open` from the locked inode on. -/
def openFinish (ip : Ip) : M Int := do
  let f : Bool ← perform (.ask .filealloc)
  if f then do
    let fd : Option (Fin 16) ← perform .fdalloc
    match fd with
    | none => openBad ip
    | some fd => do
        iunlock ip
        perform .endOp
        perform (.openFile ip)
        pure fd.val
  else openBad ip

theorem openFinish_ends (hn : Near s F [(k, i)] (lockOf p k) s₂)
    (hspared : ∀ f, F i = some f → Spared s i f) {E : Stop → Prop} :
    Ends (handle p) (openFinish k) s₂ (fun r s' => (FileRoom s p ∧ 0 ≤ r) ∨
      (¬ FileRoom s p ∧ r = -1 ∧ s'.files = F)) E := by
  have htable : s₂.ftable = s.ftable := by
    rw [hn.rest]
  have hofile : s₂.ofile = s.ofile := by
    rw [hn.rest]
  have hbad : ¬ FileRoom s p → Ends (handle p) (openBad k) s₂ (fun r s' =>
      (FileRoom s p ∧ 0 ≤ r) ∨ (¬ FileRoom s p ∧ r = -1 ∧ s'.files = F)) E := fun hno =>
    (openBad_ends hn hspared).mono (fun _ _ hr => .inr ⟨hno, hr⟩) fun _ he => he
  refine Ends.bind (P := fun (f : Bool) s' => f = decide (0 < s.ftable) ∧ s' = s₂)
    (ends_perform rfl ⟨by rw [← htable], rfl⟩) ?_
  rintro f s' ⟨rfl, rfl⟩
  refine ends_ite (fun hpos => ?_) fun hzero => hbad fun hroom => hzero (decide_eq_true hroom.1)
  have hpos := of_decide_eq_true hpos
  cases hfree : freeFd s' p with
  | none =>
    refine Ends.bind (P := fun (fd : Option (Fin 16)) s₃ => fd = none ∧ s₃ = s')
      (ends_perform (r := none) ?_ ⟨rfl, rfl⟩) ?_
    · simp only [handle, doFdalloc, hfree]
      rfl
    rintro fd s₃ ⟨rfl, rfl⟩
    refine hbad ?_
    rintro ⟨-, fd, hfd⟩
    have := List.find?_eq_none.mp hfree fd (List.mem_finRange fd)
    rw [hofile] at this
    simp [hfd] at this
  | some fd =>
    have hroom : FileRoom s p := by
      refine ⟨hpos, fd, ?_⟩
      have := List.find?_some hfree
      rw [hofile] at this
      simpa using this
    -- the descriptor is set before the inode is unlocked
    have hn' : Near (s.setFile p fd (some none)) F [(k, i)] (lockOf p k)
        (s'.setFile p fd (some none)) :=
      { rest := by rw [hn.rest]; rfl
        ref := hn.ref
        entry := hn.entry
        held := hn.held
        lock := hn.lock
        loaded := hn.loaded
        stays := hn.stays
        coherent := ⟨hn.coherent.dev, hn.coherent.unique, hn.coherent.copies⟩ }
    refine Ends.bind (P := fun (r : Option (Fin 16)) s₃ => r = some fd ∧
      s₃ = s'.setFile p fd (some none)) (ends_perform (r := some fd) ?_ ⟨rfl, rfl⟩) ?_
    · simp only [handle, doFdalloc, hfree]
      rfl
    rintro r s₃ ⟨rfl, rfl⟩
    refine (iunlock_ends hn' List.mem_cons_self (lockOf_self p k)).bind fun _ s₃ hn₃ => ?_
    refine Ends.bind (P := fun _ _ => True) (ends_perform (o := Op.endOp) (r := ()) rfl trivial) ?_
    rintro - s₄ -
    refine Ends.bind (P := fun _ _ => True) (ends_perform (o := Op.openFile k) (r := ()) rfl trivial)
      ?_
    rintro - s₅ -
    exact ends_pure (.inl ⟨hroom, Int.natCast_nonneg _⟩)

/-- What `open` has before it takes a file: no inode, an inode that was there, or a
new one. -/
def OpenedInode (s : State) (p : Pid) (path : Path) (omode : UInt32) (r : Option Ip) (s₂ : State) :
    Prop :=
  (¬ Creates s p path omode ∧ r = none ∧ s₂.files = s.files) ∨
  (¬ Creates s p path omode ∧ ∃ k i, r = some k ∧ Near s s.files [(k, i)] (lockOf p k) s₂ ∧
    ∀ f, s.files i = some f → Spared s i f) ∨
  (Creates s p path omode ∧ ∃ k i F, r = some k ∧ s.files i = none ∧
    Near s F [(k, i)] (lockOf p k) s₂ ∧ ∃ f, F i = some f ∧ f.nlink ≠ 0)

/-- `create` when the name is free. -/
theorem createNew_ends (hn : Near s s.files [(dp, d)] (lockOf p dp) s₁)
    (hspared : ∀ f, s.files d = some f → Spared s d f) (hf : s.files d = some f) (hd : WholeDir f)
    {name : List UInt8} (hnone : lookup f name = none) :
    Ends (handle p) (createNew dp name tFile 0 0) s₁ (fun r s₂ => ∃ k i F, r = some k ∧
      s.files i = none ∧ Near s F [(k, i)] (lockOf p k) s₂ ∧ ∃ f, F i = some f ∧ f.nlink ≠ 0)
      fun _ => True := by
  refine (inode_ends hn List.mem_cons_self (lockOf_ne_none p dp) hf).bind ?_
  rintro v s' ⟨rfl, rfl⟩
  refine (ialloc_ends hn tFile trivial trivial).bind ?_
  rintro k s₂ ⟨i, hfree, hn₂⟩
  have hid : i ≠ d := by
    rintro rfl
    rw [hf] at hfree
    cases hfree
  have hkd : k ≠ dp := by
    rintro rfl
    have h₁ := hn₂.held _ List.mem_cons_self
    have h₂ := hn₂.held (k, d) (List.mem_cons_of_mem _ List.mem_cons_self)
    exact hid (h₁.symm.trans h₂)
  have hlk : lockOf p dp k = none := update_of_ne hkd ..
  refine (ilock_ends hn₂ List.mem_cons_self hlk fun _ => trivial).bind ?_
  rintro - s₃ ⟨-, hn₃⟩
  have hlock : update (lockOf p dp) k (some p) k ≠ none := by
    rw [update_self]
    nofun
  have hfi : update s.files i (some (⟨tFile, 0, 0, 0, []⟩ : Inode)) i =
      some ⟨tFile, 0, 0, 0, []⟩ := update_self ..
  refine (inode_ends hn₃ List.mem_cons_self hlock hfi).bind ?_
  rintro v s' ⟨rfl, rfl⟩
  refine Ends.bind₂ (setAttrs_ends hn₃ List.mem_cons_self hlock hfi (by decide) 0 0 1) ?_
  intro _ s₄ hn₄
  rw [update_idem] at hn₄
  refine Ends.bind (P := fun _ s' => s' = s₄) (ends_pure rfl) ?_
  rintro - _ rfl
  have hmem : (dp, d) ∈ [(k, i), (dp, d)] := List.mem_cons_of_mem _ List.mem_cons_self
  have hlockd : update (lockOf p dp) k (some p) dp = some p := by
    rw [update_of_ne (Ne.symm hkd), lockOf_self]
  have hlockd' : update (lockOf p dp) k (some p) dp ≠ none := by
    rw [hlockd]
    nofun
  have hfd : update s.files i (some (⟨tFile, 0, 0, 1, []⟩ : Inode)) d = some f := by
    rw [update_of_ne (Ne.symm hid), hf]
  refine (dirlink_new_ends hn₄ hmem hlockd' hfd hd i hnone (.inl trivial) (.inl trivial)).bind ?_
  rintro r s₅ ⟨rfl, hn₅⟩
  refine ends_ite (fun hneg => absurd hneg (by decide)) fun _ => ?_
  refine (iunlockput_ends hn₅ hmem hlockd fun g hg => ?_).bind fun _ s₆ hn₆ => ?_
  · -- the directory has the links it had
    rw [update_self] at hg
    cases hg
    exact hspared f hf
  · rw [erase_behind, unlock_other hkd] at hn₆
    refine ends_pure ⟨k, i, _, rfl, hfree, hn₆, ⟨tFile, 0, 0, 1, []⟩, ?_, by decide⟩
    rw [update_of_ne hid, update_self]

/-- What `nameiparent` finds is a directory. -/
theorem walkParent_dir {F : InodeTable} {start : Nat} {names : List (List UInt8)}
    {name : List UInt8} (hw : walkParent F start names = some (d, name)) :
    ∃ f, F d = some f ∧ f.type = tDir := by
  rw [walkParent] at hw
  split at hw
  · cases hw
  · obtain ⟨d', -, hd'⟩ := Option.bind_eq_some_iff.mp hw
    split at hd'
    · rename_i hdir
      cases hd'
      rw [isDir] at hdir
      cases hf : F d with
      | none =>
        rw [hf] at hdir
        cases hdir
      | some f =>
        rw [hf] at hdir
        exact ⟨f, rfl, of_decide_eq_true hdir⟩
    · cases hd'

/-- `create` of a file. -/
theorem create_ends (h : Ready s p) (path : Path) (homode : omode &&& oCreate ≠ 0) :
    Ends (handle p) (create path tFile 0 0) s (OpenedInode s p path omode) fun _ => True := by
  refine ((namex_ends h path true (.inl trivial) (.inl trivial)).mono
    (fun _ _ hr => hr) fun _ he => he).bind ?_
  rw [found_true]
  cases hwalk : walkParent s.files (startOf s p path) (segments path) with
  | none =>
    rintro _ s₁ ⟨rfl, hn⟩
    refine ends_pure (.inl ⟨?_, rfl, hn.files⟩)
    rintro ⟨-, d, name, f, hw, -⟩
    rw [hwalk] at hw
    cases hw
  | some x =>
    obtain ⟨d, name⟩ := x
    obtain ⟨f, hf, htype⟩ := walkParent_dir hwalk
    have hd := h.dirs d f hf htype
    rintro _ s₁ ⟨dp, rfl, hn, hsp⟩
    refine (ilock_ends hn List.mem_cons_self rfl fun _ => trivial).bind ?_
    rintro - s₂ ⟨-, hn₂⟩
    refine (dirlookup_ends hn₂ List.mem_cons_self (lockOf_ne_none p dp) hf hd name
      (.inl trivial)).bind ?_
    cases hfound : lookup f name with
    | none =>
      rintro _ s₃ ⟨rfl, rfl⟩
      refine (createNew_ends hn₂ hsp hf hd hfound).mono (fun r s₃ hr => .inr (.inr ⟨?_, hr⟩))
        fun _ he => he
      exact ⟨homode, d, name, f, hwalk, hf, hfound⟩
    | some de =>
      have hnot : ¬ Creates s p path omode := by
        rintro ⟨-, d', name', f', hw, hf', hnone⟩
        rw [hwalk, Option.some.injEq, Prod.mk.injEq] at hw
        obtain ⟨rfl, rfl⟩ := hw
        rw [hf] at hf'
        cases hf'
        rw [hfound] at hnone
        cases hnone
      obtain ⟨hentry, hne⟩ := lookup_mem hfound
      have hsp' := h.spared _ (.inr ⟨d, f, de, hf, htype, hentry, hne, rfl⟩)
      rintro _ s₃ ⟨k, rfl, hn₃⟩
      refine (iunlockput_ends hn₃ (List.mem_cons_of_mem _ List.mem_cons_self)
        (lockOf_self p dp) hsp).bind fun _ s₄ hn₄ => ?_
      rw [erase_behind, unlock_again] at hn₄
      refine (ilock_ends hn₄ List.mem_cons_self rfl fun _ => trivial).bind ?_
      rintro - s₅ ⟨hsome, hn₅⟩
      obtain ⟨g, hg⟩ := Option.isSome_iff_exists.mp hsome
      refine (inode_ends hn₅ List.mem_cons_self (lockOf_ne_none p k) hg).bind ?_
      rintro v s₆ ⟨rfl, rfl⟩
      refine ends_ite (fun _ => ends_pure (.inr (.inl ⟨hnot, k, _, rfl, hn₅, hsp'⟩))) fun _ => ?_
      refine (iunlockput_ends hn₅ List.mem_cons_self (lockOf_self p k) hsp').bind
        fun _ s₇ hn₇ => ?_
      exact ends_pure (.inl ⟨hnot, rfl, hn₇.files⟩)

theorem openInode_ends (h : Ready s p) (path : Path) (omode : UInt32) :
    Ends (handle p) (openInode path omode) s (OpenedInode s p path omode) fun _ => True := by
  refine ends_ite (create_ends h path) fun hno => ?_
  have hnot : ¬ Creates s p path omode := fun hc => hno hc.1
  refine Ends.bind (P := fun r s₁ => (r = none ∧ s₁.files = s.files) ∨
    ∃ k i, r = some k ∧ Near s s.files [(k, i)] unlocked s₁ ∧
      ∀ f, s.files i = some f → Spared s i f) ?_ ?_
  · refine (namex_ends h path false (.inl trivial) (.inl trivial)).bind fun r s₁ hr => ?_
    cases hfound : found s.files false (startOf s p path) [] (segments path) with
    | none =>
      rw [hfound] at hr
      obtain ⟨rfl, hn⟩ := hr
      exact ends_pure (.inl ⟨rfl, hn.files⟩)
    | some x =>
      rw [hfound] at hr
      obtain ⟨k, rfl, hn⟩ := hr
      exact ends_pure (.inr ⟨k, x.1, rfl, hn⟩)
  · rintro _ s₁ (⟨rfl, hfiles⟩ | ⟨k, i, rfl, hn, hsp⟩)
    · exact ends_pure (.inl ⟨hnot, rfl, hfiles⟩)
    · refine (ilock_ends hn List.mem_cons_self rfl fun _ => trivial).bind ?_
      rintro - s₂ ⟨hsome, hn₂⟩
      obtain ⟨g, hg⟩ := Option.isSome_iff_exists.mp hsome
      refine (inode_ends hn₂ List.mem_cons_self (lockOf_ne_none p k) hg).bind ?_
      rintro v s₃ ⟨rfl, rfl⟩
      refine ends_ite (fun _ => ?_) fun _ => ends_pure (.inr (.inl ⟨hnot, k, i, rfl, hn₂, hsp⟩))
      refine (iunlockput_ends hn₂ List.mem_cons_self (lockOf_self p k) hsp).bind
        fun _ s₄ hn₄ => ?_
      exact ends_pure (.inl ⟨hnot, rfl, hn₄.files⟩)

/-- **`open` that returns -1.** The directory tree, the allocated inodes and the link
counts are as before, exactly if the call has not made a file for which there was no
file structure or descriptor. -/
theorem open_fails_cleanly_iff (h : Ready s p) {r : Int} {s' : State}
    (hrun : (sysOpen (some path) (some omode)).run (handle p) s = .ok (r, s')) :
    (r = -1 → SameTree s.files s'.files) ↔ (Creates s p path omode → FileRoom s p) := by
  have hends : Ends (handle p) (sysOpen (some path) (some omode)) s (fun r s' =>
      (r = -1 → SameTree s.files s'.files) ↔ (Creates s p path omode → FileRoom s p))
      fun _ => True := by
    refine Ends.bind (P := fun _ s₁ => s₁ = s) (ends_perform (o := Op.beginOp) (r := ()) rfl rfl) ?_
    rintro - _ rfl
    refine (openInode_ends h path omode).bind ?_
    rintro r s₂ (⟨hnot, rfl, hfiles⟩ | ⟨hnot, k, i, rfl, hn, hsp⟩ |
      ⟨hcreates, k, i, F, rfl, hfree, hn, f, hf, hlinks⟩)
    · refine fail_ends ⟨fun _ hc => absurd hc hnot, fun _ _ => ?_⟩
      rw [hfiles]
      exact SameTree.refl _
    · refine (openFinish_ends hn hsp).mono (fun r s' hr => ?_) fun _ he => he
      refine ⟨fun _ hc => absurd hc hnot, fun _ hneg => ?_⟩
      rcases hr with ⟨-, hpos⟩ | ⟨-, -, hfiles⟩
      · omega
      · rw [hfiles]
        exact SameTree.refl _
    · refine (openFinish_ends hn fun g hg hzero => ?_).mono (fun r s' hr => ?_) fun _ he => he
      · rw [hf] at hg
        cases hg
        exact absurd hzero hlinks
      · rcases hr with ⟨hroom, hpos⟩ | ⟨hno, rfl, hfiles⟩
        · exact ⟨fun _ _ => hroom, fun _ hneg => by omega⟩
        · constructor
          · intro hsame
            have halloc := (hsame rfl).alloc i
            rw [hfiles, hf, hfree] at halloc
            cases halloc
          · exact fun hroom => absurd (hroom hcreates) hno
  exact hends.of_ok hrun

end Open

/-- There is no file `y` in the root. -/
theorem open_fails_cleanly_missing : ∃ s',
    (sysOpen (some [47, 121]) (some 0)).run (handle 1) sampleFs = .ok (-1, s') ∧
      SameTree sampleFs.files s'.files := by
  have hret : ∃ s', (sysOpen (some [47, 121]) (some 0)).run (handle 1) sampleFs = .ok (-1, s') :=
    ⟨_, rfl⟩
  obtain ⟨s', hrun⟩ := hret
  refine ⟨s', hrun, (open_fails_cleanly_iff sampleFs_ready hrun).mpr (fun hc => ?_) rfl⟩
  exact absurd hc.1 (by decide)

/-- All file structures are in use. -/
def sampleFull : State := { sampleFs with ftable := 0 }

theorem sampleFull_ready : Ready sampleFull 1 where
  coherent := ⟨sampleFs_ready.coherent.dev, sampleFs_ready.coherent.unique,
    sampleFs_ready.coherent.copies⟩
  idle := sampleFs_ready.idle
  dirs := sampleFs_ready.dirs
  spared := sampleFs_ready.spared
  cwd := sampleFs_ready.cwd

/-- Then `open` of `/y` with `O_CREATE` returns -1, and inode 4 is allocated. -/
theorem open_fails_created : ¬ ∀ (s s' : State) (p : Pid) (path : Path) (omode : UInt32),
    Ready s p → (sysOpen (some path) (some omode)).run (handle p) s = .ok (-1, s') →
    SameTree s.files s'.files := by
  intro h
  have hret : ∃ s', (sysOpen (some [47, 121]) (some 0x201)).run (handle 1) sampleFull =
      .ok (-1, s') ∧ (s'.files 4).isSome = true := ⟨_, rfl, rfl⟩
  obtain ⟨s', hrun, hnew⟩ := hret
  have halloc := (h sampleFull s' 1 _ _ sampleFull_ready hrun).alloc 4
  rw [hnew] at halloc
  cases halloc

end Xv6.Fs.Call
