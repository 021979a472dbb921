import Xv6.Fs.MachineSpec

/-!
# Path names

`skipelem` takes a path apart in place, and `namex` walks along as it does so. What
they compute together: a path is its list of maximal runs of bytes other than `/`, each
cut to 14 bytes (`segments`), and a lookup is a fold of lookups in one directory over
this list (`walk`, `walkParent`), from the root or the current directory (`startOf`).
-/

namespace Xv6.Fs.Call

open Prog Function

/-! ## §1  Segments -/

/-- The maximal runs of bytes other than `/`, each cut to its first 14 bytes. -/
def segments (path : Path) : List (List UInt8) :=
  ((path.splitOnP (· = slash)).filter (· ≠ [])).map (·.take dirsiz)

section Segments

variable {path w rest : Path}

theorem segments_split (a b : Path) : segments (a ++ slash :: b) = segments a ++ segments b := by
  rw [segments, List.splitOnP_append_cons a b (by simp), List.filter_append, List.map_append]
  rfl

theorem segments_slash (path : Path) : segments (slash :: path) = segments path :=
  segments_split [] path

theorem segments_dropSlashes : ∀ path : Path,
    segments (path.dropWhile (· = slash)) = segments path
  | [] => rfl
  | c :: path => by
    by_cases hc : c = slash
    · rw [List.dropWhile_cons_of_pos (by simpa using hc), segments_dropSlashes path, hc,
        segments_slash]
    · rw [List.dropWhile_cons_of_neg (by simpa using hc)]

theorem segments_word (hne : w ≠ []) (hw : ∀ c ∈ w, c ≠ slash) :
    segments w = [w.take dirsiz] := by
  rw [segments, List.splitOnP_eq_singleton fun c hc => by simpa using hw c hc,
    List.filter_cons_of_pos (by simpa using hne)]
  rfl

/-- The first run, and what is behind it. -/
theorem segments_run (path : Path) (hpath : path ≠ []) (hhead : path.head hpath ≠ slash) :
    segments path = (path.takeWhile (· ≠ slash)).take dirsiz ::
      segments (path.dropWhile (· ≠ slash)) := by
  have hne : path.takeWhile (· ≠ slash) ≠ [] := by
    cases path with
    | nil => exact absurd rfl hpath
    | cons c path =>
      rw [List.takeWhile_cons_of_pos (by simpa using hhead)]
      nofun
  have hw : ∀ c ∈ path.takeWhile (· ≠ slash), c ≠ slash := fun c hc => by
    simpa using List.mem_takeWhile_imp hc
  conv_lhs => rw [← List.takeWhile_append_dropWhile (p := (· ≠ slash)) (l := path)]
  cases hrest : path.dropWhile (· ≠ slash) with
  | nil =>
    rw [List.append_nil, segments_word hne hw]
    rfl
  | cons c rest =>
    have hc : c = slash := by
      have hstop := List.head?_dropWhile_not (fun c => decide (c ≠ slash)) path
      rw [hrest] at hstop
      simpa using hstop
    rw [hc, segments_split, segments_word hne hw, segments_slash]
    rfl

/-- **What `skipelem` takes off a path are its segments.** -/
theorem elems_eq_segments (path : Path) : elems path = segments path := by
  induction hlen : path.length using Nat.strong_induction_on generalizing path with
  | _ n ih =>
    rw [elems_eq]
    cases hskip : skipelem path with
    | none =>
      rw [skipelem] at hskip
      split at hskip
      · rename_i hnil
        rw [← segments_dropSlashes, hnil]
        rfl
      · cases hskip
    | some x =>
      obtain ⟨name, rest⟩ := x
      have hlt := skipelem_length hskip
      rw [skipelem] at hskip
      split at hskip
      · cases hskip
      rename_i hne
      have hhead : (path.dropWhile (· = slash)).head hne ≠ slash := by
        simpa using List.head_dropWhile_not (p := (· = slash)) (l := path) hne
      rw [Option.some.injEq, Prod.mk.injEq] at hskip
      rw [← segments_dropSlashes path, segments_run _ hne hhead, hskip.1]
      refine congrArg _ ((ih _ (hlen ▸ hlt) rest rfl).trans ?_)
      rw [← hskip.2, segments_dropSlashes]

end Segments

/-! ## §2  Lookups along a path -/

/-- One lookup: the inode has to be a directory. -/
def stepInto (F : InodeTable) (i : Nat) (name : List UInt8) : Option Nat :=
  match F i with
  | some f => if f.type = tDir then (lookup f name).map Dirent.inum else none
  | none => none

/-- The inode at the end of a path. -/
def walk (F : InodeTable) (i : Nat) (names : List (List UInt8)) : Option Nat :=
  names.foldlM (stepInto F) i

def isDir (F : InodeTable) (i : Nat) : Bool := (F i).any fun f => f.type = tDir

/-- The directory at the end of all of the path but its last element, with that. -/
def walkParent (F : InodeTable) (i : Nat) (names : List (List UInt8)) :
    Option (Nat × List UInt8) :=
  match names.getLast? with
  | none => none
  | some last => (walk F i names.dropLast).bind fun d => if isDir F d then some (d, last) else none

/-- The inode at which a lookup starts. -/
def startOf (s : State) (p : Pid) (path : Path) : Nat :=
  if path.head? = some slash then rootino
  else ((s.cwd p).map fun ip => (s.icache ip).inum).getD 0

/-- The loop of `namex` over the inodes alone. -/
def found (F : InodeTable) (parent : Bool) : Nat → List UInt8 → List (List UInt8) →
    Option (Nat × List UInt8)
  | i, name, [] => if parent then none else some (i, name)
  | i, _, name :: rest =>
    if isDir F i then
      if parent && rest.isEmpty then some (i, name)
      else (stepInto F i name).bind fun j => found F parent j name rest
    else none

theorem stepInto_of_not_dir {F : InodeTable} {i : Nat} (h : isDir F i = false) (name : List UInt8) :
    stepInto F i name = none := by
  unfold isDir at h
  unfold stepInto
  cases hf : F i with
  | none => rfl
  | some f =>
    rw [hf] at h
    exact if_neg (of_decide_eq_false h)

theorem found_false (F : InodeTable) : ∀ (names : List (List UInt8)) (i : Nat) (name : List UInt8),
    (found F false i name names).map Prod.fst = walk F i names
  | [], i, name => rfl
  | n :: rest, i, name => by
    rw [found, walk, List.foldlM_cons]
    cases hdir : isDir F i with
    | false =>
      rw [stepInto_of_not_dir hdir]
      rfl
    | true =>
      simp only [if_true, Bool.false_and, Bool.false_eq_true, if_false]
      cases hstep : stepInto F i n with
      | none => rfl
      | some j => exact found_false F rest j n

theorem found_true (F : InodeTable) : ∀ (names : List (List UInt8)) (i : Nat) (name : List UInt8),
    found F true i name names = walkParent F i names
  | [], i, name => rfl
  | [n], i, name => by
    rw [found, walkParent]
    simp only [List.isEmpty_nil, Bool.and_self, if_true]
    rfl
  | n :: m :: rest, i, name => by
    have hrec := fun j => found_true F (m :: rest) j n
    rw [found, walkParent, List.getLast?_cons_cons, List.dropLast_cons_cons, walk, List.foldlM_cons]
    simp only [List.isEmpty_cons, Bool.and_false, Bool.false_eq_true, if_false, hrec, walkParent]
    cases hlast : (m :: rest).getLast? with
    | none => simp at hlast
    | some last =>
      cases hdir : isDir F i with
      | false =>
        rw [stepInto_of_not_dir hdir]
        rfl
      | true =>
        simp only [if_true]
        cases hstep : stepInto F i n with
        | none => rfl
        | some j => rfl

/-! ## §3  `namex` -/

/-- The root, and what the entries of directories name. -/
def Mentioned (F : InodeTable) (i : Nat) : Prop :=
  i = rootino ∨ ∃ d f de, F d = some f ∧ f.type = tDir ∧ de ∈ dirents f.data ∧ de.inum ≠ 0 ∧
    de.inum = i

/-- A state in which process `p` can start a call: nothing is locked, every directory is
made of whole entries, and a file that an entry names has links or is in use. -/
structure Ready (s : State) (p : Pid) : Prop where
  coherent : Coherent s
  idle : ∀ k, (s.icache k).lock = none
  dirs : ∀ i f, s.files i = some f → f.type = tDir → WholeDir f
  spared : ∀ i, Mentioned s.files i → ∀ f, s.files i = some f → Spared s i f
  cwd : ∃ ip, s.cwd p = some ip ∧ 0 < (s.icache ip).ref

/-- Two entries of the inode cache are free. -/
def Room (s : State) : Prop := ∀ k, ∃ k', k' ≠ k ∧ (s.icache k').ref = 0

/-- No entry of a directory names a free inode, and neither does the root. -/
structure Named (F : InodeTable) : Prop where
  root : (F rootino).isSome
  entry : ∀ i f de, F i = some f → f.type = tDir → de ∈ dirents f.data → de.inum ≠ 0 →
    (F de.inum).isSome

section Namex

variable {p : Pid} {s s₁ : State} {F : InodeTable} {ip : Ip} {i : Nat} {E : Stop → Prop}

theorem unlock_again (ip : Ip) (p : Pid) :
    update (update unlocked ip (some p)) ip none = unlocked := by
  rw [update_idem]
  exact update_eq_self ip unlocked

theorem erase_behind (x y : Ip × Nat) : [x, y].erase y = [x] := by
  rw [List.erase_cons]
  split
  · rename_i heq
    rw [eq_of_beq heq]
  · rw [List.erase_cons_head]

theorem lookup_mem {f : Inode} {name : List UInt8} {de : Dirent} (h : lookup f name = some de) :
    de ∈ dirents f.data ∧ de.inum ≠ 0 := by
  refine ⟨List.mem_of_find?_eq_some h, ?_⟩
  have hnamed := List.find?_some h
  simp only [named, Bool.and_eq_true, decide_eq_true_eq] at hnamed
  exact hnamed.1

/-- With one reference taken there is an entry left. -/
theorem Near.room {l : Ip → Option Pid} (hn : Near s F [(ip, i)] l s₁) (hroom : Room s) :
    ∃ k, (s₁.icache k).ref = 0 := by
  obtain ⟨k, hne, hk⟩ := hroom ip
  refine ⟨k, ?_⟩
  rw [hn.ref, hk, count_cons, if_neg (Ne.symm hne)]
  rfl

theorem isDir_eq {f : Inode} (hf : F i = some f) : isDir F i = decide (f.type = tDir) := by
  rw [isDir, hf]
  rfl

/-- What `namex` has found, and the reference it has. -/
def Reached (s : State) (F : InodeTable) (o : Option (Nat × List UInt8))
    (r : Option (Ip × List UInt8)) (s₂ : State) : Prop :=
  match o with
  | none => r = none ∧ Near s F [] unlocked s₂
  | some (j, name) => ∃ k, r = some (k, name) ∧ Near s F [(k, j)] unlocked s₂ ∧
      ∀ f, F j = some f → Spared s j f

/-- The loop, by induction on the elements that are left. -/
theorem namexLoop_ends (hdirs : ∀ i f, F i = some f → f.type = tDir → WholeDir f)
    (hspared : ∀ i, Mentioned F i → ∀ f, F i = some f → Spared s i f)
    (hroom : E .igetNoInodes ∨ Room s) (hnamed : E .ilockNoType ∨ Named F) (parent : Bool) :
    ∀ (names : List (List UInt8)) {ip : Ip} {i : Nat} (name : List UInt8) {s₁ : State},
      Near s F [(ip, i)] unlocked s₁ → (∀ f, F i = some f → Spared s i f) →
      (E .ilockNoType ∨ (F i).isSome) → Ends (handle p) (namexLoop parent ip name names) s₁
        (Reached s F (found F parent i name names)) E
  | [], ip, i, name, s₁, hn, hsp, _ => by
    rw [namexLoop, found]
    cases parent with
    | true =>
      refine (iput_ends hn List.mem_cons_self rfl hsp).bind fun _ s₂ hn' => ?_
      rw [List.erase_cons_head] at hn'
      exact ends_pure ⟨rfl, hn'⟩
    | false => exact ends_pure ⟨ip, rfl, hn, hsp⟩
  | next :: rest, ip, i, name, s₁, hn, hsp, hlive => by
    have hmem : (ip, i) ∈ [(ip, i)] := List.mem_cons_self
    have hself : update unlocked ip (some p) ip = some p := update_self ..
    have hlocked : update unlocked ip (some p) ip ≠ none := by
      rw [hself]
      nofun
    rw [namexLoop, found]
    refine (ilock_ends hn hmem rfl fun hnone => ?_).bind ?_
    · refine hlive.resolve_right ?_
      rw [hnone]
      nofun
    rintro - s₂ ⟨hsome, hn₂⟩
    obtain ⟨f, hf⟩ := Option.isSome_iff_exists.mp hsome
    refine (inode_ends hn₂ hmem hlocked hf).bind ?_
    rintro v s₃ ⟨rfl, rfl⟩
    rw [isDir_eq hf]
    refine ends_ite (fun hne => ?_) fun hdir => ?_
    · rw [decide_eq_false (show ¬ f.type = tDir from hne), if_neg (by decide)]
      refine (iunlockput_ends hn₂ hmem hself hsp).bind fun _ s₂ hn' => ?_
      rw [List.erase_cons_head, unlock_again] at hn'
      exact ends_pure ⟨rfl, hn'⟩
    · have hd := hdirs i f hf (not_not.mp hdir)
      rw [decide_eq_true hd.type, if_pos rfl]
      by_cases hlast : (parent && rest.isEmpty) = true
      · rw [if_pos hlast, if_pos hlast]
        refine (iunlock_ends hn₂ hmem hself).bind fun _ s₂ hn' => ?_
        rw [unlock_again] at hn'
        exact ends_pure ⟨ip, rfl, hn', hsp⟩
      · rw [if_neg hlast, if_neg hlast]
        have hstep : stepInto F i next = (lookup f next).map Dirent.inum := by
          rw [stepInto, hf]
          exact if_pos hd.type
        rw [hstep]
        refine (dirlookup_ends hn₂ hmem hlocked hf hd next (hroom.imp_right hn₂.room)).bind ?_
        cases hfound : lookup f next with
        | none =>
          rintro _ s₂ ⟨rfl, rfl⟩
          refine (iunlockput_ends hn₂ hmem hself hsp).bind fun _ s₂ hn' => ?_
          rw [List.erase_cons_head, unlock_again] at hn'
          exact ends_pure ⟨rfl, hn'⟩
        | some de =>
          rintro _ s₂ ⟨k, rfl, hn₃⟩
          have hmem' : (ip, i) ∈ [(k, de.inum), (ip, i)] :=
            List.mem_cons_of_mem _ List.mem_cons_self
          refine (iunlockput_ends hn₃ hmem' hself hsp).bind fun _ s₃ hn' => ?_
          rw [erase_behind, unlock_again] at hn'
          obtain ⟨hentry, hne⟩ := lookup_mem hfound
          exact namexLoop_ends hdirs hspared hroom hnamed parent rest next hn'
            (hspared _ (.inr ⟨i, f, de, hf, hd.type, hentry, hne, rfl⟩))
            (hnamed.imp_right fun h => h.entry i f de hf hd.type hentry hne)

theorem namex_ends (h : Ready s p) (path : Path) (parent : Bool) (hroom : E .igetNoInodes ∨ Room s)
    (hnamed : E .ilockNoType ∨ (Named s.files ∧ (s.files (startOf s p path)).isSome)) :
    Ends (handle p) (namex path parent) s
      (Reached s s.files (found s.files parent (startOf s p path) [] (segments path))) E := by
  have hstart := Near.start h.coherent h.idle
  refine Ends.bind (P := fun ip s₁ => Near s s.files [(ip, startOf s p path)] unlocked s₁ ∧
    ∀ f, s.files (startOf s p path) = some f → Spared s (startOf s p path) f) ?_ ?_
  · rw [namexStart, startOf]
    refine ends_ite (fun hslash => ?_) fun hslash => ?_
    · rw [if_pos hslash]
      refine (iget_ends hstart rootino (hroom.imp_right fun hroom => ?_)).mono
        (fun _ _ hn => ⟨hn, h.spared _ (.inl rfl)⟩) fun _ he => he
      obtain ⟨k, -, hk⟩ := hroom 0
      exact ⟨k, hk⟩
    · rw [if_neg hslash]
      obtain ⟨ip, hcwd, hused⟩ := h.cwd
      refine Ends.bind (P := fun ip' s₁ => ip' = ip ∧ s₁ = s) (ends_perform (r := ip) ?_ ⟨rfl, rfl⟩)
        ?_
      · simp only [handle, hcwd]
      rintro _ _ ⟨rfl, rfl⟩
      refine (idup_ends hstart hused).bind fun _ s₁ hn => ?_
      rw [hcwd]
      exact ends_pure ⟨hn, fun _ _ _ => ⟨_, hused, rfl⟩⟩
  · rintro ip s₁ ⟨hn, hsp⟩
    rw [← elems_eq_segments]
    exact namexLoop_ends h.dirs h.spared hroom (hnamed.imp_right And.left) parent _ _ hn hsp
      (hnamed.imp_right And.right)

/-- **Path lookup is a fold.** Whatever `namei` and `nameiparent` return are the folds of
lookups over the segments of the path, and the inodes are as before; both do return
when the inode cache has two free entries and no entry of a directory names a free
inode. A slash that is doubled or at the end changes nothing; one in front leaves
the segments as they are and selects the root. -/
theorem namei_is_fold {s : State} {p : Pid} (h : Ready s p) (path : Path) :
    (∀ r s', (namei path).run (handle p) s = .ok (r, s') → s'.files = s.files ∧
      r.map (fun k => (s'.icache k).inum) = walk s.files (startOf s p path) (segments path)) ∧
    (∀ r s', (nameiparent path).run (handle p) s = .ok (r, s') → s'.files = s.files ∧
      r.map (fun x => ((s'.icache x.1).inum, x.2)) =
        walkParent s.files (startOf s p path) (segments path)) ∧
    (Room s → Named s.files → (s.files (startOf s p path)).isSome →
      (∃ r s', (namei path).run (handle p) s = .ok (r, s')) ∧
      ∃ r s', (nameiparent path).run (handle p) s = .ok (r, s')) ∧
    (∀ a b, namei (a ++ slash :: slash :: b) = namei (a ++ slash :: b) ∧
      nameiparent (a ++ slash :: slash :: b) = nameiparent (a ++ slash :: b)) ∧
    (path ≠ [] → namei (path ++ [slash]) = namei path ∧
      nameiparent (path ++ [slash]) = nameiparent path) ∧
    segments (slash :: path) = segments path ∧ startOf s p (slash :: path) = rootino := by
  have hreached : ∀ {o : Option (Nat × List UInt8)} {r : Option (Ip × List UInt8)} {s₂ : State},
      Reached s s.files o r s₂ → s₂.files = s.files ∧
        r.map (fun x => ((s₂.icache x.1).inum, x.2)) = o := by
    rintro (- | ⟨j, name⟩) r s₂ hr
    · obtain ⟨rfl, hn⟩ := hr
      exact ⟨hn.files, rfl⟩
    · obtain ⟨k, rfl, hn, -⟩ := hr
      exact ⟨hn.files, by rw [Option.map_some, hn.held _ List.mem_cons_self]⟩
  have hnamei : ∀ {E : Stop → Prop}, (E .igetNoInodes ∨ Room s) →
      (E .ilockNoType ∨ (Named s.files ∧ (s.files (startOf s p path)).isSome)) →
      Ends (handle p) (namei path) s (fun r s' => s'.files = s.files ∧
        r.map (fun k => (s'.icache k).inum) =
          walk s.files (startOf s p path) (segments path)) E := by
    intro E hroom hnamed
    refine (namex_ends h path false hroom hnamed).bind fun r s' hr => ends_pure ?_
    obtain ⟨hfiles, hmap⟩ := hreached hr
    rw [← found_false s.files _ _ [], ← hmap, Option.map_map, Option.map_map]
    exact ⟨hfiles, rfl⟩
  have hparent : ∀ {E : Stop → Prop}, (E .igetNoInodes ∨ Room s) →
      (E .ilockNoType ∨ (Named s.files ∧ (s.files (startOf s p path)).isSome)) →
      Ends (handle p) (nameiparent path) s (fun r s' => s'.files = s.files ∧
        r.map (fun x => ((s'.icache x.1).inum, x.2)) =
          walkParent s.files (startOf s p path) (segments path)) E := by
    intro E hroom hnamed
    refine (namex_ends h path true hroom hnamed).mono (fun r s' hr => ?_) fun _ he => he
    rw [← found_true s.files _ _ []]
    exact hreached hr
  have hsame : ∀ a b : Path, elems a = elems b → a.head? = b.head? →
      namei a = namei b ∧ nameiparent a = nameiparent b := by
    intro a b helems hhead
    have hnamex : ∀ parent, namex a parent = namex b parent := fun parent => by
      rw [namex, namex, helems, namexStart, namexStart, hhead]
    rw [namei, namei, nameiparent, nameiparent, hnamex, hnamex]
    exact ⟨rfl, rfl⟩
  refine ⟨fun r s' hrun => ?_, fun r s' hrun => ?_, fun hroom hnamed hstart => ⟨?_, ?_⟩,
    fun a b => hsame _ _ ?_ ?_, fun hne => hsame _ _ ?_ ?_, segments_slash path, rfl⟩
  · exact (hnamei (E := fun _ => True) (.inl trivial) (.inl trivial)).of_ok hrun
  · exact (hparent (E := fun _ => True) (.inl trivial) (.inl trivial)).of_ok hrun
  · obtain ⟨r, s', hrun, -⟩ := (hnamei (.inr hroom) (.inr ⟨hnamed, hstart⟩)).returns
    exact ⟨r, s', hrun⟩
  · obtain ⟨r, s', hrun, -⟩ := (hparent (.inr hroom) (.inr ⟨hnamed, hstart⟩)).returns
    exact ⟨r, s', hrun⟩
  · rw [elems_eq_segments, elems_eq_segments, segments_split, segments_split, segments_slash]
  · cases a <;> rfl
  · rw [elems_eq_segments, elems_eq_segments, segments_split]
    exact List.append_nil _
  · cases path with
    | nil => exact absurd rfl hne
    | cons c path => rfl

end Namex

/-- A file system with a directory `a` in the root and a file `b` in it. Process 1 is in
the root. -/
def sampleFiles : InodeTable
  | 1 => some ⟨tDir, 0, 0, 2,
      direntBytes 1 [46] ++ direntBytes 1 [46, 46] ++ direntBytes 2 [97]⟩
  | 2 => some ⟨tDir, 0, 0, 1,
      direntBytes 2 [46] ++ direntBytes 1 [46, 46] ++ direntBytes 3 [98]⟩
  | 3 => some ⟨tFile, 0, 0, 1, []⟩
  | _ => none

def sampleFs : State where
  ninodes := 200
  files := sampleFiles
  icache := fun k => if k = 0 then ⟨rootdev, rootino, 1, none, none⟩ else ⟨0, 0, 0, none, none⟩
  cwd := fun p => if p = 1 then some 0 else none
  ofile := fun _ _ => none
  ftable := 100
  world := ⟨fun _ => true, fun _ => none, fun _ => 0⟩

theorem sampleFiles_cases {P : Nat → Inode → Prop}
    (h₁ : P 1 ⟨tDir, 0, 0, 2, direntBytes 1 [46] ++ direntBytes 1 [46, 46] ++ direntBytes 2 [97]⟩)
    (h₂ : P 2 ⟨tDir, 0, 0, 1, direntBytes 2 [46] ++ direntBytes 1 [46, 46] ++ direntBytes 3 [98]⟩)
    (h₃ : P 3 ⟨tFile, 0, 0, 1, []⟩) : ∀ i f, sampleFiles i = some f → P i f := by
  intro i f hf
  unfold sampleFiles at hf
  split at hf <;> cases hf
  · exact h₁
  · exact h₂
  · exact h₃

theorem sampleFs_ref {k : Ip} (h : 0 < (sampleFs.icache k).ref) : k = 0 := by
  by_contra hk
  simp [sampleFs, hk] at h

theorem sampleFs_ready : Ready sampleFs 1 where
  coherent :=
    { dev := fun k hk => by rw [sampleFs_ref hk]; rfl
      unique := fun k k' hk hk' _ => by rw [sampleFs_ref hk, sampleFs_ref hk']
      copies := fun k a hk ha => by
        rw [sampleFs_ref hk] at ha
        cases ha }
  idle k := by
    by_cases hk : k = 0 <;> simp [sampleFs, hk]
  dirs := by
    refine sampleFiles_cases (P := fun _ f => f.type = tDir → WholeDir f) (fun _ => ?_) (fun _ => ?_)
      (fun h => absurd h (by decide))
    · exact ⟨rfl, by decide, by decide⟩
    · exact ⟨rfl, by decide, by decide⟩
  spared i _ := by
    refine fun f hf => sampleFiles_cases (P := Spared sampleFs) ?_ ?_ ?_ i f hf
    all_goals exact fun h => absurd h (by decide)
  cwd := ⟨0, rfl, Nat.one_pos⟩

/-- From the root, `/a//b` is the file. -/
theorem namei_is_fold_sample : ∃ r s',
    (namei [47, 97, 47, 47, 98]).run (handle 1) sampleFs = .ok (r, s') ∧
      r.map (fun k => (s'.icache k).inum) = some 3 := by
  have hroom : Room sampleFs := by
    intro k
    by_cases hk : k = 1
    · exact ⟨2, by rw [hk]; decide, rfl⟩
    · exact ⟨1, Ne.symm hk, rfl⟩
  have hnamed : Named sampleFiles := by
    refine ⟨rfl, fun i f de hf htype hmem hne => ?_⟩
    revert de
    revert i f
    refine sampleFiles_cases (P := fun _ f => f.type = tDir → ∀ de, de ∈ dirents f.data →
      de.inum ≠ 0 → (sampleFiles de.inum).isSome = true) (fun _ => ?_) (fun _ => ?_)
      fun h => absurd h (by decide)
    · decide
    · decide
  have hfold := namei_is_fold sampleFs_ready [47, 97, 47, 47, 98]
  obtain ⟨⟨r, s', hrun⟩, -⟩ := hfold.2.2.1 hroom hnamed rfl
  exact ⟨r, s', hrun, (hfold.1 r s' hrun).2.trans (by decide)⟩

end Xv6.Fs.Call
