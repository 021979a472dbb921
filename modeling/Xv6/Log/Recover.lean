import Xv6.Log.Phases

/-!
# What recovery finds on the disk

The committed view is what the blocks outside the log hold after the
operations of all transactions whose header reached the disk; the current view
adds the transaction that is open. At every moment the disk, with the log
installed, is the committed view: `Logged` says why, and each phase of a commit
or a recovery keeps it in its own way (`LogInv`).
-/

namespace Xv6

open Transition Function

/-! ## §1  Recovery as a function of the disk -/

/-- `install_trans`, from block `i` of the log on. -/
def installFrom (A : LogArea) (d : Disk) (i : Nat) : List Nat → Disk
  | [] => d
  | b :: bs => installFrom A (update d b (d (A.start + i + 1))) (i + 1) bs

/-- `recover_from_log`. -/
def recover (A : LogArea) (d : Disk) : Disk :=
  let d' := installFrom A d 0 (readHead (d A.start))
  update d' A.start (writeHead (d' A.start) [])

/-- The log has the header `hd` and the blocks of the view `C` for it; the
blocks outside the log that are not in the header are those of the view. -/
structure Logged (A : LogArea) (d C : Disk) (hd : List Nat) : Prop where
  head : readHead (d A.start) = hd
  room : hd.length + 1 ≤ A.size
  home : ∀ b ∈ hd, ¬ A.inside b
  logged : ∀ i b, hd[i]? = some b → d (A.start + i + 1) = C b
  rest : ∀ b, ¬ A.inside b → b ∉ hd → d b = C b

variable {A : LogArea}

theorem LogArea.start_inside (h : 1 ≤ A.size) : A.inside A.start :=
  ⟨Nat.le_refl _, by omega⟩

variable {C V d : Disk} {hd : List Nat}

theorem Logged.block_inside (h : Logged A d C hd) {i b : Nat} (hi : hd[i]? = some b) :
    A.inside (A.start + i + 1) := by
  have h₁ := h.room
  have h₂ := (List.getElem?_eq_some_iff.mp hi).1
  exact ⟨by omega, by omega⟩

/-- Installing a block of the log once more changes nothing about it. -/
theorem Logged.install (h : Logged A d C hd) {i b : Nat} (hi : hd[i]? = some b) :
    Logged A (update d b (d (A.start + i + 1))) C hd := by
  have hb : ¬ A.inside b := h.home b (List.mem_of_getElem? hi)
  have hne : ∀ x, A.inside x → x ≠ b := fun x hx heq => hb (heq ▸ hx)
  have hroom := h.room
  refine ⟨?_, h.room, h.home, fun j c hj => ?_, fun c hc hmem => ?_⟩
  · rw [update_of_ne (hne _ (LogArea.start_inside (by omega)))]
    exact h.head
  · rw [update_of_ne (hne _ (h.block_inside hj))]
    exact h.logged j c hj
  · have hcb : c ≠ b := by
      rintro rfl
      exact hmem (List.mem_of_getElem? hi)
    rw [update_of_ne hcb]
    exact h.rest c hc hmem

/-- The first `tail` blocks of the log are installed. -/
def Installed (d C : Disk) (hd : List Nat) (tail : Nat) : Prop :=
  ∀ i b, i < tail → hd[i]? = some b → d b = C b

theorem Installed.succ {tail b : Nat} (h : Installed d C hd tail) (hlog : Logged A d C hd)
    (hi : hd[tail]? = some b) :
    Installed (update d b (d (A.start + tail + 1))) C hd (tail + 1) := by
  intro j c hj hc
  by_cases hcb : c = b
  · rw [hcb, update_self]
    exact hlog.logged tail b hi
  · rw [update_of_ne hcb]
    refine h j c (Nat.lt_of_le_of_ne (by omega) fun heq => hcb ?_) hc
    rw [heq, hi] at hc
    exact (Option.some.inj hc).symm

/-- With all of them installed the disk is the view. -/
theorem Installed.all {tail : Nat} (h : Installed d C hd tail) (hlog : Logged A d C hd)
    (htail : hd[tail]? = none) {b : Nat} (hb : ¬ A.inside b) : d b = C b := by
  by_cases hmem : b ∈ hd
  · obtain ⟨i, hi, heq⟩ := List.getElem_of_mem hmem
    have := List.getElem?_eq_none_iff.mp htail
    exact h i b (by omega) (heq ▸ List.getElem?_eq_getElem hi)
  · exact hlog.rest b hb hmem

/-- An erased header. -/
theorem Logged.erase (hA : 1 ≤ A.size) (h : ∀ b, ¬ A.inside b → d b = C b) (v : Block) :
    Logged A (update d A.start (writeHead v [])) C [] := by
  refine ⟨?_, by simpa using hA, by simp, by simp, fun b hb _ => ?_⟩
  · rw [update_self, readHead_writeHead (by simp) (by simp)]
  · have hne : b ≠ A.start := by
      rintro rfl
      exact hb (LogArea.start_inside hA)
    rw [update_of_ne hne]
    exact h b hb

theorem installFrom_spec : ∀ {bs : List Nat} {i : Nat}
    {d : Disk}, Logged A d C hd → Installed d C hd i → hd.drop i = bs →
    Logged A (installFrom A d i bs) C hd ∧
      ∀ b, ¬ A.inside b → installFrom A d i bs b = C b
  | [], i, d, hlog, hinst, hbs => by
    refine ⟨hlog, fun b hb => hinst.all hlog ?_ hb⟩
    rw [List.getElem?_eq_none_iff]
    simpa using hbs
  | b :: bs, i, d, hlog, hinst, hbs => by
    have hi : hd[i]? = some b := by
      have := congrArg (fun l => l[0]?) hbs
      simpa using this
    have hrest : hd.drop (i + 1) = bs := by
      rw [← List.drop_drop, hbs]
      rfl
    rw [installFrom]
    exact installFrom_spec (hlog.install hi) (hinst.succ hlog hi) hrest

/-- **Recovery gives the committed view.** -/
theorem Logged.recover (h : Logged A d C hd) :
    Logged A (recover A d) C [] ∧ ∀ b, ¬ A.inside b → Xv6.recover A d b = C b := by
  have hspec := installFrom_spec h (fun i b hi => absurd hi (Nat.not_lt_zero i))
    (List.drop_zero (l := hd))
  have hroom := h.room
  have herase := Logged.erase (by omega) hspec.2
    (installFrom A d 0 hd A.start)
  rw [Xv6.recover, h.head]
  exact ⟨herase, fun b hb => herase.rest b hb (by simp)⟩

/-! ## §2  The phases -/

/-- The block numbers fit into the header, and into the log if it is smaller than the
buffer cache. -/
structure HeaderOK (A : LogArea) (lh : List Nat) : Prop where
  room : A.size < nbuf → lh.length + 1 ≤ A.size
  home : ∀ b ∈ lh, ¬ A.inside b
  word : ∀ b ∈ lh, b < 2 ^ 32

theorem headerOK_nil (hA : 1 ≤ A.size) : HeaderOK A [] :=
  ⟨fun _ => by simpa using hA, by simp, by simp⟩

variable {ι : Type*}

/-- A block of the log is not noted, so `bget` has to find another buffer for it. -/
theorem HeaderOK.length_lt {s : LogState ι} (h : HeaderOK A s.lh) {b : Nat} (hb : A.inside b)
    (hget : s.bget b = true) : s.lh.length < nbuf := by
  rw [LogState.bget, Bool.or_eq_true, decide_eq_true_eq, decide_eq_true_eq] at hget
  exact hget.resolve_left fun hmem => h.home b hmem hb

/-- The first block that `write_log` writes: in a log as large as the buffer cache there
is room for all that can be noted. -/
theorem HeaderOK.fits {s : LogState ι} (h : HeaderOK A s.lh)
    (hget : s.bget (A.start + 1) = true) : s.lh.length + 1 ≤ A.size := by
  rcases Nat.lt_or_ge A.size nbuf with hsmall | hlarge
  · exact h.room hsmall
  · have htwo : 2 ≤ nbuf := by decide
    have hlt := h.length_lt ⟨by omega, by omega⟩ hget
    omega

variable [DecidableEq ι]

/-- The two views agree outside the log. -/
def SameHome (A : LogArea) (V C : Disk) : Prop := ∀ b, ¬ A.inside b → V b = C b

/-- A disk from which recovery gives `C`. -/
def Recovers (A : LogArea) (d C : Disk) : Prop := ∃ hd, Logged A d C hd

/-- After a crash: nobody runs, and the disk recovers the committed view. -/
structure LogBooting (A : LogArea) (C V : Disk) (s : LogState ι) (r : Recovery) : Prop
    extends Booting s r where
  mirror : s.cache = s.disk
  view : SameHome A V C
  disk : match r with
    | .readHead => Recovers A s.disk C
    | .install tail => Logged A s.disk C s.lh ∧ Installed s.disk C s.lh tail
    | .clearHead => Recovers A s.disk C ∧ SameHome A s.disk C

/-- No commit is under way: the header on the disk is empty, and blocks that
are neither noted nor in somebody's hands are as committed. -/
structure LogOpen (A : LogArea) (C V : Disk) (s : LogState ι) : Prop extends Opened s where
  mirror : ∀ b, A.inside b → s.cache b = s.disk b
  view : SameHome A s.cache V
  head : HeaderOK A s.lh
  clean : Logged A s.disk C []
  hand : ∀ p b, (s.loc p).inHand = some b → ¬ A.inside b ∧ b < 2 ^ 32
  rest : ∀ b, ¬ A.inside b → b ∉ s.lh → (∀ p, (s.loc p).inHand ≠ some b) → V b = C b

/-- The first `tail` blocks of the header are copied to the log. -/
def Copied (A : LogArea) (d V : Disk) (lh : List Nat) (tail : Nat) : Prop :=
  ∀ i b, i < tail → lh[i]? = some b → d (A.start + i + 1) = V b

/-- What each step of a commit finds on the disk. -/
def CommitPhase (A : LogArea) (C V : Disk) (s : LogState ι) : LogLoc → Prop
  | .commit => Logged A s.disk C [] ∧ ∀ b, ¬ A.inside b → b ∉ s.lh → V b = C b
  | .writeLog tail => (Logged A s.disk C [] ∧ ∀ b, ¬ A.inside b → b ∉ s.lh → V b = C b) ∧
      Copied A s.disk V s.lh tail ∧ (tail ≠ 0 → s.lh.length + 1 ≤ A.size)
  | .writeHead => (Logged A s.disk C [] ∧ ∀ b, ¬ A.inside b → b ∉ s.lh → V b = C b) ∧
      Copied A s.disk V s.lh s.lh.length ∧ s.lh.length + 1 ≤ A.size
  | .install tail => SameHome A V C ∧ Logged A s.disk C s.lh ∧ Installed s.disk C s.lh tail
  | .clearHead => SameHome A V C ∧ Recovers A s.disk C ∧ SameHome A s.disk C
  | .finish => SameHome A V C ∧ Logged A s.disk C []
  | _ => True

/-- Process `q` commits and everybody else waits. -/
structure LogCommitting (A : LogArea) (C V : Disk) (s : LogState ι) (q : ι) : Prop
    extends Committing s q where
  mirror : ∀ b, A.inside b → s.cache b = s.disk b
  view : SameHome A s.cache V
  head : HeaderOK A s.lh
  disk : CommitPhase A C V s (s.loc q)

/-- The state of the log beside the committed view `C` and the current view
`V`. -/
inductive LogInv (A : LogArea) (C V : Disk) (s : LogState ι) : Prop where
  | booting (r : Recovery) (h : LogBooting A C V s r)
  | opened (h : LogOpen A C V s)
  | committing (q : ι) (h : LogCommitting A C V s q)

omit [DecidableEq ι] in
theorem LogInv.toPhase {s : LogState ι} (h : LogInv A C V s) :
    LogPhase s := by
  cases h with
  | booting r h => exact .booting r h.toBooting
  | opened h => exact .opened h.toOpened
  | committing q h => exact .committing q h.toCommitting

omit [DecidableEq ι] in
/-- **Whatever the phase, the disk recovers the committed view.** -/
theorem LogInv.recovers {s : LogState ι} (h : LogInv A C V s) :
    Recovers A s.disk C := by
  cases h with
  | booting r h =>
    have hdisk := h.disk
    cases r with
    | readHead => exact hdisk
    | install tail => exact ⟨_, hdisk.1⟩
    | clearHead => exact hdisk.1
  | opened h => exact ⟨_, h.clean⟩
  | committing q h =>
    have hdisk := h.disk
    have hcommits := h.commits
    cases hloc : s.loc q <;> rw [hloc] at hdisk hcommits
    case idle | op | modified | checked => cases hcommits
    · exact ⟨_, hdisk.1⟩
    · exact ⟨_, hdisk.1.1⟩
    · exact ⟨_, hdisk.1.1⟩
    · exact ⟨_, hdisk.2.1⟩
    · exact hdisk.2.1
    · exact ⟨_, hdisk.2⟩

/-! ## §3  Operations -/

section Operations

variable {A : LogArea} {C V : Disk} {s : LogState ι} {p : ι}

theorem LogInv.opened_of_inOp (h : LogInv A C V s) (hp : (s.loc p).inOp = true) :
    LogOpen A C V s := by
  cases h with
  | booting r h =>
    rw [h.inOp_eq p] at hp
    cases hp
  | opened h => exact h
  | committing q h =>
    rw [h.inOp_eq p] at hp
    cases hp

theorem LogInv.committing_of_loc (h : LogInv A C V s) (hp : (s.loc p).commits = true) :
    LogCommitting A C V s p := by
  have hcom := h.toPhase.committing_of_loc hp
  cases h with
  | booting r h | opened h => exact absurd (h.committing.symm.trans hcom.committing) (by simp)
  | committing q h =>
    by_cases hpq : p = q
    · exact hpq ▸ h
    · rw [h.others p hpq] at hp
      cases hp

/-- A process that begins an operation, is in one or ends it moves on, with a block in
its hands or not. -/
theorem LogOpen.moved (h : LogOpen A C V s) {s' : LogState ι} {l : LogLoc} {V' : Disk}
    (hopen : Opened (s'.move p l)) (hloc : s'.loc = s.loc) (hdisk : s'.disk = s.disk)
    (hmirror : ∀ b, A.inside b → s'.cache b = s.cache b) (hview : SameHome A s'.cache V')
    (hhead : HeaderOK A s'.lh) (hhand : ∀ b, l.inHand = some b → ¬ A.inside b ∧ b < 2 ^ 32)
    (hrest : ∀ b, b ∉ s'.lh → l.inHand ≠ some b →
      V' b = V b ∧ b ∉ s.lh ∧ (s.loc p).inHand ≠ some b) : LogOpen A C V' (s'.move p l) := by
  have hne : ∀ {q}, q ≠ p → (s'.move p l).loc q = s.loc q := fun hq =>
    (update_of_ne hq ..).trans (congrFun hloc _)
  have hself : (s'.move p l).loc p = l := update_self ..
  refine { hopen with
    mirror := fun b hb => (hmirror b hb).trans ((h.mirror b hb).trans (congrFun hdisk.symm b))
    view := hview, head := hhead, clean := hdisk.symm ▸ h.clean
    hand := fun q b hb => ?_, rest := fun b hb hmem hno => ?_ }
  · by_cases hq : q = p
    · rw [hq, hself] at hb
      exact hhand b hb
    · rw [hne hq] at hb
      exact h.hand q b hb
  · obtain ⟨hsame, hout, hp⟩ := hrest b hmem (hself ▸ hno p)
    rw [hsame]
    refine h.rest b hb hout fun q => ?_
    by_cases hq : q = p
    · rw [hq]
      exact hp
    · rw [← hne hq]
      exact hno q

theorem LogOpen.beginOp (h : LogOpen A C V s) (hloc : s.loc p = .idle) :
    LogOpen A C V ({ s with outstanding := s.outstanding + 1 }.move p .op) :=
  h.moved (h.toOpened.beginOp hloc) rfl rfl (fun _ _ => rfl) h.view h.head nofun
    fun _ hmem _ => ⟨rfl, hmem, by rw [hloc]; nofun⟩

theorem LogOpen.modify (h : LogOpen A C V s) (hloc : s.loc p = .op) {b : Nat} (hb : ¬ A.inside b)
    (hword : b < 2 ^ 32) (v : Block) :
    LogOpen A C (update V b v)
      ({ s with cache := update s.cache b v }.move p (.modified b)) := by
  refine h.moved (h.toOpened.moveOp (by rw [hloc]; rfl) rfl) rfl rfl (fun c hc => ?_)
    (fun c hc => ?_) h.head (fun c hc => ?_) fun c hmem hno => ?_
  · exact update_of_ne (fun heq => hb (by rw [← heq]; exact hc)) ..
  · change update s.cache b v c = update V b v c
    by_cases hcb : c = b
    · rw [hcb, update_self, update_self]
    · rw [update_of_ne hcb, update_of_ne hcb]
      exact h.view c hc
  · cases hc
    exact ⟨hb, hword⟩
  · have hcb : c ≠ b := fun heq => hno (by rw [heq]; rfl)
    rw [update_of_ne hcb, hloc]
    exact ⟨rfl, hmem, nofun⟩

theorem LogOpen.check (h : LogOpen A C V s) {b : Nat} (hloc : s.loc p = .modified b) :
    LogOpen A C V (s.move p (.checked b)) := by
  refine h.moved (h.toOpened.moveOp (by rw [hloc]; rfl) rfl) rfl rfl (fun _ _ => rfl) h.view h.head
    (fun c hc => h.hand p c (by rw [hloc]; exact hc)) fun c hmem hno => ⟨rfl, hmem, ?_⟩
  rw [hloc]
  exact hno

theorem mem_absorb {lh : List Nat} {b c : Nat} : c ∈ absorb lh b ↔ c ∈ lh ∨ c = b := by
  rw [absorb]
  split
  · exact ⟨.inl, fun h => h.elim id fun heq => heq ▸ ‹_›⟩
  · simp

theorem LogOpen.append (h : LogOpen A C V s) {b : Nat} (hloc : s.loc p = .checked b)
    (hroom : A.size < nbuf → (absorb s.lh b).length + 1 ≤ A.size) :
    LogOpen A C V ({ s with lh := absorb s.lh b }.move p .op) := by
  obtain ⟨hb, hword⟩ := h.hand p b (by rw [hloc]; rfl)
  refine h.moved (h.toOpened.moveOp (by rw [hloc]; rfl) rfl) rfl rfl (fun _ _ => rfl) h.view
    ⟨hroom, fun c hc => ?_, fun c hc => ?_⟩ nofun fun c hmem _ => ?_
  · rcases mem_absorb.mp hc with hc | rfl
    · exact h.head.home c hc
    · exact hb
  · rcases mem_absorb.mp hc with hc | rfl
    · exact h.head.word c hc
    · exact hword
  · rw [mem_absorb, not_or] at hmem
    refine ⟨rfl, hmem.1, ?_⟩
    rw [hloc]
    simpa [LogLoc.inHand] using Ne.symm hmem.2

theorem LogOpen.endOp (h : LogOpen A C V s) (hloc : s.loc p = .op) (hmany : s.outstanding ≠ 1) :
    LogOpen A C V ({ s with outstanding := s.outstanding - 1 }.move p .idle) :=
  h.moved (h.toOpened.endOp hloc hmany) rfl rfl (fun _ _ => rfl) h.view h.head nofun
    fun _ hmem _ => ⟨rfl, hmem, by rw [hloc]; nofun⟩

/-- The end of the last operation: no block is in anybody's hands. -/
theorem LogOpen.lastOp (h : LogOpen A C V s) (hloc : s.loc p = .op) (hone : s.outstanding = 1) :
    LogCommitting A C V ({ s with outstanding := 0, committing := true }.move p .commit) p := by
  refine { h.toOpened.lastOp hloc hone with
    mirror := h.mirror, view := h.view, head := h.head, disk := ?_ }
  simp only [LogState.move, update_self]
  refine ⟨h.clean, fun b hb hmem => h.rest b hb hmem fun q => ?_⟩
  by_cases hq : q = p
  · rw [hq, hloc]
    simp [LogLoc.inHand]
  · rw [h.alone hloc hone q hq]
    simp [LogLoc.inHand]

/-! ## §4  Commit and recovery -/

omit [DecidableEq ι] in
/-- A write of the commit: the same change in cache and disk. -/
theorem LogCommitting.mirror_bwrite {q : ι} (h : LogCommitting A C V s q) (b : Nat) (v : Block) (c : Nat)
    (hc : A.inside c) : (s.bwrite b v).cache c = (s.bwrite b v).disk c := by
  by_cases hcb : c = b
  · simp [LogState.bwrite, hcb]
  · simpa [LogState.bwrite, hcb] using h.mirror c hc

/-- The committing process moves on, with the new memory `s'`. -/
theorem LogCommitting.moved {q : ι} (h : LogCommitting A C V s q) {s' : LogState ι} {l : LogLoc}
    {C' V' : Disk} (hboot : s'.booting = s.booting) (hcom : s'.committing = s.committing)
    (hout : s'.outstanding = s.outstanding) (hloc : s'.loc = s.loc) (hl : l.commits = true)
    (hnil : l.cleared = true → s'.lh = [])
    (hmirror : ∀ b, A.inside b → s'.cache b = s'.disk b) (hview : SameHome A s'.cache V')
    (hhead : HeaderOK A s'.lh) (hdisk : CommitPhase A C' V' s' l) :
    LogCommitting A C' V' (s'.move q l) q where
  toCommitting := h.toCommitting.moved hboot hcom hout hloc hl hnil
  mirror := hmirror
  view := hview
  head := hhead
  disk := by
    simp only [LogState.move, update_self]
    exact hdisk

/-- `write_log`, one block. -/
theorem LogCommitting.copyToLog {q : ι} (h : LogCommitting A C V s q) {tail b : Nat}
    (hloc : s.loc q = .writeLog tail) (hb : s.lh[tail]? = some b)
    (hget : s.bget (A.start + tail + 1) = true) :
    LogCommitting A C V ((s.copyToLog A tail b).move q (.writeLog (tail + 1))) q := by
  have hdisk := h.disk
  rw [hloc] at hdisk
  obtain ⟨⟨hclean, hrest⟩, hcopied, hfits⟩ := hdisk
  have hroom : s.lh.length + 1 ≤ A.size := by
    rcases Nat.eq_zero_or_pos tail with rfl | hpos
    · exact h.head.fits hget
    · exact hfits hpos.ne'
  have hlt := (List.getElem?_eq_some_iff.mp hb).1
  have hne : ∀ c, ¬ A.inside c → c ≠ A.start + tail + 1 := by
    rintro c hc rfl
    exact hc ⟨by omega, by omega⟩
  refine h.moved rfl rfl rfl rfl rfl (by simp [LogLoc.cleared]) (h.mirror_bwrite _ _)
    (fun c hc => ?_) h.head ⟨⟨⟨?_, hclean.room, by simp, by simp, fun c hc _ => ?_⟩, hrest⟩,
      fun i c hi hc => ?_, fun _ => hroom⟩
  · simp only [LogState.copyToLog, LogState.bwrite, update_of_ne (hne c hc)]
    exact h.view c hc
  · simp only [LogState.copyToLog, LogState.bwrite]
    rw [update_of_ne (by omega)]
    exact hclean.head
  · simp only [LogState.copyToLog, LogState.bwrite, update_of_ne (hne c hc)]
    exact hclean.rest c hc (by simp)
  · change s.lh[i]? = some c at hc
    by_cases hit : i = tail
    · subst hit
      have hbc : b = c := Option.some.inj (hb.symm.trans hc)
      simp only [LogState.copyToLog, LogState.bwrite, update_self, hbc]
      exact h.view c (h.head.home c (List.mem_of_getElem? hc))
    · simp only [LogState.copyToLog, LogState.bwrite]
      rw [update_of_ne (by omega)]
      exact hcopied i c (by omega) hc

/-- **The commit point**: the header reaches the disk, and the current view
becomes the committed one. -/
theorem LogCommitting.header {q : ι} (h : LogCommitting A C V s q) (hloc : s.loc q = .writeHead)
    (hget : s.bget A.start = true) :
    LogCommitting A V V ((s.putHead A).move q (.install 0)) q := by
  have hdisk := h.disk
  rw [hloc] at hdisk
  obtain ⟨⟨hclean, hrest⟩, hcopied, hroom⟩ := hdisk
  have hin : A.inside A.start := LogArea.start_inside (by omega)
  have hne : ∀ c, ¬ A.inside c → c ≠ A.start := by
    rintro c hc rfl
    exact hc hin
  have hlen : s.lh.length < 2 ^ 31 := Nat.lt_trans (h.head.length_lt hin hget) (by decide)
  refine h.moved rfl rfl rfl rfl rfl (by simp [LogLoc.cleared]) (h.mirror_bwrite _ _)
    (fun c hc => ?_) h.head ⟨fun _ _ => rfl, ⟨?_, hroom, h.head.home, fun i c hi => ?_,
      fun c hc hmem => ?_⟩, fun i c hi => absurd hi (Nat.not_lt_zero i)⟩
  · simp only [LogState.putHead, LogState.bwrite, update_of_ne (hne c hc)]
    exact h.view c hc
  · simp only [LogState.putHead, LogState.bwrite, update_self]
    exact readHead_writeHead hlen h.head.word _
  · simp only [LogState.putHead, LogState.bwrite]
    rw [update_of_ne (by omega)]
    exact hcopied i c (List.getElem?_eq_some_iff.mp hi).1 hi
  · simp only [LogState.putHead, LogState.bwrite, update_of_ne (hne c hc)]
    rw [hclean.rest c hc (by simp)]
    exact (hrest c hc hmem).symm

/-- `install_trans`, one block. -/
theorem LogCommitting.installBlock {q : ι} (h : LogCommitting A C V s q) {tail b : Nat}
    (hloc : s.loc q = .install tail) (hb : s.lh[tail]? = some b) :
    LogCommitting A C V ((s.installBlock A tail b).move q (.install (tail + 1))) q := by
  obtain ⟨hsame, hlog, hinst⟩ : CommitPhase A C V s (.install tail) := hloc ▸ h.disk
  have hcache : s.cache (A.start + tail + 1) = s.disk (A.start + tail + 1) :=
    h.mirror _ (hlog.block_inside hb)
  have hdisk : (s.installBlock A tail b).disk =
      update s.disk b (s.disk (A.start + tail + 1)) := by
    simp only [LogState.installBlock, LogState.bwrite, hcache]
  refine h.moved rfl rfl rfl rfl rfl (by simp [LogLoc.cleared]) (h.mirror_bwrite _ _)
    (fun c hc => ?_) h.head ⟨hsame, ?_, ?_⟩
  · simp only [LogState.installBlock, LogState.bwrite]
    by_cases hcb : c = b
    · rw [hcb, update_self, hcache, hlog.logged tail b hb]
      exact (hsame b (h.head.home b (List.mem_of_getElem? hb))).symm
    · rw [update_of_ne hcb]
      exact h.view c hc
  · rw [hdisk]
    exact hlog.install hb
  · rw [hdisk]
    exact hinst.succ hlog hb

/-- The header is erased. -/
theorem LogCommitting.clearHead {q : ι} (h : LogCommitting A C V s q) (hloc : s.loc q = .clearHead) :
    LogCommitting A C V ((s.putHead A).move q .finish) q := by
  obtain ⟨hsame, ⟨hd, hlog⟩, hhome⟩ : CommitPhase A C V s .clearHead := hloc ▸ h.disk
  have hnil : s.lh = [] := h.nil (by rw [hloc]; rfl)
  have hroom := hlog.room
  have hA : 1 ≤ A.size := by omega
  have hne : ∀ c, ¬ A.inside c → c ≠ A.start := by
    rintro c hc rfl
    exact hc (LogArea.start_inside hA)
  refine h.moved rfl rfl rfl rfl rfl (fun _ => hnil) (h.mirror_bwrite _ _) (fun c hc => ?_) h.head
    ⟨hsame, ?_⟩
  · simp only [LogState.putHead, LogState.bwrite, update_of_ne (hne c hc)]
    exact h.view c hc
  · simp only [LogState.putHead, LogState.bwrite, hnil]
    exact Logged.erase hA hhome _

/-- One step of a commit, the header apart. -/
theorem LogCommitting.step {q : ι} (h : LogCommitting A C V s q) {s' : LogState ι}
    (hs : commitStep A s q = some s') : LogCommitting A C V s' q := by
  have hdisk := h.disk
  obtain ⟨hloc, rfl⟩ | ⟨tail, b, hloc, hb, hget, rfl⟩ | ⟨tail, hloc, hnone, rfl⟩ |
    ⟨tail, b, hloc, hb, rfl⟩ | ⟨tail, hloc, hnone, rfl⟩ | ⟨hloc, rfl⟩ := commitStep_cases hs
  · rw [hloc] at hdisk
    split
    · rename_i hnil
      refine h.moved rfl rfl rfl rfl rfl (fun _ => hnil) h.mirror h.view h.head
        ⟨fun b hb => ?_, hdisk.1⟩
      exact hdisk.2 b hb (by rw [hnil]; simp)
    · exact h.moved rfl rfl rfl rfl rfl (by simp [LogLoc.cleared]) h.mirror h.view h.head
        ⟨hdisk, fun i b hi => absurd hi (Nat.not_lt_zero i), fun h0 => absurd rfl h0⟩
  · exact h.copyToLog hloc hb hget
  · rw [hloc] at hdisk
    refine h.moved rfl rfl rfl rfl rfl (by simp [LogLoc.cleared]) h.mirror h.view h.head
      ⟨hdisk.1, fun i b hi hb => ?_, ?_⟩
    · have := List.getElem?_eq_none_iff.mp hnone
      exact hdisk.2.1 i b (by omega) hb
    · rcases Nat.eq_zero_or_pos tail with rfl | hpos
      · have hroom := hdisk.1.1.room
        have hnil := List.getElem?_eq_none_iff.mp hnone
        rw [List.length_nil] at hroom
        exact (Nat.succ_le_succ hnil).trans hroom
      · exact hdisk.2.2 hpos.ne'
  · exact h.installBlock hloc hb
  · rw [hloc] at hdisk
    obtain ⟨hsame, hlog, hinst⟩ := hdisk
    have hroom := hlog.room
    exact h.moved rfl rfl rfl rfl rfl (fun _ => rfl) h.mirror h.view (headerOK_nil (by omega))
      ⟨hsame, ⟨_, hlog⟩, fun b hb => hinst.all hlog hnone hb⟩
  · exact h.clearHead hloc

/-- A commit that is over. -/
theorem LogCommitting.finish {q : ι} (h : LogCommitting A C V s q) (hloc : s.loc q = .finish) :
    LogOpen A C V ({ s with committing := false }.move q .idle) := by
  obtain ⟨hsame, hclean⟩ : CommitPhase A C V s .finish := hloc ▸ h.disk
  refine { h.toCommitting.finish hloc with
    mirror := h.mirror, view := h.view, head := h.head, clean := hclean,
    hand := fun p b hb => ?_, rest := fun b hb _ _ => hsame b hb }
  rw [h.idle_finish p] at hb
  cases hb

omit [DecidableEq ι] in
/-- One step of a recovery. -/
theorem LogBooting.step {r : Recovery} (h : LogBooting A C V s r) {s' : LogState ι}
    (hs : bootStep A s = some s') : LogInv A C V s' := by
  have hdisk := h.disk
  obtain ⟨hboot, rfl⟩ | ⟨tail, b, hboot, hb, rfl⟩ | ⟨tail, hboot, hnone, rfl⟩ | ⟨hboot, rfl⟩ :=
    bootStep_cases hs <;> obtain rfl := Option.some.inj (h.booting.symm.trans hboot)
  · obtain ⟨hd, hlog⟩ := hdisk
    refine .booting (.install 0) { h with
      booting := rfl, nil := fun hr => absurd rfl (hr 0), disk := ⟨?_, ?_⟩ }
    · change Logged A s.disk C (Xv6.readHead (s.cache A.start))
      rw [h.mirror, hlog.head]
      exact hlog
    · exact fun i b hi => absurd hi (Nat.not_lt_zero i)
  · obtain ⟨hlog, hinst⟩ := hdisk
    have hwritten : (s.installBlock A tail b).disk =
        update s.disk b (s.disk (A.start + tail + 1)) := by
      simp only [LogState.installBlock, LogState.bwrite, h.mirror]
    refine .booting (.install (tail + 1)) { h with
      booting := rfl, nil := fun hr => absurd rfl (hr (tail + 1)), mirror := ?_, disk := ?_ }
    · simp only [LogState.installBlock, LogState.bwrite, h.mirror]
    · simp only [hwritten]
      exact ⟨hlog.install hb, hinst.succ hlog hb⟩
  · obtain ⟨hlog, hinst⟩ := hdisk
    exact .booting .clearHead { h with
      booting := rfl, nil := fun _ => rfl,
      disk := ⟨⟨_, hlog⟩, fun b hb => hinst.all hlog hnone hb⟩ }
  · obtain ⟨⟨hd, hlog⟩, hhome⟩ := hdisk
    have hnil : s.lh = [] := h.nil (by simp)
    have hroom := hlog.room
    have hA : 1 ≤ A.size := by omega
    have herase : Logged A (s.putHead A).disk C [] := by
      simp only [LogState.putHead, LogState.bwrite, hnil]
      exact Logged.erase hA hhome _
    have hmirror : (s.putHead A).cache = (s.putHead A).disk := by
      simp only [LogState.putHead, LogState.bwrite, h.mirror]
    refine .opened { h.toBooting.opened with
      mirror := fun b _ => congrFun hmirror b, view := fun b hb => ?_, head := ?_, clean := herase,
      hand := fun p b hb => ?_, rest := fun b hb _ _ => h.view b hb }
    · rw [h.view b hb]
      exact (congrFun hmirror b).trans (herase.rest b hb (by simp))
    · change HeaderOK A s.lh
      rw [hnil]
      exact headerOK_nil hA
    · change (s.loc p).inHand = some b at hb
      rw [h.idle p] at hb
      cases hb

end Operations

/-! ## §5  Runs -/

/-- Blocks outside the log are changed, with numbers that fit into a word. -/
def HomeWrites (A : LogArea) (_ : LogState ι) : LogEvent ι → Prop
  | .modify _ b _ => ¬ A.inside b ∧ b < 2 ^ 32
  | _ => True

/-- Beside that, in a log smaller than the buffer cache no block is noted beyond its
room. -/
def LogFits (A : LogArea) (s : LogState ι) : LogEvent ι → Prop
  | .modify _ b _ => ¬ A.inside b ∧ b < 2 ^ 32
  | .append _ b => A.size < nbuf → (absorb s.lh b).length + 1 ≤ A.size
  | _ => True

instance (A : LogArea) (b : Nat) : Decidable (A.inside b) :=
  inferInstanceAs (Decidable (_ ∧ _))

instance (A : LogArea) (s : LogState ι) : (e : LogEvent ι) → Decidable (HomeWrites A s e)
  | .modify .. => inferInstanceAs (Decidable (_ ∧ _))
  | .beginOp _ | .check .. | .append .. | .endOp _ | .commit _ | .header _ | .finish _ | .crash
  | .boot => isTrue trivial

instance (A : LogArea) (s : LogState ι) : (e : LogEvent ι) → Decidable (LogFits A s e)
  | .modify .. => inferInstanceAs (Decidable (_ ∧ _))
  | .append .. => inferInstanceAs (Decidable (_ → _))
  | .beginOp _ | .check .. | .endOp _ | .commit _ | .header _ | .finish _ | .crash | .boot =>
    isTrue trivial

/-- A header that reaches the disk commits the current view. -/
def nextCommitted (C V : Disk) : LogEvent ι → Disk
  | .header _ => V
  | _ => C

/-- A change is a change of the current view, and a crash loses it. -/
def nextCurrent (C V : Disk) : LogEvent ι → Disk
  | .modify _ b v => update V b v
  | .crash => C
  | _ => V

/-- **Step.** -/
theorem LogInv.step {s s' : LogState ι} {e : LogEvent ι} (h : LogInv A C V s)
    (hs : ((logSystem A).guarded (LogFits A)).step s e s') :
    LogInv A (nextCommitted C V e) (nextCurrent C V e) s' := by
  obtain ⟨hfits, hs⟩ := hs
  change logNext A s e = some s' at hs
  cases e with
  | beginOp p =>
    obtain ⟨hboot, hloc, hcom, -, rfl⟩ := logNext_beginOp hs
    cases h with
    | booting r h =>
      rw [h.booting] at hboot
      cases hboot
    | opened h => exact .opened (h.beginOp hloc)
    | committing q h =>
      rw [h.committing] at hcom
      cases hcom
  | modify p b v =>
    obtain ⟨hloc, rfl⟩ := logNext_modify hs
    exact .opened ((h.opened_of_inOp (p := p) (by rw [hloc]; rfl)).modify hloc hfits.1 hfits.2 v)
  | check p b =>
    obtain ⟨hloc, -, rfl⟩ := logNext_check hs
    exact .opened ((h.opened_of_inOp (p := p) (by rw [hloc]; rfl)).check hloc)
  | append p b =>
    obtain ⟨hloc, rfl⟩ := logNext_append hs
    exact .opened ((h.opened_of_inOp (p := p) (by rw [hloc]; rfl)).append hloc hfits)
  | endOp p =>
    obtain ⟨hloc, hlast⟩ := logNext_endOp hs
    have hopen := h.opened_of_inOp (p := p) (by rw [hloc]; rfl)
    rcases hlast with ⟨hone, rfl⟩ | ⟨hmany, rfl⟩
    · exact .committing p (hopen.lastOp hloc hone)
    · exact .opened (hopen.endOp hloc hmany)
  | commit p =>
    exact .committing p ((h.committing_of_loc (commits_of_commitStep hs)).step hs)
  | header p =>
    obtain ⟨hloc, hget, rfl⟩ := logNext_header hs
    exact .committing p ((h.committing_of_loc (p := p) (by rw [hloc]; rfl)).header hloc hget)
  | finish p =>
    obtain ⟨hloc, rfl⟩ := logNext_finish hs
    exact .opened ((h.committing_of_loc (p := p) (by rw [hloc]; rfl)).finish hloc)
  | crash =>
    cases hs
    exact .booting .readHead { booting_restart s.disk with
      mirror := rfl, view := fun _ _ => rfl, disk := h.recovers }
  | boot =>
    cases h with
    | booting r h => exact h.step hs
    | opened h =>
      obtain ⟨r, hboot⟩ := (LogPhase.opened h.toOpened).booting_of_boot hs
      exact absurd (h.booting.symm.trans hboot.booting) (by simp)
    | committing q h =>
      obtain ⟨r, hboot⟩ := (LogPhase.committing q h.toCommitting).booting_of_boot hs
      exact absurd (h.booting.symm.trans hboot.booting) (by simp)

end Xv6
