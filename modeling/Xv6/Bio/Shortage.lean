import Xv6.Bio.Flat
import Xv6.Kernel.Layout
import Xv6.Log.Phases
import Xv6.Log.Room

/-!
# Buffers for the log and for everybody else

The log and the buffer cache run together here. A process has up to two buffers
in use at a time: `bmap` has the indirect block and one that `balloc` works on,
the rounds of `write_log` and `install_trans` have a log block and its home
block, and everything else has one. Processes come and go through `begin_op`,
`end_op` and the commit; whoever reads a file outside of a transaction just has
buffers. The test of `bget` in `logNext` adds nothing here, as whoever takes such a
step has the buffer.

A block is busy while a process has its buffer in use, and from `log_write` until
`install_trans` has written it home. `bget` finds a buffer as long as the busy
blocks do not take up all of them (`bget_finds_iff`), and there are ways to make
them do so (`bget_shortage`).
-/

namespace Xv6.Buffers

open Transition Function Finset

/-! ## §1  The machine -/

/-- `log.dev`. -/
def logDev : Nat := 1

structure State (ι : Type*) where
  log : LogState ι
  bio : BioState (ι × Fin 2)

/-- `log` are the steps of `log.c` that touch no buffer, `use` those of `bio.c` that
change no data; in the others the two go together. -/
inductive Event (ι : Type*) where
  | log (e : LogEvent ι)
  | use (e : BioEvent (ι × Fin 2))
  | modify (p : ι) (i : Fin 2) (b : Nat) (v : Block)
  | logWrite (p : ι) (i : Fin 2) (b : Nat)
  | bwrite (p : ι) (i : Fin 2) (b : Nat)

section Machine

variable {ι : Type*}

/-- The block that the next step of a commit writes. -/
def commitWrites (A : LogArea) (s : LogState ι) (p : ι) : Option Nat :=
  match s.loc p with
  | .writeLog tail => s.lh[tail]?.map fun _ => A.start + tail + 1
  | .install tail => s.lh[tail]?
  | .writeHead | .clearHead => some A.start
  | _ => none

/-- The block that it copies from. -/
def commitReads (A : LogArea) (s : LogState ι) (p : ι) : Option Nat :=
  match s.loc p with
  | .writeLog tail => s.lh[tail]?
  | .install tail => s.lh[tail]?.map fun _ => A.start + tail + 1
  | _ => none

/-- The first `write_head` is an event of its own. -/
def commitEvent (s : LogState ι) (p : ι) : LogEvent ι :=
  if s.loc p = .writeHead then .header p else .commit p

def apart (A : LogArea) (s : LogState ι) : LogEvent ι → Bool
  | .beginOp _ | .check .. | .endOp _ | .finish _ => true
  | .commit p => (commitWrites A s p).isNone
  | _ => false

def reads {υ : Type*} : BioEvent υ → Bool
  | .bget .. | .acquiresleep _ | .bread _ | .releasesleep _ | .brelse _ => true
  | _ => false

/-- `u` is back from `bread` with this block. -/
def has {υ : Type*} (s : BioState υ) (u : υ) (b : Nat) : Bool :=
  (s.loc u).has.isSome && decide ((s.loc u).id = (logDev, b))

variable [DecidableEq ι]

def next (A : LogArea) (s : State ι) : Event ι → Option (State ι)
  | .log e =>
    if apart A s.log e then do
      let log ← logNext A s.log e
      return ⟨log, s.bio⟩
    else none
  | .use e =>
    if reads e then do
      let bio ← bioNext s.bio e
      return ⟨s.log, bio⟩
    else none
  | .modify p i b v => do
      let log ← logNext A s.log (.modify p b v)
      let bio ← bioNext s.bio (.modify (p, i) (logDev, b) v)
      return ⟨log, bio⟩
  | .logWrite p i b =>
    if has s.bio (p, i) b then do
      let log ← logNext A s.log (.append p b)
      let bio ← bioNext s.bio (.logWrite (p, i))
      return ⟨log, bio⟩
    else none
  | .bwrite p i b =>
    if commitWrites A s.log p = some b ∧
        (commitReads A s.log p).all (has s.bio (p, 1 - i)) then do
      let log ← logNext A s.log (commitEvent s.log p)
      let bio ← bioNext s.bio (.modify (p, i) (logDev, b) (log.cache b))
      let bio ← bioNext bio (.bwrite (p, i))
      return ⟨log, bio⟩
    else none

def system (A : LogArea) : System (State ι) (Event ι) := .ofNext (next A)

/-- Blocks have a device, the log is not used as a file, and the transaction stays
below the capacity of the log. -/
def Proper (A : LogArea) (s : State ι) : Event ι → Prop
  | .use (.bget _ k) => k.1 ≠ 0
  | .modify _ _ b _ => ¬ A.inside b
  | .logWrite _ _ b => (absorb s.log.lh b).length + 1 ≤ A.size
  | _ => True

instance (A : LogArea) (s : State ι) : (e : Event ι) → Decidable (Proper A s e)
  | .use (.bget _ k) => inferInstanceAs (Decidable (k.1 ≠ 0))
  | .modify _ _ b _ => inferInstanceAs (Decidable (¬ A.inside b))
  | .logWrite _ _ b => inferInstanceAs (Decidable ((absorb s.log.lh b).length + 1 ≤ A.size))
  | .use (.acquiresleep _) | .use (.bread _) | .use (.modify ..) | .use (.logWrite _)
  | .use (.bwrite _) | .use (.releasesleep _) | .use (.brelse _) | .log _ | .bwrite .. =>
    isTrue trivial

end Machine

/-! ## §2  Dirty buffers -/

section Dirty

variable {υ : Type*} {s s' : BioState υ} {k : BlockId} {f : BlockId → Block}

/-- Block `k` has a dirty buffer. -/
def Dirty (s : BioState υ) (k : BlockId) : Prop :=
  ∃ c, (s.bufs c).dirty = true ∧ (s.bufs c).id = k

variable [DecidableEq υ]

/-- A buffer that stays dirty or clean, with its block if it is dirty. -/
theorem dirty_put {u : υ} {l : BioLoc} {b : Fin nbuf} {B : Buffer}
    (hd : B.dirty = (s.bufs b).dirty) (hid : B.dirty = true → B.id = (s.bufs b).id) :
    Dirty (s.put u l b B) k ↔ Dirty s k := by
  have hsame : ∀ c, ((s.put u l b B).bufs c).dirty = true ∧ ((s.put u l b B).bufs c).id = k ↔
      (s.bufs c).dirty = true ∧ (s.bufs c).id = k := by
    intro c
    by_cases hcb : c = b
    · simp only [BioState.put, hcb, update_self, ← hd]
      exact and_congr_right fun hdirty => by rw [hid hdirty]
    · simp only [BioState.put, update_of_ne hcb]
  exact exists_congr hsame

/-- Who only reads makes no buffer dirty or clean. -/
theorem dirty_reads {e : BioEvent υ} (h : BioInv f s) (hr : reads e = true)
    (hs : bioNext s e = some s') : Dirty s' k ↔ Dirty s k := by
  cases e with
  | bget u k' =>
    simp only [bioNext] at hs
    split at hs
    · split at hs
      · cases hs
        exact dirty_put rfl fun _ => rfl
      · split at hs
        · rename_i b hb
          cases hs
          exact dirty_put (h.unused_some hb).2.symm fun hd => by cases hd
        · cases hs
    · cases hs
  | bread u =>
    simp only [bioNext] at hs
    split at hs
    · rename_i k' b hloc
      split at hs
      · cases hs
        exact dirty_put rfl fun _ => rfl
      · rename_i hinvalid
        have hclean : (s.bufs b).dirty = false := by
          by_contra hd
          exact hinvalid ((h.bufs b).dirty (by simpa using hd))
        have hlock : (s.bufs b).locked = true := (h.bufs b).owner u (by rw [hloc]; rfl)
        rw [iderw_read hlock (by simpa using hinvalid) hclean] at hs
        cases hs
        exact dirty_put rfl fun _ => rfl
    · cases hs
  | acquiresleep u | releasesleep u =>
    simp only [bioNext] at hs
    (repeat' split at hs) <;> cases hs
    exact dirty_put rfl fun _ => rfl
  | brelse u =>
    simp only [bioNext] at hs
    split at hs
    · split at hs <;> cases hs <;> exact dirty_put (u := u) (l := .idle) rfl fun _ => rfl
    · cases hs
  | modify | logWrite | bwrite => cases hr

theorem dirty_modify {u : υ} {k' : BlockId} {v : Block}
    (hs : bioNext s (.modify u k' v) = some s') :
    (s'.loc u).id = k' ∧ (Dirty s' k ↔ Dirty s k) := by
  simp only [bioNext] at hs
  split at hs
  iterate 2
    split at hs
    · cases hs
      exact ⟨by simp [BioState.put, BioLoc.id], dirty_put rfl fun _ => rfl⟩
    · cases hs
  cases hs

theorem dirty_logWrite {u : υ} (h : BioInv f s) (hs : bioNext s (.logWrite u) = some s') :
    Dirty s' k ↔ k = (s.loc u).id ∨ Dirty s k := by
  have hput : ∀ {b : Fin nbuf}, (s.loc u).has = some b →
      (Dirty (s.put u (.holding (s.loc u).id b) b { s.bufs b with dirty := true }) k ↔
        k = (s.loc u).id ∨ Dirty s k) := by
    intro b hhas
    have hid := h.id_eq (BioLoc.buf_of_owns (BioLoc.owns_of_has hhas))
    constructor
    · rintro ⟨c, hd, hc⟩
      by_cases hcb : c = b
      · simp only [BioState.put, hcb, update_self] at hc
        exact .inl (hc.symm.trans hid)
      · simp only [BioState.put, update_of_ne hcb] at hd hc
        exact .inr ⟨c, hd, hc⟩
    · rintro (rfl | ⟨c, hd, hc⟩)
      · exact ⟨b, by simp [BioState.put], by simpa [BioState.put] using hid⟩
      · by_cases hcb : c = b
        · exact ⟨b, by simp [BioState.put], by simpa [BioState.put, ← hcb] using hc⟩
        · exact ⟨c, by simpa [BioState.put, hcb] using hd, by simpa [BioState.put, hcb] using hc⟩
  simp only [bioNext] at hs
  split at hs
  iterate 2
    rename_i k' b hloc
    cases hs
    have := hput (b := b) (by rw [hloc]; rfl)
    rw [hloc] at this ⊢
    exact this
  cases hs

theorem dirty_bwrite {u : υ} (h : BioInv f s) (hs : bioNext s (.bwrite u) = some s') :
    Dirty s' k ↔ Dirty s k ∧ k ≠ (s.loc u).id := by
  have hput : ∀ {b : Fin nbuf} (disk : BlockId → Block), (s.loc u).has = some b →
      (Dirty { s.put u (.holding (s.loc u).id b) b { s.bufs b with dirty := false, valid := true }
        with disk := disk } k ↔ Dirty s k ∧ k ≠ (s.loc u).id) := by
    intro b disk hhas
    have hbuf := BioLoc.buf_of_owns (BioLoc.owns_of_has hhas)
    have hid := h.id_eq hbuf
    constructor
    · rintro ⟨c, hd, hc⟩
      by_cases hcb : c = b
      · simp [BioState.put, hcb] at hd
      · simp only [BioState.put, update_of_ne hcb] at hd hc
        refine ⟨⟨c, hd, hc⟩, fun heq => hcb ?_⟩
        exact (h.unique b c ((h.bufs b).used u hbuf).2 (hid.trans (heq.symm.trans hc.symm))).symm
    · rintro ⟨⟨c, hd, hc⟩, hne⟩
      have hcb : c ≠ b := by
        rintro rfl
        exact hne (hc.symm.trans hid)
      exact ⟨c, by simpa [BioState.put, hcb] using hd, by simpa [BioState.put, hcb] using hc⟩
  simp only [bioNext] at hs
  split at hs
  iterate 2
    rename_i k' b hloc
    have hhas : (s.loc u).has = some b := by rw [hloc]; rfl
    rw [iderw_write (B := { s.bufs b with dirty := true })
      ((h.bufs b).owner u (BioLoc.owns_of_has hhas)) rfl] at hs
    cases hs
    have := hput (update s.disk (s.bufs b).id (s.bufs b).data) hhas
    rw [hloc] at this ⊢
    exact this
  cases hs

end Dirty

/-! ## §3  The blocks that the log pins -/

section Pinned

variable {ι : Type*} [DecidableEq ι] {A : LogArea} {s s' : LogState ι}

/-- The blocks of the header that a process at this place has still to write home. -/
def pins (lh : List Nat) : LogLoc → List Nat
  | .install tail => lh.drop tail
  | _ => lh

/-- Block `b` is in the header, and a commit under way has not written it home. -/
def Pinned (s : LogState ι) (b : Nat) : Prop := b ∈ s.lh ∧ ∀ p, b ∈ pins s.lh (s.loc p)

instance [Fintype ι] (s : LogState ι) (b : Nat) : Decidable (Pinned s b) :=
  inferInstanceAs (Decidable (_ ∧ _))

/-- What holds of the header: a block is in it once, none of them is in the log, and
they fit. -/
structure Header (A : LogArea) (s : LogState ι) : Prop where
  phase : LogPhase s
  booting : s.booting = none
  nodup : s.lh.Nodup
  room : ∀ tail, tail < s.lh.length → tail + 1 < A.size
  outside : ∀ b ∈ s.lh, ¬ A.inside b
  hand : ∀ p b, (s.loc p).inHand = some b → ¬ A.inside b

theorem Header.move (h : Header A s) {s₀ : LogState ι} {p : ι} {l : LogLoc}
    (hphase : LogPhase (s₀.move p l)) (hboot : s₀.booting = s.booting) (hloc : s₀.loc = s.loc)
    (hlh : s₀.lh = s.lh) (hl : ∀ b, l.inHand = some b → ¬ A.inside b) :
    Header A (s₀.move p l) where
  phase := hphase
  booting := hboot.trans h.booting
  nodup := hlh.symm ▸ h.nodup
  room := hlh.symm ▸ h.room
  outside := hlh.symm ▸ h.outside
  hand q b hb := by
    by_cases hq : q = p
    · simp only [LogState.move, hq, update_self] at hb
      exact hl b hb
    · simp only [LogState.move, update_of_ne hq, hloc] at hb
      exact h.hand q b hb

theorem Header.commit (h : Header A s) {p : ι} (hs : commitStep A s p = some s') :
    Header A s' := by
  have hphase := h.phase.step (e := .commit p) hs
  obtain ⟨-, rfl⟩ | ⟨tail, b, -, -, -, rfl⟩ | ⟨tail, -, -, rfl⟩ | ⟨tail, b, -, -, rfl⟩ |
    ⟨tail, -, -, rfl⟩ | ⟨-, rfl⟩ := commitStep_cases hs
  · exact h.move hphase rfl rfl rfl fun b hb => by split at hb <;> cases hb
  · exact h.move hphase rfl rfl rfl fun b hb => by cases hb
  · exact h.move hphase rfl rfl rfl fun b hb => by cases hb
  · exact h.move hphase rfl rfl rfl fun b hb => by cases hb
  · refine ⟨hphase, h.booting, List.nodup_nil, fun tail ht => absurd ht (Nat.not_lt_zero _),
      fun b hb => (nomatch hb), fun q b hb => ?_⟩
    by_cases hq : q = p
    · simp [LogState.move, hq, LogLoc.inHand] at hb
    · exact h.hand q b (by simpa [LogState.move, hq] using hb)
  · exact h.move hphase rfl rfl rfl fun b hb => by cases hb

/-- Steps of the log that touch no buffer. -/
theorem Header.apart {e : LogEvent ι} (h : Header A s) (he : apart A s e = true)
    (hs : logNext A s e = some s') : Header A s' := by
  have hphase := h.phase.step hs
  cases e with
  | beginOp p =>
    obtain ⟨-, -, -, -, rfl⟩ := logNext_beginOp hs
    exact h.move hphase rfl rfl rfl fun b hb => by cases hb
  | check p b =>
    obtain ⟨hloc, -, rfl⟩ := logNext_check hs
    refine h.move hphase rfl rfl rfl fun c hc => ?_
    cases hc
    exact h.hand p b (by rw [hloc]; rfl)
  | endOp p =>
    obtain ⟨-, ⟨-, rfl⟩ | ⟨-, rfl⟩⟩ := logNext_endOp hs <;>
      exact h.move hphase rfl rfl rfl fun b hb => by cases hb
  | commit p => exact h.commit hs
  | finish p =>
    obtain ⟨-, rfl⟩ := logNext_finish hs
    exact h.move hphase rfl rfl rfl fun b hb => by cases hb
  | modify p b v => cases he
  | append p b => cases he
  | header p => cases he
  | crash => cases he
  | boot => cases he

theorem Header.append (h : Header A s) {p : ι} {b : Nat}
    (hs : logNext A s (.append p b) = some s') (hroom : (absorb s.lh b).length + 1 ≤ A.size) :
    Header A s' := by
  have hphase := h.phase.step hs
  obtain ⟨hloc, rfl⟩ := logNext_append hs
  refine ⟨hphase, h.booting, nodup_absorb h.nodup b, fun tail ht => ?_, fun c hc => ?_,
    fun q c hc => ?_⟩
  · change tail < (absorb s.lh b).length at ht
    omega
  · obtain hc | rfl := mem_absorb.mp hc
    · exact h.outside c hc
    · exact h.hand p c (by rw [hloc]; rfl)
  · by_cases hq : q = p
    · simp [LogState.move, hq, LogLoc.inHand] at hc
    · exact h.hand q c (by simpa [LogState.move, hq] using hc)

/-- A process moves on that has to write home what it had to before. -/
theorem pinned_move {s₀ : LogState ι} {p : ι} {l : LogLoc} {b : Nat} (hloc : s₀.loc = s.loc)
    (hlh : s₀.lh = s.lh) (hl : b ∈ pins s.lh l ↔ b ∈ pins s.lh (s.loc p)) :
    Pinned (s₀.move p l) b ↔ Pinned s b := by
  simp only [Pinned, LogState.move, hlh, hloc]
  refine and_congr_right fun _ => forall_congr' fun q => ?_
  by_cases hq : q = p
  · rw [hq, update_self, hl]
  · rw [update_of_ne hq]

/-- Steps of the log that touch no buffer leave the pinned blocks as they are. -/
theorem pinned_apart {e : LogEvent ι} (he : apart A s e = true) (hs : logNext A s e = some s')
    (b : Nat) : Pinned s' b ↔ Pinned s b := by
  cases e with
  | beginOp p =>
    obtain ⟨-, hloc, -, -, rfl⟩ := logNext_beginOp hs
    exact pinned_move rfl rfl (by rw [hloc]; rfl)
  | check p c =>
    obtain ⟨hloc, -, rfl⟩ := logNext_check hs
    exact pinned_move rfl rfl (by rw [hloc]; rfl)
  | endOp p =>
    obtain ⟨hloc, ⟨-, rfl⟩ | ⟨-, rfl⟩⟩ := logNext_endOp hs <;>
      exact pinned_move rfl rfl (by rw [hloc]; rfl)
  | commit p =>
    obtain ⟨hloc, rfl⟩ | ⟨tail, c, hloc, hc, -, rfl⟩ | ⟨tail, hloc, -, rfl⟩ |
      ⟨tail, c, hloc, hc, rfl⟩ | ⟨tail, hloc, hnone, rfl⟩ | ⟨hloc, rfl⟩ := commitStep_cases hs
    · refine pinned_move rfl rfl ?_
      rw [hloc]
      split <;> rfl
    · simp [Buffers.apart, commitWrites, hloc, hc] at he
    · exact pinned_move rfl rfl (by rw [hloc]; rfl)
    · simp [Buffers.apart, commitWrites, hloc, hc] at he
    · -- everything is written home
      have hdone : s.lh.drop tail = [] :=
        List.drop_eq_nil_of_le (List.getElem?_eq_none_iff.mp hnone)
      refine iff_of_false (fun hb => nomatch hb.1) fun hb => ?_
      have := hb.2 p
      rw [hloc, pins, hdone] at this
      cases this
    · simp [Buffers.apart, commitWrites, hloc] at he
  | finish p =>
    obtain ⟨hloc, rfl⟩ := logNext_finish hs
    exact pinned_move rfl rfl (by rw [hloc]; rfl)
  | modify p b v => cases he
  | append p b => cases he
  | header p => cases he
  | crash => cases he
  | boot => cases he

/-- `log_write` pins its block. -/
theorem pinned_append (h : Header A s) {p : ι} {b c : Nat}
    (hs : logNext A s (.append p b) = some s') : Pinned s' c ↔ c = b ∨ Pinned s c := by
  obtain ⟨hloc, rfl⟩ := logNext_append hs
  have hopen := h.phase.opened_of_inOp (p := p) (by rw [hloc]; rfl)
  -- nobody commits
  have hpins : ∀ q lh, pins lh (s.loc q) = lh := by
    intro q lh
    obtain hq | hq := hopen.quiet q
    · rw [hq]
      rfl
    · cases hl : s.loc q <;> first | rfl | (rw [hl] at hq; cases hq)
  have hall : ∀ q lh, pins lh (update s.loc p .op q) = lh := by
    intro q lh
    by_cases hq : q = p
    · rw [hq, update_self]
      rfl
    · rw [update_of_ne hq, hpins]
  simp only [Pinned, LogState.move, hall, hpins, mem_absorb]
  tauto

omit [DecidableEq ι] in
/-- A pinned block is not in the log, so the writes to the log do not touch it. -/
theorem Header.inside_ne (h : Header A s) {c : Nat} (hc : c ∈ s.lh) {tail : Nat}
    (htail : tail ≤ s.lh.length) : c ≠ A.start + tail := by
  rintro rfl
  have hpos := List.length_pos_of_mem hc
  have hroom := h.room (s.lh.length - 1) (by omega)
  exact h.outside _ hc ⟨Nat.le_add_right .., by omega⟩

/-- **A step of the commit that writes a block** takes that block from the pinned
ones, if it is one of them. -/
theorem pinned_commit (h : Header A s) {p : ι} {b c : Nat} (hb : commitWrites A s p = some b)
    (hs : logNext A s (commitEvent s p) = some s') : Pinned s' c ↔ Pinned s c ∧ c ≠ b := by
  cases hloc : s.loc p with
  | writeHead =>
    simp only [commitWrites, hloc, Option.some.injEq] at hb
    rw [commitEvent, if_pos hloc] at hs
    obtain ⟨-, -, rfl⟩ := logNext_header hs
    refine (pinned_move (s := s) rfl rfl (by rw [hloc]; rfl)).trans ?_
    exact (and_iff_left_of_imp fun hc => hb ▸ h.inside_ne hc.1 (Nat.zero_le _)).symm
  | clearHead =>
    have hnil := (h.phase.committing_of_loc (p := p) (by rw [hloc]; rfl)).nil (by rw [hloc]; rfl)
    rw [commitEvent, if_neg (by rw [hloc]; simp)] at hs
    change commitStep A s p = some s' at hs
    simp only [commitStep, hloc, Option.some.injEq] at hs
    subst hs
    refine (pinned_move (s := s) rfl rfl (by rw [hloc]; rfl)).trans ?_
    refine (and_iff_left_of_imp fun hc => ?_).symm
    have := hc.1
    rw [hnil] at this
    cases this
  | writeLog tail =>
    rw [commitEvent, if_neg (by rw [hloc]; simp)] at hs
    change commitStep A s p = some s' at hs
    simp only [commitWrites, hloc, Option.map_eq_some_iff] at hb
    obtain ⟨x, hx, rfl⟩ := hb
    simp only [commitStep, hloc, hx] at hs
    obtain ⟨-, ⟨⟩⟩ := Option.ite_none_right_eq_some.mp hs
    refine (pinned_move (s := s) rfl rfl (by rw [hloc]; rfl)).trans ?_
    refine (and_iff_left_of_imp fun hc => ?_).symm
    have htail : tail + 1 ≤ s.lh.length := (List.getElem?_eq_some_iff.mp hx).1
    exact h.inside_ne hc.1 htail
  | install tail =>
    rw [commitEvent, if_neg (by rw [hloc]; simp)] at hs
    change commitStep A s p = some s' at hs
    simp only [commitWrites, hloc] at hb
    simp only [commitStep, hloc, hb, Option.some.injEq] at hs
    subst hs
    obtain ⟨hlt, hget⟩ := List.getElem?_eq_some_iff.mp hb
    have hdrop : s.lh.drop tail = b :: s.lh.drop (tail + 1) := by
      rw [List.drop_eq_getElem_cons hlt, hget]
    have hnodup := (List.drop_sublist tail s.lh).nodup h.nodup
    rw [hdrop, List.nodup_cons] at hnodup
    have hp : c ∈ pins s.lh (.install (tail + 1)) ↔ c ∈ pins s.lh (s.loc p) ∧ c ≠ b := by
      rw [hloc, pins, pins, hdrop, List.mem_cons]
      constructor
      · intro hc
        exact ⟨.inr hc, fun heq => hnodup.1 (heq ▸ hc)⟩
      · rintro ⟨hc, hne⟩
        exact hc.resolve_left hne
    constructor
    · intro hc
      have hhere := hc.2 p
      simp only [LogState.move, update_self] at hhere
      refine ⟨⟨hc.1, fun q => ?_⟩, (hp.mp hhere).2⟩
      by_cases hq : q = p
      · rw [hq]
        exact (hp.mp hhere).1
      · have := hc.2 q
        simp only [LogState.move, update_of_ne hq] at this
        exact this
    · rintro ⟨hc, hne⟩
      refine ⟨hc.1, fun q => ?_⟩
      by_cases hq : q = p
      · simp only [LogState.move, hq, update_self]
        exact hp.mpr ⟨hc.2 p, hne⟩
      · simp only [LogState.move, update_of_ne hq]
        exact hc.2 q
  | idle | op | modified x | checked x | commit | finish => simp [commitWrites, hloc] at hb

theorem Header.commitEvent (h : Header A s) {p : ι}
    (hs : logNext A s (commitEvent s p) = some s') : Header A s' := by
  rw [Buffers.commitEvent] at hs
  split at hs
  · have hphase := h.phase.step hs
    obtain ⟨-, -, rfl⟩ := logNext_header hs
    exact h.move hphase rfl rfl rfl fun b hb => by cases hb
  · exact h.commit hs

end Pinned

/-! ## §4  Busy blocks -/

section Busy

variable {ι : Type*} [DecidableEq ι] {A : LogArea} {s s' : State ι}

/-- The dirty buffers are those of the pinned blocks. -/
structure Inv (A : LogArea) (s : State ι) : Prop where
  header : Header A s.log
  bio : ∃ f, BioInv f s.bio
  dirty : ∀ k, Dirty s.bio k ↔ k.1 = logDev ∧ Pinned s.log k.2

/-- **Step.** -/
theorem Inv.step {e : Event ι} (h : Inv A s) (hs : ((system A).guarded (Proper A)).step s e s') :
    Inv A s' := by
  obtain ⟨hproper, hs⟩ := hs
  change next A s e = some s' at hs
  obtain ⟨f, hbio⟩ := h.bio
  cases e with
  | log e =>
    simp only [next] at hs
    split at hs
    · rename_i he
      obtain ⟨log, hlog, hs⟩ := Option.bind_eq_some_iff.mp hs
      cases hs
      exact ⟨h.header.apart he hlog, ⟨f, hbio⟩,
        fun k => (h.dirty k).trans (and_congr_right fun _ => (pinned_apart he hlog _).symm)⟩
    · cases hs
  | use e =>
    simp only [next] at hs
    split at hs
    · rename_i hr
      obtain ⟨bio, hstep, hs⟩ := Option.bind_eq_some_iff.mp hs
      cases hs
      have hdev : RealDev s.bio e := by
        cases e <;> exact hproper
      exact ⟨h.header, ⟨_, hbio.step ⟨hdev, hstep⟩⟩,
        fun k => (dirty_reads hbio hr hstep).trans (h.dirty k)⟩
    · cases hs
  | modify p i b v =>
    simp only [next] at hs
    obtain ⟨log, hlog, hs⟩ := Option.bind_eq_some_iff.mp hs
    obtain ⟨bio, hstep, hs⟩ := Option.bind_eq_some_iff.mp hs
    cases hs
    have hphase := h.header.phase.step hlog
    obtain ⟨hloc, rfl⟩ := logNext_modify hlog
    refine ⟨h.header.move hphase rfl rfl rfl fun c hc => ?_,
      ⟨_, hbio.step (e := .modify (p, i) (logDev, b) v) ⟨trivial, hstep⟩⟩, fun k => ?_⟩
    · cases hc
      exact hproper
    · rw [(dirty_modify hstep).2, h.dirty k]
      exact and_congr_right fun _ => (pinned_move rfl rfl (by rw [hloc]; rfl)).symm
  | logWrite p i b =>
    simp only [next] at hs
    split at hs
    · rename_i hhas
      obtain ⟨log, hlog, hs⟩ := Option.bind_eq_some_iff.mp hs
      obtain ⟨bio, hstep, hs⟩ := Option.bind_eq_some_iff.mp hs
      cases hs
      have hid : (s.bio.loc (p, i)).id = (logDev, b) := by
        rw [has, Bool.and_eq_true, decide_eq_true_eq] at hhas
        exact hhas.2
      refine ⟨h.header.append hlog hproper,
        ⟨_, hbio.step (e := .logWrite (p, i)) ⟨trivial, hstep⟩⟩, fun k => ?_⟩
      rw [dirty_logWrite hbio hstep, h.dirty k, pinned_append h.header hlog, hid, Prod.ext_iff]
      tauto
    · cases hs
  | bwrite p i b =>
    simp only [next] at hs
    split at hs
    · rename_i hcond
      obtain ⟨log, hlog, hs⟩ := Option.bind_eq_some_iff.mp hs
      obtain ⟨bio₁, hstep₁, hs⟩ := Option.bind_eq_some_iff.mp hs
      obtain ⟨bio₂, hstep₂, hs⟩ := Option.bind_eq_some_iff.mp hs
      cases hs
      have hbio₁ := hbio.step (e := .modify (p, i) (logDev, b) (log.cache b)) ⟨trivial, hstep₁⟩
      refine ⟨h.header.commitEvent hlog, ⟨_, hbio₁.step (e := .bwrite (p, i)) ⟨trivial, hstep₂⟩⟩,
        fun k => ?_⟩
      rw [dirty_bwrite hbio₁ hstep₂, (dirty_modify hstep₁ (k := k)).2,
        (dirty_modify hstep₁ (k := k)).1, h.dirty k, pinned_commit h.header hcond.1 hlog,
        Ne, Prod.ext_iff]
      tauto
    · cases hs

/-- After boot the log is empty and no buffer is dirty. -/
structure Booted (s : State ι) : Prop where
  booting : s.log.booting = none
  committing : s.log.committing = false
  outstanding : s.log.outstanding = 0
  lh : s.log.lh = []
  idle : ∀ p, s.log.loc p = .idle
  bio : ∃ f, BioInv f s.bio
  clean : ∀ b, (s.bio.bufs b).dirty = false

omit [DecidableEq ι] in
theorem Booted.inv (h : Booted s) : Inv A s := by
  have hphase : LogPhase s.log := .opened ⟨h.booting, h.committing, fun p => .inl (h.idle p),
    ⟨∅, fun p => by simp [h.idle p, LogLoc.inOp], h.outstanding.symm⟩, fun _ => h.lh⟩
  refine ⟨⟨hphase, h.booting, by simp [h.lh], by simp [h.lh], by simp [h.lh], fun p b hb => ?_⟩,
    h.bio, fun k => iff_of_false ?_ ?_⟩
  · rw [h.idle p] at hb
    cases hb
  · rintro ⟨c, hd, -⟩
    rw [h.clean c] at hd
    cases hd
  · rintro ⟨-, hmem, -⟩
    rw [h.lh] at hmem
    cases hmem

/-- `panic("bget: no buffers")`: both loops of `bget` come to their end. -/
def NoBuffers {υ : Type*} (s : BioState υ) (k : BlockId) : Prop :=
  s.cached k = none ∧ s.unused = none

instance {υ : Type*} (s : BioState υ) (k : BlockId) : Decidable (NoBuffers s k) :=
  inferInstanceAs (Decidable (_ ∧ _))

variable [Fintype ι]

/-- The blocks that processes have buffers of, between `bget` and `brelse`. -/
def inUse (s : BioState (ι × Fin 2)) : Finset BlockId :=
  (univ.filter fun u => s.loc u ≠ .idle).image fun u => (s.loc u).id

/-- The blocks in use, and those that the log pins. -/
def busy (s : State ι) : Finset BlockId :=
  inUse s.bio ∪ (s.log.lh.toFinset.filter (Pinned s.log)).image (Prod.mk logDev)

omit [DecidableEq ι] in
theorem mem_inUse {f : BlockId → Block} {s : BioState (ι × Fin 2)} (h : BioInv f s) {k : BlockId} :
    k ∈ inUse s ↔ ∃ b, (s.bufs b).refcnt ≠ 0 ∧ (s.bufs b).id = k := by
  rw [inUse, mem_image]
  constructor
  · rintro ⟨u, hu, rfl⟩
    obtain ⟨b, hb⟩ : ∃ b, (s.loc u).buf = some b := by
      cases hl : s.loc u with
      | idle => exact absurd hl (mem_filter.mp hu).2
      | _ => exact ⟨_, rfl⟩
    exact ⟨b, fun hzero => (h.bufs b).not_used hzero u hb, h.id_eq hb⟩
  · rintro ⟨b, hb, rfl⟩
    obtain ⟨P, hP, hcard⟩ := (h.bufs b).refs
    obtain ⟨u, hu⟩ := card_pos.mp (Nat.pos_of_ne_zero (hcard ▸ hb))
    have hbuf := (hP u).mp hu
    refine ⟨u, mem_filter.mpr ⟨mem_univ u, fun hidle => ?_⟩, (h.id_eq hbuf).symm⟩
    rw [hidle] at hbuf
    cases hbuf

/-- The buffers that `bget` cannot recycle. -/
def taken {υ : Type*} (s : BioState υ) : Finset (Fin nbuf) :=
  univ.filter fun b => (s.bufs b).refcnt ≠ 0 ∨ (s.bufs b).dirty = true

omit [DecidableEq ι] in
theorem busy_eq_image (h : Inv A s) : busy s = (taken s.bio).image fun b => (s.bio.bufs b).id := by
  obtain ⟨f, hbio⟩ := h.bio
  ext k
  have hpinned : k ∈ (s.log.lh.toFinset.filter (Pinned s.log)).image (Prod.mk logDev) ↔
      Dirty s.bio k := by
    rw [h.dirty k, mem_image]
    constructor
    · rintro ⟨b, hb, rfl⟩
      exact ⟨rfl, (mem_filter.mp hb).2⟩
    · rintro ⟨hdev, hb⟩
      exact ⟨k.2, mem_filter.mpr ⟨List.mem_toFinset.mpr hb.1, hb⟩, Prod.ext hdev.symm rfl⟩
  rw [busy, mem_union, mem_inUse hbio, hpinned, mem_image]
  constructor
  · rintro (⟨b, hb, hid⟩ | ⟨b, hb, hid⟩)
    · exact ⟨b, mem_filter.mpr ⟨mem_univ b, .inl hb⟩, hid⟩
    · exact ⟨b, mem_filter.mpr ⟨mem_univ b, .inr hb⟩, hid⟩
  · rintro ⟨b, hb, hid⟩
    obtain hb | hb := (mem_filter.mp hb).2
    · exact .inl ⟨b, hb, hid⟩
    · exact .inr ⟨b, hb, hid⟩

omit [DecidableEq ι] in
theorem card_busy (h : Inv A s) : (busy s).card = (taken s.bio).card := by
  rw [busy_eq_image h]
  obtain ⟨f, hbio⟩ := h.bio
  refine card_image_of_injOn fun b hb b' _ heq => hbio.unique b b' ?_ heq
  obtain hb | hb := (mem_filter.mp hb).2
  · obtain ⟨P, hP, hcard⟩ := (hbio.bufs b).refs
    obtain ⟨u, hu⟩ := card_pos.mp (Nat.pos_of_ne_zero (hcard ▸ hb))
    exact ((hbio.bufs b).used u ((hP u).mp hu)).2
  · exact (hbio.bufs b).dev ((hbio.bufs b).dirty hb)

omit [DecidableEq ι] [Fintype ι] in
/-- The second loop of `bget` fails. -/
theorem unused_none {υ : Type*} {f : BlockId → Block} {s : BioState υ} (h : BioInv f s)
    (hb : s.unused = none) (b : Fin nbuf) : b ∈ taken s := by
  obtain ⟨xs, hlinked, hall⟩ := h.list
  rw [BioState.unused, hlinked.scan_prev _ (length_of_all hlinked.nodup hall).le] at hb
  have := List.find?_eq_none.mp hb b (by simpa using hall b)
  refine mem_filter.mpr ⟨mem_univ b, ?_⟩
  by_contra hno
  rw [not_or, not_not] at hno
  simp [hno.1, hno.2] at this

/-- **`bget` finds a buffer** just when the block asked for is busy, or fewer than
`NBUF` blocks are. This holds in every state of every run, whichever operations
`begin_op` has let in, wherever a commit is, and whoever reads besides. -/
theorem bget_finds_iff {s₀ : State ι} {es : List (Event ι)} (hboot : Booted s₀)
    (hrun : ((system A).guarded (Proper A)).Run s₀ es s) (k : BlockId) :
    ¬ NoBuffers s.bio k ↔ k ∈ busy s ∨ (busy s).card < nbuf := by
  have h : Inv A s := hrun.invariant (fun _ _ _ h hs => h.step hs) hboot.inv
  obtain ⟨f, hbio⟩ := h.bio
  have hfull : taken s.bio ≠ univ ↔ (busy s).card < nbuf := by
    rw [card_busy h, ← card_lt_iff_ne_univ, Fintype.card_fin]
  constructor
  · intro hfinds
    by_contra hno
    rw [not_or, ← hfull, not_not] at hno
    refine hfinds ⟨?_, ?_⟩
    · cases hc : s.bio.cached k with
      | none => rfl
      | some b =>
        refine absurd ?_ hno.1
        rw [busy_eq_image h, hno.2]
        exact mem_image.mpr ⟨b, mem_univ b, hbio.cached_some hc⟩
    · cases hu : s.bio.unused with
      | none => rfl
      | some b =>
        obtain ⟨hzero, hclean⟩ := hbio.unused_some hu
        have hb : b ∈ taken s.bio := hno.2 ▸ mem_univ b
        obtain hb | hb := (mem_filter.mp hb).2
        · exact absurd hzero hb
        · rw [hclean] at hb
          cases hb
  · rintro (hbusy | hless) ⟨hcached, hunused⟩
    · rw [busy_eq_image h] at hbusy
      obtain ⟨b, -, hid⟩ := mem_image.mp hbusy
      exact hbio.cached_none hcached b hid
    · exact hfull.mpr hless (eq_univ_iff_forall.mpr (unused_none hbio hunused))

end Busy

/-- Sixty-four processes, nothing in the cache, a disk of zeros. -/
def afterBoot : State (Fin 64) where
  log :=
    { disk := fun _ _ => 0, cache := fun _ _ => 0, lh := [], outstanding := 0, committing := false,
      loc := fun _ => .idle, booting := none }
  bio := binit fun _ _ => 0

theorem afterBoot_booted : Booted afterBoot :=
  ⟨rfl, rfl, rfl, rfl, fun _ => rfl, ⟨_, bioInv_binit _⟩, fun _ => rfl⟩

/-- The log as `mkfs` makes it. -/
def area : LogArea := ⟨2, logSize⟩

/-- Each of the first thirty processes reads a file and waits for a block of it. -/
def readers : List (Event (Fin 64)) :=
  (List.finRange 30).map fun (p : Fin 30) =>
    .use (.bget (p.castLE (by decide), 0) (logDev, 100 + p))

/-- Process 0 gets a buffer for block `b`, and gives it back. -/
def takes (i : Fin 2) (b : Nat) : List (Event (Fin 64)) :=
  [.use (.bget (0, i) (logDev, b)), .use (.acquiresleep (0, i)), .use (.bread (0, i))]

def gives (i : Fin 2) : List (Event (Fin 64)) :=
  [.use (.releasesleep (0, i)), .use (.brelse (0, i))]

/-- Process 0 notes block 100 and commits, up to the header; process 1 reads a file. -/
def headerAndReader : List (Event (Fin 64)) :=
  .log (.beginOp 0) :: takes 0 100 ++
    [.modify 0 0 100 ones, .log (.check 0 100), .logWrite 0 0 100] ++ gives 0 ++
    [.log (.endOp 0), .log (.commit 0)] ++ takes 0 3 ++ takes 1 100 ++ [.bwrite 0 0 3] ++
    gives 1 ++ gives 0 ++ [.log (.commit 0)] ++ takes 0 2 ++ [.bwrite 0 0 2] ++
    [.use (.bget (1, 0) (logDev, 101))]

/-- The noted block, the header and the block that is read are busy. -/
theorem bget_finds_header : ∃ s,
    ((system area).guarded (Proper area)).Run afterBoot headerAndReader s ∧ s.log.lh = [100] ∧
      busy s = {(logDev, 100), (logDev, 2), (logDev, 101)} ∧ ¬ NoBuffers s.bio (logDev, 130) := by
  have hend : (headerAndReader.foldlM (System.guardedNext (next area) (Proper area)) afterBoot).map
      (fun s => decide (s.log.lh = [100] ∧
        busy s = {(logDev, 100), (logDev, 2), (logDev, 101)})) = some true := by
    decide +kernel
  obtain ⟨s, hs, hgoal⟩ := Option.map_eq_some_iff.mp hend
  have hrun := System.run_ofNext hs
  obtain ⟨hlh, hbusy⟩ := of_decide_eq_true hgoal
  refine ⟨s, hrun, hlh, hbusy, (bget_finds_iff afterBoot_booted hrun _).mpr (.inr ?_)⟩
  rw [hbusy]
  decide

/-- **One reader too many.** Thirty processes wait for the disk with thirty different
blocks, outside of any transaction. `bget` has no buffer for the next one. -/
theorem bget_shortage : ∃ s,
    ((system area).guarded (Proper area)).Run afterBoot readers s ∧
      (∀ p, s.log.loc p = .idle) ∧ s.bio.loc (30, 0) = .idle ∧ NoBuffers s.bio (logDev, 130) := by
  have hend : (readers.foldlM (System.guardedNext (next area) (Proper area)) afterBoot).map
      (fun s => decide ((∀ p, s.log.loc p = .idle) ∧ s.bio.loc (30, 0) = .idle ∧
        NoBuffers s.bio (logDev, 130))) = some true := by
    decide +kernel
  obtain ⟨s, hs, hgoal⟩ := Option.map_eq_some_iff.mp hend
  exact ⟨s, System.run_ofNext hs, of_decide_eq_true hgoal⟩

end Xv6.Buffers
