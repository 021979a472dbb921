import Xv6.Shm.Attach

/-!
# `shmget` called twice, and with a full table

A second `shmget` finds the page by the record that the first one made. The
record is a copy of `strlen(key)` bytes over whatever the position held, so
it compares equal to the key only if the byte behind the copy is 0; and a
record before it may compare equal too. §1 states that as a condition on the
state before the first call, for every run.

With all slots in use and a new key, `shmget` goes through `exit` with the
table still locked, and `exit` locks it again. §2 states that there is no
state in which this path ends well.
-/

namespace Xv6

open Outcome Transition

variable [Image]

/-! ## §1  The second call -/

/-- Records along any run of the calls that share pages, careful or not. -/
theorem Boot.records_run {s₀ s : Kernel} {es : List Event} (hboot : Boot s₀)
    (hrun : (kernel.guarded fun _ e => e.call.sharesPages = true).Run s₀ es s) : Records s := by
  refine hrun.invariant (I := Records) (fun s e s' h hs => ?_) hboot.records
  obtain ⟨who, call, result⟩ := e
  obtain ⟨hc, hlive, hcall⟩ := hs
  cases call_does hcall with
  | getRefused | remRefused => exact h
  | shmget hkey _ hg => exact h.shmget hkey hg
  | shmrem hkey _ hr => exact h.shmrem hkey hr
  | fork hf => exact h.fork hlive hf
  | exit he => exact h.exit he
  | exec | sbrk | wait => cases hc

variable {key : Buf}

omit [Image] in
/-- A key copied over a record compares equal to it exactly when the byte
behind the copy is 0, or there is none. -/
theorem strncmp_memmove_iff (k : Key) (hkey : IsKey key) :
    strncmp (memmove k key (strlen key)).buf key 16 = 0 ↔
      ∀ h : strlen key < 16, k ⟨strlen key, h⟩ = 0 := by
  obtain ⟨⟨hnul, hnz⟩, -, -⟩ := hkey
  have hcopy : ∀ i, i < 16 → i < strlen key →
      (memmove k key (strlen key)).buf i = key i := by
    intro i hi hlt
    rw [Key.buf_of_lt _ hi, memmove, if_pos hlt]
  have hrest : ∀ h : strlen key < 16,
      (memmove k key (strlen key)).buf (strlen key) = k ⟨strlen key, h⟩ := by
    intro h
    rw [Key.buf_of_lt _ h, memmove, if_neg (Nat.lt_irrefl _)]
  rw [strncmp_eq_zero_iff]
  constructor
  · intro hall h
    rw [← hrest h, hall _ h, hnul]
    intro j hj
    rw [hcopy j (hj.trans h) hj]
    exact hnz j hj
  · intro hend i hi hpre
    rcases Nat.lt_trichotomy i (strlen key) with hlt | rfl | hgt
    · exact hcopy i hi hlt
    · rw [hrest hi, hend hi, hnul]
    · have hlt := hgt.trans hi
      exact absurd ((hrest hlt).trans (hend hlt)) (hpre _ hgt)

omit [Image] in
/-- The first record that compares equal. -/
theorem findRec_eq_some_iff {q : Proc} {y : Fin shmemPages} :
    findRec q key = some y ↔ strncmp (q.pKey y).buf key 16 = 0 ∧
      ∀ z < y, strncmp (q.pKey z).buf key 16 ≠ 0 := by
  rw [findRec, List.find?_eq_some_iff_getElem]
  simp only [decide_eq_true_eq, Bool.not_eq_true', decide_eq_false_iff_not, List.getElem_finRange]
  constructor
  · rintro ⟨hy, i, hi, heq, hbefore⟩
    refine ⟨hy, fun z hz => ?_⟩
    have hzi : (z : Nat) < i := by
      rw [← heq] at hz
      exact hz
    exact hbefore z hzi
  · rintro ⟨hy, hbefore⟩
    refine ⟨hy, y, by simp, rfl, fun j hj => hbefore _ ?_⟩
    exact hj

/-- A call that finds slot and record returns the recorded address and
changes nothing. -/
theorem shmget_found {p : Fin nproc} {s : Kernel} {t y : Fin shmemPages} (hkey : IsKey key)
    (hlock : s.shTable.lock = false) (htable : TableOK s.shTable)
    (ht : strncmp (s.shTable.shmemKey t).buf key 16 = 0) (hy : findRec (s.proc p) key = some y) :
    shmget p key s = .ok (.value ((s.proc p).vmSharedPage y), s) := by
  have hscan := htable.scan_found hkey ht
  have hacq : acquire s = .ok (s.withLock true) := by
    rw [acquire, hlock]
    rfl
  have hrel : release (s.withLock true) = .ok s :=
    congrArg Except.ok (withLock_of_free hlock)
  rcases hsc : scanKeys s.shTable key (List.finRange shmemPages) none with ⟨found, free⟩
  rw [hsc] at hscan
  cases hscan
  rw [shmget, hacq, bind_of_ok, scanKeys_withLock, hsc]
  simp only [withLock_proc, hy, hrel]
  rfl

/-- An immediate second call of `p` returns `a` again, and leaves the table,
the page table and the records of `p` as they are. -/
def SameAgain (s : Kernel) (p : Fin nproc) (key : Buf) (lim : Nat) (a : Int) : Prop :=
  ∃ s', (Call.shmget key lim).run p s = .ok (.value a, s') ∧ s'.shTable = s.shTable ∧
    (s'.proc p).pgdir = (s.proc p).pgdir ∧
    (s'.proc p).phySharedPage = (s.proc p).phySharedPage ∧
    (s'.proc p).vmSharedPage = (s.proc p).vmSharedPage ∧
    (s'.proc p).pKey = (s.proc p).pKey ∧ (s'.proc p).bitmap = (s.proc p).bitmap

/-- Before the first call: a slot and a record of `p` compare equal to the
key; or the record at the first free position of `p` has no byte left of an
older key at `strlen(key)`, and no record before it compares equal. -/
def SecondFinds (s : Kernel) (p : Fin nproc) (key : Buf) : Prop :=
  ((∃ t, strncmp (s.shTable.shmemKey t).buf key 16 = 0) ∧
      ∃ y, strncmp ((s.proc p).pKey y).buf key 16 = 0) ∨
    ∃ pos, findPos (s.proc p) = some pos ∧
      (∀ h : strlen key < 16, (s.proc p).pKey pos ⟨strlen key, h⟩ = 0) ∧
      ∀ y < pos, strncmp ((s.proc p).pKey y).buf key 16 ≠ 0

/-- With a slot for the key, the second call is the first one again exactly
when the first record that compares equal has the address. -/
theorem sameAgain_iff {s : Kernel} {p : Fin nproc} {lim : Nat} {a : Int} {t : Fin shmemPages}
    (hlen : keyLengthOk key lim = true) (hlock : s.shTable.lock = false)
    (htable : TableOK s.shTable) (ht : strncmp (s.shTable.shmemKey t).buf key 16 = 0) :
    SameAgain s p key lim a ↔
      ∃ y, findRec (s.proc p) key = some y ∧ a = (s.proc p).vmSharedPage y := by
  have hkey := isKey_of_keyLengthOk hlen
  constructor
  · rintro ⟨s', hcall, htab, -⟩
    rcases call_does hcall with hno | ⟨-, -, hg⟩
    · rw [hlen] at hno
      cases hno
    · rcases shmget_ok hkey hg with ⟨_, y, -, hy⟩ | ⟨t', pos, pg, m⟩ | ⟨t', pos, f, pg, m₁, m, hno⟩
      · exact ⟨y, hy, rfl⟩
      · -- the page was attached once more, and counted
        have hcount := congrFun (congrArg ShmTable.shmemCounter htab) t'
        simp only [Kernel.setProc_shTable, ShmTable.setCounter_counter, if_true] at hcount
        omega
      · exact absurd ht (hno t)
  · rintro ⟨y, hy, rfl⟩
    refine ⟨s, ?_, rfl, rfl, rfl, rfl, rfl, rfl⟩
    rw [Call.run, sysShmget, if_pos hlen]
    exact shmget_found hkey hlock htable ht hy

omit [Image] in
/-- A page placed at `pos` is found there again, at the address it got. -/
theorem attach_found_iff {q : Proc} {pos : Fin shmemPages} {f : Nat} {pg : PgDir} (hkey : IsKey key)
    (hq : q.RecordsOK) :
    (∃ y, findRec (q.attach pos f key pg) key = some y ∧
        (windowAddr pos : Int) = (q.attach pos f key pg).vmSharedPage y) ↔
      (∀ h : strlen key < 16, q.pKey pos ⟨strlen key, h⟩ = 0) ∧
        ∀ y < pos, strncmp (q.pKey y).buf key 16 ≠ 0 := by
  have hpos : (q.attach pos f key pg).pKey pos = memmove (q.pKey pos) key (strlen key) := by
    simp [Proc.attach]
  have hother : ∀ y, y ≠ pos → (q.attach pos f key pg).pKey y = q.pKey y := by
    intro y hy
    simp [Proc.attach, hy]
  have hrec : findRec (q.attach pos f key pg) key = some pos ↔
      (∀ h : strlen key < 16, q.pKey pos ⟨strlen key, h⟩ = 0) ∧
        ∀ y < pos, strncmp (q.pKey y).buf key 16 ≠ 0 := by
    rw [findRec_eq_some_iff, hpos, strncmp_memmove_iff _ hkey]
    refine and_congr_right fun _ => forall₂_congr fun y hy => ?_
    rw [hother y hy.ne]
  rw [← hrec]
  constructor
  · rintro ⟨y, hy, haddr⟩
    by_cases hyp : y = pos
    · subst hyp
      exact hy
    · -- the address recorded elsewhere is 0 or the one of its own position
      have hvm : (q.attach pos f key pg).vmSharedPage y = q.vmSharedPage y := by
        simp [Proc.attach, hyp]
      rw [hvm, Int.natCast_inj] at haddr
      rcases hq.vm y with h0 | hw
      · exact absurd (haddr.trans h0) (windowAddr_ne_zero pos.isLt)
      · have hpage := congrArg pageOf (haddr.trans hw)
        rw [pageOf_windowAddr pos.isLt, pageOf_windowAddr y.isLt] at hpage
        exact absurd hpage.symm (windowPage_ne hyp)
  · intro hfound
    have hvm : (q.attach pos f key pg).vmSharedPage pos = windowAddr pos := Function.update_self ..
    exact ⟨pos, hfound, by rw [hvm]⟩

/-- **A second `shmget`.** In every state reached, after `shmget` returned an
address, calling it again returns the same address and changes nothing
exactly when the condition on the state before the first call holds. -/
theorem shmget_again_iff {s₀ s s' : Kernel} {es : List Event} {p : Fin nproc} {key : Buf}
    {lim : Nat} {a : Int} (hboot : Boot s₀)
    (hrun : (kernel.guarded fun _ e => e.call.sharesPages = true).Run s₀ es s)
    (hlen : keyLengthOk key lim = true)
    (hget : kernel.step s ⟨p, .shmget key lim, .value a⟩ s') :
    SameAgain s' p key lim a ↔ SecondFinds s p key := by
  have hkey := isKey_of_keyLengthOk hlen
  have hrec := hboot.records_run hrun
  have hlock : s'.shTable.lock = false :=
    hboot.lock_run (hrun.of_guarded.snoc hget)
  have hok := hrec.ok p hget.1
  rcases call_does (p := p) hget.2 with hno | ⟨-, -, hg⟩
  · rw [hlen] at hno
    cases hno
  · have htable := (hrec.sane.shmget hkey hg).table
    rcases shmget_ok hkey hg with ⟨t, y, ht, hy⟩ | ⟨t, pos, pg, m, ht, hnone, -, hpos⟩ |
      ⟨t, pos, f, pg, m₁, m, hno, ht, -, hpos⟩
    · -- the first call had found both: so does the second
      exact ⟨fun _ => .inl ⟨⟨t, ht⟩, y, findRec_some hy⟩,
        fun _ => (sameAgain_iff hlen hlock htable ht).mpr ⟨y, hy, rfl⟩⟩
    · rw [sameAgain_iff hlen hlock htable (t := t) (by simpa using ht), Kernel.setProc_self,
        attach_found_iff hkey hok]
      constructor
      · exact fun h => .inr ⟨pos, hpos, h⟩
      · rintro (⟨-, y, hy⟩ | ⟨pos', hpos', h⟩)
        · exact absurd hy (findRec_none hnone y)
        · rw [hpos] at hpos'
          cases hpos'
          exact h
    · have hnew : strncmp (keyOf key).buf key 16 = 0 :=
        (strncmp_eq_zero_iff_keyOf (keyOf_padded hkey) hkey).mpr rfl
      rw [sameAgain_iff hlen hlock htable (t := t)
          (by simpa [memmove_empty hrec.sane.table ht] using hnew), Kernel.setProc_self,
        attach_found_iff hkey hok]
      constructor
      · exact fun h => .inr ⟨pos, hpos, h⟩
      · rintro (⟨⟨t', ht'⟩, -⟩ | ⟨pos', hpos', h⟩)
        · exact absurd ht' (hno t')
        · rw [hpos] at hpos'
          cases hpos'
          exact h

omit [Image] in
/-- Process 1 asks twice for the key `a`. -/
theorem shmget_again_fresh :
    let s := @stateAfter sampleImage shareCall [(1, .shmget (bufOf [97]) 8)] sampleTwo
    @SameAgain sampleImage s 1 (bufOf [97]) 8 (windowAddr 0) := by
  let _ := sampleImage
  have hboot : Boot sampleTwo := sample_boot _
  exact (shmget_again_iff hboot .nil rfl ⟨rfl, rfl⟩).mpr (.inr ⟨0, rfl, by decide, by decide⟩)

/-- Process 1 attaches and detaches `abcdef`, and as the last holder leaves
the key in its record. -/
def attachLonger : List (Fin nproc × Call) :=
  [(1, .shmget (bufOf [97, 98, 99, 100, 101, 102]) 8),
    (1, .shmrem (bufOf [97, 98, 99, 100, 101, 102]) 8)]

omit [Image] in
/-- Then `xy` is recorded as `xycdef`: the second `shmget` of `xy` does not
find it and attaches the page at another address. -/
theorem shmget_again_other : ¬ ∀ (_ : Image) (s₀ s s' : Kernel) (es : List Event) (p : Fin nproc)
    (key : Buf) (lim : Nat) (a : Int), Boot s₀ →
    (kernel.guarded fun _ e => e.call.sharesPages = true).Run s₀ es s →
    keyLengthOk key lim = true → kernel.step s ⟨p, .shmget key lim, .value a⟩ s' →
    SameAgain s' p key lim a := by
  intro h
  let _ := sampleImage
  have hrun := run_calls (g := shareCall) (fun _ _ hc => hc) attachLonger (s := sampleTwo) rfl
  obtain ⟨s'', hcall, -⟩ := h sampleImage _ _
    (stateAfter shareCall (attachLonger ++ [(1, .shmget (bufOf [120, 121]) 8)]) sampleTwo) _ 1
    (bufOf [120, 121]) 8 (windowAddr 0) (sample_boot _) hrun rfl ⟨rfl, rfl⟩
  have hnext : ∃ s'', (Call.shmget (bufOf [120, 121]) 8).run 1
      (stateAfter shareCall (attachLonger ++ [(1, .shmget (bufOf [120, 121]) 8)]) sampleTwo) =
        .ok (.value (windowAddr 1), s'') := ⟨_, rfl⟩
  obtain ⟨s₂, hnext⟩ := hnext
  rw [hnext] at hcall
  simp only [Except.ok.injEq, Prod.mk.injEq, CallResult.value.injEq] at hcall
  exact absurd hcall.1 (by decide)

/-! ## §2  A new key when all slots are in use -/

/-- All slots of the table are in use. -/
def ShmTable.Full (t : ShmTable) : Prop := ∀ i, t.shmemKey i ≠ zeroKey

def ShmTable.Lacks (t : ShmTable) (key : Buf) : Prop := ∀ i, t.shmemKey i ≠ keyOf key

/-- The call terminates `p` through `exit`: it does not panic, the table is
unlocked, `p` gave up what `exit` gives up, and neither the slots `p` has no
page of nor the pages and records of any other process have changed. -/
def ExitsCleanly (s : Kernel) (p : Fin nproc) (c : Call) : Prop :=
  ∃ s', c.run p s = .ok (.exited, s') ∧ s'.shTable.lock = false ∧ exit p s = .ok s' ∧
    (∀ t, (∀ i, (s.proc p).phySharedPage i ≠ s.shTable.shmemAddr t) →
      s'.shTable.shmemAddr t = s.shTable.shmemAddr t ∧
      s'.shTable.shmemCounter t = s.shTable.shmemCounter t ∧
      s'.shTable.shmemKey t = s.shTable.shmemKey t) ∧
    ∀ q ≠ p, (s'.proc q).pgdir = (s.proc q).pgdir ∧
      (s'.proc q).phySharedPage = (s.proc q).phySharedPage ∧
      (s'.proc q).vmSharedPage = (s.proc q).vmSharedPage ∧
      (s'.proc q).pKey = (s.proc q).pKey ∧ (s'.proc q).bitmap = (s.proc q).bitmap

/-- The panic at which `exit` ends when the table is locked. -/
def lockedExit (s : Kernel) (p : Fin nproc) : Panic :=
  if p = s.initproc then .initExiting else .acquire

theorem exit_error_of_locked {p : Fin nproc} {s : Kernel} (hl : s.shTable.lock = true) :
    exit p s = .error (lockedExit s p) := by
  rw [exit, lockedExit]
  split
  · rfl
  · rw [shmrem, acquire, hl]
    rfl

/-- With a full table and a new key, `shmget` panics. -/
theorem shmget_full {p : Fin nproc} {s : Kernel} (hkey : IsKey key) (hlock : s.shTable.lock = false)
    (htable : TableOK s.shTable) (hfull : s.shTable.Full) (hlacks : s.shTable.Lacks key) :
    shmget p key s = .error (lockedExit s p) := by
  have hscan : scanKeys s.shTable key (List.finRange shmemPages) none = (none, none) := by
    rw [scan_missing s.shTable hkey fun i hi =>
      hlacks i ((strncmp_eq_zero_iff_keyOf (htable.padded i) hkey).mp hi)]
    refine congrArg (Prod.mk none) (List.find?_eq_none.mpr fun i _ hi => ?_)
    exact hfull i ((htable.padded i).eq_zero_iff.mp (of_decide_eq_true hi))
  have hacq : acquire s = .ok (s.withLock true) := by
    rw [acquire, hlock]
    rfl
  rw [shmget, hacq, bind_of_ok, scanKeys_withLock, hscan]
  simp only [exit_error_of_locked (s := s.withLock true) rfl]
  rfl

theorem Boot.shmget_full {s₀ s : Kernel} {es : List Event} {lim : Nat} (p : Fin nproc)
    (hboot : Boot s₀) (hrun : kernel.Run s₀ es s) (hlen : keyLengthOk key lim = true)
    (hfull : s.shTable.Full) (hlacks : s.shTable.Lacks key) :
    (Call.shmget key lim).run p s = .error (lockedExit s p) := by
  rw [Call.run, sysShmget, if_pos hlen]
  exact Xv6.shmget_full (isKey_of_keyLengthOk hlen) (hboot.lock_run hrun)
    (Sane.run hrun hboot.sane).table hfull hlacks

/-- **`shmget` with a full table.** In every state reached, the calls that
are to terminate their process cleanly do so exactly when there are none: if
all slots are in use and the key is new, the kernel panics. -/
theorem shmget_full_iff {s₀ s : Kernel} {es : List Event} {p : Fin nproc} {key : Buf}
    {lim : Nat} (hboot : Boot s₀) (hrun : kernel.Run s₀ es s)
    (hlen : keyLengthOk key lim = true) :
    ((s.shTable.Full → s.shTable.Lacks key → ExitsCleanly s p (.shmget key lim)) ↔
        (∃ i, s.shTable.shmemKey i = zeroKey) ∨ ∃ i, s.shTable.shmemKey i = keyOf key) ∧
      (s.shTable.Full → s.shTable.Lacks key →
        (Call.shmget key lim).run p s = .error (lockedExit s p)) := by
  have hpanic := hboot.shmget_full p hrun hlen
  refine ⟨⟨fun hclean => ?_, fun hroom hfull hlacks => ?_⟩, hpanic⟩
  · by_contra hno
    obtain ⟨hfull, hlacks⟩ := not_or.mp hno
    rw [not_exists] at hfull hlacks
    obtain ⟨s', hcall, -⟩ := hclean hfull hlacks
    rw [hpanic hfull hlacks] at hcall
    cases hcall
  · rcases hroom with ⟨i, hi⟩ | ⟨i, hi⟩
    · exact absurd hi (hfull i)
    · exact absurd hi (hlacks i)

/-- Process 1 attaches 32 pages. -/
def fillTable : List (Fin nproc × Call) :=
  (List.range shmemPages).map fun i => (1, .shmget (bufOf [97, UInt8.ofNat (65 + i)]) 8)

omit [Image]

/-- All calls return, and process 2 can still make one. -/
theorem fillTable_runs : (@runCalls sampleImage anyCall fillTable sampleTwo).isSome = true ∧
    ((@stateAfter sampleImage anyCall fillTable sampleTwo).proc 2).state.live = true := by
  decide +kernel

theorem fillTable_full : (@stateAfter sampleImage anyCall fillTable sampleTwo).shTable.Full ∧
    (@stateAfter sampleImage anyCall fillTable sampleTwo).shTable.Lacks (bufOf [98]) := by
  have hfirst : ∀ i,
      (@stateAfter sampleImage anyCall fillTable sampleTwo).shTable.shmemKey i 0 = 97 := by
    decide +kernel
  constructor
  · intro i hi
    have := hfirst i
    rw [hi] at this
    exact absurd this (by decide)
  · intro i hi
    have := hfirst i
    rw [hi] at this
    exact absurd this (by decide)

theorem fillTable_run : (@kernel sampleImage).Run sampleTwo
    (@eventsOf sampleImage anyCall fillTable sampleTwo)
    (@stateAfter sampleImage anyCall fillTable sampleTwo) := by
  let _ := sampleImage
  exact (run_calls (G := fun _ _ => True) (fun _ _ _ => trivial) fillTable
    fillTable_runs.1).of_guarded

/-- Process 2 asks for a 33rd key. -/
theorem shmget_full_next : @Call.run sampleImage (.shmget (bufOf [98]) 8) 2
    (@stateAfter sampleImage anyCall fillTable sampleTwo) =
      .error (lockedExit (@stateAfter sampleImage anyCall fillTable sampleTwo) 2) := by
  let _ := sampleImage
  have hboot : Boot sampleTwo := sample_boot _
  exact (shmget_full_iff hboot fillTable_run rfl).2 fillTable_full.1 fillTable_full.2

theorem shmget_full_panics : ¬ ∀ (_ : Image) (s₀ s : Kernel) (es : List Event) (p : Fin nproc)
    (key : Buf) (lim : Nat), Boot s₀ → kernel.Run s₀ es s → (s.proc p).state.live = true →
    keyLengthOk key lim = true → s.shTable.Full → s.shTable.Lacks key →
    ExitsCleanly s p (.shmget key lim) := by
  intro h
  let _ := sampleImage
  obtain ⟨hfull, hlacks⟩ := fillTable_full
  have hboot : Boot sampleTwo := sample_boot _
  have hlen : keyLengthOk (bufOf [98]) 8 = true := rfl
  obtain ⟨s', hcall, -⟩ := h sampleImage _ _ _ 2 _ 8 hboot fillTable_run fillTable_runs.2 hlen
    hfull hlacks
  rw [hboot.shmget_full 2 fillTable_run hlen hfull hlacks] at hcall
  cases hcall

end Xv6
