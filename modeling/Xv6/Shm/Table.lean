import Xv6.Kernel.Boot

/-!
# The shared-page table over all runs

Whatever the processes do, the table stays well formed: a slot is empty in
all its fields or in none, keys are unique, and a used slot has a positive
counter. The invariant needs nothing from the processes' own records, so it
survives every misuse of them; what it needs from the allocator is that
`kalloc` never hands out address 0, which the check in `kfree` ensures.

`shmget`'s scan mixes two searches in one loop. On a well-formed table it
finds the slot of the key if there is one, and the first hole otherwise.
-/

namespace Xv6

open Outcome Transition

variable [Image]

/-! ## §1  Well-formed tables -/

structure TableOK (t : ShmTable) : Prop where
  padded : ∀ i, Padded (t.shmemKey i)
  empty : ∀ i, t.shmemKey i = zeroKey ↔ t.shmemAddr i = 0
  distinct : ∀ i j, t.shmemKey i = t.shmemKey j → t.shmemKey i ≠ zeroKey → i = j
  nonneg : ∀ i, 0 ≤ t.shmemCounter i
  pos : ∀ i, t.shmemKey i ≠ zeroKey → 1 ≤ t.shmemCounter i
  bound : ∀ i, t.shmemAddr i < 2 ^ 32

omit [Image] in
/-- Raising counters keeps a table well formed. -/
theorem TableOK.mono {t t' : ShmTable} (h : TableOK t) (hkey : t'.shmemKey = t.shmemKey)
    (haddr : t'.shmemAddr = t.shmemAddr)
    (hcount : ∀ i, t.shmemCounter i ≤ t'.shmemCounter i) : TableOK t' where
  padded i := by rw [hkey]; exact h.padded i
  empty i := by rw [hkey, haddr]; exact h.empty i
  distinct i j := by rw [hkey]; exact h.distinct i j
  nonneg i := (h.nonneg i).trans (hcount i)
  pos i := by rw [hkey]; exact fun hk => (h.pos i hk).trans (hcount i)
  bound i := by rw [haddr]; exact h.bound i

/-- A hold given up empties the slot or leaves a positive counter. -/
theorem TableOK.giveUp {t t' : ShmTable} {m m' : Mem} {y : Fin shmemPages} (h : TableOK t)
    (hg : GiveUp t m y t' m') : TableOK t' := by
  cases hg with
  | last hone hframe hl =>
    refine ⟨fun i => ?_, fun i => ?_, fun i j => ?_, fun i => ?_, fun i => ?_, fun i => ?_⟩
    · by_cases hi : i = y
      · simp [hi, zeroKey_padded]
      · simpa [hi] using h.padded i
    · by_cases hi : i = y
      · simp [hi]
      · simpa [hi] using h.empty i
    · by_cases hi : i = y
      · simp [hi]
      · by_cases hj : j = y
        · simp [hi, hj]
        · simpa [hi, hj] using h.distinct i j
    · by_cases hi : i = y
      · simp [hi]
      · simpa [hi] using h.nonneg i
    · by_cases hi : i = y
      · simp [hi]
      · simpa [hi] using h.pos i
    · by_cases hi : i = y
      · simp [hi]
      · simpa [hi] using h.bound i
  | other hgt hl =>
    refine ⟨h.padded, h.empty, h.distinct, fun i => ?_, fun i hk => ?_, h.bound⟩
    · by_cases hi : i = y
      · simp only [hi, ShmTable.setCounter_counter, if_true]
        omega
      · simpa [hi] using h.nonneg i
    · by_cases hi : i = y
      · simp only [hi, ShmTable.setCounter_counter, if_true]
        omega
      · simpa [hi] using h.pos i hk

omit [Image] in
/-- Copying a key into an empty slot. -/
theorem memmove_empty {t : ShmTable} (h : TableOK t) {i : Fin shmemPages}
    (hi : t.shmemKey i 0 = 0) (key : Buf) :
    memmove (t.shmemKey i) key (strlen key) = keyOf key := by
  rw [(h.padded i).eq_zero_iff.mp hi, keyOf]

variable {key : Buf}

omit [Image] in
/-- A new page in a free slot, under a key no slot has. -/
theorem TableOK.new {t : ShmTable} (h : TableOK t) {i : Fin shmemPages} {f : Nat} (hkey : IsKey key)
    (hi : t.shmemKey i 0 = 0) (hf : f ≠ 0) (hlt : f < 2 ^ 32)
    (hno : ∀ j, strncmp (t.shmemKey j).buf key 16 ≠ 0) :
    TableOK (((t.setAddr i f).setCounter i (t.shmemCounter i + 1)).setKey i
      (memmove (t.shmemKey i) key (strlen key))) := by
  have hne : ∀ j, t.shmemKey j ≠ keyOf key := fun j hj =>
    hno j ((strncmp_eq_zero_iff_keyOf (h.padded j) hkey).mpr hj)
  have hnz : keyOf key ≠ zeroKey := fun hz =>
    keyOf_zero_ne hkey ((keyOf_padded hkey).eq_zero_iff.mpr hz)
  rw [memmove_empty h hi]
  refine ⟨fun j => ?_, fun j => ?_, fun j k => ?_, fun j => ?_, fun j => ?_, fun j => ?_⟩
  · by_cases hj : j = i
    · simp [hj, keyOf_padded hkey]
    · simpa [hj] using h.padded j
  · by_cases hj : j = i
    · simp [hj, hnz, hf]
    · simpa [hj] using h.empty j
  · by_cases hj : j = i
    · by_cases hk : k = i
      · simp [hj, hk]
      · simp only [hj, ShmTable.setKey_key, if_true, hk, if_false]
        exact fun heq => absurd heq.symm (hne k)
    · by_cases hk : k = i
      · simp only [hk, ShmTable.setKey_key, if_true, hj, if_false]
        exact fun heq => absurd heq (hne j)
      · simpa [hj, hk] using h.distinct j k
  · have := h.nonneg i
    by_cases hj : j = i
    · simp only [hj, ShmTable.setKey_counter, ShmTable.setCounter_counter, if_true]
      omega
    · simpa [hj] using h.nonneg j
  · have := h.nonneg i
    by_cases hj : j = i
    · simp only [hj, ShmTable.setKey_counter, ShmTable.setCounter_counter, if_true]
      omega
    · simpa [hj] using h.pos j
  · by_cases hj : j = i
    · simpa [hj] using hlt
    · simpa [hj] using h.bound j

/-! ## §2  Every call keeps the table well formed -/

/-- The invariant of all runs: a well-formed table, real frames on the free
list, and sizes below `kernBase`. -/
structure Sane (s : Kernel) : Prop where
  free : FreelistOK s.mem
  table : TableOK s.shTable
  size : ∀ p, (s.proc p).sz < kernBase

variable {s s' : Kernel} {p : Fin nproc}

omit [Image] in
/-- Sizes when one process changes. -/
theorem size_setProc {q : Proc} (h : ∀ p', (s.proc p').sz < kernBase) (hq : q.sz < kernBase)
    (p' : Fin nproc) :
    ((s.setProc p q).proc p').sz < kernBase := by
  by_cases hp : p' = p
  · subst hp
    simpa using hq
  · rw [Kernel.setProc_ne hp]
    exact h p'

theorem Sane.withLock (h : Sane s) (b : Bool) : Sane (s.withLock b) :=
  ⟨h.free, h.table.mono rfl rfl fun _ => Int.le_refl _, h.size⟩

theorem Sane.detachAt {i y : Fin shmemPages} (h : Sane s) (hd : detachAt p i y s = .ok s') :
    Sane s' := by
  rcases detachAt_ok hd with ⟨rfl, -⟩ | ⟨pg, t, m, -, hgive, -, rfl⟩
  · exact h
  · exact ⟨hgive.freelistOK h.free, h.table.giveUp hgive, size_setProc h.size (h.size p)⟩

omit [Image] in
/-- A slot that compares equal to a key holds it, and has a positive
counter. -/
theorem TableOK.match_pos {t : ShmTable} (h : TableOK t) {i : Fin shmemPages} (hkey : IsKey key)
    (hm : strncmp (t.shmemKey i).buf key 16 = 0) :
    t.shmemKey i = keyOf key ∧ 1 ≤ t.shmemCounter i := by
  have heq := (strncmp_eq_zero_iff_keyOf (h.padded i) hkey).mp hm
  refine ⟨heq, h.pos i fun hz => ?_⟩
  exact keyOf_zero_ne hkey ((keyOf_padded hkey).eq_zero_iff.mpr (heq.symm.trans hz))

theorem Sane.shmrem {r : Int} (h : Sane s) (hkey : IsKey key) (hr : shmrem p key s = .ok (r, s')) :
    Sane s' := by
  obtain
    ⟨-, ⟨-, -, s₁, hall, rfl⟩ | ⟨-, -, -, rfl⟩ | ⟨-, i, y, s₁, hfind, hdet, rfl⟩⟩ := shmrem_ok hr
  · have h₁ := detachAll_inv (I := Sane) (fun _ _ _ _ hs _ hd => hs.detachAt hd)
      (h.withLock true) hall
    exact h₁.withLock false
  · exact h
  · have hpos := (h.table.match_pos hkey (findDetach_some hfind).1).2
    obtain ⟨pg, t, m, k, hgive, -, -, rfl⟩ := detachKey_ok (s := s.withLock true) hpos hdet
    have h₁ := h.withLock true
    refine Sane.withLock ?_ false
    exact ⟨hgive.freelistOK h₁.free, h₁.table.giveUp hgive, size_setProc h₁.size (h₁.size p)⟩

/-- The literal passed by `exit` is a key like any other. -/
theorem exitLit_isKey : IsKey Image.exitLit := by
  obtain ⟨h0, h1, h2⟩ := Image.exitLit_eq
  refine IsStr.isKey (n := 2) ⟨h2, fun i hi => ?_⟩ (by decide) (by decide)
  rcases i with _ | _ | i
  · rw [h0]; decide
  · rw [h1]; decide
  · omega

theorem Sane.exit (h : Sane s) (he : exit p s = .ok s') :
    Sane s' := by
  obtain ⟨-, r, s₁, hrem, rfl⟩ := exit_ok he
  have h₁ := h.shmrem exitLit_isKey hrem
  refine ⟨h₁.free, h₁.table, fun q => ?_⟩
  obtain ⟨par, hq⟩ := becomeZombie_proc p q s₁
  rw [hq]
  exact h₁.size q

variable {r : CallResult}

theorem Sane.shmget (h : Sane s) (hkey : IsKey key) (hg : shmget p key s = .ok (r, s')) :
    Sane s' := by
  rcases shmget_ok hkey hg with _ | ⟨t, pos, pg, m, -, -, -, -, hmap⟩ |
    ⟨t, pos, f, pg, m₁, m, hno, ht, hl, -, hmap⟩
  · exact h
  · refine ⟨hmap.grew.freelistOK h.free, h.table.mono rfl rfl fun i => ?_,
      size_setProc h.size (h.size p)⟩
    by_cases hi : i = t <;> simp [hi]
  · have hf : IsFrame f := h.free f (by simp [hl])
    have hm₁ : FreelistOK m₁ := fun g hgm => h.free g (by rw [hl]; exact List.mem_cons_of_mem _ hgm)
    exact ⟨hmap.grew.freelistOK hm₁, h.table.new hkey ht hf.ne_zero hf.1 hno,
      size_setProc h.size (h.size p)⟩

/-- `manage_fork` only raises counters. -/
theorem Sane.inherited {c : Fin nproc} {is : List (Fin shmemPages)} (h : Sane s)
    (hi : Inherited p c is s s') : Sane s' where
  free := hi.grew.freelistOK h.free
  table := h.table.mono hi.key hi.addr hi.counter_le
  size q := by
    by_cases hq : q = c
    · rw [hq, hi.rest.1]
      exact h.size c
    · rw [hi.others q hq]
      exact h.size q

theorem Sane.quiet (h : Sane s) (hq : Quiet s s') : Sane s' where
  free := hq.freelistOK h.free
  table := hq.table ▸ h.table
  size q := by
    rcases hq.proc q with heq | ⟨-, -, heq⟩
    · rw [heq]
      exact h.size q
    · rw [heq]
      exact h.size q

theorem Sane.fork (h : Sane s) (hlive : s.Live p) (hf : fork p s = .ok (r, s')) :
    Sane s' := by
  rcases fork_ok hlive (h.size p).le h.free hf with
    ⟨-, hq⟩ | ⟨np, k, m₁, d, m₂, -, -, hl, hcopy, hend⟩
  · exact h.quiet hq
  · have hm₁ : FreelistOK m₁ := fun f hf => h.free f (by rw [hl]; exact List.mem_cons_of_mem _ hf)
    obtain ⟨hm₂, -, -⟩ := copyuvm_spec (h.size p).le hm₁ hcopy
    have hborn : Sane (s.born p np k d m₂) :=
      ⟨hm₂, h.table, size_setProc h.size (h.size p)⟩
    rcases hend with ⟨-, s₂, hinh, -, rfl⟩ | ⟨-, -, js, s₁, hinh, hexit⟩
    · have h₂ := hborn.inherited hinh
      exact ⟨h₂.free, h₂.table, size_setProc h₂.size (h₂.size np)⟩
    · exact (hborn.inherited hinh).exit hexit

theorem Sane.wait (h : Sane s) (hw : wait p s = .ok (r, s')) : Sane s' := by
  rcases wait_ok hw with rfl | ⟨c, m, -, -, -, hok, rfl⟩
  · exact h
  · exact ⟨hok h.free, h.table, size_setProc h.size (h.size c)⟩

theorem Sane.exec {ip : Option Inode} {argv : List (List UInt8)} (h : Sane s)
    (he : exec p ip argv s = .ok (r, s')) : Sane s' := by
  rcases exec_ok h.free he with ⟨-, m, hm, -, rfl⟩ | ⟨-, pg, sz, sp, m, hm, hi, -, -, rfl⟩
  · exact ⟨hm, h.table, h.size⟩
  · exact ⟨hm, h.table, size_setProc h.size hi.lt⟩

theorem Sane.growproc {n v : Int} (h : Sane s) (hg : growproc p n s = .ok (v, s')) : Sane s' := by
  obtain ⟨m, pg, sz, hm, hsz, -, rfl⟩ := growproc_ok h.free (h.size p) hg
  exact ⟨hm, h.table, size_setProc h.size hsz⟩

/-- What a call that returns has done. `shmget` and `shmrem` are reached with a
key only. -/
inductive Does (s : Kernel) (p : Fin nproc) : Call → CallResult → Kernel → Prop
  | getRefused {key : Buf} {lim : Nat} (hno : keyLengthOk key lim = false) :
      Does s p (.shmget key lim) (.value (-1)) s
  | shmget {key : Buf} {lim : Nat} {r : CallResult} {s' : Kernel} (hkey : IsKey key)
      (hlen : keyLengthOk key lim = true) (h : shmget p key s = .ok (r, s')) :
      Does s p (.shmget key lim) r s'
  | remRefused {key : Buf} {lim : Nat} (hno : keyLengthOk key lim = false) :
      Does s p (.shmrem key lim) (.value (-1)) s
  | shmrem {key : Buf} {lim : Nat} {v : Int} {s' : Kernel} (hkey : IsKey key)
      (hlen : keyLengthOk key lim = true) (h : shmrem p key s = .ok (v, s')) :
      Does s p (.shmrem key lim) (.value v) s'
  | fork {r : CallResult} {s' : Kernel} (h : fork p s = .ok (r, s')) : Does s p .fork r s'
  | exec {ip : Option Inode} {argv : List (List UInt8)} {r : CallResult} {s' : Kernel}
      (h : exec p ip argv s = .ok (r, s')) : Does s p (.exec ip argv) r s'
  | sbrk {n v : Int} {r : CallResult} {s' : Kernel} (h : growproc p n s = .ok (v, s'))
      (hr : r = .value (if v < 0 then -1 else (s.proc p).sz)) : Does s p (.sbrk n) r s'
  | exit {s' : Kernel} (h : exit p s = .ok s') : Does s p .exit .exited s'
  | wait {r : CallResult} {s' : Kernel} (h : wait p s = .ok (r, s')) : Does s p .wait r s'

theorem call_does {c : Call} (h : c.run p s = .ok (r, s')) : Does s p c r s' := by
  cases c with
  | shmget key lim =>
    rw [Call.run, sysShmget] at h
    split at h
    · rename_i hk
      exact .shmget (isKey_of_keyLengthOk hk) hk h
    · rename_i hk
      cases h
      exact .getRefused (Bool.eq_false_of_not_eq_true hk)
  | shmrem key lim =>
    rw [Call.run, sysShmrem] at h
    split at h
    · rename_i hk
      obtain ⟨⟨v, s₁⟩, hrem, h⟩ := bind_ok h
      cases h
      exact .shmrem (isKey_of_keyLengthOk hk) hk hrem
    · rename_i hk
      cases h
      exact .remRefused (Bool.eq_false_of_not_eq_true hk)
  | fork => exact .fork h
  | exec ip argv => exact .exec h
  | sbrk n =>
    obtain ⟨⟨v, s₁⟩, hgrow, h⟩ := bind_ok h
    simp only at h
    split at h <;> cases h <;> exact .sbrk hgrow (by simp [*])
  | exit =>
    obtain ⟨s₁, hexit, h⟩ := bind_ok h
    cases h
    exact .exit hexit
  | wait => exact .wait h

/-- **Step.** -/
theorem Sane.step {e : Event} (h : Sane s) (hs : kernel.step s e s') :
    Sane s' := by
  obtain ⟨who, call, result⟩ := e
  obtain ⟨hlive, hcall⟩ := hs
  cases call_does hcall with
  | getRefused | remRefused => exact h
  | shmget hkey _ hg => exact h.shmget hkey hg
  | shmrem hkey _ hr => exact h.shmrem hkey hr
  | fork hf => exact h.fork hlive hf
  | exec he => exact h.exec he
  | sbrk hgrow _ => exact h.growproc hgrow
  | exit he => exact h.exit he
  | wait hw => exact h.wait hw

theorem Boot.sane (h : Boot s) : Sane s where
  free := h.free
  table := by
    rw [h.table]
    exact ⟨fun _ => zeroKey_padded, fun _ => by simp [shmeminit],
      fun i j _ hne => absurd rfl hne, fun _ => Int.le_refl _, fun i hne => absurd rfl hne,
      fun _ => Nat.two_pow_pos 32⟩
  size p := (h.size p).trans_lt (by decide)

/-- **Run.** -/
theorem Sane.run {s₀ : Kernel} {es : List Event} (hrun : kernel.Run s₀ es s) (h : Sane s₀) :
    Sane s :=
  hrun.invariant (fun _ _ _ hs hstep => hs.step hstep) h

/-! ## §3  The scan of `shmget` -/

omit [Image] in
/-- On a well-formed table the scan stops at the slot of the key. -/
theorem TableOK.scan_found {t : ShmTable} (h : TableOK t) (hkey : IsKey key) {i : Fin shmemPages}
    (hi : strncmp (t.shmemKey i).buf key 16 = 0) :
    (scanKeys t key (List.finRange shmemPages) none).1 = some i := by
  rw [scanKeys_fst t hkey]
  cases hfind : (List.finRange shmemPages).find?
      fun i => strncmp (t.shmemKey i).buf key 16 = 0 with
  | none =>
    have := find_finRange_none hfind i
    simp [hi] at this
  | some j =>
    have hj : strncmp (t.shmemKey j).buf key 16 = 0 := by simpa using find_finRange_some hfind
    have hjk := (h.match_pos hkey hj).1
    have hik := (h.match_pos hkey hi).1
    have hnz : t.shmemKey j ≠ zeroKey := fun hz =>
      keyOf_zero_ne hkey ((keyOf_padded hkey).eq_zero_iff.mpr (hjk.symm.trans hz))
    rw [h.distinct j i (hjk.trans hik.symm) hnz]

omit [Image] in
/-- Without a match it remembers the first hole. -/
theorem scan_missing (t : ShmTable) (hkey : IsKey key)
    (hno : ∀ i, strncmp (t.shmemKey i).buf key 16 ≠ 0) :
    scanKeys t key (List.finRange shmemPages) none =
      (none, (List.finRange shmemPages).find? fun i => t.shmemKey i 0 = 0) := by
  have hfst : (scanKeys t key (List.finRange shmemPages) none).1 = none := by
    rw [scanKeys_fst t hkey, List.find?_eq_none]
    intro i _
    simpa using hno i
  refine Prod.ext hfst ?_
  rw [scanKeys_snd t hfst]
  rfl

/-- **The table in every state reached.** First key byte, whole key and page
address agree on whether a slot is free; used slots have different keys under
`strncmp` and positive counters; and `shmget`'s scan finds the slot of a key
if there is one and the first free slot otherwise. -/
theorem shmTable_wellFormed {s₀ s : Kernel} {es : List Event} (hboot : Boot s₀)
    (hrun : kernel.Run s₀ es s) :
    (∀ i, (s.shTable.shmemKey i 0 = 0 ↔ ∀ j, s.shTable.shmemKey i j = 0) ∧
      (s.shTable.shmemKey i 0 = 0 ↔ s.shTable.shmemAddr i = 0)) ∧
    (∀ i j, i ≠ j → s.shTable.shmemKey i 0 ≠ 0 → s.shTable.shmemKey j 0 ≠ 0 →
      strncmp (s.shTable.shmemKey i).buf (s.shTable.shmemKey j).buf 16 ≠ 0) ∧
    (∀ i, s.shTable.shmemKey i 0 ≠ 0 → 1 ≤ s.shTable.shmemCounter i) ∧
    (∀ key, IsKey key →
      (∀ i, strncmp (s.shTable.shmemKey i).buf key 16 = 0 →
        (scanKeys s.shTable key (List.finRange shmemPages) none).1 = some i) ∧
      ((∀ i, strncmp (s.shTable.shmemKey i).buf key 16 ≠ 0) →
        scanKeys s.shTable key (List.finRange shmemPages) none =
          (none, (List.finRange shmemPages).find? fun i => s.shTable.shmemKey i 0 = 0))) := by
  have h := (Sane.run hrun hboot.sane).table
  refine ⟨fun i => ⟨?_, ?_⟩, fun i j hij hi hj hcmp => ?_, fun i hi => ?_, fun key hkey => ?_⟩
  · rw [(h.padded i).eq_zero_iff]
    exact ⟨fun hz j => by rw [hz]; rfl, fun hall => funext hall⟩
  · rw [(h.padded i).eq_zero_iff, h.empty i]
  · rw [strncmp_buf_eq_zero_iff (h.padded i) (h.padded j)] at hcmp
    exact hij (h.distinct i j hcmp fun hz => hi ((h.padded i).eq_zero_iff.mpr hz))
  · exact h.pos i fun hz => hi ((h.padded i).eq_zero_iff.mpr hz)
  · exact ⟨fun i hi => h.scan_found hkey hi, scan_missing s.shTable hkey⟩

/-- Two keys are created, one is shared, and one process detaches and exits. -/
def detachAndExit : List (Fin nproc × Call) :=
  [(1, .shmget (bufOf [97]) 8), (1, .shmget (bufOf [98]) 8), (2, .shmget (bufOf [98]) 8),
    (1, .shmrem (bufOf [97]) 8), (1, .exit)]

def anyCall (_ : Kernel) (_ : Fin nproc) (_ : Call) : Bool := true

omit [Image] in
theorem shmTable_wellFormed_detachAndExit :
    let s := @stateAfter sampleImage anyCall detachAndExit sampleTwo
    s.shTable.shmemAddr 0 = 0 ∧ s.shTable.shmemAddr 1 ≠ 0 ∧ 1 ≤ s.shTable.shmemCounter 1 ∧
      (scanKeys s.shTable (bufOf [98]) (List.finRange shmemPages) none).1 = some 1 := by
  let _ := sampleImage
  have hrun := (run_calls (g := anyCall) (G := fun _ _ => True) (fun _ _ _ => trivial)
    detachAndExit (s := sampleTwo) rfl).of_guarded
  obtain ⟨hfree, -, hpos, hscan⟩ := shmTable_wellFormed (sample_boot _) hrun
  refine ⟨(hfree 0).2.mp rfl, fun hz => absurd ((hfree 1).2.mpr hz) (by decide),
    hpos 1 (by decide), (hscan (bufOf [98]) ?_).1 1 (by decide)⟩
  exact isKey_of_keyLengthOk (show keyLengthOk _ 8 = true from rfl)

end Xv6
