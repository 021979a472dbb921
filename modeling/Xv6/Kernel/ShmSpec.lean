import Xv6.Kernel.Shm
import Xv6.Kernel.VmSpec

/-!
# What the calls of `shm.c` and `proc.c` do

One inversion lemma per function: from a call that returned, the state it
returned as an explicit update of the state before, together with what is
known of the new page directory and of the free list. Every invariant of the
later files is a case analysis over these lemmas; none of them unfolds the
functions again.

Two small relations carry what the lemmas share. `Cleared` is a directory
after one entry was set to 0. `GiveUp` is table and memory after one hold on
a slot was given up: the last holder frees the page and the slot, any other
one lowers the counter.
-/

namespace Xv6

open Outcome Function Kernel

/-! ## §1  The table -/

namespace ShmTable

variable (t : ShmTable) (i j : Fin shmemPages)

@[simp] theorem setAddr_addr (a : Nat) :
    (t.setAddr i a).shmemAddr j = if j = i then a else t.shmemAddr j := by
  simp [setAddr, update_apply]
@[simp] theorem setAddr_counter (a : Nat) :
    (t.setAddr i a).shmemCounter = t.shmemCounter := rfl
@[simp] theorem setAddr_key (a : Nat) : (t.setAddr i a).shmemKey = t.shmemKey := rfl

@[simp] theorem setCounter_counter (c : Int) :
    (t.setCounter i c).shmemCounter j = if j = i then c else t.shmemCounter j := by
  simp [setCounter, update_apply]
@[simp] theorem setCounter_addr (c : Int) :
    (t.setCounter i c).shmemAddr = t.shmemAddr := rfl
@[simp] theorem setCounter_key (c : Int) : (t.setCounter i c).shmemKey = t.shmemKey := rfl

@[simp] theorem setKey_key (k : Key) :
    (t.setKey i k).shmemKey j = if j = i then k else t.shmemKey j := by
  simp [setKey, update_apply]
@[simp] theorem setKey_addr (k : Key) : (t.setKey i k).shmemAddr = t.shmemAddr := rfl
@[simp] theorem setKey_counter (k : Key) :
    (t.setKey i k).shmemCounter = t.shmemCounter := rfl

@[simp] theorem free_addr :
    (t.free i).shmemAddr j = if j = i then 0 else t.shmemAddr j := by
  simp [free]
@[simp] theorem free_counter :
    (t.free i).shmemCounter j = if j = i then 0 else t.shmemCounter j := by
  simp [free]
@[simp] theorem free_key :
    (t.free i).shmemKey j = if j = i then zeroKey else t.shmemKey j := by
  simp [free]

end ShmTable

/-- The state with the table's lock set to `b`. -/
def Kernel.withLock (s : Kernel) (b : Bool) : Kernel :=
  { s with shTable := { s.shTable with lock := b } }

@[simp] theorem withLock_proc (s : Kernel) (b : Bool) : (s.withLock b).proc = s.proc := rfl
@[simp] theorem withLock_mem (s : Kernel) (b : Bool) : (s.withLock b).mem = s.mem := rfl
@[simp] theorem withLock_addr (s : Kernel) (b : Bool) :
    (s.withLock b).shTable.shmemAddr = s.shTable.shmemAddr := rfl
@[simp] theorem withLock_counter (s : Kernel) (b : Bool) :
    (s.withLock b).shTable.shmemCounter = s.shTable.shmemCounter := rfl
@[simp] theorem withLock_key (s : Kernel) (b : Bool) :
    (s.withLock b).shTable.shmemKey = s.shTable.shmemKey := rfl

variable {s s' : Kernel}

theorem acquire_ok (h : acquire s = .ok s') :
    s.shTable.lock = false ∧ s' = s.withLock true := by
  unfold acquire at h
  split at h
  · simp at h
  · rename_i hl
    cases h
    exact ⟨by simpa using hl, rfl⟩

theorem release_ok (h : release s = .ok s') :
    s.shTable.lock = true ∧ s' = s.withLock false := by
  unfold release at h
  split at h
  · rename_i hl
    cases h
    exact ⟨hl, rfl⟩
  · simp at h

/-- A state with the lock free is the state after locking and unlocking. -/
theorem withLock_of_free (h : s.shTable.lock = false) :
    (s.withLock true).withLock false = s := by
  obtain ⟨m, ⟨l, a, c, k⟩, pr, ip, np⟩ := s
  cases h
  rfl

/-! ## §2  Searches -/

theorem find_finRange_some {n : Nat} {f : Fin n → Bool} {i : Fin n}
    (h : (List.finRange n).find? f = some i) : f i = true :=
  List.find?_some h

theorem find_finRange_none {n : Nat} {f : Fin n → Bool}
    (h : (List.finRange n).find? f = none) (i : Fin n) : f i = false := by
  simpa using List.find?_eq_none.mp h i (List.mem_finRange i)

variable {i y : Fin shmemPages}

theorem findPos_some {q : Proc} (h : findPos q = some i) :
    q.phySharedPage i = 0 := by
  simpa using find_finRange_some h

variable {key : Buf}

theorem findRec_some {q : Proc} (h : findRec q key = some y) :
    strncmp (q.pKey y).buf key 16 = 0 := by
  simpa using find_finRange_some h

theorem findRec_none {q : Proc} (h : findRec q key = none) (y : Fin shmemPages) :
    strncmp (q.pKey y).buf key 16 ≠ 0 := by
  simpa using find_finRange_none h y

variable {p : Fin nproc}

theorem findDetach_some (h : findDetach p key s = some (i, y)) :
    strncmp (s.shTable.shmemKey i).buf key 16 = 0 ∧ findRec (s.proc p) key = some y := by
  obtain ⟨i', -, hi'⟩ := List.exists_of_findSome?_eq_some h
  split at hi'
  · rename_i hk
    obtain ⟨y', hy', heq⟩ := Option.map_eq_some_iff.mp hi'
    cases heq
    exact ⟨hk, hy'⟩
  · simp at hi'

/-- An empty slot never compares equal to a key. -/
theorem strncmp_empty_ne {k : Key} (hk : k 0 = 0) (hkey : IsKey key) :
    strncmp k.buf key 16 ≠ 0 := by
  intro h
  have h₀ := (strncmp_eq_zero_iff k.buf key 16).mp h 0 (by decide) (by intro j hj; omega)
  rw [Key.buf_of_lt k (by decide)] at h₀
  exact hkey.1.2 0 hkey.2.1 (h₀.symm.trans hk)

/-- The scan of `shmget` stops at the first slot that compares equal: the
holes it skips never do. -/
theorem scanKeys_fst (t : ShmTable) (hkey : IsKey key) :
    ∀ (is : List (Fin shmemPages)) (free : Option (Fin shmemPages)),
      (scanKeys t key is free).1 =
        is.find? fun i => strncmp (t.shmemKey i).buf key 16 = 0
  | [], _ => rfl
  | i :: is, free => by
    rw [scanKeys, List.find?_cons]
    by_cases hhole : t.shmemKey i 0 = 0 ∧ free = none
    · have hne := strncmp_empty_ne hhole.1 hkey
      simp only [if_pos hhole, hne, decide_false]
      exact scanKeys_fst t hkey is (some i)
    · rw [if_neg hhole]
      by_cases hm : strncmp (t.shmemKey i).buf key 16 = 0
      · simp [hm]
      · simp only [hm, decide_false]
        exact scanKeys_fst t hkey is free

/-- A scan that finds no match has seen every slot; the hole it remembers is
the first one. -/
theorem scanKeys_snd (t : ShmTable) :
    ∀ {is : List (Fin shmemPages)} {free : Option (Fin shmemPages)},
      (scanKeys t key is free).1 = none →
      (scanKeys t key is free).2 = free.or (is.find? fun i => t.shmemKey i 0 = 0)
  | [], free, _ => by simp [scanKeys]
  | i :: is, free, h => by
    rw [scanKeys] at h ⊢
    by_cases hhole : t.shmemKey i 0 = 0 ∧ free = none
    · rw [if_pos hhole] at h ⊢
      rw [scanKeys_snd t h, hhole.2]
      simp [hhole.1]
    · rw [if_neg hhole] at h ⊢
      by_cases hm : strncmp (t.shmemKey i).buf key 16 = 0
      · simp [hm] at h
      · rw [if_neg hm] at h ⊢
        rw [scanKeys_snd t h]
        cases free with
        | some j => simp
        | none =>
          have hk : t.shmemKey i 0 ≠ 0 := fun hk => hhole ⟨hk, rfl⟩
          simp [hk]

/-- The scan does not look at the lock. -/
theorem scanKeys_withLock (s : Kernel) (b : Bool) (key : Buf) (is : List (Fin shmemPages)) :
    ∀ free, scanKeys (s.withLock b).shTable key is free = scanKeys s.shTable key is free := by
  induction is with
  | nil => exact fun _ => rfl
  | cons i is ih =>
    intro free
    rw [scanKeys, scanKeys, withLock_key, ih, ih]

/-! ## §3  Detaching -/

/-- The page number of an address. -/
def pageOf (va : Nat) : Nat := va / pgSize % 2 ^ 20

theorem pageOf_windowAddr {i : Nat} (h : i < shmemPages) : pageOf (windowAddr i) = windowPage i := by
  simp only [pageOf, windowAddr, windowPage, pgSize, kernBase, shmemPages] at *
  omega

theorem pdx_pageOf (va : Nat) : pdx (pageOf va * pgSize) = pdx va := by
  simp only [pageOf, pdx, pgSize]
  omega

theorem ptx_pageOf (va : Nat) : ptx (pageOf va * pgSize) = ptx va := by
  simp only [pageOf, ptx, pgSize]
  omega

/-- `pg'` is `pg` with the entry of page `v` set to 0. -/
structure Cleared (pg pg' : PgDir) (v : Nat) : Prop where
  frame : pg'.frame = pg.frame
  tab : ∀ d, pg'.tabFrame d = pg.tabFrame d
  page : ∀ w < 2 ^ 20, pg'.page w = if w = v then .zero else pg.page w

/-- The entry `walkpgdir` points to, set to 0; where it gives a null pointer
the entry is 0 already. -/
theorem clearPte_ok {va : Nat} (h : clearPte p va s = .ok s') :
    ∃ pg m, m.freelist = s.mem.freelist ∧ Cleared (s.proc p).pgdir pg (pageOf va) ∧
      s' = { s with mem := m }.setProc p { s.proc p with pgdir := pg } := by
  have hv : pageOf va < 2 ^ 20 := Nat.mod_lt _ (by decide)
  unfold clearPte at h
  simp only [walkpgdir_noalloc] at h
  by_cases htab : ((s.proc p).pgdir.pde (pdx va)).isSome
  · simp only [htab, if_true, Except.ok.injEq] at h
    refine ⟨_, s.mem, rfl, ⟨PgDir.setEntry_frame .., fun d => PgDir.setEntry_tabFrame .., ?_⟩,
      h.symm⟩
    intro w hw
    rw [← pdx_pageOf] at htab
    have := PgDir.page_setEntry .zero hv hw htab
    simpa only [PgDir.setEntry, pdx_pageOf, ptx_pageOf] using this
  · simp only [htab, Bool.false_eq_true, if_false] at h
    split at h
    · cases h
      refine ⟨(s.proc p).pgdir, s.mem.zeroWord _, rfl, ⟨rfl, fun _ => rfl, ?_⟩,
        (setProc_eq_self _ p).symm⟩
      intro w hw
      split
      · rename_i heq
        rw [heq, PgDir.page]
        refine PgDir.entry_eq_zero_of_isNone ?_
        rw [pdx_pageOf]
        simpa using htab
      · rfl
    · simp at h

variable [Image]

/-- One hold on slot `y` is given up. -/
inductive GiveUp (t : ShmTable) (m : Mem) (y : Fin shmemPages) : ShmTable → Mem → Prop where
  | last {m' : Mem} : t.shmemCounter y = 1 → IsFrame (t.shmemAddr y) →
      m'.freelist = t.shmemAddr y :: m.freelist → GiveUp t m y (t.free y) m'
  | other {m' : Mem} : 1 < t.shmemCounter y → m'.freelist = m.freelist →
      GiveUp t m y (t.setCounter y (t.shmemCounter y - 1)) m'

theorem GiveUp.freelistOK {t t' : ShmTable} {m m' : Mem} (h : GiveUp t m y t' m')
    (hm : FreelistOK m) : FreelistOK m' := by
  cases h with
  | last _ hf hl =>
    intro f hmem
    rw [hl, List.mem_cons] at hmem
    rcases hmem with rfl | hmem
    · exact hf
    · exact hm f hmem
  | other _ hl =>
    intro f hmem
    exact hm f (hl ▸ hmem)

/-- **The inner body of the exit path.** -/
theorem detachAt_ok (h : detachAt p i y s = .ok s') :
    (s' = s ∧ ((s.proc p).phySharedPage i = s.shTable.shmemAddr y →
        s.shTable.shmemCounter y = 0)) ∨
      ∃ pg t m, (s.proc p).phySharedPage i = s.shTable.shmemAddr y ∧
        GiveUp s.shTable s.mem y t m ∧
        Cleared (s.proc p).pgdir pg (pageOf ((s.proc p).vmSharedPage i)) ∧
        s' = { s with mem := m, shTable := t }.setProc p { s.proc p with
          pgdir := pg
          phySharedPage := update (s.proc p).phySharedPage i 0 } := by
  unfold detachAt at h
  simp only at h
  split at h
  · rename_i hphy
    split at h
    · rename_i hone
      obtain ⟨m, hfree, h⟩ := bind_ok h
      obtain ⟨hframe, hl⟩ := kfree_ok hfree
      obtain ⟨pg, m', hm', hclear, rfl⟩ := clearPte_ok h
      refine .inr ⟨pg, _, m', hphy, .last hone hframe (hm'.trans hl), ?_, ?_⟩
      · simpa using hclear
      · simp [setProc]
    · split at h
      · rename_i hgt
        obtain ⟨pg, m', hm', hclear, rfl⟩ := clearPte_ok h
        refine .inr ⟨pg, _, m', hphy, .other hgt hm', ?_, ?_⟩
        · simpa using hclear
        · simp [setProc]
      · split at h
        · simp at h
        · cases h
          exact .inl ⟨rfl, fun _ => by omega⟩
  · rename_i hphy
    cases h
    exact .inl ⟨rfl, fun h => absurd h hphy⟩

/-- The exit path never touches the `bitmap`. -/
theorem detachAt_bitmap (h : detachAt p i y s = .ok s') :
    (s'.proc p).bitmap = (s.proc p).bitmap := by
  rcases detachAt_ok h with ⟨rfl, -⟩ | ⟨pg, t, m, -, -, -, rfl⟩
  · rfl
  · simp

/-- **Loop rule of the exit path**: what the inner body keeps at a position
whose bit is set, the whole path keeps. -/
theorem detachAll_inv {I : Kernel → Prop}
    (hstep : ∀ i y s s', I s → (s.proc p).bitmap i = 1 → detachAt p i y s = .ok s' → I s')
    (h₀ : I s) (h : detachAll p s = .ok s') : I s' := by
  refine Post.foldlM_inv (I := I) h₀ (fun i s₁ h₁ => ?_) s' h
  unfold detachPos
  split
  · rename_i hbit
    refine Post.mono (P := fun s₂ => I s₂ ∧ (s₂.proc p).bitmap i = 1) ?_ fun _ h₂ => h₂.1
    refine Post.foldlM_inv ⟨h₁, hbit⟩ fun y s₂ h₂ s₃ h₃ => ?_
    exact ⟨hstep i y s₂ s₃ h₂.1 h₂.2 h₃, by rw [detachAt_bitmap h₃]; exact h₂.2⟩
  · exact Post.ok h₁

theorem detachAll_others {q : Fin nproc} (h : detachAll p s = .ok s') (hq : q ≠ p) :
    s'.proc q = s.proc q := by
  refine detachAll_inv (I := fun s₁ => s₁.proc q = s.proc q) (fun i y s₁ s₂ hs _ hd => ?_) rfl h
  rcases detachAt_ok hd with ⟨rfl, -⟩ | ⟨pg, t, m, -, -, -, rfl⟩
  · exact hs
  · rw [setProc_ne hq]
    exact hs

/-- The exit path touches the page directory and the recorded pages of its
caller, and nothing else of it. -/
theorem detachAll_field {α : Type} {f : Proc → α}
    (hkeep : ∀ q pg phy, f { q with pgdir := pg, phySharedPage := phy } = f q)
    (h : detachAll p s = .ok s') : f (s'.proc p) = f (s.proc p) := by
  refine detachAll_inv (I := fun s₁ => f (s₁.proc p) = f (s.proc p))
    (fun i y s₁ s₂ hs _ hd => ?_) rfl h
  rcases detachAt_ok hd with ⟨rfl, -⟩ | ⟨pg, t, m, -, -, -, rfl⟩
  · exact hs
  · rw [setProc_self, hkeep]
    exact hs

/-- **The detaching branches of the key path**, for a slot with a positive
counter: the last holder gets 0 and keeps its key record. -/
theorem detachKey_ok {r : Int} (hc : 1 ≤ s.shTable.shmemCounter i)
    (h : detachKey p i y s = .ok (r, s')) :
    ∃ pg t m k, GiveUp s.shTable s.mem i t m ∧
      Cleared (s.proc p).pgdir pg (pageOf ((s.proc p).vmSharedPage y)) ∧
      ((s.shTable.shmemCounter i = 1 ∧ r = 0 ∧ k = (s.proc p).pKey) ∨
        (s.shTable.shmemCounter i ≠ 1 ∧ r = 1 ∧
          k = update (s.proc p).pKey y zeroKey)) ∧
      s' = { s with mem := m, shTable := t }.setProc p { s.proc p with
        pgdir := pg
        vmSharedPage := update (s.proc p).vmSharedPage y 0
        phySharedPage := update (s.proc p).phySharedPage y 0
        pKey := k } := by
  unfold detachKey at h
  simp only at h
  split at h
  · rename_i hone
    obtain ⟨m, hfree, h⟩ := bind_ok h
    obtain ⟨s₁, hclr, h⟩ := bind_ok h
    obtain ⟨hframe, hl⟩ := kfree_ok hfree
    obtain ⟨pg, m', hm', hclear, rfl⟩ := clearPte_ok hclr
    cases h
    refine ⟨pg, _, m', _, .last hone hframe (hm'.trans hl), hclear, .inl ⟨hone, rfl, rfl⟩, ?_⟩
    simp [setProc]
  · rename_i hone
    obtain ⟨s₁, hclr, h⟩ := bind_ok h
    obtain ⟨pg, m', hm', hclear, rfl⟩ := clearPte_ok hclr
    cases h
    refine ⟨pg, _, m', _, .other (by omega) hm', hclear, .inr ⟨hone, rfl, rfl⟩, ?_⟩
    simp [setProc]

/-- **`shmrem`**: the exit path, nothing to detach, or one detach by key. -/
theorem shmrem_ok {r : Int} (h : shmrem p key s = .ok (r, s')) :
    s.shTable.lock = false ∧
      ((memcmp key Image.shmremLit 16 = 0 ∧ r = 1 ∧ ∃ s₁,
          detachAll p (s.withLock true) = .ok s₁ ∧ s' = s₁.withLock false) ∨
        (memcmp key Image.shmremLit 16 ≠ 0 ∧ findDetach p key s = none ∧ r = -1 ∧ s' = s) ∨
        (memcmp key Image.shmremLit 16 ≠ 0 ∧ ∃ i y s₁, findDetach p key s = some (i, y) ∧
          detachKey p i y (s.withLock true) = .ok (r, s₁) ∧ s' = s₁.withLock false)) := by
  unfold shmrem at h
  obtain ⟨s₀, hacq, h⟩ := bind_ok h
  obtain ⟨hlock, rfl⟩ := acquire_ok hacq
  refine ⟨hlock, ?_⟩
  split at h
  · rename_i hcmp
    obtain ⟨s₁, hall, h⟩ := bind_ok h
    obtain ⟨s₂, hrel, h⟩ := bind_ok h
    cases h
    exact .inl ⟨hcmp, rfl, s₁, hall, (release_ok hrel).2⟩
  · rename_i hcmp
    split at h
    · rename_i i y hfind
      obtain ⟨⟨r₁, s₁⟩, hdet, h⟩ := bind_ok h
      obtain ⟨s₂, hrel, h⟩ := bind_ok h
      cases h
      exact .inr (.inr ⟨hcmp, i, y, s₁, hfind, hdet, (release_ok hrel).2⟩)
    · rename_i hfind
      obtain ⟨s₂, hrel, h⟩ := bind_ok h
      cases h
      rw [(release_ok hrel).2, withLock_of_free hlock]
      exact .inr (.inl ⟨hcmp, hfind, rfl, rfl⟩)

/-- Nothing to detach: -1, and nothing changes. -/
theorem shmrem_none (hlock : s.shTable.lock = false) (hcmp : memcmp key Image.shmremLit 16 ≠ 0)
    (hnone : findDetach p key s = none) :
    shmrem p key s = .ok (-1, s) := by
  have hnone' : findDetach p key (s.withLock true) = none := hnone
  have hback := withLock_of_free hlock
  simp only [withLock] at hnone' hback
  simp [shmrem, acquire, release, hlock, hcmp, hnone', hback, bind, Except.bind]

omit [Image] in
/-- The end of `exit` changes parents, and the state of the caller. -/
theorem becomeZombie_proc (p q : Fin nproc) (s : Kernel) : ∃ par,
    (becomeZombie p s).proc q = { s.proc q with
      parent := par
      state := if q = p then .zombie else (s.proc q).state } := by
  simp only [becomeZombie]
  by_cases hq : q = p
  · by_cases hpar : (s.proc q).parent = some p
    · exact ⟨some s.initproc, by simp [hq, hq ▸ hpar]⟩
    · exact ⟨(s.proc q).parent, by simp [hq, hq ▸ hpar]⟩
  · by_cases hpar : (s.proc q).parent = some p
    · exact ⟨some s.initproc, by simp [hq, hpar]⟩
    · exact ⟨(s.proc q).parent, by simp [hq, hpar]⟩

theorem exit_ok (h : exit p s = .ok s') :
    p ≠ s.initproc ∧ ∃ r s₁, shmrem p Image.exitLit s = .ok (r, s₁) ∧ s' = becomeZombie p s₁ := by
  unfold exit at h
  split at h
  · simp at h
  · rename_i hne
    obtain ⟨⟨r, s₁⟩, hrem, h⟩ := bind_ok h
    cases h
    exact ⟨hne, r, s₁, hrem, rfl⟩

/-! ## §4  `shmget` -/

/-- `pg'` is `pg` with page `v`, unmapped before, mapped to `pa`; page tables
may have been added from the free list. -/
structure Mapped (pg pg' : PgDir) (m m' : Mem) (v pa : Nat) : Prop where
  grew : Grew pg pg' m m'
  fresh : (pg.page v).p = false
  page : ∀ w < 2 ^ 20, pg'.page w = if w = v then .map pa permWU else pg.page w

omit [Image] in
theorem mappages_window {pg pg' : PgDir} {pa : Nat} {m m' : Mem} {b : Bool}
    (h : mappages pg (windowAddr i) pgSize pa permWU m = .ok (b, pg', m')) (hb : b = true) :
    Mapped pg pg' m m' (windowPage i) pa := by
  rw [← windowPage_mul i.isLt] at h
  have hv : windowPage i < 2 ^ 20 := by simp only [windowPage]; omega
  obtain ⟨hgrew, hfresh, hpage⟩ := mappages_page_spec hv h
  refine ⟨hgrew, hfresh hb, fun w hw => ?_⟩
  rw [hpage w hw]
  simp [hb]

omit [Image] in
theorem placePage_ok {t : Fin shmemPages} {a : Nat} (h : placePage p key t s = .ok (a, s')) :
    ∃ pos pg m, findPos (s.proc p) = some pos ∧ a = windowAddr pos ∧
      Mapped (s.proc p).pgdir pg s.mem m (windowPage pos) (v2p (s.shTable.shmemAddr t)) ∧
      s' = { s with
        mem := m
        shTable := s.shTable.setCounter t (s.shTable.shmemCounter t + 1) }.setProc p
          ((s.proc p).attach pos (s.shTable.shmemAddr t) key pg) := by
  unfold placePage at h
  simp only at h
  split at h
  · simp at h
  · rename_i pos hpos
    obtain ⟨⟨b, pg, m⟩, hmap, h⟩ := bind_ok h
    split at h
    · rename_i hb
      simp only [Except.ok.injEq, Prod.mk.injEq] at h
      exact ⟨pos, pg, m, hpos, h.1.symm, mappages_window hmap hb, h.2.symm⟩
    · simp at h

/-- With the table locked, `exit` does not return. -/
theorem exit_locked (hl : s.shTable.lock = true) :
    exit p s ≠ .ok s' := by
  intro h
  obtain ⟨-, r, s₁, hrem, -⟩ := exit_ok h
  rw [(shmrem_ok hrem).1] at hl
  simp at hl

/-- What `shmget` does: it returns the address recorded before, or places the
page of the slot, or a new page in the first free slot. -/
inductive ShmGot (p : Fin nproc) (key : Buf) (s : Kernel) : CallResult → Kernel → Prop
  | again (t y : Fin shmemPages) (ht : strncmp (s.shTable.shmemKey t).buf key 16 = 0)
      (hy : findRec (s.proc p) key = some y) :
      ShmGot p key s (.value ((s.proc p).vmSharedPage y)) s
  | placed (t pos : Fin shmemPages) (pg : PgDir) (m : Mem)
      (ht : strncmp (s.shTable.shmemKey t).buf key 16 = 0) (hy : findRec (s.proc p) key = none)
      (hlt : s.shTable.shmemCounter t < 16) (hpos : findPos (s.proc p) = some pos)
      (hmap : Mapped (s.proc p).pgdir pg s.mem m (windowPage pos) (v2p (s.shTable.shmemAddr t))) :
      ShmGot p key s (.value (windowAddr pos)) ({ s with
        mem := m
        shTable := s.shTable.setCounter t (s.shTable.shmemCounter t + 1) }.setProc p
          ((s.proc p).attach pos (s.shTable.shmemAddr t) key pg))
  | fresh (t pos : Fin shmemPages) (f : Nat) (pg : PgDir) (m₁ m : Mem)
      (hno : ∀ i, strncmp (s.shTable.shmemKey i).buf key 16 ≠ 0)
      (ht : s.shTable.shmemKey t 0 = 0) (hl : s.mem.freelist = f :: m₁.freelist)
      (hpos : findPos (s.proc p) = some pos)
      (hmap : Mapped (s.proc p).pgdir pg m₁ m (windowPage pos) (v2p f)) :
      ShmGot p key s (.value (windowAddr pos)) ({ s with
        mem := m
        shTable := ((s.shTable.setAddr t f).setCounter t (s.shTable.shmemCounter t + 1)).setKey t
          (memmove (s.shTable.shmemKey t) key (strlen key)) }.setProc p
            ((s.proc p).attach pos f key pg))

/-- **`shmget`**. -/
theorem shmget_ok {r : CallResult} (hkey : IsKey key) (h : shmget p key s = .ok (r, s')) :
    ShmGot p key s r s' := by
  unfold shmget at h
  obtain ⟨s₀, hacq, h⟩ := bind_ok h
  obtain ⟨hlock, rfl⟩ := acquire_ok hacq
  have hfst := scanKeys_fst s.shTable hkey (List.finRange shmemPages) none
  have hsnd := @scanKeys_snd key s.shTable (List.finRange shmemPages) none
  rw [scanKeys_withLock] at h
  revert h hfst hsnd
  rcases scanKeys s.shTable key (List.finRange shmemPages) none with ⟨_ | t, free⟩
  · intro h hfst hsnd
    have hno := find_finRange_none hfst.symm
    cases free with
    | none =>
      obtain ⟨s₁, hexit, h⟩ := bind_ok h
      exact absurd hexit (exit_locked rfl)
    | some t =>
      have ht := find_finRange_some (hsnd rfl).symm
      simp only [decide_eq_true_eq, decide_eq_false_iff_not] at hno ht
      simp only at h
      split at h
      · simp at h
      · rename_i f m₁ hk
        obtain ⟨⟨a, s₂⟩, hplace, h⟩ := bind_ok h
        obtain ⟨s₃, hrel, h⟩ := bind_ok h
        obtain ⟨pos, pg, m, hpos, ha, hmapped, hs₂⟩ := placePage_ok hplace
        cases h
        subst hs₂
        rw [ha, (release_ok hrel).2]
        convert ShmGot.fresh t pos f pg (m₁.memset f 0) m hno ht (kalloc_some hk).1 hpos
          (by simpa using hmapped) using 1
        simp [withLock, setProc, ShmTable.setAddr, ShmTable.setCounter,
          ShmTable.setKey, hlock]
  · intro h hfst hsnd
    have ht := find_finRange_some hfst.symm
    simp only [decide_eq_true_eq] at ht
    simp only at h
    split at h
    · rename_i y hy
      obtain ⟨s₁, hrel, h⟩ := bind_ok h
      cases h
      rw [(release_ok hrel).2, withLock_of_free hlock]
      exact .again t y ht hy
    · rename_i hy
      split at h
      · rename_i hlt
        obtain ⟨⟨a, s₂⟩, hplace, h⟩ := bind_ok h
        obtain ⟨s₃, hrel, h⟩ := bind_ok h
        obtain ⟨pos, pg, m, hpos, ha, hmapped, hs₂⟩ := placePage_ok hplace
        cases h
        subst hs₂
        rw [ha, (release_ok hrel).2]
        convert ShmGot.placed t pos pg m ht hy hlt hpos hmapped using 1
        simp [withLock, setProc, ShmTable.setCounter, hlock]
      · obtain ⟨s₁, -, h⟩ := bind_ok h
        simp at h

end Xv6
