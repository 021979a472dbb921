import Xv6.Kernel.Exec
import Xv6.Kernel.ForkSpec

/-!
# What `exec` and `growproc` do

`exec` builds the new address space page after page from 0 up, so that its
user pages are exactly those below the new size (`UserImage`); everything it
takes comes from the free list, and when it commits, *all* of the old address
space goes there, the shared window included (`exec_ok`).
-/

namespace Xv6

open Outcome

/-! ## §1  Memory contents only -/

variable {cur pg pg' : PgDir}

theorem loadLoop_freelist {addr : Nat} {ip : Inode} {offset sz : Nat} :
    ∀ {fuel i : Nat} {m m' : Mem} {b : Bool},
      loadLoop pg addr ip offset sz fuel i m = .ok (b, m') → m'.freelist = m.freelist
  | 0, i, m, m', b, h => by
    cases h
    rfl
  | fuel + 1, i, m, m', b, h => by
    rw [loadLoop] at h
    split at h
    · split at h
      · simp at h
      · simp only at h
        generalize (if sz - i < pgSize then sz - i else pgSize) = n at h
        split at h
        · cases h
          rfl
        · split at h
          · rw [loadLoop_freelist h, store_freelist]
          · simp only [Except.ok.injEq, Prod.mk.injEq] at h
            rw [← h.2, store_freelist]
    · cases h
      rfl

theorem loaduvm_freelist {addr : Nat} {ip : Inode} {offset sz : Nat} {m m' : Mem} {b : Bool}
    (h : loaduvm pg addr ip offset sz m = .ok (b, m')) :
    m'.freelist = m.freelist := by
  unfold loaduvm at h
  split at h
  · simp at h
  · exact loadLoop_freelist h

theorem copyoutLoop_freelist :
    ∀ {fuel va : Nat} {buf : List UInt8} {m m' : Mem} {b : Bool},
      copyoutLoop cur pg fuel va buf m = .ok (b, m') → m'.freelist = m.freelist
  | 0, va, buf, m, m', b, h => by
    cases h
    rfl
  | fuel + 1, va, buf, m, m', b, h => by
    rw [copyoutLoop] at h
    split at h
    · obtain ⟨ka, -, h⟩ := bind_ok h
      cases ka with
      | none =>
        cases h
        rfl
      | some pa0 => rw [copyoutLoop_freelist h, store_freelist]
    · cases h
      rfl

theorem pushArgs_freelist :
    ∀ {argv : List (List UInt8)} {sp : Nat} {ptrs : List Nat} {m m' : Mem} {r : Option Nat},
      pushArgs cur pg argv sp ptrs m = .ok (r, m') → m'.freelist = m.freelist
  | [], sp, ptrs, m, m', r, h => by
    obtain ⟨⟨b, m₁⟩, hout, h⟩ := bind_ok h
    cases b <;> cases h <;> exact copyoutLoop_freelist hout
  | a :: argv, sp, ptrs, m, m', r, h => by
    rw [pushArgs] at h
    split at h
    · cases h
      rfl
    · obtain ⟨⟨b, m₁⟩, hout, h⟩ := bind_ok h
      have h₁ := copyoutLoop_freelist hout
      cases b with
      | true => rw [pushArgs_freelist h, h₁]
      | false =>
        cases h
        exact h₁

variable [Image]

/-! ## §2  The new address space -/

/-- The user pages of `pg` are exactly those below `sz`. -/
structure UserImage (pg : PgDir) (sz : Nat) : Prop where
  lt : sz < kernBase
  present : ∀ w < 2 ^ 19, (pg.page w).p = true ↔ w * pgSize < sz

theorem UserImage.allocuvm {sz newsz r : Nat} {m m' : Mem} (hm : FreelistOK m)
    (hi : UserImage pg sz) (hr : r ≠ 0) (h : allocuvm pg sz newsz m = .ok (r, pg', m')) :
    UserImage pg' r := by
  obtain ⟨-, -, -, hsame, hcase⟩ := allocuvm_spec hm h
  rcases hcase with h0 | ⟨-, rfl, rfl⟩ | ⟨hle, hlt, rfl, hnew⟩
  · exact absurd h0 hr
  · exact hi
  · refine ⟨hlt, fun w hw => ?_⟩
    by_cases hlow : w * pgSize < pgRoundUp sz
    · -- an aligned address below the rounded size is below the size
      have hold : w * pgSize < sz := by
        simp only [pgRoundUp, pgSize] at *
        omega
      rw [hsame w (by omega) (.inl hlow), hi.present w hw]
      exact ⟨fun _ => by omega, fun _ => hold⟩
    · by_cases hin : w * pgSize < r
      · obtain ⟨mem, -, hpage⟩ := hnew w (by omega) hin
        rw [hpage]
        simp [Pte.map, hin]
      · rw [hsame w (by omega) (.inr (by omega)), hi.present w hw]
        exact ⟨fun _ => by omega, fun h => absurd h hin⟩

/-- What building an address space keeps: every frame taken from the free
list is owned by the directory. -/
structure Built (pg pg' : PgDir) (m m' : Mem) : Prop where
  ok : FreelistOK m'
  balance : ∀ f, m'.freelist.count f + pg'.own f = m.freelist.count f + pg.own f

theorem Built.trans {pg'' : PgDir} {m m' m'' : Mem} (h₁ : Built pg pg' m m')
    (h₂ : Built pg' pg'' m' m'') : Built pg pg'' m m'' :=
  ⟨h₂.ok, fun f => (h₂.balance f).trans (h₁.balance f)⟩

theorem Built.of_freelist {m m' m'' : Mem} (h : Built pg pg' m m') (hl : m''.freelist = m'.freelist) :
    Built pg pg' m m'' :=
  ⟨fun f hf => h.ok f (hl ▸ hf), fun f => by rw [hl]; exact h.balance f⟩

theorem allocuvm_built {oldsz newsz r : Nat} {m m' : Mem} (hm : FreelistOK m)
    (h : allocuvm pg oldsz newsz m = .ok (r, pg', m')) : Built pg pg' m m' := by
  obtain ⟨hok, -, hbal, -⟩ := allocuvm_spec hm h
  exact ⟨hok, hbal⟩

/-- The loop over the program headers. -/
theorem loadSegs_spec {ip : Inode} : ∀ {n off sz : Nat} {pg pg' : PgDir} {m m' : Mem}
    {r : Option Nat}, FreelistOK m → UserImage pg sz →
    loadSegs ip n off sz pg m = .ok (r, pg', m') →
    Built pg pg' m m' ∧ ∀ sz', r = some sz' → UserImage pg' sz'
  | 0, off, sz, pg, pg', m, m', r, hm, hi, h => by
    simp only [loadSegs, Except.ok.injEq, Prod.mk.injEq] at h
    obtain ⟨rfl, rfl, rfl⟩ := h
    refine ⟨⟨hm, fun _ => rfl⟩, fun sz' hsz => ?_⟩
    cases hsz
    exact hi
  | n + 1, off, sz, pg, pg', m, m', r, hm, hi, h => by
    -- the jumps to `bad` before anything was allocated
    have hbad : ∀ {x : Except Panic (Option Nat × PgDir × Mem)},
        x = .ok (none, pg, m) → x = .ok (r, pg', m') →
        Built pg pg' m m' ∧ ∀ sz', r = some sz' → UserImage pg' sz' := by
      intro x hx hx'
      rw [hx] at hx'
      simp only [Except.ok.injEq, Prod.mk.injEq] at hx'
      obtain ⟨rfl, rfl, rfl⟩ := hx'
      exact ⟨⟨hm, fun _ => rfl⟩, by simp⟩
    rw [loadSegs] at h
    split at h
    · exact hbad rfl h
    · split at h
      · exact loadSegs_spec hm hi h
      · simp only at h
        split at h
        · exact hbad rfl h
        · split at h
          · exact hbad rfl h
          · obtain ⟨⟨sz₁, pg₁, m₁⟩, halloc, h⟩ := bind_ok h
            have hbuilt := allocuvm_built hm halloc
            simp only at h
            split at h
            · cases h
              exact ⟨hbuilt, by simp⟩
            · rename_i hne
              have hi₁ := hi.allocuvm hm hne halloc
              split at h
              · cases h
                exact ⟨hbuilt, by simp⟩
              · obtain ⟨⟨b, m₂⟩, hload, h⟩ := bind_ok h
                have hbuilt₂ := hbuilt.of_freelist (loaduvm_freelist hload)
                simp only at h
                split at h
                · obtain ⟨hbuilt₃, hsz⟩ := loadSegs_spec hbuilt₂.ok hi₁ h
                  exact ⟨hbuilt₂.trans hbuilt₃, hsz⟩
                · cases h
                  exact ⟨hbuilt₂, by simp⟩

omit [Image] in
/-- `clearpteu` only takes a permission away. -/
theorem clearpteu_spec {v : Nat} {m : Mem} (hv : v < 2 ^ 19)
    (h : clearpteu pg (v * pgSize) m = .ok pg') :
    (∀ f, pg'.own f = pg.own f) ∧ ∀ w < 2 ^ 20, (pg'.page w).p = (pg.page w).p := by
  unfold clearpteu at h
  rw [walkpgdir_noalloc] at h
  by_cases htab : (pg.pde (pdx (v * pgSize))).isSome
  · simp only [htab, if_true, Except.ok.injEq] at h
    subst h
    refine ⟨fun f => ?_, fun w hw => ?_⟩
    · have huses : ∀ e : Pte, Pte.uses { e with u := false } f = e.uses f := fun e => rfl
      have := PgDir.own_setEntry { pg.entry (v * pgSize) with u := false } hv htab f
      rw [huses, PgDir.page] at this
      exact Nat.add_right_cancel this
    · rw [PgDir.page_setEntry _ (by omega) hw htab]
      split
      · rename_i heq
        rw [heq]
        rfl
      · rfl
  · simp [htab] at h

/-- From the first program header to `clearpteu`. -/
theorem loadImage_built {ip : Inode} {m m' : Mem} {r : Option Nat} (hm : FreelistOK m)
    (hi : UserImage pg 0) (h : loadImage ip pg m = .ok (r, pg', m')) :
    Built pg pg' m m' ∧ ∀ sz, r = some sz → UserImage pg' sz := by
  obtain ⟨⟨r₁, pg₁, m₁⟩, hload, h⟩ := bind_ok h
  obtain ⟨hbuilt₁, hi₁⟩ := loadSegs_spec hm hi hload
  cases r₁ with
  | none =>
    cases h
    exact ⟨hbuilt₁, by simp⟩
  | some sz₁ =>
    have hi₁ := hi₁ sz₁ rfl
    obtain ⟨⟨sz₂, pg₂, m₂⟩, halloc, h⟩ := bind_ok h
    have hbuilt₂ := hbuilt₁.trans (allocuvm_built hbuilt₁.ok halloc)
    simp only at h
    split at h
    · cases h
      exact ⟨hbuilt₂, by simp⟩
    · rename_i hne
      -- the two stack pages were allocated
      obtain ⟨hsz₂, hlt⟩ : sz₂ = pgRoundUp sz₁ + 2 * pgSize ∧
          pgRoundUp sz₁ + 2 * pgSize < kernBase := by
        obtain ⟨-, -, -, -, h0 | ⟨hlt, -⟩ | ⟨-, hlt, rfl, -⟩⟩ :=
          allocuvm_spec hbuilt₁.ok halloc
        · exact absurd h0 hne
        · omega
        · exact ⟨rfl, hlt⟩
      have hround : UserImage pg₁ (pgRoundUp sz₁) := by
        refine ⟨by omega, fun w hw => ?_⟩
        rw [hi₁.present w hw]
        simp only [pgRoundUp, pgSize]
        omega
      have hi₂ := hround.allocuvm hbuilt₁.ok hne halloc
      obtain ⟨pg₃, hclear, h⟩ := bind_ok h
      have hguard : sz₂ - 2 * pgSize = (pgRoundUp sz₁ / pgSize) * pgSize := by
        rw [hsz₂]
        simp only [pgRoundUp, pgSize]
        omega
      rw [hguard] at hclear
      obtain ⟨hown, hpage⟩ := clearpteu_spec (by simp only [pgSize, kernBase] at hlt ⊢; omega) hclear
      cases h
      refine ⟨⟨hbuilt₂.ok, fun f => by rw [hown f]; exact hbuilt₂.balance f⟩, ?_⟩
      rintro _ ⟨⟩
      exact ⟨hi₂.lt, fun w hw => by rw [hpage w (by omega)]; exact hi₂.present w hw⟩

/-- The directory of `setupkvm` has no user pages. -/
theorem setupkvm_image {d : PgDir} {m m' : Mem} (h : setupkvm m = .ok (some d, m')) :
    UserImage d 0 := by
  obtain ⟨-, -, hsome⟩ := setupkvm_spec h
  refine ⟨by decide, fun w hw => ?_⟩
  rw [(hsome d rfl).2.1 w hw]
  simp [Pte.zero]

/-- What the building of the image leaves: the free list as it was, or an address
space made of what was on it. -/
theorem buildImage_built {ip : Inode} {m m' : Mem} {r : Option (Nat × PgDir)} (hm : FreelistOK m)
    (h : buildImage ip m = .ok (r, m')) :
    FreelistOK m' ∧ (r = none → ∀ f, m'.freelist.count f = m.freelist.count f) ∧
      ∀ sz pg, r = some (sz, pg) →
        UserImage pg sz ∧ ∀ f, m'.freelist.count f + pg.own f = m.freelist.count f := by
  obtain ⟨⟨d, m₁⟩, hsetup, h⟩ := bind_ok h
  obtain ⟨hok, hnone, hsome⟩ := setupkvm_spec hsetup
  cases d with
  | none =>
    cases h
    exact ⟨hok hm, fun _ => hnone rfl, by simp⟩
  | some d =>
    obtain ⟨⟨r₁, pg, m₂⟩, himage, h⟩ := bind_ok h
    obtain ⟨hbuilt, hi⟩ := loadImage_built (hok hm) (setupkvm_image hsetup) himage
    have hbal : ∀ f, m₂.freelist.count f + pg.own f = m.freelist.count f :=
      fun f => (hbuilt.balance f).trans ((hsome d rfl).1 f)
    cases r₁ with
    | none =>
      obtain ⟨m₃, hfree, h⟩ := bind_ok h
      obtain ⟨hcount, hok₃⟩ := freevm_spec hfree
      cases h
      exact ⟨hok₃ hbuilt.ok, fun _ f => (hcount f).trans (hbal f), by simp⟩
    | some sz =>
      cases h
      refine ⟨hbuilt.ok, by simp, ?_⟩
      rintro _ _ ⟨⟩
      exact ⟨hi sz rfl, hbal⟩

/-! ## §3  `exec` and `growproc` -/

/-- **`exec`.** When it fails the free list is as before. When it commits,
the process runs in a new address space made of free frames, whose user pages
are those below the new size, and everything the old directory used is on the
free list. -/
theorem exec_ok {p : Fin nproc} {ip : Option Inode} {argv : List (List UInt8)} {s s' : Kernel}
    {r : CallResult} (hm : FreelistOK s.mem) (h : exec p ip argv s = .ok (r, s')) :
    (r = .value (-1) ∧ ∃ m, FreelistOK m ∧
      (∀ f, m.freelist.count f = s.mem.freelist.count f) ∧ s' = { s with mem := m }) ∨
    (r = .value 0 ∧ ∃ pg sz sp m, FreelistOK m ∧ UserImage pg sz ∧
      (∀ f, pg.own f ≤ s.mem.freelist.count f) ∧
      (∀ f, m.freelist.count f + pg.own f =
        s.mem.freelist.count f + (s.proc p).pgdir.own f) ∧
      s' = { s with mem := m }.setProc p
        { s.proc p with pgdir := pg, sz := sz, esp := sp }) := by
  unfold exec at h
  split at h
  · cases h
    exact .inl ⟨rfl, s.mem, hm, fun _ => rfl, rfl⟩
  · rename_i ip
    split at h
    · cases h
      exact .inl ⟨rfl, s.mem, hm, fun _ => rfl, rfl⟩
    · obtain ⟨⟨r₁, m₁⟩, hbuild, h⟩ := bind_ok h
      obtain ⟨hok, hnone, hsome⟩ := buildImage_built hm hbuild
      cases r₁ with
      | none =>
        cases h
        exact .inl ⟨rfl, m₁, hok, hnone rfl, rfl⟩
      | some r₁ =>
        obtain ⟨sz, pg⟩ := r₁
        obtain ⟨hi, hbal⟩ := hsome sz pg rfl
        obtain ⟨⟨r₂, m₂⟩, hpush, h⟩ := bind_ok h
        have hl := pushArgs_freelist hpush
        have hok₂ : FreelistOK m₂ := fun f hf => hok f (hl ▸ hf)
        cases r₂ with
        | none =>
          obtain ⟨m₃, hfree, h⟩ := bind_ok h
          obtain ⟨hcount, hok₃⟩ := freevm_spec hfree
          cases h
          refine .inl ⟨rfl, m₃, hok₃ hok₂, fun f => ?_, rfl⟩
          rw [hcount f, hl, hbal f]
        | some sp =>
          obtain ⟨m₃, hfree, h⟩ := bind_ok h
          obtain ⟨hcount, hok₃⟩ := freevm_spec hfree
          cases h
          refine .inr ⟨rfl, pg, sz, sp, m₃, hok₃ hok₂, hi, fun f => ?_, fun f => ?_, rfl⟩
          · exact (Nat.le_add_left _ _).trans_eq (hbal f)
          · rw [hcount f, hl, Nat.add_right_comm, hbal f]

/-- `growproc`: the process keeps everything but its pages and its size,
which stays below `kernBase`. -/
theorem growproc_ok {p : Fin nproc} {n : Int} {s s' : Kernel} {r : Int} (hm : FreelistOK s.mem)
    (hsz : (s.proc p).sz < kernBase) (h : growproc p n s = .ok (r, s')) :
    ∃ m pg sz, FreelistOK m ∧ sz < kernBase ∧
      (∀ f, m.freelist.count f + pg.own f =
        s.mem.freelist.count f + (s.proc p).pgdir.own f) ∧
      s' = { s with mem := m }.setProc p { s.proc p with pgdir := pg, sz := sz } := by
  unfold growproc at h
  simp only at h
  split at h
  · obtain ⟨⟨sz, pg, m⟩, halloc, h⟩ := bind_ok h
    obtain ⟨hok, -, hbal, -, hcase⟩ := allocuvm_spec hm halloc
    simp only at h
    split at h
    · cases h
      exact ⟨m, pg, (s.proc p).sz, hok, hsz, hbal, rfl⟩
    · cases h
      refine ⟨m, pg, sz, hok, ?_, hbal, rfl⟩
      rcases hcase with h0 | ⟨-, rfl, -⟩ | ⟨-, hlt, rfl, -⟩
      · contradiction
      · exact hsz
      · exact hlt
  · split at h
    · obtain ⟨⟨sz, pg, m⟩, hdealloc, h⟩ := bind_ok h
      obtain ⟨hshed, -⟩ := deallocuvm_spec (by omega) hdealloc
      simp only at h
      split at h
      · cases h
        exact ⟨m, pg, (s.proc p).sz, hshed.ok hm, hsz, hshed.balance, rfl⟩
      · cases h
        refine ⟨m, pg, sz, hshed.ok hm, ?_, hshed.balance, rfl⟩
        unfold deallocuvm at hdealloc
        split at hdealloc
        · cases hdealloc
          exact hsz
        · rename_i hlt
          obtain ⟨⟨pg₁, m₁⟩, -, hdealloc⟩ := bind_ok hdealloc
          cases hdealloc
          omega
    · cases h
      exact ⟨s.mem, (s.proc p).pgdir, (s.proc p).sz, hm, hsz, fun _ => rfl,
        (Kernel.setProc_eq_self s p).symm⟩

end Xv6
