import Xv6.Kernel.Dealloc
import Xv6.Kernel.Growproc

/-!
# `exec` builds an image from any file

The part of `exec` before the arguments: `setupkvm`, the loop over the program
headers with `allocuvm` and `loaduvm`, the two stack pages and `clearpteu`. The
headers are whatever the file holds. What keeps the calls from panicking is
that the user pages of the new directory are at all times those below the
running size (`UserImage`): `allocuvm` starts above them, so that no page is
mapped twice, and what `loaduvm` and `clearpteu` look up is below the size
`allocuvm` just returned. All that the directory owns was on the free list, so
`freevm` can give it back.
-/

namespace Xv6

open Outcome

variable [Image]

/-! ## §1  The loops end

Each loop has a bound on its rounds as an argument. With the bounds of the
functions the loops have run out before their bounds: any larger bound gives
the same result. -/

theorem allocLoop_rounds {oldsz newsz : Nat} (k fuel v : Nat) (pg : PgDir) (m : Mem)
    (h : newsz ≤ (v + fuel) * pgSize) :
    allocLoop oldsz newsz (fuel + k) pg (v * pgSize) m =
      allocLoop oldsz newsz fuel pg (v * pgSize) m := by
  induction fuel generalizing v pg m with
  | zero =>
    have hdone : ¬ v * pgSize < newsz := Nat.not_lt.mpr h
    cases k with
    | zero => rfl
    | succ k =>
      rw [Nat.zero_add]
      simp only [allocLoop, hdone, if_false]
  | succ fuel ih =>
    have hnext := (Nat.add_one_mul v pgSize).symm
    have hleft : newsz ≤ (v + 1 + fuel) * pgSize := by
      rwa [Nat.add_right_comm, Nat.add_assoc]
    rw [Nat.add_right_comm]
    simp only [allocLoop, hnext, ih (v + 1) _ _ hleft]

omit [Image] in
theorem loadLoop_rounds {pg : PgDir} {addr : Nat} {ip : Inode} {offset sz : Nat} (k fuel i : Nat)
    (m : Mem) (h : sz ≤ i + fuel * pgSize) :
    loadLoop pg addr ip offset sz (fuel + k) i m = loadLoop pg addr ip offset sz fuel i m := by
  induction fuel generalizing i m with
  | zero =>
    have hdone : ¬ i < sz := by omega
    cases k with
    | zero => rfl
    | succ k =>
      rw [Nat.zero_add]
      simp only [loadLoop, hdone, if_false]
  | succ fuel ih =>
    have hleft : sz ≤ i + pgSize + fuel * pgSize := by
      rw [Nat.succ_mul] at h
      omega
    rw [Nat.add_right_comm]
    simp only [loadLoop, ih (i + pgSize) _ hleft]

/-! ## §2  No call panics -/

/-- What holds while the image is built: the user pages are those below the
running size, and everything the directory owns is a frame. -/
structure Loading (pg : PgDir) (sz : Nat) (m : Mem) : Prop where
  image : UserImage pg sz
  ok : FreelistOK m
  owns : ∀ f, 0 < pg.own f → IsFrame f

/-- What was taken from the free list is a frame, as what was there before. -/
theorem Built.owns {pg pg' : PgDir} {m m' : Mem} (h : Built pg pg' m m') (hm : FreelistOK m)
    (ho : ∀ f, 0 < pg.own f → IsFrame f) : ∀ f, 0 < pg'.own f → IsFrame f := by
  intro f hf
  have hbal := h.balance f
  rcases Nat.eq_zero_or_pos (pg.own f) with h0 | hpos
  · refine hm f (List.count_pos_iff.mp ?_)
    omega
  · exact ho f hpos

section Loading

variable {pg pg' : PgDir} {sz : Nat} {m m' : Mem}

theorem Loading.of_freelist (h : Loading pg sz m) (hl : m'.freelist = m.freelist) :
    Loading pg sz m' :=
  ⟨h.image, fun f hf => h.ok f (hl ▸ hf), h.owns⟩

/-- **`allocuvm` comes back**: it starts above the pages that are mapped. -/
theorem Loading.allocuvm_returns (h : Loading pg sz m) (newsz : Nat) :
    ∃ r pg' m', allocuvm pg sz newsz m = .ok (r, pg', m') := by
  unfold allocuvm
  by_cases hkern : kernBase ≤ newsz
  · rw [if_pos hkern]
    exact ⟨_, _, _, rfl⟩
  · by_cases hlt : newsz < sz
    · rw [if_neg hkern, if_pos hlt]
      exact ⟨_, _, _, rfl⟩
    · have hpages : ∀ w, pgRoundUp sz ≤ w * pgSize → w * pgSize < newsz → (pg.page w).p = false := by
        intro w hlow hhigh
        have hw : w < 2 ^ 19 := by
          simp only [pgSize, kernBase] at *
          omega
        have habove : ¬ w * pgSize < sz := by
          simp only [pgRoundUp, pgSize] at *
          omega
        exact Bool.eq_false_iff.mpr (mt (h.image.present w hw).mp habove)
      obtain ⟨b, pg', m', hloop⟩ : ∃ b pg' m', allocLoop sz newsz (newsz / pgSize + 1) pg
          ((sz + pgSize - 1) / pgSize * pgSize) m = .ok (b, pg', m') :=
        allocLoop_returns (Nat.lt_of_not_le hkern) h.ok
        (fun w h₁ h₂ => hpages w (Nat.mul_le_mul_right pgSize h₁) h₂)
        (fun w h₁ h₂ hp => by rw [hpages w h₂ h₁] at hp; cases hp)
      rw [if_neg hkern, if_neg hlt]
      exact ⟨_, _, _, ok_bind hloop rfl⟩

/-- After `allocuvm` succeeded, the next size. -/
theorem Loading.allocuvm (h : Loading pg sz m) {newsz r : Nat} (hr : r ≠ 0)
    (hrun : Xv6.allocuvm pg sz newsz m = .ok (r, pg', m')) : Loading pg' r m' where
  image := h.image.allocuvm h.ok hr hrun
  ok := (allocuvm_built h.ok hrun).ok
  owns := (allocuvm_built h.ok hrun).owns h.ok h.owns

/-- The size returned reaches the one asked for. -/
theorem allocuvm_le (hm : FreelistOK m) {newsz r : Nat} (hr : r ≠ 0)
    (hrun : Xv6.allocuvm pg sz newsz m = .ok (r, pg', m')) : newsz ≤ r := by
  obtain ⟨-, -, -, -, h0 | ⟨hlt, rfl, -⟩ | ⟨-, -, rfl, -⟩⟩ := allocuvm_spec hm hrun
  · exact absurd h0 hr
  · exact Nat.le_of_lt hlt
  · exact Nat.le_refl r

omit [Image] in
theorem Inode.u32_lt (ip : Inode) (off : Nat) : ip.u32 off < 2 ^ 32 := by
  have h₀ := (ip.data off).toNat_lt
  have h₁ := (ip.data (off + 1)).toNat_lt
  have h₂ := (ip.data (off + 2)).toNat_lt
  have h₃ := (ip.data (off + 2 + 1)).toNat_lt
  simp only [Inode.u32, Inode.u16]
  omega

omit [Image] in
/-- **`loaduvm` comes back** if the segment is below the size. -/
theorem loadLoop_returns (ip : Inode) (offset : Nat) {addr n : Nat}
    (htab : ∀ i < n, (pg.pde (pdx (addr + i))).isSome) (fuel i : Nat) (m : Mem) :
    ∃ b m', loadLoop pg addr ip offset n fuel i m = .ok (b, m') := by
  induction fuel generalizing i m with
  | zero => exact ⟨true, m, rfl⟩
  | succ fuel ih =>
    rw [loadLoop]
    by_cases hlt : i < n
    · rw [if_pos hlt, walkpgdir_noalloc, if_pos (htab i hlt)]
      dsimp only
      generalize (if n - i < pgSize then n - i else pgSize) = k
      cases readi ip ((offset + i) % 2 ^ 32) k with
      | none => exact ⟨false, m, rfl⟩
      | some c =>
        dsimp only
        by_cases hc : c = k
        · rw [if_pos hc]
          exact ih _ _
        · rw [if_neg hc]
          exact ⟨false, _, rfl⟩
    · rw [if_neg hlt]
      exact ⟨true, m, rfl⟩

omit [Image] in
/-- An address below the size has its page table. -/
theorem UserImage.tab {pg : PgDir} {sz va : Nat} (h : UserImage pg sz) (hva : va < sz) :
    (pg.pde (pdx va)).isSome := by
  have hlt := h.lt
  have hpage : (pg.page (va / pgSize)).p = true := by
    refine (h.present _ ?_).mpr ?_ <;> simp only [pgSize, kernBase] at * <;> omega
  have hpdx : pdx (va / pgSize * pgSize) = pdx va := by
    simp only [pdx, pgSize]
    omega
  rw [← hpdx]
  exact tab_of_present hpage

/-- **The loop over the program headers comes back**, whatever the headers. -/
theorem loadSegs_returns (ip : Inode) (n off sz : Nat) (pg : PgDir) (m : Mem)
    (h : Loading pg sz m) :
    ∃ r pg' m', loadSegs ip n off sz pg m = .ok (r, pg', m') := by
  induction n generalizing off sz pg m with
  | zero => exact ⟨_, _, _, rfl⟩
  | succ n ih =>
    rw [loadSegs]
    by_cases hread : readi ip off 32 ≠ some 32
    · rw [if_pos hread]
      exact ⟨_, _, _, rfl⟩
    · rw [if_neg hread]
      by_cases htype : ip.u32 off ≠ 1
      · rw [if_pos htype]
        exact ih _ _ _ _ h
      · rw [if_neg htype]
        dsimp only
        generalize ip.u32 (off + 4) = offset
        generalize ip.u32 (off + 8) = vaddr
        generalize ip.u32 (off + 16) = filesz
        have hmemsz := ip.u32_lt (off + 20)
        generalize ip.u32 (off + 20) = memsz at hmemsz ⊢
        by_cases hsize : memsz < filesz
        · rw [if_pos hsize]
          exact ⟨_, _, _, rfl⟩
        by_cases hwrap : (vaddr + memsz) % 2 ^ 32 < vaddr
        · rw [if_neg hsize, if_pos hwrap]
          exact ⟨_, _, _, rfl⟩
        rw [if_neg hsize, if_neg hwrap]
        obtain ⟨sz₁, pg₁, m₁, halloc⟩ := h.allocuvm_returns ((vaddr + memsz) % 2 ^ 32)
        rw [halloc, bind_of_ok]
        dsimp only
        by_cases h0 : sz₁ = 0
        · rw [if_pos h0]
          exact ⟨_, _, _, rfl⟩
        by_cases halign : vaddr % pgSize ≠ 0
        · rw [if_neg h0, if_pos halign]
          exact ⟨_, _, _, rfl⟩
        rw [if_neg h0, if_neg halign]
        have h₁ := h.allocuvm h0 halloc
        have hle := allocuvm_le h.ok h0 halloc
        have hbelow : ∀ i < filesz, (pg₁.pde (pdx (vaddr + i))).isSome := by
          intro i hi
          refine h₁.image.tab ?_
          omega
        obtain ⟨b, m₂, hload⟩ := loadLoop_returns ip offset hbelow
          (filesz / pgSize + 1) 0 m₁
        have hrun : loaduvm pg₁ vaddr ip offset filesz m₁ = .ok (b, m₂) := by
          rw [loaduvm, if_neg halign]
          exact hload
        rw [hrun, bind_of_ok]
        cases b with
        | false => exact ⟨_, _, _, rfl⟩
        | true => exact ih _ _ _ _ (h₁.of_freelist (loaduvm_freelist hrun))

/-- **Induction over the program headers** that were all loaded: a property of
directory, size and free list that every successful `allocuvm` keeps. -/
theorem loadSegs_induction {ip : Inode} {I : PgDir → Nat → Mem → Prop}
    (halloc : ∀ {pg sz m newsz r pg' m'}, I pg sz m → r ≠ 0 →
      Xv6.allocuvm pg sz newsz m = .ok (r, pg', m') → I pg' r m')
    (hload : ∀ {pg sz m m'}, I pg sz m → m'.freelist = m.freelist → I pg sz m')
    {sz' : Nat} (n off sz : Nat) (pg : PgDir) (m : Mem) (h : I pg sz m)
    (hrun : loadSegs ip n off sz pg m = .ok (some sz', pg', m')) : I pg' sz' m' := by
  induction n generalizing off sz pg m with
  | zero =>
    cases hrun
    exact h
  | succ n ih =>
    rw [loadSegs] at hrun
    split at hrun
    · cases hrun
    split at hrun
    · exact ih _ _ _ _ h hrun
    dsimp only at hrun
    split at hrun
    · cases hrun
    split at hrun
    · cases hrun
    obtain ⟨⟨sz₁, pg₁, m₁⟩, hstep, hrun⟩ := bind_ok hrun
    dsimp only at hrun
    split at hrun
    · cases hrun
    rename_i h0
    split at hrun
    · cases hrun
    obtain ⟨⟨b, m₂⟩, hread, hrun⟩ := bind_ok hrun
    cases b with
    | false => cases hrun
    | true => exact ih _ _ _ _ (hload (halloc h h0 hstep) (loaduvm_freelist hread)) hrun

/-- The loop of `allocuvm` adds the page tables of its pages. -/
theorem allocLoop_tabs {oldsz newsz : Nat} (hsz : newsz < kernBase) {fuel v : Nat} {pg : PgDir}
    {m : Mem} (hfuel : pagesFor newsz ≤ v + fuel)
    (h : allocLoop oldsz newsz fuel pg (v * pgSize) m = .ok (true, pg', m')) (d : Nat) :
    (pg'.pde d).isSome ↔
      (pg.pde d).isSome ∨ ∃ w, v ≤ w ∧ w < pagesFor newsz ∧ d = w / 1024 := by
  have hbound : pagesFor newsz ≤ 2 ^ 19 := by
    simp only [pagesFor, pgSize, kernBase] at *
    omega
  have hmore : ∀ w, w * pgSize < newsz ↔ w < pagesFor newsz := fun w => by
    simp only [pagesFor, pgSize]
    omega
  induction fuel generalizing v pg m with
  | zero =>
    cases h
    refine ⟨.inl, ?_⟩
    rintro (hd | ⟨w, hlow, hhigh, -⟩)
    · exact hd
    · omega
  | succ fuel ih =>
    rcases allocLoop_round h with ⟨hge, -, rfl, -⟩ |
      ⟨hlt, ⟨-, ⟨⟩, -⟩ | ⟨mem, m₁, b₁, pg₁, m₂, -, hmap, ⟨-, ⟨⟩, -⟩ | ⟨rfl, h⟩⟩⟩
    · have hv := mt (hmore v).mpr (Nat.not_lt.mpr hge)
      refine ⟨.inl, ?_⟩
      rintro (hd | ⟨w, hlow, hhigh, -⟩)
      · exact hd
      · omega
    · have hv := (hmore v).mp hlt
      obtain ⟨-, -, -, htab⟩ := mappages_page_tabled (by omega) hmap
      refine (ih (by omega) h).trans ?_
      rw [htab d]
      constructor
      · rintro ((hd | rfl) | ⟨w, hlow, hhigh, rfl⟩)
        · exact .inl hd
        · exact .inr ⟨v, Nat.le_refl v, hv, rfl⟩
        · exact .inr ⟨w, by omega, hhigh, rfl⟩
      · rintro (hd | ⟨w, hlow, hhigh, rfl⟩)
        · exact .inl (.inl hd)
        · rcases Nat.eq_or_lt_of_le hlow with rfl | hlow
          · exact .inl (.inr rfl)
          · exact .inr ⟨w, hlow, hhigh, rfl⟩

/-- The page tables are the kernel's and those of the pages below the size, and
the pages of the kernel are not the user's. -/
structure KernelHalf (pg : PgDir) (sz : Nat) : Prop where
  tab : ∀ d, (pg.pde d).isSome ↔ KernelTab d ∨ ∃ w, w * pgSize < sz ∧ d = w / 1024
  kernel : ∀ w < 2 ^ 20, 2 ^ 19 ≤ w → (pg.page w).u = false

theorem KernelHalf.allocuvm {newsz r : Nat} (hm : FreelistOK m) (h : KernelHalf pg sz)
    (hr : r ≠ 0) (hrun : Xv6.allocuvm pg sz newsz m = .ok (r, pg', m')) : KernelHalf pg' r := by
  obtain ⟨-, -, -, hsame, hcase⟩ := allocuvm_spec hm hrun
  rcases hcase with h0 | ⟨-, rfl, rfl⟩ | ⟨hle, hlt, rfl, -⟩
  · exact absurd h0 hr
  · exact h
  · refine ⟨fun d => ?_, fun w hw hlow => ?_⟩
    · rw [Xv6.allocuvm, if_neg (by omega), if_neg (by omega)] at hrun
      obtain ⟨⟨b, pg₁, m₁⟩, hloop, hrun⟩ := bind_ok hrun
      cases b with
      | false =>
        simp only [Except.ok.injEq, Prod.mk.injEq] at hrun
        exact absurd hrun.1.symm hr
      | true =>
        cases hrun
        have hfuel : pagesFor r ≤ (sz + pgSize - 1) / pgSize + (r / pgSize + 1) :=
          (pagesFor_le r).trans (Nat.le_add_left _ _)
        rw [allocLoop_tabs hlt hfuel hloop d, h.tab d, or_assoc]
        refine or_congr_right ⟨?_, ?_⟩
        · rintro (⟨w, hw, rfl⟩ | ⟨w, -, hw, rfl⟩)
          · exact ⟨w, Nat.lt_of_lt_of_le hw hle, rfl⟩
          · refine ⟨w, ?_, rfl⟩
            simp only [pagesFor, pgSize] at *
            omega
        · rintro ⟨w, hw, rfl⟩
          by_cases hold : w * pgSize < sz
          · exact .inl ⟨w, hold, rfl⟩
          · refine .inr ⟨w, ?_, ?_, rfl⟩ <;> simp only [pagesFor, pgSize] at * <;> omega
    · rw [hsame w hw (.inr ?_)]
      · exact h.kernel w hw hlow
      · simp only [pgSize, kernBase] at *
        omega

/-- All the headers loaded. -/
theorem loadSegs_loading {ip : Inode} {n off sz' : Nat} (h : Loading pg sz m)
    (hk : KernelHalf pg sz) (hrun : loadSegs ip n off sz pg m = .ok (some sz', pg', m')) :
    Loading pg' sz' m' ∧ KernelHalf pg' sz' :=
  loadSegs_induction (I := fun pg sz m => Loading pg sz m ∧ KernelHalf pg sz)
    (fun h hr hrun => ⟨h.1.allocuvm hr hrun, h.2.allocuvm h.1.ok hr hrun⟩)
    (fun h hl => ⟨h.1.of_freelist hl, h.2⟩) n off sz pg m ⟨h, hk⟩ hrun

/-- The rows of `kmap` are not the user's. -/
theorem mapKernel_user {rs : List KMap} {pg pg' : PgDir} {m m' : Mem}
    (hrow : ∀ r ∈ rs, r.perm.u = false ∧ 0 < r.size ∧ r.virt + r.size ≤ 2 ^ 32)
    (hpg : ∀ w < 2 ^ 20, (pg.page w).u = false)
    (h : mapKernel rs pg m = .ok (some pg', m')) : ∀ w < 2 ^ 20, (pg'.page w).u = false := by
  induction rs generalizing pg m with
  | nil =>
    cases h
    exact hpg
  | cons r rs ih =>
    obtain ⟨⟨hperm, hpos, hend⟩, hrow⟩ := List.forall_mem_cons.mp hrow
    rw [mapKernel] at h
    obtain ⟨⟨b, pg₁, m₁⟩, hmap, h⟩ := bind_ok h
    cases b with
    | false =>
      obtain ⟨m₂, -, h⟩ := bind_ok h
      cases h
    | true =>
      refine ih hrow (fun w hw => ?_) h
      have hlast := r.last_lt hend
      have hfirst := KMap.first_le_last hpos
      rw [mappages_row] at hmap
      obtain ⟨-, k, -, -, -, hentry⟩ := mapLoop_spec (by omega) hmap
      rw [hentry w hw]
      split
      · exact hperm
      · exact hpg w hw

theorem setupkvm_kernelHalf {d : PgDir} (h : setupkvm m = .ok (some d, m')) : KernelHalf d 0 := by
  refine ⟨fun t => ?_, fun w hw _ => ?_⟩
  · rw [((setupkvm_count h).1 d rfl).2.1 t]
    simp
  · unfold setupkvm at h
    split at h
    · cases h
    · dsimp only at h
      split at h
      · cases h
      · refine mapKernel_user (fun r hr => ?_) (fun _ _ => rfl) h w hw
        refine ⟨?_, (kmap_kernel hr).2⟩
        simp only [kmap, List.mem_cons, List.not_mem_nil, or_false] at hr
        rcases hr with rfl | rfl | rfl | rfl <;> rfl

/-! ## §3  The image as a whole -/

/-- The address space of a program that is about to get its arguments: the user
pages are those below the size; the topmost is the stack, and the one under it
is not for the user. -/
structure NewSpace (pg : PgDir) (sz : Nat) : Prop where
  image : UserImage pg sz
  half : KernelHalf pg sz
  aligned : sz % pgSize = 0
  two : 2 * pgSize ≤ sz
  guard : (pg.page (sz / pgSize - 2)).u = false
  stack : ∃ f, IsFrame f ∧ pg.page (sz / pgSize - 1) = .map (v2p f) permWU

omit [Image] in
theorem page_lt_roundUp (w sz : Nat) : w * pgSize < pgRoundUp sz ↔ w * pgSize < sz := by
  simp only [pgRoundUp, pgSize]
  omega

theorem Loading.round (h : Loading pg sz m) (hlt : pgRoundUp sz < kernBase) :
    Loading pg (pgRoundUp sz) m where
  image := ⟨hlt, fun w hw => (h.image.present w hw).trans (page_lt_roundUp w sz).symm⟩
  ok := h.ok
  owns := h.owns

omit [Image] in
theorem KernelHalf.round (h : KernelHalf pg sz) : KernelHalf pg (pgRoundUp sz) where
  tab d := by simp only [page_lt_roundUp, h.tab d]
  kernel := h.kernel

/-- The two pages of the stack; a size too large is refused. -/
theorem Loading.stack_returns (h : Loading pg sz m) :
    ∃ r pg' m', Xv6.allocuvm pg (pgRoundUp sz) (pgRoundUp sz + 2 * pgSize) m = .ok (r, pg', m') := by
  by_cases hlt : pgRoundUp sz < kernBase
  · exact (h.round hlt).allocuvm_returns _
  · rw [Xv6.allocuvm, if_pos (by omega)]
    exact ⟨_, _, _, rfl⟩

omit [Image] in
/-- `clearpteu` on a page that is present. -/
theorem clearpteu_present {v : Nat} (hv : v < 2 ^ 19) (hp : (pg.page v).p = true) (m : Mem) :
    ∃ pg', clearpteu pg (v * pgSize) m = .ok pg' ∧
      (∀ d, (pg'.pde d).isSome ↔ (pg.pde d).isSome) ∧
      ∀ w < 2 ^ 20, pg'.page w = if w = v then { pg.page v with u := false } else pg.page w := by
  have htab := tab_of_present hp
  refine ⟨pg.setEntry (v * pgSize) { pg.entry (v * pgSize) with u := false }, ?_,
    pg.setEntry_pde_isSome _ _, fun w hw => PgDir.page_setEntry _ (by omega) hw htab⟩
  rw [clearpteu, walkpgdir_noalloc, if_pos htab]

/-- When the stack pages are allocated, `clearpteu` finds the lower one, and the
address space is complete. -/
theorem Loading.stack {r : Nat} (h : Loading pg sz m) (hk : KernelHalf pg sz) (hr : r ≠ 0)
    (hrun : Xv6.allocuvm pg (pgRoundUp sz) (pgRoundUp sz + 2 * pgSize) m = .ok (r, pg', m')) :
    ∃ pg'', clearpteu pg' (r - 2 * pgSize) m' = .ok pg'' ∧ NewSpace pg'' r := by
  obtain ⟨-, -, -, -, hcase⟩ := allocuvm_spec h.ok hrun
  obtain ⟨hr', hlt, hnew⟩ : r = pgRoundUp sz + 2 * pgSize ∧ r < kernBase ∧
      ∀ w, pgRoundUp (pgRoundUp sz) ≤ w * pgSize → w * pgSize < r →
        ∃ mem, IsFrame mem ∧ pg'.page w = .map (v2p mem) permWU := by
    rcases hcase with h0 | ⟨hlt, -⟩ | ⟨-, hlt, rfl, hnew⟩
    · exact absurd h0 hr
    · omega
    · exact ⟨rfl, hlt, hnew⟩
  have hround : pgRoundUp sz < kernBase := by omega
  have h' := (h.round hround).allocuvm hr hrun
  have hk' := hk.round.allocuvm h.ok hr hrun
  -- the lower page is number `g`, the stack is the next one
  obtain ⟨g, hg⟩ : ∃ g, pgRoundUp sz = g * pgSize := ⟨_, rfl⟩
  have hsize : r = (g + 2) * pgSize := by
    rw [hr', hg, Nat.add_mul]
  have hg19 : g + 2 < 2 ^ 19 := by
    simp only [pgSize, kernBase] at *
    omega
  have hpages : r / pgSize = g + 2 := by
    rw [hsize]
    exact Nat.mul_div_cancel _ (by decide)
  have hlower : r - 2 * pgSize = g * pgSize := by
    rw [hsize, Nat.add_mul, Nat.add_sub_cancel]
  obtain ⟨f, hf, hstack⟩ := hnew (g + 1)
    (by rw [hg]; simp only [pgRoundUp, pgSize]; omega)
    (by rw [hsize]; simp only [pgSize]; omega)
  have hpresent : (pg'.page g).p = true :=
    (h'.image.present g (by omega)).mpr (by rw [hsize]; simp only [pgSize]; omega)
  obtain ⟨pg'', hclear, htab, hpage⟩ := clearpteu_present (by omega) hpresent m'
  obtain ⟨-, hp⟩ := clearpteu_spec (by omega) hclear
  refine ⟨pg'', by rw [hlower]; exact hclear, ?_⟩
  refine ⟨⟨h'.image.lt, fun w hw => ?_⟩, ⟨fun d => (htab d).trans (hk'.tab d), fun w hw hlow => ?_⟩,
    ?_, ?_, ?_, ⟨f, hf, ?_⟩⟩
  · rw [hp w (by omega)]
    exact h'.image.present w hw
  · rw [hpage w hw, if_neg (by omega)]
    exact hk'.kernel w hw hlow
  · rw [hsize]
    exact Nat.mul_mod_left _ _
  · rw [hsize, Nat.add_mul]
    exact Nat.le_add_left _ _
  · rw [hpages, Nat.add_sub_cancel, hpage g (by omega), if_pos rfl]
  · rw [hpages, show g + 2 - 1 = g + 1 by omega, hpage _ (by omega), if_neg (by omega), hstack]

/-- **`loadImage` comes back**, for every file. -/
theorem loadImage_returns (ip : Inode) (h : Loading pg 0 m) (hk : KernelHalf pg 0) :
    ∃ r pg' m', loadImage ip pg m = .ok (r, pg', m') := by
  obtain ⟨r₁, pg₁, m₁, hload⟩ := loadSegs_returns ip (ip.u16 44) (ip.u32 28) 0 pg m h
  rw [loadImage, hload, bind_of_ok]
  cases r₁ with
  | none => exact ⟨_, _, _, rfl⟩
  | some sz =>
    obtain ⟨h₁, hk₁⟩ := loadSegs_loading h hk hload
    obtain ⟨r₂, pg₂, m₂, halloc⟩ := h₁.stack_returns
    dsimp only
    rw [halloc, bind_of_ok]
    dsimp only
    by_cases h0 : r₂ = 0
    · rw [if_pos h0]
      exact ⟨_, _, _, rfl⟩
    · obtain ⟨pg₃, hclear, -⟩ := h₁.stack hk₁ h0 halloc
      rw [if_neg h0, hclear]
      exact ⟨_, _, _, rfl⟩

/-- After success the address space is complete. -/
theorem loadImage_space {ip : Inode} (h : Loading pg 0 m) (hk : KernelHalf pg 0)
    (hrun : loadImage ip pg m = .ok (some sz, pg', m')) : NewSpace pg' sz := by
  obtain ⟨⟨r₁, pg₁, m₁⟩, hload, hrun⟩ := bind_ok hrun
  cases r₁ with
  | none => cases hrun
  | some sz₁ =>
    obtain ⟨h₁, hk₁⟩ := loadSegs_loading h hk hload
    obtain ⟨⟨r₂, pg₂, m₂⟩, halloc, hrun⟩ := bind_ok hrun
    dsimp only at hrun
    split at hrun
    · cases hrun
    · rename_i h0
      obtain ⟨pg₃, hclear, hspace⟩ := h₁.stack hk₁ h0 halloc
      rw [hclear] at hrun
      cases hrun
      exact hspace

/-- The directory of `setupkvm`, before anything is loaded. -/
theorem setupkvm_loading {d : PgDir} (hm : FreelistOK m) (h : setupkvm m = .ok (some d, m')) :
    Loading d 0 m' ∧ KernelHalf d 0 := by
  obtain ⟨hok, -, hsome⟩ := setupkvm_spec h
  refine ⟨⟨setupkvm_image h, hok hm, fun f hf => ?_⟩, setupkvm_kernelHalf h⟩
  refine hm f (List.count_pos_iff.mp ?_)
  have := (hsome d rfl).1 f
  omega

theorem buildImage_space {ip : Inode} (hm : FreelistOK m)
    (h : buildImage ip m = .ok (some (sz, pg), m')) : NewSpace pg sz := by
  obtain ⟨⟨d, m₁⟩, hsetup, h⟩ := bind_ok h
  cases d with
  | none => cases h
  | some d =>
    obtain ⟨hload, hk⟩ := setupkvm_loading hm hsetup
    obtain ⟨⟨r₁, pg₁, m₂⟩, himage, h⟩ := bind_ok h
    cases r₁ with
    | none =>
      obtain ⟨m₃, -, h⟩ := bind_ok h
      cases h
    | some sz₁ =>
      cases h
      exact loadImage_space hload hk himage

/-- `buildImage` comes back, for every file and every free list. -/
theorem buildImage_returns (ip : Inode) (hm : FreelistOK m) :
    ∃ r m', buildImage ip m = .ok (r, m') := by
  obtain ⟨d, m₁, hsetup⟩ := setupkvm_returns hm
  unfold buildImage
  rw [hsetup, bind_of_ok]
  cases d with
  | none => exact ⟨_, _, rfl⟩
  | some d =>
    obtain ⟨hload, hk⟩ := setupkvm_loading hm hsetup
    obtain ⟨r₁, pg, m₂, himage⟩ := loadImage_returns ip hload hk
    obtain ⟨hbuilt, -⟩ := loadImage_built hload.ok hload.image himage
    dsimp only
    rw [himage, bind_of_ok]
    cases r₁ with
    | none =>
      have howns := ownsFrames_of_own (hbuilt.owns hload.ok hload.owns)
      obtain ⟨m₃, hfree⟩ := freevm_owns howns m₂
      dsimp only
      rw [hfree]
      exact ⟨_, _, rfl⟩
    | some sz => exact ⟨_, _, rfl⟩

/-- The loops of `vm.c` run out before their bounds, for sizes of user memory. -/
structure LoopsEnd : Prop where
  alloc : ∀ k oldsz newsz pg m, allocLoop oldsz newsz (newsz / pgSize + 1 + k) pg (pgRoundUp oldsz) m =
    allocLoop oldsz newsz (newsz / pgSize + 1) pg (pgRoundUp oldsz) m
  dealloc : ∀ k oldsz newsz pg m, oldsz ≤ kernBase →
    deallocLoop oldsz (oldsz / pgSize + 1 + k) pg (pgRoundUp newsz) m =
      deallocLoop oldsz (oldsz / pgSize + 1) pg (pgRoundUp newsz) m
  load : ∀ k pg addr ip offset sz m, loadLoop pg addr ip offset sz (sz / pgSize + 1 + k) 0 m =
    loadLoop pg addr ip offset sz (sz / pgSize + 1) 0 m

theorem loopsEnd : LoopsEnd where
  alloc k oldsz newsz pg m := by
    refine allocLoop_rounds k _ ((oldsz + pgSize - 1) / pgSize) pg m ?_
    simp only [pgSize]
    omega
  dealloc k oldsz newsz pg m h := by
    rw [pgRoundUp, deallocLoop_visits h rfl, deallocLoop_visits h rfl]
    · simp only [pgSize]
      omega
    · simp only [pgSize]
      omega
  load k pg addr ip offset sz m := by
    refine loadLoop_rounds k _ 0 m ?_
    simp only [pgSize]
    omega

/-- **Building the image never panics.** For every file and every free list
`setupkvm`, the loop over the program headers, the stack pages and `clearpteu`
come back, their loops having run out; and if the image is not built, the free
frames are those of before. -/
theorem buildImage_safe (ip : Inode) (m : Mem) (hm : FreelistOK m) :
    (∃ r m', buildImage ip m = .ok (r, m') ∧ (r = none → m'.freelist.Perm m.freelist)) ∧
      LoopsEnd := by
  obtain ⟨r, m', h⟩ := buildImage_returns ip hm
  refine ⟨⟨r, m', h, fun hr => ?_⟩, loopsEnd⟩
  exact List.perm_iff_count.mpr ((buildImage_built hm h).2.1 hr)

/-- An ELF file of two segments that share a page. -/
def overlapping : Inode :=
  ⟨4096, fun i => ([elfMagic, 0, 0, 0, 0, 0, 0, 52, 0, 0, 0, 2, 0,
    1, 0, 0, 0, 100, 8192, 0, 0,
    1, 0, 4096, 0, 100, 8192, 0, 0].flatMap wordBytes).getD i 0⟩

omit [Image] in
theorem buildImage_safe_overlapping :
    @FreelistOK sampleImage ⟨frames 2000 0x82400000, fun _ _ => 0⟩ ∧
      ∃ r m', @buildImage sampleImage overlapping ⟨frames 2000 0x82400000, fun _ _ => 0⟩ =
        .ok (r, m') ∧ (r = none → m'.freelist.Perm (frames 2000 0x82400000)) :=
  have hok := (frames_ok (n := 2000) (by decide)).1
  ⟨hok, (@buildImage_safe sampleImage overlapping _ hok).1⟩

end Loading

end Xv6
