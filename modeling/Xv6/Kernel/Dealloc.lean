import Xv6.Kernel.Boot
import Xv6.Kernel.Copyuvm

/-!
# `deallocuvm` in `uint`s, and what it and `freevm` free

The loop of `deallocuvm` moves its counter in `uint`s, and where a page table
is missing it sets it to the end of the directory entry, less a page that the
loop's own increment adds again. For sizes up to `kernBase` it is the loop
without wrap-around, and so the visit of its pages one by one.
-/

namespace Xv6

open Outcome

variable [Image]

/-! ## §1  The loop in `uint`s -/

/-- `PGADDR(d, t, o)`. -/
def pgAddr (d t o : Nat) : Nat := (d <<< 22 ||| t <<< 12 ||| o) % 2 ^ 32

/-- `PGROUNDUP` as the `uint` expression it is. -/
def pgRoundUpU (sz : Nat) : Nat := (sz + pgSize - 1) % 2 ^ 32 / pgSize * pgSize

/-- `a - b` of two `uint`s. -/
def subU (a b : Nat) : Nat := (a + 2 ^ 32 - b) % 2 ^ 32

/-- `a + b` of two `uint`s. -/
def addU (a b : Nat) : Nat := (a + b) % 2 ^ 32

/-- The counter where there is no page table: `PGADDR(PDX(a) + 1, 0, 0) - PGSIZE`. -/
def skipTo (a : Nat) : Nat := subU (pgAddr (pdx a + 1) 0 0) pgSize

/-- The loop of `deallocuvm` on a `uint` counter; `none` when it is still
running after `fuel` rounds. -/
def deallocRounds (oldsz : Nat) : Nat → PgDir → Nat → Mem → Except Panic (Option (PgDir × Mem))
  | 0, _, _, _ => .ok none
  | fuel + 1, pg, a, m =>
    if a < oldsz then
      match walkpgdir pg a false m with
      | none => deallocRounds oldsz fuel pg (addU (skipTo a) pgSize) m
      | some _ =>
        let pte := pg.entry a
        if pte.p then
          if pte.pa = 0 then .error .kfree
          else do
            let m ← kfree (p2v pte.pa) m
            deallocRounds oldsz fuel (pg.setEntry a .zero) (addU a pgSize) m
        else deallocRounds oldsz fuel pg (addU a pgSize) m
    else .ok (some (pg, m))

/-- `deallocuvm` with the counter it has in the source. -/
def deallocuvmU (fuel : Nat) (pg : PgDir) (oldsz newsz : Nat) (m : Mem) :
    Except Panic (Option (Nat × PgDir × Mem)) :=
  if oldsz ≤ newsz then .ok (some (oldsz, pg, m))
  else do
    let r ← deallocRounds oldsz fuel pg (pgRoundUpU newsz) m
    .ok (r.map fun r => (newsz, r))

variable {a hi lo oldsz : Nat}

omit [Image] in
/-- Below `kernBase` the skip lands on the first page of the next directory entry. -/
theorem skip_eq (ha : a < kernBase) :
    addU (skipTo a) pgSize = (pdx a + 1) * 2 ^ 22 := by
  have hd : pdx a < 512 := by
    simp only [pdx, kernBase] at *
    omega
  have hshift : (pdx a + 1) <<< 22 = (pdx a + 1) * 2 ^ 22 := Nat.shiftLeft_eq _ _
  simp only [skipTo, pgAddr, Nat.zero_shiftLeft, Nat.or_zero, hshift, addU, subU, pgSize]
  omega

omit [Image] in
theorem addU_page (ha : a < kernBase) : addU a pgSize = a + pgSize := by
  simp only [addU, pgSize, kernBase] at *
  omega

omit [Image] in
theorem pgRoundUpU_eq {sz : Nat} (h : sz ≤ kernBase) : pgRoundUpU sz = pgRoundUp sz := by
  have hlt : (sz + pgSize - 1) % 2 ^ 32 = sz + pgSize - 1 := by
    simp only [pgSize, kernBase] at *
    omega
  rw [pgRoundUpU, hlt]
  rfl

/-- **The loop ends**, and is the loop without wrap-around: a round moves the
counter up by a page at least. -/
theorem deallocRounds_eq (hsz : oldsz ≤ kernBase) (m : Mem) (pg : PgDir) (fuel v : Nat)
    (hfuel : oldsz ≤ (v + fuel) * pgSize) :
    deallocRounds oldsz (fuel + 1) pg (v * pgSize) m =
      (deallocLoop oldsz fuel pg (v * pgSize) m).map some := by
  induction fuel generalizing v pg m with
  | zero =>
    have hdone : ¬ v * pgSize < oldsz := Nat.not_lt.mpr hfuel
    rw [deallocRounds, if_neg hdone, deallocLoop]
    rfl
  | succ fuel ih =>
    rw [deallocRounds, deallocLoop]
    by_cases hlt : v * pgSize < oldsz
    · rw [if_pos hlt, if_pos hlt]
      have hbelow : v * pgSize < kernBase := Nat.lt_of_lt_of_le hlt hsz
      have hnext := (Nat.add_one_mul v pgSize).symm
      have hleft : oldsz ≤ (v + 1 + fuel) * pgSize := by
        rwa [Nat.add_right_comm, Nat.add_assoc]
      cases hwalk : walkpgdir pg (v * pgSize) false m with
      | none =>
        have hskip : (pdx (v * pgSize) + 1) * 2 ^ 22 = ((v / 1024 + 1) * 1024) * pgSize := by
          rw [pdx_page (by simp only [pgSize, kernBase] at hbelow; omega)]
          simp only [pgSize]
          omega
        simp only [skip_eq hbelow, hskip]
        exact ih _ _ _ (hleft.trans (Nat.mul_le_mul_right _ (by omega)))
      | some r =>
        simp only [addU_page hbelow, hnext]
        by_cases hp : (pg.entry (v * pgSize)).p = true
        · rw [if_pos hp, if_pos hp]
          by_cases hpa : (pg.entry (v * pgSize)).pa = 0
          · rw [if_pos hpa, if_pos hpa]
            rfl
          · rw [if_neg hpa, if_neg hpa]
            cases hk : kfree (p2v (pg.entry (v * pgSize)).pa) m with
            | error e => rfl
            | ok m' => exact ih _ _ _ hleft
        · rw [if_neg hp, if_neg hp]
          exact ih _ _ _ hleft
    · rw [if_neg hlt, if_neg hlt]
      rfl

/-! ## §2  `deallocuvm` and `freevm` as a whole -/

/-- **`deallocuvm` on every directory**: the `uint` loop ends, whatever it
finds, with the visit of its pages; the visit returns when the frames of the
present pages pass the check of `kfree`, and then has freed each of them once,
cleared their entries and nothing else. -/
structure VisitsPages (pg : PgDir) (oldsz newsz : Nat) (m : Mem) : Prop where
  ends : ∀ fuel, oldsz / pgSize + 1 < fuel →
    deallocuvmU fuel pg oldsz newsz m = (do
      let (pg', m') ← visitPages (pageAddrs newsz oldsz) pg m
      .ok (some (min newsz oldsz, pg', m')))
  addrs : ∀ a, a ∈ pageAddrs newsz oldsz ↔ a % pgSize = 0 ∧ pgRoundUp newsz ≤ a ∧ a < oldsz
  once : (pageAddrs newsz oldsz).Nodup
  returns : (∃ r, visitPages (pageAddrs newsz oldsz) pg m = .ok r) ↔
    ∀ f ∈ pg.framesAt (pageAddrs newsz oldsz), IsFrame f
  freed : ∀ pg' m', visitPages (pageAddrs newsz oldsz) pg m = .ok (pg', m') →
    m'.freelist = (pg.framesAt (pageAddrs newsz oldsz)).reverse ++ m.freelist
  tables : ∀ pg' m', visitPages (pageAddrs newsz oldsz) pg m = .ok (pg', m') →
    pg'.frame = pg.frame ∧ ∀ d, pg'.tabFrame d = pg.tabFrame d
  entries : ∀ pg' m', visitPages (pageAddrs newsz oldsz) pg m = .ok (pg', m') → ∀ w < 2 ^ 20,
    pg'.page w =
      if w * pgSize ∈ pageAddrs newsz oldsz ∧ (pg.page w).p = true then .zero else pg.page w

/-- **`freevm` on every directory**: it returns when all the frames of the
directory pass the check of `kfree`, and then they are what the free list
gained; each once, if they are distinct. -/
structure FreesAll (pg : PgDir) (m : Mem) : Prop where
  returns : (∃ m', freevm pg m = .ok m') ↔ ∀ f ∈ pg.frames, IsFrame f
  freed : ∀ m', freevm pg m = .ok m' → m'.freelist = pg.frames.reverse ++ m.freelist
  once : ∀ m', freevm pg m = .ok m' → pg.frames.Nodup → ∀ f,
    m'.freelist.count f = m.freelist.count f + if f ∈ pg.frames then 1 else 0

theorem freesAll (pg : PgDir) (m : Mem) : FreesAll pg m := by
  have hlist : ∀ m', freevm pg m = .ok m' → kfreeAll pg.frames m = .ok m' := by
    intro m' h
    rw [freevm_eq] at h
    by_cases h0 : pg.frame = 0
    · rw [if_pos h0] at h
      cases h
    · rwa [if_neg h0] at h
  refine ⟨⟨?_, ?_⟩, fun m' h => kfreeAll_freelist (hlist m' h), fun m' h hnodup f => ?_⟩
  · rintro ⟨m', h⟩
    exact kfreeAll_ok_iff.mp ⟨m', hlist m' h⟩
  · intro h
    have hframe : IsFrame pg.frame := h pg.frame (by simp [PgDir.frames])
    rw [freevm_eq, if_neg hframe.ne_zero]
    exact kfreeAll_ok_iff.mpr h
  · rw [kfreeAll_freelist (hlist m' h), List.count_append, List.count_reverse,
      List.Nodup.count hnodup]
    omega

/-- `freevm` fills the frames of the directory and no others. -/
theorem freevm_ram {pg : PgDir} {m m' : Mem} {f : Nat} (h : freevm pg m = .ok m')
    (hf : pg.own f = 0) : m'.ram f = m.ram f := by
  have hcount := (freevm_spec h).1 f
  rw [(freesAll pg m).freed m' h, List.count_append, List.count_reverse, hf] at hcount
  have hnot : f ∉ pg.frames := List.count_eq_zero.mp (by omega)
  rw [freevm_eq] at h
  by_cases h0 : pg.frame = 0
  · rw [if_pos h0] at h
    cases h
  · rw [if_neg h0] at h
    exact kfreeAll_ram h hnot

/-- **What the two functions free.** For every directory and all sizes up to
`kernBase`, `deallocuvm` is the visit of the pages of its range one by one,
and `freevm` frees the frames of the directory. -/
theorem deallocuvm_freevm_visit (pg : PgDir) (m : Mem) {oldsz newsz : Nat}
    (hold : oldsz ≤ kernBase) (hnew : newsz ≤ kernBase) :
    VisitsPages pg oldsz newsz m ∧ FreesAll pg m := by
  have hvisit := visitPages_range newsz hold pg m
  have hdone : ∀ pg' m', visitPages (pageAddrs newsz oldsz) pg m = .ok (pg', m') →
      kfreeAll (pg.framesAt (pageAddrs newsz oldsz)) m = .ok m' ∧
        pg' = pg.clear (pageAddrs newsz oldsz) := by
    intro pg' m' h
    rw [hvisit] at h
    obtain ⟨m₁, hfree, h⟩ := bind_ok h
    cases h
    exact ⟨hfree, rfl⟩
  have hinj : Function.Injective fun v : Nat => v * pgSize :=
    fun v w h => Nat.eq_of_mul_eq_mul_right (by decide) h
  refine ⟨⟨?_, fun a => mem_pageAddrs, ?_, ⟨?_, ?_⟩, ?_, ?_, ?_⟩, freesAll pg m⟩
  · -- the rounds are those of the loop without wrap-around, which are visits
    intro fuel hfuel
    rw [deallocuvmU]
    by_cases hle : oldsz ≤ newsz
    · rw [if_pos hle, pageAddrs_eq_nil hle, Nat.min_eq_right hle]
      rfl
    · obtain ⟨k, rfl⟩ := Nat.exists_eq_succ_of_ne_zero (Nat.ne_zero_of_lt hfuel)
      have hroom : oldsz ≤ ((newsz + pgSize - 1) / pgSize + k) * pgSize := by
        simp only [pgSize] at hfuel ⊢
        omega
      rw [if_neg hle, Nat.min_eq_left (by omega), pgRoundUpU_eq hnew, pgRoundUp,
        deallocRounds_eq hold _ _ _ _ hroom, deallocLoop_visits hold rfl _ _ _ _ hroom, pageAddrs]
      cases visitPages _ pg m with
      | error e => rfl
      | ok r => rfl
  · exact (List.Ico.nodup _ _).map hinj
  · rintro ⟨⟨pg', m'⟩, h⟩
    exact kfreeAll_ok_iff.mp ⟨m', (hdone pg' m' h).1⟩
  · intro h
    obtain ⟨m', hfree⟩ := kfreeAll_ok_iff.mpr h
    exact ⟨_, hvisit.trans (ok_bind hfree rfl)⟩
  · intro pg' m' h
    exact kfreeAll_freelist (hdone pg' m' h).1
  · intro pg' m' h
    rw [(hdone pg' m' h).2]
    exact clear_tabFrame _ pg
  · intro pg' m' h w hw
    rw [(hdone pg' m' h).2, pageAddrs,
      clear_page (fun v hv => (page_lt_of_mem hold v hv).trans (by decide)) pg hw]
    simp only [List.mem_map_of_injective hinj]

omit [Image] in
/-- A directory with one user page, emptied from an address inside that page up. -/
theorem deallocuvm_freevm_visit_sample :
    (kernBase ≤ kernBase ∧ 1 ≤ kernBase) ∧
      @VisitsPages sampleImage ⟨sampleBase 0, samplePde (sampleBase 0)⟩ kernBase 1
        (sample fun _ => true).mem ∧
      @FreesAll sampleImage ⟨sampleBase 0, samplePde (sampleBase 0)⟩ (sample fun _ => true).mem :=
  ⟨⟨by decide, by decide⟩,
    @deallocuvm_freevm_visit sampleImage _ _ kernBase 1 (by decide) (by decide)⟩

end Xv6
