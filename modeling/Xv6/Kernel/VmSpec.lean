import Xv6.Kernel.Visit

/-!
# What the functions of `vm.c` do to pages and frames

One specification for each function of `Vm.lean`, about the calls that
return. The vocabulary is that of `PageTable.lean`: the entry of each page,
and the balance between the free list and the tally `own` of the directory.
-/

namespace Xv6

open Outcome

variable [Image]

/-! ## §1  `deallocuvm` and `freevm` -/

/-- What a function that only unmaps user pages does: the tables stay, an
entry stays or becomes 0, and a frame that lost its mapping is on the free
list. -/
structure Shed (pg pg' : PgDir) (m m' : Mem) : Prop where
  frame : pg'.frame = pg.frame
  tab : ∀ d, pg'.tabFrame d = pg.tabFrame d
  page : ∀ w < 2 ^ 20, pg'.page w = pg.page w ∨ pg'.page w = .zero
  balance : ∀ f, m'.freelist.count f + pg'.own f = m.freelist.count f + pg.own f
  ok : FreelistOK m → FreelistOK m'

theorem Shed.refl (pg : PgDir) (m : Mem) : Shed pg pg m m :=
  ⟨rfl, fun _ => rfl, fun _ _ => .inl rfl, fun _ => rfl, fun h => h⟩

variable {pg pg' : PgDir} {m m' : Mem}

/-- Freeing the page under a mapping and clearing the entry. -/
theorem Shed.free_page {v : Nat} (hv : v < 2 ^ 19) (htab : (pg.pde (pdx (v * pgSize))).isSome)
    (hp : (pg.page v).p = true) (h : kfree (p2v (pg.page v).pa) m = .ok m') :
    Shed pg (pg.setEntry (v * pgSize) .zero) m m' where
  frame := pg.setEntry_frame _ _
  tab d := pg.setEntry_tabFrame _ _ d
  page w hw := by
    rw [PgDir.page_setEntry _ (by omega) hw htab]
    by_cases hwv : w = v
    · exact .inr (if_pos hwv)
    · exact .inl (if_neg hwv)
  balance f := by
    have hown := PgDir.own_setEntry .zero hv htab f
    have huses : (pg.page v).uses f = if p2v (pg.page v).pa = f then 1 else 0 := by
      simp [Pte.uses, Pte.Maps, hp]
    rw [uses_zero, huses] at hown
    rw [kfree_count h f]
    omega
  ok := kfree_freelistOK h

theorem Shed.trans {pg'' : PgDir} {m'' : Mem} (h₁ : Shed pg pg' m m') (h₂ : Shed pg' pg'' m' m'') :
    Shed pg pg'' m m'' where
  frame := h₂.frame.trans h₁.frame
  tab d := (h₂.tab d).trans (h₁.tab d)
  page w hw := by
    rcases h₂.page w hw with h | h
    · rw [h]
      exact h₁.page w hw
    · exact .inr h
  balance f := (h₂.balance f).trans (h₁.balance f)
  ok h := h₂.ok (h₁.ok h)

/-- A page that was not present stays so. -/
theorem Shed.not_present (h : Shed pg pg' m m') {w : Nat} (hw : w < 2 ^ 20)
    (hp : (pg.page w).p = false) : (pg'.page w).p = false := by
  rcases h.page w hw with h | h
  · rw [h]
    exact hp
  · rw [h]
    rfl

/-- What a visit does at one page. -/
theorem visitPage_spec {v : Nat} (hv : v < 2 ^ 19)
    (h : visitPage (pg, m) (v * pgSize) = .ok (pg', m')) :
    Shed pg pg' m m' ∧ (∀ w < 2 ^ 20, w ≠ v → pg'.page w = pg.page w) ∧
      (pg'.page v).p = false := by
  by_cases hp : (pg.page v).p = true
  · have htab := tab_of_present hp
    rw [visitPage_present m hp] at h
    obtain ⟨m₁, hfree, h⟩ := bind_ok h
    cases h
    refine ⟨Shed.free_page hv htab hp hfree, fun w hw hne => ?_, ?_⟩
    · rw [PgDir.page_setEntry _ (by omega) hw htab, if_neg hne]
    · rw [PgDir.page_setEntry _ (by omega) (by omega) htab, if_pos rfl]
      rfl
  · have hstay : visitPage (pg, m) (v * pgSize) = .ok (pg, m) := if_neg hp
    rw [hstay] at h
    cases h
    exact ⟨Shed.refl pg m, fun _ _ _ => rfl, by simpa using hp⟩

/-- **A visit** unmaps the pages of its list, and no others. -/
theorem visitPages_spec {vs : List Nat} (hvs : ∀ v ∈ vs, v < 2 ^ 19)
    (h : visitPages (vs.map (· * pgSize)) pg m = .ok (pg', m')) :
    Shed pg pg' m m' ∧ (∀ w < 2 ^ 20, w ∉ vs → pg'.page w = pg.page w) ∧
      ∀ w ∈ vs, (pg'.page w).p = false := by
  induction vs generalizing pg m with
  | nil =>
    cases h
    exact ⟨Shed.refl _ _, fun _ _ _ => rfl, fun _ hw => absurd hw List.not_mem_nil⟩
  | cons v vs ih =>
    obtain ⟨hv, hvs⟩ := List.forall_mem_cons.mp hvs
    rw [List.map_cons, visitPages, List.foldlM_cons] at h
    obtain ⟨⟨pg₁, m₁⟩, hfirst, hrest⟩ := bind_ok h
    obtain ⟨hshed₁, hout₁, hin₁⟩ := visitPage_spec hv hfirst
    obtain ⟨hshed, hout, hin⟩ := ih hvs hrest
    refine ⟨hshed₁.trans hshed, fun w hw hnot => ?_, fun w hw => ?_⟩
    · rw [List.mem_cons, not_or] at hnot
      rw [hout w hw hnot.2, hout₁ w hw hnot.1]
    · rcases List.mem_cons.mp hw with rfl | hw
      · exact hshed.not_present (by omega) hin₁
      · exact hin w hw

/-- **`deallocuvm`**: the pages from `newsz` up to `oldsz` are unmapped and
freed, the others keep their entries. -/
theorem deallocuvm_spec {oldsz newsz r : Nat} (hsz : oldsz ≤ kernBase)
    (h : deallocuvm pg oldsz newsz m = .ok (r, pg', m')) :
    Shed pg pg' m m' ∧
      (∀ w < 2 ^ 20, w * pgSize < pgRoundUp newsz ∨ oldsz ≤ w * pgSize →
        pg'.page w = pg.page w) ∧
      (newsz < oldsz → ∀ w, pgRoundUp newsz ≤ w * pgSize → w * pgSize < oldsz →
        (pg'.page w).p = false) := by
  rw [deallocuvm_eq_visit hsz] at h
  obtain ⟨⟨pg₁, m₁⟩, hvisit, h⟩ := bind_ok h
  cases h
  obtain ⟨hshed, hout, hin⟩ := visitPages_spec (page_lt_of_mem hsz) hvisit
  simp only [List.Ico.mem, pgRoundUp, pgSize] at hout hin ⊢
  exact ⟨hshed, fun w hw hw' => hout w hw (by omega), fun _ w h₁ h₂ => hin w (by omega)⟩

/-- The page tables freed by the second loop of `freevm`. -/
theorem freeTabs_spec : ∀ {is : List Nat} {m m' : Mem},
    freeTabs pg is m = .ok m' →
    (∀ f, m'.freelist.count f = m.freelist.count f +
      (is.map fun d => if pg.tabFrame d = some f then 1 else 0).sum) ∧
    (FreelistOK m → FreelistOK m')
  | [], m, m', h => by
    simp only [freeTabs, Except.ok.injEq] at h
    subst h
    exact ⟨fun f => by simp, fun h => h⟩
  | i :: is, m, m', h => by
    rw [freeTabs] at h
    split at h
    · rename_i hnone
      obtain ⟨hcount, hok⟩ := freeTabs_spec h
      refine ⟨fun f => ?_, hok⟩
      simp [hcount f, PgDir.tabFrame, hnone]
    · rename_i t ht
      obtain ⟨m₁, hk, h⟩ := bind_ok h
      obtain ⟨hcount, hok⟩ := freeTabs_spec h
      refine ⟨fun f => ?_, fun h₀ => hok (kfree_freelistOK hk h₀)⟩
      rw [hcount f, kfree_count hk f, List.map_cons, List.sum_cons]
      simp only [PgDir.tabFrame, ht, Option.map_some, Option.some.injEq]
      omega

/-- **`freevm`** gives back every frame the directory uses, as often as it
uses it. -/
theorem freevm_spec (h : freevm pg m = .ok m') :
    (∀ f, m'.freelist.count f = m.freelist.count f + pg.own f) ∧
      (FreelistOK m → FreelistOK m') := by
  unfold freevm at h
  split at h
  · simp at h
  · obtain ⟨⟨r, pg₁, m₁⟩, hdealloc, h⟩ := bind_ok h
    obtain ⟨m₂, htabs, h⟩ := bind_ok h
    obtain ⟨hshed, -, hgone⟩ := deallocuvm_spec (Nat.le_refl kernBase) hdealloc
    obtain ⟨hcount, hok⟩ := freeTabs_spec htabs
    -- no user mapping is left, so the directory owns itself and its tables
    have hnone : ∀ w, 0 ≤ w → w < 2 ^ 19 → (pg₁.page w).p = false := by
      intro w _ hw
      refine hgone (by decide) w ?_ ?_ <;> simp only [pgRoundUp, pgSize, kernBase] <;> omega
    refine ⟨fun f => ?_, fun h₀ => kfree_freelistOK h (hok (hshed.ok h₀))⟩
    have hbal := hshed.balance f
    rw [PgDir.own, PgDir.pages_eq_zero hnone] at hbal
    rw [kfree_count h f, hcount f, Tally.sum_map_range, ← PgDir.tabs]
    omega

/-! ## §2  `setupkvm` -/

omit [Image] in
/-- `mappages` above `kernBase` leaves the user half alone. -/
theorem mappages_kernel {va size pa : Nat} {perm : Perm} {b : Bool} (hva : kernBase ≤ va)
    (hpos : 0 < size) (hend : va + size ≤ 2 ^ 32)
    (h : mappages pg va size pa perm m = .ok (b, pg', m')) :
    Grew pg pg' m m' ∧ ∀ w < 2 ^ 19, pg'.page w = pg.page w := by
  simp only [mappages, pgRoundDown] at h
  have hn : va / pgSize +
      (((va + size - 1) / pgSize * pgSize - va / pgSize * pgSize) / pgSize + 1) ≤ 2 ^ 20 := by
    simp only [pgSize]
    omega
  obtain ⟨hgrew, k, -, -, -, hpages⟩ := mapLoop_spec hn h
  refine ⟨hgrew, fun w hw => ?_⟩
  rw [hpages w (by omega), if_neg]
  simp only [pgSize, kernBase] at *
  omega

/-- Every row of `kmap` is a non-empty range of kernel addresses. -/
theorem kmap_kernel {k : KMap} (h : k ∈ kmap) :
    kernBase ≤ k.virt ∧ 0 < k.size ∧ k.virt + k.size ≤ 2 ^ 32 := by
  have h₁ := Image.kernLink_lt_data
  have h₂ := Image.data_le_kend
  have h₃ := Image.kend_lt
  simp only [kmap, List.mem_cons, List.not_mem_nil, or_false] at h
  rcases h with rfl | rfl | rfl | rfl <;>
    simp only [KMap.size, v2p, kernLink, kernBase, extMem, physTop, devSpace] at * <;> omega

theorem mapKernel_spec : ∀ {ks : List KMap} {pg : PgDir} {m m' : Mem} {r : Option PgDir},
    (∀ k ∈ ks, kernBase ≤ k.virt ∧ 0 < k.size ∧ k.virt + k.size ≤ 2 ^ 32) →
    mapKernel ks pg m = .ok (r, m') →
    (FreelistOK m → FreelistOK m') ∧
      (r = none → ∀ f, m'.freelist.count f = m.freelist.count f + pg.own f) ∧
      (∀ pg', r = some pg' →
        (∀ f, m'.freelist.count f + pg'.own f = m.freelist.count f + pg.own f) ∧
        (∀ w < 2 ^ 19, pg'.page w = pg.page w) ∧ pg'.frame = pg.frame)
  | [], pg, m, m', r, _, h => by
    simp only [mapKernel, Except.ok.injEq, Prod.mk.injEq] at h
    obtain ⟨rfl, rfl⟩ := h
    refine ⟨fun h => h, by simp, fun pg' hpg => ?_⟩
    cases hpg
    exact ⟨fun _ => rfl, fun _ _ => rfl, rfl⟩
  | k :: ks, pg, m, m', r, hks, h => by
    rw [mapKernel] at h
    obtain ⟨⟨b, pg₁, m₁⟩, hmap, h⟩ := bind_ok h
    obtain ⟨hva, hpos, hend⟩ := hks k List.mem_cons_self
    obtain ⟨hgrew, hsame⟩ := mappages_kernel hva hpos hend hmap
    have hown := hgrew.own_same hsame
    cases b with
    | true =>
      obtain ⟨hok, hnone, hsome⟩ :=
        mapKernel_spec (fun k' hk' => hks k' (List.mem_cons_of_mem _ hk')) h
      refine ⟨fun h₀ => hok (hgrew.freelistOK h₀), fun hr f => ?_, fun pg' hr => ?_⟩
      · rw [hnone hr f]
        exact hown f
      · obtain ⟨hbal, hpages, hframe⟩ := hsome pg' hr
        exact ⟨fun f => (hbal f).trans (hown f),
          fun w hw => (hpages w hw).trans (hsame w hw), hframe.trans hgrew.frame⟩
    | false =>
      simp only [Bool.false_eq_true, if_false] at h
      obtain ⟨m₂, hfree, h⟩ := bind_ok h
      cases h
      obtain ⟨hcount, hok⟩ := freevm_spec hfree
      refine ⟨fun h₀ => hok (hgrew.freelistOK h₀), fun _ f => ?_, by simp⟩
      rw [hcount f]
      exact hown f

omit [Image] in
/-- A directory with no entries owns only itself. -/
theorem own_empty (r f : Nat) :
    PgDir.own ⟨r, fun _ => none⟩ f = if r = f then 1 else 0 := by
  have hp : PgDir.pages ⟨r, fun _ => none⟩ 0 (2 ^ 19) f = 0 :=
    PgDir.pages_eq_zero (fun w _ _ => rfl) f
  have ht : PgDir.tabs ⟨r, fun _ => none⟩ f = 0 :=
    Finset.sum_eq_zero fun d _ => by simp [PgDir.tabFrame]
  rw [PgDir.own, hp, ht]
  rfl

/-- **`setupkvm`**: the directory it makes maps no user page, and all it owns
came from the free list; when it fails the free list is what it was. -/
theorem setupkvm_spec {r : Option PgDir} (h : setupkvm m = .ok (r, m')) :
    (FreelistOK m → FreelistOK m') ∧
      (r = none → ∀ f, m'.freelist.count f = m.freelist.count f) ∧
      (∀ pg, r = some pg →
        (∀ f, m'.freelist.count f + pg.own f = m.freelist.count f) ∧
        (∀ w < 2 ^ 19, pg.page w = .zero) ∧ pg.frame ∈ m.freelist) := by
  unfold setupkvm at h
  split at h
  · rename_i m₁ hk
    cases h
    rw [(kalloc_none hk).1]
    exact ⟨fun h => h, fun _ _ => rfl, by simp⟩
  · rename_i p m₁ hk
    simp only at h
    split at h
    · simp at h
    · obtain ⟨hok, hnone, hsome⟩ := mapKernel_spec (fun k hk => kmap_kernel hk) h
      have hcount := kalloc_count hk
      simp only [memset_freelist, own_empty] at hnone hsome
      refine ⟨fun h₀ => hok (kalloc_frame hk h₀).2, fun hr f => ?_, fun pg hr => ?_⟩
      · rw [hnone hr f, hcount f]
      · obtain ⟨hbal, hpages, hframe⟩ := hsome pg hr
        refine ⟨fun f => by rw [hbal f, hcount f], fun w hw => ?_, ?_⟩
        · rw [hpages w hw]
          rfl
        · rw [hframe, (kalloc_some hk).1]
          exact List.mem_cons_self

/-! ## §3  `allocuvm` -/

/-- **One round of `allocuvm`.** It is past the last page; or there is no frame for the page;
or none for its table; or the page is mapped. -/
theorem allocLoop_round {oldsz newsz fuel v : Nat} {b : Bool}
    (h : allocLoop oldsz newsz (fuel + 1) pg (v * pgSize) m = .ok (b, pg', m')) :
    (newsz ≤ v * pgSize ∧ b = true ∧ pg' = pg ∧ m' = m) ∨
    (v * pgSize < newsz ∧
      ((m.freelist = [] ∧ b = false ∧ ∃ r, deallocuvm pg newsz oldsz m = .ok (r, pg', m')) ∨
      ∃ mem m₁ b₁ pg₁ m₂, kalloc m = (some mem, m₁) ∧
        mappages pg (v * pgSize) pgSize (v2p mem) permWU (m₁.memset mem 0) = .ok (b₁, pg₁, m₂) ∧
        ((b₁ = false ∧ b = false ∧ ∃ r m₃, deallocuvm pg₁ newsz oldsz m₂ = .ok (r, pg', m₃) ∧
            kfree mem m₃ = .ok m') ∨
          (b₁ = true ∧
            allocLoop oldsz newsz fuel pg₁ ((v + 1) * pgSize) m₂ = .ok (b, pg', m'))))) := by
  rw [allocLoop] at h
  split at h
  · rename_i hlt
    refine .inr ⟨hlt, ?_⟩
    split at h
    · rename_i m₁ hk
      obtain ⟨⟨r, pg₁, m₂⟩, hd, h⟩ := bind_ok h
      cases h
      obtain ⟨rfl, hempty⟩ := kalloc_none hk
      exact .inl ⟨hempty, rfl, r, hd⟩
    · rename_i mem m₁ hk
      obtain ⟨⟨b₁, pg₁, m₂⟩, hmap, h⟩ := bind_ok h
      refine .inr ⟨mem, m₁, b₁, pg₁, m₂, hk, hmap, ?_⟩
      cases b₁ with
      | false =>
        simp only [Bool.false_eq_true, if_false] at h
        obtain ⟨⟨r, pg₂, m₃⟩, hd, h⟩ := bind_ok h
        obtain ⟨m₄, hfree, h⟩ := bind_ok h
        cases h
        exact .inl ⟨rfl, rfl, r, m₃, hd, hfree⟩
      | true =>
        simp only [if_true] at h
        rw [← Nat.succ_mul] at h
        exact .inr ⟨rfl, h⟩
  · cases h
    exact .inl ⟨Nat.le_of_not_lt ‹_›, rfl, rfl, rfl⟩

/-- **The loop of `allocuvm`**, from page `v` on. On success the pages up to
`newsz` are mapped to fresh frames; on failure the pages from `oldsz` up to
`newsz` are unmapped. Either way no frame is lost or gained. -/
theorem allocLoop_spec {oldsz newsz : Nat} (hsz : newsz < kernBase) :
    ∀ {fuel v : Nat} {pg pg' : PgDir} {m m' : Mem} {b : Bool},
      pgRoundUp oldsz ≤ v * pgSize → FreelistOK m →
      allocLoop oldsz newsz fuel pg (v * pgSize) m = .ok (b, pg', m') →
      FreelistOK m' ∧ pg'.frame = pg.frame ∧
        (∀ f, m'.freelist.count f + pg'.own f = m.freelist.count f + pg.own f) ∧
        (∀ w < 2 ^ 20, w * pgSize < pgRoundUp oldsz ∨ newsz ≤ w * pgSize →
          pg'.page w = pg.page w) ∧
        (b = true → ∀ w < v, pg'.page w = pg.page w) ∧
        (b = true → newsz ≤ (v + fuel) * pgSize → ∀ w, v ≤ w → w * pgSize < newsz →
          ∃ mem, IsFrame mem ∧ pg'.page w = .map (v2p mem) permWU) ∧
        (b = false → ∀ w, pgRoundUp oldsz ≤ w * pgSize → w * pgSize < newsz →
          (pg'.page w).p = false) := by
  intro fuel
  induction fuel with
  | zero =>
    intro v pg pg' m m' b _ hm h
    simp only [allocLoop, Except.ok.injEq, Prod.mk.injEq] at h
    obtain ⟨rfl, rfl, rfl⟩ := h
    refine ⟨hm, rfl, fun _ => rfl, fun _ _ _ => rfl, fun _ _ _ => rfl, ?_, by simp⟩
    intro _ hfuel w h₁ h₂
    simp only [pgSize] at *
    omega
  | succ fuel ih =>
    intro v pg pg' m m' b hold hm h
    rcases allocLoop_round h with ⟨hge, rfl, rfl, rfl⟩ |
      ⟨hlt, ⟨-, rfl, r, hd⟩ | ⟨mem, m₁, b₁, pg₁, m₂, hk, hmap, hcase⟩⟩
    · refine ⟨hm, rfl, fun _ => rfl, fun _ _ _ => rfl, fun _ _ _ => rfl, ?_, by simp⟩
      intro _ _ w h₁ h₂
      simp only [pgSize] at *
      omega
    all_goals
      have hlt' : oldsz < newsz := by
        simp only [pgRoundUp, pgSize] at *
        omega
    · -- out of memory
      obtain ⟨hshed, hout, hin⟩ := deallocuvm_spec (Nat.le_of_lt hsz) hd
      exact ⟨hshed.ok hm, hshed.frame, hshed.balance, hout, by simp, by simp, fun _ => hin hlt'⟩
    have hv : v < 2 ^ 19 := by
      simp only [pgSize, kernBase] at *
      omega
    obtain ⟨hgrew, hfresh, hpages⟩ := mappages_page_spec (by omega) hmap
    obtain ⟨hmem, hm₁⟩ := kalloc_frame hk hm
    have hcount := kalloc_count hk
    have hm₂ : FreelistOK m₂ := hgrew.freelistOK hm₁
    rcases hcase with ⟨rfl, rfl, r, m₃, hd, hfree⟩ | ⟨rfl, h⟩
    · simp only [Bool.false_eq_true, false_and, if_false] at hpages
      have hown := hgrew.own_same fun w hw => hpages w (by omega)
      simp only [memset_freelist] at hown
      obtain ⟨hshed, hout, hin⟩ := deallocuvm_spec (Nat.le_of_lt hsz) hd
      refine ⟨kfree_freelistOK hfree (hshed.ok hm₂), hshed.frame.trans hgrew.frame,
        fun f => ?_, fun w hw hw' => (hout w hw hw').trans (hpages w hw),
        by simp, by simp, fun _ => hin hlt'⟩
      have hbal := hshed.balance f
      rw [kfree_count hfree f, hcount f]
      have := hown f
      omega
    · simp only [true_and] at hpages
      have hown := hgrew.own_map hv (hfresh rfl) hpages
      simp only [hmem.p2v_v2p, memset_freelist] at hown
      have hold' : pgRoundUp oldsz ≤ (v + 1) * pgSize :=
        hold.trans (Nat.mul_le_mul_right _ (Nat.le_succ v))
      obtain ⟨hok, hframe, hbal, hout, hbelow, hmapped, hgone⟩ := ih hold' hm₂ h
      refine ⟨hok, hframe.trans hgrew.frame, fun f => ?_, ?_, ?_, ?_, hgone⟩
      · rw [hbal f, hown f, hcount f]
        omega
      · intro w hw hw'
        rw [hout w hw hw', hpages w hw, if_neg]
        rintro rfl
        omega
      · intro hb w hw
        rw [hbelow hb w (by omega), hpages w (by omega), if_neg (by omega)]
      · intro hb hfuel w h₁ h₂
        rcases Nat.eq_or_lt_of_le h₁ with rfl | h₁
        · refine ⟨mem, hmem, ?_⟩
          rw [hbelow hb v (by omega), hpages v (by omega), if_pos rfl]
        · exact hmapped hb (hfuel.trans (Nat.mul_le_mul_right _ (by omega))) w h₁ h₂

/-- **`allocuvm`.** A non-zero result larger than `oldsz` means the pages in
between are mapped to fresh frames; the pages outside the range are never
touched, and no frame is lost or gained. -/
theorem allocuvm_spec {oldsz newsz r : Nat} (hm : FreelistOK m)
    (h : allocuvm pg oldsz newsz m = .ok (r, pg', m')) :
    FreelistOK m' ∧ pg'.frame = pg.frame ∧
      (∀ f, m'.freelist.count f + pg'.own f = m.freelist.count f + pg.own f) ∧
      (∀ w < 2 ^ 20, w * pgSize < pgRoundUp oldsz ∨ newsz ≤ w * pgSize →
        pg'.page w = pg.page w) ∧
      (r = 0 ∨ (newsz < oldsz ∧ r = oldsz ∧ pg' = pg) ∨
        (oldsz ≤ newsz ∧ newsz < kernBase ∧ r = newsz ∧
          ∀ w, pgRoundUp oldsz ≤ w * pgSize → w * pgSize < newsz →
            ∃ mem, IsFrame mem ∧ pg'.page w = .map (v2p mem) permWU)) := by
  unfold allocuvm at h
  split at h
  · cases h
    exact ⟨hm, rfl, fun _ => rfl, fun _ _ _ => rfl, .inl rfl⟩
  · rename_i hkern
    split at h
    · rename_i hlt
      cases h
      exact ⟨hm, rfl, fun _ => rfl, fun _ _ _ => rfl, .inr (.inl ⟨hlt, rfl, rfl⟩)⟩
    · rename_i hge
      obtain ⟨⟨b, pg₁, m₁⟩, hloop, h⟩ := bind_ok h
      cases h
      have hround : pgRoundUp oldsz = ((oldsz + pgSize - 1) / pgSize) * pgSize := rfl
      rw [hround] at hloop
      obtain ⟨hok, hframe, hbal, hout, -, hmapped, -⟩ :=
        allocLoop_spec (by omega) (by rw [hround]) hm hloop
      refine ⟨hok, hframe, hbal, hout, ?_⟩
      cases b with
      | false => exact .inl rfl
      | true =>
        refine .inr (.inr ⟨by omega, by omega, rfl, fun w h₁ h₂ => ?_⟩)
        refine hmapped rfl ?_ w ?_ h₂
        · simp only [pgSize]
          omega
        · simp only [pgRoundUp, pgSize] at *
          omega

/-! ## §4  `copyuvm` -/

/-- The flags of a page, as the `perm` argument. -/
def Pte.flags (e : Pte) : Perm := ⟨e.w, e.u⟩

omit [Image] in
/-- **One round of `copyuvm`.** It is past the last page; or there is no frame for the page;
or none for its table; or the page is copied. -/
theorem copyLoop_round {sz fuel v : Nat} {d d' : PgDir} {b : Bool}
    (h : copyLoop pg sz (fuel + 1) d (v * pgSize) m = .ok (b, d', m')) :
    (sz ≤ v * pgSize ∧ b = true ∧ d' = d ∧ m' = m) ∨
    (v * pgSize < sz ∧ (pg.page v).p = true ∧
      ((m.freelist = [] ∧ b = false ∧ d' = d ∧ m' = m) ∨
      ∃ mem m₁ b₁ d₁ m₂, kalloc m = (some mem, m₁) ∧
        mappages d (v * pgSize) pgSize (v2p mem) (pg.page v).flags
          (m₁.copyPage mem (p2v (pg.page v).pa)) = .ok (b₁, d₁, m₂) ∧
        ((b₁ = false ∧ b = false ∧ d' = d₁ ∧ m' = m₂) ∨
          (b₁ = true ∧ copyLoop pg sz fuel d₁ ((v + 1) * pgSize) m₂ = .ok (b, d', m'))))) := by
  rw [copyLoop] at h
  split at h
  · rename_i hlt
    refine .inr ⟨hlt, ?_⟩
    split at h
    · simp at h
    · simp only at h
      split at h
      · rename_i hp
        refine ⟨hp, ?_⟩
        split at h
        · rename_i m₁ hk
          cases h
          obtain ⟨rfl, hempty⟩ := kalloc_none hk
          exact .inl ⟨hempty, rfl, rfl, rfl⟩
        · rename_i mem m₁ hk
          obtain ⟨⟨b₁, d₁, m₂⟩, hmap, h⟩ := bind_ok h
          refine .inr ⟨mem, m₁, b₁, d₁, m₂, hk, hmap, ?_⟩
          cases b₁ with
          | false =>
            cases h
            exact .inl ⟨rfl, rfl, rfl, rfl⟩
          | true =>
            rw [if_pos rfl, ← Nat.succ_mul] at h
            exact .inr ⟨rfl, h⟩
      · simp at h
  · cases h
    exact .inl ⟨Nat.le_of_not_lt ‹_›, rfl, rfl, rfl⟩

/-- **The loop of `copyuvm`**, from page `v` on. -/
theorem copyLoop_spec {sz : Nat} (hsz : sz ≤ kernBase) :
    ∀ {fuel v : Nat} {d d' : PgDir} {m m' : Mem} {b : Bool},
      FreelistOK m → copyLoop pg sz fuel d (v * pgSize) m = .ok (b, d', m') →
      FreelistOK m' ∧
        (∀ f, m'.freelist.count f + d'.own f ≤ m.freelist.count f + d.own f) ∧
        (b = true → ∀ f, m'.freelist.count f + d'.own f = m.freelist.count f + d.own f) ∧
        (b = true → ∀ w < 2 ^ 20, w < v ∨ sz ≤ w * pgSize → d'.page w = d.page w) ∧
        (b = true → sz ≤ (v + fuel) * pgSize → ∀ w, v ≤ w → w * pgSize < sz →
          (pg.page w).p = true ∧
          ∃ mem, IsFrame mem ∧ d'.page w = .map (v2p mem) ⟨(pg.page w).w, (pg.page w).u⟩)
  | 0, v, d, d', m, m', b, hm, h => by
    simp only [copyLoop, Except.ok.injEq, Prod.mk.injEq] at h
    obtain ⟨rfl, rfl, rfl⟩ := h
    refine ⟨hm, fun _ => Nat.le_refl _, fun _ _ => rfl, fun _ _ _ _ => rfl, ?_⟩
    intro _ hfuel w h₁ h₂
    simp only [pgSize] at *
    omega
  | fuel + 1, v, d, d', m, m', b, hm, h => by
    rcases copyLoop_round h with ⟨hge, rfl, rfl, rfl⟩ |
      ⟨hlt, hp, ⟨-, rfl, rfl, rfl⟩ | ⟨mem, m₁, b₁, d₁, m₂, hk, hmap, hcase⟩⟩
    · refine ⟨hm, fun _ => Nat.le_refl _, fun _ _ => rfl, fun _ _ _ _ => rfl, ?_⟩
      intro _ _ w h₁ h₂
      simp only [pgSize] at *
      omega
    · exact ⟨hm, fun _ => Nat.le_refl _, by simp, by simp, by simp⟩
    have hv : v < 2 ^ 19 := by
      simp only [pgSize, kernBase] at *
      omega
    obtain ⟨hgrew, hfresh, hpages⟩ := mappages_page_spec (by omega) hmap
    obtain ⟨hmem, hm₁⟩ := kalloc_frame hk hm
    have hcount := kalloc_count hk
    have hm₂ : FreelistOK m₂ := hgrew.freelistOK hm₁
    rcases hcase with ⟨rfl, rfl, rfl, rfl⟩ | ⟨rfl, h⟩
    · -- the frame `mem` is in no tally from here on
      simp only [Bool.false_eq_true, false_and, if_false] at hpages
      have hown := hgrew.own_same fun w hw => hpages w (by omega)
      simp only [copyPage_freelist] at hown
      refine ⟨hm₂, fun f => ?_, by simp, by simp, by simp⟩
      have h₁ := hown f
      have h₂ := hcount f
      omega
    · simp only [true_and] at hpages
      have hown := hgrew.own_map hv (hfresh rfl) hpages
      simp only [hmem.p2v_v2p, copyPage_freelist] at hown
      obtain ⟨hok, hle, heq, hout, hmapped⟩ := copyLoop_spec hsz hm₂ h
      refine ⟨hok, fun f => ?_, fun hb f => ?_, ?_, ?_⟩
      · have h₁ := hle f
        have h₂ := hown f
        have h₃ := hcount f
        omega
      · rw [heq hb f, hown f, hcount f]
        omega
      · intro hb w hw hw'
        rw [hout hb w hw (hw'.imp (fun h' => by omega) id), hpages w hw, if_neg]
        rintro rfl
        rcases hw' with h' | h' <;> omega
      · intro hb hfuel w h₁ h₂
        rcases Nat.eq_or_lt_of_le h₁ with rfl | h₁
        · refine ⟨hp, mem, hmem, ?_⟩
          rw [hout hb v (by omega) (.inl (Nat.lt_succ_self v)), hpages v (by omega), if_pos rfl]
          rfl
        · exact hmapped hb (hfuel.trans (Nat.mul_le_mul_right _ (by omega))) w h₁ h₂

/-- **`copyuvm`**: the copy maps every page below `sz` to a frame taken from
the free list, with the flags of the parent's page, and no other user page.
When it fails no frame is gained. -/
theorem copyuvm_spec {sz : Nat} {r : Option PgDir} (hsz : sz ≤ kernBase) (hm : FreelistOK m)
    (h : copyuvm pg sz m = .ok (r, m')) :
    FreelistOK m' ∧
      (r = none → ∀ f, m'.freelist.count f ≤ m.freelist.count f) ∧
      (∀ d, r = some d →
        (∀ f, m'.freelist.count f + d.own f = m.freelist.count f) ∧
        (∀ w < 2 ^ 19, sz ≤ w * pgSize → d.page w = .zero) ∧
        (∀ w, w * pgSize < sz → (pg.page w).p = true ∧
          ∃ mem, IsFrame mem ∧ d.page w = .map (v2p mem) ⟨(pg.page w).w, (pg.page w).u⟩)) := by
  unfold copyuvm at h
  obtain ⟨⟨r₁, m₁⟩, hsetup, h⟩ := bind_ok h
  obtain ⟨hok₁, hnone₁, hsome₁⟩ := setupkvm_spec hsetup
  cases r₁ with
  | none =>
    cases h
    exact ⟨hok₁ hm, fun _ f => Nat.le_of_eq (hnone₁ rfl f), by simp⟩
  | some d₁ =>
    obtain ⟨hbal₁, hpages₁, -⟩ := hsome₁ d₁ rfl
    simp only at h
    obtain ⟨⟨b, d₂, m₂⟩, hloop, h⟩ := bind_ok h
    rw [show (0 : Nat) = 0 * pgSize from (Nat.zero_mul pgSize).symm] at hloop
    obtain ⟨hok₂, hle, heq, hout, hmapped⟩ := copyLoop_spec hsz (hok₁ hm) hloop
    cases b with
    | true =>
      simp only [if_true, Except.ok.injEq, Prod.mk.injEq] at h
      obtain ⟨rfl, rfl⟩ := h
      refine ⟨hok₂, by simp, fun d hd => ?_⟩
      cases hd
      refine ⟨fun f => by rw [heq rfl f, hbal₁ f], fun w hw hw' => ?_, fun w hw => ?_⟩
      · rw [hout rfl w (by omega) (.inr hw'), hpages₁ w hw]
      · refine hmapped rfl ?_ w (Nat.zero_le w) hw
        simp only [pgSize]
        omega
    | false =>
      simp only [Bool.false_eq_true, if_false] at h
      obtain ⟨m₃, hfree, h⟩ := bind_ok h
      cases h
      obtain ⟨hcount, hok⟩ := freevm_spec hfree
      refine ⟨hok hok₂, fun _ f => ?_, by simp⟩
      rw [hcount f, ← hbal₁ f]
      exact hle f

end Xv6
