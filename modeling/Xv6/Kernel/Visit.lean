import Xv6.Kernel.Vm

/-!
# `deallocuvm` page by page, and the frames `freevm` gives back

The loop of `deallocuvm` skips to the next directory entry where a page table
is missing. The reference here has no such step: it visits every page address
of the range in order (`visitPages`). The two agree on every directory and
every size up to `kernBase`, panics included, and visiting is nothing but
calling `kfree` on the frames of the pages that are present and clearing their
entries. So `freevm` is one list of calls of `kfree`, and the list is read off
the directory (`PgDir.frames`).
-/

namespace Xv6

open Outcome

variable [Image] {a hi lo oldsz : Nat}

/-! ## §1  Visiting the pages one by one -/

/-- What is done at one page: a page that is present is freed and its entry
cleared. -/
def visitPage (st : PgDir × Mem) (a : Nat) : Except Panic (PgDir × Mem) :=
  let pte := st.1.entry a
  if pte.p then
    if pte.pa = 0 then .error .kfree
    else do
      let m ← kfree (p2v pte.pa) st.2
      .ok (st.1.setEntry a .zero, m)
  else .ok st

/-- The page addresses from `lo` up to `hi`, in order. -/
def pageAddrs (lo hi : Nat) : List Nat :=
  (List.Ico ((lo + pgSize - 1) / pgSize) ((hi + pgSize - 1) / pgSize)).map (· * pgSize)

def visitPages (as : List Nat) (pg : PgDir) (m : Mem) : Except Panic (PgDir × Mem) :=
  as.foldlM visitPage (pg, m)

omit [Image] in
theorem mem_pageAddrs :
    a ∈ pageAddrs lo hi ↔ a % pgSize = 0 ∧ pgRoundUp lo ≤ a ∧ a < hi := by
  simp only [pageAddrs, List.mem_map, List.Ico.mem, pgRoundUp, pgSize]
  constructor
  · rintro ⟨w, ⟨hlo, hhi⟩, rfl⟩
    omega
  · rintro ⟨halign, hlo, hhi⟩
    exact ⟨a / 4096, by omega, by omega⟩

omit [Image] in
theorem pageAddrs_eq_nil (h : hi ≤ lo) : pageAddrs lo hi = [] := by
  rw [pageAddrs, List.Ico.eq_nil_of_le (Nat.div_le_div_right (by omega))]
  rfl

/-- A page without page table is passed over. -/
theorem visitPage_noTab {pg : PgDir} (m : Mem) (h : pg.pde (pdx a) = none) :
    visitPage (pg, m) a = .ok (pg, m) := by
  simp [visitPage, PgDir.entry_eq_zero_of_isNone h, Pte.zero]

/-- So are all the pages of a directory entry without page table. -/
theorem visitPages_noTab {pg : PgDir} {m : Mem} {as : List Nat}
    (h : ∀ a ∈ as, pg.pde (pdx a) = none) : visitPages as pg m = .ok (pg, m) := by
  induction as with
  | nil => rfl
  | cons a as ih =>
    have hhead : visitPage (pg, m) a = .ok (pg, m) :=
      visitPage_noTab m (h a List.mem_cons_self)
    rw [visitPages, List.foldlM_cons, hhead]
    exact ih fun b hb => h b (List.mem_cons_of_mem a hb)

theorem visitPages_append (as bs : List Nat) (pg : PgDir) (m : Mem) :
    visitPages (as ++ bs) pg m = (do
      let (pg, m) ← visitPages as pg m
      visitPages bs pg m) := by
  rw [visitPages, List.foldlM_append]
  rfl

/-- **The loop of `deallocuvm` visits every page** from `v` up to the `n`
pages that reach into the old size, whatever it skips. -/
theorem deallocLoop_visits {n : Nat} (hsz : oldsz ≤ kernBase)
    (hn : n = (oldsz + pgSize - 1) / pgSize) (m : Mem) (pg : PgDir) (fuel v : Nat)
    (hfuel : oldsz ≤ (v + fuel) * pgSize) :
    deallocLoop oldsz fuel pg (v * pgSize) m =
      visitPages ((List.Ico v n).map (· * pgSize)) pg m := by
  have hmore : ∀ w, w * pgSize < oldsz ↔ w < n := by
    intro w
    simp only [hn, pgSize]
    omega
  have hbound : n ≤ 2 ^ 19 := by
    simp only [hn, pgSize, kernBase] at *
    omega
  induction fuel generalizing v pg m with
  | zero =>
    have hdone : n ≤ v := by
      rw [← Nat.not_lt, ← hmore]
      exact Nat.not_lt.mpr hfuel
    rw [List.Ico.eq_nil_of_le hdone]
    rfl
  | succ fuel ih =>
    rw [deallocLoop]
    by_cases hlt : v < n
    · rw [if_pos ((hmore v).mpr hlt)]
      have hnext := (Nat.add_one_mul v pgSize).symm
      have hleft : oldsz ≤ (v + 1 + fuel) * pgSize := by
        rwa [Nat.add_right_comm, Nat.add_assoc]
      have hcons : List.Ico v n = v :: List.Ico (v + 1) n := List.Ico.eq_cons hlt
      rw [walkpgdir_noalloc]
      by_cases htab : (pg.pde (pdx (v * pgSize))).isSome
      · rw [if_pos htab, hcons, hnext, List.map_cons, visitPages, List.foldlM_cons]
        simp only [visitPage]
        by_cases hp : (pg.entry (v * pgSize)).p = true
        · rw [if_pos hp, if_pos hp]
          by_cases hpa : (pg.entry (v * pgSize)).pa = 0
          · rw [if_pos hpa, if_pos hpa]
            rfl
          · rw [if_neg hpa, if_neg hpa]
            cases hk : kfree (p2v (pg.entry (v * pgSize)).pa) m with
            | error e => rfl
            | ok m' => exact ih _ _ _ hleft
        · rw [if_neg hp, if_neg hp]
          exact ih _ _ _ hleft
      · -- the pages up to the next directory entry are passed over
        rw [if_neg htab]
        have hnone : pg.pde (pdx (v * pgSize)) = none := by simpa using htab
        have hskip : (pdx (v * pgSize) + 1) * 2 ^ 22 = ((v / 1024 + 1) * 1024) * pgSize := by
          rw [pdx_page (by omega)]
          simp only [pgSize]
          omega
        have hsplit : List.Ico v n = List.Ico v (min ((v / 1024 + 1) * 1024) n) ++
            List.Ico (min ((v / 1024 + 1) * 1024) n) n :=
          (List.Ico.append_consecutive (by omega) (by omega)).symm
        have hpass : ∀ a ∈ (List.Ico v (min ((v / 1024 + 1) * 1024) n)).map (· * pgSize),
            pg.pde (pdx a) = none := by
          intro a ha
          obtain ⟨w, hw, rfl⟩ := List.mem_map.mp ha
          rw [List.Ico.mem] at hw
          rw [pdx_page (by omega)] at hnone ⊢
          have hsame : w / 1024 = v / 1024 := by omega
          rwa [hsame]
        rw [hsplit, List.map_append, visitPages_append, visitPages_noTab hpass]
        simp only [hskip]
        rw [ih _ _ _ (hleft.trans (Nat.mul_le_mul_right _ (by omega)))]
        rcases Nat.le_total ((v / 1024 + 1) * 1024) n with hle | hle
        · rw [Nat.min_eq_left hle]
          rfl
        · rw [Nat.min_eq_right hle, List.Ico.eq_nil_of_le hle, List.Ico.eq_nil_of_le (Nat.le_refl n)]
          rfl
    · rw [if_neg (mt (hmore v).mp hlt), List.Ico.eq_nil_of_le (Nat.not_lt.mp hlt)]
      rfl

/-- **`deallocuvm` is the visit of its range**, also where it panics. -/
theorem deallocuvm_eq_visit {pg : PgDir} {newsz : Nat} {m : Mem} (hold : oldsz ≤ kernBase) :
    deallocuvm pg oldsz newsz m = (do
      let (pg, m) ← visitPages (pageAddrs newsz oldsz) pg m
      .ok (min newsz oldsz, pg, m)) := by
  unfold deallocuvm
  by_cases hle : oldsz ≤ newsz
  · rw [if_pos hle, pageAddrs_eq_nil hle, Nat.min_eq_right hle]
    rfl
  · rw [if_neg hle, Nat.min_eq_left (by omega), pgRoundUp, pageAddrs,
      deallocLoop_visits hold rfl]
    simp only [pgSize]
    omega

/-! ## §2  The calls of `kfree` -/

def kfreeAll (fs : List Nat) (m : Mem) : Except Panic Mem := fs.foldlM (fun m f => kfree f m) m

namespace PgDir

/-- The frames of the pages of `as` that are present. -/
def framesAt (pg : PgDir) (as : List Nat) : List Nat :=
  (as.filter fun a => (pg.entry a).p).map fun a => p2v (pg.entry a).pa

/-- The directory with the present entries of `as` cleared. -/
def clear (pg : PgDir) (as : List Nat) : PgDir :=
  as.foldl (fun pg a => if (pg.entry a).p then pg.setEntry a .zero else pg) pg

/-- The frames in the care of a directory: of the user pages present, of the
page tables, and its own. -/
def frames (pg : PgDir) : List Nat :=
  pg.framesAt (pageAddrs 0 kernBase) ++ (List.range 1024).filterMap pg.tabFrame ++ [pg.frame]

end PgDir

theorem kfreeAll_append (fs gs : List Nat) (m : Mem) :
    kfreeAll (fs ++ gs) m = kfreeAll fs m >>= kfreeAll gs := List.foldlM_append

variable {fs ws : List Nat}

/-- `kfreeAll` returns when every frame passes the check, the last one freed first. -/
theorem kfreeAll_ok_iff {m : Mem} :
    (∃ m', kfreeAll fs m = .ok m') ↔ ∀ f ∈ fs, IsFrame f := by
  induction fs generalizing m with
  | nil => exact ⟨fun _ f hf => absurd hf List.not_mem_nil, fun _ => ⟨m, rfl⟩⟩
  | cons f fs ih =>
    rw [List.forall_mem_cons, kfreeAll, List.foldlM_cons]
    constructor
    · rintro ⟨m', h⟩
      obtain ⟨m₁, hfree, hrest⟩ := bind_ok h
      exact ⟨(kfree_ok hfree).1, ih.mp ⟨m', hrest⟩⟩
    · rintro ⟨hf, hrest⟩
      rw [kfree_of_isFrame m hf]
      exact ih.mpr hrest

theorem kfreeAll_freelist {m m' : Mem} (h : kfreeAll fs m = .ok m') :
    m'.freelist = fs.reverse ++ m.freelist := by
  induction fs generalizing m with
  | nil =>
    cases h
    rfl
  | cons f fs ih =>
    rw [kfreeAll, List.foldlM_cons] at h
    obtain ⟨m₁, hfree, hrest⟩ := bind_ok h
    rw [ih hrest, (kfree_ok hfree).2, List.reverse_cons, List.append_assoc]
    rfl

/-- Only the pages that are freed are filled. -/
theorem kfreeAll_ram {m m' : Mem} {f : Nat} (h : kfreeAll fs m = .ok m') (hf : f ∉ fs) :
    m'.ram f = m.ram f := by
  induction fs generalizing m with
  | nil =>
    cases h
    rfl
  | cons g fs ih =>
    rw [List.mem_cons, not_or] at hf
    rw [kfreeAll, List.foldlM_cons] at h
    obtain ⟨m₁, hfree, hrest⟩ := bind_ok h
    rw [kfree_of_isFrame m (kfree_ok hfree).1] at hfree
    cases hfree
    rw [ih hrest hf.2]
    exact Function.update_of_ne hf.1 ..

/-- The check on 0 is the check of `kfree`: the frame at 0 is the kernel's. -/
theorem kfree_zero (m : Mem) : kfree (p2v 0) m = .error .kfree := by
  refine if_neg fun h => ?_
  have hlow := h.bounds.1
  simp only [p2v, kernBase] at hlow
  omega

/-- At a page that is present the visit is a call of `kfree`. -/
theorem visitPage_present {pg : PgDir} (m : Mem) (h : (pg.entry a).p = true) :
    visitPage (pg, m) a = (do
      let m ← kfree (p2v (pg.entry a).pa) m
      .ok (pg.setEntry a .zero, m)) := by
  simp only [visitPage]
  rw [if_pos h]
  by_cases hpa : (pg.entry a).pa = 0
  · rw [if_pos hpa, hpa, kfree_zero]
    rfl
  · rw [if_neg hpa]

omit [Image] in
theorem framesAt_cons (pg : PgDir) (a : Nat) (as : List Nat) :
    pg.framesAt (a :: as) =
      if (pg.entry a).p then p2v (pg.entry a).pa :: pg.framesAt as else pg.framesAt as := by
  by_cases hp : (pg.entry a).p = true <;> simp [PgDir.framesAt, hp]

omit [Image] in
theorem framesAt_congr {pg pg' : PgDir} {as : List Nat}
    (h : ∀ a ∈ as, pg'.entry a = pg.entry a) : pg'.framesAt as = pg.framesAt as := by
  induction as with
  | nil => simp only [PgDir.framesAt, List.filter_nil, List.map_nil]
  | cons a as ih =>
    rw [framesAt_cons, framesAt_cons, h a List.mem_cons_self,
      ih fun b hb => h b (List.mem_cons_of_mem a hb)]

omit [Image] in
/-- Clearing page `v` leaves what is seen at the other pages. -/
theorem framesAt_setEntry {pg : PgDir} {v : Nat} (hv : v < 2 ^ 20) (hws : ∀ w ∈ ws, w < 2 ^ 20)
    (hne : v ∉ ws) (htab : (pg.pde (pdx (v * pgSize))).isSome) :
    (pg.setEntry (v * pgSize) .zero).framesAt (ws.map (· * pgSize)) =
      pg.framesAt (ws.map (· * pgSize)) := by
  refine framesAt_congr fun a ha => ?_
  obtain ⟨w, hw, rfl⟩ := List.mem_map.mp ha
  have hwv : w ≠ v := fun h => hne (h ▸ hw)
  have hpage := PgDir.page_setEntry .zero hv (hws w hw) htab
  rwa [if_neg hwv] at hpage

omit [Image] in
theorem clear_cons (pg : PgDir) (a : Nat) (as : List Nat) :
    pg.clear (a :: as) =
      if (pg.entry a).p then (pg.setEntry a .zero).clear as else pg.clear as := by
  rw [PgDir.clear, List.foldl_cons]
  split <;> rfl

/-- **Visiting is freeing and clearing**: distinct pages are visited by
calling `kfree` on the frames of those present, and clearing their entries. -/
theorem visitPages_eq (hnodup : ws.Nodup) (hws : ∀ w ∈ ws, w < 2 ^ 20) (pg : PgDir) (m : Mem) :
    visitPages (ws.map (· * pgSize)) pg m = (do
      let m ← kfreeAll (pg.framesAt (ws.map (· * pgSize))) m
      .ok (pg.clear (ws.map (· * pgSize)), m)) := by
  induction ws generalizing pg m with
  | nil => rfl
  | cons v ws ih =>
    obtain ⟨hne, hnodup⟩ := List.nodup_cons.mp hnodup
    obtain ⟨hv, hws⟩ := List.forall_mem_cons.mp hws
    rw [List.map_cons, visitPages, List.foldlM_cons, framesAt_cons, clear_cons]
    by_cases hp : (pg.entry (v * pgSize)).p = true
    · rw [visitPage_present m hp, if_pos hp, if_pos hp, kfreeAll, List.foldlM_cons]
      cases kfree (p2v (pg.entry (v * pgSize)).pa) m with
      | error e => rfl
      | ok m₁ =>
        rw [← framesAt_setEntry hv hws hne (tab_of_present hp)]
        exact ih hnodup hws _ m₁
    · have hstay : visitPage (pg, m) (v * pgSize) = .ok (pg, m) := by
        simp only [visitPage]
        rw [if_neg hp]
      rw [hstay, if_neg hp, if_neg hp]
      exact ih hnodup hws pg m

omit [Image] in
theorem clear_tabFrame (as : List Nat) (pg : PgDir) :
    (pg.clear as).frame = pg.frame ∧ ∀ d, (pg.clear as).tabFrame d = pg.tabFrame d := by
  induction as generalizing pg with
  | nil => exact ⟨rfl, fun _ => rfl⟩
  | cons a as ih =>
    rw [clear_cons]
    by_cases hp : (pg.entry a).p = true
    · rw [if_pos hp]
      obtain ⟨hframe, htab⟩ := ih (pg.setEntry a .zero)
      exact ⟨hframe.trans (pg.setEntry_frame a .zero),
        fun d => (htab d).trans (pg.setEntry_tabFrame a .zero d)⟩
    · rw [if_neg hp]
      exact ih pg

omit [Image] in
/-- Clearing touches the present pages of the list and no other entry. -/
theorem clear_page (hws : ∀ w ∈ ws, w < 2 ^ 20) (pg : PgDir) {u : Nat} (hu : u < 2 ^ 20) :
    (pg.clear (ws.map (· * pgSize))).page u =
      if u ∈ ws ∧ (pg.page u).p = true then .zero else pg.page u := by
  induction ws generalizing pg with
  | nil => simp [PgDir.clear]
  | cons v ws ih =>
    obtain ⟨hv, hws⟩ := List.forall_mem_cons.mp hws
    rw [List.map_cons, clear_cons]
    by_cases hp : (pg.entry (v * pgSize)).p = true
    · rw [if_pos hp, ih hws, PgDir.page_setEntry .zero hv hu (tab_of_present hp)]
      by_cases huv : u = v
      · subst huv
        have hp' : (pg.page u).p = true := hp
        simp [Pte.zero, hp']
      · simp [huv]
    · rw [if_neg hp, ih hws]
      by_cases huv : u = v
      · subst huv
        have hp' : ¬ (pg.page u).p = true := hp
        simp [hp']
      · simp [huv]

/-! ## §3  `deallocuvm` and `freevm` as a whole -/

omit [Image] in
theorem page_lt_of_mem (h : hi ≤ kernBase) :
    ∀ w ∈ List.Ico ((lo + pgSize - 1) / pgSize) ((hi + pgSize - 1) / pgSize), w < 2 ^ 19 := by
  intro w hw
  rw [List.Ico.mem] at hw
  simp only [pgSize, kernBase] at *
  omega

omit [Image] in
/-- The frames of a range are those under its present pages. -/
theorem mem_framesAt {pg : PgDir} {f : Nat} (h : f ∈ pg.framesAt (pageAddrs lo hi)) :
    ∃ w, pgRoundUp lo ≤ w * pgSize ∧ w * pgSize < hi ∧ (pg.page w).p = true ∧
      p2v (pg.page w).pa = f := by
  obtain ⟨a, ha, rfl⟩ := List.mem_map.mp h
  obtain ⟨ha, hp⟩ := List.mem_filter.mp ha
  obtain ⟨w, -, rfl⟩ := List.mem_map.mp ha
  obtain ⟨-, hlo, hhi⟩ := mem_pageAddrs.mp ha
  exact ⟨w, hlo, hhi, hp, rfl⟩

theorem visitPages_range (lo : Nat) (h : hi ≤ kernBase) (pg : PgDir) (m : Mem) :
    visitPages (pageAddrs lo hi) pg m = (do
      let m ← kfreeAll (pg.framesAt (pageAddrs lo hi)) m
      .ok (pg.clear (pageAddrs lo hi), m)) :=
  visitPages_eq (List.Ico.nodup _ _) (fun w hw => (page_lt_of_mem h w hw).trans (by decide)) pg m

theorem freeTabs_eq (pg : PgDir) (is : List Nat) (m : Mem) :
    freeTabs pg is m = kfreeAll (is.filterMap pg.tabFrame) m := by
  induction is generalizing m with
  | nil => rfl
  | cons i is ih =>
    rw [freeTabs]
    cases hpde : pg.pde i with
    | none =>
      have hnone : pg.tabFrame i = none := by simp [PgDir.tabFrame, hpde]
      rw [List.filterMap_cons_none hnone]
      exact ih m
    | some t =>
      have hsome : pg.tabFrame i = some t.frame := by simp [PgDir.tabFrame, hpde]
      rw [List.filterMap_cons_some hsome, kfreeAll, List.foldlM_cons]
      exact bind_congr fun m₁ => ih m₁

theorem clear_freeTabs (pg : PgDir) (as is : List Nat) (m : Mem) :
    freeTabs (pg.clear as) is m = kfreeAll (is.filterMap pg.tabFrame) m := by
  rw [freeTabs_eq, funext (clear_tabFrame as pg).2]

/-- **`freevm` calls `kfree` on the frames of the directory**, in this order
and on nothing else. -/
theorem freevm_eq (pg : PgDir) (m : Mem) :
    freevm pg m =
      if pg.frame = 0 then .error .freevmNoPgdir else kfreeAll pg.frames m := by
  have hdealloc : deallocuvm pg kernBase 0 m =
      kfreeAll (pg.framesAt (pageAddrs 0 kernBase)) m >>= fun m =>
        .ok (min 0 kernBase, pg.clear (pageAddrs 0 kernBase), m) := by
    rw [deallocuvm_eq_visit (Nat.le_refl kernBase), visitPages_range 0 (Nat.le_refl kernBase),
      bind_assoc]
    rfl
  have hlast : ∀ m₂, kfreeAll [pg.frame] m₂ = kfree pg.frame m₂ := fun m₂ => by
    rw [kfreeAll, List.foldlM_cons]
    simp only [List.foldlM_nil, bind_pure]
  by_cases h0 : pg.frame = 0
  · rw [freevm, if_pos h0, if_pos h0]
  · rw [freevm, if_neg h0, if_neg h0, hdealloc, PgDir.frames, kfreeAll_append, kfreeAll_append,
      bind_assoc, bind_assoc]
    refine bind_congr fun m₁ => ?_
    rw [bind_of_ok]
    refine (congrArg (· >>= _) (clear_freeTabs pg _ _ m₁)).trans ?_
    refine bind_congr fun m₂ => ?_
    rw [hlast, (clear_tabFrame _ pg).1]

end Xv6
