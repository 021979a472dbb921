import Xv6.Kernel.ExecLoads

/-!
# The arguments of a new program

`exec` pushes the argument strings from the top of the new stack page down,
and then the words that `main` finds on its stack. Nothing is checked before
`copyout` is called: not that the strings fit, and not that `sp` stays above 0.
What happens depends on where the address lands. In the stack page it is
written. Below the stack page it comes to the guard page at the latest, and
`copyout` fails. Below 0 it wraps into the kernel half, where the pages that
are mapped are not the user's, and `copyout` fails; but between the end of
physical memory and the devices no page table is there, and `uva2ka` reads
through a null pointer.

The first result is when that does not happen (`stackAsks_mapped_iff`), the
second what the stack holds when all went well.
-/

namespace Xv6

open Outcome

/-! ## §1  One call of `copyout` -/

/-- The addresses that the loop of `copyout` passes to `uva2ka`. -/
def copyoutAsks (cur pg : PgDir) : Nat → Nat → List UInt8 → Mem → List Nat
  | 0, _, _, _ => []
  | fuel + 1, va, buf, m =>
    if 0 < buf.length then
      let va0 := pgRoundDown va
      va0 ::
        match uva2ka cur pg va0 m with
        | .ok (some pa0) =>
          let n := if buf.length < pgSize - (va - va0) then buf.length
            else pgSize - (va - va0)
          copyoutAsks cur pg fuel ((va0 + pgSize) % 2 ^ 32) (buf.drop n)
            (m.store pa0 (va - va0) n fun o => buf.getD o 0)
        | _ => []
    else []

section Copyout

variable {cur pg : PgDir} {m : Mem} {buf : List UInt8}

/-- **A `copyout` inside one page of the user** asks for this page. -/
theorem copyout_user_page (cur : PgDir) (m : Mem) (off : Nat) {v f : Nat}
    (hoff : off + buf.length ≤ pgSize) (hpos : 0 < buf.length)
    (hpage : pg.page v = .map (v2p f) permWU) (hf : p2v (v2p f) = f) (hf0 : f ≠ 0) :
    copyout cur pg (v * pgSize + off) buf m =
        .ok (true, m.store f off buf.length fun o => buf.getD o 0) ∧
      copyoutAsks cur pg buf.length (v * pgSize + off) buf m = [v * pgSize] := by
  refine ⟨copyout_page cur m hoff hpos hpage hf hf0, ?_⟩
  obtain ⟨n, hn⟩ := Nat.exists_eq_succ_of_ne_zero (Nat.ne_of_gt hpos)
  have hall : (if buf.length < pgSize - off then buf.length else pgSize - off) = buf.length := by
    split <;> omega
  conv_lhs => rw [hn, copyoutAsks, if_pos hpos, pgRoundDown_page (by omega)]
  dsimp only
  rw [uva2ka_page hpage hf hf0]
  dsimp only
  rw [Nat.add_sub_cancel_left, hall, List.drop_length]
  cases n <;> simp [copyoutAsks]

/-- **A `copyout` that comes to a page which is not the user's** fails there, at
the latest, and asks for no page above. -/
theorem copyoutLoop_blocked {g : Nat} (hg : g < 2 ^ 20) (hu : (pg.page g).u = false)
    (fuel va : Nat) (buf : List UInt8) (m : Mem)
    (htab : ∀ w, va / pgSize ≤ w → w ≤ g → (pg.pde (pdx (w * pgSize))).isSome)
    (hva : va / pgSize ≤ g) (hend : g * pgSize < va + buf.length) (hpos : 0 < buf.length)
    (hfuel : buf.length ≤ fuel) :
    (∃ m', copyoutLoop cur pg fuel va buf m = .ok (false, m')) ∧
      ∀ a ∈ copyoutAsks cur pg fuel va buf m, (pg.pde (pdx a)).isSome := by
  induction fuel generalizing va buf m with
  | zero => omega
  | succ fuel ih =>
    obtain ⟨v, off, rfl, hoff⟩ : ∃ v off, va = v * pgSize + off ∧ off < pgSize :=
      ⟨va / pgSize, va % pgSize, by simp only [pgSize]; omega, Nat.mod_lt _ (by decide)⟩
    have hv : (v * pgSize + off) / pgSize = v := by
      simp only [pgSize] at *
      omega
    rw [hv] at htab hva
    have hvtab := htab v (Nat.le_refl v) hva
    rw [copyoutLoop, copyoutAsks, if_pos hpos, if_pos hpos]
    simp only [pgRoundDown_page hoff, uva2ka_tab hvtab, bind_of_ok]
    generalize hask : (if ((pg.page v).p && (pg.page v).u) = true then
      if p2v (pg.page v).pa = 0 then none else some (p2v (pg.page v).pa) else none) = ask
    cases ask with
    | none =>
      refine ⟨⟨m, rfl⟩, fun a ha => ?_⟩
      rw [List.mem_singleton.mp ha]
      exact hvtab
    | some pa0 =>
      -- the page was the user's, so it is not `g`, and the bytes reach the next one
      have hvg : v < g := by
        rcases Nat.lt_or_eq_of_le hva with hlt | rfl
        · exact hlt
        · simp [hu] at hask
      have hmore : pgSize - off < buf.length := by
        simp only [pgSize] at *
        omega
      have hn : (if buf.length < pgSize - (v * pgSize + off - v * pgSize) then buf.length
          else pgSize - (v * pgSize + off - v * pgSize)) = pgSize - off := by
        rw [Nat.add_sub_cancel_left, if_neg (by omega)]
      have hnext : (v * pgSize + pgSize) % 2 ^ 32 = (v + 1) * pgSize := by
        simp only [pgSize] at *
        omega
      have hnext' : (v + 1) * pgSize / pgSize = v + 1 := Nat.mul_div_cancel _ (by decide)
      have hleft : (buf.drop (pgSize - off)).length = buf.length - (pgSize - off) :=
        List.length_drop
      simp only [hn, hnext]
      obtain ⟨hfail, hasks⟩ := ih ((v + 1) * pgSize) (buf.drop (pgSize - off))
        (m.store pa0 (v * pgSize + off - v * pgSize) (pgSize - off) fun o => buf.getD o 0)
        (fun w h₁ h₂ => htab w (by omega) h₂) (by omega)
        (by rw [hleft]; simp only [pgSize] at *; omega) (by omega) (by omega)
      refine ⟨hfail, fun a ha => ?_⟩
      rcases List.mem_cons.mp ha with rfl | ha
      · exact hvtab
      · exact hasks a ha

/-- Where there is no page table, the first address passed is one of those. -/
theorem copyoutAsks_head {fuel va : Nat} (hpos : 0 < buf.length) (hfuel : 0 < fuel) :
    pgRoundDown va ∈ copyoutAsks cur pg fuel va buf m := by
  obtain ⟨n, rfl⟩ := Nat.exists_eq_succ_of_ne_zero (Nat.ne_of_gt hfuel)
  rw [copyoutAsks, if_pos hpos]
  exact List.mem_cons_self

end Copyout

/-! ## §2  Pushing on the stack -/

/-- The addresses that `pushArgs` passes to `uva2ka`. -/
def stackAsks (cur pg : PgDir) : List (List UInt8) → Nat → List Nat → Mem → List Nat
  | [], sp, ptrs, m =>
    copyoutAsks cur pg ((ustack sp ptrs).flatMap wordBytes).length (ustackAddr sp ptrs)
      ((ustack sp ptrs).flatMap wordBytes) m
  | a :: argv, sp, ptrs, m =>
    if 32 ≤ ptrs.length then []
    else
      copyoutAsks cur pg (a ++ [0]).length (strAddr sp a.length) (a ++ [0]) m ++
        match copyout cur pg (strAddr sp a.length) (a ++ [0]) m with
        | .ok (true, m) =>
          stackAsks cur pg argv (strAddr sp a.length) (ptrs ++ [strAddr sp a.length]) m
        | _ => []

theorem length_flatMap_wordBytes (ws : List Nat) : (ws.flatMap wordBytes).length = 4 * ws.length := by
  induction ws with
  | nil => rfl
  | cons w ws ih =>
    rw [List.flatMap_cons, List.length_append, ih, List.length_cons]
    simp only [wordBytes, List.length_cons, List.length_nil]
    omega

theorem length_ustack (sp : Nat) (ptrs : List Nat) : (ustack sp ptrs).length = 4 + ptrs.length := by
  simp only [ustack, List.length_append, List.length_cons, List.length_nil]
  omega

theorem length_ustack_bytes (sp : Nat) (ptrs : List Nat) :
    ((ustack sp ptrs).flatMap wordBytes).length = 4 * (4 + ptrs.length) := by
  rw [length_flatMap_wordBytes, length_ustack]

theorem strAddr_of_le {sp n : Nat} (hsp : sp < kernBase) (h : n + 1 ≤ sp) :
    strAddr sp n = (sp - (n + 1)) / 4 * 4 := by
  simp only [strAddr, kernBase] at *
  omega

theorem strAddr_of_lt {sp n : Nat} (hn : n < kernBase) (h : sp < n + 1) :
    strAddr sp n = (sp + 2 ^ 32 - (n + 1)) / 4 * 4 := by
  simp only [strAddr, kernBase] at *
  omega

theorem ustackAddr_of_le {sp : Nat} {ptrs : List Nat} (hsp : sp < kernBase)
    (h : 4 * (4 + ptrs.length) ≤ sp) : ustackAddr sp ptrs = sp - 4 * (4 + ptrs.length) := by
  simp only [ustackAddr, kernBase] at *
  omega

/-- Every string that does not fit on the stack page any more stays above 0, or
lands where the kernel has page tables: below the end of physical memory or
among the devices. -/
def ArgsLand (sz : Nat) : List Nat → Nat → Prop
  | [], _ => True
  | n :: ns, sp =>
    if sz - pgSize + (n + 1) ≤ sp then ArgsLand sz ns ((sp - (n + 1)) / 4 * 4)
    else n + 1 ≤ sp ∨ sp + 2 ^ 32 - (n + 1) < kernBase + physTop ∨
      devSpace ≤ sp + 2 ^ 32 - (n + 1)

instance ArgsLand.decidable (sz : Nat) : (ns : List Nat) → (sp : Nat) → Decidable (ArgsLand sz ns sp)
  | [], _ => .isTrue trivial
  | n :: ns, sp =>
    have := ArgsLand.decidable sz ns ((sp - (n + 1)) / 4 * 4)
    inferInstanceAs (Decidable (if sz - pgSize + (n + 1) ≤ sp then
        ArgsLand sz ns ((sp - (n + 1)) / 4 * 4)
      else n + 1 ≤ sp ∨ sp + 2 ^ 32 - (n + 1) < kernBase + physTop ∨
        devSpace ≤ sp + 2 ^ 32 - (n + 1)))

variable [Image]

section NewSpace

variable {cur pg : PgDir} {sz : Nat} {m : Mem} {buf : List UInt8} (h : NewSpace pg sz)

include h

omit cur m buf in
theorem NewSpace.pages : ∃ g, sz = (g + 2) * pgSize ∧ g + 2 < 2 ^ 19 ∧ (pg.page g).u = false := by
  have hlt := h.image.lt
  have htwo := h.two
  have halign := h.aligned
  obtain ⟨g, hg⟩ : ∃ g, sz / pgSize = g + 2 := ⟨sz / pgSize - 2, by simp only [pgSize] at *; omega⟩
  have hguard := h.guard
  rw [hg] at hguard
  refine ⟨g, ?_, ?_, hguard⟩ <;> simp only [pgSize, kernBase] at * <;> omega

/-- Bytes in the stack page are written. -/
theorem NewSpace.copyout_stack (cur : PgDir) (va : Nat) (buf : List UInt8) (m : Mem) {f : Nat}
    (hf : IsFrame f)
    (hstack : pg.page (sz / pgSize - 1) = .map (v2p f) permWU) (hlow : sz - pgSize ≤ va)
    (hhigh : va + buf.length ≤ sz) (hpos : 0 < buf.length) :
    copyout cur pg va buf m =
        .ok (true, m.store f (va - (sz - pgSize)) buf.length fun o => buf.getD o 0) ∧
      ∀ a ∈ copyoutAsks cur pg buf.length va buf m, (pg.pde (pdx a)).isSome := by
  obtain ⟨g, rfl, -, -⟩ := h.pages
  have hbase : (g + 2) * pgSize - pgSize = (g + 1) * pgSize := by
    simp only [pgSize]
    omega
  have hnum : (g + 2) * pgSize / pgSize - 1 = g + 1 := by
    simp only [pgSize]
    omega
  rw [hnum] at hstack
  rw [hbase] at hlow ⊢
  obtain ⟨off, rfl⟩ : ∃ off, va = (g + 1) * pgSize + off := ⟨va - (g + 1) * pgSize, by omega⟩
  obtain ⟨hrun, hasks⟩ := copyout_user_page cur m off
    (by simp only [pgSize] at *; omega) hpos hstack hf.p2v_v2p hf.ne_zero
  refine ⟨?_, fun a ha => ?_⟩
  · rw [hrun, Nat.add_sub_cancel_left]
  · rw [hasks] at ha
    rw [List.mem_singleton.mp ha]
    exact tab_of_present (by rw [hstack]; rfl)

/-- Bytes that begin below the stack page and come near it run into the guard page. -/
theorem NewSpace.copyout_below (cur : PgDir) (va : Nat) (buf : List UInt8) (m : Mem)
    (hva : va < sz - pgSize)
    (hend : sz - 2 * pgSize < va + buf.length) (hpos : 0 < buf.length) :
    (∃ m', copyout cur pg va buf m = .ok (false, m')) ∧
      ∀ a ∈ copyoutAsks cur pg buf.length va buf m, (pg.pde (pdx a)).isSome := by
  obtain ⟨g, rfl, hg, hguard⟩ := h.pages
  refine copyoutLoop_blocked (g := g) (by omega) hguard _ _ _ m (fun w _ hw => ?_) ?_ ?_ hpos
    (Nat.le_refl _)
  · refine tab_of_present ((h.image.present w (by omega)).mpr ?_)
    simp only [pgSize]
    omega
  · simp only [pgSize] at *
    omega
  · simp only [pgSize] at *
    omega

/-- In the kernel half only the kernel's page tables are there. -/
theorem NewSpace.tab_high {va : Nat} (hlow : kernBase ≤ va) (hhigh : va < 2 ^ 32) :
    (pg.pde (pdx va)).isSome ↔ va < kernBase + physTop ∨ devSpace ≤ va := by
  have hk : KernelTab (pdx va) ↔ va < kernBase + physTop ∨ devSpace ≤ va := by
    simp only [KernelTab, pdx, kernBase, physTop, devSpace] at hlow ⊢
    omega
  rw [h.half.tab, ← hk]
  refine ⟨?_, .inl⟩
  rintro (hk | ⟨w, hw, hd⟩)
  · exact hk
  · have hlt := h.image.lt
    simp only [pdx, pgSize, kernBase] at *
    omega

/-- Bytes for the kernel half are refused, if there is a page table. -/
theorem NewSpace.copyout_high (cur : PgDir) (va : Nat) (buf : List UInt8) (m : Mem)
    (hlow : kernBase ≤ va) (hhigh : va < 2 ^ 32)
    (hland : va < kernBase + physTop ∨ devSpace ≤ va) (hpos : 0 < buf.length) :
    (∃ m', copyout cur pg va buf m = .ok (false, m')) ∧
      ∀ a ∈ copyoutAsks cur pg buf.length va buf m, (pg.pde (pdx a)).isSome := by
  have htab := (h.tab_high hlow hhigh).mpr hland
  have hpage : va / pgSize < 2 ^ 20 ∧ 2 ^ 19 ≤ va / pgSize := by
    simp only [pgSize, kernBase] at *
    omega
  refine copyoutLoop_blocked hpage.1 (h.half.kernel _ hpage.1 hpage.2) _ _ _ m
    (fun w h₁ h₂ => ?_) (Nat.le_refl _) ?_ hpos (Nat.le_refl _)
  · have hw : pdx (w * pgSize) = pdx va := by
      rw [Nat.le_antisymm h₂ h₁]
      simp only [pdx, pgSize]
      omega
    rw [hw]
    exact htab
  · simp only [pgSize]
    omega

/-- **When no null pointer is read**, from a stack pointer in the stack page on. -/
theorem NewSpace.asks_mapped_iff (cur : PgDir) (argv : List (List UInt8)) (sp : Nat) (ptrs : List Nat)
    (m : Mem)
    (hlow : sz - pgSize ≤ sp) (hhigh : sp ≤ sz) (halign : sp % 4 = 0)
    (hargc : ptrs.length + argv.length ≤ 32) (hlen : ∀ a ∈ argv, a.length < kernBase) :
    (∀ va ∈ stackAsks cur pg argv sp ptrs m, (pg.pde (pdx va)).isSome) ↔
      ArgsLand sz (argv.map List.length) sp := by
  have hlt := h.image.lt
  have htwo := h.two
  have hsz := h.aligned
  obtain ⟨f, hf, hstack⟩ := h.stack
  induction argv generalizing sp ptrs m with
  | nil =>
    refine ⟨fun _ => trivial, fun _ => ?_⟩
    have hsize := length_ustack_bytes sp ptrs
    simp only [List.length_nil] at hargc
    have haddr : ustackAddr sp ptrs = sp - 4 * (4 + ptrs.length) :=
      ustackAddr_of_le (by omega) (by simp only [pgSize] at *; omega)
    rw [stackAsks]
    have hend : ustackAddr sp ptrs + 4 * (4 + ptrs.length) = sp := by
      simp only [pgSize] at *
      omega
    by_cases hfit : sz - pgSize ≤ ustackAddr sp ptrs
    · exact (h.copyout_stack cur _ _ m hf hstack hfit (by omega) (by omega)).2
    · refine (h.copyout_below cur _ _ m (by omega) ?_ (by omega)).2
      simp only [pgSize] at *
      omega
  | cons a argv ih =>
    obtain ⟨ha, hlen⟩ := List.forall_mem_cons.mp hlen
    simp only [List.length_cons] at hargc
    have hbuf : (a ++ [0]).length = a.length + 1 := by simp
    rw [stackAsks, if_neg (by omega), List.map_cons, ArgsLand]
    by_cases hfit : sz - pgSize + (a.length + 1) ≤ sp
    · have haddr := strAddr_of_le (show sp < kernBase by omega) (show a.length + 1 ≤ sp by omega)
      have hnew : sz - pgSize ≤ strAddr sp a.length ∧ strAddr sp a.length + (a ++ [0]).length ≤ sz := by
        rw [haddr, hbuf]
        simp only [pgSize] at *
        omega
      obtain ⟨hrun, hasks⟩ := h.copyout_stack cur _ _ m hf hstack
        hnew.1 hnew.2 (show 0 < (a ++ [0]).length by omega)
      generalize m.store f _ _ _ = m₁ at hrun
      rw [if_pos hfit, ← haddr, hrun]
      refine Iff.trans ?_ (ih _ (ptrs ++ [strAddr sp a.length]) m₁ hnew.1 (by omega)
        (by rw [haddr]; omega) (by simp only [List.length_append, List.length_singleton]; omega) hlen)
      constructor
      · intro hall va hva
        exact hall va (List.mem_append_right _ hva)
      · intro hrest va hva
        rcases List.mem_append.mp hva with hva | hva
        · exact hasks va hva
        · exact hrest va hva
    · rw [if_neg hfit]
      by_cases hzero : a.length + 1 ≤ sp
      · -- below the stack page: the guard page is in the way
        have haddr := strAddr_of_le (show sp < kernBase by omega) hzero
        obtain ⟨⟨m', hrun⟩, hasks⟩ := h.copyout_below cur (strAddr sp a.length)
          (a ++ [0]) m (by rw [haddr]; omega)
          (by rw [haddr, hbuf]; simp only [pgSize] at *; omega) (by omega)
        rw [hrun]
        refine ⟨fun _ => .inl hzero, fun _ va hva => hasks va ?_⟩
        rwa [List.append_nil] at hva
      · have haddr := strAddr_of_lt ha (show sp < a.length + 1 by omega)
        have hrange : kernBase ≤ strAddr sp a.length ∧ strAddr sp a.length < 2 ^ 32 := by
          rw [haddr]
          simp only [kernBase] at *
          omega
        have hland : (strAddr sp a.length < kernBase + physTop ∨ devSpace ≤ strAddr sp a.length) ↔
            sp + 2 ^ 32 - (a.length + 1) < kernBase + physTop ∨
              devSpace ≤ sp + 2 ^ 32 - (a.length + 1) := by
          rw [haddr]
          simp only [kernBase, physTop, devSpace]
          omega
        rw [or_iff_right hzero, ← hland]
        constructor
        · -- the first address asked for
          intro hall
          have hround : pdx (pgRoundDown (strAddr sp a.length)) = pdx (strAddr sp a.length) := by
            simp only [pdx, pgRoundDown, pgSize]
            omega
          have hfirst := hall _ (List.mem_append_left _
            (copyoutAsks_head (by omega) (by omega)))
          rw [hround] at hfirst
          exact (h.tab_high hrange.1 hrange.2).mp hfirst
        · intro hl
          obtain ⟨⟨m', hrun⟩, hasks⟩ := h.copyout_high cur _ (a ++ [0]) m
            hrange.1 hrange.2 hl (by omega)
          rw [hrun, List.append_nil]
          exact hasks

end NewSpace

/-- **When `exec` reads through no null pointer.** For every program that is
loaded and all the memory of the caller: every address that the copying of the
arguments passes to `uva2ka` has its page table exactly if the first string that
does not fit on the stack page stays above 0 or lands outside the gap between
physical memory and the devices. -/
theorem stackAsks_mapped_iff {ip : Inode} {m m' : Mem} {sz : Nat} {pg : PgDir}
    (hm : FreelistOK m) (hbuild : buildImage ip m = .ok (some (sz, pg), m')) (cur : PgDir)
    {argv : List (List UInt8)} (hargc : argv.length ≤ 31) (hlen : ∀ a ∈ argv, a.length < kernBase) :
    (∀ va ∈ stackAsks cur pg argv sz [] m', (pg.pde (pdx va)).isSome) ↔
      ArgsLand sz (argv.map List.length) sz := by
  have h := buildImage_space hm hbuild
  have halign := h.aligned
  refine h.asks_mapped_iff _ _ _ _ _ (Nat.sub_le _ _) (Nat.le_refl sz) ?_ ?_ hlen
  · simp only [pgSize] at halign
    omega
  · rw [List.length_nil]
    omega

omit [Image] in
/-- Two short arguments. -/
theorem stackAsks_mapped_short : ∃ pg m',
    @buildImage sampleImage ⟨52, fun _ => 0⟩ ⟨frames 2000 0x82400000, fun _ _ => 0⟩ =
      .ok (some (2 * pgSize, pg), m') ∧
    ((∀ va ∈ stackAsks pg pg [[0x65, 0x63, 0x68, 0x6f], [0x61]] (2 * pgSize) [] m',
      (pg.pde (pdx va)).isSome) ↔ ArgsLand (2 * pgSize) [4, 1] (2 * pgSize)) := by
  let _ := sampleImage
  have hok := (frames_ok (n := 2000) (by decide)).1
  obtain ⟨pg, m', -, hbuild, -⟩ := buildImage_empty hok
    (show Inode.u16 ⟨52, fun _ => 0⟩ 44 = 0 from rfl)
    (by rw [frames_length]; decide)
  exact ⟨pg, m', hbuild, stackAsks_mapped_iff hok hbuild pg (by decide) (by decide)⟩

omit [Image] in
/-- An argument of 40 million bytes wraps into the gap, and `uva2ka` is given an address
without page table. -/
theorem stackAsks_gap : ¬ ∀ (_ : Image) (ip : Inode) (m m' : Mem) (sz : Nat) (pg cur : PgDir)
    (argv : List (List UInt8)), FreelistOK m → m.freelist.Nodup →
    buildImage ip m = .ok (some (sz, pg), m') → argv.length ≤ 31 →
    (∀ a ∈ argv, a.length < kernBase) →
    ∀ va ∈ stackAsks cur pg argv sz [] m', (pg.pde (pdx va)).isSome := by
  intro hall
  let _ := sampleImage
  obtain ⟨hok, hnodup⟩ := frames_ok (n := 2000) (by decide)
  obtain ⟨pg, m', -, hbuild, -⟩ := buildImage_empty hok
    (show Inode.u16 ⟨52, fun _ => 0⟩ 44 = 0 from rfl)
    (by rw [frames_length]; decide)
  obtain ⟨arg, hsize⟩ : ∃ arg : List UInt8, arg.length = 40000000 :=
    ⟨List.replicate _ 0x61, List.length_replicate⟩
  have hlen : ∀ a ∈ [arg], a.length < kernBase := by
    intro a ha
    rw [List.mem_singleton.mp ha, hsize]
    decide
  have hmapped := hall _ _ _ _ _ _ pg [arg] hok hnodup hbuild (Nat.le_add_left 1 30) hlen
  have hspace := buildImage_space hok hbuild
  have hland := (hspace.asks_mapped_iff _ [arg] _ [] _ (by decide) (Nat.le_refl _)
    (by decide) (Nat.le_add_left 1 31) hlen).mp hmapped
  rw [List.map_singleton, hsize] at hland
  revert hland
  decide

end Xv6
