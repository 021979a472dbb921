import Xv6.Kernel.ExecSpec
import Xv6.Kernel.Frames

/-!
# Calls that come back

The specifications of the other modules are about calls that return. Here is
the other half: with enough free frames the functions of `vm.c` do return, and
so do `fork` and `exec` of an empty program. What is enough is counted against
the page tables a directory may still need (`Fits`).
-/

namespace Xv6

open Outcome Kernel

/-! ## §1  Mapping pages -/

/-- There is a free frame for every page table `pg` may still need, and for
`k` pages more. -/
structure Fits (pg : PgDir) (k : Nat) (m : Mem) : Prop where
  room : pg.missing + k ≤ m.freelist.length

variable {pg pg' : PgDir} {k n v : Nat} {m m' : Mem}

theorem Fits.mono {k' : Nat} (h : Fits pg k' m) (hk : k ≤ k') :
    Fits pg k m :=
  ⟨(Nat.add_le_add_left hk _).trans h.room⟩

/-- **The loop of `mappages`** maps pages that are not mapped yet. -/
theorem mapLoop_fits (perm : Perm) (pa : Nat) (hv : v + n ≤ 2 ^ 20)
    (hfresh : ∀ w, v ≤ w → w < v + n → (pg.page w).p = false) (h : Fits pg k m) :
    ∃ pg' m', mapLoop perm n pg (v * pgSize) pa m = .ok (true, pg', m') ∧ Fits pg' k m' := by
  obtain ⟨⟨b, pg', m'⟩, hloop⟩ := mapLoop_returns perm pa pg m hv hfresh
  obtain ⟨⟨fs, htab⟩, -, -, hfail⟩ := mapLoop_tabled hv hloop
  have hroom := h.room
  have hlen := htab.took.length
  have hcount := htab.count
  cases b with
  | true => exact ⟨pg', m', hloop, ⟨by omega⟩⟩
  | false =>
    -- a table that is missing would have had a frame
    obtain ⟨hempty, w, -, hw, hnone⟩ := hfail rfl
    have := missing_newTab (show w / 1024 < 1024 by omega) hnone ⟨0, fun _ => .zero⟩
    rw [hempty, List.length_nil] at hlen
    omega

theorem mappages_page_fits (perm : Perm) (pa : Nat) (hv : v < 2 ^ 20)
    (hfresh : (pg.page v).p = false) (h : Fits pg k m) :
    ∃ pg' m', mappages pg (v * pgSize) pgSize pa perm m = .ok (true, pg', m') ∧ Fits pg' k m' := by
  rw [mappages_page]
  refine mapLoop_fits perm pa (by omega) (fun w h₁ h₂ => ?_) h
  rw [show w = v by omega]
  exact hfresh

variable [Image]

/-! ## §2  `setupkvm`, `allocuvm` and `copyuvm` -/

theorem setupkvm_fits (hm : FreelistOK m) (h : 1025 + k ≤ m.freelist.length) :
    ∃ pg m', setupkvm m = .ok (some pg, m') ∧ Fits pg k m' := by
  obtain ⟨res, m', hsetup⟩ := setupkvm_returns hm
  obtain ⟨hsome, hnone⟩ := setupkvm_count hsetup
  cases res with
  | none =>
    have := hnone rfl
    omega
  | some pg =>
    obtain ⟨⟨fs, htook, hfs⟩, htabs, -⟩ := hsome pg rfl
    have hlen := htook.length
    refine ⟨pg, m', hsetup, ⟨?_⟩⟩
    rw [missing_kernel htabs]
    omega

omit [Image] in
/-- One page: a frame for it, and then the mapping. -/
theorem kalloc_fits (h : Fits pg (k + 1) m) :
    ∃ r m', kalloc m = (some r, m') ∧ Fits pg k m' := by
  have hroom := h.room
  cases hl : m.freelist with
  | nil =>
    simp only [hl, List.length_nil] at hroom
    omega
  | cons r rest =>
    simp only [hl, List.length_cons] at hroom
    refine ⟨r, { m with freelist := rest }, by simp [kalloc, hl], ⟨?_⟩⟩
    simp only
    omega

/-- **The loop of `allocuvm`**, with a frame for each of the pages up to
page `n`. -/
theorem allocLoop_fits (oldsz : Nat) {newsz : Nat} (hn : newsz ≤ n * pgSize)
    (hlt : newsz < kernBase) :
    ∀ (fuel : Nat) {v : Nat} {pg : PgDir} {m : Mem},
      (∀ w, v ≤ w → w * pgSize < newsz → (pg.page w).p = false) → Fits pg (k + (n - v)) m →
      ∃ pg' m', allocLoop oldsz newsz fuel pg (v * pgSize) m = .ok (true, pg', m') ∧ Fits pg' k m'
  | 0, v, pg, m, _, h => ⟨pg, m, rfl, h.mono (Nat.le_add_right k _)⟩
  | fuel + 1, v, pg, m, hfresh, h => by
    rw [allocLoop]
    by_cases hv : v * pgSize < newsz
    · have hvn : v < n := by
        simp only [pgSize] at *
        omega
      have hv20 : v < 2 ^ 19 := by
        simp only [pgSize, kernBase] at *
        omega
      rw [show k + (n - v) = k + (n - (v + 1)) + 1 by omega] at h
      obtain ⟨r, m₁, hk, h₁⟩ := kalloc_fits h
      obtain ⟨pg₂, m₂, hmap, h₂⟩ := mappages_page_fits permWU (v2p r)
        (m := m₁.memset r 0) (by omega) (hfresh v (Nat.le_refl v) hv) ⟨h₁.room⟩
      obtain ⟨-, -, hpages⟩ := mappages_page_spec (by omega) hmap
      have hnext := (Nat.add_one_mul v pgSize).symm
      obtain ⟨pg', m', hloop, h'⟩ := allocLoop_fits oldsz hn hlt fuel (v := v + 1)
        (fun w h₃ h₄ => by
          have hw : w < 2 ^ 20 := by
            simp only [pgSize, kernBase] at *
            omega
          rw [hpages w hw, if_neg (by omega)]
          exact hfresh w (by omega) h₄) h₂
      refine ⟨pg', m', ?_, h'⟩
      rw [if_pos hv, hk]
      refine ok_bind hmap ?_
      rw [hnext]
      exact hloop
    · exact ⟨pg, m, by simp [hv], h.mono (Nat.le_add_right k _)⟩

omit [Image] in
/-- **The loop of `copyuvm`**, for a parent with all its pages. -/
theorem copyLoop_fits {sz : Nat} (hn : sz ≤ n * pgSize) (hlt : sz ≤ kernBase)
    (hpg : ∀ w, w * pgSize < sz → (pg.page w).p = true) :
    ∀ (fuel : Nat) {v : Nat} {d : PgDir} {m : Mem},
      (∀ w, v ≤ w → w * pgSize < sz → (d.page w).p = false) → Fits d (k + (n - v)) m →
      ∃ d' m', copyLoop pg sz fuel d (v * pgSize) m = .ok (true, d', m') ∧ Fits d' k m'
  | 0, v, d, m, _, h => ⟨d, m, rfl, h.mono (Nat.le_add_right k _)⟩
  | fuel + 1, v, d, m, hfresh, h => by
    rw [copyLoop]
    by_cases hv : v * pgSize < sz
    · have hvn : v < n := by
        simp only [pgSize] at *
        omega
      have hv20 : v < 2 ^ 19 := by
        simp only [pgSize, kernBase] at *
        omega
      have hp : (pg.entry (v * pgSize)).p = true := hpg v hv
      have htab := tab_of_present hp
      rw [show k + (n - v) = k + (n - (v + 1)) + 1 by omega] at h
      obtain ⟨r, m₁, hk, h₁⟩ := kalloc_fits h
      obtain ⟨d₂, m₂, hmap, h₂⟩ := mappages_page_fits
        ⟨(pg.entry (v * pgSize)).w, (pg.entry (v * pgSize)).u⟩ (v2p r)
        (m := m₁.copyPage r (p2v (pg.entry (v * pgSize)).pa)) (by omega)
        (hfresh v (Nat.le_refl v) hv) ⟨h₁.room⟩
      obtain ⟨-, -, hpages⟩ := mappages_page_spec (by omega) hmap
      have hnext := (Nat.add_one_mul v pgSize).symm
      obtain ⟨d', m', hloop, h'⟩ := copyLoop_fits hn hlt hpg fuel (v := v + 1)
        (fun w h₃ h₄ => by
          have hw : w < 2 ^ 20 := by
            simp only [pgSize, kernBase] at *
            omega
          rw [hpages w hw, if_neg (by omega)]
          exact hfresh w (by omega) h₄) h₂
      refine ⟨d', m', ?_, h'⟩
      rw [if_pos hv, walkpgdir_noalloc, if_pos htab, if_pos hp, hk]
      refine ok_bind hmap ?_
      rw [hnext]
      exact hloop
    · exact ⟨d, m, by simp [hv], h.mono (Nat.le_add_right k _)⟩

theorem copyuvm_fits {sz : Nat} (hm : FreelistOK m) (hn : sz ≤ n * pgSize) (hlt : sz ≤ kernBase)
    (hpg : ∀ w, w * pgSize < sz → (pg.page w).p = true) (h : 1025 + (k + n) ≤ m.freelist.length) :
    ∃ d m', copyuvm pg sz m = .ok (some d, m') ∧ Fits d k m' := by
  obtain ⟨d₁, m₁, hsetup, h₁⟩ := setupkvm_fits hm h
  obtain ⟨-, -, hsome⟩ := setupkvm_spec hsetup
  obtain ⟨d₂, m₂, hloop, h₂⟩ := copyLoop_fits hn hlt hpg (sz / pgSize + 1) (v := 0)
    (fun w _ hw => by
      rw [(hsome d₁ rfl).2.1 w (by simp only [pgSize, kernBase] at *; omega)]
      rfl) h₁
  rw [Nat.zero_mul] at hloop
  exact ⟨d₂, m₂, ok_bind hsetup (ok_bind hloop rfl), h₂⟩

theorem OwnsFrames.mapped {f : Nat} (h : OwnsFrames pg) (hm : FreelistOK m)
    (hmap : Mapped pg pg' m m' v (v2p f)) (hf : IsFrame f) :
    OwnsFrames pg' := by
  refine h.of_grew hm hmap.grew fun w hw hp => ?_
  rw [hmap.page w (by omega)] at hp ⊢
  by_cases hwv : w = v
  · rw [if_pos hwv]
    change IsFrame (p2v (v2p f))
    rw [hf.p2v_v2p]
    exact hf
  · rw [if_neg hwv] at hp ⊢
    exact h.page w hw hp

/-! ## §3  `fork` -/

/-- One round of `manage_fork`, below the limit of 16 processes. -/
theorem forkPos_fits {p c : Fin nproc} {i : Fin shmemPages} {s : Kernel} (hpc : p ≠ c)
    (hfresh : ((s.proc c).pgdir.page (windowPage i)).p = false)
    (hfits : Fits (s.proc c).pgdir 0 s.mem)
    (hcap : (s.proc p).bitmap i = 1 → ∀ t, s.shTable.shmemCounter t < 16) :
    ∃ s', forkPos p c i s = .ok (false, s') ∧ Fits (s'.proc c).pgdir 0 s'.mem ∧
      s'.proc p = s.proc p ∧
      (∀ t, s'.shTable.shmemCounter t ≤
        s.shTable.shmemCounter t + if (s.proc p).bitmap i = 1 then 1 else 0) ∧
      ∀ w < 2 ^ 20, w ≠ windowPage i → (s'.proc c).pgdir.page w = (s.proc c).pgdir.page w := by
  unfold forkPos
  dsimp only
  by_cases hcopy : (s.proc p).bitmap i = 1 ∧ (s.proc p).bitmap i ≠ (s.proc c).bitmap i
  · have hv : windowPage i < 2 ^ 20 := by
      simp only [windowPage]
      omega
    obtain ⟨pg, m, hmap, hfits'⟩ := mappages_page_fits permWU
      (v2p ((s.proc p).phySharedPage i)) hv hfresh hfits
    obtain ⟨-, -, hpages⟩ := mappages_page_spec hv hmap
    rw [windowPage_mul i.isLt] at hmap
    have hother : ∀ w < 2 ^ 20, w ≠ windowPage i → pg.page w = (s.proc c).pgdir.page w :=
      fun w hw hne => by rw [hpages w hw, if_neg fun hc => hne hc.2]
    rw [if_pos hcopy, if_pos hcopy.1]
    cases hslot : slotOf s.shTable ((s.proc p).phySharedPage i) with
    | none =>
      refine ⟨{ s with mem := m }.setProc c ((s.proc c).inherit (s.proc p) i pg),
        ok_bind hmap ?_, ?_, setProc_ne hpc _, fun t => ?_, ?_⟩
      · simp only [if_true, setProc_shTable, hslot]
      · simpa [Proc.inherit] using hfits'
      · simp only [setProc_shTable]
        omega
      · simpa [Proc.inherit] using hother
    | some y =>
      have hne : s.shTable.shmemCounter y ≠ 16 := Int.ne_of_lt (hcap hcopy.1 y)
      refine ⟨{ s with
          mem := m
          shTable := s.shTable.setCounter y (s.shTable.shmemCounter y + 1) }.setProc c
            ((s.proc c).inherit (s.proc p) i pg),
        ok_bind hmap ?_, ?_, setProc_ne hpc _, fun t => ?_, ?_⟩
      · simp only [if_true, setProc_shTable, hslot, hne, if_false]
        rfl
      · simpa [Proc.inherit] using hfits'
      · by_cases hty : t = y
        · simp [hty, ShmTable.setCounter]
        · simp [hty, ShmTable.setCounter]
      · simpa [Proc.inherit] using hother
  · refine ⟨s, by rw [if_neg hcopy], hfits, rfl, fun t => ?_, fun _ _ _ => rfl⟩
    split <;> omega

theorem manageFork_fits {p c : Fin nproc} (hpc : p ≠ c) {is : List (Fin shmemPages)} {s : Kernel}
    (hnd : is.Nodup) (hfresh : ∀ i ∈ is, ((s.proc c).pgdir.page (windowPage i)).p = false)
    (hfits : Fits (s.proc c).pgdir 0 s.mem)
    (hcap : ∀ t, s.shTable.shmemCounter t + is.countP (fun i => (s.proc p).bitmap i = 1) ≤ 16) :
    ∃ s', manageFork p c is s = .ok (false, s') := by
  induction is generalizing s with
  | nil => exact ⟨s, rfl⟩
  | cons i is ih =>
    obtain ⟨hi, hnd⟩ := List.nodup_cons.mp hnd
    obtain ⟨s₁, hpos, hfits₁, hp, hcount, hpages⟩ := forkPos_fits hpc
      (hfresh i List.mem_cons_self) hfits (fun hbit t => by
        have := hcap t
        rw [List.countP_cons_of_pos (by simpa using hbit)] at this
        omega)
    obtain ⟨s', hrest⟩ := ih hnd (fun j hj => by
        have hne : windowPage j ≠ windowPage i := fun heq =>
          hi (Fin.ext (windowPage_inj j.isLt i.isLt heq) ▸ hj)
        have hw : windowPage j < 2 ^ 20 := by
          simp only [windowPage]
          omega
        rw [hpages _ hw hne]
        exact hfresh j (List.mem_cons_of_mem i hj)) hfits₁ (fun t => by
        have h₁ := hcap t
        have h₂ := hcount t
        rw [hp]
        by_cases hbit : (s.proc p).bitmap i = 1
        · simp only [List.countP_cons, hbit, decide_true, if_true] at h₁ h₂
          omega
        · simp only [List.countP_cons, hbit, decide_false, Bool.false_eq_true, if_false] at h₁ h₂
          omega)
    exact ⟨s', ok_bind hpos hrest⟩

omit [Image] in
theorem allocproc_fits {s : Kernel} (hun : ∃ q, (s.proc q).state = .unused)
    (hlen : 0 < s.mem.freelist.length) : ∃ np s', allocproc s = (some np, s') := by
  cases halloc : allocproc s with
  | mk r s' =>
    cases r with
    | some np => exact ⟨np, s', rfl⟩
    | none =>
      unfold allocproc at halloc
      split at halloc
      · rename_i hnone
        obtain ⟨q, hq⟩ := hun
        have := find_finRange_none hnone q
        simp [hq] at this
      · cases hl : s.mem.freelist with
        | nil => simp [hl] at hlen
        | cons k rest => simp [kalloc, hl] at halloc

/-- **`fork` returns the child's pid** when there is a free process slot,
memory for the copy, and no page of the caller is at the limit. -/
theorem fork_fits {p : Fin nproc} {s : Kernel} (hlive : s.Live p)
    (hun : ∃ q, (s.proc q).state = .unused) (hfree : FreelistOK s.mem)
    (hsz : (s.proc p).sz + shmemPages * pgSize ≤ kernBase) (hn : (s.proc p).sz ≤ n * pgSize)
    (hpages : ∀ w, w * pgSize < (s.proc p).sz → ((s.proc p).pgdir.page w).p = true)
    (hlen : 1026 + n ≤ s.mem.freelist.length) (hcap : ∀ t, s.shTable.shmemCounter t +
      (List.finRange shmemPages).countP (fun i => (s.proc p).bitmap i = 1) ≤ 16) :
    ∃ s', fork p s = .ok (.value s.nextpid, s') := by
  obtain ⟨np, s₁, halloc⟩ := allocproc_fits hun (by omega)
  have hsz' : (s.proc p).sz ≤ kernBase := by omega
  unfold fork
  rcases allocproc_ok halloc with ⟨hr, -⟩ | ⟨np', k, m₁, hr, hnp, hl, rfl⟩
  · cases hr
  · cases hr
    have hne : p ≠ np := fun heq => live_ne_unused hlive (heq ▸ hnp)
    have hm₁ : FreelistOK m₁ := fun f hf => hfree f (by rw [hl]; exact List.mem_cons_of_mem _ hf)
    rw [hl, List.length_cons] at hlen
    obtain ⟨d, m₂, hcopy, hfits⟩ := copyuvm_fits (k := 0) hm₁ hn hsz' hpages
      (show 1025 + (0 + n) ≤ m₁.freelist.length by omega)
    obtain ⟨-, -, hsome⟩ := copyuvm_spec hsz' hm₁ hcopy
    have hfresh : ∀ i : Fin shmemPages, (d.page (windowPage i)).p = false := by
      intro i
      have hi : (i : Nat) < 32 := i.isLt
      have habove : (s.proc p).sz ≤ windowPage i * pgSize := by
        simp only [windowPage, pgSize, kernBase, shmemPages] at hsz ⊢
        omega
      rw [(hsome d rfl).2.1 _ (by simp only [windowPage]; omega) habove]
      rfl
    obtain ⟨s₂, hloop⟩ := manageFork_fits (s := s.born p np k d m₂) hne
      (List.nodup_finRange shmemPages)
      (fun i _ => by rw [born_self]; exact hfresh i) (by rw [born_self]; exact hfits)
      (fun t => by rw [born_ne hne]; exact hcap t)
    have hpid : (s₂.proc np).pid = s.nextpid := by
      rcases manageFork_ok hne (List.nodup_finRange shmemPages) hloop with ⟨-, hinh, -⟩ | ⟨hg, -⟩
      · rw [hinh.rest.2.2.2.1, born_self]
        rfl
      · cases hg
    rw [halloc]
    dsimp only
    rw [setProc_ne hne]
    refine ⟨s₂.setProc np { s₂.proc np with state := .runnable }, ok_bind hcopy ?_⟩
    dsimp only
    refine ok_bind (a := (false, s₂)) ?_ ?_
    · rw [← hloop]
      simp [Kernel.born, setProc, Proc.newborn]
    · simp [hpid]

/-! ## §4  `exec` of a program without segments -/

omit [Image] in
theorem copyoutLoop_nil (cur pg : PgDir) (fuel va : Nat) (m : Mem) :
    copyoutLoop cur pg fuel va [] m = .ok (true, m) := by
  cases fuel <;> simp [copyoutLoop]

omit [Image] in
/-- What `uva2ka` finds at a page that has its page table. -/
theorem uva2ka_tab {cur : PgDir} (htab : (pg.pde (pdx (v * pgSize))).isSome) :
    uva2ka cur pg (v * pgSize) m = .ok
      (if (pg.page v).p && (pg.page v).u then
        if p2v (pg.page v).pa = 0 then none else some (p2v (pg.page v).pa)
      else none) := by
  unfold uva2ka
  rw [walkpgdir_noalloc, if_pos htab]
  refine ok_bind rfl ?_
  change (if ((pg.page v).p && (pg.page v).u) = true then _ else _) = _
  split <;> rfl

omit [Image] in
theorem uva2ka_page {cur : PgDir} {f : Nat} (hpage : pg.page v = .map (v2p f) permWU)
    (hf : p2v (v2p f) = f) (hf0 : f ≠ 0) : uva2ka cur pg (v * pgSize) m = .ok (some f) := by
  rw [uva2ka_tab (tab_of_present (by rw [hpage]; rfl)), hpage]
  simp [Pte.map, permWU, hf, hf0]

omit [Image] in
theorem pgRoundDown_page {off : Nat} (h : off < pgSize) :
    pgRoundDown (v * pgSize + off) = v * pgSize := by
  simp only [pgRoundDown, pgSize] at *
  omega

omit [Image] in
/-- **A `copyout` inside one page of the user** writes the bytes there. -/
theorem copyout_page (cur : PgDir) (m : Mem) {off f : Nat} {buf : List UInt8}
    (hoff : off + buf.length ≤ pgSize) (hpos : 0 < buf.length)
    (hpage : pg.page v = .map (v2p f) permWU) (hf : p2v (v2p f) = f) (hf0 : f ≠ 0) :
    copyout cur pg (v * pgSize + off) buf m =
      .ok (true, m.store f off buf.length fun o => buf.getD o 0) := by
  obtain ⟨n, hn⟩ := Nat.exists_eq_succ_of_ne_zero (Nat.ne_of_gt hpos)
  have hall : (if buf.length < pgSize - off then buf.length else pgSize - off) = buf.length := by
    split <;> omega
  conv_lhs => rw [copyout, hn, copyoutLoop, if_pos hpos, pgRoundDown_page (by omega)]
  refine ok_bind (uva2ka_page hpage hf hf0) ?_
  dsimp only
  rw [Nat.add_sub_cancel_left, hall, List.drop_length]
  exact copyoutLoop_nil cur pg n _ _

/-- A program without segments is loaded, if there is memory: two pages, the upper
one for the stack. -/
theorem buildImage_empty {ip : Inode} (hm : FreelistOK m) (hseg : ip.u16 44 = 0)
    (hlen : 1027 ≤ m.freelist.length) :
    ∃ pg m' f, buildImage ip m = .ok (some (2 * pgSize, pg), m') ∧ IsFrame f ∧
      pg.page 1 = .map (v2p f) permWU := by
  obtain ⟨d, m₁, hsetup, h₁⟩ := setupkvm_fits (k := 2) hm hlen
  obtain ⟨hok, -, hsome⟩ := setupkvm_spec hsetup
  obtain ⟨pg₁, m₂, hloop, -⟩ := allocLoop_fits 0 (k := 0) (n := 2)
    (Nat.le_refl (2 * pgSize)) (by decide) (2 * pgSize / pgSize + 1) (v := 0)
    (fun w _ hw => by
      rw [(hsome d rfl).2.1 w (by simp only [pgSize] at hw; omega)]
      rfl) (m := m₁) h₁
  have halloc : allocuvm d (pgRoundUp 0) (pgRoundUp 0 + 2 * pgSize) m₁ =
      .ok (2 * pgSize, pg₁, m₂) := by
    change allocuvm d 0 (2 * pgSize) m₁ = _
    rw [allocuvm, if_neg (by decide), if_neg (by decide)]
    exact ok_bind hloop rfl
  obtain ⟨-, -, -, -, h0 | ⟨hlt, -⟩ | ⟨-, -, -, hnew⟩⟩ := allocuvm_spec (hok hm) halloc
  · exact absurd h0 (by decide)
  · exact absurd hlt (by decide)
  · obtain ⟨f₀, -, hpage₀⟩ := hnew 0 (by decide) (by decide)
    obtain ⟨f₁, hf₁, hpage₁⟩ := hnew 1 (by decide) (by decide)
    -- the lower page is the guard page
    have htab : (pg₁.pde (pdx (0 * pgSize))).isSome := tab_of_present (by rw [hpage₀]; rfl)
    obtain ⟨pg₂, hclear, hpage₂⟩ : ∃ pg₂,
        clearpteu pg₁ (2 * pgSize - 2 * pgSize) m₂ = .ok pg₂ ∧
        pg₂.page 1 = .map (v2p f₁) permWU := by
      refine ⟨pg₁.setEntry (0 * pgSize) { pg₁.entry (0 * pgSize) with u := false }, ?_, ?_⟩
      · change clearpteu pg₁ (0 * pgSize) m₂ = _
        rw [clearpteu, walkpgdir_noalloc, if_pos htab]
      · rw [PgDir.page_setEntry _ (by decide) (by decide) htab, if_neg (by decide), hpage₁]
    have himage : loadImage ip d m₁ = .ok (some (2 * pgSize), pg₂, m₂) := by
      rw [loadImage, hseg]
      refine ok_bind (a := (some 0, d, m₁)) rfl (ok_bind halloc ?_)
      dsimp only
      rw [if_neg (by decide)]
      exact ok_bind hclear rfl
    exact ⟨pg₂, m₂, f₁, ok_bind hsetup (ok_bind himage rfl), hf₁, hpage₂⟩

/-- **`exec` commits** to a program without segments, when there is memory
and the old address space can be freed. -/
theorem exec_empty {p : Fin nproc} {ip : Inode} {s : Kernel} (hm : FreelistOK s.mem)
    (hread : readi ip 0 52 = some 52) (hmagic : ip.u32 0 = elfMagic) (hseg : ip.u16 44 = 0)
    (hlen : 1027 ≤ s.mem.freelist.length) (hown : OwnsFrames (s.proc p).pgdir) :
    ∃ s', exec p (some ip) [] s = .ok (.value 0, s') := by
  obtain ⟨pg, m₁, f, hbuild, hf, hpage⟩ := buildImage_empty hm hseg hlen
  obtain ⟨m₂, hout⟩ : ∃ m₂, copyout (s.proc p).pgdir pg (1 * pgSize + (pgSize - 16))
      ([0xffffffff, 0, 2 * pgSize - 4, 0].flatMap wordBytes) m₁ = .ok (true, m₂) :=
    ⟨_, copyout_page _ _ (by decide) (by decide) hpage hf.p2v_v2p hf.ne_zero⟩
  obtain ⟨m₃, hfree⟩ := freevm_owns hown m₂
  refine ⟨{ s with mem := m₃ }.setProc p
    { s.proc p with pgdir := pg, sz := 2 * pgSize, esp := 2 * pgSize - 16 }, ?_⟩
  simp only [exec, hread, hmagic, ne_eq, not_true_eq_false, or_self, if_false]
  refine ok_bind hbuild (ok_bind (a := (some (2 * pgSize - 16), m₂)) ?_ (ok_bind hfree rfl))
  exact ok_bind hout rfl

end Xv6
