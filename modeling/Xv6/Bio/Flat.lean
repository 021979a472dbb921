import Xv6.Bio.Bio

/-!
# The buffer cache is one flat array of blocks

`flat` is what a program that knows of no cache would see: the disk with all
changes made so far. A valid buffer holds the block of that array; the disk
holds it wherever no buffer is valid or the buffer is neither dirty nor just
being changed. That is why a buffer nobody uses can be given to another block.
-/

namespace Xv6

open Transition Links Function

/-- Which buffer a user refers to. -/
def BioLoc.buf : BioLoc → Option (Fin nbuf)
  | .idle => none
  | .got _ b | .locked _ b | .holding _ b | .changed _ b | .released _ b => some b

/-- Which block it asked for. -/
def BioLoc.id : BioLoc → BlockId
  | .idle => (0, 0)
  | .got k _ | .locked k _ | .holding k _ | .changed k _ | .released k _ => k

/-- Which buffer it has locked. -/
def BioLoc.owns : BioLoc → Option (Fin nbuf)
  | .locked _ b | .holding _ b | .changed _ b => some b
  | _ => none

/-- Which buffer `bread` has given it. -/
def BioLoc.has : BioLoc → Option (Fin nbuf)
  | .holding _ b | .changed _ b => some b
  | _ => none

/-- Which buffer it has changed and not yet written or logged. -/
def BioLoc.changing : BioLoc → Option (Fin nbuf)
  | .changed _ b => some b
  | _ => none

theorem BioLoc.buf_of_owns {l : BioLoc} {b : Fin nbuf} (h : l.owns = some b) : l.buf = some b := by
  cases l <;> first | exact h | cases h

theorem BioLoc.owns_of_has {l : BioLoc} {b : Fin nbuf} (h : l.has = some b) : l.owns = some b := by
  cases l <;> first | exact h | cases h

theorem BioLoc.owns_of_changing {l : BioLoc} {b : Fin nbuf} (h : l.changing = some b) :
    l.owns = some b := by
  cases l <;> first | exact h | cases h

variable {ι : Type*}

/-- All changes of a history, made to an array of blocks. -/
def flat (d : BlockId → Block) (es : List (BioEvent ι)) : BlockId → Block :=
  es.foldl (fun f e => match e with
    | .modify _ k v => update f k v
    | _ => f) d

/-! ## §1  One buffer -/

/-- Buffer `b` is `B`, beside the array `f`. -/
structure BufOK (f disk : BlockId → Block) (loc : ι → BioLoc) (b : Fin nbuf) (B : Buffer) : Prop where
  refs : ∃ P : Finset ι, (∀ p, p ∈ P ↔ (loc p).buf = some b) ∧ P.card = B.refcnt
  used : ∀ p, (loc p).buf = some b → (loc p).id = B.id ∧ B.id.1 ≠ 0
  owner : ∀ p, (loc p).owns = some b → B.locked = true
  one : ∀ p q, (loc p).owns = some b → (loc q).owns = some b → p = q
  dev : B.valid = true → B.id.1 ≠ 0
  dirty : B.dirty = true → B.valid = true
  has : ∀ p, (loc p).has = some b → B.valid = true
  data : B.valid = true → B.data = f B.id
  clean : B.valid = true → B.dirty = false → (∀ p, (loc p).changing ≠ some b) →
    disk B.id = f B.id

section OneBuffer

variable [DecidableEq ι] {f f' disk disk' : BlockId → Block} {loc : ι → BioLoc} {b : Fin nbuf}
  {B B' : Buffer} {p : ι} {l : BioLoc}

/-- A user without the lock of the buffer comes to no lock by this move. -/
theorem owns_update (loc : ι → BioLoc) (hl : l.owns ≠ some b) (q : ι)
    (hq : (update loc p l q).owns = some b) : q ≠ p ∧ (loc q).owns = some b := by
  by_cases hqp : q = p
  · rw [hqp, update_self] at hq
    exact absurd hq hl
  · rw [update_of_ne hqp] at hq
    exact ⟨hqp, hq⟩

/-- A user of other buffers moves on. -/
theorem BufOK.frame (h : BufOK f disk loc b B) (hp : (loc p).buf ≠ some b) (hl : l.buf ≠ some b)
    (hf : f' B.id = f B.id) (hdisk : disk' B.id = disk B.id) :
    BufOK f' disk' (update loc p l) b B := by
  have hbuf : ∀ q, (update loc p l q).buf = some b ↔ (loc q).buf = some b := by
    intro q
    by_cases hqp : q = p
    · rw [hqp, update_self]
      exact iff_of_false hl hp
    · rw [update_of_ne hqp]
  have howns := owns_update (p := p) loc fun howns => hl (BioLoc.buf_of_owns howns)
  obtain ⟨P, hP, hcard⟩ := h.refs
  refine { refs := ⟨P, fun q => (hP q).trans (hbuf q).symm, hcard⟩, used := fun q hq => ?_,
           owner := fun q hq => h.owner q (howns q hq).2,
           one := fun q r hq hr => h.one q r (howns q hq).2 (howns r hr).2, dev := h.dev,
           dirty := h.dirty, has := fun q hq => ?_, data := fun hv => ?_,
           clean := fun hv hd hno => ?_ }
  · have hqp : q ≠ p := by
      rintro rfl
      rw [update_self] at hq
      exact hl hq
    rw [update_of_ne hqp] at hq ⊢
    exact h.used q hq
  · have hqp := (howns q (BioLoc.owns_of_has hq)).1
    rw [update_of_ne hqp] at hq
    exact h.has q hq
  · rw [hf]
    exact h.data hv
  · rw [hf, hdisk]
    refine h.clean hv hd fun q hq => ?_
    have hqp : q ≠ p := by
      rintro rfl
      exact hp (BioLoc.buf_of_owns (BioLoc.owns_of_changing hq))
    exact hno q (by rw [update_of_ne hqp]; exact hq)

/-- The one user that may have the lock of the buffer moves on with it. -/
theorem BufOK.own (h : BufOK f disk loc b B) (hp : (loc p).buf = some b) (hl : l.buf = some b)
    (hid : l.id = (loc p).id) (halone : ∀ q, q ≠ p → (loc q).owns ≠ some b)
    (hB : B'.id = B.id) (href : B'.refcnt = B.refcnt)
    (hlock : l.owns = some b → B'.locked = true) (hdirty : B'.dirty = true → B'.valid = true)
    (hhas : l.has = some b → B'.valid = true) (hdata : B'.valid = true → B'.data = f' B.id)
    (hclean : B'.valid = true → B'.dirty = false → l.changing ≠ some b → disk' B.id = f' B.id) :
    BufOK f' disk' (update loc p l) b B' := by
  have howns : ∀ q, (update loc p l q).owns = some b → q = p ∧ l.owns = some b := by
    intro q hq
    by_cases hqp : q = p
    · rw [hqp, update_self] at hq
      exact ⟨hqp, hq⟩
    · rw [update_of_ne hqp] at hq
      exact absurd hq (halone q hqp)
  have hused := h.used p hp
  obtain ⟨P, hP, hcard⟩ := h.refs
  refine { refs := ⟨P, fun q => ?_, hcard.trans href.symm⟩, used := fun q hq => ?_,
           owner := fun q hq => hlock (howns q hq).2,
           one := fun q r hq hr => (howns q hq).1.trans (howns r hr).1.symm,
           dev := fun _ => hB ▸ hused.2, dirty := hdirty, has := fun q hq => ?_,
           data := fun hv => hB ▸ hdata hv, clean := fun hv hd hno => ?_ }
  · rw [hP q]
    by_cases hqp : q = p
    · rw [hqp, update_self]
      exact iff_of_true hp hl
    · rw [update_of_ne hqp]
  · rw [hB]
    by_cases hqp : q = p
    · rw [hqp, update_self, hid]
      exact hused
    · rw [update_of_ne hqp] at hq ⊢
      exact h.used q hq
  · have hqp := (howns q (BioLoc.owns_of_has hq)).1
    rw [hqp, update_self] at hq
    exact hhas hq
  · rw [hB]
    refine hclean hv hd ?_
    have := hno p
    rwa [update_self] at this

/-- One reference more: the buffer is found, or taken over from another
block. -/
theorem BufOK.join (h : BufOK f disk loc b B) (hp : (loc p).buf = none) (hl : l.buf = some b)
    (hown : l.owns = none) (hid : l.id = B'.id) (hdev : l.id.1 ≠ 0)
    (hused : B.refcnt ≠ 0 → B'.id = B.id) (href : B'.refcnt = B.refcnt + 1)
    (hlock : B'.locked = B.locked) (hdirty : B'.dirty = true → B'.valid = true)
    (hvalid : B.refcnt ≠ 0 → B.valid = true → B'.valid = true)
    (hdata : B'.valid = true → B'.data = f B'.id)
    (hclean : B'.valid = true → B'.dirty = false → (∀ q, (loc q).changing ≠ some b) →
      disk B'.id = f B'.id) : BufOK f disk (update loc p l) b B' := by
  obtain ⟨P, hP, hcard⟩ := h.refs
  have hpP : p ∉ P := by
    rw [hP p, hp]
    simp
  -- whoever refers to the buffer already keeps its block
  have hpos : ∀ q, (loc q).buf = some b → B.refcnt ≠ 0 := by
    intro q hq hzero
    rw [← hcard, Finset.card_eq_zero] at hzero
    have := (hP q).mpr hq
    rw [hzero] at this
    exact absurd this (Finset.notMem_empty q)
  have howns := owns_update (p := p) (l := l) (b := b) loc (by rw [hown]; simp)
  refine { refs := ⟨insert p P, fun q => ?_, ?_⟩, used := fun q hq => ?_,
           owner := fun q hq => ?_,
           one := fun q r hq hr => h.one q r (howns q hq).2 (howns r hr).2,
           dev := fun _ => hid ▸ hdev, dirty := hdirty, has := fun q hq => ?_,
           data := hdata, clean := fun hv hd hno => hclean hv hd fun q hq => ?_ }
  · by_cases hqp : q = p
    · rw [hqp, update_self]
      exact iff_of_true (Finset.mem_insert_self _ _) hl
    · rw [update_of_ne hqp, Finset.mem_insert, hP q]
      simp [hqp]
  · rw [Finset.card_insert_of_notMem hpP, hcard, href]
  · by_cases hqp : q = p
    · rw [hqp, update_self]
      exact ⟨hid, hid ▸ hdev⟩
    · rw [update_of_ne hqp] at hq ⊢
      rw [hused (hpos q hq)]
      exact h.used q hq
  · rw [hlock]
    exact h.owner q (howns q hq).2
  · obtain ⟨hqp, hq'⟩ := howns q (BioLoc.owns_of_has hq)
    rw [update_of_ne hqp] at hq
    exact hvalid (hpos q (BioLoc.buf_of_owns hq')) (h.has q hq)
  · have hqp : q ≠ p := by
      rintro rfl
      have := BioLoc.buf_of_owns (BioLoc.owns_of_changing hq)
      rw [hp] at this
      cases this
    exact hno q (by rw [update_of_ne hqp]; exact hq)

/-- One reference less. -/
theorem BufOK.leave (h : BufOK f disk loc b B) (hp : (loc p).buf = some b)
    (hown : (loc p).owns = none) :
    BufOK f disk (update loc p .idle) b { B with refcnt := B.refcnt - 1 } := by
  obtain ⟨P, hP, hcard⟩ := h.refs
  have howns := owns_update (p := p) (l := .idle) (b := b) loc (by simp [BioLoc.owns])
  refine { refs := ⟨P.erase p, fun q => ?_, ?_⟩, used := fun q hq => ?_,
           owner := fun q hq => h.owner q (howns q hq).2,
           one := fun q r hq hr => h.one q r (howns q hq).2 (howns r hr).2, dev := h.dev,
           dirty := h.dirty, has := fun q hq => ?_, data := h.data,
           clean := fun hv hd hno => h.clean hv hd fun q hq => ?_ }
  · by_cases hqp : q = p
    · rw [hqp, update_self]
      simp [BioLoc.buf]
    · rw [update_of_ne hqp, Finset.mem_erase, hP q]
      simp [hqp]
  · rw [Finset.card_erase_of_mem ((hP p).mpr hp), hcard]
  · by_cases hqp : q = p
    · rw [hqp, update_self] at hq
      cases hq
    · rw [update_of_ne hqp] at hq ⊢
      exact h.used q hq
  · have hqp := (howns q (BioLoc.owns_of_has hq)).1
    rw [update_of_ne hqp] at hq
    exact h.has q hq
  · have hqp : q ≠ p := by
      rintro rfl
      have := BioLoc.owns_of_changing hq
      rw [hown] at this
      cases this
    exact hno q (by rw [update_of_ne hqp]; exact hq)

end OneBuffer

/-! ## §2  The cache -/

structure BioInv (f : BlockId → Block) (s : BioState ι) : Prop where
  list : ∃ xs, Linked s.links xs ∧ ∀ b, b ∈ xs
  unique : ∀ b b', (s.bufs b).id.1 ≠ 0 → (s.bufs b).id = (s.bufs b').id → b = b'
  bufs : ∀ b, BufOK f s.disk s.loc b (s.bufs b)
  rest : ∀ k, (∀ b, (s.bufs b).valid = true → (s.bufs b).id ≠ k) → s.disk k = f k

section Cache

variable {f f' : BlockId → Block} {s s' : BioState ι} {k : BlockId} {b : Fin nbuf}

theorem length_of_all {xs : List (Fin nbuf)} (hnodup : xs.Nodup) (hall : ∀ b, b ∈ xs) :
    xs.length = nbuf := by
  have hperm : xs.Perm (List.finRange nbuf) :=
    (List.perm_ext_iff_of_nodup hnodup (List.nodup_finRange nbuf)).mpr fun b =>
      iff_of_true (hall b) (List.mem_finRange b)
  rw [hperm.length_eq, List.length_finRange]

/-- What the first loop of `bget` finds. -/
theorem BioInv.cached_some (h : BioInv f s) (hb : s.cached k = some b) : (s.bufs b).id = k := by
  obtain ⟨xs, hlinked, hall⟩ := h.list
  rw [BioState.cached, hlinked.scan_next _ (length_of_all hlinked.nodup hall).le] at hb
  simpa using List.find?_some hb

theorem BioInv.cached_none (h : BioInv f s) (hb : s.cached k = none) (b : Fin nbuf) :
    (s.bufs b).id ≠ k := by
  obtain ⟨xs, hlinked, hall⟩ := h.list
  rw [BioState.cached, hlinked.scan_next _ (length_of_all hlinked.nodup hall).le] at hb
  simpa using List.find?_eq_none.mp hb b (hall b)

/-- What the second one finds. -/
theorem BioInv.unused_some (h : BioInv f s) (hb : s.unused = some b) :
    (s.bufs b).refcnt = 0 ∧ (s.bufs b).dirty = false := by
  obtain ⟨xs, hlinked, hall⟩ := h.list
  rw [BioState.unused, hlinked.scan_prev _ (length_of_all hlinked.nodup hall).le] at hb
  simpa using List.find?_some hb

theorem iderw_keeps {disk disk' : BlockId → Block} {B B' : Buffer}
    (h : iderw disk B = some (B', disk')) : B'.id = B.id ∧ (B.valid = true → B'.valid = true) := by
  unfold iderw at h
  split at h
  · cases h
  · split at h
    · cases h
    · split at h <;> cases h <;> exact ⟨rfl, fun _ => rfl⟩

theorem BufOK.not_used {loc : ι → BioLoc} {disk : BlockId → Block} {B : Buffer}
    (h : BufOK f disk loc b B) (hzero : B.refcnt = 0) (p : ι) : (loc p).buf ≠ some b := by
  intro hp
  obtain ⟨P, hP, hcard⟩ := h.refs
  rw [hzero, Finset.card_eq_zero] at hcard
  have := (hP p).mpr hp
  rw [hcard] at this
  exact absurd this (Finset.notMem_empty p)

variable [DecidableEq ι] {p : ι} {l : BioLoc} {B' : Buffer}

/-- A user moves on that has to do with no buffer but `b`; the buffer keeps its
block, and array and disk change at that block only. -/
theorem BioInv.put (h : BioInv f s) {disk' : BlockId → Block}
    (hp : ∀ c, c ≠ b → (s.loc p).buf ≠ some c) (hl : ∀ c, c ≠ b → l.buf ≠ some c)
    (hB : B'.id = (s.bufs b).id) (hdev : (s.bufs b).id.1 ≠ 0)
    (hok : BufOK f' disk' (update s.loc p l) b B')
    (hf : ∀ k, k ≠ (s.bufs b).id → f' k = f k)
    (hdisk : ∀ k, k ≠ (s.bufs b).id → disk' k = s.disk k)
    (hvalid : B'.valid = false → (s.bufs b).valid = false ∧ f' = f ∧ disk' = s.disk) :
    BioInv f' { s.put p l b B' with disk := disk' } := by
  have hid : ∀ c, (update s.bufs b B' c).id = (s.bufs c).id := by
    intro c
    by_cases hcb : c = b
    · rw [hcb, update_self, hB]
    · rw [update_of_ne hcb]
  refine ⟨h.list, fun c c' hc heq => ?_, fun c => ?_, fun k hk => ?_⟩
  · simp only [BioState.put, hid] at hc heq
    exact h.unique c c' hc heq
  · by_cases hcb : c = b
    · simp only [BioState.put, hcb, update_self]
      exact hok
    · have hne : (s.bufs c).id ≠ (s.bufs b).id := fun heq =>
        hcb (h.unique b c hdev heq.symm).symm
      simp only [BioState.put, update_of_ne hcb]
      exact (h.bufs c).frame (hp c hcb) (hl c hcb) (hf _ hne) (hdisk _ hne)
  · change disk' k = f' k
    have hother : ∀ c, c ≠ b → (s.bufs c).valid = true → (s.bufs c).id ≠ k := by
      intro c hcb hc
      have := hk c
      simp only [BioState.put, update_of_ne hcb] at this
      exact this hc
    cases hB' : B'.valid with
    | true =>
      have hkb : k ≠ (s.bufs b).id := by
        have := hk b
        simp only [BioState.put, update_self, hB] at this
        exact (this hB').symm
      -- a valid buffer for the block is among the others
      rw [hf k hkb, hdisk k hkb]
      refine h.rest k fun c hc => ?_
      by_cases hcb : c = b
      · rw [hcb]
        exact hkb.symm
      · exact hother c hcb hc
    | false =>
      obtain ⟨hold, hff, hdd⟩ := hvalid hB'
      rw [hff, hdd]
      refine h.rest k fun c hc => ?_
      by_cases hcb : c = b
      · rw [hcb, hold] at hc
        cases hc
      · exact hother c hcb hc

/-- The first loop of `bget` succeeds. -/
theorem BioInv.hit (h : BioInv f s) (hdev : k.1 ≠ 0) (hloc : s.loc p = .idle)
    (hb : s.cached k = some b) :
    BioInv f (s.put p (.got k b) b { s.bufs b with refcnt := (s.bufs b).refcnt + 1 }) := by
  have hk := h.cached_some hb
  refine h.put (fun c _ => by rw [hloc]; simp [BioLoc.buf])
    (fun c hcb heq => hcb (Option.some.inj heq).symm) rfl (hk ▸ hdev) ?_ (fun _ _ => rfl)
    (fun _ _ => rfl) fun hv => ⟨hv, rfl, rfl⟩
  exact (h.bufs b).join (by rw [hloc]; rfl) rfl rfl hk.symm hdev (fun _ => rfl) rfl rfl
    (h.bufs b).dirty (fun _ => id) (h.bufs b).data (h.bufs b).clean

/-- The second loop of `bget` succeeds: nobody loses anything, as the disk has
what the buffer held. -/
theorem BioInv.recycle (h : BioInv f s) (hdev : k.1 ≠ 0) (hloc : s.loc p = .idle)
    (hnone : s.cached k = none) (hb : s.unused = some b) :
    BioInv f (s.put p (.got k b) b
      { s.bufs b with id := k, valid := false, dirty := false, refcnt := 1 }) := by
  obtain ⟨hzero, hclean⟩ := h.unused_some hb
  have hfree := (h.bufs b).not_used hzero
  have hno := h.cached_none hnone
  refine ⟨h.list, fun c c' hc heq => ?_, fun c => ?_, fun k' hk' => ?_⟩
  · by_cases hcb : c = b <;> by_cases hcb' : c' = b
    · rw [hcb, hcb']
    · simp only [BioState.put, hcb, update_self, update_of_ne hcb'] at heq
      exact absurd heq.symm (hno c')
    · simp only [BioState.put, hcb', update_self, update_of_ne hcb] at heq
      exact absurd heq (hno c)
    · simp only [BioState.put, update_of_ne hcb, update_of_ne hcb'] at hc heq
      exact h.unique c c' hc heq
  · by_cases hcb : c = b
    · simp only [BioState.put, hcb, update_self]
      exact (h.bufs b).join (by rw [hloc]; rfl) rfl rfl rfl hdev (fun hne => absurd hzero hne)
        (by rw [hzero]) rfl (by simp) (fun hne => absurd hzero hne) (by simp) (by simp)
    · simp only [BioState.put, update_of_ne hcb]
      refine (h.bufs c).frame (by rw [hloc]; simp [BioLoc.buf]) ?_ rfl rfl
      exact fun heq => hcb (Option.some.inj heq).symm
  · change s.disk k' = f k'
    by_cases hold : (s.bufs b).valid = true ∧ (s.bufs b).id = k'
    · rw [← hold.2]
      refine (h.bufs b).clean hold.1 hclean fun q hq => hfree q ?_
      exact BioLoc.buf_of_owns (BioLoc.owns_of_changing hq)
    · refine h.rest k' fun c hc => ?_
      by_cases hcb : c = b
      · rw [hcb] at hc ⊢
        exact fun heq => hold ⟨hc, heq⟩
      · have := hk' c
        simp only [BioState.put, update_of_ne hcb] at this
        exact this hc

/-- `brelse`, but for the list. -/
theorem BioInv.leave (h : BioInv f s) (hloc : s.loc p = .released k b) :
    BioInv f (s.put p .idle b { s.bufs b with refcnt := (s.bufs b).refcnt - 1 }) := by
  have hp : (s.loc p).buf = some b := by rw [hloc]; rfl
  refine h.put (fun c hcb heq => hcb (Option.some.inj (hp.symm.trans heq)).symm)
    (fun c _ => by simp [BioLoc.buf]) rfl ((h.bufs b).used p hp).2 ?_ (fun _ _ => rfl)
    (fun _ _ => rfl) fun hv => ⟨hv, rfl, rfl⟩
  exact (h.bufs b).leave hp (by rw [hloc]; rfl)

/-- A user of buffer `b` that nobody else has locked moves on with it. -/
theorem BioInv.own (h : BioInv f s) {disk' : BlockId → Block} (hp : (s.loc p).buf = some b)
    (hl : l.buf = some b) (hid : l.id = (s.loc p).id)
    (halone : ∀ q, q ≠ p → (s.loc q).owns ≠ some b) (hB : B'.id = (s.bufs b).id)
    (href : B'.refcnt = (s.bufs b).refcnt) (hlock : l.owns = some b → B'.locked = true)
    (hdirty : B'.dirty = true → B'.valid = true) (hhas : l.has = some b → B'.valid = true)
    (hdata : B'.valid = true → B'.data = f' (s.bufs b).id)
    (hclean : B'.valid = true → B'.dirty = false → l.changing ≠ some b →
      disk' (s.bufs b).id = f' (s.bufs b).id)
    (hf : ∀ k, k ≠ (s.bufs b).id → f' k = f k)
    (hdisk : ∀ k, k ≠ (s.bufs b).id → disk' k = s.disk k)
    (hvalid : B'.valid = false → (s.bufs b).valid = false ∧ f' = f ∧ disk' = s.disk) :
    BioInv f' { s.put p l b B' with disk := disk' } :=
  h.put (fun _ hcb heq => hcb (Option.some.inj (hp.symm.trans heq)).symm)
    (fun _ hcb heq => hcb (Option.some.inj (hl.symm.trans heq)).symm) hB
    ((h.bufs b).used p hp).2
    ((h.bufs b).own hp hl hid halone hB href hlock hdirty hhas hdata hclean) hf hdisk hvalid

omit [DecidableEq ι] in
/-- The owner of a lock is alone with it. -/
theorem BioInv.alone (h : BioInv f s) (hp : (s.loc p).owns = some b) (q : ι) (hq : q ≠ p) :
    (s.loc q).owns ≠ some b :=
  fun hown => hq ((h.bufs b).one q p hown hp)

omit [DecidableEq ι] in
theorem BioInv.id_eq (h : BioInv f s) (hp : (s.loc p).buf = some b) :
    (s.bufs b).id = (s.loc p).id :=
  ((h.bufs b).used p hp).1.symm

/-! ## §3  Steps -/

/-- The array after one more event. -/
def nextFlat (f : BlockId → Block) : BioEvent ι → BlockId → Block
  | .modify _ k v => update f k v
  | _ => f

theorem BioInv.modify (h : BioInv f s) (hhas : (s.loc p).has = some b) (v : Block) :
    BioInv (update f (s.loc p).id v)
      (s.put p (.changed (s.loc p).id b) b { s.bufs b with data := v }) := by
  have hown := BioLoc.owns_of_has hhas
  have hbuf := BioLoc.buf_of_owns hown
  have hvalid := (h.bufs b).has p hhas
  refine h.own hbuf rfl rfl (h.alone hown) rfl rfl (fun _ => (h.bufs b).owner p hown)
    (h.bufs b).dirty (fun _ => hvalid) (fun _ => ?_) (fun _ _ hno => absurd rfl hno) (fun k hk => ?_)
    (fun _ _ => rfl) fun hv => absurd (hvalid.symm.trans hv) (by simp)
  · rw [h.id_eq hbuf, update_self]
  · rw [h.id_eq hbuf] at hk
    exact update_of_ne hk ..

theorem BioInv.logWrite (h : BioInv f s) (hhas : (s.loc p).has = some b) :
    BioInv f (s.put p (.holding (s.loc p).id b) b { s.bufs b with dirty := true }) := by
  have hown := BioLoc.owns_of_has hhas
  have hvalid := (h.bufs b).has p hhas
  exact h.own (BioLoc.buf_of_owns hown) rfl rfl (h.alone hown) rfl rfl
    (fun _ => (h.bufs b).owner p hown) (fun _ => hvalid) (fun _ => hvalid) (h.bufs b).data
    (fun _ hd => by cases hd) (fun _ _ => rfl) (fun _ _ => rfl)
    fun hv => absurd (hvalid.symm.trans hv) (by simp)

/-- A dirty buffer goes to the disk. -/
theorem BioInv.bwrite (h : BioInv f s) (hhas : (s.loc p).has = some b) :
    BioInv f { s.put p (.holding (s.loc p).id b) b { s.bufs b with dirty := false, valid := true }
      with disk := update s.disk (s.bufs b).id (s.bufs b).data } := by
  have hown := BioLoc.owns_of_has hhas
  have hdata := (h.bufs b).data ((h.bufs b).has p hhas)
  refine h.own (BioLoc.buf_of_owns hown) rfl rfl (h.alone hown) rfl rfl
    (fun _ => (h.bufs b).owner p hown) (fun _ => rfl) (fun _ => rfl) (fun _ => hdata)
    (fun _ _ _ => ?_) (fun _ _ => rfl) (fun k hk => update_of_ne hk ..)
    fun hv => by cases hv
  rw [update_self, hdata]

/-- **Step.** -/
theorem BioInv.step {e : BioEvent ι} (h : BioInv f s)
    (hs : (bioSystem.guarded RealDev).step s e s') : BioInv (nextFlat f e) s' := by
  obtain ⟨hdev, hs⟩ := hs
  change bioNext s e = some s' at hs
  cases e with
  | bget p k =>
    simp only [bioNext] at hs
    split at hs
    · rename_i hloc
      split at hs
      · cases hs
        exact h.hit hdev hloc ‹_›
      · split at hs
        · cases hs
          exact h.recycle hdev hloc ‹_› ‹_›
        · cases hs
    · cases hs
  | acquiresleep p =>
    simp only [bioNext] at hs
    split at hs
    · rename_i k b hloc
      split at hs
      · cases hs
      · rename_i hfree
        cases hs
        have hbuf : (s.loc p).buf = some b := by rw [hloc]; rfl
        refine h.own hbuf rfl (by rw [hloc]; rfl)
          (fun q _ hq => hfree ((h.bufs b).owner q hq)) rfl rfl (fun _ => rfl) (h.bufs b).dirty
          (fun hl => by cases hl) (h.bufs b).data (fun hv hd _ => ?_) (fun _ _ => rfl)
          (fun _ _ => rfl) fun hv => ⟨hv, rfl, rfl⟩
        refine (h.bufs b).clean hv hd fun q hq => hfree ((h.bufs b).owner q ?_)
        exact BioLoc.owns_of_changing hq
    · cases hs
  | bread p =>
    simp only [bioNext] at hs
    split at hs
    · rename_i k b hloc
      have hown : (s.loc p).owns = some b := by rw [hloc]; rfl
      have hbuf := BioLoc.buf_of_owns hown
      split at hs
      · rename_i hvalid
        cases hs
        refine h.own hbuf rfl (by rw [hloc]; rfl) (h.alone hown) rfl rfl
          (fun _ => (h.bufs b).owner p hown) (fun _ => hvalid) (fun _ => hvalid) (h.bufs b).data
          (fun hv hd _ => ?_) (fun _ _ => rfl) (fun _ _ => rfl) fun hv => ⟨hv, rfl, rfl⟩
        refine (h.bufs b).clean hv hd fun q hq => ?_
        have hqp : q = p := (h.bufs b).one q p (BioLoc.owns_of_changing hq) hown
        rw [hqp, hloc] at hq
        cases hq
      · rename_i hinvalid
        have hclean : (s.bufs b).dirty = false := by
          by_contra hd
          exact hinvalid ((h.bufs b).dirty (by simpa using hd))
        -- nobody holds the block, so it is as on the disk
        have hrest : s.disk (s.bufs b).id = f (s.bufs b).id := by
          refine h.rest _ fun c hc heq => hinvalid ?_
          rw [← h.unique c b ((h.bufs c).dev hc) heq]
          exact hc
        rw [iderw_read ((h.bufs b).owner p hown) (by simpa using hinvalid) hclean] at hs
        cases hs
        exact h.own hbuf rfl (by rw [hloc]; rfl) (h.alone hown) rfl rfl
          (fun _ => (h.bufs b).owner p hown) (fun _ => rfl) (fun _ => rfl) (fun _ => hrest)
          (fun _ _ _ => hrest) (fun _ _ => rfl) (fun _ _ => rfl) fun hv => by cases hv
    · cases hs
  | modify p k v =>
    simp only [bioNext] at hs
    split at hs
    iterate 2
      rename_i k' b hloc
      split at hs
      · rename_i hk
        subst hk
        cases hs
        have := h.modify (p := p) (b := b) (by rw [hloc]; rfl) v
        rw [hloc] at this
        exact this
      · cases hs
    cases hs
  | logWrite p =>
    simp only [bioNext] at hs
    split at hs
    iterate 2
      rename_i k b hloc
      cases hs
      have := h.logWrite (p := p) (b := b) (by rw [hloc]; rfl)
      rw [hloc] at this
      exact this
    cases hs
  | bwrite p =>
    simp only [bioNext] at hs
    split at hs
    iterate 2
      rename_i k b hloc
      have hhas : (s.loc p).has = some b := by rw [hloc]; rfl
      rw [iderw_write (B := { s.bufs b with dirty := true })
        ((h.bufs b).owner p (BioLoc.owns_of_has hhas)) rfl] at hs
      cases hs
      have := h.bwrite hhas
      rw [hloc] at this
      exact this
    cases hs
  | releasesleep p =>
    simp only [bioNext] at hs
    split at hs
    · rename_i k b hloc
      split at hs
      · cases hs
        have hown : (s.loc p).owns = some b := by rw [hloc]; rfl
        refine h.own (BioLoc.buf_of_owns hown) rfl (by rw [hloc]; rfl) (h.alone hown) rfl rfl
          (fun hl => by cases hl) (h.bufs b).dirty (fun hl => by cases hl) (h.bufs b).data
          (fun hv hd _ => ?_) (fun _ _ => rfl) (fun _ _ => rfl) fun hv => ⟨hv, rfl, rfl⟩
        refine (h.bufs b).clean hv hd fun q hq => ?_
        have hqp : q = p := (h.bufs b).one q p (BioLoc.owns_of_changing hq) hown
        rw [hqp, hloc] at hq
        cases hq
      · cases hs
    · cases hs
  | brelse p =>
    simp only [bioNext] at hs
    split at hs
    · rename_i k b hloc
      have hleave := h.leave hloc
      split at hs
      · cases hs
        obtain ⟨xs, hlinked, hall⟩ := h.list
        refine ⟨⟨b :: xs.erase b, linked_moveFront hlinked (hall b), fun c => ?_⟩,
          hleave.unique, hleave.bufs, hleave.rest⟩
        by_cases hcb : c = b
        · exact List.mem_cons.mpr (.inl hcb)
        · exact List.mem_cons_of_mem _ ((List.mem_erase_of_ne hcb).mpr (hall c))
      · cases hs
        exact hleave
    · cases hs

end Cache

/-! ## §4  Runs -/

theorem flat_snoc (d : BlockId → Block) (es : List (BioEvent ι)) (e : BioEvent ι) :
    flat d (es ++ [e]) = nextFlat (flat d es) e := by
  rw [flat, List.foldl_append]
  cases e <;> rfl

theorem bioInv_binit (d : BlockId → Block) : BioInv d (binit (ι := ι) d) := by
  refine ⟨⟨(List.finRange nbuf).reverse ++ [], linked_foldl linked_empty ?_, fun b => ?_⟩,
    fun b b' hb => absurd rfl hb, fun b => ?_, fun _ _ => rfl⟩
  · simpa using List.nodup_finRange nbuf
  · simp
  · exact { refs := ⟨∅, fun p => by simp [binit, BioLoc.buf], rfl⟩, used := by simp [binit, BioLoc.buf],
            owner := by simp [binit, BioLoc.owns], one := by simp [binit, BioLoc.owns],
            dev := by simp [binit], dirty := by simp [binit], has := by simp [binit, BioLoc.has],
            data := by simp [binit], clean := by simp [binit] }

/-- What cache and disk hold of a block. -/
def BioState.view (s : BioState ι) (k : BlockId) : Block :=
  match (List.finRange nbuf).find? fun b => (s.bufs b).valid && decide ((s.bufs b).id = k) with
  | some b => (s.bufs b).data
  | none => s.disk k

theorem BioInv.view_eq {f : BlockId → Block} {s : BioState ι} (h : BioInv f s) : s.view = f := by
  funext k
  unfold BioState.view
  split
  · rename_i b hb
    obtain ⟨hvalid, hid⟩ : (s.bufs b).valid = true ∧ (s.bufs b).id = k := by
      simpa using List.find?_some hb
    rw [(h.bufs b).data hvalid, hid]
  · rename_i hnone
    refine h.rest k fun b hb => ?_
    simpa [hb] using List.find?_eq_none.mp hnone b (List.mem_finRange b)

variable [DecidableEq ι]

/-- A buffer that is referred to or dirty keeps its block and its data. -/
theorem BioInv.not_recycled {f : BlockId → Block} {s s' : BioState ι} {e : BioEvent ι}
    (h : BioInv f s) (hs : bioNext s e = some s') {b : Fin nbuf}
    (hb : (∃ p, (s.loc p).buf = some b) ∨ (s.bufs b).dirty = true) :
    (s'.bufs b).id = (s.bufs b).id ∧ ((s.bufs b).valid = true → (s'.bufs b).valid = true) := by
  have hput : ∀ {c : Fin nbuf} {B : Buffer},
      (c = b → B.id = (s.bufs b).id ∧ ((s.bufs b).valid = true → B.valid = true)) →
      (update s.bufs c B b).id = (s.bufs b).id ∧
        ((s.bufs b).valid = true → (update s.bufs c B b).valid = true) := by
    intro c B hB
    by_cases hbc : b = c
    · subst hbc
      simpa using hB rfl
    · simp [update_of_ne hbc]
  cases e with
  | bget p k =>
    simp only [bioNext] at hs
    split at hs
    · split at hs
      · cases hs
        exact hput fun hc => hc ▸ ⟨rfl, id⟩
      · split at hs
        · rename_i c hc
          cases hs
          obtain ⟨hzero, hclean⟩ := h.unused_some hc
          refine hput fun hcb => ?_
          subst hcb
          rcases hb with ⟨q, hq⟩ | hdirty
          · exact absurd hq ((h.bufs c).not_used hzero q)
          · rw [hclean] at hdirty
            cases hdirty
        · cases hs
    · cases hs
  | bread p =>
    simp only [bioNext] at hs
    (repeat' split at hs) <;> cases hs
    · exact hput fun hc => hc ▸ ⟨rfl, id⟩
    · refine hput fun hc => ?_
      subst hc
      exact iderw_keeps ‹_›
  | bwrite p =>
    simp only [bioNext] at hs
    (repeat' split at hs) <;> cases hs
    all_goals
      rename_i hio
      refine hput fun hc => ?_
      subst hc
      exact (iderw_keeps hio :)
  | acquiresleep p | modify p k v | logWrite p | releasesleep p | brelse p =>
    simp only [bioNext] at hs
    (repeat' split at hs) <;> cases hs <;> exact hput fun hc => hc ▸ ⟨rfl, id⟩

/-- **Cache and disk are one flat array of blocks.** In every state of every
run: a block is in one buffer at most; the list goes through every buffer
once, in both directions; a buffer that is referred to or dirty is not given
to another block; whoever is back from `bread` has the block asked for, as
the changes so far left it, and is the only one to have it; and cache and disk
together are the array. -/
theorem bcache_flat {d : BlockId → Block} {es : List (BioEvent ι)} {s : BioState ι}
    (hrun : (bioSystem.guarded RealDev).Run (binit d) es s) :
    (∀ b b', (s.bufs b).id.1 ≠ 0 → (s.bufs b).id = (s.bufs b').id → b = b') ∧
    (∃ xs, Linked s.links xs ∧ ∀ b, b ∈ xs) ∧
    (∀ e s', bioNext s e = some s' → ∀ b,
      (∃ p, (s.loc p).buf = some b) ∨ (s.bufs b).dirty = true →
      (s'.bufs b).id = (s.bufs b).id ∧ ((s.bufs b).valid = true → (s'.bufs b).valid = true)) ∧
    (∀ p k b, s.loc p = .holding k b → (s.bufs b).id = k ∧ (s.bufs b).data = flat d es k ∧
      ∀ q, (s.loc q).owns = some b → q = p) ∧
    s.view = flat d es := by
  have h : BioInv (flat d es) s := by
    refine hrun.history (I := fun es s => BioInv (flat d es) s) (fun es s e s' h hs => ?_)
      (bioInv_binit d)
    rw [flat_snoc]
    exact h.step hs
  refine ⟨h.unique, h.list, fun e s' hs b hb => h.not_recycled hs hb, fun p k b hloc => ?_,
    h.view_eq⟩
  have hhas : (s.loc p).has = some b := by rw [hloc]; rfl
  have hown := BioLoc.owns_of_has hhas
  have hid : (s.bufs b).id = k := by
    rw [h.id_eq (BioLoc.buf_of_owns hown), hloc]
    rfl
  refine ⟨hid, ?_, fun q hq => (h.bufs b).one q p hq hown⟩
  rw [(h.bufs b).data ((h.bufs b).has p hhas), hid]

/-- A block is read, changed and logged. -/
def readAndChange : List (BioEvent (Fin 1)) :=
  [.bget 0 (1, 5), .acquiresleep 0, .bread 0, .modify 0 (1, 5) fun _ => 7, .logWrite 0]

theorem bcache_flat_readAndChange : ∃ (s : BioState (Fin 1)) (b : Fin nbuf),
    (bioSystem.guarded RealDev).Run (binit fun _ _ => 0) readAndChange s ∧
    s.loc 0 = .holding (1, 5) b ∧
    (s.bufs b).data = flat (fun _ _ => 0) readAndChange (1, 5) ∧
    flat (fun _ _ => 0) readAndChange (1, 5) 0 = 7 := by
  have hend : (readAndChange.foldlM (System.guardedNext bioNext RealDev)
      (binit fun _ _ => 0)).map (fun s => s.loc 0) =
        some (.holding (1, 5) ⟨0, by decide⟩) := by
    decide +kernel
  obtain ⟨s, hs, hloc⟩ := Option.map_eq_some_iff.mp hend
  have hrun := System.run_ofNext hs
  exact ⟨s, _, hrun, hloc, ((bcache_flat hrun).2.2.2.1 0 _ _ hloc).2.1, rfl⟩

end Xv6
