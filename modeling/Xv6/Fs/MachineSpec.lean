import Xv6.Fs.Machine
import Xv6.Fs.Directory

/-!
# What the functions of `fs.c` do in a run

`Near s F H l s₁` tells where a call that started in `s` has come to: the inodes are `F`,
the references `H` were taken, each with the inode it is to, and `l` are the locks. Every
entry of the cache that was in use still stands for its inode and stays in memory, what
is locked is in memory, and what is in memory is as in `F` (`Coherent`). For each function of `fs.c` there
is one lemma that leads from such a state to the next one, with the places at
which it may stop.
-/

namespace Xv6.Fs.Call

open Prog Function

/-! ## §1  States of a call -/

/-- No two entries in use stand for one inode, and what is in memory is as on the
disk. -/
structure Coherent (s : State) : Prop where
  dev : ∀ k, 0 < (s.icache k).ref → (s.icache k).dev = rootdev
  unique : ∀ k k', 0 < (s.icache k).ref → 0 < (s.icache k').ref →
    (s.icache k).inum = (s.icache k').inum → k = k'
  copies : ∀ k a, 0 < (s.icache k).ref → (s.icache k).copy = some a →
    ∃ f, s.file k = some f ∧ attrsOf f = a

/-- References, each with its inode. -/
abbrev Refs := List (Ip × Nat)

def Refs.count (H : Refs) (k : Ip) : Nat := (H.map Prod.fst).count k

structure Near (s : State) (F : InodeTable) (H : Refs) (l : Ip → Option Pid) (s₁ : State) :
    Prop where
  rest : s₁ = { s with files := F, icache := s₁.icache }
  ref : ∀ k, (s₁.icache k).ref = (s.icache k).ref + H.count k
  entry : ∀ k, 0 < (s.icache k).ref → (s₁.icache k).inum = (s.icache k).inum
  held : ∀ x ∈ H, (s₁.icache x.1).inum = x.2
  lock : ∀ k, (s₁.icache k).lock = l k
  loaded : ∀ k, l k ≠ none → 0 < (s₁.icache k).ref ∧ (s₁.icache k).copy.isSome
  stays : ∀ k, 0 < (s.icache k).ref → (s.icache k).copy.isSome → (s₁.icache k).copy.isSome
  coherent : Coherent s₁

/-- No inode is locked. -/
def unlocked : Ip → Option Pid := fun _ => none

section Updates

variable {s : State} {ip k : Ip} {c : CacheInode} {n : Nat} {o : Option Attrs} {q : Option Pid}

@[simp] theorem put_self (s : State) (ip : Ip) (c : CacheInode) : (s.put ip c).icache ip = c := by
  simp [State.put]

theorem put_ne (h : k ≠ ip) (s : State) (c : CacheInode) :
    (s.put ip c).icache k = s.icache k := by
  simp [State.put, h]

@[simp] theorem put_put (s : State) (ip : Ip) (c c' : CacheInode) :
    (s.put ip c).put ip c' = s.put ip c' := by
  simp [State.put]

@[simp] theorem put_files (s : State) (ip : Ip) (c : CacheInode) : (s.put ip c).files = s.files :=
  rfl

end Updates

variable {p : Pid} {s s₁ : State} {F : InodeTable} {H H' : Refs} {l l' : Ip → Option Pid}
  {ip dp k : Ip} {i d : Nat} {f : Inode} {E : Stop → Prop}

theorem count_cons (x : Ip × Nat) (H : Refs) (k : Ip) :
    Refs.count (x :: H) k = H.count k + if x.1 = k then 1 else 0 := by
  rw [Refs.count, List.map_cons, List.count_cons]
  simp only [Refs.count, beq_iff_eq]

theorem count_erase {x : Ip × Nat} (hx : x ∈ H) (k : Ip) :
    Refs.count (H.erase x) k + (if x.1 = k then 1 else 0) = H.count k := by
  rw [← count_cons x]
  exact ((List.perm_cons_erase hx).map Prod.fst).symm.count_eq k

theorem count_pos (hx : (ip, i) ∈ H) : 1 ≤ H.count ip :=
  List.count_pos_iff.mpr (List.mem_map.mpr ⟨(ip, i), hx, rfl⟩)

namespace Near

/-- The state at the beginning of a call. -/
theorem start (hc : Coherent s) (hl : ∀ k, (s.icache k).lock = none) :
    Near s s.files [] unlocked s where
  rest := rfl
  ref _ := rfl
  entry _ _ := rfl
  held _ hx := nomatch hx
  lock := hl
  loaded _ hk := absurd rfl hk
  stays _ _ hk := hk
  coherent := hc

variable (hn : Near s F H l s₁)

include hn

theorem files : s₁.files = F := by
  rw [hn.rest]

theorem file_eq (k : Ip) : s₁.file k = F (s₁.icache k).inum := by
  rw [State.file, hn.files]

theorem ref_pos (hx : (ip, i) ∈ H) : 1 ≤ (s₁.icache ip).ref := by
  rw [hn.ref]
  exact le_trans (count_pos hx) (Nat.le_add_left ..)

theorem used (hk : 0 < (s.icache k).ref) : 0 < (s₁.icache k).ref := by
  rw [hn.ref]
  exact Nat.lt_of_lt_of_le hk (Nat.le_add_right ..)

theorem held_file (hx : (ip, i) ∈ H) : s₁.file ip = F i := by
  rw [hn.file_eq, hn.held _ hx]

/-- An entry changes, but stands for the inode it stood for. -/
theorem put {c : CacheInode} (hdev : c.dev = (s₁.icache ip).dev)
    (hinum : c.inum = (s₁.icache ip).inum) (href : c.ref = (s.icache ip).ref + H'.count ip)
    (hused : 0 < c.ref → 0 < (s₁.icache ip).ref) (hlock : c.lock = l' ip)
    (hloaded : l' ip ≠ none → 0 < c.ref ∧ c.copy.isSome)
    (hcopy : ∀ a, 0 < c.ref → c.copy = some a → ∃ f, F c.inum = some f ∧ attrsOf f = a)
    (hstays : 0 < (s.icache ip).ref → (s₁.icache ip).copy.isSome → c.copy.isSome)
    (hH : ∀ k, k ≠ ip → H'.count k = H.count k) (hheld : ∀ x ∈ H', (s₁.icache x.1).inum = x.2)
    (hl : ∀ k, k ≠ ip → l' k = l k) :
    Near s F H' l' (s₁.put ip c) := by
  have hother : ∀ k, k ≠ ip → (s₁.put ip c).icache k = s₁.icache k := fun k hk => put_ne hk s₁ c
  have hinum' : ∀ k, ((s₁.put ip c).icache k).inum = (s₁.icache k).inum := by
    intro k
    by_cases hk : k = ip
    · rw [hk, put_self, hinum]
    · rw [hother k hk]
  have hused' : ∀ k, 0 < ((s₁.put ip c).icache k).ref → 0 < (s₁.icache k).ref := by
    intro k hpos
    by_cases hk : k = ip
    · rw [hk, put_self] at hpos
      rw [hk]
      exact hused hpos
    · rwa [hother k hk] at hpos
  refine ⟨?_, fun k => ?_, fun k hk => ?_, fun x hx => ?_, fun k => ?_, fun k hk => ?_,
    fun k hk ha => ?_, fun k hk => ?_, fun k k' hk hk' heq => ?_, fun k a hk ha => ?_⟩
  · rw [hn.rest]
    rfl
  · by_cases hk : k = ip
    · rw [hk, put_self, href]
    · rw [hother k hk, hn.ref, hH k hk]
  · rw [hinum', hn.entry k hk]
  · rw [hinum', hheld x hx]
  · by_cases hk : k = ip
    · rw [hk, put_self, hlock]
    · rw [hother k hk, hn.lock, hl k hk]
  · by_cases hki : k = ip
    · rw [hki] at hk ⊢
      rw [put_self]
      exact hloaded hk
    · rw [hother k hki]
      rw [hl k hki] at hk
      exact hn.loaded k hk
  · have ha' := hn.stays k hk ha
    by_cases hki : k = ip
    · rw [hki] at hk ha' ⊢
      rw [put_self]
      exact hstays hk ha'
    · rw [hother k hki]
      exact ha'
  · have hdev' := hn.coherent.dev k (hused' k hk)
    by_cases hki : k = ip
    · rw [hki] at hdev' ⊢
      rw [put_self, hdev, hdev']
    · rw [hother k hki, hdev']
  · rw [hinum', hinum'] at heq
    exact hn.coherent.unique k k' (hused' k hk) (hused' k' hk') heq
  · rw [State.file, hinum', put_files]
    by_cases hki : k = ip
    · rw [hki, put_self] at hk ha
      rw [hki, ← hinum, hn.files]
      exact hcopy a hk ha
    · rw [hother k hki] at hk ha
      exact hn.coherent.copies k a hk ha

/-- One reference more to an entry in use. -/
theorem take (hi : (s₁.icache ip).inum = i)
    (hused : 0 < (s₁.icache ip).ref) :
    Near s F ((ip, i) :: H) l (s₁.put ip ((s₁.icache ip).withRef ((s₁.icache ip).ref + 1))) := by
  refine hn.put rfl rfl ?_ (fun _ => hused) (hn.lock ip) (fun hl => ?_) (fun a _ ha => ?_)
    (fun _ ha => ha) (fun k hk => ?_) (fun x hx => ?_) fun _ _ => rfl
  · rw [count_cons, if_pos rfl, ← Nat.add_assoc, ← hn.ref]
    rfl
  · exact ⟨Nat.succ_pos _, (hn.loaded ip hl).2⟩
  · obtain ⟨f, hf, hattrs⟩ := hn.coherent.copies ip a hused ha
    exact ⟨f, hn.file_eq ip ▸ hf, hattrs⟩
  · rw [count_cons, if_neg (Ne.symm hk), Nat.add_zero]
  · rcases List.mem_cons.mp hx with rfl | hx
    · exact hi
    · exact hn.held x hx

/-- A recycled entry. -/
theorem recycle (hfree : (s₁.icache k).ref = 0)
    (hnew : ∀ k', 0 < (s₁.icache k').ref → (s₁.icache k').inum ≠ i) :
    Near s F ((k, i) :: H) l (s₁.put k ⟨rootdev, i, 1, (s₁.icache k).lock, none⟩) := by
  have hcount := hn.ref k
  have hnot : ∀ x ∈ H, x.1 ≠ k := by
    intro x hx hk
    have hpos := hn.ref_pos (show (x.1, x.2) ∈ H from hx)
    rw [hk, hfree] at hpos
    exact absurd hpos (by decide)
  have hother : ∀ k', k' ≠ k → (s₁.put k ⟨rootdev, i, 1, (s₁.icache k).lock, none⟩).icache k' =
      s₁.icache k' := fun k' hk' => put_ne hk' s₁ _
  refine ⟨?_, fun k' => ?_, fun k' hk' => ?_, fun x hx => ?_, fun k' => ?_, fun k' hk' => ?_,
    fun k' hk' ha => ?_, fun k' hk' => ?_, fun k₁ k₂ h₁ h₂ heq => ?_, fun k' a hk' ha => ?_⟩
  · rw [hn.rest]
    rfl
  · rw [count_cons]
    by_cases hk : k' = k
    · rw [hk, put_self, if_pos rfl, ← Nat.add_assoc, ← hcount, hfree]
    · rw [hother k' hk, if_neg (Ne.symm hk), Nat.add_zero, hn.ref]
  · have hk : k' ≠ k := by
      rintro rfl
      omega
    rw [hother k' hk, hn.entry k' hk']
  · rcases List.mem_cons.mp hx with rfl | hx
    · rw [put_self]
    · rw [hother _ (hnot x hx), hn.held x hx]
  · by_cases hk : k' = k
    · rw [hk, put_self, hn.lock]
    · rw [hother k' hk, hn.lock]
  · have hload := hn.loaded k' hk'
    have hk : k' ≠ k := by
      rintro rfl
      omega
    rw [hother k' hk]
    exact hload
  · have hk : k' ≠ k := by
      rintro rfl
      omega
    rw [hother k' hk]
    exact hn.stays k' hk' ha
  · by_cases hk : k' = k
    · rw [hk, put_self]
    · rw [hother k' hk] at hk' ⊢
      exact hn.coherent.dev k' hk'
  · by_cases hk₁ : k₁ = k <;> by_cases hk₂ : k₂ = k
    · rw [hk₁, hk₂]
    · rw [hk₁, put_self, hother k₂ hk₂] at heq
      rw [hother k₂ hk₂] at h₂
      exact absurd heq.symm (hnew k₂ h₂)
    · rw [hk₂, put_self, hother k₁ hk₁] at heq
      rw [hother k₁ hk₁] at h₁
      exact absurd heq (hnew k₁ h₁)
    · rw [hother k₁ hk₁] at h₁ heq
      rw [hother k₂ hk₂] at h₂ heq
      exact hn.coherent.unique k₁ k₂ h₁ h₂ heq
  · have hk : k' ≠ k := by
      rintro rfl
      rw [put_self] at ha
      cases ha
    rw [State.file, put_files, hother k' hk]
    rw [hother k' hk] at hk' ha
    exact hn.coherent.copies k' a hk' ha

end Near

variable (hn : Near s F H l s₁)

include hn

/-! ## §2  References and locks -/

/-- `iget` takes a reference; it stops if no entry of the cache is free. -/
theorem iget_ends (i : Nat)
    (hroom : E .igetNoInodes ∨ ∃ k, (s₁.icache k).ref = 0) :
    Ends (handle p) (iget rootdev i) s₁ (fun k s₂ => Near s F ((k, i) :: H) l s₂) E := by
  cases hcached : cached s₁ rootdev i with
  | some k =>
    have hk : 0 < (s₁.icache k).ref ∧ (s₁.icache k).dev = rootdev ∧ (s₁.icache k).inum = i := by
      simpa using List.find?_some hcached
    refine ends_perform (r := k) (t := s₁.put k ((s₁.icache k).withRef ((s₁.icache k).ref + 1)))
      ?_ (hn.take hk.2.2 hk.1)
    simp only [handle, doIget, hcached]
    rfl
  | none =>
    have hnew : ∀ k', 0 < (s₁.icache k').ref → (s₁.icache k').inum ≠ i := by
      intro k' hk' hi
      have := List.find?_eq_none.mp hcached k' (List.mem_finRange k')
      simp only [decide_eq_true_eq] at this
      exact this ⟨hk', hn.coherent.dev k' hk', hi⟩
    cases hunused : unusedEntry s₁ with
    | some k =>
      have hk : (s₁.icache k).ref = 0 := by
        simpa using List.find?_some hunused
      refine ends_perform (r := k) (t := s₁.put k ⟨rootdev, i, 1, (s₁.icache k).lock, none⟩)
        ?_ (hn.recycle hk hnew)
      simp only [handle, doIget, hcached, hunused]
      rfl
    | none =>
      have hstop : E .igetNoInodes := by
        refine hroom.resolve_right ?_
        rintro ⟨k, hk⟩
        have := List.find?_eq_none.mp hunused k (List.mem_finRange k)
        simp [hk] at this
      refine ends_stop (e := .igetNoInodes) ?_ hstop
      simp only [handle, doIget, hcached, hunused]
      rfl

/-- `idup` of an entry that is in use outside of the call. -/
theorem idup_ends (hused : 0 < (s.icache ip).ref) :
    Ends (handle p) (perform (.idup ip)) s₁
      (fun _ s₂ => Near s F ((ip, (s.icache ip).inum) :: H) l s₂) E :=
  ends_perform rfl (hn.take (hn.entry ip hused) (hn.used hused))

/-- An entry is locked, and in memory. -/
theorem Near.locked (hx : (ip, i) ∈ H) {o : Option Pid} {a : Option Attrs}
    (hf : F i = some f) (ha : a = some (attrsOf f)) :
    Near s F H (update l ip o)
      (s₁.put ip (((s₁.icache ip).withLock o).withCopy a)) := by
  have hpos := hn.ref_pos hx
  have hlock : update l ip o ip = o := update_self ..
  refine hn.put rfl rfl (hn.ref ip) (fun _ => hpos) hlock.symm (fun _ => ?_)
    (fun b _ hb => ?_) (fun _ _ => ha ▸ rfl) (fun _ _ => rfl) hn.held
    fun k hk => update_of_ne hk ..
  · exact ⟨hpos, ha ▸ rfl⟩
  · refine ⟨f, (congrArg F (hn.held _ hx)).trans hf, ?_⟩
    rw [CacheInode.withCopy, ha] at hb
    exact Option.some.inj hb

/-- `ilock` loads the inode; it stops if the inode is free. -/
theorem ilock_ends (hx : (ip, i) ∈ H) (hl : l ip = none)
    (hstop : F i = none → E .ilockNoType) :
    Ends (handle p) (ilock ip) s₁ (fun _ s₂ => (F i).isSome ∧
      Near s F H (update l ip (some p)) s₂) E := by
  have hpos := hn.ref_pos hx
  have hlock : (s₁.icache ip).lock = none := (hn.lock ip).trans hl
  refine Ends.bind (P := fun _ s' => s' = s₁.put ip ((s₁.icache ip).withLock (some p)))
    (ends_perform (r := ()) ?_ rfl) ?_
  · simp only [handle, hlock]
  rintro - s' rfl
  have hfile : (s₁.put ip ((s₁.icache ip).withLock (some p))).file ip = F i := by
    rw [State.file, put_self, put_files, ← hn.held_file hx]
    rfl
  have href : ¬ ((s₁.put ip ((s₁.icache ip).withLock (some p))).icache ip).ref < 1 := by
    rw [put_self]
    exact Nat.not_lt.mpr hpos
  cases hcopy : (s₁.icache ip).copy with
  | some a =>
    obtain ⟨f, hf, rfl⟩ := hn.coherent.copies ip a hpos hcopy
    rw [hn.held_file hx] at hf
    refine ends_perform (r := ()) (t := s₁.put ip ((s₁.icache ip).withLock (some p))) ?_
      ⟨by rw [hf]; rfl, ?_⟩
    · have hcopy' : ((s₁.put ip ((s₁.icache ip).withLock (some p))).icache ip).copy =
          some (attrsOf f) := by
        rw [put_self]
        exact hcopy
      simp only [handle, doLoad, if_neg href, hcopy']
      rfl
    · exact hn.locked hx hf hcopy
  | none =>
    have hcopy' : ((s₁.put ip ((s₁.icache ip).withLock (some p))).icache ip).copy = none := by
      rw [put_self]
      exact hcopy
    cases hf : F i with
    | some f =>
      refine ends_perform (r := ())
        (t := s₁.put ip (((s₁.icache ip).withLock (some p)).withCopy (some (attrsOf f)))) ?_
        ⟨rfl, hn.locked hx hf rfl⟩
      simp only [handle, doLoad, if_neg href, hcopy', hfile.trans hf]
      rw [put_put, put_self]
      rfl
    | none =>
      refine ends_stop (e := .ilockNoType) ?_ (hstop hf)
      simp only [handle, doLoad, if_neg href, hcopy', hfile.trans hf]
      rfl

theorem iunlock_ends (hx : (ip, i) ∈ H) (hl : l ip = some p) :
    Ends (handle p) (iunlock ip) s₁ (fun _ s₂ => Near s F H (update l ip none) s₂) E := by
  have hpos := hn.ref_pos hx
  obtain ⟨-, hsome⟩ := hn.loaded ip (by rw [hl]; nofun)
  obtain ⟨a, ha⟩ := Option.isSome_iff_exists.mp hsome
  obtain ⟨f, hf, rfl⟩ := hn.coherent.copies ip a hpos ha
  rw [hn.held_file hx] at hf
  refine ends_perform (r := ()) (t := s₁.put ip ((s₁.icache ip).withLock none)) ?_
    (hn.locked hx hf ha)
  simp only [handle, (hn.lock ip).trans hl, hpos, and_self, if_true]

/-- What is locked is in memory. -/
theorem Near.copy (hx : (ip, i) ∈ H) (hl : l ip ≠ none) :
    ∃ f, F i = some f ∧ (s₁.icache ip).copy = some (attrsOf f) := by
  obtain ⟨hpos, hsome⟩ := hn.loaded ip hl
  obtain ⟨a, ha⟩ := Option.isSome_iff_exists.mp hsome
  obtain ⟨f, hf, rfl⟩ := hn.coherent.copies ip a hpos ha
  rw [hn.held_file hx] at hf
  exact ⟨f, hf, ha⟩

/-- The fields of inode `i`. -/
def viewAt (i : Nat) (f : Inode) : View :=
  ⟨rootdev, i, f.type, f.major, f.minor, f.nlink, UInt32.ofNat f.data.length⟩

theorem inode_ends (hx : (ip, i) ∈ H) (hl : l ip ≠ none)
    (hf : F i = some f) :
    Ends (handle p) (inode ip) s₁ (fun v s₂ => v = viewAt i f ∧ s₂ = s₁) E := by
  obtain ⟨f', hf', hcopy⟩ := hn.copy hx hl
  rw [hf] at hf'
  cases hf'
  have hview : viewOf (s₁.icache ip) (attrsOf f) f = viewAt i f := by
    rw [viewOf, hn.coherent.dev ip (hn.ref_pos hx), hn.held _ hx]
    rfl
  refine ends_perform (r := viewAt i f) (t := s₁) ?_ ⟨rfl, rfl⟩
  simp only [handle, doInode, hcopy, hn.held_file hx, hf, hview]
  rfl

theorem readi_ends (hx : (ip, i) ∈ H) (hl : l ip ≠ none)
    (hf : F i = some f) (hdev : f.type ≠ tDev) (off n : UInt32) :
    Ends (handle p) (readi ip off n) s₁ (fun r s₂ => r = f.readi off n ∧ s₂ = s₁) E := by
  refine (inode_ends hn hx hl hf).bind ?_
  rintro _ _ ⟨rfl, rfl⟩
  refine ends_ite (fun heq => absurd heq hdev) fun _ => ?_
  refine ends_perform (r := f.readi off n) ?_ ⟨rfl, rfl⟩
  simp only [handle, doReadi, hn.held_file hx, hf]
  rfl

/-- An inode without links that the call has not the last reference to. -/
def Spared (s : State) (i : Nat) (f : Inode) : Prop :=
  f.nlink = 0 → ∃ k, 0 < (s.icache k).ref ∧ (s.icache k).inum = i

/-- What is spared has a reference outside of the call. -/
theorem Near.two_le_ref (hx : (ip, i) ∈ H) (hspared : Spared s i f)
    (hzero : f.nlink = 0) : 2 ≤ (s₁.icache ip).ref := by
  obtain ⟨k, hk, hki⟩ := hspared hzero
  have heq : k = ip := hn.coherent.unique k ip (hn.used hk) (hn.ref_pos hx)
    (by rw [hn.entry k hk, hki, hn.held _ hx])
  have hcount := count_pos hx
  rw [hn.ref, ← heq]
  rw [← heq] at hcount
  omega

/-- A reference is given back. -/
theorem Near.drop (hx : (ip, i) ∈ H) (hl : l ip = none) :
    Near s F (H.erase (ip, i)) l
      (s₁.put ip ((s₁.icache ip).withRef ((s₁.icache ip).ref - 1))) := by
  have hpos := hn.ref_pos hx
  have hcount := count_erase hx ip
  rw [if_pos rfl] at hcount
  have href := hn.ref ip
  refine hn.put rfl rfl ?_ (fun _ => hpos) (hn.lock ip) (fun hne => absurd hl hne) (fun a _ ha => ?_)
    (fun _ ha => ha) (fun k hk => ?_) (fun x hx => hn.held x (List.mem_of_mem_erase hx))
    fun _ _ => rfl
  · change (s₁.icache ip).ref - 1 = _
    omega
  · obtain ⟨f, hf, hattrs⟩ := hn.coherent.copies ip a hpos ha
    exact ⟨f, hn.file_eq ip ▸ hf, hattrs⟩
  · have := count_erase hx k
    rwa [if_neg (Ne.symm hk), Nat.add_zero] at this

/-- `iput` does nothing but give back a reference, unless it is the last one to an inode
that is in memory and has no links. -/
theorem iput_keeps (hx : (ip, i) ∈ H) (hl : l ip = none)
    (halive : ¬ ((s₁.icache ip).ref = 1 ∧ (s₁.icache ip).copy.any fun a => a.nlink = 0)) :
    Ends (handle p) (iput ip) s₁ (fun _ s₂ => Near s F (H.erase (ip, i)) l s₂) E := by
  have hpos := hn.ref_pos hx
  have hlock : (s₁.icache ip).lock = none := (hn.lock ip).trans hl
  have hself : (s₁.put ip ((s₁.icache ip).withLock (some p))).icache ip =
      (s₁.icache ip).withLock (some p) := put_self ..
  refine Ends.bind (P := fun _ s₂ => s₂ = s₁.put ip ((s₁.icache ip).withLock (some p)))
    (ends_perform (r := ()) ?_ rfl) ?_
  · simp only [handle, hlock]
  rintro - _ rfl
  refine Ends.bind (P := fun (dead : Bool) s₂ => s₂ = s₁.put ip ((s₁.icache ip).withLock (some p)) ∧
    (dead = true → (s₁.icache ip).ref ≠ 1)) (ends_perform rfl ⟨rfl, fun hdead => ?_⟩) ?_
  · rw [hself] at hdead
    exact fun hone => halive ⟨hone, hdead⟩
  rintro dead _ ⟨rfl, hdead⟩
  refine Ends.bind (P := fun _ s₂ => s₂ = s₁.put ip ((s₁.icache ip).withLock (some p))) ?_ ?_
  · cases dead with
    | false => exact ends_pure rfl
    | true =>
      refine Ends.bind (P := fun (r : Nat) s₂ => r ≠ 1 ∧
        s₂ = s₁.put ip ((s₁.icache ip).withLock (some p))) (ends_perform rfl ⟨?_, rfl⟩) ?_
      · rw [hself]
        exact hdead rfl
      · rintro r _ ⟨hr, rfl⟩
        rw [onlyIf, if_neg (by simpa using hr)]
        exact ends_pure rfl
  rintro - _ rfl
  refine Ends.bind (P := fun _ s₂ => s₂ = s₁) (ends_perform (r := ()) (t := s₁) ?_ rfl) ?_
  · have hunlock : ((s₁.icache ip).withLock (some p)).withLock none = s₁.icache ip := by
      rw [← hlock]
      rfl
    have hback : s₁.put ip (s₁.icache ip) = s₁ := by
      simp [State.put]
    have hok : ((s₁.icache ip).withLock (some p)).lock = some p ∧
        1 ≤ ((s₁.icache ip).withLock (some p)).ref := ⟨rfl, hpos⟩
    simp only [handle, hself, if_pos hok, put_put, hunlock, hback]
  rintro - _ rfl
  exact ends_perform rfl (hn.drop hx hl)

/-- `iput` of what is spared. -/
theorem iput_ends (hx : (ip, i) ∈ H) (hl : l ip = none)
    (hspared : ∀ f, F i = some f → Spared s i f) :
    Ends (handle p) (iput ip) s₁ (fun _ s₂ => Near s F (H.erase (ip, i)) l s₂) E := by
  refine iput_keeps hn hx hl ?_
  rintro ⟨hone, hdead⟩
  obtain ⟨a, hcopy, hzero⟩ := (Option.any_eq_true ..).mp hdead
  obtain ⟨f, hf, rfl⟩ := hn.coherent.copies ip a (hn.ref_pos hx) hcopy
  rw [hn.held_file hx] at hf
  have htwo := hn.two_le_ref hx (hspared f hf) (of_decide_eq_true hzero)
  omega

theorem iunlockput_ends (hx : (ip, i) ∈ H) (hl : l ip = some p)
    (hspared : ∀ f, F i = some f → Spared s i f) :
    Ends (handle p) (iunlockput ip) s₁
      (fun _ s₂ => Near s F (H.erase (ip, i)) (update l ip none) s₂) E :=
  (iunlock_ends hn hx hl).bind fun _ _ hn' => iput_ends hn' hx (update_self ..) hspared

/-! ## §3  Directories -/

omit hn in
/-- The scans of `Prog` are those of a computation with a state. -/
theorem run_dirScan {σ ε : Type} {h : Handler Op Res σ ε} {rd : Nat → M Dirent} {q : Dirent → Bool}
    {size : Nat} : ∀ (fuel off : Nat) (s : σ), (dirScan rd q size fuel off).run h s =
      dirScan (m := StateT σ (Except ε)) (fun off s => (rd off).run h s) q size fuel off s
  | 0, _, _ => rfl
  | fuel + 1, off, s => by
    rw [dirScan, dirScan]
    split
    · rw [run_bind]
      change _ = ((rd off).run h s >>= fun x => (if q x.1 then
        (pure (off, some x.1) : StateT σ (Except ε) _) else dirScan (m := StateT σ (Except ε))
          (fun off s => (rd off).run h s) q size fuel (off + direntSize)) x.2)
      refine congrArg _ (funext fun x => ?_)
      split
      · rfl
      · exact run_dirScan fuel _ x.2
    · rfl

/-- The entries of a directory fill it. -/
structure WholeDir (f : Inode) : Prop where
  type : f.type = tDir
  whole : direntSize ∣ f.data.length
  size : f.data.length ≤ maxfile * bsize

omit hn in
theorem WholeDir.not_dev (hd : WholeDir f) : f.type ≠ tDev := by
  rw [hd.type]
  decide

omit hn in
theorem WholeDir.view_size (hd : WholeDir f) : (viewAt d f).size.toNat = f.data.length := by
  have hle := hd.size
  have hbound : maxfile * bsize = 71680 := rfl
  refine UInt32.toNat_ofNat_of_lt' ?_
  simp only [UInt32.size]
  omega

theorem readDirent_run (hx : (dp, d) ∈ H) (hl : l dp ≠ none)
    (hf : F d = some f) (hd : WholeDir f) (err : Panic) {j : Nat}
    (hj : j < (dirents f.data).length) :
    (readDirent err dp (direntSize * j)).run (handle p) s₁ = .ok ((dirents f.data)[j], s₁) := by
  obtain ⟨hread, hlen⟩ := readi_dirent hd.whole hd.size hj
  have hends : Ends (handle p) (readDirent err dp (direntSize * j)) s₁
      (fun de s₂ => de = (dirents f.data)[j] ∧ s₂ = s₁) fun _ => False := by
    refine (readi_ends hn hx hl hf hd.not_dev _ _).bind ?_
    rintro r s₂ ⟨rfl, rfl⟩
    rw [hread]
    refine ends_ite (fun _ => ends_pure ⟨?_, rfl⟩) fun hne => absurd hlen hne
    rw [getElem_dirents, direntAt]
  obtain ⟨de, s₂, hrun, rfl, rfl⟩ := hends.returns
  exact hrun

/-- A scan of a directory, from entry `j` on. -/
theorem scan_ends (hx : (dp, d) ∈ H) (hl : l dp ≠ none) (hf : F d = some f)
    (hd : WholeDir f) (err : Panic) (q : Dirent → Bool) {j : Nat}
    (hj : j ≤ (dirents f.data).length) :
    Ends (handle p) (dirScan (readDirent err dp) q f.data.length f.data.length (direntSize * j)) s₁
      (fun r s₂ => s₂ = s₁ ∧ r = (direntSize * (j + ((dirents f.data).drop j).findIdx q),
        (dirents f.data)[j + ((dirents f.data).drop j).findIdx q]?)) E := by
  have hlen : f.data.length = direntSize * (dirents f.data).length := by
    rw [dirents_length, Nat.mul_div_cancel' hd.whole]
  have hscan := @dirScan_eq _ _ (fun off s => (readDirent err dp off).run (handle p) s) q
    (dirents f.data) s₁ (fun k hk => readDirent_run hn hx hl hf hd err hk) f.data.length j
    (by rw [hlen, direntSize]; omega) hj
  rw [← hlen, ← run_dirScan] at hscan
  rw [Ends, hscan]
  exact ⟨rfl, rfl⟩

/-- The first entry with the name. -/
def lookup (f : Inode) (name : List UInt8) : Option Dirent := (dirents f.data).find? (named name)

/-- `dirlookup` takes a reference to the inode of the entry. -/
theorem dirlookup_ends (hx : (dp, d) ∈ H) (hl : l dp ≠ none)
    (hf : F d = some f) (hd : WholeDir f) (name : List UInt8)
    (hroom : E .igetNoInodes ∨ ∃ k, (s₁.icache k).ref = 0) :
    Ends (handle p) (dirlookup dp name) s₁ (fun r s₂ =>
      match lookup f name with
      | none => r = none ∧ s₂ = s₁
      | some de => ∃ k, r = some (k, direntSize * (dirents f.data).findIdx (named name)) ∧
          Near s F ((k, de.inum) :: H) l s₂) E := by
  refine (inode_ends hn hx hl hf).bind ?_
  rintro v s₂ ⟨rfl, rfl⟩
  refine ends_ite (fun hne => absurd hd.type hne) fun _ => ?_
  rw [hd.view_size]
  refine (scan_ends hn hx hl hf hd _ (named name) (Nat.zero_le _)).bind ?_
  rintro r s₂ ⟨rfl, rfl⟩
  rw [List.drop_zero, Nat.zero_add, ← List.find?_eq_getElem?_findIdx, ← lookup]
  cases hfound : lookup f name with
  | none => exact ends_pure ⟨rfl, rfl⟩
  | some de =>
    refine (iget_ends hn de.inum hroom).bind fun k s₂ hn' => ?_
    exact ends_pure ⟨k, rfl, hn'⟩

/-! ## §4  Changes -/

namespace Near

/-- Inode `i` changes on the disk, and what is in memory of it stays as it is. -/
theorem write {g : Option Inode}
    (hg : ∀ k a, 0 < (s₁.icache k).ref → (s₁.icache k).inum = i → (s₁.icache k).copy = some a →
      ∃ f, g = some f ∧ attrsOf f = a) :
    Near s (update F i g) H l (s₁.write i g) where
  rest := by
    rw [State.write, hn.files, hn.rest]
  ref := hn.ref
  entry := hn.entry
  held := hn.held
  lock := hn.lock
  loaded := hn.loaded
  stays := hn.stays
  coherent :=
    { dev := hn.coherent.dev
      unique := hn.coherent.unique
      copies := fun k a hk ha => by
        change ∃ f, update s₁.files i g (s₁.icache k).inum = some f ∧ _
        by_cases hi : (s₁.icache k).inum = i
        · rw [hi, update_self]
          exact hg k a hk hi ha
        · rw [update_of_ne hi]
          exact hn.coherent.copies k a hk ha }

/-- A free inode is allocated. -/
theorem alloc {g : Inode} (hfree : F i = none) :
    Near s (update F i (some g)) H l (s₁.write i (some g)) := by
  refine hn.write fun k a hk hi ha => ?_
  obtain ⟨f, hf, -⟩ := hn.coherent.copies k a hk ha
  rw [hn.file_eq, hi, hfree] at hf
  cases hf

/-- The bytes of an inode change. -/
theorem writeData {g : Inode} (hf : F i = some f)
    (hattrs : attrsOf g = attrsOf f) :
    Near s (update F i (some g)) H l (s₁.write i (some g)) := by
  refine hn.write fun k a hk hi ha => ⟨g, rfl, ?_⟩
  obtain ⟨f', hf', rfl⟩ := hn.coherent.copies k a hk ha
  rw [hn.file_eq, hi, hf] at hf'
  cases hf'
  exact hattrs

/-- The attributes change, in memory and on the disk. -/
theorem writeAttrs {g : Inode} (hx : (ip, i) ∈ H) :
    Near s (update F i (some g)) H l
      ((s₁.put ip ((s₁.icache ip).withCopy (some (attrsOf g)))).write i (some g)) := by
  have hpos := hn.ref_pos hx
  have hself : ((s₁.put ip ((s₁.icache ip).withCopy (some (attrsOf g)))).write i (some g)).icache ip =
      (s₁.icache ip).withCopy (some (attrsOf g)) := put_self ..
  have hother : ∀ k, k ≠ ip →
      ((s₁.put ip ((s₁.icache ip).withCopy (some (attrsOf g)))).write i (some g)).icache k =
        s₁.icache k := fun k hk => put_ne hk ..
  have hkeep : ∀ {α : Type} (π : CacheInode → α), (∀ c a, π (c.withCopy a) = π c) → ∀ k,
      π (((s₁.put ip ((s₁.icache ip).withCopy (some (attrsOf g)))).write i (some g)).icache k) =
        π (s₁.icache k) := by
    intro α π hπ k
    by_cases hk : k = ip
    · rw [hk, hself, hπ]
    · rw [hother k hk]
  have href := hkeep CacheInode.ref fun _ _ => rfl
  have hinum := hkeep CacheInode.inum fun _ _ => rfl
  refine ⟨?_, fun k => ?_, fun k hk => ?_, fun x hx => ?_, fun k => ?_, fun k hk => ?_,
    fun k hk ha => ?_, fun k hk => ?_, fun k k' hk hk' heq => ?_, fun k a hk ha => ?_⟩
  · rw [State.write, put_files, hn.files, State.put, hn.rest]
  · rw [href, hn.ref]
  · rw [hinum, hn.entry k hk]
  · rw [hinum, hn.held x hx]
  · rw [hkeep CacheInode.lock fun _ _ => rfl, hn.lock]
  · rw [href]
    refine ⟨(hn.loaded k hk).1, ?_⟩
    by_cases hki : k = ip
    · rw [hki, hself]
      rfl
    · rw [hother k hki]
      exact (hn.loaded k hk).2
  · by_cases hki : k = ip
    · rw [hki, hself]
      rfl
    · rw [hother k hki]
      exact hn.stays k hk ha
  · rw [href] at hk
    rw [hkeep CacheInode.dev fun _ _ => rfl, hn.coherent.dev k hk]
  · rw [href] at hk hk'
    rw [hinum, hinum] at heq
    exact hn.coherent.unique k k' hk hk' heq
  · rw [href] at hk
    rw [State.file, hinum]
    change ∃ f, update s₁.files i (some g) (s₁.icache k).inum = some f ∧ _
    by_cases hki : k = ip
    · rw [hki, hself] at ha
      rw [hki, hn.held _ hx, update_self]
      exact ⟨g, rfl, Option.some.inj ha⟩
    · rw [hother k hki] at ha
      -- no other entry stands for the inode
      have hne : (s₁.icache k).inum ≠ i := fun heq =>
        hki (hn.coherent.unique k ip hk hpos (heq.trans (hn.held _ hx).symm))
      rw [update_of_ne hne]
      exact hn.coherent.copies k a hk ha

end Near

/-- `ialloc` takes the first free inode. -/
theorem ialloc_ends (type : Int16) (hnone : E .iallocNoInodes)
    (hroom : E .igetNoInodes) :
    Ends (handle p) (ialloc rootdev type) s₁ (fun k s₂ => ∃ i, F i = none ∧
      Near s (update F i (some ⟨type, 0, 0, 0, []⟩)) ((k, i) :: H) l s₂) E := by
  cases hfirst : s₁.files.firstFree s₁.ninodes with
  | none =>
    refine ends_stop (e := .iallocNoInodes) ?_ hnone
    simp only [handle, doIalloc, hfirst]
    rfl
  | some i =>
    have hfree : F i = none := by
      rw [← hn.files]
      simpa using List.find?_some hfirst
    refine Ends.bind (P := fun (j : Nat) s₂ => j = i ∧
      Near s (update F i (some ⟨type, 0, 0, 0, []⟩)) H l s₂)
      (ends_perform (r := i) (t := s₁.write i (some ⟨type, 0, 0, 0, []⟩)) ?_
        ⟨rfl, hn.alloc hfree⟩) ?_
    · simp only [handle, doIalloc, hfirst]
      rfl
    rintro j s₂ ⟨rfl, hn₂⟩
    exact (iget_ends hn₂ j (.inl hroom)).mono (fun k s₃ hn₃ => ⟨j, hfree, hn₃⟩) fun _ he => he

/-- Attributes are set and written back. -/
theorem setAttrs_ends (hx : (ip, i) ∈ H) (hl : l ip ≠ none)
    (hf : F i = some f) (htype : f.type ≠ 0) (major minor nlink : Int16) :
    Ends (handle p) (do perform (.setAttrs ip major minor nlink); perform (.iupdate ip)) s₁
      (fun _ s₂ => Near s (update F i
        (some ⟨f.type, major, minor, nlink, f.data⟩)) H l s₂) E := by
  obtain ⟨f', hf', hcopy⟩ := hn.copy hx hl
  rw [hf] at hf'
  cases hf'
  refine Ends.bind (P := fun _ s₂ => s₂ = s₁.put ip ((s₁.icache ip).withCopy
    (some (attrsOf ⟨f.type, major, minor, nlink, f.data⟩)))) (ends_perform (r := ()) ?_ rfl) ?_
  · simp only [handle, setAttrs, hcopy]
    rfl
  rintro - _ rfl
  refine ends_perform (r := ()) ?_ (hn.writeAttrs hx)
  have hfile : (s₁.put ip ((s₁.icache ip).withCopy
      (some (attrsOf ⟨f.type, major, minor, nlink, f.data⟩)))).file ip = some f := by
    rw [State.file, put_self, put_files, ← hf, ← hn.held_file hx]
    rfl
  have hwrite : (attrsOf ⟨f.type, major, minor, nlink, f.data⟩).file f.data =
      some ⟨f.type, major, minor, nlink, f.data⟩ := if_neg htype
  have hcopy' : ((s₁.put ip ((s₁.icache ip).withCopy
      (some (attrsOf ⟨f.type, major, minor, nlink, f.data⟩)))).icache ip).copy =
        some (attrsOf ⟨f.type, major, minor, nlink, f.data⟩) := by
    rw [put_self]
    rfl
  have hinum : ((s₁.put ip ((s₁.icache ip).withCopy
      (some (attrsOf ⟨f.type, major, minor, nlink, f.data⟩)))).icache ip).inum = i := by
    rw [put_self]
    exact hn.held _ hx
  simp only [handle, doUpdate, hcopy', hfile, hinum, Option.map_some, Option.getD_some, hwrite]
  rfl

theorem writei_ends (hx : (ip, i) ∈ H) (hl : l ip ≠ none)
    (hf : F i = some f) (hdev : f.type ≠ tDev) (bytes : List UInt8) (off : UInt32) :
    Ends (handle p) (writei ip bytes off) s₁ (fun r s₂ =>
      match f.writei (bytesAt bytes) off (UInt32.ofNat bytes.length) with
      | none => r = none ∧ s₂ = s₁
      | some g => r = some (UInt32.ofNat bytes.length) ∧
          Near s (update F i (some g)) H l s₂) E := by
  refine (inode_ends hn hx hl hf).bind ?_
  rintro v s₂ ⟨rfl, rfl⟩
  refine ends_ite (fun heq => absurd heq hdev) fun _ => ?_
  cases hwrite : f.writei (bytesAt bytes) off (UInt32.ofNat bytes.length) with
  | none =>
    refine ends_perform (r := none) ?_ ⟨rfl, rfl⟩
    simp only [handle, doWritei, hn.held_file hx, hf, hwrite]
    rfl
  | some g =>
    have hattrs : attrsOf g = attrsOf f := by
      rw [Inode.writei] at hwrite
      split at hwrite
      · cases hwrite
      · cases hwrite
        rfl
    refine ends_perform (r := some (UInt32.ofNat bytes.length)) ?_
      ⟨rfl, hn.writeData hf hattrs⟩
    simp only [handle, doWritei, hn.held_file hx, hf, hwrite, hn.held _ hx]
    rfl

/-- An entry of a directory is written; the call stops if there is no room. -/
theorem writeDirent_ends (hx : (dp, d) ∈ H) (hl : l dp ≠ none)
    (hf : F d = some f) (hd : WholeDir f) (err : Panic) {j : Nat} {de : List UInt8}
    (hde : de.length = direntSize) (hj : j ≤ (dirents f.data).length)
    (hfull : E (.panic err) ∨ direntSize * (j + 1) ≤ maxfile * bsize) :
    Ends (handle p) (writeDirent err dp (direntSize * j) de) s₁
      (fun _ s₂ => Near s (update F d (some (f.setDirent j de))) H l s₂) E := by
  rw [dirents_length] at hj
  refine (writei_ends hn hx hl hf hd.not_dev _ _).bind ?_
  rw [hde]
  by_cases hmax : direntSize * (j + 1) ≤ maxfile * bsize
  · have hwrite : f.writei (bytesAt de) (UInt32.ofNat (direntSize * j)) (UInt32.ofNat direntSize) =
        some (f.setDirent j de) := writei_dirent hj hmax de
    rw [hwrite]
    rintro r s₂ ⟨rfl, hn₂⟩
    exact ends_ite (fun _ => ends_pure hn₂) fun hne => absurd rfl hne
  · have hlow : direntSize * j ≤ maxfile * bsize :=
      le_trans (Nat.mul_le_mul_left _ hj) (le_trans (Nat.mul_div_le ..) hd.size)
    have hwrite : f.writei (bytesAt de) (UInt32.ofNat (direntSize * j)) (UInt32.ofNat direntSize) =
        none := writei_dirent_full hlow (Nat.not_le.mp hmax) de
    rw [hwrite]
    rintro r s₂ ⟨rfl, rfl⟩
    refine ends_ite nofun fun _ => ?_
    exact ends_stop (e := .panic err) rfl (hfull.resolve_right hmax)

/-- The first empty entry, or the end. -/
def emptyEntry (f : Inode) : Nat := (dirents f.data).findIdx fun de => de.inum = 0

/-- `dirEnter` writes the first empty entry; it stops if the directory is full. -/
theorem dirEnter_ends (hx : (dp, d) ∈ H) (hl : l dp ≠ none)
    (hf : F d = some f) (hd : WholeDir f) (name : List UInt8) (inum : Nat)
    (hfull : E (.panic .dirlink) ∨ direntSize * (emptyEntry f + 1) ≤ maxfile * bsize) :
    Ends (handle p) (dirEnter dp name inum) s₁ (fun _ s₂ => Near s (update F d
      (some (f.setDirent (emptyEntry f) (direntBytes inum name)))) H l s₂) E := by
  refine (inode_ends hn hx hl hf).bind ?_
  rintro v s₂ ⟨rfl, rfl⟩
  rw [hd.view_size]
  refine (scan_ends hn hx hl hf hd _ _ (Nat.zero_le _)).bind ?_
  rintro r s₂ ⟨rfl, rfl⟩
  rw [List.drop_zero, Nat.zero_add]
  exact writeDirent_ends hn hx hl hf hd _ (direntBytes_length ..) List.findIdx_le_length hfull

/-- `dirlink` of a name that is not there. -/
theorem dirlink_new_ends (hx : (dp, d) ∈ H) (hl : l dp ≠ none)
    (hf : F d = some f) (hd : WholeDir f) {name : List UInt8} (inum : Nat)
    (hnone : lookup f name = none) (hroom : E .igetNoInodes ∨ ∃ k, (s₁.icache k).ref = 0)
    (hfull : E (.panic .dirlink) ∨ direntSize * (emptyEntry f + 1) ≤ maxfile * bsize) :
    Ends (handle p) (dirlink dp name inum) s₁ (fun r s₂ => r = 0 ∧ Near s (update F d
      (some (f.setDirent (emptyEntry f) (direntBytes inum name)))) H l s₂) E := by
  refine (dirlookup_ends hn hx hl hf hd name hroom).bind ?_
  rw [hnone]
  rintro r s₂ ⟨rfl, rfl⟩
  refine (dirEnter_ends hn hx hl hf hd name inum hfull).bind fun _ s₃ hn₃ => ?_
  exact ends_pure ⟨rfl, hn₃⟩

end Xv6.Fs.Call
