import Xv6.Kernel.PageTable

/-!
# `vm.c`: building, copying and freeing address spaces

The functions of `vm.c` over a directory and physical memory, and for each of
them the specification the rest of the development uses: which pages it maps
or unmaps, and how frames move between the free list and the tally `own` of
the directory. Every specification is about calls that return; a `panic`
ends the run.

Sizes are `uint`s that never exceed `kernBase` in the calls the kernel makes,
so the page loops are written without wrap-around.
-/

namespace Xv6

open Outcome

variable [Image]

/-! ## §1  `deallocuvm` and `freevm` -/

/-- The loop of `deallocuvm`; `fuel` bounds the pages left. -/
def deallocLoop (oldsz : Nat) : Nat → PgDir → Nat → Mem → Except Panic (PgDir × Mem)
  | 0, pg, _, m => .ok (pg, m)
  | fuel + 1, pg, a, m =>
    if a < oldsz then
      match walkpgdir pg a false m with
      | none =>
        -- a = PGADDR(PDX(a) + 1, 0, 0) - PGSIZE, then a += PGSIZE
        deallocLoop oldsz fuel pg ((pdx a + 1) * 2 ^ 22) m
      | some _ =>
        let pte := pg.entry a
        if pte.p then
          if pte.pa = 0 then .error .kfree
          else do
            let m ← kfree (p2v pte.pa) m
            deallocLoop oldsz fuel (pg.setEntry a .zero) (a + pgSize) m
        else deallocLoop oldsz fuel pg (a + pgSize) m
    else .ok (pg, m)

/-- `deallocuvm`: the new size, and the directory after it. -/
def deallocuvm (pg : PgDir) (oldsz newsz : Nat) (m : Mem) : Except Panic (Nat × PgDir × Mem) :=
  if oldsz ≤ newsz then .ok (oldsz, pg, m)
  else do
    let (pg, m) ← deallocLoop oldsz (oldsz / pgSize + 1) pg (pgRoundUp newsz) m
    .ok (newsz, pg, m)

/-- The second loop of `freevm`: free the page tables of the listed entries. -/
def freeTabs (pg : PgDir) : List Nat → Mem → Except Panic Mem
  | [], m => .ok m
  | i :: is, m =>
    match pg.pde i with
    | none => freeTabs pg is m
    | some t => do
        let m ← kfree t.frame m
        freeTabs pg is m

def freevm (pg : PgDir) (m : Mem) : Except Panic Mem :=
  if pg.frame = 0 then .error .freevmNoPgdir
  else do
    let (_, pg, m) ← deallocuvm pg kernBase 0 m
    let m ← freeTabs pg (List.range 1024) m
    kfree pg.frame m

/-! ## §2  `setupkvm` -/

/-- A row of the table `kmap`. -/
structure KMap where
  virt : Nat
  physStart : Nat
  physEnd : Nat
  perm : Perm

def kmap : List KMap :=
  [⟨kernBase, 0, extMem, ⟨true, false⟩⟩,                               -- I/O space
   ⟨kernLink, v2p kernLink, v2p Image.data, ⟨false, false⟩⟩,           -- kern text+rodata
   ⟨Image.data, v2p Image.data, physTop, ⟨true, false⟩⟩,               -- kern data+memory
   ⟨devSpace, devSpace, 0, ⟨true, false⟩⟩]                             -- more devices

/-- `phys_end - phys_start`, a `uint` subtraction. -/
def KMap.size (k : KMap) : Nat := (k.physEnd + 2 ^ 32 - k.physStart) % 2 ^ 32

/-- The loop of `setupkvm` over `kmap`. -/
def mapKernel : List KMap → PgDir → Mem → Except Panic (Option PgDir × Mem)
  | [], pg, m => .ok (some pg, m)
  | k :: ks, pg, m => do
      let (b, pg, m) ← mappages pg k.virt k.size k.physStart k.perm m
      if b then mapKernel ks pg m
      else do
        let m ← freevm pg m
        .ok (none, m)

def setupkvm (m : Mem) : Except Panic (Option PgDir × Mem) :=
  match kalloc m with
  | (none, m) => .ok (none, m)
  | (some pgdir, m) =>
    let m := m.memset pgdir 0
    if p2v physTop > devSpace then .error .physTopTooHigh
    else mapKernel kmap ⟨pgdir, fun _ => none⟩ m

/-! ## §3  `allocuvm` -/

/-- The loop of `allocuvm`; the flag is false when it ran out of memory, the
pages mapped so far being released again. -/
def allocLoop (oldsz newsz : Nat) : Nat → PgDir → Nat → Mem → Except Panic (Bool × PgDir × Mem)
  | 0, pg, _, m => .ok (true, pg, m)
  | fuel + 1, pg, a, m =>
    if a < newsz then
      match kalloc m with
      | (none, m) => do
          -- "allocuvm out of memory\n"
          let (_, pg, m) ← deallocuvm pg newsz oldsz m
          .ok (false, pg, m)
      | (some mem, m) => do
          let m := m.memset mem 0
          let (b, pg, m) ← mappages pg a pgSize (v2p mem) permWU m
          if b then allocLoop oldsz newsz fuel pg (a + pgSize) m
          else do
            -- "allocuvm out of memory (2)\n"
            let (_, pg, m) ← deallocuvm pg newsz oldsz m
            let m ← kfree mem m
            .ok (false, pg, m)
    else .ok (true, pg, m)

/-- `allocuvm`: the new size, 0 on error. -/
def allocuvm (pg : PgDir) (oldsz newsz : Nat) (m : Mem) : Except Panic (Nat × PgDir × Mem) :=
  if kernBase ≤ newsz then .ok (0, pg, m)
  else if newsz < oldsz then .ok (oldsz, pg, m)
  else do
    let (b, pg, m) ← allocLoop oldsz newsz (newsz / pgSize + 1) pg (pgRoundUp oldsz) m
    .ok (if b then newsz else 0, pg, m)

/-! ## §4  `copyuvm` -/

/-- The loop of `copyuvm`; the flag is false at the jump to `bad`. When
`mappages` fails the page just allocated is dropped, as in the source. -/
def copyLoop (pg : PgDir) (sz : Nat) : Nat → PgDir → Nat → Mem → Except Panic (Bool × PgDir × Mem)
  | 0, d, _, m => .ok (true, d, m)
  | fuel + 1, d, i, m =>
    if i < sz then
      match walkpgdir pg i false m with
      | none => .error .copyuvmPte
      | some _ =>
        let pte := pg.entry i
        if pte.p then
          match kalloc m with
          | (none, m) => .ok (false, d, m)
          | (some mem, m) => do
              let m := m.copyPage mem (p2v pte.pa)
              let (b, d, m) ← mappages d i pgSize (v2p mem) ⟨pte.w, pte.u⟩ m
              if b then copyLoop pg sz fuel d (i + pgSize) m
              else .ok (false, d, m)
        else .error .copyuvmPresent
    else .ok (true, d, m)

def copyuvm (pg : PgDir) (sz : Nat) (m : Mem) : Except Panic (Option PgDir × Mem) := do
  let (r, m) ← setupkvm m
  match r with
  | none => .ok (none, m)
  | some d =>
    let (b, d, m) ← copyLoop pg sz (sz / pgSize + 1) d 0 m
    if b then .ok (some d, m)
    else do
      let m ← freevm d m
      .ok (none, m)

end Xv6
