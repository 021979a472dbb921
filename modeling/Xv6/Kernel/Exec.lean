import Xv6.Kernel.Shm

/-!
# `exec.c`

`exec` builds a new address space from an ELF file, pushes the arguments on
its stack, switches the process over and frees the old address space. What it
reads of the file system is one inode: its size and its bytes.

`uva2ka` reads through the pointer `walkpgdir` returns without testing it. A
null pointer there is a read of address 0 of the *running* process, so the
directory of the caller is an argument of `copyout`.
-/

namespace Xv6

/-! ## §1  Reading the file -/

/-- What `readi` sees of an inode that is not a device. -/
structure Inode where
  size : Nat
  data : Nat → UInt8

/-- `readi`: the number of bytes it copies; `none` is -1. -/
def readi (ip : Inode) (off n : Nat) : Option Nat :=
  if ip.size < off ∨ 2 ^ 32 ≤ off + n then none
  else some (if ip.size < off + n then ip.size - off else n)

/-- A little-endian `ushort` of the file. -/
def Inode.u16 (ip : Inode) (off : Nat) : Nat :=
  (ip.data off).toNat + 2 ^ 8 * (ip.data (off + 1)).toNat

/-- A little-endian `uint` of the file. -/
def Inode.u32 (ip : Inode) (off : Nat) : Nat :=
  ip.u16 off + 2 ^ 16 * ip.u16 (off + 2)

def elfMagic : Nat := 0x464C457F

/-- `n` bytes stored at offset `off` of the page `v`. -/
def Mem.store (m : Mem) (v off n : Nat) (src : Nat → UInt8) : Mem :=
  { m with
    ram := Function.update m.ram v
      fun o => if off ≤ o ∧ o < off + n then src (o - off) else m.ram v o }

@[simp] theorem store_freelist (m : Mem) (v off n : Nat) (src : Nat → UInt8) :
    (m.store v off n src).freelist = m.freelist := rfl

/-- The loop of `loaduvm` at offset `i` of the segment. -/
def loadLoop (pg : PgDir) (addr : Nat) (ip : Inode) (offset sz : Nat) :
    Nat → Nat → Mem → Except Panic (Bool × Mem)
  | 0, _, m => .ok (true, m)
  | fuel + 1, i, m =>
    if i < sz then
      match walkpgdir pg (addr + i) false m with
      | none => .error .loaduvmExists
      | some _ =>
        let pa := (pg.entry (addr + i)).pa
        let n := if sz - i < pgSize then sz - i else pgSize
        let off := (offset + i) % 2 ^ 32
        match readi ip off n with
        | none => .ok (false, m)
        | some k =>
          let m := m.store (p2v pa) 0 k fun o => ip.data (off + o)
          if k = n then loadLoop pg addr ip offset sz fuel (i + pgSize) m
          else .ok (false, m)
    else .ok (true, m)

/-- `loaduvm`: false is -1. -/
def loaduvm (pg : PgDir) (addr : Nat) (ip : Inode) (offset sz : Nat) (m : Mem) :
    Except Panic (Bool × Mem) :=
  if addr % pgSize ≠ 0 then .error .loaduvmAligned
  else loadLoop pg addr ip offset sz (sz / pgSize + 1) 0 m

/-! ## §2  Writing to the new address space -/

/-- `*(pte_t*)0` in the running process. -/
def nullPte (cur : PgDir) (m : Mem) : Except Panic Pte :=
  let e := cur.entry 0
  if e.p then
    let b := m.ram (p2v e.pa)
    let word := (b 0).toNat + 2 ^ 8 * (b 1).toNat + 2 ^ 16 * (b 2).toNat + 2 ^ 24 * (b 3).toNat
    .ok ⟨word / pgSize * pgSize, word % 2 = 1, word / 2 % 2 = 1, word / 4 % 2 = 1⟩
  else .error .trap

/-- `uva2ka`; `none` is the null pointer. -/
def uva2ka (cur pg : PgDir) (uva : Nat) (m : Mem) : Except Panic (Option Nat) := do
  let pte ← match walkpgdir pg uva false m with
    | some _ => .ok (pg.entry uva)
    | none => nullPte cur m
  if pte.p && pte.u then .ok (if p2v pte.pa = 0 then none else some (p2v pte.pa))
  else .ok none

/-- The loop of `copyout`; every round but an empty one writes a byte. -/
def copyoutLoop (cur pg : PgDir) : Nat → Nat → List UInt8 → Mem → Except Panic (Bool × Mem)
  | 0, _, _, m => .ok (true, m)
  | fuel + 1, va, buf, m =>
    if 0 < buf.length then do
      let va0 := pgRoundDown va
      match ← uva2ka cur pg va0 m with
      | none => .ok (false, m)
      | some pa0 =>
        let n := if buf.length < pgSize - (va - va0) then buf.length
          else pgSize - (va - va0)
        copyoutLoop cur pg fuel ((va0 + pgSize) % 2 ^ 32) (buf.drop n)
          (m.store pa0 (va - va0) n fun o => buf.getD o 0)
    else .ok (true, m)

/-- `copyout`: false is -1. -/
def copyout (cur pg : PgDir) (va : Nat) (buf : List UInt8) (m : Mem) :
    Except Panic (Bool × Mem) :=
  copyoutLoop cur pg buf.length va buf m

/-- `clearpteu`. -/
def clearpteu (pg : PgDir) (uva : Nat) (m : Mem) : Except Panic PgDir :=
  match walkpgdir pg uva false m with
  | none => .error .clearpteu
  | some _ => .ok (pg.setEntry uva { pg.entry uva with u := false })

/-! ## §3  `exec` -/

variable [Image]

/-- The loop over the program headers, `n` of them left at file offset
`off`. A result of `none` is the jump to `bad`. -/
def loadSegs (ip : Inode) : Nat → Nat → Nat → PgDir → Mem →
    Except Panic (Option Nat × PgDir × Mem)
  | 0, _, sz, pg, m => .ok (some sz, pg, m)
  | n + 1, off, sz, pg, m =>
    if readi ip off 32 ≠ some 32 then .ok (none, pg, m)
    else if ip.u32 off ≠ 1 then loadSegs ip n ((off + 32) % 2 ^ 32) sz pg m
    else
      let offset := ip.u32 (off + 4)
      let vaddr := ip.u32 (off + 8)
      let filesz := ip.u32 (off + 16)
      let memsz := ip.u32 (off + 20)
      if memsz < filesz then .ok (none, pg, m)
      else if (vaddr + memsz) % 2 ^ 32 < vaddr then .ok (none, pg, m)
      else do
        let (sz, pg, m) ← allocuvm pg sz ((vaddr + memsz) % 2 ^ 32) m
        if sz = 0 then .ok (none, pg, m)
        else if vaddr % pgSize ≠ 0 then .ok (none, pg, m)
        else do
          let (b, m) ← loaduvm pg vaddr ip offset filesz m
          if b then loadSegs ip n ((off + 32) % 2 ^ 32) sz pg m
          else .ok (none, pg, m)

/-- From the first program header to `clearpteu`: the new size, or `none` for
the jump to `bad`. -/
def loadImage (ip : Inode) (pg : PgDir) (m : Mem) : Except Panic (Option Nat × PgDir × Mem) := do
  let (r, pg, m) ← loadSegs ip (ip.u16 44) (ip.u32 28) 0 pg m
  match r with
  | none => .ok (none, pg, m)
  | some sz =>
    -- Allocate two pages at the next page boundary.
    let (sz, pg, m) ← allocuvm pg (pgRoundUp sz) (pgRoundUp sz + 2 * pgSize) m
    if sz = 0 then .ok (none, pg, m)
    else
      let pg ← clearpteu pg (sz - 2 * pgSize) m
      .ok (some sz, pg, m)

/-- `setupkvm` and `loadImage`, with what is done at `bad` when one of them
fails. -/
def buildImage (ip : Inode) (m : Mem) : Except Panic (Option (Nat × PgDir) × Mem) := do
  let (d, m) ← setupkvm m
  match d with
  | none => .ok (none, m)
  | some d =>
    let (r, pg, m) ← loadImage ip d m
    match r with
    | none =>
      let m ← freevm pg m
      .ok (none, m)
    | some sz => .ok (some (sz, pg), m)

/-- The four bytes of a `uint`. -/
def wordBytes (w : Nat) : List UInt8 :=
  [.ofNat w, .ofNat (w / 2 ^ 8), .ofNat (w / 2 ^ 16), .ofNat (w / 2 ^ 24)]

/-- The words for the stack, when the strings end at `sp`. -/
def ustack (sp : Nat) (ptrs : List Nat) : List Nat :=
  [0xffffffff, ptrs.length, (sp + 2 ^ 32 - (ptrs.length + 1) * 4) % 2 ^ 32] ++ ptrs ++ [0]

/-- Where they go. -/
def ustackAddr (sp : Nat) (ptrs : List Nat) : Nat :=
  (sp + 2 ^ 32 - (3 + ptrs.length + 1) * 4) % 2 ^ 32

/-- Where a string of `n` characters goes. -/
def strAddr (sp n : Nat) : Nat := (sp + 2 ^ 32 - (n + 1)) % 2 ^ 32 / 4 * 4

/-- The loop that pushes the argument strings, and the last `copyout`; `ptrs` is what
`ustack` holds from index 3 on. The result is the stack pointer, or `none` for the jump
to `bad`. -/
def pushArgs (cur pg : PgDir) : List (List UInt8) → Nat → List Nat → Mem →
    Except Panic (Option Nat × Mem)
  | [], sp, ptrs, m => do
      let (b, m) ← copyout cur pg (ustackAddr sp ptrs) ((ustack sp ptrs).flatMap wordBytes) m
      if b then .ok (some (ustackAddr sp ptrs), m) else .ok (none, m)
  | a :: argv, sp, ptrs, m =>
    if 32 ≤ ptrs.length then .ok (none, m)
    else do
      let (b, m) ← copyout cur pg (strAddr sp a.length) (a ++ [0]) m
      if b then pushArgs cur pg argv (strAddr sp a.length) (ptrs ++ [strAddr sp a.length]) m
      else .ok (none, m)

/-- `exec`: `ip` is what `namei(path)` found. -/
def exec (p : Fin nproc) (ip : Option Inode) (argv : List (List UInt8)) (s : Kernel) :
    Except Panic (CallResult × Kernel) :=
  match ip with
  | none => .ok (.value (-1), s)
  | some ip =>
    if readi ip 0 52 ≠ some 52 ∨ ip.u32 0 ≠ elfMagic then .ok (.value (-1), s)
    else do
      let (r, m) ← buildImage ip s.mem
      match r with
      | none => .ok (.value (-1), { s with mem := m })
      | some (sz, pg) =>
        let q := s.proc p
        let (r, m) ← pushArgs q.pgdir pg argv sz [] m
        match r with
        | none =>
          let m ← freevm pg m
          .ok (.value (-1), { s with mem := m })
        | some sp =>
          -- Commit to the user image.
          let m ← freevm q.pgdir m
          .ok (.value 0, { s with mem := m }.setProc p
            { q with pgdir := pg, sz := sz, esp := sp })

end Xv6
