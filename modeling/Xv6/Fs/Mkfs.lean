import Xv6.Fs.Dir
import Xv6.Fs.Files

/-!
# `mkfs`

`mkfs` builds the image without `fs.c`: it takes inodes and blocks in order, has
its own block map (`fileBlock`) and append (`iappend`), and writes the bitmap last.
The disk is the image file; `wsect` and `rsect` are a write and a read of it.

On the image with the bitmap filled in up to `freeblock` (`marked`), the block map
of `mkfs` is `bmap` (`fileBlock_bmap`) and its append is `writei`
(`iappend_writei`).
-/

namespace Xv6.Fs.Mkfs

open Outcome Function

/-! ## §1  The program -/

def fssize : Nat := 1000
def ninodes : Nat := 200
def nlog : Nat := 30
def nbitmap : Nat := fssize / (bsize * 8) + 1
def ninodeblocks : Nat := ninodes / ipb + 1
def nmeta : Nat := 2 + nlog + ninodeblocks + nbitmap

/-- `sb`. -/
def sb : Superblock where
  size := fssize
  ninodes := ninodes
  nlog := nlog
  logstart := 2
  inodestart := 2 + nlog
  bmapstart := 2 + nlog + ninodeblocks
  log_behind := le_rfl
  inodes_behind := by decide
  bmap_behind := by decide
  data_behind := by decide
  size_word := by decide

def rootino : Nat := 1

/-- Failed assertions. -/
inductive Failure where
  | rootino
  | slash                -- index(argv[i], '/') == 0
  | maxfile              -- fbn < MAXFILE
  | bitmap               -- used < BSIZE*8
deriving DecidableEq

structure State where
  disk : Disk
  freeinode : Nat
  freeblock : Nat

/-- An input file: its name, and what the calls of `read` return. -/
structure File where
  name : List UInt8
  chunks : List (List UInt8)
  reads : ∀ c ∈ chunks, c ≠ [] ∧ c.length ≤ bsize

def File.content (f : File) : List UInt8 := f.chunks.flatten

/-- The name that is stored: a leading `_` is skipped. -/
def File.stored (f : File) : List UInt8 :=
  if f.name.head? = some 95 then f.name.tail else f.name

def ialloc (type : Int16) (s : State) : Nat × State :=
  (s.freeinode,
    { s with disk := iupdate sb s.disk s.freeinode ⟨type, 0, 0, 1, 0, fun _ => 0⟩,
             freeinode := s.freeinode + 1 })

/-- The part of `iappend` that finds the block, or takes the next one. -/
def fileBlock (d : Disk) (freeblock : Nat) (din : Dinode) (fbn : Nat) :
    Nat × Disk × Nat × Dinode :=
  if h : fbn < ndirect then
    let k : Fin (ndirect + 1) := ⟨fbn, Nat.lt_succ_of_lt h⟩
    if din.addrs k = 0 then (freeblock, d, freeblock + 1, din.setAddr k freeblock)
    else ((din.addrs k).toNat, d, freeblock, din)
  else
    let (ind, freeblock, din) :=
      if din.addrs indirectIdx = 0 then
        (freeblock, freeblock + 1, din.setAddr indirectIdx freeblock)
      else ((din.addrs indirectIdx).toNat, freeblock, din)
    let a := entry (d ind) (fbn - ndirect)
    if a = 0 then
      (freeblock, update d ind (setEntry (d ind) (fbn - ndirect) freeblock),
        freeblock + 1, din)
    else (a, d, freeblock, din)

/-- The loop of `iappend`. -/
def appendLoop : Nat → Nat → List UInt8 → Disk → Nat → Dinode →
    Except Failure (Disk × Nat × Dinode)
  | 0, _, _, d, freeblock, din => .ok (d, freeblock, din)
  | fuel + 1, off, p, d, freeblock, din =>
    if p = [] then .ok (d, freeblock, din)
    else
      let fbn := off / bsize
      if fbn < maxfile then
        let (x, d, freeblock, din) := fileBlock d freeblock din fbn
        let n1 := min p.length ((fbn + 1) * bsize - off)
        let d := update d x (Bytes.copy (d x) (off - fbn * bsize) n1 (buf p))
        appendLoop fuel (off + n1) (p.drop n1) d freeblock din
      else .error .maxfile

def iappend (inum : Nat) (s : State) (p : List UInt8) : Except Failure State := do
  let din := dinode sb s.disk inum
  let off := din.size.toNat
  let (d, freeblock, din) ← appendLoop p.length off p s.disk s.freeblock din
  return { s with disk := iupdate sb d inum { din with size := UInt32.ofNat (off + p.length) },
                  freeblock := freeblock }

/-- One round of the loop over the input files. -/
def addFile (s : State) (f : File) : Except Failure State :=
  if 47 ∈ f.name then .error .slash
  else do
    let (inum, s) := ialloc tFile s
    let s ← iappend rootino s (direntBytes inum f.stored)
    f.chunks.foldlM (iappend inum) s

/-- The bitmap block of `balloc(used)`. -/
def bitmapBlock (used : Nat) : Block :=
  (List.range used).foldl Bytes.setBit fun _ => 0

def balloc (used : Nat) (d : Disk) : Except Failure Disk :=
  if used < bsize * 8 then .ok (update d sb.bmapstart (bitmapBlock used))
  else .error .bitmap

/-- The block of `sb`: size, nblocks, ninodes, nlog, logstart, inodestart, bmapstart. -/
def superBlock : Block :=
  Bytes.setWords (fun _ => 0) 0 (fun k =>
    [fssize, fssize - nmeta, ninodes, nlog, 2, 2 + nlog, 2 + nlog + ninodeblocks].getD k 0) 7

/-- The disk before the first inode: zeros and the super block. -/
def initial : State where
  disk := update (fun _ _ => 0) 1 superBlock
  freeinode := 1
  freeblock := nmeta

/-- The root directory with its two entries. -/
def makeRoot : Except Failure State := do
  let (inum, s) := ialloc tDir initial
  if inum ≠ rootino then .error .rootino
  else
    let s ← iappend rootino s (direntBytes rootino [46])
    iappend rootino s (direntBytes rootino [46, 46])

/-- "fix size of root inode dir". -/
def fixRoot (d : Disk) : Disk :=
  let din := dinode sb d rootino
  let off := din.size.toNat
  iupdate sb d rootino { din with size := UInt32.ofNat ((off / bsize + 1) * bsize) }

def main (files : List File) : Except Failure State := do
  let s ← makeRoot
  let s ← files.foldlM addFile s
  let d ← balloc s.freeblock (fixRoot s.disk)
  return { s with disk := d }

end Xv6.Fs.Mkfs
