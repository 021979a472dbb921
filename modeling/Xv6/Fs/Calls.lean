import Xv6.Fs.Dir
import Xv6.Library.Program

/-!
# The calls of the file system as programs

The functions of `fs.c`, `sysfile.c`, `file.c` and `exec.c` that take, lock and drop
inodes, as programs over what one critical section does: a section of
`icache.lock`, `acquiresleep` and `releasesleep` of an inode, and what is read or
changed while the inode is locked. Whatever is decided outside of the file
system (is there a free file structure, a descriptor, memory) is an answer too.

An argument that cannot be fetched from the user is `none`.
-/

namespace Xv6.Fs.Call

/-! ## §1  Operations -/

abbrev ninode : Nat := 50
abbrev ndev : Int16 := 10
abbrev console : Int16 := 1
abbrev rootdev : Nat := 1
abbrev rootino : Nat := 1

/-- A `struct inode *` into the inode cache. -/
abbrev Ip := Fin ninode

abbrev Path := List UInt8

/-- The panics of these functions; those inside an operation are no answers. -/
inductive Panic where
  | dirlookupNotDir     -- "dirlookup not DIR"
  | dirlookupRead       -- "dirlookup read"
  | dirlinkRead         -- "dirlink read"
  | dirlink             -- "dirlink"
  | isdiremptyReadi     -- "isdirempty: readi"
  | unlinkNlink         -- "unlink: nlink < 1"
  | unlinkWritei        -- "unlink: writei"
  | createDots          -- "create dots"
  | createDirlink       -- "create: dirlink"
  | shortFilewrite      -- "short filewrite"
deriving DecidableEq

/-- Questions that are not for the file system. -/
inductive Ask where
  | filealloc
  | setupkvm
  | allocuvm
  | stack        -- the pages of the stack and the arguments on it
deriving DecidableEq

inductive Op where
  | beginOp
  | endOp
  | iget (dev inum : Nat)
  | idup (ip : Ip)
  | acquiresleep (ip : Ip)
  | releasesleep (ip : Ip)
  | load (ip : Ip)              -- the rest of `ilock`
  | dead (ip : Ip)              -- `ip->valid && ip->nlink == 0`
  | ref (ip : Ip)               -- `r = ip->ref`
  | itrunc (ip : Ip)
  | clearType (ip : Ip)         -- `ip->type = 0`
  | iupdate (ip : Ip)
  | invalidate (ip : Ip)        -- `ip->valid = 0`
  | decRef (ip : Ip)            -- `ip->ref--`
  | inode (ip : Ip)             -- the fields of a locked inode
  | setAttrs (ip : Ip) (major minor nlink : Int16)
  | ialloc (dev : Nat) (type : Int16)
  | readi (ip : Ip) (off n : UInt32)
  | writei (ip : Ip) (bytes : List UInt8) (off : UInt32)
  | cwd                         -- `myproc()->cwd`
  | setCwd (ip : Option Ip)
  | fdalloc
  | openFile (ip : Ip)          -- `f->ip = ip`
  | offset                      -- `f->off`
  | device (n : UInt32)         -- the driver of the console
  | ask (a : Ask)
  | panic (p : Panic)

/-- What the code reads of an inode. -/
structure View where
  dev : Nat
  inum : Nat
  type : Int16
  major : Int16
  minor : Int16
  nlink : Int16
  size : UInt32
deriving DecidableEq

def Res : Op → Type
  | .iget .. => Ip
  | .dead _ => Bool
  | .ref _ => Nat
  | .inode _ => View
  | .ialloc .. => Nat
  | .readi .. => Option (List UInt8)
  | .writei .. => Option UInt32
  | .cwd => Ip
  | .fdalloc => Option (Fin 16)
  | .offset => UInt32
  | .device _ => Option (List UInt8)
  | .ask _ => Bool
  | .panic _ => Empty
  | _ => Unit

abbrev M := Prog Op Res

def perform (o : Op) : M (Res o) := Prog.perform o

def panic {α : Type} (p : Panic) : M α := .op (.panic p) fun x => nomatch (x : Empty)

def onlyIf (c : Bool) (x : M Unit) : M Unit := if c then x else pure ()

/-! ## §2  `fs.c` -/

def iget (dev inum : Nat) : M Ip := perform (.iget dev inum)

def inode (ip : Ip) : M View := perform (.inode ip)

def iunlock (ip : Ip) : M Unit := perform (.releasesleep ip)

def ilock (ip : Ip) : M Unit := do
  perform (.acquiresleep ip)
  perform (.load ip)

def free (ip : Ip) : M Unit := do
  perform (.itrunc ip)
  perform (.clearType ip)
  perform (.iupdate ip)
  perform (.invalidate ip)

/-- What `iput` does for an inode without links. -/
def freeLast (ip : Ip) : M Unit := do
  let r : Nat ← perform (.ref ip)
  onlyIf (r = 1) (free ip)

def iput (ip : Ip) : M Unit := do
  perform (.acquiresleep ip)
  let dead : Bool ← perform (.dead ip)
  onlyIf dead (freeLast ip)
  perform (.releasesleep ip)
  perform (.decRef ip)

def iunlockput (ip : Ip) : M Unit := do
  iunlock ip
  iput ip

/-- `ip->nlink += d` and `iupdate(ip)`. -/
def addNlink (ip : Ip) (d : Int16) : M Unit := do
  let v ← inode ip
  perform (.setAttrs ip v.major v.minor (v.nlink + d))
  perform (.iupdate ip)

def ialloc (dev : Nat) (type : Int16) : M Ip := do
  let inum : Nat ← perform (.ialloc dev type)
  iget dev inum

/-- `consoleread` and `consolewrite` let go of the inode meanwhile. -/
def consoleRw (ip : Ip) (n : UInt32) : M (Option (List UInt8)) := do
  iunlock ip
  let r : Option (List UInt8) ← perform (.device n)
  ilock ip
  pure r

def readi (ip : Ip) (off n : UInt32) : M (Option (List UInt8)) := do
  let v ← inode ip
  if v.type = tDev then
    if v.major < 0 ∨ v.major ≥ ndev ∨ v.major ≠ console then pure none
    else consoleRw ip n
  else perform (.readi ip off n)

def writei (ip : Ip) (bytes : List UInt8) (off : UInt32) : M (Option UInt32) := do
  let v ← inode ip
  if v.type = tDev then
    if v.major < 0 ∨ v.major ≥ ndev ∨ v.major ≠ console then pure none
    else do
      let _ ← consoleRw ip (UInt32.ofNat bytes.length)
      pure (some (UInt32.ofNat bytes.length))
  else perform (.writei ip bytes off)

/-- `readi(dp, (char*)&de, off, sizeof(de))`, which has to read all of it. -/
def readDirent (err : Panic) (dp : Ip) (off : Nat) : M Dirent := do
  match ← readi dp (UInt32.ofNat off) 16 with
  | some l => if l.length = direntSize then pure (.ofBytes l) else panic err
  | none => panic err

/-- `writei(dp, (char*)&de, off, sizeof(de))`. -/
def writeDirent (err : Panic) (dp : Ip) (off : Nat) (de : List UInt8) : M Unit := do
  let r ← writei dp de (UInt32.ofNat off)
  if r = some 16 then pure () else panic err

/-- The entry has the name. -/
def named (name : List UInt8) (de : Dirent) : Bool :=
  de.inum ≠ 0 && namecmp name de.name = 0

/-- The inode and the offset of the entry. -/
def dirlookup (dp : Ip) (name : List UInt8) : M (Option (Ip × Nat)) := do
  let v ← inode dp
  if v.type ≠ tDir then panic .dirlookupNotDir
  else do
    let (off, de) ← dirScan (readDirent .dirlookupRead dp) (named name) v.size.toNat v.size.toNat 0
    match de with
    | none => pure none
    | some de => do
        let ip ← iget v.dev de.inum
        pure (some (ip, off))

/-- `dirlink` from its loop on. -/
def dirEnter (dp : Ip) (name : List UInt8) (inum : Nat) : M Unit := do
  let v ← inode dp
  let (off, _) ← dirScan (readDirent .dirlinkRead dp) (fun de => de.inum = 0) v.size.toNat
    v.size.toNat 0
  writeDirent .dirlink dp off (direntBytes inum name)

def dirlink (dp : Ip) (name : List UInt8) (inum : Nat) : M Int := do
  match ← dirlookup dp name with
  | some (ip, _) => do
      iput ip
      pure (-1)
  | none => do
      dirEnter dp name inum
      pure 0

/-! Paths. -/

def slash : UInt8 := 47

/-- The next element of the path, cut at 14 bytes, and the path behind it. -/
def skipelem (path : Path) : Option (List UInt8 × Path) :=
  let path := path.dropWhile (· = slash)
  if path = [] then none
  else
    let rest := path.dropWhile (· ≠ slash)
    some ((path.takeWhile (· ≠ slash)).take dirsiz, rest.dropWhile (· = slash))

def elemsUpTo : Nat → Path → List (List UInt8)
  | 0, _ => []
  | fuel + 1, path =>
    match skipelem path with
    | none => []
    | some (name, rest) => name :: elemsUpTo fuel rest

/-- The elements that the loop of `namex` takes off the path; none is left where it
reads `*path == '\0'`. -/
def elems (path : Path) : List (List UInt8) := elemsUpTo path.length path

section Elems

variable {path rest : Path} {name : List UInt8}

theorem skipelem_length (h : skipelem path = some (name, rest)) : rest.length < path.length := by
  rw [skipelem] at h
  split at h
  · cases h
  rename_i hne
  cases h
  have hskip : (path.dropWhile (· = slash)).length ≤ path.length := (List.dropWhile_sublist _).length_le
  cases hpath : path.dropWhile (· = slash) with
  | nil => exact absurd hpath hne
  | cons c l =>
    have hc : c ≠ slash := by
      have hhead := List.head_dropWhile_not (p := (· = slash)) (l := path) (by rw [hpath]; nofun)
      simpa [hpath] using hhead
    have hrest : ((l.dropWhile (· ≠ slash)).dropWhile (· = slash)).length ≤ l.length :=
      ((List.dropWhile_sublist _).trans (List.dropWhile_sublist _)).length_le
    rw [hpath, List.length_cons] at hskip
    rw [List.dropWhile_cons_of_pos (by simpa using hc)]
    omega

theorem elemsUpTo_eq : ∀ {n m : Nat} {path : Path}, path.length ≤ n → path.length ≤ m →
    elemsUpTo n path = elemsUpTo m path
  | 0, 0, _, _, _ => rfl
  | 0, m + 1, path, hn, _ => by
    obtain rfl := List.eq_nil_of_length_eq_zero (Nat.le_zero.mp hn)
    rfl
  | n + 1, 0, path, _, hm => by
    obtain rfl := List.eq_nil_of_length_eq_zero (Nat.le_zero.mp hm)
    rfl
  | n + 1, m + 1, path, hn, hm => by
    rw [elemsUpTo, elemsUpTo]
    split
    · rfl
    · rename_i name rest hskip
      have hlt := skipelem_length hskip
      rw [elemsUpTo_eq (n := n) (m := m) (by omega) (by omega)]

/-- `elems` is what repeated `skipelem` gives. -/
theorem elems_eq (path : Path) : elems path =
    match skipelem path with
    | none => []
    | some (name, rest) => name :: elems rest := by
  cases hlen : path.length with
  | zero =>
    obtain rfl := List.eq_nil_of_length_eq_zero hlen
    rfl
  | succ n =>
    rw [elems, hlen, elemsUpTo]
    split
    · rfl
    · rename_i name rest hskip
      have hlt := skipelem_length hskip
      rw [elemsUpTo_eq (n := n) (m := rest.length) (by omega) (Nat.le_refl _)]
      rfl

end Elems

/-- The loop of `namex` at `ip`, with `name` the element taken off last. -/
def namexLoop (nameiparent : Bool) : Ip → List UInt8 → List (List UInt8) → M (Option (Ip × List UInt8))
  | ip, name, [] =>
    if nameiparent then do
      iput ip
      pure none
    else pure (some (ip, name))
  | ip, _, name :: rest => do
      ilock ip
      let v ← inode ip
      if v.type ≠ tDir then do
        iunlockput ip
        pure none
      else if nameiparent && rest.isEmpty then do
        -- one level early
        iunlock ip
        pure (some (ip, name))
      else do
        match ← dirlookup ip name with
        | none => do
            iunlockput ip
            pure none
        | some (next, _) => do
            iunlockput ip
            namexLoop nameiparent next name rest

/-- Where `namex` starts. -/
def namexStart (path : Path) : M Ip :=
  if path.head? = some slash then iget rootdev rootino
  else do
    let ip : Ip ← perform .cwd
    perform (.idup ip)
    pure ip

def namex (path : Path) (nameiparent : Bool) : M (Option (Ip × List UInt8)) := do
  let ip ← namexStart path
  namexLoop nameiparent ip [] (elems path)

def namei (path : Path) : M (Option Ip) := do
  let r ← namex path false
  pure (r.map Prod.fst)

def nameiparent (path : Path) : M (Option (Ip × List UInt8)) := namex path true

/-! ## §3  `sysfile.c` -/

/-- `end_op` and `return -1`. -/
def fail : M Int := do
  perform .endOp
  pure (-1)

/-- The label `bad` of `sys_link`. -/
def linkBad (ip : Ip) : M Int := do
  ilock ip
  addNlink ip (-1)
  iunlockput ip
  fail

def sysLink : Option Path → Option Path → M Int
  | some old, some new => do
      perform .beginOp
      match ← namei old with
      | none => fail
      | some ip => do
          ilock ip
          let v ← inode ip
          if v.type = tDir then do
            iunlockput ip
            fail
          else do
            addNlink ip 1
            iunlock ip
            match ← nameiparent new with
            | none => linkBad ip
            | some (dp, name) => do
                ilock dp
                let w ← inode dp
                if w.dev ≠ v.dev then do
                  iunlockput dp
                  linkBad ip
                else do
                  let r ← dirlink dp name v.inum
                  iunlockput dp
                  if r < 0 then linkBad ip
                  else do
                    iput ip
                    perform .endOp
                    pure 0
  | _, _ => pure (-1)

/-- Is the directory empty but for its dot entries? -/
def isdirempty (dp : Ip) : M Bool := do
  let v ← inode dp
  let (_, de) ← dirScan (readDirent .isdiremptyReadi dp) (fun de => de.inum ≠ 0) v.size.toNat
    v.size.toNat (2 * direntSize)
  pure de.isNone

/-- `ip->type == T_DIR && !isdirempty(ip)`. -/
def occupied (ip : Ip) (type : Int16) : M Bool :=
  if type = tDir then do
    let empty ← isdirempty ip
    pure !empty
  else pure false

/-- The label `bad` of `sys_unlink`. -/
def unlinkBad (dp : Ip) : M Int := do
  iunlockput dp
  fail

/-- `sys_unlink` from the locked entry on. -/
def unlinkEntry (dp ip : Ip) (off : Nat) (type : Int16) : M Int := do
  writeDirent .unlinkWritei dp off (List.replicate direntSize 0)
  onlyIf (type = tDir) (addNlink dp (-1))
  iunlockput dp
  addNlink ip (-1)
  iunlockput ip
  perform .endOp
  pure 0

def sysUnlink : Option Path → M Int
  | none => pure (-1)
  | some path => do
      perform .beginOp
      match ← nameiparent path with
      | none => fail
      | some (dp, name) => do
          ilock dp
          if namecmp name [46] = 0 ∨ namecmp name [46, 46] = 0 then unlinkBad dp
          else
            match ← dirlookup dp name with
            | none => unlinkBad dp
            | some (ip, off) => do
                ilock ip
                let v ← inode ip
                if v.nlink < 1 then panic .unlinkNlink
                else do
                  let full ← occupied ip v.type
                  if full then do
                    iunlockput ip
                    unlinkBad dp
                  else unlinkEntry dp ip off v.type

/-- The dot entries of a new directory. -/
def createDots (dp ip : Ip) (inum parent : Nat) : M Unit := do
  addNlink dp 1
  let r ← dirlink ip [46] inum
  if r < 0 then panic .createDots
  else do
    let r ← dirlink ip [46, 46] parent
    if r < 0 then panic .createDots else pure ()

/-- `create` when the name is free. -/
def createNew (dp : Ip) (name : List UInt8) (type major minor : Int16) : M (Option Ip) := do
  let w ← inode dp
  let ip ← ialloc w.dev type
  ilock ip
  let v ← inode ip
  perform (.setAttrs ip major minor 1)
  perform (.iupdate ip)
  onlyIf (type = tDir) (createDots dp ip v.inum w.inum)
  let r ← dirlink dp name v.inum
  if r < 0 then panic .createDirlink
  else do
    iunlockput dp
    pure (some ip)

/-- The inode comes back locked. -/
def create (path : Path) (type major minor : Int16) : M (Option Ip) := do
  match ← nameiparent path with
  | none => pure none
  | some (dp, name) => do
      ilock dp
      match ← dirlookup dp name with
      | some (ip, _) => do
          iunlockput dp
          ilock ip
          let v ← inode ip
          if type = tFile ∧ v.type = tFile then pure (some ip)
          else do
            iunlockput ip
            pure none
      | none => createNew dp name type major minor

def oCreate : UInt32 := 0x200

/-- `sys_open` up to the locked inode. -/
def openInode (path : Path) (omode : UInt32) : M (Option Ip) :=
  if omode &&& oCreate ≠ 0 then create path tFile 0 0
  else do
    match ← namei path with
    | none => pure none
    | some ip => do
        ilock ip
        let v ← inode ip
        if v.type = tDir ∧ omode ≠ 0 then do
          iunlockput ip
          pure none
        else pure (some ip)

/-- `iunlockput(ip)`, `end_op` and `return -1`. A file structure that was taken is given
back; it has no inode yet. -/
def openBad (ip : Ip) : M Int := do
  iunlockput ip
  fail

def sysOpen : Option Path → Option UInt32 → M Int
  | some path, some omode => do
      perform .beginOp
      match ← openInode path omode with
      | none => fail
      | some ip => do
          let f : Bool ← perform (.ask .filealloc)
          if f then do
            let fd : Option (Fin 16) ← perform .fdalloc
            match fd with
            | none => openBad ip
            | some fd => do
                iunlock ip
                perform .endOp
                perform (.openFile ip)
                pure fd.val
          else openBad ip
  | _, _ => pure (-1)

/-- `sys_mkdir` and `sys_mknod` behind `create`. -/
def createDone : Option Ip → M Int
  | none => fail
  | some ip => do
      iunlockput ip
      perform .endOp
      pure 0

def sysMkdir (path : Option Path) : M Int := do
  perform .beginOp
  match path with
  | none => fail
  | some path => do
      let r ← create path tDir 0 0
      createDone r

def sysMknod (path : Option Path) (major minor : Option Int16) : M Int := do
  perform .beginOp
  match path, major, minor with
  | some path, some major, some minor => do
      let r ← create path tDev major minor
      createDone r
  | _, _, _ => fail

def sysChdir (path : Option Path) : M Int := do
  perform .beginOp
  match path with
  | none => fail
  | some path => do
      match ← namei path with
      | none => fail
      | some ip => do
          ilock ip
          let v ← inode ip
          if v.type ≠ tDir then do
            iunlockput ip
            fail
          else do
            iunlock ip
            let old : Ip ← perform .cwd
            iput old
            perform .endOp
            perform (.setCwd (some ip))
            pure 0

/-! ## §4  `exec.c` -/

def pgsize : UInt32 := 4096

/-- A little-endian number of a header. -/
def field (l : List UInt8) (o n : Nat) : UInt32 := UInt32.ofNat (Bytes.getLe (bytesAt l) o n)

/-- The loop of `loaduvm`, `pages` rounds of it at most. -/
def loaduvm (ip : Ip) (offset sz : UInt32) : Nat → UInt32 → M Bool
  | 0, _ => pure true
  | pages + 1, i =>
    if i < sz then do
      let n := if sz - i < pgsize then sz - i else pgsize
      let r ← readi ip (offset + i) n
      if r.map List.length = some n.toNat then loaduvm ip offset sz pages (i + pgsize)
      else pure false
    else pure true

/-- The loop over the program headers; false is the jump to `bad`. -/
def loadSegs (ip : Ip) : Nat → UInt32 → M Bool
  | 0, _ => pure true
  | phnum + 1, off => do
      match ← readi ip off 32 with
      | none => pure false
      | some ph =>
        if ph.length ≠ 32 then pure false
        else if field ph 0 4 ≠ 1 then loadSegs ip phnum (off + 32)
        else if field ph 20 4 < field ph 16 4 then pure false
        else if field ph 8 4 + field ph 20 4 < field ph 8 4 then pure false
        else do
          let room : Bool ← perform (.ask .allocuvm)
          if room then
            if field ph 8 4 % pgsize ≠ 0 then pure false
            else do
              let ok ← loaduvm ip (field ph 4 4) (field ph 16 4)
                ((field ph 16 4).toNat / pgsize.toNat + 1) 0
              if ok then loadSegs ip phnum (off + 32) else pure false
          else pure false

/-- `exec` from the locked inode to the end of the segments. -/
def loadElf (ip : Ip) : M Bool := do
  match ← readi ip 0 52 with
  | none => pure false
  | some elf =>
    if elf.length ≠ 52 ∨ field elf 0 4 ≠ 0x464C457F then pure false
    else do
      let kvm : Bool ← perform (.ask .setupkvm)
      if kvm then loadSegs ip (field elf 44 2).toNat (field elf 28 4) else pure false

def exec (path : Path) : M Int := do
  perform .beginOp
  match ← namei path with
  | none => fail
  | some ip => do
      ilock ip
      let loaded ← loadElf ip
      iunlockput ip
      perform .endOp
      if loaded then do
        let room : Bool ← perform (.ask .stack)
        pure (if room then 0 else -1)
      else pure (-1)

/-! ## §5  `file.c` -/

/-- `((LOGSIZE-1-1-2) / 2) * 512`. -/
def maxWrite : Nat := 6656

/-- The loop of `filewrite`, with the bytes to go. -/
def filewriteLoop (ip : Ip) : Nat → List UInt8 → M Bool
  | 0, _ => pure true
  | fuel + 1, bytes =>
    if bytes.isEmpty then pure true
    else do
      perform .beginOp
      ilock ip
      let off : UInt32 ← perform .offset
      let r ← writei ip (bytes.take maxWrite) off
      iunlock ip
      perform .endOp
      match r with
      | none => pure false
      | some n =>
        if n.toNat ≠ (bytes.take maxWrite).length then panic .shortFilewrite
        else filewriteLoop ip fuel (bytes.drop maxWrite)

def filewrite (ip : Ip) (bytes : List UInt8) : M Int := do
  let done ← filewriteLoop ip bytes.length bytes
  pure (if done then bytes.length else -1)

/-! ## §6  The calls that take paths -/

inductive PathCall where
  | link (old new : Option Path)
  | unlink (path : Option Path)
  | opens (path : Option Path) (omode : Option UInt32)
  | mkdir (path : Option Path)
  | mknod (path : Option Path) (major minor : Option Int16)
  | chdir (path : Option Path)
  | exec (path : Path)

def PathCall.prog : PathCall → M Int
  | link old new => sysLink old new
  | unlink path => sysUnlink path
  | opens path omode => sysOpen path omode
  | mkdir path => sysMkdir path
  | mknod path major minor => sysMknod path major minor
  | chdir path => sysChdir path
  | exec path => Call.exec path

end Xv6.Fs.Call
