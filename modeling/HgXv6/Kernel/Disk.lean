import HgXv6.Kernel.File
import HgXv6.Lib.Hoare

set_option relaxedAutoImplicit false
set_option autoImplicit false

/-!
# The file system on the disk

The lower layers of the file system (`fs.c`): the allocation of blocks and inodes, the cache of
inodes, the contents of inodes with their indirect blocks, directories and path names. The inode
blocks and the free map are tables, and every other block is its bytes, which are numbers where an
indirect block holds them. There is one device.

A call runs to its end before the next one starts, so that no inode is found locked, and
`iunlock` does nothing. The inode cache is taken to have room for the inodes in use.

## Main definitions

* `HgXv6.Disk.Fs` — the disk, the inode cache, the open files and the processes.
* `HgXv6.Disk.balloc`, `HgXv6.Disk.bfree`, `HgXv6.Disk.bmap`, `HgXv6.Disk.itrunc`,
  `HgXv6.Disk.iput`, `HgXv6.Disk.readi`, `HgXv6.Disk.writei`, `HgXv6.Disk.dirlink`,
  `HgXv6.Disk.namex` — the source functions.
-/

namespace HgXv6.Disk

open Prog

/-! ## The state -/

/-- `#define T_DIR 1` -/
abbrev T_DIR : Int16 := 1

/-- `#define T_FILE 2` -/
abbrev T_FILE : Int16 := 2

/-- `#define T_DEV 3` -/
abbrev T_DEV : Int16 := 3

/-- `#define ROOTINO 1` -/
abbrev ROOTINO : ℕ := 1

/-- `#define IPB (BSIZE / sizeof(struct dinode))` -/
abbrev IPB : ℕ := BSIZE / 64

/-- `#define BPB (BSIZE*8)` -/
abbrev BPB : ℕ := BSIZE * 8

/-- `#define DIRSIZ 14` -/
abbrev DIRSIZ : ℕ := 14

/-- `#define CONSOLE 1` -/
abbrev CONSOLE : Int16 := 1

/-- `struct superblock` -/
structure Superblock where
  size : ℕ
  nblocks : ℕ
  ninodes : ℕ
  nlog : ℕ
  logstart : ℕ
  inodestart : ℕ
  bmapstart : ℕ
deriving DecidableEq

/-- `struct dinode` -/
structure Dinode where
  type : Int16
  major : Int16
  minor : Int16
  nlink : Int16
  size : ℕ
  /-- the slots up to `NDIRECT` -/
  addrs : ℕ → ℕ

/-- `memset(dip, 0, sizeof(*dip))` -/
def Dinode.zero : Dinode := ⟨0, 0, 0, 0, 0, fun _ => 0⟩

/-- `struct inode` -/
structure Inode where
  ref : ℕ
  /-- `flags & I_VALID` -/
  valid : Bool
  /-- the copy of the inode on the disk -/
  copy : Dinode

/-- `struct file`, without pipes -/
structure File where
  ref : ℕ
  readable : Bool
  writable : Bool
  /-- `none` if the type is `FD_NONE` -/
  ip : Option ℕ
  off : ℕ

/-- The data of a block. -/
abbrev Data := ℕ → UInt8

/-- The file system: the disk, what the kernel keeps of it in memory, and the processes. -/
structure Fs where
  sb : Superblock
  /-- the inode blocks -/
  dinode : ℕ → Dinode
  /-- the free map -/
  used : ℕ → Bool
  /-- the other blocks -/
  data : ℕ → Data
  /-- by i-number -/
  icache : ℕ → Inode
  ftable : ℕ → File
  /-- `proc->cwd`, by process -/
  cwd : ℕ → ℕ
  /-- `proc->ofile`, by process and descriptor -/
  ofile : ℕ → ℕ → Option ℕ
  /-- the blocks that `log_write` has been called on -/
  logged : List ℕ

/-- The programs of the kernel. -/
abbrev M := StateT Fs (Except Stop)

/-! ## Words in a block -/

/-- `((uint*)bp->data)[j]` -/
def getUint (b : Data) (j : ℕ) : ℕ :=
  (b (4 * j)).toNat + 2 ^ 8 * (b (4 * j + 1)).toNat + 2 ^ 16 * (b (4 * j + 2)).toNat +
    2 ^ 24 * (b (4 * j + 3)).toNat

/-- The bytes of a word. -/
def uintBytes (v : ℕ) : List UInt8 :=
  [UInt8.ofNat v, UInt8.ofNat (v / 2 ^ 8), UInt8.ofNat (v / 2 ^ 16), UInt8.ofNat (v / 2 ^ 24)]

/-- `((uint*)bp->data)[j] = v` -/
def putUint (j v : ℕ) (b : Data) : Data := overlay b (4 * j) (uintBytes v)

/-! ## Blocks -/

/-- `#define BBLOCK(b, sb) (b/BPB + sb.bmapstart)` -/
def BBLOCK (b : ℕ) (sb : Superblock) : ℕ := b / BPB + sb.bmapstart

/-- `#define IBLOCK(i, sb) ((i) / IPB + sb.inodestart)` -/
def IBLOCK (i : ℕ) (sb : Superblock) : ℕ := i / IPB + sb.inodestart

/-- `log_write` -/
def logWrite (b : ℕ) : M Unit := modify fun s => { s with logged := s.logged ++ [b] }

/-- Change the data of a block, and `log_write` it. -/
def store (b : ℕ) (f : Data → Data) : M Unit := do
  modify fun s => { s with data := Function.update s.data b (f (s.data b)) }
  logWrite b

/-- `bzero` -/
def bzero (b : ℕ) : M Unit := store b fun _ _ => 0

/-- `balloc`: the first block whose bit in the free map is clear. -/
def balloc : M ℕ := do
  let s ← get
  match (List.range s.sb.size).find? fun b => !s.used b with
  | none => throw (.panic "balloc: out of blocks")
  | some b => do
    modify fun s => { s with used := Function.update s.used b true }
    logWrite (BBLOCK b s.sb)
    bzero b
    pure b

/-- `bfree` -/
def bfree (b : ℕ) : M Unit := do
  let s ← get
  if s.used b then do
    modify fun s => { s with used := Function.update s.used b false }
    logWrite (BBLOCK b s.sb)
  else throw (.panic "freeing free block")

/-! ## Inodes -/

/-- Change an entry of the inode cache. -/
def modifyInode (inum : ℕ) (f : Inode → Inode) : M Unit :=
  modify fun s => { s with icache := Function.update s.icache inum (f (s.icache inum)) }

/-- Change the fields of an inode in memory. -/
def modifyCopy (inum : ℕ) (f : Dinode → Dinode) : M Unit :=
  modifyInode inum fun ip => { ip with copy := f ip.copy }

/-- `iupdate` -/
def iupdate (inum : ℕ) : M Unit := do
  modify fun s => { s with dinode := Function.update s.dinode inum (s.icache inum).copy }
  let s ← get
  logWrite (IBLOCK inum s.sb)

/-- `iget`: an entry that is not in use is taken over. -/
def iget (inum : ℕ) : M Unit :=
  modifyInode inum fun ip =>
    if ip.ref > 0 then { ip with ref := ip.ref + 1 } else { ip with ref := 1, valid := false }

/-- `idup` -/
def idup (inum : ℕ) : M Unit := modifyInode inum fun ip => { ip with ref := ip.ref + 1 }

/-- `ialloc` -/
def ialloc (type : Int16) : M ℕ := do
  let s ← get
  match (List.range' 1 (s.sb.ninodes - 1)).find? fun inum => (s.dinode inum).type = 0 with
  | none => throw (.panic "ialloc: no inodes")
  | some inum => do
    modify fun s =>
      { s with dinode := Function.update s.dinode inum { Dinode.zero with type := type } }
    logWrite (IBLOCK inum s.sb)
    iget inum
    pure inum

/-- `ilock` -/
def ilock (inum : ℕ) : M Unit := do
  let s ← get
  if (s.icache inum).ref < 1 then throw (.panic "ilock")
  else if (s.icache inum).valid then pure ()
  else if (s.dinode inum).type = 0 then throw (.panic "ilock: no type")
  else modifyInode inum fun ip => { ip with copy := s.dinode inum, valid := true }

/-- The loop of `itrunc` over the direct slots, from the slot `i` on, in `k` passes. -/
def freeDirect (inum : ℕ) : ℕ → ℕ → M Unit
  | 0, _ => pure ()
  | k + 1, i => do
    let s ← get
    if (s.icache inum).copy.addrs i ≠ 0 then do
      bfree ((s.icache inum).copy.addrs i)
      modifyCopy inum fun d => { d with addrs := Function.update d.addrs i 0 }
      freeDirect inum k (i + 1)
    else freeDirect inum k (i + 1)

/-- The loop of `itrunc` over the entries of the indirect block `a`, from the entry `j` on, in
`k` passes. -/
def freeIndirect (a : ℕ) : ℕ → ℕ → M Unit
  | 0, _ => pure ()
  | k + 1, j => do
    let s ← get
    if getUint (s.data a) j ≠ 0 then do
      bfree (getUint (s.data a) j)
      freeIndirect a k (j + 1)
    else freeIndirect a k (j + 1)

/-- The part of `itrunc` for the indirect block. -/
def truncIndirect (inum : ℕ) : M Unit := do
  let s ← get
  let a := (s.icache inum).copy.addrs NDIRECT
  if a ≠ 0 then do
    freeIndirect a NINDIRECT 0
    bfree a
    modifyCopy inum fun d => { d with addrs := Function.update d.addrs NDIRECT 0 }
  else pure ()

/-- `itrunc` -/
def itrunc (inum : ℕ) : M Unit := do
  freeDirect inum NDIRECT 0
  truncIndirect inum
  modifyCopy inum fun d => { d with size := 0 }
  iupdate inum

/-- What `iput` does with the last reference to an inode without links. -/
def ifree (inum : ℕ) : M Unit := do
  itrunc inum
  modifyCopy inum fun d => { d with type := 0 }
  iupdate inum
  modifyInode inum fun ip => { ip with valid := false }

/-- `ip->ref--` -/
def unref (inum : ℕ) : M Unit := modifyInode inum fun ip => { ip with ref := ip.ref - 1 }

/-- `iput` -/
def iput (inum : ℕ) : M Unit := do
  let s ← get
  if (s.icache inum).ref = 1 ∧ (s.icache inum).valid ∧ (s.icache inum).copy.nlink = 0 then do
    ifree inum
    unref inum
  else unref inum

/-! ## The contents of inodes -/

/-- `bmap` -/
def bmap (inum bn : ℕ) : M ℕ :=
  if bn < NDIRECT then do
    let s ← get
    let addr := (s.icache inum).copy.addrs bn
    if addr = 0 then do
      let b ← balloc
      modifyCopy inum fun d => { d with addrs := Function.update d.addrs bn b }
      pure b
    else pure addr
  else if bn - NDIRECT < NINDIRECT then do
    let s ← get
    if (s.icache inum).copy.addrs NDIRECT = 0 then do
      let b ← balloc
      modifyCopy inum fun d => { d with addrs := Function.update d.addrs NDIRECT b }
      entry b (bn - NDIRECT)
    else entry ((s.icache inum).copy.addrs NDIRECT) (bn - NDIRECT)
  else throw (.panic "bmap: out of range")
where
  /-- The block that an entry of the indirect block `a` names, allocated if it names none. -/
  entry (a j : ℕ) : M ℕ := do
    let s ← get
    if getUint (s.data a) j = 0 then do
      let b ← balloc
      store a (putUint j b)
      pure b
    else pure (getUint (s.data a) j)

/-- The loop of `readi`, with `n` bytes to go, in at most `k` passes. -/
def readLoop (inum : ℕ) : ℕ → ℕ → ℕ → M (List UInt8)
  | 0, _, _ => pure []
  | k + 1, n, off =>
    if n = 0 then pure []
    else do
      let b ← bmap inum (off / BSIZE)
      let s ← get
      let rest ← readLoop inum k (n - min n (BSIZE - off % BSIZE))
        (off + min n (BSIZE - off % BSIZE))
      pure (firstOf (fun i => s.data b (off % BSIZE + i)) (min n (BSIZE - off % BSIZE)) ++ rest)

/-- `readi`: the bytes read, or `none` for `-1`. A read from the console waits for a key. -/
def readi (inum off n : ℕ) : M (Option (List UInt8)) := do
  let s ← get
  let ip := (s.icache inum).copy
  if ip.type = T_DEV then if ip.major = CONSOLE then throw .blocked else pure none
  else if off > ip.size ∨ (off + n) % 2 ^ 32 < off then pure none
  else do
    let n := if off + n > ip.size then ip.size - off else n
    let bs ← readLoop inum n n off
    pure (some bs)

/-- The loop of `writei`, with the bytes `src` to go, in at most `k` passes: the offset it
reaches. -/
def writeLoop (inum : ℕ) : ℕ → List UInt8 → ℕ → M ℕ
  | 0, _, off => pure off
  | k + 1, src, off =>
    if src = [] then pure off
    else do
      let b ← bmap inum (off / BSIZE)
      store b fun data =>
        overlay data (off % BSIZE) (src.take (min src.length (BSIZE - off % BSIZE)))
      writeLoop inum k (src.drop (min src.length (BSIZE - off % BSIZE)))
        (off + min src.length (BSIZE - off % BSIZE))

/-- `writei`. The console takes all it is given. -/
def writei (inum : ℕ) (src : List UInt8) (off : ℕ) : M ℤ := do
  let s ← get
  let ip := (s.icache inum).copy
  if ip.type = T_DEV then pure (if ip.major = CONSOLE then src.length else -1)
  else if off > ip.size ∨ (off + src.length) % 2 ^ 32 < off then pure (-1)
  else if off + src.length > MAXFILE * BSIZE then pure (-1)
  else do
    let off ← writeLoop inum src.length src off
    if src.length > 0 ∧ off > ip.size then do
      modifyCopy inum fun d => { d with size := off }
      iupdate inum
      pure src.length
    else pure src.length

/-! ## Directories -/

/-- `struct dirent`: its name up to the `'\0'`. -/
structure Dirent where
  inum : ℕ
  name : List UInt8
deriving DecidableEq

/-- A directory entry, from its bytes. -/
def Dirent.ofBytes (bs : List UInt8) : Dirent where
  inum := bs[0]!.toNat + 2 ^ 8 * bs[1]!.toNat
  name := ((bs.drop 2).take DIRSIZ).takeWhile (· ≠ 0)

/-- The bytes of a directory entry: `strncpy` fills the name up with zeros. -/
def Dirent.bytes (de : Dirent) : List UInt8 :=
  [UInt8.ofNat de.inum, UInt8.ofNat (de.inum / 2 ^ 8)] ++ de.name.take DIRSIZ ++
    List.replicate (DIRSIZ - de.name.length) 0

/-- The reads of the directory entry at an offset. -/
def readDirent (dp off : ℕ) (msg : String) : M Dirent := do
  match ← readi dp off 16 with
  | none => throw (.panic msg)
  | some bs => if bs.length ≠ 16 then throw (.panic msg) else pure (Dirent.ofBytes bs)

/-- The search of a directory for an entry with the property `c`, from an offset on, in at most
`k` passes: the entry, and its offset or that of the end. -/
def scanDir (dp : ℕ) (msg : String) (c : Dirent → Bool) : ℕ → ℕ → M (Option Dirent × ℕ)
  | 0, off => pure (none, off)
  | k + 1, off => do
    let s ← get
    if off < (s.icache dp).copy.size then do
      let de ← readDirent dp off msg
      if c de then pure (some de, off) else scanDir dp msg c k (off + 16)
    else pure (none, off)

/-- The number of entries that a loop over a directory looks at, at most. -/
def dirents (dp : ℕ) : M ℕ := do
  let s ← get
  pure ((s.icache dp).copy.size / 16 + 1)

/-- `dirlookup`: the i-number, of which a reference is taken, and the offset of the entry. -/
def dirlookup (dp : ℕ) (name : List UInt8) : M (Option (ℕ × ℕ)) := do
  let s ← get
  if (s.icache dp).copy.type ≠ T_DIR then throw (.panic "dirlookup not DIR")
  else do
    let k ← dirents dp
    match ← scanDir dp "dirlink read" (fun de => de.inum ≠ 0 ∧ de.name = name) k 0 with
    | (none, _) => pure none
    | (some de, off) => do
      iget de.inum
      pure (some (de.inum, off))

/-- `dirlink`: whether it succeeds. -/
def dirlink (dp : ℕ) (name : List UInt8) (inum : ℕ) : M Bool := do
  match ← dirlookup dp name with
  | some (ip, _) => do
    iput ip
    pure false
  | none => do
    let k ← dirents dp
    let (_, off) ← scanDir dp "dirlink read" (fun de => de.inum = 0) k 0
    let n ← writei dp (Dirent.bytes ⟨inum, name⟩) off
    if n ≠ 16 then throw (.panic "dirlink") else pure true

/-- `isdirempty` -/
def isdirempty (dp : ℕ) : M Bool := do
  let k ← dirents dp
  let (de, _) ← scanDir dp "isdirempty: readi" (fun de => de.inum ≠ 0) k (2 * 16)
  pure de.isNone

/-! ## Path names -/

/-- `skipelem`: the next element of a path and the rest. -/
def skipelem (path : List UInt8) : Option (List UInt8 × List UInt8) :=
  let path := path.dropWhile (· = chr '/')
  if path = [] then none
  else some ((path.takeWhile (· ≠ chr '/')).take DIRSIZ,
    (path.dropWhile (· ≠ chr '/')).dropWhile (· = chr '/'))

/-- The loop of `namex`, in at most `k` passes: the i-number, of which a reference is taken, and
the last name. -/
def namexLoop (nameiparent : Bool) :
    ℕ → List UInt8 → List UInt8 → ℕ → M (Option (ℕ × List UInt8))
  | 0, _, _, _ => throw .loops
  | k + 1, path, name, ip =>
    match skipelem path with
    | none =>
      if nameiparent then do
        iput ip
        pure none
      else pure (some (ip, name))
    | some (name, path) => do
      ilock ip
      let s ← get
      if (s.icache ip).copy.type ≠ T_DIR then do
        iput ip
        pure none
      else if nameiparent ∧ path = [] then pure (some (ip, name))
      else do
        match ← dirlookup ip name with
        | none => do
          iput ip
          pure none
        | some (next, _) => do
          iput ip
          namexLoop nameiparent k path name next

/-- `namex`, for the process `p` -/
def namex (p : ℕ) (path : List UInt8) (nameiparent : Bool) : M (Option (ℕ × List UInt8)) := do
  let s ← get
  if path.head? = some (chr '/') then do
    iget ROOTINO
    namexLoop nameiparent (path.length + 1) path [] ROOTINO
  else do
    idup (s.cwd p)
    namexLoop nameiparent (path.length + 1) path [] (s.cwd p)

end HgXv6.Disk
