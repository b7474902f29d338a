import HgXv6.Kernel.Disk
import HgXv6.Kernel.FileSystem

set_option relaxedAutoImplicit false
set_option autoImplicit false

/-!
# System calls on files and directories

The calls that create, name, write and close files (`sysfile.c`, `file.c`), on the file system of
`HgXv6.Kernel.Disk`. A process is a number. A path argument is the string that `argstr` has
fetched; the calls return `-1` if it cannot. The length of a write is not negative.

## Main definitions

* `HgXv6.Disk.create`, `HgXv6.Disk.filewrite`, `HgXv6.Disk.fileclose` — the source functions that
  the calls share.
* `HgXv6.Disk.Call`, `HgXv6.Disk.Call.run` — the calls.
* `HgXv6.Disk.runCalls` — a sequence of them.
-/

namespace HgXv6.Disk

open Prog

/-! ## Open files -/

/-- `#define NFILE 100` -/
abbrev NFILE : ℕ := 100

/-- Change an entry of the table of open files. -/
def modifyFile (f : ℕ) (g : File → File) : M Unit :=
  modify fun s => { s with ftable := Function.update s.ftable f (g (s.ftable f)) }

/-- Set a descriptor of a process. -/
def setFd (p fd : ℕ) (f : Option ℕ) : M Unit :=
  modify fun s =>
    { s with ofile := Function.update s.ofile p (Function.update (s.ofile p) fd f) }

/-- `filealloc` -/
def filealloc : M (Option ℕ) := do
  let s ← get
  match (List.range NFILE).find? fun f => (s.ftable f).ref = 0 with
  | none => pure none
  | some f => do
    modifyFile f fun file => { file with ref := 1 }
    pure (some f)

/-- `fdalloc` -/
def fdalloc (p f : ℕ) : M (Option ℕ) := do
  let s ← get
  match (List.range NOFILE).find? fun fd => (s.ofile p fd).isNone with
  | none => pure none
  | some fd => do
    setFd p fd (some f)
    pure (some fd)

/-- `fileclose` -/
def fileclose (f : ℕ) : M Unit := do
  let s ← get
  let ff := s.ftable f
  if ff.ref < 1 then throw (.panic "fileclose")
  else if ff.ref - 1 > 0 then modifyFile f fun file => { file with ref := ff.ref - 1 }
  else do
    modifyFile f fun file => { file with ref := 0, ip := none }
    match ff.ip with
    | none => pure ()
    | some ip => iput ip

/-- `argfd` -/
def argfd (p : ℕ) (fd : ℤ) : M (Option ℕ) := do
  let s ← get
  pure (if fd < 0 ∨ fd ≥ NOFILE then none else s.ofile p fd.toNat)

/-- The loop of `filewrite`, with `i` bytes written and the bytes `src` to go, in at most `k`
passes: the number of bytes written. -/
def filewriteLoop (f ip : ℕ) : ℕ → List UInt8 → ℕ → M ℕ
  | 0, _, i => pure i
  | k + 1, src, i =>
    if src = [] then pure i
    else do
      ilock ip
      let s ← get
      let r ← writei ip (src.take maxWrite) (s.ftable f).off
      modifyFile f fun file => { file with off := if r > 0 then file.off + r.toNat else file.off }
      if r < 0 then pure i
      else if r ≠ (src.take maxWrite).length then throw (.panic "short filewrite")
      else filewriteLoop f ip k (src.drop maxWrite) (i + r.toNat)

/-- `filewrite` -/
def filewrite (f : ℕ) (src : List UInt8) : M ℤ := do
  let s ← get
  if (s.ftable f).writable = false then pure (-1)
  else
    match (s.ftable f).ip with
    | none => throw (.panic "filewrite")
    | some ip => do
      let i ← filewriteLoop f ip src.length src 0
      pure (if i = src.length then src.length else -1)

/-! ## Files and directories -/

/-- `create`: the i-number of the file, of which a reference is taken. -/
def create (p : ℕ) (path : List UInt8) (type major minor : Int16) : M (Option ℕ) := do
  match ← namex p path true with
  | none => pure none
  | some (dp, name) => do
    ilock dp
    match ← dirlookup dp name with
    | some (ip, _) => do
      iput dp
      ilock ip
      let s ← get
      if type = T_FILE ∧ (s.icache ip).copy.type = T_FILE then pure (some ip)
      else do
        iput ip
        pure none
    | none => do
      let ip ← ialloc type
      ilock ip
      modifyCopy ip fun d => { d with major := major, minor := minor, nlink := 1 }
      iupdate ip
      if type = T_DIR then do
        modifyCopy dp fun d => { d with nlink := d.nlink + 1 }
        iupdate dp
        dots ip dp
        link dp name ip
      else link dp name ip
where
  /-- The entries `"."` and `".."` of a new directory. -/
  dots (ip dp : ℕ) : M Unit := do
    let dot ← dirlink ip [chr '.'] ip
    if dot then do
      let dotdot ← dirlink ip [chr '.', chr '.'] dp
      if dotdot then pure () else throw (.panic "create dots")
    else throw (.panic "create dots")
  /-- The entry of the new file. -/
  link (dp : ℕ) (name : List UInt8) (ip : ℕ) : M (Option ℕ) := do
    let linked ← dirlink dp name ip
    if linked then do
      iput dp
      pure (some ip)
    else throw (.panic "create: dirlink")

/-- `sys_open` from `filealloc` on, with a reference to the inode `ip`. -/
def openInode (p ip omode : ℕ) : M ℤ := do
  match ← filealloc with
  | none => do
    iput ip
    pure (-1)
  | some f => do
    match ← fdalloc p f with
    | none => do
      fileclose f
      iput ip
      pure (-1)
    | some fd => do
      modifyFile f fun file => { file with
        ip := some ip
        off := 0
        readable := omode &&& O_WRONLY = 0
        writable := omode &&& O_WRONLY ≠ 0 ∨ omode &&& O_RDWR ≠ 0 }
      pure fd

/-- `sys_open` -/
def sysOpen (p : ℕ) (path : List UInt8) (omode : ℕ) : M ℤ :=
  if omode &&& O_CREATE ≠ 0 then do
    match ← create p path T_FILE 0 0 with
    | none => pure (-1)
    | some ip => openInode p ip omode
  else do
    match ← namex p path false with
    | none => pure (-1)
    | some (ip, _) => do
      ilock ip
      let s ← get
      if (s.icache ip).copy.type = T_DIR ∧ omode ≠ O_RDONLY then do
        iput ip
        pure (-1)
      else openInode p ip omode

/-- `sys_link` -/
def sysLink (p : ℕ) (old new : List UInt8) : M ℤ := do
  match ← namex p old false with
  | none => pure (-1)
  | some (ip, _) => do
    ilock ip
    let s ← get
    if (s.icache ip).copy.type = T_DIR then do
      iput ip
      pure (-1)
    else do
      modifyCopy ip fun d => { d with nlink := d.nlink + 1 }
      iupdate ip
      match ← namex p new true with
      | none => bad ip
      | some (dp, name) => do
        ilock dp
        let linked ← dirlink dp name ip
        iput dp
        if linked then do
          iput ip
          pure 0
        else bad ip
where
  /-- The label `bad`. -/
  bad (ip : ℕ) : M ℤ := do
    ilock ip
    modifyCopy ip fun d => { d with nlink := d.nlink - 1 }
    iupdate ip
    iput ip
    pure (-1)

/-- `sys_unlink` -/
def sysUnlink (p : ℕ) (path : List UInt8) : M ℤ := do
  match ← namex p path true with
  | none => pure (-1)
  | some (dp, name) => do
    ilock dp
    if name = [chr '.'] ∨ name = [chr '.', chr '.'] then bad dp
    else do
      match ← dirlookup dp name with
      | none => bad dp
      | some (ip, off) => do
        ilock ip
        let s ← get
        if (s.icache ip).copy.nlink < 1 then throw (.panic "unlink: nlink < 1")
        else if (s.icache ip).copy.type = T_DIR then do
          let empty ← isdirempty ip
          if empty then do
            remove dp off
            modifyCopy dp fun d => { d with nlink := d.nlink - 1 }
            iupdate dp
            drop dp ip
          else do
            iput ip
            bad dp
        else do
          remove dp off
          drop dp ip
where
  /-- The label `bad`. -/
  bad (dp : ℕ) : M ℤ := do
    iput dp
    pure (-1)
  /-- Clear the entry. -/
  remove (dp off : ℕ) : M Unit := do
    let n ← writei dp (List.replicate 16 0) off
    if n ≠ 16 then throw (.panic "unlink: writei") else pure ()
  /-- Drop the link that the entry was. -/
  drop (dp ip : ℕ) : M ℤ := do
    iput dp
    modifyCopy ip fun d => { d with nlink := d.nlink - 1 }
    iupdate ip
    iput ip
    pure 0

/-- `sys_mkdir` and, for a device, `sys_mknod` -/
def makeNode (p : ℕ) (path : List UInt8) (type major minor : Int16) : M ℤ := do
  match ← create p path type major minor with
  | none => pure (-1)
  | some ip => do
    iput ip
    pure 0

/-- `sys_chdir` -/
def sysChdir (p : ℕ) (path : List UInt8) : M ℤ := do
  match ← namex p path false with
  | none => pure (-1)
  | some (ip, _) => do
    ilock ip
    let s ← get
    if (s.icache ip).copy.type ≠ T_DIR then do
      iput ip
      pure (-1)
    else do
      iput (s.cwd p)
      modify fun s => { s with cwd := Function.update s.cwd p ip }
      pure 0

/-- `sys_write` -/
def sysWrite (p : ℕ) (fd : ℤ) (src : List UInt8) : M ℤ := do
  match ← argfd p fd with
  | none => pure (-1)
  | some f => filewrite f src

/-- `sys_close` -/
def sysClose (p : ℕ) (fd : ℤ) : M ℤ := do
  match ← argfd p fd with
  | none => pure (-1)
  | some f => do
    setFd p fd.toNat none
    fileclose f
    pure 0

/-! ## Sequences of calls -/

/-- A system call. -/
inductive Call
  | open (path : List UInt8) (omode : ℕ)
  | link (old new : List UInt8)
  | unlink (path : List UInt8)
  | mkdir (path : List UInt8)
  | mknod (path : List UInt8) (major minor : Int16)
  | chdir (path : List UInt8)
  | write (fd : ℤ) (src : List UInt8)
  | close (fd : ℤ)

/-- The call, made by the process `p`. -/
def Call.run (p : ℕ) : Call → M ℤ
  | .open path omode => sysOpen p path omode
  | .link old new => sysLink p old new
  | .unlink path => sysUnlink p path
  | .mkdir path => makeNode p path T_DIR 0 0
  | .mknod path major minor => makeNode p path T_DEV major minor
  | .chdir path => sysChdir p path
  | .write fd src => sysWrite p fd src
  | .close fd => sysClose p fd

/-- A sequence of calls, each with the process that makes it. -/
def runCalls : List (ℕ × Call) → M Unit
  | [] => pure ()
  | c :: cs => do
    let _ ← c.2.run c.1
    runCalls cs

end HgXv6.Disk
