import HgXv6.Kernel.Calls

set_option relaxedAutoImplicit false
set_option autoImplicit false

/-!
# File descriptors

The table of open files (`file.c`) with the calls that create and drop references to its entries
(`sysfile.c`, `pipe.c`, `proc.c`): `open`, `dup`, `pipe`, `close`, `fork` and `exit`. Processes are
slots of the process table, entries are slots of the table of open files.

Of an entry only its type, its count and its access are kept; that the end of a pipe is closed or
the inode put when the count reaches zero does not touch the two tables. What the calls find
outside of them is an argument: whether `open` got an inode from the path, whether there is memory
for a kernel stack, an address space or a pipe.

## Main definitions

* `HgXv6.Descriptors.Tables` — the two tables.
* `HgXv6.Descriptors.filealloc`, `HgXv6.Descriptors.filedup`, `HgXv6.Descriptors.fileclose`,
  `HgXv6.Descriptors.fdalloc` — the routines on entries and descriptors.
* `HgXv6.Descriptors.sysOpen`, `HgXv6.Descriptors.sysDup`, `HgXv6.Descriptors.sysPipe`,
  `HgXv6.Descriptors.sysClose`, `HgXv6.Descriptors.fork`, `HgXv6.Descriptors.exit` — the calls.
* `HgXv6.Descriptors.Call`, `HgXv6.Descriptors.runCalls` — sequences of them.
-/

namespace HgXv6.Descriptors

open Prog Disk

/-- `#define NPROC 64` -/
abbrev NPROC : ℕ := 64

/-- The type of an entry: `FD_NONE`, `FD_PIPE`, `FD_INODE`. -/
inductive FileType
  | none
  | pipe
  | inode
deriving DecidableEq

/-- `struct file`, without what it refers to. -/
structure Entry where
  type : FileType
  ref : ℤ
  readable : Bool
  writable : Bool

/-- `enum procstate`; `runnable` stands for `SLEEPING`, `RUNNABLE` and `RUNNING`. -/
inductive ProcState
  | unused
  | embryo
  | runnable
  | zombie
deriving DecidableEq

/-- The table of open files and what the process table says about descriptors. -/
structure Tables where
  /-- `ftable.file` -/
  file : ℕ → Entry
  /-- `state`, by process -/
  state : ℕ → ProcState
  /-- `parent`, by process -/
  parent : ℕ → Option ℕ
  /-- `ofile`, by process and descriptor -/
  ofile : ℕ → ℕ → Option ℕ

/-- The programs of this part of the kernel. -/
abbrev M := StateT Tables (Except Stop)

/-- `initproc`, the first process that is made. -/
abbrev initproc : ℕ := 0

/-! ## Entries and descriptors -/

/-- Change an entry of the table of open files. -/
def modifyFile (f : ℕ) (g : Entry → Entry) : M Unit :=
  modify fun s => { s with file := Function.update s.file f (g (s.file f)) }

/-- Set a descriptor of a process. -/
def setFd (p fd : ℕ) (f : Option ℕ) : M Unit :=
  modify fun s =>
    { s with ofile := Function.update s.ofile p (Function.update (s.ofile p) fd f) }

/-- `p->state = state` -/
def setState (p : ℕ) (state : ProcState) : M Unit :=
  modify fun s => { s with state := Function.update s.state p state }

/-- `filealloc` -/
def filealloc : M (Option ℕ) := do
  let s ← get
  match (List.range NFILE).find? fun f => (s.file f).ref = 0 with
  | none => pure none
  | some f => do
    modifyFile f fun file => { file with ref := 1 }
    pure (some f)

/-- `filedup` -/
def filedup (f : ℕ) : M Unit := do
  let s ← get
  if (s.file f).ref < 1 then throw (.panic "filedup")
  else modifyFile f fun file => { file with ref := file.ref + 1 }

/-- `fileclose` -/
def fileclose (f : ℕ) : M Unit := do
  let s ← get
  if (s.file f).ref < 1 then throw (.panic "fileclose")
  else if (s.file f).ref - 1 > 0 then modifyFile f fun file => { file with ref := file.ref - 1 }
  else modifyFile f fun file => { file with ref := 0, type := .none }

/-- `argfd` -/
def argfd (p : ℕ) (fd : ℤ) : M (Option ℕ) := do
  let s ← get
  pure (if fd < 0 ∨ fd ≥ NOFILE then none else s.ofile p fd.toNat)

/-- `fdalloc` -/
def fdalloc (p f : ℕ) : M (Option ℕ) := do
  let s ← get
  match (List.range NOFILE).find? fun fd => (s.ofile p fd).isNone with
  | none => pure none
  | some fd => do
    setFd p fd (some f)
    pure (some fd)

/-! ## Calls on descriptors -/

/-- `sys_dup` -/
def sysDup (p : ℕ) (fd : ℤ) : M ℤ := do
  match ← argfd p fd with
  | none => pure (-1)
  | some f => do
    match ← fdalloc p f with
    | none => pure (-1)
    | some fd => do
      filedup f
      pure fd

/-- `sys_close` -/
def sysClose (p : ℕ) (fd : ℤ) : M ℤ := do
  match ← argfd p fd with
  | none => pure (-1)
  | some f => do
    setFd p fd.toNat none
    fileclose f
    pure 0

/-- `sys_open`, which has got an inode that may be opened or not. -/
def sysOpen (p : ℕ) (found : Bool) (omode : ℕ) : M ℤ := do
  if found = false then pure (-1)
  else do
    match ← filealloc with
    | none => pure (-1)
    | some f => do
      match ← fdalloc p f with
      | none => do
        fileclose f
        pure (-1)
      | some fd => do
        modifyFile f fun file =>
          { file with
            type := .inode
            readable := decide (omode &&& O_WRONLY = 0)
            writable := decide (omode &&& O_WRONLY ≠ 0 ∨ omode &&& O_RDWR ≠ 0) }
        pure fd

/-- `pipealloc`, with a page of memory for the pipe or without. -/
def pipealloc (page : Bool) : M (Option (ℕ × ℕ)) := do
  match ← filealloc with
  | none => pure none
  | some f0 => do
    match ← filealloc with
    | none => do
      fileclose f0
      pure none
    | some f1 => do
      if page = false then do
        fileclose f0
        fileclose f1
        pure none
      else do
        modifyFile f0 fun file => { file with type := .pipe, readable := true, writable := false }
        modifyFile f1 fun file => { file with type := .pipe, readable := false, writable := true }
        pure (some (f0, f1))

/-- `sys_pipe`, with an array of two descriptors in the memory of the process or without. -/
def sysPipe (p : ℕ) (argsOk page : Bool) : M ℤ := do
  if argsOk = false then pure (-1)
  else do
    match ← pipealloc page with
    | none => pure (-1)
    | some (rf, wf) => do
      match ← fdalloc p rf with
      | none => do
        fileclose rf
        fileclose wf
        pure (-1)
      | some fd0 => do
        match ← fdalloc p wf with
        | none => do
          setFd p fd0 none
          fileclose rf
          fileclose wf
          pure (-1)
        | some _ => pure 0

/-! ## Processes -/

/-- `allocproc`, with memory for a kernel stack or without. -/
def allocproc (kstack : Bool) : M (Option ℕ) := do
  let s ← get
  match (List.range NPROC).find? fun q => s.state q = .unused with
  | none => pure none
  | some np => do
    setState np .embryo
    if kstack = false then do
      setState np .unused
      pure none
    else pure (some np)

/-- The loop of `fork` over descriptors. -/
def dupFiles (p np : ℕ) : List ℕ → M Unit
  | [] => pure ()
  | i :: is => do
    let s ← get
    match s.ofile p i with
    | none => pure ()
    | some f => do
      filedup f
      setFd np i (some f)
    dupFiles p np is

/-- `fork`, with memory for a kernel stack and an address space or without: the slot of the new
process. -/
def fork (p : ℕ) (kstack pgdir : Bool) : M ℤ := do
  match ← allocproc kstack with
  | none => pure (-1)
  | some np => do
    if pgdir = false then do
      setState np .unused
      pure (-1)
    else do
      modify fun s => { s with parent := Function.update s.parent np (some p) }
      dupFiles p np (List.range NOFILE)
      setState np .runnable
      pure np

/-- The loop of `exit` over descriptors. -/
def closeFiles (p : ℕ) : List ℕ → M Unit
  | [] => pure ()
  | fd :: fds => do
    let s ← get
    match s.ofile p fd with
    | none => pure ()
    | some f => do
      fileclose f
      setFd p fd none
    closeFiles p fds

/-- `exit` -/
def exit (p : ℕ) : M Unit := do
  if p = initproc then throw (.panic "init exiting")
  else do
    closeFiles p (List.range NOFILE)
    modify fun s =>
      { s with parent := fun q => if s.parent q = some p then some initproc else s.parent q }
    setState p .zombie

/-- `wait`, if a child has exited: its slot is given back. -/
def wait (p : ℕ) : M ℤ := do
  let s ← get
  match (List.range NPROC).find? fun q => s.parent q = some p ∧ s.state q = .zombie with
  | none => pure (-1)
  | some q => do
    modify fun s => { s with parent := Function.update s.parent q none }
    setState q .unused
    pure q

/-! ## Sequences of calls -/

/-- A system call. -/
inductive Call
  | open (found : Bool) (omode : ℕ)
  | dup (fd : ℤ)
  | pipe (argsOk page : Bool)
  | close (fd : ℤ)
  | fork (kstack pgdir : Bool)
  | exit
  | wait

/-- The call, made by the process `p`. -/
def Call.run (p : ℕ) : Call → M ℤ
  | .open found omode => sysOpen p found omode
  | .dup fd => sysDup p fd
  | .pipe argsOk page => sysPipe p argsOk page
  | .close fd => sysClose p fd
  | .fork kstack pgdir => Descriptors.fork p kstack pgdir
  | .exit => do
    Descriptors.exit p
    pure 0
  | .wait => Descriptors.wait p

/-- A process makes a call; there is no such process in a slot that is not in use. -/
def call (p : ℕ) (c : Call) : M ℤ := do
  let s ← get
  if s.state p ≠ .runnable then throw .blocked
  else c.run p

/-- A sequence of calls, each with the process that makes it. -/
def runCalls : List (ℕ × Call) → M Unit
  | [] => pure ()
  | c :: cs => do
    let _ ← call c.1 c.2
    runCalls cs

/-- The tables after `userinit`. -/
def boot : Tables where
  file _ := ⟨.none, 0, false, false⟩
  state p := if p = initproc then .runnable else .unused
  parent _ := none
  ofile _ _ := none

end HgXv6.Descriptors
