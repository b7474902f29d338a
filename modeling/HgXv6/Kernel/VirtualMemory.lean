import HgXv6.Kernel.Image
import HgXv6.Kernel.Processes

set_option relaxedAutoImplicit false
set_option autoImplicit false

/-!
# The memory of all processes

The kernel as far as it hands out physical memory: `main` frees the pages behind the kernel and
starts the first process, and from then on processes fork, grow and shrink, load programs, read and
write their memory, make pipes, and are freed when their parents wait for them. Each system call is
one action, and so is each byte that a program reads or writes; any list of actions is a schedule.

What processes are to see of this is said by a specification that knows nothing of frames: each
process has an image of its own, `fork` copies it, `sbrk` and `exec` change it, and a program reads
what it has last written.

## Main definitions

* `HgXv6.Phys.Sys` — physical memory, and who has which part of it.
* `HgXv6.Phys.main` — `main` up to the first process.
* `HgXv6.Phys.Act`, `HgXv6.Phys.step` — the actions.
* `HgXv6.Phys.Users`, `HgXv6.Phys.accept` — what processes are to see.
* `HgXv6.Phys.Holder`, `HgXv6.Phys.Mem.space` — who may have which frames.
-/

namespace HgXv6.Phys

open Prog
open Sched (Slot)
open Vm (PGSIZE PHYSTOP PTE_P PTE_ADDR)

/-! ## Processes -/

/-- `struct proc`, as far as memory is concerned. -/
structure Proc where
  sz : ℕ
  pgdir : ℕ
  kstack : ℕ

/-- Physical memory, and who has which part of it. -/
structure Sys where
  mem : Mem
  kpgdir : ℕ
  /-- the stacks of the processors that `startothers` has started -/
  cpustacks : List ℕ
  /-- the entries of `ptable` that are not `UNUSED` -/
  proc : Slot → Option Proc
  /-- the pages of the pipes -/
  pipes : List ℕ

/-! ## The functions -/

/-- `startothers`, with `n` processors left: their stacks. -/
def startothers : ℕ → M (List ℕ)
  | 0 => pure []
  | n + 1 => do
    match ← kalloc with
    -- the processor would use the memory at 0 as its stack
    | none => throw .trap
    | some stack => do
      let cpustacks ← startothers n
      pure (stack :: cpustacks)

/-- `userinit` -/
def userinit (initcode : List UInt8) : M Proc := do
  match ← kalloc with
  -- `p` is a null pointer
  | none => throw .trap
  | some kstack => do
    match ← setupkvm with
    | none => throw (.panic "userinit: out of memory?")
    | some pgdir => do
      inituvm pgdir initcode
      pure { sz := PGSIZE, pgdir := pgdir, kstack := kstack }

/-- `main` on `ncpu` processors. -/
def main (ncpu : ℕ) (initcode : List UInt8) : M (ℕ × List ℕ × Proc) := do
  let s ← get
  -- kinit1
  freerange s.kend (4 * 1024 * 1024)
  -- kvmalloc
  match ← setupkvm with
  -- the processor would use the memory at 0 as its page directory
  | none => throw .trap
  | some kpgdir => do
    let cpustacks ← startothers (ncpu - 1)
    -- kinit2
    freerange (4 * 1024 * 1024) PHYSTOP
    let p ← userinit initcode
    pure (kpgdir, cpustacks, p)

/-- The part of `fork` that takes memory, for a new process. -/
def fork (p : Proc) : M (Option Proc) := do
  -- allocproc
  match ← kalloc with
  | none => pure none
  | some kstack => do
    match ← copyuvm p.pgdir p.sz with
    | none => do
      kfree kstack
      pure none
    | some pgdir => pure (some { sz := p.sz, pgdir := pgdir, kstack := kstack })

/-- `growproc`: the new size, or `none` for `-1`. -/
def growproc (p : Proc) (n : Int32) : M (Option ℕ) :=
  if n.toInt > 0 then do
    let sz ← allocuvm p.pgdir p.sz ((p.sz + n.toInt) % 2 ^ 32).toNat
    if sz = 0 then pure none else pure (some sz)
  else if n.toInt < 0 then do
    let sz ← deallocuvm p.pgdir p.sz ((p.sz + n.toInt) % 2 ^ 32).toNat
    if sz = 0 then pure none else pure (some sz)
  else pure (some p.sz)

/-- The part of `wait` that frees the memory of a process. -/
def reap (p : Proc) : M Unit := do
  kfree p.kstack
  freevm p.pgdir

/-- A program reads a byte, or there is a page fault. -/
def readByte (p : Proc) (va : ℕ) : M (Option UInt8) := do
  let s ← get
  match s.user p.pgdir va false with
  | none => pure none
  | some pa => pure (some (s.frame (pa / PGSIZE) (pa % PGSIZE)))

/-- A program writes a byte, or there is a page fault. -/
def writeByte (p : Proc) (va : ℕ) (b : UInt8) : M Bool := do
  let s ← get
  match s.user p.pgdir va true with
  | none => pure false
  | some pa => do
    set (s.setFrame pa (overlay (s.frame (pa / PGSIZE)) (pa % PGSIZE) [b]))
    pure true

/-! ## The system -/

/-- What may happen: system calls of the process in a slot, the end of `wait` for it in its parent,
and what its program does. -/
inductive Act
  | fork (i : Slot)
  | sbrk (i : Slot) (n : Int32)
  | exec (i : Slot) (file : List UInt8) (argv : List (List UInt8))
  | reap (i : Slot)
  | load (i : Slot) (va : ℕ)
  | store (i : Slot) (va : ℕ) (b : UInt8)
  | pipealloc
  | pipeclose (k : ℕ)

/-- What has happened: with what the calls return, and with what a program has read. -/
inductive Event
  | forked (i : Slot) (r : Option Slot)
  | sbrk (i : Slot) (n : Int32) (r : Option ℕ)
  | exec (i : Slot) (file : List UInt8) (argv : List (List UInt8)) (r : Option (ℕ × ℕ))
  | reaped (i : Slot)
  | load (i : Slot) (va : ℕ) (r : Option UInt8)
  | store (i : Slot) (va : ℕ) (b : UInt8) (done : Bool)
  | pipe

/-- A function that works on physical memory runs to its end. -/
def Sys.call {α : Type} (m : M α) (s : Sys) (next : α → Sys → Sys × Event) :
    Reaction Stop Sys Event :=
  match m.run s.mem with
  | .error e => .fails e
  | .ok (a, mem) => .goes (next a { s with mem := mem }).1 [(next a { s with mem := mem }).2]

/-- The process in a slot is another one. -/
def Sys.setProc (i : Slot) (p : Option Proc) (s : Sys) : Sys :=
  { s with proc := Function.update s.proc i p }

/-- The process in a slot does something. -/
def Sys.act (i : Slot) (s : Sys) (m : Proc → Reaction Stop Sys Event) : Reaction Stop Sys Event :=
  match s.proc i with
  | none => .off
  | some p => m p

/-- The actions. -/
def step : Act → Sys → Reaction Stop Sys Event
  | .fork i, s => s.act i fun p =>
    match (List.finRange _).find? fun j => (s.proc j).isNone with
    | none => .goes s [.forked i none]
    | some j => s.call (fork p) fun r s =>
      match r with
      | none => (s, .forked i none)
      | some np => (s.setProc j (some np), .forked i (some j))
  | .sbrk i n, s => s.act i fun p => s.call (growproc p n) fun r s =>
    match r with
    | none => (s, .sbrk i n none)
    | some sz => (s.setProc i (some { p with sz := sz }), .sbrk i n (some p.sz))
  | .exec i file argv, s => s.act i fun p => s.call (exec p.pgdir file argv) fun r s =>
    match r with
    | none => (s, .exec i file argv none)
    | some new => (s.setProc i (some { p with sz := new.sz, pgdir := new.pgdir }),
        .exec i file argv (some (new.eip, new.esp)))
  | .reap i, s => s.act i fun p => s.call (reap p) fun _ s => (s.setProc i none, .reaped i)
  | .load i va, s => s.act i fun p => s.call (readByte p va) fun r s => (s, .load i va r)
  | .store i va b, s =>
    s.act i fun p => s.call (writeByte p va b) fun done s => (s, .store i va b done)
  | .pipealloc, s => s.call kalloc fun r s =>
    match r with
    | none => (s, .pipe)
    | some page => ({ s with pipes := page :: s.pipes }, .pipe)
  | .pipeclose k, s =>
    match s.pipes[k]? with
    | none => .off
    | some page => s.call (kfree page) fun _ s => ({ s with pipes := s.pipes.eraseIdx k }, .pipe)

/-- What the actions may be: addresses have 32 bits, and a file that is loaded has less than
`2 ^ 31` bytes. The arguments of `exec` have less than 32 megabytes each. The source does not check
this, and it is a defect: with a longer argument the stack pointer wraps around to where there are
no page tables (`push_gap`), and `copyout` writes to any frame that the calling program names in its
first word (`wp_copyout_null`, `copyout_foreign`). Without the bound the results on isolation and on
the holders of frames are false. -/
def Act.Ok : Act → Prop
  | .exec _ file argv => file.length < 2 ^ 31 ∧ ∀ arg ∈ argv, arg.length < 2 ^ 25
  | .load _ va => va < 2 ^ 32
  | .store _ va _ => va < 2 ^ 32
  | _ => True

theorem NPROC_pos : 0 < Descriptors.NPROC := by decide

/-- The system when `main` has started the first process. -/
def Sys.boot (r : ℕ × List ℕ × Proc) (mem : Mem) : Sys where
  mem := mem
  kpgdir := r.1
  cpustacks := r.2.1
  proc := Function.update (fun _ => none) ⟨0, NPROC_pos⟩ (some r.2.2)
  pipes := []

/-! ## What processes are to see -/

/-- The images of the processes. -/
abbrev Users : Type := Slot → Option Image

/-- What a program finds at an address. -/
def Image.get (va : ℕ) (I : Image) : Option UInt8 :=
  match I.page (va / PGSIZE) with
  | none => none
  | some pg => if pg.user then some (pg.data (va % PGSIZE)) else none

/-- What `sbrk` does when it returns `r`. It may fail to make the memory larger. It fails to take
away all of it, although the memory is gone. And it takes away nothing when it is to take away more
than there is. -/
def Image.sbrk (n : Int32) (I : Image) : Option ℕ → Option Image
  | some addr =>
    if addr ≠ I.sz ∨ KERNBASE ≤ I.sz + n.toInt ∨ I.sz + n.toInt = 0 then none
    else if I.sz + n.toInt < 0 then some I
    else some (I.resize (I.sz + n.toInt).toNat)
  | none =>
    if 0 < n.toInt then some I
    else if I.sz + n.toInt = 0 then some { I with page := fun _ => none }
    else none

/-- What processes are to see. -/
def accept : Event → Users → Option Users
  | .forked i r, σ => do
    let I ← σ i
    match r with
    | none => some σ
    | some j => if (σ j).isNone then some (Function.update σ j (some I)) else none
  | .sbrk i n r, σ => do
    let I ← σ i
    let J ← I.sbrk n r
    some (Function.update σ i (some J))
  | .exec i file argv r, σ => do
    let _ ← σ i
    match r with
    | none => some σ
    | some (eip, esp) => do
      let (J, eip', esp') ← Image.exec file argv
      if eip = eip' ∧ esp = esp' then some (Function.update σ i (some J)) else none
  | .reaped i, σ => do
    let _ ← σ i
    some (Function.update σ i none)
  | .load i va r, σ => do
    let I ← σ i
    if r = I.get va then some σ else none
  | .store i va b done, σ => do
    let I ← σ i
    if done = (I.get va).isSome then
      some (if done then Function.update σ i (some (I.write va [b])) else σ)
    else none
  | .pipe, σ => some σ

/-- The image of the first process. -/
def Image.init (initcode : List UInt8) : Image where
  sz := PGSIZE
  page := fun q => if q = 0 then some ⟨true, overlay (fun _ => 0) 0 initcode⟩ else none

/-- The first process alone. -/
def Users.boot (initcode : List UInt8) : Users :=
  Function.update (fun _ => none) ⟨0, NPROC_pos⟩ (some (Image.init initcode))

/-! ## Who has which frames -/

/-- Who may have a frame. -/
inductive Holder
  | free
  | kernel
  | space (i : Slot)
  | kstack (i : Slot)
  | cpustack
  | pipe

/-- The frames of the address space at `pgdir`: its page directory, its page tables and its
pages. -/
def Mem.space (pgdir : ℕ) (s : Mem) : Set ℕ :=
  {f | f * PGSIZE = pgdir ∨
    (∃ i < 1024, s.word (pgdir + 4 * i) &&& PTE_P ≠ 0 ∧
      PTE_ADDR (s.word (pgdir + 4 * i)) = f * PGSIZE) ∨
    ∃ i < 512, s.word (pgdir + 4 * i) &&& PTE_P ≠ 0 ∧ ∃ j < 1024,
      s.word (PTE_ADDR (s.word (pgdir + 4 * i)) + 4 * j) &&& PTE_P ≠ 0 ∧
        PTE_ADDR (s.word (PTE_ADDR (s.word (pgdir + 4 * i)) + 4 * j)) = f * PGSIZE}

end HgXv6.Phys
