import HgXv6.Kernel.PhysMem

set_option relaxedAutoImplicit false
set_option autoImplicit false

/-!
# Loading a program

`exec` (`exec.c`) and the functions of `vm.c` that it alone uses: an address space is built from the
segments of an ELF file, a page below the stack is made inaccessible, and the arguments are pushed
on the stack; then the address space of the process is exchanged for the new one. Whatever goes
wrong before that, the new address space is freed again.

The file is its contents, of which `readi` copies parts. The name of the process is left out.

## Main definitions

* `HgXv6.Phys.loaduvm`, `HgXv6.Phys.clearpteu`, `HgXv6.Phys.uva2ka`, `HgXv6.Phys.copyout` — the
  source functions of `vm.c`.
* `HgXv6.Phys.exec` — the source function.
-/

namespace HgXv6.Phys

open Prog
open Disk (Data uintBytes)
open Vm (PGSIZE NPTENTRIES PHYSTOP PTE_P PTE_W PTE_U PDX PTX PTE_ADDR PGROUNDUP PGROUNDDOWN PASSES)

/-! ## Files -/

/-- What `readi` copies of a file with the contents `file`, or `none` for `-1`. -/
def readi (file : List UInt8) (off n : ℕ) : Option (List UInt8) :=
  if off > file.length ∨ (off + n) % 2 ^ 32 < off then none else some ((file.drop off).take n)

/-- A `uint` in a structure, at an offset. -/
def uint (bs : List UInt8) (off : ℕ) : ℕ :=
  (bs.getD off 0).toNat + 2 ^ 8 * (bs.getD (off + 1) 0).toNat +
    2 ^ 16 * (bs.getD (off + 2) 0).toNat + 2 ^ 24 * (bs.getD (off + 3) 0).toNat

/-- A `ushort` in a structure, at an offset. -/
def ushort (bs : List UInt8) (off : ℕ) : ℕ :=
  (bs.getD off 0).toNat + 2 ^ 8 * (bs.getD (off + 1) 0).toNat

/-- `#define ELF_MAGIC 0x464C457FU` -/
abbrev ELF_MAGIC : ℕ := 0x464C457F

/-- `#define ELF_PROG_LOAD 1` -/
abbrev ELF_PROG_LOAD : ℕ := 1

/-- `#define MAXARG 32` -/
abbrev MAXARG : ℕ := 32

/-- `struct elfhdr`, as far as `exec` uses it. -/
structure Elfhdr where
  magic : ℕ
  entry : ℕ
  phoff : ℕ
  phnum : ℕ

/-- `struct elfhdr`, from its 52 bytes. -/
def Elfhdr.ofBytes (bs : List UInt8) : Elfhdr where
  magic := uint bs 0
  entry := uint bs 24
  phoff := uint bs 28
  phnum := ushort bs 44

/-- `struct proghdr`, as far as `exec` uses it. -/
structure Proghdr where
  type : ℕ
  off : ℕ
  vaddr : ℕ
  filesz : ℕ
  memsz : ℕ

/-- `struct proghdr`, from its 32 bytes. -/
def Proghdr.ofBytes (bs : List UInt8) : Proghdr where
  type := uint bs 0
  off := uint bs 4
  vaddr := uint bs 8
  filesz := uint bs 16
  memsz := uint bs 20

/-! ## Writing into an address space -/

/-- The loop of `loaduvm` from `i` on, in at most `k` passes: whether it succeeds. -/
def loadLoop (pgdir addr : ℕ) (file : List UInt8) (offset sz : ℕ) : ℕ → ℕ → M Bool
  | 0, _ => throw .loops
  | k + 1, i =>
    if i < sz then do
      match ← walkpgdir pgdir ((addr + i) % 2 ^ 32) false with
      | none => throw (.panic "loaduvm: address should exist")
      | some pte => do
        let s ← get
        let pa := PTE_ADDR (s.word pte)
        let n := if sz - i < PGSIZE then sz - i else PGSIZE
        match readi file ((offset + i) % 2 ^ 32) n with
        | none => pure false
        | some bs => do
          modify fun s => s.setFrame pa (overlay (s.frame (pa / PGSIZE)) 0 bs)
          if bs.length ≠ n then pure false
          else loadLoop pgdir addr file offset sz k ((i + PGSIZE) % 2 ^ 32)
    else pure true

/-- `loaduvm`: whether it succeeds. -/
def loaduvm (pgdir addr : ℕ) (file : List UInt8) (offset sz : ℕ) : M Bool :=
  if addr % PGSIZE ≠ 0 then throw (.panic "loaduvm: addr must be page aligned")
  else loadLoop pgdir addr file offset sz PASSES 0

/-- `clearpteu` -/
def clearpteu (pgdir uva : ℕ) : M Unit := do
  match ← walkpgdir pgdir uva false with
  | none => throw (.panic "clearpteu")
  | some pte => do
    let s ← get
    modify (Mem.setWord pte (s.word pte - (s.word pte &&& PTE_U)))

/-- What the kernel reads at the address 0 of the address space in use: it is an address of the
program, which is there or not. -/
def readNull (cur : ℕ) : M ℕ := do
  match ← walkpgdir cur 0 false with
  | none => throw (.panic "trap")
  | some pte => do
    let s ← get
    if s.word pte &&& PTE_P = 0 then throw (.panic "trap")
    else pure (s.word (PTE_ADDR (s.word pte)))

/-- `uva2ka`, when the address space at `cur` is in use: the physical address of a page that the
program may use. -/
def uva2ka (cur pgdir uva : ℕ) : M (Option ℕ) := do
  let pte ← match ← walkpgdir pgdir uva false with
    -- a null pointer
    | none => readNull cur
    | some pte => do
      let s ← get
      pure (s.word pte)
  if pte &&& PTE_P = 0 then pure none
  else if pte &&& PTE_U = 0 then pure none
  else pure (some (PTE_ADDR pte))

/-- The loop of `copyout`, in at most `k` passes: whether it succeeds. -/
def copyoutLoop (cur pgdir : ℕ) : ℕ → ℕ → List UInt8 → M Bool
  | 0, _, _ => throw .loops
  | k + 1, va, buf =>
    if buf.length > 0 then do
      let va0 := PGROUNDDOWN va
      match ← uva2ka cur pgdir va0 with
      | none => pure false
      | some pa0 => do
        let n := if PGSIZE - (va - va0) > buf.length then buf.length else PGSIZE - (va - va0)
        modify fun s =>
          s.setFrame pa0 (overlay (s.frame (pa0 / PGSIZE)) (va - va0) (buf.take n))
        copyoutLoop cur pgdir k ((va0 + PGSIZE) % 2 ^ 32) (buf.drop n)
    else pure true

/-- `copyout`: whether it succeeds. -/
def copyout (cur pgdir va : ℕ) (buf : List UInt8) : M Bool := copyoutLoop cur pgdir PASSES va buf

/-! ## `exec` -/

/-- The loop over the program headers, of which `k` are left: the size of the program, or `none` for
`goto bad`. -/
def loadProgram (pgdir : ℕ) (file : List UInt8) : ℕ → ℕ → ℕ → M (Option ℕ)
  | 0, _, sz => pure (some sz)
  | k + 1, off, sz =>
    match readi file off 32 with
    | none => pure none
    | some bs =>
      let ph := Proghdr.ofBytes bs
      if bs.length ≠ 32 then pure none
      else if ph.type ≠ ELF_PROG_LOAD then loadProgram pgdir file k ((off + 32) % 2 ^ 32) sz
      else if ph.memsz < ph.filesz then pure none
      else if (ph.vaddr + ph.memsz) % 2 ^ 32 < ph.vaddr then pure none
      else do
        let sz ← allocuvm pgdir sz ((ph.vaddr + ph.memsz) % 2 ^ 32)
        if sz = 0 then pure none
        else if ph.vaddr % PGSIZE ≠ 0 then pure none
        else if ← loaduvm pgdir ph.vaddr file ph.off ph.filesz then
          loadProgram pgdir file k ((off + 32) % 2 ^ 32) sz
        else pure none

/-- The loop that pushes the arguments, behind those at the addresses `ptrs`: the stack pointer and
the addresses. -/
def pushArgs (cur pgdir : ℕ) : List (List UInt8) → ℕ → List ℕ → M (Option (ℕ × List ℕ))
  | [], sp, ptrs => pure (some (sp, ptrs))
  | arg :: argv, sp, ptrs =>
    if ptrs.length ≥ MAXARG then pure none
    else do
      let sp := (sp + 2 ^ 32 - (arg.length + 1)) % 2 ^ 32 / 4 * 4
      if ← copyout cur pgdir sp (arg ++ [0]) then pushArgs cur pgdir argv sp (ptrs ++ [sp])
      else pure none

/-- `ustack`, for the stack pointer behind the arguments. -/
def ustack (sp : ℕ) (ptrs : List ℕ) : List ℕ :=
  [0xffffffff, -- fake return PC
    ptrs.length,
    (sp + 2 ^ 32 - (ptrs.length + 1) * 4) % 2 ^ 32] ++ -- argv pointer
    ptrs ++ [0]

/-- A program that has been loaded. -/
structure Loaded where
  pgdir : ℕ
  sz : ℕ
  eip : ℕ
  esp : ℕ

/-- The part of `exec` between the loading of a program of size `sz` and the commit. -/
@[irreducible] def startImage (cur pgdir entry : ℕ) (argv : List (List UInt8)) (sz : ℕ) :
    M (Option Loaded) := do
  -- Allocate two pages at the next page boundary.
  -- Make the first inaccessible. Use the second as the user stack.
  let sz ← allocuvm pgdir (PGROUNDUP sz) ((PGROUNDUP sz + 2 * PGSIZE) % 2 ^ 32)
  if sz = 0 then pure none
  else do
    clearpteu pgdir (sz - 2 * PGSIZE)
    match ← pushArgs cur pgdir argv sz [] with
    | none => pure none
    | some (sp, ptrs) => do
      let esp := (sp + 2 ^ 32 - (3 + ptrs.length + 1) * 4) % 2 ^ 32
      if ← copyout cur pgdir esp ((ustack sp ptrs).flatMap uintBytes) then
        pure (some { pgdir := pgdir, sz := sz, eip := entry, esp := esp })
      else pure none

/-- The part of `exec` between `setupkvm` and the commit. -/
def loadImage (cur pgdir : ℕ) (elf : Elfhdr) (file : List UInt8) (argv : List (List UInt8)) :
    M (Option Loaded) := do
  match ← loadProgram pgdir file elf.phnum elf.phoff 0 with
  | none => pure none
  | some sz => startImage cur pgdir elf.entry argv sz

/-- `exec` in a process with the address space at `cur`: the program that the process goes on with,
or `none` for `-1`. -/
def exec (cur : ℕ) (file : List UInt8) (argv : List (List UInt8)) : M (Option Loaded) := do
  match readi file 0 52 with
  | none => pure none
  | some bs =>
    let elf := Elfhdr.ofBytes bs
    if bs.length < 52 then pure none
    else if elf.magic ≠ ELF_MAGIC then pure none
    else do
      match ← setupkvm with
      | none => pure none
      | some pgdir => do
        match ← loadImage cur pgdir elf file argv with
        | none => do
          freevm pgdir
          pure none
        | some loaded => do
          -- Commit to the user image.
          freevm cur
          pure (some loaded)

end HgXv6.Phys
