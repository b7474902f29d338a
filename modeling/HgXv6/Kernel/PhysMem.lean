import HgXv6.Kernel.Disk
import HgXv6.Kernel.PageTable

set_option relaxedAutoImplicit false
set_option autoImplicit false

/-!
# Physical memory

The page allocator (`kalloc.c`) and the page tables (`vm.c`), down to the bytes of the pages of
physical memory: the list of free pages runs through the pages themselves, page directories and
page tables are pages of words, and so are the pages of the processes. A pointer to a page is its
physical address here, where the kernel has `P2V` of it; what is in memory is as the kernel has it.

A call runs to its end before the next one starts, so that `kmem.lock` is always free.

## Main definitions

* `HgXv6.Phys.Mem` — physical memory.
* `HgXv6.Phys.kalloc`, `HgXv6.Phys.kfree`, `HgXv6.Phys.freerange` — the source functions of
  `kalloc.c`.
* `HgXv6.Phys.walkpgdir`, `HgXv6.Phys.mappages`, `HgXv6.Phys.setupkvm`, `HgXv6.Phys.inituvm`,
  `HgXv6.Phys.allocuvm`, `HgXv6.Phys.deallocuvm`, `HgXv6.Phys.freevm`, `HgXv6.Phys.copyuvm` — those
  of `vm.c`.
* `HgXv6.Phys.Mem.user` — what the processor does with an address of a program.
-/

namespace HgXv6.Phys

open Prog
open Disk (Data getUint putUint)
open Vm (PGSIZE NPTENTRIES PHYSTOP PTE_P PTE_W PTE_U PDX PTX PTE_ADDR PGROUNDUP PGROUNDDOWN PASSES)

/-! ## Memory -/

/-- `#define EXTMEM 0x100000` -/
abbrev EXTMEM : ℕ := 0x100000

/-- `#define DEVSPACE 0xFE000000` -/
abbrev DEVSPACE : ℕ := 0xFE000000

/-- `#define NPDENTRIES 1024` -/
abbrev NPDENTRIES : ℕ := 1024

/-- `#define PTE_FLAGS(pte) ((uint)(pte) & 0xFFF)` -/
def PTE_FLAGS (pte : ℕ) : ℕ := pte % 2 ^ 12

/-- `#define V2P(a) (((uint) (a)) - KERNBASE)` -/
def V2P (a : ℕ) : ℕ := (a + 2 ^ 32 - KERNBASE) % 2 ^ 32

/-- `#define P2V(a) (((void *) (a)) + KERNBASE)` -/
def P2V (a : ℕ) : ℕ := (a + KERNBASE) % 2 ^ 32

/-- Physical memory, and what the linker and `kalloc.c` know of it. -/
structure Mem where
  /-- the pages, by the number of their frame -/
  frame : ℕ → Data
  /-- `kmem.freelist` -/
  freelist : ℕ
  /-- `V2P(end)` -/
  kend : ℕ
  /-- `V2P(data)` -/
  kdata : ℕ

/-- The programs of the kernel. -/
abbrev M := StateT Mem (Except Stop)

namespace Mem

/-- The word at a physical address. -/
def word (pa : ℕ) (s : Mem) : ℕ := getUint (s.frame (pa / PGSIZE)) (pa % PGSIZE / 4)

/-- A change to the page at a physical address. -/
def setFrame (pa : ℕ) (b : Data) (s : Mem) : Mem :=
  { s with frame := Function.update s.frame (pa / PGSIZE) b }

/-- A word is stored at a physical address. -/
def setWord (pa v : ℕ) (s : Mem) : Mem :=
  s.setFrame pa (putUint (pa % PGSIZE / 4) v (s.frame (pa / PGSIZE)))

/-- `memset(P2V(pa), c, PGSIZE)` -/
def fill (pa : ℕ) (c : UInt8) (s : Mem) : Mem := s.setFrame pa fun _ => c

end Mem

/-! ## The allocator -/

/-- `kfree` -/
def kfree (pa : ℕ) : M Unit := do
  let s ← get
  if pa % PGSIZE ≠ 0 ∨ pa < s.kend ∨ pa ≥ PHYSTOP then throw (.panic "kfree")
  else do
    -- Fill with junk to catch dangling refs.
    modify (Mem.fill pa 1)
    let s ← get
    modify (Mem.setWord pa s.freelist)
    modify fun s => { s with freelist := P2V pa }

/-- `kalloc` -/
def kalloc : M (Option ℕ) := do
  let s ← get
  if s.freelist = 0 then pure none
  else do
    set { s with freelist := s.word (V2P s.freelist) }
    pure (some (V2P s.freelist))

/-- The loop of `freerange`, in at most `k` passes. -/
def freeLoop (vend : ℕ) : ℕ → ℕ → M Unit
  | 0, _ => throw .loops
  | k + 1, p =>
    if p + PGSIZE ≤ vend then do
      kfree p
      freeLoop vend k (p + PGSIZE)
    else pure ()

/-- `freerange` -/
@[irreducible] def freerange (vstart vend : ℕ) : M Unit := freeLoop vend PASSES (PGROUNDUP vstart)

/-! ## Page tables -/

/-- `walkpgdir`: the physical address of the entry. -/
def walkpgdir (pgdir va : ℕ) (alloc : Bool) : M (Option ℕ) := do
  let s ← get
  let pde := pgdir + 4 * PDX va
  if s.word pde &&& PTE_P ≠ 0 then pure (some (PTE_ADDR (s.word pde) + 4 * PTX va))
  else if alloc = false then pure none
  else do
    match ← kalloc with
    | none => pure none
    | some pgtab => do
      -- Make sure all those PTE_P bits are zero.
      modify (Mem.fill pgtab 0)
      modify (Mem.setWord pde (pgtab ||| PTE_P ||| PTE_W ||| PTE_U))
      pure (some (pgtab + 4 * PTX va))

/-- The loop of `mappages`, in at most `k` passes: whether it succeeds. -/
def mapLoop (pgdir last perm : ℕ) : ℕ → ℕ → ℕ → M Bool
  | 0, _, _ => throw .loops
  | k + 1, a, pa => do
    match ← walkpgdir pgdir a true with
    | none => pure false
    | some pte => do
      let s ← get
      if s.word pte &&& PTE_P ≠ 0 then throw (.panic "remap")
      else do
        modify (Mem.setWord pte (pa ||| perm ||| PTE_P))
        if a = last then pure true
        else mapLoop pgdir last perm k ((a + PGSIZE) % 2 ^ 32) ((pa + PGSIZE) % 2 ^ 32)

/-- `mappages`: whether it succeeds. -/
def mappages (pgdir va size pa perm : ℕ) : M Bool :=
  mapLoop pgdir (PGROUNDDOWN ((va + size + 2 ^ 32 - 1) % 2 ^ 32)) perm PASSES (PGROUNDDOWN va) pa

/-- `struct kmap` -/
structure Kmap where
  virt : ℕ
  phys_start : ℕ
  phys_end : ℕ
  perm : ℕ

/-- `kmap` -/
def Mem.kmap (s : Mem) : List Kmap :=
  [ -- I/O space
    { virt := KERNBASE, phys_start := 0, phys_end := EXTMEM, perm := PTE_W },
    -- kern text+rodata
    { virt := P2V EXTMEM, phys_start := EXTMEM, phys_end := s.kdata, perm := 0 },
    -- kern data+memory
    { virt := P2V s.kdata, phys_start := s.kdata, phys_end := PHYSTOP, perm := PTE_W },
    -- more devices
    { virt := DEVSPACE, phys_start := DEVSPACE, phys_end := 0, perm := PTE_W } ]

/-- The loop of `setupkvm`. -/
def kmapLoop (pgdir : ℕ) : List Kmap → M (Option ℕ)
  | [] => pure (some pgdir)
  | k :: ks => do
    if ← mappages pgdir k.virt ((k.phys_end + 2 ^ 32 - k.phys_start) % 2 ^ 32) k.phys_start k.perm
    then kmapLoop pgdir ks
    else pure none

/-- `setupkvm` -/
def setupkvm : M (Option ℕ) := do
  match ← kalloc with
  | none => pure none
  | some pgdir => do
    modify (Mem.fill pgdir 0)
    if P2V PHYSTOP > DEVSPACE then throw (.panic "PHYSTOP too high")
    else do
      let s ← get
      kmapLoop pgdir s.kmap

/-- The loop of `deallocuvm`, in at most `k` passes. -/
def deallocLoop (pgdir oldsz : ℕ) : ℕ → ℕ → M Unit
  | 0, _ => throw .loops
  | k + 1, a =>
    if a < oldsz then do
      match ← walkpgdir pgdir a false with
      | none => deallocLoop pgdir oldsz k ((a + (NPTENTRIES - 1) * PGSIZE + PGSIZE) % 2 ^ 32)
      | some pte => do
        let s ← get
        if s.word pte &&& PTE_P ≠ 0 then
          if PTE_ADDR (s.word pte) = 0 then throw (.panic "kfree")
          else do
            kfree (PTE_ADDR (s.word pte))
            modify (Mem.setWord pte 0)
            deallocLoop pgdir oldsz k ((a + PGSIZE) % 2 ^ 32)
        else deallocLoop pgdir oldsz k ((a + PGSIZE) % 2 ^ 32)
    else pure ()

/-- `deallocuvm`: the new size. -/
def deallocuvm (pgdir oldsz newsz : ℕ) : M ℕ :=
  if newsz ≥ oldsz then pure oldsz
  else do
    deallocLoop pgdir oldsz PASSES (PGROUNDUP newsz)
    pure newsz

/-- The loop of `allocuvm`, in at most `k` passes: the new size, or zero. -/
def allocLoop (pgdir oldsz newsz : ℕ) : ℕ → ℕ → M ℕ
  | 0, _ => throw .loops
  | k + 1, a =>
    if a < newsz then do
      match ← kalloc with
      | none => do
        let _ ← deallocuvm pgdir newsz oldsz
        pure 0
      | some mem => do
        modify (Mem.fill mem 0)
        if ← mappages pgdir a PGSIZE mem (PTE_W ||| PTE_U) then
          allocLoop pgdir oldsz newsz k ((a + PGSIZE) % 2 ^ 32)
        else do
          let _ ← deallocuvm pgdir newsz oldsz
          kfree mem
          pure 0
    else pure newsz

/-- `allocuvm`: the new size, or zero. -/
def allocuvm (pgdir oldsz newsz : ℕ) : M ℕ :=
  if newsz ≥ KERNBASE then pure 0
  else if newsz < oldsz then pure oldsz
  else allocLoop pgdir oldsz newsz PASSES (PGROUNDUP oldsz)

/-- The loop of `freevm` over a part of the page directory. -/
def freeTables (pgdir : ℕ) : List ℕ → M Unit
  | [] => pure ()
  | i :: is => do
    let s ← get
    if s.word (pgdir + 4 * i) &&& PTE_P ≠ 0 then do
      kfree (PTE_ADDR (s.word (pgdir + 4 * i)))
      freeTables pgdir is
    else freeTables pgdir is

/-- `freevm` -/
def freevm (pgdir : ℕ) : M Unit := do
  if pgdir = 0 then throw (.panic "freevm: no pgdir")
  else do
    let _ ← deallocuvm pgdir KERNBASE 0
    freeTables pgdir (List.range NPDENTRIES)
    kfree pgdir

/-- `inituvm` -/
def inituvm (pgdir : ℕ) (init : List UInt8) : M Unit := do
  if init.length ≥ PGSIZE then throw (.panic "inituvm: more than a page")
  else do
    match ← kalloc with
    -- address 0 is not mapped
    | none => throw .trap
    | some mem => do
      modify (Mem.fill mem 0)
      let _ ← mappages pgdir 0 PGSIZE mem (PTE_W ||| PTE_U)
      modify fun s => s.setFrame mem (overlay (s.frame (mem / PGSIZE)) 0 init)

/-- The loop of `copyuvm`, in at most `k` passes: whether it succeeds. -/
def copyLoop (pgdir d sz : ℕ) : ℕ → ℕ → M Bool
  | 0, _ => throw .loops
  | k + 1, i =>
    if i < sz then do
      match ← walkpgdir pgdir i false with
      | none => throw (.panic "copyuvm: pte should exist")
      | some pte => do
        let s ← get
        if s.word pte &&& PTE_P = 0 then throw (.panic "copyuvm: page not present")
        else do
          match ← kalloc with
          | none => pure false
          | some mem => do
            modify fun t => t.setFrame mem (t.frame (PTE_ADDR (s.word pte) / PGSIZE))
            if ← mappages d i PGSIZE mem (PTE_FLAGS (s.word pte)) then
              copyLoop pgdir d sz k ((i + PGSIZE) % 2 ^ 32)
            else pure false
    else pure true

/-- `copyuvm` -/
def copyuvm (pgdir sz : ℕ) : M (Option ℕ) := do
  match ← setupkvm with
  | none => pure none
  | some d => do
    if ← copyLoop pgdir d sz PASSES 0 then pure (some d)
    else do
      freevm d
      pure none

/-! ## Programs -/

/-- The processor lets a program use what an entry refers to, and change it. -/
def allows (write : Bool) (entry : ℕ) : Prop :=
  entry &&& PTE_P ≠ 0 ∧ entry &&& PTE_U ≠ 0 ∧ (write → entry &&& PTE_W ≠ 0)

instance (write : Bool) (entry : ℕ) : Decidable (allows write entry) :=
  inferInstanceAs (Decidable (_ ∧ _))

/-- The physical address that the processor finds for an address of a program, if the program may
use it. -/
def Mem.user (pgdir va : ℕ) (write : Bool) (s : Mem) : Option ℕ :=
  let pde := s.word (pgdir + 4 * PDX va)
  if allows write pde then
    let pte := s.word (PTE_ADDR pde + 4 * PTX va)
    if allows write pte then some (PTE_ADDR pte + va % PGSIZE) else none
  else none

end HgXv6.Phys
