import HgXv6.Kernel.UserBuffer
import HgXv6.Lib.Loop

set_option relaxedAutoImplicit false
set_option autoImplicit false

/-!
# The user-space allocator

`malloc` and `free` of the user library (`umalloc.c`), and the `sbrk` they get memory from. The
memory is a map from addresses to headers of eight bytes: every address that the routines look at
is that of the static header `base` or a multiple of eight in the heap, and the header of eight
bytes at such an address is a cell of its own. What a program stores in its blocks changes cells
too, and the routines never rely on them.

## Main definitions

* `HgXv6.Umalloc.Header`, `HgXv6.Umalloc.Heap` — the memory with the variables of the routines
  and of the process.
* `HgXv6.Umalloc.sbrk` — the system call.
* `HgXv6.Umalloc.free`, `HgXv6.Umalloc.morecore`, `HgXv6.Umalloc.malloc` — the routines.
-/

namespace HgXv6.Umalloc

open Prog

/-- `#define PGSIZE 4096` -/
abbrev PGSIZE : ℕ := 4096

/-- `union header` -/
structure Header where
  ptr : ℕ
  size : ℕ
deriving DecidableEq

/-- The memory of a process, as far as the routines use it. -/
structure Heap where
  mem : ℕ → Header
  /-- `freep`; zero is the null pointer -/
  freep : ℕ
  /-- `proc->sz` -/
  brk : ℕ
  /-- whether the kernel has memory left at each call of `sbrk` -/
  kernel : ℕ → Bool
  /-- number of calls of `sbrk` so far -/
  sbrks : ℕ

namespace Heap

/-- `p->s.ptr` -/
def ptr (h : Heap) (p : ℕ) : ℕ := (h.mem p).ptr

/-- `p->s.size` -/
def size (h : Heap) (p : ℕ) : ℕ := (h.mem p).size

/-- `p->s.ptr = ptr; p->s.size = size;` -/
def setHeader (p ptr size : ℕ) (h : Heap) : Heap :=
  { h with mem := Function.update h.mem p { ptr := ptr, size := size } }

end Heap

/-- `p + n` for a pointer to a header -/
def advance (p n : ℕ) : ℕ := (p + n * 8) % 2 ^ 32

/-! ## Memory from the kernel -/

/-- `allocuvm(pgdir, oldsz, newsz)`, for a kernel with enough memory left or not -/
def allocuvm (room : Bool) (oldsz newsz : ℕ) : ℕ :=
  if KERNBASE ≤ newsz then 0
  else if newsz < oldsz then oldsz
  else if room then newsz
  else 0

/-- `deallocuvm(pgdir, oldsz, newsz)` -/
def deallocuvm (oldsz newsz : ℕ) : ℕ := if oldsz ≤ newsz then oldsz else newsz

/-- `growproc(n)`: the new size of the process, or zero. -/
def growproc (room : Bool) (n : ℤ) (sz : ℕ) : ℕ :=
  if 0 < n then allocuvm room sz (((sz + n) % 2 ^ 32).toNat)
  else if n < 0 then deallocuvm sz (((sz + n) % 2 ^ 32).toNat)
  else sz

/-- `sbrk(n)`: the old end of the memory, or nothing for `-1`. -/
def sbrk (n : ℤ) (h : Heap) : Option ℕ × Heap :=
  let sz := growproc (h.kernel h.sbrks) n h.brk
  if n ≠ 0 ∧ sz = 0 then (none, { h with sbrks := h.sbrks + 1 })
  else (some h.brk, { h with brk := sz, sbrks := h.sbrks + 1 })

/-- A `uint` read as an `int`. -/
def toInt (n : ℕ) : ℤ := if n % 2 ^ 32 < 2 ^ 31 then n % 2 ^ 32 else (n % 2 ^ 32 : ℤ) - 2 ^ 32

/-! ## Giving back -/

/-- `if(b + b->s.size == r){ b->s.size += r->s.size; b->s.ptr = r->s.ptr; } else b->s.ptr = r;` -/
def join (b r : ℕ) (h : Heap) : Heap :=
  if advance b (h.size b) = r then h.setHeader b (h.ptr r) ((h.size b + h.size r) % 2 ^ 32)
  else h.setHeader b r (h.size b)

/-- One test of the loop of `free`: the loop is left at the place of `bp`. -/
def freeBody (h : Heap) (bp p : ℕ) : Except Stop (ℕ × Bool) :=
  if p < bp ∧ bp < h.ptr p then .ok (p, false)
  else if h.ptr p ≤ p ∧ (p < bp ∨ bp < h.ptr p) then .ok (p, false)
  else .ok (h.ptr p, true)

/-- `free` -/
def free (fuel : ℕ) (ap : ℕ) (h : Heap) : Except Stop Heap :=
  let bp := ap - 8
  loopFuel .loops (freeBody h bp) fuel h.freep >>= fun p =>
    .ok { join p bp (join bp (h.ptr p) h) with freep := p }

/-- `morecore` -/
def morecore (fuel nu : ℕ) (h : Heap) : Except Stop (ℕ × Heap) :=
  let nu := if nu < 4096 then 4096 else nu
  match sbrk (toInt (nu * 8)) h with
  | (none, h) => .ok (0, h)
  | (some hp, h) =>
    free fuel (advance hp 1) (h.setHeader hp (h.ptr hp) nu) >>= fun h => .ok (h.freep, h)

/-! ## Allocating -/

/-- `(nbytes + sizeof(Header) - 1)/sizeof(Header) + 1` -/
def nunits (nbytes : ℕ) : ℕ := (nbytes + 8 - 1) % 2 ^ 32 / 8 + 1

/-- The variables of the loop of `malloc`; at its end `p` is the pointer to return. -/
structure Scan where
  prevp : ℕ
  p : ℕ
  heap : Heap

/-- The block at `p` behind `prevp` is taken, its tail if it is too large. -/
def takeBlock (nunits : ℕ) (x : Scan) : Scan :=
  if x.heap.size x.p = nunits then
    let h := x.heap.setHeader x.prevp (x.heap.ptr x.p) (x.heap.size x.prevp)
    { x with p := advance x.p 1, heap := { h with freep := x.prevp } }
  else
    let h := x.heap.setHeader x.p (x.heap.ptr x.p) (x.heap.size x.p - nunits)
    let p := advance x.p (h.size x.p)
    let h := h.setHeader p (h.ptr p) nunits
    { x with p := advance p 1, heap := { h with freep := x.prevp } }

/-- One pass of the loop of `malloc`. -/
def mallocBody (nunits fuel : ℕ) (x : Scan) : Except Stop (Scan × Bool) :=
  if nunits ≤ x.heap.size x.p then .ok (takeBlock nunits x, false)
  else if x.p = x.heap.freep then
    morecore fuel nunits x.heap >>= fun (p, h) =>
      if p = 0 then .ok ({ x with p := 0, heap := h }, false)
      else .ok ({ prevp := p, p := h.ptr p, heap := h }, true)
  else .ok ({ x with prevp := x.p, p := x.heap.ptr x.p }, true)

/-- `if((prevp = freep) == 0){ base.s.ptr = freep = prevp = &base; base.s.size = 0; }` -/
def initFreep (base : ℕ) (h : Heap) : Heap :=
  if h.freep = 0 then { h.setHeader base base 0 with freep := base } else h

/-- `malloc`: the pointer it returns. -/
def malloc (base fuel nbytes : ℕ) (h : Heap) : Except Stop (ℕ × Heap) :=
  let h := initFreep base h
  loopFuel .loops (mallocBody (nunits nbytes) fuel) fuel
    { prevp := h.freep, p := h.ptr h.freep, heap := h } >>= fun x => .ok (x.p, x.heap)

/-! ## What the changes leave alone -/

namespace Heap

variable (h : Heap) (p q r n : ℕ)

@[simp] theorem setHeader_brk : (h.setHeader p r n).brk = h.brk := rfl

@[simp] theorem setHeader_freep : (h.setHeader p r n).freep = h.freep := rfl

@[simp] theorem setHeader_ptr : (h.setHeader p r n).ptr p = r := by simp [setHeader, ptr]

@[simp] theorem setHeader_size : (h.setHeader p r n).size p = n := by simp [setHeader, size]

variable {p q}

@[simp] theorem setHeader_ptr_of_ne (hne : q ≠ p) : (h.setHeader p r n).ptr q = h.ptr q := by
  simp [setHeader, ptr, Function.update_of_ne hne]

@[simp] theorem setHeader_size_of_ne (hne : q ≠ p) : (h.setHeader p r n).size q = h.size q := by
  simp [setHeader, size, Function.update_of_ne hne]

end Heap

end HgXv6.Umalloc
