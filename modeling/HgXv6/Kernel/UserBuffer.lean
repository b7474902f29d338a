import HgXv6.Kernel.FileSystem

set_option relaxedAutoImplicit false
set_option autoImplicit false

/-!
# Buffers of user programs

How `sys_read` and `sys_write` fetch their arguments (`syscall.c`), and which addresses of the
process the kernel stores to or loads from on behalf of the call (`file.c`, `fs.c`, `pipe.c`,
`console.c`).

Addresses and argument words are 32 bits wide. A length is signed where it is compared with a
signed counter, and unsigned where `readi` and `writei` take it; `argptr` adds it to an unsigned
pointer. What the rest of the system does while the call sleeps is a parameter: how many bytes a
pipe or the console gives or takes before the call ends.

## Main definitions

* `HgXv6.Proc`, `HgXv6.Proc.argint`, `HgXv6.Proc.argptr` — a process and its arguments.
* `HgXv6.UserFile`, `HgXv6.fileread`, `HgXv6.Proc.filewrite` — the addresses they access.
* `HgXv6.Transfer.accesses` — the accesses of a whole call.
* `HgXv6.Transfer.Overruns` — a read of a negative length that `readi` turns into a long one.

## Main results

* `HgXv6.argptr_inside` — a buffer of a length that is not negative lies inside the process.
* `HgXv6.accesses_inside_iff` — the accesses stay inside exactly if the call is no overrun.
-/

namespace HgXv6

open Prog

/-! ## Arguments -/

/-- `#define KERNBASE 0x80000000` -/
abbrev KERNBASE : ℕ := 0x80000000

/-- The user part of a process. `allocuvm` refuses every size from `KERNBASE` on. -/
structure Proc where
  sz : ℕ
  sz_lt : sz < KERNBASE
  /-- `tf->esp` -/
  esp : BitVec 32
  mem : ℕ → UInt8

namespace Proc

variable (p : Proc)

/-- `*(int*)(addr)` -/
def word (addr : BitVec 32) : BitVec 32 :=
  (p.mem (addr.toNat + 3)).toBitVec ++ (p.mem (addr.toNat + 2)).toBitVec ++
    (p.mem (addr.toNat + 1)).toBitVec ++ (p.mem addr.toNat).toBitVec

/-- `fetchint` -/
def fetchint (addr : BitVec 32) : Option (BitVec 32) :=
  if addr.toNat ≥ p.sz ∨ (addr + 4).toNat > p.sz then none else some (p.word addr)

/-- `argint` -/
def argint (n : ℕ) : Option (BitVec 32) := p.fetchint (p.esp + 4 + 4 * BitVec.ofNat 32 n)

/-- `argptr` -/
def argptr (n : ℕ) (size : BitVec 32) : Option (BitVec 32) :=
  match p.argint n with
  | none => none
  | some i => if i.toNat ≥ p.sz ∨ (i + size).toNat > p.sz then none else some i

/-- An address of the process. -/
def Inside (a : BitVec 32) : Prop := a.toNat < p.sz

instance (a : BitVec 32) : Decidable (p.Inside a) := inferInstanceAs (Decidable (_ < _))

end Proc

/-! ## Accesses -/

/-- The addresses `addr`, `addr + 1`, …, one for each of `n` bytes. -/
def span (addr : BitVec 32) (n : ℕ) : List (BitVec 32) :=
  (List.range n).map fun i => addr + BitVec.ofNat 32 i

/-- What an open file stands for. -/
inductive Target
  /-- a pipe: how many bytes it has for the reader, and how many it takes from the writer before
  the other end is closed or the process is killed -/
  | pipe (avail room : ℕ)
  /-- a device: whether `devsw` has an entry for it, and how many bytes a read of the console
  delivers -/
  | device (present : Bool) (typed : ℕ)
  /-- a regular file or a directory, of a size that `writei` allows -/
  | inode (ip : Inode) (size_le : ip.size ≤ MAXFILE * BSIZE)

/-- `struct file` -/
structure UserFile where
  readable : Bool
  writable : Bool
  off : ℕ
  target : Target

/-- `fileread`: the addresses it stores to. -/
def fileread (f : UserFile) (addr n : BitVec 32) : List (BitVec 32) :=
  if f.readable = false then []
  else match f.target with
    | .pipe avail _ => span addr (min n.toInt.toNat avail)
    | .device present typed => if present then span addr (min n.toInt.toNat typed) else []
    | .inode ip _ =>
      match readi f.off n.toNat ip with
      | .ok (some bs, _) => span addr bs.length
      | _ => []

/-- `filewrite`: the addresses it loads from. The bytes of a chunk are loaded when `writei` does
not refuse it. -/
def Proc.filewrite (p : Proc) (f : UserFile) (addr n : BitVec 32) : List (BitVec 32) :=
  if f.writable = false then []
  else match f.target with
    | .pipe _ room => span addr (min n.toInt.toNat room)
    | .device present _ => if present then span addr n.toInt.toNat else []
    | .inode ip _ =>
      let src := (span addr n.toInt.toNat).map fun a => p.mem a.toNat
      match filewriteLoop src.length src 0 f.off ip with
      | .ok (i, _, _) => span addr i
      | .error _ => []

/-- The two calls that take a buffer. -/
inductive Transfer
  | read
  | write
deriving DecidableEq

/-- `argfd(0, 0, &f)` -/
def Proc.argfd (p : Proc) (ofile : ℕ → Option UserFile) : Option UserFile :=
  match p.argint 0 with
  | none => none
  | some fd => if fd.toInt < 0 ∨ fd.toInt ≥ NOFILE then none else ofile fd.toNat

/-- `sys_read` and `sys_write`: the addresses accessed, or nothing if a check of the arguments
fails. -/
def Transfer.accesses (call : Transfer) (p : Proc) (ofile : ℕ → Option UserFile) :
    Option (List (BitVec 32)) :=
  match p.argfd ofile, p.argint 2 with
  | some f, some n =>
    match p.argptr 1 n with
    | none => none
    | some addr =>
      match call with
      | .read => some (fileread f addr n)
      | .write => some (p.filewrite f addr n)
  | _, _ => none

/-! ## Spans -/

/-- The addresses of a span that does not wrap around. -/
theorem toNat_of_mem_span {addr a : BitVec 32} {n : ℕ} (h : a ∈ span addr n)
    (hn : addr.toNat + n ≤ 2 ^ 32) : addr.toNat ≤ a.toNat ∧ a.toNat < addr.toNat + n := by
  obtain ⟨i, hi, rfl⟩ := List.mem_map.mp h
  have hi := List.mem_range.mp hi
  rw [BitVec.toNat_add, BitVec.toNat_ofNat, Nat.mod_eq_of_lt (a := i) (by omega),
    Nat.mod_eq_of_lt (by omega)]
  omega

/-- A span that does not wrap around is inside the process exactly if its end is. -/
theorem span_inside_iff (p : Proc) {addr : BitVec 32} {n : ℕ} (haddr : addr.toNat < p.sz)
    (hn : addr.toNat + n ≤ 2 ^ 32) :
    (∀ a ∈ span addr n, p.Inside a) ↔ addr.toNat + n ≤ p.sz := by
  constructor
  · intro hall
    rcases Nat.eq_zero_or_pos n with rfl | hpos
    · omega
    have hmem : addr + BitVec.ofNat 32 (n - 1) ∈ span addr n :=
      List.mem_map.mpr ⟨n - 1, List.mem_range.mpr (by omega), rfl⟩
    have hlast := hall _ hmem
    rw [Proc.Inside, BitVec.toNat_add, BitVec.toNat_ofNat,
      Nat.mod_eq_of_lt (a := n - 1) (by omega), Nat.mod_eq_of_lt (by omega)] at hlast
    omega
  · intro hend a ha
    have := toNat_of_mem_span ha hn
    unfold Proc.Inside
    omega

/-- A buffer that `argptr` has checked starts inside the process. -/
theorem argptr_lt {p : Proc} {k : ℕ} {n addr : BitVec 32} (h : p.argptr k n = some addr) :
    addr.toNat < p.sz ∧ (addr + n).toNat ≤ p.sz := by
  unfold Proc.argptr at h
  split at h
  · cases h
  · split_ifs at h with hout
    cases h
    omega

/-- A buffer that `argptr` has checked, of a length that is not negative, ends inside the
process. -/
theorem argptr_inside {p : Proc} {k : ℕ} {n addr : BitVec 32} (h : p.argptr k n = some addr)
    (hn : 0 ≤ n.toInt) : addr.toNat + n.toInt.toNat ≤ p.sz := by
  obtain ⟨hstart, hend⟩ := argptr_lt h
  have hsz := p.sz_lt
  rw [BitVec.toNat_add] at hend
  rw [BitVec.toInt_eq_toNat_cond] at hn ⊢
  split_ifs at hn ⊢ with hhalf
  · rw [Nat.mod_eq_of_lt (by unfold KERNBASE at hsz; omega)] at hend
    omega
  · have := n.isLt
    omega

/-- No transfer of at most a signed length leaves the process. -/
theorem span_argptr_inside {p : Proc} {k m : ℕ} {n addr : BitVec 32}
    (h : p.argptr k n = some addr) (hm : m ≤ n.toInt.toNat) :
    ∀ a ∈ span addr m, p.Inside a := by
  obtain ⟨hstart, -⟩ := argptr_lt h
  have hsz := p.sz_lt
  have hend : addr.toNat + m ≤ p.sz := by
    rcases le_or_gt 0 n.toInt with hn | hn
    · have := argptr_inside h hn
      omega
    · omega
  exact (span_inside_iff p hstart (by unfold KERNBASE at hsz; omega)).mpr hend

/-! ## Reading a file -/

/-- What `readi` returns of a file: nothing from behind its end or if the offset wraps around,
and else as much as there is. -/
theorem readi_length {off n : ℕ} {ip : Inode} (hsize : ip.size ≤ MAXFILE * BSIZE)
    (hn : n < 2 ^ 32) :
    (off ≤ ip.size ∧ off + n < 2 ^ 32 ∧ ∃ bs ip', readi off n ip = .ok (some bs, ip') ∧
      bs.length = min n (ip.size - off)) ∨
    (¬(off ≤ ip.size ∧ off + n < 2 ^ 32) ∧ readi off n ip = .ok (none, ip)) := by
  by_cases hoff : off > ip.size ∨ (off + n) % 2 ^ 32 < off
  · refine .inr ⟨?_, if_pos hoff⟩
    rintro ⟨h1, h2⟩
    rw [Nat.mod_eq_of_lt h2] at hoff
    omega
  · rw [not_or, not_lt, not_lt] at hoff
    have hwrap : off + n < 2 ^ 32 := by
      by_contra hge
      have h1 : off + n < 2 ^ 32 + 2 ^ 32 := by
        unfold MAXFILE NDIRECT NINDIRECT BSIZE at hsize
        omega
      rw [Nat.mod_eq_sub_mod (by omega), Nat.mod_eq_of_lt (by omega)] at hoff
      omega
    obtain ⟨ip', hread, -⟩ := readi_ok hoff.1 hsize hwrap
    exact .inl ⟨hoff.1, hwrap, _, ip', hread, by simp⟩

/-- The number of bytes a long write takes is at most what it is given. -/
theorem filewriteLoop_le (k : ℕ) (src : List UInt8) (i off : ℕ) (ip : Inode) :
    Ensures (filewriteLoop k src i off ip) fun r => r.1 ≤ i + src.length := by
  induction k generalizing src i off ip with
  | zero => exact (ensures_ok _ _).mpr (Nat.le_add_right _ _)
  | succ k ih =>
    unfold filewriteLoop
    split_ifs with hsrc
    · exact (ensures_ok _ _).mpr (Nat.le_add_right _ _)
    refine Ensures.bind (P := fun _ => True) (fun _ _ => trivial) ?_
    rintro ⟨r, ip'⟩ -
    dsimp only
    by_cases hneg : r < 0
    · rw [if_pos hneg]
      exact (ensures_ok _ _).mpr (Nat.le_add_right _ _)
    rw [if_neg hneg]
    by_cases hlen : r ≠ ((src.take maxWrite).length : ℤ)
    · rw [if_pos hlen]
      exact (ensures_error _ _).mpr trivial
    rw [if_neg hlen]
    rw [not_not, List.length_take] at hlen
    refine (ih _ _ _ _).mono fun x hx => ?_
    rw [List.length_drop] at hx
    omega

/-! ## Whole calls -/

/-- A read from a regular file or directory with a negative length: `argptr` accepts it, since
the pointer plus the length wraps around, `readi` takes it for a large unsigned one, and what is
left of the file does not fit behind the pointer. -/
def Overrun (p : Proc) (f : UserFile) (addr n : BitVec 32) : Prop :=
  f.readable = true ∧ n.toInt < 0 ∧ ∃ ip h, f.target = .inode ip h ∧ f.off ≤ ip.size ∧
    f.off + n.toNat < 2 ^ 32 ∧ p.sz < addr.toNat + (ip.size - f.off)

/-- The stores of a read stay inside the process exactly if it is no overrun.

**Proof sketch.** By the kind of file. A pipe and the device store at most as many bytes as `argptr`
has checked, or none if the count is negative, so they stay inside. `readi` takes the count as
unsigned: a negative one passes the check of `argptr` and is cut down to what the file has from the
offset on, and that many bytes are then stored. This leaves the memory of the process exactly if it
is an overrun. -/
theorem fileread_inside_iff {p : Proc} {f : UserFile} {k : ℕ} {n addr : BitVec 32}
    (h : p.argptr k n = some addr) :
    (∀ a ∈ fileread f addr n, p.Inside a) ↔ ¬Overrun p f addr n := by
  unfold fileread Overrun
  cases hread : f.readable with
  | false => simp
  | true =>
    rw [if_neg (by simp)]
    cases htarget : f.target with
    | pipe avail room =>
      refine iff_of_true (span_argptr_inside h (Nat.min_le_left _ _)) ?_
      rintro ⟨-, -, ip, hip, heq, -⟩
      cases heq
    | device present typed =>
      refine iff_of_true ?_ ?_
      · dsimp only
        split_ifs
        · exact span_argptr_inside h (Nat.min_le_left _ _)
        · simp
      · rintro ⟨-, -, ip, hip, heq, -⟩
        cases heq
    | inode ip hsize =>
      dsimp only
      obtain ⟨hstart, hend⟩ := argptr_lt h
      have hsz := p.sz_lt
      have hsize' := hsize
      unfold KERNBASE at hsz
      unfold MAXFILE NDIRECT NINDIRECT BSIZE at hsize'
      have hneg := n.isLt
      rcases @readi_length f.off n.toNat ip hsize n.isLt with ⟨hoff, hwrap, bs, ip', hr, hlen⟩ |
        ⟨hout, hr⟩
      · rw [hr]
        dsimp only
        rw [span_inside_iff p hstart (by omega), hlen]
        rcases le_or_gt 0 n.toInt with hn | hn
        · -- a length that is not negative
          have hin := argptr_inside h hn
          rw [BitVec.toInt_eq_toNat_cond] at hin hn
          split_ifs at hin hn
          · refine iff_of_true (by omega) ?_
            rintro ⟨-, hlt, -⟩
            rw [BitVec.toInt_eq_toNat_cond] at hlt
            split_ifs at hlt
            omega
          · omega
        · have hn' := hn
          rw [BitVec.toInt_eq_toNat_cond] at hn'
          split_ifs at hn'
          · omega
          rw [Nat.min_eq_right (by omega)]
          constructor
          · rintro hle ⟨-, -, ip₂, h₂, heq, -, -, hlt⟩
            obtain rfl := (Target.inode.inj heq)
            omega
          · intro hno
            by_contra hgt
            exact hno ⟨rfl, hn, ip, hsize, rfl, hoff, hwrap, by omega⟩
      · rw [hr]
        refine iff_of_true (by simp) ?_
        rintro ⟨-, -, ip₂, h₂, heq, h3, h4, -⟩
        obtain rfl := (Target.inode.inj heq)
        exact hout ⟨h3, h4⟩

/-- The loads of a write stay inside the process. -/
theorem filewrite_inside {p : Proc} (f : UserFile) {k : ℕ} {n addr : BitVec 32}
    (h : p.argptr k n = some addr) : ∀ a ∈ p.filewrite f addr n, p.Inside a := by
  unfold Proc.filewrite
  split_ifs
  · simp
  split
  · exact span_argptr_inside h (Nat.min_le_left _ _)
  · split_ifs
    · exact span_argptr_inside h le_rfl
    · simp
  · dsimp only
    split
    · rename_i hloop
      have hle := filewriteLoop_le _ _ _ _ _ _ hloop
      simp only [List.length_map, span, List.length_range] at hle
      exact span_argptr_inside h (by omega)
    · simp

namespace Transfer

/-- The accesses of the call stay inside the process. -/
def StaysInside (call : Transfer) (p : Proc) (ofile : ℕ → Option UserFile) : Prop :=
  ∀ as, call.accesses p ofile = some as → ∀ a ∈ as, p.Inside a

/-- The call is a read whose arguments make it an overrun. -/
def Overruns (call : Transfer) (p : Proc) (ofile : ℕ → Option UserFile) : Prop :=
  call = .read ∧ ∃ f n addr, p.argfd ofile = some f ∧ p.argint 2 = some n ∧
    p.argptr 1 n = some addr ∧ Overrun p f addr n

end Transfer

/-- The accesses of a call stay inside the process exactly if it is no overrun.

**Proof sketch.** Where an argument is refused there are no accesses, and no overrun either.
Otherwise by the call. A read stores what the file gives it, and the file gives more than was asked
for only where a negative count is taken for a large one; this is an overrun
(`fileread_inside_iff`). A write loads no more than was asked for (`filewrite_inside`), and is no
overrun. -/
theorem accesses_inside_iff (call : Transfer) (p : Proc) (ofile : ℕ → Option UserFile) :
    call.StaysInside p ofile ↔ ¬call.Overruns p ofile := by
  unfold Transfer.StaysInside Transfer.Overruns Transfer.accesses
  rcases hf : p.argfd ofile with _ | f
  · simp
  rcases hn : p.argint 2 with _ | n
  · simp
  dsimp only
  rcases ha : p.argptr 1 n with _ | addr
  · simp [ha]
  cases call with
  | read => simp [ha, fileread_inside_iff ha]
  | write => simpa using filewrite_inside f ha

/-- A process of one page that asks for -1 bytes at its last address, of a file of five bytes. -/
def lastByteProc : Proc where
  sz := 4096
  sz_lt := by decide
  esp := 0
  mem i := if i = 8 ∨ 12 ≤ i ∧ i < 16 then 0xff else if i = 9 then 0x0f else 0

/-- The only open file of that process. -/
def fiveBytes : ℕ → Option UserFile := fun _ =>
  some ⟨true, false, 0, .inode ⟨fun _ => some fun _ => 65, 5⟩ (by decide)⟩

/-- Its `read` stores behind the end of the process. -/
theorem not_forall_staysInside : ¬∀ call p ofile, Transfer.StaysInside call p ofile := by
  intro hall
  have hread : Transfer.read.accesses lastByteProc fiveBytes =
      some [4095, 4096, 4097, 4098, 4099] := by decide +kernel
  have := hall .read lastByteProc fiveBytes _ hread 4096 (by decide)
  exact absurd this (by decide)

end HgXv6
