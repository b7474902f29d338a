import HgXv6.Kernel.File

set_option relaxedAutoImplicit false
set_option autoImplicit false

/-!
# Opening, writing and closing files

The file system calls of one process, on regular files (`sysfile.c`, `file.c`). Names are mapped
to inodes; directories, devices, pipes and second names of a file are left out, and the table of
open files of the whole system is taken to have room whenever that of the process has.

## Main definitions

* `HgXv6.FileSystem` — the files, and the descriptors of the process.
* `HgXv6.sysOpen`, `HgXv6.sysRead`, `HgXv6.sysWrite`, `HgXv6.sysClose` — the calls.

## Main results

* `HgXv6.sysOpen_ok` — `open` does not truncate, with `O_CREATE` or without.
* `HgXv6.sysRead_ok` — a read within a file.
* `HgXv6.sysWrite_ok` — a write within a file.
-/

namespace HgXv6

open Prog

/-! ## The calls -/

/-- `#define NOFILE 16` -/
abbrev NOFILE : ℕ := 16

/-- `#define O_RDONLY 0x000` -/
abbrev O_RDONLY : ℕ := 0x000

/-- `#define O_WRONLY 0x001` -/
abbrev O_WRONLY : ℕ := 0x001

/-- `#define O_RDWR 0x002` -/
abbrev O_RDWR : ℕ := 0x002

/-- `#define O_CREATE 0x200` -/
abbrev O_CREATE : ℕ := 0x200

/-- `struct file`, of a regular file -/
structure OpenFile where
  /-- the name of its inode -/
  path : List UInt8
  off : ℕ
  readable : Bool
  writable : Bool

/-- The regular files and the descriptors of the process. -/
structure FileSystem where
  file : List UInt8 → Option Inode
  /-- whether `create` finds a directory for the name, and no directory or device in its place -/
  creatable : List UInt8 → Bool
  /-- `proc->ofile` -/
  ofile : ℕ → Option OpenFile

/-- `argfd` -/
def argfd (fd : ℤ) (w : FileSystem) : Option OpenFile :=
  if fd < 0 ∨ fd ≥ NOFILE then none else w.ofile fd.toNat

/-- The descriptor `fdalloc` finds. -/
def fdalloc (w : FileSystem) : Option ℕ := (List.range NOFILE).find? fun fd => (w.ofile fd).isNone

/-- `create(path, T_FILE, 0, 0)`: an existing file is returned as it is. -/
def create (path : List UInt8) (w : FileSystem) : Option FileSystem :=
  match w.file path with
  | some _ => some w
  | none =>
    if w.creatable path then
      some { w with
        file := Function.update w.file path (some { block := fun _ => none, size := 0 }) }
    else none

/-- How `sys_open` sets up `*f`. -/
def openFile (path : List UInt8) (omode : ℕ) : OpenFile where
  path := path
  off := 0
  readable := omode &&& O_WRONLY == 0
  writable := omode &&& O_WRONLY != 0 || omode &&& O_RDWR != 0

/-- `sys_open` -/
def sysOpen (path : List UInt8) (omode : ℕ) (w : FileSystem) : ℤ × FileSystem :=
  let found := if omode &&& O_CREATE ≠ 0 then create path w
    else if (w.file path).isSome then some w else none
  match found with
  | none => (-1, w)
  | some w =>
    match fdalloc w with
    | none => (-1, w)
    | some fd => (fd, { w with ofile := Function.update w.ofile fd (some (openFile path omode)) })

/-- `sys_fstat`: the size. -/
def sysFstat (fd : ℤ) (w : FileSystem) : Option ℕ :=
  match argfd fd w with
  | none => none
  | some f => (w.file f.path).map (·.size)

/-- `sys_read` and `fileread`: the bytes read, or `none` for `-1`. -/
def sysRead (fd : ℤ) (n : ℤ) (w : FileSystem) :
    Except Stop (Option (List UInt8) × FileSystem) :=
  match argfd fd w with
  | none => .ok (none, w)
  | some f =>
    match w.file f.path with
    | none => .ok (none, w)
    | some ip =>
      if f.readable then
        readi f.off (n % 2 ^ 32).toNat ip >>= fun (bs, ip) =>
        let f := { f with off := f.off + (bs.getD []).length }
        .ok (bs, { w with
          file := Function.update w.file f.path (some ip)
          ofile := Function.update w.ofile fd.toNat (some f) })
      else .ok (none, w)

/-- `sys_write` -/
def sysWrite (fd : ℤ) (src : List UInt8) (w : FileSystem) : Except Stop (ℤ × FileSystem) :=
  match argfd fd w with
  | none => .ok (-1, w)
  | some f =>
    match w.file f.path with
    | none => .ok (-1, w)
    | some ip =>
      if f.writable then
        filewrite src f.off ip >>= fun (r, off, ip) =>
        .ok (r, { w with
          file := Function.update w.file f.path (some ip)
          ofile := Function.update w.ofile fd.toNat (some { f with off := off }) })
      else .ok (-1, w)

/-- `sys_close` -/
def sysClose (fd : ℤ) (w : FileSystem) : FileSystem :=
  match argfd fd w with
  | none => w
  | some _ => { w with ofile := Function.update w.ofile fd.toNat none }

/-! ## Saving a file -/

/-- The contents of a file, empty if it does not exist. -/
def FileSystem.contentOf (w : FileSystem) (path : List UInt8) : List UInt8 :=
  ((w.file path).map Inode.content).getD []

/-- The descriptor that is found is one of the process and not in use. -/
theorem fdalloc_lt {w : FileSystem} {fd : ℕ} (h : fdalloc w = some fd) : fd < NOFILE :=
  List.mem_range.mp (List.mem_of_find?_eq_some h)

/-- Creating a file that exists leaves it as it is, and one that does not is empty. -/
theorem create_contentOf {path : List UInt8} {w w' : FileSystem} (h : create path w = some w') :
    ∃ ip, w'.file path = some ip ∧ ip.content = w.contentOf path := by
  unfold create at h
  unfold FileSystem.contentOf
  rcases hf : w.file path with _ | ip
  · rw [hf] at h
    dsimp only at h
    split_ifs at h
    cases h
    exact ⟨_, Function.update_self _ _ _, rfl⟩
  · rw [hf] at h
    cases h
    exact ⟨ip, hf, rfl⟩

/-- Creating a file leaves the other files, and those there are, and the descriptors. -/
theorem create_frame {path p : List UInt8} {w w' : FileSystem} (h : create path w = some w') :
    (p ≠ path ∨ (w.file p).isSome → w'.file p = w.file p) ∧ w'.ofile = w.ofile := by
  unfold create at h
  split at h
  · cases h
    exact ⟨fun _ => rfl, rfl⟩
  · rename_i hnone
    split_ifs at h
    cases h
    refine ⟨fun hp => Function.update_of_ne ?_ .., rfl⟩
    rintro rfl
    simp [hnone] at hp

/-- What a call of `open` that succeeds has found or created, and the descriptor it sets up. -/
theorem sysOpen_cases {path : List UInt8} {omode : ℕ} {w w' : FileSystem} {fd : ℤ}
    (h : sysOpen path omode w = (fd, w')) (hfd : 0 ≤ fd) : ∃ w₁ n,
      (create path w = some w₁ ∨ ((w.file path).isSome ∧ w₁ = w)) ∧ fdalloc w₁ = some n ∧ fd = n ∧
      w' = { w₁ with ofile := Function.update w₁.ofile n (some (openFile path omode)) } := by
  unfold sysOpen at h
  dsimp only at h
  split at h
  · cases h
    omega
  rename_i w₁ hfound
  split at h
  · cases h
    omega
  rename_i n halloc
  cases h
  refine ⟨w₁, n, ?_, halloc, rfl, rfl⟩
  split_ifs at hfound with hcreate hsome
  · exact .inl hfound
  · cases hfound
    exact .inr ⟨hsome, rfl⟩

/-- Opening a file changes no contents, and its descriptor is at the start of the file.

**Proof sketch.** By `sysOpen_cases` the file was found or created. One that is found is as it was,
and one that is created is empty, which is what a file that did not exist counts as. The descriptor
is the one that was free, and it now has the new open file. -/
theorem sysOpen_ok {path : List UInt8} {omode : ℕ} {w w' : FileSystem} {fd : ℤ}
    (h : sysOpen path omode w = (fd, w')) (hfd : 0 ≤ fd) :
    ∃ ip, argfd fd w' = some (openFile path omode) ∧ w'.file path = some ip ∧
      ip.content = w.contentOf path := by
  obtain ⟨w₁, n, hfound, halloc, rfl, rfl⟩ := sysOpen_cases h hfd
  obtain ⟨ip, hip, hcontent⟩ : ∃ ip, w₁.file path = some ip ∧ ip.content = w.contentOf path := by
    rcases hfound with hcreate | ⟨hsome, rfl⟩
    · exact create_contentOf hcreate
    · obtain ⟨ip, hip⟩ := Option.isSome_iff_exists.mp hsome
      exact ⟨ip, hip, by simp [FileSystem.contentOf, hip]⟩
  have hn := fdalloc_lt halloc
  refine ⟨ip, ?_, hip, hcontent⟩
  rw [argfd, if_neg (by omega), Int.toNat_natCast]
  exact Function.update_self _ _ _

/-- A call of `open` that does not return -1 succeeds. -/
theorem sysOpen_nonneg {path : List UInt8} {omode : ℕ} {w w' : FileSystem} {fd : ℤ}
    (h : sysOpen path omode w = (fd, w')) (hne : fd ≠ -1) : 0 ≤ fd := by
  unfold sysOpen at h
  dsimp only at h
  split at h
  · cases h
    omega
  split at h
  · cases h
    omega
  · cases h
    omega

/-- Opening a file changes the contents of none: one that is created is empty. -/
theorem sysOpen_contentOf {path : List UInt8} {omode : ℕ} {w w' : FileSystem} {fd : ℤ}
    (h : sysOpen path omode w = (fd, w')) (hfd : 0 ≤ fd) (p : List UInt8) :
    w'.contentOf p = w.contentOf p := by
  obtain ⟨w₁, n, hfound, -, -, rfl⟩ := sysOpen_cases h hfd
  change w₁.contentOf p = _
  rcases hfound with hcreate | ⟨-, rfl⟩
  · by_cases hp : p = path
    · subst hp
      obtain ⟨ip, hip, hcontent⟩ := create_contentOf hcreate
      rw [← hcontent, FileSystem.contentOf, hip, Option.map_some, Option.getD_some]
    · rw [FileSystem.contentOf, FileSystem.contentOf, (create_frame hcreate).1 (.inl hp)]
  · rfl

/-- Opening a file leaves the files there are and the other descriptors. -/
theorem sysOpen_frame {path p : List UInt8} {omode : ℕ} {w w' : FileSystem} {fd fd' : ℤ}
    {f : OpenFile} {ip : Inode} (h : sysOpen path omode w = (fd, w')) (hfd : 0 ≤ fd)
    (hf : argfd fd' w = some f) (hp : w.file p = some ip) :
    fd' ≠ fd ∧ argfd fd' w' = some f ∧ w'.file p = some ip := by
  obtain ⟨w₁, n, hfound, halloc, rfl, rfl⟩ := sysOpen_cases h hfd
  obtain ⟨hfile, hofile⟩ : w₁.file p = some ip ∧ w₁.ofile = w.ofile := by
    rcases hfound with hcreate | ⟨-, rfl⟩
    · obtain ⟨hkeep, hofile⟩ := create_frame hcreate (p := p)
      exact ⟨(hkeep (.inr (by simp [hp]))).trans hp, hofile⟩
    · exact ⟨hp, rfl⟩
  have hfree : (w₁.ofile n).isNone = true := by
    unfold fdalloc at halloc
    simpa using List.find?_some halloc
  unfold argfd at hf ⊢
  split_ifs at hf ⊢ with hrange
  have hne : fd'.toNat ≠ n := by
    rintro rfl
    rw [hofile, hf] at hfree
    cases hfree
  refine ⟨by omega, ?_, hfile⟩
  dsimp only
  rw [Function.update_of_ne hne, hofile, hf]

/-- Closing a descriptor changes no file. -/
theorem sysClose_contentOf (fd : ℤ) (w : FileSystem) (path : List UInt8) :
    (sysClose fd w).contentOf path = w.contentOf path := by
  unfold sysClose
  split <;> rfl

/-! ## Reading and writing -/

/-- An open file at another offset. -/
def OpenFile.seek (off : ℕ) (f : OpenFile) : OpenFile := { f with off := off }

@[simp] theorem path_seek (off : ℕ) (f : OpenFile) : (f.seek off).path = f.path := rfl

@[simp] theorem off_seek (off : ℕ) (f : OpenFile) : (f.seek off).off = off := rfl

@[simp] theorem readable_seek (off : ℕ) (f : OpenFile) : (f.seek off).readable = f.readable := rfl

@[simp] theorem writable_seek (off : ℕ) (f : OpenFile) : (f.seek off).writable = f.writable := rfl

@[simp] theorem seek_seek (off off' : ℕ) (f : OpenFile) :
    (f.seek off).seek off' = f.seek off' := rfl

/-- The state in which an open file and its inode have changed. -/
def FileSystem.put (fd : ℤ) (f : OpenFile) (ip : Inode) (w : FileSystem) : FileSystem :=
  { w with
    file := Function.update w.file f.path (some ip)
    ofile := Function.update w.ofile fd.toNat (some f) }

variable {w : FileSystem} {fd fd' : ℤ} {f g : OpenFile} {ip : Inode}

theorem argfd_put (h : argfd fd w = some g) : argfd fd (w.put fd f ip) = some f := by
  unfold argfd at h ⊢
  split_ifs at h ⊢
  exact Function.update_self ..

theorem argfd_put_of_ne (h : argfd fd w = some g) (hne : fd' ≠ fd) :
    argfd fd' (w.put fd f ip) = argfd fd' w := by
  unfold argfd at h ⊢
  split_ifs at h ⊢
  · rfl
  · exact Function.update_of_ne (by omega) ..

theorem file_put : (w.put fd f ip).file f.path = some ip := Function.update_self ..

theorem file_put_of_ne {p : List UInt8} (h : p ≠ f.path) : (w.put fd f ip).file p = w.file p :=
  Function.update_of_ne h ..

/-- A read through a descriptor within its file. -/
theorem sysRead_ok (hfd : argfd fd w = some f) (hip : w.file f.path = some ip)
    (hreadable : f.readable = true) (hoff : f.off ≤ ip.size) (hsize : ip.size ≤ MAXFILE * BSIZE)
    {n : ℕ} (hn : f.off + n < 2 ^ 32) :
    ∃ bs ip', bs = (ip.content.drop f.off).take n ∧ ip'.content = ip.content ∧
      sysRead fd n w = .ok (some bs, w.put fd (f.seek (f.off + bs.length)) ip') := by
  obtain ⟨ip', hread, hbyte, hsize'⟩ := readi_ok hoff hsize hn
  refine ⟨_, ip', rfl, by rw [Inode.content, hbyte, hsize', Inode.content], ?_⟩
  have hn' : ((n : ℤ) % 2 ^ 32).toNat = n := by omega
  simp only [sysRead, hfd, hip, if_pos hreadable, hn', hread, ok_bind, Option.getD_some]
  rfl

/-- A write through a descriptor within its file writes all it was asked to if that fits. If it
does, the bytes replace as many from the offset on, and what is before and behind them stays. -/
theorem sysWrite_ok (hfd : argfd fd w = some f) (hip : w.file f.path = some ip)
    (hwritable : f.writable = true) (hoff : f.off ≤ ip.size) (hmax : f.off ≤ MAXFILE * BSIZE)
    (src : List UInt8) :
    ∃ n off ip', sysWrite fd src w = .ok (n, w.put fd (f.seek off) ip') ∧
      (f.off + src.length ≤ MAXFILE * BSIZE → n = src.length) ∧
      (n = src.length → off = f.off + src.length ∧
        ip'.content = ip.content.take f.off ++ src ++ ip.content.drop (f.off + src.length)) := by
  obtain ⟨⟨n, off, ip'⟩, hwrite, hpost⟩ := filewrite_ok src f.off ip hoff hmax
  refine ⟨n, off, ip', ?_, hpost⟩
  simp only [sysWrite, hfd, hip, if_pos hwritable, hwrite, ok_bind]
  rfl

end HgXv6
