import HgXv6.Kernel.Exec
import HgXv6.Kernel.PhysSpaces

set_option relaxedAutoImplicit false
set_option autoImplicit false

/-!
# What a program has in memory

The memory of a process as its program sees it: a size, and pages with their contents, of which some
are not for the program. What `sbrk` and `exec` are to do is said in these terms: memory grows by
zeros, a program is loaded by laying the segments of its file over zeros, and the arguments are laid
over the page of the stack.

## Main definitions

* `HgXv6.Phys.Image` — what a program has in memory.
* `HgXv6.Phys.writePages` — bytes are laid over pages.
* `HgXv6.Phys.Image.load`, `HgXv6.Phys.Image.push`, `HgXv6.Phys.Image.exec` — the image of a program
  that is loaded.

## Main results

* `HgXv6.Phys.writePages_append`, `HgXv6.Phys.writePages_page` — writing page by page.
* `HgXv6.Phys.bytesAt_exec` — what a program that is loaded finds on its stack.
-/

namespace HgXv6.Phys

open Prog
open Disk (Data uintBytes)
open Vm (PGSIZE PGROUNDUP)

variable {p q va sz : ℕ} {bs bs' : List UInt8} {I J : ℕ → Option Page} {pg : Page}

/-! ## Pages -/

/-- The contents of the page `q` with bytes laid over them that start at the address `va`. -/
def Page.write (q va : ℕ) (bs : List UInt8) (pg : Page) : Page :=
  { pg with data := fun o =>
      if o < PGSIZE ∧ va ≤ q * PGSIZE + o ∧ q * PGSIZE + o < va + bs.length then
        bs.getD (q * PGSIZE + o - va) 0
      else pg.data o }

/-- Bytes are laid over the pages, from an address on. -/
def writePages (va : ℕ) (bs : List UInt8) (I : ℕ → Option Page) (q : ℕ) : Option Page :=
  (I q).map (Page.write q va bs)

/-- The bytes from `va` on are those of the list, on pages of the program. -/
def bytesAt (I : ℕ → Option Page) (va : ℕ) (bs : List UInt8) : Prop :=
  ∀ i < bs.length, ∃ pg, I ((va + i) / PGSIZE) = some pg ∧ pg.user = true ∧
    pg.data ((va + i) % PGSIZE) = bs.getD i 0

theorem writePages_nil (va : ℕ) (I : ℕ → Option Page) : writePages va [] I = I := by
  funext q
  unfold writePages
  cases I q with
  | none => rfl
  | some pg =>
    rw [Option.map_some, Page.write]
    congr 2
    funext o
    rw [if_neg]
    rw [List.length_nil]
    omega

/-- Two pieces of bytes, one behind the other. -/
theorem writePages_append (va : ℕ) (bs bs' : List UInt8) (I : ℕ → Option Page) :
    writePages va (bs ++ bs') I = writePages (va + bs.length) bs' (writePages va bs I) := by
  funext q
  unfold writePages
  cases I q with
  | none => rfl
  | some pg =>
    simp only [Option.map_some, Page.write, Option.some.injEq, Page.mk.injEq, true_and,
      List.length_append]
    funext o
    by_cases ho : o < PGSIZE ∧ va ≤ q * PGSIZE + o
    · by_cases h₁ : q * PGSIZE + o < va + bs.length
      · rw [if_pos (by omega), if_neg (by omega), if_pos (by omega), List.getD_append _ _ _ _ (by
          omega)]
      · by_cases h₂ : q * PGSIZE + o < va + (bs.length + bs'.length)
        · rw [if_pos (by omega), if_pos (by omega), List.getD_append_right _ _ _ _ (by omega)]
          congr 1
          omega
        · rw [if_neg (by omega), if_neg (by omega), if_neg (by omega)]
    · rw [if_neg (by omega), if_neg (by omega), if_neg (by omega)]

/-- Bytes that stay on one page. -/
theorem writePages_page {off : ℕ} (hq : I q = some pg) (hfit : off + bs.length ≤ PGSIZE) :
    writePages (q * PGSIZE + off) bs I =
      Function.update I q (some { pg with data := overlay pg.data off bs }) := by
  funext r
  unfold writePages
  by_cases hr : r = q
  · rw [hr, Function.update_self, hq, Option.map_some, Page.write]
    congr 2
    funext o
    by_cases ho : off ≤ o ∧ o < off + bs.length
    · rw [if_pos (by omega), overlay_of_mem ho.1 (by omega),
        show q * PGSIZE + o - (q * PGSIZE + off) = o - off by omega,
        List.getD_eq_getElem _ _ (by omega)]
    · rw [if_neg (by omega)]
      rcases Nat.lt_or_ge o off with h | h
      · rw [overlay_of_lt h]
      · rw [overlay_of_le (by omega)]
  · rw [Function.update_of_ne hr]
    cases I r with
    | none => rfl
    | some pg' =>
      rw [Option.map_some, Page.write]
      congr 2
      funext o
      rw [if_neg]
      rintro ⟨ho, hlo, hhi⟩
      refine hr ?_
      unfold PGSIZE at *
      omega

theorem isSome_writePages : (writePages va bs I q).isSome ↔ (I q).isSome := by
  simp [writePages]

/-- What has been written is there. -/
theorem bytesAt_writePages (hmap : ∀ i < bs.length, ∃ pg, I ((va + i) / PGSIZE) = some pg ∧
    pg.user = true) : bytesAt (writePages va bs I) va bs := by
  intro i hi
  obtain ⟨pg, hpg, huser⟩ := hmap i hi
  have hva : (va + i) / PGSIZE * PGSIZE + (va + i) % PGSIZE = va + i := Nat.div_add_mod' ..
  have hlt : (va + i) % PGSIZE < PGSIZE := Nat.mod_lt _ (by decide)
  refine ⟨Page.write ((va + i) / PGSIZE) va bs pg, ?_, huser, ?_⟩
  · rw [writePages, hpg, Option.map_some]
  · rw [Page.write]
    dsimp only
    rw [hva, if_pos ⟨hlt, by omega, by omega⟩]
    congr 1
    omega

/-- What is not written over stays. -/
theorem bytesAt.write {va' : ℕ} (h : bytesAt I va bs)
    (hout : va + bs.length ≤ va' ∨ va' + bs'.length ≤ va) :
    bytesAt (writePages va' bs' I) va bs := by
  intro i hi
  obtain ⟨pg, hpg, huser, hdata⟩ := h i hi
  have hva : (va + i) / PGSIZE * PGSIZE + (va + i) % PGSIZE = va + i := Nat.div_add_mod' ..
  refine ⟨Page.write ((va + i) / PGSIZE) va' bs' pg, ?_, huser, ?_⟩
  · rw [writePages, hpg, Option.map_some]
  · rw [Page.write]
    dsimp only
    rw [hva, if_neg (by omega)]
    exact hdata

/-! ## Images -/

/-- What a program has in memory. -/
structure Image where
  sz : ℕ
  page : ℕ → Option Page

/-- Nothing. -/
def Image.empty : Image := ⟨0, fun _ => none⟩

/-- The memory has another size: it is cut off, or there are zeros behind it, up to the end of a
page in both cases. -/
def Image.resize (sz : ℕ) (I : Image) : Image where
  sz := sz
  page := fun q =>
    if sz ≤ q * PGSIZE then none
    else if I.sz ≤ q * PGSIZE then some ⟨true, fun _ => 0⟩
    else I.page q

/-- An image with its own size is the same. -/
theorem Image.resize_self {I : Image} (h : ∀ q, I.sz ≤ q * PGSIZE → I.page q = none) :
    I.resize I.sz = I := by
  unfold Image.resize
  cases I with
  | mk sz page =>
    congr 1
    funext q
    dsimp only at *
    split_ifs with hq
    · exact (h q hq).symm
    · rfl

/-- Bytes are laid over the memory. -/
def Image.write (va : ℕ) (bs : List UInt8) (I : Image) : Image :=
  { I with page := writePages va bs I.page }

theorem Image.write_nil (va : ℕ) (I : Image) : I.write va [] = I := by
  rw [Image.write, writePages_nil]

theorem Image.write_append (va : ℕ) (bs bs' : List UInt8) (I : Image) :
    I.write va (bs ++ bs') = (I.write va bs).write (va + bs.length) bs' := by
  rw [Image.write, writePages_append]
  rfl

/-- The program may not use a page any more. -/
def Image.protect (q : ℕ) (I : Image) : Image :=
  { I with page := Function.update I.page q ((I.page q).map fun pg => { pg with user := false }) }

/-- The segments of a program are loaded; `k` program headers are left. -/
def Image.load (file : List UInt8) : ℕ → ℕ → Image → Option Image
  | 0, _, I => some I
  | k + 1, off, I =>
    if off + 32 ≤ file.length then
      let ph := Proghdr.ofBytes ((file.drop off).take 32)
      if ph.type ≠ ELF_PROG_LOAD then load file k ((off + 32) % 2 ^ 32) I
      else if ph.memsz < ph.filesz ∨ KERNBASE ≤ ph.vaddr + ph.memsz then none
      else
        let I := I.resize (max I.sz (ph.vaddr + ph.memsz))
        if I.sz = 0 ∨ ph.vaddr % PGSIZE ≠ 0 then none
        else if ph.filesz = 0 ∨ ph.off + ph.filesz ≤ file.length then
          load file k ((off + 32) % 2 ^ 32)
            (I.write ph.vaddr ((file.drop ph.off).take ph.filesz))
        else none
    else none

/-- The arguments are pushed, behind those at the addresses `ptrs`, on a stack that ends at
`base`. -/
def Image.push (base : ℕ) : List (List UInt8) → ℕ → List ℕ → Image → Option (ℕ × List ℕ × Image)
  | [], sp, ptrs, I => some (sp, ptrs, I)
  | arg :: argv, sp, ptrs, I =>
    if ptrs.length ≥ MAXARG ∨ sp < base + (arg.length + 1) then none
    else
      let sp := (sp - (arg.length + 1)) / 4 * 4
      push base argv sp (ptrs ++ [sp]) (I.write sp (arg ++ [0]))

/-- The image of a program with a stack behind it, on which there are its arguments, with its entry
point and its stack pointer. -/
def Image.start (entry : ℕ) (argv : List (List UInt8)) (I : Image) : Option (Image × ℕ × ℕ) :=
  let sz := PGROUNDUP I.sz + 2 * PGSIZE
  if KERNBASE ≤ sz then none
  else do
    let I := (I.resize sz).protect (sz / PGSIZE - 2)
    let (sp, ptrs, I) ← Image.push (sz - PGSIZE) argv sz [] I
    let len := (3 + ptrs.length + 1) * 4
    if sp < sz - PGSIZE + len then none
    else some (I.write (sp - len) ((ustack sp ptrs).flatMap uintBytes), entry, sp - len)

/-- The image of a file with the header `elf` that is loaded with arguments. -/
def Image.build (elf : Elfhdr) (file : List UInt8) (argv : List (List UInt8)) :
    Option (Image × ℕ × ℕ) :=
  (Image.load file elf.phnum elf.phoff .empty).bind (Image.start elf.entry argv)

/-- The image of a file that is loaded with arguments, its entry point and its stack pointer. -/
def Image.exec (file : List UInt8) (argv : List (List UInt8)) : Option (Image × ℕ × ℕ) :=
  let elf := Elfhdr.ofBytes (file.take 52)
  if file.length < 52 ∨ elf.magic ≠ ELF_MAGIC then none
  else Image.build elf file argv

/-! ## The stack of a program that is loaded -/

/-- The arguments are at the addresses, all of them from the stack pointer on. -/
def Pushed (I : Image) (sp : ℕ) (ptrs : List ℕ) (argv : List (List UInt8)) : Prop :=
  List.Forall₂ (fun ptr arg => sp ≤ ptr ∧ bytesAt I.page ptr (arg ++ [0])) ptrs argv

theorem Pushed.write {I : Image} {sp sp' : ℕ} {ptrs : List ℕ} {argv : List (List UInt8)}
    (h : Pushed I sp ptrs argv) (hle : sp' + bs.length ≤ sp) :
    Pushed (I.write sp' bs) sp' ptrs argv :=
  h.imp fun _ _ hptr => ⟨by omega, hptr.2.write (.inr (by omega))⟩

/-- A page of the program is one behind a write too. -/
theorem user_write {I : Image} (h : ∃ pg, I.page p = some pg ∧ pg.user = true) :
    ∃ pg, (I.write va bs).page p = some pg ∧ pg.user = true := by
  obtain ⟨pg, hpg, huser⟩ := h
  refine ⟨Page.write p va bs pg, ?_, huser⟩
  change writePages va bs I.page p = _
  rw [writePages, hpg, Option.map_some]

/-- Bytes within one page of the program. -/
theorem mapped_of_page {I : Image} {b n : ℕ} (h : ∃ pg, I.page b = some pg ∧ pg.user = true)
    (hlo : b * PGSIZE ≤ va) (hhi : va + n ≤ b * PGSIZE + PGSIZE) :
    ∀ i < n, ∃ pg, I.page ((va + i) / PGSIZE) = some pg ∧ pg.user = true := by
  intro i hi
  have hq : (va + i) / PGSIZE = b := by
    unfold PGSIZE at *
    omega
  rw [hq]
  exact h

/-- **The arguments on the stack**, which is the page `b`.

**Proof sketch.** Induction on the arguments; each of them is written below those that are there. -/
theorem Image.push_spec {b sp sp' : ℕ} {argv done : List (List UInt8)} {ptrs ptrs' : List ℕ}
    {I I' : Image} (h : Image.push (b * PGSIZE) argv sp ptrs I = some (sp', ptrs', I'))
    (hlo : b * PGSIZE ≤ sp) (hhi : sp ≤ b * PGSIZE + PGSIZE)
    (huser : ∃ pg, I.page b = some pg ∧ pg.user = true) (hdone : Pushed I sp ptrs done) :
    b * PGSIZE ≤ sp' ∧ sp' ≤ sp ∧ (∃ pg, I'.page b = some pg ∧ pg.user = true) ∧
      Pushed I' sp' ptrs' (done ++ argv) := by
  induction argv generalizing sp ptrs I done with
  | nil =>
    rw [Image.push, Option.some.injEq, Prod.mk.injEq, Prod.mk.injEq] at h
    obtain ⟨rfl, rfl, rfl⟩ := h
    rw [List.append_nil]
    exact ⟨hlo, le_rfl, huser, hdone⟩
  | cons arg argv ih =>
    rw [Image.push] at h
    split_ifs at h with hbad
    obtain ⟨sp₁, hsp₁⟩ : ∃ sp₁, sp₁ = (sp - (arg.length + 1)) / 4 * 4 := ⟨_, rfl⟩
    dsimp only at h
    rw [← hsp₁] at h
    have hlo₁ : b * PGSIZE ≤ sp₁ := by
      rw [hsp₁]
      unfold PGSIZE at *
      omega
    have hhi₁ : sp₁ + (arg ++ [0]).length ≤ sp := by
      rw [List.length_append, List.length_singleton, hsp₁]
      omega
    have hhere : bytesAt (I.write sp₁ (arg ++ [0])).page sp₁ (arg ++ [0]) :=
      bytesAt_writePages (mapped_of_page huser hlo₁ (by omega))
    have hdone₁ : Pushed (I.write sp₁ (arg ++ [0])) sp₁ (ptrs ++ [sp₁]) (done ++ [arg]) :=
      List.rel_append (hdone.write hhi₁) (.cons ⟨le_rfl, hhere⟩ .nil)
    obtain ⟨hlo', hle', huser', hpushed⟩ := ih h hlo₁ (by omega) (user_write huser) hdone₁
    rw [List.append_assoc, List.singleton_append] at hpushed
    exact ⟨hlo', by omega, huser', hpushed⟩

theorem length_uintBytes (words : List ℕ) :
    (words.flatMap uintBytes).length = 4 * words.length := by
  induction words with
  | nil => rfl
  | cons w words ih =>
    rw [List.flatMap_cons, List.length_append, ih, List.length_cons]
    change 4 + _ = _
    omega

theorem length_ustack (sp : ℕ) (ptrs : List ℕ) : (ustack sp ptrs).length = ptrs.length + 4 := by
  unfold ustack
  generalize (0xffffffff : ℕ) = w
  rw [List.length_append, List.length_append, List.length_singleton]
  change 3 + ptrs.length + 1 = _
  omega

/-- A program that is loaded stays below the kernel. -/
theorem Image.load_lt {file : List UInt8} {k off : ℕ} {I I' : Image}
    (h : Image.load file k off I = some I') (hI : I.sz < KERNBASE) : I'.sz < KERNBASE := by
  induction k generalizing off I with
  | zero =>
    rw [Image.load, Option.some.injEq] at h
    exact h ▸ hI
  | succ k ih =>
    rw [Image.load] at h
    split_ifs at h with hin
    dsimp only at h
    split_ifs at h with htype hbad hzero hfile
    · exact ih h hI
    · refine ih h ?_
      change max I.sz _ < KERNBASE
      omega

/-- **The stack of a program that is loaded.** From the stack pointer on are a return address, the
number of the arguments, the address of the argument vector behind it, and the vector: the addresses
of the arguments, and a null pointer. At these addresses are the arguments, each with its `'\0'`.

**Proof sketch.** The specification of `exec` pushes the arguments first (`Image.push_spec`): each
has its bytes and its zero at an address on the stack page, below those pushed before it. The vector
is written last, below all of them, on the same page, so that it does not touch the arguments; and
it consists of the words stated, in this order, as `exec` lays out `ustack`. -/
theorem bytesAt_exec {file : List UInt8} {argv : List (List UInt8)} {I : Image} {eip esp : ℕ}
    (h : Image.exec file argv = some (I, eip, esp)) :
    ∃ ptrs : List ℕ, bytesAt I.page esp
        ((([0xffffffff, argv.length, esp + 12] ++ ptrs) ++ [0]).flatMap uintBytes) ∧
      List.Forall₂ (fun ptr arg => bytesAt I.page ptr (arg ++ [0])) ptrs argv := by
  unfold Image.exec at h
  extract_lets elf at h
  split_ifs at h with hbad
  obtain ⟨I₀, hload, h⟩ := Option.bind_eq_some_iff.mp h
  unfold Image.start at h
  dsimp only at h
  split_ifs at h with htop
  obtain ⟨⟨sp, ptrs, I₂⟩, hpush, h⟩ := Option.bind_eq_some_iff.mp h
  dsimp only at h
  split_ifs at h with hsmall
  rw [Option.some.injEq, Prod.mk.injEq, Prod.mk.injEq] at h
  obtain ⟨rfl, -, rfl⟩ := h
  -- the last page is the stack
  obtain ⟨n, hn, -, hround⟩ := Vm.PGROUNDUP_eq (Image.load_lt hload (by decide)).le
  have hle := (hround n).mp le_rfl
  have hlast : I₀.sz ≤ (n + 1) * PGSIZE := hle.trans (Nat.mul_le_mul_right PGSIZE n.le_succ)
  have hsz : PGROUNDUP I₀.sz + 2 * PGSIZE - PGSIZE = (n + 1) * PGSIZE := by
    rw [hn]
    unfold PGSIZE
    omega
  rw [hsz] at hpush hsmall
  have huser : ∃ pg, ((I₀.resize (PGROUNDUP I₀.sz + 2 * PGSIZE)).protect
      ((PGROUNDUP I₀.sz + 2 * PGSIZE) / PGSIZE - 2)).page (n + 1) = some pg ∧
      pg.user = true := by
    refine ⟨⟨true, fun _ => 0⟩, ?_, rfl⟩
    rw [Image.protect]
    dsimp only
    rw [Function.update_of_ne (by rw [hn]; unfold PGSIZE; omega), Image.resize]
    dsimp only
    rw [if_neg (by rw [hn]; unfold PGSIZE; omega), if_pos hlast]
  obtain ⟨hlo, hhi, huser', hpushed⟩ := Image.push_spec hpush (by rw [hn]; unfold PGSIZE; omega)
    (by rw [hn]; unfold PGSIZE; omega) huser (show Pushed _ _ _ [] from .nil)
  rw [List.nil_append] at hpushed
  have hargs : ptrs.length = argv.length := hpushed.length_eq
  have hlen : ((ustack sp ptrs).flatMap uintBytes).length = (3 + ptrs.length + 1) * 4 := by
    rw [length_uintBytes, length_ustack]
    omega
  have hvec : (sp + 2 ^ 32 - (ptrs.length + 1) * 4) % 2 ^ 32 =
      sp - (3 + ptrs.length + 1) * 4 + 12 := by
    unfold PGSIZE KERNBASE at *
    omega
  have hstack : [0xffffffff, argv.length, sp - (3 + ptrs.length + 1) * 4 + 12] ++ ptrs ++ [0] =
      ustack sp ptrs := by
    rw [ustack, hvec, hargs]
  refine ⟨ptrs, ?_, ?_⟩
  · rw [hstack]
    exact bytesAt_writePages (mapped_of_page huser' (by omega) (by
      rw [hlen]
      unfold PGSIZE at *
      omega))
  · refine (hpushed.write ?_).imp fun _ _ hptr => hptr.2
    rw [hlen]
    omega

end HgXv6.Phys
