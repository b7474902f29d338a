import HgXv6.Kernel.UserBuffer
import HgXv6.Lib.Hoare
import Mathlib.Data.Nat.Bitwise

set_option relaxedAutoImplicit false
set_option autoImplicit false

/-!
# The user part of a page table

How the kernel maps and unmaps the pages of a process (`vm.c`). A page directory has an entry for
each page table; the entry is present or not, and a present one is represented by the table it
points to. The entries of a table are words: the address of a page of physical memory and flags.

The outcomes of `kalloc` are a parameter, any sequence of pages and failures: other processes
allocate and free pages in between. What `kfree` gives back shows in them alone.

## Main definitions

* `HgXv6.Vm.Space` — the address space of a process.
* `HgXv6.Vm.walkpgdir`, `HgXv6.Vm.mappages`, `HgXv6.Vm.allocuvm`, `HgXv6.Vm.deallocuvm` — the
  source functions.
* `HgXv6.Vm.Space.mapping` — the pages that are mapped, each with its entry.

## Main results

* `HgXv6.Vm.wp_mappages` — a page is mapped, or nothing changes.
* `HgXv6.Vm.wp_deallocuvm`, `HgXv6.Vm.wp_allocuvm` — the pages of a range are unmapped, or mapped
  all or none.
-/

namespace HgXv6.Vm

open Prog

/-! ## The state -/

/-- `#define PGSIZE 4096` -/
abbrev PGSIZE : ℕ := 4096

/-- `#define NPTENTRIES 1024` -/
abbrev NPTENTRIES : ℕ := 1024

/-- `#define PHYSTOP 0xE000000` -/
abbrev PHYSTOP : ℕ := 0xE000000

/-- `#define PTE_P 0x001` -/
abbrev PTE_P : ℕ := 0x001

/-- `#define PTE_W 0x002` -/
abbrev PTE_W : ℕ := 0x002

/-- `#define PTE_U 0x004` -/
abbrev PTE_U : ℕ := 0x004

/-- A page table: its entries. -/
abbrev Table := ℕ → ℕ

/-- The address space of a process, and what the kernel knows of physical memory. -/
structure Space where
  /-- `proc->sz` -/
  sz : ℕ
  /-- `proc->pgdir`: the table of each entry that is present -/
  pgdir : ℕ → Option Table
  /-- what the next calls of `kalloc` return: the physical address of a page, or nothing -/
  supply : ℕ → Option ℕ
  /-- `V2P(end)` -/
  kend : ℕ

/-- The programs of the kernel. -/
abbrev M := StateT Space (Except Stop)

/-! ## The functions -/

/-- `#define PDX(va) (((uint)(va) >> PDXSHIFT) & 0x3FF)` -/
def PDX (va : ℕ) : ℕ := va / 2 ^ 22 % 1024

/-- `#define PTX(va) (((uint)(va) >> PTXSHIFT) & 0x3FF)` -/
def PTX (va : ℕ) : ℕ := va / 2 ^ 12 % 1024

/-- `#define PTE_ADDR(pte) ((uint)(pte) & ~0xFFF)` -/
def PTE_ADDR (pte : ℕ) : ℕ := pte / 2 ^ 12 * 2 ^ 12

/-- `#define PGROUNDUP(sz) (((sz)+PGSIZE-1) & ~(PGSIZE-1))` -/
def PGROUNDUP (sz : ℕ) : ℕ := (sz + PGSIZE - 1) % 2 ^ 32 / PGSIZE * PGSIZE

/-- `#define PGROUNDDOWN(a) (((a)) & ~(PGSIZE-1))` -/
def PGROUNDDOWN (a : ℕ) : ℕ := a / PGSIZE * PGSIZE

/-- `kalloc`, with the physical address of the page -/
def kalloc : M (Option ℕ) := do
  let s ← get
  set { s with supply := fun i => s.supply (i + 1) }
  pure (s.supply 0)

/-- `kfree(P2V(pa))` -/
def kfree (pa : ℕ) : M Unit := do
  let s ← get
  if pa % PGSIZE ≠ 0 ∨ pa < s.kend ∨ pa ≥ PHYSTOP then throw (.panic "kfree") else pure ()

/-- `*pte`, for the entry `pte.2` of the table `pte.1` -/
def Space.load (pte : ℕ × ℕ) (s : Space) : ℕ := ((s.pgdir pte.1).getD fun _ => 0) pte.2

/-- `*pte = word` -/
def Space.store (pte : ℕ × ℕ) (word : ℕ) (s : Space) : Space :=
  { s with
    pgdir := Function.update s.pgdir pte.1
      ((s.pgdir pte.1).map fun pgtab => Function.update pgtab pte.2 word) }

/-- `walkpgdir`: the place of the entry for an address. -/
def walkpgdir (va : ℕ) (alloc : Bool) : M (Option (ℕ × ℕ)) := do
  let s ← get
  if (s.pgdir (PDX va)).isSome then pure (some (PDX va, PTX va))
  else if alloc = false then pure none
  else do
    match ← kalloc with
    | none => pure none
    | some _ => do
      modify fun s =>
        { s with pgdir := Function.update s.pgdir (PDX va) (some fun _ => 0) }
      pure (some (PDX va, PTX va))

/-- The loop of `mappages`, in at most `k` passes: whether it succeeds. -/
def mapLoop (last perm : ℕ) : ℕ → ℕ → ℕ → M Bool
  | 0, _, _ => throw .loops
  | k + 1, a, pa => do
    match ← walkpgdir a true with
    | none => pure false
    | some pte => do
      let s ← get
      if s.load pte &&& PTE_P ≠ 0 then throw (.panic "remap")
      else do
        modify (Space.store pte (pa ||| perm ||| PTE_P))
        if a = last then pure true
        else mapLoop last perm k ((a + PGSIZE) % 2 ^ 32) ((pa + PGSIZE) % 2 ^ 32)

/-- As many passes as an address space has pages are enough for every loop, and one more to find
its end. -/
abbrev PASSES : ℕ := 2 ^ 20 + 1

/-- `mappages`: whether it succeeds. -/
def mappages (va size pa perm : ℕ) : M Bool :=
  mapLoop (PGROUNDDOWN ((va + size - 1) % 2 ^ 32)) perm PASSES (PGROUNDDOWN va) pa

/-- The loop of `deallocuvm`, in at most `k` passes. -/
def deallocLoop (oldsz : ℕ) : ℕ → ℕ → M Unit
  | 0, _ => throw .loops
  | k + 1, a =>
    if a < oldsz then do
      match ← walkpgdir a false with
      | none => deallocLoop oldsz k ((a + (NPTENTRIES - 1) * PGSIZE + PGSIZE) % 2 ^ 32)
      | some pte => do
        let s ← get
        if s.load pte &&& PTE_P ≠ 0 then
          if PTE_ADDR (s.load pte) = 0 then throw (.panic "kfree")
          else do
            kfree (PTE_ADDR (s.load pte))
            modify (Space.store pte 0)
            deallocLoop oldsz k ((a + PGSIZE) % 2 ^ 32)
        else deallocLoop oldsz k ((a + PGSIZE) % 2 ^ 32)
    else pure ()

/-- `deallocuvm`: the new size. -/
def deallocuvm (oldsz newsz : ℕ) : M ℕ :=
  if newsz ≥ oldsz then pure oldsz
  else do
    deallocLoop oldsz PASSES (PGROUNDUP newsz)
    pure newsz

/-- The loop of `allocuvm`, in at most `k` passes: the new size, or zero. -/
def allocLoop (oldsz newsz : ℕ) : ℕ → ℕ → M ℕ
  | 0, _ => throw .loops
  | k + 1, a =>
    if a < newsz then do
      match ← kalloc with
      | none => do
        let _ ← deallocuvm newsz oldsz
        pure 0
      | some mem => do
        if ← mappages a PGSIZE mem (PTE_W ||| PTE_U) then
          allocLoop oldsz newsz k ((a + PGSIZE) % 2 ^ 32)
        else do
          let _ ← deallocuvm newsz oldsz
          kfree mem
          pure 0
    else pure newsz

/-- `allocuvm`: the new size, or zero. -/
def allocuvm (oldsz newsz : ℕ) : M ℕ :=
  if newsz ≥ KERNBASE then pure 0
  else if newsz < oldsz then pure oldsz
  else allocLoop oldsz newsz PASSES (PGROUNDUP oldsz)

/-! ## What is mapped -/

namespace Space

/-- The entry for a page. -/
def pte (s : Space) (p : ℕ) : ℕ := s.load (p / 1024, p % 1024)

/-- The pages that are mapped, each with its entry. -/
def mapping (s : Space) (p : ℕ) : Option ℕ :=
  if s.pte p &&& PTE_P ≠ 0 then some (s.pte p) else none

/-- A physical address that `kfree` takes. -/
def IsPage (s : Space) (pa : ℕ) : Prop :=
  pa % PGSIZE = 0 ∧ pa ≠ 0 ∧ s.kend ≤ pa ∧ pa < PHYSTOP

end Space

variable {E : Stop → Prop} {s : Space} {p pa perm oldsz newsz : ℕ}

/-! ## Entries -/

/-- The entry of a page is found by its address. -/
theorem place_eq (hp : p < 2 ^ 20) :
    (PDX (p * PGSIZE), PTX (p * PGSIZE)) = (p / 1024, p % 1024) := by
  unfold PDX PTX PGSIZE
  refine Prod.ext ?_ ?_
  · dsimp only
    omega
  · dsimp only
    omega

/-- A page whose table is missing is not mapped. -/
theorem mapping_of_none (h : s.pgdir (p / 1024) = none) : s.mapping p = none := by
  simp [Space.mapping, Space.pte, Space.load, h]

/-- The entry that is stored, and all others. -/
theorem pte_store (h : (s.pgdir (p / 1024)).isSome) (word : ℕ) :
    (s.store (p / 1024, p % 1024) word).pte = Function.update s.pte p word := by
  obtain ⟨pgtab, hpgtab⟩ := Option.isSome_iff_exists.mp h
  funext q
  unfold Space.pte Space.load Space.store
  dsimp only
  by_cases hd : q / 1024 = p / 1024
  · rw [hd, Function.update_self, hpgtab, Option.map_some, Option.getD_some]
    by_cases ht : q % 1024 = p % 1024
    · obtain rfl : q = p := by omega
      rw [Function.update_self, Function.update_self]
    · have hq : q ≠ p := by omega
      rw [Function.update_of_ne ht, Function.update_of_ne hq, hd, hpgtab, Option.getD_some]
  · have hq : q ≠ p := by omega
    rw [Function.update_of_ne hd, Function.update_of_ne hq]

/-- The mapping is read off the entries. -/
theorem mapping_congr {s' : Space} (h : s'.pte = s.pte) : s'.mapping = s.mapping := by
  funext q
  rw [Space.mapping, Space.mapping, h]

/-- What storing an entry does to the mapping. -/
theorem mapping_store (h : (s.pgdir (p / 1024)).isSome) (word : ℕ) :
    (s.store (p / 1024, p % 1024) word).mapping =
      Function.update s.mapping p (if word &&& PTE_P ≠ 0 then some word else none) := by
  funext q
  unfold Space.mapping
  rw [pte_store h]
  by_cases hq : q = p
  · subst hq
    rw [Function.update_self, Function.update_self]
  · rw [Function.update_of_ne hq, Function.update_of_ne hq]

/-- A table that has just been allocated maps nothing. -/
theorem mapping_newTable (h : s.pgdir (p / 1024) = none) :
    Space.mapping { s with pgdir := Function.update s.pgdir (p / 1024) (some fun _ => 0) } =
      s.mapping := by
  refine mapping_congr (funext fun q => ?_)
  unfold Space.pte Space.load
  dsimp only
  by_cases hd : q / 1024 = p / 1024
  · rw [hd, Function.update_self, h, Option.getD_some, Option.getD_none]
  · rw [Function.update_of_ne hd]

/-- An entry that `mappages` stores is present. -/
theorem present (pa perm : ℕ) : (pa ||| perm ||| PTE_P) &&& PTE_P ≠ 0 := by
  have hbit : (pa ||| perm ||| PTE_P).testBit 0 = true := by
    rw [Nat.testBit_or]
    simp
  rw [Nat.testBit_zero, decide_eq_true_eq] at hbit
  rw [Nat.and_one_is_mod]
  omega

/-- The address in an entry of a user page. -/
theorem PTE_ADDR_eq (h : pa % PGSIZE = 0) : PTE_ADDR (pa ||| (PTE_W ||| PTE_U) ||| PTE_P) = pa := by
  have hpa : pa = 2 ^ 12 * (pa / 2 ^ 12) := by
    unfold PGSIZE at h
    omega
  have hflags : PTE_W ||| PTE_U ||| PTE_P = 7 := by decide
  rw [Nat.or_assoc, hflags, hpa, ← Nat.two_pow_add_eq_or_of_lt (by decide), PTE_ADDR]
  omega

/-- What a program leaves alone: all but the page directory, and the outcomes of `kalloc` that are
to come. -/
structure Space.Framed (s s' : Space) : Prop where
  sz : s'.sz = s.sz
  kend : s'.kend = s.kend
  supply : ∃ k, ∀ i, s'.supply i = s.supply (i + k)

theorem Space.Framed.refl (s : Space) : s.Framed s := ⟨rfl, rfl, 0, fun _ => rfl⟩

theorem Space.Framed.trans {s s' s'' : Space} (h : s.Framed s') (h' : s'.Framed s'') :
    s.Framed s'' := by
  obtain ⟨hsz, hkend, k, hk⟩ := h
  obtain ⟨hsz', hkend', k', hk'⟩ := h'
  refine ⟨hsz'.trans hsz, hkend'.trans hkend, k' + k, fun i => ?_⟩
  rw [hk', hk, Nat.add_assoc]

theorem Space.Framed.isPage {s' : Space} (h : s.Framed s') : s'.IsPage pa ↔ s.IsPage pa := by
  rw [Space.IsPage, Space.IsPage, h.kend]

/-- The pages that are still to come are pages. -/
theorem Space.Framed.supplied {s' : Space} (h : s.Framed s')
    (hs : ∀ i pa, s.supply i = some pa → s.IsPage pa) :
    ∀ i pa, s'.supply i = some pa → s'.IsPage pa := by
  obtain ⟨k, hk⟩ := h.supply
  intro i pa hpa
  rw [hk] at hpa
  exact h.isPage.mpr (hs _ _ hpa)

/-! ## Looking up and mapping a page -/

@[simp] theorem wp_kalloc (Q : Option ℕ → Space → Prop) : Wp E kalloc Q s ↔
    Q (s.supply 0) { s with supply := fun i => s.supply (i + 1) } := Iff.rfl

/-- A page that may be freed is. -/
theorem wp_kfree {Q : Unit → Space → Prop} (hpa : s.IsPage pa) (hQ : Q () s) :
    Wp E (kfree pa) Q s := by
  obtain ⟨haligned, -, hend, htop⟩ := hpa
  unfold kfree
  rw [wp_bind, wp_get, wp_ite]
  exact ⟨fun h => by omega, fun _ => hQ⟩

/-- Looking for the entry of a page. -/
theorem wp_walkpgdir_find (hp : p < 2 ^ 20) : Wp E (walkpgdir (p * PGSIZE) false) (fun r s' =>
    s' = s ∧ (r = none ∧ s.pgdir (p / 1024) = none ∨
      r = some (p / 1024, p % 1024) ∧ (s.pgdir (p / 1024)).isSome)) s := by
  obtain ⟨hd, ht⟩ := Prod.mk.inj (place_eq hp)
  unfold walkpgdir
  rw [hd, ht, wp_bind, wp_get, wp_ite]
  refine ⟨fun h => ⟨rfl, .inr ⟨rfl, h⟩⟩, fun h => ?_⟩
  rw [if_pos rfl]
  exact ⟨rfl, .inl ⟨rfl, by simpa using h⟩⟩

/-- Looking for the entry of a page, with a new table if there is none. -/
theorem wp_walkpgdir_alloc (hp : p < 2 ^ 20) : Wp E (walkpgdir (p * PGSIZE) true) (fun r s' =>
    s.Framed s' ∧ s'.mapping = s.mapping ∧
      (r = none ∨ r = some (p / 1024, p % 1024) ∧ (s'.pgdir (p / 1024)).isSome)) s := by
  obtain ⟨hd, ht⟩ := Prod.mk.inj (place_eq hp)
  unfold walkpgdir
  rw [hd, ht, wp_bind, wp_get, wp_ite]
  refine ⟨fun h => ⟨.refl s, rfl, .inr ⟨rfl, h⟩⟩, fun h => ?_⟩
  have hnone : s.pgdir (p / 1024) = none := by simpa using h
  rw [if_neg (by decide), wp_bind, wp_kalloc]
  rcases s.supply 0 with _ | mem
  · exact ⟨⟨rfl, rfl, 1, fun _ => rfl⟩, rfl, .inl rfl⟩
  · exact ⟨⟨rfl, rfl, 1, fun _ => rfl⟩, mapping_newTable hnone,
      .inr ⟨rfl, by simp⟩⟩

/-- A page that is not mapped is, or there is no memory for its table.

**Proof sketch.** The address is that of a page and the size is one page, so that the first address
is the last and there is one pass. The entry is found, in a table that is there or is made now
(`wp_walkpgdir_alloc`); it is not in use, so that there is no panic, and it is stored. -/
theorem wp_mappages (hp : p < 2 ^ 20) (hnone : s.mapping p = none) :
    Wp E (mappages (p * PGSIZE) PGSIZE pa perm) (fun r s' => s.Framed s' ∧
      (r = false ∧ s'.mapping = s.mapping ∨
        r = true ∧ s'.mapping = Function.update s.mapping p (some (pa ||| perm ||| PTE_P)))) s := by
  have hdown : PGROUNDDOWN (p * PGSIZE) = p * PGSIZE := by
    unfold PGROUNDDOWN PGSIZE
    omega
  have hlast : PGROUNDDOWN ((p * PGSIZE + PGSIZE - 1) % 2 ^ 32) = p * PGSIZE := by
    unfold PGROUNDDOWN PGSIZE
    omega
  unfold mappages PASSES mapLoop
  rw [hdown, hlast]
  refine Wp.bind (wp_walkpgdir_alloc hp) ?_
  rintro r s' ⟨hframed, hmapping, rfl | ⟨rfl, hsome⟩⟩
  · exact ⟨hframed, .inl ⟨rfl, hmapping⟩⟩
  dsimp only
  rw [wp_bind, wp_get, wp_ite]
  refine ⟨fun hpresent => ?_, fun _ => ?_⟩
  · -- an entry that is present would map the page
    rw [← hmapping] at hnone
    rw [Space.mapping, if_pos (show s'.pte p &&& PTE_P ≠ 0 from hpresent)] at hnone
    cases hnone
  · rw [wp_bind, wp_modify, if_pos rfl, wp_pure]
    refine ⟨⟨hframed.sz, hframed.kend, hframed.supply⟩, .inr ⟨rfl, ?_⟩⟩
    rw [mapping_store hsome, hmapping, if_pos (present pa perm)]

/-! ## Unmapping pages -/

/-- The pages from an address on: those from the next boundary on. -/
theorem PGROUNDUP_eq {a : ℕ} (ha : a ≤ KERNBASE) : ∃ p, PGROUNDUP a = p * PGSIZE ∧
    p ≤ 2 ^ 19 ∧ ∀ q, p ≤ q ↔ a ≤ q * PGSIZE := by
  refine ⟨(a + PGSIZE - 1) / PGSIZE, ?_, ?_, fun q => ?_⟩
  all_goals unfold KERNBASE at ha
  all_goals unfold PGSIZE
  · rw [PGROUNDUP, Nat.mod_eq_of_lt (by unfold PGSIZE; omega)]
  · omega
  · omega

/-- **The loop of `deallocuvm`**, from a page on from which the mapped pages are the first ones:
they are unmapped up to the old size, and no other page is. It skips 1024 pages where a table is
missing, which are not mapped then.

**Proof sketch.** Induction on the number of passes; there are enough of them for all pages below
`KERNBASE`. A pass over a mapped page removes it, and the mapped pages behind it are the first ones
again; a pass over a page that is not mapped, with or without a table, changes nothing, as there is
no mapped page behind it either. -/
theorem wp_deallocLoop (hold : oldsz ≤ KERNBASE) (k : ℕ) (p : ℕ) (s : Space) (hk0 : 0 < k)
    (hk : 2 ^ 19 < k + p)
    (hpages : ∀ q e, p ≤ q → q * PGSIZE < oldsz → s.mapping q = some e → s.IsPage (PTE_ADDR e))
    (hfirst : ∀ q r, p ≤ q → q ≤ r → r * PGSIZE < oldsz → s.mapping q = none →
      s.mapping r = none) :
    Wp E (deallocLoop oldsz k (p * PGSIZE)) (fun _ s' => s.Framed s' ∧ ∀ q,
      s'.mapping q = if p ≤ q ∧ q * PGSIZE < oldsz then none else s.mapping q) s := by
  induction k generalizing p s with
  | zero => omega
  | succ k ih =>
    unfold deallocLoop
    rw [wp_ite]
    refine ⟨fun hlt => ?_, fun hge => ?_⟩
    swap
    · refine ⟨.refl s, fun q => (if_neg fun h => hge ?_).symm⟩
      exact (Nat.mul_le_mul_right PGSIZE h.1).trans_lt h.2
    have hp : p < 2 ^ 19 := by
      unfold PGSIZE KERNBASE at *
      omega
    -- a pass that changes nothing, and goes on at the page `p'`
    have hskip (p' : ℕ) (hp' : p < p') (hnone : s.mapping p = none) :
        Wp E (deallocLoop oldsz k (p' * PGSIZE)) (fun _ s' => s.Framed s' ∧ ∀ q,
          s'.mapping q = if p ≤ q ∧ q * PGSIZE < oldsz then none else s.mapping q) s := by
      refine (ih p' s (by omega) (by omega) (fun q e hq => hpages q e (by omega))
        (fun q r hq => hfirst q r (by omega))).mono ?_
      rintro _ s' ⟨hframed, hmapping⟩
      refine ⟨hframed, fun q => (hmapping q).trans ?_⟩
      by_cases hq : p ≤ q ∧ q * PGSIZE < oldsz
      · rw [if_pos hq, hfirst p q le_rfl hq.1 hq.2 hnone, ite_self]
      · rw [if_neg hq, if_neg fun h => hq ⟨hp'.le.trans h.1, h.2⟩]
    refine Wp.bind (wp_walkpgdir_find (by omega)) ?_
    rintro r s' ⟨rfl, ⟨rfl, hnone⟩ | ⟨rfl, hsome⟩⟩
    · have hnext : (p * PGSIZE + (NPTENTRIES - 1) * PGSIZE + PGSIZE) % 2 ^ 32 =
          (p + 1024) * PGSIZE := by
        unfold PGSIZE NPTENTRIES
        omega
      dsimp only
      rw [hnext]
      exact hskip (p + 1024) (by omega) (mapping_of_none hnone)
    have hnext : (p * PGSIZE + PGSIZE) % 2 ^ 32 = (p + 1) * PGSIZE := by
      unfold PGSIZE
      omega
    dsimp only
    rw [hnext, wp_bind, wp_get, wp_ite]
    refine ⟨fun hpresent => ?_, fun habsent => ?_⟩
    swap
    · exact hskip (p + 1) (by omega) (if_neg habsent)
    have hpage := hpages p _ le_rfl hlt (if_pos hpresent)
    have hunmapped : (s'.store (p / 1024, p % 1024) 0).mapping =
        Function.update s'.mapping p none := by
      rw [mapping_store hsome, if_neg (by decide)]
    rw [wp_ite]
    refine ⟨fun hzero => absurd hzero hpage.2.1, fun _ => ?_⟩
    rw [wp_bind]
    refine wp_kfree hpage ?_
    rw [wp_bind, wp_modify]
    refine (ih (p + 1) _ (by omega) (by omega) (fun q e hq hlt' he => ?_)
      (fun q r hq hqr hlt' hnone => ?_)).mono ?_
    · rw [hunmapped, Function.update_of_ne (by omega)] at he
      exact hpages q e (by omega) hlt' he
    · rw [hunmapped, Function.update_of_ne (by omega)] at hnone ⊢
      exact hfirst q r (by omega) hqr hlt' hnone
    · rintro _ t ⟨hframed, hmapping⟩
      refine ⟨⟨hframed.sz, hframed.kend, hframed.supply⟩, fun q => (hmapping q).trans ?_⟩
      rw [hunmapped]
      by_cases hq : q = p
      · rw [hq, if_neg (by omega), Function.update_self, if_pos ⟨le_rfl, hlt⟩]
      · rw [Function.update_of_ne hq]
        simp only [show p + 1 ≤ q ↔ p ≤ q by omega]

/-- **`deallocuvm`** unmaps the pages between the sizes, if they are the first ones from the new
size on.

**Proof sketch.** The first page is the one at the new size rounded up, and the loop goes from there
to the old size (`wp_deallocLoop`). It skips whole tables that are not there, and with them only
pages that are not mapped, since behind a page that is not mapped none is. -/
theorem wp_deallocuvm (hold : oldsz ≤ KERNBASE)
    (hpages : ∀ q e, newsz ≤ q * PGSIZE → q * PGSIZE < oldsz → s.mapping q = some e →
      s.IsPage (PTE_ADDR e))
    (hfirst : ∀ q r, newsz ≤ q * PGSIZE → q ≤ r → r * PGSIZE < oldsz → s.mapping q = none →
      s.mapping r = none) :
    Wp E (deallocuvm oldsz newsz) (fun r s' => r = min oldsz newsz ∧ s.Framed s' ∧ ∀ q,
      s'.mapping q = if newsz ≤ q * PGSIZE ∧ q * PGSIZE < oldsz then none else s.mapping q) s := by
  unfold deallocuvm PASSES
  rw [wp_ite]
  refine ⟨fun hge => ⟨by omega, .refl s, fun q => (if_neg (by omega)).symm⟩, fun hlt => ?_⟩
  obtain ⟨p, hround, hp, hle⟩ := PGROUNDUP_eq (show newsz ≤ KERNBASE by omega)
  rw [hround]
  refine Wp.bind (wp_deallocLoop hold (2 ^ 20 + 1) p s (by omega) (by omega)
    (fun q e hq => hpages q e ((hle q).mp hq)) (fun q r hq => hfirst q r ((hle q).mp hq))) ?_
  rintro _ s' ⟨hframed, hmapping⟩
  refine ⟨by omega, hframed, fun q => (hmapping q).trans ?_⟩
  simp only [hle q]

/-! ## Mapping pages -/

/-- The pages from `lo` up to `hi` are mapped for the user. -/
def Space.Filled (lo hi : ℕ) (s : Space) : Prop :=
  ∀ q, lo ≤ q * PGSIZE → q * PGSIZE < hi →
    ∃ pa, s.IsPage pa ∧ s.mapping q = some (pa ||| (PTE_W ||| PTE_U) ||| PTE_P)

/-- What `allocuvm` does: it maps the pages between the sizes, or leaves none of them. -/
def AllocPost (oldsz newsz : ℕ) (s : Space) (r : ℕ) (s' : Space) : Prop :=
  s.Framed s' ∧
    (∀ q, ¬(oldsz ≤ q * PGSIZE ∧ q * PGSIZE < newsz) → s'.mapping q = s.mapping q) ∧
    (r = newsz ∧ s'.Filled oldsz newsz ∨
      r = 0 ∧ ∀ q, oldsz ≤ q * PGSIZE → q * PGSIZE < newsz → s'.mapping q = none)

/-- When a pass of `allocuvm` has failed, with the pages up to `p` mapped, `deallocuvm` unmaps them:
they are the first ones from the old size on, since none behind them is mapped. -/
theorem wp_undo (hnew : newsz ≤ KERNBASE) {t : Space} (hframed : s.Framed t)
    (hmapping : t.mapping = s.mapping) (hfilled : s.Filled oldsz (p * PGSIZE))
    (hnone : ∀ q, p ≤ q → q * PGSIZE < newsz → s.mapping q = none) :
    Wp E (deallocuvm newsz oldsz) (fun _ => AllocPost oldsz newsz s 0) t := by
  have hmapped (q : ℕ) (hlo : oldsz ≤ q * PGSIZE) (hq : q < p) :=
    hfilled q hlo (Nat.mul_lt_mul_of_pos_right hq (by decide))
  refine (wp_deallocuvm hnew (fun q e hlo hhi he => ?_) (fun q r hlo hqr hhi hq => ?_)).mono ?_
  · rw [hmapping] at he
    have hq : q < p := by
      by_contra hge
      rw [hnone q (not_lt.mp hge) hhi] at he
      cases he
    obtain ⟨pa, hpa, hmap⟩ := hmapped q hlo hq
    rw [hmap, Option.some.injEq] at he
    rw [← he, PTE_ADDR_eq hpa.1]
    exact hframed.isPage.mpr hpa
  · rw [hmapping] at hq ⊢
    refine hnone r ?_ hhi
    by_contra hlt
    obtain ⟨pa, -, hmap⟩ := hmapped q hlo (by omega)
    rw [hmap] at hq
    cases hq
  · rintro _ t' ⟨-, hframed', hmapping'⟩
    refine ⟨hframed.trans hframed', fun q hq => ?_, .inr ⟨rfl, fun q hlo hhi => ?_⟩⟩
    · rw [hmapping', if_neg hq, hmapping]
    · rw [hmapping', if_pos ⟨hlo, hhi⟩]

/-- **The loop of `allocuvm`**, with the pages up to `p` mapped.

**Proof sketch.** Induction on the number of passes. A pass that fails unmaps what has been mapped
so far. -/
theorem wp_allocLoop (hnew : newsz < KERNBASE) (k : ℕ) (p : ℕ) (s : Space) (hk0 : 0 < k)
    (hk : 2 ^ 19 < k + p) (hp : oldsz ≤ p * PGSIZE)
    (hsupply : ∀ i pa, s.supply i = some pa → s.IsPage pa)
    (hfilled : s.Filled oldsz (p * PGSIZE))
    (hnone : ∀ q, p ≤ q → q * PGSIZE < newsz → s.mapping q = none) :
    Wp E (allocLoop oldsz newsz k (p * PGSIZE)) (AllocPost oldsz newsz s) s := by
  induction k generalizing p s with
  | zero => omega
  | succ k ih =>
    unfold allocLoop
    rw [wp_ite]
    refine ⟨fun hlt => ?_, fun hge => ?_⟩
    swap
    · exact ⟨.refl s, fun _ _ => rfl, .inl ⟨rfl, fun q hlo hhi => hfilled q hlo (by omega)⟩⟩
    have hp' : p < 2 ^ 19 := by
      unfold PGSIZE KERNBASE at *
      omega
    rw [wp_bind, wp_kalloc]
    rcases hmem : s.supply 0 with _ | mem
    · refine Wp.bind (wp_undo (s := s) hnew.le ⟨rfl, rfl, 1, fun _ => rfl⟩ rfl hfilled hnone) ?_
      exact fun _ t ht => ht
    have hframed : s.Framed { s with supply := fun i => s.supply (i + 1) } :=
      ⟨rfl, rfl, 1, fun _ => rfl⟩
    refine Wp.bind (wp_mappages (by omega) (hnone p le_rfl hlt)) ?_
    rintro r t ⟨hframed', ⟨rfl, hmapping⟩ | ⟨rfl, hmapping⟩⟩
    · rw [if_neg (by decide)]
      refine Wp.bind (wp_undo hnew.le (hframed.trans hframed') hmapping hfilled hnone) ?_
      intro _ t' ht'
      rw [wp_bind]
      exact wp_kfree (ht'.1.isPage.mpr (hsupply 0 mem hmem)) ht'
    have hframed₂ := hframed.trans hframed'
    have hnext : (p * PGSIZE + PGSIZE) % 2 ^ 32 = (p + 1) * PGSIZE := by
      unfold PGSIZE
      omega
    rw [if_pos rfl, hnext]
    replace hmapping : t.mapping = Function.update s.mapping p
      (some (mem ||| (PTE_W ||| PTE_U) ||| PTE_P)) := hmapping
    have hsucc : p * PGSIZE ≤ (p + 1) * PGSIZE := Nat.mul_le_mul_right PGSIZE (Nat.le_succ p)
    refine (ih (p + 1) t (by omega) (by omega) (hp.trans hsucc) (hframed₂.supplied hsupply)
      (fun q hlo hhi => ?_) (fun q hq hhi => ?_)).mono ?_
    · rw [hmapping]
      by_cases hq : q = p
      · rw [hq, Function.update_self]
        exact ⟨mem, hframed₂.isPage.mpr (hsupply 0 mem hmem), rfl⟩
      · rw [Function.update_of_ne hq]
        have hlt' : q < p + 1 := Nat.lt_of_mul_lt_mul_right hhi
        obtain ⟨pa, hpa, hmap⟩ := hfilled q hlo
          (Nat.mul_lt_mul_of_pos_right (by omega) (by decide))
        exact ⟨pa, hframed₂.isPage.mpr hpa, hmap⟩
    · rw [hmapping, Function.update_of_ne (by omega)]
      exact hnone q (by omega) hhi
    · rintro r t' ⟨hframed₃, hout, hin⟩
      refine ⟨hframed₂.trans hframed₃, fun q hq => ?_, hin⟩
      rw [hout q hq, hmapping, Function.update_of_ne]
      rintro rfl
      exact hq ⟨hp, hlt⟩

/-- **`allocuvm`** maps the pages between the sizes or none of them. -/
theorem wp_allocuvm (hle : oldsz ≤ newsz) (hnew : newsz < KERNBASE)
    (hsupply : ∀ i pa, s.supply i = some pa → s.IsPage pa)
    (hnone : ∀ q, oldsz ≤ q * PGSIZE → q * PGSIZE < newsz → s.mapping q = none) :
    Wp E (allocuvm oldsz newsz) (AllocPost oldsz newsz s) s := by
  unfold allocuvm PASSES
  rw [if_neg (by omega), if_neg (by omega)]
  obtain ⟨p, hround, hp, hround'⟩ := PGROUNDUP_eq (hle.trans hnew.le)
  rw [hround]
  refine wp_allocLoop hnew (2 ^ 20 + 1) p s (by omega) (by omega) ((hround' p).mp le_rfl)
    hsupply (fun q hlo hhi => ?_) (fun q hq => hnone q ((hround' q).mp hq))
  exact absurd (Nat.lt_of_mul_lt_mul_right hhi) (not_lt.mpr ((hround' q).mpr hlo))

/-- It refuses sizes that reach into the kernel's part. -/
theorem wp_allocuvm_top (htop : KERNBASE ≤ newsz) :
    Wp E (allocuvm oldsz newsz) (fun r s' => r = 0 ∧ s' = s) s := by
  unfold allocuvm
  rw [if_pos htop]
  exact ⟨rfl, rfl⟩

end HgXv6.Vm
