import HgXv6.Kernel.PhysLayout
import Mathlib.Data.Set.Card
import Mathlib.Order.Interval.Finset.Nat

set_option relaxedAutoImplicit false
set_option autoImplicit false

/-!
# Building, growing and freeing address spaces

What the functions of `vm.c` do to an address space as a program sees it: its pages, each with its
contents and whether the program may use it. The part of the kernel is the same in all address
spaces, and no program may use it.

## Main definitions

* `HgXv6.Phys.kernelEntry` — the part of the kernel.
* `HgXv6.Phys.Layout.User` — the address space of a process.
* `HgXv6.Phys.Layout.image` — what a program sees of it.

## Main results

* `HgXv6.Phys.wp_setupkvm`, `HgXv6.Phys.wp_freevm` — an address space comes and goes.
* `HgXv6.Phys.wp_deallocuvm`, `HgXv6.Phys.wp_allocuvm` — pages are unmapped, or mapped all or none.
* `HgXv6.Phys.wp_copyuvm` — a copy for a child.
-/

namespace HgXv6.Phys

open Prog
open Disk (Data getUint putUint getUint_putUint getUint_zero)
open Vm (PGSIZE NPTENTRIES PHYSTOP PTE_P PTE_W PTE_U PDX PTX PTE_ADDR PGROUNDUP PGROUNDDOWN PASSES)

variable {E : Stop → Prop} {s s' t : Mem} {f g p q i j v perm k last a : ℕ} {fl fl' : List ℕ}
  {X Y : Set ℕ} {b : Data} {L L' : Layout} {u : Bool}

/-! ## Mapping pages -/

/-- The address of the next page. -/
theorem next_page (hp : p + 1 < 2 ^ 20) : (p * PGSIZE + PGSIZE) % 2 ^ 32 = (p + 1) * PGSIZE := by
  unfold PGSIZE
  omega

/-- `mappages` for one page of a program: the page is mapped, or there is no free frame for its
table. -/
theorem wp_mappages (h : Local X L fl s) (hp : p < 2 ^ 19) (hnone : L.entry p &&& PTE_P = 0)
    (husable : s.Usable f) (hf : f ∉ X) (hperm : perm < 2 ^ 12) :
    Wp E (mappages (L.dir * PGSIZE) (p * PGSIZE) PGSIZE (f * PGSIZE) perm) (fun r s' =>
      s.Keeps X s' ∧ (r = false ∧ fl = [] ∧ s' = s ∨ r = true ∧ ∃ t fl',
        (∀ t', L.table (p / 1024) = some t' → t' = t) ∧
        Local (Insert.insert f X)
          ((L.setTable (p / 1024) t).setEntry p (f * PGSIZE ||| perm ||| PTE_P)
          (s.frame f)) fl' s')) s := by
  have hdown : PGROUNDDOWN (p * PGSIZE) = p * PGSIZE := by
    unfold PGROUNDDOWN PGSIZE
    omega
  have hlast : PGROUNDDOWN ((p * PGSIZE + PGSIZE + 2 ^ 32 - 1) % 2 ^ 32) = p * PGSIZE := by
    unfold PGROUNDDOWN PGSIZE
    omega
  unfold mappages PASSES mapLoop
  rw [hdown, hlast]
  refine Wp.bind (wp_walkpgdir_alloc h (by omega)) ?_
  rintro r s' ⟨hkeeps, ⟨rfl, rfl, rfl⟩ | ⟨t, fl', rfl, ht, hlocal⟩⟩
  · exact ⟨.refl s' X, .inl ⟨rfl, rfl, rfl⟩⟩
  have htable : (L.setTable (p / 1024) t).table (p / 1024) = some t := Function.update_self ..
  dsimp only
  rw [wp_bind, wp_get, hlocal.layout.word htable, wp_ite]
  refine ⟨fun hpresent => absurd hnone hpresent, fun _ => ?_⟩
  rw [wp_bind, wp_modify, if_pos rfl, wp_pure]
  have hmap := hlocal.map htable hp hnone (hkeeps.usable.mpr husable) hf hperm
  rw [hkeeps.frame f hf] at hmap
  refine ⟨⟨hkeeps.kend, hkeeps.kdata, fun g hg => ?_⟩, .inr ⟨rfl, t, fl', ht, hmap⟩⟩
  rw [setWord_eq (by omega)]
  refine (Function.update_of_ne ?_ ..).trans (hkeeps.frame g hg)
  rintro rfl
  exact hg (hlocal.ref_mem (P := .table (p / 1024)) htable)

/-- Two address spaces have the same user part. -/
structure Layout.SameUser (L L' : Layout) : Prop where
  dir : L'.dir = L.dir
  table : ∀ i < 512, L'.table i = L.table i
  entry : ∀ q < 2 ^ 19, L'.entry q = L.entry q
  data : L'.data = L.data

theorem Layout.SameUser.refl (L : Layout) : L.SameUser L :=
  ⟨rfl, fun _ _ => rfl, fun _ _ => rfl, rfl⟩

theorem Layout.SameUser.trans {L'' : Layout} (h : L.SameUser L') (h' : L'.SameUser L'') :
    L.SameUser L'' :=
  ⟨h'.dir.trans h.dir, fun i hi => (h'.table i hi).trans (h.table i hi),
    fun q hq => (h'.entry q hq).trans (h.entry q hq), h'.data.trans h.data⟩

/-- The entries of a range of pages that lead to a range of frames from `a` on. -/
def Layout.mapRange (p last a perm : ℕ) (L : Layout) (q : ℕ) : ℕ :=
  if p ≤ q ∧ q ≤ last then (a + (q - p)) * PGSIZE ||| perm ||| PTE_P else L.entry q

/-- **The loop of `mappages`** over pages of the kernel.

**Proof sketch.** Induction on the number of passes; each of them maps one page, and fails only if
there is no free frame for a table. -/
theorem wp_mapLoop (h : Local X L fl s) (hp : 2 ^ 19 ≤ p) (hle : p ≤ last) (hlast : last < 2 ^ 20)
    (ha : a + (last - p) < 2 ^ 20) (hperm : perm < 2 ^ 12)
    (hnone : ∀ q, p ≤ q → q ≤ last → L.entry q &&& PTE_P = 0) (hk : last - p < k) :
    Wp E (mapLoop (L.dir * PGSIZE) (last * PGSIZE) perm k (p * PGSIZE) (a * PGSIZE))
      (fun r s' => s.Keeps X s' ∧ ∃ L' fl', Local X L' fl' s' ∧ L.SameUser L' ∧
        (r = false ∧ fl' = [] ∨ r = true ∧ L'.entry = L.mapRange p last a perm)) s := by
  induction k generalizing p a L fl s with
  | zero => omega
  | succ k ih =>
    unfold mapLoop
    refine Wp.bind (wp_walkpgdir_alloc h (by omega)) ?_
    rintro r s₁ ⟨hkeeps, ⟨rfl, rfl, rfl⟩ | ⟨t, fl₁, rfl, ht, hlocal⟩⟩
    · exact ⟨.refl s₁ X, L, [], h, .refl L, .inl ⟨rfl, rfl⟩⟩
    have htable : (L.setTable (p / 1024) t).table (p / 1024) = some t := Function.update_self ..
    dsimp only
    rw [wp_bind, wp_get, hlocal.layout.word htable, wp_ite]
    refine ⟨fun hpresent => absurd (hnone p le_rfl hle) hpresent, fun _ => ?_⟩
    rw [wp_bind, wp_modify]
    obtain ⟨w, hw⟩ : ∃ w, w = a * PGSIZE ||| perm ||| PTE_P := ⟨_, rfl⟩
    have hmap := hlocal.mapKernel htable hp
      (hw ▸ entry_lt (by omega) hperm) (L.data p)
    rw [← hw]
    obtain ⟨L₁, hL₁⟩ : ∃ L₁, L₁ = (L.setTable (p / 1024) t).setEntry p w (L.data p) := ⟨_, rfl⟩
    obtain ⟨s₂, hs₂⟩ : ∃ s₂, s₂ = s₁.setWord (t * PGSIZE + 4 * (p % 1024)) w := ⟨_, rfl⟩
    rw [← hL₁, ← hs₂] at hmap
    rw [← hs₂]
    have hkeeps₂ : s.Keeps X s₂ := by
      refine ⟨hs₂ ▸ hkeeps.kend, hs₂ ▸ hkeeps.kdata, fun g hg => ?_⟩
      rw [hs₂, setWord_eq (by omega)]
      refine (Function.update_of_ne ?_ ..).trans (hkeeps.frame g hg)
      rintro rfl
      exact hg (hlocal.ref_mem (P := .table (p / 1024)) htable)
    have hentry : L₁.entry = Function.update L.entry p w := by rw [hL₁]; rfl
    have hsame : L.SameUser L₁ := by
      rw [hL₁]
      refine ⟨rfl, fun i hi => Function.update_of_ne (by omega) .., fun q hq =>
        Function.update_of_ne (by omega) .., Function.update_eq_self ..⟩
    by_cases hlt : p = last
    · subst hlt
      rw [if_pos rfl, wp_pure]
      refine ⟨hkeeps₂, L₁, fl₁, hmap, hsame, .inr ⟨rfl, funext fun q => ?_⟩⟩
      rw [hentry, Layout.mapRange]
      by_cases hq : q = p
      · rw [hq, Function.update_self, if_pos ⟨le_rfl, le_rfl⟩, Nat.sub_self, Nat.add_zero, hw]
      · rw [Function.update_of_ne hq, if_neg (by omega)]
    · have ha' : a + 1 < 2 ^ 20 := by omega
      have hne : p * PGSIZE ≠ last * PGSIZE := by
        unfold PGSIZE
        omega
      rw [if_neg hne, next_page (by omega), next_page ha', ← hsame.dir]
      refine (ih hmap (by omega) (by omega) (by omega) (fun q hq hql => ?_) (by omega)).mono ?_
      · rw [hentry, Function.update_of_ne (by omega)]
        exact hnone q (by omega) hql
      · rintro r s' ⟨hkeeps₃, L', fl', hlocal', hsame', hr⟩
        refine ⟨hkeeps₂.trans hkeeps₃ le_rfl, L', fl', hlocal', hsame.trans hsame',
          hr.imp_right fun hentry' => ⟨hentry'.1, funext fun q => ?_⟩⟩
        rw [hentry'.2, Layout.mapRange, Layout.mapRange, hentry]
        by_cases hq : q = p
        · rw [hq, Function.update_self, if_neg (by omega), if_pos ⟨le_rfl, hle⟩, Nat.sub_self,
            Nat.add_zero, hw]
        · rw [Function.update_of_ne hq]
          by_cases hin : p + 1 ≤ q ∧ q ≤ last
          · rw [if_pos hin, if_pos (by omega), show a + 1 + (q - (p + 1)) = a + (q - p) by omega]
          · rw [if_neg hin, if_neg (by omega)]

/-- `mappages` for pages of the kernel. -/
theorem wp_mappages_kernel {n : ℕ} (h : Local X L fl s) (hp : 2 ^ 19 ≤ p) (hn : 0 < n)
    (hlast : p + n ≤ 2 ^ 20) (ha : a + n ≤ 2 ^ 20) (hperm : perm < 2 ^ 12)
    (hnone : ∀ q, p ≤ q → q < p + n → L.entry q &&& PTE_P = 0) :
    Wp E (mappages (L.dir * PGSIZE) (p * PGSIZE) (n * PGSIZE) (a * PGSIZE) perm) (fun r s' =>
      s.Keeps X s' ∧ ∃ L' fl', Local X L' fl' s' ∧ L.SameUser L' ∧ (r = false ∧ fl' = [] ∨
        r = true ∧ L'.entry = L.mapRange p (p + n - 1) a perm)) s := by
  have hdown : PGROUNDDOWN (p * PGSIZE) = p * PGSIZE := by
    unfold PGROUNDDOWN PGSIZE
    omega
  have hend : PGROUNDDOWN ((p * PGSIZE + n * PGSIZE + 2 ^ 32 - 1) % 2 ^ 32) =
      (p + n - 1) * PGSIZE := by
    unfold PGROUNDDOWN PGSIZE
    omega
  unfold mappages PASSES
  rw [hdown, hend]
  exact wp_mapLoop h hp (by omega) (by omega) (by omega) hperm
    (fun q hq hql => hnone q hq (by omega)) (by omega)

/-! ## The part of the kernel -/

/-- The entry of a page of the kernel, with the kernel's data from the address `kdata` on. -/
def kernelEntry (kdata q : ℕ) : ℕ :=
  if q < 2 ^ 19 + EXTMEM / PGSIZE then (q - 2 ^ 19) * PGSIZE ||| PTE_W ||| PTE_P
  else if q < 2 ^ 19 + kdata / PGSIZE then (q - 2 ^ 19) * PGSIZE ||| 0 ||| PTE_P
  else if q < 2 ^ 19 + PHYSTOP / PGSIZE then (q - 2 ^ 19) * PGSIZE ||| PTE_W ||| PTE_P
  else if DEVSPACE / PGSIZE ≤ q then q * PGSIZE ||| PTE_W ||| PTE_P
  else 0

/-- The entry of a page of a program. -/
def userEntry (f : ℕ) (u : Bool) : ℕ := f * PGSIZE ||| (PTE_W ||| if u then PTE_U else 0) ||| PTE_P

/-- The address space of a process: its tables are the first ones, and the part of the kernel is
there. -/
structure Layout.User (L : Layout) (kdata : ℕ) : Prop where
  contiguous : ∀ i j, i ≤ j → j < 512 → L.table i = none → L.table j = none
  entry : ∀ q < 2 ^ 19, L.entry q = 0 ∨ ∃ f u, L.entry q = userEntry f u
  kernel : ∀ q, 2 ^ 19 ≤ q → q < 2 ^ 20 → L.entry q = kernelEntry kdata q

/-- The kernel as the linker has put it into memory. -/
structure Mem.Linked (s : Mem) : Prop where
  aligned : s.kdata % PGSIZE = 0
  text : EXTMEM < s.kdata
  data : s.kdata ≤ s.kend
  top : s.kend < PHYSTOP

theorem Mem.Linked.keeps (h : s.Linked) (hkeeps : s.Keeps X s') : s'.Linked := by
  obtain ⟨haligned, htext, hdata, htop⟩ := h
  exact ⟨hkeeps.kdata ▸ haligned, hkeeps.kdata ▸ htext, hkeeps.kdata ▸ hkeeps.kend ▸ hdata,
    hkeeps.kend ▸ htop⟩

/-- An address space without pages. -/
def Layout.empty (f : ℕ) : Layout where
  dir := f
  table := fun _ => none
  entry := fun _ => 0
  data := fun _ _ => 0

theorem ref_empty {P : Place} : (Layout.empty f).ref P = some g ↔ P = .dir ∧ g = f := by
  cases P with
  | dir => simp [Layout.ref, Layout.empty, eq_comm]
  | table i => simp [Layout.ref, Layout.empty]
  | page q => simp [Layout.ref, Layout.empty, Layout.page]

/-- A frame becomes a page directory. -/
theorem Local.start (h : FreeList fl s) (husable : s.Usable f) (hf : f ∉ fl)
    (hzero : s.frame f = fun _ => 0) :
    Local (Insert.insert f {g | g ∈ fl}) (Layout.empty f) fl s := by
  refine ⟨⟨fun i _ => ?_, fun _ _ => rfl, fun i t ht => (by cases ht), fun _ _ => rfl,
    fun q g hg => ?_, fun P Q g hP hQ => ?_, fun P g hP => ?_⟩, h, fun P g hP => ?_, fun g => ?_⟩
  · change getUint (s.frame f) i = 0
    rw [hzero, getUint_zero]
  · have hne := (ref_empty (P := .page q)).mp hg
    cases hne.1
  · rw [(ref_empty.mp hP).1, (ref_empty.mp hQ).1]
  · rw [(ref_empty.mp hP).2]
    exact husable
  · rw [(ref_empty.mp hP).2]
    exact hf
  · rw [Set.mem_insert_iff, Set.mem_ofPred_eq]
    constructor
    · rintro (rfl | hg)
      · exact .inr ⟨.dir, rfl⟩
      · exact .inl hg
    · rintro (hg | ⟨P, hP⟩)
      · exact .inr hg
      · exact .inl (ref_empty.mp hP).2

/-- One pass of the loop of `setupkvm`. -/
theorem wp_kmapLoop {n : ℕ} {k : Kmap} {ks : List Kmap} {R : Option ℕ → Mem → Prop}
    (h : Local X L fl s) (hvirt : k.virt = p * PGSIZE)
    (hsize : (k.phys_end + 2 ^ 32 - k.phys_start) % 2 ^ 32 = n * PGSIZE)
    (hstart : k.phys_start = a * PGSIZE) (hp : 2 ^ 19 ≤ p) (hn : 0 < n) (hlast : p + n ≤ 2 ^ 20)
    (ha : a + n ≤ 2 ^ 20) (hperm : k.perm < 2 ^ 12)
    (hnone : ∀ q, p ≤ q → q < p + n → L.entry q &&& PTE_P = 0)
    (hfail : ∀ L' s', s.Keeps X s' → Local X L' [] s' → L.SameUser L' → R none s')
    (hrest : ∀ L' fl' s', s.Keeps X s' → Local X L' fl' s' → L.SameUser L' →
      L'.entry = L.mapRange p (p + n - 1) a k.perm →
      Wp E (kmapLoop (L'.dir * PGSIZE) ks) R s') :
    Wp E (kmapLoop (L.dir * PGSIZE) (k :: ks)) R s := by
  unfold kmapLoop
  rw [hvirt, hsize, hstart]
  refine Wp.bind (wp_mappages_kernel h hp hn hlast ha hperm hnone) ?_
  rintro r s' ⟨hkeeps, L', fl', hlocal, hsame, ⟨rfl, rfl⟩ | ⟨rfl, hentry⟩⟩
  · rw [if_neg (by decide)]
    exact hfail L' s' hkeeps hlocal hsame
  · rw [if_pos rfl, ← hsame.dir]
    exact hrest L' fl' s' hkeeps hlocal hsame hentry

/-- What the loop of `setupkvm` does: the part of the kernel is mapped, or there is no free
frame. -/
def KmapPost (X : Set ℕ) (f : ℕ) (s : Mem) (r : Option ℕ) (s' : Mem) : Prop :=
  s.Keeps X s' ∧ ∃ L fl', L.dir = f ∧ Local X L fl' s' ∧ (∀ i < 512, L.table i = none) ∧
    (r = none ∧ fl' = [] ∨ r = some (f * PGSIZE) ∧ L.User s.kdata)

/-- All ranges of `kmap`, in an address space without pages.

**Proof sketch.** The four ranges are walked one after the other (`wp_kmapLoop`). Each starts where
the one before it ends, or beyond, so its entries are still zero: that the ranges do not overlap is
where the image of the kernel has to be linked below `PHYSTOP`. A range that finds no free frame
ends the loop with what has been mapped so far, which has no user part. -/
theorem wp_kmap (h : Local X (Layout.empty f) fl s) (hlinked : s.Linked) :
    Wp E (kmapLoop (f * PGSIZE) s.kmap) (KmapPost X f s) s := by
  obtain ⟨haligned, htext, hdata, htop⟩ := hlinked
  obtain ⟨d, hd⟩ : ∃ d, s.kdata = d * PGSIZE :=
    ⟨s.kdata / PGSIZE, (Nat.div_mul_cancel (Nat.dvd_of_mod_eq_zero haligned)).symm⟩
  have hdlo : 256 < d := by
    rw [hd] at htext
    unfold EXTMEM PGSIZE at htext
    omega
  have hdhi : d < 0xE000 := by
    have hlt := hdata.trans_lt htop
    rw [hd] at hlt
    unfold PHYSTOP PGSIZE at hlt
    omega
  have hvirt : P2V (d * PGSIZE) = (2 ^ 19 + d) * PGSIZE := by
    unfold P2V KERNBASE PGSIZE
    omega
  have hfail : ∀ L L' s', (Layout.empty f).SameUser L → L.SameUser L' → s.Keeps X s' →
      Local X L' [] s' → KmapPost X f s none s' := by
    intro L L' s' hsame hsame' hkeeps hlocal
    have hall := hsame.trans hsame'
    exact ⟨hkeeps, L', [], hall.dir, hlocal, fun i hi => hall.table i hi, .inl ⟨rfl, rfl⟩⟩
  rw [Mem.kmap, hd, show f = (Layout.empty f).dir from rfl]
  -- the four ranges, one after the other
  refine wp_kmapLoop (p := 2 ^ 19) (n := 256) (a := 0) h (by decide) (by decide) (by decide)
    le_rfl (by decide) (by decide) (by decide) (by decide)
    (fun _ _ _ => Nat.zero_and _)
    (fun L' s' hk hl hsame => hfail _ L' s' (.refl _) hsame hk hl)
    fun L₁ fl₁ s₁ hk₁ hl₁ hsame₁ hentry₁ => ?_
  refine wp_kmapLoop (p := 2 ^ 19 + 256) (n := d - 256) (a := 256) hl₁
    (show P2V EXTMEM = (2 ^ 19 + 256) * PGSIZE by decide) ?_
    (show EXTMEM = 256 * PGSIZE by decide) (by omega) (by omega) (by omega) (by omega)
    (show 0 < 2 ^ 12 by decide) (fun q hlo hhi => ?_)
    (fun L' s' hk hl hsame => hfail _ L' s' hsame₁ hsame (hk₁.trans hk le_rfl) hl)
    fun L₂ fl₂ s₂ hk₂ hl₂ hsame₂ hentry₂ => ?_
  · dsimp only
    unfold EXTMEM PGSIZE
    omega
  · rw [hentry₁, Layout.mapRange, if_neg (by omega)]
    exact Nat.zero_and _
  refine wp_kmapLoop (p := 2 ^ 19 + d) (n := 0xE000 - d) (a := d) hl₂ hvirt ?_ rfl
    (by omega) (by omega) (by omega) (by omega) (show PTE_W < 2 ^ 12 by decide)
    (fun q hlo hhi => ?_)
    (fun L' s' hk hl hsame => hfail _ L' s' (hsame₁.trans hsame₂) hsame
      ((hk₁.trans hk₂ le_rfl).trans hk le_rfl) hl)
    fun L₃ fl₃ s₃ hk₃ hl₃ hsame₃ hentry₃ => ?_
  · dsimp only
    unfold PHYSTOP PGSIZE
    omega
  · rw [hentry₂, Layout.mapRange, if_neg (by omega), hentry₁, Layout.mapRange, if_neg (by omega)]
    exact Nat.zero_and _
  refine wp_kmapLoop (p := 0xFE000) (n := 0x2000) (a := 0xFE000) hl₃ (by decide) (by decide)
    (by decide) (by decide) (by decide) (by decide) (by decide) (by decide) (fun q hlo hhi => ?_)
    (fun L' s' hk hl hsame => hfail _ L' s' ((hsame₁.trans hsame₂).trans hsame₃) hsame
      (((hk₁.trans hk₂ le_rfl).trans hk₃ le_rfl).trans hk le_rfl) hl)
    fun L₄ fl₄ s₄ hk₄ hl₄ hsame₄ hentry₄ => ?_
  · rw [hentry₃, Layout.mapRange, if_neg (by omega), hentry₂, Layout.mapRange, if_neg (by omega),
      hentry₁, Layout.mapRange, if_neg (by omega)]
    exact Nat.zero_and _
  have hsame := ((hsame₁.trans hsame₂).trans hsame₃).trans hsame₄
  rw [kmapLoop, wp_pure]
  refine ⟨((hk₁.trans hk₂ le_rfl).trans hk₃ le_rfl).trans hk₄ le_rfl, L₄, fl₄, hsame.dir, hl₄,
    fun i hi => hsame.table i hi, .inr ⟨by rw [hsame.dir], ?_, fun q hq => ?_, fun q hlo hhi => ?_⟩⟩
  · exact fun i j _ hj _ => hsame.table j hj
  · exact .inl (hsame.entry q hq)
  · have hdiv : d * PGSIZE / PGSIZE = d := Nat.mul_div_cancel _ (by decide)
    have hio : EXTMEM / PGSIZE = 256 := by decide
    have htop : PHYSTOP / PGSIZE = 0xE000 := by decide
    have hdev : DEVSPACE / PGSIZE = 0xFE000 := by decide
    rw [hentry₄, Layout.mapRange, hentry₃, Layout.mapRange, hentry₂, Layout.mapRange, hentry₁,
      Layout.mapRange, kernelEntry, hd, hdiv, hio, htop, hdev]
    by_cases h₁ : q < 2 ^ 19 + 256
    · rw [if_neg (by omega), if_neg (by omega), if_neg (by omega), if_pos (by omega), if_pos h₁,
        Nat.zero_add]
    rw [if_neg h₁]
    by_cases h₂ : q < 2 ^ 19 + d
    · rw [if_neg (by omega), if_neg (by omega), if_pos (by omega), if_pos h₂,
        show 256 + (q - (2 ^ 19 + 256)) = q - 2 ^ 19 by omega]
    rw [if_neg h₂]
    by_cases h₃ : q < 2 ^ 19 + 0xE000
    · rw [if_neg (by omega), if_pos (by omega), if_pos h₃,
        show d + (q - (2 ^ 19 + d)) = q - 2 ^ 19 by omega]
    rw [if_neg h₃]
    by_cases h₄ : 0xFE000 ≤ q
    · rw [if_pos (by omega), if_pos h₄, show 0xFE000 + (q - 0xFE000) = q by omega]
    · rw [if_neg (by omega), if_neg (by omega), if_neg (by omega), if_neg (by omega), if_neg h₄]
      rfl

/-- What is left when `setupkvm` has not succeeded: there is no free frame. -/
def Exhausted (fl : List ℕ) (s : Mem) : Prop :=
  FreeList [] s ∧ (fl = [] ∨ ∃ L, Local {g | g ∈ fl} L [] s ∧ ∀ i < 512, L.table i = none)

/-- **`setupkvm`** makes an address space without a user part, or there are no free frames.

**Proof sketch.** Without a free frame `kalloc` returns 0, and nothing has changed. Otherwise the
frame, filled with zeros, is the page directory of the empty address space (`Local.start`), into
which the loop maps the part of the kernel (`wp_kmap`). Where the loop gives up, the free list is
empty: the frames taken are lost, as `setupkvm` does not give them back. -/
theorem wp_setupkvm (h : FreeList fl s) (hlinked : s.Linked) : Wp E setupkvm (fun r s' =>
    s.Keeps {g | g ∈ fl} s' ∧ (r = none ∧ Exhausted fl s' ∨
      ∃ L fl', r = some (L.dir * PGSIZE) ∧ Local {g | g ∈ fl} L fl' s' ∧ L.User s.kdata ∧
        ∀ i < 512, L.table i = none)) s := by
  unfold setupkvm
  refine Wp.bind (wp_kalloc_free h) ?_
  rintro r s₀ ⟨hkeeps₀, ⟨rfl, rfl, rfl⟩ | ⟨f, fl₀, rfl, rfl, hfree⟩⟩
  · exact ⟨.refl s₀ _, .inl ⟨rfl, h, .inl rfl⟩⟩
  dsimp only
  rw [wp_bind, wp_modify, if_neg (by decide), wp_bind, wp_get, Mem.fill, setFrame_eq]
  have hf := (List.nodup_cons.mp h.nodup).1
  obtain ⟨s₁, hs₁⟩ : ∃ s₁ : Mem, s₁ = { s₀ with frame := Function.update s₀.frame f fun _ => 0 } :=
    ⟨_, rfl⟩
  rw [← hs₁]
  have hX : {g | g ∈ f :: fl₀} = Insert.insert f {g | g ∈ fl₀} := by
    ext g
    simp
  have hframe₁ : ∀ g, g ≠ f → s₁.frame g = s₀.frame g := by
    intro g hg
    rw [hs₁]
    exact Function.update_of_ne hg ..
  have hlocal₁ : Local {g | g ∈ f :: fl₀} (Layout.empty f) fl₀ s₁ := by
    rw [hX]
    refine Local.start (hfree.congr (by rw [hs₁]) (by rw [hs₁]) fun g hg =>
      hframe₁ g fun heq => hf (heq ▸ hg)) ?_ hf (by rw [hs₁]; exact Function.update_self ..)
    exact (h.usable f List.mem_cons_self).congr (by rw [hs₁]; exact hkeeps₀.kend)
  have hkeeps₁ : s.Keeps {g | g ∈ f :: fl₀} s₁ := by
    refine ⟨by rw [hs₁]; exact hkeeps₀.kend, by rw [hs₁]; exact hkeeps₀.kdata, fun g hg => ?_⟩
    rw [hframe₁ g fun heq => hg (heq ▸ List.mem_cons_self)]
    exact hkeeps₀.frame g (Set.notMem_empty g)
  refine (wp_kmap hlocal₁ (hlinked.keeps hkeeps₁)).mono ?_
  rintro r s' ⟨hkeeps, L, fl', hdir, hlocal, hbare, ⟨rfl, rfl⟩ | ⟨rfl, huser⟩⟩
  · exact ⟨hkeeps₁.trans hkeeps le_rfl, .inl ⟨rfl, hlocal.free, .inr ⟨L, hlocal, hbare⟩⟩⟩
  · rw [hkeeps₁.kdata] at huser
    exact ⟨hkeeps₁.trans hkeeps le_rfl, .inr ⟨L, fl', by rw [hdir], hlocal, huser, hbare⟩⟩

/-! ## The part of the user -/

/-- A page as a program has it. -/
structure Page where
  /-- the program may use it -/
  user : Bool
  data : Data

/-- The pages of the program. -/
def Layout.image (L : Layout) (q : ℕ) : Option Page :=
  if q < 2 ^ 19 ∧ L.entry q &&& PTE_P ≠ 0 then some ⟨L.entry q &&& PTE_U ≠ 0, L.data q⟩ else none

theorem image_isSome : (L.image q).isSome ↔ (L.page q).isSome := by
  unfold Layout.image Layout.page
  split_ifs <;> simp

theorem entry_of_image (hq : q < 2 ^ 19) (h : L.image q = none) : L.entry q &&& PTE_P = 0 := by
  unfold Layout.image at h
  by_contra hne
  rw [if_pos ⟨hq, hne⟩] at h
  cases h

theorem page_of_image (h : L.image q ≠ none) :
    q < 2 ^ 19 ∧ L.page q = some (L.entry q / PGSIZE) := by
  unfold Layout.image at h
  by_cases hq : q < 2 ^ 19 ∧ L.entry q &&& PTE_P ≠ 0
  · exact ⟨hq.1, if_pos hq⟩
  · exact absurd (if_neg hq) h

theorem userEntry_present (f : ℕ) (u : Bool) : userEntry f u &&& PTE_P ≠ 0 := Vm.present _ _

/-- The flags of a page of a program. -/
theorem PTE_FLAGS_userEntry (f : ℕ) (u : Bool) :
    PTE_FLAGS (userEntry f u) = (PTE_W ||| if u then PTE_U else 0) ||| PTE_P := by
  cases u
  · exact PTE_FLAGS_entry (by decide)
  · exact PTE_FLAGS_entry (by decide)

theorem userEntry_div (f : ℕ) (u : Bool) : userEntry f u / PGSIZE = f := by
  cases u
  · exact entry_div (by decide)
  · exact entry_div (by decide)

/-- The program may use a page if the entry says so. -/
theorem userEntry_user (f : ℕ) (u : Bool) : (userEntry f u &&& PTE_U ≠ 0) ↔ u = true := by
  have hbit : userEntry f u &&& PTE_U = PTE_FLAGS (userEntry f u) &&& PTE_U := by
    have hmask : PTE_U = (2 ^ 12 - 1) &&& PTE_U := by decide
    rw [PTE_FLAGS, ← Nat.and_two_pow_sub_one_eq_mod, Nat.and_assoc, ← hmask]
  rw [hbit, PTE_FLAGS_userEntry]
  cases u <;> decide

theorem userEntry_writable (f : ℕ) (u : Bool) : userEntry f u &&& PTE_W ≠ 0 := by
  have hbit : userEntry f u &&& PTE_W = PTE_FLAGS (userEntry f u) &&& PTE_W := by
    have hmask : PTE_W = (2 ^ 12 - 1) &&& PTE_W := by decide
    rw [PTE_FLAGS, ← Nat.and_two_pow_sub_one_eq_mod, Nat.and_assoc, ← hmask]
  rw [hbit, PTE_FLAGS_userEntry]
  cases u <;> decide

@[simp] theorem image_setTable (i t : ℕ) : (L.setTable i t).image = L.image := rfl

/-- A page is mapped. -/
theorem image_setEntry (hp : p < 2 ^ 19) (f : ℕ) (u : Bool) :
    (L.setEntry p (userEntry f u) b).image = Function.update L.image p (some ⟨u, b⟩) := by
  funext q
  unfold Layout.image Layout.setEntry
  by_cases hq : q = p
  · subst hq
    simp only [Function.update_self]
    rw [if_pos ⟨hp, userEntry_present f u⟩]
    simp [userEntry_user]
  · simp only [Function.update_of_ne hq]

/-- The entries of a range of pages are cleared. -/
def Layout.clear (p hi : ℕ) (L : Layout) : Layout :=
  { L with entry := fun q => if p ≤ q ∧ q * PGSIZE < hi then 0 else L.entry q }

theorem image_clear (p hi : ℕ) : (L.clear p hi).image = fun q =>
    if p ≤ q ∧ q * PGSIZE < hi then none else L.image q := by
  funext q
  unfold Layout.image Layout.clear
  dsimp only
  split_ifs with hin
  all_goals simp_all

/-- Clearing entries that are clear already. -/
theorem clear_congr {p' hi : ℕ} (hle : p ≤ p')
    (hzero : ∀ q, p ≤ q → q < p' → q * PGSIZE < hi → L.entry q = 0) :
    L.clear p hi = L.clear p' hi := by
  unfold Layout.clear
  congr 1
  funext q
  by_cases hin : p ≤ q ∧ q * PGSIZE < hi
  · by_cases hq : p' ≤ q
    · rw [if_pos hin, if_pos ⟨hq, hin.2⟩]
    · rw [if_pos hin, if_neg fun h => hq h.1, hzero q hin.1 (by omega) hin.2]
  · rw [if_neg hin, if_neg fun h => hin ⟨hle.trans h.1, h.2⟩]

theorem Layout.User.clear {kdata hi : ℕ} (h : L.User kdata) (hhi : hi ≤ KERNBASE) (p : ℕ) :
    (L.clear p hi).User kdata := by
  refine ⟨h.contiguous, fun q hq => ?_, fun q hlo hq => ?_⟩
  · unfold Layout.clear
    dsimp only
    split_ifs
    · exact .inl rfl
    · exact h.entry q hq
  · unfold Layout.clear
    dsimp only
    rw [if_neg]
    · exact h.kernel q hlo hq
    · unfold KERNBASE at hhi
      unfold PGSIZE
      omega

/-- An entry of a page of a program that is not present is clear. -/
theorem Layout.User.entry_zero {kdata : ℕ} (h : L.User kdata) (hq : q < 2 ^ 19)
    (hnone : L.entry q &&& PTE_P = 0) : L.entry q = 0 := by
  rcases h.entry q hq with hzero | ⟨f, u, heq⟩
  · exact hzero
  · rw [heq] at hnone
    exact absurd hnone (userEntry_present f u)

/-! ## Unmapping pages -/

/-- **The loop of `deallocuvm`** from a page on. Where a table is missing it skips 1024 pages; there
is no table behind it then either.

**Proof sketch.** Induction on the number of passes. -/
theorem wp_deallocLoop {kdata oldsz : ℕ} (h : Local X L fl s) (huser : L.User kdata)
    (hold : oldsz ≤ KERNBASE) (hk0 : 0 < k) (hk : 2 ^ 19 < k + p) :
    Wp E (deallocLoop (L.dir * PGSIZE) oldsz k (p * PGSIZE)) (fun _ s' => s.Keeps X s' ∧
      ∃ fl', Local X (L.clear p oldsz) fl' s') s := by
  induction k generalizing p L fl s with
  | zero => omega
  | succ k ih =>
    unfold deallocLoop
    rw [wp_ite]
    refine ⟨fun hlt => ?_, fun hge => ?_⟩
    swap
    · refine ⟨.refl s X, fl, ?_⟩
      have hsame : L.clear p oldsz = L := by
        unfold Layout.clear
        congr 1
        funext q
        refine if_neg fun hin => hge ?_
        exact (Nat.mul_le_mul_right PGSIZE hin.1).trans_lt hin.2
      rw [hsame]
      exact h
    have hp : p < 2 ^ 19 := by
      unfold PGSIZE KERNBASE at *
      omega
    refine Wp.bind (wp_walkpgdir_find h.layout (by omega)) ?_
    rintro r s₁ ⟨rfl, rfl⟩
    cases htable : L.table (p / 1024) with
    | none =>
      have hnext : (p * PGSIZE + (NPTENTRIES - 1) * PGSIZE + PGSIZE) % 2 ^ 32 =
          (p + 1024) * PGSIZE := by
        unfold PGSIZE NPTENTRIES
        omega
      rw [Option.map_none]
      dsimp only
      rw [hnext, clear_congr (show p ≤ p + 1024 by omega) fun q hlo hhi hq => ?_]
      · exact ih h huser (by omega) (by omega)
      · refine h.layout.missing q (huser.contiguous (p / 1024) (q / 1024) (by omega) ?_ htable)
        unfold PGSIZE KERNBASE at *
        omega
    | some t =>
      rw [Option.map_some]
      dsimp only
      rw [next_page (by omega), wp_bind, wp_get, h.layout.word htable, wp_ite]
      refine ⟨fun hpresent => ?_, fun habsent => ?_⟩
      swap
      · rw [clear_congr (show p ≤ p + 1 by omega) fun q hlo hhi _ => ?_]
        · exact ih h huser (by omega) (by omega)
        · obtain rfl : q = p := by omega
          exact huser.entry_zero hp (not_not.mp habsent)
      have hpage : L.page p = some (L.entry p / PGSIZE) := if_pos ⟨hp, hpresent⟩
      have husable := h.layout.usable (.page p) _ hpage
      have hne : L.entry p / PGSIZE * PGSIZE ≠ 0 :=
        (Nat.mul_pos husable.pos (by decide)).ne'
      rw [PTE_ADDR_div, if_neg hne]
      refine Wp.bind (wp_kfree_free h.free husable (h.disjoint (.page p) _ hpage)) ?_
      rintro _ s₂ ⟨hkeeps, hfree⟩
      rw [wp_bind, wp_modify]
      have hlocal := h.unmap htable hpage hkeeps hfree
      have hkeeps₂ : s₁.Keeps X (s₂.setWord (t * PGSIZE + 4 * (p % 1024)) 0) := by
        refine ⟨hkeeps.kend, hkeeps.kdata, fun g hg => ?_⟩
        rw [setWord_eq (by omega)]
        refine (Function.update_of_ne ?_ ..).trans (hkeeps.frame g ?_)
        · rintro rfl
          exact hg (h.ref_mem (P := .table (p / 1024)) htable)
        · rintro rfl
          exact hg (h.ref_mem (P := .page p) hpage)
      have hclear : L.setEntry p 0 (L.data p) = L.clear p ((p + 1) * PGSIZE) := by
        unfold Layout.setEntry Layout.clear
        rw [Function.update_eq_self]
        congr 1
        funext q
        by_cases hq : q = p
        · rw [hq, Function.update_self, if_pos ⟨le_rfl, by unfold PGSIZE; omega⟩]
        · rw [Function.update_of_ne hq, if_neg]
          unfold PGSIZE
          omega
      rw [hclear] at hlocal
      have huser' : (L.clear p ((p + 1) * PGSIZE)).User kdata :=
        huser.clear (by unfold PGSIZE KERNBASE; omega) p
      refine (ih (L := L.clear p ((p + 1) * PGSIZE)) hlocal huser' (by omega) (by omega)).mono ?_
      rintro _ s' ⟨hkeeps₃, fl', hlocal'⟩
      refine ⟨hkeeps₂.trans hkeeps₃ le_rfl, fl', ?_⟩
      have hsame : (L.clear p ((p + 1) * PGSIZE)).clear (p + 1) oldsz = L.clear p oldsz := by
        unfold Layout.clear
        congr 1
        funext q
        dsimp only
        by_cases hin : p ≤ q ∧ q * PGSIZE < oldsz
        · rw [if_pos hin]
          by_cases hq : q = p
          · rw [hq, if_neg (by omega), if_pos ⟨le_rfl, by unfold PGSIZE; omega⟩]
          · rw [if_pos ⟨by omega, hin.2⟩]
        · rw [if_neg hin, if_neg fun hin' => hin ⟨by omega, hin'.2⟩, if_neg]
          rintro ⟨hlo, hhi⟩
          obtain rfl : q = p := by
            unfold PGSIZE at hhi
            omega
          exact hin ⟨le_rfl, hlt⟩
      rw [hsame] at hlocal'
      exact hlocal'

/-- **`deallocuvm`** unmaps the pages from the new size on.

**Proof sketch.** If the new size is not smaller there is nothing to do. Otherwise the loop starts
at the first page that begins at or above the new size, and it clears the entries up to the old size
(`wp_deallocLoop`); in the image these are the pages of the statement. -/
theorem wp_deallocuvm {kdata oldsz newsz : ℕ} (h : Local X L fl s) (huser : L.User kdata)
    (hold : oldsz ≤ KERNBASE) : Wp E (deallocuvm (L.dir * PGSIZE) oldsz newsz) (fun r s' =>
      s.Keeps X s' ∧ r = min oldsz newsz ∧ ∃ L' fl', Local X L' fl' s' ∧ L'.User kdata ∧
        L'.dir = L.dir ∧ L'.table = L.table ∧ L'.image = fun q =>
          if newsz ≤ q * PGSIZE ∧ q * PGSIZE < oldsz then none else L.image q) s := by
  unfold deallocuvm PASSES
  rw [wp_ite]
  refine ⟨fun hge => ?_, fun hlt => ?_⟩
  · refine ⟨.refl s X, by omega, L, fl, h, huser, rfl, rfl, funext fun q => (if_neg ?_).symm⟩
    omega
  obtain ⟨p, hround, -, hle⟩ := Vm.PGROUNDUP_eq (show newsz ≤ KERNBASE by omega)
  rw [hround]
  refine Wp.bind (wp_deallocLoop h huser hold (by omega) (by omega)) ?_
  rintro _ s' ⟨hkeeps, fl', hlocal⟩
  refine ⟨hkeeps, by omega, L.clear p oldsz, fl', hlocal, huser.clear hold p, rfl, rfl, ?_⟩
  rw [image_clear]
  simp only [hle]

/-! ## Mapping pages -/

/-- The tables for the first pages are there. -/
def Layout.Reaches (L : Layout) (p : ℕ) : Prop := ∀ q < p, L.table (q / 1024) ≠ none

theorem Layout.Reaches.setTable {n t : ℕ} (h : L.Reaches n) (i : ℕ) :
    (L.setTable i t).Reaches n := by
  intro q hq
  unfold Layout.setTable
  dsimp only
  by_cases hi : q / 1024 = i
  · rw [hi, Function.update_self]
    simp
  · rw [Function.update_of_ne hi]
    exact h q hq

/-- A page behind the first ones has got its table. -/
theorem Layout.Reaches.succ {t : ℕ} (h : L.Reaches p) :
    (L.setTable (p / 1024) t).Reaches (p + 1) := by
  intro q hq
  by_cases hqp : q = p
  · unfold Layout.setTable
    dsimp only
    rw [hqp, Function.update_self]
    simp
  · exact h.setTable _ q (by omega)

/-- A page is mapped behind the first ones. -/
theorem Layout.User.map {kdata t : ℕ} (h : L.User kdata) (hreach : L.Reaches p) (hp : p < 2 ^ 19)
    (f : ℕ) (u : Bool) (b : Data) :
    ((L.setTable (p / 1024) t).setEntry p (userEntry f u) b).User kdata := by
  refine ⟨fun i j hij hj hnone => ?_, fun q hq => ?_, fun q hlo hq => ?_⟩
  · change Function.update L.table (p / 1024) (some t) i = none at hnone
    change Function.update L.table (p / 1024) (some t) j = none
    have hi : i ≠ p / 1024 := by
      rintro rfl
      rw [Function.update_self] at hnone
      cases hnone
    rw [Function.update_of_ne hi] at hnone
    have hjp : j ≠ p / 1024 := by
      rintro rfl
      refine hreach (1024 * i) (by omega) ?_
      rw [Nat.mul_div_cancel_left _ (by decide)]
      exact hnone
    rw [Function.update_of_ne hjp]
    exact h.contiguous i j hij hj hnone
  · change Function.update L.entry p (userEntry f u) q = 0 ∨
      ∃ g w, Function.update L.entry p (userEntry f u) q = userEntry g w
    by_cases hqp : q = p
    · rw [hqp, Function.update_self]
      exact .inr ⟨f, u, rfl⟩
    · rw [Function.update_of_ne hqp]
      exact h.entry q hq
  · exact (Function.update_of_ne (by omega) ..).trans (h.kernel q hlo hq)

/-- What `allocuvm` keeps of an address space. -/
structure Layout.Grows (L L' : Layout) : Prop where
  dir : L'.dir = L.dir
  reaches : ∀ n, L.Reaches n → L'.Reaches n

theorem Layout.Grows.refl (L : Layout) : L.Grows L := ⟨rfl, fun _ h => h⟩

theorem Layout.Grows.trans {L'' : Layout} (h : L.Grows L') (h' : L'.Grows L'') : L.Grows L'' :=
  ⟨h'.dir.trans h.dir, fun n hn => h'.reaches n (h.reaches n hn)⟩

/-- The number of pages up to a size. -/
def pages (sz : ℕ) : ℕ := (sz + PGSIZE - 1) / PGSIZE

theorem lt_pages {sz : ℕ} : q < pages sz ↔ q * PGSIZE < sz := by
  unfold pages PGSIZE
  omega

/-- The number of the frames of a list. -/
theorem ncard_list (h : fl.Nodup) : {g | g ∈ fl}.ncard = fl.length := by
  rw [← List.toFinset_card_of_nodup h, ← Set.ncard_coe_finset, List.coe_toFinset]

/-- The frames are the free ones and those of the address space, of which there are not many. -/
theorem Local.card_le_add {m n : ℕ} (h : Local X L fl s) (hm : ∀ i < m, L.table i = none)
    (hn : ∀ q, n ≤ q → L.image q = none) : X.ncard ≤ fl.length + (1 + (1024 - m) + n) := by
  obtain ⟨T, hT⟩ : ∃ T, T = (fun i => (L.table i).getD 0) '' Set.Ico m 1024 := ⟨_, rfl⟩
  obtain ⟨P, hP⟩ : ∃ P, P = (fun q => (L.page q).getD 0) '' Set.Iio n := ⟨_, rfl⟩
  have hsub : X ⊆ {f | f ∈ fl} ∪ ({L.dir} ∪ T ∪ P) := by
    rw [hT, hP]
    intro f hf
    rcases (h.mem f).mp hf with hfree | ⟨P, hP⟩
    · exact .inl hfree
    cases P with
    | dir => exact .inr (.inl (.inl (Option.some.inj hP).symm))
    | table i =>
      refine .inr (.inl (.inr ⟨i, ⟨?_, h.layout.table_lt hP⟩, ?_⟩))
      · by_contra hi
        rw [Layout.ref, hm i (not_le.mp hi)] at hP
        cases hP
      · dsimp only
        rw [show L.table i = some f from hP, Option.getD_some]
    | page q =>
      refine .inr (.inr ⟨q, ?_, ?_⟩)
      · by_contra hq
        have hnone := hn q (not_lt.mp hq)
        have hsome := image_isSome.mpr (Option.isSome_of_mem (show L.page q = some f from hP))
        rw [hnone] at hsome
        cases hsome
      · dsimp only
        rw [show L.page q = some f from hP, Option.getD_some]
  have hTfin : T.Finite := hT ▸ (Set.finite_Ico m 1024).image _
  have hPfin : P.Finite := hP ▸ (Set.finite_Iio n).image _
  have hTcard : T.ncard ≤ 1024 - m :=
    calc T.ncard ≤ (Set.Ico m 1024).ncard := hT ▸ Set.ncard_image_le (Set.finite_Ico m 1024)
      _ = 1024 - m := by rw [← Finset.coe_Ico, Set.ncard_coe_finset, Nat.card_Ico]
  have hPcard : P.ncard ≤ n :=
    calc P.ncard ≤ (Set.Iio n).ncard := hP ▸ Set.ncard_image_le (Set.finite_Iio n)
      _ = n := by rw [← Finset.coe_Iio, Set.ncard_coe_finset, Nat.card_Iio]
  have hfree : {f | f ∈ fl}.Finite := List.finite_toSet fl
  calc X.ncard ≤ ({f | f ∈ fl} ∪ ({L.dir} ∪ T ∪ P)).ncard :=
        Set.ncard_le_ncard hsub (hfree.union (((Set.finite_singleton _).union hTfin).union hPfin))
    _ ≤ {f | f ∈ fl}.ncard + ({L.dir} ∪ T ∪ P).ncard := Set.ncard_union_le _ _
    _ ≤ {f | f ∈ fl}.ncard + (({L.dir} ∪ T).ncard + P.ncard) :=
        Nat.add_le_add_left (Set.ncard_union_le _ _) _
    _ ≤ {f | f ∈ fl}.ncard + (({L.dir} : Set ℕ).ncard + T.ncard + P.ncard) :=
        Nat.add_le_add_left (Nat.add_le_add_right (Set.ncard_union_le _ _) _) _
    _ ≤ fl.length + (1 + (1024 - m) + n) := by
        rw [ncard_list h.free.nodup, Set.ncard_singleton]
        omega

/-- Without free frames, the frames are those of the address space. -/
theorem Local.card_le {n : ℕ} (h : Local X L [] s) (hn : ∀ q, n ≤ q → L.image q = none) :
    X.ncard ≤ 1025 + n := by
  have hcard := h.card_le_add (m := 0) (fun i hi => absurd hi (Nat.not_lt_zero i)) hn
  rw [List.length_nil] at hcard
  omega

/-- Without tables for programs there are no pages. -/
theorem Local.image_bare (h : Local X L fl s) (hbare : ∀ i < 512, L.table i = none) (q : ℕ) :
    L.image q = none := by
  rw [Layout.image]
  by_cases hq : q < 2 ^ 19
  · rw [h.layout.missing q (hbare (q / 1024) (by omega)), if_neg (by simp)]
  · rw [if_neg fun hin => hq hin.1]

/-- What `allocuvm` does: it maps the pages from `p` up to the new size, filled with zeros, or none
of them if there are not enough frames. -/
def AllocPost (X : Set ℕ) (L : Layout) (kdata p newsz : ℕ) (s : Mem) (r : ℕ) (s' : Mem) : Prop :=
  s.Keeps X s' ∧ ∃ L' fl', Local X L' fl' s' ∧ L'.User kdata ∧ L.Grows L' ∧
    (r = newsz ∧ (∀ q, q * PGSIZE < newsz → L'.Reaches (q + 1)) ∧ (L'.image = fun q =>
        if p ≤ q ∧ q * PGSIZE < newsz then some ⟨true, fun _ => 0⟩ else L.image q) ∨
      r = 0 ∧ L'.image = L.image ∧ X.ncard ≤ 1025 + pages newsz)

/-- The pages between `p₀` and `p` have been mapped. -/
def Layout.filled (p₀ p : ℕ) (I : ℕ → Option Page) (q : ℕ) : Option Page :=
  if p₀ ≤ q ∧ q < p then some ⟨true, fun _ => 0⟩ else I q

/-- When a pass of `allocuvm` has failed, `deallocuvm` unmaps the pages that have been mapped. -/
theorem wp_undo {kdata newsz p₀ oldsz : ℕ} {L₀ : Layout} (h : Local X L fl s)
    (huser : L.User kdata) (hnew : newsz ≤ KERNBASE) (hgrows : L₀.Grows L)
    (himage : L.image = Layout.filled p₀ p L₀.image)
    (hround : ∀ q, p₀ ≤ q ↔ oldsz ≤ q * PGSIZE) (hp : ∀ q, q < p → q * PGSIZE < newsz)
    (hnone : ∀ q, p₀ ≤ q → q * PGSIZE < newsz → L₀.image q = none) :
    Wp E (deallocuvm (L.dir * PGSIZE) newsz oldsz) (fun _ s' => s.Keeps X s' ∧ ∃ L' fl',
      Local X L' fl' s' ∧ L'.User kdata ∧ L₀.Grows L' ∧ L'.image = L₀.image) s := by
  refine (wp_deallocuvm h huser hnew).mono ?_
  rintro _ s' ⟨hkeeps, -, L', fl', hlocal, huser', hdir, htable, himage'⟩
  refine ⟨hkeeps, L', fl', hlocal, huser', hgrows.trans ⟨hdir, fun n hn q hq => ?_⟩,
    funext fun q => ?_⟩
  · rw [htable]
    exact hn q hq
  · rw [himage', himage]
    dsimp only
    simp only [← hround]
    by_cases hin : p₀ ≤ q ∧ q * PGSIZE < newsz
    · rw [if_pos hin, hnone q hin.1 hin.2]
    · rw [if_neg hin, Layout.filled, if_neg fun h => hin ⟨h.1, hp q h.2⟩]

/-- **The loop of `allocuvm`**, with the pages up to `p` mapped.

**Proof sketch.** Induction on the number of passes. A pass takes a frame out of the footprint,
clears it, and maps it; if there is no frame, for the page or for its table, the pages that have
been mapped are unmapped. -/
theorem wp_allocLoop {kdata newsz p₀ oldsz : ℕ} {L₀ : Layout} (h : Local X L fl s)
    (huser : L.User kdata) (hnew : newsz < KERNBASE) (hgrows : L₀.Grows L)
    (himage : L.image = Layout.filled p₀ p L₀.image) (hp₀ : p₀ ≤ p)
    (hround : ∀ q, p₀ ≤ q ↔ oldsz ≤ q * PGSIZE) (hp : ∀ q, q < p → q * PGSIZE < newsz)
    (hnone : ∀ q, p₀ ≤ q → L₀.image q = none) (hreach : L.Reaches p)
    (hk0 : 0 < k) (hk : 2 ^ 19 < k + p) :
    Wp E (allocLoop (L.dir * PGSIZE) oldsz newsz k (p * PGSIZE)) (AllocPost X L₀ kdata p₀ newsz s)
      s := by
  induction k generalizing p L fl s with
  | zero => omega
  | succ k ih =>
    unfold allocLoop
    rw [wp_ite]
    refine ⟨fun hlt => ?_, fun hge => ?_⟩
    swap
    · refine ⟨.refl s X, L, fl, h, huser, hgrows, .inl ⟨rfl, fun q hq => ?_, ?_⟩⟩
      · have hqp : q < p := by
          by_contra hle
          exact hge ((Nat.mul_le_mul_right PGSIZE (not_lt.mp hle)).trans_lt hq)
        exact fun r hr => hreach r (by omega)
      · rw [himage]
        funext q
        unfold Layout.filled
        have hiff : q < p ↔ q * PGSIZE < newsz := by
          refine ⟨hp q, fun hq => ?_⟩
          by_contra hle
          exact hge ((Nat.mul_le_mul_right PGSIZE (not_lt.mp hle)).trans_lt hq)
        simp only [hiff]
    have hp' : p < 2 ^ 19 := by
      unfold PGSIZE KERNBASE at *
      omega
    have hfree : L.image p = none := by
      rw [himage, Layout.filled, if_neg (by omega)]
      exact hnone p hp₀
    have hbeyond : ∀ q, p ≤ q → L.image q = none := by
      intro q hq
      rw [himage, Layout.filled, if_neg (by omega)]
      exact hnone q (by omega)
    have hpages := lt_pages.mpr hlt
    refine Wp.bind (wp_kalloc h) ?_
    rintro r s₁ ⟨hkeeps₁, ⟨rfl, rfl, rfl⟩ | ⟨f, fl₁, rfl, rfl, hf, hlocal₁⟩⟩
    · refine Wp.bind (wp_undo h huser hnew.le hgrows himage hround hp
        fun q hq _ => hnone q hq) ?_
      rintro _ s' ⟨hkeeps, L', fl', hlocal, huser', hgrows', himage'⟩
      refine ⟨hkeeps, L', fl', hlocal, huser', hgrows', .inr ⟨rfl, himage', ?_⟩⟩
      exact (h.card_le hbeyond).trans (by omega)
    have husable := h.usable hf
    dsimp only
    rw [wp_bind, wp_modify, Mem.fill, setFrame_eq]
    obtain ⟨s₂, hs₂⟩ : ∃ s₂ : Mem,
      s₂ = { s₁ with frame := Function.update s₁.frame f fun _ => 0 } := ⟨_, rfl⟩
    rw [← hs₂]
    have hkeeps₂ : s₁.Keeps {f} s₂ := by
      refine ⟨by rw [hs₂], by rw [hs₂], fun g hg => ?_⟩
      rw [hs₂]
      exact Function.update_of_ne hg ..
    have hzero : s₂.frame f = fun _ => 0 := by
      rw [hs₂]
      exact Function.update_self ..
    have hlocal₂ : Local (X \ {f}) L fl₁ s₂ :=
      hlocal₁.keeps (by rw [hs₂]) hkeeps₂ fun g hg => hg.2
    have husable₂ : s₂.Usable f := hkeeps₂.usable.mpr (hkeeps₁.usable.mpr husable)
    have hkeeps : s.Keeps X s₂ := (hkeeps₁.mono (Set.empty_subset X)).trans
      (hkeeps₂.mono (Set.singleton_subset_iff.mpr hf)) le_rfl
    have hsub : X \ {f} ⊆ X := Set.sdiff_subset
    refine Wp.bind (wp_mappages hlocal₂ hp' (entry_of_image hp' hfree) husable₂ (by simp)
      (by decide)) ?_
    rintro r s₃ ⟨hkeeps₃, ⟨rfl, rfl, rfl⟩ | ⟨rfl, t, fl₃, ht, hlocal₃⟩⟩
    · -- there is no frame for the page table
      rw [if_neg (by decide)]
      refine Wp.bind (wp_undo hlocal₂ huser hnew.le hgrows himage hround hp
        fun q hq _ => hnone q hq) ?_
      rintro _ s₄ ⟨hkeeps₄, L', fl₄, hlocal₄, huser', hgrows', himage'⟩
      refine Wp.bind (wp_kfree hlocal₄ (hkeeps₄.usable.mpr husable₂) (by simp)) ?_
      rintro _ s₅ ⟨hkeeps₅, hlocal₅⟩
      rw [Set.insert_sdiff_singleton, Set.insert_eq_of_mem hf] at hlocal₅
      refine ⟨(hkeeps.trans (hkeeps₄.mono hsub) le_rfl).trans
        (hkeeps₅.mono (Set.singleton_subset_iff.mpr hf)) le_rfl, L', f :: fl₄, hlocal₅, huser',
        hgrows', .inr ⟨rfl, himage', ?_⟩⟩
      have hcard := hlocal₂.card_le hbeyond
      rw [Set.ncard_sdiff_singleton_of_mem hf] at hcard
      omega
    rw [if_pos rfl, next_page (by omega)]
    rw [Set.insert_sdiff_singleton, Set.insert_eq_of_mem hf, hzero,
      show f * PGSIZE ||| (PTE_W ||| PTE_U) ||| PTE_P = userEntry f true from rfl] at hlocal₃
    obtain ⟨L₁, hL₁⟩ : ∃ L₁, L₁ = (L.setTable (p / 1024) t).setEntry p (userEntry f true)
      fun _ => 0 := ⟨_, rfl⟩
    have hreach₁ : L₁.Reaches (p + 1) := by
      rw [hL₁]
      exact hreach.succ
    have hgrows₁ : L₀.Grows L₁ := by
      refine hgrows.trans ⟨by rw [hL₁]; rfl, fun n hn => ?_⟩
      rw [hL₁]
      exact hn.setTable (p / 1024)
    have huser₁ : L₁.User kdata := by
      rw [hL₁]
      exact huser.map hreach hp' f true _
    have himage₁ : L₁.image = Layout.filled p₀ (p + 1) L₀.image := by
      rw [hL₁, image_setEntry hp', image_setTable, himage]
      funext q
      unfold Layout.filled
      by_cases hq : q = p
      · rw [hq, Function.update_self, if_pos (by omega)]
      · rw [Function.update_of_ne hq]
        simp only [show q < p + 1 ↔ q < p by omega]
    have hp₁ : ∀ q, q < p + 1 → q * PGSIZE < newsz := by
      intro q hq
      by_cases hqp : q = p
      · rw [hqp]
        exact hlt
      · exact hp q (by omega)
    rw [← hL₁] at hlocal₃
    have hdir : L.dir = L₁.dir := by rw [hL₁]; rfl
    rw [hdir]
    refine (ih hlocal₃ huser₁ hgrows₁ himage₁ (by omega) hp₁ hreach₁ (by omega)
      (by omega)).mono ?_
    rintro r s' ⟨hkeeps₄, hpost⟩
    exact ⟨(hkeeps.trans (hkeeps₃.mono hsub) le_rfl).trans hkeeps₄ le_rfl, hpost⟩

/-- **`allocuvm`** maps the pages between the sizes or none of them.

**Proof sketch.** The loop starts at the page `n`, as `n` is the first page that begins at or above
the old size. `wp_allocLoop` then goes through the pages up to the new size, from an address space
that has the pages below `n`. -/
theorem wp_allocuvm {kdata oldsz newsz n : ℕ} (h : Local X L fl s) (huser : L.User kdata)
    (hle : oldsz ≤ newsz) (hnew : newsz < KERNBASE)
    (hn : ∀ q, n ≤ q ↔ oldsz ≤ q * PGSIZE) (hreach : L.Reaches n)
    (hnone : ∀ q, n ≤ q → L.image q = none) :
    Wp E (allocuvm (L.dir * PGSIZE) oldsz newsz) (AllocPost X L kdata n newsz s) s := by
  unfold allocuvm PASSES
  rw [if_neg (by omega), if_neg (by omega)]
  obtain ⟨p, hround, hp, hround'⟩ := Vm.PGROUNDUP_eq (hle.trans hnew.le)
  obtain rfl : p = n := by
    have h₁ := (hn p).mpr ((hround' p).mp le_rfl)
    have h₂ := (hround' n).mpr ((hn n).mp le_rfl)
    omega
  rw [hround]
  refine wp_allocLoop h huser hnew (.refl L) ?_ le_rfl hround' (fun q hq => ?_) hnone hreach
    (by omega) (by omega)
  · funext q
    rw [Layout.filled, if_neg (by omega)]
  · have hlt := mt (hround' q).mpr (by omega)
    omega

/-- It refuses sizes that reach into the kernel's part. -/
theorem wp_allocuvm_top {pgdir oldsz newsz : ℕ} (htop : KERNBASE ≤ newsz) :
    Wp E (allocuvm pgdir oldsz newsz) (fun r s' => r = 0 ∧ s' = s) s := by
  unfold allocuvm
  rw [if_pos htop]
  exact ⟨rfl, rfl⟩

/-! ## Freeing an address space -/

/-- The loop of `freevm` frees the page tables that the page directory refers to.

**Proof sketch.** By induction on the list of indices. The entry of the directory says whether there
is a page table; if there is, it is a frame that is neither free nor the directory nor the table of
another index, so that giving it back keeps the free list, the directory and the tables still to
come. -/
theorem wp_freeTables {d : ℕ} {T : ℕ → Option ℕ} {is : List ℕ}
    (hd : ∀ i < 1024, getUint (s.frame d) i = pdeWord (T i)) (hlt : ∀ i ∈ is, i < 1024)
    (hnodup : is.Nodup) (hinj : ∀ i j t, T i = some t → T j = some t → i = j)
    (hT : ∀ i ∈ is, ∀ t, T i = some t → s.Usable t ∧ t ∉ fl ∧ t ≠ d) (hfree : FreeList fl s)
    (hdfl : d ∉ fl) :
    Wp E (freeTables (d * PGSIZE) is) (fun _ s' => s.Keeps {t | ∃ i ∈ is, T i = some t} s' ∧
      ∃ fl', FreeList fl' s' ∧ d ∉ fl' ∧ ∀ t, t ∈ fl' ↔ t ∈ fl ∨ ∃ i ∈ is, T i = some t) s := by
  induction is generalizing fl s with
  | nil =>
    unfold freeTables
    rw [wp_pure]
    exact ⟨.refl s _, fl, hfree, hdfl, fun t => by simp⟩
  | cons i is ih =>
    rw [List.forall_mem_cons] at hlt hT
    rw [List.nodup_cons] at hnodup
    unfold freeTables
    rw [wp_bind, wp_get, word_eq hlt.1, hd i hlt.1, wp_ite]
    cases hTi : T i with
    | none =>
      refine ⟨fun hne => absurd rfl hne, fun _ => ?_⟩
      refine (ih hd hlt.2 hnodup.2 hT.2 hfree hdfl).mono ?_
      rintro _ s' ⟨hkeeps, fl', hfree', hdfl', hmem⟩
      simp only [List.exists_mem_cons_iff, hTi, reduceCtorEq, false_or]
      exact ⟨hkeeps, fl', hfree', hdfl', hmem⟩
    | some t =>
      refine ⟨fun _ => ?_, fun hne => absurd (pdeWord_present t) hne⟩
      obtain ⟨husable, hnew, htd⟩ := hT.1 t hTi
      rw [PTE_ADDR_pdeWord]
      refine Wp.bind (wp_kfree_free hfree husable hnew) ?_
      rintro _ s₁ ⟨hkeeps₁, hfree₁⟩
      refine (ih (fun j hj => ?_) hlt.2 hnodup.2 (fun j hj t' ht' => ?_) hfree₁
        ?_).mono ?_
      · rw [hkeeps₁.frame d fun heq => htd heq.symm]
        exact hd j hj
      · obtain ⟨husable', hnew', htd'⟩ := hT.2 j hj t' ht'
        refine ⟨hkeeps₁.usable.mpr husable', fun hmem => ?_, htd'⟩
        rcases List.mem_cons.mp hmem with rfl | hmem
        · exact hnodup.1 (hinj i j t' hTi ht' ▸ hj)
        · exact hnew' hmem
      · exact fun hmem => (List.mem_cons.mp hmem).elim (fun heq => htd heq.symm) hdfl
      · rintro _ s' ⟨hkeeps, fl', hfree', hdfl', hmem⟩
        refine ⟨(hkeeps₁.mono ?_).trans (hkeeps.mono ?_) le_rfl, fl', hfree', hdfl', fun g => ?_⟩
        · rintro g rfl
          exact ⟨i, List.mem_cons_self, hTi⟩
        · rintro g ⟨j, hj, hg⟩
          exact ⟨j, List.mem_cons_of_mem i hj, hg⟩
        · rw [hmem, List.mem_cons, List.exists_mem_cons_iff, hTi, Option.some.injEq,
            eq_comm (a := g), or_assoc, or_left_comm]

/-- **`freevm`** makes all frames of the footprint free.

**Proof sketch.** `deallocuvm` down to 0 leaves no page, and what it has taken out is free
(`wp_deallocuvm`). The loop then frees the page tables (`wp_freeTables`), and `kfree` the directory.
Since a footprint consists of the free frames, the directory, the tables and the pages, all of it is
free afterwards. -/
theorem wp_freevm {kdata : ℕ} (h : Local X L fl s) (huser : L.User kdata) :
    Wp E (freevm (L.dir * PGSIZE)) (fun _ s' => s.Keeps X s' ∧ ∃ fl', FreeList fl' s' ∧
      ∀ f, f ∈ fl' ↔ f ∈ X) s := by
  have hdir := h.layout.usable .dir L.dir rfl
  have hne : L.dir * PGSIZE ≠ 0 := (Nat.mul_pos hdir.pos (by decide)).ne'
  unfold freevm
  rw [if_neg hne]
  obtain ⟨top, htop⟩ : ∃ top, top = KERNBASE := ⟨_, rfl⟩
  obtain ⟨is, his⟩ : ∃ is, is = List.range NPDENTRIES := ⟨_, rfl⟩
  rw [← htop, ← his]
  refine Wp.bind (wp_deallocuvm h huser htop.le) ?_
  rintro _ s₁ ⟨hkeeps₁, -, L₁, fl₁, hlocal₁, huser₁, hdir₁, -, himage₁⟩
  have hpage : ∀ q, L₁.page q = none := by
    intro q
    rw [← Option.not_isSome_iff_eq_none, ← image_isSome, himage₁]
    dsimp only
    by_cases hq : q < 2 ^ 19
    · rw [if_pos ⟨Nat.zero_le _, by rw [htop]; unfold PGSIZE KERNBASE; omega⟩]
      simp
    · rw [if_neg (by rw [htop]; unfold PGSIZE KERNBASE; omega), Layout.image,
        if_neg fun hin => hq hin.1]
      simp
  rw [← hdir₁] at hdir hne ⊢
  have hmemis : ∀ i, i ∈ is ↔ i < NPDENTRIES := fun i => by rw [his, List.mem_range]
  refine Wp.bind (wp_freeTables hlocal₁.layout.dir
    (fun i => (hmemis i).mp) (by rw [his]; exact List.nodup_range) (fun i j t hi hj => ?_)
    (fun i _ t ht => ?_) hlocal₁.free (hlocal₁.disjoint .dir _ rfl)) ?_
  · exact Place.table.inj (hlocal₁.layout.inj (.table i) (.table j) t hi hj)
  · refine ⟨hlocal₁.layout.usable (.table i) t ht, hlocal₁.disjoint (.table i) t ht, ?_⟩
    rintro rfl
    cases hlocal₁.layout.inj (.table i) .dir _ ht rfl
  rintro _ s₂ ⟨hkeeps₂, fl₂, hfree₂, hdfl, hmem⟩
  have husable₂ : s₂.Usable L₁.dir :=
    hkeeps₂.usable.mpr (hlocal₁.layout.usable .dir _ rfl)
  refine (wp_kfree_free hfree₂ husable₂ hdfl).mono ?_
  rintro _ s₃ ⟨hkeeps₃, hfree₃⟩
  refine ⟨?_, L₁.dir :: fl₂, hfree₃, fun f => ?_⟩
  · refine (hkeeps₁.trans (hkeeps₂.mono ?_) le_rfl).trans (hkeeps₃.mono ?_) le_rfl
    · rintro t ⟨i, -, ht⟩
      exact hlocal₁.ref_mem (P := .table i) ht
    · exact Set.singleton_subset_iff.mpr (hlocal₁.ref_mem (P := .dir) rfl)
  · rw [List.mem_cons, hmem, hlocal₁.mem]
    constructor
    · rintro (rfl | hf | ⟨i, -, hi⟩)
      · exact .inr ⟨.dir, rfl⟩
      · exact .inl hf
      · exact .inr ⟨.table i, hi⟩
    · rintro (hf | ⟨P, hP⟩)
      · exact .inr (.inl hf)
      · cases P with
        | dir => exact .inl (Option.some.inj hP).symm
        | table i => exact .inr (.inr ⟨i, (hmemis i).mpr (hlocal₁.layout.table_lt hP), hP⟩)
        | page q =>
          rw [Layout.ref, hpage] at hP
          cases hP

/-! ## Copying an address space -/

/-- What stops `copyuvm`: a page of the parent is not there. -/
def CopyStop (sz : ℕ) (I : ℕ → Option Page) (e : Stop) : Prop :=
  (e = .panic "copyuvm: pte should exist" ∨ e = .panic "copyuvm: page not present") ∧
    ∃ q, q * PGSIZE < sz ∧ I q = none

/-- The frame of a page that is copied. -/
theorem mapped_copy (f : ℕ) (g : ℕ) (u : Bool) :
    f * PGSIZE ||| PTE_FLAGS (userEntry g u) ||| PTE_P = userEntry f u := by
  rw [PTE_FLAGS_userEntry, userEntry, Nat.or_assoc, Nat.or_assoc (PTE_W ||| _), Nat.or_self,
    ← Nat.or_assoc]

/-- **The loop of `copyuvm`**, with the pages up to `p` copied.

**Proof sketch.** Induction on the number of passes. The frames of the parent are outside of the
footprint, so that they are left alone. A frame that has been taken for a page is lost if there is
none for its page table. -/
theorem wp_copyLoop {kdata sz : ℕ} {Lp : Layout} (h : Local X L fl s) (huser : L.User kdata)
    (hparent : Lp.In s) (huserp : Lp.User kdata) (hout : ∀ P f, Lp.ref P = some f → f ∉ X)
    (hsz : sz ≤ KERNBASE) (hreach : L.Reaches p) (hp : ∀ q, q < p → q * PGSIZE < sz)
    (himage : L.image = fun q => if q < p then Lp.image q else none)
    (hk0 : 0 < k) (hk : 2 ^ 19 < k + p) :
    Wp (CopyStop sz Lp.image) (copyLoop (Lp.dir * PGSIZE) (L.dir * PGSIZE) sz k (p * PGSIZE))
      (fun r s' => s.Keeps X s' ∧ ∃ Y L' fl', Y ⊆ X ∧ Local Y L' fl' s' ∧ L'.User kdata ∧
        L'.dir = L.dir ∧ (r = true → Y = X ∧ (∀ q, q * PGSIZE < sz → L'.Reaches (q + 1)) ∧
          L'.image = fun q => if q * PGSIZE < sz then Lp.image q else none) ∧
        (r = false → X.ncard ≤ 1025 + pages sz)) s := by
  induction k generalizing p L fl s with
  | zero => omega
  | succ k ih =>
    unfold copyLoop
    rw [wp_ite]
    refine ⟨fun hlt => ?_, fun hge => ?_⟩
    swap
    · have hiff : ∀ q, q < p ↔ q * PGSIZE < sz := by
        refine fun q => ⟨hp q, fun hq => ?_⟩
        by_contra hle
        exact hge ((Nat.mul_le_mul_right PGSIZE (not_lt.mp hle)).trans_lt hq)
      refine ⟨.refl s X, X, L, fl, le_rfl, h, huser, rfl, fun _ => ⟨rfl, fun q hq => ?_, ?_⟩,
        fun hr => by cases hr⟩
      · have hqp := (hiff q).mpr hq
        exact fun r hr => hreach r (by omega)
      · rw [himage]
        simp only [hiff]
    have hp' : p < 2 ^ 19 := by
      unfold PGSIZE KERNBASE at *
      omega
    refine Wp.bind (wp_walkpgdir_find hparent (by omega)) ?_
    rintro r s₀ ⟨rfl, rfl⟩
    cases htable : Lp.table (p / 1024) with
    | none =>
      refine ⟨.inl rfl, p, hlt, ?_⟩
      rw [Layout.image, hparent.missing p htable, if_neg (by simp)]
    | some tp =>
    rw [Option.map_some]
    dsimp only
    rw [wp_bind, wp_get, hparent.word htable, wp_ite]
    refine ⟨fun habsent => ⟨.inr rfl, p, hlt, if_neg fun hin => hin.2 habsent⟩, fun hpresent => ?_⟩
    -- the page of the parent
    have hpage : Lp.page p = some (Lp.entry p / PGSIZE) := if_pos ⟨hp', hpresent⟩
    obtain ⟨g, u, hentry⟩ : ∃ g u, Lp.entry p = userEntry g u := by
      rcases huserp.entry p hp' with hzero | hex
      · rw [hzero] at hpresent
        exact absurd (Nat.zero_and _) hpresent
      · exact hex
    have himagep : Lp.image p = some ⟨u, Lp.data p⟩ := by
      rw [Layout.image, if_pos ⟨hp', hpresent⟩, hentry]
      simp [userEntry_user]
    rw [hentry, userEntry_div] at hpage
    have hfree : L.image p = none := by
      rw [himage]
      exact if_neg (by omega)
    have hbeyond : ∀ q, p ≤ q → L.image q = none := by
      intro q hq
      rw [himage]
      exact if_neg (by omega)
    have hpages := lt_pages.mpr hlt
    refine Wp.bind (wp_kalloc h) ?_
    rintro r s₁ ⟨hkeeps₁, ⟨rfl, rfl, rfl⟩ | ⟨f, fl₁, rfl, rfl, hf, hlocal₁⟩⟩
    · exact ⟨.refl s₁ X, X, L, [], le_rfl, h, huser, rfl, fun hr => (by cases hr),
        fun _ => (h.card_le hbeyond).trans (by omega)⟩
    have husable := h.usable hf
    dsimp only
    rw [wp_bind, wp_modify, hentry, PTE_ADDR_div, userEntry_div, Nat.mul_div_cancel _ (by decide),
      setFrame_eq]
    obtain ⟨s₂, hs₂⟩ : ∃ s₂ : Mem,
      s₂ = { s₁ with frame := Function.update s₁.frame f (s₁.frame g) } := ⟨_, rfl⟩
    rw [← hs₂]
    have hkeeps₂ : s₁.Keeps {f} s₂ := by
      refine ⟨by rw [hs₂], by rw [hs₂], fun e he => ?_⟩
      rw [hs₂]
      exact Function.update_of_ne he ..
    have hdata : s₂.frame f = Lp.data p := by
      rw [hs₂]
      dsimp only
      rw [Function.update_self, hkeeps₁.frame g (Set.notMem_empty g)]
      exact hparent.data p g hpage
    have hlocal₂ : Local (X \ {f}) L fl₁ s₂ :=
      hlocal₁.keeps (by rw [hs₂]) hkeeps₂ fun e he => he.2
    have hkeeps : s₀.Keeps X s₂ := (hkeeps₁.mono (Set.empty_subset X)).trans
      (hkeeps₂.mono (Set.singleton_subset_iff.mpr hf)) le_rfl
    have husable₂ : s₂.Usable f := hkeeps.usable.mpr husable
    have hsub : X \ {f} ⊆ X := Set.sdiff_subset
    have hflags : PTE_FLAGS (userEntry g u) < 2 ^ 12 := Nat.mod_lt _ (by decide)
    refine Wp.bind (wp_mappages hlocal₂ hp' (entry_of_image hp' hfree) husable₂ (by simp)
      hflags) ?_
    rintro r s₃ ⟨hkeeps₃, ⟨rfl, rfl, rfl⟩ | ⟨rfl, t, fl₃, ht, hlocal₃⟩⟩
    · -- the frame is lost
      rw [if_neg (by decide)]
      refine ⟨hkeeps, X \ {f}, L, [], hsub, hlocal₂, huser, rfl, fun hr => (by cases hr),
        fun _ => ?_⟩
      have hcard := hlocal₂.card_le hbeyond
      rw [Set.ncard_sdiff_singleton_of_mem hf] at hcard
      omega
    rw [if_pos rfl, next_page (by omega)]
    rw [Set.insert_sdiff_singleton, Set.insert_eq_of_mem hf, hdata, mapped_copy] at hlocal₃
    obtain ⟨L₁, hL₁⟩ : ∃ L₁, L₁ = (L.setTable (p / 1024) t).setEntry p (userEntry f u)
      (Lp.data p) := ⟨_, rfl⟩
    rw [← hL₁] at hlocal₃
    have hkeeps' : s₀.Keeps X s₃ := hkeeps.trans (hkeeps₃.mono hsub) le_rfl
    have hdir : L.dir = L₁.dir := by rw [hL₁]; rfl
    rw [hdir]
    refine (ih hlocal₃ ?_ ?_ ?_ (fun q hq => ?_) ?_ (by omega) (by omega)).mono ?_
    · rw [hL₁]
      exact huser.map hreach hp' f u _
    · exact hparent.congr hkeeps'.kend fun P e he => hkeeps'.frame e (hout P e he)
    · rw [hL₁]
      exact hreach.succ
    · by_cases hqp : q = p
      · rw [hqp]
        exact hlt
      · exact hp q (by omega)
    · rw [hL₁, image_setEntry hp', image_setTable, himage]
      funext q
      by_cases hq : q = p
      · rw [hq, Function.update_self, if_pos (by omega), himagep]
      · rw [Function.update_of_ne hq]
        simp only [show q < p + 1 ↔ q < p by omega]
    · rintro r s' ⟨hkeeps₄, hpost⟩
      exact ⟨hkeeps'.trans hkeeps₄ le_rfl, hpost⟩

/-- `setupkvm` needs few frames. -/
theorem Exhausted.length_le (h : Exhausted fl s) (hnodup : fl.Nodup) : fl.length ≤ 513 := by
  rcases h.2 with rfl | ⟨L, hlocal, hbare⟩
  · exact Nat.zero_le _
  · have hcard := hlocal.card_le_add (n := 0) hbare fun q _ => hlocal.image_bare hbare q
    rwa [ncard_list hnodup] at hcard

/-- **`copyuvm`** makes an address space with copies of the pages of the parent, or none.

**Proof sketch.** `setupkvm` makes the part of the kernel (`wp_setupkvm`), and the loop copies page
after page (`wp_copyLoop`). The frames of the parent are not free, so that nothing that is written
changes them. If a frame is missing, the free list has been used up: then its length was at most
that of a whole copy, with the directory and 1024 tables. -/
theorem wp_copyuvm {sz : ℕ} {Lp : Layout} (h : FreeList fl s) (hlinked : s.Linked)
    (hparent : Lp.In s) (huserp : Lp.User s.kdata) (hout : ∀ P f, Lp.ref P = some f → f ∉ fl)
    (hsz : sz ≤ KERNBASE) :
    Wp (CopyStop sz Lp.image) (copyuvm (Lp.dir * PGSIZE) sz) (fun r s' =>
      s.Keeps {g | g ∈ fl} s' ∧ (r = none ∧ fl.length ≤ 1025 + pages sz ∧
          (∃ fl', FreeList fl' s' ∧ fl' ⊆ fl) ∨
        ∃ L fl', r = some (L.dir * PGSIZE) ∧ Local {g | g ∈ fl} L fl' s' ∧ L.User s.kdata ∧
          (∀ q, q * PGSIZE < sz → L.Reaches (q + 1)) ∧
          L.image = fun q => if q * PGSIZE < sz then Lp.image q else none)) s := by
  unfold copyuvm PASSES
  refine Wp.bind (wp_setupkvm h hlinked) ?_
  rintro r s₁ ⟨hkeeps₁, ⟨rfl, hexhausted⟩ | ⟨L₁, fl₁, rfl, hlocal₁, huser₁, hbare⟩⟩
  · exact ⟨hkeeps₁, .inl ⟨rfl, (hexhausted.length_le h.nodup).trans (by omega), [],
      hexhausted.1, List.nil_subset fl⟩⟩
  have hzero : (0 : ℕ) = 0 * PGSIZE := rfl
  dsimp only
  rw [hzero]
  have himage₁ : L₁.image = fun q => if q < 0 then Lp.image q else none := by
    funext q
    rw [if_neg (by omega)]
    exact hlocal₁.image_bare hbare q
  refine Wp.bind (wp_copyLoop hlocal₁ huser₁ (hparent.congr hkeeps₁.kend fun P f hf =>
    hkeeps₁.frame f (hout P f hf)) huserp hout hsz (fun q hq => by omega)
    (fun q hq => by omega) himage₁ (by omega) (by omega)) ?_
  rintro r s₂ ⟨hkeeps₂, Y, L₂, fl₂, hY, hlocal₂, huser₂, hdir, hdone, hshort⟩
  have hkeeps := hkeeps₁.trans hkeeps₂ le_rfl
  rw [wp_ite]
  refine ⟨fun hr => ?_, fun hr => ?_⟩
  · obtain ⟨rfl, hreach, himage⟩ := hdone hr
    rw [← hdir]
    exact ⟨hkeeps, .inr ⟨L₂, fl₂, rfl, hlocal₂, huser₂, hreach, himage⟩⟩
  · rw [← hdir]
    refine Wp.bind (wp_freevm hlocal₂ huser₂) ?_
    rintro _ s₃ ⟨hkeeps₃, fl₃, hfree₃, hmem⟩
    refine ⟨hkeeps.trans (hkeeps₃.mono hY) le_rfl, .inl ⟨rfl, ?_, fl₃, hfree₃, fun f hf =>
      hY ((hmem f).mp hf)⟩⟩
    have hcard := hshort (Bool.eq_false_iff.mpr hr)
    rwa [ncard_list h.nodup] at hcard

end HgXv6.Phys
