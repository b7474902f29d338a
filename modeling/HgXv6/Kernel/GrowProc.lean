import HgXv6.Kernel.PageTable

set_option relaxedAutoImplicit false
set_option autoImplicit false

/-!
# Growing and shrinking a process

`growproc` (`proc.c`) takes the results of `allocuvm` and `deallocuvm` for sizes, and zero for a
failure. So it reports a failure when it has shrunk a process to nothing, and a success when it is
asked to shrink one by more than its size, where the new size wraps around.

## Main definitions

* `HgXv6.Vm.growproc`, `HgXv6.Vm.sbrk` — the source functions.
* `HgXv6.Vm.Space.Valid` — a process of a size, with the pages of that size mapped.
* `HgXv6.Vm.AllOrNothing` — what is meant.

## Main results

* `HgXv6.Vm.wp_growproc`, `HgXv6.Vm.wp_sbrk` — what `growproc` and `sbrk` do.
* `HgXv6.Vm.growproc_iff` — it does what is meant exactly if it is not asked to take away a process
  of some size as a whole.
-/

namespace HgXv6.Vm

open Prog

/-! ## The functions -/

/-- `proc->sz = sz; switchuvm(proc); return 0;` -/
def setSize (sz : ℕ) : M ℤ := do
  modify fun s => { s with sz := sz }
  pure 0

/-- `growproc` -/
def growproc (n : Int32) : M ℤ := do
  let s ← get
  if n.toInt > 0 then do
    let sz ← allocuvm s.sz ((s.sz + n.toInt) % 2 ^ 32).toNat
    if sz = 0 then pure (-1) else setSize sz
  else if n.toInt < 0 then do
    let sz ← deallocuvm s.sz ((s.sz + n.toInt) % 2 ^ 32).toNat
    if sz = 0 then pure (-1) else setSize sz
  else setSize s.sz

/-- `sys_sbrk`, with its argument fetched -/
def sbrk (n : Int32) : M ℤ := do
  let s ← get
  let r ← growproc n
  if r < 0 then pure (-1) else pure s.sz

/-! ## What is meant -/

/-- The pages of `[0, sz)`, and no other pages of the user part, are mapped. Only `PTE_P` counts and
not `PTE_U`: the guard page below the stack, from which `exec` takes `PTE_U` away, is mapped and
lies within the size of the process, and `deallocuvm` gives it back like any other. -/
def Space.Maps (sz : ℤ) (s : Space) : Prop :=
  ∀ q : ℕ, q * PGSIZE < KERNBASE → ((s.mapping q).isSome ↔ (q * PGSIZE : ℕ) < sz)

/-- A process between two system calls. `allocuvm` refuses every size from `KERNBASE` on. -/
structure Space.Valid (s : Space) : Prop where
  sz_lt : s.sz < KERNBASE
  maps : s.Maps s.sz
  pages : ∀ q e, q * PGSIZE < KERNBASE → s.mapping q = some e → s.IsPage (PTE_ADDR e)
  supply : ∀ i pa, s.supply i = some pa → s.IsPage pa

/-- The user part has not changed. -/
def Space.Unchanged (s s' : Space) : Prop :=
  s'.sz = s.sz ∧ ∀ q, q * PGSIZE < KERNBASE → s'.mapping q = s.mapping q

/-- The process has the size that it was to have, with the pages of that size mapped. -/
def Space.Resized (n : Int32) (s s' : Space) : Prop :=
  (s'.sz : ℤ) = s.sz + n.toInt ∧ s'.Maps (s.sz + n.toInt)

/-- `growproc` ends, and it returns 0 and has changed the size, or -1 and has changed nothing. -/
def AllOrNothing (n : Int32) (s : Space) : Prop :=
  ∃ r s', (growproc n).run s = .ok (r, s') ∧ (r = 0 ∧ s.Resized n s' ∨ r = -1 ∧ s.Unchanged s')

/-! ## What is done -/

variable {E : Stop → Prop} {s : Space} {n : Int32}

/-- What `growproc` does. -/
def Grown (n : Int32) (s : Space) (r : ℤ) (s' : Space) : Prop :=
  if 0 ≤ n.toInt ∨ 0 < s.sz + n.toInt then r = 0 ∧ s.Resized n s' ∨ r = -1 ∧ s.Unchanged s'
  else if s.sz + n.toInt = 0 then r = -1 ∧ ∀ q, q * PGSIZE < s.sz → s'.mapping q = none
  else r = (if s.sz = 0 then -1 else 0) ∧ s.Unchanged s'

/-- A page of the user part that is not mapped. -/
theorem Space.Valid.mapping_eq_none (h : s.Valid) {q : ℕ} (hq : q * PGSIZE < KERNBASE)
    (hsz : s.sz ≤ q * PGSIZE) : s.mapping q = none := by
  have hmaps := h.maps q hq
  rw [← Option.not_isSome_iff_eq_none, hmaps]
  omega

/-- Mapping pages behind those of a process. -/
theorem wp_allocuvm_of_valid (h : s.Valid) {newsz : ℕ} (hle : s.sz ≤ newsz)
    (hnew : newsz < KERNBASE) : Wp E (allocuvm s.sz newsz) (AllocPost s.sz newsz s) s :=
  wp_allocuvm hle hnew h.supply fun _ hlo hhi => h.mapping_eq_none (hhi.trans hnew) hlo

/-- Unmapping pages of a process: those that are mapped are the first ones. -/
theorem wp_deallocuvm_of_valid (h : s.Valid) (newsz : ℕ) :
    Wp E (deallocuvm s.sz newsz) (fun r s' => r = min s.sz newsz ∧ s.Framed s' ∧ ∀ q,
      s'.mapping q = if newsz ≤ q * PGSIZE ∧ q * PGSIZE < s.sz then none else s.mapping q) s := by
  refine wp_deallocuvm h.sz_lt.le (fun q e _ hhi he => h.pages q e (hhi.trans h.sz_lt) he)
    fun q r _ hqr hhi hq => ?_
  have hlt := (Nat.mul_le_mul_right PGSIZE hqr).trans_lt hhi
  have hmaps := h.maps q (hlt.trans h.sz_lt)
  rw [hq, Nat.cast_lt] at hmaps
  exact absurd (hmaps.mpr hlt) (by simp)

/-- Growing a process. -/
theorem wp_growproc_pos (h : s.Valid) (hn : 0 < n.toInt) :
    Wp E (growproc n) (fun r s' => r = 0 ∧ s.Resized n s' ∨ r = -1 ∧ s.Unchanged s') s := by
  have hlt := n.toInt_lt
  have hsz := h.sz_lt
  obtain ⟨newsz, hnew⟩ : ∃ newsz : ℕ, (newsz : ℤ) = s.sz + n.toInt :=
    ⟨(s.sz + n.toInt).toNat, by omega⟩
  have hmod : ((s.sz + n.toInt) % 2 ^ 32).toNat = newsz := by
    unfold KERNBASE at hsz
    omega
  unfold growproc
  rw [wp_bind, wp_get, wp_ite]
  refine ⟨fun _ => ?_, fun hneg => absurd hn hneg⟩
  rw [hmod]
  rcases le_or_gt KERNBASE newsz with htop | htop
  · refine Wp.bind (wp_allocuvm_top htop) ?_
    rintro r s' ⟨rfl, rfl⟩
    exact .inr ⟨rfl, rfl, fun _ _ => rfl⟩
  refine Wp.bind (wp_allocuvm_of_valid h (by omega) htop) ?_
  rintro r s' ⟨hframed, hout, ⟨rfl, hfilled⟩ | ⟨rfl, hnone⟩⟩
  · rw [if_neg (by omega)]
    refine .inl ⟨rfl, hnew, fun q hq => ?_⟩
    change (s'.mapping q).isSome ↔ _
    rw [← hnew, Nat.cast_lt]
    by_cases hin : s.sz ≤ q * PGSIZE ∧ q * PGSIZE < r
    · obtain ⟨pa, -, hmap⟩ := hfilled q hin.1 hin.2
      rw [hmap]
      exact iff_of_true rfl hin.2
    · have hmaps := h.maps q hq
      rw [hout q hin, hmaps]
      omega
  · rw [if_pos rfl]
    refine .inr ⟨rfl, hframed.sz, fun q hq => ?_⟩
    by_cases hin : s.sz ≤ q * PGSIZE ∧ q * PGSIZE < newsz
    · rw [hnone q hin.1 hin.2, h.mapping_eq_none hq hin.1]
    · exact hout q hin

/-- Shrinking a process: the pages behind the new size are unmapped, if that does not wrap
around. -/
theorem wp_growproc_neg (h : s.Valid) (hn : n.toInt < 0) :
    Wp E (growproc n) (Grown n s) s := by
  have hlt := n.le_toInt
  have hsz := h.sz_lt
  obtain ⟨newsz, hnew⟩ : ∃ newsz, newsz = ((s.sz + n.toInt) % 2 ^ 32).toNat := ⟨_, rfl⟩
  unfold growproc
  rw [wp_bind, wp_get, if_neg (by omega), if_pos hn, ← hnew]
  refine Wp.bind (wp_deallocuvm_of_valid h newsz) ?_
  rintro r s' ⟨rfl, hframed, hmapping⟩
  have hsz' : s.sz < 2 ^ 31 := hsz
  rcases lt_trichotomy (s.sz + n.toInt) 0 with hwrap | hzero | hpos
  · -- the new size has wrapped around
    have hsame (q : ℕ) : s'.mapping q = s.mapping q := by
      rw [hmapping q, if_neg (by omega)]
    rw [Nat.min_eq_left (by omega)]
    split_ifs with h0
    · change Grown n s (-1) s'
      rw [Grown, if_neg (by omega), if_neg (by omega), if_pos h0]
      exact ⟨rfl, hframed.sz, fun q _ => hsame q⟩
    · change Grown n s 0 { s' with sz := s.sz }
      rw [Grown, if_neg (by omega), if_neg (by omega), if_neg h0]
      exact ⟨rfl, rfl, fun q _ => hsame q⟩
  · obtain rfl : newsz = 0 := by omega
    rw [Nat.min_zero, if_pos rfl]
    change Grown n s (-1) s'
    rw [Grown, if_neg (by omega), if_pos hzero]
    exact ⟨rfl, fun q hq => by rw [hmapping q, if_pos ⟨Nat.zero_le _, hq⟩]⟩
  · have hnew' : (newsz : ℤ) = s.sz + n.toInt := by omega
    rw [Nat.min_eq_right (by omega), if_neg (by omega)]
    change Grown n s 0 { s' with sz := newsz }
    rw [Grown, if_pos (.inr hpos)]
    refine .inl ⟨rfl, hnew', fun q hq => ?_⟩
    change (s'.mapping q).isSome ↔ _
    rw [← hnew', Nat.cast_lt, hmapping q]
    by_cases hin : newsz ≤ q * PGSIZE ∧ q * PGSIZE < s.sz
    · rw [if_pos hin]
      exact iff_of_false (by simp) (not_lt.mpr hin.1)
    · have hmaps := h.maps q hq
      rw [if_neg hin, hmaps, Nat.cast_lt]
      omega

/-- What `growproc` does. -/
theorem wp_growproc (h : s.Valid) (n : Int32) : Wp E (growproc n) (Grown n s) s := by
  rcases lt_trichotomy n.toInt 0 with hneg | hzero | hpos
  · exact wp_growproc_neg h hneg
  · unfold growproc
    rw [wp_bind, wp_get, if_neg (by omega), if_neg (by omega)]
    change Grown n s 0 s
    rw [Grown, if_pos (.inl hzero.ge)]
    refine .inl ⟨rfl, by omega, ?_⟩
    rw [hzero, Int.add_zero]
    exact h.maps
  · refine (wp_growproc_pos h hpos).mono fun r s' hpost => ?_
    rw [Grown, if_pos (.inl hpos.le)]
    exact hpost

/-- `sbrk` returns the old size, or -1, as `growproc` has returned 0 or -1. -/
theorem wp_sbrk (h : s.Valid) (n : Int32) : Wp E (sbrk n) (fun r s' =>
    r = s.sz ∧ Grown n s 0 s' ∨ r = -1 ∧ Grown n s (-1) s') s := by
  unfold sbrk
  rw [wp_bind, wp_get]
  refine Wp.bind (wp_growproc h n) fun r s' hpost => ?_
  have hr : r = 0 ∨ r = -1 := by
    unfold Grown at hpost
    split_ifs at hpost
    · exact hpost.imp And.left And.left
    · exact .inr hpost.1
    · exact .inr hpost.1
    · exact .inl hpost.1
  rcases hr with rfl | rfl
  · rw [if_neg (by decide)]
    exact .inl ⟨rfl, hpost⟩
  · rw [if_pos (by decide)]
    exact .inr ⟨rfl, hpost⟩

/-- **Growing and shrinking a process.** `growproc` is all or nothing exactly if it is not asked to
take away all of a process that is not empty, or more.

**Proof sketch.** `wp_growproc` says what the function does for each size and each outcome of the
allocations: it grows or shrinks the process, or refuses. The two cases in which it is neither all
nor nothing are those in which the new size is not positive. If it is zero, `deallocuvm` has taken
all pages away and returned 0, which the caller takes for an error; if it is negative, the sum wraps
around to a size above the old one, `deallocuvm` returns the old size, and the call succeeds without
having shrunk the process. -/
theorem growproc_iff (h : s.Valid) (n : Int32) :
    AllOrNothing n s ↔ 0 ≤ n.toInt ∨ 0 < s.sz + n.toInt ∨ s.sz = 0 := by
  obtain ⟨r, s', hrun, hpost⟩ := (wp_growproc (E := fun _ => False) h n).total
  have hsame : AllOrNothing n s ↔ r = 0 ∧ s.Resized n s' ∨ r = -1 ∧ s.Unchanged s' := by
    refine ⟨fun ⟨r', s'', hrun', h'⟩ => ?_, fun h' => ⟨r, s', hrun, h'⟩⟩
    rw [hrun, Except.ok.injEq, Prod.mk.injEq] at hrun'
    obtain ⟨rfl, rfl⟩ := hrun'
    exact h'
  rw [hsame]
  unfold Grown at hpost
  split_ifs at hpost with hgood hzero hempty
  · exact iff_of_true hpost (by omega)
  · -- the pages are gone, and -1 is returned
    have hsz : 0 < s.sz := by omega
    obtain ⟨rfl, hnone⟩ := hpost
    refine iff_of_false ?_ (by omega)
    rintro (⟨hr, -⟩ | ⟨-, -, hsame⟩)
    · exact absurd hr (by decide)
    · have hkept := hsame 0 (by decide)
      rw [hnone 0 (by omega)] at hkept
      have hmaps := h.maps 0 (by decide)
      rw [← hkept] at hmaps
      exact absurd (hmaps.mpr (by omega)) (by simp)
  · exact iff_of_true (.inr hpost) (.inr (.inr hempty))
  · -- the size is what it was, and 0 is returned
    obtain ⟨rfl, hsz, -⟩ := hpost
    refine iff_of_false ?_ (by omega)
    rintro (⟨-, hresized, -⟩ | ⟨hr, -⟩)
    · omega
    · exact absurd hr (by decide)

/-- A process of one byte, in one page. -/
def onePage : Space where
  sz := 1
  pgdir := fun d => if d = 0 then some fun t => if t = 0 then 0x200007 else 0 else none
  supply := fun _ => none
  kend := 0x120000

/-- Its first page is mapped, and no other. -/
theorem mapping_onePage (q : ℕ) : onePage.mapping q = if q = 0 then some 0x200007 else none := by
  by_cases hq : q = 0
  · subst hq
    decide
  · rw [if_neg hq]
    by_cases hd : q / 1024 = 0
    · have ht : q % 1024 ≠ 0 := by omega
      simp [Space.mapping, Space.pte, Space.load, onePage, hd, ht]
    · exact mapping_of_none (if_neg hd)

theorem valid_onePage : onePage.Valid where
  sz_lt := by decide
  maps q _ := by
    change _ ↔ (q * PGSIZE : ℕ) < ((1 : ℕ) : ℤ)
    rw [mapping_onePage, Nat.cast_lt]
    unfold PGSIZE
    by_cases hq : q = 0
    · simp [hq]
    · rw [if_neg hq]
      exact iff_of_false (by simp) (by omega)
  pages q e _ he := by
    rw [mapping_onePage] at he
    split_ifs at he
    obtain rfl := Option.some.inj he
    exact ⟨by decide, by decide, by decide, by decide⟩
  supply := nofun

/-- `growproc_iff` for one byte more. -/
theorem growproc_iff_onePage : AllOrNothing 1 onePage ↔
    0 ≤ (1 : Int32).toInt ∨ 0 < onePage.sz + (1 : Int32).toInt ∨ onePage.sz = 0 :=
  growproc_iff valid_onePage 1

/-- A process of one byte loses its page when it is asked to give up one byte, and -1 is
returned. -/
theorem not_forall_allOrNothing : ¬∀ (s : Space) (n : Int32), s.Valid → AllOrNothing n s := by
  intro h
  obtain ⟨r, s', hrun, hpost⟩ := h onePage (-1) valid_onePage
  have hgrown : Grown (-1) onePage r s' :=
    (wp_growproc (E := fun _ => False) valid_onePage (-1)).of_ok hrun
  rw [Grown, if_neg (by decide), if_pos (by decide)] at hgrown
  obtain ⟨rfl, hnone⟩ := hgrown
  rcases hpost with ⟨hr, -⟩ | ⟨-, -, hsame⟩
  · exact absurd hr (by decide)
  · have hkept := hsame 0 (by decide)
    rw [hnone 0 (by decide), mapping_onePage] at hkept
    cases hkept

end HgXv6.Vm
