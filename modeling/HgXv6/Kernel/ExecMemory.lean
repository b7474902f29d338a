import HgXv6.Kernel.Image

set_option relaxedAutoImplicit false
set_option autoImplicit false

/-!
# Loading a program into memory

`exec` builds the image that it is to build, frame by frame: the address space that it leaves shows
the image of the program, or it fails and has given back all frames but those that `setupkvm` loses.
It does not panic: each address that it loads or writes to has its page table, up to the guard page
at the latest, as long as no argument is longer than the 32 megabytes from `DEVSPACE` on, where the
stack pointer wraps around to. With a longer one there is no page table, and `uva2ka` follows a null
pointer: then the first word of the calling program decides which frame the argument is written to,
whoever has this frame.

## Main definitions

* `HgXv6.Phys.Layout.Has` — an address space shows an image.

## Main results

* `HgXv6.Phys.wp_grow`, `HgXv6.Phys.wp_shrink` — `allocuvm` and `deallocuvm` on images.
* `HgXv6.Phys.wp_copyout`, `HgXv6.Phys.wp_loaduvm` — writing on images.
* `HgXv6.Phys.wp_exec` — `exec`.
* `HgXv6.Phys.wp_copyout_null`, `HgXv6.Phys.copyout_foreign` — writing where there is no page table.
-/

namespace HgXv6.Phys

open Prog
open Disk (Data getUint putUint getUint_putUint getUint_zero uintBytes)
open Vm (PGSIZE NPTENTRIES PHYSTOP PTE_P PTE_W PTE_U PDX PTX PTE_ADDR PGROUNDUP PGROUNDDOWN PASSES)

variable {E : Stop → Prop} {s s' t : Mem} {f g p q i j v k kdata va : ℕ} {fl fl' : List ℕ}
  {X Y : Set ℕ} {b : Data} {L L' : Layout} {u : Bool} {I J : Image} {pg : Page} {buf : List UInt8}

/-! ## Images in memory -/

/-- The address space shows the image. -/
structure Layout.Has (L : Layout) (kdata : ℕ) (I : Image) : Prop where
  user : L.User kdata
  image : L.image = I.page
  reaches : ∀ q, q * PGSIZE < I.sz → L.Reaches (q + 1)
  beyond : ∀ q, I.sz ≤ q * PGSIZE → I.page q = none
  sz_lt : I.sz < KERNBASE

/-- No page of the image is missing. -/
def Image.Full (I : Image) : Prop := ∀ q, q * PGSIZE < I.sz → I.page q ≠ none

/-- A page of the image has its frame. -/
theorem Layout.Has.page (h : L.Has kdata I) (hq : I.page q = some pg) :
    ∃ f, q < 2 ^ 19 ∧ L.entry q = userEntry f pg.user ∧ L.page q = some f ∧ L.data q = pg.data := by
  rw [← h.image] at hq
  obtain ⟨hlt, hpage⟩ := page_of_image (by rw [hq]; simp)
  unfold Layout.image at hq
  split_ifs at hq with hin
  rw [Option.some.injEq] at hq
  rcases h.user.entry q hlt with hzero | ⟨f, u, hentry⟩
  · rw [hzero] at hin
    exact absurd (Nat.zero_and _) hin.2
  · rw [hentry, userEntry_div] at hpage
    refine ⟨f, hlt, ?_, hpage, by rw [← hq]⟩
    rw [hentry, ← hq]
    congr 1
    simp [hentry, userEntry_user]

/-- The table for a page of a process is there. -/
theorem Layout.Has.table (h : L.Has kdata I) (hq : q * PGSIZE < I.sz) :
    ∃ t, L.table (q / 1024) = some t :=
  Option.ne_none_iff_exists'.mp (h.reaches q hq q (Nat.lt_succ_self q))

/-- The contents of a page are changed. -/
def Layout.setData (q : ℕ) (b : Data) (L : Layout) : Layout :=
  { L with data := Function.update L.data q b }

theorem ref_setData (q : ℕ) (b : Data) (P : Place) : (L.setData q b).ref P = L.ref P := by
  cases P <;> rfl

/-- A frame of a page is written. -/
theorem Local.store (h : Local X L fl s) (hq : L.page q = some f) :
    Local X (L.setData q b) fl { s with frame := Function.update s.frame f b } := by
  have hne : ∀ P g, P ≠ .page q → L.ref P = some g → g ≠ f := by
    rintro P g hP hg rfl
    exact hP (h.layout.inj P (.page q) g hg hq)
  refine ⟨⟨fun i hi => ?_, h.layout.range, fun i t ht j hj => ?_, h.layout.missing,
    fun p g hg => ?_,
    fun P Q g hP hQ => ?_, fun P g hP => ?_⟩, h.free.congr rfl rfl fun g hg => ?_,
    fun P g hP => ?_, fun g => ?_⟩
  · change getUint (Function.update s.frame f b L.dir) i = _
    rw [Function.update_of_ne (hne .dir L.dir (by simp) rfl)]
    exact h.layout.dir i hi
  · change getUint (Function.update s.frame f b t) j = _
    rw [Function.update_of_ne (hne (.table i) t (by simp) ht)]
    exact h.layout.table i t ht j hj
  · change Function.update s.frame f b g = Function.update L.data q b p
    by_cases hp : p = q
    · subst hp
      obtain rfl : f = g := Option.some.inj (hq.symm.trans hg)
      rw [Function.update_self, Function.update_self]
    · rw [Function.update_of_ne hp, Function.update_of_ne (hne (.page p) g (by simpa using hp) hg)]
      exact h.layout.data p g hg
  · rw [ref_setData] at hP hQ
    exact h.layout.inj P Q g hP hQ
  · rw [ref_setData] at hP
    exact (h.layout.usable P g hP).congr rfl
  · refine Function.update_of_ne ?_ ..
    rintro rfl
    exact h.disjoint (.page q) g hq hg
  · rw [ref_setData] at hP
    exact h.disjoint P g hP
  · simp only [ref_setData]
    exact h.mem g

theorem image_setData (q : ℕ) (b : Data) : (L.setData q b).image =
    Function.update L.image q ((L.image q).map fun pg => { pg with data := b }) := by
  funext p
  unfold Layout.image Layout.setData
  by_cases hp : p = q
  · subst hp
    simp only [Function.update_self]
    split_ifs <;> rfl
  · simp only [Function.update_of_ne hp]

/-- The image behind a write to a page. -/
theorem Layout.Has.setData (h : L.Has kdata I) (hq : I.page q = some pg) (b : Data) :
    (L.setData q b).Has kdata { I with
      page := Function.update I.page q (some { pg with data := b }) } := by
  refine ⟨⟨h.user.contiguous, h.user.entry, h.user.kernel⟩, ?_, h.reaches, fun p hp => ?_, h.sz_lt⟩
  · rw [image_setData, h.image, hq, Option.map_some]
  · have hne : p ≠ q := by
      rintro rfl
      rw [h.beyond p hp] at hq
      cases hq
    exact (Function.update_of_ne hne ..).trans (h.beyond p hp)

/-! ## Growing and shrinking -/

/-- `allocuvm` for a process: its image grows, or stays as it is.

**Proof sketch.** A size from `KERNBASE` on is refused, and a size below the old one changes
nothing. Otherwise `allocuvm` maps zeroed pages one after the other (`wp_allocuvm`). If it gets
through, the pages of the layout are those of the image with the new size; if memory runs out it
takes the new pages away again, and then the number of frames that were free is at most that of the
pages and their tables. -/
theorem wp_grow {newsz : ℕ} (h : Local X L fl s) (hhas : L.Has kdata I) :
    Wp E (allocuvm (L.dir * PGSIZE) I.sz newsz) (fun r s' => s.Keeps X s' ∧ ∃ L' fl',
      Local X L' fl' s' ∧ L'.dir = L.dir ∧
        (r = 0 ∧ (KERNBASE ≤ newsz ∨ X.ncard ≤ 1025 + pages newsz) ∧ L'.Has kdata I ∨
          newsz < KERNBASE ∧ r = max I.sz newsz ∧
          L'.Has kdata (I.resize (max I.sz newsz)))) s := by
  rcases le_or_gt KERNBASE newsz with htop | htop
  · refine (wp_allocuvm_top htop).mono ?_
    rintro r s' ⟨rfl, rfl⟩
    exact ⟨.refl s' X, L, fl, h, rfl, .inl ⟨rfl, .inl htop, hhas⟩⟩
  rcases Nat.lt_or_ge newsz I.sz with hlt | hle
  · unfold allocuvm
    rw [if_neg (by omega), if_pos hlt, wp_pure]
    refine ⟨.refl s X, L, fl, h, rfl, .inr ⟨htop, (max_eq_left hlt.le).symm, ?_⟩⟩
    rw [max_eq_left hlt.le, Image.resize_self hhas.beyond]
    exact hhas
  obtain ⟨n, -, -, hn⟩ := Vm.PGROUNDUP_eq hhas.sz_lt.le
  have hnone : ∀ q, I.sz ≤ q * PGSIZE → L.image q = none := by
    intro q hq
    rw [hhas.image]
    exact hhas.beyond q hq
  have hreach : L.Reaches n := by
    intro q hq
    have hlt : q * PGSIZE < I.sz := by
      by_contra hge
      have := (hn q).mpr (not_lt.mp hge)
      omega
    exact hhas.reaches q hlt q (Nat.lt_succ_self q)
  refine (wp_allocuvm h hhas.user hle htop hn hreach fun q hq => hnone q ((hn q).mp hq)).mono ?_
  rintro r s' ⟨hkeeps, L', fl', hlocal, huser, hgrows, ⟨rfl, hreach', himage⟩ |
    ⟨rfl, himage, hshort⟩⟩
  · refine ⟨hkeeps, L', fl', hlocal, hgrows.dir, .inr ⟨htop, (max_eq_right hle).symm, ?_⟩⟩
    rw [max_eq_right hle]
    refine ⟨huser, ?_, hreach', fun q hq => if_pos hq, htop⟩
    rw [himage, hhas.image]
    funext q
    rw [Image.resize]
    dsimp only
    simp only [hn]
    by_cases hq : r ≤ q * PGSIZE
    · rw [if_neg (by omega), if_pos hq]
      exact hhas.beyond q (by omega)
    · rw [if_neg hq]
      by_cases hq' : I.sz ≤ q * PGSIZE
      · rw [if_pos ⟨hq', by omega⟩, if_pos hq']
      · rw [if_neg fun hin => hq' hin.1, if_neg hq']
  · refine ⟨hkeeps, L', fl', hlocal, hgrows.dir, .inl ⟨rfl, .inr hshort, huser,
      himage.trans hhas.image,
      fun q hq => hgrows.reaches _ (hhas.reaches q hq), hhas.beyond, hhas.sz_lt⟩⟩

/-- `deallocuvm` for a process: its image is cut off. The tables stay.

**Proof sketch.** `deallocuvm` unmaps the pages from the new size on and leaves the tables
(`wp_deallocuvm`). Page by page the layout then shows the image that is cut off; a page beyond the
old size was none before. -/
theorem wp_shrink {newsz : ℕ} (h : Local X L fl s) (hhas : L.Has kdata I) :
    Wp E (deallocuvm (L.dir * PGSIZE) I.sz newsz) (fun r s' => s.Keeps X s' ∧ r = min I.sz newsz ∧
      ∃ L' fl', Local X L' fl' s' ∧ L'.dir = L.dir ∧
        L'.Has kdata ⟨I.sz, (I.resize (min I.sz newsz)).page⟩) s := by
  refine (wp_deallocuvm h hhas.user hhas.sz_lt.le).mono ?_
  rintro r s' ⟨hkeeps, hr, L', fl', hlocal, huser, hdir, htable, himage⟩
  refine ⟨hkeeps, hr, L', fl', hlocal, hdir, huser, ?_, fun q hq p hp => ?_, fun q hq => ?_,
    hhas.sz_lt⟩
  · rw [himage, hhas.image]
    funext q
    rw [Image.resize]
    dsimp only
    by_cases hq : I.sz ≤ q * PGSIZE
    · rw [if_neg (by omega), if_pos (by omega)]
      exact hhas.beyond q hq
    · rw [if_neg hq]
      by_cases hq' : newsz ≤ q * PGSIZE
      · rw [if_pos (by omega), if_pos (by omega)]
      · rw [if_neg (by omega), if_neg (by omega)]
  · rw [htable]
    exact hhas.reaches q hq p hp
  · rw [Image.resize]
    exact if_pos (by dsimp only at hq; omega)

/-- Cut off at a size, the image is that of a process of this size. -/
theorem Layout.Has.cut {newsz : ℕ} (h : L.Has kdata ⟨I.sz, (I.resize newsz).page⟩)
    (hle : newsz ≤ I.sz) : L.Has kdata (I.resize newsz) :=
  ⟨h.user, h.image, fun q hq => h.reaches q (lt_of_lt_of_le hq hle), fun _ hq => if_pos hq,
    lt_of_le_of_lt hle h.sz_lt⟩

/-! ## Writing to the stack -/

/-- The program may use every byte from `va` on. -/
def Image.Mapped (I : Image) (va n : ℕ) : Prop :=
  ∀ i < n, ∃ pg, I.page ((va + i) / PGSIZE) = some pg ∧ pg.user = true

/-- `uva2ka` of a page that has a table. -/
theorem wp_uva2ka {cur : ℕ} (h : L.In s) (hq : q < 2 ^ 20) (ht : L.table (q / 1024) = some g) :
    Wp E (uva2ka cur (L.dir * PGSIZE) (q * PGSIZE)) (fun r s' => s' = s ∧
      r = if L.entry q &&& PTE_P ≠ 0 ∧ L.entry q &&& PTE_U ≠ 0 then some (PTE_ADDR (L.entry q))
        else none) s := by
  unfold uva2ka
  refine Wp.bind (wp_walkpgdir_find h hq) ?_
  rintro r s₀ ⟨rfl, rfl⟩
  rw [ht, Option.map_some]
  dsimp only
  rw [wp_bind, wp_get, wp_bind, wp_pure, h.word ht, wp_ite]
  refine ⟨fun hP => ⟨rfl, (if_neg fun hin => hin.1 hP).symm⟩, fun hP => ?_⟩
  rw [wp_ite]
  exact ⟨fun hU => ⟨rfl, (if_neg fun hin => hin.2 hU).symm⟩,
    fun hU => ⟨rfl, (if_pos ⟨hP, hU⟩).symm⟩⟩

/-- The frame of a page that the program may use. -/
theorem wp_uva2ka_image {cur : ℕ} (h : Local X L fl s) (hhas : L.Has kdata I)
    (hq : q * PGSIZE < I.sz) :
    Wp E (uva2ka cur (L.dir * PGSIZE) (q * PGSIZE)) (fun r s' => s' = s ∧
      (r = none ∧ (∀ pg, I.page q = some pg → pg.user = false) ∨ ∃ f pg, r = some (f * PGSIZE) ∧
        L.page q = some f ∧ I.page q = some pg ∧ pg.user = true ∧ pg.data = s.frame f)) s := by
  have hlt : q < 2 ^ 19 := by
    have hsz := hhas.sz_lt
    unfold PGSIZE KERNBASE at *
    omega
  obtain ⟨t, ht⟩ := hhas.table hq
  refine (wp_uva2ka h.layout (by omega) ht).mono ?_
  rintro r s₀ ⟨rfl, rfl⟩
  refine ⟨rfl, ?_⟩
  cases hpage : I.page q with
  | none =>
    left
    rw [← hhas.image] at hpage
    rw [if_neg fun hin => hin.1 (entry_of_image hlt hpage)]
    exact ⟨rfl, fun pg hpg => by cases hpg⟩
  | some pg =>
    obtain ⟨f, -, hentry, hf, hdata⟩ := hhas.page hpage
    rw [hentry, PTE_ADDR_div, userEntry_div]
    cases huser : pg.user with
    | false =>
      left
      rw [if_neg fun hin => absurd ((userEntry_user f false).mp hin.2) (by decide)]
      exact ⟨rfl, fun pg' hpg' => Option.some.inj hpg' ▸ huser⟩
    | true =>
      right
      rw [if_pos ⟨userEntry_present f true, (userEntry_user f true).mpr rfl⟩]
      exact ⟨f, pg, rfl, hf, rfl, huser, by rw [h.layout.data q f hf, hdata]⟩

/-- The page of an address. -/
theorem div_page {off : ℕ} (hoff : off < PGSIZE) : (q * PGSIZE + off) / PGSIZE = q := by
  unfold PGSIZE at *
  omega

/-- What a loop that writes to memory leaves: `done` says whether it has written everything. -/
def WritePost (X : Set ℕ) (L : Layout) (kdata : ℕ) (fl : List ℕ) (I : Image) (va : ℕ)
    (bs : List UInt8) (done : Prop) (s : Mem) (r : Bool) (s' : Mem) : Prop :=
  s.Keeps X s' ∧ ∃ L' J, Local X L' fl s' ∧ L'.dir = L.dir ∧ L'.Has kdata J ∧ (r = true ↔ done) ∧
    (r = true → J = I.write va bs)

/-- A page of the image is written, behind `off` on it. -/
theorem Layout.Has.store (off : ℕ) (bs : List UInt8) (h : Local X L fl s) (hhas : L.Has kdata I)
    (hq : I.page q = some pg) (hf : L.page q = some f) (hoff : off + bs.length ≤ PGSIZE) :
    Local X (L.setData q (overlay pg.data off bs)) fl
        { s with frame := Function.update s.frame f (overlay pg.data off bs) } ∧
      (L.setData q (overlay pg.data off bs)).Has kdata (I.write (q * PGSIZE + off) bs) := by
  refine ⟨h.store hf, ?_⟩
  rw [Image.write, writePages_page hq hoff]
  exact hhas.setData hq _

theorem Image.Full.write {bs : List UInt8} (h : I.Full) : (I.write va bs).Full := by
  intro q hq
  have hthere := h q hq
  rw [← Option.isSome_iff_ne_none] at hthere ⊢
  exact isSome_writePages.mpr hthere

/-- A frame of the footprint is changed. -/
theorem Mem.Keeps.update (hf : f ∈ X) (b : Data) :
    s.Keeps X { s with frame := Function.update s.frame f b } :=
  ⟨rfl, rfl, fun g hg => Function.update_of_ne (by rintro rfl; exact hg hf) ..⟩

theorem Image.mapped_write {n : ℕ} {bs : List UInt8} {va' : ℕ} :
    (I.write va' bs).Mapped va n ↔ I.Mapped va n := by
  unfold Image.Mapped
  refine forall_congr' fun i => forall_congr' fun _ => ⟨?_, user_write⟩
  rintro ⟨pg, hpg, huser⟩
  obtain ⟨pg', hpg', rfl⟩ := Option.map_eq_some_iff.mp hpg
  exact ⟨pg', hpg', huser⟩

/-- **The loop of `copyout`**: everything is written exactly if the program may use all of it.

**Proof sketch.** Induction on the number of passes. A pass writes up to the end of the page. -/
theorem wp_copyoutLoop {cur : ℕ} (h : Local X L fl s) (hhas : L.Has kdata I)
    (hend : 0 < buf.length → va + buf.length ≤ I.sz) (hk0 : 0 < k) (hk : 2 ^ 19 < k + va / PGSIZE) :
    Wp E (copyoutLoop cur (L.dir * PGSIZE) k va buf)
      (WritePost X L kdata fl I va buf (I.Mapped va buf.length) s) s := by
  induction k generalizing va buf L I s with
  | zero => omega
  | succ k ih =>
    unfold copyoutLoop
    rw [wp_ite]
    refine ⟨fun hpos => ?_, fun hzero => ?_⟩
    swap
    · obtain rfl := List.length_eq_zero_iff.mp (Nat.eq_zero_of_not_pos hzero)
      refine ⟨.refl s X, L, I, h, rfl, hhas, iff_of_true rfl fun i hi => absurd hi (by simp),
        fun _ => ?_⟩
      rw [Image.write_nil]
    have hsz := hhas.sz_lt
    replace hend := hend hpos
    obtain ⟨q, off, hq, hoff⟩ : ∃ q off, va = q * PGSIZE + off ∧ off < PGSIZE :=
      ⟨va / PGSIZE, va % PGSIZE, (Nat.div_add_mod' ..).symm, Nat.mod_lt _ (by decide)⟩
    subst hq
    have hdown : PGROUNDDOWN (q * PGSIZE + off) = q * PGSIZE := by
      unfold PGROUNDDOWN PGSIZE at *
      omega
    have hdiv : (q * PGSIZE + off) / PGSIZE = q := div_page hoff
    have hq : q < 2 ^ 19 := by
      clear hk
      unfold PGSIZE KERNBASE at *
      omega
    rw [hdiv] at hk
    dsimp only
    rw [hdown, Nat.add_sub_cancel_left]
    refine Wp.bind (wp_uva2ka_image h hhas (by omega)) ?_
    rintro r s₀ ⟨rfl, ⟨rfl, hnot⟩ | ⟨f, pg, rfl, hf, hpg, huser, hdata⟩⟩
    · refine ⟨.refl s₀ X, L, I, h, rfl, hhas, ?_, fun hr => by cases hr⟩
      refine iff_of_false (by decide) fun hmapped => ?_
      obtain ⟨pg, hpg, huser⟩ := hmapped 0 hpos
      rw [Nat.add_zero, hdiv] at hpg
      rw [hnot pg hpg] at huser
      cases huser
    dsimp only
    obtain ⟨n, hn⟩ : ∃ n, n = if PGSIZE - off > buf.length then buf.length else PGSIZE - off :=
      ⟨_, rfl⟩
    obtain ⟨hle, hfit, hfull⟩ :
        n ≤ buf.length ∧ off + n ≤ PGSIZE ∧ (n < buf.length → off + n = PGSIZE) := by
      split_ifs at hn <;> omega
    rw [← hn, wp_bind, wp_modify, setFrame_eq, Nat.mul_div_cancel _ (by decide), ← hdata,
      next_page (by omega)]
    have hlen : (buf.take n).length = n := by
      rw [List.length_take]
      omega
    obtain ⟨hlocal, hhas'⟩ := hhas.store off (buf.take n) h hpg hf (by omega)
    have hmap : I.Mapped (q * PGSIZE + off) n := by
      intro i hi
      rw [Nat.add_assoc, div_page (by omega)]
      exact ⟨pg, hpg, huser⟩
    have hnext : n < buf.length → (q + 1) * PGSIZE = q * PGSIZE + off + n := fun hlt => by
      have hoff' := hfull hlt
      rw [Nat.add_assoc, hoff', Nat.succ_mul]
    change Wp E (copyoutLoop cur ((L.setData q (overlay pg.data off (buf.take n))).dir * PGSIZE) k
      ((q + 1) * PGSIZE) (buf.drop n)) _ _
    refine Wp.mono (ih hlocal hhas' (fun hpos' => ?_) (by omega) ?_) ?_
    · rw [List.length_drop] at hpos' ⊢
      have heq := hnext (by omega)
      change _ ≤ I.sz
      omega
    · rw [Nat.mul_div_cancel _ (by decide)]
      omega
    · rintro r s' ⟨hkeeps, L', J, hlocal', hdir, hhasJ, hr, hJ⟩
      refine ⟨(Mem.Keeps.update (h.ref_mem (P := .page q) hf) _).trans hkeeps le_rfl, L', J,
        hlocal', hdir, hhasJ, hr.trans ?_, fun htrue => ?_⟩
      · rw [Image.mapped_write, List.length_drop]
        refine ⟨fun hrest i hi => ?_, fun hall i hi => ?_⟩
        · by_cases hin : i < n
          · exact hmap i hin
          · have heq := hnext (by omega)
            have hthere := hrest (i - n) (by omega)
            rwa [heq, show q * PGSIZE + off + n + (i - n) = q * PGSIZE + off + i by omega] at hthere
        · have heq := hnext (by omega)
          have hthere := hall (n + i) (by omega)
          rwa [← Nat.add_assoc, ← heq] at hthere
      · rw [hJ htrue]
        rcases Nat.lt_or_ge n buf.length with hlt | hge
        · rw [hnext hlt]
          conv_rhs => rw [← List.take_append_drop n buf, Image.write_append, hlen]
        · rw [List.drop_eq_nil_of_le hge, Image.write_nil, List.take_of_length_le hge]

/-- `copyout` to the memory of a process. -/
theorem wp_copyout {cur : ℕ} (h : Local X L fl s) (hhas : L.Has kdata I)
    (hend : 0 < buf.length → va + buf.length ≤ I.sz) :
    Wp E (copyout cur (L.dir * PGSIZE) va buf)
      (WritePost X L kdata fl I va buf (I.Mapped va buf.length) s) s :=
  wp_copyoutLoop h hhas hend (by decide) (Nat.lt_add_right _ (by decide))

/-- The kernel's pages are not for programs. -/
theorem kernelEntry_user (kdata q : ℕ) : kernelEntry kdata q &&& PTE_U = 0 := by
  have hbit : ∀ f perm, perm < 2 ^ 12 → (perm ||| PTE_P) &&& PTE_U = 0 →
      (f * PGSIZE ||| perm ||| PTE_P) &&& PTE_U = 0 := by
    intro f perm hperm hflags
    have hmask : PTE_U = (2 ^ 12 - 1) &&& PTE_U := by decide
    have hsame : (f * PGSIZE ||| perm ||| PTE_P) &&& PTE_U =
        PTE_FLAGS (f * PGSIZE ||| perm ||| PTE_P) &&& PTE_U := by
      rw [PTE_FLAGS, ← Nat.and_two_pow_sub_one_eq_mod, Nat.and_assoc, ← hmask]
    rw [hsame, PTE_FLAGS_entry hperm, hflags]
  unfold kernelEntry
  split_ifs
  · exact hbit _ _ (by decide) (by decide)
  · exact hbit _ _ (by decide) (by decide)
  · exact hbit _ _ (by decide) (by decide)
  · exact hbit _ _ (by decide) (by decide)
  · exact Nat.zero_and _

/-- `copyout` to where the kernel has its devices. -/
theorem wp_copyout_devices {cur : ℕ} (h : L.In s) (huser : L.User kdata) (hbuf : 0 < buf.length)
    (hlo : DEVSPACE ≤ va) (hhi : va < 2 ^ 32) :
    Wp E (copyout cur (L.dir * PGSIZE) va buf) (fun r s' => r = false ∧ s' = s) s := by
  obtain ⟨q, hq, hqlo, hqhi⟩ : ∃ q, PGROUNDDOWN va = q * PGSIZE ∧ DEVSPACE / PGSIZE ≤ q ∧
      q < 2 ^ 20 := by
    refine ⟨va / PGSIZE, rfl, ?_, ?_⟩
    all_goals unfold DEVSPACE PGSIZE at *
    all_goals omega
  have hq19 : 2 ^ 19 ≤ q := le_trans (by decide) hqlo
  have hentry := huser.kernel q hq19 hqhi
  have hne : L.entry q ≠ 0 := by
    rw [hentry]
    unfold kernelEntry
    intro hzero
    refine absurd (congrArg (· &&& PTE_P) hzero) ?_
    split_ifs
    all_goals exact Vm.present _ _
  obtain ⟨t, ht⟩ := Option.ne_none_iff_exists'.mp fun hnone => hne (h.missing q hnone)
  unfold copyout PASSES copyoutLoop
  rw [if_pos hbuf]
  dsimp only
  rw [hq]
  refine Wp.bind (wp_uva2ka h hqhi ht) ?_
  rintro r s₀ ⟨rfl, rfl⟩
  rw [if_neg fun hin => hin.2 (by rw [hentry, kernelEntry_user])]
  exact ⟨rfl, rfl⟩

/-! ## Loading a segment -/

theorem readi_eq {file : List UInt8} {off n : ℕ} (hfile : file.length < 2 ^ 31) (hn : n ≤ PGSIZE) :
    readi file off n = if off ≤ file.length then some ((file.drop off).take n) else none := by
  unfold readi PGSIZE at *
  by_cases hoff : off ≤ file.length
  · rw [if_neg (by omega), if_pos hoff]
  · rw [if_pos (.inl (by omega)), if_neg hoff]

/-- **The loop of `loaduvm`**: everything is loaded exactly if the file is long enough.

**Proof sketch.** Induction on the number of passes. A pass fills a page, or the part of it that is
left. -/
theorem wp_loadLoop {file : List UInt8} {addr offset sz : ℕ} (h : Local X L fl s)
    (hhas : L.Has kdata I) (hfull : I.Full) (haddr : addr = p * PGSIZE) (hsz : addr + sz ≤ I.sz)
    (hfile : file.length < 2 ^ 31) (hoff : offset + q * PGSIZE < 2 ^ 32) (hk0 : 0 < k)
    (hk : 2 ^ 19 < k + q) :
    Wp E (loadLoop (L.dir * PGSIZE) addr file offset sz k (q * PGSIZE))
      (WritePost X L kdata fl I (addr + q * PGSIZE)
        ((file.drop (offset + q * PGSIZE)).take (sz - q * PGSIZE))
        (q * PGSIZE < sz → offset + sz ≤ file.length) s) s := by
  induction k generalizing q L I s with
  | zero => omega
  | succ k ih =>
    unfold loadLoop
    rw [wp_ite]
    refine ⟨fun hlt => ?_, fun hge => ?_⟩
    swap
    · refine ⟨.refl s X, L, I, h, rfl, hhas, iff_of_true rfl fun hlt => absurd hlt hge, fun _ => ?_⟩
      rw [Nat.sub_eq_zero_of_le (not_lt.mp hge), List.take_zero, Image.write_nil]
    have hpq : (p + q) * PGSIZE = addr + q * PGSIZE := by rw [haddr, Nat.add_mul]
    have hlt' : (p + q) * PGSIZE < I.sz := hpq ▸ (Nat.add_lt_add_left hlt addr).trans_le hsz
    obtain ⟨pg, hpg⟩ := Option.ne_none_iff_exists'.mp (hfull (p + q) hlt')
    obtain ⟨f, hpqlt, hentry, hf, hdata⟩ := hhas.page hpg
    obtain ⟨t, ht⟩ := hhas.table hlt'
    have hsmall : addr + q * PGSIZE < 2 ^ 32 := (hpq ▸ hlt').trans (hhas.sz_lt.trans (by decide))
    rw [Nat.mod_eq_of_lt hsmall, ← hpq]
    have hpq20 : p + q < 2 ^ 20 := hpqlt.trans_le (Nat.pow_le_pow_right (by decide) (by decide))
    refine Wp.bind (wp_walkpgdir_find h.layout hpq20) ?_
    rintro r s₀ ⟨rfl, rfl⟩
    rw [ht, Option.map_some]
    dsimp only
    rw [wp_bind, wp_get, h.layout.word ht, hentry, PTE_ADDR_div, userEntry_div,
      Nat.mod_eq_of_lt hoff]
    obtain ⟨n, hn⟩ : ∃ n, n = if sz - q * PGSIZE < PGSIZE then sz - q * PGSIZE else PGSIZE :=
      ⟨_, rfl⟩
    have hn' : n ≤ PGSIZE ∧ q * PGSIZE + n ≤ sz ∧ (n < PGSIZE → q * PGSIZE + n = sz) := by
      split_ifs at hn <;> omega
    rw [← hn, readi_eq hfile hn'.1]
    obtain ⟨off, hoffeq⟩ : ∃ off, off = offset + q * PGSIZE := ⟨_, rfl⟩
    rw [← hoffeq] at hoff ⊢
    by_cases hin : off ≤ file.length
    swap
    · rw [if_neg hin]
      exact ⟨.refl s₀ X, L, I, h, rfl, hhas, iff_of_false (by decide) fun hdone => by
        have := hdone hlt
        omega, fun hr => by cases hr⟩
    rw [if_pos hin]
    dsimp only
    rw [wp_bind, wp_modify, setFrame_eq, Nat.mul_div_cancel _ (by decide), h.layout.data _ f hf,
      hdata, next_page (by omega)]
    obtain ⟨bs, hbs⟩ : ∃ bs, bs = (file.drop off).take n := ⟨_, rfl⟩
    have hlen : bs.length = min n (file.length - off) := by
      rw [hbs, List.length_take, List.length_drop]
    rw [← hbs]
    obtain ⟨hlocal, hhas'⟩ := hhas.store 0 bs h hpg hf (by omega)
    rw [Nat.add_zero, hpq] at hhas'
    have hkeeps : s₀.Keeps X _ := .update (h.ref_mem (P := .page (p + q)) hf) (overlay pg.data 0 bs)
    rw [wp_ite]
    refine ⟨fun hshort => ?_, fun hwhole => ?_⟩
    · exact ⟨hkeeps, _, _, hlocal, rfl, hhas', iff_of_false (by decide) fun hdone => by
        have := hdone hlt
        omega, fun hr => by cases hr⟩
    obtain ⟨hn₁, hn₂, hn₃⟩ := hn'
    have hsucc : (q + 1) * PGSIZE = q * PGSIZE + PGSIZE := Nat.succ_mul ..
    have hpage : PGSIZE < 2 ^ 31 := by decide
    refine (ih (q := q + 1) hlocal hhas' hfull.write hsz (by omega) (by omega) (by omega)).mono ?_
    rintro r s' ⟨hkeeps', L', J, hlocal', hdir, hhasJ, hr, hJ⟩
    refine ⟨hkeeps.trans hkeeps' le_rfl, L', J, hlocal', hdir, hhasJ, hr.trans ?_, fun htrue => ?_⟩
    · constructor
      · intro hdone _
        by_cases hmore : (q + 1) * PGSIZE < sz
        · exact hdone hmore
        · omega
      · exact fun hdone _ => hdone hlt
    · rw [hJ htrue, hpq]
      rcases Nat.lt_or_ge n PGSIZE with hlast | hfullpage
      · rw [Nat.sub_eq_zero_of_le (by omega), List.take_zero, Image.write_nil, hbs,
          show sz - q * PGSIZE = n by omega]
      · obtain rfl : n = PGSIZE := by omega
        rw [show sz - q * PGSIZE = PGSIZE + (sz - (q + 1) * PGSIZE) by omega, List.take_add,
          Image.write_append, ← hbs, List.drop_drop, show bs.length = PGSIZE by omega]
        rw [show addr + (q + 1) * PGSIZE = addr + q * PGSIZE + PGSIZE by omega,
          show offset + (q + 1) * PGSIZE = off + PGSIZE by omega]

/-- `loaduvm` into the memory of a process.

**Proof sketch.** The address is that of a page, so that the first test passes, and the loop reads
the file page by page into the pages of the image (`wp_loadLoop`). -/
theorem wp_loaduvm {file : List UInt8} {addr offset sz : ℕ} (h : Local X L fl s)
    (hhas : L.Has kdata I) (hfull : I.Full) (haddr : addr % PGSIZE = 0) (hsz : addr + sz ≤ I.sz)
    (hfile : file.length < 2 ^ 31) (hoff : offset < 2 ^ 32) :
    Wp E (loaduvm (L.dir * PGSIZE) addr file offset sz)
      (WritePost X L kdata fl I addr ((file.drop offset).take sz)
        (0 < sz → offset + sz ≤ file.length) s) s := by
  unfold loaduvm PASSES
  rw [if_neg (by omega)]
  have hpage : addr = addr / PGSIZE * PGSIZE :=
    (Nat.div_mul_cancel (Nat.dvd_of_mod_eq_zero haddr)).symm
  have hloop := wp_loadLoop (E := E) (k := 2 ^ 20 + 1) (q := 0) h hhas hfull hpage hsz hfile
    (by omega) (by omega) (by omega)
  rw [Nat.zero_mul] at hloop
  exact hloop

/-! ## The guard page -/

/-- A page of the program is taken from it. -/
theorem Local.setFlags {t e : ℕ} (h : Local X L fl s) (ht : L.table (p / 1024) = some t)
    (hpage : L.page p = some f) (he : e < 2 ^ 32) (hpresent : e &&& PTE_P ≠ 0)
    (hdiv : e / PGSIZE = f) :
    Local X (L.setEntry p e (L.data p)) fl (s.setWord (t * PGSIZE + 4 * (p % 1024)) e) := by
  have hp : p < 2 ^ 19 := by
    by_contra hp
    rw [Layout.page, if_neg fun hin => hp hin.1] at hpage
    cases hpage
  have hsame : (L.setEntry p e (L.data p)).page p = some f := by
    rw [page_setEntry_self, if_pos ⟨hp, hpresent⟩, hdiv]
  have href : ∀ P, (L.setEntry p e (L.data p)).ref P = L.ref P := by
    intro P
    by_cases hP : P = .page p
    · rw [hP, Layout.ref, Layout.ref, hsame, hpage]
    · exact ref_setEntry hP
  have hft : f ≠ t := by
    rintro rfl
    cases h.layout.inj (.page p) (.table (p / 1024)) f hpage ht
  have hframe : ∀ g, g ≠ t → (s.setWord (t * PGSIZE + 4 * (p % 1024)) e).frame g = s.frame g := by
    intro g hg
    rw [setWord_eq (by omega)]
    exact Function.update_of_ne hg ..
  refine ⟨h.layout.setEntry ht he (fun g hg => ?_) rfl ?_ (fun P g _ _ hg => hframe g hg),
    h.free.congr rfl rfl fun g hg => hframe g ?_, fun P g hP => ?_, fun g => ?_⟩
  · obtain rfl : f = g := Option.some.inj (hsame.symm.trans hg)
    refine ⟨fun P hP hPf => hP (h.layout.inj P (.page p) f hPf hpage),
      h.layout.usable (.page p) f hpage, ?_⟩
    rw [hframe f hft]
    exact h.layout.data p f hpage
  · rw [setWord_eq (by omega)]
    exact Function.update_self ..
  · rintro rfl
    exact h.disjoint (.table (p / 1024)) g ht hg
  · rw [href] at hP
    exact h.disjoint P g hP
  · simp only [href]
    exact h.mem g

/-- The entry of a page without `PTE_U`. -/
theorem userEntry_clear (f : ℕ) (u : Bool) :
    userEntry f u - (userEntry f u &&& PTE_U) = userEntry f false := by
  have hand : ∀ u, userEntry f u &&& PTE_U = if u then PTE_U else 0 := by
    intro u
    have hbit : userEntry f u &&& PTE_U = PTE_FLAGS (userEntry f u) &&& PTE_U := by
      have hmask : PTE_U = (2 ^ 12 - 1) &&& PTE_U := by decide
      rw [PTE_FLAGS, ← Nat.and_two_pow_sub_one_eq_mod, Nat.and_assoc, ← hmask]
    rw [hbit, PTE_FLAGS_userEntry]
    cases u <;> decide
  have hsum : ∀ u, userEntry f u = f * PGSIZE + ((PTE_W ||| if u then PTE_U else 0) ||| PTE_P) := by
    intro u
    cases u
    · exact entry_eq (by decide)
    · exact entry_eq (by decide)
  rw [hand, hsum, hsum]
  cases u
  · exact Nat.sub_zero _
  · change f * PGSIZE + 7 - 4 = f * PGSIZE + 3
    omega

/-- `clearpteu` on a page of a process. -/
theorem wp_clearpteu (h : Local X L fl s) (hhas : L.Has kdata I) (hq : I.page q = some pg)
    (hsz : q * PGSIZE < I.sz) : Wp E (clearpteu (L.dir * PGSIZE) (q * PGSIZE)) (fun _ s' =>
      s.Keeps X s' ∧ ∃ L', Local X L' fl s' ∧ L'.dir = L.dir ∧ L'.Has kdata (I.protect q)) s := by
  obtain ⟨f, hlt, hentry, hf, hdata⟩ := hhas.page hq
  obtain ⟨t, ht⟩ := hhas.table hsz
  have husable := h.layout.usable (.page q) f hf
  have hpq20 : q < 2 ^ 20 := hlt.trans_le (Nat.pow_le_pow_right (by decide) (by decide))
  unfold clearpteu
  refine Wp.bind (wp_walkpgdir_find h.layout hpq20) ?_
  rintro r s₀ ⟨rfl, rfl⟩
  rw [ht, Option.map_some]
  dsimp only
  rw [wp_bind, wp_get, wp_modify, h.layout.word ht, hentry, userEntry_clear]
  have hlocal := h.setFlags ht hf (e := userEntry f false) (entry_lt (by
    have := husable.lt
    omega) (by decide)) (userEntry_present f false) (userEntry_div f false)
  refine ⟨?_, _, hlocal, rfl, ⟨hhas.user.contiguous, ?_, ?_⟩, ?_, hhas.reaches, ?_, hhas.sz_lt⟩
  · rw [setWord_eq (by omega)]
    exact .update (h.ref_mem (P := .table (q / 1024)) ht) _
  · intro p hp
    change Function.update L.entry q _ p = 0 ∨ ∃ f u, Function.update L.entry q _ p = userEntry f u
    by_cases hpq : p = q
    · rw [hpq, Function.update_self]
      exact .inr ⟨f, false, rfl⟩
    · rw [Function.update_of_ne hpq]
      exact hhas.user.entry p hp
  · intro p hp hp20
    change Function.update L.entry q _ p = _
    rw [Function.update_of_ne (by omega)]
    exact hhas.user.kernel p hp hp20
  · rw [image_setEntry hlt, hhas.image, Image.protect, hq, Option.map_some, hdata]
  · intro p hp
    have hne : p ≠ q := by
      rintro rfl
      exact absurd hp (not_le.mpr hsz)
    exact (Function.update_of_ne hne ..).trans (hhas.beyond p hp)

/-! ## Loading a program -/

theorem uint_lt (bs : List UInt8) (off : ℕ) : uint bs off < 2 ^ 32 := by
  have h (k : ℕ) := (bs.getD k 0).toNat_lt
  unfold uint
  have h0 := h off
  have h1 := h (off + 1)
  have h2 := h (off + 2)
  have h3 := h (off + 3)
  omega

/-- Zeros behind an image without holes. -/
theorem Image.Full.resize {sz : ℕ} (h : I.Full) : (I.resize sz).Full := by
  intro q hq
  change q * PGSIZE < sz at hq
  rw [Image.resize]
  dsimp only
  rw [if_neg (not_le.mpr hq)]
  split_ifs with hin
  · simp
  · exact h q (not_le.mp hin)

/-- What a part of `exec` leaves: an address space for a process, which shows what it is to show if
the part has succeeded. -/
def BuildPost {α : Type} (X : Set ℕ) (L : Layout) (kdata : ℕ) (built : α → Image → Prop)
    (failed : Prop) (s : Mem) (r : Option α) (s' : Mem) : Prop :=
  s.Keeps X s' ∧ ∃ L' fl', Local X L' fl' s' ∧ L'.dir = L.dir ∧ L'.User kdata ∧
    (r = none ∧ failed ∨ ∃ a J, r = some a ∧ L'.Has kdata J ∧ J.Full ∧ built a J)

/-- A part of `exec` that fails. -/
theorem BuildPost.fail {α : Type} {built : α → Image → Prop} {failed : Prop}
    (h : Local X L' fl s') (hkeeps : s.Keeps X s') (hdir : L'.dir = L.dir) (huser : L'.User kdata)
    (hfailed : failed) : BuildPost X L kdata built failed s none s' :=
  ⟨hkeeps, L', fl, h, hdir, huser, .inl ⟨rfl, hfailed⟩⟩

/-- A part of `exec` behind others. -/
theorem BuildPost.after {α : Type} {built built' : α → Image → Prop} {failed failed' : Prop}
    {r : Option α} (h : BuildPost X L' kdata built failed s' r t) (hkeeps : s.Keeps X s')
    (hdir : L'.dir = L.dir) (hbuilt : ∀ a J, built a J → built' a J) (hfail : failed → failed') :
    BuildPost X L kdata built' failed' s r t := by
  obtain ⟨hkeeps', L₂, fl₂, hlocal, hdir', huser, hpost⟩ := h
  refine ⟨hkeeps.trans hkeeps' le_rfl, L₂, fl₂, hlocal, hdir'.trans hdir, huser, hpost.imp ?_ ?_⟩
  · exact fun hnone => ⟨hnone.1, hfail hnone.2⟩
  · rintro ⟨a, J, ha, hhas, hfull, hJ⟩
    exact ⟨a, J, ha, hhas, hfull, hbuilt a J hJ⟩

/-- Two parts of `exec`, one behind the other. -/
theorem BuildPost.bind {α β : Type} {built : α → Image → Prop} {built' : β → Image → Prop}
    {failed failed' : Prop} {m : M (Option α)} {cont : Option α → M (Option β)}
    (h : Wp E m (BuildPost X L kdata built failed s) s) (hnone : cont none = pure none)
    (hfail : failed → failed')
    (hcont : ∀ a J L₁ fl₁ s₁, Local X L₁ fl₁ s₁ → L₁.dir = L.dir → L₁.Has kdata J → J.Full →
      built a J → Wp E (cont (some a)) (BuildPost X L₁ kdata built' failed' s₁) s₁) :
    Wp E (m >>= cont) (BuildPost X L kdata built' failed' s) s := by
  refine Wp.bind h ?_
  rintro r s₁ ⟨hkeeps₁, L₁, fl₁, hlocal₁, hdir₁, huser₁, ⟨rfl, hfailed⟩ |
    ⟨a, J, rfl, hhas, hfull, hbuilt⟩⟩
  · rw [hnone]
    exact .fail hlocal₁ hkeeps₁ hdir₁ huser₁ (hfail hfailed)
  · exact (hcont a J L₁ fl₁ s₁ hlocal₁ hdir₁ hhas hfull hbuilt).mono fun r s' hpost =>
      hpost.after hkeeps₁ hdir₁ (fun _ _ hbuilt => hbuilt) id

/-- Loading a program never makes its image smaller. -/
theorem Image.load_le {file : List UInt8} {off : ℕ} (h : Image.load file k off I = some J) :
    I.sz ≤ J.sz := by
  induction k generalizing off I with
  | zero =>
    rw [Image.load, Option.some.injEq] at h
    exact h ▸ le_rfl
  | succ k ih =>
    rw [Image.load] at h
    split_ifs at h with hin
    dsimp only at h
    split_ifs at h with htype hbad hzero hfile
    · exact ih h
    · exact (le_max_left _ _).trans (ih h)

/-- The image is not to be built, or there are not enough frames. -/
def Short (X : Set ℕ) (r : Option Image) : Prop := ∀ J, r = some J → X.ncard ≤ 1025 + pages J.sz

theorem pages_le {m n : ℕ} (h : m ≤ n) : pages m ≤ pages n := by
  unfold pages PGSIZE
  omega

theorem pages_le_iff {sz : ℕ} (q : ℕ) : pages sz ≤ q ↔ sz ≤ q * PGSIZE :=
  not_lt.symm.trans ((not_congr lt_pages).trans not_lt)

theorem pages_mul {sz : ℕ} : sz ≤ pages sz * PGSIZE := (pages_le_iff _).mp le_rfl

theorem PGROUNDUP_pages {sz : ℕ} (h : sz ≤ KERNBASE) : PGROUNDUP sz = pages sz * PGSIZE := by
  obtain ⟨n, hn, -, hround⟩ := Vm.PGROUNDUP_eq h
  rw [hn]
  congr 1
  exact le_antisymm ((hround _).mpr pages_mul) ((pages_le_iff n).mpr ((hround n).mp le_rfl))

/-- **The loop over the program headers.**

**Proof sketch.** Induction on the number of headers that are left. -/
theorem wp_loadProgram {file : List UInt8} {off : ℕ} (h : Local X L fl s) (hhas : L.Has kdata I)
    (hfull : I.Full) (hfile : file.length < 2 ^ 31) :
    Wp E (loadProgram (L.dir * PGSIZE) file k off I.sz)
      (BuildPost X L kdata (fun sz J => Image.load file k off I = some J ∧ J.sz = sz)
        (Short X (Image.load file k off I)) s) s := by
  induction k generalizing off L fl I s with
  | zero =>
    exact ⟨.refl s X, L, fl, h, rfl, hhas.user, .inr ⟨I.sz, I, rfl, hhas, hfull, rfl, rfl⟩⟩
  | succ k ih =>
    have hstop : Image.load file (k + 1) off I = none →
        BuildPost X L kdata (fun sz J => Image.load file (k + 1) off I = some J ∧ J.sz = sz)
          (Short X (Image.load file (k + 1) off I)) s none s :=
      fun hnone => .fail h (.refl s X) rfl hhas.user fun J hJ => by
        rw [hnone] at hJ
        cases hJ
    unfold loadProgram
    rw [readi_eq hfile (by decide)]
    by_cases hin : off ≤ file.length
    swap
    · rw [if_neg hin]
      exact hstop (if_neg (by omega))
    rw [if_pos hin]
    obtain ⟨bs, hbs⟩ : ∃ bs, bs = (file.drop off).take 32 := ⟨_, rfl⟩
    obtain ⟨ph, hph⟩ : ∃ ph, ph = Proghdr.ofBytes bs := ⟨_, rfl⟩
    rw [← hbs]
    dsimp only
    rw [← hph, wp_ite]
    rw [hbs, List.length_take, List.length_drop]
    refine ⟨fun hlen => hstop (if_neg (by omega)), fun hlen => ?_⟩
    have hin' : off + 32 ≤ file.length := by omega
    have hload : Image.load file (k + 1) off I = _ := if_pos hin'
    rw [← hbs] at hload
    dsimp only at hload
    rw [← hph] at hload
    rw [wp_ite]
    refine ⟨fun hskip => ?_, fun htype => ?_⟩
    · rw [if_pos hskip] at hload
      refine (ih h hhas hfull).mono fun r s' hpost => ?_
      rw [hload]
      exact hpost
    rw [if_neg htype] at hload
    have hvaddr : ph.vaddr < 2 ^ 32 := by
      rw [hph]
      exact uint_lt bs 8
    have hoffset : ph.off < 2 ^ 32 := by
      rw [hph]
      exact uint_lt bs 4
    have hmem : ph.memsz < 2 ^ 32 := by
      rw [hph]
      exact uint_lt bs 20
    rw [wp_ite]
    refine ⟨fun hmemsz => hstop (hload.trans (if_pos (.inl hmemsz))), fun hmemsz => ?_⟩
    rw [wp_ite]
    refine ⟨fun hwrap => hstop (hload.trans (if_pos (.inr ?_))), fun hwrap => ?_⟩
    swap
    · unfold KERNBASE
      omega
    rw [show (ph.vaddr + ph.memsz) % 2 ^ 32 = ph.vaddr + ph.memsz by omega]
    refine Wp.bind (wp_grow h hhas) ?_
    rintro r s₁ ⟨hkeeps₁, L₁, fl₁, hlocal₁, hdir₁, ⟨rfl, hshort, hhas₁⟩ | ⟨htop, rfl, hhas₁⟩⟩
    · refine .fail hlocal₁ hkeeps₁ hdir₁ hhas₁.user fun J hJ => ?_
      rw [hload] at hJ
      split_ifs at hJ with hbad hzero hlong
      · have hle := Image.load_le hJ
        change max I.sz _ ≤ _ at hle
        refine (hshort.resolve_left fun htop => hbad (.inr htop)).trans
          (Nat.add_le_add_left (pages_le (by omega)) _)
    rw [if_neg (by omega)] at hload
    obtain ⟨J₁, hJ₁⟩ : ∃ J₁, J₁ = I.resize (max I.sz (ph.vaddr + ph.memsz)) := ⟨_, rfl⟩
    have hsz₁ : max I.sz (ph.vaddr + ph.memsz) = J₁.sz := by rw [hJ₁]; rfl
    have hfull₁ : J₁.Full := hJ₁ ▸ hfull.resize
    rw [← hJ₁] at hhas₁ hload
    have hstop₁ : Image.load file (k + 1) off I = none →
        BuildPost X L kdata (fun sz J => Image.load file (k + 1) off I = some J ∧ J.sz = sz)
          (Short X (Image.load file (k + 1) off I)) s none s₁ :=
      fun hnone => .fail hlocal₁ hkeeps₁ hdir₁ hhas₁.user fun J hJ => by
        rw [hnone] at hJ
        cases hJ
    rw [hsz₁, wp_ite]
    refine ⟨fun hzero => hstop₁ (hload.trans (if_pos (.inl hzero))), fun hzero => ?_⟩
    rw [wp_ite]
    refine ⟨fun halign => hstop₁ (hload.trans (if_pos (.inr halign))), fun halign => ?_⟩
    rw [not_not] at halign
    rw [if_neg (not_or.mpr ⟨hzero, not_not.mpr halign⟩)] at hload
    rw [← hdir₁]
    refine Wp.bind (wp_loaduvm hlocal₁ hhas₁ hfull₁ halign (by omega) hfile hoffset) ?_
    rintro r s₂ ⟨hkeeps₂, L₂, J₂, hlocal₂, hdir₂, hhas₂, hr, hJ₂⟩
    have hkeeps := hkeeps₁.trans hkeeps₂ le_rfl
    have hdir := hdir₂.trans hdir₁
    rw [wp_ite]
    refine ⟨fun htrue => ?_, fun hfalse => .fail hlocal₂ hkeeps hdir hhas₂.user fun J hJ => ?_⟩
    swap
    · rw [hload, if_neg fun hlong => hfalse (hr.mpr fun _ => by omega)] at hJ
      cases hJ
    have hJ := hJ₂ htrue
    have hlong := hr.mp htrue
    have hsz₂ : J₁.sz = J₂.sz := by rw [hJ]; rfl
    rw [if_pos (by omega), ← hJ] at hload
    rw [← hdir₂, hsz₂, hload]
    exact (ih hlocal₂ hhas₂ (hJ ▸ hfull₁.write)).mono fun r s' hpost =>
      hpost.after hkeeps hdir (fun _ _ h => h) id

/-! ## Pushing the arguments -/

/-- The last page of the image is the stack, and the page below it is not for the program. -/
structure Image.Stack (b : ℕ) (I : Image) : Prop where
  pos : 0 < b
  sz : I.sz = (b + 1) * PGSIZE
  user : ∃ pg, I.page b = some pg ∧ pg.user = true
  guard : ∀ pg, I.page (b - 1) = some pg → pg.user = false

theorem Image.Stack.write {c : ℕ} {bs : List UInt8} (h : I.Stack c) : (I.write va bs).Stack c := by
  refine ⟨h.pos, h.sz, user_write h.user, fun pg hpg => ?_⟩
  obtain ⟨pg', hpg', rfl⟩ := Option.map_eq_some_iff.mp hpg
  exact h.guard pg' hpg'

/-- `copyout` to the stack, or to where the stack pointer is when there is no room: it writes
exactly if there is room on the last page. -/
theorem wp_copyout_stack {cur c : ℕ} (h : Local X L fl s) (hhas : L.Has kdata I)
    (hstack : I.Stack c)
    (hpos : 0 < buf.length) (hva : DEVSPACE ≤ va ∧ va < 2 ^ 32 ∨
      va + buf.length ≤ I.sz ∧ c * PGSIZE < va + buf.length + 4) :
    Wp E (copyout cur (L.dir * PGSIZE) va buf) (WritePost X L kdata fl I va buf
      (c * PGSIZE ≤ va ∧ va + buf.length ≤ I.sz) s) s := by
  have hpred : (c - 1) * PGSIZE + PGSIZE = c * PGSIZE := by
    rw [← Nat.succ_mul, Nat.succ_eq_add_one, Nat.sub_add_cancel hstack.pos]
  have hpage : 4 ≤ PGSIZE := by decide
  rcases hva with ⟨hlo, hhi⟩ | ⟨hend, hnear⟩
  · refine (wp_copyout_devices h.layout hhas.user hpos hlo hhi).mono ?_
    rintro r s' ⟨rfl, rfl⟩
    refine ⟨.refl s' X, L, I, h, rfl, hhas, iff_of_false (by decide) fun hin => ?_, fun hr => ?_⟩
    · exact absurd (hlo.trans (Nat.le_of_add_right_le hin.2))
        (not_le.mpr (hhas.sz_lt.trans (by decide)))
    · cases hr
  · refine (wp_copyout h hhas fun _ => hend).mono ?_
    rintro r s' ⟨hkeeps, L', J, hlocal, hdir, hhasJ, hr, hJ⟩
    refine ⟨hkeeps, L', J, hlocal, hdir, hhasJ, hr.trans ⟨fun hmapped => ⟨?_, hend⟩, ?_⟩, hJ⟩
    · -- otherwise a byte is on the guard page
      by_contra hlt
      obtain ⟨i, hi, hlo, hhi⟩ : ∃ i, i < buf.length ∧ (c - 1) * PGSIZE ≤ va + i ∧
          va + i < c * PGSIZE := by
        rcases Nat.lt_or_ge va ((c - 1) * PGSIZE) with hbelow | habove
        · exact ⟨c * PGSIZE - 4 - va, by omega, by omega, by omega⟩
        · exact ⟨0, hpos, by omega, by omega⟩
      obtain ⟨pg, hpg, huser⟩ := hmapped i hi
      have hguard : (va + i) / PGSIZE = c - 1 := by
        rw [show va + i = (c - 1) * PGSIZE + (va + i - (c - 1) * PGSIZE) by omega,
          div_page (by omega)]
      rw [hguard] at hpg
      rw [hstack.guard pg hpg] at huser
      cases huser
    · rintro ⟨hlo, -⟩
      refine mapped_of_page hstack.user hlo ?_
      rw [← Nat.succ_mul]
      exact hend.trans hstack.sz.le

/-- Where an argument of `n` bytes goes. -/
theorem push_place {c sp n : ℕ} (hlo : c * PGSIZE ≤ sp) (hsp : sp < 2 ^ 31) (hpos : 0 < n)
    (hn : n ≤ 2 ^ 25) :
    (sp < n ∧ DEVSPACE ≤ (sp + 2 ^ 32 - n) % 2 ^ 32 / 4 * 4 ∧
        (sp + 2 ^ 32 - n) % 2 ^ 32 / 4 * 4 < 2 ^ 32) ∨
      (sp + 2 ^ 32 - n) % 2 ^ 32 / 4 * 4 = (sp - n) / 4 * 4 ∧
        (sp + 2 ^ 32 - n) % 2 ^ 32 / 4 * 4 + n ≤ sp ∧
        c * PGSIZE < (sp + 2 ^ 32 - n) % 2 ^ 32 / 4 * 4 + n + 4 ∧
        (c * PGSIZE ≤ (sp + 2 ^ 32 - n) % 2 ^ 32 / 4 * 4 ↔ c * PGSIZE + n ≤ sp) := by
  unfold DEVSPACE PGSIZE at *
  rcases Nat.lt_or_ge sp n with hlt | hge
  · left
    omega
  · right
    rw [show (sp + 2 ^ 32 - n) % 2 ^ 32 = sp - n by omega]
    omega

/-! ## An argument that is too long -/

/-- The bound on the arguments is the right one: a longer one goes to where the kernel has neither
memory nor devices, so that there is no page table. -/
theorem push_gap {sp n : ℕ} (hn : sp + 2 ^ 25 < n) (hsp : n < sp + 0x72000000) :
    KERNBASE + PHYSTOP ≤ (sp + 2 ^ 32 - n) % 2 ^ 32 / 4 * 4 ∧
      (sp + 2 ^ 32 - n) % 2 ^ 32 / 4 * 4 < DEVSPACE := by
  unfold KERNBASE PHYSTOP DEVSPACE
  omega

/-- What the kernel reads at the address 0: the first word of the program. -/
theorem wp_readNull {C : Layout} (hC : C.In s) (hfirst : C.page 0 = some f) :
    Wp E (readNull (C.dir * PGSIZE)) (fun r s' => s' = s ∧ r = s.word (f * PGSIZE)) s := by
  unfold Layout.page at hfirst
  split_ifs at hfirst with hpresent
  obtain ⟨t, ht⟩ := Option.ne_none_iff_exists'.mp fun hnone => by
    rw [hC.missing 0 hnone] at hpresent
    exact hpresent.2 (Nat.zero_and _)
  have hwalk := wp_walkpgdir_find (E := E) (p := 0) hC (by decide)
  rw [Nat.zero_mul] at hwalk
  unfold readNull
  refine Wp.bind hwalk ?_
  rintro r s₀ ⟨rfl, rfl⟩
  rw [ht, Option.map_some]
  dsimp only
  rw [wp_bind, wp_get, hC.word ht, if_neg hpresent.2, PTE_ADDR_div, Option.some.inj hfirst]
  exact ⟨rfl, rfl⟩

/-- **`uva2ka` without a page table** takes the first word of the program that has called `exec`
for the entry of the page. -/
theorem wp_uva2ka_null {C : Layout} {w : ℕ} (hC : C.In s) (hfirst : C.page 0 = some f)
    (hw : s.word (f * PGSIZE) = w) (h : L.In s) (hq : q < 2 ^ 20)
    (ht : L.table (q / 1024) = none) :
    Wp E (uva2ka (C.dir * PGSIZE) (L.dir * PGSIZE) (q * PGSIZE)) (fun r s' => s' = s ∧
      r = if w &&& PTE_P ≠ 0 ∧ w &&& PTE_U ≠ 0 then some (PTE_ADDR w) else none) s := by
  unfold uva2ka
  refine Wp.bind (wp_walkpgdir_find h hq) ?_
  rintro r s₀ ⟨rfl, rfl⟩
  rw [ht, Option.map_none]
  dsimp only
  refine Wp.bind (wp_readNull hC hfirst) ?_
  rintro r s₁ ⟨rfl, rfl⟩
  rw [hw, wp_ite]
  refine ⟨fun hP => ⟨rfl, (if_neg fun hin => hin.1 hP).symm⟩, fun hP => ?_⟩
  rw [wp_ite]
  exact ⟨fun hU => ⟨rfl, (if_neg fun hin => hin.2 hU).symm⟩,
    fun hU => ⟨rfl, (if_pos ⟨hP, hU⟩).symm⟩⟩

/-- Nothing is left to copy. -/
theorem copyoutLoop_nil {cur pgdir : ℕ} (hk : 0 < k) :
    copyoutLoop cur pgdir k va [] = pure true := by
  obtain ⟨k, rfl⟩ := Nat.exists_eq_succ_of_ne_zero hk.ne'
  exact if_neg (by simp)

/-- **`copyout` without a page table** writes to the frame that the calling program has named in its
first word, be it a page of another process, a page table or a page of the kernel.

**Proof sketch.** The bytes fit in one page, so that there is one pass. The layout has no table for
the address, and `uva2ka` then reads the word at address 0, which under the page tables in use is
the first word of the calling program (`wp_uva2ka_null`). If that word has the two flags that are
tested, its upper bits are taken for the frame to write to. -/
theorem wp_copyout_null {C : Layout} {w : ℕ} (hC : C.In s) (hfirst : C.page 0 = some f)
    (hw : s.word (f * PGSIZE) = w) (hP : w &&& PTE_P ≠ 0) (hU : w &&& PTE_U ≠ 0) (h : L.In s)
    (hva : va < 2 ^ 32) (ht : L.table (va / PGSIZE / 1024) = none)
    (hbuf : 0 < buf.length) (hfits : va % PGSIZE + buf.length ≤ PGSIZE) :
    Wp E (copyout (C.dir * PGSIZE) (L.dir * PGSIZE) va buf) (fun r s' => r = true ∧
      s' = s.setFrame (PTE_ADDR w)
        (overlay (s.frame (PTE_ADDR w / PGSIZE)) (va % PGSIZE) buf)) s := by
  have hq : va / PGSIZE < 2 ^ 20 := by
    unfold PGSIZE
    omega
  have hoff : va - va / PGSIZE * PGSIZE = va % PGSIZE :=
    (Nat.mod_eq_sub_div_mul ..).symm
  obtain ⟨n, hn, hle⟩ : ∃ n, n = (if PGSIZE - va % PGSIZE > buf.length then buf.length
      else PGSIZE - va % PGSIZE) ∧ buf.length ≤ n := by
    refine ⟨_, rfl, ?_⟩
    split_ifs
    · exact le_rfl
    · omega
  unfold copyout PASSES copyoutLoop
  rw [if_pos hbuf]
  dsimp only
  rw [show PGROUNDDOWN va = va / PGSIZE * PGSIZE from rfl, hoff, ← hn]
  refine Wp.bind (wp_uva2ka_null hC hfirst hw h hq ht) ?_
  rintro r s₀ ⟨rfl, rfl⟩
  rw [if_pos ⟨hP, hU⟩]
  dsimp only
  rw [wp_bind, wp_modify, List.take_of_length_le hle, List.drop_of_length_le hle]
  rw [copyoutLoop_nil (by decide)]
  exact ⟨rfl, rfl⟩

/-- Two address spaces and a frame that is in neither of them: the first one names this frame in its
first word, and the second one has no page tables. -/
def foreignMem : Mem where
  frame := fun f k =>
    match f, k with
    | 1, 0 => 0x07
    | 1, 1 => 0x20
    | 2, 0 => 0x07
    | 2, 1 => 0x30
    | 3, 0 => 0x07
    | 3, 1 => 0x50
    | _, _ => 0
  freelist := 0
  kend := 0
  kdata := 0

/-- That frame is overwritten by a `copyout` to an address in the gap. -/
theorem copyout_foreign : ∃ s', (copyout 0x1000 0x4000 0xf0000000 [1, 2, 3]).run foreignMem =
    .ok (true, s') ∧ foreignMem.frame 5 0 = 0 ∧ s'.frame 5 0 = 1 := by
  refine ⟨_, rfl, rfl, ?_⟩
  decide +kernel

/-- What has been pushed. -/
structure Image.PushedAll (c : ℕ) (argv : List (List UInt8)) (sp : ℕ) (ptrs : List ℕ) (I : Image)
    (a : ℕ × List ℕ) (J : Image) : Prop where
  push : Image.push (c * PGSIZE) argv sp ptrs I = some (a.1, a.2, J)
  stack : J.Stack c
  ge : c * PGSIZE ≤ a.1
  le : a.1 ≤ J.sz
  aligned : a.1 % 4 = 0
  length : a.2.length ≤ MAXARG

/-- **The loop that pushes the arguments.**

**Proof sketch.** Induction on the arguments. When there is no room for one, its copy would begin
below the stack, or the stack pointer wraps around. -/
theorem wp_pushArgs {cur c sp : ℕ} {argv : List (List UInt8)} {ptrs : List ℕ} (h : Local X L fl s)
    (hhas : L.Has kdata I) (hfull : I.Full) (hstack : I.Stack c)
    (hargv : ∀ arg ∈ argv, arg.length < 2 ^ 25) (hlo : c * PGSIZE ≤ sp) (hhi : sp ≤ I.sz)
    (haligned : sp % 4 = 0) (hptrs : ptrs.length ≤ MAXARG) :
    Wp E (pushArgs cur (L.dir * PGSIZE) argv sp ptrs)
      (BuildPost X L kdata (I.PushedAll c argv sp ptrs)
        (Image.push (c * PGSIZE) argv sp ptrs I = none) s) s := by
  induction argv generalizing sp ptrs I L s with
  | nil =>
    exact ⟨.refl s X, L, fl, h, rfl, hhas.user, .inr ⟨(sp, ptrs), I, rfl, hhas, hfull, rfl, hstack,
      hlo, hhi, haligned, hptrs⟩⟩
  | cons arg argv ih =>
    rw [List.forall_mem_cons] at hargv
    unfold pushArgs
    rw [wp_ite]
    refine ⟨fun hmax => ?_, fun hmax => ?_⟩
    · exact .fail h (.refl s X) rfl hhas.user (if_pos (.inl hmax))
    have hsmall : sp < 2 ^ 31 := hhi.trans_lt (hhas.sz_lt.trans_le (by decide))
    have hlen : (arg ++ [0]).length = arg.length + 1 := List.length_append
    have hplace := push_place hlo hsmall (Nat.succ_pos arg.length) hargv.1
    obtain ⟨sp₁, hsp₁⟩ : ∃ sp₁, sp₁ = (sp + 2 ^ 32 - (arg.length + 1)) % 2 ^ 32 / 4 * 4 := ⟨_, rfl⟩
    rw [← hsp₁] at hplace
    dsimp only
    rw [← hsp₁]
    refine Wp.bind (wp_copyout_stack h hhas hstack (by omega) (hplace.imp And.right fun hroom => by
      omega)) ?_
    rintro r s₁ ⟨hkeeps₁, L₁, J₁, hlocal₁, hdir₁, hhas₁, hr, hJ⟩
    rw [wp_ite]
    refine ⟨fun htrue => ?_, fun hfalse => ?_⟩
    · obtain ⟨hge, hle⟩ := hr.mp htrue
      obtain ⟨heq, hle', hnear, hfits⟩ := hplace.resolve_left fun hwrap => absurd
        (hle.trans_lt hhas.sz_lt) (not_lt.mpr (le_trans (by decide) (hwrap.2.1.trans
          (Nat.le_add_right ..))))
      have hpush : Image.push (c * PGSIZE) (arg :: argv) sp ptrs I = _ := if_neg (not_or.mpr
        ⟨hmax, not_lt.mpr (hfits.mp hge)⟩)
      dsimp only at hpush
      rw [← heq, ← hJ htrue] at hpush
      have hsz₁ : J₁.sz = I.sz := by
        rw [hJ htrue]
        rfl
      rw [← hdir₁]
      refine (ih hlocal₁ hhas₁ (hJ htrue ▸ hfull.write) (hJ htrue ▸ hstack.write) hargv.2 hge
        (by omega) (by omega) ?_).mono fun r s' hpost => hpost.after hkeeps₁ hdir₁ ?_ ?_
      · rw [List.length_append, List.length_singleton]
        omega
      · rintro a J ⟨hp, hst, hge', hle', hal, hl⟩
        exact ⟨hpush.trans hp, hst, hge', hle', hal, hl⟩
      · exact fun hnone => hpush.trans hnone
    · refine .fail hlocal₁ hkeeps₁ hdir₁ hhas₁.user (if_pos (.inr ?_))
      by_contra hfits
      refine hfalse (hr.mpr ?_)
      rcases hplace with hwrap | hroom
      · omega
      · omega

/-! ## Building the image -/

/-- An image up to the end of its last page. -/
theorem Layout.Has.round (h : L.Has kdata I) (hlt : PGROUNDUP I.sz < KERNBASE) :
    L.Has kdata (I.resize (PGROUNDUP I.sz)) := by
  obtain ⟨n, hn, -, hround⟩ := Vm.PGROUNDUP_eq h.sz_lt.le
  have hiff : ∀ q, PGROUNDUP I.sz ≤ q * PGSIZE ↔ I.sz ≤ q * PGSIZE := by
    intro q
    rw [hn, ← hround]
    exact Nat.mul_le_mul_right_iff (by decide)
  refine ⟨h.user, h.image.trans (funext fun q => ?_), fun q hq => h.reaches q ?_, fun q hq =>
    if_pos hq, hlt⟩
  · rw [Image.resize]
    dsimp only
    simp only [hiff]
    split_ifs with hq
    · exact h.beyond q hq
    · rfl
  · exact not_le.mp fun hle => absurd ((hiff q).mpr hle) (not_le.mpr hq)

/-- Two pages behind an image, up to the end of a page. -/
theorem Image.resize_round {n sz : ℕ} (hround : ∀ q, n ≤ q ↔ I.sz ≤ q * PGSIZE) :
    (I.resize (n * PGSIZE)).resize sz = I.resize sz := by
  unfold Image.resize
  congr 1
  funext q
  dsimp only
  have hiff : n * PGSIZE ≤ q * PGSIZE ↔ I.sz ≤ q * PGSIZE := by
    rw [← hround]
    exact Nat.mul_le_mul_right_iff (by decide)
  simp only [hiff]
  split_ifs <;> rfl

/-- What `exec` has built. -/
def Built (pgdir : ℕ) (r : Option (Image × ℕ × ℕ)) (loaded : Loaded) (J : Image) : Prop :=
  r = some (J, loaded.eip, loaded.esp) ∧ loaded.sz = J.sz ∧ loaded.pgdir = pgdir

/-- The image with the stack, in pages. -/
theorem Image.start_eq (entry : ℕ) (argv : List (List UInt8)) {n : ℕ}
    (hn : PGROUNDUP I.sz = n * PGSIZE) : Image.start entry argv I =
      if KERNBASE ≤ (n + 2) * PGSIZE then none
      else (Image.push ((n + 1) * PGSIZE) argv ((n + 2) * PGSIZE) []
        ((I.resize ((n + 2) * PGSIZE)).protect n)).bind fun x =>
          if x.1 < (n + 1) * PGSIZE + (3 + x.2.1.length + 1) * 4 then none
          else some (x.2.2.write (x.1 - (3 + x.2.1.length + 1) * 4)
            ((ustack x.1 x.2.1).flatMap uintBytes), entry, x.1 - (3 + x.2.1.length + 1) * 4) := by
  have hsize : n * PGSIZE + 2 * PGSIZE = (n + 2) * PGSIZE := (Nat.add_mul ..).symm
  have hlast : (n + 2) * PGSIZE - PGSIZE = (n + 1) * PGSIZE := by
    unfold PGSIZE
    omega
  unfold Image.start
  dsimp only
  rw [hn, hsize, hlast, Nat.mul_div_cancel _ (by decide), Nat.add_sub_cancel]
  rfl

/-- The last page has been made the stack. -/
theorem Image.stack_protect {n : ℕ} (hround : ∀ q, n ≤ q ↔ I.sz ≤ q * PGSIZE) :
    ((I.resize ((n + 2) * PGSIZE)).protect n).Stack (n + 1) := by
  have hpage : ∀ q, n ≤ q → q < n + 2 →
      (I.resize ((n + 2) * PGSIZE)).page q = some ⟨true, fun _ => 0⟩ := by
    intro q hlo hhi
    rw [Image.resize]
    dsimp only
    rw [if_neg (by unfold PGSIZE; omega), if_pos ((hround q).mp hlo)]
  refine ⟨Nat.succ_pos n, rfl, ⟨⟨true, fun _ => 0⟩, ?_, rfl⟩, fun pg hpg => ?_⟩
  · exact (Function.update_of_ne (by omega) ..).trans (hpage (n + 1) (by omega) (by omega))
  · rw [Nat.add_sub_cancel, Image.protect] at hpg
    dsimp only at hpg
    rw [Function.update_self, hpage n le_rfl (by omega), Option.map_some, Option.some.injEq] at hpg
    rw [← hpg]

theorem Image.Full.protect (h : I.Full) : (I.protect q).Full := by
  intro p hp
  rw [Image.protect]
  dsimp only
  by_cases hpq : p = q
  · rw [hpq, Function.update_self]
    obtain ⟨pg, hpg⟩ := Option.ne_none_iff_exists'.mp (h q (hpq ▸ hp))
    rw [hpg]
    simp
  · rw [Function.update_of_ne hpq]
    exact h p hp

/-- Pushing arguments does not change the size. -/
theorem Image.push_sz {base sp sp' : ℕ} {argv : List (List UInt8)} {ptrs ptrs' : List ℕ}
    (h : Image.push base argv sp ptrs I = some (sp', ptrs', J)) : J.sz = I.sz := by
  induction argv generalizing sp ptrs I with
  | nil =>
    rw [Image.push, Option.some.injEq, Prod.mk.injEq, Prod.mk.injEq] at h
    rw [h.2.2]
  | cons arg argv ih =>
    rw [Image.push] at h
    split_ifs at h
    dsimp only at h
    exact (ih h).trans rfl

/-- The size of an image with a stack. -/
theorem Image.start_sz {entry eip esp n : ℕ} {argv : List (List UInt8)}
    (hn : PGROUNDUP I.sz = n * PGSIZE) (h : Image.start entry argv I = some (J, eip, esp)) :
    J.sz = (n + 2) * PGSIZE := by
  rw [Image.start_eq _ _ hn] at h
  split_ifs at h with htop
  obtain ⟨⟨sp, ptrs, I'⟩, hpush, h⟩ := Option.bind_eq_some_iff.mp h
  dsimp only at h
  split_ifs at h with hroom
  rw [Option.some.injEq, Prod.mk.injEq] at h
  rw [← h.1]
  exact Image.push_sz hpush

/-- **The part of `exec` that makes the stack.**

**Proof sketch.** The part follows `Image.start`, which says what the image is to be
(`Image.start_eq`). Two pages are added above the program (`wp_grow`), of which the lower one is
closed to the user (`wp_clearpteu`), the arguments are pushed (`wp_pushArgs`), and the argument
vector is copied below them (`wp_copyout_stack`). Wherever the specification has no image the code
gives up too, and it gives up nowhere else but for want of memory, at the only allocation. -/
theorem wp_startImage {cur entry sz n : ℕ} {argv : List (List UInt8)} (h : Local X L fl s)
    (hhas : L.Has kdata I) (hfull : I.Full) (hargv : ∀ arg ∈ argv, arg.length < 2 ^ 25)
    (hsz : I.sz = sz) (hn : PGROUNDUP sz = n * PGSIZE)
    (hround : ∀ q, n ≤ q ↔ I.sz ≤ q * PGSIZE) :
    Wp E (startImage cur (L.dir * PGSIZE) entry argv sz)
      (BuildPost X L kdata (Built (L.dir * PGSIZE) (Image.start entry argv I))
        (Short X ((Image.start entry argv I).map Prod.fst)) s) s := by
  have hsize : n * PGSIZE + 2 * PGSIZE = (n + 2) * PGSIZE := (Nat.add_mul ..).symm
  have hle : n ≤ 2 ^ 19 := (hround _).mpr hhas.sz_lt.le
  have hsmall : (n + 2) * PGSIZE < 2 ^ 32 := by
    unfold PGSIZE
    omega
  have hshort : ∀ J, (Image.start entry argv I).map Prod.fst = some J →
      J.sz = (n + 2) * PGSIZE := by
    intro J hJ
    obtain ⟨⟨J', eip, esp⟩, hJ', rfl⟩ := Option.map_eq_some_iff.mp hJ
    exact Image.start_sz (hsz ▸ hn) hJ'
  have hstart := Image.start_eq entry argv (hsz ▸ hn)
  generalize Image.start entry argv I = x at hstart hshort ⊢
  unfold startImage
  dsimp only
  rw [hn, hsize, Nat.mod_eq_of_lt hsmall]
  by_cases htop : KERNBASE ≤ (n + 2) * PGSIZE
  · refine Wp.bind (wp_allocuvm_top htop) ?_
    rintro r s' ⟨rfl, rfl⟩
    rw [if_pos rfl, hstart, if_pos htop]
    exact .fail h (.refl s' X) rfl hhas.user fun J hJ => by cases hJ
  rw [if_neg htop] at hstart
  have hhas₀ := hhas.round (by
    rw [hsz, hn]
    exact (Nat.mul_le_mul_right PGSIZE (Nat.le_add_right n 2)).trans_lt (not_le.mp htop))
  rw [hsz, hn] at hhas₀
  have hgrow : Wp E (allocuvm (L.dir * PGSIZE) (n * PGSIZE) ((n + 2) * PGSIZE)) _ s :=
    wp_grow h hhas₀
  refine Wp.bind hgrow ?_
  rintro r s₁ ⟨hkeeps₁, L₁, fl₁, hlocal₁, hdir₁, ⟨rfl, hcard, hhas₁⟩ | ⟨-, rfl, hhas₁⟩⟩
  · rw [if_pos rfl]
    refine .fail hlocal₁ hkeeps₁ hdir₁ hhas₁.user fun J hJ => ?_
    rw [hshort J hJ]
    exact hcard.resolve_left htop
  have hmax : max (I.resize (n * PGSIZE)).sz ((n + 2) * PGSIZE) = (n + 2) * PGSIZE :=
    max_eq_right (Nat.mul_le_mul_right PGSIZE (Nat.le_add_right n 2))
  have hpos : (n + 2) * PGSIZE ≠ 0 := (Nat.mul_pos (Nat.succ_pos _) (by decide)).ne'
  have hguard : (n + 2) * PGSIZE - 2 * PGSIZE = n * PGSIZE := by
    rw [Nat.add_mul, Nat.add_sub_cancel]
  rw [hmax, Image.resize_round hround] at hhas₁
  rw [hmax, if_neg hpos, hguard, ← hdir₁]
  have hfull₁ : (I.resize ((n + 2) * PGSIZE)).Full := hfull.resize
  have hlt : n * PGSIZE < (n + 2) * PGSIZE := (Nat.mul_lt_mul_right (by decide)).mpr (by omega)
  obtain ⟨pg, hpg⟩ := Option.ne_none_iff_exists'.mp (hfull₁ n hlt)
  refine Wp.bind (wp_clearpteu hlocal₁ hhas₁ hpg hlt) ?_
  rintro _ s₂ ⟨hkeeps₂, L₂, hlocal₂, hdir₂, hhas₂⟩
  have hstack := Image.stack_protect hround
  have hfull₂ := hfull₁.protect (q := n)
  obtain ⟨J, hJ⟩ : ∃ J, J = (I.resize ((n + 2) * PGSIZE)).protect n := ⟨_, rfl⟩
  have hsz₂ : J.sz = (n + 2) * PGSIZE := by
    rw [hJ]
    rfl
  rw [← hJ] at hstart hhas₂ hfull₂ hstack
  rw [← hdir₂]
  have haligned : (n + 2) * PGSIZE % 4 = 0 := by
    unfold PGSIZE
    omega
  refine Wp.mono (BuildPost.bind (wp_pushArgs hlocal₂ hhas₂ hfull₂ hstack hargv
    (Nat.mul_le_mul_right PGSIZE (Nat.le_succ _)) hsz₂.ge haligned
    (show ([] : List ℕ).length ≤ MAXARG from Nat.zero_le _)) rfl ?_ ?_) fun r s' hpost =>
      hpost.after (hkeeps₁.trans hkeeps₂ le_rfl) (hdir₂.trans hdir₁) (fun _ _ hbuilt => hbuilt) id
  · intro hnone
    rw [hstart, hnone]
    exact fun J hJ => by cases hJ
  rintro ⟨sp, ptrs⟩ I₃ L₃ fl₃ s₃ hlocal₃ hdir₃ hhas₃ hfull₃ ⟨hpush, hstack₃, hge, hsp, -, hlen⟩
  rw [hpush, Option.bind_some] at hstart
  dsimp only at hstart hge hsp hlen ⊢
  have hbuf : ((ustack sp ptrs).flatMap uintBytes).length = (3 + ptrs.length + 1) * 4 := by
    rw [length_uintBytes, length_ustack]
    omega
  have hle : (3 + ptrs.length + 1) * 4 ≤ sp := by
    refine le_trans ?_ ((Nat.mul_le_mul_right PGSIZE (Nat.le_add_left 1 n)).trans hge)
    unfold MAXARG PGSIZE at *
    omega
  have hlt : sp < 2 ^ 32 := hsp.trans_lt (hhas₃.sz_lt.trans (by decide))
  have hesp : (sp + 2 ^ 32 - (3 + ptrs.length + 1) * 4) % 2 ^ 32 =
      sp - (3 + ptrs.length + 1) * 4 := by omega
  rw [hesp, ← hdir₃]
  have hend : sp - (3 + ptrs.length + 1) * 4 + (3 + ptrs.length + 1) * 4 = sp :=
    Nat.sub_add_cancel hle
  refine Wp.bind (wp_copyout_stack hlocal₃ hhas₃ hstack₃ (by omega) (.inr ?_)) ?_
  · rw [hbuf, hend]
    exact ⟨hsp, Nat.lt_add_right 3 (Nat.lt_succ_of_le hge)⟩
  rintro r s₄ ⟨hkeeps₄, L₄, J₄, hlocal₄, hdir₄, hhas₄, hr, hJ₄⟩
  rw [hbuf, hend] at hr
  rw [wp_ite]
  refine ⟨fun htrue => ?_, fun hfalse => ?_⟩
  · have hroom := (hr.mp htrue).1
    rw [if_neg (by omega), ← hJ₄ htrue] at hstart
    refine ⟨hkeeps₄, L₄, fl₃, hlocal₄, hdir₄, hhas₄.user, .inr ⟨_, J₄, rfl, hhas₄, ?_, hstart, ?_,
      rfl⟩⟩
    · rw [hJ₄ htrue]
      exact hfull₃.write
    · rw [hJ₄ htrue, ← hsz₂]
      exact (Image.push_sz hpush).symm
  · refine .fail hlocal₄ hkeeps₄ hdir₄ hhas₄.user ?_
    rw [hstart, if_pos]
    · exact fun J hJ => by cases hJ
    · by_contra hroom
      exact hfalse (hr.mpr ⟨by omega, hsp⟩)

/-- **The part of `exec` that builds the new address space.** -/
theorem wp_loadImage {cur : ℕ} {elf : Elfhdr} {file : List UInt8} {argv : List (List UInt8)}
    (h : Local X L fl s) (hhas : L.Has kdata .empty) (hfile : file.length < 2 ^ 31)
    (hargv : ∀ arg ∈ argv, arg.length < 2 ^ 25) :
    Wp E (loadImage cur (L.dir * PGSIZE) elf file argv)
      (BuildPost X L kdata (Built (L.dir * PGSIZE) (Image.build elf file argv))
        (Short X ((Image.build elf file argv).map Prod.fst)) s) s := by
  have hfull : Image.empty.Full := fun q hq => absurd hq (Nat.not_lt_zero _)
  unfold loadImage
  refine BuildPost.bind (wp_loadProgram h hhas hfull hfile) rfl ?_ ?_
  · intro hshort J hJ
    obtain ⟨⟨J', eip, esp⟩, hJ', rfl⟩ := Option.map_eq_some_iff.mp hJ
    obtain ⟨I₁, hload, hstart⟩ := Option.bind_eq_some_iff.mp hJ'
    have hle := Image.start_sz (PGROUNDUP_pages (Image.load_lt hload (by decide)).le) hstart
    refine (hshort I₁ hload).trans (Nat.add_le_add_left (pages_le ?_) _)
    have hpages : I₁.sz ≤ pages I₁.sz * PGSIZE := pages_mul
    rw [hle, Nat.add_mul]
    exact hpages.trans (Nat.le_add_right ..)
  · intro sz I₁ L₁ fl₁ s₁ hlocal₁ hdir₁ hhas₁ hfull₁ hbuilt
    have hbuild : Image.build elf file argv = Image.start elf.entry argv I₁ := by
      rw [Image.build, hbuilt.1, Option.bind_some]
    have hround : PGROUNDUP sz = pages I₁.sz * PGSIZE := by
      rw [← hbuilt.2, PGROUNDUP_pages hhas₁.sz_lt.le]
    rw [hbuild, ← hdir₁]
    dsimp only
    exact wp_startImage hlocal₁ hhas₁ hfull₁ hargv hbuilt.2 hround pages_le_iff

/-! ## Exchanging the address space -/

/-- The frames of an address space and free ones. -/
def Layout.withFree (L : Layout) (fl : List ℕ) : Set ℕ := {f | f ∈ fl ∨ ∃ P, L.ref P = some f}

/-- With the same free frames, another address space. -/
theorem Local.other {Lc : Layout} (h : Local X L fl s) (hcur : Lc.In s)
    (hout : ∀ P f, Lc.ref P = some f → f ∉ X) : Local (Lc.withFree fl) Lc fl s :=
  ⟨hcur, h.free, fun P f hf hmem => hout P f hf ((h.mem f).mpr (.inl hmem)), fun _ => Iff.rfl⟩

/-- The other address space has been freed. -/
theorem Local.freed {Lc : Layout} {fl₀ : List ℕ} (h : Local {g | g ∈ fl₀} L fl s)
    (hout : ∀ P f, Lc.ref P = some f → f ∉ fl₀) (hkeeps : s.Keeps (Lc.withFree fl) s')
    (hfree : FreeList fl' s') (hmem : ∀ f, f ∈ fl' ↔ f ∈ Lc.withFree fl) :
    Local (Lc.withFree fl₀) L fl' s' := by
  have hin : ∀ P f, L.ref P = some f → f ∈ fl₀ := fun P f hf => h.ref_mem hf
  have hnot : ∀ P f, L.ref P = some f → f ∉ Lc.withFree fl := by
    rintro P f hf (hfl | ⟨Q, hQ⟩)
    · exact h.disjoint P f hf hfl
    · exact hout Q f hQ (hin P f hf)
  refine ⟨h.layout.congr hkeeps.kend fun P f hf => hkeeps.frame f (hnot P f hf), hfree,
    fun P f hf hmem' => hnot P f hf ((hmem f).mp hmem'), fun f => ?_⟩
  rw [hmem]
  constructor
  · rintro (hf | hcur)
    · exact ((h.mem f).mp hf).imp .inl id
    · exact .inl (.inr hcur)
  · rintro ((hfl | hcur) | ⟨P, hP⟩)
    · exact .inl ((h.mem f).mpr (.inl hfl))
    · exact .inr hcur
    · exact .inl (hin P f hP)

/-- **`exec`** in a process with the address space `Lc`: the process gets the image of the program,
and its frames are free; or it keeps what it had, since the file is none that can be loaded, the
arguments do not fit on the stack, or there are not enough free frames.

**Proof sketch.** A file that is too short, or has another magic number, is refused before anything
is allocated. Otherwise the image is built in a new address space, while the old one is left alone
(`wp_loadImage`); the free list and the two layouts share no frame. If that succeeds the old address
space is freed (`wp_freevm`), and if it fails the new one is, so that in either case all frames are
accounted for. -/
theorem wp_exec {Lc : Layout} {file : List UInt8} {argv : List (List UInt8)} (h : FreeList fl s)
    (hlinked : s.Linked) (hcur : Lc.In s) (huser : Lc.User s.kdata)
    (hout : ∀ P f, Lc.ref P = some f → f ∉ fl) (hfile : file.length < 2 ^ 31)
    (hargv : ∀ arg ∈ argv, arg.length < 2 ^ 25) :
    Wp E (exec (Lc.dir * PGSIZE) file argv) (fun r s' =>
      (r = none ∧ s.Keeps {g | g ∈ fl} s' ∧ (∃ fl', FreeList fl' s' ∧ fl' ⊆ fl) ∧
        ∀ J, (Image.exec file argv).map Prod.fst = some J → fl.length ≤ 1025 + pages J.sz) ∨
      ∃ loaded L I fl', r = some loaded ∧
        Image.exec file argv = some (I, loaded.eip, loaded.esp) ∧ loaded.sz = I.sz ∧
        loaded.pgdir = L.dir * PGSIZE ∧ s.Keeps (Lc.withFree fl) s' ∧
        Local (Lc.withFree fl) L fl' s' ∧ L.Has s.kdata I ∧ I.Full) s := by
  have hstop : Image.exec file argv = none → (none : Option Loaded) = none ∧
      s.Keeps {g | g ∈ fl} s ∧ (∃ fl', FreeList fl' s ∧ fl' ⊆ fl) ∧
      ∀ J, (Image.exec file argv).map Prod.fst = some J → fl.length ≤ 1025 + pages J.sz := by
    refine fun hnone => ⟨rfl, .refl s _, ⟨fl, h, List.Subset.refl fl⟩, fun J hJ => ?_⟩
    rw [hnone] at hJ
    cases hJ
  have hexec : Image.exec file argv =
    if file.length < 52 ∨ (Elfhdr.ofBytes (file.take 52)).magic ≠ ELF_MAGIC then none
    else Image.build (Elfhdr.ofBytes (file.take 52)) file argv := rfl
  unfold exec
  rw [readi_eq hfile (by decide), if_pos (Nat.zero_le _), List.drop_zero]
  dsimp only
  obtain ⟨elf, helf⟩ : ∃ elf, elf = Elfhdr.ofBytes (file.take 52) := ⟨_, rfl⟩
  rw [← helf] at hexec ⊢
  rw [List.length_take, wp_ite]
  refine ⟨fun hlen => .inl (hstop (hexec.trans (if_pos (.inl (by omega))))), fun hlen => ?_⟩
  rw [wp_ite]
  refine ⟨fun hmagic => .inl (hstop (hexec.trans (if_pos (.inr hmagic)))), fun hmagic => ?_⟩
  rw [if_neg (not_or.mpr ⟨by omega, hmagic⟩)] at hexec
  refine Wp.bind (wp_setupkvm h hlinked) ?_
  rintro r s₁ ⟨hkeeps₁, ⟨rfl, hexhausted⟩ | ⟨L₁, fl₁, rfl, hlocal₁, huser₁, hbare⟩⟩
  · exact .inl ⟨rfl, hkeeps₁, ⟨[], hexhausted.1, List.nil_subset fl⟩, fun J _ =>
      (hexhausted.length_le h.nodup).trans (by omega)⟩
  have hhas₁ : L₁.Has s.kdata .empty :=
    ⟨huser₁, funext (hlocal₁.image_bare hbare), fun q hq => absurd hq (Nat.not_lt_zero _),
      fun _ _ => rfl, by decide⟩
  dsimp only
  refine Wp.bind (wp_loadImage hlocal₁ hhas₁ hfile hargv) ?_
  rintro r s₂ ⟨hkeeps₂, L₂, fl₂, hlocal₂, hdir₂, huser₂, ⟨rfl, hshort⟩ |
    ⟨loaded, I, rfl, hhas₂, hfull₂, hbuild, hsz, hpgdir⟩⟩
  · dsimp only
    rw [← hdir₂]
    refine Wp.bind (wp_freevm hlocal₂ huser₂) ?_
    rintro _ s₃ ⟨hkeeps₃, fl₃, hfree₃, hmem₃⟩
    refine .inl ⟨rfl, (hkeeps₁.trans hkeeps₂ le_rfl).trans hkeeps₃ le_rfl,
      ⟨fl₃, hfree₃, fun f hf => (hmem₃ f).mp hf⟩, fun J hJ => ?_⟩
    rw [← ncard_list h.nodup]
    rw [hexec] at hJ
    exact hshort J hJ
  · have hkeeps := hkeeps₁.trans hkeeps₂ le_rfl
    have hcur₂ : Lc.In s₂ := hcur.congr hkeeps.kend fun P f hf => hkeeps.frame f (hout P f hf)
    have hlocalc := hlocal₂.other hcur₂ hout
    refine Wp.bind (wp_freevm hlocalc huser) ?_
    rintro _ s₃ ⟨hkeeps₃, fl₃, hfree₃, hmem₃⟩
    have hsub : Lc.withFree fl₂ ⊆ Lc.withFree fl := by
      rintro f (hf | hf)
      · exact .inl ((hlocal₂.mem f).mpr (.inl hf))
      · exact .inr hf
    refine .inr ⟨loaded, L₂, I, fl₃, rfl, hexec.trans hbuild, hsz, by rw [hpgdir, hdir₂],
      (hkeeps.mono fun f hf => .inl hf).trans (hkeeps₃.mono hsub) le_rfl,
      hlocal₂.freed hout hkeeps₃ hfree₃ hmem₃, hhas₂, hfull₂⟩

end HgXv6.Phys
