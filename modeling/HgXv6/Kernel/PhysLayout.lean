import HgXv6.Kernel.Ownership
import HgXv6.Kernel.PhysMem
import HgXv6.Lib.Segment

set_option relaxedAutoImplicit false
set_option autoImplicit false

/-!
# The frames of an address space

An address space is laid out over frames: one for the page directory, one for each page table, and
one for each page of the program. It is described together with the list of free frames, and with
the set of all frames of the two, its footprint: a frame moves from one to the other within the
footprint, and nothing is written outside of it. A frame that `kalloc` has returned is outside of
the footprint until it is put to use.

## Main definitions

* `HgXv6.Phys.Layout` — the frames of an address space, and what is in them.
* `HgXv6.Phys.Local X L fl s` — in memory `s` the address space `L` and the free frames `fl` have
  the footprint `X`.
* `HgXv6.Phys.Mem.Keeps` — nothing is written outside of a footprint.

## Main results

* `HgXv6.Phys.wp_kalloc`, `HgXv6.Phys.wp_kfree` — a frame leaves the footprint, or comes back.
* `HgXv6.Phys.wp_walkpgdir_find`, `HgXv6.Phys.wp_walkpgdir_alloc` — the entry of a page is found.
* `HgXv6.Phys.wp_mappages` — a page is mapped.
-/

namespace HgXv6.Phys

open Prog
open Disk (Data getUint putUint getUint_putUint getUint_zero)
open Vm (PGSIZE NPTENTRIES PHYSTOP PTE_P PTE_W PTE_U PDX PTX PTE_ADDR PGROUNDUP PGROUNDDOWN PASSES)

variable {E : Stop → Prop} {s s' t : Mem} {f g p i j v : ℕ} {fl fl' : List ℕ} {X Y : Set ℕ}
  {b : Data}

/-! ## Words -/

/-- A frame that the kernel gives out. -/
structure Mem.Usable (s : Mem) (f : ℕ) : Prop where
  pos : 0 < f
  kend : s.kend ≤ f * PGSIZE
  top : f * PGSIZE < PHYSTOP

theorem Mem.Usable.lt (h : s.Usable f) : f < 0xE000 := by
  have htop := h.top
  unfold PGSIZE PHYSTOP at htop
  omega

theorem Mem.Usable.congr (h : s.Usable f) (hkend : s'.kend = s.kend) : s'.Usable f :=
  ⟨h.pos, hkend.symm ▸ h.kend, h.top⟩

/-- The word of a page. -/
theorem word_eq (hj : j < 1024) : s.word (f * PGSIZE + 4 * j) = getUint (s.frame f) j := by
  have hdiv : (f * PGSIZE + 4 * j) / PGSIZE = f := by unfold PGSIZE; omega
  have hmod : (f * PGSIZE + 4 * j) % PGSIZE / 4 = j := by unfold PGSIZE; omega
  rw [Mem.word, hdiv, hmod]

theorem setFrame_eq : s.setFrame (f * PGSIZE) b =
    { s with frame := Function.update s.frame f b } := by
  rw [Mem.setFrame, Nat.mul_div_cancel _ (by decide)]

theorem setWord_eq (hj : j < 1024) : s.setWord (f * PGSIZE + 4 * j) v =
    { s with frame := Function.update s.frame f (putUint j v (s.frame f)) } := by
  have hdiv : (f * PGSIZE + 4 * j) / PGSIZE = f := by unfold PGSIZE; omega
  have hmod : (f * PGSIZE + 4 * j) % PGSIZE / 4 = j := by unfold PGSIZE; omega
  rw [Mem.setWord, Mem.setFrame, hdiv, hmod]

/-- The first word of a page. -/
theorem word_first : s.word (f * PGSIZE) = getUint (s.frame f) 0 := by
  rw [Mem.word, Nat.mul_div_cancel _ (by decide), Nat.mul_mod_left, Nat.zero_div]

theorem setWord_first : s.setWord (f * PGSIZE) v =
    { s with frame := Function.update s.frame f (putUint 0 v (s.frame f)) } := by
  rw [Mem.setWord, setFrame_eq, Nat.mul_div_cancel _ (by decide), Nat.mul_mod_left, Nat.zero_div]

/-- Nothing is written outside of the frames of a set. -/
structure Mem.Keeps (s : Mem) (X : Set ℕ) (s' : Mem) : Prop where
  kend : s'.kend = s.kend
  kdata : s'.kdata = s.kdata
  frame : ∀ f ∉ X, s'.frame f = s.frame f

theorem Mem.Keeps.refl (s : Mem) (X : Set ℕ) : s.Keeps X s := ⟨rfl, rfl, fun _ _ => rfl⟩

theorem Mem.Keeps.trans (h : s.Keeps X s') (h' : s'.Keeps Y t) (hXY : X ⊆ Y) : s.Keeps Y t :=
  ⟨h'.kend.trans h.kend, h'.kdata.trans h.kdata, fun f hf =>
    (h'.frame f hf).trans (h.frame f fun hX => hf (hXY hX))⟩

theorem Mem.Keeps.mono (h : s.Keeps X s') (hXY : X ⊆ Y) : s.Keeps Y s' :=
  ⟨h.kend, h.kdata, fun f hf => h.frame f fun hX => hf (hXY hX)⟩

theorem Mem.Keeps.usable (h : s.Keeps X s') : s'.Usable f ↔ s.Usable f :=
  ⟨fun husable => husable.congr h.kend.symm, fun husable => husable.congr h.kend⟩

/-! ## Free frames -/

/-- The kernel's address of a frame. -/
def link (f : ℕ) : ℕ := P2V (f * PGSIZE)

theorem V2P_link (hf : f < 0xE000) : V2P (link f) = f * PGSIZE := by
  unfold link V2P P2V KERNBASE PGSIZE
  omega

theorem link_lt (f : ℕ) : link f < 2 ^ 32 := by
  unfold link P2V
  omega

theorem link_ne_zero (hf : f < 0xE000) : link f ≠ 0 := by
  unfold link P2V KERNBASE PGSIZE
  omega

/-- The list of the free frames runs through their first words. -/
structure FreeList (fl : List ℕ) (s : Mem) : Prop where
  chain : Seg (fun a => s.word (V2P a)) s.freelist (fl.map link) 0
  nodup : fl.Nodup
  usable : ∀ f ∈ fl, s.Usable f

theorem FreeList.congr (h : FreeList fl s) (hlist : s'.freelist = s.freelist)
    (hkend : s'.kend = s.kend) (hframe : ∀ f ∈ fl, s'.frame f = s.frame f) : FreeList fl s' := by
  refine ⟨?_, h.nodup, fun f hf => ?_⟩
  · rw [hlist]
    refine h.chain.congr fun a ha => ?_
    obtain ⟨f, hf, rfl⟩ := List.mem_map.mp ha
    rw [V2P_link (h.usable f hf).lt, word_first, word_first, hframe f hf]
  · exact (h.usable f hf).congr hkend

/-! ## Address spaces -/

/-- An address space. -/
structure Layout where
  /-- the frame of the page directory -/
  dir : ℕ
  /-- the frames of the page tables -/
  table : ℕ → Option ℕ
  /-- the entry of each page -/
  entry : ℕ → ℕ
  /-- the contents of each page of the program -/
  data : ℕ → Data

/-- What a frame is used for. -/
inductive Place
  | dir
  | table (i : ℕ)
  | page (p : ℕ)

/-- The frame of a page of the program. -/
def Layout.page (L : Layout) (p : ℕ) : Option ℕ :=
  if p < 2 ^ 19 ∧ L.entry p &&& PTE_P ≠ 0 then some (L.entry p / PGSIZE) else none

/-- The frames of an address space. -/
def Layout.ref (L : Layout) : Place → Option ℕ
  | .dir => some L.dir
  | .table i => L.table i
  | .page p => L.page p

/-- The entry for a page table in the page directory. -/
def pdeWord : Option ℕ → ℕ
  | none => 0
  | some t => t * PGSIZE ||| PTE_P ||| PTE_W ||| PTE_U

variable {L L' : Layout} {P Q : Place}

/-- The address space is in memory. -/
structure Layout.In (L : Layout) (s : Mem) : Prop where
  dir : ∀ i < 1024, getUint (s.frame L.dir) i = pdeWord (L.table i)
  range : ∀ i, 1024 ≤ i → L.table i = none
  table : ∀ i t, L.table i = some t → ∀ j < 1024, getUint (s.frame t) j = L.entry (1024 * i + j)
  missing : ∀ p, L.table (p / 1024) = none → L.entry p = 0
  data : ∀ p f, L.page p = some f → s.frame f = L.data p
  inj : ∀ P Q f, L.ref P = some f → L.ref Q = some f → P = Q
  usable : ∀ P f, L.ref P = some f → s.Usable f

theorem Layout.In.congr (h : L.In s) (hkend : s'.kend = s.kend)
    (hframe : ∀ P f, L.ref P = some f → s'.frame f = s.frame f) : L.In s' := by
  refine ⟨fun i hi => ?_, h.range, fun i t ht j hj => ?_, h.missing, fun p f hf => ?_, h.inj,
    fun P f hf => ?_⟩
  · rw [hframe .dir L.dir rfl]
    exact h.dir i hi
  · rw [hframe (.table i) t ht]
    exact h.table i t ht j hj
  · rw [hframe (.page p) f hf]
    exact h.data p f hf
  · exact (h.usable P f hf).congr hkend

/-- In memory `s` the address space and the free frames have the footprint `X`. -/
structure Local (X : Set ℕ) (L : Layout) (fl : List ℕ) (s : Mem) : Prop where
  layout : L.In s
  free : FreeList fl s
  disjoint : ∀ P f, L.ref P = some f → f ∉ fl
  mem : ∀ f, f ∈ X ↔ f ∈ fl ∨ ∃ P, L.ref P = some f

theorem Local.ref_mem (h : Local X L fl s) (hf : L.ref P = some f) : f ∈ X :=
  (h.mem f).mpr (.inr ⟨P, hf⟩)

theorem Local.usable (h : Local X L fl s) (hf : f ∈ X) : s.Usable f := by
  rcases (h.mem f).mp hf with hfree | ⟨P, hP⟩
  · exact h.free.usable f hfree
  · exact h.layout.usable P f hP

/-- Frames outside of the footprint may change. -/
theorem Local.keeps (h : Local X L fl s) (hlist : s'.freelist = s.freelist)
    (hkeeps : s.Keeps Y s') (hY : ∀ f ∈ X, f ∉ Y) : Local X L fl s' :=
  ⟨h.layout.congr hkeeps.kend fun _ f hf => hkeeps.frame f (hY f (h.ref_mem hf)),
    h.free.congr hlist hkeeps.kend fun f hf =>
      hkeeps.frame f (hY f ((h.mem f).mpr (.inl hf))), h.disjoint, h.mem⟩

/-! ## The allocator -/

/-- A frame is taken from the free frames, if there is one. -/
theorem wp_kalloc_free (h : FreeList fl s) : Wp E kalloc (fun r s' => s.Keeps ∅ s' ∧
    (r = none ∧ fl = [] ∧ s' = s ∨
      ∃ f fl', fl = f :: fl' ∧ r = some (f * PGSIZE) ∧ FreeList fl' s')) s := by
  unfold kalloc
  rw [wp_bind, wp_get, wp_ite]
  have hchain := h.chain
  cases fl with
  | nil =>
    rw [List.map_nil, seg_nil] at hchain
    exact ⟨fun _ => ⟨.refl s ∅, .inl ⟨rfl, rfl, rfl⟩⟩, fun hne => absurd hchain hne⟩
  | cons f fl =>
    rw [List.map_cons, seg_cons] at hchain
    have hlt := (h.usable f List.mem_cons_self).lt
    rw [hchain.1]
    refine ⟨fun hz => absurd hz (link_ne_zero hlt), fun _ => ?_⟩
    rw [wp_bind, wp_set, wp_pure, V2P_link hlt]
    refine ⟨⟨rfl, rfl, fun _ _ => rfl⟩, .inr ⟨f, fl, rfl, rfl, ?_, h.nodup.tail, fun g hg => ?_⟩⟩
    · have hnext := hchain.2
      rw [V2P_link hlt] at hnext
      exact hnext
    · exact (h.usable g (List.mem_cons_of_mem f hg)).congr rfl

/-- The frame leaves the footprint.

**Proof sketch.** The first frame of the list is taken off (`wp_kalloc_free`), and nothing is
written. It was free, so that it is not in the layout, and the footprint without it is still the
layout and the free list. -/
theorem wp_kalloc (h : Local X L fl s) : Wp E kalloc (fun r s' => s.Keeps ∅ s' ∧
    (r = none ∧ fl = [] ∧ s' = s ∨
      ∃ f fl', fl = f :: fl' ∧ r = some (f * PGSIZE) ∧ f ∈ X ∧ Local (X \ {f}) L fl' s')) s := by
  refine (wp_kalloc_free h.free).mono ?_
  rintro r s' ⟨hkeeps, hnone | ⟨f, fl', rfl, rfl, hfree⟩⟩
  · exact ⟨hkeeps, .inl hnone⟩
  have hnodup := List.nodup_cons.mp h.free.nodup
  refine ⟨hkeeps, .inr ⟨f, fl', rfl, rfl, (h.mem f).mpr (.inl List.mem_cons_self), ?_, hfree,
    fun P g hg hmem => h.disjoint P g hg (List.mem_cons_of_mem f hmem), fun g => ?_⟩⟩
  · exact h.layout.congr hkeeps.kend fun _ g _ => hkeeps.frame g (Set.notMem_empty g)
  · rw [Set.mem_sdiff, Set.mem_singleton_iff, h.mem, List.mem_cons]
    constructor
    · rintro ⟨(rfl | hg) | hg, hne⟩
      · exact absurd rfl hne
      · exact .inl hg
      · exact .inr hg
    · rintro (hg | ⟨P, hP⟩)
      · exact ⟨.inl (.inr hg), fun heq => hnodup.1 (heq ▸ hg)⟩
      · refine ⟨.inr ⟨P, hP⟩, ?_⟩
        rintro rfl
        exact h.disjoint P g hP List.mem_cons_self

/-- A frame is added to the free frames.

**Proof sketch.** The frame is usable, so that the tests at the start of `kfree` pass. It is filled,
and its first word is the head of the list, which is 0 or the address of another frame; so the chain
of links from it on is the one from before with it in front. -/
theorem wp_kfree_free (h : FreeList fl s) (hf : s.Usable f) (hnew : f ∉ fl) :
    Wp E (kfree (f * PGSIZE)) (fun _ s' => s.Keeps {f} s' ∧ FreeList (f :: fl) s') s := by
  have hlt := hf.lt
  have hlist : s.freelist < 2 ^ 32 := by
    have hchain := h.chain
    cases fl with
    | nil =>
      rw [List.map_nil, seg_nil] at hchain
      omega
    | cons g fl =>
      rw [List.map_cons, seg_cons] at hchain
      rw [hchain.1]
      exact link_lt g
  unfold kfree
  rw [wp_bind, wp_get, wp_ite]
  refine ⟨fun hbad => ?_, fun _ => ?_⟩
  · have htop := hf.top
    have hkend := hf.kend
    have hmod : f * PGSIZE % PGSIZE = 0 := Nat.mul_mod_left ..
    omega
  rw [wp_bind, wp_modify, wp_bind, wp_get, wp_bind, wp_modify, wp_modify,
    setWord_first, Mem.fill, setFrame_eq]
  dsimp only
  rw [Function.update_idem, Function.update_self]
  have hframe : ∀ g, g ≠ f → Function.update s.frame f
      (putUint 0 s.freelist fun _ => 1) g = s.frame g := fun g hg => Function.update_of_ne hg ..
  refine ⟨⟨rfl, rfl, fun g hg => hframe g hg⟩, ?_, List.nodup_cons.mpr ⟨hnew, h.nodup⟩, ?_⟩
  · rw [List.map_cons, seg_cons]
    refine ⟨rfl, ?_⟩
    have hword : Mem.word (V2P (link f)) { s with
        frame := Function.update s.frame f (putUint 0 s.freelist fun _ => 1)
        freelist := P2V (f * PGSIZE) } = s.freelist := by
      rw [V2P_link hlt, word_first]
      dsimp only
      rw [Function.update_self, getUint_putUint hlist, if_pos rfl]
    rw [hword]
    refine h.chain.congr fun a ha => ?_
    obtain ⟨g, hg, rfl⟩ := List.mem_map.mp ha
    have hgf : g ≠ f := fun heq => hnew (heq ▸ hg)
    rw [V2P_link (h.usable g hg).lt, word_first, word_first]
    dsimp only
    rw [hframe g hgf]
  · intro g hg
    rcases List.mem_cons.mp hg with rfl | hg
    · exact hf.congr rfl
    · exact (h.usable g hg).congr rfl

/-- The frame comes back into the footprint. -/
theorem wp_kfree (h : Local X L fl s) (hf : s.Usable f) (hnew : f ∉ X) :
    Wp E (kfree (f * PGSIZE)) (fun _ s' => s.Keeps {f} s' ∧
      Local (Insert.insert f X) L (f :: fl) s') s := by
  refine (wp_kfree_free h.free hf fun hmem => hnew ((h.mem f).mpr (.inl hmem))).mono ?_
  rintro _ s' ⟨hkeeps, hfree⟩
  have hne : ∀ P g, L.ref P = some g → g ≠ f := fun P g hg heq => hnew (heq ▸ h.ref_mem hg)
  refine ⟨hkeeps, h.layout.congr hkeeps.kend fun P g hg => hkeeps.frame g (hne P g hg), hfree,
    fun P g hg hmem => ?_, fun g => ?_⟩
  · rcases List.mem_cons.mp hmem with heq | hmem
    · exact hne P g hg heq
    · exact h.disjoint P g hg hmem
  · rw [Set.mem_insert_iff, h.mem, List.mem_cons, or_assoc]

/-! ## Entries -/

/-- An entry that refers to a frame. -/
theorem entry_eq {perm : ℕ} (hperm : perm < 2 ^ 12) : f * PGSIZE ||| perm ||| PTE_P =
    f * PGSIZE + (perm ||| PTE_P) := by
  have hlt : perm ||| PTE_P < 2 ^ 12 := Nat.or_lt_two_pow hperm (by decide)
  have hf : f * PGSIZE = 2 ^ 12 * f := Nat.mul_comm ..
  rw [Nat.or_assoc, hf, Nat.two_pow_add_eq_or_of_lt hlt]

theorem flags_lt {perm : ℕ} (hperm : perm < 2 ^ 12) : perm ||| PTE_P < 2 ^ 12 :=
  Nat.or_lt_two_pow hperm (by decide)

theorem entry_lt {perm : ℕ} (hf : f < 2 ^ 20) (hperm : perm < 2 ^ 12) :
    f * PGSIZE ||| perm ||| PTE_P < 2 ^ 32 := by
  have hlt := flags_lt hperm
  rw [entry_eq hperm]
  unfold PGSIZE
  omega

theorem entry_div {perm : ℕ} (hperm : perm < 2 ^ 12) :
    (f * PGSIZE ||| perm ||| PTE_P) / PGSIZE = f := by
  have hlt := flags_lt hperm
  rw [entry_eq hperm]
  unfold PGSIZE
  omega

theorem PTE_FLAGS_entry {perm : ℕ} (hperm : perm < 2 ^ 12) :
    PTE_FLAGS (f * PGSIZE ||| perm ||| PTE_P) = perm ||| PTE_P := by
  have hlt := flags_lt hperm
  rw [entry_eq hperm]
  unfold PTE_FLAGS PGSIZE
  omega

theorem PTE_ADDR_div (e : ℕ) : PTE_ADDR e = e / PGSIZE * PGSIZE := rfl

theorem pdeWord_some (t : ℕ) : pdeWord (some t) = t * PGSIZE ||| (PTE_W ||| PTE_U) ||| PTE_P := by
  rw [pdeWord, Nat.or_assoc, Nat.or_assoc, Nat.or_assoc]
  rfl

theorem pdeWord_lt (hf : f < 2 ^ 20) : pdeWord (some f) < 2 ^ 32 := by
  rw [pdeWord_some]
  exact entry_lt hf (by decide)

theorem PTE_ADDR_pdeWord (f : ℕ) : PTE_ADDR (pdeWord (some f)) = f * PGSIZE := by
  rw [pdeWord_some, PTE_ADDR_div, entry_div (by decide)]

theorem pdeWord_present (f : ℕ) : pdeWord (some f) &&& PTE_P ≠ 0 := by
  rw [pdeWord_some]
  exact Vm.present _ _

/-- The entry of a page, and its contents if it is one of the program, are changed. -/
def Layout.setEntry (p v : ℕ) (b : Data) (L : Layout) : Layout :=
  { L with entry := Function.update L.entry p v, data := Function.update L.data p b }

theorem page_setEntry_ne {q : ℕ} (hq : q ≠ p) : (L.setEntry p v b).page q = L.page q := by
  unfold Layout.page Layout.setEntry
  simp only [Function.update_of_ne hq]

theorem page_setEntry_self : (L.setEntry p v b).page p =
    if p < 2 ^ 19 ∧ v &&& PTE_P ≠ 0 then some (v / PGSIZE) else none := by
  unfold Layout.page Layout.setEntry
  simp only [Function.update_self]

theorem ref_setEntry (hP : P ≠ .page p) : (L.setEntry p v b).ref P = L.ref P := by
  cases P with
  | dir => rfl
  | table i => rfl
  | page q => exact page_setEntry_ne fun heq => hP (heq ▸ rfl)

theorem Layout.In.table_lt (h : L.In s) {i t : ℕ} (ht : L.table i = some t) : i < 1024 := by
  by_contra hi
  rw [h.range i (by omega)] at ht
  cases ht

/-- An entry is stored, in a table that is there.

**Proof sketch.** The word of the entry has changed in its table, and no other word of any table or
of the directory. If the entry is present its page is the frame it names, which the layout does not
use elsewhere; the pages of all other entries are the frames that they were, with the same bytes. -/
theorem Layout.In.setEntry (h : L.In s) {t : ℕ} (ht : L.table (p / 1024) = some t)
    (hv : v < 2 ^ 32)
    (hnew : ∀ f, (L.setEntry p v b).page p = some f →
      (∀ P, P ≠ .page p → L.ref P ≠ some f) ∧ s.Usable f ∧ s'.frame f = b)
    (hkend : s'.kend = s.kend) (htable : s'.frame t = putUint (p % 1024) v (s.frame t))
    (hframe : ∀ P g, P ≠ .page p → L.ref P = some g → g ≠ t → s'.frame g = s.frame g) :
    (L.setEntry p v b).In s' := by
  have hdir : L.dir ≠ t := by
    rintro heq
    cases h.inj .dir (.table (p / 1024)) t (congrArg some heq) ht
  refine ⟨fun i hi => ?_, h.range, fun i u hu j hj => ?_, fun q hq => ?_, fun q f hf => ?_,
    fun P Q f hP hQ => ?_, fun P f hP => ?_⟩
  · rw [show (L.setEntry p v b).dir = L.dir from rfl, hframe .dir L.dir (by simp) rfl hdir]
    exact h.dir i hi
  · replace hu : L.table i = some u := hu
    change getUint (s'.frame u) j = Function.update L.entry p v (1024 * i + j)
    by_cases hut : u = t
    · subst hut
      obtain rfl : i = p / 1024 := by
        have hinj := h.inj (.table i) (.table (p / 1024)) u hu ht
        exact Place.table.inj hinj
      rw [htable, getUint_putUint hv, h.table _ u hu j hj]
      by_cases hjp : j = p % 1024
      · rw [if_pos hjp, show 1024 * (p / 1024) + j = p by omega, Function.update_self]
      · rw [if_neg hjp, Function.update_of_ne (by omega)]
    · have hi : 1024 * i + j ≠ p := by
        rintro rfl
        rw [show (1024 * i + j) / 1024 = i by omega, hu] at ht
        exact hut (Option.some.inj ht)
      rw [Function.update_of_ne hi, hframe (.table i) u (by simp) hu hut]
      exact h.table i u hu j hj
  · change L.table (q / 1024) = none at hq
    change Function.update L.entry p v q = 0
    have hqp : q ≠ p := by
      rintro rfl
      rw [hq] at ht
      cases ht
    rw [Function.update_of_ne hqp]
    exact h.missing q hq
  · change s'.frame f = Function.update L.data p b q
    by_cases hqp : q = p
    · subst hqp
      rw [Function.update_self]
      exact (hnew f hf).2.2
    · rw [page_setEntry_ne hqp] at hf
      have hft : f ≠ t := by
        rintro rfl
        cases h.inj (.page q) (.table (p / 1024)) f hf ht
      rw [Function.update_of_ne hqp, hframe (.page q) f (by simpa using hqp) hf hft]
      exact h.data q f hf
  · by_cases hPp : P = .page p
    · by_cases hQp : Q = .page p
      · rw [hPp, hQp]
      · subst hPp
        rw [ref_setEntry hQp] at hQ
        exact absurd hQ ((hnew f hP).1 Q hQp)
    · rw [ref_setEntry hPp] at hP
      by_cases hQp : Q = .page p
      · subst hQp
        exact absurd hP ((hnew f hQ).1 P hPp)
      · rw [ref_setEntry hQp] at hQ
        exact h.inj P Q f hP hQ
  · by_cases hPp : P = .page p
    · subst hPp
      exact (hnew f hP).2.1.congr hkend
    · rw [ref_setEntry hPp] at hP
      exact (h.usable P f hP).congr hkend

/-! ## Mapping a page -/

/-- The entry of a page is found, if its table is there.

**Proof sketch.** The word of the directory is present exactly if the layout has the table
(`Layout.In.dir`), and then it names its frame; the entry is at its place in it. -/
theorem wp_walkpgdir_find (h : L.In s) (hp : p < 2 ^ 20) :
    Wp E (walkpgdir (L.dir * PGSIZE) (p * PGSIZE) false) (fun r s' => s' = s ∧
      r = (L.table (p / 1024)).map fun t => t * PGSIZE + 4 * (p % 1024)) s := by
  obtain ⟨hd, ht⟩ := Prod.mk.inj (Vm.place_eq hp)
  unfold walkpgdir
  rw [hd, ht, wp_bind, wp_get]
  dsimp only
  rw [word_eq (by omega), h.dir _ (by omega), wp_ite]
  cases htable : L.table (p / 1024) with
  | none =>
    refine ⟨fun hne => absurd rfl hne, fun _ => ?_⟩
    rw [if_pos rfl]
    exact ⟨rfl, rfl⟩
  | some t =>
    rw [PTE_ADDR_pdeWord]
    exact ⟨fun _ => ⟨rfl, rfl⟩, fun hne => absurd (pdeWord_present t) hne⟩

/-- The entry of a page in its table. -/
theorem Layout.In.word (h : L.In s) {t : ℕ} (ht : L.table (p / 1024) = some t) :
    s.word (t * PGSIZE + 4 * (p % 1024)) = L.entry p := by
  rw [word_eq (by omega), h.table _ t ht _ (by omega)]
  congr 1
  omega

/-- A frame becomes a page table. -/
def Layout.setTable (i t : ℕ) (L : Layout) : Layout :=
  { L with table := Function.update L.table i (some t) }

theorem setTable_self {t : ℕ} (h : L.table i = some t) : L.setTable i t = L := by
  unfold Layout.setTable
  rw [← h, Function.update_eq_self]

/-- A new page table.

**Proof sketch.** The frame is zeroed, so that as a table it has no entry in use, which is what the
layout has for a table that was not there. The directory names it now, and no other frame of the
layout has changed, since the frame was outside the footprint. -/
theorem Local.newTable (h : Local X L fl s) {i : ℕ} (hi : i < 1024) (hnone : L.table i = none)
    (husable : s.Usable f) (hf : f ∉ X) :
    Local (Insert.insert f X) (L.setTable i f) fl
      ((s.fill (f * PGSIZE) 0).setWord (L.dir * PGSIZE + 4 * i) (pdeWord (some f))) := by
  have hlt := husable.lt
  have hdir : L.dir ≠ f := fun heq => hf (h.ref_mem (P := .dir) (congrArg some heq))
  have hframe : ((s.fill (f * PGSIZE) 0).setWord (L.dir * PGSIZE + 4 * i)
      (pdeWord (some f))).frame = Function.update (Function.update s.frame f fun _ => 0) L.dir
        (putUint i (pdeWord (some f)) (s.frame L.dir)) := by
    rw [setWord_eq hi, Mem.fill, setFrame_eq]
    dsimp only
    rw [Function.update_of_ne hdir]
  have hold : ∀ P g, L.ref P = some g → g ≠ f := fun P g hg heq => hf (heq ▸ h.ref_mem hg)
  have hothers : ∀ P g, P ≠ .dir → L.ref P = some g → Function.update (Function.update s.frame f
      fun _ => 0) L.dir (putUint i (pdeWord (some f)) (s.frame L.dir)) g = s.frame g := by
    intro P g hP hg
    have hgd : g ≠ L.dir := fun heq => hP (h.layout.inj P .dir g hg (congrArg some heq.symm))
    rw [Function.update_of_ne hgd, Function.update_of_ne (hold P g hg)]
  -- the places of the new address space are those of the old one, and one more
  have href : ∀ P g, (L.setTable i f).ref P = some g ↔
      P = .table i ∧ g = f ∨ L.ref P = some g := by
    intro P g
    cases P with
    | dir => simp [Layout.ref, Layout.setTable]
    | page q => simp [Layout.ref, Layout.page, Layout.setTable]
    | table k =>
      change Function.update L.table i (some f) k = some g ↔ _
      by_cases hk : k = i
      · subst hk
        rw [Function.update_self]
        change some f = some g ↔ _ ∨ L.table k = some g
        rw [hnone]
        simp [eq_comm]
      · rw [Function.update_of_ne hk]
        simp [hk, Layout.ref]
  refine ⟨⟨fun k hk => ?_, fun k hk => ?_, fun k t ht j hj => ?_, fun q hq => ?_, fun q g hg => ?_,
    fun P Q g hP hQ => ?_, fun P g hP => ?_⟩, ?_, fun P g hP hmem => ?_, fun g => ?_⟩
  · rw [hframe]
    unfold Layout.setTable
    dsimp only
    rw [Function.update_self, getUint_putUint (pdeWord_lt (by omega)), h.layout.dir k hk]
    by_cases hki : k = i
    · rw [hki, if_pos rfl, Function.update_self]
    · rw [if_neg hki, Function.update_of_ne hki]
  · exact (Function.update_of_ne (by omega) ..).trans (h.layout.range k hk)
  · rw [hframe]
    change Function.update L.table i (some f) k = some t at ht
    by_cases hki : k = i
    · rw [hki, Function.update_self, Option.some.injEq] at ht
      subst ht
      rw [Function.update_of_ne hdir.symm, Function.update_self, getUint_zero]
      refine (h.layout.missing _ ?_).symm
      rw [show (1024 * k + j) / 1024 = k by omega, hki, hnone]
    · rw [Function.update_of_ne hki] at ht
      rw [hothers (.table k) t (by simp) ht]
      exact h.layout.table k t ht j hj
  · change Function.update L.table i (some f) (q / 1024) = none at hq
    by_cases hqi : q / 1024 = i
    · rw [hqi, Function.update_self] at hq
      cases hq
    · rw [Function.update_of_ne hqi] at hq
      exact h.layout.missing q hq
  · rw [hframe, hothers (.page q) g (by simp) hg]
    exact h.layout.data q g hg
  · rcases (href P g).mp hP with ⟨rfl, hgf⟩ | hP'
    · rcases (href Q g).mp hQ with ⟨rfl, -⟩ | hQ'
      · rfl
      · exact absurd hgf (hold Q g hQ')
    · rcases (href Q g).mp hQ with ⟨-, hgf⟩ | hQ'
      · exact absurd hgf (hold P g hP')
      · exact h.layout.inj P Q g hP' hQ'
  · rcases (href P g).mp hP with ⟨-, rfl⟩ | hP
    · exact husable.congr rfl
    · exact (h.layout.usable P g hP).congr rfl
  · refine h.free.congr rfl rfl fun g hg => ?_
    rw [hframe, Function.update_of_ne, Function.update_of_ne]
    · exact fun heq => hf (heq ▸ (h.mem g).mpr (.inl hg))
    · exact fun heq => h.disjoint .dir L.dir rfl (heq ▸ hg)
  · rcases (href P g).mp hP with ⟨-, rfl⟩ | hP
    · exact hf ((h.mem g).mpr (.inl hmem))
    · exact h.disjoint P g hP hmem
  · rw [Set.mem_insert_iff, h.mem]
    simp only [href]
    constructor
    · rintro (rfl | hg | ⟨P, hP⟩)
      · exact .inr ⟨.table i, .inl ⟨rfl, rfl⟩⟩
      · exact .inl hg
      · exact .inr ⟨P, .inr hP⟩
    · rintro (hg | ⟨P, ⟨-, rfl⟩ | hP⟩)
      · exact .inr (.inl hg)
      · exact .inl rfl
      · exact .inr (.inr ⟨P, hP⟩)

/-- The entry of a page is found, in a new table if there is none yet and there is a free frame.

**Proof sketch.** If the table is there the entry is found as in `wp_walkpgdir_find`. Otherwise a
frame is taken from the list (`wp_kalloc`), if there is one, and becomes the table
(`Local.newTable`), so that the footprint is what it was. -/
theorem wp_walkpgdir_alloc (h : Local X L fl s) (hp : p < 2 ^ 20) :
    Wp E (walkpgdir (L.dir * PGSIZE) (p * PGSIZE) true) (fun r s' => s.Keeps X s' ∧
      (r = none ∧ fl = [] ∧ s' = s ∨ ∃ t fl', r = some (t * PGSIZE + 4 * (p % 1024)) ∧
        (∀ t', L.table (p / 1024) = some t' → t' = t) ∧
        Local X (L.setTable (p / 1024) t) fl' s')) s := by
  obtain ⟨hd, ht⟩ := Prod.mk.inj (Vm.place_eq hp)
  have hi : p / 1024 < 1024 := by omega
  unfold walkpgdir
  rw [hd, ht, wp_bind, wp_get]
  dsimp only
  rw [word_eq hi, h.layout.dir _ hi, wp_ite]
  cases htable : L.table (p / 1024) with
  | some t =>
    rw [PTE_ADDR_pdeWord]
    refine ⟨fun _ => ⟨.refl s X, .inr ⟨t, fl, rfl, fun t' ht' => (Option.some.inj ht').symm, ?_⟩⟩,
      fun hne => absurd (pdeWord_present t) hne⟩
    rw [setTable_self htable]
    exact h
  | none =>
    refine ⟨fun hne => absurd rfl hne, fun _ => ?_⟩
    rw [if_neg (by decide)]
    refine Wp.bind (wp_kalloc h) ?_
    rintro r s' ⟨hkeeps, ⟨rfl, rfl, rfl⟩ | ⟨f, fl', rfl, rfl, hf, hlocal⟩⟩
    · exact ⟨.refl s' X, .inl ⟨rfl, rfl, rfl⟩⟩
    dsimp only
    rw [wp_bind, wp_modify, wp_bind, wp_modify, wp_pure]
    have hnew := hlocal.newTable hi htable (hkeeps.usable.mpr (h.usable hf)) (by simp)
    rw [Set.insert_sdiff_singleton, Set.insert_eq_of_mem hf] at hnew
    refine ⟨⟨hkeeps.kend, hkeeps.kdata, fun g hg => ?_⟩, .inr ⟨f, fl', rfl, by simp, hnew⟩⟩
    rw [setWord_eq hi, Mem.fill, setFrame_eq]
    dsimp only
    rw [Function.update_of_ne, Function.update_of_ne]
    · exact hkeeps.frame g (Set.notMem_empty g)
    · exact fun heq => hg (heq ▸ hf)
    · exact fun heq => hg (heq ▸ h.ref_mem (P := .dir) rfl)

/-- A frame becomes a page of the program.

**Proof sketch.** The frame was outside the footprint, so that no place of the layout has it; the
entry names it now, with its bytes as they are. The entry was not in use, so that no page is lost.
-/
theorem Local.map {t perm : ℕ} (h : Local X L fl s) (ht : L.table (p / 1024) = some t)
    (hp : p < 2 ^ 19) (hnone : L.entry p &&& PTE_P = 0) (husable : s.Usable f) (hf : f ∉ X)
    (hperm : perm < 2 ^ 12) :
    Local (Insert.insert f X) (L.setEntry p (f * PGSIZE ||| perm ||| PTE_P) (s.frame f)) fl
      (s.setWord (t * PGSIZE + 4 * (p % 1024)) (f * PGSIZE ||| perm ||| PTE_P)) := by
  have hlt := husable.lt
  have hold : ∀ P g, L.ref P = some g → g ≠ f := fun P g hg heq => hf (heq ▸ h.ref_mem hg)
  have htf : f ≠ t := fun heq => hold (.table (p / 1024)) t ht heq.symm
  have hpage : (L.setEntry p (f * PGSIZE ||| perm ||| PTE_P) (s.frame f)).page p = some f := by
    rw [page_setEntry_self, if_pos ⟨hp, Vm.present _ _⟩, entry_div hperm]
  have hnot : L.page p = none := if_neg fun hpresent => hpresent.2 hnone
  have hframe : ∀ g, g ≠ t → (s.setWord (t * PGSIZE + 4 * (p % 1024))
      (f * PGSIZE ||| perm ||| PTE_P)).frame g = s.frame g := by
    intro g hg
    rw [setWord_eq (by omega)]
    exact Function.update_of_ne hg ..
  refine ⟨h.layout.setEntry ht (entry_lt (by omega) hperm) (fun g hg => ?_) rfl ?_
    (fun P g _ _ hg => hframe g hg), h.free.congr rfl rfl fun g hg => hframe g ?_,
    fun P g hP hmem => ?_, fun g => ?_⟩
  · obtain rfl : f = g := Option.some.inj (hpage.symm.trans hg)
    exact ⟨fun P _ hP => hold P f hP rfl, husable, hframe f htf⟩
  · rw [setWord_eq (by omega)]
    exact Function.update_self ..
  · rintro rfl
    exact h.disjoint (.table (p / 1024)) g ht hg
  · by_cases hPp : P = .page p
    · subst hPp
      obtain rfl : f = g := Option.some.inj (hpage.symm.trans hP)
      exact hf ((h.mem f).mpr (.inl hmem))
    · rw [ref_setEntry hPp] at hP
      exact h.disjoint P g hP hmem
  · rw [Set.mem_insert_iff, h.mem]
    constructor
    · rintro (rfl | hg | ⟨P, hP⟩)
      · exact .inr ⟨.page p, hpage⟩
      · exact .inl hg
      · refine .inr ⟨P, ?_⟩
        rwa [ref_setEntry]
        rintro rfl
        rw [Layout.ref, hnot] at hP
        cases hP
    · rintro (hg | ⟨P, hP⟩)
      · exact .inr (.inl hg)
      · by_cases hPp : P = .page p
        · subst hPp
          exact .inl (Option.some.inj (hpage.symm.trans hP)).symm
        · rw [ref_setEntry hPp] at hP
          exact .inr (.inr ⟨P, hP⟩)

/-- The entry of a page of the kernel. -/
theorem Local.mapKernel {t : ℕ} (h : Local X L fl s) (ht : L.table (p / 1024) = some t)
    (hp : 2 ^ 19 ≤ p) (hv : v < 2 ^ 32) (b : Data) :
    Local X (L.setEntry p v b) fl (s.setWord (t * PGSIZE + 4 * (p % 1024)) v) := by
  have hpage : (L.setEntry p v b).page p = none := by
    rw [page_setEntry_self, if_neg (by omega)]
  have hnot : L.page p = none := if_neg (by omega)
  have hframe : ∀ g, g ≠ t → (s.setWord (t * PGSIZE + 4 * (p % 1024)) v).frame g = s.frame g := by
    intro g hg
    rw [setWord_eq (by omega)]
    exact Function.update_of_ne hg ..
  have href : ∀ P, (L.setEntry p v b).ref P = L.ref P := by
    intro P
    by_cases hPp : P = .page p
    · rw [hPp, Layout.ref, Layout.ref, hpage, hnot]
    · exact ref_setEntry hPp
  refine ⟨h.layout.setEntry ht hv (fun g hg => ?_) rfl ?_ (fun P g _ _ hg => hframe g hg),
    h.free.congr rfl rfl fun g hg => hframe g ?_, fun P g hP => ?_, fun g => ?_⟩
  · rw [hpage] at hg
    cases hg
  · rw [setWord_eq (by omega)]
    exact Function.update_self ..
  · rintro rfl
    exact h.disjoint (.table (p / 1024)) g ht hg
  · rw [href] at hP
    exact h.disjoint P g hP
  · simp only [href]
    exact h.mem g

/-- A frame stops to be a page of the program: it has become a free frame, and the entry is cleared.

**Proof sketch.** The frame has gone from the page to the free list, and the footprint, which is
both, is the same. The table is another frame, so that clearing the entry does not touch the list.
-/
theorem Local.unmap {t : ℕ} (h : Local X L fl s) (ht : L.table (p / 1024) = some t)
    (hpage : L.page p = some f) (hkeeps : s.Keeps {f} s') (hfree : FreeList (f :: fl) s') :
    Local X (L.setEntry p 0 (L.data p)) (f :: fl) (s'.setWord (t * PGSIZE + 4 * (p % 1024)) 0) := by
  have hnone : (L.setEntry p 0 (L.data p)).page p = none := by
    rw [page_setEntry_self, if_neg (by simp)]
  have htf : t ≠ f := by
    rintro rfl
    cases h.layout.inj (.table (p / 1024)) (.page p) t ht hpage
  have hframe : ∀ g, g ≠ t → g ≠ f →
      (s'.setWord (t * PGSIZE + 4 * (p % 1024)) 0).frame g = s.frame g := by
    intro g hgt hgf
    rw [setWord_eq (by omega)]
    exact (Function.update_of_ne hgt ..).trans (hkeeps.frame g hgf)
  have hother : ∀ P g, P ≠ .page p → L.ref P = some g → g ≠ f := by
    rintro P g hP hg rfl
    exact hP (h.layout.inj P (.page p) g hg hpage)
  refine ⟨h.layout.setEntry ht (by omega) (fun g hg => ?_) hkeeps.kend ?_
    (fun P g hP hg hgt => hframe g hgt (hother P g hP hg)), ?_, fun P g hP hmem => ?_, fun g => ?_⟩
  · rw [hnone] at hg
    cases hg
  · rw [setWord_eq (by omega)]
    dsimp only
    rw [Function.update_self, hkeeps.frame t htf]
  · refine hfree.congr rfl rfl fun g hg => ?_
    rw [setWord_eq (by omega)]
    refine Function.update_of_ne ?_ ..
    rintro rfl
    rcases List.mem_cons.mp hg with hgf | hg
    · exact htf hgf
    · exact h.disjoint (.table (p / 1024)) g ht hg
  · have hPp : P ≠ .page p := by
      rintro rfl
      rw [Layout.ref, hnone] at hP
      cases hP
    rw [ref_setEntry hPp] at hP
    rcases List.mem_cons.mp hmem with hgf | hmem
    · exact hother P g hPp hP hgf
    · exact h.disjoint P g hP hmem
  · rw [h.mem, List.mem_cons]
    constructor
    · rintro (hg | ⟨P, hP⟩)
      · exact .inl (.inr hg)
      · by_cases hPp : P = .page p
        · subst hPp
          exact .inl (.inl (Option.some.inj (hpage.symm.trans hP)).symm)
        · exact .inr ⟨P, (ref_setEntry hPp).trans hP⟩
    · rintro ((rfl | hg) | ⟨P, hP⟩)
      · exact .inr ⟨.page p, hpage⟩
      · exact .inl hg
      · have hPp : P ≠ .page p := by
          rintro rfl
          rw [Layout.ref, hnone] at hP
          cases hP
        rw [ref_setEntry hPp] at hP
        exact .inr ⟨P, hP⟩

end HgXv6.Phys
