import HgXv6.Kernel.ExecMemory
import HgXv6.Kernel.VirtualMemory
import HgXv6.Lib.Ownership

set_option relaxedAutoImplicit false
set_option autoImplicit false

/-!
# Who has which memory

The invariant behind the memory of all processes: each address space shows an image, and no frame
has two holders. A system call of a process exchanges frames between that process and the free
ones, so that it leaves alone what all other processes see.

## Main definitions

* `HgXv6.Phys.Shown` — a process shows an image.
* `HgXv6.Phys.Sys.holding` — who has which frames.
* `HgXv6.Phys.Inv` — the invariant.

## Main results

* `HgXv6.Phys.Inv.change` — the rule for all changes.
* `HgXv6.Phys.Inv.enter` — a process comes to an empty place.
* `HgXv6.Phys.Inv.setProc`, `HgXv6.Phys.Inv.setPipes` — a process or the pipes have changed.
-/

namespace HgXv6.Phys

open Prog
open Sched (Slot)
open Vm (PGSIZE PHYSTOP)

variable {E : Stop → Prop} {s s' : Sys} {mem mem' : Mem} {f g : ℕ} {fl fl' : List ℕ} {i j : Slot}
  {σ σ' : Users} {p : Proc} {I : Image}

/-! ## The invariant -/

/-- The frames of an address space. -/
def Layout.frames (L : Layout) : Set ℕ := {f | ∃ P, L.ref P = some f}

/-- The process shows the image. -/
structure Shown (mem : Mem) (L : Layout) (p : Proc) (I : Image) : Prop where
  layout : L.In mem
  has : L.Has mem.kdata I
  pgdir : p.pgdir = L.dir * PGSIZE
  sz : p.sz = I.sz
  pos : 0 < I.sz
  kstack : ∃ f, p.kstack = f * PGSIZE ∧ mem.Usable f

/-- Who has which frames, where `L` says how the address spaces are laid out, of the kernel and of
the processes. -/
def Sys.holding (L : Option Slot → Layout) (fl : List ℕ) (s : Sys) : Holder → Set ℕ
  | .free => {f | f ∈ fl}
  | .kernel => (L none).frames
  | .space i => {f | s.proc i ≠ none ∧ f ∈ (L (some i)).frames}
  | .kstack i => {f | ∃ p, s.proc i = some p ∧ p.kstack = f * PGSIZE}
  | .cpustack => {f | f * PGSIZE ∈ s.cpustacks}
  | .pipe => {f | f * PGSIZE ∈ s.pipes}

/-- The invariant: the free frames are in the free list, each process shows its image, and no frame
has two holders. -/
structure Inv (L : Option Slot → Layout) (fl : List ℕ) (σ : Users) (s : Sys) : Prop where
  linked : s.mem.Linked
  free : FreeList fl s.mem
  kernel : (L none).In s.mem
  kpgdir : s.kpgdir = (L none).dir * PGSIZE
  proc : ∀ i, Option.Rel (Shown s.mem (L (some i))) (s.proc i) (σ i)
  pipes : ∀ page ∈ s.pipes, ∃ f, page = f * PGSIZE ∧ s.mem.Usable f
  nodup : s.pipes.Nodup
  shared : Shared (s.holding L fl)

variable {L L' : Option Slot → Layout}

/-- The image of a process. -/
theorem Inv.shown (h : Inv L fl σ s) (hp : s.proc i = some p) :
    ∃ I, σ i = some I ∧ Shown s.mem (L (some i)) p I := by
  have hrel := h.proc i
  rw [hp] at hrel
  generalize σ i = x at hrel ⊢
  cases hrel with
  | some hshown => exact ⟨_, rfl, hshown⟩

theorem Inv.empty (h : Inv L fl σ s) (hp : s.proc i = none) : σ i = none := by
  have hrel := h.proc i
  rw [hp] at hrel
  generalize σ i = x at hrel ⊢
  cases hrel
  rfl

theorem Shown.keeps {M : Layout} {X : Set ℕ} (h : Shown mem M p I) (hkeeps : mem.Keeps X mem')
    (hX : ∀ f ∈ M.frames, f ∉ X) : Shown mem' M p I := by
  refine ⟨h.layout.congr hkeeps.kend fun P f hf => hkeeps.frame f (hX f ⟨P, hf⟩), ?_, h.pgdir, h.sz,
    h.pos, ?_⟩
  · rw [hkeeps.kdata]
    exact h.has
  · obtain ⟨f, hf, husable⟩ := h.kstack
    exact ⟨f, hf, hkeeps.usable.mpr husable⟩

/-- **The rule for changes**: the holders in `H` exchange frames, or lose some.

**Proof sketch.** A frame has one holder, so a frame that a holder outside `H` has is not among
those that may have changed, and whatever the invariant says of such a holder it still says. The
holders in `H` are described anew by the assumptions, and no two holders share a frame: two in `H`
by assumption, two outside as before, and one of each since what `H` holds now it held before. -/
theorem Inv.change (h : Inv L fl σ s) {H : Set Holder}
    (hkeeps : s.mem.Keeps {f | ∃ k ∈ H, f ∈ s.holding L fl k} s'.mem)
    (hkernel : .kernel ∉ H ∧ L' none = L none ∧ s'.kpgdir = s.kpgdir)
    (hsame : ∀ k, k ∉ H → s'.holding L' fl' k = s.holding L fl k)
    (hproc : ∀ i, .space i ∉ H → s'.proc i = s.proc i ∧ L' (some i) = L (some i) ∧ σ' i = σ i)
    (hnew : ∀ i, .space i ∈ H → Option.Rel (Shown s'.mem (L' (some i))) (s'.proc i) (σ' i))
    (hfree : FreeList fl' s'.mem)
    (hpipes : ∀ page ∈ s'.pipes, page ∈ s.pipes ∨ ∃ f, page = f * PGSIZE ∧ s'.mem.Usable f)
    (hnodup : s'.pipes.Nodup)
    (hsub : ∀ k ∈ H, ∀ f ∈ s'.holding L' fl' k, ∃ k' ∈ H, f ∈ s.holding L fl k')
    (hdisjoint : ∀ k ∈ H, ∀ k' ∈ H, ∀ f, f ∈ s'.holding L' fl' k → f ∈ s'.holding L' fl' k' →
      k = k') : Inv L' fl' σ' s' := by
  have hout : ∀ k, k ∉ H → ∀ f ∈ s.holding L fl k, f ∉ {f | ∃ k ∈ H, f ∈ s.holding L fl k} := by
    rintro k hk f hf ⟨k', hk', hf'⟩
    exact hk (h.shared k k' f hf hf' ▸ hk')
  refine ⟨h.linked.keeps hkeeps, hfree, ?_, ?_, fun i => ?_, fun page hpage => ?_, hnodup,
    h.shared.change hsame hsub hdisjoint⟩
  · rw [hkernel.2.1]
    exact h.kernel.congr hkeeps.kend fun P f hf => hkeeps.frame f (hout _ hkernel.1 f ⟨P, hf⟩)
  · rw [hkernel.2.1, hkernel.2.2, h.kpgdir]
  · by_cases hi : Holder.space i ∈ H
    · exact hnew i hi
    · obtain ⟨hp, hL, hσ⟩ := hproc i hi
      rw [hp, hL, hσ]
      cases hpi : s.proc i with
      | none =>
        rw [h.empty hpi]
        exact .none
      | some p =>
        obtain ⟨I, hI, hshown⟩ := h.shown hpi
        rw [hI]
        refine .some (hshown.keeps hkeeps fun f hf => hout _ hi f ⟨?_, hf⟩)
        rw [hpi]
        exact Option.some_ne_none p
  · rcases hpipes page hpage with hold | hnew
    · obtain ⟨f, hf, husable⟩ := h.pipes page hold
      exact ⟨f, hf, hkeeps.usable.mpr husable⟩
    · exact hnew

/-! ## Processes -/

/-- Who takes part in what a process does. -/
def parties (i : Slot) : Set Holder := {.free, .space i, .kstack i}

/-- What a process may change: its own frames and the free ones. -/
def Sys.reach (L : Option Slot → Layout) (fl : List ℕ) (i : Slot) (s : Sys) : Set ℕ :=
  {f | ∃ k ∈ parties i, f ∈ s.holding L fl k}

/-- The others have what they had. -/
theorem Sys.holding_setProc {p' : Option Proc} {M : Layout} {k : Holder} (hk : k ∉ parties i) :
    Sys.holding (Function.update L (some i) M) fl'
      { s with mem := mem', proc := Function.update s.proc i p' } k = s.holding L fl k := by
  simp only [parties, Set.mem_insert_iff, Set.mem_singleton_iff, not_or] at hk
  obtain ⟨hk₁, hk₂, hk₃⟩ := hk
  cases k with
  | free => exact absurd rfl hk₁
  | kernel => rw [Sys.holding, Sys.holding, Function.update_of_ne (by simp)]
  | space j =>
    have hne : j ≠ i := fun heq => hk₂ (heq ▸ rfl)
    rw [Sys.holding, Sys.holding, Function.update_of_ne (by simpa using hne)]
    dsimp only
    rw [Function.update_of_ne hne]
  | kstack j =>
    have hne : j ≠ i := fun heq => hk₃ (heq ▸ rfl)
    rw [Sys.holding, Sys.holding]
    dsimp only
    rw [Function.update_of_ne hne]
  | cpustack => rfl
  | pipe => rfl

/-- The process in a slot has changed.

**Proof sketch.** The holders that exchange frames are the free list, the address space of the slot
and its kernel stack. What each of them has afterwards is among what the three had before, and the
assumptions say that no frame is with two of them; all other holders are as before, so that
`Inv.change` applies. -/
theorem Inv.setProc (h : Inv L fl σ s) {p' : Option Proc} {I' : Option Image} {M : Layout}
    (hkeeps : s.mem.Keeps (s.reach L fl i) mem') (hfree : FreeList fl' mem')
    (hfl : ∀ f ∈ fl', f ∈ s.reach L fl i) (hnew : Option.Rel (Shown mem' M) p' I')
    (hspace : p' ≠ none → ∀ f ∈ M.frames, f ∈ s.reach L fl i ∧ f ∉ fl')
    (hkstack : ∀ p f, p' = some p → p.kstack = f * PGSIZE →
      f ∈ s.reach L fl i ∧ f ∉ fl' ∧ f ∉ M.frames) :
    Inv (Function.update L (some i) M) fl' (Function.update σ i I')
      { s with mem := mem', proc := Function.update s.proc i p' } := by
  have hfree' : ∀ f, f ∈ Sys.holding (Function.update L (some i) M) fl'
    { s with mem := mem', proc := Function.update s.proc i p' } .free ↔ f ∈ fl' := fun f => Iff.rfl
  have hspace' : ∀ f, f ∈ Sys.holding (Function.update L (some i) M) fl'
      { s with mem := mem', proc := Function.update s.proc i p' } (.space i) ↔
      p' ≠ none ∧ f ∈ M.frames := by
    intro f
    rw [Sys.holding]
    dsimp only
    rw [Function.update_self, Function.update_self]
    exact Iff.rfl
  have hkstack' : ∀ f, f ∈ Sys.holding (Function.update L (some i) M) fl'
      { s with mem := mem', proc := Function.update s.proc i p' } (.kstack i) ↔
      ∃ p, p' = some p ∧ p.kstack = f * PGSIZE := by
    intro f
    rw [Sys.holding]
    dsimp only
    rw [Function.update_self]
    exact Iff.rfl
  refine h.change (H := parties i) hkeeps ⟨by simp [parties], ?_, rfl⟩
    (fun k hk => Sys.holding_setProc hk)
    (fun j hj => ?_) (fun j hj => ?_) hfree (fun page hpage => .inl hpage) h.nodup ?_ ?_
  · exact Function.update_of_ne (by simp) ..
  · have hne : j ≠ i := by
      rintro rfl
      exact hj (by simp [parties])
    exact ⟨Function.update_of_ne hne .., Function.update_of_ne (by simpa using hne) ..,
      Function.update_of_ne hne ..⟩
  · obtain rfl : j = i := by simpa [parties] using hj
    dsimp only
    rw [Function.update_self, Function.update_self, Function.update_self]
    exact hnew
  · rintro k (rfl | rfl | rfl) f hf
    · exact hfl f ((hfree' f).mp hf)
    · obtain ⟨hp, hM⟩ := (hspace' f).mp hf
      exact (hspace hp f hM).1
    · obtain ⟨p, hp, hf⟩ := (hkstack' f).mp hf
      exact (hkstack p f hp hf).1
  · have hfs : ∀ f, f ∈ fl' → p' ≠ none ∧ f ∈ M.frames → False := fun f hf hs =>
      (hspace hs.1 f hs.2).2 hf
    have hfk : ∀ f, f ∈ fl' → (∃ p, p' = some p ∧ p.kstack = f * PGSIZE) → False := by
      rintro f hf ⟨p, hp, hk⟩
      exact (hkstack p f hp hk).2.1 hf
    have hsk : ∀ f, p' ≠ none ∧ f ∈ M.frames → (∃ p, p' = some p ∧ p.kstack = f * PGSIZE) →
        False := by
      rintro f ⟨-, hM⟩ ⟨p, hp, hk⟩
      exact (hkstack p f hp hk).2.2 hM
    rintro k (rfl | rfl | rfl) k' (rfl | rfl | rfl) f hf hf'
    · rfl
    · exact (hfs f ((hfree' f).mp hf) ((hspace' f).mp hf')).elim
    · exact (hfk f ((hfree' f).mp hf) ((hkstack' f).mp hf')).elim
    · exact (hfs f ((hfree' f).mp hf') ((hspace' f).mp hf)).elim
    · rfl
    · exact (hsk f ((hspace' f).mp hf) ((hkstack' f).mp hf')).elim
    · exact (hfk f ((hfree' f).mp hf') ((hkstack' f).mp hf)).elim
    · exact (hsk f ((hspace' f).mp hf') ((hkstack' f).mp hf)).elim
    · rfl

/-- The frames that someone has. -/
def Sys.held (L : Option Slot → Layout) (fl : List ℕ) (s : Sys) : Set ℕ :=
  {f | ∃ k, f ∈ s.holding L fl k}

/-- A change to one process leaves the holdings of the others. -/
theorem Sys.held_setProc {p' : Option Proc} {M : Layout} (hall : ∀ f ∈ s.reach L fl i, f ∈ fl' ∨
      (p' ≠ none ∧ f ∈ M.frames) ∨ ∃ p, p' = some p ∧ p.kstack = f * PGSIZE) :
    s.held L fl ⊆ Sys.held (Function.update L (some i) M) fl'
      { s with mem := mem', proc := Function.update s.proc i p' } := by
  rintro f ⟨k, hf⟩
  by_cases hk : k ∈ parties i
  · rcases hall f ⟨k, hk, hf⟩ with hfree | ⟨hp', hM⟩ | ⟨p, hp', hkstack⟩
    · exact ⟨.free, hfree⟩
    · refine ⟨.space i, ?_, ?_⟩
      · dsimp only
        rwa [Function.update_self]
      · rwa [Function.update_self]
    · refine ⟨.kstack i, p, ?_, hkstack⟩
      dsimp only
      rwa [Function.update_self]
  · exact ⟨k, (Sys.holding_setProc hk).symm ▸ hf⟩

/-- The address space of a process with the free frames. -/
theorem Inv.local (h : Inv L fl σ s) (hp : s.proc i = some p) :
    Local ((L (some i)).withFree fl) (L (some i)) fl s.mem := by
  obtain ⟨I, -, hshown⟩ := h.shown hp
  refine ⟨hshown.layout, h.free, fun P f hf hmem => ?_, fun _ => Iff.rfl⟩
  have hspace : f ∈ s.holding L fl (.space i) := ⟨by rw [hp]; exact Option.some_ne_none p, P, hf⟩
  cases h.shared .free (.space i) f hmem hspace

theorem Inv.withFree_subset (hp : s.proc i = some p) :
    (L (some i)).withFree fl ⊆ s.reach L fl i := by
  rintro f (hf | hf)
  · exact ⟨.free, by simp [parties], hf⟩
  · exact ⟨.space i, by simp [parties], by rw [hp]; exact Option.some_ne_none p, hf⟩

/-- A process has exchanged frames of its address space with free ones.

**Proof sketch.** The kernel stack stays where it is, and it is neither in the address space nor
free, as it has its own holder. Since `Local` partitions the frames of the address space and the
free ones, no frame is lost, and none is with two holders. -/
theorem Inv.setLocal (h : Inv L fl σ s) (hp : s.proc i = some p) {p' : Proc} {I' : Image}
    {M : Layout} (hkeeps : s.mem.Keeps ((L (some i)).withFree fl) mem')
    (hlocal : Local ((L (some i)).withFree fl) M fl' mem') (hhas : M.Has s.mem.kdata I')
    (hpgdir : p'.pgdir = M.dir * PGSIZE) (hsz : p'.sz = I'.sz) (hpos : 0 < I'.sz)
    (hkstack : p'.kstack = p.kstack) :
    Inv (Function.update L (some i) M) fl' (Function.update σ i (some I'))
        { s with mem := mem', proc := Function.update s.proc i (some p') } ∧
      s.held L fl ⊆ Sys.held (Function.update L (some i) M) fl'
        { s with mem := mem', proc := Function.update s.proc i (some p') } := by
  obtain ⟨I, -, hshown⟩ := h.shown hp
  have hsub : (L (some i)).withFree fl ⊆ s.reach L fl i := Inv.withFree_subset hp
  have hstack : ∀ f, p.kstack = f * PGSIZE → f ∈ s.holding L fl (.kstack i) :=
    fun f hf => ⟨p, hp, hf⟩
  have hnot : ∀ f, p.kstack = f * PGSIZE → f ∉ (L (some i)).withFree fl := by
    rintro f hf (hmem | hmem)
    · cases h.shared .free (.kstack i) f hmem (hstack f hf)
    · have hspace : f ∈ s.holding L fl (.space i) :=
        ⟨by rw [hp]; exact Option.some_ne_none p, hmem⟩
      cases h.shared (.space i) (.kstack i) f hspace (hstack f hf)
  refine ⟨h.setProc (hkeeps.mono hsub) hlocal.free
    (fun f hf => hsub ((hlocal.mem f).mpr (.inl hf))) (.some ⟨hlocal.layout, ?_, hpgdir, hsz, hpos,
      ?_⟩) ?_ ?_, Sys.held_setProc ?_⟩
  · rw [hkeeps.kdata]
    exact hhas
  · obtain ⟨f, hf, husable⟩ := hshown.kstack
    exact ⟨f, hkstack.trans hf, hkeeps.usable.mpr husable⟩
  · rintro - f ⟨P, hP⟩
    exact ⟨hsub (hlocal.ref_mem hP), hlocal.disjoint P f hP⟩
  · rintro q f hq hf
    obtain rfl := Option.some.inj hq
    rw [hkstack] at hf
    refine ⟨⟨.kstack i, by simp [parties], hstack f hf⟩, fun hmem => hnot f hf ?_, ?_⟩
    · exact (hlocal.mem f).mpr (.inl hmem)
    · rintro ⟨P, hP⟩
      exact hnot f hf (hlocal.ref_mem hP)
  · rintro f ⟨k, hk, hf⟩
    have hcase : ∀ g ∈ (L (some i)).withFree fl, g ∈ fl' ∨ g ∈ M.frames :=
      fun g hg => ((hlocal.mem g).mp hg).imp id id
    rcases hk with rfl | rfl | rfl
    · exact (hcase f (.inl hf)).imp id fun hM => .inl ⟨Option.some_ne_none p', hM⟩
    · exact (hcase f (.inr hf.2)).imp id fun hM => .inl ⟨Option.some_ne_none p', hM⟩
    · obtain ⟨q, hq, hf⟩ := hf
      obtain rfl : p = q := Option.some.inj (hp.symm.trans hq)
      exact .inr (.inr ⟨p', rfl, hkstack.trans hf⟩)

/-- Free frames are lost. -/
theorem Inv.lose (h : Inv L fl σ s) (hkeeps : s.mem.Keeps {f | f ∈ fl} mem')
    (hfree : FreeList fl' mem') (hsub : fl' ⊆ fl) : Inv L fl' σ { s with mem := mem' } := by
  refine h.change (H := {.free}) (hkeeps.mono fun f hf => ⟨.free, rfl, hf⟩)
    ⟨by simp, rfl, rfl⟩ (fun k hk => ?_) (fun i _ => ⟨rfl, rfl, rfl⟩) (fun i hi => by simp at hi)
    hfree (fun page hpage => .inl hpage) h.nodup ?_ ?_
  · cases k with
    | free => exact absurd rfl hk
    | _ => rfl
  · rintro k rfl f hf
    exact ⟨.free, rfl, hsub hf⟩
  · rintro k rfl k' rfl f - -
    rfl

/-- A process that has come into being, of free frames.

**Proof sketch.** The first of the free frames is the kernel stack of the process, its address space
has been made of the others, and what is left is free. `Inv.setProc` puts the three into the slot,
which held nothing before. -/
theorem Inv.enter {k : ℕ} {M : Layout} {fl₂ : List ℕ} (h : Inv L (k :: fl) σ s)
    (hj : s.proc j = none) (hkeeps : s.mem.Keeps {f | f ∈ k :: fl} mem')
    (hlocal : Local {f | f ∈ fl} M fl₂ mem') (hhas : M.Has s.mem.kdata I)
    (hpos : 0 < I.sz) :
    Inv (Function.update L (some j) M) fl₂ (Function.update σ j (some I)) { s with
        mem := mem', proc := Function.update s.proc j (some ⟨I.sz, M.dir * PGSIZE, k * PGSIZE⟩) } ∧
      s.held L (k :: fl) ⊆ Sys.held (Function.update L (some j) M) fl₂ { s with
        mem := mem',
        proc := Function.update s.proc j (some ⟨I.sz, M.dir * PGSIZE, k * PGSIZE⟩) } := by
  have hnodup := List.nodup_cons.mp h.free.nodup
  have hreach : ∀ f ∈ k :: fl, f ∈ s.reach L (k :: fl) j :=
    fun f hf => ⟨.free, by simp [parties], hf⟩
  have husable : mem'.Usable k := hkeeps.usable.mpr (h.free.usable k List.mem_cons_self)
  have hnot : k ∉ M.frames := by
    rintro ⟨P, hP⟩
    exact hnodup.1 (hlocal.ref_mem hP)
  refine ⟨h.setProc (hkeeps.mono hreach) hlocal.free (fun f hf => hreach f
    (List.mem_cons_of_mem k ((hlocal.mem f).mpr (.inl hf)))) (.some ⟨hlocal.layout, ?_, rfl, rfl,
      hpos, k, rfl, husable⟩) ?_ ?_, Sys.held_setProc ?_⟩
  · rw [hkeeps.kdata]
    exact hhas
  · rintro - f ⟨P, hP⟩
    exact ⟨hreach f (List.mem_cons_of_mem k (hlocal.ref_mem hP)), hlocal.disjoint P f hP⟩
  · rintro q f hq hf
    obtain rfl := Option.some.inj hq
    obtain rfl : k = f := Nat.eq_of_mul_eq_mul_right (by decide) hf
    exact ⟨hreach k List.mem_cons_self, fun hmem => hnodup.1 ((hlocal.mem k).mpr (.inl hmem)), hnot⟩
  · rintro f ⟨K, hK, hf⟩
    rcases hK with rfl | rfl | rfl
    · rcases List.mem_cons.mp hf with rfl | hf
      · exact .inr (.inr ⟨_, rfl, rfl⟩)
      · exact ((hlocal.mem f).mp hf).imp id fun hM => .inl ⟨Option.some_ne_none _, hM⟩
    · exact absurd hj hf.1
    · obtain ⟨q, hq, -⟩ := hf
      rw [hj] at hq
      cases hq

/-! ## The calls -/

/-- What `fork` leaves. -/
def ForkPost (L : Option Slot → Layout) (fl : List ℕ) (σ : Users) (s : Sys) (I : Image) (j : Slot)
    (r : Option Proc) (mem' : Mem) : Prop :=
  (r = none ∧ fl.length ≤ 1026 + pages I.sz ∧ ∃ fl', Inv L fl' σ { s with mem := mem' }) ∨
    ∃ np M fl', r = some np ∧ Inv (Function.update L (some j) M) fl'
        (Function.update σ j (some I))
        { s with mem := mem', proc := Function.update s.proc j (some np) } ∧
      s.held L fl ⊆ Sys.held (Function.update L (some j) M) fl'
        { s with mem := mem', proc := Function.update s.proc j (some np) } ∧
      fl.length ≤ fl'.length + (1026 + pages I.sz)

/-- **`fork`** of a process into a slot that is not in use.

**Proof sketch.** `fork` takes a frame for the kernel stack, if there is one, and copies the address
space (`wp_copyuvm`), reading the frames of the parent and writing to free ones. If the copy
succeeds it shows the image of the parent, page by page, and the process enters the slot
(`Inv.enter`). If it fails the stack is given back; frames that `copyuvm` has lost are in no holder
afterwards (`Inv.lose`). -/
theorem Inv.fork (h : Inv L fl σ s) (hp : s.proc i = some p) (hI : σ i = some I)
    (hj : s.proc j = none) :
    Wp (CopyStop I.sz I.page) (fork p) (ForkPost L fl σ s I j) s.mem := by
  obtain ⟨I', hI', hshown⟩ := h.shown hp
  obtain rfl : I = I' := Option.some.inj (hI.symm.trans hI')
  unfold Phys.fork
  refine Wp.bind (wp_kalloc_free h.free) ?_
  rintro r mem₁ ⟨hkeeps₁, ⟨rfl, rfl, rfl⟩ | ⟨k, fl₁, rfl, rfl, hfree₁⟩⟩
  · exact .inl ⟨rfl, Nat.zero_le _, [], h⟩
  dsimp only
  have hnodup := List.nodup_cons.mp h.free.nodup
  have hspace : ∀ P f, (L (some i)).ref P = some f → f ∉ k :: fl₁ := fun P f hf hmem => by
    have hmine : f ∈ s.holding L (k :: fl₁) (.space i) :=
      ⟨by rw [hp]; exact Option.some_ne_none p, P, hf⟩
    cases h.shared .free (.space i) f hmem hmine
  have hlayout : (L (some i)).In mem₁ := hshown.layout.congr hkeeps₁.kend fun P f _ =>
    hkeeps₁.frame f (Set.notMem_empty f)
  have huser : (L (some i)).User mem₁.kdata := hkeeps₁.kdata ▸ hshown.has.user
  rw [hshown.pgdir, hshown.sz, ← hshown.has.image]
  refine Wp.bind (wp_copyuvm hfree₁ (h.linked.keeps hkeeps₁) hlayout huser
    (fun P f hf hmem => hspace P f hf (List.mem_cons_of_mem k hmem)) hshown.has.sz_lt.le) ?_
  rintro r mem₂ ⟨hkeeps₂, ⟨rfl, hshort, fl₂, hfree₂, hsub⟩ |
    ⟨M, fl₂, rfl, hlocal, huserM, hreach, himage⟩⟩
  · -- the frames of the page directory and the tables may be lost
    have hkeeps := (hkeeps₁.mono (Set.empty_subset _)).trans hkeeps₂ le_rfl
    have husable := hkeeps.usable.mpr (h.free.usable k List.mem_cons_self)
    refine Wp.bind (wp_kfree_free hfree₂ husable fun hmem => hnodup.1 (hsub hmem)) ?_
    rintro _ mem₃ ⟨hkeeps₃, hfree₃⟩
    have hsub₃ : k :: fl₂ ⊆ k :: fl₁ := List.cons_subset_cons k hsub
    refine .inl ⟨rfl, by rw [List.length_cons]; omega, k :: fl₂, h.lose ?_ hfree₃ hsub₃⟩
    refine (hkeeps.mono fun f hf => List.mem_cons_of_mem k hf).trans
      (hkeeps₃.mono ?_) le_rfl
    rintro f rfl
    exact List.mem_cons_self
  · have hhas : M.Has s.mem.kdata I := by
      refine ⟨?_, ?_, hreach, hshown.has.beyond, hshown.has.sz_lt⟩
      · rw [← hkeeps₁.kdata]
        exact huserM
      · rw [himage, hshown.has.image]
        funext q
        split_ifs with hq
        · rfl
        · exact (hshown.has.beyond q (not_lt.mp hq)).symm
    have henter := h.enter hj ((hkeeps₁.mono (Set.empty_subset _)).trans
      (hkeeps₂.mono fun f hf => List.mem_cons_of_mem k hf) le_rfl) hlocal hhas hshown.pos
    refine .inr ⟨_, M, fl₂, rfl, henter.1, henter.2, ?_⟩
    have hcard := hlocal.card_le_add (m := 0) (n := pages I.sz)
      (fun i hi => absurd hi (Nat.not_lt_zero i)) fun q hq => by
        rw [hhas.image]
        exact hhas.beyond q (not_lt.mp fun hlt => absurd (lt_pages.mpr hlt) hq.not_gt)
    rw [ncard_list hfree₁.nodup] at hcard
    rw [List.length_cons]
    omega

/-- The free frames are some of the footprint. -/
theorem Local.length_le {X : Set ℕ} {M : Layout} (h : Local X M fl mem) : fl.length ≤ X.ncard := by
  rw [← ncard_list h.free.nodup]
  refine Set.ncard_le_ncard (fun f hf => (h.mem f).mpr (.inl hf)) ?_
  exact (Set.finite_Iio 0xE000).subset fun f hf => (h.usable hf).lt

/-- What `growproc` leaves, for an image that becomes `J` when the call returns `r`. -/
def GrowPost (L : Option Slot → Layout) (fl : List ℕ) (σ : Users) (s : Sys) (i : Slot) (p : Proc)
    (I : Image) (n : Int32) (r : Option ℕ) (mem' : Mem) : Prop :=
  (r = none → 0 < n.toInt → KERNBASE ≤ I.sz + n.toInt ∨
    fl.length ≤ 1025 + pages (I.sz + n.toInt).toNat) ∧
  ∃ J M fl', I.sbrk n (r.map fun _ => I.sz) = some J ∧
    Inv (Function.update L (some i) M) fl' (Function.update σ i (some J)) { s with
      mem := mem', proc := Function.update s.proc i (some { p with sz := r.getD p.sz }) } ∧
    s.held L fl ⊆ Sys.held (Function.update L (some i) M) fl' { s with
      mem := mem', proc := Function.update s.proc i (some { p with sz := r.getD p.sz }) }

/-- **`growproc`** for a process.

**Proof sketch.** By the sign of `n`: growing is `wp_grow`, shrinking `wp_shrink`, and 0 does
nothing. Where the new size would be zero or negative, `growproc` returns -1, or returns 0 without a
change of the size, as the specification `Image.sbrk` has it. In each case the image shown is the
one of the specification, and the frames have moved between the address space and the free list
(`Inv.setLocal`). -/
theorem Inv.growproc (h : Inv L fl σ s) (hp : s.proc i = some p) (hI : σ i = some I) (n : Int32) :
    Wp E (growproc p n) (GrowPost L fl σ s i p I n) s.mem := by
  obtain ⟨I', hI', hshown⟩ := h.shown hp
  obtain rfl : I = I' := Option.some.inj (hI.symm.trans hI')
  have hlocal := h.local hp
  have hlo : -2 ^ 31 ≤ n.toInt := n.le_toInt
  have hhi : n.toInt < 2 ^ 31 := n.toInt_lt
  have hsmall : I.sz < 2 ^ 31 := hshown.has.sz_lt.trans_le (by decide)
  have hbase : (I.sz : ℤ) < (KERNBASE : ℕ) := Int.ofNat_lt.mpr hshown.has.sz_lt
  have hpos := hshown.pos
  unfold Phys.growproc
  rw [hshown.sz, hshown.pgdir, wp_ite]
  refine ⟨fun hn => ?_, fun hn => ?_⟩
  · obtain ⟨newsz, hnew⟩ : ∃ newsz, newsz = (I.sz + n.toInt).toNat := ⟨_, rfl⟩
    have hmod : (((I.sz : ℤ) + n.toInt) % 2 ^ 32).toNat = newsz := by omega
    rw [hmod]
    refine Wp.bind (wp_grow hlocal hshown.has) ?_
    rintro r mem' ⟨hkeeps, M, fl', hlocal', hdir, ⟨rfl, hshort, hhas⟩ | ⟨htop, rfl, hhas⟩⟩
    · rw [if_pos rfl]
      refine ⟨fun _ _ => ?_, I, M, fl', ?_, ?_⟩
      · rw [← hnew]
        refine hshort.imp (fun htop => ?_) fun hcard => hlocal.length_le.trans hcard
        omega
      · rw [Option.map_none, Image.sbrk, if_pos hn]
      · exact h.setLocal hp hkeeps hlocal' hhas (by rw [hdir]; exact hshown.pgdir) hshown.sz hpos
          rfl
    · rw [max_eq_right (by omega)] at hhas ⊢
      rw [if_neg (by omega)]
      refine ⟨fun hr => (by cases hr), I.resize newsz, M, fl', ?_, ?_⟩
      · rw [Option.map_some, Image.sbrk, if_neg (by omega), if_neg (by omega), hnew]
      · exact h.setLocal hp hkeeps hlocal' hhas (by rw [hdir]; exact hshown.pgdir) rfl
          (by change 0 < newsz; omega) rfl
  have hfail : ∀ r : Option ℕ, r = none → 0 < n.toInt → KERNBASE ≤ I.sz + n.toInt ∨
      fl.length ≤ 1025 + pages (I.sz + n.toInt).toNat := fun _ _ hpos' => absurd hpos' hn
  rw [wp_ite]
  refine ⟨fun hneg => ?_, fun hzero => ?_⟩
  swap
  · have hn0 : n.toInt = 0 := by omega
    refine ⟨hfail _, I, L (some i), fl, ?_, ?_⟩
    · rw [Option.map_some, Image.sbrk, if_neg (by omega), if_neg (by omega),
        show ((I.sz : ℤ) + n.toInt).toNat = I.sz by omega, Image.resize_self hshown.has.beyond]
    · exact h.setLocal hp (.refl _ _) hlocal hshown.has hshown.pgdir rfl hpos rfl
  obtain ⟨newsz, hnew⟩ : ∃ newsz, newsz = (((I.sz : ℤ) + n.toInt) % 2 ^ 32).toNat := ⟨_, rfl⟩
  rw [← hnew]
  refine Wp.bind (wp_shrink hlocal hshown.has) ?_
  rintro r mem' ⟨hkeeps, rfl, M, fl', hlocal', hdir, hhas⟩
  have hpgdir : p.pgdir = M.dir * PGSIZE := by
    rw [hdir]
    exact hshown.pgdir
  rcases lt_trichotomy ((I.sz : ℤ) + n.toInt) 0 with hwrap | hnone | hrest
  · -- the new size wraps around
    rw [min_eq_left (by omega)] at hhas ⊢
    rw [if_neg hpos.ne']
    rw [Image.resize_self hshown.has.beyond] at hhas
    refine ⟨hfail _, I, M, fl', ?_, ?_⟩
    · rw [Option.map_some, Image.sbrk, if_neg (by omega), if_pos hwrap]
    · exact h.setLocal hp hkeeps hlocal' hhas hpgdir rfl hpos rfl
  · have hnew0 : newsz = 0 := by omega
    have hgone : (I.resize 0).page = fun _ => none := by
      funext q
      rw [Image.resize]
      dsimp only
      rw [if_pos (Nat.zero_le _)]
    rw [hnew0, Nat.min_zero] at hhas ⊢
    rw [hgone] at hhas
    rw [if_pos rfl]
    refine ⟨hfail _, _, M, fl', ?_, h.setLocal hp hkeeps hlocal' hhas hpgdir hshown.sz hpos rfl⟩
    rw [Option.map_none, Image.sbrk, if_neg hn, if_pos hnone]
  · rw [min_eq_right (by omega)] at hhas ⊢
    rw [if_neg (by omega)]
    refine ⟨hfail _, I.resize newsz, M, fl', ?_, ?_⟩
    · rw [Option.map_some, Image.sbrk, if_neg (by omega), if_neg (by omega),
        show ((I.sz : ℤ) + n.toInt).toNat = newsz by omega]
    · exact h.setLocal hp hkeeps hlocal' (hhas.cut (by omega)) hpgdir rfl
        (by change 0 < newsz; omega) rfl

/-- What `exec` leaves. -/
def ExecPost (L : Option Slot → Layout) (fl : List ℕ) (σ : Users) (s : Sys) (i : Slot) (p : Proc)
    (file : List UInt8) (argv : List (List UInt8)) (r : Option Loaded) (mem' : Mem) : Prop :=
  (r = none ∧ (∀ J, (Image.exec file argv).map Prod.fst = some J → fl.length ≤ 1025 + pages J.sz) ∧
      ∃ fl', Inv L fl' σ { s with mem := mem' }) ∨
    ∃ new J M fl', r = some new ∧ Image.exec file argv = some (J, new.eip, new.esp) ∧
      Inv (Function.update L (some i) M) fl' (Function.update σ i (some J)) { s with
        mem := mem',
        proc := Function.update s.proc i (some { p with sz := new.sz, pgdir := new.pgdir }) } ∧
      s.held L fl ⊆ Sys.held (Function.update L (some i) M) fl' { s with
        mem := mem',
        proc := Function.update s.proc i (some { p with sz := new.sz, pgdir := new.pgdir }) }

/-- The image of a program is not empty. -/
theorem Image.exec_pos {file : List UInt8} {argv : List (List UInt8)} {J : Image} {eip esp : ℕ}
    (h : Image.exec file argv = some (J, eip, esp)) : 0 < J.sz := by
  unfold Image.exec at h
  extract_lets elf at h
  split_ifs at h with hbad
  obtain ⟨I₀, hload, hstart⟩ := Option.bind_eq_some_iff.mp h
  rw [Image.start_sz (PGROUNDUP_pages (Image.load_lt hload (by decide)).le) hstart]
  exact Nat.mul_pos (Nat.succ_pos _) (by decide)

/-- **`exec`** in a process. -/
theorem Inv.exec (h : Inv L fl σ s) (hp : s.proc i = some p) {file : List UInt8}
    {argv : List (List UInt8)} (hfile : file.length < 2 ^ 31)
    (hargv : ∀ arg ∈ argv, arg.length < 2 ^ 25) :
    Wp E (exec p.pgdir file argv) (ExecPost L fl σ s i p file argv) s.mem := by
  obtain ⟨I, hI, hshown⟩ := h.shown hp
  have hlocal := h.local hp
  rw [hshown.pgdir]
  refine (wp_exec h.free h.linked hshown.layout hshown.has.user
    (fun P f hf => hlocal.disjoint P f hf) hfile hargv).mono ?_
  rintro r mem' (⟨rfl, hkeeps, ⟨fl', hfree, hsub⟩, hshort⟩ |
    ⟨new, M, J, fl', rfl, hexec, hsz, hpgdir, hkeeps, hlocal', hhas, -⟩)
  · exact .inl ⟨rfl, hshort, fl', h.lose hkeeps hfree hsub⟩
  · refine .inr ⟨new, J, M, fl', rfl, hexec, ?_⟩
    exact h.setLocal hp hkeeps hlocal' hhas hpgdir hsz (Image.exec_pos hexec) rfl

/-- **`wait`** frees the memory of a process. -/
theorem Inv.reap (h : Inv L fl σ s) (hp : s.proc i = some p) :
    Wp E (reap p) (fun _ mem' => ∃ fl', Inv L fl' (Function.update σ i none) { s with
        mem := mem', proc := Function.update s.proc i none } ∧
      s.held L fl ⊆ Sys.held L fl' { s with
        mem := mem', proc := Function.update s.proc i none }) s.mem := by
  obtain ⟨I, hI, hshown⟩ := h.shown hp
  obtain ⟨k, hk, husable⟩ := hshown.kstack
  have hlocal := h.local hp
  have hstack : k ∈ s.holding L fl (.kstack i) := ⟨p, hp, hk⟩
  have hnot : k ∉ (L (some i)).withFree fl := by
    rintro (hmem | hmem)
    · cases h.shared .free (.kstack i) k hmem hstack
    · have hspace : k ∈ s.holding L fl (.space i) :=
        ⟨by rw [hp]; exact Option.some_ne_none p, hmem⟩
      cases h.shared (.space i) (.kstack i) k hspace hstack
  unfold Phys.reap
  rw [hk, hshown.pgdir]
  refine Wp.bind (wp_kfree hlocal husable hnot) ?_
  rintro _ mem₁ ⟨hkeeps₁, hlocal₁⟩
  refine (wp_freevm hlocal₁ hshown.has.user).mono ?_
  rintro _ mem₂ ⟨hkeeps₂, fl', hfree, hmem⟩
  have hsub : Insert.insert k ((L (some i)).withFree fl) ⊆ s.reach L fl i := by
    rintro f (rfl | hf)
    · exact ⟨.kstack i, by simp [parties], hstack⟩
    · exact Inv.withFree_subset hp hf
  have hkeeps : s.mem.Keeps (s.reach L fl i) mem₂ :=
    (hkeeps₁.mono (Set.singleton_subset_iff.mpr (hsub (Set.mem_insert k _)))).trans
      (hkeeps₂.mono hsub) le_rfl
  have hinv := h.setProc (M := L (some i)) hkeeps hfree (fun f hf => hsub ((hmem f).mp hf))
    .none (fun hne => absurd rfl hne) (fun q f hq => by cases hq)
  have hheld : s.held L fl ⊆ Sys.held (Function.update L (some i) (L (some i))) fl'
      { s with mem := mem₂, proc := Function.update s.proc i none } :=
    Sys.held_setProc fun f hf => .inl ((hmem f).mpr ?_)
  · rw [Function.update_eq_self] at hinv hheld
    exact ⟨fl', hinv, hheld⟩
  · obtain ⟨K, hK, hf⟩ := hf
    rcases hK with rfl | rfl | rfl
    · exact .inr (.inl hf)
    · exact .inr (.inr hf.2)
    · obtain ⟨q, hq, hqf⟩ := hf
      obtain rfl : p = q := Option.some.inj (hp.symm.trans hq)
      exact .inl (Nat.eq_of_mul_eq_mul_right (by decide : 0 < PGSIZE) (hqf.symm.trans hk))

/-! ## What programs do -/

variable {M : Layout} {va : ℕ}

/-- Which entries let a program pass. -/
theorem allows_userEntry (w : Bool) (f : ℕ) (u : Bool) : allows w (userEntry f u) ↔ u = true := by
  rw [allows, ← userEntry_user f u]
  exact ⟨fun h => h.2.1, fun h => ⟨userEntry_present f u, h, fun _ => userEntry_writable f u⟩⟩

/-- What the processor finds for an address of a program.

**Proof sketch.** The walk of the processor reads the word of the directory and the word of the
table, which are those of the layout. A page of the layout below `KERNBASE` is one of the image,
with the bits that say whether the user may go there; above, the pages are those of the kernel,
which the user may not touch, and the image has none. -/
theorem user_image (h : M.In mem) (hhas : M.Has mem.kdata I) (hva : va < 2 ^ 32) (w : Bool) :
    (mem.user (M.dir * PGSIZE) va w = none ∧ I.get va = none) ∨ ∃ f pg,
      mem.user (M.dir * PGSIZE) va w = some (f * PGSIZE + va % PGSIZE) ∧
        M.page (va / PGSIZE) = some f ∧ I.page (va / PGSIZE) = some pg ∧ pg.user = true := by
  obtain ⟨q, hq⟩ : ∃ q, q = va / PGSIZE := ⟨_, rfl⟩
  have hlt : q < 2 ^ 20 := by
    rw [hq]
    unfold PGSIZE
    omega
  have hd : Vm.PDX va = q / 1024 := by
    rw [hq]
    unfold Vm.PDX PGSIZE
    omega
  have ht : Vm.PTX va = q % 1024 := by
    rw [hq]
    unfold Vm.PTX PGSIZE
    omega
  have hget : I.page q = none → I.get va = none := by
    intro hnone
    rw [Image.get, ← hq, hnone]
  unfold Mem.user
  rw [hd, ht, ← hq, word_eq (by omega), h.dir _ (by omega)]
  dsimp only
  cases htable : M.table (q / 1024) with
  | none =>
    left
    refine ⟨if_neg fun hin => hin.1 (Nat.zero_and _), hget ?_⟩
    rw [← hhas.image, Layout.image, h.missing q htable, if_neg (by simp)]
  | some t =>
    have hpass : allows w (pdeWord (some t)) := by
      rw [pdeWord_some]
      exact (allows_userEntry w t true).mpr rfl
    rw [if_pos hpass, PTE_ADDR_pdeWord, h.word htable]
    rcases Nat.lt_or_ge q (2 ^ 19) with huser | hkernel
    · cases hpage : I.page q with
      | none =>
        have himage := hpage
        rw [← hhas.image] at himage
        exact .inl ⟨if_neg fun hin => hin.1 (entry_of_image huser himage), hget hpage⟩
      | some pg =>
        obtain ⟨f, -, hentry, hf, -⟩ := hhas.page hpage
        rw [hentry, PTE_ADDR_div, userEntry_div]
        cases hu : pg.user with
        | true =>
          exact .inr ⟨f, pg, if_pos ((allows_userEntry w f true).mpr rfl), hf, rfl, hu⟩
        | false =>
          refine .inl ⟨if_neg fun hin => ?_, ?_⟩
          · exact absurd ((allows_userEntry w f false).mp hin) (by decide)
          · rw [Image.get, ← hq, hpage]
            dsimp only
            rw [hu, if_neg (by decide)]
    · left
      refine ⟨if_neg fun hin => hin.2.1 ?_, hget ?_⟩
      · rw [← hhas.image, Layout.image, if_neg (by omega)]
      · rw [hhas.user.kernel q hkernel hlt, kernelEntry_user]

/-- **A program reads** what its image has. -/
theorem Inv.readByte (h : Inv L fl σ s) (hp : s.proc i = some p) (hI : σ i = some I)
    (hva : va < 2 ^ 32) :
    Wp E (readByte p va) (fun r mem' => mem' = s.mem ∧ r = I.get va) s.mem := by
  obtain ⟨I', hI', hshown⟩ := h.shown hp
  obtain rfl : I = I' := Option.some.inj (hI.symm.trans hI')
  unfold Phys.readByte
  rw [wp_bind, wp_get, hshown.pgdir]
  rcases user_image hshown.layout hshown.has hva false with ⟨huser, hget⟩ |
    ⟨f, pg, huser, hf, hpage, hu⟩
  · rw [huser, hget]
    exact ⟨rfl, rfl⟩
  · have hlt : va % PGSIZE < PGSIZE := Nat.mod_lt _ (by decide)
    have hmod : (f * PGSIZE + va % PGSIZE) % PGSIZE = va % PGSIZE := Nat.mul_add_mod_of_lt hlt
    rw [huser]
    refine ⟨rfl, ?_⟩
    rw [div_page hlt, hmod, Image.get, hpage]
    dsimp only
    obtain ⟨f', -, -, hf', hdata⟩ := hshown.has.page hpage
    obtain rfl : f = f' := Option.some.inj (hf.symm.trans hf')
    rw [if_pos hu, hshown.layout.data _ f hf, hdata]

/-- **A program writes** to its image. -/
theorem Inv.writeByte (h : Inv L fl σ s) (hp : s.proc i = some p) (hI : σ i = some I)
    (hva : va < 2 ^ 32) (b : UInt8) :
    Wp E (writeByte p va b) (fun done mem' => done = (I.get va).isSome ∧ ∃ L', Inv L' fl
        (Function.update σ i (some (if done then I.write va [b] else I))) { s with mem := mem' } ∧
      s.held L fl ⊆ Sys.held L' fl { s with mem := mem' }) s.mem := by
  obtain ⟨I', hI', hshown⟩ := h.shown hp
  obtain rfl : I = I' := Option.some.inj (hI.symm.trans hI')
  have hlocal := h.local hp
  unfold Phys.writeByte
  rw [wp_bind, wp_get, hshown.pgdir]
  rcases user_image hshown.layout hshown.has hva true with ⟨huser, hget⟩ |
    ⟨f, pg, huser, hf, hpage, hu⟩
  · rw [huser, hget]
    refine ⟨rfl, L, ?_, le_rfl⟩
    rw [if_neg (by decide), ← hI, Function.update_eq_self]
    exact h
  · have hlt : va % PGSIZE < PGSIZE := Nat.mod_lt _ (by decide)
    have hmod : (f * PGSIZE + va % PGSIZE) % PGSIZE = va % PGSIZE := Nat.mul_add_mod_of_lt hlt
    have hva' : va / PGSIZE * PGSIZE + va % PGSIZE = va := Nat.div_add_mod' ..
    have hget : I.get va = some (pg.data (va % PGSIZE)) := by
      rw [Image.get, hpage]
      exact if_pos hu
    obtain ⟨f', -, -, hf', hdata⟩ := hshown.has.page hpage
    obtain rfl : f = f' := Option.some.inj (hf.symm.trans hf')
    obtain ⟨hlocal', hhas'⟩ := hshown.has.store (va % PGSIZE) [b] hlocal hpage hf hlt
    rw [hva'] at hhas'
    rw [huser]
    dsimp only
    rw [wp_bind, wp_set, wp_pure, Mem.setFrame, div_page hlt, hmod, hshown.layout.data _ f hf,
      hdata]
    refine ⟨by rw [hget]; rfl, ?_⟩
    rw [if_pos rfl]
    have hset := h.setLocal hp (.update (hlocal.ref_mem (P := .page (va / PGSIZE)) hf) _) hlocal'
      hhas' hshown.pgdir hshown.sz hshown.pos rfl
    have hself : Function.update s.proc i (some p) = s.proc := by rw [← hp, Function.update_eq_self]
    rw [hself] at hset
    exact ⟨_, hset⟩

/-! ## Pipes -/

/-- The pipes and the free frames have changed.

**Proof sketch.** The holders that exchange frames are the free list and the pipes. A frame that is
with one of them afterwards was with one of them before, and conversely, so that none is lost. -/
theorem Inv.setPipes (h : Inv L fl σ s) {pipes : List ℕ} {X : Set ℕ}
    (hX : ∀ f ∈ X, f ∈ fl ∨ f * PGSIZE ∈ s.pipes) (hkeeps : s.mem.Keeps X mem')
    (hfree : FreeList fl' mem') (hnodup : pipes.Nodup)
    (hpipes : ∀ page ∈ pipes, page ∈ s.pipes ∨ ∃ f, page = f * PGSIZE ∧ mem'.Usable f)
    (hall : ∀ f, f ∈ fl' ∨ f * PGSIZE ∈ pipes ↔ f ∈ fl ∨ f * PGSIZE ∈ s.pipes)
    (hdisjoint : ∀ f ∈ fl', f * PGSIZE ∉ pipes) :
    Inv L fl' σ { s with mem := mem', pipes := pipes } ∧
      s.held L fl ⊆ Sys.held L fl' { s with mem := mem', pipes := pipes } := by
  have hothers : ∀ k : Holder, k ∉ ({.free, .pipe} : Set Holder) →
      Sys.holding L fl' { s with mem := mem', pipes := pipes } k = s.holding L fl k := by
    intro k hk
    simp only [Set.mem_insert_iff, Set.mem_singleton_iff, not_or] at hk
    cases k with
    | free => exact absurd rfl hk.1
    | pipe => exact absurd rfl hk.2
    | _ => rfl
  refine ⟨h.change (H := {.free, .pipe}) (hkeeps.mono fun f hf => ?_) ⟨by simp, rfl, rfl⟩ hothers
    (fun i _ => ⟨rfl, rfl, rfl⟩) (fun i hi => by simp at hi) hfree hpipes hnodup ?_ ?_, ?_⟩
  · rcases hX f hf with hf | hf
    · exact ⟨.free, .inl rfl, hf⟩
    · exact ⟨.pipe, .inr rfl, hf⟩
  · rintro k (rfl | rfl) f hf
    · rcases (hall f).mp (.inl hf) with hf | hf
      · exact ⟨.free, .inl rfl, hf⟩
      · exact ⟨.pipe, .inr rfl, hf⟩
    · rcases (hall f).mp (.inr hf) with hf | hf
      · exact ⟨.free, .inl rfl, hf⟩
      · exact ⟨.pipe, .inr rfl, hf⟩
  · rintro k (rfl | rfl) k' (rfl | rfl) f hf hf'
    · rfl
    · exact absurd hf' (hdisjoint f hf)
    · exact absurd hf (hdisjoint f hf')
    · rfl
  · rintro f ⟨k, hf⟩
    by_cases hk : k ∈ ({.free, .pipe} : Set Holder)
    · have hnew : f ∈ fl' ∨ f * PGSIZE ∈ pipes := by
        refine (hall f).mpr ?_
        rcases hk with rfl | rfl
        · exact .inl hf
        · exact .inr hf
      rcases hnew with hf | hf
      · exact ⟨.free, hf⟩
      · exact ⟨.pipe, hf⟩
    · exact ⟨k, (hothers k hk).symm ▸ hf⟩

/-- `pipealloc` takes a frame. -/
theorem Inv.pipealloc (h : Inv L fl σ s) : Wp E kalloc (fun r mem' => ∃ fl' s',
    s' = (match r with
      | none => { s with mem := mem' }
      | some page => { s with mem := mem', pipes := page :: s.pipes }) ∧
    Inv L fl' σ s' ∧ s.held L fl ⊆ Sys.held L fl' s') s.mem := by
  refine (wp_kalloc_free h.free).mono ?_
  rintro r mem' ⟨hkeeps, ⟨rfl, rfl, rfl⟩ | ⟨f, fl', rfl, rfl, hfree⟩⟩
  · exact ⟨[], _, rfl, h, le_rfl⟩
  refine ⟨fl', _, rfl, ?_⟩
  have hnodup := List.nodup_cons.mp h.free.nodup
  have hnew : f * PGSIZE ∉ s.pipes := fun hmem => by
    cases h.shared .free .pipe f List.mem_cons_self hmem
  have hinj : ∀ g, g * PGSIZE = f * PGSIZE ↔ g = f := fun g =>
    ⟨fun heq => Nat.eq_of_mul_eq_mul_right (by decide) heq, fun heq => heq ▸ rfl⟩
  refine h.setPipes (X := ∅) (fun g hg => hg.elim) hkeeps hfree
    (List.nodup_cons.mpr ⟨hnew, h.nodup⟩)
    (fun page hpage => ?_) (fun g => ?_) (fun g hg hmem => ?_)
  · rcases List.mem_cons.mp hpage with rfl | hold
    · exact .inr ⟨f, rfl, hkeeps.usable.mpr (h.free.usable f List.mem_cons_self)⟩
    · exact .inl hold
  · rw [List.mem_cons, List.mem_cons, hinj, or_left_comm, or_assoc]
  · rcases List.mem_cons.mp hmem with heq | hold
    · exact hnodup.1 ((hinj g).mp heq ▸ hg)
    · cases h.shared .free .pipe g (List.mem_cons_of_mem f hg) hold

/-- `pipeclose` gives its frame back.

**Proof sketch.** The page of the pipe is a usable frame that is not free, as it has a holder, so
that `kfree` takes it and puts it in front of the list (`wp_kfree_free`). The other pages of pipes
are other frames. -/
theorem Inv.pipeclose (h : Inv L fl σ s) {k page : ℕ} (hk : s.pipes[k]? = some page) :
    Wp E (kfree page) (fun _ mem' => ∃ fl',
      Inv L fl' σ { s with mem := mem', pipes := s.pipes.eraseIdx k } ∧
      s.held L fl ⊆ Sys.held L fl' { s with mem := mem', pipes := s.pipes.eraseIdx k }) s.mem := by
  have hpage : page ∈ s.pipes := List.mem_of_getElem? hk
  obtain ⟨f, rfl, husable⟩ := h.pipes page hpage
  have hinj : ∀ g, g * PGSIZE = f * PGSIZE ↔ g = f := fun g =>
    ⟨fun heq => Nat.eq_of_mul_eq_mul_right (by decide) heq, fun heq => heq ▸ rfl⟩
  have hnew : f ∉ fl := fun hmem => by cases h.shared .free .pipe f hmem hpage
  have herase : ∀ g, g * PGSIZE ∈ s.pipes.eraseIdx k ↔ g ≠ f ∧ g * PGSIZE ∈ s.pipes := by
    intro g
    rw [List.mem_eraseIdx_iff_getElem?]
    constructor
    · rintro ⟨m, hm, hget⟩
      refine ⟨fun heq => hm ?_, List.mem_of_getElem? hget⟩
      rw [heq, ← hk] at hget
      obtain ⟨hlt, -⟩ := List.getElem?_eq_some_iff.mp (hget.trans hk)
      exact (List.getElem?_inj hlt h.nodup).mp hget
    · rintro ⟨hne, hmem⟩
      obtain ⟨m, hm⟩ := List.mem_iff_getElem?.mp hmem
      refine ⟨m, fun heq => hne ((hinj g).mp ?_), hm⟩
      rw [heq, hk] at hm
      exact (Option.some.inj hm).symm
  refine (wp_kfree_free h.free husable hnew).mono ?_
  rintro _ mem' ⟨hkeeps, hfree⟩
  refine ⟨f :: fl, h.setPipes (X := {f}) ?_ hkeeps hfree (h.nodup.eraseIdx k) (fun q hq =>
    .inl (List.mem_of_mem_eraseIdx hq)) (fun g => ?_) (fun g hg hmem => ?_)⟩
  · rintro g rfl
    exact .inr hpage
  · rw [herase, List.mem_cons]
    constructor
    · rintro ((rfl | hg) | ⟨-, hg⟩)
      · exact .inr hpage
      · exact .inl hg
      · exact .inr hg
    · rintro (hg | hg)
      · exact .inl (.inr hg)
      · by_cases hgf : g = f
        · exact .inl (.inl hgf)
        · exact .inr ⟨hgf, hg⟩
  · obtain ⟨hne, hmem⟩ := (herase g).mp hmem
    rcases List.mem_cons.mp hg with rfl | hg
    · exact hne rfl
    · cases h.shared .free .pipe g hg hmem

end HgXv6.Phys
