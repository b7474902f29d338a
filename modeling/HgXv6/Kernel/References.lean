import HgXv6.Kernel.Descriptors
import HgXv6.Lib.Hoare
import HgXv6.Lib.Holders

set_option relaxedAutoImplicit false
set_option autoImplicit false

/-!
# Reference counts of open files

The count of an entry is the number of descriptors that refer to it, whenever no call is on its
way. Within a call the kernel holds references itself: one that `filealloc` or `filedup` has
counted and no descriptor holds yet, one that a descriptor has given up and `fileclose` has not
counted yet, or, where a descriptor is filled first, a reference less.

## Main definitions

* `HgXv6.Descriptors.Exact` — the counts are exact, but for the references the kernel holds.
* `HgXv6.Descriptors.NoRefPanic` — the errors that calls may end with.

## Main results

* `HgXv6.Descriptors.Exact.setFd`, `HgXv6.Descriptors.Exact.setEntry` — the two kinds of change.
* `HgXv6.Descriptors.wp_dupFiles`, `HgXv6.Descriptors.wp_closeFiles` — the loops of `fork` and
  `exit`.
* `HgXv6.Descriptors.wp_call`, `HgXv6.Descriptors.wp_runCalls` — calls and sequences.
* `HgXv6.Descriptors.counts_exact` — the counts, the panics, and which entries are recycled.
-/

namespace HgXv6.Descriptors

open Prog Disk

/-- The descriptors of all processes. -/
@[irreducible] def slots : Finset (ℕ × ℕ) := Finset.range NPROC ×ˢ Finset.range NOFILE

theorem mem_slots {p fd : ℕ} : (p, fd) ∈ slots ↔ p < NPROC ∧ fd < NOFILE := by
  unfold slots
  simp

/-- The counts are those of the descriptors, plus the references `e` that the kernel holds;
descriptors refer to entries of the table, and only those of processes do. -/
structure Exact (e : ℕ → ℤ) (s : Tables) : Prop where
  counts : CountsWith slots (fun x => s.ofile x.1 x.2) (fun f => (s.file f).ref) e
  slot : ∀ p fd f, s.ofile p fd = some f → p < NPROC ∧ fd < NOFILE ∧ f < NFILE
  idle : ∀ p, s.state p = .unused ∨ s.state p = .zombie → ∀ fd, s.ofile p fd = none
  proc : ∀ p, s.state p ≠ .unused → p < NPROC

/-- The errors that calls may end with. -/
def NoRefPanic (e : Stop) : Prop := e ≠ .panic "filedup" ∧ e ≠ .panic "fileclose"

variable {s : Tables} {e : ℕ → ℤ} {p f : ℕ}

/-! ## Changes -/

/-- The references that the kernel holds may be written in another way. -/
theorem Exact.congr (h : Exact e s) {g : ℕ → ℤ} (heq : ∀ a, e a = g a) : Exact g s :=
  { h with counts := h.counts.congr heq }

/-- A descriptor of a process is filled or emptied.

**Proof sketch.** A table that is changed at one place has one holder less for the old entry and one
more for the new one (`CountsWith.update`). The other parts of the invariant do not look at this
descriptor, or they are about the range of the entry, which `hv` gives. -/
theorem Exact.setFd (h : Exact e s) {fd : ℕ} (hfd : fd < NOFILE) (v : Option ℕ)
    (hv : ∀ f, v = some f → f < NFILE)
    (hp : s.state p = .runnable ∨ s.state p = .embryo) :
    Exact (fun a => e a + holds (s.ofile p fd) a - holds v a)
      { s with ofile := Function.update s.ofile p (Function.update (s.ofile p) fd v) } := by
  have hproc : p < NPROC := h.proc p (by rcases hp with hp | hp <;> rw [hp] <;> decide)
  have hcounts : CountsWith slots (Function.uncurry
      (Function.update s.ofile p (Function.update (s.ofile p) fd v))) (fun f => (s.file f).ref)
      (fun a => e a + holds (s.ofile p fd) a - holds v a) := by
    rw [Function.uncurry_update_update]
    exact h.counts.update (mem_slots.mpr ⟨hproc, hfd⟩) v
  refine
    { counts := hcounts
      slot := fun q k f hq => ?_
      idle := fun q hq k => ?_
      proc := h.proc }
  · dsimp only at hq
    by_cases hqp : q = p
    · subst hqp
      rw [Function.update_self] at hq
      by_cases hk : k = fd
      · subst hk
        rw [Function.update_self] at hq
        exact ⟨hproc, hfd, hv f hq⟩
      · rw [Function.update_of_ne hk] at hq
        exact h.slot q k f hq
    · rw [Function.update_of_ne hqp] at hq
      exact h.slot q k f hq
  · dsimp only at hq ⊢
    have hqp : q ≠ p := by
      rintro rfl
      rcases hp with hp | hp <;> rw [hp] at hq <;> exact absurd hq (by decide)
    rw [Function.update_of_ne hqp]
    exact h.idle q hq k

/-- The count of an entry is changed, and whatever else the entry holds.

**Proof sketch.** The number of descriptors that refer to an entry has not changed, so the
difference between it and the count changes by `n` for `f`, and for no other entry. -/
theorem Exact.setEntry (h : Exact e s) (n : ℤ) {g : Entry}
    (hg : g.ref = (s.file f).ref + n) :
    Exact (fun a => e a + n * holds (some f) a)
      { s with file := Function.update s.file f g } := by
  have hrefs : (fun a => (Function.update s.file f g a).ref) =
      Function.update (fun a => (s.file a).ref) f ((s.file f).ref + n) := by
    funext a
    by_cases ha : a = f
    · subst ha
      rw [Function.update_self, Function.update_self, hg]
    · rw [Function.update_of_ne ha, Function.update_of_ne ha]
  exact
    { counts := by
        have hcounts := h.counts.setRef f n
        rw [← hrefs] at hcounts
        exact hcounts
      slot := h.slot
      idle := h.idle
      proc := h.proc }

/-- Other processes do not matter, nor which process is whose child. -/
theorem Exact.setState (h : Exact e s) (state : ProcState) (hp : p < NPROC)
    (hidle : state = .unused ∨ state = .zombie → ∀ fd, s.ofile p fd = none)
    (parent : ℕ → Option ℕ) :
    Exact e { s with state := Function.update s.state p state, parent := parent } where
  counts := h.counts
  slot := h.slot
  idle := fun q hq fd => by
    dsimp only at hq
    by_cases hqp : q = p
    · subst hqp
      rw [Function.update_self] at hq
      exact hidle hq fd
    · rw [Function.update_of_ne hqp] at hq
      exact h.idle q hq fd
  proc := fun q hq => by
    dsimp only at hq
    by_cases hqp : q = p
    · exact hqp ▸ hp
    · rw [Function.update_of_ne hqp] at hq
      exact h.proc q hq

/-- An entry that a descriptor refers to, or that the kernel holds a reference to, has a positive
count. -/
theorem Exact.ref_pos (h : Exact e s)
    (hheld : 0 ≤ e f ∧ (∃ q fd, s.ofile q fd = some f) ∨ 1 ≤ e f) : 1 ≤ (s.file f).ref := by
  have hcount := h.counts f
  dsimp only at hcount
  rcases hheld with ⟨he, q, fd, hq⟩ | he
  · obtain ⟨hproc, hfd, -⟩ := h.slot q fd f hq
    have hpos : 0 < holders slots (fun x => s.ofile x.1 x.2) f :=
      holders_pos.mpr ⟨(q, fd), mem_slots.mpr ⟨hproc, hfd⟩, hq⟩
    omega
  · omega

/-! ## Routines -/

/-- The processes are as they were. -/
def SameProcs (s s' : Tables) : Prop :=
  s'.state = s.state ∧ s'.parent = s.parent ∧ s'.ofile = s.ofile

theorem SameProcs.trans {s s' s'' : Tables} (h : SameProcs s s') (h' : SameProcs s' s'') :
    SameProcs s s'' :=
  ⟨h'.1.trans h.1, h'.2.1.trans h.2.1, h'.2.2.trans h.2.2⟩

/-- `filealloc` finds an entry that nothing refers to, and holds a reference to it. -/
theorem wp_filealloc (h : Exact e s) :
    Wp NoRefPanic filealloc (fun r s' => r = none ∧ s' = s ∧ (∀ f < NFILE, (s.file f).ref ≠ 0) ∨
      ∃ f, r = some f ∧ f < NFILE ∧ (s.file f).ref = 0 ∧ SameProcs s s' ∧
        Exact (fun a => e a + holds (some f) a) s') s := by
  unfold filealloc
  rw [wp_bind, wp_get]
  cases hf : (List.range NFILE).find? fun f => (s.file f).ref = 0 with
  | none =>
    refine .inl ⟨rfl, rfl, fun f hlt => ?_⟩
    simpa using List.find?_eq_none.mp hf f (List.mem_range.mpr hlt)
  | some f =>
    have hlt : f < NFILE := List.mem_range.mp (List.mem_of_find?_eq_some hf)
    have href : (s.file f).ref = 0 := by simpa using List.find?_some hf
    unfold modifyFile
    simp only [wp_bind, wp_modify, wp_pure]
    refine .inr ⟨f, rfl, hlt, href, ⟨rfl, rfl, rfl⟩, ?_⟩
    exact (h.setEntry 1 (g := { s.file f with ref := 1 }) (by rw [href]; rfl)).congr
      fun a => by rw [one_mul]

/-- `filedup` holds one more reference to its entry. -/
theorem wp_filedup (h : Exact e s) (hpos : 1 ≤ (s.file f).ref) :
    Wp NoRefPanic (filedup f) (fun _ s' => SameProcs s s' ∧
      Exact (fun a => e a + holds (some f) a) s') s := by
  unfold filedup modifyFile
  simp only [wp_bind, wp_get, wp_ite, wp_throw, wp_modify]
  refine ⟨fun hlt => absurd hpos (by omega), fun _ => ⟨⟨rfl, rfl, rfl⟩, ?_⟩⟩
  exact (h.setEntry 1 rfl).congr fun a => by rw [one_mul]

/-- `fileclose` drops a reference to its entry. -/
theorem wp_fileclose (h : Exact e s) (hpos : 1 ≤ (s.file f).ref) :
    Wp NoRefPanic (fileclose f) (fun _ s' => SameProcs s s' ∧
      Exact (fun a => e a - holds (some f) a) s') s := by
  unfold fileclose modifyFile
  simp only [wp_bind, wp_get, wp_ite, wp_throw, wp_modify]
  have hexact : ∀ {g : Entry}, g.ref = (s.file f).ref + -1 →
      Exact (fun a => e a - holds (some f) a) { s with file := Function.update s.file f g } :=
    fun hg => (h.setEntry (-1) hg).congr fun a => by ring
  refine ⟨fun hlt => absurd hpos (by omega), fun _ => ⟨fun _ => ?_, fun hlast => ?_⟩⟩
  · exact ⟨⟨rfl, rfl, rfl⟩, hexact rfl⟩
  · refine ⟨⟨rfl, rfl, rfl⟩, hexact ?_⟩
    dsimp only
    omega

/-- `fdalloc` fills a descriptor of the process, if one is empty. -/
theorem wp_fdalloc (h : Exact e s) (hp : s.state p = .runnable) (hf : f < NFILE) :
    Wp NoRefPanic (fdalloc p f) (fun r s' => r = none ∧ s' = s ∨
      ∃ fd, r = some fd ∧ fd < NOFILE ∧ s'.state = s.state ∧ s'.file = s.file ∧
        s'.ofile p fd = some f ∧ Exact (fun a => e a - holds (some f) a) s') s := by
  unfold fdalloc
  rw [wp_bind, wp_get]
  cases hfd : (List.range NOFILE).find? fun fd => (s.ofile p fd).isNone with
  | none => exact .inl ⟨rfl, rfl⟩
  | some fd =>
    have hlt : fd < NOFILE := List.mem_range.mp (List.mem_of_find?_eq_some hfd)
    have hempty : s.ofile p fd = none := by simpa using List.find?_some hfd
    unfold setFd
    simp only [wp_bind, wp_modify, wp_pure]
    refine .inr ⟨fd, rfl, hlt, trivial, trivial, by simp, ?_⟩
    refine (h.setFd hlt (some f) (fun g hg => Option.some.inj hg ▸ hf) (.inl hp)).congr
      fun a => ?_
    rw [hempty, holds_none]
    ring

/-- `argfd` returns the entry that a descriptor refers to. -/
theorem wp_argfd (p : ℕ) (fd : ℤ) (s : Tables) :
    Wp NoRefPanic (argfd p fd) (fun r s' => s' = s ∧
      ∀ f, r = some f → fd.toNat < NOFILE ∧ s.ofile p fd.toNat = some f) s := by
  unfold argfd
  rw [wp_bind, wp_get, wp_pure]
  refine ⟨rfl, fun f hf => ?_⟩
  split_ifs at hf with hrange
  exact ⟨by omega, hf⟩

/-! ## Calls on descriptors -/

/-- No reference is held by the kernel. -/
abbrev Settled (s : Tables) : Prop := Exact (fun _ => 0) s

/-- `dup` -/
theorem wp_sysDup (h : Settled s) (hp : s.state p = .runnable) (fd : ℤ) :
    Wp NoRefPanic (sysDup p fd) (fun _ s' => Settled s') s := by
  refine Wp.bind (wp_argfd p fd s) fun r s₁ hr => ?_
  obtain ⟨rfl, hr⟩ := hr
  cases r with
  | none => exact h
  | some f =>
    obtain ⟨-, hheld⟩ := hr f rfl
    obtain ⟨-, -, hf⟩ := h.slot p _ f hheld
    refine Wp.bind (wp_fdalloc h hp hf) fun r s₂ hr => ?_
    rcases hr with ⟨rfl, rfl⟩ | ⟨fd', rfl, -, -, hfile, -, h₂⟩
    · exact h
    · have hpos : 1 ≤ (s₂.file f).ref := by
        rw [hfile]
        exact h.ref_pos (.inl ⟨le_rfl, p, _, hheld⟩)
      refine Wp.bind (wp_filedup h₂ hpos) fun _ s₃ h₃ => ?_
      exact h₃.2.congr fun a => by ring

/-- `close` -/
theorem wp_sysClose (h : Settled s) (hp : s.state p = .runnable) (fd : ℤ) :
    Wp NoRefPanic (sysClose p fd) (fun _ s' => Settled s') s := by
  refine Wp.bind (wp_argfd p fd s) fun r s₁ hr => ?_
  obtain ⟨rfl, hr⟩ := hr
  cases r with
  | none => exact h
  | some f =>
    obtain ⟨hfd, hheld⟩ := hr f rfl
    have h₁ := h.setFd hfd none (fun g hg => absurd hg nofun) (.inl hp)
    rw [hheld] at h₁
    have hpos := h₁.ref_pos (f := f) (.inr (by simp))
    unfold setFd
    rw [wp_bind, wp_modify]
    refine Wp.bind (wp_fileclose h₁ hpos) fun _ s₂ h₂ => ?_
    exact h₂.2.congr fun a => by simp

/-- `open` -/
theorem wp_sysOpen (h : Settled s) (hp : s.state p = .runnable) (found : Bool) (omode : ℕ) :
    Wp NoRefPanic (sysOpen p found omode) (fun _ s' => Settled s') s := by
  unfold sysOpen
  rw [wp_ite]
  refine ⟨fun _ => h, fun _ => Wp.bind (wp_filealloc h) fun r s₁ hr => ?_⟩
  rcases hr with ⟨rfl, rfl, -⟩ | ⟨f, rfl, hf, -, hsame₁, h₁⟩
  · exact h
  refine Wp.bind (wp_fdalloc h₁ (hsame₁.1 ▸ hp) hf) fun r s₂ hr => ?_
  rcases hr with ⟨rfl, rfl⟩ | ⟨fd, rfl, -, -, -, -, h₂⟩
  · refine Wp.bind (wp_fileclose h₁ (h₁.ref_pos (.inr (by simp)))) fun _ s₃ h₃ => ?_
    exact h₃.2.congr fun a => by ring
  · unfold modifyFile
    rw [wp_bind, wp_modify, wp_pure]
    exact (h₂.setEntry 0 (by dsimp only; ring)).congr fun a => by ring

/-- Both ends of a pipe are given back, and `r` returned. -/
theorem wp_closeBoth {α : Type} {g : ℕ}
    (h : Exact (fun a => holds (some f) a + holds (some g) a) s) (r : α) :
    Wp NoRefPanic (do fileclose f; fileclose g; pure r)
      (fun r' s' => (r' = r ∧ SameProcs s s') ∧ Settled s') s := by
  have hpos : 1 ≤ (s.file f).ref := by
    refine h.ref_pos (.inr ?_)
    have := holds_nonneg (some g) f
    rw [holds_self]
    omega
  refine Wp.bind (wp_fileclose h hpos) fun _ s₁ h₁ => ?_
  have h₁' := h₁.2.congr (g := fun a => holds (some g) a) fun a => by ring
  refine Wp.bind (wp_fileclose h₁' (h₁'.ref_pos (.inr (by simp)))) fun _ s₂ h₂ => ?_
  exact ⟨⟨rfl, h₁.1.trans h₂.1⟩, h₂.2.congr fun a => by ring⟩

/-- `pipealloc` holds references to two entries, or gives back what it took. -/
theorem wp_pipealloc (h : Settled s) (page : Bool) :
    Wp NoRefPanic (pipealloc page) (fun r s' => SameProcs s s' ∧ (r = none ∧ Settled s' ∨
      ∃ f g, r = some (f, g) ∧ f < NFILE ∧ g < NFILE ∧
        Exact (fun a => holds (some f) a + holds (some g) a) s')) s := by
  refine Wp.bind (wp_filealloc h) fun r s₁ hr => ?_
  rcases hr with ⟨rfl, rfl, -⟩ | ⟨f, rfl, hf, -, hsame₁, h₁⟩
  · exact ⟨⟨rfl, rfl, rfl⟩, .inl ⟨rfl, h⟩⟩
  refine Wp.bind (wp_filealloc h₁) fun r s₂ hr => ?_
  rcases hr with ⟨rfl, rfl, -⟩ | ⟨g, rfl, hg, -, hsame₂, h₂⟩
  · refine Wp.bind (wp_fileclose h₁ (h₁.ref_pos (.inr (by simp)))) fun _ s₃ h₃ => ?_
    exact ⟨hsame₁.trans h₃.1, .inl ⟨rfl, h₃.2.congr fun a => by ring⟩⟩
  have hsame := hsame₁.trans hsame₂
  rw [wp_ite]
  refine ⟨fun _ => ?_, fun _ => ?_⟩
  · have h₂' := h₂.congr (g := fun a => holds (some f) a + holds (some g) a) fun a => by ring
    exact (wp_closeBoth h₂' none).mono fun r s₃ h₃ =>
      ⟨hsame.trans h₃.1.2, .inl ⟨h₃.1.1, h₃.2⟩⟩
  · unfold modifyFile
    simp only [wp_bind, wp_modify, wp_pure]
    refine ⟨hsame, .inr ⟨f, g, rfl, hf, hg, ?_⟩⟩
    have h₃ := h₂.setEntry (f := f) 0
      (g := { s₂.file f with type := .pipe, readable := true, writable := false })
      (by dsimp only; ring)
    exact (h₃.setEntry (f := g) 0 (by dsimp only; ring)).congr fun a => by ring

/-- `pipe` -/
theorem wp_sysPipe (h : Settled s) (hp : s.state p = .runnable) (argsOk page : Bool) :
    Wp NoRefPanic (sysPipe p argsOk page) (fun _ s' => Settled s') s := by
  unfold sysPipe
  rw [wp_ite]
  refine ⟨fun _ => h, fun _ => Wp.bind (wp_pipealloc h page) fun r s₁ hr => ?_⟩
  obtain ⟨hsame₁, ⟨rfl, h₁⟩ | ⟨f, g, rfl, hf, hg, h₁⟩⟩ := hr
  · exact h₁
  refine Wp.bind (wp_fdalloc h₁ (hsame₁.1 ▸ hp) hf) fun r s₂ hr => ?_
  rcases hr with ⟨rfl, rfl⟩ | ⟨fd0, rfl, hfd0, hstate₂, -, hofile, h₂⟩
  · exact (wp_closeBoth h₁ (-1)).mono fun _ _ h₂ => h₂.2
  have hp₂ : s₂.state p = .runnable := by rw [hstate₂, hsame₁.1, hp]
  refine Wp.bind (wp_fdalloc h₂ hp₂ hg) fun r s₃ hr => ?_
  rcases hr with ⟨rfl, rfl⟩ | ⟨fd1, rfl, -, -, -, -, h₃⟩
  · have h₃ := h₂.setFd hfd0 none (fun g hg => absurd hg nofun) (.inl hp₂)
    rw [hofile] at h₃
    unfold setFd
    rw [wp_bind, wp_modify]
    have h₃' := h₃.congr (g := fun a => holds (some f) a + holds (some g) a)
      fun a => by rw [holds_none]; ring
    exact (wp_closeBoth h₃' (-1)).mono fun _ _ h₄ => h₄.2
  · exact h₃.congr fun a => by ring

/-! ## Processes -/

/-- `allocproc` takes a slot that is not in use. -/
theorem wp_allocproc (h : Settled s) (kstack : Bool) :
    Wp NoRefPanic (allocproc kstack) (fun r s' => r = none ∧ Settled s' ∨
      ∃ np, r = some np ∧ np < NPROC ∧ s.state np = .unused ∧
        s' = { s with state := Function.update s.state np .embryo }) s := by
  unfold allocproc
  rw [wp_bind, wp_get]
  cases hnp : (List.range NPROC).find? fun q => s.state q = .unused with
  | none => exact .inl ⟨rfl, h⟩
  | some np =>
    have hlt : np < NPROC := List.mem_range.mp (List.mem_of_find?_eq_some hnp)
    have hunused : s.state np = .unused := by simpa using List.find?_some hnp
    unfold setState
    rw [wp_bind, wp_modify, wp_ite]
    refine ⟨fun _ => ?_, fun _ => .inr ⟨np, rfl, hlt, hunused, rfl⟩⟩
    rw [wp_bind, wp_modify, wp_pure]
    refine .inl ⟨rfl, ?_⟩
    have hback := h.setState .unused hlt (fun _ => h.idle np (.inl hunused)) s.parent
    dsimp only
    rw [Function.update_idem]
    exact hback

/-- The loop of `fork`: each descriptor of the parent is counted once more and then given to the
child.

**Proof sketch.** By induction on the list of descriptors. One that is not in use is passed over.
One that is refers to an entry whose count is positive, so `filedup` does not panic, and the surplus
of one is used up when the descriptor of the child is filled. -/
theorem wp_dupFiles {np : ℕ} (is : List ℕ) (hnodup : is.Nodup) (h : Settled s)
    (hnp : s.state np = .embryo) (his : ∀ i ∈ is, i < NOFILE ∧ s.ofile np i = none) :
    Wp NoRefPanic (dupFiles p np is) (fun _ s' => Settled s' ∧ s'.state = s.state) s := by
  induction is generalizing s with
  | nil => exact ⟨h, rfl⟩
  | cons i is ih =>
    obtain ⟨hi, hnodup⟩ := List.nodup_cons.mp hnodup
    obtain ⟨⟨hlt, hempty⟩, his⟩ := List.forall_mem_cons.mp his
    unfold dupFiles
    rw [wp_bind, wp_get]
    cases hheld : s.ofile p i with
    | none => exact ih hnodup h hnp his
    | some f =>
      obtain ⟨-, -, hf⟩ := h.slot p i f hheld
      rw [wp_bind]
      refine (wp_filedup h (h.ref_pos (.inl ⟨le_rfl, p, i, hheld⟩))).mono fun _ s₁ h₁ => ?_
      obtain ⟨⟨hstate, -, hofile⟩, h₁⟩ := h₁
      have hnp₁ : s₁.state np = .embryo := by rw [hstate, hnp]
      have h₂ := h₁.setFd hlt (some f) (fun g hg => Option.some.inj hg ▸ hf) (.inr hnp₁)
      rw [show s₁.ofile np i = none by rw [hofile, hempty]] at h₂
      unfold setFd
      rw [wp_bind, wp_modify]
      have h₂' := h₂.congr (g := fun _ => 0) fun a => by rw [holds_none]; ring
      refine (ih hnodup h₂' hnp₁ fun j hj => ?_).mono
        fun _ s₃ h₃ => ⟨h₃.1, h₃.2.trans hstate⟩
      have hji : j ≠ i := fun heq => hi (heq ▸ hj)
      refine ⟨(his j hj).1, ?_⟩
      dsimp only
      rw [Function.update_self, Function.update_of_ne hji, hofile]
      exact (his j hj).2

/-- `fork` -/
theorem wp_fork (h : Settled s) (p : ℕ) (kstack pgdir : Bool) :
    Wp NoRefPanic (fork p kstack pgdir) (fun _ s' => Settled s') s := by
  refine Wp.bind (wp_allocproc h kstack) fun r s₁ hr => ?_
  rcases hr with ⟨rfl, h₁⟩ | ⟨np, rfl, hlt, hunused, rfl⟩
  · exact h₁
  have hidle := h.idle np (.inl hunused)
  rw [wp_ite]
  refine ⟨fun _ => ?_, fun _ => ?_⟩
  · unfold setState
    rw [wp_bind, wp_modify, wp_pure]
    dsimp only
    rw [Function.update_idem]
    exact h.setState _ hlt (fun _ => hidle) s.parent
  · rw [wp_bind, wp_modify]
    have hembryo := h.setState .embryo hlt (fun hst => absurd hst (by decide))
      (Function.update s.parent np (some p))
    refine Wp.bind (wp_dupFiles _ List.nodup_range hembryo (by simp) fun i hi =>
      ⟨List.mem_range.mp hi, hidle i⟩) fun _ s₂ h₂ => ?_
    unfold setState
    rw [wp_bind, wp_modify, wp_pure]
    exact h₂.1.setState _ hlt (fun hst => absurd hst (by decide)) s₂.parent

/-- The loop of `exit`: each entry is closed and then its descriptor emptied.

**Proof sketch.** By induction on the list of descriptors. The entry of a descriptor in use has a
positive count, so `fileclose` does not panic; the count is then one too small, until the descriptor
is emptied. -/
theorem wp_closeFiles (fds : List ℕ) (h : Settled s) (hp : s.state p = .runnable)
    (hfds : ∀ fd ∈ fds, fd < NOFILE) :
    Wp NoRefPanic (closeFiles p fds) (fun _ s' => Settled s' ∧ s'.state = s.state ∧
      (∀ fd, s.ofile p fd = none → s'.ofile p fd = none) ∧
      ∀ fd ∈ fds, s'.ofile p fd = none) s := by
  induction fds generalizing s with
  | nil => exact ⟨h, rfl, fun _ hfd => hfd, fun fd hfd => absurd hfd List.not_mem_nil⟩
  | cons k fds ih =>
    obtain ⟨hlt, hfds⟩ := List.forall_mem_cons.mp hfds
    unfold closeFiles
    rw [wp_bind, wp_get]
    cases hheld : s.ofile p k with
    | none =>
      refine (ih h hp hfds).mono fun _ s' h' => ?_
      exact ⟨h'.1, h'.2.1, h'.2.2.1, List.forall_mem_cons.mpr ⟨h'.2.2.1 k hheld, h'.2.2.2⟩⟩
    | some f =>
      rw [wp_bind]
      refine (wp_fileclose h (h.ref_pos (.inl ⟨le_rfl, p, k, hheld⟩))).mono fun _ s₁ h₁ => ?_
      obtain ⟨⟨hstate, -, hofile⟩, h₁⟩ := h₁
      have hp₁ : s₁.state p = .runnable := by rw [hstate, hp]
      have h₂ := h₁.setFd hlt none (fun g hg => absurd hg nofun) (.inl hp₁)
      rw [show s₁.ofile p k = some f by rw [hofile, hheld]] at h₂
      unfold setFd
      rw [wp_bind, wp_modify]
      have h₂' := h₂.congr (g := fun _ => 0) fun a => by rw [holds_none]; ring
      refine (ih h₂' hp₁ hfds).mono fun _ s₃ h₃ => ?_
      obtain ⟨h₃, hstate₃, hkeep, hnone⟩ := h₃
      refine ⟨h₃, hstate₃.trans hstate, fun fd hfd => hkeep fd ?_,
        List.forall_mem_cons.mpr ⟨hkeep k (by simp), hnone⟩⟩
      dsimp only
      rw [Function.update_self]
      by_cases hk : fd = k
      · rw [hk, Function.update_self]
      · rw [Function.update_of_ne hk, hofile]
        exact hfd

/-- `exit` -/
theorem wp_exit (h : Settled s) (hp : s.state p = .runnable) :
    Wp NoRefPanic (exit p) (fun _ s' => Settled s') s := by
  unfold exit
  rw [wp_ite, wp_throw]
  refine ⟨fun _ => ⟨by decide, by decide⟩, fun _ => ?_⟩
  have hproc : p < NPROC := h.proc p (by rw [hp]; decide)
  refine Wp.bind (wp_closeFiles _ h hp fun fd hfd => List.mem_range.mp hfd) fun _ s₁ h₁ => ?_
  obtain ⟨h₁, hstate, -, hnone⟩ := h₁
  rw [wp_bind, wp_modify]
  unfold setState
  rw [wp_modify]
  refine h₁.setState _ hproc (fun _ fd => ?_) _
  -- a descriptor beyond the last one is empty anyway
  cases hfd : s₁.ofile p fd with
  | none => rfl
  | some f =>
    obtain ⟨-, hlt, -⟩ := h₁.slot p fd f hfd
    rw [hnone fd (List.mem_range.mpr hlt)] at hfd
    exact hfd.symm

/-- `wait` -/
theorem wp_wait (h : Settled s) : Wp NoRefPanic (wait p) (fun _ s' => Settled s') s := by
  unfold wait
  rw [wp_bind, wp_get]
  cases hq : (List.range NPROC).find? fun q => s.parent q = some p ∧ s.state q = .zombie with
  | none => exact h
  | some q =>
    have hlt : q < NPROC := List.mem_range.mp (List.mem_of_find?_eq_some hq)
    have hfound := List.find?_some hq
    rw [decide_eq_true_eq] at hfound
    rw [wp_bind, wp_modify]
    unfold setState
    rw [wp_bind, wp_modify, wp_pure]
    exact h.setState _ hlt (fun _ => h.idle q (.inr hfound.2)) _

/-! ## Sequences of calls -/

/-- One call.

**Proof sketch.** By cases on the call, each of which has its own specification. A call by a process
that is not running stops the run, but not with a panic of the counts. -/
theorem wp_call (h : Settled s) (p : ℕ) (c : Call) :
    Wp NoRefPanic (call p c) (fun _ s' => Settled s') s := by
  unfold call
  rw [wp_bind, wp_get, wp_ite, wp_throw]
  refine ⟨fun _ => ⟨by decide, by decide⟩, fun hp => ?_⟩
  rw [not_not] at hp
  cases c with
  | «open» found omode => exact wp_sysOpen h hp found omode
  | dup fd => exact wp_sysDup h hp fd
  | pipe argsOk page => exact wp_sysPipe h hp argsOk page
  | close fd => exact wp_sysClose h hp fd
  | fork kstack pgdir => exact wp_fork h p kstack pgdir
  | exit => exact Wp.bind (wp_exit h hp) fun _ _ h₁ => h₁
  | wait => exact wp_wait h

/-- A sequence of calls. -/
theorem wp_runCalls (h : Settled s) (cs : List (ℕ × Call)) :
    Wp NoRefPanic (runCalls cs) (fun _ s' => Settled s') s := by
  induction cs generalizing s with
  | nil => exact h
  | cons c cs ih => exact Wp.bind (wp_call h c.1 c.2) fun _ _ h₁ => ih h₁

/-- No entry is in use after `userinit`. -/
theorem settled_boot : Settled boot where
  counts := fun f => by
    have hzero : holders slots (fun x => boot.ofile x.1 x.2) f = 0 :=
      holders_eq_zero fun x _ => (Option.some_ne_none f).symm
    dsimp only
    rw [hzero]
    rfl
  slot := fun p fd f hf => absurd hf nofun
  idle := fun p _ fd => rfl
  proc := fun p hp => by
    unfold boot at hp
    dsimp only at hp
    split_ifs at hp with hinit
    · rw [hinit]
      decide
    · exact absurd rfl hp

/-- **Reference counts.** After every sequence of calls the count of each entry is the number of
descriptors that refer to it; whatever is called next, neither `filedup` nor `fileclose` panics; and
`filealloc` finds an entry exactly if there is one that no descriptor refers to, and finds only such
entries.

**Proof sketch.** Between calls every count is exact (`Settled`), which holds at the start and is
kept by each call (`wp_call`); the same specification excludes the two panics in whatever call comes
next. `filealloc` looks for the count 0 (`wp_filealloc`), which is exact and therefore belongs to an
entry without descriptors. -/
theorem counts_exact (cs : List (ℕ × Call)) (s : Tables)
    (h : (runCalls cs).run boot = .ok ((), s)) :
    (∀ f, (s.file f).ref = holders slots (fun x => s.ofile x.1 x.2) f) ∧
      (∀ p c err, (call p c).run s = .error err →
        err ≠ .panic "filedup" ∧ err ≠ .panic "fileclose") ∧
      ∀ r s', filealloc.run s = .ok (r, s') →
        (r = none ↔ ∀ f < NFILE, ∃ p fd, s.ofile p fd = some f) ∧
          ∀ f, r = some f → ∀ p fd, s.ofile p fd ≠ some f := by
  have hs : Settled s := (wp_runCalls settled_boot cs).of_ok h
  have hcount : ∀ f, (s.file f).ref = holders slots (fun x => s.ofile x.1 x.2) f := fun f =>
    (hs.counts f).trans (add_zero _)
  refine ⟨hcount, fun p c err herr => (wp_call hs p c).of_error herr, fun r s' hr => ?_⟩
  rcases (wp_filealloc hs).of_ok hr with ⟨rfl, -, hnone⟩ | ⟨f, rfl, hf, href, -⟩
  · refine ⟨iff_of_true rfl fun f hf => ?_, fun f hf => absurd hf nofun⟩
    have hpos : 0 < holders slots (fun x => s.ofile x.1 x.2) f := by
      have hne := hnone f hf
      rw [hcount f] at hne
      omega
    obtain ⟨x, -, hx⟩ := holders_pos.mp hpos
    exact ⟨x.1, x.2, hx⟩
  · have hfree : ∀ p fd, s.ofile p fd ≠ some f := by
      intro p fd hheld
      have := hs.ref_pos (.inl ⟨le_rfl, p, fd, hheld⟩)
      omega
    refine ⟨iff_of_false nofun fun hall => ?_, fun g hg => Option.some.inj hg ▸ hfree⟩
    obtain ⟨p, fd, hheld⟩ := hall f hf
    exact hfree p fd hheld

/-- A file is opened, its descriptor copied, and a child made. -/
def forkCalls : List (ℕ × Call) := [(0, .open true 0), (0, .dup 0), (0, .fork true true)]

/-- `counts_exact` for an entry with four descriptors. -/
theorem counts_exact_fork :
    ∃ s, (runCalls forkCalls).run boot = .ok ((), s) ∧ (s.file 0).ref = 4 ∧
      (s.file 0).ref = holders slots (fun x => s.ofile x.1 x.2) 0 := by
  have hrun : ∃ s, (runCalls forkCalls).run boot = .ok ((), s) ∧ (s.file 0).ref = 4 :=
    ⟨_, rfl, rfl⟩
  obtain ⟨s, hrun, href⟩ := hrun
  exact ⟨s, hrun, href, (counts_exact forkCalls s hrun).1 0⟩

end HgXv6.Descriptors
