import HgXv6.Kernel.MemoryRuns

set_option relaxedAutoImplicit false
set_option autoImplicit false

/-!
# Who has which memory after a run

What memory itself says of its frames, by the free list and the page tables: after every schedule
each frame has at most one holder, and none is lost unless a `fork` or an `exec` fails. The only
panics are those of `copyuvm`, and only a process that `sbrk` has left without memory can cause
them.

## Main definitions

* `HgXv6.Phys.Sys.holds` — who has which frames.
* `HgXv6.Phys.Act.need` — how many free frames are enough for a call.

## Main results

* `HgXv6.Phys.holds_run` — every frame has one holder.
* `HgXv6.Phys.goes_run` — when the kernel panics.
* `HgXv6.Phys.granted_run` — when calls succeed.
* `HgXv6.Phys.stack_run` — what a program finds on its stack when it has been loaded.
-/

namespace HgXv6.Phys

open Prog
open Disk (uintBytes)
open Sched (Slot)
open Vm (PGSIZE PHYSTOP PTE_P PTE_ADDR)

variable {s s' : Sys} {mem mem' : Mem} {f : ℕ} {fl : List ℕ} {i : Slot} {σ σ' : Users} {p : Proc}
  {I : Image} {L : Option Slot → Layout} {a : Act} {acts : List Act} {seen : List Event} {e : Stop}

/-! ## Who has which frames -/

/-- Who has which frames, as memory says it. -/
def Sys.holds (s : Sys) : Holder → Set ℕ
  | .free => {f | ∃ fl, FreeList fl s.mem ∧ f ∈ fl}
  | .kernel => s.mem.space s.kpgdir
  | .space i => {f | ∃ p, s.proc i = some p ∧ f ∈ s.mem.space p.pgdir}
  | .kstack i => {f | ∃ p, s.proc i = some p ∧ p.kstack = f * PGSIZE}
  | .cpustack => {f | f * PGSIZE ∈ s.cpustacks}
  | .pipe => {f | f * PGSIZE ∈ s.pipes}

/-- The frames of an address space that is in memory.

**Proof sketch.** The words of the directory and of the tables are those of the layout, so that the
frames found by walking them from the directory on are its own: the directory, a table for each
entry that is present, and for each entry of such a table that is in use the page, in the user part.
-/
theorem Layout.In.space {M : Layout} (h : M.In mem) : mem.space (M.dir * PGSIZE) = M.frames := by
  have hdir : ∀ i < 1024, mem.word (M.dir * PGSIZE + 4 * i) = pdeWord (M.table i) :=
    fun i hi => (word_eq hi).trans (h.dir i hi)
  have hentry : ∀ i t j, M.table i = some t → j < 1024 →
      mem.word (PTE_ADDR (pdeWord (some t)) + 4 * j) = M.entry (1024 * i + j) := by
    intro i t j ht hj
    rw [PTE_ADDR_pdeWord, word_eq hj]
    exact h.table i t ht j hj
  ext f
  constructor
  · rintro (hf | ⟨i, hi, hpresent, hf⟩ | ⟨i, hi, hpresent, j, hj, hthere, hf⟩)
    · exact ⟨.dir, congrArg some (Nat.eq_of_mul_eq_mul_right (by decide) hf.symm)⟩
    · rw [hdir i hi] at hpresent hf
      cases ht : M.table i with
      | none =>
        rw [ht] at hpresent
        exact absurd (Nat.zero_and _) hpresent
      | some t =>
        rw [ht, PTE_ADDR_pdeWord] at hf
        refine ⟨.table i, ht.trans (congrArg some ?_)⟩
        exact Nat.eq_of_mul_eq_mul_right (by decide) hf
    · rw [hdir i (by omega)] at hpresent hthere hf
      cases ht : M.table i with
      | none =>
        rw [ht] at hpresent
        exact absurd (Nat.zero_and _) hpresent
      | some t =>
        rw [ht, hentry i t j ht hj] at hthere hf
        refine ⟨.page (1024 * i + j), (if_pos ⟨by omega, hthere⟩).trans (congrArg some ?_)⟩
        rw [PTE_ADDR_div] at hf
        exact Nat.eq_of_mul_eq_mul_right (by decide) hf
  · rintro ⟨P, hP⟩
    cases P with
    | dir => exact .inl (congrArg (· * PGSIZE) (Option.some.inj hP).symm)
    | table i =>
      change M.table i = some f at hP
      have hi : i < 1024 := by
        by_contra hge
        rw [h.range i (not_lt.mp hge)] at hP
        cases hP
      refine .inr (.inl ⟨i, hi, ?_, ?_⟩)
      · rw [hdir i hi, hP]
        exact pdeWord_present f
      · rw [hdir i hi, hP, PTE_ADDR_pdeWord]
    | page q =>
      change (if q < 2 ^ 19 ∧ M.entry q &&& PTE_P ≠ 0 then _ else none) = some f at hP
      by_cases hq : q < 2 ^ 19 ∧ M.entry q &&& PTE_P ≠ 0
      · rw [if_pos hq] at hP
        obtain ⟨hlt, hpresent⟩ := hq
        cases ht : M.table (q / 1024) with
        | none =>
          rw [h.missing q ht] at hpresent
          exact absurd (Nat.zero_and _) hpresent
        | some t =>
          have hword := hentry (q / 1024) t (q % 1024) ht (Nat.mod_lt q (by decide))
          rw [Nat.div_add_mod] at hword
          refine .inr (.inr ⟨q / 1024, by omega, ?_, q % 1024, Nat.mod_lt q (by decide), ?_, ?_⟩)
          · rw [hdir _ (by omega), ht]
            exact pdeWord_present t
          · rw [hdir _ (by omega), ht, hword]
            exact hpresent
          · rw [hdir _ (by omega), ht, hword, PTE_ADDR_div, Option.some.inj hP]
      · rw [if_neg hq] at hP
        cases hP

/-- There is one list of free frames. -/
theorem FreeList.mem_iff {fl' : List ℕ} (h : FreeList fl mem) (h' : FreeList fl' mem) :
    f ∈ fl' ↔ f ∈ fl := by
  have hnull : ∀ {l : List ℕ}, FreeList l mem → 0 ∉ l.map link := by
    intro l hl hmem
    obtain ⟨g, hg, hzero⟩ := List.mem_map.mp hmem
    exact link_ne_zero (hl.usable g hg).lt hzero
  have hsame : fl.map link = fl'.map link := h.chain.unique h'.chain (hnull h) (hnull h')
  have hback : ∀ {l l' : List ℕ}, FreeList l mem → FreeList l' mem → l.map link = l'.map link →
      f ∈ l → f ∈ l' := by
    intro l l' hl hl' heq hf
    have hmem : link f ∈ l'.map link := heq ▸ List.mem_map_of_mem hf
    obtain ⟨g, hg, hlink⟩ := List.mem_map.mp hmem
    have hsize : g * PGSIZE = f * PGSIZE := by
      rw [← V2P_link (hl'.usable g hg).lt, ← V2P_link (hl.usable f hf).lt, hlink]
    exact Nat.eq_of_mul_eq_mul_right (by decide) hsize ▸ hg
  exact ⟨hback h' h hsame.symm, hback h h' hsame⟩

/-- Memory says who has which frames. -/
theorem Inv.holds (h : Inv L fl σ s) : s.holds = s.holding L fl := by
  funext k
  cases k with
  | free =>
    ext f
    exact ⟨fun ⟨fl', hfree, hf⟩ => (h.free.mem_iff hfree).mp hf, fun hf => ⟨fl, h.free, hf⟩⟩
  | kernel =>
    rw [Sys.holds, Sys.holding, h.kpgdir, h.kernel.space]
  | space i =>
    ext f
    have hframes : ∀ p, s.proc i = some p → s.mem.space p.pgdir = (L (some i)).frames := by
      intro p hp
      obtain ⟨I, -, hshown⟩ := h.shown hp
      rw [hshown.pgdir, hshown.layout.space]
    constructor
    · rintro ⟨p, hp, hf⟩
      exact ⟨by rw [hp]; exact Option.some_ne_none p, hframes p hp ▸ hf⟩
    · rintro ⟨hne, hf⟩
      obtain ⟨p, hp⟩ := Option.ne_none_iff_exists'.mp hne
      exact ⟨p, hp, (hframes p hp).symm ▸ hf⟩
  | kstack i => rfl
  | cpustack => rfl
  | pipe => rfl

/-- **Every frame has one holder**: after every schedule no frame is used twice, neither for two
processes nor for two purposes, and if no `fork` and no `exec` has failed, none is lost.

**Proof sketch.** After the boot the invariant holds, and every usable frame is free or in use
(`Wp.of_ok`). Every step keeps the invariant, which says that no frame is used twice, and keeps the
second part unless it fails (`inv_run`). -/
theorem holds_run {ncpu : ℕ} {init : List UInt8} {r : ℕ × List ℕ × Proc}
    (h : Bootable ncpu init mem) (hmain : (main ncpu init).run mem = .ok (r, mem'))
    (hok : ∀ a ∈ acts, a.Ok) (hrun : Reaction.run step acts (Sys.boot r mem') = .goes s' seen) :
    (∀ f k k', f ∈ s'.holds k → f ∈ s'.holds k' → k = k') ∧
      ((∀ o ∈ seen, o.failed = false) → ∀ f, mem.Usable f → ∃! k, f ∈ s'.holds k) := by
  obtain ⟨L, fl, hinv, hall, -⟩ := h.main.of_ok hmain
  obtain ⟨L', fl', σ, -, hinv', hheld⟩ := inv_run hinv hok hrun
  rw [hinv'.holds]
  refine ⟨fun f k k' => hinv'.shared k k' f, fun hfailed f hf => ?_⟩
  obtain ⟨k, hk⟩ := hheld hfailed (hall f hf)
  exact ⟨k, hk, fun k' hk' => hinv'.shared k' k f hk' hk⟩

/-- A frame of the small machine, when there are two processes. -/
theorem holds_run_family : ∃ r mem' s', (main 2 [0xeb, 0xfe]).run bareMem = .ok (r, mem') ∧
    Reaction.run step family (Sys.boot r mem') = .goes s' familySeen ∧
    (∀ f k k', f ∈ s'.holds k → f ∈ s'.holds k' → k = k') ∧ ∃! k, 0x200 ∈ s'.holds k := by
  obtain ⟨r, mem', s', hmain, hrun, -⟩ := family_run
  obtain ⟨hone, hall⟩ := holds_run bootable_bare hmain family_ok hrun
  exact ⟨r, mem', s', hmain, hrun, hone, hall (by simp [familySeen, Event.failed]) 0x200
    ⟨by decide, by decide, by decide⟩⟩

/-! ## Panics -/

theorem Sys.call_fails {α : Type} {m : M α} {next : α → Sys → Sys × Event} {E : Stop → Prop}
    {Q : α → Mem → Prop} (h : Wp E m Q s.mem) (hcall : s.call m next = .fails e) : E e := by
  unfold Sys.call at hcall
  cases hrun : m.run s.mem with
  | error e' =>
    rw [hrun] at hcall
    cases hcall
    exact h.of_error hrun
  | ok x =>
    rw [hrun] at hcall
    cases hcall

theorem Sys.act_fails {m : Proc → Reaction Stop Sys Event} (h : s.act i m = .fails e) :
    ∃ p, s.proc i = some p ∧ m p = .fails e := by
  unfold Sys.act at h
  cases hp : s.proc i with
  | none =>
    rw [hp] at h
    cases h
  | some p =>
    rw [hp] at h
    exact ⟨p, rfl, h⟩

/-- **Which actions panic**: only `fork`, for a process that lacks a page.

**Proof sketch.** One case for each action. The lemmas about the functions have no errors but those
of `copyuvm`, which `fork` calls, so that every other action either is not possible or goes on; and
`copyuvm` stops only at a page below the size of the process that its image does not have. -/
theorem inv_fails (h : Inv L fl σ s) (hok : a.Ok) (hstep : step a s = .fails e) :
    ∃ i I, a = .fork i ∧ σ i = some I ∧ CopyStop I.sz I.page e := by
  cases a with
  | fork i =>
    obtain ⟨p, hp, hstep⟩ := Sys.act_fails hstep
    obtain ⟨I, hI, -⟩ := h.shown hp
    cases hfind : (List.finRange _).find? fun j => (s.proc j).isNone with
    | none =>
      rw [hfind] at hstep
      cases hstep
    | some j =>
      rw [hfind] at hstep
      have hj : s.proc j = none := by simpa using List.find?_some hfind
      exact ⟨i, I, rfl, hI, Sys.call_fails (h.fork hp hI hj) hstep⟩
  | sbrk i n =>
    obtain ⟨p, hp, hstep⟩ := Sys.act_fails hstep
    obtain ⟨I, hI, -⟩ := h.shown hp
    exact (Sys.call_fails (h.growproc (E := fun _ => False) hp hI n) hstep).elim
  | exec i file argv =>
    obtain ⟨p, hp, hstep⟩ := Sys.act_fails hstep
    exact (Sys.call_fails (h.exec (E := fun _ => False) hp hok.1 hok.2) hstep).elim
  | reap i =>
    obtain ⟨p, hp, hstep⟩ := Sys.act_fails hstep
    exact (Sys.call_fails (h.reap (E := fun _ => False) hp) hstep).elim
  | load i va =>
    obtain ⟨p, hp, hstep⟩ := Sys.act_fails hstep
    obtain ⟨I, hI, -⟩ := h.shown hp
    exact (Sys.call_fails (h.readByte (E := fun _ => False) hp hI hok) hstep).elim
  | store i va b =>
    obtain ⟨p, hp, hstep⟩ := Sys.act_fails hstep
    obtain ⟨I, hI, -⟩ := h.shown hp
    exact (Sys.call_fails (h.writeByte (E := fun _ => False) hp hI hok b) hstep).elim
  | pipealloc =>
    rw [step] at hstep
    exact (Sys.call_fails (h.pipealloc (E := fun _ => False)) hstep).elim
  | pipeclose k =>
    rw [step] at hstep
    cases hk : s.pipes[k]? with
    | none =>
      rw [hk] at hstep
      cases hstep
    | some page =>
      rw [hk] at hstep
      exact (Sys.call_fails (h.pipeclose (E := fun _ => False) hk) hstep).elim

/-- No image has lost pages. -/
def Users.Full (σ : Users) : Prop := ∀ i I, σ i = some I → I.Full

theorem Users.Full.update (h : σ.Full) (hI : I.Full) :
    Users.Full (Function.update σ i (some I)) := by
  intro j J hJ
  by_cases hj : j = i
  · rw [hj, Function.update_self] at hJ
    exact Option.some.inj hJ ▸ hI
  · rw [Function.update_of_ne hj] at hJ
    exact h j J hJ

theorem Image.Full.load {file : List UInt8} {k off : ℕ} {J : Image} (h : I.Full)
    (hload : Image.load file k off I = some J) : J.Full := by
  induction k generalizing off I with
  | zero =>
    rw [Image.load] at hload
    exact Option.some.inj hload ▸ h
  | succ k ih =>
    rw [Image.load] at hload
    split_ifs at hload with hin
    dsimp only at hload
    split_ifs at hload with htype hbad hzero hfile
    · exact ih h hload
    · exact ih h.resize.write hload

theorem Image.Full.push {base sp sp' : ℕ} {argv : List (List UInt8)} {ptrs ptrs' : List ℕ}
    {J : Image} (h : I.Full) (hpush : Image.push base argv sp ptrs I = some (sp', ptrs', J)) :
    J.Full := by
  induction argv generalizing sp ptrs I with
  | nil =>
    rw [Image.push] at hpush
    obtain ⟨-, -, rfl⟩ : sp = sp' ∧ ptrs = ptrs' ∧ I = J := by
      simpa only [Option.some.injEq, Prod.mk.injEq] using hpush
    exact h
  | cons arg argv ih =>
    rw [Image.push] at hpush
    split_ifs at hpush with hbad
    exact ih h.write hpush

/-- A program that is loaded has all its pages. -/
theorem Image.Full.exec {file : List UInt8} {argv : List (List UInt8)} {J : Image} {eip esp : ℕ}
    (h : Image.exec file argv = some (J, eip, esp)) : J.Full := by
  have hempty : Image.empty.Full := fun q hq => absurd hq (Nat.not_lt_zero _)
  unfold Image.exec at h
  extract_lets elf at h
  split_ifs at h with hbad
  obtain ⟨I₀, hload, h⟩ := Option.bind_eq_some_iff.mp h
  unfold Image.start at h
  dsimp only at h
  split_ifs at h with htop
  obtain ⟨⟨sp, ptrs, I₂⟩, hpush, h⟩ := Option.bind_eq_some_iff.mp h
  dsimp only at h
  split_ifs at h with hsmall
  obtain ⟨rfl, -⟩ := Prod.mk.inj (Option.some.inj h)
  exact ((hempty.load hload).resize.protect.push hpush).write

/-- `sbrk` has taken away all memory of a process. -/
def Event.emptied : Event → Prop
  | .sbrk _ n none => n.toInt < 0
  | _ => False

/-- No process lacks a page, as long as no `sbrk` has taken away all memory of a process.

**Proof sketch.** One case for each event. A fork copies an image; an `exec` starts from the empty
image and fills the pages as it grows (`Image.Full.exec`); an `sbrk` that succeeds has all pages up
to the new size; and an `sbrk` that fails leaves the image, unless it has taken away all memory,
which is excluded. -/
theorem Users.Full.step {o : Event} (h : σ.Full) (ho : ¬o.emptied)
    (hacc : accept o σ = some σ') : σ'.Full := by
  cases o with
  | forked i r =>
    obtain ⟨I, hI, hacc⟩ := Option.bind_eq_some_iff.mp hacc
    cases r with
    | none => exact Option.some.inj hacc ▸ h
    | some j =>
      dsimp only at hacc
      split_ifs at hacc with hj
      exact Option.some.inj hacc ▸ h.update (h i I hI)
  | sbrk i n r =>
    obtain ⟨I, hI, hacc⟩ := Option.bind_eq_some_iff.mp hacc
    obtain ⟨J, hJ, hacc⟩ := Option.bind_eq_some_iff.mp hacc
    refine Option.some.inj hacc ▸ h.update ?_
    cases r with
    | none =>
      rw [Image.sbrk] at hJ
      split_ifs at hJ with hpos hzero
      · exact Option.some.inj hJ ▸ h i I hI
      · have hnneg : ¬n.toInt < 0 := ho
        have hn0 : n.toInt = 0 := by omega
        intro q hq
        cases hJ
        change q * PGSIZE < I.sz at hq
        omega
    | some addr =>
      rw [Image.sbrk] at hJ
      split_ifs at hJ with hbad hneg
      · exact Option.some.inj hJ ▸ h i I hI
      · exact Option.some.inj hJ ▸ (h i I hI).resize
  | exec i file argv r =>
    obtain ⟨I, hI, hacc⟩ := Option.bind_eq_some_iff.mp hacc
    cases r with
    | none => exact Option.some.inj hacc ▸ h
    | some r =>
      obtain ⟨⟨J, eip, esp⟩, hexec, hacc⟩ := Option.bind_eq_some_iff.mp hacc
      dsimp only at hacc
      split_ifs at hacc with heq
      exact Option.some.inj hacc ▸ h.update (Image.Full.exec hexec)
  | reaped i =>
    obtain ⟨I, hI, hacc⟩ := Option.bind_eq_some_iff.mp hacc
    intro j J hJ
    rw [← Option.some.inj hacc] at hJ
    by_cases hj : j = i
    · rw [hj, Function.update_self] at hJ
      cases hJ
    · rw [Function.update_of_ne hj] at hJ
      exact h j J hJ
  | load i va r =>
    obtain ⟨I, hI, hacc⟩ := Option.bind_eq_some_iff.mp hacc
    split_ifs at hacc with heq
    exact Option.some.inj hacc ▸ h
  | store i va b done =>
    obtain ⟨I, hI, hacc⟩ := Option.bind_eq_some_iff.mp hacc
    split_ifs at hacc with heq hdone
    · exact Option.some.inj hacc ▸ h.update (h i I hI).write
    · exact Option.some.inj hacc ▸ h
  | pipe => exact Option.some.inj hacc ▸ h

theorem Users.Full.run (h : σ.Full) (ho : ∀ o ∈ seen, ¬o.emptied)
    (hacc : accepts accept seen σ = some σ') : σ'.Full := by
  induction seen generalizing σ with
  | nil => exact Option.some.inj hacc ▸ h
  | cons o seen ih =>
    rw [List.forall_mem_cons] at ho
    obtain ⟨σ₁, hfirst, hrest⟩ := Option.bind_eq_some_iff.mp hacc
    exact ih (h.step ho.1 hfirst) ho.2 hrest

/-- The image of the first process lacks no page. -/
theorem Users.Full.boot (init : List UInt8) : Users.Full (Users.boot init) := by
  have hnone : Users.Full fun _ => none := fun i I hI => by cases hI
  exact hnone.update (Image.Full.init init)

/-- **When the kernel panics**: behind every schedule an action is not possible, or the system goes
on, or it is a `fork` that ends with one of the two panics of `copyuvm`, and there has been an
`sbrk` that has taken away all memory of a process.

**Proof sketch.** The invariant holds behind the schedule (`inv_run`). An action that fails there is
a `fork` of a process that lacks a page below its size (`inv_fails`); and as the first process lacks
none, some `sbrk` of the schedule must have emptied a process (`Users.Full.run`). -/
theorem goes_run {ncpu : ℕ} {init : List UInt8} {r : ℕ × List ℕ × Proc}
    (h : Bootable ncpu init mem) (hmain : (main ncpu init).run mem = .ok (r, mem'))
    (hok : ∀ a ∈ acts, a.Ok) (hrun : Reaction.run step acts (Sys.boot r mem') = .goes s' seen)
    (ha : a.Ok) : step a s' = .off ∨ (∃ t o, step a s' = .goes t [o]) ∨
      ∃ i, a = .fork i ∧ (∃ o ∈ seen, o.emptied) ∧
        (step a s' = .fails (.panic "copyuvm: pte should exist") ∨
          step a s' = .fails (.panic "copyuvm: page not present")) := by
  obtain ⟨L, fl, hinv, -⟩ := h.main.of_ok hmain
  obtain ⟨L', fl', σ', hacc, hinv', -⟩ := inv_run hinv hok hrun
  cases hstep : step a s' with
  | off => exact .inl rfl
  | goes t o =>
    obtain ⟨o, rfl, -⟩ := inv_step hinv' ha hstep
    exact .inr (.inl ⟨t, o, rfl⟩)
  | fails e =>
    obtain ⟨i, I, rfl, hI, hpanic, q, hq, hnone⟩ := inv_fails hinv' ha hstep
    refine .inr (.inr ⟨i, rfl, ?_, hpanic.imp (congrArg _) (congrArg _)⟩)
    by_contra hnot
    have hfull : ∀ o ∈ seen, ¬o.emptied := fun o ho hem => hnot ⟨o, ho, hem⟩
    exact (Users.Full.boot init).run hfull hacc i I hI q hq hnone

/-- A `fork` of the child does not panic. -/
theorem goes_run_family : ∃ r mem' s', (main 2 [0xeb, 0xfe]).run bareMem = .ok (r, mem') ∧
    Reaction.run step family (Sys.boot r mem') = .goes s' familySeen ∧
    (step (.fork secondSlot) s' = .off ∨ ∃ t o, step (.fork secondSlot) s' = .goes t [o]) := by
  obtain ⟨r, mem', s', hmain, hrun, -⟩ := family_run
  refine ⟨r, mem', s', hmain, hrun, ?_⟩
  rcases goes_run bootable_bare hmain family_ok hrun (a := .fork secondSlot) trivial with
    hoff | hgoes | ⟨i, -, hemptied, -⟩
  · exact .inl hoff
  · exact .inr hgoes
  · simp [familySeen, Event.emptied] at hemptied

/-! ## Calls that succeed -/

/-- How many free frames are enough for a call of a process with the image `I`. -/
def Act.need (I : Image) : Act → Option ℕ
  | .fork _ => some (1026 + pages I.sz)
  | .sbrk _ n =>
    if 0 < n.toInt ∧ I.sz + n.toInt < KERNBASE then some (1025 + pages (I.sz + n.toInt).toNat)
    else none
  | .exec _ file argv => (Image.exec file argv).map fun x => 1025 + pages x.1.sz
  | _ => none

/-- The process that makes a call. -/
def Act.caller : Act → Option Slot
  | .fork i => some i
  | .sbrk i _ => some i
  | .exec i _ _ => some i
  | _ => none

/-- A call has returned an error. -/
def Event.error : Event → Bool
  | .forked _ none => true
  | .sbrk _ _ none => true
  | .exec _ _ _ none => true
  | _ => false

/-- **A call succeeds** if there are enough free frames.

**Proof sketch.** One case for each call. The lemmas about `fork`, `growproc` and `exec` say of a
call that has failed for what it failed: the free frames were at most the pages of the image and the
tables for them, or the size was too large, or the file could not be loaded. By the assumptions none
of these is the case. -/
theorem inv_granted {m : ℕ} (h : Inv L fl σ s) (hI : σ i = some I) (ha : a.Ok)
    (hcaller : a.caller = some i) (hneed : a.need I = some m) (hfl : m < fl.length)
    (hslot : a = .fork i → ∃ j, s.proc j = none) (hfull : I.Full) :
    ∃ t o, step a s = .goes t [o] ∧ o.error = false := by
  obtain ⟨p, hp⟩ := h.exists_proc hI
  cases a with
  | fork k =>
    obtain rfl : k = i := Option.some.inj hcaller
    obtain rfl : 1026 + pages I.sz = m := Option.some.inj hneed
    obtain ⟨j, hj⟩ := hslot rfl
    cases hfind : (List.finRange _).find? fun j => (σ j).isNone with
    | none =>
      have hnot := List.find?_eq_none.mp hfind j (List.mem_finRange j)
      rw [← h.isNone_proc, hj] at hnot
      exact absurd rfl hnot
    | some j =>
      obtain ⟨L', fl', t, hstep, -⟩ := h.exists_fork hI hfull hfl hfind
      exact ⟨t, _, hstep, rfl⟩
  | sbrk k n =>
    obtain rfl : k = i := Option.some.inj hcaller
    rw [Act.need] at hneed
    split_ifs at hneed with hn
    obtain ⟨hpos, htop⟩ := hn
    have hm := Option.some.inj hneed
    obtain ⟨r, mem', hpost, hcall⟩ :=
      Sys.exists_call (h.growproc (E := fun _ => False) hp hI n) fun _ => id
    rw [step, Sys.act, hp]
    refine ⟨_, _, hcall, ?_⟩
    cases r with
    | none =>
      rcases hpost.1 rfl hpos with hbig | hshort
      · omega
      · omega
    | some sz => rfl
  | exec k file argv =>
    obtain rfl : k = i := Option.some.inj hcaller
    obtain ⟨x, hx, hm⟩ := Option.map_eq_some_iff.mp hneed
    obtain ⟨r, mem', hpost, hcall⟩ :=
      Sys.exists_call (h.exec (E := fun _ => False) hp ha.1 ha.2) fun _ => id
    rw [step, Sys.act, hp]
    refine ⟨_, _, hcall, ?_⟩
    rcases hpost with ⟨-, hshort, -⟩ | ⟨new, J, M, fl', rfl, -⟩
    · have hle := hshort x.1 (by rw [hx]; rfl)
      omega
    · rfl
  | _ => cases hcaller

/-- **Calls fail only for want of memory**: behind every schedule in which no `sbrk` has taken away
all memory of a process, a `fork`, a growing `sbrk` or an `exec` of a program that can be loaded
succeeds if there are enough free frames, and an entry of `ptable` for a `fork`.

**Proof sketch.** The invariant holds behind the schedule, for the images of the specification
(`inv_run`), the free frames are counted by the length of the free list, and the image of the caller
lacks no page, as no `sbrk` has emptied a process; so `inv_granted` applies. -/
theorem granted_run {ncpu m : ℕ} {init : List UInt8} {r : ℕ × List ℕ × Proc}
    (h : Bootable ncpu init mem) (hmain : (main ncpu init).run mem = .ok (r, mem'))
    (hok : ∀ a ∈ acts, a.Ok) (hrun : Reaction.run step acts (Sys.boot r mem') = .goes s' seen)
    (hseen : ∀ o ∈ seen, ¬o.emptied) (hacc : accepts accept seen (Users.boot init) = some σ)
    (hI : σ i = some I) (ha : a.Ok) (hcaller : a.caller = some i) (hneed : a.need I = some m)
    (hfree : m < (s'.holds .free).ncard) (hslot : a = .fork i → ∃ j, s'.proc j = none) :
    ∃ t o, step a s' = .goes t [o] ∧ o.error = false := by
  obtain ⟨L, fl, hinv, -⟩ := h.main.of_ok hmain
  obtain ⟨L', fl', σ', hacc', hinv', -⟩ := inv_run hinv hok hrun
  obtain rfl : σ' = σ := Option.some.inj (hacc'.symm.trans hacc)
  have hcount : (s'.holds .free).ncard = fl'.length := by
    rw [hinv'.holds]
    exact ncard_list hinv'.free.nodup
  exact inv_granted hinv' hI ha hcaller hneed (hcount ▸ hfree) hslot
    ((Users.Full.boot init).run hseen hacc i I hI)

/-- A `fork` of the child succeeds. -/
theorem granted_run_family : ∃ r mem' s', (main 2 [0xeb, 0xfe]).run bareMem = .ok (r, mem') ∧
    Reaction.run step family (Sys.boot r mem') = .goes s' familySeen ∧
    ∃ t o, step (.fork secondSlot) s' = .goes t [o] ∧ o.error = false := by
  obtain ⟨r, mem', s', hmain, hrun, L, fl, hinv, hmany⟩ := family_run
  have hacc : accepts accept familySeen (Users.boot [0xeb, 0xfe]) = some familyUsers := rfl
  have hcount : (s'.holds .free).ncard = fl.length := by
    rw [hinv.holds]
    exact ncard_list hinv.free.nodup
  have hthird : ∃ j, s'.proc j = none :=
    ⟨⟨2, by decide⟩, Option.isNone_iff_eq_none.mp ((hinv.isNone_proc _).trans rfl)⟩
  refine ⟨r, mem', s', hmain, hrun, granted_run bootable_bare hmain family_ok hrun
    (by simp [familySeen, Event.emptied]) hacc (I := (Image.init [0xeb, 0xfe]).write 4 [9]) rfl
    trivial rfl rfl ?_ fun _ => hthird⟩
  have hpages : 1026 + pages ((Image.init [0xeb, 0xfe]).write 4 [9]).sz = 1027 := by decide
  rw [hcount, hpages]
  omega

/-! ## What a program finds on its stack -/

/-- The program of a process finds the bytes from an address on. -/
def Sys.finds (i : Slot) (va : ℕ) (bs : List UInt8) (s : Sys) : Prop :=
  ∃ p, s.proc i = some p ∧
    ∀ k < bs.length, (readByte p (va + k)).run s.mem = .ok (some (bs.getD k 0), s.mem)

/-- What is in the image of a process, its program finds. -/
theorem Inv.finds {va : ℕ} {bs : List UInt8} (h : Inv L fl σ s) (hI : σ i = some I)
    (hbytes : bytesAt I.page va bs) : s.finds i va bs := by
  obtain ⟨p, hp⟩ := h.exists_proc hI
  obtain ⟨I', hI', hshown⟩ := h.shown hp
  obtain rfl : I = I' := Option.some.inj (hI.symm.trans hI')
  refine ⟨p, hp, fun k hk => ?_⟩
  obtain ⟨pg, hpage, huser, hdata⟩ := hbytes k hk
  obtain ⟨-, hq, -⟩ := hshown.has.page hpage
  have hva : va + k < 2 ^ 32 := by
    unfold PGSIZE at hq
    omega
  have hget : I.get (va + k) = some (bs.getD k 0) := by
    rw [Image.get, hpage]
    dsimp only
    rw [if_pos huser, hdata]
  obtain ⟨r, mem', hrun, rfl, rfl⟩ := (h.readByte (E := fun _ => False) hp hI hva).total
  rw [hrun, hget]

/-- **The stack of a program that is loaded**: behind an `exec`, whatever has gone before, the
program finds on its stack a return address, the number of the arguments, the address of the
argument vector, and the vector, which ends with a null pointer; and at the addresses in it the
arguments, each with its `'\0'`.

**Proof sketch.** The event of the `exec` is accepted by the specification, so that the image of the
process is the one that `Image.exec` builds, and the invariant holds for it. What stands on its
stack is `bytesAt_exec`, and what is in the image the program reads (`Inv.finds`). -/
theorem stack_run {ncpu eip esp : ℕ} {init file : List UInt8} {argv : List (List UInt8)}
    {r : ℕ × List ℕ × Proc} (h : Bootable ncpu init mem)
    (hmain : (main ncpu init).run mem = .ok (r, mem')) (hok : ∀ a ∈ acts, a.Ok)
    (hexec : (Act.exec i file argv).Ok)
    (hrun : Reaction.run step (acts ++ [.exec i file argv]) (Sys.boot r mem') =
      .goes s' (seen ++ [.exec i file argv (some (eip, esp))])) :
    ∃ ptrs : List ℕ, s'.finds i esp
        ((([0xffffffff, argv.length, esp + 12] ++ ptrs) ++ [0]).flatMap uintBytes) ∧
      List.Forall₂ (fun ptr arg => s'.finds i ptr (arg ++ [0])) ptrs argv := by
  obtain ⟨L, fl, hinv, -⟩ := h.main.of_ok hmain
  obtain ⟨s₁, seen₁, seen₂, hbefore, hlast, hseen⟩ := Reaction.run_append.mp hrun
  obtain ⟨s₂, seen₃, seen₄, hstep, hnil, rfl⟩ := Reaction.run_cons.mp hlast
  obtain ⟨rfl, rfl⟩ := Reaction.run_nil.mp hnil
  obtain ⟨L₁, fl₁, σ₁, -, hinv₁, -⟩ := inv_run hinv hok hbefore
  obtain ⟨o, rfl, L₂, fl₂, σ₂, hacc, hinv₂, -⟩ := inv_step hinv₁ hexec hstep
  obtain ⟨-, ho⟩ := List.append_inj' hseen rfl
  obtain rfl := (List.singleton_injective ho).symm
  obtain ⟨I, -, hacc⟩ := Option.bind_eq_some_iff.mp hacc
  obtain ⟨⟨J, eip', esp'⟩, himage, hacc⟩ := Option.bind_eq_some_iff.mp hacc
  dsimp only at hacc
  split_ifs at hacc with heq
  obtain ⟨rfl, rfl⟩ := heq
  have hJ : σ₂ i = some J := by
    rw [← Option.some.inj hacc, Function.update_self]
  obtain ⟨ptrs, hstack, hargs⟩ := bytesAt_exec himage
  exact ⟨ptrs, hinv₂.finds hJ hstack, hargs.imp fun ptr arg hbytes => hinv₂.finds hJ hbytes⟩

/-- What is seen of an `exec`. -/
theorem exec_event {t : Sys} {o : Event} {file : List UInt8} {argv : List (List UInt8)}
    (h : step (.exec i file argv) s = .goes t [o]) : ∃ r, o = .exec i file argv r := by
  obtain ⟨p, -, h⟩ := Sys.act_goes h
  unfold Sys.call at h
  cases hrun : (exec p.pgdir file argv).run s.mem with
  | error e =>
    rw [hrun] at h
    cases h
  | ok x =>
    rw [hrun] at h
    obtain ⟨-, ho⟩ := Reaction.goes.inj h
    rw [← List.singleton_injective ho]
    cases x.1 with
    | none => exact ⟨none, rfl⟩
    | some new => exact ⟨some (new.eip, new.esp), rfl⟩

/-- A file that can be loaded, without any segments. -/
def headerOnly : List UInt8 := [0x7f, 0x45, 0x4c, 0x46] ++ List.replicate 48 0

/-- The first process loads that file with one argument. -/
theorem stack_run_first : ∃ r mem' s' eip esp, (main 2 [0xeb, 0xfe]).run bareMem = .ok (r, mem') ∧
    Reaction.run step ([] ++ [.exec firstSlot headerOnly [[0x61]]]) (Sys.boot r mem') =
      .goes s' ([] ++ [.exec firstSlot headerOnly [[0x61]] (some (eip, esp))]) ∧
    ∃ ptrs : List ℕ, s'.finds firstSlot esp
        ((([0xffffffff, 1, esp + 12] ++ ptrs) ++ [0]).flatMap uintBytes) ∧
      List.Forall₂ (fun ptr arg => s'.finds firstSlot ptr (arg ++ [0])) ptrs [[0x61]] := by
  obtain ⟨r, mem', hmain, L, fl, hinv, -, hmany⟩ := bootable_bare.main.total
  have hok : (Act.exec firstSlot headerOnly [[0x61]]).Ok := ⟨by decide, by decide⟩
  have hneed : ((Image.exec headerOnly [[0x61]]).map fun x => 1025 + pages x.1.sz) = some 1027 := by
    decide +kernel
  have hfull : (Image.init [0xeb, 0xfe]).Full :=
    Users.Full.boot [0xeb, 0xfe] firstSlot _ (Function.update_self ..)
  obtain ⟨t, o, hstep, ho⟩ := inv_granted hinv (Function.update_self ..) hok rfl hneed
    (by omega) (fun hfork => by cases hfork) hfull
  obtain ⟨q, rfl⟩ := exec_event hstep
  obtain ⟨eip, esp, rfl⟩ : ∃ eip esp, q = some (eip, esp) := by
    cases q with
    | none => cases ho
    | some x => exact ⟨x.1, x.2, rfl⟩
  have hrun : Reaction.run step ([] ++ [.exec firstSlot headerOnly [[0x61]]]) (Sys.boot r mem') =
      .goes t ([] ++ [.exec firstSlot headerOnly [[0x61]] (some (eip, esp))]) :=
    Reaction.run_cons.mpr ⟨_, _, _, hstep, Reaction.run_nil.mpr ⟨rfl, rfl⟩, rfl⟩
  exact ⟨r, mem', t, eip, esp, hmain, hrun,
    stack_run bootable_bare hmain (fun a ha => absurd ha List.not_mem_nil) hok hrun⟩

end HgXv6.Phys
