import HgXv6.Kernel.MemoryOwners

set_option relaxedAutoImplicit false
set_option autoImplicit false

/-!
# The memory of all processes over whole runs

From the start of the kernel on, in every schedule of system calls and of what programs do, each
process sees the image that the specification has for it: what it has written itself, what `fork`
has copied, what `sbrk` has added and what `exec` has loaded, whatever other processes do.

## Main results

* `HgXv6.Phys.inv_step` — what each action keeps.
* `HgXv6.Phys.Bootable.main` — the start of the kernel.
* `HgXv6.Phys.inv_run`, `HgXv6.Phys.users_run` — schedules, and what processes see of them.
-/

namespace HgXv6.Phys

open Prog
open Sched (Slot)
open Vm (PGSIZE PHYSTOP PTE_P PTE_ADDR)

variable {s s' : Sys} {mem mem' : Mem} {f : ℕ} {fl : List ℕ} {i j : Slot} {σ σ' : Users} {p : Proc}
  {I : Image} {L : Option Slot → Layout} {a : Act} {acts : List Act} {seen : List Event} {e : Stop}

/-! ## The actions -/

/-- A call that fails for want of memory may lose frames. -/
def Event.failed : Event → Bool
  | .forked _ none => true
  | .exec _ _ _ none => true
  | _ => false

/-- What an action leaves: the specification follows, the invariant holds, and no frame is lost
unless a call has failed. -/
def Follows (L : Option Slot → Layout) (fl : List ℕ) (σ : Users) (s : Sys) (o : Event) (s' : Sys) :
    Prop :=
  ∃ L' fl' σ', accept o σ = some σ' ∧ Inv L' fl' σ' s' ∧
    (o.failed = false → s.held L fl ⊆ s'.held L' fl')

/-- What a call leaves. -/
theorem Sys.call_goes {α : Type} {m : M α} {next : α → Sys → Sys × Event} {E : Stop → Prop}
    {Q : α → Mem → Prop} {R : Event → Sys → Prop} (h : Wp E m Q s.mem)
    (hnext : ∀ r mem', Q r mem' →
      R (next r { s with mem := mem' }).2 (next r { s with mem := mem' }).1)
    (hcall : s.call m next = .goes s' seen) : ∃ o, seen = [o] ∧ R o s' := by
  unfold Sys.call at hcall
  cases hrun : m.run s.mem with
  | error e =>
    rw [hrun] at hcall
    cases hcall
  | ok x =>
    obtain ⟨r, mem'⟩ := x
    rw [hrun] at hcall
    obtain ⟨rfl, rfl⟩ := Reaction.goes.inj hcall
    exact ⟨_, rfl, hnext r mem' (h.of_ok hrun)⟩

theorem Sys.act_goes {m : Proc → Reaction Stop Sys Event} (h : s.act i m = .goes s' seen) :
    ∃ p, s.proc i = some p ∧ m p = .goes s' seen := by
  unfold Sys.act at h
  cases hp : s.proc i with
  | none =>
    rw [hp] at h
    cases h
  | some p =>
    rw [hp] at h
    exact ⟨p, rfl, h⟩

/-- **What each action keeps.**

**Proof sketch.** One case for each action, each of which runs a function on the memory for the
process in its slot. What the function leaves is the invariant for the images that the specification
allows after the event (`Inv.fork`, `Inv.growproc`, `Inv.exec`, `Inv.reap`, `Inv.readByte`,
`Inv.writeByte`, `Inv.pipealloc`, `Inv.pipeclose`), and each of these lemmas says too whether frames
may have been lost. -/
theorem inv_step (h : Inv L fl σ s) (hok : a.Ok) (hstep : step a s = .goes s' seen) :
    ∃ o, seen = [o] ∧ Follows L fl σ s o s' := by
  cases a with
  | fork i =>
    obtain ⟨p, hp, hstep⟩ := Sys.act_goes hstep
    obtain ⟨I, hI, -⟩ := h.shown hp
    cases hfind : (List.finRange _).find? fun j => (s.proc j).isNone with
    | none =>
      rw [hfind] at hstep
      obtain ⟨rfl, rfl⟩ := Reaction.goes.inj hstep
      refine ⟨_, rfl, L, fl, σ, ?_, h, fun hfailed => by cases hfailed⟩
      simp only [accept, hI]
      rfl
    | some j =>
    rw [hfind] at hstep
    have hj : s.proc j = none := by simpa using List.find?_some hfind
    refine Sys.call_goes (h.fork hp hI hj) (fun r mem' hpost => ?_) hstep
    rcases hpost with ⟨rfl, -, fl', hinv⟩ | ⟨np, M, fl', rfl, hinv, hheld, -⟩
    · refine ⟨L, fl', σ, ?_, hinv, fun hfailed => by cases hfailed⟩
      simp only [accept, hI]
      rfl
    · refine ⟨_, fl', _, ?_, hinv, fun _ => hheld⟩
      simp only [accept, hI, h.empty hj]
      rfl
  | sbrk i n =>
    obtain ⟨p, hp, hstep⟩ := Sys.act_goes hstep
    obtain ⟨I, hI, hshown⟩ := h.shown hp
    refine Sys.call_goes (h.growproc (E := fun _ => False) hp hI n) (fun r mem' hpost => ?_) hstep
    obtain ⟨-, J, M, fl', hJ, hinv, hheld⟩ := hpost
    cases r with
    | none =>
      have hself : Function.update s.proc i (some p) = s.proc := by
        rw [← hp, Function.update_eq_self]
      rw [Option.getD_none, hself] at hinv hheld
      refine ⟨_, fl', _, ?_, hinv, fun _ => hheld⟩
      rw [Option.map_none] at hJ
      simp only [accept, hI, Option.bind_eq_bind, Option.bind_some, hJ]
    | some sz =>
      refine ⟨_, fl', _, ?_, hinv, fun _ => hheld⟩
      rw [Option.map_some] at hJ
      simp only [accept, hI, hshown.sz, Option.bind_eq_bind, Option.bind_some, hJ]
  | exec i file argv =>
    obtain ⟨p, hp, hstep⟩ := Sys.act_goes hstep
    obtain ⟨I, hI, -⟩ := h.shown hp
    refine Sys.call_goes (h.exec (E := fun _ => False) hp hok.1 hok.2) (fun r mem' hpost => ?_)
      hstep
    rcases hpost with ⟨rfl, -, fl', hinv⟩ | ⟨new, J, M, fl', rfl, hexec, hinv, hheld⟩
    · refine ⟨L, fl', σ, ?_, hinv, fun hfailed => by cases hfailed⟩
      simp only [accept, hI]
      rfl
    · refine ⟨_, fl', _, ?_, hinv, fun _ => hheld⟩
      simp only [accept, hI, Option.bind_eq_bind, Option.bind_some, hexec]
      exact if_pos ⟨trivial, trivial⟩
  | reap i =>
    obtain ⟨p, hp, hstep⟩ := Sys.act_goes hstep
    obtain ⟨I, hI, -⟩ := h.shown hp
    refine Sys.call_goes (h.reap (E := fun _ => False) hp) (fun r mem' hpost => ?_) hstep
    obtain ⟨fl', hinv, hheld⟩ := hpost
    refine ⟨L, fl', _, ?_, hinv, fun _ => hheld⟩
    simp only [accept, hI]
    rfl
  | load i va =>
    obtain ⟨p, hp, hstep⟩ := Sys.act_goes hstep
    obtain ⟨I, hI, -⟩ := h.shown hp
    refine Sys.call_goes (h.readByte (E := fun _ => False) hp hI hok) (fun r mem' hpost => ?_) hstep
    obtain ⟨rfl, rfl⟩ := hpost
    refine ⟨L, fl, σ, ?_, h, fun _ => le_rfl⟩
    simp only [accept, hI]
    exact if_pos rfl
  | store i va b =>
    obtain ⟨p, hp, hstep⟩ := Sys.act_goes hstep
    obtain ⟨I, hI, -⟩ := h.shown hp
    refine Sys.call_goes (h.writeByte (E := fun _ => False) hp hI hok b)
      (fun done mem' hpost => ?_) hstep
    obtain ⟨rfl, L', hinv, hheld⟩ := hpost
    refine ⟨L', fl, _, ?_, hinv, fun _ => hheld⟩
    simp only [accept, hI]
    refine (if_pos rfl).trans ?_
    cases (I.get va).isSome with
    | true => rfl
    | false =>
      rw [if_neg (by decide), if_neg (by decide), ← hI, Function.update_eq_self]
  | pipealloc =>
    rw [step] at hstep
    refine Sys.call_goes (h.pipealloc (E := fun _ => False)) (fun r mem' hpost => ?_) hstep
    obtain ⟨fl', s'', rfl, hinv, hheld⟩ := hpost
    cases r with
    | none => exact ⟨L, fl', σ, rfl, hinv, fun _ => hheld⟩
    | some page => exact ⟨L, fl', σ, rfl, hinv, fun _ => hheld⟩
  | pipeclose k =>
    rw [step] at hstep
    cases hk : s.pipes[k]? with
    | none =>
      rw [hk] at hstep
      cases hstep
    | some page =>
      rw [hk] at hstep
      refine Sys.call_goes (h.pipeclose (E := fun _ => False) hk) (fun r mem' hpost => ?_) hstep
      obtain ⟨fl', hinv, hheld⟩ := hpost
      exact ⟨L, fl', σ, rfl, hinv, fun _ => hheld⟩

/-! ## The start of the kernel -/

/-- **The loop of `freerange`** over pages.

**Proof sketch.** Induction on the number of passes. -/
theorem wp_freeLoop {E : Stop → Prop} {q n k : ℕ} (h : FreeList fl mem)
    (hus : ∀ f, q ≤ f → f < n → mem.Usable f ∧ f ∉ fl) (hk0 : 0 < k) (hk : n < k + q) :
    Wp E (freeLoop (n * PGSIZE) k (q * PGSIZE)) (fun _ mem' =>
      mem.Keeps {f | q ≤ f ∧ f < n} mem' ∧ ∃ fl', FreeList fl' mem' ∧
        ∀ f, f ∈ fl' ↔ f ∈ fl ∨ q ≤ f ∧ f < n) mem := by
  induction k generalizing q fl mem with
  | zero => omega
  | succ k ih =>
    unfold freeLoop
    have hnext : q * PGSIZE + PGSIZE = (q + 1) * PGSIZE := (Nat.succ_mul ..).symm
    rw [hnext, wp_ite]
    refine ⟨fun hle => ?_, fun hgt => ?_⟩
    · have hlt : q < n := Nat.le_of_mul_le_mul_right hle (by decide)
      obtain ⟨husable, hnew⟩ := hus q le_rfl hlt
      refine Wp.bind (wp_kfree_free h husable hnew) ?_
      rintro _ mem₁ ⟨hkeeps₁, hfree₁⟩
      refine (ih hfree₁ (fun f hlo hhi => ?_) (by omega) (by omega)).mono ?_
      · obtain ⟨hf, hnf⟩ := hus f (by omega) hhi
        refine ⟨hkeeps₁.usable.mpr hf, fun hmem => ?_⟩
        rcases List.mem_cons.mp hmem with heq | hmem
        · omega
        · exact hnf hmem
      · rintro _ mem₂ ⟨hkeeps₂, fl₂, hfree₂, hmem₂⟩
        refine ⟨(hkeeps₁.mono ?_).trans (hkeeps₂.mono ?_) le_rfl, fl₂, hfree₂, fun f => ?_⟩
        · rintro f rfl
          exact ⟨le_rfl, hlt⟩
        · exact fun f hf => ⟨by have := hf.1; omega, hf.2⟩
        · rw [hmem₂, List.mem_cons]
          constructor
          · rintro ((rfl | hf) | hin)
            · exact .inr ⟨le_rfl, hlt⟩
            · exact .inl hf
            · exact .inr ⟨by omega, hin.2⟩
          · rintro (hf | hin)
            · exact .inl (.inr hf)
            · by_cases hfq : f = q
              · exact .inl (.inl hfq)
              · exact .inr ⟨by omega, hin.2⟩
    · have hge : n ≤ q := by
        by_contra hlt
        exact hgt (Nat.mul_le_mul_right PGSIZE (not_le.mp hlt))
      exact ⟨.refl mem _, fl, h, fun f => ⟨.inl, fun hf => hf.resolve_right (by omega)⟩⟩

/-- `freerange`, up to the end of a page. -/
theorem wp_freerange {E : Stop → Prop} {vstart n : ℕ} (h : FreeList fl mem)
    (hstart : vstart ≤ KERNBASE) (hn : n < 2 ^ 20)
    (hus : ∀ f, pages vstart ≤ f → f < n → mem.Usable f ∧ f ∉ fl) :
    Wp E (freerange vstart (n * PGSIZE)) (fun _ mem' =>
      mem.Keeps {f | pages vstart ≤ f ∧ f < n} mem' ∧ ∃ fl', FreeList fl' mem' ∧
        ∀ f, f ∈ fl' ↔ f ∈ fl ∨ pages vstart ≤ f ∧ f < n) mem := by
  unfold freerange Vm.PASSES
  rw [PGROUNDUP_pages hstart]
  exact wp_freeLoop h hus (by omega) (by omega)

/-- The stacks of the other processors. -/
theorem wp_startothers {E : Stop → Prop} {n : ℕ} (h : FreeList fl mem) (hn : n ≤ fl.length) :
    Wp E (startothers n) (fun r mem' => mem.Keeps ∅ mem' ∧ FreeList (fl.drop n) mem' ∧
      r = (fl.take n).map (· * PGSIZE)) mem := by
  induction n generalizing fl mem with
  | zero => exact ⟨.refl mem ∅, h, rfl⟩
  | succ n ih =>
    unfold startothers
    refine Wp.bind (wp_kalloc_free h) ?_
    rintro r mem₁ ⟨hkeeps₁, ⟨rfl, rfl, rfl⟩ | ⟨f, fl₁, rfl, rfl, hfree₁⟩⟩
    · exact absurd hn (by simp)
    dsimp only
    refine Wp.bind (ih hfree₁ (Nat.le_of_succ_le_succ hn)) ?_
    rintro r mem₂ ⟨hkeeps₂, hfree₂, rfl⟩
    exact ⟨hkeeps₁.trans hkeeps₂ le_rfl, hfree₂, rfl⟩

/-- `inituvm` in an address space without pages.

**Proof sketch.** There is a frame for the page and one for its table, as the address space has no
tables yet. The frame is zeroed, mapped at address 0 (`wp_mappages`), and gets the bytes of the
program, so that the only page of the layout is that of the image. -/
theorem wp_inituvm {E : Stop → Prop} {X : Set ℕ} {M : Layout} {kdata : ℕ} {init : List UInt8}
    (h : Local X M fl mem) (huser : M.User kdata) (hbare : ∀ i < 512, M.table i = none)
    (hfl : 2 ≤ fl.length) (hinit : init.length < PGSIZE) :
    Wp E (inituvm (M.dir * PGSIZE) init) (fun _ mem' => mem.Keeps X mem' ∧ ∃ M' fl',
      Local X M' fl' mem' ∧ M'.dir = M.dir ∧ M'.Has kdata (Image.init init)) mem := by
  unfold inituvm
  rw [if_neg (by omega)]
  refine Wp.bind (wp_kalloc h) ?_
  rintro r mem₁ ⟨hkeeps₁, ⟨rfl, rfl, rfl⟩ | ⟨f, fl₁, rfl, rfl, hf, hlocal₁⟩⟩
  · exact absurd hfl (by simp)
  have husable := h.usable hf
  dsimp only
  rw [wp_bind, wp_modify, Mem.fill, setFrame_eq]
  obtain ⟨mem₂, hmem₂⟩ : ∃ mem₂ : Mem,
    mem₂ = { mem₁ with frame := Function.update mem₁.frame f fun _ => 0 } := ⟨_, rfl⟩
  rw [← hmem₂]
  have hkeeps₂ : mem₁.Keeps {f} mem₂ := by
    rw [hmem₂]
    exact .update (Set.mem_singleton f) _
  have hkeeps : mem.Keeps X mem₂ := (hkeeps₁.mono (Set.empty_subset X)).trans
    (hkeeps₂.mono (Set.singleton_subset_iff.mpr hf)) le_rfl
  have hzero : mem₂.frame f = fun _ => 0 := by
    rw [hmem₂]
    exact Function.update_self ..
  have hlocal₂ : Local (X \ {f}) M fl₁ mem₂ :=
    hlocal₁.keeps (by rw [hmem₂]) hkeeps₂ fun g hg => hg.2
  have hpage : (0 : ℕ) = 0 * PGSIZE := (Nat.zero_mul _).symm
  have hnone : M.entry 0 = 0 := h.layout.missing 0 (hbare 0 (by decide))
  rw [hpage]
  refine Wp.bind (wp_mappages hlocal₂ (by decide) (by rw [hnone]; rfl)
    (hkeeps.usable.mpr husable) (by simp) (by decide)) ?_
  rintro r mem₃ ⟨hkeeps₃, ⟨rfl, rfl, rfl⟩ | ⟨rfl, t, fl₃, ht, hlocal₃⟩⟩
  · exact absurd hfl (by simp)
  rw [Set.insert_sdiff_singleton, Set.insert_eq_of_mem hf, hzero,
    show f * PGSIZE ||| (Vm.PTE_W ||| Vm.PTE_U) ||| PTE_P = userEntry f true from rfl] at hlocal₃
  obtain ⟨M₃, hM₃⟩ : ∃ M₃, M₃ = (M.setTable (0 / 1024) t).setEntry 0 (userEntry f true)
    fun _ => 0 := ⟨_, rfl⟩
  have hreach : M.Reaches 0 := fun q hq => absurd hq (Nat.not_lt_zero q)
  have hone : M₃.Reaches 1 := by
    rw [hM₃]
    exact hreach.succ
  obtain ⟨I, hsz, hpages⟩ : ∃ I : Image, I.sz = PGSIZE ∧
      I.page = Function.update (fun _ => none) 0 (some ⟨true, fun _ => 0⟩) := ⟨⟨_, _⟩, rfl, rfl⟩
  have hzeroth : I.page 0 = some ⟨true, fun _ => 0⟩ := by rw [hpages, Function.update_self]
  have hhas : M₃.Has kdata I := by
    refine ⟨?_, funext fun q => ?_, fun q hq => ?_, fun q hq => ?_, by
      rw [hsz]
      decide⟩
    · rw [hM₃]
      exact huser.map hreach (by decide) f true _
    · rw [hM₃, image_setEntry (by decide), image_setTable, hpages]
      by_cases hq : q = 0
      · rw [hq, Function.update_self, Function.update_self]
      · rw [Function.update_of_ne hq, Function.update_of_ne hq, h.image_bare hbare]
    · rw [hsz] at hq
      obtain rfl : q = 0 := Nat.lt_one_iff.mp (Nat.lt_of_mul_lt_mul_right (a := PGSIZE) (by
        rwa [Nat.one_mul]))
      exact hone
    · rw [hpages]
      refine Function.update_of_ne (fun hq0 => ?_) ..
      rw [hq0, Nat.zero_mul, hsz] at hq
      exact absurd hq (by decide)
  rw [← hM₃] at hlocal₃
  obtain ⟨f', -, hentry, hf', hdata⟩ := hhas.page hzeroth
  have hff : f' = f := by
    have hsame : userEntry f' true = userEntry f true := by
      rw [← hentry, hM₃]
      show Function.update (M.setTable (0 / 1024) t).entry 0 (userEntry f true) 0 = _
      rw [Function.update_self]
    rw [← userEntry_div f' true, hsame, userEntry_div]
  rw [hff] at hf'
  rw [wp_modify, setFrame_eq, Nat.mul_div_cancel _ (by decide)]
  have hstore := hlocal₃.store (b := overlay (mem₃.frame f) 0 init) hf'
  have hset := hhas.setData hzeroth (overlay (mem₃.frame f) 0 init)
  refine ⟨(hkeeps.trans (hkeeps₃.mono Set.sdiff_subset) le_rfl).trans
    (.update (hlocal₃.ref_mem (P := .page 0) hf') _) le_rfl, _, _, hstore, by rw [hM₃]; rfl, ?_⟩
  have hinit : ({ I with page := Function.update I.page 0 (some
      ⟨true, overlay (mem₃.frame f) 0 init⟩) } : Image) = Image.init init := by
    rw [hlocal₃.layout.data 0 f hf', hdata, hsz, hpages, Function.update_idem]
    unfold Image.init
    congr 1
    funext q
    exact Function.update_apply ..
  rw [← hinit]
  exact hset

/-- **`userinit`** into a slot that is not in use.

**Proof sketch.** There are free frames for the kernel stack and for `setupkvm`, and one more for
the page of the program (`wp_setupkvm`, `wp_inituvm`). The address space then shows the image of
`initcode`, and the process enters the slot (`Inv.enter`). -/
theorem Inv.userinit {init : List UInt8} (h : Inv L fl σ s) (hj : s.proc j = none)
    (hfl : 516 ≤ fl.length) (hinit : init.length < PGSIZE) :
    Wp (fun _ => False) (userinit init) (fun p mem' => ∃ M fl',
      Inv (Function.update L (some j) M) fl' (Function.update σ j (some (Image.init init)))
          { s with mem := mem', proc := Function.update s.proc j (some p) } ∧
        s.held L fl ⊆ Sys.held (Function.update L (some j) M) fl'
          { s with mem := mem', proc := Function.update s.proc j (some p) } ∧
        fl.length ≤ fl'.length + 1027) s.mem := by
  unfold Phys.userinit
  refine Wp.bind (wp_kalloc_free h.free) ?_
  rintro r mem₁ ⟨hkeeps₁, ⟨rfl, rfl, rfl⟩ | ⟨k, fl₁, rfl, rfl, hfree₁⟩⟩
  · exact absurd hfl (by simp)
  dsimp only
  rw [List.length_cons] at hfl
  have hlinked₁ := h.linked.keeps hkeeps₁
  refine Wp.bind (wp_setupkvm hfree₁ hlinked₁) ?_
  rintro r mem₂ ⟨hkeeps₂, ⟨rfl, hnone⟩ | ⟨M, fl₂, rfl, hlocal, huser, hbare⟩⟩
  · have hlen := hnone.length_le hfree₁.nodup
    omega
  dsimp only
  have htwo : 2 ≤ fl₂.length := by
    have hcard := hlocal.card_le_add (m := 512) (n := 0) hbare fun q _ => hlocal.image_bare hbare q
    rw [ncard_list hfree₁.nodup] at hcard
    omega
  refine Wp.bind (wp_inituvm hlocal huser hbare htwo hinit) ?_
  rintro _ mem₃ ⟨hkeeps₃, M', fl₃, hlocal', hdir, hhas⟩
  rw [hkeeps₁.kdata] at hhas
  have hkeeps : s.mem.Keeps {f | f ∈ k :: fl₁} mem₃ :=
    (hkeeps₁.mono (Set.empty_subset _)).trans
      ((hkeeps₂.trans hkeeps₃ le_rfl).mono fun f hf => List.mem_cons_of_mem k hf) le_rfl
  have henter := h.enter hj hkeeps hlocal' hhas (show 0 < PGSIZE by decide)
  rw [hdir] at henter
  refine ⟨M', fl₃, henter.1, henter.2, ?_⟩
  have hcard := hlocal'.card_le_add (m := 0) (n := 1) (fun i hi => absurd hi (Nat.not_lt_zero i))
    fun q hq => by
      rw [hhas.image]
      exact hhas.beyond q (Nat.le_mul_of_pos_left PGSIZE hq)
  rw [ncard_list hfree₁.nodup] at hcard
  rw [List.length_cons]
  omega

/-- The system without processes. -/
theorem inv_start {K : Layout} {ks : List ℕ} (hlinked : mem.Linked) (hfree : FreeList fl mem)
    (hkernel : K.In mem) (hout : ∀ f ∈ fl, f ∉ K.frames ∧ f ∉ ks)
    (hks : ∀ f ∈ ks, f ∉ K.frames) :
    Inv (fun _ => K) fl (fun _ => none)
      ⟨mem, K.dir * PGSIZE, ks.map (· * PGSIZE), fun _ => none, []⟩ := by
  have hmap : ∀ f, f * PGSIZE ∈ ks.map (· * PGSIZE) ↔ f ∈ ks :=
    fun f => List.mem_map_of_injective fun a b hab => Nat.eq_of_mul_eq_mul_right (by decide) hab
  refine ⟨hlinked, hfree, hkernel, rfl, fun i => .none, fun page hpage => by simp at hpage,
    List.nodup_nil, ?_⟩
  rintro k k' f hf hf'
  cases k with
  | free =>
    cases k' with
    | free => rfl
    | kernel => exact absurd hf' (hout f hf).1
    | cpustack => exact absurd ((hmap f).mp hf') (hout f hf).2
    | space i => exact absurd rfl hf'.1
    | kstack i => obtain ⟨p, hp, -⟩ := hf'; cases hp
    | pipe => cases hf'
  | kernel =>
    cases k' with
    | free => exact absurd hf (hout f hf').1
    | kernel => rfl
    | cpustack => exact absurd hf (hks f ((hmap f).mp hf'))
    | space i => exact absurd rfl hf'.1
    | kstack i => obtain ⟨p, hp, -⟩ := hf'; cases hp
    | pipe => cases hf'
  | cpustack =>
    cases k' with
    | free => exact absurd ((hmap f).mp hf) (hout f hf').2
    | kernel => exact absurd hf' (hks f ((hmap f).mp hf))
    | cpustack => rfl
    | space i => exact absurd rfl hf'.1
    | kstack i => obtain ⟨p, hp, -⟩ := hf'; cases hp
    | pipe => cases hf'
  | space i => exact absurd rfl hf.1
  | kstack i => obtain ⟨p, hp, -⟩ := hf; cases hp
  | pipe => cases hf

/-- The slot of the first process. -/
abbrev firstSlot : Slot := ⟨0, NPROC_pos⟩

/-- What `main` finds: the linker has put the kernel into the first pages, there are no free frames
yet, at most `NCPU` processors, and `initcode` fits on a page. -/
structure Bootable (ncpu : ℕ) (initcode : List UInt8) (mem : Mem) : Prop where
  linked : mem.Linked
  empty : FreeList [] mem
  kend : mem.kend ≤ 504 * PGSIZE
  few : ncpu ≤ 8
  fits : initcode.length < PGSIZE

/-- **The start of the kernel**: the first process has its image, and every usable frame its holder.

**Proof sketch.** The functions in their order. `kinit1` frees the frames up to 4 megabytes
(`wp_freerange`), of which `setupkvm` takes those of the kernel's own page tables and `startothers`
those of the stacks of the other processors; then `kinit2` frees the rest, and `userinit` makes the
first process. Until there is a process, the frames are with the kernel, taken, or free, and at the
end each usable one is with a holder; more than 50000 of them are free. -/
theorem Bootable.main {ncpu : ℕ} {init : List UInt8} (h : Bootable ncpu init mem) :
    Wp (fun _ => False) (main ncpu init) (fun r mem' => ∃ L fl,
      Inv L fl (Users.boot init) (Sys.boot r mem') ∧
        (∀ f, mem.Usable f → f ∈ Sys.held L fl (Sys.boot r mem')) ∧ 50000 ≤ fl.length) mem := by
  obtain ⟨hlinked, hempty, hend, hcpu, hinit⟩ := h
  have husable : ∀ f, pages mem.kend ≤ f → f < 0xE000 → mem.Usable f := by
    intro f hlo hhi
    have hle : mem.kend ≤ f * PGSIZE := not_lt.mp fun hlt => absurd (lt_pages.mpr hlt) hlo.not_gt
    refine ⟨Nat.pos_of_ne_zero fun hzero => ?_, hle, ?_⟩
    · have htext := hlinked.text
      have hdata := hlinked.data
      rw [hzero, Nat.zero_mul] at hle
      omega
    · unfold PGSIZE PHYSTOP
      omega
  have hpages : pages mem.kend ≤ 504 := by
    by_contra hgt
    have hlt := lt_pages.mp (not_le.mp hgt)
    omega
  have hkend : mem.kend ≤ KERNBASE := hend.trans (by decide)
  have hlow : 4 * 1024 * 1024 = 1024 * PGSIZE := by decide
  have htop : PHYSTOP = 0xE000 * PGSIZE := by decide
  unfold Phys.main
  rw [wp_bind, wp_get, hlow, htop]
  -- kinit1
  refine Wp.bind (wp_freerange hempty hkend (by omega) fun f hlo hhi =>
    ⟨husable f hlo (by omega), List.not_mem_nil⟩) ?_
  rintro _ mem₁ ⟨hkeeps₁, fl₁, hfree₁, hmem₁⟩
  simp only [List.not_mem_nil, false_or] at hmem₁
  have hlinked₁ := hlinked.keeps hkeeps₁
  refine Wp.bind (wp_setupkvm hfree₁ hlinked₁) ?_
  rintro r mem₂ ⟨hkeeps₂, hcase₂⟩
  have hcount : 1024 - pages mem.kend = fl₁.length := by
    rw [← ncard_list hfree₁.nodup, ← Nat.card_Ico, ← Set.ncard_coe_finset]
    congr 1
    ext f
    rw [Finset.coe_Ico, Set.mem_Ico]
    exact (hmem₁ f).symm
  obtain ⟨rfl, hnone⟩ | ⟨K, fl₂, rfl, hlocal, huser, hbare⟩ := hcase₂
  · have hlen := hnone.length_le hfree₁.nodup
    omega
  dsimp only
  have hseven : 7 ≤ fl₂.length := by
    have hcard := hlocal.card_le_add (m := 512) (n := 0) hbare fun q _ => hlocal.image_bare hbare q
    rw [ncard_list hfree₁.nodup] at hcard
    omega
  -- startothers
  refine Wp.bind (wp_startothers hlocal.free (show ncpu - 1 ≤ fl₂.length by omega)) ?_
  rintro _ mem₃ ⟨hkeeps₃, hfree₃, rfl⟩
  have hlow₁ : ∀ f ∈ fl₁, f < 1024 := fun f hf => ((hmem₁ f).mp hf).2
  have hsub₂ : ∀ f ∈ fl₂, f ∈ fl₁ := fun f hf => (hlocal.mem f).mpr (.inl hf)
  have hkeeps : mem.Keeps {f | f < 1024} mem₃ :=
    ((hkeeps₁.mono fun f hf => hf.2).trans (hkeeps₂.mono hlow₁) le_rfl).trans
      (hkeeps₃.mono (Set.empty_subset _)) le_rfl
  -- kinit2
  have hround : pages (1024 * PGSIZE) = 1024 := by decide
  refine Wp.bind (wp_freerange hfree₃ (by decide) (by decide) fun f hlo hhi => ?_) ?_
  · rw [hround] at hlo
    refine ⟨hkeeps.usable.mpr (husable f (by omega) hhi), fun hmem => ?_⟩
    have hlt := hlow₁ f (hsub₂ f (List.mem_of_mem_drop hmem))
    omega
  rintro _ mem₄ ⟨hkeeps₄, fl₄, hfree₄, hmem₄⟩
  rw [hround] at hkeeps₄ hmem₄
  have hout : ∀ f ∈ fl₄, f ∉ K.frames ∧ f ∉ fl₂.take (ncpu - 1) := by
    intro f hf
    rcases (hmem₄ f).mp hf with hdrop | ⟨hlo, -⟩
    · have hin := List.mem_of_mem_drop hdrop
      refine ⟨fun hK => ?_, fun htake => ?_⟩
      · obtain ⟨P, hP⟩ := hK
        exact hlocal.disjoint P f hP hin
      · exact List.disjoint_take_drop hlocal.free.nodup le_rfl htake hdrop
    · refine ⟨fun hK => ?_, fun htake => ?_⟩
      · obtain ⟨P, hP⟩ := hK
        have hlt := hlow₁ f (hlocal.ref_mem hP)
        omega
      · have hlt := hlow₁ f (hsub₂ f (List.mem_of_mem_take htake))
        omega
  have hkernel : K.In mem₄ := by
    refine hlocal.layout.congr (hkeeps₄.kend.trans hkeeps₃.kend) fun P f hP => ?_
    have hlt := hlow₁ f (hlocal.ref_mem hP)
    rw [hkeeps₄.frame f fun hin => (Nat.not_le.mpr hlt) hin.1,
      hkeeps₃.frame f (Set.notMem_empty f)]
  have hstart := inv_start ((hlinked.keeps hkeeps).keeps hkeeps₄) hfree₄ hkernel hout
    fun f hf hK => by
      obtain ⟨P, hP⟩ := hK
      exact hlocal.disjoint P f hP (List.mem_of_mem_take hf)
  have hmany : 0xE000 - 1024 ≤ fl₄.length := by
    have hsub : Set.Ico 1024 0xE000 ⊆ {f | f ∈ fl₄} := fun f hf => (hmem₄ f).mpr (.inr hf)
    have hcard := Set.ncard_le_ncard hsub (List.finite_toSet fl₄)
    rw [ncard_list hfree₄.nodup, Set.ncard_eq_toFinset_card', Set.toFinset_Ico, Nat.card_Ico]
      at hcard
    exact hcard
  refine Wp.bind (hstart.userinit (j := firstSlot) rfl (le_trans (by decide) hmany) hinit) ?_
  rintro p mem₅ ⟨M, fl₅, hinv, hheld, hlen⟩
  refine ⟨_, _, hinv, fun f hf => hheld ?_, by omega⟩
  have hge : pages mem.kend ≤ f := by
    by_contra hlt
    exact absurd (lt_pages.mp (not_le.mp hlt)) hf.kend.not_gt
  by_cases hlt : f < 1024
  · rcases (hlocal.mem f).mp ((hmem₁ f).mpr ⟨hge, hlt⟩) with hin | hK
    · rw [← List.take_append_drop (ncpu - 1) fl₂, List.mem_append] at hin
      rcases hin with htake | hdrop
      · have hstack : f * PGSIZE ∈ (fl₂.take (ncpu - 1)).map (· * PGSIZE) :=
          List.mem_map.mpr ⟨f, htake, rfl⟩
        exact ⟨.cpustack, hstack⟩
      · exact ⟨.free, (hmem₄ f).mpr (.inl hdrop)⟩
    · exact ⟨.kernel, hK⟩
  · exact ⟨.free, (hmem₄ f).mpr (.inr ⟨by omega, hf.lt⟩)⟩

/-! ## Actions that take place -/

/-- A call that may not stop. -/
theorem Sys.exists_call {α : Type} {m : M α} {next : α → Sys → Sys × Event} {E : Stop → Prop}
    {Q : α → Mem → Prop} (h : Wp E m Q s.mem) (hE : ∀ e, ¬E e) :
    ∃ r mem', Q r mem' ∧ s.call m next =
      .goes (next r { s with mem := mem' }).1 [(next r { s with mem := mem' }).2] := by
  unfold Sys.call
  cases hrun : m.run s.mem with
  | error e => exact (hE e (h.of_error hrun)).elim
  | ok x => exact ⟨x.1, x.2, h.of_ok hrun, rfl⟩

/-- Who has an image is in `ptable`. -/
theorem Inv.exists_proc (h : Inv L fl σ s) (hI : σ i = some I) : ∃ p, s.proc i = some p := by
  refine Option.ne_none_iff_exists'.mp fun hnone => ?_
  rw [h.empty hnone] at hI
  cases hI

/-- The slots without an image are those that are not in use. -/
theorem Inv.isNone_proc (h : Inv L fl σ s) (j : Slot) : (s.proc j).isNone = (σ j).isNone := by
  cases hp : s.proc j with
  | none =>
    rw [h.empty hp]
    rfl
  | some p =>
    obtain ⟨I, hI, -⟩ := h.shown hp
    rw [hI]
    rfl

/-- A program reads what is in its image. -/
theorem Inv.exists_load (h : Inv L fl σ s) (va : ℕ) (hI : σ i = some I) (hva : va < 2 ^ 32) :
    ∃ s', step (.load i va) s = .goes s' [.load i va (I.get va)] ∧ Inv L fl σ s' := by
  obtain ⟨p, hp⟩ := h.exists_proc hI
  obtain ⟨r, mem', ⟨rfl, rfl⟩, hcall⟩ :=
    @Sys.exists_call s _ _ (fun r s => (s, .load i va r)) (fun _ => False) _
      (h.readByte hp hI hva) fun _ => id
  refine ⟨s, ?_, h⟩
  rw [step, Sys.act, hp]
  exact hcall

/-- A program writes to its image. -/
theorem Inv.exists_store (h : Inv L fl σ s) (va : ℕ) (hI : σ i = some I) (hva : va < 2 ^ 32)
    (hget : (I.get va).isSome = true) (b : UInt8) :
    ∃ L' s', step (.store i va b) s = .goes s' [.store i va b true] ∧
      Inv L' fl (Function.update σ i (some (I.write va [b]))) s' := by
  obtain ⟨p, hp⟩ := h.exists_proc hI
  obtain ⟨done, mem', ⟨hdone, L', hinv, -⟩, hcall⟩ :=
    @Sys.exists_call s _ _ (fun done s => (s, .store i va b done)) (fun _ => False) _
      (h.writeByte hp hI hva b) fun _ => id
  rw [hget] at hdone
  rw [hdone] at hcall
  rw [hdone, if_pos rfl] at hinv
  refine ⟨L', _, ?_, hinv⟩
  rw [step, Sys.act, hp]
  exact hcall

/-- A `fork` of a process that lacks no page, with enough free frames. -/
theorem Inv.exists_fork (h : Inv L fl σ s) (hI : σ i = some I) (hfull : I.Full)
    (hfl : 1026 + pages I.sz < fl.length)
    (hfind : (List.finRange _).find? (fun j => (σ j).isNone) = some j) :
    ∃ L' fl' s', step (.fork i) s = .goes s' [.forked i (some j)] ∧
      Inv L' fl' (Function.update σ j (some I)) s' ∧
      fl.length ≤ fl'.length + (1026 + pages I.sz) := by
  obtain ⟨p, hp⟩ := h.exists_proc hI
  have hfind' : (List.finRange _).find? (fun j => (s.proc j).isNone) = some j := by
    simp only [h.isNone_proc]
    exact hfind
  have hj : s.proc j = none := by simpa using List.find?_some hfind'
  have hstop : ∀ e, ¬CopyStop I.sz I.page e := by
    rintro e ⟨-, q, hq, hnone⟩
    exact hfull q hq hnone
  obtain ⟨r, mem', hpost, hcall⟩ := Sys.exists_call (h.fork hp hI hj) hstop
  rcases hpost with ⟨-, hshort, -⟩ | ⟨np, M, fl', rfl, hinv, -, hlen⟩
  · omega
  · refine ⟨_, fl', _, ?_, hinv, hlen⟩
    rw [step, Sys.act, hp]
    dsimp only
    rw [hfind']
    exact hcall

/-- The image of the first process has its page. -/
theorem Image.Full.init (init : List UInt8) : (Image.init init).Full := by
  intro q hq
  have hzero : q = 0 := by
    change q * PGSIZE < PGSIZE at hq
    by_contra hne
    exact absurd hq (not_lt.mpr (Nat.le_mul_of_pos_left _ (Nat.pos_of_ne_zero hne)))
  rw [Image.init]
  dsimp only
  rw [if_pos hzero]
  exact Option.some_ne_none _

/-! ## A small machine -/

/-- Memory with a kernel of 22 pages behind the first megabyte. -/
def bareMem : Mem where
  frame := fun _ _ => 0
  freelist := 0
  kend := 0x116000
  kdata := 0x10a000

theorem bootable_bare : Bootable 2 [0xeb, 0xfe] bareMem :=
  ⟨⟨by decide, by decide, by decide, by decide⟩,
    ⟨rfl, List.nodup_nil, fun _ hf => absurd hf List.not_mem_nil⟩, by decide, by decide, by decide⟩

/-- The slot of the second process. -/
abbrev secondSlot : Slot := ⟨1, by decide⟩

/-- The first process forks, it and its child write to the same address, and then both read. -/
def family : List Act :=
  [.fork firstSlot, .store firstSlot 4 7, .store secondSlot 4 9, .load firstSlot 4,
    .load secondSlot 4]

/-- Each of them reads its own byte. -/
def familySeen : List Event :=
  [.forked firstSlot (some secondSlot), .store firstSlot 4 7 true, .store secondSlot 4 9 true,
    .load firstSlot 4 (some 7), .load secondSlot 4 (some 9)]

/-- The images of the two processes in the end. -/
def familyUsers : Users :=
  Function.update (Function.update (Function.update (Users.boot [0xeb, 0xfe]) secondSlot
    (some (Image.init [0xeb, 0xfe]))) firstSlot (some ((Image.init [0xeb, 0xfe]).write 4 [7])))
    secondSlot (some ((Image.init [0xeb, 0xfe]).write 4 [9]))

theorem family_ok : ∀ a ∈ family, a.Ok := by simp [family, Act.Ok]

/-- The two processes on the small machine. -/
theorem family_run : ∃ r mem' s', (main 2 [0xeb, 0xfe]).run bareMem = .ok (r, mem') ∧
    Reaction.run step family (Sys.boot r mem') = .goes s' familySeen ∧
    ∃ L fl, Inv L fl familyUsers s' ∧ 40000 ≤ fl.length := by
  obtain ⟨r, mem', hmain, L, fl, hinv, -, hmany⟩ := bootable_bare.main.total
  have hpages : 1026 + pages (Image.init [0xeb, 0xfe]).sz = 1027 := by decide
  obtain ⟨L₁, fl₁, s₁, hfork, hinv₁, hlen⟩ := hinv.exists_fork (Function.update_self ..)
    (Image.Full.init _) (by omega) (j := secondSlot) (by decide +kernel)
  obtain ⟨L₂, s₂, hstore, hinv₂⟩ := hinv₁.exists_store (i := firstSlot)
    (I := Image.init [0xeb, 0xfe]) 4 rfl (by decide) rfl 7
  obtain ⟨L₃, s₃, hstore', hinv₃⟩ := hinv₂.exists_store (i := secondSlot)
    (I := Image.init [0xeb, 0xfe]) 4 rfl (by decide) rfl 9
  obtain ⟨s₄, hload, hinv₄⟩ := hinv₃.exists_load (i := firstSlot)
    (I := (Image.init [0xeb, 0xfe]).write 4 [7]) 4 rfl (by decide)
  obtain ⟨s₅, hload', hinv₅⟩ := hinv₄.exists_load (i := secondSlot)
    (I := (Image.init [0xeb, 0xfe]).write 4 [9]) 4 rfl (by decide)
  refine ⟨r, mem', s₅, hmain, ?_, L₃, fl₁, hinv₅, by omega⟩
  exact Reaction.run_cons.mpr ⟨s₁, _, _, hfork, Reaction.run_cons.mpr ⟨s₂, _, _, hstore,
    Reaction.run_cons.mpr ⟨s₃, _, _, hstore', Reaction.run_cons.mpr ⟨s₄, _, _, hload,
      Reaction.run_cons.mpr ⟨s₅, _, _, hload', Reaction.run_nil.mpr ⟨rfl, rfl⟩, rfl⟩, rfl⟩, rfl⟩,
        rfl⟩, rfl⟩

/-! ## Schedules -/

/-- **What a schedule keeps.**

**Proof sketch.** Induction on the schedule, with `inv_step` for each action. What the specification
accepts one after the other it accepts as a whole, and if no step has lost frames then the frames
held at the start are held at the end. -/
theorem inv_run (h : Inv L fl σ s) (hok : ∀ a ∈ acts, a.Ok)
    (hrun : Reaction.run step acts s = .goes s' seen) :
    ∃ L' fl' σ', accepts accept seen σ = some σ' ∧ Inv L' fl' σ' s' ∧
      ((∀ o ∈ seen, o.failed = false) → s.held L fl ⊆ s'.held L' fl') := by
  induction acts generalizing s L fl σ seen with
  | nil =>
    obtain ⟨rfl, rfl⟩ := Reaction.run_nil.mp hrun
    exact ⟨L, fl, σ, rfl, h, fun _ => le_rfl⟩
  | cons a acts ih =>
    obtain ⟨t, seen₁, seen₂, hstep, hrest, rfl⟩ := Reaction.run_cons.mp hrun
    rw [List.forall_mem_cons] at hok
    obtain ⟨o, rfl, L₁, fl₁, σ₁, hacc, hinv, hheld⟩ := inv_step h hok.1 hstep
    obtain ⟨L', fl', σ', hacc', hinv', hheld'⟩ := ih hinv hok.2 hrest
    refine ⟨L', fl', σ', (accepts_append ?_).trans hacc', hinv', fun hfailed => ?_⟩
    · rw [accepts_singleton]
      exact hacc
    · rw [List.forall_mem_append] at hfailed
      exact (hheld (hfailed.1 o List.mem_cons_self)).trans (hheld' hfailed.2)

end HgXv6.Phys
