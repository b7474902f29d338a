import HgXv6.Kernel.Processes

set_option relaxedAutoImplicit false
set_option autoImplicit false

/-!
# The invariant of the process table

What holds of the process table between any two actions: every process but the first one has a
parent that lives, and a process that sleeps in `wait` has children of which none has exited. Each
function keeps it.

That no process number is used twice is a second invariant, which only the results about numbers
need. Process numbers are counted in an `int`, and the second invariant is about the time before it
overflows; the first one does not end there.

## Main definitions

* `HgXv6.Sched.Life` — the stages of a process.
* `HgXv6.Sched.Table.Inv` — the invariant.
* `HgXv6.Sched.Table.Numbered` — the process numbers, when `n` of them have been given out.

## Main results

* `HgXv6.Sched.Table.Inv.congr` — changes that leave parents and stages alone.
* `HgXv6.Sched.Table.Numbered.of_le` — changes after which no process has another number.
* `HgXv6.Sched.fork_spec`, `HgXv6.Sched.exit_spec`, `HgXv6.Sched.wait_spec` — what the functions
  do.
-/

namespace HgXv6.Sched

open Prog
open Descriptors (NPROC)

/-! ## Stages -/

/-- The stages of a process. -/
inductive Life
  | none
  | embryo
  | alive
  | zombie
deriving DecidableEq

/-- The stage in a state. -/
def ProcState.life : ProcState → Life
  | .UNUSED => .none
  | .EMBRYO => .embryo
  | .SLEEPING => .alive
  | .RUNNABLE => .alive
  | .RUNNING => .alive
  | .ZOMBIE => .zombie

/-- The stage of a process. -/
def Proc.life (v : Proc) : Life := v.state.life

theorem Proc.life_none {v : Proc} : v.life = .none ↔ v.state = .UNUSED := by
  unfold Proc.life
  cases v.state <;> simp [ProcState.life]

theorem Proc.life_zombie {v : Proc} : v.life = .zombie ↔ v.state = .ZOMBIE := by
  unfold Proc.life
  cases v.state <;> simp [ProcState.life]

variable {t t' : Table} {p q : Slot} {n : ℕ}

@[simp] theorem Table.set_self (p : Slot) (v : Proc) (t : Table) : (t.set p v).proc p = v :=
  Function.update_self ..

theorem Table.set_ne {v : Proc} (h : q ≠ p) : (t.set p v).proc q = t.proc q :=
  Function.update_of_ne h ..

/-! ## The invariant -/

/-- The process sleeps in `wait`, and nothing has happened that it waits for. -/
structure Table.Waiting (t : Table) (p : Slot) : Prop where
  chan : (t.proc p).chan = some (.proc p)
  killed : (t.proc p).killed = false
  child : ∃ q, (t.proc q).parent = some p
  zombie : ∀ q, (t.proc q).parent = some p → (t.proc q).life ≠ .zombie

/-- What holds of the process table. -/
structure Table.Inv (t : Table) : Prop where
  init_alive : (t.proc t.initproc).life = .alive
  init_parent : (t.proc t.initproc).parent = none
  embryo : ∀ p, (t.proc p).life ≠ .embryo
  unused : ∀ p, (t.proc p).life = .none → (t.proc p).parent = none
  parent : ∀ p, (t.proc p).life ≠ .none → p ≠ t.initproc →
    ∃ q, (t.proc p).parent = some q ∧ (t.proc q).life = .alive
  irrefl : ∀ p, (t.proc p).parent ≠ some p
  kstack : ∀ p, (t.proc p).kstack = true ↔ (t.proc p).life ≠ .none
  asleep : ∀ p, (t.proc p).state = .SLEEPING → (t.proc p).context = .sleep ∨
    (t.proc p).context = .wait ∧ t.Waiting p

/-- What holds of the process numbers when `n` of them have been given out. -/
structure Table.Numbered (t : Table) (n : ℕ) : Prop where
  nextpid : t.nextpid.toInt = n + 1
  pid : ∀ p, (t.proc p).life ≠ .none → 1 ≤ (t.proc p).pid.toInt ∧ (t.proc p).pid.toInt ≤ n
  pid_inj : ∀ p q, (t.proc p).life ≠ .none → (t.proc q).life ≠ .none →
    (t.proc p).pid = (t.proc q).pid → p = q

/-- Two entries are of the same process, at the same stage. -/
structure Proc.Same (v v' : Proc) : Prop where
  life : v'.life = v.life
  parent : v'.parent = v.parent
  kstack : v'.kstack = v.kstack
  pid : v'.pid = v.pid

theorem Proc.Same.refl (v : Proc) : v.Same v := ⟨rfl, rfl, rfl, rfl⟩

/-- Changes that leave parents and stages alone keep the invariant, if those that fall asleep do so
for a reason.

**Proof sketch.** Each part of the invariant speaks of parents and stages, which are as before, or
of the processes that are asleep, for which `hasleep` gives the reason. -/
theorem Table.Inv.congr (h : t.Inv) (hinit : t'.initproc = t.initproc)
    (hsame : ∀ p, (t.proc p).Same (t'.proc p))
    (hasleep : ∀ p, (t'.proc p).state = .SLEEPING → t'.proc p = t.proc p ∨
      (t'.proc p).context = .sleep ∨ (t'.proc p).context = .wait ∧ t'.Waiting p) : t'.Inv := by
  refine ⟨?_, ?_, fun p => ?_, fun p hp => ?_, fun p hp hne => ?_, fun p => ?_, fun p => ?_,
    fun p hp => ?_⟩
  · rw [hinit, (hsame _).life]
    exact h.init_alive
  · rw [hinit, (hsame _).parent]
    exact h.init_parent
  · rw [(hsame p).life]
    exact h.embryo p
  · rw [(hsame p).life] at hp
    rw [(hsame p).parent]
    exact h.unused p hp
  · rw [(hsame p).life] at hp
    rw [hinit] at hne
    obtain ⟨q, hq, halive⟩ := h.parent p hp hne
    exact ⟨q, (hsame p).parent.trans hq, (hsame q).life.trans halive⟩
  · rw [(hsame p).parent]
    exact h.irrefl p
  · rw [(hsame p).life, (hsame p).kstack]
    exact h.kstack p
  · rcases hasleep p hp with heq | hnew
    · rw [heq] at hp ⊢
      refine (h.asleep p hp).imp_right fun hwait => ⟨hwait.1, ?_⟩
      obtain ⟨q, hq⟩ := hwait.2.child
      refine ⟨heq ▸ hwait.2.chan, heq ▸ hwait.2.killed, ⟨q, (hsame q).parent.trans hq⟩,
        fun q hq => ?_⟩
      rw [(hsame q).parent] at hq
      rw [(hsame q).life]
      exact hwait.2.zombie q hq
    · exact hnew

/-- As long as each process that is there has been there before, with its number, no number is used
twice. -/
theorem Table.Numbered.of_le (h : t.Numbered n) (hnext : t'.nextpid = t.nextpid)
    (hle : ∀ p, (t'.proc p).life ≠ .none →
      (t.proc p).life ≠ .none ∧ (t'.proc p).pid = (t.proc p).pid) : t'.Numbered n := by
  refine ⟨hnext ▸ h.nextpid, fun p hp => ?_, fun p q hp hq heq => ?_⟩
  · obtain ⟨hlive, hpid⟩ := hle p hp
    rw [hpid]
    exact h.pid p hlive
  · obtain ⟨hlive, hpid⟩ := hle p hp
    obtain ⟨hlive', hpid'⟩ := hle q hq
    rw [hpid, hpid'] at heq
    exact h.pid_inj p q hlive hlive' heq

/-- Changes that leave stages and numbers alone. -/
theorem Table.Numbered.congr (h : t.Numbered n) (hnext : t'.nextpid = t.nextpid)
    (hsame : ∀ p, (t.proc p).Same (t'.proc p)) : t'.Numbered n :=
  h.of_le hnext fun p hp => ⟨(hsame p).life ▸ hp, (hsame p).pid⟩

/-- The number that is given out next has not been used. -/
theorem Table.Numbered.fresh (h : t.Numbered n) (hp : (t.proc p).life ≠ .none) :
    (t.proc p).pid ≠ t.nextpid := by
  intro heq
  have hold := h.pid p hp
  rw [heq, h.nextpid] at hold
  omega

/-! ## `wakeup1` and `kill` -/

/-- What `wakeup1` does to an entry. -/
theorem wakeup1_proc (chan : Chan) (t : Table) (p : Slot) :
    (wakeup1 chan t).proc p = t.proc p ∨
      (t.proc p).state = .SLEEPING ∧
        (wakeup1 chan t).proc p = { t.proc p with state := .RUNNABLE } := by
  unfold wakeup1
  dsimp only
  split_ifs with h
  · exact .inr ⟨h.1, rfl⟩
  · exact .inl rfl

/-- Nobody sleeps on the channel any more. -/
theorem wakeup1_awake (chan : Chan) (t : Table) (p : Slot) :
    ¬ (((wakeup1 chan t).proc p).state = .SLEEPING ∧
      ((wakeup1 chan t).proc p).chan = some chan) := by
  unfold wakeup1
  dsimp only
  split_ifs with h
  · simp
  · exact h

theorem wakeup1_same (chan : Chan) (t : Table) (p : Slot) :
    (t.proc p).Same ((wakeup1 chan t).proc p) := by
  rcases wakeup1_proc chan t p with h | ⟨hstate, h⟩
  · rw [h]
    exact .refl _
  · rw [h]
    refine ⟨?_, rfl, rfl, rfl⟩
    unfold Proc.life
    rw [hstate]
    rfl

theorem Table.Inv.wakeup1 (h : t.Inv) (chan : Chan) : (wakeup1 chan t).Inv := by
  refine h.congr rfl (wakeup1_same chan t) fun p hp => .inl ?_
  rcases wakeup1_proc chan t p with heq | ⟨-, heq⟩
  · exact heq
  · rw [heq] at hp
    cases hp

/-- What `kill` does to an entry. -/
theorem kill_proc (pid : Int32) (t : Table) (p : Slot) :
    (kill pid t).proc p = t.proc p ∨ (t.proc p).Same ((kill pid t).proc p) ∧
      ((kill pid t).proc p).state ≠ .SLEEPING := by
  unfold kill
  split
  · exact .inl rfl
  · next q hq =>
    by_cases hp : p = q
    · subst hp
      right
      rw [Table.set_self]
      refine ⟨⟨?_, rfl, rfl, rfl⟩, ?_⟩
      · unfold Proc.life
        dsimp only
        split_ifs with hstate
        · rw [hstate]
          rfl
        · rfl
      · dsimp only
        split_ifs with hstate
        · simp
        · exact hstate
    · exact .inl (Table.set_ne hp)

/-- `kill` leaves the state of an entry alone, or wakes the process. -/
theorem kill_state (pid : Int32) (t : Table) (p : Slot) :
    ((kill pid t).proc p).state = (t.proc p).state ∨
      (t.proc p).state = .SLEEPING ∧ ((kill pid t).proc p).state = .RUNNABLE := by
  unfold kill
  split
  · exact .inl rfl
  · next q hq =>
    by_cases hp : p = q
    · rw [hp, Table.set_self]
      dsimp only
      split_ifs with hsleep
      · exact .inr ⟨hsleep, rfl⟩
      · exact .inl rfl
    · rw [Table.set_ne hp]
      exact .inl rfl

theorem kill_initproc (pid : Int32) (t : Table) :
    (kill pid t).initproc = t.initproc ∧ (kill pid t).nextpid = t.nextpid := by
  unfold kill
  split <;> exact ⟨rfl, rfl⟩

theorem kill_same (pid : Int32) (t : Table) (p : Slot) :
    (t.proc p).Same ((kill pid t).proc p) := by
  rcases kill_proc pid t p with h | ⟨h, -⟩
  · rw [h]
    exact .refl _
  · exact h

theorem Table.Inv.kill (h : t.Inv) (pid : Int32) : (kill pid t).Inv := by
  refine h.congr (kill_initproc pid t).1 (kill_same pid t) fun p hp => ?_
  rcases kill_proc pid t p with heq | ⟨-, hawake⟩
  · exact .inl heq
  · exact absurd hp hawake

/-- A change to one process. -/
theorem set_same {v : Proc} (h : (t.proc p).Same v) (q : Slot) :
    (t.proc q).Same ((t.set p v).proc q) := by
  by_cases hqp : q = p
  · rw [hqp, Table.set_self]
    exact h
  · rw [Table.set_ne hqp]
    exact .refl _

/-- A change to the process that runs: it may stop to run, but does not fall asleep in `wait`. -/
theorem Table.Inv.set {v : Proc} (h : t.Inv) (hsame : (t.proc p).Same v)
    (hstate : v.state = .SLEEPING → v.context = .sleep) : (t.set p v).Inv := by
  refine h.congr rfl (set_same hsame) fun q hq => ?_
  by_cases hqp : q = p
  · rw [hqp, Table.set_self] at hq ⊢
    exact .inr (.inl (hstate hq))
  · exact .inl (Table.set_ne hqp)

/-! ## `fork` -/

/-- What `fork` does. -/
inductive Forked (proc : Slot) (t : Table) : Option Slot × Table → Prop
  /-- the table is full -/
  | full : Forked proc t (none, t)
  /-- there is no memory: only a process number has been used up -/
  | failed (np : Slot) (context : Context) : (t.proc np).life = .none →
      Forked proc t (none, { t.set np { t.proc np with
        pid := t.nextpid, kstack := false, context := context } with nextpid := t.nextpid + 1 })
  | born (np : Slot) : (t.proc np).life = .none →
      Forked proc t (some np, { t.set np { t.proc np with
        state := .RUNNABLE, pid := t.nextpid, parent := some proc, kstack := true,
        context := .forkret } with nextpid := t.nextpid + 1 })

/-- What `allocproc` does. -/
theorem allocproc_spec (kalloc : Bool) (t : Table) :
    allocproc kalloc t = (none, t) ∨ ∃ p, (t.proc p).state = .UNUSED ∧
      allocproc kalloc t = if kalloc then
        (some p, { t.set p { t.proc p with
          state := .EMBRYO, pid := t.nextpid, kstack := true, context := .forkret } with
          nextpid := t.nextpid + 1 })
      else (none, { t.set p { t.proc p with pid := t.nextpid } with
        nextpid := t.nextpid + 1 }) := by
  unfold allocproc
  split
  · exact .inl rfl
  · next p hp =>
    have hstate : (t.proc p).state = .UNUSED := by simpa using List.find?_some hp
    refine .inr ⟨p, hstate, ?_⟩
    cases kalloc
    · simp [Table.set, hstate]
    · simp [Table.set]

/-- What `fork` does.

**Proof sketch.** By what `allocproc` does (`allocproc_spec`): the table is full, or there is no
stack for the entry, or the entry has one. In the last case the address space is copied or it is
not. An entry that is not in use has no stack, so that the failures leave it as it was, with another
number. -/
theorem fork_spec (proc : Slot) (kalloc copyuvm : Bool) (t : Table)
    (hkstack : ∀ p, (t.proc p).kstack = true ↔ (t.proc p).life ≠ .none) :
    Forked proc t (fork proc kalloc copyuvm t) := by
  unfold fork
  rcases allocproc_spec kalloc t with h | ⟨p, hp, h⟩
  · rw [h]
    exact .full
  · have hlife := Proc.life_none.mpr hp
    have hnostack : (t.proc p).kstack = false := by
      have hiff := hkstack p
      simpa [hlife] using hiff
    rw [h]
    cases kalloc with
    | false =>
      have hfailed : Forked proc t _ := .failed p (t.proc p).context hlife
      rw [← hnostack] at hfailed
      exact hfailed
    | true =>
      cases copyuvm with
      | false =>
        have hfailed : Forked proc t _ := .failed p .forkret hlife
        simpa [Table.set, hp] using hfailed
      | true =>
        have hborn : Forked proc t _ := .born p hlife
        simpa [Table.set] using hborn

/-- The next process number, as long as there is no overflow. -/
theorem Table.Numbered.next (h : t.Numbered n) (hn : n + 2 < 2 ^ 31) :
    (t.nextpid + 1).toInt = (n + 1 : ℕ) + 1 := by
  rw [Int32.toInt_add, h.nextpid]
  have hone : (1 : Int32).toInt = 1 := rfl
  rw [hone, Int.bmod_eq_of_le (by omega) (by omega)]
  omega

/-- A process that is not there stays so, with another number.

**Proof sketch.** No stage and no parent changes, and the entry `p` is neither alive nor asleep,
before and after. -/
theorem Table.Inv.failed {v : Proc} {next : Int32} (h : t.Inv) (hp : (t.proc p).life = .none)
    (hlife : v.life = .none) (hparent : v.parent = (t.proc p).parent) (hkstack : v.kstack = false) :
    ({ t.set p v with nextpid := next } : Table).Inv := by
  have hproc : ∀ q, q ≠ p → (t.set p v).proc q = t.proc q := fun q => Table.set_ne
  have hlives : ∀ q, ((t.set p v).proc q).life = (t.proc q).life := by
    intro q
    by_cases hq : q = p
    · rw [hq, Table.set_self, hlife, hp]
    · rw [hproc q hq]
  have hparents : ∀ q, ((t.set p v).proc q).parent = (t.proc q).parent := by
    intro q
    by_cases hq : q = p
    · rw [hq, Table.set_self, hparent]
    · rw [hproc q hq]
  refine ⟨(hlives _).trans h.init_alive, (hparents _).trans h.init_parent, fun q => ?_,
    fun q hq => ?_, fun q hq hinit => ?_, fun q => ?_, fun q => ?_, fun q hq => ?_⟩
  · change ((t.set p v).proc q).life ≠ .embryo
    rw [hlives]
    exact h.embryo q
  · exact (hparents q).trans (h.unused q ((hlives q).symm.trans hq))
  · obtain ⟨r, hr, halive⟩ := h.parent q ((hlives q) ▸ hq) hinit
    exact ⟨r, (hparents q).trans hr, (hlives r).trans halive⟩
  · change ((t.set p v).proc q).parent ≠ some q
    rw [hparents]
    exact h.irrefl q
  · change ((t.set p v).proc q).kstack = true ↔ ((t.set p v).proc q).life ≠ .none
    rw [hlives]
    by_cases hqp : q = p
    · rw [hqp, Table.set_self, hkstack, hp]
      simp
    · rw [hproc q hqp]
      exact h.kstack q
  · change ((t.set p v).proc q).state = .SLEEPING at hq
    have hqp : q ≠ p := by
      rintro rfl
      rw [Table.set_self, Proc.life_none.mp hlife] at hq
      cases hq
    change ((t.set p v).proc q).context = .sleep ∨ ((t.set p v).proc q).context = .wait ∧ _
    rw [hproc q hqp] at hq ⊢
    refine (h.asleep q hq).imp_right fun hwait => ⟨hwait.1, ?_⟩
    obtain ⟨r, hr⟩ := hwait.2.child
    refine ⟨(congrArg Proc.chan (hproc q hqp)).trans hwait.2.chan,
      (congrArg Proc.killed (hproc q hqp)).trans hwait.2.killed, ⟨r, (hparents r).trans hr⟩,
      fun r hr => ?_⟩
    change ((t.set p v).proc r).life ≠ .zombie
    rw [hlives]
    exact hwait.2.zombie r ((hparents r).symm.trans hr)

/-- Its number has been used up. -/
theorem Table.Numbered.failed {v : Proc} (h : t.Numbered n) (hn : n + 2 < 2 ^ 31)
    (hlife : v.life = .none) :
    ({ t.set p v with nextpid := t.nextpid + 1 } : Table).Numbered (n + 1) := by
  have hlive : ∀ q, ((t.set p v).proc q).life ≠ .none →
      (t.proc q).life ≠ .none ∧ (t.set p v).proc q = t.proc q := by
    intro q hq
    have hqp : q ≠ p := by
      rintro rfl
      rw [Table.set_self] at hq
      exact hq hlife
    rw [Table.set_ne hqp] at hq ⊢
    exact ⟨hq, rfl⟩
  refine ⟨h.next hn, fun q hq => ?_, fun q r hq hr heq => ?_⟩
  · obtain ⟨hold, hproc⟩ := hlive q hq
    change 1 ≤ ((t.set p v).proc q).pid.toInt ∧ ((t.set p v).proc q).pid.toInt ≤ (n + 1 : ℕ)
    rw [hproc]
    have hpid := h.pid q hold
    omega
  · obtain ⟨hold, hproc⟩ := hlive q hq
    obtain ⟨hold', hproc'⟩ := hlive r hr
    change ((t.set p v).proc q).pid = ((t.set p v).proc r).pid at heq
    rw [hproc, hproc'] at heq
    exact h.pid_inj q r hold hold' heq

/-- A new process.

**Proof sketch.** The entry was not in use, so nobody had it as its parent, and whoever was alive
still is. The new process has a parent that is alive, it is runnable, and it has its stack. One that
sleeps in `wait` keeps the child it is waiting for; if it has one more child now, that child has not
exited. -/
theorem Table.Inv.born {v : Proc} {next : Int32} (h : t.Inv) (hp : (t.proc p).life = .none)
    (hstate : v.state = .RUNNABLE) (hparent : v.parent = some q) (hkstack : v.kstack = true)
    (hq : (t.proc q).life = .alive) :
    ({ t.set p v with nextpid := next } : Table).Inv := by
  have hproc : ∀ r, r ≠ p → (t.set p v).proc r = t.proc r := fun r => Table.set_ne
  have hlife : v.life = .alive := by
    unfold Proc.life
    rw [hstate]
    rfl
  have hne : ∀ r, (t.proc r).life ≠ .none → r ≠ p := fun r hr heq => hr (heq ▸ hp)
  have halive : ∀ r, (t.proc r).life = .alive → ((t.set p v).proc r).life = .alive := by
    intro r hr
    rw [hproc r (hne r (by rw [hr]; simp))]
    exact hr
  have hinit : t.initproc ≠ p := hne _ (by rw [h.init_alive]; simp)
  have hqp : q ≠ p := hne q (by rw [hq]; simp)
  refine ⟨halive _ h.init_alive, ?_, fun r => ?_, fun r hr => ?_, fun r hr hri => ?_,
    fun r => ?_, fun r => ?_, fun r hr => ?_⟩
  · exact (congrArg Proc.parent (hproc _ hinit)).trans h.init_parent
  · change ((t.set p v).proc r).life ≠ .embryo
    by_cases hrp : r = p
    · rw [hrp, Table.set_self, hlife]
      simp
    · rw [hproc r hrp]
      exact h.embryo r
  · change ((t.set p v).proc r).life = .none at hr
    by_cases hrp : r = p
    · rw [hrp, Table.set_self, hlife] at hr
      cases hr
    · rw [hproc r hrp] at hr
      exact (congrArg Proc.parent (hproc r hrp)).trans (h.unused r hr)
  · by_cases hrp : r = p
    · refine ⟨q, ?_, halive q hq⟩
      change ((t.set p v).proc r).parent = some q
      rw [hrp, Table.set_self, hparent]
    · change ((t.set p v).proc r).life ≠ .none at hr
      rw [hproc r hrp] at hr
      obtain ⟨r', hr', hlive⟩ := h.parent r hr hri
      exact ⟨r', (congrArg Proc.parent (hproc r hrp)).trans hr', halive r' hlive⟩
  · change ((t.set p v).proc r).parent ≠ some r
    by_cases hrp : r = p
    · rw [hrp, Table.set_self, hparent]
      exact fun heq => hqp (Option.some.inj heq)
    · rw [hproc r hrp]
      exact h.irrefl r
  · change ((t.set p v).proc r).kstack = true ↔ ((t.set p v).proc r).life ≠ .none
    by_cases hrp : r = p
    · rw [hrp, Table.set_self, hkstack, hlife]
      simp
    · rw [hproc r hrp]
      exact h.kstack r
  · change ((t.set p v).proc r).state = .SLEEPING at hr
    have hrp : r ≠ p := by
      rintro rfl
      rw [Table.set_self, hstate] at hr
      cases hr
    change ((t.set p v).proc r).context = .sleep ∨ ((t.set p v).proc r).context = .wait ∧ _
    rw [hproc r hrp] at hr ⊢
    refine (h.asleep r hr).imp_right fun hwait => ⟨hwait.1, ?_⟩
    obtain ⟨c, hc⟩ := hwait.2.child
    have hcp : c ≠ p := by
      rintro rfl
      rw [h.unused c hp] at hc
      cases hc
    refine ⟨(congrArg Proc.chan (hproc r hrp)).trans hwait.2.chan,
      (congrArg Proc.killed (hproc r hrp)).trans hwait.2.killed,
      ⟨c, (congrArg Proc.parent (hproc c hcp)).trans hc⟩, fun c hc => ?_⟩
    change ((t.set p v).proc c).parent = some r at hc
    change ((t.set p v).proc c).life ≠ .zombie
    by_cases hcp : c = p
    · rw [hcp, Table.set_self, hlife]
      simp
    · rw [hproc c hcp] at hc ⊢
      exact hwait.2.zombie c hc

/-- It has the next number. -/
theorem Table.Numbered.born {v : Proc} (h : t.Numbered n) (hn : n + 2 < 2 ^ 31)
    (hpid : v.pid = t.nextpid) :
    ({ t.set p v with nextpid := t.nextpid + 1 } : Table).Numbered (n + 1) := by
  have hproc : ∀ r, r ≠ p → (t.set p v).proc r = t.proc r := fun r => Table.set_ne
  refine ⟨h.next hn, fun r hr => ?_, fun r r' hr hr' heq => ?_⟩
  · change ((t.set p v).proc r).life ≠ .none at hr
    change 1 ≤ ((t.set p v).proc r).pid.toInt ∧ ((t.set p v).proc r).pid.toInt ≤ (n + 1 : ℕ)
    by_cases hrp : r = p
    · rw [hrp, Table.set_self, hpid, h.nextpid]
      omega
    · rw [hproc r hrp] at hr ⊢
      have hold := h.pid r hr
      omega
  · change ((t.set p v).proc r).life ≠ .none at hr
    change ((t.set p v).proc r').life ≠ .none at hr'
    change ((t.set p v).proc r).pid = ((t.set p v).proc r').pid at heq
    by_cases hrp : r = p
    · by_cases hrp' : r' = p
      · rw [hrp, hrp']
      · rw [hrp, Table.set_self, hproc r' hrp', hpid] at heq
        rw [hproc r' hrp'] at hr'
        exact absurd heq.symm (h.fresh hr')
    · rw [hproc r hrp] at hr heq
      by_cases hrp' : r' = p
      · rw [hrp', Table.set_self, hpid] at heq
        exact absurd heq (h.fresh hr)
      · rw [hproc r' hrp'] at hr' heq
        exact h.pid_inj r r' hr hr' heq

/-! ## `exit` -/

/-- The state after a part of the table has been gone through for the children of `proc`. -/
structure Abandoned (proc : Slot) (done : List Slot) (t t' : Table) : Prop where
  initproc : t'.initproc = t.initproc
  nextpid : t'.nextpid = t.nextpid
  entry : ∀ q, t'.proc q = { t.proc q with
    state := (t'.proc q).state
    parent := if q ∈ done ∧ (t.proc q).parent = some proc then some t.initproc
      else (t.proc q).parent }
  state : ∀ q, (t'.proc q).state = (t.proc q).state ∨
    (t.proc q).state = .SLEEPING ∧ (t'.proc q).state = .RUNNABLE
  /-- the first process is woken if it has got a child that has exited -/
  woken : ∀ q ∈ done, (t.proc q).parent = some proc → (t.proc q).state = .ZOMBIE →
    ¬ ((t'.proc t.initproc).state = .SLEEPING ∧
      (t'.proc t.initproc).chan = some (.proc t.initproc))

/-- Nothing has been gone through, but somebody may have been woken. -/
theorem Abandoned.start (proc : Slot) (chan : Chan) (t : Table) :
    Abandoned proc [] t (wakeup1 chan t) := by
  refine ⟨rfl, rfl, fun q => ?_, fun q => ?_, fun q hq => ?_⟩
  · rcases wakeup1_proc chan t q with h | ⟨-, h⟩
    · rw [h]
      simp
    · rw [h]
      simp
  · rcases wakeup1_proc chan t q with h | ⟨hstate, h⟩
    · exact .inl (congrArg Proc.state h)
    · exact .inr ⟨hstate, congrArg Proc.state h⟩
  · cases hq

theorem Abandoned.refl (proc : Slot) (t : Table) : Abandoned proc [] t t :=
  ⟨rfl, rfl, fun q => by simp, fun q => .inl rfl, fun q hq => by cases hq⟩

/-- Somebody is woken. -/
theorem Abandoned.wakeup {proc : Slot} {done : List Slot} (h : Abandoned proc done t t')
    (chan : Chan) : Abandoned proc done t (wakeup1 chan t') := by
  refine ⟨h.initproc, h.nextpid, fun q => ?_, fun q => ?_, fun q hq hparent hzombie => ?_⟩
  · rcases wakeup1_proc chan t' q with heq | ⟨-, heq⟩
    · rw [heq]
      exact h.entry q
    · rw [heq, h.entry q]
  · rcases wakeup1_proc chan t' q with heq | ⟨hsleep, heq⟩
    · rw [heq]
      exact h.state q
    · rcases h.state q with hsame | ⟨hold, hnew⟩
      · exact .inr ⟨hsame ▸ hsleep, congrArg Proc.state heq⟩
      · rw [hnew] at hsleep
        cases hsleep
  · have hold := h.woken q hq hparent hzombie
    rcases wakeup1_proc chan t' t.initproc with heq | ⟨-, heq⟩
    · rw [heq]
      exact hold
    · rw [heq]
      simp

/-- A child that has been passed to the first process.

**Proof sketch.** A child of `proc` cannot be among the entries that have been seen, since those
have been passed to the first process, and the first process is not `proc`. So the entry is as it
was before the loop, and afterwards it differs in its parent only. -/
theorem Abandoned.adopt {proc p : Slot} {done : List Slot} (h : Abandoned proc done t t')
    (hproc : proc ≠ t.initproc) (hchild : (t'.proc p).parent = some proc)
    (hzombie : (t.proc p).state = .ZOMBIE → ¬ ((t'.proc t.initproc).state = .SLEEPING ∧
      (t'.proc t.initproc).chan = some (.proc t.initproc))) :
    Abandoned proc (done ++ [p]) t
      (t'.set p { t'.proc p with parent := some t'.initproc }) := by
  have hparent := congrArg Proc.parent (h.entry p)
  dsimp only at hparent
  have hold : (t.proc p).parent = some proc := by
    rw [hparent] at hchild
    split_ifs at hchild with hdone
    · exact absurd (Option.some.inj hchild).symm hproc
    · exact hchild
  have hstate : ∀ q, ((t'.set p { t'.proc p with parent := some t'.initproc }).proc q).state =
      (t'.proc q).state := by
    intro q
    by_cases hq : q = p
    · rw [hq, Table.set_self]
    · rw [Table.set_ne hq]
  have hchan : ∀ q, ((t'.set p { t'.proc p with parent := some t'.initproc }).proc q).chan =
      (t'.proc q).chan := by
    intro q
    by_cases hq : q = p
    · rw [hq, Table.set_self]
    · rw [Table.set_ne hq]
  refine ⟨h.initproc, h.nextpid, fun q => ?_, fun q => ?_, fun q hq hqparent hqzombie => ?_⟩
  · rw [hstate]
    by_cases hq : q = p
    · subst hq
      have hif : (if q ∈ done ++ [q] ∧ (t.proc q).parent = some proc then some t.initproc
          else (t.proc q).parent) = some t.initproc :=
        if_pos ⟨List.mem_append_right _ List.mem_cons_self, hold⟩
      rw [Table.set_self, hif, h.initproc, h.entry q]
    · have hmem : q ∈ done ++ [p] ↔ q ∈ done := by simp [hq]
      rw [Table.set_ne hq]
      simp only [hmem]
      exact h.entry q
  · rw [hstate]
    exact h.state q
  · rw [hstate, hchan]
    rcases List.mem_append.mp hq with hq | hq
    · exact h.woken q hq hqparent hqzombie
    · obtain rfl := List.mem_singleton.mp hq
      exact hzombie hqzombie

/-- The body of the loop.

**Proof sketch.** If the entry is no child of `proc`, nothing happens. A child is passed on
(`Abandoned.adopt`); if it has exited the first process is woken up first, which changes no parent
and no stage, and whoever is woken waits for the first process. -/
theorem Abandoned.step {proc : Slot} {done : List Slot} (h : Abandoned proc done t t')
    (hproc : proc ≠ t.initproc) (p : Slot) :
    Abandoned proc (done ++ [p]) t (abandon proc t' p) := by
  unfold abandon
  by_cases hchild : (t'.proc p).parent = some proc
  · rw [if_pos hchild]
    dsimp only
    by_cases hzombie : (t'.proc p).state = .ZOMBIE
    · rw [if_pos (by rw [Table.set_self]; exact hzombie)]
      -- the wakeup may come first
      have hchild' : ((wakeup1 (.proc t.initproc) t').proc p).parent = some proc := by
        rw [(wakeup1_same (.proc t.initproc) t' p).parent]
        exact hchild
      have hadopt := (h.wakeup (.proc t.initproc)).adopt (p := p) hproc hchild' fun _ =>
        wakeup1_awake (.proc t.initproc) t' t.initproc
      refine cast (congrArg (Abandoned proc (done ++ [p]) t) ?_) hadopt
      have hnot : (wakeup1 (.proc t.initproc) t').proc p = t'.proc p := by
        rcases wakeup1_proc (.proc t.initproc) t' p with heq | ⟨hsleep, -⟩
        · exact heq
        · rw [hzombie] at hsleep
          cases hsleep
      rw [hnot, ← h.initproc]
      unfold wakeup1 Table.set
      dsimp only
      congr 1
      funext q
      by_cases hq : q = p
      · subst hq
        simp [hzombie]
      · simp only [Function.update_of_ne hq]
    · rw [if_neg (by rw [Table.set_self]; exact hzombie)]
      refine h.adopt hproc hchild fun hz => absurd ?_ hzombie
      rcases h.state p with hsame | ⟨hsleep, -⟩
      · exact hsame.trans hz
      · rw [hz] at hsleep
        cases hsleep
  · rw [if_neg hchild]
    have hdone : (t.proc p).parent = some proc → p ∈ done := by
      intro hparent
      by_contra hdone
      have heq := congrArg Proc.parent (h.entry p)
      dsimp only at heq
      rw [if_neg fun hand => hdone hand.1] at heq
      exact hchild (heq.trans hparent)
    have hmem : ∀ q, q ∈ done ++ [p] ∧ (t.proc q).parent = some proc ↔
        q ∈ done ∧ (t.proc q).parent = some proc := by
      intro q
      constructor
      · rintro ⟨hq, hparent⟩
        rcases List.mem_append.mp hq with hq | hq
        · exact ⟨hq, hparent⟩
        · obtain rfl := List.mem_singleton.mp hq
          exact ⟨hdone hparent, hparent⟩
      · exact fun hq => ⟨List.mem_append_left _ hq.1, hq.2⟩
    refine ⟨h.initproc, h.nextpid, fun q => ?_, h.state, fun q hq hparent hzombie => ?_⟩
    · simp only [hmem]
      exact h.entry q
    · exact h.woken q ((hmem q).mp ⟨hq, hparent⟩).1 hparent hzombie

/-- The loop. -/
theorem Abandoned.foldl {proc : Slot} {done : List Slot} (h : Abandoned proc done t t')
    (hproc : proc ≠ t.initproc) (l : List Slot) :
    Abandoned proc (done ++ l) t (l.foldl (abandon proc) t') := by
  induction l generalizing done t' with
  | nil => rwa [List.append_nil]
  | cons p l ih =>
    have hl := ih (h.step hproc p)
    rwa [List.append_assoc, List.singleton_append] at hl

/-- **What `exit` does.** The process becomes a zombie, and its children those of the first
process; of the others some are woken, among them the parent of the process and, if one of the
children has exited, the first process. -/
structure Exited (proc : Slot) (t t' : Table) : Prop where
  initproc : t'.initproc = t.initproc
  nextpid : t'.nextpid = t.nextpid
  entry : ∀ q, t'.proc q = { t.proc q with
    state := (t'.proc q).state
    parent := if (t.proc q).parent = some proc then some t.initproc else (t.proc q).parent }
  zombie : (t'.proc proc).state = .ZOMBIE
  state : ∀ q, q ≠ proc → (t'.proc q).state = (t.proc q).state ∨
    (t.proc q).state = .SLEEPING ∧ (t'.proc q).state = .RUNNABLE
  parent : ∀ q, (t.proc proc).parent = some q →
    ¬ ((t'.proc q).state = .SLEEPING ∧ (t'.proc q).chan = some (.proc q))
  adopted : ∀ q, (t.proc q).parent = some proc → (t.proc q).state = .ZOMBIE →
    ¬ ((t'.proc t.initproc).state = .SLEEPING ∧
      (t'.proc t.initproc).chan = some (.proc t.initproc))

/-- The end of `exit`. -/
theorem Abandoned.exited {proc : Slot} (h : Abandoned proc (List.finRange NPROC) t t')
    (hproc : proc ≠ t.initproc)
    (hparent : ∀ q, (t.proc proc).parent = some q →
      ¬ ((t'.proc q).state = .SLEEPING ∧ (t'.proc q).chan = some (.proc q))) :
    Exited proc t (t'.set proc { t'.proc proc with state := .ZOMBIE }) := by
  have hne : ∀ q, q ≠ proc →
      (t'.set proc { t'.proc proc with state := .ZOMBIE }).proc q = t'.proc q :=
    fun q => Table.set_ne
  refine ⟨h.initproc, h.nextpid, fun q => ?_, ?_, fun q hq => ?_, fun q hq => ?_,
    fun q hq hzombie => ?_⟩
  · have hentry := h.entry q
    simp only [List.mem_finRange, true_and] at hentry
    by_cases hq : q = proc
    · subst hq
      rw [Table.set_self]
      conv_lhs => rw [hentry]
    · rw [hne q hq]
      exact hentry
  · rw [Table.set_self]
  · rw [hne q hq]
    exact h.state q
  · by_cases hqp : q = proc
    · rw [hqp, Table.set_self]
      simp
    · rw [hne q hqp]
      exact hparent q hq
  · rw [hne _ hproc.symm]
    exact h.woken q (List.mem_finRange q) hq hzombie

/-- What `exit` does.

**Proof sketch.** By induction over the loop (`Abandoned.foldl`): after it every child of `proc`
belongs to the first process, nothing else has changed, and the first process is awake if a child
that has exited was passed to it. Then `proc` itself has exited. Its parent, if there is one, was
woken up before the loop. -/
theorem exit_spec {proc : Slot} (t : Table) (hproc : proc ≠ t.initproc) :
    Exited proc t (exit proc t) := by
  cases hparent : (t.proc proc).parent with
  | none =>
    have h := (Abandoned.refl proc t).foldl hproc (List.finRange NPROC)
    rw [List.nil_append] at h
    simp only [exit, hparent]
    generalize List.foldl (abandon proc) t (List.finRange NPROC) = t' at h ⊢
    exact h.exited hproc fun q hq => by rw [hparent] at hq; cases hq
  | some q =>
    have h := (Abandoned.start proc (.proc q) t).foldl hproc (List.finRange NPROC)
    -- whoever sleeps at the end has slept behind the first `wakeup1`
    have h₁ := (Abandoned.refl proc (wakeup1 (.proc q) t)).foldl hproc (List.finRange NPROC)
    rw [List.nil_append] at h h₁
    simp only [exit, hparent]
    generalize List.foldl (abandon proc) (wakeup1 (.proc q) t) (List.finRange NPROC) = t'
      at h h₁ ⊢
    refine h.exited hproc fun r hr => ?_
    obtain rfl : q = r := Option.some.inj (hparent.symm.trans hr)
    rintro ⟨hsleep, hchan⟩
    refine wakeup1_awake (.proc q) t q ⟨?_, ?_⟩
    · rcases h₁.state q with hsame | ⟨hold, -⟩
      · exact hsame ▸ hsleep
      · exact hold
    · have hentry := congrArg Proc.chan (h₁.entry q)
      dsimp only at hentry
      exact hentry ▸ hchan

/-- Only stages of the process that exits change. -/
theorem Exited.life {proc : Slot} (h : Exited proc t t') (hq : q ≠ proc) :
    (t'.proc q).life = (t.proc q).life := by
  unfold Proc.life
  rcases h.state q hq with hsame | ⟨hold, hnew⟩
  · rw [hsame]
  · rw [hold, hnew]
    rfl

theorem Exited.pid {proc : Slot} (h : Exited proc t t') (q : Slot) :
    (t'.proc q).pid = (t.proc q).pid := by
  rw [h.entry q]

theorem Exited.parent_eq {proc : Slot} (h : Exited proc t t') (q : Slot) :
    (t'.proc q).parent =
      if (t.proc q).parent = some proc then some t.initproc else (t.proc q).parent := by
  rw [h.entry q]

/-- Nobody comes or goes. -/
theorem Exited.life_none {proc : Slot} (h : Exited proc t t')
    (halive : (t.proc proc).life = .alive) (q : Slot) :
    (t'.proc q).life = .none ↔ (t.proc q).life = .none := by
  by_cases hq : q = proc
  · rw [hq, Proc.life_zombie.mpr h.zombie, halive]
    simp
  · rw [h.life hq]

/-- `exit` keeps the invariant.

**Proof sketch.** The first process does not exit, so it is alive, and it is the parent of all the
children that are left behind. Any other process keeps its parent, which is alive, since a parent
that exits is no parent any more. One that sleeps in `wait` without a child that has exited is not
the parent of the exiting one, as that one was woken up, and not the first process if a child that
had exited was passed to it. -/
theorem Table.Inv.exited (h : t.Inv) (hexit : Exited p t t') (hp : p ≠ t.initproc)
    (halive : (t.proc p).life = .alive) : t'.Inv := by
  have hzombie : (t'.proc p).life = .zombie := Proc.life_zombie.mpr hexit.zombie
  have hnone := hexit.life_none halive
  have hinit : (t'.proc t.initproc).life = .alive := by
    rw [hexit.life hp.symm]
    exact h.init_alive
  refine ⟨hexit.initproc ▸ hinit, ?_, fun q => ?_, fun q hq => ?_, fun q hq hqi => ?_,
    fun q => ?_, fun q => ?_, fun q hq => ?_⟩
  · rw [hexit.initproc, hexit.parent_eq, h.init_parent]
    simp
  · by_cases hq : q = p
    · rw [hq, hzombie]
      simp
    · rw [hexit.life hq]
      exact h.embryo q
  · rw [hexit.parent_eq, h.unused q ((hnone q).mp hq)]
    simp
  · rw [hexit.initproc] at hqi
    rw [hexit.parent_eq]
    split_ifs with hchild
    · exact ⟨t.initproc, rfl, hinit⟩
    · obtain ⟨r, hr, hlive⟩ := h.parent q (fun hnot => hq ((hnone q).mpr hnot)) hqi
      have hrp : r ≠ p := fun heq => hchild (heq ▸ hr)
      exact ⟨r, hr, (hexit.life hrp).trans hlive⟩
  · rw [hexit.parent_eq]
    split_ifs with hchild
    · intro heq
      rw [← Option.some.inj heq, h.init_parent] at hchild
      cases hchild
    · exact h.irrefl q
  · rw [hexit.entry q]
    dsimp only
    rw [h.kstack q, not_iff_not]
    have hiff := hnone q
    rw [hexit.entry q] at hiff
    exact hiff.symm
  · have hqp : q ≠ p := by
      rintro rfl
      rw [hexit.zombie] at hq
      cases hq
    have hold : (t.proc q).state = .SLEEPING := by
      rcases hexit.state q hqp with hsame | ⟨-, hnew⟩
      · exact hsame ▸ hq
      · rw [hnew] at hq
        cases hq
    have hentry := hexit.entry q
    have hcontext : (t'.proc q).context = (t.proc q).context := by rw [hentry]
    have hchan : (t'.proc q).chan = (t.proc q).chan := by rw [hentry]
    have hkilled : (t'.proc q).killed = (t.proc q).killed := by rw [hentry]
    rw [hcontext]
    refine (h.asleep q hold).imp_right fun hwait => ⟨hwait.1, ?_⟩
    have hself := hchan.trans hwait.2.chan
    refine ⟨hself, hkilled.trans hwait.2.killed, ?_, fun r hr => ?_⟩
    · obtain ⟨r, hr⟩ := hwait.2.child
      refine ⟨r, ?_⟩
      rw [hexit.parent_eq, if_neg]
      · exact hr
      · rw [hr]
        exact fun heq => hqp (Option.some.inj heq)
    · rw [hexit.parent_eq] at hr
      intro hz
      split_ifs at hr with hchild
      · -- a child that the first process has got
        obtain rfl := Option.some.inj hr
        have hrp : r ≠ p := fun heq => h.irrefl p (heq ▸ hchild)
        rw [hexit.life hrp] at hz
        exact hexit.adopted r hchild (Proc.life_zombie.mp hz) ⟨hq, hself⟩
      · by_cases hrp : r = p
        · exact hexit.parent q (hrp ▸ hr) ⟨hq, hself⟩
        · rw [hexit.life hrp] at hz
          exact hwait.2.zombie r hr hz

/-- `exit` leaves the numbers alone. -/
theorem Table.Numbered.exited (h : t.Numbered n) (hexit : Exited p t t')
    (halive : (t.proc p).life = .alive) : t'.Numbered n :=
  h.of_le hexit.nextpid fun q hq =>
    ⟨fun hnot => hq ((hexit.life_none halive q).mpr hnot), hexit.pid q⟩

/-! ## `wait` -/

/-- **What `wait` does.** -/
inductive Waited (proc : Slot) (t : Table) : WaitEnd × Table → Prop
  | reaped (q : Slot) : (t.proc q).parent = some proc → (t.proc q).state = .ZOMBIE →
      Waited proc t (.reaped (t.proc q).pid, t.set q { t.proc q with
        kstack := false, pid := 0, parent := none, killed := false, state := .UNUSED })
  | childless : (∀ q, (t.proc q).parent ≠ some proc) → Waited proc t (.childless, t)
  | killed : (t.proc proc).killed = true → (∃ q, (t.proc q).parent = some proc) →
      (∀ q, (t.proc q).parent = some proc → (t.proc q).state ≠ .ZOMBIE) →
      Waited proc t (.killed, t)
  | asleep : (t.proc proc).killed = false → (∃ q, (t.proc q).parent = some proc) →
      (∀ q, (t.proc q).parent = some proc → (t.proc q).state ≠ .ZOMBIE) →
      Waited proc t (.asleep, t.set proc { t.proc proc with
        chan := some (.proc proc), state := .SLEEPING, context := .wait })

/-- **Proof sketch.** By the two searches of the loop. An entry that is found by the first is a
child that has exited. If there is none, no child has exited, and it remains whether there is a
child and whether the process has been killed. -/
theorem wait_spec (proc : Slot) (t : Table) : Waited proc t (wait proc t) := by
  unfold wait
  split
  · next q hq =>
    have hprop := List.find?_some hq
    simp only [decide_eq_true_eq] at hprop
    exact .reaped q hprop.1 hprop.2
  · next hnone =>
    have hno : ∀ q, (t.proc q).parent = some proc → (t.proc q).state ≠ .ZOMBIE := by
      intro q hparent hzombie
      have hq := List.find?_eq_none.mp hnone q (List.mem_finRange q)
      simp only [decide_eq_true_eq] at hq
      exact hq ⟨hparent, hzombie⟩
    by_cases hchild : ∃ q, (t.proc q).parent = some proc
    · rw [if_neg (not_not.mpr hchild)]
      by_cases hkilled : (t.proc proc).killed = true
      · rw [if_pos hkilled]
        exact .killed hkilled hchild hno
      · rw [if_neg hkilled]
        exact .asleep (by simpa using hkilled) hchild hno
    · rw [if_pos hchild]
      exact .childless fun q hq => hchild ⟨q, hq⟩

/-- A process that has exited and been waited for is gone.

**Proof sketch.** One that has exited is nobody's parent, since parents are alive. So emptying its
entry takes a parent away from no process, and it takes a child away only from the process that has
called `wait`, which is awake. -/
theorem Table.Inv.reaped {v : Proc} (h : t.Inv) (hq : (t.proc q).life = .zombie)
    (hparent : (t.proc q).parent = some p) (hawake : (t.proc p).state ≠ .SLEEPING)
    (hlife : v.life = .none) (hnone : v.parent = none) (hkstack : v.kstack = false) :
    (t.set q v).Inv := by
  have hproc : ∀ r, r ≠ q → (t.set q v).proc r = t.proc r := fun r => Table.set_ne
  have halive : ∀ r, (t.proc r).life = .alive → r ≠ q := by
    rintro r hr rfl
    rw [hq] at hr
    cases hr
  have hinit := halive _ h.init_alive
  have hlives : ∀ r, ((t.set q v).proc r).life ≠ .none → r ≠ q ∧ (t.proc r).life ≠ .none := by
    intro r hr
    have hrq : r ≠ q := by
      rintro rfl
      rw [Table.set_self] at hr
      exact hr hlife
    rw [hproc r hrq] at hr
    exact ⟨hrq, hr⟩
  have hparents : ∀ r s, ((t.set q v).proc r).parent = some s →
      r ≠ q ∧ (t.proc r).parent = some s := by
    intro r s hr
    have hrq : r ≠ q := by
      rintro rfl
      rw [Table.set_self, hnone] at hr
      cases hr
    rw [hproc r hrq] at hr
    exact ⟨hrq, hr⟩
  refine ⟨?_, ?_, fun r => ?_, fun r hr => ?_, fun r hr hri => ?_, fun r hr => ?_, fun r => ?_,
    fun r hr => ?_⟩
  · exact (congrArg Proc.life (hproc _ hinit)).trans h.init_alive
  · exact (congrArg Proc.parent (hproc _ hinit)).trans h.init_parent
  · by_cases hrq : r = q
    · rw [hrq, Table.set_self, hlife]
      simp
    · rw [hproc r hrq]
      exact h.embryo r
  · by_cases hrq : r = q
    · rw [hrq, Table.set_self, hnone]
    · rw [hproc r hrq] at hr ⊢
      exact h.unused r hr
  · obtain ⟨hrq, hlive⟩ := hlives r hr
    obtain ⟨s, hs, hsl⟩ := h.parent r hlive hri
    refine ⟨s, (congrArg Proc.parent (hproc r hrq)).trans hs, ?_⟩
    exact (congrArg Proc.life (hproc s (halive s hsl))).trans hsl
  · exact h.irrefl r (hparents r r hr).2
  · by_cases hrq : r = q
    · rw [hrq, Table.set_self, hkstack, hlife]
      simp
    · rw [hproc r hrq]
      exact h.kstack r
  · have hrq : r ≠ q := by
      rintro rfl
      rw [Table.set_self, Proc.life_none.mp hlife] at hr
      cases hr
    rw [hproc r hrq] at hr ⊢
    refine (h.asleep r hr).imp_right fun hwait => ⟨hwait.1, ?_⟩
    obtain ⟨c, hc⟩ := hwait.2.child
    have hcq : c ≠ q := by
      rintro rfl
      obtain rfl : p = r := Option.some.inj (hparent.symm.trans hc)
      exact hawake hr
    refine ⟨(congrArg Proc.chan (hproc r hrq)).trans hwait.2.chan,
      (congrArg Proc.killed (hproc r hrq)).trans hwait.2.killed,
      ⟨c, (congrArg Proc.parent (hproc c hcq)).trans hc⟩, fun c hc => ?_⟩
    obtain ⟨hcq, hc⟩ := hparents c r hc
    rw [hproc c hcq]
    exact hwait.2.zombie c hc

/-- Its number is not used by another one. -/
theorem Table.Numbered.reaped {v : Proc} (h : t.Numbered n) (hlife : v.life = .none) :
    (t.set q v).Numbered n := by
  refine h.of_le rfl fun r hr => ?_
  have hrq : r ≠ q := by
    rintro rfl
    rw [Table.set_self] at hr
    exact hr hlife
  rw [Table.set_ne hrq] at hr ⊢
  exact ⟨hr, rfl⟩

/-- A process falls asleep in `wait`. -/
theorem Table.Inv.asleepWait (h : t.Inv) (hlife : (t.proc p).life = .alive)
    (hkilled : (t.proc p).killed = false) (hchild : ∃ q, (t.proc q).parent = some p)
    (hzombie : ∀ q, (t.proc q).parent = some p → (t.proc q).state ≠ .ZOMBIE) :
    (t.set p { t.proc p with
      chan := some (.proc p), state := .SLEEPING, context := .wait }).Inv := by
  have hsame : ∀ q, (t.proc q).Same ((t.set p { t.proc p with
      chan := some (.proc p), state := .SLEEPING, context := .wait }).proc q) :=
    set_same ⟨hlife.symm, rfl, rfl, rfl⟩
  refine h.congr rfl hsame fun q hq => ?_
  by_cases hqp : q = p
  · subst hqp
    obtain ⟨c, hc⟩ := hchild
    refine .inr (.inr ⟨by rw [Table.set_self], ?_, ?_, ⟨c, (hsame c).parent.trans hc⟩, ?_⟩)
    · rw [Table.set_self]
    · rw [Table.set_self]
      exact hkilled
    · intro c hc
      rw [(hsame c).life]
      rw [(hsame c).parent] at hc
      exact fun hz => hzombie c hc (Proc.life_zombie.mp hz)
  · exact .inl (Table.set_ne hqp)

end HgXv6.Sched
