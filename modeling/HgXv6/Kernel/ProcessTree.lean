import HgXv6.Kernel.ProcessTable
import Mathlib

set_option relaxedAutoImplicit false
set_option autoImplicit false

/-!
# The tree of processes

Seen from outside, the process table and the scheduler are a tree of processes, which are known by
their numbers. A process that lives can have a child, can exit, and can learn of a child of its own
that has exited, which then is gone; the children of a process that exits are those of the first
process from then on. Whatever the processors do, and in whatever order they get the lock, what
`fork`, `exit` and `wait` do and return is what such a tree allows.

## Main definitions

* `HgXv6.Sched.Tree`, `HgXv6.Sched.Tree.accept` — the tree.
* `HgXv6.Sched.Cpus` — what holds of the processors.
* `HgXv6.Sched.Table.Shows` — the tree that is in the table.
* `HgXv6.Sched.Sys.Sound`, `HgXv6.Sched.Table.Tracks` — what holds of the system, and of the tree.

## Main results

* `HgXv6.Sched.follows_step` — what every action leaves.
* `HgXv6.Sched.tree_run` — the tree follows every schedule.
* `HgXv6.Sched.table_run` — processors, parents and sleep.
-/

namespace HgXv6.Sched

open Prog
open Descriptors (NPROC)

variable {t t' : Table} {p q : Slot} {n : ℕ} {s s' : Sys} {c d : Fin NCPU} {m : Mode}
  {mode : Fin NCPU → Mode} {a : Act} {acts : List Act} {seen : List Event}

/-! ## The tree -/

/-- A tree of processes, by their numbers. -/
structure Tree where
  live : Set Int32
  /-- those that have exited, and whose parent has not waited for them -/
  zombies : Set Int32
  parent : Int32 → Option Int32
  root : Int32

open Classical in
/-- The tree with one more observation, if it is right. -/
noncomputable def Tree.accept : Event → Tree → Option Tree
  | .forked a b, σ =>
    if a ∈ σ.live ∧ b ∉ σ.live ∧ b ∉ σ.zombies then
      some { σ with live := Insert.insert b σ.live, parent := Function.update σ.parent b (some a) }
    else none
  | .exited a, σ =>
    if a ∈ σ.live ∧ a ≠ σ.root then
      some { σ with
        live := σ.live \ {a}
        zombies := Insert.insert a σ.zombies
        parent := fun b => if σ.parent b = some a then some σ.root else σ.parent b }
    else none
  | .reaped a b, σ =>
    if a ∈ σ.live ∧ b ∈ σ.zombies ∧ σ.parent b = some a then
      some { σ with zombies := σ.zombies \ {b} }
    else none
  | .childless a, σ =>
    if a ∈ σ.live ∧ ∀ b, b ∈ σ.live ∨ b ∈ σ.zombies → σ.parent b ≠ some a then some σ else none
  | .killed a, σ =>
    if a ∈ σ.live ∧ (∃ b ∈ σ.live, σ.parent b = some a) ∧ ∀ b ∈ σ.zombies, σ.parent b ≠ some a then
      some σ
    else none
  | .picked _ _, σ => some σ

/-- The tree that is in the process table. -/
structure Table.Shows (t : Table) (σ : Tree) : Prop where
  live : ∀ x, x ∈ σ.live ↔ ∃ p, (t.proc p).life = .alive ∧ (t.proc p).pid = x
  zombies : ∀ x, x ∈ σ.zombies ↔ ∃ p, (t.proc p).life = .zombie ∧ (t.proc p).pid = x
  parent : ∀ p, (t.proc p).life ≠ .none →
    σ.parent (t.proc p).pid = (t.proc p).parent.map fun q => (t.proc q).pid
  root : σ.root = (t.proc t.initproc).pid

variable {σ : Tree}

/-- Changes that leave parents and stages alone. -/
theorem Table.Shows.congr (h : t.Shows σ) (hinit : t'.initproc = t.initproc)
    (hsame : ∀ p, (t.proc p).Same (t'.proc p)) : t'.Shows σ := by
  refine ⟨fun x => ?_, fun x => ?_, fun p hp => ?_, ?_⟩
  · simp only [(hsame _).life, (hsame _).pid]
    exact h.live x
  · simp only [(hsame _).life, (hsame _).pid]
    exact h.zombies x
  · rw [(hsame p).life] at hp
    simp only [(hsame _).parent, (hsame _).pid]
    exact h.parent p hp
  · rw [hinit, (hsame _).pid]
    exact h.root

/-- Changes to an entry that stays unused. -/
theorem Table.Shows.unused {v : Proc} {next : Int32} (h : t.Shows σ) (hinv : t.Inv)
    (hp : (t.proc p).life = .none) (hlife : v.life = .none) :
    ({ t.set p v with nextpid := next } : Table).Shows σ := by
  have hproc : ∀ q, (t.proc q).life ≠ .none → (t.set p v).proc q = t.proc q := fun q hq =>
    Table.set_ne fun heq => hq (heq ▸ hp)
  have hlives : ∀ q, ((t.set p v).proc q).life = (t.proc q).life := by
    intro q
    by_cases hq : q = p
    · rw [hq, Table.set_self, hlife, hp]
    · rw [Table.set_ne hq]
  have hex : ∀ l, l ≠ .none → ∀ x, (∃ q, ((t.set p v).proc q).life = l ∧
      ((t.set p v).proc q).pid = x) ↔ ∃ q, (t.proc q).life = l ∧ (t.proc q).pid = x := by
    intro l hl x
    refine exists_congr fun q => ?_
    rw [hlives]
    refine and_congr_right fun hq => ?_
    rw [hproc q (hq ▸ hl)]
  refine ⟨fun x => (h.live x).trans (hex .alive (by simp) x).symm,
    fun x => (h.zombies x).trans (hex .zombie (by simp) x).symm, fun q hq => ?_, ?_⟩
  · have hq' : (t.proc q).life ≠ .none := (hlives q) ▸ hq
    change σ.parent ((t.set p v).proc q).pid =
      ((t.set p v).proc q).parent.map fun r => ((t.set p v).proc r).pid
    rw [hproc q hq', h.parent q hq']
    by_cases hqi : q = t.initproc
    · rw [hqi, hinv.init_parent]
      rfl
    · obtain ⟨r, hr, hlive⟩ := hinv.parent q hq' hqi
      rw [hr, Option.map_some, Option.map_some, hproc r (by rw [hlive]; simp)]
  · rw [h.root]
    exact (congrArg Proc.pid (hproc _ (by rw [hinv.init_alive]; simp))).symm

/-- A new process.

**Proof sketch.** The number is new, since all numbers in use are smaller (`hnum.fresh`). The
entries in use are those from before and the new one, whose number is the new number and whose
parent is the process that has called `fork`. The entry was not in use before, so no process changes
its number or its parent. -/
theorem Table.Shows.born {v : Proc} (h : t.Shows σ) (hinv : t.Inv) (hnum : t.Numbered n)
    (hp : (t.proc p).life = .none) (hlife : v.life = .alive) (hpid : v.pid = t.nextpid)
    (hparent : v.parent = some q) (hq : (t.proc q).life = .alive) :
    ({ t.set p v with nextpid := t.nextpid + 1 } : Table).Shows
        { σ with
          live := Insert.insert t.nextpid σ.live
          parent := Function.update σ.parent t.nextpid (some (t.proc q).pid) } ∧
      t.nextpid ∉ σ.live ∧ t.nextpid ∉ σ.zombies := by
  have hproc : ∀ r, r ≠ p → (t.set p v).proc r = t.proc r := fun r => Table.set_ne
  have hne : ∀ r, (t.proc r).life ≠ .none → r ≠ p := fun r hr heq => hr (heq ▸ hp)
  have hfresh : ∀ r, (t.proc r).life ≠ .none → (t.proc r).pid ≠ t.nextpid := fun _ => hnum.fresh
  refine ⟨⟨fun x => ?_, fun x => ?_, fun r hr => ?_, ?_⟩, ?_, ?_⟩
  · change x ∈ Insert.insert t.nextpid σ.live ↔
      ∃ r, ((t.set p v).proc r).life = .alive ∧ ((t.set p v).proc r).pid = x
    rw [Set.mem_insert_iff, h.live]
    constructor
    · rintro (rfl | ⟨r, hr, rfl⟩)
      · exact ⟨p, by rw [Table.set_self]; exact ⟨hlife, hpid⟩⟩
      · exact ⟨r, by rw [hproc r (hne r (by rw [hr]; simp))]; exact ⟨hr, rfl⟩⟩
    · rintro ⟨r, hr, hrx⟩
      by_cases hrp : r = p
      · rw [hrp, Table.set_self, hpid] at hrx
        exact .inl hrx.symm
      · rw [hproc r hrp] at hr hrx
        exact .inr ⟨r, hr, hrx⟩
  · change x ∈ σ.zombies ↔
      ∃ r, ((t.set p v).proc r).life = .zombie ∧ ((t.set p v).proc r).pid = x
    rw [h.zombies]
    constructor
    · rintro ⟨r, hr, rfl⟩
      exact ⟨r, by rw [hproc r (hne r (by rw [hr]; simp))]; exact ⟨hr, rfl⟩⟩
    · rintro ⟨r, hr, hrx⟩
      by_cases hrp : r = p
      · rw [hrp, Table.set_self, hlife] at hr
        cases hr
      · rw [hproc r hrp] at hr hrx
        exact ⟨r, hr, hrx⟩
  · change Function.update σ.parent t.nextpid _ ((t.set p v).proc r).pid =
      ((t.set p v).proc r).parent.map fun r => ((t.set p v).proc r).pid
    change ((t.set p v).proc r).life ≠ .none at hr
    by_cases hrp : r = p
    · rw [hrp, Table.set_self, hpid, Function.update_self, hparent, Option.map_some,
        hproc q (hne q (by rw [hq]; simp))]
    · rw [hproc r hrp] at hr ⊢
      rw [Function.update_of_ne (hfresh r hr), h.parent r hr]
      by_cases hri : r = t.initproc
      · rw [hri, hinv.init_parent]
        rfl
      · obtain ⟨r', hr', hlive⟩ := hinv.parent r hr hri
        rw [hr', Option.map_some, Option.map_some, hproc r' (hne r' (by rw [hlive]; simp))]
  · change σ.root = ((t.set p v).proc t.initproc).pid
    rw [h.root, hproc _ (hne _ (by rw [hinv.init_alive]; simp))]
  · rw [h.live]
    rintro ⟨r, hr, heq⟩
    exact hfresh r (by rw [hr]; simp) heq
  · rw [h.zombies]
    rintro ⟨r, hr, heq⟩
    exact hfresh r (by rw [hr]; simp) heq

/-- A process that exits.

**Proof sketch.** Numbers of processes are unique, so the number of the exiting process leaves the
living ones and joins those that have exited, and no other number does. Its children are the
processes whose parent has that number, and these are the ones that the first process takes over. -/
theorem Table.Shows.exited (h : t.Shows σ) (hinv : t.Inv) (hnum : t.Numbered n)
    (hexit : Exited p t t') (halive : (t.proc p).life = .alive) :
    t'.Shows { σ with
      live := σ.live \ {(t.proc p).pid}
      zombies := Insert.insert (t.proc p).pid σ.zombies
      parent := fun b =>
        if σ.parent b = some (t.proc p).pid then some σ.root else σ.parent b } := by
  have hzombie : (t'.proc p).life = .zombie := Proc.life_zombie.mpr hexit.zombie
  have hpid : ∀ q, (t'.proc q).pid = (t.proc q).pid := hexit.pid
  have hlive : (t.proc p).life ≠ .none := by rw [halive]; simp
  refine ⟨fun x => ?_, fun x => ?_, fun q hq => ?_, ?_⟩
  · change x ∈ σ.live \ {(t.proc p).pid} ↔ _
    simp only [Set.mem_sdiff, Set.mem_singleton_iff, h.live, hpid]
    constructor
    · rintro ⟨⟨q, hq, rfl⟩, hne⟩
      have hqp : q ≠ p := fun heq => hne (by rw [heq])
      exact ⟨q, (hexit.life hqp).trans hq, rfl⟩
    · rintro ⟨q, hq, rfl⟩
      have hqp : q ≠ p := by
        rintro rfl
        rw [hzombie] at hq
        cases hq
      rw [hexit.life hqp] at hq
      exact ⟨⟨q, hq, rfl⟩, fun heq =>
        hqp (hnum.pid_inj q p (by rw [hq]; simp) hlive heq)⟩
  · change x ∈ Insert.insert (t.proc p).pid σ.zombies ↔ _
    simp only [Set.mem_insert_iff, h.zombies, hpid]
    constructor
    · rintro (rfl | ⟨q, hq, rfl⟩)
      · exact ⟨p, hzombie, rfl⟩
      · have hqp : q ≠ p := by
          rintro rfl
          rw [halive] at hq
          cases hq
        exact ⟨q, (hexit.life hqp).trans hq, rfl⟩
    · rintro ⟨q, hq, rfl⟩
      by_cases hqp : q = p
      · exact .inl (by rw [hqp])
      · rw [hexit.life hqp] at hq
        exact .inr ⟨q, hq, rfl⟩
  · have hq' : (t.proc q).life ≠ .none := by
      by_cases hqp : q = p
      · rw [hqp]
        exact hlive
      · rw [← hexit.life hqp]
        exact hq
    simp only [hpid, hexit.parent_eq]
    rw [h.parent q hq']
    by_cases hqi : q = t.initproc
    · rw [hqi, hinv.init_parent]
      simp
    · obtain ⟨r, hr, hrl⟩ := hinv.parent q hq' hqi
      rw [hr, Option.map_some]
      by_cases hrp : r = p
      · rw [hrp, if_pos rfl, if_pos rfl, Option.map_some, h.root]
      · have hne : (t.proc r).pid ≠ (t.proc p).pid := fun heq =>
          hrp (hnum.pid_inj r p (by rw [hrl]; simp) hlive heq)
        rw [if_neg fun heq => hne (Option.some.inj heq),
          if_neg fun heq => hrp (Option.some.inj heq), Option.map_some]
  · rw [hexit.initproc, hpid]
    exact h.root

/-- A process that has exited and been waited for is gone.

**Proof sketch.** The number that leaves is the number of one entry only. The living processes stay
as they are, with their parents: an exited process is the parent of none of them. -/
theorem Table.Shows.reaped {v : Proc} (h : t.Shows σ) (hinv : t.Inv) (hnum : t.Numbered n)
    (hq : (t.proc q).life = .zombie) (hlife : v.life = .none) :
    (t.set q v).Shows { σ with zombies := σ.zombies \ {(t.proc q).pid} } := by
  have hproc : ∀ r, r ≠ q → (t.set q v).proc r = t.proc r := fun r => Table.set_ne
  have halive : ∀ r, (t.proc r).life = .alive → r ≠ q := by
    rintro r hr rfl
    rw [hq] at hr
    cases hr
  refine ⟨fun x => ?_, fun x => ?_, fun r hr => ?_, ?_⟩
  · change x ∈ σ.live ↔ _
    rw [h.live]
    constructor
    · rintro ⟨r, hr, rfl⟩
      exact ⟨r, by rw [hproc r (halive r hr)]; exact ⟨hr, rfl⟩⟩
    · rintro ⟨r, hr, hrx⟩
      by_cases hrq : r = q
      · rw [hrq, Table.set_self, hlife] at hr
        cases hr
      · rw [hproc r hrq] at hr hrx
        exact ⟨r, hr, hrx⟩
  · change x ∈ σ.zombies \ {(t.proc q).pid} ↔ _
    rw [Set.mem_sdiff, Set.mem_singleton_iff, h.zombies]
    constructor
    · rintro ⟨⟨r, hr, rfl⟩, hne⟩
      have hrq : r ≠ q := fun heq => hne (by rw [heq])
      exact ⟨r, by rw [hproc r hrq]; exact ⟨hr, rfl⟩⟩
    · rintro ⟨r, hr, hrx⟩
      by_cases hrq : r = q
      · rw [hrq, Table.set_self, hlife] at hr
        cases hr
      · rw [hproc r hrq] at hr hrx
        refine ⟨⟨r, hr, hrx⟩, fun heq => hrq ?_⟩
        exact hnum.pid_inj r q (by rw [hr]; simp) (by rw [hq]; simp) (hrx.trans heq)
  · change σ.parent ((t.set q v).proc r).pid = _
    have hrq : r ≠ q := by
      rintro rfl
      rw [Table.set_self] at hr
      exact hr hlife
    rw [hproc r hrq] at hr ⊢
    rw [h.parent r hr]
    by_cases hri : r = t.initproc
    · rw [hri, hinv.init_parent]
      rfl
    · obtain ⟨r', hr', hlive⟩ := hinv.parent r hr hri
      rw [hr', Option.map_some, Option.map_some, hproc r' (halive r' hlive)]
  · change σ.root = ((t.set q v).proc t.initproc).pid
    rw [h.root, hproc _ (halive _ hinv.init_alive)]

/-! ## The processors -/

/-- What holds of the processors: a process runs exactly if it is the process of a processor, and
then of one only; and one processor at a time has the lock. -/
structure Cpus (t : Table) (mode : Fin NCPU → Mode) : Prop where
  running : ∀ p, (t.proc p).state = .RUNNING ↔ ∃ c, (mode c).proc = some p
  one : ∀ p c d, (mode c).proc = some p → (mode d).proc = some p → c = d
  lock : ∀ c d, (mode c).locked = true → (mode d).locked = true → c = d

/-- A processor that gets the lock, or has it already, or does without it. -/
theorem lock_update (hfree : ∀ d, d ≠ c → (mode d).locked = false) (m : Mode) (d e : Fin NCPU) :
    (Function.update mode c m d).locked = true → (Function.update mode c m e).locked = true →
      d = e := by
  have hother : ∀ d, d ≠ c → (Function.update mode c m d).locked ≠ true := by
    intro d hd
    rw [Function.update_of_ne hd, hfree d hd]
    simp
  intro hd he
  by_cases hdc : d = c
  · by_cases hec : e = c
    · rw [hdc, hec]
    · exact absurd he (hother e hec)
  · exact absurd hd (hother d hdc)

/-- A processor goes on with the process that it has. -/
theorem Cpus.keep (h : Cpus t mode) (hfree : ∀ d, d ≠ c → (mode d).locked = false)
    (hproc : m.proc = (mode c).proc)
    (hrun : ∀ q, (t'.proc q).state = .RUNNING ↔ (t.proc q).state = .RUNNING) :
    Cpus t' (Function.update mode c m) := by
  have hprocs : ∀ d, (Function.update mode c m d).proc = (mode d).proc := by
    intro d
    by_cases hd : d = c
    · rw [hd, Function.update_self, hproc]
    · rw [Function.update_of_ne hd]
  refine ⟨fun q => ?_, fun q d e hd he => ?_, lock_update hfree m⟩
  · simp only [hrun, hprocs]
    exact h.running q
  · rw [hprocs] at hd he
    exact h.one q d e hd he

/-- A process gives up its processor. -/
theorem Cpus.leave (h : Cpus t mode) (hfree : ∀ d, d ≠ c → (mode d).locked = false)
    (hmode : (mode c).proc = some p) (hproc : m.proc = none)
    (hrun : ∀ q, (t'.proc q).state = .RUNNING ↔ (t.proc q).state = .RUNNING ∧ q ≠ p) :
    Cpus t' (Function.update mode c m) := by
  have hprocs : ∀ d q, (Function.update mode c m d).proc = some q ↔
      d ≠ c ∧ (mode d).proc = some q := by
    intro d q
    by_cases hd : d = c
    · rw [hd, Function.update_self, hproc]
      simp
    · rw [Function.update_of_ne hd]
      simp [hd]
  refine ⟨fun q => ?_, fun q d e hd he => ?_, lock_update hfree m⟩
  · simp only [hrun, hprocs, h.running]
    constructor
    · rintro ⟨⟨d, hd⟩, hqp⟩
      refine ⟨d, ?_, hd⟩
      rintro rfl
      exact hqp (Option.some.inj (hd.symm.trans hmode))
    · rintro ⟨d, hdc, hd⟩
      exact ⟨⟨d, hd⟩, fun heq => hdc (h.one p d c (heq ▸ hd) hmode)⟩
  · exact h.one q d e ((hprocs d q).mp hd).2 ((hprocs e q).mp he).2

/-- A processor gets a process. -/
theorem Cpus.pick (h : Cpus t mode) (hfree : ∀ d, d ≠ c → (mode d).locked = false)
    (hmode : (mode c).proc = none) (hproc : m.proc = some p) (hp : (t.proc p).state ≠ .RUNNING)
    (hrun : ∀ q, (t'.proc q).state = .RUNNING ↔ (t.proc q).state = .RUNNING ∨ q = p) :
    Cpus t' (Function.update mode c m) := by
  have hprocs : ∀ d q, (Function.update mode c m d).proc = some q ↔
      d = c ∧ q = p ∨ (mode d).proc = some q := by
    intro d q
    by_cases hd : d = c
    · rw [hd, Function.update_self, hproc, hmode]
      simp [eq_comm]
    · rw [Function.update_of_ne hd]
      simp [hd]
  have hnot : ∀ d, (mode d).proc ≠ some p := fun d hd => hp ((h.running p).mpr ⟨d, hd⟩)
  refine ⟨fun q => ?_, fun q d e hd he => ?_, lock_update hfree m⟩
  · simp only [hrun, hprocs, h.running]
    constructor
    · rintro (⟨d, hd⟩ | rfl)
      · exact ⟨d, .inr hd⟩
      · exact ⟨c, .inl ⟨rfl, rfl⟩⟩
    · rintro ⟨d, ⟨-, rfl⟩ | hd⟩
      · exact .inr rfl
      · exact .inl ⟨d, hd⟩
  · rw [hprocs] at hd he
    rcases hd with ⟨rfl, rfl⟩ | hd
    · rcases he with ⟨rfl, -⟩ | he
      · rfl
      · exact absurd he (hnot e)
    · rcases he with ⟨rfl, rfl⟩ | he
      · exact absurd hd (hnot d)
      · exact h.one q d e hd he

/-! ## One action -/

/-- What holds of the system. -/
structure Sys.Sound (s : Sys) : Prop where
  table : s.table.Inv
  cpus : Cpus s.table s.mode

/-- The process table is the tree `σ`, and `n` process numbers have been given out. -/
structure Table.Tracks (t : Table) (n : ℕ) (σ : Tree) : Prop where
  numbered : t.Numbered n
  shows : t.Shows σ

/-- Changes that leave parents and stages alone. -/
theorem Table.Tracks.congr (h : t.Tracks n σ) (hinit : t'.initproc = t.initproc)
    (hnext : t'.nextpid = t.nextpid) (hsame : ∀ p, (t.proc p).Same (t'.proc p)) :
    t'.Tracks n σ :=
  ⟨h.numbered.congr hnext hsame, h.shows.congr hinit hsame⟩

/-- A child of a process that lives, by the numbers. -/
theorem Table.Tracks.child (h : t.Tracks n σ) (hinv : t.Inv) (halive : (t.proc p).life = .alive)
    (hq : (t.proc q).life ≠ .none) (heq : σ.parent (t.proc q).pid = some (t.proc p).pid) :
    (t.proc q).parent = some p := by
  rw [h.shows.parent q hq] at heq
  obtain ⟨r, hr, hrp⟩ := Option.map_eq_some_iff.mp heq
  have hqi : q ≠ t.initproc := by
    rintro rfl
    rw [hinv.init_parent] at hr
    cases hr
  obtain ⟨r', hr', hlive⟩ := hinv.parent q hq hqi
  obtain rfl : r = r' := Option.some.inj (hr.symm.trans hr')
  rw [hr, h.numbered.pid_inj r p (by rw [hlive]; simp) (by rw [halive]; simp) hrp]

/-- The process numbers that an action may use up. -/
def Act.forks : Act → ℕ
  | .fork _ _ _ => 1
  | _ => 0

/-- What an action leaves that may use up `k` process numbers: what holds of the system, and, as
long as there are process numbers left, the tree that has followed what has been seen. -/
structure Follows (s : Sys) (k : ℕ) (s' : Sys) (seen : List Event) : Prop where
  sound : s'.Sound
  tree : ∀ n σ, n + 2 < 2 ^ 31 → s.table.Tracks n σ → ∃ n' σ',
    accepts Tree.accept seen σ = some σ' ∧ s'.table.Tracks n' σ' ∧ n' ≤ n + k

/-- A state is that of a process that runs, or is not. -/
theorem wakeup1_running (chan : Chan) (t : Table) (q : Slot) :
    ((wakeup1 chan t).proc q).state = .RUNNING ↔ (t.proc q).state = .RUNNING := by
  rcases wakeup1_proc chan t q with h | ⟨hsleep, h⟩
  · rw [h]
  · rw [h, hsleep]
    simp

theorem kill_running (pid : Int32) (t : Table) (q : Slot) :
    ((kill pid t).proc q).state = .RUNNING ↔ (t.proc q).state = .RUNNING := by
  rcases kill_state pid t q with h | ⟨hsleep, h⟩
  · rw [h]
  · rw [h, hsleep]
    simp

theorem life_running {v : Proc} (h : v.state = .RUNNING) : v.life = .alive := by
  unfold Proc.life
  rw [h]
  rfl

/-- An entry whose state is not that of a process that runs, before and after. -/
theorem running_set {v : Proc} (hp : (t.proc p).state ≠ .RUNNING) (hv : v.state ≠ .RUNNING)
    (q : Slot) : ((t.set p v).proc q).state = .RUNNING ↔ (t.proc q).state = .RUNNING := by
  by_cases hq : q = p
  · rw [hq, Table.set_self]
    exact ⟨fun h => absurd h hv, fun h => absurd h hp⟩
  · rw [Table.set_ne hq]

/-- An entry of a process that does not run any more. -/
theorem running_stop {v : Proc} (hv : v.state ≠ .RUNNING) (q : Slot) :
    ((t.set p v).proc q).state = .RUNNING ↔ (t.proc q).state = .RUNNING ∧ q ≠ p := by
  by_cases hq : q = p
  · rw [hq, Table.set_self]
    simp [hv]
  · rw [Table.set_ne hq]
    simp [hq]

/-- A processor goes on, and parents and stages are left alone. -/
theorem follows_keep (h : s.Sound) (hfree : s.free c) (hproc : m.proc = (s.mode c).proc)
    (hinv : t'.Inv) (hinit : t'.initproc = s.table.initproc)
    (hnext : t'.nextpid = s.table.nextpid) (hsame : ∀ p, (s.table.proc p).Same (t'.proc p))
    (hrun : ∀ q, (t'.proc q).state = .RUNNING ↔ (s.table.proc q).state = .RUNNING) (k : ℕ) :
    Follows s k (s.set c m t') [] :=
  ⟨⟨hinv, h.cpus.keep hfree hproc hrun⟩,
    fun n σ _ htree => ⟨n, σ, rfl, htree.congr hinit hnext hsame, Nat.le_add_right ..⟩⟩

/-- A process gives up its processor, and parents and stages are left alone. -/
theorem follows_leave {v : Proc} (h : s.Sound) (hfree : s.free c)
    (hmode : (s.mode c).proc = some p) (hsame : (s.table.proc p).Same v)
    (hv : v.state ≠ .RUNNING) (hinv : (s.table.set p v).Inv) :
    Follows s 0 (s.sched c p (s.table.set p v)) [] :=
  ⟨⟨hinv, h.cpus.leave hfree hmode rfl (running_stop hv)⟩,
    fun n σ _ htree => ⟨n, σ, rfl, htree.congr rfl rfl (set_same hsame), le_rfl⟩⟩

/-- `fork` -/
theorem follows_fork {kalloc copyuvm : Bool} (h : s.Sound) (hfree : s.free c)
    (hmode : s.mode c = .run p) (hcall : call c p s (.fork c kalloc copyuvm) = .goes s' seen) :
    Follows s 1 s' seen := by
  have hrunning : (s.table.proc p).state = .RUNNING :=
    (h.cpus.running p).mpr ⟨c, by rw [hmode]; rfl⟩
  have halive := life_running hrunning
  have hspec := fork_spec p kalloc copyuvm s.table h.table.kstack
  simp only [call] at hcall
  generalize fork p kalloc copyuvm s.table = r at hspec hcall
  have hproc : (Mode.run p).proc = (s.mode c).proc := by rw [hmode]
  cases hspec with
  | full =>
    cases hcall
    exact follows_keep h hfree hproc h.table rfl rfl (fun _ => .refl _) (fun _ => Iff.rfl) 1
  | failed np context hnp =>
    cases hcall
    have hstate : (s.table.proc np).state ≠ .RUNNING := by
      rw [Proc.life_none.mp hnp]
      simp
    exact ⟨⟨h.table.failed hnp hnp rfl rfl, h.cpus.keep hfree hproc (running_set hstate hstate)⟩,
      fun n σ hn htree => ⟨n + 1, σ, rfl, ⟨htree.numbered.failed hn hnp,
        htree.shows.unused h.table hnp hnp⟩, le_rfl⟩⟩
  | born np hnp =>
    cases hcall
    have hstate : (s.table.proc np).state ≠ .RUNNING := by
      rw [Proc.life_none.mp hnp]
      simp
    refine ⟨⟨h.table.born hnp rfl rfl rfl halive,
      h.cpus.keep hfree hproc (running_set hstate (by simp))⟩, fun n σ hn htree => ?_⟩
    obtain ⟨hshows, hlive, hzombie⟩ := htree.shows.born (v := { s.table.proc np with
      state := .RUNNABLE, pid := s.table.nextpid, parent := some p, kstack := true,
      context := .forkret }) h.table htree.numbered hnp rfl rfl rfl halive
    refine ⟨n + 1, _, ?_, ⟨htree.numbered.born hn rfl, hshows⟩, le_rfl⟩
    rw [accepts_singleton]
    change Tree.accept (.forked (s.table.proc p).pid ((s.table.set np _).proc np).pid) σ = _
    rw [Table.set_self]
    exact if_pos ⟨(htree.shows.live _).mpr ⟨p, halive, rfl⟩, hlive, hzombie⟩

/-- `exit` -/
theorem follows_exit (h : s.Sound) (hfree : s.free c) (hmode : s.mode c = .run p)
    (hcall : call c p s (.exit c) = .goes s' seen) : Follows s 0 s' seen := by
  have hproc : (s.mode c).proc = some p := by rw [hmode]; rfl
  have hrunning : (s.table.proc p).state = .RUNNING := (h.cpus.running p).mpr ⟨c, hproc⟩
  have halive := life_running hrunning
  simp only [call] at hcall
  split_ifs at hcall with hinit
  have hspec := exit_spec s.table hinit
  cases hcall
  refine ⟨⟨h.table.exited hspec hinit halive, h.cpus.leave hfree hproc rfl fun q => ?_⟩,
    fun n σ hn htree => ⟨n, _, ?_, ⟨htree.numbered.exited hspec halive,
      htree.shows.exited h.table htree.numbered hspec halive⟩, le_rfl⟩⟩
  · change ((exit p s.table).proc q).state = .RUNNING ↔ _
    by_cases hqp : q = p
    · rw [hqp, hspec.zombie]
      simp
    · rcases hspec.state q hqp with hsame | ⟨hold, hnew⟩
      · rw [hsame]
        simp [hqp]
      · rw [hnew, hold]
        simp
  · rw [accepts_singleton]
    refine if_pos ⟨(htree.shows.live _).mpr ⟨p, halive, rfl⟩, fun heq => hinit ?_⟩
    rw [htree.shows.root] at heq
    exact htree.numbered.pid_inj _ _ (by rw [halive]; simp) (by rw [h.table.init_alive]; simp) heq

/-- `wait`, from its start or from its sleep.

**Proof sketch.** By what `wait` does (`wait_spec`). If a child is freed the tree loses its number
(`Table.Inv.reaped`, `Table.Shows.reaped`), and the event says which one. If there are no children,
or the process has been killed, the table is as before, and the event says which of the two it was.
Otherwise the process goes to sleep, with a child that has not exited. -/
theorem follows_waits (h : s.Sound) (hfree : s.free c) (hmode : (s.mode c).proc = some p)
    (hcall : s.waits c p = .goes s' seen) : Follows s 0 s' seen := by
  have hrunning : (s.table.proc p).state = .RUNNING := (h.cpus.running p).mpr ⟨c, hmode⟩
  have halive := life_running hrunning
  have hawake : (s.table.proc p).state ≠ .SLEEPING := by
    rw [hrunning]
    simp
  have hspec := wait_spec p s.table
  have hproc : (Mode.run p).proc = (s.mode c).proc := hmode.symm
  simp only [Sys.waits] at hcall
  generalize wait p s.table = r at hspec hcall
  cases hspec with
  | reaped q hparent hzombie =>
    cases hcall
    have hz := Proc.life_zombie.mpr hzombie
    refine ⟨⟨h.table.reaped hz hparent hawake rfl rfl rfl,
      h.cpus.keep hfree hproc (running_set (by rw [hzombie]; simp) (by simp))⟩,
      fun n σ _ htree => ⟨n, _, ?_, ⟨htree.numbered.reaped rfl,
        htree.shows.reaped h.table htree.numbered hz rfl⟩, le_rfl⟩⟩
    rw [accepts_singleton]
    refine if_pos ⟨(htree.shows.live _).mpr ⟨p, halive, rfl⟩,
      (htree.shows.zombies _).mpr ⟨q, hz, rfl⟩, ?_⟩
    rw [htree.shows.parent q (by rw [hz]; simp), hparent]
    rfl
  | childless hnone =>
    cases hcall
    refine ⟨⟨h.table, h.cpus.keep hfree hproc fun _ => Iff.rfl⟩,
      fun n σ _ htree => ⟨n, σ, ?_, htree, le_rfl⟩⟩
    rw [accepts_singleton]
    refine if_pos ⟨(htree.shows.live _).mpr ⟨p, halive, rfl⟩, fun x hx heq => ?_⟩
    obtain ⟨q, hq, rfl⟩ : ∃ q, (s.table.proc q).life ≠ .none ∧ (s.table.proc q).pid = x := by
      rcases hx with hx | hx
      · obtain ⟨q, hq, hqx⟩ := (htree.shows.live x).mp hx
        exact ⟨q, by rw [hq]; simp, hqx⟩
      · obtain ⟨q, hq, hqx⟩ := (htree.shows.zombies x).mp hx
        exact ⟨q, by rw [hq]; simp, hqx⟩
    exact hnone q (htree.child h.table halive hq heq)
  | killed hkilled hchild hzombie =>
    cases hcall
    refine ⟨⟨h.table, h.cpus.keep hfree hproc fun _ => Iff.rfl⟩,
      fun n σ _ htree => ⟨n, σ, ?_, htree, le_rfl⟩⟩
    rw [accepts_singleton]
    refine if_pos ⟨(htree.shows.live _).mpr ⟨p, halive, rfl⟩, ?_, fun x hx heq => ?_⟩
    · obtain ⟨q, hq⟩ := hchild
      have hlive : (s.table.proc q).life = .alive := by
        cases hlife : (s.table.proc q).life with
        | none =>
          rw [h.table.unused q hlife] at hq
          cases hq
        | embryo => exact absurd hlife (h.table.embryo q)
        | alive => rfl
        | zombie => exact absurd (Proc.life_zombie.mp hlife) (hzombie q hq)
      refine ⟨_, (htree.shows.live _).mpr ⟨q, hlive, rfl⟩, ?_⟩
      rw [htree.shows.parent q (by rw [hlive]; simp), hq]
      rfl
    · obtain ⟨q, hq, rfl⟩ := (htree.shows.zombies x).mp hx
      exact hzombie q (htree.child h.table halive (by rw [hq]; simp) heq) (Proc.life_zombie.mp hq)
  | asleep hkilled hchild hzombie =>
    cases hcall
    exact follows_leave h hfree hmode ⟨halive.symm, rfl, rfl, rfl⟩ (by simp)
      (h.table.asleepWait halive hkilled hchild hzombie)

theorem clear_same (t : Table) (p q : Slot) :
    (t.proc q).Same ((t.set p { t.proc p with chan := none }).proc q) :=
  set_same (v := { t.proc p with chan := none }) ⟨rfl, rfl, rfl, rfl⟩ q

/-- The process that a processor has goes on from its `sleep`: its channel is cleared. -/
theorem Sys.Sound.clear (h : s.Sound) (hmode : (s.mode c).proc = some p) :
    ({ s with table := s.table.set p { s.table.proc p with chan := none } } : Sys).Sound := by
  have hrunning : (s.table.proc p).state = .RUNNING := (h.cpus.running p).mpr ⟨c, hmode⟩
  refine ⟨h.table.set ⟨rfl, rfl, rfl, rfl⟩ fun hsleep => ?_, ⟨fun q => ?_, h.cpus.one, h.cpus.lock⟩⟩
  · rw [show (s.table.proc p).state = .SLEEPING from hsleep] at hrunning
    cases hrunning
  · rw [← h.cpus.running q]
    change ((s.table.set p _).proc q).state = .RUNNING ↔ _
    by_cases hq : q = p
    · rw [hq, Table.set_self]
    · rw [Table.set_ne hq]

/-- What an action leaves, if the state before it has shown the same tree as another one. -/
theorem Follows.of_same {s₁ : Sys} {k : ℕ} (h : Follows s₁ k s' seen)
    (hinit : s₁.table.initproc = s.table.initproc) (hnext : s₁.table.nextpid = s.table.nextpid)
    (hsame : ∀ p, (s.table.proc p).Same (s₁.table.proc p)) : Follows s k s' seen :=
  ⟨h.sound, fun n σ hn htree => h.tree n σ hn (htree.congr hinit hnext hsame)⟩

/-- `scheduler`, or the process to which it has switched, goes on.

**Proof sketch.** By the mode of the processor. `scheduler` takes its lock, passes an entry that is
not `RUNNABLE`, or makes one `RUNNING`, which changes no stage and no parent (`Cpus.pick`). A
process that has been switched to goes on after `sched`: where it came from `sleep` its `chan` is
cleared, and where it came from `wait` the loop is entered again (`follows_waits`). -/
theorem follows_tick (h : s.Sound) (hfree : s.free c) (hcall : tick c s = .goes s' seen) :
    Follows s 0 s' seen := by
  unfold tick at hcall
  split at hcall
  · next hmode =>
    cases hcall
    exact follows_keep h hfree (by rw [hmode]; rfl) h.table rfl rfl (fun _ => .refl _)
      (fun _ => Iff.rfl) 0
  · next i hmode =>
    have hnone : (s.mode c).proc = none := by rw [hmode]; rfl
    by_cases hi : i < NPROC
    · rw [dif_pos hi] at hcall
      dsimp only at hcall
      by_cases hstate : (s.table.proc ⟨i, hi⟩).state = .RUNNABLE
      · rw [if_neg (not_not.mpr hstate)] at hcall
        cases hcall
        have hsame : (s.table.proc ⟨i, hi⟩).Same
            { s.table.proc ⟨i, hi⟩ with state := .RUNNING } := by
          refine ⟨?_, rfl, rfl, rfl⟩
          unfold Proc.life
          rw [hstate]
          rfl
        refine ⟨⟨h.table.set hsame (by simp), h.cpus.pick hfree hnone rfl
          (by rw [hstate]; simp) fun q => ?_⟩, fun n σ _ htree =>
            ⟨n, σ, rfl, htree.congr rfl rfl (set_same hsame), le_rfl⟩⟩
        change ((s.table.set ⟨i, hi⟩ _).proc q).state = .RUNNING ↔ _
        by_cases hq : q = ⟨i, hi⟩
        · rw [hq, Table.set_self]
          simp
        · rw [Table.set_ne hq]
          simp [hq]
      · rw [if_pos hstate] at hcall
        cases hcall
        exact follows_keep h hfree (by rw [hmode]; rfl) h.table rfl rfl (fun _ => .refl _)
          (fun _ => Iff.rfl) 0
    · rw [dif_neg hi] at hcall
      cases hcall
      exact follows_keep h hfree (by rw [hmode]; rfl) h.table rfl rfl (fun _ => .refl _)
        (fun _ => Iff.rfl) 0
  · next p hmode =>
    have hproc : (s.mode c).proc = some p := by rw [hmode]; rfl
    have hclear := h.clear hproc
    have hrun : (Mode.run p).proc = (s.mode c).proc := hproc.symm
    split at hcall
    · cases hcall
      exact follows_keep h hfree hrun h.table rfl rfl (fun _ => .refl _) (fun _ => Iff.rfl) 0
    · cases hcall
      exact follows_keep h hfree hrun h.table rfl rfl (fun _ => .refl _) (fun _ => Iff.rfl) 0
    · cases hcall
      exact (follows_keep hclear hfree hrun hclear.table rfl rfl (fun _ => .refl _)
        (fun _ => Iff.rfl) 0).of_same rfl rfl (clear_same s.table p)
    · exact (follows_waits hclear hfree hproc hcall).of_same rfl rfl (clear_same s.table p)
  · cases hcall

/-- What a process does outside of the lock. -/
theorem follows_call (h : s.Sound) (hfree : s.free a.cpu) (hmode : s.mode a.cpu = .run p)
    (hcall : call a.cpu p s a = .goes s' seen) : Follows s a.forks s' seen := by
  have hproc : (s.mode a.cpu).proc = some p := by rw [hmode]; rfl
  have hrunning : (s.table.proc p).state = .RUNNING := (h.cpus.running p).mpr ⟨_, hproc⟩
  have halive := life_running hrunning
  have hkeep : (Mode.run p).proc = (s.mode a.cpu).proc := hproc.symm
  cases a with
  | tick c => cases hcall
  | fork c kalloc copyuvm => exact follows_fork h hfree hmode hcall
  | exit c => exact follows_exit h hfree hmode hcall
  | wait c => exact follows_waits h hfree hproc hcall
  | sleep c chan =>
    cases hcall
    exact follows_leave h hfree hproc ⟨halive.symm, rfl, rfl, rfl⟩ (by simp)
      (h.table.set ⟨halive.symm, rfl, rfl, rfl⟩ fun _ => rfl)
  | yield c =>
    cases hcall
    exact follows_leave h hfree hproc ⟨halive.symm, rfl, rfl, rfl⟩ (by simp)
      (h.table.set ⟨halive.symm, rfl, rfl, rfl⟩ (by simp))
  | kill c pid =>
    cases hcall
    obtain ⟨hinit, hnext⟩ := kill_initproc pid s.table
    exact follows_keep h hfree hkeep (h.table.kill pid) hinit hnext (kill_same pid s.table)
      (kill_running pid s.table) 0
  | wakeup c chan =>
    cases hcall
    exact follows_keep h hfree hkeep (h.table.wakeup1 _) rfl rfl (wakeup1_same _ s.table)
      (wakeup1_running _ s.table) 0

/-- **One action.** The tree follows it. -/
theorem follows_step (h : s.Sound) (hstep : step a s = .goes s' seen) :
    Follows s a.forks s' seen := by
  unfold step at hstep
  split_ifs at hstep with hfree
  split at hstep
  · next c _ => exact follows_tick h hfree hstep
  · next c chan hmode =>
    cases hstep
    exact follows_keep h hfree (by rw [hmode]) (h.table.wakeup1 _) rfl rfl
      (wakeup1_same _ s.table) (wakeup1_running _ s.table) 0
  · next p hmode => exact follows_call h hfree hmode hstep
  · cases hstep

/-! ## Schedules -/

/-- The tree behind `userinit`. -/
def Tree.boot : Tree where
  live := {1}
  zombies := ∅
  parent := fun _ => none
  root := 1

/-- The table behind `userinit`. -/
theorem userinit_eq : userinit =
    { proc := Function.update (fun _ => ⟨.UNUSED, 0, none, false, .forkret, none, false⟩) 0
        ⟨.RUNNABLE, 1, none, true, .forkret, none, false⟩
      initproc := 0
      nextpid := 2 } := by
  have hfind : (List.finRange NPROC).find? (fun _ => decide True) = some 0 := by decide
  unfold userinit allocproc
  simp only [if_true, Table.set]
  rw [hfind]
  simp only [Function.update_self, Function.update_idem]
  rfl

/-- The start of the system.

**Proof sketch.** `userinit` leaves one entry in use, the first one, which is `RUNNABLE`, has the
number 1 and no parent; no processor runs anything. The parts of the invariant and of the tree are
then read off the table, for the first entry and for the others. -/
theorem sound_boot : Sys.boot.Sound ∧ Sys.boot.table.Tracks 1 Tree.boot := by
  have hself : Sys.boot.table.proc 0 = ⟨.RUNNABLE, 1, none, true, .forkret, none, false⟩ := by
    rw [Sys.boot, userinit_eq]
    dsimp only
    rw [Function.update_self]
  have hother : ∀ p, p ≠ 0 →
      Sys.boot.table.proc p = ⟨.UNUSED, 0, none, false, .forkret, none, false⟩ := by
    intro p hp
    rw [Sys.boot, userinit_eq]
    dsimp only
    rw [Function.update_of_ne hp]
  have hinit : Sys.boot.table.initproc = 0 := by rw [Sys.boot, userinit_eq]
  have hnext : Sys.boot.table.nextpid = 2 := by rw [Sys.boot, userinit_eq]
  have hlife : ∀ p, (Sys.boot.table.proc p).life = if p = 0 then .alive else .none := by
    intro p
    split_ifs with hp
    · rw [hp, hself]
      rfl
    · rw [hother p hp]
      rfl
  have hparent : ∀ p, (Sys.boot.table.proc p).parent = none := by
    intro p
    by_cases hp : p = 0
    · rw [hp, hself]
    · rw [hother p hp]
  have hlive : ∀ p, (Sys.boot.table.proc p).life ≠ .none → p = 0 := by
    intro p hp
    by_contra hne
    rw [hlife, if_neg hne] at hp
    exact hp rfl
  have hstate : ∀ p, (Sys.boot.table.proc p).state = .RUNNABLE ∨
      (Sys.boot.table.proc p).state = .UNUSED := by
    intro p
    by_cases hp : p = 0
    · rw [hp, hself]
      exact .inl rfl
    · rw [hother p hp]
      exact .inr rfl
  refine ⟨⟨⟨?_, ?_, fun p => ?_, fun p _ => hparent p, fun p hp hne => ?_, fun p => ?_,
    fun p => ?_, fun p hp => ?_⟩, ⟨fun p => ?_, ?_, ?_⟩⟩,
    ⟨by rw [hnext]; rfl, fun p hp => ?_, fun p q hp hq _ => ?_⟩,
    ⟨fun x => ?_, fun x => ?_, fun p hp => ?_, ?_⟩⟩
  · rw [hinit, hlife, if_pos rfl]
  · exact hparent _
  · rw [hlife]
    split_ifs <;> simp
  · exact absurd ((hlive p hp).trans hinit.symm) hne
  · rw [hparent]
    simp
  · rw [hlife]
    split_ifs with hp
    · rw [hp, hself]
      simp
    · rw [hother p hp]
      simp
  · rcases hstate p with h | h <;> rw [h] at hp <;> cases hp
  · constructor
    · intro hp
      rcases hstate p with h | h <;> rw [h] at hp <;> cases hp
    · rintro ⟨c, hc⟩
      cases hc
  · intro p c d hc
    cases hc
  · intro c d hc
    cases hc
  · rw [hlive p hp, hself]
    decide
  · rw [hlive p hp, hlive q hq]
  · constructor
    · rintro rfl
      exact ⟨0, by rw [hlife, if_pos rfl], by rw [hself]⟩
    · rintro ⟨p, hp, hx⟩
      rw [hlive p (by rw [hp]; simp), hself] at hx
      exact hx.symm
  · constructor
    · rintro ⟨⟩
    · rintro ⟨p, hp, -⟩
      rw [hlife] at hp
      split_ifs at hp
  · rw [hparent]
    rfl
  · rw [hinit, hself]
    rfl

/-- What holds of the system after any schedule. -/
theorem sound_run (h : s.Sound) (hrun : Reaction.run step acts s = .goes s' seen) : s'.Sound := by
  have hkeeps : Preserves step (fun _ => True) Sys.Sound := by
    intro a t t' seen' _ ht hstep
    exact (follows_step ht hstep).sound
  exact hkeeps.run (fun _ _ => trivial) h hrun

/-- The tree follows every schedule that leaves process numbers. -/
theorem tracks_run (hn : n + 2 + (acts.map Act.forks).sum < 2 ^ 31) (h : s.Sound)
    (htree : s.table.Tracks n σ) (hrun : Reaction.run step acts s = .goes s' seen) :
    ∃ n' σ', accepts Tree.accept seen σ = some σ' ∧ s'.table.Tracks n' σ' := by
  induction acts generalizing s n σ seen with
  | nil =>
    obtain ⟨rfl, rfl⟩ := Reaction.run_nil.mp hrun
    exact ⟨n, σ, rfl, htree⟩
  | cons a acts ih =>
    obtain ⟨t, seen₁, seen₂, hstep, hrest, rfl⟩ := Reaction.run_cons.mp hrun
    rw [List.map_cons, List.sum_cons] at hn
    have hfollows := follows_step h hstep
    obtain ⟨n₁, σ₁, hacc, htree₁, hle⟩ := hfollows.tree n σ (by omega) htree
    obtain ⟨n', σ', hacc', htree'⟩ := ih (by omega) hfollows.sound htree₁ hrest
    exact ⟨n', σ', (accepts_append hacc).trans hacc', htree'⟩

/-- **The tree of processes.** Whatever the processors do and in whatever order they get the lock,
as long as process numbers do not overflow: what `fork`, `exit` and `wait` have done and returned is
what a tree of processes allows that starts with the first process, and the process table still is
that tree.

**Proof sketch.** By induction on the schedule. Every step keeps the invariant and changes the table
as its event changes the tree (`follows_step`); the number of a new process is one that no other
has, as the numbers go up and do not overflow (`tracks_run`). -/
theorem tree_run (hn : (acts.map Act.forks).sum < 2 ^ 31 - 3)
    (h : Reaction.run step acts Sys.boot = .goes s seen) :
    ∃ σ, accepts Tree.accept seen Tree.boot = some σ ∧ s.table.Shows σ := by
  obtain ⟨n', σ', hacc, htree⟩ := tracks_run (by omega) sound_boot.1 sound_boot.2 h
  exact ⟨σ', hacc, htree.shows⟩

/-- The first process forks and waits; its child exits. -/
theorem tree_run_family : ∃ s seen, Reaction.run step
      ([.tick 0, .tick 0, .tick 0, .fork 0 true true, .wait 0, .tick 0, .tick 0, .exit 0] ++
        List.replicate 66 (.tick 0)) Sys.boot = .goes s seen ∧
    seen = [.picked 0 0, .forked 1 2, .picked 0 1, .exited 2, .picked 0 0, .reaped 1 2] ∧
    ∃ σ, accepts Tree.accept seen Tree.boot = some σ ∧ s.table.Shows σ := by
  obtain ⟨s, seen, h, hseen⟩ := Reaction.exists_of_ends (r := Reaction.run step
      ([.tick 0, .tick 0, .tick 0, .fork 0 true true, .wait 0, .tick 0, .tick 0, .exit 0] ++
        List.replicate 66 (.tick 0)) Sys.boot)
    (P := fun _ seen => seen =
      [.picked 0 0, .forked 1 2, .picked 0 1, .exited 2, .picked 0 0, .reaped 1 2])
    (by decide +kernel)
  exact ⟨s, seen, h, of_decide_eq_true hseen, tree_run (by decide) h⟩

/-- **Processors, parents and sleep.** After any schedule a process runs exactly if one processor
has it; every process but the first one has a parent that lives; and who sleeps in `wait` has not
been killed and has children, of which none has exited.

**Proof sketch.** All three are parts of the invariant `Sound`, which every schedule keeps
(`sound_run`). -/
theorem table_run (h : Reaction.run step acts Sys.boot = .goes s seen) :
    (∀ p, (s.table.proc p).state = .RUNNING ↔ ∃! c, (s.mode c).proc = some p) ∧
    (∀ p, (s.table.proc p).life ≠ .none → p ≠ s.table.initproc →
      ∃ q, (s.table.proc p).parent = some q ∧ (s.table.proc q).life = .alive) ∧
    ∀ p, (s.table.proc p).state = .SLEEPING → (s.table.proc p).context = .wait →
      s.table.Waiting p := by
  have hsound := sound_run sound_boot.1 h
  refine ⟨fun p => ?_, hsound.table.parent, fun p hp hcontext => ?_⟩
  · rw [hsound.cpus.running]
    exact ⟨fun ⟨c, hc⟩ => ⟨c, hc, fun d hd => hsound.cpus.one p d c hd hc⟩,
      fun ⟨c, hc, _⟩ => ⟨c, hc⟩⟩
  · rcases hsound.table.asleep p hp with hsleep | hwait
    · rw [hcontext] at hsleep
      cases hsleep
    · exact hwait.2

/-- The first process waits for its child, which runs. -/
theorem table_run_family : ∃ s seen, Reaction.run step
      [.tick 0, .tick 0, .tick 0, .fork 0 true true, .wait 0, .tick 0, .tick 0] Sys.boot =
        .goes s seen ∧
    ((s.table.proc 0).state = .SLEEPING ∧ (s.table.proc 0).context = .wait ∧
      (s.mode 0).proc = some 1) ∧
    (∀ p, (s.table.proc p).state = .RUNNING ↔ ∃! c, (s.mode c).proc = some p) ∧
    (∀ p, (s.table.proc p).life ≠ .none → p ≠ s.table.initproc →
      ∃ q, (s.table.proc p).parent = some q ∧ (s.table.proc q).life = .alive) ∧
    ∀ p, (s.table.proc p).state = .SLEEPING → (s.table.proc p).context = .wait →
      s.table.Waiting p := by
  obtain ⟨s, seen, h, hs⟩ := Reaction.exists_of_ends (r := Reaction.run step
      [.tick 0, .tick 0, .tick 0, .fork 0 true true, .wait 0, .tick 0, .tick 0] Sys.boot)
    (P := fun s _ => (s.table.proc 0).state = .SLEEPING ∧ (s.table.proc 0).context = .wait ∧
      (s.mode 0).proc = some 1) (by decide +kernel)
  exact ⟨s, seen, h, of_decide_eq_true hs, table_run h⟩

end HgXv6.Sched
