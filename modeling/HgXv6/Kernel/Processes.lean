import HgXv6.Base
import HgXv6.Kernel.Descriptors
import HgXv6.Lib.Transition
import Mathlib.Data.Fintype.Basic

set_option relaxedAutoImplicit false
set_option autoImplicit false

/-!
# The process table and the scheduler

The process table (`proc.c`), the processors, and what they do under `ptable.lock`: `fork`, `exit`,
`wait`, `sleep`, `wakeup`, `kill`, `yield` and the loop of `scheduler`. A processor that has the
lock keeps it over a switch between a process and the scheduler, so that the stretches of code up
to the next switch or the release of the lock are the actions of the system, and any list of them
that the lock allows is a schedule. A process that is not under the lock does what it likes: it may
call any of the functions at any time.

What the functions find outside of the table is an argument: whether there is memory for a kernel
stack and for a copy of the address space.

## Main definitions

* `HgXv6.Sched.Proc`, `HgXv6.Sched.Table`, `HgXv6.Sched.Sys` — the table and the processors.
* `HgXv6.Sched.allocproc`, `HgXv6.Sched.fork`, `HgXv6.Sched.exit`, `HgXv6.Sched.wait`,
  `HgXv6.Sched.wakeup1`, `HgXv6.Sched.kill`, `HgXv6.Sched.userinit` — the source functions.
* `HgXv6.Sched.Act`, `HgXv6.Sched.step` — the actions.
-/

namespace HgXv6.Sched

open Prog
open Descriptors (NPROC)

/-- `#define NCPU 8` -/
abbrev NCPU : ℕ := 8

/-- A pointer to an entry of the process table. -/
abbrev Slot : Type := Fin NPROC

/-- `enum procstate` -/
inductive ProcState
  | UNUSED
  | EMBRYO
  | SLEEPING
  | RUNNABLE
  | RUNNING
  | ZOMBIE
deriving DecidableEq

/-- What a process sleeps on: the address of an entry of the process table, or another one. -/
inductive Chan
  | proc (p : Slot)
  | other (n : ℕ)
deriving DecidableEq

/-- Where a process goes on when the scheduler switches to it: behind `sched` in `yield`, in
`sleep` or in the `sleep` of `wait`, or in `forkret`. -/
inductive Context
  | forkret
  | yield
  | sleep
  | wait
deriving DecidableEq

/-- `struct proc`, as far as the functions here use it. -/
structure Proc where
  state : ProcState
  pid : Int32
  parent : Option Slot
  /-- if it has one, the kernel stack is there -/
  kstack : Bool
  context : Context
  chan : Option Chan
  killed : Bool

/-- `ptable`, `initproc` and `nextpid` -/
structure Table where
  proc : Slot → Proc
  initproc : Slot
  nextpid : Int32

/-- A change to an entry. -/
def Table.set (p : Slot) (v : Proc) (t : Table) : Table :=
  { t with proc := Function.update t.proc p v }

/-! ## The functions -/

/-- `allocproc`; `kalloc` says whether there is a page for the kernel stack. -/
def allocproc (kalloc : Bool) (t : Table) : Option Slot × Table :=
  match (List.finRange NPROC).find? fun p => (t.proc p).state = .UNUSED with
  | none => (none, t)
  | some p =>
    let t := { t.set p { t.proc p with state := .EMBRYO, pid := t.nextpid } with
      nextpid := t.nextpid + 1 }
    if kalloc then (some p, t.set p { t.proc p with kstack := true, context := .forkret })
    else (none, t.set p { t.proc p with state := .UNUSED })

/-- `fork` of the process `proc`: the new process, if there is one. `copyuvm` says whether there is
memory for its address space. -/
def fork (proc : Slot) (kalloc copyuvm : Bool) (t : Table) : Option Slot × Table :=
  match allocproc kalloc t with
  | (none, t) => (none, t)
  | (some np, t) =>
    if copyuvm then
      let t := t.set np { t.proc np with parent := some proc }
      (some np, t.set np { t.proc np with state := .RUNNABLE })
    else (none, t.set np { t.proc np with kstack := false, state := .UNUSED })

/-- `wakeup1` -/
def wakeup1 (chan : Chan) (t : Table) : Table :=
  { t with
    proc := fun p =>
      if (t.proc p).state = .SLEEPING ∧ (t.proc p).chan = some chan then
        { t.proc p with state := .RUNNABLE }
      else t.proc p }

/-- The body of the loop in `exit` of the process `proc`. -/
def abandon (proc : Slot) (t : Table) (p : Slot) : Table :=
  if (t.proc p).parent = some proc then
    let t := t.set p { t.proc p with parent := some t.initproc }
    if (t.proc p).state = .ZOMBIE then wakeup1 (.proc t.initproc) t else t
  else t

/-- `exit` of the process `proc`, under the lock. -/
def exit (proc : Slot) (t : Table) : Table :=
  -- Parent might be sleeping in wait().
  let t :=
    match (t.proc proc).parent with
    | some q => wakeup1 (.proc q) t
    | none => t
  -- Pass abandoned children to init.
  let t := (List.finRange NPROC).foldl (abandon proc) t
  t.set proc { t.proc proc with state := .ZOMBIE }

/-- How the scan of `wait` ends. -/
inductive WaitEnd
  /-- `wait` returns this process number -/
  | reaped (pid : Int32)
  /-- `wait` returns -1 because there is no child -/
  | childless
  /-- `wait` returns -1 because the process has been killed -/
  | killed
  /-- the process sleeps -/
  | asleep

/-- The body of the outer loop in `wait` of the process `proc`. -/
def wait (proc : Slot) (t : Table) : WaitEnd × Table :=
  match (List.finRange NPROC).find? fun p =>
    (t.proc p).parent = some proc ∧ (t.proc p).state = .ZOMBIE with
  | some p =>
    -- Found one.
    (.reaped (t.proc p).pid, t.set p { t.proc p with
      kstack := false, pid := 0, parent := none, killed := false, state := .UNUSED })
  | none =>
    -- No point waiting if we don't have any children.
    if ¬ ∃ p, (t.proc p).parent = some proc then (.childless, t)
    else if (t.proc proc).killed then (.killed, t)
    else
      (.asleep, t.set proc { t.proc proc with
        chan := some (.proc proc), state := .SLEEPING, context := .wait })

/-- `kill` -/
def kill (pid : Int32) (t : Table) : Table :=
  match (List.finRange NPROC).find? fun p => (t.proc p).pid = pid with
  | none => t
  | some p =>
    t.set p { t.proc p with
      killed := true
      state := if (t.proc p).state = .SLEEPING then .RUNNABLE else (t.proc p).state }

/-- `userinit`, with a page for the kernel stack, on the table as it is before: `initproc` is the
process, if there is one. -/
def userinit : Table :=
  let t : Table :=
    { proc := fun _ => ⟨.UNUSED, 0, none, false, .forkret, none, false⟩
      initproc := 0
      nextpid := 1 }
  match allocproc true t with
  | (some p, t) => { t.set p { t.proc p with state := .RUNNABLE } with initproc := p }
  | (none, t) => t

/-! ## The system -/

/-- What a processor does. -/
inductive Mode
  /-- `scheduler`, without the lock -/
  | idle
  /-- the loop of `scheduler` over the table, at an index -/
  | scan (i : ℕ)
  /-- `scheduler` has switched to a process, which still has the lock -/
  | resume (p : Slot)
  /-- a process runs, without the lock -/
  | run (p : Slot)
deriving DecidableEq

/-- `ptable.lock` is held by the processor. -/
def Mode.locked : Mode → Bool
  | .scan _ => true
  | .resume _ => true
  | _ => false

/-- The process of the processor. -/
def Mode.proc : Mode → Option Slot
  | .resume p => some p
  | .run p => some p
  | _ => none

/-- The process table and the processors. -/
structure Sys where
  table : Table
  mode : Fin NCPU → Mode

/-- The start of the system, behind `userinit`. -/
def Sys.boot : Sys := { table := userinit, mode := fun _ => .idle }

/-- A processor goes on with the table. -/
def Sys.set (c : Fin NCPU) (m : Mode) (t : Table) (s : Sys) : Sys :=
  { table := t, mode := Function.update s.mode c m }

/-- `acquire(&ptable.lock)` does not wait on the processor. -/
def Sys.free (c : Fin NCPU) (s : Sys) : Prop := ∀ d, d ≠ c → (s.mode d).locked = false

instance (c : Fin NCPU) (s : Sys) : Decidable (s.free c) := inferInstanceAs (Decidable (∀ _, _))

/-- What is seen of an action: process numbers, and what the scheduler picks. -/
inductive Event
  /-- `fork` of the first process returns the second one -/
  | forked (parent child : Int32)
  | exited (pid : Int32)
  /-- `wait` of the first process returns the second one -/
  | reaped (parent child : Int32)
  /-- `wait` of the process finds no child -/
  | childless (pid : Int32)
  /-- `wait` of the process ends because it has been killed -/
  | killed (pid : Int32)
  | picked (c : Fin NCPU) (p : Slot)
deriving DecidableEq

/-- What an action leads to. -/
abbrev Result : Type := Reaction Stop Sys Event

/-- The processor returns to `scheduler` from the process, to the next index of its loop. -/
def Sys.sched (c : Fin NCPU) (p : Slot) (t : Table) (s : Sys) : Sys := s.set c (.scan (p + 1)) t

/-- The process goes on in the loop of `wait`. -/
def Sys.waits (c : Fin NCPU) (p : Slot) (s : Sys) : Result :=
  let pid := (s.table.proc p).pid
  match wait p s.table with
  | (.reaped child, t) => .goes (s.set c (.run p) t) [.reaped pid child]
  | (.childless, t) => .goes (s.set c (.run p) t) [.childless pid]
  | (.killed, t) => .goes (s.set c (.run p) t) [.killed pid]
  | (.asleep, t) => .goes (s.sched c p t) []

/-- The actions of a processor. -/
inductive Act
  /-- `scheduler`, or the process to which it has switched, goes on -/
  | tick (c : Fin NCPU)
  | fork (c : Fin NCPU) (kalloc copyuvm : Bool)
  | exit (c : Fin NCPU)
  | wait (c : Fin NCPU)
  /-- `sleep` on a channel that is not an entry of the process table -/
  | sleep (c : Fin NCPU) (chan : ℕ)
  | yield (c : Fin NCPU)
  | kill (c : Fin NCPU) (pid : Int32)
  /-- `wakeup`, by a process or by an interrupt -/
  | wakeup (c : Fin NCPU) (chan : ℕ)

/-- What a process does on the processor, outside of the lock. -/
def call (c : Fin NCPU) (p : Slot) (s : Sys) : Act → Result
  | .fork _ kalloc copyuvm =>
    match fork p kalloc copyuvm s.table with
    | (none, t) => .goes (s.set c (.run p) t) []
    | (some np, t) =>
      .goes (s.set c (.run p) t) [.forked (s.table.proc p).pid (t.proc np).pid]
  | .exit _ =>
    if p = s.table.initproc then .fails (.panic "init exiting")
    else .goes (s.sched c p (exit p s.table)) [.exited (s.table.proc p).pid]
  | .wait _ => s.waits c p
  | .sleep _ chan =>
    .goes (s.sched c p (s.table.set p { s.table.proc p with
      chan := some (.other chan), state := .SLEEPING, context := .sleep })) []
  | .yield _ =>
    .goes (s.sched c p (s.table.set p { s.table.proc p with
      state := .RUNNABLE, context := .yield })) []
  | .kill _ pid => .goes (s.set c (.run p) (kill pid s.table)) []
  | .wakeup _ chan => .goes (s.set c (.run p) (wakeup1 (.other chan) s.table)) []
  | .tick _ => .off

/-- `scheduler`, or the process to which it has switched, goes on. -/
def tick (c : Fin NCPU) (s : Sys) : Result :=
  match s.mode c with
  | .idle => .goes (s.set c (.scan 0) s.table) []
  | .scan i =>
    if h : i < NPROC then
      let p : Slot := ⟨i, h⟩
      if (s.table.proc p).state ≠ .RUNNABLE then .goes (s.set c (.scan (i + 1)) s.table) []
      else .goes (s.set c (.resume p) (s.table.set p { s.table.proc p with state := .RUNNING }))
        [.picked c p]
    else .goes (s.set c .idle s.table) []
  | .resume p =>
    match (s.table.proc p).context with
    | .forkret => .goes (s.set c (.run p) s.table) []
    | .yield => .goes (s.set c (.run p) s.table) []
    | .sleep => .goes (s.set c (.run p) (s.table.set p { s.table.proc p with chan := none })) []
    | .wait => Sys.waits c p { s with table := s.table.set p { s.table.proc p with chan := none } }
  | .run _ => .off

/-- The processor of an action. -/
def Act.cpu : Act → Fin NCPU
  | .tick c => c
  | .fork c _ _ => c
  | .exit c => c
  | .wait c => c
  | .sleep c _ => c
  | .yield c => c
  | .kill c _ => c
  | .wakeup c _ => c

/-- What an action does. -/
def step (a : Act) (s : Sys) : Result :=
  if s.free a.cpu then
    match a, s.mode a.cpu with
    | .tick c, _ => tick c s
    | .wakeup c chan, .idle => .goes (s.set c .idle (wakeup1 (.other chan) s.table)) []
    | a, .run p => call a.cpu p s a
    | _, _ => .off
  else .off

end HgXv6.Sched
