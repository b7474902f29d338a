import HgXv6.Base
import HgXv6.Lib.Outcome
import HgXv6.Lib.Ring

set_option relaxedAutoImplicit false
set_option autoImplicit false

/-!
# Pipes

A pipe (`pipe.c`) is a ring of `PIPESIZE` bytes with two counters that are never reduced, so that
they wrap at `2 ^ 32`. Its lock is held by a call from its start to its return, except while it
sleeps; the actions of the system are therefore the stretches of a call up to its next sleep, and
any list of them is a schedule. A sleeping process may wake up at any time, whether or not a
`wakeup` on its channel has been called: the loops test their conditions again in any case.

When both ends are closed the memory of the pipe is given back, and nothing happens to the pipe
any more.

## Main definitions

* `HgXv6.Pipe` — the ring, its counters and its two flags.
* `HgXv6.pipewriteLoop`, `HgXv6.piperead`, `HgXv6.pipeclose` — the routines.
* `HgXv6.PipeSystem`, `HgXv6.PipeAction`, `HgXv6.PipeSystem.run` — schedules.
* `HgXv6.Pipe.Queues` — the pipe is a queue: what is stored and not yet read is in the ring.

## Main results

* `HgXv6.Pipe.Queues.store`, `HgXv6.Pipe.Queues.take` — the two steps of the ring.
* `HgXv6.PipeSystem.keeps_step`, `HgXv6.PipeSystem.queues_run` — actions and schedules.
* `HgXv6.pipe_fifo` — distances, the order of the bytes, and the end of the file.
-/

namespace HgXv6

open Prog Prog.Ring

/-- `#define PIPESIZE 512` -/
abbrev PIPESIZE : ℕ := 512

/-- `struct pipe`, without its lock. -/
structure Pipe where
  data : ℕ → UInt8
  /-- number of bytes read -/
  nread : UInt32
  /-- number of bytes written -/
  nwrite : UInt32
  /-- read fd is still open -/
  readopen : ℤ
  /-- write fd is still open -/
  writeopen : ℤ

namespace Pipe

/-- `p->data[p->nwrite++ % PIPESIZE] = b` -/
def store (b : UInt8) (p : Pipe) : Pipe :=
  { p with data := Function.update p.data (p.nwrite.toNat % PIPESIZE) b, nwrite := p.nwrite + 1 }

/-- `p->data[p->nread % PIPESIZE]` -/
def next (p : Pipe) : UInt8 := p.data (p.nread.toNat % PIPESIZE)

end Pipe

/-! ## Writing -/

/-- The locals of a call of `pipewrite`. -/
structure Writer where
  addr : ℕ → UInt8
  n : ℤ
  i : ℕ

/-- How a stretch of `pipewrite` ends. -/
inductive WriteResult
  | asleep (wr : Writer)
  | returned (result : ℤ)

/-- The loop of `pipewrite` with `k` bytes still to be stored, up to its first sleep: how it ends,
the pipe, and the bytes that it stored. -/
def pipewriteLoop (killed : Bool) : ℕ → Writer → Pipe → WriteResult × Pipe × List UInt8
  | 0, wr, p => (.returned wr.n, p, [])
  | k + 1, wr, p =>
    if p.nwrite = p.nread + UInt32.ofNat PIPESIZE then
      (if p.readopen = 0 ∨ killed then .returned (-1) else .asleep wr, p, [])
    else
      let b := wr.addr wr.i
      let x := pipewriteLoop killed k { wr with i := wr.i + 1 } (p.store b)
      (x.1, x.2.1, b :: x.2.2)

/-- `pipewrite` of `n` bytes from `addr`, up to its first sleep. -/
def pipewrite (killed : Bool) (addr : ℕ → UInt8) (n : ℤ) (p : Pipe) :
    WriteResult × Pipe × List UInt8 :=
  pipewriteLoop killed n.toNat { addr := addr, n := n, i := 0 } p

/-! ## Reading -/

/-- How a stretch of `piperead` ends. -/
inductive PipeReadResult
  | asleep
  | returned (dst : List UInt8) (result : ℤ)

/-- The copying loop of `piperead`, at most `n` times. -/
def pipereadCopy : ℕ → Pipe → List UInt8 × Pipe
  | 0, p => ([], p)
  | n + 1, p =>
    if p.nread = p.nwrite then ([], p)
    else
      let x := pipereadCopy n { p with nread := p.nread + 1 }
      (p.next :: x.1, x.2)

/-- `piperead` of `n` bytes, from its start or from a sleep, up to its next sleep. -/
def piperead (killed : Bool) (n : ℤ) (p : Pipe) : PipeReadResult × Pipe :=
  if p.nread = p.nwrite ∧ p.writeopen ≠ 0 then
    (if killed then .returned [] (-1) else .asleep, p)
  else
    let x := pipereadCopy n.toNat p
    (.returned x.1 x.1.length, x.2)

/-! ## Closing -/

/-- `pipeclose`: the pipe, and whether its memory is given back. -/
def pipeclose (writable : Bool) (p : Pipe) : Pipe × Bool :=
  let p := if writable then { p with writeopen := 0 } else { p with readopen := 0 }
  (p, decide (p.readopen = 0 ∧ p.writeopen = 0))

/-! ## Schedules -/

/-- A call that is asleep. -/
inductive Sleeper
  | writer (wr : Writer)
  | reader (n : ℤ)

/-- A pipe, whether its memory has been given back, and the calls that are asleep in it, by
process. -/
structure PipeSystem where
  pipe : Pipe
  freed : Bool
  sleepers : ℕ → Option Sleeper

/-- One action of the system. -/
inductive PipeAction
  /-- process `id` calls `pipewrite` -/
  | write (id : ℕ) (addr : ℕ → UInt8) (n : ℤ) (killed : Bool)
  /-- process `id` calls `piperead` -/
  | read (id : ℕ) (n : ℤ) (killed : Bool)
  /-- process `id` wakes up -/
  | wake (id : ℕ) (killed : Bool)
  | close (writable : Bool)

/-- What the users of the pipe see of an action. -/
inductive PipeEvent
  /-- these bytes have been stored -/
  | stored (bs : List UInt8)
  /-- a read of `n` bytes has returned `result`, with these bytes -/
  | read (n : ℤ) (dst : List UInt8) (result : ℤ)
deriving DecidableEq

/-- The bytes that writes have stored, in order. -/
def storedBytes (es : List PipeEvent) : List UInt8 :=
  es.flatMap fun | .stored bs => bs | .read _ _ _ => []

/-- The bytes that reads have returned, in order. -/
def returnedBytes (es : List PipeEvent) : List UInt8 :=
  es.flatMap fun | .stored _ => [] | .read _ dst _ => dst

namespace PipeSystem

/-- The system after a stretch of process `id` in `pipewrite`. -/
def afterWrite (s : PipeSystem) (id : ℕ) (x : WriteResult × Pipe × List UInt8) :
    PipeSystem × List PipeEvent :=
  ({ s with
      pipe := x.2.1
      sleepers := Function.update s.sleepers id
        (match x.1 with | .asleep wr => some (.writer wr) | .returned _ => none) },
    [.stored x.2.2])

/-- The system after a stretch of process `id` in a `piperead` of `n` bytes. -/
def afterRead (s : PipeSystem) (id : ℕ) (n : ℤ) (x : PipeReadResult × Pipe) :
    PipeSystem × List PipeEvent :=
  ({ s with
      pipe := x.2
      sleepers := Function.update s.sleepers id
        (match x.1 with | .asleep => some (.reader n) | .returned _ _ => none) },
    match x.1 with | .asleep => [] | .returned dst result => [.read n dst result])

/-- What an action does. A process cannot call while it sleeps, nor wake while it does not, and
nothing can be done with a pipe whose memory has been given back. -/
def step (s : PipeSystem) (a : PipeAction) : Except Stop (PipeSystem × List PipeEvent) :=
  if s.freed then .error .blocked
  else
    match a with
    | .write id addr n killed =>
      match s.sleepers id with
      | some _ => .error .blocked
      | none => .ok (s.afterWrite id (pipewrite killed addr n s.pipe))
    | .read id n killed =>
      match s.sleepers id with
      | some _ => .error .blocked
      | none => .ok (s.afterRead id n (piperead killed n s.pipe))
    | .wake id killed =>
      match s.sleepers id with
      | none => .error .blocked
      | some (.writer wr) =>
        .ok (s.afterWrite id (pipewriteLoop killed (wr.n.toNat - wr.i) wr s.pipe))
      | some (.reader n) => .ok (s.afterRead id n (piperead killed n s.pipe))
    | .close writable =>
      let x := pipeclose writable s.pipe
      .ok ({ s with pipe := x.1, freed := x.2 }, [])

/-- A schedule, and all the events of its actions. -/
def run (s : PipeSystem) : List PipeAction → Except Stop (PipeSystem × List PipeEvent)
  | [] => .ok (s, [])
  | a :: as => s.step a >>= fun x => run x.1 as >>= fun y => .ok (y.1, x.2 ++ y.2)

/-- The pipe as `pipealloc` leaves it, in memory that holds `data`. -/
def start (data : ℕ → UInt8) : PipeSystem where
  pipe := { data := data, nread := 0, nwrite := 0, readopen := 1, writeopen := 1 }
  freed := false
  sleepers _ := none

end PipeSystem

/-! ## The ring is a queue -/

/-- The pipe `p` is a queue into which `stored` has been put and from which `taken` has come out:
both counters count, and the ring holds the rest, `unread`. -/
structure Pipe.Queues (p : Pipe) (stored taken unread : List UInt8) : Prop where
  nread : Tracks p.nread taken.length
  nwrite : Tracks p.nwrite (taken.length + unread.length)
  slots : Holds PIPESIZE p.data taken.length unread
  history : stored = taken ++ unread

/-- The slots of the ring divide the range of the counters. -/
theorem pipesize_dvd : PIPESIZE ∣ 2 ^ 32 := by decide

namespace Pipe.Queues

variable {p : Pipe} {stored taken unread : List UInt8}

/-- The pipe is empty when its counters agree. -/
theorem empty_iff (h : p.Queues stored taken unread) : p.nread = p.nwrite ↔ unread = [] := by
  have hle := h.slots.le
  rw [eq_comm, h.nread.eq_iff h.nwrite (by unfold PIPESIZE at hle; omega),
    List.length_eq_zero_iff]

/-- The pipe is full when its counters are `PIPESIZE` apart. -/
theorem full_iff (h : p.Queues stored taken unread) :
    p.nwrite = p.nread + UInt32.ofNat PIPESIZE ↔ unread.length = PIPESIZE := by
  have hle := h.slots.le
  have hfull : Tracks (p.nread + UInt32.ofNat PIPESIZE)
      (taken.length + unread.length + (PIPESIZE - unread.length)) := by
    have hadd := h.nread.add (UInt32.ofNat PIPESIZE)
    rwa [show (UInt32.ofNat PIPESIZE).toNat = PIPESIZE by decide,
      show taken.length + PIPESIZE =
        taken.length + unread.length + (PIPESIZE - unread.length) by omega] at hadd
  rw [eq_comm, h.nwrite.eq_iff hfull (by unfold PIPESIZE; omega)]
  omega

/-- The distance of the counters. -/
theorem dist (h : p.Queues stored taken unread) :
    (p.nwrite - p.nread).toNat = unread.length := by
  have hle := h.slots.le
  exact h.nread.sub h.nwrite (by unfold PIPESIZE at hle; omega)

/-- Storing a byte while there is room. -/
theorem store (h : p.Queues stored taken unread)
    (hroom : p.nwrite ≠ p.nread + UInt32.ofNat PIPESIZE) (b : UInt8) :
    (p.store b).Queues (stored ++ [b]) taken (unread ++ [b]) where
  nread := h.nread
  nwrite := by
    have hsucc := h.nwrite.succ
    simpa [Pipe.store, Nat.add_assoc] using hsucc
  slots := by
    have hlt : unread.length < PIPESIZE :=
      lt_of_le_of_ne h.slots.le fun heq => hroom (h.full_iff.mpr heq)
    have hpush := h.slots.push hlt b
    simpa only [Pipe.store, h.nwrite.slot pipesize_dvd] using hpush
  history := by rw [h.history, List.append_assoc]

/-- Taking a byte while there is one: it is the oldest.

**Proof sketch.** The counters differ, so there is an unread byte. The slot that `nread` selects
holds the oldest unread byte, since `PIPESIZE` divides 2^32 and the counter therefore selects the
same slot before and after it wraps. -/
theorem take (h : p.Queues stored taken unread) (hne : p.nread ≠ p.nwrite) :
    ∃ rest, { p with nread := p.nread + 1 }.Queues stored (taken ++ [p.next]) rest := by
  rcases hu : unread with _ | ⟨b, rest⟩
  · exact absurd (h.empty_iff.mpr hu) hne
  subst hu
  have hb : p.next = b := by
    unfold Pipe.next
    rw [h.nread.slot pipesize_dvd]
    exact h.slots.head
  refine ⟨rest, ⟨?_, ?_, ?_, ?_⟩⟩
  · simpa using h.nread.succ
  · have hw := h.nwrite
    rw [List.length_cons] at hw
    simpa [Nat.add_comm, Nat.add_left_comm, Nat.add_assoc] using hw
  · simpa using h.slots.tail
  · simp [h.history, hb]

end Pipe.Queues

/-! ## The loops -/

/-- A stretch of `pipewrite` stores at the end of the queue. -/
theorem pipewriteLoop_queues (killed : Bool) (k : ℕ) (wr : Writer) (p : Pipe)
    {stored taken unread : List UInt8} (h : p.Queues stored taken unread) :
    ∃ unread', (pipewriteLoop killed k wr p).2.1.Queues
      (stored ++ (pipewriteLoop killed k wr p).2.2) taken unread' := by
  induction k generalizing wr p stored unread with
  | zero => exact ⟨unread, by simpa [pipewriteLoop] using h⟩
  | succ k ih =>
    unfold pipewriteLoop
    by_cases hfull : p.nwrite = p.nread + UInt32.ofNat PIPESIZE
    · rw [if_pos hfull]
      exact ⟨unread, by simpa using h⟩
    · rw [if_neg hfull]
      obtain ⟨unread', h'⟩ := ih { wr with i := wr.i + 1 } _ (h.store hfull (wr.addr wr.i))
      exact ⟨unread', by simpa using h'⟩

/-- The copying loop takes from the front of the queue, and all of it if it is asked for more than
there is. -/
theorem pipereadCopy_queues (n : ℕ) (p : Pipe) {stored taken unread : List UInt8}
    (h : p.Queues stored taken unread) :
    ∃ unread', (pipereadCopy n p).2.Queues stored (taken ++ (pipereadCopy n p).1) unread' ∧
      ((pipereadCopy n p).1.length < n → unread' = []) ∧
      (pipereadCopy n p).2.writeopen = p.writeopen := by
  induction n generalizing p taken unread with
  | zero =>
    exact ⟨unread, by simpa [pipereadCopy] using h, fun hlt => absurd hlt (by simp), rfl⟩
  | succ n ih =>
    unfold pipereadCopy
    split_ifs with hempty
    · exact ⟨unread, by simpa using h, fun _ => h.empty_iff.mp hempty, rfl⟩
    · obtain ⟨rest, htake⟩ := h.take hempty
      obtain ⟨unread', h', hall, hopen⟩ := ih _ htake
      refine ⟨unread', by simpa using h', fun hlt => hall ?_, hopen⟩
      simpa using hlt

/-- A stretch of `piperead`: what it returns comes from the front of the queue; a result of zero
for a read of some bytes says that the write end is closed and the queue empty. -/
theorem piperead_queues (killed : Bool) (n : ℤ) (p : Pipe) {stored taken unread : List UInt8}
    (h : p.Queues stored taken unread) :
    ((piperead killed n p).1 = .asleep ∧ (piperead killed n p).2 = p) ∨
      ∃ dst result unread', (piperead killed n p).1 = .returned dst result ∧
        (piperead killed n p).2.Queues stored (taken ++ dst) unread' ∧
        (0 < n → result = 0 → (piperead killed n p).2.writeopen = 0 ∧ unread' = []) := by
  unfold piperead
  split_ifs with hempty hkilled
  · refine .inr ⟨[], -1, unread, rfl, by simpa using h, fun _ hzero => ?_⟩
    exact absurd hzero (by decide)
  · exact .inl ⟨rfl, rfl⟩
  · obtain ⟨unread', h', hall, hopen⟩ := pipereadCopy_queues n.toNat p h
    refine .inr ⟨_, _, unread', rfl, h', fun hn hzero => ?_⟩
    have hnil : (pipereadCopy n.toNat p).1.length = 0 := by exact_mod_cast hzero
    have hnone : unread' = [] := hall (by omega)
    refine ⟨?_, hnone⟩
    -- nothing was copied, so the queue was empty before
    have hun : unread = [] := by
      have heq := h.history.symm.trans h'.history
      rw [List.length_eq_zero_iff.mp hnil, hnone] at heq
      simpa using heq
    rw [not_and_or, not_not] at hempty
    rcases hempty with hne | hclosed
    · exact absurd (h.empty_iff.mpr hun) hne
    · exact hopen.trans hclosed

/-! ## Schedules keep the queue -/

namespace PipeSystem

variable {s s' : PipeSystem} {es es' : List PipeEvent}

/-- The pipe of the system is a queue, for the bytes that the events name. -/
def Queues (s : PipeSystem) (es : List PipeEvent) : Prop :=
  ∃ unread, s.pipe.Queues (storedBytes es) (returnedBytes es) unread

/-- A read of some bytes that returned nothing: the write end is closed and everything stored has
been returned. -/
def EndOfFile (s : PipeSystem) (es : List PipeEvent) : Prop :=
  s.pipe.writeopen = 0 ∧ returnedBytes es = storedBytes es

/-- What an action keeps: the queue, and the meaning of a read that returns nothing. -/
def Keeps (es : List PipeEvent) (x : PipeSystem × List PipeEvent) : Prop :=
  x.1.Queues (es ++ x.2) ∧
    ∀ n dst, .read n dst 0 ∈ x.2 → 0 < n → x.1.EndOfFile (es ++ x.2)

/-- An action after which no read returns keeps the queue if it stores at its end. -/
theorem Keeps.of_stored {x : PipeSystem × List PipeEvent} (hqueue : x.1.Queues (es ++ x.2))
    (hread : ∀ n dst, .read n dst 0 ∉ x.2) : Keeps es x :=
  ⟨hqueue, fun n dst hmem => absurd hmem (hread n dst)⟩

/-- Writing. -/
theorem keeps_afterWrite (h : s.Queues es) (id : ℕ) (killed : Bool) (k : ℕ) (wr : Writer) :
    Keeps es (s.afterWrite id (pipewriteLoop killed k wr s.pipe)) := by
  obtain ⟨unread, h⟩ := h
  obtain ⟨unread', h'⟩ := pipewriteLoop_queues killed k wr s.pipe h
  exact .of_stored ⟨unread', by simpa [afterWrite, storedBytes, returnedBytes] using h'⟩
    (by simp [afterWrite])

/-- Reading. -/
theorem keeps_afterRead (h : s.Queues es) (id : ℕ) (killed : Bool) (n : ℤ) :
    Keeps es (s.afterRead id n (piperead killed n s.pipe)) := by
  obtain ⟨unread, h⟩ := h
  rcases piperead_queues killed n s.pipe h with
    ⟨hasleep, hpipe⟩ | ⟨dst, result, unread', hret, h', heof⟩
  · have hevents : (s.afterRead id n (piperead killed n s.pipe)).2 = [] := by
      simp only [afterRead, hasleep]
    refine .of_stored ⟨unread, ?_⟩ (by simp [hevents])
    rw [hevents, List.append_nil]
    simpa only [afterRead, hpipe] using h
  · have hevents : (s.afterRead id n (piperead killed n s.pipe)).2 = [.read n dst result] := by
      simp only [afterRead, hret]
    unfold Keeps
    rw [hevents]
    have hqueue : (s.afterRead id n (piperead killed n s.pipe)).1.pipe.Queues
        (storedBytes (es ++ [.read n dst result])) (returnedBytes (es ++ [.read n dst result]))
        unread' := by
      simpa [afterRead, storedBytes, returnedBytes] using h'
    refine ⟨⟨unread', hqueue⟩, fun m dst' hmem hm => ?_⟩
    rw [List.mem_singleton] at hmem
    injection hmem with hn _ hzero
    obtain ⟨hclosed, hnone⟩ := heof (hn ▸ hm) hzero.symm
    refine ⟨hclosed, ?_⟩
    rw [hqueue.history, hnone, List.append_nil]

/-- One action.

**Proof sketch.** By cases on the action. A call of `pipewrite`, or one that is woken up, stores
while there is room (`keeps_afterWrite`), and one of `piperead` takes while there are bytes
(`keeps_afterRead`); closing an end leaves the counters and the buffer alone. -/
theorem keeps_step (h : s.Queues es) (a : PipeAction) : Ensures (s.step a) (Keeps es) := by
  unfold step
  split_ifs
  · simp
  · cases a with
    | write id addr n killed =>
      dsimp only
      split
      · simp
      · rw [ensures_ok]
        exact keeps_afterWrite h id killed _ _
    | read id n killed =>
      dsimp only
      split
      · simp
      · rw [ensures_ok]
        exact keeps_afterRead h id killed n
    | wake id killed =>
      dsimp only
      split
      · simp
      · rw [ensures_ok]
        exact keeps_afterWrite h id killed _ _
      · rw [ensures_ok]
        exact keeps_afterRead h id killed _
    | close writable =>
      rw [ensures_ok]
      obtain ⟨unread, hq⟩ := h
      refine .of_stored ⟨unread, ?_⟩ (by simp)
      rw [List.append_nil]
      cases writable
      · exact ⟨hq.nread, hq.nwrite, hq.slots, hq.history⟩
      · exact ⟨hq.nread, hq.nwrite, hq.slots, hq.history⟩

/-- A schedule. -/
theorem queues_run (h : s.Queues es) (as : List PipeAction) :
    Ensures (s.run as) fun x => x.1.Queues (es ++ x.2) := by
  induction as generalizing s es with
  | nil => simpa [run] using h
  | cons a as ih =>
    refine Ensures.bind (keeps_step h a) fun x hx => Ensures.bind (ih hx.1) fun y hy => ?_
    rw [ensures_ok, ← List.append_assoc]
    exact hy

/-- A pipe that has just been allocated is an empty queue. -/
theorem queues_start (data : ℕ → UInt8) : (start data).Queues [] :=
  ⟨[], ⟨Tracks.self 0, Tracks.self 0, Holds.nil _ _ _, rfl⟩⟩

end PipeSystem

/-- **Pipes are queues.** After every schedule the counters are those of the bytes stored and of the
bytes returned, which are at most `PIPESIZE` apart; the bytes returned are the first of those
stored, in their order; and a read of some bytes that returns nothing finds the write end closed and
everything stored returned.

**Proof sketch.** The invariant `Queues` says which stored bytes are unread and that the buffer
holds them in order. It holds at the start and every action keeps it (`keeps_step`), so that it
holds at the end of the run; the counters and the order can be read off it. For a read that returns
nothing the invariant is applied once more, after the action of the read: the buffer was empty then,
so nothing is unread. -/
theorem pipe_fifo (data : ℕ → UInt8) (as : List PipeAction) (s : PipeSystem)
    (es : List PipeEvent) (h : (PipeSystem.start data).run as = .ok (s, es)) :
    Tracks s.pipe.nread (returnedBytes es).length ∧
      Tracks s.pipe.nwrite (storedBytes es).length ∧
      (storedBytes es).length = (returnedBytes es).length + (s.pipe.nwrite - s.pipe.nread).toNat ∧
      (s.pipe.nwrite - s.pipe.nread).toNat ≤ PIPESIZE ∧
      returnedBytes es <+: storedBytes es ∧
      ∀ a s' es', s.step a = .ok (s', es') → ∀ n dst, .read n dst 0 ∈ es' → 0 < n →
        s'.pipe.writeopen = 0 ∧ returnedBytes (es ++ es') = storedBytes (es ++ es') := by
  have hqueue : s.Queues es := PipeSystem.queues_run (PipeSystem.queues_start data) as _ h
  obtain ⟨unread, hq⟩ := hqueue
  have hlen : (storedBytes es).length = (returnedBytes es).length + unread.length := by
    rw [hq.history, List.length_append]
  refine ⟨hq.nread, ?_, ?_, ?_, ?_, fun a s' es' hstep => ?_⟩
  · rw [hlen]
    exact hq.nwrite
  · rw [hq.dist, hlen]
  · rw [hq.dist]
    exact hq.slots.le
  · rw [hq.history]
    exact List.prefix_append _ _
  · exact (PipeSystem.keeps_step ⟨unread, hq⟩ a _ hstep).2

/-- A write of three bytes, a read of two, the write end closed, and the rest of the bytes. -/
def abcSchedule : List PipeAction :=
  [.write 1 (fun i => UInt8.ofNat (97 + i)) 3 false, .read 2 2 false, .close true, .read 2 5 false]

/-- `pipe_fifo` for a schedule after which the next read finds the end of the file. -/
theorem pipe_fifo_abc :
    ∃ s es, (PipeSystem.start fun _ => 0).run abcSchedule = .ok (s, es) ∧
      returnedBytes es = str "abc" ∧ returnedBytes es <+: storedBytes es := by
  have hrun : ∃ s, (PipeSystem.start fun _ => 0).run abcSchedule = .ok (s,
      [.stored (str "abc"), .read 2 (str "ab") 2, .read 5 (str "c") 1]) := ⟨_, rfl⟩
  obtain ⟨s, hrun⟩ := hrun
  exact ⟨s, _, hrun, rfl, (pipe_fifo (fun _ => 0) abcSchedule s _ hrun).2.2.2.2.1⟩

end HgXv6
