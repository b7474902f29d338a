import HgXv6.Console.Input
import HgXv6.Lib.Ring

set_option relaxedAutoImplicit false
set_option autoImplicit false

/-!
# Console input is a loss-free queue

The ring with its three wrapping indices is the line of typed bytes: the slots from `r` to `w`
hold the bytes that are committed and not yet taken, the slots from `w` to `e` those that are
not yet committed. Each of the five things the routines do to the ring keeps this, so every
schedule does.

## Main definitions

* `HgXv6.Fifo` — the ring holds the line.

## Main results

* `HgXv6.Fifo.accept`, `HgXv6.Fifo.erase`, `HgXv6.Fifo.commit`, `HgXv6.Fifo.take` — the steps.
* `HgXv6.fifo_step`, `HgXv6.fifo_run` — actions and schedules.
* `HgXv6.stored_run` — what is taken is stored for the readers.
* `HgXv6.console_fifo` — the distances of the indices, and what the readers have taken.
-/

namespace HgXv6

open Prog Prog.Ring

/-- The ring `s` holds the line `l`: from the unbounded position `lo` on, first the bytes
`unread` that are committed and not taken, then the pending ones. -/
structure Fifo (s : Input) (l : Line) (lo : ℕ) (unread : List UInt8) : Prop where
  r : Tracks s.r lo
  w : Tracks s.w (lo + unread.length)
  e : Tracks s.e (lo + unread.length + l.pending.length)
  slots : Holds INPUT_BUF s.buf lo (unread ++ l.pending)
  history : l.committed = l.taken ++ unread

/-- The ring holds some part of the line. -/
def HoldsLine (s : Input) (l : Line) : Prop := ∃ lo unread, Fifo s l lo unread

/-- The slots of the ring divide the range of the indices. -/
theorem inputBuf_dvd : INPUT_BUF ∣ 2 ^ 32 := by decide

namespace Fifo

variable {s : Input} {l : Line} {lo : ℕ} {unread : List UInt8}

/-- No more than `INPUT_BUF` bytes are in the ring. -/
theorem length_le (h : Fifo s l lo unread) : unread.length + l.pending.length ≤ INPUT_BUF := by
  have := h.slots.le
  rwa [List.length_append] at this

/-- In particular no index is lapped. -/
theorem length_lt (h : Fifo s l lo unread) : unread.length + l.pending.length < 2 ^ 32 :=
  h.length_le.trans_lt (by decide)

/-- The distance from `r` to `w`. -/
theorem dist_w (h : Fifo s l lo unread) : (s.w - s.r).toNat = unread.length :=
  h.r.sub h.w (by have := h.length_lt; omega)

/-- The distance from `r` to `e`. -/
theorem dist_e (h : Fifo s l lo unread) :
    (s.e - s.r).toNat = unread.length + l.pending.length := by
  have he := h.e
  rw [Nat.add_assoc] at he
  exact h.r.sub he (by have := h.length_lt; omega)

/-- The indices `e` and `w` agree exactly when nothing is pending. -/
theorem e_eq_w (h : Fifo s l lo unread) : s.e = s.w ↔ l.pending = [] := by
  rw [h.w.eq_iff h.e (by have := h.length_lt; omega), List.length_eq_zero_iff]

/-- The indices `r` and `w` agree exactly when nothing is unread. -/
theorem r_eq_w (h : Fifo s l lo unread) : s.r = s.w ↔ unread = [] := by
  rw [eq_comm, h.r.eq_iff h.w (by have := h.length_lt; omega), List.length_eq_zero_iff]

/-- Accepting a byte while there is room. -/
theorem accept (h : Fifo s l lo unread) (hroom : (s.e - s.r).toNat < INPUT_BUF) (b : UInt8) :
    Fifo (acceptByte b s) (l.apply (.accept b)) lo unread where
  r := h.r
  w := h.w
  e := by
    have := h.e.succ
    simpa [Line.apply, acceptByte, Nat.add_assoc] using this
  slots := by
    rw [h.dist_e] at hroom
    have hpush := h.slots.push (by simpa using hroom) b
    simp only [acceptByte, Line.apply, h.e.slot inputBuf_dvd]
    simpa [Nat.add_assoc] using hpush
  history := h.history

/-- Erasing the last byte that is not committed. -/
theorem erase (h : Fifo s l lo unread) (hne : s.e ≠ s.w) :
    Fifo { s with e := s.e - 1 } (l.apply .erase) lo unread := by
  have hp : l.pending ≠ [] := fun hp => hne (h.e_eq_w.mpr hp)
  have hsplit := List.dropLast_append_getLast hp
  have hlen : l.pending.length = l.pending.dropLast.length + 1 := by
    conv_lhs => rw [← hsplit]
    simp
  refine ⟨h.r, h.w, ?_, ?_, h.history⟩
  · have he := h.e
    rw [hlen, ← Nat.add_assoc] at he
    exact he.pred
  · have hs := h.slots
    rw [← hsplit, ← List.append_assoc] at hs
    exact hs.init

/-- Committing what is pending. -/
theorem commit (h : Fifo s l lo unread) :
    Fifo { s with w := s.e } (l.apply .commit) lo (unread ++ l.pending) where
  r := h.r
  w := by simpa [Nat.add_assoc] using h.e
  e := by simpa [Line.apply, Nat.add_assoc] using h.e
  slots := by simpa [Line.apply] using h.slots
  history := by simp [Line.apply, h.history]

/-- Taking a byte while there is an unread one: it is the oldest one.

**Proof sketch.** The slot of `r` holds the first of the bytes from `lo` on, which is the oldest
unread one, since there is one. Taking it moves `r` and `lo` by one, and the write and edit indices
stay at their distance from the start of the history. -/
theorem take (h : Fifo s l lo unread) (hne : s.r ≠ s.w) :
    ∃ rest, unread = s.buf (s.r.toNat % INPUT_BUF) :: rest ∧
      Fifo { s with r := s.r + 1 } (l.apply (.take (s.buf (s.r.toNat % INPUT_BUF))))
        (lo + 1) rest := by
  rcases hu : unread with _ | ⟨b, rest⟩
  · exact absurd (h.r_eq_w.mpr hu) hne
  subst hu
  have hb : s.buf (s.r.toNat % INPUT_BUF) = b := by
    rw [h.r.slot inputBuf_dvd]
    exact h.slots.head
  refine ⟨rest, by rw [hb], h.r.succ, ?_, ?_, h.slots.tail, ?_⟩
  · have := h.w
    rw [List.length_cons] at this
    simpa [Nat.add_comm, Nat.add_left_comm, Nat.add_assoc] using this
  · have := h.e
    rw [List.length_cons] at this
    simpa [Line.apply, Nat.add_comm, Nat.add_left_comm, Nat.add_assoc] using this
  · simp [Line.apply, h.history, hb]

/-- A byte that is taken and put back at once leaves ring and line as they were. -/
theorem take_putBack (h : Fifo s l lo unread) (b : UInt8) :
    Fifo { s with r := s.r + 1 - 1 } ((l.apply (.take b)).apply .putBack) lo unread := by
  have hl : (l.apply (.take b)).apply .putBack = l := by simp [Line.apply]
  rw [hl, UInt32.add_sub_cancel]
  exact h

end Fifo

/-! ## The routines -/

/-- The line after the events `evs` from the line `l`. -/
def Line.after (l : Line) (evs : List Event) : Line := evs.foldl Line.apply l

/-- Events one after the other. -/
theorem Line.after_append (l : Line) (evs evs' : List Event) :
    l.after (evs ++ evs') = (l.after evs).after evs' :=
  List.foldl_append

@[simp] theorem Line.after_nil (l : Line) : l.after [] = l := rfl

@[simp] theorem Line.after_cons (l : Line) (ev : Event) (evs : List Event) :
    l.after (ev :: evs) = (l.apply ev).after evs := rfl

/-- Erasing one byte keeps the line. -/
theorem eraseOne_fifo {s : Console} {l : Line} (h : HoldsLine s.input l)
    (hne : s.input.e ≠ s.input.w) :
    Ensures (eraseOne s) fun x => HoldsLine x.1.input (l.after x.2) := by
  obtain ⟨lo, unread, hf⟩ := h
  refine Ensures.bind (P := fun _ => True) (fun _ _ => trivial) fun cga _ => ?_
  rw [ensures_ok]
  exact ⟨lo, unread, hf.erase hne⟩

/-- Killing the line keeps it, less what is erased. -/
theorem killLine_fifo (n : ℕ) {s : Console} {l : Line} (h : HoldsLine s.input l) :
    Ensures (killLine n s) fun x => HoldsLine x.1.input (l.after x.2) := by
  induction n generalizing s l with
  | zero => simpa [killLine] using h
  | succ n ih =>
    simp only [killLine]
    split_ifs with hc
    · refine Ensures.bind (eraseOne_fifo h hc.1) fun x hx => ?_
      refine Ensures.bind (ih hx) fun y hy => ?_
      simpa [Line.after_append] using hy
    · simpa using h

/-- Accepting a byte, committed at once or not. -/
theorem acceptCase_fifo (c : UInt8) {s : Console} {l : Line} (h : HoldsLine s.input l) :
    Ensures (acceptCase c s) fun x => HoldsLine x.1.input (l.after x.2) := by
  unfold acceptCase
  by_cases hc : c ≠ 0 ∧ (s.input.e - s.input.r).toNat < INPUT_BUF
  · obtain ⟨lo, unread, hf⟩ := h
    have hacc := hf.accept hc.2
    rw [if_pos hc]
    refine Ensures.bind (P := fun _ => True) (fun _ _ => trivial) fun cga _ => ?_
    dsimp only
    split_ifs
    all_goals rw [ensures_ok]
    · exact ⟨lo, _, (hacc _).commit⟩
    · exact ⟨lo, _, hacc _⟩
    · exact ⟨lo, _, (hacc _).commit⟩
    · exact ⟨lo, _, hacc _⟩
  · rw [if_neg hc]
    simpa using h

/-- One pass of the interrupt handler keeps the line. -/
theorem consoleintrByte_fifo (c : UInt8) {s : Console} {l : Line} (h : HoldsLine s.input l) :
    Ensures (consoleintrByte c s) fun x => HoldsLine x.1.input (l.after x.2) := by
  unfold consoleintrByte
  split_ifs with h1 h2 h3 h4
  · simpa using h
  · exact killLine_fifo _ h
  · exact eraseOne_fifo h h4
  · simpa using h
  · exact acceptCase_fifo c h

/-- The interrupt handler keeps the line. -/
theorem consoleintr_fifo (cs : List UInt8) {s : Console} {l : Line} (h : HoldsLine s.input l) :
    Ensures (consoleintr cs s) fun x => HoldsLine x.1.input (l.after x.2) := by
  induction cs generalizing s l with
  | nil => simpa [consoleintr] using h
  | cons c cs ih =>
    refine Ensures.bind (consoleintrByte_fifo c h) fun x hx => ?_
    refine Ensures.bind (ih hx) fun y hy => ?_
    simpa [Line.after_append] using hy

/-- A stretch of a reader keeps the line. -/
theorem consolereadLoop_fifo (killed : Bool) (k : ℕ) (rd : Reader) {s : Console} {l : Line}
    (h : HoldsLine s.input l) :
    HoldsLine (consolereadLoop killed k rd s).2.1.input
      (l.after (consolereadLoop killed k rd s).2.2) := by
  induction k generalizing rd s l with
  | zero => exact h
  | succ k ih =>
    simp only [consolereadLoop]
    by_cases hr : s.input.r = s.input.w
    · simpa [hr] using h
    obtain ⟨lo, unread, hf⟩ := h
    obtain ⟨rest, -, htake⟩ := hf.take hr
    rw [if_neg hr]
    split_ifs with hd hn hnl
    · exact ⟨lo, unread, hf.take_putBack _⟩
    · exact ⟨lo + 1, rest, htake⟩
    · exact ⟨lo + 1, rest, htake⟩
    · exact ih _ ⟨lo + 1, rest, htake⟩

/-! ## Schedules -/

/-- Every action keeps the line. -/
theorem fifo_step (a : Action) {s : ConsoleSystem} {l : Line} (h : HoldsLine s.console.input l) :
    Ensures (s.step a) fun x => HoldsLine x.1.console.input (l.after x.2) := by
  cases a with
  | intr c =>
    refine Ensures.bind (consoleintrByte_fifo c h) fun x hx => ?_
    simpa using hx
  | read id n killed =>
    simp only [ConsoleSystem.step]
    split
    · simp
    · rw [ensures_ok]
      exact consolereadLoop_fifo killed n.toNat _ h
  | wake id killed =>
    simp only [ConsoleSystem.step]
    split
    · simp
    · rw [ensures_ok]
      exact consolereadLoop_fifo killed _ _ h
  | setBufferFlag f => simpa [ConsoleSystem.step, HgXv6.setBufferFlag] using h
  | setShowAtOnce f => simpa [ConsoleSystem.step, HgXv6.setShowAtOnce] using h

/-- Every schedule keeps the line. -/
theorem fifo_run (as : List Action) {s : ConsoleSystem} {l : Line}
    (h : HoldsLine s.console.input l) :
    Ensures (s.run as) fun x => HoldsLine x.1.console.input (l.after x.2) := by
  induction as generalizing s l with
  | nil => simpa [ConsoleSystem.run] using h
  | cons a as ih =>
    refine Ensures.bind (fifo_step a h) fun x hx => ?_
    refine Ensures.bind (ih hx) fun y hy => ?_
    simpa [Line.after_append] using hy

/-! ## What is stored for the readers -/

/-- What has been taken, less the Ctrl-D that end a call and are not stored. -/
def Line.given (l : Line) : List UInt8 := l.taken.filter (· ≠ ctrl 'D')

/-- Erasing a byte takes nothing. -/
theorem eraseOne_taken (s : Console) (l : Line) :
    Ensures (eraseOne s) fun x => (l.after x.2).taken = l.taken := by
  refine Ensures.bind (P := fun _ => True) (fun _ _ => trivial) fun cga _ => ?_
  rw [ensures_ok]
  rfl

theorem killLine_taken (n : ℕ) (s : Console) (l : Line) :
    Ensures (killLine n s) fun x => (l.after x.2).taken = l.taken := by
  induction n generalizing s l with
  | zero => simp [killLine]
  | succ n ih =>
    simp only [killLine]
    split_ifs
    · refine Ensures.bind (eraseOne_taken s l) fun x hx => ?_
      refine Ensures.bind (ih x.1 (l.after x.2)) fun y hy => ?_
      rw [ensures_ok, Line.after_append]
      exact hy.trans hx
    · simp

/-- The interrupt handler takes nothing. -/
theorem consoleintrByte_taken (c : UInt8) (s : Console) (l : Line) :
    Ensures (consoleintrByte c s) fun x => (l.after x.2).taken = l.taken := by
  unfold consoleintrByte
  split_ifs
  · simp
  · exact killLine_taken _ s l
  · exact eraseOne_taken s l
  · simp
  · unfold acceptCase
    split_ifs
    · refine Ensures.bind (P := fun _ => True) (fun _ _ => trivial) fun cga _ => ?_
      dsimp only
      split_ifs
      all_goals rw [ensures_ok]
      all_goals rfl
    · refine Ensures.bind (P := fun _ => True) (fun _ _ => trivial) fun cga _ => ?_
      dsimp only
      split_ifs
      all_goals rw [ensures_ok]
      all_goals rfl
    · simp

/-- A stretch of a reader stores what it takes, up to a Ctrl-D.

**Proof sketch.** Induction on the number of passes. A pass that takes a byte and goes on has
stored it; the pass that ends the stretch stores a newline, or takes a Ctrl-D, which is not given
to the reader and may be put back. -/
theorem consolereadLoop_stored (killed : Bool) (k : ℕ) (rd : Reader) (s : Console) (l : Line) :
    ∃ bytes, (consolereadLoop killed k rd s).1.dst = rd.dst ++ bytes ∧
      (l.after (consolereadLoop killed k rd s).2.2).given = l.given ++ bytes := by
  induction k generalizing rd s l with
  | zero => exact ⟨[], (List.append_nil _).symm, (List.append_nil _).symm⟩
  | succ k ih =>
    simp only [consolereadLoop]
    obtain ⟨c, hc⟩ : ∃ c, c = s.input.buf (s.input.r.toNat % INPUT_BUF) := ⟨_, rfl⟩
    rw [← hc]
    split_ifs with hr hkilled hd hn hnl
    · exact ⟨[], (List.append_nil _).symm, (List.append_nil _).symm⟩
    · exact ⟨[], (List.append_nil _).symm, (List.append_nil _).symm⟩
    · refine ⟨[], (List.append_nil _).symm, ?_⟩
      simp [Line.apply, Line.given]
    · refine ⟨[], (List.append_nil _).symm, ?_⟩
      simp [Line.apply, Line.given, hd]
    · refine ⟨[c], rfl, ?_⟩
      simp [Line.apply, Line.given, hd]
    · obtain ⟨bytes, hdst, hgiven⟩ := ih { rd with n := rd.n - 1, dst := rd.dst ++ [c] }
        { s with input := { s.input with r := s.input.r + 1 } } (l.apply (.take c))
      refine ⟨c :: bytes, ?_, ?_⟩
      · rw [hdst, List.append_assoc, List.singleton_append]
      · rw [Line.after_cons, hgiven]
        simp [Line.apply, Line.given, hd]

/-- What an action takes it stores for the readers.

**Proof sketch.** An interrupt takes no bytes, so that the bytes given to readers stay the same
(`consoleintrByte_taken`). A call of `consoleread`, and a reader that is woken, run the loop of
`consoleread`, which stores every byte it takes except the Ctrl-D that ends the call
(`consolereadLoop_stored`); a reader that is woken has what it stored before it slept in front of
that. The two switches touch nothing. -/
theorem stored_step (a : Action) (s : ConsoleSystem) (l : Line) :
    Ensures (s.step a) fun x => (l.after x.2).given = l.given ++ s.storedBy a := by
  cases a with
  | intr c =>
    refine Ensures.bind (consoleintrByte_taken c s.console l) fun x hx => ?_
    have hnone : s.storedBy (.intr c) = [] := rfl
    rw [ensures_ok, hnone, List.append_nil]
    exact congrArg (List.filter _) hx
  | read id n killed =>
    simp only [ConsoleSystem.step, ConsoleSystem.storedBy]
    split
    · simp
    · rw [ensures_ok]
      obtain ⟨bytes, hdst, hgiven⟩ :=
        consolereadLoop_stored killed n.toNat (Reader.start n) s.console l
      rw [consoleread, hdst]
      exact hgiven
  | wake id killed =>
    simp only [ConsoleSystem.step, ConsoleSystem.storedBy]
    split
    · simp
    · next rd hrd =>
      rw [ensures_ok]
      obtain ⟨bytes, hdst, hgiven⟩ := consolereadLoop_stored killed rd.n rd s.console l
      rw [hdst, List.drop_left]
      exact hgiven
  | setBufferFlag f => simp [ConsoleSystem.step, ConsoleSystem.storedBy]
  | setShowAtOnce f => simp [ConsoleSystem.step, ConsoleSystem.storedBy]

/-- What a schedule takes it stores for the readers. -/
theorem stored_run (as : List Action) (s : ConsoleSystem) (l : Line) :
    Ensures (s.run as) fun x => (l.after x.2).given = l.given ++ s.stored as := by
  induction as generalizing s l with
  | nil => simp [ConsoleSystem.run, ConsoleSystem.stored]
  | cons a as ih =>
    cases hstep : s.step a with
    | error e => simp [ConsoleSystem.run, hstep]
    | ok x =>
      rw [ConsoleSystem.run, ConsoleSystem.stored, hstep]
      refine Ensures.bind (P := fun y => y = x) (by simp) fun y hy => ?_
      subst hy
      refine Ensures.bind (ih y.1 (l.after y.2)) fun z hz => ?_
      rw [ensures_ok, Line.after_append, hz, stored_step a s l y hstep, List.append_assoc]

/-- A console at rest holds the empty line. -/
theorem holdsLine_start (i : UInt32) (buf : ℕ → UInt8) (cga : Cga) :
    HoldsLine (ConsoleSystem.start i buf cga).console.input ⟨[], [], []⟩ :=
  ⟨i.toNat, [], Tracks.self i, Tracks.self i, Tracks.self i, Holds.nil _ _ _, rfl⟩

/-- **Console input is a loss-free queue.** After every schedule, from a console at rest with its
indices anywhere in their range: `r ≤ w ≤ e ≤ r + INPUT_BUF` as wrapping distances, the bytes taken
from the ring are a prefix of the committed ones, the committed bytes not yet taken are still in the
ring, in order, from `r` to `w`, and what the calls of `consoleread` have stored for their callers
is what has been taken, less the Ctrl-D that end a call.

**Proof sketch.** `fifo_run` carries the invariant `Fifo` through the schedule: the indices, as
unbounded positions in the history of the line, and the slots of the ring between them. The
distances are read off it, where `length_le` is the capacity of the ring. What is taken is a prefix
of what is committed since the invariant says what is left over, and the slots from `r` to `w` hold
what is left over, byte for byte. The last part is `stored_run`, which follows what the readers have
stored beside the ring. -/
theorem console_fifo (i : UInt32) (buf : ℕ → UInt8) (cga : Cga) (as : List Action)
    (s : ConsoleSystem) (evs : List Event)
    (hrun : (ConsoleSystem.start i buf cga).run as = .ok (s, evs)) :
    let inp := s.console.input
    (inp.w - inp.r).toNat ≤ (inp.e - inp.r).toNat ∧ (inp.e - inp.r).toNat ≤ INPUT_BUF ∧
      (lineOf evs).taken <+: (lineOf evs).committed ∧
      ((lineOf evs).committed = (lineOf evs).taken ++
        (List.range (inp.w - inp.r).toNat).map fun k =>
          inp.buf ((inp.r + UInt32.ofNat k).toNat % INPUT_BUF)) ∧
      (ConsoleSystem.start i buf cga).stored as = (lineOf evs).taken.filter (· ≠ ctrl 'D') := by
  obtain ⟨lo, unread, hf⟩ := fifo_run as (holdsLine_start i buf cga) _ hrun
  change Fifo s.console.input (lineOf evs) lo unread at hf
  have hle := hf.length_le
  refine ⟨?_, ?_, ⟨unread, hf.history.symm⟩, ?_, ?_⟩
  · rw [hf.dist_w, hf.dist_e]
    omega
  · rw [hf.dist_e]
    exact hle
  · rw [hf.history, hf.dist_w]
    congr 1
    refine List.ext_getElem (by simp) fun k h1 h2 => ?_
    have hget := hf.slots.get k (by rw [List.length_append]; omega)
    rw [List.getElem_append_left h1] at hget
    rw [List.getElem_map, List.getElem_range, ← hget]
    have htr : Tracks (s.console.input.r + UInt32.ofNat k) (lo + k) := by
      have hr := hf.r
      unfold Tracks at *
      rw [UInt32.toNat_add, hr, UInt32.toNat_ofNat']
      omega
    rw [htr.slot inputBuf_dvd]
  · exact (stored_run as _ ⟨[], [], []⟩ _ hrun).symm

/-- A schedule across the wrap of the indices: a reader that wants three bytes sleeps, `a` and
Ctrl-D are typed, and the reader puts the Ctrl-D back for the call that follows. -/
theorem console_fifo_putBack :
    ∃ s evs, (ConsoleSystem.start 0xFFFFFFFF (fun _ => 0) clearedScreen).run
        [.setShowAtOnce 0, .read 1 3 false, .intr 97, .intr 4, .wake 1 false] = .ok (s, evs) ∧
      (lineOf evs).taken = [97] ∧ (lineOf evs).committed = [97, 4] ∧
      (lineOf evs).taken <+: (lineOf evs).committed :=
  ⟨_, _, rfl, rfl, rfl, (console_fifo 0xFFFFFFFF (fun _ => 0) clearedScreen
    [.setShowAtOnce 0, .read 1 3 false, .intr 97, .intr 4, .wake 1 false] _ _ rfl).2.2.1⟩

end HgXv6
