import HgXv6.Console.Input

set_option relaxedAutoImplicit false
set_option autoImplicit false

/-!
# The console mode and the end of a process

The two mode flags of the console are globals of the kernel that only the system calls
`setBufferFlag` and `setShowAtOnce` change. The editor sets both to 0 before its main loop and to
1 after it. A process can also be ended by the kernel: `kill` marks it, an exception of its own
code marks it, and `trap` makes a marked process exit when it enters the kernel by a system call,
when it leaves it again, and at every interrupt of its user code (`trap.c`, `proc.c`). `exit`
closes its files and knows nothing of the console.

A run of a process is a list of events. An event that cannot happen in a state is ignored there,
so that every list of events is a run. The rest of the system appears as `kill` and as interrupts,
and leaves the flags alone.

## Main definitions

* `HgXv6.Phase`, `HgXv6.Phase.calls` — how far `edit_file` is, and the system calls it makes.
* `HgXv6.Process`, `HgXv6.Process.step` — a process, and what one event does to it.
* `HgXv6.Process.Restored` — both flags are 1.
* `HgXv6.Process.EndsRaw` — the event makes the process exit between its call `setBufferFlag(0)` and
  its call `setShowAtOnce(1)`.

## Main results

* `HgXv6.Process.run_tracks` — in every state the flags are those of the phase.
* `HgXv6.restored_iff` — a run leaves the flags at 1 exactly if none of its events ends the
  process raw.
-/

namespace HgXv6

/-! ## The program -/

/-- A system call of the process, as far as the console mode goes. -/
inductive Syscall
  | setBufferFlag (flag : ℤ)
  | setShowAtOnce (flag : ℤ)
  | exit
  | other
deriving DecidableEq

/-- How far `edit_file` is: which of its four calls it has made. -/
inductive Phase
  | loading
  /-- after `setBufferFlag(0)` -/
  | unbuffered
  /-- after `setShowAtOnce(0)` -/
  | editing
  /-- after `setBufferFlag(1)` -/
  | buffered
  /-- after `setShowAtOnce(1)` -/
  | done
deriving DecidableEq

namespace Phase

/-- The phase after a system call of the program, or nothing if it does not make that call. If
the file does not exist the program exits from its first phase. -/
def calls : Phase → Syscall → Option Phase
  | p, .other => some p
  | loading, .exit => some loading
  | loading, .setBufferFlag 0 => some unbuffered
  | unbuffered, .setShowAtOnce 0 => some editing
  | editing, .setBufferFlag 1 => some buffered
  | buffered, .setShowAtOnce 1 => some done
  | done, .exit => some done
  | _, _ => none

/-- Between `setBufferFlag(0)` and `setShowAtOnce(1)`. -/
def Raw (p : Phase) : Prop := p = unbuffered ∨ p = editing ∨ p = buffered

instance (p : Phase) : Decidable p.Raw := inferInstanceAs (Decidable (_ ∨ _))

/-- The value of `bufferFlag` in a phase. -/
def bufferFlag (p : Phase) : ℤ := if p = unbuffered ∨ p = editing then 0 else 1

/-- The value of `showAtonce` in a phase. -/
def showAtonce (p : Phase) : ℤ := if p = editing ∨ p = buffered then 0 else 1

/-- Both flags are 1 outside the raw phases, and only there. -/
theorem flags_iff (p : Phase) : p.bufferFlag = 1 ∧ p.showAtonce = 1 ↔ ¬p.Raw := by
  cases p <;> decide

end Phase

/-! ## The process -/

/-- The process and the console. -/
structure Process where
  console : Console
  phase : Phase
  /-- the system call the kernel is executing for it, if it is in the kernel, and the phase of
  the program after it -/
  inside : Option (Syscall × Phase)
  killed : Bool
  zombie : Bool

/-- What happens to the process. -/
inductive ProcEvent
  /-- its code executes `int T_SYSCALL` -/
  | call (c : Syscall)
  /-- the system call it is in returns -/
  | ret
  /-- an interrupt, or, if `fault`, an exception -/
  | trap (fault : Bool)
  /-- another process calls `kill` with its pid -/
  | kill
deriving DecidableEq

namespace Process

/-- `exit`, in so far as it changes what is modelled here. -/
def exit (m : Process) : Process := { m with zombie := true, inside := none }

/-- `syscall` -/
def syscall (c : Syscall) (m : Process) : Process :=
  match c with
  | .setBufferFlag flag => { m with console := setBufferFlag flag m.console }
  | .setShowAtOnce flag => { m with console := setShowAtOnce flag m.console }
  | .exit => m.exit
  | .other => m

/-- `if(proc->killed) exit();` -/
def exitIfKilled (m : Process) : Process := if m.killed then m.exit else m

/-- What an event does to the process: the branches of `trap`, and `kill`. An exception in the
kernel panics, and an interrupt of the kernel does not make the process exit. -/
def step (m : Process) (e : ProcEvent) : Process :=
  if m.zombie then m
  else match e, m.inside with
    | .call c, none =>
      match m.phase.calls c with
      | none => m
      | some p => if m.killed then m.exit else { m with inside := some (c, p) }
    | .ret, some (c, p) => ({ m with inside := none, phase := p }.syscall c).exitIfKilled
    | .trap fault, none => { m with killed := m.killed || fault }.exitIfKilled
    | .kill, _ => { m with killed := true }
    | _, _ => m

/-- A run. -/
def run (m : Process) (es : List ProcEvent) : Process := es.foldl step m

/-- Both flags are 1. -/
def Restored (m : Process) : Prop := m.console.bufferFlag = 1 ∧ m.console.showAtonce = 1

/-- The event makes the process exit in a raw phase: a marked process enters the kernel or is
interrupted in one, or leaves a system call into one, or there is an exception in one. -/
def EndsRaw (m : Process) (e : ProcEvent) : Prop :=
  m.zombie = false ∧ match e, m.inside with
    | .call c, none => m.killed = true ∧ (m.phase.calls c).isSome = true ∧ m.phase.Raw
    | .ret, some (_, p) => m.killed = true ∧ p.Raw
    | .trap fault, none => (m.killed || fault) = true ∧ m.phase.Raw
    | _, _ => False

/-- A process that runs `edit_file` on a console whose flags are 1. -/
structure Starts (m : Process) : Prop where
  restored : m.Restored
  phase : m.phase = .loading
  inside : m.inside = none
  alive : m.zombie = false

/-! ## The flags follow the phase -/

/-- The flags are those of the phase, and the call the process is in is one its program makes
there. -/
structure Tracks (m : Process) : Prop where
  bufferFlag : m.console.bufferFlag = m.phase.bufferFlag
  showAtonce : m.console.showAtonce = m.phase.showAtonce
  inside : ∀ c p, m.inside = some (c, p) → m.phase.calls c = some p

/-- Exiting leaves the flags and the phase alone. -/
theorem Tracks.exit {m : Process} (h : m.Tracks) : m.exit.Tracks :=
  ⟨h.bufferFlag, h.showAtonce, nofun⟩

theorem Tracks.exitIfKilled {m : Process} (h : m.Tracks) : m.exitIfKilled.Tracks := by
  unfold Process.exitIfKilled
  split_ifs
  · exact h.exit
  · exact h

/-- A system call of the program sets the flags to those of the phase after it. -/
theorem Tracks.syscall {m : Process} (h : m.Tracks) {c : Syscall} {p : Phase}
    (hc : m.phase.calls c = some p) :
    ({ m with inside := none, phase := p }.syscall c).Tracks := by
  obtain ⟨h1, h2, -⟩ := h
  obtain ⟨console, phase, inside, killed, zombie⟩ := m
  dsimp only at h1 h2 hc
  revert hc
  fun_cases Phase.calls phase c with
  | case1 => rintro ⟨⟩; exact ⟨h1, h2, nofun⟩
  | case2 => rintro ⟨⟩; exact ⟨h1, h2, nofun⟩
  | case3 => rintro ⟨⟩; exact ⟨rfl, h2, nofun⟩
  | case4 => rintro ⟨⟩; exact ⟨h1, rfl, nofun⟩
  | case5 => rintro ⟨⟩; exact ⟨rfl, h2, nofun⟩
  | case6 => rintro ⟨⟩; exact ⟨h1, rfl, nofun⟩
  | case7 => rintro ⟨⟩; exact ⟨h1, h2, nofun⟩
  | case8 => nofun

/-- Every event keeps the flags those of the phase. -/
theorem step_tracks {m : Process} (h : m.Tracks) (e : ProcEvent) : (m.step e).Tracks := by
  unfold step
  by_cases hz : m.zombie = true
  · rw [if_pos hz]
    exact h
  rw [if_neg hz]
  split
  · split
    · exact h
    · rename_i p hp
      split
      · exact h.exit
      · exact ⟨h.bufferFlag, h.showAtonce, fun c' p' heq => by cases heq; exact hp⟩
  · rename_i c p hin
    exact (h.syscall (h.inside c p hin)).exitIfKilled
  · rename_i fault hin
    exact Tracks.exitIfKilled ⟨h.bufferFlag, h.showAtonce, h.inside⟩
  · exact ⟨h.bufferFlag, h.showAtonce, h.inside⟩
  · exact h

/-- The flags are those of the phase throughout a run. -/
theorem run_tracks {m : Process} (h : m.Tracks) (es : List ProcEvent) : (m.run es).Tracks := by
  induction es generalizing m with
  | nil => exact h
  | cons e es ih => exact ih (step_tracks h e)

/-- Where a run starts the flags are those of the phase. -/
theorem Starts.tracks {m : Process} (h : m.Starts) : m.Tracks := by
  refine ⟨?_, ?_, ?_⟩
  · rw [h.phase]
    exact h.restored.1
  · rw [h.phase]
    exact h.restored.2
  · rw [h.inside]
    exact nofun

/-- The flags are 1 exactly outside the raw phases. -/
theorem Tracks.restored_phase {m : Process} (h : m.Tracks) : m.Restored ↔ ¬m.phase.Raw := by
  unfold Restored
  rw [h.bufferFlag, h.showAtonce]
  exact m.phase.flags_iff

/-! ## The end of the process -/

@[simp] theorem exitIfKilled_phase (m : Process) : m.exitIfKilled.phase = m.phase := by
  unfold exitIfKilled exit
  split_ifs
  · rfl
  · rfl

/-- A process that has ended has not ended raw. -/
def EndedWell (m : Process) : Prop := m.zombie = true → ¬m.phase.Raw

/-- A process that has not ended. -/
theorem endedWell_of_alive {m : Process} (hz : m.zombie = false) : m.EndedWell := by
  simp [EndedWell, hz]

/-- A process that is made to exit if it is marked ends in the phase it is in. -/
theorem exitIfKilled_endedWell {m : Process} (hz : m.zombie = false) :
    m.exitIfKilled.EndedWell ↔ ¬(m.killed = true ∧ m.phase.Raw) := by
  unfold exitIfKilled EndedWell
  split_ifs with hk
  · simp [exit, hk]
  · simp [hz, hk]

/-- Neither the first phase nor the last one, in which the program calls `exit`, is raw. -/
theorem not_raw_of_exit {p q : Phase} (h : p.calls .exit = some q) : ¬q.Raw := by
  revert h
  cases p with
  | loading => rintro ⟨⟩; decide
  | unbuffered => nofun
  | editing => nofun
  | buffered => nofun
  | done => rintro ⟨⟩; decide

/-- The return of a system call ends the process raw exactly if it is marked and the phase after
the call is raw. -/
theorem ret_endedWell {m : Process} (hz : m.zombie = false) {c : Syscall} {p : Phase}
    (hc : m.phase.calls c = some p) :
    ({ m with inside := none, phase := p }.syscall c).exitIfKilled.EndedWell ↔
      ¬(m.killed = true ∧ p.Raw) := by
  cases c with
  | exit =>
    have hraw := not_raw_of_exit hc
    refine iff_of_true (fun _ => ?_) (fun hno => hraw hno.2)
    rw [exitIfKilled_phase]
    exact hraw
  | setBufferFlag flag => exact exitIfKilled_endedWell hz
  | setShowAtOnce flag => exact exitIfKilled_endedWell hz
  | other => exact exitIfKilled_endedWell hz

/-- One event of a process that is alive: it ends well exactly if the event does not end it
raw. -/
theorem step_endedWell {m : Process} (h : m.Tracks) (hz : m.zombie = false) (e : ProcEvent) :
    (m.step e).EndedWell ↔ ¬m.EndsRaw e := by
  have hwell := endedWell_of_alive hz
  unfold step EndsRaw
  rw [if_neg (by simp [hz])]
  cases hin : m.inside with
  | none =>
    cases e with
    | call c =>
      dsimp only
      rcases hp : m.phase.calls c with _ | p
      · simpa using hwell
      · by_cases hk : m.killed = true
        · simp [EndedWell, exit, hk, hz]
        · simp [EndedWell, hk, hz]
    | ret => simpa using hwell
    | trap fault =>
      have := exitIfKilled_endedWell
        (m := { m with inside := none, killed := m.killed || fault }) hz
      simpa [hz] using this
    | kill => simp [EndedWell, hz]
  | some cp =>
    obtain ⟨c, p⟩ := cp
    cases e with
    | call c' => simpa using hwell
    | ret =>
      have := ret_endedWell hz (h.inside c p hin)
      simpa [hz] using this
    | trap fault => simpa using hwell
    | kill => simp [EndedWell, hz]

/-- Nothing happens to a zombie. -/
theorem run_zombie {m : Process} (hz : m.zombie = true) (es : List ProcEvent) : m.run es = m := by
  induction es with
  | nil => rfl
  | cons e es ih =>
    have hstep : m.step e = m := if_pos hz
    rw [run, List.foldl_cons, hstep]
    exact ih

/-- No event of the run ends the process raw. -/
def Spared : Process → List ProcEvent → Prop
  | _, [] => True
  | m, e :: es => ¬m.EndsRaw e ∧ Spared (m.step e) es

/-- Every run of a zombie is spared. -/
theorem spared_zombie {m : Process} (hz : m.zombie = true) (es : List ProcEvent) : m.Spared es := by
  induction es with
  | nil => trivial
  | cons e es ih =>
    have hstep : m.step e = m := if_pos hz
    refine ⟨fun h => ?_, ?_⟩
    · have halive := h.1
      rw [hz] at halive
      cases halive
    · rw [hstep]
      exact ih

/-- A run ends well exactly if it is spared. -/
theorem run_endedWell {m : Process} (h : m.Tracks) (hwell : m.EndedWell) (es : List ProcEvent) :
    (m.run es).EndedWell ↔ m.Spared es := by
  induction es generalizing m with
  | nil => exact iff_of_true hwell trivial
  | cons e es ih =>
    cases hz : m.zombie with
    | true =>
      rw [run_zombie hz]
      exact iff_of_true hwell (spared_zombie hz _)
    | false =>
      have hstep := step_endedWell h hz e
      change ((m.step e).run es).EndedWell ↔ ¬m.EndsRaw e ∧ (m.step e).Spared es
      by_cases hraw : m.EndsRaw e
      · -- the process ends here, and stays as it is
        have hbad : ¬(m.step e).EndedWell := fun hw => (hstep.mp hw) hraw
        have hz' : (m.step e).zombie = true := by
          by_contra hne
          exact hbad (endedWell_of_alive (by simpa using hne))
        rw [run_zombie hz']
        exact iff_of_false hbad fun hno => hno.1 hraw
      · rw [ih (step_tracks h e) (hstep.mpr hraw)]
        exact (and_iff_right hraw).symm

end Process

open Process

/-- In every run of a process that finds the flags at 1, both are 1 again once it is a zombie,
exactly if no event of the run makes it exit between its call `setBufferFlag(0)` and its call
`setShowAtOnce(1)`.

**Proof sketch.** The phase of the process says which of the two flags its calls have set last
(`run_tracks`), so that both are 1 exactly if it has ended in a phase outside of the main loop. By
induction on the events this is so exactly if no event has made it exit in one (`run_endedWell`). -/
theorem restored_iff {m : Process} (h : m.Starts) (es : List ProcEvent) :
    ((m.run es).zombie = true → (m.run es).Restored) ↔ m.Spared es := by
  rw [(run_tracks h.tracks es).restored_phase]
  exact run_endedWell h.tracks (endedWell_of_alive h.alive) es

/-- A process that enters `edit_file`. -/
def newProcess : Process where
  console := { input := ⟨fun _ => 0, 0, 0, 0⟩, cga := clearedScreen }
  phase := .loading
  inside := none
  killed := false
  zombie := false

/-- The system calls `cs`, each of which returns. -/
def callsOf (cs : List Syscall) : List ProcEvent := cs.flatMap fun c => [.call c, .ret]

/-- `restored_iff` for a process that leaves its main loop. -/
theorem restored_iff_newProcess :
    ((newProcess.run (callsOf [.setBufferFlag 0, .setShowAtOnce 0, .other, .setBufferFlag 1,
      .setShowAtOnce 1, .exit])).zombie = true →
    (newProcess.run (callsOf [.setBufferFlag 0, .setShowAtOnce 0, .other, .setBufferFlag 1,
      .setShowAtOnce 1, .exit])).Restored) ↔
    newProcess.Spared (callsOf [.setBufferFlag 0, .setShowAtOnce 0, .other, .setBufferFlag 1,
      .setShowAtOnce 1, .exit]) :=
  restored_iff ⟨⟨rfl, rfl⟩, rfl, rfl, rfl⟩ _

/-- A process that is killed in its main loop leaves both flags at 0. -/
theorem not_forall_restored : ¬∀ (m : Process) (es : List ProcEvent), m.Starts →
    (m.run es).zombie = true → (m.run es).Restored := by
  intro hall
  have h := hall newProcess (callsOf [.setBufferFlag 0, .setShowAtOnce 0] ++ [.kill, .trap false])
    ⟨⟨rfl, rfl⟩, rfl, rfl, rfl⟩ rfl
  exact absurd h.1 (by decide)

end HgXv6
