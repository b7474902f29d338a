import HgXv6.Kernel.ProcessTree

set_option relaxedAutoImplicit false
set_option autoImplicit false

/-!
# The scheduler is fair

Every processor goes round the process table and goes on behind the process that it has picked
last. Between a process that can run and the place where a processor is lie at most `NPROC - 1`
entries; each time the processor picks another process there is one less of them, and nothing else
makes them more. So no processor picks more than `NPROC - 1` processes before one of them picks the
process that waits.

## Main definitions

* `HgXv6.Sched.Mode.ahead` — the entries that a processor comes by before it comes to a process.
* `HgXv6.Sched.Passes` — a process that can run has been passed over.

## Main results

* `HgXv6.Sched.passes_step` — one action.
* `HgXv6.Sched.picked_run` — every schedule.
-/

namespace HgXv6.Sched

open Prog
open Descriptors (NPROC)

variable {t t' : Table} {p q : Slot} {s s' : Sys} {c : Fin NCPU} {m : Mode} {a : Act}
  {acts acts' : List Act} {seen seen' : List Event}

/-! ## The way to a process -/

/-- The index at which the loop of `scheduler` goes on. -/
def Mode.next : Mode → ℕ
  | .idle => 0
  | .scan i => i
  | .resume p => p + 1
  | .run p => p + 1

/-- The entries that a processor comes by before it comes to the process. -/
def Mode.ahead (p : Slot) (m : Mode) : ℕ :=
  if m.next ≤ p then p - m.next else NPROC - m.next + p

theorem Mode.ahead_lt (p : Slot) (m : Mode) : m.ahead p < NPROC := by
  have hp := p.isLt
  unfold ahead
  split_ifs <;> omega

/-- The processor comes by another entry. -/
theorem Mode.ahead_succ {m' : Mode} (hlt : m.next < NPROC) (hne : (p : ℕ) ≠ m.next)
    (hnext : m'.next = m.next + 1) : m'.ahead p + 1 = m.ahead p := by
  have hp := p.isLt
  unfold ahead
  rw [hnext]
  by_cases hle : m.next ≤ p
  · rw [if_pos hle, if_pos (by omega)]
    omega
  · rw [if_neg hle, if_neg (by omega)]
    omega

/-- The processor starts again. -/
theorem Mode.ahead_restart {m' : Mode} (hle : NPROC ≤ m.next) (hnext : m'.next = 0) :
    m'.ahead p ≤ m.ahead p := by
  have hp := p.isLt
  unfold ahead
  rw [hnext, if_pos (Nat.zero_le _), if_neg (by omega)]
  omega

/-- The processor picks a process. -/
def Event.picks (c : Fin NCPU) : Event → Bool
  | .picked d _ => d = c
  | _ => false

/-- The process still can run, and each processor has come closer to it with each process that it
has picked. -/
structure Passes (p : Slot) (s s' : Sys) (seen : List Event) : Prop where
  runnable : (s'.table.proc p).state = .RUNNABLE
  ahead : ∀ c, seen.countP (Event.picks c) + (s'.mode c).ahead p ≤ (s.mode c).ahead p

theorem Passes.refl (h : (s.table.proc p).state = .RUNNABLE) : Passes p s s [] :=
  ⟨h, fun _ => by simp⟩

theorem Passes.trans {s₁ s₂ s₃ : Sys} (h : Passes p s₁ s₂ seen) (h' : Passes p s₂ s₃ seen') :
    Passes p s₁ s₃ (seen ++ seen') := by
  refine ⟨h'.runnable, fun c => ?_⟩
  rw [List.countP_append]
  have h₁ := h.ahead c
  have h₂ := h'.ahead c
  omega

/-- An action of the processor `c`. -/
theorem Passes.set (hrunnable : (t'.proc p).state = .RUNNABLE)
    (hahead : seen.countP (Event.picks c) + m.ahead p ≤ (s.mode c).ahead p)
    (hother : ∀ d, d ≠ c → seen.countP (Event.picks d) = 0) : Passes p s (s.set c m t') seen := by
  refine ⟨hrunnable, fun d => ?_⟩
  change _ + (Function.update s.mode c m d).ahead p ≤ _
  by_cases hd : d = c
  · rw [hd, Function.update_self]
    exact hahead
  · rw [Function.update_of_ne hd, hother d hd, Nat.zero_add]

/-- An action after which the processor goes on at the same place of its loop. -/
theorem Passes.stay (hrunnable : (t'.proc p).state = .RUNNABLE)
    (hnext : m.next = (s.mode c).next) (hseen : ∀ d, seen.countP (Event.picks d) = 0) :
    Passes p s (s.set c m t') seen := by
  refine .set hrunnable ?_ fun d _ => hseen d
  rw [hseen c, Nat.zero_add]
  unfold Mode.ahead
  rw [hnext]

/-! ## One action -/

/-- An entry other than the one of the process. -/
theorem runnable_set {v : Proc} (h : (t.proc p).state = .RUNNABLE)
    (hq : (t.proc q).state ≠ .RUNNABLE) : ((t.set q v).proc p).state = .RUNNABLE := by
  have hne : p ≠ q := by
    rintro rfl
    exact hq h
  rw [Table.set_ne hne]
  exact h

theorem wakeup1_runnable (chan : Chan) (h : (t.proc p).state = .RUNNABLE) :
    ((wakeup1 chan t).proc p).state = .RUNNABLE := by
  rcases wakeup1_proc chan t p with heq | ⟨-, heq⟩
  · rw [heq, h]
  · rw [heq]

theorem kill_runnable (pid : Int32) (h : (t.proc p).state = .RUNNABLE) :
    ((kill pid t).proc p).state = .RUNNABLE := by
  rcases kill_state pid t p with heq | ⟨-, heq⟩
  · rw [heq, h]
  · exact heq

theorem fork_runnable {proc : Slot} {r : Option Slot × Table} (hspec : Forked proc t r)
    (h : (t.proc p).state = .RUNNABLE) : (r.2.proc p).state = .RUNNABLE := by
  have hne : ∀ np, (t.proc np).life = .none → (t.proc np).state ≠ .RUNNABLE := by
    intro np hnp
    rw [Proc.life_none.mp hnp]
    simp
  cases hspec with
  | full => exact h
  | failed np context hnp => exact runnable_set h (hne np hnp)
  | born np hnp => exact runnable_set h (hne np hnp)

theorem exit_runnable {proc : Slot} (hspec : Exited proc t t') (hproc : p ≠ proc)
    (h : (t.proc p).state = .RUNNABLE) : (t'.proc p).state = .RUNNABLE := by
  rcases hspec.state p hproc with heq | ⟨-, heq⟩
  · rw [heq, h]
  · exact heq

/-- `wait` -/
theorem passes_waits (hmode : (s.mode c).next = q + 1) (hq : (s.table.proc q).state ≠ .RUNNABLE)
    (h : (s.table.proc p).state = .RUNNABLE) (hcall : s.waits c q = .goes s' seen) :
    Passes p s s' seen := by
  have hspec := wait_spec q s.table
  simp only [Sys.waits] at hcall
  generalize wait q s.table = r at hspec hcall
  cases hspec with
  | reaped z hparent hzombie =>
    cases hcall
    refine .stay (runnable_set h ?_) hmode.symm fun _ => rfl
    rw [hzombie]
    simp
  | childless hnone =>
    cases hcall
    exact .stay h hmode.symm fun _ => rfl
  | killed hkilled hchild hzombie =>
    cases hcall
    exact .stay h hmode.symm fun _ => rfl
  | asleep hkilled hchild hzombie =>
    cases hcall
    exact .stay (runnable_set h hq) hmode.symm fun _ => rfl

/-- `scheduler`, or the process to which it has switched, goes on.

**Proof sketch.** By the mode of the processor. If `scheduler` looks at the entry of `p`, which is
`RUNNABLE`, it picks it. If it looks at another one its distance to `p` becomes smaller, whether it
picks that one or not. If a process that has been switched to goes on, its processor stays where it
is in the table. -/
theorem passes_tick (hsound : s.Sound) (h : (s.table.proc p).state = .RUNNABLE)
    (hcall : tick c s = .goes s' seen) : Event.picked c p ∈ seen ∨ Passes p s s' seen := by
  have hp := p.isLt
  unfold tick at hcall
  split at hcall
  · next hmode =>
    cases hcall
    exact .inr (.stay h (by rw [hmode]; rfl) fun _ => rfl)
  · next i hmode =>
    by_cases hi : i < NPROC
    · rw [dif_pos hi] at hcall
      dsimp only at hcall
      by_cases hstate : (s.table.proc ⟨i, hi⟩).state = .RUNNABLE
      · rw [if_neg (not_not.mpr hstate)] at hcall
        cases hcall
        by_cases hip : p = ⟨i, hi⟩
        · exact .inl (by rw [hip]; exact List.mem_singleton_self _)
        · -- another process is picked, on the way to this one
          have hne : (p : ℕ) ≠ i := fun heq => hip (Fin.ext heq)
          refine .inr (.set ?_ ?_ fun d hd => ?_)
          · rw [Table.set_ne hip]
            exact h
          · have hahead : (Mode.resume ⟨i, hi⟩).ahead p + 1 = (Mode.scan i).ahead p :=
              Mode.ahead_succ hi hne rfl
            rw [hmode, List.countP_singleton, if_pos (by simp [Event.picks])]
            omega
          · rw [List.countP_singleton]
            simp [Event.picks, hd.symm]
      · rw [if_pos hstate] at hcall
        cases hcall
        have hne : (p : ℕ) ≠ i := by
          rintro rfl
          exact hstate h
        refine .inr (.set h ?_ fun _ _ => rfl)
        have hahead : (Mode.scan (i + 1)).ahead p + 1 = (Mode.scan i).ahead p :=
          Mode.ahead_succ hi hne rfl
        rw [hmode, List.countP_nil]
        omega
    · rw [dif_neg hi] at hcall
      cases hcall
      refine .inr (.set h ?_ fun _ _ => rfl)
      rw [hmode, List.countP_nil, Nat.zero_add]
      exact Mode.ahead_restart (not_lt.mp hi) rfl
  · next q hmode =>
    have hnext : (s.mode c).next = q + 1 := by rw [hmode]; rfl
    have hrunning : (s.table.proc q).state = .RUNNING :=
      (hsound.cpus.running q).mpr ⟨c, by rw [hmode]; rfl⟩
    have hq : (s.table.proc q).state ≠ .RUNNABLE := by
      rw [hrunning]
      simp
    right
    split at hcall
    · cases hcall
      exact .stay h hnext.symm fun _ => rfl
    · cases hcall
      exact .stay h hnext.symm fun _ => rfl
    · cases hcall
      exact .stay (runnable_set h hq) hnext.symm fun _ => rfl
    · have hpass := passes_waits (s := ⟨s.table.set q { s.table.proc q with chan := none }, s.mode⟩)
        hnext (by dsimp only; rw [Table.set_self]; exact hq) (runnable_set h hq) hcall
      exact ⟨hpass.runnable, hpass.ahead⟩
  · cases hcall

/-- What a process does outside of the lock. -/
theorem passes_call (hsound : s.Sound) (hmode : s.mode a.cpu = .run q)
    (h : (s.table.proc p).state = .RUNNABLE) (hcall : call a.cpu q s a = .goes s' seen) :
    Passes p s s' seen := by
  have hnext : (s.mode a.cpu).next = q + 1 := by rw [hmode]; rfl
  have hrunning : (s.table.proc q).state = .RUNNING :=
    (hsound.cpus.running q).mpr ⟨_, by rw [hmode]; rfl⟩
  have hq : (s.table.proc q).state ≠ .RUNNABLE := by
    rw [hrunning]
    simp
  cases a with
  | tick c => cases hcall
  | fork c kalloc copyuvm =>
    have hspec := fork_spec q kalloc copyuvm s.table hsound.table.kstack
    simp only [call] at hcall
    generalize fork q kalloc copyuvm s.table = r at hspec hcall
    have hrunnable := fork_runnable hspec h
    obtain ⟨np, t⟩ := r
    cases np <;> cases hcall <;> exact .stay hrunnable hnext.symm fun _ => rfl
  | exit c =>
    simp only [call] at hcall
    split_ifs at hcall with hinit
    cases hcall
    exact .stay (exit_runnable (exit_spec s.table hinit) (fun heq => hq (heq ▸ h)) h) hnext.symm
      fun _ => rfl
  | wait c => exact passes_waits hnext hq h hcall
  | sleep c chan =>
    cases hcall
    exact .stay (runnable_set h hq) hnext.symm fun _ => rfl
  | yield c =>
    cases hcall
    exact .stay (runnable_set h hq) hnext.symm fun _ => rfl
  | kill c pid =>
    cases hcall
    exact .stay (kill_runnable pid h) hnext.symm fun _ => rfl
  | wakeup c chan =>
    cases hcall
    exact .stay (wakeup1_runnable _ h) hnext.symm fun _ => rfl

/-- **One action.** A process that can run is picked, or every processor is as close to it as
before, and closer if it has picked another one. -/
theorem passes_step (hsound : s.Sound) (h : (s.table.proc p).state = .RUNNABLE)
    (hstep : step a s = .goes s' seen) :
    (∃ c, Event.picked c p ∈ seen) ∨ Passes p s s' seen := by
  unfold step at hstep
  split_ifs at hstep
  split at hstep
  · next c _ => exact (passes_tick hsound h hstep).imp_left fun hc => ⟨c, hc⟩
  · next c chan _ hmode =>
    cases hstep
    have hidle : s.mode c = .idle := hmode
    exact .inr (.stay (wakeup1_runnable _ h) (by rw [hidle]) fun _ => rfl)
  · next q hmode => exact .inr (passes_call hsound hmode h hstep)
  · cases hstep

/-! ## Schedules -/

/-- A schedule in which no processor picks the process. -/
theorem passes_run (hsound : s.Sound)
    (h : (s.table.proc p).state = .RUNNABLE) (hrun : Reaction.run step acts s = .goes s' seen)
    (hpicked : ∀ c, Event.picked c p ∉ seen) : Passes p s s' seen := by
  induction acts generalizing s seen with
  | nil =>
    obtain ⟨rfl, rfl⟩ := Reaction.run_nil.mp hrun
    exact .refl h
  | cons a acts ih =>
    obtain ⟨t, seen₁, seen₂, hstep, hrest, rfl⟩ := Reaction.run_cons.mp hrun
    have hpass := (passes_step hsound h hstep).resolve_left fun ⟨c, hc⟩ =>
      hpicked c (List.mem_append_left _ hc)
    exact hpass.trans (ih (follows_step hsound hstep).sound hpass.runnable hrest fun c hc =>
      hpicked c (List.mem_append_right _ hc))

/-- **No process starves.** From the moment when a process can run until a processor picks it, no
processor picks `NPROC` processes; and it can run all the time.

**Proof sketch.** How far a processor is ahead of `p` is the number of entries that its loop has
left before it looks at `p`. As long as `p` is not picked it stays `RUNNABLE`, and with each process
that a processor picks, it is one entry closer at least (`passes_run`, by induction on the
schedule). Since it starts less than `NPROC` entries away, it picks fewer than `NPROC` processes. -/
theorem picked_run (hboot : Reaction.run step acts Sys.boot = .goes s seen)
    (h : (s.table.proc p).state = .RUNNABLE) (hrun : Reaction.run step acts' s = .goes s' seen')
    (hpicked : ∀ c, Event.picked c p ∉ seen') :
    (s'.table.proc p).state = .RUNNABLE ∧ ∀ c, seen'.countP (Event.picks c) < NPROC := by
  have hpass := passes_run (sound_run sound_boot.1 hboot) h hrun hpicked
  refine ⟨hpass.runnable, fun c => ?_⟩
  have hahead := hpass.ahead c
  have hlt := Mode.ahead_lt p (s.mode c)
  omega

/-- Two children of the first process: one is picked while the other one waits for its turn. -/
theorem picked_run_two : ∃ s seen s' seen', Reaction.run step
      [.tick 0, .tick 0, .tick 0, .fork 0 true true, .fork 0 true true] Sys.boot = .goes s seen ∧
    Reaction.run step [.yield 0, .tick 0, .tick 0] s = .goes s' seen' ∧
    seen' = [.picked 0 1] ∧
    (s'.table.proc 2).state = .RUNNABLE ∧ ∀ c, seen'.countP (Event.picks c) < NPROC := by
  obtain ⟨s, seen, h, hs⟩ := Reaction.exists_of_ends (r := Reaction.run step
      [.tick 0, .tick 0, .tick 0, .fork 0 true true, .fork 0 true true] Sys.boot)
    (P := fun s _ => (s.table.proc 2).state = .RUNNABLE ∧
      (Reaction.run step [.yield 0, .tick 0, .tick 0] s).ends
        (fun _ seen => seen = [.picked 0 1])) (by decide +kernel)
  obtain ⟨hrunnable, hends⟩ := of_decide_eq_true hs
  obtain ⟨s', seen', h', hseen⟩ := Reaction.exists_of_ends hends
  have hseen : seen' = [.picked 0 1] := of_decide_eq_true hseen
  exact ⟨s, seen, s', seen', h, h', hseen,
    picked_run h hrunnable h' (by rw [hseen]; decide)⟩

end HgXv6.Sched
