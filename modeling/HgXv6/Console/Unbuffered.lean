import HgXv6.Console.Fifo
import Mathlib.Data.List.Induction

set_option relaxedAutoImplicit false
set_option autoImplicit false

/-!
# Delivery of typed bytes

With `bufferFlag` zero every byte that is accepted is committed at once, and with it all the
bytes typed before. `setBufferFlag` itself commits nothing: a line that is half typed when the
console stops to buffer waits for the next byte. A full ring is committed in either mode, so that
a reader can always make room.

## Main definitions

* `HgXv6.FullCommitted` — a full ring has no pending bytes.
* `HgXv6.Accepts` — some event of a list accepts a byte.
* `HgXv6.SwitchedPending` — nothing has been accepted since the console stopped to buffer, which
  it did with bytes pending.

## Main results

* `HgXv6.fullCommitted_run` — every schedule keeps a full ring committed.
* `HgXv6.delivers_step` — what an action does to the bytes that are not readable.
* `HgXv6.delivered_run` — schedules.
-/

namespace HgXv6

open Prog Prog.Ring

/-! ## Accepting a byte -/

/-- The byte that is stored for a typed one. -/
def stored (c : UInt8) : UInt8 := if c = chr '\r' then NL else c

/-- The console after `c` has been stored and echoed, committed or not. -/
def accepted (c : UInt8) (cga : Cga) (now : Bool) (s : Console) : Console :=
  { s with
    input := { acceptByte (stored c) s.input with
      w := if now then s.input.e + 1 else s.input.w }
    cga := cga }

/-- Whether a byte that is accepted is committed at once. -/
def CommitsNow (c : UInt8) (s : Console) : Prop :=
  s.bufferFlag = 0 ∨ stored c = NL ∨ stored c = ctrl 'D' ∨ s.input.e + 1 = s.input.r + 128

instance (c : UInt8) (s : Console) : Decidable (CommitsNow c s) :=
  inferInstanceAs (Decidable (_ ∨ _))

/-- The default case of the handler, one step after the other. -/
theorem acceptCase_eq (c : UInt8) (s : Console) :
    acceptCase c s =
      if c ≠ 0 ∧ (s.input.e - s.input.r).toNat < INPUT_BUF then
        (if s.showAtonce ≠ 0 then consputc (.byte (stored c)) s.cga else .ok s.cga) >>= fun cga =>
          if CommitsNow c s then .ok (accepted c cga true s, [.accept (stored c), .commit])
          else .ok (accepted c cga false s, [.accept (stored c)])
      else .ok (s, []) := rfl

/-- What the default case of the handler can do. -/
theorem acceptCase_cases {c : UInt8} {s : Console} {x : Console × List Event}
    (h : acceptCase c s = .ok x) :
    (¬(c ≠ 0 ∧ (s.input.e - s.input.r).toNat < INPUT_BUF) ∧ x = (s, [])) ∨
      (c ≠ 0 ∧ (s.input.e - s.input.r).toNat < INPUT_BUF) ∧
        ∃ cga, (if s.showAtonce ≠ 0 then consputc (.byte (stored c)) s.cga else .ok s.cga) =
            .ok cga ∧
          (CommitsNow c s ∧ x = (accepted c cga true s, [.accept (stored c), .commit]) ∨
            ¬CommitsNow c s ∧ x = (accepted c cga false s, [.accept (stored c)])) := by
  rw [acceptCase_eq] at h
  by_cases hroom : c ≠ 0 ∧ (s.input.e - s.input.r).toNat < INPUT_BUF
  · rw [if_pos hroom] at h
    obtain ⟨cga, hcga, h⟩ := bind_eq_ok.mp h
    refine .inr ⟨hroom, cga, hcga, ?_⟩
    split_ifs at h with hnow
    · exact .inl ⟨hnow, (Except.ok.inj h).symm⟩
    · exact .inr ⟨hnow, (Except.ok.inj h).symm⟩
  · rw [if_neg hroom] at h
    exact .inl ⟨hroom, (Except.ok.inj h).symm⟩

/-! ## Full rings -/

/-- In a full ring every byte is committed. -/
def FullCommitted (s : Input) : Prop := s.e = s.r + 128 → s.w = s.e

/-- The ring holds at most `INPUT_BUF` bytes. -/
theorem HoldsLine.dist_le {s : Input} {l : Line} (h : HoldsLine s l) :
    (s.e - s.r).toNat ≤ INPUT_BUF := by
  obtain ⟨lo, unread, hf⟩ := h
  rw [hf.dist_e]
  exact hf.length_le

/-- A ring that has lost a byte at either end is not full. -/
theorem HoldsLine.not_full {s : Input} {l : Line} (h : HoldsLine s l) {e r : UInt32}
    (hlost : s.e - s.r = e - r + 1) : e ≠ r + 128 := by
  intro he
  have hdist : s.e - s.r = 129 := by
    rw [hlost, he]
    grind
  have hle := h.dist_le
  rw [hdist] at hle
  exact absurd hle (by decide)

/-- Erasing a byte leaves a ring that is not full. -/
theorem eraseOne_full {s : Console} {l : Line} (h : HoldsLine s.input l) :
    Ensures (eraseOne s) fun x => FullCommitted x.1.input := by
  refine Ensures.bind (P := fun _ => True) (fun _ _ => trivial) fun cga _ => ?_
  rw [ensures_ok]
  intro hfull
  refine absurd hfull (h.not_full ?_)
  dsimp only
  grind

/-- Killing a line. -/
theorem killLine_full (n : ℕ) {s : Console} {l : Line} (h : HoldsLine s.input l)
    (hc : FullCommitted s.input) :
    Ensures (killLine n s) fun x => FullCommitted x.1.input := by
  induction n generalizing s l with
  | zero => simpa [killLine] using hc
  | succ n ih =>
    simp only [killLine]
    split_ifs with hne
    · have hx : Ensures (eraseOne s) fun x =>
          FullCommitted x.1.input ∧ HoldsLine x.1.input (l.after x.2) :=
        fun x hx => ⟨eraseOne_full h x hx, eraseOne_fifo h hne.1 x hx⟩
      refine Ensures.bind hx fun x hx => ?_
      refine Ensures.bind (ih hx.2 hx.1) fun y hy => ?_
      simpa using hy
    · simpa using hc

/-- Accepting a byte: if it fills the ring then it is committed. -/
theorem acceptCase_full (c : UInt8) {s : Console} (hc : FullCommitted s.input) :
    Ensures (acceptCase c s) fun x => FullCommitted x.1.input := by
  intro x hx
  obtain ⟨-, rfl⟩ | ⟨-, cga, -, ⟨-, rfl⟩ | ⟨hnow, rfl⟩⟩ := acceptCase_cases hx
  · exact hc
  · exact fun _ => rfl
  · intro hfull
    exact absurd (.inr (.inr (.inr hfull))) hnow

/-- One pass of the interrupt handler. -/
theorem consoleintrByte_full (c : UInt8) {s : Console} {l : Line} (h : HoldsLine s.input l)
    (hc : FullCommitted s.input) :
    Ensures (consoleintrByte c s) fun x => FullCommitted x.1.input := by
  unfold consoleintrByte
  split_ifs
  · simpa using hc
  · exact killLine_full _ h hc
  · exact eraseOne_full h
  · simpa using hc
  · exact acceptCase_full c hc

/-- A stretch of a reader. -/
theorem consolereadLoop_full (killed : Bool) (k : ℕ) (rd : Reader) {s : Console} {l : Line}
    (h : HoldsLine s.input l) (hc : FullCommitted s.input) :
    FullCommitted (consolereadLoop killed k rd s).2.1.input := by
  induction k generalizing rd s l with
  | zero => exact hc
  | succ k ih =>
    simp only [consolereadLoop]
    by_cases hr : s.input.r = s.input.w
    · simpa [hr] using hc
    obtain ⟨lo, unread, hf⟩ := h
    obtain ⟨rest, -, htake⟩ := hf.take hr
    have htaken : FullCommitted { s.input with r := s.input.r + 1 } := by
      intro hfull
      refine absurd hfull (HoldsLine.not_full ⟨lo, unread, hf⟩ ?_)
      dsimp only
      grind
    rw [if_neg hr]
    split_ifs with hd hn hnl
    · -- the byte that was put back
      simpa [FullCommitted, UInt32.add_sub_cancel] using hc
    · exact htaken
    · exact htaken
    · exact ih _ ⟨lo + 1, rest, htake⟩ htaken

/-- Every action keeps a full ring committed. -/
theorem fullCommitted_step (a : Action) {s : ConsoleSystem} {l : Line}
    (h : HoldsLine s.console.input l) (hc : FullCommitted s.console.input) :
    Ensures (s.step a) fun x => FullCommitted x.1.console.input := by
  cases a with
  | intr c =>
    refine Ensures.bind (consoleintrByte_full c h hc) fun x hx => ?_
    simpa using hx
  | read id n killed =>
    simp only [ConsoleSystem.step]
    split
    · simp
    · rw [ensures_ok]
      exact consolereadLoop_full killed n.toNat _ h hc
  | wake id killed =>
    simp only [ConsoleSystem.step]
    split
    · simp
    · rw [ensures_ok]
      exact consolereadLoop_full killed _ _ h hc
  | setBufferFlag f => simpa [ConsoleSystem.step, HgXv6.setBufferFlag] using hc
  | setShowAtOnce f => simpa [ConsoleSystem.step, HgXv6.setShowAtOnce] using hc

/-- Every schedule keeps a full ring committed. -/
theorem fullCommitted_run (as : List Action) {s : ConsoleSystem} {l : Line}
    (h : HoldsLine s.console.input l) (hc : FullCommitted s.console.input) :
    Ensures (s.run as) fun x => FullCommitted x.1.console.input := by
  induction as generalizing s l with
  | nil => simpa [ConsoleSystem.run] using hc
  | cons a as ih =>
    have hstep : Ensures (s.step a) fun x =>
        HoldsLine x.1.console.input (l.after x.2) ∧ FullCommitted x.1.console.input :=
      fun x hx => ⟨fifo_step a h x hx, fullCommitted_step a h hc x hx⟩
    refine Ensures.bind hstep fun x hx => ?_
    refine Ensures.bind (ih hx.1 hx.2) fun y hy => ?_
    simpa using hy

/-! ## Bytes that are not readable -/

/-- Some event accepts a byte. -/
def Accepts (evs : List Event) : Prop := ∃ b, .accept b ∈ evs

/-- From `s` to `s'` with the events `evs` the mode has not changed; a byte accepted without
buffering has left nothing pending, and without an accepted byte nothing has become pending. -/
structure Delivers (s s' : Console) (evs : List Event) : Prop where
  flag : s'.bufferFlag = s.bufferFlag
  accepted : Accepts evs → s.bufferFlag = 0 → s'.input.w = s'.input.e
  quiet : ¬Accepts evs → s.input.w = s.input.e → s'.input.w = s'.input.e

/-- What leaves flag and indices alone and accepts nothing. -/
theorem Delivers.same {s s' : Console} {evs : List Event} (hflag : s'.bufferFlag = s.bufferFlag)
    (hw : s'.input.w = s.input.w) (he : s'.input.e = s.input.e) (hno : ¬Accepts evs) :
    Delivers s s' evs where
  flag := hflag
  accepted h := absurd h hno
  quiet _ h := by rw [hw, he, h]

/-- Erasing a byte, which is not done when none is pending. -/
theorem eraseOne_delivers {s : Console} (hne : s.input.e ≠ s.input.w) :
    Ensures (eraseOne s) fun x => Delivers s x.1 x.2 := by
  refine Ensures.bind (P := fun _ => True) (fun _ _ => trivial) fun cga _ => ?_
  rw [ensures_ok]
  refine ⟨rfl, fun h => ?_, fun _ h => absurd h.symm hne⟩
  simp [Accepts] at h

/-- Killing a line accepts nothing. -/
theorem killLine_delivers (n : ℕ) (s : Console) :
    Ensures (killLine n s) fun x => Delivers s x.1 x.2 ∧ ¬Accepts x.2 := by
  have hnone : Delivers s s [] ∧ ¬Accepts [] :=
    ⟨Delivers.same rfl rfl rfl (by simp [Accepts]), by simp [Accepts]⟩
  induction n generalizing s with
  | zero => simpa [killLine] using hnone
  | succ n ih =>
    simp only [killLine]
    split_ifs with hne
    · refine Ensures.bind (P := fun x => x.1.bufferFlag = s.bufferFlag ∧ ¬Accepts x.2) ?_ ?_
      · refine Ensures.bind (P := fun _ => True) (fun _ _ => trivial) fun cga _ => ?_
        simp [Accepts]
      · intro x hx
        refine Ensures.bind (ih x.1 ?_) fun y hy => ?_
        · exact ⟨Delivers.same rfl rfl rfl (by simp [Accepts]), by simp [Accepts]⟩
        · have hno : ¬Accepts (x.2 ++ y.2) := by
            rintro ⟨b, hb⟩
            rcases List.mem_append.mp hb with hb | hb
            · exact hx.2 ⟨b, hb⟩
            · exact hy.2 ⟨b, hb⟩
          rw [ensures_ok]
          exact ⟨⟨hy.1.flag.trans hx.1, fun h => absurd h hno,
            fun _ h => absurd h.symm hne.1⟩, hno⟩
    · rw [ensures_ok]
      exact hnone

/-- Accepting a byte. -/
theorem acceptCase_delivers (c : UInt8) (s : Console) :
    Ensures (acceptCase c s) fun x => Delivers s x.1 x.2 := by
  intro x hx
  obtain ⟨-, rfl⟩ | ⟨-, cga, -, ⟨-, rfl⟩ | ⟨hnow, rfl⟩⟩ := acceptCase_cases hx
  · exact Delivers.same rfl rfl rfl (by simp [Accepts])
  · exact ⟨rfl, fun _ _ => rfl, fun _ _ => rfl⟩
  · refine ⟨rfl, fun _ hflag => absurd (.inl hflag) hnow, fun hno => ?_⟩
    exact absurd ⟨stored c, by simp⟩ hno

/-- One pass of the interrupt handler. -/
theorem consoleintrByte_delivers (c : UInt8) (s : Console) :
    Ensures (consoleintrByte c s) fun x => Delivers s x.1 x.2 := by
  have hnone : Delivers s s [] := Delivers.same rfl rfl rfl (by simp [Accepts])
  unfold consoleintrByte
  split_ifs with h1 h2 h3 h4
  · simpa using hnone
  · exact (killLine_delivers _ s).mono fun x hx => hx.1
  · exact eraseOne_delivers h4
  · simpa using hnone
  · exact acceptCase_delivers c s

/-- A reader changes neither the write nor the edit index. -/
theorem consolereadLoop_delivers (killed : Bool) (k : ℕ) (rd : Reader) (s : Console) :
    (consolereadLoop killed k rd s).2.1.bufferFlag = s.bufferFlag ∧
      (consolereadLoop killed k rd s).2.1.input.w = s.input.w ∧
      (consolereadLoop killed k rd s).2.1.input.e = s.input.e ∧
      ¬Accepts (consolereadLoop killed k rd s).2.2 := by
  induction k generalizing rd s with
  | zero => exact ⟨rfl, rfl, rfl, by simp [consolereadLoop, Accepts]⟩
  | succ k ih =>
    simp only [consolereadLoop]
    by_cases hr : s.input.r = s.input.w
    · simp [hr, Accepts]
    rw [if_neg hr]
    split_ifs with hd hn hnl
    · exact ⟨rfl, rfl, rfl, by simp [Accepts]⟩
    · exact ⟨rfl, rfl, rfl, by simp [Accepts]⟩
    · exact ⟨rfl, rfl, rfl, by simp [Accepts]⟩
    · obtain ⟨h1, h2, h3, h4⟩ := ih { rd with
        n := rd.n - 1, dst := rd.dst ++ [s.input.buf (s.input.r.toNat % INPUT_BUF)] }
        { s with input := { s.input with r := s.input.r + 1 } }
      refine ⟨h1, h2, h3, ?_⟩
      simpa [Accepts] using h4

/-! ## Schedules -/

/-- What an action other than a change of the mode does to the bytes that are not readable.

**Proof sketch.** Only an interrupt can add bytes, and what it does with them under either mode is
`consoleintrByte_delivers`. A stretch of a reader moves the read index alone, and `setShowAtOnce`
changes no index. -/
theorem delivers_step (a : Action) (s : ConsoleSystem) (ha : ∀ f, a ≠ .setBufferFlag f) :
    Ensures (s.step a) fun x => Delivers s.console x.1.console x.2 := by
  cases a with
  | intr c =>
    refine Ensures.bind (consoleintrByte_delivers c s.console) fun x hx => ?_
    simpa using hx
  | read id n killed =>
    simp only [ConsoleSystem.step]
    split
    · simp
    · rw [ensures_ok]
      obtain ⟨h1, h2, h3, h4⟩ := consolereadLoop_delivers killed n.toNat (.start n) s.console
      exact Delivers.same h1 h2 h3 h4
  | wake id killed =>
    simp only [ConsoleSystem.step]
    split
    · simp
    · rw [ensures_ok]
      obtain ⟨h1, h2, h3, h4⟩ := consolereadLoop_delivers killed _ _ s.console
      exact Delivers.same h1 h2 h3 h4
  | setBufferFlag f => exact absurd rfl (ha f)
  | setShowAtOnce f =>
    simp only [ConsoleSystem.step, ensures_ok]
    exact Delivers.same rfl rfl rfl (by simp [Accepts])

/-- A schedule with one more action. -/
theorem ConsoleSystem.run_append (s : ConsoleSystem) (as : List Action) (a : Action) :
    s.run (as ++ [a]) =
      s.run as >>= fun x => x.1.step a >>= fun y => .ok (y.1, x.2 ++ y.2) := by
  induction as generalizing s with
  | nil =>
    rcases hstep : s.step a with e | y
    · simp [run, hstep]
    · simp [run, hstep]
  | cons b as ih =>
    rcases hb : s.step b with e | y
    · simp [run, hb]
    · rw [List.cons_append, run, run, hb, ok_bind, ok_bind, ih]
      rcases has : y.1.run as with e | z
      · simp
      · rcases ha : z.1.step a with e | w
        · simp [ha]
        · simp [ha]

/-- Nothing has been accepted since the console stopped to buffer, which it did with bytes
pending: the schedule `as` from `s₀` to `s` is one up to that moment, the change of the flag, and
one since. -/
def SwitchedPending (s₀ s : ConsoleSystem) (as : List Action) : Prop :=
  ∃ before since t evs evs', as = before ++ .setBufferFlag 0 :: since ∧
    s₀.run before = .ok (t, evs) ∧ t.console.bufferFlag ≠ 0 ∧
    t.console.input.w ≠ t.console.input.e ∧
    ConsoleSystem.run { t with console := HgXv6.setBufferFlag 0 t.console } since =
      .ok (s, evs') ∧ ¬Accepts evs'

/-- One more action that accepts nothing. -/
theorem SwitchedPending.append {s₀ s u : ConsoleSystem} {as : List Action} {a : Action}
    {evs : List Event} (h : SwitchedPending s₀ s as) (ha : s.step a = .ok (u, evs))
    (hno : ¬Accepts evs) : SwitchedPending s₀ u (as ++ [a]) := by
  obtain ⟨before, since, t, evs₁, evs₂, rfl, hbefore, hflag, hne, hsince, hacc⟩ := h
  refine ⟨before, since ++ [a], t, evs₁, evs₂ ++ evs, by simp, hbefore, hflag, hne, ?_, ?_⟩
  · rw [ConsoleSystem.run_append, hsince, ok_bind, ha, ok_bind]
  · rintro ⟨b, hb⟩
    rcases List.mem_append.mp hb with hb | hb
    · exact hacc ⟨b, hb⟩
    · exact hno ⟨b, hb⟩

/-- **Delivery.** In every state that a schedule reaches from a console at rest: if the ring is
full then every byte in it is readable; and if the console does not buffer then every accepted
byte is readable, unless the console stopped to buffer with bytes pending and has accepted none
since.

**Proof sketch.** By induction on the schedule. The last action either changes the mode, and then
the bytes that were pending are the exception, or it delivers what it accepts. -/
theorem delivered_run (i : UInt32) (buf : ℕ → UInt8) (cga : Cga) (as : List Action)
    (s : ConsoleSystem) (evs : List Event)
    (hrun : (ConsoleSystem.start i buf cga).run as = .ok (s, evs)) :
    (s.console.input.e = s.console.input.r + 128 → s.console.input.w = s.console.input.e) ∧
      (s.console.bufferFlag = 0 → s.console.input.w = s.console.input.e ∨
        SwitchedPending (ConsoleSystem.start i buf cga) s as) := by
  refine ⟨fullCommitted_run as (holdsLine_start i buf cga) (fun _ => rfl) _ hrun, ?_⟩
  induction as using List.reverseRecOn generalizing s evs with
  | nil =>
    cases hrun
    exact fun _ => .inl rfl
  | append_singleton as a ih =>
    rw [ConsoleSystem.run_append] at hrun
    obtain ⟨⟨t, evs₁⟩, hrun₁, hrun⟩ := bind_eq_ok.mp hrun
    obtain ⟨⟨u, evs₂⟩, hstep, hrun⟩ := bind_eq_ok.mp hrun
    cases hrun
    have hpend := ih t evs₁ hrun₁
    intro hflag
    by_cases ha : ∃ f, a = .setBufferFlag f
    · -- the mode changes: what is pending stays so
      obtain ⟨f, rfl⟩ := ha
      have hs := hstep
      cases hs
      obtain rfl : f = 0 := hflag
      by_cases hw : t.console.input.w = t.console.input.e
      · exact .inl hw
      by_cases ht : t.console.bufferFlag = 0
      · rcases hpend ht with hw' | hsw
        · exact absurd hw' hw
        · exact .inr (hsw.append hstep (by simp [Accepts]))
      · exact .inr ⟨as, [], t, evs₁, [], rfl, hrun₁, ht, hw, rfl, by simp [Accepts]⟩
    · have hd := delivers_step a t (fun f hf => ha ⟨f, hf⟩) _ hstep
      have ht : t.console.bufferFlag = 0 := hd.flag.symm.trans hflag
      by_cases hacc : Accepts evs₂
      · exact .inl (hd.accepted hacc ht)
      rcases hpend ht with hw | hsw
      · exact .inl (hd.quiet hacc hw)
      · exact .inr (hsw.append hstep hacc)

/-- The console stops to buffer with a byte pending, and delivers it with the next one. -/
theorem delivered_run_switch :
    ∃ s evs, (ConsoleSystem.start 7 (fun _ => 0) clearedScreen).run
        [.setShowAtOnce 0, .intr 97, .setBufferFlag 0, .intr 98] = .ok (s, evs) ∧
      (s.console.bufferFlag = 0 → s.console.input.w = s.console.input.e ∨
        SwitchedPending (ConsoleSystem.start 7 (fun _ => 0) clearedScreen) s
          [.setShowAtOnce 0, .intr 97, .setBufferFlag 0, .intr 98]) :=
  ⟨_, _, rfl, (delivered_run 7 (fun _ => 0) clearedScreen
    [.setShowAtOnce 0, .intr 97, .setBufferFlag 0, .intr 98] _ _ rfl).2⟩

/-- A byte typed before the console stops to buffer is not readable afterwards. -/
theorem not_forall_delivered :
    ¬∀ (i : UInt32) (buf : ℕ → UInt8) (cga : Cga) (as : List Action) (s : ConsoleSystem)
      (evs : List Event), (ConsoleSystem.start i buf cga).run as = .ok (s, evs) →
        s.console.bufferFlag = 0 → s.console.input.w = s.console.input.e := by
  intro h
  have hw := h 7 (fun _ => 0) clearedScreen [.setShowAtOnce 0, .intr 97, .setBufferFlag 0] _ _ rfl
    rfl
  exact absurd hw (by decide)

end HgXv6
