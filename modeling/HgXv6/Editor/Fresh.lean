import HgXv6.Editor.Run

set_option relaxedAutoImplicit false
set_option autoImplicit false

/-!
# When the screen is up to date

After a command the text rows should be those a full redraw would give. `synchronize` redraws
only if the window has moved, so a command that changes the visible text has to redraw it
itself. The commands `~ J D > <` do not; and the report of Ctrl-G, printed in the last row, pushes
the text rows up if it is too long for one row. All other commands keep the screen up to date.

## Main definitions

* `HgXv6.Fresh` — the text rows are those a redraw would give.
* `HgXv6.SameDrawing` — two texts that look the same in the text rows.
* `HgXv6.Updates` — the states in which a command keeps the screen up to date.

## Main results

* `HgXv6.fresh_iff` — up to date means showing the text from the window on.
* `HgXv6.Effect.shown` — what every kind of step does to the screen.
* `HgXv6.fresh_run` — the screen stays up to date in every run of such commands.
-/

namespace HgXv6

open Prog

variable {W : Type} {sys : Sys W}

/-! ## The screen and the text -/

/-- The text rows are those that a redraw would give. -/
def Fresh (s : Vi W) : Prop :=
  ∃ t, Returns (fun fuel => redraw fuel s) t ∧ SameRows s.cga t.cga

/-- Where the window shows the cursor, the screen is up to date exactly if it shows the text from
the window on.

**Proof sketch.** A redraw adjusts the window, which finds nothing to do where the cursor is in it,
and then draws the text from there on a cleared screen. So its text rows are those of any screen
that shows the text, and what is drawn on a cleared screen does not depend on what was there
(`copyFromTextToScreen_clear`). -/
theorem fresh_iff {s : Vi W} (hs : Settled s) : Fresh s ↔ Shows s.mem s.screenbegin s.cga := by
  constructor
  · rintro ⟨t, ht, hrows⟩
    obtain ⟨fuel, ht⟩ := ht.exists
    obtain ⟨b, c, rfl, hb, hshows⟩ := redraw_ensures fuel s t ht
    obtain rfl := hb.stay hs.le hs.lt
    exact hshows.rows hrows
  · rintro ⟨n, c₀, c₁, hlen, hnul, hdraw, hrows⟩
    obtain ⟨c₂, hc₂, hsame⟩ := copyFromTextToScreen_clear s.cga hdraw
    refine ⟨{ s with cga := c₂ }, ?_, hrows.trans hsame.rows⟩
    refine Returns.bind (modifyScreenBegin_of_fits (s := { s with cga := clearScreen s.cga })
      hs.le hs.lt) ?_
    refine Returns.bind (strlen_returns hlen hnul) ?_
    exact Returns.of_eq (draw_eq hc₂)

/-- Drawn from `b` on, on a cleared screen, the text gives the screen `c`. -/
def Draws (m : ℤ → UInt8) (b : ℤ) (c : Cga) : Prop :=
  ∃ n : ℕ, (∀ k : ℕ, k < n → m (b + k) ≠ NUL) ∧ m (b + n) = NUL ∧
    copyFromTextToScreen m b 0 n clearedScreen = .ok c

/-- From `b` on the two texts look the same: drawn on a cleared screen they have the same
characters in the text rows. What is drawn in the last row may differ. -/
def SameDrawing (m m' : ℤ → UInt8) (b : ℤ) : Prop :=
  ∃ c c', Draws m b c ∧ Draws m' b c' ∧ SameRows c c'

/-- The first NUL is in one place. -/
theorem strlen_unique {m : ℤ → UInt8} {b : ℤ} {n n' : ℕ}
    (h1 : ∀ k : ℕ, k < n → m (b + k) ≠ NUL) (h2 : m (b + n) = NUL)
    (h1' : ∀ k : ℕ, k < n' → m (b + k) ≠ NUL) (h2' : m (b + n') = NUL) : n = n' := by
  rcases lt_trichotomy n n' with h | h | h
  · exact absurd h2 (h1' n h)
  · exact h
  · exact absurd h2' (h1 n' h)

/-- A screen that shows a text has the text rows that are drawn of it. -/
theorem Shows.sameRows {m : ℤ → UInt8} {b : ℤ} {c d : Cga} (h : Shows m b c) (hd : Draws m b d) :
    SameRows c d := by
  obtain ⟨n, c₀, c₁, hlen, hnul, hdraw, hrows⟩ := h
  obtain ⟨n', hlen', hnul', hdraw'⟩ := hd
  obtain rfl := strlen_unique hlen hnul hlen' hnul'
  obtain ⟨d', hd', hsame⟩ := copyFromTextToScreen_clear { crt := fun _ => ⟨0, 0⟩, pos := 0 } hdraw
  obtain rfl : d = d' := Except.ok.inj (hdraw'.symm.trans hd')
  exact hrows.trans hsame.rows

/-- A screen that shows a text shows every text that looks the same. -/
theorem Shows.sameDrawing {m m' : ℤ → UInt8} {b : ℤ} {c : Cga} (h : Shows m b c)
    (hm : SameDrawing m m' b) : Shows m' b c := by
  obtain ⟨d, d', hd, ⟨n', hlen', hnul', hdraw'⟩, hrows⟩ := hm
  exact ⟨n', _, d', hlen', hnul', hdraw', (h.sameRows hd).trans hrows⟩

/-! ## What a synchronisation needs -/

/-- The screen shows the text from the window it was last synchronised for. -/
def InSync (s : Vi W) : Prop := ∀ p, s.synScreenbegin = some p → Shows s.mem p s.cga

/-- The screen shows the text from the window, and the window shows the cursor. -/
structure Redrawn (s : Vi W) : Prop where
  shows : Shows s.mem s.screenbegin s.cga
  le : s.screenbegin ≤ s.dot
  lt : cells s.mem s.screenbegin s.dot < rows * columns

/-- A synchronisation from `s` on that does not redraw leaves a screen that is up to date. -/
def Ready (s : Vi W) : Prop :=
  ∀ b, Adjusted s.mem s.dot s.screenbegin b → s.synScreenbegin = some b → Shows s.mem b s.cga

theorem InSync.ready {s : Vi W} (h : InSync s) : Ready s := fun b _ hb => h b hb

theorem Redrawn.ready {s : Vi W} (h : Redrawn s) : Ready s := by
  intro b hb _
  obtain rfl := hb.stay h.le h.lt
  exact h.shows

/-- After a synchronisation the screen shows the text from the window on. -/
theorem Ready.synchronize {s t : Vi W} {fuel : ℕ} (h : Ready s)
    (ht : HgXv6.synchronize fuel s = .ok t) : Redrawn t ∧ InSync t := by
  obtain ⟨b, c, rfl, hb, -, hc⟩ := synchronize_ensures fuel s t ht
  have hshows : Shows s.mem b c := by
    rcases hc with hc | ⟨hsyn, hrows⟩
    · exact hc
    · exact (h b hb hsyn).rows hrows
  refine ⟨⟨hshows, hb.le, hb.lt⟩, ?_⟩
  rintro p ⟨⟩
  exact hshows

/-- A redraw shows the text from the window on. -/
theorem redraw_redrawn {s t : Vi W} {fuel : ℕ} (h : redraw fuel s = .ok t) : Redrawn t := by
  obtain ⟨b, c, rfl, hb, hshows⟩ := redraw_ensures fuel s t h
  exact ⟨hshows, hb.le, hb.lt⟩

/-- After a redraw and a synchronisation the screen is in step with the window. -/
theorem redraw_synchronize_inSync {s t : Vi W} {fuel : ℕ}
    (h : (redraw fuel s >>= synchronize fuel) = .ok t) : InSync t := by
  obtain ⟨u, hu, ht⟩ := bind_eq_ok.mp h
  exact ((redraw_redrawn hu).ready.synchronize ht).2

/-! ## Steps -/

/-- What holds of the screen while a command is executed: it is in step with the window of the
last synchronisation, or, for a command that replaces characters and does not move, it has just
been redrawn. -/
def Shown (m : May) (s : Vi W) : Prop := InSync s ∨ (¬m.move ∧ ¬m.search ∧ Redrawn s)

theorem Shown.ready {m : May} {s : Vi W} (h : Shown m s) : Ready s := by
  rcases h with h | ⟨-, -, h⟩
  · exact h.ready
  · exact h.ready

/-- A change of nothing that is drawn, and of the last row. -/
theorem Shown.rows {m : May} {s t : Vi W} (h : Shown m s) (hmem : t.mem = s.mem)
    (hdot : t.dot = s.dot) (hsb : t.screenbegin = s.screenbegin)
    (hsyn : t.synScreenbegin = s.synScreenbegin) (hc : SameRows t.cga s.cga) : Shown m t := by
  rcases h with h | ⟨h1, h2, h⟩
  · refine .inl fun p hp => ?_
    rw [hmem]
    exact (h p (hsyn ▸ hp)).rows hc
  · refine .inr ⟨h1, h2, ?_, ?_, ?_⟩
    · rw [hmem, hsb]
      exact h.shows.rows hc
    · rw [hsb, hdot]
      exact h.le
    · rw [hmem, hsb, hdot]
      exact h.lt

/-- Every step keeps the screen in step with the text, for the commands that draw within the last
row, and do not move when they replace.

**Proof sketch.** One case for each kind of step. A move, a search or a change of a flag leaves
screen and text alone. What is drawn in the last row leaves the text rows. A character that is typed
and a line that is opened are followed by a redraw and a synchronisation, after which the screen is
in step with the window. A character that replaces another is followed by a redraw only, and then
`Shown` holds by its second case, as these commands do not move. -/
theorem Effect.shown {m : May} (hspill : ¬m.spill)
    (hover : ∀ c, m.overtype c → ¬m.move ∧ ¬m.search) {s t : Vi W} (h : Effect m s t)
    (hs : Shown m s) : Shown m t := by
  cases h with
  | move hm h =>
    obtain ⟨d, b, rfl, -⟩ := h
    rcases hs with hs | ⟨hm', -⟩
    · exact .inl hs
    · exact absurd hm hm'
  | lastRow h => exact hs.rows rfl rfl rfl rfl h
  | spill h => exact absurd h hspill
  | redraw hset h =>
    have hr := redraw_redrawn h
    rcases hs with hs | ⟨h1, h2, -⟩
    · left
      obtain ⟨b, c, rfl, hb, hshows⟩ := redraw_ensures _ s t h
      obtain rfl := hb.stay hset.le hset.lt
      intro p hp
      rcases hset.syn with hsyn | hsyn
      · exact absurd (hsyn.symm.trans hp) nofun
      · obtain rfl := Option.some.inj (hsyn.symm.trans hp)
        exact hshows
    · exact .inr ⟨h1, h2, hr⟩
  | synchronize h => exact .inl (hs.ready.synchronize h).2
  | findChar => exact hs.rows rfl rfl rfl rfl (SameRows.refl _)
  | pattern h => exact hs.rows rfl rfl rfl rfl (SameRows.refl _)
  | jump h hp =>
    rcases hs with hs | ⟨-, hm', -⟩
    · exact .inl hs
    · exact absurd h hm'
  | change => exact hs.rows rfl rfl rfl rfl (SameRows.refl _)
  | typed _ _ h => exact .inl (redraw_synchronize_inSync h)
  | overtyped hm _ h => exact .inr ⟨(hover _ hm).1, (hover _ hm).2, redraw_redrawn h⟩
  | opened hl h =>
    have hsync := redraw_synchronize_inSync h
    exact .inl hsync
  | file _ h => exact hs.rows rfl rfl rfl rfl (SameRows.refl _)

/-- The commands that replace characters neither move nor search. -/
theorem may_overtype {cmd : Cmd} {ks : List Read} {s : Vi W} (c : UInt8)
    (h : (may cmd ks s).overtype c) : ¬(may cmd ks s).move ∧ ¬(may cmd ks s).search := by
  cases cmd with
  | replace => exact ⟨fun h => h.1 rfl, fun h => h⟩
  | replaceMode => exact ⟨fun h => h.2 rfl, fun h => h⟩
  | _ => exact h.elim

/-! ## Commands -/

/-- The states in which a command keeps the screen up to date: if it edits at the cursor and
leaves it at that, the screen has not been synchronised yet, or the edit changes nothing that is
drawn in the text rows, or it moves the cursor out of the window; and if it is Ctrl-G, its report
fits in the last row. The edit `f` of the command is a function of the state before, which neither
looks at the screen nor moves the window. -/
structure Updates (cmd : Cmd) (s : Vi W) : Prop where
  edit : ∀ f, cmd.edit = some f → s.synScreenbegin = none ∨
    SameDrawing s.mem (f s).mem s.screenbegin ∨
    rows * columns ≤ cells (f s).mem s.screenbegin (f s).dot
  report : cmd = .status → RowFits (statusReport s) (24 * 80)

/-- The edits at the cursor neither look at the screen and the record nor change them, and leave
the window alone. -/
theorem Cmd.edit_screen {cmd : Cmd} {f : Vi W → Vi W} (h : cmd.edit = some f) (s : Vi W)
    (c : Cga) (tr : List Act) :
    f { s with cga := c, trace := tr } = { f s with
      screenbegin := s.screenbegin
      synScreenbegin := s.synScreenbegin
      cga := c
      trace := tr } := by
  cases cmd with
  | toggle =>
    cases h
    by_cases hd : s.dot < s.endp - 1
    · simp only [toggleCase, store, dotIncrease, hd, if_true]
    · simp only [toggleCase, store, dotIncrease, hd, if_false]
  | join => cases h; rfl
  | deleteTail =>
    cases h
    simp only [HgXv6.deleteTail]
    split_ifs <;> rfl
  | indent =>
    cases h
    by_cases hfull : s.endp + (1 : ℕ) > s.textend
    · simp only [HgXv6.indent, store, makeHoleAdd, hfull, if_true]
    · simp only [HgXv6.indent, store, makeHoleAdd, hfull, if_false]
  | unindent =>
    cases h
    simp only [HgXv6.unindent]
    split_ifs <;> rfl
  | _ => cases h

/-- A command that keeps the screen up to date leaves the synchronisation after it nothing else
to do. -/
theorem execCmd_ready (sys : Sys W) (fuel : ℕ) {cmd : Cmd} {ks : List Read} {s : Vi W}
    (hp : Paused s) (hs : Shows s.mem s.screenbegin s.cga) (hup : Updates cmd s) :
    Ensures (execCmd sys fuel cmd ks s) fun r => Ready r.2 := by
  have hsync : InSync s := by
    intro p hp'
    rcases hp.settled.syn with h | h
    · exact absurd (h.symm.trans hp') nofun
    · obtain rfl := Option.some.inj (h.symm.trans hp')
      exact hs
  intro r hr
  rcases execCmd_cases sys fuel cmd ks hp r hr with hpath | ⟨f, hf, rfl⟩ | ⟨rfl, -, hx⟩
  · have hspill : ¬(may cmd ks s).spill := fun h => h.2 (hup.report h.1)
    have hshown : Shown (may cmd ks s) r.2 := hpath.preserves
      (fun _ _ heff ht => heff.shown hspill may_overtype ht)
      (fun _ _ _ ht => ht.rows rfl rfl rfl rfl (SameRows.refl _)) (.inl hsync)
    exact hshown.ready
  · have hscreen := Cmd.edit_screen hf s s.cga s.trace
    intro b hb hsyn
    dsimp only at hb hsyn ⊢
    rw [hscreen] at hb hsyn ⊢
    rcases hp.settled.syn with h | h
    · exact absurd (h.symm.trans hsyn) nofun
    · obtain rfl := Option.some.inj (h.symm.trans hsyn)
      rcases hup.edit f hf with hnone | hsame | hmany
      · exact absurd (hnone.symm.trans hsyn) nofun
      · exact hs.sameDrawing hsame
      · exact absurd hb.lt (not_lt.mpr hmany)
  · exact (redraw_redrawn hx).ready

/-! ## Runs -/

/-- The next command keeps the screen up to date. -/
def Config.Updates (x : Config W) : Prop :=
  ∀ r ks, x.keys = r :: ks → HgXv6.Updates (keyCmd (r.into x.c)) x.vi

/-- A pass with such a command keeps the screen up to date. -/
theorem step_fresh {x y : Config W} (h : Step sys x y) (hup : x.Updates) (hp : Paused x.vi)
    (hx : Fresh x.vi) : Fresh y.vi := by
  obtain ⟨fuel, r, ks, u, v, hpass⟩ := step_cases h
  obtain ⟨c, hu, hrows⟩ := hpass.start
  have hu1 : Shows u.mem u.screenbegin u.cga := by
    rw [hu]
    exact ((fresh_iff hp.settled).mp hx).rows hrows
  have hu2 : Updates (keyCmd (r.into x.c)) u := by
    have hx := hup r ks hpass.keys
    rw [hu]
    refine ⟨fun f hf => ?_, hx.report⟩
    have hscreen := Cmd.edit_screen hf x.vi c (x.vi.act (.exec (r.into x.c))).trace
    have hmem := congrArg Vi.mem hscreen
    have hdot := congrArg Vi.dot hscreen
    exact hmem ▸ hdot ▸ hx.edit f hf
  have hready := execCmd_ready sys fuel (hpass.paused hp) hu1 hu2 _ hpass.exec
  exact (fresh_iff (synchronize_settled hpass.sync)).mpr (hready.synchronize hpass.sync).1.shows

/-- When the main loop is entered the screen is up to date. -/
theorem Opens.fresh {fn : List UInt8} {s : Vi W} (h : Opens sys fn s) : Fresh s := by
  refine (fresh_iff h.paused.settled).mpr ?_
  obtain ⟨_, _, _, _, _, -, _, _, rfl, -, hshows, -⟩ := h.cases
  exact hshows

/-- When the main loop is entered the screen is up to date; and from any state of a run in which it
is, it stays so as long as the commands are such that keep it so.

**Proof sketch.** The last thing before the main loop is a drawing of the whole screen
(`Opens.fresh`). A step of such a command draws again what it has changed, or has changed nothing
that is seen (`step_fresh`), so that the screen stays up to date along the run. -/
theorem fresh_run {fn : List UInt8} {s : Vi W} (hs : Opens sys fn s) :
    Fresh s ∧ ∀ ks x y, Run sys ⟨none, ks, s⟩ x → Fresh x.vi →
      RunIf sys Config.Updates x y → Fresh y.vi := by
  refine ⟨hs.fresh, fun ks x y hx hfresh h => ?_⟩
  have hpaused := run_paused hs hx
  exact (RunIf.preserves (P := fun y => Fresh y.vi ∧ Paused y.vi) h
    (fun x y hstep hup hx => ⟨step_fresh hstep hup hx.2 hx.1, step_paused hstep hx.2⟩)
    ⟨hfresh, hpaused⟩).1

/-- `fresh_run` for `x` on a file of two characters. -/
theorem fresh_run_delete : ∃ s y, Opens (readOnly (str "ab")) (str "f") s ∧
    RunIf (readOnly (str "ab")) Config.Updates ⟨none, [.byte (chr 'x')], s⟩ y ∧
    y.vi.endp = 1 ∧ Fresh y.vi := by
  obtain ⟨s, y, hs, hy, hf⟩ := session_run (readOnly (str "ab")) 20 1 (str "f")
    [.byte (chr 'x')] ()
    (P := fun s y => s.editing = true ∧ y.vi.endp = 1) (by decide +kernel)
  have hup : Config.Updates ⟨none, [.byte (chr 'x')], s⟩ := by
    rintro r ks ⟨⟩
    exact ⟨nofun, fun h => absurd (show keyCmd (chr 'x') = .status from h) (by decide)⟩
  have hrun : RunIf (readOnly (str "ab")) Config.Updates ⟨none, [.byte (chr 'x')], s⟩ y :=
    .single ⟨mainRun_step hf.1 hy, hup⟩
  obtain ⟨hfresh, hall⟩ := fresh_run hs
  exact ⟨s, y, hs, hrun, hf.2, hall _ _ _ .refl hfresh hrun⟩

/-- The screen shows a text of one character where it was drawn with another. -/
theorem not_fresh_of_cell {s : Vi W} (hs : Settled s) (h0 : s.screenbegin = 0)
    (h1 : s.mem 0 ≠ NUL) (h2 : s.mem 1 = NUL) {b : UInt8}
    (hdraw : (copyFromTextToScreen s.mem 0 0 1 clearedScreen).map (fun c => (c.crt 0).ch) = .ok b)
    (hcell : (s.cga.crt 0).ch ≠ b) : ¬Fresh s := by
  intro hfresh
  have hshows := (fresh_iff hs).mp hfresh
  rw [h0] at hshows
  cases hcopy : copyFromTextToScreen s.mem 0 0 1 clearedScreen with
  | error e =>
    rw [hcopy] at hdraw
    cases hdraw
  | ok d =>
    rw [hcopy] at hdraw
    have hd : Draws s.mem 0 d := by
      refine ⟨1, fun k hk => ?_, by simpa using h2, hcopy⟩
      obtain rfl : k = 0 := by omega
      simpa using h1
    exact hcell ((hshows.sameRows hd 0 (by decide)).trans (Except.ok.inj hdraw))

/-- On a file with the letter `a`, after a first key that does nothing, the command `~` leaves `a`
on the screen and `A` in the text. -/
theorem not_forall_fresh : ¬∀ (fn content : List UInt8) (s : Vi Unit) (ks : List Read)
    (x y : Config Unit), Opens (readOnly content) fn s →
    Run (readOnly content) ⟨none, ks, s⟩ x → Fresh x.vi → Step (readOnly content) x y →
    Fresh y.vi := by
  intro hall
  obtain ⟨s, y, hs, hy, hf⟩ := session_run (readOnly (str "a")) 20 2 (str "f")
    [.byte (chr 'h'), .byte (chr '~')] ()
    (P := fun _ y => y.vi.screenbegin = 0 ∧ y.vi.mem 0 = chr 'A' ∧ y.vi.mem 1 = NUL ∧
      (copyFromTextToScreen y.vi.mem 0 0 1 clearedScreen).map (fun c => (c.crt 0).ch) =
        .ok (chr 'A') ∧ (y.vi.cga.crt 0).ch = chr 'a')
    (by decide +kernel)
  obtain ⟨hsb, hm0, hm1, hdraw, hcell⟩ := hf
  have hrun := mainRun_run hy
  -- if every pass kept the screen up to date, it would be so at the end of this run
  have hfresh : Fresh y.vi ∧ Run (readOnly (str "a")) _ y := hrun.preserves
    (P := fun z => Fresh z.vi ∧ Run (readOnly (str "a")) _ z)
    (fun z z' hstep hz => ⟨hall _ _ s _ z z' hs hz.2 hz.1 hstep, hz.2.tail hstep⟩)
    ⟨hs.fresh, .refl⟩
  refine not_fresh_of_cell (run_paused hs hrun).settled hsb ?_ hm1 hdraw ?_ hfresh.1
  · rw [hm0]
    decide
  · rw [hcell]
    decide

end HgXv6
