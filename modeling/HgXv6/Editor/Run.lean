import HgXv6.Editor.Effect

set_option relaxedAutoImplicit false
set_option autoImplicit false

/-!
# Runs of the editor

What one pass of the main loop does, and how a property of the editor is carried through a run:
through all runs, or through those whose passes all meet a condition on the key and the state at
their beginning.

A run on given keys is computed by `mainRun`, and by `session` from the opening of the file on.

## Main definitions

* `HgXv6.RunIf` — the runs whose passes meet a condition.
* `HgXv6.mainRun`, `HgXv6.session` — a number of passes, computed.
* `HgXv6.Opens` — the state in which `edit_file` enters its main loop.
* `HgXv6.Paused` — what holds between two passes whatever the commands.

## Main results

* `HgXv6.step_cases` — a pass of the main loop, taken apart.
* `HgXv6.RunIf.preserves` — a property that is preserved by one pass holds throughout a run.
* `HgXv6.run_paused` — what holds between two passes in every run.
-/

namespace HgXv6

open Prog

variable {W : Type} {sys : Sys W} {x y : Config W}

/-! ## One pass -/

/-- What a pass does: it reads a key, clears the status line, executes the command from the
state `u`, and synchronises the state `v` it leaves. -/
structure Pass (sys : Sys W) (x y : Config W) (fuel : ℕ) (r : Read) (ks : List Read)
    (u v : Vi W) : Prop where
  editing : x.vi.editing = true
  keys : x.keys = r :: ks
  start : ∃ c, u = { x.vi.act (.exec (r.into x.c)) with cga := c } ∧ SameRows c x.vi.cga
  exec : execCmd sys fuel (keyCmd (r.into x.c)) ks u = .ok (y.keys, v)
  sync : synchronize fuel v = .ok y.vi
  last : y.c = some (r.into x.c)

/-- A pass of the main loop, taken apart. -/
theorem step_cases (h : Step sys x y) : ∃ fuel r ks u v, Pass sys x y fuel r ks u v := by
  obtain ⟨hed, fuel, c, hiter, hc⟩ := h
  rcases hkeys : x.keys with _ | ⟨r, ks⟩
  · rw [hkeys] at hiter
    cases hiter
  · rw [hkeys] at hiter
    obtain ⟨u, hu, hiter⟩ := bind_eq_ok.mp hiter
    obtain ⟨⟨ks', v⟩, hv, hiter⟩ := bind_eq_ok.mp hiter
    obtain ⟨t, ht, hiter⟩ := bind_eq_ok.mp hiter
    simp only [Except.ok.injEq, Prod.mk.injEq] at hiter
    obtain ⟨rfl, rfl, rfl⟩ := hiter
    obtain ⟨d, hd, hrows⟩ := printOnStatusLine_ensures (str "--COMMAND--") _ (by decide) u hu
    exact ⟨fuel, r, ks, u, v, hed, hkeys, ⟨d, hd, hrows⟩, hv, ht, hc⟩

/-! ## Runs -/

/-- A run whose passes all meet the condition `C`. -/
abbrev RunIf (sys : Sys W) (C : Config W → Prop) : Config W → Config W → Prop :=
  Relation.ReflTransGen fun x y => Step sys x y ∧ C x

/-- What a pass that meets the condition preserves holds throughout such a run. -/
theorem RunIf.preserves {C P : Config W → Prop} (h : RunIf sys C x y)
    (hstep : ∀ x y, Step sys x y → C x → P x → P y) (hx : P x) : P y := by
  induction h with
  | refl => exact hx
  | tail _ hpass ih => exact hstep _ _ hpass.1 hpass.2 ih

/-- What a pass preserves holds throughout a run. -/
theorem Run.preserves {P : Config W → Prop} (h : Run sys x y)
    (hstep : ∀ x y, Step sys x y → P x → P y) (hx : P x) : P y := by
  induction h with
  | refl => exact hx
  | tail _ hpass ih => exact hstep _ _ hpass ih

/-- `edit_file` has opened the file `fn` and enters its main loop in the state `s`. -/
def Opens (sys : Sys W) (fn : List UInt8) (s : Vi W) : Prop :=
  ∃ fuel m cga w, editFile sys fuel m fn cga w = .ok (some s)

/-- The drawing before the main loop. -/
theorem firstDraw_ensures (fuel : ℕ) (o : Vi W) :
    Ensures (redraw fuel o >>= fun s => s.draw (setCursorPos 0 0) >>= fun s =>
      (.ok (some s) : Except Stop (Option (Vi W)))) fun r => ∃ b c,
      r = some { o with screenbegin := b, cga := c } ∧ Adjusted o.mem o.dot o.screenbegin b ∧
      Shows o.mem b c ∧ c.pos = 0 := by
  refine Ensures.bind (redraw_ensures fuel o) ?_
  rintro _ ⟨b, c, rfl, hb, hshows⟩
  refine Ensures.bind (draw_ensures _ _) ?_
  rintro _ ⟨d, hd, rfl⟩
  have hrows : SameRows d c := fun i _ => setCursorPos_ch hd i
  exact (ensures_ok _ _).mpr ⟨b, d, rfl, hb, hshows.rows hrows, (setCursorPos_pos hd).2⟩

/-- The state `edit_file` has set up, from what it saw of the file. -/
theorem editFile_cases {fuel : ℕ} {m : ℤ → UInt8} {fn : List UInt8} {cga : Cga} {w : W}
    {s : Vi W} (h : editFile sys fuel m fn cga w = .ok (some s)) :
    ∃ cnt content, sys.stat w fn = some cnt ∧ sys.load w fn cnt = some content ∧ ∃ b c,
      s = { opened m fn cnt (content.take cnt) cga w with screenbegin := b, cga := c } ∧
      Adjusted (opened m fn cnt (content.take cnt) cga w).mem 0 0 b ∧
      Shows (opened m fn cnt (content.take cnt) cga w).mem b c ∧ c.pos = 0 := by
  simp only [editFile] at h
  split at h
  · cases h
  · rename_i cnt hstat
    split at h
    · cases h
    · rename_i content hload
      obtain ⟨b, c, hs, h1, h2, h3⟩ := firstDraw_ensures fuel _ _ h
      exact ⟨cnt, content, hstat, hload, b, c, Option.some.inj hs, h1, h2, h3⟩

/-- The state in which the main loop is entered. -/
theorem Opens.cases {fn : List UInt8} {s : Vi W} (h : Opens sys fn s) :
    ∃ m cga w cnt content, content.length ≤ cnt ∧ ∃ b c,
      s = { opened m fn cnt content cga w with screenbegin := b, cga := c } ∧
      Adjusted (opened m fn cnt content cga w).mem 0 0 b ∧
      Shows (opened m fn cnt content cga w).mem b c ∧ c.pos = 0 := by
  obtain ⟨fuel, m, cga, w, h⟩ := h
  obtain ⟨cnt, content, -, -, hs⟩ := editFile_cases h
  exact ⟨m, cga, w, cnt, content.take cnt, List.length_take_le _ _, hs⟩

/-! ## Between two passes -/

/-- What holds between two passes, whatever the commands: the window is settled, and the
remembered pattern fits its array. -/
structure Paused (s : Vi W) : Prop where
  settled : Settled s
  pattern : ShortPattern s.lastFindString

/-- An edit leaves the remembered pattern alone. -/
theorem Edited.lastFindString {s t : Vi W} (h : Edited s t) :
    t.lastFindString = s.lastFindString := by
  obtain ⟨_, _, _, _, _, _, _, rfl⟩ := h
  rfl

/-- A step leaves a pattern that fits its array. -/
theorem Effect.shortPattern {m : May} {s t : Vi W} (h : Effect m s t)
    (hs : ShortPattern s.lastFindString) : ShortPattern t.lastFindString := by
  rcases h.frame with h | ⟨_, rfl⟩ | ⟨_, hpat, rfl⟩ | ⟨-, _, _, _, _, rfl⟩
  · rw [h.lastFindString]
    exact hs
  · exact hs
  · exact hpat
  · exact hs

/-- Deleting the character under the cursor, and the redraw after it. -/
theorem dotDelete_ensures (fuel : ℕ) (s : Vi W) : Ensures (dotDelete fuel s) fun t => ∃ b c,
    t = { makeHoleDelete s.dot s.dot s with screenbegin := b, cga := c } ∧
    Adjusted (makeHoleDelete s.dot s.dot s).mem s.dot s.screenbegin b ∧
    Shows (makeHoleDelete s.dot s.dot s).mem b c := redraw_ensures fuel _

/-- The three kinds of commands: a sequence of steps, an edit, or `x`. -/
theorem execCmd_cases (sys : Sys W) (fuel : ℕ) (cmd : Cmd) (ks : List Read) {s : Vi W}
    (hs : Paused s) : Ensures (execCmd sys fuel cmd ks s) fun r =>
      Path (may cmd ks s) (ks, s) r ∨ (∃ f, cmd.edit = some f ∧ r = (ks, f s)) ∨
      (cmd = .deleteChar ∧ r.1 = ks ∧
        dotDelete fuel { s with hasChanged := true } = .ok r.2) := by
  intro r hr
  rcases hf : cmd.edit (W := W) with _ | f
  · by_cases hx : cmd = .deleteChar
    · subst hx
      obtain ⟨t, ht, h⟩ := bind_eq_ok.mp hr
      cases h
      exact .inr (.inr ⟨rfl, rfl, ht⟩)
    · exact .inl (execCmd_path sys fuel ks hs.pattern hs.settled hf hx r hr)
  · rw [execCmd_edit hf] at hr
    cases hr
    exact .inr (.inl ⟨f, rfl, rfl⟩)

/-- Clearing the status line does not disturb what holds between two passes. -/
theorem Pass.paused {fuel : ℕ} {r : Read} {ks : List Read} {u v : Vi W}
    (hp : Pass sys x y fuel r ks u v) (hx : Paused x.vi) : Paused u := by
  obtain ⟨c, rfl, -⟩ := hp.start
  exact ⟨⟨hx.settled.le, hx.settled.lt, hx.settled.syn⟩, hx.pattern⟩

/-- What holds between two passes holds after the next one. -/
theorem step_paused (h : Step sys x y) (hx : Paused x.vi) : Paused y.vi := by
  obtain ⟨fuel, r, ks, u, v, hp⟩ := step_cases h
  refine ⟨synchronize_settled hp.sync, ?_⟩
  have hu := hp.paused hx
  rw [(synchronize_viewed hp.sync).edited.lastFindString]
  rcases execCmd_cases sys fuel _ ks hu _ hp.exec with h | ⟨f, hf, h⟩ | ⟨-, -, h⟩
  · exact h.preserves (fun s t h => h.shortPattern) (fun _ _ _ hs => hs) hu.pattern
  · obtain ⟨-, rfl⟩ := Prod.mk.inj h
    rw [(Cmd.edit_edited hf _).lastFindString]
    exact hu.pattern
  · obtain ⟨_, _, rfl, -⟩ := dotDelete_ensures fuel _ v h
    exact hu.pattern

/-- It holds when the main loop is entered. -/
theorem Opens.paused {fn : List UInt8} {s : Vi W} (h : Opens sys fn s) : Paused s := by
  obtain ⟨_, _, _, _, _, -, _, _, rfl, hb, -⟩ := h.cases
  exact ⟨⟨hb.le, hb.lt, .inl rfl⟩, Nat.zero_le _, fun c hc => absurd hc List.not_mem_nil⟩

/-- It holds throughout every run from an opened file. -/
theorem run_paused {fn : List UInt8} {s : Vi W} {c : Option UInt8} {ks : List Read}
    (hs : Opens sys fn s) (h : Run sys ⟨c, ks, s⟩ y) : Paused y.vi :=
  Run.preserves (P := fun y => Paused y.vi) h (fun _ _ => step_paused) hs.paused

/-! ## Computed runs -/

/-- `n` passes of the main loop, or fewer if the editing ends. -/
def mainRun (sys : Sys W) (fuel : ℕ) : ℕ → Config W → Except Stop (Config W)
  | 0, x => .ok x
  | n + 1, x =>
    if x.vi.editing then
      mainIter sys fuel x.c x.keys x.vi >>= fun (c, ks, s) => mainRun sys fuel n ⟨some c, ks, s⟩
    else .ok x

/-- A computed run is a run. -/
theorem mainRun_run {fuel n : ℕ} (h : mainRun sys fuel n x = .ok y) : Run sys x y := by
  induction n generalizing x with
  | zero => cases h; exact .refl
  | succ n ih =>
    simp only [mainRun] at h
    split_ifs at h with hed
    · obtain ⟨⟨c, ks, s⟩, hiter, h⟩ := bind_eq_ok.mp h
      exact Relation.ReflTransGen.head ⟨hed, fuel, c, hiter, rfl⟩ (ih h)
    · cases h
      exact .refl

/-- A single computed pass is a pass. -/
theorem mainRun_step {fuel : ℕ} (hx : x.vi.editing = true) (h : mainRun sys fuel 1 x = .ok y) :
    Step sys x y := by
  simp only [mainRun, hx, if_true] at h
  obtain ⟨⟨c, ks, s⟩, hiter, h⟩ := bind_eq_ok.mp h
  cases h
  exact ⟨hx, fuel, c, hiter, rfl⟩

/-- Open a file and make `n` passes on the given keys: the state in which the main loop was
entered, and what it has come to. -/
def session (sys : Sys W) (fuel n : ℕ) (fn : List UInt8) (keys : List Read) (w : W) :
    Except Stop (Option (Vi W × Config W)) :=
  editFile sys fuel (fun _ => NUL) fn clearedScreen w >>= fun s =>
  match s with
  | none => .ok none
  | some s => mainRun sys fuel n ⟨none, keys, s⟩ >>= fun y => .ok (some (s, y))

/-- What has been computed of a session is true of a run. -/
theorem session_run (sys : Sys W) (fuel n : ℕ) (fn : List UInt8) (keys : List Read) (w : W)
    {P : Vi W → Config W → Prop} [∀ s y, Decidable (P s y)]
    (h : (session sys fuel n fn keys w).map (Option.map fun p => decide (P p.1 p.2)) =
      .ok (some true)) :
    ∃ s y, Opens sys fn s ∧ mainRun sys fuel n ⟨none, keys, s⟩ = .ok y ∧ P s y := by
  rcases hs : session sys fuel n fn keys w with e | o
  · rw [hs] at h
    cases h
  · rw [hs] at h
    obtain ⟨o', ho', hs⟩ := bind_eq_ok.mp hs
    rcases o' with _ | s
    · cases hs
      cases h
    · obtain ⟨y, hy, hs⟩ := bind_eq_ok.mp hs
      cases hs
      exact ⟨s, y, ⟨fuel, _, _, _, ho'⟩, hy,
        of_decide_eq_true (Option.some.inj (Except.ok.inj h))⟩

/-- A file system with one file that can be read and not written. -/
def readOnly (content : List UInt8) : Sys Unit where
  stat _ _ := some content.length
  load _ _ _ := some content
  openSave _ _ := (-1, ())
  write _ _ _ := (-1, ())
  close _ _ := ()

/-- A file system with one file that accepts everything written to it. -/
def writable (content : List UInt8) : Sys Unit where
  stat _ _ := some content.length
  load _ _ _ := some content
  openSave _ _ := (3, ())
  write _ _ bs := (bs.length, ())
  close _ _ := ()

end HgXv6
