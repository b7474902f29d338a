import HgXv6.Editor.Run

set_option relaxedAutoImplicit false
set_option autoImplicit false

/-!
# The pointers stay in the buffer

The representation invariant of the editor: window and cursor are in the text, the text is in the
buffer, and a NUL follows it. Three kinds of commands break it. `x`, `J` and `<` on the last
character leave the cursor behind the end of the text, and on an empty text they move the end
before its start; `r` and `R` write over the NUL of an empty text; a search in a text of fewer
than two characters runs out of it. Every other command, and these in every other state, keep
the invariant.

## Main definitions

* `HgXv6.Valid` — the invariant between two passes of the main loop.
* `HgXv6.Loose` — the part of it that holds while a command is executed.
* `HgXv6.Safe` — the states in which a command keeps the invariant.

## Main results

* `HgXv6.Effect.loose` — every kind of step keeps the inner invariant.
* `HgXv6.valid_run` — the invariant holds in every run of safe commands.
-/

namespace HgXv6

open Prog

variable {W : Type} {sys : Sys W}

/-- The invariant: `text <= screenbegin <= dot`, `dot` on a character unless there is none,
`text <= end <= textend`, and a NUL at `end`. -/
structure Valid (s : Vi W) : Prop where
  screenbegin_nonneg : 0 ≤ s.screenbegin
  screenbegin_le : s.screenbegin ≤ s.dot
  dot_le : 0 < s.endp → s.dot ≤ s.endp - 1
  dot_empty : s.endp = 0 → s.dot = 0
  endp_nonneg : 0 ≤ s.endp
  endp_le : s.endp ≤ s.textend
  nul : s.mem s.endp = NUL

/-- The invariant inside a command: the window need not be above the cursor. -/
structure Loose (s : Vi W) : Prop where
  dot : InText s.endp s.dot
  screenbegin : InText s.endp s.screenbegin
  endp_nonneg : 0 ≤ s.endp
  endp_le : s.endp ≤ s.textend
  nul : s.mem s.endp = NUL
  room : 0 < s.textend

/-- Between two passes the inner invariant holds as well. -/
theorem Valid.loose {s : Vi W} (h : Valid s) (hroom : 0 < s.textend) : Loose s := by
  have hdot : InText s.endp s.dot := by
    refine ⟨h.screenbegin_nonneg.trans h.screenbegin_le, ?_⟩
    rcases h.endp_nonneg.eq_or_lt with he | he
    · exact .inr (h.dot_empty he.symm)
    · exact .inl (h.dot_le he)
  exact {
    dot := hdot
    screenbegin := hdot.between h.screenbegin_nonneg h.screenbegin_le
    endp_nonneg := h.endp_nonneg
    endp_le := h.endp_le
    nul := h.nul
    room := hroom }

/-- A place of the text is not its end, unless the text is empty. -/
theorem InText.lt {e p : ℤ} (h : InText e p) (he : e ≠ 0) (he0 : 0 ≤ e) : p < e := by
  obtain ⟨h1, h2⟩ := h
  omega

/-! ## Windows and moves -/

/-- An adjusted window is in the text. -/
theorem Loose.view {s : Vi W} (h : Loose s) {b : ℤ} {c : Cga} {y : Option ℤ}
    (hb : Adjusted s.mem s.dot s.screenbegin b) :
    Loose { s with screenbegin := b, cga := c, synScreenbegin := y } :=
  { h with screenbegin := h.dot.between (hb.nonneg h.screenbegin.1 h.dot.1) hb.le }

/-- A move stays in the text. -/
theorem Loose.moves {s t : Vi W} (h : Loose s) (hm : Moves s t) : Loose t := by
  obtain ⟨d, b, rfl, hd⟩ := hm
  exact { h with
    dot := (hd h.dot h.screenbegin).1
    screenbegin := (hd h.dot h.screenbegin).2 }

/-- After a synchronisation the whole invariant holds. -/
theorem Loose.valid {s t : Vi W} {fuel : ℕ} (h : Loose s) (ht : synchronize fuel s = .ok t) :
    Valid t ∧ 0 < t.textend := by
  obtain ⟨b, c, rfl, hb, -⟩ := synchronize_ensures fuel s t ht
  refine ⟨{
    screenbegin_nonneg := hb.nonneg h.screenbegin.1 h.dot.1
    screenbegin_le := hb.le
    dot_le := fun he => ?_
    dot_empty := fun he => ?_
    endp_nonneg := h.endp_nonneg
    endp_le := h.endp_le
    nul := h.nul }, h.room⟩
  · have := h.dot.lt (ne_of_gt he) h.endp_nonneg
    dsimp only at he ⊢
    omega
  · obtain ⟨h0, h1⟩ := h.dot
    dsimp only at he ⊢
    omega

/-! ## Edits -/

/-- A character is stored at a place of a text that is not empty. -/
theorem Loose.store {s : Vi W} (h : Loose s) {p : ℤ} {c : UInt8} (hp : p < s.endp) :
    Loose (HgXv6.store p c s) :=
  { h with
    nul := by
      simp only [HgXv6.store]
      rw [Function.update_of_ne (by omega)]
      exact h.nul }

/-- A place of the text is still one after the text has grown. -/
theorem InText.mono {e e' p : ℤ} (h : InText e p) (he : e ≤ e') : InText e' p := by
  obtain ⟨h1, h2⟩ := h
  exact ⟨h1, by omega⟩

/-- A character is inserted at a place of the text. If the buffer is full the character there is
replaced instead. -/
theorem Loose.insertAt {s : Vi W} (h : Loose s) {p : ℤ} (c : UInt8) (hp : InText s.endp p) :
    Loose (HgXv6.store p c (makeHoleAdd p 1 s)) ∧ s.endp ≤ (makeHoleAdd p 1 s).endp ∧
      p < (makeHoleAdd p 1 s).endp := by
  have hroom := h.room
  have hle := h.endp_le
  have hnn := h.endp_nonneg
  by_cases hfull : s.endp + (1 : ℕ) > s.textend
  · rw [makeHoleAdd, if_pos hfull]
    have hlt := hp.lt (by omega) hnn
    exact ⟨h.store hlt, le_rfl, hlt⟩
  · obtain ⟨hp0, hp1⟩ := hp
    rw [makeHoleAdd, if_neg hfull]
    refine ⟨Loose.store (p := p) (c := c) ?_ (by dsimp only; omega), by dsimp only; omega,
      by dsimp only; omega⟩
    exact {
      dot := h.dot.mono (by dsimp only; omega)
      screenbegin := h.screenbegin.mono (by dsimp only; omega)
      endp_nonneg := by dsimp only; omega
      endp_le := by dsimp only; omega
      nul := by
        dsimp only [fill]
        rw [if_neg (by omega), copyDown_apply _ _ _ (by omega), if_pos (by omega)]
        rw [show s.endp + ((1 : ℕ) : ℤ) - (p + ((1 : ℕ) : ℤ)) + p = s.endp by omega]
        exact h.nul
      room := h.room }

/-- Characters of the text are removed, so that the cursor stays in the text. -/
theorem Loose.delete {s : Vi W} (h : Loose s) (hsb : s.screenbegin ≤ s.dot) {a b : ℤ}
    (ha : 0 ≤ a) (hab : a ≤ b) (hb : b ≤ s.endp - 1)
    (hdot : InText (s.endp - (b - a + 1)) s.dot) : Loose (makeHoleDelete a b s) := by
  have hle := h.endp_le
  have heq : makeHoleDelete a b s = { s with
      mem := copyUp s.mem a (b + 1) (s.endp - b).toNat, endp := s.endp - (b - a + 1) } := by
    simp only [makeHoleDelete, if_neg (not_lt.mpr hab)]
  rw [heq]
  exact {
    dot := hdot
    screenbegin := hdot.between h.screenbegin.1 hsb
    endp_nonneg := by dsimp only; omega
    endp_le := by dsimp only; omega
    nul := by
      dsimp only
      rw [copyUp_apply _ _ _ (by omega), if_pos (by omega),
        show s.endp - (b - a + 1) - a + (b + 1) = s.endp by omega]
      exact h.nul
    room := h.room }

/-- Inserting a character keeps the invariant. -/
theorem Loose.typeText {s : Vi W} (h : Loose s) (c : UInt8) :
    Loose (HgXv6.typeText c s) ∧ s.endp ≤ (HgXv6.typeText c s).endp := by
  obtain ⟨h1, h2, -⟩ := h.insertAt c h.dot
  have hdot : (makeHoleAdd s.dot 1 s).dot = s.dot := by
    unfold makeHoleAdd
    split_ifs <;> rfl
  have hm := dotIncrease_moves (HgXv6.store s.dot c (makeHoleAdd s.dot 1 s))
  have heq : HgXv6.typeText c s = dotIncrease (HgXv6.store s.dot c (makeHoleAdd s.dot 1 s)) := by
    simp only [HgXv6.typeText, hdot]
  rw [heq]
  refine ⟨h1.moves hm, ?_⟩
  obtain ⟨_, _, he, -⟩ := hm
  rw [he]
  exact h2

/-- Replacing a character of a text that is not empty keeps the invariant. -/
theorem Loose.overText {s : Vi W} (h : Loose s) (c : UInt8) (he : s.endp ≠ 0) :
    Loose (HgXv6.overText c s) := by
  have h' : Loose { s with hasChanged := true } := { h with }
  exact (h'.store (h.dot.lt he h.endp_nonneg)).moves (dotIncrease_moves _)

/-- Opening a line below keeps the invariant. -/
theorem Loose.openBelow {s : Vi W} (h : Loose s) :
    Loose (HgXv6.openBelow s) ∧ s.endp ≤ (HgXv6.openBelow s).endp := by
  obtain ⟨h1, h2, -⟩ := h.insertAt NL (h.dot.nextLine s.mem)
  have hm := dotNextLine_moves
    (HgXv6.store (nextLine s.mem s.endp s.dot) NL (makeHoleAdd (nextLine s.mem s.endp s.dot) 1 s))
  refine ⟨h1.moves hm, ?_⟩
  obtain ⟨_, _, he, -⟩ := hm
  rw [HgXv6.openBelow, he]
  exact h2

/-- Opening a line above keeps the invariant. -/
theorem Loose.openAbove {s : Vi W} (h : Loose s) :
    Loose (HgXv6.openAbove s) ∧ s.endp ≤ (HgXv6.openAbove s).endp := by
  obtain ⟨h1, h2, -⟩ := h.insertAt NL (h.dot.beginLine s.mem)
  exact ⟨{ h1 with dot := (h.dot.beginLine s.mem).mono h2 }, h2⟩

/-! ## Steps -/

/-- Every step keeps the invariant and takes no character from the text, if characters are replaced
in a text that is not empty only, and strings searched in a text of at least two characters only.

**Proof sketch.** One case for each kind of step. Whatever draws or synchronises changes the view
alone, and the adjusted window is again within the text (`Loose.view`). A typed character and an
opened line make the text longer and keep the cursor in it; a character that replaces another needs
one to replace, and a search that jumps needs the two characters between which it goes back and
forth. -/
theorem Effect.loose {m : May} {e : ℤ} (hover : ∀ c, m.overtype c → isPrintChar c → 0 < e)
    (hsearch : m.search → 2 ≤ e) {s t : Vi W} (h : Effect m s t) (hs : Loose s)
    (he : e ≤ s.endp) : Loose t ∧ e ≤ t.endp := by
  cases h with
  | move hm h =>
    refine ⟨hs.moves h, ?_⟩
    obtain ⟨_, _, rfl, -⟩ := h
    exact he
  | lastRow h => exact ⟨{ hs with }, he⟩
  | spill h => exact ⟨{ hs with }, he⟩
  | redraw hset h =>
    obtain ⟨b, c, rfl, hb, -⟩ := redraw_ensures _ s t h
    exact ⟨hs.view hb, he⟩
  | synchronize h =>
    obtain ⟨b, c, rfl, hb, -⟩ := synchronize_ensures _ s t h
    exact ⟨hs.view hb, he⟩
  | findChar => exact ⟨{ hs with }, he⟩
  | pattern h => exact ⟨{ hs with }, he⟩
  | jump h hp => exact ⟨{ hs with dot := hp ((hsearch h).trans he) hs.dot }, he⟩
  | change => exact ⟨{ hs with }, he⟩
  | @typed _ _ c _ hc h =>
    obtain ⟨b, d, rfl, hb, -⟩ := redraw_synchronize_ensures _ _ t h
    obtain ⟨h1, h2⟩ := hs.typeText c
    exact ⟨h1.view hb, he.trans h2⟩
  | @overtyped _ _ c hm hc h =>
    obtain ⟨b, d, rfl, hb, -⟩ := redraw_ensures _ _ t h
    have h1 := hs.overText c (by have := hover c hm hc; omega)
    refine ⟨h1.view hb, ?_⟩
    obtain ⟨_, _, heq, -⟩ := dotIncrease_moves (store s.dot c { s with hasChanged := true })
    rw [overText, heq]
    exact he
  | opened hl h =>
    obtain ⟨b, d, rfl, hb, -⟩ := redraw_synchronize_ensures _ _ _ h
    have hline : ∀ line : Vi W → Vi W, Loose (line s) ∧ s.endp ≤ (line s).endp →
        Adjusted (line s).mem (line s).dot (line s).screenbegin b →
        Loose { line s with
          screenbegin := b, cga := d, synScreenbegin := some b, hasChanged := true } ∧
          e ≤ (line s).endp := fun line h1 hb =>
      ⟨{ h1.1.view (c := d) (y := some b) hb with }, he.trans h1.2⟩
    rcases hl with rfl | rfl
    · exact hline _ hs.openBelow hb
    · exact hline _ hs.openAbove hb
  | file _ h => exact ⟨{ hs with }, he⟩

/-! ## Commands -/

/-- The commands that delete one character whatever it is. -/
def Deletes (cmd : Cmd) (s : Vi W) : Prop :=
  match cmd with
  | .deleteChar | .join => True
  | .unindent => s.mem (beginLine s.mem s.dot) = TAB
  | _ => False

/-- The states, and keys to come, in which a command keeps the invariant: a command that deletes
a character is not given on the last one, unless it is the only one; nothing is written over the
NUL of an empty text; and no string is searched in a text of fewer than two characters. -/
structure Safe (cmd : Cmd) (ks : List Read) (s : Vi W) : Prop where
  delete : Deletes cmd s → s.dot < s.endp - 1 ∨ s.endp = 1
  overtype : ∀ c, (may cmd ks s).overtype c → isPrintChar c → 0 < s.endp
  search : (may cmd ks s).search → 2 ≤ s.endp

/-- The command `~` keeps the invariant. -/
theorem Loose.toggleCase {s : Vi W} (h : Loose s) : Loose (HgXv6.toggleCase s) := by
  refine Loose.moves ?_ (dotIncrease_moves _)
  have h' : Loose { s with hasChanged := true } := { h with }
  by_cases he : s.endp = 0
  · -- the NUL of an empty text stays one
    have hdot : s.dot = s.endp := by
      obtain ⟨h0, h1⟩ := h.dot
      omega
    have hnul := h.nul
    exact { h' with
      nul := by
        simp only [HgXv6.store, hdot, hnul]
        rw [Function.update_self]
        decide }
  · exact h'.store (h.dot.lt he h.endp_nonneg)

/-- A character at or after the cursor is removed. -/
theorem Loose.deleteOne {s : Vi W} (h : Loose s) (hsb : s.screenbegin ≤ s.dot) {p : ℤ}
    (hp0 : 0 ≤ p) (hp : p ≤ s.endp - 1) (hdot : s.dot < s.endp - 1 ∨ s.endp = 1) :
    Loose (makeHoleDelete p p { s with hasChanged := true }) := by
  have h' : Loose { s with hasChanged := true } := { h with }
  obtain ⟨h0, h1⟩ := h.dot
  exact h'.delete hsb hp0 le_rfl hp ⟨h0, by dsimp only; omega⟩

/-- The end of the line of a place of the text is one. -/
theorem InText.endLine {e p : ℤ} (m : ℤ → UInt8) (h : InText e p) (he : e ≠ 0) (he0 : 0 ≤ e) :
    0 ≤ HgXv6.endLine m e p ∧ HgXv6.endLine m e p ≤ e - 1 := by
  have hlt := h.lt he he0
  have hle := le_endLine m e p
  have := h.1
  exact ⟨by omega, endLine_le m (by omega)⟩

/-- The edits keep the invariant where they are safe. -/
theorem Loose.edit {s : Vi W} (h : Loose s) (hsb : s.screenbegin ≤ s.dot) {cmd : Cmd}
    {f : Vi W → Vi W} (hf : cmd.edit = some f)
    (hsafe : Deletes cmd s → s.dot < s.endp - 1 ∨ s.endp = 1) : Loose (f s) := by
  have h' : Loose { s with hasChanged := true } := { h with }
  have hnn := h.endp_nonneg
  have hdot := h.dot
  cases cmd with
  | toggle => cases hf; exact h.toggleCase
  | join =>
    cases hf
    have hsafe := hsafe trivial
    obtain ⟨h0, h1⟩ := hdot.endLine s.mem (by have := hdot.1; omega) hnn
    exact h.deleteOne hsb h0 h1 hsafe
  | deleteTail =>
    cases hf
    unfold HgXv6.deleteTail
    dsimp only
    split_ifs with hd
    · have he : s.endp ≠ 0 := fun he => by
        rw [endLine_of_le s.mem (by have := hdot.1; omega)] at hd
        omega
      obtain ⟨h0, h1⟩ := hdot.endLine s.mem he hnn
      obtain ⟨hd0, hd1⟩ := hdot
      exact h'.delete hsb hd0 (by omega) (by dsimp only; omega) ⟨hd0, by dsimp only; omega⟩
    · exact h
  | indent => cases hf; exact (h'.insertAt TAB (h.dot.beginLine s.mem)).1
  | unindent =>
    cases hf
    unfold HgXv6.unindent
    dsimp only
    split_ifs with htab
    · have hle := beginLine_le s.mem s.dot
      have hsafe := hsafe htab
      have hlt := hdot.lt (by have := hdot.1; omega) hnn
      exact h.deleteOne hsb (beginLine_nonneg s.mem hdot.1) (by omega) hsafe
    · exact h
  | _ => cases hf

/-- A safe command keeps the invariant. -/
theorem execCmd_loose (sys : Sys W) (fuel : ℕ) {cmd : Cmd} {ks : List Read} {s : Vi W}
    (h : Loose s) (hp : Paused s) (hsafe : Safe cmd ks s) :
    Ensures (execCmd sys fuel cmd ks s) fun r => Loose r.2 := by
  intro r hr
  have hsb := hp.settled.le
  rcases execCmd_cases sys fuel cmd ks hp r hr with hpath | ⟨f, hf, rfl⟩ | ⟨rfl, -, hx⟩
  · refine (hpath.preserves (P := fun t => Loose t ∧ s.endp ≤ t.endp) ?_ ?_ ⟨h, le_rfl⟩).1
    · exact fun _ _ heff ht => heff.loose hsafe.overtype hsafe.search ht.1 ht.2
    · exact fun _ _ _ ht => ⟨{ ht.1 with }, ht.2⟩
  · exact h.edit hsb hf hsafe.delete
  · obtain ⟨b, c, heq, hb, -⟩ := dotDelete_ensures fuel _ _ hx
    have hd := hsafe.delete trivial
    obtain ⟨h0, h1⟩ := h.dot
    rw [heq]
    exact (h.deleteOne (p := s.dot) hsb h0 (by omega) hd).view hb

/-! ## Runs -/

/-- The next command is safe. -/
def Config.Safe (x : Config W) : Prop :=
  ∀ r ks, x.keys = r :: ks → HgXv6.Safe (keyCmd (r.into x.c)) ks x.vi

/-- A pass with a safe command keeps the invariant. -/
theorem step_valid {x y : Config W} (h : Step sys x y) (hsafe : x.Safe)
    (hx : Valid x.vi ∧ 0 < x.vi.textend) (hpaused : Paused x.vi) :
    Valid y.vi ∧ 0 < y.vi.textend := by
  obtain ⟨fuel, r, ks, u, v, hp⟩ := step_cases h
  obtain ⟨c, hu, -⟩ := hp.start
  have hs := hsafe r ks hp.keys
  have hloose := hx.1.loose hx.2
  have hu1 : Loose u := by
    rw [hu]
    exact { hloose with }
  have hu2 : Safe (keyCmd (r.into x.c)) ks u := by
    rw [hu]
    exact ⟨hs.delete, hs.overtype, hs.search⟩
  exact (execCmd_loose sys fuel hu1 (hp.paused hpaused) hu2 _ hp.exec).valid hp.sync

/-- The file that has been opened satisfies the invariant. -/
theorem Opens.valid {fn : List UInt8} {s : Vi W} (h : Opens sys fn s) :
    Valid s ∧ 0 < s.textend := by
  obtain ⟨m, cga, w, cnt, content, hlen, b, c, rfl, hb, -⟩ := h.cases
  have hb0 : b = 0 := by
    have := hb.nonneg le_rfl le_rfl
    have := hb.le
    omega
  have htextend : (opened m fn cnt content cga w).textend =
      if (cnt : ℤ) * 2 < 10240 then (10240 : ℤ) else (cnt : ℤ) * 2 := by simp only [opened]
  have hendp : (opened m fn cnt content cga w).endp = cnt := rfl
  refine ⟨{
    screenbegin_nonneg := hb0.ge
    screenbegin_le := hb0.le
    dot_le := fun he => ?_
    dot_empty := fun _ => rfl
    endp_nonneg := ?_
    endp_le := ?_
    nul := ?_ }, ?_⟩
  · dsimp only at he ⊢
    rw [hendp] at he ⊢
    show (0 : ℤ) ≤ _
    omega
  · dsimp only
    omega
  · dsimp only
    rw [hendp, htextend]
    split_ifs <;> omega
  · show newText m (cnt * 2) content cnt = NUL
    unfold newText
    rw [if_neg (by omega), if_pos]
    split_ifs <;> omega
  · dsimp only
    rw [htextend]
    split_ifs <;> omega

/-- The invariant holds in every state reached from an opened file by safe commands.

**Proof sketch.** The invariant holds when the main loop is entered (`Opens.valid`), and each step
of a safe command keeps it (`step_valid`), so that it holds along the run. -/
theorem valid_run {fn : List UInt8} {s : Vi W} {ks : List Read} {y : Config W}
    (hs : Opens sys fn s) (h : RunIf sys Config.Safe ⟨none, ks, s⟩ y) : Valid y.vi := by
  have hrun := RunIf.preserves
    (P := fun y => (Valid y.vi ∧ 0 < y.vi.textend) ∧ Paused y.vi) h
    (fun x y hstep hsafe hx => ⟨step_valid hstep hsafe hx.1 hx.2, step_paused hstep hx.2⟩)
    ⟨hs.valid, hs.paused⟩
  exact hrun.1.1

/-- `valid_run` for `x` on the first character of a file of two. -/
theorem valid_run_delete : ∃ s y, Opens (readOnly (str "ab")) (str "f") s ∧
    RunIf (readOnly (str "ab")) Config.Safe ⟨none, [.byte (chr 'x')], s⟩ y ∧
    y.vi.endp = 1 ∧ Valid y.vi := by
  obtain ⟨s, y, hs, hy, hf⟩ := session_run (readOnly (str "ab")) 20 1 (str "f")
    [.byte (chr 'x')] ()
    (P := fun s y => s.editing = true ∧ s.dot = 0 ∧ s.endp = 2 ∧ y.vi.endp = 1)
    (by decide +kernel)
  obtain ⟨hed, hdot, hend, hend'⟩ := hf
  have hsafe : Config.Safe ⟨none, [.byte (chr 'x')], s⟩ := by
    rintro r ks ⟨⟩
    refine ⟨fun _ => .inl ?_, fun c h => h.elim, fun h => h.elim⟩
    dsimp only
    omega
  have hrun : RunIf (readOnly (str "ab")) Config.Safe ⟨none, [.byte (chr 'x')], s⟩ y :=
    .single ⟨mainRun_step hed hy, hsafe⟩
  exact ⟨s, y, hs, hrun, hend', valid_run hs hrun⟩

/-- On the last character of a file of two, `x` leaves the cursor behind the end of the text. -/
theorem not_forall_valid : ¬∀ (fn content : List UInt8) (s : Vi Unit) (ks : List Read)
    (y : Config Unit), Opens (readOnly content) fn s →
    Run (readOnly content) ⟨none, ks, s⟩ y → Valid y.vi := by
  intro hall
  obtain ⟨s, y, hs, hy, hf⟩ := session_run (readOnly (str "ab")) 20 2 (str "f")
    [.byte (chr 'l'), .byte (chr 'x')] ()
    (P := fun _ y => y.vi.dot = 1 ∧ y.vi.endp = 1) (by decide +kernel)
  have hvalid := hall _ _ s _ y hs (mainRun_run hy)
  have := hvalid.dot_le (by omega)
  omega

end HgXv6
