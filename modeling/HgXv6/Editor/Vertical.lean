import HgXv6.Editor.Insert
import HgXv6.Editor.LineStart

set_option relaxedAutoImplicit false
set_option autoImplicit false

/-!
# Moving up and down keeps the column

`dot_up` and `dot_down` go to the start of the next line in their direction and replay the column:
a saved pointer walks back to the start of its line while `dot` steps right, until it is on the
newline or the last character. On every line the result is the same column, or the end of the
line if that is shorter.

## Main definitions

* `HgXv6.IsLine` — the places of a line, up to its newline or the last character.
* `HgXv6.KeepsColumn` — where `dot_up` and `dot_down` go.

## Main results

* `HgXv6.replayColumn_eq` — the column that the replay reaches.
* `HgXv6.keepsColumn` — the column is kept.
-/

namespace HgXv6

open Prog

variable {W : Type} {m : ℤ → UInt8} {e p q : ℤ} {s : Vi W}

/-! ## Lines -/

/-- A line starts at `a`, and ends with the newline or the last character `z`. -/
structure IsLine (m : ℤ → UInt8) (e a z : ℤ) : Prop where
  nonneg : 0 ≤ a
  start : LineStart m a
  le : a ≤ z
  lt : z < e
  ne : ∀ q, a ≤ q → q < z → m q ≠ NL
  stop : m z = NL ∨ z = e - 1

/-- The line of a place of the text. -/
theorem isLine_beginLine (h0 : 0 ≤ p) (hp : p < e) :
    IsLine m e (beginLine m p) (endLine m e p) where
  nonneg := beginLine_nonneg m h0
  start := beginLine_lineStart h0
  le := (beginLine_le m p).trans (le_endLine m e p)
  lt := by
    have := endLine_le m (e := e) (p := p) (by omega)
    omega
  ne := fun q h1 h2 => by
    by_cases hq : q < p
    · exact ne_of_beginLine_le h1 hq
    · exact ne_of_lt_endLine (not_lt.mp hq) h2
  stop := by
    have hle := endLine_le m (e := e) (p := p) (by omega)
    rcases hle.lt_or_eq with h | h
    · exact .inl (endLine_stop h)
    · exact .inr h

/-- A line ends where `end_line` points from its start. -/
theorem IsLine.endLine {a z : ℤ} (h : IsLine m e a z) : HgXv6.endLine m e a = z :=
  endLine_eq h.le (by have := h.lt; omega) h.ne h.stop

/-- The line before a line ends with a newline. -/
theorem isLine_pred (h : 0 < beginLine m p) (hp : p < e) :
    IsLine m e (beginLine m (beginLine m p - 1)) (beginLine m p - 1) := by
  have hle := beginLine_le m p
  have hline := isLine_beginLine (m := m) (e := e) (p := beginLine m p - 1) (by omega) (by omega)
  rwa [endLine_newline (beginLine_start h)] at hline

/-! ## The replay of the column -/

/-- The replay steps right once for each character before `p` on its line, but not past the end of
the cursor's line.

**Proof sketch.** Induction on the steps of the saved pointer. If the cursor is then on a newline
it cannot step on, and the loop is left; otherwise the rest of the replay starts one column later
on both lines, or at the last character, where it stays. -/
theorem replayColumn_eq (n : ℕ) (hn : p - beginLine s.mem p ≤ n) (hdot : s.dot < s.endp) :
    replayColumn n p s = { s with
      dot := min (s.dot + (p - beginLine s.mem p)) (endLine s.mem s.endp s.dot) } := by
  have hend := le_endLine s.mem s.endp s.dot
  induction n generalizing p s with
  | zero =>
    have hle := beginLine_le s.mem p
    rw [replayColumn, show p - beginLine s.mem p = 0 by omega, add_zero, min_eq_left hend]
  | succ n ih =>
    rw [replayColumn]
    by_cases hp : p > 0 ∧ s.mem (p - 1) ≠ NL
    · have hcol := beginLine_le s.mem (p - 1)
      rw [← beginLine_pred hp.1 hp.2] at hcol
      simp only [if_pos hp]
      by_cases hright : s.dot < s.endp - 1 ∧ s.mem s.dot ≠ NL
      · have hstep : dotRight s = { s with dot := s.dot + 1 } := by
          rw [dotRight, if_pos hright, dotIncrease, if_pos hright.1]
        rw [hstep, endLine_succ hright.1 hright.2]
        dsimp only
        split_ifs with hnl
        · -- the step was onto the newline
          rw [endLine_newline hnl, min_eq_right (by omega)]
        · rw [ih (by dsimp only; rw [beginLine_pred hp.1 hp.2] at hn; omega)
            (by dsimp only; omega) (le_endLine _ _ _)]
          dsimp only
          rw [beginLine_pred hp.1 hp.2]
          congr 2
          ring
      · have hstay : dotRight s = s := by rw [dotRight, if_neg hright]
        rw [hstay]
        split_ifs with hnl
        · rw [endLine_newline hnl, min_eq_right (by omega)]
        · have hlast : endLine s.mem s.endp s.dot = s.dot :=
            endLine_of_le _ (by by_contra hlt; exact hright ⟨by omega, hnl⟩)
          rw [ih (by rw [beginLine_pred hp.1 hp.2] at hn; omega) hdot hend,
            ← beginLine_pred hp.1 hp.2, hlast, min_eq_right (by omega), min_eq_right (by omega)]
    · have hcol : beginLine s.mem p = p := by
        by_cases hpos : p > 0
        · exact LineStart.beginLine (.inr (by_contra fun hne => hp ⟨hpos, hne⟩))
        · exact beginLine_of_le _ (by omega)
      rw [if_neg hp, hcol, sub_self, add_zero, min_eq_left hend]

/-! ## The moves -/

/-- `dot_up` stays on the first line, and says so; otherwise it goes to the same column of the line
above, or to the newline of that line if it is shorter. `dot_down` stays on the last line;
otherwise it goes to the same column of the line below, or to its newline or the last character. -/
def KeepsColumn (s : Vi W) : Prop :=
  ∃ a z, IsLine s.mem s.endp a z ∧ a ≤ s.dot ∧ s.dot ≤ z ∧
    ((dotUp s).1 = false ∧ (dotUp s).2.dot = s.dot ↔ a = 0) ∧
    (a ≠ 0 → ∃ a', IsLine s.mem s.endp a' (a - 1) ∧
      (dotUp s).2.dot = a' + min (s.dot - a) (a - 1 - a')) ∧
    (z = s.endp - 1 → (dotDown s).2.dot = s.dot) ∧
    (z ≠ s.endp - 1 → ∃ z', IsLine s.mem s.endp (z + 1) z' ∧
      (dotDown s).2.dot = z + 1 + min (s.dot - a) (z' - (z + 1)))

/-- `dot_up` on the first line. -/
theorem dotUp_first (h : beginLine s.mem s.dot ≤ 0) : dotUp s = (false, s) := by
  simp only [dotUp, dotPreLine_eq, if_neg (not_lt.mpr h), Bool.false_eq_true, if_false]

/-- `dot_up` on another line. -/
theorem dotUp_dot (h : 0 < beginLine s.mem s.dot) (hdot : s.dot < s.endp) :
    (dotUp s).1 = true ∧ (dotUp s).2.dot = beginLine s.mem (beginLine s.mem s.dot - 1) +
      min (s.dot - beginLine s.mem s.dot)
        (beginLine s.mem s.dot - 1 - beginLine s.mem (beginLine s.mem s.dot - 1)) := by
  have hle := beginLine_le s.mem s.dot
  have hline := isLine_pred h hdot
  have hlt := hline.lt
  have hle' := hline.le
  simp only [dotUp, dotPreLine_eq, if_pos h, if_true]
  refine ⟨trivial, ?_⟩
  rw [replayColumn_eq _ (by dsimp only; omega) (by dsimp only; omega)]
  dsimp only
  rw [hline.endLine, ← min_add_add_left]
  congr 1
  ring

/-- `dot_down` on the last line. -/
theorem dotDown_last (h : s.endp - 1 ≤ endLine s.mem s.endp s.dot) : dotDown s = (false, s) := by
  simp only [dotDown, dotNextLine_eq, if_neg (not_lt.mpr h), Bool.false_eq_true, if_false]

/-- `dot_down` on another line. -/
theorem dotDown_dot (h0 : 0 ≤ s.dot) (h : endLine s.mem s.endp s.dot < s.endp - 1) :
    (dotDown s).2.dot = endLine s.mem s.endp s.dot + 1 +
      min (s.dot - beginLine s.mem s.dot)
        (endLine s.mem s.endp (endLine s.mem s.endp s.dot + 1) -
          (endLine s.mem s.endp s.dot + 1)) := by
  have hb := beginLine_nonneg s.mem h0
  -- the next line also moves the window, which the replay does not look at
  obtain ⟨b, hb'⟩ : ∃ b, dotNextLine s =
      (true, { s with dot := endLine s.mem s.endp s.dot + 1, screenbegin := b }) := by
    rw [dotNextLine_eq, if_pos h]
    dsimp only
    split_ifs
    · exact ⟨_, rfl⟩
    · exact ⟨_, rfl⟩
  simp only [dotDown, hb', if_true]
  rw [replayColumn_eq _ (by dsimp only; omega) (by dsimp only; omega)]
  dsimp only
  rw [← min_add_add_left]
  congr 1
  ring

/-- **Columns.** From a cursor in the text, `dot_up` and `dot_down` keep the column.

**Proof sketch.** The line of the cursor runs from `beginLine` to `endLine`. There is a line above
it exactly if it does not begin the text, and one below it exactly if it does not end it; where
there is one, `dotUp_dot` and `dotDown_dot` say in which cell of it the cursor ends, and where there
is none the move returns without doing anything. -/
theorem keepsColumn (s : Vi W) (h0 : 0 ≤ s.dot) (hdot : s.dot < s.endp) : KeepsColumn s := by
  have hline := isLine_beginLine (m := s.mem) h0 hdot
  have hnonneg := hline.nonneg
  have hlt := hline.lt
  refine ⟨_, _, hline, beginLine_le _ _, le_endLine _ _ _, ?_, fun ha => ?_, fun hz => ?_,
    fun hz => ?_⟩
  · constructor
    · rintro ⟨hmoved, -⟩
      by_contra hne
      rw [(dotUp_dot (by omega) hdot).1] at hmoved
      exact absurd hmoved (by decide)
    · intro hfirst
      rw [dotUp_first hfirst.le]
      exact ⟨rfl, rfl⟩
  · exact ⟨_, isLine_pred (by omega) hdot, (dotUp_dot (by omega) hdot).2⟩
  · rw [dotDown_last hz.ge]
  · have hbelow := hline.stop.resolve_right hz
    have hnext := isLine_beginLine (m := s.mem) (e := s.endp)
      (p := endLine s.mem s.endp s.dot + 1) (by have := le_endLine s.mem s.endp s.dot; omega)
      (by omega)
    rw [(lineStart_succ hbelow).beginLine] at hnext
    exact ⟨_, hnext, dotDown_dot h0 (by omega)⟩

/-- `keepsColumn` for a cursor behind the end of the line above it. -/
theorem keepsColumn_shorter : KeepsColumn { smallFile (str "a\nbcd") with dot := 4 } :=
  keepsColumn _ (by decide) (by decide)

end HgXv6
