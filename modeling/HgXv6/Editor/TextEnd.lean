import HgXv6.Editor.Insert
import HgXv6.Editor.LineStart

set_option relaxedAutoImplicit false
set_option autoImplicit false

/-!
# Going to the last character

`G` puts the cursor on the last character and looks for the top of the window from the last line
upwards, line by line, until a whole screen lies between the top and the cursor. The line below is
then the first one from which the cursor is shown. At the first line of the text the search has
nowhere to go: a text that is shorter than the screen keeps it there for ever.

## Main definitions

* `HgXv6.LastShown` — the last character is in the window with a given top.
* `HgXv6.GoesToEnd` — what `G` is meant to do.
* `HgXv6.FillsScreen` — the text is longer than a screen, and its last line is not.

## Main results

* `HgXv6.dotTextEnd_loop` — the search ends if the text is longer than a screen.
* `HgXv6.goesToEnd_iff` — `G` does what it is meant to in these texts only.
-/

namespace HgXv6

open Prog

variable {W : Type} {m : ℤ → UInt8} {e p q : ℤ} {s : Vi W}

/-! ## The previous line -/

/-- The line before a line, and no other line lies between them. -/
theorem prevLine_lt (hp : LineStart m p) (h0 : 0 < p) :
    prevLine m p < p ∧ ∀ q, LineStart m q → prevLine m p < q → p ≤ q := by
  have hnl : m (p - 1) = NL := hp.resolve_left h0.ne'
  have heq : prevLine m p = beginLine m (p - 1) := by
    unfold prevLine
    dsimp only
    rw [hp.beginLine, if_pos ⟨h0, hnl⟩]
  have hle := beginLine_le m (p - 1)
  refine ⟨by omega, fun q hq hlt => ?_⟩
  by_contra hqp
  rw [heq] at hlt
  have hb := beginLine_nonneg m (p := p - 1) (by omega)
  exact ne_of_beginLine_le (p := p - 1) (q := q - 1) (by omega) (by omega)
    (hq.resolve_left (by omega))

/-- The previous line is not below the line. -/
theorem prevLine_le (m : ℤ → UInt8) (p : ℤ) : prevLine m p ≤ p := by
  have hle := beginLine_le m p
  unfold prevLine
  dsimp only
  split_ifs
  · have := beginLine_le m (beginLine m p - 1)
    omega
  · have := beginLine_le m (beginLine m p)
    omega

/-! ## The search for the top -/

/-- The state in which the search looks at the line `b`. -/
def atTop (s : Vi W) (b : ℤ) : Vi W := { s with dot := s.endp - 1, screenbegin := b }

/-- A pass of the search. -/
theorem dotTextEndBody_atTop {b : ℤ} (hb : b ≤ s.endp - 1) : dotTextEndBody (atTop s b) =
    if cells s.mem b (s.endp - 1) < rows * columns then .ok (atTop s (prevLine s.mem b), true)
    else .ok (atTop s b, false) := by
  rw [dotTextEndBody_eq, pulledBack_of_le hb]
  rfl

/-- A line of the search: from the lines below it the last character is shown. -/
structure Searched (s : Vi W) (b : ℤ) : Prop where
  nonneg : 0 ≤ b
  start : LineStart s.mem b
  le : b ≤ s.endp - 1
  below : ∀ q, LineStart s.mem q → b < q → q ≤ s.endp - 1 →
    cells s.mem q (s.endp - 1) < rows * columns

/-- The search starts from the last line. -/
theorem searched_last (h : 0 < s.endp) : Searched s (beginLine s.mem (s.endp - 1)) where
  nonneg := beginLine_nonneg _ (by omega)
  start := beginLine_lineStart (by omega)
  le := beginLine_le _ _
  below := fun q hq hlt hle => by
    have hb := beginLine_nonneg s.mem (p := s.endp - 1) (by omega)
    exact absurd (hq.resolve_left (by omega))
      (ne_of_beginLine_le (p := s.endp - 1) (q := q - 1) (by omega) (by omega))

/-- From a line from which the last character is shown the search goes on to the line above. -/
theorem Searched.prevLine {b : ℤ} (h : Searched s b) (h0 : 0 < b)
    (hb : cells s.mem b (s.endp - 1) < rows * columns) :
    Searched s (HgXv6.prevLine s.mem b) ∧ HgXv6.prevLine s.mem b < b := by
  obtain ⟨hlt, hnone⟩ := prevLine_lt h.start h0
  obtain ⟨hnonneg, hstart⟩ := prevLine_lineStart (m := s.mem) h.nonneg
  have hle := h.le
  refine ⟨{
    nonneg := hnonneg
    start := hstart
    le := by omega
    below := fun q hq hgt hqe => ?_ }, hlt⟩
  rcases (hnone q hq hgt).eq_or_lt with rfl | hbelow
  · exact hb
  · exact h.below q hq hbelow hqe

/-- The search ends on a line with a whole screen between it and the cursor, if the text is so
long.

**Proof sketch.** Induction on the line. At the first line the count sees the whole text, and the
loop is left; from every other line the next pass looks at a line above. -/
theorem dotTextEnd_loop (hlong : rows * columns ≤ cells s.mem 0 (s.endp - 1)) {b : ℤ}
    (h : Searched s b) : ∃ b', Searched s b' ∧
      rows * columns ≤ cells s.mem b' (s.endp - 1) ∧
      Returns (fun fuel => loopFuel .loops dotTextEndBody fuel (atTop s b)) (atTop s b') := by
  obtain ⟨n, hn⟩ : ∃ n : ℕ, b.toNat ≤ n := ⟨_, le_rfl⟩
  induction n generalizing b with
  | zero =>
    have hzero : b = 0 := by
      have := h.nonneg
      omega
    subst hzero
    refine ⟨0, h, hlong, loopFuel_returns_of_stop ?_⟩
    rw [dotTextEndBody_atTop h.le, if_neg (not_lt.mpr hlong)]
  | succ n ih =>
    by_cases hc : cells s.mem b (s.endp - 1) < rows * columns
    · have h0 : 0 < b := by
        rcases h.nonneg.eq_or_lt with rfl | h0
        · exact absurd hc (not_lt.mpr hlong)
        · exact h0
      obtain ⟨hprev, hlt⟩ := h.prevLine h0 hc
      obtain ⟨b', h1, h2, h3⟩ := ih hprev (by omega)
      refine ⟨b', h1, h2, loopFuel_returns_of_step ?_ h3⟩
      rw [dotTextEndBody_atTop h.le, if_pos hc]
    · refine ⟨b, h, not_lt.mp hc, loopFuel_returns_of_stop ?_⟩
      rw [dotTextEndBody_atTop h.le, if_neg hc]

/-- The search does not end in a text that is shorter than a screen. -/
theorem dotTextEnd_diverges (h : 0 < s.endp)
    (hshort : cells s.mem 0 (s.endp - 1) < rows * columns) (fuel : ℕ) :
    dotTextEnd fuel s = .error .loops := by
  have hloop : loopFuel Stop.loops dotTextEndBody fuel
      (atTop s (beginLine s.mem (s.endp - 1))) = .error .loops := by
    refine loopFuel_diverges (fun t => ∃ b, 0 ≤ b ∧ b ≤ s.endp - 1 ∧ t = atTop s b) ?_ fuel _
      ⟨_, beginLine_nonneg _ (by omega), beginLine_le _ _, rfl⟩
    rintro _ ⟨b, h0, hle, rfl⟩
    have hprev := prevLine_le s.mem b
    have hc : cells s.mem b (s.endp - 1) < rows * columns :=
      (cells_mono s.mem h0 hle).trans_lt hshort
    exact ⟨atTop s (prevLine s.mem b), by rw [dotTextEndBody_atTop hle, if_pos hc], _,
      (prevLine_lineStart h0).1, by omega, rfl⟩
  unfold dotTextEnd
  dsimp only
  change loopFuel _ _ _ (atTop s _) >>= _ = _
  rw [hloop, error_bind]

/-! ## The window -/

/-- The last character is shown in a window with the top `b`. -/
def LastShown (s : Vi W) (b : ℤ) : Prop :=
  (countCursorPosFromScreenBegin2Dot (atTop s b)).1 < rows * columns

/-- In a window that is not below the last character, the count is that of the cells. -/
theorem lastShown_iff {b : ℤ} (hb : b ≤ s.endp - 1) :
    LastShown s b ↔ cells s.mem b (s.endp - 1) < rows * columns := by
  unfold LastShown
  rw [countCursorPos_eq, pulledBack_of_le hb]
  rfl

/-- `G` goes to the last character, and the window starts at a line. If the last line is not longer
than a screen, this is the first line from which the last character is shown. -/
def GoesToEnd (s : Vi W) : Prop :=
  ∃ b, Returns (fun fuel => dotTextEnd fuel s) { s with dot := s.endp - 1, screenbegin := b } ∧
    0 ≤ b ∧ b ≤ s.endp - 1 ∧ LineStart s.mem b ∧
    (LastShown s (beginLine s.mem (s.endp - 1)) →
      IsLeast {b | 0 ≤ b ∧ b ≤ s.endp - 1 ∧ LineStart s.mem b ∧ LastShown s b} b)

/-- The text before the last character fills the screen, and its last line does not. -/
def FillsScreen (s : Vi W) : Prop :=
  rows * columns ≤ cells s.mem 0 (s.endp - 1) ∧
    cells s.mem (beginLine s.mem (s.endp - 1)) (s.endp - 1) < rows * columns

instance (s : Vi W) : Decidable (FillsScreen s) := inferInstanceAs (Decidable (_ ∧ _))

/-- The line below the one where the search ends is the first that shows the last character. -/
theorem isLeast_nextLine {b : ℤ} (h : Searched s b)
    (hlong : rows * columns ≤ cells s.mem b (s.endp - 1))
    (hlast : cells s.mem (beginLine s.mem (s.endp - 1)) (s.endp - 1) < rows * columns) :
    IsLeast {b | 0 ≤ b ∧ b ≤ s.endp - 1 ∧ LineStart s.mem b ∧ LastShown s b}
      (nextLine s.mem s.endp b) := by
  have hle := h.le
  have hlt : b < beginLine s.mem (s.endp - 1) := by
    by_contra hge
    have := cells_mono s.mem (not_lt.mp hge) hle
    omega
  obtain ⟨h1, h2⟩ := nextLine_le_beginLine (m := s.mem) (e := s.endp) h.nonneg hlt le_rfl
  have hend := beginLine_le s.mem (s.endp - 1)
  have hnext := nextLine_lineStart h.nonneg hlt le_rfl
  constructor
  · refine ⟨h.nonneg.trans h1.le, h2.trans hend, hnext, ?_⟩
    rw [lastShown_iff (h2.trans hend)]
    exact h.below _ hnext h1 (h2.trans hend)
  · rintro q ⟨-, hqe, hq, hshown⟩
    rw [lastShown_iff hqe] at hshown
    have hbq : b < q := by
      by_contra hge
      have := cells_mono s.mem (not_lt.mp hge) hle
      omega
    have hnext' := (nextLine_le_beginLine (m := s.mem) (e := s.endp) (q := q) h.nonneg
      (by rwa [hq.beginLine]) hqe).2
    rwa [hq.beginLine] at hnext'

/-- **The last character.** `G` does what it is meant to exactly if the text fills the screen, and
its last line does not.

**Proof sketch.** On a text with fewer cells than the screen the loop goes back to the start of the
text and for ever stays there (`dotTextEnd_diverges`). If the last line alone fills the screen, the
window ends within it (`dotTextEnd_lineStart_iff`). Otherwise the loop ends at a line from which the
rest of the text fills the screen, and the line behind it is the first from which it fits. -/
theorem goesToEnd_iff (s : Vi W) (h : 0 < s.endp) : GoesToEnd s ↔ FillsScreen s := by
  have hend := beginLine_le s.mem (s.endp - 1)
  constructor
  · rintro ⟨b, hret, -, -, hstart, -⟩
    obtain ⟨fuel, ht⟩ := hret.exists
    refine ⟨?_, (dotTextEnd_lineStart_iff ht).mp hstart⟩
    by_contra hshort
    exact not_returns_of_error (dotTextEnd_diverges h (not_le.mp hshort)) _ hret
  · rintro ⟨hlong, hlast⟩
    obtain ⟨b, hb, hlong', hloop⟩ := dotTextEnd_loop hlong (searched_last h)
    have hleast := isLeast_nextLine hb hlong' hlast
    obtain ⟨h0, hle, hstart, -⟩ := hleast.1
    refine ⟨_, ?_, h0, hle, hstart, fun _ => hleast⟩
    exact Returns.bind hloop (Returns.of_eq rfl)

/-- `goesToEnd_iff` for 24 empty lines and a character. -/
theorem goesToEnd_iff_lines :
    GoesToEnd (smallFile (List.replicate 24 NL ++ str "a")) :=
  (goesToEnd_iff _ (by decide)).mpr (by decide +kernel)

/-- `G` does not end in a file of one character. -/
theorem not_goesToEnd : ¬GoesToEnd (smallFile (str "a")) := by
  rintro ⟨b, hret, -⟩
  exact not_returns_of_error (dotTextEnd_diverges (by decide) (by decide +kernel)) _ hret

end HgXv6
