import HgXv6.Editor.State

set_option relaxedAutoImplicit false
set_option autoImplicit false

/-!
# Lines and the window

The pointer functions that move between lines, the count of screen cells from the top of the
window to the cursor, and the adjustment of the window to the cursor.

The adjustment is a loop that moves the top of the window down by one line until fewer than
`rows * columns` cells lie between it and the cursor; the count itself pulls the top back to the
cursor's line when it has moved past the cursor. The two movements chase each other for ever if
the cursor's line alone has too many cells before the cursor, unless the cursor is on the last
character of the text.

## Main definitions

* `HgXv6.cells` — the screen cells of a stretch of text.
* `HgXv6.countCursorPosFromScreenBegin2Dot`, `HgXv6.modifyScreenBegin` — the source functions.
* `HgXv6.WindowFits` — the condition under which the adjustment ends.
* `HgXv6.windowTop` — the top of the window it then makes.

## Main results

* `HgXv6.modifyScreenBegin_ensures` — what the adjustment returns, if it returns.
* `HgXv6.modifyScreenBegin_returns`, `HgXv6.modifyScreenBegin_diverges` — when it does.
-/

namespace HgXv6

open Prog

variable {W : Type} {m : ℤ → UInt8} {e p q : ℤ}

/-! ## Lines -/

/-- The start of a line is not after it. -/
theorem beginLine_le (m : ℤ → UInt8) (p : ℤ) : beginLine m p ≤ p := scanDown_le _ _ _

/-- The start of a line is in the text. -/
theorem beginLine_nonneg (m : ℤ → UInt8) (h : 0 ≤ p) : 0 ≤ beginLine m p := le_scanDown _ h

/-- Before the start of a line there is a newline. -/
theorem beginLine_start (h : 0 < beginLine m p) : m (beginLine m p - 1) = NL := by
  simpa [beginLine] using @scanDown_stop (fun q => m (q - 1) == NL) 0 p h

/-- Between the start of a line and a place on it there is no newline. -/
theorem ne_of_beginLine_le (h1 : beginLine m p ≤ q) (h2 : q < p) : m q ≠ NL := by
  have h := @scanDown_passed (fun q => m (q - 1) == NL) 0 p (q + 1)
    (by unfold beginLine at h1; omega) (by omega)
  simpa using h

/-- A place at or before the first character starts its own line. -/
theorem beginLine_of_le (m : ℤ → UInt8) (h : p ≤ 0) : beginLine m p = p := scanDown_of_le _ h

/-- The end of a line is not before it. -/
theorem le_endLine (m : ℤ → UInt8) (e p : ℤ) : p ≤ endLine m e p := le_scanUp _ _ _

/-- The end of a line is in the text. -/
theorem endLine_le (m : ℤ → UInt8) (h : p ≤ e - 1) : endLine m e p ≤ e - 1 := scanUp_le _ h

/-- A line ends at the last character or at a newline. -/
theorem endLine_stop (h : endLine m e p < e - 1) : m (endLine m e p) = NL := by
  simpa [endLine] using @scanUp_stop (fun q => m q == NL) (e - 1) p h

/-- Before the end of a line there is no newline on it. -/
theorem ne_of_lt_endLine (h1 : p ≤ q) (h2 : q < endLine m e p) : m q ≠ NL := by
  simpa using @scanUp_passed (fun q => m q == NL) _ _ _ h1 h2

/-- At or after the last character a line ends where it is. -/
theorem endLine_of_le (m : ℤ → UInt8) (h : e - 1 ≤ p) : endLine m e p = p := scanUp_of_le _ h

/-- The line of a place behind a character other than a newline starts where that of the
character does. -/
theorem beginLine_pred (h : 0 < p) (hp : m (p - 1) ≠ NL) :
    beginLine m p = beginLine m (p - 1) :=
  scanDown_of_not h (by simpa using hp)

/-- The line of a character other than a newline ends where that of the next one does. -/
theorem endLine_succ (h : p < e - 1) (hp : m p ≠ NL) : endLine m e p = endLine m e (p + 1) :=
  scanUp_of_not h (by simpa using hp)

/-- A line ends at its newline. -/
theorem endLine_newline (hp : m p = NL) : endLine m e p = p := scanUp_of_stop (by simpa using hp)

/-- A line ends at the first newline behind its places, or at the last character. -/
theorem endLine_eq (hpq : p ≤ q) (hq : q ≤ e - 1) (hne : ∀ r, p ≤ r → r < q → m r ≠ NL)
    (hstop : m q = NL ∨ q = e - 1) : endLine m e p = q := by
  have hle := le_endLine m e p
  have hlast := endLine_le m (e := e) (p := p) (by omega)
  rcases lt_trichotomy (endLine m e p) q with hlt | heq | hgt
  · exact absurd (endLine_stop (by omega)) (hne _ hle hlt)
  · exact heq
  · rcases hstop with hnl | hz
    · exact absurd hnl (ne_of_lt_endLine hpq hgt)
    · omega

/-- The next line is not before this one. -/
theorem le_nextLine (m : ℤ → UInt8) (e p : ℤ) : p ≤ nextLine m e p := by
  have := le_endLine m e p
  unfold nextLine
  dsimp only
  split_ifs <;> omega

/-- The next line is in the text. -/
theorem nextLine_le (m : ℤ → UInt8) (h : p ≤ e - 1) : nextLine m e p ≤ e - 1 := by
  have := endLine_le m h
  unfold nextLine
  dsimp only
  split_ifs <;> omega

/-- From a place before the start of the line of `q`, the next line starts after it, and not
after the line of `q`. -/
theorem nextLine_le_beginLine (hp : 0 ≤ p) (hpq : p < beginLine m q) (hq : q ≤ e - 1) :
    p < nextLine m e p ∧ nextLine m e p ≤ beginLine m q := by
  have hle := beginLine_le m q
  have hnl := beginLine_start (m := m) (p := q) (by omega)
  have h1 : endLine m e p ≤ beginLine m q - 1 := by
    by_contra hlt
    exact ne_of_lt_endLine (p := p) (q := beginLine m q - 1) (e := e) (by omega) (by omega) hnl
  have h2 := le_endLine m e p
  have h3 := endLine_stop (m := m) (e := e) (p := p) (by omega)
  unfold nextLine
  dsimp only
  rw [if_pos ⟨by omega, h3⟩]
  omega

/-- From a place on the line of `q`, the next line starts after `q`, unless `q` is the last
character. -/
theorem lt_nextLine (hp : beginLine m q ≤ p) (hq : q < e - 1) : q < nextLine m e p := by
  have h1 : q ≤ endLine m e p := by
    by_contra hlt
    have hstop := endLine_stop (m := m) (e := e) (p := p) (by omega)
    have hle := le_endLine m e p
    exact ne_of_beginLine_le (p := q) (q := endLine m e p) (by omega) (by omega) hstop
  unfold nextLine
  dsimp only
  by_cases h2 : endLine m e p < e - 1
  · rw [if_pos ⟨h2, endLine_stop h2⟩]
    omega
  · rw [if_neg (by tauto)]
    omega

/-- From a place on the last line the next line is the last character. -/
theorem nextLine_last (hp : beginLine m (e - 1) ≤ p) (hpe : p ≤ e - 1) :
    nextLine m e p = e - 1 := by
  have h1 : endLine m e p = e - 1 := by
    by_contra hne
    have hle := endLine_le m hpe
    have hle' := le_endLine m e p
    have hstop := endLine_stop (m := m) (e := e) (p := p) (by omega)
    exact ne_of_beginLine_le (p := e - 1) (q := endLine m e p) (by omega) (by omega) hstop
  unfold nextLine
  dsimp only
  rw [if_neg (by omega), h1]

/-! ## Counting cells -/

/-- The body of the counting loop, on the character `b`. -/
def cellStep (cnt : ℕ) (b : UInt8) : ℕ :=
  if chr ' ' ≤ b ∧ b ≤ chr '~' then cnt + 1
  else if b = TAB then cnt + TabLength
  else if b = NL then
    let cnt := cnt + 1
    if cnt % columns ≠ 0 then cnt / columns * columns + columns else cnt
  else cnt

/-- The cells from `p` to `q`, counted from column 0. -/
def cells (m : ℤ → UInt8) (p q : ℤ) : ℕ := (bytes m p (q - p).toNat).foldl cellStep 0

/-- Counting goes up. -/
theorem le_cellStep (cnt : ℕ) (b : UInt8) : cnt ≤ cellStep cnt b := by
  unfold cellStep TabLength columns
  dsimp only
  split_ifs <;> omega

/-- More cells before a character are more cells after it. -/
theorem cellStep_mono {c c' : ℕ} (h : c ≤ c') (b : UInt8) : cellStep c b ≤ cellStep c' b := by
  unfold cellStep TabLength columns
  dsimp only
  split_ifs <;> omega

/-- More cells before a stretch are more cells after it. -/
theorem foldl_cellStep_mono {c c' : ℕ} (h : c ≤ c') (bs : List UInt8) :
    bs.foldl cellStep c ≤ bs.foldl cellStep c' := by
  induction bs generalizing c c' with
  | nil => exact h
  | cons b bs ih => exact ih (cellStep_mono h b)

/-- Counting a stretch goes up. -/
theorem le_foldl_cellStep (c : ℕ) (bs : List UInt8) : c ≤ bs.foldl cellStep c := by
  induction bs generalizing c with
  | nil => exact le_rfl
  | cons b bs ih => exact (le_cellStep c b).trans (ih _)

/-- No cells lie between a place and itself, or a place before it. -/
theorem cells_of_le (m : ℤ → UInt8) (h : q ≤ p) : cells m p q = 0 := by
  have hz : (q - p).toNat = 0 := by omega
  simp [cells, hz]

/-- A stretch is not shorter than its last part. -/
theorem cells_mono {a : ℤ} (m : ℤ → UInt8) (hap : a ≤ p) (hpq : p ≤ q) :
    cells m p q ≤ cells m a q := by
  have hsplit : (q - a).toNat = (p - a).toNat + (q - p).toNat := by omega
  have hp : a + ((p - a).toNat : ℤ) = p := by omega
  unfold cells
  rw [hsplit, bytes_append, List.foldl_append, hp]
  exact foldl_cellStep_mono (Nat.zero_le _) _

/-- `countCursorPosFromScreenBegin2Dot`: the cells from the top of the window to the cursor. The
top is moved to the start of the cursor's line if the cursor is above it. -/
def countCursorPosFromScreenBegin2Dot (s : Vi W) : ℕ × Vi W :=
  let s := if s.screenbegin > s.dot then { s with screenbegin := beginLine s.mem s.dot } else s
  (cells s.mem s.screenbegin s.dot, s)

/-- The top of the window after the count. -/
def pulledBack (s : Vi W) : ℤ :=
  if s.screenbegin > s.dot then beginLine s.mem s.dot else s.screenbegin

/-- The count changes the top of the window only. -/
theorem countCursorPos_eq (s : Vi W) : countCursorPosFromScreenBegin2Dot s =
    (cells s.mem (pulledBack s) s.dot, { s with screenbegin := pulledBack s }) := by
  unfold countCursorPosFromScreenBegin2Dot pulledBack
  dsimp only
  split_ifs <;> rfl

/-- After the count the cursor is not above the window. -/
theorem pulledBack_le (s : Vi W) : pulledBack s ≤ s.dot := by
  have := beginLine_le s.mem s.dot
  unfold pulledBack
  split_ifs <;> omega

/-- The count does not move the window out of the text. -/
theorem pulledBack_nonneg {s : Vi W} (hsb : 0 ≤ s.screenbegin) (hdot : 0 ≤ s.dot) :
    0 ≤ pulledBack s := by
  unfold pulledBack
  split_ifs
  · exact beginLine_nonneg _ hdot
  · exact hsb

/-- A window that does not lie below the cursor stays. -/
theorem pulledBack_of_le {s : Vi W} (h : s.screenbegin ≤ s.dot) :
    pulledBack s = s.screenbegin := if_neg (by omega)

/-! ## Adjusting the window -/

/-- One pass of the loop of `modifyScreenBegin`, its test included. -/
def modifyScreenBeginBody (s : Vi W) : Except Stop (Vi W × Bool) :=
  let (cnt, s) := countCursorPosFromScreenBegin2Dot s
  if cnt ≥ rows * columns then
    .ok ({ s with screenbegin := nextLine s.mem s.endp s.screenbegin }, true)
  else .ok (s, false)

/-- `modifyScreenBegin`: move the window so that the cursor is in it. -/
def modifyScreenBegin (fuel : ℕ) (s : Vi W) : Except Stop (Vi W) :=
  let s := if s.dot < s.screenbegin then { s with screenbegin := beginLine s.mem s.dot } else s
  loopFuel .loops modifyScreenBeginBody fuel s

/-- A pass of the loop, in terms of the window the count sees. -/
theorem modifyScreenBeginBody_eq (s : Vi W) : modifyScreenBeginBody s =
    if rows * columns ≤ cells s.mem (pulledBack s) s.dot then
      .ok ({ s with screenbegin := nextLine s.mem s.endp (pulledBack s) }, true)
    else .ok ({ s with screenbegin := pulledBack s }, false) := by
  simp only [modifyScreenBeginBody, countCursorPos_eq, ge_iff_le]

/-- The adjustment starts from the window the count sees. -/
theorem modifyScreenBegin_eq (fuel : ℕ) (s : Vi W) : modifyScreenBegin fuel s =
    loopFuel .loops modifyScreenBeginBody fuel { s with screenbegin := pulledBack s } := by
  unfold modifyScreenBegin pulledBack
  dsimp only
  simp only [gt_iff_lt]
  split_ifs <;> rfl

/-- The top of the window `b` that an adjustment makes of the top `sb`. -/
structure Adjusted (m : ℤ → UInt8) (dot sb b : ℤ) : Prop where
  /-- the cursor is not above the window -/
  le : b ≤ dot
  /-- the cursor is not below it -/
  lt : cells m b dot < rows * columns
  nonneg : 0 ≤ sb → 0 ≤ dot → 0 ≤ b
  /-- a window that shows the cursor is not moved -/
  stay : sb ≤ dot → cells m sb dot < rows * columns → b = sb

/-- What the adjustment returns: the window is adjusted, and nothing else has changed.

**Proof sketch.** The invariant rule for the loop: only `screenbegin` has changed, it is not
negative if it and the cursor were not, and it is the old one if the cursor was in the window
already. A pass pulls the window back to the cursor if it is behind it, and then either finds the
cursor within the window and stops, or moves the window down by a line; in a window that showed the
cursor the first pass stops. -/
theorem modifyScreenBegin_ensures (fuel : ℕ) (s : Vi W) :
    Ensures (modifyScreenBegin fuel s) fun s' => ∃ b, s' = { s with screenbegin := b } ∧
      Adjusted s.mem s.dot s.screenbegin b := by
  rw [modifyScreenBegin_eq]
  refine loopFuel_ensures
    (fun t => ∃ b, t = { s with screenbegin := b } ∧ (0 ≤ s.screenbegin → 0 ≤ s.dot → 0 ≤ b) ∧
      (s.screenbegin ≤ s.dot → cells s.mem s.screenbegin s.dot < rows * columns →
        b = s.screenbegin))
    _ ?_ fuel _ ⟨pulledBack s, rfl, pulledBack_nonneg, fun h1 _ => pulledBack_of_le h1⟩
  · rintro _ ⟨b, rfl, hb, hstay⟩
    set t : Vi W := { s with screenbegin := b }
    have ht : 0 ≤ s.screenbegin → 0 ≤ s.dot → 0 ≤ pulledBack t := fun h1 h2 =>
      pulledBack_nonneg (hb h1 h2) h2
    have htstay : s.screenbegin ≤ s.dot → cells s.mem s.screenbegin s.dot < rows * columns →
        pulledBack t = s.screenbegin := fun h1 h2 => by
      have := hstay h1 h2
      rw [pulledBack_of_le (show t.screenbegin ≤ t.dot by dsimp only [t]; omega)]
      exact this
    rw [modifyScreenBeginBody_eq]
    split_ifs with hc
    · simp only [ensures_ok, if_true]
      refine ⟨_, rfl, fun h1 h2 => (ht h1 h2).trans (le_nextLine _ _ _), fun h1 h2 => ?_⟩
      rw [htstay h1 h2] at hc
      exact absurd hc (not_le.mpr h2)
    · simp only [ensures_ok, Bool.false_eq_true, if_false]
      exact ⟨_, rfl, pulledBack_le t, not_le.mp hc, ht, htstay⟩

/-- A window that shows the cursor is not moved. -/
theorem modifyScreenBegin_of_fits {s : Vi W} (h1 : s.screenbegin ≤ s.dot)
    (h2 : cells s.mem s.screenbegin s.dot < rows * columns) :
    Returns (fun fuel => modifyScreenBegin fuel s) s := by
  simp only [modifyScreenBegin_eq, pulledBack_of_le h1]
  refine loopFuel_returns_of_stop ?_
  rw [modifyScreenBeginBody_eq, if_neg (by rw [pulledBack_of_le h1]; exact not_le.mpr h2),
    pulledBack_of_le h1]

/-- The part of the cursor's line that counts: from the top of the window, if that lies on the
line at or before the cursor, else from the start of the line. -/
def lineTop (m : ℤ → UInt8) (sb dot : ℤ) : ℤ :=
  if beginLine m dot ≤ sb ∧ sb ≤ dot then sb else beginLine m dot

/-- The cursor's line leaves room for the cursor, or the cursor is on the last character. -/
def WindowFits (m : ℤ → UInt8) (e sb dot : ℤ) : Prop :=
  cells m (lineTop m sb dot) dot < rows * columns ∨ dot = e - 1

instance (m : ℤ → UInt8) (e sb dot : ℤ) : Decidable (WindowFits m e sb dot) :=
  inferInstanceAs (Decidable (_ ∨ _))

/-- The count does not change whether the cursor's line leaves room. -/
theorem windowFits_pulledBack (s : Vi W) :
    WindowFits s.mem s.endp (pulledBack s) s.dot ↔
      WindowFits s.mem s.endp s.screenbegin s.dot := by
  have hle := beginLine_le s.mem s.dot
  unfold WindowFits lineTop pulledBack
  by_cases h : s.screenbegin > s.dot
  · rw [if_pos h, if_pos ⟨le_rfl, hle⟩, if_neg (by omega)]
  · rw [if_neg h]

/-- What counts of the cursor's line is in the window. -/
theorem cells_lineTop_le {b dot : ℤ} (hb : b ≤ dot) :
    cells m (lineTop m b dot) dot ≤ cells m b dot := by
  refine cells_mono m ?_ ?_
  · unfold lineTop
    split_ifs with hin
    · exact le_rfl
    · omega
  · unfold lineTop
    split_ifs
    · exact hb
    · exact beginLine_le m dot

/-- A window that shows the cursor leaves room on its line. -/
theorem windowFits_of_lt {b dot : ℤ} (hb : b ≤ dot) (h : cells m b dot < rows * columns) :
    WindowFits m e b dot :=
  .inl ((cells_lineTop_le hb).trans_lt h)

/-- No less of the cursor's line counts when the window goes to the next line: if that is behind
the cursor, the window is pulled back to the start of the cursor's line. -/
theorem cells_lineTop_nextLine {b dot : ℤ} (hb : 0 ≤ b) (hbdot : b ≤ dot) (hend : dot < e - 1) :
    cells m (lineTop m b dot) dot ≤ cells m (lineTop m (nextLine m e b) dot) dot := by
  have hle := beginLine_le m dot
  by_cases hLb : beginLine m dot ≤ b
  · have hgt := lt_nextLine hLb hend
    have hnew : lineTop m (nextLine m e b) dot = beginLine m dot := if_neg (by omega)
    rw [hnew, lineTop, if_pos ⟨hLb, hbdot⟩]
    exact cells_mono _ hLb hbdot
  · obtain ⟨h1, h2⟩ := nextLine_le_beginLine (m := m) (e := e) (p := b) (q := dot) hb (by omega)
      hend.le
    have hnew : lineTop m (nextLine m e b) dot = beginLine m dot := by
      unfold lineTop
      split_ifs <;> omega
    rw [hnew, lineTop, if_neg (by omega)]

/-- While the window does not show the cursor, and the cursor's line leaves room, the next line
is nearer to the cursor and not below it. -/
theorem nextLine_windowFits {b dot : ℤ} (hb : 0 ≤ b) (hbdot : b ≤ dot) (hend : dot ≤ e - 1)
    (hfits : WindowFits m e b dot) (hc : rows * columns ≤ cells m b dot) :
    b < nextLine m e b ∧ nextLine m e b ≤ dot ∧ WindowFits m e (nextLine m e b) dot := by
  by_cases hLb : beginLine m dot ≤ b
  · -- the cursor is the last character, and the top moves to it
    have hlast : dot = e - 1 := by
      rcases hfits with h | h
      · rw [lineTop, if_pos ⟨hLb, hbdot⟩] at h
        exact absurd hc (not_le.mpr h)
      · exact h
    have hnext : nextLine m e b = dot := by
      rw [hlast]
      exact nextLine_last (by rw [← hlast]; exact hLb) (by omega)
    have hne : b ≠ dot := by
      rintro rfl
      rw [cells_of_le _ le_rfl] at hc
      exact absurd hc (by decide)
    rw [hnext]
    exact ⟨by omega, le_rfl, .inr hlast⟩
  · -- the top moves to a line start at or above the cursor's line
    obtain ⟨h1, h2⟩ := nextLine_le_beginLine (m := m) (e := e) (p := b) (q := dot) hb
      (by omega) hend
    have hle := beginLine_le m dot
    refine ⟨h1, by omega, ?_⟩
    unfold WindowFits lineTop at hfits ⊢
    rw [if_neg (by omega)] at hfits
    split_ifs with hin
    · rwa [show nextLine m e b = beginLine m dot by omega]
    · exact hfits

/-- The top the adjustment makes of a top `b` that is not below the cursor: line by line down,
until the window shows the cursor. -/
def windowTop (m : ℤ → UInt8) (e dot b : ℤ) : ℤ :=
  iterWhile (fun b => decide (rows * columns ≤ cells m b dot)) (nextLine m e) (dot - b).toNat b

/-- A window that shows the cursor keeps its top. -/
theorem windowTop_of_lt {b dot : ℤ} (h : cells m b dot < rows * columns) :
    windowTop m e dot b = b :=
  iterWhile_of_not _ _ (decide_eq_false (not_le.mpr h))

/-- If the cursor's line leaves room, the adjustment returns.

**Proof sketch.** While the top of the window is above the cursor's line, every pass moves it
down and not past the start of that line, where the loop ends if the line leaves room. If the
cursor is on the last character the next pass moves the top to the cursor itself. -/
theorem modifyScreenBegin_returns {s : Vi W} (hsb : 0 ≤ s.screenbegin) (hdot : 0 ≤ s.dot)
    (hend : s.dot ≤ s.endp - 1) (hfits : WindowFits s.mem s.endp s.screenbegin s.dot) :
    Returns (fun fuel => modifyScreenBegin fuel s)
      { s with screenbegin := windowTop s.mem s.endp s.dot (pulledBack s) } := by
  simp only [modifyScreenBegin_eq]
  let below : ℤ → Bool := fun b => decide (rows * columns ≤ cells s.mem b s.dot)
  suffices h : ∀ (n : ℕ) (b : ℤ), (s.dot - b).toNat ≤ n → 0 ≤ b → b ≤ s.dot →
      WindowFits s.mem s.endp b s.dot → ∀ top, iterWhile below (nextLine s.mem s.endp) n b = top →
      Returns (fun fuel => loopFuel .loops modifyScreenBeginBody fuel
        { s with screenbegin := b }) { s with screenbegin := top } by
    exact h _ _ le_rfl (pulledBack_nonneg hsb hdot) (pulledBack_le s)
      ((windowFits_pulledBack s).mpr hfits) _ rfl
  intro n
  induction n with
  | zero =>
    rintro b hn hb hbdot hroom _ rfl
    obtain rfl : b = s.dot := by omega
    refine loopFuel_returns_of_stop ?_
    rw [modifyScreenBeginBody_eq, pulledBack_of_le hbdot, cells_of_le _ le_rfl]
    exact if_neg (by decide)
  | succ n ih =>
    rintro b hn hb hbdot hroom _ rfl
    by_cases hc : rows * columns ≤ cells s.mem b s.dot
    · obtain ⟨h1, h2, h3⟩ := nextLine_windowFits hb hbdot hend hroom hc
      simp only [iterWhile, below, hc, decide_true, if_true]
      refine loopFuel_returns_of_step ?_ (ih _ (by omega) (by omega) h2 h3 _ rfl)
      rw [modifyScreenBeginBody_eq, pulledBack_of_le hbdot]
      exact if_pos hc
    · simp only [iterWhile, below, hc, decide_false, Bool.false_eq_true, if_false]
      refine loopFuel_returns_of_stop ?_
      rw [modifyScreenBeginBody_eq, pulledBack_of_le hbdot]
      exact if_neg hc

/-- If the cursor's line leaves no room, the adjustment does not end.

**Proof sketch.** The loop reaches the cursor's line with too many cells before the cursor. The
next line starts after the cursor, so the count pulls the top back to the start of the line, and
the pass after it sees the same cells again. -/
theorem modifyScreenBegin_diverges {s : Vi W} (hsb : 0 ≤ s.screenbegin) (hdot : 0 ≤ s.dot)
    (hend : s.dot ≤ s.endp - 1) (hfits : ¬WindowFits s.mem s.endp s.screenbegin s.dot)
    (fuel : ℕ) : modifyScreenBegin fuel s = .error .loops := by
  rw [modifyScreenBegin_eq]
  refine loopFuel_diverges (fun t => ∃ b, t = { s with screenbegin := b } ∧ 0 ≤ b ∧
    ¬WindowFits s.mem s.endp b s.dot) ?_ fuel _
    ⟨_, rfl, pulledBack_nonneg hsb hdot, by rwa [windowFits_pulledBack]⟩
  rintro _ ⟨b, rfl, hb0, hb⟩
  set t : Vi W := { s with screenbegin := b } with ht
  have hp : ¬WindowFits s.mem s.endp (pulledBack t) s.dot :=
    fun h => hb ((windowFits_pulledBack t).mp h)
  have hp0 : 0 ≤ pulledBack t := pulledBack_nonneg hb0 hdot
  have hpdot : pulledBack t ≤ s.dot := pulledBack_le t
  simp only [WindowFits, not_or, not_lt] at hp
  obtain ⟨hp1, hp2⟩ := hp
  refine ⟨{ s with screenbegin := nextLine s.mem s.endp (pulledBack t) }, ?_, _, rfl,
    hp0.trans (le_nextLine _ _ _), ?_⟩
  · rw [modifyScreenBeginBody_eq]
    exact if_pos (hp1.trans (cells_lineTop_le hpdot))
  · rw [WindowFits, not_or, not_lt]
    exact ⟨hp1.trans (cells_lineTop_nextLine hp0 hpdot (lt_of_le_of_ne hend hp2)), hp2⟩

end HgXv6
