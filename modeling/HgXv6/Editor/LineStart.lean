import HgXv6.Editor.Fresh

set_option relaxedAutoImplicit false
set_option autoImplicit false

/-!
# The adjustment of the window and the starts of lines

Where the top of the window comes from. The adjustment and the moves between lines put it at the
start of a line, but for one call: `next_line` on the last line returns the last character, which
the adjustment and `G` take for the start of a line. PageUp on the first line and PageDown on the
last line do not move the cursor, and put the top wherever it is on that line.

## Main definitions

* `HgXv6.LineStart` — the start of a line.
* `HgXv6.Lined` — the window starts at a line, and the cursor is not before the text.
* `HgXv6.TopFits` — the adjustment stops before it leaves the last line.
* `HgXv6.MoveAligns` — the states in which a move leaves the window at the start of a line.

## Main results

* `HgXv6.modifyScreenBegin_lineStart_iff` — the adjustment finds the start of a line exactly if
  it fits.
* `HgXv6.pageUp_lineStart_iff`, `HgXv6.pageDown_lineStart_iff`, `HgXv6.dotTextEnd_lineStart_iff`
  — when PageUp, PageDown and `G` do.
* `HgXv6.doMove_lined` — the moves in these states.
-/

namespace HgXv6

open Prog

variable {W : Type} {m : ℤ → UInt8} {e p q : ℤ}

/-! ## Starts of lines -/

/-- `p` is the start of the text, or the byte before it is a newline. -/
def LineStart (m : ℤ → UInt8) (p : ℤ) : Prop := p = 0 ∨ m (p - 1) = NL

instance (m : ℤ → UInt8) (p : ℤ) : Decidable (LineStart m p) := inferInstanceAs (Decidable (_ ∨ _))

/-- The start of the line of a place of the text is one. -/
theorem beginLine_lineStart (hp : 0 ≤ p) : LineStart m (beginLine m p) := by
  rcases (beginLine_nonneg m hp).eq_or_lt with h | h
  · exact .inl h.symm
  · exact .inr (beginLine_start h)

/-- A start of a line is the start of its line. -/
theorem LineStart.beginLine (h : LineStart m p) : HgXv6.beginLine m p = p := by
  rcases h with rfl | h
  · exact beginLine_of_le m le_rfl
  · by_contra hne
    have hle := beginLine_le m p
    exact ne_of_beginLine_le (p := p) (q := p - 1) (m := m) (by omega) (by omega) h

/-- After a newline a line starts. -/
theorem lineStart_succ (h : m p = NL) : LineStart m (p + 1) :=
  .inr (by rwa [add_sub_cancel_right])

/-- Below a place where two texts agree they have the same starts of lines. -/
theorem LineStart.congr {m' : ℤ → UInt8} (h : LineStart m p) (heq : ∀ r < p, m' r = m r) :
    LineStart m' p := by
  rcases h with rfl | h
  · exact .inl rfl
  · exact .inr ((heq _ (by omega)).trans h)

/-- From above the line of a place of the text the next line starts at a line. -/
theorem nextLine_lineStart (hp : 0 ≤ p) (hpq : p < beginLine m q) (hq : q ≤ e - 1) :
    LineStart m (nextLine m e p) := by
  obtain ⟨h1, h2⟩ := nextLine_le_beginLine (m := m) (e := e) hp hpq hq
  have hle := beginLine_le m q
  have hend := le_endLine m e p
  unfold nextLine at h1 h2 ⊢
  dsimp only at h1 h2 ⊢
  split_ifs at h1 h2 ⊢ with hnl
  · exact lineStart_succ hnl.2
  · -- the line of `p` does not end before the line of `q` starts
    exfalso
    have hstart := beginLine_start (m := m) (p := q) (by omega)
    have hlt : endLine m e p ≤ beginLine m q - 1 := by
      by_contra hgt
      exact ne_of_lt_endLine (p := p) (q := beginLine m q - 1) (e := e) (by omega) (by omega)
        hstart
    exact hnl ⟨by omega, endLine_stop (by omega)⟩

/-! ## The adjustment of the window -/

/-- The invariant inside a command: the cursor is not before the text, and the window starts at a
line. -/
structure Lined (s : Vi W) : Prop where
  dot : 0 ≤ s.dot
  nonneg : 0 ≤ s.screenbegin
  start : LineStart s.mem s.screenbegin

/-- The last line on which the adjustment may have to put the top of the window: that of the
cursor, or the last line of the text if the cursor is behind it. -/
def lastTop (s : Vi W) : ℤ := beginLine s.mem (min s.dot (s.endp - 1))

/-- The adjustment ends on a line: the window shows the cursor already, or would if it started at
the last line in question. -/
def TopFits (s : Vi W) : Prop :=
  cells s.mem (pulledBack s) s.dot < rows * columns ∨
    cells s.mem (lastTop s) s.dot < rows * columns

/-- What the count makes of the top of the window starts at a line. -/
theorem Lined.pulledBack {s : Vi W} (h : Lined s) :
    0 ≤ HgXv6.pulledBack s ∧ LineStart s.mem (HgXv6.pulledBack s) := by
  unfold HgXv6.pulledBack
  split_ifs
  · exact ⟨beginLine_nonneg _ h.dot, beginLine_lineStart h.dot⟩
  · exact ⟨h.nonneg, h.start⟩

/-- The top is moved down from above the last line in question, to the start of a line. -/
theorem Lined.nextLine {s : Vi W} (h : Lined s) (hfits : TopFits s)
    (hc : rows * columns ≤ cells s.mem (HgXv6.pulledBack s) s.dot) :
    Lined { s with screenbegin := HgXv6.nextLine s.mem s.endp (HgXv6.pulledBack s) } := by
  obtain ⟨h0, -⟩ := h.pulledBack
  have hroom : cells s.mem (lastTop s) s.dot < rows * columns :=
    hfits.resolve_left (not_lt.mpr hc)
  have hlt : HgXv6.pulledBack s < lastTop s := by
    by_contra hge
    have := cells_mono s.mem (not_lt.mp hge) (pulledBack_le s)
    omega
  exact ⟨h.dot, h0.trans (le_nextLine _ _ _), nextLine_lineStart h0 hlt (by omega)⟩

/-- The window shows the cursor. -/
structure InView (s : Vi W) : Prop where
  le : s.screenbegin ≤ s.dot
  lt : cells s.mem s.screenbegin s.dot < rows * columns

/-- A window that shows the cursor fits. -/
theorem InView.topFits {s : Vi W} (h : InView s) : TopFits s :=
  .inl (by rw [pulledBack_of_le h.le]; exact h.lt)

/-- The adjustment keeps the invariant if it fits. -/
theorem modifyScreenBegin_lined {s : Vi W} (h : Lined s) (hfits : TopFits s) (fuel : ℕ) :
    Ensures (modifyScreenBegin fuel s) Lined := by
  rw [modifyScreenBegin_eq]
  have hpulled := h.pulledBack
  refine loopFuel_ensures (fun t => Lined t ∧ TopFits t) _ (fun t ht => ?_) fuel _
    ⟨⟨h.dot, hpulled.1, hpulled.2⟩, ?_⟩
  · rw [modifyScreenBeginBody_eq]
    split_ifs with hc
    · simp only [ensures_ok, if_true]
      exact ⟨ht.1.nextLine ht.2 hc, .inr (ht.2.resolve_left (not_lt.mpr hc))⟩
    · simp only [ensures_ok, Bool.false_eq_true, if_false]
      exact ⟨ht.1.dot, ht.1.pulledBack.1, ht.1.pulledBack.2⟩
  · rcases hfits with hlt | hlt
    · exact InView.topFits ⟨pulledBack_le s, hlt⟩
    · exact .inr hlt

/-- The last line in question is on the text, or behind it are no other lines. -/
theorem lastTop_le (s : Vi W) : lastTop s ≤ s.dot ∧ lastTop s ≤ s.endp - 1 := by
  have := beginLine_le s.mem (min s.dot (s.endp - 1))
  unfold lastTop
  omega

/-- A top from which the adjustment does not get to the line it needs: the start of a line with
too many cells to the cursor, or the last character. -/
def Missed (s : Vi W) (b : ℤ) : Prop :=
  b ≤ s.dot ∧ (0 ≤ b ∧ LineStart s.mem b ∧ rows * columns ≤ cells s.mem b s.dot ∨
    b = s.endp - 1 ∧ lastTop s ≠ s.endp - 1)

/-- The start of the cursor's line is such a top if it is the last line in question. -/
theorem missed_lastTop {s : Vi W} (h : Lined s) (hend : s.dot ≤ s.endp - 1)
    (hlast : rows * columns ≤ cells s.mem (lastTop s) s.dot) :
    Missed s (beginLine s.mem s.dot) := by
  have heq : lastTop s = beginLine s.mem s.dot := by rw [lastTop, min_eq_left hend]
  rw [heq] at hlast
  exact ⟨beginLine_le _ _, .inl ⟨beginLine_nonneg _ h.dot, beginLine_lineStart h.dot, hlast⟩⟩

/-- The next line, from the start of a line with too many cells to the cursor.

**Proof sketch.** From a line above the last one in question it is a line not below that one.
From the last one itself it lies behind the cursor, and the count goes back, or, if no line
follows, it is the last character. Behind the end of the text nothing moves. -/
theorem missed_nextLine {s : Vi W} (h : Lined s)
    (hlast : rows * columns ≤ cells s.mem (lastTop s) s.dot) {b : ℤ} (hb : b ≤ s.dot)
    (h0 : 0 ≤ b) (hstart : LineStart s.mem b) (hc : rows * columns ≤ cells s.mem b s.dot) :
    Missed s (pulledBack { s with screenbegin := nextLine s.mem s.endp b }) := by
  obtain ⟨hle, hle'⟩ := lastTop_le s
  by_cases hlt : b < lastTop s
  · obtain ⟨h1, h2⟩ := nextLine_le_beginLine (m := s.mem) (e := s.endp) h0 hlt (by omega)
    have hnext : nextLine s.mem s.endp b ≤ lastTop s := h2
    rw [pulledBack_of_le (by dsimp only; omega)]
    exact ⟨by dsimp only; omega, .inl ⟨by dsimp only; omega, nextLine_lineStart h0 hlt (by omega),
      hlast.trans (cells_mono _ hnext hle)⟩⟩
  · by_cases hend : s.dot < s.endp - 1
    · -- the next line lies behind the cursor
      have heq : lastTop s = beginLine s.mem s.dot := by rw [lastTop, min_eq_left hend.le]
      have hgt := lt_nextLine (m := s.mem) (e := s.endp) (p := b) (q := s.dot) (by omega) hend
      rw [pulledBack, if_pos (by dsimp only; omega)]
      exact missed_lastTop h hend.le hlast
    · have heq : lastTop s = beginLine s.mem (s.endp - 1) := by
        rw [lastTop, min_eq_right (by omega)]
      by_cases hbe : b ≤ s.endp - 1
      · rw [nextLine_last (by omega) hbe, pulledBack_of_le (by dsimp only; omega)]
        refine ⟨by dsimp only; omega, ?_⟩
        by_cases hself : lastTop s = s.endp - 1
        · left
          dsimp only
          rw [← hself]
          have hbeq : b = lastTop s := by omega
          exact ⟨by omega, hbeq ▸ hstart, hlast⟩
        · exact .inr ⟨rfl, hself⟩
      · have hself : nextLine s.mem s.endp b = b := by
          unfold nextLine
          rw [endLine_of_le s.mem (by omega)]
          exact if_neg (by omega)
        rw [hself, pulledBack_of_le hb]
        exact ⟨hb, .inl ⟨h0, hstart, hc⟩⟩

/-- Where the adjustment does not fit, it does not end, or ends on the last character, which then
does not start a line. -/
theorem modifyScreenBegin_not_lineStart {s : Vi W} (h : Lined s) (hfits : ¬TopFits s)
    (fuel : ℕ) : Ensures (modifyScreenBegin fuel s) fun t => ¬LineStart t.mem t.screenbegin := by
  rw [modifyScreenBegin_eq]
  obtain ⟨hmany, hlast⟩ := not_or.mp hfits
  rw [not_lt] at hmany hlast
  refine loopFuel_ensures (fun t => ∃ b, t = { s with screenbegin := b } ∧
    Missed s (pulledBack t)) _ ?_ fuel _ ⟨pulledBack s, rfl, ?_⟩
  · rintro _ ⟨b, rfl, hle, hb⟩
    rw [modifyScreenBeginBody_eq]
    generalize pulledBack { s with screenbegin := b } = b' at hle hb
    rcases hb with ⟨h0, hstart, hc⟩ | ⟨rfl, hne⟩
    · rw [if_pos hc]
      simp only [ensures_ok, if_true]
      exact ⟨_, rfl, missed_nextLine h hlast hle h0 hstart hc⟩
    · have heq : lastTop s = beginLine s.mem (s.endp - 1) := by
        rw [lastTop, min_eq_right (by omega)]
      split_ifs with hc
      · simp only [ensures_ok, if_true]
        refine ⟨_, rfl, ?_⟩
        rw [nextLine_last (beginLine_le _ _) le_rfl, pulledBack_of_le (by dsimp only; omega)]
        exact ⟨hle, .inr ⟨rfl, hne⟩⟩
      · simp only [ensures_ok, Bool.false_eq_true, if_false]
        exact fun hstart => hne (heq.trans hstart.beginLine)
  · rw [pulledBack_of_le (pulledBack_le s)]
    exact ⟨pulledBack_le s, .inl ⟨h.pulledBack.1, h.pulledBack.2, hmany⟩⟩

/-- The adjustment that returns has found the start of a line exactly if it fits. -/
theorem modifyScreenBegin_lineStart_iff {s t : Vi W} {fuel : ℕ} (h : Lined s)
    (ht : modifyScreenBegin fuel s = .ok t) : LineStart t.mem t.screenbegin ↔ TopFits s := by
  constructor
  · intro hstart
    by_contra hfits
    exact modifyScreenBegin_not_lineStart h hfits fuel t ht hstart
  · intro hfits
    exact (modifyScreenBegin_lined h hfits fuel t ht).start

/-! ## Redraw and synchronisation -/

/-- A change of nothing but what is not text, cursor or window. -/
theorem Lined.congr {s t : Vi W} (h : Lined s) (hmem : t.mem = s.mem) (hdot : t.dot = s.dot)
    (hsb : t.screenbegin = s.screenbegin) : Lined t :=
  ⟨hdot ▸ h.dot, hsb ▸ h.nonneg, by rw [hmem, hsb]; exact h.start⟩

/-- A redraw makes the adjustment of the window. -/
theorem redraw_lined {s : Vi W} (h : Lined s) (hfits : TopFits s) (fuel : ℕ) :
    Ensures (redraw fuel s) Lined := by
  have hclear : Lined { s with cga := clearScreen s.cga } := h.congr rfl rfl rfl
  refine Ensures.bind (modifyScreenBegin_lined hclear hfits fuel) fun t ht => ?_
  refine Ensures.bind (strlen_ensures _ _ fuel) fun n _ => ?_
  refine (draw_ensures _ t).mono ?_
  rintro _ ⟨c, -, rfl⟩
  exact ht.congr rfl rfl rfl

/-- A synchronisation makes the adjustment of the window; a redraw after it finds the window as
it should be. -/
theorem synchronize_lined {s : Vi W} (h : Lined s) (hfits : TopFits s) (fuel : ℕ) :
    Ensures (synchronize fuel s) Lined := by
  refine Ensures.bind (P := fun t => Lined t ∧ TopFits t) ?_ ?_
  · intro t ht
    have hlined := modifyScreenBegin_lined h hfits fuel t ht
    obtain ⟨b, rfl, hb⟩ := modifyScreenBegin_ensures fuel s t ht
    exact ⟨hlined, InView.topFits ⟨hb.le, hb.lt⟩⟩
  · rintro t ⟨ht, htfits⟩
    refine Ensures.bind (P := Lined) ?_ fun u hu => ?_
    · have hsyn : Lined { t with synScreenbegin := some t.screenbegin } := ht.congr rfl rfl rfl
      split_ifs
      · exact redraw_lined hsyn htfits fuel
      · exact (ensures_ok _ _).mpr ht
    · rw [countCursorPos_eq]
      refine (moveCursor_ensures _ _).mono ?_
      rintro _ ⟨c, rfl, -⟩
      exact ⟨hu.dot, hu.pulledBack.1, hu.pulledBack.2⟩

/-- A redraw and a synchronisation. -/
theorem redraw_synchronize_lined {s : Vi W} (h : Lined s) (hfits : TopFits s) (fuel : ℕ) :
    Ensures (redraw fuel s >>= synchronize fuel) Lined := by
  refine Ensures.bind (P := fun t => Lined t ∧ TopFits t) ?_
    fun t ht => synchronize_lined ht.1 ht.2 fuel
  intro t ht
  have hlined := redraw_lined h hfits fuel t ht
  have hr := redraw_redrawn ht
  exact ⟨hlined, InView.topFits ⟨hr.le, hr.lt⟩⟩

/-! ## Edits -/

/-- From `s` to `t` the window has not moved, and the text below `p` has not changed. -/
def EditedFrom (p : ℤ) (s t : Vi W) : Prop :=
  t.screenbegin = s.screenbegin ∧ ∀ q < p, t.mem q = s.mem q

theorem EditedFrom.trans {p : ℤ} {s t u : Vi W} (h : EditedFrom p s t) (h' : EditedFrom p t u) :
    EditedFrom p s u :=
  ⟨h'.1.trans h.1, fun q hq => (h'.2 q hq).trans (h.2 q hq)⟩

theorem makeHoleAdd_editedFrom (p : ℤ) (n : ℕ) (s : Vi W) : EditedFrom p s (makeHoleAdd p n s) := by
  unfold makeHoleAdd
  split_ifs
  · exact ⟨rfl, fun _ _ => rfl⟩
  · refine ⟨rfl, fun q hq => ?_⟩
    dsimp only [fill]
    rw [if_neg (by omega), copyDown_apply _ _ _ (by omega), if_neg (by omega)]

@[simp] theorem makeHoleAdd_dot (p : ℤ) (n : ℕ) (s : Vi W) : (makeHoleAdd p n s).dot = s.dot := by
  unfold makeHoleAdd
  split_ifs <;> rfl

theorem makeHoleDelete_editedFrom {a b : ℤ} (hab : a ≤ b) (s : Vi W) :
    EditedFrom a s (makeHoleDelete a b s) := by
  refine ⟨rfl, fun q hq => ?_⟩
  simp only [makeHoleDelete, if_neg (not_lt.mpr hab)]
  rw [copyUp_apply _ _ _ (by omega), if_neg (by omega)]

theorem store_editedFrom (p : ℤ) (c : UInt8) (s : Vi W) : EditedFrom p s (store p c s) := by
  refine ⟨rfl, fun q hq => ?_⟩
  exact Function.update_of_ne hq.ne _ _

theorem dotIncrease_editedFrom (p : ℤ) (s : Vi W) : EditedFrom p s (dotIncrease s) := by
  unfold dotIncrease
  split_ifs
  · exact ⟨rfl, fun _ _ => rfl⟩
  · exact ⟨rfl, fun _ _ => rfl⟩

/-- An edit that is not above the window keeps the invariant, whatever it does to the cursor. -/
theorem Lined.edited {s t : Vi W} (h : Lined s) {p : ℤ} (hp : s.screenbegin ≤ p)
    (hedit : EditedFrom p s t) (hdot : 0 ≤ t.dot) : Lined t := by
  obtain ⟨hsb, hmem⟩ := hedit
  refine ⟨hdot, hsb ▸ h.nonneg, ?_⟩
  rw [hsb]
  exact h.start.congr fun q hq => hmem q (by omega)

/-- An edit at or after the cursor changes no cells between the window and the cursor. -/
theorem InView.edited {s t : Vi W} (h : InView s) (hedit : EditedFrom s.dot s t)
    (hdot : t.dot = s.dot) : InView t := by
  obtain ⟨hsb, hmem⟩ := hedit
  have hcells : cells t.mem s.screenbegin s.dot = cells s.mem s.screenbegin s.dot := by
    unfold cells
    refine congrArg _ (bytes_congr fun k hk => hmem _ ?_)
    omega
  refine ⟨by rw [hsb, hdot]; exact h.le, ?_⟩
  rw [hsb, hdot, hcells]
  exact h.lt

/-! ## Moves -/

/-- A move of the cursor in the text alone. -/
theorem Lined.withDot {s : Vi W} (h : Lined s) {d : ℤ} (hd : 0 ≤ d) : Lined { s with dot := d } :=
  ⟨hd, h.nonneg, h.start⟩

/-- The window is put at the cursor. -/
theorem Lined.withTop {s : Vi W} (h : Lined s) (hstart : LineStart s.mem s.dot) :
    Lined { s with screenbegin := s.dot } :=
  ⟨h.dot, h.dot, hstart⟩

theorem Lined.dotIncrease {s : Vi W} (h : Lined s) : Lined (HgXv6.dotIncrease s) := by
  have := h.dot
  unfold HgXv6.dotIncrease
  split_ifs
  · exact h.withDot (by omega)
  · exact h

theorem Lined.dotDecrease {s : Vi W} (h : Lined s) : Lined (HgXv6.dotDecrease s) := by
  unfold HgXv6.dotDecrease
  split_ifs
  · exact h.withDot (by omega)
  · exact h

theorem Lined.dotLeft {s : Vi W} (h : Lined s) : Lined (HgXv6.dotLeft s) := by
  unfold HgXv6.dotLeft
  split_ifs
  · exact h.dotDecrease
  · exact h

theorem Lined.dotRight {s : Vi W} (h : Lined s) : Lined (HgXv6.dotRight s) := by
  unfold HgXv6.dotRight
  split_ifs
  · exact h.dotIncrease
  · exact h

/-- `dot_head` goes where `begin_line` points. -/
theorem dotHead_eq (s : Vi W) : dotHead s = { s with dot := beginLine s.mem s.dot } := by
  have h := @iterWhile_map (Vi W) ℤ
    (fun s => decide (s.dot > 0) && !(s.mem (s.dot - 1) == NL)) dotDecrease
    (fun q => decide (0 < q) && !(s.mem (q - 1) == NL)) (fun q => q - 1)
    (fun q => { s with dot := q }) (fun q => rfl) (fun q hq => by
      simp only [Bool.and_eq_true, decide_eq_true_eq] at hq
      unfold dotDecrease
      rw [if_pos (by dsimp only; omega)]) s.dot.toNat s.dot
  rw [beginLine, scanDown, sub_zero]
  exact h

/-- `dot_tail` goes where `end_line` points. -/
theorem dotTail_eq (s : Vi W) : dotTail s = { s with dot := endLine s.mem s.endp s.dot } := by
  have h := @iterWhile_map (Vi W) ℤ
    (fun s => decide (s.dot < s.endp - 1) && !(s.mem s.dot == NL)) dotIncrease
    (fun q => decide (q < s.endp - 1) && !(s.mem q == NL)) (fun q => q + 1)
    (fun q => { s with dot := q }) (fun q => rfl) (fun q hq => by
      simp only [Bool.and_eq_true, decide_eq_true_eq] at hq
      unfold dotIncrease
      rw [if_pos (by dsimp only; omega)]) (s.endp - 1 - s.dot).toNat s.dot
  exact h

theorem Lined.dotHead {s : Vi W} (h : Lined s) : Lined (HgXv6.dotHead s) := by
  rw [dotHead_eq]
  exact h.withDot (beginLine_nonneg _ h.dot)

theorem Lined.dotTail {s : Vi W} (h : Lined s) : Lined (HgXv6.dotTail s) := by
  rw [dotTail_eq]
  exact h.withDot (h.dot.trans (le_endLine _ _ _))

/-- The previous line, if there is one: the cursor goes to its start, and the window if it was
below. -/
theorem dotPreLine_eq (s : Vi W) : dotPreLine s =
    let p := beginLine s.mem s.dot
    if 0 < p then
      let q := beginLine s.mem (p - 1)
      (true, { s with
        dot := q, screenbegin := if q < s.screenbegin then beginLine s.mem q else s.screenbegin })
    else (false, s) := by
  unfold dotPreLine
  dsimp only
  rw [dotHead_eq]
  by_cases h : 0 < beginLine s.mem s.dot
  · rw [if_pos ⟨h, beginLine_start h⟩, if_pos h]
    simp only [dotDecrease, gt_iff_lt, h, if_true, dotHead_eq]
    split_ifs <;> rfl
  · rw [if_neg (fun hn => h hn.1), if_neg h]

theorem Lined.dotPreLine {s : Vi W} (h : Lined s) : Lined (HgXv6.dotPreLine s).2 := by
  rw [dotPreLine_eq]
  dsimp only
  split_ifs with h1 h2
  · have hq := beginLine_nonneg s.mem (p := HgXv6.beginLine s.mem s.dot - 1) (by omega)
    exact ⟨hq, beginLine_nonneg _ hq, beginLine_lineStart hq⟩
  · exact h.withDot (beginLine_nonneg _ (by omega))
  · exact h

/-- After `dot_preLine` the cursor is at the start of a line, if it was or if there is a previous
line. -/
theorem dotPreLine_lineStart {s : Vi W}
    (h : LineStart s.mem s.dot ∨ 0 < beginLine s.mem s.dot) :
    LineStart (dotPreLine s).2.mem (dotPreLine s).2.dot := by
  rw [dotPreLine_eq]
  dsimp only
  by_cases hp : 0 < beginLine s.mem s.dot
  · rw [if_pos hp]
    exact beginLine_lineStart (by omega)
  · rw [if_neg hp]
    exact h.resolve_right hp

/-- The next line, if there is one: the cursor goes to its start, and the window to its next line
if it does not show the cursor. -/
theorem dotNextLine_eq (s : Vi W) : dotNextLine s =
    let p := endLine s.mem s.endp s.dot
    if p < s.endp - 1 then
      let t := { s with dot := p + 1, screenbegin := pulledBack { s with dot := p + 1 } }
      (true, if cells t.mem t.screenbegin t.dot ≥ rows * columns then
        { t with screenbegin := nextLine t.mem t.endp t.screenbegin } else t)
    else (false, s) := by
  unfold dotNextLine
  dsimp only
  rw [dotTail_eq]
  by_cases h : endLine s.mem s.endp s.dot < s.endp - 1
  · have hnl := endLine_stop h
    have hhead := (lineStart_succ hnl).beginLine
    rw [if_pos ⟨h, hnl⟩, if_pos h]
    simp only [dotIncrease, h, if_true, dotHead_eq, hhead, countCursorPos_eq]
  · rw [if_neg (fun hn => h hn.1), if_neg h]

/-- The next line is the start of a line, and the window goes to one. -/
theorem Lined.dotNextLine {s : Vi W} (h : Lined s) : Lined (HgXv6.dotNextLine s).2 := by
  rw [dotNextLine_eq]
  dsimp only
  by_cases hp : endLine s.mem s.endp s.dot < s.endp - 1
  · rw [if_pos hp]
    have hdot := h.dot.trans (le_endLine s.mem s.endp s.dot)
    have hstart := lineStart_succ (endLine_stop hp)
    have hnext : Lined { s with dot := endLine s.mem s.endp s.dot + 1 } := h.withDot (by omega)
    obtain ⟨h1, h2⟩ := hnext.pulledBack
    -- the cursor is at the start of its line, so no cells count against the window
    have hfits : TopFits { s with dot := endLine s.mem s.endp s.dot + 1 } := by
      right
      rw [lastTop, min_eq_left (by dsimp only; omega)]
      dsimp only
      rw [hstart.beginLine, cells_of_le _ le_rfl]
      decide
    split_ifs with hc
    · exact hnext.nextLine hfits hc
    · exact ⟨hnext.dot, h1, h2⟩
  · rw [if_neg hp]
    exact h

/-- After `dot_nextLine` the cursor is at the start of a line, if it was or if there is a next
line. -/
theorem dotNextLine_lineStart {s : Vi W}
    (h : LineStart s.mem s.dot ∨ endLine s.mem s.endp s.dot < s.endp - 1) :
    LineStart (dotNextLine s).2.mem (dotNextLine s).2.dot := by
  rw [dotNextLine_eq]
  dsimp only
  by_cases hp : endLine s.mem s.endp s.dot < s.endp - 1
  · rw [if_pos hp]
    split_ifs <;> exact lineStart_succ (endLine_stop hp)
  · rw [if_neg hp]
    exact h.resolve_right hp

theorem Lined.replayColumn (n : ℕ) (p : ℤ) {s : Vi W} (h : Lined s) :
    Lined (HgXv6.replayColumn n p s) := by
  induction n generalizing p s with
  | zero => exact h
  | succ n ih =>
    simp only [HgXv6.replayColumn]
    split_ifs
    · exact h.dotRight
    · exact ih _ h.dotRight
    · exact h

theorem Lined.dotUp {s : Vi W} (h : Lined s) : Lined (HgXv6.dotUp s).2 := by
  unfold HgXv6.dotUp
  dsimp only
  split_ifs
  · exact h.dotPreLine.replayColumn _ _
  · exact h.dotPreLine

theorem Lined.dotDown {s : Vi W} (h : Lined s) : Lined (HgXv6.dotDown s).2 := by
  unfold HgXv6.dotDown
  dsimp only
  split_ifs
  · exact h.dotNextLine.replayColumn _ _
  · exact h.dotNextLine

/-- The cursor keys of insert mode. -/
theorem Lined.insertKey {s : Vi W} (h : Lined s) (c : UInt8) : Lined (HgXv6.insertKey c s) := by
  unfold HgXv6.insertKey
  split
  · exact h.dotUp
  · exact h.dotDown
  · exact h.dotLeft
  · exact h.dotRight
  · exact h.dotTail.dotLeft
  · exact h

/-- A move that keeps starts of lines, repeated, ends at one exactly if it began at one, or its
first step leads to one; a step that does not leaves everything as it is. -/
theorem iterate_lineStart_iff {f : Vi W → Vi W} {C : Prop} {s : Vi W} (n : ℕ)
    (hkeep : ∀ t, LineStart t.mem t.dot → LineStart (f t).mem (f t).dot)
    (hstep : C → LineStart (f s).mem (f s).dot) (hself : ¬C → f s = s) :
    LineStart (f^[n + 1] s).mem (f^[n + 1] s).dot ↔ LineStart s.mem s.dot ∨ C := by
  constructor
  · intro hstart
    by_cases hC : C
    · exact .inr hC
    · rw [Function.iterate_fixed (hself hC)] at hstart
      exact .inl hstart
  · intro hor
    have hfirst : LineStart (f s).mem (f s).dot := hor.elim (hkeep s) hstep
    rw [Function.iterate_succ_apply]
    exact Function.Iterate.rec (fun t : Vi W => LineStart t.mem t.dot) hfirst hkeep n

/-- PageUp ends at the start of a line exactly if the cursor was at one, or not on the first
line. -/
theorem pageUp_lineStart_iff (s : Vi W) :
    LineStart ((fun s : Vi W => (dotPreLine s).2)^[rows - 1] s).mem
      ((fun s : Vi W => (dotPreLine s).2)^[rows - 1] s).dot ↔
    LineStart s.mem s.dot ∨ 0 < beginLine s.mem s.dot :=
  iterate_lineStart_iff 22 (fun _ ht => dotPreLine_lineStart (.inl ht))
    (fun hC => dotPreLine_lineStart (.inr hC))
    (fun hC => by rw [dotPreLine_eq]; simp only [if_neg hC])

/-- PageDown ends at the start of a line exactly if the cursor was at one, or not on the last
line. -/
theorem pageDown_lineStart_iff (s : Vi W) :
    LineStart ((fun s : Vi W => (dotNextLine s).2)^[rows - 1] s).mem
      ((fun s : Vi W => (dotNextLine s).2)^[rows - 1] s).dot ↔
    LineStart s.mem s.dot ∨ endLine s.mem s.endp s.dot < s.endp - 1 :=
  iterate_lineStart_iff 22 (fun _ ht => dotNextLine_lineStart (.inl ht))
    (fun hC => dotNextLine_lineStart (.inr hC))
    (fun hC => by rw [dotNextLine_eq]; simp only [if_neg hC])

/-- The previous line starts at a line. -/
theorem prevLine_lineStart (hp : 0 ≤ p) : 0 ≤ prevLine m p ∧ LineStart m (prevLine m p) := by
  have h0 := beginLine_nonneg m hp
  unfold prevLine
  dsimp only
  split_ifs with h
  · have h1 : 0 ≤ beginLine m p - 1 := by omega
    exact ⟨beginLine_nonneg m h1, beginLine_lineStart h1⟩
  · exact ⟨beginLine_nonneg m h0, beginLine_lineStart h0⟩

/-- `dot_textEnd` looks for the top of the window among the starts of lines from the last one
upwards, and goes one line down from where it stops. -/
theorem dotTextEnd_ensures {s : Vi W} (he : 0 < s.endp) (fuel : ℕ) :
    Ensures (dotTextEnd fuel s) fun t => ∃ b, 0 ≤ b ∧ LineStart s.mem b ∧ b ≤ s.endp - 1 ∧
      rows * columns ≤ cells s.mem b (s.endp - 1) ∧
      t = { s with dot := s.endp - 1, screenbegin := nextLine s.mem s.endp b } := by
  refine Ensures.bind (P := fun t => ∃ b, 0 ≤ b ∧ LineStart s.mem b ∧ b ≤ s.endp - 1 ∧
    rows * columns ≤ cells s.mem b (s.endp - 1) ∧
    t = { s with dot := s.endp - 1, screenbegin := b }) ?_ ?_
  · refine loopFuel_ensures (fun t => ∃ b, 0 ≤ b ∧ LineStart s.mem b ∧
      t = { s with dot := s.endp - 1, screenbegin := b }) _ ?_ fuel _
      ⟨_, beginLine_nonneg _ (by omega), beginLine_lineStart (by omega), rfl⟩
    rintro _ ⟨b, h0, hstart, rfl⟩
    have hlined : Lined { s with dot := s.endp - 1, screenbegin := b } :=
      ⟨by dsimp only; omega, h0, hstart⟩
    obtain ⟨h1, h2⟩ := hlined.pulledBack
    rw [dotTextEndBody_eq]
    split_ifs with hc
    · simp only [ensures_ok, if_true]
      obtain ⟨h3, h4⟩ := prevLine_lineStart (m := s.mem) h1
      exact ⟨_, h3, h4, rfl⟩
    · simp only [ensures_ok, Bool.false_eq_true, if_false]
      exact ⟨_, h1, h2, pulledBack_le _, not_lt.mp hc, rfl⟩
  · rintro _ ⟨b, h0, hstart, hle, hc, rfl⟩
    exact (ensures_ok _ _).mpr ⟨b, h0, hstart, hle, hc, rfl⟩

/-- On a long last line `dot_textEnd` stops at once, and puts the window on the last character. -/
theorem dotTextEnd_long {s : Vi W}
    (hlong : rows * columns ≤ cells s.mem (beginLine s.mem (s.endp - 1)) (s.endp - 1))
    (fuel : ℕ) :
    Ensures (dotTextEnd fuel s) fun t =>
      t = { s with dot := s.endp - 1, screenbegin := s.endp - 1 } := by
  have hle := beginLine_le s.mem (s.endp - 1)
  refine Ensures.bind (P := fun t => t = { s with
    dot := s.endp - 1, screenbegin := beginLine s.mem (s.endp - 1) }) ?_ ?_
  · refine loopFuel_ensures (fun t => t = { s with
      dot := s.endp - 1, screenbegin := beginLine s.mem (s.endp - 1) }) _ ?_ fuel _ rfl
    rintro _ rfl
    rw [dotTextEndBody_eq, pulledBack_of_le hle, if_neg (not_lt.mpr hlong)]
    simp only [ensures_ok, Bool.false_eq_true, if_false]
  · rintro _ rfl
    rw [ensures_ok]
    simp only [nextLine_last le_rfl hle]

/-- `G` puts the top of the window at the start of a line exactly if the last line has fewer than
`rows * columns` cells before the last character.

**Proof sketch.** If the last line is too long for a window, `G` leaves the window at the last line
that it has tried, and `dotTextEnd_long` says that this is the last character, which could begin a
line only if there were no cells before it. If it is not, the loop goes back line by line, from one
start of a line to another, and ends above the last line; the next line from there starts a line too
(`nextLine_lineStart`). -/
theorem dotTextEnd_lineStart_iff {s t : Vi W} {fuel : ℕ} (ht : dotTextEnd fuel s = .ok t) :
    LineStart t.mem t.screenbegin ↔
      cells s.mem (beginLine s.mem (s.endp - 1)) (s.endp - 1) < rows * columns := by
  have he : 0 < s.endp := by
    by_contra hle
    rw [dotTextEnd_empty (by omega)] at ht
    cases ht
  constructor
  · intro h
    by_contra hlong
    rw [not_lt] at hlong
    rw [dotTextEnd_long hlong fuel t ht] at h
    rw [h.beginLine, cells_of_le _ le_rfl] at hlong
    exact absurd hlong (by decide)
  · intro hshort
    obtain ⟨b, h0, hstart, hle, hc, rfl⟩ := dotTextEnd_ensures he fuel t ht
    have hlt : b < beginLine s.mem (s.endp - 1) := by
      by_contra hge
      have := cells_mono s.mem (not_lt.mp hge) hle
      omega
    exact nextLine_lineStart h0 hlt le_rfl

theorem dotTextEnd_lined {s : Vi W}
    (hshort : cells s.mem (beginLine s.mem (s.endp - 1)) (s.endp - 1) < rows * columns)
    (fuel : ℕ) : Ensures (dotTextEnd fuel s) Lined := by
  intro t ht
  have hstart := (dotTextEnd_lineStart_iff ht).mpr hshort
  have he : 0 < s.endp := by
    by_contra hle
    rw [dotTextEnd_empty (by omega)] at ht
    cases ht
  obtain ⟨b, h0, -, -, -, rfl⟩ := dotTextEnd_ensures he fuel t ht
  exact ⟨by dsimp only; omega, h0.trans (le_nextLine _ _ _), hstart⟩

theorem dotMove2NextWordHead_lined {s : Vi W} (h : Lined s) (fuel : ℕ) :
    Ensures (dotMove2NextWordHead fuel s) Lined := by
  refine loopFuel_keeps (fun t ht => ?_) fuel h
  dsimp only
  split_ifs <;> exact (ensures_ok _ _).mpr ht.dotIncrease

theorem dotMove2NextWordTail_lined {s : Vi W} (h : Lined s) (fuel : ℕ) :
    Ensures (dotMove2NextWordTail fuel s) Lined := by
  refine Ensures.bind (dotMove2NextWordHead_lined h fuel) fun t ht => ?_
  refine loopFuel_keeps (fun u hu => ?_) fuel ht
  split_ifs
  · exact (ensures_ok _ _).mpr hu
  · exact (ensures_ok _ _).mpr hu.dotDecrease
  · exact (ensures_ok _ _).mpr hu.dotIncrease

theorem dotMove2PreWordHead_lined {s : Vi W} (h : Lined s) (fuel : ℕ) :
    Ensures (dotMove2PreWordHead fuel s) Lined := by
  refine loopFuel_keeps (fun t ht => ?_) fuel h
  dsimp only
  split_ifs <;> exact (ensures_ok _ _).mpr ht.dotDecrease

/-- The states in which a move puts the window at the start of a line: PageUp is not given on the
first line and PageDown not on the last line, but at its start, and `G` not with a long last
line. -/
def MoveAligns (mv : Move) (s : Vi W) : Prop :=
  match mv with
  | .pageUp => LineStart s.mem s.dot ∨ 0 < beginLine s.mem s.dot
  | .pageDown => LineStart s.mem s.dot ∨ endLine s.mem s.endp s.dot < s.endp - 1
  | .fileTail => cells s.mem (beginLine s.mem (s.endp - 1)) (s.endp - 1) < rows * columns
  | _ => True

/-- Such a move keeps the invariant.

**Proof sketch.** One case for each move. Moves of the cursor keep its line in the text and leave
the window; those by lines are iterated, and the iterates keep what one step keeps. Only PageUp,
PageDown and `G` set the window, and for these the condition is exactly what makes it the start of a
line (`pageUp_lineStart_iff`, `pageDown_lineStart_iff`, `dotTextEnd_lineStart_iff`). -/
theorem doMove_lined {mv : Move} {s : Vi W} (h : Lined s) (hmv : MoveAligns mv s) (fuel : ℕ) :
    Ensures (doMove fuel mv s) Lined := by
  have hhigh : Lined { s with dot := s.screenbegin } := h.withDot h.nonneg
  have hnext (n : ℕ) {t : Vi W} (ht : Lined t) :
      Lined ((fun s : Vi W => (dotNextLine s).2)^[n] t) :=
    Function.Iterate.rec Lined ht (fun _ hu => hu.dotNextLine) n
  cases mv with
  | up => exact (ensures_ok _ _).mpr h.dotUp
  | down => exact (ensures_ok _ _).mpr h.dotDown
  | left => exact (ensures_ok _ _).mpr h.dotLeft
  | right => exact (ensures_ok _ _).mpr h.dotRight
  | lineHead => exact (ensures_ok _ _).mpr h.dotHead
  | lineTail => exact (ensures_ok _ _).mpr h.dotTail
  | fileTail => exact dotTextEnd_lined hmv fuel
  | fileHead => exact (ensures_ok _ _).mpr ⟨le_rfl, le_rfl, .inl rfl⟩
  | pageUp =>
    have hprev : Lined ((fun s : Vi W => (dotPreLine s).2)^[rows - 1] s) :=
      Function.Iterate.rec Lined h (fun _ ht => ht.dotPreLine) (rows - 1)
    have hstart := (pageUp_lineStart_iff s).mpr hmv
    rw [doMove, ensures_ok]
    exact hprev.withTop hstart
  | pageDown =>
    have hstart := (pageDown_lineStart_iff s).mpr hmv
    rw [doMove, ensures_ok]
    exact (hnext (rows - 1) h).withTop hstart
  | nextWordHead => exact dotMove2NextWordHead_lined h fuel
  | preWordHead => exact dotMove2PreWordHead_lined h fuel
  | nextWordTail => exact dotMove2NextWordTail_lined h fuel
  | low =>
    rw [doMove, ensures_ok]
    exact hnext (rows - 1) hhigh
  | middle =>
    rw [doMove, ensures_ok]
    exact hnext (rows / 2) hhigh
  | high => exact (ensures_ok _ _).mpr hhigh

end HgXv6
