import HgXv6.Console.Screen

set_option relaxedAutoImplicit false
set_option autoImplicit false

/-!
# Where the cursor goes

The cursor's movement does not depend on the cells, so it is described by functions of the
cursor alone. From a cursor on the screen `cgaputc` panics in one case only: a tab in the last
three cells, whose four blanks run past the end. In every other case the cursor is on the screen
again afterwards.

## Main definitions

* `HgXv6.drawPos`, `HgXv6.nextPos` — the cursor before and after the scroll of `cgaputc`.
* `HgXv6.TabOverflow` — a tab in the last three cells of the screen.
* `HgXv6.WriteFits` — no byte of a string is such a tab when its turn comes.
* `HgXv6.drawn` — the part of a string `copyFromTextToScreen` draws.

## Main results

* `HgXv6.cgaputc_ok`, `HgXv6.cgaputc_panic` — the two cases of `cgaputc`.
* `HgXv6.consolewrite_ok_iff` — a write returns exactly if it fits.
* `HgXv6.copyLoop_eq` — copying to the screen is writing the part that is drawn.
-/

namespace HgXv6

open Prog

/-- The cursor after `cgaputc` has drawn `c` and before it scrolls. -/
def drawPos (c : Glyph) (pos : ℕ) : ℕ :=
  match c with
  | .backspace => pos - 1
  | .byte b =>
    if b = NL then pos + (80 - pos % 80) else if b = TAB then pos + 4 else pos + 1

/-- The cursor after `cgaputc` has drawn `c`. -/
def nextPos (c : Glyph) (pos : ℕ) : ℕ :=
  if drawPos c pos / 80 > 24 then drawPos c pos - 80 else drawPos c pos

/-- A tab that runs past the end of the screen. -/
def TabOverflow (c : Glyph) (pos : ℕ) : Prop := c = .byte TAB ∧ 25 * 80 - 3 ≤ pos

instance (c : Glyph) (pos : ℕ) : Decidable (TabOverflow c pos) :=
  inferInstanceAs (Decidable (_ ∧ _))

/-- The cursor `cgaDraw` leaves. -/
@[simp] theorem cgaDraw_pos (c : Glyph) (s : Cga) : (cgaDraw c s).pos = drawPos c s.pos := by
  unfold cgaDraw drawPos
  cases c with
  | backspace =>
    by_cases h : 0 < s.pos
    · simp [h]
    · simp [h]; omega
  | byte b =>
    dsimp only
    split_ifs <;> rfl

/-- `cgaDraw` does not scroll. -/
@[simp] theorem cgaDraw_scrolls (c : Glyph) (s : Cga) : (cgaDraw c s).scrolls = s.scrolls := by
  unfold cgaDraw
  split
  · split_ifs <;> rfl
  · split_ifs <;> rfl

/-- From the screen, drawing stays within one cell past its end but for the overflowing tab. -/
theorem drawPos_le_iff {c : Glyph} {pos : ℕ} (h : pos < 25 * 80) :
    drawPos c pos ≤ 25 * 80 ↔ ¬TabOverflow c pos := by
  cases c with
  | backspace =>
    simp only [drawPos, TabOverflow, reduceCtorEq, false_and, not_false_eq_true, iff_true]
    omega
  | byte b =>
    simp only [drawPos, TabOverflow, Glyph.byte.injEq]
    split_ifs with h1 h2
    · have hb : b ≠ TAB := by rw [h1]; decide
      simp only [hb, false_and, not_false_eq_true, iff_true]
      omega
    · simp only [h2, true_and]
      omega
    · simp only [h2, false_and, not_false_eq_true, iff_true]
      omega

/-- After the scroll the cursor is on the screen again. -/
theorem nextPos_lt {c : Glyph} {pos : ℕ} (h : pos < 25 * 80) (hc : ¬TabOverflow c pos) :
    nextPos c pos < 25 * 80 := by
  have hle := (drawPos_le_iff h).mpr hc
  unfold nextPos
  split_ifs <;> omega

/-- `cgaputc` returns when the drawn cursor is on the screen or just past its end. -/
theorem cgaputc_eq {c : Glyph} {s : Cga} (h : drawPos c s.pos ≤ 25 * 80) :
    cgaputc c s = .ok (if drawPos c s.pos / 80 > 24 then (cgaDraw c s).scrollUp
      else cgaDraw c s).blank := by
  simp only [cgaputc, cgaDraw_pos]
  rw [if_neg (by omega)]

/-- `cgaputc` on a cursor of the screen, but for the overflowing tab: it returns, with the
cursor on the screen. -/
theorem cgaputc_ok {c : Glyph} {s : Cga} (h : s.pos < 25 * 80) (hc : ¬TabOverflow c s.pos) :
    ∃ s', cgaputc c s = .ok s' ∧ s'.pos = nextPos c s.pos := by
  refine ⟨_, cgaputc_eq ((drawPos_le_iff h).mpr hc), ?_⟩
  unfold nextPos
  split_ifs <;> simp [Cga.blank, Cga.scrollUp]

/-- `cgaputc` on the overflowing tab panics. -/
theorem cgaputc_panic {c : Glyph} {s : Cga} (h : s.pos < 25 * 80) (hc : TabOverflow c s.pos) :
    cgaputc c s = .error (.panic "pos under/overflow") := by
  have hgt : ¬drawPos c s.pos ≤ 25 * 80 := by rw [drawPos_le_iff h]; exact not_not.mpr hc
  simp only [cgaputc, cgaDraw_pos]
  rw [if_pos (by omega)]

/-- Where `cgaputc` puts the cursor whenever it returns. -/
theorem cgaputc_pos {c : Glyph} {s s' : Cga} (h : s.pos < 25 * 80) (hs : cgaputc c s = .ok s') :
    s'.pos = nextPos c s.pos ∧ s'.pos < 25 * 80 := by
  by_cases hc : TabOverflow c s.pos
  · rw [cgaputc_panic h hc] at hs
    cases hs
  · obtain ⟨t, ht, hpos⟩ := cgaputc_ok h hc
    rw [ht] at hs
    cases hs
    exact ⟨hpos, hpos ▸ nextPos_lt h hc⟩

/-- A character that leaves the screen panics or scrolls. -/
theorem cgaputc_leaves {c : Glyph} {s s' : Cga} (h : ¬drawPos c s.pos < 25 * 80)
    (hs : cgaputc c s = .ok s') : s'.scrolls = s.scrolls + 1 := by
  simp only [cgaputc, cgaDraw_pos] at hs
  split_ifs at hs with h1 h2
  · cases hs
    simp [Cga.blank, Cga.scrollUp]
  · omega

/-- The number of scrolls never goes down. -/
theorem cgaputc_scrolls_le {c : Glyph} {s s' : Cga} (hs : cgaputc c s = .ok s') :
    s.scrolls ≤ s'.scrolls := by
  simp only [cgaputc, cgaDraw_pos] at hs
  split_ifs at hs
  · cases hs
    simp [Cga.blank, Cga.scrollUp]
  · cases hs
    simp [Cga.blank]

/-- Where `cgaputc` puts the cursor when it does not scroll. -/
theorem cgaputc_drawPos {c : Glyph} {s s' : Cga} (hs : cgaputc c s = .ok s')
    (hscr : s'.scrolls = s.scrolls) : s'.pos = drawPos c s.pos ∧ s'.pos < 25 * 80 := by
  have hlt : drawPos c s.pos < 25 * 80 := by
    by_contra hno
    have := cgaputc_leaves hno hs
    omega
  rw [cgaputc_eq hlt.le, if_neg (by omega)] at hs
  cases hs
  simpa [Cga.blank] using hlt

/-! ## Strings -/

/-- Written from the cursor `pos` on, no byte is an overflowing tab. -/
def WriteFits : List UInt8 → ℕ → Prop
  | [], _ => True
  | b :: bs, pos => ¬TabOverflow (.byte b) pos ∧ WriteFits bs (nextPos (.byte b) pos)

instance decidableWriteFits : ∀ (bs : List UInt8) (pos : ℕ), Decidable (WriteFits bs pos)
  | [], _ => isTrue trivial
  | b :: bs, pos =>
    have := decidableWriteFits bs (nextPos (.byte b) pos)
    inferInstanceAs (Decidable (_ ∧ _))

/-- A write returns exactly if it fits. -/
theorem consolewrite_ok_iff (bs : List UInt8) {s : Cga} (h : s.pos < 25 * 80) :
    (∃ s', consolewrite bs s = .ok s') ↔ WriteFits bs s.pos := by
  induction bs generalizing s with
  | nil => simp [consolewrite, WriteFits]
  | cons b bs ih =>
    simp only [consolewrite, consputc, WriteFits]
    by_cases hb : TabOverflow (.byte b) s.pos
    · rw [cgaputc_panic h hb]
      simp [hb]
    · obtain ⟨t, ht, hpos⟩ := cgaputc_ok h hb
      rw [ht]
      simp only [ok_bind, hb, not_false_eq_true, true_and]
      rw [ih (hpos ▸ nextPos_lt h hb), hpos]

/-- A write that returns leaves the cursor on the screen. -/
theorem consolewrite_pos {bs : List UInt8} {s s' : Cga} (h : s.pos < 25 * 80)
    (hs : consolewrite bs s = .ok s') : s'.pos < 25 * 80 := by
  induction bs generalizing s with
  | nil => cases hs; exact h
  | cons b bs ih =>
    obtain ⟨t, ht, hs⟩ := bind_eq_ok.mp hs
    exact ih (cgaputc_pos h ht).2 hs

/-- The bytes `copyFromTextToScreen` draws of the string at `p`, at most `n`, from the cursor
`pos` on. -/
def drawn (m : ℤ → UInt8) (p : ℤ) : ℕ → ℕ → List UInt8
  | 0, _ => []
  | n + 1, pos =>
    if m p = NUL then []
    else
      let pos := nextPos (.byte (m p)) pos
      m p :: if pos = 25 * 80 - 1 ∨ 24 * 80 ≤ pos ∧ m (p + 1) = NL then []
        else drawn m (p + 1) n pos

/-- The loop of `copyFromTextToScreen` is a write of the bytes it draws.

**Proof sketch.** Induction on the number of passes. A pass draws its character as `consolewrite`
does and then looks at the cursor, which `cgaputc_pos` computes from the cursor before; so the test
by which the loop leaves is the one by which the list of drawn bytes ends. -/
theorem copyLoop_eq (m : ℤ → UInt8) (p : ℤ) (n : ℕ) {s : Cga} (h : s.pos < 25 * 80) :
    copyLoop m p n s = consolewrite (drawn m p n s.pos) s := by
  induction n generalizing p s with
  | zero => rfl
  | succ n ih =>
    simp only [copyLoop, drawn]
    by_cases h0 : m p = NUL
    · simp [h0, consolewrite]
    · simp only [h0, if_false, consolewrite, consputc]
      rcases hput : cgaputc (.byte (m p)) s with e | t
      · rfl
      · obtain ⟨hpos, hlt⟩ := cgaputc_pos h hput
        simp only [ok_bind, ← hpos]
        split_ifs with hstop
        · rfl
        · exact ih (p + 1) hlt

/-! ## Absolute positioning -/

/-- Row `x` and column `y` are on the screen. -/
def OnScreen (x y : ℤ) : Prop := 0 ≤ x ∧ x ≤ 24 ∧ 0 ≤ y ∧ y ≤ 79

/-- `setCursorPos` on the screen returns, with the cursor there. -/
theorem setCursorPos_ok {x y : ℤ} (s : Cga) (h : OnScreen x y) :
    ∃ s', setCursorPos x y s = .ok s' ∧ s'.pos = (x * 80 + y).toNat := by
  obtain ⟨h1, h2, h3, h4⟩ := h
  exact ⟨_, if_neg (by omega), rfl⟩

/-- `setCursorPos` off the screen panics. -/
theorem setCursorPos_panic {x y : ℤ} (s : Cga) (h : ¬OnScreen x y) :
    setCursorPos x y s =
      .error (.panic "In console.c(setCursorPos(int,int) ), x or y under/overflow\n") := by
  unfold OnScreen at h
  exact if_pos (by omega)

/-- The cell number of a place on the screen. -/
theorem OnScreen.lt {x y : ℤ} (h : OnScreen x y) : (x * 80 + y).toNat < 25 * 80 := by
  obtain ⟨h1, h2, h3, h4⟩ := h
  omega

/-- A number of a cell, taken apart into row and column by the truncating division of C. -/
theorem onScreen_div_mod {pos : ℤ} :
    OnScreen (pos.tdiv 80) (pos.tmod 80) ↔ 0 ≤ pos ∧ pos < 25 * 80 := by
  unfold OnScreen
  rcases le_or_gt 0 pos with h | h
  · rw [Int.tdiv_eq_ediv_of_nonneg h, Int.tmod_eq_emod_of_nonneg h]
    omega
  · have h1 := Int.mul_tdiv_add_tmod pos 80
    constructor
    · rintro ⟨h2, _, h3, _⟩
      omega
    · rintro ⟨h2, _⟩
      omega

/-- Row and column of a cell number give it back. -/
theorem tdiv_tmod_cell (pos : ℤ) : pos.tdiv 80 * 80 + pos.tmod 80 = pos := by
  have := Int.mul_tdiv_add_tmod pos 80
  omega

end HgXv6
