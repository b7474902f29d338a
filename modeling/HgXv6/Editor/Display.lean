import HgXv6.Console.Rows
import HgXv6.Editor.Window

set_option relaxedAutoImplicit false
set_option autoImplicit false

/-!
# Drawing

The functions of the editor that draw: the full redraw of the text, the synchronisation of
window, screen and cursor after a command, and the messages in the last row.

`status_buffer` is 78 blanks long whenever it is printed: the byte after them is never written,
and the block comes zeroed from the kernel.

## Main definitions

* `HgXv6.redraw`, `HgXv6.synchronize`, `HgXv6.printOnStatusLine` — the source functions.
* `HgXv6.Shows` — the text rows of a screen are those of the text drawn from a given place.

## Main results

* `HgXv6.redraw_ensures`, `HgXv6.synchronize_ensures` — what they return, if they return.
* `HgXv6.printOnStatusLine_ok` — a short message goes to the last row and nowhere else.
* `HgXv6.Shows.rows` — two screens that show the same text have the same rows.
-/

namespace HgXv6

open Prog

variable {W : Type}

/-! ## The functions -/

/-- `strlen(p)` -/
def strlen (m : ℤ → UInt8) (p : ℤ) (fuel : ℕ) : Except Stop ℕ :=
  loopFuel .loops (fun n : ℕ => if m (p + n) = NUL then .ok (n, false) else .ok (n + 1, true))
    fuel 0

/-- `redraw`: clear the screen, adjust the window and draw the text from its top on. -/
def redraw (fuel : ℕ) (s : Vi W) : Except Stop (Vi W) :=
  modifyScreenBegin fuel { s with cga := clearScreen s.cga } >>= fun s =>
  strlen s.mem s.screenbegin fuel >>= fun len =>
  s.draw (copyFromTextToScreen s.mem s.screenbegin 0 len)

/-- `setCursorPos(pos/columns,pos%columns)` -/
def moveCursor (pos : ℕ) (s : Vi W) : Except Stop (Vi W) :=
  s.draw (setCursorPos ((pos / columns : ℕ) : ℤ) ((pos % columns : ℕ) : ℤ))

/-- `synchronize`: adjust the window, redraw if it has moved since the last time, and put the
cursor where `dot` is. -/
def synchronize (fuel : ℕ) (s : Vi W) : Except Stop (Vi W) :=
  modifyScreenBegin fuel s >>= fun s =>
  (if s.synScreenbegin ≠ some s.screenbegin then
    redraw fuel { s with synScreenbegin := some s.screenbegin } else .ok s) >>= fun s =>
  let (pos, s) := countCursorPosFromScreenBegin2Dot s
  moveCursor pos s

/-- The string in `status_buffer`. -/
def statusBuffer : List UInt8 := List.replicate (columns - 2) SPACE

/-- The calls of `printOnStatusLine`. -/
def statusLine (msg : List UInt8) (c : Cga) : Except Stop Cga :=
  setCursorPos rows 0 c >>= consolewrite statusBuffer >>= setCursorPos rows 0 >>=
    consolewrite msg >>= setCursorPos ((c.pos / columns : ℕ) : ℤ) ((c.pos % columns : ℕ) : ℤ)

/-- `printOnStatusLine`: blank the last row, print `msg` there, and put the cursor back. -/
def printOnStatusLine (msg : List UInt8) (s : Vi W) : Except Stop (Vi W) :=
  s.draw (statusLine msg)

/-- Print a message over the blanked last row, as Ctrl-G and the searches do. -/
def printReport (msg : List UInt8) (s : Vi W) : Except Stop (Vi W) :=
  printOnStatusLine [] s >>= fun s =>
  let pos := s.cga.pos
  s.draw (setCursorPos rows 0) >>= fun s => s.draw (consolewrite msg) >>= moveCursor pos

/-! ## What drawing changes -/

/-- A call that draws changes the screen only. -/
theorem draw_ensures (f : Cga → Except Stop Cga) (s : Vi W) :
    Ensures (s.draw f) fun s' => ∃ c, f s.cga = .ok c ∧ s' = { s with cga := c } := by
  intro s' h
  obtain ⟨c, hc, h⟩ := bind_eq_ok.mp h
  cases h
  exact ⟨c, hc, rfl⟩

/-- A call that returns. -/
theorem draw_eq {f : Cga → Except Stop Cga} {s : Vi W} {c : Cga} (h : f s.cga = .ok c) :
    s.draw f = .ok { s with cga := c } := by
  simp [Vi.draw, h]

/-- The text rows of the screen `c` are those of the text drawn from `b` on. -/
def Shows (m : ℤ → UInt8) (b : ℤ) (c : Cga) : Prop :=
  ∃ (n : ℕ) (c₀ c₁ : Cga), (∀ k : ℕ, k < n → m (b + k) ≠ NUL) ∧ m (b + n) = NUL ∧
    copyFromTextToScreen m b 0 n (clearScreen c₀) = .ok c₁ ∧ SameRows c c₁

/-- Showing depends on the text rows only. -/
theorem Shows.rows {m : ℤ → UInt8} {b : ℤ} {c c' : Cga} (h : Shows m b c) (hc : SameRows c' c) :
    Shows m b c' := by
  obtain ⟨n, c₀, c₁, h1, h2, h3, h4⟩ := h
  exact ⟨n, c₀, c₁, h1, h2, h3, hc.trans h4⟩

/-- `strlen` finds the first NUL. -/
theorem strlen_ensures (m : ℤ → UInt8) (p : ℤ) (fuel : ℕ) :
    Ensures (strlen m p fuel) fun n => (∀ k : ℕ, k < n → m (p + k) ≠ NUL) ∧ m (p + n) = NUL := by
  refine loopFuel_ensures (fun n : ℕ => ∀ k : ℕ, k < n → m (p + k) ≠ NUL) _ (fun n hn => ?_)
    fuel 0 (fun k hk => absurd hk (Nat.not_lt_zero k))
  split_ifs with h0
  · simpa using ⟨hn, h0⟩
  · simp only [ensures_ok, if_true]
    intro k hk
    rcases Nat.lt_succ_iff_lt_or_eq.mp hk with h | rfl
    · exact hn k h
    · exact h0

/-- `strlen` returns where there is a NUL. -/
theorem strlen_returns {m : ℤ → UInt8} {p : ℤ} {n : ℕ} (h1 : ∀ k : ℕ, k < n → m (p + k) ≠ NUL)
    (h2 : m (p + n) = NUL) : Returns (strlen m p) n := by
  suffices h : ∀ j i : ℕ, i + j = n → Returns (fun fuel => loopFuel Stop.loops
      (fun k : ℕ => if m (p + k) = NUL then .ok (k, false) else .ok (k + 1, true)) fuel i) n by
    exact h n 0 (Nat.zero_add n)
  intro j
  induction j with
  | zero =>
    rintro i rfl
    exact loopFuel_returns_of_stop (if_pos h2)
  | succ j ih =>
    intro i hi
    exact loopFuel_returns_of_step (if_neg (h1 i (by omega))) (ih (i + 1) (by omega))

/-- What a redraw returns: the adjusted window, and a screen that shows the text from it. -/
theorem redraw_ensures (fuel : ℕ) (s : Vi W) :
    Ensures (redraw fuel s) fun s' => ∃ b c, s' = { s with screenbegin := b, cga := c } ∧
      Adjusted s.mem s.dot s.screenbegin b ∧ Shows s.mem b c := by
  refine Ensures.bind (modifyScreenBegin_ensures fuel _) ?_
  rintro _ ⟨b, rfl, hb⟩
  refine Ensures.bind (strlen_ensures _ _ fuel) fun n hn => ?_
  refine (draw_ensures _ _).mono ?_
  rintro _ ⟨c, hc, rfl⟩
  exact ⟨b, c, rfl, hb, n, s.cga, c, hn.1, hn.2, hc, SameRows.refl c⟩

/-- Moving the cursor changes no character. -/
theorem moveCursor_ensures (pos : ℕ) (s : Vi W) :
    Ensures (moveCursor pos s) fun s' => ∃ c, s' = { s with cga := c } ∧
      SameRows c s.cga ∧ c.pos = pos ∧ pos < 25 * 80 := by
  refine (draw_ensures _ s).mono ?_
  rintro _ ⟨c, hc, rfl⟩
  obtain ⟨⟨-, h2, -, -⟩, hpos⟩ := setCursorPos_pos hc
  simp only [columns] at h2 hpos
  exact ⟨c, rfl, fun i _ => setCursorPos_ch hc i, by omega, by omega⟩

/-- What a synchronisation returns: the adjusted window, the cursor where `dot` is, and a screen
that shows the text from the window, if it was drawn, or that of before, if the window is the one it
was drawn for.

**Proof sketch.** After the adjustment of the window there are two cases. If the window is not the
one that the screen was drawn for, there is a redraw, and its own adjustment finds nothing to do,
since the window shows the cursor already. Otherwise nothing is drawn. In either case the cursor is
placed last, which changes no character, at the cell that the count from the top of the window
gives. -/
theorem synchronize_ensures (fuel : ℕ) (s : Vi W) :
    Ensures (synchronize fuel s) fun s' => ∃ b c,
      s' = { s with screenbegin := b, cga := c, synScreenbegin := some b } ∧
      Adjusted s.mem s.dot s.screenbegin b ∧ c.pos = cells s.mem b s.dot ∧
      (Shows s.mem b c ∨ s.synScreenbegin = some b ∧ SameRows c s.cga) := by
  refine Ensures.bind (modifyScreenBegin_ensures fuel s) ?_
  rintro _ ⟨b, rfl, hb⟩
  -- the screen before the cursor is placed
  refine Ensures.bind (P := fun t => ∃ c,
    t = { s with screenbegin := b, cga := c, synScreenbegin := some b } ∧
    (Shows s.mem b c ∨ s.synScreenbegin = some b ∧ SameRows c s.cga)) ?_ ?_
  · split_ifs with hsyn
    · intro t ht
      obtain ⟨b', c, rfl, hb', hshows⟩ := redraw_ensures fuel _ t ht
      obtain rfl : b' = b := hb'.stay hb.le hb.lt
      exact ⟨c, rfl, .inl hshows⟩
    · rw [ensures_ok]
      have hsyn' : s.synScreenbegin = some b := not_not.mp hsyn
      exact ⟨s.cga, by rw [← hsyn'], .inr ⟨hsyn', SameRows.refl _⟩⟩
  · rintro _ ⟨c, rfl, hc⟩
    rw [countCursorPos_eq, pulledBack_of_le hb.le]
    refine (moveCursor_ensures _ _).mono ?_
    rintro _ ⟨c', rfl, hrows, hpos, -⟩
    refine ⟨b, c', rfl, hb, hpos, ?_⟩
    rcases hc with h | ⟨h, h'⟩
    · exact .inl (h.rows hrows)
    · exact .inr ⟨h, hrows.trans h'⟩

/-- The window shows the cursor, and it is the one the screen was last synchronised for, if it
has been. -/
structure Settled (s : Vi W) : Prop where
  le : s.screenbegin ≤ s.dot
  lt : cells s.mem s.screenbegin s.dot < rows * columns
  syn : s.synScreenbegin = none ∨ s.synScreenbegin = some s.screenbegin

/-- This is so after a synchronisation. -/
theorem synchronize_settled {fuel : ℕ} {s t : Vi W} (h : synchronize fuel s = .ok t) :
    Settled t := by
  obtain ⟨b, c, rfl, hb, -⟩ := synchronize_ensures fuel s t h
  exact ⟨hb.le, hb.lt, .inr rfl⟩

/-- A redraw followed by a synchronisation: the window is adjusted, and the screen shows the
text from it. -/
theorem redraw_synchronize_ensures (fuel : ℕ) (s : Vi W) :
    Ensures (redraw fuel s >>= synchronize fuel) fun s' => ∃ b c,
      s' = { s with screenbegin := b, cga := c, synScreenbegin := some b } ∧
      Adjusted s.mem s.dot s.screenbegin b ∧ c.pos = cells s.mem b s.dot ∧ Shows s.mem b c := by
  refine Ensures.bind (redraw_ensures fuel s) ?_
  rintro _ ⟨b, c, rfl, hb, hshows⟩
  refine (synchronize_ensures fuel _).mono ?_
  rintro _ ⟨b', c', rfl, hb', hpos, hc'⟩
  obtain rfl : b' = b := hb'.stay hb.le hb.lt
  refine ⟨b', c', rfl, hb, hpos, ?_⟩
  rcases hc' with h | ⟨-, h⟩
  · exact h
  · exact hshows.rows h

/-! ## Messages -/

/-- The blanks fit in the last row. -/
theorem rowFits_statusBuffer : RowFits statusBuffer (24 * 80) := by decide

/-- The last row blanked and a message that fits printed there: the text rows are unchanged. -/
theorem writeStatus_ok {msg : List UInt8} (c : Cga) (hmsg : RowFits msg (24 * 80)) :
    ∃ c', (setCursorPos rows 0 c >>= consolewrite statusBuffer >>= setCursorPos rows 0 >>=
      consolewrite msg) = .ok c' ∧ SameRows c' c ∧ c'.scrolls = c.scrolls := by
  have hon : OnScreen (rows : ℤ) 0 := ⟨by decide, by decide, by decide, by decide⟩
  have hrow : ((rows : ℤ) * 80 + 0).toNat = 24 * 80 := by decide
  obtain ⟨c₁, h₁, hp₁⟩ := setCursorPos_ok c hon
  rw [hrow] at hp₁
  obtain ⟨c₂, h₂, -, hr₂, hs₂⟩ := consolewrite_rowFits (hp₁ ▸ rowFits_statusBuffer) hp₁.ge
  obtain ⟨c₃, h₃, hp₃⟩ := setCursorPos_ok c₂ hon
  rw [hrow] at hp₃
  obtain ⟨c₄, h₄, -, hr₄, hs₄⟩ := consolewrite_rowFits (hp₃ ▸ hmsg) hp₃.ge
  refine ⟨c₄, ?_, ?_, ?_⟩
  · simp only [h₁, h₂, h₃, h₄, ok_bind]
  · have hr₁ : SameRows c₁ c := fun i _ => setCursorPos_ch h₁ i
    have hr₃ : SameRows c₃ c₂ := fun i _ => setCursorPos_ch h₃ i
    exact hr₄.trans (hr₃.trans (hr₂.trans hr₁))
  · rw [hs₄, setCursorPos_scrolls h₃, hs₂, setCursorPos_scrolls h₁]

/-- A message that fits in the last row is printed there: the cursor is back where it was, and
the text rows are unchanged. -/
theorem statusLine_ok {msg : List UInt8} {c : Cga} (hpos : c.pos < 25 * 80)
    (hmsg : RowFits msg (24 * 80)) :
    ∃ c', statusLine msg c = .ok c' ∧ c'.pos = c.pos ∧ SameRows c' c ∧
      c'.scrolls = c.scrolls := by
  obtain ⟨c₁, h₁, hr₁, hs₁⟩ := writeStatus_ok c hmsg
  obtain ⟨c₂, h₂, hp₂⟩ := setCursorPos_restore c₁ hpos
  refine ⟨c₂, ?_, hp₂, ?_, ?_⟩
  · rw [statusLine, h₁, ok_bind]
    exact h₂
  · have hr₂ : SameRows c₂ c₁ := fun i _ => setCursorPos_ch h₂ i
    exact hr₂.trans hr₁
  · rw [setCursorPos_scrolls h₂, hs₁]

/-- Wherever the cursor is, a message that fits in the last row changes no text row. -/
theorem statusLine_ensures {msg : List UInt8} (c : Cga) (hmsg : RowFits msg (24 * 80)) :
    Ensures (statusLine msg c) fun c' => SameRows c' c := by
  obtain ⟨c₁, h₁, hr₁, -⟩ := writeStatus_ok c hmsg
  intro c' h
  rw [statusLine, h₁, ok_bind] at h
  have hr : SameRows c' c₁ := fun i _ => setCursorPos_ch h i
  exact hr.trans hr₁

/-- `printOnStatusLine` of such a message. -/
theorem printOnStatusLine_ok (msg : List UInt8) {s : Vi W} (hpos : s.cga.pos < 25 * 80)
    (hmsg : RowFits msg (24 * 80)) :
    ∃ c, printOnStatusLine msg s = .ok { s with cga := c } ∧ c.pos = s.cga.pos ∧
      SameRows c s.cga := by
  obtain ⟨c, hc, h1, h2, -⟩ := statusLine_ok hpos hmsg
  exact ⟨c, draw_eq hc, h1, h2⟩

/-- Wherever the cursor is, `printOnStatusLine` of such a message changes the last row only. -/
theorem printOnStatusLine_ensures (msg : List UInt8) (s : Vi W) (hmsg : RowFits msg (24 * 80)) :
    Ensures (printOnStatusLine msg s) fun s' => ∃ c, s' = { s with cga := c } ∧
      SameRows c s.cga := by
  refine (draw_ensures _ s).mono ?_
  rintro _ ⟨c, hc, rfl⟩
  exact ⟨c, rfl, statusLine_ensures s.cga hmsg c hc⟩

/-- A report changes the screen only, and the last row only if it fits there. -/
theorem printReport_ensures (msg : List UInt8) (s : Vi W) :
    Ensures (printReport msg s) fun s' => ∃ c, s' = { s with cga := c } ∧
      (RowFits msg (24 * 80) → SameRows c s.cga) := by
  refine Ensures.bind (printOnStatusLine_ensures [] s (by decide)) ?_
  rintro _ ⟨c₁, rfl, hr₁⟩
  refine Ensures.bind (draw_ensures _ _) ?_
  rintro _ ⟨c₂, hc₂, rfl⟩
  refine Ensures.bind (draw_ensures _ _) ?_
  rintro _ ⟨c₃, hc₃, rfl⟩
  refine (moveCursor_ensures _ _).mono ?_
  rintro _ ⟨c₄, rfl, hr₄, -⟩
  refine ⟨c₄, rfl, fun hmsg => ?_⟩
  have hr₂ : SameRows c₂ c₁ := fun i _ => setCursorPos_ch hc₂ i
  have hpos : c₂.pos = 24 * 80 := (setCursorPos_pos hc₂).2
  obtain ⟨c₃', hc₃', -, hr₃, -⟩ := consolewrite_rowFits (hpos ▸ hmsg) hpos.ge
  obtain rfl : c₃ = c₃' := Except.ok.inj (hc₃.symm.trans hc₃')
  exact hr₄.trans (hr₃.trans (hr₂.trans hr₁))

/-- A character drawn in the last row, with room after it, changes the last row only. -/
theorem writeAt_ensures {y : ℕ} {b : UInt8} (s : Vi W) (hb : b ≠ NL) (hy : y < 76) :
    Ensures (s.draw (writeAt rows y b)) fun s' => ∃ c, s' = { s with cga := c } ∧
      SameRows c s.cga := by
  refine (draw_ensures _ s).mono ?_
  rintro _ ⟨c, hc, rfl⟩
  obtain ⟨c₁, hc₁, hc⟩ := bind_eq_ok.mp hc
  have hpos : c₁.pos = 24 * 80 + y := by
    have := (setCursorPos_pos hc₁).2
    unfold rows at this
    omega
  have hw : cellWidth b ≤ 4 := by
    unfold cellWidth
    split_ifs <;> omega
  obtain ⟨c', hc', -, hcells, -⟩ := cgaputc_row hb (s := c₁) (by omega)
  obtain rfl : c = c' := Except.ok.inj (hc.symm.trans hc')
  refine ⟨c, rfl, fun i hi => ?_⟩
  rw [hcells i (by omega), setCursorPos_ch hc₁]

end HgXv6
