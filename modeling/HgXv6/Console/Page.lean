import HgXv6.Console.Cursor

set_option relaxedAutoImplicit false
set_option autoImplicit false

/-!
# The screen as a window on an unbounded page

What a reader of the console expects: the bytes written are laid out on a page of 80 columns
that has no last row, and the screen shows 25 consecutive rows of it, always including the row
that is being written. A scroll moves the window down by one row.

The cells of the page are numbered row by row, as those of the screen are, so that the window is
one shift of the numbers, and the cursor of the screen is that of the page less the shift.

## Main definitions

* `HgXv6.Page`, `HgXv6.layout` — the page, and a stream of bytes laid out on it.
* `HgXv6.looks` — a character as it is seen; NUL and space are both blank.
* `HgXv6.Window` — the screen shows the rows of the page from a given one on.

## Main results

* `HgXv6.Window.cgaputc` — one character keeps the window on the page.
* `HgXv6.consolewrite_page` — a stream without tabs, written to a cleared screen.
-/

namespace HgXv6

open Prog

/-! ## The page -/

/-- A page without a last row, and the place where the next character goes. -/
structure Page where
  cell : ℕ → ℕ → UInt8
  row : ℕ
  col : ℕ
  col_lt : col < 80

namespace Page

/-- The empty page. -/
def blank : Page where
  cell _ _ := NUL
  row := 0
  col := 0
  col_lt := by decide

/-- A newline moves to the start of the next row. -/
def newline (p : Page) : Page where
  cell := p.cell
  row := p.row + 1
  col := 0
  col_lt := by decide

/-- A character is put at the cursor, which moves on, at the end of a row to the next row. -/
def type (b : UInt8) (p : Page) : Page :=
  let cell := Function.update p.cell p.row (Function.update (p.cell p.row) p.col b)
  if h : p.col + 1 < 80 then ⟨cell, p.row, p.col + 1, h⟩ else ⟨cell, p.row + 1, 0, by decide⟩

/-- One byte of the stream. -/
def put (p : Page) (b : UInt8) : Page := if b = NL then p.newline else p.type b

/-- The number of the cell the cursor is on. -/
def addr (p : Page) : ℕ := 80 * p.row + p.col

/-- The character in the cell with the number `k`. -/
def char (p : Page) (k : ℕ) : UInt8 := p.cell (k / 80) (k % 80)

/-- The row of the cursor is that of its number. -/
theorem addr_div (p : Page) : p.addr / 80 = p.row := by
  have := p.col_lt
  unfold addr
  omega

/-- The column of the cursor is that of its number. -/
theorem addr_mod (p : Page) : p.addr % 80 = p.col := by
  have := p.col_lt
  unfold addr
  omega

/-- The cursor of the page moves as that of the screen does before a scroll. -/
theorem addr_put (p : Page) {b : UInt8} (hb : b ≠ TAB) :
    (p.put b).addr = drawPos (.byte b) p.addr := by
  have hlt := p.col_lt
  have hmod := p.addr_mod
  simp only [drawPos, if_neg hb, put]
  split_ifs with hnl
  · rw [hmod]
    simp only [newline, addr]
    omega
  · unfold type
    split_ifs with hcol
    · simp only [addr]
      omega
    · simp only [addr]
      omega

/-- The cursor moves on. -/
theorem addr_lt_put (p : Page) {b : UInt8} (hb : b ≠ TAB) : p.addr < (p.put b).addr := by
  rw [p.addr_put hb]
  simp only [drawPos, if_neg hb]
  split_ifs
  · omega
  · omega

/-- A character is stored in the cell of the cursor, a newline nowhere. -/
theorem char_put (p : Page) (b : UInt8) (k : ℕ) :
    (p.put b).char k = if b ≠ NL ∧ k = p.addr then b else p.char k := by
  by_cases hnl : b = NL
  · simp [put, hnl, newline, char]
  have hcell : (p.put b).cell =
      Function.update p.cell p.row (Function.update (p.cell p.row) p.col b) := by
    rw [put, if_neg hnl]
    unfold type
    split_ifs
    · rfl
    · rfl
  simp only [char, hcell, ne_eq, hnl, not_false_eq_true, true_and]
  by_cases hk : k = p.addr
  · rw [if_pos hk, hk, addr_div, addr_mod, Function.update_self, Function.update_self]
  · rw [if_neg hk]
    by_cases hrow : k / 80 = p.row
    · have hcol : k % 80 ≠ p.col := by
        unfold addr at hk
        omega
      rw [hrow, Function.update_self, Function.update_of_ne hcol]
    · rw [Function.update_of_ne hrow]

end Page

/-- A stream of bytes laid out on the page. -/
def layout (bs : List UInt8) : Page := bs.foldl Page.put Page.blank

/-! ## The window -/

/-- A character as it is seen on the screen. -/
def looks (b : UInt8) : UInt8 := if b = NUL then SPACE else b

/-- The screen shows 25 rows of the page down to that of the cursor, and nothing is written on
the page from the cursor on. -/
structure Window (s : Cga) (p : Page) : Prop where
  pos : s.pos + 80 * (p.row - 24) = p.addr
  cells : ∀ k < 25 * 80, looks (s.crt k).ch = looks (p.char (80 * (p.row - 24) + k))
  rest : ∀ k, p.addr ≤ k → p.char k = NUL

/-- The cursor of a window is on the screen. -/
theorem Window.lt {s : Cga} {p : Page} (h : Window s p) : s.pos < 25 * 80 := by
  have h1 := h.pos
  have h2 := p.col_lt
  unfold Page.addr at h1
  omega

/-- Nothing is written on the page behind the new cursor. -/
theorem Window.rest_put {s : Cga} {p : Page} (h : Window s p) {b : UInt8} (hb : b ≠ TAB) (k : ℕ)
    (hk : (p.put b).addr ≤ k) : (p.put b).char k = NUL := by
  have hlt := p.addr_lt_put hb
  rw [p.char_put, if_neg (by omega)]
  exact h.rest k (by omega)

/-- Before a scroll the screen shows the same rows of the page as before the character. -/
theorem Window.cgaDraw {s : Cga} {p : Page} (h : Window s p) {b : UInt8} (hb : b ≠ TAB) (k : ℕ)
    (hk : k < 25 * 80) : looks ((HgXv6.cgaDraw (.byte b) s).crt k).ch =
      looks ((p.put b).char (80 * (p.row - 24) + k)) := by
  have hpos := h.pos
  have hcell := h.cells k hk
  rw [p.char_put]
  by_cases hnl : b = NL
  · simpa [HgXv6.cgaDraw, hnl] using hcell
  · simp only [HgXv6.cgaDraw, if_neg hnl, if_neg hb, Cga.put, Function.update_apply]
    by_cases hks : k = s.pos
    · rw [if_pos hks, if_pos ⟨hnl, by omega⟩]
    · rw [if_neg hks, if_neg (by omega)]
      exact hcell

/-- One character other than a tab keeps the window on the page.

**Proof sketch.** The cursor of the screen is that of the page less the rows above the window,
before and after. If it passes the last row then the window moves down by one row: every shown
row is what the next one was, and the last one is empty, as it is on the page. -/
theorem Window.cgaputc {s : Cga} {p : Page} (h : Window s p) {b : UInt8} (hb : b ≠ TAB) :
    ∃ s', HgXv6.cgaputc (.byte b) s = .ok s' ∧ Window s' (p.put b) := by
  have hpos := h.pos
  have hover : ¬TabOverflow (.byte b) s.pos := fun hc => hb (Glyph.byte.inj hc.1)
  have hle := (drawPos_le_iff h.lt).mpr hover
  have hdraw : drawPos (.byte b) s.pos + 80 * (p.row - 24) = (p.put b).addr := by
    rw [p.addr_put hb, ← hpos]
    simp only [drawPos, if_neg hb]
    split_ifs <;> omega
  have hlt := p.addr_lt_put hb
  have hrow := (p.put b).addr_div
  have hrow' := p.addr_div
  have hrest := h.rest_put hb
  have hcells := h.cgaDraw hb
  refine ⟨_, cgaputc_eq hle, ?_⟩
  by_cases hscroll : drawPos (.byte b) s.pos / 80 > 24
  · -- the cursor is just behind the screen
    have hend : drawPos (.byte b) s.pos = 25 * 80 := by omega
    have htop : (p.put b).row - 24 = p.row - 24 + 1 := by omega
    rw [if_pos hscroll]
    refine ⟨?_, fun k hk => ?_, hrest⟩
    · simp only [Cga.blank, Cga.scrollUp, cgaDraw_pos, hend, htop]
      omega
    · simp only [Cga.blank, Cga.scrollUp, cgaDraw_pos, hend, Function.update_apply]
      split_ifs with h1 h2 h3
      · rw [hrest _ (by omega)]
        rfl
      · rw [hrest _ (by omega)]
      · rw [hcells _ (by omega), htop]
        congr 2
        omega
      · omega
  · have htop : (p.put b).row - 24 = p.row - 24 := by omega
    rw [if_neg hscroll]
    refine ⟨?_, fun k hk => ?_, hrest⟩
    · simp only [Cga.blank, cgaDraw_pos, htop]
      omega
    · simp only [Cga.blank, cgaDraw_pos, Function.update_apply]
      split_ifs with h1
      · rw [hrest _ (by omega)]
        rfl
      · rw [hcells k hk, htop]

/-- A stream without tabs keeps the window on the page. -/
theorem Window.consolewrite {s : Cga} {p : Page} (h : Window s p) {bs : List UInt8}
    (hbs : TAB ∉ bs) :
    ∃ s', HgXv6.consolewrite bs s = .ok s' ∧ Window s' (bs.foldl Page.put p) := by
  induction bs generalizing s p with
  | nil => exact ⟨s, rfl, h⟩
  | cons b bs ih =>
    obtain ⟨t, ht, hw⟩ := h.cgaputc (b := b) fun hb => hbs (by simp [hb])
    obtain ⟨s', hs', hw'⟩ := ih hw fun hb => hbs (List.mem_cons_of_mem _ hb)
    exact ⟨s', by rw [HgXv6.consolewrite, consputc, ht, ok_bind, hs'], hw'⟩

/-- A cleared screen shows the empty page. -/
theorem window_clear (s : Cga) : Window (clearScreen s) Page.blank := by
  refine ⟨rfl, fun k hk => ?_, fun k _ => rfl⟩
  simp only [clearScreen, Cga.blank, Function.update_apply, if_pos hk]
  split_ifs
  · rfl
  · rfl

/-- A stream of bytes other than tabs, among them all printable characters and newlines, written to
a cleared screen: the 25 rows shown are those of the page that end with the row of its cursor, or
its first 25, and the cursor is where it is on the page.

**Proof sketch.** A cleared screen is a window over the empty page, and every byte written keeps it
a window over the page with that byte (`Window.consolewrite`), a scroll being the step by which the
window moves down. At the end the cells of the screen are those of the page from the first row of
the window on, which is the arithmetic of rows and columns that is left. -/
theorem consolewrite_page (s : Cga) {bs : List UInt8} (hbs : TAB ∉ bs) :
    ∃ s', consolewrite bs (clearScreen s) = .ok s' ∧
      (∀ i < 25, ∀ j < 80, looks (s'.crt (80 * i + j)).ch =
        looks ((layout bs).cell ((layout bs).row - 24 + i) j)) ∧
      s'.pos = 80 * ((layout bs).row - ((layout bs).row - 24)) + (layout bs).col := by
  obtain ⟨s', hs', hw⟩ := (window_clear s).consolewrite hbs
  have hpos := hw.pos
  refine ⟨s', hs', fun i hi j hj => ?_, ?_⟩
  · have hcell := hw.cells (80 * i + j) (by omega)
    rw [hcell, layout, Page.char]
    congr 2
    · omega
    · omega
  · unfold layout
    unfold Page.addr at hpos
    omega

/-- `consolewrite_page` for a line that is broken by a newline. -/
theorem consolewrite_page_lines :
    ∃ s', consolewrite (str "ab\nc") (clearScreen clearedScreen) = .ok s' ∧
      (∀ i < 25, ∀ j < 80, looks (s'.crt (80 * i + j)).ch =
        looks ((layout (str "ab\nc")).cell ((layout (str "ab\nc")).row - 24 + i) j)) ∧
      s'.pos = 80 * ((layout (str "ab\nc")).row - ((layout (str "ab\nc")).row - 24)) +
        (layout (str "ab\nc")).col :=
  consolewrite_page clearedScreen (by decide)

end HgXv6
