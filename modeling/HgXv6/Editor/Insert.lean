import HgXv6.Editor.Invariant

set_option relaxedAutoImplicit false
set_option autoImplicit false

/-!
# Typing inserts in order

What insert mode makes of a string of printable characters. Each character is put before the
cursor and the cursor steps over it, so that the characters come to stand in the order in which
they were typed, unless the text was empty: then the first character is the last one of the text,
the cursor cannot step past it, and all others are put before it.

Each character is also drawn. That fails on a line that is too long for the window, and when a
tab runs over the end of the screen.

## Main definitions

* `HgXv6.inserted` — the memory after a character was inserted.
* `HgXv6.TypingFits` — every intermediate text can be drawn.
* `HgXv6.TypesInOrder` — the keys `i`, a string, and ESC insert that string.

## Main results

* `HgXv6.redraw_returns`, `HgXv6.redraw_fits` — when a redraw returns.
* `HgXv6.insertLoop_returns`, `HgXv6.insertLoop_fits` — the run of a string.
* `HgXv6.typesInOrder_iff` — when typing inserts in order.
-/

namespace HgXv6

open Prog

variable {W : Type} {sys : Sys W}

/-! ## When a redraw returns -/

/-- No tab runs over the end of the screen when the text up to `e` is drawn from `b` on. -/
def DrawFits (m : ℤ → UInt8) (e b : ℤ) : Prop := WriteFits (drawn m b (e - b).toNat 0) 0

/-- The text can be drawn with the cursor in the window. -/
def ScreenFits (m : ℤ → UInt8) (e dot sb : ℤ) : Prop :=
  WindowFits m e sb dot ∧ DrawFits m e (windowTop m e dot sb)

instance (m : ℤ → UInt8) (e b : ℤ) : Decidable (DrawFits m e b) :=
  inferInstanceAs (Decidable (WriteFits _ _))

instance (m : ℤ → UInt8) (e dot sb : ℤ) : Decidable (ScreenFits m e dot sb) :=
  inferInstanceAs (Decidable (_ ∧ _))

/-- What is drawn of a string ends at its NUL. -/
theorem drawn_of_nul {m : ℤ → UInt8} {p : ℤ} {k n : ℕ} (hk : m (p + k) = NUL) (hkn : k ≤ n)
    (pos : ℕ) : drawn m p n pos = drawn m p k pos := by
  induction k generalizing p n pos with
  | zero =>
    cases n with
    | zero => rfl
    | succ n => exact if_pos (by simpa using hk)
  | succ k ih =>
    obtain ⟨j, rfl⟩ : ∃ j, n = j + 1 := ⟨n - 1, by omega⟩
    have hrest := ih (p := p + 1) (n := j) (by
      rw [show p + 1 + (k : ℤ) = p + ((k + 1 : ℕ) : ℤ) by push_cast; ring]
      exact hk) (by omega)
    simp only [drawn, hrest]

/-- A copy to the cleared screen of a text that ends in a NUL: if it returns the text fits, and if
it fits the copy returns, with the cursor on the screen. -/
theorem copyFromTextToScreen_fits {m : ℤ → UInt8} {e b : ℤ} {n : ℕ} (c : Cga)
    (hnul : m (b + n) = NUL) (hn : n ≤ (e - b).toNat) :
    (Ensures (copyFromTextToScreen m b 0 n (clearScreen c)) fun d =>
      DrawFits m e b ∧ d.pos < 25 * 80) ∧
    (DrawFits m e b → ∃ d, copyFromTextToScreen m b 0 n (clearScreen c) = .ok d) := by
  obtain ⟨c₀, h₀, hp₀⟩ := setCursorPos_ok (x := 0) (y := 0) (clearScreen c)
    ⟨le_rfl, by decide, le_rfl, by decide⟩
  have h0 : c₀.pos = 0 := by omega
  have hlt : c₀.pos < 25 * 80 := by omega
  have hcopy : copyFromTextToScreen m b 0 n (clearScreen c) =
      consolewrite (drawn m b (e - b).toNat 0) c₀ := by
    rw [drawn_of_nul hnul hn]
    simp only [copyFromTextToScreen, Int.zero_tdiv, Int.zero_tmod, h₀, ok_bind,
      copyLoop_eq _ _ _ hlt, Int.toNat_natCast, h0]
  have hiff := consolewrite_ok_iff (drawn m b (e - b).toNat 0) hlt
  rw [h0] at hiff
  rw [hcopy]
  exact ⟨fun d hd => ⟨hiff.mp ⟨d, hd⟩, consolewrite_pos hlt hd⟩, hiff.mpr⟩

/-- Window and cursor are in a text that is not empty, and a NUL follows the text. -/
structure Typing (s : Vi W) : Prop where
  screenbegin_nonneg : 0 ≤ s.screenbegin
  screenbegin_le : s.screenbegin ≤ s.dot
  dot_lt : s.dot < s.endp
  nul : s.mem s.endp = NUL

namespace Typing

variable {s : Vi W}

/-- The first NUL from a place of the text on is found within it. -/
theorem strlen_le (h : Typing s) {b : ℤ} (hb : b ≤ s.dot) {n : ℕ}
    (hn : ∀ k : ℕ, k < n → s.mem (b + k) ≠ NUL) : n ≤ (s.endp - b).toNat := by
  by_contra hlt
  have hlt' := h.dot_lt
  refine hn (s.endp - b).toNat (by omega) ?_
  rw [show b + ((s.endp - b).toNat : ℤ) = s.endp by omega]
  exact h.nul

/-- From a place of the text on there is a NUL. -/
theorem exists_strlen (h : Typing s) {b : ℤ} (hb : b ≤ s.dot) :
    ∃ n : ℕ, (∀ k : ℕ, k < n → s.mem (b + k) ≠ NUL) ∧ s.mem (b + n) = NUL := by
  have hlt := h.dot_lt
  have hex : ∃ n : ℕ, s.mem (b + n) = NUL := ⟨(s.endp - b).toNat, by
    rw [show b + ((s.endp - b).toNat : ℤ) = s.endp by omega]
    exact h.nul⟩
  exact ⟨Nat.find hex, fun k hk => Nat.find_min hex hk, Nat.find_spec hex⟩

/-- The adjusted window, if the cursor's line leaves room. -/
theorem windowTop (h : Typing s) (hfits : WindowFits s.mem s.endp s.screenbegin s.dot) (c : Cga) :
    Returns (fun fuel => modifyScreenBegin fuel { s with cga := c })
      { s with
        screenbegin := HgXv6.windowTop s.mem s.endp s.dot s.screenbegin, cga := c } := by
  have hb := h.screenbegin_le
  have hret := modifyScreenBegin_returns (s := { s with cga := c }) h.screenbegin_nonneg
    (h.screenbegin_nonneg.trans hb) (by have := h.dot_lt; dsimp only; omega) hfits
  rwa [pulledBack_of_le (show ({ s with cga := c } : Vi W).screenbegin ≤ s.dot from hb)] at hret

/-- The adjusted window is not below the cursor, and shows it. -/
theorem windowTop_adjusted (h : Typing s)
    (hfits : WindowFits s.mem s.endp s.screenbegin s.dot) :
    Adjusted s.mem s.dot s.screenbegin
      (HgXv6.windowTop s.mem s.endp s.dot s.screenbegin) := by
  obtain ⟨fuel, hfuel⟩ := (h.windowTop hfits s.cga).exists
  obtain ⟨b, hb, hadj⟩ := modifyScreenBegin_ensures fuel _ _ hfuel
  have hb' : HgXv6.windowTop s.mem s.endp s.dot s.screenbegin = b :=
    congrArg Vi.screenbegin hb
  rw [hb']
  exact hadj

end Typing

/-- A redraw returns if the text can be drawn. -/
theorem redraw_returns {s : Vi W} (h : Typing s)
    (hfits : ScreenFits s.mem s.endp s.dot s.screenbegin) : ∃ c, c.pos < 25 * 80 ∧
      Returns (fun fuel => redraw fuel s)
        { s with
          screenbegin := windowTop s.mem s.endp s.dot s.screenbegin, cga := c } := by
  obtain ⟨hwindow, hdraw⟩ := hfits
  have hle := (h.windowTop_adjusted hwindow).le
  obtain ⟨n, hn, hnul⟩ := h.exists_strlen hle
  obtain ⟨hpos, hok⟩ := copyFromTextToScreen_fits s.cga hnul (h.strlen_le hle hn)
  obtain ⟨c, hc⟩ := hok hdraw
  refine ⟨c, (hpos c hc).2, (h.windowTop hwindow _).bind ((strlen_returns hn hnul).bind ?_)⟩
  exact Returns.of_eq (draw_eq hc)

/-- An adjustment that returns has found the cursor's line to leave room. -/
theorem modifyScreenBegin_fits {s : Vi W} (h : Typing s) (c : Cga) (fuel : ℕ) :
    Ensures (modifyScreenBegin fuel { s with cga := c }) fun t =>
      WindowFits s.mem s.endp s.screenbegin s.dot ∧ t = { s with
        screenbegin := windowTop s.mem s.endp s.dot s.screenbegin, cga := c } := by
  intro t ht
  have hwindow : WindowFits s.mem s.endp s.screenbegin s.dot := by
    by_contra hno
    have hdiv := modifyScreenBegin_diverges (s := { s with cga := c })
      h.screenbegin_nonneg (h.screenbegin_nonneg.trans h.screenbegin_le)
      (by have := h.dot_lt; dsimp only; omega) hno fuel
    rw [hdiv] at ht
    cases ht
  have hret : Returns (fun fuel => modifyScreenBegin fuel { s with cga := c }) t := by
    rw [modifyScreenBegin_eq] at ht
    simp only [modifyScreenBegin_eq]
    exact loopFuel_returns_of_eq ht
  exact ⟨hwindow, hret.unique (h.windowTop hwindow _)⟩

/-- A redraw that returns has drawn the text. -/
theorem redraw_fits {s : Vi W} (h : Typing s) (fuel : ℕ) : Ensures (redraw fuel s) fun t =>
    ScreenFits s.mem s.endp s.dot s.screenbegin ∧ ∃ c, c.pos < 25 * 80 ∧
      t = { s with
        screenbegin := windowTop s.mem s.endp s.dot s.screenbegin, cga := c } := by
  intro t ht
  obtain ⟨u, hu, ht⟩ := bind_eq_ok.mp ht
  obtain ⟨n, hn, ht⟩ := bind_eq_ok.mp ht
  obtain ⟨hwindow, rfl⟩ := modifyScreenBegin_fits h (clearScreen s.cga) fuel u hu
  have hle := (h.windowTop_adjusted hwindow).le
  obtain ⟨hn1, hn2⟩ := strlen_ensures _ _ fuel n hn
  obtain ⟨c, hc, rfl⟩ := draw_ensures _ _ t ht
  obtain ⟨hdraw, hpos⟩ := (copyFromTextToScreen_fits s.cga hn2 (h.strlen_le hle hn1)).1 c hc
  exact ⟨⟨hwindow, hdraw⟩, c, hpos, rfl⟩

/-- A synchronisation that finds the window adjusted returns if it was drawn for this window, or the
text can be drawn. -/
theorem synchronize_returns {s : Vi W} (h : Typing s)
    (hlt : cells s.mem s.screenbegin s.dot < rows * columns)
    (hdraw : s.synScreenbegin = some s.screenbegin ∨ DrawFits s.mem s.endp s.screenbegin) :
    ∃ c, c.pos < 25 * 80 ∧ Returns (fun fuel => synchronize fuel s)
        { s with cga := c, synScreenbegin := some s.screenbegin } := by
  have hle := h.screenbegin_le
  have htop := windowTop_of_lt (e := s.endp) hlt
  -- the last call puts the cursor on the screen
  have hcursor : ∀ t : Vi W, t.mem = s.mem → t.screenbegin = s.screenbegin → t.dot = s.dot →
      ∃ d : Cga, d.pos < 25 * 80 ∧
        moveCursor (countCursorPosFromScreenBegin2Dot t).1
          (countCursorPosFromScreenBegin2Dot t).2 = .ok { t with cga := d } := by
    intro t hm hb hd
    rw [countCursorPos_eq, pulledBack_of_le (by rw [hb, hd]; exact hle), hm, hb, hd, ← hb]
    have hpos : cells s.mem s.screenbegin s.dot < 25 * 80 := hlt.trans (by decide)
    obtain ⟨d, hok, hdpos⟩ := setCursorPos_restore t.cga hpos
    rw [hb]
    exact ⟨d, hdpos ▸ hpos, draw_eq hok⟩
  by_cases hsyn : s.synScreenbegin = some s.screenbegin
  · obtain ⟨d, hd, hmove⟩ := hcursor s rfl rfl rfl
    refine ⟨d, hd, (modifyScreenBegin_of_fits hle hlt).bind ?_⟩
    simp only [← hsyn, ne_eq, not_true_eq_false, if_false, ok_bind]
    exact Returns.of_eq hmove
  · obtain ⟨c, -, hredraw⟩ := redraw_returns
      (s := { s with synScreenbegin := some s.screenbegin }) { h with }
      ⟨windowFits_of_lt hle hlt, by rw [htop]; exact hdraw.resolve_left hsyn⟩
    dsimp only at hredraw
    rw [htop] at hredraw
    obtain ⟨d, hd, hmove⟩ := hcursor
      { s with cga := c, synScreenbegin := some s.screenbegin } rfl rfl rfl
    refine ⟨d, hd, (modifyScreenBegin_of_fits hle hlt).bind ?_⟩
    simp only [if_pos (show s.synScreenbegin ≠ some s.screenbegin from hsyn)]
    exact hredraw.bind (Returns.of_eq hmove)

/-- The screen after a redraw and a synchronisation. -/
theorem redraw_synchronize_returns {s : Vi W} (h : Typing s)
    (hfits : ScreenFits s.mem s.endp s.dot s.screenbegin) : ∃ c, c.pos < 25 * 80 ∧
      Returns (fun fuel => redraw fuel s >>= synchronize fuel)
        { s with
          screenbegin := windowTop s.mem s.endp s.dot s.screenbegin, cga := c
          synScreenbegin := some (windowTop s.mem s.endp s.dot s.screenbegin) } := by
  obtain ⟨c, -, hc⟩ := redraw_returns h hfits
  have hadj := h.windowTop_adjusted hfits.1
  have htyping : Typing { s with
      screenbegin := windowTop s.mem s.endp s.dot s.screenbegin, cga := c } :=
    { h with
      screenbegin_nonneg := hadj.nonneg h.screenbegin_nonneg
        (h.screenbegin_nonneg.trans h.screenbegin_le)
      screenbegin_le := hadj.le }
  obtain ⟨d, hd, hsync⟩ := synchronize_returns htyping hadj.lt (.inr hfits.2)
  exact ⟨d, hd, hc.bind hsync⟩

/-- Where they return, the text was drawn. -/
theorem redraw_synchronize_fits {s : Vi W} (h : Typing s) (fuel : ℕ) :
    Ensures (redraw fuel s >>= synchronize fuel) fun t =>
      ScreenFits s.mem s.endp s.dot s.screenbegin ∧ ∃ c, c.pos < 25 * 80 ∧ t = { s with
        screenbegin := windowTop s.mem s.endp s.dot s.screenbegin, cga := c
        synScreenbegin := some (windowTop s.mem s.endp s.dot s.screenbegin) } := by
  refine Ensures.bind (redraw_fits h fuel) ?_
  rintro _ ⟨hfits, c, -, rfl⟩
  refine (synchronize_ensures fuel _).mono ?_
  rintro _ ⟨b, d, rfl, hb, hpos, -⟩
  have hadj := h.windowTop_adjusted hfits.1
  obtain rfl : b = windowTop s.mem s.endp s.dot s.screenbegin := hb.stay hadj.le hadj.lt
  exact ⟨hfits, d, hpos ▸ hb.lt.trans (by decide), rfl⟩

/-! ## One character -/

/-- The memory after `c` was inserted at `p` into a text that ends at `e`. -/
def inserted (m : ℤ → UInt8) (e p : ℤ) (c : UInt8) : ℤ → UInt8 :=
  Function.update (fill (copyDown m (p + 1) p (e - p + 1).toNat) p SPACE 1) p c

/-- Inserting a character where there is room for it. -/
theorem typeText_eq {s : Vi W} (c : UInt8) (hroom : s.endp + 1 ≤ s.textend)
    (hdot : s.dot < s.endp) : typeText c s =
      { s with mem := inserted s.mem s.endp s.dot c, endp := s.endp + 1, dot := s.dot + 1 } := by
  have hadd : makeHoleAdd s.dot 1 s = { s with
      mem := fill (copyDown s.mem (s.dot + 1) s.dot (s.endp - s.dot + 1).toNat) s.dot SPACE 1
      endp := s.endp + 1 } := by
    rw [makeHoleAdd, Nat.cast_one, if_neg (by omega)]
  simp only [typeText, hadd, store, dotIncrease, inserted]
  rw [if_pos (by omega)]

/-- The text before the cursor when it has stepped over the inserted character. -/
theorem bytes_inserted_before (m : ℤ → UInt8) {e p : ℤ} (hp : 0 ≤ p) (c : UInt8) :
    bytes (inserted m e p c) 0 (p + 1).toNat = bytes m 0 p.toNat ++ [c] := by
  have hmid : inserted m e p c (0 + p.toNat) = c := by
    rw [inserted, copyDown_fill_update, if_pos (by omega)]
  rw [show (p + 1).toNat = p.toNat + 1 by omega, bytes_succ, hmid]
  congr 1
  refine bytes_congr fun i hi => ?_
  rw [inserted, copyDown_fill_update, if_neg (by omega), if_neg (by omega)]

/-- The text from the cursor on is unchanged. -/
theorem bytes_inserted_after (m : ℤ → UInt8) {e p : ℤ} (c : UInt8) :
    bytes (inserted m e p c) (p + 1) (e - p).toNat = bytes m p (e - p).toNat := by
  refine bytes_congr fun i hi => ?_
  rw [inserted, copyDown_fill_update, if_neg (by omega), if_pos (by omega)]
  congr 1
  ring

/-- The text before and after the cursor. -/
theorem text_eq {s : Vi W} (h : Typing s) :
    s.text = bytes s.mem 0 s.dot.toNat ++ bytes s.mem s.dot (s.endp - s.dot).toNat := by
  have h1 := h.screenbegin_nonneg.trans h.screenbegin_le
  have h2 := h.dot_lt
  have hlen : s.endp.toNat = s.dot.toNat + (s.endp - s.dot).toNat := by omega
  rw [Vi.text, hlen, bytes_append]
  congr 2
  omega

/-- Where there is room, inserting a character keeps window and cursor in the text. -/
theorem Typing.typeText {s : Vi W} (h : Typing s) (c : UInt8) (hroom : s.endp + 1 ≤ s.textend) :
    Typing (HgXv6.typeText c s) := by
  have h1 := h.screenbegin_le
  have h2 := h.dot_lt
  rw [typeText_eq c hroom h2]
  refine ⟨h.screenbegin_nonneg, by dsimp only; omega, by dsimp only; omega, ?_⟩
  dsimp only
  rw [inserted, copyDown_fill_update, if_neg (by omega), if_pos (by omega), add_sub_cancel_right]
  exact h.nul

/-- The state after `c` was inserted at the cursor and drawn on the screen `d`. -/
def afterTyped (c : UInt8) (d : Cga) (s : Vi W) : Vi W :=
  let m := inserted s.mem s.endp s.dot c
  let top := windowTop m (s.endp + 1) (s.dot + 1) s.screenbegin
  { s with
    mem := m, endp := s.endp + 1, dot := s.dot + 1
    screenbegin := top, cga := d, synScreenbegin := some top }

/-- The window is adjusted to the cursor. -/
theorem Typing.afterTyped {s : Vi W} (h : Typing s) {c : UInt8} (hroom : s.endp + 1 ≤ s.textend)
    (hfits : WindowFits (inserted s.mem s.endp s.dot c) (s.endp + 1) s.screenbegin (s.dot + 1))
    (d : Cga) : Typing (HgXv6.afterTyped c d s) := by
  have hty := h.typeText c hroom
  rw [typeText_eq c hroom h.dot_lt] at hty
  have hadj := hty.windowTop_adjusted hfits
  have h0 := hty.screenbegin_nonneg
  exact ⟨hadj.nonneg h0 (h0.trans hty.screenbegin_le), hadj.le, hty.dot_lt, hty.nul⟩

/-- Insert mode on a character for which there is room, if the text can be drawn. -/
theorem typeChar_returns {s : Vi W} (h : Typing s) {c : UInt8} (hroom : s.endp + 1 ≤ s.textend)
    (hfits : ScreenFits (inserted s.mem s.endp s.dot c) (s.endp + 1) (s.dot + 1) s.screenbegin) :
    ∃ d, d.pos < 25 * 80 ∧ Returns (fun fuel => typeChar fuel c s) (afterTyped c d s) := by
  have heq := typeText_eq c hroom h.dot_lt
  have hty := h.typeText c hroom
  obtain ⟨d, hd, hret⟩ := redraw_synchronize_returns hty (by rw [heq]; exact hfits)
  refine ⟨d, hd, ?_⟩
  rw [heq] at hret
  simp only [typeChar, heq]
  exact hret

/-- Where insert mode has dealt with a character, the text was drawn. -/
theorem typeChar_fits {s : Vi W} (h : Typing s) {c : UInt8} (hroom : s.endp + 1 ≤ s.textend)
    (fuel : ℕ) : Ensures (typeChar fuel c s) fun t =>
      ScreenFits (inserted s.mem s.endp s.dot c) (s.endp + 1) (s.dot + 1) s.screenbegin ∧
        ∃ d, d.pos < 25 * 80 ∧ t = afterTyped c d s := by
  have heq := typeText_eq c hroom h.dot_lt
  have hens := redraw_synchronize_fits (h.typeText c hroom) fuel
  rw [heq] at hens
  simp only [typeChar, heq]
  exact hens

/-! ## A string of characters -/

/-- Every text on the way can be drawn when `str` is inserted at `dot`. -/
def TypingFits : List UInt8 → (ℤ → UInt8) → ℤ → ℤ → ℤ → Prop
  | [], _, _, _, _ => True
  | c :: str, m, e, dot, sb =>
    let m := inserted m e dot c
    ScreenFits m (e + 1) (dot + 1) sb ∧
      TypingFits str m (e + 1) (dot + 1) (windowTop m (e + 1) (dot + 1) sb)

instance decidableTypingFits : ∀ (str : List UInt8) (m : ℤ → UInt8) (e dot sb : ℤ),
    Decidable (TypingFits str m e dot sb)
  | [], _, _, _, _ => isTrue trivial
  | c :: str, m, e, dot, sb =>
    have := decidableTypingFits str (inserted m e dot c) (e + 1) (dot + 1)
      (windowTop (inserted m e dot c) (e + 1) (dot + 1) sb)
    inferInstanceAs (Decidable (_ ∧ _))

/-- The keys that insert `str`, once in insert mode. -/
def typedKeys (str : List UInt8) : List Read := str.map .byte ++ [.byte VI_K_ESC]

/-- The ESC that ends the insert mode. -/
theorem insertLoop_esc {s : Vi W} (hpos : s.cga.pos < 25 * 80) (c : Option UInt8) :
    ∃ d, d.pos < 25 * 80 ∧ ∀ fuel, insertLoop fuel (typedKeys []) c s =
      .ok ([], { s.act (.insert VI_K_ESC) with cga := d }) := by
  obtain ⟨d, hd, hdpos, -⟩ := printOnStatusLine_ok (str "--INSERT--") hpos (by decide)
  obtain ⟨d', hd', hdpos', -⟩ := printOnStatusLine_ok (str "--COMMAND--")
    (s := { s.act (.insert VI_K_ESC) with cga := d }) (by dsimp only; omega) (by decide)
  refine ⟨d', by dsimp only at hdpos'; omega, fun fuel => ?_⟩
  have hesc : (Read.byte VI_K_ESC).into c = VI_K_ESC := rfl
  rw [typedKeys, List.map_nil, List.nil_append, insertLoop_cons, hd, ok_bind]
  simp only [hesc, if_true]
  rw [show (Vi.act (.insert VI_K_ESC) { s with cga := d } : Vi W) =
    { s.act (.insert VI_K_ESC) with cga := d } from rfl, hd', ok_bind]

/-- A character that is printed is not ESC. -/
theorem ne_esc_of_isPrintChar {c : UInt8} (h : isPrintChar c = true) : c ≠ VI_K_ESC := by
  rintro rfl
  exact absurd h (by decide)

/-- Insert mode on a printable character. -/
theorem insertLoop_typed {s : Vi W} (hpos : s.cga.pos < 25 * 80) {c : UInt8}
    (hc : isPrintChar c = true) (str : List UInt8) (c₀ : Option UInt8) :
    ∃ d, d.pos < 25 * 80 ∧ ∀ fuel, insertLoop fuel (typedKeys (c :: str)) c₀ s =
      typeChar fuel c { s.act (.insert c) with cga := d } >>=
        insertLoop fuel (typedKeys str) (some c) := by
  obtain ⟨d, hd, hdpos, -⟩ := printOnStatusLine_ok (HgXv6.str "--INSERT--") hpos (by decide)
  refine ⟨d, by omega, fun fuel => ?_⟩
  have hbyte : (Read.byte c).into c₀ = c := rfl
  rw [typedKeys, List.map_cons, List.cons_append, insertLoop_cons, hd, ok_bind]
  simp only [hbyte, if_neg (ne_esc_of_isPrintChar hc), hc, if_true]
  rfl

/-- Insert mode puts a string before the cursor and steps over it, if every text on the way can
be drawn.

**Proof sketch.** Induction on the string. Each character is inserted between what is before the
cursor and what is behind it, and ends up before the cursor. -/
theorem insertLoop_returns (str : List UInt8) {s : Vi W} (c₀ : Option UInt8) (h : Typing s)
    (hpos : s.cga.pos < 25 * 80) (hstr : ∀ c ∈ str, isPrintChar c = true)
    (hroom : s.endp + str.length ≤ s.textend)
    (hfits : TypingFits str s.mem s.endp s.dot s.screenbegin) :
    ∃ s', Returns (fun fuel => insertLoop fuel (typedKeys str) c₀ s) ([], s') ∧
      s'.cga.pos < 25 * 80 ∧ s'.dot = s.dot + str.length ∧
      s'.text = bytes s.mem 0 s.dot.toNat ++ str ++
        bytes s.mem s.dot (s.endp - s.dot).toNat := by
  induction str generalizing s c₀ with
  | nil =>
    obtain ⟨d, hd, hesc⟩ := insertLoop_esc hpos c₀
    refine ⟨_, Returns.of_le 0 fun fuel _ => hesc fuel, hd, ?_, ?_⟩
    · simp [Vi.act]
    · rw [List.append_nil, ← text_eq h]
      rfl
  | cons c str ih =>
    rw [List.length_cons] at hroom
    obtain ⟨d, hd, hloop⟩ := insertLoop_typed hpos (hstr c List.mem_cons_self) str c₀
    have ht : Typing { s.act (.insert c) with cga := d } := { h with }
    have hroom' : s.endp + 1 ≤ s.textend := by omega
    obtain ⟨d', hd', hchar⟩ := typeChar_returns (c := c) ht hroom' hfits.1
    obtain ⟨s', hret, hpos', hdot, htext⟩ := ih (some c) (ht.afterTyped hroom' hfits.1.1 d') hd'
      (fun b hb => hstr b (List.mem_cons_of_mem c hb))
      (by dsimp only [afterTyped, Vi.act]; omega) hfits.2
    refine ⟨s', ?_, hpos', ?_, ?_⟩
    · simp only [hloop]
      exact hchar.bind hret
    · rw [hdot, List.length_cons]
      dsimp only [afterTyped, Vi.act]
      push_cast
      ring
    · have h0 := h.screenbegin_nonneg.trans h.screenbegin_le
      rw [htext]
      dsimp only [afterTyped, Vi.act]
      rw [bytes_inserted_before _ h0, show s.endp + 1 - (s.dot + 1) = s.endp - s.dot by ring,
        bytes_inserted_after]
      simp

/-- Where insert mode has inserted a string, every text on the way was drawn.

**Proof sketch.** Induction on the string. A character that has been typed was drawn, since its
redraw and synchronisation have returned (`typeChar_fits`), and that is the first of the texts on
the way; the state after it is again one in which insert mode types. -/
theorem insertLoop_fits (str : List UInt8) {s : Vi W} (c₀ : Option UInt8) (h : Typing s)
    (hpos : s.cga.pos < 25 * 80) (hstr : ∀ c ∈ str, isPrintChar c = true)
    (hroom : s.endp + str.length ≤ s.textend) (fuel : ℕ) :
    Ensures (insertLoop fuel (typedKeys str) c₀ s) fun _ =>
      TypingFits str s.mem s.endp s.dot s.screenbegin := by
  induction str generalizing s c₀ with
  | nil => exact fun _ _ => trivial
  | cons c str ih =>
    rw [List.length_cons] at hroom
    obtain ⟨d, hd, hloop⟩ := insertLoop_typed hpos (hstr c List.mem_cons_self) str c₀
    have ht : Typing { s.act (.insert c) with cga := d } := { h with }
    rw [hloop]
    intro r hr
    obtain ⟨t, hchar, hr⟩ := bind_eq_ok.mp hr
    have hroom' : s.endp + 1 ≤ s.textend := by omega
    obtain ⟨hscreen, d', hd', rfl⟩ := typeChar_fits ht hroom' fuel t hchar
    exact ⟨hscreen, ih (some c) (ht.afterTyped hroom' hscreen.1 d') hd'
      (fun b hb => hstr b (List.mem_cons_of_mem c hb))
      (by dsimp only [afterTyped, Vi.act]; omega) r hr⟩

/-! ## The command -/

/-- The command `i`, a string and ESC put the string before the cursor and advance the cursor by
its length. -/
def TypesInOrder (sys : Sys W) (s : Vi W) (str : List UInt8) : Prop :=
  ∃ s', Returns (fun fuel => doCmd sys fuel (chr 'i') (typedKeys str) s) ([], s') ∧
    s'.text = s.text.take s.dot.toNat ++ str ++ s.text.drop s.dot.toNat ∧
    s'.dot = s.dot + str.length

/-- The command `i` on a string, when the loop of insert mode has returned. -/
theorem doCmd_insert (sys : Sys W) {s t : Vi W} {keys : List Read} (hpos : t.cga.pos < 25 * 80)
    (h : Returns (fun fuel => insertLoop fuel keys none { s with hasChanged := true }) ([], t)) :
    ∃ d, Returns (fun fuel => doCmd sys fuel (chr 'i') keys s) ([], { t with cga := d }) := by
  obtain ⟨d, hd, -, -⟩ := printOnStatusLine_ok [] hpos (by decide)
  refine ⟨d, h.bind (Returns.of_eq ?_)⟩
  dsimp only
  rw [hd, ok_bind]

/-- What is before and behind the cursor of a text. -/
theorem text_take_drop {s : Vi W} (h : Typing s) :
    s.text.take s.dot.toNat = bytes s.mem 0 s.dot.toNat ∧
      s.text.drop s.dot.toNat = bytes s.mem s.dot (s.endp - s.dot).toNat := by
  have hlen := length_bytes s.mem 0 s.dot.toNat
  rw [text_eq h]
  exact ⟨List.take_left' hlen, List.drop_left' hlen⟩

/-- Insert mode keeps the cursor in the text. -/
theorem doCmd_insert_loose {s : Vi W} (h : Loose s) (fuel : ℕ) (keys : List Read) :
    Ensures (doCmd sys fuel (chr 'i') keys s) fun r => Loose r.2 := by
  intro r hr
  have hpath : Path ⟨True, fun _ => False, False, False, False⟩ (keys, s) r :=
    insert_path trivial fuel (path_effect .refl .change) r hr
  refine (hpath.preserves (P := fun t => Loose t ∧ 0 ≤ t.endp) ?_ ?_ ⟨h, h.endp_nonneg⟩).1
  · intro _ _ heff ht
    exact heff.loose (fun _ hm => False.elim hm) (fun hm => False.elim hm) ht.1 ht.2
  · exact fun _ _ _ ht => ⟨{ ht.1 with }, ht.2⟩

/-- In an empty text, a string is not inserted in order. -/
theorem not_typesInOrder_empty {s : Vi W} {str : List UInt8} (hs : Valid s) (he : s.endp = 0)
    (hne : str ≠ []) (hroom : s.endp + str.length ≤ s.textend) : ¬TypesInOrder sys s str := by
  rintro ⟨s', hret, htext, hdot⟩
  have hlen := List.length_pos_of_ne_nil hne
  obtain ⟨fuel, hfuel⟩ := hret.exists
  have hloose := doCmd_insert_loose (hs.loose (by omega)) fuel _ _ hfuel
  have hempty : s.text = [] := by simp [Vi.text, he]
  have hlen' : s'.endp.toNat = str.length := by
    rw [hempty] at htext
    simpa [Vi.text] using congrArg List.length htext
  -- the cursor would have to stand behind the last character
  obtain ⟨h0, h1⟩ := hloose.dot
  have := hs.dot_empty he
  dsimp only at h0 h1
  omega

/-- A valid state with a text that is not empty. -/
theorem Valid.typing {s : Vi W} (h : Valid s) (he : 0 < s.endp) : Typing s :=
  ⟨h.screenbegin_nonneg, h.screenbegin_le, by have := h.dot_le he; omega, h.nul⟩

/-- Typing inserts in order exactly if nothing is typed, or the text is not empty and every text on
the way can be drawn.

**Proof sketch.** If something is typed and the order is right, then the text was not empty, for in
an empty text the characters come out in the wrong order (`not_typesInOrder_empty`), and every text
on the way was drawn (`insertLoop_fits`). Conversely nothing that is typed leaves everything as it
is, and otherwise `insertLoop_returns` gives the text with the string before the cursor. -/
theorem typesInOrder_iff {s : Vi W} {str : List UInt8} (hs : Valid s)
    (hpos : s.cga.pos < 25 * 80) (hstr : ∀ c ∈ str, isPrintChar c = true)
    (hroom : s.endp + str.length ≤ s.textend) :
    TypesInOrder sys s str ↔
      str = [] ∨ 0 < s.endp ∧ TypingFits str s.mem s.endp s.dot s.screenbegin := by
  constructor
  · intro h
    by_cases hne : str = []
    · exact .inl hne
    have he : 0 < s.endp := by
      by_contra hle
      have := hs.endp_nonneg
      exact not_typesInOrder_empty hs (by omega) hne hroom h
    obtain ⟨s', hret, -⟩ := h
    obtain ⟨fuel, hfuel⟩ := hret.exists
    obtain ⟨r, hr, -⟩ := bind_eq_ok.mp hfuel
    have ht : Typing { s with hasChanged := true } := { hs.typing he with }
    exact .inr ⟨he, insertLoop_fits str none ht hpos hstr hroom fuel r hr⟩
  · rintro (rfl | ⟨he, hfits⟩)
    · obtain ⟨d, hd, hesc⟩ := insertLoop_esc (s := { s with hasChanged := true }) hpos none
      obtain ⟨d', hret⟩ := doCmd_insert sys hd (Returns.of_le 0 fun fuel _ => hesc fuel)
      refine ⟨_, hret, ?_, by simp [Vi.act]⟩
      rw [List.append_nil, List.take_append_drop]
      rfl
    · have ht : Typing { s with hasChanged := true } := { hs.typing he with }
      obtain ⟨s', hloop, hpos', hdot, htext⟩ := insertLoop_returns str none ht hpos hstr hroom hfits
      obtain ⟨d, hret⟩ := doCmd_insert sys hpos' hloop
      obtain ⟨h1, h2⟩ := text_take_drop (hs.typing he)
      exact ⟨_, hret, by rw [h1, h2]; exact htext, hdot⟩

/-- A file that has been opened, in a buffer of 10240 bytes, before anything is drawn. -/
def smallFile (content : List UInt8) : Vi Unit :=
  opened (fun _ => NUL) (str "f") content.length content clearedScreen ()

/-- `typesInOrder_iff` for the characters `b`, tab and `c` before the first one of the file `a`. -/
theorem typesInOrder_iff_tab :
    TypesInOrder (readOnly (str "a")) (smallFile (str "a")) [98, TAB, 99] :=
  (typesInOrder_iff (s := smallFile (str "a")) ⟨by decide, by decide, by decide, by decide,
    by decide, by decide, by decide⟩ (by decide) (by decide +kernel) (by decide)).mpr
    (.inr ⟨by decide, by decide +kernel⟩)

/-- In an empty file the second character is put before the first. -/
example : (doCmd (readOnly []) 20 (chr 'i') (typedKeys (str "ab")) (smallFile [])).map
    (fun r => r.2.text) = .ok (str "ba") := by decide +kernel

/-- In an empty file the characters `a` and `b` are not inserted in order. -/
theorem not_forall_typesInOrder : ¬∀ (s : Vi Unit) (str : List UInt8), Valid s →
    s.cga.pos < 25 * 80 → (∀ c ∈ str, isPrintChar c = true) →
    s.endp + str.length ≤ s.textend → TypesInOrder (readOnly []) s str := by
  intro hall
  have hvalid : Valid (smallFile []) := ⟨by decide, by decide, by decide, by decide, by decide,
    by decide, by decide⟩
  exact not_typesInOrder_empty hvalid rfl (by decide) (by decide)
    (hall (smallFile []) (str "ab") hvalid (by decide) (by decide +kernel) (by decide))

end HgXv6
