import Mathlib.Algebra.GroupWithZero.Nat
import HgXv6.Console.Cursor

set_option relaxedAutoImplicit false
set_option autoImplicit false

/-!
# The text rows and the last row

The editor draws the text in rows 0 to 23 and its messages in row 24. Drawing that starts in row
24 and does not reach the end of it changes no character above, and does not scroll.

The last section shows that what is drawn on a cleared screen does not depend on what the screen
held before.

## Main definitions

* `HgXv6.SameRows` — the same characters in the text rows.
* `HgXv6.RowFits` — a string that, written from a place of the last row on, stays in it.
* `HgXv6.RowOnly` — screens that differ in the last row only.
* `HgXv6.SameScreen` — the same cursor and the same visible cells.

## Main results

* `HgXv6.consolewrite_rowFits` — such a string changes no text row.
* `HgXv6.consolewrite_rowOnly` — a string written there without a scroll is one.
* `HgXv6.copyFromTextToScreen_clear` — drawing on a cleared screen.
-/

namespace HgXv6

open Prog

/-- The same characters in rows 0 to 23. -/
def SameRows (s t : Cga) : Prop := ∀ i < 24 * 80, (s.crt i).ch = (t.crt i).ch

/-- The text rows of a screen are its own. -/
theorem SameRows.refl (s : Cga) : SameRows s s := fun _ _ => rfl

theorem SameRows.trans {s t u : Cga} (h : SameRows s t) (h' : SameRows t u) : SameRows s u :=
  fun i hi => (h i hi).trans (h' i hi)

/-- The cells a byte takes in a row; a newline takes the rest of it. -/
def cellWidth (b : UInt8) : ℕ := if b = TAB then 4 else 1

/-- The cells a string without newlines takes. -/
def rowWidth (bs : List UInt8) : ℕ := (bs.map cellWidth).sum

/-- Written from the cursor `pos` of the last row on, `bs` stays in that row. -/
def RowFits (bs : List UInt8) (pos : ℕ) : Prop := NL ∉ bs ∧ pos + rowWidth bs < 25 * 80

instance (bs : List UInt8) (pos : ℕ) : Decidable (RowFits bs pos) :=
  inferInstanceAs (Decidable (_ ∧ _))

/-- Moving the cursor changes no character. -/
theorem setCursorPos_ch {x y : ℤ} {s s' : Cga} (h : setCursorPos x y s = .ok s') (i : ℕ) :
    (s'.crt i).ch = (s.crt i).ch := by
  unfold setCursorPos at h
  split_ifs at h
  cases h
  simp only [Function.update_apply]
  split_ifs with hi
  · rw [hi]
  · rfl

/-- Where the cursor is after it was moved. -/
theorem setCursorPos_pos {x y : ℤ} {s s' : Cga} (h : setCursorPos x y s = .ok s') :
    OnScreen x y ∧ s'.pos = (x * 80 + y).toNat := by
  by_cases hon : OnScreen x y
  · obtain ⟨t, ht, hpos⟩ := setCursorPos_ok s hon
    rw [ht] at h
    cases h
    exact ⟨hon, hpos⟩
  · rw [setCursorPos_panic s hon] at h
    cases h

/-- Moving the cursor does not scroll. -/
theorem setCursorPos_scrolls {x y : ℤ} {s s' : Cga} (h : setCursorPos x y s = .ok s') :
    s'.scrolls = s.scrolls := by
  unfold setCursorPos at h
  split_ifs at h
  cases h
  rfl

/-- Moving the cursor back to where it was. -/
theorem setCursorPos_restore {p : ℕ} (s : Cga) (h : p < 25 * 80) :
    ∃ s', setCursorPos ((p / 80 : ℕ) : ℤ) ((p % 80 : ℕ) : ℤ) s = .ok s' ∧ s'.pos = p := by
  obtain ⟨s', hs, hpos⟩ := setCursorPos_ok (x := ((p / 80 : ℕ) : ℤ)) (y := ((p % 80 : ℕ) : ℤ)) s
    ⟨by omega, by omega, by omega, by omega⟩
  exact ⟨s', hs, by omega⟩

/-- A byte of the last row that leaves room after it: the cursor moves on by its width, nothing
before it changes, and the screen does not scroll. -/
theorem cgaputc_row {b : UInt8} {s : Cga} (hb : b ≠ NL) (h : s.pos + cellWidth b < 25 * 80) :
    ∃ s', cgaputc (.byte b) s = .ok s' ∧ s'.pos = s.pos + cellWidth b ∧
      (∀ i < s.pos, s'.crt i = s.crt i) ∧ s'.scrolls = s.scrolls := by
  have hdraw : drawPos (.byte b) s.pos = s.pos + cellWidth b := by
    simp only [drawPos, cellWidth, hb, if_false]
    split_ifs <;> rfl
  refine ⟨_, cgaputc_eq (by omega), ?_⟩
  rw [if_neg (by omega)]
  refine ⟨by simp [Cga.blank, hdraw], fun i hi => ?_, by simp [Cga.blank]⟩
  simp only [Cga.blank, cgaDraw_pos, hdraw]
  rw [Function.update_of_ne (by omega)]
  simp only [cgaDraw, hb, if_false]
  split_ifs
  · simp only [Cga.put]
    rw [Function.update_of_ne (by omega), Function.update_of_ne (by omega),
      Function.update_of_ne (by omega), Function.update_of_ne (by omega)]
  · simp only [Cga.put]
    rw [Function.update_of_ne (by omega)]

/-- A string that stays in the last row. -/
theorem consolewrite_row {bs : List UInt8} {s : Cga} (h : RowFits bs s.pos) :
    ∃ s', consolewrite bs s = .ok s' ∧ s'.pos = s.pos + rowWidth bs ∧
      (∀ i < s.pos, s'.crt i = s.crt i) ∧ s'.scrolls = s.scrolls := by
  induction bs generalizing s with
  | nil => exact ⟨s, rfl, by simp [rowWidth], fun _ _ => rfl, rfl⟩
  | cons b bs ih =>
    obtain ⟨hnl, hw⟩ := h
    simp only [rowWidth, List.map_cons, List.sum_cons] at hw
    simp only [List.mem_cons, not_or] at hnl
    obtain ⟨t, ht, hpos, hcells, hscr⟩ := cgaputc_row (b := b) (s := s) (Ne.symm hnl.1) (by omega)
    obtain ⟨u, hu, hpos', hcells', hscr'⟩ := ih (s := t) ⟨hnl.2, by
      unfold rowWidth
      omega⟩
    refine ⟨u, ?_, ?_, fun i hi => ?_, hscr'.trans hscr⟩
    · simp only [consolewrite, consputc, ht, ok_bind, hu]
    · simp only [rowWidth, List.map_cons, List.sum_cons] at hpos' ⊢
      omega
    · rw [hcells' i (by omega), hcells i hi]

/-- A string that stays in the last row changes no text row. -/
theorem consolewrite_rowFits {bs : List UInt8} {s : Cga} (h : RowFits bs s.pos)
    (hrow : 24 * 80 ≤ s.pos) :
    ∃ s', consolewrite bs s = .ok s' ∧ s'.pos = s.pos + rowWidth bs ∧ SameRows s' s ∧
      s'.scrolls = s.scrolls := by
  obtain ⟨s', hs, hpos, hcells, hscr⟩ := consolewrite_row h
  exact ⟨s', hs, hpos, fun i hi => by rw [hcells i (by omega)], hscr⟩

/-! ## The last row and nothing else -/

/-- Only cells of the last row differ, and the screen has not scrolled. -/
structure RowOnly (s t : Cga) : Prop where
  cells : ∀ i, i < 24 * 80 ∨ 25 * 80 ≤ i → t.crt i = s.crt i
  scrolls : t.scrolls = s.scrolls

theorem RowOnly.symm {s t : Cga} (h : RowOnly s t) : RowOnly t s :=
  ⟨fun i hi => (h.cells i hi).symm, h.scrolls.symm⟩

theorem RowOnly.trans {s t u : Cga} (h : RowOnly s t) (h' : RowOnly t u) : RowOnly s u :=
  ⟨fun i hi => (h'.cells i hi).trans (h.cells i hi), h'.scrolls.trans h.scrolls⟩

/-- Cells before the cursor, and from where it goes on, are not drawn. -/
theorem cgaDraw_crt {b : UInt8} {s : Cga} {i : ℕ} (hi : i < s.pos ∨ drawPos (.byte b) s.pos ≤ i) :
    (cgaDraw (.byte b) s).crt i = s.crt i := by
  simp only [drawPos] at hi
  simp only [cgaDraw]
  split_ifs at hi ⊢
  · rfl
  · simp only [Cga.put]
    rw [Function.update_of_ne (by omega), Function.update_of_ne (by omega),
      Function.update_of_ne (by omega), Function.update_of_ne (by omega)]
  · simp only [Cga.put]
    rw [Function.update_of_ne (by omega)]

/-- A byte drawn in the last row without a scroll: it is no newline, the cursor moves on by its
width within the row, and no other row changes. -/
theorem cgaputc_rowOnly {b : UInt8} {s s' : Cga} (hrow : 24 * 80 ≤ s.pos)
    (hlt : s.pos < 25 * 80) (hs : cgaputc (.byte b) s = .ok s') (hscr : s'.scrolls = s.scrolls) :
    b ≠ NL ∧ s'.pos = s.pos + cellWidth b ∧ s'.pos < 25 * 80 ∧ RowOnly s s' := by
  obtain ⟨hpos, hlt'⟩ := cgaputc_drawPos hs hscr
  have hb : b ≠ NL := by
    rintro rfl
    simp only [drawPos, if_true] at hpos
    omega
  have hw : drawPos (.byte b) s.pos = s.pos + cellWidth b := by
    simp only [drawPos, cellWidth, hb, if_false]
    split_ifs <;> rfl
  refine ⟨hb, hpos.trans hw, hlt', ⟨fun i hi => ?_, hscr⟩⟩
  rw [cgaputc_eq (by omega), if_neg (by omega)] at hs
  cases hs
  simp only [Cga.blank, cgaDraw_pos] at hpos hlt' ⊢
  rw [Function.update_of_ne (by omega), cgaDraw_crt (by omega)]

/-- A write does not take scrolls back. -/
theorem consolewrite_scrolls_le {bs : List UInt8} {s s' : Cga} (hs : consolewrite bs s = .ok s') :
    s.scrolls ≤ s'.scrolls := by
  induction bs generalizing s with
  | nil => cases hs; exact le_rfl
  | cons b bs ih =>
    obtain ⟨t, ht, hs⟩ := bind_eq_ok.mp hs
    exact (cgaputc_scrolls_le ht).trans (ih hs)

/-- A string written in the last row without a scroll fits there, and no other row changes.

**Proof sketch.** Induction on the string. Scrolls are only added, so neither the first byte nor the
rest has scrolled. A byte that does not scroll in the last row is no newline, takes its cells of
that row and changes nothing outside it (`cgaputc_rowOnly`), and the widths add up. -/
theorem consolewrite_rowOnly {bs : List UInt8} {s s' : Cga} (hrow : 24 * 80 ≤ s.pos)
    (hlt : s.pos < 25 * 80) (hs : consolewrite bs s = .ok s') (hscr : s'.scrolls = s.scrolls) :
    RowFits bs s.pos ∧ RowOnly s s' := by
  induction bs generalizing s with
  | nil =>
    cases hs
    exact ⟨⟨List.not_mem_nil, hlt⟩, fun _ _ => rfl, rfl⟩
  | cons b bs ih =>
    obtain ⟨t, ht, hs⟩ := bind_eq_ok.mp hs
    have hst := cgaputc_scrolls_le ht
    have htu := consolewrite_scrolls_le hs
    obtain ⟨hb, hpos, hlt', honly⟩ := cgaputc_rowOnly hrow hlt ht (by omega)
    obtain ⟨⟨hnl, hw⟩, honly'⟩ := ih (by omega) hlt' hs (by omega)
    refine ⟨⟨by simpa using ⟨Ne.symm hb, hnl⟩, ?_⟩, honly.trans honly'⟩
    simp only [rowWidth, List.map_cons, List.sum_cons] at hw ⊢
    omega

/-- The cell `p` is lit: moving the cursor there does not change it. -/
def LitAt (s : Cga) (p : ℕ) : Prop := (s.crt p).attr ||| 7 = (s.crt p).attr

instance (s : Cga) (p : ℕ) : Decidable (LitAt s p) := inferInstanceAs (Decidable (_ = _))

/-- The cell under the cursor is lit after the cursor was moved there. -/
theorem setCursorPos_litAt {x y : ℤ} {s s' : Cga} (h : setCursorPos x y s = .ok s') :
    LitAt s' s'.pos := by
  unfold setCursorPos at h
  split_ifs at h
  cases h
  simp only [LitAt, Function.update_self]
  rw [UInt8.or_assoc, UInt8.or_self]

/-- Moving the cursor changes no other cell, and this one only if it was not lit. -/
theorem setCursorPos_crt {x y : ℤ} {s s' : Cga} (h : setCursorPos x y s = .ok s') {i : ℕ}
    (hi : i = s'.pos → LitAt s i) : s'.crt i = s.crt i := by
  unfold setCursorPos at h
  split_ifs at h
  cases h
  simp only [Function.update_apply]
  split_ifs with heq
  · subst heq
    have hlit : (s.crt (x * 80 + y).toNat).attr ||| 7 = _ := hi rfl
    rw [hlit]
  · rfl

/-- A screen that differs in the last row only has the same lit cells in the others. -/
theorem RowOnly.litAt {s t : Cga} (h : RowOnly s t) {p : ℕ} (hp : p < 24 * 80) :
    LitAt t p ↔ LitAt s p := by
  unfold LitAt
  rw [h.cells p (.inl hp)]

/-! ## Drawing on a cleared screen -/

/-- The same cursor and the same visible cells. -/
def SameScreen (s t : Cga) : Prop := s.pos = t.pos ∧ ∀ i < 25 * 80, s.crt i = t.crt i

/-- Visible cells that agree still do after one of them is overwritten. -/
theorem sameCells_update {f g : ℕ → Cell} (h : ∀ i < 25 * 80, f i = g i) (p : ℕ) {a b : Cell}
    (hab : p < 25 * 80 → a = b) :
    ∀ i < 25 * 80, Function.update f p a i = Function.update g p b i := by
  intro i hi
  simp only [Function.update_apply]
  split_ifs with hp
  · exact hab (hp ▸ hi)
  · exact h i hi

/-- Screens that agree still do after one cell is drawn. -/
theorem SameScreen.put {s t : Cga} (h : SameScreen s t) (b : UInt8) :
    SameScreen (s.put b) (t.put b) := by
  refine ⟨by simp [Cga.put, h.1], ?_⟩
  simp only [Cga.put, h.1]
  exact sameCells_update h.2 _ fun _ => rfl

/-- Screens that agree still do after the drawing half of `cgaputc`. -/
theorem SameScreen.cgaDraw {s t : Cga} (h : SameScreen s t) (c : Glyph) :
    SameScreen (HgXv6.cgaDraw c s) (HgXv6.cgaDraw c t) := by
  cases c with
  | backspace =>
    simp only [HgXv6.cgaDraw, h.1]
    split_ifs
    · exact ⟨rfl, h.2⟩
    · exact h
  | byte b =>
    simp only [HgXv6.cgaDraw, h.1]
    split_ifs
    · exact ⟨rfl, h.2⟩
    · exact (((h.put SPACE).put SPACE).put SPACE).put SPACE
    · exact h.put b

/-- Screens that agree still do after a scroll. -/
theorem SameScreen.scrollUp {s t : Cga} (h : SameScreen s t) :
    SameScreen s.scrollUp t.scrollUp := by
  refine ⟨by simp [Cga.scrollUp, h.1], fun i hi => ?_⟩
  simp only [Cga.scrollUp, h.1]
  split_ifs
  · rfl
  · exact h.2 _ (by omega)
  · exact h.2 _ hi

/-- Screens that agree still do after the cell under the cursor is blanked. -/
theorem SameScreen.blank {s t : Cga} (h : SameScreen s t) : SameScreen s.blank t.blank := by
  refine ⟨h.1, ?_⟩
  simp only [Cga.blank, h.1]
  exact sameCells_update h.2 _ fun _ => rfl

/-- `cgaputc` on screens that agree. -/
theorem SameScreen.cgaputc {s t s' : Cga} (h : SameScreen s t) {c : Glyph}
    (hs : HgXv6.cgaputc c s = .ok s') : ∃ t', HgXv6.cgaputc c t = .ok t' ∧ SameScreen s' t' := by
  have hd := h.cgaDraw c
  simp only [HgXv6.cgaputc, hd.1] at hs ⊢
  split_ifs at hs ⊢ with h1 h2
  · cases hs
    exact ⟨_, rfl, hd.scrollUp.blank⟩
  · cases hs
    exact ⟨_, rfl, hd.blank⟩

/-- `setCursorPos` on screens that agree. -/
theorem SameScreen.setCursorPos {s t s' : Cga} (h : SameScreen s t) {x y : ℤ}
    (hs : HgXv6.setCursorPos x y s = .ok s') :
    ∃ t', HgXv6.setCursorPos x y t = .ok t' ∧ SameScreen s' t' := by
  simp only [HgXv6.setCursorPos] at hs ⊢
  split_ifs at hs ⊢
  cases hs
  refine ⟨_, rfl, rfl, sameCells_update h.2 _ fun hp => by rw [h.2 _ hp]⟩

/-- The loop of `copyFromTextToScreen` on screens that agree. -/
theorem SameScreen.copyLoop {m : ℤ → UInt8} {p : ℤ} {n : ℕ} {s t s' : Cga}
    (h : SameScreen s t) (hs : HgXv6.copyLoop m p n s = .ok s') :
    ∃ t', HgXv6.copyLoop m p n t = .ok t' ∧ SameScreen s' t' := by
  induction n generalizing p s t with
  | zero => cases hs; exact ⟨t, rfl, h⟩
  | succ n ih =>
    simp only [HgXv6.copyLoop] at hs ⊢
    split_ifs at hs ⊢ with h0
    · cases hs
      exact ⟨t, rfl, h⟩
    · obtain ⟨s₁, hs₁, hs⟩ := bind_eq_ok.mp hs
      obtain ⟨t₁, ht₁, h₁⟩ := h.cgaputc hs₁
      rw [ht₁]
      simp only [ok_bind, h₁.1] at hs ⊢
      split_ifs at hs ⊢
      · cases hs
        exact ⟨t₁, rfl, h₁⟩
      · exact ih h₁ hs

/-- Cleared screens agree. -/
theorem sameScreen_clear (s t : Cga) : SameScreen (clearScreen s) (clearScreen t) := by
  refine ⟨rfl, ?_⟩
  simp only [clearScreen, Cga.blank]
  exact sameCells_update (fun i hi => by rw [if_pos hi, if_pos hi]) _ fun _ => rfl

/-- What is drawn on a cleared screen does not depend on the screen before. -/
theorem copyFromTextToScreen_clear {m : ℤ → UInt8} {p pos len : ℤ} {s s' : Cga} (t : Cga)
    (h : copyFromTextToScreen m p pos len (clearScreen s) = .ok s') :
    ∃ t', copyFromTextToScreen m p pos len (clearScreen t) = .ok t' ∧ SameScreen s' t' := by
  obtain ⟨s₁, hs₁, h⟩ := bind_eq_ok.mp h
  obtain ⟨t₁, ht₁, h₁⟩ := (sameScreen_clear s t).setCursorPos hs₁
  unfold copyFromTextToScreen
  rw [ht₁]
  exact h₁.copyLoop h

/-- Screens that agree have the same text rows. -/
theorem SameScreen.rows {s t : Cga} (h : SameScreen s t) : SameRows s t :=
  fun i hi => by rw [h.2 i (by omega)]

end HgXv6
