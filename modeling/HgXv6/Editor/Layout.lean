import HgXv6.Editor.Command

set_option relaxedAutoImplicit false
set_option autoImplicit false

/-!
# Cursor and text agree

The editor counts the cells between the top of the window and the cursor
(`countCursorPosFromScreenBegin2Dot`); the kernel moves its cursor character by character
(`cgaputc`). For printable characters, tabs and newlines the two computations are one function,
so drawing the characters before the cursor leaves the hardware cursor at the counted cell.

## Main definitions

* `HgXv6.CursorAgrees` — the drawing from the top of the window to the cursor, and past it.

## Main results

* `HgXv6.cellStep_eq_drawPos` — both sides move alike on one character.
* `HgXv6.copyLoop_cells` — drawing a stretch that stays in the text rows.
* `HgXv6.cursorAgrees` — the hardware cursor is where the editor counts it.
-/

namespace HgXv6

open Prog

variable {W : Type}

/-- On a printable character, a tab or a newline the editor counts as far as the kernel draws. -/
theorem cellStep_eq_drawPos {b : UInt8} (h : isPrintChar b) (cnt : ℕ) :
    cellStep cnt b = drawPos (.byte b) cnt := by
  unfold cellStep drawPos columns TabLength
  dsimp only
  by_cases hp : chr ' ' ≤ b ∧ b ≤ chr '~'
  · have hnl : b ≠ NL := by
      rintro rfl
      exact absurd hp (by decide)
    have htab : b ≠ TAB := by
      rintro rfl
      exact absurd hp (by decide)
    rw [if_pos hp, if_neg hnl, if_neg htab]
  · rw [if_neg hp]
    by_cases htab : b = TAB
    · have hnl : b ≠ NL := by rw [htab]; decide
      rw [if_pos htab, if_neg hnl, if_pos htab]
    · have hnl : b = NL := by
        simpa [isPrintChar, hp, htab] using h
      rw [if_neg htab, if_pos hnl, if_pos hnl]
      split_ifs <;> omega

/-- A printable character, a tab or a newline is not a NUL. -/
theorem ne_nul_of_isPrintChar {b : UInt8} (h : isPrintChar b) : b ≠ NUL := by
  rintro rfl
  exact absurd h (by decide)

/-- `cgaputc` where the drawn cursor is in the text rows: it goes there without scrolling. -/
theorem cgaputc_textRows {b : UInt8} {s : Cga} (h : drawPos (.byte b) s.pos < 24 * 80) :
    ∃ s', cgaputc (.byte b) s = .ok s' ∧ s'.pos = drawPos (.byte b) s.pos ∧
      s'.scrolls = s.scrolls := by
  refine ⟨_, cgaputc_eq (by omega), ?_⟩
  rw [if_neg (by omega)]
  exact ⟨by simp [Cga.blank], by simp [Cga.blank]⟩

/-- Drawing `k` characters that stay in the text rows takes the cursor as far as they are
counted, without scrolling; the drawing of what follows goes on from there.

**Proof sketch.** Induction on `k`. Counting goes up, so with the whole stretch each part of it
stays in the text rows, where the loop of `copyFromTextToScreen` does not stop. -/
theorem copyLoop_cells {m : ℤ → UInt8} {p : ℤ} {k : ℕ} {s : Cga}
    (hprint : ∀ i : ℕ, i < k → isPrintChar (m (p + i)))
    (hlt : (bytes m p k).foldl cellStep s.pos < rows * columns) :
    ∃ s', (∀ n, copyLoop m p (k + n) s = copyLoop m (p + k) n s') ∧
      s'.pos = (bytes m p k).foldl cellStep s.pos ∧ s'.scrolls = s.scrolls := by
  induction k generalizing p s with
  | zero => exact ⟨s, fun n => by simp, rfl, rfl⟩
  | succ k ih =>
    rw [bytes_succ', List.foldl_cons] at hlt ⊢
    have hp : isPrintChar (m p) := by simpa using hprint 0 (Nat.succ_pos k)
    have hrest : ∀ i : ℕ, i < k → isPrintChar (m (p + 1 + i)) := fun i hi => by
      have := hprint (i + 1) (by omega)
      rwa [show p + ((i + 1 : ℕ) : ℤ) = p + 1 + i by push_cast; ring] at this
    have hstep : cellStep s.pos (m p) < rows * columns :=
      lt_of_le_of_lt (le_foldl_cellStep _ _) hlt
    have heq := cellStep_eq_drawPos hp s.pos
    rw [heq] at hstep hlt ⊢
    obtain ⟨t, ht, hpos, hscr⟩ := cgaputc_textRows hstep
    rw [← hpos] at hlt ⊢
    obtain ⟨u, hu, hupos, huscr⟩ := ih hrest hlt
    refine ⟨u, fun n => ?_, hupos, huscr.trans hscr⟩
    have hstay : ¬(t.pos = 25 * 80 - 1 ∨ 24 * 80 ≤ t.pos ∧ m (p + 1) = NL) := by
      rw [hpos]
      unfold rows columns at hstep
      omega
    rw [show k + 1 + n = k + n + 1 by ring, copyLoop, if_neg (ne_nul_of_isPrintChar hp), ht,
      ok_bind, if_neg hstay, hu n]
    congr 1
    push_cast
    ring

/-- A printable character is drawn in the cell of the cursor. -/
theorem cgaputc_ch {b : UInt8} {s : Cga} (hb : chr ' ' ≤ b ∧ b ≤ chr '~')
    (hpos : s.pos < 24 * 80) :
    ∃ s', cgaputc (.byte b) s = .ok s' ∧ (s'.crt s.pos).ch = b := by
  have hnl : b ≠ NL := by
    rintro rfl
    exact absurd hb (by decide)
  have htab : b ≠ TAB := by
    rintro rfl
    exact absurd hb (by decide)
  have hdraw : cgaDraw (.byte b) s = s.put b := by
    simp only [cgaDraw, hnl, htab, if_false]
  have hnext : drawPos (.byte b) s.pos = s.pos + 1 := by
    simp only [drawPos, hnl, htab, if_false]
  refine ⟨_, cgaputc_eq (by omega), ?_⟩
  rw [if_neg (by omega), hdraw]
  simp only [Cga.blank, Cga.put]
  rw [Function.update_of_ne (by omega), Function.update_self]

/-- With `k` the number of characters between the top of the window and the cursor: on a cleared
screen the kernel draws `k` characters so that its cursor is where the editor counts it, without
scrolling, and draws `k + 1` of them so that a printable character under the cursor is in that
cell. -/
def CursorAgrees (s : Vi W) (k : ℕ) : Prop :=
  (∃ c, copyFromTextToScreen s.mem s.screenbegin 0 k (clearScreen s.cga) = .ok c ∧
    c.pos = (countCursorPosFromScreenBegin2Dot s).1 ∧ c.scrolls = s.cga.scrolls) ∧
  ∃ c, copyFromTextToScreen s.mem s.screenbegin 0 (k + 1) (clearScreen s.cga) = .ok c ∧
    (chr ' ' ≤ s.mem s.dot ∧ s.mem s.dot ≤ chr '~' →
      (c.crt (countCursorPosFromScreenBegin2Dot s).1).ch = s.mem s.dot)

/-- The cursor agrees with the text wherever the window shows it, on every text of printable
characters, tabs and newlines.

**Proof sketch.** The count adds up `cellStep` over the characters from the top of the window to the
cursor, and the drawing adds up `drawPos` over the same characters; on printable characters, tabs
and newlines the two are the same function (`cellStep_eq_drawPos`). Since the count ends within the
text rows, the loop of the drawing neither stops before the cursor nor scrolls (`copyLoop_cells`),
so that it reaches `*dot` with the cursor of the screen at the counted cell, and draws it there. -/
theorem cursorAgrees {s : Vi W} {k : ℕ}
    (hprint : ∀ p, 0 ≤ p → p < s.endp → isPrintChar (s.mem p)) (hsb : 0 ≤ s.screenbegin)
    (hk : s.dot = s.screenbegin + k) (hdot : s.dot ≤ s.endp)
    (hcount : (countCursorPosFromScreenBegin2Dot s).1 < rows * columns) : CursorAgrees s k := by
  unfold CursorAgrees
  have hcells : (countCursorPosFromScreenBegin2Dot s).1 =
      (bytes s.mem s.screenbegin k).foldl cellStep 0 := by
    rw [countCursorPos_eq, pulledBack_of_le (by omega), cells,
      show (s.dot - s.screenbegin).toNat = k by omega]
  rw [hcells] at hcount ⊢
  -- the kernel starts at the first cell of the cleared screen
  obtain ⟨c₀, h₀, hpos₀⟩ := setCursorPos_ok (x := (0 : ℤ).tdiv 80) (y := (0 : ℤ).tmod 80)
    (clearScreen s.cga) ⟨by decide, by decide, by decide, by decide⟩
  replace hpos₀ : c₀.pos = 0 := hpos₀
  have hscr₀ : c₀.scrolls = s.cga.scrolls := (setCursorPos_scrolls h₀).trans rfl
  rw [← hpos₀] at hcount ⊢
  obtain ⟨c, hloop, hpos, hscr⟩ := copyLoop_cells (fun i hi => hprint _ (by omega) (by omega))
    hcount
  have hdraw : ∀ n : ℕ, copyFromTextToScreen s.mem s.screenbegin 0 ((k + n : ℕ) : ℤ)
      (clearScreen s.cga) = copyLoop s.mem s.dot n c := fun n => by
    rw [copyFromTextToScreen, h₀, ok_bind, Int.toNat_natCast, hloop n, hk]
  refine ⟨⟨c, hdraw 0, hpos, hscr.trans hscr₀⟩, ?_⟩
  rw [← hpos] at hcount ⊢
  have hdraw1 : copyFromTextToScreen s.mem s.screenbegin 0 (k + 1) (clearScreen s.cga) =
      copyLoop s.mem s.dot 1 c := by
    have := hdraw 1
    push_cast at this
    exact this
  rw [hdraw1, copyLoop]
  by_cases h0 : s.mem s.dot = NUL
  · refine ⟨c, if_pos h0, fun hb => ?_⟩
    rw [h0] at hb
    exact absurd hb (by decide)
  · rw [if_neg h0]
    by_cases hb : chr ' ' ≤ s.mem s.dot ∧ s.mem s.dot ≤ chr '~'
    · obtain ⟨c', hc', hch⟩ := cgaputc_ch hb hcount
      refine ⟨c', ?_, fun _ => hch⟩
      rw [hc', ok_bind]
      split_ifs <;> rfl
    · unfold rows columns at hcount
      have htab : ¬TabOverflow (.byte (s.mem s.dot)) c.pos := fun h => by
        have := h.2
        omega
      obtain ⟨c', hc', -⟩ := cgaputc_ok (c := .byte (s.mem s.dot)) (by omega) htab
      refine ⟨c', ?_, fun h => absurd h hb⟩
      rw [hc', ok_bind]
      split_ifs <;> rfl

/-- `cursorAgrees` on a file of a newline, a tab and a letter, the cursor on the letter. -/
theorem cursorAgrees_letter :
    (countCursorPosFromScreenBegin2Dot
      { opened (fun _ => NUL) (str "f") 3 [NL, TAB, chr 'a'] clearedScreen () with dot := 2 }).1 =
        84 ∧
    CursorAgrees
      { opened (fun _ => NUL) (str "f") 3 [NL, TAB, chr 'a'] clearedScreen () with dot := 2 } 2 :=
  ⟨by decide, cursorAgrees (s := { opened (fun _ => NUL) (str "f") 3 [NL, TAB, chr 'a']
    clearedScreen () with dot := 2 }) (fun p h0 h3 => by
      obtain rfl | rfl | rfl : p = 0 ∨ p = 1 ∨ p = 2 := by
        replace h3 : p < 3 := h3
        omega
      all_goals decide)
    le_rfl rfl (by decide) (by decide)⟩

end HgXv6
