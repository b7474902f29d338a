import HgXv6.Editor.Command

set_option relaxedAutoImplicit false
set_option autoImplicit false

/-!
# When the window shows the cursor

`modifyScreenBegin` is meant to leave the cursor inside the window, so that `synchronize` puts
the hardware cursor on one of the text rows. It does exactly if the cursor's line has fewer than
`rows * columns` cells before the cursor, or the cursor is on the last character; on a longer
line its loop does not end.

## Main definitions

* `HgXv6.ShowsCursor` — the adjustment ends with the cursor in the window.
* `HgXv6.longLine` — a text of one long line.

## Main results

* `HgXv6.showsCursor_iff` — when this is so.
-/

namespace HgXv6

open Prog

variable {W : Type}

/-- The adjustment of the window ends, with the window at or above the cursor and fewer than
`rows * columns` cells between the two, and every synchronisation that returns has put the
hardware cursor above row `rows`. -/
def ShowsCursor (s : Vi W) : Prop :=
  (∃ s', Returns (fun fuel => modifyScreenBegin fuel s) s' ∧ s'.screenbegin ≤ s'.dot ∧
    (countCursorPosFromScreenBegin2Dot s').1 < rows * columns) ∧
  ∀ fuel s', synchronize fuel s = .ok s' → s'.cga.pos / columns < rows

/-- Where an adjustment has ended, the count finds the cursor in the window. -/
theorem countCursorPos_adjusted {s s' : Vi W}
    (h : Returns (fun fuel => modifyScreenBegin fuel s) s') :
    s'.screenbegin ≤ s'.dot ∧ (countCursorPosFromScreenBegin2Dot s').1 < rows * columns := by
  obtain ⟨fuel, hfuel⟩ := h.exists
  obtain ⟨b, rfl, hb⟩ := modifyScreenBegin_ensures fuel s s' hfuel
  refine ⟨hb.le, ?_⟩
  rw [countCursorPos_eq, pulledBack_of_le hb.le]
  exact hb.lt

/-- A synchronisation that returns puts the hardware cursor on a text row. -/
theorem synchronize_row {fuel : ℕ} {s s' : Vi W} (h : synchronize fuel s = .ok s') :
    s'.cga.pos / columns < rows := by
  obtain ⟨b, c, rfl, hb, hpos, -⟩ := synchronize_ensures fuel s s' h
  have hlt := hb.lt
  dsimp only
  rw [hpos]
  exact Nat.div_lt_of_lt_mul (by rwa [Nat.mul_comm] at hlt)

/-- For a window and a cursor in the text, the adjustment of the window ends and shows the cursor
exactly if the part of the cursor's line that counts leaves room for it, or the cursor is on the
last character.

**Proof sketch.** Where the line leaves no room, and the cursor is not on the last character, the
loop of `modifyScreenBegin` does not end (`modifyScreenBegin_diverges`). Where it does, the loop
ends with the cursor in the window (`modifyScreenBegin_returns`), and a synchronisation that returns
has put the hardware cursor where `countCursorPos` says. -/
theorem showsCursor_iff {s : Vi W} (hsb : 0 ≤ s.screenbegin) (hdot : 0 ≤ s.dot)
    (hdote : s.dot ≤ s.endp - 1) :
    ShowsCursor s ↔ WindowFits s.mem s.endp s.screenbegin s.dot := by
  constructor
  · rintro ⟨⟨s', hs', -⟩, -⟩
    by_contra hfits
    exact not_returns_of_error (modifyScreenBegin_diverges hsb hdot hdote hfits) s' hs'
  · intro hfits
    have hs' := modifyScreenBegin_returns hsb hdot hdote hfits
    exact ⟨⟨_, hs', countCursorPos_adjusted hs'⟩, fun _ _ => synchronize_row⟩

/-! ## A line that is too long -/

/-- Printable characters take one cell each. -/
theorem cells_printable {m : ℤ → UInt8} {p : ℤ} {n : ℕ}
    (h : ∀ k : ℕ, k < n → chr ' ' ≤ m (p + k) ∧ m (p + k) ≤ chr '~') :
    cells m p (p + n) = n := by
  have hlen : (p + (n : ℤ) - p).toNat = n := by omega
  unfold cells
  rw [hlen]
  clear hlen
  induction n with
  | zero => rfl
  | succ n ih =>
    rw [bytes_succ, List.foldl_append, ih fun k hk => h k (by omega)]
    exact if_pos (h n (by omega))

/-- A line reaches back to the start of the text if there is no newline before it. -/
theorem beginLine_eq_zero {m : ℤ → UInt8} {p : ℤ} (hp : 0 ≤ p)
    (h : ∀ q, 0 ≤ q → q < p → m q ≠ NL) : beginLine m p = 0 := by
  by_contra hne
  have h0 := beginLine_nonneg m hp
  have hle := beginLine_le m p
  exact h (beginLine m p - 1) (by omega) (by omega) (beginLine_start (by omega))

/-- A file of `n` letters, just opened, with the cursor moved to the character `d`. -/
def longLine (n : ℕ) (d : ℤ) : Vi Unit :=
  { opened (fun _ => NUL) (str "f") n (List.replicate n (chr 'a')) clearedScreen () with dot := d }

/-- The characters of this file. -/
theorem longLine_mem {n : ℕ} {d q : ℤ} (h0 : 0 ≤ q) (hq : q < n) :
    (longLine n d).mem q = chr 'a' := by
  have hlt : q.toNat < n := by omega
  simp [longLine, opened, newText, h0, hq, hlt]

/-- The file is a single line. -/
theorem longLine_beginLine {n : ℕ} {d : ℤ} (h0 : 0 ≤ d) (hd : d ≤ n) :
    beginLine (longLine n d).mem d = 0 := by
  refine beginLine_eq_zero h0 fun q hq hqd => ?_
  rw [longLine_mem hq (by omega)]
  decide

/-- The cursor `d` of this file has `d` cells before it. -/
theorem longLine_cells {n : ℕ} {d : ℕ} (hd : d ≤ n) :
    cells (longLine n d).mem 0 d = d := by
  have h := cells_printable (m := (longLine n d).mem) (p := 0) (n := d) fun k hk => by
    rw [longLine_mem (by omega) (by omega)]
    decide
  simpa using h

/-- `showsCursor_iff` on a file of two letters, the cursor on the second. -/
theorem showsCursor_iff_two :
    (0 : ℤ) ≤ 1 ∧ (ShowsCursor (longLine 2 1) ↔
      WindowFits (longLine 2 1).mem (longLine 2 1).endp (longLine 2 1).screenbegin
        (longLine 2 1).dot) :=
  ⟨by decide, showsCursor_iff (s := longLine 2 1) le_rfl (by decide) (by decide)⟩

/-- On a file of 2000 letters the adjustment of the window does not end when the cursor is on
the character 1920. -/
theorem not_forall_showsCursor : ¬∀ s : Vi Unit, 0 ≤ s.screenbegin →
    s.screenbegin ≤ s.endp - 1 → 0 ≤ s.dot → s.dot ≤ s.endp - 1 → ShowsCursor s := by
  intro hall
  obtain ⟨⟨s', hs', -⟩, -⟩ := hall (longLine 2000 1920) (by decide) (by decide) (by decide)
    (by decide)
  have hbegin : beginLine (longLine 2000 1920).mem 1920 = 0 :=
    longLine_beginLine (by decide) (by decide)
  have htop : lineTop (longLine 2000 1920).mem 0 1920 = 0 := by
    rw [lineTop, hbegin]
    exact if_pos ⟨le_rfl, by decide⟩
  have hfits : ¬WindowFits (longLine 2000 1920).mem (longLine 2000 1920).endp
      (longLine 2000 1920).screenbegin (longLine 2000 1920).dot := by
    rintro (h | h)
    · have hcells : cells (longLine 2000 1920).mem 0 1920 = 1920 :=
        longLine_cells (n := 2000) (d := 1920) (by decide)
      rw [show (longLine 2000 1920).screenbegin = 0 from rfl,
        show (longLine 2000 1920).dot = 1920 from rfl, htop, hcells] at h
      exact absurd h (by decide)
    · exact absurd h (by decide)
  exact not_returns_of_error
    (modifyScreenBegin_diverges (by decide) (by decide) (by decide) hfits) s' hs'

end HgXv6
