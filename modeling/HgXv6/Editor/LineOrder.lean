import HgXv6.Editor.LineStart

set_option relaxedAutoImplicit false
set_option autoImplicit false

/-!
# The order of the lines

`prev_line` and `next_line` go from the start of a line to the neighbouring one: the greatest
start of a line below it, and the least one above it that is in the text. There they are inverse
to each other.

## Main definitions

* `HgXv6.LineStarts` — the starts of lines in a text.

## Main results

* `HgXv6.prevLine_isGreatest`, `HgXv6.nextLine_isLeast` — the neighbours.
* `HgXv6.lines_consistent` — the two functions are inverse between them.
-/

namespace HgXv6

open Prog

variable {m : ℤ → UInt8} {e p q : ℤ}

/-- The starts of lines in a text with the end `e`. -/
def LineStarts (m : ℤ → UInt8) (e : ℤ) : Set ℤ := {p | 0 ≤ p ∧ p ≤ e - 1 ∧ LineStart m p}

/-- Before a start of a line, other than the first, there is a newline. -/
theorem LineStart.newline (h : LineStart m p) (hp : 0 < p) : m (p - 1) = NL :=
  h.resolve_left hp.ne'

/-- No start of a line lies between a place and the start of its line. -/
theorem le_beginLine (h : LineStart m q) (h0 : 0 ≤ p) (hqp : q ≤ p) : q ≤ beginLine m p := by
  have hpos := beginLine_nonneg m h0
  by_contra hlt
  exact ne_of_beginLine_le (p := p) (q := q - 1) (by omega) (by omega) (h.newline (by omega))

/-- From the start of a line, `prev_line` goes to the start of the line of the newline before
it. -/
theorem prevLine_eq (h : LineStart m p) (hp : 0 < p) : prevLine m p = beginLine m (p - 1) := by
  unfold prevLine
  rw [h.beginLine]
  dsimp only
  rw [if_pos ⟨hp, h.newline hp⟩]

/-- The end of a line lies before every start of a line behind it. -/
theorem endLine_lt (h : LineStart m q) (h0 : 0 ≤ p) (hpq : p < q) : endLine m e p < q := by
  by_contra hge
  exact ne_of_lt_endLine (p := p) (q := q - 1) (e := e) (by omega) (by omega)
    (h.newline (by omega))

/-- If a line starts behind `p`, then `next_line` goes behind the newline of the line of `p`. -/
theorem nextLine_eq (h : LineStart m q) (h0 : 0 ≤ p) (hpq : p < q) (hq : q ≤ e - 1) :
    nextLine m e p = endLine m e p + 1 ∧ m (endLine m e p) = NL := by
  have hlt := endLine_lt (e := e) h h0 hpq
  have hnl := endLine_stop (m := m) (e := e) (p := p) (by omega)
  refine ⟨?_, hnl⟩
  unfold nextLine
  dsimp only
  rw [if_pos ⟨by omega, hnl⟩]

/-- `prev_line` goes to the greatest start of a line below. -/
theorem prevLine_isGreatest (h : p ∈ LineStarts m e) (hp : 0 < p) :
    IsGreatest {q ∈ LineStarts m e | q < p} (prevLine m p) := by
  obtain ⟨h0, hle, hstart⟩ := h
  have hbegin := beginLine_le m (p - 1)
  rw [prevLine_eq hstart hp]
  constructor
  · refine ⟨⟨beginLine_nonneg m (by omega), by omega, ?_⟩, by omega⟩
    exact beginLine_lineStart (by omega)
  · rintro q ⟨⟨hq0, -, hq⟩, hqp⟩
    exact le_beginLine hq (by omega) (by omega)

/-- `next_line` goes to the least start of a line above, if there is one. -/
theorem nextLine_isLeast (h : p ∈ LineStarts m e) (hq : q ∈ LineStarts m e) (hpq : p < q) :
    IsLeast {r ∈ LineStarts m e | p < r} (nextLine m e p) := by
  obtain ⟨h0, -, -⟩ := h
  obtain ⟨-, hqe, hq⟩ := hq
  have hge := le_endLine m e p
  have hlt := endLine_lt (e := e) hq h0 hpq
  obtain ⟨hnext, hnl⟩ := nextLine_eq hq h0 hpq hqe
  rw [hnext]
  constructor
  · exact ⟨⟨by omega, by omega, lineStart_succ hnl⟩, by omega⟩
  · rintro r ⟨⟨-, -, hr⟩, hpr⟩
    exact endLine_lt hr h0 hpr

/-- The line that `next_line` finds from the start of the line before is the one it started
from. -/
theorem nextLine_prevLine (h : p ∈ LineStarts m e) (hp : 0 < p) :
    nextLine m e (prevLine m p) = p := by
  obtain ⟨h0, hle, hstart⟩ := h
  have hbegin := beginLine_le m (p - 1)
  have hpos := beginLine_nonneg m (show 0 ≤ p - 1 by omega)
  rw [prevLine_eq hstart hp]
  have hend : endLine m e (beginLine m (p - 1)) = p - 1 := by
    refine endLine_eq hbegin (by omega) (fun r h1 h2 => ?_) (.inl (hstart.newline hp))
    exact ne_of_beginLine_le h1 h2
  rw [(nextLine_eq hstart hpos (by omega) hle).1, hend, sub_add_cancel]

/-- And the other way round. -/
theorem prevLine_nextLine (h : p ∈ LineStarts m e) (hq : q ∈ LineStarts m e) (hpq : p < q) :
    prevLine m (nextLine m e p) = p := by
  obtain ⟨⟨hnext, hgt⟩, hleast⟩ := nextLine_isLeast h hq hpq
  have hp0 := h.1
  obtain ⟨⟨hprev, hlt⟩, hgreatest⟩ := prevLine_isGreatest hnext (by omega)
  refine le_antisymm ?_ (hgreatest ⟨h, hgt⟩)
  -- a start of a line between the two would be one that `next_line` had missed
  by_contra hne
  have := hleast ⟨hprev, not_le.mp hne⟩
  omega

/-- **Lines.** From the start of a line `prev_line` and `next_line` go to the neighbouring lines, if
there are any, and back again.

**Proof sketch.** That `prev_line` and `next_line` give the greatest start of a line before and the
least one behind is found by going along the characters between them, none of which follows a
newline. They go back to where they started as nothing lies between two neighbours. -/
theorem lines_consistent (m : ℤ → UInt8) (e p : ℤ) (h : p ∈ LineStarts m e) :
    (0 < p → IsGreatest {q ∈ LineStarts m e | q < p} (prevLine m p) ∧
        nextLine m e (prevLine m p) = p) ∧
      ((∃ q ∈ LineStarts m e, p < q) → IsLeast {q ∈ LineStarts m e | p < q} (nextLine m e p) ∧
        prevLine m (nextLine m e p) = p) := by
  constructor
  · intro hp
    exact ⟨prevLine_isGreatest h hp, nextLine_prevLine h hp⟩
  · rintro ⟨q, hq, hpq⟩
    exact ⟨nextLine_isLeast h hq hpq, prevLine_nextLine h hq hpq⟩

/-- `lines_consistent` for the second of three lines, which is empty. -/
theorem lines_consistent_empty :
    nextLine (newText (fun _ => NUL) 8 (str "a\n\nb")) 4
        (prevLine (newText (fun _ => NUL) 8 (str "a\n\nb")) 2) = 2 ∧
      prevLine (newText (fun _ => NUL) 8 (str "a\n\nb"))
        (nextLine (newText (fun _ => NUL) 8 (str "a\n\nb")) 4 2) = 2 := by
  have hlines := lines_consistent (newText (fun _ => NUL) 8 (str "a\n\nb")) 4 2
    ⟨by decide, by decide, by decide⟩
  exact ⟨(hlines.1 (by decide)).2,
    (hlines.2 ⟨3, ⟨by decide, by decide, by decide⟩, by decide⟩).2⟩

end HgXv6
