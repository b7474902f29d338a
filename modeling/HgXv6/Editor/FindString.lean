import HgXv6.Editor.Search

set_option relaxedAutoImplicit false
set_option autoImplicit false

/-!
# Searching forward

`findString` compares the pattern with the text at each place behind the cursor, turns round at the
last character, and goes on from the start of the text up to the cursor. It never looks at the
first character of the text, and in a text of one character it runs off behind the text.

## Main definitions

* `HgXv6.IsFirst` — the first occurrence in the cyclic order behind the cursor.
* `HgXv6.findString` — the search, with a record of the bytes of the text it compares.
* `HgXv6.FindsFirst` — it returns the first occurrence and compares only bytes of the text.
* `HgXv6.SearchFits` — the condition for it.

## Main results

* `HgXv6.findsFirst_iff` — the condition is exact.
-/

namespace HgXv6

open Prog

variable {W : Type}

/-- `p` is the first place behind the cursor where the pattern occurs, or the cursor if it occurs
nowhere. -/
def IsFirst (m : ℤ → UInt8) (e dot : ℤ) (pat : List UInt8) (p : ℤ) : Prop :=
  Occurs m e pat p ∧ (∀ q, Occurs m e pat q → rank e dot p ≤ rank e dot q) ∨
    (∀ q, ¬Occurs m e pat q) ∧ p = dot

/-- `findString`: the pointer it returns, and the bytes of the text it has compared. -/
def findString (fuel : ℕ) (pat : List UInt8) (s : Vi W) : Except Stop (ℤ × Vi W × List ℤ) :=
  searchRecord fuel forward pat s

/-- `findString` returns the first occurrence behind the cursor, and compares only bytes of the
text and the NUL behind it. -/
def FindsFirst (pat : List UInt8) (s : Vi W) : Prop :=
  ∃ p t reads, Returns (fun fuel => findString fuel pat s) (p, t, reads) ∧
    IsFirst s.mem s.endp s.dot pat p ∧ ∀ a ∈ reads, 0 ≤ a ∧ a ≤ s.endp

/-- The text has at least two characters; and the pattern occurs behind the cursor, or the screen
can be redrawn when the search turns round, and, unless the cursor is on the first character, the
pattern does not occur there. -/
def SearchFits (pat : List UInt8) (s : Vi W) : Prop :=
  2 ≤ s.endp ∧ ((∃ q, s.dot < q ∧ Occurs s.mem s.endp pat q) ∨
    ScreenFits s.mem s.endp s.dot s.screenbegin ∧
      (s.dot = 0 ∨ ¬Occurs s.mem s.endp pat 0))

/-! ## The search is the one counted from the start of the text -/

/-- The commands `n` and `/` search with `findString`. -/
theorem search_eq_findString (fuel : ℕ) (pat : List UInt8) (s : Vi W) :
    search fuel forward pat s = findString fuel pat s >>= fun r => .ok (r.1, r.2.1) :=
  search_eq_record fuel forward pat s

section Forward

variable {pat : List UInt8} {s : Vi W}

theorem firstIn_forward {p : ℤ} :
    FirstIn forward pat s p ↔ IsFirst s.mem s.endp s.dot pat p := by
  simp only [FirstIn, IsFirst, Direction.cursor, forward_at]

/-- It finds the first occurrence if the search does. -/
theorem findsIn_forward : FindsIn forward pat s ↔ FindsFirst pat s := by
  simp only [FindsIn, firstIn_forward]
  rfl

theorem fitsIn_forward : FitsIn forward pat s ↔ SearchFits pat s := by
  simp only [FitsIn, SearchFits, Hit, Direction.cursor, forward_at]

/-- A search that finds the first occurrence meets the condition. -/
theorem FindsFirst.searchFits (h : Typing s) (hne : pat ≠ []) (hpat : NUL ∉ pat)
    (hfinds : FindsFirst pat s) : SearchFits pat s :=
  fitsIn_forward.mp ((findsIn_forward.mpr hfinds).fits forward_sweeps h hne hpat)

end Forward

/-! ## The condition is exact -/

/-- **Searching forward.** With window and cursor in a text that is not empty and a NUL behind it,
`findString` returns the first occurrence of the pattern behind the cursor, in the cyclic order,
exactly if the condition holds.

**Proof sketch.** The search forward is the loop of `Sweep` with the step and the order of
`forward`, and so are its meaning and the condition; for that loop the statement is `findsIn_iff`.
-/
theorem findsFirst_iff (pat : List UInt8) (s : Vi W) (h : Typing s)
    (hpos : s.cga.pos < 25 * 80) (hne : pat ≠ []) (hpat : NUL ∉ pat) :
    FindsFirst pat s ↔ SearchFits pat s := by
  rw [← findsIn_forward, ← fitsIn_forward]
  exact findsIn_iff forward_sweeps h hpos hne hpat

/-- `findsFirst_iff` for a word behind the cursor. -/
theorem findsFirst_iff_word :
    FindsFirst (str "b") (smallFile (str "ab")) ↔ SearchFits (str "b") (smallFile (str "ab")) :=
  findsFirst_iff (str "b") (smallFile (str "ab")) ⟨by decide, by decide, by decide, by decide⟩
    (by decide) (by decide) (by decide)

/-- A search does not find its pattern at the first character of the text when the cursor is
behind it, and does not end well in a text of one character. -/
theorem not_findsFirst :
    ¬FindsFirst (str "a") { smallFile (str "ab") with dot := 1 } ∧
      ¬FindsFirst (str "b") (smallFile (str "a")) := by
  constructor
  · intro hfinds
    have hfits := FindsFirst.searchFits ⟨by decide, by decide, by decide, by decide⟩ (by decide)
      (by decide) hfinds
    rcases hfits.2 with ⟨q, hq, hocc⟩ | ⟨-, hdot | hzero⟩
    · have h1 : (1 : ℤ) < q := hq
      have h2 : q < 2 := hocc.lt (by decide)
      omega
    · exact absurd hdot (by decide)
    · exact hzero ⟨by decide, by decide, by decide⟩
  · intro hfinds
    have hfits := FindsFirst.searchFits ⟨by decide, by decide, by decide, by decide⟩ (by decide)
      (by decide) hfinds
    exact absurd hfits.1 (by decide)

end HgXv6
