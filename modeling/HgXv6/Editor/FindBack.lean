import HgXv6.Editor.Search

set_option relaxedAutoImplicit false
set_option autoImplicit false

/-!
# Searching backward

`reverseFindString` compares the pattern with the text at each place before the cursor, turns round
at the first character, and goes on from the end of the text down to the cursor. It steps back
before it compares, also after it has turned round, so that it never looks at the last character of
the text; and in a text of one character it runs off before the text.

## Main definitions

* `HgXv6.IsFirstBack` — the first occurrence in the cyclic order before the cursor.
* `HgXv6.reverseFindString` — the search, with a record of the bytes of the text it compares.
* `HgXv6.FindsBack` — it returns the first occurrence and compares only bytes of the text.
* `HgXv6.ReverseFits` — the condition for it.

## Main results

* `HgXv6.findsBack_iff` — the condition is exact.
-/

namespace HgXv6

open Prog

variable {W : Type}

/-- How far before the cursor a place is, in the order in which a search backward visits the text:
the places before the cursor first, then those from the end of the text down to it. -/
def backRank (e dot q : ℤ) : ℤ := if q < dot then dot - 1 - q else dot + (e - 1 - q)

/-- `p` is the first place before the cursor where the pattern occurs, or the cursor if it occurs
nowhere. -/
def IsFirstBack (m : ℤ → UInt8) (e dot : ℤ) (pat : List UInt8) (p : ℤ) : Prop :=
  Occurs m e pat p ∧ (∀ q, Occurs m e pat q → backRank e dot p ≤ backRank e dot q) ∨
    (∀ q, ¬Occurs m e pat q) ∧ p = dot

/-- `reverseFindString`: the pointer it returns, and the bytes of the text it has compared. -/
def reverseFindString (fuel : ℕ) (pat : List UInt8) (s : Vi W) :
    Except Stop (ℤ × Vi W × List ℤ) :=
  searchRecord fuel backward pat s

/-- `reverseFindString` returns the first occurrence before the cursor, and compares only bytes of
the text and the NUL behind it. -/
def FindsBack (pat : List UInt8) (s : Vi W) : Prop :=
  ∃ p t reads, Returns (fun fuel => reverseFindString fuel pat s) (p, t, reads) ∧
    IsFirstBack s.mem s.endp s.dot pat p ∧ ∀ a ∈ reads, 0 ≤ a ∧ a ≤ s.endp

/-- The text has at least two characters; and the pattern occurs before the cursor, or the screen
can be redrawn when the search turns round, and, unless the cursor is on the last character, the
pattern does not occur there. -/
def ReverseFits (pat : List UInt8) (s : Vi W) : Prop :=
  2 ≤ s.endp ∧ ((∃ q, q < s.dot ∧ Occurs s.mem s.endp pat q) ∨
    ScreenFits s.mem s.endp s.dot s.screenbegin ∧
      (s.dot = s.endp - 1 ∨ ¬Occurs s.mem s.endp pat (s.endp - 1)))

/-! ## The search is the one counted from the end of the text -/

/-- The command `N` searches with `reverseFindString`. -/
theorem search_eq_reverseFindString (fuel : ℕ) (pat : List UInt8) (s : Vi W) :
    search fuel backward pat s = reverseFindString fuel pat s >>= fun r => .ok (r.1, r.2.1) :=
  search_eq_record fuel backward pat s

/-- Counted from the end of the text, the order of the search is the one before the cursor. -/
theorem rank_backward (e dot q : ℤ) :
    rank e (backward.at e dot) (backward.at e q) = backRank e dot q := by
  rw [backward_at, backward_at, rank, backRank]
  split_ifs <;> omega

section Backward

variable {pat : List UInt8} {s : Vi W}

theorem firstIn_backward {p : ℤ} :
    FirstIn backward pat s p ↔ IsFirstBack s.mem s.endp s.dot pat p := by
  simp only [FirstIn, IsFirstBack, Direction.cursor, rank_backward]

/-- It finds the first occurrence if the search does. -/
theorem findsIn_backward : FindsIn backward pat s ↔ FindsBack pat s := by
  simp only [FindsIn, firstIn_backward]
  rfl

/-- The places behind the cursor in the order of the search are those before it in the text. -/
theorem hit_behind : (∃ k, backward.cursor s < k ∧ Hit backward pat s k) ↔
    ∃ q, q < s.dot ∧ Occurs s.mem s.endp pat q := by
  simp only [Hit, Direction.cursor, backward_at]
  constructor
  · rintro ⟨k, hk, hit⟩
    exact ⟨_, by omega, hit⟩
  · rintro ⟨q, hq, hocc⟩
    exact ⟨s.endp - 1 - q, by omega, by rwa [sub_sub_cancel]⟩

theorem fitsIn_backward : FitsIn backward pat s ↔ ReverseFits pat s := by
  have hcursor : backward.cursor s = 0 ↔ s.dot = s.endp - 1 := by
    rw [Direction.cursor, backward_at]
    omega
  have hzero : Hit backward pat s 0 ↔ Occurs s.mem s.endp pat (s.endp - 1) := by
    rw [Hit, backward_at, sub_zero]
  rw [FitsIn, ReverseFits, hit_behind, hcursor, hzero]

/-- A search that finds the first occurrence meets the condition. -/
theorem FindsBack.reverseFits (h : Typing s) (hne : pat ≠ []) (hpat : NUL ∉ pat)
    (hfinds : FindsBack pat s) : ReverseFits pat s :=
  fitsIn_backward.mp ((findsIn_backward.mpr hfinds).fits backward_sweeps h hne hpat)

end Backward

/-! ## The condition is exact -/

/-- **Searching backward.** With window and cursor in a text that is not empty and a NUL behind it,
`reverseFindString` returns the first occurrence of the pattern before the cursor, in the cyclic
order, exactly if the condition holds.

**Proof sketch.** The search backward is the loop of `Sweep` with the step and the order of
`backward`, and so are its meaning and the condition; for that loop the statement is `findsIn_iff`.
-/
theorem findsBack_iff (pat : List UInt8) (s : Vi W) (h : Typing s)
    (hpos : s.cga.pos < 25 * 80) (hne : pat ≠ []) (hpat : NUL ∉ pat) :
    FindsBack pat s ↔ ReverseFits pat s := by
  rw [← findsIn_backward, ← fitsIn_backward]
  exact findsIn_iff backward_sweeps h hpos hne hpat

/-- `findsBack_iff` for a word before the cursor. -/
theorem findsBack_iff_word :
    FindsBack (str "a") { smallFile (str "ab") with dot := 1 } ↔
      ReverseFits (str "a") { smallFile (str "ab") with dot := 1 } :=
  findsBack_iff (str "a") { smallFile (str "ab") with dot := 1 }
    ⟨by decide, by decide, by decide, by decide⟩ (by decide) (by decide) (by decide)

/-- A search backward does not find its pattern at the last character of the text when the cursor
is before it, and does not end well in a text of one character. -/
theorem not_findsBack :
    ¬FindsBack (str "b") (smallFile (str "ab")) ∧ ¬FindsBack (str "b") (smallFile (str "a")) := by
  constructor
  · intro hfinds
    have hfits := FindsBack.reverseFits ⟨by decide, by decide, by decide, by decide⟩ (by decide)
      (by decide) hfinds
    rcases hfits.2 with ⟨q, hq, hocc⟩ | ⟨-, hdot | hlast⟩
    · have h1 : q < 0 := hq
      have h2 := hocc.1
      omega
    · exact absurd hdot (by decide)
    · exact hlast ⟨by decide, by decide, by decide⟩
  · intro hfinds
    have hfits := FindsBack.reverseFits ⟨by decide, by decide, by decide, by decide⟩ (by decide)
      (by decide) hfinds
    exact absurd hfits.1 (by decide)

end HgXv6
