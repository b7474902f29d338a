import HgXv6.Editor.Sync

set_option relaxedAutoImplicit false
set_option autoImplicit false

/-!
# Searching on the line

`findChar` steps along the cursor's line and looks at each character after it has stepped. It tells
that nothing was found by the pointer being at the end of the line, also where it has found the
character just there: on a last line without a newline that is a character like all others.

## Main definitions

* `HgXv6.OnLine` — the places behind the cursor on its line where a character stands.
* `HgXv6.FindsChar` — what `findChar` is meant to return.
* `HgXv6.FindCharFits` — the condition for it.

## Main results

* `HgXv6.lineScan_spec` — where the loop of `findChar` stops.
* `HgXv6.findsChar_iff` — the condition is exact.
-/

namespace HgXv6

open Prog

variable {W : Type} {c : UInt8} {s : Vi W} {q : ℤ}

/-! ## The line -/

/-- The places behind the cursor, with no newline from the cursor up to them, where `c` stands. -/
def OnLine (c : UInt8) (s : Vi W) : Set ℤ :=
  {q | s.dot < q ∧ q < s.endp ∧ (∀ r, s.dot ≤ r → r < q → s.mem r ≠ NL) ∧ s.mem q = c}

/-- They lie up to the end of the line. -/
theorem mem_onLine_iff (hdot : s.dot < s.endp) :
    q ∈ OnLine c s ↔ s.dot < q ∧ q ≤ endLine s.mem s.endp s.dot ∧ s.mem q = c := by
  have hend := endLine_le s.mem (e := s.endp) (p := s.dot) (by omega)
  constructor
  · rintro ⟨h1, h2, h3, h4⟩
    refine ⟨h1, ?_, h4⟩
    by_contra hlt
    exact h3 _ (le_endLine _ _ _) (not_le.mp hlt) (endLine_stop (by omega))
  · rintro ⟨h1, h2, h3⟩
    exact ⟨h1, by omega, fun r hr hrq =>
      ne_of_lt_endLine (e := s.endp) hr (by omega), h3⟩

/-! ## The loop -/

/-- The loop of `findChar`: its pointer, and whether it was left because `c` was found. -/
def lineScan (c : UInt8) (s : Vi W) : ℤ × Bool :=
  iterWhile (fun x : ℤ × Bool => !x.2 && decide (x.1 < endLine s.mem s.endp s.dot))
    (fun x => (x.1 + 1, s.mem (x.1 + 1) == c))
    (endLine s.mem s.endp s.dot - s.dot + 1).toNat (s.dot, false)

/-- `findChar`, after its loop. -/
theorem findChar_eq (fuel : ℕ) (c : UInt8) (s : Vi W) : findChar fuel c s =
    if (lineScan c s).1 = endLine s.mem s.endp s.dot then
      synchronize fuel s >>= fun s =>
      printOnStatusLine (str "last one same char") s >>= fun s =>
      .ok (s.dot, s)
    else .ok ((lineScan c s).1, s) := rfl

/-- What holds at the head of the loop: `c` has not been passed, and the loop goes on unless `c`
stands here. -/
structure ScanInv (c : UInt8) (s : Vi W) (x : ℤ × Bool) : Prop where
  ge : s.dot ≤ x.1
  le : x.1 ≤ endLine s.mem s.endp s.dot
  passed : ∀ q, s.dot < q → q < x.1 → s.mem q ≠ c
  behind : x.2 = true → s.dot < x.1
  found : s.dot < x.1 → (x.2 = true ↔ s.mem x.1 = c)

theorem lineScan_inv (c : UInt8) (s : Vi W) : ScanInv c s (lineScan c s) := by
  refine iterWhile_inv (ScanInv c s) (fun x hx hcond => ?_) _ _
    ⟨le_rfl, le_endLine _ _ _, fun q h1 h2 => absurd h1 (by dsimp only at h2; omega),
      fun h => absurd h Bool.false_ne_true, fun h => absurd h (lt_irrefl _)⟩
  obtain ⟨hge, hle, hpassed, -, hfound⟩ := hx
  simp only [Bool.and_eq_true, Bool.not_eq_true', decide_eq_true_eq] at hcond
  constructor
  case ge => dsimp only; omega
  case le => dsimp only; omega
  case passed =>
    intro q hq hlt
    dsimp only at hlt
    rcases (show q ≤ x.1 by omega).lt_or_eq with hlt' | rfl
    · exact hpassed q hq hlt'
    · intro heq
      exact absurd ((hfound hq).mpr heq) (by simp [hcond.1])
  case behind =>
    intro _
    dsimp only
    omega
  case found =>
    intro _
    simp

/-- The loop ends at the end of the line, or where `c` stands. -/
theorem lineScan_stops (c : UInt8) (s : Vi W)
    (hlt : (lineScan c s).1 < endLine s.mem s.endp s.dot) : (lineScan c s).2 = true := by
  have hstop := @iterWhile_stops (ℤ × Bool)
    (fun x => !x.2 && decide (x.1 < endLine s.mem s.endp s.dot))
    (fun x => (x.1 + 1, s.mem (x.1 + 1) == c))
    (fun x => (endLine s.mem s.endp s.dot - x.1).toNat) (fun x hcond => by
      simp only [Bool.and_eq_true, decide_eq_true_eq] at hcond
      dsimp only
      omega) (endLine s.mem s.endp s.dot - s.dot + 1).toNat (s.dot, false)
    (by dsimp only; omega)
  change (!(lineScan c s).2 && decide ((lineScan c s).1 < endLine s.mem s.endp s.dot)) = false
    at hstop
  rwa [decide_eq_true hlt, Bool.and_true, Bool.not_eq_false'] at hstop

/-- The loop stops at the first place behind the cursor where `c` stands, or at the end of the
line. -/
theorem lineScan_spec (c : UInt8) (s : Vi W) :
    s.dot ≤ (lineScan c s).1 ∧ (lineScan c s).1 ≤ endLine s.mem s.endp s.dot ∧
      (∀ q, s.dot < q → q < (lineScan c s).1 → s.mem q ≠ c) ∧
      ((lineScan c s).1 < endLine s.mem s.endp s.dot →
        s.dot < (lineScan c s).1 ∧ s.mem (lineScan c s).1 = c) := by
  have hinv := lineScan_inv c s
  refine ⟨hinv.ge, hinv.le, hinv.passed, fun hlt => ?_⟩
  have hstop := lineScan_stops c s hlt
  exact ⟨hinv.behind hstop, (hinv.found (hinv.behind hstop)).mp hstop⟩

/-! ## The search -/

/-- `findChar` returns the first place behind the cursor on its line where `c` stands, or the cursor
if there is none. -/
def FindsChar (c : UInt8) (s : Vi W) : Prop :=
  ∃ p t, Returns (fun fuel => findChar fuel c s) (p, t) ∧
    (IsLeast (OnLine c s) p ∨ OnLine c s = ∅ ∧ p = s.dot)

/-- The character stands before the end of the line; or it does not stand on the line, and the
screen can be synchronised. -/
def FindCharFits (c : UInt8) (s : Vi W) : Prop :=
  (∃ q ∈ OnLine c s, q < endLine s.mem s.endp s.dot) ∨ OnLine c s = ∅ ∧ SyncFits s

/-- A character before the end of the line is found. -/
theorem findChar_found (hdot : s.dot < s.endp) (hq : q ∈ OnLine c s)
    (hlt : q < endLine s.mem s.endp s.dot) :
    IsLeast (OnLine c s) (lineScan c s).1 ∧
      ∀ fuel, findChar fuel c s = .ok ((lineScan c s).1, s) := by
  obtain ⟨h1, h2, h3, h4⟩ := lineScan_spec c s
  have hle : (lineScan c s).1 ≤ q := by
    by_contra hgt
    exact h3 q hq.1 (not_le.mp hgt) hq.2.2.2
  obtain ⟨h5, h6⟩ := h4 (by omega)
  refine ⟨⟨(mem_onLine_iff hdot).mpr ⟨h5, h2, h6⟩, fun r hr => ?_⟩, fun fuel => ?_⟩
  · by_contra hgt
    exact h3 r hr.1 (not_le.mp hgt) hr.2.2.2
  · rw [findChar_eq, if_neg (by omega)]

/-- Otherwise the loop gets to the end of the line. -/
theorem lineScan_end (hdot : s.dot < s.endp)
    (hno : ¬∃ q ∈ OnLine c s, q < endLine s.mem s.endp s.dot) :
    (lineScan c s).1 = endLine s.mem s.endp s.dot := by
  obtain ⟨-, h2, -, h4⟩ := lineScan_spec c s
  by_contra hne
  have hlt : (lineScan c s).1 < endLine s.mem s.endp s.dot := by omega
  obtain ⟨h5, h6⟩ := h4 hlt
  exact hno ⟨_, (mem_onLine_iff hdot).mpr ⟨h5, h2, h6⟩, hlt⟩

/-- A search that does what it is meant to meets the condition. -/
theorem FindsChar.fits (h : Typing s) (hfinds : FindsChar c s) : FindCharFits c s := by
  obtain ⟨p, t, hret, hright⟩ := hfinds
  have hdot := h.dot_lt
  by_cases hfound : ∃ q ∈ OnLine c s, q < endLine s.mem s.endp s.dot
  · exact .inl hfound
  obtain ⟨fuel, hfuel⟩ := hret.exists
  rw [findChar_eq, if_pos (lineScan_end hdot hfound)] at hfuel
  -- the search has returned the cursor
  obtain ⟨u, hsync, hfuel⟩ := bind_eq_ok.mp hfuel
  obtain ⟨v, hprint, hfuel⟩ := bind_eq_ok.mp hfuel
  obtain ⟨hfits, d, -, rfl⟩ := synchronize_fits h fuel u hsync
  obtain ⟨d', rfl, -⟩ := printOnStatusLine_ensures _ _ (by decide) v hprint
  obtain ⟨rfl, -⟩ := Prod.mk.inj (Except.ok.inj hfuel)
  rcases hright with hleast | ⟨hnone, -⟩
  · exact absurd hleast.1.1 (lt_irrefl s.dot)
  · exact .inr ⟨hnone, hfits⟩

/-- **Searching on the line.** With window and cursor in a text that is not empty and a NUL behind
it, `findChar` returns the first place where the character stands, exactly if the condition holds.

**Proof sketch.** If the character stands on the line before its end, the scan stops there and
nothing is drawn. If it stands nowhere behind the cursor, the scan runs to the end of the line,
where the editor synchronises the screen and prints its message; both return by the condition. The
condition leaves out the character in the last place of the line, which the scan takes for the end,
and that is the whole defect (`FindsChar.fits`). -/
theorem findsChar_iff (c : UInt8) (s : Vi W) (h : Typing s) :
    FindsChar c s ↔ FindCharFits c s := by
  refine ⟨FindsChar.fits h, ?_⟩
  rintro (⟨q, hq, hlt⟩ | ⟨hnone, hfits⟩)
  · obtain ⟨hleast, hret⟩ := findChar_found h.dot_lt hq hlt
    exact ⟨_, s, Returns.of_le 0 fun fuel _ => hret fuel, .inl hleast⟩
  · obtain ⟨d, hd, hsync⟩ := synchronize_returns_of_fits h hfits
    obtain ⟨d', hprint, -⟩ := printOnStatusLine_ok (str "last one same char")
      (s := synced d s) hd (by decide)
    have hend : (lineScan c s).1 = endLine s.mem s.endp s.dot :=
      lineScan_end h.dot_lt fun ⟨q, hq, _⟩ => (hnone ▸ hq : q ∈ (∅ : Set ℤ))
    refine ⟨s.dot, { synced d s with cga := d' }, ?_, .inr ⟨hnone, rfl⟩⟩
    simp only [findChar_eq, if_pos hend]
    refine hsync.bind (Returns.of_eq ?_)
    rw [hprint, ok_bind]
    rfl

/-- `findsChar_iff` for a character before the end of the line. -/
theorem findsChar_iff_before : FindsChar (chr 'b') (smallFile (str "abc")) :=
  (findsChar_iff (chr 'b') (smallFile (str "abc")) ⟨by decide, by decide, by decide,
    by decide⟩).mpr (.inl ⟨1, (mem_onLine_iff (by decide)).mpr ⟨by decide, by decide, by decide⟩,
      by decide⟩)

/-- A search does not find the last character of a last line without newline. -/
theorem not_findsChar : ¬FindsChar (chr 'b') (smallFile (str "ab")) := by
  have hmem : (1 : ℤ) ∈ OnLine (chr 'b') (smallFile (str "ab")) :=
    (mem_onLine_iff (by decide)).mpr ⟨by decide, by decide, by decide⟩
  intro hfinds
  rcases hfinds.fits ⟨by decide, by decide, by decide, by decide⟩ with ⟨q, hq, hlt⟩ | ⟨hnone, -⟩
  · have h1 : (0 : ℤ) < q := hq.1
    have h2 : q < 1 := hlt
    omega
  · exact (hnone ▸ hmem : (1 : ℤ) ∈ (∅ : Set ℤ))

end HgXv6
