import HgXv6.Editor.Insert

set_option relaxedAutoImplicit false
set_option autoImplicit false

/-!
# When a synchronisation returns

A synchronisation adjusts the window, and draws the text if the window is not the one it was drawn
for. It returns exactly if the cursor's line leaves room and the text, where it has to be drawn,
can be drawn. Both adjustments start from where the count has pulled the window back to, so that a
window below the cursor need not be treated apart.

## Main definitions

* `HgXv6.SyncFits` — the condition.
* `HgXv6.pulled` — the state with the window pulled back.

## Main results

* `HgXv6.synchronize_returns_of_fits`, `HgXv6.synchronize_fits` — the condition is exact.
* `HgXv6.synchronize_pulled`, `HgXv6.redraw_pulled` — the window may be pulled back before.
-/

namespace HgXv6

open Prog

variable {W : Type} {s : Vi W}

/-- The cursor's line leaves room, and the text can be drawn unless it has been for this window. -/
def SyncFits (s : Vi W) : Prop :=
  WindowFits s.mem s.endp s.screenbegin s.dot ∧
    (s.synScreenbegin = some (windowTop s.mem s.endp s.dot s.screenbegin) ∨
      DrawFits s.mem s.endp (windowTop s.mem s.endp s.dot s.screenbegin))

instance (s : Vi W) : Decidable (SyncFits s) := inferInstanceAs (Decidable (_ ∧ (_ ∨ _)))

/-- What can be drawn can be synchronised. -/
theorem ScreenFits.sync (h : ScreenFits s.mem s.endp s.dot s.screenbegin) : SyncFits s :=
  ⟨h.1, .inr h.2⟩

/-- The window of a text that can be drawn, once adjusted, is in the text. -/
theorem Typing.adjusted (h : Typing s)
    (hfits : WindowFits s.mem s.endp s.screenbegin s.dot) (c : Cga) (y : Option ℤ) :
    Typing { s with
      screenbegin := HgXv6.windowTop s.mem s.endp s.dot s.screenbegin, cga := c
      synScreenbegin := y } :=
  { h with
    screenbegin_nonneg := (h.windowTop_adjusted hfits).nonneg h.screenbegin_nonneg
      (h.screenbegin_nonneg.trans h.screenbegin_le)
    screenbegin_le := (h.windowTop_adjusted hfits).le }

/-- The state after a synchronisation that leaves the screen `c`. -/
def synced (c : Cga) (s : Vi W) : Vi W :=
  { s with
    screenbegin := windowTop s.mem s.endp s.dot s.screenbegin, cga := c
    synScreenbegin := some (windowTop s.mem s.endp s.dot s.screenbegin) }

/-- Window and cursor are in the text as before. -/
theorem Typing.synced (h : Typing s) (hfits : WindowFits s.mem s.endp s.screenbegin s.dot)
    (c : Cga) : Typing (HgXv6.synced c s) :=
  h.adjusted hfits c _

/-- A synchronisation returns under the condition, with the window adjusted.

**Proof sketch.** With the window adjusted beforehand the synchronisation returns
(`synchronize_returns`). The adjustment of the synchronisation itself leads to the same window, and
from there on both run alike. -/
theorem synchronize_returns_of_fits (h : Typing s) (hfits : SyncFits s) : ∃ c, c.pos < 25 * 80 ∧
    Returns (fun fuel => synchronize fuel s) (synced c s) := by
  have hadj := h.windowTop_adjusted hfits.1
  have htop := h.windowTop hfits.1 s.cga
  obtain ⟨c, hpos, hsync⟩ := synchronize_returns (s := { s with
    screenbegin := windowTop s.mem s.endp s.dot s.screenbegin })
    (h.adjusted hfits.1 s.cga s.synScreenbegin) hadj.lt hfits.2
  refine ⟨c, hpos, ?_⟩
  -- with the window adjusted, the adjustment does nothing
  have hsame := modifyScreenBegin_of_fits (s := { s with
    screenbegin := windowTop s.mem s.endp s.dot s.screenbegin }) hadj.le hadj.lt
  filter_upwards [htop, hsync, hsame] with n h1 h2 h3
  rw [synchronize, h3, ok_bind] at h2
  change modifyScreenBegin n s = _ at h1
  rw [synchronize, h1, ok_bind]
  exact h2

/-- A synchronisation that returns meets the condition.

**Proof sketch.** The adjustment has returned, so the window could be adjusted
(`modifyScreenBegin_fits`). If the window was not the one drawn, the redraw has returned, so the
text could be drawn from it; if it was, there was nothing to draw, which is the other case of the
condition. Placing the cursor needs nothing. -/
theorem synchronize_fits (h : Typing s) (fuel : ℕ) :
    Ensures (synchronize fuel s) fun t =>
      SyncFits s ∧ ∃ c, c.pos < 25 * 80 ∧ t = synced c s := by
  refine Ensures.bind (modifyScreenBegin_fits h s.cga fuel) ?_
  rintro _ ⟨hwindow, rfl⟩
  have hadj := h.windowTop_adjusted hwindow
  have htop := windowTop_of_lt (e := s.endp) hadj.lt
  refine Ensures.bind (P := fun t => SyncFits s ∧ ∃ c, t = synced c s) ?_ ?_
  · split_ifs with hsyn
    · refine (redraw_fits (h.adjusted hwindow s.cga
        (some (windowTop s.mem s.endp s.dot s.screenbegin))) fuel).mono ?_
      rintro _ ⟨hfits, c, -, rfl⟩
      dsimp only at hfits ⊢
      rw [ScreenFits, htop] at hfits
      rw [htop]
      exact ⟨⟨hwindow, .inr hfits.2⟩, c, rfl⟩
    · rw [ensures_ok]
      have hsyn' := not_not.mp hsyn
      dsimp only at hsyn' ⊢
      exact ⟨⟨hwindow, .inl hsyn'⟩, s.cga, by rw [synced, ← hsyn']⟩
  · rintro _ ⟨hfits, c, rfl⟩
    rw [countCursorPos_eq, pulledBack_of_le hadj.le]
    refine (moveCursor_ensures _ _).mono ?_
    rintro _ ⟨c', rfl, -, hpos, hlt⟩
    exact ⟨hfits, c', hpos ▸ hlt, rfl⟩

/-! ## A window below the cursor -/

/-- The state with the window pulled back to the cursor's line, if it is below the cursor. -/
def pulled (s : Vi W) : Vi W := { s with screenbegin := pulledBack s }

/-- The adjustment pulls the window back first. -/
theorem modifyScreenBegin_pulled (fuel : ℕ) (s : Vi W) :
    modifyScreenBegin fuel (pulled s) = modifyScreenBegin fuel s := by
  rw [modifyScreenBegin_eq, modifyScreenBegin_eq,
    pulledBack_of_le (show (pulled s).screenbegin ≤ (pulled s).dot from pulledBack_le s)]
  rfl

/-- So does the redraw. -/
theorem redraw_pulled (fuel : ℕ) (s : Vi W) : redraw fuel (pulled s) = redraw fuel s := by
  have hpull : modifyScreenBegin fuel { pulled s with cga := clearScreen (pulled s).cga } =
      modifyScreenBegin fuel { s with cga := clearScreen s.cga } :=
    modifyScreenBegin_pulled fuel { s with cga := clearScreen s.cga }
  rw [redraw, redraw, hpull]

/-- So does the synchronisation. -/
theorem synchronize_pulled (fuel : ℕ) (s : Vi W) :
    synchronize fuel (pulled s) = synchronize fuel s := by
  rw [synchronize, synchronize, modifyScreenBegin_pulled]

/-- With window and cursor in a text that is not empty and ends in a NUL, the window that is pulled
back is not below the cursor. -/
theorem typing_pulled (hsb : 0 ≤ s.screenbegin) (h0 : 0 ≤ s.dot) (hdot : s.dot < s.endp)
    (hnul : s.mem s.endp = NUL) : Typing (pulled s) :=
  ⟨pulledBack_nonneg hsb h0, pulledBack_le s, hdot, hnul⟩

end HgXv6
