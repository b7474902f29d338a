import HgXv6.Console.Cursor

set_option relaxedAutoImplicit false
set_option autoImplicit false

/-!
# What user programs can do to the console

All the calls that move the cursor, in any order: the four system calls of the editor with any
arguments, writes of any bytes, and the echo of typed characters. The kernel panics exactly when
a call asks for a place off the screen, or draws a tab in the last three cells of the screen.

## Main definitions

* `HgXv6.ConsoleCall`, `HgXv6.ConsoleCall.exec` — the calls and what they do.
* `HgXv6.NeverPanics` — every call of a sequence returns with the cursor on the screen.
* `HgXv6.ConsoleCall.Meets`, `HgXv6.AllMeet` — the arguments are on the screen and no tab
  overflows.

## Main results

* `HgXv6.exec_ok_iff`, `HgXv6.exec_pos` — one call.
* `HgXv6.neverPanics_iff_allMeet` — sequences of calls.
-/

namespace HgXv6

open Prog

/-- One call that draws on the console. -/
inductive ConsoleCall
  | setCursorPos (x y : Option ℤ)
  | writeAt (x y c : Option ℤ)
  | copyFromTextToScreen (m : ℤ → UInt8) (text pos len : Option ℤ)
  | clearScreen
  /-- `consolewrite` of these bytes -/
  | write (buf : List UInt8)
  /-- `consputc` from `consoleintr` -/
  | echo (c : Glyph)

namespace ConsoleCall

/-- What a call does to the screen. -/
def exec : ConsoleCall → Cga → Except Stop Cga
  | .setCursorPos x y => sysSetCursorPos x y
  | .writeAt x y c => sysWriteAt x y c
  | .copyFromTextToScreen m text pos len => sysCopyFromTextToScreen m text pos len
  | .clearScreen => sysClearScreen
  | .write buf => consolewrite buf
  | .echo c => consputc c

/-- The condition on a call made with the cursor at `cur`: the place it names is on the screen,
and it draws no tab in the last three cells. -/
def Meets : ConsoleCall → ℕ → Prop
  | .setCursorPos (some x) (some y), _ => OnScreen x y
  | .writeAt (some x) (some y) (some c), _ =>
    OnScreen x y ∧ ¬TabOverflow (.byte (toByte c)) (x * 80 + y).toNat
  | .copyFromTextToScreen m (some text) (some pos) (some len), _ =>
    (0 ≤ pos ∧ pos < 25 * 80) ∧ WriteFits (drawn m text len.toNat pos.toNat) pos.toNat
  | .write buf, cur => WriteFits buf cur
  | .echo c, cur => ¬TabOverflow c cur
  | _, _ => True

end ConsoleCall

/-- Every call of the sequence returns, and leaves the cursor on the screen. -/
def NeverPanics : List ConsoleCall → Cga → Prop
  | [], _ => True
  | k :: ks, s => ∃ s', k.exec s = .ok s' ∧ s'.pos ≤ 25 * 80 - 1 ∧ NeverPanics ks s'

/-- Every call of the sequence meets its condition when its turn comes. -/
def AllMeet : List ConsoleCall → Cga → Prop
  | [], _ => True
  | k :: ks, s => k.Meets s.pos ∧ ∀ s', k.exec s = .ok s' → AllMeet ks s'

/-- `setCursorPos` returns exactly on the screen. -/
theorem setCursorPos_ok_iff (x y : ℤ) (s : Cga) :
    (∃ s', setCursorPos x y s = .ok s') ↔ OnScreen x y := by
  by_cases h : OnScreen x y
  · obtain ⟨s', hs, -⟩ := setCursorPos_ok s h
    simp [h, hs]
  · simp [h, setCursorPos_panic s h]

/-- `cgaputc` returns exactly if its glyph is not an overflowing tab. -/
theorem cgaputc_ok_iff {c : Glyph} {s : Cga} (h : s.pos < 25 * 80) :
    (∃ s', cgaputc c s = .ok s') ↔ ¬TabOverflow c s.pos := by
  by_cases hc : TabOverflow c s.pos
  · simp [hc, cgaputc_panic h hc]
  · obtain ⟨s', hs, -⟩ := cgaputc_ok h hc
    simp [hc, hs]

/-- `writeAt` returns exactly on the screen, and not with an overflowing tab. -/
theorem writeAt_ok_iff (x y : ℤ) (c : UInt8) (s : Cga) :
    (∃ s', writeAt x y c s = .ok s') ↔
      OnScreen x y ∧ ¬TabOverflow (.byte c) (x * 80 + y).toNat := by
  unfold writeAt
  by_cases h : OnScreen x y
  · obtain ⟨t, ht, hpos⟩ := setCursorPos_ok s h
    have hlt : t.pos < 25 * 80 := hpos ▸ h.lt
    simp only [ht, ok_bind, cgaputc_ok_iff hlt, hpos, h, true_and]
  · simp [h, setCursorPos_panic s h]

/-- `copyFromTextToScreen` returns exactly if it starts on the screen and what it draws fits. -/
theorem copyFromTextToScreen_ok_iff (m : ℤ → UInt8) (text pos len : ℤ) (s : Cga) :
    (∃ s', copyFromTextToScreen m text pos len s = .ok s') ↔
      (0 ≤ pos ∧ pos < 25 * 80) ∧ WriteFits (drawn m text len.toNat pos.toNat) pos.toNat := by
  unfold copyFromTextToScreen
  rw [← onScreen_div_mod]
  by_cases h : OnScreen (pos.tdiv 80) (pos.tmod 80)
  · obtain ⟨t, ht, hpos⟩ := setCursorPos_ok s h
    have hlt : t.pos < 25 * 80 := hpos ▸ h.lt
    rw [tdiv_tmod_cell] at hpos
    simp only [ht, ok_bind, copyLoop_eq m text len.toNat hlt, consolewrite_ok_iff _ hlt, hpos, h,
      true_and]
  · simp [h, setCursorPos_panic s h]

/-- One call returns exactly if it meets its condition. -/
theorem exec_ok_iff (k : ConsoleCall) {s : Cga} (h : s.pos < 25 * 80) :
    (∃ s', k.exec s = .ok s') ↔ k.Meets s.pos := by
  cases k with
  | setCursorPos x y =>
    rcases x with _ | x
    · simp [ConsoleCall.exec, sysSetCursorPos, ConsoleCall.Meets]
    rcases y with _ | y
    · simp [ConsoleCall.exec, sysSetCursorPos, ConsoleCall.Meets]
    · exact setCursorPos_ok_iff x y s
  | writeAt x y c =>
    rcases x with _ | x
    · simp [ConsoleCall.exec, sysWriteAt, ConsoleCall.Meets]
    rcases y with _ | y
    · simp [ConsoleCall.exec, sysWriteAt, ConsoleCall.Meets]
    rcases c with _ | c
    · simp [ConsoleCall.exec, sysWriteAt, ConsoleCall.Meets]
    · exact writeAt_ok_iff x y (toByte c) s
  | copyFromTextToScreen m text pos len =>
    rcases text with _ | text
    · simp [ConsoleCall.exec, sysCopyFromTextToScreen, ConsoleCall.Meets]
    rcases pos with _ | pos
    · simp [ConsoleCall.exec, sysCopyFromTextToScreen, ConsoleCall.Meets]
    rcases len with _ | len
    · simp [ConsoleCall.exec, sysCopyFromTextToScreen, ConsoleCall.Meets]
    · exact copyFromTextToScreen_ok_iff m text pos len s
  | clearScreen => simp [ConsoleCall.exec, sysClearScreen, ConsoleCall.Meets]
  | write buf => exact consolewrite_ok_iff buf h
  | echo c => exact cgaputc_ok_iff h

/-- A call that returns leaves the cursor on the screen. -/
theorem exec_pos {k : ConsoleCall} {s s' : Cga} (h : s.pos < 25 * 80)
    (hs : k.exec s = .ok s') : s'.pos < 25 * 80 := by
  have hset : ∀ {x y : ℤ} {t : Cga}, setCursorPos x y s = .ok t → t.pos < 25 * 80 := by
    intro x y t ht
    have hon := (setCursorPos_ok_iff x y s).mp ⟨t, ht⟩
    obtain ⟨t', ht', hpos⟩ := setCursorPos_ok s hon
    rw [ht] at ht'
    cases ht'
    exact hpos ▸ hon.lt
  cases k with
  | setCursorPos x y =>
    simp only [ConsoleCall.exec, sysSetCursorPos] at hs
    split at hs
    · exact hset hs
    · cases hs; exact h
  | writeAt x y c =>
    simp only [ConsoleCall.exec, sysWriteAt] at hs
    split at hs
    · obtain ⟨t, ht, hs⟩ := bind_eq_ok.mp hs
      exact (cgaputc_pos (hset ht) hs).2
    · cases hs; exact h
  | copyFromTextToScreen m text pos len =>
    simp only [ConsoleCall.exec, sysCopyFromTextToScreen] at hs
    split at hs
    · obtain ⟨t, ht, hs⟩ := bind_eq_ok.mp hs
      rw [copyLoop_eq _ _ _ (hset ht)] at hs
      exact consolewrite_pos (hset ht) hs
    · cases hs; exact h
  | clearScreen => cases hs; simp [clearScreen, Cga.blank]
  | write buf => exact consolewrite_pos h hs
  | echo c => exact (cgaputc_pos h hs).2

/-- **Sequences of calls.** From a cursor on the screen, no call of a sequence panics and the cursor
stays on the screen, exactly if every call meets its condition when its turn comes.

**Proof sketch.** Induction on the calls. A call returns exactly if its condition holds of the
cursor before it (`exec_ok_iff`, one case for each call), and then it leaves the cursor on the
screen (`exec_pos`), which is what the rest of the sequence starts from. -/
theorem neverPanics_iff_allMeet (ks : List ConsoleCall) (s : Cga) (h : s.pos ≤ 25 * 80 - 1) :
    NeverPanics ks s ↔ AllMeet ks s := by
  induction ks generalizing s with
  | nil => simp [NeverPanics, AllMeet]
  | cons k ks ih =>
    have hlt : s.pos < 25 * 80 := by omega
    constructor
    · rintro ⟨s', hs, hpos, hrest⟩
      refine ⟨(exec_ok_iff k hlt).mp ⟨s', hs⟩, fun t ht => ?_⟩
      rw [hs] at ht
      cases ht
      exact (ih s' hpos).mp hrest
    · rintro ⟨hmeets, hrest⟩
      obtain ⟨s', hs⟩ := (exec_ok_iff k hlt).mpr hmeets
      have hpos := exec_pos hlt hs
      exact ⟨s', hs, by omega, (ih s' (by omega)).mpr (hrest s' hs)⟩

/-- A write of a tab at the end of the last row meets no condition and panics. -/
theorem neverPanics_iff_allMeet_tab :
    NeverPanics [.setCursorPos (some 24) (some 77), .write [TAB]] clearedScreen ↔
      AllMeet [.setCursorPos (some 24) (some 77), .write [TAB]] clearedScreen :=
  neverPanics_iff_allMeet _ _ (by decide)

/-- Some sequences of calls panic: a cursor position below the last row, or a tab written at
column 77 of the last row. -/
theorem not_neverPanics :
    ¬NeverPanics [.setCursorPos (some 25) (some 0)] clearedScreen ∧
      ¬NeverPanics [.setCursorPos (some 24) (some 77), .write [TAB]] clearedScreen := by
  constructor
  · rintro ⟨s', hs, -⟩
    have hon := (setCursorPos_ok_iff 25 0 clearedScreen).mp ⟨s', hs⟩
    exact absurd hon.2.1 (by decide)
  · rintro ⟨s', hs, -, s'', hs', -⟩
    obtain ⟨t, ht, hpos⟩ := setCursorPos_ok (x := 24) (y := 77) clearedScreen
      ⟨by decide, by decide, by decide, by decide⟩
    change setCursorPos 24 77 clearedScreen = .ok s' at hs
    rw [ht] at hs
    cases hs
    have hpos' : s'.pos = 1997 := hpos
    have hfits := (consolewrite_ok_iff [TAB] (by omega)).mp ⟨s'', hs'⟩
    exact hfits.1 ⟨rfl, by omega⟩

end HgXv6
