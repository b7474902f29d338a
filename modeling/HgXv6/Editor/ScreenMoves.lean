import HgXv6.Editor.TopLine

set_option relaxedAutoImplicit false
set_option autoImplicit false

/-!
# The moves within the screen

`H`, `M` and `L` put the cursor on the first line of the window, and go on from there by lines:
by none, by 12 and by 23. The rows of the screen they are meant for are as many, but a line that is
longer than a row takes several of them. The moves stay in the window exactly if the 23 lines do,
and end on starts of lines exactly if the window begins with one.

## Main definitions

* `HgXv6.lineDown` — the start of the next line, or the place itself if there is none.
* `HgXv6.ScreenMoves` — the moves leave the window where it is, and end on a line in it.

## Main results

* `HgXv6.iterate_dotNextLine` — the cursor goes down by lines within the window.
* `HgXv6.screenMoves_run_iff` — when the moves stay in the window.
-/

namespace HgXv6

open Prog

variable {W : Type} {sys : Sys W} {s t : Vi W} {m : ℤ → UInt8} {e p : ℤ}

/-! ## Going down by lines -/

/-- The start of the line after the line of `p`, if there is one. -/
def lineDown (m : ℤ → UInt8) (e p : ℤ) : ℤ :=
  if endLine m e p < e - 1 then endLine m e p + 1 else p

theorem le_lineDown (m : ℤ → UInt8) (e p : ℤ) : p ≤ lineDown m e p := by
  have := le_endLine m e p
  unfold lineDown
  split_ifs
  · omega
  · exact le_rfl

theorem le_iterate_lineDown (m : ℤ → UInt8) (e : ℤ) (k : ℕ) (p : ℤ) :
    p ≤ (lineDown m e)^[k] p := by
  induction k generalizing p with
  | zero => exact le_rfl
  | succ k ih => exact (le_lineDown m e p).trans (ih _)

/-- From the start of a line it goes to the start of a line. -/
theorem lineDown_lineStart (h : LineStart m p) : LineStart m (lineDown m e p) := by
  unfold lineDown
  split_ifs with hp
  · exact lineStart_succ (endLine_stop hp)
  · exact h

theorem iterate_lineDown_lineStart (h : LineStart m p) (k : ℕ) :
    LineStart m ((lineDown m e)^[k] p) := by
  induction k generalizing p with
  | zero => exact h
  | succ k ih => exact ih (lineDown_lineStart h)

/-- `dot_nextLine` moves the cursor down by a line. -/
theorem dotNextLine_dot (s : Vi W) : (dotNextLine s).2.dot = lineDown s.mem s.endp s.dot ∧
    (dotNextLine s).2.mem = s.mem ∧ (dotNextLine s).2.endp = s.endp := by
  rw [dotNextLine_eq]
  unfold lineDown
  dsimp only
  split_ifs <;> exact ⟨rfl, rfl, rfl⟩

/-- It does nothing else if the window shows the cursor there. -/
theorem dotNextLine_shown (hle : s.screenbegin ≤ s.dot)
    (hlt : cells s.mem s.screenbegin (lineDown s.mem s.endp s.dot) < rows * columns) :
    (dotNextLine s).2 = { s with dot := lineDown s.mem s.endp s.dot } := by
  have hend := le_endLine s.mem s.endp s.dot
  rw [dotNextLine_eq]
  unfold lineDown at hlt ⊢
  dsimp only
  by_cases h : endLine s.mem s.endp s.dot < s.endp - 1
  · rw [if_pos h] at hlt
    rw [if_pos h, if_pos h, pulledBack_of_le (by dsimp only; omega), if_neg (not_le.mpr hlt)]
  · rw [if_neg h, if_neg h]

/-- Going down by `k` lines. -/
theorem iterate_dotNextLine_dot (k : ℕ) (s : Vi W) :
    ((fun s : Vi W => (dotNextLine s).2)^[k] s).dot = (lineDown s.mem s.endp)^[k] s.dot ∧
      ((fun s : Vi W => (dotNextLine s).2)^[k] s).mem = s.mem := by
  induction k generalizing s with
  | zero => exact ⟨rfl, rfl⟩
  | succ k ih =>
    obtain ⟨hdot, hmem, hend⟩ := dotNextLine_dot s
    obtain ⟨hdot', hmem'⟩ := ih (dotNextLine s).2
    rw [hdot, hmem, hend] at hdot'
    exact ⟨hdot', hmem'.trans hmem⟩

/-- Going down by `k` lines that the window shows. -/
theorem iterate_dotNextLine (k : ℕ) (hle : s.screenbegin ≤ s.dot)
    (hlt : cells s.mem s.screenbegin ((lineDown s.mem s.endp)^[k] s.dot) < rows * columns) :
    (fun s : Vi W => (dotNextLine s).2)^[k] s =
      { s with dot := (lineDown s.mem s.endp)^[k] s.dot } := by
  induction k generalizing s with
  | zero => rfl
  | succ k ih =>
    have hdown := le_lineDown s.mem s.endp s.dot
    have hmono := cells_mono_right s.mem
      (le_iterate_lineDown s.mem s.endp k (lineDown s.mem s.endp s.dot)) s.screenbegin
    have hstep := dotNextLine_shown hle (hmono.trans_lt hlt)
    rw [Function.iterate_succ_apply, hstep]
    exact ih (hle.trans hdown) hlt

/-! ## The synchronisation -/

/-- The screen can be synchronised without a redraw, or the text from the top of the window has
been drawn. -/
def Drawable (s : Vi W) : Prop :=
  s.synScreenbegin = some s.screenbegin ∨ ∃ c, Shows s.mem s.screenbegin c

/-- What has been drawn can be drawn again. -/
theorem redraw_returns_of_shows {c : Cga} (hle : s.screenbegin ≤ s.dot)
    (hlt : cells s.mem s.screenbegin s.dot < rows * columns) (h : Shows s.mem s.screenbegin c) :
    ∃ d, Returns (fun fuel => redraw fuel s) { s with cga := d } := by
  obtain ⟨n, c₀, c₁, hne, hnul, hcopy, -⟩ := h
  obtain ⟨d, hd, -⟩ := copyFromTextToScreen_clear s.cga hcopy
  refine ⟨d, ?_⟩
  have hmodify := modifyScreenBegin_of_fits (s := { s with cga := clearScreen s.cga }) hle hlt
  refine hmodify.bind ((strlen_returns hne hnul).bind (Returns.of_eq ?_))
  exact draw_eq hd

/-- A synchronisation that finds the cursor in the window leaves the window where it is. -/
theorem synchronize_returns_of_shown (hle : s.screenbegin ≤ s.dot)
    (hlt : cells s.mem s.screenbegin s.dot < rows * columns) (hdraw : Drawable s) :
    ∃ c, c.pos = cells s.mem s.screenbegin s.dot ∧ Returns (fun fuel => synchronize fuel s)
      { s with cga := c, synScreenbegin := some s.screenbegin } := by
  -- the screen before the cursor is placed
  have hscreen : ∃ d, Returns (fun fuel => if s.synScreenbegin ≠ some s.screenbegin then
      redraw fuel { s with synScreenbegin := some s.screenbegin } else .ok s)
      { s with cga := d, synScreenbegin := some s.screenbegin } := by
    by_cases hsyn : s.synScreenbegin = some s.screenbegin
    · simp only [ne_eq, hsyn, not_true_eq_false, if_false]
      exact ⟨s.cga, Returns.of_eq (by rw [← hsyn])⟩
    · obtain ⟨c, hc⟩ := hdraw.resolve_left hsyn
      simp only [ne_eq, hsyn, not_false_eq_true, if_true]
      exact redraw_returns_of_shows (s := { s with synScreenbegin := some s.screenbegin }) hle hlt
        hc
  obtain ⟨d, hd⟩ := hscreen
  have hbound : cells s.mem s.screenbegin s.dot < 25 * 80 := hlt.trans (by decide)
  obtain ⟨c, hc, hpos⟩ := setCursorPos_restore d hbound
  refine ⟨c, hpos, (modifyScreenBegin_of_fits hle hlt).bind (hd.bind (Returns.of_eq ?_))⟩
  rw [countCursorPos_eq, pulledBack_of_le (by exact hle)]
  exact draw_eq hc

/-! ## The commands -/

/-- The commands, and the number of lines they go down by. -/
def screenKeys : List (UInt8 × ℕ) := [(chr 'H', 0), (chr 'M', rows / 2), (chr 'L', rows - 1)]

/-- One of the commands followed by a synchronisation leaves the window where it is, and the cursor
at the start of a line in it. -/
def ScreenMove (sys : Sys W) (c : UInt8) (s : Vi W) : Prop :=
  ∀ ks, ∃ t, Returns (fun fuel => doCmd sys fuel c ks s >>= fun r => synchronize fuel r.2) t ∧
    t.screenbegin = s.screenbegin ∧ LineStart t.mem t.dot ∧
    t.cga.pos = cells t.mem t.screenbegin t.dot ∧ cells t.mem t.screenbegin t.dot < rows * columns

/-- All of them do. -/
def ScreenMoves (sys : Sys W) (s : Vi W) : Prop :=
  ScreenMove sys (chr 'H') s ∧ ScreenMove sys (chr 'M') s ∧ ScreenMove sys (chr 'L') s

/-- What the commands do. -/
theorem doCmd_screenKeys {c : UInt8} {k : ℕ} (h : (c, k) ∈ screenKeys) (fuel : ℕ)
    (ks : List Read) (s : Vi W) : doCmd sys fuel c ks s =
      .ok (ks, (fun s : Vi W => (dotNextLine s).2)^[k] { s with dot := s.screenbegin }) := by
  simp only [screenKeys, List.mem_cons, Prod.mk.injEq, List.not_mem_nil, or_false] at h
  rcases h with ⟨rfl, rfl⟩ | ⟨rfl, rfl⟩ | ⟨rfl, rfl⟩
  · rfl
  · rfl
  · rfl

/-- A command stays in the window exactly if the lines it goes down by do, and ends on the start
of a line exactly if the place it gets to is one. -/
theorem screenMove_iff {c : UInt8} {k : ℕ} (h : (c, k) ∈ screenKeys) (hdraw : Drawable s) :
    ScreenMove sys c s ↔ LineStart s.mem ((lineDown s.mem s.endp)^[k] s.screenbegin) ∧
      cells s.mem s.screenbegin ((lineDown s.mem s.endp)^[k] s.screenbegin) < rows * columns := by
  unfold ScreenMove
  simp only [doCmd_screenKeys h, ok_bind]
  constructor
  · intro hmove
    obtain ⟨t, ht, hsb, hstart, -, hlt⟩ := hmove []
    obtain ⟨fuel, ht⟩ := ht.exists
    obtain ⟨b, d, rfl, -⟩ := synchronize_ensures fuel _ t ht
    obtain ⟨hdot, hmem⟩ := iterate_dotNextLine_dot k { s with dot := s.screenbegin }
    dsimp only at hsb hstart hlt hdot hmem
    rw [hsb, hdot, hmem] at hlt
    rw [hdot, hmem] at hstart
    exact ⟨hstart, hlt⟩
  · rintro ⟨hstart, hlt⟩ -
    have hle := le_iterate_lineDown s.mem s.endp k s.screenbegin
    rw [iterate_dotNextLine (s := { s with dot := s.screenbegin }) k le_rfl hlt]
    obtain ⟨d, hpos, ht⟩ := synchronize_returns_of_shown
      (s := { s with dot := (lineDown s.mem s.endp)^[k] s.screenbegin }) hle hlt hdraw
    exact ⟨_, ht, rfl, hstart, hpos, hlt⟩

/-- All commands stay in the window exactly if the window begins with a line and shows the lines
that `L` goes down by. -/
theorem screenMoves_iff (hdraw : Drawable s) : ScreenMoves sys s ↔
    LineStart s.mem s.screenbegin ∧ cells s.mem s.screenbegin
      ((lineDown s.mem s.endp)^[rows - 1] s.screenbegin) < rows * columns := by
  rw [ScreenMoves, screenMove_iff (k := 0) (by decide) hdraw,
    screenMove_iff (k := rows / 2) (by decide) hdraw,
    screenMove_iff (k := rows - 1) (by decide) hdraw]
  constructor
  · rintro ⟨⟨hstart, -⟩, -, -, hlt⟩
    exact ⟨hstart, hlt⟩
  · rintro ⟨hstart, hlt⟩
    have hfewer : ∀ k ≤ rows - 1, cells s.mem s.screenbegin
        ((lineDown s.mem s.endp)^[k] s.screenbegin) < rows * columns := by
      intro k hk
      refine (cells_mono_right s.mem ?_ _).trans_lt hlt
      obtain ⟨j, hj⟩ := Nat.exists_eq_add_of_le' hk
      rw [hj, Function.iterate_add_apply]
      exact le_iterate_lineDown _ _ _ _
    exact ⟨⟨hstart, hfewer 0 (by decide)⟩,
      ⟨iterate_lineDown_lineStart hstart _, hfewer _ (by decide)⟩,
      iterate_lineDown_lineStart hstart _, hlt⟩

/-! ## Every run -/

/-- Between two passes the screen can be synchronised without a redraw, or is the first one. -/
theorem run_drawable {fn : List UInt8} {c : Option UInt8} {ks : List Read} {y : Config W}
    (hs : Opens sys fn s) (h : Run sys ⟨c, ks, s⟩ y) : Drawable y.vi := by
  refine Run.preserves (P := fun y => Drawable y.vi) h (fun x y hstep _ => ?_) ?_
  · obtain ⟨fuel, r, ks, u, v, hp⟩ := step_cases hstep
    obtain ⟨b, c, hy, -⟩ := synchronize_ensures fuel v _ hp.sync
    rw [hy]
    exact .inl rfl
  · obtain ⟨_, _, _, _, _, -, b, d, rfl, -, hshows, -⟩ := hs.cases
    exact .inr ⟨d, hshows⟩

/-- **The moves within the screen.** In every state reached from an opened file, `H`, `M` and `L`
stay in the window, on starts of lines, exactly if the window begins with a line and the 23 lines
from there take less than its 24 rows.

**Proof sketch.** The text of every state that is reached can be drawn (`run_drawable`). `H` and `M`
go down from the start of the window by lines, and `L` by 23 of them; what they cross takes less
than the rows of the window exactly if what `L` crosses does (`screenMoves_iff`). -/
theorem screenMoves_run_iff {fn : List UInt8} {ks : List Read} {y : Config W}
    (hs : Opens sys fn s) (h : Run sys ⟨none, ks, s⟩ y) : ScreenMoves sys y.vi ↔
      LineStart y.vi.mem y.vi.screenbegin ∧ cells y.vi.mem y.vi.screenbegin
        ((lineDown y.vi.mem y.vi.endp)^[rows - 1] y.vi.screenbegin) < rows * columns :=
  screenMoves_iff (run_drawable hs h)

/-- `screenMoves_run_iff` when a file of two lines has been opened. -/
theorem screenMoves_run_iff_open : ∃ s, Opens (readOnly (str "a\nb")) (str "f") s ∧
    (ScreenMoves (readOnly (str "a\nb")) s ↔ LineStart s.mem s.screenbegin ∧
      cells s.mem s.screenbegin ((lineDown s.mem s.endp)^[rows - 1] s.screenbegin) <
        rows * columns) := by
  obtain ⟨s, y, hs, -⟩ := session_run (readOnly (str "a\nb")) 20 0 (str "f") [] ()
    (P := fun _ _ => True) (by decide +kernel)
  exact ⟨s, hs, screenMoves_run_iff (y := ⟨none, [], s⟩) hs .refl⟩

/-- Every line of the text takes less room than the window has. -/
def ShortLines (m : ℤ → UInt8) (e : ℤ) : Prop :=
  ∀ p : ℕ, (p : ℤ) < e → cells m (beginLine m p) (endLine m e p + 1) < rows * columns

/-- Empty lines, a line of two rows, and the line that `L` gets to. -/
def wideText : List UInt8 := List.replicate 22 NL ++ List.replicate 20 TAB ++ str "\nb"

/-- With a line of two rows among the 23 lines, `L` scrolls. -/
theorem not_forall_screenMoves : ¬∀ (fn content : List UInt8) (s : Vi Unit) (ks : List Read)
    (y : Config Unit), Opens (readOnly content) fn s → Run (readOnly content) ⟨none, ks, s⟩ y →
    ShortLines y.vi.mem y.vi.endp → ScreenMoves (readOnly content) y.vi := by
  intro hall
  obtain ⟨s, y, hs, -, ⟨hend, hshort⟩, hcells⟩ := session_run (readOnly wideText) 60 0 (str "f")
    [] () (P := fun s _ => (s.endp = 44 ∧ ∀ p : ℕ, p < 44 →
        cells s.mem (beginLine s.mem p) (endLine s.mem s.endp p + 1) < rows * columns) ∧
      rows * columns ≤ cells s.mem s.screenbegin
        ((lineDown s.mem s.endp)^[rows - 1] s.screenbegin))
    (by decide +kernel)
  have hstart : Run (readOnly wideText) ⟨none, [], s⟩ ⟨none, [], s⟩ := .refl
  have hmoves := hall _ _ s [] ⟨none, [], s⟩ hs hstart fun p hp => hshort p (by
    dsimp only at hp
    omega)
  have hdraw := run_drawable hs hstart
  exact absurd ((screenMoves_iff hdraw).mp hmoves).2 (not_lt.mpr hcells)

end HgXv6
