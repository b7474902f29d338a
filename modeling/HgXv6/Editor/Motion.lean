import HgXv6.Editor.Window

set_option relaxedAutoImplicit false
set_option autoImplicit false

/-!
# Moving the cursor

The functions that move `dot` and, some of them, the window. They read the text and change
nothing else, and from a cursor in the text they leave a cursor in the text; `Moves` says both,
and each function has one lemma about it.

## Main definitions

* `HgXv6.dotUp`, `HgXv6.dotDown`, …, `HgXv6.dotTextEnd`, `HgXv6.dotMove2NextWordHead`, … — the
  source functions.
* `HgXv6.Move`, `HgXv6.doMove` — the commands of `doCmd` that are such moves.
* `HgXv6.InText`, `HgXv6.Moves` — the places of the text, and what a move may do.

## Main results

* `HgXv6.doMove_moves` — every command of this group is a move.
-/

namespace HgXv6

open Prog

variable {W : Type}

/-! ## The functions -/

/-- `dot_increase` -/
def dotIncrease (s : Vi W) : Vi W := if s.dot < s.endp - 1 then { s with dot := s.dot + 1 } else s

/-- `dot_decrease` -/
def dotDecrease (s : Vi W) : Vi W := if s.dot > 0 then { s with dot := s.dot - 1 } else s

/-- `dot_left` -/
def dotLeft (s : Vi W) : Vi W :=
  if s.dot > 0 ∧ s.mem (s.dot - 1) ≠ NL then dotDecrease s else s

/-- `dot_right` -/
def dotRight (s : Vi W) : Vi W :=
  if s.dot < s.endp - 1 ∧ s.mem s.dot ≠ NL then dotIncrease s else s

/-- `dot_head`; the loop runs at most once for each character before `dot`. -/
def dotHead (s : Vi W) : Vi W :=
  iterWhile (fun s => decide (s.dot > 0) && !(s.mem (s.dot - 1) == NL)) dotDecrease s.dot.toNat s

/-- `dot_tail`; the loop runs at most once for each character after `dot`. -/
def dotTail (s : Vi W) : Vi W :=
  iterWhile (fun s => decide (s.dot < s.endp - 1) && !(s.mem s.dot == NL)) dotIncrease
    (s.endp - 1 - s.dot).toNat s

/-- `dot_preLine`: to the start of the previous line, with the window; whether there is one. -/
def dotPreLine (s : Vi W) : Bool × Vi W :=
  let p := s.dot
  let s := dotHead s
  if s.dot > 0 ∧ s.mem (s.dot - 1) = NL then
    let s := dotHead (dotDecrease s)
    (true, if s.dot < s.screenbegin then { s with screenbegin := beginLine s.mem s.dot } else s)
  else (false, { s with dot := p })

/-- `dot_nextLine`: to the start of the next line, with the window; whether there is one. -/
def dotNextLine (s : Vi W) : Bool × Vi W :=
  let p := s.dot
  let s := dotTail s
  if s.dot < s.endp - 1 ∧ s.mem s.dot = NL then
    let s := dotHead (dotIncrease s)
    let (cnt, s) := countCursorPosFromScreenBegin2Dot s
    (true, if cnt ≥ rows * columns then
      { s with screenbegin := nextLine s.mem s.endp s.screenbegin } else s)
  else (false, { s with dot := p })

/-- The loop of `dot_up` and `dot_down` from the saved pointer `p`: one step right for each
character before `p` on its line, until `dot` is on a newline. -/
def replayColumn : ℕ → ℤ → Vi W → Vi W
  | 0, _, s => s
  | n + 1, p, s =>
    if p > 0 ∧ s.mem (p - 1) ≠ NL then
      let s := dotRight s
      if s.mem s.dot = NL then s else replayColumn n (p - 1) s
    else s

/-- `dot_up` -/
def dotUp (s : Vi W) : Bool × Vi W :=
  let p := s.dot
  let (moved, s) := dotPreLine s
  if moved then (true, replayColumn p.toNat p s) else (false, s)

/-- `dot_down` -/
def dotDown (s : Vi W) : Bool × Vi W :=
  let p := s.dot
  let (moved, s) := dotNextLine s
  if moved then (true, replayColumn p.toNat p s) else (false, s)

/-- `dot_textStart` -/
def dotTextStart (s : Vi W) : Vi W := { s with dot := 0, screenbegin := 0 }

/-- One pass of the loop of `dot_textEnd`, its test included. -/
def dotTextEndBody (s : Vi W) : Except Stop (Vi W × Bool) :=
  let (cnt, s) := countCursorPosFromScreenBegin2Dot s
  if cnt < rows * columns then .ok ({ s with screenbegin := prevLine s.mem s.screenbegin }, true)
  else .ok (s, false)

/-- `dot_textEnd` -/
def dotTextEnd (fuel : ℕ) (s : Vi W) : Except Stop (Vi W) :=
  let s := { s with dot := s.endp - 1, screenbegin := beginLine s.mem (s.endp - 1) }
  loopFuel .loops dotTextEndBody fuel s >>= fun s =>
  .ok { s with screenbegin := nextLine s.mem s.endp s.screenbegin }

/-- `dot_move2NextWordHead` -/
def dotMove2NextWordHead (fuel : ℕ) (s : Vi W) : Except Stop (Vi W) :=
  loopFuel .loops (fun s : Vi W =>
    let s := dotIncrease s
    if s.dot = s.endp - 1 then .ok (s, false)
    else if isSpace (s.mem (s.dot - 1)) ∧ ¬isSpace (s.mem s.dot) then .ok (s, false)
    else .ok (s, true)) fuel s

/-- `dot_move2NextWordTail` -/
def dotMove2NextWordTail (fuel : ℕ) (s : Vi W) : Except Stop (Vi W) :=
  dotMove2NextWordHead fuel s >>= fun s =>
  loopFuel .loops (fun s : Vi W =>
    if s.dot = s.endp - 1 then .ok (s, false)
    else if ¬isSpace (s.mem (s.dot - 1)) ∧ isSpace (s.mem s.dot) then .ok (dotDecrease s, false)
    else .ok (dotIncrease s, true)) fuel s

/-- `dot_move2PreWordHead` -/
def dotMove2PreWordHead (fuel : ℕ) (s : Vi W) : Except Stop (Vi W) :=
  loopFuel .loops (fun s : Vi W =>
    let s := dotDecrease s
    if s.dot = s.screenbegin then .ok (s, false)
    else if ¬isSpace (s.mem s.dot) ∧ s.dot > s.screenbegin ∧ isSpace (s.mem (s.dot - 1)) then
      .ok (s, false)
    else .ok (s, true)) fuel s

/-- The commands that move the cursor. -/
inductive Move
  | up | down | left | right | lineHead | lineTail | fileTail | fileHead | pageUp | pageDown
  | nextWordHead | preWordHead | nextWordTail | low | middle | high
deriving DecidableEq

/-- The cases of `doCmd` for the commands that move the cursor. -/
def doMove (fuel : ℕ) (mv : Move) (s : Vi W) : Except Stop (Vi W) :=
  match mv with
  | .up => .ok (dotUp s).2
  | .down => .ok (dotDown s).2
  | .left => .ok (dotLeft s)
  | .right => .ok (dotRight s)
  | .lineHead => .ok (dotHead s)
  | .lineTail => .ok (dotTail s)
  | .fileTail => dotTextEnd fuel s
  | .fileHead => .ok (dotTextStart s)
  | .pageUp =>
    let s := (fun s : Vi W => (dotPreLine s).2)^[rows - 1] s
    .ok { s with screenbegin := s.dot }
  | .pageDown =>
    let s := (fun s : Vi W => (dotNextLine s).2)^[rows - 1] s
    .ok { s with screenbegin := s.dot }
  | .nextWordHead => dotMove2NextWordHead fuel s
  | .preWordHead => dotMove2PreWordHead fuel s
  | .nextWordTail => dotMove2NextWordTail fuel s
  | .low =>
    .ok ((fun s : Vi W => (dotNextLine s).2)^[rows - 1] { s with dot := s.screenbegin })
  | .middle =>
    .ok ((fun s : Vi W => (dotNextLine s).2)^[rows / 2] { s with dot := s.screenbegin })
  | .high => .ok { s with dot := s.screenbegin }

/-! ## What a move may do -/

/-- A place of the text: one of its characters, or its start if it is empty. -/
def InText (e p : ℤ) : Prop := 0 ≤ p ∧ (p ≤ e - 1 ∨ p = 0)

/-- The first place of the text. -/
theorem InText.zero (e : ℤ) : InText e 0 := ⟨le_rfl, .inr rfl⟩

/-- What lies between two places of the text is one. -/
theorem InText.between {e p q : ℤ} (hq : InText e q) (h0 : 0 ≤ p) (h : p ≤ q) : InText e p := by
  obtain ⟨h1, h2⟩ := hq
  exact ⟨h0, by omega⟩

/-- From `s` to `t` only `dot` and the window have moved; if both were in the text before, they
are after. -/
def Moves (s t : Vi W) : Prop :=
  ∃ d b, t = { s with dot := d, screenbegin := b } ∧
    (InText s.endp s.dot → InText s.endp s.screenbegin →
      InText s.endp d ∧ InText s.endp b)

theorem Moves.refl (s : Vi W) : Moves s s := ⟨s.dot, s.screenbegin, rfl, fun h1 h2 => ⟨h1, h2⟩⟩

theorem Moves.trans {s t u : Vi W} (h : Moves s t) (h' : Moves t u) : Moves s u := by
  obtain ⟨d, b, rfl, h1⟩ := h
  obtain ⟨d', b', rfl, h2⟩ := h'
  exact ⟨d', b', rfl, fun hd hb => h2 (h1 hd hb).1 (h1 hd hb).2⟩

/-- A move of `dot` alone. -/
theorem moves_dot {s : Vi W} {d : ℤ} (h : InText s.endp s.dot → InText s.endp d) :
    Moves s { s with dot := d } :=
  ⟨d, s.screenbegin, rfl, fun h1 h2 => ⟨h h1, h2⟩⟩

/-- A move of the window alone. -/
theorem moves_screenbegin {s : Vi W} {b : ℤ}
    (h : InText s.endp s.dot → InText s.endp s.screenbegin → InText s.endp b) :
    Moves s { s with screenbegin := b } :=
  ⟨s.dot, b, rfl, fun h1 h2 => ⟨h1, h h1 h2⟩⟩

/-- The window may be put where `dot` is. -/
theorem moves_screenbegin_dot (s : Vi W) : Moves s { s with screenbegin := s.dot } :=
  moves_screenbegin fun h _ => h

/-- `dot` may be put where the window is. -/
theorem moves_dot_screenbegin (s : Vi W) : Moves s { s with dot := s.screenbegin } :=
  ⟨s.screenbegin, s.screenbegin, rfl, fun _ h => ⟨h, h⟩⟩

theorem dotIncrease_moves (s : Vi W) : Moves s (dotIncrease s) := by
  unfold dotIncrease
  split_ifs with h
  · exact moves_dot fun ⟨h1, _⟩ => ⟨by omega, .inl (by omega)⟩
  · exact Moves.refl s

theorem dotDecrease_moves (s : Vi W) : Moves s (dotDecrease s) := by
  unfold dotDecrease
  split_ifs with h
  · exact moves_dot fun hd => hd.between (by omega) (by omega)
  · exact Moves.refl s

theorem dotLeft_moves (s : Vi W) : Moves s (dotLeft s) := by
  unfold dotLeft
  split_ifs
  · exact dotDecrease_moves s
  · exact Moves.refl s

theorem dotRight_moves (s : Vi W) : Moves s (dotRight s) := by
  unfold dotRight
  split_ifs
  · exact dotIncrease_moves s
  · exact Moves.refl s

theorem dotHead_moves (s : Vi W) : Moves s (dotHead s) :=
  iterWhile_inv (fun t => Moves s t) (fun t h _ => h.trans (dotDecrease_moves t)) _ _
    (Moves.refl s)

theorem dotTail_moves (s : Vi W) : Moves s (dotTail s) :=
  iterWhile_inv (fun t => Moves s t) (fun t h _ => h.trans (dotIncrease_moves t)) _ _
    (Moves.refl s)

/-- The start of the line of a place of the text is one. -/
theorem InText.beginLine {e p : ℤ} (m : ℤ → UInt8) (h : InText e p) :
    InText e (HgXv6.beginLine m p) :=
  h.between (beginLine_nonneg m h.1) (beginLine_le m p)

/-- The next line of a place of the text is one. -/
theorem InText.nextLine {e p : ℤ} (m : ℤ → UInt8) (h : InText e p) :
    InText e (HgXv6.nextLine m e p) := by
  obtain ⟨h1, h2⟩ := h
  have hle := le_nextLine m e p
  refine ⟨by omega, ?_⟩
  by_cases hp : p ≤ e - 1
  · exact .inl (nextLine_le m hp)
  · have : HgXv6.nextLine m e p = p := by
      unfold HgXv6.nextLine
      rw [endLine_of_le m (by omega)]
      exact if_neg (by omega)
    omega

/-- The count may move the window. -/
theorem countCursorPos_moves (s : Vi W) : Moves s (countCursorPosFromScreenBegin2Dot s).2 := by
  rw [countCursorPos_eq]
  refine moves_screenbegin fun hd hb => ?_
  unfold pulledBack
  split_ifs
  · exact hd.beginLine s.mem
  · exact hb

/-- The window may go to the next line. -/
theorem moves_nextLine (s : Vi W) :
    Moves s { s with screenbegin := nextLine s.mem s.endp s.screenbegin } :=
  moves_screenbegin fun _ hb => hb.nextLine s.mem

/-- `dot` may go back to a place it had earlier. -/
theorem Moves.dot_back {s t : Vi W} (h : Moves s t) : Moves s { t with dot := s.dot } := by
  obtain ⟨d, b, rfl, hb⟩ := h
  exact ⟨s.dot, b, rfl, fun h1 h2 => ⟨h1, (hb h1 h2).2⟩⟩

theorem dotPreLine_moves (s : Vi W) : Moves s (dotPreLine s).2 := by
  have h1 := dotHead_moves s
  unfold dotPreLine
  dsimp only
  split_ifs
  · have h2 := (h1.trans (dotDecrease_moves _)).trans (dotHead_moves _)
    exact h2.trans (moves_screenbegin fun hd _ => hd.beginLine _)
  · exact (h1.trans (dotDecrease_moves _)).trans (dotHead_moves _)
  · exact h1.dot_back

theorem dotNextLine_moves (s : Vi W) : Moves s (dotNextLine s).2 := by
  have h1 := dotTail_moves s
  unfold dotNextLine
  dsimp only
  split_ifs
  · have h2 := (h1.trans (dotIncrease_moves _)).trans (dotHead_moves _)
    exact (h2.trans (countCursorPos_moves _)).trans (moves_nextLine _)
  · have h2 := (h1.trans (dotIncrease_moves _)).trans (dotHead_moves _)
    exact h2.trans (countCursorPos_moves _)
  · exact h1.dot_back

theorem replayColumn_moves (n : ℕ) (p : ℤ) (s : Vi W) : Moves s (replayColumn n p s) := by
  induction n generalizing p s with
  | zero => exact Moves.refl s
  | succ n ih =>
    simp only [replayColumn]
    split_ifs
    · exact dotRight_moves s
    · exact (dotRight_moves s).trans (ih _ _)
    · exact Moves.refl s

theorem dotUp_moves (s : Vi W) : Moves s (dotUp s).2 := by
  have h := dotPreLine_moves s
  unfold dotUp
  dsimp only
  split_ifs
  · exact h.trans (replayColumn_moves _ _ _)
  · exact h

theorem dotDown_moves (s : Vi W) : Moves s (dotDown s).2 := by
  have h := dotNextLine_moves s
  unfold dotDown
  dsimp only
  split_ifs
  · exact h.trans (replayColumn_moves _ _ _)
  · exact h

/-- Moves repeated are a move. -/
theorem iterate_moves {f : Vi W → Vi W} (hf : ∀ s, Moves s (f s)) (n : ℕ) (s : Vi W) :
    Moves s (f^[n] s) := by
  induction n generalizing s with
  | zero => exact Moves.refl s
  | succ n ih => exact (hf s).trans (ih (f s))

/-- A loop of moves is a move. -/
theorem loopFuel_moves {body : Vi W → Except Stop (Vi W × Bool)}
    (hbody : ∀ s, Ensures (body s) fun r => Moves s r.1) (fuel : ℕ) (s : Vi W) :
    Ensures (loopFuel .loops body fuel s) fun t => Moves s t := by
  refine loopFuel_ensures (fun t => Moves s t) _ (fun t ht => (hbody t).mono fun r hr => ?_)
    fuel s (Moves.refl s)
  split_ifs <;> exact ht.trans hr

/-- The previous line of a place of the text is one. -/
theorem InText.prevLine {e p : ℤ} (m : ℤ → UInt8) (h : InText e p) :
    InText e (HgXv6.prevLine m p) := by
  have h1 := h.beginLine m
  unfold HgXv6.prevLine
  dsimp only
  split_ifs with hp
  · exact (h1.between (p := HgXv6.beginLine m p - 1) (by omega) (by omega)).beginLine m
  · exact h1.beginLine m

/-- A pass of the loop of `dot_textEnd`, in terms of the window the count sees. -/
theorem dotTextEndBody_eq (s : Vi W) : dotTextEndBody s =
    if cells s.mem (pulledBack s) s.dot < rows * columns then
      .ok ({ s with screenbegin := prevLine s.mem (pulledBack s) }, true)
    else .ok ({ s with screenbegin := pulledBack s }, false) := by
  simp only [dotTextEndBody, countCursorPos_eq]

/-- On an empty text `dot_textEnd` does not return: window and cursor are before the text, and
the window cannot get away from the cursor. -/
theorem dotTextEnd_empty {s : Vi W} (h : s.endp ≤ 0) (fuel : ℕ) :
    dotTextEnd fuel s = .error .loops := by
  have hline : beginLine s.mem (s.endp - 1) = s.endp - 1 := beginLine_of_le _ (by omega)
  have hprev : prevLine s.mem (s.endp - 1) = s.endp - 1 := by
    unfold prevLine
    dsimp only
    rw [hline, if_neg (by omega), hline]
  unfold dotTextEnd
  dsimp only
  rw [hline, loopFuel_diverges (fun t => t = { s with
    dot := s.endp - 1, screenbegin := s.endp - 1 }) _ fuel _ rfl, error_bind]
  rintro _ rfl
  refine ⟨_, ?_, rfl⟩
  rw [dotTextEndBody_eq, pulledBack_of_le le_rfl, if_pos (by rw [cells_of_le _ le_rfl]; decide)]
  simp only [hprev]

/-- Going to the last character moves, if it returns. -/
theorem dotTextEnd_moves (fuel : ℕ) (s : Vi W) :
    Ensures (dotTextEnd fuel s) fun t => Moves s t := by
  by_cases he : s.endp ≤ 0
  · rw [dotTextEnd_empty he]
    exact (ensures_error _ _).mpr trivial
  · have hlast : InText s.endp (s.endp - 1) := ⟨by omega, .inl le_rfl⟩
    refine Ensures.bind (P := fun t => Moves s t) ?_ fun t ht => ?_
    · refine loopFuel_ensures (fun t => Moves s t) _ (fun t ht => ?_) fuel _
        ⟨_, _, rfl, fun _ _ => ⟨hlast, hlast.beginLine _⟩⟩
      have hcount := countCursorPos_moves t
      rw [countCursorPos_eq] at hcount
      rw [dotTextEndBody_eq]
      split_ifs
      · simp only [ensures_ok, if_true]
        exact (ht.trans hcount).trans (moves_screenbegin fun _ hb => hb.prevLine _)
      · simp only [ensures_ok, Bool.false_eq_true, if_false]
        exact ht.trans hcount
    · rw [ensures_ok]
      exact ht.trans (moves_nextLine t)

/-- Going to the next word moves, if it returns. -/
theorem dotMove2NextWordHead_moves (fuel : ℕ) (s : Vi W) :
    Ensures (dotMove2NextWordHead fuel s) fun t => Moves s t := by
  refine loopFuel_moves (fun s => ?_) fuel s
  dsimp only
  split_ifs <;> exact (ensures_ok _ _).mpr (dotIncrease_moves s)

/-- Going to the end of the next word moves, if it returns. -/
theorem dotMove2NextWordTail_moves (fuel : ℕ) (s : Vi W) :
    Ensures (dotMove2NextWordTail fuel s) fun t => Moves s t := by
  refine Ensures.bind (dotMove2NextWordHead_moves fuel s) fun t ht => ?_
  refine (loopFuel_moves (fun s => ?_) fuel t).mono fun u hu => ht.trans hu
  split_ifs
  · exact (ensures_ok _ _).mpr (Moves.refl s)
  · exact (ensures_ok _ _).mpr (dotDecrease_moves s)
  · exact (ensures_ok _ _).mpr (dotIncrease_moves s)

/-- Going to the previous word moves, if it returns. -/
theorem dotMove2PreWordHead_moves (fuel : ℕ) (s : Vi W) :
    Ensures (dotMove2PreWordHead fuel s) fun t => Moves s t := by
  refine loopFuel_moves (fun s => ?_) fuel s
  dsimp only
  split_ifs <;> exact (ensures_ok _ _).mpr (dotDecrease_moves s)

/-- Every command of this group is a move. -/
theorem doMove_moves (fuel : ℕ) (mv : Move) (s : Vi W) :
    Ensures (doMove fuel mv s) fun t => Moves s t := by
  cases mv with
  | up => exact (ensures_ok _ _).mpr (dotUp_moves s)
  | down => exact (ensures_ok _ _).mpr (dotDown_moves s)
  | left => exact (ensures_ok _ _).mpr (dotLeft_moves s)
  | right => exact (ensures_ok _ _).mpr (dotRight_moves s)
  | lineHead => exact (ensures_ok _ _).mpr (dotHead_moves s)
  | lineTail => exact (ensures_ok _ _).mpr (dotTail_moves s)
  | fileTail => exact dotTextEnd_moves fuel s
  | fileHead => exact (ensures_ok _ _).mpr ⟨0, 0, rfl, fun _ _ => ⟨.zero _, .zero _⟩⟩
  | pageUp =>
    exact (ensures_ok _ _).mpr
      ((iterate_moves dotPreLine_moves _ s).trans (moves_screenbegin_dot _))
  | pageDown =>
    exact (ensures_ok _ _).mpr
      ((iterate_moves dotNextLine_moves _ s).trans (moves_screenbegin_dot _))
  | nextWordHead => exact dotMove2NextWordHead_moves fuel s
  | preWordHead => exact dotMove2PreWordHead_moves fuel s
  | nextWordTail => exact dotMove2NextWordTail_moves fuel s
  | low =>
    exact (ensures_ok _ _).mpr
      ((moves_dot_screenbegin s).trans (iterate_moves dotNextLine_moves _ _))
  | middle =>
    exact (ensures_ok _ _).mpr
      ((moves_dot_screenbegin s).trans (iterate_moves dotNextLine_moves _ _))
  | high => exact (ensures_ok _ _).mpr (moves_dot_screenbegin s)

end HgXv6
