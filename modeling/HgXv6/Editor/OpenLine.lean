import HgXv6.Editor.Append
import HgXv6.Lib.Lines

set_option relaxedAutoImplicit false
set_option autoImplicit false

/-!
# Opening lines

`O` inserts a newline at the start of the cursor's line and types before it. `o` inserts one where
`next_line` points, and types at the start of the line after the cursor's. On the last line
`next_line` points at the last character: if this is a newline, a second one before it does as
well, but on a last line without newline it separates the last character from its line.

## Main definitions

* `HgXv6.lineIndex` — which line of the text the cursor is on.
* `HgXv6.OpensLines` — what `o` and `O` are meant to do.
* `HgXv6.lineBelow`, `HgXv6.lineAbove` — the states in which they start to insert.
* `HgXv6.OpenFits` — everything on the way can be drawn.

## Main results

* `HgXv6.text_below`, `HgXv6.text_above` — the texts that `o` and `O` leave.
* `HgXv6.opensLines_iff` — `O` is right, and `o` is exactly if the cursor's line has a newline.
-/

namespace HgXv6

open Prog

variable {W : Type} {sys : Sys W} {s t : Vi W} {new : List UInt8} {P : List UInt8 → Prop}

/-! ## What is typed after a redraw -/

/-- The text can be drawn, and so can every text on the way when `new` is typed. -/
def OpenFits (new : List UInt8) (t : Vi W) : Prop :=
  ScreenFits t.mem t.endp t.dot (pulledBack t) ∧
    TypingFits new t.mem t.endp t.dot (windowTop t.mem t.endp t.dot (pulledBack t))

instance (new : List UInt8) (t : Vi W) : Decidable (OpenFits new t) :=
  inferInstanceAs (Decidable (_ ∧ _))

/-- What a command yields that draws the text `t` and goes to insert mode. -/
theorem yields_open_iff (h : Typing (pulled t)) (hstr : ∀ c ∈ new, isPrintChar c = true)
    (hroom : t.endp + new.length ≤ t.textend) :
    Yields (fun fuel => redraw fuel t >>= synchronize fuel >>= insert fuel (typedKeys new)) P ↔
      OpenFits new t ∧ P (insertAt new t.text t.dot) := by
  simp only [← redraw_pulled _ t]
  by_cases hscreen : ScreenFits t.mem t.endp t.dot (pulledBack t)
  · obtain ⟨c, hc, hret⟩ := redraw_synchronize_returns h hscreen
    rw [yields_bind_iff hret, yields_insert_iff (h.adjusted hscreen.1 c _) hc hstr hroom,
      OpenFits, and_assoc]
    exact (and_iff_right hscreen).symm
  · refine iff_of_false (fun hyields => ?_) fun hfits => hscreen hfits.1.1
    obtain ⟨n, u, hu⟩ := hyields.exists_first
    exact hscreen (redraw_synchronize_fits h n u hu).1

/-! ## The new line -/

/-- The memory and the end of the text after a character was inserted at `p`. -/
theorem store_makeHoleAdd {p : ℤ} (c : UInt8) (hroom : s.endp + 1 ≤ s.textend) :
    store p c (makeHoleAdd p 1 s) =
      { s with mem := inserted s.mem s.endp p c, endp := s.endp + 1 } := by
  rw [makeHoleAdd, Nat.cast_one, if_neg (by omega)]
  rfl

/-- The text then. -/
theorem bytes_inserted {p : ℤ} (c : UInt8) (h0 : 0 ≤ p) (hp : p ≤ s.endp) :
    bytes (inserted s.mem s.endp p c) 0 (s.endp + 1).toNat = insertAt [c] s.text p := by
  have hlen : (s.endp + 1).toNat = (p + 1).toNat + (s.endp - p).toNat := by omega
  have hp0 : (0 : ℤ) + p.toNat = p := by omega
  have hbehind : (s.endp - p).toNat = s.endp.toNat - p.toNat := by omega
  have hafter : (0 : ℤ) + (p + 1).toNat = p + 1 := by omega
  calc bytes (inserted s.mem s.endp p c) 0 (s.endp + 1).toNat
      = bytes (inserted s.mem s.endp p c) 0 (p + 1).toNat ++
          bytes (inserted s.mem s.endp p c) (p + 1) (s.endp - p).toNat := by
        rw [hlen, bytes_append, hafter]
    _ = bytes s.mem 0 p.toNat ++ [c] ++ bytes s.mem p (s.endp - p).toNat := by
        rw [bytes_inserted_before _ h0, bytes_inserted_after]
    _ = s.text.take p.toNat ++ [c] ++ s.text.drop p.toNat := by
        rw [Vi.text, take_bytes _ _ (by omega), drop_bytes _ _ (by omega), hp0, hbehind]
    _ = insertAt [c] s.text p := rfl

/-- The NUL behind the text is still there. -/
theorem inserted_nul {p : ℤ} (c : UInt8) (hp : p ≤ s.endp) (hnul : s.mem s.endp = NUL) :
    inserted s.mem s.endp p c (s.endp + 1) = NUL := by
  rw [inserted, copyDown_fill_update, if_neg (by omega), if_pos (by omega), add_sub_cancel_right]
  exact hnul

/-- The state in which `O` starts to insert. -/
def lineAbove (s : Vi W) : Vi W :=
  { s with
    mem := inserted s.mem s.endp (beginLine s.mem s.dot) NL, endp := s.endp + 1
    dot := beginLine s.mem s.dot }

/-- The memory after `o` has inserted its newline. -/
def memBelow (s : Vi W) : ℤ → UInt8 := inserted s.mem s.endp (nextLine s.mem s.endp s.dot) NL

/-- The state in which `o` starts to insert. -/
def lineBelow (s : Vi W) : Vi W :=
  { s with
    mem := memBelow s, endp := s.endp + 1, dot := endLine s.mem s.endp s.dot + 1
    screenbegin :=
      if rows * columns ≤ cells (memBelow s) s.screenbegin (endLine s.mem s.endp s.dot + 1) then
        nextLine (memBelow s) (s.endp + 1) s.screenbegin else s.screenbegin }

/-- The new line of `O`. -/
theorem openAbove_eq (hroom : s.endp + 1 ≤ s.textend) : openAbove s = lineAbove s := by
  simp only [openAbove, store_makeHoleAdd NL hroom]
  rfl

/-- After the newline was inserted, the cursor's line ends where it did. -/
theorem endLine_memBelow (hdot : s.dot < s.endp) :
    endLine (memBelow s) (s.endp + 1) s.dot = endLine s.mem s.endp s.dot := by
  have hge := le_endLine s.mem s.endp s.dot
  have hle := endLine_le s.mem (e := s.endp) (p := s.dot) (by omega)
  have hnext : nextLine s.mem s.endp s.dot = endLine s.mem s.endp s.dot ∨
      EndsLine s ∧ nextLine s.mem s.endp s.dot = endLine s.mem s.endp s.dot + 1 := by
    unfold nextLine
    dsimp only
    split_ifs with h
    · exact .inr ⟨h.2, rfl⟩
    · exact .inl rfl
  refine endLine_eq hge (by omega) (fun r h1 h2 => ?_) (.inl ?_)
  · rw [memBelow, inserted, copyDown_fill_update, if_neg (by omega), if_neg (by omega)]
    exact ne_of_lt_endLine h1 h2
  · rw [memBelow, inserted, copyDown_fill_update]
    rcases hnext with hnext | ⟨hnl, hnext⟩
    · rw [if_pos hnext.symm]
    · rw [if_neg (by omega), if_neg (by omega)]
      exact hnl

/-- The new line of `o`. -/
theorem openBelow_eq (h : Typing s) (hroom : s.endp + 1 ≤ s.textend) :
    openBelow s = lineBelow s := by
  have hdot := h.dot_lt
  have hle := endLine_le s.mem (e := s.endp) (p := s.dot) (by omega)
  have hge := le_endLine s.mem s.endp s.dot
  have hsb := h.screenbegin_le
  have hend : endLine (inserted s.mem s.endp (nextLine s.mem s.endp s.dot) NL) (s.endp + 1) s.dot =
      endLine s.mem s.endp s.dot := endLine_memBelow hdot
  simp only [openBelow, store_makeHoleAdd NL hroom, dotNextLine_eq]
  rw [hend, if_pos (by omega), pulledBack_of_le (by dsimp only; omega)]
  unfold lineBelow memBelow
  dsimp only
  split_ifs <;> rfl

/-! ## The texts -/

/-- A string inserted behind a character that was inserted before. -/
theorem insertAt_behind (new l : List UInt8) (c : UInt8) {p : ℤ} (h0 : 0 ≤ p)
    (hp : p ≤ l.length) :
    insertAt new (insertAt [c] l p) (p + 1) = l.take p.toNat ++ c :: (new ++ l.drop p.toNat) := by
  have hlen : (l.take p.toNat ++ [c]).length = (p + 1).toNat := by
    rw [List.length_append, List.length_take, List.length_singleton]
    omega
  rw [insertAt, insertAt, List.take_left' hlen, List.drop_left' hlen]
  simp

/-- A string inserted before it. -/
theorem insertAt_before (new l : List UInt8) (c : UInt8) {p : ℤ} (hp : p ≤ l.length) :
    insertAt new (insertAt [c] l p) p = l.take p.toNat ++ (new ++ c :: l.drop p.toNat) := by
  have hlen : (l.take p.toNat).length = p.toNat := by
    rw [List.length_take]
    omega
  rw [insertAt, insertAt, List.append_assoc (l.take p.toNat) [c], List.take_left' hlen,
    List.drop_left' hlen]
  simp

/-- The text from one of its characters on. -/
theorem drop_text {p : ℤ} (h0 : 0 ≤ p) (hp : p < s.endp) :
    s.text.drop p.toNat = s.mem p :: s.text.drop (p + 1).toNat := by
  have hlen : s.endp.toNat - p.toNat = s.endp.toNat - (p + 1).toNat + 1 := by omega
  rw [Vi.text, drop_bytes _ _ (by omega), drop_bytes _ _ (by omega), hlen, bytes_succ',
    show (0 : ℤ) + p.toNat = p by omega, show (0 : ℤ) + (p + 1).toNat = p + 1 by omega]

/-- The text up to and with one of its characters. -/
theorem take_text {p : ℤ} (h0 : 0 ≤ p) (hp : p < s.endp) :
    s.text.take (p + 1).toNat = s.text.take p.toNat ++ [s.mem p] := by
  rw [Vi.text, take_bytes _ _ (by omega), take_bytes _ _ (by omega),
    show (p + 1).toNat = p.toNat + 1 by omega, bytes_succ, show (0 : ℤ) + p.toNat = p by omega]

/-- The text that `O` leaves: the string and a newline at the start of the cursor's line. -/
theorem text_above (h0 : 0 ≤ s.dot) (hdot : s.dot < s.endp) (new : List UInt8) :
    insertAt new (lineAbove s).text (lineAbove s).dot =
      s.text.take (beginLine s.mem s.dot).toNat ++
        (new ++ NL :: s.text.drop (beginLine s.mem s.dot).toNat) := by
  have hb0 := beginLine_nonneg s.mem h0
  have hb := beginLine_le s.mem s.dot
  have htext : (lineAbove s).text = insertAt [NL] s.text (beginLine s.mem s.dot) :=
    bytes_inserted NL hb0 (by omega)
  rw [htext]
  exact insertAt_before new s.text NL (by rw [length_text]; omega)

/-- The text that `o` leaves: a newline, the string, and the rest, from the newline of the cursor's
line on, or, if there is none, from the last character on.

**Proof sketch.** If the line of the cursor ends with the text, the next line is its own last
character, and the newline is inserted before that one. Otherwise the newline is inserted behind the
newline of the line; of two newlines next to each other it does not matter which one was there
before, so the text is also that with a newline inserted before the old one. -/
theorem text_below (h0 : 0 ≤ s.dot) (hdot : s.dot < s.endp) (new : List UInt8) :
    insertAt new (lineBelow s).text (lineBelow s).dot =
      s.text.take (endLine s.mem s.endp s.dot).toNat ++
        NL :: (new ++ s.text.drop (endLine s.mem s.endp s.dot).toNat) := by
  have hge := le_endLine s.mem s.endp s.dot
  have hle := endLine_le s.mem (e := s.endp) (p := s.dot) (by omega)
  by_cases hlast : endLine s.mem s.endp s.dot = s.endp - 1
  · have hnext : nextLine s.mem s.endp s.dot = endLine s.mem s.endp s.dot := by
      unfold nextLine
      exact if_neg (by omega)
    have htext : (lineBelow s).text = insertAt [NL] s.text (endLine s.mem s.endp s.dot) := by
      rw [← hnext]
      exact bytes_inserted NL (by omega) (by omega)
    rw [htext]
    exact insertAt_behind new s.text NL (by omega) (by rw [length_text]; omega)
  · have hnl : s.mem (endLine s.mem s.endp s.dot) = NL := endLine_stop (by omega)
    have hnext : nextLine s.mem s.endp s.dot = endLine s.mem s.endp s.dot + 1 := by
      unfold nextLine
      exact if_pos ⟨by omega, hnl⟩
    have htext : (lineBelow s).text = insertAt [NL] s.text (endLine s.mem s.endp s.dot + 1) := by
      rw [← hnext]
      exact bytes_inserted NL (by omega) (by omega)
    -- the newline of the line and the inserted one are the same
    have hbefore := insertAt_before new s.text NL (p := endLine s.mem s.endp s.dot + 1)
      (by rw [length_text]; omega)
    rw [htext]
    refine hbefore.trans ?_
    rw [take_text (by omega) (by omega), drop_text (p := endLine s.mem s.endp s.dot) (by omega)
      (by omega), hnl, List.append_assoc, List.singleton_append]

/-! ## The lines -/

/-- The number of the cursor's line: there are so many newlines before the cursor. -/
def lineIndex (s : Vi W) : ℕ := (s.text.take s.dot.toNat).count NL

/-- Where there is no newline between two places, there are the same before both. -/
theorem count_take {p q : ℤ} (h0 : 0 ≤ p) (hpq : p ≤ q) (hq : q ≤ s.endp)
    (hne : ∀ r, p ≤ r → r < q → s.mem r ≠ NL) :
    (s.text.take q.toNat).count NL = (s.text.take p.toNat).count NL := by
  have hlen : q.toNat = p.toNat + (q - p).toNat := by omega
  rw [Vi.text, take_bytes _ _ (by omega), take_bytes _ _ (by omega), hlen, bytes_append,
    List.count_append, show (0 : ℤ) + p.toNat = p by omega]
  refine Nat.add_eq_left.mpr (List.count_eq_zero.mpr fun hmem => ?_)
  obtain ⟨i, hi, hnl⟩ := mem_bytes.mp hmem
  exact hne (p + i) (by omega) (by omega) hnl

/-- After `O`, the string is a line before the cursor's. -/
theorem lines_above (h0 : 0 ≤ s.dot) (hdot : s.dot < s.endp) (hnew : NL ∉ new) :
    (insertAt new (lineAbove s).text (lineAbove s).dot).splitOn NL =
      (s.text.splitOn NL).insertIdx (lineIndex s) new := by
  have hb0 := beginLine_nonneg s.mem h0
  have hb := beginLine_le s.mem s.dot
  have hcount : lineIndex s = (s.text.take (beginLine s.mem s.dot).toNat).count NL :=
    count_take hb0 hb hdot.le fun r h1 h2 => ne_of_beginLine_le h1 h2
  rw [text_above h0 hdot]
  rcases hb0.eq_or_lt with hzero | hpos
  · rw [hcount, ← hzero]
    exact splitOn_first_line s.text hnew
  · -- a newline ends the line before
    have hnl := beginLine_start hpos
    have htake := take_text (s := s) (p := beginLine s.mem s.dot - 1) (by omega) (by omega)
    have hdrop := drop_text (s := s) (p := beginLine s.mem s.dot - 1) (by omega) (by omega)
    rw [sub_add_cancel, hnl] at htake hdrop
    have hsplit := List.take_append_drop (beginLine s.mem s.dot - 1).toNat s.text
    rw [hdrop] at hsplit
    generalize s.text.take (beginLine s.mem s.dot - 1).toNat = l at htake hsplit
    generalize s.text.drop (beginLine s.mem s.dot).toNat = r at hsplit ⊢
    have hone : (l ++ [NL]).count NL = l.count NL + 1 := by
      rw [List.count_append, List.count_singleton_self]
    rw [hcount, htake]
    calc (l ++ [NL] ++ (new ++ NL :: r)).splitOn NL
        = (l ++ NL :: (new ++ NL :: r)).splitOn NL := by
          rw [List.append_assoc, List.singleton_append]
      _ = ((l ++ NL :: r).splitOn NL).insertIdx (l.count NL + 1) new := splitOn_insert_line _ _ hnew
      _ = (s.text.splitOn NL).insertIdx ((l ++ [NL]).count NL) new := by rw [hsplit, hone]

/-- After `o`, the string is a line behind the cursor's, if this has a newline. -/
theorem lines_below (h0 : 0 ≤ s.dot) (hdot : s.dot < s.endp) (hnew : NL ∉ new)
    (hnl : EndsLine s) :
    (insertAt new (lineBelow s).text (lineBelow s).dot).splitOn NL =
      (s.text.splitOn NL).insertIdx (lineIndex s + 1) new := by
  have hge := le_endLine s.mem s.endp s.dot
  have hle := endLine_le s.mem (e := s.endp) (p := s.dot) (by omega)
  have hcount : (s.text.take (endLine s.mem s.endp s.dot).toNat).count NL = lineIndex s :=
    count_take h0 hge (by omega) fun r h1 h2 => ne_of_lt_endLine h1 h2
  have hdrop := drop_text (s := s) (p := endLine s.mem s.endp s.dot) (by omega) (by omega)
  rw [show s.mem (endLine s.mem s.endp s.dot) = NL from hnl] at hdrop
  have hsplit := List.take_append_drop (endLine s.mem s.endp s.dot).toNat s.text
  rw [hdrop] at hsplit
  rw [text_below h0 hdot, hdrop, splitOn_insert_line _ _ hnew, hsplit, hcount]

/-- Otherwise it is not: the last character of the text has got behind it. -/
theorem lines_below_ne (h0 : 0 ≤ s.dot) (hdot : s.dot < s.endp) (hnew : NL ∉ new)
    (hnl : ¬EndsLine s) :
    (insertAt new (lineBelow s).text (lineBelow s).dot).splitOn NL ≠
      (s.text.splitOn NL).insertIdx (lineIndex s + 1) new := by
  have hge := le_endLine s.mem s.endp s.dot
  have hlast := endLine_of_not_endsLine hdot hnl
  have hne : s.mem (s.endp - 1) ≠ NL := fun h => hnl (by rwa [EndsLine, hlast])
  have hdrop := drop_text (s := s) (p := s.endp - 1) (by omega) (by omega)
  have hnil : s.text.drop s.endp.toNat = [] := List.drop_of_length_le (length_text s).le
  rw [sub_add_cancel, hnil] at hdrop
  have hsplit := List.take_append_drop (s.endp - 1).toNat s.text
  rw [hdrop] at hsplit
  -- the whole text has as many newlines as there are before the cursor
  have hcount : s.text.count NL = lineIndex s := by
    have h := count_take (s := s) (q := s.endp) h0 (by omega) le_rfl fun r h1 h2 => by
      rcases (show r ≤ s.endp - 1 by omega).lt_or_eq with hlt | rfl
      · exact ne_of_lt_endLine (e := s.endp) h1 (by omega)
      · exact hne
    rwa [List.take_of_length_le (length_text s).le] at h
  rw [text_below h0 hdot, hlast, hdrop, ← hcount, ← splitOn_last_line _ hnew]
  intro heq
  have hlists := splitOn_injective heq
  generalize s.text.take (s.endp - 1).toNat = l at hsplit hlists
  rw [← hsplit, List.append_assoc, List.append_cancel_left_eq, List.singleton_append] at hlists
  exact hne (List.cons.inj hlists).1.symm

/-! ## The commands -/

/-- `o` inserts a line behind the cursor's, and `O` one before it. -/
def OpensLines (sys : Sys W) (s : Vi W) (new : List UInt8) : Prop :=
  Yields (fun fuel => doCmd sys fuel (chr 'o') (typedKeys new) s)
      (fun l => l.splitOn NL = (s.text.splitOn NL).insertIdx (lineIndex s + 1) new) ∧
    Yields (fun fuel => doCmd sys fuel (chr 'O') (typedKeys new) s)
      (fun l => l.splitOn NL = (s.text.splitOn NL).insertIdx (lineIndex s) new)

/-- `o` is right exactly if the cursor's line has a newline and everything can be drawn. -/
theorem opensBelow_iff (h : Typing s) (hstr : ∀ c ∈ new, isPrintChar c = true) (hnew : NL ∉ new)
    (hroom : s.endp + 1 + new.length ≤ s.textend) :
    Yields (fun fuel => doCmd sys fuel (chr 'o') (typedKeys new) s)
        (fun l => l.splitOn NL = (s.text.splitOn NL).insertIdx (lineIndex s + 1) new) ↔
      EndsLine s ∧ OpenFits new (lineBelow s) := by
  have h0 := h.screenbegin_nonneg.trans h.screenbegin_le
  have hdot := h.dot_lt
  have hge := le_endLine s.mem s.endp s.dot
  have hle := endLine_le s.mem (e := s.endp) (p := s.dot) (by omega)
  have hnext := nextLine_le s.mem (e := s.endp) (p := s.dot) (by omega)
  have htyping : Typing (pulled (lineBelow s)) := by
    refine typing_pulled ?_ ?_ ?_ (inserted_nul NL (by omega) h.nul)
    · change 0 ≤ (if _ then _ else _ : ℤ)
      split_ifs
      · exact h.screenbegin_nonneg.trans (le_nextLine _ _ _)
      · exact h.screenbegin_nonneg
    · dsimp only [lineBelow]
      omega
    · dsimp only [lineBelow]
      omega
  change Yields (fun fuel => redraw fuel (openBelow s) >>= synchronize fuel >>=
    insert fuel (typedKeys new)) _ ↔ _
  rw [openBelow_eq h (by omega), yields_open_iff htyping hstr hroom, and_comm]
  refine and_congr_left fun _ => ⟨fun hlines => ?_, lines_below h0 hdot hnew⟩
  by_contra hnl
  exact lines_below_ne h0 hdot hnew hnl hlines

/-- `O` is right exactly if everything can be drawn. -/
theorem opensAbove_iff (h : Typing s) (hstr : ∀ c ∈ new, isPrintChar c = true) (hnew : NL ∉ new)
    (hroom : s.endp + 1 + new.length ≤ s.textend) :
    Yields (fun fuel => doCmd sys fuel (chr 'O') (typedKeys new) s)
        (fun l => l.splitOn NL = (s.text.splitOn NL).insertIdx (lineIndex s) new) ↔
      OpenFits new (lineAbove s) := by
  have h0 := h.screenbegin_nonneg.trans h.screenbegin_le
  have hdot := h.dot_lt
  have hb := beginLine_le s.mem s.dot
  have htyping : Typing (pulled (lineAbove s)) :=
    typing_pulled h.screenbegin_nonneg (beginLine_nonneg _ h0)
      (by dsimp only [lineAbove]; omega) (inserted_nul NL (by omega) h.nul)
  change Yields (fun fuel => redraw fuel (openAbove s) >>= synchronize fuel >>=
    insert fuel (typedKeys new)) _ ↔ _
  rw [openAbove_eq (by omega), yields_open_iff htyping hstr hroom]
  exact and_iff_left (lines_above h0 hdot hnew)

/-- **Opening lines.** With window and cursor in a text that is not empty and a NUL behind it, `o`
and `O` do what they are meant to exactly if the cursor's line has a newline and everything on the
way can be drawn.

**Proof sketch.** Each of the two commands makes a line where `next_line` or `begin_line` says and
inserts what is typed in it, which goes in as a whole exactly if it can be drawn on the way. The
place is right for `O` always, and for `o` exactly if the line of the cursor has a newline. -/
theorem opensLines_iff (sys : Sys W) (s : Vi W) (new : List UInt8) (h : Typing s)
    (hstr : ∀ c ∈ new, isPrintChar c = true) (hnew : NL ∉ new)
    (hroom : s.endp + 1 + new.length ≤ s.textend) :
    OpensLines sys s new ↔
      (EndsLine s ∧ OpenFits new (lineBelow s)) ∧ OpenFits new (lineAbove s) :=
  and_congr (opensBelow_iff h hstr hnew hroom) (opensAbove_iff h hstr hnew hroom)

/-- `opensLines_iff` for a file of one line. -/
theorem opensLines_iff_line :
    OpensLines (readOnly (str "ab\n")) (smallFile (str "ab\n")) (str "x") :=
  (opensLines_iff _ (smallFile (str "ab\n")) (str "x") ⟨by decide, by decide, by decide,
    by decide⟩ (by decide +kernel) (by decide) (by decide)).mpr
    ⟨⟨by decide +kernel, by decide +kernel⟩, by decide +kernel⟩

/-- On a last line without newline `o` does not insert a line behind it. -/
theorem not_opensLines :
    ¬OpensLines (readOnly (str "ab")) (smallFile (str "ab")) (str "x") := by
  rintro ⟨hbelow, -⟩
  rw [opensBelow_iff ⟨by decide, by decide, by decide, by decide⟩ (by decide +kernel) (by decide)
    (by decide)] at hbelow
  revert hbelow
  decide +kernel

end HgXv6
