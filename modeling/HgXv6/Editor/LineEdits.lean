import HgXv6.Editor.Insert

set_option relaxedAutoImplicit false
set_option autoImplicit false

/-!
# Joining lines and deleting to the end of a line

`J` is meant to remove the newline that ends the cursor's line, and `D` the characters from the
cursor up to it. Both take what `end_line` points at to be that newline. On a last line without
one it points at the last character instead: `J` removes a character of the line, and `D` leaves
one.

## Main definitions

* `HgXv6.EndsLine` — the cursor's line has a newline.
* `HgXv6.lineStop` — where the characters of the cursor's line end.
* `HgXv6.JoinsLine`, `HgXv6.DeletesTail` — what the commands are meant to do.

## Main results

* `HgXv6.text_makeHoleDelete` — a deletion, as a deletion from the text.
* `HgXv6.joinsLine_iff`, `HgXv6.deletesTail_iff` — each command.
* `HgXv6.joinsAndDeletes_iff` — both do what they are meant to exactly if there is a newline.
-/

namespace HgXv6

open Prog

variable {W : Type} {sys : Sys W} {s : Vi W}

/-! ## The text -/

/-- The text has a byte for each place up to its end. -/
theorem length_text (s : Vi W) : s.text.length = s.endp.toNat := length_bytes _ _ _

/-- A deletion takes the bytes from `a` to `b` out of the text.

**Proof sketch.** The function moves the bytes behind `b` down to `a`, as `copyUp` says. Below `a`
nothing changes, and from `a` on each byte is the one `b - a + 1` places further up. -/
theorem text_makeHoleDelete {a b : ℤ} (ha : 0 ≤ a) (hab : a ≤ b) (hb : b < s.endp) :
    (makeHoleDelete a b s).text = s.text.take a.toNat ++ s.text.drop (b + 1).toNat := by
  have heq : makeHoleDelete a b s = { s with
      mem := copyUp s.mem a (b + 1) (s.endp - b).toNat, endp := s.endp - (b - a + 1) } := by
    simp only [makeHoleDelete, if_neg (not_lt.mpr hab)]
  have hlen : (s.endp - (b - a + 1)).toNat = a.toNat + (s.endp.toNat - (b + 1).toNat) := by omega
  rw [heq, Vi.text, Vi.text, take_bytes _ _ (by omega), drop_bytes _ _ (by omega)]
  dsimp only
  rw [hlen, bytes_append]
  congr 1
  · refine bytes_congr fun i hi => ?_
    rw [copyUp_apply _ _ _ (by omega), if_neg (by omega)]
  · refine bytes_congr fun i hi => ?_
    rw [copyUp_apply _ _ _ (by omega), if_pos (by omega)]
    congr 1
    omega

/-- The cursor's line has a newline. -/
def EndsLine (s : Vi W) : Prop := s.mem (endLine s.mem s.endp s.dot) = NL

instance (s : Vi W) : Decidable (EndsLine s) := inferInstanceAs (Decidable (_ = _))

/-- Where the characters of the cursor's line end: at its newline, or at the end of the text. -/
def lineStop (s : Vi W) : ℤ :=
  if EndsLine s then endLine s.mem s.endp s.dot else s.endp

/-- Without a newline the cursor's line ends at the last character. -/
theorem endLine_of_not_endsLine (hdot : s.dot < s.endp) (h : ¬EndsLine s) :
    endLine s.mem s.endp s.dot = s.endp - 1 := by
  have hle := endLine_le s.mem (e := s.endp) (p := s.dot) (by omega)
  by_contra hne
  exact h (endLine_stop (by omega))

/-! ## The commands -/

/-- `J` removes the newline of the cursor's line and nothing else. -/
def JoinsLine (sys : Sys W) (s : Vi W) : Prop :=
  ∀ fuel ks, ∃ s', doCmd sys fuel (chr 'J') ks s = .ok (ks, s') ∧
    s'.text = if EndsLine s then s.text.eraseIdx (endLine s.mem s.endp s.dot).toNat else s.text

/-- `D` removes the characters of the cursor's line from the cursor on and nothing else. -/
def DeletesTail (sys : Sys W) (s : Vi W) : Prop :=
  ∀ fuel ks, ∃ s', doCmd sys fuel (chr 'D') ks s = .ok (ks, s') ∧
    s'.text = s.text.take s.dot.toNat ++ s.text.drop (lineStop s).toNat

/-- `J` removes what `end_line` points at. -/
theorem text_joinLine (h0 : 0 ≤ s.dot) (hdot : s.dot < s.endp) :
    (joinLine s).text = s.text.eraseIdx (endLine s.mem s.endp s.dot).toNat := by
  have hle := endLine_le s.mem (e := s.endp) (p := s.dot) (by omega)
  have hge := le_endLine s.mem s.endp s.dot
  have hdel := text_makeHoleDelete (s := { s with hasChanged := true }) (h0.trans hge) le_rfl
    (show endLine s.mem s.endp s.dot < s.endp by omega)
  rw [List.eraseIdx_eq_take_drop_succ,
    show (endLine s.mem s.endp s.dot).toNat + 1 = (endLine s.mem s.endp s.dot + 1).toNat by omega]
  exact hdel

/-- `D` removes what lies between the cursor and what `end_line` points at. -/
theorem text_deleteTail (h0 : 0 ≤ s.dot) (hdot : s.dot < s.endp) :
    (deleteTail s).text =
      s.text.take s.dot.toNat ++ s.text.drop (endLine s.mem s.endp s.dot).toNat := by
  have hle := endLine_le s.mem (e := s.endp) (p := s.dot) (by omega)
  have hge := le_endLine s.mem s.endp s.dot
  unfold deleteTail
  dsimp only
  split_ifs with h
  · have hdel := text_makeHoleDelete (s := { s with hasChanged := true }) h0 h
      (by dsimp only; omega)
    rwa [sub_add_cancel] at hdel
  · rw [show endLine s.mem s.endp s.dot = s.dot by omega, List.take_append_drop]

/-- The result of `J`. -/
theorem joinsLine_iff_text : JoinsLine sys s ↔ (joinLine s).text =
    if EndsLine s then s.text.eraseIdx (endLine s.mem s.endp s.dot).toNat else s.text := by
  refine ⟨fun h => ?_, fun h fuel ks => ⟨joinLine s, rfl, h⟩⟩
  obtain ⟨s', hs', htext⟩ := h 0 []
  obtain rfl : joinLine s = s' := congrArg Prod.snd (Except.ok.inj hs')
  exact htext

/-- The result of `D`. -/
theorem deletesTail_iff_text : DeletesTail sys s ↔
    (deleteTail s).text = s.text.take s.dot.toNat ++ s.text.drop (lineStop s).toNat := by
  refine ⟨fun h => ?_, fun h fuel ks => ⟨deleteTail s, rfl, h⟩⟩
  obtain ⟨s', hs', htext⟩ := h 0 []
  obtain rfl : deleteTail s = s' := congrArg Prod.snd (Except.ok.inj hs')
  exact htext

/-- `J` is right exactly if the line has a newline: otherwise the text gets shorter. -/
theorem joinsLine_iff (h0 : 0 ≤ s.dot) (hdot : s.dot < s.endp) : JoinsLine sys s ↔ EndsLine s := by
  rw [joinsLine_iff_text, text_joinLine h0 hdot]
  by_cases h : EndsLine s
  · simp only [h, if_true]
  · rw [if_neg h, endLine_of_not_endsLine hdot h]
    refine iff_of_false (fun heq => ?_) h
    have hlen := congrArg List.length heq
    rw [List.length_eraseIdx_of_lt (by rw [length_text]; omega), length_text] at hlen
    omega

/-- `D` is right exactly if the line has a newline: otherwise a character of it is left. -/
theorem deletesTail_iff (h0 : 0 ≤ s.dot) (hdot : s.dot < s.endp) :
    DeletesTail sys s ↔ EndsLine s := by
  rw [deletesTail_iff_text, text_deleteTail h0 hdot]
  by_cases h : EndsLine s
  · simp only [lineStop, h, if_true]
  · rw [lineStop, if_neg h, endLine_of_not_endsLine hdot h]
    refine iff_of_false (fun heq => ?_) h
    have hlen := congrArg List.length heq
    simp only [List.length_append, List.length_take, List.length_drop, length_text] at hlen
    omega

/-- **Line edits.** `J` and `D` do what they are meant to exactly if the cursor's line has a
newline.

**Proof sketch.** Both commands go to the end of the line as `end_line` computes it, which is the
newline if the line has one, and then both take out what they should. Otherwise it is the last
character, which `J` takes out without need and `D` leaves; the lengths of the texts show the
difference. -/
theorem joinsAndDeletes_iff (sys : Sys W) (s : Vi W) (h0 : 0 ≤ s.dot) (hdot : s.dot < s.endp) :
    JoinsLine sys s ∧ DeletesTail sys s ↔ EndsLine s := by
  rw [joinsLine_iff h0 hdot, deletesTail_iff h0 hdot, and_self]

/-- `joinsAndDeletes_iff` for a file of one line. -/
theorem joinsAndDeletes_iff_line :
    JoinsLine (readOnly (str "ab\n")) (smallFile (str "ab\n")) ∧
        DeletesTail (readOnly (str "ab\n")) (smallFile (str "ab\n")) ↔
      EndsLine (smallFile (str "ab\n")) :=
  joinsAndDeletes_iff _ _ (by decide) (by decide)

/-- On a last line without newline neither `J` nor `D` does what it is meant to. -/
theorem not_joinsAndDeletes : ¬JoinsLine (readOnly (str "ab")) (smallFile (str "ab")) ∧
    ¬DeletesTail (readOnly (str "ab")) (smallFile (str "ab")) := by
  constructor
  · rw [joinsLine_iff (by decide) (by decide)]
    decide +kernel
  · rw [deletesTail_iff (by decide) (by decide)]
    decide +kernel

end HgXv6
