import HgXv6.Editor.Holes
import HgXv6.Editor.LineOrder
import HgXv6.Editor.OpenLine
import HgXv6.Editor.Run

set_option relaxedAutoImplicit false
set_option autoImplicit false

/-!
# Indenting a line

`>` puts a tab at the start of the cursor's line, and `<` takes a tab from there. The cursor stays
where it is, so after `>` it is on the character before the one it was on, or on the tab. It is
still on the same line, whose start `<` therefore finds again.

## Main definitions

* `HgXv6.Indents` — one tab at the start of the cursor's line.
* `HgXv6.Unindents` — the two commands, one after the other.

## Main results

* `HgXv6.beginLine_inserted` — the start of the line is where it was.
* `HgXv6.indent_unindent` — `<` undoes `>`.
-/

namespace HgXv6

open Prog

variable {W : Type} {sys : Sys W} {s t : Vi W} {m : ℤ → UInt8} {p q : ℤ}

/-! ## The start of the line -/

/-- A start of a line with no newline from there to `p` is the start of the line of `p`. -/
theorem beginLine_unique (h : LineStart m q) (h0 : 0 ≤ q) (hqp : q ≤ p)
    (hne : ∀ r, q ≤ r → r < p → m r ≠ NL) : beginLine m p = q := by
  have hle := beginLine_le m p
  have hge := le_beginLine h (h0.trans hqp) hqp
  have hstart := beginLine_lineStart (m := m) (h0.trans hqp)
  by_contra hlt
  exact hne (beginLine m p - 1) (by omega) (by omega) (hstart.newline (by omega))

/-- The memory after a character was inserted. -/
theorem inserted_apply {e : ℤ} (c : UInt8) (hp : p ≤ e) (i : ℤ) :
    inserted m e p c i =
      if i = p then c else if p < i ∧ i ≤ e + 1 then m (i - 1) else m i := by
  rw [inserted, copyDown_fill_update, show p + ((e - p + 1).toNat : ℤ) = e + 1 by omega]

/-- If a character other than a newline is inserted at the start of the line of `p`, the line of `p`
starts where it did. -/
theorem beginLine_inserted {e : ℤ} {c : UInt8} (hc : c ≠ NL) (h0 : 0 ≤ p) (hp : p < e) :
    beginLine (inserted m e (beginLine m p) c) p = beginLine m p := by
  have hle := beginLine_le m p
  have hpos := beginLine_nonneg m h0
  refine beginLine_unique ?_ hpos hle fun r h1 h2 => ?_
  · refine (beginLine_lineStart h0).congr fun r hr => ?_
    rw [inserted_apply c (by omega), if_neg (by omega), if_neg (by omega)]
  · rw [inserted_apply c (by omega)]
    split_ifs with heq hin
    · exact hc
    · exact ne_of_beginLine_le (p := p) (by omega) (by omega)
    · omega

/-! ## The commands -/

/-- The text, its end and the cursor are the same. -/
structure SameText (s t : Vi W) : Prop where
  text : t.text = s.text
  endp : t.endp = s.endp
  dot : t.dot = s.dot

/-- `>` puts one tab at the start of the cursor's line, and changes nothing else in the text. -/
def Indents (sys : Sys W) (s : Vi W) : Prop :=
  ∀ fuel ks, ∃ t, doCmd sys fuel (chr '>') ks s = .ok (ks, t) ∧
    t.text = insertAt [TAB] s.text (beginLine s.mem s.dot) ∧ t.endp = s.endp + 1 ∧ t.dot = s.dot

/-- `>` followed by `<` restores the text, its end and the cursor: as commands, and as the keys of
two passes of the main loop. -/
structure Unindents (sys : Sys W) (s : Vi W) : Prop where
  commands : ∀ fuel ks, ∃ t u, doCmd sys fuel (chr '>') ks s = .ok (ks, t) ∧
    doCmd sys fuel (chr '<') ks t = .ok (ks, u) ∧ SameText s u
  passes : ∀ x y z ks, x.vi = s → x.keys = .byte (chr '>') :: .byte (chr '<') :: ks →
    Step sys x y → Step sys y z → z.keys = ks ∧ SameText s z.vi

/-- The result of `>`. -/
theorem indent_eq (hroom : s.endp + 1 ≤ s.textend) : indent s = { s with
    mem := inserted s.mem s.endp (beginLine s.mem s.dot) TAB, endp := s.endp + 1
    hasChanged := true } :=
  store_makeHoleAdd (s := { s with hasChanged := true }) TAB hroom

/-- `<` in a state with the text, its end and the cursor that `>` has left. -/
theorem unindent_sameText (h0 : 0 ≤ s.dot) (hdot : s.dot < s.endp)
    (hmem : t.mem = inserted s.mem s.endp (beginLine s.mem s.dot) TAB)
    (hend : t.endp = s.endp + 1) (hcur : t.dot = s.dot) : SameText s (unindent t) := by
  have hle := beginLine_le s.mem s.dot
  have hpos := beginLine_nonneg s.mem h0
  have hbegin : beginLine t.mem t.dot = beginLine s.mem s.dot := by
    rw [hmem, hcur]
    exact beginLine_inserted (by decide) h0 hdot
  have htab : t.mem (beginLine s.mem s.dot) = TAB := by
    rw [hmem, inserted_apply _ (by omega), if_pos rfl]
  have hun : unindent t = makeHoleDelete (beginLine s.mem s.dot) (beginLine s.mem s.dot)
      { t with hasChanged := true } := by
    unfold unindent
    dsimp only
    rw [hbegin, if_pos htab]
  have hend' : (unindent t).endp = s.endp := by
    rw [hun, makeHoleDelete_endp le_rfl]
    dsimp only
    omega
  refine ⟨?_, hend', ?_⟩
  · rw [Vi.text, Vi.text, hend']
    refine bytes_congr fun i hi => ?_
    rw [hun, makeHoleDelete_apply le_rfl (by dsimp only; omega)]
    dsimp only
    rw [hmem, inserted_apply _ (by omega), inserted_apply _ (by omega)]
    split_ifs <;> first | omega | exact congrArg s.mem (by omega)
  · rw [hun]
    exact hcur

theorem indents (sys : Sys W) (h0 : 0 ≤ s.dot) (hdot : s.dot < s.endp)
    (hroom : s.endp + 1 ≤ s.textend) : Indents sys s := by
  refine fun fuel ks => ⟨indent s, rfl, ?_⟩
  have hle := beginLine_le s.mem s.dot
  rw [indent_eq hroom]
  exact ⟨bytes_inserted TAB (beginLine_nonneg s.mem h0) (by omega), rfl, rfl⟩

theorem unindents (sys : Sys W) (h0 : 0 ≤ s.dot) (hdot : s.dot < s.endp)
    (hroom : s.endp + 1 ≤ s.textend) : Unindents sys s where
  commands fuel ks := by
    refine ⟨indent s, unindent (indent s), rfl, rfl, ?_⟩
    rw [indent_eq hroom]
    exact unindent_sameText h0 hdot rfl rfl rfl
  passes x y z ks hx hkeys hxy hyz := by
    subst hx
    obtain ⟨fuel, r, ks', u, v, hp⟩ := step_cases hxy
    obtain ⟨fuel', r', ks'', u', v', hp'⟩ := step_cases hyz
    obtain ⟨rfl, rfl⟩ := List.cons.inj (hp.keys.symm.trans hkeys)
    obtain ⟨c, rfl, -⟩ := hp.start
    obtain ⟨c', rfl, -⟩ := hp'.start
    -- the first pass: the keys that are left, and the text after `>`
    obtain ⟨hy, rfl⟩ := Prod.mk.inj (Except.ok.inj hp.exec)
    obtain ⟨b, d, w, hview⟩ := synchronize_viewed hp.sync
    obtain ⟨rfl, rfl⟩ := List.cons.inj (hp'.keys.symm.trans hy.symm)
    -- the second pass
    obtain ⟨hz, rfl⟩ := Prod.mk.inj (Except.ok.inj hp'.exec)
    obtain ⟨b', d', w', hview'⟩ := synchronize_viewed hp'.sync
    rw [indent_eq (s := { x.vi.act (.exec ((Read.byte (chr '>')).into x.c)) with cga := c })
      hroom] at hview
    have hsame := unindent_sameText (t := { y.vi.act (.exec (chr '<')) with cga := c' }) h0 hdot
      (by rw [hview]; rfl) (by rw [hview]; rfl) (by rw [hview]; rfl)
    refine ⟨hz.symm, ?_⟩
    rw [hview']
    exact ⟨hsame.text, hsame.endp, hsame.dot⟩

/-- **Indenting.** `>` inserts one tab at the start of the cursor's line, and `<` after it restores
the text, its end and the cursor.

**Proof sketch.** The key `>` goes to the start of the line and makes a hole of one character for
the tab (`indent_eq`). The key `<` after it finds the tab there and takes it out again, with the
cursor moved back by as much as it had been moved (`unindent_sameText`). -/
theorem indent_unindent (sys : Sys W) (s : Vi W) (h0 : 0 ≤ s.dot) (hdot : s.dot ≤ s.endp - 1)
    (hroom : s.endp + 1 ≤ s.textend) : Indents sys s ∧ Unindents sys s :=
  ⟨indents sys h0 (by omega) hroom, unindents sys h0 (by omega) hroom⟩

/-- `indent_unindent` on the second of two lines. -/
theorem indent_unindent_second :
    Indents (readOnly (str "a\nbc")) { smallFile (str "a\nbc") with dot := 3 } ∧
      Unindents (readOnly (str "a\nbc")) { smallFile (str "a\nbc") with dot := 3 } :=
  indent_unindent _ _ (by decide) (by decide) (by decide)

end HgXv6
