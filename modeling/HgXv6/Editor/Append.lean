import HgXv6.Editor.LineEdits
import HgXv6.Editor.LineStart
import HgXv6.Editor.Sync

set_option relaxedAutoImplicit false
set_option autoImplicit false

/-!
# Appending

`a` steps to the right and inserts there; it cannot step behind the last character of the text, and
inserts before it. `A` goes to the end of the line and one step back, to insert before the newline:
but insert mode puts a character before the one under the cursor, so that the step back is one too
many, and it is not undone on a last line without newline either.

A string that is inserted too early may still give the right text, if it is made of the characters
it should have come behind.

## Main definitions

* `HgXv6.Yields` — a command takes all keys and leaves a text with a given property.
* `HgXv6.Appends` — what `A` and `a` are meant to do.
* `HgXv6.AppendTailFits`, `HgXv6.AppendHereFits` — the conditions for them.

## Main results

* `HgXv6.yields_insert_iff` — the text after a string was typed.
* `HgXv6.insert_eq_insert_iff` — a string inserted at two places of a list.
* `HgXv6.appends_iff` — the conditions are exact.
-/

namespace HgXv6

open Prog

variable {W : Type} {sys : Sys W} {s t : Vi W} {new : List UInt8} {P : List UInt8 → Prop}

/-! ## The text after a command -/

/-- The command takes all keys and leaves a text with the property `P`. -/
def Yields (run : ℕ → Except Stop (List Read × Vi W)) (P : List UInt8 → Prop) : Prop :=
  ∃ t, Returns run ([], t) ∧ P t.text

/-- What a command yields after a first part that returns. -/
theorem yields_bind_iff {f : ℕ → Except Stop (Vi W)} {g : ℕ → Vi W → Except Stop (List Read × Vi W)}
    (hf : Returns f t) : Yields (fun n => f n >>= g n) P ↔ Yields (fun n => g n t) P :=
  exists_congr fun _ => and_congr_left fun _ => hf.bind_iff

/-- A command that yields something has gone through its first part. -/
theorem Yields.exists_first {f : ℕ → Except Stop (Vi W)}
    {g : ℕ → Vi W → Except Stop (List Read × Vi W)} (h : Yields (fun n => f n >>= g n) P) :
    ∃ n t, f n = .ok t := by
  obtain ⟨_, hret, -⟩ := h
  obtain ⟨n, hn⟩ := hret.exists
  obtain ⟨t, ht, -⟩ := bind_eq_ok.mp hn
  exact ⟨n, t, ht⟩

/-- The text with `new` at the place `p`. -/
def insertAt (new l : List UInt8) (p : ℤ) : List UInt8 := l.take p.toNat ++ new ++ l.drop p.toNat

/-- Insert mode puts a string before the cursor, if every text on the way can be drawn.

**Proof sketch.** If every text on the way can be drawn, insert mode returns with the string put
before the cursor (`insertLoop_returns`), and the message at its end changes the screen only. If
insert mode has returned at all, then every text on the way was drawn (`insertLoop_fits`), and since
results are unique it is that one. -/
theorem yields_insert_iff (h : Typing s) (hpos : s.cga.pos < 25 * 80)
    (hstr : ∀ c ∈ new, isPrintChar c = true) (hroom : s.endp + new.length ≤ s.textend) :
    Yields (fun fuel => insert fuel (typedKeys new) s) P ↔
      TypingFits new s.mem s.endp s.dot s.screenbegin ∧ P (insertAt new s.text s.dot) := by
  have ht : Typing { s with hasChanged := true } := { h with }
  have hret : TypingFits new s.mem s.endp s.dot s.screenbegin →
      ∃ t, Returns (fun fuel => insert fuel (typedKeys new) s) ([], t) ∧
        t.text = insertAt new s.text s.dot := fun hfits => by
    obtain ⟨t, hloop, hpos', -, htext⟩ := insertLoop_returns new none ht hpos hstr hroom hfits
    obtain ⟨d, hd, -, -⟩ := printOnStatusLine_ok [] hpos' (by decide)
    obtain ⟨h1, h2⟩ := text_take_drop h
    refine ⟨{ t with cga := d }, hloop.bind (Returns.of_eq ?_), ?_⟩
    · dsimp only
      rw [hd, ok_bind]
    · rw [insertAt, h1, h2]
      exact htext
  constructor
  · rintro ⟨t, ht', hP⟩
    obtain ⟨fuel, hfuel⟩ := ht'.exists
    obtain ⟨r, hr, -⟩ := bind_eq_ok.mp hfuel
    have hfits := insertLoop_fits new none ht hpos hstr hroom fuel r hr
    obtain ⟨u, hu, htext⟩ := hret hfits
    obtain rfl : t = u := congrArg Prod.snd (ht'.unique hu)
    exact ⟨hfits, htext ▸ hP⟩
  · rintro ⟨hfits, hP⟩
    obtain ⟨u, hu, htext⟩ := hret hfits
    exact ⟨u, hu, htext ▸ hP⟩

/-- A string inserted at two places gives the same list exactly if it commutes with what lies
between them.

**Proof sketch.** Split the list at the two places into what is before, the word between, and what
is behind. Both insertions then have the same beginning and the same end, and cancelling these
leaves the equation between the string and the word. -/
theorem insert_eq_insert_iff (new l : List UInt8) {p q : ℤ} (h0 : 0 ≤ p) (hpq : p ≤ q) :
    insertAt new l p = insertAt new l q ↔
      new ++ (l.drop p.toNat).take (q - p).toNat = (l.drop p.toNat).take (q - p).toNat ++ new := by
  obtain ⟨n, hn⟩ : ∃ n : ℕ, q.toNat = p.toNat + n := ⟨q.toNat - p.toNat, by omega⟩
  have hw : (q - p).toNat = n := by omega
  rw [insertAt, insertAt, hn, hw, List.take_add, ← List.drop_drop]
  generalize l.take p.toNat = a
  generalize l.drop p.toNat = r
  have hsplit : r.take n ++ r.drop n = r := List.take_append_drop n r
  generalize r.take n = w at hsplit ⊢
  generalize r.drop n = d at hsplit ⊢
  -- both sides start with what is before `p` and end with what is behind `q`
  calc a ++ new ++ r = a ++ w ++ new ++ d
      ↔ a ++ (new ++ w ++ d) = a ++ (w ++ new ++ d) := by simp only [← hsplit, List.append_assoc]
    _ ↔ new ++ w ++ d = w ++ new ++ d := List.append_right_inj a
    _ ↔ new ++ w = w ++ new := List.append_left_inj d

/-! ## The commands -/

/-- `A` puts a string at the end of the cursor's line, and `a` behind the character under the
cursor, or before it if it is the newline. -/
def Appends (sys : Sys W) (s : Vi W) (new : List UInt8) : Prop :=
  Yields (fun fuel => doCmd sys fuel (chr 'A') (typedKeys new) s)
      (fun l => l = insertAt new s.text (lineStop s)) ∧
    Yields (fun fuel => doCmd sys fuel (chr 'a') (typedKeys new) s)
      (fun l => l = insertAt new s.text (if s.mem s.dot = NL then s.dot else s.dot + 1))

/-- Where `A` inserts: one character before what `end_line` points at. -/
def appendPlace (s : Vi W) : ℤ := max (endLine s.mem s.endp s.dot - 1) 0

/-- The state in which `A` synchronises. -/
def appendState (s : Vi W) : Vi W := pulled { s with dot := appendPlace s }

/-- The string commutes with what lies between the place where `A` inserts and the end of the line,
and everything can be drawn. -/
def AppendTailFits (s : Vi W) (new : List UInt8) : Prop :=
  SyncFits (appendState s) ∧
    TypingFits new s.mem s.endp (appendPlace s)
      (windowTop s.mem s.endp (appendPlace s) (appendState s).screenbegin) ∧
    new ++ bytes s.mem (appendPlace s) (lineStop s - appendPlace s).toNat =
      bytes s.mem (appendPlace s) (lineStop s - appendPlace s).toNat ++ new

/-- If the cursor is on the last character, and this is not a newline, the string is made of this
character; and everything can be drawn. -/
def AppendHereFits (s : Vi W) (new : List UInt8) : Prop :=
  TypingFits new s.mem s.endp
      (if s.dot < s.endp - 1 ∧ s.mem s.dot ≠ NL then s.dot + 1 else s.dot) s.screenbegin ∧
    (s.dot = s.endp - 1 → s.mem s.dot ≠ NL → new ++ [s.mem s.dot] = [s.mem s.dot] ++ new)

instance (s : Vi W) (new : List UInt8) : Decidable (AppendTailFits s new) :=
  inferInstanceAs (Decidable (_ ∧ _ ∧ _))

instance (s : Vi W) (new : List UInt8) : Decidable (AppendHereFits s new) :=
  inferInstanceAs (Decidable (_ ∧ _))

/-- The step of `a` to the right. -/
theorem dotRight_eq (s : Vi W) : dotRight s = { s with
    dot := if s.dot < s.endp - 1 ∧ s.mem s.dot ≠ NL then s.dot + 1 else s.dot } := by
  unfold dotRight dotIncrease
  split_ifs with h1 h2
  · rfl
  · exact absurd h1.1 h2
  · rfl

/-- `a` is right exactly under its condition. -/
theorem appendHere_iff (h : Typing s) (hpos : s.cga.pos < 25 * 80)
    (hstr : ∀ c ∈ new, isPrintChar c = true) (hroom : s.endp + new.length ≤ s.textend) :
    Yields (fun fuel => doCmd sys fuel (chr 'a') (typedKeys new) s)
        (fun l => l = insertAt new s.text (if s.mem s.dot = NL then s.dot else s.dot + 1)) ↔
      AppendHereFits s new := by
  have hdot := h.dot_lt
  have h0 := h.screenbegin_nonneg.trans h.screenbegin_le
  have hle := h.screenbegin_le
  change Yields (fun fuel => insert fuel (typedKeys new) (dotRight s)) _ ↔ _
  rw [dotRight_eq]
  have htyping : Typing { s with
      dot := if s.dot < s.endp - 1 ∧ s.mem s.dot ≠ NL then s.dot + 1 else s.dot } :=
    { h with
      screenbegin_le := by dsimp only; split_ifs <;> omega
      dot_lt := by dsimp only; split_ifs <;> omega }
  rw [yields_insert_iff htyping hpos hstr hroom]
  refine and_congr_right fun _ => ?_
  change insertAt new s.text _ = _ ↔ _
  dsimp only
  by_cases hnl : s.mem s.dot = NL
  · simp [hnl]
  · by_cases hlast : s.dot = s.endp - 1
    · have hw : (s.text.drop s.dot.toNat).take 1 = [s.mem s.dot] := by
        rw [(text_take_drop h).2, take_bytes _ _ (by omega)]
        simp [bytes]
      rw [if_neg (by omega), if_neg hnl, insert_eq_insert_iff new s.text h0 (by omega),
        add_sub_cancel_left, show (1 : ℤ).toNat = 1 from rfl, hw]
      exact ⟨fun heq _ _ => heq, fun heq => heq hlast hnl⟩
    · rw [if_pos ⟨by omega, hnl⟩, if_neg hnl]
      exact iff_of_true rfl fun hd => absurd hd hlast

/-- The cursor of `A` before it synchronises. -/
theorem dotDecrease_dotTail (s : Vi W) (h0 : 0 ≤ s.dot) :
    dotDecrease (dotTail s) = { s with dot := appendPlace s } := by
  have hge := le_endLine s.mem s.endp s.dot
  rw [dotTail_eq, dotDecrease, appendPlace]
  split_ifs with hpos
  · dsimp only at hpos
    rw [max_eq_left (by omega)]
  · dsimp only at hpos
    rw [max_eq_right (by omega), show endLine s.mem s.endp s.dot = 0 by omega]

/-- The place is in the text and not behind the end of the line. -/
theorem appendPlace_bounds (h0 : 0 ≤ s.dot) (hdot : s.dot < s.endp) :
    0 ≤ appendPlace s ∧ appendPlace s < s.endp ∧ appendPlace s ≤ lineStop s ∧
      lineStop s ≤ s.endp := by
  have hend := endLine_le s.mem (e := s.endp) (p := s.dot) (by omega)
  have hge := le_endLine s.mem s.endp s.dot
  unfold appendPlace lineStop
  split_ifs <;> omega

/-- `A` is right exactly under its condition. -/
theorem appendTail_iff (h : Typing s) (hstr : ∀ c ∈ new, isPrintChar c = true)
    (hroom : s.endp + new.length ≤ s.textend) :
    Yields (fun fuel => doCmd sys fuel (chr 'A') (typedKeys new) s)
        (fun l => l = insertAt new s.text (lineStop s)) ↔ AppendTailFits s new := by
  have h0 := h.screenbegin_nonneg.trans h.screenbegin_le
  obtain ⟨hp0, hpe, hple, hstop⟩ := appendPlace_bounds h0 h.dot_lt
  change Yields (fun fuel => synchronize fuel (dotDecrease (dotTail s)) >>=
    insert fuel (typedKeys new)) _ ↔ _
  rw [dotDecrease_dotTail s h0]
  simp only [← synchronize_pulled _ { s with dot := appendPlace s }]
  change Yields (fun fuel => synchronize fuel (appendState s) >>=
    insert fuel (typedKeys new)) _ ↔ _
  have htyping : Typing (appendState s) :=
    typing_pulled (s := { s with dot := appendPlace s }) h.screenbegin_nonneg hp0 hpe h.nul
  by_cases hsync : SyncFits (appendState s)
  · obtain ⟨c, hc, hret⟩ := synchronize_returns_of_fits htyping hsync
    rw [yields_bind_iff hret, yields_insert_iff (htyping.synced hsync.1 c) hc hstr hroom,
      AppendTailFits]
    have hw : (s.text.drop (appendPlace s).toNat).take (lineStop s - appendPlace s).toNat =
        bytes s.mem (appendPlace s) (lineStop s - appendPlace s).toNat := by
      rw [Vi.text, drop_bytes _ _ (by omega), take_bytes _ _ (by omega)]
      congr 1
      omega
    constructor
    · rintro ⟨hfits, heq⟩
      refine ⟨hsync, hfits, ?_⟩
      rw [← hw]
      exact (insert_eq_insert_iff new s.text hp0 hple).mp heq
    · rintro ⟨-, hfits, heq⟩
      refine ⟨hfits, ?_⟩
      rw [← hw] at heq
      exact (insert_eq_insert_iff new s.text hp0 hple).mpr heq
  · refine iff_of_false (fun hyields => ?_) fun hfits => hsync hfits.1
    obtain ⟨n, t, ht⟩ := hyields.exists_first
    exact hsync (synchronize_fits htyping n t ht).1

/-- **Appending.** With window and cursor in a text that is not empty and a NUL behind it, `A` and
`a` do what they are meant to exactly under their conditions.

**Proof sketch.** Each of the two commands goes to its place, draws, and inserts what is typed. What
is typed goes in at the cursor, one character behind the other, exactly if all of it can be drawn on
the way (`synchronize_fits`); the text is then the old one with the string at the cursor, and this
is where the command was meant to put it exactly if the cursor is at that place. -/
theorem appends_iff (sys : Sys W) (s : Vi W) (new : List UInt8) (h : Typing s)
    (hpos : s.cga.pos < 25 * 80) (hstr : ∀ c ∈ new, isPrintChar c = true)
    (hroom : s.endp + new.length ≤ s.textend) :
    Appends sys s new ↔ AppendTailFits s new ∧ AppendHereFits s new :=
  and_congr (appendTail_iff h hstr hroom) (appendHere_iff h hpos hstr hroom)

/-- `appends_iff` for an empty line. -/
theorem appends_iff_empty :
    Appends (readOnly (str "\n")) (smallFile (str "\n")) (str "x") :=
  (appends_iff _ (smallFile (str "\n")) (str "x") ⟨by decide, by decide, by decide, by decide⟩
    (by decide) (by decide +kernel) (by decide)).mpr ⟨by decide +kernel, by decide +kernel⟩

/-- `A` inserts before the last character of a line, and `a` before the last character of a text
without a final newline. -/
theorem not_appends :
    ¬Appends (readOnly (str "ab\n")) (smallFile (str "ab\n")) (str "x") ∧
      ¬Appends (readOnly (str "a")) (smallFile (str "a")) (str "x") := by
  constructor
  · rintro ⟨htail, -⟩
    rw [appendTail_iff ⟨by decide, by decide, by decide, by decide⟩ (by decide +kernel)
      (by decide)] at htail
    revert htail
    decide +kernel
  · rintro ⟨-, hhere⟩
    rw [appendHere_iff ⟨by decide, by decide, by decide, by decide⟩ (by decide)
      (by decide +kernel) (by decide)] at hhere
    revert hhere
    decide +kernel

end HgXv6
