import HgXv6.Console.Rows
import HgXv6.Lib.Memory

set_option relaxedAutoImplicit false
set_option autoImplicit false

/-!
# Copying a text to the screen without scrolling

`copyFromTextToScreen` promises to draw a text down to the end of the screen and not to scroll.
Its loop looks for the end only after it has drawn a character: it stops in the last cell, and on
the last row before a newline. A first character that leaves the screen by itself is therefore
drawn, and so is a tab in the three cells before the last one, which takes four. In every other
case the promise is kept.

## Main definitions

* `HgXv6.laidOut` — a text laid out on a screen without an end.
* `HgXv6.StopsAtEnd` — what the call promises.
* `HgXv6.EndsInTime` — no character of the text jumps over the end of the screen.

## Main results

* `HgXv6.cgaputc_within` — a character that stays on the screen.
* `HgXv6.copyLoop_stops`, `HgXv6.endsInTime_of_copyLoop` — the loop.
* `HgXv6.stopsAtEnd_iff` — the call.
-/

namespace HgXv6

open Prog

/-- A text laid out from the cell `pos` on, on a screen without an end: the character it puts in
the cell `i`, if it puts one there. The cell behind the text is blank, and so is the first one of
a new row. -/
def laidOut : List UInt8 → ℕ → ℕ → Option UInt8
  | [], _, _ => none
  | b :: bs, pos, i =>
    let next := drawPos (.byte b) pos
    (laidOut bs next i).or <|
      if i = next then some SPACE
      else if b ≠ NL ∧ pos ≤ i ∧ i < next then some (if b = TAB then SPACE else b)
      else none

/-- The cell behind the first `k` characters of the text at `p`, laid out from `pos` on. -/
def layoutEnd (m : ℤ → UInt8) (p : ℤ) (pos k : ℕ) : ℕ :=
  (bytes m p k).foldl (fun q b => drawPos (.byte b) q) pos

/-- What `copyFromTextToScreen` promises: it returns with the cursor on the screen and without a
scroll, the cells before `pos` are as they were, and the characters drawn are the layout of a
prefix of the text. -/
def StopsAtEnd (m : ℤ → UInt8) (text pos len : ℤ) (s : Cga) : Prop :=
  ∃ s' n, copyFromTextToScreen m text pos len s = .ok s' ∧ s'.pos < 25 * 80 ∧
    s'.scrolls = s.scrolls ∧ (∀ i < pos.toNat, s'.crt i = s.crt i) ∧
    n ≤ len.toNat ∧ NUL ∉ bytes m text n ∧ s'.pos = layoutEnd m text pos.toNat n ∧
    ∀ i, (s'.crt i).ch = (laidOut (bytes m text n) pos.toNat i).getD (s.crt i).ch

/-- The first of the at most `n` characters of the text does not leave the screen when it is
drawn at `pos`, and no tab among them is laid out on one of the three cells before the last. -/
def EndsInTime (m : ℤ → UInt8) (p : ℤ) (n pos : ℕ) : Prop :=
  (n ≠ 0 → m p ≠ NUL → drawPos (.byte (m p)) pos < 25 * 80) ∧
    ∀ k < n, NUL ∉ bytes m p (k + 1) → m (p + k) = TAB →
      ¬(25 * 80 - 4 ≤ layoutEnd m p pos k ∧ layoutEnd m p pos k < 25 * 80 - 1)

instance (m : ℤ → UInt8) (p : ℤ) (n pos : ℕ) : Decidable (EndsInTime m p n pos) :=
  inferInstanceAs (Decidable (_ ∧ _))

/-! ## One character -/

/-- A tab takes four cells. -/
theorem drawPos_tab (pos : ℕ) : drawPos (.byte TAB) pos = pos + 4 := rfl

/-- A newline takes the rest of its row. -/
theorem drawPos_newline (pos : ℕ) : drawPos (.byte NL) pos = pos + (80 - pos % 80) := rfl

/-- Any other character takes one cell. -/
theorem drawPos_char {b : UInt8} (hnl : b ≠ NL) (htab : b ≠ TAB) (pos : ℕ) :
    drawPos (.byte b) pos = pos + 1 := by
  rw [drawPos, if_neg hnl, if_neg htab]

/-- A character moves the cursor on. -/
theorem lt_drawPos (b : UInt8) (pos : ℕ) : pos < drawPos (.byte b) pos := by
  simp only [drawPos]
  split_ifs <;> omega

/-- The cells of a character that is drawn. -/
theorem cgaDraw_ch (b : UInt8) (s : Cga) (i : ℕ) :
    ((cgaDraw (.byte b) s).crt i).ch =
      if b ≠ NL ∧ s.pos ≤ i ∧ i < drawPos (.byte b) s.pos then (if b = TAB then SPACE else b)
      else (s.crt i).ch := by
  by_cases hnl : b = NL
  · simp [cgaDraw, hnl]
  by_cases htab : b = TAB
  · subst htab
    simp only [cgaDraw, if_neg hnl, if_true, Cga.put, Function.update_apply, drawPos_tab]
    split_ifs <;> first | rfl | grind
  · simp only [cgaDraw, if_neg hnl, if_neg htab, Cga.put, Function.update_apply,
      drawPos_char hnl htab]
    split_ifs <;> first | rfl | grind

/-- Drawing a character changes no cell before the cursor. -/
theorem cgaDraw_before {b : UInt8} {s : Cga} {i : ℕ} (h : i < s.pos) :
    (cgaDraw (.byte b) s).crt i = s.crt i := by
  simp only [cgaDraw, Cga.put]
  split_ifs
  · rfl
  · dsimp only
    rw [Function.update_of_ne (by omega), Function.update_of_ne (by omega),
      Function.update_of_ne (by omega), Function.update_of_ne (by omega)]
  · dsimp only
    rw [Function.update_of_ne (by omega)]

/-- The screen `s'` is `s` with `bs` laid out from the cursor on. -/
structure LaidOut (s s' : Cga) (bs : List UInt8) : Prop where
  pos : s'.pos = bs.foldl (fun q b => drawPos (.byte b) q) s.pos
  lt : s'.pos < 25 * 80
  scrolls : s'.scrolls = s.scrolls
  before : ∀ i < s.pos, s'.crt i = s.crt i
  ch : ∀ i, (s'.crt i).ch = (laidOut bs s.pos i).getD (s.crt i).ch

/-- The empty text. -/
theorem LaidOut.nil {s : Cga} (h : s.pos < 25 * 80) : LaidOut s s [] where
  pos := rfl
  lt := h
  scrolls := rfl
  before _ _ := rfl
  ch _ := rfl

/-- A character that stays on the screen.

**Proof sketch.** The cursor stays on the screen, so `cgaputc` neither panics nor scrolls. Drawing
changes only cells from the old cursor up to the new one, and the cell under the new cursor is the
blank that is put there last. -/
theorem cgaputc_within {b : UInt8} {s : Cga} (h : drawPos (.byte b) s.pos < 25 * 80) :
    ∃ s', cgaputc (.byte b) s = .ok s' ∧ LaidOut s s' [b] := by
  have hlt := lt_drawPos b s.pos
  refine ⟨_, cgaputc_eq h.le, ?_⟩
  rw [if_neg (by omega)]
  refine ⟨by simp [Cga.blank], by simpa [Cga.blank] using h, by simp [Cga.blank], ?_, ?_⟩
  · intro i hi
    simp only [Cga.blank, cgaDraw_pos]
    rw [Function.update_of_ne (by omega), cgaDraw_before hi]
  · intro i
    simp only [Cga.blank, cgaDraw_pos, Function.update_apply, laidOut, Option.none_or]
    by_cases hi : i = drawPos (.byte b) s.pos
    · rw [if_pos hi, if_pos hi]
      rfl
    · rw [if_neg hi, if_neg hi, cgaDraw_ch]
      split_ifs <;> rfl

/-- A character, and the text behind it. -/
theorem LaidOut.cons {s t u : Cga} {b : UInt8} {bs : List UInt8} (h : LaidOut s t [b])
    (h' : LaidOut t u bs) : LaidOut s u (b :: bs) := by
  have hpos : t.pos = drawPos (.byte b) s.pos := h.pos
  have hlt := lt_drawPos b s.pos
  refine ⟨?_, h'.lt, h'.scrolls.trans h.scrolls, ?_, ?_⟩
  · rw [h'.pos, hpos]
    rfl
  · intro i hi
    rw [h'.before i (by omega), h.before i hi]
  · intro i
    have hch := h.ch i
    rw [h'.ch i, hch, hpos]
    simp only [laidOut, Option.none_or]
    cases laidOut bs (drawPos (.byte b) s.pos) i with
    | none => rfl
    | some c => rfl

/-- The loop of `copyFromTextToScreen` never takes a scroll back. -/
theorem copyLoop_scrolls_le {m : ℤ → UInt8} {p : ℤ} {n : ℕ} {s s' : Cga}
    (hs : copyLoop m p n s = .ok s') : s.scrolls ≤ s'.scrolls := by
  induction n generalizing p s with
  | zero => cases hs; exact le_rfl
  | succ n ih =>
    simp only [copyLoop] at hs
    split_ifs at hs with h0
    · cases hs
      exact le_rfl
    · obtain ⟨t, ht, hs⟩ := bind_eq_ok.mp hs
      have hle := cgaputc_scrolls_le ht
      split_ifs at hs
      · cases hs
        exact hle
      · exact hle.trans (ih hs)

/-! ## The loop -/

/-- The layout behind the first character. -/
theorem layoutEnd_succ (m : ℤ → UInt8) (p : ℤ) (pos k : ℕ) :
    layoutEnd m p pos (k + 1) = layoutEnd m (p + 1) (drawPos (.byte (m p)) pos) k := by
  rw [layoutEnd, bytes_succ']
  rfl

/-- The layout only moves on. -/
theorem le_layoutEnd (m : ℤ → UInt8) (p : ℤ) (pos k : ℕ) : pos ≤ layoutEnd m p pos k := by
  induction k generalizing p pos with
  | zero => exact le_rfl
  | succ k ih =>
    have h1 := lt_drawPos (m p) pos
    have h2 := ih (p + 1) (drawPos (.byte (m p)) pos)
    rw [layoutEnd_succ]
    omega

/-- The rest of a text that ends in time does so too, when the loop has looked for the end.

**Proof sketch.** The condition on tabs shifts by one place, since the layout of the rest of the
text begins where its first character ends (`layoutEnd_succ`). It remains that the next character
ends on the screen. A tab does by the condition at place 0 and the test for the last cell; a newline
does since it is not in the last row, where the loop would have left; and any other character takes
one cell, which is not behind the last. -/
theorem EndsInTime.tail {m : ℤ → UInt8} {p : ℤ} {n pos : ℕ} (h : EndsInTime m p (n + 1) pos)
    (h0 : m p ≠ NUL) (hgo : ¬(drawPos (.byte (m p)) pos = 25 * 80 - 1 ∨
      24 * 80 ≤ drawPos (.byte (m p)) pos ∧ m (p + 1) = NL)) :
    EndsInTime m (p + 1) n (drawPos (.byte (m p)) pos) := by
  have hfirst := h.1 (by omega) h0
  have htab : ∀ k < n, NUL ∉ bytes m (p + 1) (k + 1) → m (p + 1 + k) = TAB →
      ¬(25 * 80 - 4 ≤ layoutEnd m (p + 1) (drawPos (.byte (m p)) pos) k ∧
        layoutEnd m (p + 1) (drawPos (.byte (m p)) pos) k < 25 * 80 - 1) := by
    intro k hk hnul hk'
    have := h.2 (k + 1) (by omega)
    rw [layoutEnd_succ, bytes_succ'] at this
    refine this ?_ ?_
    · rw [List.mem_cons, not_or]
      exact ⟨Ne.symm h0, hnul⟩
    · rw [← hk']
      push_cast
      congr 1
      ring
  refine ⟨fun hn h1 => ?_, htab⟩
  by_cases ht : m (p + 1) = TAB
  · have := htab 0 (by omega) (by simpa [bytes] using Ne.symm h1) (by simpa using ht)
    simp only [layoutEnd, bytes_zero, List.foldl_nil] at this
    rw [ht, drawPos_tab]
    omega
  by_cases hnl : m (p + 1) = NL
  · have hrow : ¬24 * 80 ≤ drawPos (.byte (m p)) pos := fun h => hgo (.inr ⟨h, hnl⟩)
    rw [hnl, drawPos_newline]
    omega
  · rw [drawPos_char hnl ht]
    have := not_or.mp hgo
    omega

/-- **The loop.** A text that ends in time is drawn without leaving the screen.

**Proof sketch.** Induction on the length. The character drawn does not leave the screen, and
what the loop looks for afterwards are, but for the tabs, the cases in which the next one
would. -/
theorem copyLoop_stops {m : ℤ → UInt8} {p : ℤ} {n : ℕ} {s : Cga} (hs : s.pos < 25 * 80)
    (h : EndsInTime m p n s.pos) :
    ∃ s' k, copyLoop m p n s = .ok s' ∧ k ≤ n ∧ NUL ∉ bytes m p k ∧ LaidOut s s' (bytes m p k) := by
  induction n generalizing p s with
  | zero => exact ⟨s, 0, rfl, le_rfl, by simp, LaidOut.nil hs⟩
  | succ n ih =>
    simp only [copyLoop]
    by_cases h0 : m p = NUL
    · rw [if_pos h0]
      exact ⟨s, 0, rfl, by omega, by simp, LaidOut.nil hs⟩
    obtain ⟨t, ht, hlaid⟩ := cgaputc_within (h.1 (by omega) h0)
    have hpos : t.pos = drawPos (.byte (m p)) s.pos := hlaid.pos
    have hone : bytes m p 1 = [m p] := by simp [bytes]
    rw [if_neg h0, ht, ok_bind]
    by_cases hgo : t.pos = 25 * 80 - 1 ∨ 24 * 80 ≤ t.pos ∧ m (p + 1) = NL
    · rw [if_pos hgo]
      refine ⟨t, 1, rfl, by omega, ?_, ?_⟩
      · rw [hone, List.mem_singleton]
        exact Ne.symm h0
      · rw [hone]
        exact hlaid
    · rw [if_neg hgo]
      rw [hpos] at hgo
      obtain ⟨u, k, hu, hk, hnul, hlaid'⟩ := ih hlaid.lt (hpos ▸ h.tail h0 hgo)
      refine ⟨u, k + 1, hu, by omega, ?_, ?_⟩
      · rw [bytes_succ', List.mem_cons, not_or]
        exact ⟨Ne.symm h0, hnul⟩
      · rw [bytes_succ']
        exact hlaid.cons hlaid'

/-- A text that the loop draws without a scroll ends in time.

**Proof sketch.** Induction on the number of passes. No character scrolls, since scrolls are only
added (`copyLoop_scrolls_le`), so each one ends on the screen. For the tabs, the first character is
looked at directly, and a later one by induction if the loop goes on; if it has left, then what
follows is laid out at the last cell or, behind a newline, below the screen. -/
theorem endsInTime_of_copyLoop {m : ℤ → UInt8} {p : ℤ} {n : ℕ} {s s' : Cga}
    (hs : copyLoop m p n s = .ok s') (hscr : s'.scrolls = s.scrolls) :
    EndsInTime m p n s.pos := by
  induction n generalizing p s with
  | zero => exact ⟨fun h => absurd rfl h, fun k hk => absurd hk (by omega)⟩
  | succ n ih =>
    simp only [copyLoop] at hs
    by_cases h0 : m p = NUL
    · refine ⟨fun _ h => absurd h0 h, fun k _ hnul => ?_⟩
      rw [bytes_succ'] at hnul
      simp [h0] at hnul
    rw [if_neg h0] at hs
    obtain ⟨t, ht, hs⟩ := bind_eq_ok.mp hs
    have hle := cgaputc_scrolls_le ht
    have hfirst : drawPos (.byte (m p)) s.pos < 25 * 80 := by
      by_contra hno
      have hone := cgaputc_leaves hno ht
      split_ifs at hs
      · cases hs
        omega
      · have := copyLoop_scrolls_le hs
        omega
    obtain ⟨t', ht', hlaid⟩ := cgaputc_within hfirst
    rw [ht] at ht'
    cases ht'
    have hpos : t.pos = drawPos (.byte (m p)) s.pos := hlaid.pos
    refine ⟨fun _ _ => hfirst, fun k hk hnul htab => ?_⟩
    rcases k with _ | k
    · -- a tab is the first character
      rw [Nat.cast_zero, add_zero] at htab
      rw [htab, drawPos_tab] at hfirst
      simp only [layoutEnd, bytes_zero, List.foldl_nil]
      omega
    rw [layoutEnd_succ, ← hpos]
    rw [bytes_succ', List.mem_cons, not_or] at hnul
    have hshift : m (p + 1 + k) = TAB := by
      rw [← htab]
      push_cast
      congr 1
      ring
    by_cases hgo : t.pos = 25 * 80 - 1 ∨ 24 * 80 ≤ t.pos ∧ m (p + 1) = NL
    · have hend := le_layoutEnd m (p + 1) t.pos k
      rcases hgo with hlast | ⟨hrow, hnl⟩
      · omega
      · -- what follows the newline is laid out below the screen
        rcases k with _ | k
        · rw [Nat.cast_zero, add_zero, hnl] at hshift
          exact absurd hshift (by decide)
        have hend' := le_layoutEnd m (p + 1 + 1) (drawPos (.byte NL) t.pos) k
        rw [layoutEnd_succ, hnl]
        rw [drawPos_newline] at hend' ⊢
        omega
    · rw [if_neg hgo] at hs
      exact (ih hs (by have := copyLoop_scrolls_le hs; omega)).2 k (by omega) hnul.2 hshift

/-! ## The call -/

/-- Moving the cursor changes no cell but the one it moves to. -/
theorem setCursorPos_crt_of_ne {x y : ℤ} {s s' : Cga} (h : setCursorPos x y s = .ok s') {i : ℕ}
    (hi : i ≠ s'.pos) : s'.crt i = s.crt i := by
  unfold setCursorPos at h
  split_ifs at h
  cases h
  exact Function.update_of_ne hi _ _

/-- A call on the screen is its loop, from a screen with the same characters. -/
theorem copyFromTextToScreen_loop (m : ℤ → UInt8) (text : ℤ) {pos : ℤ} (len : ℤ) (s : Cga)
    (hpos : 0 ≤ pos ∧ pos < 25 * 80) :
    ∃ t, copyFromTextToScreen m text pos len s = copyLoop m text len.toNat t ∧
      t.pos = pos.toNat ∧ t.scrolls = s.scrolls ∧ (∀ i, (t.crt i).ch = (s.crt i).ch) ∧
      ∀ i < pos.toNat, t.crt i = s.crt i := by
  obtain ⟨t, ht, hcur⟩ := setCursorPos_ok s (onScreen_div_mod.mpr hpos)
  rw [tdiv_tmod_cell] at hcur
  refine ⟨t, by rw [copyFromTextToScreen, ht, ok_bind], hcur, setCursorPos_scrolls ht,
    setCursorPos_ch ht, fun i hi => setCursorPos_crt_of_ne ht (by omega)⟩

/-- A call that keeps its promise draws a text that ends in time. -/
theorem StopsAtEnd.endsInTime {m : ℤ → UInt8} {text pos len : ℤ} {s : Cga}
    (h : StopsAtEnd m text pos len s) (hpos : 0 ≤ pos ∧ pos < 25 * 80) :
    EndsInTime m text len.toNat pos.toNat := by
  obtain ⟨s', n, hs', -, hscr', -⟩ := h
  obtain ⟨t, heq, hcur, hscr, -⟩ := copyFromTextToScreen_loop m text len s hpos
  rw [heq] at hs'
  rw [← hcur]
  exact endsInTime_of_copyLoop hs' (hscr'.trans hscr.symm)

/-- **Copying a text to the screen.** The call keeps its promise exactly if the text ends in time.

**Proof sketch.** That the condition is needed is `StopsAtEnd.endsInTime`. Conversely, the call
first moves the cursor, which draws nothing, and then runs the loop; `copyLoop_stops` says where the
loop ends and that the characters it has drawn are laid out from there, and the cells before are
those of the screen before the call. -/
theorem stopsAtEnd_iff (m : ℤ → UInt8) (text pos len : ℤ) (s : Cga)
    (hpos : 0 ≤ pos ∧ pos < 25 * 80) :
    StopsAtEnd m text pos len s ↔ EndsInTime m text len.toNat pos.toNat := by
  refine ⟨fun h => h.endsInTime hpos, fun h => ?_⟩
  obtain ⟨t, heq, hcur, hscr, hch, hbefore⟩ := copyFromTextToScreen_loop m text len s hpos
  rw [← hcur] at h
  obtain ⟨s', n, hs', hn, hnul, hlaid⟩ := copyLoop_stops (by omega) h
  refine ⟨s', n, heq.trans hs', hlaid.lt, hlaid.scrolls.trans hscr, ?_, hn, hnul, ?_, ?_⟩
  · intro i hi
    rw [hlaid.before i (by omega), hbefore i hi]
  · rw [hlaid.pos, hcur]
    rfl
  · intro i
    rw [hlaid.ch i, hcur, hch]

/-- A line and a newline drawn on the row before the last. -/
theorem stopsAtEnd_iff_row : StopsAtEnd (fun i => if i = 0 then 97 else if i = 1 then NL else 0) 0
    (23 * 80 + 78) 9 clearedScreen ↔
      EndsInTime (fun i => if i = 0 then 97 else if i = 1 then NL else 0) 0 (9 : ℤ).toNat
        (23 * 80 + 78 : ℤ).toNat :=
  stopsAtEnd_iff _ _ _ _ _ (by decide)

/-- A letter in the last cell and a newline on the last row scroll the screen, and so does a tab
behind a letter near the end of it. -/
theorem not_stopsAtEnd :
    ¬StopsAtEnd (fun i => if i = 0 then 97 else 0) 0 (25 * 80 - 1) 1 clearedScreen ∧
      ¬StopsAtEnd (fun i => if i = 0 then NL else 0) 0 (24 * 80) 1 clearedScreen ∧
      ¬StopsAtEnd (fun i => if i = 0 then 97 else if i = 1 then TAB else 0) 0 (25 * 80 - 5) 2
        clearedScreen := by
  refine ⟨fun h => ?_, fun h => ?_, fun h => ?_⟩
  · have hlast := h.endsInTime (by decide)
    exact absurd hlast (by decide)
  · have hrow := h.endsInTime (by decide)
    exact absurd hrow (by decide)
  · have htab := h.endsInTime (by decide)
    exact absurd htab (by decide)

end HgXv6
