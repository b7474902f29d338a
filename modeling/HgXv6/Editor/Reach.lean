import HgXv6.Editor.Invariant
import HgXv6.Editor.TopLine

set_option relaxedAutoImplicit false
set_option autoImplicit false

/-!
# How far the cursor gets

A deletion can leave the cursor behind the end of the text. From there, as from anywhere else, no
command takes it further: a move goes back, or to a character of the text, and the text gets
longer where a character is inserted. Only a search that starts behind the text, or in a text of
one character, is out of bounds.

## Main definitions

* `HgXv6.Near` — the cursor is not before the text, and at most so many places behind it.
* `HgXv6.SearchInside` — a search that does not leave the text.

## Main results

* `HgXv6.doMove_near` — the moves.
* `HgXv6.execCmd_near` — the commands that delete nothing.
-/

namespace HgXv6

open Prog

variable {W : Type} {sys : Sys W} {s t : Vi W} {k e : ℤ}

/-- The cursor is in the text, or at most `k` places behind its end; there are at least `e`
characters. -/
structure Near (k e : ℤ) (s : Vi W) : Prop where
  slack : 0 ≤ k
  pos : 0 < e
  dot_nonneg : 0 ≤ s.dot
  dot_le : s.dot ≤ s.endp + k
  top : 0 ≤ s.screenbegin
  endp : e ≤ s.endp

/-! ## Changes of the state -/

theorem Near.congr (h : Near k e s) (hdot : t.dot = s.dot) (hend : s.endp ≤ t.endp)
    (htop : t.screenbegin = s.screenbegin) : Near k e t where
  slack := h.slack
  pos := h.pos
  dot_nonneg := hdot ▸ h.dot_nonneg
  dot_le := by have := h.dot_le; omega
  top := htop ▸ h.top
  endp := h.endp.trans hend

theorem Near.unmoved (h : Near k e s) (ht : Unmoved s t) : Near k e t :=
  h.congr ht.dot ht.endp.ge ht.screenbegin

/-- The cursor goes back, or to a character of the text. -/
theorem Near.withDot (h : Near k e s) {d : ℤ} (h0 : 0 ≤ d) (hle : d ≤ s.dot ∨ d ≤ s.endp - 1) :
    Near k e { s with dot := d } :=
  { h with
    dot_nonneg := h0
    dot_le := by have := h.dot_le; have := h.slack; dsimp only; omega }

theorem Near.withTop (h : Near k e s) {b : ℤ} (h0 : 0 ≤ b) : Near k e { s with screenbegin := b } :=
  { h with top := h0 }

/-- The window is adjusted. -/
theorem Near.adjusted (h : Near k e s) {b : ℤ} (hb : Adjusted s.mem s.dot s.screenbegin b)
    (c : Cga) (y : Option ℤ) :
    Near k e { s with screenbegin := b, cga := c, synScreenbegin := y } :=
  { h with top := hb.nonneg h.top h.dot_nonneg }

theorem synchronize_near (h : Near k e s) (fuel : ℕ) : Ensures (synchronize fuel s) (Near k e) := by
  refine (synchronize_ensures fuel s).mono ?_
  rintro _ ⟨b, c, rfl, hb, -⟩
  exact h.adjusted hb c _

theorem redraw_near (h : Near k e s) (fuel : ℕ) : Ensures (redraw fuel s) (Near k e) := by
  refine (redraw_ensures fuel s).mono ?_
  rintro _ ⟨b, c, rfl, hb, -⟩
  exact h.adjusted hb c _

theorem redraw_synchronize_near (h : Near k e s) (fuel : ℕ) :
    Ensures (redraw fuel s >>= synchronize fuel) (Near k e) :=
  Ensures.bind (redraw_near h fuel) fun _ ht => synchronize_near ht fuel

theorem printOnStatusLine_near (h : Near k e s) (msg : List UInt8) :
    Ensures (printOnStatusLine msg s) (Near k e) :=
  (draw_unmoved _ s).mono fun _ ht => h.unmoved ht

/-! ## Moves -/

/-- The end of the line of a place behind the text is this place. -/
theorem endLine_or (m : ℤ → UInt8) (e p : ℤ) : endLine m e p = p ∨ endLine m e p ≤ e - 1 := by
  rcases le_or_gt p (e - 1) with h | h
  · exact .inr (endLine_le m h)
  · exact .inl (endLine_of_le m (by omega))

theorem Near.dotIncrease (h : Near k e s) : Near k e (HgXv6.dotIncrease s) := by
  have := h.dot_nonneg
  unfold HgXv6.dotIncrease
  split_ifs
  · exact h.withDot (by omega) (.inr (by omega))
  · exact h

theorem Near.dotDecrease (h : Near k e s) : Near k e (HgXv6.dotDecrease s) := by
  unfold HgXv6.dotDecrease
  split_ifs
  · exact h.withDot (by omega) (.inl (by omega))
  · exact h

theorem Near.dotLeft (h : Near k e s) : Near k e (HgXv6.dotLeft s) := by
  unfold HgXv6.dotLeft
  split_ifs
  · exact h.dotDecrease
  · exact h

theorem Near.dotRight (h : Near k e s) : Near k e (HgXv6.dotRight s) := by
  unfold HgXv6.dotRight
  split_ifs
  · exact h.dotIncrease
  · exact h

theorem Near.dotHead (h : Near k e s) : Near k e (HgXv6.dotHead s) := by
  rw [dotHead_eq]
  exact h.withDot (beginLine_nonneg _ h.dot_nonneg) (.inl (beginLine_le _ _))

theorem Near.dotTail (h : Near k e s) : Near k e (HgXv6.dotTail s) := by
  have hge := le_endLine s.mem s.endp s.dot
  rw [dotTail_eq]
  exact h.withDot (h.dot_nonneg.trans hge) ((endLine_or _ _ _).imp_left Eq.le)

theorem Near.dotPreLine (h : Near k e s) : Near k e (HgXv6.dotPreLine s).2 := by
  have hle := beginLine_le s.mem s.dot
  rw [dotPreLine_eq]
  dsimp only
  by_cases hp : 0 < beginLine s.mem s.dot
  · rw [if_pos hp]
    have hq := beginLine_nonneg s.mem (p := beginLine s.mem s.dot - 1) (by omega)
    have hq' := beginLine_le s.mem (beginLine s.mem s.dot - 1)
    refine (h.withDot hq (.inl (by omega))).withTop ?_
    split_ifs
    · exact beginLine_nonneg _ hq
    · exact h.top
  · rw [if_neg hp]
    exact h

theorem Near.pulledBack (h : Near k e s) : 0 ≤ HgXv6.pulledBack s :=
  pulledBack_nonneg h.top h.dot_nonneg

theorem Near.dotNextLine (h : Near k e s) : Near k e (HgXv6.dotNextLine s).2 := by
  have hge := le_endLine s.mem s.endp s.dot
  have hdot := h.dot_nonneg
  rw [dotNextLine_eq]
  dsimp only
  by_cases hp : endLine s.mem s.endp s.dot < s.endp - 1
  · rw [if_pos hp]
    have hnext : Near k e { s with dot := endLine s.mem s.endp s.dot + 1 } :=
      h.withDot (by omega) (.inr (by omega))
    have htop := hnext.pulledBack
    split_ifs
    · exact hnext.withTop (htop.trans (le_nextLine _ _ _))
    · exact hnext.withTop htop
  · rw [if_neg hp]
    exact h

theorem Near.replayColumn (n : ℕ) (p : ℤ) (h : Near k e s) :
    Near k e (HgXv6.replayColumn n p s) := by
  induction n generalizing p s with
  | zero => exact h
  | succ n ih =>
    simp only [HgXv6.replayColumn]
    split_ifs
    · exact h.dotRight
    · exact ih _ h.dotRight
    · exact h

theorem Near.dotUp (h : Near k e s) : Near k e (HgXv6.dotUp s).2 := by
  unfold HgXv6.dotUp
  dsimp only
  split_ifs
  · exact h.dotPreLine.replayColumn _ _
  · exact h.dotPreLine

theorem Near.dotDown (h : Near k e s) : Near k e (HgXv6.dotDown s).2 := by
  unfold HgXv6.dotDown
  dsimp only
  split_ifs
  · exact h.dotNextLine.replayColumn _ _
  · exact h.dotNextLine

theorem dotTextEnd_near (h : Near k e s) (fuel : ℕ) : Ensures (dotTextEnd fuel s) (Near k e) := by
  have hend := h.endp
  have hpos := h.pos
  have hlast : 0 ≤ s.endp - 1 := by omega
  have hstart := (h.withDot hlast (.inr le_rfl)).withTop (beginLine_nonneg s.mem hlast)
  refine Ensures.bind (loopFuel_keeps (fun t ht => ?_) fuel hstart) fun t ht => ?_
  · rw [dotTextEndBody_eq]
    split_ifs
    · exact (ensures_ok _ _).mpr (ht.withTop (prevLine_lineStart ht.pulledBack).1)
    · exact (ensures_ok _ _).mpr (ht.withTop ht.pulledBack)
  · exact (ensures_ok _ _).mpr (ht.withTop (ht.top.trans (le_nextLine _ _ _)))

theorem dotMove2NextWordHead_near (h : Near k e s) (fuel : ℕ) :
    Ensures (dotMove2NextWordHead fuel s) (Near k e) := by
  refine loopFuel_keeps (fun t ht => ?_) fuel h
  dsimp only
  split_ifs <;> exact (ensures_ok _ _).mpr ht.dotIncrease

theorem dotMove2NextWordTail_near (h : Near k e s) (fuel : ℕ) :
    Ensures (dotMove2NextWordTail fuel s) (Near k e) := by
  refine Ensures.bind (dotMove2NextWordHead_near h fuel) fun t ht => ?_
  refine loopFuel_keeps (fun u hu => ?_) fuel ht
  split_ifs
  · exact (ensures_ok _ _).mpr hu
  · exact (ensures_ok _ _).mpr hu.dotDecrease
  · exact (ensures_ok _ _).mpr hu.dotIncrease

theorem dotMove2PreWordHead_near (h : Near k e s) (fuel : ℕ) :
    Ensures (dotMove2PreWordHead fuel s) (Near k e) := by
  refine loopFuel_keeps (fun t ht => ?_) fuel h
  dsimp only
  split_ifs <;> exact (ensures_ok _ _).mpr ht.dotDecrease

/-- No move takes the cursor further behind the text.

**Proof sketch.** One case for each move. Each of them ends in the text, or takes the cursor back,
or leaves it where it was; the moves by lines are iterated, and the iterates keep what one step
keeps. -/
theorem doMove_near (h : Near k e s) (hle : s.screenbegin ≤ s.dot) (fuel : ℕ) (mv : Move) :
    Ensures (doMove fuel mv s) (Near k e) := by
  have hscreen : Near k e { s with dot := s.screenbegin } := h.withDot h.top (.inl hle)
  have hdown : ∀ n {t : Vi W}, Near k e t →
      Near k e ((fun t : Vi W => (dotNextLine t).2)^[n] t) :=
    fun n _ ht => Function.Iterate.rec (Near k e) ht (fun _ h => h.dotNextLine) n
  cases mv with
  | up => exact (ensures_ok _ _).mpr h.dotUp
  | down => exact (ensures_ok _ _).mpr h.dotDown
  | left => exact (ensures_ok _ _).mpr h.dotLeft
  | right => exact (ensures_ok _ _).mpr h.dotRight
  | lineHead => exact (ensures_ok _ _).mpr h.dotHead
  | lineTail => exact (ensures_ok _ _).mpr h.dotTail
  | fileTail => exact dotTextEnd_near h fuel
  | fileHead =>
    exact (ensures_ok _ _).mpr ((h.withDot le_rfl (.inl h.dot_nonneg)).withTop le_rfl)
  | pageUp =>
    have hup := Function.Iterate.rec (Near k e) h (fun _ h => h.dotPreLine) (rows - 1)
    exact (ensures_ok _ _).mpr (hup.withTop hup.dot_nonneg)
  | pageDown =>
    exact (ensures_ok _ _).mpr ((hdown _ h).withTop (hdown _ h).dot_nonneg)
  | nextWordHead => exact dotMove2NextWordHead_near h fuel
  | preWordHead => exact dotMove2PreWordHead_near h fuel
  | nextWordTail => exact dotMove2NextWordTail_near h fuel
  | low => exact (ensures_ok _ _).mpr (hdown _ hscreen)
  | middle => exact (ensures_ok _ _).mpr (hdown _ hscreen)
  | high => exact (ensures_ok _ _).mpr hscreen

/-! ## Edits -/

theorem Near.makeHoleAdd (h : Near k e s) (p : ℤ) (n : ℕ) : Near k e (HgXv6.makeHoleAdd p n s) := by
  unfold HgXv6.makeHoleAdd
  split_ifs
  · exact h
  · exact h.congr rfl (by dsimp only; omega) rfl

theorem Near.store (h : Near k e s) (p : ℤ) (c : UInt8) : Near k e (HgXv6.store p c s) :=
  h.congr rfl le_rfl rfl

theorem Near.change (h : Near k e s) : Near k e { s with hasChanged := true } :=
  h.congr rfl le_rfl rfl

theorem Near.typeText (h : Near k e s) (c : UInt8) : Near k e (HgXv6.typeText c s) :=
  ((h.makeHoleAdd s.dot 1).store _ c).dotIncrease

theorem Near.overText (h : Near k e s) (c : UInt8) : Near k e (HgXv6.overText c s) :=
  (h.change.store s.dot c).dotIncrease

theorem Near.openBelow (h : Near k e s) : Near k e (HgXv6.openBelow s) :=
  ((h.makeHoleAdd _ 1).store _ NL).dotNextLine

theorem Near.openAbove (h : Near k e s) : Near k e (HgXv6.openAbove s) := by
  have hadd := (h.makeHoleAdd (beginLine s.mem s.dot) 1).store (beginLine s.mem s.dot) NL
  refine hadd.withDot (beginLine_nonneg _ h.dot_nonneg) (.inl ?_)
  exact (beginLine_le _ _).trans (makeHoleAdd_dot _ 1 s).ge

/-- The edits that delete nothing. -/
theorem Near.edit (h : Near k e s) {cmd : Cmd} {f : Vi W → Vi W} (hf : cmd.edit = some f)
    (hdel : ¬Deletes cmd s) (htail : cmd ≠ .deleteTail) : Near k e (f s) := by
  cases cmd with
  | toggle => cases hf; exact (h.change.store s.dot _).dotIncrease
  | join => exact absurd trivial hdel
  | deleteTail => exact absurd rfl htail
  | indent => cases hf; exact (h.change.makeHoleAdd _ 1).store _ TAB
  | unindent =>
    cases hf
    have htab : s.mem (beginLine s.mem s.dot) ≠ TAB := hdel
    simp only [HgXv6.unindent, if_neg htab]
    exact h
  | _ => cases hf

theorem Near.insertKey (h : Near k e s) (c : UInt8) : Near k e (HgXv6.insertKey c s) := by
  unfold HgXv6.insertKey
  split
  · exact h.dotUp
  · exact h.dotDown
  · exact h.dotLeft
  · exact h.dotRight
  · exact h.dotTail.dotLeft
  · exact h

/-- What every key keeps, and no change of the screen breaks, the loop of a mode keeps. -/
theorem KeyMode.loop_keeps {M : KeyMode W} {P : Vi W → Prop}
    (hquiet : ∀ s t, Unmoved s t → P s → P t)
    (hpass : ∀ fuel c s, P s → Ensures (M.pass fuel c s) P) {fuel : ℕ} {ks : List Read}
    {c : Option UInt8} (hs : P s) : Ensures (M.loop fuel ks c s) fun r => P r.2 := by
  have hprint : ∀ {msg t}, P t → Ensures (printOnStatusLine msg t) P :=
    fun ht => (draw_unmoved _ _).mono fun u hu => hquiet _ u hu ht
  induction ks generalizing c s with
  | nil => exact Ensures.bind (fun _ h => h) fun _ _ => (ensures_error _ _).mpr trivial
  | cons r ks ih =>
    simp only [KeyMode.loop]
    refine Ensures.bind (hprint hs) fun t ht => ?_
    have hread : P (t.act (M.act (r.into c))) := hquiet t _ ⟨rfl, rfl, rfl, rfl⟩ ht
    split_ifs
    · exact Ensures.bind (hprint hread) fun u hu => (ensures_ok _ _).mpr hu
    · exact Ensures.bind (hpass fuel _ _ hread) fun u hu => ih hu

theorem insert_near (h : Near k e s) (fuel : ℕ) (ks : List Read) :
    Ensures (insert fuel ks s) fun r => Near k e r.2 := by
  refine Ensures.bind (P := fun r => Near k e r.2) ?_ fun r hr => ?_
  · rw [insertLoop_eq_loop]
    refine KeyMode.loop_keeps (fun _ _ hu hs => hs.unmoved hu) (fun fuel c s hs => ?_) h.change
    simp only [insertMode]
    split_ifs
    · exact redraw_synchronize_near (hs.typeText c) fuel
    · exact synchronize_near (hs.insertKey c) fuel
  · exact Ensures.bind (printOnStatusLine_near hr []) fun t ht => (ensures_ok _ _).mpr ht

theorem replaceLoop_near (h : Near k e s) (fuel : ℕ) (ks : List Read) (tmp : Option UInt8) :
    Ensures (replaceLoop fuel ks tmp s) fun r => Near k e r.2 := by
  rw [replaceLoop_eq_loop]
  refine KeyMode.loop_keeps (fun _ _ hu hs => hs.unmoved hu) (fun fuel c s hs => ?_) h
  simp only [replaceMode]
  split_ifs
  · exact redraw_near (hs.overText c) fuel
  · exact (ensures_ok _ _).mpr hs

/-! ## Searches -/

/-- `findChar` stays on the line of the cursor. -/
theorem findChar_near (h : Near k e s) (fuel : ℕ) (c : UInt8) :
    Ensures (findChar fuel c s) fun r => Near k e { r.2 with dot := r.1 } := by
  unfold findChar
  dsimp only
  have hx := @iterWhile_inv (ℤ × Bool)
    (fun x => !x.2 && decide (x.1 < endLine s.mem s.endp s.dot))
    (fun x => (x.1 + 1, s.mem (x.1 + 1) == c))
    (fun x => s.dot ≤ x.1 ∧ x.1 ≤ endLine s.mem s.endp s.dot)
    (fun x hx hlt => by
      simp only [Bool.and_eq_true, decide_eq_true_eq] at hlt
      omega)
    (endLine s.mem s.endp s.dot - s.dot + 1).toNat (s.dot, false)
    ⟨le_rfl, le_endLine _ _ _⟩
  split_ifs
  · refine Ensures.bind (synchronize_near h fuel) fun t ht => ?_
    refine Ensures.bind (printOnStatusLine_near ht _) fun u hu => ?_
    exact (ensures_ok _ _).mpr hu
  · rw [ensures_ok]
    refine h.withDot (h.dot_nonneg.trans hx.1) ?_
    rcases endLine_or s.mem s.endp s.dot with heq | hle
    · exact .inl (hx.2.trans heq.le)
    · exact .inr (hx.2.trans hle)

/-- Turning round and stepping on stays among the places `Q`. -/
def Direction.Inside (dir : Direction) (e : ℤ) (Q : ℤ → Prop) : Prop :=
  ∀ p, Q p → Q ((if p = dir.edge e then dir.restart e else p) + dir.step)

/-- A search among the places `Q`, from the cursor on, leads to one of them.

**Proof sketch.** The invariant rule for the loop of the search: the pointer is at one of the
places, and the state is that before the search with another view. At the edge of the text the
search turns round, which draws, and goes on from the other end; otherwise the pointer moves by one
step. Either way the next pointer is again one of the places, by the assumption on the direction,
and when the search gives up it returns the cursor, which is one of them too. -/
theorem search_inside (h : Near k e s) {dir : Direction} {Q : ℤ → Prop} (hdot : Q s.dot)
    (hdir : dir.Inside s.endp Q) (pat : List UInt8) (fuel : ℕ) :
    Ensures (search fuel dir pat s) fun r => (Near k e r.2 ∧ Viewed s r.2) ∧ Q r.1 := by
  refine Ensures.bind (P := fun x => (Near k e x.1 ∧ Viewed s x.1) ∧ Q x.2.1) ?_
    fun x hx => (ensures_ok _ _).mpr hx
  refine loopFuel_ensures (fun x => (Near k e x.1 ∧ Viewed s x.1) ∧ Q x.2.1) _ ?_ fuel _
    ⟨⟨h, Viewed.refl s⟩, hdot⟩
  rintro ⟨t, p, count⟩ ⟨ht, hp⟩
  refine Ensures.mono (P := fun r => (Near k e r.1.1 ∧ Viewed s r.1.1) ∧ Q r.1.2.1) ?_
    fun r hr => by split_ifs <;> exact hr
  have hsame : ∀ {u}, Viewed s u → u.dot = s.dot ∧ u.endp = s.endp := by
    rintro u ⟨_, _, _, rfl⟩
    exact ⟨rfl, rfl⟩
  have hprint : ∀ {u : Vi W} {msg : List UInt8}, Near k e u ∧ Viewed s u →
      Ensures (printOnStatusLine msg u) fun v => Near k e v ∧ Viewed s v := by
    intro u msg hu
    refine (draw_ensures _ u).mono ?_
    rintro _ ⟨c, -, rfl⟩
    exact ⟨hu.1.congr rfl le_rfl rfl, hu.2.trans ⟨_, c, _, rfl⟩⟩
  unfold searchBody
  dsimp only
  by_cases hstop : p = dir.edge t.endp ∧ count = 1
  · rw [if_pos hstop]
    exact (ensures_ok _ _).mpr ⟨ht, (hsame ht.2).1 ▸ hdot⟩
  · rw [if_neg hstop]
    -- the pointer before the step
    refine Ensures.bind (P := fun x => (Near k e x.1 ∧ Viewed s x.1) ∧
      x.2.1 = if p = dir.edge s.endp then dir.restart s.endp else p) ?_ ?_
    · rw [(hsame ht.2).2]
      split_ifs
      · have hsync : Ensures (printOnStatusLine dir.msg t >>= synchronize fuel)
            fun u => Near k e u ∧ Viewed s u := Ensures.bind (hprint ht) fun u hu v hv =>
          ⟨synchronize_near hu.1 fuel v hv, hu.2.trans (synchronize_viewed hv)⟩
        have hturn : Ensures (printOnStatusLine dir.msg t >>= synchronize fuel >>= redraw fuel)
            fun u => Near k e u ∧ Viewed s u := Ensures.bind hsync fun u hu v hv =>
          ⟨redraw_near hu.1 fuel v hv, hu.2.trans (redraw_viewed hv)⟩
        refine Ensures.bind hturn fun u hu => (ensures_ok _ _).mpr ⟨hu, ?_⟩
        dsimp only
        rw [(hsame hu.2).2]
      · exact (ensures_ok _ _).mpr ⟨ht, rfl⟩
    · rintro ⟨u, q, count'⟩ ⟨hu, hq⟩
      dsimp only at hu hq ⊢
      have hnext : Q (q + dir.step) := hq ▸ hdir p hp
      split_ifs
      · exact (ensures_ok _ _).mpr ⟨hu, hnext⟩
      · refine Ensures.bind (hprint hu) fun v hv => ?_
        exact (ensures_ok _ _).mpr ⟨hv, (hsame hv.2).1 ▸ hdot⟩
      · exact (ensures_ok _ _).mpr ⟨hu, hnext⟩

/-- The places a search may get to: those before the cursor, and the text. -/
def NearText (s : Vi W) (p : ℤ) : Prop := 0 ≤ p ∧ (p ≤ s.dot ∨ p ≤ s.endp - 1)

theorem forward_inside (h2 : 2 ≤ s.endp) (hlt : s.dot < s.endp) :
    forward.Inside s.endp (NearText s) := by
  rintro p ⟨hp0, hp⟩
  simp only [forward]
  split_ifs <;> exact ⟨by omega, .inr (by omega)⟩

theorem backward_inside (h2 : 2 ≤ s.endp) : backward.Inside s.endp (NearText s) := by
  rintro p ⟨hp0, hp⟩
  simp only [backward]
  split_ifs
  · exact ⟨by omega, .inr (by omega)⟩
  · exact ⟨by omega, by omega⟩

/-- The commands `n` and `N`. -/
theorem searchAgain_near (h : Near k e s) {dir : Direction}
    (hdir : s.lastFindString ≠ [] → dir.Inside s.endp (NearText s)) (fuel : ℕ) :
    Ensures (searchAgain fuel dir s) (Near k e) := by
  unfold searchAgain
  split_ifs with hnil
  · exact printOnStatusLine_near h _
  · refine Ensures.bind (search_inside h ⟨h.dot_nonneg, .inl le_rfl⟩ (hdir hnil) _ fuel) ?_
    rintro ⟨p, t⟩ ⟨⟨ht, b, c, y, rfl⟩, hp0, hp⟩
    dsimp only at ht hp0 hp ⊢
    refine Ensures.bind (synchronize_near (ht.withDot hp0 hp) fuel) fun u hu => ?_
    exact (printReport_unmoved _ u).mono fun v hv => hu.unmoved hv

/-- A command that searches does not leave the text: there are two characters at least, and a
forward search does not start behind them. -/
def SearchInside (cmd : Cmd) (ks : List Read) (s : Vi W) : Prop :=
  (may cmd ks s).search → 2 ≤ s.endp ∧ (cmd = .prev ∨ s.dot < s.endp)

/-- The command `/`. -/
theorem slash_near (h : Near k e s) {ks : List Read} (hsearch : SearchInside .slash ks s)
    (fuel : ℕ) : Ensures (slash fuel ks s) fun r => Near k e r.2 := by
  have hinside : (may .slash ks s).search → forward.Inside s.endp (NearText s) := fun hm =>
    forward_inside (hsearch hm).1 ((hsearch hm).2.resolve_left nofun)
  refine Ensures.bind (draw_ensures _ s) ?_
  rintro _ ⟨c, -, rfl⟩
  refine Ensures.bind (draw_ensures _ _) ?_
  rintro _ ⟨c', -, rfl⟩
  refine Ensures.bind (P := fun r => Unmoved s r.2.2 ∧ r.1 = patternKeys ks none [] ∧
    r.2.2.lastFindString = s.lastFindString) ?_ ?_
  · intro r hr
    obtain ⟨-, hkeys, -, hlast⟩ := patternLoop_path (m := may .slash ks s)
      (x := (ks, { s with cga := c' })) .refl ⟨by decide, by simp⟩ r hr
    have hquiet := patternLoop_unmoved ks none [] { s with cga := c' } r hr
    have hstart : Unmoved s { s with cga := c' } := ⟨rfl, rfl, rfl, rfl⟩
    exact ⟨hstart.trans hquiet, hkeys, hlast⟩
  · rintro ⟨pat, ks', t⟩ ⟨ht, hkeys, hlast⟩
    dsimp only at ht hkeys hlast ⊢
    rcases pat with _ | pat
    · exact (ensures_ok _ _).mpr (h.unmoved ht)
    · refine Ensures.bind (draw_ensures _ t) ?_
      rintro _ ⟨d, -, rfl⟩
      have hnear : Near k e { t with cga := d } := h.unmoved (ht.trans ⟨rfl, rfl, rfl, rfl⟩)
      have hplaces : ∀ u : Vi W, u.endp = t.endp → u.dot = t.dot →
          (may .slash ks s).search → forward.Inside u.endp (NearText u) := by
        intro u hend hdot hm
        have heq : NearText u = NearText s := by
          unfold NearText
          rw [hend, hdot, ht.endp, ht.dot]
        rw [heq, hend, ht.endp]
        exact hinside hm
      refine Ensures.bind ?_ fun u hu => (ensures_ok _ _).mpr hu
      split_ifs with hne
      · refine searchAgain_near (s := { t with cga := d, lastFindString := pat })
          (hnear.congr rfl le_rfl rfl) (fun _ => ?_) fuel
        exact hplaces _ rfl rfl ⟨pat, hkeys.symm, .inl hne⟩
      · refine searchAgain_near hnear (fun hlast' => ?_) fuel
        exact hplaces _ rfl rfl ⟨pat, hkeys.symm, .inr (hlast ▸ hlast')⟩

/-! ## Commands -/

/-- The commands that end in insert mode. -/
theorem enters_near (h : Near k e s) {cmd : Cmd} {fuel : ℕ} {x : Except Stop (Vi W)}
    (hx : cmd.enters fuel s = some x) : Ensures x (Near k e) := by
  cases cmd with
  | insert => cases hx; exact (ensures_ok _ _).mpr h
  | append => cases hx; exact (ensures_ok _ _).mpr h.dotRight
  | insertHead => cases hx; exact synchronize_near h.dotHead fuel
  | appendTail => cases hx; exact synchronize_near h.dotTail.dotDecrease fuel
  | openBelow => cases hx; exact redraw_synchronize_near h.openBelow fuel
  | openAbove => cases hx; exact redraw_synchronize_near h.openAbove fuel
  | _ => cases hx

/-- A command that deletes nothing, and does not search outside the text, takes the cursor no
further behind it.

**Proof sketch.** One case for each command. Those that take a mode, edit, move or search are dealt
with by their own lemmas; what is left reads keys, draws or saves, and touches neither the text nor
the cursor. The two deletions at the cursor are excluded, since after them the cursor may be behind
the last character. -/
theorem execCmd_near (h : Near k e s) (hle : s.screenbegin ≤ s.dot) {cmd : Cmd} {ks : List Read}
    (hdel : ¬Deletes cmd s) (htail : cmd ≠ .deleteTail) (hsearch : SearchInside cmd ks s)
    (fuel : ℕ) : Ensures (execCmd sys fuel cmd ks s) fun r => Near k e r.2 := by
  have hdone : ∀ {x : Except Stop (Vi W)} {ks : List Read}, Ensures x (Near k e) →
      Ensures (x >>= fun t => .ok (ks, t)) fun r : List Read × Vi W => Near k e r.2 :=
    fun hx => Ensures.bind hx fun t ht => (ensures_ok _ _).mpr ht
  rcases hx : cmd.enters fuel s with _ | x
  · rcases hf : cmd.edit (W := W) with _ | f
    · cases cmd with
      | move mv => exact hdone (doMove_near h hle fuel mv)
      | find =>
        refine Ensures.bind (readArg_unmoved ks s) ?_
        rintro ⟨c, ks', t⟩ ht
        dsimp only at ht ⊢
        have hread : Near k e { t with lastFindChar := c } := (h.unmoved ht).congr rfl le_rfl rfl
        split_ifs
        · exact Ensures.bind (findChar_near hread fuel c) fun r hr => (ensures_ok _ _).mpr hr
        · exact (ensures_ok _ _).mpr (h.unmoved ht)
      | findAgain =>
        simp only [execCmd]
        split_ifs
        · exact Ensures.bind (findChar_near h fuel _) fun r hr => (ensures_ok _ _).mpr hr
        · exact (ensures_ok _ _).mpr h
      | slash => exact slash_near h hsearch fuel
      | next =>
        refine hdone (searchAgain_near h (fun hm => ?_) fuel)
        exact forward_inside (hsearch hm).1 ((hsearch hm).2.resolve_left (by simp))
      | prev => exact hdone (searchAgain_near h (fun hm => backward_inside (hsearch hm).1) fuel)
      | replace =>
        refine Ensures.bind (readArg_unmoved ks s) ?_
        rintro ⟨c, ks', t⟩ ht
        dsimp only at ht ⊢
        split_ifs
        · exact hdone (redraw_near ((h.unmoved ht).overText c) fuel)
        · exact (ensures_ok _ _).mpr (h.unmoved ht)
      | replaceMode => exact replaceLoop_near h.change fuel ks none
      | del => exact (ensures_ok _ _).mpr h.change
      | colon => exact (colon_unmoved sys ks s).mono fun r hr => h.unmoved hr
      | refresh =>
        refine hdone ?_
        exact Ensures.bind (redraw_near h fuel) fun t ht => printOnStatusLine_near ht _
      | status =>
        refine hdone ?_
        unfold showStatus
        split_ifs
        · exact (ensures_error _ _).mpr trivial
        · exact (printReport_unmoved _ s).mono fun t ht => h.unmoved ht
      | quit =>
        refine Ensures.bind (readArg_unmoved ks s) ?_
        rintro ⟨c, ks', t⟩ ht
        dsimp only at ht ⊢
        split_ifs
        · refine Ensures.bind (fileSave_unmoved sys _) fun r hr => (ensures_ok _ _).mpr ?_
          exact (h.unmoved (ht.trans hr)).congr rfl le_rfl rfl
        · exact (ensures_ok _ _).mpr (h.unmoved ht)
      | other => exact hdone (printOnStatusLine_near h _)
      | deleteChar => exact absurd trivial hdel
      | insert | insertHead | append | appendTail | openBelow | openAbove => cases hx
      | toggle | join | deleteTail | indent | unindent => cases hf
    · rw [execCmd_edit hf, ensures_ok]
      exact h.edit hf hdel htail
  · rw [execCmd_enters hx]
    exact Ensures.bind (enters_near h hx) fun t ht => insert_near ht fuel ks

end HgXv6
