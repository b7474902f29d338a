import HgXv6.Console.CopyText
import HgXv6.Console.Unbuffered

set_option relaxedAutoImplicit false
set_option autoImplicit false

/-!
# Typing and erasing

A byte that is typed is echoed as the mode asks: not at all, in one cell, or in four if it is a
tab. Erasing a byte moves the cursor back by one cell whatever the byte was and whether it was
echoed or not. The two agree if every byte on the line has been echoed in one cell.

The sequences in question are those typed on one line of a console that buffers: nothing is
committed, and the editing keys among the bytes take back bytes of the sequence only.

## Main definitions

* `HgXv6.acceptedBytes`, `HgXv6.erases` — what a list of events has stored and taken back.
* `HgXv6.Balanced` — only bytes of the list itself are taken back.
* `HgXv6.ErasesBack` — erasing what is left of a sequence brings the cursor back.
* `HgXv6.EchoesMatch` — the condition for it.

## Main results

* `HgXv6.consoleintr_typed` — the cursor after a sequence, from its events.
* `HgXv6.backspaces_pos`, `HgXv6.killLine_pos` — the cursor after it has been erased.
* `HgXv6.erasesBack_iff` — the condition is exact.
-/

namespace HgXv6

open Prog Prog.Ring

/-! ## Events of a line -/

/-- The bytes that have been accepted. -/
def acceptedBytes : List Event → List UInt8
  | [] => []
  | .accept b :: evs => b :: acceptedBytes evs
  | _ :: evs => acceptedBytes evs

/-- How many bytes have been erased. -/
def erases (evs : List Event) : ℕ := evs.count .erase

/-- With `k` bytes of a sequence on the line, the events take back only bytes of it. -/
def Balanced : ℕ → List Event → Prop
  | _, [] => True
  | k, .accept _ :: evs => Balanced (k + 1) evs
  | k, .erase :: evs => 0 < k ∧ Balanced (k - 1) evs
  | k, _ :: evs => Balanced k evs

/-- The cursor after an event: what is accepted is drawn or not, and an erasure goes back. -/
def cursorMove (showAtonce : ℤ) (pos : ℕ) : Event → ℕ
  | .accept b => if showAtonce = 0 then pos else drawPos (.byte b) pos
  | .erase => pos - 1
  | _ => pos

/-- Nothing but bytes other than newlines, and erasures. -/
def LineOnly (evs : List Event) : Prop :=
  ∀ ev ∈ evs, (∃ b, ev = .accept b ∧ b ≠ NL) ∨ ev = .erase

@[simp] theorem balanced_nil (k : ℕ) : Balanced k [] := trivial

@[simp] theorem balanced_accept (k : ℕ) (b : UInt8) (evs : List Event) :
    Balanced k (.accept b :: evs) ↔ Balanced (k + 1) evs := Iff.rfl

@[simp] theorem balanced_erase (k : ℕ) (evs : List Event) :
    Balanced k (.erase :: evs) ↔ 0 < k ∧ Balanced (k - 1) evs := Iff.rfl

theorem cursorMove_accept (showAtonce : ℤ) (pos : ℕ) (b : UInt8) :
    cursorMove showAtonce pos (.accept b) =
      if showAtonce = 0 then pos else drawPos (.byte b) pos := rfl

theorem cursorMove_erase (showAtonce : ℤ) (pos : ℕ) :
    cursorMove showAtonce pos .erase = pos - 1 := rfl

/-- The first event of a line. -/
theorem LineOnly.cons {ev : Event} {evs : List Event} (h : LineOnly (ev :: evs)) :
    ((∃ b, ev = .accept b ∧ b ≠ NL) ∨ ev = .erase) ∧ LineOnly evs :=
  ⟨h ev List.mem_cons_self, fun ev' h' => h ev' (List.mem_cons_of_mem _ h')⟩

theorem LineOnly.append {evs evs' : List Event} (h : LineOnly evs) (h' : LineOnly evs') :
    LineOnly (evs ++ evs') := by
  intro ev hev
  rcases List.mem_append.mp hev with hev | hev
  · exact h ev hev
  · exact h' ev hev

@[simp] theorem acceptedBytes_accept (b : UInt8) (evs : List Event) :
    acceptedBytes (.accept b :: evs) = b :: acceptedBytes evs := rfl

@[simp] theorem acceptedBytes_erase (evs : List Event) :
    acceptedBytes (.erase :: evs) = acceptedBytes evs := rfl

@[simp] theorem erases_nil : erases [] = 0 := rfl

@[simp] theorem erases_accept (b : UInt8) (evs : List Event) :
    erases (.accept b :: evs) = erases evs := by
  simp [erases]

@[simp] theorem erases_erase (evs : List Event) : erases (.erase :: evs) = erases evs + 1 := by
  simp [erases]

/-- No more is taken back than there is. -/
theorem Balanced.erases_le {k : ℕ} {evs : List Event} (h : Balanced k evs) (hl : LineOnly evs) :
    erases evs ≤ k + (acceptedBytes evs).length := by
  induction evs generalizing k with
  | nil => simp
  | cons ev evs ih =>
    obtain ⟨⟨b, rfl, -⟩ | rfl, hl'⟩ := hl.cons
    · have hle := ih h hl'
      simp only [erases_accept, acceptedBytes_accept, List.length_cons]
      omega
    · have hle := ih h.2 hl'
      have hk := h.1
      simp only [erases_erase, acceptedBytes_erase]
      omega

/-- The cursor after a sequence that is echoed: every byte has moved it on by one cell, tabs by
three more, and every erasure has taken one back. -/
theorem foldl_cursorMove_echo {showAtonce : ℤ} (hshow : showAtonce ≠ 0) {k pos : ℕ}
    {evs : List Event} (h : Balanced k evs) (hl : LineOnly evs) (hk : k ≤ pos) :
    evs.foldl (cursorMove showAtonce) pos + erases evs =
      pos + (acceptedBytes evs).length + 3 * (acceptedBytes evs).count TAB := by
  induction evs generalizing k pos with
  | nil => simp [acceptedBytes]
  | cons ev evs ih =>
    obtain ⟨⟨b, rfl, hnl⟩ | rfl, hl'⟩ := hl.cons
    · rw [List.foldl_cons, cursorMove_accept, if_neg hshow, erases_accept, acceptedBytes_accept,
        List.length_cons, List.count_cons]
      have hlt := lt_drawPos b pos
      rw [ih h hl' (by omega)]
      by_cases htab : b = TAB
      · rw [htab, drawPos_tab, if_pos (by decide)]
        ring
      · rw [drawPos_char hnl htab, if_neg (by simpa using htab)]
        ring
    · have hk' := h.1
      have hpred : k - 1 ≤ pos - 1 := by omega
      have hback := ih h.2 hl' hpred
      rw [List.foldl_cons, cursorMove_erase, erases_erase, acceptedBytes_erase]
      omega

/-- The cursor after a sequence that is not echoed: every erasure has moved it back. -/
theorem foldl_cursorMove_silent {pos : ℕ} {evs : List Event} (hl : LineOnly evs) :
    evs.foldl (cursorMove 0) pos = pos - erases evs := by
  induction evs generalizing pos with
  | nil => simp
  | cons ev evs ih =>
    obtain ⟨⟨b, rfl, hnl⟩ | rfl, hl'⟩ := hl.cons
    · rw [List.foldl_cons, cursorMove_accept, if_pos rfl, erases_accept, ih hl']
    · rw [List.foldl_cons, cursorMove_erase, erases_erase, ih hl']
      omega

/-- The length of the line after a sequence. -/
theorem Balanced.length_pending {k : ℕ} {evs : List Event} (h : Balanced k evs)
    (hl : LineOnly evs) {l : Line} (hk : k ≤ l.pending.length) :
    (l.after evs).pending.length + erases evs =
      l.pending.length + (acceptedBytes evs).length := by
  induction evs generalizing k l with
  | nil => simp [acceptedBytes]
  | cons ev evs ih =>
    obtain ⟨⟨b, rfl, hnl⟩ | rfl, hl'⟩ := hl.cons
    · have hlen : (l.apply (.accept b)).pending.length = l.pending.length + 1 := by
        simp [Line.apply]
      rw [Line.after_cons, erases_accept, acceptedBytes_accept, List.length_cons,
        ih h hl' (by omega), hlen]
      omega
    · have hk' := h.1
      have hlen : (l.apply .erase).pending.length = l.pending.length - 1 := by
        simp [Line.apply]
      have hrest := ih (l := l.apply .erase) h.2 hl' (by omega)
      rw [Line.after_cons, erases_erase, acceptedBytes_erase]
      omega

/-- No newline comes on the line. -/
theorem LineOnly.not_mem_pending {evs : List Event} (hl : LineOnly evs) {l : Line}
    (h : NL ∉ l.pending) : NL ∉ (l.after evs).pending := by
  induction evs generalizing l with
  | nil => exact h
  | cons ev evs ih =>
    obtain ⟨⟨b, rfl, hnl⟩ | rfl, hl'⟩ := hl.cons
    · refine ih hl' ?_
      simp only [Line.apply, List.mem_append, List.mem_singleton, not_or]
      exact ⟨h, Ne.symm hnl⟩
    · exact ih hl' fun hmem => h (List.dropLast_subset _ hmem)

/-! ## Typing -/

/-- What the handler does to the console on one line, without a scroll. -/
structure Typed (s s' : Console) (evs : List Event) : Prop where
  bufferFlag : s'.bufferFlag = s.bufferFlag
  showAtonce : s'.showAtonce = s.showAtonce
  pos : s'.cga.pos = evs.foldl (cursorMove s.showAtonce) s.cga.pos
  lt : s'.cga.pos < 25 * 80
  line : LineOnly evs

/-- Nothing done. -/
theorem Typed.refl {s : Console} (h : s.cga.pos < 25 * 80) : Typed s s [] :=
  ⟨rfl, rfl, rfl, h, by simp [LineOnly]⟩

theorem Typed.trans {s t u : Console} {evs evs' : List Event} (h : Typed s t evs)
    (h' : Typed t u evs') : Typed s u (evs ++ evs') where
  bufferFlag := h'.bufferFlag.trans h.bufferFlag
  showAtonce := h'.showAtonce.trans h.showAtonce
  pos := by rw [List.foldl_append, ← h.pos, h'.pos, h.showAtonce]
  lt := h'.lt
  line := h.line.append h'.line

/-- A backspace does not scroll. -/
theorem cgaputc_backspace {s : Cga} (h : s.pos < 25 * 80) :
    ∃ s', cgaputc .backspace s = .ok s' ∧ s'.pos = s.pos - 1 ∧ s'.scrolls = s.scrolls := by
  have hdraw : drawPos .backspace s.pos = s.pos - 1 := rfl
  refine ⟨_, cgaputc_eq (by omega), ?_, ?_⟩
  · rw [if_neg (by omega)]
    simp [Cga.blank, hdraw]
  · rw [if_neg (by omega)]
    simp [Cga.blank]

/-- Erasing one byte. -/
theorem eraseOne_typed {s : Console} (h : s.cga.pos < 25 * 80) :
    ∃ cga, eraseOne s =
        .ok ({ s with input := { s.input with e := s.input.e - 1 }, cga := cga }, [.erase]) ∧
      cga.pos = s.cga.pos - 1 ∧ cga.scrolls = s.cga.scrolls ∧
      Typed s { s with input := { s.input with e := s.input.e - 1 }, cga := cga } [.erase] := by
  obtain ⟨cga, hcga, hpos, hscr⟩ := cgaputc_backspace h
  refine ⟨cga, by rw [eraseOne, consputc, hcga, ok_bind], hpos, hscr, rfl, rfl, ?_, ?_, ?_⟩
  · exact hpos
  · dsimp only
    omega
  · simp [LineOnly]

/-- Killing the line. -/
theorem killLine_typed (n : ℕ) {s s' : Console} {evs : List Event} (h : s.cga.pos < 25 * 80)
    (hs : killLine n s = .ok (s', evs)) :
    Typed s s' evs ∧ s'.cga.scrolls = s.cga.scrolls := by
  induction n generalizing s evs with
  | zero =>
    cases hs
    exact ⟨Typed.refl h, rfl⟩
  | succ n ih =>
    simp only [killLine] at hs
    split_ifs at hs
    · obtain ⟨cga, hone, hpos, hscr, htyped⟩ := eraseOne_typed h
      rw [hone, ok_bind] at hs
      obtain ⟨⟨t, evs'⟩, ht, hs⟩ := bind_eq_ok.mp hs
      cases hs
      obtain ⟨htyped', hscr'⟩ := ih htyped.lt ht
      exact ⟨htyped.trans htyped', hscr'.trans hscr⟩
    · cases hs
      exact ⟨Typed.refl h, rfl⟩

/-- One pass of the handler that commits nothing and does not scroll.

**Proof sketch.** By the branches of the handler. An editing key erases what `killLine_typed` and
`eraseOne_typed` say, or nothing. A byte that is accepted moves the cursor by what its echo takes,
as long as the echo does not scroll, or leaves it alone while echoing is off; it cannot be a
newline, which would commit the line. -/
theorem consoleintrByte_typed {c : UInt8} {s s' : Console} {evs : List Event}
    (h : s.cga.pos < 25 * 80) (hs : consoleintrByte c s = .ok (s', evs))
    (hcommit : .commit ∉ evs) (hscr : s'.cga.scrolls = s.cga.scrolls) : Typed s s' evs := by
  unfold consoleintrByte at hs
  split_ifs at hs with h1 h2 h3 h4
  · cases hs
    exact Typed.refl h
  · exact (killLine_typed _ h hs).1
  · obtain ⟨cga, hone, -, -, htyped⟩ := eraseOne_typed h
    rw [hone] at hs
    cases hs
    exact htyped
  · cases hs
    exact Typed.refl h
  · obtain ⟨-, hx⟩ | ⟨-, cga, hcga, ⟨-, hx⟩ | ⟨hnow, hx⟩⟩ := acceptCase_cases hs
    · cases hx
      exact Typed.refl h
    · cases hx
      exact absurd (by simp) hcommit
    · cases hx
      have hnl : stored c ≠ NL := fun hnl => hnow (.inr (.inl hnl))
      have hcur : cga.pos = cursorMove s.showAtonce s.cga.pos (.accept (stored c)) ∧
          cga.pos < 25 * 80 := by
        rw [cursorMove_accept]
        by_cases hshow : s.showAtonce = 0
        · rw [if_neg (not_not.mpr hshow)] at hcga
          cases hcga
          rw [if_pos hshow]
          exact ⟨rfl, h⟩
        · rw [if_pos hshow] at hcga
          rw [if_neg hshow]
          exact cgaputc_drawPos hcga hscr
      exact ⟨rfl, rfl, hcur.1, hcur.2, by simpa [LineOnly] using hnl⟩

/-- Killing a line takes no scroll back. -/
theorem killLine_scrolls_le (n : ℕ) (s : Console) :
    Ensures (killLine n s) fun x => s.cga.scrolls ≤ x.1.cga.scrolls := by
  induction n generalizing s with
  | zero => simp [killLine]
  | succ n ih =>
    simp only [killLine]
    split_ifs
    · refine Ensures.bind (P := fun x => s.cga.scrolls ≤ x.1.cga.scrolls) ?_ fun x hx => ?_
      · refine Ensures.bind (P := fun cga => s.cga.scrolls ≤ cga.scrolls) ?_ fun cga hcga => ?_
        · exact fun cga hcga => cgaputc_scrolls_le hcga
        · simpa using hcga
      · refine Ensures.bind (ih x.1) fun y hy => ?_
        simpa using hx.trans hy
    · simp

/-- The handler takes no scroll back. -/
theorem consoleintrByte_scrolls_le (c : UInt8) (s : Console) :
    Ensures (consoleintrByte c s) fun x => s.cga.scrolls ≤ x.1.cga.scrolls := by
  unfold consoleintrByte
  split_ifs
  · simp
  · exact killLine_scrolls_le _ s
  · refine Ensures.bind (P := fun cga => s.cga.scrolls ≤ cga.scrolls) ?_ fun cga hcga => ?_
    · exact fun cga hcga => cgaputc_scrolls_le hcga
    · simpa using hcga
  · simp
  · intro x hx
    obtain ⟨-, rfl⟩ | ⟨-, cga, hcga, hx⟩ := acceptCase_cases hx
    · exact le_rfl
    · have hle : s.cga.scrolls ≤ cga.scrolls := by
        split_ifs at hcga
        · exact cgaputc_scrolls_le hcga
        · cases hcga
          exact le_rfl
      obtain ⟨-, rfl⟩ | ⟨-, rfl⟩ := hx
      · exact hle
      · exact hle

/-- Nor does it for several bytes. -/
theorem consoleintr_scrolls_le (cs : List UInt8) (s : Console) :
    Ensures (consoleintr cs s) fun x => s.cga.scrolls ≤ x.1.cga.scrolls := by
  induction cs generalizing s with
  | nil => simp [consoleintr]
  | cons c cs ih =>
    refine Ensures.bind (consoleintrByte_scrolls_le c s) fun x hx => ?_
    refine Ensures.bind (ih x.1) fun y hy => ?_
    simpa using hx.trans hy

/-- **Typing.** A sequence of bytes that commits nothing and does not scroll.

**Proof sketch.** Induction on the bytes. The number of scrolls never goes down, so if it is the
same at the end then no pass has scrolled, and `consoleintrByte_typed` applies to the first byte and
the induction hypothesis to the others. -/
theorem consoleintr_typed {cs : List UInt8} {s s' : Console} {evs : List Event}
    (h : s.cga.pos < 25 * 80) (hs : consoleintr cs s = .ok (s', evs))
    (hcommit : .commit ∉ evs) (hscr : s'.cga.scrolls = s.cga.scrolls) : Typed s s' evs := by
  induction cs generalizing s evs with
  | nil =>
    cases hs
    exact Typed.refl h
  | cons c cs ih =>
    obtain ⟨⟨t, evs₁⟩, ht, hs⟩ := bind_eq_ok.mp hs
    obtain ⟨⟨u, evs₂⟩, hu, hs⟩ := bind_eq_ok.mp hs
    cases hs
    simp only [List.mem_append, not_or] at hcommit
    change u.cga.scrolls = s.cga.scrolls at hscr
    have hle₁ : s.cga.scrolls ≤ t.cga.scrolls := consoleintrByte_scrolls_le c s _ ht
    have hle₂ : t.cga.scrolls ≤ u.cga.scrolls := consoleintr_scrolls_le cs t (u, evs₂) hu
    have hfirst := consoleintrByte_typed h ht hcommit.1 (by omega)
    have hscr₂ : u.cga.scrolls = t.cga.scrolls := by omega
    exact hfirst.trans (ih hfirst.lt hu hcommit.2 hscr₂)

/-! ## Which bytes are accepted -/

/-- The bytes that are never stored: NUL and the editing keys. -/
def Ignored (c : UInt8) : Prop := c = NUL ∨ c = ctrl 'U' ∨ c = ctrl 'H' ∨ c = 0x7f

instance (c : UInt8) : Decidable (Ignored c) := inferInstanceAs (Decidable (_ ∨ _))

/-- A ring that is not full has room. -/
theorem HoldsLine.room {s : Input} {l : Line} (h : HoldsLine s l) (hne : s.e ≠ s.r + 128) :
    (s.e - s.r).toNat < INPUT_BUF := by
  have hle := h.dist_le
  refine lt_of_le_of_ne hle fun heq => hne ?_
  have hdist : s.e - s.r = 128 := UInt32.toNat_inj.mp heq
  grind

/-- Events without an accepted byte. -/
theorem acceptedBytes_eq_nil {evs : List Event} (h : ¬Accepts evs) : acceptedBytes evs = [] := by
  induction evs with
  | nil => rfl
  | cons ev evs ih =>
    have hrest : ¬Accepts evs := fun ⟨b, hb⟩ => h ⟨b, List.mem_cons_of_mem _ hb⟩
    cases ev with
    | accept b => exact absurd ⟨b, List.mem_cons_self⟩ h
    | erase => exact ih hrest
    | commit => exact ih hrest
    | take b => exact ih hrest
    | putBack => exact ih hrest

theorem acceptedBytes_append (evs evs' : List Event) :
    acceptedBytes (evs ++ evs') = acceptedBytes evs ++ acceptedBytes evs' := by
  induction evs with
  | nil => rfl
  | cons ev evs ih =>
    cases ev with
    | accept b => simp [ih]
    | erase => exact ih
    | commit => exact ih
    | take b => exact ih
    | putBack => exact ih

/-- Killing the line leaves a ring that is not full. -/
theorem killLine_room (n : ℕ) {s : Console} {l : Line} (h : HoldsLine s.input l)
    (hne : s.input.e ≠ s.input.r + 128) :
    Ensures (killLine n s) fun x => x.1.input.e ≠ x.1.input.r + 128 := by
  induction n generalizing s l with
  | zero => simpa [killLine] using hne
  | succ n ih =>
    simp only [killLine]
    split_ifs with hc
    · have hx : Ensures (eraseOne s) fun x =>
          HoldsLine x.1.input (l.after x.2) ∧ x.1.input.e ≠ x.1.input.r + 128 := by
        intro x hx
        refine ⟨eraseOne_fifo h hc.1 x hx, ?_⟩
        obtain ⟨cga, -, hx⟩ := bind_eq_ok.mp hx
        cases hx
        exact h.not_full (by dsimp only; grind)
      refine Ensures.bind hx fun x hx => ?_
      refine Ensures.bind (ih hx.1 hx.2) fun y hy => ?_
      simpa using hy
    · simpa using hne

/-- One pass of the handler on a ring that is not full: the byte is accepted unless it is NUL or an
editing key.

**Proof sketch.** By the branches of the handler: the editing keys accept nothing and only make
room, NUL is not accepted, and any other byte is, since there is room for it. A byte that fills the
ring commits it, which is excluded. -/
theorem consoleintrByte_accepts {c : UInt8} {s s' : Console} {l : Line} {evs : List Event}
    (h : HoldsLine s.input l) (hne : s.input.e ≠ s.input.r + 128) (hc : c ≠ ctrl 'P')
    (hs : consoleintrByte c s = .ok (s', evs)) (hcommit : .commit ∉ evs) :
    s'.input.e ≠ s'.input.r + 128 ∧ acceptedBytes evs = if Ignored c then [] else [stored c] := by
  unfold consoleintrByte at hs
  rw [if_neg hc] at hs
  split_ifs at hs with h1 h2 h3
  · have hi : Ignored c := .inr (.inl h1)
    rw [if_pos hi]
    exact ⟨killLine_room _ h hne _ hs, acceptedBytes_eq_nil (killLine_delivers _ s _ hs).2⟩
  · have hi : Ignored c := .inr (.inr h2)
    obtain ⟨cga, -, hs⟩ := bind_eq_ok.mp hs
    cases hs
    rw [if_pos hi]
    exact ⟨h.not_full (by dsimp only; grind), rfl⟩
  · have hi : Ignored c := .inr (.inr h2)
    cases hs
    rw [if_pos hi]
    exact ⟨hne, rfl⟩
  · obtain ⟨hno, hx⟩ | ⟨hroom, cga, hcga, ⟨-, hx⟩ | ⟨hnow, hx⟩⟩ := acceptCase_cases hs
    · have hnul : c = NUL := by
        by_contra hnul
        exact hno ⟨hnul, h.room hne⟩
      cases hx
      rw [if_pos (.inl hnul)]
      exact ⟨hne, rfl⟩
    · cases hx
      exact absurd (by simp) hcommit
    · have hi : ¬Ignored c := by
        rintro (hi | hi | hi)
        · exact hroom.1 hi
        · exact h1 hi
        · exact h2 hi
      cases hx
      rw [if_neg hi]
      exact ⟨fun hfull => hnow (.inr (.inr (.inr hfull))), rfl⟩

/-- A sequence of bytes on a ring that is not full. -/
theorem consoleintr_accepts {cs : List UInt8} {s s' : Console} {l : Line} {evs : List Event}
    (h : HoldsLine s.input l) (hne : s.input.e ≠ s.input.r + 128) (hcs : ctrl 'P' ∉ cs)
    (hs : consoleintr cs s = .ok (s', evs)) (hcommit : .commit ∉ evs) :
    acceptedBytes evs = (cs.filter fun c => ¬Ignored c).map stored := by
  induction cs generalizing s l evs with
  | nil =>
    cases hs
    rfl
  | cons c cs ih =>
    obtain ⟨⟨t, evs₁⟩, ht, hs⟩ := bind_eq_ok.mp hs
    obtain ⟨⟨u, evs₂⟩, hu, hs⟩ := bind_eq_ok.mp hs
    cases hs
    simp only [List.mem_append, not_or] at hcommit
    simp only [List.mem_cons, not_or] at hcs
    obtain ⟨hne', hacc⟩ := consoleintrByte_accepts h hne (Ne.symm hcs.1) ht hcommit.1
    have hline := consoleintrByte_fifo c h _ ht
    rw [acceptedBytes_append, hacc, ih hline hne' hcs.2 hu hcommit.2]
    by_cases hi : Ignored c
    · simp [hi]
    · simp [hi]

/-- A full ring, all of it committed, refuses everything.

**Proof sketch.** Nothing is pending, so that Ctrl-U, Ctrl-H and DEL find nothing to erase, and
every other byte is refused by the test `input.e - input.r < INPUT_BUF`. So each pass does nothing,
and the claim follows by induction on the bytes. -/
theorem consoleintr_full {cs : List UInt8} {s : Console} {x : Console × List Event}
    (hc : FullCommitted s.input) (hfull : s.input.e = s.input.r + 128)
    (hs : consoleintr cs s = .ok x) : x = (s, []) := by
  have hbyte : ∀ c, consoleintrByte c s = .ok (s, []) := by
    intro c
    have hew : s.input.e = s.input.w := (hc hfull).symm
    unfold consoleintrByte
    split_ifs with h1 h2 h3 h4
    · rfl
    · rw [hew, UInt32.sub_self]
      rfl
    · exact absurd hew h4
    · rfl
    · rw [acceptCase_eq, if_neg]
      rw [hfull]
      rintro ⟨-, hlt⟩
      have hdist : s.input.r + 128 - s.input.r = 128 := by grind
      rw [hdist] at hlt
      exact absurd hlt (by decide)
  induction cs with
  | nil =>
    cases hs
    rfl
  | cons c cs ih =>
    rw [consoleintr, hbyte, ok_bind] at hs
    obtain ⟨y, hy, hs⟩ := bind_eq_ok.mp hs
    cases hs
    rw [ih hy]

/-! ## Erasing -/

/-- A backspace key with a byte on the line. -/
theorem backspace_pos {c : UInt8} (hc : c = ctrl 'H' ∨ c = 0x7f) {s : Console} {l : Line}
    (h : HoldsLine s.input l) (hpos : s.cga.pos < 25 * 80) (hp : 0 < l.pending.length) :
    ∃ s' l', consoleintrByte c s = .ok (s', [.erase]) ∧ HoldsLine s'.input l' ∧
      l'.pending.length = l.pending.length - 1 ∧ s'.cga.pos = s.cga.pos - 1 := by
  obtain ⟨lo, unread, hf⟩ := h
  have hne : s.input.e ≠ s.input.w := by
    rw [ne_eq, hf.e_eq_w, ← List.length_eq_zero_iff]
    omega
  have h1 : c ≠ ctrl 'P' := by
    rintro rfl
    exact absurd hc (by decide)
  have h2 : c ≠ ctrl 'U' := by
    rintro rfl
    exact absurd hc (by decide)
  obtain ⟨cga, hone, hcur, -, -⟩ := eraseOne_typed hpos
  refine ⟨{ s with input := { s.input with e := s.input.e - 1 }, cga := cga }, l.apply .erase, ?_,
    ⟨lo, unread, hf.erase hne⟩, by simp [Line.apply], hcur⟩
  rw [consoleintrByte, if_neg h1, if_neg h2, if_pos hc, if_pos hne, hone]

/-- Erasing with backspaces.

**Proof sketch.** Induction on the keys. There is a pending byte for each of them, so each removes
one and moves the cursor back by one cell (`backspace_pos`). -/
theorem backspaces_pos {ks : List UInt8} (hks : ∀ c ∈ ks, c = ctrl 'H' ∨ c = 0x7f) {s : Console}
    {l : Line} (h : HoldsLine s.input l) (hpos : s.cga.pos < 25 * 80)
    (hlen : ks.length ≤ l.pending.length) :
    ∃ s' evs, consoleintr ks s = .ok (s', evs) ∧ s'.cga.pos = s.cga.pos - ks.length := by
  induction ks generalizing s l with
  | nil => exact ⟨s, [], rfl, rfl⟩
  | cons c ks ih =>
    rw [List.length_cons] at hlen
    obtain ⟨t, l', ht, hline, hp, hcur⟩ :=
      backspace_pos (hks c List.mem_cons_self) h hpos (by omega)
    obtain ⟨u, evs, hu, hcur'⟩ :=
      ih (fun c' hc' => hks c' (List.mem_cons_of_mem _ hc')) hline (by omega) (by omega)
    refine ⟨u, _, by rw [consoleintr, ht, ok_bind, hu, ok_bind], ?_⟩
    rw [hcur', hcur, List.length_cons]
    omega

/-- The last byte of the line. -/
theorem Fifo.last {s : Input} {l : Line} {lo : ℕ} {unread : List UInt8} (h : Fifo s l lo unread)
    (hp : l.pending ≠ []) : s.buf ((s.e - 1).toNat % INPUT_BUF) = l.pending.getLast hp := by
  have hlen : 0 < l.pending.length := List.length_pos_iff.mpr hp
  have htr : Tracks (s.e - 1) (lo + (unread.length + l.pending.length - 1)) := by
    have he := h.e
    rw [show lo + unread.length + l.pending.length =
      lo + (unread.length + l.pending.length - 1) + 1 by omega] at he
    exact he.pred
  have hget := h.slots.get (unread.length + l.pending.length - 1)
    (by rw [List.length_append]; omega)
  rw [List.getElem_append_right (by omega)] at hget
  rw [htr.slot inputBuf_dvd, hget, List.getLast_eq_getElem]
  congr 1
  omega

/-- Erasing with Ctrl-U.

**Proof sketch.** Induction on the number of pending bytes. None of them is a newline, so the loop
goes on until none is left, and each pass erases the last one and moves the cursor back by one cell.
-/
theorem killLine_pos {s : Console} {l : Line} {lo : ℕ} {unread : List UInt8}
    (h : Fifo s.input l lo unread) (hpos : s.cga.pos < 25 * 80) (hnl : NL ∉ l.pending) {n : ℕ}
    (hn : l.pending.length = n) :
    ∃ s' evs, killLine n s = .ok (s', evs) ∧ s'.cga.pos = s.cga.pos - n := by
  induction n generalizing s l with
  | zero => exact ⟨s, [], rfl, rfl⟩
  | succ n ih =>
    have hp : l.pending ≠ [] := by
      intro hp
      simp [hp] at hn
    have hne : s.input.e ≠ s.input.w := fun he => hp (h.e_eq_w.mp he)
    have hlast : s.input.buf ((s.input.e - 1).toNat % INPUT_BUF) ≠ NL := by
      rw [h.last hp]
      intro he
      exact hnl (he ▸ List.getLast_mem hp)
    obtain ⟨cga, hone, hcur, -, -⟩ := eraseOne_typed hpos
    have herase := h.erase hne
    obtain ⟨u, evs, hu, hcur'⟩ := ih (s := { s with
      input := { s.input with e := s.input.e - 1 }, cga := cga }) herase (by dsimp only; omega)
      (fun hmem => hnl (List.dropLast_subset _ hmem)) (by simp [Line.apply, hn])
    refine ⟨u, _, by rw [killLine, if_pos ⟨hne, hlast⟩, hone, ok_bind, hu, ok_bind], ?_⟩
    rw [hcur', hcur]
    omega

/-- How many bytes of a sequence are still on the line. -/
def remaining (evs : List Event) : ℕ := (acceptedBytes evs).length - erases evs

/-- After a sequence typed from `s₀` to `s₁`, erasing what is left of it brings the cursor back:
with as many backspaces as bytes are left, and, if the line was empty, with Ctrl-U. -/
def ErasesBack (s₀ s₁ : Console) (evs : List Event) : Prop :=
  (∀ ks : List UInt8, ks.length = remaining evs → (∀ c ∈ ks, c = ctrl 'H' ∨ c = 0x7f) →
    ∃ s₂ evs', consoleintr ks s₁ = .ok (s₂, evs') ∧ s₂.cga.pos = s₀.cga.pos) ∧
  (s₀.input.w = s₀.input.e →
    ∃ s₂ evs', consoleintr [ctrl 'U'] s₁ = .ok (s₂, evs') ∧ s₂.cga.pos = s₀.cga.pos)

/-- The echo of the sequence `cs` matches what erasing takes back: nothing is accepted, because
the ring is full or there is nothing to accept; or the bytes are echoed and none is a tab; or they
are not echoed and the cursor cannot go back. -/
def EchoesMatch (s₀ : Console) (cs : List UInt8) : Prop :=
  s₀.input.e = s₀.input.r + 128 ∨ (∀ c ∈ cs, Ignored c) ∨
    if s₀.showAtonce = 0 then s₀.cga.pos = 0 else TAB ∉ cs

instance (s₀ : Console) (cs : List UInt8) : Decidable (EchoesMatch s₀ cs) :=
  inferInstanceAs (Decidable (_ ∨ _))

/-- Erasing what is left of a sequence moves the cursor back by as many cells.

**Proof sketch.** The sequence has erased only bytes of its own, so `remaining evs` bytes of it are
pending. That many backspaces move the cursor back by one cell each (`backspaces_pos`), and so does
Ctrl-U if nothing else is pending (`killLine_pos`). Each of the two therefore ends at `s₁.cga.pos -
remaining evs`, and the keys erase back exactly if that is where the cursor was. -/
theorem erasesBack_iff_pos {s₀ s₁ : Console} {l : Line} {evs : List Event}
    (h₀ : HoldsLine s₀.input l) (h₁ : HoldsLine s₁.input (l.after evs)) (ht : Typed s₀ s₁ evs)
    (hown : Balanced 0 evs) :
    ErasesBack s₀ s₁ evs ↔ s₁.cga.pos - remaining evs = s₀.cga.pos := by
  have hlen := hown.length_pending ht.line (Nat.zero_le l.pending.length)
  have hle := hown.erases_le ht.line
  have hrem : remaining evs ≤ (l.after evs).pending.length := by
    unfold remaining
    omega
  constructor
  · intro h
    have hkeys : ∀ c ∈ List.replicate (remaining evs) (ctrl 'H'), c = ctrl 'H' ∨ c = 0x7f :=
      fun c hc => .inl (List.eq_of_mem_replicate hc)
    have hlen' : (List.replicate (remaining evs) (ctrl 'H')).length = remaining evs := by simp
    obtain ⟨t, evs₁, hrun, hpos⟩ := h.1 _ hlen' hkeys
    obtain ⟨t', evs₂, hrun', hpos'⟩ := backspaces_pos hkeys h₁ ht.lt (by omega)
    rw [hrun] at hrun'
    cases hrun'
    rw [← hpos, hpos', hlen']
  · intro h
    refine ⟨fun ks hks hkeys => ?_, fun hw => ?_⟩
    · obtain ⟨t, evs₁, hrun, hpos⟩ := backspaces_pos hkeys h₁ ht.lt (by omega)
      exact ⟨t, evs₁, hrun, by rw [hpos, hks, h]⟩
    · obtain ⟨lo₀, unread₀, hf₀⟩ := h₀
      have hempty : l.pending = [] := hf₀.e_eq_w.mp hw.symm
      obtain ⟨lo, unread, hf⟩ := h₁
      have hdist : (s₁.input.e - s₁.input.w).toNat = (l.after evs).pending.length :=
        hf.w.sub hf.e (by have := hf.length_lt; omega)
      obtain ⟨t, evs₁, hkill, hpos⟩ := killLine_pos hf ht.lt
        (ht.line.not_mem_pending (by simp [hempty])) hdist.symm
      refine ⟨t, evs₁ ++ [], ?_, ?_⟩
      · rw [consoleintr, consoleintrByte, if_neg (by decide), if_pos rfl, hkill, ok_bind]
        rfl
      · rw [hpos, hdist, ← h]
        rw [hempty, List.length_nil] at hlen
        unfold remaining
        omega

/-- No tab is accepted exactly if none is typed. -/
theorem tab_mem_accepted {cs : List UInt8} :
    TAB ∈ (cs.filter fun c => ¬Ignored c).map stored ↔ TAB ∈ cs := by
  simp only [List.mem_map, List.mem_filter, decide_eq_true_eq]
  constructor
  · rintro ⟨c, ⟨hc, -⟩, heq⟩
    unfold stored at heq
    split_ifs at heq
    · exact absurd heq (by decide)
    · exact heq ▸ hc
  · intro h
    exact ⟨TAB, ⟨h, by decide⟩, by decide⟩

/-- **Echo and erase.** On a console that some schedule has reached, with the cursor anywhere on
the screen, a sequence of bytes is typed on one line while the console buffers: nothing is
committed, the editing keys take back bytes of the sequence only, the screen does not scroll, and
no listing of processes is asked for. Erasing what is left of the sequence brings the cursor back
exactly if its echo matches.

**Proof sketch.** Nothing is accepted by a full ring. Otherwise every byte but the editing keys is
accepted, each moves the cursor on as it is echoed, and each is taken back once, in the sequence or
after it. -/
theorem erasesBack_iff (i : UInt32) (buf : ℕ → UInt8) (cga : Cga) (as : List Action)
    (s : ConsoleSystem) (evs₀ : List Event)
    (hreach : (ConsoleSystem.start i buf cga).run as = .ok (s, evs₀))
    (s₀ s₁ : Console) (hin : s₀.input = s.console.input)
    (hpos : s₀.cga.pos < 25 * 80) (cs : List UInt8) (hcs : ctrl 'P' ∉ cs) (evs : List Event)
    (hrun : consoleintr cs s₀ = .ok (s₁, evs)) (hcommit : .commit ∉ evs)
    (hown : Balanced 0 evs) (hscr : s₁.cga.scrolls = s₀.cga.scrolls) :
    ErasesBack s₀ s₁ evs ↔ EchoesMatch s₀ cs := by
  have hline := fifo_run as (holdsLine_start i buf cga) _ hreach
  have hfull := fullCommitted_run as (holdsLine_start i buf cga) (fun _ => rfl) _ hreach
  dsimp only at hline hfull
  rw [← hin] at hline hfull
  have ht := consoleintr_typed hpos hrun hcommit hscr
  have hline₁ := consoleintr_fifo cs hline _ hrun
  dsimp only at hline₁
  rw [erasesBack_iff_pos hline hline₁ ht hown]
  by_cases hr : s₀.input.e = s₀.input.r + 128
  · -- a full ring takes nothing
    have hsame := consoleintr_full hfull hr hrun
    cases hsame
    refine iff_of_true ?_ (.inl hr)
    simp [remaining, acceptedBytes]
  have hacc := consoleintr_accepts hline hr hcs hrun hcommit
  have hle := hown.erases_le ht.line
  have hnone : (acceptedBytes evs).length = 0 ↔ ∀ c ∈ cs, Ignored c := by
    rw [hacc, List.length_map, List.length_eq_zero_iff, List.filter_eq_nil_iff]
    simp
  have htab : (acceptedBytes evs).count TAB = 0 ↔ TAB ∉ cs := by
    rw [List.count_eq_zero, hacc, tab_mem_accepted]
  unfold EchoesMatch remaining
  rw [← hnone, or_iff_right hr]
  by_cases hshow : s₀.showAtonce = 0
  · have hcur := ht.pos
    rw [hshow, foldl_cursorMove_silent ht.line] at hcur
    rw [if_pos hshow]
    omega
  · have hcur := foldl_cursorMove_echo hshow hown ht.line (Nat.zero_le s₀.cga.pos)
    rw [← ht.pos] at hcur
    have hcount := List.count_le_length (a := TAB) (l := acceptedBytes evs)
    rw [if_neg hshow, ← htab]
    omega

/-- `erasesBack_iff` for two letters, the second of them erased. -/
theorem erasesBack_iff_letters :
    ∃ s₁, consoleintr [97, 98, 0x7f] (ConsoleSystem.start 0 (fun _ => 0) clearedScreen).console =
        .ok (s₁, [.accept 97, .accept 98, .erase]) ∧
      (ErasesBack (ConsoleSystem.start 0 (fun _ => 0) clearedScreen).console s₁
          [.accept 97, .accept 98, .erase] ↔
        EchoesMatch (ConsoleSystem.start 0 (fun _ => 0) clearedScreen).console [97, 98, 0x7f]) :=
  ⟨_, rfl, erasesBack_iff 0 (fun _ => 0) clearedScreen [] _ [] rfl _ _ rfl (by decide)
    [97, 98, 0x7f] (by decide) _ rfl (by decide) (by simp) rfl⟩

/-- A tab that is echoed, and a letter that is not: erasing them leaves the cursor three cells
further, and one cell back. -/
theorem not_erasesBack :
    (∃ s₁, consoleintr [TAB] (ConsoleSystem.start 0 (fun _ => 0) clearedScreen).console =
        .ok (s₁, [.accept TAB]) ∧ s₁.cga.scrolls = clearedScreen.scrolls ∧
      ¬ErasesBack (ConsoleSystem.start 0 (fun _ => 0) clearedScreen).console s₁
        [.accept TAB]) ∧
    ∃ s₁, consoleintr [97] (setShowAtOnce 0
          (ConsoleSystem.start 0 (fun _ => 0) { clearedScreen with pos := 5 }).console) =
        .ok (s₁, [.accept 97]) ∧ s₁.cga.scrolls = clearedScreen.scrolls ∧
      ¬ErasesBack (setShowAtOnce 0
          (ConsoleSystem.start 0 (fun _ => 0) { clearedScreen with pos := 5 }).console) s₁
        [.accept 97] := by
  refine ⟨⟨_, rfl, rfl, fun h => ?_⟩, ⟨_, rfl, rfl, fun h => ?_⟩⟩
  · obtain ⟨t, evs, ht, hpos⟩ := h.1 [0x7f] rfl (List.forall_mem_singleton.mpr (.inr rfl))
    cases ht
    exact absurd hpos (by decide)
  · obtain ⟨t, evs, ht, hpos⟩ := h.1 [0x7f] rfl (List.forall_mem_singleton.mpr (.inr rfl))
    cases ht
    exact absurd hpos (by decide)

end HgXv6
