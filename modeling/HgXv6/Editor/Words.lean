import HgXv6.Editor.Insert
import HgXv6.Editor.Invariant

set_option relaxedAutoImplicit false
set_option autoImplicit false

/-!
# Moving by words

`w`, `e` and `b` step through the text one character at a time until they are at the head, or
behind the tail, of a word. Each of them has another exit besides, at the last character of the
text or at the top of the window, and goes wrong where the other exit is taken too early or is
never reached.

* `w` leaves the loop at the last character. From a cursor behind it, as `x` on the last character
  leaves one, it does not move and does not end.
* `e` leaves the loop at the last character before it looks whether that is a space.
* `b` leaves the loop at the top of the window, and from a cursor there it passes it.

## Main definitions

* `HgXv6.AfterSpace`, `HgXv6.WordHead` — the heads of words.
* `HgXv6.NextWord`, `HgXv6.NextTail`, `HgXv6.PrevWord` — where the commands are meant to go.

## Main results

* `HgXv6.nextWord_iff` — `w`, for every state and in every safe run.
* `HgXv6.nextTail_iff`, `HgXv6.prevWord_iff` — `e` and `b`.
-/

namespace HgXv6

open Prog

variable {W : Type} {m : ℤ → UInt8} {e p q : ℤ} {s : Vi W}

/-! ## Heads of words -/

/-- A character that is not a space, behind one that is. -/
def AfterSpace (m : ℤ → UInt8) (q : ℤ) : Prop := isSpace (m (q - 1)) ∧ ¬isSpace (m q)

instance (m : ℤ → UInt8) (q : ℤ) : Decidable (AfterSpace m q) :=
  inferInstanceAs (Decidable (_ ∧ _))

/-- The head of a word: behind a space or at the start of the text. -/
def WordHead (m : ℤ → UInt8) (q : ℤ) : Prop := ¬isSpace (m q) ∧ (q = 0 ∨ isSpace (m (q - 1)))

instance (m : ℤ → UInt8) (q : ℤ) : Decidable (WordHead m q) :=
  inferInstanceAs (Decidable (_ ∧ _))

/-- Behind the start of the text a word starts behind a space. -/
theorem wordHead_iff (hq : q ≠ 0) : WordHead m q ↔ AfterSpace m q := by
  unfold WordHead AfterSpace
  tauto

/-! ## The next head -/

/-- The exits of the loop of `w`: the last character, and the head of a word. -/
def HeadExit (s : Vi W) : Prop := s.dot = s.endp - 1 ∨ AfterSpace s.mem s.dot

instance (s : Vi W) : Decidable (HeadExit s) := inferInstanceAs (Decidable (_ ∨ _))

/-- `w` steps right until it is at an exit. -/
theorem dotMove2NextWordHead_eq (fuel : ℕ) (s : Vi W) : dotMove2NextWordHead fuel s =
    loopFuel .loops (fun s : Vi W => .ok (dotIncrease s, !decide (HeadExit (dotIncrease s))))
      fuel s := by
  unfold dotMove2NextWordHead
  congr 1
  funext s
  dsimp only
  split_ifs with h1 h2
  · have hexit : HeadExit (dotIncrease s) := .inl h1
    rw [decide_eq_true hexit, Bool.not_true]
  · have hexit : HeadExit (dotIncrease s) := .inr h2
    rw [decide_eq_true hexit, Bool.not_true]
  · have hno : ¬HeadExit (dotIncrease s) := fun hexit => hexit.elim h1 h2
    rw [decide_eq_false hno, Bool.not_false]

/-- A step right before the last character. -/
theorem dotIncrease_of_lt (h : s.dot < s.endp - 1) :
    dotIncrease s = { s with dot := s.dot + 1 } := if_pos h

/-- There is no step right on the last character or behind it. -/
theorem dotIncrease_of_le (h : s.endp - 1 ≤ s.dot) : dotIncrease s = s := if_neg (by omega)

/-- Where `w` goes from a cursor before the last character. -/
def nextHead (s : Vi W) : ℤ :=
  scanUp (fun q => decide (AfterSpace s.mem q)) (s.endp - 1) (s.dot + 1)

/-- The scan goes forward, and not past the last character. -/
theorem nextHead_bounds (h : s.dot < s.endp - 1) :
    s.dot < nextHead s ∧ nextHead s ≤ s.endp - 1 :=
  ⟨le_scanUp _ _ _, scanUp_le _ (by omega)⟩

/-- Before the last character it stops at a head. -/
theorem afterSpace_nextHead (h : nextHead s < s.endp - 1) : AfterSpace s.mem (nextHead s) :=
  of_decide_eq_true (scanUp_stop h)

/-- It passes no head. -/
theorem not_afterSpace_of_lt_nextHead (h1 : s.dot < q) (h2 : q < nextHead s) :
    ¬AfterSpace s.mem q :=
  of_decide_eq_false (scanUp_passed (p := s.dot + 1) (by omega) h2)

/-- Before the last character `w` goes on to the first head behind it, but not past the last
character. -/
theorem nextWordHead_before (h : s.dot < s.endp - 1) :
    Returns (fun fuel => dotMove2NextWordHead fuel s) { s with dot := nextHead s } := by
  obtain ⟨hlo, hhi⟩ := nextHead_bounds h
  have hstart : s = { s with dot := s.dot + ((0 : ℕ) : ℤ) } := by simp
  have hinc : ∀ i : ℕ, s.dot + i < s.endp - 1 → dotIncrease { s with dot := s.dot + i } =
      { s with dot := s.dot + (i + 1 : ℕ) } := fun i hi => by
    rw [dotIncrease_of_lt hi, Nat.cast_succ, ← add_assoc]
  simp only [dotMove2NextWordHead_eq]
  conv in loopFuel _ _ _ s => rw [hstart]
  obtain ⟨n, hn⟩ : ∃ n : ℕ, nextHead s = s.dot + (n + 1 : ℕ) :=
    ⟨(nextHead s - s.dot - 1).toNat, by push_cast; omega⟩
  refine loopFuel_returns_of_steps (fun i : ℕ => { s with dot := s.dot + i })
    (n := n) (fun i hi => ?_) ?_
  · have hlt : s.dot + (i + 1 : ℕ) < nextHead s := by omega
    have hpass : ¬AfterSpace s.mem (s.dot + (i + 1 : ℕ)) :=
      not_afterSpace_of_lt_nextHead (by omega) hlt
    have hgo : ¬HeadExit { s with dot := s.dot + (i + 1 : ℕ) } := by
      rintro (h | h)
      · dsimp only at h
        omega
      · exact hpass h
    rw [hinc i (by omega), decide_eq_false hgo, Bool.not_false]
  · have hexit : HeadExit { s with dot := nextHead s } := by
      by_cases hlt : nextHead s < s.endp - 1
      · exact .inr (afterSpace_nextHead hlt)
      · exact .inl (by dsimp only; omega)
    rw [hinc n (by omega), ← hn, decide_eq_true hexit, Bool.not_true]

/-- From the last character on `w` does not move, and returns if it is at an exit. -/
theorem nextWordHead_stays (h : s.endp - 1 ≤ s.dot) (hexit : HeadExit s) :
    Returns (fun fuel => dotMove2NextWordHead fuel s) s := by
  simp only [dotMove2NextWordHead_eq]
  refine loopFuel_returns_of_stop ?_
  rw [dotIncrease_of_le h, decide_eq_true hexit, Bool.not_true]

/-- Elsewhere it does not end. -/
theorem nextWordHead_diverges (h : s.endp - 1 ≤ s.dot) (hexit : ¬HeadExit s) (fuel : ℕ) :
    dotMove2NextWordHead fuel s = .error .loops := by
  rw [dotMove2NextWordHead_eq]
  refine loopFuel_diverges (fun t => t = s) ?_ fuel s rfl
  rintro _ rfl
  exact ⟨_, by rw [dotIncrease_of_le h, decide_eq_false hexit, Bool.not_false], rfl⟩

/-- `w` goes to the first head behind the cursor, or to the last character if there is none, or to
the start of an empty text. -/
def NextWord (s : Vi W) : Prop :=
  ∃ d, Returns (fun fuel => dotMove2NextWordHead fuel s) { s with dot := d } ∧
    (IsLeast {q | 0 ≤ q ∧ s.dot < q ∧ q < s.endp ∧ AfterSpace s.mem q} d ∨
      (∀ q, 0 ≤ q → s.dot < q → q < s.endp → ¬AfterSpace s.mem q) ∧ d = max (s.endp - 1) 0)

/-- The states in which `w` does what it is meant to: the cursor is on a character, and it passes
no head below the text; or the text is empty, and its start passes for a head. -/
def NextWordFits (s : Vi W) : Prop :=
  (0 < s.endp ∧ s.dot < s.endp ∧ ∀ q, s.dot < q → q < 0 → ¬AfterSpace s.mem q) ∨
    (s.endp ≤ 0 ∧ s.dot = 0 ∧ AfterSpace s.mem 0)

/-- Before the last character `w` does what it is meant to, if it passes no head below the text. -/
theorem nextWord_before (h0 : 0 < s.endp) (h : s.dot < s.endp - 1)
    (hlow : ∀ q, s.dot < q → q < 0 → ¬AfterSpace s.mem q) : NextWord s := by
  obtain ⟨hlo, hhi⟩ := nextHead_bounds h
  refine ⟨_, nextWordHead_before h, ?_⟩
  by_cases hhead : AfterSpace s.mem (nextHead s)
  · refine .inl ⟨⟨?_, by omega, by omega, hhead⟩, fun q hq => ?_⟩
    · by_contra hneg
      exact hlow _ (by omega) (by omega) hhead
    · by_contra hlt
      exact not_afterSpace_of_lt_nextHead hq.2.1 (not_le.mp hlt) hq.2.2.2
  · have hlast : nextHead s = s.endp - 1 := by
      by_contra hne
      exact hhead (afterSpace_nextHead (by omega))
    refine .inr ⟨fun q _ h1 h2 => ?_, by omega⟩
    rcases (show q ≤ nextHead s by omega).eq_or_lt with rfl | hlt
    · exact hhead
    · exact not_afterSpace_of_lt_nextHead h1 hlt

/-- A head below the text, behind a cursor below the text, stops `w` there. -/
theorem not_nextWord_below (h : s.dot < s.endp - 1) (hq : s.dot < q) (hneg : q < 0)
    (hhead : AfterSpace s.mem q) : ¬NextWord s := by
  rintro ⟨d, hd, hright⟩
  have heq := congrArg Vi.dot ((nextWordHead_before h).unique hd)
  dsimp only at heq
  have hle : nextHead s ≤ q := by
    by_contra hlt
    exact not_afterSpace_of_lt_nextHead hq (not_le.mp hlt) hhead
  rcases hright with hleast | ⟨-, hlast⟩
  · have := hleast.1.1
    omega
  · omega

/-- Where `w` does not move and returns, it does what it is meant to if this is the last character,
or the start of an empty text. -/
theorem nextWord_stays (h : s.endp - 1 ≤ s.dot) (hexit : HeadExit s) :
    NextWord s ↔ s.dot = max (s.endp - 1) 0 := by
  have hstays := nextWordHead_stays h hexit
  constructor
  · rintro ⟨d, hd, hright⟩
    have heq := congrArg Vi.dot (hstays.unique hd)
    dsimp only at heq
    rcases hright with hleast | ⟨-, hlast⟩
    · have := hleast.1.2.1
      omega
    · exact heq.trans hlast
  · intro hdot
    exact ⟨s.dot, hstays, .inr ⟨fun q _ h1 h2 => by omega, hdot⟩⟩

/-- `w` does what it is meant to exactly in these states. -/
theorem nextWord_iff_fits (s : Vi W) : NextWord s ↔ NextWordFits s := by
  unfold NextWordFits
  rcases lt_trichotomy s.dot (s.endp - 1) with h | h | h
  · constructor
    · intro hnext
      refine .inl ⟨?_, by omega, fun q h1 h2 hhead => not_nextWord_below h h1 h2 hhead hnext⟩
      by_contra he
      obtain ⟨d, hd, hright⟩ := hnext
      have hhi := (nextHead_bounds h).2
      have heq := congrArg Vi.dot ((nextWordHead_before h).unique hd)
      dsimp only at heq
      rcases hright with hleast | ⟨-, hlast⟩
      · have := hleast.1.1
        omega
      · omega
    · rintro (⟨h0, -, hlow⟩ | ⟨he, hdot, -⟩)
      · exact nextWord_before h0 h hlow
      · omega
  · rw [nextWord_stays h.ge (.inl h)]
    constructor
    · intro hdot
      exact .inl ⟨by omega, by omega, fun q h1 h2 => by omega⟩
    · rintro (⟨h0, -, -⟩ | ⟨he, hdot, -⟩)
      · omega
      · omega
  · by_cases hhead : AfterSpace s.mem s.dot
    · rw [nextWord_stays h.le (.inr hhead)]
      constructor
      · intro hmax
        have hdot : s.dot = 0 := by omega
        exact .inr ⟨by omega, hdot, hdot ▸ hhead⟩
      · rintro (⟨-, hlt, -⟩ | ⟨he, hdot, -⟩)
        · omega
        · omega
    · have hexit : ¬HeadExit s := fun hx => hx.elim (by omega) hhead
      refine iff_of_false ?_ ?_
      · rintro ⟨d, hd, -⟩
        exact not_returns_of_error (nextWordHead_diverges h.le hexit) _ hd
      · rintro (⟨-, hlt, -⟩ | ⟨-, hdot, hhead'⟩)
        · omega
        · exact hhead (hdot ▸ hhead')

/-- **The next word.** `w` does what it is meant to exactly from a cursor on a character (that
passes no head below the text), or from the start of an empty text that passes for a head. In a run
of safe commands it does as long as the text is not empty.

**Proof sketch.** The loop of `w` goes forward until it is at the head of a word or at the end of
the text. From a cursor on a character it ends there; from a cursor behind them it misses the test
for the end and does not stop in the text. In a run of safe commands the cursor is on a character by
the invariant (`valid_run`). -/
theorem nextWord_iff (sys : Sys W) : (∀ s : Vi W, NextWord s ↔ NextWordFits s) ∧
    ∀ (fn : List UInt8) (s : Vi W) (ks : List Read) (y : Config W), Opens sys fn s →
      RunIf sys Config.Safe ⟨none, ks, s⟩ y → 0 < y.vi.endp → NextWord y.vi := by
  refine ⟨nextWord_iff_fits, fun fn s ks y hs hrun h0 => ?_⟩
  have hvalid := valid_run hs hrun
  have hsb := hvalid.screenbegin_nonneg
  have hle := hvalid.screenbegin_le
  have hdot := hvalid.dot_le h0
  exact (nextWord_iff_fits y.vi).mpr (.inl ⟨h0, by omega, fun q h1 h2 => by omega⟩)

/-- `nextWord_iff` for a file of two words, and after `l` in it. -/
theorem nextWord_iff_two : NextWord (smallFile (str "a b")) ∧
    ∃ s y, Opens (readOnly (str "a b")) (str "f") s ∧
      RunIf (readOnly (str "a b")) Config.Safe ⟨none, [.byte (chr 'l')], s⟩ y ∧
      y.vi.dot = 1 ∧ NextWord y.vi := by
  obtain ⟨s, y, hs, hy, hf⟩ := session_run (readOnly (str "a b")) 20 1 (str "f")
    [.byte (chr 'l')] ()
    (P := fun s y => s.editing = true ∧ y.vi.dot = 1 ∧ 0 < y.vi.endp) (by decide +kernel)
  have hsafe : Config.Safe ⟨none, [.byte (chr 'l')], s⟩ := by
    rintro r ks ⟨⟩
    exact ⟨fun h => h.elim, fun c h => h.elim, fun h => h.elim⟩
  have hrun : RunIf (readOnly (str "a b")) Config.Safe ⟨none, [.byte (chr 'l')], s⟩ y :=
    .single ⟨mainRun_step hf.1 hy, hsafe⟩
  exact ⟨((nextWord_iff (readOnly (str "a b"))).1 _).mpr
      (.inl ⟨by decide, by decide, fun q h1 h2 => absurd (h1.trans h2) (by decide)⟩),
    s, y, hs, hrun, hf.2.1, (nextWord_iff (readOnly (str "a b"))).2 _ s _ y hs hrun hf.2.2⟩

/-- `w` does not end in an empty file, and not from the cursor that `x` on the last character
leaves. -/
theorem not_forall_nextWord : ∃ s s' y', Opens (readOnly []) (str "f") s ∧ ¬NextWord s ∧
    Opens (readOnly (str "ab")) (str "f") s' ∧
    Run (readOnly (str "ab")) ⟨none, [.byte (chr 'l'), .byte (chr 'x')], s'⟩ y' ∧
    0 < y'.vi.endp ∧ ¬NextWord y'.vi := by
  obtain ⟨s, y, hs, hy, hf⟩ := session_run (readOnly []) 20 0 (str "f") [] ()
    (P := fun s _ => s.endp = 0 ∧ s.dot = 0 ∧ ¬AfterSpace s.mem 0) (by decide +kernel)
  obtain ⟨s', y', hs', hy', hf'⟩ := session_run (readOnly (str "ab")) 20 2 (str "f")
    [.byte (chr 'l'), .byte (chr 'x')] ()
    (P := fun _ y => y.vi.dot = 1 ∧ y.vi.endp = 1) (by decide +kernel)
  refine ⟨s, s', y', hs, ?_, hs', mainRun_run hy', by omega, ?_⟩
  · rw [nextWord_iff_fits]
    rintro (⟨h0, -⟩ | ⟨-, -, hhead⟩)
    · omega
    · exact hf.2.2 hhead
  · rw [nextWord_iff_fits]
    rintro (⟨-, hlt, -⟩ | ⟨he, -⟩)
    · omega
    · omega

/-! ## The next tail -/

/-- A space behind a character that is not one. -/
def BehindWord (m : ℤ → UInt8) (q : ℤ) : Prop := ¬isSpace (m (q - 1)) ∧ isSpace (m q)

instance (m : ℤ → UInt8) (q : ℤ) : Decidable (BehindWord m q) :=
  inferInstanceAs (Decidable (_ ∧ _))

/-- Where the second loop of `e` stops, from `p` on. -/
def behindStop (m : ℤ → UInt8) (e p : ℤ) : ℤ :=
  scanUp (fun q => decide (BehindWord m q)) (e - 1) p

/-- The scan does not go back, and not past the last character. -/
theorem behindStop_bounds (h : p ≤ e - 1) : p ≤ behindStop m e p ∧ behindStop m e p ≤ e - 1 :=
  ⟨le_scanUp _ _ _, scanUp_le _ h⟩

/-- Before the last character it stops behind a word. -/
theorem behindWord_behindStop (h : behindStop m e p < e - 1) : BehindWord m (behindStop m e p) :=
  of_decide_eq_true (scanUp_stop h)

/-- It passes the end of no word. -/
theorem not_behindWord_of_lt_behindStop (h1 : p ≤ q) (h2 : q < behindStop m e p) :
    ¬BehindWord m q :=
  of_decide_eq_false (scanUp_passed h1 h2)

/-- From behind the start of the text `e` goes on to the last character of a word, or to the last
character of the text if the loop gets there. -/
theorem nextWordTail_before (h0 : 0 ≤ s.dot) (h : s.dot < s.endp - 1) :
    Returns (fun fuel => dotMove2NextWordTail fuel s) { s with
      dot := if behindStop s.mem s.endp (nextHead s) = s.endp - 1 then s.endp - 1
        else behindStop s.mem s.endp (nextHead s) - 1 } := by
  obtain ⟨hlo, hhi⟩ := nextHead_bounds h
  refine (nextWordHead_before h).bind ?_
  generalize nextHead s = p at hlo hhi ⊢
  obtain ⟨hlo', hhi'⟩ := behindStop_bounds (m := s.mem) hhi
  obtain ⟨n, hn⟩ : ∃ n : ℕ, behindStop s.mem s.endp p = p + n :=
    ⟨(behindStop s.mem s.endp p - p).toNat, by omega⟩
  have hstart : { s with dot := p } = { s with dot := p + ((0 : ℕ) : ℤ) } := by simp
  rw [hstart]
  refine loopFuel_returns_of_steps (fun i : ℕ => { s with dot := p + i })
    (n := n) (fun i hi => ?_) ?_
  · have hlt : p + i < behindStop s.mem s.endp p := by omega
    have hpass : ¬BehindWord s.mem (p + i) :=
      not_behindWord_of_lt_behindStop (by omega) hlt
    unfold BehindWord at hpass
    dsimp only
    rw [if_neg (by omega), if_neg hpass, dotIncrease_of_lt (by dsimp only; omega), Nat.cast_succ,
      ← add_assoc]
  · dsimp only
    rw [hn]
    split_ifs with hlast hbehind
    · rw [hlast]
    · rw [dotDecrease, if_pos (by dsimp only; omega)]
    · have hbehind' := behindWord_behindStop (m := s.mem) (e := s.endp) (p := p) (by omega)
      rw [hn] at hbehind'
      exact absurd hbehind' hbehind

/-- `e` goes to the last character of the word that starts at `p`. -/
def NextTail (s : Vi W) (p : ℤ) : Prop :=
  ∃ d, Returns (fun fuel => dotMove2NextWordTail fuel s) { s with dot := d } ∧
    p ≤ d ∧ d < s.endp ∧ (∀ q, p ≤ q → q ≤ d → ¬isSpace (s.mem q)) ∧
    (d + 1 = s.endp ∨ isSpace (s.mem (d + 1)))

/-- The scan for a head finds the first one. -/
theorem nextHead_of_isLeast
    (hp : IsLeast {q | s.dot < q ∧ q < s.endp ∧ AfterSpace s.mem q} p) : nextHead s = p := by
  obtain ⟨⟨h1, h2, h3⟩, hleast⟩ := hp
  obtain ⟨hlo, hhi⟩ := nextHead_bounds (s := s) (by omega)
  rcases lt_trichotomy (nextHead s) p with hlt | heq | hgt
  · have := hleast ⟨hlo, by omega, afterSpace_nextHead (by omega)⟩
    omega
  · exact heq
  · exact absurd h3 (not_afterSpace_of_lt_nextHead h1 hgt)

/-- From a head on, no space comes before the place where the second loop stops. -/
theorem not_isSpace_of_lt_behindStop (hp : ¬isSpace (m p)) (h1 : p ≤ q)
    (h2 : q < behindStop m e p) : ¬isSpace (m q) := by
  induction q, h1 using Int.leInduction with
  | base => exact hp
  | succ q hq ih =>
    have hpass : ¬BehindWord m (q + 1) := not_behindWord_of_lt_behindStop (by omega) h2
    intro hspace
    exact hpass ⟨by rw [add_sub_cancel_right]; exact ih (by omega), hspace⟩

/-- **The next tail.** If there is a head behind the cursor, `e` goes to the last character of its
word exactly unless this word is followed by the last character of the text and this is a space.

**Proof sketch.** From a head the loop goes on until the place behind it is a space, or until the
last character of the text, where it looks no further. If it stops before, the place behind it is a
space, and the word ends there. If it gets to the last character, then this belongs to the word if
it is no space, and is behind it otherwise: then the cursor stands on a space, which is the defect,
and it happens exactly if there is no space between the head and the last character. -/
theorem nextTail_iff (s : Vi W) (p : ℤ) (h0 : 0 ≤ s.dot)
    (hp : IsLeast {q | s.dot < q ∧ q < s.endp ∧ AfterSpace s.mem q} p) :
    NextTail s p ↔
      (isSpace (s.mem (s.endp - 1)) → ∃ q, p ≤ q ∧ q < s.endp - 1 ∧ isSpace (s.mem q)) := by
  obtain ⟨hlo, hlt, hhead⟩ := hp.1
  have hret := nextWordTail_before h0 (by omega)
  rw [nextHead_of_isLeast hp] at hret
  obtain ⟨hlo', hhi'⟩ := behindStop_bounds (m := s.mem) (e := s.endp) (p := p) (by omega)
  have hword : ∀ q, p ≤ q → q < behindStop s.mem s.endp p → ¬isSpace (s.mem q) :=
    fun q => not_isSpace_of_lt_behindStop hhead.2
  split_ifs at hret with hlast
  · -- the loop gets to the last character
    rw [hlast] at hword
    constructor
    · rintro ⟨d, hd, -, -, htail, -⟩ hspace
      have heq := congrArg Vi.dot (hret.unique hd)
      dsimp only at heq
      exact absurd hspace (htail _ (by omega) (by omega))
    · intro hfits
      have hnot : ¬isSpace (s.mem (s.endp - 1)) := fun hspace => by
        obtain ⟨q, h1, h2, h3⟩ := hfits hspace
        exact hword q h1 h2 h3
      refine ⟨_, hret, by omega, by omega, fun q h1 h2 => ?_, .inl (by omega)⟩
      rcases h2.lt_or_eq with h | rfl
      · exact hword q h1 h
      · exact hnot
  · have hbehind := behindWord_behindStop (m := s.mem) (e := s.endp) (p := p) (by omega)
    have hne : behindStop s.mem s.endp p ≠ p := fun heq => by
      rw [heq] at hbehind
      exact hhead.2 hbehind.2
    refine iff_of_true ⟨_, hret, by omega, by omega, fun q h1 h2 => hword q h1 (by omega), ?_⟩
      fun _ => ⟨_, hlo', by omega, hbehind.2⟩
    rw [sub_add_cancel]
    exact .inr hbehind.2

/-- `nextTail_iff` for a file of two words without a newline at the end. -/
theorem nextTail_iff_two : NextTail (smallFile (str "a bc")) 2 :=
  (nextTail_iff _ 2 (by decide) ⟨⟨by decide, by decide, by decide⟩, fun q hq => by
    have h1 : (0 : ℤ) < q := hq.1
    rcases (show 1 ≤ q by omega).eq_or_lt with rfl | h
    · exact absurd hq.2.2 (by decide)
    · omega⟩).mpr fun hspace => absurd hspace (by decide)

/-- Before a word and a newline that end the text, `e` goes to the newline. -/
theorem not_nextTail : ¬NextTail (smallFile (str "a b\n")) 2 := by
  rintro ⟨d, hd, -, -, htail, -⟩
  have hret := nextWordTail_before (s := smallFile (str "a b\n")) (by decide) (by decide)
  have heq := congrArg Vi.dot (hret.unique hd)
  have hstop : d = 3 := heq.symm.trans (by decide +kernel)
  exact htail 3 (by decide) hstop.ge (by decide)

/-! ## The previous head -/

/-- The exits of the loop of `b`: the top of the window, and the head of a word below it. -/
def PreHeadExit (s : Vi W) : Prop :=
  s.dot = s.screenbegin ∨ s.screenbegin < s.dot ∧ AfterSpace s.mem s.dot

instance (s : Vi W) : Decidable (PreHeadExit s) := inferInstanceAs (Decidable (_ ∨ _))

/-- `b` steps left until it is at an exit. -/
theorem dotMove2PreWordHead_eq (fuel : ℕ) (s : Vi W) : dotMove2PreWordHead fuel s =
    loopFuel .loops (fun s : Vi W => .ok (dotDecrease s, !decide (PreHeadExit (dotDecrease s))))
      fuel s := by
  unfold dotMove2PreWordHead
  congr 1
  funext s
  dsimp only
  split_ifs with h1 h2
  · have hexit : PreHeadExit (dotDecrease s) := .inl h1
    rw [decide_eq_true hexit, Bool.not_true]
  · have hexit : PreHeadExit (dotDecrease s) := .inr ⟨h2.2.1, h2.2.2, h2.1⟩
    rw [decide_eq_true hexit, Bool.not_true]
  · have hno : ¬PreHeadExit (dotDecrease s) := by
      rintro (h | h)
      · exact h1 h
      · exact h2 ⟨h.2.2, h.1, h.2.1⟩
    rw [decide_eq_false hno, Bool.not_false]

/-- Where `b` goes from a cursor below the top of the window. -/
def prevHead (s : Vi W) : ℤ :=
  scanDown (fun q => decide (AfterSpace s.mem q)) s.screenbegin (s.dot - 1)

/-- The scan goes back, and not past the top of the window. -/
theorem prevHead_bounds (h : s.screenbegin < s.dot) :
    s.screenbegin ≤ prevHead s ∧ prevHead s < s.dot := by
  have hhi : prevHead s ≤ s.dot - 1 := scanDown_le _ _ _
  exact ⟨le_scanDown _ (by omega), by omega⟩

/-- Below the top it stops at a head. -/
theorem afterSpace_prevHead (h : s.screenbegin < prevHead s) : AfterSpace s.mem (prevHead s) :=
  of_decide_eq_true (scanDown_stop h)

/-- It passes no head. -/
theorem not_afterSpace_of_prevHead_lt (h1 : prevHead s < q) (h2 : q < s.dot) :
    ¬AfterSpace s.mem q :=
  of_decide_eq_false (scanDown_passed h1 (by omega))

/-- Below the top of the window `b` goes back to the last head before the cursor, but not past the
top. -/
theorem preWordHead_below (h0 : 0 ≤ s.screenbegin) (h : s.screenbegin < s.dot) :
    Returns (fun fuel => dotMove2PreWordHead fuel s) { s with dot := prevHead s } := by
  obtain ⟨hlo, hhi⟩ := prevHead_bounds h
  have hstart : s = { s with dot := s.dot - ((0 : ℕ) : ℤ) } := by simp
  have hdec : ∀ i : ℕ, 0 < s.dot - i → dotDecrease { s with dot := s.dot - i } =
      { s with dot := s.dot - (i + 1 : ℕ) } := fun i hi => by
    rw [dotDecrease, if_pos hi, Nat.cast_succ, ← sub_sub]
  simp only [dotMove2PreWordHead_eq]
  conv in loopFuel _ _ _ s => rw [hstart]
  obtain ⟨n, hn⟩ : ∃ n : ℕ, prevHead s = s.dot - (n + 1 : ℕ) :=
    ⟨(s.dot - prevHead s - 1).toNat, by push_cast; omega⟩
  refine loopFuel_returns_of_steps (fun i : ℕ => { s with dot := s.dot - i })
    (n := n) (fun i hi => ?_) ?_
  · have hlt : prevHead s < s.dot - (i + 1 : ℕ) := by omega
    have hpass : ¬AfterSpace s.mem (s.dot - (i + 1 : ℕ)) :=
      not_afterSpace_of_prevHead_lt hlt (by omega)
    have hgo : ¬PreHeadExit { s with dot := s.dot - (i + 1 : ℕ) } := by
      rintro (h | h)
      · dsimp only at h
        omega
      · exact hpass h.2
    rw [hdec i (by omega), decide_eq_false hgo, Bool.not_false]
  · have hexit : PreHeadExit { s with dot := prevHead s } := by
      by_cases hlt : s.screenbegin < prevHead s
      · exact .inr ⟨hlt, afterSpace_prevHead hlt⟩
      · exact .inl (by dsimp only; omega)
    rw [hdec n (by omega), ← hn, decide_eq_true hexit, Bool.not_true]

/-- At the start of the text `b` does not move. -/
theorem preWordHead_start (h0 : s.screenbegin = 0) (h : s.dot = 0) :
    Returns (fun fuel => dotMove2PreWordHead fuel s) s := by
  simp only [dotMove2PreWordHead_eq]
  have hexit : PreHeadExit s := .inl (h.trans h0.symm)
  refine loopFuel_returns_of_stop ?_
  rw [dotDecrease, if_neg (by omega), decide_eq_true hexit, Bool.not_true]

/-- At the top of a window that has been scrolled, `b` does not end: it passes the top. -/
theorem preWordHead_diverges (h0 : 0 < s.screenbegin) (h : s.dot = s.screenbegin) (fuel : ℕ) :
    dotMove2PreWordHead fuel s = .error .loops := by
  rw [dotMove2PreWordHead_eq]
  -- after the first step the cursor is above the window
  have hgo : ∀ t : Vi W, 0 < t.screenbegin → t.dot ≤ t.screenbegin →
      (dotDecrease t).screenbegin = t.screenbegin ∧ (dotDecrease t).dot < t.screenbegin ∧
        ¬PreHeadExit (dotDecrease t) := fun t ht0 ht => by
    have hsb : (dotDecrease t).screenbegin = t.screenbegin := by
      unfold dotDecrease
      split_ifs <;> rfl
    have hlt : (dotDecrease t).dot < t.screenbegin := by
      unfold dotDecrease
      split_ifs
      · dsimp only
        omega
      · omega
    refine ⟨hsb, hlt, ?_⟩
    rintro (heq | hbelow)
    · omega
    · have := hbelow.1
      omega
  refine loopFuel_diverges (fun t => 0 < t.screenbegin ∧ t.dot ≤ t.screenbegin) ?_ fuel s
    ⟨h0, h.le⟩
  rintro t ⟨ht0, ht⟩
  obtain ⟨hsb, hlt, hexit⟩ := hgo t ht0 ht
  exact ⟨dotDecrease t, by rw [decide_eq_false hexit, Bool.not_false], by omega, by omega⟩

/-- `b` goes to the last head before the cursor, or to the start of the text if there is none. -/
def PrevWord (s : Vi W) : Prop :=
  ∃ d, Returns (fun fuel => dotMove2PreWordHead fuel s) { s with dot := d } ∧
    (IsGreatest {q | 0 ≤ q ∧ q < s.dot ∧ WordHead s.mem q} d ∨
      (∀ q, 0 ≤ q → q < s.dot → ¬WordHead s.mem q) ∧ d = 0)

/-- Between the place where `b` stops and the cursor there is no head. -/
theorem not_wordHead_of_prevHead_lt (h0 : 0 ≤ s.screenbegin) (h : s.screenbegin < s.dot)
    (h1 : prevHead s < q) (h2 : q < s.dot) : ¬WordHead s.mem q := by
  have hlo := (prevHead_bounds h).1
  rw [wordHead_iff (by omega)]
  exact not_afterSpace_of_prevHead_lt h1 h2

/-- Below the top of the window `b` is right exactly where it stops at a head, or at the start of
the text. -/
theorem prevWord_below (h0 : 0 ≤ s.screenbegin) (h : s.screenbegin < s.dot) :
    PrevWord s ↔ WordHead s.mem (prevHead s) ∨ prevHead s = 0 := by
  have hret := preWordHead_below h0 h
  obtain ⟨hlo, hhi⟩ := prevHead_bounds h
  have hpassed : ∀ q, prevHead s < q → q < s.dot → ¬WordHead s.mem q :=
    fun q => not_wordHead_of_prevHead_lt h0 h
  constructor
  · rintro ⟨d, hd, hright⟩
    obtain rfl : prevHead s = d := congrArg Vi.dot (hret.unique hd)
    exact hright.imp (fun hgreatest => hgreatest.1.2.2) And.right
  · intro hright
    refine ⟨_, hret, ?_⟩
    by_cases hhead : WordHead s.mem (prevHead s)
    · refine .inl ⟨⟨by omega, by omega, hhead⟩, fun q hq => ?_⟩
      by_contra hlt
      exact hpassed q (not_le.mp hlt) hq.2.1 hq.2.2
    · have hzero := hright.resolve_left hhead
      refine .inr ⟨fun q h1 h2 => ?_, hzero⟩
      rcases (show prevHead s ≤ q by omega).eq_or_lt with rfl | hlt
      · exact hhead
      · exact hpassed q hlt h2

/-- **The previous head.** `b` does what it is meant to exactly if the window starts at the start of
the text or shows a head before the cursor.

**Proof sketch.** With the cursor at the top of the window, the loop ends at once if that is the
start of the text, and never otherwise (`preWordHead_diverges`). With the cursor below, the loop
stops at the last head before it that the window shows, or at the top of the window if it shows
none; that place is a head of a word exactly under the condition. -/
theorem prevWord_iff (s : Vi W) (h0 : 0 ≤ s.screenbegin) (hsb : s.screenbegin ≤ s.dot) :
    PrevWord s ↔
      s.screenbegin = 0 ∨ ∃ q, s.screenbegin ≤ q ∧ q < s.dot ∧ WordHead s.mem q := by
  rcases hsb.eq_or_lt with heq | hlt
  · rcases h0.eq_or_lt with htop | htop
    · refine iff_of_true ⟨s.dot, preWordHead_start htop.symm (by omega), .inr ⟨?_, by omega⟩⟩
        (.inl htop.symm)
      intro q h1 h2
      omega
    · refine iff_of_false ?_ ?_
      · rintro ⟨d, hd, -⟩
        exact not_returns_of_error (preWordHead_diverges htop heq.symm) _ hd
      · rintro (hzero | ⟨q, h1, h2, -⟩)
        · omega
        · omega
  · obtain ⟨hlo, hhi⟩ := prevHead_bounds hlt
    rw [prevWord_below h0 hlt]
    constructor
    · rintro (hhead | hzero)
      · exact .inr ⟨_, hlo, hhi, hhead⟩
      · exact .inl (by omega)
    · rintro (htop | ⟨q, h1, h2, hhead⟩)
      · by_cases hzero : prevHead s = 0
        · exact .inr hzero
        · exact .inl ((wordHead_iff hzero).mpr (afterSpace_prevHead (by omega)))
      · -- the scan has not passed the head
        have hle : q ≤ prevHead s := by
          by_contra hgt
          exact not_wordHead_of_prevHead_lt h0 hlt (not_le.mp hgt) h2 hhead
        rcases hle.eq_or_lt with heq | hgt
        · exact .inl (heq ▸ hhead)
        · exact .inl ((wordHead_iff (by omega)).mpr (afterSpace_prevHead (by omega)))

/-- `prevWord_iff` in a window at the start of the text. -/
theorem prevWord_iff_top : PrevWord { smallFile (str "a bc") with dot := 3 } :=
  (prevWord_iff _ (by decide) (by decide)).mpr (.inl rfl)

/-- `b` does not end at the top of a window that starts behind the start of the text. -/
theorem not_prevWord :
    ¬PrevWord { smallFile (str "a\nb") with screenbegin := 2, dot := 2 } := by
  rintro ⟨d, hd, -⟩
  exact not_returns_of_error (preWordHead_diverges (by decide) rfl) _ hd

end HgXv6
