import HgXv6.Editor.Command

set_option relaxedAutoImplicit false
set_option autoImplicit false

/-!
# Prompts

The commands `:` and `/` read a line of keys into an array of fixed size. When the array is full
the readers stop at once, without waiting for the key that ends the line, and what is left of the
line is read by the main loop, which executes it as commands. A prompt therefore takes in the
whole line exactly if the line leaves one more place in the array.

## Main definitions

* `HgXv6.colonReader`, `HgXv6.slashReader` — the part of the two commands that reads keys.
* `HgXv6.ColonKeeps`, `HgXv6.SlashKeeps` — the reader takes in exactly the keys of the line.
* `HgXv6.seen` — what the local variable of the reader holds after each key.

## Main results

* `HgXv6.colon_eq`, `HgXv6.slash_eq` — what the commands leave is what their readers leave.
* `HgXv6.colonLoop_keeps`, `HgXv6.patternLoop_keeps` — the loops.
* `HgXv6.prompts_iff` — both prompts.
-/

namespace HgXv6

open Prog

variable {W : Type}

/-! ## The readers -/

/-- The part of `colon` that reads keys, from the drawing of the prompt on. -/
def colonReader (ks : List Read) (s : Vi W) : Except Stop (List UInt8 × List Read × Vi W) :=
  s.draw (writeAt rows 0 (chr ':')) >>= colonLoop ks []

/-- The part of the command `/` that reads keys, from the drawing of the prompt on. -/
def slashReader (ks : List Read) (s : Vi W) :
    Except Stop (Option (List UInt8) × List Read × Vi W) :=
  s.draw (writeAt rows 0 (chr '/')) >>= patternLoop ks none []

/-- The command `:` leaves to the main loop the keys that its reader leaves. -/
theorem colon_eq (sys : Sys W) (ks : List Read) (s : Vi W) :
    colon sys ks s = (printOnStatusLine [] s >>= fun t => colonReader ks t >>= fun x =>
      colonCommand sys (x.1.takeWhile (· ≠ NUL)) x.2.2 >>= fun t =>
        moveCursor s.cga.pos t >>= fun t => .ok (x.2.1, t)) := by
  unfold colon colonReader
  simp only [bind_assoc]

/-- The command `/` leaves to the main loop the keys that its reader leaves. -/
theorem slash_eq (fuel : ℕ) (ks : List Read) (s : Vi W) :
    slash fuel ks s = (printOnStatusLine [] s >>= fun t => slashReader ks t >>= fun x =>
      match x.1 with
      | none => .ok (x.2.1, x.2.2)
      | some pat => moveCursor s.cga.pos x.2.2 >>= fun t =>
          searchAgain fuel forward (if pat ≠ [] then { t with lastFindString := pat } else t) >>=
            fun t => .ok (x.2.1, t)) := by
  unfold slash slashReader
  refine congrArg (printOnStatusLine [] s >>= ·) (funext fun t => ?_)
  exact (bind_assoc _ _ _).symm

/-- Given the keys `typed` of a line, and whatever comes after them, the prompt `:` reads exactly
the line, and the string it stores leaves room for the NUL in its array. -/
def ColonKeeps (typed : List Read) (s : Vi W) : Prop :=
  ∀ rest, ∃ order t, colonReader (typed ++ rest) s = .ok (order, rest, t) ∧
    order.length < orderSize

/-- Given the keys `typed` of a line, and whatever comes after them, the prompt `/` reads exactly
the line, and the string it stores leaves room for the NUL in its array. -/
def SlashKeeps (typed : List Read) (s : Vi W) : Prop :=
  ∀ rest, ∃ pat t, slashReader (typed ++ rest) s = .ok (pat, rest, t) ∧
    ∀ p, pat = some p → p.length < findStringLength

/-- What a local variable without a value, or with the value `c`, holds after each of the reads
into it. -/
def seen : Option UInt8 → List Read → List UInt8
  | _, [] => []
  | c, r :: ks => r.into c :: seen (some (r.into c)) ks

/-- The characters that the prompt `/` stores. -/
def Visible (c : UInt8) : Prop := 33 ≤ c ∧ c ≤ 126

instance (c : UInt8) : Decidable (Visible c) := inferInstanceAs (Decidable (_ ∧ _))

/-! ## The loops -/

/-- A prompt draws a character in the last row. -/
theorem draw_prompt (s : Vi W) {n : ℕ} (hn : n ≤ 32) (c : UInt8) :
    ∃ t, s.draw (writeAt rows n c) = .ok t ∧ t.cga.pos < 25 * 80 := by
  obtain ⟨d, hd, hpos⟩ := setCursorPos_ok (x := (rows : ℤ)) (y := (n : ℤ)) s.cga
    ⟨by decide, by decide, by omega, by omega⟩
  have hcell : d.pos = 24 * 80 + n := by
    unfold rows at hpos
    omega
  have hfits : ¬TabOverflow (.byte c) d.pos := by
    intro hover
    have := hover.2
    omega
  obtain ⟨d', hd', hpos'⟩ := cgaputc_ok (by omega) hfits
  refine ⟨{ s with cga := d' }, draw_eq ?_, ?_⟩
  · rw [writeAt, hd, ok_bind, hd']
  · change d'.pos < 25 * 80
    rw [hpos']
    exact nextPos_lt (by omega) hfits

/-- What comes after a line is not the line and what comes after it. -/
theorem rest_ne (ks rest : List Read) (r : Read) : ks ++ r :: rest ≠ rest := by
  intro h
  have := congrArg List.length h
  simp only [List.length_append, List.length_cons] at this
  omega

/-- **The prompt `:`.** With room for one more character, the loop reads exactly the line if and
only if no key but the last ends it, and the array is not full before.

**Proof sketch.** Induction on the keys. The loop stops early at a key that ends the line, and
when it has stored the last character; what it leaves then is longer than what comes after the
line. -/
theorem colonLoop_keeps (ks rest : List Read) (order : List UInt8) (s : Vi W)
    (hlen : order.length < orderSize - 1) :
    (∃ o t, colonLoop (ks ++ .byte NL :: rest) order s = .ok (o, rest, t) ∧
      o.length < orderSize) ↔
      order.length + ks.length < orderSize - 1 ∧ ∀ r ∈ ks, r.into none ≠ NL := by
  induction ks generalizing order s with
  | nil =>
    refine iff_of_true ⟨order, s.act (.arg NL), ?_, by omega⟩ ⟨hlen, by simp⟩
    rw [List.nil_append, colonLoop]
    exact if_pos rfl
  | cons r ks ih =>
    rw [List.cons_append, colonLoop]
    dsimp only
    by_cases hnl : r.into none = NL
    · rw [if_pos hnl]
      refine iff_of_false ?_ fun h => h.2 r List.mem_cons_self hnl
      rintro ⟨o, t, h, -⟩
      simp only [Except.ok.injEq, Prod.mk.injEq] at h
      exact rest_ne _ _ _ h.2.1
    obtain ⟨t, ht, -⟩ := draw_prompt (s.act (.arg (r.into none))) (n := order.length + 1)
      (by unfold orderSize at hlen; omega) (r.into none)
    rw [Nat.cast_add, Nat.cast_one] at ht
    rw [if_neg hnl, ht, ok_bind]
    have hsucc : (order ++ [r.into none]).length = order.length + 1 := List.length_append
    rw [hsucc, List.length_cons, List.forall_mem_cons]
    by_cases hfull : order.length + 1 = orderSize - 1
    · rw [if_pos hfull]
      refine iff_of_false ?_ fun h => by omega
      rintro ⟨o, u, h, -⟩
      simp only [Except.ok.injEq, Prod.mk.injEq] at h
      exact rest_ne _ _ _ h.2.1
    · have hassoc : order.length + 1 + ks.length = order.length + (ks.length + 1) := by omega
      rw [if_neg hfull, ih _ _ (by omega), hsucc, hassoc]
      simp only [ne_eq, hnl, not_false_eq_true, true_and]

/-- The loop of the prompt `/` leaves the keys alone when its array is full. -/
theorem patternLoop_full (r : Read) (ks : List Read) (tmp : Option UInt8) {pat : List UInt8}
    (s : Vi W) (hlen : ¬pat.length < findStringLength - 1) :
    patternLoop (r :: ks) tmp pat s = .ok (some pat, r :: ks, s) := by
  rw [patternLoop, if_neg hlen]

/-- **The prompt `/`.** With room for one more character, the loop reads exactly the line if and
only if no key but the last ends it, and the array is not full before.

**Proof sketch.** Induction on the keys before the one that ends the line. ESC and Enter end the
loop at once, so neither may be among them, and the loop would leave the rest of the keys unread. A
key that is not visible is skipped. A visible one is stored, and then either there is room for
another one, and the induction hypothesis applies, or the array is full and the loop ends with keys
unread (`patternLoop_full`). -/
theorem patternLoop_keeps (ks rest : List Read) {e : UInt8} (he : e = NL ∨ e = VI_K_ESC)
    (tmp : Option UInt8) (pat : List UInt8) (s : Vi W) (hpos : s.cga.pos < 25 * 80)
    (hlen : pat.length < findStringLength - 1) :
    (∃ o t, patternLoop (ks ++ .byte e :: rest) tmp pat s = .ok (o, rest, t) ∧
      ∀ p, o = some p → p.length < findStringLength) ↔
      pat.length + ((seen tmp ks).filter Visible).length < findStringLength - 1 ∧
        ∀ c ∈ seen tmp ks, c ≠ NL ∧ c ≠ VI_K_ESC := by
  induction ks generalizing tmp pat s with
  | nil =>
    refine iff_of_true ?_ ⟨by simpa [seen] using hlen, by simp [seen]⟩
    rw [List.nil_append, patternLoop, if_pos hlen]
    rcases he with rfl | rfl
    · refine ⟨some pat, s.act (.arg NL), ?_, fun p hp => by cases hp; omega⟩
      dsimp only [Read.into]
      rw [if_neg (by decide), if_pos rfl]
    · obtain ⟨c, hc, -⟩ := printOnStatusLine_ok (str "--COMMAND--")
        (s := s.act (.arg VI_K_ESC)) hpos (by decide)
      refine ⟨none, { s.act (.arg VI_K_ESC) with cga := c }, ?_, fun p hp => by cases hp⟩
      dsimp only [Read.into]
      rw [if_pos rfl, hc, ok_bind]
  | cons r ks ih =>
    rw [List.cons_append, patternLoop, if_pos hlen]
    simp only [seen, List.forall_mem_cons]
    by_cases hesc : r.into tmp = VI_K_ESC
    · obtain ⟨c, hc, -⟩ := printOnStatusLine_ok (str "--COMMAND--")
        (s := s.act (.arg (r.into tmp))) hpos (by decide)
      rw [if_pos hesc, hc, ok_bind]
      refine iff_of_false ?_ fun h => h.2.1.2 hesc
      rintro ⟨o, t, h, -⟩
      simp only [Except.ok.injEq, Prod.mk.injEq] at h
      exact rest_ne _ _ _ h.2.1
    rw [if_neg hesc]
    by_cases hnl : r.into tmp = NL
    · rw [if_pos hnl]
      refine iff_of_false ?_ fun h => h.2.1.1 hnl
      rintro ⟨o, t, h, -⟩
      simp only [Except.ok.injEq, Prod.mk.injEq] at h
      exact rest_ne _ _ _ h.2.1
    rw [if_neg hnl]
    by_cases hvis : Visible (r.into tmp)
    · obtain ⟨t, ht, htpos⟩ := draw_prompt (s.act (.arg (r.into tmp)))
        (n := (pat ++ [r.into tmp]).length + 1)
        (by rw [List.length_append, List.length_singleton]; unfold findStringLength at hlen; omega)
        (r.into tmp)
      rw [Nat.cast_add, Nat.cast_one] at ht
      have hcount : ((r.into tmp :: seen (some (r.into tmp)) ks).filter Visible).length =
          ((seen (some (r.into tmp)) ks).filter Visible).length + 1 := by
        rw [List.filter_cons_of_pos (by simpa using hvis), List.length_cons]
      have hvis' : 33 ≤ r.into tmp ∧ r.into tmp ≤ 126 := hvis
      rw [if_pos hvis', ht, ok_bind, hcount]
      by_cases hfull : (pat ++ [r.into tmp]).length < findStringLength - 1
      · rw [ih _ _ _ htpos hfull, List.length_append, List.length_singleton]
        simp only [ne_eq, hnl, hesc, not_false_eq_true, and_self, true_and]
        rw [Nat.add_assoc, Nat.add_comm 1]
      · obtain ⟨r', ks', hks⟩ : ∃ r' ks', ks ++ .byte e :: rest = r' :: ks' :=
          List.exists_cons_of_ne_nil (by simp)
        rw [hks, patternLoop_full _ _ _ _ hfull, ← hks]
        rw [List.length_append, List.length_singleton] at hfull
        refine iff_of_false ?_ fun h => by omega
        rintro ⟨o, u, h, -⟩
        simp only [Except.ok.injEq, Prod.mk.injEq] at h
        exact rest_ne _ _ _ h.2.1
    · have hvis' : ¬(33 ≤ r.into tmp ∧ r.into tmp ≤ 126) := hvis
      rw [if_neg hvis', ih _ _ (s.act (.arg (r.into tmp))) hpos hlen,
        List.filter_cons_of_neg (by simpa using hvis)]
      simp only [ne_eq, hnl, hesc, not_false_eq_true, and_self, true_and]

/-! ## Both prompts -/

/-- The condition of the prompt `:` on the keys before the Enter. -/
def ColonFits (ks : List Read) : Prop :=
  ks.length < orderSize - 1 ∧ ∀ r ∈ ks, r.into none ≠ NL

/-- The condition of the prompt `/` on the keys before the Enter or ESC. -/
def SlashFits (ks : List Read) : Prop :=
  ((seen none ks).filter Visible).length < findStringLength - 1 ∧
    ∀ c ∈ seen none ks, c ≠ NL ∧ c ≠ VI_K_ESC

/-- The prompt `:` takes in a line that fits, and no other. -/
theorem colonKeeps_iff (ks : List Read) (s : Vi W) :
    ColonKeeps (ks ++ [.byte NL]) s ↔ ColonFits ks := by
  obtain ⟨t, ht, -⟩ := draw_prompt s (n := 0) (by omega) (chr ':')
  rw [Nat.cast_zero] at ht
  have hloop := fun rest => colonLoop_keeps ks rest [] t (by decide)
  unfold ColonKeeps ColonFits colonReader
  simp only [ht, ok_bind, List.append_assoc, List.singleton_append, hloop, List.length_nil,
    Nat.zero_add, forall_const]

/-- The prompt `/` takes in a line that fits, and no other. -/
theorem slashKeeps_iff (ks : List Read) {e : UInt8} (he : e = NL ∨ e = VI_K_ESC) (s : Vi W) :
    SlashKeeps (ks ++ [.byte e]) s ↔ SlashFits ks := by
  obtain ⟨t, ht, hpos⟩ := draw_prompt s (n := 0) (by omega) (chr '/')
  rw [Nat.cast_zero] at ht
  have hloop := fun rest => patternLoop_keeps ks rest he none [] t hpos (by decide)
  unfold SlashKeeps SlashFits slashReader
  simp only [ht, ok_bind, List.append_assoc, List.singleton_append, hloop, List.length_nil,
    Nat.zero_add, forall_const]

/-- **Prompts.** A line typed at the prompt `:` up to an Enter, or at the prompt `/` up to an Enter
or ESC, is read by the prompt as a whole, and none of its keys is left for the main loop, exactly if
the keys before the last one do not fill the array and none of them ends the line.

**Proof sketch.** By induction on the keys, for the loop of each prompt from any number of keys read
before: it goes on at a key that does not end the line as long as there is room for another one, and
leaves the rest for the main loop when there is none. -/
theorem prompts_iff (ks : List Read) (s : Vi W) :
    (ColonKeeps (ks ++ [.byte NL]) s ↔ ColonFits ks) ∧
      (SlashKeeps (ks ++ [.byte NL]) s ↔ SlashFits ks) ∧
      (SlashKeeps (ks ++ [.byte VI_K_ESC]) s ↔ SlashFits ks) :=
  ⟨colonKeeps_iff ks s, slashKeeps_iff ks (.inl rfl) s, slashKeeps_iff ks (.inr rfl) s⟩

/-- The editor on an empty text, before anything is drawn. -/
def emptyText : Vi Unit :=
  opened (fun _ => NUL) (str "f") 0 [] clearedScreen ()

/-- Ten characters and an Enter at the prompt `:`, and thirty-one and an Enter at the prompt `/`:
the Enter is left for the main loop. -/
theorem not_promptsKeep :
    ¬ColonKeeps (List.replicate 10 (.byte 97) ++ [.byte NL]) emptyText ∧
      ¬SlashKeeps (List.replicate 31 (.byte 97) ++ [.byte NL]) emptyText := by
  rw [colonKeeps_iff, slashKeeps_iff _ (.inl rfl)]
  constructor
  · intro h
    exact absurd h.1 (by decide)
  · intro h
    exact absurd h.1 (by decide)

end HgXv6
