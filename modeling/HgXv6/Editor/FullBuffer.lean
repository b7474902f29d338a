import HgXv6.Editor.Insert

set_option relaxedAutoImplicit false
set_option autoImplicit false

/-!
# A full buffer

`make_hole_add` refuses when the text would outgrow its buffer, and its four callers do not look
at the result: they store their character at the place where the hole should have been. The
length of the text stays, but a character of it is overwritten, unless the place is behind the
text or holds that character already.

## Main definitions

* `HgXv6.HoleUse` — the four uses of `make_hole_add`, with the place and the character of each.
* `HgXv6.KeepsText` — the bytes of the text and its end are as they were.

## Main results

* `HgXv6.HoleUse.exec_full` — what a use does to a full buffer.
* `HgXv6.insertLoop_full` — a whole stretch of insert mode.
* `HgXv6.keepsText_iff` — when nothing is lost.
-/

namespace HgXv6

open Prog

variable {W : Type}

/-- The uses of `make_hole_add`; `o` and `O` up to the insert mode they enter. -/
inductive HoleUse
  /-- the character `c` typed in insert mode -/
  | type (c : UInt8)
  | openBelow
  | openAbove
  | indent
deriving DecidableEq

namespace HoleUse

/-- Where the hole is wanted. -/
def place (u : HoleUse) (s : Vi W) : ℤ :=
  match u with
  | .type _ => s.dot
  | .openBelow => nextLine s.mem s.endp s.dot
  | .openAbove => beginLine s.mem s.dot
  | .indent => beginLine s.mem s.dot

/-- What is stored there. -/
def char : HoleUse → UInt8
  | .type c => c
  | .openBelow => NL
  | .openAbove => NL
  | .indent => TAB

/-- The use of the hole, and the drawing that goes with it. -/
def exec (fuel : ℕ) (u : HoleUse) (s : Vi W) : Except Stop (Vi W) :=
  match u with
  | .type c => typeChar fuel c s
  | .openBelow => redraw fuel (HgXv6.openBelow s) >>= synchronize fuel
  | .openAbove => redraw fuel (HgXv6.openAbove s) >>= synchronize fuel
  | .indent => .ok (HgXv6.indent s)

end HoleUse

/-! ## Where they occur -/

/-- A printable character in insert mode. -/
theorem insertLoop_use (fuel : ℕ) (r : Read) (ks : List Read) (c₀ : Option UInt8) (s : Vi W)
    (hc : isPrintChar (r.into c₀) = true) :
    insertLoop fuel (r :: ks) c₀ s = (printOnStatusLine (str "--INSERT--") s >>= fun s =>
      (HoleUse.type (r.into c₀)).exec fuel (s.act (.insert (r.into c₀))) >>=
        insertLoop fuel ks (some (r.into c₀))) := by
  rw [insertLoop_cons]
  congr 1
  funext t
  dsimp only
  rw [if_neg (ne_esc_of_isPrintChar hc), if_pos hc]
  rfl

/-- The commands `o`, `O` and `>`. -/
theorem execCmd_use (sys : Sys W) (fuel : ℕ) (ks : List Read) (s : Vi W) :
    execCmd sys fuel .openBelow ks s = HoleUse.openBelow.exec fuel s >>= insert fuel ks ∧
      execCmd sys fuel .openAbove ks s = HoleUse.openAbove.exec fuel s >>= insert fuel ks ∧
      execCmd sys fuel .indent ks s =
        HoleUse.indent.exec fuel s >>= fun s => .ok (ks, s) :=
  ⟨rfl, rfl, rfl⟩

/-! ## What they do -/

/-- The bytes of the text and its end are as they were. -/
def KeepsText (s s' : Vi W) : Prop :=
  s'.endp = s.endp ∧ ∀ i, 0 ≤ i → i < s.endp → s'.mem i = s.mem i

/-- A full buffer has no hole. -/
theorem makeHoleAdd_full {s : Vi W} (hfull : s.endp + 1 > s.textend) (p : ℤ) :
    makeHoleAdd p 1 s = s :=
  if_pos hfull

/-- **A full buffer.** A use of `make_hole_add` stores its character over the one at its place, and
leaves the length of the text and of the buffer alone.

**Proof sketch.** On a full buffer `make_hole_add` does nothing (`makeHoleAdd_full`). So each use
only stores its character at its place and moves the cursor, and what is drawn afterwards changes
neither the text nor its end. -/
theorem HoleUse.exec_full {s s' : Vi W} (hfull : s.endp + 1 > s.textend) {u : HoleUse} {fuel : ℕ}
    (h : u.exec fuel s = .ok s') :
    s'.endp = s.endp ∧ s'.textend = s.textend ∧
      s'.mem = Function.update s.mem (u.place s) u.char := by
  cases u with
  | type c =>
    obtain ⟨b, d, rfl, -⟩ := redraw_synchronize_ensures fuel _ s' h
    have htext : HgXv6.typeText c s = dotIncrease (store s.dot c s) := by
      rw [typeText, makeHoleAdd_full hfull]
    obtain ⟨d', b', hmove, -⟩ := dotIncrease_moves (store s.dot c s)
    rw [htext, hmove]
    exact ⟨rfl, rfl, rfl⟩
  | openBelow =>
    obtain ⟨b, d, rfl, -⟩ := redraw_synchronize_ensures fuel _ s' h
    obtain ⟨d', b', hmove, -⟩ := dotNextLine_moves (store (nextLine s.mem s.endp s.dot) NL s)
    have hopen : HgXv6.openBelow s =
        (dotNextLine (store (nextLine s.mem s.endp s.dot) NL s)).2 := by
      rw [HgXv6.openBelow, makeHoleAdd_full hfull]
    rw [hopen, hmove]
    exact ⟨rfl, rfl, rfl⟩
  | openAbove =>
    obtain ⟨b, d, rfl, -⟩ := redraw_synchronize_ensures fuel _ s' h
    have hopen : HgXv6.openAbove s =
        { store (beginLine s.mem s.dot) NL s with dot := beginLine s.mem s.dot } := by
      rw [HgXv6.openAbove, makeHoleAdd_full hfull]
    rw [hopen]
    exact ⟨rfl, rfl, rfl⟩
  | indent =>
    cases h
    have hindent : HgXv6.indent s =
        store (beginLine s.mem s.dot) TAB { s with hasChanged := true } := by
      rw [HgXv6.indent, makeHoleAdd_full (s := { s with hasChanged := true }) hfull]
    rw [hindent]
    exact ⟨rfl, rfl, rfl⟩

/-- **Insert mode.** Whatever is typed, a full buffer stays full: the end of the text does not move
until insert mode is left.

**Proof sketch.** Induction on the keys. A printable character is a use of `make_hole_add`, and
`HoleUse.exec_full` says that the end of the text stays; the other keys move the cursor or leave
insert mode. The messages and the synchronisations in between touch the screen alone. -/
theorem insertLoop_full (fuel : ℕ) (ks : List Read) (c₀ : Option UInt8) {s : Vi W}
    (hfull : s.endp + 1 > s.textend) :
    Ensures (insertLoop fuel ks c₀ s) fun x => x.2.endp = s.endp ∧ x.2.textend = s.textend := by
  have hstatus : ∀ (msg : List UInt8) (t : Vi W), Ensures (printOnStatusLine msg t) fun u =>
      u.endp = t.endp ∧ u.textend = t.textend := by
    intro msg t u hu
    obtain ⟨d, -, rfl⟩ := draw_ensures _ _ u hu
    exact ⟨rfl, rfl⟩
  induction ks generalizing c₀ s with
  | nil =>
    rw [insertLoop_nil]
    exact Ensures.bind (hstatus _ s) fun t _ => by simp
  | cons r ks ih =>
    by_cases hc : isPrintChar (r.into c₀) = true
    · rw [insertLoop_use fuel r ks c₀ s hc]
      refine Ensures.bind (hstatus _ s) fun t ht => ?_
      refine Ensures.bind (fun u hu => HoleUse.exec_full (u := .type (r.into c₀))
        (s := t.act (.insert (r.into c₀))) ?_ hu) fun u hu => ?_
      · change t.endp + 1 > t.textend
        omega
      · have hu1 : u.endp = t.endp := hu.1
        have hu2 : u.textend = t.textend := hu.2.1
        refine (ih _ (s := u) (by omega)).mono fun x hx => ⟨?_, ?_⟩
        · rw [hx.1, hu1, ht.1]
        · rw [hx.2, hu2, ht.2]
    · rw [insertLoop_cons]
      refine Ensures.bind (hstatus _ s) fun t ht => ?_
      dsimp only
      split_ifs
      · refine Ensures.bind (hstatus _ _) fun u hu => ?_
        rw [ensures_ok]
        exact ⟨hu.1.trans ht.1, hu.2.trans ht.2⟩
      · obtain ⟨d, b, hmove, -⟩ := insertKey_moves (r.into c₀) (t.act (.insert (r.into c₀)))
        refine Ensures.bind (synchronize_ensures fuel _) fun u hu => ?_
        obtain ⟨b', c', rfl, -⟩ := hu
        rw [hmove]
        refine (ih _ ?_).mono fun x hx => ⟨hx.1.trans ht.1, hx.2.trans ht.2⟩
        change t.endp + 1 > t.textend
        omega

/-- **What is lost.** A use of `make_hole_add` that is refused keeps the text exactly if the place
where the hole was wanted is not in the text, or already holds the character.

**Proof sketch.** By `HoleUse.exec_full` the memory changes at one place, where the character is
stored. If that place is outside the text the text stays, and if it is inside then it stays exactly
if the character was there before. -/
theorem keepsText_iff (fuel : ℕ) (u : HoleUse) (s s' : Vi W) (hfull : s.endp + 1 > s.textend)
    (h : u.exec fuel s = .ok s') :
    KeepsText s s' ↔ (0 ≤ u.place s → u.place s < s.endp → s.mem (u.place s) = u.char) := by
  obtain ⟨hend, -, hmem⟩ := HoleUse.exec_full hfull h
  constructor
  · intro hkeep h0 hlt
    rw [← hkeep.2 _ h0 hlt, hmem, Function.update_self]
  · intro hplace
    refine ⟨hend, fun i h0 hlt => ?_⟩
    rw [hmem, Function.update_apply]
    split_ifs with hi
    · rw [hi] at h0 hlt ⊢
      exact (hplace h0 hlt).symm
    · rfl

/-- A new file into which as many characters have been typed as its buffer has room for, 10240, with
the cursor back on the first one. -/
def fullText : Vi Unit :=
  { smallFile [] with
    mem := fun p => if 0 ≤ p ∧ p < 10240 then chr 'a' else (smallFile []).mem p
    endp := 10240 }

/-- `keepsText_iff` for the command `>` on the full buffer. -/
theorem keepsText_iff_indent :
    KeepsText fullText (indent fullText) ↔
      (0 ≤ HoleUse.indent.place fullText → HoleUse.indent.place fullText < fullText.endp →
        fullText.mem (HoleUse.indent.place fullText) = HoleUse.indent.char) :=
  keepsText_iff 0 .indent fullText _ (by decide) rfl

/-- The command `>` on a full buffer overwrites the first character of the line. -/
theorem not_forall_keepsText :
    ¬∀ (fuel : ℕ) (u : HoleUse) (s s' : Vi Unit), s.endp + 1 > s.textend →
      u.exec fuel s = .ok s' → KeepsText s s' := by
  intro hall
  have hkeep := hall 0 .indent fullText (indent fullText) (by decide) rfl
  have hfirst := hkeep.2 0 (by decide) (by decide)
  exact absurd hfirst (by decide)

end HgXv6
