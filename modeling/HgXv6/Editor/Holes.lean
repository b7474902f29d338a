import HgXv6.Editor.LineEdits

set_option relaxedAutoImplicit false
set_option autoImplicit false

/-!
# Holes

Every change of the text goes through `make_hole_add` and `make_hole_delete`. As operations on the
list of the text's characters they are an insertion and a deletion, and they keep the NUL behind
the text.

## Main definitions

* `HgXv6.makeHoleDeleteN` — the deletion of a number of characters.
* `HgXv6.AddsHole`, `HgXv6.RemovesHole`, `HgXv6.Restores` — what the primitives do.

## Main results

* `HgXv6.makeHoleAdd_apply`, `HgXv6.makeHoleDelete_apply` — the memory that they leave.
* `HgXv6.holes` — they do insert and delete, and the one undoes the other.
-/

namespace HgXv6

open Prog

variable {W : Type} {s : Vi W} {p : ℤ} {n : ℕ}

/-! ## Making room -/

/-- `make_hole_add`, if there is room. -/
theorem makeHoleAdd_eq (hroom : s.endp + n ≤ s.textend) : makeHoleAdd p n s = { s with
    mem := fill (copyDown s.mem (p + n) p (s.endp - p + 1).toNat) p SPACE n
    endp := s.endp + n } :=
  if_neg (by omega)

/-- The memory after `make_hole_add`: spaces in the hole, and the cells from `p` to `end` behind
it. -/
theorem makeHoleAdd_apply (hp : p ≤ s.endp) (hroom : s.endp + n ≤ s.textend) (i : ℤ) :
    (makeHoleAdd p n s).mem i =
      if p ≤ i ∧ i < p + n then SPACE
      else if p + n ≤ i ∧ i ≤ s.endp + n then s.mem (i - n) else s.mem i := by
  rw [makeHoleAdd_eq hroom]
  dsimp only [fill]
  split_ifs with hhole hbehind
  · rfl
  · rw [copyDown_apply _ _ _ (by omega), if_pos (by omega)]
    congr 1
    omega
  · rw [copyDown_apply _ _ _ (by omega), if_neg (by omega)]

/-- The text after `make_hole_add`. -/
theorem text_makeHoleAdd (h0 : 0 ≤ p) (hp : p ≤ s.endp) (hroom : s.endp + n ≤ s.textend) :
    (makeHoleAdd p n s).text =
      s.text.take p.toNat ++ (List.replicate n SPACE ++ s.text.drop p.toNat) := by
  have hend : (makeHoleAdd p n s).endp = s.endp + n := by rw [makeHoleAdd_eq hroom]
  have hlen : (s.endp + n).toNat = p.toNat + (n + (s.endp.toNat - p.toNat)) := by omega
  -- what is before the hole, the hole, and what is behind it
  have hbefore : bytes (makeHoleAdd p n s).mem 0 p.toNat = s.text.take p.toNat := by
    rw [Vi.text, take_bytes _ _ (by omega)]
    refine bytes_congr fun i hi => ?_
    rw [makeHoleAdd_apply hp hroom, if_neg (by omega), if_neg (by omega)]
  have hhole : bytes (makeHoleAdd p n s).mem p n = List.replicate n SPACE := by
    refine List.ext_getElem (by simp) fun i hi _ => ?_
    rw [length_bytes] at hi
    rw [getElem_bytes, List.getElem_replicate, makeHoleAdd_apply hp hroom, if_pos (by omega)]
  have hbehind : bytes (makeHoleAdd p n s).mem (p + n) (s.endp.toNat - p.toNat) =
      s.text.drop p.toNat := by
    rw [Vi.text, drop_bytes _ _ (by omega)]
    refine bytes_congr fun i hi => ?_
    rw [makeHoleAdd_apply hp hroom, if_neg (by omega), if_pos (by omega)]
    congr 1
    omega
  calc (makeHoleAdd p n s).text
      = bytes (makeHoleAdd p n s).mem 0 (p.toNat + (n + (s.endp.toNat - p.toNat))) := by
        rw [Vi.text, hend, hlen]
    _ = bytes (makeHoleAdd p n s).mem 0 p.toNat ++ (bytes (makeHoleAdd p n s).mem p n ++
          bytes (makeHoleAdd p n s).mem (p + n) (s.endp.toNat - p.toNat)) := by
        rw [bytes_append, bytes_append, zero_add, Int.toNat_of_nonneg h0]
    _ = s.text.take p.toNat ++ (List.replicate n SPACE ++ s.text.drop p.toNat) := by
        rw [hbefore, hhole, hbehind]

/-- `make_hole_add(p,n)` inserts `n` spaces at `p`, with the NUL at the new end, and changes nothing
above `textend`. -/
structure AddsHole (p : ℤ) (n : ℕ) (s : Vi W) : Prop where
  text : (makeHoleAdd p n s).text =
    s.text.take p.toNat ++ (List.replicate n SPACE ++ s.text.drop p.toNat)
  endp : (makeHoleAdd p n s).endp = s.endp + n
  nul : (makeHoleAdd p n s).mem (s.endp + n) = NUL
  above : ∀ i > s.textend, (makeHoleAdd p n s).mem i = s.mem i

theorem addsHole (h0 : 0 ≤ p) (hp : p ≤ s.endp) (hroom : s.endp + n ≤ s.textend)
    (hnul : s.mem s.endp = NUL) : AddsHole p n s where
  text := text_makeHoleAdd h0 hp hroom
  endp := by rw [makeHoleAdd_eq hroom]
  nul := by
    rw [makeHoleAdd_apply hp hroom, if_neg (by omega), if_pos (by omega), add_sub_cancel_right]
    exact hnul
  above i hi := by
    rw [makeHoleAdd_apply hp hroom, if_neg (by omega), if_neg (by omega)]

/-! ## Taking characters out -/

/-- The two ends of the range can be given in either order. -/
theorem makeHoleDelete_swap (a b : ℤ) (s : Vi W) :
    makeHoleDelete a b s = makeHoleDelete (min a b) (max a b) s := by
  rcases le_or_gt a b with h | h
  · rw [min_eq_left h, max_eq_right h]
  · rw [min_eq_right h.le, max_eq_left h.le]
    simp only [makeHoleDelete, if_pos h, if_neg (not_lt.mpr h.le)]

/-- The memory after `make_hole_delete`: the cells behind the range, up to `end`, move to its
start. -/
theorem makeHoleDelete_apply {a b : ℤ} (hab : a ≤ b) (hb : b < s.endp) (i : ℤ) :
    (makeHoleDelete a b s).mem i =
      if a ≤ i ∧ i ≤ s.endp - (b - a + 1) then s.mem (i + (b - a + 1)) else s.mem i := by
  simp only [makeHoleDelete, if_neg (not_lt.mpr hab)]
  rw [copyUp_apply _ _ _ (by omega)]
  split_ifs with h h' h'
  · congr 1
    omega
  · omega
  · omega
  · rfl

/-- The end of the text after `make_hole_delete`. -/
theorem makeHoleDelete_endp {a b : ℤ} (hab : a ≤ b) (s : Vi W) :
    (makeHoleDelete a b s).endp = s.endp - (b - a + 1) := by
  simp only [makeHoleDelete, if_neg (not_lt.mpr hab)]

/-- `make_hole_delete(a,b)` takes out the characters from the smaller to the greater of `a` and `b`,
with the NUL at the new end. -/
structure RemovesHole (a b : ℤ) (s : Vi W) : Prop where
  text : (makeHoleDelete a b s).text =
    s.text.take (min a b).toNat ++ s.text.drop (max a b + 1).toNat
  endp : (makeHoleDelete a b s).endp = s.endp - (max a b - min a b + 1)
  nul : (makeHoleDelete a b s).mem (makeHoleDelete a b s).endp = NUL

theorem removesHole {a b : ℤ} (ha0 : 0 ≤ a) (hb0 : 0 ≤ b) (ha : a ≤ s.endp - 1)
    (hb : b ≤ s.endp - 1) (hnul : s.mem s.endp = NUL) : RemovesHole a b s where
  text := by
    rw [makeHoleDelete_swap, text_makeHoleDelete (by omega) (by omega) (by omega)]
  endp := by
    rw [makeHoleDelete_swap, makeHoleDelete_endp (by omega)]
  nul := by
    rw [makeHoleDelete_swap, makeHoleDelete_endp (by omega),
      makeHoleDelete_apply (by omega) (by omega), if_pos (by omega), sub_add_cancel]
    exact hnul

/-! ## The round trip -/

/-- `make_hole_deleteN`: remove `n` characters from `p` on. -/
def makeHoleDeleteN (p n : ℤ) (s : Vi W) : Vi W :=
  let q := p + n - 1
  makeHoleDelete p q s

/-- `make_hole_deleteN(p,n)` after `make_hole_add(p,n)` leaves the text, its end and the NUL there
as they were. -/
structure Restores (p : ℤ) (n : ℕ) (s : Vi W) : Prop where
  text : (makeHoleDeleteN p n (makeHoleAdd p n s)).text = s.text
  endp : (makeHoleDeleteN p n (makeHoleAdd p n s)).endp = s.endp
  nul : (makeHoleDeleteN p n (makeHoleAdd p n s)).mem s.endp = NUL

/-- The hole that was made is the one that is taken out: the cells up to `end` are as they were. -/
theorem makeHoleDeleteN_makeHoleAdd (hp : p ≤ s.endp) (hn : 0 < n)
    (hroom : s.endp + n ≤ s.textend) {i : ℤ} (hi : i ≤ s.endp) :
    (makeHoleDeleteN p n (makeHoleAdd p n s)).mem i = s.mem i := by
  have hend : (makeHoleAdd p n s).endp = s.endp + n := by rw [makeHoleAdd_eq hroom]
  rw [makeHoleDeleteN, makeHoleDelete_apply (by omega) (by omega), hend]
  split_ifs with h
  · rw [makeHoleAdd_apply hp hroom, if_neg (by omega), if_pos (by omega)]
    congr 1
    omega
  · rw [makeHoleAdd_apply hp hroom, if_neg (by omega), if_neg (by omega)]

theorem restores (hp : p ≤ s.endp) (hn : 0 < n) (hroom : s.endp + n ≤ s.textend)
    (hnul : s.mem s.endp = NUL) : Restores p n s := by
  have hend : (makeHoleDeleteN p n (makeHoleAdd p n s)).endp = s.endp := by
    rw [makeHoleDeleteN, makeHoleDelete_endp (by omega), makeHoleAdd_eq hroom]
    dsimp only
    omega
  refine ⟨?_, hend, ?_⟩
  · rw [Vi.text, Vi.text, hend]
    exact bytes_congr fun i hi => makeHoleDeleteN_makeHoleAdd hp hn hroom (by omega)
  · rw [makeHoleDeleteN_makeHoleAdd hp hn hroom le_rfl]
    exact hnul

/-- **Holes are list edits.** `make_hole_add` inserts spaces, `make_hole_delete` takes out a range,
and `make_hole_deleteN` undoes `make_hole_add`. -/
theorem holes (s : Vi W) (hnul : s.mem s.endp = NUL) :
    (∀ (p : ℤ) (n : ℕ), 0 ≤ p → p ≤ s.endp → 0 < n → s.endp + n ≤ s.textend →
      AddsHole p n s ∧ Restores p n s) ∧
    ∀ a b : ℤ, 0 ≤ a → a ≤ s.endp - 1 → 0 ≤ b → b ≤ s.endp - 1 → RemovesHole a b s :=
  ⟨fun _ _ h0 hp hn hroom => ⟨addsHole h0 hp hroom hnul, restores hp hn hroom hnul⟩,
    fun _ _ ha0 ha hb0 hb => removesHole ha0 hb0 ha hb hnul⟩

/-- `holes` in a text of two characters: a space between them, and the first one taken out. -/
theorem holes_two : (AddsHole 1 1 (smallFile (str "ab")) ∧ Restores 1 1 (smallFile (str "ab"))) ∧
    RemovesHole 0 0 (smallFile (str "ab")) :=
  ⟨(holes (smallFile (str "ab")) (by decide)).1 1 1 (by decide) (by decide) (by decide)
      (by decide),
    (holes (smallFile (str "ab")) (by decide)).2 0 0 (by decide) (by decide) (by decide)
      (by decide)⟩

end HgXv6
