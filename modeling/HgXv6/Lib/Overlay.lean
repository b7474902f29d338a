import Mathlib.Data.List.Basic
import Mathlib.Tactic.Ring

set_option relaxedAutoImplicit false
set_option autoImplicit false

/-!
# Byte arrays that grow

The contents of a file, or of any array that is written at an offset, are a function of the
position together with a length. A write lays a list over the function.

## Main definitions

* `Prog.overlay f off src` — `f` with the list `src` laid over it from `off` on.
* `Prog.firstOf f n` — the first `n` values of `f`.

## Main results

* `Prog.overlay_append` — two writes in sequence are one.
* `Prog.firstOf_overlay` — what a write does to the contents as a list.
-/

namespace Prog

variable {α : Type}

/-- `f` with the list `src` laid over it from `off` on. -/
def overlay (f : ℕ → α) (off : ℕ) (src : List α) : ℕ → α :=
  fun i => if off ≤ i then (src[i - off]?).getD (f i) else f i

variable {f : ℕ → α} {off n i : ℕ} {src src' : List α}

/-- Before the list nothing changes. -/
theorem overlay_of_lt (h : i < off) : overlay f off src i = f i := if_neg (by omega)

/-- Behind the list nothing changes. -/
theorem overlay_of_le (h : off + src.length ≤ i) : overlay f off src i = f i := by
  unfold overlay
  split_ifs
  · rw [List.getElem?_eq_none (by omega), Option.getD_none]
  · rfl

/-- The list itself. -/
theorem overlay_of_mem (h1 : off ≤ i) (h2 : i - off < src.length) :
    overlay f off src i = src[i - off] := by
  rw [overlay, if_pos h1, List.getElem?_eq_getElem h2, Option.getD_some]

@[simp] theorem overlay_nil (f : ℕ → α) (off : ℕ) : overlay f off [] = f :=
  funext fun i => by simp [overlay]

/-- A list of one value. -/
theorem overlay_singleton (f : ℕ → α) (off : ℕ) (a : α) :
    overlay f off [a] = Function.update f off a := by
  funext i
  rcases Nat.lt_trichotomy i off with h | rfl | h
  · rw [overlay_of_lt h, Function.update_of_ne h.ne]
  · rw [overlay_of_mem le_rfl (by simp), Function.update_self]
    simp
  · rw [overlay_of_le h, Function.update_of_ne h.ne']

/-- Only the values outside the list are read. -/
theorem overlay_congr {g : ℕ → α} (h : i < off ∨ off + src.length ≤ i → f i = g i) :
    overlay f off src i = overlay g off src i := by
  rcases Nat.lt_or_ge i off with h1 | h1
  · rw [overlay_of_lt h1, overlay_of_lt h1, h (.inl h1)]
  rcases Nat.lt_or_ge i (off + src.length) with h2 | h2
  · rw [overlay_of_mem h1 (by omega), overlay_of_mem h1 (by omega)]
  · rw [overlay_of_le h2, overlay_of_le h2, h (.inr h2)]

/-- Two lists laid one behind the other are one list. -/
theorem overlay_append (f : ℕ → α) (off : ℕ) (src src' : List α) :
    overlay (overlay f off src) (off + src.length) src' = overlay f off (src ++ src') := by
  funext i
  rcases Nat.lt_or_ge i off with h1 | h1
  · rw [overlay_of_lt (by omega), overlay_of_lt h1, overlay_of_lt h1]
  rcases Nat.lt_or_ge i (off + src.length) with h2 | h2
  · rw [overlay_of_lt h2, overlay_of_mem h1 (by omega),
      overlay_of_mem h1 (by rw [List.length_append]; omega), List.getElem_append_left (by omega)]
  rcases Nat.lt_or_ge i (off + src.length + src'.length) with h3 | h3
  · rw [overlay_of_mem h2 (by omega), overlay_of_mem h1 (by rw [List.length_append]; omega),
      List.getElem_append_right (by omega)]
    congr 1
    omega
  · rw [overlay_of_le h3, overlay_of_le h2, overlay_of_le (by rw [List.length_append]; omega)]

/-- The first `n` values. -/
def firstOf (f : ℕ → α) (n : ℕ) : List α := (List.range n).map f

@[simp] theorem length_firstOf (f : ℕ → α) (n : ℕ) : (firstOf f n).length = n := by
  simp [firstOf]

@[simp] theorem getElem_firstOf (f : ℕ → α) (n i : ℕ) (h : i < (firstOf f n).length) :
    (firstOf f n)[i] = f i := by
  simp [firstOf]

theorem firstOf_congr {g : ℕ → α} (h : ∀ i < n, f i = g i) : firstOf f n = firstOf g n :=
  List.map_congr_left fun i hi => h i (List.mem_range.mp hi)

/-- The first values, and those that follow. -/
theorem firstOf_add (f : ℕ → α) (m n : ℕ) :
    firstOf f (m + n) = firstOf f m ++ firstOf (fun i => f (m + i)) n := by
  simp [firstOf, List.range_add, Function.comp_def]

theorem take_firstOf (f : ℕ → α) (m n : ℕ) : (firstOf f n).take m = firstOf f (min m n) := by
  rw [firstOf, firstOf, ← List.map_take, List.take_range]

theorem drop_firstOf (f : ℕ → α) (m n : ℕ) :
    (firstOf f n).drop m = firstOf (fun i => f (m + i)) (n - m) := by
  refine List.ext_getElem ?_ fun i _ _ => ?_
  · simp
  · simp

/-- A write within the contents, or at their end: what was before it, the list that is written,
and what was behind it. -/
theorem firstOf_overlay (f : ℕ → α) (src : List α) (h : off ≤ n) :
    firstOf (overlay f off src) (max n (off + src.length)) =
      (firstOf f n).take off ++ src ++ (firstOf f n).drop (off + src.length) := by
  have hoff : ((firstOf f n).take off).length = off := by simp [h]
  refine List.ext_getElem ?_ fun i h1 h2 => ?_
  · simp only [length_firstOf, List.length_append, List.length_take, List.length_drop]
    omega
  simp only [length_firstOf] at h1
  rw [getElem_firstOf]
  rcases Nat.lt_or_ge i off with hi | hi
  · rw [overlay_of_lt hi, List.getElem_append_left (by rw [List.length_append]; omega),
      List.getElem_append_left (by omega)]
    simp
  rcases Nat.lt_or_ge i (off + src.length) with hi' | hi'
  · rw [overlay_of_mem hi (by omega),
      List.getElem_append_left (by rw [List.length_append]; omega),
      List.getElem_append_right (by omega)]
    simp only [hoff]
  · rw [overlay_of_le hi', List.getElem_append_right (by rw [List.length_append]; omega)]
    simp only [List.getElem_drop, getElem_firstOf, List.length_append, hoff]
    congr 1
    omega

end Prog
