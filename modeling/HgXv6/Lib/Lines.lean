import Mathlib.Data.List.InsertIdx

set_option relaxedAutoImplicit false
set_option autoImplicit false

/-!
# Lines

A list with a separator is a list of lines: the pieces between two separators, before the first one
and behind the last one. A line that is inserted into the list together with one separator is
inserted into the list of lines.

## Main results

* `Prog.length_splitOn` — there is one more line than separators.
* `Prog.splitOn_insert_line`, `Prog.splitOn_first_line` — a line inserted behind a separator, and
  before all others.
* `Prog.splitOn_last_line` — a line inserted behind all others.
-/

namespace Prog

variable {α : Type} [BEq α] {sep : α} {line : List α}

/-- An insertion behind a first part. -/
theorem insertIdx_append_length {β : Type} (l l' : List β) (x : β) :
    (l ++ l').insertIdx l.length x = l ++ x :: l' := by
  induction l with
  | nil => rfl
  | cons y l ih =>
    rw [List.cons_append, List.length_cons, List.insertIdx_succ_cons, ih]
    rfl

/-- There is one more line than separators. -/
theorem length_splitOn (l : List α) : (l.splitOn sep).length = l.count sep + 1 := by
  induction l with
  | nil => rfl
  | cons x l ih =>
    rw [List.splitOn_cons_eq_if_modifyHead, List.count_cons]
    split_ifs with h
    · rw [List.length_cons, ih]
    · rw [List.length_modifyHead, ih]

variable [LawfulBEq α]

/-- The lines determine the list. -/
theorem splitOn_injective : Function.Injective (List.splitOn sep) := by
  intro l l' h
  have hjoin : ∀ k : List α, [sep].intercalate (k.splitOn sep) = k :=
    fun k => List.intercalate_splitOn sep
  rw [← hjoin l, ← hjoin l', h]

/-- A line that is inserted behind a separator comes behind the line that ends there. -/
theorem splitOn_insert_line (l l' : List α) (h : sep ∉ line) :
    (l ++ sep :: (line ++ sep :: l')).splitOn sep =
      ((l ++ sep :: l').splitOn sep).insertIdx (l.count sep + 1) line := by
  rw [List.splitOn_append_cons_self, List.splitOn_append_cons_self, List.splitOn_append_cons_self,
    List.splitOn_eq_singleton h, ← length_splitOn, insertIdx_append_length]
  rfl

/-- A line that is inserted at the start comes before all others. -/
theorem splitOn_first_line (l : List α) (h : sep ∉ line) :
    (line ++ sep :: l).splitOn sep = (l.splitOn sep).insertIdx 0 line := by
  rw [List.splitOn_append_cons_self, List.splitOn_eq_singleton h, List.insertIdx_zero]
  rfl

/-- A line that is inserted at the end comes behind all others. -/
theorem splitOn_last_line (l : List α) (h : sep ∉ line) :
    (l ++ sep :: line).splitOn sep = (l.splitOn sep).insertIdx (l.count sep + 1) line := by
  rw [List.splitOn_append_cons_self, List.splitOn_eq_singleton h, ← length_splitOn,
    List.insertIdx_length_self]

end Prog
