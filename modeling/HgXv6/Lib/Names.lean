import Mathlib.Data.Set.Card
import Mathlib.Logic.Relation
import Mathlib.Tactic.Linarith

set_option relaxedAutoImplicit false
set_option autoImplicit false

/-!
# Counted names

An element that several places name has a counter, which is right if it is the number of the
places. Places come and go one at a time. Elements are reached from a root along the names, and
what is reached stays so when more is named, or when an element that names nothing loses a name.

## Main definitions

* `Prog.Counts S c` — the set `S` is finite and has `c` elements.

## Main results

* `Prog.Counts.insert`, `Prog.Counts.erase`, `Prog.Counts.insert_iff` — a place comes or goes.
* `Prog.reach_of_leaf` — a leaf may be cut off.
-/

namespace Prog

open Relation

variable {α β : Type} {S : Set β} {c : ℤ} {x : β}

/-- The set is finite, and the counter is the number of its elements. -/
def Counts (S : Set β) (c : ℤ) : Prop := ∃ m : ℕ, S.encard = m ∧ c = m

theorem Counts.empty : Counts (∅ : Set β) 0 := ⟨0, by simp, rfl⟩

/-- One more place. -/
theorem Counts.insert (h : Counts S c) (hx : x ∉ S) : Counts (Insert.insert x S) (c + 1) := by
  obtain ⟨m, hm, rfl⟩ := h
  refine ⟨m + 1, ?_, by simp⟩
  rw [Set.encard_insert_of_notMem hx, hm]
  rfl

/-- One place less. -/
theorem Counts.erase (h : Counts S c) (hx : x ∈ S) : Counts (S \ {x}) (c - 1) := by
  obtain ⟨m, hm, rfl⟩ := h
  have hcard := Set.encard_sdiff_add_encard_of_subset (Set.singleton_subset_iff.mpr hx)
  rw [Set.encard_singleton, hm] at hcard
  have hfin : (S \ {x}).Finite := (Set.finite_of_encard_eq_coe hm).sdiff
  obtain ⟨m', hm'⟩ := hfin.exists_encard_eq_coe
  rw [hm'] at hcard
  have heq : m' + 1 = m := by exact_mod_cast hcard
  exact ⟨m', hm', by omega⟩

theorem Counts.insert_iff (hx : x ∉ S) : Counts (Insert.insert x S) (c + 1) ↔ Counts S c := by
  refine ⟨fun h => ?_, fun h => h.insert hx⟩
  have herase := h.erase (Set.mem_insert x S)
  rwa [Set.insert_sdiff_self_of_notMem hx, add_sub_cancel_right] at herase

/-- The counter is zero exactly if there are no places. -/
theorem Counts.eq_zero_iff (h : Counts S c) : c = 0 ↔ S = ∅ := by
  obtain ⟨m, hm, rfl⟩ := h
  rw [← Set.encard_eq_zero, hm]
  norm_cast

theorem Counts.nonneg (h : Counts S c) : 0 ≤ c := by
  obtain ⟨m, -, rfl⟩ := h
  exact Int.natCast_nonneg m

/-- The counter of a set with an element is positive. -/
theorem Counts.pos (h : Counts S c) (hx : x ∈ S) : 0 < c := by
  refine lt_of_le_of_ne h.nonneg fun hzero => ?_
  rw [h.eq_zero_iff.mp hzero.symm] at hx
  exact hx

/-- As a cardinality. -/
theorem Counts.ncard (h : Counts S c) : S.Finite ∧ c = S.ncard := by
  obtain ⟨m, hm, rfl⟩ := h
  refine ⟨Set.finite_of_encard_eq_coe hm, ?_⟩
  rw [Set.ncard, hm]
  rfl

variable {r r' : α → α → Prop} {a i y : α}

/-- What is reached stays reached if an element that leads nowhere is cut off. -/
theorem reach_of_leaf (hleaf : ∀ z, ¬r i z) (hr : ∀ w z, r w z → z ≠ i → r' w z)
    (h : ReflTransGen r a y) (hy : y ≠ i) : ReflTransGen r' a y := by
  induction h with
  | refl => exact .refl
  | @tail b c _ hbc ih =>
    have hb : b ≠ i := by
      rintro rfl
      exact hleaf c hbc
    exact (ih hb).tail (hr b c hbc hy)

/-- What is reached has each property that the root has and that is passed on. -/
theorem reach_induction {P : α → Prop} (h : ReflTransGen r a y) (ha : P a)
    (hr : ∀ w z, P w → r w z → P z) : P y := by
  induction h with
  | refl => exact ha
  | tail _ hbc ih => exact hr _ _ ih hbc

end Prog
