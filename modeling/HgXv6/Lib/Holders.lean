import Mathlib.Algebra.BigOperators.Ring.Finset
import Mathlib.Tactic.Linarith
import Mathlib.Tactic.Ring

set_option relaxedAutoImplicit false
set_option autoImplicit false

/-!
# Counted references

A finite number of places hold references to resources, each to one or to none. A reference count
is exact if it is the number of places that hold the resource, plus the references that a program
holds itself for the time being; these may be negative where a place is filled before its
reference is counted.

## Main definitions

* `Prog.holders S g a` — how many places of `S` hold `a`.
* `Prog.CountsWith S g ref e` — the counts `ref` are those of the places, plus `e`.

## Main results

* `Prog.holders_update` — a place that is filled or emptied.
* `Prog.CountsWith.update`, `Prog.CountsWith.setRef` — the two changes to exact counts.
-/

namespace Prog

variable {ι α : Type} [DecidableEq α] {S : Finset ι} {g : ι → Option α} {ref : α → ℤ} {e : α → ℤ}

/-- How many places of `S` hold `a`. -/
def holders (S : Finset ι) (g : ι → Option α) (a : α) : ℕ := (S.filter fun i => g i = some a).card

/-- A place holds the resource exactly if its count is positive. -/
theorem holders_pos {a : α} : 0 < holders S g a ↔ ∃ i ∈ S, g i = some a := by
  unfold holders
  rw [Finset.card_pos]
  exact ⟨fun ⟨i, hi⟩ => ⟨i, Finset.mem_filter.mp hi⟩, fun ⟨i, hi⟩ => ⟨i, Finset.mem_filter.mpr hi⟩⟩

/-- Nothing holds anything. -/
theorem holders_eq_zero {a : α} (h : ∀ i ∈ S, g i ≠ some a) : holders S g a = 0 := by
  unfold holders
  rw [Finset.card_eq_zero, Finset.filter_eq_empty_iff]
  exact fun {i} => h i

/-- Whether a place holds the resource, as a number. -/
def holds (v : Option α) (a : α) : ℤ := if v = some a then 1 else 0

@[simp] theorem holds_self (a : α) : holds (some a) a = 1 := if_pos rfl

@[simp] theorem holds_none (a : α) : holds none a = 0 := if_neg nofun

theorem holds_of_ne {a b : α} (h : b ≠ a) : holds (some a) b = 0 :=
  if_neg fun heq => h (Option.some.inj heq).symm

theorem holds_nonneg (v : Option α) (a : α) : 0 ≤ holds v a := by
  unfold holds
  split_ifs
  · exact Int.one_nonneg
  · exact le_rfl

/-- The counts are the numbers of places, plus the references `e` that a program holds. -/
def CountsWith (S : Finset ι) (g : ι → Option α) (ref : α → ℤ) (e : α → ℤ) : Prop :=
  ∀ a, ref a = holders S g a + e a

/-- A count that is changed: the program holds the difference. -/
theorem CountsWith.setRef (h : CountsWith S g ref e) (a : α) (n : ℤ) :
    CountsWith S g (Function.update ref a (ref a + n)) (fun b => e b + n * holds (some a) b) := by
  intro b
  by_cases hb : b = a
  · subst hb
    dsimp only
    rw [Function.update_self, h b, holds_self]
    ring
  · dsimp only
    rw [Function.update_of_ne hb, h b, holds_of_ne hb]
    ring

/-- The references that the program holds may be written in another way. -/
theorem CountsWith.congr (h : CountsWith S g ref e) {e' : α → ℤ} (heq : ∀ a, e a = e' a) :
    CountsWith S g ref e' := fun a => (h a).trans (by rw [heq a])

variable [DecidableEq ι]

/-- What a place that is filled or emptied changes. -/
theorem holders_update {i : ι} (hi : i ∈ S) (v : Option α) (a : α) :
    (holders S (Function.update g i v) a : ℤ) = holders S g a - holds (g i) a + holds v a := by
  have hsum : ∀ g' : ι → Option α,
      (holders S g' a : ℤ) = holds (g' i) a + ∑ j ∈ S.erase i, holds (g' j) a := by
    intro g'
    unfold holders
    rw [Finset.add_sum_erase S (fun j => holds (g' j) a) hi, Finset.card_filter, Nat.cast_sum]
    refine Finset.sum_congr rfl fun j _ => ?_
    unfold holds
    split_ifs
    · rfl
    · rfl
  have hrest : ∑ j ∈ S.erase i, holds (Function.update g i v j) a =
      ∑ j ∈ S.erase i, holds (g j) a :=
    Finset.sum_congr rfl fun j hj => by rw [Function.update_of_ne (Finset.ne_of_mem_erase hj)]
  rw [hsum, hsum g, hrest, Function.update_self]
  linarith

/-- A place that is filled or emptied: the reference it gives up is held by the program, and the
one it takes no longer is. -/
theorem CountsWith.update (h : CountsWith S g ref e) {i : ι} (hi : i ∈ S) (v : Option α) :
    CountsWith S (Function.update g i v) ref (fun a => e a + holds (g i) a - holds v a) := by
  intro a
  rw [h a, holders_update hi v a]
  ring

end Prog
