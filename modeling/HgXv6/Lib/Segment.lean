import Mathlib.Data.List.Nodup
import Mathlib.Order.Basic

set_option relaxedAutoImplicit false
set_option autoImplicit false

/-!
# Segments of linked lists

The nodes of a linked structure are the elements of a type, and its links are a function. A
segment is a list of nodes in the order in which the links lead through them; a circular list is
a segment that ends where it starts.

## Main definitions

* `Prog.Seg next a xs b` — from `a` the links lead through the nodes `xs` to `b`.

## Main results

* `Prog.seg_append`, `Prog.Seg.rotate` — segments are put together, and circles are turned.
* `Prog.Seg.congr` — links outside of a segment do not matter.
* `Prog.Seg.unique` — there is one segment between two nodes.
* `Prog.Seg.next_mem`, `Prog.Seg.exists_next`, `Prog.Seg.lt_next` — where a link of a segment
  leads.
* `Prog.Seg.backward` — what the end of a segment has, and every node takes over from the next
  one, all its nodes have.
-/

namespace Prog

variable {α : Type}

/-- From `a` the links `next` lead through the nodes `xs`, of which `a` is the first, to `b`. -/
def Seg (next : α → α) : α → List α → α → Prop
  | a, [], b => a = b
  | a, x :: xs, b => a = x ∧ Seg next (next x) xs b

variable {next next' : α → α} {a b x : α} {xs ys : List α}

@[simp] theorem seg_nil : Seg next a [] b ↔ a = b := Iff.rfl

@[simp] theorem seg_cons : Seg next a (x :: xs) b ↔ a = x ∧ Seg next (next x) xs b := Iff.rfl

/-- Two segments, one behind the other. -/
theorem seg_append : Seg next a (xs ++ ys) b ↔ ∃ m, Seg next a xs m ∧ Seg next m ys b := by
  induction xs generalizing a with
  | nil => simp
  | cons x xs ih => simp [ih, and_assoc]

/-- A circle may be entered anywhere. -/
theorem Seg.rotate (h : Seg next a (xs ++ ys) a) : ∃ m, Seg next m (ys ++ xs) m := by
  obtain ⟨m, hxs, hys⟩ := seg_append.mp h
  exact ⟨m, seg_append.mpr ⟨a, hys, hxs⟩⟩

/-- Only the links of the nodes matter. -/
theorem Seg.congr (h : Seg next a xs b) (hlinks : ∀ x ∈ xs, next' x = next x) :
    Seg next' a xs b := by
  induction xs generalizing a with
  | nil => exact h
  | cons x xs ih =>
    rw [seg_cons] at h ⊢
    rw [hlinks x List.mem_cons_self]
    exact ⟨h.1, ih h.2 fun y hy => hlinks y (List.mem_cons_of_mem x hy)⟩

/-- Two segments between the same nodes are the same, if neither passes the end. -/
theorem Seg.unique (h : Seg next a xs b) (h' : Seg next a ys b) (hb : b ∉ xs) (hb' : b ∉ ys) :
    xs = ys := by
  induction xs generalizing a ys with
  | nil =>
    cases ys with
    | nil => rfl
    | cons y ys =>
      obtain ⟨hy, -⟩ := seg_cons.mp h'
      exact absurd (hy ▸ (seg_nil.mp h) ▸ List.mem_cons_self) hb'
  | cons x xs ih =>
    obtain ⟨rfl, hrest⟩ := seg_cons.mp h
    cases ys with
    | nil => exact absurd ((seg_nil.mp h') ▸ List.mem_cons_self) hb
    | cons y ys =>
      obtain ⟨rfl, hrest'⟩ := seg_cons.mp h'
      rw [ih hrest hrest' (List.not_mem_of_not_mem_cons hb) (List.not_mem_of_not_mem_cons hb')]

/-- A link leads to a node behind the first, or to the end. -/
theorem Seg.next_mem (h : Seg next a xs b) (hx : x ∈ xs) : next x ∈ xs.tail ∨ next x = b := by
  induction xs generalizing a with
  | nil => exact absurd hx List.not_mem_nil
  | cons y xs ih =>
    rw [seg_cons] at h
    rcases List.mem_cons.mp hx with rfl | hx
    · cases xs with
      | nil => exact .inr h.2
      | cons z xs => exact .inl (by rw [h.2.1]; exact List.mem_cons_self)
    · rcases ih h.2 hx with hmem | hend
      · exact .inl (List.mem_of_mem_tail hmem)
      · exact .inr hend

/-- A node is the first one, or a link leads to it. -/
theorem Seg.exists_next (h : Seg next a xs b) (hx : x ∈ xs) : x = a ∨ ∃ y ∈ xs, next y = x := by
  induction xs generalizing a with
  | nil => exact absurd hx List.not_mem_nil
  | cons y xs ih =>
    rw [seg_cons] at h
    rcases List.mem_cons.mp hx with rfl | hx
    · exact .inl h.1.symm
    · rcases ih h.2 hx with rfl | ⟨z, hz, hlink⟩
      · exact .inr ⟨y, List.mem_cons_self, rfl⟩
      · exact .inr ⟨z, List.mem_cons_of_mem y hz, hlink⟩

/-- In an ordered segment a link leads up, or to the end. -/
theorem Seg.lt_next [LT α] (h : Seg next a xs b) (hsorted : xs.Pairwise (· < ·)) (hx : x ∈ xs) :
    x < next x ∨ next x = b := by
  induction xs generalizing a with
  | nil => exact absurd hx List.not_mem_nil
  | cons y xs ih =>
    rw [seg_cons] at h
    rw [List.pairwise_cons] at hsorted
    rcases List.mem_cons.mp hx with rfl | hx
    · cases xs with
      | nil => exact .inr h.2
      | cons z xs => exact .inl (by rw [h.2.1]; exact hsorted.1 z List.mem_cons_self)
    · exact ih h.2 hsorted.2 hx

/-- The end of a segment has a property, and every node has it if the next one has: then its
start has it, and all its nodes. -/
theorem Seg.backward {P : α → Prop} (h : Seg next a xs b) (hstep : ∀ x ∈ xs, P (next x) → P x)
    (hb : P b) : P a ∧ ∀ x ∈ xs, P x := by
  induction xs generalizing a with
  | nil => exact ⟨(show a = b from h) ▸ hb, fun x hx => absurd hx List.not_mem_nil⟩
  | cons y xs ih =>
    rw [seg_cons] at h
    obtain ⟨hnext, hall⟩ := ih h.2 fun x hx => hstep x (List.mem_cons_of_mem y hx)
    have hy := hstep y List.mem_cons_self hnext
    exact ⟨h.1 ▸ hy, List.forall_mem_cons.mpr ⟨hy, hall⟩⟩

end Prog
