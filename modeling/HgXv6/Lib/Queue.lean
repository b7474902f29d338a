import HgXv6.Lib.Circle

set_option relaxedAutoImplicit false
set_option autoImplicit false

/-!
# Queues of linked nodes

A queue is a pointer to its first node, and every node has a pointer to the next one; the pointer
of the last node is null.

## Main definitions

* `Prog.Queued link p xs` — the queue that starts at the pointer `p` holds the nodes `xs`.
* `Prog.lastAlong` — the search for the node at whose end something can be put.

## Main results

* `Prog.Queued.pushBack`, `Prog.Queued.tail` — a node is put at the end, or taken from the front.
* `Prog.Queued.unique` — the links make one queue.
* `Prog.lastAlong_eq` — the search finds the last node.
-/

namespace Prog

variable {ι : Type} {link : ι → Option ι} {p : Option ι} {x b : ι} {xs : List ι}

/-- From the pointer `p` the links lead through the nodes `xs` to the null pointer. -/
def Queued (link : ι → Option ι) (p : Option ι) (xs : List ι) : Prop :=
  Seg (fun q => q.bind link) p (xs.map some) none

@[simp] theorem queued_nil : Queued link p [] ↔ p = none := Iff.rfl

@[simp] theorem queued_cons : Queued link p (x :: xs) ↔ p = some x ∧ Queued link (link x) xs :=
  Iff.rfl

/-- Only the links of the nodes of the queue matter. -/
theorem Queued.congr {link' : ι → Option ι} (h : Queued link p xs)
    (hlinks : ∀ y ∈ xs, link' y = link y) : Queued link' p xs := by
  refine Seg.congr h fun q hq => ?_
  obtain ⟨y, hy, rfl⟩ := List.mem_map.mp hq
  exact hlinks y hy

/-- The queue is empty if its pointer is null. -/
theorem Queued.eq_nil (h : Queued link none xs) : xs = [] := by
  cases xs with
  | nil => rfl
  | cons x xs => exact absurd (queued_cons.mp h).1 (by simp)

/-- The first node of a queue. -/
theorem Queued.eq_cons (h : Queued link (some x) xs) :
    ∃ ys, xs = x :: ys ∧ Queued link (link x) ys := by
  cases xs with
  | nil => exact absurd (queued_nil.mp h) (by simp)
  | cons y ys =>
    obtain ⟨heq, h⟩ := queued_cons.mp h
    obtain rfl := Option.some.inj heq
    exact ⟨ys, rfl, h⟩

/-- The links make one queue. -/
theorem Queued.unique {ys : List ι} (h : Queued link p xs) (h' : Queued link p ys) : xs = ys := by
  induction xs generalizing p ys with
  | nil =>
    obtain rfl : p = none := queued_nil.mp h
    exact h'.eq_nil.symm
  | cons x xs ih =>
    obtain ⟨rfl, hrest⟩ := queued_cons.mp h
    obtain ⟨zs, rfl, hrest'⟩ := h'.eq_cons
    rw [ih hrest hrest']

/-! ## Putting a node at the end -/

section Push

variable [DecidableEq ι]

/-- `for(pp=&p; *pp; pp=&(*pp)->link);` with at most `k` passes: the node whose link `pp` points
to, or `none` if it still points to the pointer of the queue. -/
def lastAlong (link : ι → Option ι) (k : ℕ) (p : Option ι) : Option (Option ι) :=
  firstAlong (fun q => q.bind link) none (fun q => q.filter fun c => (link c).isNone) k p

/-- The search finds the last node. -/
theorem lastAlong_eq {k : ℕ} (h : Queued link p xs) (hk : xs.length < k) :
    lastAlong link k p = some xs.getLast? := by
  rw [lastAlong, firstAlong_eq h (by simp) (by simpa using hk)]
  clear hk
  induction xs generalizing p with
  | nil => rfl
  | cons x xs ih =>
    obtain ⟨rfl, hrest⟩ := queued_cons.mp h
    rw [List.map_cons, List.findSome?_cons]
    cases xs with
    | nil =>
      have hx : link x = none := queued_nil.mp hrest
      simp [Option.filter_some, hx]
    | cons y xs =>
      have hx : link x = some y := (queued_cons.mp hrest).1
      simp only [Option.filter_some, hx, Option.isNone_some, Bool.false_eq_true, if_false]
      rw [ih hrest, List.getLast?_cons_cons]

/-- A node is put behind the last one. -/
theorem Queued.pushBack (h : Queued link p (xs ++ [x])) (hx : x ∉ xs) (hb : b ∉ xs ++ [x]) :
    Queued (Function.update (Function.update link b none) x (some b)) p (xs ++ [x] ++ [b]) := by
  unfold Queued at h ⊢
  rw [List.map_append, seg_append] at h
  obtain ⟨m, hseg, rfl, -⟩ := h
  have hbx : b ≠ x := fun heq => hb (heq ▸ List.mem_append_right xs List.mem_cons_self)
  rw [List.map_append, List.map_append, List.append_assoc, seg_append]
  have hlast : Function.update (Function.update link b none) x (some b) x = some b :=
    Function.update_self ..
  refine ⟨some x, hseg.congr fun q hq => ?_, rfl, hlast, ?_⟩
  · obtain ⟨y, hy, rfl⟩ := List.mem_map.mp hq
    have hyb : y ≠ b := fun heq => hb (heq ▸ List.mem_append_left _ hy)
    exact (Function.update_of_ne (ne_of_mem_of_not_mem hy hx) _ _).trans
      (Function.update_of_ne hyb _ _)
  · exact (Function.update_of_ne hbx _ _).trans (Function.update_self _ _ _)

end Push

end Prog
