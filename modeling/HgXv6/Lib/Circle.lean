import HgXv6.Lib.Segment
import Mathlib.Data.List.Chain

set_option relaxedAutoImplicit false
set_option autoImplicit false

/-!
# Circular lists with links both ways

A list that is closed by a header: from the header the forward links lead through all its nodes
and back, and the backward links lead through them the other way. Nodes are taken out and put
behind the header by changing the links of their neighbours.

## Main definitions

* `Prog.Links` — the links of all nodes.
* `Prog.Circle L h xs` — the links make the nodes `xs` a circle behind the header `h`.
* `Prog.Links.unlink`, `Prog.Links.pushFront` — the changes.
* `Prog.firstAlong` — the search along links.

## Main results

* `Prog.Circle.unlink`, `Prog.Circle.pushFront` — what the changes do to the circle.
* `Prog.Circle.seg_next`, `Prog.Circle.seg_prev` — a circle is a segment in both directions.
* `Prog.firstAlong_eq` — the search finds the first node of a segment that has a value.
-/

namespace Prog

variable {α : Type}

/-- The links of the nodes of a list with links both ways. -/
structure Links (α : Type) where
  next : α → α
  prev : α → α

/-- `y` stands behind `x`. -/
def Links.Linked (L : Links α) (x y : α) : Prop := L.next x = y ∧ L.prev y = x

/-- The nodes `xs`, in this order, are a circle that is closed by the header `h`. -/
structure Circle (L : Links α) (h : α) (xs : List α) : Prop where
  chain : List.IsChain L.Linked (h :: xs ++ [h])
  nodup : (h :: xs).Nodup

variable {L L' : Links α} {h b : α} {xs ys : List α}

/-- Only the forward links of all but the last, and the backward links of all but the first
matter. -/
theorem isChain_linked_congr {l : List α} (hl : l.IsChain L.Linked)
    (hnext : ∀ x ∈ l.dropLast, L'.next x = L.next x) (hprev : ∀ y ∈ l.tail, L'.prev y = L.prev y) :
    l.IsChain L'.Linked := by
  induction l with
  | nil => exact List.isChain_nil
  | cons x l ih =>
    cases l with
    | nil => exact List.isChain_singleton x
    | cons y l =>
      rw [List.isChain_cons_cons] at hl ⊢
      refine ⟨⟨?_, ?_⟩, ih hl.2 ?_ ?_⟩
      · rw [hnext x (by simp)]
        exact hl.1.1
      · rw [hprev y (by simp)]
        exact hl.1.2
      · intro z hz
        exact hnext z (by simpa using .inr hz)
      · intro z hz
        exact hprev z (List.mem_cons_of_mem y hz)

/-- The header alone. -/
theorem Circle.nil (hnext : L.next h = h) (hprev : L.prev h = h) : Circle L h [] :=
  ⟨List.isChain_pair.mpr ⟨hnext, hprev⟩, List.nodup_singleton h⟩

/-! ## Walking through a circle -/

/-- The forward links lead through a circle. -/
theorem Circle.seg_next (hc : Circle L h xs) : Seg L.next (L.next h) xs h := by
  suffices hgen : ∀ (a : α) (l : List α), List.IsChain L.Linked (a :: l ++ [h]) →
      Seg L.next (L.next a) l h from hgen h xs hc.chain
  intro a l hl
  induction l generalizing a with
  | nil => exact (List.isChain_pair.mp hl).1
  | cons x l ih =>
    obtain ⟨hax, hl⟩ := List.isChain_cons_cons.mp hl
    exact ⟨hax.1, ih x hl⟩

/-- The circle seen from the other side. -/
theorem Circle.reverse (hc : Circle L h xs) : Circle ⟨L.prev, L.next⟩ h xs.reverse := by
  refine ⟨?_, ?_⟩
  · have hrev : h :: xs.reverse ++ [h] = (h :: xs ++ [h]).reverse := by simp
    rw [hrev, List.isChain_reverse]
    exact hc.chain.imp fun x y hxy => ⟨hxy.2, hxy.1⟩
  · have := hc.nodup
    rw [List.nodup_cons] at this ⊢
    exact ⟨fun hmem => this.1 (List.mem_reverse.mp hmem), List.nodup_reverse.mpr this.2⟩

/-- The backward links lead through a circle the other way. -/
theorem Circle.seg_prev (hc : Circle L h xs) : Seg L.prev (L.prev h) xs.reverse h :=
  hc.reverse.seg_next

/-! ## Searching -/

section Search

variable {β : Type} [DecidableEq α] {link : α → α} {f : α → Option β}

/-- `for(b = x; b != stop; b = link b) if(f b) return f b;` with at most `k` passes. -/
def firstAlong (link : α → α) (stop : α) (f : α → Option β) : ℕ → α → Option (Option β)
  | 0, _ => none
  | k + 1, x =>
    if x = stop then some none
    else if (f x).isSome then some (f x) else firstAlong link stop f k (link x)

/-- The search along a segment finds its first node with a value. -/
theorem firstAlong_eq {stop x : α} {k : ℕ} (hseg : Seg link x xs stop) (hstop : stop ∉ xs)
    (hk : xs.length < k) : firstAlong link stop f k x = some (xs.findSome? f) := by
  induction xs generalizing x k with
  | nil =>
    obtain ⟨k, rfl⟩ := Nat.exists_eq_add_of_lt hk
    simp [firstAlong, show x = stop from hseg]
  | cons y xs ih =>
    obtain ⟨k, rfl⟩ := Nat.exists_eq_add_of_lt hk
    obtain ⟨rfl, hseg⟩ := seg_cons.mp hseg
    obtain ⟨hne, hstop⟩ := List.ne_and_not_mem_of_not_mem_cons hstop
    rw [firstAlong, if_neg hne.symm, List.findSome?_cons]
    cases hf : f x with
    | some b => rfl
    | none =>
      refine ih hseg hstop ?_
      simp only [List.length_cons]
      omega

end Search

/-! ## Changing the links -/

section Change

variable [DecidableEq α]

/-- `x->next = y` -/
def Links.setNext (L : Links α) (x y : α) : Links α := { L with next := Function.update L.next x y }

/-- `x->prev = y` -/
def Links.setPrev (L : Links α) (x y : α) : Links α := { L with prev := Function.update L.prev x y }

/-- `b->next->prev = b->prev; b->prev->next = b->next;` -/
def Links.unlink (L : Links α) (b : α) : Links α :=
  let L := L.setPrev (L.next b) (L.prev b)
  L.setNext (L.prev b) (L.next b)

/-- `b->next = h->next; b->prev = h; h->next->prev = b; h->next = b;` -/
def Links.pushFront (L : Links α) (h b : α) : Links α :=
  let L := L.setNext b (L.next h)
  let L := L.setPrev b h
  let L := L.setPrev (L.next h) b
  L.setNext h b

omit [DecidableEq α] in
/-- The neighbours of a node of a circle. -/
theorem Circle.neighbours (hc : Circle L h (xs ++ b :: ys)) :
    L.prev b = (h :: xs).getLast (List.cons_ne_nil h xs) ∧
      L.next b = (ys ++ [h]).head (by simp) := by
  have hchain := hc.chain
  have hsplit : h :: (xs ++ b :: ys) ++ [h] = (h :: xs) ++ ([b] ++ (ys ++ [h])) := by simp
  rw [hsplit, List.isChain_append, List.isChain_append] at hchain
  obtain ⟨-, ⟨-, -, hnext⟩, hprev⟩ := hchain
  exact ⟨(hprev _ (List.getLast?_eq_getLast_of_ne_nil _) b rfl).2,
    (hnext b rfl _ (List.head?_eq_some_head _)).1⟩

/-- Two neighbours that are linked anew: what is in front of the first one, and what is behind the
second, keeps its links. -/
theorem isChain_join {us vs : List α} {a c : α} (hu : (us ++ [a]).IsChain L.Linked)
    (hv : (c :: vs).IsChain L.Linked) (ha : a ∉ us ∧ a ∉ (c :: vs).dropLast)
    (hc : c ∉ vs ∧ c ∉ (us ++ [a]).tail) :
    (us ++ [a] ++ c :: vs).IsChain ((L.setPrev c a).setNext a c).Linked := by
  rw [List.isChain_append]
  refine ⟨isChain_linked_congr hu ?_ ?_, isChain_linked_congr hv ?_ ?_, ?_⟩
  · intro x hx
    rw [List.dropLast_concat] at hx
    exact Function.update_of_ne (ne_of_mem_of_not_mem hx ha.1) _ _
  · intro y hy
    exact Function.update_of_ne (ne_of_mem_of_not_mem hy hc.2) _ _
  · intro x hx
    exact Function.update_of_ne (ne_of_mem_of_not_mem hx ha.2) _ _
  · intro y hy
    exact Function.update_of_ne (ne_of_mem_of_not_mem hy hc.1) _ _
  · intro x hx y hy
    rw [List.getLast?_concat, Option.mem_some_iff] at hx
    rw [List.head?_cons, Option.mem_some_iff] at hy
    subst hx hy
    exact ⟨Function.update_self _ _ _, Function.update_self _ _ _⟩

/-- A node is taken out of a circle.

**Proof sketch.** The walk around the circle is cut at `b` into a part that ends in the node `a`
before it and a part that begins with the node `c` behind it. Only the links from `a` and to `c`
change, and both parts, without repetitions, contain them once: so each part is a walk as before,
and the two fit together. -/
theorem Circle.unlink (hc : Circle L h (xs ++ b :: ys)) : Circle (L.unlink b) h (xs ++ ys) := by
  obtain ⟨hpb, hnb⟩ := hc.neighbours
  have hnodup := hc.nodup
  rw [List.nodup_cons, List.nodup_middle, List.nodup_cons, List.nodup_append] at hnodup
  obtain ⟨hh, hb, hxs, hys, hdisj⟩ := hnodup
  obtain ⟨us, a, hus⟩ := List.eq_nil_or_concat' (h :: xs) |>.resolve_left (List.cons_ne_nil h xs)
  obtain ⟨c, vs, hvs⟩ := List.exists_cons_of_ne_nil (show ys ++ [h] ≠ [] by simp)
  have hwhole : h :: (xs ++ b :: ys) ++ [h] = (us ++ [a]) ++ ([b] ++ (c :: vs)) := by
    rw [← hus, ← hvs]
    simp
  have hjoin : h :: (xs ++ ys) ++ [h] = us ++ [a] ++ c :: vs := by
    rw [← hus, ← hvs]
    simp
  have hprev : L.prev b = a := by
    rw [hpb]
    simp only [hus, List.getLast_concat]
  have hnext : L.next b = c := by
    rw [hnb]
    simp only [hvs, List.head_cons]
  have hfirst : (h :: xs).Nodup := by
    rw [List.nodup_cons]
    exact ⟨fun hmem => hh (List.mem_append_left _ hmem), hxs⟩
  have hlast : (ys ++ [h]).Nodup := by
    rw [List.nodup_append_comm, List.singleton_append, List.nodup_cons]
    exact ⟨fun hmem => hh (List.mem_append_right _ (List.mem_cons_of_mem b hmem)), hys⟩
  have ha : a ∈ h :: xs := hus ▸ List.mem_append_right us List.mem_cons_self
  have hc' : c ∈ ys ++ [h] := hvs ▸ List.mem_cons_self
  have hcb : c ≠ b := by
    rintro rfl
    rcases List.mem_append.mp hc' with hc' | hc'
    · exact hb (List.mem_append_right _ hc')
    · exact hh (List.mem_append_right _ (List.mem_singleton.mp hc' ▸ List.mem_cons_self))
  have hchain := hc.chain
  rw [hwhole, List.isChain_append, @List.isChain_append _ _ [b]] at hchain
  refine ⟨?_, ?_⟩
  · have hunlink : L.unlink b = (L.setPrev c a).setNext a c := by
      simp only [Links.unlink, hprev, hnext, Links.setPrev, Function.update_of_ne hcb.symm]
    rw [hjoin, hunlink]
    refine isChain_join hchain.1 hchain.2.1.2.1 ⟨?_, ?_⟩ ⟨?_, ?_⟩
    · rw [hus, List.nodup_append_comm, List.singleton_append, List.nodup_cons] at hfirst
      exact hfirst.1
    · rw [← hvs, List.dropLast_concat]
      intro hmem
      rcases List.mem_cons.mp ha with rfl | ha
      · exact hh (List.mem_append_right _ (List.mem_cons_of_mem b hmem))
      · exact hdisj a ha a hmem rfl
    · rw [hvs, List.nodup_cons] at hlast
      exact hlast.1
    · rw [← hus, List.tail_cons]
      intro hmem
      rcases List.mem_append.mp hc' with hc' | hc'
      · exact hdisj c hmem c hc' rfl
      · exact hh (List.mem_append_left _ (List.mem_singleton.mp hc' ▸ hmem))
  · rw [List.nodup_cons, List.nodup_append]
    refine ⟨fun hmem => hh ?_, hxs, hys, hdisj⟩
    rcases List.mem_append.mp hmem with hmem | hmem
    · exact List.mem_append_left _ hmem
    · exact List.mem_append_right _ (List.mem_cons_of_mem b hmem)

/-- A node is put behind the header.

**Proof sketch.** The links that change are the one out of the header, the one into the node `c`
that was first, and the two of `b`. The rest of the walk from `c` on does not use them, since the
circle has no repetitions and `b` is not in it. -/
theorem Circle.pushFront (hc : Circle L h xs) (hb : b ∉ h :: xs) :
    Circle (L.pushFront h b) h (b :: xs) := by
  obtain ⟨hbh, hbxs⟩ := List.ne_and_not_mem_of_not_mem_cons hb
  obtain ⟨c, vs, hvs⟩ := List.exists_cons_of_ne_nil (show xs ++ [h] ≠ [] by simp)
  have hchain := hc.chain
  rw [List.cons_append, hvs, List.isChain_cons_cons] at hchain
  have hnodup := hc.nodup
  rw [List.nodup_cons] at hnodup
  have hlast : (c :: vs).Nodup := by
    rw [← hvs, List.nodup_append_comm]
    exact hc.nodup
  have hcb : b ≠ c := by
    rintro rfl
    have hmem : b ∈ xs ++ [h] := hvs ▸ List.mem_cons_self
    rcases List.mem_append.mp hmem with hmem | hmem
    · exact hbxs hmem
    · exact hbh (List.mem_singleton.mp hmem)
  have hpush : L.pushFront h b =
      ⟨Function.update (Function.update L.next b c) h b,
        Function.update (Function.update L.prev b h) c b⟩ := by
    simp only [Links.pushFront, Links.setNext, Links.setPrev, hchain.1.1,
      Function.update_of_ne hbh.symm]
  refine ⟨?_, List.nodup_cons.mpr ⟨?_, List.nodup_cons.mpr ⟨hbxs, hnodup.2⟩⟩⟩
  · rw [hpush, List.cons_append, List.cons_append, hvs, List.isChain_cons_cons,
      List.isChain_cons_cons]
    refine ⟨⟨Function.update_self _ _ _, ?_⟩, ⟨?_, Function.update_self _ _ _⟩,
      isChain_linked_congr hchain.2 ?_ ?_⟩
    · exact (Function.update_of_ne hcb _ _).trans (Function.update_self _ _ _)
    · exact (Function.update_of_ne hbh _ _).trans (Function.update_self _ _ _)
    · intro x hx
      rw [← hvs, List.dropLast_concat] at hx
      exact (Function.update_of_ne (ne_of_mem_of_not_mem hx hnodup.1) _ _).trans
        (Function.update_of_ne (ne_of_mem_of_not_mem hx hbxs) _ _)
    · intro y hy
      rw [List.tail_cons] at hy
      have hyb : y ≠ b := by
        rintro rfl
        have hmem : y ∈ xs ++ [h] := hvs ▸ List.mem_cons_of_mem c hy
        rcases List.mem_append.mp hmem with hmem | hmem
        · exact hbxs hmem
        · exact hbh (List.mem_singleton.mp hmem)
      exact (Function.update_of_ne (ne_of_mem_of_not_mem hy (List.nodup_cons.mp hlast).1)
        _ _).trans (Function.update_of_ne hyb _ _)
  · intro hmem
    rcases List.mem_cons.mp hmem with rfl | hmem
    · exact hbh rfl
    · exact hnodup.1 hmem

end Change

end Prog
