import Mathlib.Data.List.Basic
import Mathlib.Logic.Function.Basic

set_option relaxedAutoImplicit false
set_option autoImplicit false

/-!
# Lists of writes that may be replayed

A store is a function from keys to values, and a redo record is a list of writes, replayed from
the first to the last. What a key holds after a replay depends on the store before only if the
list does not write it, so that a replay that was interrupted may be started again from its
beginning.

## Main definitions

* `Prog.replay ws d` — the store `d` after the writes `ws`.

## Main results

* `Prog.replay_take` — replaying a list after a part of it is replaying the list.
* `Prog.replay_eq_of` — the result, from the values written and the keys left alone.
-/

namespace Prog

variable {κ β : Type} [DecidableEq κ]

/-- The store `d` after the writes `ws`, the first one first. -/
def replay (ws : List (κ × β)) (d : κ → β) : κ → β :=
  ws.foldl (fun d w => Function.update d w.1 w.2) d

@[simp] theorem replay_nil (d : κ → β) : replay [] d = d := rfl

@[simp] theorem replay_cons (w : κ × β) (ws : List (κ × β)) (d : κ → β) :
    replay (w :: ws) d = replay ws (Function.update d w.1 w.2) := rfl

/-- Two lists of writes in sequence. -/
theorem replay_append (ws ws' : List (κ × β)) (d : κ → β) :
    replay (ws ++ ws') d = replay ws' (replay ws d) := List.foldl_append

/-- A key that is not written keeps its value. -/
theorem replay_of_notMem {ws : List (κ × β)} {x : κ} (h : x ∉ ws.map Prod.fst) (d : κ → β) :
    replay ws d x = d x := by
  induction ws generalizing d with
  | nil => rfl
  | cons w ws ih =>
    simp only [List.map_cons, List.mem_cons, not_or] at h
    rw [replay_cons, ih h.2, Function.update_of_ne h.1]

/-- A key that is written holds a value that the list writes to it. -/
theorem replay_mem {ws : List (κ × β)} {x : κ} (h : x ∈ ws.map Prod.fst) (d : κ → β) :
    (x, replay ws d x) ∈ ws := by
  induction ws generalizing d with
  | nil => cases h
  | cons w ws ih =>
    rw [replay_cons]
    by_cases hx : x ∈ ws.map Prod.fst
    · exact List.mem_cons_of_mem _ (ih hx _)
    · obtain rfl : x = w.1 := by simpa [hx] using h
      rw [replay_of_notMem hx, Function.update_self]
      exact List.mem_cons_self

/-- Where two stores agree, or the list writes, they agree after it. -/
theorem replay_congr {ws : List (κ × β)} {x : κ} {d d' : κ → β}
    (h : x ∉ ws.map Prod.fst → d x = d' x) : replay ws d x = replay ws d' x := by
  induction ws generalizing d d' with
  | nil => exact h List.not_mem_nil
  | cons w ws ih =>
    simp only [replay_cons]
    refine ih fun hx => ?_
    by_cases hw : x = w.1
    · rw [hw, Function.update_self, Function.update_self]
    · rw [Function.update_of_ne hw, Function.update_of_ne hw]
      exact h (by simp [hx, hw])

/-- A replay that was interrupted is made good by a whole one. -/
theorem replay_take (ws : List (κ × β)) (j : ℕ) (d : κ → β) :
    replay ws (replay (ws.take j) d) = replay ws d := by
  funext x
  refine replay_congr fun hx => replay_of_notMem (fun hmem => hx ?_) d
  obtain ⟨w, hw, rfl⟩ := List.mem_map.mp hmem
  exact List.mem_map_of_mem (List.mem_of_mem_take hw)

/-- If every write is of the value `f` has for its key, and the other keys have theirs already,
the result is `f`. -/
theorem replay_eq_of {ws : List (κ × β)} {d f : κ → β} (hws : ∀ w ∈ ws, w.2 = f w.1)
    (hd : ∀ x, x ∉ ws.map Prod.fst → d x = f x) : replay ws d = f := by
  funext x
  by_cases hx : x ∈ ws.map Prod.fst
  · exact hws _ (replay_mem hx d)
  · rw [replay_of_notMem hx, hd x hx]

end Prog
