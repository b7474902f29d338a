import Mathlib.Data.List.Basic
import Mathlib.Data.Nat.ModEq
import Mathlib.Logic.Function.Basic

set_option relaxedAutoImplicit false
set_option autoImplicit false

/-!
# Ring buffers with wrapping indices

A ring buffer of `N` slots whose read and write indices are 32-bit counters that are never
reduced modulo `N` in memory: a slot is found by taking the counter modulo `N`, and the counters
themselves wrap at `2 ^ 32`. The wrap is harmless as long as `N` divides `2 ^ 32`, because each
counter then tracks an unbounded one.

## Main definitions

* `Prog.Ring.Tracks x a` — the 32-bit counter `x` is the unbounded counter `a`, wrapped.
* `Prog.Ring.Holds N buf lo xs` — the slots from the unbounded position `lo` on hold the list
  `xs`.

## Main results

* `Prog.Ring.Tracks.sub`, `Prog.Ring.Tracks.slot` — distances and slots survive the wrap.
* `Prog.Ring.Holds.push`, `Prog.Ring.Holds.head`, `Prog.Ring.Holds.tail`,
  `Prog.Ring.Holds.init` — the ring as a list.
-/

namespace Prog.Ring

variable {α : Type}

/-! ## Counters -/

/-- The 32-bit counter `x` is the unbounded counter `a`, wrapped. -/
def Tracks (x : UInt32) (a : ℕ) : Prop := x.toNat = a % 2 ^ 32

variable {x y : UInt32} {a k : ℕ}

/-- Every counter tracks its own value. -/
theorem Tracks.self (x : UInt32) : Tracks x x.toNat :=
  (Nat.mod_eq_of_lt x.toNat_lt).symm

/-- Incrementing. -/
theorem Tracks.succ (h : Tracks x a) : Tracks (x + 1) (a + 1) := by
  unfold Tracks at *
  rw [UInt32.toNat_add, h]
  simp

/-- Adding. -/
theorem Tracks.add (h : Tracks x a) (y : UInt32) : Tracks (x + y) (a + y.toNat) := by
  unfold Tracks at *
  rw [UInt32.toNat_add, h, Nat.mod_add_mod]

/-- Decrementing. -/
theorem Tracks.pred (h : Tracks x (a + 1)) : Tracks (x - 1) a := by
  unfold Tracks at *
  rw [UInt32.toNat_sub, h]
  simp only [UInt32.reduceToNat]
  omega

/-- The distance of two counters, computed with wrapping subtraction. -/
theorem Tracks.sub (hx : Tracks x a) (hy : Tracks y (a + k)) (hk : k < 2 ^ 32) :
    (y - x).toNat = k := by
  unfold Tracks at *
  rw [UInt32.toNat_sub, hx, hy]
  omega

/-- Two counters less than `2 ^ 32` apart are equal exactly at distance zero. -/
theorem Tracks.eq_iff (hx : Tracks x a) (hy : Tracks y (a + k)) (hk : k < 2 ^ 32) :
    y = x ↔ k = 0 := by
  rw [← UInt32.toNat_inj]
  unfold Tracks at *
  rw [hx, hy]
  omega

/-- The slot of a counter. -/
theorem Tracks.slot {N : ℕ} (hN : N ∣ 2 ^ 32) (h : Tracks x a) : x.toNat % N = a % N := by
  rw [h, Nat.mod_mod_of_dvd a hN]

/-! ## Contents -/

/-- The slots from the unbounded position `lo` on hold `xs`. -/
structure Holds (N : ℕ) (buf : ℕ → α) (lo : ℕ) (xs : List α) : Prop where
  le : xs.length ≤ N
  get : ∀ i (h : i < xs.length), buf ((lo + i) % N) = xs[i]

variable {N lo : ℕ} {buf : ℕ → α} {xs ys : List α} {b : α}

/-- An empty ring holds nothing. -/
theorem Holds.nil (N : ℕ) (buf : ℕ → α) (lo : ℕ) : Holds N buf lo [] :=
  ⟨by simp, fun i h => absurd h (by simp)⟩

/-- Two positions less than `N` apart share no slot. -/
theorem slot_ne {i j : ℕ} (hij : i < j) (hj : j < N) : (lo + i) % N ≠ (lo + j) % N := by
  intro h
  have h' : (lo + j) ≡ (lo + i) [MOD N] := h.symm
  have := Nat.ModEq.add_left_cancel' lo h'
  rw [Nat.ModEq, Nat.mod_eq_of_lt hj, Nat.mod_eq_of_lt (hij.trans hj)] at this
  omega

/-- Storing at the end appends. -/
theorem Holds.push (h : Holds N buf lo xs) (hlt : xs.length < N) (b : α) :
    Holds N (Function.update buf ((lo + xs.length) % N) b) lo (xs ++ [b]) := by
  refine ⟨by simp only [List.length_append, List.length_singleton]; omega, fun i hi => ?_⟩
  rcases Nat.lt_or_ge i xs.length with hlt' | hge
  · rw [Function.update_of_ne (slot_ne hlt' hlt), List.getElem_append_left hlt', h.get i hlt']
  · obtain rfl : i = xs.length := by
      simp only [List.length_append, List.length_singleton] at hi
      omega
    simp

/-- The first element sits in the slot of `lo`. -/
theorem Holds.head (h : Holds N buf lo (b :: xs)) : buf (lo % N) = b :=
  h.get 0 (by simp)

/-- Without its first element. -/
theorem Holds.tail (h : Holds N buf lo (b :: xs)) : Holds N buf (lo + 1) xs := by
  refine ⟨by have := h.le; simp only [List.length_cons] at this; omega, fun i hi => ?_⟩
  have := h.get (i + 1) (by simpa using hi)
  rw [List.getElem_cons_succ] at this
  rw [← this]
  congr 2
  omega

/-- Without a part at its end. -/
theorem Holds.init (h : Holds N buf lo (xs ++ ys)) : Holds N buf lo xs := by
  refine ⟨by have := h.le; simp only [List.length_append] at this; omega, fun i hi => ?_⟩
  rw [h.get i (by simp only [List.length_append]; omega), List.getElem_append_left hi]

end Prog.Ring
