import Mathlib.Data.Int.Order.Basic
import Mathlib.Data.List.Basic
import Mathlib.Logic.Function.Basic
import Mathlib.Tactic.Ring

set_option relaxedAutoImplicit false
set_option autoImplicit false

/-!
# Memory as a function, and block moves

A memory is a function from addresses in `ℤ` to cells. Blocks of cells are moved by loops that
copy one cell at a time; source and destination may overlap, so the direction of the loop
matters. A run of cells is read as a list by `bytes`.

## Main definitions

* `Prog.copyUp`, `Prog.copyDown` — a block copied from its first cell up, from its last cell
  down.
* `Prog.fill` — a block set to one value.
* `Prog.bytes m a n` — the `n` cells from address `a` on.

## Main results

* `Prog.copyUp_apply`, `Prog.copyDown_apply` — a move towards lower addresses copied upwards,
  and a move towards higher addresses copied downwards, are exact in spite of the overlap.
* `Prog.copyDown_fill_update` — one cell inserted.
* `Prog.bytes_append`, `Prog.bytes_congr` — how runs of cells compose.
* `Prog.take_bytes`, `Prog.drop_bytes` — the parts of a run.
-/

namespace Prog

variable {α : Type}

/-! ## Block moves -/

/-- `while (n-- > 0) *dst++ = *src++;` -/
def copyUp (m : ℤ → α) (dst src : ℤ) : ℕ → ℤ → α
  | 0 => m
  | n + 1 => copyUp (Function.update m dst (m src)) (dst + 1) (src + 1) n

/-- `while (n-- > 0) *to-- = *from--;` with `to` and `from` starting at the last cell of the
blocks at `dst` and `src`. -/
def copyDown (m : ℤ → α) (dst src : ℤ) : ℕ → ℤ → α
  | 0 => m
  | n + 1 => copyDown (Function.update m (dst + n) (m (src + n))) dst src n

/-- The `n` cells from `p` on set to `b`. -/
def fill (m : ℤ → α) (p : ℤ) (b : α) (n : ℕ) : ℤ → α :=
  fun i => if p ≤ i ∧ i < p + n then b else m i

/-- Copying upwards moves a block to lower addresses.

**Proof sketch.** Induction on the length. The first cell copied lies below the rest of the
source, so the remaining copy reads it nowhere. -/
theorem copyUp_apply (m : ℤ → α) (dst src : ℤ) (h : dst ≤ src) (n : ℕ) (i : ℤ) :
    copyUp m dst src n i = if dst ≤ i ∧ i < dst + n then m (i - dst + src) else m i := by
  induction n generalizing m dst src with
  | zero =>
    rw [if_neg (by push_cast; omega)]
    rfl
  | succ n ih =>
    rw [copyUp, ih _ _ _ (by omega)]
    push_cast
    by_cases h1 : i = dst
    · subst h1
      rw [if_neg (by omega), if_pos (by omega), Function.update_self]
      congr 1
      ring
    · by_cases h2 : dst ≤ i ∧ i < dst + (n + 1)
      · rw [if_pos (by omega), if_pos h2, Function.update_of_ne (by omega)]
        congr 1
        ring
      · rw [if_neg (by omega), if_neg h2, Function.update_of_ne h1]

/-- Copying downwards moves a block to higher addresses.

**Proof sketch.** Induction on the length. The last cell copied lies above the rest of the
source, so the remaining copy reads it nowhere. -/
theorem copyDown_apply (m : ℤ → α) (dst src : ℤ) (h : src ≤ dst) (n : ℕ) (i : ℤ) :
    copyDown m dst src n i = if dst ≤ i ∧ i < dst + n then m (i - dst + src) else m i := by
  induction n generalizing m with
  | zero =>
    rw [if_neg (by push_cast; omega)]
    rfl
  | succ n ih =>
    rw [copyDown, ih]
    push_cast
    by_cases h1 : i = dst + n
    · subst h1
      rw [if_neg (by omega), if_pos (by omega), Function.update_self]
      congr 1
      ring
    · by_cases h2 : dst ≤ i ∧ i < dst + (n + 1)
      · rw [if_pos (by omega), if_pos h2, Function.update_of_ne (by omega)]
      · rw [if_neg (by omega), if_neg h2, Function.update_of_ne h1]

/-- Room for one cell is made at `p` by moving the block of `n` cells from `p` on up by one, and
`b` is stored there. -/
theorem copyDown_fill_update (m : ℤ → α) (p : ℤ) (n : ℕ) (x b : α) (i : ℤ) :
    Function.update (fill (copyDown m (p + 1) p n) p x 1) p b i =
      if i = p then b else if p < i ∧ i ≤ p + n then m (i - 1) else m i := by
  rw [Function.update_apply]
  split_ifs with h1 h2
  · rfl
  · rw [fill, if_neg (by omega), copyDown_apply _ _ _ (by omega), if_pos (by omega)]
    congr 1
    ring
  · rw [fill, if_neg (by omega), copyDown_apply _ _ _ (by omega), if_neg (by omega)]

/-! ## Runs of cells as lists -/

/-- The `n` cells from address `a` on, in order. -/
def bytes (m : ℤ → α) (a : ℤ) (n : ℕ) : List α := (List.range n).map fun i : ℕ => m (a + i)

@[simp] theorem length_bytes (m : ℤ → α) (a : ℤ) (n : ℕ) : (bytes m a n).length = n := by
  simp [bytes]

@[simp] theorem bytes_zero (m : ℤ → α) (a : ℤ) : bytes m a 0 = [] := rfl

@[simp] theorem getElem_bytes (m : ℤ → α) (a : ℤ) (n i : ℕ) (h : i < (bytes m a n).length) :
    (bytes m a n)[i] = m (a + i) := by
  simp [bytes]

/-- The cells of a run. -/
theorem mem_bytes {m : ℤ → α} {a : ℤ} {n : ℕ} {x : α} :
    x ∈ bytes m a n ↔ ∃ i : ℕ, i < n ∧ m (a + i) = x := by
  simp [bytes]

/-- Runs are equal if their cells are. -/
theorem bytes_congr {m m' : ℤ → α} {a a' : ℤ} {n : ℕ}
    (h : ∀ i : ℕ, i < n → m (a + i) = m' (a' + i)) : bytes m a n = bytes m' a' n := by
  refine List.ext_getElem (by simp) fun i h1 _ => ?_
  simpa using h i (by simpa using h1)

/-- A run is its first `k` cells followed by the rest. -/
theorem bytes_append (m : ℤ → α) (a : ℤ) (k n : ℕ) :
    bytes m a (k + n) = bytes m a k ++ bytes m (a + k) n := by
  refine List.ext_getElem (by simp) fun i h1 _ => ?_
  simp only [length_bytes] at h1
  rw [getElem_bytes]
  by_cases hk : i < k
  · rw [List.getElem_append_left (by simpa using hk), getElem_bytes]
  · rw [List.getElem_append_right (by simpa using hk), getElem_bytes]
    congr 1
    simp only [length_bytes]
    omega

/-- A run with one more cell at its end. -/
theorem bytes_succ (m : ℤ → α) (a : ℤ) (n : ℕ) :
    bytes m a (n + 1) = bytes m a n ++ [m (a + n)] := by
  rw [bytes_append]
  simp [bytes]

/-- A run with one more cell at its start. -/
theorem bytes_succ' (m : ℤ → α) (a : ℤ) (n : ℕ) :
    bytes m a (n + 1) = m a :: bytes m (a + 1) n := by
  rw [Nat.add_comm, bytes_append]
  simp [bytes]

/-- The first cells of a run. -/
theorem take_bytes (m : ℤ → α) (a : ℤ) {k n : ℕ} (h : k ≤ n) :
    (bytes m a n).take k = bytes m a k := by
  obtain ⟨j, rfl⟩ := Nat.exists_eq_add_of_le h
  rw [bytes_append, List.take_left' (length_bytes m a k)]

/-- A run without its first cells. -/
theorem drop_bytes (m : ℤ → α) (a : ℤ) {k n : ℕ} (h : k ≤ n) :
    (bytes m a n).drop k = bytes m (a + k) (n - k) := by
  obtain ⟨j, rfl⟩ := Nat.exists_eq_add_of_le h
  rw [bytes_append, List.drop_left' (length_bytes m a k), Nat.add_sub_cancel_left]

end Prog
