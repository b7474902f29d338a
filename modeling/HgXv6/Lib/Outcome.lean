import Mathlib.Order.Filter.AtTopBot.Basic

set_option relaxedAutoImplicit false
set_option autoImplicit false

/-!
# Rules for computations that may stop short

A program that can fail, block or run for ever is a function into `Except ε α`, with one extra
argument `n : ℕ` bounding the iterations of each of its loops. Two judgements are used about
such programs.

* *Partial*: whatever it returns satisfies a predicate (`Ensures`).
* *Total*: for all sufficiently large bounds it returns one given value (`Returns`).

Both compose along the bind of `Except`, so that a proof about a program is assembled from the
proofs about the parts it calls.

## Main definitions

* `Prog.Ensures x Q` — if `x` ends normally, its result satisfies `Q`.
* `Prog.Returns f a` — `f n` ends normally with `a` for all large enough `n`.
* `Prog.Settles f` — with a larger bound `f` ends in the same way.

## Main results

* `Prog.Ensures.bind`, `Prog.Returns.bind` — the composition rules.
* `Prog.Returns.unique` — a program returns at most one value.
* `Prog.Settles.returns` — a program whose values do not change with the bound returns what it
  returns for one bound.
-/

namespace Prog

variable {ε α β : Type}

/-! ## Partial correctness -/

/-- If `x` ends normally then its result satisfies `Q`. -/
def Ensures (x : Except ε α) (Q : α → Prop) : Prop := ∀ a, x = .ok a → Q a

/-- A program that ends at once ensures what its value satisfies. -/
@[simp] theorem ensures_ok (a : α) (Q : α → Prop) :
    Ensures (.ok a : Except ε α) Q ↔ Q a := by
  simp [Ensures]

/-- A program that stops short ensures everything. -/
@[simp] theorem ensures_error (e : ε) (Q : α → Prop) :
    Ensures (.error e : Except ε α) Q ↔ True := by
  simp [Ensures]

/-- The postcondition may be weakened. -/
theorem Ensures.mono {x : Except ε α} {P Q : α → Prop} (h : Ensures x P)
    (hPQ : ∀ a, P a → Q a) : Ensures x Q :=
  fun a ha => hPQ a (h a ha)

/-- Sequential composition. -/
theorem Ensures.bind {x : Except ε α} {f : α → Except ε β} {P : α → Prop} {Q : β → Prop}
    (hx : Ensures x P) (hf : ∀ a, P a → Ensures (f a) Q) : Ensures (x >>= f) Q := by
  intro b hb
  rcases x with e | a
  · cases hb
  · exact hf a (hx a rfl) b hb

/-- What a composition that ends normally went through. -/
theorem bind_eq_ok {x : Except ε α} {f : α → Except ε β} {b : β} :
    x >>= f = .ok b ↔ ∃ a, x = .ok a ∧ f a = .ok b := by
  rcases x with e | a
  · simp [Bind.bind, Except.bind]
  · simp [Bind.bind, Except.bind]

/-- How a program ends, from its value. -/
theorem eq_ok_of_toOption {x : Except ε α} {a : α} (h : x.toOption = some a) : x = .ok a := by
  rcases x with e | b
  · cases h
  · rw [Option.some.inj h]

/-- A program that ends at once is a unit for composition. -/
@[simp] theorem ok_bind (a : α) (f : α → Except ε β) :
    ((.ok a : Except ε α) >>= f) = f a := by
  simp [Bind.bind, Except.bind]

/-- A program that stops short swallows what follows. -/
@[simp] theorem error_bind (e : ε) (f : α → Except ε β) :
    ((.error e : Except ε α) >>= f) = .error e := by
  simp [Bind.bind, Except.bind]

/-! ## Total correctness -/

/-- For all sufficiently large bounds `n`, the program `f n` ends normally with `a`. -/
def Returns (f : ℕ → Except ε α) (a : α) : Prop := ∀ᶠ n in Filter.atTop, f n = .ok a

/-- A program that does not depend on its bound returns its value. -/
theorem Returns.of_eq {x : Except ε α} {a : α} (h : x = .ok a) : Returns (fun _ => x) a :=
  Filter.Eventually.of_forall fun _ => h

/-- It is enough to name one bound from which on the value is returned. -/
theorem Returns.of_le {f : ℕ → Except ε α} {a : α} (N : ℕ) (h : ∀ n, N ≤ n → f n = .ok a) :
    Returns f a :=
  Filter.eventually_atTop.mpr ⟨N, h⟩

/-- Sequential composition. -/
theorem Returns.bind {f : ℕ → Except ε α} {g : ℕ → α → Except ε β} {a : α} {b : β}
    (hf : Returns f a) (hg : Returns (fun n => g n a) b) :
    Returns (fun n => f n >>= g n) b := by
  filter_upwards [hf, hg] with n h1 h2
  rw [h1]
  exact h2

/-- What a composition returns, if its first part returns. -/
theorem Returns.bind_iff {f : ℕ → Except ε α} {g : ℕ → α → Except ε β} {a : α} {b : β}
    (hf : Returns f a) : Returns (fun n => f n >>= g n) b ↔ Returns (fun n => g n a) b := by
  refine ⟨fun h => ?_, hf.bind⟩
  filter_upwards [hf, h] with n h1 h2
  rw [h1] at h2
  exact h2

/-- A program that returns does so for some bound. -/
theorem Returns.exists {f : ℕ → Except ε α} {a : α} (h : Returns f a) : ∃ n, f n = .ok a :=
  Filter.Eventually.exists h

/-- A program returns at most one value. -/
theorem Returns.unique {f : ℕ → Except ε α} {a b : α} (ha : Returns f a)
    (hb : Returns f b) : a = b := by
  obtain ⟨n, h1, h2⟩ := (Filter.Eventually.and ha hb).exists
  rw [h1] at h2
  exact Except.ok.inj h2

/-- Once the program has ended for a bound, it ends with the same value for all larger ones. -/
def Settles (f : ℕ → Except ε α) : Prop := ∀ n m a, n ≤ m → f n = .ok a → f m = .ok a

/-- A program that does not depend on its bound. -/
theorem Settles.const (x : Except ε α) : Settles fun _ => x := fun _ _ _ _ h => h

/-- Sequential composition. -/
theorem Settles.bind {f : ℕ → Except ε α} {g : ℕ → α → Except ε β} (hf : Settles f)
    (hg : ∀ a, Settles fun n => g n a) : Settles fun n => f n >>= g n := by
  intro n m b hnm h
  obtain ⟨a, ha, hb⟩ := bind_eq_ok.mp h
  exact bind_eq_ok.mpr ⟨a, hf n m a hnm ha, hg a n m b hnm hb⟩

/-- What such a program returns for one bound, it returns. -/
theorem Settles.returns {f : ℕ → Except ε α} {a : α} (hf : Settles f) {n : ℕ}
    (h : f n = .ok a) : Returns f a :=
  Returns.of_le n fun m hm => hf n m a hm h

/-- A program that stops short for every bound returns nothing. -/
theorem not_returns_of_error {f : ℕ → Except ε α} {e : ε} (h : ∀ n, f n = .error e) (a : α) :
    ¬Returns f a := by
  intro ha
  obtain ⟨n, hn⟩ := ha.exists
  rw [h n] at hn
  cases hn

end Prog
