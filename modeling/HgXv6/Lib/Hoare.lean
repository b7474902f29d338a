import Mathlib.Logic.Basic

set_option relaxedAutoImplicit false
set_option autoImplicit false

/-!
# Preconditions of programs with a state

A program with a state of type `σ` that may stop short with an error is a term of
`StateT σ (Except ε) α`. Its weakest precondition is stated at one initial state, so that the
initial state may be named in the postcondition. Errors are not ruled out: a predicate says which
of them are allowed.

## Main definitions

* `Prog.Wp E m Q s` — from `s`, the program `m` ends as `Q` says or stops with an error in `E`.

## Main results

* `Prog.wp_bind`, `Prog.Wp.bind` — sequential composition, as an equation and as a rule.
* `Prog.Wp.mono`, `Prog.Wp.and` — the postcondition may be weakened, and two may be joined.
-/

namespace Prog

variable {σ ε α β : Type} {E : ε → Prop} {s : σ}

/-- From `s`, the program ends as `Q` says, or it stops short with an error that `E` allows. -/
def Wp (E : ε → Prop) (m : StateT σ (Except ε) α) (Q : α → σ → Prop) (s : σ) : Prop :=
  match m.run s with
  | .ok (a, s') => Q a s'
  | .error e => E e

@[simp] theorem wp_pure (a : α) (Q : α → σ → Prop) :
    Wp E (pure a) Q s ↔ Q a s := Iff.rfl

@[simp] theorem wp_get (Q : σ → σ → Prop) : Wp E get Q s ↔ Q s s := Iff.rfl

@[simp] theorem wp_set (t : σ) (Q : PUnit → σ → Prop) : Wp E (set t) Q s ↔ Q ⟨⟩ t := Iff.rfl

@[simp] theorem wp_modify (f : σ → σ) (Q : PUnit → σ → Prop) :
    Wp E (modify f) Q s ↔ Q ⟨⟩ (f s) := Iff.rfl

@[simp] theorem wp_throw (e : ε) (Q : α → σ → Prop) : Wp E (throw e) Q s ↔ E e := Iff.rfl

/-- Sequential composition. -/
@[simp] theorem wp_bind (m : StateT σ (Except ε) α) (f : α → StateT σ (Except ε) β)
    (Q : β → σ → Prop) : Wp E (m >>= f) Q s ↔ Wp E m (fun a s' => Wp E (f a) Q s') s := by
  unfold Wp
  rw [StateT.run_bind]
  rcases m.run s with e | ⟨a, s'⟩
  · exact Iff.rfl
  · exact Iff.rfl

/-- A test. -/
@[simp] theorem wp_ite (c : Prop) [Decidable c] (m m' : StateT σ (Except ε) α)
    (Q : α → σ → Prop) :
    Wp E (if c then m else m') Q s ↔ (c → Wp E m Q s) ∧ (¬c → Wp E m' Q s) := by
  by_cases h : c
  · simp [h]
  · simp [h]

/-- The postcondition may be weakened. -/
theorem Wp.mono {m : StateT σ (Except ε) α} {P Q : α → σ → Prop} (h : Wp E m P s)
    (hPQ : ∀ a s', P a s' → Q a s') : Wp E m Q s := by
  unfold Wp at *
  cases hm : m.run s with
  | error e => simpa [hm] using h
  | ok x => exact hPQ x.1 x.2 (by simpa [hm] using h)

/-- Two postconditions together, with the errors that the second allows. -/
theorem Wp.and {E' : ε → Prop} {m : StateT σ (Except ε) α} {P Q : α → σ → Prop} (h : Wp E m P s)
    (h' : Wp E' m Q s) : Wp E' m (fun a s' => P a s' ∧ Q a s') s := by
  unfold Wp at *
  cases hm : m.run s with
  | error e => simpa [hm] using h'
  | ok x => exact ⟨by simpa [hm] using h, by simpa [hm] using h'⟩

/-- Sequential composition, from what is known of the first program. -/
theorem Wp.bind {m : StateT σ (Except ε) α} {f : α → StateT σ (Except ε) β}
    {P : α → σ → Prop} {Q : β → σ → Prop} (h : Wp E m P s)
    (hf : ∀ a s', P a s' → Wp E (f a) Q s') : Wp E (m >>= f) Q s :=
  (wp_bind m f Q).mpr (h.mono hf)

/-- What a program that ends leaves. -/
theorem Wp.of_ok {m : StateT σ (Except ε) α} {Q : α → σ → Prop} (h : Wp E m Q s) {a : α} {s' : σ}
    (hm : m.run s = .ok (a, s')) : Q a s' := by
  unfold Wp at h
  rw [hm] at h
  exact h

/-- The error a program stops with. -/
theorem Wp.of_error {m : StateT σ (Except ε) α} {Q : α → σ → Prop} (h : Wp E m Q s) {e : ε}
    (hm : m.run s = .error e) : E e := by
  unfold Wp at h
  rw [hm] at h
  exact h

/-- A program that may not stop with an error ends. -/
theorem Wp.total {m : StateT σ (Except ε) α} {Q : α → σ → Prop} (h : Wp (fun _ => False) m Q s) :
    ∃ a s', m.run s = .ok (a, s') ∧ Q a s' := by
  cases hm : m.run s with
  | error e => exact (h.of_error hm).elim
  | ok x => exact ⟨x.1, x.2, rfl, h.of_ok hm⟩

end Prog
