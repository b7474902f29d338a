import Mathlib.Data.List.Basic

set_option relaxedAutoImplicit false
set_option autoImplicit false

/-!
# Systems that take steps

A system is a function from actions and states: an action is impossible in a state, or it stops
the system for ever, or it leads to another state, and something may be seen of it. A schedule is
any list of actions. What is seen of a schedule can be compared with a second system, its
specification, that either accepts an observation or does not.

## Main definitions

* `Prog.Reaction` — what an action does in a state; `Prog.Reaction.run` — what a schedule does.
* `Prog.Preserves step ok I` — the actions with `ok` keep the invariant `I`.
* `Prog.accepts` — the specification follows a list of observations.
* `Prog.Simulates step ok spec R` — the specification follows the system along `R`.

## Main results

* `Prog.Preserves.run` — what every action keeps, every schedule keeps.
* `Prog.Simulates.run` — what is seen of a schedule is accepted by the specification.
* `Prog.Preserves.run_fails` — if a schedule stops, an action stopped in a state with the invariant.
-/

namespace Prog

variable {ε α σ τ ω : Type}

/-- What an action does in a state. -/
inductive Reaction (ε σ ω : Type)
  /-- the action is not possible -/
  | off
  /-- the system stops -/
  | fails (e : ε)
  /-- the system goes on in a state, and this has been seen -/
  | goes (s : σ) (seen : List ω)

/-- A schedule from a state: the actions take place one after the other. -/
def Reaction.run (step : α → σ → Reaction ε σ ω) : List α → σ → Reaction ε σ ω
  | [], s => .goes s []
  | a :: acts, s =>
    match step a s with
    | .goes s' seen =>
      match run step acts s' with
      | .goes s'' seen' => .goes s'' (seen ++ seen')
      | m => m
    | m => m

variable {step : α → σ → Reaction ε σ ω} {a : α} {acts : List α} {s s' s'' : σ}
  {seen seen' : List ω} {e : ε}

@[simp] theorem Reaction.run_nil : Reaction.run step [] s = .goes s' seen ↔ s = s' ∧ seen = [] := by
  rw [Reaction.run, Reaction.goes.injEq, eq_comm (a := seen)]

/-- A schedule is its first action and the rest. -/
theorem Reaction.run_cons : Reaction.run step (a :: acts) s = .goes s'' seen ↔
    ∃ s' seen₁ seen₂, step a s = .goes s' seen₁ ∧ Reaction.run step acts s' = .goes s'' seen₂ ∧
      seen = seen₁ ++ seen₂ := by
  rw [Reaction.run]
  constructor
  · intro h
    split at h
    · next s' seen₁ hstep =>
      split at h
      · next s₂ seen₂ hrun =>
        obtain ⟨rfl, rfl⟩ := Reaction.goes.inj h
        exact ⟨s', seen₁, seen₂, hstep, hrun, rfl⟩
      · next m hne => exact absurd h (hne s'' seen)
    · next m hne => exact absurd h (hne s'' seen)
  · rintro ⟨s', seen₁, seen₂, hstep, hrun, rfl⟩
    simp only [hstep, hrun]

/-- Two schedules, one after the other. -/
theorem Reaction.run_append {acts' : List α} :
    Reaction.run step (acts ++ acts') s = .goes s'' seen ↔
      ∃ s' seen₁ seen₂, Reaction.run step acts s = .goes s' seen₁ ∧
        Reaction.run step acts' s' = .goes s'' seen₂ ∧ seen = seen₁ ++ seen₂ := by
  induction acts generalizing s seen with
  | nil => simp
  | cons a acts ih =>
    simp only [List.cons_append, Reaction.run_cons, ih]
    constructor
    · rintro ⟨t, o₁, o, hstep, ⟨t', o₂, o₃, hrun, hrun', rfl⟩, rfl⟩
      exact ⟨t', o₁ ++ o₂, o₃, ⟨t, o₁, o₂, hstep, hrun, rfl⟩, hrun', (List.append_assoc ..).symm⟩
    · rintro ⟨t', o, o₃, ⟨t, o₁, o₂, hstep, hrun, rfl⟩, hrun', rfl⟩
      exact ⟨t, o₁, o₂ ++ o₃, hstep, ⟨t', o₂, o₃, hrun, hrun', rfl⟩, List.append_assoc ..⟩

/-! ## Evaluation -/

/-- The system goes on in a state with the property `P`. -/
def Reaction.ends (P : σ → List ω → Bool) : Reaction ε σ ω → Bool
  | .goes s seen => P s seen
  | _ => false

theorem Reaction.exists_of_ends {P : σ → List ω → Bool} {r : Reaction ε σ ω}
    (h : r.ends P = true) : ∃ s seen, r = .goes s seen ∧ P s seen = true := by
  cases r with
  | goes s seen => exact ⟨s, seen, rfl, h⟩
  | off => cases h
  | fails e => cases h

/-- Why the system stops. -/
def Reaction.error? : Reaction ε σ ω → Option ε
  | .fails e => some e
  | _ => none

theorem Reaction.eq_fails {r : Reaction ε σ ω} (h : r.error? = some e) : r = .fails e := by
  cases r with
  | fails e' => rw [Option.some.inj h]
  | off => cases h
  | goes s seen => cases h

/-! ## Invariants -/

variable {ok : α → Prop} {I : σ → Prop}

/-- The actions with `ok` keep the invariant `I`. -/
def Preserves (step : α → σ → Reaction ε σ ω) (ok : α → Prop) (I : σ → Prop) : Prop :=
  ∀ a s s' seen, ok a → I s → step a s = .goes s' seen → I s'

/-- What every action keeps, every schedule keeps. -/
theorem Preserves.run (h : Preserves step ok I) (hok : ∀ a ∈ acts, ok a) (hs : I s)
    (hrun : Reaction.run step acts s = .goes s' seen) : I s' := by
  induction acts generalizing s seen with
  | nil => exact (Reaction.run_nil.mp hrun).1 ▸ hs
  | cons a acts ih =>
    obtain ⟨t, seen₁, seen₂, hstep, hrun, -⟩ := Reaction.run_cons.mp hrun
    rw [List.forall_mem_cons] at hok
    exact ih hok.2 (h a s t seen₁ hok.1 hs hstep) hrun

/-- If a schedule stops, then an action stopped in a state with the invariant. -/
theorem Preserves.run_fails (h : Preserves step ok I) (hok : ∀ a ∈ acts, ok a) (hs : I s)
    (hrun : Reaction.run step acts s = .fails e) : ∃ a ∈ acts, ∃ t, I t ∧ step a t = .fails e := by
  induction acts generalizing s with
  | nil => exact absurd hrun (by simp [Reaction.run])
  | cons a acts ih =>
    rw [List.forall_mem_cons] at hok
    rw [Reaction.run] at hrun
    split at hrun
    · next s' seen₁ hstep =>
      split at hrun
      · exact absurd hrun (by simp)
      · next m hne =>
        obtain ⟨b, hb, t, ht, hfail⟩ := ih hok.2 (h a s s' seen₁ hok.1 hs hstep) hrun
        exact ⟨b, List.mem_cons_of_mem a hb, t, ht, hfail⟩
    · exact ⟨a, List.mem_cons_self, s, hs, hrun⟩

/-! ## Specifications -/

/-- The specification `spec` follows a list of observations. -/
def accepts (spec : ω → τ → Option τ) (seen : List ω) (t : τ) : Option τ :=
  seen.foldlM (fun t o => spec o t) t

variable {spec : ω → τ → Option τ} {R : σ → τ → Prop} {t t' : τ}

@[simp] theorem accepts_nil : accepts spec [] t = some t := rfl

@[simp] theorem accepts_singleton {o : ω} : accepts spec [o] t = spec o t := by
  cases h : spec o t with
  | none => simp [accepts, h]
  | some t' => simp [accepts, h]

theorem accepts_append (h : accepts spec seen t = some t') :
    accepts spec (seen ++ seen') t = accepts spec seen' t' := by
  unfold accepts at h ⊢
  rw [List.foldlM_append, h]
  rfl

/-- Along the relation `R`, the specification follows every action with `ok`. -/
def Simulates (step : α → σ → Reaction ε σ ω) (ok : α → Prop) (spec : ω → τ → Option τ)
    (R : σ → τ → Prop) : Prop :=
  ∀ a s s' seen t, ok a → R s t → step a s = .goes s' seen →
    ∃ t', accepts spec seen t = some t' ∧ R s' t'

/-- The specification follows every schedule. -/
theorem Simulates.run (h : Simulates step ok spec R) (hok : ∀ a ∈ acts, ok a) (hst : R s t)
    (hrun : Reaction.run step acts s = .goes s' seen) :
    ∃ t', accepts spec seen t = some t' ∧ R s' t' := by
  induction acts generalizing s t seen with
  | nil =>
    obtain ⟨rfl, rfl⟩ := Reaction.run_nil.mp hrun
    exact ⟨t, rfl, hst⟩
  | cons a acts ih =>
    obtain ⟨s₁, seen₁, seen₂, hstep, hrest, rfl⟩ := Reaction.run_cons.mp hrun
    rw [List.forall_mem_cons] at hok
    obtain ⟨t₁, hacc, hst⟩ := h a s s₁ seen₁ t hok.1 hst hstep
    obtain ⟨t', hacc', hst⟩ := ih hok.2 hst hrest
    exact ⟨t', (accepts_append hacc).trans hacc', hst⟩

end Prog
