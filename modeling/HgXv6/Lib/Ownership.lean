import Mathlib.Data.Set.Insert
import Mathlib.Logic.Function.Basic

set_option relaxedAutoImplicit false
set_option autoImplicit false

/-!
# Resources with one owner

A number of places hold references to resources, or a null reference, and a set says which of the
resources are in use. Ownership is exact if no resource is referenced from two places and the
resources in use are those that are referenced.

## Main definitions

* `Prog.Owns ref null used` — ownership is exact.
* `Prog.Shared holds` — no resource has two holders, where holders may have any number of them.

## Main results

* `Prog.Owns.alloc`, `Prog.Owns.free` — a place takes a resource that is not in use, or gives its
  resource back.
* `Prog.Shared.change` — some holders exchange resources with each other.
-/

namespace Prog

variable {π β : Type} {ref : π → β} {null : β} {used : Set β}

/-- No resource is referenced from two places, and the resources in use are those referenced. -/
structure Owns (ref : π → β) (null : β) (used : Set β) : Prop where
  inj : ∀ p q, ref p = ref q → ref p ≠ null → p = q
  mem_iff : ∀ b, b ≠ null → (b ∈ used ↔ ∃ p, ref p = b)

/-- What is referenced is in use. -/
theorem Owns.mem (h : Owns ref null used) {p : π} (hp : ref p ≠ null) : ref p ∈ used :=
  (h.mem_iff _ hp).mpr ⟨p, rfl⟩

/-- What is not in use is not referenced. -/
theorem Owns.ne (h : Owns ref null used) {b : β} (hb : b ≠ null) (hused : b ∉ used) (p : π) :
    ref p ≠ b := fun hp => hused ((h.mem_iff b hb).mpr ⟨p, hp⟩)

variable [DecidableEq π]

/-- An empty place takes a resource that is not in use. -/
theorem Owns.alloc (h : Owns ref null used) {p : π} {b : β} (hp : ref p = null) (hb : b ≠ null)
    (hused : b ∉ used) : Owns (Function.update ref p b) null (insert b used) where
  inj := by
    intro q q' heq hq
    by_cases hqp : q = p
    · by_cases hqp' : q' = p
      · rw [hqp, hqp']
      · rw [hqp, Function.update_self, Function.update_of_ne hqp'] at heq
        exact absurd heq.symm (h.ne hb hused q')
    · by_cases hqp' : q' = p
      · rw [hqp', Function.update_self, Function.update_of_ne hqp] at heq
        exact absurd heq (h.ne hb hused q)
      · rw [Function.update_of_ne hqp, Function.update_of_ne hqp'] at heq
        rw [Function.update_of_ne hqp] at hq
        exact h.inj q q' heq hq
  mem_iff := by
    intro c hc
    rw [Set.mem_insert_iff, h.mem_iff c hc]
    constructor
    · rintro (rfl | ⟨q, rfl⟩)
      · exact ⟨p, Function.update_self ..⟩
      · refine ⟨q, Function.update_of_ne ?_ ..⟩
        intro hqp
        exact hc (hqp ▸ hp)
    · intro hq
      obtain ⟨q, hq⟩ := hq
      by_cases hqp : q = p
      · rw [hqp, Function.update_self] at hq
        exact .inl hq.symm
      · rw [Function.update_of_ne hqp] at hq
        exact .inr ⟨q, hq⟩

/-- A place gives its resource back. -/
theorem Owns.free (h : Owns ref null used) {p : π} (hp : ref p ≠ null) :
    Owns (Function.update ref p null) null (used \ {ref p}) where
  inj := by
    intro q q' heq hq
    by_cases hqp : q = p
    · exact absurd (hqp ▸ Function.update_self ..) hq
    · rw [Function.update_of_ne hqp] at heq hq
      by_cases hqp' : q' = p
      · rw [hqp', Function.update_self] at heq
        exact absurd heq hq
      · rw [Function.update_of_ne hqp'] at heq
        exact h.inj q q' heq hq
  mem_iff := by
    intro c hc
    rw [Set.mem_sdiff, Set.mem_singleton_iff, h.mem_iff c hc]
    constructor
    · intro hmem
      obtain ⟨⟨q, hq⟩, hcp⟩ := hmem
      refine ⟨q, ?_⟩
      rwa [Function.update_of_ne]
      rintro rfl
      exact hcp hq.symm
    · intro hex
      obtain ⟨q, hq⟩ := hex
      by_cases hqp : q = p
      · rw [hqp, Function.update_self] at hq
        exact absurd hq.symm hc
      · rw [Function.update_of_ne hqp] at hq
        refine ⟨⟨q, hq⟩, fun hcp => hqp (h.inj q p (hq.trans hcp) ?_)⟩
        rw [hq]
        exact hc

/-! ## Shares -/

variable {η : Type} {holds holds' : η → Set β}

/-- No resource has two holders. -/
def Shared (holds : η → Set β) : Prop := ∀ k k' b, b ∈ holds k → b ∈ holds k' → k = k'

/-- The holders in `H` exchange resources with each other, or give them up. -/
theorem Shared.change (h : Shared holds) {H : Set η} (hsame : ∀ k, k ∉ H → holds' k = holds k)
    (hsub : ∀ k ∈ H, ∀ b ∈ holds' k, ∃ k' ∈ H, b ∈ holds k')
    (hdisjoint : ∀ k ∈ H, ∀ k' ∈ H, ∀ b, b ∈ holds' k → b ∈ holds' k' → k = k') :
    Shared holds' := by
  have hout : ∀ k ∈ H, ∀ k', k' ∉ H → ∀ b ∈ holds' k, b ∉ holds' k' := by
    intro k hk k' hk' b hb hb'
    obtain ⟨k'', hk'', hb''⟩ := hsub k hk b hb
    rw [hsame k' hk'] at hb'
    exact hk' (h k'' k' b hb'' hb' ▸ hk'')
  intro k k' b hb hb'
  by_cases hk : k ∈ H
  · by_cases hk' : k' ∈ H
    · exact hdisjoint k hk k' hk' b hb hb'
    · exact absurd hb' (hout k hk k' hk' b hb)
  · by_cases hk' : k' ∈ H
    · exact absurd hb (hout k' hk' k hk b hb')
    · rw [hsame k hk] at hb
      rw [hsame k' hk'] at hb'
      exact h k k' b hb hb'

end Prog
