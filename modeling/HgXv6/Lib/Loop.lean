import HgXv6.Lib.Outcome
import Mathlib.Data.Int.Order.Basic
import Mathlib.Tactic.Ring

set_option relaxedAutoImplicit false
set_option autoImplicit false

/-!
# Loops

Two loop combinators and their rules. `iterWhile` is a `while` loop without effects whose
number of iterations is known to be bounded. `loopFuel` is a loop whose body may stop short and
decides by itself whether to go round again; it gives up after `n` iterations.

The last section instantiates the first at the scans of a program over an array: move an index
down, or up, until a test succeeds or the limit is reached.

## Main definitions

* `Prog.iterWhile`, `Prog.loopFuel` — the combinators.
* `Prog.scanDown`, `Prog.scanUp` — the scans.

## Main results

* `Prog.loopFuel_ensures`, `Prog.loopFuel_keeps`, `Prog.loopFuel_returns_of_step`,
  `Prog.loopFuel_returns_of_steps`, `Prog.loopFuel_diverges` — the invariant rule and the case of
  it in which the postcondition is the invariant, one iteration and all iterations of a loop that
  returns, and the rule for loops that never end.
* `Prog.loopFuel_settles` — larger bounds make no difference to a loop that has ended.
* `Prog.LoopReturns.of_step` — the same when the body calls loops with bounds of their own.
* `Prog.scanDown_stop`, `Prog.scanDown_passed` — a scan stops at the nearest index that passes
  the test, or at the limit; `Prog.scanUp_stop` and `Prog.scanUp_passed` likewise.
-/

namespace Prog

variable {ε σ τ : Type}

/-! ## Bounded loops without effects -/

/-- `while (cond) body`, for at most `n` iterations. -/
def iterWhile (cond : σ → Bool) (body : σ → σ) : ℕ → σ → σ
  | 0, s => s
  | n + 1, s => if cond s then iterWhile cond body n (body s) else s

/-- What every iteration preserves holds at the end. -/
theorem iterWhile_inv {cond : σ → Bool} {body : σ → σ} (I : σ → Prop)
    (hbody : ∀ s, I s → cond s = true → I (body s)) (n : ℕ) (s : σ) (hs : I s) :
    I (iterWhile cond body n s) := by
  induction n generalizing s with
  | zero => exact hs
  | succ n ih =>
    simp only [iterWhile]
    split_ifs with hc
    · exact ih _ (hbody s hs hc)
    · exact hs

/-- With a measure that every iteration decreases, the test fails at the end. -/
theorem iterWhile_stops {cond : σ → Bool} {body : σ → σ} (μ : σ → ℕ)
    (hμ : ∀ s, cond s = true → μ (body s) < μ s) (n : ℕ) (s : σ) (hn : μ s ≤ n) :
    cond (iterWhile cond body n s) = false := by
  induction n generalizing s with
  | zero =>
    by_contra hc
    have := hμ s (by simpa [iterWhile] using hc)
    omega
  | succ n ih =>
    simp only [iterWhile]
    split_ifs with hc
    · exact ih _ (by have := hμ s hc; omega)
    · simpa using hc

/-- A loop whose test fails does nothing. -/
theorem iterWhile_of_not {cond : σ → Bool} {body : σ → σ} (n : ℕ) (s : σ)
    (h : cond s = false) : iterWhile cond body n s = s := by
  cases n <;> simp [iterWhile, h]

/-- A loop on a large state that works on one part of it is a loop on that part. -/
theorem iterWhile_map {cond : σ → Bool} {body : σ → σ} {cond' : τ → Bool} {body' : τ → τ}
    (φ : τ → σ) (hcond : ∀ t, cond (φ t) = cond' t)
    (hbody : ∀ t, cond' t = true → body (φ t) = φ (body' t)) (n : ℕ) (t : τ) :
    iterWhile cond body n (φ t) = φ (iterWhile cond' body' n t) := by
  induction n generalizing t with
  | zero => rfl
  | succ n ih =>
    simp only [iterWhile, hcond]
    split_ifs with hc
    · rw [hbody t hc, ih]
    · rfl

/-! ## Loops that may stop short -/

/-- A loop whose body returns the next state and whether to go round again, given up with the
error `e` after `n` iterations. -/
def loopFuel (e : ε) (body : σ → Except ε (σ × Bool)) : ℕ → σ → Except ε σ
  | 0, _ => .error e
  | n + 1, s => body s >>= fun r => if r.2 then loopFuel e body n r.1 else .ok r.1

/-- The invariant rule: every iteration that goes round again keeps `I`, and every iteration
that leaves the loop establishes `Q`. -/
theorem loopFuel_ensures {e : ε} {body : σ → Except ε (σ × Bool)} (I Q : σ → Prop)
    (hbody : ∀ s, I s → Ensures (body s) fun r => if r.2 then I r.1 else Q r.1)
    (n : ℕ) (s : σ) (hs : I s) : Ensures (loopFuel e body n s) Q := by
  induction n generalizing s with
  | zero => simp [loopFuel]
  | succ n ih =>
    refine Ensures.bind (hbody s hs) fun r hr => ?_
    cases hgo : r.2 with
    | true => simpa [hgo] using ih r.1 (by simpa [hgo] using hr)
    | false => simpa [hgo] using hr

/-- What each pass of a loop keeps, the loop keeps. -/
theorem loopFuel_keeps {e : ε} {body : σ → Except ε (σ × Bool)} {P : σ → Prop}
    (hbody : ∀ s, P s → Ensures (body s) fun r => P r.1) (n : ℕ) {s : σ} (hs : P s) :
    Ensures (loopFuel e body n s) P := by
  refine loopFuel_ensures P _ (fun t ht => (hbody t ht).mono fun r hr => ?_) n s hs
  split_ifs <;> exact hr

/-- A loop in which every iteration goes round again never ends. -/
theorem loopFuel_diverges {e : ε} {body : σ → Except ε (σ × Bool)} (D : σ → Prop)
    (hbody : ∀ s, D s → ∃ s', body s = .ok (s', true) ∧ D s') (n : ℕ) (s : σ) (hs : D s) :
    loopFuel e body n s = .error e := by
  induction n generalizing s with
  | zero => rfl
  | succ n ih =>
    obtain ⟨s', h1, h2⟩ := hbody s hs
    simp only [loopFuel, h1, ok_bind, if_true]
    exact ih s' h2

/-- A loop that has ended within its bounds ends in the same way within larger ones. -/
theorem loopFuel_settles {e : ε} {body : ℕ → σ → Except ε (σ × Bool)}
    (hbody : ∀ s, Settles fun n => body n s) (s : σ) :
    Settles fun n => loopFuel e (body n) n s := by
  have hloop : ∀ n m, n ≤ m → ∀ k l s t, k ≤ l → loopFuel e (body n) k s = .ok t →
      loopFuel e (body m) l s = .ok t := by
    intro n m hnm k
    induction k with
    | zero =>
      intro l s t _ h
      cases h
    | succ k ih =>
      intro l s t hkl h
      obtain ⟨j, rfl⟩ : ∃ j, l = j + 1 := ⟨l - 1, by omega⟩
      obtain ⟨r, hr, h⟩ := bind_eq_ok.mp h
      simp only [loopFuel, hbody s n m r hnm hr, ok_bind]
      split_ifs at h ⊢ with hgo
      · exact ih j r.1 t (by omega) h
      · exact h
  exact fun n m t hnm h => hloop n m hnm n m s t hnm h

/-- A loop that has ended within its bound returns what it ended with. -/
theorem loopFuel_returns_of_eq {e : ε} {body : σ → Except ε (σ × Bool)} {n : ℕ} {s t : σ}
    (h : loopFuel e body n s = .ok t) : Returns (fun n => loopFuel e body n s) t :=
  (loopFuel_settles (fun s => Settles.const (body s)) s).returns h

/-- A loop that leaves at once returns the state its body returns. -/
theorem loopFuel_returns_of_stop {e : ε} {body : σ → Except ε (σ × Bool)} {s t : σ}
    (h : body s = .ok (t, false)) : Returns (fun n => loopFuel e body n s) t := by
  refine Returns.of_le 1 fun n hn => ?_
  obtain ⟨m, rfl⟩ : ∃ m, n = m + 1 := ⟨n - 1, by omega⟩
  simp [loopFuel, h]

/-- A loop that goes round again returns what the loop returns from there. -/
theorem loopFuel_returns_of_step {e : ε} {body : σ → Except ε (σ × Bool)} {s s' t : σ}
    (h : body s = .ok (s', true)) (ht : Returns (fun n => loopFuel e body n s') t) :
    Returns (fun n => loopFuel e body n s) t := by
  obtain ⟨N, hN⟩ := Filter.eventually_atTop.mp ht
  refine Returns.of_le (N + 1) fun n hn => ?_
  obtain ⟨m, rfl⟩ : ∃ m, n = m + 1 := ⟨n - 1, by omega⟩
  simpa [loopFuel, h] using hN m (by omega)

/-- A loop that goes round again along the first `n` states of a sequence, and then leaves. -/
theorem loopFuel_returns_of_steps {e : ε} {body : σ → Except ε (σ × Bool)} (f : ℕ → σ) {n : ℕ}
    {t : σ} (hstep : ∀ i < n, body (f i) = .ok (f (i + 1), true))
    (hstop : body (f n) = .ok (t, false)) : Returns (fun k => loopFuel e body k (f 0)) t := by
  induction n generalizing f with
  | zero => exact loopFuel_returns_of_stop hstop
  | succ n ih =>
    exact loopFuel_returns_of_step (hstep 0 n.succ_pos)
      (ih (fun i => f (i + 1)) (fun i hi => hstep (i + 1) (by omega)) hstop)

/-! ## Loops whose body has a bound of its own -/

/-- For all sufficiently large bounds of its body and of its iterations the loop ends with `t`. -/
def LoopReturns (e : ε) (body : ℕ → σ → Except ε (σ × Bool)) (s t : σ) : Prop :=
  ∃ N, ∀ n k, N ≤ n → N ≤ k → loopFuel e (body n) k s = .ok t

variable {e : ε} {body : ℕ → σ → Except ε (σ × Bool)} {s s' t : σ}

/-- With one bound for both, the loop returns. -/
theorem LoopReturns.returns (h : LoopReturns e body s t) :
    Returns (fun n => loopFuel e (body n) n s) t := by
  obtain ⟨N, hN⟩ := h
  exact Returns.of_le N fun n hn => hN n n hn hn

/-- A loop that leaves at once. -/
theorem LoopReturns.of_stop (h : Returns (fun n => body n s) (t, false)) :
    LoopReturns e body s t := by
  obtain ⟨N, hN⟩ := Filter.eventually_atTop.mp h
  refine ⟨N + 1, fun n k hn hk => ?_⟩
  obtain ⟨m, rfl⟩ : ∃ m, k = m + 1 := ⟨k - 1, by omega⟩
  simp [loopFuel, hN n (by omega)]

/-- A loop that goes round again. -/
theorem LoopReturns.of_step (h : Returns (fun n => body n s) (s', true))
    (ht : LoopReturns e body s' t) : LoopReturns e body s t := by
  obtain ⟨N, hN⟩ := Filter.eventually_atTop.mp h
  obtain ⟨M, hM⟩ := ht
  refine ⟨N + M + 1, fun n k hn hk => ?_⟩
  obtain ⟨m, rfl⟩ : ∃ m, k = m + 1 := ⟨k - 1, by omega⟩
  simpa [loopFuel, hN n (by omega)] using hM n m (by omega) (by omega)

/-- A loop whose first iteration is that of another state. -/
theorem LoopReturns.of_eq (h : ∀ᶠ n in Filter.atTop, body n s = body n s')
    (ht : LoopReturns e body s' t) : LoopReturns e body s t := by
  obtain ⟨N, hN⟩ := Filter.eventually_atTop.mp h
  obtain ⟨M, hM⟩ := ht
  refine ⟨N + M + 1, fun n k hn hk => ?_⟩
  obtain ⟨m, rfl⟩ : ∃ m, k = m + 1 := ⟨k - 1, by omega⟩
  have hrest := hM n (m + 1) (by omega) (by omega)
  simpa [loopFuel, hN n (by omega)] using hrest

/-- A loop that also keeps a record of its iterations does what it does without. -/
theorem loopFuel_record {ρ : Type} (body : σ → Except ε (σ × Bool)) (record : σ → ρ → ρ) (n : ℕ)
    (s : σ) (l : ρ) :
    (loopFuel e (fun y : σ × ρ => body y.1 >>= fun r => .ok ((r.1, record y.1 y.2), r.2)) n
      (s, l) >>= fun y => .ok y.1) = loopFuel e body n s := by
  induction n generalizing s l with
  | zero => rfl
  | succ n ih =>
    simp only [loopFuel]
    rcases body s with err | ⟨t, go⟩
    · rfl
    · cases go with
      | true => simpa using ih t (record s l)
      | false => rfl

/-! ## Scans -/

/-- `while (p > lo && !stop(p)) p--;` -/
def scanDown (stop : ℤ → Bool) (lo p : ℤ) : ℤ :=
  iterWhile (fun q => decide (lo < q) && !stop q) (fun q => q - 1) (p - lo).toNat p

/-- `while (p < hi && !stop(p)) p++;` -/
def scanUp (stop : ℤ → Bool) (hi p : ℤ) : ℤ :=
  iterWhile (fun q => decide (q < hi) && !stop q) (fun q => q + 1) (hi - p).toNat p

variable {stop : ℤ → Bool} {lo hi p q r : ℤ}

/-- A scan downwards does not go up. -/
theorem scanDown_le (stop : ℤ → Bool) (lo p : ℤ) : scanDown stop lo p ≤ p :=
  iterWhile_inv (fun q => q ≤ p) (fun q hq _ => by omega) _ _ le_rfl

/-- A scan downwards stays at or above its limit. -/
theorem le_scanDown (stop : ℤ → Bool) (h : lo ≤ p) : lo ≤ scanDown stop lo p := by
  refine iterWhile_inv (fun q => lo ≤ q) (fun q _ hc => ?_) _ _ h
  simp only [Bool.and_eq_true, decide_eq_true_eq] at hc
  omega

/-- At or below its limit a scan downwards does not move. -/
theorem scanDown_of_le (stop : ℤ → Bool) (h : p ≤ lo) : scanDown stop lo p = p :=
  iterWhile_of_not _ _ (by simp [h])

/-- A scan downwards ends at its limit or where the test succeeds. -/
theorem scanDown_stop (h : lo < scanDown stop lo p) : stop (scanDown stop lo p) = true := by
  have hs := @iterWhile_stops ℤ (fun q => decide (lo < q) && !stop q)
    (fun q => q - 1) (fun q => (q - lo).toNat) (fun q hc => by
      simp only [Bool.and_eq_true, decide_eq_true_eq] at hc
      omega) (p - lo).toNat p le_rfl
  change (decide (lo < scanDown stop lo p) && !stop (scanDown stop lo p)) = false at hs
  simpa [h] using hs

/-- The test fails wherever a scan downwards has passed. -/
theorem scanDown_passed (h1 : scanDown stop lo p < q) (h2 : q ≤ p) : stop q = false := by
  have hinv := @iterWhile_inv ℤ (fun q => decide (lo < q) && !stop q)
    (fun q => q - 1) (fun r => ∀ q, r < q → q ≤ p → stop q = false) (fun r hr hc => by
      simp only [Bool.and_eq_true, decide_eq_true_eq, Bool.not_eq_true'] at hc
      intro q h1 h2
      rcases eq_or_lt_of_le (show r ≤ q by omega) with rfl | h
      · exact hc.2
      · exact hr q h h2) (p - lo).toNat p (fun q h1 h2 => absurd h1 (by omega))
  exact hinv q h1 h2

/-- A scan downwards that goes on is one from the index below. -/
theorem scanDown_of_not (h : lo < p) (hs : stop p = false) :
    scanDown stop lo p = scanDown stop lo (p - 1) := by
  have hn : (p - lo).toNat = (p - 1 - lo).toNat + 1 := by omega
  rw [scanDown, hn, iterWhile, if_pos (by simp [h, hs])]
  rfl

/-- A scan upwards is a scan downwards seen in a mirror. -/
theorem scanUp_eq_neg (stop : ℤ → Bool) (hi p : ℤ) :
    scanUp stop hi p = -scanDown (fun q => stop (-q)) (-hi) (-p) := by
  have h := @iterWhile_map ℤ ℤ (fun q => decide (q < hi) && !stop q)
    (fun q => q + 1) (fun q => decide (-hi < q) && !stop (-q)) (fun q => q - 1) (fun q => -q)
    (fun q => by simp only [show -q < hi ↔ -hi < q by omega]) (fun q _ => by ring)
    (hi - p).toNat (-p)
  simp only [neg_neg] at h
  rw [scanUp, h, scanDown, show -p - -hi = hi - p by ring]

/-- A scan upwards does not go down. -/
theorem le_scanUp (stop : ℤ → Bool) (hi p : ℤ) : p ≤ scanUp stop hi p := by
  have := scanDown_le (fun q => stop (-q)) (-hi) (-p)
  rw [scanUp_eq_neg]
  omega

/-- A scan upwards stays at or below its limit. -/
theorem scanUp_le (stop : ℤ → Bool) (h : p ≤ hi) : scanUp stop hi p ≤ hi := by
  have := le_scanDown (fun q => stop (-q)) (show -hi ≤ -p by omega)
  rw [scanUp_eq_neg]
  omega

/-- At or above its limit a scan upwards does not move. -/
theorem scanUp_of_le (stop : ℤ → Bool) (h : hi ≤ p) : scanUp stop hi p = p :=
  iterWhile_of_not _ _ (by simp [h])

/-- A scan upwards that goes on is one from the index above. -/
theorem scanUp_of_not (h : p < hi) (hs : stop p = false) :
    scanUp stop hi p = scanUp stop hi (p + 1) := by
  have hn : (hi - p).toNat = (hi - (p + 1)).toNat + 1 := by omega
  rw [scanUp, hn, iterWhile, if_pos (by simp [h, hs])]
  rfl

/-- A scan upwards does not move where the test succeeds. -/
theorem scanUp_of_stop (hs : stop p = true) : scanUp stop hi p = p :=
  iterWhile_of_not _ _ (by simp [hs])

/-- A scan upwards ends at its limit or where the test succeeds. -/
theorem scanUp_stop (h : scanUp stop hi p < hi) : stop (scanUp stop hi p) = true := by
  rw [scanUp_eq_neg] at h ⊢
  exact @scanDown_stop (fun q => stop (-q)) _ _ (by omega)

/-- The test fails wherever a scan upwards has passed. -/
theorem scanUp_passed (h1 : p ≤ q) (h2 : q < scanUp stop hi p) : stop q = false := by
  rw [scanUp_eq_neg] at h2
  have := @scanDown_passed (fun q => stop (-q)) (-hi) (-p) (-q)
    (by omega) (by omega)
  simpa using this

end Prog
