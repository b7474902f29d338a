import HgXv6.Kernel.Calls
import HgXv6.Kernel.Log
import Mathlib.Data.Finset.Card
import Mathlib.Data.List.Dedup

set_option relaxedAutoImplicit false
set_option autoImplicit false

/-!
# Space in the log

Any number of file system calls join a transaction, call `log_write` on the blocks they change,
and leave it, in any order. `begin_op` lets a call in if the log has room for `MAXOPBLOCKS` more
blocks of each call that is executing. The blocks of a call are a list, in the order of its calls
of `log_write`.

The log does not overflow as long as the blocks of the calls executing, those in the log included,
are at most 28. Calls that write no more than eight blocks each never pass that bound. But
`filewrite` puts up to 6656 bytes in one call.

## Main definitions

* `HgXv6.LogMachine`, `HgXv6.LogMachine.step` — the calls that are executing, and what they do.
* `HgXv6.LogMachine.Within` — every call that is let in finds room.

## Main results

* `HgXv6.run_within` — a run in which every call finds room does not panic.
* `HgXv6.within_of_small` — calls of at most eight blocks find room.
* `HgXv6.not_finished` — calls of 30 blocks or more together cannot all finish.
-/

namespace HgXv6

open Prog

/-! ## The machine -/

/-- The log, and the calls that are executing: for each the blocks that it has yet to call
`log_write` on. -/
structure LogMachine where
  log : Log
  running : List (List ℕ)
deriving DecidableEq

/-- What a process does. -/
inductive LogEvent
  /-- it calls `begin_op`, for a call that writes the blocks `ws` -/
  | beginOp (ws : List ℕ)
  /-- the call in the place `i` of the list calls `log_write` -/
  | logWrite (i : ℕ)
  /-- the call in the place `i` of the list is over and calls `end_op` -/
  | endOp (i : ℕ)
  /-- the commit that an `end_op` has begun is over -/
  | commit
deriving DecidableEq

namespace LogMachine

/-- One event. A process that sleeps in `begin_op` changes nothing, and what is not possible does
not happen. -/
def step (m : LogMachine) : LogEvent → Except Stop LogMachine
  | .beginOp ws =>
    match m.log.beginOp with
    | none => .ok m
    | some log => .ok ⟨log, m.running ++ [ws]⟩
  | .logWrite i =>
    match m.running[i]? with
    | some (b :: ws) => m.log.logWrite b >>= fun log => .ok ⟨log, m.running.set i ws⟩
    | _ => .ok m
  | .endOp i =>
    match m.running[i]? with
    | some [] => m.log.endOp >>= fun r => .ok ⟨r.2, m.running.eraseIdx i⟩
    | _ => .ok m
  | .commit => .ok (if m.log.committing then ⟨m.log.committed, m.running⟩ else m)

/-- A number of events. -/
def run (m : LogMachine) (es : List LogEvent) : Except Stop LogMachine := es.foldlM step m

/-- The log after the boot. -/
def initial : LogMachine := ⟨⟨LOGSIZE, 0, false, []⟩, []⟩

/-- The blocks in the log, and those that the calls have yet to write. -/
def pending (m : LogMachine) : Finset ℕ := (m.log.lh ++ m.running.flatten).toFinset

/-- If the event is a call that is let in, its blocks and the pending ones are at most 28. -/
def HasRoom (m : LogMachine) : LogEvent → Prop
  | .beginOp ws => m.log.beginOp ≠ none → (ws.toFinset ∪ m.pending).card ≤ LOGSIZE - 2
  | _ => True

/-- Every call of the run that is let in finds room. -/
def Within : LogMachine → List LogEvent → Prop
  | _, [] => True
  | m, e :: es => m.HasRoom e ∧ ∀ m', m.step e = .ok m' → Within m' es

end LogMachine

open LogMachine

/-! ## What an event does -/

variable {m : LogMachine}

/-- What an event that does not panic has done. -/
theorem logStep_cases {e : LogEvent} {m' : LogMachine} (h : m.step e = .ok m') :
    m' = m ∨
    (∃ ws log, e = .beginOp ws ∧ m.log.beginOp = some log ∧ m' = ⟨log, m.running ++ [ws]⟩) ∨
    (∃ i b ws log, e = .logWrite i ∧ m.running[i]? = some (b :: ws) ∧
      m.log.logWrite b = .ok log ∧ m' = ⟨log, m.running.set i ws⟩) ∨
    (∃ i r, e = .endOp i ∧ m.running[i]? = some [] ∧ m.log.endOp = .ok r ∧
      m' = ⟨r.2, m.running.eraseIdx i⟩) ∨
    (e = .commit ∧ m.log.committing = true ∧ m' = ⟨m.log.committed, m.running⟩) := by
  cases e with
  | beginOp ws =>
    cases hlog : m.log.beginOp with
    | none => exact .inl (by simpa [LogMachine.step, hlog] using h.symm)
    | some log =>
      exact .inr (.inl ⟨ws, log, rfl, rfl, by simpa [LogMachine.step, hlog] using h.symm⟩)
  | logWrite i =>
    rcases hi : m.running[i]? with _ | ⟨_ | ⟨b, ws⟩⟩
    · exact .inl (by simpa [LogMachine.step, hi] using h.symm)
    · exact .inl (by simpa [LogMachine.step, hi] using h.symm)
    · simp only [LogMachine.step, hi] at h
      obtain ⟨log, hlog, heq⟩ := bind_eq_ok.mp h
      exact .inr (.inr (.inl ⟨i, b, ws, log, rfl, hi, hlog, (Except.ok.inj heq).symm⟩))
  | endOp i =>
    rcases hi : m.running[i]? with _ | ⟨_ | ⟨b, ws⟩⟩
    · exact .inl (by simpa [LogMachine.step, hi] using h.symm)
    · simp only [LogMachine.step, hi] at h
      obtain ⟨r, hr, heq⟩ := bind_eq_ok.mp h
      exact .inr (.inr (.inr (.inl ⟨i, r, rfl, hi, hr, (Except.ok.inj heq).symm⟩)))
    · exact .inl (by simpa [LogMachine.step, hi] using h.symm)
  | commit =>
    by_cases hc : m.log.committing = true
    · exact .inr (.inr (.inr (.inr ⟨rfl, hc, by simpa [LogMachine.step, hc] using h.symm⟩)))
    · exact .inl (by simpa [LogMachine.step, hc] using h.symm)

/-- What holds of the log and the calls that are executing. -/
structure LogInv (m : LogMachine) : Prop where
  size : m.log.size = LOGSIZE
  nodup : m.log.lh.Nodup
  outstanding : m.log.outstanding = m.running.length
  idle : m.log.committing = true → m.running = []

theorem mem_pending {b : ℕ} :
    b ∈ m.pending ↔ b ∈ m.log.lh ∨ ∃ ws ∈ m.running, b ∈ ws := by
  simp [pending]

/-- The blocks in the log are pending. -/
theorem LogInv.length_le (h : LogInv m) : m.log.lh.length ≤ m.pending.card := by
  rw [← List.toFinset_card_of_nodup h.nodup]
  refine Finset.card_le_card fun b hb => ?_
  exact mem_pending.mpr (.inl (List.mem_toFinset.mp hb))

theorem logInv_initial : LogInv initial where
  size := rfl
  nodup := List.nodup_nil
  outstanding := rfl
  idle := by simp [initial]

/-- A call that is let in. -/
theorem LogInv.beginOp (h : LogInv m) {ws : List ℕ} {log : Log} (hlog : m.log.beginOp = some log) :
    LogInv ⟨log, m.running ++ [ws]⟩ ∧
      (⟨log, m.running ++ [ws]⟩ : LogMachine).pending = ws.toFinset ∪ m.pending := by
  unfold Log.beginOp at hlog
  split_ifs at hlog with hcommit hspace
  obtain rfl := Option.some.inj hlog
  refine ⟨⟨h.size, h.nodup, by simp [h.outstanding], fun hc => absurd hc hcommit⟩, ?_⟩
  ext b
  simp only [pending, List.flatten_append, List.flatten_cons, List.flatten_nil, List.append_nil,
    List.toFinset_append, Finset.mem_union, List.mem_toFinset]
  tauto

/-- A block that a call has written is in the log instead of among those it has yet to write. -/
theorem pending_logWrite {i b : ℕ} {ws : List ℕ} {log : Log} (hi : m.running[i]? = some (b :: ws))
    (hlh : log.lh = absorb b m.log.lh) :
    (⟨log, m.running.set i ws⟩ : LogMachine).pending = m.pending := by
  obtain ⟨hlt, hget⟩ := List.getElem?_eq_some_iff.mp hi
  ext c
  rw [mem_pending, mem_pending]
  simp only [hlh, mem_absorb]
  constructor
  · rintro ((hc | rfl) | ⟨xs, hxs, hc⟩)
    · exact .inl hc
    · exact .inr ⟨c :: ws, hget ▸ List.getElem_mem hlt, List.mem_cons_self⟩
    · rcases List.mem_or_eq_of_mem_set hxs with hold | rfl
      · exact .inr ⟨xs, hold, hc⟩
      · exact .inr ⟨b :: xs, hget ▸ List.getElem_mem hlt, List.mem_cons_of_mem b hc⟩
  · rintro (hc | ⟨xs, hxs, hc⟩)
    · exact .inl (.inl hc)
    · obtain ⟨j, hj, rfl⟩ := List.mem_iff_getElem.mp hxs
      by_cases hji : j = i
      · subst hji
        rw [hget, List.mem_cons] at hc
        rcases hc with rfl | hc
        · exact .inl (.inr rfl)
        · exact .inr ⟨ws, List.mem_set (by simpa using hlt) ws, hc⟩
      · refine .inr ⟨m.running[j], ?_, hc⟩
        exact List.mem_iff_getElem.mpr ⟨j, by simpa using hj, List.getElem_set_ne (Ne.symm hji) _⟩

/-- A call that is let to write while there is space in the log. -/
theorem LogInv.logWrite (h : LogInv m) {i b : ℕ} {ws : List ℕ}
    (hi : m.running[i]? = some (b :: ws)) (hlt : m.log.lh.length + 1 < LOGSIZE) :
    ∃ log, m.log.logWrite b = .ok log ∧ log.lh = absorb b m.log.lh ∧
      LogInv ⟨log, m.running.set i ws⟩ := by
  have hpos : 0 < m.running.length := by
    obtain ⟨hlt, -⟩ := List.getElem?_eq_some_iff.mp hi
    omega
  refine ⟨{ m.log with lh := absorb b m.log.lh }, ?_, rfl, h.size, nodup_absorb h.nodup b, ?_, ?_⟩
  · have hsize := h.size
    have hout := h.outstanding
    rw [Log.logWrite, if_neg (by omega), if_neg (by omega)]
  · simp [h.outstanding]
  · intro hc
    rw [h.idle hc] at hpos
    simp at hpos

/-- A call that is over. -/
theorem LogInv.endOp (h : LogInv m) {i : ℕ} (hi : m.running[i]? = some []) :
    ∃ r, m.log.endOp = .ok r ∧ LogInv ⟨r.2, m.running.eraseIdx i⟩ ∧
      (⟨r.2, m.running.eraseIdx i⟩ : LogMachine).pending = m.pending := by
  obtain ⟨hlt, hget⟩ := List.getElem?_eq_some_iff.mp hi
  have hcommit : m.log.committing = false := by
    by_contra hc
    rw [h.idle (by simpa using hc)] at hlt
    simp at hlt
  have hlen : (m.running.eraseIdx i).length = m.log.outstanding - 1 := by
    rw [List.length_eraseIdx_of_lt hlt, h.outstanding]
  have hpending (log : Log) (hlh : log.lh = m.log.lh) :
      (⟨log, m.running.eraseIdx i⟩ : LogMachine).pending = m.pending := by
    ext c
    rw [mem_pending, mem_pending, hlh]
    constructor
    · rintro (hc | ⟨xs, hxs, hc⟩)
      · exact .inl hc
      · exact .inr ⟨xs, List.mem_of_mem_eraseIdx hxs, hc⟩
    · rintro (hc | ⟨xs, hxs, hc⟩)
      · exact .inl hc
      · refine .inr ⟨xs, List.mem_eraseIdx_iff_getElem?.mpr ?_, hc⟩
        obtain ⟨j, hj, rfl⟩ := List.mem_iff_getElem.mp hxs
        refine ⟨j, ?_, List.getElem?_eq_getElem hj⟩
        rintro rfl
        rw [hget] at hc
        cases hc
  unfold Log.endOp
  by_cases hlast : m.log.outstanding - 1 = 0
  · refine ⟨_, by rw [if_neg (by simp [hcommit]), if_pos hlast],
      ⟨h.size, h.nodup, hlen.symm, fun _ => ?_⟩, hpending _ rfl⟩
    exact List.length_eq_zero_iff.mp (hlen.trans hlast)
  · refine ⟨_, by rw [if_neg (by simp [hcommit]), if_neg hlast],
      ⟨h.size, h.nodup, hlen.symm, fun hc => ?_⟩, hpending _ rfl⟩
    exact absurd (hcommit.symm.trans hc) Bool.false_ne_true

/-- A commit. -/
theorem LogInv.committed (h : LogInv m) : LogInv ⟨m.log.committed, m.running⟩ :=
  ⟨h.size, List.nodup_nil, h.outstanding, by simp [Log.committed]⟩

/-! ## Runs -/

/-- An event that finds room does not panic. -/
theorem LogInv.step (h : LogInv m) (hcard : m.pending.card ≤ LOGSIZE - 2) {e : LogEvent}
    (he : m.HasRoom e) :
    ∃ m', m.step e = .ok m' ∧ LogInv m' ∧ m'.pending.card ≤ LOGSIZE - 2 := by
  have hstay : ∃ m', (.ok m : Except Stop LogMachine) = .ok m' ∧ LogInv m' ∧
      m'.pending.card ≤ LOGSIZE - 2 := ⟨m, rfl, h, hcard⟩
  cases e with
  | beginOp ws =>
    cases hlog : m.log.beginOp with
    | none => simpa only [LogMachine.step, hlog] using hstay
    | some log =>
      obtain ⟨hinv, hpending⟩ := @LogInv.beginOp m h ws log hlog
      refine ⟨⟨log, m.running ++ [ws]⟩, by simp only [LogMachine.step, hlog], hinv, ?_⟩
      rw [hpending]
      exact he (by rw [hlog]; simp)
  | logWrite i =>
    rcases hi : m.running[i]? with _ | ⟨_ | ⟨b, ws⟩⟩
    · simpa only [LogMachine.step, hi] using hstay
    · simpa only [LogMachine.step, hi] using hstay
    · have hlen := h.length_le
      obtain ⟨log, hlog, hlh, hinv⟩ := h.logWrite hi (by unfold LOGSIZE at *; omega)
      refine ⟨⟨log, m.running.set i ws⟩, ?_, hinv, ?_⟩
      · simp only [LogMachine.step, hi, hlog, ok_bind]
      · rw [pending_logWrite hi hlh]
        exact hcard
  | endOp i =>
    rcases hi : m.running[i]? with _ | ⟨_ | ⟨b, ws⟩⟩
    · simpa only [LogMachine.step, hi] using hstay
    · obtain ⟨r, hr, hinv, hpending⟩ := h.endOp hi
      refine ⟨⟨r.2, m.running.eraseIdx i⟩, ?_, hinv, ?_⟩
      · simp only [LogMachine.step, hi, hr, ok_bind]
      · rw [hpending]
        exact hcard
    · simpa only [LogMachine.step, hi] using hstay
  | commit =>
    by_cases hc : m.log.committing = true
    · refine ⟨⟨m.log.committed, m.running⟩, by simp [LogMachine.step, hc], h.committed, ?_⟩
      rw [pending, h.idle hc]
      simp [Log.committed]
    · simpa [LogMachine.step, hc] using hstay

/-- From any state in which there is room, a run in which every call finds room does not panic. -/
theorem LogInv.run (h : LogInv m) (hcard : m.pending.card ≤ LOGSIZE - 2) {es : List LogEvent}
    (hes : m.Within es) : ∃ m', m.run es = .ok m' := by
  induction es generalizing m with
  | nil => exact ⟨m, rfl⟩
  | cons e es ih =>
    obtain ⟨m₁, hstep, hinv, hcard₁⟩ := h.step hcard hes.1
    obtain ⟨m', hrun⟩ := ih hinv hcard₁ (hes.2 m₁ hstep)
    refine ⟨m', ?_⟩
    rw [LogMachine.run, List.foldlM_cons, hstep, ok_bind]
    exact hrun

/-- **Space in the log.** If every call that is let in finds room, no `log_write` panics, in any
interleaving of any number of calls.

**Proof sketch.** By induction on the events. Besides the invariant of the log, the blocks that are
in it or that the calls let in may still write fit in it. A call that is let in finds room for its
own blocks too, a `log_write` is of a block that is counted already, and a commit empties the log
(`LogInv.step`). -/
theorem run_within {es : List LogEvent} (h : initial.Within es) :
    ∃ m, initial.run es = .ok m :=
  logInv_initial.run (by decide) h

/-! ## Small calls -/

/-- A call of at most eight blocks. -/
def LogEvent.Small : LogEvent → Prop
  | .beginOp ws => ws.toFinset.card ≤ 8
  | _ => True

instance : DecidablePred LogEvent.Small
  | .beginOp ws => inferInstanceAs (Decidable (ws.toFinset.card ≤ 8))
  | .logWrite _ => isTrue trivial
  | .endOp _ => isTrue trivial
  | .commit => isTrue trivial

/-- What calls of at most eight blocks can have pending. -/
theorem card_flatten_le {xss : List (List ℕ)} (h : ∀ ws ∈ xss, ws.toFinset.card ≤ 8) :
    xss.flatten.toFinset.card ≤ 8 * xss.length := by
  induction xss with
  | nil => simp
  | cons ws xss ih =>
    rw [List.flatten_cons, List.toFinset_append, List.length_cons]
    have hws := h ws List.mem_cons_self
    have hrest := ih fun xs hxs => h xs (List.mem_cons_of_mem ws hxs)
    calc (ws.toFinset ∪ xss.flatten.toFinset).card
        ≤ ws.toFinset.card + xss.flatten.toFinset.card := Finset.card_union_le _ _
      _ ≤ 8 + 8 * xss.length := Nat.add_le_add hws hrest
      _ = 8 * (xss.length + 1) := by ring

/-- The test of `begin_op` leaves room for a small call. -/
theorem LogInv.hasRoom (h : LogInv m) (hsmall : ∀ ws ∈ m.running, ws.toFinset.card ≤ 8)
    {e : LogEvent} (he : e.Small) : m.HasRoom e := by
  cases e with
  | beginOp ws =>
    intro hlog
    have hspace : m.log.lh.length + (m.log.outstanding + 1) * MAXOPBLOCKS ≤ LOGSIZE := by
      by_contra hspace
      exact hlog (by simp [Log.beginOp, hspace])
    have hpending : m.pending.card ≤ m.log.lh.length + 8 * m.running.length :=
      calc m.pending.card = (m.log.lh.toFinset ∪ m.running.flatten.toFinset).card := by
            rw [pending, List.toFinset_append]
        _ ≤ m.log.lh.toFinset.card + m.running.flatten.toFinset.card := Finset.card_union_le _ _
        _ ≤ m.log.lh.length + 8 * m.running.length :=
            Nat.add_le_add m.log.lh.toFinset_card_le (card_flatten_le hsmall)
    have hout := h.outstanding
    calc (ws.toFinset ∪ m.pending).card ≤ ws.toFinset.card + m.pending.card :=
          Finset.card_union_le _ _
      _ ≤ 8 + (m.log.lh.length + 8 * m.running.length) := Nat.add_le_add he hpending
      _ ≤ LOGSIZE - 2 := by
          unfold LOGSIZE MAXOPBLOCKS at *
          omega
  | logWrite i => trivial
  | endOp i => trivial
  | commit => trivial

/-- The calls that are executing stay small. -/
theorem small_step (hsmall : ∀ ws ∈ m.running, ws.toFinset.card ≤ 8) {e : LogEvent}
    (he : e.Small) {m' : LogMachine} (hstep : m.step e = .ok m') :
    ∀ ws ∈ m'.running, ws.toFinset.card ≤ 8 := by
  intro xs hxs
  obtain rfl | ⟨ws, log, rfl, -, rfl⟩ | ⟨i, b, ws, log, rfl, hi, -, rfl⟩ | ⟨i, r, rfl, -, -, rfl⟩ |
    ⟨rfl, -, rfl⟩ := logStep_cases hstep
  · exact hsmall xs hxs
  · rcases List.mem_append.mp hxs with hold | hnew
    · exact hsmall xs hold
    · rw [List.mem_singleton.mp hnew]
      exact he
  · rcases List.mem_or_eq_of_mem_set hxs with hold | rfl
    · exact hsmall xs hold
    · refine (Finset.card_le_card ?_).trans (hsmall (b :: xs) (List.mem_of_getElem? hi))
      rw [List.toFinset_cons]
      exact Finset.subset_insert b xs.toFinset
  · exact hsmall xs (List.mem_of_mem_eraseIdx hxs)
  · exact hsmall xs hxs

/-- Small calls always find room. -/
theorem LogInv.within_of_small (h : LogInv m) (hcard : m.pending.card ≤ LOGSIZE - 2)
    (hsmall : ∀ ws ∈ m.running, ws.toFinset.card ≤ 8) {es : List LogEvent}
    (hes : ∀ e ∈ es, e.Small) : m.Within es := by
  induction es generalizing m with
  | nil => trivial
  | cons e es ih =>
    have he := hes e List.mem_cons_self
    have hroom := h.hasRoom hsmall he
    refine ⟨hroom, fun m' hstep => ?_⟩
    obtain ⟨m₁, hstep₁, hinv, hcard₁⟩ := h.step hcard hroom
    obtain rfl : m₁ = m' := by
      rw [hstep₁] at hstep
      exact Except.ok.inj hstep
    exact ih hinv hcard₁ (small_step hsmall he hstep) fun e' he' =>
      hes e' (List.mem_cons_of_mem e he')

/-- Runs of small calls do not panic. -/
theorem within_of_small {es : List LogEvent} (hes : ∀ e ∈ es, e.Small) : initial.Within es :=
  logInv_initial.within_of_small (by decide) (by simp [initial]) hes

/-- Two calls of two blocks and one, which share a block. -/
theorem run_within_two : ∃ m, initial.run [.beginOp [60, 61], .beginOp [60], .logWrite 0,
    .logWrite 1, .logWrite 0, .endOp 1, .endOp 0, .commit] = .ok m :=
  run_within (within_of_small (by decide))

/-! ## Large calls -/

/-- What holds while more blocks are pending than the log takes. -/
structure Overfull (m : LogMachine) : Prop extends LogInv m where
  length_lt : m.log.lh.length < LOGSIZE
  card : LOGSIZE ≤ m.pending.card

/-- Some call has not finished. -/
theorem Overfull.running_ne_nil (h : Overfull m) : m.running ≠ [] := by
  intro hnil
  have hcard := h.card
  have hlt := h.length_lt
  have hle := m.log.lh.toFinset_card_le
  rw [pending, hnil, List.flatten_nil, List.append_nil] at hcard
  omega

/-- The calls go on without a panic, but the last one does not finish. -/
theorem Overfull.step (h : Overfull m) {e : LogEvent} (he : ∀ ws, e ≠ .beginOp ws)
    {m' : LogMachine} (hstep : m.step e = .ok m') : Overfull m' := by
  obtain rfl | ⟨ws, log, rfl, -, -⟩ | ⟨i, b, ws, log, rfl, hi, hlog, rfl⟩ |
    ⟨i, r, rfl, hi, hr, rfl⟩ | ⟨rfl, hc, rfl⟩ := logStep_cases hstep
  · exact h
  · exact absurd rfl (he ws)
  · have hlt : m.log.lh.length + 1 < LOGSIZE := by
      by_contra hlt
      have hsize := h.size
      rw [Log.logWrite, if_pos (by omega)] at hlog
      cases hlog
    obtain ⟨log', hlog', hlh, hinv⟩ := h.toLogInv.logWrite hi hlt
    obtain rfl : log' = log := by
      rw [hlog'] at hlog
      exact Except.ok.inj hlog
    refine ⟨hinv, ?_, ?_⟩
    · have habsorb : (absorb b m.log.lh).length ≤ m.log.lh.length + 1 := by
        unfold absorb
        split_ifs
        · omega
        · simp
      rw [hlh]
      omega
    · rw [pending_logWrite hi hlh]
      exact h.card
  · obtain ⟨r', hr', hinv, hpending⟩ := h.toLogInv.endOp hi
    obtain rfl : r' = r := by
      rw [hr'] at hr
      exact Except.ok.inj hr
    refine ⟨hinv, ?_, ?_⟩
    · have hlh : r'.2.lh = m.log.lh := by
        unfold Log.endOp at hr'
        split_ifs at hr'
        · obtain rfl := Except.ok.inj hr'
          rfl
        · obtain rfl := Except.ok.inj hr'
          rfl
      rw [hlh]
      exact h.length_lt
    · rw [hpending]
      exact h.card
  · exact absurd (h.idle hc) h.running_ne_nil

/-- If the calls that are executing have 30 blocks or more between them, then they do not all
finish: unless they stop for ever, one of them panics. -/
theorem not_finished (h : Overfull m) {es : List LogEvent} (hes : ∀ e ∈ es, ∀ ws, e ≠ .beginOp ws)
    {m' : LogMachine} (hrun : m.run es = .ok m') : m'.running ≠ [] := by
  induction es generalizing m with
  | nil =>
    obtain rfl := Except.ok.inj hrun
    exact h.running_ne_nil
  | cons e es ih =>
    rw [LogMachine.run, List.foldlM_cons] at hrun
    obtain ⟨m₁, hstep, hrest⟩ := bind_eq_ok.mp hrun
    exact ih (h.step (hes e List.mem_cons_self) hstep)
      (fun e' he' => hes e' (List.mem_cons_of_mem e he')) hrest

/-! ## Three writes -/

/-- The blocks that a call of the process `p` calls `log_write` on, if it runs by itself. -/
def footprint (p : ℕ) (c : Disk.Call) (s : Disk.Fs) : List ℕ :=
  match (c.run p).run { s with logged := [] } with
  | .ok (_, s') => s'.logged
  | .error _ => []

/-- Three processes, each with a file of twelve blocks open for writing. -/
def threeFiles : Disk.Fs where
  sb := ⟨1000, 941, 200, 30, 2, 32, 58⟩
  dinode i := if i ∈ [2, 3, 4] then
      ⟨Disk.T_FILE, 0, 0, 1, 6144, fun k => if k < 12 then 60 + 12 * (i - 2) + k else 0⟩
    else Disk.Dinode.zero
  used b := b < 96
  data _ _ := 0
  icache i := ⟨if i ∈ [2, 3, 4] then 1 else 0, false, Disk.Dinode.zero⟩
  ftable f := if f < 3 then ⟨1, true, true, some (f + 2), 0⟩ else ⟨0, false, false, none, 0⟩
  cwd _ := Disk.ROOTINO
  ofile p fd := if p < 3 ∧ fd = 0 then some p else none
  logged := []

/-- A write of 6144 bytes. -/
def bigWrite : Disk.Call := .write 0 (List.replicate 6144 (chr 'a'))

/-- The write of each process changes the blocks of its file and no others. -/
theorem footprint_bigWrite : [0, 1, 2].map (fun p => footprint p bigWrite threeFiles) =
    [List.range' 60 12, List.range' 72 12, List.range' 84 12] := by decide +kernel

/-- The three writes are let in together, and the log has no space for them. -/
theorem not_forall_run : ¬∀ es, initial.run es ≠ .error (.panic "too big a transaction") := by
  intro h
  have hrun := h ([0, 1, 2].map (fun p => .beginOp (footprint p bigWrite threeFiles)) ++
    (List.range 36).map fun n => .logWrite (n / 12))
  have hblocks := footprint_bigWrite
  simp only [List.map_cons, List.map_nil, List.cons.injEq, and_true] at hblocks
  simp only [List.map_cons, List.map_nil, hblocks] at hrun
  exact hrun (by decide +kernel)

end HgXv6
