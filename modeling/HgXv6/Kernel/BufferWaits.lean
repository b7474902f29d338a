import HgXv6.Kernel.BufferCoherence

set_option relaxedAutoImplicit false
set_option autoImplicit false

/-!
# Waiting for buffers and for the disk

A process that sleeps in the buffer cache waits for something that is still to come: for another
process to let go of the buffer of its block, or for the controller to come to its request. Each
interrupt brings the controller one request further, and no request overtakes another. None of this
depends on what is read from the disks, so the results are about every schedule, also those in
which reads fail.

## Main definitions

* `HgXv6.Bio.Sys.Waits` — a process is in `iderw`, behind its request.
* `HgXv6.Bio.Act.isIntr` — the interrupts of a schedule.

## Main results

* `HgXv6.Bio.sleeper_run` — what those who sleep wait for.
* `HgXv6.Bio.served_run` — a request is done after as many interrupts as its place in the queue.
* `HgXv6.Bio.fails_run` — the panics that can be reached.
-/

namespace HgXv6.Bio

open Prog
open Mkfs (FSSIZE)

variable {s s' : Sys} {p q : ℕ} {b c : Fin NBUF} {a : Act} {acts acts' : List Act}
  {seen seen' : List Event} {queue queue' l : List (Fin NBUF)} {reading : Bool}
  {havedisk1 : Bool} {fetched : Data} {media : ℕ → ℕ → Data}

/-! ## Asleep -/

/-- **Those who sleep.** Whoever sleeps in `bget` waits for a buffer of its block that one process
has; whoever sleeps in `iderw` has a request in the queue of the controller. So nobody waits for
something that is not going to come.

**Proof sketch.** Both parts are read off the invariant, which holds after every schedule
(`sound_run`). Where a process sleeps in `bget`, the buffer is locked and has the key it asked for,
and a locked buffer has exactly one holder. Where a process sleeps in `iderw`, its buffer is in the
queue. -/
theorem sleeper_run
    (h : Reaction.run step acts (Sys.boot havedisk1 fetched media) = .goes s seen) :
    (∀ p b dev blockno, (s.threads p).pc = .bgetSleep b dev blockno →
      (s.buf b).key = (dev, blockno) ∧ ∃! q, b ∈ (s.threads q).held) ∧
    ∃ queue, Queued (fun b => (s.buf b).qnext) s.idequeue queue ∧ queue.Nodup ∧
      ∀ p b reading, (s.threads p).pc = .iderwSleep b reading → b ∈ queue := by
  obtain ⟨l, queue, hsound⟩ := sound_run h
  have hinv := hsound.inv
  refine ⟨fun p b dev blockno hpc => ?_, queue, hinv.queued, hinv.nodup, fun p b reading hpc => ?_⟩
  · have hthread := (hinv.thread p).pc
    rw [hpc] at hthread
    obtain ⟨q, hq⟩ := (hinv.busy b).mp hthread.1
    exact ⟨hthread.2, q, hq, fun r hr => hinv.holder r q b hr hq⟩
  · have hthread := (hinv.thread p).pc
    rw [hpc] at hthread
    exact hthread.2.1

/-- A process that sleeps for the disk, and one that sleeps for the same buffer. -/
theorem sleeper_run_two : ∃ s seen, Reaction.run step
      [.bread 0 1 5, .run 0, .run 0, .run 0, .bread 1 1 5, .run 1]
      (Sys.boot true (fun _ => 0) fun _ _ _ => 0) = .goes s seen ∧
    ((s.threads 0).pc = .iderwSleep 0 true ∧ (s.threads 1).pc = .bgetSleep 0 1 5) ∧
    (∀ p b dev blockno, (s.threads p).pc = .bgetSleep b dev blockno →
      (s.buf b).key = (dev, blockno) ∧ ∃! q, b ∈ (s.threads q).held) ∧
    ∃ queue, Queued (fun b => (s.buf b).qnext) s.idequeue queue ∧ queue.Nodup ∧
      ∀ p b reading, (s.threads p).pc = .iderwSleep b reading → b ∈ queue := by
  obtain ⟨s, seen, h, hpc⟩ := Reaction.exists_of_ends (r := Reaction.run step
      [.bread 0 1 5, .run 0, .run 0, .run 0, .bread 1 1 5, .run 1]
      (Sys.boot true (fun _ => 0) fun _ _ _ => 0))
    (P := fun s _ => (s.threads 0).pc = .iderwSleep 0 true ∧ (s.threads 1).pc = .bgetSleep 0 1 5)
    (by decide +kernel)
  exact ⟨s, seen, h, of_decide_eq_true hpc, sleeper_run h⟩

/-! ## The queue of requests -/

/-- The process is in `iderw`, behind its request for the buffer. -/
def Sys.Waits (s : Sys) (p : ℕ) (b : Fin NBUF) (reading : Bool) : Prop :=
  (s.threads p).pc = .iderwSleep b reading ∨ (s.threads p).pc = .iderwTest b reading

/-- A process that waits is left where it is by the others, or is woken. -/
theorem Thread.waits_wakeup {t : Thread}
    (h : t.pc = .iderwSleep b reading ∨ t.pc = .iderwTest b reading) (c : Fin NBUF) :
    (t.wakeup c).pc = .iderwSleep b reading ∨ (t.wakeup c).pc = .iderwTest b reading := by
  unfold Thread.wakeup
  rcases h with h | h
  · simp only [h]
    split_ifs
    · exact .inr rfl
    · exact .inl h
  · rw [h]
    exact .inr h

theorem Sys.Waits.setThread {t : Thread} (h : s.Waits p b reading) (hq : q ≠ p) :
    (s.setThread q t).Waits p b reading := by
  unfold Sys.Waits
  rw [Sys.setThread_ne hq.symm]
  exact h

/-- A process that is not in `bget` or in `iderw` itself is another one. -/
theorem Sys.Waits.ne (h : s.Waits p b reading)
    (hq : ∀ reading, (s.threads q).pc ≠ .iderwSleep b reading ∧
      (s.threads q).pc ≠ .iderwTest b reading) : q ≠ p := by
  rintro rfl
  exact h.elim (hq reading).1 (hq reading).2

/-- A process that goes on leaves the others where they are. -/
theorem run_threads (hstep : step (.run q) s = .goes s' seen) (hqp : q ≠ p) :
    s'.threads p = s.threads p := by
  have htest : ∀ {t : Sys} {c r}, iderwTest q c r t = .goes s' seen →
      s'.threads p = t.threads p := by
    intro t c r h
    unfold iderwTest leave at h
    split_ifs at h <;> cases h <;> exact Sys.setThread_ne hqp.symm
  simp only [step] at hstep
  split at hstep
  · unfold bget at hstep
    split at hstep
    · cases hstep
    · split_ifs at hstep <;> cases hstep <;> exact Sys.setThread_ne hqp.symm
    · split at hstep <;> cases hstep
      exact Sys.setThread_ne hqp.symm
  · unfold leave at hstep
    split_ifs at hstep <;> cases hstep <;> exact Sys.setThread_ne hqp.symm
  · next c r hq =>
    unfold iderw at hstep
    split_ifs at hstep
    split at hstep
    · cases hstep
    · next t henq =>
      have ht : t.threads = s.threads := by
        unfold enqueue at henq
        dsimp only at henq
        split at henq <;> cases henq <;> rfl
      rw [← ht]
      split_ifs at hstep
      · split at hstep
        · cases hstep
        · have hthreads := htest hstep
          exact hthreads
      · exact htest hstep
  · exact htest hstep
  · cases hstep

/-- An interrupt wakes processes, or leaves them where they are. -/
theorem ideintr_threads {err : Bool} (hstep : ideintr err s = .goes s' seen) :
    s'.threads = s.threads ∨ ∃ c, s'.threads = fun p => (s.threads p).wakeup c := by
  unfold ideintr at hstep
  split at hstep
  · cases hstep
    exact .inl rfl
  · next c hfirst =>
    refine .inr ⟨c, ?_⟩
    dsimp only at hstep
    split at hstep
    · cases hstep
      simp only [Sys.wakeup, Sys.setBuf]
      split_ifs <;> rfl
    · split at hstep
      · cases hstep
      · cases hstep
        simp only [Sys.wakeup, Sys.setBuf]
        split_ifs <;> rfl

/-- Only a process itself goes on from where it waits.

**Proof sketch.** One case for each action. Those of other processes change the place of their own
process alone, and a process that waits is not one that returns to its caller. A wakeup moves a
process that waits from its sleep to its test, and it waits there. -/
theorem waits_step (h : s.Waits p b reading) (ha : a ≠ .run p) (hstep : step a s = .goes s' seen) :
    s'.Waits p b reading := by
  have hcaller : ∀ {q}, (s.threads q).pc = .caller → q ≠ p := fun {q} hq =>
    h.ne fun r => by simp [hq]
  cases a with
  | bread q dev blockno =>
    simp only [step] at hstep
    split_ifs at hstep with hq
    cases hstep
    exact h.setThread (hcaller hq)
  | store q c data =>
    simp only [step] at hstep
    split_ifs at hstep with hq
    cases hstep
    exact Sys.Waits.setThread (s := s.setBuf c _) h (hcaller hq.1)
  | logWrite q c =>
    simp only [step] at hstep
    split_ifs at hstep with hq
    cases hstep
    exact Sys.Waits.setThread (s := s.setBuf c _) h (hcaller hq.1)
  | bwrite q c =>
    simp only [step] at hstep
    split_ifs at hstep with hq
    cases hstep
    exact Sys.Waits.setThread (s := s.setBuf c _) h (hcaller hq.1)
  | brelse q c =>
    simp only [step] at hstep
    split_ifs at hstep with hq
    unfold brelse at hstep
    split_ifs at hstep
    cases hstep
    exact Sys.Waits.setThread (s := Sys.wakeup c _) (Thread.waits_wakeup h c) (hcaller hq.1.1)
  | run q =>
    have hqp : q ≠ p := fun heq => ha (by rw [heq])
    unfold Sys.Waits
    rw [run_threads hstep hqp]
    exact h
  | wake q =>
    simp only [step] at hstep
    split at hstep
    · next c dev blockno hq =>
      cases hstep
      exact h.setThread (h.ne fun r => by simp [hq])
    · next c r hq =>
      cases hstep
      by_cases hqp : q = p
      · subst hqp
        rcases h with h | h
        · rw [h] at hq
          cases hq
          exact .inr (by rw [Sys.goto, Sys.setThread_self])
        · rw [h] at hq
          cases hq
      · exact h.setThread hqp
    · cases hstep
  | disk =>
    cases hstep
    exact h
  | ideintr err =>
    unfold Sys.Waits
    rcases ideintr_threads hstep with hthreads | ⟨c, hthreads⟩
    · rw [hthreads]
      exact h
    · rw [hthreads]
      exact Thread.waits_wakeup h c

/-- An interrupt of the controller. -/
def Act.isIntr : Act → Bool
  | .ideintr _ => true
  | _ => false

/-- As many interrupts as the place of a request in the queue, and one more: then the request is
not in the queue any more, unless its process has gone on in the meantime.

**Proof sketch.** Induction on the schedule. An interrupt brings the request one place further to
the front, or takes it from the queue. Others can only put requests behind it, and these are for
buffers that other processes hold. -/
theorem served_foldl (hnot : .run p ∉ acts) (hsound : s.Sound l queue)
    (hwaits : s.Waits p b reading)
    (hplace : ∀ i, queue[i]? = some b → i < acts.countP Act.isIntr)
    (h : Reaction.run step acts s = .goes s' seen) :
    s'.Waits p b reading ∧ ∃ l' queue', s'.Sound l' queue' ∧ b ∉ queue' := by
  induction acts generalizing s l queue seen with
  | nil =>
    obtain ⟨rfl, -⟩ := Reaction.run_nil.mp h
    refine ⟨hwaits, l, queue, hsound, fun hmem => ?_⟩
    obtain ⟨i, hi⟩ := List.mem_iff_getElem?.mp hmem
    exact absurd (hplace i hi) (Nat.not_lt_zero i)
  | cons a acts ih =>
    obtain ⟨t, seen₁, seen₂, hstep, hrest, -⟩ := Reaction.run_cons.mp h
    rw [List.mem_cons, not_or] at hnot
    obtain ⟨queue₁, hsound₁, hserved, -⟩ := hsound.step hstep
    refine ih hnot.2 hsound₁ (waits_step hwaits (Ne.symm hnot.1) hstep)
      (fun i hi => ?_) hrest
    have hheld : b ∈ (s.threads p).held := by
      refine (hsound.inv.thread p).target_held ?_
      rcases hwaits with hpc | hpc <;> rw [hpc] <;> rfl
    cases a with
    | ideintr err =>
      obtain rfl : queue₁ = queue.tail := hserved
      rw [List.getElem?_tail] at hi
      have hlt := hplace (i + 1) hi
      rw [List.countP_cons_of_pos rfl] at hlt
      exact Nat.lt_of_succ_lt_succ hlt
    | run q =>
      have hlt : ∀ i, queue[i]? = some b → i < acts.countP Act.isIntr := by
        intro i hi
        have hlt := hplace i hi
        rwa [List.countP_cons_of_neg (by simp [Act.isIntr])] at hlt
      rcases hserved with rfl | ⟨c, r, hpc, rfl⟩
      · exact hlt i hi
      · have hcb : c ≠ b := by
          rintro rfl
          have hq : c ∈ (s.threads q).held :=
            (hsound.inv.thread q).target_held (by rw [hpc]; rfl)
          exact hnot.1 (by rw [hsound.inv.holder p q c hheld hq])
        rcases lt_or_ge i queue.length with hlen | hlen
        · rw [List.getElem?_append_left hlen] at hi
          exact hlt i hi
        · rw [List.getElem?_append_right hlen] at hi
          obtain rfl := List.mem_singleton.mp (List.mem_of_getElem? hi)
          exact absurd rfl hcb
    | _ =>
      obtain rfl : queue₁ = queue := hserved
      have hlt := hplace i hi
      rwa [List.countP_cons_of_neg (by simp [Act.isIntr])] at hlt

/-- **No request is overtaken.** A process that waits for its request, the one with the index `i` in
the queue, finds it done after `i + 1` interrupts, whatever the others do in the meantime, and
whether the controller has reported errors or not.

**Proof sketch.** The queue is the one of the invariant, as a chain of links determines it, and no
buffer is in it twice, so that the index of the request is unique. `served_foldl` follows the
schedule: every interrupt takes the first request from the queue and no action inserts one before
others, so after `i + 1` interrupts the request is out of it. The process still waits, since only
itself could go on; it cannot be asleep, as sleepers have their requests in the queue, and at its
test it finds the buffer valid and clean, as that is what the invariant has for a request that is
not in the queue. -/
theorem served_run
    (h : Reaction.run step acts (Sys.boot havedisk1 fetched media) = .goes s seen)
    (hqueue : Queued (fun b => (s.buf b).qnext) s.idequeue queue) {i : ℕ}
    (hi : queue[i]? = some b) (hwaits : s.Waits p b reading)
    (hnot : .run p ∉ acts') (hintr : i < acts'.countP Act.isIntr)
    (h' : Reaction.run step acts' s = .goes s' seen') :
    (s'.threads p).pc = .iderwTest b reading ∧ (s'.buf b).synced = true := by
  obtain ⟨l, queue', hsound⟩ := sound_run h
  obtain rfl := hqueue.unique hsound.inv.queued
  have hplace : ∀ j, queue[j]? = some b → j < acts'.countP Act.isIntr := by
    intro j hj
    have hlen : j < queue.length := (List.getElem?_eq_some_iff.mp hj).1
    rw [(List.getElem?_inj hlen hsound.inv.nodup).mp (hj.trans hi.symm)]
    exact hintr
  obtain ⟨hwaits', l', queue', hsound', hout⟩ := served_foldl hnot hsound hwaits hplace h'
  have hthread := (hsound'.inv.thread p).pc
  rcases hwaits' with hpc | hpc
  · rw [hpc] at hthread
    exact absurd hthread.2.1 hout
  · rw [hpc] at hthread
    exact ⟨hpc, (hthread.2.resolve_left fun hin => hout hin.1).2⟩

/-- Two requests, and two interrupts for the second one: the first one has failed. -/
theorem served_run_two : ∃ s seen s' seen', Reaction.run step
      [.bread 0 1 5, .run 0, .run 0, .run 0, .bread 1 1 6, .run 1, .run 1, .run 1]
      (Sys.boot true (fun _ => 0) fun _ _ _ => 0) = .goes s seen ∧
    Reaction.run step [.ideintr true, .run 0, .brelse 0 0, .ideintr false] s = .goes s' seen' ∧
    (s'.threads 1).pc = .iderwTest 1 true ∧ (s'.buf 1).synced = true := by
  obtain ⟨s, seen, h, hs⟩ := Reaction.exists_of_ends (r := Reaction.run step
      [.bread 0 1 5, .run 0, .run 0, .run 0, .bread 1 1 6, .run 1, .run 1, .run 1]
      (Sys.boot true (fun _ => 0) fun _ _ _ => 0))
    (P := fun s _ => (s.idequeue = some 0 ∧ (s.buf 0).qnext = some 1 ∧ (s.buf 1).qnext = none ∧
      (s.threads 1).pc = .iderwSleep 1 true) ∧
      (Reaction.run step [.ideintr true, .run 0, .brelse 0 0, .ideintr false] s).ends
        (fun _ _ => true)) (by decide +kernel)
  obtain ⟨⟨hfirst, hnext, hlast, hpc⟩, hends⟩ := of_decide_eq_true hs
  obtain ⟨s', seen', h', -⟩ := Reaction.exists_of_ends hends
  have hqueue : Queued (fun b => (s.buf b).qnext) s.idequeue [0, 1] := ⟨hfirst, hnext, hlast⟩
  exact ⟨s, seen, s', seen', h, h', served_run h hqueue (i := 1) rfl (.inl hpc) (by simp)
    (by decide) h'⟩

/-! ## Panics -/

/-- The panics of one action.

**Proof sketch.** One case for each action. `bwrite` and `brelse` check that the buffer is locked,
which it is, since the process holds it. `iderw` checks that there is something to do, which is what
the process wants there. What is left is the end of the search of `bget`, a second disk that is not
there, and a block number that no disk has. -/
theorem fails_step {e : Stop} (hsound : s.Sound l queue) (h : step a s = .fails e) :
    e = .panic "bget: no buffers" ∨ e = .panic "iderw: ide disk 1 not present" ∨
      e = .panic "incorrect blockno" := by
  have hinv := hsound.inv
  have hbusy : ∀ {p b}, b ∈ (s.threads p).held → (s.buf b).busy ≠ false :=
    fun hb hfree => hinv.not_held hfree _ hb
  have hstart : ∀ {v d}, idestart v d = .error e → e = .panic "incorrect blockno" := by
    intro v d h
    unfold idestart at h
    split_ifs at h
    exact (Except.error.inj h).symm
  cases a with
  | bread p dev blockno | store p b data | logWrite p b =>
    simp only [step] at h
    split_ifs at h
  | bwrite p b =>
    simp only [step] at h
    split_ifs at h with huse hfree
    exact absurd hfree (hbusy huse.2)
  | brelse p b =>
    simp only [step] at h
    split_ifs at h with huse
    unfold brelse at h
    split_ifs at h with hfree
    exact absurd hfree (hbusy huse.1.2)
  | run p =>
    have hthread := (hinv.thread p).pc
    have hleave : ∀ {t : Sys} {b r}, leave p b r t ≠ .fails e := by
      intro t b r
      unfold leave
      simp
    have htest : ∀ {t : Sys} {b r}, iderwTest p b r t ≠ .fails e := by
      intro t b r
      unfold iderwTest leave
      split_ifs <;> simp
    simp only [step] at h
    split at h
    · next dev blockno hpc =>
      have hend := bget_end (p := p) hsound.lists hsound.all dev blockno
      rw [h] at hend
      cases hend
      exact .inl rfl
    · split_ifs at h
      exact absurd h hleave
    · next b r hpc =>
      rw [hpc] at hthread
      obtain ⟨hmem, hbq, hwants⟩ := hthread
      obtain ⟨bufs, first, henq, -⟩ := hinv.enqueue hbq
      unfold iderw at h
      split_ifs at h with hfree hsynced hdisk
      · exact absurd hfree (hbusy hmem)
      · unfold Buf.synced at hsynced
        rw [hwants.1, hwants.2] at hsynced
        cases r <;> simp at hsynced
      · exact .inr (.inl (Reaction.fails.inj h).symm)
      · rw [henq] at h
        dsimp only at h
        split_ifs at h
        · split at h
          · next e' herr =>
            obtain rfl := Reaction.fails.inj h
            exact .inr (.inr (hstart herr))
          · exact absurd h htest
        · exact absurd h htest
    · exact absurd h htest
    · cases h
  | wake p =>
    simp only [step] at h
    split at h <;> cases h
  | disk => cases h
  | ideintr err =>
    simp only [step] at h
    unfold ideintr at h
    split at h
    · cases h
    · dsimp only at h
      split at h
      · cases h
      · split at h
        · next e' herr =>
          obtain rfl := Reaction.fails.inj h
          exact .inr (.inr (hstart herr))
        · cases h

/-- **The panics that can be reached**: all buffers are in use or dirty, there is no second disk, or
a block is behind the end of the disk. The other checks of `bio.c` and `ide.c` never fail, whatever
the processes do and whatever the controller reports.

**Proof sketch.** The state before the step that panics was reached from the start, so that the
invariant holds in it (`sound_preserved`). There, every check that a step makes holds by the
invariant except for the three (`fails_step`). -/
theorem fails_run {e : Stop}
    (h : Reaction.run step acts (Sys.boot havedisk1 fetched media) = .fails e) :
    e = .panic "bget: no buffers" ∨ e = .panic "iderw: ide disk 1 not present" ∨
      e = .panic "incorrect blockno" := by
  obtain ⟨a, -, t, ⟨l, queue, hsound⟩, hfail⟩ :=
    sound_preserved.run_fails (fun _ _ => trivial) ⟨_, _, sound_boot⟩ h
  exact fails_step hsound hfail

/-- A block behind the end of the disk, after a read that has failed. -/
theorem fails_run_far : Reaction.run step [.bread 0 1 5, .run 0, .run 0, .run 0, .ideintr true,
      .run 0, .bread 0 1 2000, .run 0, .run 0, .run 0]
      (Sys.boot true (fun _ => 0) fun _ _ _ => 0) = .fails (.panic "incorrect blockno") ∧
    (Stop.panic "incorrect blockno" = .panic "bget: no buffers" ∨
      Stop.panic "incorrect blockno" = .panic "iderw: ide disk 1 not present" ∨
      Stop.panic "incorrect blockno" = .panic "incorrect blockno") := by
  have h : Reaction.run step [.bread 0 1 5, .run 0, .run 0, .run 0, .ideintr true,
      .run 0, .bread 0 1 2000, .run 0, .run 0, .run 0]
      (Sys.boot true (fun _ => 0) fun _ _ _ => 0) = .fails (.panic "incorrect blockno") :=
    Reaction.eq_fails (by decide +kernel)
  exact ⟨h, fails_run h⟩

end HgXv6.Bio
