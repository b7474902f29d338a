import HgXv6.Kernel.BufferCache
import Mathlib.Data.Fintype.Card

set_option relaxedAutoImplicit false
set_option autoImplicit false

/-!
# The order of the buffers

The buffers are in a list with links both ways, which `brelse` changes and `bget` walks through in
both directions. Whatever the processes do and in whatever order, the list holds all buffers, and
they are in the order of their last `brelse`, the most recent one first.

## Main definitions

* `HgXv6.Bio.lru` — the order of the buffers after some actions.

## Main results

* `HgXv6.Bio.binit_circle` — the list that `binit` makes.
* `HgXv6.Bio.circle_run` — the list after any schedule.
* `HgXv6.Bio.bget_run` — what `bget` finds in it.
-/

namespace HgXv6.Bio

open Prog

variable {s s' : Sys} {p : ℕ} {b : Fin NBUF} {a : Act} {acts : List Act} {seen : List Event}

/-! ## The list -/

/-- The links `L` are a list of the buffers `l`. -/
def Lists (L : Links Node) (l : List (Fin NBUF)) : Prop := Circle L none (l.map some)

theorem Lists.nodup {L : Links Node} {l : List (Fin NBUF)} (h : Lists L l) : l.Nodup :=
  (List.nodup_map_iff (Option.some_injective _)).mp (List.nodup_cons.mp (Circle.nodup h)).2

/-- A new buffer at the front. -/
theorem Lists.pushFront {L : Links Node} {l : List (Fin NBUF)} (h : Lists L l) (hb : b ∉ l) :
    Lists (L.pushFront none (some b)) (b :: l) :=
  Circle.pushFront h (by simpa using hb)

/-- A buffer that is moved to the front. -/
theorem Lists.moveFront {L : Links Node} {l : List (Fin NBUF)} (h : Lists L l) (hb : b ∈ l) :
    Lists ((L.unlink (some b)).pushFront none (some b)) (b :: l.erase b) := by
  obtain ⟨xs, ys, rfl⟩ := List.append_of_mem hb
  have hnodup := h.nodup
  rw [List.nodup_middle, List.nodup_cons] at hnodup
  have hxs : b ∉ xs := fun hmem => hnodup.1 (List.mem_append_left ys hmem)
  have herase : (xs ++ b :: ys).erase b = xs ++ ys := by
    rw [List.erase_append_right _ hxs, List.erase_cons_head]
  have hunlink : Lists (L.unlink (some b)) (xs ++ ys) := by
    unfold Lists at h ⊢
    rw [List.map_append, List.map_cons] at h
    rw [List.map_append]
    exact h.unlink
  rw [herase]
  exact hunlink.pushFront hnodup.1

/-- The loop of `binit` puts buffer after buffer at the front. -/
theorem binit_foldl {bufs : Fin NBUF → Buf} {L : Links Node} {l done : List (Fin NBUF)}
    (h : Lists L done) (hl : (l.reverse ++ done).Nodup) :
    Lists (l.foldl binitStep (bufs, L)).2 (l.reverse ++ done) := by
  induction l generalizing bufs L done with
  | nil => exact h
  | cons b l ih =>
    rw [List.reverse_cons, List.append_assoc, List.singleton_append] at hl ⊢
    refine ih (h.pushFront ?_) hl
    exact (List.nodup_cons.mp (List.nodup_append.mp hl).2.1).1

/-- The list that `binit` makes. -/
theorem binit_circle : Lists binit.2 (List.finRange NBUF).reverse := by
  have hempty : Lists ⟨fun _ => none, fun _ => none⟩ [] := Circle.nil rfl rfl
  have h := @binit_foldl (fun _ => ⟨false, false, false, 0, 0, none, fun _ => 0⟩) _
    (List.finRange NBUF) _ hempty (by simpa using List.nodup_finRange NBUF)
  rwa [List.append_nil] at h

/-! ## Its order -/

/-- What an action does to the order of the buffers. -/
def moved (l : List (Fin NBUF)) : Act → List (Fin NBUF)
  | .brelse _ b => b :: l.erase b
  | _ => l

/-- The order of the buffers after some actions: the one that was let go last is the first. -/
def lru (acts : List Act) : List (Fin NBUF) := acts.foldl moved (List.finRange NBUF).reverse

/-- The list always holds all buffers. -/
theorem mem_moved {l : List (Fin NBUF)} (h : ∀ b, b ∈ l) (a : Act) (c : Fin NBUF) :
    c ∈ moved l a := by
  cases a with
  | brelse p b =>
    by_cases hc : c = b
    · exact hc ▸ List.mem_cons_self
    · exact List.mem_cons_of_mem b ((List.mem_erase_of_ne hc).mpr (h c))
  | _ => exact h c

/-- `enqueue` leaves the list alone. -/
theorem enqueue_links (h : enqueue b s = some s') : s'.links = s.links := by
  unfold enqueue at h
  dsimp only at h
  split at h
  · cases h
  · cases h
    rfl
  · cases h
    rfl

/-- `iderw` leaves the list alone. -/
theorem iderw_links {reading : Bool} (h : iderw p b reading s = .goes s' seen) :
    s'.links = s.links := by
  have htest : ∀ {t : Sys}, iderwTest p b reading t = .goes s' seen → s'.links = t.links := by
    intro t h
    unfold iderwTest leave at h
    split_ifs at h <;> cases h <;> rfl
  unfold iderw at h
  split_ifs at h
  split at h
  · cases h
  · next t henq =>
    rw [← enqueue_links henq]
    split_ifs at h
    · split at h
      · cases h
      · have hlinks := htest h
        exact hlinks
    · exact htest h

/-- `ideintr` leaves the list alone. -/
theorem ideintr_links {err : Bool} (h : ideintr err s = .goes s' seen) : s'.links = s.links := by
  unfold ideintr at h
  split at h
  · cases h
    rfl
  · dsimp only at h
    split at h
    · cases h
      simp only [Sys.wakeup, Sys.setBuf]
      split_ifs <;> rfl
    · split at h
      · cases h
      · cases h
        simp only [Sys.wakeup, Sys.setBuf]
        split_ifs <;> rfl

/-- `bget` leaves the list alone. -/
theorem bget_links {dev blockno : UInt32} (h : bget p dev blockno s = .goes s' seen) :
    s'.links = s.links := by
  unfold bget at h
  split at h
  · cases h
  · split_ifs at h <;> cases h <;> rfl
  · split at h <;> cases h
    rfl

/-- Only `brelse` changes the list.

**Proof sketch.** One case for each action, of which only `brelse` touches the links: the other
functions of `bio.c` search along them, and `ide.c` has a list of its own. -/
theorem step_links (h : step a s = .goes s' seen) :
    s'.links = match a with
      | .brelse _ b => (s.links.unlink (some b)).pushFront none (some b)
      | _ => s.links := by
  cases a with
  | brelse p b =>
    simp only [step] at h
    split_ifs at h
    unfold brelse at h
    split_ifs at h
    cases h
    rfl
  | run p =>
    simp only [step] at h
    split at h
    · exact bget_links h
    · unfold leave at h
      split_ifs at h <;> cases h <;> rfl
    · exact iderw_links h
    · unfold iderwTest leave at h
      split_ifs at h <;> cases h <;> rfl
    · cases h
  | wake p =>
    simp only [step] at h
    split at h <;> cases h <;> rfl
  | ideintr err => exact ideintr_links h
  | disk =>
    cases h
    rfl
  | bread p dev blockno =>
    simp only [step] at h
    split_ifs at h
    cases h
    rfl
  | store p b data =>
    simp only [step] at h
    split_ifs at h
    cases h
    rfl
  | logWrite p b =>
    simp only [step] at h
    split_ifs at h
    cases h
    rfl
  | bwrite p b =>
    simp only [step] at h
    split_ifs at h
    cases h
    rfl

/-- What an action does to the list. -/
theorem circle_step {l : List (Fin NBUF)} (hl : Lists s.links l) (hall : ∀ b, b ∈ l)
    (h : step a s = .goes s' seen) : Lists s'.links (moved l a) := by
  rw [step_links h]
  cases a with
  | brelse p b => exact hl.moveFront (hall b)
  | _ => exact hl

/-- What a schedule does to the list. -/
theorem circle_foldl {l : List (Fin NBUF)} (hl : Lists s.links l) (hall : ∀ b, b ∈ l)
    (h : Reaction.run step acts s = .goes s' seen) :
    Lists s'.links (acts.foldl moved l) ∧ ∀ b, b ∈ acts.foldl moved l := by
  induction acts generalizing s l seen with
  | nil =>
    obtain ⟨rfl, -⟩ := Reaction.run_nil.mp h
    exact ⟨hl, hall⟩
  | cons a acts ih =>
    obtain ⟨t, seen₁, seen₂, hstep, hrest, -⟩ := Reaction.run_cons.mp h
    exact ih (circle_step hl hall hstep) (mem_moved hall a) hrest

/-- **The list after any schedule** from the start of the system. -/
theorem circle_run {havedisk1 : Bool} {fetched : Data} {media : ℕ → ℕ → Data}
    (h : Reaction.run step acts (Sys.boot havedisk1 fetched media) = .goes s seen) :
    Lists s.links (lru acts) ∧ ∀ b, b ∈ lru acts :=
  circle_foldl binit_circle (fun b => List.mem_reverse.mpr (List.mem_finRange b)) h

/-! ## Looking for a buffer -/

/-- A search along the list is a search in the list. -/
theorem findSome?_filter (q : Fin NBUF → Bool) (l : List (Fin NBUF)) :
    (l.map some).findSome? (fun n => n.filter q) = l.find? q := by
  induction l with
  | nil => rfl
  | cons b l ih =>
    rw [List.map_cons, List.findSome?_cons, List.find?_cons, Option.filter_some, ih]
    cases q b <;> rfl

/-- The search from the front. -/
theorem Lists.first {L : Links Node} {l : List (Fin NBUF)} (h : Lists L l) (q : Fin NBUF → Bool) :
    firstAlong L.next none (fun n => n.filter q) (NBUF + 1) (L.next none) = some (l.find? q) := by
  have hlen : l.length ≤ NBUF := by simpa using List.Nodup.length_le_card h.nodup
  rw [firstAlong_eq (Circle.seg_next h) (by simp) (by rw [List.length_map]; omega),
    findSome?_filter]

/-- The search from the back. -/
theorem Lists.last {L : Links Node} {l : List (Fin NBUF)} (h : Lists L l) (q : Fin NBUF → Bool) :
    firstAlong L.prev none (fun n => n.filter q) (NBUF + 1) (L.prev none) =
      some (l.reverse.find? q) := by
  have hlen : l.length ≤ NBUF := by simpa using List.Nodup.length_le_card h.nodup
  rw [firstAlong_eq (Circle.seg_prev h) (by simp)
    (by rw [List.length_reverse, List.length_map]; omega), ← List.map_reverse, findSome?_filter]

/-- How a stretch of `bget` ends. -/
inductive BgetEnd (s : Sys) (l : List (Fin NBUF)) (p : ℕ) (dev blockno : UInt32) : Result → Prop
  /-- the block is cached, and its buffer is in use -/
  | sleep (b : Fin NBUF) : (s.buf b).key = (dev, blockno) → (s.buf b).busy = true →
      BgetEnd s l p dev blockno (.goes (s.goto p (.bgetSleep b dev blockno)) [])
  /-- the block is cached -/
  | hit (b : Fin NBUF) : (s.buf b).key = (dev, blockno) → (s.buf b).busy = false →
      BgetEnd s l p dev blockno (.goes ((s.setBuf b { s.buf b with busy := true }).setThread p
        { s.threads p with pc := .bread b, held := Insert.insert b (s.threads p).held })
        [.lock p (dev, blockno)])
  /-- the block is not cached: of the clean buffers that are not in use, the one that was let go
  first is taken -/
  | recycle (b : Fin NBUF) (newer older : List (Fin NBUF)) :
      (∀ c, (s.buf c).key ≠ (dev, blockno)) → l = newer ++ b :: older →
      (s.buf b).busy = false → (s.buf b).dirty = false →
      (∀ c ∈ older, (s.buf c).busy = true ∨ (s.buf c).dirty = true) →
      BgetEnd s l p dev blockno (.goes ((s.setBuf b { s.buf b with
          dev := dev, blockno := blockno, busy := true, valid := false, dirty := false }).setThread
        p { s.threads p with pc := .bread b, held := Insert.insert b (s.threads p).held })
        [.lock p (dev, blockno)])
  /-- all buffers are in use or dirty -/
  | full : (∀ c, (s.buf c).key ≠ (dev, blockno)) →
      (∀ c, (s.buf c).busy = true ∨ (s.buf c).dirty = true) →
      BgetEnd s l p dev blockno (.fails (.panic "bget: no buffers"))

/-- What `bget` finds in the list. -/
theorem bget_end {l : List (Fin NBUF)} (hl : Lists s.links l) (hall : ∀ b, b ∈ l)
    (dev blockno : UInt32) : BgetEnd s l p dev blockno (bget p dev blockno s) := by
  unfold bget
  rw [hl.first, hl.last]
  cases hfirst : l.find? fun b => (s.buf b).dev = dev ∧ (s.buf b).blockno = blockno with
  | some b =>
    have hkey : (s.buf b).key = (dev, blockno) := by
      have hb := List.find?_some hfirst
      simp only [decide_eq_true_eq] at hb
      exact Prod.ext hb.1 hb.2
    dsimp only
    split_ifs with hbusy
    · exact .sleep b hkey hbusy
    · exact .hit b hkey (by simpa using hbusy)
  | none =>
    have hmiss : ∀ c, (s.buf c).key ≠ (dev, blockno) := by
      intro c hkey
      have hc := List.find?_eq_none.mp hfirst c (hall c)
      simp only [decide_eq_true_eq] at hc
      exact hc ⟨congrArg Prod.fst hkey, congrArg Prod.snd hkey⟩
    dsimp only
    cases hlast : l.reverse.find? fun b => (s.buf b).busy = false ∧ (s.buf b).dirty = false with
    | none =>
      refine .full hmiss fun c => ?_
      have hc := List.find?_eq_none.mp hlast c (List.mem_reverse.mpr (hall c))
      simp only [decide_eq_true_eq, not_and_or, Bool.not_eq_false] at hc
      exact hc
    | some b =>
      obtain ⟨hb, pre, post, hsplit, hpre⟩ := List.find?_eq_some_iff_append.mp hlast
      simp only [decide_eq_true_eq] at hb
      have hl : l = post.reverse ++ b :: pre.reverse := by
        rw [← List.reverse_reverse l, hsplit]
        simp
      refine .recycle b post.reverse pre.reverse hmiss hl hb.1 hb.2 fun c hc => ?_
      have hc := hpre c (List.mem_reverse.mp hc)
      simpa [not_and_or] using hc

/-- **The least recently used buffer.** After any schedule the links are a list of all buffers in
the order of their last `brelse`, the most recent one first; and what any process in `bget` gets is
the buffer of its block, if there is one, and otherwise the one that was let go first of those that
are neither in use nor dirty.

**Proof sketch.** The links are a list of all buffers in that order after any schedule
(`circle_run`). The first loop of `bget` goes along the list and finds the buffer of the block, of
which there is no more than one. The second goes along the list backward, so that what it finds is
the last buffer that can be taken (`bget_end`). -/
theorem bget_run {havedisk1 : Bool} {fetched : Data} {media : ℕ → ℕ → Data}
    (h : Reaction.run step acts (Sys.boot havedisk1 fetched media) = .goes s seen) :
    Lists s.links (lru acts) ∧ ∀ p dev blockno, (s.threads p).pc = .bget dev blockno →
      BgetEnd s (lru acts) p dev blockno (step (.run p) s) := by
  obtain ⟨hlists, hall⟩ := circle_run h
  refine ⟨hlists, fun p dev blockno hpc => ?_⟩
  simp only [step, hpc]
  exact bget_end hlists hall dev blockno

/-- A process that looks for a block after another one has let go of the first buffer. -/
theorem bget_run_two : ∃ s seen, Reaction.run step
      [.bread 0 1 5, .run 0, .run 0, .run 0, .ideintr false, .run 0, .brelse 0 0, .bread 1 1 6]
      (Sys.boot true (fun _ => 0) fun _ _ _ => 0) = .goes s seen ∧
    lru [.bread 0 1 5, .run 0, .run 0, .run 0, .ideintr false, .run 0, .brelse 0 0, .bread 1 1 6] =
      0 :: ((List.finRange NBUF).drop 1).reverse ∧
    Lists s.links (lru
      [.bread 0 1 5, .run 0, .run 0, .run 0, .ideintr false, .run 0, .brelse 0 0, .bread 1 1 6]) ∧
    BgetEnd s (lru
      [.bread 0 1 5, .run 0, .run 0, .run 0, .ideintr false, .run 0, .brelse 0 0, .bread 1 1 6])
      1 1 6 (step (.run 1) s) := by
  obtain ⟨s, seen, h, hpc⟩ := Reaction.exists_of_ends (r := Reaction.run step
      [.bread 0 1 5, .run 0, .run 0, .run 0, .ideintr false, .run 0, .brelse 0 0, .bread 1 1 6]
      (Sys.boot true (fun _ => 0) fun _ _ _ => 0))
    (P := fun s _ => (s.threads 1).pc = .bget 1 6) (by decide +kernel)
  obtain ⟨hlists, hend⟩ := bget_run h
  exact ⟨s, seen, h, by decide +kernel, hlists, hend 1 1 6 (of_decide_eq_true hpc)⟩

end HgXv6.Bio
