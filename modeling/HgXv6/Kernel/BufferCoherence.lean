import HgXv6.Kernel.BufferInvariant

set_option relaxedAutoImplicit false
set_option autoImplicit false

/-!
# Coherence of the buffer cache

For the processes, the buffer cache and the disks behind it are a store of blocks, each with its
bytes and with at most one process that has it. Whatever the processes, the controller and its
interrupts do and in whatever order, what the processes see is what such a store would show them:
a block is got by one process at a time, and a `bread` returns the bytes that were last written
to the block by anyone, or those of the disk if nobody has written to it.

This is so as long as the controller reports no error for a read, since `ideintr` takes the
buffer for valid in any case, and for the disks 0 and 1, since the controller is given one bit of
the device number. Who holds the buffers and who waits for them does not depend on it: that part of
the invariant is kept by every action, and is what the results on waiting rest on.

## Main definitions

* `HgXv6.Bio.Store`, `HgXv6.Bio.Store.accept` — the store of blocks.
* `HgXv6.Bio.Sys.Shows` — what the buffers and the disks show together.
* `HgXv6.Bio.Sys.Coherent` — the cache and the disks are the store.

## Main results

* `HgXv6.Bio.follows_step` — every action keeps the invariant, and the store follows it.
* `HgXv6.Bio.sound_run` — the invariant after every schedule.
* `HgXv6.Bio.coherent` — the store follows every schedule.
-/

namespace HgXv6.Bio

open Prog
open Mkfs (FSSIZE)

variable {s s' : Sys} {p q : ℕ} {b c : Fin NBUF} {a : Act} {acts : List Act} {seen : List Event}
  {queue : List (Fin NBUF)} {reading : Bool} {k : UInt32 × UInt32}

/-! ## The store -/

/-- A store of blocks: the bytes of each, and the process that has it. -/
structure Store where
  content : UInt32 × UInt32 → Data
  owner : UInt32 × UInt32 → Option ℕ

open Classical in
/-- The store with one more observation, if it is right: only a block that nobody has is got, only
the process that has a block reads, writes or lets go of it, and it reads what is there. -/
noncomputable def Store.accept : Event → Store → Option Store
  | .lock p k, σ =>
    if σ.owner k = none then some { σ with owner := Function.update σ.owner k (some p) } else none
  | .read p k data, σ => if σ.owner k = some p ∧ σ.content k = data then some σ else none
  | .write p k data, σ =>
    if σ.owner k = some p then some { σ with content := Function.update σ.content k data }
    else none
  | .unlock p k, σ =>
    if σ.owner k = some p then some { σ with owner := Function.update σ.owner k none } else none

/-- What the buffers and the disks show together. -/
structure Sys.Shows (s : Sys) (σ : Store) : Prop where
  valid : ∀ b, (s.buf b).valid = true → σ.content (s.buf b).key = (s.buf b).data
  disk : ∀ k, (∀ b, (s.buf b).valid = true → (s.buf b).key ≠ k) →
    σ.content k = s.ide.contents k
  owner : ∀ k p, σ.owner k = some p ↔ ∃ b ∈ (s.threads p).held, (s.buf b).key = k

variable {σ : Store}

/-- Where only flags, links and places change, the same is shown. -/
theorem Sys.Shows.congr (h : s.Shows σ)
    (hbuf : ∀ b, (s'.buf b).valid = (s.buf b).valid ∧ (s'.buf b).key = (s.buf b).key ∧
      (s'.buf b).data = (s.buf b).data)
    (hide : s'.ide.contents = s.ide.contents)
    (hheld : ∀ p, (s'.threads p).held = (s.threads p).held) : s'.Shows σ := by
  refine ⟨fun b hb => ?_, fun k hk => ?_, fun k p => ?_⟩
  · obtain ⟨hvalid, hkey, hdata⟩ := hbuf b
    rw [hkey, hdata]
    exact h.valid b (hvalid ▸ hb)
  · rw [hide]
    refine h.disk k fun b hb => ?_
    obtain ⟨hvalid, hkey, -⟩ := hbuf b
    rw [← hkey]
    exact hk b (hvalid.trans hb)
  · rw [h.owner, hheld]
    simp only [(hbuf _).2.1]

theorem Sys.Shows.goto (h : s.Shows σ) (p : ℕ) (pc : Pc) : (s.goto p pc).Shows σ :=
  h.congr (fun _ => ⟨rfl, rfl, rfl⟩) rfl (Sys.held_goto s p pc)

theorem Sys.Shows.wakeup (h : s.Shows σ) (b : Fin NBUF) : (s.wakeup b).Shows σ :=
  h.congr (fun _ => ⟨rfl, rfl, rfl⟩) rfl fun _ => Sys.held_wakeup ..

/-- The process that holds a buffer has its block. -/
theorem Sys.Shows.owner_eq (h : s.Shows σ) (hb : b ∈ (s.threads p).held) :
    σ.owner (s.buf b).key = some p := (h.owner _ p).mpr ⟨b, hb, rfl⟩

/-- A process that has got a buffer changes its flags. -/
theorem Sys.Shows.own {v : Buf} {t : Thread} (h : s.Shows σ) (hvalid : v.valid = (s.buf b).valid)
    (hkey : v.key = (s.buf b).key) (hdata : v.data = (s.buf b).data)
    (hheld : t.held = (s.threads p).held) : ((s.setBuf b v).setThread p t).Shows σ := by
  refine h.congr (fun c => ?_) rfl fun q => ?_
  · by_cases hc : c = b
    · rw [hc, Sys.setThread, Sys.setBuf_self]
      exact ⟨hvalid, hkey, hdata⟩
    · rw [Sys.setThread, Sys.setBuf_ne hc]
      exact ⟨rfl, rfl, rfl⟩
  · by_cases hq : q = p
    · rw [hq, Sys.setThread_self, hheld]
    · rw [Sys.setThread_ne hq]
      rfl

/-- A process that has got a buffer changes its bytes.

**Proof sketch.** The buffer is held, so no other process sees its bytes before it lets go, and it
is valid, so what the store changes is the content of its block. No other buffer caches this block.
-/
theorem Sys.Shows.store {t : Thread} (h : s.Shows σ) (hinv : s.Inv queue) (hcached : s.Cached)
    (huse : s.mayUse p b) (data : Data) (hheld : t.held = (s.threads p).held) :
    ((s.setBuf b { s.buf b with data := data }).setThread p t).Shows
      { σ with content := Function.update σ.content (s.buf b).key data } := by
  obtain ⟨hcaller, hmem⟩ := huse
  have hvalid := ((hinv.thread p).valid b hmem (by simp [hcaller, Pc.target])).1
  have hbuf : ∀ c, (s.setBuf b { s.buf b with data := data }).buf c =
      { s.buf c with data := if c = b then data else (s.buf c).data } := by
    intro c
    by_cases hc : c = b
    · rw [hc, Sys.setBuf_self, if_pos rfl]
    · rw [Sys.setBuf_ne hc, if_neg hc]
  refine ⟨fun c hc => ?_, fun k hk => ?_, fun k q => ?_⟩
  · rw [Sys.setThread, hbuf] at hc ⊢
    by_cases hcb : c = b
    · subst hcb
      rw [if_pos rfl]
      exact Function.update_self ..
    · have hne : (s.buf c).key ≠ (s.buf b).key := fun heq =>
        hcb (hcached.key b c (hcached.held_dev hinv hmem) heq.symm).symm
      rw [if_neg hcb]
      exact (Function.update_of_ne hne ..).trans (h.valid c hc)
  · have hkb : k ≠ (s.buf b).key := by
      have hkb := hk b
      rw [Sys.setThread, hbuf] at hkb
      exact (hkb hvalid).symm
    refine (Function.update_of_ne hkb ..).trans (h.disk k fun c hc => ?_)
    have hkc := hk c
    rw [Sys.setThread, hbuf] at hkc
    exact hkc hc
  · rw [h.owner]
    have hheldq : (((s.setBuf b { s.buf b with data := data }).setThread p t).threads q).held =
        (s.threads q).held := by
      by_cases hq : q = p
      · rw [hq, Sys.setThread_self, hheld]
      · rw [Sys.setThread_ne hq]
        rfl
    rw [hheldq]
    simp only [Sys.setThread, hbuf]
    rfl

/-- Nobody has the block of a buffer that is not in use, and nobody has one that is not cached. -/
theorem Sys.Shows.owner_none (h : s.Shows σ) (hinv : s.Inv queue)
    (hk : ∀ c, (s.buf c).key = k → (s.buf c).busy = false) : σ.owner k = none := by
  cases howner : σ.owner k with
  | none => rfl
  | some q =>
    obtain ⟨c, hc, hkey⟩ := (h.owner k q).mp howner
    exact absurd hc (hinv.not_held (hk c hkey) q)

/-- `bget` has got a buffer for a process: it has the bytes of the block, or is not valid.

**Proof sketch.** One part for each field. The valid buffers are the others, as before, and the one
taken, by assumption. A block that is in no valid buffer now either was in none before, or was in
the buffer that has been taken over; that one was clean, so that the disk has what the store has. A
block has an owner exactly if somebody holds a buffer of it: for the block of the buffer taken that
is now the process, and nobody held that buffer before. -/
theorem Sys.Shows.lock {v : Buf} {t : Thread} (h : s.Shows σ) (hinv : s.Inv queue)
    (hfree : (s.buf b).busy = false) (hkey : v.key = k) (hnew : ∀ c ≠ b, (s.buf c).key ≠ k)
    (hvalid : v.valid = true → σ.content k = v.data)
    (hdisk : v.valid = false → σ.content k = s.ide.contents k)
    (hold : (s.buf b).valid = true → (s.buf b).key = v.key ∧ v.valid = true ∨
      σ.content (s.buf b).key = s.ide.contents (s.buf b).key)
    (hheld : t.held = Insert.insert b (s.threads p).held) :
    ((s.setBuf b v).setThread p t).Shows
      { σ with owner := Function.update σ.owner k (some p) } := by
  have hnone := hinv.not_held hfree
  refine ⟨fun c hc => ?_, fun l hl => ?_, fun l q => ?_⟩
  · rw [Sys.setThread] at hc ⊢
    by_cases hcb : c = b
    · rw [hcb, Sys.setBuf_self] at hc ⊢
      rw [hkey]
      exact hvalid hc
    · rw [Sys.setBuf_ne hcb] at hc ⊢
      exact h.valid c hc
  · have hother : ∀ c ≠ b, (s.buf c).valid = true → (s.buf c).key ≠ l := by
      intro c hcb hc
      have hlc := hl c
      rw [Sys.setThread, Sys.setBuf_ne hcb] at hlc
      exact hlc hc
    have hlb := hl b
    rw [Sys.setThread, Sys.setBuf_self] at hlb
    by_cases hb : (s.buf b).valid = true ∧ (s.buf b).key = l
    · rcases hold hb.1 with hsame | hcontent
      · exact absurd (hsame.1.symm.trans hb.2) (hlb hsame.2)
      · rw [hb.2] at hcontent
        exact hcontent
    · refine h.disk l fun c hc => ?_
      by_cases hcb : c = b
      · subst hcb
        exact fun heq => hb ⟨hc, heq⟩
      · exact hother c hcb hc
  · by_cases hl : l = k
    · subst hl
      dsimp only
      rw [Function.update_self]
      constructor
      · intro heq
        obtain rfl := Option.some.inj heq
        refine ⟨b, ?_, ?_⟩
        · rw [Sys.setThread_self, hheld]
          exact Finset.mem_insert_self ..
        · rw [Sys.setThread, Sys.setBuf_self]
          exact hkey
      · rintro ⟨c, hc, hck⟩
        have hcb : c = b := by
          by_contra hne
          rw [Sys.setThread, Sys.setBuf_ne hne] at hck
          exact hnew c hne hck
        by_cases hq : q = p
        · rw [hq]
        · rw [Sys.setThread_ne hq, hcb] at hc
          exact absurd hc (hnone q)
    · dsimp only
      rw [Function.update_of_ne hl, h.owner]
      constructor
      · rintro ⟨c, hc, hck⟩
        have hcb : c ≠ b := fun heq => hnone q (heq ▸ hc)
        refine ⟨c, ?_, ?_⟩
        · by_cases hq : q = p
          · subst hq
            rw [Sys.setThread_self, hheld]
            exact Finset.mem_insert_of_mem hc
          · rw [Sys.setThread_ne hq]
            exact hc
        · rw [Sys.setThread, Sys.setBuf_ne hcb]
          exact hck
      · rintro ⟨c, hc, hck⟩
        have hcb : c ≠ b := by
          rintro rfl
          rw [Sys.setThread, Sys.setBuf_self, hkey] at hck
          exact hl hck.symm
        rw [Sys.setThread, Sys.setBuf_ne hcb] at hck
        refine ⟨c, ?_, hck⟩
        by_cases hq : q = p
        · subst hq
          rw [Sys.setThread_self, hheld] at hc
          exact Finset.mem_of_mem_insert_of_ne hc hcb
        · rw [Sys.setThread_ne hq] at hc
          exact hc

/-- A process lets go of a buffer.

**Proof sketch.** The block of the buffer had this process as its owner; no other buffer with this
block is busy, so it has none now. The owners of the other blocks are as before, since their buffers
are. -/
theorem Sys.Shows.unlock {t : Thread} (h : s.Shows σ) (hinv : s.Inv queue) (hcached : s.Cached)
    (hmem : b ∈ (s.threads p).held) (hheld : t.held = (s.threads p).held.erase b) :
    ((s.setBuf b { s.buf b with busy := false }).setThread p t).Shows
      { σ with owner := Function.update σ.owner (s.buf b).key none } := by
  have hbuf : ∀ c, (s.setBuf b { s.buf b with busy := false }).buf c =
      { s.buf c with busy := if c = b then false else (s.buf c).busy } := by
    intro c
    by_cases hc : c = b
    · rw [hc, Sys.setBuf_self, if_pos rfl]
    · rw [Sys.setBuf_ne hc, if_neg hc]
  have hheldq : ∀ q c, c ∈ (((s.setBuf b { s.buf b with busy := false }).setThread p
      t).threads q).held ↔ c ≠ b ∧ c ∈ (s.threads q).held := by
    intro q c
    by_cases hq : q = p
    · rw [hq, Sys.setThread_self, hheld, Finset.mem_erase]
    · rw [Sys.setThread_ne hq]
      exact ⟨fun hc => ⟨fun heq => hq (hinv.holder q p c hc (heq ▸ hmem)), hc⟩, fun hc => hc.2⟩
  refine ⟨fun c hc => ?_, fun l hl => ?_, fun l q => ?_⟩
  · rw [Sys.setThread, hbuf] at hc ⊢
    exact h.valid c hc
  · refine h.disk l fun c hc => ?_
    have hlc := hl c
    rw [Sys.setThread, hbuf] at hlc
    exact hlc hc
  · simp only [hheldq]
    have hkey : ∀ c, (((s.setBuf b { s.buf b with busy := false }).setThread p t).buf c).key =
        (s.buf c).key := by
      intro c
      rw [Sys.setThread, hbuf]
      rfl
    simp only [hkey]
    by_cases hl : l = (s.buf b).key
    · subst hl
      rw [Function.update_self]
      refine ⟨fun heq => absurd heq (by simp), ?_⟩
      rintro ⟨c, ⟨hcb, -⟩, hck⟩
      exact absurd (hcached.key b c (hcached.held_dev hinv hmem) hck.symm).symm hcb
    · rw [Function.update_of_ne hl, h.owner]
      constructor
      · rintro ⟨c, hc, rfl⟩
        exact ⟨c, ⟨fun heq => hl (by rw [heq]), hc⟩, rfl⟩
      · rintro ⟨c, ⟨-, hc⟩, hck⟩
        exact ⟨c, hc, hck⟩

/-- The controller starts to work on a request. -/
theorem Sys.Shows.start {d : Ide} (h : s.Shows σ) (hinv : s.Inv queue) (hcached : s.Cached)
    (hc : c ∈ queue) (hd : idestart (s.buf c) s.ide = .ok d) :
    ({ s with ide := d } : Sys).Shows σ := by
  have hdev := hcached.queue_dev hinv hc
  cases hdirty : (s.buf c).dirty with
  | true =>
    refine { h with disk := fun l hl => ?_ }
    have hlc : l ≠ (s.buf c).key := (hl c (hinv.dirty c hdirty)).symm
    dsimp only
    rw [idestart_dirty hd hdev hdirty, Function.update_of_ne hlc]
    exact h.disk l hl
  | false =>
    exact h.congr (fun _ => ⟨rfl, rfl, rfl⟩) (idestart_clean hd hdev hdirty).1 fun _ => rfl

/-- The first request is done.

**Proof sketch.** The store and the buffer agree on the block of the request: if the buffer was
valid, it was dirty, since whoever waits wants it written, and then its bytes have not changed; if
it was not, the store has what the disk has. All other buffers keep their bytes, and no block
changes its owner. -/
theorem Sys.Shows.complete {v : Buf} {d : Ide} {first : Option (Fin NBUF)} (h : s.Shows σ)
    (hinv : s.Inv queue) (hcached : s.Cached) (hb : b ∈ queue)
    (hv : v = { s.buf b with valid := true, dirty := false, data := v.data })
    (hd : d.contents = s.ide.contents) (hdata : v.data = s.ide.contents (s.buf b).key)
    (hsame : (s.buf b).dirty = true → v.data = (s.buf b).data) :
    ({ s with buf := Function.update s.buf b v, idequeue := first, ide := d } : Sys).Shows σ := by
  have hkey : ∀ c, (Function.update s.buf b v c).key = (s.buf c).key := by
    intro c
    by_cases hc : c = b
    · rw [hc, Function.update_self, hv]
      rfl
    · rw [Function.update_of_ne hc]
  have hcontent : σ.content (s.buf b).key = v.data := by
    by_cases hvalid : (s.buf b).valid = true
    · rw [h.valid b hvalid]
      cases hdirty : (s.buf b).dirty with
      | true => exact (hsame hdirty).symm
      | false =>
        obtain ⟨q, r, hq⟩ := hinv.waiter b hb
        have hok := (hinv.thread q).pc
        have hwants : (s.buf b).Wants r := by
          rcases hq with hq | hq
          · rw [hq] at hok
            exact hok.2.2
          · rw [hq] at hok
            exact (hok.2.resolve_right fun hout => hout.1 hb).2
        rw [Buf.Wants, hvalid, hdirty] at hwants
        cases r <;> simp at hwants
    · rw [h.disk, hdata]
      intro c hc heq
      rw [← hcached.key b c (hcached.queue_dev hinv hb) heq.symm] at hc
      exact hvalid hc
  refine ⟨fun c hc => ?_, fun l hl => ?_, fun l q => ?_⟩
  · dsimp only at hc ⊢
    rw [hkey]
    by_cases hcb : c = b
    · rw [hcb, Function.update_self]
      exact hcontent
    · rw [Function.update_of_ne hcb] at hc ⊢
      exact h.valid c hc
  · dsimp only
    rw [hd]
    refine h.disk l fun c hc => ?_
    have hlc := hl c
    dsimp only at hlc
    rw [hkey] at hlc
    refine hlc ?_
    by_cases hcb : c = b
    · rw [hcb, Function.update_self, hv]
    · rw [Function.update_of_ne hcb]
      exact hc
  · dsimp only
    simp only [hkey]
    exact h.owner l q

/-! ## One action -/

/-- An action is one of a disk that works and that the controller can tell from the others. -/
def Act.Ok : Act → Prop
  | .bread _ dev _ => dev < 2
  | .ideintr err => err = false
  | _ => True

/-- What an action does to the queue of requests: an interrupt takes the first one from it, and
`iderw` puts one at its end. -/
def Served (s : Sys) (queue queue' : List (Fin NBUF)) : Act → Prop
  | .ideintr _ => queue' = queue.tail
  | .run p =>
    queue' = queue ∨
      ∃ b reading, (s.threads p).pc = .iderw b reading ∧ queue' = queue ++ [b]
  | _ => queue' = queue

/-- The cache and the disks are the store `σ`: each block is in one buffer, the controller works on
the first request, and what the buffers and the disks show is the store. -/
structure Sys.Coherent (s : Sys) (queue : List (Fin NBUF)) (σ : Store) : Prop where
  cached : s.Cached
  active : s.Active queue
  shows : s.Shows σ

/-- What an action leads to. In any case it is known who holds the buffers and who waits for them;
and if the disk works and the cache was the store before, the store follows the action. -/
def Follows (s : Sys) (queue : List (Fin NBUF)) (a : Act) (s' : Sys) (seen : List Event) : Prop :=
  ∃ queue', s'.Inv queue' ∧ Served s queue queue' a ∧
    ∀ σ, s.Coherent queue σ → a.Ok →
      ∃ σ', accepts Store.accept seen σ = some σ' ∧ s'.Coherent queue' σ'

/-- Where the first request is left alone, the controller goes on to work on it. -/
theorem Sys.Active.congr (h : s.Active queue)
    (hbuf : ∀ c ∈ queue, (s'.buf c).dirty = (s.buf c).dirty ∧ (s'.buf c).key = (s.buf c).key ∧
      (s'.buf c).data = (s.buf c).data)
    (hide : s'.ide.idewait = s.ide.idewait) : s'.Active queue := by
  intro c hc
  obtain ⟨hdirty, hkey, hdata⟩ := hbuf c (List.mem_of_head? hc)
  have hcontents : s'.ide.contents = s.ide.contents := by
    unfold Ide.contents
    rw [hide]
  rw [hdirty, hkey, hdata, hcontents, hide]
  exact h c hc

theorem Sys.Coherent.wakeup (h : s.Coherent queue σ) (b : Fin NBUF) :
    (s.wakeup b).Coherent queue σ :=
  ⟨h.cached.wakeup b, h.active.congr (fun _ _ => ⟨rfl, rfl, rfl⟩) rfl, h.shows.wakeup b⟩

/-- A process goes on at another place, with what it then sees. -/
theorem follows_goto {pc : Pc} (hinv : s.Inv queue) (ha : Served s queue queue a)
    (hpc : pc.Ok s.buf queue (s.threads p).held)
    (hvalid : ∀ b, (s.threads p).pc.target = some b → pc.target = some b ∨
      (s.buf b).valid = true ∧ b ∉ queue)
    (hunsaved : ∀ b, pc.target = some b → (s.threads p).pc.target = some b)
    (hwait : ∀ b ∈ queue, (s.threads p).pc.target = some b →
      ∃ reading, pc = .iderwSleep b reading ∨ pc = .iderwTest b reading)
    (hasks : ∀ dev, pc.asks = some dev → (s.threads p).pc.asks = some dev ∨ (a.Ok → dev < 2))
    (hseen : ∀ σ, s.Shows σ → accepts Store.accept seen σ = some σ) :
    Follows s queue a (s.goto p pc) seen := by
  refine ⟨queue, hinv.goto hpc hvalid (fun b hb hmem => ?_) hwait, ha, fun σ h hok => ?_⟩
  · exact ((hinv.thread p).unsaved b hmem).2 (hunsaved b hb)
  · refine ⟨σ, hseen σ h.shows, h.cached.goto fun dev hdev => ?_,
      h.active.congr (fun _ _ => ⟨rfl, rfl, rfl⟩) rfl, h.shows.goto p pc⟩
    exact (hasks dev hdev).elim (h.cached.asks p dev) fun hlt => hlt hok

/-- `bread` and `bwrite` return. -/
theorem follows_leave (hinv : s.Inv queue) (htarget : (s.threads p).pc.target = some b)
    (hvalid : (s.buf b).valid = true) (hbq : b ∉ queue)
    (h : leave p b reading s = .goes s' seen) : Follows s queue (.run p) s' seen := by
  unfold leave at h
  cases h
  have honly : ∀ c, (s.threads p).pc.target = some c → c = b := fun c hc =>
    Option.some.inj (hc.symm.trans htarget)
  refine follows_goto hinv (.inl rfl) trivial (fun c hc => ?_) (fun c hc => ?_)
    (fun c hc hct => ?_) (fun dev hdev => ?_) fun σ hshows => ?_
  · rw [honly c hc]
    exact .inr ⟨hvalid, hbq⟩
  · cases hc
  · rw [honly c hct] at hc
    exact absurd hc hbq
  · cases hdev
  · cases reading with
    | false => rfl
    | true =>
      have hheld := (hinv.thread p).target_held htarget
      rw [if_pos rfl, accepts_singleton]
      exact if_pos ⟨hshows.owner_eq hheld, hshows.valid b hvalid⟩

/-- The condition of the loop of `iderw`. -/
theorem follows_iderwTest (hinv : s.Inv queue) (hpc : (s.threads p).pc = .iderwTest b reading)
    (h : iderwTest p b reading s = .goes s' seen) : Follows s queue (.run p) s' seen := by
  have hok := (hinv.thread p).pc
  rw [hpc] at hok
  have htarget : (s.threads p).pc.target = some b := by rw [hpc]; rfl
  unfold iderwTest at h
  split_ifs at h with hsync
  · have hvalid : (s.buf b).valid = true := by
      unfold Buf.synced at hsync
      simp only [Bool.and_eq_true] at hsync
      exact hsync.1
    have hbq : b ∉ queue := by
      rcases hok.2 with ⟨-, hwants⟩ | ⟨hbq, -⟩
      · exfalso
        unfold Buf.synced at hsync
        rw [hwants.1, hwants.2] at hsync
        cases reading <;> simp at hsync
      · exact hbq
    exact follows_leave hinv htarget hvalid hbq h
  · cases h
    have hin := hok.2.resolve_right fun hout => hsync hout.2
    refine follows_goto hinv (.inl rfl) ⟨hok.1, hin⟩ (fun c hc => ?_) (fun c hc => ?_)
      (fun c _ hct => ?_) (fun dev hdev => by cases hdev) fun _ _ => rfl
    · exact .inl (by rw [← hc, htarget]; rfl)
    · rw [← hc, htarget]
      rfl
    · obtain rfl : b = c := Option.some.inj (htarget.symm.trans hct)
      exact ⟨reading, .inl rfl⟩

/-- `bget` has got a buffer for a process. -/
theorem follows_lock {v : Buf} {dev blockno : UInt32} (hinv : s.Inv queue)
    (hpc : (s.threads p).pc = .bget dev blockno) (hfree : (s.buf b).busy = false)
    (hbusy : v.busy = true) (hkey : v.key = (dev, blockno))
    (hdirty : v.dirty = true → v.valid = true) (hqnext : v.qnext = (s.buf b).qnext)
    (hnew : s.Cached → ∀ c ≠ b, (s.buf c).key ≠ (dev, blockno))
    (hshown : ∀ σ, s.Coherent queue σ →
      (v.synced = true → v.data = s.ide.contents v.key) ∧
      (v.valid = true → σ.content (dev, blockno) = v.data) ∧
      (v.valid = false → σ.content (dev, blockno) = s.ide.contents (dev, blockno)) ∧
      ((s.buf b).valid = true → (s.buf b).key = v.key ∧ v.valid = true ∨
        σ.content (s.buf b).key = s.ide.contents (s.buf b).key)) :
    Follows s queue (.run p) ((s.setBuf b v).setThread p
      { s.threads p with pc := .bread b, held := Insert.insert b (s.threads p).held })
      [.lock p (dev, blockno)] := by
  refine ⟨queue, hinv.lock hpc hfree hbusy hdirty hqnext, .inl rfl, fun σ h _ => ?_⟩
  obtain ⟨hclean, hvalid, hdisk, hold⟩ := hshown σ h
  have hnew := hnew h.cached
  refine ⟨_, ?_, h.cached.lock hpc hkey hnew hclean, h.active.congr (fun c hc => ?_) rfl,
    h.shows.lock hinv hfree hkey hnew hvalid hdisk hold rfl⟩
  · rw [accepts_singleton]
    refine if_pos (h.shows.owner_none hinv fun c hc => ?_)
    by_cases hcb : c = b
    · rw [hcb]
      exact hfree
    · exact absurd hc (hnew c hcb)
  · have hcb : c ≠ b := ne_of_mem_of_not_mem hc (hinv.not_mem_queue hfree)
    rw [Sys.setThread, Sys.setBuf_ne hcb]
    exact ⟨rfl, rfl, rfl⟩

/-- `bget`

**Proof sketch.** By the ends of `bget` (`bget_end`). It may wait for a buffer that is busy, and
then nothing changes but where the process is. If the buffer with the block is free the process
takes it, and the block had no owner, as only one buffer has it. If a buffer is reused it was
neither busy nor dirty, so the disk has the content of its old block; the new block was in no
buffer, so its content is on the disk too, from which it will be read. -/
theorem follows_bget {l : List (Fin NBUF)} {dev blockno : UInt32} (hl : Lists s.links l)
    (hall : ∀ b, b ∈ l) (hinv : s.Inv queue) (hpc : (s.threads p).pc = .bget dev blockno)
    (h : bget p dev blockno s = .goes s' seen) : Follows s queue (.run p) s' seen := by
  have hnotarget : ∀ c, (s.threads p).pc.target ≠ some c := by simp [hpc, Pc.target]
  have hend := bget_end (p := p) hl hall dev blockno
  rw [h] at hend
  have hunheld : ∀ {b}, (s.buf b).busy = false → ∀ q, b ∉ (s.threads q).unsaved :=
    fun hfree q hmem => hinv.not_held hfree q ((hinv.thread q).unsaved _ hmem).1
  cases hend with
  | sleep b hkey hbusy =>
    refine follows_goto hinv (.inl rfl) ⟨hbusy, hkey⟩ (fun c hc => absurd hc (hnotarget c))
      (fun c hc => by cases hc) (fun c _ hc => absurd hc (hnotarget c)) (fun dev' hdev => ?_)
      fun _ _ => rfl
    exact .inl (by rw [← hdev, hpc]; rfl)
  | hit b hkey hfree =>
    have hnew : s.Cached → ∀ c ≠ b, (s.buf c).key ≠ (dev, blockno) := by
      intro hcached c hc heq
      have hdev : (s.buf b).dev < 2 := by
        rw [show (s.buf b).dev = dev from congrArg Prod.fst hkey]
        exact hcached.asks p dev (by rw [hpc]; rfl)
      exact hc (hcached.key b c hdev (hkey.trans heq.symm)).symm
    refine follows_lock hinv hpc hfree rfl hkey (hinv.dirty b) rfl hnew fun σ hcoh =>
      ⟨fun hsync => hcoh.cached.clean b hsync (hunheld hfree), fun hvalid => ?_,
        fun hvalid => ?_, fun hvalid => .inl ⟨rfl, hvalid⟩⟩
    · rw [← hkey]
      exact hcoh.shows.valid b hvalid
    · refine hcoh.shows.disk _ fun c hc heq => ?_
      by_cases hcb : c = b
      · rw [hcb] at hc
        rw [show (s.buf b).valid = false from hvalid] at hc
        cases hc
      · exact hnew hcoh.cached c hcb heq
  | recycle b newer older hmiss _ hfree hdirty _ =>
    refine follows_lock hinv hpc hfree rfl rfl (fun hd => by cases hd) rfl
      (fun _ c _ => hmiss c) fun σ hcoh =>
      ⟨fun hsync => (by cases hsync), fun hvalid => (by cases hvalid),
        fun _ => hcoh.shows.disk _ fun c _ => hmiss c, fun hvalid => .inr ?_⟩
    rw [hcoh.shows.valid b hvalid]
    refine hcoh.cached.clean b ?_ (hunheld hfree)
    unfold Buf.synced
    rw [hvalid, hdirty]
    rfl

/-- `iderw`, up to its first sleep.

**Proof sketch.** The process has locked its buffer, and the buffer is not in the queue, so that the
request is put at its end (`Inv.enqueue`). Nothing that the store looks at has changed. If the queue
was empty the controller starts to work on the request, and what it is about to do is what `Active`
says; otherwise it goes on with the first request, which is still the same. The process then sleeps,
as its buffer is not in the state it wants. -/
theorem follows_iderw (hinv : s.Inv queue) (hpc : (s.threads p).pc = .iderw b reading)
    (h : iderw p b reading s = .goes s' seen) : Follows s queue (.run p) s' seen := by
  have hok := (hinv.thread p).pc
  rw [hpc] at hok
  obtain ⟨hmem, hbq, hwants⟩ := hok
  obtain ⟨bufs, first, henq, hqueued, hbufs⟩ := hinv.enqueue hbq
  have hsync : (bufs b).synced = false := by
    rw [hbufs b]
    unfold Buf.synced
    dsimp only
    rw [hwants.1, hwants.2]
    cases reading <;> rfl
  have hrequest := hinv.request hpc hqueued hbufs
  have hfirst : first = (queue ++ [b]).head? := by
    cases queue with
    | nil => exact (queued_cons.mp hqueued).1
    | cons c queue => exact (queued_cons.mp hqueued).1
  have hshows' : ∀ {σ}, s.Shows σ → (({ s with buf := bufs, idequeue := first } : Sys).goto p
      (.iderwSleep b reading)).Shows σ := by
    intro σ hshows
    refine hshows.congr (fun c => ?_) rfl (Sys.held_goto _ p _)
    change (bufs c).valid = _ ∧ (bufs c).key = _ ∧ (bufs c).data = _
    rw [hbufs c]
    exact ⟨rfl, rfl, rfl⟩
  unfold iderw at h
  split_ifs at h with hbusy hsynced hdev
  rw [henq] at h
  dsimp only at h
  split_ifs at h with hhead
  · -- the queue was empty: the controller starts
    split at h
    · cases h
    · next ide hide =>
      unfold iderwTest at h
      rw [if_neg (by simp [hsync])] at h
      cases h
      refine ⟨queue ++ [b], { hrequest with }, .inr ⟨b, reading, hpc, rfl⟩, fun σ hcoh _ => ?_⟩
      have hhead' : (queue ++ [b]).head? = some b := hfirst.symm.trans hhead
      have hcached : (({ s with buf := bufs, idequeue := first } : Sys).goto p
          (.iderwSleep b reading)).Cached := hcoh.cached.request hbufs
      obtain ⟨hcached', hactive'⟩ := hcached.start hrequest hhead' hide
      exact ⟨σ, rfl, hcached', hactive', (hshows' hcoh.shows).start hrequest hcached
        (List.mem_append_right _ List.mem_cons_self) hide⟩
  · unfold iderwTest at h
    rw [if_neg (by simp [hsync])] at h
    cases h
    refine ⟨queue ++ [b], hrequest, .inr ⟨b, reading, hpc, rfl⟩, fun σ hcoh _ =>
      ⟨σ, rfl, hcoh.cached.request hbufs, ?_, hshows' hcoh.shows⟩⟩
    cases queue with
    | nil => exact absurd hfirst hhead
    | cons c queue =>
      intro d hd
      have hact := hcoh.active d hd
      change ((bufs d).dirty = true → s.ide.contents (bufs d).key = (bufs d).data) ∧
        ((bufs d).dirty = false → s.ide.idewait.fetched = s.ide.contents (bufs d).key)
      rw [hbufs d]
      exact hact

/-- The first request as it is when it is done. -/
def Sys.served (err : Bool) (b : Fin NBUF) (s : Sys) : Sys :=
  { s.wakeup b with
    buf := Function.update s.buf b { s.buf b with
      valid := true
      dirty := false
      data := if (s.buf b).dirty || err then (s.buf b).data else s.ide.idewait.fetched }
    idequeue := (s.buf b).qnext
    ide := if (s.buf b).dirty then s.ide else s.ide.idewait }

/-- An interrupt completes the first request and starts the next one. -/
theorem ideintr_eq (err : Bool) (hb : s.idequeue = some b) :
    ideintr err s = match (s.buf b).qnext with
      | none => .goes (s.served err b) []
      | some c =>
        match idestart ((s.served err b).buf c) (s.served err b).ide with
        | .error e => .fails e
        | .ok ide => .goes { s.served err b with ide := ide } [] := by
  have hstate : (((if (s.buf b).dirty = false then
      if err then ({ s with idequeue := (s.buf b).qnext, ide := s.ide.idewait } : Sys)
      else ({ s with idequeue := (s.buf b).qnext, ide := s.ide.idewait } : Sys).setBuf b
        { s.buf b with data := s.ide.idewait.fetched }
      else { s with idequeue := (s.buf b).qnext }).setBuf b
        { (if (s.buf b).dirty = false then
          if err then ({ s with idequeue := (s.buf b).qnext, ide := s.ide.idewait } : Sys)
          else ({ s with idequeue := (s.buf b).qnext, ide := s.ide.idewait } : Sys).setBuf b
            { s.buf b with data := s.ide.idewait.fetched }
          else { s with idequeue := (s.buf b).qnext }).buf b with
          valid := true, dirty := false }).wakeup b) = s.served err b := by
    unfold Sys.served
    cases hdirty : (s.buf b).dirty with
    | true => simp [Sys.setBuf, Sys.wakeup]
    | false =>
      cases err with
      | true => simp [Sys.setBuf, Sys.wakeup]
      | false => simp [Sys.setBuf, Sys.wakeup]
  unfold ideintr
  rw [hb]
  dsimp only
  rw [hstate]
  rfl

/-- `ideintr`: the first request is done, whether its bytes have been read or not.

**Proof sketch.** If there is no request nothing happens. Otherwise the first request is done and
whoever waits for it is awake, which is `Inv.wakeup` and `Inv.complete`. If no error is reported and
the cache was the store, then by `Active` the controller has written the bytes of the buffer, or
fetched those of the disk, so that the buffer has the bytes of its block. If there is a next request
the controller starts to work on it. -/
theorem follows_ideintr {err : Bool} (hinv : s.Inv queue) (h : ideintr err s = .goes s' seen) :
    Follows s queue (.ideintr err) s' seen := by
  cases hfirst : s.idequeue with
  | none =>
    have hqueued := hinv.queued
    rw [hfirst] at hqueued
    obtain rfl := hqueued.eq_nil
    unfold ideintr at h
    rw [hfirst] at h
    cases h
    exact ⟨[], hinv, rfl, fun σ hcoh _ => ⟨σ, rfl, hcoh⟩⟩
  | some b =>
    have hqueued := hinv.queued
    rw [hfirst] at hqueued
    obtain ⟨rest, rfl, hrest⟩ := hqueued.eq_cons
    rw [ideintr_eq err hfirst] at h
    have hwake := hinv.wakeup b
    have hinv' : (s.served err b).Inv rest :=
      hwake.complete (fun q => Thread.pc_wakeup b (s.threads q)) rfl
    have hdone : ∀ {σ}, s.Coherent (b :: rest) σ → err = false →
        (s.served err b).Cached ∧ (s.served err b).Shows σ := by
      rintro σ hcoh rfl
      obtain ⟨hwrite, hread⟩ := hcoh.active b rfl
      have hcontents : (if (s.buf b).dirty then s.ide else s.ide.idewait).contents =
          s.ide.contents := by
        split_ifs
        · rfl
        · exact Ide.contents_idewait s.ide
      have hdata : (if (s.buf b).dirty || false then (s.buf b).data else s.ide.idewait.fetched) =
          s.ide.contents (s.buf b).key := by
        rw [Bool.or_false]
        split_ifs with hdirty
        · exact (hwrite hdirty).symm
        · exact hread (by simpa using hdirty)
      have hcoh' := hcoh.wakeup b
      exact ⟨hcoh'.cached.complete hwake List.mem_cons_self rfl hcontents hdata,
        hcoh'.shows.complete hwake hcoh'.cached List.mem_cons_self rfl hcontents hdata
          fun hdirty => if_pos (by rw [Bool.or_false]; exact hdirty)⟩
    cases hnext : (s.buf b).qnext with
    | none =>
      rw [hnext] at h hrest
      cases h
      obtain rfl := hrest.eq_nil
      refine ⟨[], hinv', rfl, fun σ hcoh herr => ⟨σ, rfl, ?_⟩⟩
      obtain ⟨hcached, hshows⟩ := hdone hcoh herr
      exact ⟨hcached, fun c hc => (by cases hc), hshows⟩
    | some c =>
      rw [hnext] at h hrest
      obtain ⟨rest', rfl, -⟩ := hrest.eq_cons
      dsimp only at h
      split at h
      · cases h
      · next ide hide =>
        cases h
        refine ⟨c :: rest', { hinv' with }, rfl, fun σ hcoh herr => ⟨σ, rfl, ?_⟩⟩
        obtain ⟨hcached, hshows⟩ := hdone hcoh herr
        obtain ⟨hcached', hactive'⟩ := hcached.start hinv' rfl hide
        exact ⟨hcached', hactive', hshows.start hinv' hcached List.mem_cons_self hide⟩

/-- A process that has got a buffer changes it. -/
theorem follows_own {v : Buf} {t : Thread} (hinv : s.Inv queue) (ha : Served s queue queue a)
    (huse : s.mayUse p b) (hinv' : ((s.setBuf b v).setThread p t).Inv queue)
    (hcached : s.Cached → ((s.setBuf b v).setThread p t).Cached)
    (hshows : ∀ σ, s.Coherent queue σ → ∃ σ', accepts Store.accept seen σ = some σ' ∧
      ((s.setBuf b v).setThread p t).Shows σ') :
    Follows s queue a ((s.setBuf b v).setThread p t) seen := by
  refine ⟨queue, hinv', ha, fun σ hcoh _ => ?_⟩
  obtain ⟨σ', hseen, hshows'⟩ := hshows σ hcoh
  refine ⟨σ', hseen, hcached hcoh.cached, hcoh.active.congr (fun c hc => ?_) rfl, hshows'⟩
  have hbq := ((hinv.thread p).valid b huse.2 (by simp [huse.1, Pc.target])).2
  rw [Sys.setThread, Sys.setBuf_ne (ne_of_mem_of_not_mem hc hbq)]
  exact ⟨rfl, rfl, rfl⟩

/-- `brelse` -/
theorem follows_brelse (hinv : s.Inv queue) (huse : s.mayUse p b)
    (hun : b ∉ (s.threads p).unsaved) (h : brelse p b s = .goes s' seen) :
    Follows s queue (.brelse p b) s' seen := by
  unfold brelse at h
  split_ifs at h
  cases h
  -- nobody sleeps on the buffer any more when it is no longer in use
  let s₁ : Sys := { s.wakeup b with
    links := (s.links.unlink (some b)).pushFront none (some b) }
  have hself : (s.threads p).wakeup b = s.threads p := by
    unfold Thread.wakeup
    rw [huse.1]
  have hinv₁ : s₁.Inv queue := { hinv.wakeup b with }
  have huse₁ : s₁.mayUse p b := by
    change ((s.threads p).wakeup b).pc = .caller ∧ b ∈ ((s.threads p).wakeup b).held
    rw [hself]
    exact huse
  have hun₁ : b ∉ (s₁.threads p).unsaved := by
    change b ∉ ((s.threads p).wakeup b).unsaved
    rw [hself]
    exact hun
  have hcoh₁ : ∀ {σ}, s.Coherent queue σ → s₁.Coherent queue σ := by
    intro σ hcoh
    have hwake := hcoh.wakeup b
    exact ⟨{ hwake.cached with }, hwake.active, { hwake.shows with }⟩
  have hfollows₁ : Follows s₁ queue (.brelse p b)
      ((s₁.setBuf b { s₁.buf b with busy := false }).setThread p
        { s₁.threads p with held := (s₁.threads p).held.erase b })
      [.unlock p (s.buf b).key] := by
    refine follows_own hinv₁ rfl huse₁
      (hinv₁.unlock huse₁ hun₁ fun q => (Thread.pc_wakeup b (s.threads q)).1)
      (fun hcached => hcached.unlock (by rw [huse₁.1]; rfl) rfl) fun σ hcoh => ?_
    refine ⟨_, ?_, hcoh.shows.unlock hinv₁ hcoh.cached huse₁.2 rfl⟩
    rw [accepts_singleton]
    exact if_pos (hcoh.shows.owner_eq huse₁.2)
  obtain ⟨queue', hinv', hserved, hfollows⟩ := hfollows₁
  exact ⟨queue', hinv', hserved, fun σ hcoh => hfollows σ (hcoh₁ hcoh)⟩

/-- **One action.** It is still known who holds the buffers and who waits for them; and if the
disk works and the cache was the store before, the store follows.

**Proof sketch.** One case for each action. A process that only goes on at another place changes
nothing that anyone else relies on (`follows_goto`); what a process does to a buffer that it holds
concerns no other process, since there is only one holder (`follows_own`); `bget` takes a buffer
that nobody holds (`follows_lock`); a request goes to the end of the queue (`follows_iderw`), and
an interrupt takes the first one from it and wakes its process (`follows_ideintr`). -/
theorem follows_step {l : List (Fin NBUF)} (hl : Lists s.links l) (hall : ∀ b, b ∈ l)
    (hinv : s.Inv queue) (h : step a s = .goes s' seen) : Follows s queue a s' seen := by
  cases a with
  | bread p dev blockno =>
    simp only [step] at h
    split_ifs at h with hpc
    cases h
    have hnotarget : ∀ c, (s.threads p).pc.target ≠ some c := by simp [hpc, Pc.target]
    refine follows_goto hinv rfl trivial (fun c hc => absurd hc (hnotarget c))
      (fun c hc => by cases hc) (fun c _ hc => absurd hc (hnotarget c)) (fun dev' hdev => ?_)
      fun _ _ => rfl
    obtain rfl := Option.some.inj hdev
    exact .inr id
  | store p b data =>
    simp only [step] at h
    split_ifs at h with huse
    cases h
    have hbusy := (hinv.busy b).mpr ⟨p, huse.2⟩
    have hvalid := ((hinv.thread p).valid b huse.2 (by simp [huse.1, Pc.target])).1
    refine follows_own hinv rfl huse
      (hinv.own huse hbusy hvalid rfl rfl rfl (.inl huse.1) fun c hc => Finset.mem_insert.mp hc)
      (fun hcached => hcached.own hinv huse rfl (by rw [huse.1]; rfl)
        (fun c hc => .inr (Finset.mem_insert_of_mem hc)) fun _ => Finset.mem_insert_self ..)
      fun σ hcoh => ⟨_, ?_, hcoh.shows.store hinv hcoh.cached huse data rfl⟩
    rw [accepts_singleton]
    exact if_pos (hcoh.shows.owner_eq huse.2)
  | logWrite p b =>
    simp only [step] at h
    split_ifs at h with huse
    cases h
    have hbusy := (hinv.busy b).mpr ⟨p, huse.2⟩
    have hvalid := ((hinv.thread p).valid b huse.2 (by simp [huse.1, Pc.target])).1
    refine follows_own hinv rfl huse
      (hinv.own huse hbusy hvalid rfl rfl rfl (.inl huse.1) fun c hc =>
        .inr (Finset.mem_of_mem_erase hc))
      (fun hcached => hcached.own hinv huse rfl (by rw [huse.1]; rfl) (fun c hc => ?_)
        fun hsync => ?_) fun σ hcoh => ⟨σ, rfl, hcoh.shows.own rfl rfl rfl rfl⟩
    · exact or_iff_not_imp_left.mpr fun hcb => Finset.mem_erase.mpr ⟨hcb, hc⟩
    · simp [Buf.synced] at hsync
  | bwrite p b =>
    simp only [step] at h
    split_ifs at h with huse
    cases h
    have hbusy := (hinv.busy b).mpr ⟨p, huse.2⟩
    have hvalid := ((hinv.thread p).valid b huse.2 (by simp [huse.1, Pc.target])).1
    refine follows_own hinv rfl huse
      (hinv.own huse hbusy hvalid rfl rfl rfl (.inr ⟨rfl, rfl, Finset.notMem_erase _ _⟩)
        fun c hc => .inr (Finset.mem_of_mem_erase hc))
      (fun hcached => hcached.own hinv huse rfl rfl (fun c hc => ?_) fun hsync => ?_)
      fun σ hcoh => ⟨σ, rfl, hcoh.shows.own rfl rfl rfl rfl⟩
    · exact or_iff_not_imp_left.mpr fun hcb => Finset.mem_erase.mpr ⟨hcb, hc⟩
    · simp [Buf.synced] at hsync
  | brelse p b =>
    simp only [step] at h
    split_ifs at h with huse
    exact follows_brelse hinv huse.1 huse.2 h
  | run p =>
    simp only [step] at h
    split at h
    · next hpc => exact follows_bget hl hall hinv hpc h
    · next b hpc =>
      have hok := (hinv.thread p).pc
      rw [hpc] at hok
      have htarget : (s.threads p).pc.target = some b := by rw [hpc]; rfl
      split_ifs at h with hvalid
      · cases h
        refine follows_goto hinv (.inl rfl) ⟨hok.1, hok.2, hvalid, ?_⟩
          (fun c hc => .inl (by rw [← hc, htarget]; rfl)) (fun c hc => by rw [← hc, htarget]; rfl)
          (fun c hc hct => ?_) (fun dev hdev => by cases hdev) fun _ _ => rfl
        · cases hdirty : (s.buf b).dirty with
          | false => rfl
          | true =>
            rw [hinv.dirty b hdirty] at hvalid
            cases hvalid
        · obtain rfl : b = c := Option.some.inj (htarget.symm.trans hct)
          exact absurd hc hok.2
      · exact follows_leave hinv htarget (by simpa using hvalid) hok.2 h
    · next hpc => exact follows_iderw hinv hpc h
    · next hpc => exact follows_iderwTest hinv hpc h
    · cases h
  | wake p =>
    simp only [step] at h
    split at h
    · next b dev blockno hpc =>
      cases h
      have hnotarget : ∀ c, (s.threads p).pc.target ≠ some c := by simp [hpc, Pc.target]
      refine follows_goto hinv rfl trivial (fun c hc => absurd hc (hnotarget c))
        (fun c hc => by cases hc) (fun c _ hc => absurd hc (hnotarget c)) (fun dev' hdev => ?_)
        fun _ _ => rfl
      exact .inl (by rw [← hdev, hpc]; rfl)
    · next b reading hpc =>
      cases h
      have hok := (hinv.thread p).pc
      rw [hpc] at hok
      have htarget : (s.threads p).pc.target = some b := by rw [hpc]; rfl
      refine follows_goto hinv rfl ⟨hok.1, .inl hok.2⟩
        (fun c hc => .inl (by rw [← hc, htarget]; rfl)) (fun c hc => by rw [← hc, htarget]; rfl)
        (fun c _ hct => ?_) (fun dev hdev => by cases hdev) fun _ _ => rfl
      obtain rfl : b = c := Option.some.inj (htarget.symm.trans hct)
      exact ⟨reading, .inr rfl⟩
    · cases h
  | disk =>
    cases h
    have hcontents : s.ide.idewait.contents = s.ide.contents := Ide.contents_idewait s.ide
    refine ⟨queue, { hinv with }, rfl, fun σ hcoh _ => ⟨σ, rfl, ?_, ?_, ?_⟩⟩
    · exact hcoh.cached.congr (fun _ => ⟨rfl, rfl, rfl⟩) (fun _ => id) hcontents (fun _ => rfl)
        hcoh.cached.asks
    · exact hcoh.active.congr (fun _ _ => ⟨rfl, rfl, rfl⟩) (Ide.idewait_idewait s.ide)
    · exact hcoh.shows.congr (fun _ => ⟨rfl, rfl, rfl⟩) hcontents fun _ => rfl
  | ideintr err => exact follows_ideintr hinv h

/-! ## Schedules -/

/-- The buffers after `binit`. -/
theorem binit_buf (b : Fin NBUF) : binit.1 b = ⟨false, false, false, -1, 0, none, fun _ => 0⟩ := by
  have hfold : ∀ (l : List (Fin NBUF)) (bufs : Fin NBUF → Buf) (L : Links Node),
      (l.foldl binitStep (bufs, L)).1 b = if b ∈ l then { bufs b with dev := -1 } else bufs b := by
    intro l
    induction l with
    | nil => exact fun bufs L => rfl
    | cons c l ih =>
      intro bufs L
      rw [List.foldl_cons, binitStep, ih]
      by_cases hb : b = c
      · subst hb
        simp only [Function.update_self, List.mem_cons_self, if_true]
        split_ifs <;> rfl
      · simp only [Function.update_of_ne hb, List.mem_cons, hb, false_or]
  rw [binit, hfold, if_pos (List.mem_finRange b)]

/-- What holds of the system in any case, for the list `l` of its buffers and the queue of its
requests. -/
structure Sys.Sound (s : Sys) (l queue : List (Fin NBUF)) : Prop where
  lists : Lists s.links l
  all : ∀ b, b ∈ l
  inv : s.Inv queue

variable {havedisk1 : Bool} {fetched : Data} {media : ℕ → ℕ → Data}

/-- The store of the disks, before anyone has a block. -/
def Store.boot (media : ℕ → ℕ → Data) : Store where
  content := fun k => media k.1.toNat k.2.toNat
  owner := fun _ => none

/-- The start of the system. -/
theorem sound_boot :
    (Sys.boot havedisk1 fetched media).Sound (List.finRange NBUF).reverse [] := by
  have hbuf : ∀ b, (Sys.boot havedisk1 fetched media).buf b =
      ⟨false, false, false, -1, 0, none, fun _ => 0⟩ := binit_buf
  refine ⟨binit_circle, fun b => List.mem_reverse.mpr (List.mem_finRange b), rfl,
    List.nodup_nil, fun p => ⟨trivial, ?_, ?_⟩, ?_, fun b => ?_, ?_, fun b hb => ?_⟩
  · intro b hb
    cases Finset.notMem_empty b hb
  · intro b hb
    cases Finset.notMem_empty b hb
  · intro b hb
    cases hb
  · rw [hbuf]
    refine ⟨fun h => (by cases h), ?_⟩
    rintro ⟨p, hp⟩
    cases Finset.notMem_empty b hp
  · intro p q b hb
    cases Finset.notMem_empty b hb
  · rw [hbuf] at hb
    cases hb

/-- At the start no block is cached, and the store is what is on the disks. -/
theorem coherent_boot : (Sys.boot havedisk1 fetched media).Coherent [] (Store.boot media) := by
  have hbuf : ∀ b, (Sys.boot havedisk1 fetched media).buf b =
      ⟨false, false, false, -1, 0, none, fun _ => 0⟩ := binit_buf
  refine ⟨⟨fun p dev hdev => ?_, fun b c hb => ?_, fun b hb => ?_, fun b hb => ?_⟩, ?_,
    fun b hb => ?_, fun k _ => rfl, fun k p => ?_⟩
  · cases hdev
  · rw [hbuf] at hb
    exact absurd hb (by decide)
  · rw [hbuf] at hb
    simp at hb
  · rw [hbuf] at hb
    cases hb
  · intro b hb
    cases hb
  · rw [hbuf] at hb
    cases hb
  · refine ⟨fun h => (by cases h), ?_⟩
    rintro ⟨b, hb, -⟩
    cases Finset.notMem_empty b hb

/-- What holds of the system still holds behind an action, and the store follows it. -/
theorem Sys.Sound.step {l : List (Fin NBUF)} (h : s.Sound l queue)
    (hstep : step a s = .goes s' seen) : ∃ queue', s'.Sound (moved l a) queue' ∧
      Served s queue queue' a ∧ ∀ σ, s.Coherent queue σ → a.Ok →
        ∃ σ', accepts Store.accept seen σ = some σ' ∧ s'.Coherent queue' σ' := by
  obtain ⟨queue', hinv, hserved, hfollows⟩ := follows_step h.lists h.all h.inv hstep
  exact ⟨queue', ⟨circle_step h.lists h.all hstep, mem_moved h.all a, hinv⟩, hserved, hfollows⟩

/-- Every action keeps what holds of the system. -/
theorem sound_preserved :
    Preserves step (fun _ => True) fun s => ∃ l queue, s.Sound l queue := by
  rintro a s s' seen - ⟨l, queue, h⟩ hstep
  obtain ⟨queue', hsound, -⟩ := h.step hstep
  exact ⟨_, queue', hsound⟩

/-- What holds of the system after any schedule. -/
theorem sound_run (h : Reaction.run Bio.step acts (Sys.boot havedisk1 fetched media) =
    .goes s seen) : ∃ l queue, s.Sound l queue :=
  sound_preserved.run (fun _ _ => trivial) ⟨_, _, sound_boot⟩ h

/-- The store follows the buffer cache of a disk that works. -/
theorem simulates : Simulates step Act.Ok Store.accept fun s σ =>
    ∃ l queue, s.Sound l queue ∧ s.Coherent queue σ := by
  rintro a s s' seen σ ha ⟨l, queue, hsound, hcoh⟩ hstep
  obtain ⟨queue', hsound', -, hfollows⟩ := hsound.step hstep
  obtain ⟨σ', hseen, hcoh'⟩ := hfollows σ hcoh ha
  exact ⟨σ', hseen, _, _, hsound', hcoh'⟩

/-- **Coherence.** Whatever the processes, the controller and its interrupts do and in whatever
order, what the processes have seen is what a store of blocks shows them that starts with the
bytes on the disks; and the buffers and the disks together still are that store.

So a block is got by one process at a time, and a `bread` returns the bytes that were last written
to the block, by whatever process, and whether the buffer with them is still there or has been
recycled in the meantime.

**Proof sketch.** The relation between the system and the store is `Sys.Coherent`: the valid
buffers and, for the blocks without one, the disks show the content of the store, where a command
that the controller has not yet carried out counts as done (`Ide.contents`). `follows_step` is the
simulation for one action, and `Simulates.run` extends it to a schedule. -/
theorem coherent (hok : ∀ a ∈ acts, a.Ok)
    (h : Reaction.run Bio.step acts (Sys.boot havedisk1 fetched media) = .goes s seen) :
    ∃ σ, accepts Store.accept seen (Store.boot media) = some σ ∧ s.Shows σ := by
  obtain ⟨σ, hseen, l, queue, -, hcoh⟩ := simulates.run hok ⟨_, _, sound_boot, coherent_boot⟩ h
  exact ⟨σ, hseen, hcoh.shows⟩

/-- Two processes and a block: the second one reads what the first one has written. -/
theorem coherent_two : ∃ s seen, Reaction.run Bio.step
      [.bread 0 1 5, .run 0, .run 0, .run 0, .ideintr false, .run 0, .store 0 0 fun _ => 7,
        .logWrite 0 0, .bread 1 1 5, .run 1, .brelse 0 0, .run 1, .run 1]
      (Sys.boot true (fun _ => 0) fun _ _ _ => 0) = .goes s seen ∧ seen.length = 6 ∧
    ∃ σ, accepts Store.accept seen (Store.boot fun _ _ _ => 0) = some σ ∧ s.Shows σ := by
  obtain ⟨s, seen, h, hlen⟩ := Reaction.exists_of_ends (r := Reaction.run Bio.step
      [.bread 0 1 5, .run 0, .run 0, .run 0, .ideintr false, .run 0, .store 0 0 fun _ => 7,
        .logWrite 0 0, .bread 1 1 5, .run 1, .brelse 0 0, .run 1, .run 1]
      (Sys.boot true (fun _ => 0) fun _ _ _ => 0)) (P := fun _ seen => seen.length = 6)
    (by decide +kernel)
  exact ⟨s, seen, h, of_decide_eq_true hlen, coherent (by simp [Act.Ok]) h⟩

end HgXv6.Bio
