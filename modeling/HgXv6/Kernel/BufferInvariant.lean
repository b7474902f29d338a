import HgXv6.Kernel.BufferList

set_option relaxedAutoImplicit false
set_option autoImplicit false

/-!
# The invariant of the buffer cache

What holds of the buffers, the queue of requests and the processes between any two actions. The
invariant has two layers. The first one says which process holds a buffer, which ones wait for it
and what for; every action keeps it, also one of a disk that reports errors. The second one says
that no block is in two buffers, and that a buffer which is neither dirty nor about to be changed
is as the disk; it is about the disks 0 and 1, and lost when a read fails. Each kind of change that
the actions make keeps both.

## Main definitions

* `HgXv6.Bio.Ide.contents` — what is on the disks when the controller is ready.
* `HgXv6.Bio.Thread.Ok`, `HgXv6.Bio.Sys.Inv` — who holds what and who waits for what.
* `HgXv6.Bio.Sys.Cached` — what is in the buffers.
* `HgXv6.Bio.Sys.Active` — the controller works on the first request.

## Main results

* `HgXv6.Bio.idestart_dirty`, `HgXv6.Bio.idestart_clean` — what a command does.
* `HgXv6.Bio.Sys.Inv.goto`, `HgXv6.Bio.Sys.Inv.own`, `HgXv6.Bio.Sys.Inv.lock`,
  `HgXv6.Bio.Sys.Inv.unlock`, `HgXv6.Bio.Sys.Inv.wakeup`, `HgXv6.Bio.Sys.Inv.request`,
  `HgXv6.Bio.Sys.Inv.complete` — the changes, for who holds what.
* `HgXv6.Bio.Sys.Cached.congr`, `HgXv6.Bio.Sys.Cached.own`, `HgXv6.Bio.Sys.Cached.lock`,
  `HgXv6.Bio.Sys.Cached.start`, `HgXv6.Bio.Sys.Cached.complete` — and for what is in the buffers.
-/

namespace HgXv6.Bio

open Prog
open Mkfs (FSSIZE)

variable {s s' : Sys} {p q : ℕ} {b c : Fin NBUF} {a : Act} {acts : List Act} {seen : List Event}
  {queue : List (Fin NBUF)} {reading : Bool} {k : UInt32 × UInt32}

/-! ## The controller -/

theorem Ide.idewait_of_none {d : Ide} (h : d.pending = none) : d.idewait = d := by
  unfold Ide.idewait
  rw [h]

/-- Behind `idewait` there is no command left. -/
@[simp] theorem Ide.pending_idewait (d : Ide) : d.idewait.pending = none := by
  unfold Ide.idewait
  split
  · next h => exact h
  · split <;> rfl

@[simp] theorem Ide.idewait_idewait (d : Ide) : d.idewait.idewait = d.idewait :=
  Ide.idewait_of_none d.pending_idewait

/-- A block has one sector. -/
theorem block_sector (n : UInt32) : n * UInt32.ofNat (BSIZE / SECTOR_SIZE) = n := by
  have hone : (UInt32.ofNat (BSIZE / SECTOR_SIZE)).toNat = 1 := by decide
  rw [← UInt32.toNat_inj, UInt32.toNat_mul, hone, Nat.mul_one]
  exact Nat.mod_eq_of_lt n.toNat_lt

/-- The highest bits of a block number are not used. -/
theorem block_high {n : UInt32} (hn : n.toNat < FSSIZE) : n >>> 24 = 0 := by
  have hn : n.toNat < 1000 := hn
  rw [← UInt32.toNat_inj, UInt32.toNat_shiftRight, Nat.shiftRight_eq_div_pow]
  change n.toNat / 2 ^ 24 = 0
  exact Nat.div_eq_of_lt (by omega)

/-- The two disks. -/
theorem dev_cases {dev : UInt32} (hdev : dev < 2) : dev = 0 ∨ dev = 1 := by
  rw [UInt32.lt_iff_toNat_lt] at hdev
  rw [← UInt32.toNat_inj, ← UInt32.toNat_inj]
  change dev.toNat < 2 at hdev
  change dev.toNat = 0 ∨ dev.toNat = 1
  omega

/-- The ports say which disk it is. -/
theorem command_disk {v : Buf} (hdev : v.dev < 2) (hn : v.blockno.toNat < FSSIZE) :
    (command v).disk = v.dev.toNat := by
  unfold Command.disk command
  simp only [block_sector, block_high hn]
  rcases dev_cases hdev with h | h
  · rw [h]
    rfl
  · rw [h]
    rfl

/-- The ports say which sector it is. -/
theorem command_sector {v : Buf} (hdev : v.dev < 2) (hn : v.blockno.toNat < FSSIZE) :
    (command v).sector = v.blockno.toNat := by
  have hdrive : ((0xe0 : UInt8) ||| ((v.dev &&& 1) <<< 4).toUInt8 |||
      ((0 : UInt32) &&& 0x0f).toUInt8) &&& 0x0f = 0 := by
    rcases dev_cases hdev with h | h
    · rw [h]
      rfl
    · rw [h]
      rfl
  have hbyte : ∀ n : UInt32, (n &&& 0xff).toUInt8.toNat = n.toNat % 256 := by
    intro n
    rw [UInt32.toNat_toUInt8, UInt32.toNat_and]
    change (n.toNat &&& (2 ^ 8 - 1)) % 2 ^ 8 = _
    rw [Nat.and_two_pow_sub_one_eq_mod, Nat.mod_mod]
  have h8 : (v.blockno >>> 8).toNat = v.blockno.toNat / 2 ^ 8 := by
    rw [UInt32.toNat_shiftRight, Nat.shiftRight_eq_div_pow]
    rfl
  have h16 : (v.blockno >>> 16).toNat = v.blockno.toNat / 2 ^ 16 := by
    rw [UInt32.toNat_shiftRight, Nat.shiftRight_eq_div_pow]
    rfl
  have hn : v.blockno.toNat < 1000 := hn
  unfold Command.sector command
  simp only [block_sector, block_high hn, hdrive, hbyte, h8, h16, UInt8.toNat_zero]
  omega

/-- What the disks have on them when the controller is ready. -/
def Ide.contents (d : Ide) (k : UInt32 × UInt32) : Data := d.idewait.media k.1.toNat k.2.toNat

@[simp] theorem Ide.contents_idewait (d : Ide) : d.idewait.contents = d.contents := by
  unfold Ide.contents
  rw [Ide.idewait_idewait]

/-- A dirty buffer is written.

**Proof sketch.** The command names the disk and the sector of the block, as there are two disks and
the block number fits in 28 bits. The bytes written are those of the buffer, and no other sector of
any disk changes. -/
theorem idestart_dirty {v : Buf} {d d' : Ide} (h : idestart v d = .ok d') (hdev : v.dev < 2)
    (hdirty : v.dirty = true) : d'.contents = Function.update d.contents v.key v.data := by
  unfold idestart at h
  split_ifs at h with hsize
  obtain rfl := Except.ok.inj h
  have hn : v.blockno.toNat < FSSIZE := Nat.lt_of_not_le hsize
  have hbytes : (command v).bytes = some v.data := if_pos hdirty
  funext k
  unfold Ide.contents
  rw [Ide.idewait]
  simp only [hbytes, command_disk hdev hn, command_sector hdev hn]
  by_cases hk : k = v.key
  · subst hk
    rw [Function.update_self]
    simp only [Buf.key, Function.update_self]
  · rw [Function.update_of_ne hk]
    by_cases hdisk : k.1.toNat = v.dev.toNat
    · have hsector : k.2.toNat ≠ v.blockno.toNat := fun heq =>
        hk (Prod.ext (UInt32.toNat_inj.mp hdisk) (UInt32.toNat_inj.mp heq))
      rw [hdisk, Function.update_self, Function.update_of_ne hsector]
    · rw [Function.update_of_ne hdisk]

/-- For a buffer that is not dirty, its block is read. -/
theorem idestart_clean {v : Buf} {d d' : Ide} (h : idestart v d = .ok d') (hdev : v.dev < 2)
    (hdirty : v.dirty = false) :
    d'.contents = d.contents ∧ d'.idewait.fetched = d.contents v.key := by
  unfold idestart at h
  split_ifs at h with hsize
  obtain rfl := Except.ok.inj h
  have hn : v.blockno.toNat < FSSIZE := Nat.lt_of_not_le hsize
  have hbytes : (command v).bytes = none := if_neg (by simp [hdirty])
  unfold Ide.contents
  rw [Ide.idewait]
  simp only [hbytes, command_disk hdev hn, command_sector hdev hn, Buf.key, and_self]

/-! ## Changes to the state -/

namespace Sys

@[simp] theorem setThread_self (s : Sys) (p : ℕ) (t : Thread) : (s.setThread p t).threads p = t :=
  Function.update_self ..

theorem setThread_ne {t : Thread} (h : q ≠ p) : (s.setThread p t).threads q = s.threads q :=
  Function.update_of_ne h ..

@[simp] theorem setBuf_self (s : Sys) (b : Fin NBUF) (v : Buf) : (s.setBuf b v).buf b = v :=
  Function.update_self ..

theorem setBuf_ne {v : Buf} (h : c ≠ b) : (s.setBuf b v).buf c = s.buf c :=
  Function.update_of_ne h ..

/-- What no thread is changed in. -/
theorem held_goto (s : Sys) (p : ℕ) (pc : Pc) (q : ℕ) :
    ((s.goto p pc).threads q).held = (s.threads q).held := by
  by_cases hq : q = p
  · rw [hq, goto, setThread_self]
  · rw [goto, setThread_ne hq]

theorem unsaved_goto (s : Sys) (p : ℕ) (pc : Pc) (q : ℕ) :
    ((s.goto p pc).threads q).unsaved = (s.threads q).unsaved := by
  by_cases hq : q = p
  · rw [hq, goto, setThread_self]
  · rw [goto, setThread_ne hq]

@[simp] theorem held_wakeup (b : Fin NBUF) (t : Thread) : (t.wakeup b).held = t.held := by
  unfold Thread.wakeup
  split
  · split_ifs <;> rfl
  · split_ifs <;> rfl
  · rfl

@[simp] theorem unsaved_wakeup (b : Fin NBUF) (t : Thread) :
    (t.wakeup b).unsaved = t.unsaved := by
  unfold Thread.wakeup
  split
  · split_ifs <;> rfl
  · split_ifs <;> rfl
  · rfl

end Sys

/-- Nobody sleeps on a buffer behind its `wakeup`. -/
theorem Thread.pc_wakeup (b : Fin NBUF) (t : Thread) :
    (∀ dev blockno, (t.wakeup b).pc ≠ .bgetSleep b dev blockno) ∧
      ∀ reading, (t.wakeup b).pc ≠ .iderwSleep b reading := by
  unfold Thread.wakeup
  split
  · next c dev blockno hpc =>
    split_ifs with hc
    · simp
    · simp [hpc, hc]
  · next c reading hpc =>
    split_ifs with hc
    · simp
    · simp [hpc, hc]
  · next hget hide =>
    exact ⟨fun dev blockno hpc => hget b dev blockno hpc, fun reading hpc => hide b reading hpc⟩

/-! ## The invariant -/

/-- What a request is for: the buffer is to be read, or to be written. -/
def Buf.Wants (reading : Bool) (v : Buf) : Prop := v.valid = !reading ∧ v.dirty = !reading

/-- The buffer whose bytes a process waits for. -/
def Pc.target : Pc → Option (Fin NBUF)
  | .bread b => some b
  | .iderw b _ => some b
  | .iderwSleep b _ => some b
  | .iderwTest b _ => some b
  | _ => none

/-- The disk of the block that a process looks for. -/
def Pc.asks : Pc → Option UInt32
  | .bget dev _ => some dev
  | .bgetSleep _ dev _ => some dev
  | _ => none

/-- A place is in order: what a process that is there relies on. -/
def Pc.Ok (buf : Fin NBUF → Buf) (queue : List (Fin NBUF)) (held : Finset (Fin NBUF)) : Pc → Prop
  | .caller => True
  | .bget _ _ => True
  | .bgetSleep b dev blockno => (buf b).busy = true ∧ (buf b).key = (dev, blockno)
  | .bread b => b ∈ held ∧ b ∉ queue
  | .iderw b reading => b ∈ held ∧ b ∉ queue ∧ (buf b).Wants reading
  | .iderwSleep b reading => b ∈ held ∧ b ∈ queue ∧ (buf b).Wants reading
  | .iderwTest b reading =>
    b ∈ held ∧ (b ∈ queue ∧ (buf b).Wants reading ∨ b ∉ queue ∧ (buf b).synced = true)

/-- A process is in order: the buffers that it holds are valid, but for the one that it waits
for. -/
structure Thread.Ok (buf : Fin NBUF → Buf) (queue : List (Fin NBUF)) (t : Thread) : Prop where
  pc : t.pc.Ok buf queue t.held
  valid : ∀ b ∈ t.held, t.pc.target ≠ some b → (buf b).valid = true ∧ b ∉ queue
  unsaved : ∀ b ∈ t.unsaved, b ∈ t.held ∧ t.pc.target ≠ some b

/-- Who holds the buffers and who waits for them: what always holds of the buffers, the queue of
requests and the processes. -/
structure Sys.Inv (s : Sys) (queue : List (Fin NBUF)) : Prop where
  /-- the list is the one that the links make -/
  queued : Queued (fun b => (s.buf b).qnext) s.idequeue queue
  nodup : queue.Nodup
  thread : ∀ p, (s.threads p).Ok s.buf queue
  /-- a request has a process that waits for it -/
  waiter : ∀ b ∈ queue, ∃ p reading,
    (s.threads p).pc = .iderwSleep b reading ∨ (s.threads p).pc = .iderwTest b reading
  /-- a buffer in use has one process that holds it -/
  busy : ∀ b, (s.buf b).busy = true ↔ ∃ p, b ∈ (s.threads p).held
  holder : ∀ p q b, b ∈ (s.threads p).held → b ∈ (s.threads q).held → p = q
  dirty : ∀ b, (s.buf b).dirty = true → (s.buf b).valid = true

/-- What is in the buffers, as long as the disks are 0 and 1 and no read fails. The buffers that
`binit` has made and nobody has used yet all have the same key, which is of neither disk. -/
structure Sys.Cached (s : Sys) : Prop where
  asks : ∀ p dev, (s.threads p).pc.asks = some dev → dev < 2
  /-- a block is in one buffer -/
  key : ∀ b c, (s.buf b).dev < 2 → (s.buf b).key = (s.buf c).key → b = c
  dev : ∀ b, (s.buf b).valid = true ∨ (s.buf b).busy = true → (s.buf b).dev < 2
  /-- a buffer that nobody changes and that is not dirty is as the disk -/
  clean : ∀ b, (s.buf b).synced = true → (∀ p, b ∉ (s.threads p).unsaved) →
    (s.buf b).data = s.ide.contents (s.buf b).key

/-- The controller works on the first request. -/
def Sys.Active (s : Sys) (queue : List (Fin NBUF)) : Prop :=
  ∀ b, queue.head? = some b →
    ((s.buf b).dirty = true → s.ide.contents (s.buf b).key = (s.buf b).data) ∧
      ((s.buf b).dirty = false → s.ide.idewait.fetched = s.ide.contents (s.buf b).key)

/-- A process whose buffers are left alone stays in order.

**Proof sketch.** By cases on where the process is. Each case speaks of buffers that the process
holds, which `hheld` compares, or of the buffer that it waits for in `bget`. -/
theorem Thread.Ok.congr {buf buf' : Fin NBUF → Buf} {queue' : List (Fin NBUF)} {t : Thread}
    (h : t.Ok buf queue)
    (hheld : ∀ b ∈ t.held, (buf' b).valid = (buf b).valid ∧ (buf' b).dirty = (buf b).dirty ∧
      (b ∈ queue' ↔ b ∈ queue))
    (hsleep : ∀ b dev blockno, t.pc = .bgetSleep b dev blockno →
      (buf' b).busy = (buf b).busy ∧ (buf' b).key = (buf b).key) : t.Ok buf' queue' := by
  refine ⟨?_, ?_, h.unsaved⟩
  · have hpc := h.pc
    cases hcase : t.pc with
    | caller => trivial
    | bget dev blockno => trivial
    | bgetSleep b dev blockno =>
      rw [hcase] at hpc
      obtain ⟨hbusy, hkey⟩ := hsleep b dev blockno hcase
      exact ⟨hbusy.trans hpc.1, hkey.trans hpc.2⟩
    | bread b =>
      rw [hcase] at hpc
      exact ⟨hpc.1, fun hmem => hpc.2 ((hheld b hpc.1).2.2.mp hmem)⟩
    | iderw b reading =>
      rw [hcase] at hpc
      obtain ⟨hvalid, hdirty, hqueue⟩ := hheld b hpc.1
      exact ⟨hpc.1, fun hmem => hpc.2.1 (hqueue.mp hmem), hvalid.trans hpc.2.2.1,
        hdirty.trans hpc.2.2.2⟩
    | iderwSleep b reading =>
      rw [hcase] at hpc
      obtain ⟨hvalid, hdirty, hqueue⟩ := hheld b hpc.1
      exact ⟨hpc.1, hqueue.mpr hpc.2.1, hvalid.trans hpc.2.2.1, hdirty.trans hpc.2.2.2⟩
    | iderwTest b reading =>
      rw [hcase] at hpc
      obtain ⟨hvalid, hdirty, hqueue⟩ := hheld b hpc.1
      refine ⟨hpc.1, hpc.2.imp (fun hin => ?_) (fun hout => ?_)⟩
      · exact ⟨hqueue.mpr hin.1, hvalid.trans hin.2.1, hdirty.trans hin.2.2⟩
      · refine ⟨fun hmem => hout.1 (hqueue.mp hmem), ?_⟩
        unfold Buf.synced at hout ⊢
        rw [hvalid, hdirty]
        exact hout.2
  · intro b hb htarget
    obtain ⟨hvalid, -, hqueue⟩ := hheld b hb
    obtain ⟨hv, hq⟩ := h.valid b hb htarget
    exact ⟨hvalid.trans hv, fun hmem => hq (hqueue.mp hmem)⟩

/-- What a process waits for, it holds. -/
theorem Thread.Ok.target_held {buf : Fin NBUF → Buf} {t : Thread} (h : t.Ok buf queue)
    (htarget : t.pc.target = some b) : b ∈ t.held := by
  have hpc := h.pc
  cases hcase : t.pc with
  | caller => simp [hcase, Pc.target] at htarget
  | bget dev blockno => simp [hcase, Pc.target] at htarget
  | bgetSleep c dev blockno => simp [hcase, Pc.target] at htarget
  | bread c | iderw c reading | iderwSleep c reading | iderwTest c reading =>
    rw [hcase] at hpc htarget
    obtain rfl := Option.some.inj htarget
    exact hpc.1

/-- A process that is woken stays in order. -/
theorem Thread.Ok.wakeup {buf : Fin NBUF → Buf} {t : Thread} (h : t.Ok buf queue)
    (b : Fin NBUF) : (t.wakeup b).Ok buf queue := by
  have hpc := h.pc
  unfold Thread.wakeup
  split
  · next c dev blockno hcase =>
    split_ifs
    · exact ⟨trivial, fun d hd _ => h.valid d hd (by simp [hcase, Pc.target]),
        fun d hd => ⟨(h.unsaved d hd).1, by simp [Pc.target]⟩⟩
    · exact h
  · next c reading hcase =>
    rw [hcase] at hpc
    have htarget : ∀ d, t.pc.target = some d ↔ c = d := by simp [hcase, Pc.target]
    split_ifs
    · refine ⟨⟨hpc.1, .inl hpc.2⟩, fun d hd hne => ?_, fun d hd => ?_⟩
      · exact h.valid d hd fun heq => hne (congrArg some ((htarget d).mp heq))
      · exact ⟨(h.unsaved d hd).1, fun heq =>
          (h.unsaved d hd).2 ((htarget d).mpr (Option.some.inj heq))⟩
    · exact h
  · exact h

namespace Sys.Inv

/-- A buffer in the queue is in use. -/
theorem waiter_held (h : s.Inv queue) (hb : b ∈ queue) :
    ∃ p, b ∈ (s.threads p).held ∧ (s.threads p).pc.target = some b := by
  obtain ⟨p, reading, hpc | hpc⟩ := h.waiter b hb
  · have htarget : (s.threads p).pc.target = some b := by rw [hpc]; rfl
    exact ⟨p, (h.thread p).target_held htarget, htarget⟩
  · have htarget : (s.threads p).pc.target = some b := by rw [hpc]; rfl
    exact ⟨p, (h.thread p).target_held htarget, htarget⟩

/-- Nobody holds a buffer that is not in use. -/
theorem not_held (h : s.Inv queue) (hb : (s.buf b).busy = false) (p : ℕ) :
    b ∉ (s.threads p).held := by
  intro hmem
  rw [(h.busy b).mpr ⟨p, hmem⟩] at hb
  cases hb

/-- A buffer that is not in use is not in the queue. -/
theorem not_mem_queue (h : s.Inv queue) (hb : (s.buf b).busy = false) : b ∉ queue := by
  intro hmem
  obtain ⟨p, hheld, -⟩ := h.waiter_held hmem
  exact h.not_held hb p hheld

/-- A process goes on at another place.

**Proof sketch.** Only the place of `p` has changed. For `p` itself the new place is admissible by
assumption, and so is what it holds; for all other processes nothing has changed. A buffer in the
queue for which `p` waited is waited for at the new place too. -/
theorem goto {pc : Pc} (h : s.Inv queue) (hpc : pc.Ok s.buf queue (s.threads p).held)
    (hvalid : ∀ b, (s.threads p).pc.target = some b → pc.target = some b ∨
      (s.buf b).valid = true ∧ b ∉ queue)
    (hunsaved : ∀ b, pc.target = some b → b ∉ (s.threads p).unsaved)
    (hwait : ∀ b ∈ queue, (s.threads p).pc.target = some b →
      ∃ reading, pc = .iderwSleep b reading ∨ pc = .iderwTest b reading) :
    (s.goto p pc).Inv queue := by
  refine { h with thread := ?_, waiter := ?_, busy := ?_, holder := ?_ }
  · intro q
    by_cases hq : q = p
    · subst hq
      rw [Sys.goto, Sys.setThread_self]
      refine ⟨hpc, fun b hb htarget => ?_, fun b hb => ?_⟩
      · by_cases hold : (s.threads q).pc.target = some b
        · exact (hvalid b hold).resolve_left htarget
        · exact (h.thread q).valid b hb hold
      · exact ⟨((h.thread q).unsaved b hb).1, fun htarget => hunsaved b htarget hb⟩
    · rw [Sys.goto, Sys.setThread_ne hq]
      exact h.thread q
  · intro b hb
    obtain ⟨q, reading, hq⟩ := h.waiter b hb
    by_cases hqp : q = p
    · subst hqp
      obtain ⟨r, hr⟩ := hwait b hb (by rcases hq with hq | hq <;> rw [hq] <;> rfl)
      exact ⟨q, r, by rwa [Sys.goto, Sys.setThread_self]⟩
    · exact ⟨q, reading, by rwa [Sys.goto, Sys.setThread_ne hqp]⟩
  · intro b
    simp only [Sys.held_goto]
    exact h.busy b
  · intro q r b
    rw [Sys.held_goto, Sys.held_goto]
    exact h.holder q r b

/-- A process that has got a buffer changes it.

**Proof sketch.** The buffer is held by `p`, who is not waiting for anything, so it is not in the
queue and nobody else holds it. All fields about other buffers and other processes are therefore as
before, and those about this buffer are the assumptions about its new value. A process that sleeps
in `bget` for it still finds it locked and with its old key. -/
theorem own {v : Buf} {t : Thread} (h : s.Inv queue) (huse : s.mayUse p b) (hbusy : v.busy = true)
    (hvalid : v.valid = true) (hkey : v.key = (s.buf b).key) (hqnext : v.qnext = (s.buf b).qnext)
    (hheld : t.held = (s.threads p).held)
    (hpc : t.pc = .caller ∨ t.pc = .iderw b false ∧ v.dirty = true ∧ b ∉ t.unsaved)
    (hunsaved : ∀ c ∈ t.unsaved, c = b ∨ c ∈ (s.threads p).unsaved) :
    ((s.setBuf b v).setThread p t).Inv queue := by
  obtain ⟨hcaller, hmem⟩ := huse
  have hnotarget : ∀ c, (s.threads p).pc.target ≠ some c := by simp [hcaller, Pc.target]
  have hbq : b ∉ queue := ((h.thread p).valid b hmem (hnotarget b)).2
  have hbusyb : (s.buf b).busy = true := (h.busy b).mpr ⟨p, hmem⟩
  have hkeys : ∀ c, ((s.setBuf b v).buf c).key = (s.buf c).key := by
    intro c
    by_cases hc : c = b
    · rw [hc, Sys.setBuf_self, hkey]
    · rw [Sys.setBuf_ne hc]
  have helds : ∀ q, (((s.setBuf b v).setThread p t).threads q).held = (s.threads q).held := by
    intro q
    by_cases hq : q = p
    · rw [hq, Sys.setThread_self, hheld]
    · rw [Sys.setThread_ne hq]
      rfl
  refine ⟨?_, h.nodup, ?_, ?_, ?_, ?_, ?_⟩
  · refine h.queued.congr fun c hc => ?_
    exact congrArg Buf.qnext (Sys.setBuf_ne (ne_of_mem_of_not_mem hc hbq))
  · intro q
    by_cases hq : q = p
    · subst hq
      rw [Sys.setThread_self]
      refine ⟨?_, fun c hc _ => ?_, fun c hc => ⟨?_, ?_⟩⟩
      · rcases hpc with hpc | ⟨hpc, hdirty, -⟩
        · rw [hpc]
          trivial
        · rw [hpc]
          refine ⟨hheld ▸ hmem, hbq, ?_⟩
          rw [Sys.setThread, Sys.setBuf_self]
          exact ⟨hvalid, hdirty⟩
      · rw [hheld] at hc
        by_cases hcb : c = b
        · rw [hcb, Sys.setThread, Sys.setBuf_self]
          exact ⟨hvalid, hbq⟩
        · rw [Sys.setThread, Sys.setBuf_ne hcb]
          exact (h.thread q).valid c hc (hnotarget c)
      · rw [hheld]
        rcases hunsaved c hc with rfl | hold
        · exact hmem
        · exact ((h.thread q).unsaved c hold).1
      · rcases hpc with hpc | ⟨hpc, -, hnot⟩
        · simp [hpc, Pc.target]
        · rw [hpc]
          intro htarget
          obtain rfl := Option.some.inj htarget
          exact hnot hc
    · rw [Sys.setThread_ne hq]
      refine (h.thread q).congr (fun c hc => ?_) (fun c dev blockno hpc => ?_)
      · have hcb : c ≠ b := fun heq => hq (h.holder q p c hc (heq ▸ hmem))
        rw [Sys.setThread, Sys.setBuf_ne hcb]
        exact ⟨rfl, rfl, Iff.rfl⟩
      · refine ⟨?_, hkeys c⟩
        by_cases hcb : c = b
        · rw [hcb, Sys.setThread, Sys.setBuf_self, hbusy, hbusyb]
        · rw [Sys.setThread, Sys.setBuf_ne hcb]
  · intro c hc
    obtain ⟨q, reading, hq⟩ := h.waiter c hc
    have hqp : q ≠ p := by
      rintro rfl
      rcases hq with hq | hq <;> rw [hcaller] at hq <;> cases hq
    refine ⟨q, reading, ?_⟩
    rw [Sys.setThread_ne hqp]
    exact hq
  · intro c
    simp only [helds]
    by_cases hcb : c = b
    · rw [hcb, Sys.setThread, Sys.setBuf_self]
      exact ⟨fun _ => ⟨p, hmem⟩, fun _ => hbusy⟩
    · rw [Sys.setThread, Sys.setBuf_ne hcb]
      exact h.busy c
  · intro q r c
    rw [helds, helds]
    exact h.holder q r c
  · intro c hc
    by_cases hcb : c = b
    · rw [hcb, Sys.setThread, Sys.setBuf_self]
      exact hvalid
    · rw [Sys.setThread, Sys.setBuf_ne hcb] at hc ⊢
      exact h.dirty c hc

/-- `bget` has got a buffer for a process.

**Proof sketch.** A buffer that is not locked is held by nobody and is not in the queue. So it can
be given to `p`, who was in `bget` and waited for no buffer: the holders of other buffers stay, and
whoever sleeps in `bget` sleeps for a buffer that is locked, which is another one. -/
theorem lock {v : Buf} {dev blockno : UInt32} (h : s.Inv queue)
    (hpc : (s.threads p).pc = .bget dev blockno) (hfree : (s.buf b).busy = false)
    (hbusy : v.busy = true) (hdirty : v.dirty = true → v.valid = true)
    (hqnext : v.qnext = (s.buf b).qnext) :
    ((s.setBuf b v).setThread p
      { s.threads p with
        pc := .bread b, held := Insert.insert b (s.threads p).held }).Inv queue := by
  have hbq := h.not_mem_queue hfree
  have hnone := h.not_held hfree
  have hnotarget : ∀ c, (s.threads p).pc.target ≠ some c := by simp [hpc, Pc.target]
  have hmem : ∀ q c, c ∈ (((s.setBuf b v).setThread p
      { s.threads p with
        pc := .bread b, held := Insert.insert b (s.threads p).held }).threads q).held ↔
        q = p ∧ c = b ∨ c ∈ (s.threads q).held := by
    intro q c
    by_cases hq : q = p
    · rw [hq, Sys.setThread_self, Finset.mem_insert]
      simp
    · rw [Sys.setThread_ne hq]
      simp [hq, Sys.setBuf]
  refine ⟨?_, h.nodup, ?_, ?_, ?_, ?_, ?_⟩
  · refine h.queued.congr fun c hc => ?_
    exact congrArg Buf.qnext (Sys.setBuf_ne (ne_of_mem_of_not_mem hc hbq))
  · intro q
    by_cases hq : q = p
    · subst hq
      rw [Sys.setThread_self]
      refine ⟨⟨Finset.mem_insert_self _ _, hbq⟩, fun c hc htarget => ?_, fun c hc => ⟨?_, ?_⟩⟩
      · have hcb : c ≠ b := fun heq => htarget (by rw [heq]; rfl)
        rw [Sys.setThread, Sys.setBuf_ne hcb]
        exact (h.thread q).valid c (Finset.mem_of_mem_insert_of_ne hc hcb) (hnotarget c)
      · exact Finset.mem_insert_of_mem ((h.thread q).unsaved c hc).1
      · intro htarget
        obtain rfl := Option.some.inj htarget
        exact hnone q ((h.thread q).unsaved b hc).1
    · rw [Sys.setThread_ne hq]
      refine (h.thread q).congr (fun c hc => ?_) (fun c dev blockno hpc => ?_)
      · have hcb : c ≠ b := fun heq => hnone q (heq ▸ hc)
        rw [Sys.setThread, Sys.setBuf_ne hcb]
        exact ⟨rfl, rfl, Iff.rfl⟩
      · have hok := (h.thread q).pc
        rw [show (s.threads q).pc = _ from hpc] at hok
        have hcb : c ≠ b := by
          rintro rfl
          rw [hok.1] at hfree
          cases hfree
        rw [Sys.setThread, Sys.setBuf_ne hcb]
        exact ⟨rfl, rfl⟩
  · intro c hc
    obtain ⟨q, reading, hq⟩ := h.waiter c hc
    have hqp : q ≠ p := by
      rintro rfl
      rcases hq with hq | hq <;> rw [hpc] at hq <;> cases hq
    refine ⟨q, reading, ?_⟩
    rw [Sys.setThread_ne hqp]
    exact hq
  · intro c
    simp only [hmem]
    by_cases hcb : c = b
    · rw [hcb, Sys.setThread, Sys.setBuf_self]
      exact ⟨fun _ => ⟨p, .inl ⟨rfl, rfl⟩⟩, fun _ => hbusy⟩
    · rw [Sys.setThread, Sys.setBuf_ne hcb, h.busy c]
      simp [hcb]
  · intro q r c hq hr
    rw [hmem] at hq hr
    rcases hq with ⟨rfl, rfl⟩ | hq
    · rcases hr with ⟨rfl, -⟩ | hr
      · rfl
      · exact absurd hr (hnone r)
    · rcases hr with ⟨rfl, rfl⟩ | hr
      · exact absurd hq (hnone q)
      · exact h.holder q r c hq hr
  · intro c hc
    rw [Sys.setThread] at hc ⊢
    by_cases hcb : c = b
    · rw [hcb, Sys.setBuf_self] at hc ⊢
      exact hdirty hc
    · rw [Sys.setBuf_ne hcb] at hc ⊢
      exact h.dirty c hc

/-- `wakeup`

**Proof sketch.** `wakeup` moves every process that sleeps on the buffer to the test it sleeps
before, and touches no buffer. A process that was waiting for a request is still waiting for it, at
its test. -/
theorem wakeup (h : s.Inv queue) (b : Fin NBUF) : (s.wakeup b).Inv queue := by
  refine { h with thread := ?_, waiter := ?_, busy := ?_, holder := ?_ }
  · exact fun q => (h.thread q).wakeup b
  · intro c hc
    obtain ⟨q, reading, hq⟩ := h.waiter c hc
    refine ⟨q, reading, ?_⟩
    simp only [Sys.wakeup, Thread.wakeup]
    rcases hq with hq | hq
    · simp only [hq]
      split_ifs
      · exact .inr rfl
      · exact .inl hq
    · simp only [hq]
      exact .inr trivial
  · intro c
    simp only [Sys.wakeup, Sys.held_wakeup]
    exact h.busy c
  · intro q r c
    simp only [Sys.wakeup, Sys.held_wakeup]
    exact h.holder q r c

/-- A process lets go of a buffer on which nobody sleeps.

**Proof sketch.** The buffer leaves the set of buffers held by `p`, and it is not in the queue.
Nobody else held it, so afterwards nobody does, which is what an unlocked buffer needs; and no
process sleeps in `bget` for it, as all of them have been woken. -/
theorem unlock (h : s.Inv queue) (huse : s.mayUse p b) (hun : b ∉ (s.threads p).unsaved)
    (hawake : ∀ q dev blockno, (s.threads q).pc ≠ .bgetSleep b dev blockno) :
    ((s.setBuf b { s.buf b with busy := false }).setThread p
      { s.threads p with held := (s.threads p).held.erase b }).Inv queue := by
  obtain ⟨hcaller, hmem⟩ := huse
  have hnotarget : ∀ c, (s.threads p).pc.target ≠ some c := by simp [hcaller, Pc.target]
  have hbq : b ∉ queue := ((h.thread p).valid b hmem (hnotarget b)).2
  have hbuf : ∀ c, (s.setBuf b { s.buf b with busy := false }).buf c =
      { s.buf c with busy := if c = b then false else (s.buf c).busy } := by
    intro c
    by_cases hc : c = b
    · rw [hc, Sys.setBuf_self, if_pos rfl]
    · rw [Sys.setBuf_ne hc, if_neg hc]
  have hheld : ∀ q c, c ∈ (((s.setBuf b { s.buf b with busy := false }).setThread p
      { s.threads p with held := (s.threads p).held.erase b }).threads q).held ↔
        c ≠ b ∧ c ∈ (s.threads q).held := by
    intro q c
    by_cases hq : q = p
    · rw [hq, Sys.setThread_self, Finset.mem_erase]
    · rw [Sys.setThread_ne hq]
      exact ⟨fun hc => ⟨fun heq => hq (h.holder q p c hc (heq ▸ hmem)), hc⟩, fun hc => hc.2⟩
  refine ⟨?_, h.nodup, ?_, ?_, ?_, ?_, ?_⟩
  · refine h.queued.congr fun c hc => ?_
    exact congrArg Buf.qnext (Sys.setBuf_ne (ne_of_mem_of_not_mem hc hbq))
  · intro q
    by_cases hq : q = p
    · subst hq
      rw [Sys.setThread_self]
      refine ⟨by rw [hcaller]; trivial, fun c hc _ => ?_, fun c hc => ⟨?_, hnotarget c⟩⟩
      · rw [Sys.setThread, hbuf]
        exact (h.thread q).valid c (Finset.mem_of_mem_erase hc) (hnotarget c)
      · exact Finset.mem_erase.mpr
          ⟨fun heq => hun (heq ▸ hc), ((h.thread q).unsaved c hc).1⟩
    · rw [Sys.setThread_ne hq]
      refine (h.thread q).congr (fun c hc => ?_) (fun c dev blockno hpc => ?_)
      · rw [Sys.setThread, hbuf]
        exact ⟨rfl, rfl, Iff.rfl⟩
      · rw [Sys.setThread, hbuf, if_neg]
        · exact ⟨rfl, rfl⟩
        · rintro rfl
          exact hawake q dev blockno hpc
  · intro c hc
    obtain ⟨q, reading, hq⟩ := h.waiter c hc
    have hqp : q ≠ p := by
      rintro rfl
      rcases hq with hq | hq <;> rw [hcaller] at hq <;> cases hq
    refine ⟨q, reading, ?_⟩
    rw [Sys.setThread_ne hqp]
    exact hq
  · intro c
    simp only [hheld]
    rw [Sys.setThread, hbuf]
    by_cases hc : c = b
    · simp [hc]
    · simp only [hc, if_false, ne_eq, not_false_eq_true, true_and]
      exact h.busy c
  · intro q r c hq hr
    rw [hheld] at hq hr
    exact h.holder q r c hq.2 hr.2
  · intro c hc
    rw [Sys.setThread, hbuf] at hc ⊢
    exact h.dirty c hc

/-- The first request is done, and those who wait for it are awake.

**Proof sketch.** The first buffer leaves the queue and is valid and clean. Whoever waits for it is
at the test of `iderw`, where it now finds what it wants; nobody can be about to put it in the
queue, since it was there. All other buffers and all their holders are as before. -/
theorem complete {rest : List (Fin NBUF)} {v : Buf} {d : Ide} (h : s.Inv (b :: rest))
    (hawake : ∀ q, (∀ dev blockno, (s.threads q).pc ≠ .bgetSleep b dev blockno) ∧
      ∀ reading, (s.threads q).pc ≠ .iderwSleep b reading)
    (hv : v = { s.buf b with valid := true, dirty := false, data := v.data }) :
    ({ s with buf := Function.update s.buf b v, idequeue := (s.buf b).qnext, ide := d } :
      Sys).Inv rest := by
  obtain ⟨hbrest, hrest⟩ := List.nodup_cons.mp h.nodup
  have hself : (Function.update s.buf b v) b = v := Function.update_self ..
  have hne : ∀ c, c ≠ b → (Function.update s.buf b v) c = s.buf c := fun c hc =>
    Function.update_of_ne hc ..
  have hbusy : ∀ c, (Function.update s.buf b v c).busy = (s.buf c).busy := by
    intro c
    by_cases hc : c = b
    · rw [hc, hself, hv]
    · rw [hne c hc]
  have hkey : ∀ c, (Function.update s.buf b v c).key = (s.buf c).key := by
    intro c
    by_cases hc : c = b
    · rw [hc, hself, hv]
      rfl
    · rw [hne c hc]
  have hsync : v.synced = true := by
    rw [hv]
    rfl
  refine ⟨?_, hrest, ?_, ?_, ?_, h.holder, ?_⟩
  · refine Queued.congr (queued_cons.mp h.queued).2 fun c hc => ?_
    exact congrArg Buf.qnext (hne c (ne_of_mem_of_not_mem hc hbrest))
  · intro q
    have hok := h.thread q
    by_cases htarget : (s.threads q).pc.target = some b
    · have hpc := hok.pc
      refine ⟨?_, fun c hc hct => ?_, hok.unsaved⟩
      · cases hcase : (s.threads q).pc with
        | iderwTest c reading =>
          rw [hcase] at hpc htarget
          obtain rfl := Option.some.inj htarget
          refine ⟨hpc.1, .inr ⟨hbrest, ?_⟩⟩
          dsimp only
          rw [hself]
          exact hsync
        | iderwSleep c reading =>
          rw [hcase] at htarget
          obtain rfl := Option.some.inj htarget
          exact absurd hcase ((hawake q).2 reading)
        | bread c | iderw c reading =>
          rw [hcase] at hpc htarget
          obtain rfl := Option.some.inj htarget
          first
          | exact absurd List.mem_cons_self hpc.2
          | exact absurd List.mem_cons_self hpc.2.1
        | caller | bget dev blockno | bgetSleep c dev blockno => simp [hcase, Pc.target] at htarget
      · have hcb : c ≠ b := fun heq => hct (heq ▸ htarget)
        obtain ⟨hvalid, hnot⟩ := hok.valid c hc hct
        dsimp only
        rw [hne c hcb]
        exact ⟨hvalid, fun hmem => hnot (List.mem_cons_of_mem b hmem)⟩
    · refine hok.congr (fun c hc => ?_) (fun c dev blockno _ => ⟨hbusy c, hkey c⟩)
      have hcb : c ≠ b := by
        rintro rfl
        exact (hok.valid c hc htarget).2 List.mem_cons_self
      dsimp only
      rw [hne c hcb]
      exact ⟨rfl, rfl, by rw [List.mem_cons, or_iff_right hcb]⟩
  · exact fun c hc => h.waiter c (List.mem_cons_of_mem b hc)
  · intro c
    dsimp only
    rw [hbusy c]
    exact h.busy c
  · intro c hc
    dsimp only at hc ⊢
    by_cases hcb : c = b
    · rw [hcb, hself, hv]
    · rw [hne c hcb] at hc ⊢
      exact h.dirty c hc

/-- A request is put at the end of the queue. -/
theorem enqueue (h : s.Inv queue) (hbq : b ∉ queue) : ∃ bufs first,
    Bio.enqueue b s = some { s with buf := bufs, idequeue := first } ∧
      Queued (fun c => (bufs c).qnext) first (queue ++ [b]) ∧
      ∀ c, bufs c = { s.buf c with qnext := (bufs c).qnext } := by
  have hlen : queue.length ≤ NBUF := by simpa using List.Nodup.length_le_card h.nodup
  have hset : ∀ c, (s.setBuf b { s.buf b with qnext := none }).buf c =
      { s.buf c with qnext := Function.update (fun c => (s.buf c).qnext) b none c } := by
    intro c
    by_cases hc : c = b
    · rw [hc, Sys.setBuf_self, Function.update_self]
    · rw [Sys.setBuf_ne hc, Function.update_of_ne hc]
  have hqueued : Queued (fun c => ((s.setBuf b { s.buf b with qnext := none }).buf c).qnext)
      s.idequeue queue := by
    refine h.queued.congr fun c hc => ?_
    rw [Sys.setBuf_ne (ne_of_mem_of_not_mem hc hbq)]
  have hlast := lastAlong_eq hqueued (Nat.lt_succ_of_le hlen)
  unfold Bio.enqueue
  dsimp only
  rw [show (s.setBuf b { s.buf b with qnext := none }).idequeue = s.idequeue from rfl, hlast]
  rcases List.eq_nil_or_concat' queue with rfl | ⟨us, x, rfl⟩
  · refine ⟨_, _, rfl, ⟨rfl, ?_⟩, fun c => ?_⟩
    · exact congrArg Buf.qnext (Sys.setBuf_self ..)
    · rw [hset]
  · rw [List.getLast?_concat]
    have hnodup := h.nodup
    rw [List.nodup_append_comm, List.singleton_append, List.nodup_cons] at hnodup
    have hset' : ∀ c, Function.update (s.setBuf b { s.buf b with qnext := none }).buf x
        { (s.setBuf b { s.buf b with qnext := none }).buf x with qnext := some b } c =
        { s.buf c with
          qnext := Function.update (Function.update (fun c => (s.buf c).qnext) b none) x (some b)
            c } := by
      intro c
      by_cases hc : c = x
      · rw [hc, Function.update_self, Function.update_self, hset]
      · rw [Function.update_of_ne hc, Function.update_of_ne hc, hset]
    refine ⟨_, _, rfl, (h.queued.pushBack hnodup.1 hbq).congr fun c _ => ?_, fun c => ?_⟩
    · exact congrArg Buf.qnext (hset' c)
    · exact (hset' c).trans (by rw [congrArg Buf.qnext (hset' c)])

/-- A process puts its request at the end of the queue, and sleeps.

**Proof sketch.** Only links of the queue have changed, and the place of `p`, who sleeps now. The
buffer was not in the queue, so that there is no request twice, and `p` holds it, so that no other
process is concerned. -/
theorem request {bufs : Fin NBUF → Buf} {first : Option (Fin NBUF)} (h : s.Inv queue)
    (hpc : (s.threads p).pc = .iderw b reading)
    (hqueued : Queued (fun c => (bufs c).qnext) first (queue ++ [b]))
    (hbufs : ∀ c, bufs c = { s.buf c with qnext := (bufs c).qnext }) :
    (({ s with buf := bufs, idequeue := first } : Sys).goto p (.iderwSleep b reading)).Inv
      (queue ++ [b]) := by
  have hok := (h.thread p).pc
  rw [hpc] at hok
  obtain ⟨hmem, hbq, hwants⟩ := hok
  have hkey : ∀ c, (bufs c).key = (s.buf c).key := by
    intro c
    rw [hbufs c]
    rfl
  have hheld : ∀ q, ((({ s with buf := bufs, idequeue := first } : Sys).goto p
      (.iderwSleep b reading)).threads q).held = (s.threads q).held := fun q =>
    Sys.held_goto _ p _ q
  refine ⟨hqueued, ?_, ?_, ?_, ?_, ?_, ?_⟩
  · rw [List.nodup_append_comm, List.singleton_append, List.nodup_cons]
    exact ⟨hbq, h.nodup⟩
  · intro q
    have hqok := h.thread q
    by_cases hq : q = p
    · subst hq
      rw [Sys.goto, Sys.setThread_self]
      refine ⟨⟨hmem, List.mem_append_right _ List.mem_cons_self, ?_⟩, fun c hc hct => ?_, ?_⟩
      · change (bufs b).Wants reading
        rw [hbufs b]
        exact hwants
      · have hcb : c ≠ b := fun heq => hct (by rw [heq]; rfl)
        obtain ⟨hvalid, hnot⟩ := hqok.valid c hc (by
          rw [hpc]
          exact fun heq => hcb (Option.some.inj heq).symm)
        change (bufs c).valid = true ∧ _
        rw [hbufs c]
        exact ⟨hvalid, fun hin => (List.mem_append.mp hin).elim hnot fun hin =>
          hcb (List.mem_singleton.mp hin)⟩
      · intro c hc
        obtain ⟨hin, htarget⟩ := hqok.unsaved c hc
        rw [hpc] at htarget
        exact ⟨hin, htarget⟩
    · rw [Sys.goto, Sys.setThread_ne hq]
      refine hqok.congr (fun c hc => ?_) (fun c dev blockno _ => ?_)
      · have hcb : c ≠ b := fun heq => hq (h.holder q p c hc (heq ▸ hmem))
        change (bufs c).valid = _ ∧ (bufs c).dirty = _ ∧ _
        rw [hbufs c]
        exact ⟨rfl, rfl, by simp [hcb]⟩
      · change (bufs c).busy = _ ∧ (bufs c).key = _
        exact ⟨by rw [hbufs c], hkey c⟩
  · intro c hc
    rcases List.mem_append.mp hc with hc | hc
    · obtain ⟨q, r, hq⟩ := h.waiter c hc
      have hqp : q ≠ p := by
        rintro rfl
        rcases hq with hq | hq <;> rw [hpc] at hq <;> cases hq
      refine ⟨q, r, ?_⟩
      rw [Sys.goto, Sys.setThread_ne hqp]
      exact hq
    · obtain rfl := List.mem_singleton.mp hc
      exact ⟨p, reading, .inl (by rw [Sys.goto, Sys.setThread_self])⟩
  · intro c
    simp only [hheld]
    change (bufs c).busy = true ↔ _
    rw [hbufs c]
    exact h.busy c
  · intro q r c
    rw [hheld, hheld]
    exact h.holder q r c
  · intro c hc
    change (bufs c).dirty = true at hc
    change (bufs c).valid = true
    rw [hbufs c] at hc ⊢
    exact h.dirty c hc

end Sys.Inv

/-! ## What is in the buffers -/

namespace Sys.Cached

/-- A buffer that a process holds is of one of the two disks. -/
theorem held_dev (h : s.Cached) (hinv : s.Inv queue) (hb : b ∈ (s.threads p).held) :
    (s.buf b).dev < 2 :=
  h.dev b (.inr ((hinv.busy b).mpr ⟨p, hb⟩))

/-- So is one with a request. -/
theorem queue_dev (h : s.Cached) (hinv : s.Inv queue) (hb : b ∈ queue) : (s.buf b).dev < 2 := by
  obtain ⟨p, hp, -⟩ := hinv.waiter_held hb
  exact h.held_dev hinv hp

/-- Where the buffers keep their blocks and their bytes, the same is cached. -/
theorem congr (h : s.Cached)
    (hbuf : ∀ b, (s'.buf b).key = (s.buf b).key ∧ (s'.buf b).synced = (s.buf b).synced ∧
      (s'.buf b).data = (s.buf b).data)
    (hdev : ∀ b, (s'.buf b).valid = true ∨ (s'.buf b).busy = true →
      (s.buf b).valid = true ∨ (s.buf b).busy = true)
    (hide : s'.ide.contents = s.ide.contents)
    (hunsaved : ∀ p, (s'.threads p).unsaved = (s.threads p).unsaved)
    (hasks : ∀ p dev, (s'.threads p).pc.asks = some dev → dev < 2) : s'.Cached := by
  have hdevs : ∀ b, (s'.buf b).dev = (s.buf b).dev := fun b => congrArg Prod.fst (hbuf b).1
  refine ⟨hasks, fun b c hb heq => ?_, fun b hb => ?_, fun b hb hall => ?_⟩
  · rw [hdevs] at hb
    rw [(hbuf b).1, (hbuf c).1] at heq
    exact h.key b c hb heq
  · rw [hdevs]
    exact h.dev b (hdev b hb)
  · obtain ⟨hkey, hsync, hdata⟩ := hbuf b
    rw [hkey, hdata, hide]
    refine h.clean b (hsync ▸ hb) fun p => ?_
    rw [← hunsaved p]
    exact hall p

/-- A process goes on at another place. -/
theorem goto {pc : Pc} (h : s.Cached) (hasks : ∀ dev, pc.asks = some dev → dev < 2) :
    (s.goto p pc).Cached := by
  refine h.congr (fun _ => ⟨rfl, rfl, rfl⟩) (fun _ => id) rfl (Sys.unsaved_goto s p pc)
    fun q dev hq => ?_
  by_cases hqp : q = p
  · rw [hqp, Sys.goto, Sys.setThread_self] at hq
    exact hasks dev hq
  · rw [Sys.goto, Sys.setThread_ne hqp] at hq
    exact h.asks q dev hq

/-- `wakeup` -/
theorem wakeup (h : s.Cached) (b : Fin NBUF) : (s.wakeup b).Cached := by
  refine h.congr (fun _ => ⟨rfl, rfl, rfl⟩) (fun _ => id) rfl (fun _ => Sys.unsaved_wakeup ..)
    fun p dev hp => ?_
  refine h.asks p dev ?_
  rw [← hp]
  simp only [Sys.wakeup, Thread.wakeup]
  split
  · next c dev' blockno hpc =>
    rw [hpc]
    split_ifs
    · rfl
    · rw [hpc]
  · next c reading hpc =>
    rw [hpc]
    split_ifs
    · rfl
    · rw [hpc]
  · rfl

/-- A process that has got a buffer changes it.

**Proof sketch.** The key of the buffer stays, so that no block gets a second buffer. The bytes of
the buffer may differ from the disk from now on, which is why `p` must count it among the buffers
with changes unless it is dirty. All other buffers keep their bytes. -/
theorem own {v : Buf} {t : Thread} (h : s.Cached) (hinv : s.Inv queue) (huse : s.mayUse p b)
    (hkey : v.key = (s.buf b).key) (hasks : t.pc.asks = none)
    (hkeep : ∀ c ∈ (s.threads p).unsaved, c = b ∨ c ∈ t.unsaved)
    (hclean : v.synced = true → b ∈ t.unsaved) : ((s.setBuf b v).setThread p t).Cached := by
  have hkeys : ∀ c, ((s.setBuf b v).buf c).key = (s.buf c).key := by
    intro c
    by_cases hc : c = b
    · rw [hc, Sys.setBuf_self, hkey]
    · rw [Sys.setBuf_ne hc]
  have hdevs : ∀ c, ((s.setBuf b v).buf c).dev = (s.buf c).dev := fun c =>
    congrArg Prod.fst (hkeys c)
  refine ⟨fun q dev hq => ?_, fun c d hdev heq => ?_, fun c hc => ?_, fun c hsync hall => ?_⟩
  · by_cases hqp : q = p
    · rw [hqp, Sys.setThread_self, hasks] at hq
      cases hq
    · rw [Sys.setThread_ne hqp] at hq
      exact h.asks q dev hq
  · rw [Sys.setThread, hdevs] at hdev
    rw [Sys.setThread, hkeys, hkeys] at heq
    exact h.key c d hdev heq
  · rw [Sys.setThread, hdevs]
    by_cases hcb : c = b
    · rw [hcb]
      exact h.held_dev hinv huse.2
    · rw [Sys.setThread, Sys.setBuf_ne hcb] at hc
      exact h.dev c hc
  · have hcp := hall p
    rw [Sys.setThread_self] at hcp
    by_cases hcb : c = b
    · rw [hcb, Sys.setThread, Sys.setBuf_self] at hsync
      exact absurd (hclean hsync) (hcb ▸ hcp)
    · rw [Sys.setThread, Sys.setBuf_ne hcb] at hsync ⊢
      refine h.clean c hsync fun q hun => ?_
      by_cases hq : q = p
      · subst hq
        exact (hkeep c hun).elim hcb hcp
      · have hcq := hall q
        rw [Sys.setThread_ne hq] at hcq
        exact hcq hun

/-- `bget` has got a buffer for a process.

**Proof sketch.** The buffer gets the key that the process asked for, and by assumption no other
buffer has it, so that keys stay distinct. If it was found, its bytes are those it had; if it was
recycled, it is not valid and says nothing about the disk. -/
theorem lock {v : Buf} {dev blockno : UInt32} (h : s.Cached)
    (hpc : (s.threads p).pc = .bget dev blockno) (hkey : v.key = (dev, blockno))
    (hnew : ∀ c ≠ b, (s.buf c).key ≠ (dev, blockno))
    (hclean : v.synced = true → v.data = s.ide.contents v.key) :
    ((s.setBuf b v).setThread p
      { s.threads p with
        pc := .bread b, held := Insert.insert b (s.threads p).held }).Cached := by
  have hdev : v.dev < 2 := by
    rw [show v.dev = dev from congrArg Prod.fst hkey]
    exact h.asks p dev (by rw [hpc]; rfl)
  refine ⟨fun q dev' hq => ?_, fun c d hcd heq => ?_, fun c hc => ?_, fun c hsync hall => ?_⟩
  · by_cases hqp : q = p
    · rw [hqp, Sys.setThread_self] at hq
      cases hq
    · rw [Sys.setThread_ne hqp] at hq
      exact h.asks q dev' hq
  · rw [Sys.setThread] at hcd heq
    by_cases hc : c = b
    · by_cases hd : d = b
      · rw [hc, hd]
      · rw [hc, Sys.setBuf_self, Sys.setBuf_ne hd, hkey] at heq
        exact absurd heq.symm (hnew d hd)
    · rw [Sys.setBuf_ne hc] at hcd heq
      by_cases hd : d = b
      · rw [hd, Sys.setBuf_self, hkey] at heq
        exact absurd heq (hnew c hc)
      · rw [Sys.setBuf_ne hd] at heq
        exact h.key c d hcd heq
  · rw [Sys.setThread] at hc ⊢
    by_cases hcb : c = b
    · rw [hcb, Sys.setBuf_self]
      exact hdev
    · rw [Sys.setBuf_ne hcb] at hc ⊢
      exact h.dev c hc
  · rw [Sys.setThread] at hsync ⊢
    by_cases hcb : c = b
    · rw [hcb, Sys.setBuf_self] at hsync ⊢
      exact hclean hsync
    · rw [Sys.setBuf_ne hcb] at hsync ⊢
      refine h.clean c hsync fun q hun => hall q ?_
      by_cases hq : q = p
      · subst hq
        rw [Sys.setThread_self]
        exact hun
      · rw [Sys.setThread_ne hq]
        exact hun

/-- A process lets go of a buffer. -/
theorem unlock {t : Thread} (h : s.Cached) (hasks : t.pc.asks = none)
    (hunsaved : t.unsaved = (s.threads p).unsaved) :
    ((s.setBuf b { s.buf b with busy := false }).setThread p t).Cached := by
  have hbuf : ∀ c, (s.setBuf b { s.buf b with busy := false }).buf c =
      { s.buf c with busy := if c = b then false else (s.buf c).busy } := by
    intro c
    by_cases hc : c = b
    · rw [hc, Sys.setBuf_self, if_pos rfl]
    · rw [Sys.setBuf_ne hc, if_neg hc]
  refine h.congr (fun c => ?_) (fun c hc => ?_) rfl (fun q => ?_) (fun q dev hq => ?_)
  · rw [Sys.setThread, hbuf]
    exact ⟨rfl, rfl, rfl⟩
  · rw [Sys.setThread, hbuf] at hc
    refine hc.imp_right fun hbusy => ?_
    by_cases hcb : c = b
    · simp [hcb] at hbusy
    · simpa [hcb] using hbusy
  · by_cases hqp : q = p
    · rw [hqp, Sys.setThread_self, hunsaved]
    · rw [Sys.setThread_ne hqp]
      rfl
  · by_cases hqp : q = p
    · rw [hqp, Sys.setThread_self, hasks] at hq
      cases hq
    · rw [Sys.setThread_ne hqp] at hq
      exact h.asks q dev hq

/-- The first request is done.

**Proof sketch.** The bytes of the buffer are now those of the disk, and the contents of the disks
are what they were. Nothing else has changed. -/
theorem complete {v : Buf} {d : Ide} {first : Option (Fin NBUF)} (h : s.Cached)
    (hinv : s.Inv queue) (hb : b ∈ queue)
    (hv : v = { s.buf b with valid := true, dirty := false, data := v.data })
    (hd : d.contents = s.ide.contents) (hdata : v.data = s.ide.contents (s.buf b).key) :
    ({ s with buf := Function.update s.buf b v, idequeue := first, ide := d } : Sys).Cached := by
  have hself : (Function.update s.buf b v) b = v := Function.update_self ..
  have hne : ∀ c, c ≠ b → (Function.update s.buf b v) c = s.buf c := fun c hc =>
    Function.update_of_ne hc ..
  have hkey : ∀ c, (Function.update s.buf b v c).key = (s.buf c).key := by
    intro c
    by_cases hc : c = b
    · rw [hc, hself, hv]
      rfl
    · rw [hne c hc]
  have hdev : ∀ c, (Function.update s.buf b v c).dev = (s.buf c).dev := fun c =>
    congrArg Prod.fst (hkey c)
  refine ⟨h.asks, fun c e hce heq => ?_, fun c hc => ?_, fun c hc hall => ?_⟩
  · dsimp only at hce heq
    rw [hdev] at hce
    rw [hkey, hkey] at heq
    exact h.key c e hce heq
  · dsimp only at hc ⊢
    rw [hdev]
    by_cases hcb : c = b
    · rw [hcb]
      exact h.queue_dev hinv hb
    · rw [hne c hcb] at hc
      exact h.dev c hc
  · dsimp only at hc ⊢
    rw [hkey, hd]
    by_cases hcb : c = b
    · rw [hcb, hself, hdata]
    · rw [hne c hcb] at hc ⊢
      exact h.clean c hc hall

/-- A process puts its request at the end of the queue, and sleeps. -/
theorem request {bufs : Fin NBUF → Buf} {first : Option (Fin NBUF)} (h : s.Cached)
    (hbufs : ∀ c, bufs c = { s.buf c with qnext := (bufs c).qnext }) :
    (({ s with buf := bufs, idequeue := first } : Sys).goto p (.iderwSleep b reading)).Cached := by
  have hrequest : ({ s with buf := bufs, idequeue := first } : Sys).Cached := by
    refine h.congr (fun c => ?_) (fun c hc => ?_) rfl (fun _ => rfl) h.asks
    · dsimp only
      rw [hbufs c]
      exact ⟨rfl, rfl, rfl⟩
    · dsimp only at hc
      rw [hbufs c] at hc
      exact hc
  exact hrequest.goto fun dev hdev => by cases hdev

/-- The controller starts to work on the first request.

**Proof sketch.** If the buffer is dirty, the command writes it (`idestart_dirty`): the contents of
the disk change at its block alone, and no clean buffer is one of this block. Otherwise the command
reads (`idestart_clean`) and the contents stay. Either way the buffer and the disk, or what the
controller will have fetched, agree on the block, which is what `Active` says. -/
theorem start {d : Ide} (h : s.Cached) (hinv : s.Inv queue) (hhead : queue.head? = some c)
    (hd : idestart (s.buf c) s.ide = .ok d) :
    ({ s with ide := d } : Sys).Cached ∧ ({ s with ide := d } : Sys).Active queue := by
  have hdev := h.queue_dev hinv (List.mem_of_head? hhead)
  cases hdirty : (s.buf c).dirty with
  | true =>
    have hcontents := idestart_dirty hd hdev hdirty
    refine ⟨{ h with clean := fun b hb hall => ?_ }, fun b hb => ?_⟩
    · have hbc : (s.buf b).key ≠ (s.buf c).key := by
        intro heq
        rw [← h.key c b hdev heq.symm] at hb
        simp [Buf.synced, hdirty] at hb
      dsimp only
      rw [hcontents, Function.update_of_ne hbc]
      exact h.clean b hb hall
    · obtain rfl : c = b := Option.some.inj (hhead.symm.trans hb)
      refine ⟨fun _ => ?_, fun hclean => ?_⟩
      · dsimp only
        rw [hcontents, Function.update_self]
      · rw [hdirty] at hclean
        cases hclean
  | false =>
    obtain ⟨hcontents, hfetched⟩ := idestart_clean hd hdev hdirty
    refine ⟨{ h with clean := fun b hb hall => ?_ }, fun b hb => ?_⟩
    · dsimp only
      rw [hcontents]
      exact h.clean b hb hall
    · obtain rfl : c = b := Option.some.inj (hhead.symm.trans hb)
      refine ⟨fun hd => ?_, fun _ => ?_⟩
      · rw [hdirty] at hd
        cases hd
      · dsimp only
        rw [hfetched, hcontents]

end Sys.Cached

end HgXv6.Bio
