import HgXv6.Kernel.Log
import HgXv6.Lib.Redo

set_option relaxedAutoImplicit false
set_option autoImplicit false

/-!
# Crash recovery

The log on the disk (`log.c`): a header block, a slot for each block of a transaction, and the
home blocks, which are all the others. Each routine is the list of the block writes it makes, in
program order, on a disk in a given state; a crash is a prefix of that list. What the kernel has
in memory is lost in a crash, and read from the disk again.

The contents of blocks are of an arbitrary type. Home blocks are named by their numbers, and the
blocks of the log are not among them: `log_write` is called on inode, bitmap and data blocks only.

## Main definitions

* `HgXv6.LogDisk`, `HgXv6.BlockWrite` — the disk, and the write of one block.
* `HgXv6.Kernel` — what is in memory: the cached home blocks and the log.
* `HgXv6.LogDisk.installTrans`, `HgXv6.Kernel.writeLog`, `HgXv6.Kernel.commit`,
  `HgXv6.LogDisk.recoverFromLog` — the source functions.
* `HgXv6.LogDisk.redo` — the home blocks a disk stands for: those that a recovery leaves.

## Main results

* `HgXv6.LogDisk.apply_recoverFromLog`, `HgXv6.LogDisk.redo_recoverFromLog_take` — a whole
  recovery, and what a part of one leaves.
* `HgXv6.commit_redo` — after a part of a commit a disk stands for what it did before, or for
  the whole transaction.
* `HgXv6.crash_atomic` — a crash at any point, and recoveries that crash themselves.
-/

namespace HgXv6

open Prog

variable {β : Type}

/-! ## The disk -/

/-- The disk: the header block of the log, the slots behind it, and the home blocks. -/
structure LogDisk (β : Type) where
  head : List ℕ
  slot : ℕ → β
  home : ℕ → β

/-- The write of one block. -/
inductive BlockWrite (β : Type)
  | head (lh : List ℕ)
  | slot (tail : ℕ) (b : β)
  | home (blockno : ℕ) (b : β)

namespace LogDisk

/-- `bwrite` -/
def bwrite (d : LogDisk β) : BlockWrite β → LogDisk β
  | .head lh => { d with head := lh }
  | .slot tail b => { d with slot := Function.update d.slot tail b }
  | .home blockno b => { d with home := Function.update d.home blockno b }

/-- The disk after a list of writes. -/
def apply (ws : List (BlockWrite β)) (d : LogDisk β) : LogDisk β := ws.foldl bwrite d

/-- `install_trans`: copy the slots to the home blocks. -/
def installTrans (lh : List ℕ) (d : LogDisk β) : List (BlockWrite β) :=
  lh.mapIdx fun tail blockno => .home blockno (d.slot tail)

/-- `write_head` -/
def writeHead (lh : List ℕ) : List (BlockWrite β) := [.head lh]

/-- `recover_from_log`: read the header, copy its blocks home, and clear it. -/
def recoverFromLog (d : LogDisk β) : List (BlockWrite β) := d.installTrans d.head ++ writeHead []

end LogDisk

/-! ## The kernel -/

/-- What is in memory: the home blocks as the buffer cache has them, and the log. -/
structure Kernel (β : Type) where
  cache : ℕ → β
  log : Log

namespace Kernel

/-- A block is changed in the cache, and `log_write` is called on it. -/
def logWrite (k : Kernel β) (w : ℕ × β) : Except Stop (Kernel β) :=
  k.log.logWrite w.1 >>= fun log => .ok ⟨Function.update k.cache w.1 w.2, log⟩

/-- The file system calls of a transaction: the blocks they write, in order. -/
def transaction (ws : List (ℕ × β)) (k : Kernel β) : Except Stop (Kernel β) :=
  ws.foldlM logWrite k

/-- `write_log`: copy the blocks of the transaction from the cache to the slots. -/
def writeLog (k : Kernel β) : List (BlockWrite β) :=
  k.log.lh.mapIdx fun tail blockno => .slot tail (k.cache blockno)

/-- `commit` -/
def commit (k : Kernel β) (d : LogDisk β) : List (BlockWrite β) :=
  if k.log.lh.length > 0 then
    k.writeLog ++ LogDisk.writeHead k.log.lh ++
      (d.apply (k.writeLog ++ LogDisk.writeHead k.log.lh)).installTrans k.log.lh ++
      LogDisk.writeHead []
  else []

/-- The kernel with a file system call in progress and nothing logged, on the disk `d`. -/
def boot (size : ℕ) (d : LogDisk β) : Kernel β where
  cache := d.home
  log := ⟨size, 1, false, []⟩

/-- The transaction `ws` and its commit, to the end. -/
def runTransaction (x : Kernel β × LogDisk β) (ws : List (ℕ × β)) :
    Except Stop (Kernel β × LogDisk β) :=
  x.1.transaction ws >>= fun k =>
    .ok ({ k with log := { k.log with lh := [] } }, x.2.apply (k.commit x.2))

end Kernel

/-! ## What writes do to the parts of the disk -/

namespace LogDisk

theorem apply_append (ws ws' : List (BlockWrite β)) (d : LogDisk β) :
    d.apply (ws ++ ws') = (d.apply ws).apply ws' := List.foldl_append

/-- What the header of a disk asks for: the home blocks it names, with the contents of their
slots. -/
def entries (lh : List ℕ) (d : LogDisk β) : List (ℕ × β) :=
  lh.mapIdx fun tail blockno => (blockno, d.slot tail)

/-- The home blocks a disk stands for. -/
def redo (d : LogDisk β) : ℕ → β := replay (d.entries d.head) d.home

/-- Writes of home blocks replay a list of them and change nothing else. -/
theorem apply_home (ws : List (ℕ × β)) (d : LogDisk β) :
    d.apply (ws.map fun w => .home w.1 w.2) = { d with home := replay ws d.home } := by
  induction ws generalizing d with
  | nil => rfl
  | cons w ws ih =>
    rw [List.map_cons, apply, List.foldl_cons]
    exact ih _

/-- Writes of slots replay a list of them and change nothing else. -/
theorem apply_slot (ws : List (ℕ × β)) (d : LogDisk β) :
    d.apply (ws.map fun w => .slot w.1 w.2) = { d with slot := replay ws d.slot } := by
  induction ws generalizing d with
  | nil => rfl
  | cons w ws ih =>
    rw [List.map_cons, apply, List.foldl_cons]
    exact ih _

theorem installTrans_eq (lh : List ℕ) (d : LogDisk β) :
    d.installTrans lh = (d.entries lh).map fun w => .home w.1 w.2 :=
  List.ext_getElem (by simp [installTrans, entries]) fun i h1 h2 => by
    simp [installTrans, entries]

/-- A part of `install_trans`. -/
theorem apply_installTrans_take (lh : List ℕ) (j : ℕ) (d : LogDisk β) :
    d.apply ((d.installTrans lh).take j) =
      { d with home := replay ((d.entries lh).take j) d.home } := by
  rw [installTrans_eq, ← List.map_take]
  exact apply_home _ d

theorem length_installTrans (lh : List ℕ) (d : LogDisk β) :
    (d.installTrans lh).length = lh.length := by simp [installTrans]

/-- A part of a list of writes followed by one more: a part of the list, or all of it. -/
theorem take_append_one (ws : List (BlockWrite β)) (w : BlockWrite β) (j : ℕ) :
    (ws ++ [w]).take j = ws.take j ∨ (ws ++ [w]).take j = ws ++ [w] := by
  rcases Nat.lt_or_ge ws.length j with h | h
  · exact .inr (List.take_of_length_le (by simp; omega))
  · exact .inl (List.take_append_of_le_length h)

/-- An empty header asks for nothing. -/
theorem redo_of_head_nil {d : LogDisk β} (h : d.head = []) : d.redo = d.home := by
  rw [redo, h]
  rfl

/-- Copying a part of the transaction home does not change what the disk stands for. -/
theorem redo_installTrans_take (j : ℕ) (d : LogDisk β) :
    (d.apply ((d.installTrans d.head).take j)).redo = d.redo := by
  rw [apply_installTrans_take]
  exact replay_take (d.entries d.head) j d.home

/-- The whole of a recovery leaves the home blocks the disk stood for, and an empty log. -/
theorem apply_recoverFromLog (d : LogDisk β) :
    d.apply d.recoverFromLog = { d with head := [], home := d.redo } := by
  have hinstall := apply_installTrans_take d.head d.head.length d
  rw [List.take_of_length_le (length_installTrans _ _).le,
    List.take_of_length_le (by simp [entries])] at hinstall
  rw [recoverFromLog, apply_append, hinstall]
  rfl

/-- A recovery that crashes after any of its writes does not change what the disk stands for. -/
theorem redo_recoverFromLog_take (j : ℕ) (d : LogDisk β) :
    (d.apply (d.recoverFromLog.take j)).redo = d.redo := by
  rcases take_append_one (d.installTrans d.head) (.head []) j with h | h
  · rw [recoverFromLog, writeHead, h]
    exact redo_installTrans_take j d
  · rw [recoverFromLog, writeHead, h]
    change (d.apply d.recoverFromLog).redo = d.redo
    rw [apply_recoverFromLog]
    rfl

/-- A number of recoveries, each of which crashes after some of its writes. -/
def crashingRecoveries (js : List ℕ) (d : LogDisk β) : LogDisk β :=
  js.foldl (fun d j => d.apply (d.recoverFromLog.take j)) d

/-- They do not change what the disk stands for. -/
theorem redo_crashingRecoveries (js : List ℕ) (d : LogDisk β) :
    (d.crashingRecoveries js).redo = d.redo := by
  induction js generalizing d with
  | nil => rfl
  | cons j js ih =>
    exact (ih (d.apply (d.recoverFromLog.take j))).trans (redo_recoverFromLog_take j d)

end LogDisk

/-! ## Transactions -/

open LogDisk

/-- Between two transactions: the cache has what the disk has, and the log is empty. -/
structure Idle (k : Kernel β) (d : LogDisk β) : Prop where
  cache : k.cache = d.home
  head : d.head = []
  lh : k.log.lh = []

/-- What a write of a block leaves, if it returns. -/
theorem logWrite_ensures (k : Kernel β) (w : ℕ × β) : Ensures (k.logWrite w) fun k' =>
    k'.cache = Function.update k.cache w.1 w.2 ∧ k'.log.lh = absorb w.1 k.log.lh := by
  refine Ensures.bind (P := fun log => log.lh = absorb w.1 k.log.lh) ?_ fun log hlog => ?_
  · unfold Log.logWrite
    split_ifs
    · exact (ensures_error _ _).mpr trivial
    · exact (ensures_error _ _).mpr trivial
    · exact (ensures_ok _ _).mpr rfl
  · exact (ensures_ok _ _).mpr ⟨rfl, hlog⟩

/-- What the writes of a transaction leave: the changed blocks in the cache, and their numbers in
the log. -/
theorem transaction_ensures (ws : List (ℕ × β)) (k : Kernel β) :
    Ensures (k.transaction ws) fun k' => k'.cache = replay ws k.cache ∧
      ∀ b, b ∈ k'.log.lh ↔ b ∈ k.log.lh ∨ b ∈ ws.map Prod.fst := by
  induction ws generalizing k with
  | nil => exact (ensures_ok _ _).mpr ⟨rfl, by simp⟩
  | cons w ws ih =>
    rw [Kernel.transaction, List.foldlM_cons]
    refine Ensures.bind (logWrite_ensures k w) ?_
    rintro k₁ ⟨hcache, hlh⟩
    refine (ih k₁).mono ?_
    rintro k₂ ⟨hcache', hlh'⟩
    refine ⟨by rw [hcache', hcache, replay_cons], fun b => ?_⟩
    rw [hlh', hlh, mem_absorb, List.map_cons, List.mem_cons, or_assoc]

/-! ## Commits -/

theorem writeLog_eq (k : Kernel β) :
    k.writeLog = (k.log.lh.mapIdx fun tail b => (tail, k.cache b)).map
      fun w => BlockWrite.slot w.1 w.2 :=
  List.ext_getElem (by simp [Kernel.writeLog]) fun i h1 h2 => by simp [Kernel.writeLog]

/-- The slots and the header as `write_log` and `write_head` leave them name each block of the
transaction with its contents in the cache. -/
theorem entries_writeLog (k : Kernel β) (d : LogDisk β) :
    (d.apply (k.writeLog ++ writeHead k.log.lh)).head = k.log.lh ∧
    (d.apply (k.writeLog ++ writeHead k.log.lh)).home = d.home ∧
    (d.apply (k.writeLog ++ writeHead k.log.lh)).entries k.log.lh =
      k.log.lh.map fun b => (b, k.cache b) := by
  rw [apply_append, writeLog_eq, apply_slot]
  refine ⟨rfl, rfl, ?_⟩
  refine List.ext_getElem (by simp [entries]) fun i h1 h2 => ?_
  have hi : i < k.log.lh.length := by simpa using h2
  simp only [entries, List.getElem_mapIdx, List.getElem_map, Prod.mk.injEq, true_and]
  have hmem : i ∈ (k.log.lh.mapIdx fun tail b => (tail, k.cache b)).map Prod.fst :=
    List.mem_map.mpr ⟨(i, k.cache k.log.lh[i]), List.mem_mapIdx.mpr ⟨i, hi, rfl⟩, rfl⟩
  obtain ⟨i', hi', heq⟩ := List.mem_mapIdx.mp (replay_mem hmem d.slot)
  obtain ⟨rfl, hval⟩ := Prod.mk.inj heq
  exact hval.symm

/-- A part of `write_log` does not touch a disk with an empty header. -/
theorem redo_writeLog_take (k : Kernel β) {d : LogDisk β} (hhead : d.head = []) (j : ℕ) :
    (d.apply (k.writeLog.take j)).redo = d.home := by
  rw [writeLog_eq, ← List.map_take, apply_slot]
  exact redo_of_head_nil hhead

/-- A cache and a log as a transaction leaves them: a block whose number is not in the log is as
on the disk. -/
def Dirty (k : Kernel β) (d : LogDisk β) : Prop :=
  ∀ b, b ∉ k.log.lh → d.home b = k.cache b

/-- Once the header is written the disk stands for the cache. -/
theorem redo_writeHead {k : Kernel β} {d : LogDisk β} (h : Dirty k d) :
    (d.apply (k.writeLog ++ writeHead k.log.lh)).redo = k.cache := by
  obtain ⟨hhead, hhome, hentries⟩ := entries_writeLog k d
  rw [redo, hhead, hhome, hentries]
  refine replay_eq_of (fun w hw => ?_) fun b hb => h b ?_
  · obtain ⟨b, -, rfl⟩ := List.mem_map.mp hw
    rfl
  · simpa using hb

/-- The whole of a commit leaves the cache on the disk, and an empty log. -/
theorem apply_commit {k : Kernel β} {d : LogDisk β} (hhead : d.head = []) (h : Dirty k d) :
    (d.apply (k.commit d)).head = [] ∧ (d.apply (k.commit d)).home = k.cache := by
  by_cases hn : k.log.lh.length > 0
  · rw [Kernel.commit, if_pos hn]
    set d' := d.apply (k.writeLog ++ writeHead k.log.lh) with hd'
    have hlh : d'.head = k.log.lh := (entries_writeLog k d).1
    have hwhole := apply_recoverFromLog d'
    rw [recoverFromLog, hlh] at hwhole
    rw [List.append_assoc, apply_append, ← hd', hwhole]
    exact ⟨rfl, redo_writeHead h⟩
  · rw [Kernel.commit, if_neg hn]
    refine ⟨hhead, funext fun b => h b fun hb => hn (List.length_pos_of_mem hb)⟩

/-- After a part of a commit the disk stands for what it had before, or for all of the cache.

**Proof sketch.** If the log is empty nothing is written. Otherwise the commit writes the blocks of
the log, the head, the home blocks and the head again. Before the first head has been written, the
head on the disk is empty and the home blocks are untouched, so redoing does nothing. From then on
the head lists the blocks and the log has their contents, and whatever part of the home blocks has
been written, redoing the log gives the whole of the cache. -/
theorem commit_redo {k : Kernel β} {d : LogDisk β} (hhead : d.head = []) (h : Dirty k d)
    (j : ℕ) :
    (d.apply ((k.commit d).take j)).redo = d.home ∨
      (d.apply ((k.commit d).take j)).redo = k.cache := by
  have hwhole : (d.apply (k.commit d)).redo = k.cache := by
    rw [redo_of_head_nil (apply_commit hhead h).1, (apply_commit hhead h).2]
  by_cases hn : k.log.lh.length > 0
  case neg =>
    rw [Kernel.commit, if_neg hn, List.take_nil]
    exact .inl (redo_of_head_nil hhead)
  set d' := d.apply (k.writeLog ++ writeHead k.log.lh) with hd'
  have hcommit : k.commit d =
      k.writeLog ++ writeHead k.log.lh ++ d'.installTrans k.log.lh ++ [.head []] := by
    rw [Kernel.commit, if_pos hn]
    rfl
  have hlh : d'.head = k.log.lh := (entries_writeLog k d).1
  rcases take_append_one (k.writeLog ++ writeHead k.log.lh ++ d'.installTrans k.log.lh)
    (.head []) j with htake | htake
  · rw [hcommit, htake]
    rcases Nat.lt_or_ge k.writeLog.length j with hj | hj
    · -- the header is written
      have hlog : (k.writeLog ++ writeHead k.log.lh).length ≤ j := by
        rw [List.length_append]
        exact hj
      rw [List.take_append, List.take_of_length_le hlog, apply_append, ← hd', ← hlh]
      exact .inr ((redo_installTrans_take _ d').trans (redo_writeHead h))
    · -- the crash is before that
      rw [List.append_assoc, List.take_append_of_le_length hj]
      exact .inl (redo_writeLog_take k hhead j)
  · rw [hcommit, htake, ← hcommit]
    exact .inr hwhole

/-! ## Runs -/

/-- What the file system calls of a transaction leave between two commits. -/
theorem Idle.transaction {k : Kernel β} {d : LogDisk β} (h : Idle k d) (ws : List (ℕ × β)) :
    Ensures (k.transaction ws) fun k' => k'.cache = replay ws d.home ∧ Dirty k' d := by
  refine (transaction_ensures ws k).mono ?_
  intro k' hk'
  obtain ⟨hcache, hlh⟩ := hk'
  rw [h.cache] at hcache
  refine ⟨hcache, fun b hb => ?_⟩
  rw [hcache, replay_of_notMem]
  intro hmem
  exact hb ((hlh b).mpr (.inr hmem))

/-- One transaction. -/
theorem Idle.runTransaction {k : Kernel β} {d : LogDisk β} (h : Idle k d) (ws : List (ℕ × β)) :
    Ensures (Kernel.runTransaction (k, d) ws) fun x =>
      Idle x.1 x.2 ∧ x.2.home = replay ws d.home := by
  refine Ensures.bind (h.transaction ws) ?_
  intro k' hk'
  obtain ⟨hcache, hdirty⟩ := hk'
  obtain ⟨hhead, hhome⟩ := apply_commit h.head hdirty
  refine (ensures_ok _ _).mpr ⟨⟨hhome.symm, hhead, rfl⟩, ?_⟩
  rw [← hcache]
  exact hhome

/-- A number of transactions. -/
theorem Idle.runTransactions {x : Kernel β × LogDisk β} (h : Idle x.1 x.2)
    (ts : List (List (ℕ × β))) : Ensures (ts.foldlM Kernel.runTransaction x) fun x' =>
      Idle x'.1 x'.2 ∧ x'.2.home = replay ts.flatten x.2.home := by
  induction ts generalizing x with
  | nil => exact (ensures_ok _ _).mpr ⟨h, rfl⟩
  | cons t ts ih =>
    rw [List.foldlM_cons]
    refine Ensures.bind (h.runTransaction t) ?_
    intro x₁ hx₁
    refine (ih hx₁.1).mono ?_
    intro x₂ hx₂
    refine ⟨hx₂.1, ?_⟩
    rw [hx₂.2, hx₁.2, List.flatten_cons, replay_append]

/-- The disk after a whole recovery. -/
def LogDisk.recover (d : LogDisk β) : LogDisk β := d.apply d.recoverFromLog

theorem idle_boot (size : ℕ) (d : LogDisk β) : Idle (Kernel.boot size d.recover) d.recover where
  cache := rfl
  head := by rw [LogDisk.recover, apply_recoverFromLog]
  lh := rfl

/-- **Crash atomicity.** The system is booted from any disk, and runs the transactions `ts` and
their commits. It crashes after `j` of the block writes of the commit of one more transaction, `t`,
and the recoveries `js` crash too. Then the next recovery leaves the home blocks as they are after
the transactions `ts`, or after these and `t`; and after `t` if its commit was over.

**Proof sketch.** After the boot and the transactions `ts` the log is idle and the home blocks are
the ones that `ts` make of those of the boot (`idle_boot`, `runTransactions`). A part of the commit
of `t` leaves a disk that stands for the home blocks before or for the cache (`commit_redo`).
Recovering does not change what a disk stands for, not even where it crashes
(`redo_crashingRecoveries`), so one of the two is what the last recovery leaves; after the whole
commit it is the cache. -/
theorem crash_atomic {size : ℕ} {d₀ d : LogDisk β} {k k' : Kernel β} {ts : List (List (ℕ × β))}
    {t : List (ℕ × β)}
    (hrun : ts.foldlM Kernel.runTransaction (Kernel.boot size d₀.recover, d₀.recover) =
      .ok (k, d))
    (ht : k.transaction t = .ok k') (j : ℕ) (js : List ℕ) :
    (((d.apply ((k'.commit d).take j)).crashingRecoveries js).recover).head = [] ∧
    ∃ n, (n = ts.length ∨ n = ts.length + 1) ∧
      ((k'.commit d).length ≤ j → n = ts.length + 1) ∧
      (((d.apply ((k'.commit d).take j)).crashingRecoveries js).recover).home =
        replay ((ts ++ [t]).take n).flatten d₀.redo := by
  obtain ⟨hidle, hhome⟩ := (idle_boot size d₀).runTransactions ts _ hrun
  obtain ⟨hcache, hdirty⟩ := hidle.transaction t _ ht
  have hbase : d₀.recover.home = d₀.redo := by rw [LogDisk.recover, apply_recoverFromLog]
  simp only [hbase] at hhome
  simp only [LogDisk.recover, apply_recoverFromLog, redo_crashingRecoveries, true_and]
  have hall : k'.cache = replay ((ts ++ [t]).take (ts.length + 1)).flatten d₀.redo :=
    calc k'.cache = replay t (replay ts.flatten d₀.redo) := by rw [hcache, hhome]
      _ = replay (ts.flatten ++ t) d₀.redo := (replay_append ..).symm
      _ = replay (ts ++ [t]).flatten d₀.redo := by rw [List.flatten_append, List.flatten_singleton]
      _ = replay ((ts ++ [t]).take (ts.length + 1)).flatten d₀.redo := by
        rw [List.take_of_length_le (by simp)]
  by_cases hj : (k'.commit d).length ≤ j
  · refine ⟨ts.length + 1, .inr rfl, fun _ => rfl, ?_⟩
    obtain ⟨hhead, hhome'⟩ := apply_commit hidle.head hdirty
    calc (d.apply ((k'.commit d).take j)).redo = (d.apply (k'.commit d)).redo := by
          rw [List.take_of_length_le hj]
      _ = (d.apply (k'.commit d)).home := redo_of_head_nil hhead
      _ = k'.cache := hhome'
      _ = replay ((ts ++ [t]).take (ts.length + 1)).flatten d₀.redo := hall
  · rcases commit_redo hidle.head hdirty j with h | h
    · refine ⟨ts.length, .inl rfl, fun h => absurd h hj, ?_⟩
      calc (d.apply ((k'.commit d).take j)).redo = d.home := h
        _ = replay ts.flatten d₀.redo := hhome
        _ = replay ((ts ++ [t]).take ts.length).flatten d₀.redo := by
          rw [List.take_append_of_le_length le_rfl, List.take_length]
    · exact ⟨ts.length + 1, .inr rfl, fun h => absurd h hj, h.trans hall⟩

/-- A transaction that writes the blocks 50 and 60, and a second one that writes 50 again: the
first is over, and the crash is after the header of the second is written. The log has the slots
of a transaction from before the boot, on the block 70. -/
theorem crash_atomic_second :
    let d₀ : LogDisk ℕ := ⟨[70], fun _ => 9, fun _ => 0⟩
    let ts : List (List (ℕ × ℕ)) := [[(50, 1), (60, 2), (50, 3)]]
    ∃ k d k', ts.foldlM Kernel.runTransaction (Kernel.boot 30 d₀.recover, d₀.recover) =
        .ok (k, d) ∧ k.transaction [(50, 4)] = .ok k' ∧
      ∃ n, (n = 1 ∨ n = 2) ∧ ((k'.commit d).length ≤ 2 → n = 2) ∧
        (((d.apply ((k'.commit d).take 2)).crashingRecoveries [0, 1]).recover).home =
          replay ((ts ++ [[(50, 4)]]).take n).flatten d₀.redo :=
  ⟨_, _, _, rfl, rfl, (@crash_atomic ℕ 30 ⟨[70], fun _ => 9, fun _ => 0⟩ _ _ _
    [[(50, 1), (60, 2), (50, 3)]] [(50, 4)] rfl rfl 2 [0, 1]).2⟩

end HgXv6
