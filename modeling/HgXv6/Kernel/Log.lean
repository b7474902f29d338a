import HgXv6.Kernel.File
import Mathlib.Data.List.Nodup

set_option relaxedAutoImplicit false
set_option autoImplicit false

/-!
# The log in memory

The part of the log that is not on the disk (`log.c`): the calls `begin_op`, `log_write` and
`end_op`, by which file system calls join a transaction, name the blocks they have changed, and
leave it again. The block numbers of `struct logheader` are a list, whose length is `n`.

## Main definitions

* `HgXv6.Log` — `struct log`.
* `HgXv6.Log.beginOp`, `HgXv6.Log.logWrite`, `HgXv6.Log.endOp` — the source functions.

## Main results

* `HgXv6.mem_absorb`, `HgXv6.nodup_absorb` — a block is in the header once, however often it is
  written.
-/

namespace HgXv6

open Prog

/-- `#define MAXOPBLOCKS  10` -/
abbrev MAXOPBLOCKS : ℕ := 10

/-- `struct log` -/
structure Log where
  size : ℕ
  /-- how many file system calls are executing -/
  outstanding : ℕ
  committing : Bool
  /-- `lh` -/
  lh : List ℕ
deriving DecidableEq

/-- The search of `log_write` for the block, and its entry in the header. -/
def absorb (blockno : ℕ) (lh : List ℕ) : List ℕ := if blockno ∈ lh then lh else lh ++ [blockno]

namespace Log

/-- `begin_op`, or nothing if the call has to sleep. -/
def beginOp (log : Log) : Option Log :=
  if log.committing then none
  else if log.lh.length + (log.outstanding + 1) * MAXOPBLOCKS > LOGSIZE then none
  else some { log with outstanding := log.outstanding + 1 }

/-- `log_write` of a buffer of the block `blockno` -/
def logWrite (blockno : ℕ) (log : Log) : Except Stop Log :=
  if log.lh.length ≥ LOGSIZE ∨ log.lh.length + 1 ≥ log.size then
    .error (.panic "too big a transaction")
  else if log.outstanding < 1 then .error (.panic "log_write outside of trans")
  else .ok { log with lh := absorb blockno log.lh }

/-- `end_op` up to its commit: whether it has to commit. -/
def endOp (log : Log) : Except Stop (Bool × Log) :=
  if log.committing then .error (.panic "log.committing")
  else if log.outstanding - 1 = 0 then
    .ok (true, { log with outstanding := log.outstanding - 1, committing := true })
  else .ok (false, { log with outstanding := log.outstanding - 1 })

/-- `end_op` after its commit, which has emptied the header. -/
def committed (log : Log) : Log := { log with committing := false, lh := [] }

end Log

/-! ## Absorption -/

/-- The blocks in the header after a write. -/
@[simp] theorem mem_absorb {b c : ℕ} {lh : List ℕ} : b ∈ absorb c lh ↔ b ∈ lh ∨ b = c := by
  unfold absorb
  split_ifs with hc
  · refine ⟨.inl, ?_⟩
    rintro (h | rfl)
    · exact h
    · exact hc
  · simp

/-- No block is in the header twice. -/
theorem nodup_absorb {lh : List ℕ} (h : lh.Nodup) (c : ℕ) : (absorb c lh).Nodup := by
  unfold absorb
  split_ifs with hc
  · exact h
  · exact h.append (List.nodup_singleton c) (by simpa using hc)

end HgXv6
