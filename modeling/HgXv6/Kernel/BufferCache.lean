import HgXv6.Kernel.Disk
import HgXv6.Kernel.Log
import HgXv6.Kernel.Mkfs
import HgXv6.Lib.Queue
import HgXv6.Lib.Transition
import Mathlib.Data.Finset.Basic

set_option relaxedAutoImplicit false
set_option autoImplicit false

/-!
# The buffer cache and the disk driver

The cached copies of the blocks of the disks (`bio.c`), and the queue of requests to the disk
controller (`ide.c`). Any number of processes use them at the same time. The actions of the system
are the stretches of code that run under `bcache.lock` or `idelock`, the steps of a process
between them, what the holders of buffers do to them, the work of the controller and its
interrupts; any list of actions is a schedule. A process that sleeps is woken by a `wakeup` on its
buffer, or at any other time, as `kill` does it.

A process uses a buffer only from its `bread` to its `brelse`, and lets go of a buffer that it has
changed only after `log_write` or `bwrite`. The controller carries out one command at a time, at
some moment before it is ready again.

## Main definitions

* `HgXv6.Bio.Buf`, `HgXv6.Bio.Sys` — the buffers, their list, the requests and the processes.
* `HgXv6.Bio.binit`, `HgXv6.Bio.bget`, `HgXv6.Bio.brelse`, `HgXv6.Bio.iderw`,
  `HgXv6.Bio.ideintr`, `HgXv6.Bio.idestart` — the source functions.
* `HgXv6.Bio.Act`, `HgXv6.Bio.step` — the actions.
-/

namespace HgXv6.Bio

open Prog
open Mkfs (FSSIZE)

/-- `#define NBUF (MAXOPBLOCKS*3)` -/
abbrev NBUF : ℕ := MAXOPBLOCKS * 3

/-- `#define SECTOR_SIZE 512` -/
abbrev SECTOR_SIZE : ℕ := 512

/-- The bytes of a block, from 0 to `BSIZE`. -/
abbrev Data : Type := ℕ → UInt8

/-! ## Buffers -/

/-- `struct buf`: its flags are fields of their own, and its links to other buffers are in
`Sys.links`. -/
structure Buf where
  /-- `B_BUSY`: buffer is locked by some process -/
  busy : Bool
  /-- `B_VALID`: buffer has been read from disk -/
  valid : Bool
  /-- `B_DIRTY`: buffer needs to be written to disk -/
  dirty : Bool
  dev : UInt32
  blockno : UInt32
  /-- disk queue -/
  qnext : Option (Fin NBUF)
  data : Data

/-- The block that the buffer is for. -/
def Buf.key (b : Buf) : UInt32 × UInt32 := (b.dev, b.blockno)

/-- `(b->flags & (B_VALID|B_DIRTY)) == B_VALID` -/
def Buf.synced (b : Buf) : Bool := b.valid && !b.dirty

/-- A node of the list of buffers: `bcache.head`, or a buffer. -/
abbrev Node : Type := Option (Fin NBUF)

/-! ## The disk controller -/

/-- What the driver has written to the ports of the controller. -/
structure Command where
  /-- number of sectors -/
  count : UInt8
  lba0 : UInt8
  lba1 : UInt8
  lba2 : UInt8
  drive : UInt8
  /-- the bytes of a `write_cmd`; `none` for a `read_cmd` -/
  bytes : Option Data

/-- The disk that a command is for. -/
def Command.disk (c : Command) : ℕ := ((c.drive >>> 4) &&& 1).toNat

/-- The sector that a command is for. -/
def Command.sector (c : Command) : ℕ :=
  c.lba0.toNat + 2 ^ 8 * c.lba1.toNat + 2 ^ 16 * c.lba2.toNat + 2 ^ 24 * (c.drive &&& 0x0f).toNat

/-- The controller and its two disks. -/
structure Ide where
  pending : Option Command
  /-- what the last `read_cmd` has fetched -/
  fetched : Data
  /-- by disk and sector -/
  media : ℕ → ℕ → Data

/-- `idewait`: the controller becomes ready, and has carried out its command. -/
def Ide.idewait (d : Ide) : Ide :=
  match d.pending with
  | none => d
  | some c =>
    match c.bytes with
    | some bytes =>
      { d with
        pending := none
        media := Function.update d.media c.disk
          (Function.update (d.media c.disk) c.sector bytes) }
    | none => { d with pending := none, fetched := d.media c.disk c.sector }

/-- What `idestart` writes to the ports for a buffer. -/
def command (b : Buf) : Command :=
  let sector : UInt32 := b.blockno * UInt32.ofNat (BSIZE / SECTOR_SIZE)
  { count := UInt8.ofNat (BSIZE / SECTOR_SIZE)
    lba0 := (sector &&& 0xff).toUInt8
    lba1 := ((sector >>> 8) &&& 0xff).toUInt8
    lba2 := ((sector >>> 16) &&& 0xff).toUInt8
    drive := (0xe0 : UInt8) ||| ((b.dev &&& 1) <<< 4).toUInt8 |||
      ((sector >>> 24) &&& 0x0f).toUInt8
    bytes := if b.dirty then some b.data else none }

/-- `idestart` -/
def idestart (b : Buf) (d : Ide) : Except Stop Ide :=
  if b.blockno.toNat ≥ FSSIZE then .error (.panic "incorrect blockno")
  else .ok { d.idewait with pending := some (command b) }

/-! ## Processes -/

/-- Where a process is. -/
inductive Pc
  /-- not in the buffer cache -/
  | caller
  /-- in `bget`, at `loop` -/
  | bget (dev blockno : UInt32)
  /-- asleep in `bget`: the buffer is in use -/
  | bgetSleep (b : Fin NBUF) (dev blockno : UInt32)
  /-- in `bread`, behind its `bget` -/
  | bread (b : Fin NBUF)
  /-- at the start of `iderw`, for a `bread` or for a `bwrite` -/
  | iderw (b : Fin NBUF) (reading : Bool)
  /-- asleep in `iderw` -/
  | iderwSleep (b : Fin NBUF) (reading : Bool)
  /-- in `iderw`, at the condition of its loop -/
  | iderwTest (b : Fin NBUF) (reading : Bool)
deriving DecidableEq

/-- A process: where it is, the buffers that it has got and not yet let go, and those of them that
it has changed since its last `log_write` or `bwrite`. -/
structure Thread where
  pc : Pc
  held : Finset (Fin NBUF)
  unsaved : Finset (Fin NBUF)

/-- `wakeup(b)`, for one process. -/
def Thread.wakeup (b : Fin NBUF) (t : Thread) : Thread :=
  match t.pc with
  | .bgetSleep c dev blockno => if c = b then { t with pc := .bget dev blockno } else t
  | .iderwSleep c reading => if c = b then { t with pc := .iderwTest c reading } else t
  | _ => t

/-! ## The system -/

/-- The buffer cache, the disk driver and the processes. -/
structure Sys where
  /-- `bcache.buf` -/
  buf : Fin NBUF → Buf
  /-- `prev` and `next` of all buffers, and of `bcache.head` -/
  links : Links Node
  idequeue : Option (Fin NBUF)
  havedisk1 : Bool
  ide : Ide
  threads : ℕ → Thread

namespace Sys

/-- A change to a buffer. -/
def setBuf (b : Fin NBUF) (v : Buf) (s : Sys) : Sys := { s with buf := Function.update s.buf b v }

/-- A change to a process. -/
def setThread (p : ℕ) (t : Thread) (s : Sys) : Sys :=
  { s with threads := Function.update s.threads p t }

/-- A process goes on at another place. -/
def goto (p : ℕ) (pc : Pc) (s : Sys) : Sys := s.setThread p { s.threads p with pc := pc }

/-- `wakeup(b)` -/
def wakeup (b : Fin NBUF) (s : Sys) : Sys :=
  { s with threads := fun p => (s.threads p).wakeup b }

end Sys

/-- The body of the loop of `binit`. -/
def binitStep (x : (Fin NBUF → Buf) × Links Node) (b : Fin NBUF) :
    (Fin NBUF → Buf) × Links Node :=
  (Function.update x.1 b { x.1 b with dev := -1 }, x.2.pushFront none (some b))

/-- `binit`: the buffers and their list. The memory of `bcache` is zero before. -/
def binit : (Fin NBUF → Buf) × Links Node :=
  (List.finRange NBUF).foldl binitStep
    (fun _ => ⟨false, false, false, 0, 0, none, fun _ => 0⟩, ⟨fun _ => none, fun _ => none⟩)

/-- The system after `binit` and `ideinit`, on any two disks. -/
def Sys.boot (havedisk1 : Bool) (fetched : Data) (media : ℕ → ℕ → Data) : Sys where
  buf := binit.1
  links := binit.2
  idequeue := none
  havedisk1 := havedisk1
  ide := { pending := none, fetched := fetched, media := media }
  threads := fun _ => { pc := .caller, held := ∅, unsaved := ∅ }

/-- What is seen of an action, with the block that it is about. -/
inductive Event
  /-- `bget` has got the block for a process -/
  | lock (p : ℕ) (k : UInt32 × UInt32)
  /-- a `bread` of the process has returned a buffer with these bytes -/
  | read (p : ℕ) (k : UInt32 × UInt32) (data : Data)
  /-- the process has changed the bytes of its buffer to these -/
  | write (p : ℕ) (k : UInt32 × UInt32) (data : Data)
  /-- `brelse` -/
  | unlock (p : ℕ) (k : UInt32 × UInt32)

/-- What an action leads to. -/
abbrev Result : Type := Reaction Stop Sys Event

/-- The stretch of `bget` from `loop` on, for the process `p`. -/
def bget (p : ℕ) (dev blockno : UInt32) (s : Sys) : Result :=
  -- Is the block already cached?
  match firstAlong s.links.next none
    (fun n => n.filter fun b => (s.buf b).dev = dev ∧ (s.buf b).blockno = blockno)
    (NBUF + 1) (s.links.next none) with
  | none => .fails .loops
  | some (some b) =>
    if (s.buf b).busy then .goes (s.goto p (.bgetSleep b dev blockno)) []
    else
      let t := s.threads p
      .goes ((s.setBuf b { s.buf b with busy := true }).setThread p
        { t with pc := .bread b, held := Insert.insert b t.held }) [.lock p (dev, blockno)]
  | some none =>
    -- Not cached; recycle some non-busy and clean buffer.
    match firstAlong s.links.prev none
      (fun n => n.filter fun b => (s.buf b).busy = false ∧ (s.buf b).dirty = false)
      (NBUF + 1) (s.links.prev none) with
    | none => .fails .loops
    | some none => .fails (.panic "bget: no buffers")
    | some (some b) =>
      let t := s.threads p
      .goes ((s.setBuf b { s.buf b with
          dev := dev, blockno := blockno, busy := true, valid := false, dirty := false }).setThread
        p { t with pc := .bread b, held := Insert.insert b t.held }) [.lock p (dev, blockno)]

/-- `brelse`, for the process `p`. -/
def brelse (p : ℕ) (b : Fin NBUF) (s : Sys) : Result :=
  if (s.buf b).busy = false then .fails (.panic "brelse")
  else
    let k := (s.buf b).key
    let s := { s with links := (s.links.unlink (some b)).pushFront none (some b) }
    let s := (s.setBuf b { s.buf b with busy := false }).wakeup b
    let t := s.threads p
    .goes (s.setThread p { t with held := t.held.erase b }) [.unlock p k]

/-- `bread` and `bwrite` return to their caller. -/
def leave (p : ℕ) (b : Fin NBUF) (reading : Bool) (s : Sys) : Result :=
  .goes (s.goto p .caller) (if reading then [.read p (s.buf b).key (s.buf b).data] else [])

/-- The condition of the loop of `iderw`. -/
def iderwTest (p : ℕ) (b : Fin NBUF) (reading : Bool) (s : Sys) : Result :=
  if (s.buf b).synced then leave p b reading s else .goes (s.goto p (.iderwSleep b reading)) []

/-- `b->qnext = 0;`, and `*pp = b` at the end of the queue. -/
def enqueue (b : Fin NBUF) (s : Sys) : Option Sys :=
  let s := s.setBuf b { s.buf b with qnext := none }
  match lastAlong (fun c => (s.buf c).qnext) (NBUF + 1) s.idequeue with
  | none => none
  | some none => some { s with idequeue := some b }
  | some (some c) => some (s.setBuf c { s.buf c with qnext := some b })

/-- `iderw`, up to its first sleep, for the process `p`. -/
def iderw (p : ℕ) (b : Fin NBUF) (reading : Bool) (s : Sys) : Result :=
  if (s.buf b).busy = false then .fails (.panic "iderw: buf not busy")
  else if (s.buf b).synced then .fails (.panic "iderw: nothing to do")
  else if (s.buf b).dev ≠ 0 ∧ s.havedisk1 = false then
    .fails (.panic "iderw: ide disk 1 not present")
  else
    match enqueue b s with
    | none => .fails .loops
    | some s =>
      if s.idequeue = some b then
        match idestart (s.buf b) s.ide with
        | .error e => .fails e
        | .ok ide => iderwTest p b reading { s with ide := ide }
      else iderwTest p b reading s

/-- `ideintr`; `err` says that `idewait(1)` finds an error. -/
def ideintr (err : Bool) (s : Sys) : Result :=
  match s.idequeue with
  | none => .goes s []
  | some b =>
    let s := { s with idequeue := (s.buf b).qnext }
    -- Read data if needed.
    let s :=
      if (s.buf b).dirty = false then
        let s := { s with ide := s.ide.idewait }
        if err then s else s.setBuf b { s.buf b with data := s.ide.fetched }
      else s
    let s := (s.setBuf b { s.buf b with valid := true, dirty := false }).wakeup b
    -- Start disk on next buf in queue.
    match s.idequeue with
    | none => .goes s []
    | some c =>
      match idestart (s.buf c) s.ide with
      | .error e => .fails e
      | .ok ide => .goes { s with ide := ide } []

/-! ## Actions -/

/-- The actions of the system. -/
inductive Act
  /-- a process calls `bread` -/
  | bread (p : ℕ) (dev blockno : UInt32)
  /-- a process changes the bytes of a buffer -/
  | store (p : ℕ) (b : Fin NBUF) (data : Data)
  /-- `b->flags |= B_DIRTY` in `log_write` -/
  | logWrite (p : ℕ) (b : Fin NBUF)
  /-- a process calls `bwrite` -/
  | bwrite (p : ℕ) (b : Fin NBUF)
  /-- a process calls `brelse` -/
  | brelse (p : ℕ) (b : Fin NBUF)
  /-- a process that is in `bread` or `bwrite` goes on -/
  | run (p : ℕ)
  /-- a process is woken for another reason -/
  | wake (p : ℕ)
  /-- the controller carries out its command -/
  | disk
  /-- an interrupt of the controller -/
  | ideintr (err : Bool)

/-- A process may use a buffer that it has got. -/
def Sys.mayUse (p : ℕ) (b : Fin NBUF) (s : Sys) : Prop :=
  (s.threads p).pc = .caller ∧ b ∈ (s.threads p).held

instance (p : ℕ) (b : Fin NBUF) (s : Sys) : Decidable (s.mayUse p b) :=
  inferInstanceAs (Decidable (_ ∧ _))

/-- What an action does. -/
def step : Act → Sys → Result
  | .bread p dev blockno, s =>
    if (s.threads p).pc = .caller then .goes (s.goto p (.bget dev blockno)) [] else .off
  | .store p b data, s =>
    if s.mayUse p b then
      let t := s.threads p
      .goes ((s.setBuf b { s.buf b with data := data }).setThread p
        { t with unsaved := Insert.insert b t.unsaved }) [.write p (s.buf b).key data]
    else .off
  | .logWrite p b, s =>
    if s.mayUse p b then
      let t := s.threads p
      .goes ((s.setBuf b { s.buf b with dirty := true }).setThread p
        { t with unsaved := t.unsaved.erase b }) []
    else .off
  | .bwrite p b, s =>
    if s.mayUse p b then
      if (s.buf b).busy = false then .fails (.panic "bwrite")
      else
        let t := s.threads p
        .goes ((s.setBuf b { s.buf b with dirty := true }).setThread p
          { t with pc := .iderw b false, unsaved := t.unsaved.erase b }) []
    else .off
  | .brelse p b, s =>
    if s.mayUse p b ∧ b ∉ (s.threads p).unsaved then brelse p b s else .off
  | .run p, s =>
    match (s.threads p).pc with
    | .bget dev blockno => bget p dev blockno s
    | .bread b =>
      if (s.buf b).valid = false then .goes (s.goto p (.iderw b true)) [] else leave p b true s
    | .iderw b reading => iderw p b reading s
    | .iderwTest b reading => iderwTest p b reading s
    | _ => .off
  | .wake p, s =>
    match (s.threads p).pc with
    | .bgetSleep _ dev blockno => .goes (s.goto p (.bget dev blockno)) []
    | .iderwSleep b reading => .goes (s.goto p (.iderwTest b reading)) []
    | _ => .off
  | .disk, s => .goes { s with ide := s.ide.idewait } []
  | .ideintr err, s => ideintr err s

end HgXv6.Bio
