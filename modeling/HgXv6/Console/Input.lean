import HgXv6.Console.Screen

set_option relaxedAutoImplicit false
set_option autoImplicit false

/-!
# Console input

The keyboard interrupt handler and the read routine of the console (`console.c`), which share a
ring of `INPUT_BUF` bytes with three indices: typed bytes are accepted at `e`, become readable
when `w` is moved up to `e`, and are taken at `r`.

Both routines hold `cons.lock`, which a reader gives up only while it sleeps; the two mode flags
are written without it. The actions of the system are therefore one pass of the interrupt
handler's loop, one stretch of a reader from taking the lock to sleeping or returning, and a
change of a flag. In between, other processes run: any list of actions is a schedule.

Every action also reports what it did to the ring, as a list of events.

## Main definitions

* `HgXv6.Console` — the ring, the mode flags and the screen that echoes.
* `HgXv6.consoleintrByte`, `HgXv6.consoleintr`, `HgXv6.consolereadLoop` — the routines.
* `HgXv6.ConsoleSystem`, `HgXv6.Action`, `HgXv6.ConsoleSystem.run` — schedules.
* `HgXv6.Line`, `HgXv6.lineOf` — what a list of events means for the bytes typed.
-/

namespace HgXv6

open Prog

/-- `#define INPUT_BUF 128` -/
abbrev INPUT_BUF : ℕ := 128

/-- `input`: the ring and its indices. -/
structure Input where
  buf : ℕ → UInt8
  /-- read index -/
  r : UInt32
  /-- write index -/
  w : UInt32
  /-- edit index -/
  e : UInt32

/-- The console: input ring, mode flags, screen. -/
structure Console where
  input : Input
  bufferFlag : ℤ := 1
  showAtonce : ℤ := 1
  cga : Cga

/-- What happens to the ring. -/
inductive Event
  /-- `input.buf[input.e++ % INPUT_BUF] = b` -/
  | accept (b : UInt8)
  /-- `input.e--` -/
  | erase
  /-- `input.w = input.e` -/
  | commit
  /-- `input.buf[input.r++ % INPUT_BUF]`, which was `b` -/
  | take (b : UInt8)
  /-- `input.r--` -/
  | putBack
deriving DecidableEq

/-- `bufferFlag = flag` -/
def setBufferFlag (flag : ℤ) (s : Console) : Console := { s with bufferFlag := flag }

/-- `showAtonce = flag` -/
def setShowAtOnce (flag : ℤ) (s : Console) : Console := { s with showAtonce := flag }

/-! ## The interrupt handler -/

/-- `input.e--; consputc(BACKSPACE);` -/
def eraseOne (s : Console) : Except Stop (Console × List Event) :=
  consputc .backspace s.cga >>= fun cga =>
    .ok ({ s with input := { s.input with e := s.input.e - 1 }, cga := cga }, [.erase])

/-- The loop of Ctrl-U, at most `n` times: erase back to a newline or to the write index. -/
def killLine : ℕ → Console → Except Stop (Console × List Event)
  | 0, s => .ok (s, [])
  | n + 1, s =>
    if s.input.e ≠ s.input.w ∧ s.input.buf ((s.input.e - 1).toNat % INPUT_BUF) ≠ NL then
      eraseOne s >>= fun x => killLine n x.1 >>= fun y => .ok (y.1, x.2 ++ y.2)
    else .ok (s, [])

/-- `input.buf[input.e++ % INPUT_BUF] = c;` -/
def acceptByte (c : UInt8) (s : Input) : Input :=
  { s with buf := Function.update s.buf (s.e.toNat % INPUT_BUF) c, e := s.e + 1 }

/-- The default case: store the byte if the ring has room, echo it, and make the line readable
if it is complete, if the ring is full, or if the console does not buffer. -/
def acceptCase (c : UInt8) (s : Console) : Except Stop (Console × List Event) :=
  if c ≠ 0 ∧ (s.input.e - s.input.r).toNat < INPUT_BUF then
    let c := if c = chr '\r' then NL else c
    let s := { s with input := acceptByte c s.input }
    (if s.showAtonce ≠ 0 then consputc (.byte c) s.cga else .ok s.cga) >>= fun cga =>
      let s := { s with cga := cga }
      if s.bufferFlag = 0 ∨ c = NL ∨ c = ctrl 'D' ∨ s.input.e = s.input.r + 128 then
        .ok ({ s with input := { s.input with w := s.input.e } }, [.accept c, .commit])
      else .ok (s, [.accept c])
  else .ok (s, [])

/-- One pass of the loop of `consoleintr`: the byte `c` from the keyboard or the serial port.
The listing of processes that Ctrl-P asks for is printed after the loop. -/
def consoleintrByte (c : UInt8) (s : Console) : Except Stop (Console × List Event) :=
  if c = ctrl 'P' then .ok (s, [])
  else if c = ctrl 'U' then killLine (s.input.e - s.input.w).toNat s
  else if c = ctrl 'H' ∨ c = 0x7f then
    if s.input.e ≠ s.input.w then eraseOne s else .ok (s, [])
  else acceptCase c s

/-- `consoleintr`: all the bytes that are waiting. -/
def consoleintr : List UInt8 → Console → Except Stop (Console × List Event)
  | [], s => .ok (s, [])
  | c :: cs, s =>
    consoleintrByte c s >>= fun x => consoleintr cs x.1 >>= fun y => .ok (y.1, x.2 ++ y.2)

/-! ## Reading -/

/-- The locals of a call of `consoleread`: how many bytes are still wanted, how many were asked
for, and what has been stored. -/
structure Reader where
  n : ℕ
  target : ℕ
  dst : List UInt8

/-- How a stretch of `consoleread` ends: asleep until there is input, or with a result. -/
inductive ReadResult
  | asleep (rd : Reader)
  | returned (dst : List UInt8) (result : ℤ)

/-- What has been stored for the caller so far. -/
def ReadResult.dst : ReadResult → List UInt8
  | .asleep rd => rd.dst
  | .returned dst _ => dst

/-- The locals on entry, `n` bytes asked for. -/
def Reader.start (n : ℤ) : Reader := { n := n.toNat, target := n.toNat, dst := [] }

/-- `return target - n;` -/
def Reader.finish (rd : Reader) : ReadResult := .returned rd.dst (rd.target - rd.n)

/-- The loop of `consoleread` for a process that has been killed or not, with `rd.n` passed as
the bound on its passes. -/
def consolereadLoop (killed : Bool) : ℕ → Reader → Console → ReadResult × Console × List Event
  | 0, rd, s => (rd.finish, s, [])
  | k + 1, rd, s =>
    if s.input.r = s.input.w then
      (if killed then .returned rd.dst (-1) else .asleep rd, s, [])
    else
      let c := s.input.buf (s.input.r.toNat % INPUT_BUF)
      let s := { s with input := { s.input with r := s.input.r + 1 } }
      if c = ctrl 'D' then
        -- end of file: kept for the next call if this one has read something
        if rd.n < rd.target then
          (rd.finish, { s with input := { s.input with r := s.input.r - 1 } },
            [.take c, .putBack])
        else (rd.finish, s, [.take c])
      else
        let rd := { rd with n := rd.n - 1, dst := rd.dst ++ [c] }
        if c = NL then (rd.finish, s, [.take c])
        else
          let x := consolereadLoop killed k rd s
          (x.1, x.2.1, .take c :: x.2.2)

/-- `consoleread` of `n` bytes, up to its first sleep. -/
def consoleread (killed : Bool) (n : ℤ) (s : Console) : ReadResult × Console × List Event :=
  consolereadLoop killed n.toNat (Reader.start n) s

/-! ## Schedules -/

/-- The console and the calls of `consoleread` that are asleep, by process. -/
structure ConsoleSystem where
  console : Console
  readers : ℕ → Option Reader

/-- One action of the system. -/
inductive Action
  /-- one byte reaches the interrupt handler -/
  | intr (c : UInt8)
  /-- process `id` calls `consoleread` -/
  | read (id : ℕ) (n : ℤ) (killed : Bool)
  /-- process `id` wakes up in `consoleread` -/
  | wake (id : ℕ) (killed : Bool)
  | setBufferFlag (flag : ℤ)
  | setShowAtOnce (flag : ℤ)

namespace ConsoleSystem

/-- The system after a stretch of process `id` in `consoleread`. -/
def afterRead (s : ConsoleSystem) (id : ℕ) (x : ReadResult × Console × List Event) :
    ConsoleSystem × List Event :=
  ({ console := x.2.1
     readers := Function.update s.readers id
       (match x.1 with | .asleep rd => some rd | .returned _ _ => none) }, x.2.2)

/-- What an action does. A process cannot call while it sleeps, nor wake while it does not. -/
def step (s : ConsoleSystem) : Action → Except Stop (ConsoleSystem × List Event)
  | .intr c => consoleintrByte c s.console >>= fun x => .ok ({ s with console := x.1 }, x.2)
  | .read id n killed =>
    match s.readers id with
    | some _ => .error .blocked
    | none => .ok (s.afterRead id (consoleread killed n s.console))
  | .wake id killed =>
    match s.readers id with
    | none => .error .blocked
    | some rd => .ok (s.afterRead id (consolereadLoop killed rd.n rd s.console))
  | .setBufferFlag f => .ok ({ s with console := HgXv6.setBufferFlag f s.console }, [])
  | .setShowAtOnce f => .ok ({ s with console := HgXv6.setShowAtOnce f s.console }, [])

/-- A schedule, and all the events of its actions. -/
def run (s : ConsoleSystem) : List Action → Except Stop (ConsoleSystem × List Event)
  | [] => .ok (s, [])
  | a :: as => s.step a >>= fun x => run x.1 as >>= fun y => .ok (y.1, x.2 ++ y.2)

/-- What an action stores for the callers of `consoleread`. -/
def storedBy (s : ConsoleSystem) : Action → List UInt8
  | .read id n killed =>
    match s.readers id with
    | some _ => []
    | none => (consoleread killed n s.console).1.dst
  | .wake id killed =>
    match s.readers id with
    | none => []
    | some rd => (consolereadLoop killed rd.n rd s.console).1.dst.drop rd.dst.length
  | _ => []

/-- What a schedule stores for them, one call after the other as they get on. -/
def stored (s : ConsoleSystem) : List Action → List UInt8
  | [] => []
  | a :: as =>
    match s.step a with
    | .ok x => s.storedBy a ++ stored x.1 as
    | .error _ => []

/-- The console at rest: nothing typed, nobody reading, all indices at `i`. -/
def start (i : UInt32) (buf : ℕ → UInt8) (cga : Cga) : ConsoleSystem where
  console := { input := { buf := buf, r := i, w := i, e := i }, cga := cga }
  readers _ := none

end ConsoleSystem

/-! ## What the events mean -/

/-- The bytes of the typed line: not yet committed, committed so far, taken so far. -/
structure Line where
  pending : List UInt8
  committed : List UInt8
  taken : List UInt8

namespace Line

/-- The effect of one event. -/
def apply (l : Line) : Event → Line
  | .accept b => { l with pending := l.pending ++ [b] }
  | .erase => { l with pending := l.pending.dropLast }
  | .commit => { l with pending := [], committed := l.committed ++ l.pending }
  | .take b => { l with taken := l.taken ++ [b] }
  | .putBack => { l with taken := l.taken.dropLast }

end Line

/-- The line after a list of events, from one where nothing has been typed. -/
def lineOf (evs : List Event) : Line := evs.foldl Line.apply ⟨[], [], []⟩

end HgXv6
