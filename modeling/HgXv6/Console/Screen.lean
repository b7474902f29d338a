import HgXv6.Base
import HgXv6.Lib.Outcome
import Mathlib.Logic.Function.Basic

set_option relaxedAutoImplicit false
set_option autoImplicit false

/-!
# The console screen

The text-mode display memory and the cursor register, and the kernel functions that draw
(`console.c`), together with the system calls that reach them (`sysfile.c`). The cursor is one
number, `80 * row + column`, kept in the display controller. Only the first `25 * 80` cells of
the display memory are shown.

A C `int` handed to `cgaputc` is either a byte or the code `BACKSPACE`, which lies outside the
byte range; a byte that was sign-extended on the way loses its sign again in `c & 0xff`.

## Main definitions

* `HgXv6.Cga` — display memory, cursor, and how often the screen has scrolled.
* `HgXv6.cgaputc`, `HgXv6.setCursorPos`, `HgXv6.writeAt`, `HgXv6.copyFromTextToScreen`,
  `HgXv6.clearScreen`, `HgXv6.consolewrite` — the kernel functions.
* `HgXv6.sysSetCursorPos`, `HgXv6.sysWriteAt`, `HgXv6.sysCopyFromTextToScreen`,
  `HgXv6.sysClearScreen` — their system calls, with the arguments `argint` and `argstr` fetched.
-/

namespace HgXv6

open Prog

/-- One cell of the display memory: the character and its attribute byte. -/
structure Cell where
  ch : UInt8
  attr : UInt8
deriving DecidableEq

/-- The display controller. -/
structure Cga where
  /-- `crt[]`, the display memory -/
  crt : ℕ → Cell
  /-- the cursor register: column + 80 * row -/
  pos : ℕ
  /-- how many times the screen has scrolled; no code reads it -/
  scrolls : ℕ := 0

/-- What `cgaputc` is asked to draw. -/
inductive Glyph
  | byte (b : UInt8)
  /-- `#define BACKSPACE 0x100` -/
  | backspace
deriving DecidableEq

namespace Cga

/-- `crt[pos++] = (c & 0xff) | 0x0700;` -/
def put (b : UInt8) (s : Cga) : Cga :=
  { s with crt := Function.update s.crt s.pos ⟨b, 7⟩, pos := s.pos + 1 }

/-- `crt[pos] = ' ' | 0x0700;` -/
def blank (s : Cga) : Cga :=
  { s with crt := Function.update s.crt s.pos ⟨SPACE, 7⟩ }

/-- Scroll up: the rows 1 to 24 move up by one, and the cells from the cursor's new position to
the end of the screen are zeroed. -/
def scrollUp (s : Cga) : Cga where
  crt i :=
    if s.pos - 80 ≤ i ∧ i < 25 * 80 then ⟨0, 0⟩
    else if i < 24 * 80 then s.crt (i + 80)
    else s.crt i
  pos := s.pos - 80
  scrolls := s.scrolls + 1

end Cga

/-- The first half of `cgaputc`: draw the character and move the cursor. -/
def cgaDraw (c : Glyph) (s : Cga) : Cga :=
  match c with
  | .backspace => if 0 < s.pos then { s with pos := s.pos - 1 } else s
  | .byte b =>
    if b = NL then { s with pos := s.pos + (80 - s.pos % 80) }
    else if b = TAB then (((s.put SPACE).put SPACE).put SPACE).put SPACE
    else s.put b

/-- `cgaputc`: draw, panic if the cursor has left the screen, scroll if it is below the last
row, and blank the cell under it. -/
def cgaputc (c : Glyph) (s : Cga) : Except Stop Cga :=
  let s := cgaDraw c s
  if 25 * 80 < s.pos then .error (.panic "pos under/overflow")
  else
    let s := if s.pos / 80 > 24 then s.scrollUp else s
    .ok s.blank

/-- `consputc`, less the copy it sends to the serial port. -/
def consputc (c : Glyph) (s : Cga) : Except Stop Cga := cgaputc c s

/-- `consolewrite`: the bytes of the buffer one after the other. -/
def consolewrite : List UInt8 → Cga → Except Stop Cga
  | [], s => .ok s
  | b :: bs, s => consputc (.byte b) s >>= consolewrite bs

/-- `clearScreen`: zero the cells of the screen and put the cursor at its first one. -/
def clearScreen (s : Cga) : Cga :=
  Cga.blank { s with crt := fun i => if i < 25 * 80 then ⟨0, 0⟩ else s.crt i, pos := 0 }

/-- The cleared screen, cursor at its first cell. -/
def clearedScreen : Cga := clearScreen { crt := fun _ => ⟨0, 0⟩, pos := 0 }

/-- `setCursorPos`: panic outside the screen, else move the cursor and light the cell there. -/
def setCursorPos (x y : ℤ) (s : Cga) : Except Stop Cga :=
  if x < 0 ∨ x > 24 ∨ y < 0 ∨ y > 79 then
    .error (.panic "In console.c(setCursorPos(int,int) ), x or y under/overflow\n")
  else
    let pos := (x * 80 + y).toNat
    .ok { s with
      pos := pos
      crt := Function.update s.crt pos { s.crt pos with attr := (s.crt pos).attr ||| 7 } }

/-- `writeAt`: draw `c` at row `x`, column `y`. -/
def writeAt (x y : ℤ) (c : UInt8) (s : Cga) : Except Stop Cga :=
  setCursorPos x y s >>= cgaputc (.byte c)

/-- The loop of `copyFromTextToScreen` from the pointer `p`, with at most `n` characters to go:
it ends at a NUL, in the last cell of the screen, and before a newline on the last row. -/
def copyLoop (m : ℤ → UInt8) (p : ℤ) : ℕ → Cga → Except Stop Cga
  | 0, s => .ok s
  | n + 1, s =>
    if m p = NUL then .ok s
    else cgaputc (.byte (m p)) s >>= fun s =>
      if s.pos = 25 * 80 - 1 ∨ 24 * 80 ≤ s.pos ∧ m (p + 1) = NL then .ok s
      else copyLoop m (p + 1) n s

/-- `copyFromTextToScreen`: draw at most `len` characters of the string at `text` from the
screen position `pos` on. -/
def copyFromTextToScreen (m : ℤ → UInt8) (text pos len : ℤ) (s : Cga) : Except Stop Cga :=
  setCursorPos (pos.tdiv 80) (pos.tmod 80) s >>= copyLoop m text len.toNat

/-! ## System calls

A fetched argument is `some`; when `argint` or `argstr` fails the call returns `-1` and draws
nothing. -/

/-- The conversion `(char)c` of a C `int`. -/
def toByte (c : ℤ) : UInt8 := UInt8.ofNat (c % 256).toNat

/-- `sys_setCursorPos` -/
def sysSetCursorPos (x y : Option ℤ) (s : Cga) : Except Stop Cga :=
  match x, y with
  | some x, some y => setCursorPos x y s
  | _, _ => .ok s

/-- `sys_writeAt` -/
def sysWriteAt (x y c : Option ℤ) (s : Cga) : Except Stop Cga :=
  match x, y, c with
  | some x, some y, some c => writeAt x y (toByte c) s
  | _, _, _ => .ok s

/-- `sys_copyFromTextToScreen`; `m` is the memory of the calling process. -/
def sysCopyFromTextToScreen (m : ℤ → UInt8) (text pos len : Option ℤ) (s : Cga) :
    Except Stop Cga :=
  match text, pos, len with
  | some text, some pos, some len => copyFromTextToScreen m text pos len s
  | _, _, _ => .ok s

/-- `sys_clearScreen` -/
def sysClearScreen (s : Cga) : Except Stop Cga := .ok (clearScreen s)

end HgXv6
