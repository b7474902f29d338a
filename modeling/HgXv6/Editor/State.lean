import HgXv6.Console.Screen
import HgXv6.Lib.Loop
import HgXv6.Lib.Memory

set_option relaxedAutoImplicit false
set_option autoImplicit false

/-!
# The editor's state

The globals of `vi.c`, its static locals, and what it sees of the system: the console screen,
the file system behind `open`, `write` and `close`, and the results of its one-byte reads.

Pointers into the text are offsets from `text`, so that `text` itself is `0`. They are integers:
a deletion from an empty buffer moves `end` below `text`. The memory around the buffer is a
function of the offset.

`read(0,&c,1)` stores a byte or, at end of file, returns 0 and leaves `c` as it is. A local that
has no value yet then holds whatever was on the stack, which is part of the model of that read.

## Main definitions

* `HgXv6.Vi` — the state.
* `HgXv6.Sys` — the file system calls.
* `HgXv6.Read`, `HgXv6.Act` — what the reads return, and what is done with the bytes.
-/

namespace HgXv6

open Prog

/-- `rows = 24` -/
abbrev rows : ℕ := 24

/-- `columns = 80` -/
abbrev columns : ℕ := 80

/-- `TabLength = 4` -/
abbrev TabLength : ℕ := 4

/-- `#define findStringLength 32` -/
abbrev findStringLength : ℕ := 32

/-- `#define VI_K_ESC 27` -/
abbrev VI_K_ESC : UInt8 := 27

/-- The result of `read(0,&c,1)`. -/
inductive Read
  /-- one byte was delivered -/
  | byte (b : UInt8)
  /-- no byte was delivered; a local without a value holds `junk` -/
  | zero (junk : UInt8)
deriving DecidableEq

/-- The local `c` after the read, from its value before, if it has one. -/
def Read.into (r : Read) (c : Option UInt8) : UInt8 :=
  match r with
  | .byte b => b
  | .zero junk => c.getD junk

/-- What the editor has done: which reader acted on which byte, and how a save ended. -/
inductive Act
  /-- the main loop executed `doCmd(c)` -/
  | exec (c : UInt8)
  /-- insert mode acted on `c` -/
  | insert (c : UInt8)
  /-- replace mode acted on `c` -/
  | replace (c : UInt8)
  /-- a command that reads an argument, or a prompt, acted on `c` -/
  | arg (c : UInt8)
  /-- `file_save` was called; whether `open` and `write` succeeded -/
  | save (ok : Bool)
deriving DecidableEq

/-- The file system calls of the editor, on a system in state `W`. -/
structure Sys (W : Type) where
  /-- `stat(fn,&st)`: the size of the file, or `none` for `-1` -/
  stat : W → List UInt8 → Option ℕ
  /-- `open(fn,O_RDWR)` or `open(fn,O_RDONLY)`, then `read` of at most `n` bytes -/
  load : W → List UInt8 → ℤ → Option (List UInt8)
  /-- `open(cfn,O_WRONLY|O_CREATE)` -/
  openSave : W → List UInt8 → ℤ × W
  /-- `write(fd,buf,n)` -/
  write : W → ℤ → List UInt8 → ℤ × W
  /-- `close(fd)` -/
  close : W → ℤ → W

/-- The globals and static locals of `vi.c`, and the system around it. -/
structure Vi (W : Type) where
  mem : ℤ → UInt8
  /-- `end`: one past the last character of the text -/
  endp : ℤ
  textend : ℤ
  screenbegin : ℤ
  dot : ℤ
  editing : Bool
  hasChanged : Bool
  /-- the file name, or `none` for `NULL` -/
  cfn : Option (List UInt8)
  /-- `syn_screenbegin` of `synchronize`, or `none` for `0` -/
  synScreenbegin : Option ℤ
  /-- `lastFindChar` of `doCmd` -/
  lastFindChar : UInt8
  /-- `lastFindString` of `doCmd` -/
  lastFindString : List UInt8
  cga : Cga
  world : W
  /-- what has been done so far; no code reads it -/
  trace : List Act

variable {W : Type}

namespace Vi

/-- The text: the bytes from `text` to `end`. -/
def text (s : Vi W) : List UInt8 := bytes s.mem 0 s.endp.toNat

/-- Record what is being done. -/
def act (a : Act) (s : Vi W) : Vi W := { s with trace := s.trace ++ [a] }

/-- A system call that draws on the console. -/
def draw (f : Cga → Except Stop Cga) (s : Vi W) : Except Stop (Vi W) :=
  f s.cga >>= fun cga => .ok { s with cga := cga }

end Vi

/-! ## Characters -/

/-- `isPrintChar`: printable, newline or tab. -/
def isPrintChar (c : UInt8) : Bool :=
  decide (chr ' ' ≤ c ∧ c ≤ chr '~') || c == NL || c == TAB

/-- `isSpace`: newline, tab or space. -/
def isSpace (c : UInt8) : Bool := c == NL || c == TAB || c == SPACE

/-- `toLowerCase` -/
def toLowerCase (c : UInt8) : UInt8 :=
  if chr 'A' ≤ c ∧ c ≤ chr 'Z' then c + (chr 'a' - chr 'A') else c

/-- `toUpperCase` -/
def toUpperCase (c : UInt8) : UInt8 :=
  if chr 'a' ≤ c ∧ c ≤ chr 'z' then c - (chr 'a' - chr 'A') else c

/-- `reverseChar`: the other case of a letter. -/
def reverseChar (c : UInt8) : UInt8 :=
  if chr 'A' ≤ c ∧ c ≤ chr 'Z' then toLowerCase c
  else if chr 'a' ≤ c ∧ c ≤ chr 'z' then toUpperCase c
  else c

/-- `equal`: whether the string `s` starts at `p`. -/
def equal (m : ℤ → UInt8) : ℤ → List UInt8 → Bool
  | _, [] => true
  | p, c :: s => m p == c && equal m (p + 1) s

/-! ## Lines -/

/-- `begin_line`: the start of the line of `p`. -/
def beginLine (m : ℤ → UInt8) (p : ℤ) : ℤ := scanDown (fun q => m (q - 1) == NL) 0 p

/-- `end_line`: the newline that ends the line of `p`, or the last character. -/
def endLine (m : ℤ → UInt8) (e p : ℤ) : ℤ := scanUp (fun q => m q == NL) (e - 1) p

/-- `prev_line`: the start of the line before the line of `p`. -/
def prevLine (m : ℤ → UInt8) (p : ℤ) : ℤ :=
  let p := beginLine m p
  let p := if p > 0 ∧ m (p - 1) = NL then p - 1 else p
  beginLine m p

/-- `next_line`: the start of the line after the line of `p`. -/
def nextLine (m : ℤ → UInt8) (e p : ℤ) : ℤ :=
  let p := endLine m e p
  if p < e - 1 ∧ m p = NL then p + 1 else p

end HgXv6
