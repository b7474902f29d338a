import Mathlib.Data.Int.Order.Basic

set_option relaxedAutoImplicit false
set_option autoImplicit false

/-!
# Bytes, strings and the ways a program stops short

The kernel's console code and the editor are modelled as functions into `Except Stop`. A C
`char` is a `UInt8`: on the signed `char` of the compiler the bytes from 128 on are negative and
fail every range test of the source, and they fail the same tests read as `UInt8`.

## Main definitions

* `HgXv6.Stop` — why a computation did not end normally.
* `HgXv6.chr`, `HgXv6.str` — the bytes of character and string literals.
-/

namespace HgXv6

/-- Why a computation did not end normally. -/
inductive Stop
  /-- a loop is still running after the allowed number of iterations -/
  | loops
  /-- `read` waits for a key -/
  | blocked
  /-- the kernel called `panic` with this message -/
  | panic (msg : String)
  /-- the processor raised a divide error -/
  | trap
deriving DecidableEq, Repr

/-- The byte of a character literal. -/
def chr (c : Char) : UInt8 := c.toUInt8

/-- The bytes of a string literal. -/
def str (s : String) : List UInt8 := s.toList.map chr

/-- `'\n'` -/
abbrev NL : UInt8 := 10

/-- `'\t'` -/
abbrev TAB : UInt8 := 9

/-- `' '` -/
abbrev SPACE : UInt8 := 32

/-- `'\0'` -/
abbrev NUL : UInt8 := 0

/-- A key with the control key held: `#define C(x) ((x)-'@')`. -/
def ctrl (c : Char) : UInt8 := chr c - chr '@'

end HgXv6
