import HgXv6.Editor.Display
import HgXv6.Editor.Motion

set_option relaxedAutoImplicit false
set_option autoImplicit false

/-!
# Commands

The functions of `vi.c` that change the text, search it, read prompts and save the file, the
command dispatcher `doCmd`, and the main loop.

The keys are a list of the results of the editor's one-byte reads, oldest first; a command that
reads keys of its own returns the keys it leaves. Each loop over keys recurses on that list, and
when it is empty the editor is blocked in `read`.

## Main definitions

* `HgXv6.makeHoleDelete`, `HgXv6.makeHoleAdd` — the primitives that change the text.
* `HgXv6.findChar`, `HgXv6.search` — the searches.
* `HgXv6.fileSave`, `HgXv6.colon`, `HgXv6.insert`, `HgXv6.doCmd` — prompts, modes and commands.
* `HgXv6.editFile`, `HgXv6.mainIter` — loading a file, and one pass of the main loop.
* `HgXv6.Config`, `HgXv6.Step`, `HgXv6.Run` — runs of the editor.
-/

namespace HgXv6

open Prog

variable {W : Type}

/-! ## Changing the text -/

/-- `make_hole_delete`: remove the characters from `a` to `b`, both included, in either order.
`memmove` returns its first argument, so the branch that reports an error is never taken. -/
def makeHoleDelete (a b : ℤ) (s : Vi W) : Vi W :=
  let (a, b) := if a > b then (b, a) else (a, b)
  { s with mem := copyUp s.mem a (b + 1) (s.endp - b).toNat, endp := s.endp - (b - a + 1) }

/-- `make_hole_add`: `n` spaces before `p`, or nothing if the buffer is too small. -/
def makeHoleAdd (p : ℤ) (n : ℕ) (s : Vi W) : Vi W :=
  if s.endp + n > s.textend then s
  else { s with
    mem := fill (copyDown s.mem (p + n) p (s.endp - p + 1).toNat) p SPACE n
    endp := s.endp + n }

/-- `*p = c` -/
def store (p : ℤ) (c : UInt8) (s : Vi W) : Vi W := { s with mem := Function.update s.mem p c }

/-- `dot_delete` -/
def dotDelete (fuel : ℕ) (s : Vi W) : Except Stop (Vi W) :=
  redraw fuel (makeHoleDelete s.dot s.dot s)

/-! ## Searching -/

/-- `findChar`: the pointer it returns. The loop runs at most once for each character after
`dot` on its line, and leaves its pointer on the end of the line if nothing is found. -/
def findChar (fuel : ℕ) (c : UInt8) (s : Vi W) : Except Stop (ℤ × Vi W) :=
  let lineEnd := endLine s.mem s.endp s.dot
  let x := iterWhile (fun x : ℤ × Bool => !x.2 && decide (x.1 < lineEnd))
    (fun x => (x.1 + 1, s.mem (x.1 + 1) == c)) (lineEnd - s.dot + 1).toNat (s.dot, false)
  if x.1 = lineEnd then
    synchronize fuel s >>= fun s =>
    printOnStatusLine (str "last one same char") s >>= fun s =>
    .ok (s.dot, s)
  else .ok (x.1, s)

/-- What tells `findString` and `reverseFindString` apart: where the search turns round, where
it goes on from there, its step, and its message. -/
structure Direction where
  edge : ℤ → ℤ
  restart : ℤ → ℤ
  step : ℤ
  msg : List UInt8

/-- `findString` -/
def forward : Direction where
  edge e := e - 1
  restart _ := 0
  step := 1
  msg := str "search hit BOTTOM, continuing at TOP"

/-- `reverseFindString` -/
def backward : Direction where
  edge _ := 0
  restart e := e - 1
  step := -1
  msg := str "search hit TOP, continuing at BOTTOM"

/-- One pass of the loop of a search for `pat`, on the pointer `p` and the number `count` of
times it has turned round. The loop is left with the pointer to return. -/
def searchBody (fuel : ℕ) (dir : Direction) (pat : List UInt8) (x : Vi W × ℤ × ℕ) :
    Except Stop ((Vi W × ℤ × ℕ) × Bool) :=
  let (s, p, count) := x
  if p = dir.edge s.endp ∧ count = 1 then .ok ((s, s.dot, count), false)
  else
    (if p = dir.edge s.endp then
      printOnStatusLine dir.msg s >>= synchronize fuel >>= redraw fuel >>= fun s =>
      .ok (s, dir.restart s.endp, count + 1)
    else .ok (s, p, count)) >>= fun (s, p, count) =>
    let p := p + dir.step
    if equal s.mem p pat then .ok ((s, p, count), false)
    else if p = s.dot then
      printOnStatusLine (str "Pattern not found") s >>= fun s => .ok ((s, s.dot, count), false)
    else .ok ((s, p, count), true)

/-- `findString` or `reverseFindString`: the pointer it returns. -/
def search (fuel : ℕ) (dir : Direction) (pat : List UInt8) (s : Vi W) :
    Except Stop (ℤ × Vi W) :=
  loopFuel .loops (searchBody fuel dir pat) fuel (s, s.dot, 0) >>= fun (s, p, _) => .ok (p, s)

/-- The commands `n` and `N`. -/
def searchAgain (fuel : ℕ) (dir : Direction) (s : Vi W) : Except Stop (Vi W) :=
  if s.lastFindString = [] then
    printOnStatusLine (str "No previous regular expression") s
  else
    search fuel dir s.lastFindString s >>= fun (p, s) =>
    synchronize fuel { s with dot := p } >>= fun s =>
    printReport (chr '/' :: s.lastFindString) s

/-! ## Saving -/

/-- The bytes `file_save` passes to `write`: `end - text + 1` of them. -/
def saveBytes (s : Vi W) : List UInt8 := bytes s.mem 0 (s.endp + 1).toNat

/-- `file_save` and its result. -/
def fileSave (sys : Sys W) (s : Vi W) : Except Stop (ℤ × Vi W) :=
  match s.cfn with
  | none => printOnStatusLine (str "No current filename!!!") s >>= fun s => .ok (-1, s)
  | some cfn =>
    let (fd, w) := sys.openSave s.world cfn
    if fd < 0 then .ok (-1, ({ s with world := w }).act (.save false))
    else
      let cnt := s.endp + 1
      let (resCnt, w) := sys.write w fd (saveBytes s)
      if resCnt ≠ cnt then
        printOnStatusLine (str "save error!!!") (({ s with world := w }).act (.save false)) >>=
          fun s => .ok (0, s)
      else .ok (resCnt, ({ s with world := sys.close w fd }).act (.save true))

/-! ## Reading keys -/

/-- The size of the array `order` of `colon`. -/
abbrev orderSize : ℕ := 11

/-- The loop of `colon` that reads the command into `order`. -/
def colonLoop : List Read → List UInt8 → Vi W → Except Stop (List UInt8 × List Read × Vi W)
  | [], _, _ => .error .blocked
  | r :: ks, order, s =>
    let c := r.into none
    let s := s.act (.arg c)
    if c = NL then .ok (order, ks, s)
    else s.draw (writeAt rows (order.length + 1) c) >>= fun s =>
      let order := order ++ [c]
      if order.length = orderSize - 1 then .ok (order, ks, s) else colonLoop ks order s

/-- The commands of `colon`, on the string in `order`. -/
def colonCommand (sys : Sys W) (order : List UInt8) (s : Vi W) : Except Stop (Vi W) :=
  if order = str "q!" then .ok { s with editing := false }
  else if order = str "q" then
    if s.hasChanged then
      printOnStatusLine (str "No write since last change (add ! to override)") s
    else .ok { s with editing := false }
  else if order = str "wq" then
    fileSave sys s >>= fun (_, s) => .ok { s with editing := false }
  else if order = str "w" then
    fileSave sys { s with hasChanged := false } >>= fun (_, s) => .ok s
  else if order = str "copyright" then printOnStatusLine (str "vi made by huanggang 2016150170") s
  else if order = str "hg" then printOnStatusLine (str "huanggang is smart and nice boy!") s
  else printOnStatusLine (str "wrong command!") s

/-- `colon`; `strcmp` sees the string up to its first NUL. -/
def colon (sys : Sys W) (ks : List Read) (s : Vi W) : Except Stop (List Read × Vi W) :=
  let pos := s.cga.pos
  printOnStatusLine [] s >>= fun s =>
  s.draw (writeAt rows 0 (chr ':')) >>= fun s =>
  colonLoop ks [] s >>= fun (order, ks, s) =>
  colonCommand sys (order.takeWhile (· ≠ NUL)) s >>= fun s =>
  moveCursor pos s >>= fun s => .ok (ks, s)

/-- The loop of the command `/` that reads the pattern, with the local `tmp`; no pattern if it
was cancelled. -/
def patternLoop : List Read → Option UInt8 → List UInt8 → Vi W →
    Except Stop (Option (List UInt8) × List Read × Vi W)
  | [], _, pat, s =>
    if pat.length < findStringLength - 1 then .error .blocked else .ok (some pat, [], s)
  | r :: ks, tmp, pat, s =>
    if pat.length < findStringLength - 1 then
      let c := r.into tmp
      let s := s.act (.arg c)
      if c = VI_K_ESC then
        printOnStatusLine (str "--COMMAND--") s >>= fun s => .ok (none, ks, s)
      else if c = NL then .ok (some pat, ks, s)
      else if 33 ≤ c ∧ c ≤ 126 then
        let pat := pat ++ [c]
        s.draw (writeAt rows (pat.length + 1) c) >>= fun s => patternLoop ks (some c) pat s
      else patternLoop ks (some c) pat s
    else .ok (some pat, r :: ks, s)

/-- The command `/`. -/
def slash (fuel : ℕ) (ks : List Read) (s : Vi W) : Except Stop (List Read × Vi W) :=
  let pos := s.cga.pos
  printOnStatusLine [] s >>= fun s =>
  s.draw (writeAt rows 0 (chr '/')) >>= fun s =>
  patternLoop ks none [] s >>= fun (pat, ks, s) =>
  match pat with
  | none => .ok (ks, s)
  | some pat =>
    moveCursor pos s >>= fun s =>
    let s := if pat ≠ [] then { s with lastFindString := pat } else s
    searchAgain fuel forward s >>= fun s => .ok (ks, s)

/-- What insert mode does to the text with a printable character: make room before the cursor,
store the character there and step on. -/
def typeText (c : UInt8) (s : Vi W) : Vi W :=
  let s := makeHoleAdd s.dot 1 s
  dotIncrease (store s.dot c s)

/-- What insert mode does with a printable character. -/
def typeChar (fuel : ℕ) (c : UInt8) (s : Vi W) : Except Stop (Vi W) :=
  redraw fuel (typeText c s) >>= synchronize fuel

/-- What insert mode does with the cursor keys. -/
def insertKey (c : UInt8) (s : Vi W) : Vi W :=
  match c with
  | 226 => (dotUp s).2      -- VI_K_UP
  | 227 => (dotDown s).2    -- VI_K_DOWN
  | 228 => dotLeft s        -- VI_K_LEFT
  | 229 => dotRight s       -- VI_K_RIGHT
  | 225 => dotLeft (dotTail s)  -- VI_K_END
  | _ => s

/-- The loop of `insert`, with the local `c`. -/
def insertLoop (fuel : ℕ) : List Read → Option UInt8 → Vi W →
    Except Stop (List Read × Vi W)
  | ks, c, s =>
    printOnStatusLine (str "--INSERT--") s >>= fun s =>
    match ks with
    | [] => .error .blocked
    | r :: ks =>
      let c := r.into c
      let s := s.act (.insert c)
      if c = VI_K_ESC then printOnStatusLine (str "--COMMAND--") s >>= fun s => .ok (ks, s)
      else if isPrintChar c then typeChar fuel c s >>= insertLoop fuel ks (some c)
      else synchronize fuel (insertKey c s) >>= insertLoop fuel ks (some c)

theorem insertLoop_nil (fuel : ℕ) (c : Option UInt8) (s : Vi W) :
    insertLoop fuel [] c s =
      (printOnStatusLine (str "--INSERT--") s >>= fun _ => .error .blocked) := rfl

theorem insertLoop_cons (fuel : ℕ) (r : Read) (ks : List Read) (c : Option UInt8) (s : Vi W) :
    insertLoop fuel (r :: ks) c s = (printOnStatusLine (str "--INSERT--") s >>= fun s =>
      let c := r.into c
      let s := s.act (.insert c)
      if c = VI_K_ESC then printOnStatusLine (str "--COMMAND--") s >>= fun s => .ok (ks, s)
      else if isPrintChar c then typeChar fuel c s >>= insertLoop fuel ks (some c)
      else synchronize fuel (insertKey c s) >>= insertLoop fuel ks (some c)) := rfl

/-- `insert` -/
def insert (fuel : ℕ) (ks : List Read) (s : Vi W) : Except Stop (List Read × Vi W) :=
  insertLoop fuel ks none { s with hasChanged := true } >>= fun (ks, s) =>
  printOnStatusLine [] s >>= fun s => .ok (ks, s)

/-- What the commands `r` and `R` do to the text with a printable character: store it under the
cursor and step on. -/
def overText (c : UInt8) (s : Vi W) : Vi W :=
  dotIncrease (store s.dot c { s with hasChanged := true })

/-- What the commands `r` and `R` do with a printable character. -/
def overtype (fuel : ℕ) (c : UInt8) (s : Vi W) : Except Stop (Vi W) := redraw fuel (overText c s)

/-- The loop of the command `R`, with the local `tmp`. -/
def replaceLoop (fuel : ℕ) : List Read → Option UInt8 → Vi W →
    Except Stop (List Read × Vi W)
  | ks, tmp, s =>
    printOnStatusLine (str "--REPLACE--") s >>= fun s =>
    match ks with
    | [] => .error .blocked
    | r :: ks =>
      let c := r.into tmp
      let s := s.act (.replace c)
      if c = VI_K_ESC then printOnStatusLine (str "--COMMAND--") s >>= fun s => .ok (ks, s)
      else if isPrintChar c then overtype fuel c s >>= replaceLoop fuel ks (some c)
      else replaceLoop fuel ks (some c) s

theorem replaceLoop_nil (fuel : ℕ) (tmp : Option UInt8) (s : Vi W) :
    replaceLoop fuel [] tmp s =
      (printOnStatusLine (str "--REPLACE--") s >>= fun _ => .error .blocked) := rfl

theorem replaceLoop_cons (fuel : ℕ) (r : Read) (ks : List Read) (tmp : Option UInt8) (s : Vi W) :
    replaceLoop fuel (r :: ks) tmp s = (printOnStatusLine (str "--REPLACE--") s >>= fun s =>
      let c := r.into tmp
      let s := s.act (.replace c)
      if c = VI_K_ESC then printOnStatusLine (str "--COMMAND--") s >>= fun s => .ok (ks, s)
      else if isPrintChar c then overtype fuel c s >>= replaceLoop fuel ks (some c)
      else replaceLoop fuel ks (some c) s) := rfl

/-- `read(0,&tmp,1)` of a command that reads one argument. -/
def readArg (ks : List Read) (s : Vi W) : Except Stop (UInt8 × List Read × Vi W) :=
  match ks with
  | [] => .error .blocked
  | r :: ks => .ok (r.into none, ks, s.act (.arg (r.into none)))

/-! ## The commands -/

/-- `printint`, base 10, signed. -/
def printint (x : ℤ) : List UInt8 :=
  (if x < 0 then [chr '-'] else []) ++ (Nat.toDigits 10 x.natAbs).map chr

/-- The report of Ctrl-G: `"%s %d/%d : %d%% has readed"`. -/
def statusReport (s : Vi W) : List UInt8 :=
  s.cfn.getD (str "(null)") ++ chr ' ' :: printint s.dot ++ chr '/' :: printint s.endp ++
    str " : " ++ printint ((s.dot * 100).tdiv s.endp) ++ str "% has readed"

/-- The command Ctrl-G; the division traps on an empty text. -/
def showStatus (s : Vi W) : Except Stop (Vi W) :=
  if s.endp = 0 then .error .trap else printReport (statusReport s) s

/-- The command `~`. -/
def toggleCase (s : Vi W) : Vi W :=
  dotIncrease (store s.dot (reverseChar (s.mem s.dot)) { s with hasChanged := true })

/-- The command `J`. -/
def joinLine (s : Vi W) : Vi W :=
  let p := endLine s.mem s.endp s.dot
  makeHoleDelete p p { s with hasChanged := true }

/-- The command `D`. -/
def deleteTail (s : Vi W) : Vi W :=
  let p := endLine s.mem s.endp s.dot
  if p - 1 ≥ s.dot then makeHoleDelete s.dot (p - 1) { s with hasChanged := true } else s

/-- The command `>`. -/
def indent (s : Vi W) : Vi W :=
  let p := beginLine s.mem s.dot
  store p TAB (makeHoleAdd p 1 { s with hasChanged := true })

/-- The command `<`. -/
def unindent (s : Vi W) : Vi W :=
  let p := beginLine s.mem s.dot
  if s.mem p = TAB then makeHoleDelete p p { s with hasChanged := true } else s

/-- The new line of the command `o`, and the cursor on it. -/
def openBelow (s : Vi W) : Vi W :=
  let p := nextLine s.mem s.endp s.dot
  (dotNextLine (store p NL (makeHoleAdd p 1 s))).2

/-- The new line of the command `O`, and the cursor on it. -/
def openAbove (s : Vi W) : Vi W :=
  let p := beginLine s.mem s.dot
  { store p NL (makeHoleAdd p 1 s) with dot := p }

/-- The commands of `doCmd`. -/
inductive Cmd
  | move (mv : Move)
  | find | findAgain | slash | next | prev
  | toggle | replace | replaceMode | del | deleteChar | join | deleteTail | indent | unindent
  | openBelow | openAbove | insert | insertHead | append | appendTail
  | colon | refresh | status | quit | other
deriving DecidableEq

/-- The labels of the `switch` of `doCmd`. -/
def keyCmd (c : UInt8) : Cmd :=
  if c = chr 'k' ∨ c = 226 then .move .up
  else if c = chr 'j' ∨ c = 227 ∨ c = 10 then .move .down
  else if c = chr 'h' ∨ c = 228 then .move .left
  else if c = chr 'l' ∨ c = 229 ∨ c = chr ' ' then .move .right
  else if c = chr '^' then .move .lineHead
  else if c = chr '$' ∨ c = 225 then .move .lineTail
  else if c = chr 'G' then .move .fileTail
  else if c = chr 'g' then .move .fileHead
  else if c = 230 then .move .pageUp
  else if c = 231 then .move .pageDown
  else if c = chr 'w' then .move .nextWordHead
  else if c = chr 'b' then .move .preWordHead
  else if c = chr 'e' then .move .nextWordTail
  else if c = chr 'L' then .move .low
  else if c = chr 'M' then .move .middle
  else if c = chr 'H' then .move .high
  else if c = chr 'f' then .find
  else if c = chr ';' then .findAgain
  else if c = chr '/' then .slash
  else if c = chr 'n' then .next
  else if c = chr 'N' then .prev
  else if c = chr '~' then .toggle
  else if c = chr 'r' then .replace
  else if c = chr 'R' then .replaceMode
  else if c = chr 'd' then .del
  else if c = chr 'x' ∨ c = 233 then .deleteChar
  else if c = chr 'J' then .join
  else if c = chr 'D' then .deleteTail
  else if c = chr '>' then .indent
  else if c = chr '<' then .unindent
  else if c = chr 'o' then .openBelow
  else if c = chr 'O' then .openAbove
  else if c = chr 'i' ∨ c = 232 then .insert
  else if c = chr 'I' then .insertHead
  else if c = chr 'a' then .append
  else if c = chr 'A' then .appendTail
  else if c = chr ':' then .colon
  else if c = 18 then .refresh
  else if c = 7 then .status
  else if c = chr 'Z' then .quit
  else .other

/-- The cases of `doCmd`. -/
def execCmd (sys : Sys W) (fuel : ℕ) (cmd : Cmd) (ks : List Read) (s : Vi W) :
    Except Stop (List Read × Vi W) :=
  match cmd with
  | .move mv => doMove fuel mv s >>= fun s => .ok (ks, s)
  | .find =>
    readArg ks s >>= fun (c, ks, s) =>
    if isPrintChar c then
      findChar fuel c { s with lastFindChar := c } >>= fun (p, s) => .ok (ks, { s with dot := p })
    else .ok (ks, s)
  | .findAgain =>
    if s.lastFindChar ≠ NUL then
      findChar fuel s.lastFindChar s >>= fun (p, s) => .ok (ks, { s with dot := p })
    else .ok (ks, s)
  | .slash => slash fuel ks s
  | .next => searchAgain fuel forward s >>= fun s => .ok (ks, s)
  | .prev => searchAgain fuel backward s >>= fun s => .ok (ks, s)
  | .toggle => .ok (ks, toggleCase s)
  | .replace =>
    readArg ks s >>= fun (c, ks, s) =>
    if isPrintChar c then overtype fuel c s >>= fun s => .ok (ks, s) else .ok (ks, s)
  | .replaceMode => replaceLoop fuel ks none { s with hasChanged := true }
  | .del => .ok (ks, { s with hasChanged := true })
  | .deleteChar => dotDelete fuel { s with hasChanged := true } >>= fun s => .ok (ks, s)
  | .join => .ok (ks, joinLine s)
  | .deleteTail => .ok (ks, deleteTail s)
  | .indent => .ok (ks, indent s)
  | .unindent => .ok (ks, unindent s)
  | .openBelow => redraw fuel (openBelow s) >>= synchronize fuel >>= insert fuel ks
  | .openAbove => redraw fuel (openAbove s) >>= synchronize fuel >>= insert fuel ks
  | .insert => insert fuel ks s
  | .insertHead => synchronize fuel (dotHead s) >>= insert fuel ks
  | .append => insert fuel ks (dotRight s)
  | .appendTail => synchronize fuel (dotDecrease (dotTail s)) >>= insert fuel ks
  | .colon => colon sys ks s
  | .refresh =>
    redraw fuel s >>= printOnStatusLine (str "Already at newest change") >>= fun s => .ok (ks, s)
  | .status => showStatus s >>= fun s => .ok (ks, s)
  | .quit =>
    readArg ks s >>= fun (c, ks, s) =>
    if c = chr 'Z' then fileSave sys s >>= fun (_, s) => .ok (ks, { s with editing := false })
    else .ok (ks, s)
  | .other => printOnStatusLine (str "encounter a wrong char !!!!!!") s >>= fun s => .ok (ks, s)

/-- `doCmd` -/
def doCmd (sys : Sys W) (fuel : ℕ) (c : UInt8) (ks : List Read) (s : Vi W) :
    Except Stop (List Read × Vi W) :=
  execCmd sys fuel (keyCmd c) ks s

/-! ## Loading and the main loop -/

/-- `new_text` and `file_insert`: the buffer of a text of `cnt` bytes, of which `content` has
been read. The memory around the buffer is `m`. -/
def newText (m : ℤ → UInt8) (size : ℤ) (content : List UInt8) : ℤ → UInt8 := fun p =>
  if 0 ≤ p ∧ p < content.length then content.getD p.toNat 0
  else if 0 ≤ p ∧ p < (if size < 10240 then 10240 else size) then NUL
  else m p

/-- The state `edit_file` has set up before it draws: a text of `cnt` bytes in a buffer of twice
that size, and at least 10240. -/
def opened (m : ℤ → UInt8) (fn : List UInt8) (cnt : ℕ) (content : List UInt8) (cga : Cga)
    (w : W) : Vi W where
  mem := newText m (cnt * 2) content
  endp := cnt
  textend := if (cnt * 2 : ℤ) < 10240 then 10240 else cnt * 2
  screenbegin := 0
  dot := 0
  editing := true
  hasChanged := false
  cfn := some fn
  synScreenbegin := none
  lastFindChar := NUL
  lastFindString := []
  cga := cga
  world := w
  trace := []

/-- `edit_file` up to its main loop: nothing if the file does not exist. The result of `read` is
at most what it was asked for. -/
def editFile (sys : Sys W) (fuel : ℕ) (m : ℤ → UInt8) (fn : List UInt8) (cga : Cga) (w : W) :
    Except Stop (Option (Vi W)) :=
  match sys.stat w fn with
  | none => .ok none
  | some cnt =>
    match sys.load w fn cnt with
    | none => .ok none
    | some content =>
      redraw fuel (opened m fn cnt (content.take cnt) cga w) >>= fun s =>
      s.draw (setCursorPos 0 0) >>= fun s => .ok (some s)

/-- One pass of the main loop, with the local `c`. -/
def mainIter (sys : Sys W) (fuel : ℕ) (c : Option UInt8) (ks : List Read) (s : Vi W) :
    Except Stop (UInt8 × List Read × Vi W) :=
  match ks with
  | [] => .error .blocked
  | r :: ks =>
    let c := r.into c
    printOnStatusLine (str "--COMMAND--") (s.act (.exec c)) >>= fun s =>
    doCmd sys fuel c ks s >>= fun (ks, s) =>
    synchronize fuel s >>= fun s => .ok (c, ks, s)

/-- The main loop between two passes: its local `c`, the keys to come, and the state. -/
structure Config (W : Type) where
  c : Option UInt8
  keys : List Read
  vi : Vi W

/-- A pass of the main loop, which runs while `editing > 0`. -/
def Step (sys : Sys W) (x y : Config W) : Prop :=
  x.vi.editing = true ∧
    ∃ fuel c, mainIter sys fuel x.c x.keys x.vi = .ok (c, y.keys, y.vi) ∧ y.c = some c

/-- A run of the main loop. -/
abbrev Run (sys : Sys W) : Config W → Config W → Prop := Relation.ReflTransGen (Step sys)

end HgXv6
