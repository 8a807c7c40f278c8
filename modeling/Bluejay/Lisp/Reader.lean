import Bluejay.Lib.Bytes
import Bluejay.Lisp.Compiler

/-!
# Printing and reading

* `printvalOl` : the text that `printval_ol` writes for a value.
* `read1`, and the functions for the kinds of token that it tries in order : the reader of
  `lisp.c`, on the characters that an `istream` still has.

A result `none` of the reader is a loop that does not end.  Lines and positions, which the reader
notes for error messages, are left out, and so are the bounds of the buffers for tokens.
-/

namespace Bluejay

namespace Lisp

/-! ### Printing -/

section Printing

-- what `printf` writes for `%p` is a parameter
variable (address : CodePtr → List Char) (H : Heap)

/-- The loop of `printval_ol` along a list, for at most `n` turns. -/
def printRest (print : Word → Option (List Char)) : ℕ → Word → Option (List Char)
  | 0, _ => none
  | n + 1, v =>
    if nilp v then some []
    else do
      let car ← print (H.car v)
      let rest ← printRest print n (H.cdr v)
      return ' ' :: car ++ rest

/-- `printval_ol`, for at most `n` nested calls. -/
def printvalOl : ℕ → Word → Option (List Char)
  | 0, _ => none
  | n + 1, v =>
    if symbolp v then (H.text v).map String.toList
    else if stringp v then (H.text v).map fun s => '"' :: s.toList ++ ['"']
    else if integerp v then some (Nat.toDigits 10 (v / 4))
    else if consp v then do
      let car ← printvalOl n (H.car v)
      if ← H.listp v then
        let rest ← printRest H (printvalOl n) n (H.cdr v)
        return '(' :: car ++ rest ++ [')']
      else
        let cdr ← printvalOl n (H.cdr v)
        return '(' :: car ++ [' ', '.', ' '] ++ cdr ++ [')']
    else if nilp v then some ['n', 'i', 'l']
    else if closurep v then
      match H.obj (pointer v) with
      | some (.closure args f data) => some ("<closure ".toList ++ address f ++ " (".toList ++
          Nat.toDigits 10 args.numRequired ++ ") ".toList ++ Nat.toDigits 10 data.length ++ ['>'])
      | _ => none
    else if classp v then
      match H.obj (pointer v) with
      | some (.object type members) => do
        let name ← H.text type
        let texts ← members.mapM (printvalOl n)
        return "<class ".toList ++ name.toList ++ texts.flatMap (' ' :: ·) ++ ['>']
      | _ => none
    else some ("<unknown ".toList ++ (toString (signed32 v)).toList ++ ['>'])

end Printing

/-! ### Characters -/

/-- `isspace`. -/
def isspace (c : Char) : Bool := c = ' ' || ('\t' ≤ c && c ≤ '\r')

def isallowedchar (c : Char) : Bool :=
  ('#' ≤ c && c ≤ '\'') || ('*' ≤ c && c ≤ '/') || ('<' ≤ c && c ≤ '@')

def issymstart (c : Char) : Bool := c.isAlpha || isallowedchar c

def issym (c : Char) : Bool := c.isAlpha || isallowedchar c || c.isDigit

/-! ### Reading -/

/-- The characters that are left, and memory. -/
structure Reading where
  input : List Char
  world : World

/-- `struct error`; reading can go on if `safe_state` is set. -/
structure ReadError where
  code : ErrorCode
  safeState : Bool
  message : String
  deriving DecidableEq

/-- What a function of the reader returns, and what it leaves. -/
abbrev ReadResult := Option (Except ReadError Word × Reading)

/-- `THROWSAFE(EEXPECTED)`. -/
def expected (s : Reading) : ReadResult := some (.error ⟨.expected, true, ""⟩, s)

/-- `skipws`, inside of a comment or not; a comment that does not end is read forever. -/
def skipws (comment : Bool) : List Char → Option (List Char)
  | [] => if comment then none else some []
  | c :: cs =>
    if comment then skipws (c ≠ '\n') cs
    else if isspace c then skipws false cs
    else if c = ';' then skipws true cs
    else some (c :: cs)

/-- Allocate an object in the current pool. -/
def World.allocate (R : Runtime) (w : World) (o : Obj) (tag : ℕ) : Word × World :=
  let p := R.malloc w.heap
  (p + tag, { w with
    heap := w.heap.set p o
    pool := Function.update w.pool p w.currentPool })

/-- `*cdrref(cell) = v`. -/
def World.setCdr (w : World) (cell v : Word) : World :=
  { w with heap := w.heap.set (pointer cell) (.cons (w.heap.car cell) v) }

section Reader

variable (R : Runtime)

/-- Return a new object. -/
def Reading.allocate (s : Reading) (o : Obj) (tag : ℕ) : ReadResult :=
  let (v, w) := s.world.allocate R o tag
  some (.ok v, { s with world := w })

def readsym (s : Reading) : ReadResult := do
  let input ← skipws false s.input
  match input with
  | c :: cs =>
    if issymstart c then
      let (name, rest) := cs.span issym
      Reading.allocate R ⟨rest, s.world⟩ (.text (String.ofList (c :: name))) symbolTag
    else expected ⟨input, s.world⟩
  | [] => expected ⟨input, s.world⟩

/-- The loop of `readstr`; a string that does not end is read forever. -/
def readstrLoop (escape : Bool) : List Char → Option (List Char × List Char)
  | [] => none
  | c :: cs =>
    if c = '"' then some ([], cs)
    else
      let c' := if escape && c = 'n' then '\n' else c
      if c' = '\\' && !escape then readstrLoop true cs
      else (readstrLoop false cs).map fun r => (c' :: r.1, r.2)

def readstr (s : Reading) : ReadResult := do
  let input ← skipws false s.input
  match input with
  | c :: cs =>
    if c = '"' then
      let (chars, rest) ← readstrLoop false cs
      Reading.allocate R ⟨rest, s.world⟩ (.text (String.ofList chars)) stringTag
    else expected ⟨input, s.world⟩
  | [] => expected ⟨input, s.world⟩

/-- The loop of `readint`: `number` is an `int`. -/
def readintLoop (number : ℕ) : List Char → ℕ × List Char
  | [] => (number, [])
  | c :: cs =>
    if c.isDigit then readintLoop (u32 (number * 10 + (c.toNat - '0'.toNat))) cs
    else (number, c :: cs)

def readint (s : Reading) : ReadResult := do
  let input ← skipws false s.input
  if (input.head?.map Char.isDigit).getD false then
    let (number, rest) := readintLoop 0 input
    some (.ok (intval number), ⟨rest, s.world⟩)
  else expected ⟨input, s.world⟩

/-- `OKAY_IF`: take what `read` returns, unless it has failed in a safe state. -/
def okayIf (read : Reading → ReadResult) (next : Reading → ReadResult) (s : Reading) :
    ReadResult := do
  let (r, s) ← read s
  match r with
  | .ok v => some (.ok v, s)
  | .error e => if e.safeState then next s else some (.error e, s)

/-- The rest of `readn`, for at most `n` turns; `last` is the cell whose `cdr` is to be set. -/
def readnLoop (read1 : Reading → ReadResult) : ℕ → Word → Option Word → Reading →
    Option (Word × Reading)
  | 0, _, _, _ => none
  | n + 1, first, last, s => do
    let (r, s) ← read1 s
    match r with
    | .error _ => some (first, s)
    | .ok v =>
      let (cell, w) := s.world.allocate R (.cons v nil) consTag
      match last with
      | none => readnLoop read1 n cell (some cell) { s with world := w }
      | some last => readnLoop read1 n first (some cell) { s with world := w.setCdr last cell }

/-- `readn`. -/
def readn (read1 : Reading → ReadResult) (n : ℕ) (s : Reading) : Option (Word × Reading) :=
  readnLoop R read1 n nil none s

def readlist (read1 : Reading → ReadResult) (n : ℕ) (s : Reading) : ReadResult := do
  let input ← skipws false s.input
  if input.head? = some '(' then
    let (v, s) ← readn R read1 n ⟨input.tail, s.world⟩
    let input ← skipws false s.input
    if input.head? = some ')' then some (.ok v, ⟨input.tail, s.world⟩)
    else some (.error ⟨.expected, false, "Unterminated list"⟩, ⟨input, s.world⟩)
  else expected ⟨input, s.world⟩

/-- The reader macro characters, and the name of the form that they stand for. -/
def readerMacro (c : Char) : Option String :=
  if c = '\'' then some "quote"
  else if c = '`' then some "backquote"
  else if c = ',' then some "unquote"
  else if c = '@' then some "unquote-splice"
  else if c = '#' then some "function"
  else none

/-- The character `c` of `readquote`, and what is left behind it. -/
def quoteChar (c : Char) (cs : List Char) : Char × List Char :=
  if c = ',' && cs.head? = some '@' then ('@', cs.tail)
  else if c = '#' && cs.head? = some '\'' then (c, cs.tail)
  else (c, cs)

def readquote (read1 : Reading → ReadResult) (s : Reading) : ReadResult := do
  let input ← skipws false s.input
  match input with
  | c :: cs =>
    if c = '\'' || c = '`' || c = ',' || c = '#' then
      let (c, rest) := quoteChar c cs
      let (r, s) ← read1 ⟨rest, s.world⟩
      match r, readerMacro c with
      | .error e, _ => some (.error { e with
          code := .expected
          message := "Expected a form after reader macro char " ++ c.toString }, s)
      | .ok _, none => some (.error ⟨.invalid, false, "Invalid reader macro char " ++ c.toString⟩, s)
      | .ok wrapped, some name =>
        let (symbol, w) := s.world.allocate R (.text name) symbolTag
        let (tail, w) := w.allocate R (.cons wrapped nil) consTag
        Reading.allocate R { s with world := w } (.cons symbol tail) consTag
    else expected ⟨input, s.world⟩
  | [] => expected ⟨input, s.world⟩

/-- `read1`, for at most `n` nested calls. -/
def read1 : ℕ → Reading → ReadResult
  | 0, _ => none
  | n + 1, s =>
    okayIf (readquote R (read1 n))
      (okayIf (readsym R) (okayIf (readstr R) (okayIf readint
        (okayIf (readlist R (read1 n) n) expected)))) s

end Reader

end Lisp

end Bluejay
