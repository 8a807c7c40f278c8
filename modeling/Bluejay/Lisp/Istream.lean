import Mathlib.Algebra.Group.Int.Defs
import Mathlib.Algebra.Group.Nat.Defs
import Mathlib.Data.Int.Notation
import Mathlib.Data.List.TakeWhile
import Mathlib.Data.Nat.Notation
import Mathlib.Tactic.TypeStar

/-!
# Input streams

* `Istream` : `struct istream`; `stristream` reads a string, `fistream` a file.
* `replies` : what a sequence of calls returns.
* `AllHarmless` : the calls of `read` come where no character was peeked at, and read nothing.
* `interchangeable_iff` : a string and a file of the same characters reply the same, and have the
  same characters left, exactly if this is so.
-/

namespace Bluejay

namespace Lisp

/-! ### The class -/

/-- Conversion to `char`, which is signed. -/
def toChar (n : ℤ) : ℤ := (n + 128) % 256 - 128

/-- Conversion to `size_t`. -/
def toSize (n : ℤ) : ℕ := (n % 2 ^ 32).toNat

/-- `'\n'` -/
def newline : UInt8 := 10

/-- `struct istream`, for the data `σ`.  A call of `read` returns the number of bytes, and those
that it writes to the buffer; `getpos` gives the line and the name. -/
structure Istream (σ : Type*) where
  peek : σ → ℤ × σ
  get : σ → ℤ × σ
  read : ℕ → σ → (ℕ × List UInt8) × σ
  getpos : σ → ℕ × String

/-! ### Strings -/

/-- `struct stristream_private` -/
structure StristreamPrivate where
  val : List UInt8
  i : ℕ
  length : ℕ
  line : ℕ
  fromleft : ℕ
  linestart : ℕ

namespace StristreamPrivate

variable (p : StristreamPrivate)

/-- `p->val[p->i]` -/
def char : ℤ := toChar (p.val.getD p.i 0).toNat

/-- `stristream_peek` -/
def peek : ℤ × StristreamPrivate := if p.i < p.length then (p.char, p) else (-1, p)

/-- `stristream_get` -/
def get : ℤ × StristreamPrivate :=
  if p.i < p.length then
    let c := p.char
    let p := { p with i := p.i + 1, fromleft := p.fromleft + 1 }
    if c = newline.toNat then
      (c, { p with fromleft := 1, line := p.line + 1, linestart := p.i })
    else (c, p)
  else (-1, p)

/-- `stristream_read` -/
def read (size : ℕ) : (ℕ × List UInt8) × StristreamPrivate :=
  let len := min size (p.length - p.i)
  ((len, p.val.take len), p)

/-- `stristream_getpos` -/
def getpos : ℕ × String := (p.line, "<input literal>")

end StristreamPrivate

def stristream : Istream StristreamPrivate :=
  ⟨StristreamPrivate.peek, StristreamPrivate.get, fun n p => p.read n, StristreamPrivate.getpos⟩

/-- `strndup`; the copy ends before the first zero. -/
def strndup (str : List UInt8) (n : ℕ) : List UInt8 := (str.take n).takeWhile (· ≠ 0)

/-- `new_stristream` -/
def newStristream (str : List UInt8) (length : ℕ) : StristreamPrivate :=
  ⟨strndup str length, 0, length, 1, 1, 0⟩

/-- `new_stristream_nt` -/
def newStristreamNt (str : List UInt8) : StristreamPrivate := newStristream str str.length

/-! ### Files -/

/-- `struct fistream_private`; of the file there is what has not been read yet. -/
structure FistreamPrivate where
  file : List UInt8
  next : ℤ
  hasNext : Bool
  line : ℕ
  path : String

/-- `fgetc` -/
def fgetc : List UInt8 → ℤ × List UInt8
  | [] => (-1, [])
  | c :: file => (c.toNat, file)

/-- `fread`, of bytes. -/
def fread (size : ℕ) (file : List UInt8) : List UInt8 × List UInt8 :=
  (file.take size, file.drop size)

namespace FistreamPrivate

variable (p : FistreamPrivate)

/-- `fistream_peek` -/
def peek : ℤ × FistreamPrivate :=
  if p.hasNext then (p.next, p)
  else
    let (next, file) := fgetc p.file
    (next, { p with file := file, next := next, hasNext := true })

/-- `fistream_get` -/
def get : ℤ × FistreamPrivate :=
  let (c, p) :=
    if p.hasNext then (toChar p.next, { p with hasNext := false })
    else
      let (c, file) := fgetc p.file
      (toChar c, { p with file := file })
  if c = newline.toNat then (c, { p with line := p.line + 1 }) else (c, p)

/-- `fistream_read`; the size is an `int` before it is passed to `fread`. -/
def read (size : ℕ) : (ℕ × List UInt8) × FistreamPrivate :=
  let (start, size) :=
    if p.hasNext then ([UInt8.ofInt p.next], (size : ℤ) - 1) else ([], (size : ℤ))
  let (bytes, file) := fread (toSize size) p.file
  let buffer := start ++ bytes
  ((bytes.length + start.length, buffer),
    { p with file := file, hasNext := false, line := p.line + buffer.count newline })

/-- `fistream_getpos` -/
def getpos : ℕ × String := (p.line, p.path)

end FistreamPrivate

def fistream : Istream FistreamPrivate :=
  ⟨FistreamPrivate.peek, FistreamPrivate.get, fun n p => p.read n, FistreamPrivate.getpos⟩

/-- `new_fistream`, of a file that can be opened; `next` is not set. -/
def newFistream (path : String) (next : ℤ) (file : List UInt8) : FistreamPrivate :=
  ⟨file, next, false, 1, path⟩

/-! ### Calls -/

inductive StreamCall
  | peek
  | get
  | read (n : ℕ)
  | getpos
  deriving DecidableEq

/-- What a call returns; of `getpos` the line only. -/
inductive StreamReply
  | char (c : ℤ)
  | bytes (count : ℕ) (buffer : List UInt8)
  | line (n : ℕ)
  deriving DecidableEq

namespace Istream

variable {σ : Type*} (is : Istream σ)

def call : StreamCall → σ → StreamReply × σ
  | .peek, s => (.char (is.peek s).1, (is.peek s).2)
  | .get, s => (.char (is.get s).1, (is.get s).2)
  | .read n, s => (.bytes (is.read n s).1.1 (is.read n s).1.2, (is.read n s).2)
  | .getpos, s => (.line (is.getpos s).1, s)

def replies : List StreamCall → σ → List StreamReply
  | [], _ => []
  | op :: ops, s => (is.call op s).1 :: replies ops (is.call op s).2

end Istream

/-- The content of a C string, in ASCII. -/
def Ascii (cs : List UInt8) : Prop := ∀ c ∈ cs, c ≠ 0 ∧ c < 128

/-- The replies to `ops` are the same, and so are the characters that are left. -/
def Interchangeable (path : String) (next : ℤ) (cs : List UInt8) (ops : List StreamCall) : Prop :=
  ∀ k, stristream.replies (ops ++ List.replicate k .get) (newStristreamNt cs) =
    fistream.replies (ops ++ List.replicate k .get) (newFistream path next cs)

/-- What is left of the content, and whether its first character was peeked at. -/
structure Position where
  rest : List UInt8
  peeked : Bool

namespace Position

/-- The position after a call. -/
def after : StreamCall → Position → Position
  | .peek, s => { s with peeked := true }
  | .get, s => ⟨s.rest.tail, false⟩
  | .read _, s => s
  | .getpos, s => s

/-- A call of `read` comes where no character was peeked at, and reads nothing. -/
def Harmless (s : Position) : StreamCall → Prop
  | .read n => s.peeked = false ∧ (n = 0 ∨ s.rest = [])
  | _ => True

end Position

/-- All the calls `ops` are harmless. -/
def AllHarmless : Position → List StreamCall → Prop
  | _, [] => True
  | s, op :: ops => s.Harmless op ∧ AllHarmless (s.after op) ops

/-- The string istream has the characters `rest` left of `cs`. -/
structure StristreamPrivate.At (p : StristreamPrivate) (cs rest : List UInt8) : Prop where
  val : p.val = cs
  length : p.length = cs.length
  rest : cs.drop p.i = rest

/-- The file istream has the characters `rest` left, one of which may be in `next`. -/
def FistreamPrivate.At (q : FistreamPrivate) (rest : List UInt8) : Prop :=
  if q.hasNext then (q.next, q.file) = fgetc rest else q.file = rest

/-- The two streams have got to the same position. -/
structure SamePosition (cs : List UInt8) (p : StristreamPrivate) (q : FistreamPrivate)
    (s : Position) : Prop where
  string : p.At cs s.rest
  file : q.At s.rest
  peeked : q.hasNext = s.peeked
  line : p.line = q.line

section Streams

variable {cs rest : List UInt8} {p : StristreamPrivate} {q : FistreamPrivate} {s : Position}
  {op : StreamCall} {ops : List StreamCall} {n : ℕ} {c : UInt8} {path : String} {next : ℤ}

theorem toChar_ascii (h : c < 128) : toChar c.toNat = c.toNat := by
  have hlt : c.toNat < 128 := UInt8.lt_iff_toNat_lt.1 h
  unfold toChar
  omega

theorem Ascii.strndup (h : Ascii cs) : strndup cs cs.length = cs := by
  rw [Lisp.strndup, List.take_length, List.takeWhile_eq_self_iff]
  exact fun c hc => by simpa using (h c hc).1

namespace StristreamPrivate.At

theorem not_lt (h : p.At cs []) : ¬ p.i < p.length := by
  rw [h.length]
  exact Nat.not_lt_of_le (List.drop_eq_nil_iff.1 h.rest)

/-- The next character. -/
theorem char_eq (h : p.At cs (c :: rest)) (hcs : Ascii cs) :
    p.i < p.length ∧ p.char = c.toNat ∧ cs.drop (p.i + 1) = rest ∧ c < 128 := by
  have hget : cs[p.i]? = some c := by rw [← List.head?_drop, h.rest, List.head?_cons]
  obtain ⟨hlt, hget'⟩ := List.getElem?_eq_some_iff.1 hget
  have hc : c < 128 := (hcs c (hget' ▸ List.getElem_mem hlt)).2
  refine ⟨by rwa [h.length], ?_, by rw [← List.tail_drop, h.rest, List.tail_cons], hc⟩
  rw [StristreamPrivate.char, h.val, List.getD_eq_getElem?_getD, hget, Option.getD_some,
    toChar_ascii hc]

theorem peek (h : p.At cs rest) (hcs : Ascii cs) : p.peek = ((fgetc rest).1, p) := by
  rw [StristreamPrivate.peek]
  cases rest with
  | nil => rw [if_neg h.not_lt, fgetc]
  | cons c rest =>
    obtain ⟨hi, hc, -⟩ := h.char_eq hcs
    rw [if_pos hi, hc, fgetc]

theorem get (h : p.At cs rest) (hcs : Ascii cs) : p.get.1 = toChar (fgetc rest).1 ∧
    p.get.2.At cs rest.tail ∧
    p.get.2.line = p.line + if p.get.1 = newline.toNat then 1 else 0 := by
  rw [StristreamPrivate.get]
  cases rest with
  | nil =>
    rw [if_neg h.not_lt]
    exact ⟨rfl, h, rfl⟩
  | cons c rest =>
    obtain ⟨hi, hc, hdrop, hascii⟩ := h.char_eq hcs
    rw [if_pos hi, hc]
    dsimp only
    split_ifs with hnl
    · exact ⟨(toChar_ascii hascii).symm, ⟨h.val, h.length, hdrop⟩, rfl⟩
    · exact ⟨(toChar_ascii hascii).symm, ⟨h.val, h.length, hdrop⟩, rfl⟩

end StristreamPrivate.At

theorem drop_min (l : List UInt8) (k : ℕ) : l.drop (min k l.length) = l.drop k := by
  simp [List.drop_eq_drop_iff]

namespace FistreamPrivate.At

theorem peek (h : q.At rest) : q.peek.1 = (fgetc rest).1 ∧ q.peek.2.At rest ∧
    q.peek.2.hasNext = true ∧ q.peek.2.line = q.line := by
  rw [FistreamPrivate.peek]
  cases hnext : q.hasNext with
  | true =>
    rw [FistreamPrivate.At, if_pos hnext] at h
    rw [if_pos rfl, FistreamPrivate.At, if_pos hnext]
    exact ⟨congrArg Prod.fst h, h, hnext, rfl⟩
  | false =>
    rw [FistreamPrivate.At, hnext, if_neg nofun] at h
    rw [if_neg nofun, h]
    exact ⟨rfl, rfl, rfl, rfl⟩

theorem get (h : q.At rest) : q.get.1 = toChar (fgetc rest).1 ∧ q.get.2.At rest.tail ∧
    q.get.2.hasNext = false ∧
    q.get.2.line = q.line + if q.get.1 = newline.toNat then 1 else 0 := by
  have htail : (fgetc rest).2 = rest.tail := by cases rest <;> rfl
  rw [FistreamPrivate.get]
  cases hnext : q.hasNext with
  | true =>
    rw [FistreamPrivate.At, if_pos hnext] at h
    obtain ⟨hc, hfile⟩ := Prod.mk.inj h
    rw [if_pos rfl, hc]
    dsimp only
    split_ifs with hnl <;> exact ⟨rfl, hfile.trans htail, rfl, rfl⟩
  | false =>
    rw [FistreamPrivate.At, hnext, if_neg nofun] at h
    rw [if_neg nofun, h]
    dsimp only
    split_ifs with hnl <;> exact ⟨rfl, htail, rfl, rfl⟩

/-- `read`, where nothing was peeked at. -/
theorem read (h : q.At rest) (hnext : q.hasNext = false) (n : ℕ) :
    q.read n = ((min (toSize n) rest.length, rest.take (toSize n)),
      { q with
        file := rest.drop (toSize n)
        hasNext := false
        line := q.line + (rest.take (toSize n)).count newline }) := by
  rw [FistreamPrivate.At, hnext, if_neg nofun] at h
  simp [FistreamPrivate.read, hnext, fread, h]

/-- Any call of `read` takes as many characters as it says. -/
theorem read_rest (h : q.At rest) (n : ℕ) : (q.read n).2.At (rest.drop (q.read n).1.1) := by
  rw [FistreamPrivate.At] at h
  change (q.read n).2.file = _
  cases hnext : q.hasNext with
  | true =>
    rw [if_pos hnext] at h
    have htail : q.file = rest.tail := by
      cases rest <;> exact (Prod.mk.inj h).2
    simp only [FistreamPrivate.read, hnext, if_true, fread, List.length_take, List.length_singleton]
    rw [Nat.add_comm, ← List.drop_drop, List.drop_one, ← htail, drop_min]
  | false =>
    rw [hnext, if_neg nofun] at h
    simp only [FistreamPrivate.read, hnext, fread, h, Bool.false_eq_true, if_false,
      List.length_take, List.length_nil, Nat.add_zero, drop_min]

end FistreamPrivate.At

theorem StristreamPrivate.At.read (h : p.At cs rest) (n : ℕ) :
    p.read n = ((min n rest.length, cs.take (min n rest.length)), p) := by
  rw [StristreamPrivate.read, h.length, ← List.length_drop, h.rest, h.val]

namespace SamePosition

/-- Where both streams begin. -/
theorem start (h : Ascii cs) :
    SamePosition cs (newStristreamNt cs) (newFistream path next cs) ⟨cs, false⟩ :=
  ⟨⟨h.strndup, rfl, rfl⟩, rfl, rfl, rfl⟩

theorem read (h : SamePosition cs p q s) (hn : s.Harmless (.read n)) :
    (p.read n).1 = (q.read n).1 ∧ SamePosition cs (p.read n).2 (q.read n).2 s := by
  obtain ⟨hs, hn⟩ := hn
  have hnone : min n s.rest.length = 0 ∧ s.rest.take (toSize n) = [] ∧
      s.rest.drop (toSize n) = s.rest := by
    rcases hn with rfl | hn
    · simp [toSize]
    · simp [hn]
  obtain ⟨hmin, htake, hdrop⟩ := hnone
  have hlen : min (toSize n) s.rest.length = 0 := by rw [← List.length_take, htake, List.length_nil]
  rw [h.file.read (h.peeked.trans hs) n, h.string.read n, hmin, hlen, htake, hdrop]
  exact ⟨rfl, h.string, rfl, hs.symm, h.line⟩

/-- A call that is harmless gives the same reply. -/
theorem call (h : SamePosition cs p q s) (hcs : Ascii cs) (hop : s.Harmless op) :
    (stristream.call op p).1 = (fistream.call op q).1 ∧
      SamePosition cs (stristream.call op p).2 (fistream.call op q).2 (s.after op) := by
  cases op with
  | peek =>
    obtain ⟨hc, hat, hpeeked, hline⟩ := h.file.peek
    have hstr := h.string.peek hcs
    refine ⟨congrArg StreamReply.char (hc ▸ congrArg Prod.fst hstr), ?_, hat, hpeeked, ?_⟩
    · exact (congrArg Prod.snd hstr).symm ▸ h.string
    · exact (congrArg (StristreamPrivate.line ∘ Prod.snd) hstr).trans (h.line.trans hline.symm)
  | get =>
    obtain ⟨hc, hat, hpeeked, hline⟩ := h.file.get
    obtain ⟨hc', hat', hline'⟩ := h.string.get hcs
    refine ⟨congrArg StreamReply.char (hc'.trans hc.symm), hat', hat, hpeeked, ?_⟩
    exact hline'.trans (by rw [hc', ← hc, h.line]; exact hline.symm)
  | read n =>
    obtain ⟨hreply, hsame⟩ := h.read hop
    exact ⟨congrArg (fun r : ℕ × List UInt8 => StreamReply.bytes r.1 r.2) hreply, hsame⟩
  | getpos => exact ⟨congrArg StreamReply.line h.line, h⟩

/-- Any other call gives another reply, or leaves the file with fewer characters. -/
theorem harmful (h : SamePosition cs p q s) (hop : ¬ s.Harmless op)
    (hreply : (stristream.call op p).1 = (fistream.call op q).1) :
    (stristream.call op p).2.At cs s.rest ∧
      ∃ rest, (fistream.call op q).2.At rest ∧ rest.length < s.rest.length := by
  cases op with
  | read n =>
    have hcount : (p.read n).1.1 = (q.read n).1.1 := (StreamReply.bytes.inj hreply).1
    refine ⟨h.string, _, h.file.read_rest n, ?_⟩
    rw [h.string.read n] at hcount
    have hpos : 0 < min n s.rest.length := by
      cases hs : s.peeked with
      | false =>
        have hn : n ≠ 0 ∧ s.rest ≠ [] := by simpa [Position.Harmless, hs] using hop
        have hlen := List.length_pos_iff.2 hn.2
        omega
      | true =>
        have hone : 0 < (q.read n).1.1 := by
          simp [FistreamPrivate.read, h.peeked.trans hs]
        exact Nat.lt_of_lt_of_eq hone hcount.symm
    rw [← hcount, List.length_drop]
    dsimp only
    omega
  | peek => exact absurd trivial hop
  | get => exact absurd trivial hop
  | getpos => exact absurd trivial hop

end SamePosition

/-- Where a string has more characters left than a file, it still has after a call of `get` that
gives the same reply. -/
theorem get_shorter {rest' : List UInt8} (hcs : Ascii cs) (hp : p.At cs rest) (hq : q.At rest')
    (hlt : rest'.length < rest.length) (hchar : p.get.1 = q.get.1) :
    rest'.tail.length < rest.tail.length := by
  rw [(hp.get hcs).1, hq.get.1] at hchar
  obtain ⟨c, rest, rfl⟩ := List.exists_cons_of_length_pos (Nat.zero_lt_of_lt hlt)
  cases rest' with
  | nil =>
    -- the file is at its end, for which no character of the string can be taken
    have hend : (c.toNat : ℤ) = -1 := (toChar_ascii (hp.char_eq hcs).2.2.2).symm.trans hchar
    omega
  | cons d rest' => simpa using hlt

theorem call_shorter {rest' : List UInt8} (hcs : Ascii cs) (hp : p.At cs rest) (hq : q.At rest')
    (hlt : rest'.length < rest.length)
    (hreply : (stristream.call op p).1 = (fistream.call op q).1) :
    ∃ r r', (stristream.call op p).2.At cs r ∧ (fistream.call op q).2.At r' ∧
      r'.length < r.length := by
  cases op with
  | peek =>
    have hstr := hp.peek hcs
    exact ⟨rest, rest', (congrArg Prod.snd hstr).symm ▸ hp, hq.peek.2.1, hlt⟩
  | get =>
    exact ⟨rest.tail, rest'.tail, (hp.get hcs).2.1, hq.get.2.1,
      get_shorter hcs hp hq hlt (StreamReply.char.inj hreply)⟩
  | read n =>
    refine ⟨rest, _, hp, hq.read_rest n, ?_⟩
    rw [List.length_drop]
    omega
  | getpos => exact ⟨rest, rest', hp, hq, hlt⟩

/-- A string that has more characters left than a file is told from it by reading on. -/
theorem gets_differ {rest' : List UInt8} (hcs : Ascii cs) (hp : p.At cs rest) (hq : q.At rest')
    (hlt : rest'.length < rest.length) :
    ∃ k, stristream.replies (List.replicate k .get) p ≠
      fistream.replies (List.replicate k .get) q := by
  induction rest generalizing p q rest' with
  | nil => exact absurd hlt (Nat.not_lt_zero _)
  | cons c rest ih =>
    by_cases hchar : p.get.1 = q.get.1
    · have hshorter := get_shorter hcs hp hq hlt hchar
      obtain ⟨k, hk⟩ := ih (hp.get hcs).2.1 hq.get.2.1 hshorter
      exact ⟨k + 1, fun heq => hk (List.cons.inj heq).2⟩
    · exact ⟨1, fun heq => hchar (StreamReply.char.inj (List.cons.inj heq).1)⟩

theorem replies_differ {rest' : List UInt8} (ops : List StreamCall) (hcs : Ascii cs)
    (hp : p.At cs rest) (hq : q.At rest') (hlt : rest'.length < rest.length) :
    ∃ k, stristream.replies (ops ++ List.replicate k .get) p ≠
      fistream.replies (ops ++ List.replicate k .get) q := by
  induction ops generalizing p q rest rest' with
  | nil => exact gets_differ hcs hp hq hlt
  | cons op ops ih =>
    by_cases hreply : (stristream.call op p).1 = (fistream.call op q).1
    · obtain ⟨r, r', hp', hq', hshorter⟩ := call_shorter hcs hp hq hlt hreply
      obtain ⟨k, hk⟩ := ih hp' hq' hshorter
      exact ⟨k, fun heq => hk (List.cons.inj heq).2⟩
    · exact ⟨0, fun heq => hreply (List.cons.inj heq).1⟩

/-- Calls of `get` are harmless. -/
theorem allHarmless_gets (s : Position) (k : ℕ) : AllHarmless s (List.replicate k .get) := by
  induction k generalizing s with
  | zero => trivial
  | succ k ih => exact ⟨trivial, ih _⟩

theorem allHarmless_append_gets (h : AllHarmless s ops) (k : ℕ) :
    AllHarmless s (ops ++ List.replicate k .get) := by
  induction ops generalizing s with
  | nil => exact allHarmless_gets s k
  | cons op ops ih => exact ⟨h.1, ih h.2⟩

/-- A run of harmless calls gives the same replies. -/
theorem SamePosition.replies (h : SamePosition cs p q s) (hcs : Ascii cs)
    (hops : AllHarmless s ops) : stristream.replies ops p = fistream.replies ops q := by
  induction ops generalizing p q s with
  | nil => rfl
  | cons op ops ih =>
    obtain ⟨hreply, hsame⟩ := h.call hcs hops.1
    exact congrArg₂ List.cons hreply (ih hsame hops.2)

/-- A run with another call is told by reading on. -/
theorem SamePosition.allHarmless (h : SamePosition cs p q s) (hcs : Ascii cs)
    (heq : ∀ k, stristream.replies (ops ++ List.replicate k .get) p =
      fistream.replies (ops ++ List.replicate k .get) q) : AllHarmless s ops := by
  induction ops generalizing p q s with
  | nil => trivial
  | cons op ops ih =>
    have hop : s.Harmless op := by
      by_contra hop
      obtain ⟨hp, rest, hq, hlt⟩ := h.harmful hop (List.cons.inj (heq 0)).1
      obtain ⟨k, hk⟩ := replies_differ ops hcs hp hq hlt
      exact hk (List.cons.inj (heq k)).2
    exact ⟨hop, ih (h.call hcs hop).2 fun k => (List.cons.inj (heq k)).2⟩

/-- **The two streams are interchangeable exactly if** every call of `read` comes where no character
was peeked at, and for no bytes or at the end. -/
theorem interchangeable_iff (path : String) (next : ℤ) (hcs : Ascii cs) (ops : List StreamCall) :
    Interchangeable path next cs ops ↔ AllHarmless ⟨cs, false⟩ ops :=
  ⟨(SamePosition.start hcs).allHarmless hcs, fun hops k =>
    (SamePosition.start hcs).replies hcs (allHarmless_append_gets hops k)⟩

/-- The content `"a"`: a peek, a `get` and a `read` at the end. -/
theorem interchangeable_a :
    Interchangeable "a.lisp" 0 [97] [.peek, .get, .read 1, .getpos] := by
  have hcs : Ascii [97] := by simp [Ascii]
  refine (interchangeable_iff "a.lisp" 0 hcs _).2 ⟨trivial, trivial, ⟨rfl, .inr rfl⟩, ?_⟩
  exact ⟨trivial, trivial⟩

/-- **The content `"ab"`**, of which two bytes are read after one `get`. -/
theorem not_interchangeable : ¬ ∀ (path : String) (next : ℤ) (cs : List UInt8)
    (ops : List StreamCall), Ascii cs →
      stristream.replies ops (newStristreamNt cs) =
        fistream.replies ops (newFistream path next cs) := by
  intro h
  have hcs : Ascii [97, 98] := by simp [Ascii]
  exact absurd (h "ab.lisp" 0 [97, 98] [.get, .read 1] hcs) (by decide)

end Streams

end Lisp

end Bluejay
