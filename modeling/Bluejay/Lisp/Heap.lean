import Bluejay.Lib.Marking
import Mathlib.Algebra.Group.Int.Defs
import Mathlib.Algebra.Group.Nat.Defs

/-!
# Values and the heap

A `value_t` is a 32-bit word whose low three bits are its tag; integers use the low two.  A heap
value is the address of an object, which lies behind a `struct alloc`, with the tag of its kind.

* `integerp`, `consp`, `heapp`, … are the predicates of `lisp.c`.
* `Obj` is what lies behind a `struct alloc`; `Heap` is what is allocated, by address.
* `Heap.graph` : the graph of heap values, whose edges are `car` and `cdr`, closure captures and
  class members.
* `HeapGraph` : a heap in which every heap value leads to an object of its kind.
-/

namespace Bluejay

namespace Lisp

/-- `value_t`. -/
abbrev Word := ℕ

def consTag : ℕ := 0b001

def classTag : ℕ := 0b010

def stringTag : ℕ := 0b011

def symbolTag : ℕ := 0b101

def closureTag : ℕ := 0b110

/-- `value & HEAP_MASK`. -/
def tag (v : Word) : ℕ := v % 8

/-- `value & ~HEAP_MASK`. -/
def pointer (v : Word) : ℕ := v - v % 8

def nil : Word := 0b00101111

def t : Word := 2 ^ 3

def integerp (v : Word) : Bool := v % 4 = 0

def symbolp (v : Word) : Bool := tag v = symbolTag

def stringp (v : Word) : Bool := tag v = stringTag

def consp (v : Word) : Bool := tag v = consTag

def classp (v : Word) : Bool := tag v = classTag

def closurep (v : Word) : Bool := tag v = closureTag

/-- `heapp`; class instances are not among them. -/
def heapp (v : Word) : Bool := consp v || stringp v || symbolp v || closurep v

def nilp (v : Word) : Bool := v = nil

/-- `intval`. -/
def intval (i : ℤ) : Word := (4 * i % 2 ^ 32).toNat

/-- A code pointer: a C function, or a program that `link_program` returned. -/
inductive CodePtr
  | builtin (name : String)
  | program (index : ℕ)
  deriving DecidableEq

/-- `struct optional_argument`. -/
structure OptionalArgument where
  value : Word
  name : Word
  deriving DecidableEq

/-- `struct args`; `num_optional` is the length of `optionalArguments`. -/
structure Args where
  numRequired : ℕ
  optionalArguments : List OptionalArgument
  variadic : Bool
  deriving DecidableEq

def Args.numOptional (a : Args) : ℕ := a.optionalArguments.length

/-- `new_args`. -/
def newArgs : Args := ⟨0, [], false⟩

/-- `are_args_acceptable`. -/
def areArgsAcceptable (args : Args) (number : ℕ) : Bool :=
  if args.variadic then args.numRequired ≤ number
  else args.numRequired ≤ number && number ≤ args.numRequired + args.numOptional

/-- An object of the heap.  Strings and symbols are both text: `strptrval` gives a string the
`type_tag` of a symbol. -/
inductive Obj
  | cons (car cdr : Word)
  | text (chars : String)
  | closure (args : Args) (function : CodePtr) (data : List Word)
  | object (type : Word) (members : List Word)
  deriving DecidableEq

/-- The values the collector follows from an object. -/
def Obj.children : Obj → List Word
  | .cons car cdr => [car, cdr]
  | .text _ => []
  | .closure _ _ data => data
  | .object _ members => members

/-- All values an object holds. -/
def Obj.words : Obj → List Word
  | .object type members => type :: members
  | o => o.children

theorem Obj.mem_words {o : Obj} {w : Word} (h : w ∈ o.children) : w ∈ o.words := by
  cases o with
  | object type members => exact List.mem_cons_of_mem _ h
  | _ => exact h

def Obj.isClass : Obj → Bool
  | .object _ _ => true
  | _ => false

/-- The tag of a value fits the object it leads to. -/
def Obj.fits : Obj → ℕ → Bool
  | .cons _ _, n => n = consTag
  | .text _, n => n = stringTag || n = symbolTag
  | .closure _ _ _, n => n = closureTag
  | .object _ _, n => n = classTag

/-- The objects that are allocated, by address. -/
structure Heap where
  obj : ℕ → Option Obj
  /-- The addresses in use. -/
  dom : Finset ℕ
  mem_dom : ∀ p, (obj p).isSome ↔ p ∈ dom

namespace Heap

variable (H : Heap)

variable {H} in
theorem obj_eq_none {p : ℕ} : H.obj p = none ↔ p ∉ H.dom := by
  rw [← H.mem_dom, Option.not_isSome_iff_eq_none]

/-- Put the object `o` at the address `p`. -/
def set (p : ℕ) (o : Obj) : Heap where
  obj := Function.update H.obj p (some o)
  dom := insert p H.dom
  mem_dom q := by
    by_cases hq : q = p
    · simp [hq]
    · simp [hq, H.mem_dom]

def car (v : Word) : Word :=
  if consp v then
    match H.obj (pointer v) with
    | some (.cons car _) => car
    | _ => nil
  else nil

def cdr (v : Word) : Word :=
  if consp v then
    match H.obj (pointer v) with
    | some (.cons _ cdr) => cdr
    | _ => nil
  else nil

/-- The text of a string or a symbol. -/
def text (v : Word) : Option String :=
  match H.obj (pointer v) with
  | some (.text s) => some s
  | _ => none

def symstreq (sym : Word) (str : String) : Bool := symbolp sym && H.text sym = some str

/-- The cells from `v` on along `cdr`, and the value after the last one; `none` if there are
`n` cells or more. -/
def cells : ℕ → Word → Option (List Word × Word)
  | 0, _ => none
  | n + 1, v =>
    if consp v then (cells n (H.cdr v)).map fun r => (v :: r.1, r.2) else some ([], v)

/-- `listp`; `none` if it does not end. -/
def listp (v : Word) : Option Bool := (H.cells (H.dom.card + 1) v).map fun r => nilp r.2

/-- `length`, which counts a last value other than `nil`; `none` if it does not end. -/
def length (v : Word) : Option ℕ :=
  (H.cells (H.dom.card + 1) v).map fun r => if nilp r.2 then r.1.length else r.1.length + 1

/-- `elt`. -/
def elt (v : Word) : ℕ → Word
  | 0 => H.car v
  | i + 1 => elt (H.cdr v) i

def children (p : ℕ) : List Word := ((H.obj p).map Obj.children).getD []

/-- The graph of all heap values. -/
def graph : Graph Word ℕ where
  node v := if heapp v || classp v then some (pointer v) else none
  succ := H.children

/-- A heap value leads to an object of its kind. -/
def Points (v : Word) : Prop :=
  heapp v || classp v → ∃ o, H.obj (pointer v) = some o ∧ o.fits (tag v)

end Heap

/-- A heap graph: every heap value in it leads to an object of its kind. -/
structure HeapGraph extends Heap where
  points : ∀ p o, obj p = some o → ∀ w ∈ o.words, toHeap.Points w

/-- The heap of the objects listed. -/
def Heap.ofList (l : List (ℕ × Obj)) : Heap where
  obj p := l.lookup p
  dom := (l.map Prod.fst).toFinset
  mem_dom p := by
    induction l with
    | nil => simp
    | cons x l ih =>
      rw [List.lookup_cons, List.map_cons, List.toFinset_cons, Finset.mem_insert, ← ih]
      by_cases hp : p = x.1
      · simp [hp]
      · simp [hp, beq_false_of_ne hp]

theorem mem_of_obj_ofList {l : List (ℕ × Obj)} {p : ℕ} {o : Obj}
    (h : (Heap.ofList l).obj p = some o) : (p, o) ∈ l := by
  obtain ⟨l₁, l₂, rfl, -⟩ := List.lookup_eq_some_iff.1 h
  exact List.mem_append_right _ List.mem_cons_self

namespace HeapGraph

/-- The heap graph of the objects listed. -/
def ofList (l : List (ℕ × Obj)) (h : ∀ x ∈ l, ∀ w ∈ x.2.words, heapp w || classp w →
    ((Heap.ofList l).obj (pointer w)).any fun o => o.fits (tag w)) : HeapGraph where
  toHeap := Heap.ofList l
  points p o ho w hw hh := by
    have hmem : (p, o) ∈ l := mem_of_obj_ofList ho
    obtain ⟨o', ho', hf⟩ := (Option.any_eq_true _ _).1 (h _ hmem w hw hh)
    exact ⟨o', ho', hf⟩

variable {H : HeapGraph} {v w : Word} {p : ℕ}

theorem points_of_mem_children (hw : w ∈ H.children p) : H.Points w := by
  unfold Heap.children at hw
  cases ho : H.obj p with
  | none => rw [ho] at hw; exact absurd hw List.not_mem_nil
  | some o => rw [ho] at hw; exact H.points p o ho w (Obj.mem_words hw)

/-- A reachable node is led to by a heap value that has its kind. -/
theorem reach_cases (hv : H.Points v) (h : H.graph.Reach v p) :
    ∃ w, (heapp w || classp w) ∧ pointer w = p ∧ H.Points w := by
  cases h with
  | root hw =>
    simp only [Heap.graph, Option.ite_none_right_eq_some, Option.some.injEq] at hw
    exact ⟨v, hw.1, hw.2, hv⟩
  | @edge u _ w' hu hw hn =>
    simp only [Heap.graph, Option.ite_none_right_eq_some, Option.some.injEq] at hn
    exact ⟨w', hn.1, hn.2, points_of_mem_children hw⟩

end HeapGraph

end Lisp

end Bluejay
