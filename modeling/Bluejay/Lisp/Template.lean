import Bluejay.Lisp.Semantics

/-!
# Backquoted lists

* `merge2`, `nilptr` : the functions of `lisp.c`; `merge2` assigns to the end of its first list.
* `Template` : what a backquoted value says; `evalTemplate X` : what its code does, with the
  meaning `X` of the expressions in it, and the value it should have as a `Datum`.
* `Denotes H v d` : in the heap `H`, the value `v` is the datum `d`.
* `BackquoteOk` : what backquote is for; `SpliceOk` : no list that is spliced ends in a cell that
  must stay as it is.
-/

namespace Bluejay

namespace Lisp

/-! ### `merge2` -/

/-- What `nilptr(&val)` returns. -/
inductive NilPtr
  | null
  /-- The address of the variable. -/
  | variable
  /-- The address of the `cdr` of the cell at `p`. -/
  | cdr (p : ℕ)

/-- The loop of `nilptr` with `cdrref(v)` in `p`, for at most `n` turns: the last cell. -/
def nilptrLoop (H : Heap) : ℕ → Word → Option ℕ
  | 0, _ => none
  | n + 1, v => if nilp (H.cdr v) then some (pointer v) else nilptrLoop H n (H.cdr v)

/-- `nilptr(&val)`; `none` if it does not end. -/
def nilptr (H : Heap) (val : Word) : Option NilPtr :=
  match H.listp val with
  | none => none
  | some false => some .null
  | some true =>
    if nilp val then some .variable else (nilptrLoop H (H.dom.card + 1) val).map .cdr

/-- Assign to the `cdr` of the cell at `p`. -/
def Heap.setCdr (H : Heap) (p : ℕ) (back : Word) : Heap :=
  match H.obj p with
  | some (.cons car _) => H.set p (.cons car back)
  | _ => H

/-- `*nilptr(&front) = back; return front`. -/
def assignNilptr (front back : Word) : Outcome Heap Word := do
  let H ← Outcome.get
  match nilptr H front with
  | some .variable => pure back
  | some (.cdr p) => do
    Outcome.set (H.setCdr p back)
    pure front
  | _ => .fail

/-- `merge2`. -/
def merge2 (front back : Word) : Outcome Heap Word := do
  let H ← Outcome.get
  match H.listp front, H.listp back with
  | some false, some true => cell front back
  | some true, some false => do assignNilptr front (← cell back nil)
  | some _, some _ => assignNilptr front back
  | _, _ => .fail

/-! ### Templates -/

mutual

/-- What is backquoted: a constant, the value of an expression, or a list. -/
inductive Template
  | const (w : Word)
  | unquote (e : Word)
  | list (is : Items)

/-- The elements of a list: templates, and expressions whose values are spliced in. -/
inductive Items
  | nil
  | cons (t : Template) (is : Items)
  | splice (e : Word) (is : Items)

end

/-- What a template denotes: lists of values. -/
inductive Datum
  | atom (w : Word)
  | list (ds : List Datum)

/-- The elements of a proper list. -/
def elements (v : Word) : Outcome Heap (List Word) := fun Q H => ∃ ws, ListOf H v ws ∧ Q ws H

section

variable (X : Word → Outcome Heap Word)

mutual

/-- What the code of a template does: what the template denotes, and the value. -/
def evalTemplate : Template → Outcome Heap (Datum × Word)
  | .const w => pure (.atom w, w)
  | .unquote e => do
    let v ← X e
    return (.atom v, v)
  | .list is => do
    let (ds, v) ← evalItems is
    return (.list ds, v)

/-- The elements are evaluated from right to left. -/
def evalItems : Items → Outcome Heap (List Datum × Word)
  | .nil => pure ([], Lisp.nil)
  | .cons t is => do
    let (ds, tail) ← evalItems is
    let (d, v) ← evalTemplate t
    return (d :: ds, ← cell v tail)
  | .splice e is => do
    let (ds, tail) ← evalItems is
    let v ← X e
    let us ← elements v
    return (us.map .atom ++ ds, ← merge2 v tail)

end

end

/-! ### Values of templates -/

section Spells

variable (fin : Word → Prop) (H : Heap)

mutual

/-- The value is the datum, with lists that end as `fin` says. -/
def Spells (v : Word) : Datum → Prop
  | .atom w => v = w
  | .list ds => SpellsAll v ds

def SpellsAll (v : Word) : List Datum → Prop
  | [] => fin v
  | d :: ds => consp v ∧ ∃ x y, H.obj (pointer v) = some (.cons x y) ∧ Spells x d ∧ SpellsAll y ds

end

/-- The value is the datum. -/
abbrev Denotes : Word → Datum → Prop := Spells (· = nil) H

abbrev DenotesAll : Word → List Datum → Prop := SpellsAll (· = nil) H

mutual

/-- The cell at `p` is one of the lists that the datum consists of. -/
def OnSpine (p : ℕ) (v : Word) : Datum → Prop
  | .atom _ => False
  | .list ds => OnSpineAll p v ds

def OnSpineAll (p : ℕ) (v : Word) : List Datum → Prop
  | [] => False
  | d :: ds => p = pointer v ∨
    ∃ x y, H.obj (pointer v) = some (.cons x y) ∧ (OnSpine p x d ∨ OnSpineAll p y ds)

end

end Spells

/-- No cell changes. -/
def KeepsConses (H H' : Heap) : Prop :=
  ∀ p x y, H.obj p = some (.cons x y) → H'.obj p = some (.cons x y)

/-- **What backquote is for**: the value is what the template denotes, and no cell that there was
before is changed. -/
def BackquoteOk (X : Word → Outcome Heap Word) (t : Template) (H : Heap) : Prop :=
  evalTemplate X t (fun r H' => Denotes H' r.2 r.1 ∧ KeepsConses H H') H

/-- A list `v` may be spliced in front of `ds`: there is nothing behind it, or its last cell, if it
has one, is neither of the cells `S` nor of the lists behind it. -/
def MaySplice (S : ℕ → Prop) (H : Heap) (v tail : Word) (ds : List Datum) : Prop :=
  ds = [] ∨ ∀ p, nilptr H v = some (.cdr p) → ¬ S p ∧ ¬ OnSpineAll H p tail ds

/-- Go on only if `p` holds. -/
def require (p : Prop) : Outcome Heap Unit := fun Q H => p ∧ Q () H

section

variable (X : Word → Outcome Heap Word)

mutual

/-- The same as `evalTemplate`, if each list may be spliced where it is; the cells `S` and those of
the lists that have been built must stay as they are. -/
def evalSafely (S : ℕ → Prop) : Template → Outcome Heap (Datum × Word)
  | .const w => pure (.atom w, w)
  | .unquote e => do
    let v ← X e
    return (.atom v, v)
  | .list is => do
    let (ds, v) ← evalItemsSafely S is
    return (.list ds, v)

def evalItemsSafely (S : ℕ → Prop) : Items → Outcome Heap (List Datum × Word)
  | .nil => pure ([], Lisp.nil)
  | .cons t is => do
    let (ds, tail) ← evalItemsSafely S is
    let H ← Outcome.get
    let (d, v) ← evalSafely (fun p => S p ∨ OnSpineAll H p tail ds) t
    return (d :: ds, ← cell v tail)
  | .splice e is => do
    let (ds, tail) ← evalItemsSafely S is
    let v ← X e
    let us ← elements v
    let H ← Outcome.get
    require (MaySplice S H v tail ds)
    return (us.map .atom ++ ds, ← merge2 v tail)

end

end

/-- Each list that is spliced in has nothing behind it, or is empty, or ends in a cell that is new
and not yet part of what is built. -/
def SpliceOk (X : Word → Outcome Heap Word) (t : Template) (H : Heap) : Prop :=
  evalSafely X (fun p => ∃ x y, H.obj p = some (.cons x y)) t (fun _ _ => True) H

end Lisp

end Bluejay
