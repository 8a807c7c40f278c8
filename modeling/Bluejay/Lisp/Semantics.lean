import Bluejay.Lib.Outcome
import Bluejay.Lisp.Compiler
import Bluejay.Lisp.Lists

/-!
# The meaning of the control-flow fragment

* `Expr` : literals, quoted constants, parameters, `if`, `and`, `or`, `progn`, `list`, and calls of
  C functions.
* `Form Γ v e` : where the compiler is in the context `Γ`, the form `v` is the expression `e`.
* `eval C arguments e` : what `e` evaluates to.  The C functions are a parameter; so is the place
  of a new cell, which the allocator chooses.
* `evalList_proper` : the value of `list` is a proper list of the values of its arguments.
-/

namespace Bluejay

namespace Lisp

/-- An expression of the fragment. -/
inductive Expr
  | nil
  | t
  /-- An integer or a string. -/
  | literal (w : Word)
  | quote (w : Word)
  /-- The parameter at `[ebp + 4 * (k + 2)]`. -/
  | parameter (k : ℕ)
  | ite (test yes no : Expr)
  | andOr (or : Bool) (es : List Expr)
  | progn (es : List Expr)
  | list (es : List Expr)
  /-- A call of the C function at `f`. -/
  | call (f : CodePtr) (es : List Expr)

/-! ### Forms -/

/-- The value `v` is the symbol `name`. -/
def Heap.Named (H : Heap) (v : Word) (name : String) : Prop :=
  symbolp v = true ∧ H.text v = some name

/-- The value `v` is the form `(name ws…)`. -/
def Heap.IsForm (H : Heap) (v : Word) (name : String) (ws : List Word) : Prop :=
  ∃ f, H.Named f name ∧ ListOf H v (f :: ws)

/-- What the compiler knows about the function that it compiles. -/
structure Context where
  heap : Heap
  env : List Function
  first : List Variable
  name : Option String
  /-- The number of parameters. -/
  count : ℕ

/-- The heads that `compile_expression` does not take for the name of a function. -/
def specialForms : List String :=
  ["if", "and", "or", "progn", "let1", "gc", "quote", "backquote", "function", "list", "lambda",
    "eval", "load"]

/-- The symbols that it does not take for a variable. -/
def constants : List String := ["nil", "t", "+current-file+", "+current-env+"]

mutual

/-- The form `v` is the expression `e`. -/
def Form (Γ : Context) (v : Word) : Expr → Prop
  | .nil => v = Lisp.nil ∨ Γ.heap.Named v "nil"
  | .t => Γ.heap.Named v "t"
  | .literal w => v = w ∧ (integerp v ∨ stringp v)
  | .quote w => Γ.heap.IsForm v "quote" [w]
  | .parameter k => k < Γ.count ∧ ∃ name, Γ.heap.Named v name ∧ name ∉ constants ∧
      Γ.first.find? (fun u => u.name = name) = some ⟨name, k, .argument⟩
  | .ite c a b => ∃ x y, Form Γ x c ∧ Form Γ y a ∧
      -- a branch that is not provided is `nil`
      ((∃ z, Γ.heap.IsForm v "if" [x, y, z] ∧ Form Γ z b) ∨
        Γ.heap.IsForm v "if" [x, y] ∧ b = .nil)
  | .andOr or es => ∃ ws, Γ.heap.IsForm v (if or then "or" else "and") ws ∧ Forms Γ ws es ∧ es ≠ []
  | .progn es => ∃ ws, Γ.heap.IsForm v "progn" ws ∧ Forms Γ ws es ∧ es ≠ []
  | .list es => ∃ ws, Γ.heap.IsForm v "list" ws ∧ Forms Γ ws es
  | .call f es => ∃ name ws, Γ.heap.IsForm v name ws ∧ Forms Γ ws es ∧ name ∉ specialForms ∧
      Γ.name ≠ some name ∧
      Γ.env.find? (fun g => g.name = name) = some ⟨name, ⟨ws.length, [], false⟩, .function, f⟩

/-- The forms `ws` are the expressions `es`. -/
def Forms (Γ : Context) (ws : List Word) : List Expr → Prop
  | [] => ws = []
  | e :: es => ∃ w ws', ws = w :: ws' ∧ Form Γ w e ∧ Forms Γ ws' es

end

/-! ### Values -/

/-- A new cell. -/
def cell (car cdr : Word) : Outcome Heap Word := .choose fun H v H' =>
  ∃ p, p ∉ H.dom ∧ p % 8 = 0 ∧ v = p + consTag ∧ H' = H.set p (.cons car cdr)

section

variable (C : CodePtr → List Word → Outcome Heap Word) (arguments : ℕ → Word)

mutual

/-- The value of an expression. -/
def eval : Expr → Outcome Heap Word
  | .nil => pure Lisp.nil
  | .t => pure Lisp.t
  | .literal w | .quote w => pure w
  | .parameter k => pure (arguments k)
  | .ite c a b => do if (← eval c) = Lisp.nil then eval b else eval a
  | .andOr or es => evalAndOr or es
  | .progn es => evalProgn es
  | .list es => return (← evalList es).2
  | .call f es => do C f (← evalArguments es)

/-- The first value that decides, or the last. -/
def evalAndOr (or : Bool) : List Expr → Outcome Heap Word
  | [] => .fail
  | e :: es => do
    let v ← eval e
    if es = [] ∨ (or ↔ v ≠ Lisp.nil) then pure v else evalAndOr or es

/-- The last value. -/
def evalProgn : List Expr → Outcome Heap Word
  | [] => .fail
  | e :: es => do
    let v ← eval e
    if es = [] then pure v else evalProgn es

/-- The values, from right to left, and a new list of them, which is made on the way. -/
def evalList : List Expr → Outcome Heap (List Word × Word)
  | [] => pure ([], Lisp.nil)
  | e :: es => do
    let (vs, tail) ← evalList es
    let v ← eval e
    return (v :: vs, ← cell v tail)

/-- The values, from right to left. -/
def evalArguments : List Expr → Outcome Heap (List Word)
  | [] => pure []
  | e :: es => do
    let vs ← evalArguments es
    return (← eval e) :: vs

end

theorem evalAndOr_single (or : Bool) (e : Expr) :
    evalAndOr C arguments or [e] = eval C arguments e := by
  rw [evalAndOr]
  simp only [true_or, if_true]
  rfl

theorem evalAndOr_cons (or : Bool) (e e' : Expr) (es : List Expr) :
    evalAndOr C arguments or (e :: e' :: es) = (do
      let v ← eval C arguments e
      if (or ↔ v ≠ Lisp.nil) then pure v else evalAndOr C arguments or (e' :: es)) := by
  rw [evalAndOr]
  simp only [reduceCtorEq, false_or]

theorem evalProgn_single (e : Expr) : evalProgn C arguments [e] = eval C arguments e := by
  rw [evalProgn]
  simp only [if_true]
  rfl

theorem evalProgn_cons (e e' : Expr) (es : List Expr) :
    evalProgn C arguments (e :: e' :: es) = (do
      let _ ← eval C arguments e
      evalProgn C arguments (e' :: es)) := by
  rw [evalProgn]
  simp only [reduceCtorEq, if_false]

/-! ### Lists -/

theorem guarantees_cell (car cdr : Word) : (cell car cdr).Guarantees fun H v H' =>
    H.Extends H' ∧ consp v ∧ H'.obj (pointer v) = some (.cons car cdr) := by
  refine Outcome.guarantees_choose ?_
  rintro H _ _ ⟨p, hp, hp8, rfl, rfl⟩
  have htag : tag (p + consTag) = consTag ∧ pointer (p + consTag) = p := by
    simp only [tag, pointer, consTag]
    omega
  exact ⟨.set hp _, by simp [consp, htag.1], by simp [Heap.set, htag.2]⟩

/-- The objects there are stay as they are. -/
abbrev Grows {α : Type} (x : Outcome Heap α) : Prop := x.Guarantees fun H _ H' => H.Extends H'

theorem grows_pure {α : Type} (a : α) : Grows (pure a : Outcome Heap α) :=
  Outcome.guarantees_pure fun H => .refl H

theorem Grows.bind {α β : Type} {x : Outcome Heap α} {f : α → Outcome Heap β} (hx : Grows x)
    (hf : ∀ a, Grows (f a)) : Grows (x >>= f) :=
  Outcome.Guarantees.bind hx fun a => (hf a).mono fun _ _ _ h _ h' => h'.trans h

theorem grows_cell (car cdr : Word) : Grows (cell car cdr) :=
  (guarantees_cell car cdr).mono fun _ _ _ h => h.1

section Lists

variable {C : CodePtr → List Word → Outcome Heap Word} {arguments : ℕ → Word}

mutual

/-- Where the C functions change no object, no expression does. -/
theorem grows_eval (hC : ∀ f vs, Grows (C f vs)) : ∀ e : Expr, Grows (eval C arguments e)
  | .nil | .t | .literal _ | .quote _ | .parameter _ => grows_pure _
  | .ite e a b => (grows_eval hC e).bind fun _ =>
    Outcome.guarantees_ite (grows_eval hC b) (grows_eval hC a)
  | .andOr or es => grows_evalAndOr hC or es
  | .progn es => grows_evalProgn hC es
  | .list es => (grows_evalList hC es).bind fun _ => grows_pure _
  | .call f es => (grows_evalArguments hC es).bind (hC f)

theorem grows_evalAndOr (hC : ∀ f vs, Grows (C f vs)) (or : Bool) :
    ∀ es : List Expr, Grows (evalAndOr C arguments or es)
  | [] => Outcome.guarantees_fail
  | e :: es => (grows_eval hC e).bind fun _ =>
    Outcome.guarantees_ite (grows_pure _) (grows_evalAndOr hC or es)

theorem grows_evalProgn (hC : ∀ f vs, Grows (C f vs)) :
    ∀ es : List Expr, Grows (evalProgn C arguments es)
  | [] => Outcome.guarantees_fail
  | e :: es => (grows_eval hC e).bind fun _ =>
    Outcome.guarantees_ite (grows_pure _) (grows_evalProgn hC es)

theorem grows_evalList (hC : ∀ f vs, Grows (C f vs)) :
    ∀ es : List Expr, Grows (evalList C arguments es)
  | [] => grows_pure _
  | e :: es => (grows_evalList hC es).bind fun _ => (grows_eval hC e).bind fun _ =>
    (grows_cell _ _).bind fun _ => grows_pure _

theorem grows_evalArguments (hC : ∀ f vs, Grows (C f vs)) :
    ∀ es : List Expr, Grows (evalArguments C arguments es)
  | [] => grows_pure _
  | e :: es => (grows_evalArguments hC es).bind fun _ => (grows_eval hC e).bind fun _ =>
    grows_pure _

end

/-- Where the C functions change no object, `list` makes a proper list of the values. -/
theorem evalList_proper (hC : ∀ f vs, Grows (C f vs)) (es : List Expr) :
    (evalList C arguments es).Guarantees fun _ r H => ListOf H r.2 r.1 ∧
      r.1.length = es.length := by
  induction es with
  | nil => exact Outcome.guarantees_pure fun H => ⟨rfl, rfl⟩
  | cons e es ih =>
    refine ih.bind fun ⟨vs, tail⟩ => Outcome.Guarantees.bind (grows_eval hC e) fun v => ?_
    refine (guarantees_cell v tail).bind fun w => Outcome.guarantees_pure ?_
    rintro H₂ H₁ ⟨hH, hw, hobj⟩ H hext H₀ ⟨hlist, hlen⟩
    exact ⟨⟨hw, tail, hobj, (hlist.extends hext).extends hH⟩, by simpa using hlen⟩

end Lists

end

end Lisp

end Bluejay
