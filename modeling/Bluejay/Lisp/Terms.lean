import Bluejay.Lisp.Semantics

/-!
# Functions as terms

The language of function bodies: the control-flow forms, `let1`, and calls by name, also of the
function itself.

* `Term` : forms whose macros are expanded; `H.Spells v e` : the value `v` is the form `e`.
* `Term.eval F ρ e` : what a term evaluates to, where `ρ` is what its variables are, and `F` what
  functions do.
* `Definition` : a `defun`; `Definition.run` : what it does, for at most `n` nested calls of itself.
* `meaning` : what the functions of a program do.
* `Term.Legal` : every variable is in scope, and every call passes what the function takes.  The
  compiler does not forget a `let1` at its end, so a name must not occur where the newest `let1`
  for it has ended.
* `Term.lets`, `Term.walked` : the depths of the `let1` forms that are compiled, and of those that
  are counted before.
-/

namespace Bluejay

namespace Lisp

/-- A form of a function's body. -/
inductive Term
  | nil
  | t
  /-- An integer or a string. -/
  | literal (w : Word)
  | quote (w : Word)
  | var (name : String)
  | ite (test yes no : Term)
  | andOr (or : Bool) (es : List Term)
  | progn (es : List Term)
  | let1 (name : String) (value : Term) (es : List Term)
  | list (es : List Term)
  | call (name : String) (es : List Term)
  /-- A call of a variadic function, which gets `more` as a list. -/
  | callRest (name : String) (es more : List Term)

/-- Variables and their values, innermost first. -/
abbrev Bindings := List (String × Word)

/-- The value of a variable. -/
def Bindings.look (ρ : Bindings) (x : String) : Outcome Heap Word :=
  match ρ.find? fun b => b.1 = x with
  | some b => pure b.2
  | none => .fail

/-- What the functions do, by name. -/
abbrev Functions := String → List Word → Outcome Heap Word

namespace Term

/-! ### Values -/

section

variable (F : Functions)

mutual

/-- The value of a term. -/
def eval (ρ : Bindings) : Term → Outcome Heap Word
  | .nil => pure Lisp.nil
  | .t => pure Lisp.t
  | .literal w | .quote w => pure w
  | .var x => ρ.look x
  | .ite c a b => do if (← eval ρ c) = Lisp.nil then eval ρ b else eval ρ a
  | .andOr or es => evalAndOr ρ or es
  | .progn es => evalProgn ρ es
  | .let1 x e es => do
    let v ← eval ρ e
    evalProgn ((x, v) :: ρ) es
  | .list es => return (← evalList ρ es).2
  | .call f es => do F f (← evalArguments ρ es)
  | .callRest f es more => do
    let r ← evalList ρ more
    F f ((← evalArguments ρ es) ++ [r.2])

/-- The first value that decides, or the last. -/
def evalAndOr (ρ : Bindings) (or : Bool) : List Term → Outcome Heap Word
  | [] => .fail
  | e :: es => do
    let v ← eval ρ e
    if es = [] ∨ (or ↔ v ≠ Lisp.nil) then pure v else evalAndOr ρ or es

/-- The last value. -/
def evalProgn (ρ : Bindings) : List Term → Outcome Heap Word
  | [] => .fail
  | e :: es => do
    let v ← eval ρ e
    if es = [] then pure v else evalProgn ρ es

/-- The values, from right to left, and a new list of them, which is made on the way. -/
def evalList (ρ : Bindings) : List Term → Outcome Heap (List Word × Word)
  | [] => pure ([], Lisp.nil)
  | e :: es => do
    let (vs, tail) ← evalList ρ es
    let v ← eval ρ e
    return (v :: vs, ← cell v tail)

/-- The values, from right to left. -/
def evalArguments (ρ : Bindings) : List Term → Outcome Heap (List Word)
  | [] => pure []
  | e :: es => do
    let vs ← evalArguments ρ es
    return (← eval ρ e) :: vs

end

variable {F} {ρ : Bindings}

theorem evalAndOr_singleton (or : Bool) (e : Term) :
    evalAndOr F ρ or [e] = eval F ρ e := by
  rw [evalAndOr]
  simp only [true_or, if_true]
  rfl

theorem evalAndOr_cons (or : Bool) (e e' : Term) (es : List Term) :
    evalAndOr F ρ or (e :: e' :: es) = (do
      let v ← eval F ρ e
      if (or ↔ v ≠ Lisp.nil) then pure v else evalAndOr F ρ or (e' :: es)) := by
  rw [evalAndOr]
  simp only [reduceCtorEq, false_or]

theorem evalProgn_singleton (e : Term) : evalProgn F ρ [e] = eval F ρ e := by
  rw [evalProgn]
  simp only [if_true]
  rfl

theorem evalProgn_cons (e e' : Term) (es : List Term) :
    evalProgn F ρ (e :: e' :: es) = (do
      let _ ← eval F ρ e
      evalProgn F ρ (e' :: es)) := by
  rw [evalProgn]
  simp only [reduceCtorEq, if_false]

end

/-! ### Names -/

mutual

/-- The names that `let1` forms in the term bind. -/
def binds : Term → List String
  | .nil | .t | .literal _ | .quote _ | .var _ => []
  | .ite c a b => c.binds ++ (a.binds ++ b.binds)
  | .andOr _ es | .progn es | .list es | .call _ es => bindsAll es
  | .let1 x e es => x :: (e.binds ++ bindsAll es)
  | .callRest _ es more => bindsAll es ++ bindsAll more

def bindsAll : List Term → List String
  | [] => []
  | e :: es => e.binds ++ bindsAll es

end

mutual

/-- The depths of the `let1` forms in a term at the depth `d`. -/
def lets (d : ℕ) : Term → List ℕ
  | .nil | .t | .literal _ | .quote _ | .var _ => []
  | .ite c a b => c.lets d ++ (a.lets d ++ b.lets d)
  | .andOr _ es | .progn es | .list es | .call _ es => letsAll d es
  | .let1 _ e es => e.lets d ++ d :: letsAll (d + 1) es
  | .callRest _ es more => letsAll d es ++ letsAll d more

def letsAll (d : ℕ) : List Term → List ℕ
  | [] => []
  | e :: es => e.lets d ++ letsAll d es

end

mutual

/-- The depths of those that `walk_and_alloc` meets: it does not enter the values that `let1` forms
bind. -/
def walked (d : ℕ) : Term → List ℕ
  | .nil | .t | .literal _ | .quote _ | .var _ => []
  | .ite c a b => c.walked d ++ (a.walked d ++ b.walked d)
  | .andOr _ es | .progn es | .list es | .call _ es => walkedAll d es
  | .let1 _ _ es => d :: walkedAll (d + 1) es
  | .callRest _ es more => walkedAll d es ++ walkedAll d more

def walkedAll (d : ℕ) : List Term → List ℕ
  | [] => []
  | e :: es => e.walked d ++ walkedAll d es

end

mutual

/-- The heads of the forms that `walk_and_alloc` looks up as macros. -/
def heads : Term → List String
  | .nil | .t | .literal _ | .var _ => []
  | .quote _ => ["quote"]
  | .ite c a b => "if" :: (c.heads ++ (a.heads ++ b.heads))
  | .andOr or es => (if or then "or" else "and") :: headsAll es
  | .progn es => "progn" :: headsAll es
  | .let1 _ _ es => headsAll es
  | .list es => "list" :: headsAll es
  | .call f es => f :: headsAll es
  | .callRest f es more => f :: (headsAll es ++ headsAll more)

def headsAll : List Term → List String
  | [] => []
  | e :: es => e.heads ++ headsAll es

end

section

variable (takes : String → Option Args)

mutual

/-- The variables are in scope and those of `ended` do not occur, and calls pass what the functions
take.  Of arguments the last one is compiled first. -/
def Legal (scope ended : List String) : Term → Prop
  | .nil | .t | .literal _ | .quote _ => True
  | .var x => x ∈ scope ∧ x ∉ ended
  | .ite c a b => Legal scope ended c ∧ Legal scope (c.binds ++ ended) a ∧
      Legal scope (a.binds ++ (c.binds ++ ended)) b
  | .andOr _ es | .progn es => LegalBody scope ended es
  | .let1 x e es => Legal scope ended e ∧
      LegalBody (x :: scope) ((e.binds ++ ended).filter (· ≠ x)) es
  | .list es => LegalArguments scope ended es
  | .call f es => takes f = some ⟨es.length, [], false⟩ ∧ LegalArguments scope ended es
  | .callRest f es more => takes f = some ⟨es.length, [], true⟩ ∧
      LegalArguments scope ended more ∧ LegalArguments scope (bindsAll more ++ ended) es

def LegalBody (scope ended : List String) : List Term → Prop
  | [] => True
  | e :: es => Legal scope ended e ∧ LegalBody scope (e.binds ++ ended) es

def LegalArguments (scope ended : List String) : List Term → Prop
  | [] => True
  | e :: es => LegalArguments scope ended es ∧ Legal scope (bindsAll es ++ ended) e

end

end

end Term

/-! ### Functions -/

/-- `(defun name (params… & rest) body…)` -/
structure Definition where
  name : String
  params : List String
  rest : Option String
  body : List Term

namespace Definition

variable (d : Definition)

/-- What the function takes. -/
def args : Args := ⟨d.params.length, [], d.rest.isSome⟩

/-- The names of all parameters. -/
def names : List String := d.params ++ d.rest.toList

def bindings (vs : List Word) : Bindings := (d.names.zip vs).reverse

/-- What the function does with words, where `F` is what the others do, and for at most `n` nested
calls of itself. -/
def run (F : Functions) : ℕ → List Word → Outcome Heap Word
  | 0, _ => .fail
  | n + 1, vs =>
    Term.evalProgn (fun f ws => if f = d.name then run F n ws else F f ws) (d.bindings vs) d.body

/-- The variables are in scope and calls are right, where `takes` is what the other functions
take. -/
def Legal (takes : String → Option Args) : Prop :=
  Term.LegalBody (fun f => if f = d.name then some d.args else takes f) d.names.reverse [] d.body

end Definition

/-- What the functions of a program do, the most recent definition first, for at most `n` nested
calls of each.  `B` is what the functions do that are not compiled. -/
def meaning (B : Functions) (n : ℕ) : List Definition → Functions
  | [] => B
  | d :: older => fun f vs =>
    if f = d.name then d.run (meaning B n older) n vs else meaning B n older f vs

/-! ### Forms -/

namespace Heap

variable (H : Heap)

/-- The walk does not enter the quoted value `v`, which is no cyclic list. -/
def Unquoted (v : Word) : Prop :=
  ∃ b, H.listp v = some b ∧ (b = true → H.symstreq (H.car v) "unquote" = false ∧
    H.symstreq (H.car v) "unquote-splice" = false)

mutual

/-- The value `v` is the form `e`. -/
def Spells (v : Word) : Term → Prop
  | .nil => v = Lisp.nil ∨ H.Named v "nil"
  | .t => H.Named v "t"
  | .literal w => v = w ∧ (integerp v ∨ stringp v)
  | .quote w => H.IsForm v "quote" [w] ∧ H.Unquoted w
  | .var x => H.Named v x ∧ x ∉ constants
  | .ite c a b => ∃ x y, Spells x c ∧ Spells y a ∧
      ((∃ z, H.IsForm v "if" [x, y, z] ∧ Spells z b) ∨ H.IsForm v "if" [x, y] ∧ b = .nil)
  | .andOr or es => ∃ ws, H.IsForm v (if or then "or" else "and") ws ∧ SpellsAll ws es ∧ es ≠ []
  | .progn es => ∃ ws, H.IsForm v "progn" ws ∧ SpellsAll ws es ∧ es ≠ []
  | .let1 x e es => ∃ binding u w ws, H.IsForm v "let1" (binding :: ws) ∧
      ListOf H binding [u, w] ∧ H.Named u x ∧ Spells w e ∧ SpellsAll ws es ∧ es ≠ []
  | .list es => ∃ ws, H.IsForm v "list" ws ∧ SpellsAll ws es
  | .call f es => f ∉ specialForms ∧ ∃ ws, H.IsForm v f ws ∧ SpellsAll ws es
  | .callRest f es more => f ∉ specialForms ∧ ∃ ws us, H.IsForm v f (ws ++ us) ∧
      SpellsAll ws es ∧ SpellsAll us more

/-- The values `ws` are the forms `es`. -/
def SpellsAll (ws : List Word) : List Term → Prop
  | [] => ws = []
  | e :: es => ∃ w ws', ws = w :: ws' ∧ Spells w e ∧ SpellsAll ws' es

end

/-- The values `ws` are the parameters of a function. -/
def Declares (ws : List Word) (params : List String) : Option String → Prop
  | none => List.Forall₂ H.Named ws params
  | some r => ∃ ws' u v, ws = ws' ++ [u, v] ∧ List.Forall₂ H.Named ws' params ∧ H.Named u "&" ∧
      H.Named v r

/-- The value `v` is the list of a function's parameters and the forms of its body. -/
def Defines (v : Word) (d : Definition) : Prop :=
  ∃ u us ws, ListOf H v (u :: ws) ∧ ListOf H u us ∧ H.Declares us d.params d.rest ∧
    "&" ∉ d.params ∧ H.SpellsAll ws d.body ∧ d.body ≠ []

end Heap

end Lisp

end Bluejay
