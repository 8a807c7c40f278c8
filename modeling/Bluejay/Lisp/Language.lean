import Bluejay.Lib.Traced
import Mathlib.Data.Int.Notation

/-!
# The language of the reference

* `Form`, `Lambda`, `Value` : forms whose macros are expanded, functions and values.
* `Language` : the functions of a program; those written in C are a parameter.
* `eval` : what a form evaluates to, as `lisp_reference.tex` says, for a given amount of fuel.
  Every evaluation of a `progn` is reported.
* `Evaluates`, `EvaluatesAll`, `EvaluatesArgs`, `Calls` : with enough fuel; one rule for each kind
  of form.
-/

namespace Bluejay

namespace Lisp

namespace Language

mutual

/-- A form.  A `progn` has the address of its cell. -/
inductive Form
  /-- `nil`, `t`, an integer, a string or a quoted value. -/
  | const (v : Value)
  | var (x : String)
  | ite (predicate yes no : Form)
  | andOr (or : Bool) (forms : List Form)
  | progn (cell : ℕ) (forms : List Form)
  | let1 (x : String) (form : Form) (body : List Form)
  | lambda (l : Lambda)
  | recurse (args : List Form)
  | function (name : String)
  | call (name : String) (args : List Form)

/-- A parameter list (required, optional with defaults, `&`) and a body. -/
inductive Lambda
  | mk (required : List String) (optional : List (String × Value)) (rest : Option String)
    (body : List Form)

inductive Value
  | nil
  | t
  | int (i : ℤ)
  | string (chars : String)
  | symbol (name : String)
  | cons (car cdr : Value)
  | closure (l : Lambda) (env : List (String × Value))
  /-- A function-object. -/
  | function (name : String)
  /-- A class instance. -/
  | object (n : ℕ)

end

/-- The variables in scope, innermost first. -/
abbrev Env := List (String × Value)

namespace Value

def isNil : Value → Bool
  | nil => true
  | _ => false

/-- `car`, which is `nil` for what is not a pair. -/
def car : Value → Value
  | cons a _ => a
  | _ => nil

/-- `cdr`, likewise. -/
def cdr : Value → Value
  | cons _ d => d
  | _ => nil

/-- A cons-list. -/
def list : List Value → Value
  | [] => nil
  | v :: vs => cons v (list vs)

/-- The values of a cons-list. -/
def toList : Value → Option (List Value)
  | nil => some []
  | cons a d => d.toList.map (a :: ·)
  | _ => none

@[simp] theorem toList_list (vs : List Value) : (list vs).toList = some vs := by
  induction vs with
  | nil => rfl
  | cons v vs ih => rw [list, toList, ih, Option.map_some]

@[simp] theorem isNil_list (vs : List Value) : (list vs).isNil = vs.isEmpty := by
  cases vs <;> rfl

end Value

def Lambda.body : Lambda → List Form
  | .mk _ _ _ body => body

/-- What is left of the arguments behind the required ones. -/
def bindOptional : List (String × Value) → Option String → List Value → Option Env
  | (x, _) :: optional, rest, v :: vs => (bindOptional optional rest vs).map ((x, v) :: ·)
  | (x, v) :: optional, rest, [] => (bindOptional optional rest []).map ((x, v) :: ·)
  | [], some x, vs => some [(x, .list vs)]
  | [], none, [] => some []
  | [], none, _ :: _ => none

/-- The parameters with the arguments that they get, if these are acceptable. -/
def bindParams (optional : List (String × Value)) (rest : Option String) :
    List String → List Value → Option Env
  | x :: required, v :: vs => (bindParams optional rest required vs).map ((x, v) :: ·)
  | _ :: _, [] => none
  | [], vs => bindOptional optional rest vs

def Lambda.bind : Lambda → List Value → Option Env
  | .mk required optional rest _, vs => bindParams optional rest required vs

/-- What is in scope: variables and the current lambda. -/
structure Scope where
  env : Env
  self : Option Value

/-- A `progn` is evaluated. -/
structure Event where
  cell : ℕ
  env : Env

/-- Evaluation, with a world `W` of everything that changes. -/
abbrev Eval (W : Type) := Traced W Event

end Language

open Language in
/-- The functions of a program: those that `defun` defines and those that are written in C. -/
structure Language (W : Type) where
  functions : String → Option Lambda
  builtin : String → List Value → W → Option (Value × W)

namespace Language

variable {W : Type}

/-- `(defun funcall (fun & list) (apply fun list))` -/
def funcall : Lambda := .mk ["fun"] [] (some "list") [.call "apply" [.var "fun", .var "list"]]

def function? (L : Language W) (name : String) : Option Lambda :=
  if name = "funcall" then some funcall else L.functions name

/-! ### Evaluation -/

/-- Forms in turn; the value is that of the last one. -/
def prognForms (ev : Form → Eval W Value) : List Form → Eval W Value
  | [] => pure .nil
  | [f] => ev f
  | f :: fs => ev f >>= fun _ => prognForms ev fs

/-- `and` and `or` -/
def andOrForms (or : Bool) (ev : Form → Eval W Value) : List Form → Eval W Value
  | [] => Traced.fail
  | [f] => ev f
  | f :: fs => ev f >>= fun v => if v.isNil = or then andOrForms or ev fs else pure v

/-- Arguments, of which the last one is evaluated first. -/
def evalArgs (ev : Form → Eval W Value) : List Form → Eval W (List Value)
  | [] => pure []
  | f :: fs => evalArgs ev fs >>= fun vs => ev f >>= fun v => pure (v :: vs)

/-- Call a function whose variables are those of `env`. -/
def enter (ev : Scope → Form → Eval W Value) (l : Lambda) (env : Env) (self : Option Value)
    (vs : List Value) : Eval W Value :=
  Traced.ofOption (l.bind vs) >>= fun params => prognForms (ev ⟨params ++ env, self⟩) l.body

/-- `apply`, which is `nil` for what is not a function. -/
def callValue (ev : Scope → Form → Eval W Value) : Value → List Value → Eval W Value
  | .closure l env, vs => enter ev l env (some (.closure l env)) vs
  | .function name, vs => ev ⟨[], none⟩ (.call name (vs.map .const))
  | _, _ => pure .nil

/-- `car` and `cdr` take one argument. -/
def onPair (f : Value → Value) : List Value → Eval W Value
  | [v] => pure (f v)
  | _ => Traced.fail

/-- `apply` takes a function and a list. -/
def apply (ev : Scope → Form → Eval W Value) : List Value → Eval W Value
  | [f, l] => Traced.ofOption l.toList >>= callValue ev f
  | _ => Traced.fail

/-- Call a function by its name. -/
def invoke (L : Language W) (ev : Scope → Form → Eval W Value) (name : String)
    (vs : List Value) : Eval W Value :=
  if name = "car" then onPair .car vs
  else if name = "cdr" then onPair .cdr vs
  else if name = "apply" then apply ev vs
  else
    match L.function? name with
    | some l => enter ev l [] none vs
    | none => Traced.lift (L.builtin name vs)

/-- A form in a scope, for the fuel `n`. -/
def eval (L : Language W) : ℕ → Scope → Form → Eval W Value
  | 0, _, _ => Traced.fail
  | n + 1, c, f =>
    match f with
    | .const v => pure v
    | .var x => Traced.ofOption (c.env.lookup x)
    | .ite predicate yes no =>
      eval L n c predicate >>= fun v => if v.isNil then eval L n c no else eval L n c yes
    | .andOr or fs => andOrForms or (eval L n c) fs
    | .progn cell fs => Traced.emit ⟨cell, c.env⟩ >>= fun _ => prognForms (eval L n c) fs
    | .let1 x form body =>
      eval L n c form >>= fun v => prognForms (eval L n ⟨(x, v) :: c.env, c.self⟩) body
    | .lambda l => pure (.closure l c.env)
    | .recurse fs =>
      evalArgs (eval L n c) fs >>= fun vs => Traced.ofOption c.self >>= fun f =>
        callValue (eval L n) f vs
    | .function name => if name = "recurse" then Traced.ofOption c.self else pure (.function name)
    | .call name fs => evalArgs (eval L n c) fs >>= L.invoke (eval L n) name

/-! ### More fuel -/

section Below

open Traced

variable {ev ev' : Scope → Form → Eval W Value} {c : Scope}

theorem prognForms_below (h : ∀ f, Below (ev c f) (ev' c f)) (fs : List Form) :
    Below (prognForms (ev c) fs) (prognForms (ev' c) fs) := by
  induction fs with
  | nil => exact .refl _
  | cons f fs ih =>
    cases fs with
    | nil => exact h f
    | cons g fs => exact (h f).bind fun _ => ih

theorem andOrForms_below (or : Bool) (h : ∀ f, Below (ev c f) (ev' c f)) (fs : List Form) :
    Below (andOrForms or (ev c) fs) (andOrForms or (ev' c) fs) := by
  induction fs with
  | nil => exact .refl _
  | cons f fs ih =>
    cases fs with
    | nil => exact h f
    | cons g fs => exact (h f).bind fun v => .ite ih (.refl _)

theorem evalArgs_below (h : ∀ f, Below (ev c f) (ev' c f)) (fs : List Form) :
    Below (evalArgs (ev c) fs) (evalArgs (ev' c) fs) := by
  induction fs with
  | nil => exact .refl _
  | cons f fs ih => exact ih.bind fun vs => (h f).bind fun v => .refl _

theorem enter_below (h : ∀ c f, Below (ev c f) (ev' c f)) (l : Lambda) (env : Env)
    (self : Option Value) (vs : List Value) :
    Below (enter ev l env self vs) (enter ev' l env self vs) :=
  (Below.refl _).bind fun _ => prognForms_below (h _) _

theorem callValue_below (h : ∀ c f, Below (ev c f) (ev' c f)) (f : Value) (vs : List Value) :
    Below (callValue ev f vs) (callValue ev' f vs) := by
  cases f with
  | closure l env => exact enter_below h l env _ vs
  | function name => exact h _ _
  | _ => exact .refl _

theorem apply_below (h : ∀ c f, Below (ev c f) (ev' c f)) (vs : List Value) :
    Below (apply ev vs) (apply ev' vs) := by
  unfold apply
  split
  · exact (Below.refl _).bind fun vs => callValue_below h _ vs
  · exact .refl _

theorem invoke_below (L : Language W) (h : ∀ c f, Below (ev c f) (ev' c f)) (name : String)
    (vs : List Value) : Below (L.invoke ev name vs) (L.invoke ev' name vs) := by
  refine .ite (.refl _) (.ite (.refl _) (.ite (apply_below h vs) ?_))
  cases L.function? name with
  | some l => exact enter_below h l [] none vs
  | none => exact .refl _

/-- More fuel does not change what is returned. -/
theorem eval_below (L : Language W) (n : ℕ) (c : Scope) (f : Form) :
    Below (L.eval n c f) (L.eval (n + 1) c f) := by
  induction n generalizing c f with
  | zero => exact .fail _
  | succ n ih =>
    cases f with
    | const v => exact .refl _
    | var x => exact .refl _
    | ite predicate yes no => exact (ih c predicate).bind fun v => .ite (ih c no) (ih c yes)
    | andOr or fs => exact andOrForms_below or (ih c) fs
    | progn cell fs => exact (Below.refl _).bind fun _ => prognForms_below (ih c) fs
    | let1 x form body => exact (ih c form).bind fun v => prognForms_below (ih _) body
    | lambda l => exact .refl _
    | recurse fs =>
      exact (evalArgs_below (ih c) fs).bind fun vs => (Below.refl _).bind fun f =>
        callValue_below ih f vs
    | function name => exact .refl _
    | call name fs => exact (evalArgs_below (ih c) fs).bind fun vs => invoke_below L ih name vs

end Below

/-! ### With enough fuel -/

section Rules

open Traced

variable (L : Language W) (c : Scope)

/-- The form `f` evaluates to `r`: a value, the world behind it, and what was reported. -/
def Evaluates (f : Form) (w : W) (r : Value × W × List Event) : Prop :=
  Limit (fun n => L.eval n c f) w r

/-- The same for the forms of a body. -/
def EvaluatesAll (fs : List Form) (w : W) (r : Value × W × List Event) : Prop :=
  Limit (fun n => prognForms (L.eval n c) fs) w r

/-- The same for arguments. -/
def EvaluatesArgs (fs : List Form) (w : W) (r : List Value × W × List Event) : Prop :=
  Limit (fun n => evalArgs (L.eval n c) fs) w r

/-- The same for a call. -/
def Calls (f : Value) (vs : List Value) (w : W) (r : Value × W × List Event) : Prop :=
  Limit (fun n => callValue (L.eval n) f vs) w r

/-- The same for a call of a function by its name. -/
def Invokes (name : String) (vs : List Value) (w : W) (r : Value × W × List Event) : Prop :=
  Limit (fun n => L.invoke (L.eval n) name vs) w r

variable {L c} {w w' : W} {v : Value} {vs : List Value} {t : List Event} {f : Form}
  {fs : List Form} {x name : String} {l : Lambda} {env params : Env} {r : Value × W × List Event}

theorem eval_mono (L : Language W) (c : Scope) (f : Form) : Mono fun n => L.eval n c f :=
  fun n => L.eval_below n c f

theorem prognForms_mono (L : Language W) (c : Scope) (fs : List Form) :
    Mono fun n => prognForms (L.eval n c) fs :=
  fun n => @prognForms_below _ (L.eval n) _ c (L.eval_below n c) fs

theorem evalArgs_mono (L : Language W) (c : Scope) (fs : List Form) :
    Mono fun n => evalArgs (L.eval n c) fs :=
  fun n => @evalArgs_below _ (L.eval n) _ c (L.eval_below n c) fs

theorem callValue_mono (L : Language W) (f : Value) (vs : List Value) :
    Mono fun n => callValue (L.eval n) f vs := fun n => callValue_below (L.eval_below n) f vs

theorem invoke_mono (L : Language W) (name : String) (vs : List Value) :
    Mono fun n => L.invoke (L.eval n) name vs := fun n => invoke_below L (L.eval_below n) name vs

/-- What one unit of fuel more does. -/
theorem evaluates_succ : Evaluates L c f w r ↔ Limit (fun n => L.eval (n + 1) c f) w r :=
  (limit_succ (eval_mono L c f)).symm

theorem limit_pure {α : Type} {a : α} {r : α × W × List Event} :
    Limit (fun _ => (pure a : Eval W α)) w r ↔ r = (a, w, []) := by
  rw [limit_const, pure_apply, Option.some.injEq, eq_comm]

theorem evaluates_const : Evaluates L c (.const v) w r ↔ r = (v, w, []) :=
  evaluates_succ.trans limit_pure

theorem evaluates_var (h : c.env.lookup x = some v) :
    Evaluates L c (.var x) w r ↔ r = (v, w, []) := by
  have heval : ∀ n, L.eval (n + 1) c (.var x) = pure v := fun n => congrArg ofOption h
  rw [evaluates_succ]
  simp only [heval, limit_pure]

theorem evaluates_lambda : Evaluates L c (.lambda l) w r ↔ r = (.closure l c.env, w, []) :=
  evaluates_succ.trans limit_pure

theorem evaluates_ite {predicate yes no : Form} :
    Evaluates L c (.ite predicate yes no) w (v, w', t) ↔ ∃ u w₁ t₁ t₂,
      Evaluates L c predicate w (u, w₁, t₁) ∧
        Evaluates L c (if u.isNil then no else yes) w₁ (v, w', t₂) ∧ t = t₁ ++ t₂ := by
  have hmono : ∀ u : Value, Mono fun n => if u.isNil then L.eval n c no else L.eval n c yes :=
    fun u n => .ite (L.eval_below n c no) (L.eval_below n c yes)
  refine (evaluates_succ.trans (limit_bind_iff (eval_mono L c predicate) hmono)).trans ?_
  refine exists_congr fun u => ?_
  cases u.isNil <;> exact Iff.rfl

theorem evaluates_progn {cell : ℕ} : Evaluates L c (.progn cell fs) w (v, w', t) ↔ ∃ t',
    EvaluatesAll L c fs w (v, w', t') ∧ t = ⟨cell, c.env⟩ :: t' := by
  refine (evaluates_succ.trans (limit_bind_iff (mono_const _)
    fun _ => prognForms_mono L c fs)).trans ?_
  constructor
  · rintro ⟨⟨⟩, w₁, t₁, t₂, hemit, hall, rfl⟩
    cases limit_const.1 hemit
    exact ⟨t₂, hall, rfl⟩
  · rintro ⟨t', hall, rfl⟩
    exact ⟨(), w, _, t', limit_const.2 rfl, hall, rfl⟩

theorem evaluates_let1 {body : List Form} :
    Evaluates L c (.let1 x f body) w (v, w', t) ↔ ∃ u w₁ t₁ t₂, Evaluates L c f w (u, w₁, t₁) ∧
      EvaluatesAll L ⟨(x, u) :: c.env, c.self⟩ body w₁ (v, w', t₂) ∧ t = t₁ ++ t₂ :=
  evaluates_succ.trans (limit_bind_iff (eval_mono L c f) fun _ => prognForms_mono L _ body)

theorem evaluates_recurse {self : Value} (h : c.self = some self) :
    Evaluates L c (.recurse fs) w (v, w', t) ↔ ∃ vs w₁ t₁ t₂,
      EvaluatesArgs L c fs w (vs, w₁, t₁) ∧ Calls L self vs w₁ (v, w', t₂) ∧ t = t₁ ++ t₂ := by
  have heval : ∀ n, L.eval (n + 1) c (.recurse fs) =
      (evalArgs (L.eval n c) fs >>= fun vs => callValue (L.eval n) self vs) := by
    intro n
    rw [eval, h]
    simp only [ofOption, pure_bind]
  rw [evaluates_succ]
  simp only [heval]
  exact limit_bind_iff (evalArgs_mono L c fs) fun vs => callValue_mono L self vs

theorem evaluates_call : Evaluates L c (.call name fs) w (v, w', t) ↔ ∃ vs w₁ t₁ t₂,
    EvaluatesArgs L c fs w (vs, w₁, t₁) ∧ Invokes L name vs w₁ (v, w', t₂) ∧ t = t₁ ++ t₂ :=
  evaluates_succ.trans (limit_bind_iff (evalArgs_mono L c fs) fun vs => invoke_mono L name vs)

theorem evaluatesAll_singleton : EvaluatesAll L c [f] w r ↔ Evaluates L c f w r := Iff.rfl

theorem evaluatesAll_cons {g : Form} : EvaluatesAll L c (f :: g :: fs) w (v, w', t) ↔
    ∃ u w₁ t₁ t₂, Evaluates L c f w (u, w₁, t₁) ∧ EvaluatesAll L c (g :: fs) w₁ (v, w', t₂) ∧
      t = t₁ ++ t₂ :=
  limit_bind_iff (eval_mono L c f) fun _ => prognForms_mono L c (g :: fs)

theorem evaluatesArgs_nil {r : List Value × W × List Event} :
    EvaluatesArgs L c [] w r ↔ r = ([], w, []) := limit_pure

theorem evaluatesArgs_cons : EvaluatesArgs L c (f :: fs) w (vs, w', t) ↔ ∃ us w₁ t₁ t₂,
    EvaluatesArgs L c fs w (us, w₁, t₁) ∧
      (∃ u, Evaluates L c f w₁ (u, w', t₂) ∧ vs = u :: us) ∧ t = t₁ ++ t₂ := by
  have hmono : ∀ us : List Value, Mono fun n => L.eval n c f >>= fun u => pure (u :: us) :=
    fun us => (eval_mono L c f).bind fun u => mono_const _
  refine (limit_bind_iff (evalArgs_mono L c fs) hmono).trans ?_
  refine exists_congr fun us => exists_congr fun w₁ => exists_congr fun t₁ =>
    exists_congr fun t₂ => and_congr_right fun _ => and_congr_left fun _ => ?_
  simp only [Limit, bind_pure_apply, Evaluates]
  constructor
  · rintro ⟨n, u, hu, rfl⟩
    exact ⟨u, ⟨n, hu⟩, rfl⟩
  · rintro ⟨u, ⟨n, hu⟩, rfl⟩
    exact ⟨n, u, hu, rfl⟩

theorem calls_closure (hbind : l.bind vs = some params) :
    Calls L (.closure l env) vs w r ↔
      EvaluatesAll L ⟨params ++ env, some (.closure l env)⟩ l.body w r := by
  have hcall : ∀ n, callValue (L.eval n) (.closure l env) vs =
      prognForms (L.eval n ⟨params ++ env, some (.closure l env)⟩) l.body := by
    intro n
    rw [callValue, enter, hbind]
    exact pure_bind params _
  simp only [Calls, hcall]
  exact Iff.rfl

theorem invokes_car : Invokes L "car" [v] w r ↔ r = (v.car, w, []) := limit_pure

theorem invokes_cdr : Invokes L "cdr" [v] w r ↔ r = (v.cdr, w, []) := limit_pure

theorem invokes_apply : Invokes L "apply" [v, .list vs] w r ↔ Calls L v vs w r := by
  have hcall : ∀ n, L.invoke (L.eval n) "apply" [v, .list vs] = callValue (L.eval n) v vs := by
    intro n
    change (ofOption (Value.list vs).toList >>= callValue (L.eval n) v) = _
    rw [Value.toList_list]
    exact Traced.pure_bind vs _
  simp only [Invokes, hcall]
  exact Iff.rfl

theorem invoke_funcall (L : Language W) (ev : Scope → Form → Eval W Value) (vs : List Value) :
    L.invoke ev "funcall" vs = enter ev funcall [] none vs := by
  simp [invoke, function?]

/-- `funcall` is `apply` with the arguments as a list. -/
theorem invokes_funcall : Invokes L "funcall" (v :: vs) w r ↔ Calls L v vs w r := by
  let c : Scope := ⟨[("fun", v), ("list", .list vs)], none⟩
  have hcall : ∀ n, L.invoke (L.eval n) "funcall" (v :: vs) =
      L.eval n c (.call "apply" [.var "fun", .var "list"]) := by
    intro n
    rw [invoke_funcall]
    exact Traced.pure_bind c.env fun params => prognForms (L.eval n ⟨params, none⟩) funcall.body
  have hfun : c.env.lookup "fun" = some v := rfl
  have hlist : c.env.lookup "list" = some (.list vs) := rfl
  obtain ⟨v', w', t⟩ := r
  simp only [Invokes, hcall]
  refine evaluates_call.trans ?_
  simp only [evaluatesArgs_cons, evaluatesArgs_nil, evaluates_var hfun, evaluates_var hlist]
  constructor
  · rintro ⟨us, w₁, t₁, t₂, ⟨_, w₂, _, _, ⟨_, w₃, _, _, hnil, ⟨_, hlist, rfl⟩, rfl⟩,
      ⟨_, hfun, rfl⟩, rfl⟩, happly, rfl⟩
    cases hnil
    cases hlist
    cases hfun
    exact invokes_apply.1 happly
  · intro h
    exact ⟨_, _, [], t, ⟨_, _, [], [], ⟨_, _, [], [], rfl, ⟨_, rfl, rfl⟩, rfl⟩, ⟨_, rfl, rfl⟩, rfl⟩,
      invokes_apply.2 h, rfl⟩

end Rules

end Language

end Lisp

end Bluejay
