import Bluejay.Lisp.Compiler

/-!
# Relations between runs of the compiler

What is related step by step is related for all that the compiler does with a function.

* `compilerWith next` : the compiler that asks `next` for the labels of a function, instead of
  `nextpc`.
* `Congruence R T` : the relation `T` holds of the steps of the compiler, and of programs that are
  composed of related ones.
* `Uniform R T` : it holds whichever code is emitted, and is a congruence then.
* `Congruence.compileExpression`, `Congruence.compileFunctionBody` : a congruence holds of what is
  compiled, if it does so for smaller bounds.
-/

namespace Bluejay

namespace Lisp

open Emitter

/-! ### The compiler, with another `nextpc` -/

section With

variable (next : CompileM ℕ) (R : Runtime) (C : Compiler)

/-- `compileIf`, with `next` for `nextpc`. -/
def compileIfWith (args : Word) (nargs : ℕ) (tail : Bool) : CompileM Unit := do
  throwIf (nargs < 2 ∨ nargs > 3) .args "Must give at least 2 arguments to if"
  C.compileExpression (← car args) false
  let false_label ← next
  let after_label ← next
  emit [.cmpEaxNil, .je false_label]
  C.compileExpression (← elt args 1) tail
  emit [.jmp after_label, .label false_label]
  when (nargs = 3) do C.compileExpression (← elt args 2) tail
  emit [.label after_label]

/-- `compileAndOr`, with `next` for `nextpc`. -/
def compileAndOrWith (args : Word) (nargs : ℕ) (or : Bool) : CompileM Unit := do
  throwIf (nargs < 1) .args "and & or require at least 1 argument."
  let after ← next
  forList (fun args => do
    C.compileExpression (← car args) false
    when (!nilp (← cdr args)) (emit [.cmpEaxNil, if or then .jne after else .je after]))
    C.steps args
  emit [.label after]

/-- `compileForm`, with `next` for `nextpc`. -/
def compileFormWith (val : Word) (tail : Bool) : CompileM Unit := do
  let fsym ← car val
  let args ← cdr val
  let nargs ← length args
  throwIf (!symbolp fsym) .expected "Function name must be a symbol"
  if ← symstreq fsym "if" then compileIfWith next C args nargs tail
  else if ← symstreq fsym "and" then compileAndOrWith next C args nargs false
  else if ← symstreq fsym "or" then compileAndOrWith next C args nargs true
  else if ← symstreq fsym "progn" then compileBody C args tail
  else if ← symstreq fsym "let1" then compileLet1 C args nargs tail
  else if ← symstreq fsym "gc" then compileGc nargs
  else if ← symstreq fsym "quote" then compileQuote args nargs
  else if ← symstreq fsym "backquote" then compileBackquoteForm C args nargs
  else if ← symstreq fsym "function" then compileFunctionForm R args nargs
  else if ← symstreq fsym "list" then compileList C args nargs
  else if ← symstreq fsym "lambda" then compileLambda C args
  else if ← symstreq fsym "eval" then compileEval C args nargs
  else if ← symstreq fsym "load" then compileLoad C args nargs
  else compileCall R C fsym args nargs tail

/-- `compileExpression`, with `next` for `nextpc`. -/
def compileExpressionWith (val : Word) (tail : Bool) : CompileM Unit := do
  if (← symstreq val "nil") || nilp val then emit [.movEax (.word nil)]
  else if ← symstreq val "t" then emit [.movEax (.word t)]
  else if integerp val || stringp val then emit [.movEax (.word val)]
  else if ← listp val then compileFormWith next R C val tail
  else if symbolp val then compileSymbol R val
  else if closurep val then emit [.movEax (.word val)]
  else throw .unimpl "Don't know how to compile this, sorry."

/-- The compiler, with `next` for `nextpc` in the function at hand; the functions in it ask
`nextpc` for labels of their own. -/
def compilerWith : ℕ → Compiler
  | 0 => compiler R 0
  | n + 1 => { compiler R (n + 1) with
      compileExpression := compileExpressionWith next R (compilerWith n)
      compileBackquote := compileBackquote (compilerWith n) }

theorem compileExpressionWith_nextpc :
    compileExpressionWith nextpc R C = compileExpression R C := rfl

theorem compilerWith_nextpc (n : ℕ) : compilerWith nextpc R n = compiler R n := by
  induction n with
  | zero => rfl
  | succ n ih =>
    rw [compilerWith, ih]
    rfl

end With

/-! ### Congruences -/

/-- An instruction that neither reads a variable nor has to do with closures. -/
def Instr.Plain : Instr → Prop
  | .loadArgument _ | .loadBound _ | .loadFree _ | .pushHere | .call .createClosure
  | .call .setClosureCaptureVariable => False
  | _ => True

/-- The code of `(function f)` in `f`. -/
def selfCode (a : Args) : Code :=
  [.push (.nat 0), .push (.args a), .pushHere, .call .createClosure]

/-- The relation holds of the steps of the compiler that emit no code, `nextpc` apart, and of what
is composed of related programs. -/
structure Steps (R : Runtime) (T : ∀ ⦃α : Type⦄, CompileM α → CompileM α → Prop) : Prop where
  bind : ∀ {α β : Type} {x x' : CompileM α} {f f' : α → CompileM β}, T x x' →
    (∀ a, T (f a) (f' a)) → T (x >>= f) (x' >>= f')
  pure : ∀ {α : Type} (a : α), T (pure a : CompileM α) (pure a)
  stop : ∀ {α : Type} (e : Err), T (stop e : CompileM α) (stop e)
  get : T (get : CompileM State) get
  allocate : ∀ o tag, T (allocate R o tag) (allocate R o tag)
  callList : ∀ f list, T (callList R f list) (callList R f list)
  run : ∀ p, T (run R p) (run R p)
  linkProgram : ∀ d, T (linkProgram d) (linkProgram d)
  pushPool : ∀ pool, T (pushPool pool) (pushPool pool)
  popPool : ∀ pool, T (popPool pool) (popPool pool)
  noteOccurrence : ∀ name, T (noteOccurrence name) (noteOccurrence name)
  localAlloc : T localAlloc localAlloc
  localFree : ∀ slot, T (localFree slot) (localFree slot)
  addBinder : ∀ {type : VarType} (name : String) (k : ℕ), type = .argument ∨ type = .bound →
    T (modifyLocal (.addBinder type name k)) (modifyLocal (.addBinder type name k))
  closeBinder : T (modifyLocal Local.closeBinder) (modifyLocal Local.closeBinder)
  setArgs : ∀ ar, T (modifyLocal fun l => { l with args := ar })
    (modifyLocal fun l => { l with args := ar })
  resetSlots : T (modifyLocal Local.resetSlots) (modifyLocal Local.resetSlots)

/-- It holds of the code that is emitted as well. -/
structure Congruence (R : Runtime) (T : ∀ ⦃α : Type⦄, CompileM α → CompileM α → Prop) : Prop
    extends Steps R T where
  emit : ∀ {c : Code}, (∀ i ∈ c, i.Plain) → T (emit c) (emit c)
  self : ∀ a, T (Emitter.emit (selfCode a)) (Emitter.emit (selfCode a))
  /-- A variable is read. -/
  reference : ∀ name : String, T (do
      match ← lookUp name with
      | none => throw .invalid ("Variable `" ++ name ++ "' unbound")
      | some v => compileVariable v) (do
      match ← lookUp name with
      | none => throw .invalid ("Variable `" ++ name ++ "' unbound")
      | some v => compileVariable v)

/-- It holds whichever code is emitted. -/
structure Uniform (R : Runtime) (T : ∀ ⦃α : Type⦄, CompileM α → CompileM α → Prop) : Prop
    extends Steps R T where
  emit : ∀ c, T (emit c) (emit c)
  lookUp : ∀ name, T (lookUp name) (lookUp name)

/-- What the compilers do is related. -/
structure Compiler.Related (R : Runtime) (T : ∀ ⦃α : Type⦄, CompileM α → CompileM α → Prop)
    (C C' : Compiler) : Prop where
  steps : C.steps = C'.steps
  walk : ∀ bp q, T (C.walkAndAlloc bp q) (C'.walkAndAlloc bp q)
  expr : ∀ v t, T (C.compileExpression v t) (C'.compileExpression v t)
  backquote : ∀ v, T (C.compileBackquote v) (C'.compileBackquote v)
  lambda : ∀ args, T (compileLambda C args) (compileLambda C' args)
  default : ∀ e, T (defaultValue R C e) (defaultValue R C' e)

namespace Steps

variable {R : Runtime} {T : ∀ ⦃α : Type⦄, CompileM α → CompileM α → Prop} (hT : Steps R T)
  {α : Type} {m m' m₁ m₁' : CompileM α}

theorem ite (_ : Steps R T) {p : Prop} [Decidable p] (h : T m m') (h₁ : T m₁ m₁') :
    T (if p then m else m₁) (if p then m' else m₁') := by
  split_ifs
  · exact h
  · exact h₁

include hT

theorem when {p : Prop} [Decidable p] {m m' : CompileM Unit} (h : T m m') :
    T (when p m) (when p m') :=
  hT.ite h (hT.pure ())

theorem throwIf {p : Prop} [Decidable p] {code : ErrorCode} {message : String} :
    T (throwIf p code message) (throwIf p code message) :=
  hT.when (hT.stop _)

theorem forDown {body body' : ℕ → CompileM Unit} (hb : ∀ i, T (body i) (body' i)) (lo n : ℕ) :
    T (forDown body lo n) (forDown body' lo n) := by
  induction n with
  | zero => exact hT.pure ()
  | succ n ih => exact hT.bind (hb _) fun _ => ih

theorem getHeap : T getHeap getHeap := hT.bind hT.get fun _ => hT.pure _

theorem car (v : Word) : T (car v) (car v) := hT.bind hT.getHeap fun _ => hT.pure _

theorem cdr (v : Word) : T (cdr v) (cdr v) := hT.bind hT.getHeap fun _ => hT.pure _

theorem elt (v : Word) (i : ℕ) : T (elt v i) (elt v i) := hT.bind hT.getHeap fun _ => hT.pure _

theorem symstreq (v : Word) (str : String) : T (symstreq v str) (symstreq v str) :=
  hT.bind hT.getHeap fun _ => hT.pure _

theorem listp (v : Word) : T (listp v) (listp v) := hT.bind hT.getHeap fun H => by
  cases H.listp v with
  | none => exact hT.stop _
  | some b => exact hT.pure b

theorem length (v : Word) : T (length v) (length v) := hT.bind hT.getHeap fun H => by
  cases H.length v with
  | none => exact hT.stop _
  | some n => exact hT.pure n

theorem symbolName (v : Word) : T (symbolName v) (symbolName v) := hT.bind hT.getHeap fun H => by
  split
  · exact hT.pure _
  · exact hT.stop _

theorem findFunction (name : String) : T (findFunction name) (findFunction name) :=
  hT.bind hT.get fun _ => hT.pure _

theorem getLocal : T getLocal getLocal := hT.bind hT.get fun s => by
  cases s.locals with
  | nil => exact hT.stop _
  | cons l L => exact hT.pure l

theorem isSplice (v : Word) : T (isSplice v) (isSplice v) := hT.bind (hT.listp v) fun _ =>
  hT.ite (hT.bind (hT.car v) fun w => hT.symstreq w _) (hT.pure false)

theorem forList {body body' : Word → CompileM Unit} (hb : ∀ v, T (body v) (body' v)) (n : ℕ)
    (v : Word) : T (forList body n v) (forList body' n v) := by
  induction n generalizing v with
  | zero => exact hT.stop _
  | succ n ih =>
    exact hT.ite (hT.pure ()) (hT.bind (hb v) fun _ => hT.bind (hT.cdr v) fun w => ih w)

end Steps

namespace Uniform

variable {R : Runtime} {T : ∀ ⦃α : Type⦄, CompileM α → CompileM α → Prop} (hT : Uniform R T)

include hT

theorem compileVariable (v : Variable) : T (compileVariable v) (compileVariable v) := by
  unfold Lisp.compileVariable
  cases v.type
  case global => exact hT.stop _
  all_goals exact hT.emit _

theorem congruence : Congruence R T where
  toSteps := hT.toSteps
  emit _ := hT.emit _
  self _ := hT.emit _
  reference _ := hT.bind (hT.lookUp _) fun v => by
    cases v with
    | none => exact hT.stop _
    | some v => exact hT.compileVariable v

theorem compileCaptures (vars : List Variable) :
    T (compileCaptures vars) (compileCaptures vars) := by
  induction vars with
  | nil => exact hT.pure ()
  | cons v vars ih =>
    refine hT.bind (hT.when ?_) fun _ => ih
    refine hT.bind (hT.emit _) fun _ => hT.bind ?_ fun _ => hT.emit _
    refine hT.bind (hT.lookUp _) fun v => ?_
    cases v with
    | none => exact hT.stop _
    | some v => exact hT.compileVariable v

variable {C C' : Compiler} (hfunction : ∀ v closed name path,
  T (C.compileFunction v closed name path) (C'.compileFunction v closed name path))

include hfunction

theorem compileLambda (args : Word) : T (compileLambda C args) (compileLambda C' args) :=
  hT.bind hT.getLocal fun _ => hT.bind (hfunction _ _ _ _) fun _ =>
    hT.bind (hT.linkProgram _) fun _ => hT.bind (hT.emit _) fun _ => hT.compileCaptures _

theorem defaultValue (expr : Word) : T (defaultValue R C expr) (defaultValue R C' expr) :=
  hT.bind (hT.allocate _ _) fun _ => hT.bind (hT.allocate _ _) fun _ =>
    hT.bind hT.getLocal fun _ => hT.bind (hfunction _ _ _ _) fun _ =>
    hT.bind (hT.linkProgram _) fun _ => hT.run _

/-- Compilers whose functions are related. -/
theorem related (hsteps : C.steps = C'.steps)
    (hwalk : ∀ bp q, T (C.walkAndAlloc bp q) (C'.walkAndAlloc bp q))
    (hexpr : ∀ v t, T (C.compileExpression v t) (C'.compileExpression v t))
    (hbackquote : ∀ v, T (C.compileBackquote v) (C'.compileBackquote v)) : C.Related R T C' where
  steps := hsteps
  walk := hwalk
  expr := hexpr
  backquote := hbackquote
  lambda := hT.compileLambda hfunction
  default := hT.defaultValue hfunction

end Uniform

namespace Congruence

attribute [local simp] Instr.Plain

variable {R : Runtime} {T : ∀ ⦃α : Type⦄, CompileM α → CompileM α → Prop} (hT : Congruence R T)
  {C C' : Compiler}

include hT

theorem compileFunctionForm (args : Word) (nargs : ℕ) :
    T (compileFunctionForm R args nargs) (compileFunctionForm R args nargs) := by
  refine hT.bind hT.throwIf fun _ => hT.bind (hT.car _) fun _ => hT.bind hT.throwIf fun _ =>
    hT.bind (hT.symbolName _) fun name => hT.bind hT.getLocal fun l => ?_
  cases l.currentFunctionName with
  | none => exact hT.stop _
  | some current =>
    refine hT.ite (hT.self _) (hT.bind (hT.findFunction _) fun f => ?_)
    cases f with
    | none => exact hT.stop _
    | some f => exact hT.bind (hT.allocate _ _) fun _ => hT.emit (by simp)

theorem compileSymbol (val : Word) : T (compileSymbol R val) (compileSymbol R val) := by
  refine hT.bind (hT.symstreq _ _) fun _ => hT.ite ?_ ?_
  · exact hT.bind hT.getLocal fun _ => hT.bind (hT.allocate _ _) fun _ =>
      hT.emit (by simp)
  refine hT.bind (hT.symstreq _ _) fun _ => hT.ite (hT.emit (by simp)) ?_
  exact hT.bind (hT.symbolName _) fun name => hT.bind (hT.noteOccurrence _) fun _ =>
    hT.reference name

variable (hC : C.Related R T C')

include hC

theorem compileArguments (args : Word) (lo hi : ℕ) {after : Code} (ha : ∀ i ∈ after, i.Plain) :
    T (compileArguments C args lo hi after) (compileArguments C' args lo hi after) :=
  hT.forDown (fun _ => hT.bind (hT.elt _ _) fun _ => hT.bind (hC.expr _ _) fun _ =>
    hT.emit ha) _ _

theorem compileBody (body : Word) (tail : Bool) :
    T (compileBody C body tail) (compileBody C' body tail) := by
  unfold Lisp.compileBody
  rw [hC.steps]
  exact hT.forList (fun _ => hT.bind (hT.cdr _) fun _ => hT.bind (hT.car _) fun _ =>
    hC.expr _ _) _ _

theorem compileBackquote (val : Word) :
    T (compileBackquote C val) (compileBackquote C' val) := by
  refine hT.bind (hT.listp _) fun _ => hT.ite (hT.emit (by simp)) ?_
  refine hT.bind (hT.car _) fun _ => hT.bind (hT.cdr _) fun _ => hT.bind (hT.length _) fun _ =>
    hT.bind (hT.length _) fun _ => hT.bind (hT.symstreq _ _) fun _ => hT.ite ?_ ?_
  · exact hT.bind hT.throwIf fun _ => hT.bind (hT.car _) fun _ => hC.expr _ _
  refine hT.bind (hT.emit (by simp)) fun _ => hT.bind ?_ fun _ =>
    hT.emit (by simp)
  refine hT.forDown (fun _ => hT.bind (hT.elt _ _) fun _ => hT.bind (hT.isSplice _) fun _ =>
    hT.ite ?_ ?_) _ _
  · exact hT.bind (hT.length _) fun _ => hT.bind hT.throwIf fun _ => hT.bind (hT.cdr _) fun _ =>
      hT.bind (hT.car _) fun _ => hT.bind (hC.expr _ _) fun _ =>
      hT.emit (by simp [mergeCode])
  · exact hT.bind (hC.backquote _) fun _ => hT.emit (by simp [consCode])

theorem compilePassing (args : Word) (nargs : ℕ) (needed : Args) :
    T (compilePassing C args nargs needed) (compilePassing C' args nargs needed) := by
  refine hT.bind ?_ fun _ => hT.compileArguments hC _ _ _ (by simp)
  refine hT.bind (hT.when (hT.emit (by simp))) fun _ =>
    hT.bind (hT.when (hT.compileArguments hC _ _ _ (by simp [consCode]))) fun _ =>
    hT.emit ?_
  intro i hi
  obtain ⟨o, -, rfl⟩ := List.mem_map.1 hi
  trivial

theorem compileLet1 (args : Word) (nargs : ℕ) (tail : Bool) :
    T (compileLet1 C args nargs tail) (compileLet1 C' args nargs tail) :=
  hT.bind hT.throwIf fun _ => hT.bind (hT.car _) fun _ => hT.bind (hT.cdr _) fun _ =>
    hT.bind (hT.length _) fun _ => hT.bind hT.throwIf fun _ => hT.bind (hT.car _) fun _ =>
    hT.bind (hT.cdr _) fun _ => hT.bind (hT.car _) fun _ => hT.bind (hC.expr _ _) fun _ =>
    hT.bind hT.localAlloc fun _ => hT.bind (hT.symbolName _) fun _ =>
    hT.bind (hT.addBinder _ _ (.inr rfl)) fun _ =>
    hT.bind (hT.emit (by simp)) fun _ => hT.bind (hT.compileBody hC _ _) fun _ =>
    hT.bind (hT.localFree _) fun _ => hT.closeBinder

theorem compileCall (fsym args : Word) (nargs : ℕ) (tail : Bool) :
    T (compileCall R C fsym args nargs tail) (compileCall R C' fsym args nargs tail) := by
  refine hT.bind (hT.symbolName _) fun name => hT.bind (hT.findFunction _) fun func =>
    hT.bind hT.getLocal fun l => ?_
  dsimp only
  split
  · exact hT.stop _
  refine hT.bind hT.throwIf fun _ => hT.ite ?_ ?_
  · refine hT.bind (hT.compilePassing hC _ _ _) fun _ => hT.bind (hT.emit ?_) fun _ =>
      hT.emit (by simp)
    intro i hi
    split_ifs at hi
    · simp only [tailCall, List.mem_append, List.mem_flatMap] at hi
      rcases hi with ⟨k, -, hi⟩ | hi <;> simp at hi <;> rcases hi with rfl | rfl | rfl <;> trivial
    · simp at hi
      simp [hi]
  rcases func with _ | ⟨fname, fargs, _ | _ | _, code⟩
  · exact hT.pure _
  · exact hT.bind (hT.compilePassing hC _ _ _) fun _ => hT.emit (by simp)
  · exact hT.bind (hT.pushPool _) fun _ => hT.bind (hT.callList _ _) fun _ =>
      hT.bind (hT.popPool _) fun _ => hC.expr _ _
  · exact hT.pure _

theorem listToArgs (n : ℕ) (i : Word) (args : Args) (opt : Bool) :
    T (listToArgs R C n i args opt) (listToArgs R C' n i args opt) := by
  induction n generalizing i args opt with
  | zero => exact hT.stop _
  | succ n ih =>
    have hnext : ∀ name k args opt, T (do
        modifyLocal (.addBinder .argument name k)
        Lisp.listToArgs R C n (← Lisp.cdr i) args opt) (do
        modifyLocal (.addBinder .argument name k)
        Lisp.listToArgs R C' n (← Lisp.cdr i) args opt) := fun _ _ _ _ =>
      hT.bind (hT.addBinder _ _ (.inl rfl)) fun _ => hT.bind (hT.cdr _) fun _ => ih _ _ _
    refine hT.ite (hT.pure _) (hT.bind (hT.car _) fun val => hT.ite ?_ ?_)
    · refine hT.bind (hT.symstreq _ _) fun _ => hT.ite ?_ (hT.ite ?_ ?_)
      · exact hT.bind (hT.cdr _) fun _ => hT.bind (hT.car _) fun _ => hT.bind hT.throwIf fun _ =>
          hT.bind (hT.symbolName _) fun _ => hT.bind (hT.addBinder _ _ (.inl rfl)) fun _ =>
          hT.bind (hT.cdr _) fun _ => ih _ _ _
      · exact hT.bind (hT.symbolName _) fun _ => hnext _ _ _ _
      · exact hT.bind (hT.symbolName _) fun _ => hT.ite (hT.stop _) (hT.stop _)
    · refine hT.bind (hT.listp _) fun _ => hT.ite ?_ (hT.bind (hT.cdr _) fun _ => ih _ _ _)
      exact hT.bind (hT.length _) fun _ => hT.bind hT.throwIf fun _ => hT.bind (hT.car _) fun _ =>
        hT.bind (hT.cdr _) fun _ => hT.bind (hT.car _) fun _ => hT.bind (hC.default _) fun _ =>
        hT.bind (hT.symbolName _) fun _ => hnext _ _ _ _

theorem compileFunctionBody (args : Word) :
    T (compileFunctionBody R C args) (compileFunctionBody R C' args) := by
  unfold Lisp.compileFunctionBody
  rw [hC.steps]
  exact hT.bind (hT.car _) fun _ => hT.bind (hT.cdr _) fun _ =>
    hT.bind (hT.listToArgs hC _ _ _ _) fun _ => hT.bind (hT.setArgs _) fun _ =>
    hT.bind (hT.forList (fun v => hC.walk v _) _ _) fun _ => hT.bind hT.getLocal fun _ =>
    hT.bind (hT.emit (by simp [setup])) fun _ => hT.bind hT.resetSlots fun _ =>
    hT.bind (hT.compileBody hC _ _) fun _ => hT.emit (by simp [cleanup])

variable {next next' : CompileM ℕ} (hnext : T next next')

include hnext

theorem compileIf (args : Word) (nargs : ℕ) (tail : Bool) :
    T (compileIfWith next C args nargs tail) (compileIfWith next' C' args nargs tail) :=
  hT.bind hT.throwIf fun _ => hT.bind (hT.car _) fun _ => hT.bind (hC.expr _ _) fun _ =>
    hT.bind hnext fun _ => hT.bind hnext fun _ => hT.bind (hT.emit (by simp))
    fun _ => hT.bind (hT.elt _ _) fun _ => hT.bind (hC.expr _ _) fun _ =>
    hT.bind (hT.emit (by simp)) fun _ =>
    hT.bind (hT.when (hT.bind (hT.elt _ _) fun _ => hC.expr _ _)) fun _ =>
    hT.emit (by simp)

theorem compileAndOr (args : Word) (nargs : ℕ) (or : Bool) :
    T (compileAndOrWith next C args nargs or) (compileAndOrWith next' C' args nargs or) := by
  unfold compileAndOrWith
  rw [hC.steps]
  exact hT.bind hT.throwIf fun _ => hT.bind hnext fun _ =>
    hT.bind (hT.forList (fun _ => hT.bind (hT.car _) fun _ => hT.bind (hC.expr _ _) fun _ =>
      hT.bind (hT.cdr _) fun _ => hT.when (hT.emit (by cases or <;> simp))) _ _)
    fun _ => hT.emit (by simp)

theorem compileForm (val : Word) (tail : Bool) :
    T (compileFormWith next R C val tail) (compileFormWith next' R C' val tail) := by
  have harg : ∀ args (k k' : Word → CompileM Unit), (∀ v, T (k v) (k' v)) →
      T (Lisp.car args >>= k) (Lisp.car args >>= k') := fun args k k' hk => hT.bind (hT.car args) hk
  refine hT.bind (hT.car _) fun fsym => hT.bind (hT.cdr _) fun args =>
    hT.bind (hT.length _) fun nargs => hT.bind hT.throwIf fun _ => ?_
  -- the forms are tried in the order of the source
  refine hT.bind (hT.symstreq _ _) fun _ => hT.ite (hT.compileIf hC hnext _ _ _) ?_
  refine hT.bind (hT.symstreq _ _) fun _ => hT.ite (hT.compileAndOr hC hnext _ _ _) ?_
  refine hT.bind (hT.symstreq _ _) fun _ => hT.ite (hT.compileAndOr hC hnext _ _ _) ?_
  refine hT.bind (hT.symstreq _ _) fun _ => hT.ite (hT.compileBody hC _ _) ?_
  refine hT.bind (hT.symstreq _ _) fun _ => hT.ite (hT.compileLet1 hC _ _ _) ?_
  refine hT.bind (hT.symstreq _ _) fun _ => hT.ite
    (hT.bind hT.throwIf fun _ => hT.emit (by simp [runGc])) ?_
  refine hT.bind (hT.symstreq _ _) fun _ => hT.ite (hT.bind hT.throwIf fun _ =>
    harg _ _ _ fun _ => hT.emit (by simp)) ?_
  refine hT.bind (hT.symstreq _ _) fun _ => hT.ite
    (hT.bind hT.throwIf fun _ => harg _ _ _ fun _ => hC.backquote _) ?_
  refine hT.bind (hT.symstreq _ _) fun _ => hT.ite (hT.compileFunctionForm _ _) ?_
  refine hT.bind (hT.symstreq _ _) fun _ => hT.ite
    (hT.bind (hT.emit (by simp)) fun _ =>
      hT.bind (hT.compileArguments hC _ _ _ (by simp [consCode])) fun _ =>
      hT.emit (by simp)) ?_
  refine hT.bind (hT.symstreq _ _) fun _ => hT.ite (hC.lambda _) ?_
  refine hT.bind (hT.symstreq _ _) fun _ => hT.ite (hT.bind hT.throwIf fun _ => harg _ _ _ fun _ =>
    hT.bind (hC.expr _ _) fun _ => hT.emit (by simp)) ?_
  refine hT.bind (hT.symstreq _ _) fun _ => hT.ite (hT.bind hT.throwIf fun _ => harg _ _ _ fun _ =>
    hT.bind (hC.expr _ _) fun _ => hT.bind hT.getLocal fun _ =>
    hT.emit (by simp)) ?_
  exact hT.compileCall hC _ _ _ _

theorem compileExpression (val : Word) (tail : Bool) :
    T (compileExpressionWith next R C val tail) (compileExpressionWith next' R C' val tail) := by
  have hmov : ∀ v : Word, T (Emitter.emit [.movEax (.word v)])
      (Emitter.emit [.movEax (.word v)]) := fun v => hT.emit (by simp)
  refine hT.bind (hT.symstreq _ _) fun _ => hT.ite (hmov _) ?_
  refine hT.bind (hT.symstreq _ _) fun _ => hT.ite (hmov _) (hT.ite (hmov _) ?_)
  refine hT.bind (hT.listp _) fun _ => hT.ite (hT.compileForm hC hnext _ _) ?_
  exact hT.ite (hT.compileSymbol _) (hT.ite (hmov _) (hT.stop _))

end Congruence

end Lisp

end Bluejay
