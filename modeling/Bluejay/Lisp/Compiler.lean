import Bluejay.Lib.Emitter
import Bluejay.Lisp.Heap

/-!
# The compiler

`compiler.dasc` compiles a form to x86 code, which it emits through DynASM.

* `Instr` : the instructions it emits; its macros `setup`, `cleanup` and `run_gc` are lists.
* `World`, `Local` : what the compiler reads and writes: the heap, the environment and the linked
  programs, and one `struct local` for each function being compiled.
* `CompileM` : its functions, which may stop with an `Err`.
* `compiler R n` : `walk_and_alloc`, `compile_expression`, `compile_backquote` and
  `compile_function`, for at most `n` nested calls and turns of a loop.

Code that runs while a form is compiled, that is macros and the expressions for default
arguments, is a parameter (`Runtime`).  Source locations of errors are left out.

`Notes` and `State.occurrences` are not in the source, and nothing the compiler does depends on
them: they record which binders enclose the form at hand, and where variables occur.
-/

namespace Bluejay

namespace Lisp

/-! ### Code -/

/-- An immediate operand. -/
inductive Imm
  | word (v : Word)
  | nat (n : ℕ)
  | args (a : Args)
  | code (c : CodePtr)
  | env
  | path (p : String)
  deriving DecidableEq

/-- What compiled code calls. -/
inductive Extern
  | cons
  | merge2
  | createClosure
  | setClosureCaptureVariable
  | eval
  | loadRelative
  | doGc
  | function (c : CodePtr)
  deriving DecidableEq

/-- The instructions.  `here` is the label `1:` and `callHere`, `jmpHere`, `pushHere` refer to
it. -/
inductive Instr
  | here
  | pushEbp
  | movEbpEsp
  | subEsp (n : ℕ)
  | movEspEbp
  | popEbp
  | ret
  | movEax (i : Imm)
  | pushEax
  | popEax
  | push (i : Imm)
  | addEsp (n : ℕ)
  | cmpEaxNil
  | je (l : ℕ)
  | jne (l : ℕ)
  | jmp (l : ℕ)
  | label (l : ℕ)
  | call (f : Extern)
  | callHere
  | jmpHere
  | pushHere
  /-- `mov eax, dword[ebp + 4 * (k + 2)]`. -/
  | loadArgument (k : ℕ)
  /-- `mov eax, dword[ebp - 4 * (k + 1)]`. -/
  | loadBound (k : ℕ)
  /-- `mov eax, dword[edi + 4 * k]`. -/
  | loadFree (k : ℕ)
  /-- `mov dword[ebp + 4 * (k + 2)], eax`. -/
  | storeArgument (k : ℕ)
  /-- `mov dword[ebp - 4 * (k + 1)], eax`. -/
  | storeBound (k : ℕ)
  | movEaxEsp
  | movEaxExtern (f : Extern)
  | callEax
  deriving DecidableEq

abbrev Code := List Instr

/-- The macro `setup`. -/
def setup (nvars : ℕ) : Code := [.here, .pushEbp, .movEbpEsp, .subEsp (4 * nvars)]

/-- The macro `cleanup`. -/
def cleanup : Code := [.movEspEbp, .popEbp, .ret]

/-- The macro `run_gc`. -/
def runGc : Code := [.movEaxEsp, .pushEbp, .pushEax, .movEaxExtern .doGc, .callEax]

/-! ### State -/

inductive Namespace
  | function
  | macro_
  | anonymous
  deriving DecidableEq

/-- `struct function`. -/
structure Function where
  name : String
  args : Args
  namespc : Namespace
  codePtr : CodePtr

inductive VarType
  | bound
  | argument
  | global
  | free
  deriving DecidableEq

/-- `struct variable`. -/
structure Variable where
  name : String
  number : ℕ
  type : VarType
  deriving DecidableEq

/-- What encloses the form being compiled.  `scope` lists the enclosing binders of the function,
innermost first, each with its place in the list of variables, counted from the oldest.
`depth` is the number of enclosing `let1` forms; `lets` are the depths at which `let1` forms
were met, and `walked` those that `walk_and_alloc` met. -/
structure Notes where
  scope : List (String × ℕ)
  depth : ℕ
  lets : List ℕ
  walked : List ℕ

/-- `struct local`, most recent variable first; `parent` is the rest of `State.locals`. -/
structure Local where
  currentFunctionName : Option String
  currentFilePath : String
  args : Args
  first : List Variable
  npc : ℕ
  nextpc : ℕ
  /-- Its length is `num_stack_slots`. -/
  stackSlots : List Bool
  numStackEntries : ℕ
  numClosureSlots : ℕ
  notes : Notes

/-- The memory the compiler works on. -/
structure World where
  heap : Heap
  /-- The `pool` of every allocation. -/
  pool : ℕ → ℕ
  currentPool : ℕ
  /-- `env->first`, most recent function first. -/
  env : List Function
  /-- The programs linked so far. -/
  programs : List Code

/-- A variable that was looked up, and the scopes it was looked up in. -/
structure Occurrence where
  name : String
  locals : List Local

structure State where
  world : World
  /-- The functions being compiled, innermost first. -/
  locals : List Local
  occurrences : List Occurrence

inductive ErrorCode
  | expected
  | invalid
  | malformed
  | args
  | unimpl
  deriving DecidableEq

/-- How compiling can stop: `THROW`, an access to memory that is not there, a loop along a
cyclic list, running code that does not return, or the bound on nested calls. -/
inductive Err
  | thrown (code : ErrorCode) (message : String)
  | fault
  | diverges
  | fuel
  deriving DecidableEq

/-- What the compiler does not do itself. -/
structure Runtime where
  /-- `malloc_aligned` returns an address that is not in use. -/
  malloc : Heap → ℕ
  fresh : ∀ H, malloc H ∉ H.dom
  aligned : ∀ H, malloc H % 8 = 0
  /-- `call_list`; `none` if it does not return. -/
  callList : Function → Word → World → Option (Word × World)
  /-- Call a compiled function without arguments. -/
  run : CodePtr → World → Option (Word × World)

abbrev CompileM := Emitter State Instr Err

open Emitter

def throw {α : Type} (code : ErrorCode) (message : String) : CompileM α :=
  stop (.thrown code message)

def throwIf (p : Prop) [Decidable p] (code : ErrorCode) (message : String) : CompileM Unit :=
  when p (throw code message)

/-! ### Reading and writing -/

def getHeap : CompileM Heap := do return (← get).world.heap

def car (v : Word) : CompileM Word := do return (← getHeap).car v

def cdr (v : Word) : CompileM Word := do return (← getHeap).cdr v

def elt (v : Word) (i : ℕ) : CompileM Word := do return (← getHeap).elt v i

def symstreq (v : Word) (s : String) : CompileM Bool := do return (← getHeap).symstreq v s

def listp (v : Word) : CompileM Bool := do
  match (← getHeap).listp v with
  | some b => return b
  | none => stop .diverges

def length (v : Word) : CompileM ℕ := do
  match (← getHeap).length v with
  | some n => return n
  | none => stop .diverges

/-- `(char *)(v ^ SYMBOL_TAG)`. -/
def symbolName (v : Word) : CompileM String := do
  match symbolp v, (← getHeap).text v with
  | true, some s => return s
  | _, _ => stop .fault

/-- `for (; !nilp(v); v = cdr(v))`, for at most `n` turns. -/
def forList (body : Word → CompileM Unit) : ℕ → Word → CompileM Unit
  | 0, _ => stop .fuel
  | n + 1, v =>
    if nilp v then pure ()
    else do
      body v
      forList body n (← cdr v)

def modifyWorld (f : World → World) : CompileM Unit := modify fun s => { s with world := f s.world }

/-- Allocate an object in the current pool. -/
def allocate (R : Runtime) (o : Obj) (tag : ℕ) : CompileM Word := do
  let w := (← get).world
  let p := R.malloc w.heap
  modifyWorld fun w => { w with
    heap := w.heap.set p o
    pool := Function.update w.pool p w.currentPool }
  return p + tag

def cons (R : Runtime) (car cdr : Word) : CompileM Word := allocate R (.cons car cdr) consTag

def strval (R : Runtime) (str : String) : CompileM Word := allocate R (.text str) stringTag

def createClosure (R : Runtime) (code : CodePtr) (args : Args) : CompileM Word :=
  allocate R (.closure args code []) closureTag

/-- `push_pool`, which returns the old pool. -/
def pushPool (pool : ℕ) : CompileM ℕ := do
  let w := (← get).world
  modifyWorld fun w => { w with currentPool := pool }
  return w.currentPool

def popPool (pool : ℕ) : CompileM Unit := modifyWorld fun w => { w with currentPool := pool }

def addToPool (form : Word) : CompileM Unit :=
  if heapp form then
    modifyWorld fun w => { w with pool := Function.update w.pool (pointer form) w.currentPool }
  else pure ()

/-- `*carref(cell) = v`. -/
def setCar (cell v : Word) : CompileM Unit := modifyWorld fun w =>
  { w with heap := w.heap.set (pointer cell) (.cons v (w.heap.cdr cell)) }

def callList (R : Runtime) (f : Function) (list : Word) : CompileM Word := do
  match R.callList f list (← get).world with
  | some (v, w) => do
    modifyWorld fun _ => w
    return v
  | none => stop .diverges

def run (R : Runtime) (c : CodePtr) : CompileM Word := do
  match R.run c (← get).world with
  | some (v, w) => do
    modifyWorld fun _ => w
    return v
  | none => stop .diverges

def linkProgram (code : Code) : CompileM CodePtr := do
  let w := (← get).world
  modifyWorld fun w => { w with programs := w.programs ++ [code] }
  return .program w.programs.length

def findFunction (name : String) : CompileM (Option Function) := do
  return (← get).world.env.find? fun f => f.name = name

def getLocal : CompileM Local := do
  match (← get).locals with
  | l :: _ => return l
  | [] => stop .fault

def modifyLocal (f : Local → Local) : CompileM Unit := modify fun s =>
  { s with locals := s.locals.modifyHead f }

/-! ### Slots and variables -/

/-- What `local_alloc` does to a `struct local`. -/
def Local.alloc (l : Local) : ℕ × Local :=
  match l.stackSlots.findIdx? (· = false) with
  | some i =>
    (i, { l with
      stackSlots := l.stackSlots.set i true
      numStackEntries :=
        if i ≥ l.numStackEntries then l.numStackEntries + 1 else l.numStackEntries })
  | none =>
    (l.stackSlots.length, { l with
      stackSlots := l.stackSlots ++ [true, false, false, false] })

/-- `local_alloc`, noted. -/
def Local.allocSlot (l : Local) : Local :=
  { l.alloc.2 with notes := { l.notes with
      depth := l.notes.depth + 1
      lets := l.notes.lets ++ [l.notes.depth] } }

def localAlloc : CompileM ℕ := do
  let l ← getLocal
  modifyLocal Local.allocSlot
  return l.alloc.1

def Local.freeSlot (slot : ℕ) (l : Local) : Local :=
  { l with
    stackSlots := l.stackSlots.set slot false
    notes := { l.notes with depth := l.notes.depth - 1 } }

def localFree (slot : ℕ) : CompileM Unit := modifyLocal (Local.freeSlot slot)

/-- `add_variable`. -/
def Local.addVariable (type : VarType) (name : String) (number : ℕ) (l : Local) : Local :=
  { l with first := ⟨name, number, type⟩ :: l.first }

/-- `add_variable` for a binder, which encloses what follows. -/
def Local.addBinder (type : VarType) (name : String) (number : ℕ) (l : Local) : Local :=
  { l.addVariable type name number with
    notes := { l.notes with scope := (name, l.first.length) :: l.notes.scope } }

/-- The innermost binder no longer encloses what follows. -/
def Local.closeBinder (l : Local) : Local :=
  { l with notes := { l.notes with scope := l.notes.scope.tail } }

/-- `find_variable` in the innermost of the scopes; what it finds further out is added to the
scopes in between. -/
def findVariable (name : String) : List Local → Option Variable × List Local
  | [] => (none, [])
  | l :: parents =>
    match l.first.find? fun v => v.name = name with
    | some v => (some v, l :: parents)
    | none =>
      match findVariable name parents with
      | (some _, parents) =>
        let l' := { l.addVariable .free name l.numClosureSlots with
          numClosureSlots := l.numClosureSlots + 1 }
        (some ⟨name, l.numClosureSlots, .free⟩, l' :: parents)
      | (none, parents) => (none, l :: parents)

def lookUp (name : String) : CompileM (Option Variable) := do
  let s ← get
  modify fun s => { s with locals := (findVariable name s.locals).2 }
  return (findVariable name s.locals).1

/-- Note that the variable `name` occurs. -/
def noteOccurrence (name : String) : CompileM Unit := modify fun s =>
  { s with occurrences := s.occurrences ++ [⟨name, s.locals⟩] }

def compileVariable (v : Variable) : CompileM Unit :=
  match v.type with
  | .argument => emit [.loadArgument v.number]
  | .bound => emit [.loadBound v.number]
  | .free => emit [.loadFree v.number]
  | .global => throw .unimpl "Sorry, can only access V_ARGUMENT, V_BOUND, and V_FREE vars"

/-- What `nextpc` does to a `struct local`. -/
def Local.nextLabel (l : Local) : Local :=
  { l with
    nextpc := l.nextpc + 1
    npc := if l.nextpc > l.npc then l.npc + 16 else l.npc }

def nextpc : CompileM ℕ := do
  let l ← getLocal
  modifyLocal Local.nextLabel
  return l.nextpc

/-! ### The recursive functions -/

/-- The functions that call each other, for a smaller bound. -/
structure Compiler where
  /-- The bound, for loops along a list. -/
  steps : ℕ
  /-- `walk_and_alloc` on the `car` of a cell. -/
  walkAndAlloc : Word → Bool → CompileM Unit
  compileExpression : Word → Bool → CompileM Unit
  compileBackquote : Word → CompileM Unit
  /-- `compile_function`, within the functions being compiled or on its own; it returns `args`,
  the `struct local` and the code. -/
  compileFunction : Word → Bool → Option String → String → CompileM (Args × Local × Code)

section Functions

variable (R : Runtime) (C : Compiler)

/-- The function a form calls, if its head is a symbol. -/
def findHead (fsym : Word) : CompileM (Option Function) :=
  if symbolp fsym then do findFunction (← symbolName fsym) else pure none

/-- `walk_and_alloc` on `*bp`, the `car` of the cell `bp`. -/
def walkAndAlloc (bp : Word) (quoted : Bool) : CompileM Unit := do
  when (!consp bp) (stop .fault)
  let body ← car bp
  if !(← listp body) then pure ()
  else
    let args ← cdr body
    let fsym ← car body
    if !quoted && (← symstreq fsym "let1") then
      let slot ← localAlloc
      forList (fun expr => C.walkAndAlloc expr false) C.steps (← cdr args)
      localFree slot
    else if !quoted && (← symstreq fsym "lambda") then pure ()
    else if quoted then
      if (← symstreq fsym "unquote") || (← symstreq fsym "unquote-splice") then
        forList (fun b => C.walkAndAlloc b false) C.steps args
      else pure ()
    else
      let mac ← findHead fsym
      when (consp fsym) (C.walkAndAlloc body false)
      match mac with
      | some ⟨name, margs, .macro_, code⟩ =>
        let pool ← pushPool 0
        let form ← callList R ⟨name, margs, .macro_, code⟩ args
        popPool pool
        addToPool form
        setCar bp form
        C.walkAndAlloc bp false
      | _ =>
        let quote ← symstreq fsym "quote"
        let backquote ← symstreq fsym "backquote"
        forList (fun arg => C.walkAndAlloc arg (quote || backquote)) C.steps args

/-- Compile `elt(args, i)` for `i` from `hi - 1` down to `lo`, with `after` behind each. -/
def compileArguments (args : Word) (lo hi : ℕ) (after : Code) : CompileM Unit :=
  forDown (fun i => do
    C.compileExpression (← elt args i) false
    emit after) lo (hi - lo)

/-- `push eax`, and a call of `cons` on what is on the stack then. -/
def consCode : Code := [.pushEax, .call .cons, .addEsp 8, .pushEax]

/-- `push eax`, and a call of `merge2` on what is on the stack then. -/
def mergeCode : Code := [.pushEax, .call .merge2, .addEsp 8, .pushEax]

/-- The test for `(unquote-splice …)`. -/
def isSplice (v : Word) : CompileM Bool := do
  if ← listp v then symstreq (← car v) "unquote-splice" else pure false

def compileBackquote (val : Word) : CompileM Unit := do
  if !(← listp val) then emit [.movEax (.word val)]
  else
    let fsym ← car val
    let args ← cdr val
    let nargs ← length args
    let n ← length val
    if ← symstreq fsym "unquote" then
      throwIf (nargs ≠ 1) .args "unquote (or ,) takes exactly 1 argument"
      C.compileExpression (← car args) false
    else
      emit [.push (.word nil)]
      forDown (fun i => do
        let v ← elt val i
        if ← isSplice v then
          throwIf ((← length v) ≠ 2) .args "unquote-splice (or ,@) takes exactly 1 argument"
          let expr ← car (← cdr v)
          C.compileExpression expr false
          emit mergeCode
        else
          C.compileBackquote v
          emit consCode) 0 n
      emit [.popEax]

/-! #### Special forms -/

def compileIf (args : Word) (nargs : ℕ) (tail : Bool) : CompileM Unit := do
  throwIf (nargs < 2 ∨ nargs > 3) .args "Must give at least 2 arguments to if"
  C.compileExpression (← car args) false
  let false_label ← nextpc
  let after_label ← nextpc
  emit [.cmpEaxNil, .je false_label]
  C.compileExpression (← elt args 1) tail
  emit [.jmp after_label, .label false_label]
  when (nargs = 3) do C.compileExpression (← elt args 2) tail
  emit [.label after_label]

def compileAndOr (args : Word) (nargs : ℕ) (or : Bool) : CompileM Unit := do
  throwIf (nargs < 1) .args "and & or require at least 1 argument."
  let after ← nextpc
  forList (fun args => do
    C.compileExpression (← car args) false
    when (!nilp (← cdr args)) (emit [.cmpEaxNil, if or then .jne after else .je after]))
    C.steps args
  emit [.label after]

/-- The loop of `progn`, of `let1` and of a function's body. -/
def compileBody (body : Word) (tail : Bool) : CompileM Unit :=
  forList (fun body => do
    let t := tail && nilp (← cdr body)
    C.compileExpression (← car body) t) C.steps body

def compileLet1 (args : Word) (nargs : ℕ) (tail : Bool) : CompileM Unit := do
  throwIf (nargs < 2) .args "Must give at least 2 arguments to let1"
  let binding ← car args
  let rest ← cdr args
  throwIf ((← length binding) ≠ 2) .args
    "Binding list in let1 must contain exactly two entries"
  let name ← car binding
  let value ← car (← cdr binding)
  C.compileExpression value false
  let i ← localAlloc
  modifyLocal (.addBinder .bound (← symbolName name) i)
  emit [.storeBound i]
  compileBody C rest tail
  localFree i
  modifyLocal Local.closeBinder

def compileFunctionForm (args : Word) (nargs : ℕ) : CompileM Unit := do
  throwIf (nargs ≠ 1) .args "function should take exactly 1 argument"
  let sym ← car args
  throwIf (!symbolp sym) .invalid
    "argument to function should be a symbol resolvable at compile time"
  let name ← symbolName sym
  let l ← getLocal
  match l.currentFunctionName with
  | none => stop .fault
  | some current =>
    if name = current then
      emit [.push (.nat 0), .push (.args l.args), .pushHere, .call .createClosure]
    else
      match ← findFunction name with
      | none => throw .invalid ("Function `" ++ name ++ "' does not exist")
      | some f =>
        let closure ← createClosure R f.codePtr f.args
        emit [.movEax (.word closure)]

/-- The variable `name`, which is known to exist. -/
def compileCaptured (name : String) : CompileM Unit := do
  match ← lookUp name with
  | none => stop .fault
  | some v => compileVariable v

/-- Capture the variable `var` of a closure that is in `eax`. -/
def compileCapture (var : Variable) : CompileM Unit :=
  when (var.type = .free) do
    emit [.pushEax]
    compileCaptured var.name
    emit [.pushEax, .push (.nat var.number), .call .setClosureCaptureVariable, .addEsp 8,
      .popEax]

def compileCaptures : List Variable → CompileM Unit
  | [] => pure ()
  | var :: prev => do
    compileCapture var
    compileCaptures prev

def compileLambda (args : Word) : CompileM Unit := do
  let path := (← getLocal).currentFilePath
  let (nargs_out, new_local, d) ← C.compileFunction args true (some "recurse") path
  let func_ptr ← linkProgram d
  emit [.push (.nat new_local.numClosureSlots), .push (.args nargs_out), .push (.code func_ptr),
    .call .createClosure, .addEsp 12]
  compileCaptures new_local.first

/-- The arguments a function that takes `needed` gets besides those passed one by one: a list of
the surplus ones, and defaults for the missing ones. -/
def compileSurplus (args : Word) (nargs : ℕ) (needed : Args) : CompileM Unit := do
  let total_taken := needed.numOptional + needed.numRequired
  when needed.variadic (emit [.push (.word nil)])
  when (nargs > total_taken ∧ needed.variadic) (compileArguments C args total_taken nargs consCode)
  emit ((needed.optionalArguments.drop (nargs - needed.numRequired)).reverse.map
    fun o => .push (.word o.value))

/-- The code that passes `nargs` arguments to a function that takes `needed`. -/
def compilePassing (args : Word) (nargs : ℕ) (needed : Args) : CompileM Unit := do
  compileSurplus C args nargs needed
  compileArguments C args 0 (min nargs (needed.numOptional + needed.numRequired)) [.pushEax]

/-- The number of words a function that takes `needed` finds on the stack. -/
def realNargs (needed : Args) : ℕ :=
  needed.numOptional + needed.numRequired + if needed.variadic then 1 else 0

/-- The code for a tail call of the function being compiled. -/
def tailCall (real_nargs : ℕ) : Code :=
  (List.range real_nargs).flatMap (fun i => [.popEax, .storeArgument i]) ++
    [.movEspEbp, .popEbp, .jmpHere]

/-- Compile what the macro `func` makes of `args`. -/
def compileMacro (func : Function) (args : Word) : CompileM Unit := do
  let pool ← pushPool 0
  let expanded_to ← callList R func args
  popPool pool
  C.compileExpression expanded_to false

def compileCall (fsym args : Word) (nargs : ℕ) (tail : Bool) : CompileM Unit := do
  let name ← symbolName fsym
  let func ← findFunction name
  let l ← getLocal
  let is_recursive : Bool := l.currentFunctionName = some name
  match if is_recursive then some l.args else func.map Function.args with
  | none => throw .invalid ("Function " ++ name ++ " undefined")
  | some needed =>
    throwIf (!areArgsAcceptable needed nargs) .args
      ("wrong number of args in function call: " ++ name ++ ", want " ++
        toString needed.numRequired ++ " args but given " ++ toString nargs ++ "\n")
    if is_recursive then
      compilePassing C args nargs needed
      emit (if tail then tailCall (realNargs needed) else [.callHere])
      emit [.addEsp (realNargs needed * 4)]
    else
      match func with
      | some ⟨_, _, .function, code⟩ =>
        compilePassing C args nargs needed
        emit [.call (.function code), .addEsp (realNargs needed * 4)]
      | some ⟨name, margs, .macro_, code⟩ => compileMacro R C ⟨name, margs, .macro_, code⟩ args
      | _ => pure ()

def compileSymbol (val : Word) : CompileM Unit := do
  if ← symstreq val "+current-file+" then
    let file_name_val ← strval R (← getLocal).currentFilePath
    emit [.movEax (.word file_name_val)]
  else if ← symstreq val "+current-env+" then emit [.movEax .env]
  else
    let name ← symbolName val
    noteOccurrence name
    match ← lookUp name with
    | none => throw .invalid ("Variable `" ++ name ++ "' unbound")
    | some v => compileVariable v

def compileList (args : Word) (nargs : ℕ) : CompileM Unit := do
  emit [.push (.word nil)]
  compileArguments C args 0 nargs consCode
  emit [.popEax]

def compileGc (nargs : ℕ) : CompileM Unit := do
  throwIf (nargs ≠ 0) .args "gc takes no arguments"
  emit runGc

def compileQuote (args : Word) (nargs : ℕ) : CompileM Unit := do
  throwIf (nargs ≠ 1) .args "quote should take exactly 1 argument"
  emit [.movEax (.word (← car args))]

def compileBackquoteForm (args : Word) (nargs : ℕ) : CompileM Unit := do
  throwIf (nargs ≠ 1) .args "backquote should take exactly 1 argument"
  C.compileBackquote (← car args)

def compileEval (args : Word) (nargs : ℕ) : CompileM Unit := do
  throwIf (nargs ≠ 1) .args "eval takes exactly 1 argument"
  C.compileExpression (← car args) false
  emit [.pushEax, .push .env, .call .eval]

def compileLoad (args : Word) (nargs : ℕ) : CompileM Unit := do
  throwIf (nargs ≠ 1) .args
    ("load takes exactly 1 argument, " ++ toString nargs ++ " given")
  C.compileExpression (← car args) false
  emit [.pushEax, .push (.path (← getLocal).currentFilePath), .push .env, .call .loadRelative]

/-- `compile_expression` on a list. -/
def compileForm (val : Word) (tail : Bool) : CompileM Unit := do
  let fsym ← car val
  let args ← cdr val
  let nargs ← length args
  throwIf (!symbolp fsym) .expected "Function name must be a symbol"
  if ← symstreq fsym "if" then compileIf C args nargs tail
  else if ← symstreq fsym "and" then compileAndOr C args nargs false
  else if ← symstreq fsym "or" then compileAndOr C args nargs true
  else if ← symstreq fsym "progn" then compileBody C args tail
  else if ← symstreq fsym "let1" then compileLet1 C args nargs tail
  else if ← symstreq fsym "gc" then compileGc nargs
  else if ← symstreq fsym "quote" then compileQuote args nargs
  else if ← symstreq fsym "backquote" then compileBackquoteForm C args nargs
  else if ← symstreq fsym "function" then compileFunctionForm R args nargs
  else if ← symstreq fsym "list" then compileList C args nargs
  else if ← symstreq fsym "lambda" then compileLambda C args
  else if ← symstreq fsym "eval" then compileEval C args nargs
  else if ← symstreq fsym "load" then compileLoad C args nargs
  else compileCall R C fsym args nargs tail

def compileExpression (val : Word) (tail : Bool) : CompileM Unit := do
  if (← symstreq val "nil") || nilp val then emit [.movEax (.word nil)]
  else if ← symstreq val "t" then emit [.movEax (.word t)]
  else if integerp val || stringp val then emit [.movEax (.word val)]
  else if ← listp val then compileForm R C val tail
  else if symbolp val then compileSymbol R val
  else if closurep val then emit [.movEax (.word val)]
  else throw .unimpl "Don't know how to compile this, sorry."

/-! #### Functions -/

/-- The value of the default expression `expr`, which is compiled and run at once. -/
def defaultValue (expr : Word) : CompileM Word := do
  let function ← cons R nil (← cons R expr nil)
  let path := (← getLocal).currentFilePath
  let (_, _, d) ← C.compileFunction function false none path
  run R (← linkProgram d)

/-- `list_to_args`, for at most `n` parameters. -/
def listToArgs : ℕ → Word → Args → Bool → CompileM Args
  | 0, _, _, _ => stop .fuel
  | n + 1, i, args, in_optional =>
    if nilp i then pure args
    else do
      let val ← car i
      if symbolp val then
        if !args.variadic && (← symstreq val "&") then
          let i ← cdr i
          let name ← car i
          throwIf (!symbolp name) .expected
            ("You must provide a symbol after & in an argument list " ++
              "to bind the\nvariadic arguments to.")
          modifyLocal <| .addBinder .argument (← symbolName name)
            (args.numOptional + args.numRequired)
          listToArgs n (← cdr i) { args with variadic := true } in_optional
        else if !in_optional then
          modifyLocal (.addBinder .argument (← symbolName val) args.numRequired)
          listToArgs n (← cdr i) { args with numRequired := args.numRequired + 1 } in_optional
        else if (← symbolName val).startsWith "&" then
          throw .invalid ("Non-optional argument following optional arguments " ++
            "starts with a &\ndid you mean to declare a variadic argument? If so " ++
            "leave a space\nbetween the & and name.")
        else throw .invalid "Cannot define a non-optional argument after an optional one."
      else if ← listp val then
        throwIf ((← length val) ≠ 2) .invalid
          ("A list defining an optional value must be structured like " ++
            "(name expr)\nwith exactly two arguments.")
        let name ← car val
        let expr ← car (← cdr val)
        let value ← defaultValue R C expr
        modifyLocal <| .addBinder .argument (← symbolName name)
          (args.numRequired + args.numOptional)
        listToArgs n (← cdr i)
          { args with optionalArguments := args.optionalArguments ++ [⟨value, name⟩] } true
      else listToArgs n (← cdr i) args in_optional

/-- The `struct local` of a new function. -/
def Local.new (name : Option String) (path : String) : Local where
  currentFunctionName := name
  currentFilePath := path
  args := newArgs
  first := []
  npc := 8
  nextpc := 0
  stackSlots := List.replicate 4 false
  numStackEntries := 0
  numClosureSlots := 0
  notes := ⟨[], 0, [], []⟩

/-- Forget the slots `walk_and_alloc` has used. -/
def Local.resetSlots (l : Local) : Local :=
  { l with
    stackSlots := List.replicate l.stackSlots.length false
    numStackEntries := 0
    notes := { l.notes with walked := l.notes.lets, lets := [], depth := 0 } }

/-- The body of `compile_function`, in a new `struct local`. -/
def compileFunctionBody (args : Word) : CompileM Unit := do
  let arglist ← car args
  let body ← cdr args
  let ar ← listToArgs R C C.steps arglist newArgs false
  modifyLocal fun l => { l with args := ar }
  forList (fun body_ => C.walkAndAlloc body_ false) C.steps body
  emit (setup (← getLocal).numStackEntries)
  modifyLocal Local.resetSlots
  compileBody C body true
  emit cleanup

def compileFunction (args : Word) (closed : Bool) (name : Option String) (path : String) :
    CompileM (Args × Local × Code) := do
  let outer := (← get).locals
  modify fun s => { s with locals := .new name path :: if closed then outer else [] }
  let (_, d) ← capture (compileFunctionBody R C args)
  let l ← getLocal
  modify fun s => { s with locals := if closed then s.locals.tail else outer }
  return (l.args, l, d)

end Functions

/-- The compiler, for at most `n` nested calls. -/
def compiler (R : Runtime) : ℕ → Compiler
  | 0 => ⟨0, fun _ _ => stop .fuel, fun _ _ => stop .fuel, fun _ => stop .fuel,
      fun _ _ _ _ => stop .fuel⟩
  | n + 1 =>
    let C := compiler R n
    ⟨n + 1, walkAndAlloc R C, compileExpression R C, compileBackquote C, compileFunction R C⟩

end Lisp

end Bluejay
