import Mathlib.Data.List.Forall2
import Bluejay.Lisp.Compiler

/-!
# What the compiler emits

A run of the compiler that succeeds, apart from the values it reads: which code is emitted for
which kind of form, and what happens to the `struct local`s meanwhile.

* `Job` : what is being compiled; `Emits j L c L'` : with the functions `L` being compiled, a run
  for `j` may emit `c` and leave `L'`.
* `Walks L L'` : what `walk_and_alloc` may do.
* `compiler_sound` : the runs of `compiler` are among these.
* `outerOf_of_emits` : the functions around the one being compiled only capture variables.
-/

namespace Bluejay

namespace Lisp

open Emitter

/-! ### Runs -/

/-- What is being compiled: an expression, a backquoted form, a loop over one of them, the
captures of a closure, the parameters or the whole of a function. -/
inductive Job
  | expr (tail : Bool)
  | backquote
  | arguments (count : ℕ) (after : Code)
  | body (tail : Bool)
  | branches (or : Bool) (after : ℕ)
  | template (count : ℕ)
  | captures
  | passing (needed : Args)
  | params
  | function (closed : Bool) (d : Code) (l : Local)

/-- The code of `compile_variable`. -/
def loadCode (v : Variable) : Code :=
  match v.type with
  | .argument => [.loadArgument v.number]
  | .bound => [.loadBound v.number]
  | .free => [.loadFree v.number]
  | .global => []

/-- The label that `nextpc` returns next. -/
def nextLabel : List Local → ℕ
  | [] => 0
  | l :: _ => l.nextpc

/-- The slot that `local_alloc` returns next. -/
def nextSlot : List Local → ℕ
  | [] => 0
  | l :: _ => l.alloc.1

/-- What `walk_and_alloc` may do to the `struct local`s. -/
inductive Walks : List Local → List Local → Prop
  | refl {L : List Local} : Walks L L
  | trans {L L₁ L₂ : List Local} (h : Walks L L₁) (h' : Walks L₁ L₂) : Walks L L₂
  | let1 {L L₁ : List Local} (h : Walks (L.modifyHead Local.allocSlot) L₁) :
      Walks L (L₁.modifyHead (Local.freeSlot (nextSlot L)))

/-- The code a run may emit for a job, and what it leaves of the `struct local`s. -/
inductive Emits : Job → List Local → Code → List Local → Prop
  -- `compile_expression`
  | const {tail : Bool} {L : List Local} (i : Imm) : Emits (.expr tail) L [.movEax i] L
  | nothing {tail : Bool} {L : List Local} : Emits (.expr tail) L [] L
  | var {tail : Bool} {L : List Local} {name : String} {v : Variable}
      (hv : (findVariable name L).1 = some v) (hg : v.type ≠ .global) :
      Emits (.expr tail) L (loadCode v) (findVariable name L).2
  | ifTwo {tail : Bool} {L L₁ L₂ : List Local} {c₁ c₂ : Code} (h₁ : Emits (.expr false) L c₁ L₁)
      (h₂ : Emits (.expr tail) ((L₁.modifyHead Local.nextLabel).modifyHead Local.nextLabel)
        c₂ L₂) :
      Emits (.expr tail) L (c₁ ++ [.cmpEaxNil, .je (nextLabel L₁)] ++ c₂ ++
        [.jmp (nextLabel L₁ + 1), .label (nextLabel L₁), .label (nextLabel L₁ + 1)]) L₂
  | ifThree {tail : Bool} {L L₁ L₂ L₃ : List Local} {c₁ c₂ c₃ : Code}
      (h₁ : Emits (.expr false) L c₁ L₁)
      (h₂ : Emits (.expr tail) ((L₁.modifyHead Local.nextLabel).modifyHead Local.nextLabel)
        c₂ L₂)
      (h₃ : Emits (.expr tail) L₂ c₃ L₃) :
      Emits (.expr tail) L (c₁ ++ [.cmpEaxNil, .je (nextLabel L₁)] ++ c₂ ++
        [.jmp (nextLabel L₁ + 1), .label (nextLabel L₁)] ++ c₃ ++
        [.label (nextLabel L₁ + 1)]) L₃
  | andOr {tail : Bool} {L L₁ : List Local} {c : Code} (or : Bool)
      (h : Emits (.branches or (nextLabel L)) (L.modifyHead Local.nextLabel) c L₁) :
      Emits (.expr tail) L (c ++ [.label (nextLabel L)]) L₁
  | progn {tail : Bool} {L L₁ : List Local} {c : Code} (h : Emits (.body tail) L c L₁) :
      Emits (.expr tail) L c L₁
  | let1 {tail : Bool} {L L₁ L₂ : List Local} {c₁ c₂ : Code} (name : String)
      (h₁ : Emits (.expr false) L c₁ L₁)
      (h₂ : Emits (.body tail) ((L₁.modifyHead Local.allocSlot).modifyHead
        (Local.addBinder .bound name (nextSlot L₁))) c₂ L₂) :
      Emits (.expr tail) L (c₁ ++ [.storeBound (nextSlot L₁)] ++ c₂)
        ((L₂.modifyHead (Local.freeSlot (nextSlot L₁))).modifyHead Local.closeBinder)
  | gc {tail : Bool} {L : List Local} : Emits (.expr tail) L runGc L
  | backquote {tail : Bool} {L L₁ : List Local} {c : Code} (h : Emits .backquote L c L₁) :
      Emits (.expr tail) L c L₁
  | functionSelf {tail : Bool} {L : List Local} (a : Args) : Emits (.expr tail) L
      [.push (.nat 0), .push (.args a), .pushHere, .call .createClosure] L
  | list {tail : Bool} {L L₁ : List Local} {c : Code} {n : ℕ}
      (h : Emits (.arguments n consCode) L c L₁) :
      Emits (.expr tail) L ([.push (.word nil)] ++ c ++ [.popEax]) L₁
  | lambda {tail : Bool} {L L₁ L₂ : List Local} {c d : Code} {l : Local} (a : Args)
      (p : CodePtr) (h₁ : Emits (.function true d l) L [] L₁) (h₂ : Emits .captures L₁ c L₂) :
      Emits (.expr tail) L ([.push (.nat l.numClosureSlots), .push (.args a), .push (.code p),
        .call .createClosure, .addEsp 12] ++ c) L₂
  | eval {tail : Bool} {L L₁ : List Local} {c : Code} (h : Emits (.expr false) L c L₁) :
      Emits (.expr tail) L (c ++ [.pushEax, .push .env, .call .eval]) L₁
  | load {tail : Bool} {L L₁ : List Local} {c : Code} (p : String)
      (h : Emits (.expr false) L c L₁) :
      Emits (.expr tail) L (c ++ [.pushEax, .push (.path p), .push .env, .call .loadRelative]) L₁
  | call {tail : Bool} {L L₁ : List Local} {c : Code} {needed : Args} (f : CodePtr)
      (h : Emits (.passing needed) L c L₁) :
      Emits (.expr tail) L (c ++ [.call (.function f), .addEsp (realNargs needed * 4)]) L₁
  | selfCall {L L₁ : List Local} {c : Code} {needed : Args}
      (h : Emits (.passing needed) L c L₁) :
      Emits (.expr false) L (c ++ [.callHere, .addEsp (realNargs needed * 4)]) L₁
  | tailCall {L L₁ : List Local} {c : Code} {needed : Args}
      (h : Emits (.passing needed) L c L₁) :
      Emits (.expr true) L (c ++ tailCall (realNargs needed) ++
        [.addEsp (realNargs needed * 4)]) L₁
  | macro_ {tail : Bool} {L L₁ : List Local} {c : Code} (h : Emits (.expr false) L c L₁) :
      Emits (.expr tail) L c L₁
  -- the loops
  | branchesNil {L : List Local} {or : Bool} {after : ℕ} : Emits (.branches or after) L [] L
  | branchesCons {L L₁ L₂ : List Local} {or : Bool} {after : ℕ} {c₁ c₂ : Code} (last : Bool)
      (h₁ : Emits (.expr false) L c₁ L₁) (h₂ : Emits (.branches or after) L₁ c₂ L₂) :
      Emits (.branches or after) L (c₁ ++
        (if last then [] else [.cmpEaxNil, if or then .jne after else .je after]) ++ c₂) L₂
  | bodyNil {L : List Local} {tail : Bool} : Emits (.body tail) L [] L
  | bodyCons {L L₁ L₂ : List Local} {tail tail' : Bool} {c₁ c₂ : Code}
      (ht : tail' = true → tail = true) (h₁ : Emits (.expr tail') L c₁ L₁)
      (h₂ : Emits (.body tail) L₁ c₂ L₂) : Emits (.body tail) L (c₁ ++ c₂) L₂
  | argumentsNil {L : List Local} {after : Code} : Emits (.arguments 0 after) L [] L
  | argumentsCons {L L₁ L₂ : List Local} {after c₁ c₂ : Code} {n : ℕ}
      (h₁ : Emits (.expr false) L c₁ L₁) (h₂ : Emits (.arguments n after) L₁ c₂ L₂) :
      Emits (.arguments (n + 1) after) L (c₁ ++ after ++ c₂) L₂
  | passing {L L₁ L₂ : List Local} {c₁ c₂ : Code} {needed : Args} {nargs surplus : ℕ}
      (hok : areArgsAcceptable needed nargs) (hs : surplus ≠ 0 → needed.variadic)
      (h₁ : Emits (.arguments surplus consCode) L c₁ L₁)
      (h₂ : Emits (.arguments (min nargs (needed.numOptional + needed.numRequired))
        [.pushEax]) L₁ c₂ L₂) :
      Emits (.passing needed) L ((if needed.variadic then [.push (.word nil)] else []) ++ c₁ ++
        (needed.optionalArguments.drop (nargs - needed.numRequired)).reverse.map
          (fun o => .push (.word o.value)) ++ c₂) L₂
  | capturesNil {L : List Local} : Emits .captures L [] L
  | capturesCons {L L₁ : List Local} {c : Code} {name : String} {v : Variable} (n : ℕ)
      (hv : (findVariable name L).1 = some v) (hg : v.type ≠ .global)
      (h : Emits .captures (findVariable name L).2 c L₁) :
      Emits .captures L ([.pushEax] ++ loadCode v ++ [.pushEax, .push (.nat n),
        .call .setClosureCaptureVariable, .addEsp 8, .popEax] ++ c) L₁
  -- `compile_backquote`
  | template {L L₁ : List Local} {c : Code} {n : ℕ} (h : Emits (.template n) L c L₁) :
      Emits .backquote L ([.push (.word nil)] ++ c ++ [.popEax]) L₁
  | atom {L : List Local} (i : Imm) : Emits .backquote L [.movEax i] L
  | unquote {L L₁ : List Local} {c : Code} (h : Emits (.expr false) L c L₁) :
      Emits .backquote L c L₁
  | templateNil {L : List Local} : Emits (.template 0) L [] L
  | templateSplice {L L₁ L₂ : List Local} {c₁ c₂ : Code} {n : ℕ}
      (h₁ : Emits (.expr false) L c₁ L₁) (h₂ : Emits (.template n) L₁ c₂ L₂) :
      Emits (.template (n + 1)) L (c₁ ++ mergeCode ++ c₂) L₂
  | templateCons {L L₁ L₂ : List Local} {c₁ c₂ : Code} {n : ℕ}
      (h₁ : Emits .backquote L c₁ L₁) (h₂ : Emits (.template n) L₁ c₂ L₂) :
      Emits (.template (n + 1)) L (c₁ ++ consCode ++ c₂) L₂
  -- `compile_function` and `list_to_args`
  | paramsNil {L : List Local} : Emits .params L [] L
  | paramsBind {L L₁ : List Local} (name : String) (n : ℕ)
      (h : Emits .params (L.modifyHead (Local.addBinder .argument name n)) [] L₁) :
      Emits .params L [] L₁
  | paramsDefault {L L₁ L₂ : List Local} {d : Code} {l : Local}
      (h₁ : Emits (.function false d l) L [] L₁) (h₂ : Emits .params L₁ [] L₂) :
      Emits .params L [] L₂
  | function {L L₁ L₂ L₃ : List Local} {c : Code} {l l₂ : Local} {closed : Bool} {ar : Args}
      (name : Option String) (path : String)
      (h₁ : Emits .params (.new name path :: if closed then L else []) [] L₁)
      (h₂ : Walks (L₁.modifyHead fun l => { l with args := ar }) L₂)
      (h₃ : Emits (.body true) (L₂.modifyHead Local.resetSlots) c L₃)
      (hl : L₂.head? = some l₂) (hl' : L₃.head? = some l) :
      Emits (.function closed (setup l₂.numStackEntries ++ c ++ cleanup) l) L []
        (if closed then L₃.tail else L)

/-! ### Steps that emit nothing -/

section Quiet

variable {α β : Type} {s s' : State} {c : Code} {a : α} {b : β} {L : List Local}

/-- The program emits nothing and leaves the `struct local`s as they are. -/
def Quiet (m : CompileM α) : Prop :=
  ∀ s a c s', m s = .ok a c s' → c = [] ∧ s'.locals = s.locals

theorem Quiet.bind {m : CompileM α} (hm : Quiet m) {f : α → CompileM β} (hs : s.locals = L)
    (h : (m >>= f) s = .ok b c s') : ∃ a s₁, s₁.locals = L ∧ f a s₁ = .ok b c s' := by
  obtain ⟨a, c₁, s₁, c₂, rfl, h₁, h₂⟩ := bind_ok_iff.1 h
  obtain ⟨rfl, hl⟩ := hm s a c₁ s₁ h₁
  exact ⟨a, s₁, hl.trans hs, h₂⟩

theorem quiet_bind {m : CompileM α} {f : α → CompileM β} (hm : Quiet m)
    (hf : ∀ a, Quiet (f a)) : Quiet (m >>= f) := by
  intro s b c s' h
  obtain ⟨a, s₁, hl, h⟩ := hm.bind rfl h
  obtain ⟨rfl, hl'⟩ := hf a _ _ _ _ h
  exact ⟨rfl, hl'.trans hl⟩

theorem quiet_pure (a : α) : Quiet (pure a : CompileM α) := by
  intro s a c s' h
  obtain ⟨-, rfl, rfl⟩ := pure_ok_iff.1 h
  exact ⟨rfl, rfl⟩

theorem quiet_stop (e : Err) : Quiet (stop e : CompileM α) := fun _ _ _ _ h => by cases h

theorem quiet_get : Quiet (get : CompileM State) := by
  intro s a c s' h
  obtain ⟨-, rfl, rfl⟩ := get_ok_iff.1 h
  exact ⟨rfl, rfl⟩

theorem quiet_modifyWorld (f : World → World) : Quiet (modifyWorld f) := by
  intro s a c s' h
  obtain ⟨rfl, rfl⟩ := modify_ok_iff.1 h
  exact ⟨rfl, rfl⟩

theorem quiet_when {p : Prop} [Decidable p] {m : CompileM Unit} (hm : Quiet m) :
    Quiet (when p m) := by
  unfold when
  split_ifs
  · exact hm
  · exact quiet_pure ()

theorem quiet_throwIf {p : Prop} [Decidable p] {code : ErrorCode} {message : String} :
    Quiet (throwIf p code message) :=
  quiet_when (quiet_stop _)

theorem quiet_getHeap : Quiet getHeap := quiet_bind quiet_get fun _ => quiet_pure _

theorem quiet_car (v : Word) : Quiet (car v) := quiet_bind quiet_getHeap fun _ => quiet_pure _

theorem quiet_cdr (v : Word) : Quiet (cdr v) := quiet_bind quiet_getHeap fun _ => quiet_pure _

theorem quiet_elt (v : Word) (i : ℕ) : Quiet (elt v i) :=
  quiet_bind quiet_getHeap fun _ => quiet_pure _

theorem quiet_symstreq (v : Word) (str : String) : Quiet (symstreq v str) :=
  quiet_bind quiet_getHeap fun _ => quiet_pure _

theorem quiet_listp (v : Word) : Quiet (listp v) := quiet_bind quiet_getHeap fun H => by
  cases H.listp v with
  | none => exact quiet_stop _
  | some b => exact quiet_pure b

theorem quiet_length (v : Word) : Quiet (length v) := quiet_bind quiet_getHeap fun H => by
  cases H.length v with
  | none => exact quiet_stop _
  | some n => exact quiet_pure n

theorem quiet_symbolName (v : Word) : Quiet (symbolName v) := quiet_bind quiet_getHeap fun H => by
  split
  · exact quiet_pure _
  · exact quiet_stop _

theorem quiet_allocate (R : Runtime) (o : Obj) (tag : ℕ) : Quiet (allocate R o tag) :=
  quiet_bind quiet_get fun _ => quiet_bind (quiet_modifyWorld _) fun _ => quiet_pure _

theorem quiet_pushPool (pool : ℕ) : Quiet (pushPool pool) :=
  quiet_bind quiet_get fun _ => quiet_bind (quiet_modifyWorld _) fun _ => quiet_pure _

theorem quiet_addToPool (form : Word) : Quiet (addToPool form) := by
  unfold addToPool
  split_ifs
  · exact quiet_modifyWorld _
  · exact quiet_pure ()

theorem quiet_callList (R : Runtime) (f : Function) (list : Word) : Quiet (callList R f list) :=
  quiet_bind quiet_get fun s => by
    cases R.callList f list s.world with
    | none => exact quiet_stop _
    | some r => exact quiet_bind (quiet_modifyWorld _) fun _ => quiet_pure _

theorem quiet_run (R : Runtime) (p : CodePtr) : Quiet (run R p) :=
  quiet_bind quiet_get fun s => by
    cases R.run p s.world with
    | none => exact quiet_stop _
    | some r => exact quiet_bind (quiet_modifyWorld _) fun _ => quiet_pure _

theorem quiet_linkProgram (d : Code) : Quiet (linkProgram d) :=
  quiet_bind quiet_get fun _ => quiet_bind (quiet_modifyWorld _) fun _ => quiet_pure _

theorem quiet_findFunction (name : String) : Quiet (findFunction name) :=
  quiet_bind quiet_get fun _ => quiet_pure _

theorem quiet_getLocal : Quiet getLocal := quiet_bind quiet_get fun s => by
  cases s.locals with
  | nil => exact quiet_stop _
  | cons l L => exact quiet_pure l

theorem quiet_findHead (fsym : Word) : Quiet (findHead fsym) := by
  unfold findHead
  split_ifs
  · exact quiet_bind (quiet_symbolName _) fun name => quiet_findFunction name
  · exact quiet_pure none

theorem quiet_isSplice (v : Word) : Quiet (isSplice v) := quiet_bind (quiet_listp v) fun b => by
  split_ifs
  · exact quiet_bind (quiet_car v) fun w => quiet_symstreq w _
  · exact quiet_pure false

theorem quiet_noteOccurrence (name : String) : Quiet (noteOccurrence name) := by
  intro s a c s' h
  obtain ⟨rfl, rfl⟩ := modify_ok_iff.1 h
  exact ⟨rfl, rfl⟩

end Quiet

/-! ### Steps that emit code or change a `struct local` -/

section Steps

variable {α β : Type} {s s' : State} {c : Code} {a : α} {b : β} {L : List Local}

theorem emit_bind {c₀ : Code} {f : Unit → CompileM β} (h : (emit c₀ >>= f) s = .ok b c s') :
    ∃ c', c = c₀ ++ c' ∧ f () s = .ok b c' s' := by
  obtain ⟨_, c₁, s₁, c₂, rfl, h₁, h₂⟩ := bind_ok_iff.1 h
  obtain ⟨rfl, rfl⟩ := emit_ok_iff.1 h₁
  exact ⟨c₂, rfl, h₂⟩

theorem modifyLocal_ok {g : Local → Local} {u : Unit} (hs : s.locals = L)
    (h : modifyLocal g s = .ok u c s') : c = [] ∧ s'.locals = L.modifyHead g := by
  obtain ⟨rfl, rfl⟩ := modify_ok_iff.1 h
  exact ⟨rfl, by rw [← hs]⟩

theorem modifyLocal_bind {g : Local → Local} {f : Unit → CompileM β} (hs : s.locals = L)
    (h : (modifyLocal g >>= f) s = .ok b c s') :
    ∃ s₁, s₁.locals = L.modifyHead g ∧ f () s₁ = .ok b c s' := by
  obtain ⟨_, c₁, s₁, c₂, rfl, h₁, h₂⟩ := bind_ok_iff.1 h
  obtain ⟨rfl, hl⟩ := modifyLocal_ok hs h₁
  exact ⟨s₁, hl, h₂⟩

theorem getLocal_bind {f : Local → CompileM β} (hs : s.locals = L)
    (h : (getLocal >>= f) s = .ok b c s') : ∃ l rest s₁, L = l :: rest ∧ s₁.locals = L ∧
      f l s₁ = .ok b c s' := by
  obtain ⟨l, c₁, s₁, c₂, rfl, h₁, h₂⟩ := bind_ok_iff.1 h
  obtain ⟨rfl, hl⟩ := quiet_getLocal _ _ _ _ h₁
  obtain ⟨t, c₃, s₃, c₄, hc, hg, h₃⟩ := bind_ok_iff.1 h₁
  obtain ⟨rfl, rfl, rfl⟩ := get_ok_iff.1 hg
  cases hL : s.locals with
  | nil => rw [hL] at h₃; cases h₃
  | cons l' rest =>
    rw [hL] at h₃
    obtain ⟨rfl, -, -⟩ := pure_ok_iff.1 h₃
    exact ⟨l', rest, s₁, hs.symm.trans hL, hl.trans hs, h₂⟩

theorem nextpc_bind {f : ℕ → CompileM β} (hs : s.locals = L)
    (h : (nextpc >>= f) s = .ok b c s') :
    ∃ s₁, s₁.locals = L.modifyHead Local.nextLabel ∧
      nextLabel (L.modifyHead Local.nextLabel) = nextLabel L + 1 ∧
      f (nextLabel L) s₁ = .ok b c s' := by
  obtain ⟨n, c₁, s₁, c₂, rfl, h₁, h₂⟩ := bind_ok_iff.1 h
  obtain ⟨l, rest, s₂, rfl, hl, h₁⟩ := getLocal_bind hs h₁
  obtain ⟨s₃, hl, h₁⟩ := modifyLocal_bind hl h₁
  obtain ⟨rfl, rfl, rfl⟩ := pure_ok_iff.1 h₁
  exact ⟨s₃, hl, rfl, h₂⟩

theorem localAlloc_bind {f : ℕ → CompileM β} (hs : s.locals = L)
    (h : (localAlloc >>= f) s = .ok b c s') :
    ∃ s₁, s₁.locals = L.modifyHead Local.allocSlot ∧ f (nextSlot L) s₁ = .ok b c s' := by
  obtain ⟨n, c₁, s₁, c₂, rfl, h₁, h₂⟩ := bind_ok_iff.1 h
  obtain ⟨l, rest, s₂, rfl, hl, h₁⟩ := getLocal_bind hs h₁
  obtain ⟨s₃, hl, h₁⟩ := modifyLocal_bind hl h₁
  obtain ⟨rfl, rfl, rfl⟩ := pure_ok_iff.1 h₁
  exact ⟨s₃, hl, h₂⟩

theorem lookUp_bind {name : String} {f : Option Variable → CompileM β} (hs : s.locals = L)
    (h : (lookUp name >>= f) s = .ok b c s') : ∃ s₁, s₁.locals = (findVariable name L).2 ∧
      f (findVariable name L).1 s₁ = .ok b c s' := by
  obtain ⟨v, c₁, s₁, c₂, rfl, h₁, h₂⟩ := bind_ok_iff.1 h
  obtain ⟨t, c₃, s₃, c₄, rfl, hg, h₁⟩ := bind_ok_iff.1 h₁
  obtain ⟨rfl, rfl, rfl⟩ := get_ok_iff.1 hg
  obtain ⟨_, c₃, s₃, c₅, rfl, hm, h₁⟩ := bind_ok_iff.1 h₁
  obtain ⟨rfl, rfl⟩ := modify_ok_iff.1 hm
  obtain ⟨rfl, rfl, rfl⟩ := pure_ok_iff.1 h₁
  rw [hs] at h₂
  exact ⟨_, by rw [← hs], h₂⟩

theorem compileVariable_ok {v : Variable} {u : Unit} (h : compileVariable v s = .ok u c s') :
    c = loadCode v ∧ v.type ≠ .global ∧ s' = s := by
  unfold compileVariable at h
  unfold loadCode
  cases hv : v.type <;> rw [hv] at h
  case global => cases h
  all_goals
    obtain ⟨rfl, rfl⟩ := emit_ok_iff.1 h
    exact ⟨rfl, by simp, rfl⟩

theorem symstreq_branch {v : Word} {str : String} {m m' : CompileM α} (hs : s.locals = L)
    (h : (do if ← symstreq v str then m else m') s = .ok a c s') :
    (∃ s₁, s₁.locals = L ∧ m s₁ = .ok a c s') ∨ ∃ s₁, s₁.locals = L ∧ m' s₁ = .ok a c s' := by
  obtain ⟨b, s₁, hl, h⟩ := (quiet_symstreq v str).bind hs h
  obtain ⟨-, h⟩ | ⟨-, h⟩ := ite_ok_iff.1 h
  · exact .inl ⟨s₁, hl, h⟩
  · exact .inr ⟨s₁, hl, h⟩

end Steps

/-! ### Soundness -/

/-- The runs of the functions of `C` are as `Walks` and `Emits` say. -/
structure Compiler.Sound (C : Compiler) : Prop where
  walk : ∀ {bp q s u c s'}, C.walkAndAlloc bp q s = .ok u c s' →
    c = [] ∧ Walks s.locals s'.locals
  expr : ∀ {v t s u c s'}, C.compileExpression v t s = .ok u c s' →
    Emits (.expr t) s.locals c s'.locals
  backquote : ∀ {v s u c s'}, C.compileBackquote v s = .ok u c s' →
    Emits .backquote s.locals c s'.locals
  function : ∀ {v closed name path s ar l d c s'},
    C.compileFunction v closed name path s = .ok (ar, l, d) c s' →
    c = [] ∧ Emits (.function closed d l) s.locals [] s'.locals

section Sound

variable {R : Runtime} {C : Compiler} {s s' : State} {c : Code} {u : Unit} {L : List Local}
  {β : Type} {b : β}

theorem Compiler.Sound.expr_bind (hC : C.Sound) {v : Word} {t : Bool} {f : Unit → CompileM β}
    (hs : s.locals = L) (h : (C.compileExpression v t >>= f) s = .ok b c s') :
    ∃ c₁ s₁ c₂, c = c₁ ++ c₂ ∧ Emits (.expr t) L c₁ s₁.locals ∧ f () s₁ = .ok b c₂ s' := by
  obtain ⟨_, c₁, s₁, c₂, rfl, h₁, h₂⟩ := bind_ok_iff.1 h
  exact ⟨c₁, s₁, c₂, rfl, hs ▸ hC.expr h₁, h₂⟩

theorem emits_arguments (hC : C.Sound) {args : Word} {lo n : ℕ} {after : Code}
    (h : forDown (fun i => do
      C.compileExpression (← elt args i) false
      emit after) lo n s = .ok u c s') : Emits (.arguments n after) s.locals c s'.locals := by
  induction n generalizing s c with
  | zero =>
    obtain ⟨-, rfl, rfl⟩ := pure_ok_iff.1 h
    exact .argumentsNil
  | succ n ih =>
    obtain ⟨_, c₁, s₁, c₂, rfl, h₁, h₂⟩ := bind_ok_iff.1 h
    obtain ⟨v, s₂, hl, h₁⟩ := (quiet_elt _ _).bind rfl h₁
    obtain ⟨c₃, s₃, c₄, rfl, he, h₁⟩ := hC.expr_bind hl h₁
    obtain ⟨rfl, rfl⟩ := emit_ok_iff.1 h₁
    exact .argumentsCons he (ih h₂)

theorem emits_body (hC : C.Sound) {body : Word} {tail : Bool}
    (h : compileBody C body tail s = .ok u c s') : Emits (.body tail) s.locals c s'.locals := by
  unfold compileBody at h
  generalize C.steps = n at h
  induction n generalizing body s c with
  | zero => cases h
  | succ n ih =>
    unfold forList at h
    split at h
    · obtain ⟨-, rfl, rfl⟩ := pure_ok_iff.1 h
      exact .bodyNil
    · obtain ⟨_, c₁, s₁, c₂, rfl, h₁, h₂⟩ := bind_ok_iff.1 h
      obtain ⟨w, s₂, hl, h₁⟩ := (quiet_cdr _).bind rfl h₁
      obtain ⟨v, s₃, hl, h₁⟩ := (quiet_car _).bind hl h₁
      have he := hC.expr h₁
      rw [hl] at he
      obtain ⟨w', s₄, hl', h₂⟩ := (quiet_cdr _).bind rfl h₂
      refine .bodyCons ?_ he (hl' ▸ ih h₂)
      cases tail <;> simp

theorem emits_branches (hC : C.Sound) {args : Word} {or : Bool} {after n : ℕ}
    (h : forList (fun args => do
      C.compileExpression (← car args) false
      when (!nilp (← cdr args)) (emit [.cmpEaxNil, if or then .jne after else .je after]))
      n args s = .ok u c s') : Emits (.branches or after) s.locals c s'.locals := by
  induction n generalizing args s c with
  | zero => cases h
  | succ n ih =>
    unfold forList at h
    split at h
    · obtain ⟨-, rfl, rfl⟩ := pure_ok_iff.1 h
      exact .branchesNil
    · obtain ⟨_, c₁, s₁, c₂, rfl, h₁, h₂⟩ := bind_ok_iff.1 h
      obtain ⟨v, s₂, hl, h₁⟩ := (quiet_car _).bind rfl h₁
      obtain ⟨c₃, s₃, c₄, rfl, he, h₁⟩ := hC.expr_bind hl h₁
      obtain ⟨w, s₄, hl₄, h₁⟩ := (quiet_cdr _).bind rfl h₁
      obtain ⟨w', s₅, hl₅, h₂⟩ := (quiet_cdr _).bind rfl h₂
      have hrest := ih h₂
      rcases when_ok_iff.1 h₁ with ⟨-, h₁⟩ | ⟨-, rfl, rfl⟩
      · obtain ⟨rfl, rfl⟩ := emit_ok_iff.1 h₁
        rw [hl₅, hl₄] at hrest
        exact .branchesCons false he hrest
      · rw [hl₅, hl₄] at hrest
        exact .branchesCons true he hrest

theorem emits_template (hC : C.Sound) {val : Word} {n : ℕ}
    (h : forDown (fun i => do
        let v ← elt val i
        if ← isSplice v then
          throwIf ((← length v) ≠ 2) .args "unquote-splice (or ,@) takes exactly 1 argument"
          let expr ← car (← cdr v)
          C.compileExpression expr false
          emit mergeCode
        else
          C.compileBackquote v
          emit consCode) 0 n s = .ok u c s') : Emits (.template n) s.locals c s'.locals := by
  induction n generalizing s c with
  | zero =>
    obtain ⟨-, rfl, rfl⟩ := pure_ok_iff.1 h
    exact .templateNil
  | succ n ih =>
    obtain ⟨_, c₁, s₁, c₂, rfl, h₁, h₂⟩ := bind_ok_iff.1 h
    obtain ⟨v, s₂, hl, h₁⟩ := (quiet_elt _ _).bind rfl h₁
    obtain ⟨b, s₂, hl, h₁⟩ := (quiet_isSplice _).bind hl h₁
    split_ifs at h₁
    · obtain ⟨_, s₂, hl, h₁⟩ := (quiet_length _).bind hl h₁
      obtain ⟨_, s₂, hl, h₁⟩ := quiet_throwIf.bind hl h₁
      obtain ⟨_, s₂, hl, h₁⟩ := (quiet_cdr _).bind hl h₁
      obtain ⟨_, s₂, hl, h₁⟩ := (quiet_car _).bind hl h₁
      obtain ⟨c₃, s₃, c₄, rfl, he, h₁⟩ := hC.expr_bind hl h₁
      obtain ⟨rfl, rfl⟩ := emit_ok_iff.1 h₁
      exact .templateSplice he (ih h₂)
    · obtain ⟨_, c₃, s₃, c₄, rfl, hb, h₁⟩ := bind_ok_iff.1 h₁
      obtain ⟨rfl, rfl⟩ := emit_ok_iff.1 h₁
      exact .templateCons (hl ▸ hC.backquote hb) (ih h₂)

theorem emits_backquote (hC : C.Sound) {val : Word}
    (h : compileBackquote C val s = .ok u c s') : Emits .backquote s.locals c s'.locals := by
  obtain ⟨b, s₁, hl, h⟩ := (quiet_listp _).bind rfl h
  split_ifs at h
  · obtain ⟨rfl, rfl⟩ := emit_ok_iff.1 h
    rw [hl]
    exact .atom _
  · obtain ⟨_, s₁, hl, h⟩ := (quiet_car _).bind hl h
    obtain ⟨_, s₁, hl, h⟩ := (quiet_cdr _).bind hl h
    obtain ⟨_, s₁, hl, h⟩ := (quiet_length _).bind hl h
    obtain ⟨_, s₁, hl, h⟩ := (quiet_length _).bind hl h
    obtain ⟨_, s₁, hl, h⟩ := (quiet_symstreq _ _).bind hl h
    split_ifs at h
    · obtain ⟨_, s₁, hl, h⟩ := quiet_throwIf.bind hl h
      obtain ⟨_, s₁, hl, h⟩ := (quiet_car _).bind hl h
      exact .unquote (hl ▸ hC.expr h)
    · obtain ⟨c₁, rfl, h₁⟩ := emit_bind h
      obtain ⟨_, c₂, s₂, c₃, rfl, h₂, h₃⟩ := bind_ok_iff.1 h₁
      obtain ⟨rfl, rfl⟩ := emit_ok_iff.1 h₃
      rw [← hl, ← List.append_assoc]
      exact .template (emits_template hC h₂)

theorem emits_if (hC : C.Sound) {args : Word} {nargs : ℕ} {tail : Bool}
    (h : compileIf C args nargs tail s = .ok u c s') :
    Emits (.expr tail) s.locals c s'.locals := by
  obtain ⟨_, s₁, hl, h⟩ := quiet_throwIf.bind rfl h
  obtain ⟨_, s₁, hl, h⟩ := (quiet_car _).bind hl h
  obtain ⟨c₁, s₂, c₂, hc₂, h₁, h⟩ := hC.expr_bind hl h
  obtain ⟨s₃, hl, hn, h⟩ := nextpc_bind rfl h
  obtain ⟨s₃, hl, -, h⟩ := nextpc_bind hl h
  obtain ⟨c₃, hc₃, h⟩ := emit_bind h
  obtain ⟨_, s₃, hl, h⟩ := (quiet_elt _ _).bind hl h
  obtain ⟨c₄, s₄, c₅, hc₅, h₂, h⟩ := hC.expr_bind hl h
  obtain ⟨c₆, hc₆, h⟩ := emit_bind h
  obtain ⟨_, c₇, s₅, c₈, hc₈, h₃, h⟩ := bind_ok_iff.1 h
  obtain ⟨hc₉, rfl⟩ := emit_ok_iff.1 h
  rw [hn] at hc₆ hc₉
  subst hc₂ hc₃ hc₅ hc₆ hc₈ hc₉
  rcases when_ok_iff.1 h₃ with ⟨-, h₃⟩ | ⟨-, rfl, rfl⟩
  · obtain ⟨_, s₆, hl, h₃⟩ := (quiet_elt _ _).bind rfl h₃
    simpa only [List.append_assoc] using Emits.ifThree h₁ h₂ (hl ▸ hC.expr h₃)
  · simpa only [List.append_assoc, List.cons_append, List.nil_append] using Emits.ifTwo h₁ h₂

theorem emits_andOr (hC : C.Sound) {args : Word} {nargs : ℕ} {or tail : Bool}
    (h : compileAndOr C args nargs or s = .ok u c s') :
    Emits (.expr tail) s.locals c s'.locals := by
  obtain ⟨_, s₁, hl, h⟩ := quiet_throwIf.bind rfl h
  obtain ⟨s₁, hl, -, h⟩ := nextpc_bind hl h
  obtain ⟨_, c₁, s₂, c₂, rfl, h₁, h₂⟩ := bind_ok_iff.1 h
  obtain ⟨rfl, rfl⟩ := emit_ok_iff.1 h₂
  exact .andOr or (hl ▸ emits_branches hC h₁)

theorem emits_let1 (hC : C.Sound) {args : Word} {nargs : ℕ} {tail : Bool}
    (h : compileLet1 C args nargs tail s = .ok u c s') :
    Emits (.expr tail) s.locals c s'.locals := by
  obtain ⟨_, s₁, hl, h⟩ := quiet_throwIf.bind rfl h
  obtain ⟨binding, s₁, hl, h⟩ := (quiet_car _).bind hl h
  obtain ⟨rest, s₁, hl, h⟩ := (quiet_cdr _).bind hl h
  obtain ⟨_, s₁, hl, h⟩ := (quiet_length _).bind hl h
  obtain ⟨_, s₁, hl, h⟩ := quiet_throwIf.bind hl h
  obtain ⟨name, s₁, hl, h⟩ := (quiet_car _).bind hl h
  obtain ⟨_, s₁, hl, h⟩ := (quiet_cdr _).bind hl h
  obtain ⟨value, s₁, hl, h⟩ := (quiet_car _).bind hl h
  obtain ⟨c₁, s₂, c₂, hc₂, h₁, h⟩ := hC.expr_bind hl h
  obtain ⟨s₃, hl, h⟩ := localAlloc_bind rfl h
  obtain ⟨_, s₃, hl, h⟩ := (quiet_symbolName _).bind hl h
  obtain ⟨s₃, hl, h⟩ := modifyLocal_bind hl h
  obtain ⟨c₃, hc₃, h⟩ := emit_bind h
  obtain ⟨_, c₄, s₄, c₅, hc₅, h₂, h⟩ := bind_ok_iff.1 h
  obtain ⟨s₅, hl', h⟩ := modifyLocal_bind (s := s₄) rfl h
  obtain ⟨hc₆, hl'⟩ := modifyLocal_ok hl' h
  subst hc₂ hc₃ hc₅ hc₆
  have hb := emits_body hC h₂
  rw [hl] at hb
  rw [hl']
  simpa only [List.append_assoc, List.append_nil] using Emits.let1 _ h₁ hb

theorem emits_functionForm {args : Word} {nargs : ℕ} {tail : Bool}
    (h : compileFunctionForm R args nargs s = .ok u c s') :
    Emits (.expr tail) s.locals c s'.locals := by
  obtain ⟨_, s₁, hl, h⟩ := quiet_throwIf.bind rfl h
  obtain ⟨sym, s₁, hl, h⟩ := (quiet_car _).bind hl h
  obtain ⟨_, s₁, hl, h⟩ := quiet_throwIf.bind hl h
  obtain ⟨name, s₁, hl, h⟩ := (quiet_symbolName _).bind hl h
  obtain ⟨l, s₁, hl, h⟩ := quiet_getLocal.bind hl h
  cases hn : l.currentFunctionName with
  | none => rw [hn] at h; cases h
  | some current =>
    simp only [hn] at h
    split_ifs at h
    · obtain ⟨rfl, rfl⟩ := emit_ok_iff.1 h
      rw [hl]
      exact .functionSelf _
    · obtain ⟨f, s₁, hl, h⟩ := (quiet_findFunction _).bind hl h
      cases f with
      | none => cases h
      | some f =>
        obtain ⟨_, s₁, hl, h⟩ := (quiet_allocate _ _ _).bind hl h
        obtain ⟨rfl, rfl⟩ := emit_ok_iff.1 h
        rw [hl]
        exact .const _

theorem emits_captures {vars : List Variable} (h : compileCaptures vars s = .ok u c s') :
    Emits .captures s.locals c s'.locals := by
  induction vars generalizing s c with
  | nil =>
    obtain ⟨-, rfl, rfl⟩ := pure_ok_iff.1 h
    exact .capturesNil
  | cons var vars ih =>
    obtain ⟨_, c₁, s₁, c₂, rfl, h₁, h₂⟩ := bind_ok_iff.1 h
    rcases when_ok_iff.1 h₁ with ⟨-, h₁⟩ | ⟨-, rfl, rfl⟩
    · obtain ⟨c₃, rfl, h₃⟩ := emit_bind h₁
      obtain ⟨_, c₄, s₂, c₅, rfl, h₄, h₅⟩ := bind_ok_iff.1 h₃
      obtain ⟨rfl, rfl⟩ := emit_ok_iff.1 h₅
      obtain ⟨s₃, hl, h₄⟩ := lookUp_bind rfl h₄
      cases hv : (findVariable var.name s.locals).1 with
      | none => rw [hv] at h₄; cases h₄
      | some v =>
        rw [hv] at h₄
        obtain ⟨rfl, hg, rfl⟩ := compileVariable_ok h₄
        simpa only [List.append_assoc] using Emits.capturesCons var.number hv hg (hl ▸ ih h₂)
    · exact ih h₂

theorem emits_lambda (hC : C.Sound) {args : Word} {tail : Bool}
    (h : compileLambda C args s = .ok u c s') : Emits (.expr tail) s.locals c s'.locals := by
  obtain ⟨l, s₁, hl, h⟩ := quiet_getLocal.bind rfl h
  obtain ⟨⟨ar, new_local, d⟩, c₁, s₂, c₂, rfl, h₁, h₂⟩ := bind_ok_iff.1 h
  obtain ⟨rfl, hf⟩ := hC.function h₁
  dsimp only at h₂
  obtain ⟨p, s₃, hl', h₂⟩ := (quiet_linkProgram _).bind rfl h₂
  obtain ⟨c₃, rfl, h₃⟩ := emit_bind h₂
  rw [hl] at hf
  exact .lambda ar p hf (hl' ▸ emits_captures h₃)

theorem emits_surplus (hC : C.Sound) {args : Word} {nargs : ℕ} {needed : Args}
    (h : compileSurplus C args nargs needed s = .ok u c s') :
    ∃ surplus c₁, (surplus ≠ 0 → needed.variadic = true) ∧
      Emits (.arguments surplus consCode) s.locals c₁ s'.locals ∧
      c = (if needed.variadic then [.push (.word nil)] else []) ++ c₁ ++
        (needed.optionalArguments.drop (nargs - needed.numRequired)).reverse.map
          fun o => .push (.word o.value) := by
  obtain ⟨_, c₁, s₁, c₂, rfl, h₁, h₂⟩ := bind_ok_iff.1 h
  obtain ⟨_, c₃, s₂, c₄, rfl, h₃, h₄⟩ := bind_ok_iff.1 h₂
  obtain ⟨rfl, rfl⟩ := emit_ok_iff.1 h₄
  have hc₁ : c₁ = (if needed.variadic then [.push (.word nil)] else []) ∧ s = s₁ := by
    rcases when_ok_iff.1 h₁ with ⟨hv, h₁⟩ | ⟨hv, rfl, rfl⟩
    · obtain ⟨rfl, rfl⟩ := emit_ok_iff.1 h₁
      simp [hv]
    · simp [hv]
  obtain ⟨rfl, rfl⟩ := hc₁
  rcases when_ok_iff.1 h₃ with ⟨⟨-, hv⟩, h₃⟩ | ⟨-, rfl, rfl⟩
  · exact ⟨_, c₃, fun _ => hv, emits_arguments hC h₃, by simp only [List.append_assoc]⟩
  · exact ⟨0, [], fun h => absurd rfl h, .argumentsNil, by simp⟩

theorem emits_passing (hC : C.Sound) {args : Word} {nargs : ℕ} {needed : Args}
    (hok : areArgsAcceptable needed nargs) (h : compilePassing C args nargs needed s = .ok u c s') :
    Emits (.passing needed) s.locals c s'.locals := by
  obtain ⟨_, c₁, s₁, c₂, rfl, h₁, h₂⟩ := bind_ok_iff.1 h
  obtain ⟨surplus, c₃, hs, h₃, rfl⟩ := emits_surplus hC h₁
  exact .passing hok hs h₃ (emits_arguments hC h₂)

theorem emits_call (hC : C.Sound) {fsym args : Word} {nargs : ℕ} {tail : Bool}
    (h : compileCall R C fsym args nargs tail s = .ok u c s') :
    Emits (.expr tail) s.locals c s'.locals := by
  obtain ⟨name, s₁, hl, h⟩ := (quiet_symbolName _).bind rfl h
  obtain ⟨func, s₁, hl, h⟩ := (quiet_findFunction _).bind hl h
  obtain ⟨l, s₁, hl, h⟩ := quiet_getLocal.bind hl h
  dsimp only at h
  cases hneeded : (if decide (l.currentFunctionName = some name) = true then some l.args
      else func.map Function.args) with
  | none => rw [hneeded] at h; cases h
  | some needed =>
    rw [hneeded] at h
    obtain ⟨_, c₁, s₂, c₂, rfl, h₁, h₂⟩ := bind_ok_iff.1 h
    have hok : areArgsAcceptable needed nargs := by
      rcases when_ok_iff.1 h₁ with ⟨-, h₁⟩ | ⟨hn, -, -⟩
      · cases h₁
      · simpa using hn
    obtain ⟨rfl, hl₂⟩ := quiet_throwIf _ _ _ _ h₁
    rw [hl] at hl₂
    rw [← hl₂, List.nil_append]
    split_ifs at h₂ with hr ht
    · obtain ⟨_, c₃, s₃, c₄, rfl, h₃, h₄⟩ := bind_ok_iff.1 h₂
      obtain ⟨c₅, rfl, h₅⟩ := emit_bind h₄
      obtain ⟨rfl, rfl⟩ := emit_ok_iff.1 h₅
      subst ht
      simpa only [List.append_assoc] using Emits.tailCall (emits_passing hC hok h₃)
    · obtain ⟨_, c₃, s₃, c₄, rfl, h₃, h₄⟩ := bind_ok_iff.1 h₂
      obtain ⟨c₅, rfl, h₅⟩ := emit_bind h₄
      obtain ⟨rfl, rfl⟩ := emit_ok_iff.1 h₅
      rw [Bool.not_eq_true] at ht
      subst ht
      exact .selfCall (emits_passing hC hok h₃)
    · rcases func with _ | ⟨fname, fargs, _ | _ | _, code⟩
      · obtain ⟨-, rfl, rfl⟩ := pure_ok_iff.1 h₂
        exact .nothing
      · obtain ⟨_, c₃, s₃, c₄, rfl, h₃, h₄⟩ := bind_ok_iff.1 h₂
        obtain ⟨rfl, rfl⟩ := emit_ok_iff.1 h₄
        exact .call _ (emits_passing hC hok h₃)
      · obtain ⟨_, s₃, hl₃, h₃⟩ := (quiet_pushPool _).bind rfl h₂
        obtain ⟨v, s₃, hl₃, h₃⟩ := (quiet_callList _ _ _).bind hl₃ h₃
        obtain ⟨_, s₃, hl₃, h₃⟩ := (quiet_modifyWorld _).bind hl₃ h₃
        exact .macro_ (hl₃ ▸ hC.expr h₃)
      · obtain ⟨-, rfl, rfl⟩ := pure_ok_iff.1 h₂
        exact .nothing

theorem emits_symbol {val : Word} {tail : Bool} (h : compileSymbol R val s = .ok u c s') :
    Emits (.expr tail) s.locals c s'.locals := by
  obtain ⟨b, s₁, hl, h⟩ := (quiet_symstreq _ _).bind rfl h
  split_ifs at h
  · obtain ⟨l, s₁, hl, h⟩ := quiet_getLocal.bind hl h
    obtain ⟨w, s₁, hl, h⟩ := (quiet_allocate _ _ _).bind hl h
    obtain ⟨rfl, rfl⟩ := emit_ok_iff.1 h
    rw [hl]
    exact .const _
  · obtain ⟨b, s₁, hl, h⟩ := (quiet_symstreq _ _).bind hl h
    split_ifs at h
    · obtain ⟨rfl, rfl⟩ := emit_ok_iff.1 h
      rw [hl]
      exact .const _
    · obtain ⟨name, s₁, hl, h⟩ := (quiet_symbolName _).bind hl h
      obtain ⟨_, s₁, hl, h⟩ := (quiet_noteOccurrence _).bind hl h
      obtain ⟨s₂, hl, h⟩ := lookUp_bind hl h
      cases hv : (findVariable name s.locals).1 with
      | none => rw [hv] at h; cases h
      | some v =>
        rw [hv] at h
        obtain ⟨rfl, hg, rfl⟩ := compileVariable_ok h
        rw [hl]
        exact .var hv hg

theorem emits_list (hC : C.Sound) {args : Word} {nargs : ℕ} {tail : Bool}
    (h : compileList C args nargs s = .ok u c s') :
    Emits (.expr tail) s.locals c s'.locals := by
  obtain ⟨c₁, rfl, h₁⟩ := emit_bind h
  obtain ⟨_, c₂, s₂, c₃, rfl, h₂, h₃⟩ := bind_ok_iff.1 h₁
  obtain ⟨rfl, rfl⟩ := emit_ok_iff.1 h₃
  rw [← List.append_assoc]
  exact .list (emits_arguments hC h₂)

/-- The forms that compile their argument and then emit `after`. -/
theorem emits_unary (hC : C.Sound) {args : Word} {after : Code}
    (h : (do C.compileExpression (← car args) false; emit after) s = .ok u c s') :
    ∃ c₁, Emits (.expr false) s.locals c₁ s'.locals ∧ c = c₁ ++ after := by
  obtain ⟨v, s₁, hl, h⟩ := (quiet_car _).bind rfl h
  obtain ⟨c₁, s₂, c₂, rfl, h₁, h₂⟩ := hC.expr_bind hl h
  obtain ⟨rfl, rfl⟩ := emit_ok_iff.1 h₂
  exact ⟨c₁, h₁, rfl⟩

theorem emits_load (hC : C.Sound) {args : Word} {nargs : ℕ} {tail : Bool}
    (h : compileLoad C args nargs s = .ok u c s') :
    Emits (.expr tail) s.locals c s'.locals := by
  obtain ⟨_, s₁, hl, h⟩ := quiet_throwIf.bind rfl h
  obtain ⟨v, s₁, hl, h⟩ := (quiet_car _).bind hl h
  obtain ⟨c₁, s₂, c₂, rfl, h₁, h₂⟩ := hC.expr_bind hl h
  obtain ⟨l, s₃, hl, h₂⟩ := quiet_getLocal.bind rfl h₂
  obtain ⟨rfl, rfl⟩ := emit_ok_iff.1 h₂
  exact hl ▸ .load _ h₁

theorem emits_form (hC : C.Sound) {val : Word} {tail : Bool}
    (h : compileForm R C val tail s = .ok u c s') : Emits (.expr tail) s.locals c s'.locals := by
  obtain ⟨fsym, s₁, hl, h⟩ := (quiet_car _).bind rfl h
  obtain ⟨args, s₁, hl, h⟩ := (quiet_cdr _).bind hl h
  obtain ⟨nargs, s₁, hl, h⟩ := (quiet_length _).bind hl h
  obtain ⟨_, s₁, hl, h⟩ := quiet_throwIf.bind hl h
  -- the forms are tried in the order of the source
  obtain ⟨s₂, hl, h⟩ | ⟨s₁, hl, h⟩ := symstreq_branch hl h
  · exact hl ▸ emits_if hC h
  obtain ⟨s₂, hl, h⟩ | ⟨s₁, hl, h⟩ := symstreq_branch hl h
  · exact hl ▸ emits_andOr hC h
  obtain ⟨s₂, hl, h⟩ | ⟨s₁, hl, h⟩ := symstreq_branch hl h
  · exact hl ▸ emits_andOr hC h
  obtain ⟨s₂, hl, h⟩ | ⟨s₁, hl, h⟩ := symstreq_branch hl h
  · exact hl ▸ .progn (emits_body hC h)
  obtain ⟨s₂, hl, h⟩ | ⟨s₁, hl, h⟩ := symstreq_branch hl h
  · exact hl ▸ emits_let1 hC h
  obtain ⟨s₂, hl, h⟩ | ⟨s₁, hl, h⟩ := symstreq_branch hl h
  · obtain ⟨_, s₃, hl, h⟩ := quiet_throwIf.bind hl h
    obtain ⟨rfl, rfl⟩ := emit_ok_iff.1 h
    exact hl ▸ .gc
  obtain ⟨s₂, hl, h⟩ | ⟨s₁, hl, h⟩ := symstreq_branch hl h
  · obtain ⟨_, s₃, hl, h⟩ := quiet_throwIf.bind hl h
    obtain ⟨_, s₃, hl, h⟩ := (quiet_car _).bind hl h
    obtain ⟨rfl, rfl⟩ := emit_ok_iff.1 h
    exact hl ▸ .const _
  obtain ⟨s₂, hl, h⟩ | ⟨s₁, hl, h⟩ := symstreq_branch hl h
  · obtain ⟨_, s₃, hl, h⟩ := quiet_throwIf.bind hl h
    obtain ⟨_, s₃, hl, h⟩ := (quiet_car _).bind hl h
    exact hl ▸ .backquote (hC.backquote h)
  obtain ⟨s₂, hl, h⟩ | ⟨s₁, hl, h⟩ := symstreq_branch hl h
  · exact hl ▸ emits_functionForm h
  obtain ⟨s₂, hl, h⟩ | ⟨s₁, hl, h⟩ := symstreq_branch hl h
  · exact hl ▸ emits_list hC h
  obtain ⟨s₂, hl, h⟩ | ⟨s₁, hl, h⟩ := symstreq_branch hl h
  · exact hl ▸ emits_lambda hC h
  obtain ⟨s₂, hl, h⟩ | ⟨s₁, hl, h⟩ := symstreq_branch hl h
  · obtain ⟨_, s₃, hl, h⟩ := quiet_throwIf.bind hl h
    obtain ⟨c₁, he, rfl⟩ := emits_unary hC h
    exact hl ▸ .eval he
  obtain ⟨s₂, hl, h⟩ | ⟨s₁, hl, h⟩ := symstreq_branch hl h
  · exact hl ▸ emits_load hC h
  · exact hl ▸ emits_call hC h

theorem emits_expression (hC : C.Sound) {val : Word} {tail : Bool}
    (h : compileExpression R C val tail s = .ok u c s') :
    Emits (.expr tail) s.locals c s'.locals := by
  obtain ⟨isNil, s₁, hl, h⟩ := (quiet_symstreq _ _).bind rfl h
  obtain ⟨-, h⟩ | ⟨-, h⟩ := ite_ok_iff.1 h
  · obtain ⟨rfl, rfl⟩ := emit_ok_iff.1 h
    exact hl ▸ .const _
  obtain ⟨s₂, hl, h⟩ | ⟨s₁, hl, h⟩ := symstreq_branch hl h
  · obtain ⟨rfl, rfl⟩ := emit_ok_iff.1 h
    exact hl ▸ .const _
  obtain ⟨-, h⟩ | ⟨-, h⟩ := ite_ok_iff.1 h
  · obtain ⟨rfl, rfl⟩ := emit_ok_iff.1 h
    exact hl ▸ .const _
  obtain ⟨isList, s₁, hl, h⟩ := (quiet_listp _).bind hl h
  obtain ⟨-, h⟩ | ⟨-, h⟩ := ite_ok_iff.1 h
  · exact hl ▸ emits_form hC h
  obtain ⟨-, h⟩ | ⟨-, h⟩ := ite_ok_iff.1 h
  · exact hl ▸ emits_symbol h
  obtain ⟨-, h⟩ | ⟨-, h⟩ := ite_ok_iff.1 h
  · obtain ⟨rfl, rfl⟩ := emit_ok_iff.1 h
    exact hl ▸ .const _
  · cases h

/-! ### Functions -/

theorem walks_forList (hC : C.Sound) {v : Word} {q : Bool} {n : ℕ}
    (h : forList (fun arg => C.walkAndAlloc arg q) n v s = .ok u c s') :
    c = [] ∧ Walks s.locals s'.locals := by
  induction n generalizing v s c with
  | zero => cases h
  | succ n ih =>
    unfold forList at h
    split at h
    · obtain ⟨-, rfl, rfl⟩ := pure_ok_iff.1 h
      exact ⟨rfl, .refl⟩
    · obtain ⟨_, c₁, s₁, c₂, rfl, h₁, h₂⟩ := bind_ok_iff.1 h
      obtain ⟨rfl, hw⟩ := hC.walk h₁
      obtain ⟨w, s₂, hl, h₂⟩ := (quiet_cdr _).bind rfl h₂
      obtain ⟨rfl, hw'⟩ := ih h₂
      exact ⟨rfl, .trans hw (hl ▸ hw')⟩

theorem walks_let1 (hC : C.Sound) {args : Word} (h : (do
      let slot ← localAlloc
      forList (fun expr => C.walkAndAlloc expr false) C.steps (← cdr args)
      localFree slot) s = .ok u c s') : c = [] ∧ Walks s.locals s'.locals := by
  obtain ⟨s₁, hl, h⟩ := localAlloc_bind rfl h
  obtain ⟨w, s₁, hl, h⟩ := (quiet_cdr _).bind hl h
  obtain ⟨_, c₁, s₂, c₂, rfl, h₁, h₂⟩ := bind_ok_iff.1 h
  obtain ⟨rfl, hw⟩ := walks_forList hC h₁
  obtain ⟨rfl, hl'⟩ := modifyLocal_ok rfl h₂
  rw [hl] at hw
  rw [hl']
  exact ⟨rfl, .let1 hw⟩

theorem walks_macro (hC : C.Sound) {func : Function} {bp args : Word} (h : (do
      let pool ← pushPool 0
      let form ← callList R func args
      popPool pool
      addToPool form
      setCar bp form
      C.walkAndAlloc bp false) s = .ok u c s') : c = [] ∧ Walks s.locals s'.locals := by
  obtain ⟨pool, s₁, hl, h⟩ := (quiet_pushPool _).bind rfl h
  obtain ⟨form, s₁, hl, h⟩ := (quiet_callList _ _ _).bind hl h
  obtain ⟨_, s₁, hl, h⟩ := (quiet_modifyWorld _).bind hl h
  obtain ⟨_, s₁, hl, h⟩ := (quiet_addToPool _).bind hl h
  obtain ⟨_, s₁, hl, h⟩ := (quiet_modifyWorld _).bind hl h
  exact hl ▸ hC.walk h

theorem walks_walkAndAlloc (hC : C.Sound) {bp : Word} {quoted : Bool}
    (h : walkAndAlloc R C bp quoted s = .ok u c s') : c = [] ∧ Walks s.locals s'.locals := by
  obtain ⟨_, s₁, hl, h⟩ := (quiet_when (quiet_stop _)).bind rfl h
  obtain ⟨body, s₁, hl, h⟩ := (quiet_car _).bind hl h
  obtain ⟨isList, s₁, hl, h⟩ := (quiet_listp _).bind hl h
  obtain ⟨-, h⟩ | ⟨-, h⟩ := ite_ok_iff.1 h
  · obtain ⟨-, rfl, rfl⟩ := pure_ok_iff.1 h
    exact ⟨rfl, hl ▸ .refl⟩
  obtain ⟨args, s₁, hl, h⟩ := (quiet_cdr _).bind hl h
  obtain ⟨fsym, s₁, hl, h⟩ := (quiet_car _).bind hl h
  obtain ⟨isLet1, s₁, hl, h⟩ := (quiet_symstreq _ _).bind hl h
  obtain ⟨-, h⟩ | ⟨-, h⟩ := ite_ok_iff.1 h
  · exact hl ▸ walks_let1 hC h
  obtain ⟨isLambda, s₁, hl, h⟩ := (quiet_symstreq _ _).bind hl h
  obtain ⟨-, h⟩ | ⟨-, h⟩ := ite_ok_iff.1 h
  · obtain ⟨-, rfl, rfl⟩ := pure_ok_iff.1 h
    exact ⟨rfl, hl ▸ .refl⟩
  obtain ⟨-, h⟩ | ⟨-, h⟩ := ite_ok_iff.1 h
  · obtain ⟨isUnquote, s₁, hl, h⟩ := (quiet_symstreq _ _).bind hl h
    obtain ⟨isSplice, s₁, hl, h⟩ := (quiet_symstreq _ _).bind hl h
    obtain ⟨-, h⟩ | ⟨-, h⟩ := ite_ok_iff.1 h
    · exact hl ▸ walks_forList hC h
    · obtain ⟨-, rfl, rfl⟩ := pure_ok_iff.1 h
      exact ⟨rfl, hl ▸ .refl⟩
  obtain ⟨mac, s₁, hl, h⟩ := (quiet_findHead _).bind hl h
  obtain ⟨_, c₁, s₂, c₂, rfl, h₁, h₂⟩ := bind_ok_iff.1 h
  have hw : c₁ = [] ∧ Walks s.locals s₂.locals := by
    rw [← hl]
    rcases when_ok_iff.1 h₁ with ⟨-, h₁⟩ | ⟨-, rfl, rfl⟩
    · exact hC.walk h₁
    · exact ⟨rfl, .refl⟩
  obtain ⟨rfl, hw⟩ := hw
  have hw' : c₂ = [] ∧ Walks s₂.locals s'.locals := by
    rcases mac with _ | ⟨name, margs, _ | _ | _, code⟩
    case some.macro_ => exact walks_macro hC h₂
    all_goals
      obtain ⟨quote, s₃, hl, h₂⟩ := (quiet_symstreq _ _).bind rfl h₂
      obtain ⟨backquote, s₃, hl, h₂⟩ := (quiet_symstreq _ _).bind hl h₂
      exact hl ▸ walks_forList hC h₂
  obtain ⟨rfl, hw'⟩ := hw'
  exact ⟨rfl, .trans hw hw'⟩

theorem emits_defaultValue (hC : C.Sound) {expr v : Word}
    (h : defaultValue R C expr s = .ok v c s') :
    ∃ d l, c = [] ∧ Emits (.function false d l) s.locals [] s'.locals := by
  obtain ⟨_, s₁, hl, h⟩ := (quiet_allocate _ _ _).bind rfl h
  obtain ⟨_, s₁, hl, h⟩ := (quiet_allocate _ _ _).bind hl h
  obtain ⟨l, s₁, hl, h⟩ := quiet_getLocal.bind hl h
  obtain ⟨⟨ar, l', d⟩, c₁, s₂, c₂, rfl, h₁, h₂⟩ := bind_ok_iff.1 h
  obtain ⟨rfl, hf⟩ := hC.function h₁
  dsimp only at h₂
  obtain ⟨p, s₃, hl', h₂⟩ := (quiet_linkProgram _).bind rfl h₂
  obtain ⟨rfl, hl''⟩ := quiet_run _ _ _ _ _ _ h₂
  rw [hl] at hf
  exact ⟨d, l', rfl, (hl''.trans hl') ▸ hf⟩

theorem emits_listToArgs (hC : C.Sound) {n : ℕ} {i : Word} {ar ar' : Args} {opt : Bool}
    (h : listToArgs R C n i ar opt s = .ok ar' c s') :
    c = [] ∧ Emits .params s.locals [] s'.locals := by
  induction n generalizing i ar opt s c with
  | zero => cases h
  | succ n ih =>
    unfold listToArgs at h
    obtain ⟨-, h⟩ | ⟨-, h⟩ := ite_ok_iff.1 h
    · obtain ⟨-, rfl, rfl⟩ := pure_ok_iff.1 h
      exact ⟨rfl, .paramsNil⟩
    obtain ⟨val, s₁, hl, h⟩ := (quiet_car _).bind rfl h
    obtain ⟨-, h⟩ | ⟨-, h⟩ := ite_ok_iff.1 h
    · obtain ⟨isRest, s₁, hl, h⟩ := (quiet_symstreq _ _).bind hl h
      obtain ⟨-, h⟩ | ⟨-, h⟩ := ite_ok_iff.1 h
      · -- the name after `&`
        obtain ⟨_, s₁, hl, h⟩ := (quiet_cdr _).bind hl h
        obtain ⟨_, s₁, hl, h⟩ := (quiet_car _).bind hl h
        obtain ⟨_, s₁, hl, h⟩ := quiet_throwIf.bind hl h
        obtain ⟨name, s₁, hl, h⟩ := (quiet_symbolName _).bind hl h
        obtain ⟨s₁, hl, h⟩ := modifyLocal_bind hl h
        obtain ⟨_, s₁, hl, h⟩ := (quiet_cdr _).bind hl h
        obtain ⟨rfl, hp⟩ := ih h
        exact ⟨rfl, .paramsBind name _ (hl ▸ hp)⟩
      obtain ⟨-, h⟩ | ⟨-, h⟩ := ite_ok_iff.1 h
      · -- a required parameter
        obtain ⟨name, s₁, hl, h⟩ := (quiet_symbolName _).bind hl h
        obtain ⟨s₁, hl, h⟩ := modifyLocal_bind hl h
        obtain ⟨_, s₁, hl, h⟩ := (quiet_cdr _).bind hl h
        obtain ⟨rfl, hp⟩ := ih h
        exact ⟨rfl, .paramsBind name _ (hl ▸ hp)⟩
      · obtain ⟨name, s₁, hl, h⟩ := (quiet_symbolName _).bind hl h
        obtain ⟨-, h⟩ | ⟨-, h⟩ := ite_ok_iff.1 h <;> cases h
    obtain ⟨isList, s₁, hl, h⟩ := (quiet_listp _).bind hl h
    obtain ⟨-, h⟩ | ⟨-, h⟩ := ite_ok_iff.1 h
    · -- an optional parameter
      obtain ⟨_, s₁, hl, h⟩ := (quiet_length _).bind hl h
      obtain ⟨_, s₁, hl, h⟩ := quiet_throwIf.bind hl h
      obtain ⟨_, s₁, hl, h⟩ := (quiet_car _).bind hl h
      obtain ⟨_, s₁, hl, h⟩ := (quiet_cdr _).bind hl h
      obtain ⟨expr, s₁, hl, h⟩ := (quiet_car _).bind hl h
      obtain ⟨v, c₁, s₂, c₂, rfl, h₁, h₂⟩ := bind_ok_iff.1 h
      obtain ⟨d, l, rfl, hd⟩ := emits_defaultValue hC h₁
      obtain ⟨name, s₃, hl', h₂⟩ := (quiet_symbolName _).bind rfl h₂
      obtain ⟨s₃, hl', h₂⟩ := modifyLocal_bind hl' h₂
      obtain ⟨_, s₃, hl', h₂⟩ := (quiet_cdr _).bind hl' h₂
      obtain ⟨rfl, hp⟩ := ih h₂
      rw [hl'] at hp
      rw [hl] at hd
      exact ⟨rfl, .paramsDefault hd (.paramsBind name _ hp)⟩
    · obtain ⟨_, s₁, hl, h⟩ := (quiet_cdr _).bind hl h
      obtain ⟨rfl, hp⟩ := ih h
      exact ⟨rfl, hl ▸ hp⟩

/-- The parameters, the walk over the body, and the body. -/
theorem emits_functionBody (hC : C.Sound) {args : Word}
    (h : compileFunctionBody R C args s = .ok u c s') :
    ∃ L₁ L₂ ar l₂ rest c₁, Emits .params s.locals [] L₁ ∧
      Walks (L₁.modifyHead fun l => { l with args := ar }) L₂ ∧ L₂ = l₂ :: rest ∧
      Emits (.body true) (L₂.modifyHead Local.resetSlots) c₁ s'.locals ∧
      c = setup l₂.numStackEntries ++ c₁ ++ cleanup := by
  obtain ⟨arglist, s₁, hl, h⟩ := (quiet_car _).bind rfl h
  obtain ⟨body, s₁, hl, h⟩ := (quiet_cdr _).bind hl h
  obtain ⟨ar, c₁, s₂, c₂, rfl, h₁, h₂⟩ := bind_ok_iff.1 h
  obtain ⟨rfl, hp⟩ := emits_listToArgs hC h₁
  obtain ⟨s₃, hl₃, h₂⟩ := modifyLocal_bind rfl h₂
  obtain ⟨_, c₃, s₄, c₄, rfl, h₃, h₄⟩ := bind_ok_iff.1 h₂
  obtain ⟨rfl, hw⟩ := walks_forList hC h₃
  obtain ⟨l₂, rest, s₅, hl₂, hl₅, h₄⟩ := getLocal_bind rfl h₄
  obtain ⟨c₅, rfl, h₅⟩ := emit_bind h₄
  obtain ⟨s₆, hl₆, h₅⟩ := modifyLocal_bind hl₅ h₅
  obtain ⟨_, c₆, s₇, c₇, rfl, h₆, h₇⟩ := bind_ok_iff.1 h₅
  obtain ⟨rfl, rfl⟩ := emit_ok_iff.1 h₇
  refine ⟨_, _, ar, l₂, rest, c₆, hl ▸ hp, hl₃ ▸ hw, hl₂, hl₆ ▸ emits_body hC h₆, ?_⟩
  simp only [List.nil_append, List.append_assoc]

theorem emits_function (hC : C.Sound) {args : Word} {closed : Bool} {name : Option String}
    {path : String} {ar : Args} {l : Local} {d : Code}
    (h : compileFunction R C args closed name path s = .ok (ar, l, d) c s') :
    c = [] ∧ Emits (.function closed d l) s.locals [] s'.locals := by
  obtain ⟨t, c₁, s₁, c₂, rfl, hg, h₁⟩ := bind_ok_iff.1 h
  obtain ⟨rfl, rfl, rfl⟩ := get_ok_iff.1 hg
  obtain ⟨_, c₃, s₂, c₄, rfl, hm, h₂⟩ := bind_ok_iff.1 h₁
  obtain ⟨rfl, rfl⟩ := modify_ok_iff.1 hm
  obtain ⟨⟨_, d'⟩, c₅, s₃, c₆, rfl, hb, h₃⟩ := bind_ok_iff.1 h₂
  obtain ⟨hrun, rfl⟩ := capture_ok_iff.1 hb
  obtain ⟨L₁, L₂, ar', l₂, rest, c₇, hp, hw, hl₂, hbody, rfl⟩ := emits_functionBody hC hrun
  dsimp only at h₃
  obtain ⟨l', rest', s₄, hl₃, hl₄, h₃⟩ := getLocal_bind rfl h₃
  obtain ⟨_, c₈, s₅, c₉, rfl, hm, h₄⟩ := bind_ok_iff.1 h₃
  obtain ⟨rfl, rfl⟩ := modify_ok_iff.1 hm
  obtain ⟨hr, rfl, rfl⟩ := pure_ok_iff.1 h₄
  obtain ⟨-, rfl, rfl⟩ : l'.args = ar ∧ l' = l ∧ _ = d := by simpa using hr
  have he : Emits (.function closed _ l') _ _ _ :=
    .function name path hp hw hbody (by rw [hl₂]; rfl) (by rw [hl₃]; rfl)
  refine ⟨rfl, ?_⟩
  show Emits _ _ _ (if closed then s₄.locals.tail else s.locals)
  rw [hl₄]
  exact he

/-- The runs of the compiler are as `Walks` and `Emits` say. -/
theorem compiler_sound (R : Runtime) (n : ℕ) : (compiler R n).Sound := by
  induction n with
  | zero => constructor <;> intros <;> contradiction
  | succ n ih => exact ⟨walks_walkAndAlloc ih, emits_expression ih, emits_backquote ih,
      emits_function ih⟩

end Sound

/-! ### The functions around -/

/-- Related lists, one after the other. -/
theorem forall₂_comp {α β γ : Type} {R : α → β → Prop} {S : β → γ → Prop} {T : α → γ → Prop}
    {as : List α} {bs : List β} {cs : List γ} (h : List.Forall₂ R as bs)
    (h' : List.Forall₂ S bs cs) (hT : ∀ a b c, R a b → S b c → T a c) : List.Forall₂ T as cs := by
  induction h generalizing cs with
  | nil =>
    cases h'
    exact .nil
  | cons hab _ ih =>
    cases h' with
    | cons hbc hr => exact .cons (hT _ _ _ hab hbc) (ih hr)

/-- `l'` is `l` after it has captured variables from further out. -/
def Captures (l l' : Local) : Prop :=
  ∃ vars : List Variable, (∀ v ∈ vars, v.type = .free) ∧
    l' = { l with first := vars ++ l.first, numClosureSlots := l.numClosureSlots + vars.length }

theorem Captures.refl (l : Local) : Captures l l := ⟨[], by simp, rfl⟩

theorem Captures.trans {l l₁ l₂ : Local} (h : Captures l l₁) (h' : Captures l₁ l₂) :
    Captures l l₂ := by
  obtain ⟨vars, hv, rfl⟩ := h
  obtain ⟨vars', hv', rfl⟩ := h'
  refine ⟨vars' ++ vars, fun v hm => (List.mem_append.1 hm).elim (hv' v) (hv v), ?_⟩
  simp only [List.length_append, List.append_assoc, Local.mk.injEq, true_and, and_true]
  omega

theorem forall₂_captures_refl (L : List Local) : List.Forall₂ Captures L L :=
  List.forall₂_same.2 fun l _ => .refl l

theorem forall₂_captures_trans {L L₁ L₂ : List Local} (h : List.Forall₂ Captures L L₁)
    (h' : List.Forall₂ Captures L₁ L₂) : List.Forall₂ Captures L L₂ :=
  forall₂_comp h h' fun _ _ _ => Captures.trans

theorem captures_findVariable (name : String) (L : List Local) :
    List.Forall₂ Captures L (findVariable name L).2 := by
  induction L with
  | nil => exact .nil
  | cons l parents ih =>
    unfold findVariable
    split
    · exact forall₂_captures_refl _
    · split
      · rename_i hp
        rw [hp] at ih
        exact .cons ⟨[⟨name, l.numClosureSlots, .free⟩], by simp, rfl⟩ ih
      · rename_i hp
        rw [hp] at ih
        exact .cons (.refl l) ih

/-- The functions around the innermost one only capture variables. -/
def Outer (L L' : List Local) : Prop :=
  ∀ l rest, L = l :: rest → ∃ l' rest', L' = l' :: rest' ∧ List.Forall₂ Captures rest rest'

theorem Outer.of_captures {L L' : List Local} (h : List.Forall₂ Captures L L') : Outer L L' := by
  rintro l rest rfl
  cases h with
  | cons _ hr => exact ⟨_, _, rfl, hr⟩

theorem Outer.refl (L : List Local) : Outer L L := .of_captures (forall₂_captures_refl L)

theorem Outer.trans {L L₁ L₂ : List Local} (h : Outer L L₁) (h' : Outer L₁ L₂) : Outer L L₂ := by
  intro l rest hL
  obtain ⟨l₁, rest₁, hL₁, hr⟩ := h l rest hL
  obtain ⟨l₂, rest₂, hL₂, hr'⟩ := h' l₁ rest₁ hL₁
  exact ⟨l₂, rest₂, hL₂, forall₂_captures_trans hr hr'⟩

theorem outer_modifyHead (g : Local → Local) (L : List Local) : Outer L (L.modifyHead g) := by
  rintro l rest rfl
  exact ⟨g l, rest, rfl, forall₂_captures_refl rest⟩

theorem Outer.head {g : Local → Local} {L L' : List Local} (h : Outer (L.modifyHead g) L') :
    Outer L L' :=
  (outer_modifyHead g L).trans h

theorem Outer.modify {g : Local → Local} {L L' : List Local} (h : Outer L L') :
    Outer L (L'.modifyHead g) :=
  h.trans (outer_modifyHead g L')

theorem Walks.outer {L L' : List Local} (h : Walks L L') : Outer L L' := by
  induction h with
  | refl => exact .refl _
  | trans _ _ ih ih' => exact ih.trans ih'
  | let1 _ ih => exact ih.head.modify

/-- What a job leaves of the functions around the innermost one; a whole function, of all. -/
def OuterOf : Job → List Local → List Local → Prop
  | .function _ _ _, L, L' => List.Forall₂ Captures L L'
  | _, L, L' => Outer L L'

theorem outerOf_of_emits {j : Job} {L L' : List Local} {c : Code} (h : Emits j L c L') :
    OuterOf j L L' := by
  induction h with
  | const | nothing | gc | functionSelf | atom | branchesNil | bodyNil | argumentsNil
  | capturesNil | templateNil | paramsNil => exact Outer.refl _
  | var => exact .of_captures (captures_findVariable _ _)
  | capturesCons _ _ _ _ ih => exact (Outer.of_captures (captures_findVariable _ _)).trans ih
  | progn _ ih | backquote _ ih | macro_ _ ih | unquote _ ih | list _ ih | template _ ih
  | eval _ ih | load _ _ ih | call _ _ ih | selfCall _ ih | tailCall _ ih => exact ih
  | ifTwo _ _ ih₁ ih₂ => exact Outer.trans ih₁ (Outer.head (Outer.head ih₂))
  | ifThree _ _ _ ih₁ ih₂ ih₃ => exact (Outer.trans ih₁ (Outer.head (Outer.head ih₂))).trans ih₃
  | andOr _ _ ih | paramsBind _ _ _ ih => exact Outer.head ih
  | let1 _ _ _ ih₁ ih₂ =>
    exact (Outer.trans ih₁ (Outer.head (Outer.head ih₂))).modify.modify
  | lambda _ _ _ _ ih₁ ih₂ | paramsDefault _ _ ih₁ ih₂ => exact (Outer.of_captures ih₁).trans ih₂
  | branchesCons _ _ _ ih₁ ih₂ | bodyCons _ _ _ ih₁ ih₂ | argumentsCons _ _ ih₁ ih₂
  | passing _ _ _ _ ih₁ ih₂ | templateSplice _ _ ih₁ ih₂ | templateCons _ _ ih₁ ih₂ =>
    exact Outer.trans ih₁ ih₂
  | @function L _ _ _ _ _ _ closed _ _ _ _ h₂ _ _ _ ih₁ ih₃ =>
    have h := (Outer.trans ih₁ h₂.outer.head).trans (Outer.head ih₃)
    obtain ⟨_, _, hL₃, hr⟩ := h _ _ rfl
    cases closed with
    | false => exact forall₂_captures_refl L
    | true =>
      rw [hL₃]
      exact hr

end Lisp

end Bluejay
