import Bluejay.Lisp.Traversal

/-!
# Invariants of the compiler

What every step of the compiler keeps holds whenever the compiler has stopped, with an error or
without.

* `Stable I` : each way in which the compiler changes the `struct local`s keeps `I`, which does
  not speak about the memory.
* `World.Next R w w'` : a step of the compiler may make `w'` of the memory `w`.
* `compiler_keeps_also` : every run of the compiler keeps what is stable, together with what such
  steps keep of the memory; `compiler_keeps` and `compiler_keeps_world` : each of the two alone.
-/

namespace Bluejay

namespace Lisp

open Emitter

/-- The steps of the compiler keep `I`. -/
structure Stable (I : State → Prop) : Prop where
  world : ∀ {s : State} (w : World), I s → I { s with world := w }
  note : ∀ {s : State} (name : String), I s →
    I { s with occurrences := s.occurrences ++ [⟨name, s.locals⟩] }
  find : ∀ {s : State} (name : String), I s → I { s with locals := (findVariable name s.locals).2 }
  nextLabel : ∀ {s : State}, I s → I { s with locals := s.locals.modifyHead Local.nextLabel }
  allocSlot : ∀ {s : State}, I s → I { s with locals := s.locals.modifyHead Local.allocSlot }
  freeSlot : ∀ {s : State} (slot : ℕ), I s →
    I { s with locals := s.locals.modifyHead (Local.freeSlot slot) }
  resetSlots : ∀ {s : State}, I s → I { s with locals := s.locals.modifyHead Local.resetSlots }
  setArgs : ∀ {s : State} (ar : Args), I s →
    I { s with locals := s.locals.modifyHead fun l => { l with args := ar } }
  addBinder : ∀ {s : State} {type : VarType} (name : String) (k : ℕ), type ≠ .free → I s →
    I { s with locals := s.locals.modifyHead (Local.addBinder type name k) }
  closeBinder : ∀ {s : State}, I s → I { s with locals := s.locals.modifyHead Local.closeBinder }
  /-- A function is entered, within those of `s` or on its own. -/
  enter : ∀ {s s' : State} (name : Option String) (path : String) (closed : Bool), I s → I s' →
    I { s' with locals := .new name path :: if closed then s.locals else [] }
  /-- It is left: the others are as they have become, or as they were in `s`. -/
  leave : ∀ {s s' : State} (closed : Bool), I s → I s' →
    I { s' with locals := if closed then s'.locals.tail else s.locals }

/-- What a step of the compiler may make of the memory. -/
inductive World.Next (R : Runtime) (w : World) : World → Prop
  | allocate (o : Obj) : Next R w { w with
      heap := w.heap.set (R.malloc w.heap) o
      pool := Function.update w.pool (R.malloc w.heap) w.currentPool }
  | pools (pool : ℕ → ℕ) (currentPool : ℕ) :
      Next R w { w with pool := pool, currentPool := currentPool }
  | setCar (cell v : Word) : Next R w { w with
      heap := w.heap.set (pointer cell) (.cons v (w.heap.cdr cell)) }
  | link (code : Code) : Next R w { w with programs := w.programs ++ [code] }
  | callList {f : Function} {list v : Word} {w' : World}
      (h : R.callList f list w = some (v, w')) : Next R w w'
  | run {p : CodePtr} {v : Word} {w' : World} (h : R.run p w = some (v, w')) : Next R w w'

/-- What is stable, and what holds of the memory. -/
def Also (A : State → Prop) (J : World → Prop) (s : State) : Prop := A s ∧ J s.world

/-- The steps of the compiler keep `A`, and what they do to the memory keeps `J`. -/
structure StableIn (R : Runtime) (A : State → Prop) (J : World → Prop) : Prop where
  scopes : Stable A
  memory : ∀ {w w' : World}, w.Next R w' → J w → J w'

/-- The functions of `C` keep `I`. -/
structure Compiler.Keeps (I : State → Prop) (C : Compiler) : Prop where
  walk : ∀ bp q, Emitter.Keeps I (C.walkAndAlloc bp q)
  expr : ∀ v t, Emitter.Keeps I (C.compileExpression v t)
  backquote : ∀ v, Emitter.Keeps I (C.compileBackquote v)
  function : ∀ v closed name path, Emitter.Keeps I (C.compileFunction v closed name path)

section Primitive

variable {I : State → Prop}

theorem keeps_getHeap : Keeps I getHeap := keeps_get.bind fun _ => keeps_pure _

theorem keeps_car (v : Word) : Keeps I (car v) := keeps_getHeap.bind fun _ => keeps_pure _

theorem keeps_cdr (v : Word) : Keeps I (cdr v) := keeps_getHeap.bind fun _ => keeps_pure _

theorem keeps_elt (v : Word) (i : ℕ) : Keeps I (elt v i) := keeps_getHeap.bind fun _ => keeps_pure _

theorem keeps_symstreq (v : Word) (str : String) : Keeps I (symstreq v str) :=
  keeps_getHeap.bind fun _ => keeps_pure _

theorem keeps_throwIf {p : Prop} [Decidable p] {code : ErrorCode} {message : String} :
    Keeps I (throwIf p code message) :=
  keeps_when (keeps_stop _)

theorem keeps_listp (v : Word) : Keeps I (listp v) := keeps_getHeap.bind fun H => by
  cases H.listp v with
  | none => exact keeps_stop _
  | some b => exact keeps_pure b

theorem keeps_length (v : Word) : Keeps I (length v) := keeps_getHeap.bind fun H => by
  cases H.length v with
  | none => exact keeps_stop _
  | some n => exact keeps_pure n

theorem keeps_symbolName (v : Word) : Keeps I (symbolName v) := keeps_getHeap.bind fun H => by
  split
  · exact keeps_pure _
  · exact keeps_stop _

theorem keeps_findFunction (name : String) : Keeps I (findFunction name) :=
  keeps_get.bind fun _ => keeps_pure _

theorem keeps_getLocal : Keeps I getLocal := keeps_get.bind fun s => by
  cases s.locals with
  | nil => exact keeps_stop _
  | cons l L => exact keeps_pure l

theorem keeps_findHead (fsym : Word) : Keeps I (findHead fsym) :=
  keeps_ite ((keeps_symbolName _).bind fun name => keeps_findFunction name) (keeps_pure none)

theorem keeps_isSplice (v : Word) : Keeps I (isSplice v) := (keeps_listp v).bind fun _ =>
  keeps_ite ((keeps_car v).bind fun w => keeps_symstreq w _) (keeps_pure false)

theorem keeps_forList {body : Word → CompileM Unit} (hb : ∀ v, Keeps I (body v)) (n : ℕ)
    (v : Word) : Keeps I (forList body n v) := by
  induction n generalizing v with
  | zero => exact keeps_stop _
  | succ n ih =>
    exact keeps_ite (keeps_pure ()) ((hb v).bind fun _ => (keeps_cdr v).bind fun w => ih w)

end Primitive

section Stable

variable {A : State → Prop} {J : World → Prop} {R : Runtime} (hI : StableIn R A J) {C : Compiler}

include hI

theorem keeps_modifyWorld {f : World → World} (hf : ∀ w : World, w.Next R (f w)) :
    Keeps (Also A J) (modifyWorld f) :=
  keeps_modify fun _ hs => ⟨hI.scopes.world _ hs.1, hI.memory (hf _) hs.2⟩

theorem keeps_allocate (o : Obj) (tag : ℕ) : Keeps (Also A J) (allocate R o tag) := fun _ hs =>
  ⟨hI.scopes.world _ hs.1, hI.memory (.allocate o) hs.2⟩

theorem keeps_pushPool (pool : ℕ) : Keeps (Also A J) (pushPool pool) :=
  keeps_get.bind fun _ => (keeps_modifyWorld hI fun _ => .pools _ _).bind fun _ => keeps_pure _

theorem keeps_addToPool (form : Word) : Keeps (Also A J) (addToPool form) :=
  keeps_ite (keeps_modifyWorld hI fun _ => .pools _ _) (keeps_pure ())

theorem keeps_callList (f : Function) (list : Word) :
    Keeps (Also A J) (callList R f list) := by
  intro s hs
  rw [callList, bind_of_ok (show (get : CompileM State) s = .ok s [] s from rfl)]
  cases h : R.callList f list s.world with
  | none => exact hs
  | some r => exact ⟨hI.scopes.world _ hs.1, hI.memory (.callList h) hs.2⟩

theorem keeps_run (p : CodePtr) : Keeps (Also A J) (run R p) := by
  intro s hs
  rw [run, bind_of_ok (show (get : CompileM State) s = .ok s [] s from rfl)]
  cases h : R.run p s.world with
  | none => exact hs
  | some r => exact ⟨hI.scopes.world _ hs.1, hI.memory (.run h) hs.2⟩

theorem keeps_linkProgram (d : Code) : Keeps (Also A J) (linkProgram d) :=
  keeps_get.bind fun _ => (keeps_modifyWorld hI fun _ => .link d).bind fun _ => keeps_pure _

theorem keeps_localAlloc : Keeps (Also A J) localAlloc :=
  keeps_getLocal.bind fun _ => (keeps_modify fun _ hs =>
    ⟨hI.scopes.allocSlot hs.1, hs.2⟩).bind fun _ => keeps_pure _

theorem keeps_localFree (slot : ℕ) : Keeps (Also A J) (localFree slot) :=
  keeps_modify fun _ hs => ⟨hI.scopes.freeSlot slot hs.1, hs.2⟩

theorem keeps_nextpc : Keeps (Also A J) nextpc :=
  keeps_getLocal.bind fun _ => (keeps_modify fun _ hs =>
    ⟨hI.scopes.nextLabel hs.1, hs.2⟩).bind fun _ => keeps_pure _

theorem keeps_lookUp (name : String) : Keeps (Also A J) (lookUp name) :=
  keeps_get.bind fun _ => (keeps_modify fun _ hs =>
    ⟨hI.scopes.find name hs.1, hs.2⟩).bind fun _ => keeps_pure _

theorem keeps_noteOccurrence (name : String) : Keeps (Also A J) (noteOccurrence name) :=
  keeps_modify fun _ hs => ⟨hI.scopes.note name hs.1, hs.2⟩

/-- What keeps the invariants is a congruence, which speaks about the first program only. -/
theorem uniform_keeps : Uniform R fun _ m _ => Keeps (Also A J) m where
  bind := Keeps.bind
  pure := keeps_pure
  stop := keeps_stop
  get := keeps_get
  emit := keeps_emit
  lookUp := keeps_lookUp hI
  allocate := keeps_allocate hI
  callList := keeps_callList hI
  run := keeps_run hI
  linkProgram := keeps_linkProgram hI
  pushPool := keeps_pushPool hI
  popPool _ := keeps_modifyWorld hI fun _ => .pools _ _
  noteOccurrence := keeps_noteOccurrence hI
  localAlloc := keeps_localAlloc hI
  localFree := keeps_localFree hI
  addBinder name k ht := keeps_modify fun _ hs =>
    ⟨hI.scopes.addBinder name k (by rcases ht with rfl | rfl <;> decide) hs.1, hs.2⟩
  closeBinder := keeps_modify fun _ hs => ⟨hI.scopes.closeBinder hs.1, hs.2⟩
  setArgs ar := keeps_modify fun _ hs => ⟨hI.scopes.setArgs ar hs.1, hs.2⟩
  resetSlots := keeps_modify fun _ hs => ⟨hI.scopes.resetSlots hs.1, hs.2⟩

theorem congruence_keeps : Congruence R fun _ m _ => Keeps (Also A J) m :=
  (uniform_keeps hI).congruence

variable (hC : C.Keeps (Also A J))

include hC

theorem related_keeps : C.Related R (fun _ m _ => Keeps (Also A J) m) C :=
  (uniform_keeps hI).related hC.function rfl hC.walk hC.expr hC.backquote

theorem keeps_walk_let1 (args : Word) : Keeps (Also A J) (do
    let slot ← localAlloc
    forList (fun expr => C.walkAndAlloc expr false) C.steps (← cdr args)
    localFree slot) :=
  (keeps_localAlloc hI).bind fun slot => (keeps_cdr _).bind fun _ =>
    (keeps_forList (fun v => hC.walk v _) _ _).bind fun _ => keeps_localFree hI slot

theorem keeps_walk_macro (func : Function) (bp args : Word) : Keeps (Also A J) (do
    let pool ← pushPool 0
    let form ← callList R func args
    popPool pool
    addToPool form
    setCar bp form
    C.walkAndAlloc bp false) :=
  (keeps_pushPool hI _).bind fun _ => (keeps_callList hI _ _).bind fun _ =>
    (keeps_modifyWorld hI fun _ => .pools _ _).bind fun _ => (keeps_addToPool hI _).bind fun _ =>
    (keeps_modifyWorld hI fun _ => .setCar _ _).bind fun _ => hC.walk _ _

theorem keeps_walkAndAlloc (bp : Word) (quoted : Bool) :
    Keeps (Also A J) (walkAndAlloc R C bp quoted) := by
  refine (keeps_when (keeps_stop _)).bind fun _ => (keeps_car _).bind fun body =>
    (keeps_listp _).bind fun _ => keeps_ite (keeps_pure _) ?_
  refine (keeps_cdr _).bind fun args => (keeps_car _).bind fun fsym =>
    (keeps_symstreq _ _).bind fun _ => keeps_ite (keeps_walk_let1 hI hC args) ?_
  refine (keeps_symstreq _ _).bind fun _ => keeps_ite (keeps_pure _) (keeps_ite ?_ ?_)
  · exact (keeps_symstreq _ _).bind fun _ => (keeps_symstreq _ _).bind fun _ =>
      keeps_ite (keeps_forList (fun v => hC.walk v _) _ _) (keeps_pure _)
  refine (keeps_findHead _).bind fun mac => (keeps_when (hC.walk _ _)).bind fun _ => ?_
  rcases mac with _ | ⟨name, margs, _ | _ | _, code⟩
  case some.macro_ => exact keeps_walk_macro hI hC _ _ _
  all_goals exact (keeps_symstreq _ _).bind fun _ => (keeps_symstreq _ _).bind fun _ =>
    keeps_forList (fun v => hC.walk v _) _ _

theorem keeps_compileExpression (val : Word) (tail : Bool) :
    Keeps (Also A J) (compileExpression R C val tail) := by
  rw [← compileExpressionWith_nextpc]
  exact @Congruence.compileExpression R _ (congruence_keeps hI) C C (related_keeps hI hC) nextpc
    nextpc (keeps_nextpc hI) val tail

theorem keeps_listToArgs (n : ℕ) (i : Word) (args : Args) (opt : Bool) :
    Keeps (Also A J) (listToArgs R C n i args opt) :=
  (congruence_keeps hI).listToArgs (related_keeps hI hC) n i args opt

theorem keeps_compileFunction (args : Word) (closed : Bool) (name : Option String)
    (path : String) : Keeps (Also A J) (compileFunction R C args closed name path) := by
  refine keeps_get_bind fun s hs => ?_
  refine (keeps_modify fun _ hs' =>
    ⟨hI.scopes.enter name path closed hs.1 hs'.1, hs'.2⟩).bind fun _ => ?_
  have hbody := (congruence_keeps hI).compileFunctionBody (related_keeps hI hC) args
  refine (keeps_capture hbody).bind fun _ => ?_
  exact keeps_getLocal.bind fun _ => (keeps_modify fun _ hs' =>
    ⟨hI.scopes.leave closed hs.1 hs'.1, hs'.2⟩).bind fun _ => keeps_pure _

end Stable

/-- Every run of the compiler keeps what its steps keep. -/
theorem compiler_keeps_also {A : State → Prop} {J : World → Prop} {R : Runtime}
    (hI : StableIn R A J) (n : ℕ) : (compiler R n).Keeps (Also A J) := by
  induction n with
  | zero => exact ⟨fun _ _ => keeps_stop _, fun _ _ => keeps_stop _, fun _ => keeps_stop _,
      fun _ _ _ _ => keeps_stop _⟩
  | succ n ih => exact ⟨keeps_walkAndAlloc hI ih, keeps_compileExpression hI ih,
      (congruence_keeps hI).compileBackquote (related_keeps hI ih), keeps_compileFunction hI ih⟩

/-- What does not speak about the memory. -/
theorem compiler_keeps {I : State → Prop} (hI : Stable I) (R : Runtime) (n : ℕ) :
    (compiler R n).Keeps I := by
  have heq : Also I (fun _ => True) = I := funext fun _ => propext (and_iff_left trivial)
  exact heq ▸ compiler_keeps_also ⟨hI, fun _ _ => trivial⟩ n

theorem stable_true : Stable fun _ => True := by
  constructor <;> intros <;> trivial

/-- What speaks about the memory alone. -/
theorem compiler_keeps_world {R : Runtime} {J : World → Prop}
    (hJ : ∀ {w w' : World}, w.Next R w' → J w → J w') (n : ℕ) :
    (compiler R n).Keeps fun s => J s.world := by
  have heq : Also (fun _ => True) J = fun s => J s.world :=
    funext fun _ => propext (and_iff_right trivial)
  exact heq ▸ compiler_keeps_also ⟨stable_true, hJ⟩ n

end Lisp

end Bluejay
