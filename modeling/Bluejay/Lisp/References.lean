import Mathlib.Data.List.Infix
import Bluejay.Lisp.Emits
import Bluejay.Lisp.Traversal

/-!
# Variables and closures in compiled code

The parts of the code of a function that read a variable or create a closure.

* `Item` : a reference to a variable, a `lambda`, or the reference of a function to itself.
* `Traced L c items L'` : the code `c`, emitted while the functions being compiled went from `L` to
  `L'`, has these items, and nothing else in it reads a variable or creates a closure.
* `SlotsOk` : captured variables have the slots of the closure to themselves.
* `Refers` : the names that occur free in items.
* `exists_traced` : the code of every function has its items.
-/

namespace Bluejay

namespace Lisp

open Emitter

/-! ### Items -/

/-- A part of compiled code that reads a variable or creates a closure. -/
inductive Item
  /-- The form `name`, for which the variable `v` was found. -/
  | reference (name : String) (v : Variable)
  /-- A `lambda`: its `struct local` in the end, the code that creates the closure, and the items
  of its body. -/
  | lambda (l : Local) (create : Code) (body : List Item)
  /-- `(function f)` in the function `f`. -/
  | self (args : Args)

/-- The code of a `lambda` up to the captures. -/
def closureCode (n : ℕ) (a : Args) (p : CodePtr) : Code :=
  [.push (.nat n), .push (.args a), .push (.code p), .call .createClosure, .addEsp 12]

/-- The code that captures the variable `u` in the slot `k` of the closure in `eax`. -/
def captureCode (u : Variable) (k : ℕ) : Code :=
  [.pushEax] ++ loadCode u ++ [.pushEax, .push (.nat k), .call .setClosureCaptureVariable,
    .addEsp 8, .popEax]

/-- The code that captures those of the variables `vars` that are free. -/
inductive Captured : List Variable → List Local → Code → List Local → Prop
  | nil {L : List Local} : Captured [] L [] L
  | skip {L L' : List Local} {v : Variable} {vars : List Variable} {c : Code} (hv : v.type ≠ .free)
      (h : Captured vars L c L') : Captured (v :: vars) L c L'
  | take {L L' : List Local} {v u : Variable} {vars : List Variable} {c : Code}
      (hv : v.type = .free) (hu : (findVariable v.name L).1 = some u) (hg : u.type ≠ .global)
      (h : Captured vars (findVariable v.name L).2 c L') :
      Captured (v :: vars) L (captureCode u v.number ++ c) L'

/-- The items of the code `c`, which was emitted between `L` and `L'`. -/
inductive Traced : List Local → Code → List Item → List Local → Prop
  | nil {L : List Local} : Traced L [] [] L
  | append {L L₁ L₂ : List Local} {c c' : Code} {is is' : List Item} (h : Traced L c is L₁)
      (h' : Traced L₁ c' is' L₂) : Traced L (c ++ c') (is ++ is') L₂
  | plain {L : List Local} {i : Instr} (hi : i.Plain) : Traced L [i] [] L
  | change {L : List Local} {g : Local → Local} (hf : ∀ l, (g l).first = l.first)
      (hn : ∀ l, (g l).numClosureSlots = l.numClosureSlots) : Traced L [] [] (L.modifyHead g)
  | binder {L : List Local} {type : VarType} (ht : type = .argument ∨ type = .bound)
      (name : String) (k : ℕ) :
      Traced L [] [] (L.modifyHead (Local.addBinder type name k))
  | reference {L : List Local} {name : String} {v : Variable}
      (hv : (findVariable name L).1 = some v) (hg : v.type ≠ .global) :
      Traced L (loadCode v) [.reference name v] (findVariable name L).2
  | self {L : List Local} (a : Args) : Traced L (selfCode a) [.self a] L
  | lambda {L L₁ L₂ : List Local} {l : Local} {c d : Code} {body : List Item}
      (name : Option String) (path : String) (a : Args) (p : CodePtr)
      (hb : Traced (.new name path :: L) d body (l :: L₁)) (hc : Captured l.first L₁ c L₂) :
      Traced L (closureCode l.numClosureSlots a p ++ c)
        [.lambda l (closureCode l.numClosureSlots a p ++ c) body] L₂

theorem traced_plain {L : List Local} {c : Code} (hc : ∀ i ∈ c, i.Plain) : Traced L c [] L := by
  induction c with
  | nil => exact .nil
  | cons i c ih =>
    obtain ⟨hi, hc⟩ := List.forall_mem_cons.1 hc
    exact .append (.plain hi) (ih hc)

theorem traced_allocSlot {L : List Local} : Traced L [] [] (L.modifyHead Local.allocSlot) := by
  refine .change (fun l => ?_) fun l => ?_
  · unfold Local.allocSlot Local.alloc
    split <;> rfl
  · unfold Local.allocSlot Local.alloc
    split <;> rfl

theorem traced_freeSlot {L : List Local} (slot : ℕ) :
    Traced L [] [] (L.modifyHead (Local.freeSlot slot)) :=
  .change (fun _ => rfl) fun _ => rfl

/-- `walk_and_alloc` adds no variables. -/
theorem Walks.traced {L L' : List Local} (h : Walks L L') : Traced L [] [] L' := by
  induction h with
  | refl => exact .nil
  | trans _ _ ih ih' => exact .append ih ih'
  | let1 _ ih => exact .append (.append traced_allocSlot ih) (traced_freeSlot _)

/-! ### Runs of the compiler -/

/-- The code of a run has items. -/
def HasItems (s : State) (c : Code) (s' : State) : Prop :=
  ∃ items, Traced s.locals c items s'.locals

theorem composable_hasItems : Composable HasItems where
  refl _ := ⟨[], .nil⟩
  trans := by
    rintro s s₁ s₂ c c' ⟨is, h⟩ ⟨is', h'⟩
    exact ⟨is ++ is', h.append h'⟩

/-- The runs that succeed have items. -/
abbrev Itemised {α : Type} (m : CompileM α) : Prop := Relates HasItems m

/-- The functions of `C` emit code with items. -/
structure Compiler.Itemised (C : Compiler) : Prop where
  walk : ∀ bp q, Lisp.Itemised (C.walkAndAlloc bp q)
  expr : ∀ v t, Lisp.Itemised (C.compileExpression v t)
  backquote : ∀ v, Lisp.Itemised (C.compileBackquote v)
  function : ∀ {v closed name path s ar l d c s'},
    C.compileFunction v closed name path s = .ok (ar, l, d) c s' → c = [] ∧ ∃ items rest,
      Traced (.new name path :: if closed then s.locals else []) d items (l :: rest) ∧
      s'.locals = if closed then rest else s.locals

section Primitive

variable {α β : Type} {m : CompileM α} {f : α → CompileM β}

theorem Itemised.bind (hm : Itemised m) (hf : ∀ a, Itemised (f a)) : Itemised (m >>= f) :=
  Relates.bind hm composable_hasItems hf

theorem Quiet.itemised (hm : Quiet m) : Itemised m := by
  intro s a c s' h
  obtain ⟨rfl, hl⟩ := hm s a c s' h
  exact ⟨[], hl ▸ .nil⟩

theorem itemised_pure (a : α) : Itemised (pure a : CompileM α) :=
  relates_pure composable_hasItems a

theorem itemised_stop (e : Err) : Itemised (stop e : CompileM α) := relates_stop e

theorem itemised_emit {c : Code} (hc : ∀ i ∈ c, i.Plain) : Itemised (emit c) :=
  relates_emit fun _ => ⟨[], traced_plain hc⟩

theorem itemised_modifyLocal {g : Local → Local} (h : ∀ L, Traced L [] [] (L.modifyHead g)) :
    Itemised (modifyLocal g) := relates_modify fun s => ⟨[], h s.locals⟩

theorem itemised_localAlloc : Itemised localAlloc :=
  quiet_getLocal.itemised.bind fun _ => (itemised_modifyLocal fun _ => traced_allocSlot).bind
    fun _ => itemised_pure _

theorem itemised_nextpc : Itemised nextpc :=
  quiet_getLocal.itemised.bind fun _ => (itemised_modifyLocal (g := Local.nextLabel) fun _ =>
    .change (fun _ => rfl) fun _ => rfl).bind fun _ => itemised_pure _

/-- A variable that is found is read by the code that is emitted. -/
theorem itemised_reference (name : String) : Itemised (do
    match ← lookUp name with
    | none => throw .invalid ("Variable `" ++ name ++ "' unbound")
    | some v => compileVariable v) := by
  intro s u c s' h
  obtain ⟨s₁, hl, h⟩ := lookUp_bind rfl h
  cases hv : (findVariable name s.locals).1 with
  | none =>
    rw [hv] at h
    cases h
  | some v =>
    rw [hv] at h
    obtain ⟨rfl, hg, rfl⟩ := compileVariable_ok h
    exact ⟨[.reference name v], hl ▸ .reference hv hg⟩

end Primitive

section Functions

variable {R : Runtime} {C : Compiler}

/-- The captures of a closure. -/
theorem captured_compileCaptures {vars : List Variable} {s s' : State} {u : Unit} {c : Code}
    (h : compileCaptures vars s = .ok u c s') : Captured vars s.locals c s'.locals := by
  induction vars generalizing s c with
  | nil =>
    obtain ⟨-, rfl, rfl⟩ := pure_ok_iff.1 h
    exact .nil
  | cons v vars ih =>
    obtain ⟨_, c₁, s₁, c₂, rfl, h₁, h₂⟩ := bind_ok_iff.1 h
    rcases when_ok_iff.1 h₁ with ⟨hv, h₁⟩ | ⟨hv, rfl, rfl⟩
    · obtain ⟨c₃, rfl, hrest⟩ := emit_bind h₁
      obtain ⟨_, c₄, s₂, c₅, rfl, h₃, h₄⟩ := bind_ok_iff.1 hrest
      obtain ⟨rfl, rfl⟩ := emit_ok_iff.1 h₄
      obtain ⟨s₃, hl, h₃⟩ := lookUp_bind rfl h₃
      cases hu : (findVariable v.name s.locals).1 with
      | none =>
        rw [hu] at h₃
        cases h₃
      | some u =>
        rw [hu] at h₃
        obtain ⟨rfl, hg, rfl⟩ := compileVariable_ok h₃
        rw [← List.append_assoc]
        exact .take hv hu hg (hl ▸ ih h₂)
    · exact .skip hv (ih h₂)

/-- That there are items is a congruence, which speaks about the first program only. -/
theorem congruence_itemised (R : Runtime) : Congruence R fun _ m _ => Itemised m where
  bind := Itemised.bind
  pure := itemised_pure
  stop := itemised_stop
  get := quiet_get.itemised
  emit := itemised_emit
  self a := relates_emit fun _ => ⟨[.self a], .self a⟩
  reference := itemised_reference
  allocate o tag := (quiet_allocate R o tag).itemised
  callList f list := (quiet_callList R f list).itemised
  run p := (quiet_run R p).itemised
  linkProgram d := (quiet_linkProgram d).itemised
  pushPool pool := (quiet_pushPool pool).itemised
  popPool _ := (quiet_modifyWorld _).itemised
  noteOccurrence name := (quiet_noteOccurrence name).itemised
  localAlloc := itemised_localAlloc
  localFree _ := itemised_modifyLocal fun _ => traced_freeSlot _
  addBinder name k ht := itemised_modifyLocal fun _ => .binder ht name k
  closeBinder := itemised_modifyLocal fun _ => .change (fun _ => rfl) fun _ => rfl
  setArgs _ := itemised_modifyLocal fun _ => .change (fun _ => rfl) fun _ => rfl
  resetSlots := itemised_modifyLocal fun _ => .change (fun _ => rfl) fun _ => rfl

variable (hC : C.Itemised)

include hC

theorem itemised_compileLambda (args : Word) : Itemised (compileLambda C args) := by
  intro s u c s' h
  obtain ⟨_, s₁, hl, h₁⟩ := quiet_getLocal.bind rfl h
  obtain ⟨⟨a, l, d⟩, c₁, s₂, c₂, rfl, hf, h₂⟩ := bind_ok_iff.1 h₁
  obtain ⟨rfl, body, rest, hbody, hs₂⟩ := hC.function hf
  dsimp only at h₂
  obtain ⟨p, s₃, hl₃, h₃⟩ := (quiet_linkProgram _).bind rfl h₂
  obtain ⟨c₃, rfl, h₄⟩ := emit_bind h₃
  have hcap := captured_compileCaptures h₄
  rw [hl₃, hs₂] at hcap
  rw [hl] at hbody
  exact ⟨_, .lambda _ _ a p hbody hcap⟩

/-- The expression for a default argument is compiled on its own. -/
theorem itemised_defaultValue (expr : Word) : Itemised (defaultValue R C expr) := by
  intro s v c s' h
  obtain ⟨_, s₁, hl₁, h₁⟩ := (quiet_allocate _ _ _).bind rfl h
  obtain ⟨_, s₂, hl₂, h₂⟩ := (quiet_allocate _ _ _).bind hl₁ h₁
  obtain ⟨_, s₃, hl₃, h₃⟩ := quiet_getLocal.bind hl₂ h₂
  obtain ⟨⟨a, l, d⟩, c₁, s₄, c₂, rfl, hf, h₄⟩ := bind_ok_iff.1 h₃
  obtain ⟨rfl, _, _, -, hs₄⟩ := hC.function hf
  dsimp only at h₄
  obtain ⟨p, s₅, hl₅, h₅⟩ := (quiet_linkProgram _).bind rfl h₄
  obtain ⟨rfl, hl⟩ := quiet_run _ _ _ _ _ _ h₅
  have heq : s'.locals = s.locals := by
    rw [hl, hl₅, hs₄, if_neg (by decide), hl₃]
  exact ⟨[], heq ▸ .nil⟩

theorem related_itemised : C.Related R (fun _ m _ => Itemised m) C where
  steps := rfl
  walk := hC.walk
  expr := hC.expr
  backquote := hC.backquote
  lambda := itemised_compileLambda hC
  default := itemised_defaultValue hC

theorem itemised_compileExpression (val : Word) (tail : Bool) :
    Itemised (compileExpression R C val tail) := by
  rw [← compileExpressionWith_nextpc]
  exact @Congruence.compileExpression R _ (congruence_itemised R) C C (related_itemised hC) nextpc
    nextpc itemised_nextpc val tail

theorem itemised_compileFunction {args : Word} {closed : Bool} {name : Option String}
    {path : String} {s s' : State} {ar : Args} {l : Local} {d c : Code}
    (h : compileFunction R C args closed name path s = .ok (ar, l, d) c s') :
    c = [] ∧ ∃ items rest,
      Traced (.new name path :: if closed then s.locals else []) d items (l :: rest) ∧
      s'.locals = if closed then rest else s.locals := by
  obtain ⟨_, c₁, s₁, c₂, rfl, hget, h₁⟩ := bind_ok_iff.1 h
  obtain ⟨rfl, rfl, rfl⟩ := get_ok_iff.1 hget
  obtain ⟨_, c₃, s₂, c₄, rfl, hmod, h₂⟩ := bind_ok_iff.1 h₁
  obtain ⟨rfl, rfl⟩ := modify_ok_iff.1 hmod
  obtain ⟨⟨_, d'⟩, c₅, s₃, c₆, rfl, hbody, h₃⟩ := bind_ok_iff.1 h₂
  obtain ⟨hrun, rfl⟩ := capture_ok_iff.1 hbody
  obtain ⟨items, htraced⟩ := (congruence_itemised R).compileFunctionBody (related_itemised hC) args
    _ _ _ _ hrun
  dsimp only at h₃
  obtain ⟨l', rest, s₄, hs₃, hs₄, h₄⟩ := getLocal_bind rfl h₃
  obtain ⟨_, c₈, s₅, c₉, rfl, hmod, h₅⟩ := bind_ok_iff.1 h₄
  obtain ⟨rfl, rfl⟩ := modify_ok_iff.1 hmod
  obtain ⟨heq, rfl, rfl⟩ := pure_ok_iff.1 h₅
  obtain ⟨-, rfl, rfl⟩ : l'.args = ar ∧ l' = l ∧ d' = d := by simpa using heq
  rw [hs₃] at htraced
  refine ⟨rfl, items, rest, htraced, ?_⟩
  rw [hs₄, hs₃]
  rfl

end Functions

/-- The code that the functions of the compiler emit has items. -/
theorem compiler_itemised (R : Runtime) (n : ℕ) : (compiler R n).Itemised := by
  induction n with
  | zero =>
    constructor
    case function =>
      intro v closed name path s ar l d c s' h
      cases h
    all_goals intros; exact itemised_stop _
  | succ n ih =>
    refine ⟨fun bp q s u c s' h => ?_, itemised_compileExpression ih,
      (congruence_itemised R).compileBackquote (related_itemised ih), itemised_compileFunction ih⟩
    obtain ⟨rfl, hw⟩ := (compiler_sound R (n + 1)).walk h
    exact ⟨[], hw.traced⟩

/-! ### The variables of functions that are compiled -/

/-- `l'` is what `l` has become. -/
def Later (l l' : Local) : Prop := l.first <:+ l'.first

/-- Captured variables have the slots of the closure to themselves, one after the other. -/
structure SlotsOk (l : Local) : Prop where
  numbers : (l.first.filter fun v => v.type = .free).map Variable.number =
    (List.range l.numClosureSlots).reverse
  types : ∀ v ∈ l.first, v.type ≠ .global

section Variables

variable {L L' : List Local} {l : Local} {c : Code} {is : List Item} {name : String}
  {u v : Variable} {vars : List Variable}

theorem later_refl (L : List Local) : List.Forall₂ Later L L :=
  List.forall₂_same.2 fun l _ => List.suffix_refl l.first

theorem later_trans {L₁ : List Local} (h : List.Forall₂ Later L L₁)
    (h' : List.Forall₂ Later L₁ L') : List.Forall₂ Later L L' :=
  forall₂_comp h h' fun _ _ _ hl hl' => hl.trans hl'

theorem later_modifyHead {g : Local → Local} (hg : ∀ l, Later l (g l)) (L : List Local) :
    List.Forall₂ Later L (L.modifyHead g) := by
  cases L with
  | nil => exact .nil
  | cons l rest => exact .cons (hg l) (later_refl rest)

theorem later_findVariable (name : String) (L : List Local) :
    List.Forall₂ Later L (findVariable name L).2 := by
  refine (captures_findVariable name L).imp ?_
  rintro l _ ⟨vars, -, rfl⟩
  exact List.suffix_append vars l.first

theorem Captured.later (h : Captured vars L c L') : List.Forall₂ Later L L' := by
  induction h with
  | nil => exact later_refl _
  | skip _ _ ih => exact ih
  | take _ _ _ _ ih => exact later_trans (later_findVariable _ _) ih

theorem Traced.later (h : Traced L c is L') : List.Forall₂ Later L L' := by
  induction h with
  | nil | plain | self => exact later_refl _
  | append _ _ ih ih' => exact later_trans ih ih'
  | change hf => exact later_modifyHead (fun l => by rw [Later, hf l]) _
  | binder ht name k =>
    exact later_modifyHead (g := Local.addBinder _ name k) (fun l => List.suffix_cons _ l.first) _
  | reference => exact later_findVariable _ _
  | lambda _ _ _ _ _ hc ih =>
    cases ih with
    | cons _ hr => exact later_trans hr hc.later

/-- The variable that is found is one of the innermost function afterwards. -/
theorem findVariable_mem (h : (findVariable name L).1 = some u) :
    ∃ l rest, (findVariable name L).2 = l :: rest ∧ u ∈ l.first ∧ u.name = name := by
  cases L with
  | nil => cases h
  | cons l parents =>
    cases hf : l.first.find? fun v => v.name = name with
    | some v =>
      simp only [findVariable, hf, Option.some.injEq] at h ⊢
      subst h
      exact ⟨l, parents, rfl, List.mem_of_find?_eq_some hf, by simpa using List.find?_some hf⟩
    | none =>
      cases hp : findVariable name parents with
      | mk w L₁ =>
        cases w with
        | none => simp [findVariable, hf, hp] at h
        | some w =>
          simp only [findVariable, hf, hp, Option.some.injEq] at h ⊢
          subst h
          exact ⟨_, _, rfl, List.mem_cons_self, rfl⟩

theorem SlotsOk.number_lt (h : SlotsOk l) (hv : v ∈ l.first) (hfree : v.type = .free) :
    v.number < l.numClosureSlots := by
  have hmem : v.number ∈ (l.first.filter fun v => v.type = .free).map Variable.number :=
    List.mem_map.2 ⟨v, by simp [hv, hfree], rfl⟩
  rw [h.numbers, List.mem_reverse] at hmem
  exact List.mem_range.1 hmem

theorem SlotsOk.nodup (h : SlotsOk l) :
    ((l.first.filter fun v => v.type = .free).map Variable.number).Nodup := by
  rw [h.numbers]
  exact List.nodup_reverse.2 List.nodup_range

theorem SlotsOk.congr {l' : Local} (h : SlotsOk l) (hf : l'.first = l.first)
    (hn : l'.numClosureSlots = l.numClosureSlots) : SlotsOk l' :=
  ⟨by rw [hf, hn]; exact h.numbers, by rw [hf]; exact h.types⟩

theorem slotsOk_modifyHead {g : Local → Local} (hg : ∀ l, SlotsOk l → SlotsOk (g l))
    (h : ∀ l ∈ L, SlotsOk l) : ∀ l ∈ L.modifyHead g, SlotsOk l := by
  cases L with
  | nil => exact h
  | cons l rest =>
    obtain ⟨hl, hrest⟩ := List.forall_mem_cons.1 h
    exact List.forall_mem_cons.2 ⟨hg l hl, hrest⟩

/-- A variable that is captured gets the next slot. -/
theorem slotsOk_findVariable (h : ∀ l ∈ L, SlotsOk l) :
    ∀ l ∈ (findVariable name L).2, SlotsOk l := by
  induction L with
  | nil => exact h
  | cons l parents ih =>
    obtain ⟨hl, hparents⟩ := List.forall_mem_cons.1 h
    have ih' := ih hparents
    cases hf : l.first.find? fun v => v.name = name with
    | some v => simpa only [findVariable, hf] using h
    | none =>
      cases hp : findVariable name parents with
      | mk w L₁ =>
        rw [hp] at ih'
        cases w with
        | none => simpa only [findVariable, hf, hp] using List.forall_mem_cons.2 ⟨hl, ih'⟩
        | some w =>
          simp only [findVariable, hf, hp]
          refine List.forall_mem_cons.2 ⟨⟨?_, ?_⟩, ih'⟩
          · simp [Local.addVariable, hl.numbers, List.range_succ]
          · exact List.forall_mem_cons.2 ⟨by simp, hl.types⟩

theorem Captured.slotsOk (h : Captured vars L c L') (hL : ∀ l ∈ L, SlotsOk l) :
    ∀ l ∈ L', SlotsOk l := by
  induction h with
  | nil => exact hL
  | skip _ _ ih => exact ih hL
  | take _ _ _ _ ih => exact ih (slotsOk_findVariable hL)

theorem slotsOk_new (name : Option String) (path : String) : SlotsOk (.new name path) :=
  ⟨by simp [Local.new], by simp [Local.new]⟩

theorem Traced.slotsOk (h : Traced L c is L') (hL : ∀ l ∈ L, SlotsOk l) :
    ∀ l ∈ L', SlotsOk l := by
  induction h with
  | nil | plain | self => exact hL
  | append _ _ ih ih' => exact ih' (ih hL)
  | change hf hn => exact slotsOk_modifyHead (fun l hl => hl.congr (hf l) (hn l)) hL
  | binder ht name k =>
    refine slotsOk_modifyHead (fun l hl => ⟨?_, ?_⟩) hL
    · rcases ht with rfl | rfl
      · simpa [Local.addBinder, Local.addVariable] using hl.numbers
      · simpa [Local.addBinder, Local.addVariable] using hl.numbers
    · refine List.forall_mem_cons.2 ⟨?_, hl.types⟩
      rcases ht with rfl | rfl <;> simp
  | reference => exact slotsOk_findVariable hL
  | lambda name path _ _ _ hc ih =>
    have hl := ih (List.forall_mem_cons.2 ⟨slotsOk_new name path, hL⟩)
    exact hc.slotsOk (List.forall_mem_cons.1 hl).2

/-- The number of variables that the outermost function captures. -/
def outermostSlots : List Local → Option ℕ
  | [] => none
  | l :: L => some ((outermostSlots L).getD l.numClosureSlots)

theorem outermostSlots_modifyHead {g : Local → Local}
    (hg : ∀ l, (g l).numClosureSlots = l.numClosureSlots) (L : List Local) :
    outermostSlots (L.modifyHead g) = outermostSlots L := by
  cases L with
  | nil => rfl
  | cons l L => simp [outermostSlots, hg]

/-- The outermost function captures nothing. -/
theorem outermostSlots_findVariable (name : String) (L : List Local) :
    outermostSlots (findVariable name L).2 = outermostSlots L := by
  induction L with
  | nil => rfl
  | cons l parents ih =>
    cases hf : l.first.find? fun v => v.name = name with
    | some v => simp [findVariable, hf]
    | none =>
      cases hp : findVariable name parents with
      | mk w L₁ =>
        rw [hp] at ih
        cases w with
        | none => simp [findVariable, hf, hp, outermostSlots, ih]
        | some w =>
          have hne : ∃ k, outermostSlots parents = some k := by
            cases parents with
            | nil => cases hp
            | cons _ _ => exact ⟨_, rfl⟩
          obtain ⟨k, hk⟩ := hne
          simp [findVariable, hf, hp, outermostSlots, ih, hk]

theorem Captured.outermostSlots (h : Captured vars L c L') :
    outermostSlots L' = outermostSlots L := by
  induction h with
  | nil => rfl
  | skip _ _ ih => exact ih
  | take _ _ _ _ ih => exact ih.trans (outermostSlots_findVariable _ _)

theorem Traced.outermostSlots (h : Traced L c is L') : outermostSlots L' = outermostSlots L := by
  induction h with
  | nil | plain | self => rfl
  | append _ _ ih ih' => exact ih'.trans ih
  | change _ hn => exact outermostSlots_modifyHead hn _
  | binder ht name k =>
    exact outermostSlots_modifyHead (g := Local.addBinder _ name k) (fun _ => rfl) _
  | reference => exact outermostSlots_findVariable _ _
  | @lambda L L₁ _ l _ _ _ _ _ _ _ hb hc ih =>
    rw [hc.outermostSlots]
    simp only [Lisp.outermostSlots, Option.some.injEq] at ih
    have hlen := hb.later.length_eq
    cases L with
    | nil =>
      obtain rfl : L₁ = [] := List.eq_nil_of_length_eq_zero (by simpa using hlen.symm)
      rfl
    | cons l₀ L =>
      cases L₁ with
      | nil => simp at hlen
      | cons l₁ L₁ => simpa [Lisp.outermostSlots] using ih

theorem Later.mem {l l' : Local} (h : Later l l') (hv : v ∈ l.first) : v ∈ l'.first :=
  h.subset hv

/-- A reference reads a variable of the function, which has the name. -/
theorem Traced.reference_mem (h : Traced L c is L') (hm : .reference name v ∈ is) :
    ∃ l ∈ L'.head?, v ∈ l.first ∧ v.name = name := by
  induction h with
  | nil | plain | change | binder => cases hm
  | append _ h' ih ih' =>
    rcases List.mem_append.1 hm with hm | hm
    · obtain ⟨l, hl, hv, hname⟩ := ih hm
      cases h'.later with
      | nil => cases hl
      | cons hlater _ =>
        obtain rfl := Option.some.inj hl
        exact ⟨_, rfl, hlater.mem hv, hname⟩
    · exact ih' hm
  | reference hv =>
    obtain ⟨rfl, rfl⟩ : name = _ ∧ v = _ := by simpa using hm
    obtain ⟨l, rest, hl, hmem, hname⟩ := findVariable_mem hv
    exact ⟨l, by rw [hl]; rfl, hmem, hname⟩
  | self => simp at hm
  | lambda => simp at hm

end Variables

/-! ### Names -/

/-- The names that a function binds. -/
def Local.binderNames (l : Local) : List String :=
  (l.first.filter fun v => v.type ≠ .free).map Variable.name

mutual

/-- The names that are bound in the `lambda` of an item. -/
def Item.binderNames : Item → List String
  | .lambda l _ body => l.binderNames ++ lambdaNames body
  | .reference _ _ | .self _ => []

/-- The names that are bound in the `lambda`s among the items. -/
def lambdaNames : List Item → List String
  | [] => []
  | i :: is => i.binderNames ++ lambdaNames is

end

/-- A variable `name` occurs that none of the `lambda`s around it binds. -/
inductive Refers (name : String) : List Item → Prop
  | reference {is : List Item} {v : Variable} (h : .reference name v ∈ is) : Refers name is
  | lambda {is body : List Item} {l : Local} {create : Code} (h : .lambda l create body ∈ is)
      (hl : name ∉ l.binderNames) (hb : Refers name body) : Refers name is

/-- What a function captures is bound by a function around it. -/
def Rooted : List Local → Prop
  | [] => True
  | l :: L => (∀ v ∈ l.first, v.type = .free → ∃ k ∈ L, v.name ∈ k.binderNames) ∧ Rooted L

/-- No two binders among the functions `L` and the items have the same name. -/
def DistinctNames (L : List Local) (is : List Item) : Prop :=
  (L.flatMap Local.binderNames ++ lambdaNames is).Nodup

section Names

variable {L L' : List Local} {l k : Local} {c create : Code} {is is' body : List Item}
  {name : String} {u v : Variable} {vars : List Variable}

theorem mem_binderNames : name ∈ l.binderNames ↔ ∃ v ∈ l.first, v.type ≠ .free ∧ v.name = name := by
  simp [Local.binderNames, and_assoc]

theorem lambdaNames_append (is is' : List Item) :
    lambdaNames (is ++ is') = lambdaNames is ++ lambdaNames is' := by
  induction is with
  | nil => rfl
  | cons i is ih => simp [lambdaNames, ih]

theorem binderNames_sublist {i : Item} (h : i ∈ is) : i.binderNames.Sublist (lambdaNames is) := by
  obtain ⟨is₁, is₂, rfl⟩ := List.append_of_mem h
  rw [lambdaNames_append]
  exact (List.sublist_append_left _ _).trans (List.sublist_append_right _ _)

theorem Refers.mono (h : Refers name is) (hs : is ⊆ is') : Refers name is' := by
  cases h with
  | reference h => exact .reference (hs h)
  | lambda h hl hb => exact .lambda (hs h) hl hb

theorem Later.binderNames_sublist {l' : Local} (h : Later l l') :
    l.binderNames.Sublist l'.binderNames :=
  (h.sublist.filter _).map _

theorem flatMap_binderNames_sublist (h : List.Forall₂ Later L L') :
    (L.flatMap Local.binderNames).Sublist (L'.flatMap Local.binderNames) := by
  induction h with
  | nil => exact .slnil
  | cons hl _ ih =>
    rw [List.flatMap_cons, List.flatMap_cons]
    exact hl.binderNames_sublist.append ih

theorem exists_bound (h : List.Forall₂ Later L L') (hk : ∃ k ∈ L, name ∈ k.binderNames) :
    ∃ k ∈ L', name ∈ k.binderNames := by
  obtain ⟨k, hk, hname⟩ := hk
  have hmem : name ∈ L'.flatMap Local.binderNames :=
    (flatMap_binderNames_sublist h).subset (List.mem_flatMap.2 ⟨k, hk, hname⟩)
  exact List.mem_flatMap.1 hmem

theorem DistinctNames.left (h : DistinctNames L' (is ++ is')) (hL : List.Forall₂ Later L L') :
    DistinctNames L is := by
  unfold DistinctNames at h
  rw [lambdaNames_append] at h
  exact h.sublist ((flatMap_binderNames_sublist hL).append (List.sublist_append_left _ _))

theorem DistinctNames.right (h : DistinctNames L (is ++ is')) : DistinctNames L is' := by
  unfold DistinctNames at h
  rw [lambdaNames_append] at h
  exact h.sublist ((List.Sublist.refl _).append (List.sublist_append_right _ _))

theorem DistinctNames.lambda (h : DistinctNames L' [.lambda l create body])
    (hL : List.Forall₂ Later L L') : DistinctNames (l :: L) body := by
  have hsub : (L.flatMap Local.binderNames ++ (l.binderNames ++ lambdaNames body)).Nodup := by
    simp only [DistinctNames, lambdaNames, Item.binderNames, List.append_nil] at h
    exact h.sublist ((flatMap_binderNames_sublist hL).append (List.Sublist.refl _))
  refine hsub.perm ?_
  rw [List.flatMap_cons, List.append_assoc]
  exact List.perm_append_comm_assoc _ _ _

/-- What is bound around a function is not bound in it. -/
theorem DistinctNames.not_mem (h : DistinctNames (l :: L) is) (hk : k ∈ L)
    (hname : name ∈ k.binderNames) : name ∉ l.binderNames := by
  intro hl
  have hd : (l.binderNames ++ L.flatMap Local.binderNames).Nodup := by
    rw [← List.flatMap_cons]
    exact List.Nodup.of_append_left h
  exact List.disjoint_of_nodup_append hd hl (List.mem_flatMap.2 ⟨k, hk, hname⟩)

theorem Rooted.exists (h : Rooted L) (hl : l ∈ L) (hv : v ∈ l.first) (hfree : v.type = .free) :
    ∃ k ∈ L, v.name ∈ k.binderNames := by
  induction L with
  | nil => cases hl
  | cons k L ih =>
    rcases List.mem_cons.1 hl with rfl | hl
    · obtain ⟨k, hk, hname⟩ := h.1 v hv hfree
      exact ⟨k, List.mem_cons_of_mem _ hk, hname⟩
    · obtain ⟨k, hk, hname⟩ := ih h.2 hl
      exact ⟨k, List.mem_cons_of_mem _ hk, hname⟩

theorem rooted_modifyHead {g : Local → Local}
    (hg : ∀ l, ∀ v ∈ (g l).first, v.type = .free → v ∈ l.first) (h : Rooted L) :
    Rooted (L.modifyHead g) := by
  cases L with
  | nil => exact h
  | cons l L => exact ⟨fun v hv hfree => h.1 v (hg l v hv hfree) hfree, h.2⟩

/-- A variable that is found is bound further out, if the innermost function does not bind it. -/
theorem rooted_findVariable (h : Rooted L) : Rooted (findVariable name L).2 ∧
    ∀ u, (findVariable name L).1 = some u →
      ∃ k ∈ (findVariable name L).2, name ∈ k.binderNames := by
  induction L with
  | nil => exact ⟨h, by rintro u ⟨⟩⟩
  | cons l parents ih =>
    obtain ⟨hl, hparents⟩ := h
    obtain ⟨ih, ihfound⟩ := ih hparents
    have hlater := later_findVariable name parents
    cases hf : l.first.find? fun v => v.name = name with
    | some v =>
      simp only [findVariable, hf]
      refine ⟨⟨hl, hparents⟩, fun u hu => ?_⟩
      have hv := List.mem_of_find?_eq_some hf
      have hname : v.name = name := by simpa using List.find?_some hf
      by_cases hfree : v.type = .free
      · obtain ⟨k, hk, hbound⟩ := hl v hv hfree
        exact ⟨k, List.mem_cons_of_mem _ hk, hname ▸ hbound⟩
      · exact ⟨l, List.mem_cons_self, mem_binderNames.2 ⟨v, hv, hfree, hname⟩⟩
    | none =>
      cases hp : findVariable name parents with
      | mk w L₁ =>
        rw [hp] at ih ihfound hlater
        cases w with
        | none =>
          simp only [findVariable, hf, hp]
          exact ⟨⟨fun v hv hfree => exists_bound hlater (hl v hv hfree), ih⟩, by rintro u ⟨⟩⟩
        | some w =>
          obtain ⟨k, hk, hbound⟩ := ihfound w rfl
          simp only [findVariable, hf, hp]
          refine ⟨⟨List.forall_mem_cons.2 ⟨fun _ => ⟨k, hk, hbound⟩, ?_⟩, ih⟩, ?_⟩
          · exact fun v hv hfree => exists_bound hlater (hl v hv hfree)
          · exact fun _ _ => ⟨k, List.mem_cons_of_mem _ hk, hbound⟩

theorem Captured.rooted (h : Captured vars L c L') (hL : Rooted L) : Rooted L' := by
  induction h with
  | nil => exact hL
  | skip _ _ ih => exact ih hL
  | take _ _ _ _ ih => exact ih (rooted_findVariable hL).1

theorem Traced.rooted (h : Traced L c is L') (hL : Rooted L) : Rooted L' := by
  induction h with
  | nil | plain | self => exact hL
  | append _ _ ih ih' => exact ih' (ih hL)
  | change hf => exact rooted_modifyHead (fun l v hv _ => hf l ▸ hv) hL
  | binder ht name k =>
    refine rooted_modifyHead (fun l => List.forall_mem_cons.2 ⟨?_, fun v hv _ => hv⟩) hL
    rcases ht with rfl | rfl <;> simp
  | reference => exact (rooted_findVariable hL).1
  | lambda name path _ _ _ hc ih => exact hc.rooted (ih ⟨by simp [Local.new], hL⟩).2

/-- Every captured variable is looked up under the name of one that the closure needs. -/
theorem findVariable_new (name : String) (L : List Local) :
    List.Forall₂ (fun l l' => ∀ v ∈ l'.first, v ∈ l.first ∨ v.name = name) L
      (findVariable name L).2 := by
  have hrefl : ∀ L : List Local,
      List.Forall₂ (fun l l' => ∀ v ∈ l'.first, v ∈ l.first ∨ v.name = name) L L := by
    exact fun L => List.forall₂_same.2 fun l _ v hv => .inl hv
  induction L with
  | nil => exact .nil
  | cons l parents ih =>
    cases hf : l.first.find? fun v => v.name = name with
    | some v => simpa only [findVariable, hf] using hrefl _
    | none =>
      cases hp : findVariable name parents with
      | mk w L₁ =>
        rw [hp] at ih
        cases w with
        | none =>
          simp only [findVariable, hf, hp]
          exact .cons (fun v hv => .inl hv) ih
        | some w =>
          simp only [findVariable, hf, hp]
          exact .cons (List.forall_mem_cons.2 ⟨.inr rfl, fun v hv => .inl hv⟩) ih

theorem Captured.new (h : Captured vars L c L') : List.Forall₂ (fun l l' => ∀ v ∈ l'.first,
    v ∈ l.first ∨ ∃ w ∈ vars, w.type = .free ∧ w.name = v.name) L L' := by
  induction h with
  | nil => exact List.forall₂_same.2 fun l _ v hv => .inl hv
  | skip _ _ ih =>
    refine ih.imp fun l l' h v hv => (h v hv).imp_right ?_
    exact fun ⟨w, hw, hfree⟩ => ⟨w, List.mem_cons_of_mem _ hw, hfree⟩
  | take hv _ _ _ ih =>
    refine forall₂_comp (findVariable_new _ _) ih fun l l₁ l' h h' w hw => ?_
    rcases h' w hw with hw | ⟨w', hw', hfree⟩
    · exact (h w hw).imp_right fun hname => ⟨_, List.mem_cons_self, hv, hname.symm⟩
    · exact .inr ⟨w', List.mem_cons_of_mem _ hw', hfree⟩

/-- The variables that a closure needs are variables of the function that creates it. -/
theorem Captured.mem (h : Captured vars L c L') (hv : v ∈ vars) (hfree : v.type = .free) :
    ∃ l ∈ L'.head?, ∃ u ∈ l.first, u.name = v.name := by
  induction h with
  | nil => cases hv
  | skip hne _ ih =>
    rcases List.mem_cons.1 hv with rfl | hv
    · exact absurd hfree hne
    · exact ih hv
  | take _ hu _ hc ih =>
    rcases List.mem_cons.1 hv with rfl | hv
    · obtain ⟨l, rest, hl, hmem, hname⟩ := findVariable_mem hu
      have hlater := hc.later
      rw [hl] at hlater
      cases hlater with
      | cons hl' _ => exact ⟨_, rfl, _, hl'.mem hmem, hname⟩
    · exact ih hv

/-- The variables that a function captures occur in it. -/
theorem Traced.refers (h : Traced L c is L') (hL : Rooted L) (hd : DistinctNames L' is) :
    List.Forall₂ (fun l l' => ∀ v ∈ l'.first, v.type = .free → v ∈ l.first ∨ Refers v.name is)
      L L' := by
  have hrefl : ∀ (is : List Item) (L : List Local), List.Forall₂ (fun l l' =>
      ∀ v ∈ l'.first, v.type = .free → v ∈ l.first ∨ Refers v.name is) L L := by
    exact fun is L => List.forall₂_same.2 fun l _ v hv _ => .inl hv
  induction h with
  | nil | plain | self => exact hrefl _ _
  | append h h' ih ih' =>
    refine forall₂_comp (ih hL (hd.left h'.later)) (ih' (h.rooted hL) hd.right) ?_
    intro l l₁ l' hl hl' v hv hfree
    rcases hl' v hv hfree with hv | hr
    · exact (hl v hv hfree).imp_right fun hr => hr.mono (List.subset_append_left _ _)
    · exact .inr (hr.mono (List.subset_append_right _ _))
  | @change L g hf =>
    cases L with
    | nil => exact .nil
    | cons l L => exact .cons (fun v hv _ => .inl (hf l ▸ hv)) (hrefl _ L)
  | @binder L type ht name k =>
    cases L with
    | nil => exact .nil
    | cons l L =>
      refine .cons (List.forall_mem_cons.2 ⟨?_, fun v hv _ => .inl hv⟩) (hrefl _ L)
      rcases ht with rfl | rfl <;> simp
  | @reference L name v hv =>
    refine (findVariable_new name L).imp fun l l' h w hw _ => (h w hw).imp_right ?_
    rintro rfl
    exact .reference List.mem_cons_self
  | @lambda L L₁ L₂ l c d body name path a p hb hc ih =>
    have hL' : Rooted (.new name path :: L) := ⟨by simp [Local.new], hL⟩
    obtain ⟨hfree, hrooted⟩ := hb.rooted hL'
    have hd₁ := hd.lambda hc.later
    have hlift : ∀ name k, k ∈ L₁ → name ∈ k.binderNames → Refers name body →
        Refers name [.lambda l (closureCode l.numClosureSlots a p ++ c) body] :=
      fun name k hk hname hr => .lambda List.mem_cons_self (hd₁.not_mem hk hname) hr
    cases ih hL' hd₁ with
    | cons hhead htail =>
      -- what is new further out was looked up in the body, or for a capture
      have hnew := (List.forall₂_and_left L₁ L₂).2 ⟨fun _ h => h, hc.new⟩
      refine forall₂_comp htail hnew fun k k₁ k₂ hk hk₁ v hv hvfree => ?_
      rcases hk₁.2 v hv with hv | ⟨w, hw, hwfree, hname⟩
      · obtain ⟨k', hk', hbound⟩ := hrooted.exists hk₁.1 hv hvfree
        exact (hk v hv hvfree).imp_right (hlift v.name k' hk' hbound)
      · obtain ⟨k', hk', hbound⟩ := hfree w hw hwfree
        rcases hhead w hw hwfree with hmem | hr
        · simp [Local.new] at hmem
        · exact .inr (hname ▸ hlift w.name k' hk' hbound hr)

/-! ### Functions -/

/-- The function with the `struct local` `l`, in other functions or on its own, has the items
`is`. -/
def HasBody (l : Local) (is : List Item) : Prop :=
  ∃ name path L d L', Traced (.new name path :: L) d is (l :: L') ∧ (∀ k ∈ L, SlotsOk k) ∧
    Rooted L ∧ DistinctNames (l :: L') is

/-- The code that creates the closure of a `lambda` captures from the function around it. -/
theorem Traced.lambda_mem (h : Traced L c is L') (hL : ∀ k ∈ L, SlotsOk k) (hr : Rooted L)
    (hd : DistinctNames L' is) (hm : .lambda k create body ∈ is) : HasBody k body ∧
      ∃ L₁ L₂ c' a p, create = closureCode k.numClosureSlots a p ++ c' ∧
        Captured k.first L₁ c' L₂ ∧ List.Forall₂ Later L₂ L' := by
  induction h with
  | nil | plain | change | binder => cases hm
  | append h h' ih ih' =>
    rcases List.mem_append.1 hm with hm | hm
    · obtain ⟨hbody, L₁, L₂, c', a, p, hc, hcap, hlater⟩ := ih hL hr (hd.left h'.later) hm
      exact ⟨hbody, L₁, L₂, c', a, p, hc, hcap, later_trans hlater h'.later⟩
    · exact ih' (h.slotsOk hL) (h.rooted hr) hd.right hm
  | reference => simp at hm
  | self => simp at hm
  | lambda name path a p hb hc _ =>
    obtain ⟨rfl, rfl, rfl⟩ : k = _ ∧ create = _ ∧ body = _ := by simpa using hm
    exact ⟨⟨name, path, _, _, _, hb, hL, hr, hd.lambda hc.later⟩, _, _, _, a, p, rfl, hc,
      later_refl _⟩

namespace HasBody

theorem slotsOk (h : HasBody l is) : SlotsOk l := by
  obtain ⟨name, path, L, d, L', ht, hL, -⟩ := h
  have hall := ht.slotsOk (List.forall_mem_cons.2 ⟨slotsOk_new name path, hL⟩)
  exact hall l List.mem_cons_self

theorem reference_mem (h : HasBody l is) (hm : .reference name v ∈ is) :
    v ∈ l.first ∧ v.name = name := by
  obtain ⟨_, _, _, _, _, ht, -⟩ := h
  obtain ⟨k, hk, hv⟩ := ht.reference_mem hm
  obtain rfl := Option.some.inj hk
  exact hv

theorem lambda_mem (h : HasBody l is) (hm : .lambda k create body ∈ is) : HasBody k body ∧
    ∃ L₁ L₂ c' a p, create = closureCode k.numClosureSlots a p ++ c' ∧
      Captured k.first L₁ c' L₂ ∧ ∀ l₂ ∈ L₂.head?, Later l₂ l := by
  obtain ⟨name, path, L, d, L', ht, hL, hr, hd⟩ := h
  obtain ⟨hbody, L₁, L₂, c', a, p, hc, hcap, hlater⟩ := ht.lambda_mem
    (List.forall_mem_cons.2 ⟨slotsOk_new name path, hL⟩) ⟨by simp [Local.new], hr⟩ hd hm
  refine ⟨hbody, L₁, L₂, c', a, p, hc, hcap, ?_⟩
  cases hlater with
  | cons hl _ =>
    intro l₂ hl₂
    obtain rfl := Option.some.inj hl₂
    exact hl

/-- A captured variable occurs in the function, which does not bind its name. -/
theorem refers (h : HasBody l is) (hv : v ∈ l.first) (hfree : v.type = .free) :
    Refers v.name is ∧ v.name ∉ l.binderNames := by
  obtain ⟨name, path, L, d, L', ht, -, hr, hd⟩ := h
  have hL : Rooted (.new name path :: L) := ⟨by simp [Local.new], hr⟩
  obtain ⟨k, hk, hname⟩ := (ht.rooted hL).1 v hv hfree
  refine ⟨?_, hd.not_mem hk hname⟩
  cases ht.refers hL hd with
  | cons hl _ =>
    rcases hl v hv hfree with hmem | hrefers
    · simp [Local.new] at hmem
    · exact hrefers

/-- The variables that occur in a function are variables of the function. -/
theorem name_mem (h : HasBody l is) (hr : Refers name is) : ∃ v ∈ l.first, v.name = name := by
  induction hr generalizing l with
  | reference hm => exact ⟨_, h.reference_mem hm⟩
  | @lambda is body k create hm hk _ ih =>
    obtain ⟨hbody, L₁, L₂, c', a, p, -, hcap, hlater⟩ := h.lambda_mem hm
    obtain ⟨v, hv, rfl⟩ := ih hbody
    have hfree : v.type = .free := by
      by_contra hne
      exact hk (mem_binderNames.2 ⟨v, hv, hne, rfl⟩)
    obtain ⟨l₂, hl₂, u, hu, hname⟩ := hcap.mem hv hfree
    exact ⟨u, (hlater l₂ hl₂).mem hu, hname⟩

/-- A function captures nothing if and only if it binds all variables that occur in it. -/
theorem numClosureSlots_eq_zero_iff (h : HasBody l is) :
    l.numClosureSlots = 0 ↔ ∀ name, Refers name is → name ∈ l.binderNames := by
  have hnumbers := h.slotsOk.numbers
  constructor
  · intro hzero name hr
    obtain ⟨v, hv, rfl⟩ := h.name_mem hr
    refine mem_binderNames.2 ⟨v, hv, fun hfree => ?_, rfl⟩
    rw [hzero, List.range_zero, List.reverse_nil, List.map_eq_nil_iff, List.filter_eq_nil_iff]
      at hnumbers
    exact hnumbers v hv (by simpa using hfree)
  · intro hall
    by_contra hne
    have hmem : 0 ∈ (List.range l.numClosureSlots).reverse := by
      rw [List.mem_reverse, List.mem_range]
      omega
    rw [← hnumbers] at hmem
    obtain ⟨v, hv, -⟩ := List.mem_map.1 hmem
    obtain ⟨hv, hfree⟩ := List.mem_filter.1 hv
    obtain ⟨hr, hnot⟩ := h.refers hv (by simpa using hfree)
    exact hnot (hall _ hr)

end HasBody

end Names

/-- The code of a function that is compiled on its own has items. -/
theorem exists_traced {R : Runtime} {n : ℕ} {v : Word} {name : Option String} {path : String}
    {s s' : State} {ar : Args} {l : Local} {c d : Code}
    (h : (compiler R n).compileFunction v false name path s = .ok (ar, l, d) c s') :
    ∃ items, Traced [.new name path] d items [l] := by
  obtain ⟨-, items, rest, ht, -⟩ := (compiler_itemised R n).function h
  have hlen := ht.later.length_eq
  obtain rfl : rest = [] := List.eq_nil_of_length_eq_zero (by simpa using hlen.symm)
  exact ⟨items, ht⟩

end Lisp

end Bluejay
