import Bluejay.Lisp.ControlFlow
import Bluejay.Lisp.DeepCopy
import Bluejay.Lisp.SelfCalls

/-!
# The two ways to call a function

The code of a call pushes a list of the surplus arguments, the defaults for the missing ones, and
the others, from right to left; `call_list_args` makes a list of all of them and spreads it.

* `yields v` : the value `v`, whatever new objects are made on the way.
* `compilePassing_words` : what the code that passes arguments leaves on the stack.
* `Expects` : what a function should find there.
* `Target`, `DirectCall` : what a direct call enters, and what it passes.
* `PathsAgree` : a direct call and a call with a list pass the same words, up to copies.
* `pathsAgree_of_data` : they do, for arguments that are finite and have no instances of classes in
  them.  Of cyclic ones, `deep_copy` makes no copy (`not_pathsAgree`).
-/

namespace Bluejay

namespace Lisp

open Emitter

/-! ### Words on the stack -/

/-- A value as `A` says; on the way, new objects may be made. -/
def makes {α : Type} (A : Heap → α → Prop) : Outcome Heap α :=
  .choose fun G a G' => G.Extends G' ∧ A G' a

/-- The value `v`. -/
def yields (v : Word) : Outcome Heap Word := makes fun _ u => u = v

/-- The words `front`, and a list of `rest` behind them, if there is to be one. -/
def Words (rest : Option (List Word)) (front : List Word) (G : Heap) (words : List Word) : Prop :=
  match rest with
  | none => words = front
  | some us => ∃ u, words = front ++ [u] ∧ ListOf G u us

section Words

variable {rest : Option (List Word)} {front words : List Word} {G G' : Heap}

theorem Words.extends (h : Words rest front G words) (hG : G.Extends G') :
    Words rest front G' words := by
  cases rest with
  | none => exact h
  | some us =>
    obtain ⟨u, hu, hl⟩ := h
    exact ⟨u, hu, hl.extends hG⟩

theorem Words.cons (h : Words rest front G words) (v : Word) :
    Words rest (v :: front) G (v :: words) := by
  cases rest with
  | none => exact congrArg (List.cons v) h
  | some us =>
    obtain ⟨u, rfl, hl⟩ := h
    exact ⟨u, rfl, hl⟩

end Words

section Rules

variable {calls : Val → Machine → Machine → Prop} {count : ℕ} {arguments : ℕ → Word}
  {n k : ℕ} {c c₁ c₂ next : Code} {pre : Val → Prop} {α β : Type}

/-- Code that does what `x` does, with its value turned into another. -/
theorem Does.refine {x : Outcome Heap α} {y : Outcome Heap β} {holds : Machine → α → Prop}
    {holds' : Machine → β → Prop} (h : Does calls count arguments pre c next k x holds) (g : α → β)
    (hg : ∀ m a, holds m a → holds' m (g a))
    (hxy : ∀ (Q : β → Heap → Prop) G, y Q G → x (fun a => Q (g a)) G) :
    Does calls count arguments pre c next k y holds' := by
  intro P m Q hu hat hm hpre hy
  refine (h hu hat hm hpre (hxy Q _ hy)).mono ?_
  rintro m' ⟨hran, a, ha, hQ⟩
  exact ⟨hran, g a, hg m' a ha, hQ⟩

theorem computes_yields {v : Word} (h : Computes calls count arguments c (pure v)) :
    Computes calls count arguments c (yields v) :=
  h.refine id (fun _ _ h => h) fun _ G hy => hy v G ⟨.refl G, rfl⟩

/-- One more word, which the code has in it. -/
theorem passes_push {xs : Outcome Heap (List Word)}
    (h : Does calls count arguments (fun _ => True) c [] n xs (Machine.Passed n)) (w : Word) :
    Does calls count arguments (fun _ => True) (c ++ [.push (.word w)]) [] (n + 1)
      (do return w :: (← xs)) (Machine.Passed (n + 1)) := by
  intro P m Q hu hat hm _ hx
  rw [List.append_nil, at_append, at_cons] at hat
  obtain ⟨hat, hpush, -⟩ := hat
  refine (h hu (by rwa [List.append_nil]) hm trivial hx).trans ?_
  rintro m₁ ⟨hran, vs, ⟨hvs, hlen⟩, hQ⟩
  rw [← hran.pc] at hpush
  refine inevitably_exec hpush rfl rfl (.now ⟨?_, w :: vs, ⟨hvs.push w, by simp [hlen]⟩, hQ⟩)
  simpa using hran.trans (ran_push m₁ (.word w))

variable {rest : Option (List Word)} {front us : List Word} {u : Word}

/-- Default values are pushed. -/
theorem passes_defaults (h : Does calls count arguments (fun _ => True) c [] n
      (makes (Words rest front)) (Machine.Passed n)) (os : List OptionalArgument) :
    Does calls count arguments (fun _ => True)
      (c ++ os.reverse.map fun o => .push (.word o.value)) [] (n + os.length)
      (makes (Words rest (os.map OptionalArgument.value ++ front)))
      (Machine.Passed (n + os.length)) := by
  induction os with
  | nil => simpa using h
  | cons o os ih =>
    rw [List.reverse_cons, List.map_append, ← List.append_assoc]
    refine (passes_push ih o.value).refine id (fun _ _ h => h) fun Q G hy => ?_
    rintro ws G' ⟨hG, hws⟩
    exact hy _ _ ⟨hG, hws.cons o.value⟩

/-- One more argument is evaluated and pushed. -/
theorem passes_argument (h₁ : Does calls count arguments (fun _ => True) c₁ [] n
      (makes (Words rest front)) (Machine.Passed n))
    (h₂ : Computes calls count arguments c₂ (yields u)) :
    Does calls count arguments (fun _ => True) (c₁ ++ (c₂ ++ [.pushEax])) [] (n + 1)
      (makes (Words rest (u :: front))) (Machine.Passed (n + 1)) := by
  refine (passes_cons h₁ h₂).refine id (fun _ _ h => h) fun Q G hy => ?_
  rintro ws G₁ ⟨hG₁, hws⟩ u G₂ ⟨hG₂, rfl⟩
  exact hy _ _ ⟨hG₁.trans hG₂, (hws.extends hG₂).cons u⟩

/-- One more argument is put in front of the list of the surplus ones. -/
theorem collects_argument (hcons : Implements calls .cons consOf)
    (h₁ : Does calls count arguments (fun _ => True) c₁ [] 1
      (makes fun G (r : List Word × Word) => ListOf G r.2 us) Machine.OnTop)
    (h₂ : Computes calls count arguments c₂ (yields u)) :
    Does calls count arguments (fun _ => True) (c₁ ++ (c₂ ++ consCode)) [] 1
      (makes fun G (r : List Word × Word) => ListOf G r.2 (u :: us)) Machine.OnTop := by
  refine (collects_cons hcons h₁ h₂).refine id (fun _ _ h => h) fun Q G hy => ?_
  rintro ⟨vs, tail⟩ G₁ ⟨hG₁, hl⟩ u G₂ ⟨hG₂, rfl⟩
  refine (guarantees_cell u tail).weaken (Q := fun _ _ => True) (fun _ _ _ => trivial) ?_
  rintro w G₃ ⟨hG₃, hw, hobj⟩ -
  exact hy _ _ ⟨(hG₁.trans hG₂).trans hG₃, hw, tail, hobj, (hl.extends hG₂).extends hG₃⟩

end Rules

/-! ### The code of a call -/

/-- The arguments that the list of a function with a rest parameter is made of. -/
def Args.surplus (args : Args) (vs : List Word) : Option (List Word) :=
  if args.variadic then some (vs.drop (args.numOptional + args.numRequired)) else none

/-- The default arguments for the parameters that there are no arguments for. -/
def Args.defaults (args : Args) (nargs : ℕ) : List OptionalArgument :=
  args.optionalArguments.drop (nargs - args.numRequired)

/-- The number of words that are on the stack in front of the arguments passed one by one. -/
def Args.numSurplus (args : Args) (nargs : ℕ) : ℕ :=
  (if args.variadic then 1 else 0) + (args.defaults nargs).length

section Compile

variable {calls : Val → Machine → Machine → Prop} {arguments : ℕ → Word} {Γ : Context}
  {R : Runtime} {C : Compiler} {s : State} {v : Word} {ws vs : List Word} {args : Args}

/-- The forms `ws` are compiled to code for the values `vs`. -/
abbrev Yield (calls : Val → Machine → Machine → Prop) (arguments : ℕ → Word) (Γ : Context)
    (C : Compiler) : List Word → List Word → Prop :=
  List.Forall₂ fun w u => CompilesTo calls arguments Γ C.compileExpression w (yields u)

/-- The list of the surplus arguments. -/
theorem compileRest_ok (args : Args) (hcons : Implements calls .cons consOf) (hargs : ListOf Γ.heap v ws)
    (hws : Yield calls arguments Γ C ws vs) (hs : Fits Γ s) : ∃ c s',
      (do
        when args.variadic (emit [.push (.word nil)])
        when (ws.length > args.numOptional + args.numRequired ∧ args.variadic)
          (compileArguments C v (args.numOptional + args.numRequired) ws.length consCode) :
          CompileM Unit) s = .ok () c s' ∧ Fits Γ s' ∧
      Does calls Γ.count arguments (fun _ => True) c [] (if args.variadic then 1 else 0)
        (makes (Words (args.surplus vs) [])) (Machine.Passed (if args.variadic then 1 else 0)) := by
  have hlen : ws.length = vs.length := hws.length_eq
  cases hvariadic : args.variadic with
  | false =>
    refine ⟨[], s, by simp [when]; rfl, hs, ?_⟩
    rw [Args.surplus, hvariadic]
    exact passes_nil.refine id (fun _ _ h => h) fun Q G hy => hy [] G ⟨.refl G, rfl⟩
  | true =>
    set total := args.numOptional + args.numRequired with htotal
    have hback : List.Forall₂ (fun w u => CompilesTo calls arguments Γ C.compileExpression w
        (yields u)) (ws.drop total) (vs.drop total) := List.forall₂_drop total hws
    obtain ⟨c, s', h, hs', hc⟩ := compileArguments_ok yields consCode
      (fun us c => Does calls Γ.count arguments (fun _ => True) ([.push (.word nil)] ++ c) [] 1
        (makes fun G (r : List Word × Word) => ListOf G r.2 us) Machine.OnTop)
      hargs
      (collects_nil.refine id (fun _ _ h => h) fun Q G hy => hy _ G ⟨.refl G, rfl⟩)
      (fun u us c c₁ h h₁ => by
        rw [← List.append_assoc]
        exact collects_argument hcons h h₁) total (List.append_nil _).symm hback hs
    refine ⟨[.push (.word nil)] ++ c, s', bind_ok rfl ?_, hs', ?_⟩
    · rw [List.length_drop, ← hlen] at h
      unfold when
      split_ifs with hmore
      · exact h
      · have hzero : ws.length - total = 0 := by
          simp only [and_true, not_lt] at hmore
          omega
        rw [hzero] at h
        exact h
    · refine hc.refine (fun r => [r.2]) (fun m r h => ⟨h, rfl⟩) fun Q G hy => ?_
      rintro r G' ⟨hG, hl⟩
      refine hy _ _ ⟨hG, ?_⟩
      rw [Args.surplus, hvariadic]
      exact ⟨r.2, rfl, hl⟩

/-- **The code that passes arguments** leaves the ones that are passed one by one, the defaults for
the missing ones, and the list of the surplus ones on the stack. -/
theorem compilePassing_words (args : Args) (hcons : Implements calls .cons consOf) (hargs : ListOf Γ.heap v ws)
    (hws : Yield calls arguments Γ C ws vs) (hs : Fits Γ s) : ∃ c s' n,
      compilePassing C v ws.length args s = .ok () c s' ∧ Fits Γ s' ∧
      n = args.numSurplus vs.length + min vs.length (args.numOptional + args.numRequired) ∧
      Does calls Γ.count arguments (fun _ => True) c [] n
        (makes (Words (args.surplus vs) (vs.take (args.numOptional + args.numRequired) ++
          (args.defaults vs.length).map OptionalArgument.value))) (Machine.Passed n) := by
  have hlen : ws.length = vs.length := hws.length_eq
  obtain ⟨c₁, s₁, h₁, hs₁, hc₁⟩ := compileRest_ok args hcons hargs hws hs
  have hdefaults := passes_defaults hc₁ (args.defaults vs.length)
  rw [List.append_nil] at hdefaults
  set total := args.numOptional + args.numRequired with htotal
  have hfront : List.Forall₂ (fun w u => CompilesTo calls arguments Γ C.compileExpression w
      (yields u)) (ws.take total) (vs.take total) := List.forall₂_take total hws
  obtain ⟨c₂, s₂, h₂, hs₂, hc₂⟩ := compileArguments_ok yields [.pushEax]
    (fun us c => Does calls Γ.count arguments (fun _ => True)
      (c₁ ++ ((args.defaults vs.length).reverse.map fun o => .push (.word o.value)) ++ c) []
      (args.numSurplus vs.length + us.length)
      (makes (Words (args.surplus vs) (us ++ (args.defaults vs.length).map
        OptionalArgument.value))) (Machine.Passed (args.numSurplus vs.length + us.length)))
    hargs (by simpa [Args.numSurplus] using hdefaults)
    (fun u us c c₃ h h₃ => by
      rw [← List.append_assoc]
      exact passes_argument h h₃) 0 (by rw [List.drop_zero, List.take_append_drop]) hfront hs₁
  have hpushes : compileSurplus C v ws.length args s =
      .ok () (c₁ ++ (args.defaults vs.length).reverse.map fun o => .push (.word o.value)) s₁ := by
    obtain ⟨_, c, s₂, c', rfl, h, h'⟩ := bind_ok_iff.1 h₁
    rw [List.append_assoc, ← hlen]
    exact bind_ok h (bind_ok h' rfl)
  refine ⟨_, s₂, _, bind_ok hpushes ?_, hs₂, ?_, hc₂⟩
  · rw [compileArguments, Nat.sub_zero, hlen, min_comm, ← List.length_take]
    exact h₂
  · rw [List.length_take, min_comm]

/-- **What a function should find** when it is called with the arguments `vs`: the arguments, the
defaults for the missing ones, and the list of the surplus ones. -/
structure Expects (args : Args) (vs : List Word) (G : Heap) (words : List Word) : Prop where
  length : words.length = realNargs args
  supplied : ∀ k v, vs[k]? = some v → k < args.numRequired + args.numOptional →
    words[k]? = some v
  missing : ∀ k, vs.length ≤ k → k < args.numRequired + args.numOptional →
    ∃ d, args.optionalArguments[k - args.numRequired]? = some d ∧ words[k]? = some d.value
  rest : args.variadic = true → ∃ u,
    words[args.numRequired + args.numOptional]? = some u ∧
      ListOf G u (vs.drop (args.numRequired + args.numOptional))

theorem length_front (hr : args.numRequired ≤ vs.length) :
    (vs.take (args.numOptional + args.numRequired) ++
      (args.defaults vs.length).map OptionalArgument.value).length =
      args.numRequired + args.numOptional := by
  simp only [Args.defaults, Args.numOptional, List.length_append, List.length_take,
    List.length_map, List.length_drop]
  omega

/-- What is on the stack is what the function should find. -/
theorem Words.expects {G : Heap} {words : List Word}
    (hargs : areArgsAcceptable args vs.length = true)
    (h : Words (args.surplus vs) (vs.take (args.numOptional + args.numRequired) ++
      (args.defaults vs.length).map OptionalArgument.value) G words) : Expects args vs G words := by
  have hr := numRequired_le hargs
  have hfront := length_front hr
  obtain ⟨r, hwords, hrest⟩ : ∃ r, words = vs.take (args.numOptional + args.numRequired) ++
      (args.defaults vs.length).map OptionalArgument.value ++ r ∧
      if args.variadic then ∃ u, r = [u] ∧
        ListOf G u (vs.drop (args.numOptional + args.numRequired)) else r = [] := by
    unfold Args.surplus at h
    split_ifs at h ⊢ with hvariadic
    · obtain ⟨u, hu, hl⟩ := h
      exact ⟨[u], hu, u, rfl, hl⟩
    · exact ⟨[], by rwa [List.append_nil], rfl⟩
  have hleft : ∀ k < args.numRequired + args.numOptional, words[k]? =
      (vs.take (args.numOptional + args.numRequired) ++
        (args.defaults vs.length).map OptionalArgument.value)[k]? := by
    intro k hk
    rw [hwords, List.getElem?_append_left (by omega)]
  refine ⟨?_, fun k v hv hk => ?_, fun k hle hk => ?_, fun hvariadic => ?_⟩
  · rw [hwords, List.length_append, hfront, realNargs]
    split_ifs at hrest ⊢ with hvariadic
    · obtain ⟨u, rfl, -⟩ := hrest
      simp [Nat.add_comm]
    · rw [hrest]
      simp [Nat.add_comm]
  · obtain ⟨hlt, -⟩ := List.getElem?_eq_some_iff.1 hv
    rw [hleft k hk, List.getElem?_append_left (by rw [List.length_take]; omega),
      List.getElem?_take_of_lt (by omega), hv]
  · have hbound : k - args.numRequired < args.optionalArguments.length := by
      unfold Args.numOptional at hk
      omega
    refine ⟨_, List.getElem?_eq_getElem hbound, ?_⟩
    have hindex : vs.length - args.numRequired + (k - vs.length) = k - args.numRequired := by omega
    rw [hleft k hk, List.getElem?_append_right (by rw [List.length_take]; omega), List.getElem?_map,
      Args.defaults, List.getElem?_drop, List.length_take, Nat.min_eq_right (by omega), hindex,
      List.getElem?_eq_getElem hbound]
    rfl
  · rw [if_pos hvariadic] at hrest
    obtain ⟨u, rfl, hl⟩ := hrest
    rw [Nat.add_comm args.numOptional] at hl
    refine ⟨u, ?_, hl⟩
    rw [hwords, List.getElem?_append_right (by omega), hfront, Nat.sub_self]
    rfl

end Compile

/-! ### What a direct call enters -/

/-- What a direct call enters. -/
inductive Target
  | function (code : CodePtr)
  /-- The function that is being compiled. -/
  | self
  /-- The same, in tail position. -/
  | restart

/-- The code that enters it, with `n` words on the stack. -/
def Target.code (n : ℕ) : Target → Code
  | .function code => [.call (.function code)]
  | .self => [.callHere]
  | .restart => tailCall n

/-- The compiler takes a form with the head `name` for a call of it, and `args` for its
parameters. -/
def Target.Named (tail : Bool) (Γ : Context) (s : State) (name : String) (args : Args) :
    Target → Prop
  | .function code => Γ.name ≠ some name ∧
      Γ.env.find? (fun g => g.name = name) = some ⟨name, args, .function, code⟩
  | .self => Γ.name = some name ∧ s.locals.head?.map Local.args = some args ∧ tail = false
  | .restart => Γ.name = some name ∧ s.locals.head?.map Local.args = some args ∧ tail = true

/-- Of a function that can be started again, the start and the frame are there. -/
def Target.Ready (P : Code) (m : Machine) : Target → Prop
  | .restart => .here ∈ P ∧ ∃ a, m.stack m.ebp = .address a
  | _ => True

/-- The machine is about to enter it, and `b` will be its `ebp`. -/
def Target.Entered (P : Code) (m : Machine) (b : ℤ) : Target → Prop
  | .function code => P[m.pc]? = some (.call (.function code)) ∧ b = m.esp - 8
  | .self => P[m.pc]? = some .callHere ∧ b = m.esp - 8
  | .restart => P[m.pc]? = some .here ∧ b = m.esp - 4

/-- A function with the `ebp` `b` finds the words at `[ebp + 8 + 4 * k]`. -/
def Machine.Finds (m : Machine) (b : ℤ) (words : List Word) : Prop :=
  ∀ (k : ℕ) w, words[k]? = some w → m.stack (argumentAddress b k) = .word w

section Target

variable {calls : Val → Machine → Machine → Prop} {P : Code} {m : Machine} {words : List Word}
  {tgt : Target} {n : ℕ}

theorem Machine.OnStack.finds (h : m.OnStack words) : m.Finds (m.esp - 8) words := by
  intro k w hw
  rw [← h k w hw]
  congr 1
  unfold argumentAddress
  ring

/-- The start of a function is somewhere. -/
theorem exists_goto_here (h : .here ∈ P) : ∃ q, P[q]? = some .here ∧
    ∀ m : Machine, m.goto P .here = some { m with pc := q } := by
  cases hq : P.findIdx? (fun i => decide (i = .here)) with
  | none => exact absurd (List.findIdx?_eq_none_iff.1 hq _ h) (by simp)
  | some q =>
    obtain ⟨hlt, hget, -⟩ := List.findIdx?_eq_some_iff_getElem.1 hq
    refine ⟨q, ?_, fun m => by rw [Machine.goto, hq]; rfl⟩
    rw [List.getElem?_eq_getElem hlt]
    simpa using hget

/-- The words on top of the stack are what is found by what is entered. -/
theorem Target.enters (hat : At P m.pc (tgt.code n)) (hready : tgt.Ready P m)
    (hwords : m.OnStack words) (hlen : words.length = n) (hesp : m.esp + 4 * n ≤ m.ebp) :
    (machine calls P).Inevitably (fun m' => m'.heap = m.heap ∧
      ∃ b, tgt.Entered P m' b ∧ m'.Finds b words) m := by
  cases tgt with
  | function code => exact .now ⟨rfl, _, ⟨(at_cons.1 hat).1, rfl⟩, hwords.finds⟩
  | self => exact .now ⟨rfl, _, ⟨(at_cons.1 hat).1, rfl⟩, hwords.finds⟩
  | restart =>
    obtain ⟨hhere, a, hsaved⟩ := hready
    obtain ⟨q, hq, hgoto⟩ := exists_goto_here hhere
    obtain ⟨r, hexecs, hr⟩ := execs_tailCall hat hesp hsaved hgoto
    refine hexecs.inevitably ⟨hr.heap, m.ebp, ⟨by rw [hr.pc, hq], by rw [hr.esp]; ring⟩, ?_⟩
    intro k w hw
    obtain ⟨hk, -⟩ := List.getElem?_eq_some_iff.1 hw
    rw [hr.arguments k (by omega), hwords k w hw]

end Target

section Compile

variable {calls : Val → Machine → Machine → Prop} {arguments : ℕ → Word} {Γ : Context}
  {R : Runtime} {C : Compiler} {s : State} {v fsym : Word} {ws vs : List Word} {args : Args}
  {name : String} {tail : Bool} {tgt : Target}

/-- The code of a call. -/
theorem compileCall_words (hcons : Implements calls .cons consOf) (hargs : ListOf Γ.heap v ws)
    (hfsym : Γ.heap.Named fsym name) (hws : Yield calls arguments Γ C ws vs)
    (hacceptable : areArgsAcceptable args vs.length = true) (hs : Fits Γ s)
    (htgt : tgt.Named tail Γ s name args) : ∃ c s',
      compileCall R C fsym v ws.length tail s =
        .ok () (c ++ (tgt.code (realNargs args) ++ [.addEsp (realNargs args * 4)])) s' ∧
      Does calls Γ.count arguments (fun _ => True) c [] (realNargs args)
        (makes (Expects args vs)) (Machine.Passed (realNargs args)) := by
  have hlen : ws.length = vs.length := hws.length_eq
  obtain ⟨c, s', n, h, -, hn, hc⟩ := compilePassing_words args hcons hargs hws hs
  obtain rfl : n = realNargs args := by
    have hr := numRequired_le hacceptable
    rw [hn, realNargs, Args.numSurplus, Args.defaults, List.length_drop, Args.numOptional]
    split_ifs <;> omega
  have hread : symbolName fsym s = .ok name [] s := read_symbolName (hs.heap.symm ▸ hfsym)
  have hfind : findFunction name s = .ok (Γ.env.find? fun g => g.name = name) [] s := by
    rw [← hs.env]
    rfl
  obtain ⟨l, rest, hl, -, hcurrent⟩ := hs.locals
  have hlocal : getLocal s = .ok l [] s := by
    refine (bind_of_ok (rfl : get s = .ok s [] s)).trans ?_
    rw [hl]
    rfl
  have hthrow : ¬ (!areArgsAcceptable args ws.length) = true := by
    rw [hlen, hacceptable]
    decide
  refine ⟨c, s', ?_, hc.refine id (fun _ _ h => h) fun Q G hy => ?_⟩
  · refine (bind_of_ok hread).trans ((bind_of_ok hfind).trans ((bind_of_ok hlocal).trans ?_))
    cases tgt with
    | function code =>
      obtain ⟨hother, hf⟩ := htgt
      have hname : ¬ l.currentFunctionName = some name := by rwa [hcurrent]
      simp only [hname, decide_false, Bool.false_eq_true, if_false, hf, Option.map_some]
      exact (bind_of_ok (read_throwIf hthrow _ _)).trans (bind_ok h rfl)
    | self | restart =>
      obtain ⟨hself, hlargs, rfl⟩ := htgt
      have hname : l.currentFunctionName = some name := by rwa [hcurrent]
      obtain rfl : l.args = args := by simpa [hl] using hlargs
      simp only [hname, decide_true, if_true]
      exact (bind_of_ok (read_throwIf hthrow _ _)).trans (bind_ok h (bind_ok rfl rfl))
  · rintro words G' ⟨hG, hwords⟩
    exact hy _ _ ⟨hG, hwords.expects hacceptable⟩

/-- **A direct call** enters the function with words, and in a state, as `K` says: this is so of the
code that the form `v` is compiled to, wherever it stands in a program. -/
def DirectCall (R : Runtime) (calls : Val → Machine → Machine → Prop) (arguments : ℕ → Word)
    (Γ : Context) (H : Heap) (name : String) (args : Args) (tgt : Target) (tail : Bool) (v : Word)
    (K : Machine → List Word → Prop) : Prop :=
  ∃ N, ∀ n ≥ N, ∀ s, Fits Γ s → tgt.Named tail Γ s name args → ∃ code s',
    (compiler R n).compileExpression v tail s = .ok () code s' ∧
    ∀ P m, stackHeights.LabelsUnique P → At P m.pc code → m.InFrame Γ.count arguments →
      tgt.Ready P m → H.Extends m.heap →
      (machine calls P).Inevitably (fun m' => ∃ b words, tgt.Entered P m' b ∧ m'.Finds b words ∧
        K m' words) m

/-- The words are the same, or the second is a structural copy of the first. -/
def SameWords (G G' : Heap) (words : List Word) (words' : List (Option Word)) : Prop :=
  ∀ (k : ℕ) u, words[k]? = some u →
    ∃ u', words'[k]? = some (some u') ∧ (u' = u ∨ Equal G G' u u')

/-- **Both ways to call a function agree**: a call with a list of `vs` enters it, and a direct call
with arguments that are `vs` passes it what it should find, and what the call with the list does. -/
def PathsAgree (R : Runtime) (outside : ℤ → Word) (calls : Val → Machine → Machine → Prop)
    (arguments : ℕ → Word) (Γ : Context) (H : Heap) (name : String) (args : Args) (tgt : Target)
    (tail : Bool) (v : Word) (vs : List Word) : Prop :=
  ∀ (callee : Callee) (list : Word) (w : World), H.Extends w.heap → callee.Takes w.heap args →
    ListOf w.heap list vs → ∃ N, ∀ n ≥ N, ∃ e w', callee.call R outside n list w =
      some (.entered e, w') ∧
      DirectCall R calls arguments Γ H name args tgt tail v fun m words =>
        Expects args vs m.heap words ∧ SameWords m.heap w'.heap words e.words

/-- The forms `ws` are compiled to code for the values `vs`, given enough nested calls. -/
def Evaluate (R : Runtime) (calls : Val → Machine → Machine → Prop) (arguments : ℕ → Word)
    (Γ : Context) (ws vs : List Word) : Prop :=
  ∃ N, ∀ n ≥ N, Yield calls arguments Γ (compiler R n) ws vs

/-- A form that is compiled to code for one value, and nothing else. -/
theorem yields_of_pure {w u : Word} (h : ∀ C, CompilesTo calls arguments Γ (compileExpression R C) w
      (pure u)) {n : ℕ} (hn : 1 ≤ n) :
    CompilesTo calls arguments Γ (compiler R n).compileExpression w (yields u) := by
  obtain ⟨n, rfl⟩ := Nat.exists_eq_succ_of_ne_zero (Nat.ne_zero_of_lt hn)
  intro s hs
  obtain ⟨c, s', hok, hs', hc⟩ := h (compiler R n) s hs
  exact ⟨c, s', hok, hs', computes_yields hc⟩

/-- All values can be passed, as quoted constants. -/
theorem evaluate_quote (hws : List.Forall₂ (fun w u => Γ.heap.IsForm w "quote" [u]) ws vs) :
    Evaluate R calls arguments Γ ws vs :=
  ⟨1, fun _ hn => hws.imp fun _ _ h => yields_of_pure (fun _ => compilesTo_quote h) hn⟩

/-- A direct call passes what the function should find. -/
theorem directCall_expects (R : Runtime) (H : Heap) (tgt : Target) (tail : Bool) (hcons : Implements calls .cons consOf)
    (hv : Γ.heap.IsForm v name ws) (hname : name ∉ specialForms)
    (hws : Evaluate R calls arguments Γ ws vs)
    (hacceptable : areArgsAcceptable args vs.length = true) :
    DirectCall R calls arguments Γ H name args tgt tail v fun m words =>
      H.Extends m.heap ∧ Expects args vs m.heap words := by
  obtain ⟨N, hN⟩ := hws
  refine ⟨N + 1, fun n hn s hs htgt => ?_⟩
  obtain ⟨n, rfl⟩ := Nat.exists_eq_succ_of_ne_zero (Nat.ne_zero_of_lt hn)
  obtain ⟨fsym, hfsym, hlist⟩ := hv
  obtain ⟨c, s', h, hc⟩ := compileCall_words (R := R) hcons hlist.cdr hfsym
    (hN n (Nat.le_of_succ_le_succ hn)) hacceptable hs htgt
  have hform : s.world.heap.IsForm v name ws := hs.isForm ⟨fsym, hfsym, hlist⟩
  refine ⟨c ++ (tgt.code (realNargs args) ++ [.addEsp (realNargs args * 4)]), s', ?_,
    fun P m hu hat hm hready hH => ?_⟩
  · show compileExpression R (compiler R n) v tail s = _
    rw [compileExpression_of_list (hs.heap.symm ▸ hlist), compileForm_eq hform, hs.heap, hlist.car]
    simp only [specialForms, List.mem_cons, List.not_mem_nil, or_false, not_or] at hname
    simpa [hname] using h
  rw [at_append, at_append] at hat
  obtain ⟨hat, hcode, -⟩ := hat
  refine (hc hu (by rwa [List.append_nil]) hm trivial (Q := fun words G => H.Extends G ∧
    Expects args vs G words) fun words G ⟨hG, hwords⟩ => ⟨hH.trans hG, hwords⟩).trans ?_
  rintro m₁ ⟨hran, words, ⟨hwords, hlen⟩, hH₁, hexpects⟩
  rw [← hran.pc] at hcode
  have hesp := hran.esp
  have hebp := hran.ebp
  have hle := hm.esp
  have hready₁ : tgt.Ready P m₁ := by
    cases tgt with
    | restart =>
      obtain ⟨hhere, a, ha⟩ := hready
      exact ⟨hhere, a, by rw [hebp, hran.stack _ hle, ha]⟩
    | _ => trivial
  refine (Target.enters hcode hready₁ hwords hlen (by omega)).mono ?_
  rintro m' ⟨hheap, b, hentered, hfinds⟩
  exact ⟨b, words, hentered, hfinds, by rwa [hheap], by rwa [hheap]⟩

end Compile

/-! ### Both ways -/

section Paths

variable {R : Runtime} {outside : ℤ → Word} {calls : Val → Machine → Machine → Prop}
  {arguments : ℕ → Word} {Γ : Context} {H G G' K : Heap} {name : String} {args : Args}
  {tgt : Target} {tail : Bool} {v : Word} {ws vs : List Word}

/-- Lists of equal elements are equal. -/
theorem equal_list {us : List Word} {u u' : Word} (hu : ListOf G u vs) (hu' : ListOf G' u' us)
    (hlen : us.length = vs.length) (h : ∀ x ∈ vs.zip us, Equal G G' x.1 x.2) :
    Equal G G' u u' := by
  induction vs generalizing u u' us with
  | nil =>
    obtain rfl := List.length_eq_zero_iff.1 hlen
    obtain rfl : u = nil := hu
    obtain rfl : u' = nil := hu'
    exact .immediate (by decide)
  | cons x vs ih =>
    obtain ⟨y, us, rfl⟩ := List.exists_cons_of_length_eq_add_one hlen
    obtain ⟨hc, d, ho, hd⟩ := hu
    obtain ⟨hc', d', ho', hd'⟩ := hu'
    rw [List.zip_cons_cons, List.forall_mem_cons] at h
    exact .cons hc hc' ho ho' h.1 (ih hd hd' (Nat.succ.inj hlen) h.2)

/-- What the function should find, and what a call with a list passes. -/
theorem Expects.sameWords {words : List Word} {e : Entered} (h : Expects args vs G words)
    (hpasses : PassesExactly K G' args vs e)
    (hequal : ∀ u u', u ∈ vs → IsCopy K G' u u' → Equal G G' u u') :
    SameWords G G' words e.words := by
  intro k u hu
  have hk : k < realNargs args := h.length ▸ (List.getElem?_eq_some_iff.1 hu).1
  by_cases hlt : k < args.numRequired + args.numOptional
  · by_cases hsupplied : k < vs.length
    · have hv := List.getElem?_eq_getElem hsupplied
      obtain ⟨u', hu', hcopy⟩ := hpasses.supplied k _ hv hlt
      rw [h.supplied k _ hv hlt] at hu
      cases hu
      exact ⟨u', hu', .inr (hequal _ _ (List.getElem_mem hsupplied) hcopy)⟩
    · -- both get the default
      obtain ⟨d, hd, hword⟩ := h.missing k (by omega) hlt
      obtain ⟨d', hd', hword'⟩ := hpasses.missing k (by omega) hlt
      rw [hd] at hd'
      cases hd'
      rw [hword] at hu
      cases hu
      exact ⟨_, hword', .inl rfl⟩
  · -- the rest parameter
    unfold realNargs at hk
    split_ifs at hk with hvariadic
    · obtain rfl : k = args.numRequired + args.numOptional := by omega
      obtain ⟨r, hr, hl⟩ := h.rest hvariadic
      obtain ⟨r', us, hr', hl', hlen, hcopies⟩ := hpasses.rest hvariadic
      rw [hr] at hu
      cases hu
      refine ⟨r', hr', .inr (equal_list hl hl' hlen fun x hx => ?_)⟩
      exact hequal _ _ (List.mem_of_mem_drop (List.of_mem_zip hx).1) (hcopies x hx)
    · omega

/-- **Both ways to call a function agree** for arguments that are finite and have no instances of
classes in them. -/
theorem pathsAgree_of_data (R : Runtime) (outside : ℤ → Word)
    (hcons : Implements calls .cons consOf) (hv : Γ.heap.IsForm v name ws)
    (hname : name ∉ specialForms) (hws : Evaluate R calls arguments Γ ws vs)
    (hsmall : args.numRequired + args.numOptional < 2 ^ 16)
    (hacceptable : areArgsAcceptable args vs.length = true)
    (hvs : ∀ u ∈ vs, Data H u ∧ ¬ HasInstance H u) :
    PathsAgree R outside calls arguments Γ H name args tgt tail v vs := by
  intro callee list w hH hcallee hl
  obtain ⟨code_ptr, closure, hcall⟩ := hcallee.call_eq hl R outside
  have hcopyable : ∀ u ∈ vs, Copyable w.heap u := fun u hu => ((hvs u hu).1.extends hH).copyable
  obtain ⟨N, hN⟩ := callListArgs_spec (R := R) hl hcopyable outside args code_ptr closure
  refine ⟨N, fun n hn => ?_⟩
  obtain ⟨K, us, rest, e, w', hrun, hspreads⟩ := hN n hn w (.refl _)
  obtain ⟨-, hpasses, -⟩ := hspreads.enforced hacceptable hsmall
  refine ⟨e, w', by rw [hcall, hrun]; rfl, ?_⟩
  obtain ⟨M, hM⟩ := directCall_expects R H tgt tail hcons hv hname hws hacceptable
  refine ⟨M, fun n hn s hs htgt => ?_⟩
  obtain ⟨code, s', hok, hcode⟩ := hM n hn s hs htgt
  refine ⟨code, s', hok, fun P m hu hat hm hready hm' => ?_⟩
  refine (hcode P m hu hat hm hready hm').mono ?_
  rintro m' ⟨b, words, hentered, hfinds, hheap, hexpects⟩
  refine ⟨b, words, hentered, hfinds, hexpects, hexpects.sameWords hpasses fun u u' hu hcopy => ?_⟩
  exact hcopy.equal (.refl _) (hvs u hu).1 (hvs u hu).2 hH hheap

end Paths

/-! ### Examples -/

/-- The form `f` in a function with the parameter `x`, where `f` is a function with the parameters
`args`. -/
def callContext (f : Sexp) (args : Args) : Context :=
  ⟨f.heap.1, [⟨"f", args, .function, .builtin "f"⟩], [⟨"x", 0, .argument⟩], none, 1⟩

/-- The parameter is compiled to code for its value. -/
theorem yields_parameter (R : Runtime) (calls : Val → Machine → Machine → Prop) {f : Sexp}
    {args : Args} {w u : Word} (hw : f.heap.1.Named w "x") {n : ℕ} (hn : 1 ≤ n) :
    CompilesTo calls (fun _ => u) (callContext f args) (compiler R n).compileExpression w
      (yields u) :=
  yields_of_pure (fun _ => compilesTo_parameter Nat.one_pos hw (by decide) rfl) hn

/-- `(f x x x)` -/
def threeForm : Sexp := .list [.symbol "f", .symbol "x", .symbol "x", .symbol "x"]

/-- `(a (b nil) & c)` -/
def threeArgs : Args := ⟨1, [⟨nil, nil⟩], true⟩

theorem pathsAgree_threeArguments :
    PathsAgree .inert (fun _ => 0) consCalls (fun _ => 20) (callContext threeForm threeArgs)
      (.ofList []) "f" threeArgs (.function (.builtin "f")) false threeForm.heap.2 [20, 20, 20] := by
  have hf : threeForm.heap.1.Named 21 "f" := ⟨by decide, rfl⟩
  have hx : ∀ w ∈ [29, 37, 45], threeForm.heap.1.Named w "x" := by
    simpa using ⟨⟨by decide, rfl⟩, ⟨by decide, rfl⟩, by decide, rfl⟩
  have hform : threeForm.heap.1.IsForm threeForm.heap.2 "f" [29, 37, 45] :=
    ⟨21, hf, by decide, _, rfl, by decide, _, rfl, by decide, _, rfl, by decide, _, rfl, rfl⟩
  have hyields : ∀ w ∈ [29, 37, 45], ∀ n ≥ 1, CompilesTo consCalls (fun _ => 20)
      (callContext threeForm threeArgs) (compiler .inert n).compileExpression w (yields 20) :=
    fun w hw n hn => yields_parameter .inert consCalls (hx w hw) hn
  refine pathsAgree_of_data .inert (fun _ => 0) implements_cons hform (by decide) ⟨1, fun n hn => ?_⟩
    (by decide) (by decide) fun u hu => ?_
  · exact .cons (hyields _ (by simp) n hn) (.cons (hyields _ (by simp) n hn)
      (.cons (hyields _ (by simp) n hn) .nil))
  · obtain rfl : u = 20 := by simpa using hu
    refine ⟨.immediate (by decide), fun h => ?_⟩
    cases h.kind

/-- `(f x)` -/
def oneForm : Sexp := .list [.symbol "f", .symbol "x"]

/-- A cell at 16 that is its own `cdr`, and a list of it. -/
def cyclicHeap : HeapGraph := .ofList [(16, .cons 20 17), (24, .cons 17 nil)] (by decide)

theorem obj_cyclicHeap : cyclicHeap.obj (pointer 17) = some (.cons 20 17) := by decide

theorem not_hasInstance_cyclic {u : Word} (h : HasInstance cyclicHeap.toHeap u) : u ≠ 17 := by
  induction h with
  | here hv =>
    rintro rfl
    cases hv
  | car hv ho hx =>
    rintro rfl
    cases obj_cyclicHeap.symm.trans ho
    cases hx.kind
  | cdr hv ho _ ih =>
    rintro rfl
    cases obj_cyclicHeap.symm.trans ho
    exact ih rfl
  | capture hv =>
    rintro rfl
    cases hv

theorem not_copyable_cyclic {u : Word} (h : Copyable cyclicHeap.toHeap u) : u ≠ 17 := by
  induction h with
  | immediate hv =>
    rintro rfl
    cases hv
  | text hv =>
    rintro rfl
    rcases hv with hv | hv <;> cases hv
  | cons _ ho _ _ _ ih =>
    rintro rfl
    cases obj_cyclicHeap.symm.trans ho
    exact ih rfl
  | closure hv =>
    rintro rfl
    cases hv
  | other _ hh =>
    rintro rfl
    cases hh

/-- **A call with a list does not come to an end of the copy of a cyclic argument.** -/
theorem not_pathsAgree : ¬ ∀ (R : Runtime) (outside : ℤ → Word)
    (calls : Val → Machine → Machine → Prop) (arguments : ℕ → Word) (Γ : Context) (H : HeapGraph)
    (name : String) (args : Args) (tgt : Target) (tail : Bool) (v : Word) (ws vs : List Word),
    Implements calls .cons consOf → Γ.heap.IsForm v name ws → name ∉ specialForms →
      Evaluate R calls arguments Γ ws vs → args.numRequired + args.numOptional < 2 ^ 16 →
      areArgsAcceptable args vs.length = true →
      (∀ u ∈ vs, H.Points u ∧ ¬ HasInstance H.toHeap u) →
      PathsAgree R outside calls arguments Γ H.toHeap name args tgt tail v vs := by
  intro h
  have hf : oneForm.heap.1.Named 21 "f" := ⟨by decide, rfl⟩
  have hx : oneForm.heap.1.Named 29 "x" := ⟨by decide, rfl⟩
  have hpoints : cyclicHeap.Points 17 := fun _ => ⟨_, obj_cyclicHeap, by decide⟩
  have hagree := h .inert (fun _ => 0) consCalls (fun _ => 17) (callContext oneForm ⟨1, [], false⟩)
    cyclicHeap "f" ⟨1, [], false⟩ (.function (.builtin "f")) false oneForm.heap.2 [29] [17]
    implements_cons ⟨21, hf, by decide, _, rfl, by decide, _, rfl, rfl⟩ (by decide)
    ⟨1, fun n hn => .cons (yields_parameter .inert consCalls hx hn) .nil⟩ (by decide) (by decide)
    (List.forall_mem_singleton.2 ⟨hpoints, fun h => not_hasInstance_cyclic h rfl⟩)
  have hl : ListOf cyclicHeap.toHeap 25 [17] := ⟨by decide, nil, by decide, rfl⟩
  obtain ⟨N, hN⟩ := hagree (.macro_ ⟨"f", ⟨1, [], false⟩, .macro_, .builtin "f"⟩) 25
    ⟨cyclicHeap.toHeap, fun _ => 0, 0, [], []⟩ (.refl _) rfl hl
  obtain ⟨e, w', hrun, -⟩ := hN N le_rfl
  obtain ⟨r, hr, -⟩ := Option.map_eq_some_iff.1 hrun
  obtain ⟨⟨list', w₁⟩, hcopy, -⟩ := Option.bind_eq_some_iff.1 hr
  have hcopyable := copyable_of_deepCopy (points_list hl) (.refl _) hcopy
  exact not_copyable_cyclic (copyable_elements hl hcopyable 17 (by simp)) rfl

end Lisp

end Bluejay
