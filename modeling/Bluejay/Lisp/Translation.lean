import Bluejay.Lisp.ControlFlow
import Bluejay.Lisp.Invocation
import Bluejay.Lisp.Terms

/-!
# Function bodies are compiled correctly

* `Setting` : what stays as it is while a function is compiled; `Suits` : the compiler has come to
  a place with these variables.
* `YieldsIn`, `StacksIn` : the code does what it should in every invocation of the function, for
  all that other functions may do.
* `Translated v e` : the form `v` is compiled to code that does what the term `e` does.
* `translated_if`, `translated_let1`, `translated_call`, … : one for each kind of form.
* `translated_of_spells` : all of them together, for forms of any depth.
-/

namespace Bluejay

namespace Lisp

open Emitter

/-- What stays as it is while a function is compiled. -/
structure Setting where
  world : World
  /-- The function, and what it takes. -/
  name : Option String
  args : Args

/-- What the functions take that can be called. -/
def Setting.takes (G : Setting) (f : String) : Option Args :=
  if G.name = some f then some G.args
  else (G.world.env.find? fun g => g.name = f).bind fun g =>
    if g.namespc = .function then some g.args else none

/-! ### While a function is compiled -/

/-- The variables are those of `scope`, except where `let1` forms for names in `ended` have ended,
and the slots of `d` enclosing `let1` forms are in use. -/
structure Local.Knows (G : Setting) (scope : List Variable) (ended : List String) (d : ℕ)
    (l : Local) : Prop where
  name : l.currentFunctionName = G.name
  args : l.args = G.args
  lifo : l.Lifo
  depth : l.notes.depth = d
  finds : ∀ x ∉ ended, (l.first.find? fun u => u.name = x) = scope.find? fun u => u.name = x
  own : ∀ u ∈ scope, u.type = .argument ∨ u.type = .bound

structure Suits (G : Setting) (scope : List Variable) (ended : List String) (d : ℕ) (s : State) :
    Prop where
  world : s.world = G.world
  locals : ∃ l rest, s.locals = l :: rest ∧ l.Knows G scope ended d

/-! ### While it runs -/

/-- Where the value of a variable is. -/
def Values.get (fr : Values) (u : Variable) : Option Word :=
  match u.type with
  | .argument => fr.arguments[u.number]?
  | .bound => fr.slots[u.number]?
  | .global | .free => none

/-- The variables have these values. -/
def Agrees (fr : Values) : List Variable → Bindings → Prop :=
  List.Forall₂ fun u b => u.name = b.1 ∧ fr.get u = some b.2

section Runs

variable (calls : Val → Machine → Machine → Prop) (back : ℕ → ℕ → Val) (programs : List Code)

/-- A call of the function at `c` with `n` words does what `F` does with them. -/
def Provides (c : CodePtr) (n : ℕ) (F : List Word → Outcome Heap Word) : Prop :=
  match c with
  | .program j => Serves calls back programs j n F
  | .builtin _ => Implements calls (.function c) F

/-- In the invocation `A` of the function that is compiled, functions do what `F` says. -/
structure Setting.Hosts (G : Setting) (F : Functions) (A : Invocation) : Prop where
  cons : Implements calls .cons consOf
  others : ∀ f g, G.name ≠ some f → (G.world.env.find? fun g => g.name = f) = some g →
    g.namespc = .function → Provides calls back programs g.codePtr (realNargs g.args) (F f)
  self : ∀ f, G.name = some f → Serves calls back programs A.self A.count (F f)
  count : A.count = realNargs G.args
  start : ∀ P, programs[A.self]? = some P → ∀ m : Machine, m.goto P .here =
    some { m with pc := 0 }

/-- The invocation has come to a place with the variables of `scope`, at the depth `d`, and has the
slots of `ls`. -/
structure Setting.Reaches (G : Setting) (scope : List Variable) (d : ℕ) (ls : List ℕ)
    (F : Functions) (A : Invocation) (fr : Values) (ρ : Bindings) : Prop where
  hosts : G.Hosts calls back programs F A
  depth : fr.slots.length = d
  agrees : Agrees fr scope ρ
  reserved : ∀ k ∈ ls, k < A.reserved

end Runs

section Codes

variable (G : Setting) (scope : List Variable) (d : ℕ) (ls : List ℕ)

/-- At a place with these variables, `c` does what `x` does. -/
def YieldsIn (tail : Bool) (pre : Val → Prop) (c next : Code)
    (x : Functions → Bindings → Outcome Heap Word) : Prop :=
  ∀ ⦃calls : Val → Machine → Machine → Prop⦄ ⦃back : ℕ → ℕ → Val⦄ ⦃programs : List Code⦄
    ⦃F : Functions⦄ ⦃A : Invocation⦄ ⦃fr : Values⦄ ⦃ρ : Bindings⦄,
    G.Reaches calls back programs scope d ls F A fr ρ →
      Yields calls back programs A fr tail pre c next (x F ρ)

/-- The same for code that leaves words on the stack. -/
def StacksIn {α : Type} (c next : Code) (k : ℕ) (x : Functions → Bindings → Outcome Heap α)
    (holds : Machine → α → Prop) : Prop :=
  ∀ ⦃calls : Val → Machine → Machine → Prop⦄ ⦃back : ℕ → ℕ → Val⦄ ⦃programs : List Code⦄
    ⦃F : Functions⦄ ⦃A : Invocation⦄ ⦃fr : Values⦄ ⦃ρ : Bindings⦄,
    G.Reaches calls back programs scope d ls F A fr ρ →
      Stacks calls back programs A fr c next k (x F ρ) holds

/-- Where the variables are those of `scope`, the form `v` is compiled to code that does what `e`
does. -/
def Translated (compile : Word → Bool → CompileM Unit) (v : Word) (e : Term) : Prop :=
  ∀ tail ended, e.Legal G.takes (scope.map Variable.name) ended → ∀ s, Suits G scope ended d s →
    ∃ c s', compile v tail s = .ok () c s' ∧ Suits G scope (e.binds ++ ended) d s' ∧
      YieldsIn G scope d (e.lets d) tail (fun _ => True) c [] fun F ρ => e.eval F ρ

end Codes

attribute [local simp] Term.binds Term.bindsAll Term.lets Term.letsAll Term.eval

section Suits

variable {G : Setting} {scope : List Variable} {ended ended' : List String} {d : ℕ} {ls ls' : List ℕ}
  {s : State} {v w : Word} {ws us : List Word} {name x : String} {R : Runtime} {C : Compiler}
  {tail : Bool} {e : Term} {es more : List Term} {c c₁ c₂ next : Code}
  {calls : Val → Machine → Machine → Prop} {back : ℕ → ℕ → Val} {programs : List Code}
  {F : Functions} {A : Invocation} {fr : Values} {ρ : Bindings}

theorem Local.Knows.congr {l l' : Local} (h : l.Knows G scope ended d)
    (hname : l'.currentFunctionName = l.currentFunctionName) (hargs : l'.args = l.args)
    (hslots : l'.stackSlots = l.stackSlots) (hdepth : l'.notes.depth = l.notes.depth)
    (hfirst : l'.first = l.first) : l'.Knows G scope ended d := by
  obtain ⟨hn, ha, ⟨free, hf⟩, hd, hx, hown⟩ := h
  exact ⟨hname.trans hn, hargs.trans ha, ⟨free, by rw [hslots, hdepth, hf]⟩, hdepth.trans hd,
    by rwa [hfirst], hown⟩

theorem Suits.mono (h : Suits G scope ended d s) (hsub : ∀ y ∈ ended, y ∈ ended') :
    Suits G scope ended' d s := by
  obtain ⟨hw, l, rest, hl, hknows⟩ := h
  exact ⟨hw, l, rest, hl, { hknows with
    finds := fun y hy => hknows.finds y fun hmem => hy (hsub y hmem) }⟩

theorem Suits.heap (h : Suits G scope ended d s) : s.world.heap = G.world.heap := by rw [h.world]

theorem read_getLocal {l : Local} {rest : List Local} (hl : s.locals = l :: rest) :
    getLocal s = .ok l [] s := by
  refine (bind_of_ok (rfl : get s = .ok s [] s)).trans ?_
  rw [hl]
  rfl

theorem Suits.getLocal (h : Suits G scope ended d s) : ∃ l, getLocal s = .ok l [] s ∧
    l.Knows G scope ended d := by
  obtain ⟨-, l, rest, hl, hknows⟩ := h
  exact ⟨l, read_getLocal hl, hknows⟩

theorem Suits.nextpc (h : Suits G scope ended d s) : ∃ l s', nextpc s = .ok l [] s' ∧
    Suits G scope ended d s' := by
  obtain ⟨l, hl, -⟩ := h.getLocal
  refine ⟨l.nextpc, _, (bind_of_ok hl).trans (bind_of_ok rfl), h.world, ?_⟩
  obtain ⟨-, l, rest, hlocals, hknows⟩ := h
  refine ⟨l.nextLabel, rest, ?_, hknows.congr rfl rfl rfl rfl rfl⟩
  change s.locals.modifyHead Local.nextLabel = _
  rw [hlocals]
  rfl

theorem Setting.Reaches.mono (h : G.Reaches calls back programs scope d ls F A fr ρ)
    (hsub : ∀ k ∈ ls', k ∈ ls) : G.Reaches calls back programs scope d ls' F A fr ρ :=
  { h with reserved := fun k hk => h.reserved k (hsub k hk) }

theorem YieldsIn.mono {pre : Val → Prop} {x : Functions → Bindings → Outcome Heap Word}
    (h : YieldsIn G scope d ls tail pre c next x) (hsub : ∀ k ∈ ls, k ∈ ls') :
    YieldsIn G scope d ls' tail pre c next x :=
  fun _ _ _ _ _ _ _ hr => h (hr.mono hsub)

theorem StacksIn.mono {α : Type} {k : ℕ} {x : Functions → Bindings → Outcome Heap α}
    {holds : Machine → α → Prop} (h : StacksIn G scope d ls c next k x holds)
    (hsub : ∀ k ∈ ls, k ∈ ls') : StacksIn G scope d ls' c next k x holds :=
  fun _ _ _ _ _ _ _ hr => h (hr.mono hsub)

/-- Code that is not in tail position can be. -/
theorem YieldsIn.weaken {pre : Val → Prop} {x : Functions → Bindings → Outcome Heap Word}
    (h : YieldsIn G scope d ls false pre c [] x) (tail : Bool) (next : Code) :
    YieldsIn G scope d ls tail pre c next x :=
  fun _ _ _ _ _ _ _ hr => (h hr).weaken tail next

/-- Forms are compiled by the functions for them. -/
theorem Suits.compileExpression_of_form {m : CompileM Unit} (hs : Suits G scope ended d s)
    (hv : G.world.heap.IsForm v name ws) (heq : compileForm R C v tail s = m s) :
    compileExpression R C v tail s = m s := by
  obtain ⟨f, -, hlist⟩ := hv
  rw [← hs.heap] at hlist
  rw [compileExpression_of_list hlist, heq]

theorem Suits.isForm (hs : Suits G scope ended d s) (hv : G.world.heap.IsForm v name ws) :
    s.world.heap.IsForm v name ws := by
  rw [hs.heap]
  exact hv

theorem Suits.car (hs : Suits G scope ended d s) (h : ListOf G.world.heap v (w :: ws)) :
    car v s = .ok w [] s := by
  rw [read_car, hs.heap, h.car]

theorem Suits.cdr (hs : Suits G scope ended d s) (v : Word) :
    cdr v s = .ok (G.world.heap.cdr v) [] s := by
  rw [read_cdr, hs.heap]

theorem Suits.elt (hs : Suits G scope ended d s) (h : ListOf G.world.heap v ws) {i : ℕ}
    (hi : ws[i]? = some w) : elt v i s = .ok w [] s := by
  rw [read_elt, hs.heap, h.elt hi]

/-! ### Atoms and control flow -/

/-- A value that is compiled to one instruction that loads it. -/
theorem translated_movEax (hbinds : e.binds = []) (h : ∀ s tail, s.world = G.world →
      compileExpression R C v tail s = .ok () [.movEax (.word w)] s)
    (heval : ∀ F ρ, e.eval F ρ = pure w) :
    Translated G scope d (compileExpression R C) v e := by
  intro tail ended _ s hs
  refine ⟨_, s, h s tail hs.world, by rwa [hbinds], ?_⟩
  intro calls back programs F A fr ρ hr
  beta_reduce
  rw [heval]
  exact yields_movEax w

theorem translated_nil (hv : v = nil ∨ G.world.heap.Named v "nil") :
    Translated G scope d (compileExpression R C) v .nil := by
  refine translated_movEax rfl (fun s tail hs => ?_) fun F ρ => by rw [Term.eval]
  rcases hv with rfl | hv
  · simp [compileExpression, bind_of_ok (read_symstreq _ _), nilp, emit]
  · rw [← hs] at hv
    simp [compileExpression, bind_of_ok (read_symstreq _ _), hv.symstreq, emit]

theorem translated_t (hv : G.world.heap.Named v "t") :
    Translated G scope d (compileExpression R C) v .t := by
  refine translated_movEax rfl (fun s tail hs => ?_) fun F ρ => by rw [Term.eval]
  have hnil := (kind_of_symbolp hv.1).1
  rw [← hs] at hv
  simp [compileExpression, bind_of_ok (read_symstreq _ _), hv.symstreq, hnil, emit]

theorem translated_literal (hv : integerp v ∨ stringp v) :
    Translated G scope d (compileExpression R C) v (.literal v) := by
  refine translated_movEax rfl (fun s tail hs => ?_) fun F ρ => by rw [Term.eval]
  obtain ⟨hsym, hnil⟩ := kind_of_literal hv
  simp [compileExpression, bind_of_ok (read_symstreq _ _), symstreq_of_not_symbolp hsym, hnil, hv,
    emit]

theorem translated_quote (hv : G.world.heap.IsForm v "quote" [w]) :
    Translated G scope d (compileExpression R C) v (.quote w) := by
  intro tail ended _ s hs
  refine ⟨[.movEax (.word w)], s, ?_, hs, fun _ _ _ F _ _ ρ _ => ?_⟩
  · refine (hs.compileExpression_of_form (m := compileQuote (G.world.heap.cdr v) 1) hv
      (by simp [compileForm_eq (hs.isForm hv), hs.heap])).trans ?_
    exact (bind_of_ok (read_throwIf (by simp) _ _)).trans ((bind_of_ok (hs.car hv.args)).trans rfl)
  · beta_reduce
    rw [Term.eval]
    exact yields_movEax w

theorem Agrees.find? (h : Agrees fr scope ρ) {u : Variable}
    (hu : (scope.find? fun u => u.name = x) = some u) :
    ∃ w, ρ.look x = pure w ∧ fr.get u = some w := by
  induction h with
  | nil => cases hu
  | @cons u' b scope ρ hub _ ih =>
    obtain ⟨hname, hget⟩ := hub
    by_cases hx : u'.name = x
    · rw [List.find?_cons_of_pos (by simpa using hx)] at hu
      obtain rfl := Option.some.inj hu
      refine ⟨b.2, ?_, hget⟩
      rw [Bindings.look, List.find?_cons_of_pos (by simpa [← hname] using hx)]
    · rw [List.find?_cons_of_neg (by simpa using hx)] at hu
      obtain ⟨w, hlook, hw⟩ := ih hu
      refine ⟨w, ?_, hw⟩
      rw [← hlook, Bindings.look, Bindings.look,
        List.find?_cons_of_neg (by simpa [← hname] using hx)]

/-- The code that loads a variable. -/
theorem yieldsIn_loadCode {u : Variable} (hu : (scope.find? fun u => u.name = x) = some u) :
    YieldsIn G scope d ls tail (fun _ => True) (loadCode u) [] fun _ ρ => ρ.look x := by
  intro calls back programs F A fr ρ hr
  obtain ⟨w, hlook, hget⟩ := hr.agrees.find? hu
  beta_reduce
  rw [hlook]
  unfold Values.get at hget
  unfold loadCode
  cases htype : u.type with
  | argument =>
    rw [htype] at hget
    exact yields_loadArgument hget
  | bound =>
    rw [htype] at hget
    exact yields_loadBound hget
  | global => rw [htype] at hget; cases hget
  | free => rw [htype] at hget; cases hget

theorem translated_var (hv : G.world.heap.Named v x) (hx : x ∉ constants) :
    Translated G scope d (compileExpression R C) v (.var x) := by
  rintro tail ended ⟨hmem, hended⟩ s hs
  simp only [constants, List.mem_cons, List.not_mem_nil, or_false, not_or] at hx
  obtain ⟨hnil, hint, hstr⟩ := kind_of_symbolp hv.1
  obtain ⟨hw, l, rest, hl, hknows⟩ := hs
  rw [← hw] at hv
  have hsymbol : compileExpression R C v tail s = compileSymbol R v s := by
    simp [compileExpression, bind_of_ok (read_symstreq v _), hv.symstreq, hx, hnil, hint, hstr,
      bind_of_ok (read_listp_symbol hv.1), hv.1]
  obtain ⟨u, hu⟩ : ∃ u, (scope.find? fun u => u.name = x) = some u := by
    obtain ⟨u, hu, rfl⟩ := List.mem_map.1 hmem
    exact Option.isSome_iff_exists.1 (List.find?_isSome.2 ⟨u, hu, by simp⟩)
  set s₁ : State := { s with occurrences := s.occurrences ++ [⟨x, s.locals⟩] } with hs₁
  have hlookUp : lookUp x s₁ = .ok (some u) [] s₁ := by
    have hfound : findVariable x s.locals = (some u, s.locals) := by
      rw [hl, findVariable, hknows.finds x hended, hu]
    show Emitted.ok (findVariable x s.locals).1 []
      { s₁ with locals := (findVariable x s.locals).2 } = _
    rw [hfound]
  have hload : compileVariable u s₁ = .ok () (loadCode u) s₁ := by
    unfold compileVariable loadCode
    rcases hknows.own u (List.mem_of_find?_eq_some hu) with htype | htype <;> rw [htype] <;> rfl
  refine ⟨loadCode u, s₁, ?_, ⟨hw, l, rest, hl, hknows⟩, fun _ _ _ _ _ _ _ hr => ?_⟩
  · rw [hsymbol, compileSymbol, bind_of_ok (read_symstreq v _), hv.symstreq,
      if_neg (by simpa using hx.2.2.1), bind_of_ok (read_symstreq v _), hv.symstreq,
      if_neg (by simpa using hx.2.2.2), bind_of_ok (read_symbolName hv)]
    exact (bind_of_ok rfl).trans ((bind_of_ok hlookUp).trans hload)
  · beta_reduce
    rw [Term.eval]
    exact yieldsIn_loadCode hu hr

/-- The forms that `if` chooses from. -/
theorem translated_if {a b : Term} {x y : Word} {zs : List Word}
    (hv : G.world.heap.IsForm v "if" (x :: y :: zs))
    (hx : Translated G scope d C.compileExpression x e)
    (hy : Translated G scope d C.compileExpression y a)
    (hz : zs = [] ∧ b = .nil ∨ ∃ z, zs = [z] ∧ Translated G scope d C.compileExpression z b) :
    Translated G scope d (compileExpression R C) v (.ite e a b) := by
  rintro tail ended ⟨he, ha, hb⟩ s hs
  rw [hs.compileExpression_of_form (m := compileIf C (G.world.heap.cdr v) (x :: y :: zs).length
    tail) hv (by simp [compileForm_eq (hs.isForm hv), hs.heap])]
  have hlen : zs.length ≤ 1 := by
    rcases hz with ⟨rfl, -⟩ | ⟨z, rfl, -⟩ <;> simp
  have hnargs : ¬ ((x :: y :: zs).length < 2 ∨ (x :: y :: zs).length > 3) := by
    simp only [List.length_cons]
    omega
  obtain ⟨c₁, s₁, h₁, hs₁, hc₁⟩ := hx false ended he s hs
  obtain ⟨l, s₂, h₂, hs₂⟩ := hs₁.nextpc
  obtain ⟨l', s₃, h₃, hs₃⟩ := hs₂.nextpc
  obtain ⟨c₂, s₄, h₄, hs₄, hc₂⟩ := hy tail _ ha s₃ hs₃
  have hthird : ∃ c₃ s₅, when ((x :: y :: zs).length = 3) (do
      C.compileExpression (← elt (G.world.heap.cdr v) 2) tail) s₄ = .ok () c₃ s₅ ∧
      Suits G scope (b.binds ++ (a.binds ++ (e.binds ++ ended))) d s₅ ∧
      YieldsIn G scope d (b.lets d) tail (· = .word nil) c₃ [] fun F ρ => b.eval F ρ := by
    rcases hz with ⟨rfl, rfl⟩ | ⟨z, rfl, hz⟩
    · refine ⟨[], s₄, rfl, hs₄, fun _ _ _ F _ _ ρ _ => ?_⟩
      beta_reduce
      rw [Term.eval]
      exact yields_nothing nil
    · obtain ⟨c₃, s₅, h₅, hs₅, hc₃⟩ := hz tail _ hb s₄ hs₄
      refine ⟨c₃, s₅, (bind_of_ok (hs₄.elt hv.args rfl)).trans h₅, hs₅, ?_⟩
      intro _ _ _ F A fr ρ hr P m Q hP hu hat hm _ hx
      exact hc₃ hr hP hu hat hm trivial hx
  obtain ⟨c₃, s₅, h₅, hs₅, hc₃⟩ := hthird
  refine ⟨c₁ ++ [.cmpEaxNil, .je l] ++ c₂ ++ [.jmp l', .label l] ++ c₃ ++ [.label l'], s₅, ?_,
    hs₅.mono fun u hu => ?_, fun _ _ _ F A fr ρ hr => ?_⟩
  · simp only [List.append_assoc]
    refine (bind_of_ok (read_throwIf hnargs _ _)).trans ((bind_of_ok (hs.car hv.args)).trans
      (bind_ok h₁ ?_))
    refine (bind_of_ok h₂).trans ((bind_of_ok h₃).trans (bind_ok rfl ?_))
    exact (bind_of_ok (hs₃.elt hv.args rfl)).trans (bind_ok h₄ (bind_ok rfl (bind_ok h₅ rfl)))
  · simp only [Term.binds, List.mem_append] at hu ⊢
    tauto
  · beta_reduce
    rw [Term.eval]
    rw [Term.lets] at hr
    refine yields_if l l' (hc₁ (hr.mono fun k hk => ?_)) (hc₂ (hr.mono fun k hk => ?_))
      (hc₃ (hr.mono fun k hk => ?_))
    all_goals
      simp only [List.mem_append]
      tauto

/-- The forms `ws` are compiled to code that does what the terms `es` do. -/
abbrev AllTranslated (G : Setting) (scope : List Variable) (d : ℕ) (C : Compiler) :
    List Word → List Term → Prop :=
  List.Forall₂ (Translated G scope d C.compileExpression)

variable (tail) in
/-- The loop of a body. -/
theorem translatedBody_ok (hws : ListOf G.world.heap v ws) (hes : AllTranslated G scope d C ws es)
    (hne : es ≠ []) {n : ℕ} (hn : ws.length < n)
    (hlegal : Term.LegalBody G.takes (scope.map Variable.name) ended es)
    (hs : Suits G scope ended d s) : ∃ c s', forList (fun body => do
        let t := tail && nilp (← cdr body)
        C.compileExpression (← car body) t) n v s = .ok () c s' ∧
      Suits G scope (Term.bindsAll es ++ ended) d s' ∧
      YieldsIn G scope d (Term.letsAll d es) tail (fun _ => True) c []
        fun F ρ => Term.evalProgn F ρ es := by
  induction hes generalizing v s n ended with
  | nil => exact absurd rfl hne
  | @cons w e ws es he hes ih =>
    obtain ⟨n, rfl⟩ := Nat.exists_eq_succ_of_ne_zero (Nat.ne_zero_of_lt hn)
    have hnil : ¬ nilp v = true := by simp [hws.nilp_iff]
    obtain ⟨hlegal₁, hlegal₂⟩ := hlegal
    obtain ⟨c₁, s₁, h₁, hs₁, hc₁⟩ := he (tail && nilp (G.world.heap.cdr v)) ended hlegal₁ s hs
    have hbody : (do
        let t := tail && nilp (← cdr v)
        C.compileExpression (← car v) t : CompileM Unit) s = .ok () c₁ s₁ :=
      (bind_of_ok (hs.cdr v)).trans ((bind_of_ok (hs.car hws)).trans h₁)
    cases es with
    | nil =>
      cases hes
      have hlast : nilp (G.world.heap.cdr v) = true := hws.cdr.nilp_iff.2 rfl
      rw [hlast, Bool.and_true] at hc₁
      refine ⟨c₁ ++ [], s₁, ?_, by simpa using hs₁, fun _ _ _ F A fr ρ hr => ?_⟩
      · rw [forList, if_neg hnil]
        exact bind_ok hbody ((bind_of_ok (hs₁.cdr v)).trans
          (forList_nil hws.cdr (Nat.lt_of_succ_lt_succ hn)))
      · beta_reduce
        rw [List.append_nil, Term.evalProgn_singleton]
        exact hc₁ (by simpa using hr)
    | cons e' es =>
      have hmore : nilp (G.world.heap.cdr v) = false := by
        cases hes
        simp [hws.cdr.nilp_iff, ← Bool.not_eq_true]
      rw [hmore, Bool.and_false] at hc₁
      obtain ⟨c₂, s₂, h₂, hs₂, hc₂⟩ := ih hws.cdr (by simp) (Nat.lt_of_succ_lt_succ hn) hlegal₂ hs₁
      refine ⟨c₁ ++ c₂, s₂, ?_, hs₂.mono fun u hu => ?_, fun _ _ _ F A fr ρ hr => ?_⟩
      · rw [forList, if_neg hnil]
        exact bind_ok hbody ((bind_of_ok (hs₁.cdr v)).trans h₂)
      · rw [Term.bindsAll]
        simp only [List.mem_append] at hu ⊢
        tauto
      · beta_reduce
        rw [Term.letsAll] at hr
        rw [Term.evalProgn_cons]
        exact yields_seq (hc₁ (hr.mono fun k hk => List.mem_append_left _ hk))
          (hc₂ (hr.mono fun k hk => List.mem_append_right _ hk))

theorem translated_progn (hv : G.world.heap.IsForm v "progn" ws)
    (hes : AllTranslated G scope d C ws es) (hne : es ≠ []) (hn : ws.length < C.steps) :
    Translated G scope d (compileExpression R C) v (.progn es) := by
  intro tail ended hlegal s hs
  rw [hs.compileExpression_of_form (m := compileBody C (G.world.heap.cdr v) tail) hv
    (by simp [compileForm_eq (hs.isForm hv), hs.heap])]
  obtain ⟨c, s', h, hs', hc⟩ := translatedBody_ok _ hv.args hes hne hn hlegal hs
  refine ⟨c, s', h, by rwa [Term.binds], fun _ _ _ F A fr ρ hr => ?_⟩
  beta_reduce
  rw [Term.eval]
  exact hc (by rwa [Term.lets] at hr)

/-- The loop of `and` and `or`. -/
theorem translatedBranches_ok (or : Bool) (after : ℕ) (hws : ListOf G.world.heap v ws)
    (hes : AllTranslated G scope d C ws es) (hne : es ≠ []) {n : ℕ} (hn : ws.length < n)
    (hlegal : Term.LegalBody G.takes (scope.map Variable.name) ended es)
    (hs : Suits G scope ended d s) : ∃ c s', forList (fun args => do
        C.compileExpression (← car args) false
        when (!nilp (← cdr args))
          (emit [.cmpEaxNil, if or then .jne after else .je after])) n v s = .ok () c s' ∧
      Suits G scope (Term.bindsAll es ++ ended) d s' ∧
      YieldsIn G scope d (Term.letsAll d es) false (fun _ => True) c [.label after]
        fun F ρ => Term.evalAndOr F ρ or es := by
  induction hes generalizing v s n ended with
  | nil => exact absurd rfl hne
  | @cons w e ws es he hes ih =>
    obtain ⟨n, rfl⟩ := Nat.exists_eq_succ_of_ne_zero (Nat.ne_zero_of_lt hn)
    have hnil : ¬ nilp v = true := by simp [hws.nilp_iff]
    obtain ⟨hlegal₁, hlegal₂⟩ := hlegal
    obtain ⟨c₁, s₁, h₁, hs₁, hc₁⟩ := he false ended hlegal₁ s hs
    have hturn : ∀ {c : Code}, when ((!nilp (G.world.heap.cdr v)) = true)
          (emit [.cmpEaxNil, if or then .jne after else .je after]) s₁ = .ok () c s₁ →
        (do
          C.compileExpression (← car v) false
          when (!nilp (← cdr v)) (emit [.cmpEaxNil, if or then .jne after else .je after]) :
            CompileM Unit) s = .ok () (c₁ ++ c) s₁ :=
      fun h => (bind_of_ok (hs.car hws)).trans (bind_ok h₁ ((bind_of_ok (hs₁.cdr v)).trans h))
    cases es with
    | nil =>
      cases hes
      have hlast : nilp (G.world.heap.cdr v) = true := hws.cdr.nilp_iff.2 rfl
      refine ⟨c₁ ++ [] ++ [], s₁, ?_, by simpa using hs₁,
        fun _ _ _ F A fr ρ hr => ?_⟩
      · rw [forList, if_neg hnil]
        exact bind_ok (hturn (by simp [when, hlast])) ((bind_of_ok (hs₁.cdr v)).trans
          (forList_nil hws.cdr (Nat.lt_of_succ_lt_succ hn)))
      · beta_reduce
        rw [List.append_nil, List.append_nil, Term.evalAndOr_singleton]
        exact hc₁.weaken false [.label after] (by simpa using hr)
    | cons e' es =>
      have hmore : nilp (G.world.heap.cdr v) = false := by
        cases hes
        simp [hws.cdr.nilp_iff, ← Bool.not_eq_true]
      obtain ⟨c₂, s₂, h₂, hs₂, hc₂⟩ := ih hws.cdr (by simp) (Nat.lt_of_succ_lt_succ hn) hlegal₂ hs₁
      refine ⟨c₁ ++ ([.cmpEaxNil, if or then .jne after else .je after] ++ c₂), s₂, ?_,
        hs₂.mono fun u hu => ?_, fun _ _ _ F A fr ρ hr => ?_⟩
      · rw [forList, if_neg hnil, ← List.append_assoc]
        exact bind_ok (hturn (by simp [when, hmore])) ((bind_of_ok (hs₁.cdr v)).trans h₂)
      · rw [Term.bindsAll]
        simp only [List.mem_append] at hu ⊢
        tauto
      · beta_reduce
        rw [Term.letsAll] at hr
        rw [Term.evalAndOr_cons]
        exact decides_then or after (hc₁ (hr.mono fun k hk => List.mem_append_left _ hk))
          (hc₂ (hr.mono fun k hk => List.mem_append_right _ hk))

theorem translated_andOr (or : Bool)
    (hv : G.world.heap.IsForm v (if or then "or" else "and") ws)
    (hes : AllTranslated G scope d C ws es) (hne : es ≠ []) (hn : ws.length < C.steps) :
    Translated G scope d (compileExpression R C) v (.andOr or es) := by
  intro tail ended hlegal s hs
  have heq : compileForm R C v tail s = compileAndOr C (G.world.heap.cdr v) ws.length or s := by
    have hv' := hs.isForm hv
    cases or <;> simp [compileForm_eq hv', hs.heap]
  rw [hs.compileExpression_of_form hv heq]
  have hnargs : ¬ ws.length < 1 := by
    have hpos := List.length_pos_iff.2 hne
    rw [hes.length_eq]
    omega
  obtain ⟨after, s₁, h₁, hs₁⟩ := hs.nextpc
  obtain ⟨c, s₂, h₂, hs₂, hc⟩ := translatedBranches_ok or after hv.args hes hne hn hlegal hs₁
  refine ⟨c ++ [.label after], s₂, ?_, by rwa [Term.binds], fun _ _ _ F A fr ρ hr => ?_⟩
  · exact (bind_of_ok (read_throwIf hnargs _ _)).trans ((bind_of_ok h₁).trans (bind_ok h₂ rfl))
  · beta_reduce
    rw [Term.eval]
    exact yields_andOr (hc (by rwa [Term.lets] at hr))

/-! ### `let1` -/

theorem Local.Lifo.freeSlot {l : Local} (h : l.Lifo) (hd : l.notes.depth = d + 1) :
    (l.freeSlot d).Lifo := by
  obtain ⟨free, hf⟩ := h
  refine ⟨free + 1, ?_⟩
  show l.stackSlots.set d false = List.replicate (l.notes.depth - 1) true ++ _
  rw [hf, hd, List.replicate_succ', List.append_assoc, List.set_append_right _ _ (by simp)]
  simp [List.replicate_succ]

theorem read_localAlloc {l : Local} {rest : List Local} (hl : s.locals = l :: rest) :
    localAlloc s = .ok l.alloc.1 [] { s with locals := l.allocSlot :: rest } := by
  refine (bind_of_ok (read_getLocal hl)).trans ?_
  show Emitted.ok _ _ { s with locals := s.locals.modifyHead Local.allocSlot } = _
  rw [hl]
  rfl

/-- The variable of a `let1` gets the slot whose number is the depth. -/
theorem Local.Knows.enter {l : Local} (h : l.Knows G scope ended d) (x : String) :
    (l.allocSlot.addBinder .bound x d).Knows G (⟨x, d, .bound⟩ :: scope)
      (ended.filter (· ≠ x)) (d + 1) := by
  obtain ⟨-, -, free, hf⟩ := h.lifo.alloc
  obtain ⟨hfirst, hname, hargs⟩ : l.allocSlot.first = l.first ∧
      l.allocSlot.currentFunctionName = l.currentFunctionName ∧ l.allocSlot.args = l.args := by
    unfold Local.allocSlot Local.alloc
    split <;> exact ⟨rfl, rfl, rfl⟩
  refine ⟨hname.trans h.name, hargs.trans h.args, ⟨free, hf⟩, ?_, fun y hy => ?_, ?_⟩
  · show l.notes.depth + 1 = _
    rw [h.depth]
  · show List.find? _ (⟨x, d, .bound⟩ :: l.allocSlot.first) = _
    rw [hfirst]
    by_cases hyx : x = y
    · rw [List.find?_cons_of_pos (by simpa using hyx), List.find?_cons_of_pos (by simpa using hyx)]
    · rw [List.find?_cons_of_neg (by simpa using hyx), List.find?_cons_of_neg (by simpa using hyx)]
      refine h.finds y fun hmem => hy (List.mem_filter.2 ⟨hmem, ?_⟩)
      simpa using Ne.symm hyx
  · intro u hu
    rcases List.mem_cons.1 hu with rfl | hu
    · exact .inr rfl
    · exact h.own u hu

/-- Behind a `let1`, its name has ended. -/
theorem Local.Knows.exit {l : Local} {u : Variable} (h : l.Knows G (u :: scope) ended (d + 1)) :
    ((l.freeSlot d).closeBinder).Knows G scope (u.name :: ended) d := by
  refine ⟨h.name, h.args, h.lifo.freeSlot h.depth, ?_, fun y hy => ?_, fun u' hu' =>
    h.own u' (List.mem_cons_of_mem _ hu')⟩
  · show l.notes.depth - 1 = d
    rw [h.depth, Nat.add_sub_cancel]
  · simp only [List.mem_cons, not_or] at hy
    show l.first.find? _ = _
    rw [h.finds y hy.2, List.find?_cons_of_neg (by simpa using Ne.symm hy.1)]

/-- The variable of a `let1` and its value. -/
theorem Agrees.let1 (h : Agrees fr scope ρ) (x : String) (w : Word) :
    Agrees { fr with slots := fr.slots ++ [w] } (⟨x, fr.slots.length, .bound⟩ :: scope)
      ((x, w) :: ρ) := by
  refine .cons ⟨rfl, List.getElem?_concat_length⟩ (h.imp fun u b ⟨hname, hget⟩ => ⟨hname, ?_⟩)
  unfold Values.get at hget ⊢
  cases htype : u.type with
  | argument => rwa [htype] at hget
  | bound =>
    rw [htype] at hget
    have hlt := (List.getElem?_eq_some_iff.1 hget).1
    exact (List.getElem?_append_left hlt).trans hget
  | global | free => rw [htype] at hget; cases hget

theorem translated_let1 {binding u : Word} (hv : G.world.heap.IsForm v "let1" (binding :: ws))
    (hbinding : ListOf G.world.heap binding [u, w]) (hu : G.world.heap.Named u x)
    (he : Translated G scope d C.compileExpression w e)
    (hes : AllTranslated G (⟨x, d, .bound⟩ :: scope) (d + 1) C ws es) (hne : es ≠ [])
    (hn : ws.length < C.steps) :
    Translated G scope d (compileExpression R C) v (.let1 x e es) := by
  rintro tail ended ⟨hlegal, hlegal'⟩ s hs
  rw [hs.compileExpression_of_form (m := compileLet1 C (G.world.heap.cdr v)
    (binding :: ws).length tail) hv (by simp [compileForm_eq (hs.isForm hv), hs.heap])]
  have hnargs : ¬ (binding :: ws).length < 2 := by
    have hpos := List.length_pos_iff.2 hne
    rw [List.length_cons, hes.length_eq]
    omega
  have hlength : length binding s = .ok 2 [] s := read_length (hs.heap.symm ▸ hbinding)
  obtain ⟨c₁, s₁, h₁, ⟨hw, l, rest, hl, hknows⟩, hc₁⟩ := he false ended hlegal s hs
  have halloc : l.alloc.1 = d := hknows.lifo.alloc.1.trans hknows.depth
  set s₂ : State := { s₁ with locals := l.allocSlot :: rest } with hs₂
  set s₃ : State := { s₁ with locals := l.allocSlot.addBinder .bound x d :: rest } with hs₃
  have h₂ : localAlloc s₁ = .ok d [] s₂ := halloc ▸ read_localAlloc hl
  have hname : symbolName u s₂ = .ok x [] s₂ := by
    refine read_symbolName ?_
    show s₁.world.heap.Named u x
    rwa [hw]
  obtain ⟨c₂, s₄, h₄, ⟨hw₄, l₄, rest₄, hl₄, hknows₄⟩, hc₂⟩ := translatedBody_ok tail
    hv.args.cdr hes hne hn hlegal' (s := s₃) ⟨hw, _, rest, rfl, hknows.enter x⟩
  set s₅ : State := { s₄ with locals := (l₄.freeSlot d).closeBinder :: rest₄ } with hs₅
  have h₅ : (do
      localFree d
      modifyLocal Local.closeBinder : CompileM Unit) s₄ = .ok () [] s₅ := by
    show Emitted.ok _ _ { s₄ with
      locals := (s₄.locals.modifyHead (Local.freeSlot d)).modifyHead Local.closeBinder } = _
    rw [hl₄]
    rfl
  refine ⟨c₁ ++ (.storeBound d :: c₂), s₅, ?_, ?_, fun _ _ _ F A fr ρ hr => ?_⟩
  · refine (bind_of_ok (read_throwIf hnargs _ _)).trans ((bind_of_ok (hs.car hv.args)).trans
      ((bind_of_ok (hs.cdr _)).trans ((bind_of_ok hlength).trans ?_)))
    refine (bind_of_ok (read_throwIf (by simp) _ _)).trans ((bind_of_ok (hs.car hbinding)).trans
      ((bind_of_ok (hs.cdr _)).trans ((bind_of_ok (hs.car hbinding.cdr)).trans (bind_ok h₁ ?_))))
    refine (bind_of_ok h₂).trans ((bind_of_ok hname).trans ((bind_of_ok rfl).trans ?_))
    have hrest := bind_ok (f := fun _ => (do
      localFree d
      modifyLocal Local.closeBinder : CompileM Unit)) h₄ h₅
    rw [List.append_nil] at hrest
    exact bind_ok (c := [.storeBound d]) rfl hrest
  · have hafter : Suits G scope (x :: (Term.bindsAll es ++ (e.binds ++ ended).filter (· ≠ x))) d s₅ :=
      ⟨hw₄, _, rest₄, rfl, hknows₄.exit⟩
    refine hafter.mono fun y hy => ?_
    simp only [List.mem_cons, List.mem_append, List.mem_filter] at hy
    simp only [Term.binds, List.mem_cons, List.mem_append]
    tauto
  · beta_reduce
    rw [Term.eval]
    rw [Term.lets] at hr
    obtain rfl := hr.depth
    refine yields_let1 (hr.reserved _ (by simp))
      (hc₁ (hr.mono fun k hk => List.mem_append_left _ hk)) fun v => ?_
    exact hc₂ ⟨hr.hosts, by simp, hr.agrees.let1 x v, fun k hk => hr.reserved k (by simp [hk])⟩

/-! ### Lists and calls -/

/-- The loop that compiles arguments, from the one at `lo` on. -/
theorem translatedArguments_ok (after : Code) (K : List Term → Code → Prop)
    (hargs : ListOf G.world.heap v ws) (hnil : K [] [])
    (hcons : ∀ e es c c₁, K es c → YieldsIn G scope d (e.lets d) false (fun _ => True) c₁ []
      (fun F ρ => e.eval F ρ) → K (e :: es) (c ++ (c₁ ++ after)))
    (lo : ℕ) {rest : List Word} (hlo : ws.drop lo = us ++ rest)
    (hes : AllTranslated G scope d C us es)
    (hlegal : Term.LegalArguments G.takes (scope.map Variable.name) ended es)
    (hs : Suits G scope ended d s) : ∃ c s', forDown (fun i => do
        C.compileExpression (← elt v i) false
        emit after) lo es.length s = .ok () c s' ∧
      Suits G scope (Term.bindsAll es ++ ended) d s' ∧ K es c := by
  induction hes generalizing lo s with
  | nil => exact ⟨[], s, rfl, hs, hnil⟩
  | @cons w e us es he _ ih =>
    obtain ⟨hlegal, hlegal₁⟩ := hlegal
    have hw : ws[lo]? = some w := by
      rw [← List.head?_drop, hlo]
      rfl
    have hus : ws.drop (lo + 1) = us ++ rest := by
      rw [← List.tail_drop, hlo]
      rfl
    obtain ⟨c, s₁, h, hs₁, hK⟩ := ih (lo + 1) hus hlegal hs
    obtain ⟨c₁, s₂, h₁, hs₂, hc₁⟩ := he false _ hlegal₁ s₁ hs₁
    refine ⟨c ++ (c₁ ++ after), s₂, forDown_ok h ?_, ?_, hcons e es c c₁ hK hc₁⟩
    · exact (bind_of_ok (hs₁.elt hargs hw)).trans (bind_ok h₁ rfl)
    · rwa [Term.bindsAll, List.append_assoc]

/-- The words of `more` are made a list, which is on top of the stack. -/
theorem stacksIn_list (hargs : ListOf G.world.heap v ws) (lo : ℕ) (hlo : ws.drop lo = us)
    (hmore : AllTranslated G scope d C us more)
    (hlegal : Term.LegalArguments G.takes (scope.map Variable.name) ended more)
    (hs : Suits G scope ended d s) : ∃ c s',
      forDown (fun i => do
        C.compileExpression (← Lisp.elt v i) false
        emit consCode) lo more.length s = .ok () c s' ∧
      Suits G scope (Term.bindsAll more ++ ended) d s' ∧
      StacksIn G scope d (Term.letsAll d more) ([.push (.word nil)] ++ c) [] 1
        (fun F ρ => Term.evalList F ρ more) Machine.OnTop := by
  refine translatedArguments_ok consCode (fun es c => StacksIn G scope d (Term.letsAll d es)
      ([.push (.word nil)] ++ c) [] 1 (fun F ρ => Term.evalList F ρ es) Machine.OnTop)
    hargs ?_ ?_ lo (hlo.trans (List.append_nil _).symm) hmore hlegal hs
  · intro _ _ _ F A fr ρ _
    beta_reduce
    rw [Term.evalList]
    exact stacks_push_nil
  · intro e es c c₁ h h₁ _ _ _ F A fr ρ hr
    beta_reduce
    rw [Term.letsAll] at hr
    rw [← List.append_assoc, Term.evalList]
    exact stacks_cons hr.hosts.cons (h (hr.mono fun k hk => List.mem_append_right _ hk))
      (h₁ (hr.mono fun k hk => List.mem_append_left _ hk))

theorem translated_list (hv : G.world.heap.IsForm v "list" ws)
    (hes : AllTranslated G scope d C ws es) :
    Translated G scope d (compileExpression R C) v (.list es) := by
  intro tail ended hlegal s hs
  rw [hs.compileExpression_of_form (m := compileList C (G.world.heap.cdr v) ws.length) hv
    (by simp [compileForm_eq (hs.isForm hv), hs.heap])]
  obtain ⟨c, s₁, h₁, hs₁, hc⟩ := stacksIn_list hv.args 0 List.drop_zero hes hlegal hs
  refine ⟨[.push (.word nil)] ++ c ++ [.popEax], s₁, ?_, by rwa [Term.binds],
    fun _ _ _ F A fr ρ hr => ?_⟩
  · have hargs : compileArguments C (G.world.heap.cdr v) 0 ws.length consCode s = .ok () c s₁ := by
      rw [compileArguments, Nat.sub_zero, hes.length_eq]
      exact h₁
    rw [List.append_assoc]
    exact bind_ok rfl (bind_ok hargs rfl)
  · beta_reduce
    rw [Term.eval]
    rw [Term.lets] at hr
    exact yields_list (hc hr)

/-- The code that passes arguments to a function that is not variadic. -/
theorem passing_ok (hargs : ListOf G.world.heap v ws) (hes : AllTranslated G scope d C ws es)
    (hlegal : Term.LegalArguments G.takes (scope.map Variable.name) ended es)
    (hs : Suits G scope ended d s) : ∃ c s',
      compilePassing C v ws.length ⟨ws.length, [], false⟩ s = .ok () c s' ∧
      Suits G scope (Term.bindsAll es ++ ended) d s' ∧
      StacksIn G scope d (Term.letsAll d es) c [] ws.length
        (fun F ρ => Term.evalArguments F ρ es) (Machine.Passed ws.length) := by
  obtain ⟨c, s₁, h₁, hs₁, hc⟩ := translatedArguments_ok [.pushEax]
    (fun es c => StacksIn G scope d (Term.letsAll d es) c [] es.length
      (fun F ρ => Term.evalArguments F ρ es) (Machine.Passed es.length))
    hargs (fun _ _ _ F A fr ρ _ => by
      beta_reduce
      rw [Term.evalArguments]
      exact stacks_nothing)
    (fun e es c c₁ h h₁ _ _ _ F A fr ρ hr => by
      beta_reduce
      rw [Term.letsAll] at hr
      rw [Term.evalArguments]
      exact stacks_passed (h (hr.mono fun k hk => List.mem_append_right _ hk))
        (h₁ (hr.mono fun k hk => List.mem_append_left _ hk)))
    0 (List.append_nil _).symm hes hlegal hs
  rw [← hes.length_eq] at hc h₁
  refine ⟨c, s₁, ?_, hs₁, hc⟩
  have hsurplus : compileSurplus C v ws.length ⟨ws.length, [], false⟩ s = .ok () [] s := by
    simp [compileSurplus, when]
    rfl
  have hmin : min ws.length (Args.numOptional ⟨ws.length, [], false⟩ + ws.length) - 0 =
      ws.length := by
    simp [Args.numOptional]
  refine (bind_of_ok hsurplus).trans ?_
  rw [compileArguments, hmin]
  exact h₁

theorem stacks_top {xs : Outcome Heap (List Word × Word)}
    (h : Stacks calls back programs A fr c [] 1 xs Machine.OnTop) :
    Stacks calls back programs A fr c [] 1 (do return [(← xs).2]) (Machine.Passed 1) := by
  intro P m Q hP hu hat hm hx
  refine (h hP hu hat hm hx).mono ?_
  rintro s ⟨hself, hwent, r, htop, hQ⟩
  exact ⟨hself, hwent, [r.2], ⟨htop, rfl⟩, hQ⟩

/-- The code that passes arguments to a function that is variadic. -/
theorem passingRest_ok (hargs : ListOf G.world.heap v (ws ++ us))
    (hes : AllTranslated G scope d C ws es) (hmore : AllTranslated G scope d C us more)
    (hlegal : Term.LegalArguments G.takes (scope.map Variable.name) ended more)
    (hlegal' : Term.LegalArguments G.takes (scope.map Variable.name)
      (Term.bindsAll more ++ ended) es) (hs : Suits G scope ended d s) : ∃ c s',
      compilePassing C v (ws ++ us).length ⟨ws.length, [], true⟩ s = .ok () c s' ∧
      Suits G scope (Term.bindsAll es ++ (Term.bindsAll more ++ ended)) d s' ∧
      StacksIn G scope d (Term.letsAll d es ++ Term.letsAll d more) c [] (ws.length + 1)
        (fun F ρ => do
          let r ← Term.evalList F ρ more
          return (← Term.evalArguments F ρ es) ++ [r.2]) (Machine.Passed (ws.length + 1)) := by
  obtain ⟨c, s₁, h₁, hs₁, hc⟩ := stacksIn_list hargs ws.length List.drop_left hmore hlegal hs
  obtain ⟨c', s₂, h₂, hs₂, hc'⟩ := translatedArguments_ok [.pushEax]
    (fun es c' => StacksIn G scope d (Term.letsAll d es ++ Term.letsAll d more)
      ([.push (.word nil)] ++ c ++ c') [] (es.length + 1) (fun F ρ => do
        let r ← Term.evalList F ρ more
        return (← Term.evalArguments F ρ es) ++ [r.2]) (Machine.Passed (es.length + 1)))
    hargs (fun _ _ _ F A fr ρ hr => by
      beta_reduce
      rw [List.append_nil, Term.evalArguments]
      exact stacks_top (hc (by simpa using hr)))
    (fun e es c' c₁ h h₁ _ _ _ F A fr ρ hr => by
      beta_reduce
      rw [Term.letsAll] at hr
      rw [← List.append_assoc, Term.evalArguments]
      refine stacks_passed (h (hr.mono fun k hk => ?_)) (h₁ (hr.mono fun k hk => ?_))
      all_goals
        simp only [List.mem_append] at hk ⊢
        tauto)
    0 rfl hes hlegal' hs₁
  rw [← hes.length_eq] at hc' h₂
  rw [← hmore.length_eq] at h₁
  refine ⟨[.push (.word nil)] ++ c ++ c', s₂, ?_, hs₂, hc'⟩
  have hsurplus : compileSurplus C v (ws ++ us).length ⟨ws.length, [], true⟩ s =
      .ok () ([.push (.word nil)] ++ c) s₁ := by
    have hwhen : when ((ws ++ us).length > Args.numOptional ⟨ws.length, [], true⟩ + ws.length ∧
        true = true) (compileArguments C v (Args.numOptional ⟨ws.length, [], true⟩ + ws.length)
          (ws ++ us).length consCode) s = .ok () c s₁ := by
      have hdiff : (ws ++ us).length - ws.length = us.length := by simp
      simp only [Args.numOptional, List.length_nil, Nat.zero_add, compileArguments, hdiff]
      by_cases hus : us = []
      · subst hus
        rw [when, if_neg (by simp)]
        exact h₁
      · have hpos := List.length_pos_iff.2 hus
        rw [when, if_pos (by simpa using hpos)]
        exact h₁
    have hdefaults : (emit ((([] : List OptionalArgument).drop
        ((ws ++ us).length - ws.length)).reverse.map fun o => .push (.word o.value)) :
          CompileM Unit) s₁ = .ok () [] s₁ := by
      rw [List.drop_nil]
      rfl
    have h := bind_ok (f := fun _ => (emit ((([] : List OptionalArgument).drop
      ((ws ++ us).length - ws.length)).reverse.map fun o => .push (.word o.value)) :
        CompileM Unit)) hwhen hdefaults
    rw [List.append_nil] at h
    exact bind_ok (c := [.push (.word nil)]) rfl h
  have hmin : min (ws ++ us).length (Args.numOptional ⟨ws.length, [], true⟩ + ws.length) - 0 =
      ws.length := by
    simp [Args.numOptional]
  refine bind_ok hsurplus ?_
  rw [compileArguments, hmin]
  exact h₂

variable (tail) in
/-- A call, where the code that passes the words is known.  A call of the function itself in tail
position jumps. -/
theorem call_ok {f : String} {needed : Args} {k : ℕ}
    {xs : Functions → Bindings → Outcome Heap (List Word)} (hf : f ∉ specialForms)
    (hv : G.world.heap.IsForm v f ws) (htakes : G.takes f = some needed)
    (hacceptable : areArgsAcceptable needed ws.length = true) (hk : realNargs needed = k)
    (hs : Suits G scope ended d s)
    (hpass : ∃ c s', compilePassing C (G.world.heap.cdr v) ws.length needed s = .ok () c s' ∧
      Suits G scope ended' d s' ∧ StacksIn G scope d ls c [] k xs (Machine.Passed k)) :
    ∃ c s', compileExpression R C v tail s = .ok () c s' ∧ Suits G scope ended' d s' ∧
      YieldsIn G scope d ls tail (fun _ => True) c [] (fun F ρ => xs F ρ >>= F f) := by
  subst hk
  have ⟨fsym, hfsym, hlist⟩ := hv
  obtain ⟨c, s₁, h₁, hs₁, hc⟩ := hpass
  obtain ⟨l, hl, hknows⟩ := hs.getLocal
  rw [hs.compileExpression_of_form (m := compileCall R C fsym (G.world.heap.cdr v) ws.length tail)
    hv (by
      simp only [specialForms, List.mem_cons, List.not_mem_nil, or_false, not_or] at hf
      simp [compileForm_eq (hs.isForm hv), hs.heap, hlist.car, hf])]
  have hread : symbolName fsym s = .ok f [] s := read_symbolName (hs.heap.symm ▸ hfsym)
  have hfind : findFunction f s =
      .ok (G.world.env.find? fun g => g.name = f) [] s := by
    rw [← hs.world]
    rfl
  have hthrow : ¬ (!areArgsAcceptable needed ws.length) = true := by simp [hacceptable]
  unfold Setting.takes at htakes
  by_cases hself : G.name = some f
  · -- the function itself
    rw [if_pos hself] at htakes
    have hcurrent : l.currentFunctionName = some f := hknows.name.trans hself
    have hargs : l.args = needed := hknows.args.trans (Option.some.inj htakes)
    have hcall : ∀ d₁ : Code, (emit (if tail then tailCall (realNargs needed) else [.callHere]) :
          CompileM Unit) s₁ = .ok () d₁ s₁ →
        compileCall R C fsym (G.world.heap.cdr v) ws.length tail s =
          .ok () (c ++ (d₁ ++ [.addEsp (realNargs needed * 4)])) s₁ := by
      intro d₁ hd₁
      refine (bind_of_ok hread).trans ((bind_of_ok hfind).trans ((bind_of_ok hl).trans ?_))
      simp only [hcurrent, decide_true, if_true, hargs]
      refine (bind_of_ok (read_throwIf hthrow _ _)).trans (bind_ok h₁ (bind_ok hd₁ rfl))
    cases tail with
    | false =>
      refine ⟨_, s₁, hcall [.callHere] rfl, hs₁, fun _ _ _ F A fr ρ hr => ?_⟩
      have hserves := hr.hosts.self f hself
      rw [hr.hosts.count, Option.some.inj htakes] at hserves
      exact yields_program hserves rfl (hc hr)
    | true =>
      refine ⟨_, s₁, hcall (tailCall (realNargs needed)) rfl, hs₁, fun _ _ _ F A fr ρ hr => ?_⟩
      have hcount : A.count = realNargs needed := by
        rw [hr.hosts.count, Option.some.inj htakes]
      rw [← hcount] at hc ⊢
      exact yields_tailCall (hr.hosts.self f hself) hr.hosts.start (hc hr)
  · rw [if_neg hself] at htakes
    obtain ⟨g, hg, htakes⟩ := Option.bind_eq_some_iff.1 htakes
    have hnamespc : g.namespc = .function := by
      by_contra hno
      rw [if_neg hno] at htakes
      cases htakes
    rw [if_pos hnamespc] at htakes
    obtain rfl : g.args = needed := Option.some.inj htakes
    have hother : ¬ l.currentFunctionName = some f := by rwa [hknows.name]
    refine ⟨c ++ [.call (.function g.codePtr), .addEsp (realNargs g.args * 4)], s₁, ?_, hs₁,
      fun calls back programs F A fr ρ hr => ?_⟩
    · rw [hg] at hfind
      refine (bind_of_ok hread).trans ((bind_of_ok hfind).trans ((bind_of_ok hl).trans ?_))
      obtain ⟨gname, gargs, gns, gcode⟩ := g
      obtain rfl : gns = .function := hnamespc
      simp only [hother, decide_false, Bool.false_eq_true, if_false, Option.map_some]
      exact (bind_of_ok (read_throwIf hthrow _ _)).trans (bind_ok h₁ rfl)
    · have hprovides := hr.hosts.others f g hself hg hnamespc
      cases hcode : g.codePtr with
      | program j =>
        rw [hcode] at hprovides
        exact yields_program hprovides rfl (hc hr)
      | builtin name =>
        rw [hcode] at hprovides
        exact yields_builtin hprovides rfl (hc hr)

theorem translated_call {f : String} (hf : f ∉ specialForms) (hv : G.world.heap.IsForm v f ws)
    (hes : AllTranslated G scope d C ws es) :
    Translated G scope d (compileExpression R C) v (.call f es) := by
  rintro tail ended ⟨htakes, hlegal⟩ s hs
  rw [← hes.length_eq] at htakes
  have hk : realNargs ⟨ws.length, [], false⟩ = ws.length := by simp [realNargs, Args.numOptional]
  obtain ⟨c, s', h, hs', hc⟩ := call_ok (R := R) tail hf hv htakes
    (by simp [areArgsAcceptable, Args.numOptional]) hk hs (passing_ok hv.args hes hlegal hs)
  refine ⟨c, s', h, by rwa [Term.binds], fun _ _ _ F A fr ρ hr => ?_⟩
  beta_reduce
  rw [Term.eval]
  exact hc (by rwa [Term.lets] at hr)

theorem translated_callRest {f : String} (hf : f ∉ specialForms)
    (hv : G.world.heap.IsForm v f (ws ++ us)) (hes : AllTranslated G scope d C ws es)
    (hmore : AllTranslated G scope d C us more) :
    Translated G scope d (compileExpression R C) v (.callRest f es more) := by
  rintro tail ended ⟨htakes, hlegal, hlegal'⟩ s hs
  rw [← hes.length_eq] at htakes
  have hk : realNargs ⟨ws.length, [], true⟩ = ws.length + 1 := by simp [realNargs, Args.numOptional]
  obtain ⟨c, s', h, hs', hc⟩ := call_ok (R := R) tail hf hv htakes
    (by simp [areArgsAcceptable]) hk hs (passingRest_ok hv.args hes hmore hlegal hlegal' hs)
  refine ⟨c, s', h, hs'.mono fun u hu => ?_, fun _ _ _ F A fr ρ hr => ?_⟩
  · simp only [Term.binds, List.mem_append] at hu ⊢
    tauto
  · beta_reduce
    rw [Term.eval]
    exact hc (by rwa [Term.lets] at hr)

/-! ### All forms -/

/-- What is translated with the functions for smaller forms, if these have enough fuel. -/
theorem translated_of_smaller {H : Heap} (N : ℕ) (h : ∀ n ≥ N, ∀ G : Setting, G.world.heap = H →
      ∀ scope d, Translated G scope d (compileExpression R (compiler R n)) v e) :
    ∃ N, ∀ n ≥ N, ∀ G : Setting, G.world.heap = H →
      ∀ scope d, Translated G scope d (compiler R n).compileExpression v e := by
  refine ⟨N + 1, fun n hn => ?_⟩
  obtain ⟨n, rfl⟩ := Nat.exists_eq_succ_of_ne_zero (Nat.ne_zero_of_lt hn)
  exact h n (Nat.le_of_succ_le_succ hn)

mutual

/-- With enough fuel, a form is compiled to code that does what its term does.  How much is enough
does not depend on the functions that there are. -/
theorem translated_of_spells {H : Heap} (R : Runtime) : ∀ (e : Term) {v : Word}, H.Spells v e →
    ∃ N, ∀ n ≥ N, ∀ G : Setting, G.world.heap = H →
      ∀ scope d, Translated G scope d (compiler R n).compileExpression v e
  | .nil, v, hv => translated_of_smaller 0 fun n _ G hG scope d => translated_nil (hG ▸ hv)
  | .t, v, hv => translated_of_smaller 0 fun n _ G hG scope d => translated_t (hG ▸ hv)
  | .literal w, v, ⟨hvw, hv⟩ => translated_of_smaller 0 fun n _ G _ scope d =>
    hvw ▸ translated_literal hv
  | .quote w, v, ⟨hv, _⟩ => translated_of_smaller 0 fun n _ G hG scope d =>
    translated_quote (hG ▸ hv)
  | .var x, v, ⟨hv, hx⟩ => translated_of_smaller 0 fun n _ G hG scope d =>
    translated_var (hG ▸ hv) hx
  | .ite e a b, v, hv => by
    obtain ⟨x, y, hx, hy, hz⟩ := hv
    obtain ⟨N₁, hN₁⟩ := translated_of_spells R e hx
    obtain ⟨N₂, hN₂⟩ := translated_of_spells R a hy
    rcases hz with ⟨z, hv, hz⟩ | ⟨hv, rfl⟩
    · obtain ⟨N₃, hN₃⟩ := translated_of_spells R b hz
      refine translated_of_smaller (max N₁ (max N₂ N₃)) fun n hn G hG scope d => ?_
      simp only [ge_iff_le, max_le_iff] at hn
      exact translated_if (hG ▸ hv) (hN₁ n hn.1 G hG _ _) (hN₂ n hn.2.1 G hG _ _)
        (.inr ⟨z, rfl, hN₃ n hn.2.2 G hG _ _⟩)
    · refine translated_of_smaller (max N₁ N₂) fun n hn G hG scope d => ?_
      simp only [ge_iff_le, max_le_iff] at hn
      exact translated_if (hG ▸ hv) (hN₁ n hn.1 G hG _ _) (hN₂ n hn.2 G hG _ _) (.inl ⟨rfl, rfl⟩)
  | .andOr or es, v, hv => by
    obtain ⟨ws, hv, hws, hne⟩ := hv
    obtain ⟨N, hN⟩ := allTranslated_of_spells R es hws
    refine translated_of_smaller (max N (ws.length + 1)) fun n hn G hG scope d => ?_
    simp only [ge_iff_le, max_le_iff] at hn
    exact translated_andOr or (hG ▸ hv) (hN n hn.1 G hG _ _) hne (by rw [compiler_steps]; omega)
  | .progn es, v, hv => by
    obtain ⟨ws, hv, hws, hne⟩ := hv
    obtain ⟨N, hN⟩ := allTranslated_of_spells R es hws
    refine translated_of_smaller (max N (ws.length + 1)) fun n hn G hG scope d => ?_
    simp only [ge_iff_le, max_le_iff] at hn
    exact translated_progn (hG ▸ hv) (hN n hn.1 G hG _ _) hne (by rw [compiler_steps]; omega)
  | .let1 x e es, v, hv => by
    obtain ⟨binding, u, w, ws, hv, hbinding, hu, hw, hws, hne⟩ := hv
    obtain ⟨N, hN⟩ := translated_of_spells R e hw
    obtain ⟨N', hN'⟩ := allTranslated_of_spells R es hws
    refine translated_of_smaller (max N (max N' (ws.length + 1))) fun n hn G hG scope d => ?_
    simp only [ge_iff_le, max_le_iff] at hn
    exact translated_let1 (hG ▸ hv) (hG ▸ hbinding) (hG ▸ hu) (hN n hn.1 G hG _ _)
      (hN' n hn.2.1 G hG _ _) hne (by rw [compiler_steps]; omega)
  | .list es, v, hv => by
    obtain ⟨ws, hv, hws⟩ := hv
    obtain ⟨N, hN⟩ := allTranslated_of_spells R es hws
    exact translated_of_smaller N fun n hn G hG scope d =>
      translated_list (hG ▸ hv) (hN n hn G hG _ _)
  | .call f es, v, hv => by
    obtain ⟨hf, ws, hv, hws⟩ := hv
    obtain ⟨N, hN⟩ := allTranslated_of_spells R es hws
    exact translated_of_smaller N fun n hn G hG scope d =>
      translated_call hf (hG ▸ hv) (hN n hn G hG _ _)
  | .callRest f es more, v, hv => by
    obtain ⟨hf, ws, us, hv, hws, hus⟩ := hv
    obtain ⟨N, hN⟩ := allTranslated_of_spells R es hws
    obtain ⟨N', hN'⟩ := allTranslated_of_spells R more hus
    refine translated_of_smaller (max N N') fun n hn G hG scope d => ?_
    simp only [ge_iff_le, max_le_iff] at hn
    exact translated_callRest hf (hG ▸ hv) (hN n hn.1 G hG _ _) (hN' n hn.2 G hG _ _)

theorem allTranslated_of_spells {H : Heap} (R : Runtime) : ∀ (es : List Term) {ws : List Word},
    H.SpellsAll ws es → ∃ N, ∀ n ≥ N, ∀ G : Setting, G.world.heap = H →
      ∀ scope d, AllTranslated G scope d (compiler R n) ws es
  | [], ws, hws => ⟨0, fun n _ G _ scope d => by
    obtain rfl : ws = [] := hws
    exact .nil⟩
  | e :: es, ws, hws => by
    obtain ⟨w, ws', rfl, he, hes⟩ := hws
    obtain ⟨N, hN⟩ := translated_of_spells R e he
    obtain ⟨N', hN'⟩ := allTranslated_of_spells R es hes
    exact ⟨max N N', fun n hn G hG scope d => .cons (hN n (le_of_max_le_left hn) G hG _ _)
      (hN' n (le_of_max_le_right hn) G hG _ _)⟩

end

end Suits

end Lisp

end Bluejay
