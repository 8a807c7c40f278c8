import Bluejay.Lisp.Execution
import Bluejay.Lisp.Sexp

/-!
# The control-flow fragment is compiled correctly

* `Fits Γ s` : the compiler is in the context `Γ`.
* `CompilesTo compile v x` : `compile` compiles the form `v` to code that computes `x`.
* `compilesTo_if`, `compilesTo_andOr`, `compilesTo_list`, … : one for each kind of form.
* `compileExpression_correct` : all of them together, for forms of any depth.
-/

namespace Bluejay

namespace Lisp

open Emitter

/-! ### Compiling forms -/

section Forms

variable {R : Runtime} {C : Compiler} {s : State} {v w : Word} {ws : List Word} {name : String}
  {tail : Bool}

theorem read_car (v : Word) : car v s = .ok (s.world.heap.car v) [] s := rfl

theorem read_cdr (v : Word) : cdr v s = .ok (s.world.heap.cdr v) [] s := rfl

theorem read_elt (v : Word) (i : ℕ) : elt v i s = .ok (s.world.heap.elt v i) [] s := rfl

theorem read_symstreq (v : Word) (str : String) :
    symstreq v str s = .ok (s.world.heap.symstreq v str) [] s := rfl

theorem read_getHeap : getHeap s = .ok s.world.heap [] s := rfl

theorem read_length (h : ListOf s.world.heap v ws) : length v s = .ok ws.length [] s := by
  unfold length
  rw [bind_of_ok read_getHeap, h.length]
  rfl

theorem read_listp (h : ListOf s.world.heap v ws) : listp v s = .ok true [] s := by
  unfold listp
  rw [bind_of_ok read_getHeap, h.listp]
  rfl

theorem read_symbolName (h : s.world.heap.Named v name) : symbolName v s = .ok name [] s := by
  unfold symbolName
  rw [bind_of_ok read_getHeap, h.1, h.2]
  rfl

theorem Heap.Named.symstreq {H : Heap} (h : H.Named v name) (str : String) :
    H.symstreq v str = decide (name = str) := by
  simp [Heap.symstreq, h.1, h.2]

theorem symstreq_of_not_symbolp {H : Heap} (h : symbolp v = false) (str : String) :
    H.symstreq v str = false := by
  simp [Heap.symstreq, h]

theorem run_ite {α : Type} {p : Prop} [Decidable p] {m m' : CompileM α} :
    (if p then m else m') s = if p then m s else m' s := by
  split_ifs <;> rfl

theorem read_throwIf {p : Prop} [Decidable p] (hp : ¬ p) (e : ErrorCode) (msg : String) :
    throwIf p e msg s = .ok () [] s := by
  simp [throwIf, when, hp]

/-- A cell is not a value of another kind. -/
theorem kind_of_consp {v : ℕ} (h : consp v = true) : symbolp v = false ∧ nilp v = false ∧
    integerp v = false ∧ stringp v = false := by
  have h8 : v % 8 = 1 := of_decide_eq_true h
  exact ⟨decide_eq_false (show ¬ v % 8 = 5 by omega), decide_eq_false (show ¬ v = 47 by omega),
    decide_eq_false (show ¬ v % 4 = 0 by omega), decide_eq_false (show ¬ v % 8 = 3 by omega)⟩

/-- A list that is not empty is compiled as a form. -/
theorem compileExpression_of_list (h : ListOf s.world.heap v (w :: ws)) :
    compileExpression R C v tail s = compileForm R C v tail s := by
  obtain ⟨hsym, hnil, hint, hstr⟩ := kind_of_consp h.1
  simp [compileExpression, bind_of_ok (read_symstreq v _), bind_of_ok (read_listp h),
    symstreq_of_not_symbolp hsym, hnil, hint, hstr]

/-- The head of a form says how it is compiled. -/
theorem compileForm_of_head {k : ℕ} (hf : s.world.heap.Named (s.world.heap.car v) name)
    (hlen : s.world.heap.length (s.world.heap.cdr v) = some k) : compileForm R C v tail s =
    (if name = "if" then compileIf C (s.world.heap.cdr v) k tail
    else if name = "and" then compileAndOr C (s.world.heap.cdr v) k false
    else if name = "or" then compileAndOr C (s.world.heap.cdr v) k true
    else if name = "progn" then compileBody C (s.world.heap.cdr v) tail
    else if name = "let1" then compileLet1 C (s.world.heap.cdr v) k tail
    else if name = "gc" then compileGc k
    else if name = "quote" then compileQuote (s.world.heap.cdr v) k
    else if name = "backquote" then compileBackquoteForm C (s.world.heap.cdr v) k
    else if name = "function" then compileFunctionForm R (s.world.heap.cdr v) k
    else if name = "list" then compileList C (s.world.heap.cdr v) k
    else if name = "lambda" then compileLambda C (s.world.heap.cdr v)
    else if name = "eval" then compileEval C (s.world.heap.cdr v) k
    else if name = "load" then compileLoad C (s.world.heap.cdr v) k
    else compileCall R C (s.world.heap.car v) (s.world.heap.cdr v) k tail) s := by
  have hsymbol : ¬ (!symbolp (s.world.heap.car v)) = true := by simp [hf.1]
  have hlength : length (s.world.heap.cdr v) s = .ok k [] s := by
    rw [length, bind_of_ok read_getHeap, hlen]
    rfl
  simp only [compileForm, bind_of_ok (read_car v), bind_of_ok (read_cdr v), bind_of_ok hlength,
    bind_of_ok (read_throwIf hsymbol _ _), bind_of_ok (read_symstreq _ _), hf.symstreq,
    decide_eq_true_eq, run_ite]

theorem compileForm_eq (h : s.world.heap.IsForm v name ws) : compileForm R C v tail s =
    (if name = "if" then compileIf C (s.world.heap.cdr v) ws.length tail
    else if name = "and" then compileAndOr C (s.world.heap.cdr v) ws.length false
    else if name = "or" then compileAndOr C (s.world.heap.cdr v) ws.length true
    else if name = "progn" then compileBody C (s.world.heap.cdr v) tail
    else if name = "let1" then compileLet1 C (s.world.heap.cdr v) ws.length tail
    else if name = "gc" then compileGc ws.length
    else if name = "quote" then compileQuote (s.world.heap.cdr v) ws.length
    else if name = "backquote" then compileBackquoteForm C (s.world.heap.cdr v) ws.length
    else if name = "function" then compileFunctionForm R (s.world.heap.cdr v) ws.length
    else if name = "list" then compileList C (s.world.heap.cdr v) ws.length
    else if name = "lambda" then compileLambda C (s.world.heap.cdr v)
    else if name = "eval" then compileEval C (s.world.heap.cdr v) ws.length
    else if name = "load" then compileLoad C (s.world.heap.cdr v) ws.length
    else compileCall R C (s.world.heap.car v) (s.world.heap.cdr v) ws.length tail) s := by
  obtain ⟨f, hf, hlist⟩ := h
  have hcar : s.world.heap.car v = f := hlist.car
  exact compileForm_of_head (hcar ▸ hf) (ListOf.length hlist.cdr)

end Forms

/-! ### Correctness -/

/-- The compiler is in the context `Γ`. -/
structure Fits (Γ : Context) (s : State) : Prop where
  heap : s.world.heap = Γ.heap
  env : s.world.env = Γ.env
  locals : ∃ l rest, s.locals = l :: rest ∧ l.first = Γ.first ∧ l.currentFunctionName = Γ.name

section Correctness

variable {calls : Val → Machine → Machine → Prop} {F : CodePtr → List Word → Outcome Heap Word}
  {arguments : ℕ → Word} {Γ : Context} {R : Runtime} {C : Compiler} {s : State} {v w : Word}
  {ws : List Word} {name : String}

/-- The forms that `compile` compiles to code that computes `x`. -/
def CompilesTo (calls : Val → Machine → Machine → Prop) (arguments : ℕ → Word) (Γ : Context)
    (compile : Word → Bool → CompileM Unit) (v : Word) (x : Outcome Heap Word) : Prop :=
  ∀ s, Fits Γ s → ∃ c s', compile v false s = .ok () c s' ∧ Fits Γ s' ∧
    Computes calls Γ.count arguments c x

theorem Fits.modifyHead (h : Fits Γ s) {g : Local → Local} (hf : ∀ l, (g l).first = l.first)
    (hn : ∀ l, (g l).currentFunctionName = l.currentFunctionName) :
    Fits Γ { s with locals := s.locals.modifyHead g } := by
  obtain ⟨hheap, henv, l, rest, hl, hfirst, hname⟩ := h
  exact ⟨hheap, henv, g l, rest, by rw [hl]; rfl, by rw [hf, hfirst], by rw [hn, hname]⟩

theorem Fits.getLocal (h : Fits Γ s) : ∃ l, getLocal s = .ok l [] s ∧ l.first = Γ.first ∧
    l.currentFunctionName = Γ.name := by
  obtain ⟨l, rest, hl, hfirst, hname⟩ := h.locals
  refine ⟨l, ?_, hfirst, hname⟩
  refine (bind_of_ok (rfl : get s = .ok s [] s)).trans ?_
  rw [hl]
  rfl

theorem Fits.nextpc (h : Fits Γ s) : ∃ l s', nextpc s = .ok l [] s' ∧ Fits Γ s' := by
  obtain ⟨l, hl, -⟩ := h.getLocal
  refine ⟨l.nextpc, _, ?_, h.modifyHead (g := Local.nextLabel) (fun _ => rfl) fun _ => rfl⟩
  exact (bind_of_ok hl).trans (bind_of_ok rfl)

/-- Forms with a head of their own are compiled by the functions for them. -/
theorem CompilesTo.of_form {m : CompileM Unit} {x : Outcome Heap Word}
    (hv : Γ.heap.IsForm v name ws)
    (heq : ∀ s, Fits Γ s → compileForm R C v false s = m s)
    (hm : ∀ s, Fits Γ s → ∃ c s', m s = .ok () c s' ∧ Fits Γ s' ∧
      Computes calls Γ.count arguments c x) :
    CompilesTo calls arguments Γ (compileExpression R C) v x := by
  intro s hs
  obtain ⟨f, -, hlist⟩ := hv
  rw [← hs.heap] at hlist
  rw [compileExpression_of_list hlist, heq s hs]
  exact hm s hs

theorem Fits.isForm (h : Fits Γ s) (hv : Γ.heap.IsForm v name ws) :
    s.world.heap.IsForm v name ws := by
  rw [h.heap]
  exact hv

/-- The arguments of a form. -/
theorem Heap.IsForm.args {H : Heap} (h : H.IsForm v name ws) : ListOf H (H.cdr v) ws := by
  obtain ⟨f, -, hlist⟩ := h
  exact hlist.cdr

theorem compilesTo_if {x y : Word} {zs : List Word} {X Y Z : Outcome Heap Word}
    (hv : Γ.heap.IsForm v "if" (x :: y :: zs))
    (hx : CompilesTo calls arguments Γ C.compileExpression x X)
    (hy : CompilesTo calls arguments Γ C.compileExpression y Y)
    (hz : zs = [] ∧ Z = pure nil ∨
      ∃ z, zs = [z] ∧ CompilesTo calls arguments Γ C.compileExpression z Z) :
    CompilesTo calls arguments Γ (compileExpression R C) v (do if (← X) = nil then Z else Y) := by
  refine .of_form (m := compileIf C (Γ.heap.cdr v) (x :: y :: zs).length false) hv
    (fun s hs => by simp [compileForm_eq (hs.isForm hv), hs.heap]) fun s hs => ?_
  have hlen : zs.length ≤ 1 := by
    rcases hz with ⟨rfl, -⟩ | ⟨z, rfl, -⟩ <;> simp
  have hnargs : ¬ ((x :: y :: zs).length < 2 ∨ (x :: y :: zs).length > 3) := by
    simp only [List.length_cons]
    omega
  obtain ⟨c₁, s₁, h₁, hs₁, hc₁⟩ := hx s hs
  obtain ⟨l, s₂, h₂, hs₂⟩ := hs₁.nextpc
  obtain ⟨l', s₃, h₃, hs₃⟩ := hs₂.nextpc
  obtain ⟨c₂, s₄, h₄, hs₄, hc₂⟩ := hy s₃ hs₃
  have hcar : car (Γ.heap.cdr v) s = .ok x [] s := by
    rw [read_car, hs.heap, hv.args.car]
  have helt : ∀ {s i w}, Fits Γ s → (x :: y :: zs)[i]? = some w →
      elt (Γ.heap.cdr v) i s = .ok w [] s := by
    intro s i w hs hi
    rw [read_elt, hs.heap, hv.args.elt hi]
  have hthird : ∃ c₃ s₅, when ((x :: y :: zs).length = 3) (do
      C.compileExpression (← elt (Γ.heap.cdr v) 2) false) s₄ = .ok () c₃ s₅ ∧ Fits Γ s₅ ∧
      Does calls Γ.count arguments (· = .word nil) c₃ [] 0 Z Machine.InEax := by
    rcases hz with ⟨rfl, rfl⟩ | ⟨z, rfl, hz⟩
    · refine ⟨[], s₄, rfl, hs₄, ?_⟩
      intro P m Q hu hat hm hpre hx
      exact .now ⟨.refl m, nil, hpre, hx⟩
    · obtain ⟨c₃, s₅, h₅, hs₅, hc₃⟩ := hz s₄ hs₄
      refine ⟨c₃, s₅, (bind_of_ok (helt hs₄ rfl)).trans h₅, hs₅, ?_⟩
      intro P m Q hu hat hm _ hx
      exact hc₃ hu hat hm trivial hx
  obtain ⟨c₃, s₅, h₅, hs₅, hc₃⟩ := hthird
  refine ⟨_, s₅, ?_, hs₅, computes_if l l' hc₁ hc₂ hc₃⟩
  simp only [List.append_assoc]
  refine (bind_of_ok (read_throwIf hnargs _ _)).trans ((bind_of_ok hcar).trans (bind_ok h₁ ?_))
  refine (bind_of_ok h₂).trans ((bind_of_ok h₃).trans (bind_ok rfl ?_))
  exact (bind_of_ok (helt hs₃ rfl)).trans (bind_ok h₄ (bind_ok rfl (bind_ok h₅ rfl)))

/-- The forms `ws` are compiled to code that computes the expressions `es`. -/
abbrev AllCompile (calls : Val → Machine → Machine → Prop)
    (F : CodePtr → List Word → Outcome Heap Word) (arguments : ℕ → Word) (Γ : Context)
    (C : Compiler) : List Word → List Expr → Prop :=
  List.Forall₂ fun w e => CompilesTo calls arguments Γ C.compileExpression w (eval F arguments e)

/-- A loop that has come to the end of its list. -/
theorem forList_nil {H : Heap} {body : Word → CompileM Unit} {n : ℕ} (h : ListOf H v [])
    (hn : 0 < n) : forList body n v s = .ok () [] s := by
  obtain ⟨n, rfl⟩ := Nat.exists_eq_succ_of_ne_zero hn.ne'
  rw [forList, if_pos (h.nilp_iff.2 rfl)]
  rfl

/-- The loop of `progn`. -/
theorem compileBody_ok {es : List Expr} (hws : ListOf Γ.heap v ws)
    (hes : AllCompile calls F arguments Γ C ws es) (hne : es ≠ []) {n : ℕ} (hn : ws.length < n)
    (hs : Fits Γ s) : ∃ c s', forList (fun body => do
        let t := false && nilp (← cdr body)
        C.compileExpression (← car body) t) n v s = .ok () c s' ∧ Fits Γ s' ∧
      Computes calls Γ.count arguments c (evalProgn F arguments es) := by
  induction hes generalizing v s n with
  | nil => exact absurd rfl hne
  | @cons w e ws es he hes ih =>
    obtain ⟨n, rfl⟩ := Nat.exists_eq_succ_of_ne_zero (Nat.ne_zero_of_lt hn)
    have hnil : ¬ nilp v = true := by simp [hws.nilp_iff]
    have hcar : ∀ {s}, Fits Γ s → car v s = .ok w [] s := by
      intro s hs
      rw [read_car, hs.heap, hws.car]
    have hcdr : ∀ {s}, Fits Γ s → cdr v s = .ok (Γ.heap.cdr v) [] s := by
      intro s hs
      rw [read_cdr, hs.heap]
    obtain ⟨c₁, s₁, h₁, hs₁, hc₁⟩ := he s hs
    have hbody : (do
        let t := false && nilp (← cdr v)
        C.compileExpression (← car v) t : CompileM Unit) s = .ok () c₁ s₁ :=
      (bind_of_ok (hcdr hs)).trans ((bind_of_ok (hcar hs)).trans h₁)
    cases es with
    | nil =>
      cases hes
      refine ⟨c₁ ++ [], s₁, ?_, hs₁, by rwa [List.append_nil, evalProgn_single]⟩
      rw [forList, if_neg hnil]
      refine bind_ok hbody ((bind_of_ok (hcdr hs₁)).trans ?_)
      exact forList_nil hws.cdr (Nat.lt_of_succ_lt_succ hn)
    | cons e' es =>
      obtain ⟨c₂, s₂, h₂, hs₂, hc₂⟩ := ih hws.cdr (by simp) (Nat.lt_of_succ_lt_succ hn) hs₁
      rw [evalProgn_cons]
      refine ⟨c₁ ++ c₂, s₂, ?_, hs₂, computes_seq hc₁ hc₂⟩
      rw [forList, if_neg hnil]
      exact bind_ok hbody ((bind_of_ok (hcdr hs₁)).trans h₂)

/-- The loop of `and` and `or`. -/
theorem compileBranches_ok {es : List Expr} (or : Bool) (after : ℕ) (hws : ListOf Γ.heap v ws)
    (hes : AllCompile calls F arguments Γ C ws es) (hne : es ≠ []) {n : ℕ} (hn : ws.length < n)
    (hs : Fits Γ s) : ∃ c s', forList (fun args => do
        C.compileExpression (← car args) false
        when (!nilp (← cdr args))
          (emit [.cmpEaxNil, if or then .jne after else .je after])) n v s = .ok () c s' ∧
      Fits Γ s' ∧ Does calls Γ.count arguments (fun _ => True) c [.label after] 0
        (evalAndOr F arguments or es) Machine.InEax := by
  induction hes generalizing v s n with
  | nil => exact absurd rfl hne
  | @cons w e ws es he hes ih =>
    obtain ⟨n, rfl⟩ := Nat.exists_eq_succ_of_ne_zero (Nat.ne_zero_of_lt hn)
    have hnil : ¬ nilp v = true := by simp [hws.nilp_iff]
    have hcar : car v s = .ok w [] s := by rw [read_car, hs.heap, hws.car]
    have hcdr : ∀ {s}, Fits Γ s → cdr v s = .ok (Γ.heap.cdr v) [] s := by
      intro s hs
      rw [read_cdr, hs.heap]
    obtain ⟨c₁, s₁, h₁, hs₁, hc₁⟩ := he s hs
    have hturn : ∀ {c : Code}, when ((!nilp (Γ.heap.cdr v)) = true)
          (emit [.cmpEaxNil, if or then .jne after else .je after]) s₁ = .ok () c s₁ →
        (do
          C.compileExpression (← car v) false
          when (!nilp (← cdr v)) (emit [.cmpEaxNil, if or then .jne after else .je after]) :
            CompileM Unit) s = .ok () (c₁ ++ c) s₁ :=
      fun h => (bind_of_ok hcar).trans (bind_ok h₁ ((bind_of_ok (hcdr hs₁)).trans h))
    cases es with
    | nil =>
      cases hes
      have hlast : nilp (Γ.heap.cdr v) = true := hws.cdr.nilp_iff.2 rfl
      refine ⟨c₁ ++ [] ++ [], s₁, ?_, hs₁, ?_⟩
      · rw [forList, if_neg hnil]
        exact bind_ok (hturn (by simp [when, hlast])) ((bind_of_ok (hcdr hs₁)).trans
          (forList_nil hws.cdr (Nat.lt_of_succ_lt_succ hn)))
      · simpa [evalAndOr_single] using hc₁.weaken [.label after]
    | cons e' es =>
      have hmore : nilp (Γ.heap.cdr v) = false := by
        cases hes
        simp [hws.cdr.nilp_iff, ← Bool.not_eq_true]
      obtain ⟨c₂, s₂, h₂, hs₂, hc₂⟩ := ih hws.cdr (by simp) (Nat.lt_of_succ_lt_succ hn) hs₁
      rw [evalAndOr_cons]
      refine ⟨_, s₂, ?_, hs₂, decides_cons or after hc₁ hc₂⟩
      rw [forList, if_neg hnil, ← List.append_assoc]
      exact bind_ok (hturn (by simp [when, hmore])) ((bind_of_ok (hcdr hs₁)).trans h₂)

/-- The loop that compiles arguments, from the one at `lo` on. -/
theorem compileArguments_ok {α : Type} (x : α → Outcome Heap Word) (after : Code)
    (P : List α → Code → Prop) {as : List α} {us rest : List Word} (hargs : ListOf Γ.heap v ws)
    (hnil : P [] []) (hcons : ∀ a as c c₁, P as c → Computes calls Γ.count arguments c₁ (x a) →
      P (a :: as) (c ++ (c₁ ++ after)))
    (lo : ℕ) (hlo : ws.drop lo = us ++ rest)
    (has : List.Forall₂ (fun w a => CompilesTo calls arguments Γ C.compileExpression w (x a)) us as)
    (hs : Fits Γ s) : ∃ c s', forDown (fun i => do
        C.compileExpression (← elt v i) false
        emit after) lo as.length s = .ok () c s' ∧ Fits Γ s' ∧ P as c := by
  induction has generalizing lo s with
  | nil => exact ⟨[], s, rfl, hs, hnil⟩
  | @cons w a us as ha _ ih =>
    have hw : ws[lo]? = some w := by
      rw [← List.head?_drop, hlo]
      rfl
    have hus : ws.drop (lo + 1) = us ++ rest := by
      rw [← List.tail_drop, hlo]
      rfl
    obtain ⟨c, s₁, h, hs₁, hP⟩ := ih (lo + 1) hus hs
    obtain ⟨c₁, s₂, h₁, hs₂, hc₁⟩ := ha s₁ hs₁
    have helt : elt v lo s₁ = .ok w [] s₁ := by rw [read_elt, hs₁.heap, hargs.elt hw]
    refine ⟨c ++ (c₁ ++ after), s₂, forDown_ok h ?_, hs₂, hcons a as c c₁ hP hc₁⟩
    exact (bind_of_ok helt).trans (bind_ok h₁ rfl)

theorem AllCompile.length_eq {es : List Expr} (h : AllCompile calls F arguments Γ C ws es) :
    ws.length = es.length :=
  List.Forall₂.length_eq h

theorem compilesTo_progn {es : List Expr} (hv : Γ.heap.IsForm v "progn" ws)
    (hes : AllCompile calls F arguments Γ C ws es) (hne : es ≠ []) (hn : ws.length < C.steps) :
    CompilesTo calls arguments Γ (compileExpression R C) v (evalProgn F arguments es) :=
  .of_form (m := compileBody C (Γ.heap.cdr v) false) hv
    (fun s hs => by simp [compileForm_eq (hs.isForm hv), hs.heap])
    fun s hs => compileBody_ok hv.args hes hne hn hs

theorem compilesTo_andOr {es : List Expr} (or : Bool)
    (hv : Γ.heap.IsForm v (if or then "or" else "and") ws)
    (hes : AllCompile calls F arguments Γ C ws es) (hne : es ≠ []) (hn : ws.length < C.steps) :
    CompilesTo calls arguments Γ (compileExpression R C) v (evalAndOr F arguments or es) := by
  refine .of_form (m := compileAndOr C (Γ.heap.cdr v) ws.length or) hv (fun s hs => ?_)
    fun s hs => ?_
  · have hv' := hs.isForm hv
    cases or <;> simp [compileForm_eq hv', hs.heap]
  have hnargs : ¬ ws.length < 1 := by
    have hpos := List.length_pos_iff.2 hne
    rw [hes.length_eq]
    omega
  obtain ⟨after, s₁, h₁, hs₁⟩ := hs.nextpc
  obtain ⟨c, s₂, h₂, hs₂, hc⟩ := compileBranches_ok or after hv.args hes hne hn hs₁
  refine ⟨c ++ [.label after], s₂, ?_, hs₂, computes_andOr hc⟩
  exact (bind_of_ok (read_throwIf hnargs _ _)).trans ((bind_of_ok h₁).trans (bind_ok h₂ rfl))

theorem compilesTo_list {es : List Expr} (hcons : Implements calls .cons consOf)
    (hv : Γ.heap.IsForm v "list" ws) (hes : AllCompile calls F arguments Γ C ws es) :
    CompilesTo calls arguments Γ (compileExpression R C) v (do
      return (← evalList F arguments es).2) := by
  refine .of_form (m := compileList C (Γ.heap.cdr v) ws.length) hv
    (fun s hs => by simp [compileForm_eq (hs.isForm hv), hs.heap]) fun s hs => ?_
  obtain ⟨c, s₁, h₁, hs₁, hc⟩ := compileArguments_ok (eval F arguments) consCode
    (fun es c => Does calls Γ.count arguments (fun _ => True) ([.push (.word nil)] ++ c) [] 1
      (evalList F arguments es) Machine.OnTop)
    hv.args collects_nil
    (fun e es c c₁ h h₁ => by
      rw [← List.append_assoc, evalList]
      exact collects_cons hcons h h₁) 0 (List.append_nil _).symm hes hs
  refine ⟨[.push (.word nil)] ++ c ++ [.popEax], s₁, ?_, hs₁, computes_list hc⟩
  have hargs : compileArguments C (Γ.heap.cdr v) 0 ws.length consCode s = .ok () c s₁ := by
    rw [compileArguments, Nat.sub_zero, hes.length_eq]
    exact h₁
  rw [List.append_assoc]
  exact bind_ok rfl (bind_ok hargs rfl)

/-- The code that passes arguments to a function with required parameters only. -/
theorem compilePassing_ok {es : List Expr} (hargs : ListOf Γ.heap v ws)
    (hes : AllCompile calls F arguments Γ C ws es) (hs : Fits Γ s) :
    ∃ c s', compilePassing C v ws.length ⟨ws.length, [], false⟩ s = .ok () c s' ∧ Fits Γ s' ∧
      Does calls Γ.count arguments (fun _ => True) c [] ws.length (evalArguments F arguments es)
        (Machine.Passed ws.length) := by
  obtain ⟨c, s₁, h₁, hs₁, hc⟩ := compileArguments_ok (eval F arguments) [.pushEax]
    (fun es c => Does calls Γ.count arguments (fun _ => True) c [] es.length
      (evalArguments F arguments es) (Machine.Passed es.length))
    hargs passes_nil
    (fun e es c c₁ h h₁ => by
      rw [evalArguments, List.length_cons]
      exact passes_cons h h₁) 0 (List.append_nil _).symm hes hs
  rw [← hes.length_eq] at hc h₁
  refine ⟨c, s₁, ?_, hs₁, hc⟩
  have hsurplus : compileSurplus C v ws.length ⟨ws.length, [], false⟩ s = .ok () [] s := by
    simp [compileSurplus, when]
    rfl
  have hmin : min ws.length (Args.numOptional ⟨ws.length, [], false⟩ + ws.length) - 0 =
      ws.length := by
    simp [Args.numOptional]
  refine (bind_of_ok hsurplus).trans ?_
  rw [compileArguments, hmin]
  exact h₁

theorem compilesTo_call {es : List Expr} {f : CodePtr}
    (hF : Implements calls (.function f) (F f)) (hv : Γ.heap.IsForm v name ws)
    (hes : AllCompile calls F arguments Γ C ws es) (hname : name ∉ specialForms)
    (hself : Γ.name ≠ some name)
    (hf : Γ.env.find? (fun g => g.name = name) =
      some ⟨name, ⟨ws.length, [], false⟩, .function, f⟩) :
    CompilesTo calls arguments Γ (compileExpression R C) v (do
      F f (← evalArguments F arguments es)) := by
  have ⟨fsym, hfsym, hlist⟩ := hv
  refine .of_form (m := compileCall R C fsym (Γ.heap.cdr v) ws.length false) hv
    (fun s hs => ?_) fun s hs => ?_
  · simp only [specialForms, List.mem_cons, List.not_mem_nil, or_false, not_or] at hname
    simp [compileForm_eq (hs.isForm hv), hs.heap, hlist.car, hname]
  obtain ⟨l, hl, -, hcurrent⟩ := hs.getLocal
  obtain ⟨c, s₁, h₁, hs₁, hc⟩ := compilePassing_ok hv.args hes hs
  have hread : symbolName fsym s = .ok name [] s := read_symbolName (hs.heap.symm ▸ hfsym)
  have hfind : findFunction name s =
      .ok (some ⟨name, ⟨ws.length, [], false⟩, .function, f⟩) [] s := by
    show Emitted.ok (s.world.env.find? _) _ _ = _
    rw [hs.env, hf]
    rfl
  refine ⟨c ++ [.call (.function f), .addEsp (ws.length * 4)], s₁, ?_, hs₁, computes_call hF hc⟩
  refine (bind_of_ok hread).trans ((bind_of_ok hfind).trans ((bind_of_ok hl).trans ?_))
  have hother : ¬ l.currentFunctionName = some name := by rwa [hcurrent]
  have hacceptable : ¬ (!areArgsAcceptable ⟨ws.length, [], false⟩ ws.length) = true := by
    simp [areArgsAcceptable, Args.numOptional]
  simp only [hother, decide_false, Bool.false_eq_true, if_false, Option.map_some]
  refine (bind_of_ok (read_throwIf hacceptable _ _)).trans (bind_ok h₁ ?_)
  simp [realNargs, Args.numOptional, emit]

/-- A value that is compiled to one instruction that loads it. -/
theorem compilesTo_movEax (h : ∀ s, Fits Γ s →
      compileExpression R C v false s = .ok () [.movEax (.word w)] s) :
    CompilesTo calls arguments Γ (compileExpression R C) v (pure w) :=
  fun s hs => ⟨_, s, h s hs, hs, computes_movEax w⟩

theorem compilesTo_nil (hv : v = nil ∨ Γ.heap.Named v "nil") :
    CompilesTo calls arguments Γ (compileExpression R C) v (pure nil) := by
  refine compilesTo_movEax fun s hs => ?_
  rcases hv with rfl | hv
  · simp [compileExpression, bind_of_ok (read_symstreq _ _), nilp, emit]
  · rw [← hs.heap] at hv
    simp [compileExpression, bind_of_ok (read_symstreq _ _), hv.symstreq, emit]

/-- A symbol is not a value of another kind. -/
theorem kind_of_symbolp {v : ℕ} (h : symbolp v = true) : nilp v = false ∧ integerp v = false ∧
    stringp v = false := by
  have h8 : v % 8 = 5 := of_decide_eq_true h
  exact ⟨decide_eq_false (show ¬ v = 47 by omega), decide_eq_false (show ¬ v % 4 = 0 by omega),
    decide_eq_false (show ¬ v % 8 = 3 by omega)⟩

theorem compilesTo_t (hv : Γ.heap.Named v "t") :
    CompilesTo calls arguments Γ (compileExpression R C) v (pure t) := by
  refine compilesTo_movEax fun s hs => ?_
  have hnil := (kind_of_symbolp hv.1).1
  rw [← hs.heap] at hv
  simp [compileExpression, bind_of_ok (read_symstreq _ _), hv.symstreq, hnil, emit]

/-- An integer or a string is neither a symbol nor `nil`. -/
theorem kind_of_literal {v : ℕ} (h : integerp v = true ∨ stringp v = true) :
    symbolp v = false ∧ nilp v = false := by
  have hv : v % 4 = 0 ∨ v % 8 = 3 := h.imp of_decide_eq_true of_decide_eq_true
  exact ⟨decide_eq_false (show ¬ v % 8 = 5 by omega), decide_eq_false (show ¬ v = 47 by omega)⟩

theorem compilesTo_literal (hv : integerp v ∨ stringp v) :
    CompilesTo calls arguments Γ (compileExpression R C) v (pure v) := by
  refine compilesTo_movEax fun s hs => ?_
  obtain ⟨hsym, hnil⟩ := kind_of_literal hv
  simp [compileExpression, bind_of_ok (read_symstreq _ _), symstreq_of_not_symbolp hsym, hnil, hv,
    emit]

theorem compilesTo_quote (hv : Γ.heap.IsForm v "quote" [w]) :
    CompilesTo calls arguments Γ (compileExpression R C) v (pure w) := by
  refine .of_form (m := compileQuote (Γ.heap.cdr v) 1) hv
    (fun s hs => by simp [compileForm_eq (hs.isForm hv), hs.heap]) fun s hs => ?_
  have hcar : car (Γ.heap.cdr v) s = .ok w [] s := by rw [read_car, hs.heap, hv.args.car]
  refine ⟨_, s, ?_, hs, computes_movEax w⟩
  exact (bind_of_ok (read_throwIf (by simp) _ _)).trans ((bind_of_ok hcar).trans rfl)

theorem read_listp_symbol (h : symbolp v = true) : listp v s = .ok false [] s := by
  have hcons : consp v = false := by
    have h8 : tag v = symbolTag := of_decide_eq_true h
    simp [consp, h8, symbolTag, consTag]
  have hlist : s.world.heap.listp v = some false := by
    simp [Heap.listp, Heap.cells, hcons, (kind_of_symbolp h).1]
  unfold listp
  rw [bind_of_ok read_getHeap, hlist]
  rfl

theorem compilesTo_parameter {k : ℕ} (hk : k < Γ.count) (hv : Γ.heap.Named v name)
    (hname : name ∉ constants)
    (hfind : Γ.first.find? (fun u => u.name = name) = some ⟨name, k, .argument⟩) :
    CompilesTo calls arguments Γ (compileExpression R C) v (pure (arguments k)) := by
  intro s hs
  simp only [constants, List.mem_cons, List.not_mem_nil, or_false, not_or] at hname
  obtain ⟨hnil, hint, hstr⟩ := kind_of_symbolp hv.1
  rw [← hs.heap] at hv
  have hsymbol : compileExpression R C v false s = compileSymbol R v s := by
    simp [compileExpression, bind_of_ok (read_symstreq v _), hv.symstreq, hname, hnil, hint, hstr,
      bind_of_ok (read_listp_symbol hv.1), hv.1]
  obtain ⟨l, rest, hl, hfirst, hcurrent⟩ := hs.locals
  set s₁ : State := { s with occurrences := s.occurrences ++ [⟨name, s.locals⟩] } with hs₁
  have hlookUp : lookUp name s₁ = .ok (some ⟨name, k, .argument⟩) [] s₁ := by
    have hfound : findVariable name s.locals = (some ⟨name, k, .argument⟩, s.locals) := by
      rw [hl, findVariable, hfirst, hfind]
    show Emitted.ok (findVariable name s.locals).1 []
      { s₁ with locals := (findVariable name s.locals).2 } = _
    rw [hfound]
  refine ⟨[.loadArgument k], s₁, ?_, ⟨hs.heap, hs.env, l, rest, hl, hfirst, hcurrent⟩,
    computes_loadArgument hk⟩
  rw [hsymbol, compileSymbol, bind_of_ok (read_symstreq v _), hv.symstreq,
    if_neg (by simpa using hname.2.2.1), bind_of_ok (read_symstreq v _), hv.symstreq,
    if_neg (by simpa using hname.2.2.2), bind_of_ok (read_symbolName hv)]
  exact (bind_of_ok rfl).trans ((bind_of_ok hlookUp).trans rfl)

/-! ### The compiler -/

/-- What is compiled correctly with the functions for smaller forms, if these have enough fuel. -/
theorem compilesTo_of_smaller (N : ℕ) {x : Outcome Heap Word} (h : ∀ n ≥ N,
      CompilesTo calls arguments Γ (compileExpression R (compiler R n)) v x) :
    ∃ N, ∀ n ≥ N, CompilesTo calls arguments Γ (compiler R n).compileExpression v x := by
  refine ⟨N + 1, fun n hn => ?_⟩
  obtain ⟨n, rfl⟩ := Nat.exists_eq_succ_of_ne_zero (Nat.ne_zero_of_lt hn)
  exact h n (Nat.le_of_succ_le_succ hn)

theorem compiler_steps (R : Runtime) (n : ℕ) : (compiler R n).steps = n := by
  cases n <;> rfl

mutual

/-- With enough fuel, the compiler compiles a form to code that computes its expression. -/
theorem compilesTo_of_form (hcons : Implements calls .cons consOf)
    (hF : ∀ f, Implements calls (.function f) (F f)) :
    ∀ (e : Expr) {v : Word}, Form Γ v e → ∃ N, ∀ n ≥ N,
      CompilesTo calls arguments Γ (compiler R n).compileExpression v (eval F arguments e)
  | .nil, v, hv => compilesTo_of_smaller 0 fun n _ => compilesTo_nil hv
  | .t, v, hv => compilesTo_of_smaller 0 fun n _ => compilesTo_t hv
  | .literal w, v, ⟨hvw, hv⟩ => compilesTo_of_smaller 0 fun n _ => hvw ▸ compilesTo_literal hv
  | .quote w, v, hv => compilesTo_of_smaller 0 fun n _ => compilesTo_quote hv
  | .parameter k, v, ⟨hk, name, hv, hname, hfind⟩ =>
    compilesTo_of_smaller 0 fun n _ => compilesTo_parameter hk hv hname hfind
  | .ite e a b, v, hv => by
    obtain ⟨x, y, hx, hy, hz⟩ := hv
    obtain ⟨N₁, hN₁⟩ := compilesTo_of_form hcons hF e hx
    obtain ⟨N₂, hN₂⟩ := compilesTo_of_form hcons hF a hy
    rcases hz with ⟨z, hv, hz⟩ | ⟨hv, rfl⟩
    · obtain ⟨N₃, hN₃⟩ := compilesTo_of_form hcons hF b hz
      refine compilesTo_of_smaller (max N₁ (max N₂ N₃)) fun n hn => ?_
      simp only [ge_iff_le, max_le_iff] at hn
      exact compilesTo_if hv (hN₁ n hn.1) (hN₂ n hn.2.1) (.inr ⟨z, rfl, hN₃ n hn.2.2⟩)
    · refine compilesTo_of_smaller (max N₁ N₂) fun n hn => ?_
      simp only [ge_iff_le, max_le_iff] at hn
      exact compilesTo_if hv (hN₁ n hn.1) (hN₂ n hn.2) (.inl ⟨rfl, rfl⟩)
  | .andOr or es, v, hv => by
    obtain ⟨ws, hv, hws, hne⟩ := hv
    obtain ⟨N, hN⟩ := allCompile_of_forms hcons hF es hws
    refine compilesTo_of_smaller (max N (ws.length + 1)) fun n hn => ?_
    simp only [ge_iff_le, max_le_iff] at hn
    exact compilesTo_andOr or hv (hN n hn.1) hne (by rw [compiler_steps]; omega)
  | .progn es, v, hv => by
    obtain ⟨ws, hv, hws, hne⟩ := hv
    obtain ⟨N, hN⟩ := allCompile_of_forms hcons hF es hws
    refine compilesTo_of_smaller (max N (ws.length + 1)) fun n hn => ?_
    simp only [ge_iff_le, max_le_iff] at hn
    exact compilesTo_progn hv (hN n hn.1) hne (by rw [compiler_steps]; omega)
  | .list es, v, hv => by
    obtain ⟨ws, hv, hws⟩ := hv
    obtain ⟨N, hN⟩ := allCompile_of_forms hcons hF es hws
    exact compilesTo_of_smaller N fun n hn => compilesTo_list hcons hv (hN n hn)
  | .call f es, v, hv => by
    obtain ⟨name, ws, hv, hws, hname, hself, hf⟩ := hv
    obtain ⟨N, hN⟩ := allCompile_of_forms hcons hF es hws
    exact compilesTo_of_smaller N fun n hn =>
      compilesTo_call (hF f) hv (hN n hn) hname hself hf

theorem allCompile_of_forms (hcons : Implements calls .cons consOf)
    (hF : ∀ f, Implements calls (.function f) (F f)) :
    ∀ (es : List Expr) {ws : List Word}, Forms Γ ws es → ∃ N, ∀ n ≥ N,
      AllCompile calls F arguments Γ (compiler R n) ws es
  | [], ws, hws => ⟨0, fun n _ => by
    obtain rfl : ws = [] := hws
    exact .nil⟩
  | e :: es, ws, hws => by
    obtain ⟨w, ws', rfl, he, hes⟩ := hws
    obtain ⟨N, hN⟩ := compilesTo_of_form hcons hF e he
    obtain ⟨N', hN'⟩ := allCompile_of_forms hcons hF es hes
    exact ⟨max N N', fun n hn => .cons (hN n (le_of_max_le_left hn))
      (hN' n (le_of_max_le_right hn))⟩

end

/-- The code that `compile_expression` emits for an expression of the fragment, wherever it stands
in a program, and whatever cells the allocator chooses, ends behind itself with `esp` and `ebp` as
they were and with the value of the expression in `eax`. -/
theorem compileExpression_correct {e : Expr} (hcons : Implements calls .cons consOf)
    (hF : ∀ f, Implements calls (.function f) (F f)) (hv : Form Γ v e) :
    ∃ N, ∀ n ≥ N, ∀ s, Fits Γ s → ∃ code s',
      (compiler R n).compileExpression v false s = .ok () code s' ∧
      ∀ (P : Code) (m : Machine) (Q : Word → Heap → Prop), stackHeights.LabelsUnique P →
        At P m.pc code → m.InFrame Γ.count arguments → eval F arguments e Q m.heap →
        (machine calls P).Inevitably (fun m' => m'.pc = m.pc + code.length ∧ m'.esp = m.esp ∧
          m'.ebp = m.ebp ∧ ∃ w, m'.eax = .word w ∧ Q w m'.heap) m := by
  obtain ⟨N, hN⟩ := compilesTo_of_form (R := R) hcons hF e hv
  refine ⟨N, fun n hn s hs => ?_⟩
  obtain ⟨code, s', hok, -, hcode⟩ := hN n hn s hs
  refine ⟨code, s', hok, fun P m Q hu hat hm hQ => ?_⟩
  refine (hcode hu (by rwa [List.append_nil]) hm trivial hQ).mono ?_
  rintro m' ⟨hran, w, hw, hQ⟩
  exact ⟨hran.pc, by simpa using hran.esp, hran.ebp, w, hw, hQ⟩

end Correctness

/-- Calls of `cons` and of nothing else. -/
def consCalls : Val → Machine → Machine → Prop
  | .entry .cons, m, m' => ∃ car cdr p, m.stack m.esp = .word car ∧
      m.stack (m.esp + 4) = .word cdr ∧ p ∉ m.heap.dom ∧ p % 8 = 0 ∧
      m' = { m with eax := .word (p + consTag), heap := m.heap.set p (.cons car cdr) }
  | _, _, _ => False

theorem implements_cons : Implements consCalls .cons consOf := by
  intro m vs Q hvs hx
  obtain ⟨car, cdr, rfl⟩ : ∃ car cdr, vs = [car, cdr] := by
    match vs, hx with
    | [car, cdr], _ => exact ⟨car, cdr, rfl⟩
  have hcar : m.stack m.esp = .word car := by simpa using hvs 0 car rfl
  have hcdr : m.stack (m.esp + 4) = .word cdr := hvs 1 cdr rfl
  refine ⟨?_, ?_⟩
  · obtain ⟨p, hp, hp8⟩ := m.heap.exists_fresh
    exact ⟨_, car, cdr, p, hcar, hcdr, hp, hp8, rfl⟩
  · rintro m' ⟨car', cdr', p, hcar', hcdr', hp, hp8, rfl⟩
    obtain rfl : car = car' := by simpa using hcar.symm.trans hcar'
    obtain rfl : cdr = cdr' := by simpa using hcdr.symm.trans hcdr'
    exact ⟨rfl, rfl, fun _ _ => rfl, _, rfl, hx _ _ ⟨p, hp, hp8, rfl, rfl⟩⟩

/-- `(list x)` -/
def listForm : Sexp := .list [.symbol "list", .symbol "x"]

/-- In a function with the parameter `x`. -/
def listContext : Context := ⟨listForm.heap.1, [], [⟨"x", 0, .argument⟩], none, 1⟩

theorem form_listForm : Form listContext listForm.heap.2 (.list [.parameter 0]) := by
  have hlist : listContext.heap.Named 21 "list" := ⟨by decide, rfl⟩
  have hx : listContext.heap.Named 29 "x" := ⟨by decide, rfl⟩
  refine ⟨[29], ⟨21, hlist, by decide, _, rfl, by decide, _, rfl, rfl⟩, 29, [], rfl, ?_, rfl⟩
  exact ⟨Nat.one_pos, "x", hx, by decide, rfl⟩

theorem compileExpression_listForm : ∃ N, ∀ n ≥ N, ∀ s, Fits listContext s → ∃ code s',
    (compiler .inert n).compileExpression listForm.heap.2 false s = .ok () code s' ∧
    ∀ (P : Code) (m : Machine) (Q : Word → Heap → Prop), stackHeights.LabelsUnique P →
      At P m.pc code → m.InFrame listContext.count (fun _ => nil) →
      eval (fun _ _ => .fail) (fun _ => nil) (.list [.parameter 0]) Q m.heap →
      (machine consCalls P).Inevitably (fun m' => m'.pc = m.pc + code.length ∧ m'.esp = m.esp ∧
        m'.ebp = m.ebp ∧ ∃ w, m'.eax = .word w ∧ Q w m'.heap) m :=
  compileExpression_correct implements_cons (fun _ _ _ _ _ hx => hx.elim) form_listForm

end Lisp

end Bluejay
