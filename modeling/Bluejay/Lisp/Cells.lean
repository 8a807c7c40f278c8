import Bluejay.Lisp.Language

/-!
# Cells that are not evaluated

* `Form.Avoids k r f` : the cell `k` is nowhere in the form `f`, and if `r` is false, `f` does not
  use the current lambda.
* `Language.Avoids` : nor is it in a function of the program or in the world.
* `eval_quiet` : then it is not evaluated, and no value leads to it.
-/

namespace Bluejay

namespace Lisp

namespace Language

mutual

/-- The cell `k` is nowhere in the form, which uses the current lambda only if `r` is true. -/
inductive Form.Avoids (k : ℕ) : Bool → Form → Prop
  | const {r : Bool} {v : Value} (h : Value.Avoids k v) : Form.Avoids k r (.const v)
  | var {r : Bool} {x : String} : Form.Avoids k r (.var x)
  | ite {r : Bool} {predicate yes no : Form} (hp : Form.Avoids k r predicate)
      (hy : Form.Avoids k r yes) (hn : Form.Avoids k r no) :
      Form.Avoids k r (.ite predicate yes no)
  | andOr {r or : Bool} {fs : List Form} (h : ∀ f ∈ fs, Form.Avoids k r f) :
      Form.Avoids k r (.andOr or fs)
  | progn {r : Bool} {cell : ℕ} {fs : List Form} (hne : cell ≠ k)
      (h : ∀ f ∈ fs, Form.Avoids k r f) : Form.Avoids k r (.progn cell fs)
  | let1 {r : Bool} {x : String} {f : Form} {fs : List Form} (hf : Form.Avoids k r f)
      (h : ∀ f ∈ fs, Form.Avoids k r f) : Form.Avoids k r (.let1 x f fs)
  | lambda {r : Bool} {l : Lambda} (h : Lambda.Avoids k l) : Form.Avoids k r (.lambda l)
  | recurse {fs : List Form} (h : ∀ f ∈ fs, Form.Avoids k true f) :
      Form.Avoids k true (.recurse fs)
  | function {r : Bool} {name : String} (h : name = "recurse" → r = true) :
      Form.Avoids k r (.function name)
  | call {r : Bool} {name : String} {fs : List Form} (h : ∀ f ∈ fs, Form.Avoids k r f) :
      Form.Avoids k r (.call name fs)

inductive Lambda.Avoids (k : ℕ) : Lambda → Prop
  | mk {required : List String} {optional : List (String × Value)} {rest : Option String}
      {body : List Form} (hopt : ∀ p ∈ optional, Value.Avoids k p.2)
      (h : ∀ f ∈ body, Form.Avoids k true f) : Lambda.Avoids k (.mk required optional rest body)

inductive Value.Avoids (k : ℕ) : Value → Prop
  | nil : Value.Avoids k .nil
  | t : Value.Avoids k .t
  | int {i : ℤ} : Value.Avoids k (.int i)
  | string {s : String} : Value.Avoids k (.string s)
  | symbol {s : String} : Value.Avoids k (.symbol s)
  | cons {a d : Value} (ha : Value.Avoids k a) (hd : Value.Avoids k d) : Value.Avoids k (.cons a d)
  | closure {l : Lambda} {env : List (String × Value)} (hl : Lambda.Avoids k l)
      (henv : ∀ p ∈ env, Value.Avoids k p.2) : Value.Avoids k (.closure l env)
  | function {name : String} : Value.Avoids k (.function name)
  | object {n : ℕ} : Value.Avoids k (.object n)

end

/-- The cell is not in the values of variables. -/
def Env.Avoids (k : ℕ) (env : Env) : Prop := ∀ p ∈ env, p.2.Avoids k

/-- Nor in the current lambda, if that may be used. -/
structure Scope.Avoids (k : ℕ) (r : Bool) (c : Scope) : Prop where
  env : c.env.Avoids k
  self : r = true → ∀ f ∈ c.self, f.Avoids k

/-- Nor in the functions of a program, nor in the world, where `I` holds. -/
structure Avoids {W : Type} (L : Language W) (k : ℕ) (I : W → Prop) : Prop where
  functions : ∀ name l, L.functions name = some l → l.Avoids k
  builtin : ∀ name vs w v w', (∀ v ∈ vs, Value.Avoids k v) → I w →
    L.builtin name vs w = some (v, w') → v.Avoids k ∧ I w'

variable {W : Type} {L : Language W} {k : ℕ} {I : W → Prop} {r : Bool} {c : Scope} {l : Lambda}
  {v f : Value} {vs : List Value} {env : Env} {self : Option Value}

/-! ### Values -/

theorem Value.avoids_list (h : ∀ v ∈ vs, Value.Avoids k v) : (Value.list vs).Avoids k := by
  induction vs with
  | nil => exact .nil
  | cons v vs ih =>
    obtain ⟨hv, hvs⟩ := List.forall_mem_cons.1 h
    exact .cons hv (ih hvs)

theorem Value.Avoids.toList (h : v.Avoids k) (hvs : v.toList = some vs) :
    ∀ v ∈ vs, Value.Avoids k v := by
  induction vs generalizing v with
  | nil => exact nofun
  | cons u us ih =>
    cases h with
    | cons ha hd =>
      obtain ⟨us', hus, heq⟩ := Option.map_eq_some_iff.1 hvs
      obtain ⟨rfl, rfl⟩ := List.cons.inj heq
      exact List.forall_mem_cons.2 ⟨ha, ih hd hus⟩
    | _ => cases hvs

theorem Value.Avoids.car (h : v.Avoids k) : v.car.Avoids k := by
  cases h with
  | cons ha hd => exact ha
  | _ => exact .nil

theorem Value.Avoids.cdr (h : v.Avoids k) : v.cdr.Avoids k := by
  cases h with
  | cons ha hd => exact hd
  | _ => exact .nil

theorem Env.Avoids.cons {x : String} (h : env.Avoids k) (hv : v.Avoids k) :
    Env.Avoids k ((x, v) :: env) := List.forall_mem_cons.2 ⟨hv, h⟩

theorem Env.Avoids.append {env' : Env} (h : env.Avoids k) (h' : env'.Avoids k) :
    Env.Avoids k (env ++ env') := List.forall_mem_append.2 ⟨h, h'⟩

theorem Env.Avoids.lookup {x : String} (h : env.Avoids k) (hx : env.lookup x = some v) :
    v.Avoids k := by
  induction env with
  | nil => cases hx
  | cons p env ih =>
    obtain ⟨hp, henv⟩ := List.forall_mem_cons.1 h
    rw [List.lookup_cons] at hx
    split at hx
    · cases hx
      exact hp
    · exact ih henv hx

/-! ### Calls -/

theorem bindOptional_avoids {optional : List (String × Value)} {rest : Option String}
    (hopt : ∀ p ∈ optional, Value.Avoids k p.2) (hvs : ∀ v ∈ vs, Value.Avoids k v)
    (h : bindOptional optional rest vs = some env) : env.Avoids k := by
  induction optional generalizing vs env with
  | nil =>
    cases rest with
    | some x =>
      cases h
      exact Env.Avoids.cons nofun (Value.avoids_list hvs)
    | none =>
      cases vs with
      | nil =>
        cases h
        exact nofun
      | cons v vs => cases h
  | cons p optional ih =>
    obtain ⟨hp, hopt⟩ := List.forall_mem_cons.1 hopt
    cases vs with
    | nil =>
      obtain ⟨env, henv, rfl⟩ := Option.map_eq_some_iff.1 h
      exact (ih hopt hvs henv).cons hp
    | cons v vs =>
      obtain ⟨hv, hvs⟩ := List.forall_mem_cons.1 hvs
      obtain ⟨env, henv, rfl⟩ := Option.map_eq_some_iff.1 h
      exact (ih hopt hvs henv).cons hv

theorem bindParams_avoids {optional : List (String × Value)} {rest : Option String}
    {required : List String} (hopt : ∀ p ∈ optional, Value.Avoids k p.2)
    (hvs : ∀ v ∈ vs, Value.Avoids k v) (h : bindParams optional rest required vs = some env) :
    env.Avoids k := by
  induction required generalizing vs env with
  | nil => exact bindOptional_avoids hopt hvs (by cases vs <;> exact h)
  | cons x required ih =>
    cases vs with
    | nil => cases h
    | cons v vs =>
      obtain ⟨hv, hvs⟩ := List.forall_mem_cons.1 hvs
      obtain ⟨env, henv, rfl⟩ := Option.map_eq_some_iff.1 h
      exact (ih hvs henv).cons hv

theorem Lambda.Avoids.bind (hl : l.Avoids k) (hvs : ∀ v ∈ vs, Value.Avoids k v)
    (h : l.bind vs = some env) : env.Avoids k := by
  cases hl with
  | mk hopt _ => exact bindParams_avoids hopt hvs h

theorem Lambda.Avoids.body (hl : l.Avoids k) : ∀ f ∈ l.body, Form.Avoids k true f := by
  cases hl with
  | mk _ h => exact h

section Ensures

open Traced

/-- Evaluation that is known not to report the cell. -/
abbrev Quiet (k : ℕ) (I : W → Prop) (x : Eval W Value) : Prop :=
  Ensures I (fun e => e.cell ≠ k) x (Value.Avoids k)

variable {g : Form → Eval W Value} {ev : Scope → Form → Eval W Value} {fs : List Form}

theorem prognForms_quiet (h : ∀ f ∈ fs, Quiet k I (g f)) : Quiet k I (prognForms g fs) := by
  induction fs with
  | nil => exact ensures_pure .nil
  | cons f fs ih =>
    obtain ⟨hf, hfs⟩ := List.forall_mem_cons.1 h
    cases fs with
    | nil => exact hf
    | cons f' fs => exact hf.bind fun _ _ => ih hfs

theorem andOrForms_quiet (or : Bool) (h : ∀ f ∈ fs, Quiet k I (g f)) :
    Quiet k I (andOrForms or g fs) := by
  induction fs with
  | nil => exact ensures_fail
  | cons f fs ih =>
    obtain ⟨hf, hfs⟩ := List.forall_mem_cons.1 h
    cases fs with
    | nil => exact hf
    | cons f' fs =>
      refine hf.bind fun v hv => ?_
      split_ifs
      · exact ih hfs
      · exact ensures_pure hv

theorem evalArgs_quiet (h : ∀ f ∈ fs, Quiet k I (g f)) :
    Ensures I (fun e => e.cell ≠ k) (evalArgs g fs) fun vs => ∀ v ∈ vs, Value.Avoids k v := by
  induction fs with
  | nil => exact ensures_pure nofun
  | cons f fs ih =>
    obtain ⟨hf, hfs⟩ := List.forall_mem_cons.1 h
    exact (ih hfs).bind fun vs hvs => hf.bind fun v hv =>
      ensures_pure (List.forall_mem_cons.2 ⟨hv, hvs⟩)

theorem enter_quiet (hev : ∀ c f, c.Avoids k true → f.Avoids k true → Quiet k I (ev c f))
    (hl : l.Avoids k) (henv : env.Avoids k) (hself : ∀ f ∈ self, f.Avoids k)
    (hvs : ∀ v ∈ vs, Value.Avoids k v) : Quiet k I (enter ev l env self vs) := by
  have hbind : Ensures I (fun e => e.cell ≠ k) (ofOption (l.bind vs) : Eval W Env) (Env.Avoids k) :=
    ensures_ofOption fun params h => hl.bind hvs h
  exact hbind.bind fun params hparams => prognForms_quiet fun f hf =>
    hev _ f ⟨hparams.append henv, fun _ => hself⟩ (hl.body f hf)

theorem callValue_quiet (hev : ∀ c f, c.Avoids k true → f.Avoids k true → Quiet k I (ev c f))
    (hf : f.Avoids k) (hvs : ∀ v ∈ vs, Value.Avoids k v) : Quiet k I (callValue ev f vs) := by
  cases hf with
  | closure hl henv =>
    refine enter_quiet hev hl henv (fun f hf => ?_) hvs
    cases hf
    exact .closure hl henv
  | function =>
    refine hev _ _ ⟨nofun, nofun⟩ (.call fun f hf => ?_)
    obtain ⟨v, hv, rfl⟩ := List.mem_map.1 hf
    exact .const (hvs v hv)
  | _ => exact ensures_pure .nil

theorem onPair_quiet {p : Value → Value} (hp : ∀ v, v.Avoids k → (p v).Avoids k)
    (hvs : ∀ v ∈ vs, Value.Avoids k v) : Quiet k I (onPair p vs) := by
  unfold onPair
  split
  · exact ensures_pure (hp _ (hvs _ (List.mem_singleton_self _)))
  · exact ensures_fail

theorem apply_quiet (hev : ∀ c f, c.Avoids k true → f.Avoids k true → Quiet k I (ev c f))
    (hvs : ∀ v ∈ vs, Value.Avoids k v) : Quiet k I (apply ev vs) := by
  unfold apply
  split
  · obtain ⟨hf, hl, -⟩ := List.forall_mem_cons.1 hvs |>.imp_right List.forall_mem_cons.1
    have hlist : Ensures I (fun e : Event => e.cell ≠ k) (ofOption (Value.toList _) : Eval W _)
        fun us => ∀ u ∈ us, Value.Avoids k u := ensures_ofOption fun us h => hl.toList h
    exact hlist.bind fun us hus => callValue_quiet hev hf hus
  · exact ensures_fail

theorem function?_avoids (hL : L.Avoids k I) {name : String} (h : L.function? name = some l) :
    l.Avoids k := by
  unfold function? at h
  split_ifs at h
  · cases h
    exact .mk nofun (by simpa [funcall] using .call (by simpa using ⟨.var, .var⟩))
  · exact hL.functions name l h

theorem invoke_quiet (hL : L.Avoids k I)
    (hev : ∀ c f, c.Avoids k true → f.Avoids k true → Quiet k I (ev c f)) (name : String)
    (hvs : ∀ v ∈ vs, Value.Avoids k v) : Quiet k I (L.invoke ev name vs) := by
  unfold invoke
  split_ifs
  · exact onPair_quiet (fun v hv => hv.car) hvs
  · exact onPair_quiet (fun v hv => hv.cdr) hvs
  · exact apply_quiet hev hvs
  · cases hl : L.function? name with
    | some l => exact enter_quiet hev (function?_avoids hL hl) nofun nofun hvs
    | none => exact ensures_lift fun w v w' hw h => hL.builtin name vs w v w' hvs hw h

/-- **A cell that is nowhere is not evaluated**, and no value leads to it. -/
theorem eval_quiet (hL : L.Avoids k I) (n : ℕ) (r : Bool) (c : Scope) (f : Form)
    (hc : c.Avoids k r) (hf : f.Avoids k r) : Quiet k I (L.eval n c f) := by
  induction n generalizing r c f with
  | zero => exact ensures_fail
  | succ n ih =>
    have hall {fs : List Form} (h : ∀ f ∈ fs, f.Avoids k r) :
        ∀ f ∈ fs, Quiet k I (L.eval n c f) := fun f hmem => ih r c f hc (h f hmem)
    cases hf with
    | const h => exact ensures_pure h
    | var => exact ensures_ofOption fun v hv => hc.env.lookup hv
    | ite hp hy hn =>
      refine (ih r c _ hc hp).bind fun v _ => ?_
      split_ifs
      · exact ih r c _ hc hn
      · exact ih r c _ hc hy
    | andOr h => exact andOrForms_quiet _ (hall h)
    | @progn _ cell _ hne h =>
      have hemit : Ensures I (fun e => e.cell ≠ k) (emit (Event.mk cell c.env)) fun _ => True :=
        ensures_emit hne
      exact hemit.bind fun _ _ => prognForms_quiet (hall h)
    | let1 hf h =>
      exact (ih r c _ hc hf).bind fun v hv => prognForms_quiet fun f hmem =>
        ih r _ f ⟨hc.env.cons hv, hc.self⟩ (h f hmem)
    | lambda h => exact ensures_pure (.closure h hc.env)
    | recurse h =>
      refine (evalArgs_quiet (hall h)).bind fun vs hvs => ?_
      have hself : Quiet k I (ofOption c.self) := ensures_ofOption fun f hf => hc.self rfl f hf
      exact hself.bind fun f hf => callValue_quiet (ih true) hf hvs
    | function h =>
      change Quiet k I (if _ then _ else _)
      split_ifs with hname
      · exact ensures_ofOption fun f hf => hc.self (h hname) f hf
      · exact ensures_pure .function
    | call h => exact (evalArgs_quiet (hall h)).bind fun vs hvs => invoke_quiet hL (ih true) _ hvs

end Ensures

end Language

end Lisp

end Bluejay
