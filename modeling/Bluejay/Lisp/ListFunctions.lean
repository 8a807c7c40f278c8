import Bluejay.Lisp.Files
import Bluejay.Lisp.Numbers

/-!
# The list functions of the library

`not`, `funcall`, `mapcar` and `remove-if`, from the text of the library to what the machine does.

* `Applies x v pre post` : a call with the word `v` as its only argument goes from `pre` to `post`.
* `run_mapcar_rule`, `run_removeIf_rule` : invariants for `mapcar`, which applies the function to
  the last element first, and for `remove-if`, which begins with the first.
* `listFunctions_of_shape` : what is read from the text are these definitions, wherever their
  documentation lies in memory.
* `load_listFunctions` : once they are loaded, calls of the compiled code follow the rules;
  `Maps.map`, `Filters.filter` : for functions that change nothing.
-/

namespace Bluejay

namespace Lisp

/-! ### The definitions -/

/-- `(defun name params doc body)` -/
def definitionTree (name : String) (params : List String) (doc : String) (body : Sexp) : Sexp :=
  .list [.symbol "defun", .symbol name, .list (params.map .symbol), .string doc, body]

def notDoc : String := "Identical to NILP, returns T if VAL is NIL, NIL otherwise."

def mapcarDoc : String :=
  "Maps over the cars of `list` by running `fun` on each one.\n" ++
    "List must be a cons-list, other sequences are not supported."

def removeIfDoc : String := "Returns a copy of `list` with elements satisfying `predicate`\nremoved."

def notTree : Sexp :=
  definitionTree "not" ["val"] notDoc (.list [.symbol "nilp", .symbol "val"])

def funcallTree : Sexp :=
  .list [.symbol "defun", .symbol "funcall", .list [.symbol "fun", .symbol "&", .symbol "list"],
    .list [.symbol "apply", .symbol "fun", .symbol "list"]]

/-- `(f (car list))` -/
def onCar (fs : List String) : Sexp :=
  .list (fs.map .symbol ++ [.list [.symbol "car", .symbol "list"]])

/-- `(name f (cdr list))` -/
def onCdr (name f : String) : Sexp :=
  .list [.symbol name, .symbol f, .list [.symbol "cdr", .symbol "list"]]

def mapcarTree : Sexp :=
  definitionTree "mapcar" ["fun", "list"] mapcarDoc
    (.list [.symbol "if", .symbol "list",
      .list [.symbol "cons", onCar ["funcall", "fun"], onCdr "mapcar" "fun"], .symbol "nil"])

def removeIfTree : Sexp :=
  definitionTree "remove-if" ["predicate", "list"] removeIfDoc
    (.list [.symbol "if", .list [.symbol "not", .symbol "list"], .symbol "nil",
      .list [.symbol "if", onCar ["funcall", "predicate"], onCdr "remove-if" "predicate",
        .list [.symbol "cons", .list [.symbol "car", .symbol "list"],
          onCdr "remove-if" "predicate"]]])

/-- The forms of the library, in order. -/
def listTrees : List Sexp := [notTree, funcallTree, mapcarTree, removeIfTree]

def notDefinition (doc : Word) : Definition :=
  ⟨"not", ["val"], none, [.literal doc, .call "nilp" [.var "val"]]⟩

def funcallDefinition : Definition :=
  ⟨"funcall", ["fun"], some "list", [.call "apply" [.var "fun", .var "list"]]⟩

def mapcarDefinition (doc : Word) : Definition :=
  ⟨"mapcar", ["fun", "list"], none, [.literal doc, .ite (.var "list")
    (.call "cons" [.callRest "funcall" [.var "fun"] [.call "car" [.var "list"]],
      .call "mapcar" [.var "fun", .call "cdr" [.var "list"]]]) .nil]⟩

def removeIfDefinition (doc : Word) : Definition :=
  ⟨"remove-if", ["predicate", "list"], none, [.literal doc, .ite (.call "not" [.var "list"]) .nil
    (.ite (.callRest "funcall" [.var "predicate"] [.call "car" [.var "list"]])
      (.call "remove-if" [.var "predicate", .call "cdr" [.var "list"]])
      (.call "cons" [.call "car" [.var "list"],
        .call "remove-if" [.var "predicate", .call "cdr" [.var "list"]]]))]⟩

/-- The definitions, whose documentation may be any strings. -/
def listFunctions (docs : Word × Word × Word) : List Definition :=
  [notDefinition docs.1, funcallDefinition, mapcarDefinition docs.2.1, removeIfDefinition docs.2.2]

theorem listTrees_isDefun : List.Forall₂ Sexp.IsDefun listTrees (listFunctions (0, 0, 0)) := by
  have hvar : ∀ x ∉ constants, (Sexp.symbol x).IsTerm (.var x) := fun x hx => ⟨rfl, hx⟩
  have hvars : ∀ x ∉ constants, Sexp.AreTerms [.symbol x] [.var x] := fun x hx =>
    ⟨_, _, rfl, hvar x hx, rfl⟩
  have hcall : ∀ (f : String) (xs : List Sexp) (es : List Term), f ∉ specialForms →
      Sexp.AreTerms xs es → (Sexp.list (.symbol f :: xs)).IsTerm (.call f es) := fun f xs es hf h =>
    ⟨hf, xs, rfl, h⟩
  have hcar : (Sexp.list [.symbol "car", .symbol "list"]).IsTerm (.call "car" [.var "list"]) :=
    hcall _ _ _ (by decide) (hvars _ (by decide))
  have hcdr : (Sexp.list [.symbol "cdr", .symbol "list"]).IsTerm (.call "cdr" [.var "list"]) :=
    hcall _ _ _ (by decide) (hvars _ (by decide))
  have honCar : ∀ f ∉ constants, (onCar ["funcall", f]).IsTerm
      (.callRest "funcall" [.var f] [.call "car" [.var "list"]]) := fun f hf =>
    ⟨by decide, [_], [_], rfl, hvars f hf, _, _, rfl, hcar, rfl⟩
  have honCdr : ∀ name ∉ specialForms, ∀ f ∉ constants, (onCdr name f).IsTerm
      (.call name [.var f, .call "cdr" [.var "list"]]) := fun name hname f hf =>
    hcall _ _ _ hname ⟨_, _, rfl, hvar f hf, _, _, rfl, hcdr, rfl⟩
  have hdoc : ∀ s : String, (Sexp.string s).IsTerm (.literal 0) := fun s => .inl ⟨s, rfl⟩
  refine .cons ⟨_, rfl, _, rfl, by decide, ?_, by decide⟩ (.cons ⟨_, rfl, _, rfl, by decide, ?_, by
    decide⟩ (.cons ⟨_, rfl, _, rfl, by decide, ?_, by decide⟩ (.cons ⟨_, rfl, _, rfl, by decide, ?_,
    by decide⟩ .nil)))
  · exact ⟨_, _, rfl, hdoc _, _, _, rfl, hcall _ _ _ (by decide) (hvars _ (by decide)), rfl⟩
  · exact ⟨_, _, rfl, hcall _ _ _ (by decide) ⟨_, _, rfl, hvar _ (by decide),
      hvars _ (by decide)⟩, rfl⟩
  · refine ⟨_, _, rfl, hdoc _, _, _, rfl, ⟨_, _, hvar _ (by decide), hcall _ _ _ (by decide)
      ⟨_, _, rfl, honCar _ (by decide), _, _, rfl, honCdr _ (by decide) _ (by decide), rfl⟩,
      .inl ⟨_, rfl, .inr rfl⟩⟩, rfl⟩
  · refine ⟨_, _, rfl, hdoc _, _, _, rfl, ⟨_, _, hcall _ _ _ (by decide) (hvars _ (by decide)),
      .inr rfl, .inl ⟨_, rfl, _, _, honCar _ (by decide), honCdr _ (by decide) _ (by decide),
      .inl ⟨_, rfl, ?_⟩⟩⟩, rfl⟩
    exact hcall _ _ _ (by decide) ⟨_, _, rfl, hcar, _, _, rfl,
      honCdr _ (by decide) _ (by decide), rfl⟩

/-! ### Up to constants -/

section Shapes

variable {e : Term} {es : List Term} {d : Definition}

@[simp] theorem shape_eq_literal : e.shape = .literal 0 ↔ ∃ w, e = .literal w := by
  cases e <;> simp [Term.shape]

@[simp] theorem shape_eq_nil : e.shape = .nil ↔ e = .nil := by
  cases e <;> simp [Term.shape]

@[simp] theorem shape_eq_var {x : String} : e.shape = .var x ↔ e = .var x := by
  cases e <;> simp [Term.shape]

@[simp] theorem shape_eq_ite {a b c : Term} : e.shape = .ite c a b ↔
    ∃ c' a' b', e = .ite c' a' b' ∧ c'.shape = c ∧ a'.shape = a ∧ b'.shape = b := by
  cases e <;> simp [Term.shape]

@[simp] theorem shape_eq_call {f : String} : e.shape = .call f es ↔
    ∃ es', e = .call f es' ∧ Term.shapeAll es' = es := by
  cases e <;> simp [Term.shape]

@[simp] theorem shape_eq_callRest {f : String} {more : List Term} : e.shape = .callRest f es more ↔
    ∃ es' more', e = .callRest f es' more' ∧ Term.shapeAll es' = es ∧
      Term.shapeAll more' = more := by
  cases e <;> simp [Term.shape]

@[simp] theorem shapeAll_eq_nil : Term.shapeAll es = [] ↔ es = [] := by
  cases es <;> simp [Term.shapeAll]

@[simp] theorem shapeAll_eq_cons {e : Term} {es es' : List Term} : Term.shapeAll es' = e :: es ↔
    ∃ f fs, es' = f :: fs ∧ f.shape = e ∧ Term.shapeAll fs = es := by
  cases es' <;> simp [Term.shapeAll]

theorem definition_shape_eq {d' : Definition} : d.shape = d'.shape ↔
    ∃ body, d = { d' with body := body } ∧ Term.shapeAll body = Term.shapeAll d'.body := by
  obtain ⟨name, params, rest, body⟩ := d
  simp only [Definition.shape, Definition.mk.injEq]
  constructor
  · rintro ⟨rfl, rfl, rfl, h⟩
    exact ⟨_, ⟨rfl, rfl, rfl, rfl⟩, h⟩
  · rintro ⟨_, ⟨rfl, rfl, rfl, rfl⟩, h⟩
    exact ⟨rfl, rfl, rfl, h⟩

/-- What has the shape of the definitions is them, with some documentation. -/
theorem listFunctions_of_shape {ds : List Definition}
    (h : ds.map Definition.shape = (listFunctions (0, 0, 0)).map Definition.shape) :
    ∃ docs, ds = listFunctions docs := by
  simp only [listFunctions, List.map_cons, List.map_nil, List.map_eq_cons_iff,
    List.map_eq_nil_iff, definition_shape_eq] at h
  obtain ⟨_, _, rfl, ⟨_, rfl, h₁⟩, _, _, rfl, ⟨_, rfl, h₂⟩, _, _, rfl, ⟨_, rfl, h₃⟩, _, _, rfl,
    ⟨_, rfl, h₄⟩, rfl⟩ := h
  simp [notDefinition, Term.shape, Term.shapeAll] at h₁
  simp [funcallDefinition, Term.shape, Term.shapeAll] at h₂
  simp [mapcarDefinition, Term.shape, Term.shapeAll] at h₃
  simp [removeIfDefinition, Term.shape, Term.shapeAll] at h₄
  obtain ⟨doc₁, rfl⟩ := h₁
  obtain ⟨doc₂, rfl⟩ := h₃
  obtain ⟨doc₃, rfl⟩ := h₄
  subst h₂
  exact ⟨(doc₁, doc₂, doc₃), rfl⟩

end Shapes

/-! ### Rules -/

section Rules

variable {F : Functions} {H : Heap} {Q : Word → Heap → Prop} {f l v w doc : Word}
  {vs : List Word} {k : ℕ}

/-- The C functions that the definitions rest on. -/
structure ListPrimitives (F : Functions) : Prop where
  car : ∀ {v Q H}, Q (H.car v) H → F "car" [v] Q H
  cdr : ∀ {v Q H}, Q (H.cdr v) H → F "cdr" [v] Q H
  cons : ∀ {v w Q H}, cell v w Q H → F "cons" [v, w] Q H
  nilp : ∀ {v Q H}, Q (boolval (nilp v)) H → F "nilp" [v] Q H

/-- A call with a list of the word `v` goes from `pre` to `post`, and leaves the objects that there
are. -/
def Applies (x : Word → Outcome Heap Word) (v : Word) (pre : Heap → Prop)
    (post : Word → Heap → Prop) : Prop :=
  ∀ ⦃H : Heap⦄ ⦃args : Word⦄ ⦃Q : Word → Heap → Prop⦄, pre H → ListOf H args [v] →
    (∀ w H', H.Extends H' → post w H' → Q w H') → x args Q H

/-- What is true of a heap stays true when there are more objects. -/
def Lasting (I : Heap → Prop) : Prop := ∀ H H', H.Extends H' → I H → I H'

theorem cell_rule (h : ∀ c H', H.Extends H' → (∀ ws, ListOf H w ws → ListOf H' c (v :: ws)) →
    Q c H') : cell v w Q H := by
  rintro c H' ⟨p, hp, hp8, rfl, rfl⟩
  have hnew := guarantees_cell v w (fun _ _ => True) (fun c H' => H.Extends H' ∧ consp c ∧
    H'.obj (pointer c) = some (.cons v w)) H (fun _ _ hK _ => hK) (fun _ _ _ => trivial)
  obtain ⟨hext, hc, hobj⟩ := hnew _ _ ⟨p, hp, hp8, rfl, rfl⟩
  exact h _ _ hext fun ws hws => ⟨hc, w, hobj, hws.extends hext⟩

/-- `(funcall f (car list))`, with the list of the other arguments. -/
theorem Applies.funcall {pre : Heap → Prop} {post : Word → Heap → Prop} (hF : ListPrimitives F)
    (h : Applies (fun args => F "funcall" [f, args]) v pre post) (hpre : Lasting pre)
    (hl : ListOf H l (v :: vs)) (hH : pre H)
    (hQ : ∀ w H', H.Extends H' → post w H' → Q w H') :
    (do
      let v ← F "car" [l]
      let args ← cell v nil
      F "funcall" [f, args]) Q H := by
  refine hF.car (cell_rule fun args H₁ hext hargs => ?_)
  rw [hl.car] at hargs
  exact h (hpre _ _ hext hH) (hargs [] rfl) fun w H₂ hext' hpost =>
    hQ w H₂ (hext.trans hext') hpost

theorem run_not : (notDefinition doc).run F (k + 1) [v] = F "nilp" [v] := by
  simp [Definition.run, notDefinition, Term.evalProgn_cons, Term.evalProgn_singleton, Term.eval,
    Term.evalArguments, Definition.bindings, Definition.names, Bindings.look]

theorem run_funcall : funcallDefinition.run F (k + 1) [f, l] = F "apply" [f, l] := by
  simp [Definition.run, funcallDefinition, Term.evalProgn_singleton, Term.eval,
    Term.evalArguments, Definition.bindings, Definition.names, Bindings.look]

theorem run_mapcar_nil : (mapcarDefinition doc).run F (k + 1) [f, nil] = pure nil := by
  simp [Definition.run, mapcarDefinition, Term.evalProgn_cons, Term.evalProgn_singleton, Term.eval,
    Definition.bindings, Definition.names, Bindings.look]

/-- Of the arguments of `cons` the last one comes first. -/
theorem run_mapcar_cons (hl : l ≠ nil) : (mapcarDefinition doc).run F (k + 1) [f, l] = (do
    let d ← F "cdr" [l]
    let r ← (mapcarDefinition doc).run F k [f, d]
    let w ← (do
      let v ← F "car" [l]
      let args ← cell v nil
      F "funcall" [f, args])
    F "cons" [w, r]) := by
  rw [Definition.run]
  simp [mapcarDefinition, Term.evalProgn_cons, Term.evalProgn_singleton, Term.eval,
    Term.evalArguments, Term.evalList, Definition.bindings, Definition.names, Bindings.look, hl]

theorem run_removeIf : (removeIfDefinition doc).run F (k + 1) [f, l] = (do
    if (← F "not" [l]) = nil then
      let b ← (do
        let v ← F "car" [l]
        let args ← cell v nil
        F "funcall" [f, args])
      if b = nil then
        let d ← F "cdr" [l]
        let r ← (removeIfDefinition doc).run F k [f, d]
        let v ← F "car" [l]
        F "cons" [v, r]
      else
        let d ← F "cdr" [l]
        (removeIfDefinition doc).run F k [f, d]
    else pure nil) := by
  rw [Definition.run]
  simp [removeIfDefinition, Term.evalProgn_cons, Term.evalProgn_singleton, Term.eval,
    Term.evalArguments, Term.evalList, Definition.bindings, Definition.names, Bindings.look]

section Invariants

variable {J : List Word → List Word → Heap → Prop} (hF : ListPrimitives F)
  (hJ : ∀ us ws, Lasting (J us ws))

include hF hJ

/-- The invariant of `mapcar`: `J us ws` when the results for the last elements `us` are `ws`. -/
theorem run_mapcar_rule (hcall : ∀ us v us', us ++ v :: us' = vs → ∀ ws,
      Applies (fun args => F "funcall" [f, args]) v (J us' ws) fun w => J (v :: us') (w :: ws))
    (hk : vs.length < k) (hl : ListOf H l vs) (hH : J [] [] H)
    (hQ : ∀ r ws H', H.Extends H' → ListOf H' r ws → J vs ws H' → Q r H') :
    (mapcarDefinition doc).run F k [f, l] Q H := by
  induction vs generalizing l k Q with
  | nil =>
    obtain ⟨k, rfl⟩ := Nat.exists_eq_succ_of_ne_zero (Nat.ne_zero_of_lt hk)
    obtain rfl : l = nil := hl
    rw [run_mapcar_nil]
    exact hQ nil [] H (.refl H) rfl hH
  | cons v vs ih =>
    obtain ⟨k, rfl⟩ := Nat.exists_eq_succ_of_ne_zero (Nat.ne_zero_of_lt hk)
    have hne : l ≠ nil := by
      rintro rfl
      exact absurd hl.1 (by decide)
    rw [run_mapcar_cons hne]
    refine hF.cdr (ih (fun us u us' h => hcall (v :: us) u us' (by rw [List.cons_append, h]))
      (Nat.lt_of_succ_lt_succ hk) hl.cdr fun r ws H₁ hext₁ hr hws => ?_)
    refine (hcall [] v vs rfl ws).funcall hF (hJ _ _) (hl.extends hext₁) hws
      fun w H₂ hext₂ hpost => hF.cons (cell_rule fun c H₃ hext₃ hc => ?_)
    exact hQ c (w :: ws) H₃ ((hext₁.trans hext₂).trans hext₃) (hc ws (hr.extends hext₂))
      (hJ _ _ _ _ hext₃ hpost)

/-- The invariant of `remove-if`: `J us ws` when of the first elements `us` those in `ws` stay. -/
theorem run_removeIf_rule (us kept : List Word) (hnot : ∀ v, F "not" [v] = F "nilp" [v])
    (hcall : ∀ us' v vs', us' ++ v :: vs' = us ++ vs → ∀ ws,
      Applies (fun args => F "funcall" [f, args]) v (J us' ws) fun b =>
        J (us' ++ [v]) (if b = nil then ws ++ [v] else ws))
    (hk : vs.length < k) (hl : ListOf H l vs) (hH : J us kept H)
    (hQ : ∀ r ws H', H.Extends H' → ListOf H' r ws → J (us ++ vs) (kept ++ ws) H' → Q r H') :
    (removeIfDefinition doc).run F k [f, l] Q H := by
  induction vs generalizing l k Q us kept H with
  | nil =>
    obtain ⟨k, rfl⟩ := Nat.exists_eq_succ_of_ne_zero (Nat.ne_zero_of_lt hk)
    obtain rfl : l = nil := hl
    rw [run_removeIf, hnot]
    refine hF.nilp ?_
    exact hQ nil [] H (.refl H) rfl (by simpa using hH)
  | cons v vs ih =>
    obtain ⟨k, rfl⟩ := Nat.exists_eq_succ_of_ne_zero (Nat.ne_zero_of_lt hk)
    have hne : nilp l = false := by
      rw [nilp, decide_eq_false]
      rintro rfl
      exact absurd hl.1 (by decide)
    have hdone : us ++ [v] ++ vs = us ++ v :: vs := by simp
    rw [run_removeIf, hnot, Outcome.bind_apply]
    refine hF.nilp ?_
    rw [hne, if_pos (show boolval false = nil from rfl), Outcome.bind_apply]
    refine (hcall us v vs rfl kept).funcall hF (hJ _ _) hl hH fun b H₁ hext₁ hb => ?_
    have hrest := (hl.extends hext₁).cdr
    by_cases hnil : b = nil
    · rw [if_pos hnil] at hb ⊢
      refine hF.cdr (ih _ _ (by rwa [hdone]) (Nat.lt_of_succ_lt_succ hk) hrest hb
        fun r ws H₂ hext₂ hr hws => hF.car (hF.cons (cell_rule fun c H₃ hext₃ hc => ?_)))
      rw [(hl.extends (hext₁.trans hext₂)).car] at hc
      refine hQ c (v :: ws) H₃ ((hext₁.trans hext₂).trans hext₃) (hc ws hr) ?_
      rw [hdone, List.append_assoc] at hws
      exact hJ _ _ _ _ hext₃ hws
    · rw [if_neg hnil] at hb ⊢
      refine hF.cdr (ih _ _ (by rwa [hdone]) (Nat.lt_of_succ_lt_succ hk) hrest hb
        fun r ws H₂ hext₂ hr hws => ?_)
      rw [hdone] at hws
      exact hQ r ws H₂ (hext₁.trans hext₂) hr hws

end Invariants

end Rules

/-! ### Calls of the compiled functions -/

section Loaded

variable {B : Functions} {k : ℕ} {docs : Word × Word × Word} {env : List Function}

/-- What later definitions do not define is left to the older ones. -/
theorem meaning_append {f : String} (newer older : List Definition)
    (h : ∀ d ∈ newer, d.name ≠ f) : meaning B k (newer ++ older) f = meaning B k older f := by
  induction newer with
  | nil => rfl
  | cons d ds ih =>
    rw [← ih fun d' hd' => h d' (List.mem_cons_of_mem _ hd')]
    funext vs
    exact if_neg (h d List.mem_cons_self).symm

theorem meaning_other {f : String} (ds : List Definition) (h : ∀ d ∈ ds, d.name ≠ f) :
    meaning B k ds f = B f := by
  have happend := meaning_append (B := B) (k := k) ds [] h
  rwa [List.append_nil] at happend

theorem meaning_defined (newer : List Definition) (d : Definition) (older : List Definition)
    (h : ∀ d' ∈ newer, d'.name ≠ d.name) :
    meaning B k (newer ++ d :: older) d.name = d.run (meaning B k older) k := by
  rw [meaning_append newer _ h]
  funext vs
  exact if_pos rfl

/-- No definition is in the way of the C functions. -/
theorem ListPrimitives.meaning (hB : ListPrimitives B) {ds : List Definition}
    (h : ∀ d ∈ ds, d.name ∉ ["car", "cdr", "cons", "nilp"]) :
    ListPrimitives (Lisp.meaning B k ds) := by
  have hother : ∀ f ∈ ["car", "cdr", "cons", "nilp"], Lisp.meaning B k ds f = B f := fun f hf =>
    meaning_other ds fun d hd heq => h d hd (heq.symm ▸ hf)
  constructor
  · rw [hother _ (by simp)]
    exact hB.car
  · rw [hother _ (by simp)]
    exact hB.cdr
  · rw [hother _ (by simp)]
    exact hB.cons
  · rw [hother _ (by simp)]
    exact hB.nilp

theorem meaning_funcall (newer older : List Definition) (hnewer : ∀ d ∈ newer, d.name ≠ "funcall")
    (holder : ∀ d ∈ older, d.name ≠ "apply") (f args : Word) :
    meaning B (k + 1) (newer ++ funcallDefinition :: older) "funcall" [f, args] =
      B "apply" [f, args] := by
  have hdefined : meaning B (k + 1) (newer ++ funcallDefinition :: older) "funcall" = _ :=
    meaning_defined newer funcallDefinition older hnewer
  rw [hdefined, run_funcall, meaning_other older holder]

theorem meaning_not (newer older : List Definition) (hnewer : ∀ d ∈ newer, d.name ≠ "not")
    (holder : ∀ d ∈ older, d.name ≠ "nilp") (doc v : Word) :
    meaning B (k + 1) (newer ++ notDefinition doc :: older) "not" [v] = B "nilp" [v] := by
  have hdefined : meaning B (k + 1) (newer ++ notDefinition doc :: older) "not" = _ :=
    meaning_defined newer (notDefinition doc) older hnewer
  rw [hdefined, run_not, meaning_other older holder]

/-- The functions are not those of the library, and none is a macro. -/
structure ListEnv (env : List Function) : Prop where
  car : takes env "car" = some ⟨1, [], false⟩
  cdr : takes env "cdr" = some ⟨1, [], false⟩
  cons : takes env "cons" = some ⟨2, [], false⟩
  nilp : takes env "nilp" = some ⟨1, [], false⟩
  apply : takes env "apply" = some ⟨2, [], false⟩
  noMacro : ∀ f ∈ env, f.namespc ≠ .macro_

/-- A function that is defined later. -/
theorem takes_cons_of_ne {f name : String} (h : f ≠ name) (args : Args) (code : CodePtr) :
    takes (⟨name, args, .function, code⟩ :: env) f = takes env f := by
  rw [takes, List.find?_cons_of_neg (by simpa using h.symm), takes]

theorem takes_cons_self (name : String) (args : Args) (code : CodePtr) :
    takes (⟨name, args, .function, code⟩ :: env) name = some args := by
  rw [takes, List.find?_cons_of_pos (by simp)]
  rfl

theorem noMacro_cons {f : Function} (h : ∀ g ∈ env, g.namespc ≠ .macro_)
    (hf : f.namespc = .function) : ∀ g ∈ f :: env, g.namespc ≠ .macro_ := by
  rintro g (_ | ⟨_, hg⟩)
  · rw [hf]
    decide
  · exact h g hg

theorem NoMacro.of_all (h : ∀ g ∈ env, g.namespc ≠ .macro_) (x : String) : NoMacro env x :=
  fun g hg => h g (List.mem_of_find?_eq_some hg)

theorem listFunctions_compilable (h : ListEnv env) :
    AllCompilable env (listFunctions docs) := by
  refine ⟨⟨?_, fun x _ => .of_all h.noMacro x, ?_⟩, fun c₁ => ⟨⟨?_, fun x _ => .of_all
    (noMacro_cons h.noMacro rfl) x, ?_⟩, fun c₂ => ⟨⟨?_, fun x _ => .of_all (noMacro_cons
    (noMacro_cons h.noMacro rfl) rfl) x, ?_⟩, fun c₃ => ⟨⟨?_, fun x _ => .of_all (noMacro_cons
    (noMacro_cons (noMacro_cons h.noMacro rfl) rfl) rfl) x, ?_⟩, fun c₄ => trivial⟩⟩⟩⟩
  all_goals simp [Definition.Legal, Definition.Reserved, notDefinition, funcallDefinition,
    mapcarDefinition, removeIfDefinition, Term.LegalBody, Term.Legal, Term.LegalArguments,
    Term.binds, Term.bindsAll, Definition.names, Definition.args, Term.letsAll, Term.lets,
    takes_cons_of_ne, takes_cons_self, h.car, h.cdr, h.cons, h.nilp, h.apply]

/-- A call of the program `j` with the words `vs` returns a word with `Q`, to wherever it was made
from. -/
def Answers (calls : Val → Machine → Machine → Prop) (back : ℕ → ℕ → Val) (programs : List Code)
    (j : ℕ) (H : Heap) (vs : List Word) (Q : Word → Heap → Prop) : Prop :=
  ∀ ⦃e : Machine⦄ ⦃q r : ℕ⦄, e.pc = 0 → e.top = back q r → (e.drop 4).OnStack vs → e.heap = H →
    (image calls back programs).Inevitably (CameBack vs.length e q r Q) (j, e)

theorem Serves.answers {calls : Val → Machine → Machine → Prop} {back : ℕ → ℕ → Val}
    {programs : List Code} {j : ℕ} {x : List Word → Outcome Heap Word} {H : Heap} {vs : List Word}
    {Q : Word → Heap → Prop} (h : Serves calls back programs j vs.length x) (hx : x vs Q H) :
    Answers calls back programs j H vs Q := by
  rintro e q r hpc htop hvs rfl
  exact h hpc htop hvs rfl hx

/-- `mapcar` with `f` makes a new list: of what `f` returns for each element, from the last one to
the first. -/
def Maps (B : Functions) (answers : Heap → List Word → (Word → Heap → Prop) → Prop) : Prop :=
  ∀ (H : Heap) (f l : Word) (vs : List Word) (J : List Word → List Word → Heap → Prop),
    ListOf H l vs → (∀ us ws, Lasting (J us ws)) → J [] [] H →
    (∀ us v us', us ++ v :: us' = vs → ∀ ws, Applies (fun args => B "apply" [f, args]) v (J us' ws)
      fun w => J (v :: us') (w :: ws)) →
    answers H [f, l] fun r H' => H.Extends H' ∧ ∃ ws, ListOf H' r ws ∧ J vs ws H'

/-- `remove-if` with `f` makes a new list: of the elements for which `f` returns `nil`, from the
first one to the last. -/
def Filters (B : Functions) (answers : Heap → List Word → (Word → Heap → Prop) → Prop) : Prop :=
  ∀ (H : Heap) (f l : Word) (vs : List Word) (J : List Word → List Word → Heap → Prop),
    ListOf H l vs → (∀ us ws, Lasting (J us ws)) → J [] [] H →
    (∀ us v us', us ++ v :: us' = vs → ∀ ws, Applies (fun args => B "apply" [f, args]) v (J us ws)
      fun b => J (us ++ [v]) (if b = nil then ws ++ [v] else ws)) →
    answers H [f, l] fun r H' => H.Extends H' ∧ ∃ ws, ListOf H' r ws ∧ J vs ws H'

variable {answers : Heap → List Word → (Word → Heap → Prop) → Prop}

theorem maps_of_meaning (docs : Word × Word × Word) (hB : ListPrimitives B)
    (h : ∀ k H vs Q, vs.length = 2 → meaning B k (listFunctions docs).reverse "mapcar" vs Q H →
      answers H vs Q) : Maps B answers := by
  intro H f l vs J hl hJ hH hcall
  refine h (vs.length + 1) H [f, l] _ rfl ?_
  set older : List Definition := [funcallDefinition, notDefinition docs.1] with holder
  have hF : ListPrimitives (meaning B (vs.length + 1) older) :=
    hB.meaning (by simp [holder, funcallDefinition, notDefinition])
  have hmapcar : meaning B (vs.length + 1) (listFunctions docs).reverse "mapcar" = _ :=
    meaning_defined [removeIfDefinition docs.2.2] (mapcarDefinition docs.2.1) older
      (by simp [removeIfDefinition, mapcarDefinition])
  have hfuncall : ∀ args, meaning B (vs.length + 1) older "funcall" [f, args] = _ :=
    meaning_funcall [] [notDefinition docs.1] (by simp) (by simp [notDefinition]) f
  rw [hmapcar]
  refine run_mapcar_rule hF hJ (fun us v us' hvs ws => ?_) (Nat.lt_succ_self _) hl hH
    fun r ws H' hext hr hws => ⟨hext, ws, hr, hws⟩
  simp only [hfuncall]
  exact hcall us v us' hvs ws

theorem filters_of_meaning (docs : Word × Word × Word) (hB : ListPrimitives B)
    (h : ∀ k H vs Q, vs.length = 2 → meaning B k (listFunctions docs).reverse "remove-if" vs Q H →
      answers H vs Q) : Filters B answers := by
  intro H f l vs J hl hJ hH hcall
  refine h (vs.length + 1) H [f, l] _ rfl ?_
  set older : List Definition :=
    [mapcarDefinition docs.2.1, funcallDefinition, notDefinition docs.1] with holder
  have hF : ListPrimitives (meaning B (vs.length + 1) older) :=
    hB.meaning (by simp [holder, mapcarDefinition, funcallDefinition, notDefinition])
  have hremoveIf : meaning B (vs.length + 1) (listFunctions docs).reverse "remove-if" = _ :=
    meaning_defined [] (removeIfDefinition docs.2.2) older (by simp)
  have hfuncall : ∀ args, meaning B (vs.length + 1) older "funcall" [f, args] = _ :=
    meaning_funcall [mapcarDefinition docs.2.1] [notDefinition docs.1]
      (by simp [mapcarDefinition]) (by simp [notDefinition]) f
  have hnot : ∀ v, meaning B (vs.length + 1) older "not" [v] = B "nilp" [v] :=
    meaning_not [mapcarDefinition docs.2.1, funcallDefinition] []
      (by simp [mapcarDefinition, funcallDefinition]) (by simp) docs.1
  have hnilp : meaning B (vs.length + 1) older "nilp" = B "nilp" :=
    meaning_other older (by simp [holder, mapcarDefinition, funcallDefinition, notDefinition])
  rw [hremoveIf]
  refine run_removeIf_rule hF hJ [] [] (fun v => (hnot v).trans (congrFun hnilp.symm [v]))
    (fun us v us' hvs ws => ?_) (Nat.lt_succ_self _) hl hH
    fun r ws H' hext hr hws => ⟨hext, ws, hr, hws⟩
  simp only [hfuncall]
  exact hcall us v us' hvs ws

/-- With a function that computes `g` and changes nothing, `mapcar` is `List.map`. -/
theorem Maps.map (h : Maps B answers) {g : Word → Word} {H : Heap} {f l : Word} {vs : List Word}
    (hl : ListOf H l vs) (hf : ∀ v ∈ vs, Applies (fun args => B "apply" [f, args]) v
      (fun _ => True) fun w _ => w = g v) :
    answers H [f, l] fun r H' => H.Extends H' ∧ ∃ ws, ListOf H' r ws ∧ ws = vs.map g := by
  refine h H f l vs (fun us ws _ => ws = us.map g) hl (fun _ _ _ _ _ hws => hws) rfl ?_
  rintro us v us' rfl ws H args Q rfl hargs hQ
  refine hf v (by simp) trivial hargs fun w H' hext hw => hQ w H' hext ?_
  rw [hw, List.map_cons]

/-- With a predicate that computes `b` and changes nothing, `remove-if` keeps the others. -/
theorem Filters.filter (h : Filters B answers) {b : Word → Bool} {H : Heap} {f l : Word}
    {vs : List Word} (hl : ListOf H l vs) (hf : ∀ v ∈ vs, Applies
      (fun args => B "apply" [f, args]) v (fun _ => True) fun w _ => w = nil ↔ b v = false) :
    answers H [f, l] fun r H' => H.Extends H' ∧
      ∃ ws, ListOf H' r ws ∧ ws = vs.filter fun v => !b v := by
  refine h H f l vs (fun us ws _ => ws = us.filter fun v => !b v) hl (fun _ _ _ _ _ hws => hws)
    rfl ?_
  rintro us v us' rfl ws H args Q rfl hargs hQ
  refine hf v (by simp) trivial hargs fun w H' hext hw => hQ w H' hext ?_
  rw [List.filter_append]
  by_cases hnil : w = nil
  · simp [hnil, hw.1 hnil]
  · simp [hnil, Bool.eq_true_of_not_eq_false fun hb => hnil (hw.2 hb)]

/-- **`mapcar` and `remove-if`, from the text of the library to the machine.**  Once `load` has
loaded the definitions, however they are laid out, there are programs for `mapcar` and `remove-if`.
In a machine with these programs and perhaps others, where `apply` and the other C functions do what
`B` says, calls of these programs map and filter proper lists of any length, from anywhere, and
change no object that there was. -/
theorem load_listFunctions {text : List Char} (files : String → Option (List Char)) (path : String)
    (p : Process) (hopen : files path = some text) (hfile : Contents text listTrees)
    (henv : ListEnv p.world.env) (R : Runtime) :
    ∃ N, ∀ n ≥ N, ∃ l p', load (.ofRuntime R n files) (n + 1) path p = some (⟨true, l⟩, p') ∧
      p.world.heap.Extends p'.world.heap ∧ ∃ mapcar removeIf : ℕ,
        (p'.world.env.find? fun g => g.name = "mapcar") =
          some ⟨"mapcar", ⟨2, [], false⟩, .function, .program mapcar⟩ ∧
        (p'.world.env.find? fun g => g.name = "remove-if") =
          some ⟨"remove-if", ⟨2, [], false⟩, .function, .program removeIf⟩ ∧
        ∀ calls back programs B, Addresses back → Implements calls .cons consOf →
          Provided calls back programs p.world.env B → ListPrimitives B →
          p'.world.programs <+: programs →
          Maps B (Answers calls back programs mapcar) ∧
            Filters B (Answers calls back programs removeIf) := by
  obtain ⟨ds, G, N, hshapes, hG, -, hN⟩ := load_defined files path p hopen hfile listTrees_isDefun R
    (listFunctions_compilable henv)
  obtain ⟨docs, rfl⟩ := listFunctions_of_shape hshapes
  refine ⟨N, fun n hn => ?_⟩
  obtain ⟨l, p', hload, hheap, -, hdefined⟩ := hN n hn
  obtain ⟨mapcar, hmapcar, hmaps⟩ := hdefined.serves
    (show ((listFunctions docs).reverse.find? fun d => d.name = "mapcar") =
      some (mapcarDefinition docs.2.1) from rfl)
  obtain ⟨removeIf, hremoveIf, hfilters⟩ := hdefined.serves
    (show ((listFunctions docs).reverse.find? fun d => d.name = "remove-if") =
      some (removeIfDefinition docs.2.2) from rfl)
  refine ⟨l, p', hload, hheap ▸ hG, mapcar, removeIf, hmapcar, hremoveIf,
    fun calls back programs B hback hcons hprovided hB hprefix => ⟨?_, ?_⟩⟩
  · refine maps_of_meaning docs hB fun k H vs Q hlen hx => ?_
    have hserves := hmaps calls back programs B hback hcons hprovided hprefix k
    rw [show (mapcarDefinition docs.2.1).names.length = vs.length from hlen.symm] at hserves
    exact hserves.answers hx
  · refine filters_of_meaning docs hB fun k H vs Q hlen hx => ?_
    have hserves := hfilters calls back programs B hback hcons hprovided hprefix k
    rw [show (removeIfDefinition docs.2.2).names.length = vs.length from hlen.symm] at hserves
    exact hserves.answers hx

end Loaded

/-- The definitions as they are printed, on lines of their own. -/
def listText : List Char := listTrees.flatMap fun e => e.text ++ ['\n']

/-- The C functions that they use. -/
def primitiveEnv : List Function :=
  [⟨"car", ⟨1, [], false⟩, .function, .builtin "car"⟩,
    ⟨"cdr", ⟨1, [], false⟩, .function, .builtin "cdr"⟩,
    ⟨"cons", ⟨2, [], false⟩, .function, .builtin "cons"⟩,
    ⟨"nilp", ⟨1, [], false⟩, .function, .builtin "l_nilp"⟩,
    ⟨"apply", ⟨2, [], false⟩, .function, .builtin "l_apply"⟩]

theorem primitiveEnv_ok : ListEnv primitiveEnv where
  car := rfl
  cdr := rfl
  cons := rfl
  nilp := rfl
  apply := rfl
  noMacro := by simp [primitiveEnv]

/-- The names in the definitions. -/
def listNames : List String :=
  ["defun", "not", "val", "nilp", "funcall", "fun", "&", "list", "apply", "mapcar", "if", "cons",
    "car", "cdr", "nil", "remove-if", "predicate"]

def listDocs : List String := [notDoc, mapcarDoc, removeIfDoc]

/-- A test for symbols that can be read. -/
def readableName (s : String) : Bool :=
  (s.toList.head?.any fun c => issymstart c ∧ c ∉ ['\'', ',', '#']) && s.toList.tail.all issym

/-- A test for strings that can be read. -/
def readableText (s : String) : Bool :=
  s.toList.all fun c => c ≠ '"' ∧ c ≠ '\\' ∧ 0 < c.toNat ∧ c.toNat < 128

theorem printable_symbol {s : String} (h : readableName s) : (Sexp.symbol s).Printable := by
  unfold readableName at h
  cases hs : s.toList with
  | nil => simp [hs] at h
  | cons c cs =>
    simp only [hs, List.head?_cons, Option.any_some, List.tail_cons, Bool.and_eq_true,
      decide_eq_true_eq, List.all_eq_true] at h
    exact ⟨c, cs, hs, h.1.1, h.2, h.1.2⟩

theorem printable_string {s : String} (h : readableText s) : (Sexp.string s).Printable :=
  fun c hc => of_decide_eq_true (List.all_eq_true.1 h c hc)

theorem readableText_ofList {l : List Char}
    (h : (l.all fun c => c ≠ '"' ∧ c ≠ '\\' ∧ 0 < c.toNat ∧ c.toNat < 128) = true) :
    readableText (String.ofList l) = true := by
  rwa [readableText, String.toList_ofList]

theorem readableText_append {s s' : String} (h : readableText s = true)
    (h' : readableText s' = true) : readableText (s ++ s') = true := by
  rw [readableText, String.toList_append, List.all_append, Bool.and_eq_true]
  exact ⟨h, h'⟩

theorem listText_contents : Contents listText listTrees := by
  have hsymbol : ∀ s ∈ listNames, (Sexp.symbol s).Printable := by
    have hall : listNames.all readableName = true := by decide
    exact fun s hs => printable_symbol (List.all_eq_true.1 hall s hs)
  have hdoc : ∀ s ∈ listDocs, (Sexp.string s).Printable := by
    simp only [listDocs, List.forall_mem_cons, List.not_mem_nil, false_imp_iff, implies_true,
      and_true]
    exact ⟨printable_string (readableText_ofList (by decide)),
      printable_string (readableText_append (readableText_ofList (by decide))
        (readableText_ofList (by decide))),
      printable_string (readableText_ofList (by decide))⟩
  have hcons : ∀ a d : Sexp, (a.cons d).Printable ↔ a.Printable ∧ d.PrintableTail :=
    fun _ _ => Iff.rfl
  have hprintable : ∀ e ∈ listTrees, e.Printable := by
    simp only [listNames, List.forall_mem_cons] at hsymbol
    simp only [listDocs, List.forall_mem_cons] at hdoc
    simp [listTrees, notTree, funcallTree, mapcarTree, removeIfTree, definitionTree, onCar, onCdr,
      Sexp.list, hcons, Sexp.PrintableTail, hsymbol, hdoc]
  exact contents_lines hprintable

theorem load_listFunctions_printed : ∃ N, ∀ n ≥ N, ∃ l p',
    load (.ofRuntime .inert n fun _ => some listText) (n + 1) "std.lisp"
        ⟨⟨Heap.ofList [], fun _ => 0, 0, primitiveEnv, []⟩, 0⟩ = some (⟨true, l⟩, p') ∧
      (Heap.ofList []).Extends p'.world.heap ∧ ∃ mapcar removeIf : ℕ,
        (p'.world.env.find? fun g => g.name = "mapcar") =
          some ⟨"mapcar", ⟨2, [], false⟩, .function, .program mapcar⟩ ∧
        (p'.world.env.find? fun g => g.name = "remove-if") =
          some ⟨"remove-if", ⟨2, [], false⟩, .function, .program removeIf⟩ ∧
        ∀ calls back programs B, Addresses back → Implements calls .cons consOf →
          Provided calls back programs primitiveEnv B → ListPrimitives B →
          p'.world.programs <+: programs →
          Maps B (Answers calls back programs mapcar) ∧
            Filters B (Answers calls back programs removeIf) :=
  load_listFunctions (fun _ => some listText) "std.lisp"
    ⟨⟨Heap.ofList [], fun _ => 0, 0, primitiveEnv, []⟩, 0⟩ rfl listText_contents primitiveEnv_ok
    .inert

end Lisp

end Bluejay
