import Bluejay.Lisp.Cells

/-!
# `dolist`

* `let_`, `dolist` : what the macros `let` and `dolist` of the standard library expand to.
* `VisitsEach` : the expansion evaluates the body once for every element, in order, with the
  variable bound to it.
* `BodyRuns` : what the body does for one element after the other.
* `calls_loop` : one call of the lambda of the expansion.
* `visitsEach_iff` : the body is evaluated before the end of the list is looked for; so `dolist`
  does what it should exactly if the list is not empty and the body does not call the lambda.
* `quiet_of_avoids` : it does not where it has no `recurse` outside of its own lambdas.
-/

namespace Bluejay

namespace Lisp

namespace Language

/-! ### The macros -/

/-- `let`; its `progn` is at `cell`. -/
def let_ (cell : ℕ) : List (String × Form) → List Form → Form
  | [], body => .progn cell body
  | (x, form) :: bindings, body => .let1 x form [let_ cell bindings body]

/-- The lambda in the expansion of `dolist`, whose two `progn`s are at `cell` and behind it. -/
def dolistLambda (restSym : String) (cell : ℕ) (var : String) (body : List Form) : Lambda :=
  .mk [restSym] [] none
    [let_ (cell + 1) [(var, .call "car" [.var restSym])]
      [.progn cell body,
        .ite (.call "cdr" [.var restSym])
          (.recurse [.call "cdr" [.var restSym]])
          (.const .nil)]]

/-- `(dolist (var list) body ...)`, where `gensym` returns `restSym`. -/
def dolist (restSym : String) (cell : ℕ) (var : String) (list : Form) (body : List Form) : Form :=
  .call "funcall" [.lambda (dolistLambda restSym cell var body), list]

/-! ### What it is for -/

/-- What `var` is bound to whenever the `progn` at `cell` is evaluated. -/
def visits (cell : ℕ) (var : String) (t : List Event) : List (Option Value) :=
  (t.filter fun e => e.cell = cell).map fun e => e.env.lookup var

variable {W : Type} (L : Language W) (c : Scope) (restSym : String) (cell : ℕ) (var : String)
  (list : Form) (body : List Form)

/-- `dolist` evaluates the body exactly once for each of the values `xs`, in order. -/
def VisitsEach (xs : List Value) (w : W) : Prop :=
  ∃ N r w' t, (∀ n ≥ N, L.eval n c (dolist restSym cell var list body) w = some (r, w', t)) ∧
    visits cell var t = xs.map some

/-- The value of the lambda. -/
abbrev dolistClosure : Value := .closure (dolistLambda restSym cell var body) c.env

/-- Where the body is evaluated while `l` is left of the list. -/
def turnScope (l : Value) : Scope :=
  ⟨(var, l.car) :: (restSym, l) :: c.env, some (dolistClosure c restSym cell var body)⟩

/-- The body returns for each of the values `xs` in turn; `ts` is what is reported. -/
inductive BodyRuns : List Value → W → List (List Event) → W → Prop
  | nil {w : W} : BodyRuns [] w [] w
  | cons {x u : Value} {xs : List Value} {w w₁ w' : W} {t : List Event} {ts : List (List Event)}
      (h : EvaluatesAll L (turnScope c restSym cell var body (.list (x :: xs))) body w (u, w₁, t))
      (hs : BodyRuns xs w₁ ts w') : BodyRuns (x :: xs) w (t :: ts) w'

section Loop

variable {L c restSym cell var list body} {l r : Value} {xs : List Value} {w w' w₁ : W}
  {t : List Event} {ts : List (List Event)}

theorem visits_append (cell : ℕ) (var : String) (t t' : List Event) :
    visits cell var (t ++ t') = visits cell var t ++ visits cell var t' := by
  rw [visits, List.filter_append, List.map_append]
  rfl

theorem visits_eq_nil : visits cell var t = [] ↔ ∀ e ∈ t, e.cell ≠ cell := by
  simp [visits, List.filter_eq_nil_iff]

theorem evaluates_dolist : Evaluates L c (dolist restSym cell var list body) w (r, w', t) ↔
    ∃ l w₁ t₁ t₂, Evaluates L c list w (l, w₁, t₁) ∧
      Calls L (dolistClosure c restSym cell var body) [l] w₁ (r, w', t₂) ∧
      t = t₁ ++ t₂ := by
  rw [dolist, evaluates_call]
  simp only [evaluatesArgs_cons, evaluatesArgs_nil, evaluates_lambda]
  constructor
  · rintro ⟨vs, w₁, t₁, t₂, ⟨_, w₂, _, _, ⟨_, w₃, _, _, hnil, ⟨l, hl, rfl⟩, rfl⟩, ⟨_, hlambda, rfl⟩,
      rfl⟩, hcall, rfl⟩
    cases hnil
    cases hlambda
    exact ⟨l, w₁, _, t₂, hl, invokes_funcall.1 hcall, by simp⟩
  · rintro ⟨l, w₁, t₁, t₂, hl, hcall, rfl⟩
    exact ⟨_, w₁, t₁, t₂, ⟨_, w₁, t₁, [], ⟨_, w, [], t₁, rfl, ⟨l, hl, rfl⟩, rfl⟩, ⟨_, rfl, rfl⟩,
      (List.append_nil t₁).symm⟩, invokes_funcall.2 hcall, rfl⟩

/-- `car` or `cdr` of a variable. -/
theorem evaluates_onPair {c : Scope} {name x : String} {v v' : Value} {r : Value × W × List Event}
    (hx : c.env.lookup x = some v)
    (hname : ∀ w r, Invokes L name [v] w r ↔ r = (v', w, [])) :
    Evaluates L c (.call name [.var x]) w r ↔ r = (v', w, []) := by
  obtain ⟨u, w', t⟩ := r
  rw [evaluates_call]
  simp only [evaluatesArgs_cons, evaluatesArgs_nil, evaluates_var hx]
  constructor
  · rintro ⟨vs, w₁, t₁, t₂, ⟨_, w₂, _, _, hnil, ⟨_, hv, rfl⟩, rfl⟩, hcall, rfl⟩
    cases hnil
    cases hv
    cases (hname _ _).1 hcall
    rfl
  · intro h
    cases h
    exact ⟨_, w, [], [], ⟨_, w, [], [], rfl, ⟨_, rfl, rfl⟩, rfl⟩, (hname _ _).2 rfl, rfl⟩

/-- What stands behind the body in the lambda. -/
theorem evaluates_rest (hs : restSym ≠ var) :
    Evaluates L (turnScope c restSym cell var body l)
        (.ite (.call "cdr" [.var restSym]) (.recurse [.call "cdr" [.var restSym]]) (.const .nil))
        w (r, w', t) ↔
      if l.cdr.isNil then (r, w', t) = (.nil, w, [])
      else Calls L (dolistClosure c restSym cell var body) [l.cdr] w (r, w', t) := by
  have hlookup : (turnScope c restSym cell var body l).env.lookup restSym = some l := by
    have hne : (restSym == var) = false := beq_eq_false_iff_ne.2 hs
    simp [turnScope, List.lookup_cons, hne]
  have hcdr : ∀ w r, Evaluates L (turnScope c restSym cell var body l)
      (.call "cdr" [.var restSym]) w r ↔ r = (l.cdr, w, []) := fun w r =>
    evaluates_onPair hlookup fun _ _ => invokes_cdr
  rw [evaluates_ite]
  simp only [hcdr]
  split_ifs with hnil
  · constructor
    · rintro ⟨u, w₁, t₁, t₂, hu, hno, rfl⟩
      cases hu
      rw [if_pos hnil] at hno
      exact evaluates_const.1 hno
    · intro h
      cases h
      exact ⟨l.cdr, w, [], [], rfl, by rw [if_pos hnil]; exact evaluates_const.2 rfl, rfl⟩
  · have hrecurse : ∀ {w w' : W} {r : Value} {t : List Event},
        Evaluates L (turnScope c restSym cell var body l)
            (.recurse [.call "cdr" [.var restSym]]) w (r, w', t) ↔
          Calls L (dolistClosure c restSym cell var body) [l.cdr] w (r, w', t) := by
      intro w w' r t
      rw [evaluates_recurse rfl]
      simp only [evaluatesArgs_cons, evaluatesArgs_nil, hcdr]
      constructor
      · rintro ⟨vs, w₁, t₁, t₂, ⟨_, w₂, _, _, hargs, ⟨_, hv, rfl⟩, rfl⟩, hcall, rfl⟩
        cases hargs
        cases hv
        exact hcall
      · intro h
        exact ⟨_, w, [], t, ⟨_, w, [], [], rfl, ⟨_, rfl, rfl⟩, rfl⟩, h, rfl⟩
    constructor
    · rintro ⟨u, w₁, t₁, t₂, hu, hyes, rfl⟩
      cases hu
      rw [if_neg hnil] at hyes
      exact hrecurse.1 hyes
    · intro h
      exact ⟨l.cdr, w, [], t, rfl, by rw [if_neg hnil]; exact hrecurse.2 h, rfl⟩

/-- One call of the lambda: the body, and only then the question whether there is a rest. -/
theorem calls_loop (hs : restSym ≠ var) :
    Calls L (dolistClosure c restSym cell var body) [l] w (r, w', t) ↔
      ∃ u w₁ t₁ t₂, EvaluatesAll L (turnScope c restSym cell var body l) body w (u, w₁, t₁) ∧
        (if l.cdr.isNil then (r, w', t₂) = (.nil, w₁, [])
          else Calls L (dolistClosure c restSym cell var body) [l.cdr] w₁ (r, w', t₂)) ∧
        t = ⟨cell + 1, (turnScope c restSym cell var body l).env⟩ ::
          ⟨cell, (turnScope c restSym cell var body l).env⟩ :: (t₁ ++ t₂) := by
  have hbind : (dolistLambda restSym cell var body).bind [l] = some [(restSym, l)] := rfl
  have hcar : ∀ w r, Evaluates L ⟨(restSym, l) :: c.env,
      some (dolistClosure c restSym cell var body)⟩
      (.call "car" [.var restSym]) w r ↔ r = (l.car, w, []) := fun w r =>
    evaluates_onPair (by simp) fun _ _ => invokes_car
  rw [calls_closure hbind]
  -- `let`, its `progn`, and the `progn` with the body
  have hlet : ∀ w w' r t, EvaluatesAll L ⟨(restSym, l) :: c.env,
      some (dolistClosure c restSym cell var body)⟩
      (dolistLambda restSym cell var body).body w (r, w', t) ↔
      Evaluates L (turnScope c restSym cell var body l) (.progn (cell + 1) [.progn cell body,
        .ite (.call "cdr" [.var restSym]) (.recurse [.call "cdr" [.var restSym]]) (.const .nil)])
        w (r, w', t) := by
    intro w w' r t
    refine evaluates_let1.trans ?_
    simp only [hcar]
    constructor
    · rintro ⟨u, w₁, t₁, t₂, hu, hbody, rfl⟩
      cases hu
      exact hbody
    · intro h
      exact ⟨l.car, w, [], t, rfl, h, rfl⟩
  refine (hlet w w' r t).trans ?_
  simp only [evaluates_progn, evaluatesAll_cons, evaluatesAll_singleton, evaluates_rest hs]
  constructor
  · rintro ⟨t', ⟨u, w₁, _, t₂, ⟨t₁, hbody, rfl⟩, hrest, rfl⟩, rfl⟩
    exact ⟨u, w₁, t₁, t₂, hbody, hrest, rfl⟩
  · rintro ⟨u, w₁, t₁, t₂, hbody, hrest, rfl⟩
    exact ⟨_, ⟨u, w₁, _, t₂, ⟨t₁, hbody, rfl⟩, hrest, rfl⟩, rfl⟩

theorem visits_turn (env : Env) (t : List Event) :
    visits cell var (⟨cell + 1, env⟩ :: ⟨cell, env⟩ :: t) =
      env.lookup var :: visits cell var t := by
  simp [visits]

/-- The loop over a list that is not empty. -/
theorem calls_list (hs : restSym ≠ var) (hbody : BodyRuns L c restSym cell var body xs w ts w')
    (hne : xs ≠ []) : ∃ t,
    Calls L (dolistClosure c restSym cell var body) [.list xs] w (.nil, w', t) ∧
      xs.length ≤ (visits cell var t).length ∧
      (visits cell var t = xs.map some ↔ ∀ t ∈ ts, visits cell var t = []) := by
  induction hbody with
  | nil => exact absurd rfl hne
  | @cons x u xs w w₁ w' t ts h hbody ih =>
    have hvar : (turnScope c restSym cell var body (.list (x :: xs))).env.lookup var = some x := by
      simp [turnScope, Value.list, Value.car]
    cases hbody with
    | nil =>
      refine ⟨_, (calls_loop hs).2 ⟨u, w₁, t, [], h, rfl, rfl⟩, ?_⟩
      rw [visits_turn, hvar, List.append_nil]
      simp
    | @cons y u' xs w₁ w₂ w' t' ts h' hbody =>
      obtain ⟨t₂, hcall, hlen, hiff⟩ := ih (List.cons_ne_nil y xs)
      refine ⟨_, (calls_loop hs).2 ⟨u, w₁, t, t₂, h, hcall, rfl⟩, ?_⟩
      rw [visits_turn, hvar, visits_append, List.forall_mem_cons, ← hiff, List.map_cons,
        List.cons_inj_right]
      refine ⟨by simp at hlen ⊢; omega, fun heq => ?_, fun h => by rw [h.1, h.2]; rfl⟩
      -- what was visited behind the first turn is long enough already
      have hnil : visits cell var t = [] := by
        have hlen' := congrArg List.length heq
        rw [List.length_append, List.length_map] at hlen'
        exact List.eq_nil_of_length_eq_zero (by omega)
      exact ⟨hnil, by rwa [hnil] at heq⟩

/-- For the empty list, the body is evaluated before anything is asked. -/
theorem visits_nil (hs : restSym ≠ var)
    (h : Calls L (dolistClosure c restSym cell var body) [.nil] w (r, w', t)) :
    visits cell var t ≠ [] := by
  obtain ⟨u, w₁, t₁, t₂, -, -, rfl⟩ := (calls_loop hs).1 h
  rw [visits_turn]
  exact List.cons_ne_nil _ _

/-- What `dolist` visits is what the call of the lambda does. -/
theorem VisitsEach.calls (hlist : Evaluates L c list w (.list xs, w₁, t))
    (hnew : ∀ e ∈ t, e.cell ≠ cell) (h : VisitsEach L c restSym cell var list body xs w) :
    ∃ r w' t', Calls L (dolistClosure c restSym cell var body) [.list xs] w₁
      (r, w', t') ∧ visits cell var t' = xs.map some := by
  obtain ⟨N, r, w', t', hrun, hvisits⟩ := h
  obtain ⟨l, w₁', t₁, t₂, hl, hcall, rfl⟩ := evaluates_dolist.1 ⟨N, hrun N (Nat.le_refl N)⟩
  cases Traced.limit_unique (eval_mono L c list) hl hlist
  rw [visits_append, visits_eq_nil.2 hnew, List.nil_append] at hvisits
  exact ⟨r, w', t₂, hcall, hvisits⟩

theorem VisitsEach.ne_nil (hs : restSym ≠ var) (hlist : Evaluates L c list w (.list xs, w₁, t))
    (hnew : ∀ e ∈ t, e.cell ≠ cell) (h : VisitsEach L c restSym cell var list body xs w) :
    xs ≠ [] := by
  rintro rfl
  obtain ⟨r, w', t', hcall, hvisits⟩ := h.calls hlist hnew
  exact visits_nil hs hcall hvisits

/-- **`dolist` visits each element once exactly if** the list is not empty and no evaluation of the
body calls the lambda of the expansion again. -/
theorem visitsEach_iff (hs : restSym ≠ var) (hlist : Evaluates L c list w (.list xs, w₁, t))
    (hnew : ∀ e ∈ t, e.cell ≠ cell) (hbody : BodyRuns L c restSym cell var body xs w₁ ts w') :
    VisitsEach L c restSym cell var list body xs w ↔
      xs ≠ [] ∧ ∀ t ∈ ts, ∀ e ∈ t, e.cell ≠ cell := by
  have hturns : (∀ t ∈ ts, ∀ e ∈ t, e.cell ≠ cell) ↔ ∀ t ∈ ts, visits cell var t = [] :=
    forall₂_congr fun t _ => visits_eq_nil.symm
  rw [hturns]
  constructor
  · intro h
    have hne := h.ne_nil hs hlist hnew
    obtain ⟨r, w'', t₂, hcall, hvisits⟩ := h.calls hlist hnew
    obtain ⟨t₃, hcall', -, hiff⟩ := calls_list hs hbody hne
    cases Traced.limit_unique (callValue_mono L _ _) hcall hcall'
    exact ⟨hne, hiff.1 hvisits⟩
  · rintro ⟨hne, hts⟩
    obtain ⟨t₂, hcall, -, hiff⟩ := calls_list hs hbody hne
    have hrun := evaluates_dolist.2 ⟨_, w₁, t, t₂, hlist, hcall, rfl⟩
    obtain ⟨N, hN⟩ := hrun.eventually (eval_mono L c _)
    refine ⟨N, _, _, _, hN, ?_⟩
    rw [visits_append, visits_eq_nil.2 hnew, List.nil_append, hiff.2 hts]

/-- A program without functions of its own. -/
def emptyLanguage : Language Unit := ⟨fun _ => none, fun _ _ _ => none⟩

def topLevel : Scope := ⟨[], none⟩

/-- `(dolist (x '(nil 1)) x)` -/
theorem visitsEach_two : VisitsEach emptyLanguage topLevel "-sym-0" 0 "x"
    (.const (.list [.nil, .int 1])) [.var "x"] [.nil, .int 1] () := by
  have hvar : ∀ l, EvaluatesAll emptyLanguage (turnScope topLevel "-sym-0" 0 "x" [.var "x"] l)
      [.var "x"] () (l.car, (), []) := fun l =>
    evaluatesAll_singleton.2 ((evaluates_var (by simp [turnScope])).2 rfl)
  exact (visitsEach_iff (by decide) (evaluates_const.2 rfl) nofun
    (.cons (hvar _) (.cons (hvar _) .nil))).2 ⟨nofun, by simp⟩

/-- **`(dolist (x nil) x)`** evaluates its body. -/
theorem not_visitsEach : ¬ ∀ (W : Type) (L : Language W) (c : Scope) (restSym : String) (cell : ℕ)
    (var : String) (list : Form) (body : List Form) (xs : List Value) (w w₁ w' : W)
    (t : List Event) (ts : List (List Event)), restSym ≠ var →
      Evaluates L c list w (.list xs, w₁, t) → (∀ e ∈ t, e.cell ≠ cell) →
      BodyRuns L c restSym cell var body xs w₁ ts w' →
      VisitsEach L c restSym cell var list body xs w := by
  intro h
  have hlist : Evaluates emptyLanguage topLevel (.const .nil) () (.list [], (), []) :=
    evaluates_const.2 rfl
  have hvisits := h Unit emptyLanguage topLevel "-sym-0" 0 "x" (.const .nil) [.var "x"] [] () () ()
    [] [] (by decide) hlist nofun .nil
  exact hvisits.ne_nil (by decide) hlist nofun rfl

/-! ### Bodies without `recurse` -/

/-- A form that does not use the current lambda does not evaluate a cell that is nowhere. -/
theorem EvaluatesAll.quiet {I : W → Prop} {c : Scope} {b : Bool} (hL : L.Avoids cell I)
    (hc : c.Avoids cell b) (hbody : ∀ f ∈ body, f.Avoids cell b) (hw : I w)
    (h : EvaluatesAll L c body w (r, w', t)) : I w' ∧ ∀ e ∈ t, e.cell ≠ cell := by
  obtain ⟨n, hn⟩ := h
  have hquiet : Quiet cell I (prognForms (L.eval n c) body) :=
    prognForms_quiet fun f hf => eval_quiet hL n b c f hc (hbody f hf)
  exact (hquiet w r w' t hw hn).2

/-- The body calls the lambda of the expansion only by `recurse`. -/
theorem BodyRuns.quiet {I : W → Prop} (hL : L.Avoids cell I) (henv : c.env.Avoids cell)
    (hbody : ∀ f ∈ body, f.Avoids cell false) (hxs : ∀ x ∈ xs, x.Avoids cell) (hw : I w)
    (h : BodyRuns L c restSym cell var body xs w ts w') : ∀ t ∈ ts, ∀ e ∈ t, e.cell ≠ cell := by
  induction h with
  | nil => exact nofun
  | cons h hs ih =>
    obtain ⟨hx, hxs'⟩ := List.forall_mem_cons.1 hxs
    have hscope : Scope.Avoids cell false (turnScope c restSym cell var body (.list _)) :=
      ⟨(henv.cons (Value.avoids_list hxs)).cons hx, nofun⟩
    obtain ⟨hw₁, ht⟩ := h.quiet hL hscope hbody hw
    exact List.forall_mem_cons.2 ⟨ht, ih hxs' hw₁⟩

/-- **With a body that has no `recurse` outside of its own lambdas**, `dolist` visits each element
once exactly if the list is not empty. -/
theorem visitsEach_iff_ne_nil {I : W → Prop} (hL : L.Avoids cell I) (hc : c.Avoids cell true)
    (hs : restSym ≠ var) (hl : list.Avoids cell true) (hbody : ∀ f ∈ body, f.Avoids cell false)
    (hw : I w) (hlist : Evaluates L c list w (.list xs, w₁, t))
    (hruns : BodyRuns L c restSym cell var body xs w₁ ts w') :
    VisitsEach L c restSym cell var list body xs w ↔ xs ≠ [] := by
  obtain ⟨n, hn⟩ := hlist
  obtain ⟨hvalue, hw₁, hnew⟩ := eval_quiet hL n true c list hc hl w _ w₁ t hw hn
  have hxs := hvalue.toList (Value.toList_list xs)
  rw [visitsEach_iff hs ⟨n, hn⟩ hnew hruns]
  exact and_iff_left (hruns.quiet hL hc.env hbody hxs hw₁)

end Loop

end Language

end Lisp

end Bluejay
