import Bluejay.Lisp.Frame
import Bluejay.Lisp.Sources
import Bluejay.Lisp.Translation

/-!
# Functions are compiled correctly

* `Counts v ds` : `walk_and_alloc` counts the slots that `let1` forms in `v` need, at the depths
  `ds`, and changes nothing else, since the form uses no macro.
* `counts_of_spells` : it counts what `Term.walked` says.
* `Definition.Reserved` : what it counts is enough for the function's body.
* `compileFunction_serves` : then `compile_function` makes code that does, when it is called, what
  `Definition.run` says.
-/

namespace Bluejay

namespace Lisp

open Emitter

/-- The name is not that of a macro. -/
def NoMacro (env : List Function) (name : String) : Prop :=
  ∀ f, (env.find? fun g => g.name = name) = some f → f.namespc ≠ .macro_

/-- The slots of `let1` forms at the depths `ds` have been counted. -/
structure Local.Counted (l : Local) (ds : List ℕ) (l' : Local) : Prop where
  grown : Grown l ds l'
  first : l'.first = l.first
  name : l'.currentFunctionName = l.currentFunctionName
  args : l'.args = l.args

theorem Local.Counted.trans {l l₁ l₂ : Local} {ds ds' : List ℕ} (h : l.Counted ds l₁)
    (h' : l₁.Counted ds' l₂) : l.Counted (ds ++ ds') l₂ :=
  ⟨h.grown.trans h'.grown, h'.first.trans h.first, h'.name.trans h.name, h'.args.trans h.args⟩

theorem Local.Lifo.counted {l : Local} (h : l.Lifo) : l.Counted [] l :=
  ⟨(SameFrame.refl l).grown h, rfl, rfl, rfl⟩

/-- On a cell with the form `v`, `walk` counts the slots of `let1` forms at the depths `ds`. -/
def Counts (W : World) (walk : Word → Bool → CompileM Unit) (v : Word) (quoted : Bool)
    (ds : ℕ → List ℕ) : Prop :=
  ∀ ⦃bp : Word⦄ ⦃s : State⦄ ⦃l : Local⦄ ⦃rest : List Local⦄, consp bp → W.heap.car bp = v →
    s.world = W → s.locals = l :: rest → l.Lifo →
    ∃ l', walk bp quoted s = .ok () [] { s with locals := l' :: rest } ∧
      l.Counted (ds l.notes.depth) l'

section Walk

variable {W : World} {R : Runtime} {C : Compiler} {v w : Word} {ws : List Word} {name : String}
  {quoted : Bool} {e : Term} {es : List Term} {s : State} {l : Local} {rest : List Local}

/-- The loop of the walk. -/
theorem counts_loop (hws : ListOf W.heap v ws)
    (h : List.Forall₂ (fun w e => Counts W C.walkAndAlloc w false fun d => e.walked d) ws es)
    {n : ℕ} (hn : ws.length < n) (hs : s.world = W) (hl : s.locals = l :: rest) (hlifo : l.Lifo) :
    ∃ l', forList (fun bp => C.walkAndAlloc bp false) n v s =
        .ok () [] { s with locals := l' :: rest } ∧
      l.Counted (Term.walkedAll l.notes.depth es) l' := by
  induction h generalizing v s l n with
  | nil =>
    refine ⟨l, ?_, hlifo.counted⟩
    rw [← hl]
    exact forList_nil hws hn
  | @cons w e ws es hw _ ih =>
    obtain ⟨n, rfl⟩ := Nat.exists_eq_succ_of_ne_zero (Nat.ne_zero_of_lt hn)
    have hnil : ¬ nilp v = true := by simp [hws.nilp_iff]
    obtain ⟨l₁, h₁, hc₁⟩ := hw hws.1 hws.car hs hl hlifo
    obtain ⟨l₂, h₂, hc₂⟩ := ih hws.cdr (Nat.lt_of_succ_lt_succ hn)
      (s := { s with locals := l₁ :: rest }) hs rfl hc₁.grown.lifo
    refine ⟨l₂, ?_, ?_⟩
    · rw [forList, if_neg hnil]
      refine (bind_of_ok h₁).trans ((bind_of_ok (read_cdr v)).trans ?_)
      rw [show ({ s with locals := l₁ :: rest } : State).world.heap = W.heap by rw [← hs]]
      exact h₂
    · rw [Term.walkedAll]
      rw [hc₁.grown.depth] at hc₂
      exact hc₁.trans hc₂

theorem read_consp {bp : Word} (hbp : consp bp = true) :
    when ((!consp bp) = true) (stop Err.fault) s = .ok () ([] : Code) s := by
  rw [when, if_neg (by simp [hbp])]
  rfl

theorem read_listp_eq {b : Bool} (hv : s.world.heap.listp v = some b) : listp v s = .ok b [] s := by
  unfold listp
  rw [bind_of_ok read_getHeap, hv]
  rfl

/-- The walk does not enter what is no list. -/
theorem walk_of_not_listp {bp : Word} (hbp : consp bp = true) (hcar : s.world.heap.car bp = v)
    (hv : s.world.heap.listp v = some false) :
    walkAndAlloc R C bp quoted s = .ok () [] s := by
  unfold walkAndAlloc
  rw [bind_of_ok (read_consp hbp), bind_of_ok (read_car _), hcar, bind_of_ok (read_listp_eq hv)]
  rfl

/-- The walk over what is quoted. -/
theorem walk_quoted {bp : Word} (hbp : consp bp = true) (hcar : s.world.heap.car bp = v)
    (hv : s.world.heap.Unquoted v) : walkAndAlloc R C bp true s = .ok () [] s := by
  obtain ⟨b, hb, hhead⟩ := hv
  cases b with
  | false => exact walk_of_not_listp hbp hcar hb
  | true =>
    obtain ⟨hunquote, hsplice⟩ := hhead rfl
    unfold walkAndAlloc
    rw [bind_of_ok (read_consp hbp), bind_of_ok (read_car _), hcar, bind_of_ok (read_listp_eq hb)]
    simp only [Bool.not_true, Bool.false_eq_true, if_false]
    rw [bind_of_ok (read_cdr _), bind_of_ok (read_car _), bind_of_ok (read_symstreq _ _)]
    simp only [Bool.false_and, Bool.false_eq_true, if_false]
    rw [bind_of_ok (read_symstreq _ _)]
    simp only [if_true]
    rw [bind_of_ok (read_symstreq _ _), hunquote, bind_of_ok (read_symstreq _ _), hsplice]
    rfl

/-- The walk over a form that is neither `let1` nor `lambda` nor the call of a macro. -/
theorem walk_form {bp : Word} (hbp : consp bp = true) (hcar : s.world.heap.car bp = v)
    (hv : s.world.heap.IsForm v name ws) (hlet : name ≠ "let1") (hlambda : name ≠ "lambda")
    (hplain : NoMacro s.world.env name) : walkAndAlloc R C bp false s =
      forList (fun arg => C.walkAndAlloc arg (decide (name = "quote") || decide (name = "backquote")))
        C.steps (s.world.heap.cdr v) s := by
  obtain ⟨f, hf, hlist⟩ := hv
  have hread : findHead f s = .ok (s.world.env.find? fun g => g.name = name) [] s := by
    rw [findHead, if_pos hf.1, bind_of_ok (read_symbolName hf)]
    rfl
  have hcons : consp f = false := by
    have h8 : tag f = symbolTag := of_decide_eq_true hf.1
    simp [consp, h8, symbolTag, consTag]
  have hentry : when (consp f = true) (C.walkAndAlloc v false) s = .ok () [] s := by
    rw [when, if_neg (by simp [hcons])]
    rfl
  unfold walkAndAlloc
  rw [bind_of_ok (read_consp hbp), bind_of_ok (read_car _), hcar, bind_of_ok (read_listp hlist)]
  simp only [Bool.not_true, Bool.false_eq_true, if_false]
  rw [bind_of_ok (read_cdr _), bind_of_ok (read_car _), hlist.car, bind_of_ok (read_symstreq _ _),
    hf.symstreq]
  simp only [hlet, decide_false, Bool.and_false, Bool.false_eq_true, if_false]
  rw [bind_of_ok (read_symstreq _ _), hf.symstreq]
  simp only [hlambda, decide_false, Bool.and_false, Bool.false_eq_true, if_false]
  rw [bind_of_ok hread, bind_of_ok hentry]
  cases hfind : s.world.env.find? fun g => g.name = name with
  | none =>
    simp only
    rw [bind_of_ok (read_symstreq _ _), bind_of_ok (read_symstreq _ _), hf.symstreq, hf.symstreq]
  | some g =>
    obtain ⟨gname, gargs, gns, gcode⟩ := g
    cases gns with
    | macro_ => exact absurd rfl (hplain _ hfind)
    | function | anonymous =>
      simp only
      rw [bind_of_ok (read_symstreq _ _), bind_of_ok (read_symstreq _ _), hf.symstreq, hf.symstreq]

/-! ### Forms -/

theorem counts_of_not_listp (hv : W.heap.listp v = some false) :
    Counts W (walkAndAlloc R C) v quoted fun _ => [] := by
  rintro bp s l rest hbp hcar rfl hl hlifo
  refine ⟨l, ?_, hlifo.counted⟩
  rw [← hl]
  exact walk_of_not_listp hbp hcar hv

/-- `nil` is walked as a form without a head. -/
theorem counts_nil (hsteps : 0 < C.steps) :
    Counts W (walkAndAlloc R C) nil false fun _ => [] := by
  rintro bp s l rest hbp hcar rfl hl hlifo
  refine ⟨l, ?_, hlifo.counted⟩
  rw [← hl]
  have hlist : ListOf s.world.heap nil [] := rfl
  have hcdr : s.world.heap.car nil = nil ∧ s.world.heap.cdr nil = nil := ⟨rfl, rfl⟩
  have hhead : findHead nil s = .ok none [] s := rfl
  have hentry : when (consp nil = true) (C.walkAndAlloc nil false) s = .ok () [] s := rfl
  unfold walkAndAlloc
  rw [bind_of_ok (read_consp hbp), bind_of_ok (read_car _), hcar, bind_of_ok (read_listp hlist)]
  simp only [Bool.not_true, Bool.false_eq_true, if_false]
  rw [bind_of_ok (read_cdr _), bind_of_ok (read_car _), hcdr.1, hcdr.2,
    bind_of_ok (read_symstreq _ _), symstreq_of_not_symbolp rfl]
  simp only [Bool.and_false, Bool.false_eq_true, if_false]
  rw [bind_of_ok (read_symstreq _ _), symstreq_of_not_symbolp rfl]
  simp only [Bool.and_false, Bool.false_eq_true, if_false]
  rw [bind_of_ok hhead, bind_of_ok hentry]
  simp only
  rw [bind_of_ok (read_symstreq _ _), bind_of_ok (read_symstreq _ _)]
  exact forList_nil hlist hsteps

theorem counts_quote (hv : W.heap.IsForm v "quote" [w]) (hw : W.heap.Unquoted w)
    (hC : ∀ bp s, consp bp = true → s.world = W → W.heap.car bp = w →
      C.walkAndAlloc bp true s = .ok () [] s)
    (hplain : NoMacro W.env "quote") (hsteps : 1 < C.steps) :
    Counts W (walkAndAlloc R C) v false fun _ => [] := by
  rintro bp s l rest hbp hcar rfl hl hlifo
  refine ⟨l, ?_, hlifo.counted⟩
  rw [← hl, walk_form hbp hcar hv (by decide) (by decide) hplain]
  simp only [decide_true, Bool.true_or]
  obtain ⟨n, hn⟩ := Nat.exists_eq_succ_of_ne_zero (Nat.ne_zero_of_lt hsteps)
  have hargs := hv.args
  rw [hn, forList, if_neg (by simp [hargs.nilp_iff]),
    bind_of_ok (hC _ _ hargs.1 rfl hargs.car), bind_of_ok (read_cdr _)]
  exact forList_nil hargs.cdr (by omega)

/-- A form that is neither `let1` nor quoted nor the call of a macro. -/
theorem counts_form (hv : W.heap.IsForm v name ws)
    (hname : name ∉ ["let1", "lambda", "quote", "backquote"]) (hplain : NoMacro W.env name)
    (hes : List.Forall₂ (fun w e => Counts W C.walkAndAlloc w false fun d => e.walked d) ws es)
    (hn : ws.length < C.steps) :
    Counts W (walkAndAlloc R C) v false fun d => Term.walkedAll d es := by
  rintro bp s l rest hbp hcar rfl hl hlifo
  simp only [List.mem_cons, List.not_mem_nil, or_false, not_or] at hname
  obtain ⟨hlet, hlambda, hquote, hbackquote⟩ := hname
  obtain ⟨l', h, hc⟩ := counts_loop hv.args hes hn rfl hl hlifo
  refine ⟨l', ?_, hc⟩
  rw [walk_form hbp hcar hv hlet hlambda hplain]
  simpa only [hquote, hbackquote, decide_false, Bool.or_false] using h

theorem counts_let1 {binding : Word} (hv : W.heap.IsForm v "let1" (binding :: ws))
    (hes : List.Forall₂ (fun w e => Counts W C.walkAndAlloc w false fun d => e.walked d) ws es)
    (hn : ws.length < C.steps) :
    Counts W (walkAndAlloc R C) v false fun d => d :: Term.walkedAll (d + 1) es := by
  rintro bp s l rest hbp hcar rfl hl hlifo
  have ⟨f, hf, hlist⟩ := hv
  obtain ⟨hslot, -, hlifo₁⟩ := hlifo.alloc
  obtain ⟨l₂, h₂, hc₂⟩ := counts_loop hv.args.cdr hes hn
    (s := { s with locals := l.allocSlot :: rest }) rfl rfl hlifo₁
  have hfields : l.allocSlot.first = l.first ∧
      l.allocSlot.currentFunctionName = l.currentFunctionName ∧ l.allocSlot.args = l.args := by
    unfold Local.allocSlot Local.alloc
    split <;> exact ⟨rfl, rfl, rfl⟩
  have hgrown := Grown.let1 hlifo.counted.grown hc₂.grown
  refine ⟨l₂.freeSlot l.alloc.1, ?_, ?_, hc₂.first.trans hfields.1, hc₂.name.trans hfields.2.1,
    hc₂.args.trans hfields.2.2⟩
  · unfold walkAndAlloc
    rw [bind_of_ok (read_consp hbp), bind_of_ok (read_car _), hcar, bind_of_ok (read_listp hlist)]
    simp only [Bool.not_true, Bool.false_eq_true, if_false]
    rw [bind_of_ok (read_cdr _), bind_of_ok (read_car _), hlist.car,
      bind_of_ok (read_symstreq _ _), hf.symstreq]
    simp only [decide_true, Bool.not_false, Bool.and_true, if_true]
    rw [bind_of_ok (read_localAlloc hl), bind_of_ok (read_cdr _), bind_of_ok h₂]
    rfl
  · rw [hslot] at hgrown ⊢
    exact hgrown

theorem counts_of_smaller {K : World → Prop} {ds : ℕ → List ℕ} (N : ℕ)
    (h : ∀ n ≥ N, ∀ W, K W → Counts W (walkAndAlloc R (compiler R n)) v quoted ds) :
    ∃ N, ∀ n ≥ N, ∀ W, K W → Counts W (compiler R n).walkAndAlloc v quoted ds := by
  refine ⟨N + 1, fun n hn => ?_⟩
  obtain ⟨n, rfl⟩ := Nat.exists_eq_succ_of_ne_zero (Nat.ne_zero_of_lt hn)
  exact h n (Nat.le_of_succ_le_succ hn)

theorem walkedAll_append (d : ℕ) (es es' : List Term) :
    Term.walkedAll d (es ++ es') = Term.walkedAll d es ++ Term.walkedAll d es' := by
  induction es with
  | nil => rfl
  | cons e es ih => simp only [List.cons_append, Term.walkedAll, ih, List.append_assoc]

theorem counts_symbol (R : Runtime) (K : World → Prop) (hv : symbolp v = true) :
    ∃ N, ∀ n ≥ N, ∀ W, K W → Counts W (compiler R n).walkAndAlloc v quoted fun _ => [] :=
  counts_of_smaller 0 fun _ _ _ _ => counts_of_not_listp
    (listp_of_not_consp (not_consp_of_symbolp hv) (kind_of_symbolp hv).1)

/-- The heap is `H`, and the names are not those of macros. -/
structure World.Plain (H : Heap) (names : List String) (W : World) : Prop where
  heap : W.heap = H
  noMacro : ∀ x ∈ names, NoMacro W.env x

theorem World.Plain.mono {H : Heap} {names names' : List String} (h : W.Plain H names)
    (hsub : ∀ x ∈ names', x ∈ names) : W.Plain H names' :=
  ⟨h.heap, fun x hx => h.noMacro x (hsub x hx)⟩

/-- The loop of the walk along a form, with enough fuel. -/
theorem counts_of_head {H : Heap} (names : List String) (es : List Term) (hv : H.IsForm v name ws)
    (hname : name ∉ ["let1", "lambda", "quote", "backquote"])
    (hes : ∃ N, ∀ n ≥ N, ∀ W : World, W.Plain H (name :: names) → List.Forall₂ (fun w e =>
      Counts W (compiler R n).walkAndAlloc w false fun d => e.walked d) ws es) :
    ∃ N, ∀ n ≥ N, ∀ W : World, W.Plain H (name :: names) →
      Counts W (compiler R n).walkAndAlloc v false fun d => Term.walkedAll d es := by
  obtain ⟨N, hN⟩ := hes
  refine counts_of_smaller (max N (ws.length + 1)) fun n hn W hW => ?_
  simp only [ge_iff_le, max_le_iff] at hn
  exact counts_form (hW.heap ▸ hv) hname (hW.noMacro _ (by simp)) (hN n hn.1 W hW)
    (by rw [compiler_steps]; omega)

theorem not_mem_of_not_special (h : name ∉ specialForms) :
    name ∉ ["let1", "lambda", "quote", "backquote"] := by
  simp only [specialForms, List.mem_cons, List.not_mem_nil, or_false, not_or] at h ⊢
  tauto

mutual

/-- With enough fuel, the walk counts what `Term.walked` says. -/
theorem counts_of_spells {H : Heap} (R : Runtime) : ∀ (e : Term) {v : Word}, H.Spells v e →
    ∃ N, ∀ n ≥ N, ∀ W : World, W.Plain H e.heads →
      Counts W (compiler R n).walkAndAlloc v false fun d => e.walked d
  | .nil, v, hv => by
    rcases hv with rfl | hv
    · exact counts_of_smaller 1 fun n hn W _ => counts_nil (by rwa [compiler_steps])
    · exact counts_symbol R _ hv.1
  | .t, v, hv => counts_symbol R _ hv.1
  | .literal w, v, ⟨_, hv⟩ => counts_of_smaller 0 fun _ _ W _ => counts_of_not_listp
    (listp_of_not_consp (not_consp_of_literal hv) (kind_of_literal hv).2)
  | .quote w, v, ⟨hv, hw⟩ => by
    refine counts_of_smaller 2 fun _ hn W hW => ?_
    obtain ⟨n, rfl⟩ := Nat.exists_eq_succ_of_ne_zero (Nat.ne_zero_of_lt hn)
    obtain ⟨rfl, hheads⟩ := hW
    refine counts_quote hv hw (fun bp s hbp hs hcar => ?_) (hheads _ (by simp [Term.heads]))
      (by rwa [compiler_steps])
    subst hs
    exact walk_quoted hbp hcar hw
  | .var x, v, hv => counts_symbol R _ hv.1.1
  | .ite e a b, v, hv => by
    obtain ⟨x, y, hx, hy, hz⟩ := hv
    obtain ⟨N₁, hN₁⟩ := counts_of_spells R e hx
    obtain ⟨N₂, hN₂⟩ := counts_of_spells R a hy
    have hif : "if" ∉ ["let1", "lambda", "quote", "backquote"] := by decide
    rcases hz with ⟨z, hv, hz⟩ | ⟨hv, rfl⟩
    · obtain ⟨N₃, hN₃⟩ := counts_of_spells R b hz
      have h := counts_of_head (R := R) (e.heads ++ (a.heads ++ b.heads)) [e, a, b] hv hif ⟨max N₁ (max N₂ N₃), fun n hn W hW => by
          simp only [ge_iff_le, max_le_iff] at hn
          exact .cons (hN₁ n hn.1 W (hW.mono (by simp; tauto)))
            (.cons (hN₂ n hn.2.1 W (hW.mono (by simp; tauto)))
              (.cons (hN₃ n hn.2.2 W (hW.mono (by simp; tauto))) .nil))⟩
      simpa [Term.walked, Term.walkedAll, Term.heads] using h
    · have h := counts_of_head (R := R) (e.heads ++ (a.heads ++ Term.nil.heads)) [e, a] hv hif ⟨max N₁ N₂, fun n hn W hW => by
          simp only [ge_iff_le, max_le_iff] at hn
          exact .cons (hN₁ n hn.1 W (hW.mono (by simp; tauto)))
            (.cons (hN₂ n hn.2 W (hW.mono (by simp; tauto))) .nil)⟩
      simpa [Term.walked, Term.walkedAll, Term.heads] using h
  | .andOr or es, v, ⟨ws, hv, hws, _⟩ => by
    obtain ⟨N, hN⟩ := allCount_of_spells R es hws
    exact counts_of_head _ _ hv (by cases or <;> decide)
      ⟨N, fun n hn W hW => hN n hn W (hW.mono fun x hx => List.mem_cons_of_mem _ hx)⟩
  | .progn es, v, ⟨ws, hv, hws, _⟩ => by
    obtain ⟨N, hN⟩ := allCount_of_spells R es hws
    exact counts_of_head _ _ hv (by decide)
      ⟨N, fun n hn W hW => hN n hn W (hW.mono fun x hx => List.mem_cons_of_mem _ hx)⟩
  | .let1 x e es, v, hv => by
    obtain ⟨binding, u, w, ws, hv, -, -, -, hws, -⟩ := hv
    obtain ⟨N, hN⟩ := allCount_of_spells R es hws
    refine counts_of_smaller (max N (ws.length + 1)) fun n hn W hW => ?_
    simp only [ge_iff_le, max_le_iff] at hn
    exact counts_let1 (hW.heap ▸ hv) (hN n hn.1 W hW) (by rw [compiler_steps]; omega)
  | .list es, v, ⟨ws, hv, hws⟩ => by
    obtain ⟨N, hN⟩ := allCount_of_spells R es hws
    exact counts_of_head _ _ hv (by decide)
      ⟨N, fun n hn W hW => hN n hn W (hW.mono fun x hx => List.mem_cons_of_mem _ hx)⟩
  | .call f es, v, ⟨hf, ws, hv, hws⟩ => by
    obtain ⟨N, hN⟩ := allCount_of_spells R es hws
    exact counts_of_head _ _ hv (not_mem_of_not_special hf)
      ⟨N, fun n hn W hW => hN n hn W (hW.mono fun x hx => List.mem_cons_of_mem _ hx)⟩
  | .callRest f es more, v, ⟨hf, ws, us, hv, hws, hus⟩ => by
    obtain ⟨N, hN⟩ := allCount_of_spells R es hws
    obtain ⟨N', hN'⟩ := allCount_of_spells R more hus
    have h := counts_of_head (R := R) (Term.headsAll es ++ Term.headsAll more) (es ++ more) hv (not_mem_of_not_special hf)
      ⟨max N N', fun n hn W hW => by
        simp only [ge_iff_le, max_le_iff] at hn
        exact List.rel_append (hN n hn.1 W (hW.mono (by simp; tauto)))
          (hN' n hn.2 W (hW.mono (by simp; tauto)))⟩
    simpa only [Term.walked, Term.heads, walkedAll_append] using h

theorem allCount_of_spells {H : Heap} (R : Runtime) : ∀ (es : List Term) {ws : List Word},
    H.SpellsAll ws es → ∃ N, ∀ n ≥ N, ∀ W : World, W.Plain H (Term.headsAll es) →
      List.Forall₂ (fun w e => Counts W (compiler R n).walkAndAlloc w false fun d => e.walked d) ws es
  | [], ws, hws => ⟨0, fun n _ W _ => by
    obtain rfl : ws = [] := hws
    exact .nil⟩
  | e :: es, ws, hws => by
    obtain ⟨w, ws', rfl, he, hes⟩ := hws
    obtain ⟨N, hN⟩ := counts_of_spells R e he
    obtain ⟨N', hN'⟩ := allCount_of_spells R es hes
    refine ⟨max N N', fun n hn W hW => ?_⟩
    exact .cons (hN n (le_of_max_le_left hn) W (hW.mono (by simp [Term.headsAll]; tauto)))
      (hN' n (le_of_max_le_right hn) W (hW.mono (by simp [Term.headsAll]; tauto)))

end

end Walk

/-! ### Parameters -/

/-- Parameters, from the number `k` on, in front of other variables. -/
def declare (k : ℕ) : List String → List Variable → List Variable
  | [], scope => scope
  | x :: xs, scope => declare (k + 1) xs (⟨x, k, .argument⟩ :: scope)

theorem map_name_declare (k : ℕ) (xs : List String) (scope : List Variable) :
    (declare k xs scope).map Variable.name = xs.reverse ++ scope.map Variable.name := by
  induction xs generalizing k scope with
  | nil => rfl
  | cons x xs ih => rw [declare, ih, List.map_cons, List.reverse_cons, List.append_assoc]; rfl

theorem own_of_mem_declare {k : ℕ} {xs : List String} {scope : List Variable}
    (h : ∀ u ∈ scope, u.type = .argument) : ∀ u ∈ declare k xs scope, u.type = .argument := by
  induction xs generalizing k scope with
  | nil => exact h
  | cons x xs ih =>
    refine ih fun u hu => ?_
    rcases List.mem_cons.1 hu with rfl | hu
    · rfl
    · exact h u hu

/-- The words that a function is called with are the values of its parameters. -/
theorem agrees_declare {fr : Values} {vs : List Word} {xs : List String} {scope : List Variable}
    {ρ : Bindings} {k : ℕ} (hlen : vs.length = xs.length)
    (hvs : ∀ i w, vs[i]? = some w → fr.arguments[k + i]? = some w) (h : Agrees fr scope ρ) :
    Agrees fr (declare k xs scope) ((xs.zip vs).reverse ++ ρ) := by
  induction xs generalizing vs scope ρ k with
  | nil => exact h
  | cons x xs ih =>
    obtain ⟨w, vs, rfl⟩ : ∃ w ws, vs = w :: ws := by
      cases vs with
      | nil => cases hlen
      | cons w ws => exact ⟨w, ws, rfl⟩
    rw [List.zip_cons_cons, List.reverse_cons, List.append_assoc]
    refine ih (by simpa using hlen) (fun i w' hi => ?_) (.cons ⟨rfl, hvs 0 w rfl⟩ h)
    rw [← hvs (i + 1) w' hi]
    congr 1
    omega

/-- Parameters with the numbers from `k` on have been declared. -/
structure Local.Declared (l : Local) (k : ℕ) (xs : List String) (l' : Local) : Prop where
  frame : SameFrame l l'
  name : l'.currentFunctionName = l.currentFunctionName
  first : l'.first = declare k xs l.first

section Function

variable {W : World} {R : Runtime} {C : Compiler} {v : Word} {ws : List Word}
  {d : Definition} {s : State} {l : Local} {rest : List Local} {k n : ℕ} {x : String}

theorem Local.Declared.refl (l : Local) (k : ℕ) : l.Declared k [] l := ⟨.refl l, rfl, rfl⟩

theorem Local.Declared.cons {l' : Local} {xs : List String}
    (h : (l.addBinder .argument x k).Declared (k + 1) xs l') : l.Declared k (x :: xs) l' := by
  refine ⟨?_, h.name, h.first⟩
  exact (SameFrame.mk rfl rfl rfl rfl rfl : SameFrame l (l.addBinder .argument x k)).trans h.frame

theorem listToArgs_nil {ar : Args} (hv : ListOf s.world.heap v []) (hn : 0 < n) :
    listToArgs R C n v ar false s = .ok ar [] s := by
  obtain ⟨n, rfl⟩ := Nat.exists_eq_succ_of_ne_zero hn.ne'
  rw [listToArgs, if_pos (hv.nilp_iff.2 rfl)]
  rfl

theorem read_modifyLocal (hl : s.locals = l :: rest) (f : Local → Local) :
    modifyLocal f s = .ok () [] { s with locals := f l :: rest } := by
  show Emitted.ok _ _ { s with locals := s.locals.modifyHead f } = _
  rw [hl]
  rfl

/-- A required parameter. -/
theorem listToArgs_cons {u : Word} (hv : ListOf s.world.heap v (u :: ws))
    (hu : s.world.heap.Named u x) (hx : x ≠ "&") (hl : s.locals = l :: rest) :
    listToArgs R C (n + 1) v ⟨k, [], false⟩ false s =
      listToArgs R C n (s.world.heap.cdr v) ⟨k + 1, [], false⟩ false
        { s with locals := l.addBinder .argument x k :: rest } := by
  rw [listToArgs, if_neg (by simp [hv.nilp_iff]), bind_of_ok (read_car _), hv.car, if_pos hu.1,
    bind_of_ok (read_symstreq _ _), hu.symstreq]
  simp only [hx, decide_false, Bool.and_false, Bool.not_false, Bool.false_eq_true, if_false, if_true]
  rw [bind_of_ok (read_symbolName hu), bind_of_ok (read_modifyLocal hl _), bind_of_ok (read_cdr _)]

/-- The parameter behind `&`. -/
theorem listToArgs_rest {u u' : Word} (hv : ListOf s.world.heap v [u, u'])
    (hu : s.world.heap.Named u "&") (hu' : s.world.heap.Named u' x) (hl : s.locals = l :: rest)
    (hn : 1 < n) : listToArgs R C n v ⟨k, [], false⟩ false s =
      .ok ⟨k, [], true⟩ [] { s with locals := l.addBinder .argument x k :: rest } := by
  obtain ⟨n, rfl⟩ := Nat.exists_eq_succ_of_ne_zero (Nat.ne_zero_of_lt hn)
  have hthrow : ¬ (!symbolp u') = true := by simp [hu'.1]
  rw [listToArgs, if_neg (by simp [hv.nilp_iff]), bind_of_ok (read_car _), hv.car, if_pos hu.1,
    bind_of_ok (read_symstreq _ _), hu.symstreq]
  simp only [decide_true, Bool.not_false, Bool.and_true, if_true]
  rw [bind_of_ok (read_cdr _), bind_of_ok (read_car _), hv.cdr.car,
    bind_of_ok (read_throwIf hthrow _ _), bind_of_ok (read_symbolName hu'),
    bind_of_ok (read_modifyLocal hl _), bind_of_ok (read_cdr _)]
  rw [show Args.numOptional ⟨k, [], false⟩ + k = k from Nat.zero_add k]
  exact listToArgs_nil hv.cdr.cdr (by omega)

/-- All parameters. -/
theorem listToArgs_ok {params : List String} {more : Option String} (hn : ws.length < n)
    (hv : ListOf s.world.heap v ws) (hws : s.world.heap.Declares ws params more)
    (hparams : "&" ∉ params) (hl : s.locals = l :: rest) :
    ∃ l', listToArgs R C n v ⟨k, [], false⟩ false s =
        .ok ⟨k + params.length, [], more.isSome⟩ [] { s with locals := l' :: rest } ∧
      l.Declared k (params ++ more.toList) l' := by
  induction params generalizing ws v k s l n with
  | nil =>
    cases more with
    | none =>
      cases hws
      exact ⟨l, by rw [← hl]; exact listToArgs_nil hv hn, .refl l k⟩
    | some r =>
      obtain ⟨ws', u, u', rfl, hws', hu, hu'⟩ := hws
      cases hws'
      refine ⟨_, listToArgs_rest hv hu hu' hl (by simp at hn; omega), .cons (.refl _ _)⟩
  | cons x params ih =>
    simp only [List.mem_cons, not_or] at hparams
    obtain ⟨u, ws, rfl, hu, hws⟩ : ∃ u ws', ws = u :: ws' ∧ s.world.heap.Named u x ∧
        s.world.heap.Declares ws' params more := by
      cases more with
      | none =>
        cases hws with
        | cons hu hws => exact ⟨_, _, rfl, hu, hws⟩
      | some r =>
        obtain ⟨ws', w, w', rfl, hws', hw, hw'⟩ := hws
        cases hws' with
        | cons hu hws => exact ⟨_, _, rfl, hu, _, w, w', rfl, hws, hw, hw'⟩
    obtain ⟨n, rfl⟩ := Nat.exists_eq_succ_of_ne_zero (Nat.ne_zero_of_lt hn)
    obtain ⟨l', h, hdeclared⟩ := ih (k := k + 1) (l := l.addBinder .argument x k)
      (s := { s with locals := l.addBinder .argument x k :: rest })
      (Nat.lt_of_succ_lt_succ hn) hv.cdr hws hparams.2 rfl
    refine ⟨l', ?_, hdeclared.cons⟩
    rw [listToArgs_cons hv hu (Ne.symm hparams.1) hl, h, List.length_cons]
    congr 2
    omega

/-! ### Functions -/

/-- What the functions of an environment take. -/
def takes (env : List Function) (f : String) : Option Args :=
  (env.find? fun g => g.name = f).bind fun g => if g.namespc = .function then some g.args else none

/-- What `compile_function` is given. -/
def Definition.setting (d : Definition) (W : World) : Setting := ⟨W, some d.name, d.args⟩

theorem takes_setting (d : Definition) (W : World) (f : String) :
    (d.setting W).takes f = if f = d.name then some d.args else takes W.env f := by
  unfold Setting.takes Definition.setting takes
  simp only [Option.some.injEq, eq_comm]

/-- The slots that are counted are enough. -/
def Definition.Reserved (d : Definition) : Prop :=
  ∀ k ∈ Term.letsAll 0 d.body, k < reserve (Term.walkedAll 0 d.body)

/-- The function can be compiled: variables are in scope, calls are right, and no macro is used. -/
structure Definition.Compilable (env : List Function) (d : Definition) : Prop where
  legal : d.Legal (takes env)
  noMacro : ∀ x ∈ Term.headsAll d.body, NoMacro env x
  reserved : d.Reserved

/-- What can be compiled does not depend on the constants. -/
theorem compilable_shape (env : List Function) (d : Definition) :
    d.shape.Compilable env ↔ d.Compilable env := by
  have hreserved : d.shape.Reserved ↔ d.Reserved := by
    simp only [Definition.Reserved, Definition.shape, Term.letsAll_shapeAll,
      Term.walkedAll_shapeAll]
  have hlegal : d.shape.Legal (takes env) ↔ d.Legal (takes env) :=
    Term.legalBody_shapeAll _ d.body _ _
  have hheads : Term.headsAll d.shape.body = Term.headsAll d.body := Term.headsAll_shapeAll d.body
  constructor
  · rintro ⟨h₁, h₂, h₃⟩
    exact ⟨hlegal.1 h₁, fun x hx => h₂ x (hheads ▸ hx), hreserved.1 h₃⟩
  · rintro ⟨h₁, h₂, h₃⟩
    exact ⟨hlegal.2 h₁, fun x hx => h₂ x (hheads ▸ hx), hreserved.2 h₃⟩

/-- The body of a function. -/
theorem compileFunctionBody_ok {H : Heap} (hv : H.Defines v d) (R : Runtime) :
    ∃ N, ∀ n ≥ N, ∀ (W : World) (s : State) (path : String), W.heap = H → d.Compilable W.env →
      s.world = W → s.locals = [.new (some d.name) path] → ∃ l rest c s',
        compileFunctionBody R (compiler R n) v s =
          .ok () (setup (reserve (Term.walkedAll 0 d.body)) ++ c ++ cleanup) s' ∧
        s'.world = W ∧ s'.locals = l :: rest ∧ l.args = d.args ∧
        YieldsIn (d.setting W) (declare 0 d.names []) 0 (Term.letsAll 0 d.body) true
          (fun _ => True) c [] fun F ρ => Term.evalProgn F ρ d.body := by
  obtain ⟨u, us, ws, hlist, hus, hparams, hamp, hws, hne⟩ := hv
  obtain ⟨N₁, hN₁⟩ := allCount_of_spells R d.body hws
  obtain ⟨N₂, hN₂⟩ := allTranslated_of_spells R d.body hws
  refine ⟨max (max N₁ N₂) (max (us.length + 1) (ws.length + 1)), ?_⟩
  rintro n hn W s path rfl hd hs hl
  simp only [ge_iff_le, max_le_iff] at hn
  have hcar : car v s = .ok u [] s := by rw [read_car, hs, hlist.car]
  have hcdr : cdr v s = .ok (W.heap.cdr v) [] s := by rw [read_cdr, hs]
  have hsteps : (compiler R n).steps = n := compiler_steps R n
  -- the parameters
  obtain ⟨l₁, h₁, hdeclared⟩ := listToArgs_ok (R := R) (C := compiler R n) (k := 0) (n := n)
    (by omega) (hs ▸ hus) (hs ▸ hparams) hamp hl
  have har : (⟨0 + d.params.length, [], d.rest.isSome⟩ : Args) = d.args := by
    rw [Nat.zero_add]
    rfl
  rw [har] at h₁
  set l₂ : Local := { l₁ with args := d.args } with hl₂
  have hlifo₂ : l₂.Lifo := by
    refine ⟨4, ?_⟩
    show l₁.stackSlots = List.replicate l₁.notes.depth true ++ _
    rw [hdeclared.frame.stackSlots, hdeclared.frame.depth]
    rfl
  have hdepth₂ : l₂.notes.depth = 0 := hdeclared.frame.depth
  -- the slots
  obtain ⟨l₃, h₃, hcounted⟩ := counts_loop (v := W.heap.cdr v) (n := n) hlist.cdr
    (hN₁ n hn.1.1 W ⟨rfl, hd.noMacro⟩) (by omega) (s := { s with locals := [l₂] }) hs rfl hlifo₂
  rw [hdepth₂] at hcounted
  have hentries : l₃.numStackEntries = reserve (Term.walkedAll 0 d.body) := by
    have hsize := congrArg Prod.snd hcounted.grown.size
    have hslots : l₂.stackSlots.length = 4 := by
      show l₁.stackSlots.length = 4
      rw [hdeclared.frame.stackSlots]
      rfl
    have hzero : l₂.numStackEntries = 0 := hdeclared.frame.numStackEntries
    rw [hslots, hzero] at hsize
    exact hsize
  -- the code
  set s₄ : State := { s with locals := [l₃.resetSlots] } with hs₄
  have hsuits : Suits (d.setting W) (declare 0 d.names []) [] 0 s₄ := by
    refine ⟨hs, _, [], rfl, hcounted.name.trans hdeclared.name, hcounted.args,
      ⟨l₃.stackSlots.length, rfl⟩, rfl, fun x _ => ?_, fun u hu => .inl ?_⟩
    · show l₃.first.find? _ = _
      rw [hcounted.first, show l₂.first = l₁.first from rfl, hdeclared.first]
      rfl
    · exact own_of_mem_declare (by simp) u hu
  have hlegal : Term.LegalBody (d.setting W).takes ((declare 0 d.names []).map Variable.name) []
      d.body := by
    have htakes : (d.setting W).takes = fun f => if f = d.name then some d.args else
        takes W.env f := funext (takes_setting d W)
    rw [map_name_declare, List.map_nil, List.append_nil, htakes]
    exact hd.legal
  obtain ⟨c, s₅, h₅, ⟨hw₅, l₅, rest₅, hl₅, hknows₅⟩, hc⟩ := translatedBody_ok true
    (n := n) hlist.cdr (hN₂ n hn.1.2 (d.setting W) rfl _ _) hne (by omega) hlegal hsuits
  refine ⟨l₅, rest₅, c, s₅, ?_, hw₅, hl₅, hknows₅.args, hc⟩
  unfold compileFunctionBody
  rw [bind_of_ok hcar, bind_of_ok hcdr, hsteps]
  refine (bind_of_ok h₁).trans ((bind_of_ok (read_modifyLocal rfl _)).trans
    ((bind_of_ok h₃).trans ((bind_of_ok (read_getLocal rfl)).trans ?_)))
  rw [hentries, List.append_assoc]
  have hbody : compileBody (compiler R n) (W.heap.cdr v) true s₄ = .ok () c s₅ := by
    rw [compileBody, hsteps]
    exact h₅
  refine bind_ok (a := ()) rfl ((bind_of_ok (read_modifyLocal rfl _)).trans ?_)
  exact bind_ok (f := fun _ => (emit cleanup : CompileM Unit)) hbody rfl

/-- `compile_function` on a definition. -/
theorem compileFunction_definition {H : Heap} (hv : H.Defines v d) (R : Runtime) :
    ∃ N, ∀ n ≥ N, ∀ (W : World) (s : State) (path : String), W.heap = H → d.Compilable W.env →
      s.world = W → ∃ l c s',
      (compiler R n).compileFunction v false (some d.name) path s = .ok (d.args, l,
        setup (reserve (Term.walkedAll 0 d.body)) ++ c ++ cleanup) [] s' ∧ s'.world = W ∧
      YieldsIn (d.setting W) (declare 0 d.names []) 0 (Term.letsAll 0 d.body) true
        (fun _ => True) c [] fun F ρ => Term.evalProgn F ρ d.body := by
  obtain ⟨N, hN⟩ := compileFunctionBody_ok hv R
  refine ⟨N + 1, fun n hn W s path hH hd hs => ?_⟩
  obtain ⟨n, rfl⟩ := Nat.exists_eq_succ_of_ne_zero (Nat.ne_zero_of_lt hn)
  obtain ⟨l, rest, c, s₁, h, hs₁, hl, hargs, hc⟩ := hN n (Nat.le_of_succ_le_succ hn) W
    { s with locals := [.new (some d.name) path] } path hH hd hs rfl
  refine ⟨l, c, { s₁ with locals := s.locals }, ?_, hs₁, hc⟩
  have hcapture := capture_ok_iff.2 ⟨h, rfl⟩
  refine (bind_of_ok (rfl : get s = .ok s [] s)).trans ((bind_of_ok rfl).trans
    ((bind_of_ok hcapture).trans ((bind_of_ok (read_getLocal hl)).trans ((bind_of_ok rfl).trans ?_))))
  rw [hargs]
  rfl

/-- The functions of the environment do what `F` says. -/
def Provided (calls : Val → Machine → Machine → Prop) (back : ℕ → ℕ → Val) (programs : List Code)
    (env : List Function) (F : Functions) : Prop :=
  ∀ f g, (env.find? fun g => g.name = f) = some g → g.namespc = .function →
    Provides calls back programs g.codePtr (realNargs g.args) (F f)

section Serves

variable {calls : Val → Machine → Machine → Prop} {back : ℕ → ℕ → Val} {programs : List Code}
  {F : Functions} {j : ℕ} {c : Code}

theorem realNargs_args (d : Definition) : realNargs d.args = d.names.length := by
  unfold realNargs Definition.args Definition.names Args.numOptional
  cases d.rest <;> simp

/-- A jump to the start of a function. -/
theorem goto_here_setup (nvars : ℕ) (c : Code) (m : Machine) :
    m.goto (setup nvars ++ c) .here = some { m with pc := 0 } := rfl

/-- The code of a function does what the function does, if its body does. -/
theorem serves_run (hback : Addresses back) (hcons : Implements calls .cons consOf)
    (hprovided : Provided calls back programs W.env F)
    (hj : programs[j]? = some (setup (reserve (Term.walkedAll 0 d.body)) ++ c ++ cleanup))
    (hu : stackHeights.LabelsUnique (setup (reserve (Term.walkedAll 0 d.body)) ++ c ++ cleanup))
    (hreserved : d.Reserved)
    (hc : YieldsIn (d.setting W) (declare 0 d.names []) 0 (Term.letsAll 0 d.body) true
      (fun _ => True) c [] fun F ρ => Term.evalProgn F ρ d.body) (k : ℕ) :
    Serves calls back programs j d.names.length (d.run F k) := by
  induction k with
  | zero => exact fun _ _ _ _ _ _ _ _ _ hx => hx.elim
  | succ k ih =>
    refine serves_of_yields hback hj hu fun A hself hreserve hcount vs hlen => ?_
    rw [Definition.run]
    refine hc ⟨⟨hcons, fun f g hne hg hnamespc => ?_, fun f hf => ?_, ?_, fun P hP m => ?_⟩, rfl, ?_,
      fun i hi => ?_⟩
    · -- other functions
      have hother : ¬ f = d.name := fun h => hne (congrArg some h.symm)
      simp only [hother, if_false]
      exact hprovided f g hg hnamespc
    · -- the function itself
      obtain rfl : d.name = f := Option.some.inj hf
      simp only [if_true, hself, hcount]
      exact ih
    · rw [hcount, ← realNargs_args]
      rfl
    · rw [hself] at hP
      obtain rfl := Option.some.inj (hj.symm.trans hP)
      exact goto_here_setup _ _ m
    · have hagrees : Agrees ⟨vs, []⟩ (declare 0 d.names []) ((d.names.zip vs).reverse ++ []) :=
        agrees_declare hlen (fun i w hi => by rwa [Nat.zero_add]) .nil
      rwa [List.append_nil] at hagrees
    · rw [hreserve]
      exact hreserved i hi

end Serves

/-- **A function is compiled to code that does what it does.**  In a machine in which the functions
that it may call do what `F` says, a call of the code that `compile_function` emits for a definition
does what the definition says, whatever the other programs are, and whatever the allocator
chooses. -/
theorem compileFunction_serves {H : Heap} (hv : H.Defines v d) (R : Runtime) :
    ∃ N, ∀ n ≥ N, ∀ (s : State) (path : String), s.world.heap = H → d.Compilable s.world.env →
      ∃ l code s',
        (compiler R n).compileFunction v false (some d.name) path s = .ok (d.args, l, code) [] s' ∧
        s'.world = s.world ∧ ∀ calls back programs F j, Addresses back →
          Implements calls .cons consOf → Provided calls back programs s.world.env F →
          programs[j]? = some code → ∀ k, Serves calls back programs j d.names.length (d.run F k) := by
  obtain ⟨N, hN⟩ := compileFunction_definition hv R
  refine ⟨N, fun n hn s path hH hd => ?_⟩
  obtain ⟨l, c, s', h, hs', hc⟩ := hN n hn s.world s path hH hd rfl
  exact ⟨l, _, s', h, hs', fun calls back programs F j hback hcons hF hj k =>
    serves_run hback hcons hF hj (labelsUnique_function R n h) hd.reserved hc k⟩

end Function

/-- `((list) (if (nilp list) 0 (+ 1 (length (cdr list)))))`. -/
def lengthTree : Sexp :=
  .list [.list [.symbol "list"], .list [.symbol "if", .list [.symbol "nilp", .symbol "list"],
    .int 0, .list [.symbol "+", .int 1,
      .list [.symbol "length", .list [.symbol "cdr", .symbol "list"]]]]]

def lengthDefinition : Definition :=
  ⟨"length", ["list"], none, [.ite (.call "nilp" [.var "list"]) (.literal (intval 0))
    (.call "+" [.literal (intval 1), .call "length" [.call "cdr" [.var "list"]]])]⟩

/-- Some of the functions that are not written in Lisp. -/
def listEnv : List Function :=
  [⟨"nilp", ⟨1, [], false⟩, .function, .builtin "l_nilp"⟩,
    ⟨"cdr", ⟨1, [], false⟩, .function, .builtin "cdr"⟩,
    ⟨"+", ⟨2, [], false⟩, .function, .builtin "l_plus"⟩]

theorem lengthTree_defines : lengthTree.Defines lengthDefinition := by
  have hlist : Sexp.AreTerms [.symbol "list"] [.var "list"] := ⟨_, _, rfl, ⟨rfl, by decide⟩, rfl⟩
  refine ⟨_, rfl, by decide, ⟨_, _, rfl, ⟨_, _, ⟨by decide, _, rfl, hlist⟩, ?_, .inl ⟨_, rfl, ?_⟩⟩,
    rfl⟩, by decide⟩
  · exact .inr ⟨_, rfl, by decide⟩
  · refine ⟨by decide, _, rfl, _, _, rfl, .inr ⟨_, rfl, by decide⟩, _, _, rfl,
      ⟨by decide, _, rfl, _, _, rfl, ⟨by decide, _, rfl, hlist⟩, rfl⟩, rfl⟩

theorem lengthDefinition_compilable : lengthDefinition.Compilable listEnv where
  legal := by
    simp [Definition.Legal, lengthDefinition, Term.LegalBody, Term.Legal, Term.LegalArguments,
      Term.binds, Term.bindsAll, Definition.names, Definition.args, takes, listEnv]
  noMacro x _ f hf := by
    have hall : ∀ g ∈ listEnv, g.namespc ≠ .macro_ := by decide
    exact hall f (List.mem_of_find?_eq_some hf)
  reserved := by simp [Definition.Reserved, lengthDefinition, Term.letsAll, Term.lets]

theorem compileFunction_length : ∃ d : Definition, d.shape = lengthDefinition.shape ∧
    ∃ N, ∀ n ≥ N, ∃ l code s',
      (compiler .inert n).compileFunction lengthTree.heap.2 false (some d.name) "std.lisp"
          ⟨⟨lengthTree.heap.1, fun _ => 1, 1, listEnv, []⟩, [], []⟩ = .ok (d.args, l, code) [] s' ∧
        s'.world = ⟨lengthTree.heap.1, fun _ => 1, 1, listEnv, []⟩ ∧
        ∀ calls back programs F j, Addresses back → Implements calls .cons consOf →
          Provided calls back programs listEnv F → programs[j]? = some code →
          ∀ k, Serves calls back programs j d.names.length (d.run F k) := by
  have hvalid : lengthTree.Valid := by
    have hint : integerp (intval 0) = true ∧ integerp (intval 1) = true := by decide
    simp [lengthTree, Sexp.list, Sexp.int, Sexp.Valid, hint]
  obtain ⟨d, hd, hshape⟩ := exists_defines (represents_heap hvalid) lengthTree_defines
  have hcompilable : d.Compilable listEnv := (compilable_shape listEnv d).1
    (hshape ▸ (compilable_shape listEnv lengthDefinition).2 lengthDefinition_compilable)
  obtain ⟨N, hN⟩ := compileFunction_serves hd .inert
  exact ⟨d, hshape, N, fun n hn => hN n hn _ "std.lisp" rfl hcompilable⟩

end Lisp

end Bluejay
