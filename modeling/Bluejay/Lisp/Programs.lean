import Bluejay.Lisp.Definitions
import Bluejay.Lisp.Load

/-!
# Programs are compiled correctly

* `H.Defun v d` : the value `v` is the form `(defun …)` of the definition `d`.
* `AllCompilable env ds` : the definitions can be compiled one after the other.
* `Process.Defined p₀ ds p` : where the functions of `p₀` do what `B` says, those of `p` do what
  `meaning B` says; `Process.Defined.defun` : one more definition.
* `compileTl_program` : `compile_tl` on `(progn (defun …) …)`.

The programs are those of all functions, in one machine; a call may be made from anywhere in it.
-/

namespace Bluejay

namespace Lisp

/-- The value `v` is the form of the definition. -/
def Heap.Defun (H : Heap) (v : Word) (d : Definition) : Prop :=
  ∃ u us, H.IsForm v "defun" (u :: us) ∧ H.Named u d.name ∧ H.Defines (H.cdr (H.cdr v)) d

/-- The tree is written like the form of the definition. -/
def Sexp.IsDefun (e : Sexp) (d : Definition) : Prop :=
  ∃ b : Sexp, e = .cons (.symbol "defun") (.cons (.symbol d.name) b) ∧ b.Defines d

theorem exists_defun {H : Heap} {v : Word} {e : Sexp} {d : Definition} (hv : Represents H v e)
    (he : e.IsDefun d) : ∃ d', H.Defun v d' ∧ d'.shape = d.shape := by
  obtain ⟨b, rfl, hb⟩ := he
  obtain ⟨hc, x, y, ho, hx, hc', x', y', ho', hx', hy'⟩ := hv
  obtain ⟨d', hd', hshape⟩ := exists_defines hy' hb
  obtain ⟨_, _, ws, hlist, _⟩ := id hd'
  have hname : d'.name = d.name := (congrArg Definition.name hshape :)
  have hcdr : H.cdr (H.cdr v) = y' := by simp [Heap.cdr, hc, ho, hc', ho']
  refine ⟨d', ⟨x', _, ⟨x, named_of_represents hx, hc, y, ho, hc', y', ho', hlist⟩, ?_, ?_⟩, hshape⟩
  · exact hname ▸ named_of_represents hx'
  · rwa [hcdr]

theorem exists_defuns {H : Heap} {vs : List Word} {es : List Sexp} {ds : List Definition}
    (hvs : List.Forall₂ (Represents H) vs es) (hes : List.Forall₂ Sexp.IsDefun es ds) :
    ∃ ds', List.Forall₂ H.Defun vs ds' ∧
      ds'.map Definition.shape = ds.map Definition.shape := by
  induction hvs generalizing ds with
  | nil =>
    cases hes
    exact ⟨[], .nil, rfl⟩
  | cons hv _ ih =>
    cases hes with
    | cons he hes =>
      obtain ⟨d', hd', hshape⟩ := exists_defun hv he
      obtain ⟨ds', hds', hshapes⟩ := ih hes
      exact ⟨d' :: ds', .cons hd' hds', by rw [List.map_cons, List.map_cons, hshape, hshapes]⟩

/-- The definitions can be compiled one after the other, wherever their programs are put. -/
def AllCompilable (env : List Function) : List Definition → Prop
  | [] => True
  | d :: ds => d.Compilable env ∧
      ∀ code, AllCompilable (⟨d.name, d.args, .function, code⟩ :: env) ds

theorem allCompilable_of_shape {ds ds' : List Definition}
    (h : ds.map Definition.shape = ds'.map Definition.shape) {env : List Function}
    (hds : AllCompilable env ds) : AllCompilable env ds' := by
  induction ds generalizing ds' env with
  | nil =>
    obtain rfl : ds' = [] := List.map_eq_nil_iff.1 h.symm
    trivial
  | cons d ds ih =>
    obtain ⟨d', ds', rfl, hd, hrest⟩ := List.map_eq_cons_iff.1 h.symm
    refine ⟨(compilable_shape env d').1 (hd ▸ (compilable_shape env d).2 hds.1), fun code => ?_⟩
    have hname : d'.name = d.name := (congrArg Definition.name hd :)
    have hargs : d'.args = d.args := (congrArg Definition.args hd :)
    rw [hname, hargs]
    exact ih hrest.symm (hds.2 code)

/-- Since `p₀`, the definitions have been compiled, the most recent one first. -/
structure Process.Defined (p₀ : Process) (ds : List Definition) (p : Process) : Prop where
  finds : ∀ f d, (ds.find? fun d => d.name = f) = some d → ∃ j,
    (p.world.env.find? fun g => g.name = f) = some ⟨d.name, d.args, .function, .program j⟩
  provides : ∀ calls back programs B, Addresses back → Implements calls .cons consOf →
    Provided calls back programs p₀.world.env B → p.world.programs <+: programs →
    ∀ k, Provided calls back programs p.world.env (meaning B k ds)

section Programs

variable {R : Runtime} {H : Heap} {v : Word} {vs : List Word} {d : Definition}
  {ds done : List Definition} {p p₀ : Process}

theorem Process.Defined.start (p : Process) : p.Defined [] p where
  finds _ _ h := by cases h
  provides _ _ _ _ _ _ hB _ _ := hB

theorem Process.Defined.congr {p' : Process} (h : p₀.Defined done p)
    (henv : p'.world.env = p.world.env) (hprograms : p'.world.programs = p.world.programs) :
    p₀.Defined done p' where
  finds := henv ▸ h.finds
  provides := henv ▸ hprograms ▸ h.provides

/-- There is a program for each definition. -/
theorem Process.Defined.serves (h : p₀.Defined ds p) {f : String}
    (hd : (ds.find? fun d => d.name = f) = some d) : ∃ j,
      (p.world.env.find? fun g => g.name = f) = some ⟨d.name, d.args, .function, .program j⟩ ∧
      ∀ calls back programs B, Addresses back → Implements calls .cons consOf →
        Provided calls back programs p₀.world.env B → p.world.programs <+: programs →
        ∀ k, Serves calls back programs j d.names.length (meaning B k ds f) := by
  obtain ⟨j, hj⟩ := h.finds f d hd
  refine ⟨j, hj, fun calls back programs B hback hcons hB hprefix k => ?_⟩
  have hprovides := h.provides calls back programs B hback hcons hB hprefix k f _ hj rfl
  rwa [realNargs_args] at hprovides

/-- A program that does what the definition says, under the name of the function. -/
theorem Process.Defined.addFunction (h : p₀.Defined done p) {code : Code}
    (hcode : ∀ calls back programs F j, Addresses back → Implements calls .cons consOf →
      Provided calls back programs p.world.env F → programs[j]? = some code →
      ∀ k, Serves calls back programs j d.names.length (d.run F k)) :
    p₀.Defined (d :: done) (p.addFunction d.name d.args .function code) where
  finds f d' hd' := by
    by_cases hname : d.name = f
    · rw [List.find?_cons_of_pos (by simpa using hname)] at hd'
      obtain rfl := Option.some.inj hd'
      exact ⟨_, List.find?_cons_of_pos (by simpa using hname)⟩
    · rw [List.find?_cons_of_neg (by simpa using hname)] at hd'
      obtain ⟨j, hj⟩ := h.finds f d' hd'
      exact ⟨j, (List.find?_cons_of_neg (by simpa using hname)).trans hj⟩
  provides calls back programs B hback hcons hB hprefix k := by
    have hprefix' : p.world.programs ++ [code] <+: programs := hprefix
    have hbefore := h.provides calls back programs B hback hcons hB
      ((List.prefix_append _ _).trans hprefix') k
    have hj : programs[p.world.programs.length]? = some code := by
      obtain ⟨more, rfl⟩ := hprefix'
      simp
    intro f g hg hnamespc
    by_cases hname : d.name = f
    · have hg' : some ⟨d.name, d.args, .function, .program p.world.programs.length⟩ = some g :=
        (List.find?_cons_of_pos (by simpa using hname)).symm.trans hg
      obtain rfl := Option.some.inj hg'
      have hmeaning : meaning B k (d :: done) f = d.run (meaning B k done) k := by
        funext vs
        exact if_pos hname.symm
      rw [hmeaning, realNargs_args]
      exact hcode calls back programs _ _ hback hcons hbefore hj k
    · have hg' : (p.world.env.find? fun g => g.name = f) = some g :=
        (List.find?_cons_of_neg (by simpa using hname)).symm.trans hg
      have hmeaning : meaning B k (d :: done) f = meaning B k done f := by
        funext vs
        exact if_neg (Ne.symm hname)
      rw [hmeaning]
      exact hbefore f g hg' hnamespc

/-- `compile_tl` on a definition. -/
theorem compileTl_defun (hv : H.Defun v d) (R : Runtime) : ∃ N, ∀ n ≥ N, ∀ (p : Process)
    (fname : String), p.world.heap = H → d.Compilable p.world.env → ∃ code,
      (∀ files load m, compileTl (.ofRuntime R n files) load fname (m + 1) v p =
        some (.ok (), p.addFunction d.name d.args .function code)) ∧
      ∀ calls back programs F j, Addresses back → Implements calls .cons consOf →
        Provided calls back programs p.world.env F → programs[j]? = some code →
        ∀ k, Serves calls back programs j d.names.length (d.run F k) := by
  obtain ⟨u, us, hform, hname, hdefines⟩ := hv
  obtain ⟨N, hN⟩ := compileFunction_serves hdefines R
  refine ⟨N, fun n hn p fname hH hd => ?_⟩
  subst hH
  obtain ⟨l, code, s', h, hs', hserves⟩ := hN n hn ⟨p.world, [], []⟩ fname rfl hd
  refine ⟨code, fun files load m => ?_, hserves⟩
  obtain ⟨f, hf, hlist⟩ := hform
  have hcompile : (Host.ofRuntime R n files).compileFunction
      (p.world.heap.cdr (p.world.heap.cdr v)) .function d.name fname p =
        some (.ok (d.args, code), p) := by
    simp only [Host.ofRuntime, h, hs']
  rw [compileTl, hlist.listp]
  simp only [Option.bind_eq_bind, Option.bind_some, Bool.not_true, Bool.false_eq_true, if_false,
    hlist.car, hf.symstreq, decide_true, if_true]
  rw [compileDefinition, hlist.cdr.car, Heap.symbolText, if_pos hname.1, hname.2]
  simp only [Option.bind_eq_bind, Option.bind_some, hcompile]
  rfl

/-- `compile_tls` on definitions. -/
theorem compileTls_defined (hv : ListOf H v vs) (hvs : List.Forall₂ H.Defun vs ds) (R : Runtime) :
    ∃ N, ∀ n ≥ N, ∀ (p₀ p : Process) (done : List Definition) files load fname m k,
      p.world.heap = H → AllCompilable p.world.env ds → p₀.Defined done p → vs.length < k →
      ∃ p', compileTls (compileTl (.ofRuntime R n files) load fname (m + 1)) k v p =
          some (.ok (), p') ∧ p₀.Defined (ds.reverse ++ done) p' := by
  induction hvs generalizing v with
  | nil =>
    refine ⟨0, fun n _ p₀ p done files load fname m k _ _ hdone hk => ⟨p, ?_, hdone⟩⟩
    obtain ⟨k, rfl⟩ := Nat.exists_eq_succ_of_ne_zero (Nat.ne_zero_of_lt hk)
    rw [compileTls, if_pos (hv.nilp_iff.2 rfl)]
  | @cons w d vs ds hw _ ih =>
    obtain ⟨N₁, hN₁⟩ := compileTl_defun hw R
    obtain ⟨N₂, hN₂⟩ := ih hv.cdr
    refine ⟨max N₁ N₂, fun n hn p₀ p done files load fname m k hH hds hdone hk => ?_⟩
    obtain ⟨k, rfl⟩ := Nat.exists_eq_succ_of_ne_zero (Nat.ne_zero_of_lt hk)
    obtain ⟨code, htl, hserves⟩ := hN₁ n (le_of_max_le_left hn) p fname hH hds.1
    obtain ⟨p', htls, hdefined⟩ := hN₂ n (le_of_max_le_right hn) p₀
      (p.addFunction d.name d.args .function code) (d :: done) files load fname m k hH (hds.2 _)
      (hdone.addFunction hserves) (Nat.lt_of_succ_lt_succ hk)
    refine ⟨p', ?_, by rwa [List.reverse_cons, List.append_assoc]⟩
    have hcar : p.world.heap.car v = w := by rw [hH, hv.car]
    rw [compileTls, if_neg (by simp [hv.nilp_iff]), hcar, htl files load m]
    simp only [Option.bind_eq_bind, Option.bind_some]
    rw [show (p.addFunction d.name d.args .function code).world.heap = H from hH]
    exact htls

end Programs

/-- `(defun name (val) (f (g val)))`. -/
def compositionTree (name f g : String) : Sexp :=
  .list [.symbol "defun", .symbol name, .list [.symbol "val"],
    .list [.symbol f, .list [.symbol g, .symbol "val"]]]

def compositionDefinition (name f g : String) : Definition :=
  ⟨name, ["val"], none, [.call f [.call g [.var "val"]]]⟩

/-- Two accessors of `std.lisp`. -/
def accessorTrees : List Sexp :=
  [compositionTree "cadr" "car" "cdr", compositionTree "caddr" "cadr" "cdr"]

def accessors : List Definition :=
  [compositionDefinition "cadr" "car" "cdr", compositionDefinition "caddr" "cadr" "cdr"]

def accessorEnv : List Function :=
  [⟨"car", ⟨1, [], false⟩, .function, .builtin "car"⟩,
    ⟨"cdr", ⟨1, [], false⟩, .function, .builtin "cdr"⟩]

theorem composition_isDefun {f g : String} (name : String) (hf : f ∉ specialForms)
    (hg : g ∉ specialForms) :
    (compositionTree name f g).IsDefun (compositionDefinition name f g) := by
  have hval : Sexp.AreTerms [.symbol "val"] [.var "val"] := ⟨_, _, rfl, ⟨rfl, by decide⟩, rfl⟩
  have hbody : Sexp.AreTerms [.list [.symbol f, .list [.symbol g, .symbol "val"]]]
      [.call f [.call g [.var "val"]]] :=
    ⟨_, _, rfl, ⟨hf, _, rfl, _, _, rfl, ⟨hg, _, rfl, hval⟩, rfl⟩, rfl⟩
  exact ⟨_, rfl, _, rfl, by simp [compositionDefinition], hbody, by simp [compositionDefinition]⟩

theorem accessors_isDefun : List.Forall₂ Sexp.IsDefun accessorTrees accessors :=
  .cons (composition_isDefun _ (by decide) (by decide))
    (.cons (composition_isDefun _ (by decide) (by decide)) .nil)

theorem composition_compilable {env : List Function} {name f g : String} (hnf : f ≠ name)
    (hng : g ≠ name) (hf : takes env f = some ⟨1, [], false⟩)
    (hg : takes env g = some ⟨1, [], false⟩) (henv : ∀ h ∈ env, h.namespc ≠ .macro_) :
    (compositionDefinition name f g).Compilable env where
  legal := by
    simp [Definition.Legal, compositionDefinition, Term.LegalBody, Term.Legal,
      Term.LegalArguments, Term.bindsAll, Definition.names, hnf, hng, hf, hg]
  noMacro x _ h hh := henv h (List.mem_of_find?_eq_some hh)
  reserved := by simp [Definition.Reserved, compositionDefinition, Term.letsAll, Term.lets]

theorem accessors_compilable : AllCompilable accessorEnv accessors := by
  refine ⟨composition_compilable (by decide) (by decide) rfl rfl (by decide), fun code =>
    ⟨composition_compilable (by decide) (by decide) rfl rfl ?_, fun _ => trivial⟩⟩
  simp [accessorEnv]

end Lisp

end Bluejay
