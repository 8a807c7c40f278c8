import Bluejay.Lisp.Invariants
import Bluejay.Lisp.Sexp

/-!
# Scope

The variables of a function are one list, which `add_variable` makes longer and nothing makes
shorter; `find_variable` takes the most recent variable of a name, and looks into the functions
around if there is none.

* `resolve name L` : the variable that an occurrence of `name` denotes, as the number of functions
  between and the place in the list of variables.
* `enclosing name L` : the innermost enclosing binder of the name.
* `Stale name L` : a `let1` form with the name has ended since that binder was entered.
* `resolved_iff` : an occurrence denotes the innermost enclosing binder exactly if no such form
  has ended.
-/

namespace Bluejay

namespace Lisp

open Emitter

/-! ### Binders -/

/-- The variable at a place in the list, counted from the oldest. -/
def Local.variable (l : Local) (k : ℕ) : Option Variable := l.first.reverse[k]?

/-- The most recent variable of a name, and its place. -/
def newest (name : String) : List Variable → Option (ℕ × Variable)
  | [] => none
  | v :: prev => if v.name = name then some (prev.length, v) else newest name prev

/-- One function further out. -/
def outwards : ℕ × ℕ → ℕ × ℕ := Prod.map (· + 1) id

/-- What an occurrence of a name denotes.  A captured variable is one of the functions around,
where the code that creates the closure looks the name up again. -/
def resolve (name : String) : List Local → Option (ℕ × ℕ)
  | [] => none
  | l :: parents =>
    match newest name l.first with
    | some (k, v) =>
      if v.type = .free then (resolve name parents).map outwards else some (0, k)
    | none => (resolve name parents).map outwards

/-- The innermost enclosing binder of a name. -/
def enclosing (name : String) : List Local → Option (ℕ × ℕ)
  | [] => none
  | l :: parents =>
    match l.notes.scope.lookup name with
    | some k => some (0, k)
    | none => (enclosing name parents).map outwards

/-- The variable at place `k` is a binder of `name` that has ended, and more recent than any that
encloses. -/
def Local.Ended (l : Local) (name : String) (k : ℕ) : Prop :=
  (∃ v ∈ l.variable k, v.name = name ∧ v.type ≠ .free) ∧ (name, k) ∉ l.notes.scope ∧
    ∀ j ∈ l.notes.scope.lookup name, j < k

/-- A `let1` form with the name has ended since the innermost enclosing binder was entered. -/
def Stale (name : String) : List Local → Prop
  | [] => False
  | l :: parents => (∃ k < l.first.length, l.Ended name k) ∨
      l.notes.scope.lookup name = none ∧ Stale name parents

instance (l : Local) (name : String) (k : ℕ) : Decidable (l.Ended name k) :=
  inferInstanceAs (Decidable (_ ∧ _ ∧ _))

instance decidableStale (name : String) : ∀ L, Decidable (Stale name L)
  | [] => inferInstanceAs (Decidable False)
  | _ :: parents =>
    have := decidableStale name parents
    inferInstanceAs (Decidable (_ ∨ _ ∧ _))

/-- An occurrence is found exactly if a binder of the name encloses it, and it denotes the
innermost one. -/
def Occurrence.Resolved (o : Occurrence) : Prop :=
  ((findVariable o.name o.locals).1 = none ↔ enclosing o.name o.locals = none) ∧
    resolve o.name o.locals = enclosing o.name o.locals

instance (o : Occurrence) : Decidable o.Resolved := inferInstanceAs (Decidable (_ ∧ _))

/-! ### Lists of variables -/

section Variables

variable {l : Local} {name : String} {k j : ℕ} {v u : Variable}

theorem variable_lt (h : l.variable k = some v) : k < l.first.length := by
  obtain ⟨hk, -⟩ := List.getElem?_eq_some_iff.1 h
  simpa using hk

theorem variable_addVariable {type : VarType} {number : ℕ} :
    (l.addVariable type name number).variable k =
      if k = l.first.length then some ⟨name, number, type⟩ else l.variable k := by
  simp only [Local.variable, Local.addVariable, List.reverse_cons]
  split_ifs with hk
  · subst hk
    simp
  · rcases Nat.lt_or_gt_of_ne hk with h | h
    · rw [List.getElem?_append_left (by simpa using h)]
    · rw [List.getElem?_eq_none (by simp; omega), List.getElem?_eq_none (by simp; omega)]

theorem newest_eq_none_iff {vars : List Variable} :
    newest name vars = none ↔ ∀ v ∈ vars, v.name ≠ name := by
  induction vars with
  | nil => simp [newest]
  | cons u prev ih =>
    rw [newest, List.forall_mem_cons, ← ih]
    by_cases hu : u.name = name <;> simp [hu]

/-- `find_variable` takes the newest variable. -/
theorem find?_eq_newest {vars : List Variable} :
    vars.find? (fun v => v.name = name) = (newest name vars).map Prod.snd := by
  induction vars with
  | nil => rfl
  | cons u prev ih =>
    by_cases hu : u.name = name
    · simp [newest, hu]
    · simpa [newest, hu] using ih

theorem find?_eq_none_iff {vars : List Variable} :
    vars.find? (fun v => v.name = name) = none ↔ ∀ v ∈ vars, v.name ≠ name := by
  rw [find?_eq_newest, Option.map_eq_none_iff, newest_eq_none_iff]

theorem mem_first (h : l.variable k = some v) : v ∈ l.first := by
  simpa using List.mem_of_getElem? h

theorem newest_eq_some {vars : List Variable} (h : newest name vars = some (k, v)) :
    vars.reverse[k]? = some v ∧ v.name = name ∧
      ∀ j u, vars.reverse[j]? = some u → u.name = name → j ≤ k := by
  induction vars with
  | nil => cases h
  | cons w prev ih =>
    unfold newest at h
    have hlen : ∀ j u, (w :: prev).reverse[j]? = some u → j ≤ prev.length := fun j u hj => by
      obtain ⟨hj, -⟩ := List.getElem?_eq_some_iff.1 hj
      simpa [Nat.lt_succ_iff] using hj
    split_ifs at h with hw
    · cases h
      exact ⟨by simp, hw, fun j u hj _ => hlen j u hj⟩
    · obtain ⟨hk, hv, hmax⟩ := ih h
      have hlt : k < prev.length := by
        obtain ⟨hk, -⟩ := List.getElem?_eq_some_iff.1 hk
        simpa using hk
      refine ⟨?_, hv, fun j u hj hu => ?_⟩
      · rw [List.reverse_cons, List.getElem?_append_left (by simpa using hlt), hk]
      · rcases Nat.lt_or_ge j prev.length with h' | h'
        · rw [List.reverse_cons, List.getElem?_append_left (by simpa using h')] at hj
          exact hmax j u hj hu
        · -- the last place holds `w`, which has another name
          obtain rfl : j = prev.length := Nat.le_antisymm (hlen j u hj) h'
          rw [List.reverse_cons, List.getElem?_append_right (by simp)] at hj
          obtain rfl : w = u := by simpa using hj
          exact absurd hu hw

end Variables

/-! ### The invariant -/

/-- Enclosing binders are in the list of variables, outer ones before inner ones, and a captured
variable is older than every other one of its name. -/
structure ScopeInv (l : Local) : Prop where
  binder : ∀ b ∈ l.notes.scope, ∃ v, l.variable b.2 = some v ∧ v.name = b.1 ∧ v.type ≠ .free
  inner : l.notes.scope.Pairwise fun b b' => b'.2 < b.2
  captured : ∀ k v, l.variable k = some v → v.type = .free →
    ∀ j u, l.variable j = some u → u.name = v.name → k ≤ j

theorem ScopeInv.congr {l l' : Local} (h : ScopeInv l) (hf : l'.first = l.first)
    (hs : l'.notes.scope = l.notes.scope) : ScopeInv l' := by
  have hv : l'.variable = l.variable := by
    funext k
    rw [Local.variable, Local.variable, hf]
  exact ⟨by rw [hs, hv]; exact h.binder, by rw [hs]; exact h.inner, by rw [hv]; exact h.captured⟩

theorem scopeInv_new (name : Option String) (path : String) : ScopeInv (.new name path) :=
  ⟨by simp [Local.new], by simp [Local.new], by simp [Local.new, Local.variable]⟩

theorem ScopeInv.addBinder {l : Local} (h : ScopeInv l) {type : VarType} (ht : type ≠ .free)
    (name : String) (number : ℕ) : ScopeInv (l.addBinder type name number) := by
  have hvar : ∀ k, (l.addBinder type name number).variable k =
      if k = l.first.length then some ⟨name, number, type⟩ else l.variable k :=
    fun k => variable_addVariable
  refine ⟨fun b hb => ?_, List.pairwise_cons.2 ⟨fun b hb => ?_, h.inner⟩, ?_⟩
  · rw [hvar]
    rcases List.mem_cons.1 hb with rfl | hb
    · exact ⟨_, if_pos rfl, rfl, ht⟩
    · obtain ⟨v, hv, hn, ht'⟩ := h.binder b hb
      exact ⟨v, by rw [if_neg (variable_lt hv).ne, hv], hn, ht'⟩
  · obtain ⟨v, hv, -⟩ := h.binder b hb
    exact variable_lt hv
  · intro k v hk hv j u hj hu
    rw [hvar] at hk hj
    split_ifs at hk with hlen
    · cases hk
      exact absurd hv ht
    · have hlt := variable_lt hk
      split_ifs at hj with hlen'
      · omega
      · exact h.captured k v hk hv j u hj hu

theorem ScopeInv.capture {l : Local} (h : ScopeInv l) {name : String}
    (hn : ∀ v ∈ l.first, v.name ≠ name) (number : ℕ) :
    ScopeInv (l.addVariable .free name number) := by
  refine ⟨fun b hb => ?_, h.inner, ?_⟩
  · obtain ⟨v, hv, hb'⟩ := h.binder b hb
    exact ⟨v, by rw [variable_addVariable, if_neg (variable_lt hv).ne, hv], hb'⟩
  · intro k v hk hv j u hj hu
    rw [variable_addVariable] at hk hj
    split_ifs at hk with hlen
    · cases hk
      split_ifs at hj with hlen'
      · omega
      · exact absurd hu (hn u (mem_first hj))
    · have hlt := variable_lt hk
      split_ifs at hj with hlen'
      · omega
      · exact h.captured k v hk hv j u hj hu

theorem ScopeInv.closeBinder {l : Local} (h : ScopeInv l) : ScopeInv l.closeBinder :=
  ⟨fun b hb => h.binder b (List.mem_of_mem_tail hb), h.inner.tail, h.captured⟩

/-- A binder of the name, ended or not, is in one of the lists of variables. -/
def Bound (name : String) (L : List Local) : Prop :=
  ∃ l ∈ L, ∃ v ∈ l.first, v.name = name ∧ v.type ≠ .free

/-- Each of the functions is well scoped, and what it captures is bound around it. -/
def ScopesInv : List Local → Prop
  | [] => True
  | l :: parents =>
    ScopeInv l ∧ (∀ v ∈ l.first, v.type = .free → Bound v.name parents) ∧ ScopesInv parents

section Scopes

variable {name : String} {l : Local} {L parents : List Local}

theorem bound_cons : Bound name (l :: parents) ↔
    (∃ v ∈ l.first, v.name = name ∧ v.type ≠ .free) ∨ Bound name parents := by
  simp only [Bound, List.exists_mem_cons_iff]

/-- What is found is bound somewhere. -/
theorem findVariable_eq_none_iff (h : ScopesInv L) :
    (findVariable name L).1 = none ↔ ¬ Bound name L := by
  induction L with
  | nil => simp [findVariable, Bound]
  | cons l parents ih =>
    obtain ⟨-, hfree, hparents⟩ := h
    rw [bound_cons]
    cases hf : l.first.find? fun v => v.name = name with
    | some v =>
      have hv : v ∈ l.first := List.mem_of_find?_eq_some hf
      have hn : v.name = name := by simpa using List.find?_some hf
      simp only [findVariable, hf, reduceCtorEq, false_iff, not_not]
      by_cases ht : v.type = .free
      · exact .inr (hn ▸ hfree v hv ht)
      · exact .inl ⟨v, hv, hn, ht⟩
    | none =>
      have hno : ¬ ∃ v ∈ l.first, v.name = name ∧ v.type ≠ .free := fun ⟨v, hv, hn, _⟩ =>
        find?_eq_none_iff.1 hf v hv hn
      rw [or_iff_right hno, ← ih hparents]
      cases hp : findVariable name parents with
      | mk v' L' => cases v' <;> simp [findVariable, hf, hp]

theorem bound_findVariable {name' : String} (h : Bound name' L) :
    Bound name' (findVariable name L).2 := by
  induction L with
  | nil => exact h
  | cons l parents ih =>
    rw [bound_cons] at h
    cases hf : l.first.find? fun v => v.name = name with
    | some v => simpa only [findVariable, hf] using bound_cons.2 h
    | none =>
      cases hp : findVariable name parents with
      | mk v' L' =>
        rw [hp] at ih
        have h' := h.imp_right ih
        cases v' with
        | none => simpa only [findVariable, hf, hp] using bound_cons.2 h'
        | some v' =>
          simp only [findVariable, hf, hp]
          exact bound_cons.2 (h'.imp_left fun ⟨v, hv, hn⟩ => ⟨v, List.mem_cons_of_mem _ hv, hn⟩)

/-- Looking a name up keeps the scopes in order. -/
theorem ScopesInv.findVariable (h : ScopesInv L) : ScopesInv (findVariable name L).2 := by
  induction L with
  | nil => exact h
  | cons l parents ih =>
    obtain ⟨hl, hfree, hparents⟩ := h
    cases hf : l.first.find? fun v => v.name = name with
    | some v => simpa only [Lisp.findVariable, hf] using ⟨hl, hfree, hparents⟩
    | none =>
      have hkeep : ∀ v ∈ l.first, v.type = .free → Bound v.name (Lisp.findVariable name parents).2 :=
        fun v hv ht => bound_findVariable (hfree v hv ht)
      have hbound : (Lisp.findVariable name parents).1 ≠ none → Bound name parents := fun hsome =>
        not_not.1 (mt (findVariable_eq_none_iff hparents).2 hsome)
      have hbound' : (Lisp.findVariable name parents).1 ≠ none →
          Bound name (Lisp.findVariable name parents).2 :=
        fun hsome => bound_findVariable (hbound hsome)
      have ih' := ih hparents
      cases hp : Lisp.findVariable name parents with
      | mk v' L' =>
        rw [hp] at hkeep hbound' ih'
        cases v' with
        | none => simpa only [Lisp.findVariable, hf, hp] using ⟨hl, hkeep, ih'⟩
        | some v' =>
          simp only [Lisp.findVariable, hf, hp]
          refine ⟨(hl.capture (find?_eq_none_iff.1 hf) l.numClosureSlots).congr rfl rfl,
            List.forall_mem_cons.2 ⟨fun _ => hbound' (by simp), hkeep⟩, ih'⟩

theorem resolve_eq_none_iff (h : ScopesInv L) : resolve name L = none ↔ ¬ Bound name L := by
  induction L with
  | nil => simp [resolve, Bound]
  | cons l parents ih =>
    obtain ⟨-, hfree, hparents⟩ := h
    rw [bound_cons]
    cases hn : newest name l.first with
    | none =>
      have hno : ¬ ∃ v ∈ l.first, v.name = name ∧ v.type ≠ .free := fun ⟨v, hv, hn', _⟩ =>
        newest_eq_none_iff.1 hn v hv hn'
      simp only [resolve, hn, Option.map_eq_none_iff, or_iff_right hno, ih hparents]
    | some kv =>
      obtain ⟨hk, hname, -⟩ := newest_eq_some hn
      have hv := mem_first hk
      by_cases ht : kv.2.type = .free
      · have hb : Bound name parents := hname ▸ hfree _ hv ht
        simp only [resolve, hn, if_pos ht, Option.map_eq_none_iff, ih hparents, hb, or_true]
      · simp only [resolve, hn, if_neg ht, reduceCtorEq, false_iff, not_not]
        exact .inl ⟨_, hv, hname, ht⟩

theorem outwards_injective : Function.Injective outwards :=
  Function.Injective.prodMap (add_left_injective 1) Function.injective_id

/-- The innermost of the enclosing binders comes last. -/
theorem ScopeInv.le_of_lookup {j k : ℕ} (h : ScopeInv l)
    (hj : l.notes.scope.lookup name = some j) (hk : (name, k) ∈ l.notes.scope) : k ≤ j := by
  obtain ⟨inside, around, hscope, hno⟩ := List.lookup_eq_some_iff.1 hj
  have hinner := h.inner
  rw [hscope] at hk hinner
  rcases List.mem_append.1 hk with hk | hk
  · simpa using hno _ hk
  · rcases List.mem_cons.1 hk with hk | hk
    · exact (Prod.mk.inj hk).2.le
    · exact ((List.pairwise_cons.1 (List.pairwise_append.1 hinner).2.1).1 _ hk).le

/-- A function in which the name is not bound, or only captured. -/
theorem resolve_of_not_bound (h : ScopeInv l)
    (hno : ∀ v ∈ l.first, v.name = name → v.type = .free) :
    resolve name (l :: parents) = (resolve name parents).map outwards ∧
      l.notes.scope.lookup name = none ∧ ∀ k, ¬ l.Ended name k := by
  refine ⟨?_, List.lookup_eq_none_iff.2 fun b hb => ?_, fun k hk => ?_⟩
  · cases hn : newest name l.first with
    | none => simp only [resolve, hn]
    | some kv =>
      obtain ⟨hk, hname, -⟩ := newest_eq_some hn
      simp only [resolve, hn, if_pos (hno _ (mem_first hk) hname)]
  · obtain ⟨v, hv, hname, ht⟩ := h.binder b hb
    simp only [bne_iff_ne, ne_eq]
    intro hb'
    exact ht (hno v (mem_first hv) (hname.trans hb'.symm))
  · obtain ⟨⟨v, hv, hname, ht⟩, -⟩ := hk
    exact ht (hno v (mem_first hv) hname)

/-- A function whose most recent variable of the name is a binder. -/
theorem resolve_of_bound {k : ℕ} {v : Variable} (h : ScopeInv l)
    (hn : newest name l.first = some (k, v)) (ht : v.type ≠ .free) :
    (l.notes.scope.lookup name = some k ↔ ¬ ∃ k < l.first.length, l.Ended name k) ∧
      (l.notes.scope.lookup name = none → ∃ k < l.first.length, l.Ended name k) := by
  obtain ⟨hk, hname, hmax⟩ := newest_eq_some hn
  have hlt : k < l.first.length := variable_lt hk
  have hended : l.notes.scope.lookup name ≠ some k → l.Ended name k := fun hne => by
    have hle : ∀ j ∈ l.notes.scope.lookup name, j < k := fun j hj => by
      obtain ⟨inside, around, hscope, -⟩ := List.lookup_eq_some_iff.1 hj
      obtain ⟨u, hu, hu', -⟩ := h.binder (name, j) (by simp [hscope])
      exact lt_of_le_of_ne (hmax j u hu hu') fun he => hne (he ▸ hj)
    refine ⟨⟨v, hk, hname, ht⟩, fun hmem => ?_, hle⟩
    cases hj : l.notes.scope.lookup name with
    | none => simpa using List.lookup_eq_none_iff.1 hj _ hmem
    | some j => exact absurd (h.le_of_lookup hj hmem) (Nat.not_le.2 (hle j hj))
  refine ⟨⟨?_, fun hno => not_not.1 fun hne => hno ⟨k, hlt, hended hne⟩⟩,
    fun hnone => ⟨k, hlt, hended (by simp [hnone])⟩⟩
  rintro hj ⟨k', -, ⟨u, hu, hu', -⟩, -, hle⟩
  exact absurd (hmax k' u hu hu') (Nat.not_le.2 (hle k hj))

/-- A name denotes its innermost enclosing binder unless a binder of the name has ended inside. -/
theorem resolve_eq_enclosing_iff (h : ScopesInv L) :
    resolve name L = enclosing name L ↔ ¬ Stale name L := by
  induction L with
  | nil => simp [resolve, enclosing, Stale]
  | cons l parents ih =>
    obtain ⟨hl, -, hparents⟩ := h
    by_cases hno : ∀ v ∈ l.first, v.name = name → v.type = .free
    · obtain ⟨hres, hlook, hend⟩ : resolve name (l :: parents) = _ ∧ _ :=
        resolve_of_not_bound hl hno
      have hend' : ¬ ∃ k < l.first.length, l.Ended name k := fun ⟨k, _, hk⟩ => hend k hk
      rw [hres, enclosing, hlook, Stale, or_iff_right hend', and_iff_right hlook, ← ih hparents]
      exact (Option.map_injective outwards_injective).eq_iff
    · push Not at hno
      obtain ⟨u, hu, hname, hut⟩ := hno
      cases hn : newest name l.first with
      | none => exact absurd hname (newest_eq_none_iff.1 hn u hu)
      | some kv =>
        obtain ⟨k, v⟩ := kv
        have ht : v.type ≠ .free := fun ht => by
          -- the oldest variable of the name is the captured one, so it would be the only one
          obtain ⟨hk, hv, hmax⟩ := newest_eq_some hn
          obtain ⟨j, hj⟩ := List.getElem?_of_mem (List.mem_reverse.2 hu)
          obtain rfl : k = j := Nat.le_antisymm
            (hl.captured k v hk ht j u hj (hname.trans hv.symm)) (hmax j u hj hname)
          exact hut (Option.some.inj (hk.symm.trans hj) ▸ ht)
        obtain ⟨hiff, hnone⟩ := resolve_of_bound hl hn ht
        simp only [resolve, hn, if_neg ht, enclosing, Stale]
        cases hj : l.notes.scope.lookup name with
        | none =>
          have hne : some (0, k) ≠ (enclosing name parents).map outwards := by
            rcases enclosing name parents with _ | ⟨i, j⟩ <;> simp [outwards, Prod.map]
          simp only [hne, false_iff, not_not]
          exact .inl (hnone hj)
        | some j =>
          rw [hj] at hiff
          simpa [eq_comm] using hiff

end Scopes

/-! ### Runs of the compiler -/

/-- The scopes are in order, now and wherever a variable occurred. -/
structure Scoped (s : State) : Prop where
  locals : ScopesInv s.locals
  occurrences : ∀ o ∈ s.occurrences, ScopesInv o.locals

/-- A change to the innermost function that keeps it well scoped and captures nothing. -/
theorem Scoped.modifyHead {s : State} {f : Local → Local} (h : Scoped s)
    (hf : ∀ l, ScopeInv l → ScopeInv (f l))
    (hfree : ∀ l, ∀ v ∈ (f l).first, v.type = .free → v ∈ l.first) :
    Scoped { s with locals := s.locals.modifyHead f } := by
  obtain ⟨hlocals, hocc⟩ := h
  refine ⟨?_, hocc⟩
  cases hs : s.locals with
  | nil => trivial
  | cons l parents =>
    rw [hs] at hlocals
    obtain ⟨hl, hbound, hparents⟩ := hlocals
    exact ⟨hf l hl, fun v hv ht => hbound v (hfree l v hv ht) ht, hparents⟩

/-- A change that leaves the variables and the binders of the innermost function alone. -/
theorem Scoped.modifyHead_congr {s : State} {f : Local → Local} (h : Scoped s)
    (hf : ∀ l, (f l).first = l.first) (hs : ∀ l, (f l).notes.scope = l.notes.scope) :
    Scoped { s with locals := s.locals.modifyHead f } :=
  h.modifyHead (fun l hl => hl.congr (hf l) (hs l)) fun l _ hv _ => hf l ▸ hv

theorem first_allocSlot (l : Local) : l.allocSlot.first = l.first := by
  unfold Local.allocSlot Local.alloc
  split <;> rfl

theorem scopesInv_tail {L : List Local} (h : ScopesInv L) : ScopesInv L.tail := by
  cases L with
  | nil => exact h
  | cons l parents => exact h.2.2

theorem stable_scoped : Stable Scoped where
  world _ h := ⟨h.locals, h.occurrences⟩
  note name h := ⟨h.locals, fun o ho => by
    rcases List.mem_append.1 ho with ho | ho
    · exact h.occurrences o ho
    · obtain rfl := List.mem_singleton.1 ho
      exact h.locals⟩
  find _ h := ⟨h.locals.findVariable, h.occurrences⟩
  nextLabel h := h.modifyHead_congr (fun _ => rfl) fun _ => rfl
  allocSlot h := h.modifyHead_congr first_allocSlot fun _ => rfl
  freeSlot _ h := h.modifyHead_congr (fun _ => rfl) fun _ => rfl
  resetSlots h := h.modifyHead_congr (fun _ => rfl) fun _ => rfl
  setArgs _ h := h.modifyHead_congr (fun _ => rfl) fun _ => rfl
  addBinder name k ht h := h.modifyHead (fun l hl => hl.addBinder ht name k) fun l u hu hfree => by
    rcases List.mem_cons.1 hu with rfl | hu
    · exact absurd hfree ht
    · exact hu
  closeBinder h := h.modifyHead (fun _ hl => hl.closeBinder) fun _ _ hv _ => hv
  enter name path closed h h' := by
    refine ⟨⟨scopeInv_new name path, fun v hv => absurd hv List.not_mem_nil, ?_⟩, h'.occurrences⟩
    cases closed
    · trivial
    · exact h.locals
  leave closed h h' := by
    refine ⟨?_, h'.occurrences⟩
    cases closed
    · exact h.locals
    · exact scopesInv_tail h'.locals

/-- Every variable that occurs in a function or in a `lambda` within it denotes its innermost
enclosing binder, and is rejected if there is none, exactly if no `let1` form with its name has
ended since that binder was entered. -/
theorem resolved_iff (R : Runtime) (n : ℕ) (v : Word) (closed : Bool) (name : Option String)
    (path : String) {s : State} (hlocals : s.locals = []) (hocc : s.occurrences = []) :
    ∀ o ∈ ((compiler R n).compileFunction v closed name path s).state.occurrences,
      o.Resolved ↔ ¬ Stale o.name o.locals := by
  have hs : Scoped s := ⟨by rw [hlocals]; trivial, by simp [hocc]⟩
  have hrun := (compiler_keeps stable_scoped R n).function v closed name path s hs
  intro o ho
  have h := hrun.occurrences o ho
  refine ⟨fun hr => (resolve_eq_enclosing_iff h).1 hr.2, fun hst => ?_⟩
  have heq := (resolve_eq_enclosing_iff h).2 hst
  exact ⟨by rw [findVariable_eq_none_iff h, ← resolve_eq_none_iff h, heq], heq⟩

/-- `((x) (lambda (y) x) (let1 (y x) y))` -/
def capturingBody : Sexp :=
  .list [.list [.symbol "x"], .list [.symbol "lambda", .list [.symbol "y"], .symbol "x"],
    .list [.symbol "let1", .list [.symbol "y", .symbol "x"], .symbol "y"]]

theorem resolved_capturingBody : ∃ o ∈ ((compiler .inert 12).compileFunction
    capturingBody.heap.2 false none "" capturingBody.state).state.occurrences, o.Resolved := by
  have hnot : ∃ o ∈ ((compiler .inert 12).compileFunction capturingBody.heap.2 false none ""
      capturingBody.state).state.occurrences, ¬ Stale o.name o.locals := by decide
  obtain ⟨o, ho, hn⟩ := hnot
  exact ⟨o, ho, (resolved_iff .inert 12 _ false none "" rfl rfl o ho).2 hn⟩

/-- `(() (let1 (x 1) x) x)` : no binder encloses the second `x`. -/
def endedBody : Sexp :=
  .list [.list [], .list [.symbol "let1", .list [.symbol "x", .int 1], .symbol "x"], .symbol "x"]

/-- **A variable may denote a binder that has ended.** -/
theorem not_resolved : ¬ ∀ (R : Runtime) (n : ℕ) (v : Word) (closed : Bool)
    (name : Option String) (path : String) (s : State), s.locals = [] → s.occurrences = [] →
      ∀ o ∈ ((compiler R n).compileFunction v closed name path s).state.occurrences,
        o.Resolved := by
  intro h
  have hex : ∃ o ∈ ((compiler .inert 12).compileFunction endedBody.heap.2 false none ""
      endedBody.state).state.occurrences, ¬ o.Resolved := by decide
  obtain ⟨o, ho, hnot⟩ := hex
  exact hnot (h .inert 12 _ false none "" endedBody.state rfl rfl o ho)

end Lisp

end Bluejay
