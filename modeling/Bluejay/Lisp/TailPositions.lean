import Bluejay.Lisp.Leftovers
import Bluejay.Lisp.TailCalls
import Bluejay.Lisp.Tidy

/-!
# Tail positions

What the compiler makes of a form in tail position, and what it makes of the form elsewhere.

* `Leads bs` : behind the tail calls in the blocks `bs` there are only jumps to their end.
* `Twin count c c'` : the code of the same blocks, with and without tail calls.
* `Twins m m'` : where the program `m` succeeds, `m'` does the same, and emits the twin.
* `compiler_twins` : expressions in tail position and elsewhere.
-/

namespace Bluejay

namespace Lisp

open Emitter

/-! ### Blocks without tail calls -/

section Blocks

variable {count : ℕ} {bs bs' : List Block} {c c' : Code}

theorem bodyCode_append (count : ℕ) (bs bs' : List Block) :
    bodyCode count (bs ++ bs') = bodyCode count bs ++ bodyCode count bs' :=
  List.flatMap_append

theorem bodyCode_keep (count : ℕ) (c : Code) : bodyCode count (c.map Block.keep) = c := by
  induction c with
  | nil => rfl
  | cons i c ih => exact congrArg (i :: ·) ih

theorem plain_keep (c : Code) : (c.map Block.keep).map Block.plain = c := by
  rw [List.map_map]
  exact List.map_id c

theorem bodyCode_untail (count : ℕ) (bs : List Block) :
    bodyCode count (bs.map Block.untail) = bs.map Block.plain := by
  rw [← bodyCode_keep count (bs.map Block.plain), List.map_map]
  rfl

theorem plain_untail (bs : List Block) :
    (bs.map Block.untail).map Block.plain = bs.map Block.plain := by
  rw [List.map_map]
  rfl

theorem not_self_of_keep {p : ℕ} : (c.map Block.keep)[p]? ≠ some .self := by
  rw [List.getElem?_map]
  cases (c)[p]? <;> exact nofun

end Blocks

/-! ### Where tail calls lead -/

/-- From its start, the code only goes to its end, if it only goes on to the end of the body from
there. -/
def Through (c : Code) : Prop :=
  ∀ pre post : Code, Exits (pre ++ c ++ post) (pre.length + c.length) →
    Exits (pre ++ c ++ post) pre.length

/-- So does what is behind the tail calls in the blocks. -/
def Leads (bs : List Block) : Prop :=
  ∀ pre post : Code, Exits (pre ++ bs.map Block.plain ++ post) (pre.length + bs.length) →
    ∀ p, bs[p]? = some .self → Exits (pre ++ bs.map Block.plain ++ post) (pre.length + p + 2)

section Leads

variable {bs bs' : List Block} {c : Code} {a l : ℕ}

theorem leads_keep (c : Code) : Leads (c.map Block.keep) :=
  fun _ _ _ _ hp => absurd hp not_self_of_keep

theorem Leads.keep (c : Code) (h : Leads bs) : Leads (c.map Block.keep ++ bs) := by
  intro pre post hexits p hp
  have hcode : pre ++ (c.map Block.keep ++ bs).map Block.plain ++ post =
      pre ++ c ++ bs.map Block.plain ++ post := by
    simp only [List.map_append, plain_keep, List.append_assoc]
  rw [List.length_append, List.length_map, hcode] at hexits
  rcases Nat.lt_or_ge p (c.map Block.keep).length with hlt | hge
  · rw [List.getElem?_append_left hlt] at hp
    exact absurd hp not_self_of_keep
  · rw [List.getElem?_append_right hge, List.length_map] at hp
    rw [List.length_map] at hge
    have hlead := h (pre ++ c) post (by rwa [List.length_append, Nat.add_assoc]) _ hp
    rw [hcode]
    rwa [List.length_append, show pre.length + c.length + (p - c.length) + 2 =
      pre.length + p + 2 by omega] at hlead

theorem Leads.append (h : Leads bs) (h' : Leads bs') (hthrough : Through (bs'.map Block.plain)) :
    Leads (bs ++ bs') := by
  intro pre post hexits p hp
  rw [List.length_append] at hexits
  rcases Nat.lt_or_ge p bs.length with hlt | hge
  · rw [List.getElem?_append_left hlt] at hp
    have hcode : pre ++ (bs ++ bs').map Block.plain ++ post =
        pre ++ bs.map Block.plain ++ (bs'.map Block.plain ++ post) := by
      simp only [List.map_append, List.append_assoc]
    have hcode' : pre ++ bs.map Block.plain ++ (bs'.map Block.plain ++ post) =
        pre ++ bs.map Block.plain ++ bs'.map Block.plain ++ post := by
      simp only [List.append_assoc]
    rw [hcode] at hexits ⊢
    refine h pre _ ?_ p hp
    rw [hcode'] at hexits ⊢
    have hmid := hthrough (pre ++ bs.map Block.plain) post (by
      simpa only [List.length_append, List.length_map, Nat.add_assoc] using hexits)
    simpa only [List.length_append, List.length_map] using hmid
  · rw [List.getElem?_append_right hge] at hp
    have hcode : pre ++ (bs ++ bs').map Block.plain ++ post =
        pre ++ bs.map Block.plain ++ bs'.map Block.plain ++ post := by
      simp only [List.map_append, List.append_assoc]
    rw [hcode] at hexits ⊢
    have hlead := h' (pre ++ bs.map Block.plain) post (by
      simpa only [List.length_append, List.length_map, Nat.add_assoc] using hexits) _ hp
    rwa [List.length_append, List.length_map, show pre.length + bs.length + (p - bs.length) + 2 =
      pre.length + p + 2 by omega] at hlead

/-- A call in tail position. -/
theorem leads_self (n : ℕ) : Leads [.self, .keep (.addEsp n)] := by
  intro pre post hexits p hp
  match p, hp with
  | 0, _ => exact hexits
  | 1, hp => cases hp

theorem exits_label {pre post : Code} {l : ℕ}
    (h : Exits (pre ++ [.label l] ++ post) (pre.length + 1)) :
    Exits (pre ++ [.label l] ++ post) pre.length :=
  .label (l := l) (by simp) h

theorem through_label (l : ℕ) : Through [.label l] := fun _ _ h => exits_label h

/-- The end of the first branch of an `if`, and the second one. -/
theorem through_jump (c : Code) (a l : ℕ) : Through ([.jmp a, .label l] ++ c ++ [.label a]) := by
  intro pre post h
  have hcode : pre ++ ([.jmp a, .label l] ++ c ++ [.label a]) ++ post =
      pre ++ ([.jmp a, .label l] ++ c) ++ [.label a] ++ post := by
    simp only [List.append_assoc]
  rw [hcode] at h ⊢
  have hlabel : Exits (pre ++ ([.jmp a, .label l] ++ c) ++ [.label a] ++ post)
      (pre ++ ([Instr.jmp a, .label l] ++ c)).length := by
    refine exits_label ?_
    simpa [Nat.add_assoc] using h
  exact .jmp (l := a) (by simp) (by simp) hlabel

end Leads

/-! ### Twins -/

/-- The code of the same blocks, with the tail calls and without. -/
def Twin (count : ℕ) (c c' : Code) : Prop :=
  ∃ bs, Leads bs ∧ c = bodyCode count bs ∧ c' = bs.map Block.plain

section Twin

variable {count : ℕ} {c c' c₁ c₁' c₂ : Code}

theorem twin_refl (count : ℕ) (c : Code) : Twin count c c :=
  ⟨c.map Block.keep, leads_keep c, (bodyCode_keep count c).symm, (plain_keep c).symm⟩

/-- Code in front that is the same. -/
theorem Twin.prepend (h : Twin count c c') (c₁ : Code) : Twin count (c₁ ++ c) (c₁ ++ c') := by
  obtain ⟨bs, hbs, rfl, rfl⟩ := h
  refine ⟨c₁.map Block.keep ++ bs, hbs.keep c₁, ?_, ?_⟩
  · rw [bodyCode_append, bodyCode_keep]
  · rw [List.map_append, plain_keep]

/-- Twins one behind the other. -/
theorem Twin.append (h : Twin count c c') (h' : Twin count c₁ c₁') (hthrough : Through c₁') :
    Twin count (c ++ c₁) (c' ++ c₁') := by
  obtain ⟨bs, hbs, rfl, rfl⟩ := h
  obtain ⟨bs', hbs', rfl, rfl⟩ := h'
  exact ⟨bs ++ bs', hbs.append hbs' hthrough, (bodyCode_append _ _ _).symm,
    List.map_append.symm⟩

/-- A call of the function itself. -/
theorem twin_call (count n : ℕ) : Twin count (tailCall count ++ [.addEsp n])
    [.callHere, .addEsp n] :=
  ⟨[.self, .keep (.addEsp n)], leads_self n, rfl, rfl⟩

end Twin

/-! ### Programs and their twins -/

/-- Where the first program succeeds, the second one does the same, and emits the twin of the
code. -/
def Twins (arity : CodePtr → ℕ) (count : ℕ) {α : Type} (m m' : CompileM α) : Prop :=
  ∀ s a c s', Ready arity count s → m s = .ok a c s' →
    ∃ c', m' s = .ok a c' s' ∧ Twin count c c'

section Twins

variable {arity : CodePtr → ℕ} {count : ℕ} {α β : Type} {m m' m₁ m₁' : CompileM α}
  {f f' : α → CompileM β}

theorem twins_refl (m : CompileM α) : Twins arity count m m :=
  fun _ _ c _ _ h => ⟨c, h, twin_refl count c⟩

/-- What is the same in both, first. -/
theorem twins_bind (hm : Tidies arity count m) (hf : ∀ a, Twins arity count (f a) (f' a)) :
    Twins arity count (m >>= f) (m >>= f') := by
  intro s b c s' hs h
  obtain ⟨a, c₁, s₁, c₂, rfl, h₁, h₂⟩ := bind_ok_iff.1 h
  obtain ⟨c₂', h₂', htwin⟩ := hf a _ _ _ _ (hm _ _ _ _ h₁ hs).1 h₂
  exact ⟨c₁ ++ c₂', bind_ok h₁ h₂', htwin.prepend c₁⟩

theorem Idle.twins (hm : Idle arity m) (hf : ∀ a, Twins arity count (f a) (f' a)) :
    Twins arity count (m >>= f) (m >>= f') :=
  twins_bind hm.tidies hf

/-- The function being compiled finds `count` words on the stack. -/
theorem twins_getLocal {f f' : Local → CompileM β}
    (hf : ∀ l, realNargs l.args = count → Twins arity count (f l) (f' l)) :
    Twins arity count (getLocal >>= f) (getLocal >>= f') := by
  intro s b c s' hs h
  obtain ⟨l, c₁, s₁, c₂, rfl, h₁, h₂⟩ := bind_ok_iff.1 h
  obtain ⟨rfl, rfl, rest, hl⟩ := getLocal_ok h₁
  have hcount : realNargs l.args = count := (hs.finds l (by rw [hl]; rfl)).1
  obtain ⟨c₂', h₂', htwin⟩ := hf l hcount _ _ _ _ hs h₂
  exact ⟨[] ++ c₂', bind_ok h₁ h₂', htwin.prepend []⟩

theorem twins_ite {p : Prop} [Decidable p] (h : Twins arity count m m')
    (h₁ : Twins arity count m₁ m₁') :
    Twins arity count (if p then m else m₁) (if p then m' else m₁') := by
  split_ifs
  · exact h
  · exact h₁

theorem twins_when {p : Prop} [Decidable p] {m m' : CompileM Unit} (h : Twins arity count m m') :
    Twins arity count (when p m) (when p m') :=
  twins_ite h (twins_refl _)

/-- Behind the twins, nothing is emitted. -/
theorem Twins.quietly (h : Twins arity count m m') {f : α → CompileM β}
    (hf : ∀ a s b c s', f a s = .ok b c s' → c = []) : Twins arity count (m >>= f) (m' >>= f) := by
  intro s b c s' hs hok
  obtain ⟨a, c₁, s₁, c₂, rfl, h₁, h₂⟩ := bind_ok_iff.1 hok
  obtain rfl := hf _ _ _ _ _ h₂
  obtain ⟨c₁', h₁', htwin⟩ := h _ _ _ _ hs h₁
  rw [List.append_nil]
  exact ⟨c₁' ++ [], bind_ok h₁' h₂, by rwa [List.append_nil]⟩

/-- The branches of an `if`. -/
theorem twins_branches {m m' m₁ m₁' : CompileM Unit} {a l : ℕ} (h : Twins arity count m m')
    (hm' : Tidies arity count m') (h₁ : Twins arity count m₁ m₁') :
    Twins arity count (do m; emit [.jmp a, .label l]; m₁; emit [.label a])
      (do m'; emit [.jmp a, .label l]; m₁'; emit [.label a]) := by
  intro s u c s' hs hok
  obtain ⟨_, c₁, s₁, c₂, rfl, hrun, hend⟩ := bind_ok_iff.1 hok
  obtain ⟨c₃, rfl, hrest⟩ := emit_bind hend
  obtain ⟨_, c₄, s₂, c₅, rfl, hrun₁, hlast⟩ := bind_ok_iff.1 hrest
  obtain ⟨rfl, rfl⟩ := emit_ok_iff.1 hlast
  obtain ⟨c₁', hrun', htwin⟩ := h _ _ _ _ hs hrun
  have hs₁ := (hm' _ _ _ _ hrun' hs).1
  obtain ⟨c₄', hrun₁', htwin₁⟩ := h₁ _ _ _ _ hs₁ hrun₁
  have hright : Twin count ([.jmp a, .label l] ++ c₄ ++ [.label a])
      ([.jmp a, .label l] ++ c₄' ++ [.label a]) :=
    (htwin₁.prepend _).append (twin_refl count _) (through_label a)
  refine ⟨_, bind_ok hrun' (bind_ok rfl (bind_ok hrun₁' rfl)), ?_⟩
  simpa only [List.append_assoc] using htwin.append hright (through_jump c₄' a l)

end Twins

/-! ### The ends of lists -/

/-- The cell at `p` is the last one of a list. -/
def LastCell (p : ℕ) (w : World) : Prop := ∃ v, w.heap.obj p = some (.cons v nil)

/-- What happens to the memory leaves the ends of lists where they are; and what `arity` says of
the environment stays true. -/
structure Considerate (arity : CodePtr → ℕ) (w w' : World) : Prop where
  last : ∀ p, LastCell p w → LastCell p w'
  arities : Arities arity w → Arities arity w'

/-- What is run while functions are compiled, macros and the expressions for default arguments, is
considerate. -/
structure Runtime.Tame (arity : CodePtr → ℕ) (R : Runtime) : Prop where
  callList : ∀ {f list w v w'}, R.callList f list w = some (v, w') → Considerate arity w w'
  run : ∀ {p w v w'}, R.run p w = some (v, w') → Considerate arity w w'

section LastCell

variable {arity : CodePtr → ℕ} {R : Runtime} {w w' : World} {p : ℕ} {v : Word} {H : Heap}

/-- `car` is set, and `cdr` stays. -/
theorem cdr_of_obj_cons {x : Word} (h : H.obj (pointer v) = some (.cons x nil)) :
    H.cdr v = nil := by
  unfold Heap.cdr
  rw [h]
  exact ite_id nil

theorem Runtime.Tame.next (hR : R.Tame arity) (h : w.Next R w') : Considerate arity w w' := by
  cases h with
  | allocate o =>
    refine ⟨fun p hp => ?_, id⟩
    obtain ⟨v, hv⟩ := hp
    have hne : p ≠ R.malloc w.heap := by
      rintro rfl
      exact R.fresh w.heap ((w.heap.mem_dom _).1 (by rw [hv]; rfl))
    exact ⟨v, (Function.update_of_ne hne _ _).trans hv⟩
  | pools | link => exact ⟨fun _ hp => hp, id⟩
  | setCar cell v =>
    refine ⟨fun p hp => ?_, id⟩
    obtain ⟨u, hu⟩ := hp
    by_cases hp : p = pointer cell
    · subst hp
      refine ⟨v, (Function.update_self _ _ _).trans ?_⟩
      rw [cdr_of_obj_cons hu]
    · exact ⟨u, (Function.update_of_ne hp _ _).trans hu⟩
  | callList hf => exact hR.callList hf
  | run hp => exact hR.run hp

theorem Runtime.Tame.stableIn (hR : R.Tame arity) :
    StableIn R (fun _ => True) (Arities arity) :=
  ⟨stable_true, fun h => (hR.next h).arities⟩

/-- The last form of a list is in its last cell, or it is `nil`. -/
theorem lastCell_of_nilp (h : nilp (w.heap.cdr v) = true) :
    LastCell (pointer v) w ∨ w.heap.car v = nil := by
  unfold Heap.cdr at h
  unfold Heap.car
  by_cases hv : consp v = true
  · rw [if_pos hv] at h ⊢
    cases ho : w.heap.obj (pointer v) with
    | none => exact .inr rfl
    | some o =>
      cases o with
      | cons x y =>
        rw [ho] at h
        obtain rfl : y = nil := of_decide_eq_true h
        exact .inl ⟨x, ho⟩
      | _ => exact .inr rfl
  · exact .inr (if_neg hv)

end LastCell

/-! ### Forms in tail position -/

/-- What the functions of `C` make of a form in tail position is the twin of what they make of it
elsewhere. -/
structure Compiler.Twins (arity : CodePtr → ℕ) (count : ℕ) (C : Compiler) : Prop
    extends C.Tidies arity count where
  tail : ∀ v, Lisp.Twins arity count (C.compileExpression v true) (C.compileExpression v false)
  last : ∀ p v, Emitter.Keeps (fun s => LastCell p s.world) (C.compileExpression v true)
  nothing : ∀ {s u c s'}, C.compileExpression nil true s = .ok u c s' → s' = s

section Functions

variable {arity : CodePtr → ℕ} {count : ℕ} {R : Runtime} {C : Compiler}
  (hC : C.Twins arity count)

include hC

/-- A form that was the last one when it was compiled in tail position is the last one. -/
theorem cdr_behind_last {v : Word} {s s' : State} {u : Unit} {c : Code}
    (hlast : nilp (s.world.heap.cdr v) = true)
    (h : C.compileExpression (s.world.heap.car v) true s = .ok u c s') :
    s'.world.heap.cdr v = nil := by
  rcases lastCell_of_nilp hlast with hcell | hnil
  · obtain ⟨x, hx⟩ := (hC.last _ _).of_ok h hcell
    exact cdr_of_obj_cons hx
  · rw [hnil] at h
    rw [hC.nothing h]
    exact of_decide_eq_true hlast

theorem twins_compileBody (body : Word) :
    Twins arity count (compileBody C body true) (compileBody C body false) := by
  unfold compileBody
  generalize C.steps = n
  induction n generalizing body with
  | zero => exact twins_refl _
  | succ n ih =>
    refine twins_ite (twins_refl _) fun s u c s' hs h => ?_
    obtain ⟨u₁, c₁, s₁, c₂, rfl, hturn, hrest⟩ := bind_ok_iff.1 h
    dsimp only at hturn
    rw [cdr_bind_eq, car_bind_eq, Bool.true_and] at hturn
    rw [cdr_bind_eq] at hrest
    cases hlast : nilp (s.world.heap.cdr body) with
    | false =>
      rw [hlast] at hturn
      have hs₁ := (hC.expr _ _ _ _ _ hturn hs).1
      obtain ⟨c₂', hrest', htwin⟩ := ih _ _ _ _ _ hs₁ hrest
      refine ⟨_, bind_ok_iff.2 ⟨u₁, c₁, s₁, c₂', rfl, ?_, ?_⟩, htwin.prepend c₁⟩
      · dsimp only
        rw [cdr_bind_eq, car_bind_eq, Bool.false_and]
        exact hturn
      · rw [cdr_bind_eq]
        exact hrest'
    | true =>
      rw [hlast] at hturn
      obtain ⟨c₁', hturn', htwin⟩ := hC.tail _ _ _ _ _ hs hturn
      -- nothing is behind the last form
      rw [cdr_behind_last hC hlast hturn] at hrest
      obtain ⟨rfl, rfl⟩ : c₂ = [] ∧ s₁ = s' := by
        cases n with
        | zero => cases hrest
        | succ n =>
          obtain ⟨-, rfl, rfl⟩ := pure_ok_iff.1 hrest
          exact ⟨rfl, rfl⟩
      rw [List.append_nil]
      refine ⟨_, bind_ok_iff.2 ⟨u₁, c₁', s₁, [], rfl, ?_, ?_⟩, by rwa [List.append_nil]⟩
      · dsimp only
        rw [cdr_bind_eq, car_bind_eq, Bool.false_and]
        exact hturn'
      · rw [cdr_bind_eq, cdr_behind_last hC hlast hturn]
        cases n with
        | zero => cases hrest
        | succ n => rfl

theorem twins_compileIf (args : Word) (nargs : ℕ) :
    Twins arity count (compileIf C args nargs true) (compileIf C args nargs false) :=
  idle_throwIf.twins fun _ => (idle_car _).twins fun _ => twins_bind (hC.expr _) fun _ =>
    twins_bind tidies_nextpc fun _ => twins_bind tidies_nextpc fun _ =>
    twins_bind (tidies_emit (tidy_jump false _)) fun _ => (idle_elt _ _).twins fun _ =>
    twins_branches (hC.tail _) (hC.expr _)
      (twins_when ((idle_elt _ _).twins fun _ => hC.tail _))

theorem twins_compileLet1 (args : Word) (nargs : ℕ) :
    Twins arity count (compileLet1 C args nargs true) (compileLet1 C args nargs false) := by
  refine idle_throwIf.twins fun _ => (idle_car _).twins fun _ => (idle_cdr _).twins fun _ =>
    (idle_length _).twins fun _ => idle_throwIf.twins fun _ => (idle_car _).twins fun _ =>
    (idle_cdr _).twins fun _ => (idle_car _).twins fun _ => twins_bind (hC.expr _) fun _ =>
    twins_bind tidies_localAlloc fun i => (idle_symbolName _).twins fun name =>
    twins_bind (tidies_bindLocal name i) fun _ =>
    twins_bind (tidies_emit_free (by simp [Instr.free])) fun _ =>
    (twins_compileBody hC _).quietly ?_
  intro _ s u c s' h
  obtain ⟨_, c₁, s₁, c₂, rfl, h₁, h₂⟩ := bind_ok_iff.1 h
  obtain ⟨rfl, -⟩ := modifyLocal_ok rfl h₁
  obtain ⟨rfl, -⟩ := modifyLocal_ok rfl h₂
  rfl

theorem twins_compileCall (fsym args : Word) (nargs : ℕ) :
    Twins arity count (compileCall R C fsym args nargs true)
      (compileCall R C fsym args nargs false) := by
  refine (idle_symbolName _).twins fun name => (idle_findFunction _).twins fun func =>
    twins_getLocal fun l hl => ?_
  dsimp only
  by_cases hr : l.currentFunctionName = some name
  · simp only [hr, decide_true, if_true]
    refine idle_throwIf.twins fun _ => twins_bind (tidies_compilePassing hC.toTidies _ _ _)
      fun _ => ?_
    rw [hl]
    intro s u c s' hs h
    obtain ⟨c₁, rfl, h⟩ := emit_bind h
    obtain ⟨hc₁, rfl⟩ := emit_ok_iff.1 h
    exact ⟨_, bind_ok rfl rfl, hc₁ ▸ twin_call count _⟩
  · simp only [hr, decide_false]
    exact twins_refl _

theorem twins_compileForm (val : Word) :
    Twins arity count (compileForm R C val true) (compileForm R C val false) := by
  refine (idle_car _).twins fun fsym => (idle_cdr _).twins fun args => (idle_length _).twins
    fun nargs => idle_throwIf.twins fun _ => ?_
  refine (idle_symstreq _ _).twins fun _ => twins_ite (twins_compileIf hC _ _) ?_
  refine (idle_symstreq _ _).twins fun _ => twins_ite (twins_refl _) ?_
  refine (idle_symstreq _ _).twins fun _ => twins_ite (twins_refl _) ?_
  refine (idle_symstreq _ _).twins fun _ => twins_ite (twins_compileBody hC _) ?_
  refine (idle_symstreq _ _).twins fun _ => twins_ite (twins_compileLet1 hC _ _) ?_
  -- for the other special forms, it does not matter where they are
  iterate 8 refine (idle_symstreq _ _).twins fun _ => twins_ite (twins_refl _) ?_
  exact twins_compileCall hC _ _ _

theorem twins_compileExpression (val : Word) :
    Twins arity count (compileExpression R C val true) (compileExpression R C val false) := by
  refine (idle_symstreq _ _).twins fun _ => twins_ite (twins_refl _) ?_
  refine (idle_symstreq _ _).twins fun _ => twins_ite (twins_refl _)
    (twins_ite (twins_refl _) ?_)
  exact (idle_listp _).twins fun _ => twins_ite (twins_compileForm hC _) (twins_refl _)

end Functions

/-- `nil` is compiled to its value. -/
theorem compileExpression_nil {R : Runtime} {C : Compiler} {tail : Bool} {s s' : State} {u : Unit}
    {c : Code} (h : compileExpression R C nil tail s = .ok u c s') : s' = s := by
  rw [compileExpression, symstreq_bind_eq, show nilp nil = true from rfl, Bool.or_true,
    if_pos rfl] at h
  exact (emit_ok_iff.1 h).2.symm

/-- **In tail position and elsewhere**, forms are compiled to twins. -/
theorem compiler_twins {arity : CodePtr → ℕ} {R : Runtime} (hR : R.Tame arity) (count n : ℕ) :
    (compiler R n).Twins arity count := by
  induction n with
  | zero =>
    exact { compiler_tidies hR.stableIn count 0 with
      tail := fun _ _ _ _ _ _ h => nomatch h
      last := fun _ _ => keeps_stop _
      nothing := fun h => nomatch h }
  | succ n ih =>
    have hlast : ∀ p v, Emitter.Keeps (fun s => LastCell p s.world)
        ((compiler R (n + 1)).compileExpression v true) := fun p v =>
      (compiler_keeps_world (fun hw => (hR.next hw).last p) (n + 1)).expr v true
    exact { compiler_tidies hR.stableIn count (n + 1) with
      tail := twins_compileExpression ih
      last := hlast
      nothing := compileExpression_nil }

end Lisp

end Bluejay
