import Bluejay.Lisp.Backquote
import Bluejay.Lisp.Parameters
import Bluejay.Lisp.Routines

/-!
# Forms without code

The value of a form is what its code leaves in `eax`.  Some forms have no code, and what others do
first is to use the value of such a form.

* `Part` : what is compiled: a form, a list of forms, or a template.
* `Silent R own w p w'` : the part `p` has no code but labels.
* `Taken R own load a w p` : the first thing that the code of `p` does with `eax` is to use it.
* `shown_compiler` : only parts that are so have such code.
* `Silent.onlyLabels` : silent parts have no other code.
-/

namespace Bluejay

namespace Lisp

open Emitter

/-! ### Forms -/

/-- What is compiled. -/
inductive Part
  | form (tail : Bool) (v : Word)
  /-- The forms of a `progn`, a `let1` or a function. -/
  | body (tail : Bool) (v : Word)
  /-- The arguments of `and` and `or`. -/
  | branches (v : Word)
  /-- What stands behind a backquote. -/
  | template (v : Word)

/-- The name and the parameters of the function that is being compiled. -/
def State.own (s : State) : Option (String × Args) :=
  match s.locals with
  | l :: _ => l.currentFunctionName.map (·, l.args)
  | [] => none

section Forms

variable (R : Runtime) (own : Option (String × Args))

/-- The form `v` calls `f`, which is not the function being compiled. -/
structure World.Calls (w : World) (v : Word) (f : Function) : Prop where
  named : w.heap.Named (w.heap.car v) f.name
  special : f.name ∉ specialForms
  other : own.map Prod.fst ≠ some f.name
  find : w.env.find? (fun g => g.name = f.name) = some f

/-- The form `v` calls the function being compiled. -/
def World.CallsOwn (w : World) (v : Word) (args : Args) : Prop :=
  ∃ name, w.heap.Named (w.heap.car v) name ∧ name ∉ specialForms ∧ own = some (name, args)

/-- The code of the part `p`, compiled in `w`, is that of the part `p'`, compiled in `w'`. -/
inductive Becomes : World → Part → World → Part → Prop
  | progn {w : World} {tail : Bool} {v : Word} (h : w.heap.Named (w.heap.car v) "progn") :
      Becomes w (.form tail v) w (.body tail (w.heap.cdr v))
  | andOr {w : World} {tail : Bool} {v : Word} {name : String} (hn : name = "and" ∨ name = "or")
      (h : w.heap.Named (w.heap.car v) name) :
      Becomes w (.form tail v) w (.branches (w.heap.cdr v))
  | backquote {w : World} {tail : Bool} {v : Word} (h : w.heap.Named (w.heap.car v) "backquote") :
      Becomes w (.form tail v) w (.template (w.heap.car (w.heap.cdr v)))
  | unquote {w : World} {v : Word} (hlist : w.heap.listp v = some true)
      (h : w.heap.symstreq (w.heap.car v) "unquote") :
      Becomes w (.template v) w (.form false (w.heap.car (w.heap.cdr v)))
  | macro_ {w w₁ : World} {tail : Bool} {v e : Word} {f : Function} (h : w.Calls own v f)
      (hf : f.namespc = .macro_)
      (he : R.callList f (w.heap.cdr v) { w with currentPool := 0 } = some (e, w₁)) :
      Becomes w (.form tail v) { w₁ with currentPool := w.currentPool } (.form false e)

/-- The part, compiled in a first world, has no code but labels, and leaves a second one. -/
inductive Silent : World → Part → World → Prop
  | becomes {w w₁ w₂ : World} {p p' : Part} (h : Becomes R own w p w₁ p')
      (h' : Silent w₁ p' w₂) : Silent w p w₂
  /-- A call of what is neither a function nor a macro. -/
  | other {w : World} {tail : Bool} {v : Word} {f : Function} (h : w.Calls own v f)
      (hf : f.namespc = .anonymous) : Silent w (.form tail v) w
  | nil {w : World} {tail : Bool} {v : Word} (h : nilp v) : Silent w (.body tail v) w
  | cons {w w₁ w₂ : World} {tail : Bool} {v : Word} (h : nilp v = false)
      (hd : Silent w (.form (tail && nilp (w.heap.cdr v)) (w.heap.car v)) w₁)
      (tl : Silent w₁ (.body tail (w₁.heap.cdr v)) w₂) : Silent w (.body tail v) w₂
  | none {w : World} {v : Word} (h : nilp v) : Silent w (.branches v) w
  | single {w w₁ : World} {v : Word} (h : nilp v = false)
      (hd : Silent w (.form false (w.heap.car v)) w₁) (hlast : nilp (w₁.heap.cdr v)) :
      Silent w (.branches v) w₁

/-- The value is `(unquote-splice …)`. -/
def Heap.Splices (H : Heap) (u : Word) : Prop :=
  H.listp u = some true ∧ H.symstreq (H.car u) "unquote-splice"

/-- The code of the part `p` begins with that of `p'`, whose value it uses. -/
inductive Uses (w : World) : Part → Part → Prop
  | ite {tail : Bool} {v : Word} (h : w.heap.Named (w.heap.car v) "if") :
      Uses w (.form tail v) (.form false (w.heap.car (w.heap.cdr v)))
  | let1 {tail : Bool} {v : Word} (h : w.heap.Named (w.heap.car v) "let1") :
      Uses w (.form tail v)
        (.form false (w.heap.car (w.heap.cdr (w.heap.car (w.heap.cdr v)))))
  | list {tail : Bool} {v : Word} {k : ℕ} (h : w.heap.Named (w.heap.car v) "list")
      (hk : w.heap.length (w.heap.cdr v) = some (k + 1)) :
      Uses w (.form tail v) (.form false (w.heap.elt (w.heap.cdr v) k))
  | unary {tail : Bool} {v : Word} {name : String} (hn : name = "eval" ∨ name = "load")
      (h : w.heap.Named (w.heap.car v) name) :
      Uses w (.form tail v) (.form false (w.heap.car (w.heap.cdr v)))
  | own {tail : Bool} {v : Word} {args : Args} {k : ℕ} (h : w.CallsOwn own v args)
      (hk : w.heap.length (w.heap.cdr v) = some (k + 1)) :
      Uses w (.form tail v) (.form false (w.heap.elt (w.heap.cdr v) k))
  | call {tail : Bool} {v : Word} {f : Function} {k : ℕ} (h : w.Calls own v f)
      (hf : f.namespc = .function) (hk : w.heap.length (w.heap.cdr v) = some (k + 1)) :
      Uses w (.form tail v) (.form false (w.heap.elt (w.heap.cdr v) k))
  | splice {v : Word} {k : ℕ} (hlist : w.heap.listp v = some true)
      (h : w.heap.symstreq (w.heap.car v) "unquote" = false)
      (hk : w.heap.length v = some (k + 1)) (hu : w.heap.Splices (w.heap.elt v k)) :
      Uses w (.template v) (.form false (w.heap.car (w.heap.cdr (w.heap.elt v k))))
  | item {v : Word} {k : ℕ} (hlist : w.heap.listp v = some true)
      (h : w.heap.symstreq (w.heap.car v) "unquote" = false)
      (hk : w.heap.length v = some (k + 1)) (hu : ¬ w.heap.Splices (w.heap.elt v k)) :
      Uses w (.template v) (.template (w.heap.elt v k))

/-- The code of the part uses the `eax` that it finds, before it writes a new one; `a` says whether
the function being compiled does so, when it is started again. -/
inductive Taken (load : CodePtr → Option Routine) (a : Prop) : World → Part → Prop
  | becomes {w w₁ : World} {p p' : Part} (h : Becomes R own w p w₁ p')
      (h' : Taken load a w₁ p') : Taken load a w p
  | silent {w w₁ : World} {p p' : Part} (h : Uses own w p p') (h' : Silent R own w p' w₁) :
      Taken load a w p
  | uses {w : World} {p p' : Part} (h : Uses own w p p') (h' : Taken load a w p') :
      Taken load a w p
  | head {w : World} {tail : Bool} {v : Word} (h : nilp v = false)
      (hd : Taken load a w (.form (tail && nilp (w.heap.cdr v)) (w.heap.car v))) :
      Taken load a w (.body tail v)
  | rest {w w₁ : World} {tail : Bool} {v : Word} (h : nilp v = false)
      (hd : Silent R own w (.form (tail && nilp (w.heap.cdr v)) (w.heap.car v)) w₁)
      (tl : Taken load a w₁ (.body tail (w₁.heap.cdr v))) : Taken load a w (.body tail v)
  | first {w : World} {v : Word} (h : nilp v = false)
      (hd : Taken load a w (.form false (w.heap.car v))) : Taken load a w (.branches v)
  | decides {w w₁ : World} {v : Word} (h : nilp v = false)
      (hd : Silent R own w (.form false (w.heap.car v)) w₁) (hnext : nilp (w₁.heap.cdr v) = false) :
      Taken load a w (.branches v)
  /-- Nothing is passed to a function that takes `eax`. -/
  | call {w : World} {tail : Bool} {v : Word} {f : Function} {q : Routine} (h : w.Calls own v f)
      (hf : f.namespc = .function) (hk : w.heap.length (w.heap.cdr v) = some 0)
      (hq : load f.codePtr = some q) (ht : Takes load False q.code) :
      Taken load a w (.form tail v)
  | again {w : World} {tail : Bool} {v : Word} {args : Args} (ha : a) (h : w.CallsOwn own v args)
      (hk : w.heap.length (w.heap.cdr v) = some 0) (hwords : tail = true → realNargs args = 0) :
      Taken load a w (.form tail v)

end Forms

/-! ### From code to forms -/

/-- The instruction writes `eax`. -/
def Instr.setsEax : Instr → Bool
  | .movEax _ | .popEax | .loadArgument _ | .loadBound _ | .loadFree _ | .movEaxEsp
  | .movEaxExtern _ | .call .createClosure => true
  | _ => false

/-- What the code `c` of the part `p`, which was compiled in `s`, does with `eax` can be seen from
the part. -/
structure Shows (R : Runtime) (load : CodePtr → Option Routine) (a : Prop) (s : State) (p : Part)
    (c : Code) (s' : State) : Prop where
  silent : SparesEax c → Silent R s.own s.world p s'.world ∧ s'.own = s.own
  taken : Takes load a c → Taken R s.own load a s.world p

/-- The code of all forms and templates shows what it does with `eax`. -/
structure Compiler.Shown (R : Runtime) (load : CodePtr → Option Routine) (a : Prop)
    (C : Compiler) : Prop where
  form : ∀ {v tail s u c s'}, C.compileExpression v tail s = .ok u c s' →
    Shows R load a s (.form tail v) c s'
  template : ∀ {v s u c s'}, C.compileBackquote v s = .ok u c s' →
    Shows R load a s (.template v) c s'

section Shows

variable {R : Runtime} {load : CodePtr → Option Routine} {a : Prop} {C : Compiler}
  {s s₁ s' : State} {p p' : Part} {c c₀ c₁ c₂ : Code} {i : Instr} {u : Unit} {v : Word} {k : ℕ}
  {tail : Bool}

theorem SparesEax.not_takes (h : SparesEax c) : ¬ Takes load a c := by
  induction c with
  | nil => exact nofun
  | cons i c ih =>
    obtain ⟨hi, hc⟩ := sparesEax_cons.1 h
    intro ht
    cases ht with
    | uses hu => cases i <;> simp [Instr.ignoresEax, Instr.usesEax] at hi hu
    | skip _ ht => exact ih hc ht
    | call => cases hi
    | again => cases hi
    | restart => cases hi

theorem not_takes_of_sets (hi : i.setsEax) : ¬ Takes load a (i :: c) := by
  intro h
  cases h with
  | uses hu => cases i <;> simp [Instr.setsEax, Instr.usesEax] at hi hu
  | skip hi' _ => cases i <;> simp [Instr.setsEax, Instr.ignoresEax] at hi hi'
  | call => cases hi
  | again => cases hi
  | restart => cases hi

theorem ignoresEax_of_sets (hi : i.setsEax) : i.ignoresEax = false := by
  cases i <;> first | rfl | cases hi

/-- Code that first of all writes `eax`. -/
theorem shows_of_sets {b : Code} (h₀ : SparesEax b) (hi : i.setsEax) :
    Shows R load a s p (b ++ i :: c₁) s' where
  silent h := by
    have hfalse := (sparesEax_cons.1 (sparesEax_append.1 h).2).1
    rw [ignoresEax_of_sets hi] at hfalse
    cases hfalse
  taken h := by
    rcases takes_append h with h | ⟨-, h⟩
    · exact absurd h h₀.not_takes
    · exact absurd h (not_takes_of_sets hi)

theorem shows_movEax (w : Imm) : Shows R load a s p [.movEax w] s' :=
  shows_of_sets (b := []) sparesEax_nil rfl

/-- Code that begins with that of another part, and then uses or writes `eax`. -/
theorem shows_of_uses (h : Uses s.own s.world p p') (h₀ : SparesEax c₀)
    (h₁ : Shows R load a s p' c₁ s₁) (hi : i.ignoresEax = false) :
    Shows R load a s p (c₀ ++ (c₁ ++ i :: c₂)) s' where
  silent hs := by
    have hfalse := (sparesEax_cons.1 (sparesEax_append.1 (sparesEax_append.1 hs).2).2).1
    rw [hi] at hfalse
    cases hfalse
  taken ht := by
    rcases takes_append ht with ht | ⟨-, ht⟩
    · exact absurd ht h₀.not_takes
    rcases takes_append ht with ht | ⟨hs, -⟩
    · exact .uses h (h₁.taken ht)
    · exact .silent h (h₁.silent hs).1

/-- Code that is that of another part. -/
theorem Shows.becomes {s₂ : State} (h : Becomes R s.own s.world p s₂.world p')
    (hown : s₂.own = s.own) (h₁ : Shows R load a s₂ p' c s') : Shows R load a s p c s' where
  silent hs := by
    obtain ⟨hsil, ho⟩ := h₁.silent hs
    rw [hown] at hsil ho
    exact ⟨.becomes h hsil, ho⟩
  taken ht := by
    have htaken := h₁.taken ht
    rw [hown] at htaken
    exact .becomes h htaken

/-- The first argument that is compiled is the last one. -/
theorem arguments_first {args : Word} {lo hi : ℕ} {after : Code} (hlt : lo < hi)
    (h : compileArguments C args lo hi (i :: after) s = .ok u c s') :
    ∃ c₁ s₁ c₂, C.compileExpression (s.world.heap.elt args (hi - 1)) false s = .ok () c₁ s₁ ∧
      c = c₁ ++ i :: c₂ := by
  obtain ⟨k, rfl⟩ : ∃ k, hi = lo + k + 1 := ⟨hi - lo - 1, by omega⟩
  unfold compileArguments at h
  rw [show lo + k + 1 - lo = k + 1 by omega] at h
  obtain ⟨_, c₁, s₁, c₂, rfl, hbody, -⟩ := bind_ok_iff.1 h
  dsimp only at hbody
  rw [bind_of_ok (read_elt args (lo + k))] at hbody
  obtain ⟨_, c₃, s₂, c₄, rfl, he, hafter⟩ := bind_ok_iff.1 hbody
  obtain ⟨rfl, rfl⟩ := emit_ok_iff.1 hafter
  exact ⟨c₃, s₂, after ++ c₂, he, by simp⟩

theorem sparesEax_pushes (os : List OptionalArgument) :
    SparesEax (os.map fun o => .push (.word o.value)) := by
  intro i hi
  obtain ⟨o, -, rfl⟩ := List.mem_map.1 hi
  rfl

/-- Besides the surplus arguments, nothing that is passed for them needs `eax`. -/
theorem surplus_cases {args : Word} {nargs : ℕ} {needed : Args}
    (h : compileSurplus C args nargs needed s = .ok u c s') :
    ∃ c₀ c₁ c₂, SparesEax c₀ ∧ SparesEax c₂ ∧ c = c₀ ++ (c₁ ++ c₂) ∧
      ((needed.numOptional + needed.numRequired < nargs ∧ compileArguments C args
          (needed.numOptional + needed.numRequired) nargs consCode s = .ok () c₁ s') ∨
        ¬ (needed.numOptional + needed.numRequired < nargs ∧ needed.variadic = true) ∧
          c₁ = [] ∧ s' = s) := by
  obtain ⟨_, c₀, s₁, c₃, rfl, hrest, h⟩ := bind_ok_iff.1 h
  obtain ⟨_, c₁, s₂, c₂, rfl, hmore, hdefaults⟩ := bind_ok_iff.1 h
  obtain ⟨rfl, rfl⟩ := emit_ok_iff.1 hdefaults
  have hrest' : SparesEax c₀ ∧ s = s₁ := by
    rcases when_ok_iff.1 hrest with ⟨-, hrest⟩ | ⟨-, rfl, rfl⟩
    · obtain ⟨rfl, rfl⟩ := emit_ok_iff.1 hrest
      exact ⟨List.forall_mem_singleton.2 rfl, rfl⟩
    · exact ⟨sparesEax_nil, rfl⟩
  obtain ⟨hspares, rfl⟩ := hrest'
  refine ⟨c₀, c₁, _, hspares, sparesEax_pushes _, rfl, ?_⟩
  rcases when_ok_iff.1 hmore with ⟨⟨hlt, -⟩, hmore⟩ | ⟨hnot, rfl, rfl⟩
  · exact .inl ⟨hlt, hmore⟩
  · exact .inr ⟨hnot, rfl, rfl⟩

/-- Without arguments, only a list without elements and defaults are passed. -/
theorem passing_zero {args : Word} {needed : Args}
    (h : compilePassing C args 0 needed s = .ok u c s') : SparesEax c ∧ s' = s := by
  obtain ⟨_, c₁, s₁, c₂, rfl, hsurplus, hargs⟩ := bind_ok_iff.1 h
  rw [Nat.zero_min] at hargs
  obtain ⟨-, rfl, rfl⟩ := pure_ok_iff.1 hargs
  obtain ⟨c₃, c₄, c₅, h₃, h₅, rfl, ⟨hlt, -⟩ | ⟨-, rfl, rfl⟩⟩ := surplus_cases hsurplus
  · exact absurd hlt (Nat.not_lt_zero _)
  · refine ⟨?_, rfl⟩
    rw [List.append_nil, List.nil_append]
    exact sparesEax_append.2 ⟨h₃, h₅⟩

/-- With arguments, the last one is compiled first. -/
theorem passing_succ {args : Word} {needed : Args} (hok : areArgsAcceptable needed (k + 1))
    (h : compilePassing C args (k + 1) needed s = .ok u c s') :
    ∃ c₀ c₁ s₁ c₂, SparesEax c₀ ∧
      C.compileExpression (s.world.heap.elt args k) false s = .ok () c₁ s₁ ∧
      c = c₀ ++ (c₁ ++ .pushEax :: c₂) := by
  obtain ⟨_, c₁, s₁, c₂, rfl, hsurplus, hargs⟩ := bind_ok_iff.1 h
  obtain ⟨c₃, c₄, c₅, h₃, h₅, rfl, ⟨hlt, hmore⟩ | ⟨hnot, rfl, rfl⟩⟩ := surplus_cases hsurplus
  · -- there are surplus arguments
    obtain ⟨c₆, s₂, c₇, he, rfl⟩ := arguments_first hlt hmore
    refine ⟨c₃, c₆, s₂, c₇ ++ (c₅ ++ c₂), h₃, he, ?_⟩
    simp only [List.append_assoc, List.cons_append]
  · have hle : k + 1 ≤ needed.numOptional + needed.numRequired := by
      by_contra hlt
      have hvar : needed.variadic = false :=
        Bool.eq_false_iff.2 fun hv => hnot ⟨Nat.lt_of_not_le hlt, hv⟩
      simp [areArgsAcceptable, hvar] at hok
      omega
    rw [Nat.min_eq_left hle] at hargs
    obtain ⟨c₆, s₂, c₇, he, rfl⟩ := arguments_first (Nat.succ_pos k) hargs
    rw [List.nil_append]
    exact ⟨_, c₆, s₂, c₇, sparesEax_append.2 ⟨h₃, h₅⟩, he, rfl⟩

theorem getLocal_ok {l : Local} (h : getLocal s = .ok l c s') :
    c = [] ∧ s' = s ∧ ∃ rest, s.locals = l :: rest := by
  obtain ⟨t, c₁, s₁, c₂, rfl, hget, h⟩ := bind_ok_iff.1 h
  obtain ⟨rfl, rfl, rfl⟩ := get_ok_iff.1 hget
  cases hs : s.locals with
  | nil =>
    rw [hs] at h
    cases h
  | cons l' rest =>
    rw [hs] at h
    obtain ⟨rfl, rfl, rfl⟩ := pure_ok_iff.1 h
    exact ⟨rfl, rfl, rest, rfl⟩

theorem getLocal_cons {β : Type} {b : β} {f : Local → CompileM β}
    (h : (getLocal >>= f) s = .ok b c s') :
    ∃ l rest, s.locals = l :: rest ∧ f l s = .ok b c s' := by
  obtain ⟨l, c₁, s₁, c₂, rfl, hl, hf⟩ := bind_ok_iff.1 h
  obtain ⟨rfl, rfl, rest, hs⟩ := getLocal_ok hl
  exact ⟨l, rest, hs, hf⟩

/-- Taking a label does not change what is compiled. -/
theorem nextpc_own {β : Type} {b : β} {f : ℕ → CompileM β}
    (h : (nextpc >>= f) s = .ok b c s') :
    ∃ l s₁, s₁.world = s.world ∧ s₁.own = s.own ∧ f l s₁ = .ok b c s' := by
  obtain ⟨k, c₁, s₁, c₂, rfl, hk, hf⟩ := bind_ok_iff.1 h
  obtain ⟨l, rest, hs, hk⟩ := getLocal_cons hk
  rw [modifyLocal_bind_eq] at hk
  obtain ⟨rfl, rfl, rfl⟩ := pure_ok_iff.1 hk
  refine ⟨l.nextpc, { s with locals := s.locals.modifyHead Local.nextLabel }, rfl, ?_, hf⟩
  simp [State.own, hs, Local.nextLabel]

theorem Shows.append (h : Shows R load a s p c s') (h₁ : SparesEax c₁) :
    Shows R load a s p (c ++ c₁) s' where
  silent hs := h.silent (sparesEax_append.1 hs).1
  taken ht := by
    rcases takes_append ht with ht | ⟨-, ht⟩
    · exact h.taken ht
    · exact absurd ht h₁.not_takes

theorem isSplice_bind {β : Type} {b : β} {f : Bool → CompileM β} {w : Word}
    (h : (isSplice w >>= f) s = .ok b c s') :
    ∃ x, (x = true ↔ s.world.heap.Splices w) ∧ f x s = .ok b c s' := by
  obtain ⟨x, c₁, s₁, c₂, rfl, hx, hf⟩ := bind_ok_iff.1 h
  obtain ⟨l, hl, hx⟩ := listp_bind hx
  cases l with
  | false =>
    obtain ⟨rfl, rfl, rfl⟩ := pure_ok_iff.1 hx
    refine ⟨false, ⟨nofun, fun hs => ?_⟩, hf⟩
    cases hl.symm.trans hs.1
  | true =>
    obtain ⟨rfl, rfl, rfl⟩ : s.world.heap.symstreq (s.world.heap.car w) "unquote-splice" = x ∧
        [] = c₁ ∧ s = s₁ := by
      simpa [car_bind_eq, read_symstreq] using hx
    exact ⟨_, ⟨fun h => ⟨hl, h⟩, fun hs => hs.2⟩, hf⟩

/-- What a macro makes of its arguments. -/
theorem macro_bind {f : Function} {args : Word}
    (h : compileMacro R C f args s = .ok u c s') :
    ∃ e w₁ s₁, R.callList f args { s.world with currentPool := 0 } = some (e, w₁) ∧
      s₁.world = { w₁ with currentPool := s.world.currentPool } ∧ s₁.own = s.own ∧
      C.compileExpression e false s₁ = .ok u c s' := by
  have hpush : pushPool 0 s =
    .ok s.world.currentPool [] { s with world := { s.world with currentPool := 0 } } := rfl
  rw [compileMacro, bind_of_ok hpush] at h
  obtain ⟨e, c₁, s₁, c₂, rfl, hcall, h⟩ := bind_ok_iff.1 h
  rw [callList, bind_of_ok (show get _ = .ok _ [] _ from rfl)] at hcall
  cases hr : R.callList f args { s.world with currentPool := 0 } with
  | none =>
    rw [hr] at hcall
    cases hcall
  | some r =>
    rw [hr] at hcall
    cases hcall
    -- `pop_pool`
    have hpop : popPool s.world.currentPool { s with world := r.2 } = .ok () []
      { s with world := { r.2 with currentPool := s.world.currentPool } } := rfl
    exact ⟨r.1, r.2, { s with world := { r.2 with currentPool := s.world.currentPool } }, rfl, rfl,
      rfl, (bind_of_ok hpop).symm.trans h⟩

/-- What `compile_expression` does with a call. -/
inductive CallRun (R : Runtime) (C : Compiler) (s : State) (v : Word) (k : ℕ) (tail : Bool)
    (c : Code) (s' : State) : Prop
  | own {args : Args} {c₁ : Code} (h : s.world.CallsOwn s.own v args)
      (hok : areArgsAcceptable args k)
      (hp : compilePassing C (s.world.heap.cdr v) k args s = .ok () c₁ s')
      (hc : c = c₁ ++ ((if tail then tailCall (realNargs args) else [.callHere]) ++
        [.addEsp (realNargs args * 4)]))
  | function {f : Function} {c₁ : Code} (h : s.world.Calls s.own v f) (hf : f.namespc = .function)
      (hok : areArgsAcceptable f.args k)
      (hp : compilePassing C (s.world.heap.cdr v) k f.args s = .ok () c₁ s')
      (hc : c = c₁ ++ [.call (.function f.codePtr), .addEsp (realNargs f.args * 4)])
  | macro_ {f : Function} (h : s.world.Calls s.own v f) (hf : f.namespc = .macro_)
      (hm : compileMacro R C f (s.world.heap.cdr v) s = .ok () c s')
  | anonymous {f : Function} (h : s.world.Calls s.own v f) (hf : f.namespc = .anonymous)
      (hc : c = []) (hs : s' = s)

theorem callRun_of_ok {name : String} (hf : s.world.heap.Named (s.world.heap.car v) name)
    (hname : name ∉ specialForms)
    (h : compileCall R C (s.world.heap.car v) (s.world.heap.cdr v) k tail s = .ok u c s') :
    CallRun R C s v k tail c s' := by
  obtain ⟨name', -, htext, h⟩ := symbolName_bind h
  obtain rfl : name = name' := Option.some.inj (hf.2.symm.trans htext)
  rw [bind_of_ok (show findFunction name s =
    .ok (s.world.env.find? fun g => g.name = name) [] s from rfl)] at h
  obtain ⟨l, rest, hs, h⟩ := getLocal_cons h
  dsimp only at h
  by_cases hr : l.currentFunctionName = some name
  · have hown : s.own = some (name, l.args) := by simp [State.own, hs, hr]
    simp only [hr, decide_true, if_true] at h
    obtain ⟨hok, h⟩ := throwIf_bind h
    obtain ⟨_, c₁, s₁, c₂, rfl, hpass, hcall⟩ := bind_ok_iff.1 h
    obtain ⟨c₃, rfl, hdrop⟩ := emit_bind hcall
    obtain ⟨rfl, rfl⟩ := emit_ok_iff.1 hdrop
    exact .own ⟨name, hf, hname, hown⟩ (by simpa using hok) hpass rfl
  · have hother : s.own.map Prod.fst ≠ some name := by
      simp only [State.own, hs, Option.map_map]
      simpa [Function.comp_def] using hr
    simp only [hr, decide_false, Bool.false_eq_true, if_false] at h
    cases hfind : s.world.env.find? (fun g => g.name = name) with
    | none =>
      rw [hfind] at h
      cases h
    | some f =>
      rw [hfind] at h
      have hfname : f.name = name := by simpa using List.find?_some hfind
      subst hfname
      have hcalls : s.world.Calls s.own v f := ⟨hf, hname, hother, hfind⟩
      obtain ⟨hok, h⟩ := throwIf_bind h
      obtain ⟨fname, fargs, namespc, code⟩ := f
      cases namespc with
      | function =>
        obtain ⟨_, c₁, s₁, c₂, rfl, hpass, hcall⟩ := bind_ok_iff.1 h
        obtain ⟨rfl, rfl⟩ := emit_ok_iff.1 hcall
        exact .function hcalls rfl (by simpa using hok) hpass rfl
      | macro_ => exact .macro_ hcalls rfl h
      | anonymous =>
        obtain ⟨-, rfl, rfl⟩ := pure_ok_iff.1 h
        exact .anonymous hcalls rfl rfl rfl

theorem shows_lambda (hS : C.Sound) (h : compileLambda C (s.world.heap.cdr v) s = .ok u c s') :
    Shows R load a s (.form tail v) c s' := by
  obtain ⟨l, rest, -, h⟩ := getLocal_cons h
  obtain ⟨⟨ar, new_local, d⟩, c₁, s₁, c₂, rfl, hfun, h₂⟩ := bind_ok_iff.1 h
  obtain ⟨rfl, -⟩ := hS.function hfun
  dsimp only at h₂
  obtain ⟨p, s₂, -, h₃⟩ := (quiet_linkProgram _).bind rfl h₂
  obtain ⟨c₃, rfl, -⟩ := emit_bind h₃
  exact shows_of_sets (b := [.push _, .push _, .push _]) (by
    intro i hi
    simp only [List.mem_cons, List.not_mem_nil, or_false] at hi
    rcases hi with rfl | rfl | rfl <;> rfl) rfl

section Cases

variable (hC : C.Shown R load a)

include hC

theorem shows_body {m : ℕ} (h : forList (fun body => do
      let t := tail && nilp (← cdr body)
      C.compileExpression (← car body) t) m v s = .ok u c s') :
    Shows R load a s (.body tail v) c s' := by
  induction m generalizing v s c with
  | zero => cases h
  | succ m ih =>
    rw [forList] at h
    obtain ⟨hnil, h⟩ | ⟨hnil, h⟩ := ite_ok_iff.1 h
    · obtain ⟨-, rfl, rfl⟩ := pure_ok_iff.1 h
      exact ⟨fun _ => ⟨.nil hnil, rfl⟩, fun ht => absurd ht sparesEax_nil.not_takes⟩
    · rw [Bool.not_eq_true] at hnil
      obtain ⟨_, c₁, s₁, c₂, rfl, hturn, hrest⟩ := bind_ok_iff.1 h
      rw [cdr_bind_eq] at hturn hrest
      rw [car_bind_eq] at hturn
      have hhead := hC.form hturn
      have htail := ih hrest
      constructor
      · intro hs
        obtain ⟨hs₁, hs₂⟩ := sparesEax_append.1 hs
        obtain ⟨hsil₁, hown₁⟩ := hhead.silent hs₁
        obtain ⟨hsil₂, hown₂⟩ := htail.silent hs₂
        rw [hown₁] at hsil₂ hown₂
        exact ⟨.cons hnil hsil₁ hsil₂, hown₂⟩
      · intro ht
        rcases takes_append ht with ht | ⟨hs, ht⟩
        · exact .head hnil (hhead.taken ht)
        · obtain ⟨hsil, hown⟩ := hhead.silent hs
          have htaken := htail.taken ht
          rw [hown] at htaken
          exact .rest hnil hsil htaken

theorem shows_branches {m : ℕ} {or : Bool} {after : ℕ} (h : forList (fun args => do
      C.compileExpression (← car args) false
      when (!nilp (← cdr args)) (emit [.cmpEaxNil, if or then .jne after else .je after]))
      m v s = .ok u c s') : Shows R load a s (.branches v) c s' := by
  cases m with
  | zero => cases h
  | succ m =>
    rw [forList] at h
    obtain ⟨hnil, h⟩ | ⟨hnil, h⟩ := ite_ok_iff.1 h
    · obtain ⟨-, rfl, rfl⟩ := pure_ok_iff.1 h
      exact ⟨fun _ => ⟨.none hnil, rfl⟩, fun ht => absurd ht sparesEax_nil.not_takes⟩
    · rw [Bool.not_eq_true] at hnil
      obtain ⟨_, c₁, s₁, c₂, rfl, hturn, hrest⟩ := bind_ok_iff.1 h
      rw [cdr_bind_eq] at hrest
      rw [car_bind_eq] at hturn
      obtain ⟨_, c₃, s₂, c₄, rfl, he, hturn⟩ := bind_ok_iff.1 hturn
      rw [cdr_bind_eq] at hturn
      have hfirst := hC.form he
      rcases when_ok_iff.1 hturn with ⟨hmore, hturn⟩ | ⟨hlast, rfl, rfl⟩
      · -- `eax` is compared with `nil`
        obtain ⟨rfl, rfl⟩ := emit_ok_iff.1 hturn
        have hmore' : nilp (s₂.world.heap.cdr v) = false := by simpa using hmore
        constructor
        · intro hs
          have hcmp := (sparesEax_append.1 (sparesEax_append.1 hs).1).2
          cases (sparesEax_cons.1 hcmp).1
        · intro ht
          rw [List.append_assoc] at ht
          rcases takes_append ht with ht | ⟨hs, -⟩
          · exact .first hnil (hfirst.taken ht)
          · exact .decides hnil (hfirst.silent hs).1 hmore'
      · have hlast' : nilp (s₂.world.heap.cdr v) = true := by simpa using hlast
        have hend : c₂ = [] ∧ s' = s₂ := by
          cases m with
          | zero => cases hrest
          | succ m =>
            rw [forList, if_pos hlast'] at hrest
            obtain ⟨-, rfl, rfl⟩ := pure_ok_iff.1 hrest
            exact ⟨rfl, rfl⟩
        obtain ⟨rfl, rfl⟩ := hend
        rw [List.append_nil, List.append_nil]
        constructor
        · intro hs
          obtain ⟨hsil, hown⟩ := hfirst.silent hs
          exact ⟨.single hnil hsil hlast', hown⟩
        · intro ht
          exact .first hnil (hfirst.taken ht)

theorem shows_if (hf : s.world.heap.Named (s.world.heap.car v) "if")
    (h : compileIf C (s.world.heap.cdr v) k tail s = .ok u c s') :
    Shows R load a s (.form tail v) c s' := by
  obtain ⟨-, h⟩ := throwIf_bind h
  rw [car_bind_eq] at h
  obtain ⟨_, c₁, s₁, c₂, rfl, he, h⟩ := bind_ok_iff.1 h
  obtain ⟨_, -, -, h⟩ := nextpc_bind rfl h
  obtain ⟨_, -, -, h⟩ := nextpc_bind rfl h
  obtain ⟨c₃, rfl, -⟩ := emit_bind h
  exact shows_of_uses (.ite hf) sparesEax_nil (hC.form he) rfl

theorem shows_andOr {or : Bool} {name : String} (hn : name = "and" ∨ name = "or")
    (hf : s.world.heap.Named (s.world.heap.car v) name)
    (h : compileAndOr C (s.world.heap.cdr v) k or s = .ok u c s') :
    Shows R load a s (.form tail v) c s' := by
  obtain ⟨-, h⟩ := throwIf_bind h
  obtain ⟨after, s₁, hworld, hown, h⟩ := nextpc_own h
  obtain ⟨_, c₁, s₂, c₂, rfl, h₁, h₂⟩ := bind_ok_iff.1 h
  obtain ⟨rfl, rfl⟩ := emit_ok_iff.1 h₂
  have hbecomes : Becomes R s.own s.world (.form tail v) s₁.world
      (.branches (s.world.heap.cdr v)) := by
    rw [hworld]
    exact .andOr hn hf
  refine Shows.becomes hbecomes hown ((shows_branches hC h₁).append ?_)
  exact List.forall_mem_singleton.2 rfl

theorem shows_let1 (hf : s.world.heap.Named (s.world.heap.car v) "let1")
    (h : compileLet1 C (s.world.heap.cdr v) k tail s = .ok u c s') :
    Shows R load a s (.form tail v) c s' := by
  obtain ⟨-, h⟩ := throwIf_bind h
  rw [car_bind_eq, cdr_bind_eq] at h
  obtain ⟨_, -, h⟩ := length_bind h
  obtain ⟨-, h⟩ := throwIf_bind h
  rw [car_bind_eq, cdr_bind_eq, car_bind_eq] at h
  obtain ⟨_, c₁, s₁, c₂, rfl, he, h⟩ := bind_ok_iff.1 h
  obtain ⟨_, -, h⟩ := localAlloc_bind rfl h
  obtain ⟨_, -, -, h⟩ := symbolName_bind h
  obtain ⟨_, -, h⟩ := modifyLocal_bind rfl h
  obtain ⟨c₃, rfl, -⟩ := emit_bind h
  exact shows_of_uses (.let1 hf) sparesEax_nil (hC.form he) rfl

theorem shows_list (hf : s.world.heap.Named (s.world.heap.car v) "list")
    (hk : s.world.heap.length (s.world.heap.cdr v) = some k)
    (h : compileList C (s.world.heap.cdr v) k s = .ok u c s') :
    Shows R load a s (.form tail v) c s' := by
  obtain ⟨c₁, rfl, h₁⟩ := emit_bind h
  obtain ⟨_, c₂, s₁, c₃, rfl, hargs, h₂⟩ := bind_ok_iff.1 h₁
  obtain ⟨rfl, rfl⟩ := emit_ok_iff.1 h₂
  have hpush : SparesEax [.push (.word nil)] := List.forall_mem_singleton.2 rfl
  cases k with
  | zero =>
    obtain ⟨-, rfl, rfl⟩ := pure_ok_iff.1 hargs
    exact shows_of_sets hpush rfl
  | succ k =>
    obtain ⟨c₄, s₂, c₅, he, rfl⟩ := arguments_first (Nat.succ_pos k) hargs
    rw [List.append_assoc]
    exact shows_of_uses (.list hf hk) hpush (hC.form he) rfl

theorem shows_template (h : compileBackquote C v s = .ok u c s') :
    Shows R load a s (.template v) c s' := by
  obtain ⟨l, hl, h⟩ := listp_bind h
  cases l with
  | false =>
    obtain ⟨rfl, rfl⟩ := emit_ok_iff.1 h
    exact shows_movEax _
  | true =>
    rw [Bool.not_true, if_neg Bool.false_ne_true, car_bind_eq, cdr_bind_eq] at h
    obtain ⟨_, -, h⟩ := length_bind h
    obtain ⟨k, hk, h⟩ := length_bind h
    rw [symstreq_bind_eq] at h
    obtain ⟨hquote, h⟩ | ⟨hquote, h⟩ := ite_ok_iff.1 h
    · obtain ⟨-, h⟩ := throwIf_bind h
      rw [car_bind_eq] at h
      exact Shows.becomes (.unquote hl hquote) rfl (hC.form h)
    · rw [Bool.not_eq_true] at hquote
      obtain ⟨c₁, rfl, h₁⟩ := emit_bind h
      obtain ⟨_, c₂, s₁, c₃, rfl, hloop, hpop⟩ := bind_ok_iff.1 h₁
      obtain ⟨rfl, rfl⟩ := emit_ok_iff.1 hpop
      have hpush : SparesEax [.push (.word nil)] := List.forall_mem_singleton.2 rfl
      cases k with
      | zero =>
        obtain ⟨-, rfl, rfl⟩ := pure_ok_iff.1 hloop
        exact shows_of_sets hpush rfl
      | succ k =>
        obtain ⟨_, c₃, s₂, c₄, rfl, hturn, -⟩ := bind_ok_iff.1 hloop
        dsimp only at hturn
        rw [Nat.zero_add, bind_of_ok (read_elt v k)] at hturn
        obtain ⟨x, hx, hturn⟩ := isSplice_bind hturn
        obtain ⟨hsplice, hturn⟩ | ⟨hsplice, hturn⟩ := ite_ok_iff.1 hturn
        · obtain ⟨_, -, hturn⟩ := length_bind hturn
          obtain ⟨-, hturn⟩ := throwIf_bind hturn
          rw [cdr_bind_eq, car_bind_eq] at hturn
          obtain ⟨_, c₅, s₃, c₆, rfl, he, hemit⟩ := bind_ok_iff.1 hturn
          obtain ⟨rfl, rfl⟩ := emit_ok_iff.1 hemit
          rw [List.append_assoc, List.append_assoc]
          exact shows_of_uses (.splice hl hquote hk (hx.1 hsplice)) hpush (hC.form he) rfl
        · obtain ⟨_, c₅, s₃, c₆, rfl, he, hemit⟩ := bind_ok_iff.1 hturn
          obtain ⟨rfl, rfl⟩ := emit_ok_iff.1 hemit
          rw [List.append_assoc, List.append_assoc]
          refine shows_of_uses (.item hl hquote hk fun hs => hsplice (hx.2 hs)) hpush
            (hC.template he) rfl

theorem shows_eval (hf : s.world.heap.Named (s.world.heap.car v) "eval")
    (h : compileEval C (s.world.heap.cdr v) k s = .ok u c s') :
    Shows R load a s (.form tail v) c s' := by
  obtain ⟨-, h⟩ := throwIf_bind h
  rw [car_bind_eq] at h
  obtain ⟨_, c₁, s₁, c₂, rfl, he, hpush⟩ := bind_ok_iff.1 h
  obtain ⟨rfl, -⟩ := emit_ok_iff.1 hpush
  exact shows_of_uses (.unary (.inl rfl) hf) sparesEax_nil (hC.form he) rfl

theorem shows_load (hf : s.world.heap.Named (s.world.heap.car v) "load")
    (h : compileLoad C (s.world.heap.cdr v) k s = .ok u c s') :
    Shows R load a s (.form tail v) c s' := by
  obtain ⟨-, h⟩ := throwIf_bind h
  rw [car_bind_eq] at h
  obtain ⟨_, c₁, s₁, c₂, rfl, he, hpush⟩ := bind_ok_iff.1 h
  obtain ⟨l, rest, -, hpush⟩ := getLocal_cons hpush
  obtain ⟨rfl, -⟩ := emit_ok_iff.1 hpush
  exact shows_of_uses (.unary (.inr rfl) hf) sparesEax_nil (hC.form he) rfl

/-- A call of the function that is being compiled. -/
theorem shows_callOwn {args : Args} (hcalls : s.world.CallsOwn s.own v args)
    (hk : s.world.heap.length (s.world.heap.cdr v) = some k) (hok : areArgsAcceptable args k)
    (h : compilePassing C (s.world.heap.cdr v) k args s = .ok u c s₁) :
    Shows R load a s (.form tail v) (c ++ ((if tail then tailCall (realNargs args) else [.callHere])
      ++ [.addEsp (realNargs args * 4)])) s₁ := by
  cases k with
  | zero =>
    obtain ⟨hspares, rfl⟩ := passing_zero h
    constructor
    · intro hs
      have hcall := (sparesEax_append.1 (sparesEax_append.1 hs).2).1
      cases tail with
      | false => cases hcall .callHere (List.mem_singleton.2 rfl)
      | true => cases hcall .jmpHere (by simp [tailCall])
    · intro ht
      rcases takes_append ht with ht | ⟨-, ht⟩
      · exact absurd ht hspares.not_takes
      cases tail with
      | false =>
        cases ht with
        | uses hu => cases hu
        | skip hi => cases hi
        | again ha => exact .again ha hcalls hk fun h => by cases h
      | true =>
        cases hwords : realNargs args with
        | zero =>
          rw [hwords] at ht
          cases ht with
          | uses hu => cases hu
          | skip _ ht =>
            cases ht with
            | uses hu => cases hu
            | skip _ ht =>
              cases ht with
              | uses hu => cases hu
              | skip hi => cases hi
              | restart ha => exact .again ha hcalls hk fun _ => hwords
        | succ n =>
          -- the first thing to be taken off the stack goes through `eax`
          rw [hwords, if_pos rfl, tailCall, List.range_succ_eq_map] at ht
          exact absurd ht (not_takes_of_sets rfl)
  | succ k =>
    obtain ⟨c₀, c₁, s₂, c₂, hspares, he, rfl⟩ := passing_succ hok h
    rw [List.append_assoc, List.append_assoc]
    exact shows_of_uses (.own hcalls hk) hspares (hC.form he) rfl

/-- A call of another function. -/
theorem shows_callFunction {f : Function} (hcalls : s.world.Calls s.own v f)
    (hf : f.namespc = .function) (hk : s.world.heap.length (s.world.heap.cdr v) = some k)
    (hok : areArgsAcceptable f.args k)
    (h : compilePassing C (s.world.heap.cdr v) k f.args s = .ok u c s₁) :
    Shows R load a s (.form tail v)
      (c ++ [.call (.function f.codePtr), .addEsp (realNargs f.args * 4)]) s₁ := by
  cases k with
  | zero =>
    obtain ⟨hspares, rfl⟩ := passing_zero h
    constructor
    · intro hs
      cases (sparesEax_cons.1 (sparesEax_append.1 hs).2).1
    · intro ht
      rcases takes_append ht with ht | ⟨-, ht⟩
      · exact absurd ht hspares.not_takes
      cases ht with
      | uses hu => cases hu
      | skip hi => cases hi
      | call hq ht => exact .call hcalls hf hk hq ht
  | succ k =>
    obtain ⟨c₀, c₁, s₂, c₂, hspares, he, rfl⟩ := passing_succ hok h
    rw [List.append_assoc, List.append_assoc]
    exact shows_of_uses (.call hcalls hf hk) hspares (hC.form he) rfl

/-- `compile_expression` on a call. -/
theorem shows_call {name : String} (hf : s.world.heap.Named (s.world.heap.car v) name)
    (hname : name ∉ specialForms) (hk : s.world.heap.length (s.world.heap.cdr v) = some k)
    (h : compileCall R C (s.world.heap.car v) (s.world.heap.cdr v) k tail s = .ok u c s') :
    Shows R load a s (.form tail v) c s' := by
  cases callRun_of_ok hf hname h with
  | own hcalls hok hp hc => exact hc ▸ shows_callOwn hC hcalls hk hok hp
  | function hcalls hns hok hp hc => exact hc ▸ shows_callFunction hC hcalls hns hk hok hp
  | macro_ hcalls hns hm =>
    obtain ⟨e, w₁, s₁, hcall, hs₁, hown, he⟩ := macro_bind hm
    refine Shows.becomes ?_ hown (hC.form he)
    rw [hs₁]
    exact .macro_ hcalls hns hcall
  | anonymous hcalls hns hc hs =>
    subst hc hs
    exact ⟨fun _ => ⟨.other hcalls hns, rfl⟩, nofun⟩

end Cases

theorem shows_functionForm (h : compileFunctionForm R (s.world.heap.cdr v) k s = .ok u c s') :
    Shows R load a s (.form tail v) c s' := by
  obtain ⟨-, h⟩ := throwIf_bind h
  rw [car_bind_eq] at h
  obtain ⟨-, h⟩ := throwIf_bind h
  obtain ⟨name, -, -, h⟩ := symbolName_bind h
  obtain ⟨l, rest, -, h⟩ := getLocal_cons h
  cases hn : l.currentFunctionName with
  | none =>
    rw [hn] at h
    cases h
  | some current =>
    simp only [hn] at h
    obtain ⟨-, h⟩ | ⟨-, h⟩ := ite_ok_iff.1 h
    · obtain ⟨rfl, rfl⟩ := emit_ok_iff.1 h
      exact shows_of_sets (b := [.push _, .push _, .pushHere]) (by
        intro i hi
        simp only [List.mem_cons, List.not_mem_nil, or_false] at hi
        rcases hi with rfl | rfl | rfl <;> rfl) rfl
    · obtain ⟨f, s₁, -, h⟩ := (quiet_findFunction _).bind rfl h
      cases f with
      | none => cases h
      | some f =>
        obtain ⟨_, s₂, -, h⟩ := (quiet_allocate _ _ _).bind rfl h
        obtain ⟨rfl, rfl⟩ := emit_ok_iff.1 h
        exact shows_movEax _

theorem shows_symbol (h : compileSymbol R v s = .ok u c s') :
    Shows R load a s (.form tail v) c s' := by
  rw [compileSymbol, symstreq_bind_eq] at h
  obtain ⟨-, h⟩ | ⟨-, h⟩ := ite_ok_iff.1 h
  · obtain ⟨l, rest, -, h⟩ := getLocal_cons h
    obtain ⟨_, s₁, -, h⟩ := (quiet_allocate _ _ _).bind rfl h
    obtain ⟨rfl, rfl⟩ := emit_ok_iff.1 h
    exact shows_movEax _
  rw [symstreq_bind_eq] at h
  obtain ⟨-, h⟩ | ⟨-, h⟩ := ite_ok_iff.1 h
  · obtain ⟨rfl, rfl⟩ := emit_ok_iff.1 h
    exact shows_movEax _
  obtain ⟨name, -, -, h⟩ := symbolName_bind h
  obtain ⟨_, s₁, -, h⟩ := (quiet_noteOccurrence _).bind rfl h
  obtain ⟨s₂, -, h⟩ := lookUp_bind rfl h
  cases hv : (findVariable name s₁.locals).1 with
  | none =>
    rw [hv] at h
    cases h
  | some x =>
    rw [hv] at h
    obtain ⟨rfl, hg, rfl⟩ := compileVariable_ok h
    obtain ⟨i, hi, hcode⟩ : ∃ i : Instr, i.setsEax = true ∧ loadCode x = [i] := by
      cases hx : x.type with
      | global => exact absurd hx hg
      | argument => exact ⟨.loadArgument x.number, rfl, by simp [loadCode, hx]⟩
      | bound => exact ⟨.loadBound x.number, rfl, by simp [loadCode, hx]⟩
      | free => exact ⟨.loadFree x.number, rfl, by simp [loadCode, hx]⟩
    rw [hcode]
    exact shows_of_sets (b := []) sparesEax_nil hi

/-! ### All forms -/

/-- The head of a form that is compiled is a symbol. -/
theorem head_of_form (h : compileForm R C v tail s = .ok u c s') :
    ∃ name k, s.world.heap.Named (s.world.heap.car v) name ∧
      s.world.heap.length (s.world.heap.cdr v) = some k := by
  rw [compileForm, car_bind_eq, cdr_bind_eq] at h
  obtain ⟨k, hk, h⟩ := length_bind h
  obtain ⟨hsym, h⟩ := throwIf_bind h
  rw [Bool.not_eq_true, Bool.not_eq_false'] at hsym
  cases htext : s.world.heap.text (s.world.heap.car v) with
  | some name => exact ⟨name, k, ⟨hsym, htext⟩, hk⟩
  | none =>
    -- no name fits, so it is taken for that of a function
    have hno : ∀ str, s.world.heap.symstreq (s.world.heap.car v) str = false := by
      intro str
      simp [Heap.symstreq, htext]
    simp only [symstreq_bind_eq, hno, Bool.false_eq_true, if_false] at h
    obtain ⟨_, -, htext', -⟩ := symbolName_bind h
    rw [htext] at htext'
    cases htext'

/-- `compile_expression` on a form. -/
theorem shows_form (hC : C.Shown R load a) (hS : C.Sound) {name : String}
    (hf : s.world.heap.Named (s.world.heap.car v) name)
    (hk : s.world.heap.length (s.world.heap.cdr v) = some k)
    (h : compileForm R C v tail s = .ok u c s') : Shows R load a s (.form tail v) c s' := by
  rw [compileForm_of_head hf hk] at h
  -- the forms are tried in the order of the source
  obtain ⟨h₁, h⟩ | ⟨h₁, h⟩ := ite_ok_iff.1 h
  · exact shows_if hC (h₁ ▸ hf) h
  obtain ⟨h₂, h⟩ | ⟨h₂, h⟩ := ite_ok_iff.1 h
  · exact shows_andOr hC (.inl h₂) hf h
  obtain ⟨h₃, h⟩ | ⟨h₃, h⟩ := ite_ok_iff.1 h
  · exact shows_andOr hC (.inr h₃) hf h
  obtain ⟨h₄, h⟩ | ⟨h₄, h⟩ := ite_ok_iff.1 h
  · exact Shows.becomes (.progn (h₄ ▸ hf)) rfl (shows_body hC h)
  obtain ⟨h₅, h⟩ | ⟨h₅, h⟩ := ite_ok_iff.1 h
  · exact shows_let1 hC (h₅ ▸ hf) h
  obtain ⟨h₆, h⟩ | ⟨h₆, h⟩ := ite_ok_iff.1 h
  · obtain ⟨-, h⟩ := throwIf_bind h
    obtain ⟨rfl, rfl⟩ := emit_ok_iff.1 h
    exact shows_of_sets (b := []) sparesEax_nil rfl
  obtain ⟨h₇, h⟩ | ⟨h₇, h⟩ := ite_ok_iff.1 h
  · obtain ⟨-, h⟩ := throwIf_bind h
    rw [car_bind_eq] at h
    obtain ⟨rfl, rfl⟩ := emit_ok_iff.1 h
    exact shows_movEax _
  obtain ⟨h₈, h⟩ | ⟨h₈, h⟩ := ite_ok_iff.1 h
  · obtain ⟨-, h⟩ := throwIf_bind h
    rw [car_bind_eq] at h
    exact Shows.becomes (.backquote (h₈ ▸ hf)) rfl (hC.template h)
  obtain ⟨h₉, h⟩ | ⟨h₉, h⟩ := ite_ok_iff.1 h
  · exact shows_functionForm h
  obtain ⟨h₁₀, h⟩ | ⟨h₁₀, h⟩ := ite_ok_iff.1 h
  · exact shows_list hC (h₁₀ ▸ hf) hk h
  obtain ⟨h₁₁, h⟩ | ⟨h₁₁, h⟩ := ite_ok_iff.1 h
  · exact shows_lambda hS h
  obtain ⟨h₁₂, h⟩ | ⟨h₁₂, h⟩ := ite_ok_iff.1 h
  · exact shows_eval hC (h₁₂ ▸ hf) h
  obtain ⟨h₁₃, h⟩ | ⟨h₁₃, h⟩ := ite_ok_iff.1 h
  · exact shows_load hC (h₁₃ ▸ hf) h
  refine shows_call hC hf ?_ hk h
  simp only [specialForms, List.mem_cons, List.not_mem_nil, or_false, not_or]
  exact ⟨h₁, h₂, h₃, h₄, h₅, h₆, h₇, h₈, h₉, h₁₀, h₁₁, h₁₂, h₁₃⟩

/-- Only values, symbols and lists with the name of a function are compiled. -/
theorem compileExpression_cases (h : compileExpression R C v tail s = .ok u c s') :
    (∃ i, c = [.movEax i]) ∨ compileSymbol R v s = .ok u c s' ∨
      ∃ name k, s.world.heap.Named (s.world.heap.car v) name ∧
        s.world.heap.length (s.world.heap.cdr v) = some k ∧
        compileForm R C v tail s = .ok u c s' := by
  rw [compileExpression, symstreq_bind_eq] at h
  obtain ⟨-, h⟩ | ⟨-, h⟩ := ite_ok_iff.1 h
  · obtain ⟨rfl, -⟩ := emit_ok_iff.1 h
    exact .inl ⟨_, rfl⟩
  rw [symstreq_bind_eq] at h
  obtain ⟨-, h⟩ | ⟨-, h⟩ := ite_ok_iff.1 h
  · obtain ⟨rfl, -⟩ := emit_ok_iff.1 h
    exact .inl ⟨_, rfl⟩
  obtain ⟨-, h⟩ | ⟨-, h⟩ := ite_ok_iff.1 h
  · obtain ⟨rfl, -⟩ := emit_ok_iff.1 h
    exact .inl ⟨_, rfl⟩
  obtain ⟨l, -, h⟩ := listp_bind h
  obtain ⟨-, h⟩ | ⟨-, h⟩ := ite_ok_iff.1 h
  · obtain ⟨name, k, hf, hk⟩ := head_of_form h
    exact .inr (.inr ⟨name, k, hf, hk, h⟩)
  obtain ⟨-, h⟩ | ⟨-, h⟩ := ite_ok_iff.1 h
  · exact .inr (.inl h)
  obtain ⟨-, h⟩ | ⟨-, h⟩ := ite_ok_iff.1 h
  · obtain ⟨rfl, -⟩ := emit_ok_iff.1 h
    exact .inl ⟨_, rfl⟩
  · cases h

theorem shows_expression (hC : C.Shown R load a) (hS : C.Sound)
    (h : compileExpression R C v tail s = .ok u c s') : Shows R load a s (.form tail v) c s' := by
  obtain ⟨i, rfl⟩ | h | ⟨name, k, hf, hk, h⟩ := compileExpression_cases h
  · exact shows_movEax i
  · exact shows_symbol h
  · exact shows_form hC hS hf hk h

theorem shown_compiler (R : Runtime) (load : CodePtr → Option Routine) (a : Prop) (n : ℕ) :
    (compiler R n).Shown R load a := by
  induction n with
  | zero => exact ⟨nofun, nofun⟩
  | succ n ih => exact ⟨shows_expression ih (compiler_sound R n), shows_template ih⟩

end Shows

/-! ### From forms to code -/

def OnlyLabels (c : Code) : Prop := ∀ i ∈ c, ∃ l, i = .label l

/-- The part is compiled to `c`. -/
def Part.Compiles (C : Compiler) (s : State) (c : Code) (s' : State) : Part → Prop
  | .form tail v => C.compileExpression v tail s = .ok () c s'
  | .body tail v => ∃ m, forList (fun body => do
      let t := tail && nilp (← cdr body)
      C.compileExpression (← car body) t) m v s = .ok () c s'
  | .branches v => ∃ (m : ℕ) (or : Bool) (after : ℕ), forList (fun args => do
      C.compileExpression (← car args) false
      when (!nilp (← cdr args)) (emit [.cmpEaxNil, if or then .jne after else .je after]))
      m v s = .ok () c s'
  | .template v => C.compileBackquote v s = .ok () c s'

section Compiles

variable {R : Runtime} {C : Compiler} {s s' : State} {c : Code} {v : Word} {tail : Bool}
  {name : String} {w w₁ : World} {own : Option (String × Args)} {p p' : Part}

theorem closurep_of_consp {v : ℕ} (h : consp v = true) : closurep v = false := by
  have h8 : v % 8 = 1 := of_decide_eq_true h
  exact decide_eq_false (show ¬ v % 8 = 6 by omega)

/-- What begins with the name of a function is compiled as a form. -/
theorem compileForm_of_named (hf : s.world.heap.Named (s.world.heap.car v) name)
    (h : compileExpression R C v tail s = .ok () c s') :
    compileForm R C v tail s = .ok () c s' := by
  have hcons : consp v = true := by
    by_contra hcons
    have hcar : s.world.heap.car v = nil := if_neg hcons
    have hsym := hf.1
    rw [hcar] at hsym
    exact absurd hsym (by decide)
  obtain ⟨hsym, hnil, hint, hstr⟩ := kind_of_consp hcons
  have hclosure := closurep_of_consp hcons
  simp only [compileExpression, symstreq_bind_eq, symstreq_of_not_symbolp hsym, hnil, hint, hstr,
    hclosure, hsym, Bool.or_false, Bool.false_eq_true, if_false] at h
  obtain ⟨l, -, h⟩ := listp_bind h
  obtain ⟨-, h⟩ | ⟨-, h⟩ := ite_ok_iff.1 h
  · exact h
  · cases h

/-- A form with a name of its own is not compiled as a call. -/
theorem compileCall_of_named {k : ℕ} (hf : s.world.heap.Named (s.world.heap.car v) name)
    (hname : name ∉ specialForms) (hk : s.world.heap.length (s.world.heap.cdr v) = some k) :
    compileForm R C v tail s =
      compileCall R C (s.world.heap.car v) (s.world.heap.cdr v) k tail s := by
  simp only [specialForms, List.mem_cons, List.not_mem_nil, or_false, not_or] at hname
  obtain ⟨h₁, h₂, h₃, h₄, h₅, h₆, h₇, h₈, h₉, h₁₀, h₁₁, h₁₂, h₁₃⟩ := hname
  rw [compileForm_of_head hf hk, if_neg h₁, if_neg h₂, if_neg h₃, if_neg h₄, if_neg h₅, if_neg h₆,
    if_neg h₇, if_neg h₈, if_neg h₉, if_neg h₁₀, if_neg h₁₁, if_neg h₁₂, if_neg h₁₃]

/-- The form is compiled as a call of what it calls. -/
theorem World.Calls.callRun {f : Function} (hcalls : s.world.Calls s.own v f)
    (h : compileExpression R C v tail s = .ok () c s') : ∃ k, CallRun R C s v k tail c s' := by
  have hform := compileForm_of_named hcalls.named h
  obtain ⟨-, k, -, hk⟩ := head_of_form hform
  rw [compileCall_of_named hcalls.named hcalls.special hk] at hform
  exact ⟨k, callRun_of_ok hcalls.named hcalls.special hform⟩

theorem World.Calls.unique {f g : Function} (h : w.Calls own v f) (h' : w.Calls own v g) :
    f = g := by
  have hname : f.name = g.name := Option.some.inj (h.named.2.symm.trans h'.named.2)
  have hfind := h.find
  rw [hname, h'.find] at hfind
  exact (Option.some.inj hfind).symm

theorem World.Calls.not_own {f : Function} {args : Args} (h : w.Calls own v f) :
    ¬ w.CallsOwn own v args := by
  rintro ⟨name, hnamed, -, ho⟩
  have hname : f.name = name := Option.some.inj (h.named.2.symm.trans hnamed.2)
  exact h.other (by rw [ho, hname]; rfl)

/-- What is compiled as another part has the code of that part, and labels. -/
theorem Becomes.compiles {n : ℕ} (h : Becomes R own w p w₁ p') (hw : s.world = w)
    (ho : s.own = own) (hc : p.Compiles (compiler R n) s c s') :
    ∃ m s₁ c₁ c₂, s₁.world = w₁ ∧ s₁.own = own ∧ p'.Compiles (compiler R m) s₁ c₁ s' ∧
      c = c₁ ++ c₂ ∧ OnlyLabels c₂ := by
  subst hw ho
  have hnone : OnlyLabels [] := nofun
  cases n with
  | zero => cases h <;> cases hc
  | succ n =>
    cases h with
    | progn hf =>
      have hform := compileForm_of_named hf hc
      obtain ⟨-, k, -, hk⟩ := head_of_form hform
      rw [compileForm_of_head hf hk] at hform
      exact ⟨n, s, c, [], rfl, rfl, ⟨_, hform⟩, (List.append_nil c).symm, hnone⟩
    | @andOr _ v _ hn hf =>
      have hform := compileForm_of_named hf hc
      obtain ⟨-, k, -, hk⟩ := head_of_form hform
      rw [compileForm_of_head hf hk] at hform
      obtain ⟨or, h⟩ : ∃ or, compileAndOr (compiler R n) (s.world.heap.cdr v) k or s =
          .ok () c s' := by
        rcases hn with rfl | rfl
        · exact ⟨_, hform⟩
        · exact ⟨_, hform⟩
      obtain ⟨-, h⟩ := throwIf_bind h
      obtain ⟨after, s₁, hworld, hown, h⟩ := nextpc_own h
      obtain ⟨_, c₁, s₂, c₂, rfl, h₁, h₂⟩ := bind_ok_iff.1 h
      obtain ⟨rfl, rfl⟩ := emit_ok_iff.1 h₂
      refine ⟨n, s₁, c₁, _, hworld, hown, ⟨_, or, after, h₁⟩, rfl, ?_⟩
      exact List.forall_mem_singleton.2 ⟨after, rfl⟩
    | backquote hf =>
      have hform := compileForm_of_named hf hc
      obtain ⟨-, k, -, hk⟩ := head_of_form hform
      rw [compileForm_of_head hf hk] at hform
      obtain ⟨-, h⟩ := throwIf_bind (show compileBackquoteForm _ _ _ _ = _ from hform)
      rw [car_bind_eq] at h
      exact ⟨n, s, c, [], rfl, rfl, h, (List.append_nil c).symm, hnone⟩
    | unquote hlist hf =>
      obtain ⟨l, hl, h⟩ := listp_bind (show compileBackquote _ _ _ = _ from hc)
      obtain rfl : true = l := Option.some.inj (hlist.symm.trans hl)
      rw [Bool.not_true, if_neg Bool.false_ne_true, car_bind_eq, cdr_bind_eq] at h
      obtain ⟨_, -, h⟩ := length_bind h
      obtain ⟨_, -, h⟩ := length_bind h
      rw [symstreq_bind_eq, if_pos hf] at h
      obtain ⟨-, h⟩ := throwIf_bind h
      rw [car_bind_eq] at h
      exact ⟨n, s, c, [], rfl, rfl, h, (List.append_nil c).symm, hnone⟩
    | macro_ hcalls hf he =>
      obtain ⟨k, hrun⟩ := hcalls.callRun hc
      cases hrun with
      | own h => exact absurd h hcalls.not_own
      | function h hns =>
        obtain rfl := hcalls.unique h
        rw [hf] at hns
        cases hns
      | anonymous h hns =>
        obtain rfl := hcalls.unique h
        rw [hf] at hns
        cases hns
      | macro_ h _ hm =>
        obtain rfl := hcalls.unique h
        obtain ⟨e', w₂, s₁, hcall, hs₁, hown, h⟩ := macro_bind hm
        obtain ⟨rfl, rfl⟩ := Prod.mk.inj (Option.some.inj (he.symm.trans hcall))
        exact ⟨n, s₁, c, [], hs₁, hown, h, (List.append_nil c).symm, hnone⟩

theorem onlyLabels_append {c₁ c₂ : Code} :
    OnlyLabels (c₁ ++ c₂) ↔ OnlyLabels c₁ ∧ OnlyLabels c₂ := List.forall_mem_append

/-- A silent part has no code but labels. -/
theorem Silent.onlyLabels (h : Silent R own w p w₁) {n : ℕ} (hw : s.world = w) (ho : s.own = own)
    (hc : p.Compiles (compiler R n) s c s') :
    OnlyLabels c ∧ s'.world = w₁ ∧ s'.own = own := by
  induction h generalizing n s c s' with
  | becomes h _ ih =>
    obtain ⟨m, s₁, c₁, c₂, hw₁, ho₁, hc₁, rfl, hlabels⟩ := h.compiles hw ho hc
    obtain ⟨hc₁, hs'⟩ := ih hw₁ ho₁ hc₁
    exact ⟨onlyLabels_append.2 ⟨hc₁, hlabels⟩, hs'⟩
  | other hcalls hf =>
    subst hw ho
    cases n with
    | zero => cases hc
    | succ n =>
      obtain ⟨k, hrun⟩ := hcalls.callRun hc
      cases hrun with
      | own h => exact absurd h hcalls.not_own
      | function h hns =>
        obtain rfl := hcalls.unique h
        rw [hf] at hns
        cases hns
      | macro_ h hns =>
        obtain rfl := hcalls.unique h
        rw [hf] at hns
        cases hns
      | anonymous _ _ hc hs =>
        subst hc hs
        exact ⟨nofun, rfl, rfl⟩
  | nil h =>
    obtain ⟨m, hc⟩ := hc
    cases m with
    | zero => cases hc
    | succ m =>
      rw [forList, if_pos h] at hc
      obtain ⟨-, rfl, rfl⟩ := pure_ok_iff.1 hc
      exact ⟨nofun, hw, ho⟩
  | @cons w w₁ w₂ tail v h _ _ ih₁ ih₂ =>
    obtain ⟨m, hc⟩ := hc
    cases m with
    | zero => cases hc
    | succ m =>
      rw [forList, if_neg (by simp [h])] at hc
      obtain ⟨_, c₁, s₁, c₂, rfl, hturn, hrest⟩ := bind_ok_iff.1 hc
      rw [cdr_bind_eq] at hturn hrest
      rw [car_bind_eq, hw] at hturn
      obtain ⟨hc₁, hw₁, ho₁⟩ := ih₁ hw ho hturn
      rw [hw₁] at hrest
      obtain ⟨hc₂, hs'⟩ := ih₂ hw₁ ho₁ ⟨m, hrest⟩
      exact ⟨onlyLabels_append.2 ⟨hc₁, hc₂⟩, hs'⟩
  | none h =>
    obtain ⟨m, or, after, hc⟩ := hc
    cases m with
    | zero => cases hc
    | succ m =>
      rw [forList, if_pos h] at hc
      obtain ⟨-, rfl, rfl⟩ := pure_ok_iff.1 hc
      exact ⟨nofun, hw, ho⟩
  | @single w w₁ v h _ hlast ih =>
    obtain ⟨m, or, after, hc⟩ := hc
    cases m with
    | zero => cases hc
    | succ m =>
      rw [forList, if_neg (by simp [h])] at hc
      obtain ⟨_, c₁, s₁, c₂, rfl, hturn, hrest⟩ := bind_ok_iff.1 hc
      rw [cdr_bind_eq] at hrest
      rw [car_bind_eq, hw] at hturn
      obtain ⟨_, c₃, s₂, c₄, rfl, he, hturn⟩ := bind_ok_iff.1 hturn
      obtain ⟨hc₃, hw₁, ho₁⟩ := ih hw ho he
      rw [cdr_bind_eq, hw₁] at hturn
      obtain ⟨hmore, -⟩ | ⟨-, rfl, rfl⟩ := when_ok_iff.1 hturn
      · simp [hlast] at hmore
      cases m with
      | zero => cases hrest
      | succ m =>
        rw [hw₁, forList, if_pos hlast] at hrest
        obtain ⟨-, rfl, rfl⟩ := pure_ok_iff.1 hrest
        rw [List.append_nil, List.append_nil]
        exact ⟨hc₃, hw₁, ho₁⟩

end Compiles

end Lisp

end Bluejay
