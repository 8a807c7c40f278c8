import Bluejay.Lisp.Emits
import Bluejay.Lisp.Sexp

/-!
# Parameter lists

`list_to_args` reads a parameter list: required parameters, `(name expr)` for optional ones, and
`& name` for the rest.

* `listToArgsAny` : `list_to_args`, which does not check that the name in `(name expr)` is a
  symbol; it notes the variables it adds and the entries it meets.  `listToArgsAny_of_ok` : where
  all are symbols, it does what `listToArgs` does.
* `Exact` : what was read is a list of required symbols, then of pairs, then at most one rest
  parameter, and the numbers of the variables are the positions of the arguments.
* `Turn`, `turn_of_ok` : what one turn of the loop can do.
* `exact_iff` : what was read is so exactly if every entry is a symbol or a pair of a symbol and an
  expression, and none comes after the rest parameter.
-/

namespace Bluejay

namespace Lisp

open Emitter

/-- An entry of a parameter list, as the loop meets it. -/
inductive Entry
  | symbol (name : Word)
  | option (name expr : Word)
  /-- `& name`. -/
  | rest (name : Word)
  | other (val : Word)
  deriving DecidableEq

/-- What `list_to_args` has made of the entries it met.  `parameters` are the variables it added,
in order, each as the word its name is read from, and its number. -/
structure Parsed where
  args : Args
  parameters : List (Word × ℕ)
  entries : List Entry

namespace Parsed

def start : Parsed := ⟨newArgs, [], []⟩

variable (p : Parsed)

def addRequired (name : Word) : Parsed where
  args := { p.args with numRequired := p.args.numRequired + 1 }
  parameters := p.parameters ++ [(name, p.args.numRequired)]
  entries := p.entries ++ [.symbol name]

/-- `add_optional_arg`, and its variable. -/
def addOptional (name expr value : Word) : Parsed where
  args := { p.args with optionalArguments := p.args.optionalArguments ++ [⟨value, name⟩] }
  parameters := p.parameters ++ [(name, p.args.numRequired + p.args.numOptional)]
  entries := p.entries ++ [.option name expr]

def addRest (name : Word) : Parsed where
  args := { p.args with variadic := true }
  parameters := p.parameters ++ [(name, p.args.numOptional + p.args.numRequired)]
  entries := p.entries ++ [.rest name]

def addOther (val : Word) : Parsed := { p with entries := p.entries ++ [.other val] }

end Parsed

/-- `add_variable(local, V_ARGUMENT, (char *)(name ^ SYMBOL_TAG), number)`.  The name is not read; a
word that is no symbol gives a variable that no name finds. -/
def addParameter (name : Word) (number : ℕ) : CompileM Unit := do
  match symbolp name, (← getHeap).text name with
  | true, some text => modifyLocal (.addBinder .argument text number)
  | _, _ => pure ()

/-- `list_to_args`, for at most `n` parameters. -/
def listToArgsAny (R : Runtime) (C : Compiler) : ℕ → Word → Parsed → Bool → CompileM Parsed
  | 0, _, _, _ => stop .fuel
  | n + 1, i, p, in_optional =>
    if nilp i then pure p
    else do
      let val ← car i
      if symbolp val then
        if !p.args.variadic && (← symstreq val "&") then
          let i ← cdr i
          let name ← car i
          throwIf (!symbolp name) .expected
            ("You must provide a symbol after & in an argument list " ++
              "to bind the\nvariadic arguments to.")
          addParameter name (p.args.numOptional + p.args.numRequired)
          listToArgsAny R C n (← cdr i) (p.addRest name) in_optional
        else if !in_optional then
          addParameter val p.args.numRequired
          listToArgsAny R C n (← cdr i) (p.addRequired val) in_optional
        else if (← symbolName val).startsWith "&" then
          throw .invalid ("Non-optional argument following optional arguments " ++
            "starts with a &\ndid you mean to declare a variadic argument? If so " ++
            "leave a space\nbetween the & and name.")
        else throw .invalid "Cannot define a non-optional argument after an optional one."
      else if ← listp val then
        throwIf ((← length val) ≠ 2) .invalid
          ("A list defining an optional value must be structured like " ++
            "(name expr)\nwith exactly two arguments.")
        let name ← car val
        let expr ← car (← cdr val)
        let value ← defaultValue R C expr
        addParameter name (p.args.numRequired + p.args.numOptional)
        listToArgsAny R C n (← cdr i) (p.addOptional name expr value) true
      else listToArgsAny R C n (← cdr i) (p.addOther val) in_optional

/-! ### What is read -/

/-- What was read is the list of the symbols `required`, then the pairs `optionals`, then
`& rest`; and the variables have the numbers that the positions of the arguments need. -/
structure Exact (p : Parsed) (required : List Word) (optionals : List (Word × Word))
    (rest : Option Word) : Prop where
  entries : p.entries = required.map .symbol ++ optionals.map (fun o => .option o.1 o.2) ++
    rest.toList.map .rest
  symbols : ∀ v ∈ required ++ optionals.map Prod.fst ++ rest.toList, symbolp v = true
  numRequired : p.args.numRequired = required.length
  names : p.args.optionalArguments.map OptionalArgument.name = optionals.map Prod.fst
  variadic : p.args.variadic = rest.isSome
  parameters : p.parameters = required.zipIdx ++
    (optionals.map Prod.fst).zipIdx p.args.numRequired ++
    rest.toList.map (·, p.args.numRequired + p.args.numOptional)

/-- **What `list_to_args` should have read.** -/
def ParsedExactly (p : Parsed) : Prop := ∃ required optionals rest, Exact p required optionals rest

/-- The name of the entry is a symbol. -/
def Entry.Named : Entry → Prop
  | .symbol name | .rest name | .option name _ => symbolp name = true
  | .other _ => False

/-- All entries are named, and the rest parameter is the last one. -/
structure Plain (es : List Entry) : Prop where
  named : ∀ e ∈ es, e.Named
  last : ∀ before name after, es = before ++ .rest name :: after → after = []

section Exact

variable {p : Parsed} {required : List Word} {optionals : List (Word × Word)} {rest : Option Word}
  {v w x : Word}

theorem exact_start : Exact .start [] [] none := ⟨rfl, nofun, rfl, rfl, rfl, rfl⟩

theorem Exact.numOptional (h : Exact p required optionals rest) :
    p.args.numOptional = optionals.length := by
  have hlen := congrArg List.length h.names
  rwa [List.length_map, List.length_map] at hlen

/-- No two parameters have the same number, and the numbers are those of the words that a call puts
on the stack. -/
theorem Exact.numbers (h : Exact p required optionals rest) :
    p.parameters.map Prod.snd = List.range (realNargs p.args) := by
  have hlist : p.args.numRequired + p.args.numOptional = p.args.numOptional + p.args.numRequired :=
    Nat.add_comm _ _
  have hfixed : List.range p.args.numRequired ++
      List.range' p.args.numRequired p.args.numOptional =
      List.range (p.args.numOptional + p.args.numRequired) := by
    have happend := @List.range'_append_1 0 p.args.numRequired p.args.numOptional
    rwa [Nat.zero_add, hlist, ← List.range_eq_range', ← List.range_eq_range'] at happend
  rw [h.parameters, List.map_append, List.map_append, List.zipIdx_map_snd, List.zipIdx_map_snd,
    List.length_map, ← h.numRequired, ← h.numOptional, ← List.range_eq_range', hfixed, realNargs,
    h.variadic, hlist]
  cases rest with
  | none => exact List.append_nil _
  | some r => exact List.range_succ.symm

theorem Exact.addRequired (h : Exact p required [] none) (hv : symbolp v = true) :
    Exact (p.addRequired v) (required ++ [v]) [] none where
  entries := by simp [Parsed.addRequired, h.entries]
  symbols := by
    intro w hw
    simp only [List.map_nil, Option.toList_none, List.append_nil, List.mem_append,
      List.mem_singleton] at hw
    rcases hw with hw | rfl
    · exact h.symbols w (by simpa using hw)
    · exact hv
  numRequired := by simp [Parsed.addRequired, h.numRequired]
  names := h.names
  variadic := h.variadic
  parameters := by
    simp [Parsed.addRequired, h.parameters, h.numRequired, List.zipIdx_append]

theorem Exact.addOptional (h : Exact p required optionals none) (hv : symbolp v = true) :
    Exact (p.addOptional v w x) required (optionals ++ [(v, w)]) none where
  entries := by simp [Parsed.addOptional, h.entries]
  symbols := by
    intro u hu
    simp only [List.map_append, List.map_cons, List.map_nil, Option.toList_none, List.append_nil,
      List.mem_append, List.mem_singleton] at hu
    rcases hu with hu | hu | rfl
    · exact h.symbols u (by simp [hu])
    · exact h.symbols u (by simp only [List.mem_append]; exact .inl (.inr hu))
    · exact hv
  numRequired := h.numRequired
  names := by simp [Parsed.addOptional, h.names]
  variadic := h.variadic
  parameters := by
    simp [Parsed.addOptional, h.parameters, h.numOptional, List.zipIdx_append]

theorem Exact.addRest (h : Exact p required optionals none) (hv : symbolp v = true) :
    Exact (p.addRest v) required optionals (some v) where
  entries := by simp [Parsed.addRest, h.entries]
  symbols := by
    intro u hu
    rw [Option.toList_some, List.mem_append, List.mem_singleton] at hu
    rcases hu with hu | rfl
    · exact h.symbols u (by simpa using hu)
    · exact hv
  numRequired := h.numRequired
  names := h.names
  variadic := rfl
  parameters := by
    simp [Parsed.addRest, h.parameters, Args.numOptional, Nat.add_comm]

theorem Exact.plain (h : Exact p required optionals rest) : Plain p.entries := by
  constructor
  · intro e he
    rw [h.entries] at he
    simp only [List.mem_append, List.mem_map] at he
    obtain (⟨v, hv, rfl⟩ | ⟨o, ho, rfl⟩) | ⟨v, hv, rfl⟩ := he
    · exact h.symbols v (by simp [hv])
    · exact h.symbols o.1 (by
        simp only [List.mem_append, List.mem_map]
        exact .inl (.inr ⟨o, ho, rfl⟩))
    · exact h.symbols v (List.mem_append_right _ hv)
  · intro before name after heq
    rw [h.entries] at heq
    -- the entries in front of the rest parameter are of other kinds
    have hfront : .rest name ∉
        required.map Entry.symbol ++ optionals.map (fun o => Entry.option o.1 o.2) := by
      simp
    rcases List.eq_nil_or_concat after with rfl | ⟨after', e, rfl⟩
    · rfl
    exfalso
    refine hfront ?_
    cases rest with
    | none =>
      rw [Option.toList_none, List.map_nil, List.append_nil] at heq
      simp [heq]
    | some r =>
      rw [Option.toList_some, List.map_singleton, List.concat_eq_append, ← List.cons_append,
        ← List.append_assoc] at heq
      rw [(List.append_inj' heq rfl).1]
      simp

/-- No entry follows a rest parameter. -/
theorem Exact.no_rest {e : Entry} {es : List Entry} (h : Exact p required optionals rest)
    (hes : p.entries ++ [e] <+: es) (hplain : Plain es) : rest = none := by
  cases rest with
  | none => rfl
  | some r =>
    obtain ⟨more, rfl⟩ := hes
    refine absurd (hplain.last (required.map .symbol ++ optionals.map fun o => .option o.1 o.2) r
      (e :: more) ?_) (List.cons_ne_nil _ _)
    rw [h.entries]
    simp

end Exact

/-! ### One turn -/

section Turn

variable {R : Runtime} {C : Compiler} {n : ℕ} {i i' : Word} {p p' p₁ : Parsed} {opt opt' : Bool}
  {s s' s₁ : State} {c : Code} {u : Unit}

/-- **What one turn of the loop does**, from the entry `i` on. -/
inductive Turn (R : Runtime) (C : Compiler) (i : Word) (p : Parsed) :
    Bool → State → Word → Parsed → Bool → State → Prop
  | required {s s₁ : State} (hsym : symbolp (s.world.heap.car i) = true)
      (hrest : p.args.variadic = true ∨ s.world.heap.symstreq (s.world.heap.car i) "&" = false)
      (hadd : addParameter (s.world.heap.car i) p.args.numRequired s = .ok () [] s₁) :
      Turn R C i p false s (s₁.world.heap.cdr i) (p.addRequired (s.world.heap.car i)) false s₁
  | rest {opt : Bool} {s s₁ : State} (hsym : symbolp (s.world.heap.car i) = true)
      (hvar : p.args.variadic = false)
      (hrest : s.world.heap.symstreq (s.world.heap.car i) "&" = true)
      (hname : symbolp (s.world.heap.car (s.world.heap.cdr i)) = true)
      (hadd : addParameter (s.world.heap.car (s.world.heap.cdr i))
        (p.args.numOptional + p.args.numRequired) s = .ok () [] s₁) :
      Turn R C i p opt s (s₁.world.heap.cdr (s.world.heap.cdr i))
        (p.addRest (s.world.heap.car (s.world.heap.cdr i))) opt s₁
  | option {opt : Bool} {s s₁ s₂ : State} {value : Word} {c : Code}
      (hsym : symbolp (s.world.heap.car i) = false)
      (hlist : s.world.heap.listp (s.world.heap.car i) = some true)
      (hlen : s.world.heap.length (s.world.heap.car i) = some 2)
      (hval : defaultValue R C (s.world.heap.car (s.world.heap.cdr (s.world.heap.car i))) s =
        .ok value c s₁)
      (hadd : addParameter (s.world.heap.car (s.world.heap.car i))
        (p.args.numRequired + p.args.numOptional) s₁ = .ok () [] s₂) :
      Turn R C i p opt s (s₂.world.heap.cdr i)
        (p.addOptional (s.world.heap.car (s.world.heap.car i))
          (s.world.heap.car (s.world.heap.cdr (s.world.heap.car i))) value) true s₂
  | other {opt : Bool} {s : State} (hsym : symbolp (s.world.heap.car i) = false)
      (hlist : s.world.heap.listp (s.world.heap.car i) = some false) :
      Turn R C i p opt s (s.world.heap.cdr i) (p.addOther (s.world.heap.car i)) opt s

section Reads

variable {β : Type}

theorem car_bind_eq (v : Word) (f : Word → CompileM β) (s : State) :
    (car v >>= f) s = f (s.world.heap.car v) s :=
  bind_of_ok rfl

theorem cdr_bind_eq (v : Word) (f : Word → CompileM β) (s : State) :
    (cdr v >>= f) s = f (s.world.heap.cdr v) s :=
  bind_of_ok rfl

theorem symstreq_bind_eq (v : Word) (str : String) (f : Bool → CompileM β) (s : State) :
    (symstreq v str >>= f) s = f (s.world.heap.symstreq v str) s :=
  bind_of_ok rfl

theorem modifyLocal_bind_eq (g : Local → Local) (f : Unit → CompileM β) (s : State) :
    (modifyLocal g >>= f) s = f () { s with locals := s.locals.modifyHead g } :=
  bind_of_ok rfl

end Reads

/-- Adding a variable leaves memory as it is. -/
theorem addParameter_ok {name : Word} {k : ℕ} (h : addParameter name k s = .ok u c s') :
    c = [] ∧ s'.world = s.world := by
  obtain ⟨H, c₁, s₁, c₂, rfl, hH, hmatch⟩ := bind_ok_iff.1 h
  cases hH
  cases hsym : symbolp name <;> cases htext : s.world.heap.text name <;>
    rw [hsym, htext] at hmatch
  case true.some =>
    obtain ⟨rfl, rfl⟩ := modify_ok_iff.1 hmatch
    exact ⟨rfl, rfl⟩
  all_goals
    obtain ⟨-, rfl, rfl⟩ := pure_ok_iff.1 hmatch
    exact ⟨rfl, rfl⟩

theorem addParameter_bind {β : Type} {b : β} {f : Unit → CompileM β} {name : Word} {k : ℕ}
    (h : (addParameter name k >>= f) s = .ok b c s') :
    ∃ s₁, addParameter name k s = .ok () [] s₁ ∧ f () s₁ = .ok b c s' := by
  obtain ⟨_, c₁, s₁, c₂, rfl, hadd, hf⟩ := bind_ok_iff.1 h
  obtain ⟨rfl, -⟩ := addParameter_ok hadd
  exact ⟨s₁, hadd, hf⟩

theorem listp_bind {β : Type} {b : β} {f : Bool → CompileM β} {v : Word}
    (h : (listp v >>= f) s = .ok b c s') :
    ∃ l, s.world.heap.listp v = some l ∧ f l s = .ok b c s' := by
  obtain ⟨l, c₁, s₁, c₂, rfl, hl, hf⟩ := bind_ok_iff.1 h
  obtain ⟨H, c₃, s₃, c₄, rfl, hH, hmatch⟩ := bind_ok_iff.1 hl
  cases hH
  cases hlist : s.world.heap.listp v with
  | none => rw [hlist] at hmatch; cases hmatch
  | some l' =>
    rw [hlist] at hmatch
    obtain ⟨rfl, rfl, rfl⟩ := pure_ok_iff.1 hmatch
    exact ⟨_, rfl, hf⟩

theorem length_bind {β : Type} {b : β} {f : ℕ → CompileM β} {v : Word}
    (h : (length v >>= f) s = .ok b c s') :
    ∃ k, s.world.heap.length v = some k ∧ f k s = .ok b c s' := by
  obtain ⟨k, c₁, s₁, c₂, rfl, hk, hf⟩ := bind_ok_iff.1 h
  obtain ⟨H, c₃, s₃, c₄, rfl, hH, hmatch⟩ := bind_ok_iff.1 hk
  cases hH
  cases hlen : s.world.heap.length v with
  | none => rw [hlen] at hmatch; cases hmatch
  | some k' =>
    rw [hlen] at hmatch
    obtain ⟨rfl, rfl, rfl⟩ := pure_ok_iff.1 hmatch
    exact ⟨_, rfl, hf⟩

theorem throwIf_bind {β : Type} {b : β} {q : Prop} [Decidable q] {code : ErrorCode}
    {message : String} {f : Unit → CompileM β}
    (h : (throwIf q code message >>= f) s = .ok b c s') : ¬ q ∧ f () s = .ok b c s' := by
  obtain ⟨_, c₁, s₁, c₂, rfl, hthrow, hf⟩ := bind_ok_iff.1 h
  rcases when_ok_iff.1 hthrow with ⟨-, hstop⟩ | ⟨hq, rfl, rfl⟩
  · cases hstop
  · exact ⟨hq, hf⟩

/-- A run of the loop starts with a turn, and goes on behind it. -/
theorem turn_of_ok (hnil : nilp i = false)
    (h : listToArgsAny R C (n + 1) i p opt s = .ok p' c s') :
    ∃ i' p₁ opt' s₁ c', Turn R C i p opt s i' p₁ opt' s₁ ∧
      listToArgsAny R C n i' p₁ opt' s₁ = .ok p' c' s' := by
  rw [listToArgsAny, hnil, if_neg Bool.false_ne_true, car_bind_eq] at h
  obtain ⟨hsym, h⟩ | ⟨hsym, h⟩ := ite_ok_iff.1 h
  · rw [symstreq_bind_eq] at h
    obtain ⟨hrest, h⟩ | ⟨hrest, h⟩ := ite_ok_iff.1 h
    · rw [Bool.and_eq_true, Bool.not_eq_true'] at hrest
      rw [cdr_bind_eq, car_bind_eq] at h
      obtain ⟨hname, h⟩ := throwIf_bind h
      obtain ⟨s₁, hadd, h⟩ := addParameter_bind h
      rw [cdr_bind_eq] at h
      exact ⟨_, _, _, _, _, .rest hsym hrest.1 hrest.2 (by simpa using hname) hadd, h⟩
    · obtain ⟨hopt, h⟩ | ⟨-, h⟩ := ite_ok_iff.1 h
      · obtain rfl : opt = false := by simpa using hopt
        obtain ⟨s₁, hadd, h⟩ := addParameter_bind h
        rw [cdr_bind_eq] at h
        refine ⟨_, _, _, _, _, .required hsym ?_ hadd, h⟩
        cases hvar : p.args.variadic with
        | true => exact .inl rfl
        | false => exact .inr (by simpa [hvar] using hrest)
      · obtain ⟨_, _, _, _, _, -, h⟩ := bind_ok_iff.1 h
        obtain ⟨-, h⟩ | ⟨-, h⟩ := ite_ok_iff.1 h <;> cases h
  · rw [Bool.not_eq_true] at hsym
    obtain ⟨isList, hlist, h⟩ := listp_bind h
    obtain ⟨rfl, h⟩ | ⟨hfalse, h⟩ := ite_ok_iff.1 h
    · obtain ⟨len, hlen, h⟩ := length_bind h
      obtain ⟨htwo, h⟩ := throwIf_bind h
      rw [not_not.1 htwo] at hlen
      rw [car_bind_eq, cdr_bind_eq, car_bind_eq] at h
      obtain ⟨value, c₁, s₁, c₂, rfl, hval, h⟩ := bind_ok_iff.1 h
      obtain ⟨s₂, hadd, h⟩ := addParameter_bind h
      rw [cdr_bind_eq] at h
      exact ⟨_, _, _, _, _, .option hsym hlist hlen hval hadd, h⟩
    · rw [Bool.eq_false_of_not_eq_true hfalse] at hlist
      rw [cdr_bind_eq] at h
      exact ⟨_, _, _, _, _, .other hsym hlist, h⟩

/-- A turn adds one entry. -/
theorem Turn.entries (h : Turn R C i p opt s i' p₁ opt' s₁) :
    ∃ e, p₁.entries = p.entries ++ [e] := by
  cases h with
  | required | rest | option | other => exact ⟨_, rfl⟩

theorem entries_isPrefix (h : listToArgsAny R C n i p opt s = .ok p' c s') :
    p.entries <+: p'.entries := by
  induction n generalizing i p opt s c with
  | zero => cases h
  | succ n ih =>
    cases hnil : nilp i with
    | true =>
      rw [listToArgsAny, if_pos hnil] at h
      obtain ⟨rfl, -, -⟩ := pure_ok_iff.1 h
      exact List.prefix_rfl
    | false =>
      obtain ⟨i', p₁, opt', s₁, c', hturn, h⟩ := turn_of_ok hnil h
      obtain ⟨e, he⟩ := hturn.entries
      exact (he ▸ List.prefix_append _ _).trans (ih h)

/-- **If all entries are plain, each turn keeps the numbers right.** -/
theorem exact_of_plain {required : List Word} {optionals : List (Word × Word)} {rest : Option Word}
    (h : listToArgsAny R C n i p opt s = .ok p' c s') (hp : Exact p required optionals rest)
    (hopt : opt = false → optionals = []) (hplain : Plain p'.entries) : ParsedExactly p' := by
  induction n generalizing i p opt s c required optionals rest with
  | zero => cases h
  | succ n ih =>
    cases hnil : nilp i with
    | true =>
      rw [listToArgsAny, if_pos hnil] at h
      obtain ⟨rfl, -, -⟩ := pure_ok_iff.1 h
      exact ⟨_, _, _, hp⟩
    | false =>
      obtain ⟨i', p₁, opt', s₁, c', hturn, h⟩ := turn_of_ok hnil h
      have hentries := entries_isPrefix h
      obtain ⟨e, he⟩ := hturn.entries
      rw [he] at hentries
      -- a turn behind the rest parameter would not be plain
      obtain rfl := hp.no_rest hentries hplain
      have hnamed : e.Named := hplain.named e (hentries.subset (by simp))
      cases hturn with
      | required hsym _ _ =>
        obtain rfl := hopt rfl
        exact ih h (hp.addRequired hsym) (fun _ => rfl)
      | rest _ _ _ hname _ => exact ih h (hp.addRest hname) hopt
      | option _ _ _ _ _ =>
        obtain rfl := List.singleton_inj.1 (List.append_cancel_left he)
        exact ih h (hp.addOptional hnamed) nofun
      | other _ _ =>
        obtain rfl := List.singleton_inj.1 (List.append_cancel_left he)
        exact hnamed.elim

end Turn

/-! ### The names of variables -/

section Names

variable {R : Runtime} {C : Compiler} {n : ℕ} {i : Word} {p : Parsed} {ar : Args} {opt : Bool}
  {s s' : State} {c : Code}

theorem symbolName_bind {β : Type} {b : β} {f : String → CompileM β} {v : Word}
    (h : (symbolName v >>= f) s = .ok b c s') :
    ∃ text, symbolp v = true ∧ s.world.heap.text v = some text ∧ f text s = .ok b c s' := by
  obtain ⟨text, c₁, s₁, c₂, rfl, hname, hf⟩ := bind_ok_iff.1 h
  obtain ⟨H, c₃, s₃, c₄, rfl, hH, hmatch⟩ := bind_ok_iff.1 hname
  cases hH
  cases hsym : symbolp v <;> cases htext : s.world.heap.text v <;> rw [hsym, htext] at hmatch
  case true.some =>
    obtain ⟨rfl, rfl, rfl⟩ := pure_ok_iff.1 hmatch
    exact ⟨_, rfl, rfl, hf⟩
  all_goals cases hmatch

theorem addParameter_symbol {v : Word} {text : String} (hsym : symbolp v = true)
    (htext : s.world.heap.text v = some text) (k : ℕ) :
    addParameter v k s =
      .ok () [] { s with locals := s.locals.modifyHead (.addBinder .argument text k) } := by
  rw [addParameter, bind_of_ok (show getHeap s = .ok s.world.heap [] s from rfl), hsym, htext]
  rfl

theorem throwIf_of_not {q : Prop} [Decidable q] (hq : ¬ q) (code : ErrorCode) (message : String) :
    throwIf q code message s = .ok () [] s := by
  rw [throwIf, Emitter.when, if_neg hq]
  rfl

theorem listp_of_eq {v : Word} {b : Bool} (h : s.world.heap.listp v = some b) :
    listp v s = .ok b [] s := by
  rw [listp, bind_of_ok (show getHeap s = .ok s.world.heap [] s from rfl), h]
  rfl

theorem length_of_eq {v : Word} {k : ℕ} (h : s.world.heap.length v = some k) :
    length v s = .ok k [] s := by
  rw [length, bind_of_ok (show getHeap s = .ok s.world.heap [] s from rfl), h]
  rfl

/-- Where the compiler has the names of all variables, it does what `listToArgsAny` does. -/
theorem listToArgsAny_of_ok (h : listToArgs R C n i p.args opt s = .ok ar c s') :
    ∃ p', listToArgsAny R C n i p opt s = .ok p' c s' ∧ p'.args = ar := by
  induction n generalizing i p opt s c with
  | zero => cases h
  | succ n ih =>
    rw [listToArgs] at h
    rw [listToArgsAny]
    obtain ⟨hnil, h⟩ | ⟨hnil, h⟩ := ite_ok_iff.1 h
    · obtain ⟨rfl, rfl, rfl⟩ := pure_ok_iff.1 h
      exact ⟨p, by rw [if_pos hnil]; rfl, rfl⟩
    rw [car_bind_eq] at h
    rw [if_neg hnil, car_bind_eq]
    obtain ⟨hsym, h⟩ | ⟨hsym, h⟩ := ite_ok_iff.1 h
    · rw [symstreq_bind_eq] at h
      rw [if_pos hsym, symstreq_bind_eq]
      obtain ⟨hrest, h⟩ | ⟨hrest, h⟩ := ite_ok_iff.1 h
      · rw [cdr_bind_eq, car_bind_eq] at h
        rw [if_pos hrest, cdr_bind_eq, car_bind_eq]
        obtain ⟨hname, h⟩ := throwIf_bind h
        obtain ⟨text, hsym', htext, h⟩ := symbolName_bind h
        rw [modifyLocal_bind_eq, cdr_bind_eq] at h
        rw [bind_of_ok (throwIf_of_not hname _ _),
          bind_of_ok (addParameter_symbol hsym' htext _), cdr_bind_eq]
        exact @ih _ (p.addRest _) _ _ _ h
      · rw [if_neg hrest]
        obtain ⟨hopt, h⟩ | ⟨hopt, h⟩ := ite_ok_iff.1 h
        · obtain ⟨text, hsym', htext, h⟩ := symbolName_bind h
          rw [modifyLocal_bind_eq, cdr_bind_eq] at h
          rw [if_pos hopt, bind_of_ok (addParameter_symbol hsym' htext _), cdr_bind_eq]
          exact @ih _ (p.addRequired _) _ _ _ h
        · obtain ⟨_, -, -, h⟩ := symbolName_bind h
          obtain ⟨-, h⟩ | ⟨-, h⟩ := ite_ok_iff.1 h <;> cases h
    · rw [if_neg hsym]
      obtain ⟨isList, hlist, h⟩ := listp_bind h
      rw [bind_of_ok (listp_of_eq hlist)]
      obtain ⟨htrue, h⟩ | ⟨hfalse, h⟩ := ite_ok_iff.1 h
      · obtain ⟨len, hlen, h⟩ := length_bind h
        obtain ⟨htwo, h⟩ := throwIf_bind h
        rw [car_bind_eq, cdr_bind_eq, car_bind_eq] at h
        rw [if_pos htrue, bind_of_ok (length_of_eq hlen), bind_of_ok (throwIf_of_not htwo _ _),
          car_bind_eq, cdr_bind_eq, car_bind_eq]
        obtain ⟨value, c₁, s₁, c₂, rfl, hval, h⟩ := bind_ok_iff.1 h
        obtain ⟨text, hsym', htext, h⟩ := symbolName_bind h
        rw [modifyLocal_bind_eq, cdr_bind_eq] at h
        obtain ⟨p', hrun, hargs⟩ := @ih _ (p.addOptional _ _ value) _ _ _ h
        refine ⟨p', bind_ok hval ?_, hargs⟩
        rw [bind_of_ok (addParameter_symbol hsym' htext _), cdr_bind_eq]
        exact hrun
      · rw [cdr_bind_eq] at h
        rw [if_neg hfalse, cdr_bind_eq]
        exact @ih _ (p.addOther _) _ _ _ h

end Names

/-! ### The entries of a list -/

/-- The values a list is made of. -/
inductive Heap.Part (H : Heap) (list : Word) : Word → Prop
  | self : Part H list list
  | car {v : Word} (h : Part H list v) : Part H list (H.car v)
  | cdr {v : Word} (h : Part H list v) : Part H list (H.cdr v)

/-- The entries of a parameter list, as it is in memory; `&` is special until a rest parameter was
met. -/
def Heap.entries (H : Heap) : ℕ → Bool → Word → List Entry
  | 0, _, _ => []
  | n + 1, variadic, i =>
    if nilp i then []
    else if symbolp (H.car i) then
      if !variadic && H.symstreq (H.car i) "&" then
        .rest (H.car (H.cdr i)) :: entries H n true (H.cdr (H.cdr i))
      else .symbol (H.car i) :: entries H n variadic (H.cdr i)
    else if H.listp (H.car i) = some true then
      .option (H.car (H.car i)) (H.car (H.cdr (H.car i))) :: entries H n variadic (H.cdr i)
    else .other (H.car i) :: entries H n variadic (H.cdr i)

/-- The list is in `H'` what it is in `H`. -/
def SameParts (H : Heap) (list : Word) (H' : Heap) : Prop :=
  ∀ v, H.Part list v → H'.car v = H.car v ∧ H'.cdr v = H.cdr v ∧ H'.text v = H.text v ∧
    H'.listp v = H.listp v

/-- The expressions for default arguments do not write to the list. -/
def Undisturbed (R : Runtime) (C : Compiler) (H : Heap) (list : Word) : Prop :=
  ∀ (expr v : Word) (s s' : State) (c : Code), defaultValue R C expr s = .ok v c s' →
    SameParts H list s.world.heap → SameParts H list s'.world.heap

section Entries

variable {R : Runtime} {C : Compiler} {H : Heap} {n : ℕ} {list i : Word} {p p' : Parsed}
  {opt : Bool} {s s' : State} {c : Code}

theorem SameParts.symstreq {H' : Heap} {v : Word} (h : SameParts H list H') (hv : H.Part list v)
    (str : String) : H'.symstreq v str = H.symstreq v str := by
  unfold Heap.symstreq
  rw [(h v hv).2.2.1]

/-- The loop meets the entries of the list. -/
theorem entries_of_ok (hR : Undisturbed R C H list)
    (h : listToArgsAny R C n i p opt s = .ok p' c s') (hs : SameParts H list s.world.heap)
    (hi : H.Part list i) : p'.entries = p.entries ++ H.entries n p.args.variadic i := by
  induction n generalizing i p opt s c with
  | zero => cases h
  | succ n ih =>
    rw [Heap.entries]
    cases hnil : nilp i with
    | true =>
      rw [listToArgsAny, if_pos hnil] at h
      obtain ⟨rfl, -, -⟩ := pure_ok_iff.1 h
      simp
    | false =>
      obtain ⟨i', p₁, opt', s₁, c', hturn, h⟩ := turn_of_ok hnil h
      obtain ⟨hcar, hcdr, -, -⟩ := hs i hi
      have hval := hs _ hi.car
      rw [if_neg Bool.false_ne_true]
      cases hturn with
      | required hsym hrest hadd =>
        have hs₁ : SameParts H list s₁.world.heap := (addParameter_ok hadd).2 ▸ hs
        rw [hcar] at hsym hrest h
        rw [hs.symstreq hi.car] at hrest
        rw [(hs₁ i hi).2.1] at h
        have hamp : (!p.args.variadic && H.symstreq (H.car i) "&") = false := by
          rcases hrest with hrest | hrest <;> simp [hrest]
        rw [if_pos hsym, hamp, if_neg Bool.false_ne_true, ih h hs₁ hi.cdr]
        simp [Parsed.addRequired]
      | rest hsym hvar hrest hname hadd =>
        have hs₁ : SameParts H list s₁.world.heap := (addParameter_ok hadd).2 ▸ hs
        rw [hcar] at hsym hrest
        rw [hs.symstreq hi.car] at hrest
        rw [hcdr, (hs _ hi.cdr).1, (hs₁ _ hi.cdr).2.1] at h
        have hamp : (!p.args.variadic && H.symstreq (H.car i) "&") = true := by
          rw [hvar, hrest]
          rfl
        rw [if_pos hsym, if_pos hamp, ih h hs₁ hi.cdr.cdr]
        simp [Parsed.addRest]
      | @option _ _ s₂ _ _ _ hsym hlist hlen hv hadd =>
        -- the expression is run behind the reading of the pair
        have hs₂ : SameParts H list s₂.world.heap := hR _ _ _ _ _ hv hs
        have hs₁ : SameParts H list s₁.world.heap := (addParameter_ok hadd).2 ▸ hs₂
        rw [hcar] at hsym hlist h
        rw [hval.2.2.2] at hlist
        rw [hval.1, hval.2.1, (hs _ hi.car.cdr).1, (hs₁ i hi).2.1] at h
        rw [if_neg (by simp [hsym]), if_pos hlist, ih h hs₁ hi.cdr]
        simp [Parsed.addOptional]
      | other hsym hlist =>
        rw [hcar] at hsym hlist h
        rw [hval.2.2.2] at hlist
        rw [hcdr] at h
        rw [if_neg (by simp [hsym]), if_neg (by simp [hlist]), ih h hs hi.cdr]
        simp [Parsed.addOther]

end Entries

/-! ### Parameters that are parsed exactly -/

/-- **A parameter list that is accepted is read exactly if every entry is a symbol or a pair of a
symbol and an expression, and the rest parameter is the last one.**  The entries are those that the
loop meets; they are those of the list, if the expressions for default arguments do not write to
it. -/
theorem exact_iff (R : Runtime) (C : Compiler) {n : ℕ} {list : Word} {p : Parsed} {s s' : State}
    {c : Code} (h : listToArgsAny R C n list .start false s = .ok p c s') :
    (ParsedExactly p ↔ Plain p.entries) ∧
      (Undisturbed R C s.world.heap list → p.entries = s.world.heap.entries n false list) := by
  refine ⟨⟨?_, exact_of_plain h exact_start fun _ => rfl⟩, fun hR => ?_⟩
  · rintro ⟨required, optionals, rest, hp⟩
    exact hp.plain
  · exact entries_of_ok hR h (fun _ _ => ⟨rfl, rfl, rfl, rfl⟩) .self

/-- `(a & b)` -/
def restLast : Sexp := .list [.symbol "a", .symbol "&", .symbol "b"]

theorem exact_restLast : ∃ p c s', listToArgsAny .inert (compiler .inert 1) 4 restLast.heap.2 .start
    false restLast.state = .ok p c s' ∧ ParsedExactly p := by
  have hrun : (listToArgsAny .inert (compiler .inert 1) 4 restLast.heap.2 .start false
      restLast.state).value.map Parsed.entries = some [.symbol 21, .rest 37] := by decide
  obtain ⟨p, c, s', h, hentries⟩ := Emitted.exists_of_value hrun
  refine ⟨p, c, s', h, (exact_iff _ _ h).1.2 ?_⟩
  rw [hentries]
  refine ⟨by simp [Entry.Named, symbolp, tag, symbolTag], ?_⟩
  intro before name after heq
  have hlen := congrArg List.length heq
  rcases before with _ | ⟨e, before⟩
  · cases heq
  · simp only [List.length_cons, List.length_append, List.length_nil] at hlen
    exact List.length_eq_zero_iff.1 (by omega)

/-- `(& b a)` : both parameters get the number 0. -/
def restFirst : Sexp := .list [.symbol "&", .symbol "b", .symbol "a"]

/-- **Parameters behind the rest parameter are accepted.** -/
theorem not_exact_all : ¬ ∀ (R : Runtime) (C : Compiler) (n : ℕ) (list : Word) (p : Parsed)
    (s s' : State) (c : Code), listToArgsAny R C n list .start false s = .ok p c s' →
      ParsedExactly p := by
  intro h
  have hrun : (listToArgsAny .inert (compiler .inert 1) 4 restFirst.heap.2 .start false
      restFirst.state).value.map (fun p => (p.parameters.map Prod.snd, realNargs p.args)) =
      some ([0, 0], 2) := by decide
  obtain ⟨p, c, s', hok, heq⟩ := Emitted.exists_of_value hrun
  obtain ⟨hnumbers, hwords⟩ := Prod.mk.injEq _ _ _ _ ▸ heq
  obtain ⟨_, _, _, hp⟩ := h _ _ _ _ _ _ _ _ hok
  have hdistinct := hp.numbers
  rw [hnumbers, hwords] at hdistinct
  exact absurd hdistinct (by decide)

end Lisp

end Bluejay
