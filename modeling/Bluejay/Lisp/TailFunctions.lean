import Bluejay.Lisp.Parameters
import Bluejay.Lisp.TailPositions

/-!
# Functions with tail calls

A function as `compile_function` compiles it, and the same one without tail calls.

* `ready_bodyState` : the body of a function is compiled when its parameters are known.
* `Restarts calls back count reserved bs` : where a tail call is made, the function is started again
  as a call would start it, in the frame that is there.
* `Agree` : the versions with and without tail calls have the same results.
* `tailCalls_compiled` : this is so for every function.
-/

namespace Bluejay

namespace Lisp

open Emitter

/-! ### Parameters -/

/-- The parameters of the function being compiled are among the first `count` words. -/
def Numbered (count : ℕ) (L : List Local) : Prop :=
  ∀ l ∈ L.head?, ∀ v ∈ l.first, v.type = .argument → v.number < count

section Numbered

variable {R : Runtime} {C : Compiler} {n k count count' : ℕ} {i i' name : Word} {p p' p₁ : Parsed}
  {opt opt' : Bool} {s s' s₁ : State} {c : Code} {u : Unit} {L L' : List Local}

theorem Numbered.mono (h : Numbered count L) (hle : count ≤ count') : Numbered count' L :=
  fun l hl v hv ht => (h l hl v hv ht).trans_le hle

theorem Numbered.captures (h : Numbered count L) (hL : List.Forall₂ Captures L L') :
    Numbered count L' := by
  cases hL with
  | nil => exact h
  | cons hl _ =>
    obtain ⟨vars, hfree, rfl⟩ := hl
    intro l' hl' v hv ht
    obtain rfl := Option.some.inj hl'
    rcases List.mem_append.1 hv with hv | hv
    · rw [hfree v hv] at ht
      cases ht
    · exact h _ rfl v hv ht

/-- A parameter is added. -/
theorem Numbered.addParameter (h : Numbered count s.locals)
    (hadd : addParameter name k s = .ok u c s') (hle : count ≤ count') (hk : k < count') :
    Numbered count' s'.locals := by
  obtain ⟨H, c₁, s₁, c₂, rfl, hH, hmatch⟩ := bind_ok_iff.1 hadd
  cases hH
  cases hsym : symbolp name <;> cases htext : s.world.heap.text name <;>
    rw [hsym, htext] at hmatch
  case true.some text =>
    obtain ⟨-, hl⟩ := modifyLocal_ok rfl hmatch
    rw [hl]
    intro l hl v hv ht
    cases hL : s.locals with
    | nil =>
      rw [hL] at hl
      cases hl
    | cons l₀ rest =>
      rw [hL] at hl h
      obtain rfl : Local.addBinder .argument text k l₀ = l := Option.some.inj hl
      rcases List.mem_cons.1 hv with rfl | hv
      · exact hk
      · exact (h l₀ rfl v hv ht).trans_le hle
  all_goals
    obtain ⟨-, -, rfl⟩ := pure_ok_iff.1 hmatch
    exact h.mono hle

/-- Each turn of the loop over the parameters adds one word for each parameter. -/
theorem numbered_turn (hC : C.Sound) (h : Turn R C i p opt s i' p₁ opt' s₁)
    (hs : Numbered (realNargs p.args) s.locals) : Numbered (realNargs p₁.args) s₁.locals := by
  cases h with
  | required _ _ hadd =>
    have hnargs : realNargs (p.addRequired (s.world.heap.car i)).args = realNargs p.args + 1 :=
      Nat.add_right_comm (p.args.numOptional + p.args.numRequired) 1 _
    rw [hnargs]
    refine hs.addParameter hadd (Nat.le_succ _) ?_
    unfold realNargs
    omega
  | rest _ hvar _ _ hadd =>
    have hnargs : realNargs p.args = p.args.numOptional + p.args.numRequired := by
      simp [realNargs, hvar]
    exact hs.addParameter hadd (hnargs ▸ Nat.le_succ _) (Nat.lt_succ_self _)
  | @option _ _ _ _ value _ _ _ _ hval hadd =>
    have hnargs : realNargs (p.addOptional (s.world.heap.car (s.world.heap.car i))
        (s.world.heap.car (s.world.heap.cdr (s.world.heap.car i))) value).args =
        realNargs p.args + 1 := by
      cases hvar : p.args.variadic <;> simp [realNargs, Parsed.addOptional, Args.numOptional, hvar]
      all_goals omega
    obtain ⟨d, l, -, he⟩ := emits_defaultValue hC hval
    rw [hnargs]
    refine (hs.captures (outerOf_of_emits he)).addParameter hadd (Nat.le_succ _) ?_
    unfold realNargs
    omega
  | other => exact hs

theorem numbered_listToArgs (hC : C.Sound) {ar : Args}
    (h : listToArgs R C n i p.args opt s = .ok ar c s')
    (hs : Numbered (realNargs p.args) s.locals) : Numbered (realNargs ar) s'.locals := by
  obtain ⟨p', hany, rfl⟩ := listToArgsAny_of_ok h
  clear h
  induction n generalizing i p opt s c with
  | zero => cases hany
  | succ n ih =>
    cases hnil : nilp i with
    | true =>
      rw [listToArgsAny, if_pos hnil] at hany
      obtain ⟨rfl, -, rfl⟩ := pure_ok_iff.1 hany
      exact hs
    | false =>
      obtain ⟨i', p₁, opt', s₁, c', hturn, hrest⟩ := turn_of_ok hnil hany
      exact ih (numbered_turn hC hturn hs) hrest

/-- When the parameters are known, the function finds that many words. -/
theorem Numbered.finds {ar : Args} (h : Numbered (realNargs ar) L) :
    Finds (realNargs ar) (L.modifyHead fun l => { l with args := ar }) := by
  cases L with
  | nil => exact nofun
  | cons l rest =>
    intro l' hl'
    obtain rfl : { l with args := ar } = l' := Option.some.inj hl'
    exact ⟨rfl, h l rfl⟩

/-- The walk over the body leaves the parameters as they are. -/
theorem Finds.walks (h : Finds count L) (hw : Walks L L') : Finds count L' := by
  induction hw with
  | refl => exact h
  | trans _ _ ih ih' => exact ih' (ih h)
  | let1 _ ih =>
    refine (ih (h.modifyHead (fun l => (alloc_snd l).1) fun l _ hv _ => ?_)).modifyHead
      (fun _ => rfl) fun _ _ hv _ => hv
    exact (alloc_snd l).2 ▸ hv

end Numbered

/-- The body of a function is compiled when it is known how many words it finds on the stack. -/
theorem ready_bodyState {arity : CodePtr → ℕ} {R : Runtime}
    (hR : StableIn R (fun _ => True) (Arities arity)) {n : ℕ} {args : Word} {closed : Bool}
    {name : Option String} {path : String} {s s₁ : State} (hs : Arities arity s.world)
    (h : bodyState R (compiler R n) args closed name path s = some s₁) :
    ∃ l rest, s₁.locals = l :: rest ∧ Ready arity (realNargs l.args) s₁ := by
  have hS := compiler_sound R n
  have hkeeps := compiler_keeps_also hR n
  unfold bodyState at h
  split at h
  case h_2 => cases h
  rename_i k c s₂ hprep
  obtain rfl := Option.some.inj h
  rw [prepareBody, car_bind_eq, cdr_bind_eq] at hprep
  obtain ⟨ar, c₁, s₃, c₂, rfl, hparams, hrest⟩ := bind_ok_iff.1 hprep
  rw [modifyLocal_bind_eq] at hrest
  obtain ⟨_, c₃, s₄, c₄, rfl, hwalk, hlast⟩ := bind_ok_iff.1 hrest
  obtain ⟨l, c₅, s₅, c₆, rfl, hlocal, hend⟩ := bind_ok_iff.1 hlast
  obtain ⟨-, rfl, rest, hl⟩ := getLocal_ok hlocal
  obtain ⟨-, -, rfl⟩ := pure_ok_iff.1 hend
  -- the number of words
  have hnumbered : Numbered (realNargs ar) s₃.locals :=
    numbered_listToArgs (p := .start) hS hparams fun l hl v hv => by
      obtain rfl := Option.some.inj hl
      cases hv
  have hfinds : Finds (realNargs ar) s₅.locals :=
    hnumbered.finds.walks (walks_forList hS hwalk).2
  -- the functions of the environment
  have harities₃ := (keeps_listToArgs hR hkeeps _ _ _ _).of_ok hparams ⟨trivial, hs⟩
  have harities := (keeps_forList (fun v => hkeeps.walk v false) _ _).of_ok hwalk
    ⟨trivial, harities₃.2⟩
  have hready : Ready arity (realNargs ar)
      { s₅ with locals := s₅.locals.modifyHead Local.resetSlots } :=
    ⟨hfinds.modifyHead (fun _ => rfl) fun _ _ hv _ => hv, harities.2⟩
  refine ⟨l.resetSlots, rest, by rw [hl]; rfl, ?_⟩
  have hcount : realNargs l.args = realNargs ar := (hfinds l (by rw [hl]; rfl)).1
  exact hcount ▸ hready

/-! ### The code of a function -/

/-- A function with tail calls, and without. -/
theorem twins_of_function {arity : CodePtr → ℕ} {R : Runtime} (hR : R.Tame arity) {n : ℕ}
    {args : Word} {closed : Bool} {name : Option String} {path : String} {s s' : State} {ar : Args}
    {l : Local} {c d : Code} (hs : Arities arity s.world)
    (h : compileFunction R (compiler R n) args closed name path s = .ok (ar, l, d) c s') :
    ∃ reserved bs s₁ s₂, d = functionCode (realNargs ar) reserved bs ∧
      bodyState R (compiler R n) args closed name path s = some s₁ ∧
      compileBody (compiler R n) (s.world.heap.cdr args) true s₁ =
        .ok () (bodyCode (realNargs ar) bs) s₂ ∧
      compileBody (compiler R n) (s.world.heap.cdr args) false s₁ =
        .ok () (bs.map Block.plain) s₂ ∧
      Regular arity (realNargs ar) (bs.map Block.plain) ∧
      ∀ p, bs[p]? = some .self → Exits (bs.map Block.plain) (p + 2) := by
  obtain ⟨r, s₁, s₂, hd, hs₁, hbody, hl, har⟩ := routine_of_function (compiler_sound R n) h
  obtain ⟨l₁, rest, hlocals, hready⟩ := ready_bodyState hR.stableIn hs hs₁
  have hC := compiler_twins hR (realNargs l₁.args) n
  obtain ⟨q, hplain, bs, hleads, hcode, rfl⟩ := twins_compileBody hC _ _ _ _ _ hready hbody
  -- the parameters are the same behind the body
  have hcount : realNargs ar = realNargs l₁.args := by
    have hready₂ := (tidies_compileBody hC.toTidies _ _ _ _ _ hplain hready).1
    rw [← har]
    exact (hready₂.finds l hl).1
  have hregular := regular_body hR.stableIn hready (by rw [hlocals]; exact List.cons_ne_nil _ _)
    hplain
  rw [← hcount] at hcode hregular
  refine ⟨r.reserved, bs, s₁, s₂, ?_, hs₁, hcode ▸ hbody, hplain, hregular, fun p hp => ?_⟩
  · rw [hd, functionCode, ← hcode]
    rfl
  · have hexits := hleads [] [] (by
      simpa using Exits.finish (q := bs.map Block.plain)) p hp
    simpa using hexits

/-- The code of a tail call is in one block. -/
theorem exists_self_of_tailCall {arity : CodePtr → ℕ} {count reserved x : ℕ} {bs : List Block}
    (hreg : Regular arity count (bs.map Block.plain))
    (h : At (functionCode count reserved bs) x (tailCall count)) :
    ∃ p, bs[p]? = some .self ∧ x = 4 + place count bs p := by
  have hsplit : tailCall count = ((List.range count).flatMap (fun i => [.popEax, .storeArgument i])
      ++ [.movEspEbp, .popEbp]) ++ [.jmpHere] := by
    simp [tailCall]
  have hlen := length_tailCall count
  rw [hsplit, List.length_append, List.length_singleton] at hlen
  rw [hsplit, at_append, at_cons] at h
  obtain ⟨p, b, j, hb, hx, hi⟩ :=
    exists_block_of_not_mem h.2.1 (by simp [setup]) (by simp [cleanup])
  cases b with
  | keep i =>
    have hin := hreg.inBody (p := p) (i := i) (by simp [hb, Block.plain])
    obtain rfl : i = .jmpHere := List.mem_singleton.1 (List.mem_of_getElem? hi) ▸ rfl
    cases hin
  | self =>
    -- it is the last instruction of the block
    change (tailCall count)[j]? = some .jmpHere at hi
    have hlt := (List.getElem?_eq_some_iff.1 hi).1
    rw [length_tailCall] at hlt
    have hge : 2 * count + 2 ≤ j := by
      by_contra hj
      rw [hsplit, List.getElem?_append_left (by omega)] at hi
      have hmem := List.mem_of_getElem? hi
      simp at hmem
    exact ⟨p, hb, by omega⟩

/-! ### Runs -/

/-- The frame that was entered in `e` is started again in `r`, as the frame that is entered in `x`
is started. -/
structure StartedAgain (count : ℕ) (e x r : Machine) : Prop where
  pc : r.pc = x.pc
  esp : r.esp = e.esp
  ebp : r.ebp = e.ebp
  kept : ∀ a, Above count e a → r.stack a = e.stack a
  edi : r.edi = x.edi
  heap : r.heap = x.heap
  arguments : ∀ k < count, r.stack (r.esp + 4 + 4 * k) = x.stack (x.esp + 4 + 4 * k)

section Runs

variable (calls : Val → Machine → Machine → Prop) (back : ℕ → Val)
  (ok : Written → Machine → Instr → Prop) (count : ℕ) (d d' : Code)

/-- Where an activation makes a tail call, it is started again as a call would start it. -/
def StartsAgain : Prop :=
  ∀ (e : Machine) w k t x, e.pc = 0 → (selfCalls calls back ok d).Path k (w, e) t →
    At d t.2.pc (tailCall count) → t.2.enter d back = some x →
    ∃ w' r, (selfCalls calls back ok d).Forced (2 * count + 3) t (w', r) ∧
      StartedAgain count e x r

/-- The second function has a run with the same result, for each run of the first one, when it is
called with the same arguments. -/
def SameResults : Prop :=
  ∀ (e e' : Machine) w w' k t, e.pc = 0 → e'.pc = 0 → e.edi = e'.edi → e.heap = e'.heap →
    (∀ k < count, (e.stack (e.esp + 4 + 4 * k)).Like (e'.stack (e'.esp + 4 + 4 * k))) →
    (selfCalls calls back ok d).Ends k (w, e) t →
    ∃ k' t', (selfCalls calls back ok d').Ends k' (w', e') t' ∧ SameResult t t'

variable {calls ok count} {arity : CodePtr → ℕ} {reserved : ℕ} {bs bs' : List Block}

theorem startsAgain (hok : ∀ w m i, i.harmless → ok w m i) (hcalls : Oblivious arity calls)
    (hreg : Regular arity count (bs.map Block.plain)) :
    StartsAgain calls back ok count (functionCode count reserved bs) := by
  rintro e w k ⟨v, m⟩ x he hpath hat hx
  have hgood : Good calls back ok count reserved bs e (v, m) :=
    good_of_start hok he hpath fun _ _ h =>
      good_of_path hok hcalls hreg (running_started hreg) h
  obtain ⟨p, hp, hpc⟩ := exists_self_of_tailCall hreg hat
  have hrun := hgood.running p (List.getElem?_eq_some_iff.1 hp).1 hpc
  obtain ⟨w', r, hf, hr⟩ := restarts calls back v hok hreg hrun hp
  have hbegun := begun_of_enter hx
  refine ⟨w', r, hf, hr.pc.trans hbegun.pc.symm, hr.esp, hr.ebp, fun a ha => ?_,
    hr.edi.trans hbegun.edi.symm, hr.heap.trans hbegun.heap.symm, fun k hk => ?_⟩
  · rw [hr.kept a ha, hrun.kept a ha]
  · rw [hr.arguments k hk, hbegun.arguments k hk]

theorem sameResults (hcalls : Oblivious arity calls)
    (hreg : Regular arity count (bs.map Block.plain))
    (heq : bs'.map Block.plain = bs.map Block.plain)
    (hexits : ∀ p, bs[p]? = some .self → Exits (bs.map Block.plain) (p + 2))
    (hexits' : ∀ p, bs'[p]? = some .self → Exits (bs.map Block.plain) (p + 2)) :
    SameResults calls back (Clean arity reserved) count (functionCode count reserved bs)
      (functionCode count reserved bs') := by
  intro e e' w w' k t he he' hedi hheap hargs hends
  have hok := clean_of_harmless arity reserved
  have hreg' : Regular arity count (bs'.map Block.plain) := heq ▸ hreg
  obtain ⟨-, j, -, hj⟩ := Ends.of_start hok hcalls hreg he hends
  obtain ⟨j', t', ht', hsame⟩ := agree hcalls hreg heq hexits hexits' (running_started hreg)
    (running_started hreg') (similar_started hreg hedi hheap hargs) hj
  exact ⟨_, t', (forced_setup calls back w' count reserved bs' hok he').ends_iff.2
    ⟨j', rfl, ht'⟩, hsame⟩

end Runs

/-- **Tail calls are calls**, in every function: it is started again as a call would start it; and
if every instruction reads what the function has written since it was started, the versions with
and without tail calls have the same results. -/
theorem tailCalls_compiled {arity : CodePtr → ℕ} {calls : Val → Machine → Machine → Prop}
    (hcalls : Oblivious arity calls) (back : ℕ → Val) {R : Runtime} (hR : R.Tame arity) {n : ℕ}
    {args : Word} {closed : Bool} {name : Option String} {path : String} {s s' : State} {ar : Args}
    {l : Local} {c d : Code} (hs : Arities arity s.world)
    (h : compileFunction R (compiler R n) args closed name path s = .ok (ar, l, d) c s') :
    ∃ r q s₁ s₂, d = Routine.code r ∧
      bodyState R (compiler R n) args closed name path s = some s₁ ∧
      compileBody (compiler R n) (s.world.heap.cdr args) true s₁ = .ok () r.body s₂ ∧
      compileBody (compiler R n) (s.world.heap.cdr args) false s₁ = .ok () q s₂ ∧
      StartsAgain calls back (fun _ _ _ => True) (realNargs ar) d ∧
      SameResults calls back (Clean arity r.reserved) (realNargs ar) d
        (Routine.code ⟨r.reserved, q⟩) ∧
      SameResults calls back (Clean arity r.reserved) (realNargs ar)
        (Routine.code ⟨r.reserved, q⟩) d := by
  obtain ⟨reserved, bs, s₁, s₂, rfl, hs₁, hbody, hplain, hreg, hexits⟩ :=
    twins_of_function hR hs h
  have huntail : (bs.map Block.untail).map Block.plain = bs.map Block.plain := plain_untail bs
  have hnone : ∀ p, (bs.map Block.untail)[p]? = some .self →
      Exits (bs.map Block.plain) (p + 2) := by
    intro p hp
    obtain ⟨b, -, hb⟩ := Option.map_eq_some_iff.1 (List.getElem?_map .. ▸ hp)
    cases hb
  have hcode : Routine.code ⟨reserved, bs.map Block.plain⟩ =
      functionCode (realNargs ar) reserved (bs.map Block.untail) := by
    rw [functionCode, bodyCode_untail]
    rfl
  refine ⟨⟨reserved, bodyCode (realNargs ar) bs⟩, bs.map Block.plain, s₁, s₂, rfl, hs₁, hbody,
    hplain, startsAgain back (fun _ _ _ _ => trivial) hcalls hreg, ?_, ?_⟩
  · rw [hcode]
    exact sameResults back hcalls hreg huntail hexits hnone
  · rw [hcode]
    rw [← huntail] at hreg hexits hnone
    exact sameResults back hcalls hreg huntail.symm hnone hexits

/-! ### A tail call that starts with another `eax` -/

section After

variable {calls : Val → Machine → Machine → Prop} {back : ℕ → Val} {P : Code} {w : Written}
  {m m' : Machine} {i : Instr} {k : ℕ}

/-- The machine behind `k` instructions that are not calls. -/
def Machine.after (P : Code) : ℕ → Machine → Option Machine
  | 0, m => some m
  | k + 1, m => do
    let i ← P[m.pc]?
    let m' ← i.exec P m
    m'.after P k

variable (calls back w) in
theorem forced_of_after (h : m.after P k = some m') :
    ∃ w', (selfCalls calls back (fun _ _ _ => True) P).Forced k (w, m) (w', m') := by
  induction k generalizing w m with
  | zero =>
    obtain rfl := Option.some.inj h
    exact ⟨w, .refl _⟩
  | succ k ih =>
    obtain ⟨i, hi, h⟩ := Option.bind_eq_some_iff.1 h
    obtain ⟨m₁, he, h⟩ := Option.bind_eq_some_iff.1 h
    obtain ⟨w', hf⟩ := ih (i.writes w) h
    exact ⟨w', .head (only_of_exec_eq trivial hi he) hf⟩

end After

theorem oblivious_none (arity : CodePtr → ℕ) : Oblivious arity fun _ _ _ => False :=
  ⟨⟨nofun, nofun, nofun⟩, nofun, nofun⟩

theorem arities_state (arity : CodePtr → ℕ) (e : Sexp) : Arities arity e.state.world :=
  List.forall_mem_nil _

theorem tame_inert (arity : CodePtr → ℕ) : Runtime.inert.Tame arity := ⟨nofun, nofun⟩

/-- The parameters and the body of a function, as `defun` compiles them in the environment that is
empty: the number of the words that it finds, and its code. -/
def functionOf (e : Sexp) : Option (ℕ × Code) :=
  (compileFunction .inert (compiler .inert 5) e.heap.2 true (some "f") "" e.state).value.map
    fun r => (realNargs r.1, r.2.2)

/-- The code of its body, with tail calls and without. -/
def bodiesOf (e : Sexp) : Option (Option Code × Option Code) :=
  (bodyState .inert (compiler .inert 5) e.heap.2 true (some "f") "" e.state).map fun s =>
    ((compileBody (compiler .inert 5) (e.heap.1.cdr e.heap.2) true s).code,
      (compileBody (compiler .inert 5) (e.heap.1.cdr e.heap.2) false s).code)

/-- `((a b) (if a (f b nil) b))`, what follows `defun f`. -/
def loopForm : Sexp :=
  .list [.list [.symbol "a", .symbol "b"], .list [.symbol "if", .symbol "a",
    .list [.symbol "f", .symbol "b", .symbol "nil"], .symbol "b"]]

def loopBody (call : Code) : Code :=
  [.loadArgument 0, .cmpEaxNil, .je 0, .movEax (.word nil), .pushEax, .loadArgument 1, .pushEax] ++
    call ++ [.addEsp 8, .jmp 1, .label 0, .loadArgument 1, .label 1]

theorem bodiesOf_loop : bodiesOf loopForm =
    some (some (loopBody (tailCall 2)), some (loopBody [.callHere])) := rfl

theorem functionOf_loop : functionOf loopForm =
    some (2, Routine.code ⟨0, loopBody (tailCall 2)⟩) := rfl

theorem tailCalls_loop :
    functionOf loopForm = some (2, Routine.code ⟨0, loopBody (tailCall 2)⟩) ∧
    bodiesOf loopForm = some (some (loopBody (tailCall 2)), some (loopBody [.callHere])) ∧
    StartsAgain (fun _ _ _ => False) (fun _ => .here) (fun _ _ _ => True) 2
      (Routine.code ⟨0, loopBody (tailCall 2)⟩) ∧
    SameResults (fun _ _ _ => False) (fun _ => .here) (Clean (fun _ => 0) 0) 2
      (Routine.code ⟨0, loopBody (tailCall 2)⟩) (Routine.code ⟨0, loopBody [.callHere]⟩) ∧
    SameResults (fun _ _ _ => False) (fun _ => .here) (Clean (fun _ => 0) 0) 2
      (Routine.code ⟨0, loopBody [.callHere]⟩) (Routine.code ⟨0, loopBody (tailCall 2)⟩) := by
  obtain ⟨⟨ar, l, d⟩, c, s', hok, hd⟩ := Emitted.exists_of_value functionOf_loop
  obtain ⟨hcount, hcode⟩ := Prod.mk.inj hd
  obtain ⟨⟨reserved, body⟩, q, s₁, s₂, rfl, hs₁, htail, hplain, hstart, hto, hfrom⟩ :=
    tailCalls_compiled (oblivious_none fun _ => 0) (fun _ => .here) (tame_inert _)
      (arities_state _ _) hok
  -- these are the bodies
  have hbodies : bodiesOf loopForm = some (some body, some q) := by
    change compileBody _ (loopForm.heap.1.cdr loopForm.heap.2) true s₁ = _ at htail
    change compileBody _ (loopForm.heap.1.cdr loopForm.heap.2) false s₁ = _ at hplain
    rw [bodiesOf, hs₁, Option.map_some, htail, hplain]
    rfl
  rw [bodiesOf_loop] at hbodies
  obtain ⟨hbody, hq⟩ := Prod.mk.inj (Option.some.inj hbodies)
  obtain rfl := Option.some.inj hbody
  obtain rfl := Option.some.inj hq
  obtain rfl : reserved = 0 := by
    have hsub := congrArg (·[3]?) hcode
    simpa [Routine.code, setup] using hsub
  dsimp only at hcount
  rw [hcount] at hstart hto hfrom
  exact ⟨functionOf_loop, bodiesOf_loop, hstart, hto, hfrom⟩

/-- `((a b) (if (progn) (progn) (f 1 t)))`, what follows `defun f`. -/
def leftoverForm : Sexp :=
  .list [.list [.symbol "a", .symbol "b"], .list [.symbol "if", .list [.symbol "progn"],
    .list [.symbol "progn"], .list [.symbol "f", .int 1, .symbol "t"]]]

/-- The code in front of the call, and behind it. -/
def leftoverBody (call : Code) : Code :=
  [.cmpEaxNil, .je 0, .jmp 1, .label 0, .movEax (.word t), .pushEax, .movEax (.word (intval 1)),
    .pushEax] ++ call ++ [.addEsp 8, .label 1]

theorem bodiesOf_leftover : bodiesOf leftoverForm =
    some (some (leftoverBody (tailCall 2)), some (leftoverBody [.callHere])) := rfl

theorem functionOf_leftover : functionOf leftoverForm =
    some (2, Routine.code ⟨0, leftoverBody (tailCall 2)⟩) := rfl

/-- A frame in which `eax` is `nil`. -/
def leftoverFrame : Machine := ⟨0, .word nil, 0, 0, 0, false, fun _ => .word nil, Heap.ofList []⟩

/-- With the call as a tail call, `eax` is `t` when the function is started again. -/
theorem leftover_tail {calls : Val → Machine → Machine → Prop} {back : ℕ → Val} {k : ℕ}
    {w : Written} {y : Written × Machine}
    (h : (selfCalls calls back (fun _ _ _ => True)
      (Routine.code ⟨0, leftoverBody (tailCall 2)⟩)).Ends k (w, leftoverFrame) y) :
    y.2.eax = .word t := by
  obtain ⟨m, hm, heax, hret⟩ : ∃ m,
      leftoverFrame.after (Routine.code ⟨0, leftoverBody (tailCall 2)⟩) 28 = some m ∧
      m.eax = .word t ∧ (Routine.code ⟨0, leftoverBody (tailCall 2)⟩)[m.pc]? = some .ret :=
    ⟨_, rfl, rfl, rfl⟩
  obtain ⟨w', hf⟩ := forced_of_after calls back w hm
  obtain ⟨j, -, hj⟩ := hf.ends_iff.1 h
  rw [eq_of_path_of_ret hret hj.path]
  exact heax

/-- With the call as any other, it is the first argument. -/
theorem leftover_plain (calls : Val → Machine → Machine → Prop) :
    ∃ k y, (selfCalls calls (fun _ => .here) (fun _ _ _ => True)
      (Routine.code ⟨0, leftoverBody [.callHere]⟩)).Ends k (.nothing, leftoverFrame) y ∧
      y.2.eax = .word (intval 1) := by
  -- up to the call
  obtain ⟨m, hm, hcall, x, hx, n, hn, hret, htop, r, hr, hend, heax⟩ : ∃ m,
      leftoverFrame.after (Routine.code ⟨0, leftoverBody [.callHere]⟩) 11 = some m ∧
      (Routine.code ⟨0, leftoverBody [.callHere]⟩)[m.pc]? = some .callHere ∧ ∃ x,
      m.enter (Routine.code ⟨0, leftoverBody [.callHere]⟩) (fun _ => .here) = some x ∧ ∃ n,
      x.after (Routine.code ⟨0, leftoverBody [.callHere]⟩) 10 = some n ∧
      (Routine.code ⟨0, leftoverBody [.callHere]⟩)[n.pc]? = some .ret ∧ n.top = .here ∧ ∃ r,
      ({ n.drop 4 with pc := m.pc + 1 } : Machine).after
        (Routine.code ⟨0, leftoverBody [.callHere]⟩) 4 = some r ∧
      (Routine.code ⟨0, leftoverBody [.callHere]⟩)[r.pc]? = some .ret ∧
      r.eax = .word (intval 1) :=
    ⟨_, rfl, rfl, _, rfl, _, rfl, rfl, rfl, _, rfl, rfl, rfl⟩
  obtain ⟨w₁, hf₁⟩ := forced_of_after calls (fun _ => .here) .nothing hm
  obtain ⟨w₂, hf₂⟩ := forced_of_after calls (fun _ => .here) .nothing hn
  obtain ⟨w₃, hf₃⟩ := forced_of_after calls (fun _ => .here) (Instr.callHere.writes w₁) hr
  have hinner := hf₂.ends_iff.2 ⟨0, rfl, .refl _, hret, trivial⟩
  have hbehind := hf₃.ends_iff.2 ⟨0, rfl, .refl _, hend, trivial⟩
  exact ⟨_, _, hf₁.ends_iff.2 ⟨_, rfl, .call ⟨hcall, hx, rfl⟩ hinner ⟨htop, rfl⟩ hbehind⟩, heax⟩

/-- A function that is started again with another `eax` may have another result. -/
theorem not_sameResults_all : ¬ ∀ (R : Runtime) (n : ℕ) (args : Word) (closed : Bool)
    (name : Option String) (path : String) (s : State) (ar : Args) (l : Local) (r : Routine)
    (q c : Code) (s' s₁ s₂ s₃ : State),
    compileFunction R (compiler R n) args closed name path s = .ok (ar, l, r.code) c s' →
    bodyState R (compiler R n) args closed name path s = some s₁ →
    compileBody (compiler R n) (s.world.heap.cdr args) true s₁ = .ok () r.body s₂ →
    compileBody (compiler R n) (s.world.heap.cdr args) false s₁ = .ok () q s₃ →
    ∀ arity calls back, Oblivious arity calls → ∀ (e : Machine) k y, e.pc = 0 →
      (selfCalls calls back (fun _ _ _ => True) (Routine.code ⟨r.reserved, q⟩)).Ends k
        (.nothing, e) y →
      ∃ j z, (selfCalls calls back (fun _ _ _ => True) r.code).Ends j (.nothing, e) z ∧
        SameResult y z := by
  intro h
  obtain ⟨⟨ar, l, d⟩, c, s', hok, hd⟩ := Emitted.exists_of_value functionOf_leftover
  obtain ⟨-, rfl⟩ := Prod.mk.inj hd
  obtain ⟨s₁, hs₁, hcodes⟩ := Option.map_eq_some_iff.1 bodiesOf_leftover
  obtain ⟨htail, hplain⟩ := Prod.mk.inj hcodes
  obtain ⟨_, s₂, htail⟩ := Emitted.exists_of_code htail
  obtain ⟨_, s₃, hplain⟩ := Emitted.exists_of_code hplain
  obtain ⟨k, y, hy, heax⟩ := leftover_plain fun _ _ _ => False
  obtain ⟨j, z, hz, hlike, -⟩ := h _ _ _ _ _ _ _ _ _ ⟨0, leftoverBody (tailCall 2)⟩ _ _ _ _ _ _ hok
    hs₁ htail hplain (fun _ => 0) _ _ (oblivious_none _) leftoverFrame k y rfl hy
  rw [heax, leftover_tail hz] at hlike
  rcases hlike with heq | ⟨a, b, ha, -⟩
  · exact absurd heq (by decide)
  · cases ha

end Lisp

end Bluejay
