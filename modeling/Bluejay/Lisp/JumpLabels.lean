import Bluejay.Lisp.Emits
import Bluejay.Lisp.Sexp
import Bluejay.Lisp.Traversal

/-!
# The numbers of the jump labels

`nextpc` counts the labels of a function and lets DynASM make room for them.

* `NextpcIn P` : while a function is compiled, `nextpc` is only called in states with `P`: nothing
  changes if it stops in the others.
* `labelsInRange_iff` : each label is below the label count if and only if there are at most eight;
  `nextpc` grows the count one label too late.
-/

namespace Bluejay

namespace Lisp

open Emitter

/-- The label count after the next call of `nextpc`. -/
def labelCount : List Local → ℕ
  | [] => 0
  | l :: _ => l.nextLabel.npc

/-! ### The states in which `nextpc` is called -/

/-- `nextpc`, which stops with `e` in states without `P`. -/
def nextpcOr (P : List Local → Prop) [DecidablePred P] (e : Err) : CompileM ℕ := fun s =>
  if P s.locals then nextpc s else stop e s

/-- While the function `args` is compiled, from the state `s`, its labels are asked for in states
with `P` only: it makes no difference whether `nextpc` stops in the others, and with which error.
The function may fail to compile. -/
def NextpcIn (P : List Local → Prop) [DecidablePred P] (R : Runtime) (n : ℕ) (args : Word)
    (closed : Bool) (name : Option String) (path : String) (s : State) : Prop :=
  ∀ e, compileFunction R (compilerWith (nextpcOr P e) R n) args closed name path s =
    compileFunction R (compiler R n) args closed name path s

/-- Every label that `nextpc` hands out for the function is below the count that was last passed to
`dasm_growpc`. -/
def LabelsInRange (R : Runtime) (n : ℕ) (args : Word) (closed : Bool) (name : Option String)
    (path : String) (s : State) : Prop :=
  NextpcIn (fun L => nextLabel L < labelCount L) R n args closed name path s

/-- `nextpc` is never called for the function when it has handed out eight labels already. -/
def AtMostEightLabels (R : Runtime) (n : ℕ) (args : Word) (closed : Bool) (name : Option String)
    (path : String) (s : State) : Prop :=
  NextpcIn (fun L => nextLabel L < 8) R n args closed name path s

/-! ### The labels of one function -/

/-- At most eight labels were handed out, and the count is the one from the start. -/
def FirstLabels (s : State) : Prop :=
  ∃ l rest, s.locals = l :: rest ∧ l.npc = 8 ∧ l.nextpc ≤ 8

/-- The programs do the same as long as there are at most eight labels. -/
abbrev Joint {α : Type} (m m' : CompileM α) : Prop := Same FirstLabels m m'

section Labels

variable {α : Type} {s s' : State} {l : Local} {L L' : List Local} {k : ℕ}

/-- After `k` labels. -/
theorem nextLabel_iterate (hpc : l.nextpc = 0) (hnpc : l.npc = 8) :
    (Local.nextLabel^[k] l).nextpc = k ∧
      (Local.nextLabel^[k] l).npc = 8 + 16 * ((k + 6) / 16) := by
  induction k with
  | zero => exact ⟨hpc, hnpc⟩
  | succ k ih =>
    rw [Function.iterate_succ_apply', Local.nextLabel]
    dsimp only
    rw [ih.1, ih.2]
    refine ⟨rfl, ?_⟩
    split_ifs <;> omega

/-- The labels that are out of range are 8, 24, 40 and so on. -/
theorem nextLabel_lt_iff (hpc : l.nextpc = 0) (hnpc : l.npc = 8) :
    nextLabel (Local.nextLabel^[k] l :: L) < labelCount (Local.nextLabel^[k] l :: L) ↔
      k % 16 ≠ 8 := by
  have hnext := (nextLabel_iterate (k := k + 1) hpc hnpc).2
  rw [Function.iterate_succ_apply'] at hnext
  rw [nextLabel, labelCount, (nextLabel_iterate hpc hnpc).1, hnext]
  omega

/-- As long as the count is the one from the start, the first eight labels are in range. -/
theorem FirstLabels.lt_iff (h : FirstLabels s) :
    nextLabel s.locals < labelCount s.locals ↔ nextLabel s.locals < 8 := by
  obtain ⟨l, rest, hl, hnpc, hpc⟩ := h
  rw [hl, nextLabel, labelCount, Local.nextLabel]
  dsimp only
  rw [if_neg (by omega), hnpc]

/-- With a label below eight, there are at most eight. -/
theorem FirstLabels.nextpc (h : FirstLabels s) (hlt : nextLabel s.locals < 8) {c : Code}
    (hok : nextpc s = .ok k c s') : FirstLabels s' := by
  obtain ⟨l, rest, hl, hnpc, hpc⟩ := h
  obtain ⟨s₁, hl₁, -, hr⟩ := nextpc_bind (f := pure) hl (bind_ok hok rfl)
  obtain ⟨-, -, rfl⟩ := pure_ok_iff.1 hr
  rw [hl, nextLabel] at hlt
  refine ⟨l.nextLabel, rest, hl₁, ?_, ?_⟩
  · show (if l.nextpc > l.npc then l.npc + 16 else l.npc) = 8
    rw [if_neg (by omega), hnpc]
  · exact hlt

/-- No more than eight labels are handed out if `nextpc` stops at the ninth. -/
theorem joint_nextpcOr_self (e : Err) :
    Joint (nextpcOr (fun L => nextLabel L < 8) e) (nextpcOr (fun L => nextLabel L < 8) e) := by
  refine same_self fun s k c s' hs hok => ?_
  unfold nextpcOr at hok
  split_ifs at hok with hlt
  · exact hs.nextpc hlt hok
  · cases hok

/-- The two conditions for calling `nextpc` are the same, up to the ninth label. -/
theorem joint_nextpcOr (e : Err) : Joint (nextpcOr (fun L => nextLabel L < labelCount L) e)
    (nextpcOr (fun L => nextLabel L < 8) e) := by
  intro s hs
  have heq : nextpcOr (fun L => nextLabel L < labelCount L) e s =
      nextpcOr (fun L => nextLabel L < 8) e s := by
    unfold nextpcOr
    simp only [hs.lt_iff]
  rw [heq]
  exact joint_nextpcOr_self e s hs

/-- A step that leaves the labels of the innermost function as they are. -/
theorem FirstLabels.of_head (h : FirstLabels s)
    (hl : ∀ l rest, s.locals = l :: rest →
      ∃ l' rest', s'.locals = l' :: rest' ∧ l'.npc = l.npc ∧ l'.nextpc = l.nextpc) :
    FirstLabels s' := by
  obtain ⟨l, rest, hs, hnpc, hpc⟩ := h
  obtain ⟨l', rest', hs', hnpc', hpc'⟩ := hl l rest hs
  exact ⟨l', rest', hs', hnpc'.trans hnpc, hpc'.trans_le hpc⟩

theorem Quiet.joint {m : CompileM α} (hm : Quiet m) : Joint m m :=
  same_self fun s a c s' hs hok => hs.of_head fun l rest hl =>
    ⟨l, rest, (hm s a c s' hok).2.trans hl, rfl, rfl⟩

/-- A change of the `struct local`, its labels apart. -/
theorem joint_modifyLocal {g : Local → Local} (hnpc : ∀ l, (g l).npc = l.npc)
    (hpc : ∀ l, (g l).nextpc = l.nextpc) : Joint (modifyLocal g) (modifyLocal g) :=
  same_self fun s _ _ s' hs hok => hs.of_head fun l rest hl => by
    obtain ⟨-, hl'⟩ := modifyLocal_ok hl hok
    exact ⟨g l, rest, hl', hnpc l, hpc l⟩

/-- What captures variables keeps its labels. -/
theorem joint_of_captures {m : CompileM α}
    (h : ∀ s a c s', m s = .ok a c s' → List.Forall₂ Captures s.locals s'.locals) : Joint m m :=
  same_self fun s a c s' hs hok => hs.of_head fun l rest hl => by
    have hcaptures := h s a c s' hok
    rw [hl] at hcaptures
    cases hL : s'.locals with
    | nil =>
      rw [hL] at hcaptures
      cases hcaptures
    | cons l' rest' =>
      rw [hL] at hcaptures
      obtain ⟨⟨vars, -, rfl⟩, -⟩ := List.forall₂_cons.1 hcaptures
      exact ⟨_, rest', rfl, rfl, rfl⟩

theorem joint_lookUp (name : String) : Joint (lookUp name) (lookUp name) :=
  joint_of_captures fun s v c s' hok => by
    obtain ⟨s₁, hl, hr⟩ := lookUp_bind (f := pure) rfl (bind_ok hok rfl)
    obtain ⟨-, -, rfl⟩ := pure_ok_iff.1 hr
    exact hl ▸ captures_findVariable name s.locals

theorem alloc_labels (l : Local) : l.allocSlot.npc = l.npc ∧ l.allocSlot.nextpc = l.nextpc := by
  unfold Local.allocSlot Local.alloc
  split <;> exact ⟨rfl, rfl⟩

theorem joint_localAlloc : Joint localAlloc localAlloc :=
  quiet_getLocal.joint.bind fun _ => (joint_modifyLocal (fun l => (alloc_labels l).1)
    fun l => (alloc_labels l).2).bind fun _ => same_pure _

/-- `walk_and_alloc` asks for no labels. -/
theorem Walks.firstLabels (h : Walks L L') : ∀ l rest, L = l :: rest →
    ∃ l' rest', L' = l' :: rest' ∧ l'.npc = l.npc ∧ l'.nextpc = l.nextpc := by
  induction h with
  | refl => exact fun l rest hl => ⟨l, rest, hl, rfl, rfl⟩
  | trans _ _ ih ih' =>
    intro l rest hl
    obtain ⟨l₁, rest₁, hl₁, hnpc₁, hpc₁⟩ := ih l rest hl
    obtain ⟨l₂, rest₂, hl₂, hnpc₂, hpc₂⟩ := ih' l₁ rest₁ hl₁
    exact ⟨l₂, rest₂, hl₂, hnpc₂.trans hnpc₁, hpc₂.trans hpc₁⟩
  | let1 _ ih =>
    rintro l rest rfl
    obtain ⟨l₁, rest₁, rfl, hnpc, hpc⟩ := ih l.allocSlot rest rfl
    exact ⟨_, rest₁, rfl, hnpc.trans (alloc_labels l).1, hpc.trans (alloc_labels l).2⟩

end Labels

theorem uniform_joint (R : Runtime) : Uniform R @Joint where
  bind := Same.bind
  pure := same_pure
  stop := same_stop
  get := keeps_get.same
  emit := same_emit
  lookUp := joint_lookUp
  allocate o tag := (quiet_allocate R o tag).joint
  callList f list := (quiet_callList R f list).joint
  run p := (quiet_run R p).joint
  linkProgram d := (quiet_linkProgram d).joint
  pushPool pool := (quiet_pushPool pool).joint
  popPool _ := (quiet_modifyWorld _).joint
  noteOccurrence name := (quiet_noteOccurrence name).joint
  localAlloc := joint_localAlloc
  localFree _ := joint_modifyLocal (fun _ => rfl) fun _ => rfl
  addBinder _ _ _ := joint_modifyLocal (fun _ => rfl) fun _ => rfl
  closeBinder := joint_modifyLocal (fun _ => rfl) fun _ => rfl
  setArgs _ := joint_modifyLocal (fun _ => rfl) fun _ => rfl
  resetSlots := joint_modifyLocal (fun _ => rfl) fun _ => rfl

theorem congruence_joint (R : Runtime) : Congruence R @Joint := (uniform_joint R).congruence

/-! ### The functions of the compiler -/

section Functions

variable {R : Runtime} {C C' : Compiler} (hC : C.Related R @Joint C')

include hC

/-- A new function has no labels yet. -/
theorem compileFunction_eq (args : Word) (closed : Bool) (name : Option String) (path : String) :
    compileFunction R C args closed name path = compileFunction R C' args closed name path := by
  funext s
  unfold compileFunction
  rw [bind_of_ok (show (get : CompileM State) s = .ok s [] s from rfl),
    bind_of_ok (show (get : CompileM State) s = .ok s [] s from rfl)]
  dsimp only
  generalize hnew : (Local.new name path :: if closed then s.locals else []) = L
  rw [bind_of_ok (show (modify _ : CompileM Unit) s = .ok () [] { s with locals := L } from rfl),
    bind_of_ok (show (modify _ : CompileM Unit) s = .ok () [] { s with locals := L } from rfl)]
  have hfirst : FirstLabels { s with locals := L } :=
    ⟨Local.new name path, _, hnew.symm, rfl, Nat.zero_le 8⟩
  exact bind_eq (capture_eq ((congruence_joint R).compileFunctionBody hC args _ hfirst).1)

end Functions

section Compiler

variable (R : Runtime) (n : ℕ)

theorem joint_walk (bp : Word) (q : Bool) :
    Joint ((compiler R n).walkAndAlloc bp q) ((compiler R n).walkAndAlloc bp q) :=
  same_self fun _ _ _ _ hs hok => hs.of_head ((compiler_sound R n).walk hok).2.firstLabels

/-- A function in the function at hand has labels of its own. -/
theorem joint_function (v : Word) (closed : Bool) (name : Option String) (path : String) :
    Joint ((compiler R n).compileFunction v closed name path)
      ((compiler R n).compileFunction v closed name path) :=
  joint_of_captures fun _ ⟨_, _, _⟩ _ _ hok =>
    outerOf_of_emits ((compiler_sound R n).function hok).2

/-- Compilers that get the same labels, as long as there are at most eight. -/
theorem joint_compilerWith {next next' : CompileM ℕ} (hnext : Joint next next') :
    (compilerWith next R n).Related R @Joint (compilerWith next' R n) := by
  induction n with
  | zero =>
    show (compiler R 0).Related R @Joint (compiler R 0)
    exact (uniform_joint R).related (joint_function R 0) rfl (joint_walk R 0)
      (fun _ _ => same_stop _) fun _ => same_stop _
  | succ n ih =>
    rw [compilerWith, compilerWith]
    refine (uniform_joint R).related ?_ rfl ?_ ?_ ?_ <;> dsimp only
    · exact joint_function R (n + 1)
    · exact joint_walk R (n + 1)
    · exact (congruence_joint R).compileExpression ih hnext
    · exact (congruence_joint R).compileBackquote ih

variable {R n} {args : Word} {closed : Bool} {name : Option String} {path : String} {s s' : State}

/-- What holds in all states is no condition. -/
theorem nextpcIn_of_forall {P : List Local → Prop} [DecidablePred P] (h : ∀ L, P L) :
    NextpcIn P R n args closed name path s := by
  intro e
  have heq : nextpcOr P e = nextpc := by
    funext t
    exact if_pos (h t.locals)
  rw [heq, compilerWith_nextpc]

/-- A function with at most eight labels that compiles leaves the count as it was. -/
theorem AtMostEightLabels.of_ok (h : AtMostEightLabels R n args closed name path s)
    {ar : Args} {l : Local} {c d : Code}
    (hok : compileFunction R (compiler R n) args closed name path s = .ok (ar, l, d) c s') :
    l.npc = 8 ∧ l.nextpc ≤ 8 := by
  rw [← h .fuel] at hok
  obtain ⟨t, c₁, s₁, c₂, rfl, hg, h₁⟩ := bind_ok_iff.1 hok
  obtain ⟨rfl, rfl, rfl⟩ := get_ok_iff.1 hg
  obtain ⟨_, c₃, s₂, c₄, rfl, hm, h₂⟩ := bind_ok_iff.1 h₁
  obtain ⟨rfl, rfl⟩ := modify_ok_iff.1 hm
  obtain ⟨⟨_, d'⟩, c₅, s₃, c₆, rfl, hb, h₃⟩ := bind_ok_iff.1 h₂
  obtain ⟨hrun, rfl⟩ := capture_ok_iff.1 hb
  have hnew : FirstLabels { s with locals := .new name path :: if closed then s.locals else [] } :=
    ⟨Local.new name path, _, rfl, rfl, Nat.zero_le 8⟩
  have hbody := (congruence_joint R).compileFunctionBody (joint_compilerWith R n
    (joint_nextpcOr_self .fuel)) args
  obtain ⟨l₁, rest₁, hl₁, hlabels⟩ := (hbody _ hnew).2 _ _ _ hrun
  dsimp only at h₃
  obtain ⟨l₂, rest₂, s₄, hl₂, -, h₃⟩ := getLocal_bind hl₁ h₃
  obtain ⟨_, c₈, s₅, c₉, rfl, hm, h₄⟩ := bind_ok_iff.1 h₃
  obtain ⟨hr, -, -⟩ := pure_ok_iff.1 h₄
  obtain ⟨-, rfl, -⟩ : _ = ar ∧ l₂ = l ∧ _ = d := by simpa using hr
  obtain ⟨rfl, -⟩ := List.cons.inj hl₂
  exact hlabels

/-- The labels of a function are all in range exactly if there are at most eight. -/
theorem labelsInRange_iff : LabelsInRange R n args closed name path s ↔
    AtMostEightLabels R n args closed name path s := by
  unfold LabelsInRange AtMostEightLabels NextpcIn
  refine forall_congr' fun e => ?_
  rw [compileFunction_eq (joint_compilerWith R n (joint_nextpcOr e))]

end Compiler

/-- `(() (or t) … (or t))`, with `k` forms. -/
def orBody (k : ℕ) : Sexp :=
  .list (.list [] :: List.replicate k (.list [.symbol "or", .symbol "t"]))

/-- Of nine labels the last one is 8, and with a count of 8 the code is complete. -/
theorem compile_orBody : (compileFunction .inert (compiler .inert 30) (orBody 9).heap.2 false none
    "" (orBody 9).state).value.map (fun r => (r.2.1.npc, decide (Instr.label 8 ∈ r.2.2))) =
      some (8, true) := by decide

/-- **Not all labels are in range.** -/
theorem not_labelsInRange : ¬ ∀ (R : Runtime) (n : ℕ) (args : Word) (closed : Bool)
    (name : Option String) (path : String) (s : State),
    LabelsInRange R n args closed name path s := by
  intro h
  have hstop : (compileFunction .inert (compilerWith
      (nextpcOr (fun L => nextLabel L < labelCount L) .fault) .inert 30) (orBody 9).heap.2 false
      none "" (orBody 9).state).value.map (fun r => (r.2.1.npc, decide (Instr.label 8 ∈ r.2.2))) =
        none := by decide
  rw [h .inert 30 (orBody 9).heap.2 false none "" (orBody 9).state .fault, compile_orBody] at hstop
  cases hstop

end Lisp

end Bluejay
