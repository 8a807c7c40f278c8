import Bluejay.Lib.Outcome
import Bluejay.Lisp.Semantics
import Bluejay.Lisp.StackDiscipline

/-!
# Code that computes

Rules for code in a function, for all that may be chosen by what it calls.

* `Does pre c next k x holds` : wherever the code `c` stands in front of the code `next`, it does
  what `x` does, and leaves its value as `holds` says and `k` more words on the stack.
* `Computes c x` : the code does what `x` does, with the value in `eax`.
* `Implements f x` : the C function `f` does what `x` does with its arguments.
* `computes_if`, `decides_cons`, `collects_cons`, … : one rule for each kind of code.
-/

namespace Bluejay

namespace Lisp

/-- The code `c` stands at the position `p` of the program. -/
def At (P : Code) (p : ℕ) (c : Code) : Prop := c <+: P.drop p

theorem at_cons {P c : Code} {p : ℕ} {i : Instr} :
    At P p (i :: c) ↔ P[p]? = some i ∧ At P (p + 1) c := by
  unfold At
  rw [← List.tail_drop, ← List.head?_drop]
  cases P.drop p with
  | nil => simp
  | cons j d => simp [List.cons_prefix_cons, eq_comm]

theorem at_append {P c c' : Code} {p : ℕ} :
    At P p (c ++ c') ↔ At P p c ∧ At P (p + c.length) c' := by
  induction c generalizing p with
  | nil => simp [At]
  | cons i c ih =>
    rw [List.cons_append, at_cons, at_cons, ih, List.length_cons, and_assoc,
      show p + 1 + c.length = p + (c.length + 1) by omega]

/-- In a program without duplicate labels, a jump leads to the place of its label. -/
theorem goto_eq {P : Code} (hu : stackHeights.LabelsUnique P) {q l : ℕ}
    (hq : P[q]? = some (.label l)) (m : Machine) :
    m.goto P (.label l) = some { m with pc := q } := by
  unfold Machine.goto
  cases hp : P.findIdx? (fun i => decide (i = .label l)) with
  | none =>
    have hnone := List.findIdx?_eq_none_iff.1 hp _ (List.mem_of_getElem? hq)
    simp at hnone
  | some p =>
    obtain ⟨hlt, hget, -⟩ := List.findIdx?_eq_some_iff_getElem.1 hp
    have hp' : P[p]? = some (.label l) := by
      rw [List.getElem?_eq_getElem hlt]
      simpa using hget
    rw [hu.eq hp' rfl hq rfl]
    rfl

section

variable (calls : Val → Machine → Machine → Prop) (count : ℕ) (arguments : ℕ → Word)

/-- The machine runs a function with these arguments. -/
structure Machine.InFrame (m : Machine) : Prop where
  esp : m.esp ≤ m.ebp
  arguments : ∀ k < count, m.stack (argumentAddress m.ebp k) = .word (arguments k)

/-- Control has gone on by `n` instructions, and `k` words have been pushed. -/
structure Machine.Ran (m : Machine) (n k : ℕ) (m' : Machine) : Prop where
  pc : m'.pc = m.pc + n
  esp : m'.esp = m.esp - 4 * k
  ebp : m'.ebp = m.ebp
  stack : ∀ a, m.esp ≤ a → m'.stack a = m.stack a

/-- Wherever `c` stands in front of `next`, it does what `x` does. -/
def Does {α : Type} (pre : Val → Prop) (c next : Code) (k : ℕ) (x : Outcome Heap α)
    (holds : Machine → α → Prop) : Prop :=
  ∀ ⦃P : Code⦄ ⦃m : Machine⦄ ⦃Q : α → Heap → Prop⦄, stackHeights.LabelsUnique P →
    At P m.pc (c ++ next) → m.InFrame count arguments → pre m.eax → x Q m.heap →
    (machine calls P).Inevitably
      (fun m' => m.Ran c.length k m' ∧ ∃ a, holds m' a ∧ Q a m'.heap) m

/-- The value is in `eax`. -/
def Machine.InEax (m : Machine) (w : Word) : Prop := m.eax = .word w

/-- The words are on top of the stack. -/
def Machine.OnStack (m : Machine) (vs : List Word) : Prop :=
  ∀ (i : ℕ) v, vs[i]? = some v → m.stack (m.esp + 4 * i) = .word v

/-- `n` arguments are on top of the stack. -/
def Machine.Passed (n : ℕ) (m : Machine) (vs : List Word) : Prop := m.OnStack vs ∧ vs.length = n

/-- The list that has been made is on top of the stack. -/
def Machine.OnTop (m : Machine) (r : List Word × Word) : Prop := m.OnStack [r.2]

/-- The code does what `x` does, with the value in `eax`. -/
abbrev Computes (c : Code) (x : Outcome Heap Word) : Prop :=
  Does calls count arguments (fun _ => True) c [] 0 x Machine.InEax

/-- A call of the C function `f` does what `x` does with the words on the stack. -/
def Implements (f : Extern) (x : List Word → Outcome Heap Word) : Prop :=
  ∀ ⦃m : Machine⦄ ⦃vs : List Word⦄ ⦃Q : Word → Heap → Prop⦄, m.OnStack vs → x vs Q m.heap →
    (∃ m', calls (.entry f) m m') ∧ ∀ m', calls (.entry f) m m' → m'.esp = m.esp ∧
      m'.ebp = m.ebp ∧ (∀ a, m.esp + 4 * vs.length ≤ a → m'.stack a = m.stack a) ∧
      ∃ w, m'.eax = .word w ∧ Q w m'.heap

end

/-- What `cons` does. -/
def consOf : List Word → Outcome Heap Word
  | [car, cdr] => cell car cdr
  | _ => .fail

section Steps

variable {calls : Val → Machine → Machine → Prop} {P : Code} {m m₁ : Machine} {i : Instr}
  {Q : Machine → Prop}

/-- The next instruction is not a call. -/
theorem inevitably_exec (hi : P[m.pc]? = some i) (he : i.exec P m = some m₁)
    (hc : i.callee m = none) (h : (machine calls P).Inevitably Q m₁) :
    (machine calls P).Inevitably Q m := by
  refine .of_step (l := i) ⟨hi, .inl he⟩ ?_ h
  rintro j m₂ ⟨hj, hstep⟩
  obtain rfl : i = j := Option.some.inj (hi.symm.trans hj)
  rcases hstep with hexec | ⟨f, m₃, hf, -⟩
  · exact Option.some.inj (hexec.symm.trans he)
  · rw [hc] at hf
    cases hf

/-- The next instruction jumps to the label at `q`. -/
theorem inevitably_jump {q l : ℕ} (hu : stackHeights.LabelsUnique P)
    (hq : P[q]? = some (.label l)) (hi : P[m.pc]? = some i)
    (he : i.exec P m = m.goto P (.label l)) (hc : i.callee m = none)
    (h : (machine calls P).Inevitably Q { m with pc := q + 1 }) :
    (machine calls P).Inevitably Q m := by
  refine inevitably_exec hi (he.trans (goto_eq hu hq m)) hc ?_
  exact inevitably_exec hq rfl rfl h

/-- The next instruction calls the C function `f`. -/
theorem inevitably_call {f : Extern} {x : List Word → Outcome Heap Word} {vs : List Word}
    {K : Word → Heap → Prop} (hf : Implements calls f x) (hi : P[m.pc]? = some (.call f))
    (hvs : m.OnStack vs) (hx : x vs K m.heap)
    (h : ∀ m₁ w, m₁.pc = m.pc + 1 → m₁.esp = m.esp → m₁.ebp = m.ebp →
      (Cdecl calls → m₁.edi = m.edi) →
      (∀ a, m.esp + 4 * vs.length ≤ a → m₁.stack a = m.stack a) → m₁.eax = .word w →
      K w m₁.heap → (machine calls P).Inevitably Q m₁) : (machine calls P).Inevitably Q m := by
  obtain ⟨⟨m', hm'⟩, hall⟩ := hf hvs hx
  refine .step ⟨.call f, { m' with pc := m.pc + 1 }, hi, .inr ⟨_, m', rfl, hm', rfl⟩⟩ ?_
  rintro j m₂ ⟨hj, hstep⟩
  obtain rfl : .call f = j := Option.some.inj (hi.symm.trans hj)
  rcases hstep with hexec | ⟨g, m₃, hg, hcall, rfl⟩
  · cases hexec
  · cases hg
    obtain ⟨hesp, hebp, hstack, w, heax, hK⟩ := hall m₃ hcall
    have hedi : Cdecl calls → m₃.edi = m.edi := fun hc => hc.edi hcall
    exact h _ w rfl hesp hebp hedi hstack heax hK

end Steps

section Rules

variable {calls : Val → Machine → Machine → Prop} {count : ℕ} {arguments : ℕ → Word}
  {m m₁ m₂ : Machine} {n n' k k' : ℕ} {c c₁ c₂ c₃ next : Code} {x y z : Outcome Heap Word}

theorem Machine.Ran.refl (m : Machine) : m.Ran 0 0 m := ⟨rfl, by simp, rfl, fun _ _ => rfl⟩

theorem Machine.Ran.trans (h : m.Ran n k m₁) (h' : m₁.Ran n' k' m₂) :
    m.Ran (n + n') (k + k') m₂ := by
  have hesp := h.esp
  refine ⟨by rw [h'.pc, h.pc, Nat.add_assoc], ?_, h'.ebp.trans h.ebp, fun a ha => ?_⟩
  · rw [h'.esp, hesp]
    push_cast
    ring
  · exact (h'.stack a (by omega)).trans (h.stack a ha)

/-- Code that runs in a function leaves its arguments. -/
theorem Machine.Ran.inFrame (h : m.Ran n k m₁) (hm : m.InFrame count arguments) :
    m₁.InFrame count arguments := by
  have hesp := h.esp
  have hle := hm.esp
  refine ⟨by rw [h.ebp]; omega, fun j hj => ?_⟩
  have ha : m.esp ≤ argumentAddress m.ebp j := by
    unfold argumentAddress
    omega
  rw [h.ebp, h.stack _ ha]
  exact hm.arguments j hj

/-- Control goes elsewhere without touching the stack. -/
theorem Machine.Ran.goes (h : m.Ran n k m₁) (hpc : m₂.pc = m.pc + n') (hesp : m₂.esp = m₁.esp)
    (hebp : m₂.ebp = m₁.ebp) (hstack : m₂.stack = m₁.stack) : m.Ran n' k m₂ :=
  ⟨hpc, hesp.trans h.esp, hebp.trans h.ebp, fun a ha => by rw [hstack, h.stack a ha]⟩

theorem ran_of_eq (hpc : m₁.pc = m.pc + n) (hesp : m₁.esp = m.esp) (hebp : m₁.ebp = m.ebp)
    (hstack : m₁.stack = m.stack) : m.Ran n 0 m₁ :=
  (Machine.Ran.refl m).goes hpc hesp hebp hstack

theorem ran_push (m : Machine) (x : Val) : m.Ran 1 1 (m.push x).next :=
  ⟨rfl, by simp, rfl, fun a ha => Function.update_of_ne (by omega) _ _⟩

theorem Machine.OnStack.ran {vs : List Word} (h : m.OnStack vs) (hr : m.Ran n 0 m₁) :
    m₁.OnStack vs := by
  intro i v hi
  have hesp : m₁.esp = m.esp := by simp [hr.esp]
  rw [hesp, hr.stack _ (by omega)]
  exact h i v hi

theorem Machine.OnStack.push {vs : List Word} (h : m.OnStack vs) (v : Word) :
    (m.push (.word v)).next.OnStack (v :: vs) := by
  intro i w hi
  cases i with
  | zero =>
    obtain rfl : v = w := by simpa using hi
    simp
  | succ i =>
    have hne : m.esp - 4 + 4 * ((i + 1 : ℕ) : ℤ) ≠ m.esp - 4 := by omega
    show Function.update m.stack (m.esp - 4) _ (m.esp - 4 + 4 * ((i + 1 : ℕ) : ℤ)) = _
    rw [Function.update_of_ne hne, ← h i w (by simpa using hi)]
    congr 1
    push_cast
    ring

/-- `push eax`, with a value in `eax`. -/
theorem exec_pushEax (P : Code) {v : Word} (h : m.InEax v) :
    Instr.pushEax.exec P m = some (m.push (.word v)).next := by
  rw [← show m.eax = .word v from h]
  rfl

theorem computes_movEax (w : Word) : Computes calls count arguments [.movEax (.word w)] (pure w) := by
  intro P m Q hu hat hm _ hx
  exact inevitably_exec (at_cons.1 hat).1 rfl rfl
    (.now ⟨ran_of_eq rfl rfl rfl rfl, w, rfl, hx⟩)

theorem computes_loadArgument {j : ℕ} (hj : j < count) :
    Computes calls count arguments [.loadArgument j] (pure (arguments j)) := by
  intro P m Q hu hat hm _ hx
  exact inevitably_exec (at_cons.1 hat).1 rfl rfl
    (.now ⟨ran_of_eq rfl rfl rfl rfl, arguments j, hm.arguments j hj, hx⟩)

/-- The code of `if`: the code `c₃` is only reached with `nil` in `eax`. -/
theorem computes_if (l l' : ℕ) (h₁ : Computes calls count arguments c₁ x)
    (h₂ : Computes calls count arguments c₂ y)
    (h₃ : Does calls count arguments (· = .word nil) c₃ [] 0 z Machine.InEax) :
    Computes calls count arguments
      (c₁ ++ [.cmpEaxNil, .je l] ++ c₂ ++ [.jmp l', .label l] ++ c₃ ++ [.label l'])
      (do if (← x) = nil then z else y) := by
  intro P m Q hu hat hm hpre hx
  simp only [at_append, at_cons, List.length_append, List.length_cons, List.length_nil,
    List.append_nil] at hat
  obtain ⟨⟨⟨⟨⟨hat₁, hcmp, hje, -⟩, hat₂⟩, hjmp, hlabel, -⟩, hat₃⟩, hend, -⟩ := hat
  refine (h₁ hu (by simpa using hat₁) hm trivial hx).trans ?_
  rintro m₁ ⟨hran₁, w, hw, hbranch⟩
  have hpc₁ := hran₁.pc
  have hm₁ := hran₁.inFrame hm
  refine inevitably_exec (by rwa [hpc₁]) rfl rfl ?_
  have hje' : P[m₁.pc + 1]? = some (.je l) := by rwa [hpc₁]
  by_cases hnil : w = nil
  · -- to the label `l`, and through `c₃` to the end
    rw [if_pos hnil] at hbranch
    have heax : m₁.eax = .word nil := by rw [← hnil]; exact hw
    refine inevitably_jump hu hlabel hje' (if_pos (decide_eq_true heax)) rfl ?_
    set m₂ : Machine := { m₁ with
      zf := decide (m₁.eax = .word nil)
      pc := m.pc + (c₁.length + (0 + 1 + 1) + c₂.length) + 1 + 1 } with hm₂
    have hran₂ : m₁.Ran (c₂.length + 4) 0 m₂ := ran_of_eq (by simp [hm₂]; omega) rfl rfl rfl
    refine (h₃ hu (by simpa [hm₂, Nat.add_assoc] using hat₃) (hran₂.inFrame hm₁) heax
      hbranch).trans ?_
    rintro m₃ ⟨hran₃, v, hv, hQ⟩
    have hran := (hran₁.trans hran₂).trans hran₃
    refine inevitably_exec (i := .label l') ?_ rfl rfl (.now ⟨?_, v, hv, hQ⟩)
    · rw [hran.pc, ← hend]
      congr 1
      omega
    · refine hran.goes ?_ rfl rfl rfl
      simp only [Machine.next_pc, hran.pc, List.length_append, List.length_cons, List.length_nil]
      omega
  · -- through `c₂`, and to the end
    rw [if_neg hnil] at hbranch
    have heax : m₁.eax ≠ .word nil := by
      rw [show m₁.eax = .word w from hw]
      simpa using hnil
    refine inevitably_exec hje' (if_neg (by simpa using heax)) rfl ?_
    set m₂ : Machine := { m₁ with
      zf := decide (m₁.eax = .word nil)
      pc := m₁.pc + 1 + 1 } with hm₂
    have hran₂ : m₁.Ran 2 0 m₂ := ran_of_eq rfl rfl rfl rfl
    refine (h₂ hu (by simpa [hm₂, hpc₁, Nat.add_assoc] using hat₂) (hran₂.inFrame hm₁) trivial
      hbranch).trans ?_
    rintro m₃ ⟨hran₃, v, hv, hQ⟩
    have hran := (hran₁.trans hran₂).trans hran₃
    refine inevitably_jump (i := .jmp l') hu hend ?_ rfl rfl (.now ⟨?_, v, hv, hQ⟩)
    · rw [hran.pc, ← hjmp]
    · refine hran.goes ?_ rfl rfl rfl
      simp only [List.length_append, List.length_cons, List.length_nil]
      omega

/-- The last expression of `and` or `or`. -/
theorem Computes.weaken (h : Computes calls count arguments c x) (next : Code) :
    Does calls count arguments (fun _ => True) c next 0 x Machine.InEax := by
  intro P m Q hu hat hm _ hx
  exact h hu (by simpa using (at_append.1 hat).1) hm trivial hx

/-- The jump behind an expression of `and` or `or`. -/
theorem exec_decide (P : Code) (or : Bool) (after : ℕ) {w : Word} (hz : m.zf = decide (w = nil)) :
    (if or then Instr.jne after else .je after).exec P m =
      if (or ↔ w ≠ nil) then m.goto P (.label after) else some m.next := by
  by_cases hw : w = nil
  · cases or <;> simp [Instr.exec, hz, hw]
  · cases or <;> simp [Instr.exec, hz, hw]

theorem callee_decide (or : Bool) (after : ℕ) :
    (if or then Instr.jne after else .je after).callee m = none := by
  cases or <;> rfl

/-- An expression of `and` or `or` that is not the last one: its value decides, or the code goes
on. -/
theorem decides_cons (or : Bool) (after : ℕ) (h₁ : Computes calls count arguments c₁ x)
    (h₂ : Does calls count arguments (fun _ => True) c₂ [.label after] 0 y Machine.InEax) :
    Does calls count arguments (fun _ => True)
      (c₁ ++ ([.cmpEaxNil, if or then .jne after else .je after] ++ c₂)) [.label after] 0
      (do
        let v ← x
        if (or ↔ v ≠ nil) then pure v else y) Machine.InEax := by
  intro P m Q hu hat hm _ hx
  simp only [at_append, at_cons, List.length_append, List.length_cons, List.length_nil] at hat
  obtain ⟨⟨hat₁, ⟨hcmp, hjump, -⟩, hat₂⟩, hlabel, -⟩ := hat
  refine (h₁ hu (by simpa using hat₁) hm trivial hx).trans ?_
  rintro m₁ ⟨hran₁, w, hw, hbranch⟩
  have hm₁ := hran₁.inFrame hm
  have hz : decide (m₁.eax = .word nil) = decide (w = nil) := by
    rw [show m₁.eax = .word w from hw]
    simp
  rw [← hran₁.pc] at hcmp hjump
  refine inevitably_exec hcmp rfl rfl ?_
  have hjump' : P[m₁.pc + 1]? = some (if or then .jne after else .je after) := hjump
  by_cases hdecides : or ↔ w ≠ nil
  · -- to the label
    rw [if_pos hdecides] at hbranch
    refine inevitably_exec hjump' (((exec_decide P or after hz).trans (if_pos hdecides)).trans
      (goto_eq hu hlabel _)) (callee_decide or after) (.now
        ⟨hran₁.goes ?_ rfl rfl rfl, w, hw, hbranch⟩)
    simp only [List.length_append, List.length_cons, List.length_nil]
  · rw [if_neg hdecides] at hbranch
    refine inevitably_exec hjump' ((exec_decide P or after hz).trans (if_neg hdecides))
      (callee_decide or after) ?_
    set m₂ : Machine := { m₁ with
      zf := decide (m₁.eax = .word nil)
      pc := m₁.pc + 1 + 1 } with hm₂
    have hran₂ : m₁.Ran 2 0 m₂ := ran_of_eq rfl rfl rfl rfl
    have hat₂' : At P m₂.pc (c₂ ++ [.label after]) := by
      refine at_append.2 ⟨?_, at_cons.2 ⟨?_, List.nil_prefix⟩⟩
      · simpa [hm₂, hran₁.pc, Nat.add_assoc] using hat₂
      · rw [← hlabel]
        congr 1
        simp only [hm₂, hran₁.pc]
        omega
    refine (h₂ hu hat₂' (hran₂.inFrame hm₁) trivial hbranch).trans ?_
    rintro m₃ ⟨hran₃, v, hv, hQ⟩
    refine .now ⟨?_, v, hv, hQ⟩
    have hran := (hran₁.trans hran₂).trans hran₃
    refine hran.goes ?_ rfl rfl rfl
    simp only [hran.pc, List.length_append, List.length_cons, List.length_nil]
    omega

theorem computes_andOr {after : ℕ}
    (h : Does calls count arguments (fun _ => True) c [.label after] 0 x Machine.InEax) :
    Computes calls count arguments (c ++ [.label after]) x := by
  intro P m Q hu hat hm _ hx
  rw [List.append_nil] at hat
  refine (h hu hat hm trivial hx).trans ?_
  rintro m₁ ⟨hran₁, w, hw, hQ⟩
  refine inevitably_exec (i := .label after) ?_ rfl rfl (.now ⟨?_, w, hw, hQ⟩)
  · rw [hran₁.pc]
    exact (at_cons.1 (at_append.1 hat).2).1
  · refine hran₁.goes ?_ rfl rfl rfl
    simp only [Machine.next_pc, hran₁.pc, List.length_append, List.length_singleton]
    omega

/-- One expression of `progn`, and the others. -/
theorem computes_seq (h₁ : Computes calls count arguments c₁ x)
    (h₂ : Computes calls count arguments c₂ y) :
    Computes calls count arguments (c₁ ++ c₂) (do let _ ← x; y) := by
  intro P m Q hu hat hm _ hx
  rw [List.append_nil, at_append] at hat
  refine (h₁ hu (by simpa using hat.1) hm trivial hx).trans ?_
  rintro m₁ ⟨hran₁, w, -, hy⟩
  refine (h₂ hu (by simpa [hran₁.pc] using hat.2) (hran₁.inFrame hm) trivial hy).mono ?_
  rintro m₂ ⟨hran₂, hQ⟩
  rw [List.length_append]
  exact ⟨hran₁.trans hran₂, hQ⟩

theorem collects_nil : Does calls count arguments (fun _ => True) [.push (.word nil)] [] 1
    (pure ([], nil)) Machine.OnTop := by
  intro P m Q hu hat hm _ hx
  have hempty : m.OnStack [] := by
    intro i v hi
    cases hi
  exact inevitably_exec (at_cons.1 hat).1 rfl rfl
    (.now ⟨ran_push m _, ([], nil), hempty.push nil, hx⟩)

/-- One more cell of a list that is made. -/
theorem collects_cons {xs : Outcome Heap (List Word × Word)} (hcons : Implements calls .cons consOf)
    (h₁ : Does calls count arguments (fun _ => True) c₁ [] 1 xs Machine.OnTop)
    (h₂ : Computes calls count arguments c₂ y) :
    Does calls count arguments (fun _ => True) (c₁ ++ (c₂ ++ consCode)) [] 1
      (do
        let (vs, tail) ← xs
        let v ← y
        return (v :: vs, ← cell v tail)) Machine.OnTop := by
  intro P m Q hu hat hm _ hx
  simp only [at_append, at_cons, consCode, List.append_nil] at hat
  obtain ⟨hat₁, hat₂, hpush, hcall, hadd, hpush', -⟩ := hat
  refine (h₁ hu (by simpa using hat₁) hm trivial hx).trans ?_
  rintro m₁ ⟨hran₁, ⟨vs, tail⟩, htop, hy⟩
  rw [← hran₁.pc] at hat₂ hpush hcall hadd hpush'
  refine (h₂ hu (by simpa using hat₂) (hran₁.inFrame hm) trivial hy).trans ?_
  rintro m₂ ⟨hran₂, v, hv, hcell⟩
  rw [← hran₂.pc] at hpush hcall hadd hpush'
  have hargs : (m₂.push (.word v)).next.OnStack [v, tail] := (htop.ran hran₂).push v
  refine inevitably_exec hpush (exec_pushEax P hv) rfl ?_
  refine inevitably_call hcons hcall hargs hcell fun m₃ w hpc hesp hebp _ hstack hw hQ => ?_
  have hpc₃ : m₃.pc = m₂.pc + 1 + 1 := hpc
  rw [← hpc₃] at hadd hpush'
  refine inevitably_exec hadd rfl rfl (inevitably_exec hpush' (exec_pushEax P hw) rfl ?_)
  have hran := hran₁.trans hran₂
  have hpc₂ := hran.pc
  have hesp₂ := hran.esp
  have hesp₃ : m₃.esp = m₂.esp - 4 := hesp
  -- both words have been popped
  have hpopped : m.Ran (c₁.length + (c₂.length + 3)) 0 (m₃.drop 8).next := by
    refine ⟨?_, ?_, hebp.trans hran.ebp, fun a ha => ?_⟩
    · show m₃.pc + 1 = _
      omega
    · show m₃.esp + (8 : ℕ) = _
      push_cast at hesp₂ ⊢
      omega
    · show m₃.stack a = _
      have hle : m₂.esp - 4 + 4 * (([v, tail] : List Word).length : ℤ) ≤ a := by
        simp only [List.length_cons, List.length_nil]
        push_cast at hesp₂ ⊢
        omega
      rw [hstack a hle, ← hran.stack a ha]
      exact Function.update_of_ne (by push_cast at hesp₂; omega) _ _
  refine .now ⟨?_, (v :: vs, w), ?_, hQ⟩
  · simpa [consCode, Nat.add_assoc] using hpopped.trans (ran_push _ (.word w))
  · have hempty : (m₃.drop 8).next.OnStack [] := by
      intro i v hi
      cases hi
    exact hempty.push w

theorem computes_list {xs : Outcome Heap (List Word × Word)}
    (h : Does calls count arguments (fun _ => True) c [] 1 xs Machine.OnTop) :
    Computes calls count arguments (c ++ [.popEax]) (do return (← xs).2) := by
  intro P m Q hu hat hm _ hx
  rw [List.append_nil, at_append] at hat
  refine (h hu (by simpa using hat.1) hm trivial hx).trans ?_
  rintro m₁ ⟨hran₁, ⟨vs, w⟩, htop, hQ⟩
  have hpop := (at_cons.1 hat.2).1
  rw [← hran₁.pc] at hpop
  refine inevitably_exec hpop rfl rfl (.now ⟨⟨?_, ?_, hran₁.ebp, hran₁.stack⟩, w, ?_, hQ⟩)
  · show m₁.pc + 1 = _
    rw [hran₁.pc, List.length_append, List.length_singleton, Nat.add_assoc]
  · show m₁.esp + (4 : ℕ) = _
    rw [hran₁.esp]
    push_cast
    ring
  · show m₁.stack m₁.esp = _
    simpa using htop 0 w rfl

theorem passes_nil : Does calls count arguments (fun _ => True) [] [] 0 (pure [])
    (Machine.Passed 0) := by
  intro P m Q hu hat hm _ hx
  refine .now ⟨.refl m, [], ⟨?_, rfl⟩, hx⟩
  intro i v hi
  cases hi

/-- One more argument. -/
theorem passes_cons {xs : Outcome Heap (List Word)}
    (h₁ : Does calls count arguments (fun _ => True) c₁ [] n xs (Machine.Passed n))
    (h₂ : Computes calls count arguments c₂ y) :
    Does calls count arguments (fun _ => True) (c₁ ++ (c₂ ++ [.pushEax])) [] (n + 1)
      (do
        let vs ← xs
        return (← y) :: vs) (Machine.Passed (n + 1)) := by
  intro P m Q hu hat hm _ hx
  simp only [at_append, at_cons, List.append_nil] at hat
  obtain ⟨hat₁, hat₂, hpush, -⟩ := hat
  refine (h₁ hu (by simpa using hat₁) hm trivial hx).trans ?_
  rintro m₁ ⟨hran₁, vs, ⟨hvs, hlen⟩, hy⟩
  rw [← hran₁.pc] at hat₂ hpush
  refine (h₂ hu (by simpa using hat₂) (hran₁.inFrame hm) trivial hy).trans ?_
  rintro m₂ ⟨hran₂, v, hv, hQ⟩
  rw [← hran₂.pc] at hpush
  refine inevitably_exec hpush (exec_pushEax P hv) rfl
    (.now ⟨?_, v :: vs, ⟨(hvs.ran hran₂).push v, by simp [hlen]⟩, hQ⟩)
  simpa [Nat.add_assoc] using (hran₁.trans hran₂).trans (ran_push _ (.word v))

/-- A call of a C function. -/
theorem computes_call {xs : Outcome Heap (List Word)} {f : Extern}
    {F : List Word → Outcome Heap Word} (hf : Implements calls f F)
    (h : Does calls count arguments (fun _ => True) c [] n xs (Machine.Passed n)) :
    Computes calls count arguments (c ++ [.call f, .addEsp (n * 4)]) (do F (← xs)) := by
  intro P m Q hu hat hm _ hx
  simp only [at_append, at_cons, List.append_nil] at hat
  obtain ⟨hat₁, hcall, hadd, -⟩ := hat
  refine (h hu (by simpa using hat₁) hm trivial hx).trans ?_
  rintro m₁ ⟨hran₁, vs, ⟨hvs, hlen⟩, hF⟩
  have hpc₁ := hran₁.pc
  have hesp₁ := hran₁.esp
  rw [← hpc₁] at hcall hadd
  refine inevitably_call hf hcall hvs hF fun m₂ w hpc hesp hebp _ hstack hw hQ => ?_
  rw [← hpc] at hadd
  refine inevitably_exec hadd rfl rfl (.now ⟨⟨?_, ?_, hebp.trans hran₁.ebp, ?_⟩, w, hw, hQ⟩)
  · show m₂.pc + 1 = _
    simp only [List.length_append, List.length_cons, List.length_nil]
    omega
  · show m₂.esp + ((n * 4 : ℕ) : ℤ) = _
    push_cast
    omega
  · intro a ha
    show m₂.stack a = _
    rw [hstack a (by rw [hlen]; omega), hran₁.stack a ha]

end Rules

end Lisp

end Bluejay
