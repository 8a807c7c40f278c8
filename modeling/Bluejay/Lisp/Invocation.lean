import Bluejay.Lisp.Image

/-!
# Code in an invocation

Rules for the code of a function's body, for all that may be chosen by what it calls.

* `Invocation`, `Values` : a call that is being run, and the values of its variables.
* `Machine.Holds A fr` : the machine is in the invocation, with these values.
* `Stacks x holds` : the code does what `x` does, and leaves words on the stack.
* `Yields tail x` : the code does what `x` does, with the value in `eax`.  Code in tail position
  may also leave the invocation, with the value in `eax`.
* `yields_if`, `yields_let1`, `yields_call`, `yields_tailCall`, … : one rule for each kind of code.
* `serves_succ` : the code of a whole function.
-/

namespace Bluejay

namespace Lisp

/-- A call that is being run. -/
structure Invocation where
  /-- The program. -/
  self : ℕ
  /-- The address of its frame, and the number of slots in it. -/
  base : ℤ
  reserved : ℕ
  /-- The number of words that it was passed. -/
  count : ℕ
  /-- The address of the frame of the caller. -/
  caller : ℤ
  /-- The program and the instruction that it returns to. -/
  backTo : ℕ × ℕ

/-- The values of the variables.  The slots are those of the enclosing `let1` forms. -/
structure Values where
  arguments : List Word
  slots : List Word

section Invocation

variable (calls : Val → Machine → Machine → Prop) (back : ℕ → ℕ → Val) (programs : List Code)
  (A : Invocation) (fr : Values)

/-- The machine is in the invocation, with these values of the variables. -/
structure Machine.Holds (m : Machine) : Prop where
  ebp : m.ebp = A.base
  esp : m.esp ≤ A.base - 4 * A.reserved
  caller : m.stack A.base = .address A.caller
  back : m.stack (A.base + 4) = back A.backTo.1 A.backTo.2
  depth : fr.slots.length ≤ A.reserved
  arguments : ∀ (k : ℕ) w, fr.arguments[k]? = some w →
    m.stack (argumentAddress A.base k) = .word w
  slots : ∀ (k : ℕ) w, fr.slots[k]? = some w → m.stack (slotAddress A.base k) = .word w

/-- The address of a slot that is not in use. -/
def Free (a : ℤ) : Prop := ∃ k, fr.slots.length ≤ k ∧ k < A.reserved ∧ a = slotAddress A.base k

/-- Control has gone on by `n` instructions, `k` words have been pushed, and slots that were not in
use may have changed. -/
structure Machine.Went (m : Machine) (n k : ℕ) (m' : Machine) : Prop where
  pc : m'.pc = m.pc + n
  esp : m'.esp = m.esp - 4 * k
  ebp : m'.ebp = m.ebp
  stack : ∀ a, m.esp ≤ a → ¬ Free A fr a → m'.stack a = m.stack a

/-- Control is behind the code. -/
structure Behind {α : Type} (m : Machine) (n k : ℕ) (holds : Machine → α → Prop)
    (Q : α → Heap → Prop) (s : ℕ × Machine) : Prop where
  self : s.1 = A.self
  went : m.Went A fr n k s.2
  value : ∃ a, holds s.2 a ∧ Q a s.2.heap

/-- The invocation has been left. -/
structure Exited (m : Machine) (Q : Word → Heap → Prop) (s : ℕ × Machine) : Prop where
  program : s.1 = A.backTo.1
  pc : s.2.pc = A.backTo.2
  esp : s.2.esp = A.base + 8
  ebp : s.2.ebp = A.caller
  stack : ∀ a, A.base + 8 + 4 * A.count ≤ a → s.2.stack a = m.stack a
  value : ∃ w, s.2.eax = .word w ∧ Q w s.2.heap

/-- Wherever `c` stands in front of `next` in the program, it does what `x` does, and leaves `k`
more words on the stack. -/
def Stacks {α : Type} (c next : Code) (k : ℕ) (x : Outcome Heap α) (holds : Machine → α → Prop) :
    Prop :=
  ∀ ⦃P : Code⦄ ⦃m : Machine⦄ ⦃Q : α → Heap → Prop⦄, programs[A.self]? = some P →
    stackHeights.LabelsUnique P → At P m.pc (c ++ next) → m.Holds back A fr → x Q m.heap →
    (image calls back programs).Inevitably (Behind A fr m c.length k holds Q) (A.self, m)

/-- The same for a value in `eax`.  In tail position the code may leave the invocation. -/
def Yields (tail : Bool) (pre : Val → Prop) (c next : Code) (x : Outcome Heap Word) : Prop :=
  ∀ ⦃P : Code⦄ ⦃m : Machine⦄ ⦃Q : Word → Heap → Prop⦄, programs[A.self]? = some P →
    stackHeights.LabelsUnique P → At P m.pc (c ++ next) → m.Holds back A fr → pre m.eax →
    x Q m.heap → (image calls back programs).Inevitably
      (fun s => Behind A fr m c.length 0 Machine.InEax Q s ∨ tail = true ∧ Exited A m Q s)
      (A.self, m)

end Invocation

section Rules

variable {calls : Val → Machine → Machine → Prop} {back : ℕ → ℕ → Val} {programs : List Code}
  {A : Invocation} {fr : Values} {P c c₁ c₂ c₃ next : Code} {m m₁ m₂ : Machine} {n n' k k' : ℕ}
  {x y z : Outcome Heap Word} {tail : Bool} {pre : Val → Prop} {w : Word} {s : ℕ × Machine}
  {Q : Word → Heap → Prop}

/-! ### On the way -/

theorem Machine.Went.refl (m : Machine) : m.Went A fr 0 0 m :=
  ⟨rfl, by simp, rfl, fun _ _ _ => rfl⟩

theorem Machine.Went.trans (h : m.Went A fr n k m₁) (h' : m₁.Went A fr n' k' m₂) :
    m.Went A fr (n + n') (k + k') m₂ := by
  have hesp := h.esp
  refine ⟨by rw [h'.pc, h.pc, Nat.add_assoc], ?_, h'.ebp.trans h.ebp, fun a ha hfree => ?_⟩
  · rw [h'.esp, hesp]
    push_cast
    ring
  · exact (h'.stack a (by omega) hfree).trans (h.stack a ha hfree)

/-- Control goes elsewhere without touching the stack. -/
theorem Machine.Went.goes (h : m.Went A fr n k m₁) (hpc : m₂.pc = m.pc + n')
    (hesp : m₂.esp = m₁.esp) (hebp : m₂.ebp = m₁.ebp) (hstack : m₂.stack = m₁.stack) :
    m.Went A fr n' k m₂ :=
  ⟨hpc, hesp.trans h.esp, hebp.trans h.ebp, fun a ha hfree => by rw [hstack, h.stack a ha hfree]⟩

theorem went_of_eq (hpc : m₁.pc = m.pc + n) (hesp : m₁.esp = m.esp) (hebp : m₁.ebp = m.ebp)
    (hstack : m₁.stack = m.stack) : m.Went A fr n 0 m₁ :=
  (Machine.Went.refl m).goes hpc hesp hebp hstack

theorem went_push (m : Machine) (v : Val) : m.Went A fr 1 1 (m.push v).next :=
  ⟨rfl, by simp, rfl, fun a ha _ => Function.update_of_ne (by omega) _ _⟩

/-- What is not below the frame is no slot that is not in use. -/
theorem not_free_of_le {a : ℤ} (h : A.base ≤ a) : ¬ Free A fr a := by
  rintro ⟨k, -, -, rfl⟩
  unfold slotAddress at h
  omega

theorem not_free_slot (h : k < fr.slots.length) : ¬ Free A fr (slotAddress A.base k) := by
  rintro ⟨j, hj, -, heq⟩
  unfold slotAddress at heq
  omega

/-- What is below all slots is none of them. -/
theorem not_free_of_lt {a : ℤ} (h : a < A.base - 4 * A.reserved) : ¬ Free A fr a := by
  rintro ⟨k, -, hk, rfl⟩
  unfold slotAddress at h
  omega

/-- Code that runs in an invocation leaves the values of its variables. -/
theorem Machine.Went.holds (h : m.Went A fr n k m₁) (hm : m.Holds back A fr) :
    m₁.Holds back A fr := by
  have hesp := h.esp
  have hle := hm.esp
  have hkeep : ∀ a, A.base ≤ a → m₁.stack a = m.stack a := fun a ha =>
    h.stack a (by omega) (not_free_of_le ha)
  have hslot : ∀ j < fr.slots.length, m₁.stack (slotAddress A.base j) =
      m.stack (slotAddress A.base j) := fun j hj => by
    refine h.stack _ ?_ (not_free_slot hj)
    have hdepth := hm.depth
    unfold slotAddress
    omega
  refine ⟨h.ebp.trans hm.ebp, by omega, ?_, ?_, hm.depth, fun j w hw => ?_, fun j w hw => ?_⟩
  · rw [hkeep _ (Int.le_refl _), hm.caller]
  · rw [hkeep _ (by omega), hm.back]
  · rw [hkeep _ (by unfold argumentAddress; omega), hm.arguments j w hw]
  · rw [hslot j (List.getElem?_eq_some_iff.1 hw).1, hm.slots j w hw]

theorem Machine.OnStack.went {vs : List Word} (h : m.OnStack vs)
    (hbelow : m.esp + 4 * vs.length ≤ A.base - 4 * A.reserved) (hr : m.Went A fr n 0 m₁) :
    m₁.OnStack vs := by
  intro i v hi
  have hlt := (List.getElem?_eq_some_iff.1 hi).1
  have hesp : m₁.esp = m.esp := by simp [hr.esp]
  rw [hesp, hr.stack _ (by omega) (not_free_of_lt (by omega))]
  exact h i v hi

/-- What is known of a later state is known of it from the start. -/
theorem Behind.of_went {α : Type} {holds : Machine → α → Prop} {Q : α → Heap → Prop}
    (h : Behind A fr m₁ n' k' holds Q s) (hw : m.Went A fr n k m₁) :
    Behind A fr m (n + n') (k + k') holds Q s :=
  ⟨h.self, hw.trans h.went, h.value⟩

theorem Exited.of_went (h : Exited A m₁ Q s) (hm : m.Holds back A fr) (hw : m.Went A fr n k m₁) :
    Exited A m Q s := by
  refine ⟨h.program, h.pc, h.esp, h.ebp, fun a ha => ?_, h.value⟩
  have hle := hm.esp
  rw [h.stack a ha]
  exact hw.stack a (by omega) (not_free_of_le (by omega))

/-! ### Values -/

theorem Yields.weaken (h : Yields calls back programs A fr false pre c [] x) (tail : Bool)
    (next : Code) : Yields calls back programs A fr tail pre c next x := by
  intro P m Q hP hu hat hm hpre hx
  refine (h hP hu (by simpa using (at_append.1 hat).1) hm hpre hx).mono ?_
  rintro s (hs | ⟨hno, -⟩)
  · exact .inl hs
  · cases hno

/-- Code that is not in tail position ends behind itself. -/
theorem Yields.behind (h : Yields calls back programs A fr false (fun _ => True) c next x) :
    Stacks calls back programs A fr c next 0 x Machine.InEax := by
  intro P m Q hP hu hat hm hx
  refine (h hP hu hat hm trivial hx).mono ?_
  rintro s (hs | ⟨hno, -⟩)
  · exact hs
  · cases hno

theorem Stacks.yields (h : Stacks calls back programs A fr c next 0 x Machine.InEax) (tail : Bool) :
    Yields calls back programs A fr tail (fun _ => True) c next x := by
  intro P m Q hP hu hat hm _ hx
  exact (h hP hu hat hm hx).mono fun s hs => .inl hs

/-- An instruction that loads a value. -/
theorem yields_load {i : Instr} (hi : ∀ {P : Code} {m : Machine}, m.Holds back A fr →
      i.exec P m = some { m with eax := .word w }.next)
    (hc : ∀ m, i.callee m = none) (hp : i.program A.self = none) (hr : i ≠ .ret) :
    Yields calls back programs A fr tail (fun _ => True) [i] [] (pure w) := by
  intro P m Q hP hu hat hm _ hx
  exact image_exec hP (at_cons.1 hat).1 hp hr (hi hm) (hc m)
    (.now (.inl ⟨rfl, went_of_eq rfl rfl rfl rfl, w, rfl, hx⟩))

theorem yields_movEax (w : Word) : Yields calls back programs A fr tail (fun _ => True)
    [.movEax (.word w)] [] (pure w) :=
  yields_load (fun _ => rfl) (fun _ => rfl) rfl fun h => by cases h

theorem yields_loadArgument (hw : fr.arguments[k]? = some w) :
    Yields calls back programs A fr tail (fun _ => True) [.loadArgument k] [] (pure w) := by
  refine yields_load (fun {P m} hm => ?_) (fun _ => rfl) rfl fun h => by cases h
  rw [Instr.exec, hm.ebp, hm.arguments k w hw]

theorem yields_loadBound (hw : fr.slots[k]? = some w) :
    Yields calls back programs A fr tail (fun _ => True) [.loadBound k] [] (pure w) := by
  refine yields_load (fun {P m} hm => ?_) (fun _ => rfl) rfl fun h => by cases h
  rw [Instr.exec, hm.ebp, hm.slots k w hw]

/-- No code: the value is what is in `eax`. -/
theorem yields_nothing (w : Word) :
    Yields calls back programs A fr tail (· = .word w) [] [] (pure w) := by
  intro P m Q hP hu hat hm hpre hx
  exact .now (.inl ⟨rfl, .refl m, w, hpre, hx⟩)

/-! ### Control flow -/

/-- An expression, and then code that may be in tail position. -/
theorem yields_seq (h₁ : Yields calls back programs A fr false (fun _ => True) c₁ [] x)
    (h₂ : Yields calls back programs A fr tail (fun _ => True) c₂ [] y) :
    Yields calls back programs A fr tail (fun _ => True) (c₁ ++ c₂) [] (do let _ ← x; y) := by
  intro P m Q hP hu hat hm _ hx
  rw [List.append_nil, at_append] at hat
  refine (h₁.behind hP hu (by simpa using hat.1) hm hx).trans ?_
  rintro ⟨_, m₁⟩ ⟨rfl, hwent, w, -, hy⟩
  have hpc : m₁.pc = m.pc + c₁.length := hwent.pc
  refine (h₂ hP hu (by simpa [hpc] using hat.2) (hwent.holds hm) trivial hy).mono ?_
  rintro s (hs | ⟨htail, hs⟩)
  · left
    rw [List.length_append]
    exact hs.of_went hwent
  · exact .inr ⟨htail, hs.of_went hm hwent⟩

/-- The code of `if`: the code `c₃` is only reached with `nil` in `eax`. -/
theorem yields_if (l l' : ℕ) (h₁ : Yields calls back programs A fr false (fun _ => True) c₁ [] x)
    (h₂ : Yields calls back programs A fr tail (fun _ => True) c₂ [] y)
    (h₃ : Yields calls back programs A fr tail (· = .word nil) c₃ [] z) :
    Yields calls back programs A fr tail (fun _ => True)
      (c₁ ++ [.cmpEaxNil, .je l] ++ c₂ ++ [.jmp l', .label l] ++ c₃ ++ [.label l']) []
      (do if (← x) = nil then z else y) := by
  intro P m Q hP hu hat hm _ hx
  simp only [at_append, at_cons, List.length_append, List.length_cons, List.length_nil,
    List.append_nil] at hat
  obtain ⟨⟨⟨⟨⟨hat₁, hcmp, hje, -⟩, hat₂⟩, hjmp, hlabel, -⟩, hat₃⟩, hend, -⟩ := hat
  refine (h₁.behind hP hu (by simpa using hat₁) hm hx).trans ?_
  rintro ⟨_, m₁⟩ ⟨rfl, hwent₁, w, hw, hbranch⟩
  have hpc₁ : m₁.pc = m.pc + c₁.length := hwent₁.pc
  have hm₁ : m₁.Holds back A fr := hwent₁.holds hm
  refine image_exec hP (i := .cmpEaxNil) (by rwa [hpc₁]) rfl (fun h => by cases h) rfl rfl ?_
  have hje' : P[m₁.pc + 1]? = some (.je l) := by rwa [hpc₁]
  by_cases hnil : w = nil
  · -- to the label `l`, and through `c₃` to the end
    rw [if_pos hnil] at hbranch
    have heax : m₁.eax = .word nil := by rw [← hnil]; exact hw
    refine image_jump hP hu hlabel hje' rfl (fun h => by cases h)
      (if_pos (decide_eq_true heax)) rfl ?_
    set m₂ : Machine := { m₁ with
      zf := decide (m₁.eax = .word nil)
      pc := m.pc + (c₁.length + (0 + 1 + 1) + c₂.length) + 1 + 1 } with hm₂
    have hwent₂ : m.Went A fr (c₁.length + c₂.length + 4) 0 m₂ :=
      hwent₁.goes (by simp [hm₂]; omega) rfl rfl rfl
    refine (h₃ hP hu (by simpa [hm₂, Nat.add_assoc] using hat₃) (hwent₂.holds hm) heax
      hbranch).trans ?_
    rintro s (⟨hself, hwent₃, hvalue⟩ | ⟨htail, hs⟩)
    · obtain ⟨self, m₃⟩ := s
      obtain rfl : self = A.self := hself
      have hwent := hwent₂.trans hwent₃
      have hpc : m₃.pc = m.pc + (c₁.length + c₂.length + 4 + c₃.length) := hwent.pc
      refine image_exec hP (i := .label l') ?_ rfl (fun h => by cases h) rfl rfl
        (.now (.inl ⟨rfl, ?_, hvalue⟩))
      · rw [hpc, ← hend]
        congr 1
        omega
      · refine hwent.goes ?_ rfl rfl rfl
        simp only [Machine.next_pc, hpc, List.length_append, List.length_cons, List.length_nil]
        omega
    · exact .now (.inr ⟨htail, hs.of_went hm hwent₂⟩)
  · -- through `c₂`, and to the end
    rw [if_neg hnil] at hbranch
    have heax : m₁.eax ≠ .word nil := by
      rw [show m₁.eax = .word w from hw]
      simpa using hnil
    refine image_exec hP hje' rfl (fun h => by cases h) (if_neg (by simpa using heax)) rfl ?_
    set m₂ : Machine := { m₁ with
      zf := decide (m₁.eax = .word nil)
      pc := m₁.pc + 1 + 1 } with hm₂
    have hwent₂ : m.Went A fr (c₁.length + 2) 0 m₂ :=
      hwent₁.goes (by simp [hm₂, hpc₁, Nat.add_assoc]) rfl rfl rfl
    refine (h₂ hP hu (by simpa [hm₂, hpc₁, Nat.add_assoc] using hat₂) (hwent₂.holds hm) trivial
      hbranch).trans ?_
    rintro s (⟨hself, hwent₃, hvalue⟩ | ⟨htail, hs⟩)
    · obtain ⟨self, m₃⟩ := s
      obtain rfl : self = A.self := hself
      have hwent := hwent₂.trans hwent₃
      have hpc : m₃.pc = m.pc + (c₁.length + 2 + c₂.length) := hwent.pc
      refine image_jump hP hu hend (i := .jmp l') ?_ rfl (fun h => by cases h) rfl rfl
        (.now (.inl ⟨rfl, ?_, hvalue⟩))
      · rw [hpc, ← hjmp]
      · refine hwent.goes ?_ rfl rfl rfl
        simp only [List.length_append, List.length_cons, List.length_nil]
        omega
    · exact .now (.inr ⟨htail, hs.of_went hm hwent₂⟩)

/-- An expression of `and` or `or` that is not the last one: its value decides, or the code goes
on. -/
theorem decides_then (or : Bool) (after : ℕ)
    (h₁ : Yields calls back programs A fr false (fun _ => True) c₁ [] x)
    (h₂ : Yields calls back programs A fr false (fun _ => True) c₂ [.label after] y) :
    Yields calls back programs A fr false (fun _ => True)
      (c₁ ++ ([.cmpEaxNil, if or then .jne after else .je after] ++ c₂)) [.label after]
      (do
        let v ← x
        if (or ↔ v ≠ nil) then pure v else y) := by
  intro P m Q hP hu hat hm _ hx
  simp only [at_append, at_cons, List.length_append, List.length_cons, List.length_nil] at hat
  obtain ⟨⟨hat₁, ⟨hcmp, hjump, -⟩, hat₂⟩, hlabel, -⟩ := hat
  refine (h₁.behind hP hu (by simpa using hat₁) hm hx).trans ?_
  rintro ⟨_, m₁⟩ ⟨rfl, hwent₁, w, hw, hbranch⟩
  have hpc₁ : m₁.pc = m.pc + c₁.length := hwent₁.pc
  have hz : decide (m₁.eax = .word nil) = decide (w = nil) := by
    rw [show m₁.eax = .word w from hw]
    simp
  rw [← hpc₁] at hcmp hjump
  have hprogram : (if or then Instr.jne after else .je after).program A.self = none := by
    cases or <;> rfl
  have hret : (if or then Instr.jne after else .je after) ≠ .ret := by
    cases or <;> simp
  refine image_exec hP hcmp rfl (fun h => by cases h) rfl rfl ?_
  by_cases hdecides : or ↔ w ≠ nil
  · -- to the label
    rw [if_pos hdecides] at hbranch
    refine image_exec hP hjump hprogram hret
      (((exec_decide P or after hz).trans (if_pos hdecides)).trans (goto_eq hu hlabel _))
      (callee_decide or after) (.now (.inl ⟨rfl, hwent₁.goes ?_ rfl rfl rfl, w, hw, hbranch⟩))
    simp only [List.length_append, List.length_cons, List.length_nil]
  · rw [if_neg hdecides] at hbranch
    refine image_exec hP hjump hprogram hret
      ((exec_decide P or after hz).trans (if_neg hdecides)) (callee_decide or after) ?_
    set m₂ : Machine := { m₁ with
      zf := decide (m₁.eax = .word nil)
      pc := m₁.pc + 1 + 1 } with hm₂
    have hwent₂ : m.Went A fr (c₁.length + 2) 0 m₂ :=
      hwent₁.goes (by simp [hm₂, hpc₁, Nat.add_assoc]) rfl rfl rfl
    have hat₂' : At P m₂.pc (c₂ ++ [.label after]) := by
      refine at_append.2 ⟨?_, at_cons.2 ⟨?_, List.nil_prefix⟩⟩
      · simpa [hm₂, hpc₁, Nat.add_assoc] using hat₂
      · rw [← hlabel]
        congr 1
        simp only [hm₂, hpc₁]
        omega
    refine (h₂ hP hu hat₂' (hwent₂.holds hm) trivial hbranch).mono ?_
    rintro s (hs | ⟨hno, -⟩)
    · left
      have hlen : (c₁ ++ ([.cmpEaxNil, if or then Instr.jne after else .je after] ++ c₂)).length =
          c₁.length + 2 + c₂.length := by
        simp only [List.length_append, List.length_cons, List.length_nil]
        omega
      rw [hlen]
      exact hs.of_went hwent₂
    · cases hno

theorem yields_andOr {after : ℕ}
    (h : Yields calls back programs A fr false (fun _ => True) c [.label after] x) :
    Yields calls back programs A fr tail (fun _ => True) (c ++ [.label after]) [] x := by
  intro P m Q hP hu hat hm _ hx
  rw [List.append_nil] at hat
  refine (h.behind hP hu hat hm hx).trans ?_
  rintro ⟨_, m₁⟩ ⟨rfl, hwent, hvalue⟩
  have hpc : m₁.pc = m.pc + c.length := hwent.pc
  refine image_exec hP (i := .label after) ?_ rfl (fun h => by cases h) rfl rfl
    (.now (.inl ⟨rfl, ?_, hvalue⟩))
  · rw [hpc]
    exact (at_cons.1 (at_append.1 hat).2).1
  · refine hwent.goes ?_ rfl rfl rfl
    simp only [Machine.next_pc, hpc, List.length_append, List.length_singleton]
    omega

/-- `let1`: the value is kept in the next slot while the body runs. -/
theorem yields_let1 {Y : Word → Outcome Heap Word} (hslot : fr.slots.length < A.reserved)
    (h₁ : Yields calls back programs A fr false (fun _ => True) c₁ [] x)
    (h₂ : ∀ v, Yields calls back programs A { fr with slots := fr.slots ++ [v] } tail
      (fun _ => True) c₂ [] (Y v)) :
    Yields calls back programs A fr tail (fun _ => True)
      (c₁ ++ (.storeBound fr.slots.length :: c₂)) [] (do Y (← x)) := by
  intro P m Q hP hu hat hm _ hx
  simp only [List.append_nil, at_append, at_cons] at hat
  obtain ⟨hat₁, hstore, hat₂⟩ := hat
  refine (h₁.behind hP hu (by simpa using hat₁) hm hx).trans ?_
  rintro ⟨_, m₁⟩ ⟨rfl, hwent₁, v, hv, hY⟩
  have hpc₁ : m₁.pc = m.pc + c₁.length := hwent₁.pc
  have hm₁ : m₁.Holds back A fr := hwent₁.holds hm
  rw [← hpc₁] at hstore hat₂
  refine image_exec hP hstore rfl (fun h => by cases h) rfl rfl ?_
  set a := slotAddress A.base fr.slots.length with ha
  have hfree : Free A fr a := ⟨_, Nat.le_refl _, hslot, rfl⟩
  have hm₂ : (m₁.store (slotAddress m₁.ebp fr.slots.length) m₁.eax).next.Holds back A
      { fr with slots := fr.slots ++ [v] } := by
    have hother : ∀ b, ¬ Free A fr b →
        (m₁.store (slotAddress m₁.ebp fr.slots.length) m₁.eax).next.stack b = m₁.stack b := by
      intro b hb
      refine Function.update_of_ne ?_ _ _
      rintro rfl
      rw [hm₁.ebp] at hb
      exact hb hfree
    refine ⟨hm₁.ebp, hm₁.esp, ?_, ?_, ?_, fun k w hw => ?_, fun k w hw => ?_⟩
    · rw [hother _ (not_free_of_le (Int.le_refl _)), hm₁.caller]
    · rw [hother _ (not_free_of_le (by omega)), hm₁.back]
    · rw [List.length_append, List.length_singleton]
      exact hslot
    · rw [hother _ (not_free_of_le (by unfold argumentAddress; omega)), hm₁.arguments k w hw]
    · rcases Nat.lt_or_ge k fr.slots.length with hlt | hge
      · rw [List.getElem?_append_left hlt] at hw
        rw [hother _ (not_free_slot hlt), hm₁.slots k w hw]
      · have hlen := (List.getElem?_eq_some_iff.1 hw).1
        simp only [List.length_append, List.length_singleton] at hlen
        obtain rfl : k = fr.slots.length := by omega
        rw [List.getElem?_concat_length] at hw
        obtain rfl : v = w := Option.some_inj.1 hw
        change Function.update m₁.stack (slotAddress m₁.ebp fr.slots.length) m₁.eax _ = _
        rw [hm₁.ebp, Function.update_self]
        exact hv
  -- what is kept in the body is kept outside
  have hmore : ∀ b, ¬ Free A fr b → ¬ Free A { fr with slots := fr.slots ++ [v] } b := by
    rintro b hb ⟨k, hk, hlt, rfl⟩
    refine hb ⟨k, ?_, hlt, rfl⟩
    simp only [List.length_append, List.length_singleton] at hk
    omega
  have hstored : m.Went A fr (c₁.length + 1) 0
      (m₁.store (slotAddress m₁.ebp fr.slots.length) m₁.eax).next := by
    refine ⟨?_, hwent₁.esp, hwent₁.ebp, fun b hb hnot => ?_⟩
    · change m₁.pc + 1 = _
      rw [hpc₁, Nat.add_assoc]
    · rw [← hwent₁.stack b hb hnot]
      refine Function.update_of_ne ?_ _ _
      rintro rfl
      rw [hm₁.ebp] at hnot
      exact hnot hfree
  refine (h₂ v hP hu (by simpa using hat₂) hm₂ trivial hY).mono ?_
  rintro s (⟨hself, hwent₂, hvalue⟩ | ⟨htail, hs⟩)
  · left
    have hlen : (c₁ ++ (.storeBound fr.slots.length :: c₂)).length =
        c₁.length + 1 + c₂.length := by
      simp only [List.length_append, List.length_cons]
      omega
    refine ⟨hself, ?_, hvalue⟩
    rw [hlen]
    exact hstored.trans ⟨hwent₂.pc, hwent₂.esp, hwent₂.ebp,
      fun b hb hnot => hwent₂.stack b hb (hmore b hnot)⟩
  · refine .inr ⟨htail, hs.program, hs.pc, hs.esp, hs.ebp, fun b hb => ?_, hs.value⟩
    rw [hs.stack b hb]
    have hle := hm.esp
    exact hstored.stack b (by omega) (not_free_of_le (by omega))

/-! ### Words on the stack -/

theorem onStack_nil (m : Machine) : m.OnStack [] := by
  intro i v hi
  cases hi

theorem stacks_push_nil : Stacks calls back programs A fr [.push (.word nil)] [] 1
    (pure ([], nil)) Machine.OnTop := by
  intro P m Q hP hu hat hm hx
  exact image_exec hP (at_cons.1 hat).1 rfl (fun h => by cases h) rfl rfl
    (.now ⟨rfl, went_push m _, ([], nil), (onStack_nil m).push nil, hx⟩)

theorem stacks_nothing : Stacks calls back programs A fr [] [] 0 (pure []) (Machine.Passed 0) := by
  intro P m Q hP hu hat hm hx
  exact .now ⟨rfl, .refl m, [], ⟨onStack_nil m, rfl⟩, hx⟩

/-- One more cell of a list that is made. -/
theorem stacks_cons {xs : Outcome Heap (List Word × Word)} (hcons : Implements calls .cons consOf)
    (h₁ : Stacks calls back programs A fr c₁ [] 1 xs Machine.OnTop)
    (h₂ : Yields calls back programs A fr false (fun _ => True) c₂ [] y) :
    Stacks calls back programs A fr (c₁ ++ (c₂ ++ consCode)) [] 1
      (do
        let (vs, tail) ← xs
        let v ← y
        return (v :: vs, ← cell v tail)) Machine.OnTop := by
  intro P m Q hP hu hat hm hx
  simp only [at_append, at_cons, consCode, List.append_nil] at hat
  obtain ⟨hat₁, hat₂, hpush, hcall, hadd, hpush', -⟩ := hat
  refine (h₁ hP hu (by simpa using hat₁) hm hx).trans ?_
  rintro ⟨_, m₁⟩ ⟨rfl, hwent₁, ⟨vs, tail⟩, htop, hy⟩
  have hpc₁ : m₁.pc = m.pc + c₁.length := hwent₁.pc
  have hesp₁ : m₁.esp = m.esp - 4 * (1 : ℕ) := hwent₁.esp
  rw [← hpc₁] at hat₂ hpush hcall hadd hpush'
  refine (h₂.behind hP hu (by simpa using hat₂) (hwent₁.holds hm) hy).trans ?_
  rintro ⟨_, m₂⟩ ⟨rfl, hwent₂, v, hv, hcell⟩
  have hpc₂ : m₂.pc = m₁.pc + c₂.length := hwent₂.pc
  have hesp₂ : m₂.esp = m₁.esp := by simpa using hwent₂.esp
  rw [← hpc₂] at hpush hcall hadd hpush'
  have hle := hm.esp
  have htop₂ : m₂.OnStack [tail] := Machine.OnStack.went htop (by
    simp only [List.length_singleton]
    push_cast at hesp₁ ⊢
    omega) hwent₂
  have hargs : (m₂.push (.word v)).next.OnStack [v, tail] := htop₂.push v
  refine image_exec hP hpush rfl (fun h => by cases h) (exec_pushEax P hv) rfl ?_
  refine image_builtin hP hcons rfl hcall hargs hcell fun m₃ w hpc hesp hebp hstack hw hQ => ?_
  have hpc₃ : m₃.pc = m₂.pc + 1 + 1 := hpc
  have hesp₃ : m₃.esp = m₂.esp - 4 := hesp
  rw [← hpc₃] at hadd hpush'
  refine image_exec hP hadd rfl (fun h => by cases h) rfl rfl
    (image_exec hP hpush' rfl (fun h => by cases h) (exec_pushEax P hw) rfl ?_)
  -- both words have been popped
  have hpopped : m.Went A fr (c₁.length + (c₂.length + 3)) 0 (m₃.drop 8).next := by
    refine ⟨?_, ?_, hebp.trans (hwent₂.ebp.trans hwent₁.ebp), fun a ha hnot => ?_⟩
    · change m₃.pc + 1 = _
      omega
    · change m₃.esp + (8 : ℕ) = _
      push_cast at hesp₁ ⊢
      omega
    · change m₃.stack a = _
      have hbelow : m₂.esp - 4 + 4 * (([v, tail] : List Word).length : ℤ) ≤ a := by
        simp only [List.length_cons, List.length_nil]
        push_cast at hesp₁ ⊢
        omega
      rw [hstack a hbelow, ← (hwent₁.trans hwent₂).stack a ha hnot]
      exact Function.update_of_ne (by push_cast at hesp₁; omega) _ _
  refine .now ⟨rfl, ?_, (v :: vs, w), (onStack_nil _).push w, hQ⟩
  simpa [consCode, Nat.add_assoc] using hpopped.trans (went_push _ (.word w))

theorem yields_list {xs : Outcome Heap (List Word × Word)}
    (h : Stacks calls back programs A fr c [] 1 xs Machine.OnTop) :
    Yields calls back programs A fr tail (fun _ => True) (c ++ [.popEax]) []
      (do return (← xs).2) := by
  intro P m Q hP hu hat hm _ hx
  rw [List.append_nil, at_append] at hat
  refine (h hP hu (by simpa using hat.1) hm hx).trans ?_
  rintro ⟨_, m₁⟩ ⟨rfl, hwent, ⟨vs, w⟩, htop, hQ⟩
  have hpc : m₁.pc = m.pc + c.length := hwent.pc
  have hesp : m₁.esp = m.esp - 4 * (1 : ℕ) := hwent.esp
  have hpop := (at_cons.1 hat.2).1
  rw [← hpc] at hpop
  refine image_exec hP hpop rfl (fun h => by cases h) rfl rfl
    (.now (.inl ⟨rfl, ⟨?_, ?_, hwent.ebp, hwent.stack⟩, w, ?_, hQ⟩))
  · change m₁.pc + 1 = _
    rw [hpc, List.length_append, List.length_singleton, Nat.add_assoc]
  · change m₁.esp + (4 : ℕ) = _
    rw [hesp]
    push_cast
    ring
  · change m₁.stack m₁.esp = _
    simpa using htop 0 w rfl

/-- One more argument. -/
theorem stacks_passed {xs : Outcome Heap (List Word)}
    (h₁ : Stacks calls back programs A fr c₁ [] n xs (Machine.Passed n))
    (h₂ : Yields calls back programs A fr false (fun _ => True) c₂ [] y) :
    Stacks calls back programs A fr (c₁ ++ (c₂ ++ [.pushEax])) [] (n + 1)
      (do
        let vs ← xs
        return (← y) :: vs) (Machine.Passed (n + 1)) := by
  intro P m Q hP hu hat hm hx
  simp only [at_append, at_cons, List.append_nil] at hat
  obtain ⟨hat₁, hat₂, hpush, -⟩ := hat
  refine (h₁ hP hu (by simpa using hat₁) hm hx).trans ?_
  rintro ⟨_, m₁⟩ ⟨rfl, hwent₁, vs, ⟨hvs, hlen⟩, hy⟩
  have hpc₁ : m₁.pc = m.pc + c₁.length := hwent₁.pc
  have hesp₁ : m₁.esp = m.esp - 4 * n := hwent₁.esp
  rw [← hpc₁] at hat₂ hpush
  refine (h₂.behind hP hu (by simpa using hat₂) (hwent₁.holds hm) hy).trans ?_
  rintro ⟨_, m₂⟩ ⟨rfl, hwent₂, v, hv, hQ⟩
  have hpc₂ : m₂.pc = m₁.pc + c₂.length := hwent₂.pc
  rw [← hpc₂] at hpush
  have hle := hm.esp
  have hvs₁ : m₁.OnStack vs := hvs
  have hvs₂ : m₂.OnStack vs := hvs₁.went (by rw [hlen]; omega) hwent₂
  refine image_exec hP hpush rfl (fun h => by cases h) (exec_pushEax P hv) rfl
    (.now ⟨rfl, ?_, v :: vs, ⟨hvs₂.push v, by simp [hlen]⟩, hQ⟩)
  simpa [Nat.add_assoc] using (hwent₁.trans hwent₂).trans (went_push _ (.word v))

/-! ### Calls -/

/-- A call of a function that is not compiled. -/
theorem yields_builtin {xs : Outcome Heap (List Word)} {f : Extern}
    {F : List Word → Outcome Heap Word} (hf : Implements calls f F)
    (hp : Instr.program A.self (.call f) = none)
    (h : Stacks calls back programs A fr c [] n xs (Machine.Passed n)) :
    Yields calls back programs A fr tail (fun _ => True) (c ++ [.call f, .addEsp (n * 4)]) []
      (do F (← xs)) := by
  intro P m Q hP hu hat hm _ hx
  simp only [at_append, at_cons, List.append_nil] at hat
  obtain ⟨hat₁, hcall, hadd, -⟩ := hat
  refine (h hP hu (by simpa using hat₁) hm hx).trans ?_
  rintro ⟨_, m₁⟩ ⟨rfl, hwent, vs, ⟨hvs, hlen⟩, hF⟩
  have hpc₁ : m₁.pc = m.pc + c.length := hwent.pc
  have hesp₁ : m₁.esp = m.esp - 4 * n := hwent.esp
  rw [← hpc₁] at hcall hadd
  refine image_builtin hP hf hp hcall hvs hF fun m₂ w hpc hesp hebp hstack hw hQ => ?_
  rw [← hpc] at hadd
  refine image_exec hP hadd rfl (fun h => by cases h) rfl rfl
    (.now (.inl ⟨rfl, ⟨?_, ?_, hebp.trans hwent.ebp, ?_⟩, w, hw, hQ⟩))
  · change m₂.pc + 1 = _
    simp only [List.length_append, List.length_cons, List.length_nil]
    omega
  · change m₂.esp + ((n * 4 : ℕ) : ℤ) = _
    push_cast
    omega
  · intro a ha hnot
    change m₂.stack a = _
    rw [hstack a (by rw [hlen]; omega), hwent.stack a ha hnot]

/-- A call of a program, perhaps of the one that is being run. -/
theorem yields_program {xs : Outcome Heap (List Word)} {i : Instr} {j : ℕ}
    {F : List Word → Outcome Heap Word} (hF : Serves calls back programs j n F)
    (hp : i.program A.self = some j)
    (h : Stacks calls back programs A fr c [] n xs (Machine.Passed n)) :
    Yields calls back programs A fr tail (fun _ => True) (c ++ [i, .addEsp (n * 4)]) []
      (do F (← xs)) := by
  intro P m Q hP hu hat hm _ hx
  simp only [at_append, at_cons, List.append_nil] at hat
  obtain ⟨hat₁, hcall, hadd, -⟩ := hat
  refine (h hP hu (by simpa using hat₁) hm hx).trans ?_
  rintro ⟨_, m₁⟩ ⟨rfl, hwent, vs, ⟨hvs, hlen⟩, hFvs⟩
  have hpc₁ : m₁.pc = m.pc + c.length := hwent.pc
  have hesp₁ : m₁.esp = m.esp - 4 * n := hwent.esp
  rw [← hpc₁] at hcall hadd
  refine image_enter hP hcall hp ?_
  -- the words are behind the return address
  have htop : (m₁.enterAt (back A.self (m₁.pc + 1))).top = back A.self (m₁.pc + 1) :=
    Function.update_self _ _ _
  have hwords : ((m₁.enterAt (back A.self (m₁.pc + 1))).drop 4).OnStack vs := by
    intro k v hk
    have hdrop : (m₁.esp - 4 + (4 : ℕ) : ℤ) = m₁.esp := by
      push_cast
      ring
    change Function.update m₁.stack (m₁.esp - 4) _ (m₁.esp - 4 + (4 : ℕ) + 4 * (k : ℤ)) = _
    rw [hdrop, Function.update_of_ne (by omega)]
    exact hvs k v hk
  refine (hF rfl htop hwords hlen hFvs).trans ?_
  rintro ⟨_, m₂⟩ ⟨rfl, hpc₂, hesp₂, hebp₂, hstack₂, w, hw, hQ⟩
  change m₂.pc = m₁.pc + 1 at hpc₂
  change m₂.esp = m₁.esp - 4 + 4 at hesp₂
  rw [← hpc₂] at hadd
  refine image_exec hP hadd rfl (fun h => by cases h) rfl rfl
    (.now (.inl ⟨rfl, ⟨?_, ?_, hebp₂.trans hwent.ebp, ?_⟩, w, hw, hQ⟩))
  · change m₂.pc + 1 = _
    simp only [List.length_append, List.length_cons, List.length_nil]
    omega
  · change m₂.esp + ((n * 4 : ℕ) : ℤ) = _
    push_cast
    omega
  · intro a ha hnot
    change m₂.stack a = _
    have hbehind : m₁.esp - 4 + 4 + 4 * (n : ℤ) ≤ a := by omega
    rw [hstack₂ a hbehind, ← hwent.stack a ha hnot]
    exact Function.update_of_ne (by omega) _ _

/-- A tail call of the program that is being run: its words become those of the invocation, which
starts again. -/
theorem yields_tailCall {xs : Outcome Heap (List Word)} {F : List Word → Outcome Heap Word}
    (hF : Serves calls back programs A.self A.count F)
    (hstart : ∀ P, programs[A.self]? = some P → ∀ m : Machine, m.goto P .here =
      some { m with pc := 0 })
    (h : Stacks calls back programs A fr c [] A.count xs (Machine.Passed A.count)) :
    Yields calls back programs A fr true (fun _ => True)
      (c ++ (tailCall A.count ++ [.addEsp (A.count * 4)])) [] (do F (← xs)) := by
  intro P m Q hP hu hat hm _ hx
  rw [List.append_nil, at_append, at_append] at hat
  obtain ⟨hat₁, hat₂, -⟩ := hat
  refine (h hP hu (by simpa using hat₁) hm hx).trans ?_
  rintro ⟨_, m₁⟩ ⟨rfl, hwent, vs, ⟨hvs, hlen⟩, hFvs⟩
  have hpc₁ : m₁.pc = m.pc + c.length := hwent.pc
  have hesp₁ : m₁.esp = m.esp - 4 * A.count := hwent.esp
  have hm₁ : m₁.Holds back A fr := hwent.holds hm
  have hle := hm.esp
  have hebp₁ := hm₁.ebp
  rw [← hpc₁] at hat₂
  obtain ⟨e, hexecs, he⟩ := execs_tailCall (n := A.count) hat₂ (by omega)
    (hebp₁.symm ▸ hm₁.caller) (hstart P hP)
  refine image_execs hP hexecs ?_
  have hesp : e.esp = A.base + 4 := by rw [he.esp, hebp₁]
  have hword : ∀ k < A.count, e.stack (argumentAddress A.base k) = m₁.stack (m₁.esp + 4 * k) := by
    intro k hk
    rw [← he.arguments k hk, hebp₁]
  have hkept : ∀ b, (∀ k < A.count, b ≠ argumentAddress A.base k) → e.stack b = m₁.stack b := by
    intro b hb
    refine he.kept b ?_
    rwa [hebp₁]
  have htop : e.top = back A.backTo.1 A.backTo.2 := by
    change e.stack e.esp = _
    rw [hesp, hkept _ fun k _ => by unfold argumentAddress; omega]
    exact hm₁.back
  have hwords : (e.drop 4).OnStack vs := by
    intro k v hk
    have hlt := (List.getElem?_eq_some_iff.1 hk).1
    have haddress : e.esp + (4 : ℕ) + 4 * (k : ℤ) = argumentAddress A.base k := by
      rw [hesp]
      unfold argumentAddress
      push_cast
      ring
    change e.stack (e.esp + (4 : ℕ) + 4 * (k : ℤ)) = _
    rw [haddress, hword k (by omega)]
    exact hvs k v hk
  refine (hF he.pc htop hwords hlen (he.heap.symm ▸ hFvs)).mono ?_
  rintro s ⟨hprogram, hpc, hesp₂, hebp₂, hstack₂, hvalue⟩
  refine .inr ⟨rfl, hprogram, hpc, ?_, hebp₂.trans he.ebp, fun a ha => ?_, hvalue⟩
  · rw [hesp₂, hesp]
    ring
  · rw [hstack₂ a (by omega), hkept a fun k hk => by unfold argumentAddress; omega]
    exact hwent.stack a (by omega) (not_free_of_le (by omega))

/-- The code of a whole function. -/
theorem serves_of_yields (hback : Addresses back) {self reserved : ℕ} {body : Code}
    {F : List Word → Outcome Heap Word}
    (hP : programs[self]? = some (setup reserved ++ body ++ cleanup))
    (hu : stackHeights.LabelsUnique (setup reserved ++ body ++ cleanup))
    (hbody : ∀ A : Invocation, A.self = self → A.reserved = reserved → A.count = n →
      ∀ vs, vs.length = n →
        Yields calls back programs A ⟨vs, []⟩ true (fun _ => True) body [] (F vs)) :
    Serves calls back programs self n F := by
  intro e vs Q q r hpc htop hvs hlen hx
  have hat : At (setup reserved ++ body ++ cleanup) e.pc (setup reserved ++ body ++ cleanup) := by
    rw [hpc]
    exact List.prefix_rfl
  rw [at_append, at_append] at hat
  obtain ⟨⟨hsetup, hat₁⟩, hcleanup⟩ := hat
  generalize setup reserved ++ body ++ cleanup = P at *
  simp only [setup, at_cons] at hsetup
  obtain ⟨h₀, h₁, h₂, h₃, -⟩ := hsetup
  refine image_exec hP h₀ rfl (fun h => by cases h) rfl rfl ?_
  refine image_exec hP h₁ rfl (fun h => by cases h) rfl rfl ?_
  refine image_exec hP h₂ rfl (fun h => by cases h) rfl rfl ?_
  refine image_exec hP h₃ rfl (fun h => by cases h) rfl rfl ?_
  set m : Machine := { e with
    pc := e.pc + 1 + 1 + 1 + 1
    esp := e.esp - 4 - (4 * reserved : ℕ)
    ebp := e.esp - 4
    stack := Function.update e.stack (e.esp - 4) (.address e.ebp) } with hm
  change (image calls back programs).Inevitably (CameBack n e q r Q) (self, m)
  set A : Invocation := ⟨self, e.esp - 4, reserved, n, e.ebp, (q, r)⟩ with hA
  have hholds : m.Holds back A ⟨vs, []⟩ := by
    refine ⟨rfl, ?_, Function.update_self _ _ _, ?_, Nat.zero_le _, fun k w hw => ?_,
      fun k w hw => ?_⟩
    · change e.esp - 4 - (4 * reserved : ℕ) ≤ e.esp - 4 - 4 * (reserved : ℤ)
      push_cast
      exact Int.le_refl _
    · change Function.update e.stack (e.esp - 4) _ (e.esp - 4 + 4) = _
      rw [Function.update_of_ne (by omega), sub_add_cancel]
      exact htop
    · have haddress : argumentAddress (e.esp - 4) k = e.esp + (4 : ℕ) + 4 * (k : ℤ) := by
        unfold argumentAddress
        push_cast
        ring
      change Function.update e.stack (e.esp - 4) _ (argumentAddress (e.esp - 4) k) = _
      rw [haddress, Function.update_of_ne (by push_cast; omega)]
      exact hvs k w hw
    · cases hw
  have hat₁' : At P m.pc (body ++ []) := by
    rw [List.append_nil]
    exact hat₁
  refine (hbody A rfl rfl rfl vs hlen hP hu hat₁' hholds trivial hx).trans ?_
  rintro ⟨self', m₁⟩ (⟨hself, hwent, w, hw, hQ⟩ | ⟨-, hs⟩)
  · -- through `cleanup`
    obtain rfl : self = self' := hself.symm
    have hm₁ := hwent.holds hholds
    have hpc₁ : m₁.pc = m.pc + body.length := hwent.pc
    have hlength : e.pc + (setup reserved ++ body).length = m₁.pc := by
      rw [hpc₁, List.length_append, ← Nat.add_assoc]
      rfl
    rw [hlength] at hcleanup
    simp only [cleanup, at_cons] at hcleanup
    obtain ⟨hmov, hpop, hret, -⟩ := hcleanup
    have hebp₁ : m₁.ebp = e.esp - 4 := hm₁.ebp
    have hpop' : Instr.popEbp.exec P { m₁ with esp := m₁.ebp }.next =
        some { { m₁ with esp := m₁.ebp }.next.drop 4 with ebp := e.ebp }.next := by
      have htop₁ : { m₁ with esp := m₁.ebp }.next.top = .address e.ebp := by
        change m₁.stack m₁.ebp = _
        rw [hebp₁]
        exact hm₁.caller
      rw [Instr.exec, htop₁]
    refine image_exec hP hmov rfl (fun h => by cases h) rfl rfl ?_
    refine image_exec hP hpop rfl (fun h => by cases h) hpop' rfl ?_
    have hesp₁ : m₁.ebp + (4 : ℕ) = e.esp := by
      rw [hebp₁]
      push_cast
      ring
    refine image_ret hback hP hret (q := q) (r := r) ?_ (.now ⟨rfl, rfl, ?_, rfl, fun a ha => ?_, w,
      hw, hQ⟩)
    · change m₁.stack (m₁.ebp + (4 : ℕ)) = _
      rw [hesp₁]
      have hback₁ := hm₁.back
      simpa [hA] using hback₁
    · change m₁.ebp + (4 : ℕ) + (4 : ℕ) = _
      rw [hesp₁]
      rfl
    · change m₁.stack a = _
      have hmesp : m.esp ≤ a := by
        change e.esp - 4 - (4 * reserved : ℕ) ≤ a
        push_cast
        omega
      rw [hwent.stack a hmesp (not_free_of_le (by change e.esp - 4 ≤ a; omega))]
      exact Function.update_of_ne (by omega) _ _
  · refine .now ⟨hs.program, hs.pc, ?_, hs.ebp, fun a ha => ?_, hs.value⟩
    · rw [hs.esp]
      change e.esp - 4 + 8 = _
      ring
    · rw [hs.stack a (by change e.esp - 4 + 8 + 4 * (n : ℤ) ≤ a; omega)]
      exact Function.update_of_ne (by omega) _ _

end Rules

end Lisp

end Bluejay
