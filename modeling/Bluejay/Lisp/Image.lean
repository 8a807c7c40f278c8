import Bluejay.Lisp.Frame
import Bluejay.Lisp.SelfCalls

/-!
# All programs in one machine

Every program that has been linked, in one machine: a call of a compiled function pushes the
address behind itself and goes to the start of the program, and `ret` goes where the word on top of
the stack says.

* `image calls back programs` : the machine; `calls` says what calls of other functions may do, and
  `back` is the address of an instruction.
* `CameBack n e q r Q` : a call with `n` words, entered in `e`, has returned.
* `Serves j n F` : a call of the program `j` with `n` words does what `F` does with them.
* `image_exec`, `image_enter`, `image_ret`, … : one step, when all steps lead to the same state.
-/

namespace Bluejay

namespace Lisp

/-- The program that the instruction calls, if it calls one. -/
def Instr.program (self : ℕ) : Instr → Option ℕ
  | .callHere => some self
  | .call (.function (.program j)) => some j
  | _ => none

/-- Go to the start of a program that is to return to the address `v`. -/
def Machine.enterAt (m : Machine) (v : Val) : Machine := { m.push v with pc := 0 }

/-- The machine with all programs. -/
def image (calls : Val → Machine → Machine → Prop) (back : ℕ → ℕ → Val) (programs : List Code) :
    System (ℕ × Machine) Instr where
  step x i y := ∃ P, programs[x.1]? = some P ∧ P[x.2.pc]? = some i ∧
    ((∃ j, i.program x.1 = some j ∧ y = (j, x.2.enterAt (back x.1 (x.2.pc + 1)))) ∨
      (i = .ret ∧ ∃ q r, x.2.top = back q r ∧ y = (q, { x.2.drop 4 with pc := r })) ∨
      (i.program x.1 = none ∧ i ≠ .ret ∧ y.1 = x.1 ∧ (machine calls P).step x.2 i y.2))

/-- The addresses of instructions are different. -/
def Addresses (back : ℕ → ℕ → Val) : Prop :=
  ∀ ⦃q r q' r' : ℕ⦄, back q r = back q' r' → q = q' ∧ r = r'

section Image

variable (calls : Val → Machine → Machine → Prop) (back : ℕ → ℕ → Val) (programs : List Code)

/-- The call that was entered in `e` has returned to the instruction `r` of the program `q`. -/
structure CameBack (n : ℕ) (e : Machine) (q r : ℕ) (Q : Word → Heap → Prop) (s : ℕ × Machine) :
    Prop where
  program : s.1 = q
  pc : s.2.pc = r
  esp : s.2.esp = e.esp + 4
  ebp : s.2.ebp = e.ebp
  stack : ∀ a, e.esp + 4 + 4 * n ≤ a → s.2.stack a = e.stack a
  value : ∃ w, s.2.eax = .word w ∧ Q w s.2.heap

/-- A call of the program `j` with `n` words does what `F` does with them. -/
def Serves (j n : ℕ) (F : List Word → Outcome Heap Word) : Prop :=
  ∀ ⦃e : Machine⦄ ⦃vs : List Word⦄ ⦃Q : Word → Heap → Prop⦄ ⦃q r : ℕ⦄, e.pc = 0 →
    e.top = back q r → (e.drop 4).OnStack vs → vs.length = n → F vs Q e.heap →
    (image calls back programs).Inevitably (CameBack n e q r Q) (j, e)

end Image

section Steps

variable {calls : Val → Machine → Machine → Prop} {back : ℕ → ℕ → Val} {programs : List Code}
  {P : Code} {self : ℕ} {m m₁ : Machine} {i : Instr} {Q : ℕ × Machine → Prop}

/-- The next instruction calls nothing. -/
theorem image_exec (hP : programs[self]? = some P) (hi : P[m.pc]? = some i)
    (hp : i.program self = none) (hr : i ≠ .ret) (he : i.exec P m = some m₁)
    (hc : i.callee m = none) (h : (image calls back programs).Inevitably Q (self, m₁)) :
    (image calls back programs).Inevitably Q (self, m) := by
  have hstep : (image calls back programs).step (self, m) i (self, m₁) :=
    ⟨P, hP, hi, .inr (.inr ⟨hp, hr, rfl, hi, .inl he⟩)⟩
  refine .of_step hstep ?_ h
  rintro j ⟨self', m₂⟩ ⟨P', hP', hj, hstep⟩
  obtain rfl := Option.some.inj (hP.symm.trans hP')
  obtain rfl : i = j := Option.some.inj (hi.symm.trans hj)
  rcases hstep with ⟨k, hk, -⟩ | ⟨hret, -⟩ | ⟨-, -, hself, -, hexec | ⟨f, m₃, hf, -⟩⟩
  · rw [hp] at hk
    cases hk
  · exact absurd hret hr
  · obtain rfl := Option.some.inj (he.symm.trans hexec)
    exact Prod.ext hself rfl
  · rw [hc] at hf
    cases hf

/-- The next instruction jumps to the label at `q`. -/
theorem image_jump (hP : programs[self]? = some P) {q l : ℕ} (hu : stackHeights.LabelsUnique P)
    (hq : P[q]? = some (.label l)) (hi : P[m.pc]? = some i) (hp : i.program self = none)
    (hr : i ≠ .ret) (he : i.exec P m = m.goto P (.label l)) (hc : i.callee m = none)
    (h : (image calls back programs).Inevitably Q (self, { m with pc := q + 1 })) :
    (image calls back programs).Inevitably Q (self, m) := by
  have hlabel : Instr.program self (.label l) = none ∧ (Instr.label l) ≠ .ret := by
    constructor
    · rfl
    · intro h
      cases h
  refine image_exec hP hi hp hr (he.trans (goto_eq hu hq m)) hc ?_
  exact image_exec hP hq hlabel.1 hlabel.2 rfl rfl h

/-- Harmless instructions follow each other. -/
theorem image_execs (hP : programs[self]? = some P) {k : ℕ} (hexecs : Execs P k m m₁)
    (h : (image calls back programs).Inevitably Q (self, m₁)) :
    (image calls back programs).Inevitably Q (self, m) := by
  induction hexecs with
  | refl => exact h
  | @head k m m₁ m₂ i hi hh he _ ih =>
    obtain ⟨hhere, hret, hcallee⟩ := Instr.ne_of_harmless (m := m) hh
    have hp : i.program self = none := by
      cases i <;> first | rfl | cases hh
    exact image_exec hP hi hp hret he hcallee (ih h)

/-- The next instruction calls a function that is not compiled. -/
theorem image_builtin (hP : programs[self]? = some P) {f : Extern}
    {x : List Word → Outcome Heap Word} {vs : List Word} {K : Word → Heap → Prop}
    (hf : Implements calls f x) (hp : Instr.program self (.call f) = none)
    (hi : P[m.pc]? = some (.call f)) (hvs : m.OnStack vs) (hx : x vs K m.heap)
    (h : ∀ m₁ w, m₁.pc = m.pc + 1 → m₁.esp = m.esp → m₁.ebp = m.ebp →
      (∀ a, m.esp + 4 * vs.length ≤ a → m₁.stack a = m.stack a) → m₁.eax = .word w →
      K w m₁.heap → (image calls back programs).Inevitably Q (self, m₁)) :
    (image calls back programs).Inevitably Q (self, m) := by
  obtain ⟨⟨m', hm'⟩, hall⟩ := hf hvs hx
  have hret : Instr.call f ≠ .ret := by
    intro h
    cases h
  refine .step ⟨.call f, (self, { m' with pc := m.pc + 1 }), P, hP, hi,
    .inr (.inr ⟨hp, hret, rfl, hi, .inr ⟨_, m', rfl, hm', rfl⟩⟩)⟩ ?_
  rintro j ⟨self', m₂⟩ ⟨P', hP', hj, hstep⟩
  obtain rfl := Option.some.inj (hP.symm.trans hP')
  obtain rfl : .call f = j := Option.some.inj (hi.symm.trans hj)
  rcases hstep with ⟨k, hk, -⟩ | ⟨hno, -⟩ | ⟨-, -, hself, -, hexec | ⟨g, m₃, hg, hcall, heq⟩⟩
  · rw [hp] at hk
    cases hk
  · exact absurd hno hret
  · cases hexec
  · cases hg
    obtain rfl : self = self' := hself.symm
    obtain rfl : m₂ = { m₃ with pc := m.pc + 1 } := heq
    obtain ⟨hesp, hebp, hstack, w, heax, hK⟩ := hall m₃ hcall
    exact h _ w rfl hesp hebp hstack heax hK

/-- The next instruction calls a program. -/
theorem image_enter (hP : programs[self]? = some P) {j : ℕ} (hi : P[m.pc]? = some i)
    (hp : i.program self = some j)
    (h : (image calls back programs).Inevitably Q (j, m.enterAt (back self (m.pc + 1)))) :
    (image calls back programs).Inevitably Q (self, m) := by
  refine .of_step (l := i) ⟨P, hP, hi, .inl ⟨j, hp, rfl⟩⟩ ?_ h
  rintro i' y ⟨P', hP', hi', hstep⟩
  obtain rfl := Option.some.inj (hP.symm.trans hP')
  obtain rfl : i = i' := Option.some.inj (hi.symm.trans hi')
  rcases hstep with ⟨k, hk, rfl⟩ | ⟨rfl, -⟩ | ⟨hnone, -⟩
  · obtain rfl := Option.some.inj (hp.symm.trans hk)
    rfl
  · cases hp
  · rw [hp] at hnone
    cases hnone

/-- The next instruction returns. -/
theorem image_ret (hback : Addresses back) (hP : programs[self]? = some P)
    (hi : P[m.pc]? = some .ret) {q r : ℕ} (htop : m.top = back q r)
    (h : (image calls back programs).Inevitably Q (q, { m.drop 4 with pc := r })) :
    (image calls back programs).Inevitably Q (self, m) := by
  refine .of_step (l := .ret) ⟨P, hP, hi, .inr (.inl ⟨rfl, q, r, htop, rfl⟩)⟩ ?_ h
  rintro i' y ⟨P', hP', hi', hstep⟩
  obtain rfl := Option.some.inj (hP.symm.trans hP')
  obtain rfl : .ret = i' := Option.some.inj (hi.symm.trans hi')
  rcases hstep with ⟨k, hk, -⟩ | ⟨-, q', r', htop', rfl⟩ | ⟨-, hret, -⟩
  · cases hk
  · obtain ⟨rfl, rfl⟩ := hback (htop.symm.trans htop')
    rfl
  · exact absurd rfl hret

end Steps

end Lisp

end Bluejay
