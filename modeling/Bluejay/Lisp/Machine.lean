import Mathlib.Tactic.Simps.Basic
import Bluejay.Lib.System
import Bluejay.Lisp.Compiler

/-!
# The machine that runs compiled code

The registers that compiled code uses, the stack, and the heap.  Addresses of the stack are
integers, so that the stack has no end; DynASM is assumed to encode the instructions and to
resolve the labels.

* `Val` : what a register or a word of the stack holds.
* `Instr.exec` : what an instruction does that is not a call.
* `machine calls P` : the program `P`; the relation `calls` says what calls may do.
* `Cdecl calls` : calls keep `esp`, `ebp` and `edi`.
* `fragment calls pre c post` : the machine, while it is in the part `c` of a program.
-/

namespace Bluejay

namespace Lisp

/-- What a register or a word of the stack holds. -/
inductive Val
  | imm (i : Imm)
  /-- An address of the stack. -/
  | address (a : ℤ)
  /-- The address of what compiled code calls. -/
  | entry (f : Extern)
  /-- The address of the label `1:`. -/
  | here
  deriving DecidableEq

/-- A Lisp value. -/
abbrev Val.word (w : Word) : Val := .imm (.word w)

structure Machine where
  /-- The position of the next instruction. -/
  pc : ℕ
  eax : Val
  esp : ℤ
  ebp : ℤ
  /-- The address of the closure that is being run; its data are read through `edi`. -/
  edi : ℕ
  /-- The zero flag. -/
  zf : Bool
  stack : ℤ → Val
  heap : Heap

namespace Machine

variable (m : Machine)

@[simps] def next : Machine := { m with pc := m.pc + 1 }

@[simps] def push (v : Val) : Machine :=
  { m with esp := m.esp - 4, stack := Function.update m.stack (m.esp - 4) v }

/-- The word on top of the stack. -/
def top : Val := m.stack m.esp

@[simps] def drop (n : ℕ) : Machine := { m with esp := m.esp + n }

@[simps] def store (a : ℤ) (v : Val) : Machine := { m with stack := Function.update m.stack a v }

/-- The captured value `k` of the closure being run. -/
def free (k : ℕ) : Option Word :=
  match m.heap.obj m.edi with
  | some (.closure _ _ data) => data[k]?
  | _ => none

/-- Go to the instruction `i` of the program. -/
def goto (P : Code) (i : Instr) : Option Machine :=
  (P.findIdx? (· = i)).map fun p => { m with pc := p }

end Machine

/-- The address of the argument `k`. -/
def argumentAddress (ebp : ℤ) (k : ℕ) : ℤ := ebp + 4 * (k + 2)

/-- The address of the slot `k`. -/
def slotAddress (ebp : ℤ) (k : ℕ) : ℤ := ebp - 4 * (k + 1)

/-- What the instruction does to the machine; `none` for calls, for the end of the code, and
where a register does not hold what it should. -/
def Instr.exec (P : Code) (m : Machine) : Instr → Option Machine
  | .here | .label _ => m.next
  | .pushEbp => (m.push (.address m.ebp)).next
  | .movEbpEsp => { m with ebp := m.esp }.next
  | .subEsp n => { m with esp := m.esp - n }.next
  | .movEspEbp => { m with esp := m.ebp }.next
  | .popEbp =>
    match m.top with
    | .address a => some { m.drop 4 with ebp := a }.next
    | _ => none
  | .ret => none
  | .movEax i => { m with eax := .imm i }.next
  | .pushEax => (m.push m.eax).next
  | .popEax => { m.drop 4 with eax := m.top }.next
  | .push i => (m.push (.imm i)).next
  | .addEsp n => (m.drop n).next
  | .cmpEaxNil => { m with zf := decide (m.eax = Val.word nil) }.next
  | .je l => if m.zf then m.goto P (.label l) else m.next
  | .jne l => if m.zf then m.next else m.goto P (.label l)
  | .jmp l => m.goto P (.label l)
  | .call _ | .callHere | .callEax => none
  | .jmpHere => m.goto P .here
  | .pushHere => (m.push .here).next
  | .loadArgument k => { m with eax := m.stack (argumentAddress m.ebp k) }.next
  | .loadBound k => { m with eax := m.stack (slotAddress m.ebp k) }.next
  | .loadFree k => (m.free k).map fun w => { m with eax := Val.word w }.next
  | .storeArgument k => (m.store (argumentAddress m.ebp k) m.eax).next
  | .storeBound k => (m.store (slotAddress m.ebp k) m.eax).next
  | .movEaxEsp => { m with eax := .address m.esp }.next
  | .movEaxExtern f => { m with eax := .entry f }.next

/-- What a call instruction calls. -/
def Instr.callee (m : Machine) : Instr → Option Val
  | .call f => some (.entry f)
  | .callHere => some .here
  | .callEax => some m.eax
  | _ => none

/-- The machine that runs `P`.  `calls f m m'` says that a call of `f` in `m` may return in
`m'`. -/
def machine (calls : Val → Machine → Machine → Prop) (P : Code) : System Machine Instr where
  step m i m' := P[m.pc]? = some i ∧
    (i.exec P m = some m' ∨ ∃ f m₁, i.callee m = some f ∧ calls f m m₁ ∧
      m' = { m₁ with pc := m.pc + 1 })

/-- What is called keeps the registers that belong to its caller. -/
structure Cdecl (calls : Val → Machine → Machine → Prop) : Prop where
  esp : ∀ {f m m'}, calls f m m' → m'.esp = m.esp
  ebp : ∀ {f m m'}, calls f m m' → m'.ebp = m.ebp
  edi : ∀ {f m m'}, calls f m m' → m'.edi = m.edi

/-- The machine that runs the part `c` of the program `pre ++ c ++ post`. -/
def fragment (calls : Val → Machine → Machine → Prop) (pre c post : Code) :
    System Machine Instr :=
  (machine calls (pre ++ c ++ post)).guard fun m _ =>
    pre.length ≤ m.pc ∧ m.pc < pre.length + c.length

/-! ### Execution -/

/-- The calls that a function answers. -/
def callsOf (answer : Val → Machine → Option Machine) (f : Val) (m m' : Machine) : Prop :=
  answer f m = some m'

/-- The next step, if there is one. -/
def Machine.step? (answer : Val → Machine → Option Machine) (P : Code) (m : Machine) :
    Option (Instr × Machine) := do
  let i ← P[m.pc]?
  match i.exec P m with
  | some m' => some (i, m')
  | none =>
    let f ← i.callee m
    let m₁ ← answer f m
    some (i, { m₁ with pc := m.pc + 1 })

theorem step_of_step? {answer : Val → Machine → Option Machine} {P : Code} {m m' : Machine}
    {i : Instr} (h : m.step? answer P = some (i, m')) : (machine (callsOf answer) P).step m i m' := by
  obtain ⟨j, hj, h⟩ := Option.bind_eq_some_iff.1 h
  cases he : j.exec P m with
  | some m₁ =>
    simp only [he, Option.some.injEq, Prod.mk.injEq] at h
    obtain ⟨rfl, rfl⟩ := h
    exact ⟨hj, .inl he⟩
  | none =>
    simp only [he] at h
    obtain ⟨f, hf, h⟩ := Option.bind_eq_some_iff.1 h
    obtain ⟨m₁, hm₁, h⟩ := Option.bind_eq_some_iff.1 h
    obtain ⟨rfl, rfl⟩ := Prod.mk.inj (Option.some.inj h)
    exact ⟨hj, .inr ⟨f, m₁, hf, hm₁, rfl⟩⟩

/-- At most `k` steps in the part `c` of a program. -/
def Machine.run (answer : Val → Machine → Option Machine) (pre c post : Code) :
    ℕ → Machine → List Instr × Machine
  | 0, m => ([], m)
  | k + 1, m =>
    if pre.length ≤ m.pc ∧ m.pc < pre.length + c.length then
      match m.step? answer (pre ++ c ++ post) with
      | some (i, m') =>
        let r := run answer pre c post k m'
        (i :: r.1, r.2)
      | none => ([], m)
    else ([], m)

theorem run_fragment_run (answer : Val → Machine → Option Machine) (pre c post : Code) (k : ℕ)
    (m : Machine) : (fragment (callsOf answer) pre c post).Run m
      (m.run answer pre c post k).1 (m.run answer pre c post k).2 := by
  induction k generalizing m with
  | zero => exact .nil
  | succ k ih =>
    unfold Machine.run
    split_ifs with hpc
    · cases hs : m.step? answer (pre ++ c ++ post) with
      | none => exact .nil
      | some r => exact (ih r.2).cons ⟨hpc, step_of_step? hs⟩
    · exact .nil

end Lisp

end Bluejay
