import Bluejay.Lib.Recursive
import Bluejay.Lisp.Machine

/-!
# Compiled functions that call each other

The machine with all functions that have been linked: a call of one of them enters its code, and
what else is called answers at once.

* `Routine` : a compiled function, which begins with `setup` and ends with `cleanup`.
* `linked answer load back` : the machine; `load` finds the functions that have been linked.
* `Deaf answer` : what is not compiled does not read the `eax` of its caller.
* `Takes load a c` : the code uses the `eax` that it finds, before it writes a new one; `a` says
  whether it does so once its function is started again.
* `first_setEax` : code that does not is not affected by the `eax` that it finds.
-/

namespace Bluejay

namespace Lisp

/-- A compiled function. -/
structure Routine where
  /-- The number of slots. -/
  reserved : ℕ
  body : Code

def Routine.code (r : Routine) : Code := setup r.reserved ++ r.body ++ cleanup

/-- What the instruction enters, if it calls a compiled function. -/
def Routine.target (load : CodePtr → Option Routine) (r : Routine) : Instr → Option Routine
  | .callHere => some r
  | .call (.function c) => load c
  | _ => none

/-- Go to the start of a function that is to return to the address `v`. -/
def Machine.call (m : Machine) (v : Val) : Machine := { m.push v with pc := 0 }

def Machine.setEax (m : Machine) (v : Val) : Machine := { m with eax := v }

/-- The machine with the functions that `load` finds; `back r p` is the address of the instruction
`p` of `r`. -/
def linked (answer : Val → Machine → Option Machine) (load : CodePtr → Option Routine)
    (back : Routine → ℕ → Val) : Recursive (Routine × Machine) where
  step x y := y.1 = x.1 ∧ ∃ i, x.1.target load i = none ∧
    (machine (callsOf answer) x.1.code).step x.2 i y.2
  enter x b := ∃ i q, x.1.code[x.2.pc]? = some i ∧ x.1.target load i = some q ∧
    b = (q, x.2.call (back x.1 (x.2.pc + 1)))
  leave x r y := r.2.top = back x.1 (x.2.pc + 1) ∧
    y = (x.1, { r.2.drop 4 with pc := x.2.pc + 1 })
  done x := x.1.code[x.2.pc]? = some .ret

/-- What is called does not read the `eax` of its caller. -/
def Deaf (answer : Val → Machine → Option Machine) : Prop :=
  ∀ f m v, answer (.entry f) (m.setEax v) = answer (.entry f) m

/-! ### One way on -/

section Functional

variable {answer : Val → Machine → Option Machine} {load : CodePtr → Option Routine}
  {back : Routine → ℕ → Val} {P : Code} {m m₁ m₂ : Machine} {i j : Instr}

/-- Calls are not executed. -/
theorem exec_of_callee {f : Val} (h : i.callee m = some f) : i.exec P m = none := by
  cases i <;> first | rfl | cases h

theorem machine_step_unique (h : (machine (callsOf answer) P).step m i m₁)
    (h' : (machine (callsOf answer) P).step m j m₂) : m₁ = m₂ := by
  obtain ⟨hi, h⟩ := h
  obtain ⟨hj, h'⟩ := h'
  obtain rfl : i = j := Option.some.inj (hi.symm.trans hj)
  rcases h with he | ⟨f, n, hf, hn, rfl⟩ <;> rcases h' with he' | ⟨f', n', hf', hn', rfl⟩
  · exact Option.some.inj (he.symm.trans he')
  · rw [exec_of_callee hf'] at he
    cases he
  · rw [exec_of_callee hf] at he'
    cases he'
  · obtain rfl := Option.some.inj (hf.symm.trans hf')
    obtain rfl := Option.some.inj (Eq.trans (Eq.symm hn) hn')
    rfl

theorem functional_linked : (linked answer load back).Functional where
  step := by
    rintro x ⟨r, m₁⟩ ⟨r', m₂⟩ ⟨hr, i, -, h⟩ ⟨hr', j, -, h'⟩
    exact Prod.ext (hr.trans hr'.symm) (machine_step_unique h h')
  enter := by
    rintro x b₁ b₂ ⟨i, q, hi, hq, rfl⟩ ⟨j, q', hj, hq', rfl⟩
    obtain rfl : i = j := Option.some.inj (hi.symm.trans hj)
    obtain rfl := Option.some.inj (hq.symm.trans hq')
    rfl
  leave := by
    rintro x r y₁ y₂ ⟨-, rfl⟩ ⟨-, rfl⟩
    rfl
  not_enter := by
    rintro x y b ⟨-, i, hnone, hi, -⟩ ⟨j, q, hj, hq, -⟩
    obtain rfl : i = j := Option.some.inj (hi.symm.trans hj)
    rw [hnone] at hq
    cases hq
  not_step_of_done := by
    rintro x y hd ⟨-, i, -, hi, h⟩
    obtain rfl : i = .ret := Option.some.inj (hi.symm.trans hd)
    rcases h with he | ⟨f, n, hf, -⟩
    · cases he
    · cases hf
  not_enter_of_done := by
    rintro x b hd ⟨i, q, hi, hq, -⟩
    obtain rfl : i = .ret := Option.some.inj (hi.symm.trans hd)
    cases hq

end Functional

/-! ### Code and `eax` -/

/-- The instruction leaves `eax` alone, and the next one follows. -/
def Instr.ignoresEax : Instr → Bool
  | .here | .pushEbp | .movEbpEsp | .subEsp _ | .movEspEbp | .popEbp | .push _ | .addEsp _
  | .label _ | .pushHere => true
  | _ => false

/-- The instruction uses `eax`, or it is a jump that something has been decided for. -/
def Instr.usesEax : Instr → Bool
  | .ret | .pushEax | .cmpEaxNil | .je _ | .jne _ | .jmp _ | .storeArgument _ | .storeBound _
  | .callEax => true
  | _ => false

/-- The code leaves `eax` alone. -/
def SparesEax (c : Code) : Prop := ∀ i ∈ c, i.ignoresEax

/-- The code uses the `eax` that it finds before it writes a new one, in itself or in what it
calls.  A compiled function that first of all starts again is as good as its start, `a`. -/
inductive Takes (load : CodePtr → Option Routine) : Prop → Code → Prop
  | uses {a : Prop} {i : Instr} {c : Code} (hi : i.usesEax) : Takes load a (i :: c)
  | skip {a : Prop} {i : Instr} {c : Code} (hi : i.ignoresEax) (h : Takes load a c) :
      Takes load a (i :: c)
  | call {a : Prop} {f : CodePtr} {q : Routine} {c : Code} (hq : load f = some q)
      (h : Takes load False q.code) : Takes load a (.call (.function f) :: c)
  | again {a : Prop} {c : Code} (ha : a) : Takes load a (.callHere :: c)
  | restart {a : Prop} {c : Code} (ha : a) : Takes load a (.jmpHere :: c)

section Code

variable {load : CodePtr → Option Routine} {a : Prop} {c c' : Code} {i : Instr}

theorem sparesEax_append : SparesEax (c ++ c') ↔ SparesEax c ∧ SparesEax c' := List.forall_mem_append

theorem sparesEax_cons : SparesEax (i :: c) ↔ i.ignoresEax = true ∧ SparesEax c := List.forall_mem_cons

theorem sparesEax_nil : SparesEax [] := List.forall_mem_nil _

theorem Takes.append (h : Takes load a c) (c' : Code) : Takes load a (c ++ c') := by
  induction h with
  | uses hi => exact .uses hi
  | skip hi _ ih => exact .skip hi ih
  | call hq h => exact .call hq h
  | again ha => exact .again ha
  | restart ha => exact .restart ha

/-- Code takes `eax` in its first part, or hands it on to the second. -/
theorem takes_append (h : Takes load a (c ++ c')) : Takes load a c ∨ SparesEax c ∧ Takes load a c' := by
  induction c with
  | nil => exact .inr ⟨sparesEax_nil, h⟩
  | cons i c ih =>
    cases h with
    | uses hi => exact .inl (.uses hi)
    | skip hi h =>
      rcases ih h with h | ⟨hp, h⟩
      · exact .inl (.skip hi h)
      · exact .inr ⟨sparesEax_cons.2 ⟨hi, hp⟩, h⟩
    | call hq h => exact .inl (.call hq h)
    | again ha => exact .inl (.again ha)
    | restart ha => exact .inl (.restart ha)

/-- What is neither left alone nor used is written, or a call or a new start. -/
theorem Instr.eax_cases (hi : i.ignoresEax = false) (hu : i.usesEax = false) :
    i = .callHere ∨ i = .jmpHere ∨ (∃ f, i = .call f) ∨
      (∀ m, i.callee m = none) ∧ ∀ P m v, i.exec P (m.setEax v) = i.exec P m := by
  cases i with
  | callHere => exact .inl rfl
  | jmpHere => exact .inr (.inl rfl)
  | call f => exact .inr (.inr (.inl ⟨f, rfl⟩))
  | movEax | popEax | loadArgument | loadBound | loadFree | movEaxEsp | movEaxExtern =>
    exact .inr (.inr (.inr ⟨fun _ => rfl, fun _ _ _ => rfl⟩))
  | _ => simp [Instr.ignoresEax, Instr.usesEax] at hi hu

/-- What leaves `eax` alone does the same whatever it is. -/
theorem exec_setEax (hi : i.ignoresEax) {P : Code} {m m₁ : Machine} (he : i.exec P m = some m₁)
    (v : Val) : m₁.pc = m.pc + 1 ∧ i.exec P (m.setEax v) = some (m₁.setEax v) := by
  cases i with
  | popEbp =>
    have htop : (m.setEax v).top = m.top := rfl
    cases h : m.top with
    | address a =>
      simp only [Instr.exec, h, Option.some.injEq] at he
      subst he
      refine ⟨rfl, ?_⟩
      rw [Instr.exec, htop, h]
      rfl
    | _ =>
      simp only [Instr.exec, h] at he
      cases he
  | here | pushEbp | movEbpEsp | subEsp | movEspEbp | push | addEsp | label | pushHere =>
    obtain rfl := Option.some.inj he
    exact ⟨rfl, rfl⟩
  | _ => cases hi

theorem callee_of_ignores (hi : i.ignoresEax) (m : Machine) : i.callee m = none := by
  cases i <;> first | rfl | cases hi

end Code

/-! ### Runs -/

section Runs

variable {answer : Val → Machine → Option Machine} {load : CodePtr → Option Routine}
  {back : Routine → ℕ → Val} {r : Routine}

theorem Routine.not_sparesEax (r : Routine) : ¬ SparesEax r.code := by
  intro h
  have hret := h .ret (by simp [Routine.code, cleanup])
  cases hret

theorem Routine.goto_here (r : Routine) (m : Machine) : m.goto r.code .here =
    some { m with pc := 0 } := by
  simp [Machine.goto, Routine.code, setup, List.findIdx?_cons]

/-- The code from the position `p` to the position `e`. -/
def Routine.between (r : Routine) (p e : ℕ) : Code := (r.code.take e).drop p

theorem Routine.between_eq_cons {p e : ℕ} (h : r.between p e ≠ []) :
    ∃ i, r.code[p]? = some i ∧ p < e ∧ r.between p e = i :: r.between (p + 1) e := by
  have hlt : p < (r.code.take e).length := by
    by_contra hle
    exact h (List.drop_eq_nil_of_le (Nat.le_of_not_lt hle))
  have hp := hlt
  rw [List.length_take] at hp
  refine ⟨(r.code.take e)[p], ?_, by omega, List.drop_eq_getElem_cons hlt⟩
  rw [← List.getElem?_eq_getElem hlt, List.getElem?_take, if_pos (by omega)]

theorem Routine.between_all (r : Routine) : r.between 0 r.code.length = r.code := by
  simp [Routine.between]

/-- Code that writes `eax` before it uses it gets to the same state from any `eax`. -/
theorem first_setEax (hdeaf : Deaf answer) {k : ℕ} {a : Prop} {e : ℕ} {m : Machine}
    {T : Routine × Machine → Prop} {y : Routine × Machine}
    (hT : ∀ n, T (r, n) → r.code[n.pc]? = some .ret ∨ e ≤ n.pc)
    (ha : Takes load False (r.between 0 e) → a) (hu : ¬ Takes load a (r.between m.pc e))
    (hp : ¬ SparesEax (r.between m.pc e)) (h : (linked answer load back).First T k (r, m) y)
    (v : Val) : (linked answer load back).First T k (r, m.setEax v) y := by
  induction k using Nat.strong_induction_on generalizing r a e m T y v with
  | h k ih =>
    obtain ⟨i, hi, hlt, hcons⟩ := r.between_eq_cons (p := m.pc) (e := e) fun h => hp (h ▸ sparesEax_nil)
    rw [hcons] at hu hp
    have huses : i.usesEax = false := Bool.eq_false_iff.2 fun h => hu (.uses h)
    -- both machines are on the way as long as they have the same position
    have hway : ∀ n : Machine, n.pc = m.pc → ¬ T (r, n) := by
      intro n hn hTn
      rcases hT n hTn with hret | hle
      · rw [hn, hi] at hret
        cases hret
        cases huses
      · omega
    -- a new start gets to where the code is, unless it writes `eax` before
    have hstart : ¬ SparesEax (r.between 0 e) := by
      intro h
      refine hp (hcons ▸ fun j hj => h j ?_)
      exact List.mem_of_mem_drop hj
    have hagain : ¬ a → ¬ Takes load False r.code := by
      intro hna h
      have hsplit : r.between 0 e ++ r.code.drop e = r.code := List.take_append_drop e r.code
      rw [← hsplit] at h
      rcases takes_append h with h | ⟨h, -⟩
      · exact hna (ha h)
      · exact hstart h
    have hcalled : ∀ {q j b}, ¬ Takes load False q.code → j < k → ∀ n : Machine, n.pc = 0 →
        (linked answer load back).Ends j (q, n) b →
        (linked answer load back).Ends j (q, n.setEax v) b := by
      intro q j b hq hj n hn h
      have hall : q.between n.pc q.code.length = q.code := by rw [hn, q.between_all]
      rw [Recursive.ends_iff_first functional_linked] at h ⊢
      exact ih j hj (a := False) (e := q.code.length) (fun n hd => .inl hd)
        (by rwa [q.between_all]) (by rwa [hall]) (by rw [hall]; exact q.not_sparesEax) h v
    cases h with
    | here h => exact absurd h (hway m rfl)
    | @step k _ y₁ _ hs hstep h' =>
      obtain ⟨r₁, m₁⟩ := y₁
      obtain ⟨hr, j, htarget, hj, hstep⟩ := hstep
      obtain rfl : r = r₁ := hr.symm
      obtain rfl : i = j := Option.some.inj (hi.symm.trans hj)
      have hnext : ∀ n, i.exec r.code (m.setEax v) = some n →
          (linked answer load back).step (r, m.setEax v) (r, n) :=
        fun n hn => ⟨rfl, i, htarget, hi, .inl hn⟩
      cases hign : i.ignoresEax with
      | true =>
        rcases hstep with he | ⟨f, n, hf, -⟩
        · obtain ⟨hpc, he'⟩ := exec_setEax hign he v
          refine .step (hway _ rfl) (hnext _ he') (ih k (Nat.lt_succ_self k) hT ha ?_ ?_ h' v)
          · rw [hpc]
            exact fun h => hu (.skip hign h)
          · rw [hpc]
            exact fun h => hp (sparesEax_cons.2 ⟨hign, h⟩)
        · rw [callee_of_ignores hign] at hf
          cases hf
      | false =>
        rcases Instr.eax_cases hign huses with rfl | rfl | ⟨f, rfl⟩ | hsets
        · cases htarget
        · rcases hstep with he | ⟨f, n, hf, -⟩
          · have hna : ¬ a := fun ha' => hu (.restart ha')
            have hgo : Instr.exec r.code m .jmpHere = some { m with pc := 0 } := r.goto_here m
            obtain rfl := Option.some.inj (hgo.symm.trans he)
            refine .step (hway _ rfl) (hnext _ (r.goto_here (m.setEax v))) ?_
            refine ih k (Nat.lt_succ_self k) (a := False) hT ?_ ?_ hstart h' v
            · exact fun h => hna (ha h)
            · exact fun h => hna (ha h)
          · cases hf
        · rcases hstep with he | ⟨f', n, hf, hn, rfl⟩
          · cases he
          · obtain rfl : Val.entry f = f' := Option.some.inj hf
            have hn' : callsOf answer (.entry f) (m.setEax v) n := (hdeaf f m v).trans hn
            have hstep' : (linked answer load back).step (r, m.setEax v)
                (r, { n with pc := m.pc + 1 }) :=
              ⟨rfl, _, htarget, hi, .inr ⟨_, n, rfl, hn', rfl⟩⟩
            exact .step (hway _ rfl) hstep' h'
        · rcases hstep with he | ⟨f, n, hf, -⟩
          · exact .step (hway _ rfl) (hnext _ ((hsets.2 _ _ _).trans he)) h'
          · rw [hsets.1] at hf
            cases hf
    | call hs he hb hl h' =>
      obtain ⟨j, q, hj, htarget, rfl⟩ := he
      obtain rfl : i = j := Option.some.inj (hi.symm.trans hj)
      have hq : ¬ Takes load False q.code := by
        cases i with
        | callHere =>
          obtain rfl : r = q := Option.some.inj htarget
          exact hagain fun ha' => hu (.again ha')
        | call f =>
          cases f with
          | function c => exact fun h => hu (.call htarget h)
          | _ => cases htarget
        | _ => cases htarget
      exact .call (hway _ rfl) ⟨i, q, hi, htarget, rfl⟩ (hcalled hq (by omega) _ rfl hb) hl h'

end Runs

end Lisp

end Bluejay
