import Bluejay.Lisp.Silent

/-!
# What is left in `eax`

Whether the value of a form or of a function depends on what was in `eax` before.

* `bodyState` : the state in which `compile_function` compiles the body.
* `SameValue answer load back r p T` : the value that is left in `eax` does not depend on what was
  there; `SameExpression` and `SameFunction` are this for expressions and functions.
* `Exposed` : the first thing that is done with `eax` is to use what is there, or nothing is done.
* `sameValue_compiled` : what is not exposed has one value, and what has no code has none.
-/

namespace Bluejay

namespace Lisp

open Emitter

/-! ### Functions -/

section Functions

variable (R : Runtime) (C : Compiler)

/-- What `compile_function` does before it emits code. -/
def prepareBody (args : Word) : CompileM ℕ := do
  let arglist ← car args
  let body ← cdr args
  let ar ← listToArgs R C C.steps arglist newArgs false
  modifyLocal fun l => { l with args := ar }
  forList (fun body_ => C.walkAndAlloc body_ false) C.steps body
  return (← getLocal).numStackEntries

/-- The state in which `compile_function` compiles the body. -/
def bodyState (args : Word) (closed : Bool) (name : Option String) (path : String) (s : State) :
    Option State :=
  match prepareBody R C args
    { s with locals := .new name path :: if closed then s.locals else [] } with
  | .ok _ _ s₁ => some { s₁ with locals := s₁.locals.modifyHead Local.resetSlots }
  | .error _ _ => none

variable {R C}

/-- The code of a function is that of its body, between `setup` and `cleanup`. -/
theorem routine_of_function (hS : C.Sound) {args : Word} {closed : Bool} {name : Option String}
    {path : String} {s s' : State} {ar : Args} {l : Local} {c d : Code}
    (h : compileFunction R C args closed name path s = .ok (ar, l, d) c s') :
    ∃ r s₁ s₂, d = Routine.code r ∧ bodyState R C args closed name path s = some s₁ ∧
      compileBody C (s.world.heap.cdr args) true s₁ = .ok () r.body s₂ ∧
      s₂.locals.head? = some l ∧ l.args = ar := by
  obtain ⟨t, c₁, s₁, c₂, rfl, hg, h₁⟩ := bind_ok_iff.1 h
  obtain ⟨rfl, rfl, rfl⟩ := get_ok_iff.1 hg
  obtain ⟨_, c₃, s₂, c₄, rfl, hm, h₂⟩ := bind_ok_iff.1 h₁
  obtain ⟨rfl, rfl⟩ := modify_ok_iff.1 hm
  obtain ⟨⟨_, d'⟩, c₅, s₃, c₆, rfl, hb, h₃⟩ := bind_ok_iff.1 h₂
  obtain ⟨hrun, rfl⟩ := capture_ok_iff.1 hb
  dsimp only at h₃
  obtain ⟨l', rest', hlast, h₃⟩ := getLocal_cons h₃
  obtain ⟨_, c₈, s₅, c₉, rfl, hm, h₄⟩ := bind_ok_iff.1 h₃
  obtain ⟨hr, rfl, rfl⟩ := pure_ok_iff.1 h₄
  obtain ⟨har, rfl, rfl⟩ : l'.args = ar ∧ l' = l ∧ d' = d := by simpa using hr
  rw [compileFunctionBody, car_bind_eq, cdr_bind_eq] at hrun
  obtain ⟨ar', c₁, s₂, c₂, rfl, hparams, hrun₁⟩ := bind_ok_iff.1 hrun
  obtain ⟨rfl, -⟩ := emits_listToArgs hS hparams
  rw [modifyLocal_bind_eq] at hrun₁
  obtain ⟨_, c₃, s₄, c₄, rfl, hwalk, hrun₂⟩ := bind_ok_iff.1 hrun₁
  obtain ⟨rfl, -⟩ := walks_forList hS hwalk
  obtain ⟨l₂, rest, hlocals, hrun₃⟩ := getLocal_cons hrun₂
  obtain ⟨c₅, rfl, hrun₄⟩ := emit_bind hrun₃
  rw [modifyLocal_bind_eq] at hrun₄
  obtain ⟨_, c₆, s₇, c₇, rfl, hbody, hclean⟩ := bind_ok_iff.1 hrun₄
  obtain ⟨rfl, rfl⟩ := emit_ok_iff.1 hclean
  refine ⟨⟨l₂.numStackEntries, c₆⟩, _, s₇, ?_, ?_, hbody, by rw [hlast]; rfl, har⟩
  · simp only [Routine.code, List.nil_append, List.append_assoc]
  · have hget : getLocal s₄ = .ok l₂ [] s₄ := by
      rw [getLocal, bind_of_ok (show get s₄ = .ok s₄ [] s₄ from rfl), hlocals]
      rfl
    have hprep : prepareBody R C args
        { s with locals := .new name path :: if closed then s.locals else [] } =
        .ok l₂.numStackEntries [] s₄ := by
      rw [prepareBody, car_bind_eq, cdr_bind_eq, bind_of_ok hparams, modifyLocal_bind_eq,
        bind_of_ok hwalk, bind_of_ok hget]
      rfl
    rw [bodyState, hprep]

end Functions

/-! ### Values -/

section Values

variable (answer : Val → Machine → Option Machine) (load : CodePtr → Option Routine)
  (back : Routine → ℕ → Val)

/-- Whatever is in `eax` at the position `p` of `r`, the value in `eax` is the same when the
activation first gets to `T`. -/
def SameValue (r : Routine) (p : ℕ) (T : Routine × Machine → Prop) : Prop :=
  ∀ m v k y, m.pc = p → (linked answer load back).First T k (r, m) y →
    (∃ j z, (linked answer load back).First T j (r, m.setEax v) z) ∧
    ∀ j z, (linked answer load back).First T j (r, m.setEax v) z → z.2.eax = y.2.eax

/-- The value of an expression with the code `c`, in the function with the body
`pre ++ c ++ post`. -/
def SameExpression (reserved : ℕ) (pre c post : Code) : Prop :=
  SameValue answer load back ⟨reserved, pre ++ c ++ post⟩ (4 + pre.length)
    fun x => x.2.pc = 4 + pre.length + c.length

/-- The value of a function. -/
def SameFunction (r : Routine) : Prop :=
  SameValue answer load back r 0 (linked answer load back).done

/-- The code of the part has to do with the `eax` that it finds. -/
def Exposed (R : Runtime) (own : Option (String × Args)) (a : Prop) (w : World) (p : Part) : Prop :=
  (∃ w', Silent R own w p w') ∨ Taken R own load a w p

variable {answer load back} {r : Routine} {a : Prop} {c : Code}

theorem sameValue_of_first (hdeaf : Deaf answer) {p e : ℕ} {T : Routine × Machine → Prop}
    (hT : ∀ n, T (r, n) → r.code[n.pc]? = some .ret ∨ e ≤ n.pc)
    (ha : Takes load False (r.between 0 e) → a) (hu : ¬ Takes load a (r.between p e))
    (hp : ¬ SparesEax (r.between p e)) : SameValue answer load back r p T := by
  rintro m v k y rfl h
  have h' := first_setEax hdeaf hT ha hu hp h v
  refine ⟨⟨k, y, h'⟩, fun j z hz => ?_⟩
  rw [h'.unique functional_linked hz]

theorem between_expression (reserved : ℕ) (pre c post : Code) :
    (⟨reserved, pre ++ c ++ post⟩ : Routine).between (4 + pre.length)
      (4 + pre.length + c.length) = c := by
  have hcode : (⟨reserved, pre ++ c ++ post⟩ : Routine).code =
      (setup reserved ++ pre) ++ (c ++ (post ++ cleanup)) := by
    simp only [Routine.code, List.append_assoc]
  have hlen : (setup reserved ++ pre).length = 4 + pre.length := by
    rw [List.length_append]
    rfl
  rw [Routine.between, hcode, ← hlen, ← List.length_append, ← List.append_assoc,
    List.take_left, List.drop_left]

/-- An expression that is not exposed has one value. -/
theorem sameExpression_of_not_exposed (hdeaf : Deaf answer) {R : Runtime} {n : ℕ} {v : Word}
    {tail : Bool} {s s' : State} (h : (compiler R n).compileExpression v tail s = .ok () c s')
    {reserved : ℕ} {pre post : Code}
    (hne : ¬ Exposed load R s.own (Takes load False (Routine.code ⟨reserved, pre ++ c ++ post⟩))
      s.world (.form tail v)) : SameExpression answer load back reserved pre c post := by
  have hshows := (shown_compiler R load
    (Takes load False (Routine.code ⟨reserved, pre ++ c ++ post⟩)) n).form h
  refine sameValue_of_first hdeaf (e := 4 + pre.length + c.length)
    (a := Takes load False (Routine.code ⟨reserved, pre ++ c ++ post⟩))
    (fun n hn => .inr hn.ge) (fun ht => ?_) ?_ ?_
  · have happend := ht.append (List.drop (4 + pre.length + c.length)
      (Routine.code ⟨reserved, pre ++ c ++ post⟩))
    rwa [Routine.between, List.drop_zero, List.take_append_drop] at happend
  · rw [between_expression]
    exact fun ht => hne (.inr (hshows.taken ht))
  · rw [between_expression]
    exact fun hs => hne (.inl ⟨_, (hshows.silent hs).1⟩)

/-- A function whose body is not exposed has one value. -/
theorem sameFunction_of_not_exposed (hdeaf : Deaf answer) {R : Runtime} {n : ℕ} {body : Word}
    {s s' : State} (h : compileBody (compiler R n) body true s = .ok () r.body s')
    (hne : ¬ Exposed load R s.own False s.world (.body true body)) :
    SameFunction answer load back r := by
  have hshows := shows_body (shown_compiler R load False n) h
  have hsetup : SparesEax (setup r.reserved) := by
    intro i hi
    simp only [setup, List.mem_cons, List.not_mem_nil, or_false] at hi
    rcases hi with rfl | rfl | rfl | rfl <;> rfl
  have hall := r.between_all
  have htakes : ¬ Takes load False r.code := by
    intro ht
    rw [Routine.code, List.append_assoc] at ht
    rcases takes_append ht with ht | ⟨-, ht⟩
    · exact hsetup.not_takes ht
    rcases takes_append ht with ht | ⟨hs, -⟩
    · exact hne (.inr (hshows.taken ht))
    · exact hne (.inl ⟨_, (hshows.silent hs).1⟩)
  exact sameValue_of_first hdeaf (e := r.code.length) (a := False) (fun n hn => .inl hn)
    (by rwa [hall]) (by rwa [hall]) (by rw [hall]; exact r.not_sparesEax)

/-! ### Forms without code -/

/-- An instruction that is not a call leads to the next state. -/
theorem first_of_exec {T : Routine × Machine → Prop} {m m₁ : Machine} {i : Instr} {k : ℕ}
    {y : Routine × Machine} (hT : ¬ T (r, m)) (hi : r.code[m.pc]? = some i)
    (htarget : r.target load i = none) (he : i.exec r.code m = some m₁)
    (h : (linked answer load back).First T k (r, m₁) y) :
    (linked answer load back).First T (k + 1) (r, m) y := by
  have hstep : (linked answer load back).step (r, m) (r, m₁) := ⟨rfl, i, htarget, hi, .inl he⟩
  exact .step hT hstep h

/-- From label to label, nothing changes but the position. -/
theorem first_of_labels {T : Routine × Machine → Prop} {k : ℕ} {y : Routine × Machine}
    {m : Machine} {d : Code} (hcode : r.code.drop m.pc = c ++ d) (hc : OnlyLabels c)
    (hT : ∀ n : Machine, m.pc ≤ n.pc → n.pc < m.pc + c.length → ¬ T (r, n))
    (h : (linked answer load back).First T k (r, { m with pc := m.pc + c.length }) y) :
    ∃ j, (linked answer load back).First T j (r, m) y := by
  induction c generalizing m with
  | nil => exact ⟨k, h⟩
  | cons i c ih =>
    obtain ⟨l, rfl⟩ := hc i List.mem_cons_self
    have hi : r.code[m.pc]? = some (.label l) := by
      have hget := congrArg (·[0]?) hcode
      simpa using hget
    have hnext : r.code.drop m.next.pc = c ++ d := by
      have htail := congrArg List.tail hcode
      rwa [List.tail_drop] at htail
    have hpc : m.next.pc + c.length = m.pc + (c.length + 1) := by
      simp only [Machine.next_pc]
      omega
    have hT' : ∀ n : Machine, m.next.pc ≤ n.pc → n.pc < m.next.pc + c.length → ¬ T (r, n) := by
      intro n hle hlt
      exact hT n (Nat.le_of_succ_le hle) (by rwa [List.length_cons, ← hpc])
    have hlast : (linked answer load back).First T k
        (r, { m.next with pc := m.next.pc + c.length }) y := by
      rwa [hpc]
    obtain ⟨j, hj⟩ := ih hnext (fun i hi => hc i (List.mem_cons_of_mem _ hi)) hT' hlast
    have hnot : ¬ T (r, m) := hT m le_rfl (Nat.lt_add_of_pos_right (Nat.succ_pos _))
    exact ⟨j + 1, first_of_exec hnot hi rfl rfl hj⟩

/-- What hands on the `eax` that it finds has no value of its own. -/
theorem not_sameValue {p : ℕ} {T : Routine × Machine → Prop} (h : ∀ m : Machine, m.pc = p →
    ∃ j y, (linked answer load back).First T j (r, m) y ∧ y.2.eax = m.eax) :
    ¬ SameValue answer load back r p T := by
  intro hsame
  let m : Machine := ⟨p, .word nil, 0, 0, 0, false, fun _ => .word nil, Heap.ofList []⟩
  obtain ⟨j, y, hy, heax⟩ := h m rfl
  obtain ⟨k, z, hz, heax'⟩ := h (m.setEax (.word t)) rfl
  have heq := (hsame m (.word t) j y rfl hy).2 k z hz
  rw [heax, heax'] at heq
  exact absurd (show Val.word t = Val.word nil from heq) (by decide)

/-- Code that only has labels hands on what it finds. -/
theorem not_sameExpression_of_labels (hc : OnlyLabels c) (reserved : ℕ) (pre post : Code) :
    ¬ SameExpression answer load back reserved pre c post := by
  refine not_sameValue fun m hm => ?_
  have hcode : (⟨reserved, pre ++ c ++ post⟩ : Routine).code.drop m.pc =
      c ++ (post ++ cleanup) := by
    have hsplit : (⟨reserved, pre ++ c ++ post⟩ : Routine).code =
        (setup reserved ++ pre) ++ (c ++ (post ++ cleanup)) := by
      simp only [Routine.code, List.append_assoc]
    have hlen : (setup reserved ++ pre).length = m.pc := by
      rw [hm, List.length_append]
      rfl
    rw [hsplit, ← hlen, List.drop_left]
  have hbetween : ∀ n : Machine, m.pc ≤ n.pc → n.pc < m.pc + c.length →
      ¬ n.pc = 4 + pre.length + c.length := by
    intro n _ hlt
    omega
  have hend : m.pc + c.length = 4 + pre.length + c.length := by rw [hm]
  obtain ⟨j, hj⟩ := first_of_labels (T := fun x => x.2.pc = 4 + pre.length + c.length) hcode hc
    hbetween (.here hend)
  exact ⟨j, _, hj, rfl⟩

/-- A function without code hands on what it finds. -/
theorem not_sameFunction_of_labels (hc : OnlyLabels r.body) :
    ¬ SameFunction answer load back r := by
  refine not_sameValue fun m hm => ?_
  have hcode : r.code = setup r.reserved ++ (r.body ++ cleanup) := by
    rw [Routine.code, List.append_assoc]
  have hat : ∀ (k : ℕ) (i : Instr), (setup r.reserved)[k]? = some i → r.code[k]? = some i := by
    intro k i hi
    rw [hcode, List.getElem?_append_left (List.getElem?_eq_some_iff.1 hi).1, hi]
  have hend : ∀ k : ℕ, r.code[4 + r.body.length + k]? = cleanup[k]? := by
    intro k
    have hlen : (setup r.reserved ++ r.body).length = 4 + r.body.length := by
      rw [List.length_append]
      rfl
    rw [Routine.code, List.getElem?_append_right (by omega), hlen, Nat.add_sub_cancel_left]
  have hnot : ∀ (n : Machine) i, r.code[n.pc]? = some i → i ≠ .ret →
      ¬ (linked answer load back).done (r, n) := by
    intro n i hi hret hd
    exact hret (Option.some.inj (hi.symm.trans hd))
  have hlast : ∀ n : Machine, n.pc = 4 + r.body.length → n.stack n.ebp = .address m.ebp →
      ∃ j y, (linked answer load back).First (linked answer load back).done j (r, n) y ∧
        y.2.eax = n.eax := by
    intro n hn hsaved
    have hmov : r.code[n.pc]? = some .movEspEbp := by
      rw [hn]
      exact hend 0
    have hpop : r.code[{ n with esp := n.ebp }.next.pc]? = some .popEbp := by
      rw [Machine.next_pc, hn]
      exact hend 1
    have hret : r.code[n.pc + 1 + 1]? = some .ret := by
      rw [hn]
      exact hend 2
    have htop : { n with esp := n.ebp }.next.top = .address m.ebp := hsaved
    have hexec : Instr.exec r.code { n with esp := n.ebp }.next .popEbp =
        some { { n with esp := n.ebp }.next.drop 4 with ebp := m.ebp }.next := by
      rw [Instr.exec, htop]
    refine ⟨_, _, first_of_exec (hnot _ _ hmov (by decide)) hmov rfl rfl
      (first_of_exec (hnot _ _ hpop (by decide)) hpop rfl hexec (.here hret)), rfl⟩
  -- `setup`
  let n : Machine := { { m.next.push (.address m.ebp) with ebp := m.esp - 4 } with
    pc := 4, esp := m.esp - 4 - (4 * r.reserved : ℕ) }
  have hsaved : n.stack n.ebp = .address m.ebp := Function.update_self ..
  obtain ⟨j, y, hy, heax⟩ := hlast { n with pc := n.pc + r.body.length } rfl hsaved
  have hdrop : r.code.drop n.pc = r.body ++ cleanup := by
    rw [hcode]
    show List.drop (setup r.reserved).length _ = _
    exact List.drop_left
  have hbetween : ∀ n' : Machine, n.pc ≤ n'.pc → n'.pc < n.pc + r.body.length →
      ¬ (linked answer load back).done (r, n') := by
    intro n' hle hlt hret
    have hle' : 4 ≤ n'.pc := hle
    have hlt' : n'.pc < 4 + r.body.length := hlt
    have hbody : r.code[n'.pc]? = r.body[n'.pc - 4]? := by
      rw [hcode, List.getElem?_append_right hle', List.getElem?_append_left]
      · rfl
      · show n'.pc - 4 < r.body.length
        omega
    have hmem : Instr.ret ∈ r.body := List.mem_of_getElem? (hbody.symm.trans hret)
    obtain ⟨l, hl⟩ := hc _ hmem
    cases hl
  obtain ⟨k, hk⟩ := first_of_labels hdrop hc hbetween hy
  have h₀ : r.code[m.pc]? = some .here := hm ▸ hat 0 _ rfl
  have h₁ : r.code[m.pc + 1]? = some .pushEbp := hm ▸ hat 1 _ rfl
  have h₂ : r.code[m.pc + 1 + 1]? = some .movEbpEsp := hm ▸ hat 2 _ rfl
  have h₃ : r.code[m.pc + 1 + 1 + 1]? = some (.subEsp (4 * r.reserved)) := hm ▸ hat 3 _ rfl
  have hn : n = { { (m.next.push (.address m.ebp)).next with ebp := m.esp - 4 }.next with
      esp := m.esp - 4 - (4 * r.reserved : ℕ) }.next := by
    simp [n, hm, Machine.next, Machine.push]
  rw [hn] at hk
  have hsub : Instr.subEsp (4 * r.reserved) ≠ .ret := by simp
  exact ⟨_, y, first_of_exec (hnot m _ h₀ (by decide)) h₀ rfl rfl
    (first_of_exec (hnot m.next _ h₁ (by decide)) h₁ rfl rfl
    (first_of_exec (hnot (m.next.push (.address m.ebp)).next _ h₂ (by decide)) h₂ rfl rfl
    (first_of_exec (hnot _ _ h₃ hsub) h₃ rfl rfl hk))), heax⟩

/-! ### Which forms have a value -/

/-- A form that is no list is not exposed. -/
theorem not_exposed_of_not_consp {R : Runtime} {own : Option (String × Args)} {w : World}
    {tail : Bool} {v : Word} (hv : consp v = false) : ¬ Exposed load R own a w (.form tail v) := by
  have hcar : w.heap.car v = nil := if_neg (by simp [hv])
  have hnamed : ∀ name, ¬ w.heap.Named (w.heap.car v) name := by
    rintro name ⟨hsym, -⟩
    rw [hcar] at hsym
    exact absurd hsym (by decide)
  have hbecomes : ∀ w' p, ¬ Becomes R own w (.form tail v) w' p := by
    intro w' p h
    cases h with
    | progn h => exact hnamed _ h
    | andOr _ h => exact hnamed _ h
    | backquote h => exact hnamed _ h
    | macro_ h => exact hnamed _ h.named
  have huses : ∀ p, ¬ Uses own w (.form tail v) p := by
    intro p h
    cases h with
    | ite h => exact hnamed _ h
    | let1 h => exact hnamed _ h
    | list h => exact hnamed _ h
    | unary _ h => exact hnamed _ h
    | own h =>
      obtain ⟨name, h, -⟩ := h
      exact hnamed _ h
    | call h => exact hnamed _ h.named
  rintro (⟨w', h⟩ | h)
  · cases h with
    | becomes h => exact hbecomes _ _ h
    | other h => exact hnamed _ h.named
  · cases h with
    | becomes h => exact hbecomes _ _ h
    | silent h => exact huses _ h
    | uses h => exact huses _ h
    | call h => exact hnamed _ h.named
    | again _ h =>
      obtain ⟨name, h, -⟩ := h
      exact hnamed _ h

/-- Forms are not exposed behind one that is not. -/
theorem not_exposed_body {R : Runtime} {own : Option (String × Args)} {w : World} {tail : Bool}
    {v : Word} (hnil : nilp v = false)
    (h : ¬ Exposed load R own a w (.form (tail && nilp (w.heap.cdr v)) (w.heap.car v))) :
    ¬ Exposed load R own a w (.body tail v) := by
  rintro (⟨w', hs⟩ | ht)
  · cases hs with
    | becomes hb => cases hb
    | nil hnil' =>
      rw [hnil] at hnil'
      cases hnil'
    | cons _ hd => exact h (.inl ⟨_, hd⟩)
  · cases ht with
    | becomes hb => cases hb
    | silent hu => cases hu
    | uses hu => cases hu
    | head _ hd => exact h (.inr hd)
    | rest _ hd => exact h (.inl ⟨_, hd⟩)

/-- Expressions and functions have a value of their own, whatever is in `eax`, unless the first
thing that they do has to do with it; those that have no code have none. -/
theorem sameValue_compiled (hdeaf : Deaf answer) (load : CodePtr → Option Routine)
    (back : Routine → ℕ → Val) (R : Runtime) (n : ℕ) :
    (∀ v tail s c s', (compiler R n).compileExpression v tail s = .ok () c s' →
      ∀ reserved pre post,
        (¬ Exposed load R s.own (Takes load False (Routine.code ⟨reserved, pre ++ c ++ post⟩))
            s.world (.form tail v) → SameExpression answer load back reserved pre c post) ∧
        ∀ w, Silent R s.own s.world (.form tail v) w →
          ¬ SameExpression answer load back reserved pre c post) ∧
    ∀ args closed name path s ar l d c s',
      compileFunction R (compiler R n) args closed name path s = .ok (ar, l, d) c s' →
      ∃ r s₁, d = Routine.code r ∧ bodyState R (compiler R n) args closed name path s = some s₁ ∧
        (¬ Exposed load R s₁.own False s₁.world (.body true (s.world.heap.cdr args)) →
          SameFunction answer load back r) ∧
        ∀ w, Silent R s₁.own s₁.world (.body true (s.world.heap.cdr args)) w →
          ¬ SameFunction answer load back r := by
  constructor
  · intro v tail s c s' h reserved pre post
    refine ⟨sameExpression_of_not_exposed hdeaf h, fun w hw => ?_⟩
    obtain ⟨hc, -⟩ := hw.onlyLabels (n := n) rfl rfl h
    exact not_sameExpression_of_labels hc reserved pre post
  · intro args closed name path s ar l d c s' h
    obtain ⟨r, s₁, s₂, hd, hs₁, hbody, -⟩ := routine_of_function (compiler_sound R n) h
    refine ⟨r, s₁, hd, hs₁, sameFunction_of_not_exposed hdeaf hbody, fun w hw => ?_⟩
    obtain ⟨hc, -⟩ := hw.onlyLabels (n := n) rfl rfl ⟨_, hbody⟩
    exact not_sameFunction_of_labels hc

end Values

/-! ### Functions without a body -/

/-- The code of the function of which `e` is the parameters and the body. -/
def codeOf (e : Sexp) : Option Code :=
  (compileFunction .inert (compiler .inert 3) e.heap.2 true (some "recurse") "" e.state).value.map
    fun r => r.2.2

/-- `(() 5)`, what follows `lambda`. -/
def fiveForm : Sexp := .list [.list [], .int 5]

/-- The value of `(lambda () 5)` is that of its body. -/
theorem sameFunction_five : ∃ r : Routine, codeOf fiveForm = some r.code ∧
    SameFunction (fun _ _ => none) (fun _ => none) (fun _ _ => .here) r := by
  have hcode : codeOf fiveForm = some (setup 0 ++ [.movEax (.word (intval 5))] ++ cleanup) := rfl
  obtain ⟨⟨ar, l, d⟩, c, s', h, hd'⟩ := Emitted.exists_of_value hcode
  have hdeaf : Deaf fun _ _ => none := fun _ _ _ => rfl
  obtain ⟨r, s₁, hd, hs₁, hsame, -⟩ := (sameValue_compiled hdeaf (fun _ => none)
    (fun _ _ => .here) .inert 3).2 _ _ _ _ _ _ _ _ _ _ h
  refine ⟨r, hcode.trans (congrArg some (hd'.symm.trans hd)), hsame ?_⟩
  obtain rfl := Option.some.inj hs₁
  exact not_exposed_body rfl (not_exposed_of_not_consp rfl)

/-- `(())`, what follows `lambda`. -/
def emptyForm : Sexp := .list [.list []]

/-- A function without a body returns what its caller left in `eax`. -/
theorem not_sameFunction_all : ¬ ∀ (R : Runtime) (n : ℕ) (args : Word) (closed : Bool)
    (name : Option String) (path : String) (s : State) (ar : Args) (l : Local) (r : Routine)
    (c : Code) (s' : State),
    compileFunction R (compiler R n) args closed name path s = .ok (ar, l, r.code) c s' →
    ∀ answer load back, Deaf answer → SameFunction answer load back r := by
  intro h
  have hcode : codeOf emptyForm = some (⟨0, []⟩ : Routine).code := rfl
  obtain ⟨⟨ar, l, d⟩, c, s', hok, hd⟩ := Emitted.exists_of_value hcode
  obtain rfl : d = (⟨0, []⟩ : Routine).code := hd
  have hsame := h _ _ _ _ _ _ _ _ _ ⟨0, []⟩ _ _ hok (fun _ _ => none) (fun _ => none)
    (fun _ _ => .here) fun _ _ _ => rfl
  have hlabels : OnlyLabels (⟨0, []⟩ : Routine).body := List.forall_mem_nil _
  exact not_sameFunction_of_labels hlabels hsame

end Lisp

end Bluejay
