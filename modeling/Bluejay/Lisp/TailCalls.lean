import Bluejay.Lisp.SelfCalls

/-!
# Tail calls and other calls

A tail call has the result of a call whose value is returned.

* `Clean arity reserved w m i` : the instruction reads nothing that has not been written since the
  function was started.
* `Similar q p w m n` : two machines that differ in where the stack is, and in what is not read.
* `Similar.step` : they stay similar.
* `Exits q p` : from here, there are only jumps to the end.
* `agree` : two functions that differ in which calls are tail calls have the same results.
-/

namespace Bluejay

namespace Lisp

/-! ### Steps that read what has been written -/

/-- The instructions that read `eax`, apart from tail calls. -/
def Instr.readsEax : Instr → Bool
  | .pushEax | .cmpEaxNil | .storeBound _ | .ret => true
  | _ => false

/-- The step reads `eax` and slots only where they have been written since the function was
started, and slots only where they are reserved; and it passes no addresses of the stack. -/
structure Clean (arity : CodePtr → ℕ) (reserved : ℕ) (w : Written) (m : Machine) (i : Instr) :
    Prop where
  eax : i.readsEax → w.eax
  slot : ∀ k, i = .loadBound k → k ∈ w.slots ∧ k < reserved
  passed : ∀ f, i = .call f → ∀ k < f.arity arity, ∀ a, m.stack (m.esp + 4 * k) ≠ .address a

theorem clean_of_harmless (arity : CodePtr → ℕ) (reserved : ℕ) (w : Written) (m : Machine)
    (i : Instr) (hi : i.harmless) : Clean arity reserved w m i := by
  refine ⟨fun h => ?_, fun k h => ?_, fun f h => ?_⟩
  · cases i <;> simp [Instr.readsEax, Instr.harmless] at h hi
  · subst h
    cases hi
  · subst h
    cases hi

/-! ### Similar machines -/

/-- The distances from `ebp` at which the function may read the stack: what has been pushed, the
slots that have been written, and the arguments. -/
def Live (count reserved : ℕ) (w : Written) (m : Machine) (δ : ℤ) : Prop :=
  4 ∣ δ ∧ m.esp ≤ m.ebp + δ ∧ δ < -4 * reserved ∨
    (∃ k ∈ w.slots, k < reserved ∧ δ = -4 * (k + 1)) ∨ ∃ k < count, δ = 4 * (k + 2)

/-- Two machines that hold the same, wherever the stack is. -/
structure Alike (count reserved : ℕ) (w : Written) (m n : Machine) : Prop where
  eax : w.eax → m.eax.Like n.eax
  edi : m.edi = n.edi
  heap : m.heap = n.heap
  esp : m.esp - m.ebp = n.esp - n.ebp
  stack : ∀ δ, Live count reserved w m δ → (m.stack (m.ebp + δ)).Like (n.stack (n.ebp + δ))

/-- Two machines that hold the same in front of the position `p` of the body `q`. -/
structure Similar (count reserved : ℕ) (q : Code) (p : ℕ) (w : Written) (m n : Machine) : Prop
    extends Alike count reserved w m n where
  zf : ∀ l, q[p]? = some (.je l) ∨ q[p]? = some (.jne l) → m.zf = n.zf

namespace Alike

variable {count reserved : ℕ} {w : Written} {m n : Machine} {v v' : Val}

theorem setEax (h : Alike count reserved w m n) (hv : v.Like v') :
    Alike count reserved { w with eax := true } { m with eax := v }.next
      { n with eax := v' }.next :=
  ⟨fun _ => hv, h.edi, h.heap, h.esp, h.stack⟩

theorem goes (h : Alike count reserved w m n) (x y : ℕ) :
    Alike count reserved w { m with pc := x } { n with pc := y } :=
  ⟨h.eax, h.edi, h.heap, h.esp, h.stack⟩

theorem drop (h : Alike count reserved w m n) (k : ℕ) :
    Alike count reserved w (m.drop k) (n.drop k) := by
  refine ⟨h.eax, h.edi, h.heap, ?_, fun δ hδ => h.stack δ ?_⟩
  · show m.esp + k - m.ebp = n.esp + k - n.ebp
    have hesp := h.esp
    omega
  · rcases hδ with ⟨hdvd, hle, hlt⟩ | hδ
    · have hle' : m.esp + k ≤ m.ebp + δ := hle
      exact .inl ⟨hdvd, by omega, hlt⟩
    · exact .inr hδ

theorem push (h : Alike count reserved w m n) (hv : v.Like v') (hdvd : 4 ∣ m.ebp - m.esp) :
    Alike count reserved w (m.push v).next (n.push v').next := by
  have hesp := h.esp
  refine ⟨h.eax, h.edi, h.heap, ?_, fun δ hδ => ?_⟩
  · show m.esp - 4 - m.ebp = n.esp - 4 - n.ebp
    omega
  show (Function.update m.stack (m.esp - 4) v (m.ebp + δ)).Like
    (Function.update n.stack (n.esp - 4) v' (n.ebp + δ))
  by_cases hδ' : m.ebp + δ = m.esp - 4
  · rw [hδ', show n.ebp + δ = n.esp - 4 by omega, Function.update_self, Function.update_self]
    exact hv
  · rw [Function.update_of_ne hδ', Function.update_of_ne (by omega)]
    refine h.stack δ ?_
    rcases hδ with ⟨hdvd', hle, hlt⟩ | hδ
    · have hle' : m.esp - 4 ≤ m.ebp + δ := hle
      exact .inl ⟨hdvd', by omega, hlt⟩
    · exact .inr hδ

theorem storeBound (h : Alike count reserved w m n) (hv : m.eax.Like n.eax) (k : ℕ) :
    Alike count reserved { w with slots := k :: w.slots } (m.store (slotAddress m.ebp k) m.eax).next
      (n.store (slotAddress n.ebp k) n.eax).next := by
  refine ⟨h.eax, h.edi, h.heap, h.esp, fun δ hδ => ?_⟩
  show (Function.update m.stack (m.ebp - 4 * (k + 1)) m.eax (m.ebp + δ)).Like
    (Function.update n.stack (n.ebp - 4 * (k + 1)) n.eax (n.ebp + δ))
  by_cases hδ' : δ = -4 * (k + 1)
  · rw [show m.ebp + δ = m.ebp - 4 * (k + 1) by omega,
      show n.ebp + δ = n.ebp - 4 * (k + 1) by omega, Function.update_self, Function.update_self]
    exact hv
  · rw [Function.update_of_ne (by omega), Function.update_of_ne (by omega)]
    refine h.stack δ ?_
    rcases hδ with hδ | ⟨j, hj, hδ⟩ | hδ
    · exact .inl hδ
    · obtain rfl | hj := List.mem_cons.1 hj
      · exact absurd hδ.2 hδ'
      · exact .inr (.inl ⟨j, hj, hδ⟩)
    · exact .inr (.inr hδ)

/-- The words on top of the stack are the same. -/
theorem onTop (h : Alike count reserved w m n) (hdvd : 4 ∣ m.ebp - m.esp) {k : ℕ}
    (hk : m.esp + 4 * k < m.ebp - 4 * reserved) :
    (m.stack (m.esp + 4 * k)).Like (n.stack (n.esp + 4 * k)) := by
  have hlike := h.stack (m.esp + 4 * k - m.ebp) (.inl ⟨by omega, by omega, by omega⟩)
  have hesp := h.esp
  rwa [show m.ebp + (m.esp + 4 * k - m.ebp) = m.esp + 4 * k by omega,
    show n.ebp + (m.esp + 4 * k - m.ebp) = n.esp + 4 * k by omega] at hlike

end Alike

/-! ### Steps of similar machines -/

section Step

variable {arity : CodePtr → ℕ} {calls : Val → Machine → Machine → Prop} {P P' q : Code}
  {m n m₁ e e' : Machine} {w : Written} {i : Instr} {count reserved p p' : ℕ} {bs bs' : List Block}

theorem keep_of_plain (hi : (bs.map Block.plain)[p]? = some i) (h : bs[p]? ≠ some .self) :
    bs[p]? = some (.keep i) := by
  rw [List.getElem?_map] at hi
  obtain ⟨b, hb, rfl⟩ := Option.map_eq_some_iff.1 hi
  cases b with
  | keep i => exact hb
  | self => exact absurd hb h

theorem block_of_plain (hi : (bs.map Block.plain)[p]? = some i) (hcall : i ≠ .callHere) :
    bs[p]? = some (.keep i) := by
  refine keep_of_plain hi fun hself => hcall ?_
  simpa [hself, Block.plain] using hi.symm

/-- A jump leads to the block with the label. -/
theorem goto_block (hreg : Regular arity count (bs.map Block.plain)) {l : ℕ}
    (hp : (bs.map Block.plain)[p]? = some (.label l)) (m : Machine) :
    m.goto (functionCode count reserved bs) (.label l) =
      some { m with pc := 4 + place count bs p } := by
  have hb : bs[p]? = some (.keep (.label l)) := block_of_plain hp nofun
  have hmem : Instr.label l ∈ functionCode count reserved bs :=
    List.mem_of_getElem? (at_cons.1 (at_block count reserved hb)).1
  cases hgoto : m.goto (functionCode count reserved bs) (.label l) with
  | none =>
    have hnone := List.findIdx?_eq_none_iff.1 (Option.map_eq_none_iff.1 hgoto) _ hmem
    simp at hnone
  | some m₁ =>
    obtain ⟨p₁, hp₁, hpc⟩ := exists_label (goto_label hgoto).1
    have hp₁' : (bs.map Block.plain)[p₁]? = some (.label l) := by simp [hp₁, Block.plain]
    obtain rfl := hreg.unique.eq hp rfl hp₁' rfl
    rw [goto_eq_some hgoto, hpc]

/-- What a step of the body does that is not a call, both machines do. -/
theorem Alike.exec (hreg : Regular arity count (bs.map Block.plain))
    (h : Running count reserved bs e p m)
    (hi : (bs.map Block.plain)[p]? = some i) (hclean : Clean arity reserved w m i)
    (ha : Alike count reserved w m n) (he : i.exec P m = some m₁) (hjump : i.jump m = none)
    (hjump' : i.jump n = none) :
    ∃ n₁, i.exec P' n = some n₁ ∧ Alike count reserved (i.writes w) m₁ n₁ := by
  have hdvd := h.aligned
  have hin : i.inBody := hreg.inBody hi
  cases i with
  | label l =>
    obtain rfl := Option.some.inj he
    exact ⟨_, rfl, ha.goes _ _⟩
  | pushEbp =>
    obtain rfl := Option.some.inj he
    exact ⟨_, rfl, ha.push (.inr ⟨_, _, rfl, rfl⟩) hdvd⟩
  | push v =>
    obtain rfl := Option.some.inj he
    exact ⟨_, rfl, ha.push (.refl _) hdvd⟩
  | pushHere =>
    obtain rfl := Option.some.inj he
    exact ⟨_, rfl, ha.push (.refl _) hdvd⟩
  | pushEax =>
    obtain rfl := Option.some.inj he
    exact ⟨_, rfl, ha.push (ha.eax (hclean.eax rfl)) hdvd⟩
  | movEax v =>
    obtain rfl := Option.some.inj he
    exact ⟨_, rfl, ha.setEax (.refl _)⟩
  | movEaxEsp =>
    obtain rfl := Option.some.inj he
    exact ⟨_, rfl, ha.setEax (.inr ⟨_, _, rfl, rfl⟩)⟩
  | movEaxExtern f =>
    obtain rfl := Option.some.inj he
    exact ⟨_, rfl, ha.setEax (.refl _)⟩
  | addEsp k =>
    obtain rfl := Option.some.inj he
    exact ⟨_, rfl, (ha.drop k).goes _ _⟩
  | popEax =>
    obtain rfl := Option.some.inj he
    -- there is a word to pop
    have hheight := heightAt_succ hreg hi (show stackHeights.effect .popEax = some (-4) from rfl)
    have hnn := heightAt_nonneg hreg (p + 1)
    have hesp := h.esp
    have htop : (m.stack (m.esp + 4 * (0 : ℕ))).Like (n.stack (n.esp + 4 * (0 : ℕ))) :=
      ha.onTop hdvd (by push_cast; omega)
    rw [Nat.cast_zero, mul_zero, add_zero, add_zero] at htop
    exact ⟨_, rfl, (ha.drop 4).setEax htop⟩
  | cmpEaxNil =>
    obtain rfl := Option.some.inj he
    exact ⟨_, rfl, ha.eax, ha.edi, ha.heap, ha.esp, ha.stack⟩
  | je l | jne l =>
    cases hz : m.zf <;> simp [Instr.jump, hz] at hjump
    cases hz' : n.zf <;> simp [Instr.jump, hz'] at hjump'
    obtain rfl : m.next = m₁ := by simpa [Instr.exec, hz] using he
    exact ⟨n.next, by simp [Instr.exec, hz'], ha.goes _ _⟩
  | jmp l => cases hjump
  | loadArgument k =>
    obtain rfl := Option.some.inj he
    have hk := hreg.argument hi
    exact ⟨_, rfl, ha.setEax (ha.stack _ (.inr (.inr ⟨k, hk, rfl⟩)))⟩
  | loadBound k =>
    obtain rfl := Option.some.inj he
    obtain ⟨hk, hlt⟩ := hclean.slot k rfl
    have hlike := ha.stack _ (.inr (.inl ⟨k, hk, hlt, rfl⟩))
    rw [neg_mul, ← sub_eq_add_neg, ← sub_eq_add_neg] at hlike
    exact ⟨_, rfl, ha.setEax hlike⟩
  | loadFree k =>
    obtain ⟨v, hv, rfl⟩ := Option.map_eq_some_iff.1 he
    have hfree : n.free k = some v := by
      rw [← hv]
      unfold Machine.free
      rw [ha.heap, ha.edi]
    exact ⟨_, by rw [Instr.exec, hfree]; rfl, ha.setEax (.refl _)⟩
  | storeBound k =>
    obtain rfl := Option.some.inj he
    exact ⟨_, rfl, ha.storeBound (ha.eax (hclean.eax rfl)) k⟩
  | here | movEbpEsp | subEsp | movEspEbp | popEbp | ret | jmpHere | storeArgument => cases hin
  | call | callHere | callEax => cases he

/-- So do both machines what a function does that is called. -/
theorem Alike.call (hcalls : Oblivious arity calls) (h : Running count reserved bs e p m)
    {f : Extern} (hpassed : m.esp + 4 * f.arity arity ≤ m.ebp - 4 * reserved)
    (hwords : f ≠ .doGc → ∀ k < f.arity arity, ∀ a, m.stack (m.esp + 4 * k) ≠ .address a)
    (ha : Alike count reserved w m n) (hc : calls (.entry f) m m₁) :
    ∃ n₁, calls (.entry f) n n₁ ∧ Alike count reserved { w with eax := true } m₁ n₁ := by
  have hdvd := h.aligned
  have hargs : ∀ k < f.arity arity, (m.stack (m.esp + 4 * k)).Like (n.stack (n.esp + 4 * k)) :=
    fun k hk => ha.onTop hdvd (by omega)
  obtain ⟨n₁, hc', hheap, heax, hargs₁⟩ := hcalls.same hc ha.heap ha.edi hargs hwords
  have hesp := ha.esp
  have hesp₁ := hcalls.cdecl.esp hc
  have hebp₁ := hcalls.cdecl.ebp hc
  have hesp₂ := hcalls.cdecl.esp hc'
  have hebp₂ := hcalls.cdecl.ebp hc'
  refine ⟨n₁, hc', fun _ => heax, ?_, hheap, by omega, fun δ hδ => ?_⟩
  · rw [hcalls.cdecl.edi hc, hcalls.cdecl.edi hc', ha.edi]
  rw [hebp₁, hebp₂]
  by_cases hlt : m.ebp + δ < m.esp + 4 * f.arity arity
  · -- one of the arguments of what is called
    obtain ⟨k, hk⟩ : ∃ k : ℕ, m.ebp + δ = m.esp + 4 * k := by
      refine ⟨((m.ebp + δ - m.esp) / 4).toNat, ?_⟩
      rcases hδ with ⟨hdvd', hle, -⟩ | ⟨k, -, hk, rfl⟩ | ⟨k, hk, rfl⟩ <;> omega
    rw [hk, show n.ebp + δ = n.esp + 4 * k by omega]
    exact hargs₁ k (by omega)
  · rw [hcalls.frame hc _ (by omega), hcalls.frame hc' _ (by omega)]
    refine ha.stack δ ?_
    rcases hδ with ⟨hdvd', hle, hlt'⟩ | hδ
    · exact .inl ⟨hdvd', by omega, hlt'⟩
    · exact .inr hδ

/-- They take the same jumps. -/
theorem Similar.jump_eq (h : Similar count reserved q p w m n) (hi : q[p]? = some i) :
    i.jump n = i.jump m := by
  cases i with
  | je l => rw [Instr.jump, Instr.jump, h.zf l (.inl hi)]
  | jne l => rw [Instr.jump, Instr.jump, h.zf l (.inr hi)]
  | _ => rfl

theorem exec_of_jump {l : ℕ} (h : i.jump m = some l) : i.exec P m = m.goto P (.label l) := by
  cases i with
  | je k | jne k =>
    cases hz : m.zf <;> simp [Instr.jump, hz] at h
    subst h
    simp [Instr.exec, hz]
  | jmp k =>
    obtain rfl : k = l := Option.some.inj h
    rfl
  | _ => cases h

theorem writes_of_jump {l : ℕ} (h : i.jump m = some l) : i.writes w = w := by
  cases i <;> first | rfl | cases h

theorem zf_of_step (h : (machine calls P).step m .cmpEaxNil m₁) :
    m₁.zf = decide (m.eax = .word nil) := by
  rcases h.2 with he | ⟨f, -, hf, -⟩
  · obtain rfl := Option.some.inj he
    rfl
  · cases hf

/-- **Similar machines stay similar**, except where they call the function itself. -/
theorem Similar.step (hcalls : Oblivious arity calls)
    (hreg : Regular arity count (bs.map Block.plain))
    (heq : bs'.map Block.plain = bs.map Block.plain) (h : Running count reserved bs e p m)
    (h' : Running count reserved bs' e' p n)
    (hs : Similar count reserved (bs.map Block.plain) p w m n)
    (hi : bs[p]? = some (.keep i)) (hi' : bs'[p]? = some (.keep i)) (hcall : i ≠ .callHere)
    (hclean : Clean arity reserved w m i)
    (hstep : (machine calls (functionCode count reserved bs)).step m i m₁) :
    ∃ n₁ p₁, (machine calls (functionCode count reserved bs')).step n i n₁ ∧
      Running count reserved bs e p₁ m₁ ∧ Running count reserved bs' e' p₁ n₁ ∧
      Similar count reserved (bs.map Block.plain) p₁ (i.writes w) m₁ n₁ ∧
      Clean arity reserved w n i := by
  have hq : (bs.map Block.plain)[p]? = some i := by simp [hi, Block.plain]
  have hreg' : Regular arity count (bs'.map Block.plain) := heq ▸ hreg
  have hjumps := hs.jump_eq hq
  have hcode : (functionCode count reserved bs')[n.pc]? = some i := by
    rw [h'.pc]
    exact (at_cons.1 (at_block count reserved hi')).1
  obtain ⟨p₁, h₁, hjump, hnext⟩ := h.step hcalls hreg hi hcall hstep
  -- the step of the other machine
  obtain ⟨n₁, hstep', ha₁⟩ : ∃ n₁, (machine calls (functionCode count reserved bs')).step n i n₁ ∧
      Alike count reserved (i.writes w) m₁ n₁ := by
    rcases hstep.2 with he | ⟨v, m₂, hv, hm₂, rfl⟩
    · cases hj : i.jump m with
      | none =>
        obtain ⟨n₁, he', ha₁⟩ : ∃ n₁, i.exec (functionCode count reserved bs') n = some n₁ ∧
            Alike count reserved (i.writes w) m₁ n₁ :=
          Alike.exec hreg h hq hclean hs.toAlike he hj (hjumps.trans hj)
        exact ⟨n₁, ⟨hcode, .inl he'⟩, ha₁⟩
      | some l =>
        have hgoto := (exec_of_jump hj).symm.trans he
        have hgoto' := @goto_block _ _ reserved _ _ hreg' _ (heq ▸ hjump l hj) n
        refine ⟨_, ⟨hcode, .inl ((exec_of_jump (hjumps.trans hj)).trans hgoto')⟩, ?_⟩
        rw [goto_eq_some hgoto, writes_of_jump hj]
        exact hs.toAlike.goes _ _
    · obtain ⟨f, rfl, hf⟩ := h.callee hq hcall hv
      have hwords : f ≠ .doGc →
          ∀ k < f.arity arity, ∀ a, m.stack (m.esp + 4 * k) ≠ .address a := by
        intro hgc
        rcases hf with rfl | ⟨-, rfl⟩
        · exact hclean.passed f rfl
        · exact absurd rfl hgc
      obtain ⟨n₂, hc', ha₂⟩ := hs.toAlike.call hcalls h (h.passed hreg hq hv) hwords hm₂
      have hv' : i.callee n = some (.entry f) := by
        rcases hf with rfl | ⟨rfl, rfl⟩
        · rfl
        · exact congrArg some (h'.gc (heq ▸ hq))
      refine ⟨_, ⟨hcode, .inr ⟨_, n₂, hv', hc', rfl⟩⟩, ?_⟩
      rcases hf with rfl | ⟨rfl, rfl⟩
      · exact ha₂.goes _ _
      · exact ha₂.goes _ _
  obtain ⟨p₂, h₂, hjump', hnext'⟩ := h'.step hcalls hreg' hi' hcall hstep'
  obtain rfl : p₁ = p₂ := by
    cases hj : i.jump m with
    | none => rw [hnext hj, hnext' (hjumps.trans hj)]
    | some l => exact hreg.unique.eq (hjump l hj) rfl (heq ▸ hjump' l (hjumps.trans hj)) rfl
  refine ⟨n₁, p₁, hstep', h₁, h₂, ⟨ha₁, fun l hl => ?_⟩, hclean.eax, hclean.slot, ?_⟩
  · -- `cmp eax, nil` is in front of the jump
    obtain ⟨k, rfl, hcmp⟩ := hreg.flag hl
    obtain rfl : k = p := by
      cases hj : i.jump m with
      | none => exact Nat.succ.inj (hnext hj)
      | some l' => rcases hl with hl | hl <;> cases hl.symm.trans (hjump l' hj)
    obtain rfl : i = .cmpEaxNil := Option.some.inj (hq.symm.trans hcmp)
    rw [zf_of_step hstep, zf_of_step hstep']
    exact decide_eq_decide.2 (hs.eax (hclean.eax rfl)).nil_iff
  · rintro f rfl k hk a hn
    have hpassed := h.passed hreg hq (m := m) rfl
    have hlike := hs.toAlike.onTop h.aligned (k := k) (by omega)
    exact hclean.passed f rfl k hk a ((hlike.eq (hclean.passed f rfl k hk)).symm.trans hn)

end Step

/-! ### The result of a call -/

/-- From `p` on, the code only goes to its end. -/
inductive Exits (q : Code) : ℕ → Prop
  | finish : Exits q q.length
  | label {p l : ℕ} (h : q[p]? = some (.label l)) (h' : Exits q (p + 1)) : Exits q p
  | jmp {p p' l : ℕ} (h : q[p]? = some (.jmp l)) (hl : q[p']? = some (.label l))
      (h' : Exits q p') : Exits q p

/-- The function that was entered in `x` starts with the arguments that are on top of the stack in
`m`. -/
structure Begun (count : ℕ) (m x : Machine) : Prop where
  pc : x.pc = 0
  edi : x.edi = m.edi
  heap : x.heap = m.heap
  arguments : ∀ k < count, x.stack (x.esp + 4 + 4 * k) = m.stack (m.esp + 4 * k)

/-- Two calls have the same result. -/
def SameResult (r r' : Written × Machine) : Prop := r.2.eax.Like r'.2.eax ∧ r.2.heap = r'.2.heap

section Results

variable {arity : CodePtr → ℕ} {calls : Val → Machine → Machine → Prop} {back : ℕ → Val}
  {ok : Written → Machine → Instr → Prop} {q : Code} {m n m₁ e e' x y r : Machine} {w : Written}
  {count reserved p p' : ℕ} {bs bs' : List Block}

theorem Restarted.begun (h : Restarted count e m r) : Begun count m r :=
  ⟨h.pc, h.edi, h.heap, h.arguments⟩

theorem begun_of_enter (h : m.enter (functionCode count reserved bs) back = some x) :
    Begun count m x := by
  obtain rfl := eq_of_enter h
  refine ⟨rfl, rfl, rfl, fun k _ => ?_⟩
  show Function.update m.stack (m.esp - 4) _ (m.esp - 4 + 4 + 4 * k) = _
  rw [Function.update_of_ne (by omega), sub_add_cancel]

/-- Behind `setup`, the machines are similar if they have the same arguments. -/
theorem similar_started (hreg : Regular arity count q) (hedi : x.edi = y.edi)
    (hheap : x.heap = y.heap) (hargs : ∀ k < count,
      (x.stack (x.esp + 4 + 4 * k)).Like (y.stack (y.esp + 4 + 4 * k))) :
    Similar count reserved q 0 .nothing (x.started reserved) (y.started reserved) := by
  refine ⟨⟨nofun, hedi, hheap, ?_, fun δ hδ => ?_⟩, fun l hl => ?_⟩
  · show x.esp - 4 - (4 * reserved : ℕ) - (x.esp - 4) = y.esp - 4 - (4 * reserved : ℕ) - (y.esp - 4)
    omega
  · rcases hδ with ⟨-, hle, hlt⟩ | ⟨k, hk, -⟩ | ⟨k, hk, rfl⟩
    · have hle' : x.esp - 4 - (4 * reserved : ℕ) ≤ x.esp - 4 + δ := hle
      push_cast at hle'
      omega
    · cases hk
    · show (Function.update x.stack (x.esp - 4) _ (x.esp - 4 + 4 * (k + 2))).Like
        (Function.update y.stack (y.esp - 4) _ (y.esp - 4 + 4 * (k + 2)))
      rw [Function.update_of_ne (by omega), Function.update_of_ne (by omega),
        show x.esp - 4 + 4 * ((k : ℤ) + 2) = x.esp + 4 + 4 * k by ring,
        show y.esp - 4 + 4 * ((k : ℤ) + 2) = y.esp + 4 + 4 * k by ring]
      exact hargs k hk
  · obtain ⟨k, hk, -⟩ := hreg.flag hl
    cases hk

/-- However the function is started with the arguments of a call, the machines are similar. -/
theorem Similar.begun (hreg : Regular arity count (bs.map Block.plain))
    (h : Running count reserved bs e p m)
    (hs : Similar count reserved (bs.map Block.plain) p w m n)
    (hp : (bs.map Block.plain)[p]? = some .callHere) (hx : Begun count m x)
    (hy : Begun count n y) :
    Similar count reserved (bs.map Block.plain) 0 .nothing (x.started reserved)
      (y.started reserved) := by
  have hpassed := h.self_passed hreg hp
  refine similar_started hreg ?_ ?_ fun k hk => ?_
  · rw [hx.edi, hy.edi, hs.edi]
  · rw [hx.heap, hy.heap, hs.heap]
  · rw [hx.arguments k hk, hy.arguments k hk]
    exact hs.toAlike.onTop h.aligned (by omega)

/-- The machine behind a call of the function itself, when the arguments have been popped. -/
structure Returned (count : ℕ) (m r m' : Machine) : Prop where
  eax : m'.eax = r.eax
  edi : m'.edi = m.edi
  heap : m'.heap = r.heap
  esp : m'.esp = m.esp + 4 * count
  ebp : m'.ebp = m.ebp
  stack : ∀ a, m.esp + 4 * count ≤ a → m'.stack a = m.stack a

variable (hok : ∀ w m i, i.harmless → ok w m i)

include hok

variable (calls w) in
/-- A call of the function itself has been left, and the arguments are popped. -/
theorem Running.returned (hcalls : Oblivious arity calls)
    (hreg : Regular arity count (bs.map Block.plain)) (h : Running count reserved bs e p m)
    (hp : bs[p]? = some (.keep .callHere))
    (hx : m.enter (functionCode count reserved bs) back = some x) (hr : Left count x r) :
    ∃ m', (selfCalls calls back ok (functionCode count reserved bs)).Forced 1
        (w, { r.drop 4 with pc := m.pc + 1 }) (w, m') ∧
      Running count reserved bs e (p + 2) m' ∧ Returned count m r m' := by
  have h₁ := h.behind_call hreg hp hx hr
  have hadd : (bs.map Block.plain)[p + 1]? = some (.addEsp (count * 4)) :=
    hreg.self (by simp [hp, Block.plain])
  have hnot : Instr.addEsp (count * 4) ≠ .callHere := by simp
  have hblock : bs[p + 1]? = some (.keep (.addEsp (count * 4))) := block_of_plain hadd hnot
  have hcode := (at_cons.1 (at_block count reserved hblock)).1
  rw [← h₁.pc] at hcode
  have hstep : (machine calls (functionCode count reserved bs)).step
      { r.drop 4 with pc := m.pc + 1 } (.addEsp (count * 4))
      ({ r.drop 4 with pc := m.pc + 1 }.drop (count * 4)).next := ⟨hcode, .inl rfl⟩
  obtain ⟨p₁, h₂, -, hnext⟩ := h₁.step hcalls hreg hblock hnot hstep
  obtain rfl := hnext rfl
  refine ⟨_, forced_cons hok hcode rfl rfl (.refl _), h₂, rfl, ?_, rfl, ?_, ?_, ?_⟩
  · exact (hr.edi.trans (begun_of_enter hx).edi)
  · have hesp := hr.esp
    obtain rfl := eq_of_enter hx
    show r.esp + (4 : ℕ) + (count * 4 : ℕ) = _
    rw [hesp]
    show m.esp - 4 + (4 : ℕ) + (count * 4 : ℕ) = _
    push_cast
    ring
  · have hebp := hr.ebp
    obtain rfl := eq_of_enter hx
    exact hebp
  · exact fun a ha => hr.kept_words hx ha

/-- The activation goes to the end of its body, and gives back the frame. -/
theorem finishes (hcalls : Oblivious arity calls)
    (hreg : Regular arity count (bs.map Block.plain)) (h : Running count reserved bs e p m)
    (hexits : Exits (bs.map Block.plain) p) (w : Written) :
    ∃ k r, (selfCalls calls back ok (functionCode count reserved bs)).Forced k (w, m) (w, r) ∧
      (functionCode count reserved bs)[r.pc]? = some .ret ∧ r.eax = m.eax ∧ r.heap = m.heap := by
  induction hexits generalizing m with
  | finish =>
    rw [List.length_map] at h
    obtain ⟨r, hf, hret, -, heax, hheap⟩ := returns calls back w hok h
    exact ⟨2, r, hf, hret, heax, hheap⟩
  | @label p l hl _ ih =>
    have hblock := block_of_plain hl nofun
    have hcode := (at_cons.1 (at_block count reserved hblock)).1
    rw [← h.pc] at hcode
    have hstep : (machine calls (functionCode count reserved bs)).step m (.label l) m.next :=
      ⟨hcode, .inl rfl⟩
    obtain ⟨p₁, h₁, -, hnext⟩ := h.step hcalls hreg hblock nofun hstep
    obtain rfl := hnext rfl
    obtain ⟨k, r, hf, hrest⟩ := ih h₁
    exact ⟨k + 1, r, forced_cons hok hcode rfl rfl hf, hrest⟩
  | @jmp p p' l hl hl' _ ih =>
    have hblock := block_of_plain hl nofun
    have hcode := (at_cons.1 (at_block count reserved hblock)).1
    rw [← h.pc] at hcode
    have hgoto := @goto_block _ _ reserved _ _ hreg _ hl' m
    obtain ⟨p₁, h₁, hjump, -⟩ := h.step hcalls hreg hblock nofun ⟨hcode, .inl hgoto⟩
    obtain rfl := hreg.unique.eq hl' rfl (hjump l rfl) rfl
    obtain ⟨k, r, hf, hrest⟩ := ih h₁
    exact ⟨k + 1, r, forced_cons hok hcode rfl hgoto hf, hrest⟩

/-- A call of the function starts with `setup`, and gives back the frame. -/
theorem Ends.of_start (hcalls : Oblivious arity calls)
    (hreg : Regular arity count (bs.map Block.plain)) (hx : x.pc = 0) {k : ℕ}
    {t : Written × Machine}
    (h : (selfCalls calls back ok (functionCode count reserved bs)).Ends k (w, x) t) :
    Left count x t.2 ∧ ∃ j < k, (selfCalls calls back ok (functionCode count reserved bs)).Ends j
      (.nothing, x.started reserved) t := by
  have hgood : Good calls back ok count reserved bs x t :=
    good_of_start hok hx h.path fun _ _ hpath =>
      good_of_path hok hcalls hreg (running_started hreg) hpath
  obtain ⟨j, rfl, hj⟩ := (forced_setup calls back w count reserved bs hok hx).ends_iff.1 h
  exact ⟨hgood.left h.done, j, by omega, hj⟩

end Results

section TailCall

variable {arity : CodePtr → ℕ} {calls : Val → Machine → Machine → Prop} {back : ℕ → Val}
  {m n m₁ n₁ e e' x y : Machine} {w : Written} {r t : Written × Machine}
  {count reserved p k : ℕ} {bs bs' : List Block}

theorem SameResult.symm (h : SameResult r t) : SameResult t r := ⟨h.1.symm, h.2.symm⟩

theorem SameResult.trans {u : Written × Machine} (h : SameResult r t) (h' : SameResult t u) :
    SameResult r u :=
  ⟨h.1.trans h'.1, h.2.trans h'.2⟩

/-- The return address is where the call has put it. -/
theorem Left.top (hx : m.enter (functionCode count reserved bs) back = some x)
    (h : Left count x m₁) : m₁.top = back (m.pc + 1) := by
  show m₁.stack m₁.esp = _
  rw [h.esp, h.kept _ (.inl rfl)]
  obtain rfl := eq_of_enter hx
  exact Function.update_self ..

variable (back w) in
/-- A call of the function itself runs the function from its start. -/
theorem Running.exists_of_call (hcalls : Oblivious arity calls)
    (hreg : Regular arity count (bs.map Block.plain)) (h : Running count reserved bs e p m)
    (hp : bs[p]? = some (.keep .callHere)) (hends : (selfCalls calls back (Clean arity reserved)
      (functionCode count reserved bs)).Ends k (w, m) r) :
    ∃ x i j t m', m.enter (functionCode count reserved bs) back = some x ∧ i < k ∧ j < k ∧
      (selfCalls calls back (Clean arity reserved) (functionCode count reserved bs)).Ends i
        (.nothing, x.started reserved) t ∧
      Running count reserved bs e (p + 2) m' ∧ Returned count m t.2 m' ∧
      (selfCalls calls back (Clean arity reserved) (functionCode count reserved bs)).Ends j
        (Instr.callHere.writes w, m') r := by
  have hok := clean_of_harmless arity reserved
  have hcode : (functionCode count reserved bs)[m.pc]? = some .callHere := by
    rw [h.pc]
    exact (at_cons.1 (at_block count reserved hp)).1
  obtain ⟨-, -, hret, -⟩ | ⟨_, _, -, ⟨i, hi, hcall, -⟩, -⟩ |
    ⟨i, j, b, t, s, rfl, ⟨-, hx, hb⟩, hbody, ⟨-, rfl⟩, hrest⟩ := hends.cases
  · cases hcode.symm.trans hret
  · exact absurd (Option.some.inj (hi.symm.trans hcode)) hcall
  obtain ⟨hleft, l, hl, hbody⟩ := Ends.of_start (w := b.1) hok hcalls hreg
    (begun_of_enter hx).pc hbody
  obtain ⟨m', hf, hm', hreturned⟩ := h.returned calls (Instr.callHere.writes w) hok hcalls hreg hp
    hx hleft
  obtain ⟨j', rfl, hrest'⟩ := hf.ends_iff.1 hrest
  exact ⟨b.2, l, j', t, m', hx, by omega, by omega, hbody, hm', hreturned, hrest'⟩

variable (back w) in
/-- When it has been done, the function goes on behind it. -/
theorem Running.exists_returned (hcalls : Oblivious arity calls)
    (hreg : Regular arity count (bs.map Block.plain)) (h : Running count reserved bs e p m)
    (hp : bs[p]? = some (.keep .callHere))
    (hx : m.enter (functionCode count reserved bs) back = some x)
    (hends : (selfCalls calls back (Clean arity reserved) (functionCode count reserved bs)).Ends k
      (.nothing, x.started reserved) t) :
    ∃ m', Running count reserved bs e (p + 2) m' ∧ Returned count m t.2 m' ∧ ∀ j r,
      (selfCalls calls back (Clean arity reserved) (functionCode count reserved bs)).Ends j
        (Instr.callHere.writes w, m') r →
      ∃ l, (selfCalls calls back (Clean arity reserved) (functionCode count reserved bs)).Ends l
        (w, m) r := by
  have hok := clean_of_harmless arity reserved
  have hcode : (functionCode count reserved bs)[m.pc]? = some .callHere := by
    rw [h.pc]
    exact (at_cons.1 (at_block count reserved hp)).1
  have hbody := (forced_setup calls back .nothing count reserved bs hok
    (begun_of_enter hx).pc).ends_iff.2 ⟨k, rfl, hends⟩
  obtain ⟨hleft, -⟩ := Ends.of_start hok hcalls hreg (begun_of_enter hx).pc hbody
  obtain ⟨m', hf, hm', hreturned⟩ := h.returned calls (Instr.callHere.writes w) hok hcalls hreg hp
    hx hleft
  refine ⟨m', hm', hreturned, fun j r hj => ⟨_, Recursive.Ends.call ⟨hcode, hx, rfl⟩ hbody
    ⟨hleft.top hx, rfl⟩ (hf.ends_iff.2 ⟨j, rfl, hj⟩)⟩⟩

variable (back w) in
/-- Where only the end of the body is behind it, a call has the result of the function from its
start, whether it is a tail call or not. -/
theorem Running.ends_iff_of_exits (hcalls : Oblivious arity calls)
    (hreg : Regular arity count (bs.map Block.plain)) (h : Running count reserved bs e p m)
    (hp : (bs.map Block.plain)[p]? = some .callHere)
    (hexits : Exits (bs.map Block.plain) (p + 2)) :
    ∃ x e₁, Begun count m x ∧ Running count reserved bs e₁ 0 (x.started reserved) ∧
      (∀ {k r}, (selfCalls calls back (Clean arity reserved)
          (functionCode count reserved bs)).Ends k (w, m) r →
        ∃ j < k, ∃ t, (selfCalls calls back (Clean arity reserved)
          (functionCode count reserved bs)).Ends j (.nothing, x.started reserved) t ∧
          SameResult r t) ∧
      ∀ {k t}, (selfCalls calls back (Clean arity reserved)
          (functionCode count reserved bs)).Ends k (.nothing, x.started reserved) t →
        ∃ j r, (selfCalls calls back (Clean arity reserved)
          (functionCode count reserved bs)).Ends j (w, m) r ∧ SameResult t r := by
  have hok := clean_of_harmless arity reserved
  obtain ⟨b, hb, hplain⟩ : ∃ b, bs[p]? = some b ∧ b.plain = .callHere := by
    rw [List.getElem?_map] at hp
    exact Option.map_eq_some_iff.1 hp
  cases b with
  | self =>
    obtain ⟨w', x, hf, hx⟩ := restarts calls back w hok hreg h hb
    have hsetup := forced_setup calls back w' count reserved bs hok hx.pc
    refine ⟨x, e, hx.begun, h.of_restarted hx (running_started hreg), fun {k r} hends => ?_,
      fun {k t} hends => ?_⟩
    · obtain ⟨j, rfl, hj⟩ := (hf.trans hsetup).ends_iff.1 hends
      exact ⟨j, by omega, r, hj, .refl _, rfl⟩
    · exact ⟨_, t, (hf.trans hsetup).ends_iff.2 ⟨k, rfl, hends⟩, .refl _, rfl⟩
  | keep i =>
    obtain rfl : i = .callHere := hplain
    have hx : m.enter (functionCode count reserved bs) back =
        some { m.push (back (m.pc + 1)) with pc := 0 } := goto_here _
    refine ⟨_, _, begun_of_enter hx, running_started hreg, fun {k r} hends => ?_,
      fun {k t} hends => ?_⟩
    · obtain ⟨x', j, j₁, t, m', hx', hj, -, ht, hm', hreturned, hrest⟩ :=
        h.exists_of_call back w hcalls hreg hb hends
      obtain rfl := Option.some.inj (hx.symm.trans hx')
      obtain ⟨l, m₁, hf, hret, heax, hheap⟩ := finishes hok hcalls hreg hm' hexits
        (Instr.callHere.writes w)
      obtain ⟨l', rfl, hr⟩ := hf.ends_iff.1 hrest
      obtain rfl := eq_of_path_of_ret hret hr.path
      refine ⟨j, hj, t, ht, ?_, hheap.trans hreturned.heap⟩
      rw [show m₁.eax = t.2.eax from heax.trans hreturned.eax]
      exact .refl _
    · obtain ⟨m', hm', hreturned, hrest⟩ := h.exists_returned back w hcalls hreg hb hx hends
      obtain ⟨l, m₁, hf, hret, heax, hheap⟩ := finishes hok hcalls hreg hm' hexits
        (Instr.callHere.writes w)
      have hdone : (selfCalls calls back (Clean arity reserved) (functionCode count reserved bs)).Ends
          0 (Instr.callHere.writes w, m₁) (Instr.callHere.writes w, m₁) :=
        ⟨.refl _, hret, fun _ => rfl, nofun, nofun⟩
      obtain ⟨j, hj⟩ := hrest _ _ (hf.ends_iff.2 ⟨0, rfl, hdone⟩)
      refine ⟨j, _, hj, ?_, (hheap.trans hreturned.heap).symm⟩
      rw [← show m₁.eax = t.2.eax from heax.trans hreturned.eax]
      exact .refl _

/-- Behind calls with the same result, similar machines are similar again. -/
theorem Similar.returned (hreg : Regular arity count (bs.map Block.plain))
    (h : Running count reserved bs e p m)
    (hs : Similar count reserved (bs.map Block.plain) p w m n)
    (hp : (bs.map Block.plain)[p]? = some .callHere) (hrt : SameResult r t)
    (hm : Returned count m r.2 m₁) (hn : Returned count n t.2 n₁) :
    Similar count reserved (bs.map Block.plain) (p + 2) (Instr.callHere.writes w) m₁ n₁ := by
  have hpassed := h.self_passed hreg hp
  have hesp := hs.esp
  have hesp₁ := hm.esp
  have hesp₂ := hn.esp
  have hebp₁ := hm.ebp
  have hebp₂ := hn.ebp
  refine ⟨⟨fun _ => ?_, ?_, ?_, by omega, fun δ hδ => ?_⟩, fun l hl => ?_⟩
  · rw [hm.eax, hn.eax]
    exact hrt.1
  · rw [hm.edi, hn.edi, hs.edi]
  · rw [hm.heap, hn.heap, hrt.2]
  · have hle : m.esp + 4 * count ≤ m.ebp + δ := by
      rcases hδ with ⟨-, hle, -⟩ | ⟨k, -, hk, rfl⟩ | ⟨k, -, rfl⟩ <;> omega
    rw [hebp₁, hebp₂, hm.stack _ hle, hn.stack _ (by omega)]
    refine hs.stack δ ?_
    rcases hδ with ⟨hdvd, -, hlt⟩ | hδ
    · exact .inl ⟨hdvd, by omega, hlt⟩
    · exact .inr hδ
  · obtain ⟨k, hk, hcmp⟩ := hreg.flag hl
    obtain rfl : k = p + 1 := by omega
    cases hcmp.symm.trans (hreg.self hp)

end TailCall

/-- **Tail calls are calls**: functions that differ in which of their calls of themselves are tail
calls have the same results. -/
theorem agree {arity : CodePtr → ℕ} {calls : Val → Machine → Machine → Prop} {back : ℕ → Val}
    {count reserved : ℕ} {bs bs' : List Block} (hcalls : Oblivious arity calls)
    (hreg : Regular arity count (bs.map Block.plain))
    (heq : bs'.map Block.plain = bs.map Block.plain)
    (hexits : ∀ p, bs[p]? = some .self → Exits (bs.map Block.plain) (p + 2))
    (hexits' : ∀ p, bs'[p]? = some .self → Exits (bs.map Block.plain) (p + 2))
    {k p : ℕ} {e e' m n : Machine} {w : Written} {r : Written × Machine}
    (h : Running count reserved bs e p m) (h' : Running count reserved bs' e' p n)
    (hs : Similar count reserved (bs.map Block.plain) p w m n)
    (hends : (selfCalls calls back (Clean arity reserved) (functionCode count reserved bs)).Ends k
      (w, m) r) :
    ∃ j r', (selfCalls calls back (Clean arity reserved) (functionCode count reserved bs')).Ends j
      (w, n) r' ∧ SameResult r r' := by
  have hok := clean_of_harmless arity reserved
  have hreg' : Regular arity count (bs'.map Block.plain) := heq ▸ hreg
  have hlen : bs'.length = bs.length := by simpa using congrArg List.length heq
  induction k using Nat.strong_induction_on generalizing e e' p w m n r with
  | _ k ih =>
  rcases Nat.lt_or_ge p bs.length with hlt | hge
  · have hp := List.getElem?_eq_getElem hlt
    have hlt' : p < bs'.length := hlen ▸ hlt
    have hp' := List.getElem?_eq_getElem hlt'
    have hplain : bs'[p].plain = bs[p].plain := by
      have hq := congrArg (fun q => q[p]?) heq
      simpa [hp, hp'] using hq
    by_cases hcall : bs[p].plain = .callHere
    · -- the function calls itself
      have hq : (bs.map Block.plain)[p]? = some .callHere := by simp [hp, hcall]
      have hq' : (bs'.map Block.plain)[p]? = some .callHere := heq ▸ hq
      by_cases hself : bs[p]? = some .self ∨ bs'[p]? = some .self
      · -- one of the calls is a tail call
        have hexit : Exits (bs.map Block.plain) (p + 2) := hself.elim (hexits p) (hexits' p)
        obtain ⟨x, e₁, hx, hx₁, hto, -⟩ := h.ends_iff_of_exits back w hcalls hreg hq hexit
        obtain ⟨y, e₂, hy, hy₁, -, hfrom⟩ := h'.ends_iff_of_exits back w hcalls hreg' hq'
          (heq.symm ▸ hexit)
        obtain ⟨j, hj, t, ht, hrt⟩ := hto hends
        obtain ⟨j', t', ht', htt'⟩ := ih j hj hx₁ hy₁ (hs.begun hreg h hq hx hy) ht
        obtain ⟨j₁, r', hr', htr'⟩ := hfrom ht'
        exact ⟨j₁, r', hr', hrt.trans (htt'.trans htr')⟩
      · -- neither of them is
        rw [not_or] at hself
        have hkeep := keep_of_plain hq hself.1
        have hkeep' := keep_of_plain hq' hself.2
        obtain ⟨x, i, j, t, m₁, hx, hi, hj, ht, hm₁, hreturned, hrest⟩ :=
          h.exists_of_call back w hcalls hreg hkeep hends
        have hy : n.enter (functionCode count reserved bs') back =
            some { n.push (back (n.pc + 1)) with pc := 0 } := goto_here _
        obtain ⟨i', t', ht', htt'⟩ := ih i hi (running_started hreg) (running_started hreg')
          (hs.begun hreg h hq (begun_of_enter hx) (begun_of_enter hy)) ht
        obtain ⟨n₁, hn₁, hreturned', hrest'⟩ :=
          h'.exists_returned back w hcalls hreg' hkeep' hy ht'
        obtain ⟨j', r', hr', hrr'⟩ := ih j hj hm₁ hn₁
          (hs.returned hreg h hq htt' hreturned hreturned') hrest
        obtain ⟨l, hl⟩ := hrest' _ _ hr'
        exact ⟨l, r', hl, hrr'⟩
    · -- any other instruction
      have hi : bs[p]? = some (.keep bs[p].plain) := block_of_plain (by simp [hp]) hcall
      have hi' : bs'[p]? = some (.keep bs[p].plain) :=
        block_of_plain (by simp [hp', hplain]) hcall
      generalize bs[p].plain = i at *
      have hin : i.inBody := hreg.inBody (p := p) (by simp [hi, Block.plain])
      have hcode : (functionCode count reserved bs)[m.pc]? = some i := by
        rw [h.pc]
        exact (at_cons.1 (at_block count reserved hi)).1
      obtain ⟨-, -, hret, -⟩ | ⟨j, s, rfl, ⟨i', hi₁, -, hclean, hstep, hw⟩, hrest⟩ |
        ⟨_, _, _, _, _, -, ⟨hi₁, -⟩, -⟩ := hends.cases
      · obtain rfl : i = .ret := Option.some.inj (hcode.symm.trans hret)
        cases hin
      · obtain rfl : i = i' := Option.some.inj (hcode.symm.trans hi₁)
        obtain ⟨w₁, m₁⟩ := s
        obtain rfl : w₁ = i.writes w := hw
        obtain ⟨n₁, p₁, hstep', h₁, h₁', hs₁, hclean'⟩ :=
          hs.step hcalls hreg heq h h' hi hi' hcall hclean hstep
        obtain ⟨j', r', hr', hrr'⟩ := ih j (Nat.lt_succ_self j) h₁ h₁' hs₁ hrest
        have hcode' := hstep'.1
        exact ⟨_, r', hr'.step ⟨i, hcode', hcall, hclean', hstep', rfl⟩, hrr'⟩
      · exact absurd (Option.some.inj (hcode.symm.trans hi₁)) hcall
  · obtain rfl : p = bs.length := Nat.le_antisymm h.le hge
    obtain ⟨m₁, hf, hret, -, heax, hheap⟩ := returns calls back w hok h
    obtain ⟨n₁, hf', hret', -, heax', hheap'⟩ := returns calls back w hok (hlen ▸ h')
    obtain ⟨j, rfl, hj⟩ := hf.ends_iff.1 hends
    obtain rfl := eq_of_path_of_ret hret hj.path
    have hw : w.eax := hj.done.2.eax rfl
    refine ⟨_, (w, n₁), hf'.ends_iff.2 ⟨0, rfl, .refl _, hret', fun _ => hw, fun _ hi => ?_,
      fun _ hi => ?_⟩, ?_, ?_⟩
    · cases hi
    · cases hi
    · show m₁.eax.Like n₁.eax
      rw [heax, heax']
      exact hs.eax hw
    · show m₁.heap = n₁.heap
      rw [hheap, hheap', hs.heap]

end Lisp

end Bluejay
