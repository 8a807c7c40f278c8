import Bluejay.Lib.Recursive
import Bluejay.Lisp.Execution

/-!
# Functions that call themselves

`call <1` enters the function again, in a new frame; a call in tail position stores its arguments
in the frame that is there and jumps to the start.

* `selfCalls calls back ok P` : the program `P`, with the calls of itself; `back p` is the address
  behind the call at `p`, and `ok` restricts the steps.
* `Oblivious arity calls` : what else is called depends on its arguments and on the heap only.
* `Block`, `functionCode` : a function's code, with the tail calls marked.
* `Running e p m` : the activation that was entered in `e` is in front of the block `p`.
* `good_of_path` : activations keep what belongs to their callers.
* `Restarted e m r` : the function has been started again, with the arguments that were on top of
  the stack in `m`; `restarts` : this is what a tail call leads to.
-/

namespace Bluejay

namespace Lisp

/-! ### What is called -/

/-- The number of words that are passed to a C function, and to those at `c`. -/
def Extern.arity (arity : CodePtr → ℕ) : Extern → ℕ
  | .cons | .merge2 | .eval | .doGc => 2
  | .createClosure | .setClosureCaptureVariable | .loadRelative => 3
  | .function c => arity c

/-- The same, wherever the stack is. -/
def Val.Like (v w : Val) : Prop := v = w ∨ ∃ a b, v = .address a ∧ w = .address b

theorem Val.Like.refl (v : Val) : v.Like v := .inl rfl

theorem Val.Like.symm {v w : Val} (h : v.Like w) : w.Like v := by
  rcases h with rfl | ⟨a, b, rfl, rfl⟩
  · exact .refl v
  · exact .inr ⟨b, a, rfl, rfl⟩

theorem Val.Like.trans {u v w : Val} (h : u.Like v) (h' : v.Like w) : u.Like w := by
  rcases h with rfl | ⟨a, b, rfl, rfl⟩
  · exact h'
  · rcases h' with rfl | ⟨_, c, -, rfl⟩
    · exact .inr ⟨a, b, rfl, rfl⟩
    · exact .inr ⟨a, c, rfl, rfl⟩

theorem Val.Like.eq {v w : Val} (h : v.Like w) (hv : ∀ a, v ≠ .address a) : w = v := by
  rcases h with rfl | ⟨a, b, rfl, -⟩
  · rfl
  · exact absurd rfl (hv a)

theorem Val.Like.nil_iff {v w : Val} (h : v.Like w) : v = .word nil ↔ w = .word nil := by
  rcases h with rfl | ⟨a, b, rfl, rfl⟩
  · rfl
  · simp

/-- What is called keeps the registers of its caller and the stack above its arguments, and what
it does follows from its arguments, the heap and `edi`.  Only the collector is passed addresses of
the stack. -/
structure Oblivious (arity : CodePtr → ℕ) (calls : Val → Machine → Machine → Prop) : Prop where
  cdecl : Cdecl calls
  frame : ∀ {f m m'}, calls (.entry f) m m' → ∀ a, m.esp + 4 * f.arity arity ≤ a →
    m'.stack a = m.stack a
  same : ∀ {f m m' n}, calls (.entry f) m m' → m.heap = n.heap → m.edi = n.edi →
    (∀ k < f.arity arity, (m.stack (m.esp + 4 * k)).Like (n.stack (n.esp + 4 * k))) →
    (f ≠ .doGc → ∀ k < f.arity arity, ∀ a, m.stack (m.esp + 4 * k) ≠ .address a) →
    ∃ n', calls (.entry f) n n' ∧ m'.heap = n'.heap ∧ m'.eax.Like n'.eax ∧
      ∀ k < f.arity arity, (m'.stack (m.esp + 4 * k)).Like (n'.stack (n.esp + 4 * k))

/-! ### Programs with calls of themselves -/

/-- What the function has written since it was started. -/
structure Written where
  eax : Bool
  slots : List ℕ

def Written.nothing : Written := ⟨false, []⟩

/-- What has been written after the instruction. -/
def Instr.writes (w : Written) : Instr → Written
  | .here => .nothing
  | .movEax _ | .popEax | .loadArgument _ | .loadBound _ | .loadFree _ | .movEaxEsp
  | .movEaxExtern _ | .call _ | .callHere | .callEax => { w with eax := true }
  | .storeBound k => { w with slots := k :: w.slots }
  | _ => w

/-- Enter the function itself. -/
def Machine.enter (P : Code) (back : ℕ → Val) (m : Machine) : Option Machine :=
  (m.push (back (m.pc + 1))).goto P .here

/-- The program `P` with the calls of itself. -/
def selfCalls (calls : Val → Machine → Machine → Prop) (back : ℕ → Val)
    (ok : Written → Machine → Instr → Prop) (P : Code) : Recursive (Written × Machine) where
  step x y := ∃ i, P[x.2.pc]? = some i ∧ i ≠ .callHere ∧ ok x.1 x.2 i ∧
    (machine calls P).step x.2 i y.2 ∧ y.1 = i.writes x.1
  enter x b := P[x.2.pc]? = some .callHere ∧ x.2.enter P back = some b.2 ∧ b.1 = .nothing
  leave x r y := r.2.top = back (x.2.pc + 1) ∧
    y = (Instr.callHere.writes x.1, { r.2.drop 4 with pc := x.2.pc + 1 })
  done x := P[x.2.pc]? = some .ret ∧ ok x.1 x.2 .ret

/-- The instructions that read nothing but the frame. -/
def Instr.harmless : Instr → Bool
  | .here | .pushEbp | .movEbpEsp | .subEsp _ | .movEspEbp | .popEbp | .popEax | .addEsp _
  | .label _ | .jmp _ | .jmpHere | .storeArgument _ => true
  | _ => false

/-- `k` such instructions lead from `m` to `m'`. -/
inductive Execs (P : Code) : ℕ → Machine → Machine → Prop
  | refl (m : Machine) : Execs P 0 m m
  | head {k : ℕ} {m m₁ m' : Machine} {i : Instr} (hi : P[m.pc]? = some i) (hh : i.harmless)
      (he : i.exec P m = some m₁) (h : Execs P k m₁ m') : Execs P (k + 1) m m'

section Only

variable {calls : Val → Machine → Machine → Prop} {back : ℕ → Val}
  {ok : Written → Machine → Instr → Prop} {P : Code} {w : Written} {m m₁ m' : Machine} {i : Instr}
  {j k : ℕ}

theorem Instr.ne_of_harmless (h : i.harmless) : i ≠ .callHere ∧ i ≠ .ret ∧ i.callee m = none := by
  cases i <;> simp [Instr.harmless, Instr.callee] at h ⊢

/-- An instruction that is not a call has one effect. -/
theorem only_of_exec_eq (hok : ok w m i) (hi : P[m.pc]? = some i) (he : i.exec P m = some m') :
    (selfCalls calls back ok P).Only (w, m) (i.writes w, m') := by
  have hcall : i ≠ .callHere := by
    rintro rfl
    cases he
  have hcallee : i.callee m = none := by
    cases i <;> first | rfl | cases he
  refine ⟨⟨i, hi, hcall, hok, ⟨hi, .inl he⟩, rfl⟩, ?_, ?_, ?_⟩
  · rintro ⟨w', m₁⟩ ⟨j, hj, -, -, ⟨-, hstep⟩, rfl⟩
    obtain rfl : i = j := Option.some.inj (hi.symm.trans hj)
    rcases hstep with hexec | ⟨f, m₂, hf, -⟩
    · obtain rfl := Option.some.inj (he.symm.trans hexec)
      rfl
    · rw [hcallee] at hf
      cases hf
  · rintro b ⟨hb, -⟩
    exact hcall (Option.some.inj (hi.symm.trans hb))
  · rintro ⟨hd, -⟩
    obtain rfl : i = .ret := Option.some.inj (hi.symm.trans hd)
    cases he

theorem only_of_exec (hok : ∀ w m i, i.harmless → ok w m i) (hi : P[m.pc]? = some i)
    (hh : i.harmless) (he : i.exec P m = some m') :
    (selfCalls calls back ok P).Only (w, m) (i.writes w, m') :=
  only_of_exec_eq (hok _ _ _ hh) hi he

/-- The harmless instructions behind which control goes on. -/
def Instr.straight : Instr → Bool
  | .jmp _ | .jmpHere => false
  | i => i.harmless

theorem pc_of_straight (hi : i.straight) (he : i.exec P m = some m') : m'.pc = m.pc + 1 := by
  cases i with
  | popEbp =>
    cases htop : m.top with
    | address a =>
      obtain rfl : { m.drop 4 with ebp := a }.next = m' := by simpa [Instr.exec, htop] using he
      rfl
    | _ => simp [Instr.exec, htop] at he
  | here | pushEbp | movEbpEsp | subEsp | movEspEbp | popEax | addEsp | label | storeArgument =>
    obtain rfl := Option.some.inj he
    rfl
  | _ => cases hi

theorem harmless_of_straight (hi : i.straight) : i.harmless := by
  cases i <;> first | rfl | cases hi

/-- In such code, control goes on from instruction to instruction. -/
theorem pc_of_forced {c : Code} (hat : At P m.pc c) (hc : ∀ i ∈ c, i.straight) {k : ℕ}
    (hk : k ≤ c.length) {t : Written × Machine}
    (h : (selfCalls calls back ok P).Forced k (w, m) t) : t.2.pc = m.pc + k := by
  induction k generalizing c w m with
  | zero =>
    cases h
    rfl
  | succ k ih =>
    cases c with
    | nil => exact absurd hk (Nat.not_succ_le_zero k)
    | cons i c =>
      obtain ⟨hi, hat⟩ := at_cons.1 hat
      cases h with
      | @head _ _ s _ ho h =>
        obtain ⟨j, hj, -, -, ⟨-, hstep⟩, -⟩ := ho.step
        obtain rfl : i = j := Option.some.inj (hi.symm.trans hj)
        have hstraight := hc i List.mem_cons_self
        rcases hstep with he | ⟨f, -, hf, -⟩
        · have hpc : s.2.pc = m.pc + 1 := pc_of_straight hstraight he
          rw [← hpc] at hat
          rw [ih hat (fun j hj => hc j (List.mem_cons_of_mem _ hj)) (Nat.le_of_succ_le_succ hk) h,
            hpc]
          omega
        · rw [(Instr.ne_of_harmless (harmless_of_straight hstraight)).2.2] at hf
          cases hf

theorem forced_cons (hok : ∀ w m i, i.harmless → ok w m i) (hi : P[m.pc]? = some i)
    (hh : i.harmless) (he : i.exec P m = some m') {k : ℕ} {s : Written × Machine}
    (h : (selfCalls calls back ok P).Forced k (i.writes w, m') s) :
    (selfCalls calls back ok P).Forced (k + 1) (w, m) s :=
  .head (only_of_exec hok hi hh he) h

theorem Execs.trans (h : Execs P j m m₁) (h' : Execs P k m₁ m') : Execs P (j + k) m m' := by
  induction h with
  | refl => rwa [Nat.zero_add]
  | @head j _ _ _ _ hi hh he _ ih =>
    rw [show j + 1 + k = j + k + 1 by omega]
    exact .head hi hh he (ih h')

variable (calls back w) in
theorem Execs.forced (h : Execs P k m m') (hok : ∀ w m i, i.harmless → ok w m i) :
    ∃ w', (selfCalls calls back ok P).Forced k (w, m) (w', m') := by
  induction h generalizing w with
  | refl => exact ⟨w, .refl _⟩
  | head hi hh he _ ih =>
    obtain ⟨w', hf⟩ := ih _
    exact ⟨w', forced_cons hok hi hh he hf⟩

theorem Execs.inevitably (h : Execs P k m m') {Q : Machine → Prop} (hQ : Q m') :
    (machine calls P).Inevitably Q m := by
  induction h with
  | refl => exact .now hQ
  | head hi hh he _ ih => exact inevitably_exec hi he (Instr.ne_of_harmless hh).2.2 (ih hQ)

end Only

/-! ### Blocks -/

/-- A piece of a function's body. -/
inductive Block
  | keep (i : Instr)
  /-- A call of the function in tail position. -/
  | self

/-- The code of the block, in a function that finds `count` words on the stack. -/
def Block.code (count : ℕ) : Block → Code
  | keep i => [i]
  | self => tailCall count

/-- Its code if the tail call is compiled like any other. -/
def Block.plain : Block → Instr
  | keep i => i
  | self => .callHere

/-- No call is in tail position. -/
def Block.untail (b : Block) : Block := .keep b.plain

def bodyCode (count : ℕ) (bs : List Block) : Code := bs.flatMap (Block.code count)

def functionCode (count reserved : ℕ) (bs : List Block) : Code :=
  setup reserved ++ bodyCode count bs ++ cleanup

/-- The position of the block `p` in the body. -/
def place (count : ℕ) (bs : List Block) (p : ℕ) : ℕ := (bodyCode count (bs.take p)).length

section Blocks

variable {count reserved p p' : ℕ} {bs : List Block} {b : Block} {i : Instr}

theorem length_tailCall (n : ℕ) : (tailCall n).length = 2 * n + 3 := by
  simp [tailCall, List.length_flatMap, Nat.mul_comm]

theorem Block.code_pos (count : ℕ) (b : Block) : 0 < (b.code count).length := by
  cases b with
  | keep i => exact Nat.one_pos
  | self =>
    rw [Block.code, length_tailCall]
    omega

theorem place_succ (count : ℕ) (h : bs[p]? = some b) :
    place count bs (p + 1) = place count bs p + (b.code count).length := by
  unfold place bodyCode
  rw [List.take_add_one, h]
  simp

theorem at_block (count reserved : ℕ) (h : bs[p]? = some b) :
    At (functionCode count reserved bs) (4 + place count bs p) (b.code count) := by
  obtain ⟨hp, hb⟩ := List.getElem?_eq_some_iff.1 h
  have hsplit : bs = bs.take p ++ b :: bs.drop (p + 1) := by
    rw [← hb, ← List.drop_eq_getElem_cons hp, List.take_append_drop]
  have hcode : functionCode count reserved bs = setup reserved ++ bodyCode count (bs.take p) ++
      (b.code count ++ (bodyCode count (bs.drop (p + 1)) ++ cleanup)) := by
    conv_lhs => rw [hsplit]
    simp [functionCode, bodyCode, List.append_assoc]
  have hat : At (functionCode count reserved bs) 0 (functionCode count reserved bs) := by
    rw [At, List.drop_zero]
  nth_rewrite 2 [hcode] at hat
  rw [at_append] at hat
  have hlen : 0 + (setup reserved ++ bodyCode count (bs.take p)).length = 4 + place count bs p := by
    simp [setup, place]
    omega
  rw [hlen] at hat
  exact (at_append.1 hat.2).1

theorem place_lt (count : ℕ) (hp : p < p') (hp' : p' ≤ bs.length) :
    place count bs p < place count bs p' := by
  induction p', hp using Nat.le_induction with
  | base =>
    have hlt : p < bs.length := hp'
    rw [place_succ count (List.getElem?_eq_getElem hlt)]
    have hpos := bs[p].code_pos count
    omega
  | succ p' hle ih =>
    rw [place_succ count (List.getElem?_eq_getElem hp')]
    exact Nat.lt_add_right _ (ih (Nat.le_of_succ_le hp'))

/-- A block is where it is. -/
theorem place_injective (hp : p ≤ bs.length) (hp' : p' ≤ bs.length)
    (h : place count bs p = place count bs p') : p = p' := by
  rcases Nat.lt_trichotomy p p' with hlt | rfl | hlt
  · exact absurd h (place_lt count hlt hp').ne
  · rfl
  · exact absurd h (place_lt count hlt hp).ne'

/-- An instruction of the body stands in a block. -/
theorem exists_block {x : ℕ} (h : (bodyCode count bs)[x]? = some i) :
    ∃ p b j, bs[p]? = some b ∧ x = place count bs p + j ∧ (b.code count)[j]? = some i := by
  induction bs generalizing x with
  | nil => cases h
  | cons b bs ih =>
    have hcons : bodyCode count (b :: bs) = b.code count ++ bodyCode count bs := by simp [bodyCode]
    rw [hcons] at h
    rcases Nat.lt_or_ge x (b.code count).length with hx | hx
    · rw [List.getElem?_append_left hx] at h
      exact ⟨0, b, x, rfl, by simp [place, bodyCode], h⟩
    · rw [List.getElem?_append_right hx] at h
      obtain ⟨p, b', j, hb', hxj, hi⟩ := ih h
      refine ⟨p + 1, b', j, hb', ?_, hi⟩
      have hplace : place count (b :: bs) (p + 1) = (b.code count).length + place count bs p := by
        simp [place, bodyCode]
      omega

theorem at_setup (count reserved : ℕ) (bs : List Block) :
    At (functionCode count reserved bs) 0 (setup reserved) := by
  rw [At, List.drop_zero, functionCode, List.append_assoc]
  exact List.prefix_append _ _

theorem at_cleanup (count reserved : ℕ) (bs : List Block) :
    At (functionCode count reserved bs) (4 + place count bs bs.length) cleanup := by
  have hat : At (functionCode count reserved bs) 0 (functionCode count reserved bs) := by
    rw [At, List.drop_zero]
  nth_rewrite 2 [functionCode] at hat
  rw [at_append, List.length_append] at hat
  have hlen : 0 + ((setup reserved).length + (bodyCode count bs).length) =
      4 + place count bs bs.length := by
    simp [setup, place]
  rw [hlen] at hat
  exact hat.2

/-- What is neither in `setup` nor in `cleanup` stands in a block. -/
theorem exists_block_of_not_mem {x : ℕ} (h : (functionCode count reserved bs)[x]? = some i)
    (hs : i ∉ setup reserved) (hc : i ∉ cleanup) :
    ∃ p b j, bs[p]? = some b ∧ x = 4 + place count bs p + j ∧ (b.code count)[j]? = some i := by
  unfold functionCode at h
  rw [List.append_assoc] at h
  rcases Nat.lt_or_ge x 4 with hx | hx
  · rw [List.getElem?_append_left (by simpa [setup] using hx)] at h
    exact absurd (List.mem_of_getElem? h) hs
  rw [List.getElem?_append_right (by simpa [setup] using hx)] at h
  rcases Nat.lt_or_ge (x - 4) (bodyCode count bs).length with hx' | hx'
  · rw [List.getElem?_append_left (by simpa [setup] using hx')] at h
    obtain ⟨p, b, j, hb, hxj, hi⟩ := exists_block h
    refine ⟨p, b, j, hb, ?_, hi⟩
    simp [setup] at hxj
    omega
  · rw [List.getElem?_append_right (by simpa [setup] using hx')] at h
    exact absurd (List.mem_of_getElem? h) hc

/-- A label stands where its block does. -/
theorem exists_label {x l : ℕ} (h : (functionCode count reserved bs)[x]? = some (.label l)) :
    ∃ p, bs[p]? = some (.keep (.label l)) ∧ x = 4 + place count bs p := by
  obtain ⟨p, b, j, hb, rfl, hi⟩ :=
    exists_block_of_not_mem h (by simp [setup]) (by simp [cleanup])
  cases b with
  | keep i =>
    have hj : j = 0 := by
      have hlt := (List.getElem?_eq_some_iff.1 hi).1
      simp only [Block.code, List.length_singleton] at hlt
      omega
    subst hj
    obtain rfl : i = .label l := by simpa [Block.code] using hi
    exact ⟨p, hb, rfl⟩
  | self =>
    have hmem := List.mem_of_getElem? hi
    simp [Block.code, tailCall] at hmem

/-- `call <1` and `jmp <1` lead to the start. -/
theorem goto_here (m : Machine) :
    m.goto (functionCode count reserved bs) .here = some { m with pc := 0 } := by
  simp [Machine.goto, functionCode, setup, List.findIdx?_cons]

theorem eq_of_enter {back : ℕ → Val} {m m' : Machine}
    (h : m.enter (functionCode count reserved bs) back = some m') :
    m' = { m.push (back (m.pc + 1)) with pc := 0 } :=
  (Option.some.inj ((goto_here _).symm.trans h)).symm

end Blocks

/-! ### Activations -/

/-- The height of the stack in front of the position `p` of a body. -/
def heightAt (q : Code) (p : ℕ) : ℤ := stackHeights.height 0 (q.take p)

/-- The instructions that are not about the frame as a whole. -/
def Instr.inBody : Instr → Bool
  | .here | .movEbpEsp | .subEsp _ | .movEspEbp | .popEbp | .ret | .jmpHere | .storeArgument _ =>
    false
  | _ => true

/-- What is needed of a body, with all calls compiled alike. -/
structure Regular (arity : CodePtr → ℕ) (count : ℕ) (q : Code) : Prop where
  typed : ∃ Γ, Typed Γ 0 q 0
  unique : stackHeights.LabelsUnique q
  inBody : ∀ {p : ℕ} {i : Instr}, q[p]? = some i → i.inBody
  passes : ∀ {p : ℕ} {f : Extern}, q[p]? = some (.call f) → 4 * (f.arity arity : ℤ) ≤ heightAt q p ∨
    f = .createClosure ∧ ∃ n, p = n + 1 ∧ q[n]? = some .pushHere
  gc : ∀ {p : ℕ}, q[p]? = some .callEax → ∃ n, p = n + 1 ∧ q[n]? = some (.movEaxExtern .doGc)
  flag : ∀ {p l : ℕ}, q[p]? = some (.je l) ∨ q[p]? = some (.jne l) →
    ∃ n, p = n + 1 ∧ q[n]? = some .cmpEaxNil
  self : ∀ {p : ℕ}, q[p]? = some .callHere → q[p + 1]? = some (.addEsp (count * 4))
  argument : ∀ {p k : ℕ}, q[p]? = some (.loadArgument k) → k < count
  aligned : ∀ {p n : ℕ}, q[p]? = some (.addEsp n) → 4 ∣ n

/-- The words of the stack that belong to the caller: the return address, and what is above the
arguments. -/
def Above (count : ℕ) (e : Machine) (a : ℤ) : Prop := a = e.esp ∨ e.esp + 4 + 4 * count ≤ a

/-- The activation that was entered in `e` is in front of the block `p`. -/
structure Running (count reserved : ℕ) (bs : List Block) (e : Machine) (p : ℕ) (m : Machine) :
    Prop where
  le : p ≤ bs.length
  pc : m.pc = 4 + place count bs p
  ebp : m.ebp = e.esp - 4
  esp : m.esp + heightAt (bs.map Block.plain) p ≤ m.ebp - 4 * reserved
  aligned : 4 ∣ m.ebp - m.esp
  saved : m.stack m.ebp = .address e.ebp
  kept : ∀ a, Above count e a → m.stack a = e.stack a
  edi : m.edi = e.edi
  closure : (bs.map Block.plain)[p]? = some (.call .createClosure) →
    m.esp + 12 ≤ m.ebp - 4 * reserved
  gc : (bs.map Block.plain)[p]? = some .callEax → m.eax = .entry .doGc

/-- Where the instruction jumps to, if it does. -/
def Instr.jump (m : Machine) : Instr → Option ℕ
  | .je l => if m.zf then some l else none
  | .jne l => if m.zf then none else some l
  | .jmp l => some l
  | _ => none

section Step

variable {arity : CodePtr → ℕ} {calls : Val → Machine → Machine → Prop} {P q : Code}
  {m m₁ e : Machine} {i : Instr} {count reserved p : ℕ} {bs : List Block}

theorem goto_eq_some {j : Instr} (h : m.goto P j = some m₁) : m₁ = { m with pc := m₁.pc } := by
  obtain ⟨p, -, rfl⟩ := Option.map_eq_some_iff.1 h
  rfl

/-- An instruction jumps, or goes on. -/
theorem exec_cases (hi : i.inBody) (he : i.exec P m = some m₁) :
    (∃ l, i.jump m = some l ∧ m.goto P (.label l) = some m₁) ∨
      i.jump m = none ∧ m₁.pc = m.pc + 1 := by
  cases i with
  | je l =>
    cases hz : m.zf with
    | true => exact .inl ⟨l, by simp [Instr.jump, hz], by simpa [Instr.exec, hz] using he⟩
    | false =>
      obtain rfl : m.next = m₁ := by simpa [Instr.exec, hz] using he
      exact .inr ⟨by simp [Instr.jump, hz], rfl⟩
  | jne l =>
    cases hz : m.zf with
    | false => exact .inl ⟨l, by simp [Instr.jump, hz], by simpa [Instr.exec, hz] using he⟩
    | true =>
      obtain rfl : m.next = m₁ := by simpa [Instr.exec, hz] using he
      exact .inr ⟨by simp [Instr.jump, hz], rfl⟩
  | jmp l => exact .inl ⟨l, rfl, he⟩
  | loadFree k =>
    obtain ⟨w, -, rfl⟩ := Option.map_eq_some_iff.1 he
    exact .inr ⟨rfl, rfl⟩
  | here | movEbpEsp | subEsp | movEspEbp | popEbp | ret | jmpHere | storeArgument => cases hi
  | call | callHere | callEax => cases he
  | _ =>
    obtain rfl := Option.some.inj he
    exact .inr ⟨rfl, rfl⟩

/-- It changes neither `edi` nor the heap, nor a word from the saved `ebp` on. -/
theorem exec_keeps (hi : i.inBody) (he : i.exec P m = some m₁) (hesp : m.esp ≤ m.ebp) :
    m₁.edi = m.edi ∧ m₁.heap = m.heap ∧ ∀ a, m.ebp ≤ a → m₁.stack a = m.stack a := by
  rcases exec_cases hi he with ⟨l, -, hgoto⟩ | ⟨hjump, -⟩
  · rw [goto_eq_some hgoto]
    exact ⟨rfl, rfl, fun _ _ => rfl⟩
  have hpush : ∀ v, ∀ a, m.ebp ≤ a → (m.push v).next.stack a = m.stack a := fun v a ha =>
    Function.update_of_ne (by omega) _ _
  cases i with
  | je l | jne l =>
    cases hz : m.zf <;> simp [Instr.jump, hz] at hjump
    obtain rfl : m.next = m₁ := by simpa [Instr.exec, hz] using he
    exact ⟨rfl, rfl, fun _ _ => rfl⟩
  | jmp l => cases hjump
  | pushEbp | pushEax | push | pushHere =>
    obtain rfl := Option.some.inj he
    exact ⟨rfl, rfl, hpush _⟩
  | storeBound k =>
    obtain rfl := Option.some.inj he
    refine ⟨rfl, rfl, fun a ha => Function.update_of_ne ?_ _ _⟩
    unfold slotAddress
    omega
  | loadFree k =>
    obtain ⟨w, -, rfl⟩ := Option.map_eq_some_iff.1 he
    exact ⟨rfl, rfl, fun _ _ => rfl⟩
  | here | movEbpEsp | subEsp | movEspEbp | popEbp | ret | jmpHere | storeArgument => cases hi
  | call | callHere | callEax => cases he
  | _ =>
    obtain rfl := Option.some.inj he
    exact ⟨rfl, rfl, fun _ _ => rfl⟩

theorem dvd_of_pushed {b : ℤ} (hb : i.pushed = some b) (hi : ∀ n, i = .addEsp n → 4 ∣ n) :
    4 ∣ b := by
  cases i with
  | addEsp n =>
    obtain rfl : -(n : ℤ) = b := Option.some.inj hb
    have hn := hi n rfl
    omega
  | subEsp | movEbpEsp | movEspEbp | popEbp | ret | jmpHere => cases hb
  | _ =>
    obtain rfl := Option.some.inj hb
    decide

/-- The position that a step of the body leads to. -/
theorem exists_position (hreg : Regular arity count (bs.map Block.plain))
    (hp : bs[p]? = some (.keep i)) (hpc : m.pc = 4 + place count bs p)
    (hs : (machine calls (functionCode count reserved bs)).step m i m₁) :
    ∃ p₁ ≤ bs.length, m₁.pc = 4 + place count bs p₁ ∧
      (∀ l, i.jump m = some l → (bs.map Block.plain)[p₁]? = some (.label l)) ∧
      (i.jump m = none → p₁ = p + 1) := by
  have hi : i.inBody := hreg.inBody (p := p) (by simp [hp, Block.plain])
  have hlt := (List.getElem?_eq_some_iff.1 hp).1
  have hnext : m.pc + 1 = 4 + place count bs (p + 1) := by
    rw [hpc, place_succ count hp, Block.code, List.length_singleton, Nat.add_assoc]
  rcases hs.2 with he | ⟨f, m₂, hf, -, rfl⟩
  · rcases exec_cases hi he with ⟨l, hjump, hgoto⟩ | ⟨hjump, hpc₁⟩
    · obtain ⟨p₁, hp₁, hpc₁⟩ := exists_label (goto_label hgoto).1
      refine ⟨p₁, (List.getElem?_eq_some_iff.1 hp₁).1.le, hpc₁, fun l' hl' => ?_, ?_⟩
      · obtain rfl : l = l' := Option.some.inj (hjump.symm.trans hl')
        simp [hp₁, Block.plain]
      · rw [hjump]
        exact nofun
    · exact ⟨p + 1, hlt, hpc₁.trans hnext, by rw [hjump]; exact nofun, fun _ => rfl⟩
  · have hjump : i.jump m = none := by
      cases i <;> first | rfl | cases hf
    exact ⟨p + 1, hlt, hnext, by rw [hjump]; exact nofun, fun _ => rfl⟩

theorem heightAt_succ_of_typed {Γ : ℕ → ℤ} (ht : Typed Γ 0 q 0) (hq : q[p]? = some i) {e : ℤ}
    (he : stackHeights.effect i = some e) : heightAt q (p + 1) = heightAt q p + e := by
  obtain ⟨-, e', he', hheight⟩ := ht.at_getElem? hq
  obtain rfl : e = e' := Option.some.inj (he.symm.trans he')
  exact hheight

theorem heightAt_succ (hreg : Regular arity count q) (hq : q[p]? = some i) {e : ℤ}
    (he : stackHeights.effect i = some e) : heightAt q (p + 1) = heightAt q p + e := by
  obtain ⟨Γ, ht⟩ := hreg.typed
  exact heightAt_succ_of_typed ht hq he

/-- The height there is what the effect of the instruction says. -/
theorem heightAt_of_position (hreg : Regular arity count q) (hq : q[p]? = some i) {e : ℤ}
    (he : stackHeights.effect i = some e) {p₁ : ℕ}
    (hjump : ∀ l, i.jump m = some l → q[p₁]? = some (.label l))
    (hnext : i.jump m = none → p₁ = p + 1) : heightAt q p₁ = heightAt q p + e := by
  cases hj : i.jump m with
  | none =>
    rw [hnext hj]
    exact heightAt_succ hreg hq he
  | some l =>
    obtain ⟨Γ, ht⟩ := hreg.typed
    obtain ⟨hl, -⟩ := ht.at_getElem? hq
    obtain ⟨hl₁, -⟩ := ht.at_getElem? (hjump l hj)
    have htarget : stackHeights.target i = some l := by
      cases i with
      | je k | jne k =>
        simp only [Instr.jump] at hj
        split at hj <;> cases hj
        rfl
      | jmp k => exact hj
      | _ => cases hj
    have hzero := stackHeights.target_effect htarget
    obtain rfl : e = 0 := Option.some.inj (he.symm.trans hzero)
    show stackHeights.height 0 (q.take p₁) = stackHeights.height 0 (q.take p) + 0
    rw [← hl l (.inl htarget), ← hl₁ l (.inr rfl), add_zero]

theorem heightAt_nonneg (hreg : Regular arity count q) (p : ℕ) : 0 ≤ heightAt q p := by
  obtain ⟨Γ, ht⟩ := hreg.typed
  exact ht.height_take_nonneg p

/-- What is called is a C function or another function. -/
theorem Running.callee (h : Running count reserved bs e p m)
    (hi : (bs.map Block.plain)[p]? = some i) (hcall : i ≠ .callHere) {v : Val}
    (hv : i.callee m = some v) :
    ∃ f, v = .entry f ∧ (i = .call f ∨ i = .callEax ∧ f = .doGc) := by
  cases i with
  | call f => exact ⟨f, (Option.some.inj hv).symm, .inl rfl⟩
  | callEax => exact ⟨.doGc, (Option.some.inj hv).symm.trans (h.gc hi), .inr ⟨rfl, rfl⟩⟩
  | callHere => exact absurd rfl hcall
  | _ => cases hv

/-- What is called finds its arguments below the slots. -/
theorem Running.passed (hreg : Regular arity count (bs.map Block.plain))
    (h : Running count reserved bs e p m) (hi : (bs.map Block.plain)[p]? = some i)
    {f : Extern} (hf : i.callee m = some (.entry f)) :
    m.esp + 4 * f.arity arity ≤ m.ebp - 4 * reserved := by
  have hesp := h.esp
  cases i with
  | call g =>
    obtain rfl : g = f := by simpa [Instr.callee] using hf
    rcases hreg.passes hi with hle | ⟨rfl, -⟩
    · omega
    · exact h.closure hi
  | callEax =>
    obtain rfl : f = .doGc := by
      have heax := (Option.some.inj hf).symm.trans (h.gc hi)
      simpa using heax
    have hheight := heightAt_succ hreg hi (show stackHeights.effect .callEax = some (-8) from rfl)
    have hnn := heightAt_nonneg hreg (p + 1)
    show m.esp + 4 * (2 : ℕ) ≤ _
    omega
  | _ => cases hf

/-- A step of the body that is not a call of the function itself. -/
theorem Running.step (hcalls : Oblivious arity calls)
    (hreg : Regular arity count (bs.map Block.plain)) (h : Running count reserved bs e p m)
    (hp : bs[p]? = some (.keep i)) (hcall : i ≠ .callHere)
    (hs : (machine calls (functionCode count reserved bs)).step m i m₁) :
    ∃ p₁, Running count reserved bs e p₁ m₁ ∧
      (∀ l, i.jump m = some l → (bs.map Block.plain)[p₁]? = some (.label l)) ∧
      (i.jump m = none → p₁ = p + 1) := by
  have hq : (bs.map Block.plain)[p]? = some i := by simp [hp, Block.plain]
  have hi : i.inBody := hreg.inBody hq
  obtain ⟨Γ, ht⟩ := hreg.typed
  obtain ⟨-, d, hd, -⟩ := ht.at_getElem? hq
  obtain ⟨hesp₁, hebp₁, -⟩ := step_effect hcalls.cdecl hs hd
  obtain ⟨p₁, hle, hpc₁, hjump, hnext⟩ := exists_position hreg hp h.pc hs
  have hheight := heightAt_of_position hreg hq hd hjump hnext
  have hnn := heightAt_nonneg hreg p
  have hnn₁ := heightAt_nonneg hreg p₁
  have hebp := h.ebp
  have hesp := h.esp
  have hbelow : m.esp ≤ m.ebp := by omega
  -- the words from the saved `ebp` on
  have hkeeps : m₁.edi = m.edi ∧ ∀ a, m.ebp ≤ a → m₁.stack a = m.stack a := by
    rcases hs.2 with he | ⟨v, m₂, hv, hm₂, rfl⟩
    · obtain ⟨hedi, -, hstack⟩ := exec_keeps hi he hbelow
      exact ⟨hedi, hstack⟩
    · obtain ⟨f, rfl, -⟩ := h.callee hq hcall hv
      have hpassed := h.passed hreg hq hv
      have hedi := hcalls.cdecl.edi hm₂
      have hframe := hcalls.frame hm₂
      exact ⟨hedi, fun a ha => hframe a (by omega)⟩
  have hfirst : ∀ j, (bs.map Block.plain)[p₁]? = some j → (∀ l, j ≠ .label l) → p₁ = p + 1 := by
    intro j hj hlabel
    cases hj' : i.jump m with
    | none => exact hnext hj'
    | some l => exact absurd (Option.some.inj (hj.symm.trans (hjump l hj'))) (hlabel l)
  refine ⟨p₁, ⟨hle, hpc₁, hebp₁.trans hebp, ?_, ?_, ?_, fun a ha => ?_, hkeeps.1.trans h.edi,
    fun hc => ?_, fun hc => ?_⟩, hjump, hnext⟩
  · rw [hesp₁, hebp₁, hheight]
    omega
  · obtain ⟨b, hb, rfl⟩ := Option.map_eq_some_iff.1 hd
    have hdvd := dvd_of_pushed hb fun n hn => hreg.aligned (p := p) (n := n) (hn ▸ hq)
    have haligned := h.aligned
    rw [hesp₁, hebp₁]
    omega
  · rw [hebp₁, hkeeps.2 _ le_rfl, h.saved]
  · refine (hkeeps.2 a ?_).trans (h.kept a ha)
    rcases ha with rfl | ha <;> omega
  · obtain rfl := hfirst _ hc nofun
    rw [hesp₁, hebp₁]
    rcases hreg.passes hc with hle | ⟨-, n, hn, hpush⟩
    · have harity : (Extern.createClosure.arity arity : ℤ) = 3 := rfl
      omega
    · obtain rfl : p = n := by omega
      obtain rfl : i = .pushHere := Option.some.inj (hq.symm.trans hpush)
      obtain rfl : -8 = d := Option.some.inj hd
      show m.esp - (-8 + (12 : ℕ)) + 12 ≤ _
      omega
  · obtain rfl := hfirst _ hc nofun
    obtain ⟨n, hn, hmov⟩ := hreg.gc hc
    obtain rfl : p = n := by omega
    obtain rfl : i = .movEaxExtern .doGc := Option.some.inj (hq.symm.trans hmov)
    rcases hs.2 with he | ⟨v, m₂, hv, -⟩
    · obtain rfl := Option.some.inj he
      rfl
    · cases hv

end Step

/-! ### The frame as a whole -/

/-- The machine behind `setup`. -/
def Machine.started (reserved : ℕ) (e : Machine) : Machine :=
  { e with
    pc := 4
    esp := e.esp - 4 - (4 * reserved : ℕ)
    ebp := e.esp - 4
    stack := Function.update e.stack (e.esp - 4) (.address e.ebp) }

/-- The call that was entered in `e` is about to return in `r`. -/
structure Left (count : ℕ) (e r : Machine) : Prop where
  esp : r.esp = e.esp
  ebp : r.ebp = e.ebp
  edi : r.edi = e.edi
  kept : ∀ a, Above count e a → r.stack a = e.stack a

/-- The activation that was entered in `e` is started again in `r`, with the arguments that are on
top of the stack in `m`. -/
structure Restarted (count : ℕ) (e m r : Machine) : Prop where
  pc : r.pc = 0
  esp : r.esp = e.esp
  ebp : r.ebp = e.ebp
  edi : r.edi = m.edi
  heap : r.heap = m.heap
  arguments : ∀ k < count, r.stack (r.esp + 4 + 4 * k) = m.stack (m.esp + 4 * k)
  kept : ∀ a, Above count e a → r.stack a = m.stack a

/-- `n` words have been popped into the words of the arguments. -/
structure Popped (n : ℕ) (m m' : Machine) : Prop where
  pc : m'.pc = m.pc + 2 * n
  esp : m'.esp = m.esp + 4 * n
  ebp : m'.ebp = m.ebp
  edi : m'.edi = m.edi
  heap : m'.heap = m.heap
  arguments : ∀ k < n, m'.stack (argumentAddress m.ebp k) = m.stack (m.esp + 4 * k)
  kept : ∀ a, (∀ k < n, a ≠ argumentAddress m.ebp k) → m'.stack a = m.stack a

/-- The words on top of the stack have become the arguments of the frame that is there, and the
frame is given up: control is at `q`, and `a` is the address of the frame behind it. -/
structure Rewound (n q : ℕ) (a : ℤ) (m r : Machine) : Prop where
  pc : r.pc = q
  esp : r.esp = m.ebp + 4
  ebp : r.ebp = a
  edi : r.edi = m.edi
  heap : r.heap = m.heap
  arguments : ∀ k < n, r.stack (argumentAddress m.ebp k) = m.stack (m.esp + 4 * k)
  kept : ∀ b, (∀ k < n, b ≠ argumentAddress m.ebp k) → r.stack b = m.stack b

section Frames

variable {arity : CodePtr → ℕ} {calls : Val → Machine → Machine → Prop} {back : ℕ → Val}
  {ok : Written → Machine → Instr → Prop} {P : Code} {w w' : Written} {m m' e r : Machine}
  {count reserved p : ℕ} {bs : List Block}

theorem heightAt_zero (q : Code) : heightAt q 0 = 0 := rfl

theorem running_started (hreg : Regular arity count (bs.map Block.plain)) :
    Running count reserved bs e 0 (e.started reserved) where
  le := Nat.zero_le _
  pc := rfl
  ebp := rfl
  esp := by
    rw [heightAt_zero]
    show e.esp - 4 - (4 * reserved : ℕ) + 0 ≤ e.esp - 4 - 4 * reserved
    push_cast
    omega
  aligned := by
    show 4 ∣ e.esp - 4 - (e.esp - 4 - (4 * reserved : ℕ))
    push_cast
    omega
  saved := Function.update_self ..
  kept a ha := by
    refine Function.update_of_ne ?_ _ _
    rcases ha with rfl | ha <;> omega
  edi := rfl
  closure hc := by
    rcases hreg.passes hc with hle | ⟨-, n, hn, -⟩
    · have harity : (Extern.createClosure.arity arity : ℤ) = 3 := rfl
      rw [heightAt_zero] at hle
      omega
    · cases hn
  gc hc := by
    obtain ⟨n, hn, -⟩ := hreg.gc hc
    cases hn

variable (hok : ∀ w m i, i.harmless → ok w m i)

include hok

variable (calls back w count reserved bs) in
theorem forced_setup (he : e.pc = 0) : (selfCalls calls back ok
    (functionCode count reserved bs)).Forced 4 (w, e) (.nothing, e.started reserved) := by
  obtain ⟨pc, eax, esp, ebp, edi, zf, stack, heap⟩ := e
  obtain rfl : pc = 0 := he
  have hat : At (functionCode count reserved bs) 0 (setup reserved) := at_setup count reserved bs
  simp only [setup, at_cons] at hat
  obtain ⟨h₀, h₁, h₂, h₃, -⟩ := hat
  refine forced_cons hok h₀ rfl rfl (forced_cons hok h₁ rfl rfl ?_)
  exact forced_cons hok h₂ rfl rfl (forced_cons hok h₃ rfl rfl (.refl _))

omit hok in
theorem execs_pops {n : ℕ} (hat : At P m.pc
      ((List.range n).flatMap fun i => [.popEax, .storeArgument i]))
    (hesp : m.esp + 4 * n ≤ m.ebp) : ∃ m', Execs P (2 * n) m m' ∧ Popped n m m' := by
  induction n with
  | zero =>
    exact ⟨m, .refl _, ⟨rfl, by simp, rfl, rfl, rfl, fun _ h => absurd h (Nat.not_lt_zero _),
      fun _ _ => rfl⟩⟩
  | succ n ih =>
    rw [List.range_succ, List.flatMap_append, at_append] at hat
    obtain ⟨hat₁, hat₂⟩ := hat
    obtain ⟨m₁, hq, hm₁⟩ := ih hat₁ (by push_cast at hesp; omega)
    have hlen : ((List.range n).flatMap fun i => [Instr.popEax, .storeArgument i]).length =
        2 * n := by
      simp [List.length_flatMap, Nat.mul_comm]
    rw [hlen, ← hm₁.pc] at hat₂
    simp only [List.flatMap_cons, List.flatMap_nil, List.append_nil, at_cons] at hat₂
    obtain ⟨hpop, hstore, -⟩ := hat₂
    refine ⟨_, hq.trans (.head hpop rfl rfl (.head hstore rfl rfl (.refl _))), ?_⟩
    have hesp₁ := hm₁.esp
    have hebp₁ := hm₁.ebp
    refine ⟨?_, ?_, hebp₁, hm₁.edi, hm₁.heap, fun k hk => ?_, fun a ha => ?_⟩
    · show m₁.pc + 1 + 1 = _
      rw [hm₁.pc]
      ring
    · show m₁.esp + (4 : ℕ) = _
      rw [hesp₁]
      push_cast
      ring
    · show Function.update m₁.stack (argumentAddress m₁.ebp n) (m₁.stack m₁.esp) _ = _
      rw [hebp₁]
      by_cases hkn : k = n
      · subst hkn
        rw [Function.update_self, hm₁.kept, hesp₁]
        intro j hj
        unfold argumentAddress
        push_cast at hesp
        omega
      · rw [Function.update_of_ne (by unfold argumentAddress; omega)]
        exact hm₁.arguments k (by omega)
    · show Function.update m₁.stack (argumentAddress m₁.ebp n) (m₁.stack m₁.esp) _ = _
      rw [hebp₁, Function.update_of_ne (ha n (Nat.lt_succ_self n))]
      exact hm₁.kept a fun k hk => ha k (Nat.lt_succ_of_lt hk)

omit hok in
/-- The code of a tail call. -/
theorem execs_tailCall {n q : ℕ} {a : ℤ} (hat : At P m.pc (tailCall n))
    (hesp : m.esp + 4 * n ≤ m.ebp) (hsaved : m.stack m.ebp = .address a)
    (hgoto : ∀ m : Machine, m.goto P .here = some { m with pc := q }) :
    ∃ r, Execs P (2 * n + 3) m r ∧ Rewound n q a m r := by
  rw [tailCall, at_append] at hat
  obtain ⟨hpops, hrest⟩ := hat
  obtain ⟨m₁, hq, hm₁⟩ := execs_pops hpops hesp
  have hlen : ((List.range n).flatMap fun i => [Instr.popEax, .storeArgument i]).length =
      2 * n := by
    simp [List.length_flatMap, Nat.mul_comm]
  rw [hlen, ← hm₁.pc] at hrest
  simp only [at_cons] at hrest
  obtain ⟨hmov, hpop, hjmp, -⟩ := hrest
  -- the saved `ebp` is still there
  have hsaved₁ : m₁.stack m₁.ebp = .address a := by
    rw [hm₁.ebp, hm₁.kept, hsaved]
    intro k _
    unfold argumentAddress
    omega
  have hpop' : Instr.popEbp.exec P { m₁ with esp := m₁.ebp }.next =
      some { { m₁ with esp := m₁.ebp }.next.drop 4 with ebp := a }.next := by
    have htop : { m₁ with esp := m₁.ebp }.next.top = .address a := hsaved₁
    rw [Instr.exec, htop]
  have hjmp' : ∀ m, Instr.jmpHere.exec P m = some { m with pc := q } := hgoto
  refine ⟨_, hq.trans (.head hmov rfl rfl (.head hpop rfl hpop' (.head hjmp rfl (hjmp' _)
    (.refl _)))), ⟨rfl, ?_, rfl, hm₁.edi, hm₁.heap, hm₁.arguments, hm₁.kept⟩⟩
  show m₁.ebp + (4 : ℕ) = _
  rw [hm₁.ebp]
  rfl

omit hok in
/-- The function finds its arguments below the slots, too. -/
theorem Running.self_passed (hreg : Regular arity count (bs.map Block.plain))
    (h : Running count reserved bs e p m) (hp : (bs.map Block.plain)[p]? = some .callHere) :
    m.esp + 4 * count ≤ m.ebp - 4 * reserved := by
  have hesp := h.esp
  have hadd := hreg.self hp
  have hcall := heightAt_succ hreg hp (show stackHeights.effect .callHere = some 0 from rfl)
  have hpop := heightAt_succ hreg hadd (show stackHeights.effect (.addEsp (count * 4)) = some _
    from rfl)
  have hnn := heightAt_nonneg hreg (p + 1 + 1)
  push_cast at hpop
  omega

variable (calls back w) in
/-- A tail call starts the function again. -/
theorem restarts (hreg : Regular arity count (bs.map Block.plain))
    (h : Running count reserved bs e p m) (hp : bs[p]? = some .self) :
    ∃ w' r, (selfCalls calls back ok (functionCode count reserved bs)).Forced (2 * count + 3)
      (w, m) (w', r) ∧ Restarted count e m r := by
  have hpassed := h.self_passed hreg (by simp [hp, Block.plain])
  have hebp := h.ebp
  have hat := at_block count reserved hp
  rw [← h.pc, Block.code] at hat
  obtain ⟨r, hq, hr⟩ := execs_tailCall hat (by omega) h.saved goto_here
  obtain ⟨w', hf⟩ := hq.forced calls back w hok
  have hesp : r.esp = e.esp := by
    rw [hr.esp, hebp]
    ring
  refine ⟨w', r, hf, hr.pc, hesp, hr.ebp, hr.edi, hr.heap, fun k hk => ?_, fun a ha => ?_⟩
  · rw [hesp, ← hr.arguments k hk, hebp]
    congr 1
    unfold argumentAddress
    ring
  · refine hr.kept a fun k hk => ?_
    unfold argumentAddress
    rcases ha with rfl | ha <;> omega

omit hok in
/-- The activation goes on as before. -/
theorem Running.of_restarted (h : Running count reserved bs e p m) {m₁ : Machine}
    (hr : Restarted count e m r) (h₁ : Running count reserved bs r 0 m₁) :
    Running count reserved bs e 0 m₁ := by
  have hesp := hr.esp
  refine ⟨h₁.le, h₁.pc, by rw [h₁.ebp, hesp], h₁.esp, h₁.aligned, by rw [h₁.saved, hr.ebp],
    fun a ha => ?_, ?_, h₁.closure, h₁.gc⟩
  · have ha' : Above count r a := by simpa only [Above, hesp] using ha
    rw [h₁.kept a ha', hr.kept a ha, h.kept a ha]
  · rw [h₁.edi, hr.edi, h.edi]

variable (calls back w) in
/-- At its end, the function gives back the frame. -/
theorem returns (h : Running count reserved bs e bs.length m) :
    ∃ r, (selfCalls calls back ok (functionCode count reserved bs)).Forced 2 (w, m) (w, r) ∧
      (functionCode count reserved bs)[r.pc]? = some .ret ∧ Left count e r ∧ r.eax = m.eax ∧
      r.heap = m.heap := by
  have hat := at_cleanup count reserved bs
  rw [← h.pc] at hat
  simp only [cleanup, at_cons] at hat
  obtain ⟨hmov, hpop, hret, -⟩ := hat
  generalize functionCode count reserved bs = P at *
  have hpop' : Instr.popEbp.exec P { m with esp := m.ebp }.next =
      some { { m with esp := m.ebp }.next.drop 4 with ebp := e.ebp }.next := by
    have htop : { m with esp := m.ebp }.next.top = .address e.ebp := h.saved
    rw [Instr.exec, htop]
  refine ⟨_, forced_cons hok hmov rfl rfl (forced_cons hok hpop rfl hpop' (.refl _)), hret,
    ⟨?_, rfl, h.edi, h.kept⟩, rfl, rfl⟩
  show m.ebp + (4 : ℕ) = _
  rw [h.ebp]
  push_cast
  ring

omit hok in
/-- What the caller sees of the stack has not changed. -/
theorem Left.kept_words {b : Machine} (hr : Left count b r)
    (hb : m.enter (functionCode count reserved bs) back = some b) {a : ℤ}
    (ha : m.esp + 4 * count ≤ a) : r.stack a = m.stack a := by
  obtain rfl := eq_of_enter hb
  have habove : Above count { m.push (back (m.pc + 1)) with pc := 0 } a := by
    right
    show m.esp - 4 + 4 + 4 * count ≤ a
    omega
  rw [hr.kept a habove]
  exact Function.update_of_ne (by omega) _ _

omit hok in
/-- A call of the function itself has been left. -/
theorem Running.behind_call (hreg : Regular arity count (bs.map Block.plain))
    (h : Running count reserved bs e p m) (hp : bs[p]? = some (.keep .callHere)) {b : Machine}
    (hb : m.enter (functionCode count reserved bs) back = some b) (hr : Left count b r) :
    Running count reserved bs e (p + 1) { r.drop 4 with pc := m.pc + 1 } := by
  have hq : (bs.map Block.plain)[p]? = some .callHere := by simp [hp, Block.plain]
  have hpassed := h.self_passed hreg hq
  have hadd := hreg.self hq
  have hheight := heightAt_succ hreg hq (show stackHeights.effect .callHere = some 0 from rfl)
  have hesp := h.esp
  have hebp := h.ebp
  have hkept : ∀ a, m.esp + 4 * count ≤ a → r.stack a = m.stack a :=
    fun a ha => hr.kept_words hb ha
  obtain rfl := eq_of_enter hb
  have hresp : r.esp + (4 : ℕ) = m.esp := by
    rw [hr.esp]
    show m.esp - 4 + (4 : ℕ) = _
    push_cast
    ring
  refine ⟨(List.getElem?_eq_some_iff.1 hp).1, ?_, hr.ebp.trans hebp, ?_, ?_, ?_, fun a ha => ?_,
    hr.edi.trans h.edi, fun hc => ?_, fun hc => ?_⟩
  · show m.pc + 1 = _
    rw [h.pc, place_succ count hp, Block.code, List.length_singleton, Nat.add_assoc]
  · show r.esp + (4 : ℕ) + _ ≤ r.ebp - _
    rw [hresp, hr.ebp, hheight, add_zero]
    exact hesp
  · show 4 ∣ r.ebp - (r.esp + (4 : ℕ))
    rw [hresp, hr.ebp]
    exact h.aligned
  · show r.stack r.ebp = _
    rw [hr.ebp]
    exact (hkept _ (by show _ ≤ m.ebp; omega)).trans h.saved
  · refine (hkept a ?_).trans (h.kept a ha)
    rcases ha with rfl | ha <;> omega
  · rw [hadd] at hc
    cases hc
  · rw [hadd] at hc
    cases hc

omit hok in
/-- In front of `ret` the activation is at its end. -/
theorem eq_of_path_of_ret {t : Written × Machine} (hret : P[m.pc]? = some .ret) {k : ℕ}
    (h : (selfCalls calls back ok P).Path k (w, m) t) : t = (w, m) := by
  cases h with
  | refl => rfl
  | step hs _ =>
    obtain ⟨i, hi, -, -, ⟨-, hstep⟩, -⟩ := hs
    obtain rfl : .ret = i := Option.some.inj (hret.symm.trans hi)
    rcases hstep with he | ⟨f, -, hf, -⟩
    · cases he
    · cases hf
  | call he =>
    obtain ⟨hi, -⟩ := he
    cases hret.symm.trans hi

/-- What is known of the states of an activation: in front of a block it is running, and where it
is done it has given back the frame. -/
structure Good (calls : Val → Machine → Machine → Prop) (back : ℕ → Val)
    (ok : Written → Machine → Instr → Prop) (count reserved : ℕ) (bs : List Block) (e : Machine)
    (t : Written × Machine) : Prop where
  running : ∀ p < bs.length, t.2.pc = 4 + place count bs p → Running count reserved bs e p t.2
  left : (selfCalls calls back ok (functionCode count reserved bs)).done t → Left count e t.2

omit hok in
/-- Where no block is, there is nothing to be known. -/
theorem Good.of_no_block {t : Written × Machine}
    (hpc : ∀ p < bs.length, t.2.pc ≠ 4 + place count bs p)
    (hdone : ¬ (selfCalls calls back ok (functionCode count reserved bs)).done t) :
    Good calls back ok count reserved bs e t :=
  ⟨fun p hp h => absurd h (hpc p hp), fun hd => absurd hd hdone⟩

omit hok in
/-- Between two blocks there is none. -/
theorem ne_of_between {x : ℕ} (hp : p < bs.length) (hlt : 4 + place count bs p < x)
    (hlt' : x < 4 + place count bs (p + 1)) {p' : ℕ} (hp' : p' ≤ bs.length) :
    x ≠ 4 + place count bs p' := by
  rcases Nat.lt_trichotomy p p' with h | rfl | h
  · obtain rfl | h := Nat.eq_or_lt_of_le (Nat.succ_le_of_lt h)
    · exact hlt'.ne
    · have hplace := place_lt count h hp'
      simp only [Nat.succ_eq_add_one] at hplace
      omega
  · omega
  · have hplace := place_lt count h hp.le
    omega

omit hok in
/-- Control goes through the code of a tail call. -/
theorem pc_of_tailCall (hat : At P m.pc (tailCall count)) {i : ℕ} (hi : i ≤ 2 * count + 2)
    {t : Written × Machine} (h : (selfCalls calls back ok P).Forced i (w, m) t) :
    t.2.pc = m.pc + i := by
  have hsplit : tailCall count = ((List.range count).flatMap (fun i => [.popEax, .storeArgument i])
      ++ [.movEspEbp, .popEbp]) ++ [.jmpHere] := by
    simp [tailCall]
  rw [hsplit, at_append] at hat
  refine pc_of_forced hat.1 ?_ ?_ h
  · intro j hj
    obtain ⟨k, -, rfl | rfl⟩ | rfl | rfl : (∃ k < count, j = .popEax ∨ j = .storeArgument k) ∨
        j = .movEspEbp ∨ j = .popEbp := by simpa using hj
    all_goals rfl
  · simpa [List.length_flatMap, Nat.mul_comm] using hi

/-- Control gets from a start of the function to its first block. -/
theorem good_of_start {w : Written} {r : Machine} (hr : r.pc = 0) {k : ℕ} {t : Written × Machine}
    (hpath : (selfCalls calls back ok (functionCode count reserved bs)).Path k (w, r) t)
    (h : ∀ n < k, (selfCalls calls back ok (functionCode count reserved bs)).Path n
      (.nothing, r.started reserved) t → Good calls back ok count reserved bs e t) :
    Good calls back ok count reserved bs e t := by
  have hf := forced_setup calls back w count reserved bs hok hr
  obtain ⟨i, hi, hfi⟩ | ⟨n, rfl, hn⟩ := hf.path_cases hpath
  · refine Good.of_no_block (fun p hp => ?_) (hf.not_done hi hfi)
    have hat : At (functionCode count reserved bs) r.pc (setup reserved) :=
      hr ▸ at_setup count reserved bs
    have hpc := pc_of_forced hat (by simp [setup, Instr.straight, Instr.harmless])
      (by simpa [setup] using hi.le) hfi
    omega
  · exact h n (by omega) hn

/-- **The states of an activation are good**, in front of whatever block it starts. -/
theorem good_of_path (hcalls : Oblivious arity calls)
    (hreg : Regular arity count (bs.map Block.plain)) {k : ℕ} {t : Written × Machine}
    (h : Running count reserved bs e p m)
    (hpath : (selfCalls calls back ok (functionCode count reserved bs)).Path k (w, m) t) :
    Good calls back ok count reserved bs e t := by
  induction k using Nat.strong_induction_on generalizing e p w m t with
  | _ k ih =>
  have hrunning : ∀ p' < bs.length, m.pc = 4 + place count bs p' →
      Running count reserved bs e p' m := by
    intro p' hp' hpc
    obtain rfl : p = p' := place_injective h.le hp'.le (Nat.add_left_cancel (h.pc.symm.trans hpc))
    exact h
  rcases Nat.lt_or_ge p bs.length with hlt | hge
  · have hp := List.getElem?_eq_getElem hlt
    cases hb : bs[p] with
    | self =>
      rw [hb] at hp
      obtain ⟨w', r, hf, hr⟩ := restarts calls back w hok hreg h hp
      obtain ⟨i, hi, hfi⟩ | ⟨n, rfl, hn⟩ := hf.path_cases hpath
      · have hdone := hf.not_done hi hfi
        have hat := at_block count reserved hp
        rw [← h.pc] at hat
        have hpc := pc_of_tailCall hat (by omega) hfi
        have hnext := place_succ count hp
        rw [Block.code, length_tailCall] at hnext
        cases i with
        | zero =>
          cases hfi
          exact ⟨hrunning, fun hd => absurd hd hdone⟩
        | succ i =>
          have hpcm := h.pc
          refine Good.of_no_block (fun p' hp' => ?_) hdone
          exact ne_of_between hlt (by omega) (by omega) hp'.le
      · refine good_of_start hok hr.pc hn fun n' hn' hpath' => ?_
        exact ih n' (by omega) (h.of_restarted hr (running_started hreg)) hpath'
    | keep i =>
      rw [hb] at hp
      have hi : (functionCode count reserved bs)[m.pc]? = some i := by
        rw [h.pc]
        exact (at_cons.1 (at_block count reserved hp)).1
      have hin : i.inBody := hreg.inBody (p := p) (by simp [hp, Block.plain])
      cases hpath with
      | refl =>
        refine ⟨hrunning, fun hd => ?_⟩
        obtain rfl : .ret = i := Option.some.inj (hd.1.symm.trans hi)
        cases hin
      | step hs hpath =>
        obtain ⟨j, hj, hcall, -, hstep, -⟩ := hs
        obtain rfl : i = j := Option.some.inj (hi.symm.trans hj)
        obtain ⟨p₁, h₁, -⟩ := h.step hcalls hreg hp hcall hstep
        exact ih _ (Nat.lt_succ_self _) h₁ hpath
      | @call j n _ b r _ _ he hbody hr hl hpath =>
        obtain ⟨hj, hent, -⟩ := he
        obtain rfl : i = .callHere := Option.some.inj (hi.symm.trans hj)
        obtain ⟨-, rfl⟩ := hl
        have hpc : b.2.pc = 0 := by rw [eq_of_enter hent]
        have hgood : Good calls back ok count reserved bs b.2 r := by
          refine good_of_start (w := b.1) hok hpc hbody fun n' hn' hpath' => ?_
          exact ih n' (by omega) (running_started hreg) hpath'
        exact ih n (by omega) (h.behind_call hreg hp hent (hgood.left hr)) hpath
  · obtain rfl : p = bs.length := Nat.le_antisymm h.le hge
    obtain ⟨r, hf, hret, hleft, -, -⟩ := returns calls back w hok h
    have hat := at_cleanup count reserved bs
    rw [← h.pc, cleanup] at hat
    have hat' : At (functionCode count reserved bs) m.pc [.movEspEbp, .popEbp] :=
      (at_append.1 (show At _ m.pc ([.movEspEbp, .popEbp] ++ [.ret]) from hat)).1
    have hpc : ∀ i ≤ 2, ∀ t, (selfCalls calls back ok (functionCode count reserved bs)).Forced i
        (w, m) t → t.2.pc = 4 + place count bs bs.length + i := by
      intro i hi t hfi
      rw [← h.pc]
      exact pc_of_forced hat'
        (by simp [Instr.straight, Instr.harmless]) hi hfi
    have hno : ∀ x, 4 + place count bs bs.length ≤ x →
        ∀ p < bs.length, x ≠ 4 + place count bs p := by
      intro x hx p hp
      have hplace := place_lt count hp le_rfl
      omega
    obtain ⟨i, hi, hfi⟩ | ⟨n, rfl, hn⟩ := hf.path_cases hpath
    · refine Good.of_no_block (hno _ ?_) (hf.not_done hi hfi)
      rw [hpc i hi.le t hfi]
      omega
    · obtain rfl := eq_of_path_of_ret hret hn
      refine ⟨fun p hp h => absurd h (hno _ ?_ p hp), fun _ => hleft⟩
      rw [hpc 2 le_rfl _ hf]
      omega

end Frames

end Lisp

end Bluejay
