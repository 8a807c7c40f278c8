import Bluejay.Lisp.ControlFlow
import Bluejay.Lisp.Splice

/-!
# The code of `compile_backquote`

The expressions in a template may be any; what their code does is a parameter.  It may use the
slots of the function, and leaves the words that have been pushed.

* `FrameInv` : what the code of the expressions relies on, and keeps.
* `Evaluates F calls c k x holds` : the code `c` does what `x` does, in any such frame.
* `TemplateOf I v t` : in the states `I` of the compiler, the value `v` is the template `t`.
* `compilesTemplate` : the code of a template does what `evalTemplate` says.
* `compileBackquote_iff` : with `backquoteOk_iff`, what follows for the list that it makes.
-/

namespace Bluejay

namespace Lisp

open Emitter

/-! ### Code in a frame -/

/-- What holds of a frame while its code runs.  It is about the words from the slots on. -/
structure FrameInv where
  /-- The number of slots. -/
  reserved : ℕ
  holds : Machine → Prop
  congr : ∀ {m m'}, holds m → m'.ebp = m.ebp → m'.edi = m.edi →
    (∀ a, m.ebp - 4 * reserved ≤ a → m'.stack a = m.stack a) → holds m'

namespace FrameInv

variable (F : FrameInv)

/-- Only the words below the slots have been pushed. -/
structure Ready (m : Machine) : Prop where
  holds : F.holds m
  esp : m.esp ≤ m.ebp - 4 * F.reserved

/-- Control has gone on by `n` instructions, and `k` words have been pushed. -/
structure Ran (m : Machine) (n k : ℕ) (m' : Machine) : Prop where
  pc : m'.pc = m.pc + n
  esp : m'.esp = m.esp - 4 * k
  ebp : m'.ebp = m.ebp
  holds : F.holds m'
  pushed : ∀ a, m.esp ≤ a → a < m.ebp - 4 * F.reserved → m'.stack a = m.stack a

end FrameInv

/-- Wherever the code `c` stands, it does what `x` does. -/
def Evaluates {α : Type} (F : FrameInv) (calls : Val → Machine → Machine → Prop) (c : Code)
    (k : ℕ) (x : Outcome Heap α) (holds : Machine → α → Prop) : Prop :=
  ∀ ⦃P : Code⦄ ⦃m : Machine⦄ ⦃Q : α → Heap → Prop⦄, stackHeights.LabelsUnique P →
    At P m.pc c → F.Ready m → x Q m.heap →
    (machine calls P).Inevitably
      (fun m' => F.Ran m c.length k m' ∧ ∃ a, holds m' a ∧ Q a m'.heap) m

section Rules

variable {F : FrameInv} {calls : Val → Machine → Machine → Prop} {m m₁ m₂ : Machine}
  {n n' k k' : ℕ} {c c₁ c₂ : Code} {α β : Type}

namespace FrameInv.Ran

theorem trans (h : F.Ran m n k m₁) (h' : F.Ran m₁ n' k' m₂) : F.Ran m (n + n') (k + k') m₂ := by
  have hesp := h.esp
  refine ⟨by rw [h'.pc, h.pc, Nat.add_assoc], ?_, h'.ebp.trans h.ebp, h'.holds, fun a ha hlt => ?_⟩
  · rw [h'.esp, hesp]
    push_cast
    ring
  · rw [h'.pushed a (by omega) (by rw [h.ebp]; exact hlt), h.pushed a ha hlt]

theorem ready (h : F.Ran m n k m₁) (hm : F.Ready m) : F.Ready m₁ :=
  ⟨h.holds, by have hle := hm.esp; rw [h.esp, h.ebp]; omega⟩

end FrameInv.Ran

/-- Code that leaves all words from `esp` on. -/
theorem ran_of_stack (hm : F.Ready m) (hpc : m₁.pc = m.pc + n) (hesp : m₁.esp = m.esp - 4 * k)
    (hebp : m₁.ebp = m.ebp) (hedi : m₁.edi = m.edi)
    (hstack : ∀ a, m.esp ≤ a → m₁.stack a = m.stack a) : F.Ran m n k m₁ :=
  ⟨hpc, hesp, hebp, F.congr hm.holds hebp hedi fun a ha => hstack a (hm.esp.trans ha),
    fun a ha _ => hstack a ha⟩

theorem evaluates_movEax (w : Word) (d : Datum) : Evaluates F calls [.movEax (.word w)] 0
    (pure (d, w) : Outcome Heap (Datum × Word)) fun m r => m.InEax r.2 := by
  intro P m Q hu hat hm hx
  refine inevitably_exec (at_cons.1 hat).1 rfl rfl (.now ⟨?_, (d, w), rfl, hx⟩)
  exact ran_of_stack hm rfl (by simp) rfl rfl fun _ _ => rfl

/-- The same code, seen as one that does more with the value. -/
theorem Evaluates.map {x : Outcome Heap α} {y : Outcome Heap β} {holds : Machine → α → Prop}
    {holds' : Machine → β → Prop} (h : Evaluates F calls c k x holds)
    (g : (β → Heap → Prop) → α → Heap → Prop) (hy : ∀ Q H, y Q H → x (g Q) H)
    (hg : ∀ Q a H m, g Q a H → holds m a → ∃ b, holds' m b ∧ Q b H) :
    Evaluates F calls c k y holds' := by
  intro P m Q hu hat hm hQ
  refine (h hu hat hm (hy Q _ hQ)).mono ?_
  rintro m' ⟨hran, a, ha, hQ⟩
  exact ⟨hran, hg Q a _ m' hQ ha⟩

theorem evaluates_nil : Evaluates F calls [.push (.word nil)] 1
    (pure ([], nil) : Outcome Heap (List Datum × Word)) fun m r => m.OnStack [r.2] := by
  intro P m Q hu hat hm hx
  have hempty : m.OnStack [] := by
    intro i v hi
    cases hi
  refine inevitably_exec (at_cons.1 hat).1 rfl rfl (.now ⟨?_, ([], nil), hempty.push nil, hx⟩)
  refine ran_of_stack hm rfl (by simp) rfl rfl fun a ha => ?_
  exact Function.update_of_ne (by omega) _ _

/-- One more element of a list: its code, and a call with its value and what has been built. -/
theorem evaluates_cons {f : Extern} {G : List Word → Outcome Heap Word}
    {xs : Outcome Heap (List Datum × Word)} {y : Outcome Heap (α × Word)}
    (join : α → List Datum → List Datum) (hf : Implements calls f G) (hc : Cdecl calls)
    (h₁ : Evaluates F calls c₁ 1 xs fun m r => m.OnStack [r.2])
    (h₂ : Evaluates F calls c₂ 0 y fun m r => m.InEax r.2) :
    Evaluates F calls (c₁ ++ (c₂ ++ [.pushEax, .call f, .addEsp 8, .pushEax])) 1
      (do
        let r ← xs
        let r' ← y
        return (join r'.1 r.1, ← G [r'.2, r.2])) fun m r => m.OnStack [r.2] := by
  intro P m Q hu hat hm hx
  simp only [at_append, at_cons] at hat
  obtain ⟨hat₁, hat₂, hpush, hcall, hadd, hpush', -⟩ := hat
  refine (h₁ hu hat₁ hm hx).trans ?_
  rintro m₁ ⟨hran₁, ⟨ds, tail⟩, htop, hy⟩
  rw [← hran₁.pc] at hat₂ hpush hcall hadd hpush'
  refine (h₂ hu hat₂ (hran₁.ready hm) hy).trans ?_
  rintro m₂ ⟨hran₂, ⟨d, v⟩, hv, hG⟩
  rw [← hran₂.pc] at hpush hcall hadd hpush'
  have hesp₁ := hran₁.esp
  have hesp₂ := hran₂.esp
  have hebp₁ := hran₁.ebp
  have hesp := hm.esp
  push_cast at hesp₁ hesp₂
  -- what has been built is still on the stack, below the slots
  have htop₂ : m₂.OnStack [tail] := by
    intro i w hi
    obtain ⟨rfl, rfl⟩ : i = 0 ∧ tail = w := by
      cases i with
      | zero => simpa using hi
      | succ i => simp at hi
    rw [hran₂.esp, ← htop 0 tail rfl]
    simpa using hran₂.pushed m₁.esp le_rfl (by omega)
  have hargs : (m₂.push (.word v)).next.OnStack [v, tail] := htop₂.push v
  refine inevitably_exec hpush (exec_pushEax P hv) rfl ?_
  refine inevitably_call hf hcall hargs hG fun m₃ w hpc₃ hesp₃ hebp₃ hedi₃ hstack hw hQ => ?_
  have hpc : m₃.pc = m₂.pc + 1 + 1 := hpc₃
  rw [← hpc] at hadd hpush'
  refine inevitably_exec hadd rfl rfl (inevitably_exec hpush' (exec_pushEax P hw) rfl ?_)
  have hempty : (m₃.drop 8).next.OnStack [] := by
    intro i v hi
    cases hi
  refine .now ⟨?_, (join d ds, w), hempty.push w, hQ⟩
  have hesp' : m₃.esp = m₂.esp - 4 := hesp₃
  have hstack' : ∀ a, m.esp ≤ a →
      ((m₃.drop 8).next.push (.word w)).next.stack a = m₂.stack a := by
    intro a ha
    have hle : m₂.esp - 4 + 4 * (([v, tail] : List Word).length : ℤ) ≤ a := by
      simp only [List.length_cons, List.length_nil]
      push_cast
      omega
    show Function.update m₃.stack _ _ a = _
    rw [Function.update_of_ne (by simp; omega), hstack a hle]
    exact Function.update_of_ne (by omega) _ _
  have hran := hran₁.trans hran₂
  refine ⟨?_, ?_, hebp₃.trans hran.ebp, F.congr hran₂.holds hebp₃ (hedi₃ hc) fun a ha => ?_,
    fun a ha hlt => (hstack' a ha).trans (hran.pushed a ha hlt)⟩
  · show m₃.pc + 1 + 1 = _
    rw [hpc, hran.pc]
    simp only [List.length_append, List.length_cons, List.length_nil]
    omega
  · show m₃.esp + (8 : ℕ) - 4 = _
    push_cast
    omega
  · rw [hran.ebp] at ha
    exact hstack' a (by omega)

end Rules

/-! ### Templates in memory -/

mutual

/-- The expressions of a template. -/
def Template.exprs : Template → List Word
  | .const _ => []
  | .unquote e => [e]
  | .list is => is.exprs

def Items.exprs : Items → List Word
  | .nil => []
  | .cons t is => t.exprs ++ is.exprs
  | .splice e is => e :: is.exprs

end

mutual

/-- While the compiler is in the states `I`, the value `v` in memory is the template. -/
def TemplateOf (I : State → Prop) (v : Word) : Template → Prop
  | .const w => v = w ∧ ∀ s, I s → s.world.heap.listp v = some false
  | .unquote e => ∀ s, I s → s.world.heap.IsForm v "unquote" [e]
  | .list is => ∃ ws, ItemsOf I ws is ∧ ∀ s, I s → ListOf s.world.heap v ws ∧
      s.world.heap.symstreq (s.world.heap.car v) "unquote" = false

def ItemsOf (I : State → Prop) (ws : List Word) : Items → Prop
  | .nil => ws = []
  | .cons t is => ∃ w ws', ws = w :: ws' ∧ TemplateOf I w t ∧ ItemsOf I ws' is ∧
      ∀ s, I s → ¬ (s.world.heap.listp w = some true ∧
        s.world.heap.symstreq (s.world.heap.car w) "unquote-splice" = true)
  | .splice e is => ∃ w ws', ws = w :: ws' ∧ ItemsOf I ws' is ∧
      ∀ s, I s → s.world.heap.IsForm w "unquote-splice" [e]

end

/-- In the states `I`, the value `v` is compiled to code that does what `x` does. -/
def CompilesIn {α : Type} (I : State → Prop) (F : FrameInv)
    (calls : Val → Machine → Machine → Prop) (compile : Word → CompileM Unit) (v : Word)
    (x : Outcome Heap α) (holds : Machine → α → Prop) : Prop :=
  ∀ s, I s → ∃ c s', compile v s = .ok () c s' ∧ I s' ∧ Evaluates F calls c 0 x holds

section Compiling

variable {R : Runtime} {C : Compiler} {I : State → Prop} {F : FrameInv}
  {calls : Val → Machine → Machine → Prop} {X : Word → Outcome Heap Word} {s : State}
  {v w e : Word} {ws : List Word} {is : Items} {t : Template}

theorem read_listp_of {b : Bool} (h : s.world.heap.listp v = some b) :
    listp v s = .ok b [] s := by
  unfold listp
  rw [bind_of_ok read_getHeap, h]
  rfl

/-- A template is a list or it is not. -/
theorem TemplateOf.listp (h : TemplateOf I v t) (hs : I s) :
    ∃ b, s.world.heap.listp v = some b := by
  cases t with
  | const w => exact ⟨false, h.2 s hs⟩
  | unquote e =>
    obtain ⟨f, -, hlist⟩ := h s hs
    exact ⟨true, ListOf.listp hlist⟩
  | list is =>
    obtain ⟨ws, -, h⟩ := h
    exact ⟨true, ListOf.listp (h s hs).1⟩

/-- A turn of the loop of `compile_backquote`. -/
def compileElement (C : Compiler) (val : Word) (i : ℕ) : CompileM Unit := do
  let v ← elt val i
  if ← isSplice v then
    throwIf ((← length v) ≠ 2) .args "unquote-splice (or ,@) takes exactly 1 argument"
    let expr ← car (← cdr v)
    C.compileExpression expr false
    emit mergeCode
  else
    C.compileBackquote v
    emit consCode

theorem compileBackquote_const (h : s.world.heap.listp v = some false) :
    compileBackquote C v s = .ok () [.movEax (.word v)] s := by
  rw [compileBackquote, bind_of_ok (read_listp_of h)]
  rfl

theorem compileBackquote_unquote (h : s.world.heap.IsForm v "unquote" [e]) :
    compileBackquote C v s = C.compileExpression e false s := by
  obtain ⟨f, hf, hlist⟩ := h
  have hcdr := ListOf.cdr hlist
  have hcar : car (s.world.heap.cdr v) s = .ok e [] s := by rw [read_car, ListOf.car hcdr]
  have hsym : symstreq (s.world.heap.car v) "unquote" s = .ok true [] s := by
    rw [read_symstreq, ListOf.car hlist, hf.symstreq]
    rfl
  rw [compileBackquote, bind_of_ok (read_listp hlist)]
  refine (bind_of_ok (read_car v)).trans ((bind_of_ok (read_cdr v)).trans ?_)
  refine (bind_of_ok (read_length hcdr)).trans ((bind_of_ok (read_length hlist)).trans ?_)
  refine (bind_of_ok hsym).trans ((bind_of_ok (read_throwIf (by simp) _ _)).trans ?_)
  exact bind_of_ok hcar

theorem compileBackquote_list (h : ListOf s.world.heap v ws)
    (hhead : s.world.heap.symstreq (s.world.heap.car v) "unquote" = false) :
    compileBackquote C v s = (do
      emit [.push (.word nil)]
      forDown (compileElement C v) 0 ws.length
      emit [.popEax] : CompileM Unit) s := by
  have hsym : symstreq (s.world.heap.car v) "unquote" s = .ok false [] s := by
    rw [read_symstreq, hhead]
  obtain ⟨n, hn⟩ : ∃ n, s.world.heap.length (s.world.heap.cdr v) = some n := by
    cases ws with
    | nil =>
      obtain rfl : v = nil := h
      have hnil : ListOf s.world.heap (s.world.heap.cdr nil) [] := by
        show s.world.heap.cdr nil = nil
        exact if_neg (by decide)
      exact ⟨0, ListOf.length hnil⟩
    | cons w ws => exact ⟨_, ListOf.length (ListOf.cdr h)⟩
  have hlength : length (s.world.heap.cdr v) s = .ok n [] s := by
    unfold length
    rw [bind_of_ok read_getHeap, hn]
    rfl
  rw [compileBackquote, bind_of_ok (read_listp h)]
  refine (bind_of_ok (read_car v)).trans ((bind_of_ok (read_cdr v)).trans ?_)
  refine (bind_of_ok hlength).trans ((bind_of_ok (read_length h)).trans ?_)
  exact (bind_of_ok hsym).trans rfl

theorem compileElement_splice {i : ℕ} (h : ListOf s.world.heap v ws) (hi : ws[i]? = some w)
    (hw : s.world.heap.IsForm w "unquote-splice" [e]) :
    compileElement C v i s = (do
      C.compileExpression e false
      emit mergeCode : CompileM Unit) s := by
  obtain ⟨f, hf, hlist⟩ := hw
  have helt : elt v i s = .ok w [] s := by rw [read_elt, ListOf.elt h hi]
  have hsym : symstreq (s.world.heap.car w) "unquote-splice" s = .ok true [] s := by
    rw [read_symstreq, ListOf.car hlist, hf.symstreq]
    rfl
  have hsplice : isSplice w s = .ok true [] s := by
    refine (bind_of_ok (read_listp hlist)).trans ?_
    exact (bind_of_ok (read_car w)).trans hsym
  have hcar : car (s.world.heap.cdr w) s = .ok e [] s := by
    rw [read_car, ListOf.car (ListOf.cdr hlist)]
  refine (bind_of_ok helt).trans ((bind_of_ok hsplice).trans ?_)
  refine (bind_of_ok (read_length hlist)).trans ((bind_of_ok (read_throwIf (by simp) _ _)).trans ?_)
  exact (bind_of_ok (read_cdr w)).trans (bind_of_ok hcar)

theorem compileElement_template {i : ℕ} (h : ListOf s.world.heap v ws) (hi : ws[i]? = some w)
    {b : Bool} (hb : s.world.heap.listp w = some b)
    (hw : ¬ (s.world.heap.listp w = some true ∧
      s.world.heap.symstreq (s.world.heap.car w) "unquote-splice" = true)) :
    compileElement C v i s = (do
      C.compileBackquote w
      emit consCode : CompileM Unit) s := by
  have helt : elt v i s = .ok w [] s := by rw [read_elt, ListOf.elt h hi]
  have hsplice : isSplice w s = .ok false [] s := by
    refine (bind_of_ok (read_listp_of hb)).trans ?_
    cases b with
    | false => rfl
    | true =>
      refine (bind_of_ok (read_car w)).trans ?_
      rw [read_symstreq, Bool.eq_false_iff.2 fun hsym => hw ⟨hb, hsym⟩]
  exact (bind_of_ok helt).trans (bind_of_ok hsplice)

/-- What `merge2` does. -/
def mergeOf : List Word → Outcome Heap Word
  | [front, back] => merge2 front back
  | _ => .fail

/-- The code of the elements, behind that of the elements to their right. -/
def ElementsCompile (I : State → Prop) (F : FrameInv) (calls : Val → Machine → Machine → Prop)
    (C : Compiler) (ws : List Word) (x : Outcome Heap (List Datum × Word)) : Prop :=
  ∀ {v us lo s}, (∀ s, I s → ListOf s.world.heap v us) → us.drop lo = ws → I s →
    ∃ c s', forDown (compileElement C v) lo ws.length s = .ok () c s' ∧ I s' ∧
      Evaluates F calls ([.push (.word nil)] ++ c) 1 x fun m r => m.OnStack [r.2]

theorem getElem?_of_drop {us : List Word} {lo : ℕ} (h : us.drop lo = w :: ws) :
    us[lo]? = some w ∧ us.drop (lo + 1) = ws := by
  rw [← List.head?_drop, ← List.tail_drop, h]
  exact ⟨rfl, rfl⟩

theorem elementsCompile_nil : ElementsCompile I F calls C [] (evalItems X .nil) :=
  fun _ _ hs => ⟨[], _, rfl, hs, evaluates_nil⟩

theorem elementsCompile_cons (hcons : Implements calls .cons consOf) (hc : Cdecl calls)
    (ht : TemplateOf I w t) (hsplice : ∀ s, I s → ¬ (s.world.heap.listp w = some true ∧
      s.world.heap.symstreq (s.world.heap.car w) "unquote-splice" = true))
    (hw : CompilesIn I F calls C.compileBackquote w (evalTemplate X t) fun m r => m.InEax r.2)
    (hws : ElementsCompile I F calls C ws (evalItems X is)) :
    ElementsCompile I F calls C (w :: ws) (evalItems X (.cons t is)) := by
  intro v us lo s hv hus hs
  obtain ⟨hget, hdrop⟩ := getElem?_of_drop hus
  obtain ⟨c, s₁, h₁, hs₁, hc₁⟩ := hws hv hdrop hs
  obtain ⟨c₂, s₂, h₂, hs₂, hc₂⟩ := hw s₁ hs₁
  obtain ⟨b, hb⟩ := ht.listp hs₁
  have hturn : compileElement C v lo s₁ = .ok () (c₂ ++ consCode) s₂ := by
    rw [compileElement_template (hv s₁ hs₁) hget hb (hsplice s₁ hs₁)]
    exact bind_ok h₂ rfl
  refine ⟨c ++ (c₂ ++ consCode), s₂, forDown_ok h₁ hturn, hs₂, ?_⟩
  rw [← List.append_assoc]
  exact evaluates_cons List.cons hcons hc hc₁ hc₂

theorem elementsCompile_splice (hmerge : Implements calls .merge2 mergeOf) (hc : Cdecl calls)
    (hw : ∀ s, I s → s.world.heap.IsForm w "unquote-splice" [e])
    (he : CompilesIn I F calls (fun v => C.compileExpression v false) e (X e) Machine.InEax)
    (hws : ElementsCompile I F calls C ws (evalItems X is)) :
    ElementsCompile I F calls C (w :: ws) (evalItems X (.splice e is)) := by
  intro v us lo s hv hus hs
  obtain ⟨hget, hdrop⟩ := getElem?_of_drop hus
  obtain ⟨c, s₁, h₁, hs₁, hc₁⟩ := hws hv hdrop hs
  obtain ⟨c₂, s₂, h₂, hs₂, hc₂⟩ := he s₁ hs₁
  have hturn : compileElement C v lo s₁ = .ok () (c₂ ++ mergeCode) s₂ := by
    rw [compileElement_splice (hv s₁ hs₁) hget (hw s₁ hs₁)]
    exact bind_ok h₂ rfl
  refine ⟨c ++ (c₂ ++ mergeCode), s₂, forDown_ok h₁ hturn, hs₂, ?_⟩
  rw [← List.append_assoc]
  have hc₂' : Evaluates F calls c₂ 0 (do
      let v ← X e
      let us ← elements v
      return (us, v)) fun m r => m.InEax r.2 := by
    refine hc₂.map (fun Q v H => ∃ us, ListOf H v us ∧ Q (us, v) H) (fun Q H hQ => hQ) ?_
    rintro Q v H m ⟨us, -, hQ⟩ hv
    exact ⟨(us, v), hv, hQ⟩
  exact evaluates_cons (fun us ds => us.map .atom ++ ds) hmerge hc hc₁ hc₂'

/-- The list that has been built is taken off the stack. -/
theorem evaluates_list {c : Code} {xs : Outcome Heap (List Datum × Word)}
    (h : Evaluates F calls c 1 xs fun m r => m.OnStack [r.2]) :
    Evaluates F calls (c ++ [.popEax]) 0 (do
      let r ← xs
      return (Datum.list r.1, r.2)) fun m r => m.InEax r.2 := by
  intro P m Q hu hat hm hx
  obtain ⟨hat₁, hpop, -⟩ := by simpa only [at_append, at_cons] using hat
  refine (h hu hat₁ hm hx).trans ?_
  rintro m₁ ⟨hran, ⟨ds, w⟩, htop, hQ⟩
  rw [← hran.pc] at hpop
  have hesp := hran.esp
  refine inevitably_exec hpop rfl rfl (.now ⟨⟨?_, ?_, hran.ebp, ?_, hran.pushed⟩,
    (.list ds, w), ?_, hQ⟩)
  · show m₁.pc + 1 = _
    rw [hran.pc, List.length_append, List.length_singleton, Nat.add_assoc]
  · show m₁.esp + (4 : ℕ) = _
    push_cast at hesp ⊢
    omega
  · exact F.congr hran.holds rfl rfl fun _ _ => rfl
  · show m₁.stack m₁.esp = _
    simpa using htop 0 w rfl

mutual

/-- With enough fuel, a template is compiled to code that does what it says. -/
theorem compilesTemplate (hcons : Implements calls .cons consOf)
    (hmerge : Implements calls .merge2 mergeOf) (hc : Cdecl calls) :
    ∀ (t : Template) {v : Word}, TemplateOf I v t →
    (∀ e ∈ t.exprs, ∃ N, ∀ n ≥ N, CompilesIn I F calls
      (fun v => (compiler R n).compileExpression v false) e (X e) Machine.InEax) →
    ∃ N, ∀ n ≥ N, CompilesIn I F calls (compiler R n).compileBackquote v (evalTemplate X t)
      fun m r => m.InEax r.2
  | .const w, v, hv, _ => by
    refine ⟨1, fun n hn s hs => ?_⟩
    obtain ⟨n, rfl⟩ := Nat.exists_eq_succ_of_ne_zero (Nat.ne_zero_of_lt hn)
    obtain ⟨rfl, hlist⟩ := hv
    exact ⟨_, s, compileBackquote_const (hlist s hs), hs, evaluates_movEax v _⟩
  | .unquote e, v, hv, he => by
    obtain ⟨N, hN⟩ := he e List.mem_cons_self
    refine ⟨N + 1, fun n hn s hs => ?_⟩
    obtain ⟨n, rfl⟩ := Nat.exists_eq_succ_of_ne_zero (Nat.ne_zero_of_lt hn)
    obtain ⟨c, s', h, hs', hcode⟩ := hN n (Nat.le_of_succ_le_succ hn) s hs
    refine ⟨c, s', (compileBackquote_unquote (hv s hs)).trans h, hs', ?_⟩
    refine hcode.map (fun Q v H => Q (.atom v, v) H) (fun Q H hQ => hQ) ?_
    exact fun Q v H m hQ hv => ⟨(.atom v, v), hv, hQ⟩
  | .list is, v, ⟨ws, hws, hv⟩, he => by
    obtain ⟨N, hN⟩ := compilesItems hcons hmerge hc is hws he
    refine ⟨N + 1, fun n hn s hs => ?_⟩
    obtain ⟨n, rfl⟩ := Nat.exists_eq_succ_of_ne_zero (Nat.ne_zero_of_lt hn)
    have hdrop : ws.drop 0 = ws := rfl
    obtain ⟨c, s', h, hs', hcode⟩ :=
      hN n (Nat.le_of_succ_le_succ hn) (fun s hs => (hv s hs).1) hdrop hs
    refine ⟨[.push (.word nil)] ++ c ++ [.popEax], s', ?_, hs', evaluates_list hcode⟩
    refine (compileBackquote_list (hv s hs).1 (hv s hs).2).trans ?_
    rw [List.append_assoc]
    exact bind_ok rfl (bind_ok h rfl)

theorem compilesItems (hcons : Implements calls .cons consOf)
    (hmerge : Implements calls .merge2 mergeOf) (hc : Cdecl calls) :
    ∀ (is : Items) {ws : List Word}, ItemsOf I ws is →
    (∀ e ∈ is.exprs, ∃ N, ∀ n ≥ N, CompilesIn I F calls
      (fun v => (compiler R n).compileExpression v false) e (X e) Machine.InEax) →
    ∃ N, ∀ n ≥ N, ElementsCompile I F calls (compiler R n) ws (evalItems X is)
  | .nil, ws, hws, _ => by
    obtain rfl : ws = [] := hws
    exact ⟨0, fun _ _ => elementsCompile_nil⟩
  | .cons t is, _, hws, he => by
    obtain ⟨w, ws, rfl, ht, his, hsplice⟩ := hws
    obtain ⟨N, hN⟩ := compilesTemplate hcons hmerge hc t ht fun e h =>
      he e (List.mem_append_left _ h)
    obtain ⟨N', hN'⟩ := compilesItems hcons hmerge hc is his fun e h =>
      he e (List.mem_append_right _ h)
    refine ⟨max N N', fun n hn => ?_⟩
    exact elementsCompile_cons hcons hc ht hsplice (hN n (le_of_max_le_left hn))
      (hN' n (le_of_max_le_right hn))
  | .splice e is, _, hws, he => by
    obtain ⟨w, ws, rfl, his, hw⟩ := hws
    obtain ⟨N, hN⟩ := he e List.mem_cons_self
    obtain ⟨N', hN'⟩ := compilesItems hcons hmerge hc is his fun e h =>
      he e (List.mem_cons_of_mem _ h)
    refine ⟨max N N', fun n hn => ?_⟩
    exact elementsCompile_splice hmerge hc hw (hN n (le_of_max_le_left hn))
      (hN' n (le_of_max_le_right hn))

end

/-- The code that `compile_backquote` emits for a template, wherever it stands in a program, makes
what `evalTemplate` says; and **this is what the template denotes, with no cell changed that there
was before**, exactly if no list that is spliced in front of others ends in a cell that there was
before or that is part of what has been built. -/
theorem compileBackquote_iff (hcons : Implements calls .cons consOf)
    (hmerge : Implements calls .merge2 mergeOf) (hc : Cdecl calls)
    (hX : ∀ e, (X e).Guarantees fun H _ H' => KeepsConses H H') (hf : ∀ e, (X e).Feasible)
    (ht : TemplateOf I v t)
    (he : ∀ e ∈ t.exprs, ∃ N, ∀ n ≥ N, CompilesIn I F calls
      (fun v => (compiler R n).compileExpression v false) e (X e) Machine.InEax) :
    ∃ N, ∀ n ≥ N, ∀ s, I s → ∃ code s', (compiler R n).compileBackquote v s = .ok () code s' ∧
      I s' ∧ ∀ (P : Code) (m : Machine), stackHeights.LabelsUnique P → At P m.pc code →
        F.Ready m →
        (∀ Q, evalTemplate X t Q m.heap → (machine calls P).Inevitably (fun m' =>
          m'.pc = m.pc + code.length ∧ m'.esp = m.esp ∧ m'.ebp = m.ebp ∧
            ∃ d w, m'.eax = .word w ∧ Q (d, w) m'.heap) m) ∧
        (BackquoteOk X t m.heap ↔ SpliceOk X t m.heap) := by
  obtain ⟨N, hN⟩ := compilesTemplate (R := R) hcons hmerge hc t ht he
  refine ⟨N, fun n hn s hs => ?_⟩
  obtain ⟨code, s', hok, hs', hcode⟩ := hN n hn s hs
  refine ⟨code, s', hok, hs', fun P m hu hat hm => ⟨fun Q hQ => ?_, backquoteOk_iff hX hf t _⟩⟩
  refine (hcode hu hat hm hQ).mono ?_
  rintro m' ⟨hran, ⟨d, w⟩, hw, hQ⟩
  exact ⟨hran.pc, by simpa using hran.esp, hran.ebp, d, w, hw, hQ⟩

end Compiling

/-! ### A template -/

/-- The frame of a function with these arguments. -/
def argumentsFrame (count : ℕ) (arguments : ℕ → Word) : FrameInv where
  reserved := 0
  holds m := ∀ k < count, m.stack (argumentAddress m.ebp k) = .word (arguments k)
  congr := by
    intro m m' h hebp _ hstack k hk
    rw [hebp, hstack _ (by unfold argumentAddress; omega)]
    exact h k hk

/-- Code that computes may stand in a template. -/
theorem Computes.evaluates {calls : Val → Machine → Machine → Prop} {count : ℕ}
    {arguments : ℕ → Word} {c : Code} {x : Outcome Heap Word}
    (h : Computes calls count arguments c x) :
    Evaluates (argumentsFrame count arguments) calls c 0 x Machine.InEax := by
  intro P m Q hu hat hm hx
  have hesp : m.esp ≤ m.ebp := by simpa [argumentsFrame] using hm.esp
  refine (h hu (by rwa [List.append_nil]) ⟨hesp, hm.holds⟩ trivial hx).mono ?_
  rintro m' ⟨hran, hw⟩
  refine ⟨⟨hran.pc, hran.esp, hran.ebp, fun k hk => ?_, fun a ha _ => hran.stack a ha⟩, hw⟩
  rw [hran.ebp, hran.stack _ (by unfold argumentAddress; omega)]
  exact hm.holds k hk

/-- Calls of `cons` and `merge2`. -/
def listCalls : Val → Machine → Machine → Prop
  | .entry .merge2, m, m' => ∃ front back w H', m.OnStack [front, back] ∧
      (∀ Q, merge2 front back Q m.heap → Q w H') ∧ m' = { m with eax := .word w, heap := H' }
  | f, m, m' => consCalls f m m'

theorem returns_assignNilptr (front back : Word) : (assignNilptr front back).Returns := by
  refine .bind .get fun H => ?_
  split
  · exact .pure
  · exact .bind .set fun _ => .pure
  · exact .fail

theorem returns_cell (car cdr : Word) : (cell car cdr).Returns := by
  refine .choose fun H => ?_
  obtain ⟨p, hp, hp8⟩ := H.exists_fresh
  exact ⟨_, _, p, hp, hp8, rfl, rfl⟩

theorem returns_merge2 (front back : Word) : (merge2 front back).Returns := by
  refine .bind .get fun H => ?_
  split
  · exact returns_cell _ _
  · exact .bind (returns_cell _ _) fun _ => returns_assignNilptr _ _
  · exact returns_assignNilptr _ _
  · exact .fail

theorem implements_merge2 : Implements listCalls .merge2 mergeOf := by
  intro m vs Q hvs hx
  obtain ⟨front, back, rfl⟩ : ∃ front back, vs = [front, back] := by
    match vs, hx with
    | [front, back], _ => exact ⟨front, back, rfl⟩
  refine ⟨?_, ?_⟩
  · obtain ⟨w, H', h⟩ := returns_merge2 front back Q m.heap hx
    exact ⟨_, front, back, w, H', hvs, h, rfl⟩
  · rintro _ ⟨front', back', w, H', hvs', h, rfl⟩
    obtain rfl : front = front' := by simpa using (hvs 0 _ rfl).symm.trans (hvs' 0 _ rfl)
    obtain rfl : back = back' := by simpa using (hvs 1 _ rfl).symm.trans (hvs' 1 _ rfl)
    exact ⟨rfl, rfl, fun _ _ => rfl, w, rfl, h Q hx⟩

theorem eq_of_listCalls {f : Val} {m m' : Machine} (h : listCalls f m m') :
    ∃ w H', m' = { m with eax := .word w, heap := H' } := by
  unfold listCalls at h
  split at h
  · obtain ⟨-, -, w, H', -, -, rfl⟩ := h
    exact ⟨w, H', rfl⟩
  · unfold consCalls at h
    split at h
    · obtain ⟨-, -, p, -, -, -, -, rfl⟩ := h
      exact ⟨_, _, rfl⟩
    · exact h.elim

theorem cdecl_listCalls : Cdecl listCalls where
  esp h := by
    obtain ⟨w, H', rfl⟩ := eq_of_listCalls h
    rfl
  ebp h := by
    obtain ⟨w, H', rfl⟩ := eq_of_listCalls h
    rfl
  edi h := by
    obtain ⟨w, H', rfl⟩ := eq_of_listCalls h
    rfl

/-- `((unquote-splice x) 1)` -/
def spliceForm : Sexp := .list [.list [.symbol "unquote-splice", .symbol "x"], .atom 4]

/-- In a function with the parameter `x`. -/
def spliceContext : Context := ⟨spliceForm.heap.1, [], [⟨"x", 0, .argument⟩], none, 1⟩

/-- In it, `x` is at 24, and its value is `l`. -/
def valueOfX (l e : Word) : Outcome Heap Word := if e = 29 then pure l else .fail

theorem templateOf_spliceForm : TemplateOf (Fits spliceContext) spliceForm.heap.2
    (.list (.splice 29 (.cons (.const 4) .nil))) := by
  have hfour : spliceContext.heap.listp 4 = some false := by decide
  have hname : spliceContext.heap.Named 21 "unquote-splice" := ⟨by decide, rfl⟩
  have hform : spliceContext.heap.IsForm 41 "unquote-splice" [29] :=
    ⟨21, hname, by decide, _, rfl, by decide, _, rfl, rfl⟩
  have hlist : ListOf spliceContext.heap spliceForm.heap.2 [41, 4] :=
    ⟨by decide, _, rfl, by decide, _, rfl, rfl⟩
  have hhead : spliceContext.heap.symstreq (spliceContext.heap.car spliceForm.heap.2) "unquote" =
      false := by
    rw [hlist.car]
    rfl
  refine ⟨[41, 4], ⟨41, [4], rfl, ⟨4, [], rfl, ⟨rfl, fun s hs => ?_⟩, rfl, fun s hs => ?_⟩,
    fun s hs => hs.isForm hform⟩, fun s hs => ?_⟩
  · rw [hs.heap, hfour]
  · rw [hs.heap, hfour]
    simp
  · rw [hs.heap]
    exact ⟨hlist, hhead⟩

theorem compilesIn_x (l : Word) : ∃ N, ∀ n ≥ N, CompilesIn (Fits spliceContext)
    (argumentsFrame 1 fun _ => l) listCalls
    (fun v => (compiler .inert n).compileExpression v false) 29 (valueOfX l 29) Machine.InEax := by
  have hx : spliceContext.heap.Named 29 "x" := ⟨by decide, rfl⟩
  have hcode : ∃ N, ∀ n ≥ N, CompilesTo listCalls (fun _ => l) spliceContext
      (compiler .inert n).compileExpression 29 (pure l) :=
    compilesTo_of_smaller 0 fun n _ => compilesTo_parameter (k := 0) Nat.one_pos hx (by decide) rfl
  obtain ⟨N, hN⟩ := hcode
  refine ⟨N, fun n hn s hs => ?_⟩
  obtain ⟨c, s', hc, hs', hcode⟩ := hN n hn s hs
  exact ⟨c, s', hc, hs', hcode.evaluates⟩

theorem compileBackquote_spliceForm : ∃ N, ∀ n ≥ N, ∀ s, Fits spliceContext s →
    ∃ code s', (compiler .inert n).compileBackquote spliceForm.heap.2 s = .ok () code s' ∧
      Fits spliceContext s' ∧ ∀ (P : Code) (m : Machine), stackHeights.LabelsUnique P →
        At P m.pc code → (argumentsFrame 1 fun _ => nil).Ready m →
        (∀ Q, evalTemplate (valueOfX nil) (.list (.splice 29 (.cons (.const 4) .nil))) Q m.heap →
          (machine listCalls P).Inevitably (fun m' =>
            m'.pc = m.pc + code.length ∧ m'.esp = m.esp ∧ m'.ebp = m.ebp ∧
              ∃ d w, m'.eax = .word w ∧ Q (d, w) m'.heap) m) ∧
        (BackquoteOk (valueOfX nil) (.list (.splice 29 (.cons (.const 4) .nil))) m.heap ↔
          SpliceOk (valueOfX nil) (.list (.splice 29 (.cons (.const 4) .nil))) m.heap) := by
  refine compileBackquote_iff implements_cons implements_merge2 cdecl_listCalls (fun e => ?_)
    (fun e => ?_) templateOf_spliceForm fun e he => ?_
  · refine Outcome.guarantees_ite (Outcome.guarantees_pure ?_) Outcome.guarantees_fail
    exact fun H p x y ho => ho
  · unfold valueOfX
    split
    · exact Outcome.feasible_pure
    · exact fun _ h => h
  · obtain rfl : e = 29 := by simpa [Template.exprs, Items.exprs] using he
    exact compilesIn_x nil

end Lisp

end Bluejay
