import Bluejay.Lisp.Machine
import Bluejay.Lisp.References
import Bluejay.Lisp.Sexp

/-!
# Closures

* `ClosureCall` : `create_closure` and `set_closure_capture_variable`, as compiled code calls them.
* `Applied` : chains of functions that are being run, each applied through a closure that the one
  around it has created.
* `ClosureOk` : references find the values of their bindings.
* `closuresOk_iff` : what a function's closures of itself may not refer to.
-/

namespace Bluejay

namespace Lisp

/-! ### Creating a closure -/

/-- What is read for a variable. -/
def Machine.read (m : Machine) (v : Variable) : Option Val :=
  match v.type with
  | .argument => some (m.stack (argumentAddress m.ebp v.number))
  | .bound => some (m.stack (slotAddress m.ebp v.number))
  | .free => (m.free v.number).map Val.word
  | .global => none

/-- From `m` to `m'` a function of the C code has been called that does not change its arguments. -/
structure Machine.Called (m m' : Machine) : Prop where
  pc : m'.pc = m.pc
  esp : m'.esp = m.esp
  ebp : m'.ebp = m.ebp
  edi : m'.edi = m.edi
  stack : ∀ a, m.esp ≤ a → m'.stack a = m.stack a

/-- The calls of `create_closure`, which leaves the captured values as they were in memory, and of
`set_closure_capture_variable`, which may only be called for one of the captured values. -/
inductive ClosureCall : Val → Machine → Machine → Prop
  | create {m m' : Machine} {a : Args} {f : CodePtr} {n p : ℕ} {data : List Word}
      (hcode : m.stack m.esp = .imm (.code f) ∨ m.stack m.esp = .here)
      (hargs : m.stack (m.esp + 4) = .imm (.args a)) (hn : m.stack (m.esp + 8) = .imm (.nat n))
      (hdata : data.length = n) (hp : p ∉ m.heap.dom) (hp8 : p % 8 = 0) (hm : m.Called m')
      (heax : m'.eax = .word (p + closureTag)) (hheap : m'.heap = m.heap.set p (.closure a f data)) :
      ClosureCall (.entry .createClosure) m m'
  | set {m m' : Machine} {a : Args} {f : CodePtr} {k : ℕ} {w v : Word} {data : List Word}
      (hk : m.stack m.esp = .imm (.nat k)) (hw : m.stack (m.esp + 4) = .word w)
      (hv : m.stack (m.esp + 8) = .word v) (hc : closurep v)
      (ho : m.heap.obj (pointer v) = some (.closure a f data)) (hlt : k < data.length)
      (hm : m.Called m') (hheap : m'.heap = m.heap.set (pointer v) (.closure a f (data.set k w))) :
      ClosureCall (.entry .setClosureCaptureVariable) m m'

/-- What is on the stack, and where the stack and the closure being run are, stays. -/
structure Machine.SameStack (m m' : Machine) : Prop where
  esp : m'.esp = m.esp
  ebp : m'.ebp = m.ebp
  edi : m'.edi = m.edi
  stack : ∀ a, m.esp ≤ a → m'.stack a = m.stack a

/-- The value `x` has been pushed. -/
structure Machine.Pushed (m : Machine) (x : Val) (m' : Machine) : Prop where
  eax : m'.eax = m.eax
  esp : m'.esp = m.esp - 4
  ebp : m'.ebp = m.ebp
  edi : m'.edi = m.edi
  heap : m'.heap = m.heap
  top : m'.stack (m.esp - 4) = x
  stack : ∀ a, m.esp ≤ a → m'.stack a = m.stack a

/-- The place of the variable `u` is not below the top of the stack. -/
def Machine.Keeps (m : Machine) (u : Variable) : Prop :=
  m.esp ≤ m.ebp ∧ (u.type = .bound → m.esp ≤ slotAddress m.ebp u.number)

section Runs

variable {calls : Val → Machine → Machine → Prop} {P : Code} {m m' : Machine} {i : Instr}
  {u v : Variable} {w : Word} {n k : ℕ} {a : Args} {p : CodePtr}

theorem exec_of_step (h : (machine calls P).step m i m') (hi : i.callee m = none) :
    i.exec P m = some m' := by
  obtain ⟨-, h | ⟨f, m₁, hf, -⟩⟩ := h
  · exact h
  · rw [hi] at hf
    cases hf

theorem call_of_step {f : Extern} (h : (machine calls P).step m (.call f) m') :
    ∃ m₁, calls (.entry f) m m₁ ∧ m' = { m₁ with pc := m.pc + 1 } := by
  obtain ⟨-, h | ⟨g, m₁, hg, hcall, rfl⟩⟩ := h
  · cases h
  · cases hg
    exact ⟨m₁, hcall, rfl⟩

theorem Machine.SameStack.refl (m : Machine) : m.SameStack m := ⟨rfl, rfl, rfl, fun _ _ => rfl⟩

theorem Machine.SameStack.trans {m₁ m₂ : Machine} (h : m.SameStack m₁) (h' : m₁.SameStack m₂) :
    m.SameStack m₂ :=
  ⟨h'.esp.trans h.esp, h'.ebp.trans h.ebp, h'.edi.trans h.edi, fun a ha =>
    (h'.stack a (h.esp ▸ ha)).trans (h.stack a ha)⟩

theorem pushed_push (m : Machine) (x : Val) : m.Pushed x (m.push x).next where
  eax := rfl
  esp := rfl
  ebp := rfl
  edi := rfl
  heap := rfl
  top := Function.update_self _ _ _
  stack _ ha := Function.update_of_ne (by omega) _ _

theorem pushed_of_step {x : Imm} (h : (machine calls P).step m (.push x) m') :
    m.Pushed (.imm x) m' := by
  obtain rfl := Option.some.inj (exec_of_step h rfl)
  exact pushed_push m _

theorem pushed_of_step_eax (h : (machine calls P).step m .pushEax m') : m.Pushed m.eax m' := by
  obtain rfl := Option.some.inj (exec_of_step h rfl)
  exact pushed_push m _

theorem pushed_of_step_here (h : (machine calls P).step m .pushHere m') : m.Pushed .here m' := by
  obtain rfl := Option.some.inj (exec_of_step h rfl)
  exact pushed_push m _

/-- What `create_closure` makes of the three words pushed last. -/
theorem created_of_pushed {m₁ m₂ m₃ m₄ : Machine} {x : Val} (h₁ : m.Pushed (.imm (.nat n)) m₁)
    (h₂ : m₁.Pushed (.imm (.args a)) m₂) (h₃ : m₂.Pushed x m₃)
    (hcall : ClosureCall (.entry .createClosure) m₃ m₄) :
    ∃ q f data, data.length = n ∧ q ∉ m.heap.dom ∧ q % 8 = 0 ∧ m₄.eax = .word (q + closureTag) ∧
      m₄.heap = m.heap.set q (.closure a f data) ∧ m₄.esp = m.esp - 12 ∧ m₄.ebp = m.ebp ∧
      m₄.edi = m.edi ∧ ∀ b, m.esp ≤ b → m₄.stack b = m.stack b := by
  have he₁ := h₁.esp
  have he₂ := h₂.esp
  have he₃ := h₃.esp
  cases hcall with
  | @create _ _ a' f n' q data hcode hargs hn hdata hp hp8 hm heax hheap =>
    have ha : m₃.stack (m₃.esp + 4) = .imm (.args a) := by
      rw [show m₃.esp + 4 = m₁.esp - 4 by omega, h₃.stack _ (by omega), h₂.top]
    have hn' : m₃.stack (m₃.esp + 8) = .imm (.nat n) := by
      rw [show m₃.esp + 8 = m.esp - 4 by omega, h₃.stack _ (by omega), h₂.stack _ (by omega),
        h₁.top]
    obtain rfl : a' = a := by simpa using hargs.symm.trans ha
    obtain rfl : n' = n := by simpa using hn.symm.trans hn'
    have hheap₃ : m₃.heap = m.heap := h₃.heap.trans (h₂.heap.trans h₁.heap)
    rw [hheap₃] at hp hheap
    refine ⟨q, f, data, hdata, hp, hp8, heax, hheap, by rw [hm.esp]; omega, ?_, ?_, ?_⟩
    · exact hm.ebp.trans (h₃.ebp.trans (h₂.ebp.trans h₁.ebp))
    · exact hm.edi.trans (h₃.edi.trans (h₂.edi.trans h₁.edi))
    · intro b hb
      rw [hm.stack b (by omega), h₃.stack b (by omega), h₂.stack b (by omega), h₁.stack b hb]

/-- A new closure, whose captured values are not set yet. -/
theorem run_closureCode (h : (machine ClosureCall P).Run m (closureCode n a p) m') :
    ∃ q f data, data.length = n ∧ q ∉ m.heap.dom ∧ q % 8 = 0 ∧ m'.eax = .word (q + closureTag) ∧
      m'.heap = m.heap.set q (.closure a f data) ∧ m.SameStack m' := by
  obtain ⟨m₁, h₁, hr₁⟩ := h.uncons
  obtain ⟨m₂, h₂, hr₂⟩ := hr₁.uncons
  obtain ⟨m₃, h₃, hr₃⟩ := hr₂.uncons
  obtain ⟨m₄, h₄, hr₄⟩ := hr₃.uncons
  obtain ⟨m₅, h₅, hr₅⟩ := hr₄.uncons
  obtain rfl := hr₅.eq_of_nil
  obtain ⟨m₄', hcall, rfl⟩ := call_of_step h₄
  obtain rfl := Option.some.inj (exec_of_step h₅ rfl)
  obtain ⟨q, f, data, hdata, hq, hq8, heax, hheap, hesp, hebp, hedi, hstack⟩ :=
    created_of_pushed (pushed_of_step h₁) (pushed_of_step h₂) (pushed_of_step h₃) hcall
  refine ⟨q, f, data, hdata, hq, hq8, heax, hheap, ?_, hebp, hedi, hstack⟩
  show m₄'.esp + ((12 : ℕ) : ℤ) = m.esp
  omega

/-- A function's reference to itself is a closure without captured values. -/
theorem run_selfCode (h : (machine ClosureCall P).Run m (selfCode a) m') :
    ∃ q f, q % 8 = 0 ∧ m'.eax = .word (q + closureTag) ∧
      m'.heap = m.heap.set q (.closure a f []) := by
  obtain ⟨m₁, h₁, hr₁⟩ := h.uncons
  obtain ⟨m₂, h₂, hr₂⟩ := hr₁.uncons
  obtain ⟨m₃, h₃, hr₃⟩ := hr₂.uncons
  obtain ⟨m₄, h₄, hr₄⟩ := hr₃.uncons
  obtain rfl := hr₄.eq_of_nil
  obtain ⟨m₄', hcall, rfl⟩ := call_of_step h₄
  obtain ⟨q, f, data, hdata, -, hq8, heax, hheap, -⟩ :=
    created_of_pushed (pushed_of_step h₁) (pushed_of_step h₂) (pushed_of_step_here h₃) hcall
  obtain rfl := List.eq_nil_of_length_eq_zero hdata
  exact ⟨q, f, hq8, heax, hheap⟩

theorem run_loadCode (hv : v.type ≠ .global) (h : (machine calls P).Run m (loadCode v) m') :
    ∃ x pc, m.read v = some x ∧ m' = { m with eax := x, pc := pc } := by
  unfold loadCode at h
  unfold Machine.read
  cases ht : v.type with
  | global => exact absurd ht hv
  | argument | bound =>
    rw [ht] at h
    obtain ⟨m₁, h₁, hr₁⟩ := h.uncons
    obtain rfl := hr₁.eq_of_nil
    obtain rfl := Option.some.inj (exec_of_step h₁ rfl)
    exact ⟨_, _, rfl, rfl⟩
  | free =>
    rw [ht] at h
    obtain ⟨m₁, h₁, hr₁⟩ := h.uncons
    obtain rfl := hr₁.eq_of_nil
    obtain ⟨x, hx, rfl⟩ := Option.map_eq_some_iff.1 (exec_of_step h₁ rfl)
    exact ⟨_, _, by simp [hx], rfl⟩

/-- What is read for a variable depends on its place and on the closure being run. -/
theorem read_congr (hu : m.Keeps u) (hebp : m'.ebp = m.ebp) (hedi : m'.edi = m.edi)
    (hobj : u.type = .free → m'.heap.obj m.edi = m.heap.obj m.edi)
    (hstack : ∀ b, m.esp ≤ b → m'.stack b = m.stack b) : m'.read u = m.read u := by
  unfold Machine.read
  cases ht : u.type with
  | argument =>
    have hle : m.esp ≤ argumentAddress m.ebp u.number := by
      have := hu.1
      unfold argumentAddress
      omega
    simp only [hebp, hstack _ hle]
  | bound => simp only [hebp, hstack _ (hu.2 ht)]
  | free => simp only [Machine.free, hedi, hobj ht]
  | global => rfl

/-- The value of the variable `u` is put into the closure in `eax`. -/
theorem run_captureCode (hg : u.type ≠ .global) (hu : m.Keeps u) (heax : m.eax = .word w)
    (h : (machine ClosureCall P).Run m (captureCode u k) m') : ∃ x a f data,
      m.read u = some (.word x) ∧ m.heap.obj (pointer w) = some (.closure a f data) ∧
      k < data.length ∧ m'.eax = .word w ∧
      m'.heap = m.heap.set (pointer w) (.closure a f (data.set k x)) ∧ m.SameStack m' := by
  obtain ⟨m₁, h₁, hr₁⟩ := System.Run.uncons (show (machine ClosureCall P).Run m (.pushEax ::
    (loadCode u ++ [.pushEax, .push (.nat k), .call .setClosureCaptureVariable, .addEsp 8,
      .popEax])) m' from h)
  obtain ⟨m₂, h₂, hr₂⟩ := hr₁.split rfl
  obtain ⟨m₃, h₃, hr₃⟩ := hr₂.uncons
  obtain ⟨m₄, h₄, hr₄⟩ := hr₃.uncons
  obtain ⟨m₅, h₅, hr₅⟩ := hr₄.uncons
  obtain ⟨m₆, h₆, hr₆⟩ := hr₅.uncons
  obtain ⟨m₇, h₇, hr₇⟩ := hr₆.uncons
  obtain rfl := hr₇.eq_of_nil
  have hp₁ := pushed_of_step_eax h₁
  obtain ⟨x, pc, hx, rfl⟩ := run_loadCode hg h₂
  have hp₃ := pushed_of_step_eax h₃
  have hp₄ := pushed_of_step h₄
  obtain ⟨m₅', hcall, rfl⟩ := call_of_step h₅
  obtain rfl := Option.some.inj (exec_of_step h₆ rfl)
  obtain rfl := Option.some.inj (exec_of_step h₇ rfl)
  have he₁ := hp₁.esp
  have he₃ : m₃.esp = m₁.esp - 4 := hp₃.esp
  have he₄ := hp₄.esp
  rw [read_congr hu hp₁.ebp hp₁.edi (fun _ => by rw [hp₁.heap]) hp₁.stack] at hx
  cases hcall with
  | @set _ _ a f k' y v data hk hy hv hc ho hlt hm hheap =>
    have hk' : m₄.stack m₄.esp = .imm (.nat k) := by rw [he₄, hp₄.top]
    have hy' : m₄.stack (m₄.esp + 4) = x := by
      rw [show m₄.esp + 4 = m₁.esp - 4 by omega, hp₄.stack _ (by omega)]
      exact hp₃.top
    have hv' : m₄.stack (m₄.esp + 8) = .word w := by
      rw [show m₄.esp + 8 = m₁.esp by omega, hp₄.stack _ (by omega)]
      rw [show m₃.stack m₁.esp = m₁.stack m₁.esp from hp₃.stack _ (le_refl _), he₁, hp₁.top, heax]
    obtain rfl : k' = k := by simpa using hk.symm.trans hk'
    obtain rfl : w = v := by simpa using hv'.symm.trans hv
    obtain rfl : .word y = x := hy.symm.trans hy'
    have hheap₄ : m₄.heap = m.heap := hp₄.heap.trans (hp₃.heap.trans hp₁.heap)
    rw [hheap₄] at ho hheap
    have hesp : m₅'.esp = m.esp - 12 := by
      rw [hm.esp]
      omega
    have hstack : ∀ b, m.esp - 4 ≤ b → m₅'.stack b = m₁.stack b := by
      intro b hb
      rw [hm.stack b (by omega), hp₄.stack b (by omega)]
      exact hp₃.stack b (show m₁.esp ≤ b by omega)
    have hpop : m₅'.esp + ((8 : ℕ) : ℤ) = m.esp - 4 := by omega
    refine ⟨y, a, f, data, hx, ho, hlt, ?_, hheap, ?_, ?_, ?_, ?_⟩
    · show m₅'.stack (m₅'.esp + ((8 : ℕ) : ℤ)) = .word w
      rw [hpop, hstack _ (le_refl _), hp₁.top, heax]
    · show m₅'.esp + ((8 : ℕ) : ℤ) + ((4 : ℕ) : ℤ) = m.esp
      omega
    · exact hm.ebp.trans (hp₄.ebp.trans (hp₃.ebp.trans hp₁.ebp))
    · exact hm.edi.trans (hp₄.edi.trans (hp₃.edi.trans hp₁.edi))
    · intro b hb
      show m₅'.stack b = m.stack b
      rw [hstack b (by omega), hp₁.stack b hb]

theorem Machine.Keeps.same (hu : m.Keeps u) (h : m.SameStack m') : m'.Keeps u := by
  refine ⟨by rw [h.esp, h.ebp]; exact hu.1, fun ht => ?_⟩
  rw [h.esp, h.ebp]
  exact hu.2 ht

/-- The values of all captured variables are put into the closure in `eax`. -/
theorem run_captures {vars : List Variable} {L L' : List Local} {c : Code} {f : CodePtr}
    {data : List Word} (hcap : Captured vars L c L')
    (hnumbers : ((vars.filter fun v => v.type = .free).map Variable.number).Nodup)
    (hkeep : ∀ l ∈ L'.head?, ∀ u ∈ l.first, m.Keeps u) (heax : m.eax = .word w)
    (hobj : m.heap.obj (pointer w) = some (.closure a f data))
    (hedi : ∀ l ∈ L'.head?, ∀ u ∈ l.first, u.type = .free → m.edi ≠ pointer w)
    (h : (machine ClosureCall P).Run m c m') : ∃ data',
      m'.eax = .word w ∧ m'.heap.obj (pointer w) = some (.closure a f data') ∧
      data'.length = data.length ∧
      (∀ k, (∀ v ∈ vars, v.type = .free → v.number ≠ k) → data'[k]? = data[k]?) ∧
      ∀ v ∈ vars, v.type = .free → ∃ l ∈ L'.head?, ∃ u ∈ l.first, u.name = v.name ∧
        ∃ x, m.read u = some (.word x) ∧ data'[v.number]? = some x := by
  induction hcap generalizing m data with
  | nil =>
    obtain rfl := h.eq_of_nil
    exact ⟨data, heax, hobj, rfl, fun _ _ => rfl, by simp⟩
  | @skip L L' v vars c hv hcap ih =>
    rw [List.filter_cons_of_neg (by simpa using hv)] at hnumbers
    obtain ⟨data', heax', hobj', hlen, hother, hset⟩ := ih hnumbers hkeep heax hobj hedi h
    refine ⟨data', heax', hobj', hlen, fun k hk => ?_, ?_⟩
    · exact hother k (List.forall_mem_cons.1 hk).2
    · exact List.forall_mem_cons.2 ⟨fun hfree => absurd hfree hv, hset⟩
  | @take L L' v u vars c hv hu hg hcap ih =>
    rw [List.filter_cons_of_pos (by simpa using hv), List.map_cons, List.nodup_cons] at hnumbers
    obtain ⟨hnew, hnumbers⟩ := hnumbers
    obtain ⟨l₁, rest, hl₁, hmem, hname⟩ := findVariable_mem hu
    obtain ⟨l, L₂, rfl, hlater⟩ : ∃ l L₂, L' = l :: L₂ ∧ Later l₁ l := by
      have hall := hcap.later
      rw [hl₁] at hall
      cases hall with
      | cons hl _ => exact ⟨_, _, rfl, hl⟩
    have hul : u ∈ l.first := hlater.mem hmem
    have hkeep' : ∀ u ∈ l.first, m.Keeps u := hkeep l rfl
    obtain ⟨m₁, h₁, h₂⟩ := h.split rfl
    obtain ⟨x, a', f', data₁, hx, hobj₁, hlt, heax₁, hheap₁, hsame⟩ :=
      run_captureCode hg (hkeep' u hul) heax h₁
    obtain ⟨rfl, rfl, rfl⟩ : a = a' ∧ f = f' ∧ data = data₁ := by
      simpa using hobj.symm.trans hobj₁
    have hset₁ : m₁.heap.obj (pointer w) = some (.closure a f (data.set v.number x)) := by
      rw [hheap₁]
      exact Function.update_self _ _ _
    have hread : ∀ u ∈ l.first, m₁.read u = m.read u := by
      intro u' hu'
      refine read_congr (hkeep' u' hu') hsame.ebp hsame.edi (fun hfree => ?_) hsame.stack
      rw [hheap₁]
      exact Function.update_of_ne (hedi l rfl u' hu' hfree) _ _
    obtain ⟨data', heax', hobj', hlen, hother, hset⟩ := ih hnumbers
      (fun k hk u' hu' => ((hkeep k hk u' hu').same hsame)) heax₁ hset₁ (hsame.edi.symm ▸ hedi) h₂
    rw [List.length_set] at hlen
    refine ⟨data', heax', hobj', hlen, fun k hk => ?_, List.forall_mem_cons.2 ⟨fun _ => ?_, ?_⟩⟩
    · obtain ⟨hk, hrest⟩ := List.forall_mem_cons.1 hk
      rw [hother k hrest, List.getElem?_set_ne (hk hv)]
    · refine ⟨l, rfl, u, hul, hname, x, hx, ?_⟩
      rw [hother v.number fun v' hv' hfree heq => hnew (List.mem_map.2 ⟨v', by simp [hv', hfree], heq⟩),
        List.getElem?_set_self hlt]
    · intro v' hv' hfree
      obtain ⟨k, hk, u', hu', hname', y, hy, hdata⟩ := hset v' hv' hfree
      obtain rfl : l = k := Option.some.inj hk
      exact ⟨l, rfl, u', hu', hname', y, hread u' hu' ▸ hy, hdata⟩

end Runs

/-! ### Applied closures -/

/-- A function that is being run. -/
structure Activation where
  l : Local
  items : List Item
  /-- The machine, at some time in the function: for all but the innermost, at the time when the
  function creates the closure that is applied next. -/
  m : Machine
  /-- Whether the function was called through a closure that it has made of itself. -/
  self : Bool

/-- The chains of functions that are run, innermost first: the outermost is the function with the
`struct local` `l`, and each of the others is applied, with `edi` pointing at its data, through a
closure that the one around it has created.  The places of the variables are on the stack when a
closure is created, and its data are what they were when the captures were done. -/
inductive Applied (l : Local) (items : List Item) : List Activation → Prop
  | outermost (m : Machine) : Applied l items [⟨l, items, m, false⟩]
  /-- The closure of a `lambda`. -/
  | lambda {A : Activation} {rest : List Activation} {k : Local} {create : Code} {body : List Item}
      {P : Code} {m' m₀ : Machine} {w : Word} (h : Applied l items (A :: rest))
      (hitem : .lambda k create body ∈ A.items) (hkeep : ∀ u ∈ A.l.first, A.m.Keeps u)
      (hrun : (machine ClosureCall P).Run A.m create m') (heax : m'.eax = .word w)
      (hedi : m₀.edi = pointer w) (hobj : m₀.heap.obj m₀.edi = m'.heap.obj m₀.edi) :
      Applied l items (⟨k, body, m₀, false⟩ :: A :: rest)
  /-- The closure that `(function f)` makes in `f`. -/
  | self {A : Activation} {rest : List Activation} {a : Args} {P : Code} {m' m₀ : Machine}
      {w : Word} (h : Applied l items (A :: rest)) (hitem : .self a ∈ A.items)
      (hrun : (machine ClosureCall P).Run A.m (selfCode a) m') (heax : m'.eax = .word w)
      (hedi : m₀.edi = pointer w) (hobj : m₀.heap.obj m₀.edi = m'.heap.obj m₀.edi) :
      Applied l items (⟨A.l, A.items, m₀, true⟩ :: rest)
  /-- The function goes on, or calls itself. -/
  | again {A : Activation} {rest : List Activation} {m₀ : Machine}
      (h : Applied l items (A :: rest)) (hedi : m₀.edi = A.m.edi)
      (hobj : m₀.heap.obj m₀.edi = A.m.heap.obj A.m.edi) :
      Applied l items (⟨A.l, A.items, m₀, A.self⟩ :: rest)

/-- Each reference to a variable finds the value of its binding, and the closure has a slot for
each variable that is captured. -/
structure ClosureOk (A : Activation) (rest : List Activation) : Prop where
  reads : ∀ name v, .reference name v ∈ A.items → ∃ B ∈ A :: rest, ∃ u ∈ B.l.first,
    u.type ≠ .free ∧ u.name = name ∧ A.m.read v = B.m.read u
  own : ((A.l.first.filter fun v => v.type = .free).map Variable.number).Nodup ∧
    ∀ v ∈ A.l.first, v.type = .free → v.number < A.l.numClosureSlots
  enough : A.l.numClosureSlots = 0 ∨ ∃ a f data,
    A.m.heap.obj A.m.edi = some (.closure a f data) ∧ A.l.numClosureSlots ≤ data.length

/-- What holds of the innermost function of a chain. -/
structure Sound (A : Activation) (rest : List Activation) : Prop where
  body : HasBody A.l A.items
  closure : A.l.numClosureSlots = 0 ∨ ∃ a f data,
    A.m.heap.obj A.m.edi = some (.closure a f data) ∧
      data.length = if A.self then 0 else A.l.numClosureSlots
  values : A.self = false → ∀ v ∈ A.l.first, v.type = .free → ∃ B ∈ rest.head?, ∃ u ∈ B.l.first,
    u.name = v.name ∧ A.m.read v = B.m.read u

section Chains

variable {l : Local} {items : List Item} {A : Activation}
  {chain rest : List Activation}

theorem pointer_closure {q : ℕ} (hq : q % 8 = 0) : pointer (q + closureTag) = q := by
  unfold pointer closureTag
  omega

theorem Sound.captured (h : Sound A rest) (hself : A.self = true → A.l.numClosureSlots = 0)
    {v : Variable} (hv : v ∈ A.l.first) (hfree : v.type = .free) :
    ∃ B ∈ rest.head?, ∃ u ∈ B.l.first, u.name = v.name ∧ A.m.read v = B.m.read u := by
  refine h.values (Bool.eq_false_iff.2 fun ht => ?_) v hv hfree
  have := h.body.slotsOk.number_lt hv hfree
  have := hself ht
  omega

/-- A function that captures something is in a closure. -/
theorem Sound.free (h : Sound A rest) {v : Variable} (hv : v ∈ A.l.first) (hfree : v.type = .free) :
    A.m.heap.obj A.m.edi ≠ none := by
  rcases h.closure with hzero | ⟨a, f, data, hobj, -⟩
  · have := h.body.slotsOk.number_lt hv hfree
    omega
  · simp [hobj]

theorem applied_sound (hl : HasBody l items) (hzero : l.numClosureSlots = 0)
    (h : Applied l items (A :: rest)) : Sound A rest := by
  generalize hchain : A :: rest = chain at h
  induction h generalizing A rest with
  | outermost m =>
    obtain ⟨rfl, rfl⟩ := List.cons.inj hchain
    refine ⟨hl, .inl hzero, fun _ v hv hfree => ?_⟩
    have := hl.slotsOk.number_lt hv hfree
    omega
  | @lambda B rest' k create body P m' m₀ w h hitem hkeep hrun heax hedi hobj ih =>
    obtain ⟨rfl, rfl⟩ := List.cons.inj hchain
    have hB := ih rfl
    obtain ⟨hbody, L₁, L₂, c', a, p, rfl, hcap, hlater⟩ := hB.body.lambda_mem hitem
    obtain ⟨m₁, h₁, h₂⟩ := hrun.split rfl
    obtain ⟨q, f, data, hdata, hq, hq8, heax₁, hheap₁, hsame⟩ := run_closureCode h₁
    have hpq := pointer_closure hq8
    have hkeep₁ : ∀ l₂ ∈ L₂.head?, ∀ u ∈ l₂.first, B.m.Keeps u := by
      intro l₂ hl₂ u hu
      exact hkeep u ((hlater l₂ hl₂).mem hu)
    -- a closure that is being run is not the new one
    have hne : ∀ l₂ ∈ L₂.head?, ∀ u ∈ l₂.first, u.type = .free → B.m.edi ≠ q := by
      rintro l₂ hl₂ u hu hfree rfl
      exact hB.free ((hlater l₂ hl₂).mem hu) hfree (Heap.obj_eq_none.2 hq)
    have hobj₁ : m₁.heap.obj (pointer (q + closureTag)) = some (.closure a f data) := by
      rw [hpq, hheap₁]
      exact Function.update_self _ _ _
    obtain ⟨data', heax', hobj', hlen, -, hset⟩ := run_captures hcap hbody.slotsOk.nodup
      (fun l₂ hl₂ u hu => (hkeep₁ l₂ hl₂ u hu).same hsame) heax₁ hobj₁
      (by rw [hpq, hsame.edi]; exact hne) h₂
    obtain rfl : w = q + closureTag := by simpa using heax.symm.trans heax'
    rw [hedi, hobj', ← hedi] at hobj
    refine ⟨hbody, .inr ⟨a, f, data', hobj, hlen.trans hdata⟩, fun _ v hv hfree => ?_⟩
    obtain ⟨l₂, hl₂, u, hu, hname, x, hx, hdata'⟩ := hset v hv hfree
    refine ⟨B, rfl, u, (hlater l₂ hl₂).mem hu, hname, ?_⟩
    have hread : m₁.read u = B.m.read u := by
      refine read_congr (hkeep₁ l₂ hl₂ u hu) hsame.ebp hsame.edi (fun hufree => ?_) hsame.stack
      rw [hheap₁]
      exact Function.update_of_ne (hne l₂ hl₂ u hu hufree) _ _
    rw [← hread, hx]
    simp only [Machine.read, hfree, Machine.free, hobj, hdata', Option.map_some]
  | @self B rest' a P m' m₀ w h hitem hrun heax hedi hobj ih =>
    obtain ⟨rfl, rfl⟩ := List.cons.inj hchain
    obtain ⟨q, f, hq8, heax₁, hheap⟩ := run_selfCode hrun
    obtain rfl : w = q + closureTag := by simpa using heax.symm.trans heax₁
    refine ⟨(ih rfl).body, .inr ⟨a, f, [], ?_, rfl⟩, by rintro ⟨⟩⟩
    show m₀.heap.obj m₀.edi = _
    rw [hobj, hedi, pointer_closure hq8, hheap]
    exact Function.update_self _ _ _
  | @again B rest' m₀ h hedi hobj ih =>
    obtain ⟨rfl, rfl⟩ := List.cons.inj hchain
    obtain ⟨hbody, hclosure, hvalues⟩ := ih rfl
    rw [← hobj] at hclosure
    refine ⟨hbody, hclosure, fun hself v hv hfree => ?_⟩
    obtain ⟨C, hC, u, hu, hname, hread⟩ := hvalues hself v hv hfree
    refine ⟨C, hC, u, hu, hname, ?_⟩
    rw [← hread]
    simp only [Machine.read, hfree, Machine.free, hobj]

theorem Applied.tail (h : Applied l items (A :: rest)) : rest = [] ∨ Applied l items rest := by
  generalize hchain : A :: rest = chain at h
  induction h generalizing A rest with
  | outermost m =>
    obtain ⟨rfl, rfl⟩ := List.cons.inj hchain
    exact .inl rfl
  | lambda h =>
    obtain ⟨rfl, rfl⟩ := List.cons.inj hchain
    exact .inr h
  | self _ _ _ _ _ _ ih | again _ _ _ ih =>
    obtain ⟨rfl, rfl⟩ := List.cons.inj hchain
    exact ih rfl

theorem Applied.of_suffix (h : Applied l items chain) (hs : (A :: rest) <:+ chain) :
    Applied l items (A :: rest) := by
  induction chain with
  | nil => simp at hs
  | cons B chain ih =>
    rcases List.suffix_cons_iff.1 hs with heq | hs
    · exact heq ▸ h
    · rcases h.tail with rfl | h
      · simp at hs
      · exact ih h hs

/-- What is read for a variable is what is read for its binding. -/
theorem exists_binding (hl : HasBody l items) (hzero : l.numClosureSlots = 0)
    (happ : Applied l items (A :: rest))
    (hself : ∀ B ∈ A :: rest, B.self = true → B.l.numClosureSlots = 0) {v : Variable}
    (hv : v ∈ A.l.first) : ∃ B ∈ A :: rest, ∃ u ∈ B.l.first, u.type ≠ .free ∧ u.name = v.name ∧
      A.m.read v = B.m.read u := by
  induction rest generalizing A v with
  | nil =>
    refine ⟨A, List.mem_cons_self, v, hv, fun hfree => ?_, rfl, rfl⟩
    obtain ⟨B, hB, -⟩ := (applied_sound hl hzero happ).captured (hself A List.mem_cons_self) hv hfree
    cases hB
  | cons C rest ih =>
    by_cases hfree : v.type = .free
    · -- the captured value is read for a variable of the function around
      obtain ⟨B, hB, u, hu, hname, hread⟩ :=
        (applied_sound hl hzero happ).captured (hself A List.mem_cons_self) hv hfree
      obtain rfl : C = B := Option.some.inj hB
      have hC : Applied l items (C :: rest) := happ.tail.resolve_left (by simp)
      obtain ⟨B, hB, w, hw, hne, hname', hread'⟩ :=
        ih hC (fun B hB => hself B (List.mem_cons_of_mem _ hB)) hu
      exact ⟨B, List.mem_cons_of_mem _ hB, w, hw, hne, hname'.trans hname, hread.trans hread'⟩
    · exact ⟨A, List.mem_cons_self, v, hv, hfree, rfl, rfl⟩

theorem closureOk_of_self (hl : HasBody l items) (hzero : l.numClosureSlots = 0)
    (happ : Applied l items (A :: rest))
    (hself : ∀ B ∈ A :: rest, B.self = true → B.l.numClosureSlots = 0) : ClosureOk A rest := by
  have hA := applied_sound hl hzero happ
  refine ⟨fun name v hm => ?_, ⟨hA.body.slotsOk.nodup, fun v => hA.body.slotsOk.number_lt⟩, ?_⟩
  · obtain ⟨hv, rfl⟩ := hA.body.reference_mem hm
    exact exists_binding hl hzero happ hself hv
  · rcases hA.closure with h₀ | ⟨a, f, data, hobj, hlen⟩
    · exact .inl h₀
    · by_cases h : A.self = true
      · exact .inl (hself A List.mem_cons_self h)
      · rw [if_neg h] at hlen
        exact .inr ⟨a, f, data, hobj, hlen.ge⟩

/-- A closure without data is enough for a function that captures nothing. -/
theorem ClosureOk.numClosureSlots (h : ClosureOk A rest) (hA : Sound A rest)
    (hself : A.self = true) : A.l.numClosureSlots = 0 := by
  rcases h.enough with h₀ | ⟨a, f, data, hobj, hle⟩
  · exact h₀
  · rcases hA.closure with h₀ | ⟨a', f', data', hobj', hlen⟩
    · exact h₀
    · rw [if_pos hself] at hlen
      obtain ⟨-, -, rfl⟩ : a = a' ∧ f = f' ∧ data = data' := by simpa using hobj.symm.trans hobj'
      omega

theorem closuresOk_iff_self (hl : HasBody l items) (hzero : l.numClosureSlots = 0)
    (happ : Applied l items chain) : (∀ A rest, (A :: rest) <:+ chain → ClosureOk A rest) ↔
      ∀ A ∈ chain, A.self = true → A.l.numClosureSlots = 0 := by
  constructor
  · intro h A hA hself
    obtain ⟨front, rest, rfl⟩ := List.append_of_mem hA
    have hs : (A :: rest) <:+ front ++ A :: rest := List.suffix_append _ _
    exact (h A rest hs).numClosureSlots (applied_sound hl hzero (happ.of_suffix hs)) hself
  · intro hself A rest hs
    exact closureOk_of_self hl hzero (happ.of_suffix hs) fun B hB => hself B (hs.subset hB)

/-- In every function of a chain, what is read for a variable is what its binding held when the
closure was created.  It is so, and every closure has a slot for everything that is captured,
unless a closure has been applied that `(function f)` makes in an `f` that captures something. -/
theorem closuresOk_iff {R : Runtime} {n : ℕ} {v : Word} {name : Option String} {path : String}
    {s s' : State} {ar : Args} {c d : Code}
    (h : (compiler R n).compileFunction v false name path s = .ok (ar, l, d) c s') :
    (∃ items, Traced [.new name path] d items [l]) ∧
    ∀ items, Traced [.new name path] d items [l] → DistinctNames [l] items →
      ∀ chain, Applied l items chain →
        ((∀ A rest, (A :: rest) <:+ chain → ClosureOk A rest) ↔
          ∀ A ∈ chain, A.self = true → ∀ name, Refers name A.items → name ∈ A.l.binderNames) := by
  refine ⟨exists_traced h, fun items ht hd chain happ => ?_⟩
  have hl : HasBody l items := ⟨name, path, [], d, [], ht, by simp, trivial, hd⟩
  have hzero : l.numClosureSlots = 0 := by simpa [outermostSlots, Local.new] using ht.outermostSlots
  refine (closuresOk_iff_self hl hzero happ).trans (forall₂_congr fun A hA => imp_congr_right ?_)
  intro hself
  obtain ⟨front, rest, rfl⟩ := List.append_of_mem hA
  have hA := applied_sound hl hzero (happ.of_suffix (List.suffix_append _ _))
  exact hA.body.numClosureSlots_eq_zero_iff

end Chains

/-! ### Two chains -/

deriving instance DecidableEq for Notes, Local

/-- The code at an address. -/
def codeAt : Val → Option CodePtr
  | .imm (.code f) => some f
  | .here => some (.builtin "recurse")
  | _ => none

/-- `create_closure`, with the captured values all `nil`, and `set_closure_capture_variable`. -/
def closureAnswer (f : Val) (m : Machine) : Option Machine :=
  match f, m.stack m.esp, m.stack (m.esp + 4), m.stack (m.esp + 8) with
  | .entry .createClosure, x, .imm (.args a), .imm (.nat n) =>
    let p := Runtime.inert.malloc m.heap
    (codeAt x).map fun f => { m with
      eax := Val.word (p + closureTag)
      heap := m.heap.set p (.closure a f (List.replicate n nil)) }
  | .entry .setClosureCaptureVariable, .imm (.nat k), .imm (.word w), .imm (.word v) =>
    match m.heap.obj (pointer v) with
    | some (.closure a f data) =>
      if closurep v ∧ k < data.length then
        some { m with heap := m.heap.set (pointer v) (.closure a f (data.set k w)) }
      else none
    | _ => none
  | _, _, _, _ => none

theorem closureCall_of_answer {f : Val} {m m' : Machine} (h : callsOf closureAnswer f m m') :
    ClosureCall f m m' := by
  unfold callsOf closureAnswer at h
  split at h
  · rename_i a n ha hn
    obtain ⟨g, hg, rfl⟩ := Option.map_eq_some_iff.1 h
    have hcode : m.stack m.esp = .imm (.code g) ∨ m.stack m.esp = .here := by
      unfold codeAt at hg
      split at hg
      · next hx => exact .inl (hx.trans (by rw [Option.some.inj hg]))
      · next hx => exact .inr hx
      · cases hg
    exact .create hcode ha hn List.length_replicate (Runtime.inert.fresh _)
      (Runtime.inert.aligned _) ⟨rfl, rfl, rfl, rfl, fun _ _ => rfl⟩ rfl rfl
  · rename_i k w v hk hw hv
    split at h
    · rename_i ho
      split_ifs at h with hif
      obtain rfl := Option.some.inj h
      exact .set hk hw hv hif.1 ho hif.2 ⟨rfl, rfl, rfl, rfl, fun _ _ => rfl⟩ rfl
    · cases h
  · cases h

theorem run_closureCall (pre c post : Code) (k : ℕ) (m : Machine) :
    (machine ClosureCall (pre ++ c ++ post)).Run m (m.run closureAnswer pre c post k).1
      (m.run closureAnswer pre c post k).2 := by
  refine System.Run.mono ?_ (run_fragment_run closureAnswer pre c post k m)
  rintro m i m' ⟨-, hi, hexec | ⟨f, m₁, hf, hcall, rfl⟩⟩
  · exact ⟨hi, .inl hexec⟩
  · exact ⟨hi, .inr ⟨f, m₁, hf, closureCall_of_answer hcall, rfl⟩⟩

/-- `((x) (lambda (n) (function recurse) x))` -/
def selfBody : Sexp :=
  .list [.list [.symbol "x"], .list [.symbol "lambda", .list [.symbol "n"],
    .list [.symbol "function", .symbol "recurse"], .symbol "x"]]

/-- The arguments of the function and of its `lambda`. -/
def oneArg : Args := ⟨1, [], false⟩

def selfLocal : Local :=
  { Local.new none "" with
    args := oneArg
    first := [⟨"x", 0, .argument⟩]
    notes := ⟨[("x", 0)], 0, [], []⟩ }

def selfCreate : Code := closureCode 1 oneArg (.program 0) ++ captureCode ⟨"x", 0, .argument⟩ 0

def selfProgram : Code := setup 0 ++ selfCreate ++ cleanup

/-- The `lambda`. -/
def lambdaLocal : Local :=
  { Local.new (some "recurse") "" with
    args := oneArg
    first := [⟨"x", 0, .free⟩, ⟨"n", 0, .argument⟩]
    numClosureSlots := 1
    notes := ⟨[("n", 0)], 0, [], []⟩ }

def lambdaItems : List Item := [.self oneArg, .reference "x" ⟨"x", 0, .free⟩]

def lambdaProgram : Code := setup 0 ++ selfCode oneArg ++ [.loadFree 0] ++ cleanup

def selfItems : List Item := [.lambda lambdaLocal selfCreate lambdaItems]

theorem compileFunction_selfBody : ∃ ar c s', (compiler .inert 12).compileFunction
    selfBody.heap.2 false none "" selfBody.state = .ok (ar, selfLocal, selfProgram) c s' := by
  have hrun : ((compiler .inert 12).compileFunction selfBody.heap.2 false none ""
      selfBody.state).value.map (fun r => (r.2.1, r.2.2)) =
      some (selfLocal, selfProgram) := by decide
  obtain ⟨⟨ar, l, d⟩, c, s', hr, heq⟩ := Emitted.exists_of_value hrun
  obtain ⟨rfl, rfl⟩ := Prod.mk.inj heq
  exact ⟨ar, c, s', hr⟩

/-- The binder of a function of one argument is entered. -/
theorem traced_oneArg (l : Local) (name : String) (L : List Local) : Traced (l :: L) (setup 0) []
    ({ l.addBinder .argument name 0 with args := oneArg } :: L) := by
  have hbinder : Traced (l :: L) [] [] (l.addBinder .argument name 0 :: L) :=
    .binder (.inl rfl) name 0
  have hargs : Traced (l.addBinder .argument name 0 :: L) [] []
      ({ l.addBinder .argument name 0 with args := oneArg } :: L) :=
    .change (g := fun l => { l with args := oneArg }) (fun _ => rfl) fun _ => rfl
  exact (hbinder.append hargs).append (traced_plain (by simp [Instr.Plain]))

theorem traced_cleanup (L : List Local) : Traced L cleanup [] L :=
  traced_plain (by simp [cleanup, Instr.Plain])

theorem traced_lambda : Traced [.new (some "recurse") "", selfLocal] lambdaProgram lambdaItems
    [lambdaLocal, selfLocal] := by
  have hstart := traced_oneArg (.new (some "recurse") "") "n" [selfLocal]
  have hx : (findVariable "x" [{ (Local.new (some "recurse") "").addBinder .argument "n" 0 with
      args := oneArg }, selfLocal]).1 = some ⟨"x", 0, .free⟩ := by decide
  exact ((hstart.append (.self oneArg)).append (.reference hx (by decide))).append
    (traced_cleanup _)

theorem traced_self : Traced [.new none ""] selfProgram selfItems [selfLocal] := by
  have hx : (findVariable "x" [selfLocal]).1 = some ⟨"x", 0, .argument⟩ := by decide
  have hcapture : Captured lambdaLocal.first [selfLocal]
      (captureCode ⟨"x", 0, .argument⟩ 0 ++ []) [selfLocal] :=
    .take (v := ⟨"x", 0, .free⟩) rfl hx (by decide)
      (.skip (v := ⟨"n", 0, .argument⟩) (by decide) .nil)
  have hlambda := Traced.lambda (some "recurse") "" oneArg (.program 0) traced_lambda hcapture
  exact ((traced_oneArg (.new none "") "x" []).append hlambda).append (traced_cleanup _)

/-- In the function, before the closure is created. -/
def selfMachine : Machine :=
  ⟨4, .word nil, 0, 0, 0, false, fun _ => .word nil, Heap.ofList []⟩

/-- After the closure has been created. -/
def createdMachine : Machine :=
  (selfMachine.run closureAnswer (setup 0) selfCreate cleanup 12).2

/-- In the `lambda`. -/
def lambdaMachine : Machine := { createdMachine with pc := 4, edi := 8 }

/-- After the `lambda` has made a closure of itself. -/
def closedMachine : Machine :=
  (lambdaMachine.run closureAnswer (setup 0) (selfCode oneArg) ([.loadFree 0] ++ cleanup) 4).2

theorem run_create : (machine ClosureCall selfProgram).Run selfMachine selfCreate createdMachine := by
  have hrun := run_closureCall (setup 0) selfCreate cleanup 12 selfMachine
  have his : (selfMachine.run closureAnswer (setup 0) selfCreate cleanup 12).1 = selfCreate := by
    decide
  exact his ▸ hrun

theorem run_self : (machine ClosureCall lambdaProgram).Run lambdaMachine (selfCode oneArg)
    closedMachine := by
  have hrun := run_closureCall (setup 0) (selfCode oneArg) ([.loadFree 0] ++ cleanup) 4
    lambdaMachine
  have his : (lambdaMachine.run closureAnswer (setup 0) (selfCode oneArg)
      ([.loadFree 0] ++ cleanup) 4).1 = selfCode oneArg := by
    decide
  exact his ▸ hrun

theorem applied_lambda : Applied selfLocal selfItems
    [⟨lambdaLocal, lambdaItems, lambdaMachine, false⟩,
      ⟨selfLocal, selfItems, selfMachine, false⟩] := by
  have hkeep : ∀ u ∈ selfLocal.first, selfMachine.Keeps u := by
    simp [selfLocal, Machine.Keeps, selfMachine]
  have heax : createdMachine.eax = .word 14 := by decide
  exact .lambda (.outermost selfMachine) List.mem_cons_self hkeep run_create heax rfl rfl

/-- In the `lambda`, when it is called through the closure that it has made. -/
def recursedMachine : Machine := { closedMachine with pc := 4, edi := 72 }

theorem applied_self : Applied selfLocal selfItems
    [⟨lambdaLocal, lambdaItems, recursedMachine, true⟩,
      ⟨selfLocal, selfItems, selfMachine, false⟩] := by
  have heax : closedMachine.eax = .word 78 := by decide
  exact .self applied_lambda List.mem_cons_self run_self heax rfl rfl

theorem distinctNames_self : DistinctNames [selfLocal] selfItems := by
  simp [DistinctNames, selfItems, lambdaItems, selfLocal, lambdaLocal, lambdaNames,
    Item.binderNames, Local.binderNames]

theorem closuresOk_lambda : ∃ chain, Applied selfLocal selfItems chain ∧ chain.length = 2 ∧
    ∀ A rest, (A :: rest) <:+ chain → ClosureOk A rest := by
  obtain ⟨ar, c, s', hs⟩ := compileFunction_selfBody
  exact ⟨_, applied_lambda, rfl, ((closuresOk_iff hs).2 _ traced_self distinctNames_self _
    applied_lambda).2 (by simp)⟩

/-- **A closure that a `lambda` makes of itself has lost what the `lambda` had captured.** -/
theorem not_closuresOk : ¬ ∀ (R : Runtime) (n : ℕ) (v : Word) (name : Option String)
    (path : String) (s s' : State) (ar : Args) (l : Local) (c d : Code) (items : List Item)
    (chain : List Activation),
    (compiler R n).compileFunction v false name path s = .ok (ar, l, d) c s' →
      Traced [.new name path] d items [l] → DistinctNames [l] items → Applied l items chain →
      ∀ A rest, (A :: rest) <:+ chain → ClosureOk A rest := by
  intro h
  obtain ⟨ar, c, s', hs⟩ := compileFunction_selfBody
  have hok := h _ _ _ _ _ _ _ _ _ _ _ _ _ hs traced_self distinctNames_self applied_self _ _
    (List.suffix_refl _)
  obtain ⟨B, hB, u, hu, hne, hname, hread⟩ := hok.reads "x" ⟨"x", 0, .free⟩ (by simp [lambdaItems])
  have hnone : recursedMachine.read ⟨"x", 0, .free⟩ = none := by decide
  obtain rfl | rfl : B = _ ∨ B = _ := by simpa using hB
  · -- the `lambda` itself only binds `n`
    simp only [lambdaLocal, List.mem_cons, List.not_mem_nil, or_false] at hu
    rcases hu with rfl | rfl
    · exact hne rfl
    · exact absurd hname (by decide)
  · simp only [selfLocal, List.mem_cons, List.not_mem_nil, or_false] at hu
    subst hu
    exact absurd (hnone.symm.trans hread) (by simp [Machine.read])

end Lisp

end Bluejay
