import Bluejay.Lisp.Invariants
import Bluejay.Lisp.SelfCalls
import Bluejay.Lisp.Silent

/-!
# What stands next to each other

Code without tail calls is put together from pieces; what an instruction relies on around it is in
the same piece.

* `Tidy arity count c` : a jump follows a comparison, and behind a call the arguments are popped
  that it was passed.
* `Ready arity count s` : the function being compiled finds `count` words on the stack, which are
  those of its parameters; what `arity` says is true of the functions of the environment.
* `compiler_tidies` : the code of expressions that are not in tail position is tidy.
* `regular_body` : the code of a body whose calls are all compiled alike is `Regular`.
-/

namespace Bluejay

namespace Lisp

open Emitter

/-! ### Tidy code -/

/-- At least as much as `f` is passed by the call at `p` is popped behind it, or the call leaks it.
For the captures of a closure, the closure itself is one of the words. -/
def Pops (arity : CodePtr → ℕ) (q : Code) (p : ℕ) (f : Extern) : Prop :=
  (∃ n, q[p + 1]? = some (.addEsp n) ∧
    (4 * f.arity arity ≤ n ∨ 4 * f.arity arity ≤ n + 4 ∧ q[p + 2]? = some .popEax)) ∨
  4 * f.arity arity ≤ (Instr.call f).leak ∨
  f = .createClosure ∧ ∃ n, p = n + 1 ∧ q[n]? = some .pushHere

/-- What the instruction relies on at the position `p` of the code. -/
def Instr.Placed (arity : CodePtr → ℕ) (count : ℕ) (q : Code) (p : ℕ) : Instr → Prop
  | .here | .movEbpEsp | .subEsp _ | .movEspEbp | .popEbp | .ret | .jmpHere | .storeArgument _ =>
    False
  | .call f => Pops arity q p f
  | .callHere => q[p + 1]? = some (.addEsp (count * 4))
  | .callEax => ∃ n, p = n + 1 ∧ q[n]? = some (.movEaxExtern .doGc)
  | .je _ | .jne _ => ∃ n, p = n + 1 ∧ q[n]? = some .cmpEaxNil
  | .loadArgument k => k < count
  | .addEsp n => 4 ∣ n
  | _ => True

/-- Every instruction is placed where it can be. -/
def Tidy (arity : CodePtr → ℕ) (count : ℕ) (q : Code) : Prop :=
  ∀ (p : ℕ) (i : Instr), q[p]? = some i → i.Placed arity count q p

/-- The instruction relies on nothing around it. -/
def Instr.free : Instr → Bool
  | .pushEbp | .movEax _ | .pushEax | .popEax | .push _ | .cmpEaxNil | .jmp _ | .label _
  | .pushHere | .loadBound _ | .loadFree _ | .storeBound _ | .movEaxEsp | .movEaxExtern _ => true
  | _ => false

attribute [local simp] Instr.free

section Tidy

variable {arity : CodePtr → ℕ} {count : ℕ} {q q' : Code} {i : Instr} {p : ℕ}

/-- In a larger piece of code there is what was there before. -/
theorem Instr.Placed.shift (h : i.Placed arity count q p) (d : ℕ)
    (hc : ∀ n x, q[n]? = some x → q'[d + n]? = some x) : i.Placed arity count q' (d + p) := by
  cases i with
  | call f =>
    rcases h with ⟨n, hn, hle⟩ | hleak | ⟨hf, n, rfl, hn⟩
    · refine .inl ⟨n, hc _ _ hn, hle.imp_right fun h => ⟨h.1, hc _ _ h.2⟩⟩
    · exact .inr (.inl hleak)
    · exact .inr (.inr ⟨hf, d + n, rfl, hc _ _ hn⟩)
  | callHere => exact hc _ _ h
  | callEax | je | jne =>
    obtain ⟨n, rfl, hn⟩ := h
    exact ⟨d + n, rfl, hc _ _ hn⟩
  | _ => exact h

theorem Tidy.append (h : Tidy arity count q) (h' : Tidy arity count q') :
    Tidy arity count (q ++ q') := by
  intro p i hi
  rcases Nat.lt_or_ge p q.length with hp | hp
  · rw [List.getElem?_append_left hp] at hi
    have hplaced : i.Placed arity count (q ++ q') (0 + p) := (h p i hi).shift 0 fun n x hx => by
      rw [Nat.zero_add, List.getElem?_append_left (List.getElem?_eq_some_iff.1 hx).1, hx]
    rwa [Nat.zero_add] at hplaced
  · rw [List.getElem?_append_right hp] at hi
    have hplaced : i.Placed arity count (q ++ q') (q.length + (p - q.length)) :=
      (h' _ i hi).shift q.length fun n x hx => by
        rw [List.getElem?_append_right (Nat.le_add_right _ _), Nat.add_sub_cancel_left, hx]
    rwa [Nat.add_sub_cancel' hp] at hplaced

theorem tidy_of_free (h : ∀ i ∈ q, i.free) : Tidy arity count q := by
  intro p i hi
  have hfree := h i (List.mem_of_getElem? hi)
  cases i <;> trivial

theorem tidy_nil : Tidy arity count [] := tidy_of_free nofun

theorem tidy_jump (or : Bool) (l : ℕ) :
    Tidy arity count [.cmpEaxNil, if or then .jne l else .je l] := by
  rintro (_ | _ | p) i hi
  · obtain rfl : .cmpEaxNil = i := Option.some.inj hi
    trivial
  · obtain rfl : (if or then .jne l else .je l) = i := Option.some.inj hi
    cases or <;> exact ⟨0, rfl, rfl⟩
  · cases hi

/-- A call, behind which its arguments are popped. -/
theorem tidy_call {f : Extern} {n : ℕ} (hn : 4 * f.arity arity ≤ n) (hdvd : 4 ∣ n) :
    Tidy arity count [.call f, .addEsp n] := by
  rintro (_ | _ | p) i hi
  · obtain rfl : .call f = i := Option.some.inj hi
    exact .inl ⟨n, rfl, .inl hn⟩
  · obtain rfl : .addEsp n = i := Option.some.inj hi
    exact hdvd
  · cases hi

theorem tidy_selfCall : Tidy arity count [.callHere, .addEsp (count * 4)] := by
  rintro (_ | _ | p) i hi
  · obtain rfl : .callHere = i := Option.some.inj hi
    exact rfl
  · obtain rfl : .addEsp (count * 4) = i := Option.some.inj hi
    exact Nat.dvd_mul_left 4 count
  · cases hi

/-- A call that leaves its arguments on the stack. -/
theorem tidy_leak {f : Extern} (hf : 4 * f.arity arity ≤ (Instr.call f).leak) :
    Tidy arity count [.call f] := by
  rintro (_ | p) i hi
  · obtain rfl : .call f = i := Option.some.inj hi
    exact .inr (.inl hf)
  · cases hi

theorem tidy_runGc : Tidy arity count runGc := by
  have hfront : Tidy arity count [.movEaxEsp, .pushEbp, .pushEax] :=
    tidy_of_free (by simp)
  have hcall : Tidy arity count [.movEaxExtern .doGc, .callEax] := by
    rintro (_ | _ | p) i hi
    · obtain rfl : .movEaxExtern .doGc = i := Option.some.inj hi
      trivial
    · obtain rfl : .callEax = i := Option.some.inj hi
      exact ⟨0, rfl, rfl⟩
    · cases hi
  exact hfront.append hcall

/-- The closure of the function being compiled. -/
theorem tidy_pushHere : Tidy arity count [.pushHere, .call .createClosure] := by
  rintro (_ | _ | p) i hi
  · obtain rfl : .pushHere = i := Option.some.inj hi
    trivial
  · obtain rfl : .call .createClosure = i := Option.some.inj hi
    exact .inr (.inr ⟨rfl, 0, rfl, rfl⟩)
  · cases hi

/-- The closure stays on the stack while a variable is captured. -/
theorem tidy_capture : Tidy arity count [.call .setClosureCaptureVariable, .addEsp 8, .popEax] := by
  rintro (_ | _ | _ | p) i hi
  · obtain rfl : .call .setClosureCaptureVariable = i := Option.some.inj hi
    exact .inl ⟨8, rfl, .inr ⟨le_rfl, rfl⟩⟩
  · obtain rfl : .addEsp 8 = i := Option.some.inj hi
    exact ⟨2, rfl⟩
  · obtain rfl : .popEax = i := Option.some.inj hi
    trivial
  · cases hi

theorem tidy_consCode : Tidy arity count consCode :=
  (tidy_of_free (q := [.pushEax]) (by simp)).append
    ((tidy_call (f := .cons) le_rfl ⟨2, rfl⟩).append (tidy_of_free (q := [.pushEax])
      (by simp)))

theorem tidy_mergeCode : Tidy arity count mergeCode :=
  (tidy_of_free (q := [.pushEax]) (by simp)).append
    ((tidy_call (f := .merge2) le_rfl ⟨2, rfl⟩).append (tidy_of_free (q := [.pushEax])
      (by simp)))

theorem tidy_loadCode {v : Variable} (hv : v.type = .argument → v.number < count) :
    Tidy arity count (loadCode v) := by
  unfold loadCode
  cases ht : v.type with
  | argument =>
    rintro (_ | p) i hi
    · obtain rfl : .loadArgument v.number = i := Option.some.inj hi
      exact hv ht
    · cases hi
  | _ => exact tidy_of_free (by simp)

/-- What is called finds as many words on the stack as are popped behind the call. -/
theorem passes_of_pops {Γ : ℕ → ℤ} (ht : Typed Γ 0 q 0) {f : Extern}
    (hf : q[p]? = some (.call f)) (h : Pops arity q p f) :
    4 * (f.arity arity : ℤ) ≤ heightAt q p ∨
      f = .createClosure ∧ ∃ n, p = n + 1 ∧ q[n]? = some .pushHere := by
  have hcall := heightAt_succ_of_typed ht hf
    (show stackHeights.effect (.call f) = some (0 - ((Instr.call f).leak : ℤ)) from rfl)
  have hnn : ∀ k, 0 ≤ heightAt q k := ht.height_take_nonneg
  have hnn₁ := hnn (p + 1)
  rcases h with ⟨n, hn, hle⟩ | hleak | hself
  · have hadd := heightAt_succ_of_typed ht hn
      (show stackHeights.effect (.addEsp n) = some (-(n : ℤ) - (0 : ℕ)) from rfl)
    have hnn₂ := hnn (p + 1 + 1)
    rcases hle with hle | ⟨hle, hpop⟩
    · left
      omega
    · have hdrop := heightAt_succ_of_typed ht (p := p + 1 + 1) hpop
        (show stackHeights.effect .popEax = some (-4) from rfl)
      have hnn₃ := hnn (p + 1 + 1 + 1)
      left
      omega
  · left
    omega
  · exact .inr hself

theorem regular_of_tidy (h : Tidy arity count q) (ht : ∃ Γ, Typed Γ 0 q 0)
    (hu : stackHeights.LabelsUnique q) : Regular arity count q where
  typed := ht
  unique := hu
  inBody {p i} hi := by
    have hplaced := h p i hi
    cases i <;> first | rfl | cases hplaced
  passes {p f} hf := by
    obtain ⟨Γ, ht⟩ := ht
    exact passes_of_pops ht hf (h p _ hf)
  gc hi := h _ _ hi
  flag hi := hi.elim (h _ _) (h _ _)
  self hi := h _ _ hi
  argument hi := h _ _ hi
  aligned hi := h _ _ hi

end Tidy

/-! ### Runs of the compiler -/

/-- The functions of the environment find one word on the stack for each parameter. -/
def Arities (arity : CodePtr → ℕ) (w : World) : Prop :=
  ∀ f ∈ w.env, arity f.codePtr = realNargs f.args

/-- The function being compiled finds `count` words on the stack, its parameters among them. -/
def Finds (count : ℕ) (L : List Local) : Prop := ∀ l ∈ L.head?, realNargs l.args = count ∧
  ∀ v ∈ l.first, v.type = .argument → v.number < count

/-- What the compiler knows of the functions that it emits calls of. -/
structure Ready (arity : CodePtr → ℕ) (count : ℕ) (s : State) : Prop where
  finds : Finds count s.locals
  arities : Arities arity s.world

/-- The run emits tidy code. -/
def TidyRun (arity : CodePtr → ℕ) (count : ℕ) (s : State) (c : Code) (s' : State) : Prop :=
  Ready arity count s → Ready arity count s' ∧ Tidy arity count c

theorem composable_tidyRun (arity : CodePtr → ℕ) (count : ℕ) :
    Composable (TidyRun arity count) where
  refl _ hs := ⟨hs, tidy_nil⟩
  trans h h' hs := by
    obtain ⟨hs₁, hc⟩ := h hs
    obtain ⟨hs₂, hc'⟩ := h' hs₁
    exact ⟨hs₂, hc.append hc'⟩

/-- The runs that succeed emit tidy code. -/
abbrev Tidies (arity : CodePtr → ℕ) (count : ℕ) {α : Type} (m : CompileM α) : Prop :=
  Relates (TidyRun arity count) m

/-- The functions of `C` emit tidy code, for what is not in tail position. -/
structure Compiler.Tidies (arity : CodePtr → ℕ) (count : ℕ) (C : Compiler) : Prop where
  expr : ∀ v, Lisp.Tidies arity count (C.compileExpression v false)
  backquote : ∀ v, Lisp.Tidies arity count (C.compileBackquote v)
  function : ∀ v name path, Lisp.Tidies arity count (C.compileFunction v true name path)

section Finds

variable {count : ℕ} {L L' : List Local} {g : Local → Local} {name : String} {v : Variable}

theorem Finds.modifyHead (h : Finds count L) (hargs : ∀ l, (g l).args = l.args)
    (hfirst : ∀ l, ∀ v ∈ (g l).first, v.type = .argument → v ∈ l.first) :
    Finds count (L.modifyHead g) := by
  cases L with
  | nil => exact h
  | cons l rest =>
    intro l' hl'
    obtain rfl : g l = l' := Option.some.inj hl'
    obtain ⟨hcount, hnum⟩ := h l rfl
    exact ⟨by rw [hargs, hcount], fun v hv ht => hnum v (hfirst l v hv ht) ht⟩

theorem Finds.captures (h : Finds count L) (hL : List.Forall₂ Captures L L') :
    Finds count L' := by
  cases hL with
  | nil => exact h
  | cons hl _ =>
    obtain ⟨vars, hfree, rfl⟩ := hl
    intro l' hl'
    obtain rfl := Option.some.inj hl'
    obtain ⟨hcount, hnum⟩ := h _ rfl
    refine ⟨hcount, fun v hv ht => ?_⟩
    rcases List.mem_append.1 hv with hv | hv
    · rw [hfree v hv] at ht
      cases ht
    · exact hnum v hv ht

/-- A parameter that is found is one of those on the stack. -/
theorem Finds.number_lt (h : Finds count L) (hv : (findVariable name L).1 = some v)
    (ht : v.type = .argument) : v.number < count := by
  cases L with
  | nil => cases hv
  | cons l parents =>
    unfold findVariable at hv
    split at hv
    · rename_i u hu
      obtain rfl := Option.some.inj hv
      exact (h l rfl).2 u (List.mem_of_find?_eq_some hu) ht
    · split at hv
      · obtain rfl := Option.some.inj hv
        cases ht
      · cases hv

end Finds

/-- The program emits nothing, and keeps what the compiler knows. -/
structure Idle (arity : CodePtr → ℕ) {α : Type} (m : CompileM α) : Prop where
  quiet : Quiet m
  keeps : Keeps (Also (fun _ => True) (Arities arity)) m

section Idle

variable {arity : CodePtr → ℕ} {count : ℕ} {α β : Type} {m : CompileM α} {f : α → CompileM β}

theorem Idle.tidies (h : Idle arity m) : Tidies arity count m := by
  intro s a c s' hok hs
  obtain ⟨rfl, hl⟩ := h.quiet s a c s' hok
  have hkeeps := h.keeps.of_ok hok ⟨trivial, hs.arities⟩
  exact ⟨⟨hl ▸ hs.finds, hkeeps.2⟩, tidy_nil⟩

theorem Tidies.bind (hm : Tidies arity count m) (hf : ∀ a, Tidies arity count (f a)) :
    Tidies arity count (m >>= f) :=
  Relates.bind hm (composable_tidyRun arity count) hf

/-- Steps that emit nothing and leave the `struct local`s alone. -/
theorem Idle.bind (hm : Idle arity m) (hf : ∀ a, Tidies arity count (f a)) :
    Tidies arity count (m >>= f) :=
  Tidies.bind hm.tidies hf

theorem idle_car (v : Word) : Idle arity (car v) := ⟨quiet_car v, keeps_car v⟩

theorem idle_cdr (v : Word) : Idle arity (cdr v) := ⟨quiet_cdr v, keeps_cdr v⟩

theorem idle_elt (v : Word) (i : ℕ) : Idle arity (elt v i) := ⟨quiet_elt v i, keeps_elt v i⟩

theorem idle_symstreq (v : Word) (str : String) : Idle arity (symstreq v str) :=
  ⟨quiet_symstreq v str, keeps_symstreq v str⟩

theorem idle_listp (v : Word) : Idle arity (listp v) := ⟨quiet_listp v, keeps_listp v⟩

theorem idle_length (v : Word) : Idle arity (length v) := ⟨quiet_length v, keeps_length v⟩

theorem idle_symbolName (v : Word) : Idle arity (symbolName v) :=
  ⟨quiet_symbolName v, keeps_symbolName v⟩

theorem idle_throwIf {p : Prop} [Decidable p] {code : ErrorCode} {message : String} :
    Idle arity (throwIf p code message) :=
  ⟨quiet_throwIf, keeps_throwIf⟩

theorem idle_findFunction (name : String) : Idle arity (findFunction name) :=
  ⟨quiet_findFunction name, keeps_findFunction name⟩

theorem idle_getLocal : Idle arity getLocal := ⟨quiet_getLocal, keeps_getLocal⟩

theorem idle_isSplice (v : Word) : Idle arity (isSplice v) := ⟨quiet_isSplice v, keeps_isSplice v⟩

theorem tidies_pure (a : α) : Tidies arity count (pure a : CompileM α) :=
  relates_pure (composable_tidyRun arity count) a

theorem tidies_stop (e : Err) : Tidies arity count (stop e : CompileM α) := relates_stop e

theorem tidies_emit {c : Code} (hc : Tidy arity count c) : Tidies arity count (emit c) :=
  relates_emit fun _ hs => ⟨hs, hc⟩

/-- Instructions that rely on nothing around them. -/
theorem tidies_emit_free {c : Code} (hc : ∀ i ∈ c, i.free) : Tidies arity count (emit c) :=
  tidies_emit (tidy_of_free hc)

theorem tidies_ite {p : Prop} [Decidable p] {m' : CompileM α} (hm : Tidies arity count m)
    (hm' : Tidies arity count m') : Tidies arity count (if p then m else m') :=
  relates_ite hm hm'

theorem tidies_when {p : Prop} [Decidable p] {m : CompileM Unit} (hm : Tidies arity count m) :
    Tidies arity count (when p m) :=
  relates_when (composable_tidyRun arity count) hm

/-- A change of the `struct local` that leaves the parameters as they are. -/
theorem tidies_modifyLocal {g : Local → Local} (hargs : ∀ l, (g l).args = l.args)
    (hfirst : ∀ l, ∀ v ∈ (g l).first, v.type = .argument → v ∈ l.first) :
    Tidies arity count (modifyLocal g) :=
  relates_modify fun _ hs => ⟨⟨hs.finds.modifyHead hargs hfirst, hs.arities⟩, tidy_nil⟩

theorem tidies_nextpc : Tidies arity count nextpc :=
  idle_getLocal.bind fun _ => (tidies_modifyLocal (g := Local.nextLabel) (fun _ => rfl)
    fun _ _ hv _ => hv).bind fun _ => tidies_pure _

theorem alloc_snd (l : Local) : l.alloc.2.args = l.args ∧ l.alloc.2.first = l.first := by
  unfold Local.alloc
  split <;> exact ⟨rfl, rfl⟩

theorem tidies_localAlloc : Tidies arity count localAlloc :=
  idle_getLocal.bind fun _ => (tidies_modifyLocal (g := Local.allocSlot)
    (fun l => (alloc_snd l).1) fun l _ hv _ => (alloc_snd l).2 ▸ hv).bind fun _ => tidies_pure _

theorem tidies_localFree (slot : ℕ) : Tidies arity count (localFree slot) :=
  tidies_modifyLocal (g := Local.freeSlot slot) (fun _ => rfl) fun _ _ hv _ => hv

/-- A variable of a `let1` is no parameter. -/
theorem tidies_bindLocal (name : String) (i : ℕ) :
    Tidies arity count (modifyLocal (Local.addBinder .bound name i)) := by
  refine tidies_modifyLocal (g := Local.addBinder .bound name i) (fun _ => rfl) fun l v hv ht => ?_
  rcases List.mem_cons.1 hv with rfl | hv
  · cases ht
  · exact hv

theorem tidies_forList {body : Word → CompileM Unit} (hb : ∀ v, Tidies arity count (body v))
    (n : ℕ) (v : Word) : Tidies arity count (forList body n v) := by
  induction n generalizing v with
  | zero => exact tidies_stop _
  | succ n ih =>
    exact tidies_ite (tidies_pure ()) ((hb v).bind fun _ => (idle_cdr v).bind fun w => ih w)

/-- A variable is looked up and read. -/
theorem tidies_lookUp {name : String} {e : CompileM Unit} (he : Tidies arity count e) :
    Tidies arity count (lookUp name >>= fun v => match v with
      | none => e
      | some v => compileVariable v) := by
  intro s u c s' h hs
  rw [bind_of_ok (show lookUp name s = .ok (findVariable name s.locals).1 []
    { s with locals := (findVariable name s.locals).2 } from rfl)] at h
  have hs₁ : Ready arity count { s with locals := (findVariable name s.locals).2 } :=
    ⟨hs.finds.captures (captures_findVariable name s.locals), hs.arities⟩
  cases hv : (findVariable name s.locals).1 with
  | none =>
    rw [hv] at h
    exact he _ _ _ _ h hs₁
  | some v =>
    rw [hv] at h
    obtain ⟨rfl, -, rfl⟩ := compileVariable_ok h
    exact ⟨hs₁, tidy_loadCode (hs.finds.number_lt hv)⟩

end Idle

section Functions

variable {arity : CodePtr → ℕ} {count : ℕ} {R : Runtime} {C : Compiler}
  (hR : StableIn R (fun _ => True) (Arities arity))

include hR

theorem idle_allocate (o : Obj) (tag : ℕ) : Idle arity (allocate R o tag) :=
  ⟨quiet_allocate R o tag, keeps_allocate hR o tag⟩

theorem idle_pushPool (pool : ℕ) : Idle arity (pushPool pool) :=
  ⟨quiet_pushPool pool, keeps_pushPool hR pool⟩

theorem idle_popPool (pool : ℕ) : Idle arity (popPool pool) :=
  ⟨quiet_modifyWorld _, keeps_modifyWorld hR fun _ => .pools _ _⟩

theorem idle_callList (f : Function) (list : Word) : Idle arity (callList R f list) :=
  ⟨quiet_callList R f list, keeps_callList hR f list⟩

theorem idle_linkProgram (d : Code) : Idle arity (linkProgram d) :=
  ⟨quiet_linkProgram d, keeps_linkProgram hR d⟩

theorem idle_noteOccurrence (name : String) : Idle arity (noteOccurrence name) :=
  ⟨quiet_noteOccurrence name, keeps_noteOccurrence hR name⟩

theorem tidies_compileSymbol (val : Word) : Tidies arity count (compileSymbol R val) := by
  refine (idle_symstreq _ _).bind fun _ => tidies_ite ?_ ?_
  · exact idle_getLocal.bind fun _ => (idle_allocate hR _ _).bind fun _ =>
      tidies_emit_free (by simp)
  refine (idle_symstreq _ _).bind fun _ => tidies_ite (tidies_emit_free (by simp)) ?_
  exact (idle_symbolName _).bind fun _ => (idle_noteOccurrence hR _).bind fun _ =>
    tidies_lookUp (tidies_stop _)

theorem tidies_compileFunctionForm (args : Word) (nargs : ℕ) :
    Tidies arity count (compileFunctionForm R args nargs) := by
  refine idle_throwIf.bind fun _ => (idle_car _).bind fun _ => idle_throwIf.bind fun _ =>
    (idle_symbolName _).bind fun name => idle_getLocal.bind fun l => ?_
  cases l.currentFunctionName with
  | none => exact tidies_stop _
  | some current =>
    refine tidies_ite (tidies_emit ?_) ((idle_findFunction _).bind fun f => ?_)
    · exact (tidy_of_free (q := [.push (.nat 0), .push (.args l.args)])
        (by simp)).append tidy_pushHere
    cases f with
    | none => exact tidies_stop _
    | some f => exact (idle_allocate hR _ _).bind fun _ =>
        tidies_emit_free (by simp)

omit hR in
theorem tidies_compileCaptures (vars : List Variable) :
    Tidies arity count (compileCaptures vars) := by
  induction vars with
  | nil => exact tidies_pure _
  | cons v vars ih =>
    refine Tidies.bind (tidies_when ?_) fun _ => ih
    refine (tidies_emit_free (by simp)).bind fun _ =>
      (tidies_lookUp (tidies_stop _)).bind fun _ => tidies_emit ?_
    exact (tidy_of_free (q := [.pushEax, .push (.nat v.number)])
      (by simp)).append tidy_capture

variable (hC : C.Tidies arity count)

include hC

omit hR in
theorem tidies_compileArguments (args : Word) (lo hi : ℕ) {after : Code}
    (ha : Tidy arity count after) : Tidies arity count (compileArguments C args lo hi after) :=
  relates_forDown (composable_tidyRun arity count) (fun _ => (idle_elt _ _).bind fun _ =>
    (hC.expr _).bind fun _ => tidies_emit ha) _ _

omit hR in
theorem tidies_compileBody (body : Word) : Tidies arity count (compileBody C body false) :=
  tidies_forList (fun _ => (idle_cdr _).bind fun _ => (idle_car _).bind fun _ => hC.expr _) _ _

omit hR in
theorem tidies_compileBackquote (val : Word) : Tidies arity count (compileBackquote C val) := by
  refine (idle_listp _).bind fun _ => tidies_ite (tidies_emit_free (by simp)) ?_
  refine (idle_car _).bind fun _ => (idle_cdr _).bind fun _ => (idle_length _).bind fun _ =>
    (idle_length _).bind fun _ => (idle_symstreq _ _).bind fun _ => tidies_ite ?_ ?_
  · exact idle_throwIf.bind fun _ => (idle_car _).bind fun _ => hC.expr _
  refine (tidies_emit_free (by simp)).bind fun _ => Tidies.bind ?_ fun _ =>
    tidies_emit_free (by simp)
  refine relates_forDown (composable_tidyRun arity count) (fun _ => (idle_elt _ _).bind fun _ =>
    (idle_isSplice _).bind fun _ => tidies_ite ?_ ?_) _ _
  · exact (idle_length _).bind fun _ => idle_throwIf.bind fun _ => (idle_cdr _).bind fun _ =>
      (idle_car _).bind fun _ => (hC.expr _).bind fun _ => tidies_emit tidy_mergeCode
  · exact (hC.backquote _).bind fun _ => tidies_emit tidy_consCode

omit hR in
theorem tidies_compilePassing (args : Word) (nargs : ℕ) (needed : Args) :
    Tidies arity count (compilePassing C args nargs needed) := by
  refine Tidies.bind ?_ fun _ => tidies_compileArguments hC _ _ _
    (tidy_of_free (by simp))
  refine (tidies_when (tidies_emit_free (by simp))).bind fun _ =>
    (tidies_when (tidies_compileArguments hC _ _ _ tidy_consCode)).bind fun _ =>
      tidies_emit_free ?_
  intro i hi
  obtain ⟨o, -, rfl⟩ := List.mem_map.1 hi
  rfl

omit hR in
theorem tidies_compileIf (args : Word) (nargs : ℕ) :
    Tidies arity count (compileIf C args nargs false) :=
  idle_throwIf.bind fun _ => (idle_car _).bind fun _ => (hC.expr _).bind fun _ =>
    tidies_nextpc.bind fun _ => tidies_nextpc.bind fun _ =>
    (tidies_emit (tidy_jump false _)).bind fun _ => (idle_elt _ _).bind fun _ =>
    (hC.expr _).bind fun _ => (tidies_emit_free (by simp)).bind fun _ =>
    (tidies_when ((idle_elt _ _).bind fun _ => hC.expr _)).bind fun _ =>
    tidies_emit_free (by simp)

omit hR in
theorem tidies_compileAndOr (args : Word) (nargs : ℕ) (or : Bool) :
    Tidies arity count (compileAndOr C args nargs or) :=
  idle_throwIf.bind fun _ => tidies_nextpc.bind fun _ =>
    (tidies_forList (fun _ => (idle_car _).bind fun _ => (hC.expr _).bind fun _ =>
      (idle_cdr _).bind fun _ => tidies_when (tidies_emit (tidy_jump or _))) _ _).bind fun _ =>
    tidies_emit_free (by simp)

omit hR in
theorem tidies_compileLet1 (args : Word) (nargs : ℕ) :
    Tidies arity count (compileLet1 C args nargs false) :=
  idle_throwIf.bind fun _ => (idle_car _).bind fun _ => (idle_cdr _).bind fun _ =>
    (idle_length _).bind fun _ => idle_throwIf.bind fun _ => (idle_car _).bind fun _ =>
    (idle_cdr _).bind fun _ => (idle_car _).bind fun _ => (hC.expr _).bind fun _ =>
    tidies_localAlloc.bind fun i => (idle_symbolName _).bind fun name =>
    (tidies_bindLocal name i).bind fun _ =>
    (tidies_emit_free (by simp)).bind fun _ => (tidies_compileBody hC _).bind
      fun _ => (tidies_localFree _).bind fun _ =>
    tidies_modifyLocal (g := Local.closeBinder) (fun _ => rfl) fun _ _ hv _ => hv

theorem tidies_compileLambda (args : Word) : Tidies arity count (compileLambda C args) :=
  idle_getLocal.bind fun _ => (hC.function _ _ _).bind fun r =>
    (idle_linkProgram hR _).bind fun p => (tidies_emit ((tidy_of_free (q := [
      .push (.nat r.2.1.numClosureSlots), .push (.args r.1), .push (.code p)])
      (by simp)).append (tidy_call (f := .createClosure) le_rfl ⟨3, rfl⟩))).bind
    fun _ => tidies_compileCaptures _

/-- The words that a function finds on the stack are passed to it. -/
theorem tidies_compileCall (fsym args : Word) (nargs : ℕ) :
    Tidies arity count (compileCall R C fsym args nargs false) := by
  intro s u c s' h hs
  obtain ⟨name, -, -, h⟩ := symbolName_bind h
  rw [bind_of_ok (show findFunction name s =
    .ok (s.world.env.find? fun g => g.name = name) [] s from rfl)] at h
  obtain ⟨l, rest, hl, h⟩ := getLocal_cons h
  have hcount : realNargs l.args = count := (hs.finds l (by rw [hl]; rfl)).1
  dsimp only at h
  by_cases hr : l.currentFunctionName = some name
  · simp only [hr, decide_true, if_true] at h
    obtain ⟨-, h⟩ := throwIf_bind h
    obtain ⟨_, c₁, s₁, c₂, rfl, hpass, hcall⟩ := bind_ok_iff.1 h
    obtain ⟨c₃, rfl, hdrop⟩ := emit_bind hcall
    obtain ⟨rfl, rfl⟩ := emit_ok_iff.1 hdrop
    obtain ⟨hs₁, hc₁⟩ := tidies_compilePassing hC _ _ _ _ _ _ _ hpass hs
    rw [hcount, if_neg Bool.false_ne_true]
    exact ⟨hs₁, hc₁.append tidy_selfCall⟩
  · simp only [hr, decide_false, Bool.false_eq_true, if_false] at h
    cases hfind : s.world.env.find? (fun g => g.name = name) with
    | none =>
      rw [hfind] at h
      cases h
    | some f =>
      rw [hfind] at h
      obtain ⟨-, h⟩ := throwIf_bind h
      have harity := hs.arities f (List.mem_of_find?_eq_some hfind)
      obtain ⟨fname, fargs, _ | _ | _, code⟩ := f
      · refine (tidies_compilePassing hC _ _ _).bind (fun _ => tidies_emit ?_) _ _ _ _ h hs
        refine tidy_call ?_ (Nat.dvd_mul_left 4 _)
        rw [Nat.mul_comm]
        exact Nat.mul_le_mul_right 4 harity.le
      · exact ((idle_pushPool hR _).bind fun _ => (idle_callList hR _ _).bind fun _ =>
          (idle_popPool hR _).bind fun _ => hC.expr _) _ _ _ _ h hs
      · exact tidies_pure () _ _ _ _ h hs

theorem tidies_compileForm (val : Word) : Tidies arity count (compileForm R C val false) := by
  have harg : ∀ args (k : Word → CompileM Unit), (∀ v, Tidies arity count (k v)) →
      Tidies arity count (car args >>= k) := fun args k hk => (idle_car args).bind hk
  refine (idle_car _).bind fun fsym => (idle_cdr _).bind fun args => (idle_length _).bind
    fun nargs => idle_throwIf.bind fun _ => ?_
  -- the forms are tried in the order of the source
  refine (idle_symstreq _ _).bind fun _ => tidies_ite (tidies_compileIf hC _ _) ?_
  refine (idle_symstreq _ _).bind fun _ => tidies_ite (tidies_compileAndOr hC _ _ _) ?_
  refine (idle_symstreq _ _).bind fun _ => tidies_ite (tidies_compileAndOr hC _ _ _) ?_
  refine (idle_symstreq _ _).bind fun _ => tidies_ite (tidies_compileBody hC _) ?_
  refine (idle_symstreq _ _).bind fun _ => tidies_ite (tidies_compileLet1 hC _ _) ?_
  refine (idle_symstreq _ _).bind fun _ => tidies_ite
    (idle_throwIf.bind fun _ => tidies_emit tidy_runGc) ?_
  refine (idle_symstreq _ _).bind fun _ => tidies_ite (idle_throwIf.bind fun _ => harg _ _
    fun _ => tidies_emit_free (by simp)) ?_
  refine (idle_symstreq _ _).bind fun _ => tidies_ite (idle_throwIf.bind fun _ => harg _ _
    fun _ => hC.backquote _) ?_
  refine (idle_symstreq _ _).bind fun _ => tidies_ite (tidies_compileFunctionForm hR _ _) ?_
  refine (idle_symstreq _ _).bind fun _ => tidies_ite ((tidies_emit_free
    (by simp)).bind fun _ => (tidies_compileArguments hC _ _ _ tidy_consCode).bind
      fun _ => tidies_emit_free (by simp)) ?_
  refine (idle_symstreq _ _).bind fun _ => tidies_ite (tidies_compileLambda hR hC _) ?_
  refine (idle_symstreq _ _).bind fun _ => tidies_ite (idle_throwIf.bind fun _ => harg _ _
    fun _ => (hC.expr _).bind fun _ => tidies_emit ((tidy_of_free (q := [.pushEax, .push .env])
      (by simp)).append (tidy_leak le_rfl))) ?_
  refine (idle_symstreq _ _).bind fun _ => tidies_ite (idle_throwIf.bind fun _ => harg _ _
    fun _ => (hC.expr _).bind fun _ => idle_getLocal.bind fun l => tidies_emit ((tidy_of_free
      (q := [.pushEax, .push (.path l.currentFilePath), .push .env])
      (by simp)).append (tidy_leak le_rfl))) ?_
  exact tidies_compileCall hR hC _ _ _

theorem tidies_compileExpression (val : Word) :
    Tidies arity count (compileExpression R C val false) := by
  have hmov : ∀ v : Word, Tidies arity count (emit [.movEax (.word v)]) := fun v =>
    tidies_emit_free (by simp)
  refine (idle_symstreq _ _).bind fun _ => tidies_ite (hmov _) ?_
  refine (idle_symstreq _ _).bind fun _ => tidies_ite (hmov _) (tidies_ite (hmov _) ?_)
  refine (idle_listp _).bind fun _ => tidies_ite (tidies_compileForm hR hC _) ?_
  exact tidies_ite (tidies_compileSymbol hR _) (tidies_ite (hmov _) (tidies_stop _))

omit hC in
/-- The functions around a function that is compiled only capture variables. -/
theorem tidies_function (n : ℕ) (v : Word) (name : Option String) (path : String) :
    Tidies arity count ((compiler R n).compileFunction v true name path) := by
  rintro s ⟨ar, l, d⟩ c s' h hs
  obtain ⟨rfl, he⟩ := (compiler_sound R n).function h
  have hkeeps := ((compiler_keeps_also hR n).function v true name path).of_ok h
    ⟨trivial, hs.arities⟩
  exact ⟨⟨hs.finds.captures (outerOf_of_emits he), hkeeps.2⟩, tidy_nil⟩

end Functions

/-- Code that is not in tail position is tidy. -/
theorem compiler_tidies {arity : CodePtr → ℕ} {R : Runtime}
    (hR : StableIn R (fun _ => True) (Arities arity)) (count n : ℕ) :
    (compiler R n).Tidies arity count := by
  induction n with
  | zero => exact ⟨fun _ => tidies_stop _, fun _ => tidies_stop _, fun _ _ _ => tidies_stop _⟩
  | succ n ih => exact ⟨tidies_compileExpression hR ih, tidies_compileBackquote ih,
      tidies_function hR (n + 1)⟩

/-- The body of a function whose calls are all compiled alike. -/
theorem regular_body {arity : CodePtr → ℕ} {R : Runtime}
    (hR : StableIn R (fun _ => True) (Arities arity)) {count n : ℕ} {body : Word} {s s' : State}
    {u : Unit} {c : Code} (hs : Ready arity count s) (hL : s.locals ≠ [])
    (h : compileBody (compiler R n) body false s = .ok u c s') : Regular arity count c := by
  have he := emits_body (compiler_sound R n) h
  obtain ⟨-, htidy⟩ := tidies_compileBody (compiler_tidies hR count n) body _ _ _ _ h hs
  obtain ⟨-, Γ, hΓ⟩ := shapedOf_of_emits he hL rfl 0 le_rfl
  refine regular_of_tidy htidy ⟨Γ, hΓ Γ (fun _ _ _ => rfl) trivial⟩ ?_
  obtain ⟨-, -, hcount⟩ := labelsOf_of_emits he hL
  refine List.nodup_iff_count_le_one.2 fun x => (hcount x).trans ?_
  split_ifs <;> omega

end Lisp

end Bluejay
