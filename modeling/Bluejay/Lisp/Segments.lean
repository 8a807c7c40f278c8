import Bluejay.Lisp.Gc
import Mathlib.Data.List.Range

/-!
# The segments of `eval`

`eval` pushes a segment, compiles the form, and calls the code; what it compiles and calls may call
`eval` again.

* `SegmentStack` : the segments, with a number for each; what was freed and written to is noted.
* `evalWith` : `eval`; `EvalTree` : which calls of `eval` happen inside of one, nested in any way,
  and whether each compiles.
* `EvalTree.run_above` : the segments that stay are those of the calls that do not compile.
* `balanced_iff` : `eval` leaves the segments as they were, frees each of its own once and writes
  to its own only, exactly if all forms compile.
-/

namespace Bluejay

namespace Lisp

/-! ### Segments -/

/-- The list from `gc_last_segment` on, each with the number of its push; what was freed; and for
each write to a segment the number of the one that belongs to the caller and that of the one
written to. -/
structure SegmentStack where
  segments : List (ℕ × Segment)
  pushes : ℕ
  freed : List ℕ
  writes : List (ℕ × ℕ)

/-- The registers and addresses at a call of `eval`, and the value that it retains.  `garbage` is
what `malloc` returns for a segment with room for one value. -/
structure CallSite where
  lastArgAddr : ℕ
  garbage : Segment
  oldEbp : ℕ
  esp : ℕ
  function : Word

namespace SegmentStack

variable (s : SegmentStack)

/-- `gc_push_segment(&form, 1)`. -/
def push (c : CallSite) : SegmentStack :=
  { s with
    segments := (s.pushes, { c.garbage with
      segStart := if c.lastArgAddr ≠ 0 then c.lastArgAddr + 4 else 0
      oldEbp := c.oldEbp }) :: s.segments
    pushes := s.pushes + 1 }

/-- `gc_set_retained(0, retained)`, for the caller with the segment `own`. -/
def setRetained (own : ℕ) (retained : Word) : Option SegmentStack :=
  match s.segments with
  | [] => none
  | (id, seg) :: segs => some { s with
      segments := (id, { seg with retained := seg.retained.set 0 retained }) :: segs
      writes := s.writes ++ [(own, id)] }

/-- `gc_prepare_call(nargs)`, for the caller with the segment `own`. -/
def prepareCall (own esp nargs : ℕ) : Option SegmentStack :=
  match s.segments with
  | [] => none
  | (id, seg) :: segs => some { s with
      segments := (id, { seg with nargs := nargs, segEnd := esp + 4 + 4 * nargs }) :: segs
      writes := s.writes ++ [(own, id)] }

/-- `gc_pop_segment`. -/
def pop : Option SegmentStack :=
  match s.segments with
  | [] => none
  | (id, _) :: segs => some { s with segments := segs, freed := s.freed ++ [id] }

/-- The segments that the collector walks over. -/
def list : List Segment := s.segments.map Prod.snd

theorem list_push (c : CallSite) :
    (s.push c).list = gcPushSegment c.lastArgAddr c.garbage c.oldEbp s.list := rfl

theorem list_prepareCall {own esp nargs : ℕ} {s' : SegmentStack}
    (h : s.prepareCall own esp nargs = some s') : s'.list = gcPrepareCall esp nargs s.list := by
  unfold prepareCall at h
  unfold list
  cases hs : s.segments with
  | nil => rw [hs] at h; cases h
  | cons seg segs =>
    rw [hs] at h
    cases h
    rfl

end SegmentStack

/-! ### `eval` -/

/-- `eval`.  `compileFunction` says whether it succeeds; it and the code `f` leave the segments as
the calls of `eval` in them do. -/
def evalWith (c : CallSite) (compileFunction : SegmentStack → Option (Bool × SegmentStack))
    (f : SegmentStack → Option SegmentStack) (s : SegmentStack) : Option SegmentStack := do
  let own := s.pushes
  let s := s.push c
  let s ← s.setRetained own c.function
  let (ok, s) ← compileFunction s
  if !ok then return s
  else
    let s ← s.prepareCall own c.esp 0
    let s ← f s
    s.pop

/-- A call of `eval`: the calls inside of `compile_function` (by macros and default values),
whether it succeeds, and the calls inside of the code that was compiled. -/
inductive EvalTree
  | call (c : CallSite) (compiling : List EvalTree) (ok : Bool) (running : List EvalTree)

mutual

/-- What a call of `eval` does to the segments. -/
def EvalTree.run : EvalTree → SegmentStack → Option SegmentStack
  | .call c compiling ok running, s =>
    evalWith c (fun s => (runAll compiling s).map fun s => (ok, s)) (runAll running) s

/-- What calls of `eval` do, one after the other. -/
def runAll : List EvalTree → SegmentStack → Option SegmentStack
  | [], s => some s
  | t :: ts, s => (t.run s).bind (runAll ts)

end

mutual

/-- All forms compile, also inside. -/
def EvalTree.Compiles : EvalTree → Prop
  | .call _ compiling ok running => AllSucceed compiling ∧ ok = true ∧ AllSucceed running

def AllSucceed : List EvalTree → Prop
  | [] => True
  | t :: ts => t.Compiles ∧ AllSucceed ts

end

mutual

/-- The number of calls of `eval` that happen and whose form does not compile. -/
def EvalTree.failures : EvalTree → ℕ
  | .call _ compiling ok running =>
    allFailures compiling + if ok then allFailures running else 1

def allFailures : List EvalTree → ℕ
  | [] => 0
  | t :: ts => t.failures + allFailures ts

end

/-- **What `eval` should do to the segments**: `gc_last_segment` is what it was, what it pushed was
freed once, and every write was to the segment of the caller. -/
structure Balanced (s s' : SegmentStack) : Prop where
  segments : s'.segments = s.segments
  freed : ∃ n ids, s'.pushes = s.pushes + n ∧ s'.freed = s.freed ++ ids ∧
    ids.Perm (List.range' s.pushes n)
  writes : ∃ ws, s'.writes = s.writes ++ ws ∧ ∀ w ∈ ws, w.1 = w.2

/-! ### Segments that stay -/

mutual

theorem compiles_iff : ∀ t : EvalTree, t.Compiles ↔ t.failures = 0
  | .call _ compiling ok running => by
    rw [EvalTree.Compiles, EvalTree.failures, allSucceed_iff compiling, allSucceed_iff running]
    cases ok <;> simp

theorem allSucceed_iff : ∀ ts : List EvalTree, AllSucceed ts ↔ allFailures ts = 0
  | [] => iff_of_true trivial rfl
  | t :: ts => by
    rw [AllSucceed, allFailures, compiles_iff t, allSucceed_iff ts, Nat.add_eq_zero_iff]

end

/-- There are `n` segments on top of `base`. -/
def Atop (base : List (ℕ × Segment)) (n : ℕ) (s : SegmentStack) : Prop :=
  ∃ l, s.segments = l ++ base ∧ l.length = n

section Atop

variable {s : SegmentStack} {base : List (ℕ × Segment)} {n : ℕ}

theorem Atop.push (h : Atop base n s) (c : CallSite) : Atop base (n + 1) (s.push c) := by
  obtain ⟨l, hl, rfl⟩ := h
  obtain ⟨top, htop⟩ : ∃ top, (s.push c).segments = top :: s.segments := ⟨_, rfl⟩
  exact ⟨top :: l, by rw [htop, hl, List.cons_append], rfl⟩

theorem Atop.exists_top (h : Atop base (n + 1) s) :
    ∃ top l, s.segments = top :: (l ++ base) ∧ l.length = n := by
  obtain ⟨l, hl, hn⟩ := h
  cases l with
  | nil => cases hn
  | cons top l => exact ⟨top, l, hl, Nat.succ.inj hn⟩

/-- A write to the last segment leaves the number of segments as it is. -/
theorem Atop.setRetained (h : Atop base (n + 1) s) (own : ℕ) (v : Word) :
    ∃ s', s.setRetained own v = some s' ∧ Atop base (n + 1) s' := by
  obtain ⟨top, l, hl, rfl⟩ := h.exists_top
  simp only [SegmentStack.setRetained, hl]
  exact ⟨_, rfl, _ :: l, rfl, rfl⟩

theorem Atop.prepareCall (h : Atop base (n + 1) s) (own esp nargs : ℕ) :
    ∃ s', s.prepareCall own esp nargs = some s' ∧ Atop base (n + 1) s' := by
  obtain ⟨top, l, hl, rfl⟩ := h.exists_top
  simp only [SegmentStack.prepareCall, hl]
  exact ⟨_, rfl, _ :: l, rfl, rfl⟩

theorem Atop.pop (h : Atop base (n + 1) s) : ∃ s', s.pop = some s' ∧ Atop base n s' := by
  obtain ⟨top, l, hl, rfl⟩ := h.exists_top
  simp only [SegmentStack.pop, hl]
  exact ⟨_, rfl, l, rfl, rfl⟩

mutual

/-- A call of `eval` returns, and leaves a segment for each form that does not compile. -/
theorem EvalTree.run_above : ∀ (t : EvalTree) {n : ℕ} {s : SegmentStack}, Atop base n s →
    ∃ s', t.run s = some s' ∧ Atop base (n + t.failures) s'
  | .call c compiling ok running, n, s, h => by
    obtain ⟨s₁, hset, h₁⟩ := (h.push c).setRetained s.pushes c.function
    obtain ⟨s₂, hcompile, h₂⟩ := runAll_above compiling h₁
    cases ok with
    | false =>
      refine ⟨s₂, by simp [EvalTree.run, evalWith, hset, hcompile], ?_⟩
      have hn : n + (EvalTree.call c compiling false running).failures =
          n + 1 + allFailures compiling := by
        simp only [EvalTree.failures, Bool.false_eq_true, if_false]
        omega
      rwa [hn]
    | true =>
      -- the segment that is written to and freed need not be the one of this call
      rw [Nat.add_right_comm] at h₂
      obtain ⟨s₃, hprepare, h₃⟩ := h₂.prepareCall s.pushes c.esp 0
      obtain ⟨s₄, hrun, h₄⟩ := runAll_above running h₃
      rw [Nat.add_right_comm] at h₄
      obtain ⟨s₅, hpop, h₅⟩ := h₄.pop
      refine ⟨s₅, by simp [EvalTree.run, evalWith, hset, hcompile, hprepare, hrun, hpop], ?_⟩
      rw [EvalTree.failures, if_pos rfl, ← Nat.add_assoc]
      exact h₅

theorem runAll_above : ∀ (ts : List EvalTree) {n : ℕ} {s : SegmentStack}, Atop base n s →
    ∃ s', runAll ts s = some s' ∧ Atop base (n + allFailures ts) s'
  | [], _, s, h => ⟨s, rfl, h⟩
  | t :: ts, n, s, h => by
    obtain ⟨s₁, h₁, ha₁⟩ := t.run_above h
    obtain ⟨s₂, h₂, ha₂⟩ := runAll_above ts ha₁
    refine ⟨s₂, by rw [runAll, h₁, Option.bind_some, h₂], ?_⟩
    rw [allFailures, ← Nat.add_assoc]
    exact ha₂

end

end Atop

/-! ### Calls that compile -/

theorem Balanced.refl (s : SegmentStack) : Balanced s s :=
  ⟨rfl, ⟨0, [], rfl, (List.append_nil _).symm, .refl _⟩, ⟨[], (List.append_nil _).symm, nofun⟩⟩

theorem Balanced.trans {s s₁ s₂ : SegmentStack} (h : Balanced s s₁) (h' : Balanced s₁ s₂) :
    Balanced s s₂ := by
  obtain ⟨n, ids, hp, hf, hperm⟩ := h.freed
  obtain ⟨n', ids', hp', hf', hperm'⟩ := h'.freed
  obtain ⟨ws, hw, hall⟩ := h.writes
  obtain ⟨ws', hw', hall'⟩ := h'.writes
  refine ⟨h'.segments.trans h.segments, ⟨n + n', ids ++ ids', ?_, ?_, ?_⟩, ⟨ws ++ ws', ?_, ?_⟩⟩
  · rw [hp', hp, Nat.add_assoc]
  · rw [hf', hf, List.append_assoc]
  · rw [← List.range'_append_1, ← hp]
    exact hperm.append hperm'
  · rw [hw', hw, List.append_assoc]
  · exact List.forall_mem_append.2 ⟨hall, hall'⟩

/-- In `eval` between its push and its pop: its own segment, number `s.pushes`, is the last. -/
structure Opened (s s' : SegmentStack) : Prop where
  segments : ∃ seg, s'.segments = (s.pushes, seg) :: s.segments
  freed : ∃ n ids, s'.pushes = s.pushes + 1 + n ∧ s'.freed = s.freed ++ ids ∧
    ids.Perm (List.range' (s.pushes + 1) n)
  writes : ∃ ws, s'.writes = s.writes ++ ws ∧ ∀ w ∈ ws, w.1 = w.2

theorem Opened.setRetained {s s₁ : SegmentStack} {c : CallSite} {v : Word}
    (h : (s.push c).setRetained s.pushes v = some s₁) : Opened s s₁ := by
  cases h
  refine ⟨⟨_, rfl⟩, ⟨0, [], rfl, (List.append_nil _).symm, .refl _⟩, ⟨_, rfl, ?_⟩⟩
  simp

/-- What is balanced leaves the segment of `eval` the last. -/
theorem Opened.trans {s s₁ s₂ : SegmentStack} (h : Opened s s₁) (h' : Balanced s₁ s₂) :
    Opened s s₂ := by
  obtain ⟨seg, hseg⟩ := h.segments
  obtain ⟨n, ids, hp, hf, hperm⟩ := h.freed
  obtain ⟨n', ids', hp', hf', hperm'⟩ := h'.freed
  obtain ⟨ws, hw, hall⟩ := h.writes
  obtain ⟨ws', hw', hall'⟩ := h'.writes
  refine ⟨⟨seg, h'.segments.trans hseg⟩, ⟨n + n', ids ++ ids', ?_, ?_, ?_⟩, ⟨ws ++ ws', ?_, ?_⟩⟩
  · rw [hp', hp, Nat.add_assoc _ n]
  · rw [hf', hf, List.append_assoc]
  · rw [← List.range'_append_1, ← hp]
    exact hperm.append hperm'
  · rw [hw', hw, List.append_assoc]
  · exact List.forall_mem_append.2 ⟨hall, hall'⟩

theorem Opened.prepareCall {s s₁ s₂ : SegmentStack} {esp nargs : ℕ} (h : Opened s s₁)
    (hprepare : s₁.prepareCall s.pushes esp nargs = some s₂) : Opened s s₂ := by
  obtain ⟨seg, hseg⟩ := h.segments
  obtain ⟨ws, hw, hall⟩ := h.writes
  simp only [SegmentStack.prepareCall, hseg, Option.some.injEq] at hprepare
  subst hprepare
  refine ⟨⟨_, rfl⟩, h.freed, ⟨ws ++ [(s.pushes, s.pushes)], ?_, ?_⟩⟩
  · exact (congrArg (· ++ [(s.pushes, s.pushes)]) hw).trans (List.append_assoc _ _ _)
  · exact List.forall_mem_append.2 ⟨hall, List.forall_mem_singleton.2 rfl⟩

/-- The pop frees the segment of `eval`. -/
theorem Opened.pop {s s₁ s₂ : SegmentStack} (h : Opened s s₁) (hpop : s₁.pop = some s₂) :
    Balanced s s₂ := by
  obtain ⟨seg, hseg⟩ := h.segments
  obtain ⟨n, ids, hp, hf, hperm⟩ := h.freed
  simp only [SegmentStack.pop, hseg, Option.some.injEq] at hpop
  subst hpop
  refine ⟨rfl, ⟨n + 1, ids ++ [s.pushes], ?_, ?_, ?_⟩, h.writes⟩
  · exact hp.trans (by omega)
  · exact (congrArg (· ++ [s.pushes]) hf).trans (List.append_assoc _ _ _)
  · rw [List.range'_succ]
    exact List.perm_append_singleton _ _ |>.trans (hperm.cons _)

mutual

theorem EvalTree.run_balanced : ∀ (t : EvalTree) {s s' : SegmentStack}, t.Compiles →
    t.run s = some s' → Balanced s s'
  | .call c compiling ok running, s, s', ⟨hcompiling, hok, hrunning⟩, h => by
    subst hok
    simp only [EvalTree.run, evalWith, Option.bind_eq_bind, Option.bind_eq_some_iff,
      Option.map_eq_some_iff] at h
    obtain ⟨s₁, hset, _, ⟨s₂, hcompile, rfl⟩, h⟩ := h
    simp only [Bool.not_true, Bool.false_eq_true, if_false, Option.bind_eq_some_iff] at h
    obtain ⟨s₃, hprepare, s₄, hrun, hpop⟩ := h
    have hown := Opened.setRetained hset
    have h₂ := hown.trans (runAll_balanced compiling hcompiling hcompile)
    have h₄ := (h₂.prepareCall hprepare).trans (runAll_balanced running hrunning hrun)
    exact h₄.pop hpop

theorem runAll_balanced : ∀ (ts : List EvalTree) {s s' : SegmentStack}, AllSucceed ts →
    runAll ts s = some s' → Balanced s s'
  | [], s, s', _, h => by
    cases h
    exact .refl s
  | t :: ts, s, s', ⟨ht, hts⟩, h => by
    obtain ⟨s₁, h₁, h₂⟩ := Option.bind_eq_some_iff.1 h
    exact (t.run_balanced ht h₁).trans (runAll_balanced ts hts h₂)

end

/-- **`eval` keeps the segments balanced exactly if every form compiles**, its own and those that
macros and evaluated code give to `eval`.  It always returns. -/
theorem balanced_iff (t : EvalTree) (s : SegmentStack) :
    ∃ s', t.run s = some s' ∧ (Balanced s s' ↔ t.Compiles) := by
  obtain ⟨s', h, l, hl, hlen⟩ := t.run_above (⟨[], rfl, rfl⟩ : Atop s.segments 0 s)
  refine ⟨s', h, fun hbalanced => ?_, fun hcompiles => t.run_balanced hcompiles h⟩
  rw [compiles_iff, ← Nat.zero_add t.failures, ← hlen, List.length_eq_zero_iff]
  exact List.self_eq_append_left.1 (hbalanced.segments.symm.trans hl)

/-- `(eval 'x)`, for a symbol that is no variable. -/
theorem not_balanced_all :
    ¬ ∀ (t : EvalTree) (s s' : SegmentStack), t.run s = some s' → Balanced s s' := by
  intro h
  have hbalanced := h (.call ⟨0, ⟨0, 0, 0, 0, [0]⟩, 0, 0, 0⟩ [] false []) ⟨[], 0, [], []⟩ _ rfl
  exact List.cons_ne_nil _ _ hbalanced.segments

end Lisp

end Bluejay
