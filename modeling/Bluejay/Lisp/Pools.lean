import Bluejay.Lisp.Epochs
import Bluejay.Lisp.Load
import Mathlib.Data.List.Range

/-!
# Pools

Every load reads its forms into a pool of its own, which `_sweep` spares.

* `PoolState`, `PoolStep` : loads, macro calls, allocations and collections, in any order and
  nested in any way.
* `load_performs` : a call of `load` is a run of such steps, if what the compiler does is.
* `PoolsApart` : the pools of all loads are alive and differ, and no form that a load has read was
  freed.
* `poolsApart_of_run` : so it is in every run that makes at most 255 pools and does not put a form
  of a load into the pool 0.
-/

namespace Bluejay

namespace Lisp

/-- Loads and calls of macros that have not returned yet. -/
inductive Activity
  /-- A load, with its pool and the one that was current before. -/
  | load (pool pop : ℕ)
  /-- A call of a macro, with the pool that was current before. -/
  | macroCall (pool : ℕ)
  deriving DecidableEq

/-- The process, with the marks of the collector; the activities, innermost first; the pools that
the loads so far got, and the allocations of the forms they have read.  Compiled code is never
freed, so all pools stay in use. -/
structure PoolState where
  process : Process
  mark : ℕ → ℕ
  gcMark : ℕ
  activities : List Activity
  pools : List ℕ
  forms : List ℕ

namespace PoolState

variable (s : PoolState)

/-- `gc_mark++`. -/
def newMark : ℕ := (s.gcMark + 1) % 2 ^ 32

def world : World := s.process.world

/-- The process, where memory is `w`. -/
def inWorld (w : World) : PoolState := { s with process := { s.process with world := w } }

end PoolState

/-- A new allocation at `p`, in the current pool. -/
def World.put (w : World) (p : ℕ) (o : Obj) : World :=
  { w with heap := w.heap.set p o, pool := Function.update w.pool p w.currentPool }

inductive PoolAction
  | readForm
  | alloc
  | store
  | addToPool (p : ℕ)
  | load
  | endLoad
  | beginMacro
  | endMacro
  | define
  | collect
  deriving DecidableEq

/-- What happens between two states. -/
inductive PoolStep (s : PoolState) : PoolAction → PoolState → Prop
  /-- The innermost activity is a load, which reads. -/
  | readForm (p : ℕ) (o : Obj) (pool pop : ℕ) (hload : s.activities.head? = some (.load pool pop))
      (hp : p ∉ s.world.heap.dom) :
      PoolStep s .readForm { s.inWorld (s.world.put p o) with forms := p :: s.forms }
  | alloc (p : ℕ) (o : Obj) (hp : p ∉ s.world.heap.dom) :
      PoolStep s .alloc (s.inWorld (s.world.put p o))
  | store (p : ℕ) (o : Obj) (hp : p ∈ s.world.heap.dom) :
      PoolStep s .store (s.inWorld { s.world with heap := s.world.heap.set p o })
  | addToPool (p : ℕ) (hp : p ∈ s.world.heap.dom) :
      PoolStep s (.addToPool p) (s.inWorld { s.world with
        pool := Function.update s.world.pool p s.world.currentPool })
  /-- `load` of a file that exists. -/
  | load : PoolStep s .load { s with
      process := s.process.entered
      activities := .load s.process.makePool.1 s.world.currentPool :: s.activities
      pools := s.pools ++ [s.process.makePool.1] }
  /-- `load` returns. -/
  | endLoad (ok : Bool) (pool pop : ℕ) (as : List Activity) (h : s.activities = .load pool pop :: as) :
      PoolStep s .endLoad { s with
        process := s.process.popPool (if ok then pop else pool)
        activities := as }
  /-- `push_pool(0)` before a macro is called. -/
  | beginMacro : PoolStep s .beginMacro { s with
      process := (s.process.pushPool 0).2
      activities := .macroCall (s.process.pushPool 0).1 :: s.activities }
  | endMacro (pool : ℕ) (as : List Activity) (h : s.activities = .macroCall pool :: as) :
      PoolStep s .endMacro { s with process := s.process.popPool pool, activities := as }
  | define (name : String) (args : Args) (ns : Namespace) (code : Code) :
      PoolStep s .define { s with process := s.process.addFunction name args ns code }
  /-- `_do_gc`, with any roots. -/
  | collect (roots : List Word) (n : ℕ) (m : Marks) (visited : List ℕ)
      (h : markRoots s.world.heap s.newMark n roots ⟨s.mark, 0⟩ = some (m, visited)) :
      PoolStep s .collect
        { s.inWorld { s.world with heap := sweep s.world.heap s.world.pool s.newMark m } with
          mark := m.mark
          gcMark := s.newMark }

/-- All histories of a process. -/
def pooling : System PoolState PoolAction := ⟨PoolStep⟩

/-- The globals before the first load. -/
def poolStart : PoolState := ⟨.initial, fun _ => 0, 0, [], [], []⟩

/-- **What pools are for**: the pools of all loads are alive and differ, and no form that a load has
read was freed. -/
structure PoolsApart (s : PoolState) : Prop where
  alive : ∀ pool ∈ s.pools, poolAlive pool = true
  distinct : s.pools.Nodup
  kept : ∀ p ∈ s.forms, p ∈ s.world.heap.dom

/-- A load gets a new number, and no form that a load has read is put into the pool 0. -/
def PoolGuard (s : PoolState) : PoolAction → Prop
  | .load => s.process.maxPool < 2 ^ 8 - 1
  | .addToPool p => p ∈ s.forms → s.world.currentPool ≠ 0
  | _ => True

/-! ### The invariant -/

/-- Where a load is the innermost activity, the current pool is alive; so will it be where it is
the innermost one again. -/
def Pooled : List Activity → ℕ → Prop
  | [], _ => True
  | .load pool pop :: as, current => current ≠ 0 ∧ pool ≠ 0 ∧ Pooled as pop
  | .macroCall pool :: as, _ => Pooled as pool

/-- Any living pool is as good as the one that was current. -/
theorem Pooled.of_ne_zero {as : List Activity} {current current' : ℕ} (h : Pooled as current)
    (hne : current' ≠ 0) : Pooled as current' := by
  cases as with
  | nil => trivial
  | cons a as =>
    cases a with
    | load pool pop => exact ⟨hne, h.2⟩
    | macroCall pool => exact h

/-- The pools are numbered from 1 on, and forms are in living ones. -/
structure PoolInv (s : PoolState) : Prop where
  maxPool : s.process.maxPool < 2 ^ 8
  pools : s.pools = List.range' 1 s.process.maxPool
  pooled : Pooled s.activities s.world.currentPool
  forms : ∀ p ∈ s.forms, p ∈ s.world.heap.dom ∧ s.world.pool p ≠ 0

theorem PoolInv.poolsApart {s : PoolState} (h : PoolInv s) : PoolsApart s where
  alive pool hpool := by
    rw [h.pools, List.mem_range'_1] at hpool
    exact decide_eq_true (by omega)
  distinct := by
    rw [h.pools]
    exact List.nodup_range'
  kept p hp := (h.forms p hp).1

theorem poolInv_start : PoolInv poolStart where
  maxPool := by decide
  pools := rfl
  pooled := trivial
  forms _ hp := absurd hp List.not_mem_nil

/-- An allocation elsewhere leaves the forms alone. -/
theorem forms_put {w : World} {p q : ℕ} {o : Obj} (hp : p ∉ w.heap.dom)
    (hq : q ∈ w.heap.dom ∧ w.pool q ≠ 0) :
    q ∈ (w.put p o).heap.dom ∧ (w.put p o).pool q ≠ 0 := by
  have hne : q ≠ p := fun h => hp (h ▸ hq.1)
  refine ⟨Finset.mem_insert_of_mem hq.1, ?_⟩
  change Function.update w.pool p w.currentPool q ≠ 0
  rw [Function.update_of_ne hne]
  exact hq.2

/-- The step lemma. -/
theorem PoolInv.step {s s' : PoolState} {a : PoolAction} (h : PoolInv s) (hg : PoolGuard s a)
    (hs : PoolStep s a s') : PoolInv s' := by
  cases hs with
  | readForm p o pool pop hload hp =>
    refine ⟨h.maxPool, h.pools, h.pooled, fun q hq => ?_⟩
    rcases List.mem_cons.1 hq with rfl | hq
    · have hcurrent : s.world.currentPool ≠ 0 := by
        have hpooled := h.pooled
        cases has : s.activities with
        | nil => rw [has] at hload; cases hload
        | cons a as =>
          rw [has] at hload hpooled
          cases hload
          exact hpooled.1
      refine ⟨Finset.mem_insert_self _ _, ?_⟩
      change Function.update s.world.pool q s.world.currentPool q ≠ 0
      rwa [Function.update_self]
    · exact forms_put hp (h.forms q hq)
  | alloc p o hp => exact ⟨h.maxPool, h.pools, h.pooled, fun q hq => forms_put hp (h.forms q hq)⟩
  | store p o hp =>
    exact ⟨h.maxPool, h.pools, h.pooled, fun q hq =>
      ⟨Finset.mem_insert_of_mem (h.forms q hq).1, (h.forms q hq).2⟩⟩
  | addToPool p hp =>
    refine ⟨h.maxPool, h.pools, h.pooled, fun q hq => ⟨(h.forms q hq).1, ?_⟩⟩
    change Function.update s.world.pool p s.world.currentPool q ≠ 0
    by_cases hqp : q = p
    · subst hqp
      rw [Function.update_self]
      exact hg hq
    · rw [Function.update_of_ne hqp]
      exact (h.forms q hq).2
  | load =>
    have hlt : s.process.maxPool < 2 ^ 8 - 1 := hg
    have hpool : s.process.makePool.1 = s.process.maxPool + 1 :=
      Nat.mod_eq_of_lt (by omega)
    have hmax : (s.process.entered).maxPool = s.process.maxPool + 1 := hpool
    refine ⟨?_, ?_, ⟨?_, ?_, h.pooled⟩, h.forms⟩
    · rw [hmax]
      omega
    · rw [hmax, List.range'_1_concat, ← h.pools, hpool, Nat.add_comm]
    · change s.process.makePool.1 ≠ 0
      omega
    · omega
  | endLoad ok pool pop as has =>
    have hpooled := h.pooled
    rw [has] at hpooled
    refine ⟨h.maxPool, h.pools, ?_, h.forms⟩
    cases ok with
    | true => exact hpooled.2.2
    | false => exact hpooled.2.2.of_ne_zero hpooled.2.1
  | beginMacro => exact ⟨h.maxPool, h.pools, h.pooled, h.forms⟩
  | endMacro pool as has =>
    have hpooled := h.pooled
    rw [has] at hpooled
    exact ⟨h.maxPool, h.pools, hpooled, h.forms⟩
  | define name args ns code => exact ⟨h.maxPool, h.pools, h.pooled, h.forms⟩
  | collect roots n m visited hm =>
    refine ⟨h.maxPool, h.pools, h.pooled, fun q hq => ⟨?_, (h.forms q hq).2⟩⟩
    have hq := h.forms q hq
    exact Finset.mem_filter.2 ⟨hq.1, .inl (decide_eq_true hq.2)⟩

/-- The run lemma: **pools stay distinct and alive** in every run that meets the condition. -/
theorem poolsApart_of_run {ls : List PoolAction} {s : PoolState}
    (h : (pooling.guard PoolGuard).Run poolStart ls s) : PoolsApart s := by
  have hinv : PoolInv s := by
    induction h with
    | nil => exact poolInv_start
    | snoc _ hs ih => exact ih.step hs.1 hs.2
  exact hinv.poolsApart

/-- A load reads a form, returns, and memory is collected. -/
theorem poolsApart_one : ∃ s, (pooling.guard PoolGuard).Run poolStart
    [.load, .readForm, .endLoad, .collect] s ∧ PoolsApart s := by
  have hload : PoolGuard poolStart .load := by
    change (0 : ℕ) < 2 ^ 8 - 1
    omega
  have h₁ : (pooling.guard PoolGuard).Run poolStart [.load] _ := .snoc .nil ⟨hload, .load⟩
  have h₂ : (pooling.guard PoolGuard).Run poolStart [.load, .readForm] _ :=
    h₁.snoc ⟨trivial, .readForm 16 (.cons nil nil) 1 0 rfl (by decide)⟩
  have h₃ : (pooling.guard PoolGuard).Run poolStart [.load, .readForm, .endLoad] _ :=
    h₂.snoc ⟨trivial, .endLoad true 1 0 [] rfl⟩
  have h₄ : (pooling.guard PoolGuard).Run poolStart [.load, .readForm, .endLoad, .collect] _ :=
    h₃.snoc ⟨trivial, .collect [] 0 _ [] rfl⟩
  exact ⟨_, h₄, poolsApart_of_run h₄⟩

/-! ### Where pools run out -/

/-- One load after the other. -/
theorem exists_run_loads (k : ℕ) : ∃ ls s, pooling.Run poolStart ls s ∧
    s.process.maxPool = k % 2 ^ 8 ∧ s.activities = [] := by
  induction k with
  | zero => exact ⟨[], poolStart, .nil, rfl, rfl⟩
  | succ k ih =>
    obtain ⟨ls, s, hrun, hmax, has⟩ := ih
    refine ⟨_, _, (hrun.snoc .load).snoc (.endLoad true _ _ _ rfl), ?_, has⟩
    change (s.process.maxPool + 1) % 2 ^ 8 = _
    omega

/-- **The 256th load gets the pool 0**, which is never alive. -/
theorem not_poolsApart_all : ¬ ∀ ls s, pooling.Run poolStart ls s → PoolsApart s := by
  intro h
  obtain ⟨ls, s, hrun, hmax, -⟩ := exists_run_loads (2 ^ 8 - 1)
  have hpools := (h _ _ (hrun.snoc .load)).alive s.process.makePool.1
    (List.mem_append_right _ (List.mem_singleton_self _))
  have hzero : s.process.makePool.1 = 0 := by
    change (s.process.maxPool + 1) % 2 ^ 8 = 0
    omega
  rw [hzero] at hpools
  cases hpools

/-! ### A load is a run -/

/-- Reading leads from the memory `w` to the memory `w'`. -/
inductive Builds (R : Runtime) (w : World) : World → Prop
  | refl : Builds R w w
  | allocate {w₁ : World} (h : Builds R w w₁) (o : Obj) : Builds R w (w₁.put (R.malloc w₁.heap) o)
  | setCdr {w₁ : World} (h : Builds R w w₁) {cell : Word} (hc : pointer cell ∈ w₁.heap.dom)
    (v : Word) : Builds R w (w₁.setCdr cell v)

section Builds

variable {R : Runtime} {w w₁ w₂ : World} {f g : Reading → ReadResult} {n : ℕ}

theorem Builds.trans (h : Builds R w w₁) (h' : Builds R w₁ w₂) : Builds R w w₂ := by
  induction h' with
  | refl => exact h
  | allocate _ o ih => exact ih.allocate o
  | setCdr _ hc v ih => exact ih.setCdr hc v

theorem Builds.dom_subset (h : Builds R w w₁) : w.heap.dom ⊆ w₁.heap.dom := by
  induction h with
  | refl => exact subset_rfl
  | allocate _ o ih => exact ih.trans (Finset.subset_insert _ _)
  | setCdr _ hc v ih => exact ih.trans (Finset.subset_insert _ _)

/-- Whatever the function returns, it has only read. -/
def Building (R : Runtime) (f : Reading → ReadResult) : Prop :=
  ∀ s r s', f s = some (r, s') → Builds R s.world s'.world

theorem building_expected : Building R expected := by
  intro s r s' h
  cases h
  exact .refl

theorem Building.okayIf (hf : Building R f) (hg : Building R g) : Building R (okayIf f g) := by
  intro s r s' h
  obtain ⟨⟨r₁, s₁⟩, h₁, h⟩ := Option.bind_eq_some_iff.1 h
  have hbuilds := hf s r₁ s₁ h₁
  cases r₁ with
  | ok v =>
    cases h
    exact hbuilds
  | error e =>
    dsimp only at h
    split_ifs at h
    · exact hbuilds.trans (hg s₁ r s' h)
    · cases h
      exact hbuilds

theorem building_readsym : Building R (readsym R) := by
  intro s r s' h
  obtain ⟨input, -, h⟩ := Option.bind_eq_some_iff.1 h
  cases input with
  | nil =>
    cases h
    exact .refl
  | cons c cs =>
    dsimp only at h
    split_ifs at h
    · cases h
      exact Builds.refl.allocate _
    · cases h
      exact .refl

theorem building_readstr : Building R (readstr R) := by
  intro s r s' h
  obtain ⟨input, -, h⟩ := Option.bind_eq_some_iff.1 h
  cases input with
  | nil =>
    cases h
    exact .refl
  | cons c cs =>
    dsimp only at h
    split_ifs at h
    · obtain ⟨chars, -, h⟩ := Option.bind_eq_some_iff.1 h
      cases h
      exact Builds.refl.allocate _
    · cases h
      exact .refl

theorem building_readint : Building R readint := by
  intro s r s' h
  obtain ⟨input, -, h⟩ := Option.bind_eq_some_iff.1 h
  dsimp only at h
  split_ifs at h
  · cases h
    exact .refl
  · cases h
    exact .refl

theorem Building.readquote (hf : Building R f) : Building R (readquote R f) := by
  intro s r s' h
  obtain ⟨input, -, h⟩ := Option.bind_eq_some_iff.1 h
  cases input with
  | nil =>
    cases h
    exact .refl
  | cons c cs =>
    dsimp only at h
    split_ifs at h
    · obtain ⟨⟨r₁, s₁⟩, h₁, h⟩ := Option.bind_eq_some_iff.1 h
      have hbuilds := hf _ r₁ s₁ h₁
      cases r₁ with
      | error e =>
        cases h
        exact hbuilds
      | ok v =>
        cases hm : readerMacro (quoteChar c cs).1 with
        | none =>
          simp only [hm] at h
          cases h
          exact hbuilds
        | some name =>
          simp only [hm] at h
          cases h
          exact ((hbuilds.allocate _).allocate _).allocate _
    · cases h
      exact .refl

/-- Behind every cell that is read the next one is put. -/
theorem readnLoop_builds (hf : Building R f) {first v : Word} {last : Option Word} {s s' : Reading}
    (hlast : ∀ cell ∈ last, pointer cell ∈ s.world.heap.dom)
    (h : readnLoop R f n first last s = some (v, s')) : Builds R s.world s'.world := by
  induction n generalizing first last s with
  | zero => cases h
  | succ n ih =>
    obtain ⟨⟨r₁, s₁⟩, h₁, h⟩ := Option.bind_eq_some_iff.1 h
    have hbuilds := hf s r₁ s₁ h₁
    cases r₁ with
    | error e =>
      cases h
      exact hbuilds
    | ok v₁ =>
      have hcell : Builds R s.world (s₁.world.allocate R (.cons v₁ nil) consTag).2 :=
        hbuilds.allocate _
      obtain ⟨-, -, hheap⟩ := allocate_spec R s₁.world (.cons v₁ nil) (k := consTag) (by decide)
      have hmem : pointer (s₁.world.allocate R (.cons v₁ nil) consTag).1 ∈
          (s₁.world.allocate R (.cons v₁ nil) consTag).2.heap.dom := by
        rw [hheap]
        exact Finset.mem_insert_self _ _
      cases last with
      | none =>
        refine hcell.trans (ih (fun cell hc => ?_) h)
        cases hc
        exact hmem
      | some last =>
        have hold : pointer last ∈ (s₁.world.allocate R (.cons v₁ nil) consTag).2.heap.dom :=
          hcell.dom_subset (hlast last rfl)
        refine (hcell.setCdr hold _).trans (ih (fun cell hc => ?_) h)
        cases hc
        exact Finset.mem_insert_of_mem hmem

theorem Building.readlist (hf : Building R f) : Building R (readlist R f n) := by
  intro s r s' h
  obtain ⟨input, -, h⟩ := Option.bind_eq_some_iff.1 h
  dsimp only at h
  split_ifs at h
  · obtain ⟨⟨v, s₁⟩, h₁, h⟩ := Option.bind_eq_some_iff.1 h
    have hbuilds := readnLoop_builds hf (fun cell hc => by cases hc) h₁
    obtain ⟨input', -, h⟩ := Option.bind_eq_some_iff.1 h
    split_ifs at h <;> cases h <;> exact hbuilds
  · cases h
    exact .refl

theorem building_read1 (R : Runtime) (n : ℕ) : Building R (read1 R n) := by
  induction n with
  | zero => intro s r s' h; cases h
  | succ n ih =>
    intro s r s' h
    rw [read1] at h
    exact (ih.readquote.okayIf (building_readsym.okayIf (building_readstr.okayIf
      (building_readint.okayIf (ih.readlist.okayIf building_expected))))) s r s' h

end Builds

/-- Some run leads from the state `s` to one with the process `p'`, where the same has not returned
yet. -/
def RunsTo (s : PoolState) (p' : Process) : Prop :=
  ∃ ls s', pooling.Run s ls s' ∧ s'.process = p' ∧ s'.activities = s.activities

/-- Wherever the process is `p`, some run leads to `p'`. -/
def Performs (p p' : Process) : Prop := ∀ s : PoolState, s.process = p → RunsTo s p'

section Performs

variable {S : Host} {s : PoolState} {p p₁ p' : Process} {n : ℕ}

theorem RunsTo.refl : RunsTo s s.process := ⟨[], s, .nil, rfl, rfl⟩

theorem RunsTo.snoc {p₁ : Process} {a : PoolAction} (h : RunsTo s p₁)
    (hs : ∀ s₁, s₁.process = p₁ → s₁.activities = s.activities →
      ∃ s', PoolStep s₁ a s' ∧ s'.process = p' ∧ s'.activities = s₁.activities) : RunsTo s p' := by
  obtain ⟨ls, s₁, hrun, hp, has⟩ := h
  obtain ⟨s', hstep, hp', has'⟩ := hs s₁ hp has
  exact ⟨_, s', hrun.snoc hstep, hp', has'.trans has⟩

theorem RunsTo.trans (h : RunsTo s p₁) (hs : ∀ s₁, s₁.process = p₁ →
    s₁.activities = s.activities → RunsTo s₁ p') : RunsTo s p' := by
  obtain ⟨ls, s₁, hrun, hp, has⟩ := h
  obtain ⟨ls', s', hrun', hp', has'⟩ := hs s₁ hp has
  exact ⟨_, s', hrun.append hrun', hp', has'.trans has⟩

theorem Performs.refl (p : Process) : Performs p p := by
  rintro s rfl
  exact .refl

theorem Performs.trans (h : Performs p p₁) (h' : Performs p₁ p') : Performs p p' :=
  fun s hs => (h s hs).trans fun s₁ hs₁ _ => h' s₁ hs₁

/-- What a load reads, it reads step by step. -/
theorem runsTo_of_builds {R : Runtime} {w : World} {pool pop : ℕ} (h : Builds R s.world w)
    (hload : s.activities.head? = some (.load pool pop)) :
    RunsTo s { s.process with world := w } := by
  induction h with
  | refl => exact .refl
  | @allocate w₁ _ o ih =>
    refine ih.snoc (a := .readForm) fun s₁ hp has => ?_
    have hw : s₁.world = w₁ := congrArg Process.world hp
    have hfresh : R.malloc w₁.heap ∉ s₁.world.heap.dom := by
      rw [hw]
      exact R.fresh _
    refine ⟨_, .readForm _ o pool pop (has ▸ hload) hfresh, ?_, rfl⟩
    simp only [PoolState.inWorld, hp, hw]
  | @setCdr w₁ _ cell hc v ih =>
    refine ih.snoc (a := .store) fun s₁ hp has => ?_
    have hw : s₁.world = w₁ := congrArg Process.world hp
    refine ⟨_, .store (pointer cell) (.cons (w₁.heap.car cell) v) (hw ▸ hc), ?_, rfl⟩
    simp only [PoolState.inWorld, hp, hw, World.setCdr]

variable {tl : Word → Process → Option (Fallible Unit)}
  {load : String → Process → Option (Bool × Process)}

theorem compileTls_performs (htl : ∀ val p r p', tl val p = some (r, p') → Performs p p')
    {val : Word} {r : Except Failure Unit} (h : compileTls tl n val p = some (r, p')) :
    Performs p p' := by
  induction n generalizing val p with
  | zero => cases h
  | succ n ih =>
    rw [compileTls] at h
    split_ifs at h with hnil
    · cases h
      exact .refl _
    · obtain ⟨⟨r₁, p₁⟩, h₁, h⟩ := Option.bind_eq_some_iff.1 h
      have hfirst := htl _ _ _ _ h₁
      cases r₁ with
      | error e =>
        cases h
        exact hfirst
      | ok u => exact hfirst.trans (ih h)

theorem loadRelative_performs (hload : ∀ path p ok p', load path p = some (ok, p') → Performs p p')
    {path : String} {name v : Word} (h : loadRelative S load path name p = some (v, p')) :
    Performs p p' := by
  rw [loadRelative] at h
  split_ifs at h
  · cases h
    exact .refl _
  · obtain ⟨newPath, -, h⟩ := Option.bind_eq_some_iff.1 h
    obtain ⟨⟨ok, p₁⟩, h₁, h⟩ := Option.bind_eq_some_iff.1 h
    cases h
    exact hload _ _ _ _ h₁

theorem compileDefinition_performs
    (hS : ∀ args ns name path p r p', S.compileFunction args ns name path p = some (r, p') →
      Performs p p') {ns : Namespace} {args : Word} {fname : String} {r : Except Failure Unit}
    (h : compileDefinition S ns args fname p = some (r, p')) : Performs p p' := by
  obtain ⟨name, -, h⟩ := Option.bind_eq_some_iff.1 h
  obtain ⟨⟨r₁, p₁⟩, h₁, h⟩ := Option.bind_eq_some_iff.1 h
  have hcompile := hS _ _ _ _ _ _ _ h₁
  cases r₁ with
  | error e =>
    cases h
    exact hcompile
  | ok f =>
    cases h
    refine hcompile.trans fun s hs => ?_
    exact RunsTo.refl.snoc (a := .define) fun s₁ hp _ =>
      ⟨_, .define name f.1 ns f.2, by rw [hp, hs], rfl⟩

/-- What `compile_tl` does is a run, if what `compile_function` and `load` do is. -/
theorem compileTl_performs
    (hS : ∀ args ns name path p r p', S.compileFunction args ns name path p = some (r, p') →
      Performs p p')
    (hload : ∀ path p ok p', load path p = some (ok, p') → Performs p p') {fname : String} :
    ∀ {n : ℕ} {val : Word} {p : Process} {r : Except Failure Unit} {p' : Process},
      compileTl S load fname n val p = some (r, p') → Performs p p' := by
  intro n
  induction n with
  | zero => intro val p r p' h; cases h
  | succ n ih =>
    intro val p r p' h
    rw [compileTl] at h
    obtain ⟨list, -, h⟩ := Option.bind_eq_some_iff.1 h
    dsimp only at h
    split_ifs at h
    · cases h
      exact .refl _
    · exact compileDefinition_performs hS h
    · exact compileDefinition_performs hS h
    · exact compileTls_performs (fun _ _ _ _ h => ih h) h
    · obtain ⟨nargs, -, h⟩ := Option.bind_eq_some_iff.1 h
      split_ifs at h
      · cases h
        exact .refl _
      · obtain ⟨⟨v, p₁⟩, h₁, h⟩ := Option.bind_eq_some_iff.1 h
        cases h
        exact loadRelative_performs hload h₁
    · cases h
      exact .refl _

/-- So is the loop of `load`, inside of a load. -/
theorem loadLoop_runsTo (htl : ∀ val p r p', tl val p = some (r, p') → Performs p p')
    {text : List Char} {l : Loaded} {pool pop : ℕ}
    (h : loadLoop S tl n text s.process = some (l, p'))
    (hload : s.activities.head? = some (.load pool pop)) : RunsTo s p' := by
  induction n generalizing text s l with
  | zero => cases h
  | succ n ih =>
    rcases loadLoop_cases h with ⟨e, s₁, hread, -, rfl⟩ | ⟨val, s₁, e, hread, hc, -⟩ |
      ⟨val, s₁, p₁, l₁, hread, hc, hl, -⟩
    · exact runsTo_of_builds (building_read1 _ _ _ _ _ hread) hload
    · have hform := runsTo_of_builds (building_read1 _ _ _ _ _ hread) hload
      exact hform.trans fun s₂ hs₂ _ => htl _ _ _ _ hc s₂ hs₂
    · have hform := runsTo_of_builds (building_read1 _ _ _ _ _ hread) hload
      refine hform.trans fun s₂ hs₂ has₂ => (htl _ _ _ _ hc s₂ hs₂).trans fun s₃ hs₃ has₃ => ?_
      refine ih (hs₃ ▸ hl) ?_
      rw [has₃, has₂]
      exact hload

/-- **A call of `load` is a run**, with its nested loads, if what `compile_function` does is. -/
theorem load_performs
    (hS : ∀ args ns name path p r p', S.compileFunction args ns name path p = some (r, p') →
      Performs p p') {path : String} {l : Loaded} (h : Lisp.load S n path p = some (l, p')) :
    Performs p p' := by
  induction n generalizing path p l p' with
  | zero => cases h
  | succ n ih =>
    rintro s rfl
    cases hexists : S.fileExists path with
    | false =>
      rw [Lisp.load, hexists] at h
      obtain ⟨-, rfl⟩ : (⟨false, []⟩ : Loaded) = l ∧ s.process = p' := by simpa using h
      exact .refl
    | true =>
      -- the state in which the file is read
      obtain ⟨s₁, hs₁⟩ : ∃ s₁ : PoolState, s₁ = { s with
        process := s.process.entered
        activities := .load s.process.makePool.1 s.world.currentPool :: s.activities
        pools := s.pools ++ [s.process.makePool.1] } := ⟨_, rfl⟩
      have hbegin : pooling.Run s [.load] s₁ := by
        rw [hs₁]
        exact .snoc .nil .load
      have hp₁ : s₁.process = s.process.entered := by rw [hs₁]
      have has₁ : s₁.activities =
          .load s.process.makePool.1 s.world.currentPool :: s.activities := by rw [hs₁]
      rcases load_cases h hexists with ⟨-, -, rfl⟩ | ⟨text, p₁, -, hl, rfl⟩
      · refine ⟨_, _, hbegin.snoc (.endLoad false _ _ _ has₁), ?_, rfl⟩
        rw [hp₁]
        rfl
      · have htl : ∀ val p r p', topLevel S (Lisp.load S n) path n val p = some (r, p') →
            Performs p p' := by
          intro val p r p' hc
          refine compileTl_performs hS (fun path p ok p' hnested => ?_) hc
          obtain ⟨⟨l', p''⟩, hload, heq⟩ := Option.map_eq_some_iff.1 hnested
          cases heq
          exact ih hload
        obtain ⟨ls, s₂, hrun, hp₂, has₂⟩ := loadLoop_runsTo (s := s₁) htl (hp₁ ▸ hl)
          (by rw [has₁]; rfl)
        refine ⟨_, _, (hbegin.append hrun).snoc (.endLoad l.ok _ _ _ (has₂.trans has₁)), ?_, rfl⟩
        rw [hp₂]
        rfl

end Performs

end Lisp

end Bluejay
