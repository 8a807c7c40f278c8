import Bluejay.Lib.Bytes
import Bluejay.Lib.System
import Mathlib.Data.Finset.Card
import Mathlib.Data.Fintype.Basic

/-!
# Semaphores

`sync.c`: tasks share one semaphore, and each of them repeats `sm_wait`, a critical section and
`sm_signal`.  A step is one atomic access to `sm->sm`, one operation of the spinlock, or the
update of the queue that the spinlock guards; the tasks' steps interleave in any order.

* `Pc` : the statement of `sync.c` a task is at.
* `Step` : one step of one task; `semaphore` is the system of all interleavings.
* `MutualExclusion` : at most one task is between a completed `sm_wait` and its `sm_signal`.
* `StepOk` : the step stays clear of the sign of the counter, which is `unsigned`: no task makes
  the test `sm->sm < 0` while the counter, read as a signed number, is negative, and no
  decrement leaves the signed range.
* `mutualExclusion_of_stepOk` : the run lemma.  What carries it is that the counter is one less
  than the number of tasks inside (`Counts`).
-/

namespace Bluejay

namespace Kernel

/-- `struct sm_task`.  Addresses are natural numbers, `NULL` is `0`. -/
structure SmTask (Task : Type*) where
  tid : Task
  next : ℕ

/-- `struct semaphore`. -/
structure Semaphore where
  taskLock : ℤ
  first : ℕ
  last : ℕ
  sm : ℕ

/-- The statement a task executes next. -/
inductive Pc
  /-- Outside; next is `sm->sm--` of `sm_wait`. -/
  | outside
  /-- `if (sm->sm < 0)`. -/
  | waitTest
  | waitAcquire
  | enqueue
  | waitRelease
  | setWaiting
  | giveUp
  /-- `sm_wait` has returned; next is `sm->sm++` of `sm_signal`. -/
  | critical
  /-- `if (sm->sm <= 0)`. -/
  | signalTest
  | signalAcquire
  | dequeue
  | signalRelease
  deriving DecidableEq

/-- The semaphore, the queue's nodes in memory, and the tasks. -/
structure SmState (Task : Type*) where
  sem : Semaphore
  /-- Memory, as far as it is read or written as a `struct sm_task`. -/
  node : ℕ → Option (SmTask Task)
  /-- The nodes that are allocated. -/
  allocated : ℕ → Bool
  waiting : Task → Bool
  pc : Task → Pc

/-- `sm_new`. -/
def smNew : Semaphore := ⟨0, 0, 0, 1⟩

/-- No task has called `sm_wait` yet. -/
def smStart (Task : Type*) : SmState Task where
  sem := smNew
  node _ := none
  allocated _ := false
  waiting _ := false
  pc _ := .outside

section Step

variable {Task : Type*} [DecidableEq Task]

namespace SmState

/-- Task `t` goes on to the statement `l`. -/
def goto (s : SmState Task) (t : Task) (l : Pc) : SmState Task :=
  { s with pc := Function.update s.pc t l }

def setWaiting (s : SmState Task) (t : Task) (b : Bool) : SmState Task :=
  { s with waiting := Function.update s.waiting t b }

/-- The new node `a` is put at the end of the queue. -/
def enqueue (s : SmState Task) (t : Task) (a : ℕ) : SmState Task :=
  let node := Function.update s.node a (some ⟨t, 0⟩)
  let allocated := Function.update s.allocated a true
  if s.sem.last ≠ 0 then
    { s with
      sem := { s.sem with last := a }
      node := Function.update node s.sem.last
        ((node s.sem.last).map fun n => { n with next := a })
      allocated := allocated }
  else { s with sem := { s.sem with first := a, last := a }, node := node, allocated := allocated }

/-- The first node leaves the queue and its task is woken up; `last` stays as it is. -/
def dequeue (s : SmState Task) : SmState Task :=
  match s.sem.first, s.node s.sem.first with
  | 0, _ | _, none => s
  | _, some f =>
    { s with
      sem := { s.sem with first := f.next }
      waiting := Function.update s.waiting f.tid false
      allocated := Function.update s.allocated s.sem.first false }

end SmState

/-- One step of the task `t`. -/
inductive Step (s : SmState Task) (t : Task) : SmState Task → Prop
  | decrement (h : s.pc t = .outside) :
      Step s t ({ s with sem := { s.sem with sm := sub32 s.sem.sm 1 } }.goto t .waitTest)
  /-- The comparison is between unsigned numbers. -/
  | waitTest (h : s.pc t = .waitTest) :
      Step s t (s.goto t (if s.sem.sm < 0 then .waitAcquire else .critical))
  /-- `__sync_bool_compare_and_swap(sl, -2, 1)`. -/
  | waitAcquire (h : s.pc t = .waitAcquire) (hl : s.sem.taskLock = -2) :
      Step s t ({ s with sem := { s.sem with taskLock := 1 } }.goto t .enqueue)
  | enqueue (h : s.pc t = .enqueue) {a : ℕ} (ha : a ≠ 0) (hf : s.allocated a = false) :
      Step s t ((s.enqueue t a).goto t .waitRelease)
  | waitRelease (h : s.pc t = .waitRelease) :
      Step s t ({ s with sem := { s.sem with taskLock := 0 } }.goto t .setWaiting)
  | setWaiting (h : s.pc t = .setWaiting) : Step s t ((s.setWaiting t true).goto t .giveUp)
  /-- A task that waits is not scheduled. -/
  | giveUp (h : s.pc t = .giveUp) (hw : s.waiting t = false) : Step s t (s.goto t .critical)
  | increment (h : s.pc t = .critical) :
      Step s t ({ s with sem := { s.sem with sm := u32 (s.sem.sm + 1) } }.goto t .signalTest)
  | signalTest (h : s.pc t = .signalTest) :
      Step s t (s.goto t (if s.sem.sm ≤ 0 then .signalAcquire else .outside))
  | signalAcquire (h : s.pc t = .signalAcquire) (hl : s.sem.taskLock = -2) :
      Step s t ({ s with sem := { s.sem with taskLock := 1 } }.goto t .dequeue)
  | dequeue (h : s.pc t = .dequeue) : Step s t (s.dequeue.goto t .signalRelease)
  | signalRelease (h : s.pc t = .signalRelease) :
      Step s t ({ s with sem := { s.sem with taskLock := 0 } }.goto t .outside)

/-- All interleavings. -/
def semaphore (Task : Type*) [DecidableEq Task] : System (SmState Task) Task :=
  ⟨fun s t s' => Step s t s'⟩

end Step

/-- At most one task is between a completed `sm_wait` and its `sm_signal`. -/
def MutualExclusion {Task : Type*} (s : SmState Task) : Prop :=
  ∀ t u, s.pc t = .critical → s.pc u = .critical → t = u

/-- The counter, read as a signed number, is not negative where `sm_wait` tests it, and is not
the least one where it is decremented. -/
def StepOk {Task : Type*} (s : SmState Task) (t : Task) : Prop :=
  (s.pc t = .waitTest → 0 ≤ signed32 s.sem.sm) ∧
    (s.pc t = .outside → signed32 s.sem.sm ≠ -2 ^ 31)

instance {Task : Type*} (s : SmState Task) (t : Task) : Decidable (StepOk s t) :=
  inferInstanceAs (Decidable ((_ → _) ∧ (_ → _)))

/-! ### What a step does to the tasks and the counter -/

/-- The task has decremented the counter and not incremented it yet. -/
def Pc.inside : Pc → Bool
  | .outside | .signalTest | .signalAcquire | .dequeue | .signalRelease => false
  | _ => true

/-- The task is in the branch of `sm_wait` for a negative counter. -/
def Pc.waits : Pc → Bool
  | .waitAcquire | .enqueue | .waitRelease | .setWaiting | .giveUp => true
  | _ => false

section Safety

variable {Task : Type*} {s s' : SmState Task} {t : Task}

/-- The tasks inside are finitely many, and the counter, read as a signed number, is one less
their number. -/
def Counts (s : SmState Task) : Prop :=
  ∃ S : Finset Task, (∀ u, u ∈ S ↔ (s.pc u).inside) ∧ s.sem.sm < 2 ^ 32 ∧
    signed32 s.sem.sm = 1 - S.card

/-- What holds along a run of steps that stay clear of the sign of the counter. -/
structure SmInv (s : SmState Task) : Prop where
  counts : Counts s
  /-- The branch for a negative counter is dead. -/
  not_waits : ∀ u, (s.pc u).waits = false
  exclusive : MutualExclusion s

theorem smInv_start : SmInv (smStart Task) where
  counts := ⟨∅, by simp [smStart, Pc.inside], by simp [smStart, smNew],
    by simp [smStart, smNew, signed32]⟩
  not_waits _ := rfl
  exclusive t u h := by cases h

/-- At most one task is inside when the counter is not negative. -/
theorem Counts.eq_of_nonneg (h : Counts s) (h0 : 0 ≤ signed32 s.sem.sm) {u v : Task}
    (hu : (s.pc u).inside) (hv : (s.pc v).inside) : u = v := by
  obtain ⟨S, hS, -, hc⟩ := h
  exact Finset.card_le_one.1 (by omega) u ((hS u).2 hu) v ((hS v).2 hv)

@[simp] theorem enqueue_pc (s : SmState Task) (t : Task) (a : ℕ) : (s.enqueue t a).pc = s.pc := by
  unfold SmState.enqueue; split_ifs <;> rfl

@[simp] theorem enqueue_sm (s : SmState Task) (t : Task) (a : ℕ) :
    (s.enqueue t a).sem.sm = s.sem.sm := by
  unfold SmState.enqueue; split_ifs <;> rfl

variable [DecidableEq Task]

@[simp] theorem dequeue_pc (s : SmState Task) : s.dequeue.pc = s.pc := by
  unfold SmState.dequeue; split <;> rfl

@[simp] theorem dequeue_sm (s : SmState Task) : s.dequeue.sem.sm = s.sem.sm := by
  unfold SmState.dequeue; split <;> rfl

/-- A step moves its own task only.  It enters by a decrement, passes the test as the unsigned
counter is not below `0`, leaves by an increment, or stays where it is. -/
theorem step_cases (h : Step s t s') : ∃ l, s'.pc = Function.update s.pc t l ∧
    (s.pc t = .outside ∧ l = .waitTest ∧ s'.sem.sm = sub32 s.sem.sm 1 ∨
      s.pc t = .waitTest ∧ l = .critical ∧ s'.sem.sm = s.sem.sm ∨
      s.pc t = .critical ∧ l = .signalTest ∧ s'.sem.sm = u32 (s.sem.sm + 1) ∨
      (s.pc t).waits ∨
      (s.pc t).inside = false ∧ l.inside = false ∧ s'.sem.sm = s.sem.sm) := by
  cases h with
  | decrement h => exact ⟨_, rfl, .inl ⟨h, rfl, rfl⟩⟩
  | waitTest h =>
    rw [if_neg (Nat.not_lt_zero _)]
    exact ⟨_, rfl, .inr (.inl ⟨h, rfl, rfl⟩)⟩
  | waitAcquire h _ => exact ⟨_, rfl, by simp [h, Pc.waits]⟩
  | enqueue h _ _ => exact ⟨.waitRelease, by simp [SmState.goto], by simp [h, Pc.waits]⟩
  | waitRelease h => exact ⟨_, rfl, by simp [h, Pc.waits]⟩
  | setWaiting h => exact ⟨_, rfl, by simp [h, Pc.waits]⟩
  | giveUp h _ => exact ⟨_, rfl, by simp [h, Pc.waits]⟩
  | increment h => exact ⟨_, rfl, .inr (.inr (.inl ⟨h, rfl, rfl⟩))⟩
  | signalTest h =>
    refine ⟨_, rfl, .inr (.inr (.inr (.inr ⟨by simp [h, Pc.inside], ?_, rfl⟩)))⟩
    split_ifs <;> rfl
  | signalAcquire h _ => exact ⟨_, rfl, by simp [h, Pc.inside, SmState.goto]⟩
  | dequeue h => exact ⟨.signalRelease, by simp [SmState.goto], by simp [h, Pc.inside, SmState.goto]⟩
  | signalRelease h => exact ⟨_, rfl, by simp [h, Pc.inside, SmState.goto]⟩

/-- A step that takes its task in adds it to the tasks inside. -/
theorem Counts.enter (h : Counts s) {l : Pc} (hpc : s'.pc = Function.update s.pc t l)
    (ht : (s.pc t).inside = false) (hl : l.inside)
    (hsm : s'.sem.sm = sub32 s.sem.sm 1) (hok : signed32 s.sem.sm ≠ -2 ^ 31) : Counts s' := by
  obtain ⟨S, hS, hlt, hc⟩ := h
  have hnot : t ∉ S := by simp [hS, ht]
  refine ⟨insert t S, fun u => ?_, ?_, ?_⟩
  · rw [hpc, Finset.mem_insert, hS]
    by_cases hu : u = t
    · subst hu; simp [hl]
    · simp [hu]
  · rw [hsm]; unfold sub32; omega
  · rw [Finset.card_insert_of_notMem hnot, hsm]
    unfold signed32 sub32 at *
    split_ifs at * <;> omega

/-- A step that takes its task out removes it from the tasks inside. -/
theorem Counts.leave (h : Counts s) {l : Pc} (hpc : s'.pc = Function.update s.pc t l)
    (ht : (s.pc t).inside) (hl : l.inside = false)
    (hsm : s'.sem.sm = u32 (s.sem.sm + 1)) : Counts s' := by
  obtain ⟨S, hS, hlt, hc⟩ := h
  have hmem : t ∈ S := (hS t).2 ht
  have hpos : 0 < S.card := Finset.card_pos.2 ⟨t, hmem⟩
  refine ⟨S.erase t, fun u => ?_, ?_, ?_⟩
  · rw [hpc, Finset.mem_erase, hS]
    by_cases hu : u = t
    · subst hu; simp [hl]
    · simp [hu]
  · rw [hsm]; exact u32_lt _
  · rw [Finset.card_erase_of_mem hmem, hsm]
    unfold signed32 u32 at *
    split_ifs at * <;> omega

/-- Any other step leaves the tasks inside and the counter as they are. -/
theorem Counts.stay (h : Counts s) {l : Pc} (hpc : s'.pc = Function.update s.pc t l)
    (hl : l.inside = (s.pc t).inside) (hsm : s'.sem.sm = s.sem.sm) : Counts s' := by
  obtain ⟨S, hS, hlt, hc⟩ := h
  refine ⟨S, fun u => ?_, hsm ▸ hlt, hsm ▸ hc⟩
  rw [hpc, hS]
  by_cases hu : u = t
  · subst hu; simp [hl]
  · simp [hu]

/-- The tasks in the critical section are no more than before, when a step moves its task
elsewhere. -/
theorem MutualExclusion.update (h : MutualExclusion s) {l : Pc}
    (hpc : s'.pc = Function.update s.pc t l) (hl : l ≠ .critical) : MutualExclusion s' := by
  intro u v hu hv
  have hne : ∀ w, s'.pc w = .critical → s.pc w = .critical := fun w hw => by
    by_cases ht : w = t
    · subst ht
      rw [hpc, Function.update_self] at hw
      exact absurd hw hl
    · rwa [hpc, Function.update_of_ne ht] at hw
  exact h u v (hne u hu) (hne v hv)

/-- The step lemma. -/
theorem smInv_step (h : SmInv s) (hok : StepOk s t) (hs : Step s t s') : SmInv s' := by
  obtain ⟨l, hpc, hcases⟩ := step_cases hs
  have hwaits : l.waits = false → ∀ u, (s'.pc u).waits = false := fun hl u => by
    rw [hpc]
    by_cases hu : u = t
    · subst hu; rwa [Function.update_self]
    · rw [Function.update_of_ne hu]; exact h.not_waits u
  rcases hcases with ⟨ht, rfl, hsm⟩ | ⟨ht, rfl, hsm⟩ | ⟨ht, rfl, hsm⟩ | ht | ⟨ht, hl, hsm⟩
  · -- the task has decremented the counter
    exact ⟨h.counts.enter hpc (by rw [ht]; rfl) rfl hsm (hok.2 ht), hwaits rfl,
      h.exclusive.update hpc (by decide)⟩
  · -- the task has passed the test, and is alone inside
    refine ⟨h.counts.stay hpc (by rw [ht]; rfl) hsm, hwaits rfl, fun u v hu hv => ?_⟩
    have hin : ∀ w, s'.pc w = .critical → (s.pc w).inside := fun w hw => by
      by_cases hwt : w = t
      · rw [hwt, ht]; rfl
      · rw [hpc, Function.update_of_ne hwt] at hw
        rw [hw]; rfl
    exact h.counts.eq_of_nonneg (hok.1 ht) (hin u hu) (hin v hv)
  · -- the task has incremented the counter
    exact ⟨h.counts.leave hpc (by rw [ht]; rfl) rfl hsm, hwaits rfl,
      h.exclusive.update hpc (by decide)⟩
  · exact absurd ht (by simp [h.not_waits t])
  · have hcrit : l ≠ .critical := by rintro rfl; cases hl
    have hw : l.waits = false := by cases l <;> first | rfl | cases hl
    exact ⟨h.counts.stay hpc (hl.trans ht.symm) hsm, hwaits hw, h.exclusive.update hpc hcrit⟩

/-- **Mutual exclusion** holds in every run none of whose steps meets a negative counter. -/
theorem mutualExclusion_of_stepOk
    (h : ((semaphore Task).guard StepOk).Reachable (smStart Task) s) : MutualExclusion s :=
  (h.invariant smInv_start fun _ _ _ hi hs => smInv_step hi hs.1 hs.2).exclusive

end Safety

/-- A task that is alone enters its critical section. -/
theorem mutualExclusion_of_single : ∃ s : SmState Bool, s.pc true = .critical ∧
    MutualExclusion s := by
  let s₁ : SmState Bool := { smStart Bool with sem := ⟨0, 0, 0, sub32 1 1⟩ }.goto true .waitTest
  have h₁ : ((semaphore Bool).guard StepOk).Reachable (smStart Bool) s₁ :=
    (System.Reachable.refl _).tail (l := true) ⟨by decide, .decrement rfl⟩
  have h₂ : ((semaphore Bool).guard StepOk).Reachable (smStart Bool) (s₁.goto true .critical) :=
    h₁.tail (l := true) ⟨by decide, .waitTest rfl⟩
  exact ⟨_, rfl, mutualExclusion_of_stepOk h₂⟩

/-- **Two tasks are in their critical sections at once**: the second decrement wraps, and the
test never succeeds. -/
theorem not_mutualExclusion : ¬ ∀ (Task : Type) [DecidableEq Task] (s : SmState Task),
    (semaphore Task).Reachable (smStart Task) s → MutualExclusion s := by
  intro h
  let s₁ : SmState Bool := { smStart Bool with sem := ⟨0, 0, 0, sub32 1 1⟩ }.goto true .waitTest
  let s₂ := s₁.goto true .critical
  let s₃ : SmState Bool := { s₂ with sem := ⟨0, 0, 0, sub32 (sub32 1 1) 1⟩ }.goto false .waitTest
  let s₄ := s₃.goto false .critical
  have h₁ : (semaphore Bool).Reachable (smStart Bool) s₁ :=
    (System.Reachable.refl _).tail (l := true) (.decrement rfl)
  have h₂ : (semaphore Bool).Reachable (smStart Bool) s₂ := h₁.tail (l := true) (.waitTest rfl)
  have h₃ : (semaphore Bool).Reachable (smStart Bool) s₃ := h₂.tail (l := false) (.decrement rfl)
  have h₄ : (semaphore Bool).Reachable (smStart Bool) s₄ := h₃.tail (l := false) (.waitTest rfl)
  exact Bool.noConfusion (h Bool s₄ h₄ true false rfl rfl)

end Kernel

end Bluejay
