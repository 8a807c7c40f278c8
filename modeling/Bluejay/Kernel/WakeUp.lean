import Bluejay.Kernel.Semaphore

/-!
# Wake-ups

The branch of `sm_unsafe_wait` that blocks and the branch of `sm_unsafe_signal` that wakes, entered
by any tasks in any order.  The spinlock is taken to be a correct lock.

* `wakeUps` : the system of all interleavings of the steps of the two branches.
* `NoLostWakeUp` : no task sleeps whose entry of the queue a signal has taken.
* `WakesSleeper` : the step does not wake a task that has not gone to sleep yet.
* `noLostWakeUp_of_wakesSleeper` : the run lemma.

`WakeState.woken` is not in the source, and nothing depends on it: it records whether a signal has
taken the last entry of a task.
-/

namespace Bluejay

namespace Kernel

/-- The statement a task executes next. -/
inductive WakePc
  | idle
  | waitAcquire
  | enqueue
  | waitRelease
  | setWaiting
  | giveUp
  | signalAcquire
  | dequeue
  /-- The signal has taken the entry `f` out of the queue. -/
  | wake (f : ℕ)
  | signalRelease
  deriving DecidableEq

/-- The queue of a semaphore, its lock, and the tasks. -/
structure WakeState (Task : Type*) where
  first : ℕ
  last : ℕ
  node : ℕ → Option (SmTask Task)
  /-- The nodes that are allocated. -/
  allocated : ℕ → Bool
  /-- The task that holds the lock. -/
  lock : Option Task
  waiting : Task → Bool
  pc : Task → WakePc
  /-- A signal has taken the task's last entry, and woken it. -/
  woken : Task → Bool

/-- No task has entered a branch yet. -/
def wakeStart (Task : Type*) : WakeState Task where
  first := 0
  last := 0
  node _ := none
  allocated _ := false
  lock := none
  waiting _ := false
  pc _ := .idle
  woken _ := false

section Step

variable {Task : Type*} [DecidableEq Task]

namespace WakeState

/-- Task `t` goes on to the statement `l`. -/
def goto (s : WakeState Task) (t : Task) (l : WakePc) : WakeState Task :=
  { s with pc := Function.update s.pc t l }

/-- The new entry `a` of the task `t` is put at the end of the queue. -/
def enqueue (s : WakeState Task) (t : Task) (a : ℕ) : WakeState Task :=
  let node := Function.update s.node a (some ⟨t, 0⟩)
  { s with
    first := if s.last ≠ 0 then s.first else a
    last := a
    node := if s.last ≠ 0 then
      Function.update node s.last ((node s.last).map fun n => { n with next := a }) else node
    allocated := Function.update s.allocated a true
    woken := Function.update s.woken t false }

/-- `set_waiting(f->tid, false); free(f);`. -/
def wake (s : WakeState Task) (f : ℕ) (n : SmTask Task) : WakeState Task :=
  { s with
    waiting := Function.update s.waiting n.tid false
    woken := Function.update s.woken n.tid true
    allocated := Function.update s.allocated f false }

end WakeState

/-- One step of the task `t`. -/
inductive WakeStep (s : WakeState Task) (t : Task) : WakeState Task → Prop
  | enterWait (h : s.pc t = .idle) : WakeStep s t (s.goto t .waitAcquire)
  | waitAcquire (h : s.pc t = .waitAcquire) (hl : s.lock = none) :
      WakeStep s t ({ s with lock := some t }.goto t .enqueue)
  | enqueue (h : s.pc t = .enqueue) {a : ℕ} (ha : a ≠ 0) (hf : s.allocated a = false) :
      WakeStep s t ((s.enqueue t a).goto t .waitRelease)
  | waitRelease (h : s.pc t = .waitRelease) :
      WakeStep s t ({ s with lock := none }.goto t .setWaiting)
  | setWaiting (h : s.pc t = .setWaiting) :
      WakeStep s t ({ s with waiting := Function.update s.waiting t true }.goto t .giveUp)
  /-- A task that waits is not scheduled. -/
  | giveUp (h : s.pc t = .giveUp) (hw : s.waiting t = false) : WakeStep s t (s.goto t .idle)
  | enterSignal (h : s.pc t = .idle) : WakeStep s t (s.goto t .signalAcquire)
  | signalAcquire (h : s.pc t = .signalAcquire) (hl : s.lock = none) :
      WakeStep s t ({ s with lock := some t }.goto t .dequeue)
  | dequeue (h : s.pc t = .dequeue) {n : SmTask Task} (h0 : s.first ≠ 0)
      (hn : s.node s.first = some n) :
      WakeStep s t ({ s with first := n.next }.goto t (.wake s.first))
  | dequeueNone (h : s.pc t = .dequeue) (h0 : s.first = 0) :
      WakeStep s t (s.goto t .signalRelease)
  | wake {f : ℕ} {n : SmTask Task} (h : s.pc t = .wake f) (hn : s.node f = some n) :
      WakeStep s t ((s.wake f n).goto t .signalRelease)
  | signalRelease (h : s.pc t = .signalRelease) :
      WakeStep s t ({ s with lock := none }.goto t .idle)

/-- All interleavings. -/
def wakeUps (Task : Type*) [DecidableEq Task] : System (WakeState Task) Task :=
  ⟨fun s t s' => WakeStep s t s'⟩

end Step

section Safety

variable {Task : Type*}

/-- A task whose entry a signal has taken does not stay asleep. -/
def NoLostWakeUp (s : WakeState Task) : Prop :=
  ∀ t, s.woken t → s.pc t = .giveUp → s.waiting t = false

/-- The task is in the queue, and has not marked itself as waiting yet. -/
def WakePc.fallingAsleep : WakePc → Bool
  | .waitRelease | .setWaiting => true
  | _ => false

/-- The task that the step wakes, if any, has marked itself as waiting before. -/
def WakesSleeper (s : WakeState Task) (t : Task) : Prop :=
  ∀ f n, s.pc t = .wake f → s.node f = some n → (s.pc n.tid).fallingAsleep = false

/-- What holds along a run of steps that wake sleepers only. -/
structure WakeInv (s : WakeState Task) : Prop where
  noLost : NoLostWakeUp s
  /-- A task that falls asleep has not been woken. -/
  notWoken : ∀ t, (s.pc t).fallingAsleep → s.woken t = false

theorem wakeInv_start : WakeInv (wakeStart Task) :=
  ⟨fun _ h => (nomatch h), fun _ h => (nomatch h)⟩

variable [DecidableEq Task] {s s' : WakeState Task} {t : Task}

/-- A step moves its own task only.  It enters the queue, goes to sleep, wakes a task, or leaves
the flags as they are. -/
theorem wakeStep_cases (h : WakeStep s t s') : ∃ l, s'.pc = Function.update s.pc t l ∧
    (l = .waitRelease ∧ s'.waiting = s.waiting ∧ s'.woken = Function.update s.woken t false ∨
      s.pc t = .setWaiting ∧ l = .giveUp ∧ s'.waiting = Function.update s.waiting t true ∧
        s'.woken = s.woken ∨
      (∃ f n, s.pc t = .wake f ∧ s.node f = some n ∧ l = .signalRelease ∧
        s'.waiting = Function.update s.waiting n.tid false ∧
        s'.woken = Function.update s.woken n.tid true) ∨
      l ≠ .giveUp ∧ (l.fallingAsleep → (s.pc t).fallingAsleep) ∧ s'.waiting = s.waiting ∧
        s'.woken = s.woken) := by
  have hmove : ∀ l : WakePc, l ≠ .giveUp → l.fallingAsleep = false → l ≠ .giveUp ∧
      (l.fallingAsleep → (s.pc t).fallingAsleep) ∧ s.waiting = s.waiting ∧ s.woken = s.woken :=
    fun l hl hf => ⟨hl, fun h => (by rw [hf] at h; cases h), rfl, rfl⟩
  cases h with
  | enterWait _ => exact ⟨_, rfl, .inr (.inr (.inr (hmove _ (by decide) rfl)))⟩
  | waitAcquire _ _ => exact ⟨_, rfl, .inr (.inr (.inr (hmove _ (by decide) rfl)))⟩
  | enqueue _ _ _ => exact ⟨_, rfl, .inl ⟨rfl, rfl, rfl⟩⟩
  | waitRelease hpc =>
    exact ⟨_, rfl, .inr (.inr (.inr ⟨by decide, fun _ => by rw [hpc]; rfl, rfl, rfl⟩))⟩
  | setWaiting hpc => exact ⟨_, rfl, .inr (.inl ⟨hpc, rfl, rfl, rfl⟩)⟩
  | giveUp _ _ => exact ⟨_, rfl, .inr (.inr (.inr (hmove _ (by decide) rfl)))⟩
  | enterSignal _ => exact ⟨_, rfl, .inr (.inr (.inr (hmove _ (by decide) rfl)))⟩
  | signalAcquire _ _ => exact ⟨_, rfl, .inr (.inr (.inr (hmove _ (by decide) rfl)))⟩
  | dequeue _ _ _ => exact ⟨_, rfl, .inr (.inr (.inr (hmove _ (by simp) rfl)))⟩
  | dequeueNone _ _ => exact ⟨_, rfl, .inr (.inr (.inr (hmove _ (by decide) rfl)))⟩
  | wake hpc hn => exact ⟨_, rfl, .inr (.inr (.inl ⟨_, _, hpc, hn, rfl, rfl, rfl⟩))⟩
  | signalRelease _ => exact ⟨_, rfl, .inr (.inr (.inr (hmove _ (by decide) rfl)))⟩

/-- The step lemma. -/
theorem WakeInv.step (h : WakeInv s) (hok : WakesSleeper s t) (hs : WakeStep s t s') :
    WakeInv s' := by
  obtain ⟨l, hpc, hcases⟩ := wakeStep_cases hs
  have hself : s'.pc t = l := by rw [hpc, Function.update_self]
  have hother : ∀ u, u ≠ t → s'.pc u = s.pc u := fun u hu => by rw [hpc, Function.update_of_ne hu]
  rcases hcases with ⟨rfl, hw, hk⟩ | ⟨ht, rfl, hw, hk⟩ | ⟨f, n, ht, hn, rfl, hw, hk⟩ |
    ⟨hl, hf, hw, hk⟩
  · -- the task has entered the queue, and is not woken
    constructor <;> intro u <;> by_cases hu : u = t
    · subst hu
      simp [hself]
    · rw [hother u hu, hw, hk, Function.update_of_ne hu]
      exact h.noLost u
    · subst hu
      simp [hk]
    · rw [hother u hu, hk, Function.update_of_ne hu]
      exact h.notWoken u
  · -- the task has gone to sleep, and had not been woken
    have hnot : s.woken t = false := h.notWoken t (by rw [ht]; rfl)
    constructor <;> intro u <;> by_cases hu : u = t
    · subst hu
      simp [hk, hnot]
    · rw [hother u hu, hw, hk, Function.update_of_ne hu]
      exact h.noLost u
    · subst hu
      simp [hk, hnot]
    · rw [hother u hu, hk]
      exact h.notWoken u
  · -- the task woken is asleep
    have hawake := hok f n ht hn
    constructor <;> intro u
    · rw [hw, hk, Function.update_apply, Function.update_apply]
      split_ifs with hun
      · exact fun _ _ => rfl
      · intro hu hup
        by_cases hut : u = t
        · rw [hut, hself] at hup
          cases hup
        · exact h.noLost u hu (hother u hut ▸ hup)
    · intro hu
      have hut : u ≠ t := by
        rintro rfl
        rw [hself] at hu
        cases hu
      rw [hother u hut] at hu
      have hun : u ≠ n.tid := by
        rintro rfl
        rw [hawake] at hu
        cases hu
      rw [hk, Function.update_of_ne hun]
      exact h.notWoken u hu
  · constructor <;> intro u
    · rw [hw, hk]
      by_cases hu : u = t
      · rw [hu, hself]
        exact fun _ h => absurd h hl
      · rw [hother u hu]
        exact h.noLost u
    · rw [hk]
      by_cases hu : u = t
      · rw [hu, hself]
        exact fun h' => h.notWoken t (hf h')
      · rw [hother u hu]
        exact h.notWoken u

/-- **No wake-up is lost** in a run in which no task is woken while it falls asleep. -/
theorem noLostWakeUp_of_wakesSleeper
    (h : ((wakeUps Task).guard WakesSleeper).Reachable (wakeStart Task) s) : NoLostWakeUp s :=
  (h.invariant wakeInv_start fun _ _ _ hi hs => hi.step hs.1 hs.2).noLost

end Safety

/-- A task that blocks is woken after it has gone to sleep. -/
theorem noLostWakeUp_of_sleeping : ∃ s : WakeState Bool, s.woken false ∧ s.pc false = .giveUp ∧
    NoLostWakeUp s := by
  have hok : ∀ s : WakeState Bool, ∀ t, (∀ f, s.pc t ≠ .wake f) → WakesSleeper s t :=
    fun s t hne f n hf => absurd hf (hne f)
  have h₁ := (System.Reachable.refl (A := (wakeUps Bool).guard WakesSleeper) (wakeStart Bool)).tail
    (l := false) ⟨hok _ _ (by simp [wakeStart]), .enterWait rfl⟩
  have h₂ := h₁.tail (l := false) ⟨hok _ _ (by simp [WakeState.goto]), .waitAcquire rfl rfl⟩
  have h₃ := h₂.tail (l := false)
    ⟨hok _ _ (by simp [WakeState.goto]), .enqueue (a := 8) rfl (by decide) rfl⟩
  have h₄ := h₃.tail (l := false) ⟨hok _ _ (by simp [WakeState.goto]), .waitRelease rfl⟩
  have h₅ := h₄.tail (l := false) ⟨hok _ _ (by simp [WakeState.goto]), .setWaiting rfl⟩
  have h₆ := h₅.tail (l := true)
    ⟨hok _ _ (by simp [WakeState.goto, WakeState.enqueue, wakeStart]), .enterSignal rfl⟩
  have h₇ := h₆.tail (l := true) ⟨hok _ _ (by simp [WakeState.goto]), .signalAcquire rfl rfl⟩
  have h₈ := h₇.tail (l := true)
    ⟨hok _ _ (by simp [WakeState.goto]), .dequeue rfl (by decide) rfl⟩
  have h₉ := h₈.tail (l := true) ⟨fun f n hf hn => by cases hf; cases hn; rfl, .wake rfl rfl⟩
  exact ⟨_, rfl, rfl, noLostWakeUp_of_wakesSleeper h₉⟩

/-- **A wake-up may be lost**: `false` enters the queue, `true` takes its entry and wakes it, and
then `false` goes to sleep. -/
theorem not_noLostWakeUp : ¬ ∀ (Task : Type) [DecidableEq Task] (s : WakeState Task),
    (wakeUps Task).Reachable (wakeStart Task) s → NoLostWakeUp s := by
  intro h
  have h₁ := (System.Reachable.refl (A := wakeUps Bool) (wakeStart Bool)).tail (l := false)
    (.enterWait rfl)
  have h₂ := h₁.tail (l := false) (.waitAcquire rfl rfl)
  have h₃ := h₂.tail (l := false) (.enqueue (a := 8) rfl (by decide) rfl)
  have h₄ := h₃.tail (l := false) (.waitRelease rfl)
  have h₅ := h₄.tail (l := true) (.enterSignal rfl)
  have h₆ := h₅.tail (l := true) (.signalAcquire rfl rfl)
  have h₇ := h₆.tail (l := true) (.dequeue rfl (by decide) rfl)
  have h₈ := h₇.tail (l := true) (.wake rfl rfl)
  have h₉ := h₈.tail (l := false) (.setWaiting rfl)
  exact Bool.noConfusion (h Bool _ h₉ false rfl rfl)

end Kernel

end Bluejay
