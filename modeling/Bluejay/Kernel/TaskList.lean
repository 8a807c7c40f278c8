import Bluejay.Kernel.Task
import Bluejay.Lib.Links
import Mathlib.Data.List.Chain
import Mathlib.Data.List.Rotate

/-!
# The task list

* `TaskList s ps` : the nodes `ps` are linked from `first_task` to `last_task`, and the current
  task is one of them.
* `Scheduler` : what the list is for, the tasks and the one that is running.
* `simulates_scheduler` : every call on a well-formed list is a step of the scheduler, and the list
  stays well-formed.
* `exists_scheduler`, `exists_taskList` : so it is well-formed after every run, whatever the ids of
  the tasks are, and holds the tasks of the scheduler.
* `TaskList.isChain_tour` : `following` goes round the list.
-/

namespace Bluejay

namespace Kernel

open Tasks

/-- The nodes `ps` are a list. -/
structure TaskList (s : Tasks) (ps : List ℕ) : Prop where
  linked : Linked s.next s.prev 0 ps 0
  null : 0 ∉ ps
  nodup : ps.Nodup
  first : s.firstTask = ps.headD 0
  last : s.lastTask = ps.getLastD 0
  current : s.currentTask ∈ ps
  allocated : ∀ p ∈ ps, p ∈ s.allocated

section Steps

variable {s s' : Tasks} {ps : List ℕ}

theorem taskList_init (s : Tasks) {p : ℕ} (hp : p ≠ 0) (dir : ℕ) :
    TaskList (s.initTasks p dir) [p] where
  linked := ⟨Function.update_self _ _ _, Function.update_self _ _ _, trivial⟩
  null := by simpa using hp.symm
  nodup := List.nodup_singleton p
  first := rfl
  last := rfl
  current := List.mem_singleton_self p
  allocated q hq := by simpa [initTasks] using hq

theorem TaskList.ne_nil (h : TaskList s ps) : ps ≠ [] := List.ne_nil_of_mem h.current

theorem TaskList.spawn (h : TaskList s ps) {p : ℕ} (function : ℕ) (h0 : p ≠ 0)
    (hp : p ∉ s.allocated) : TaskList (s.spawnThread p function) (ps ++ [p]) := by
  have hpps : p ∉ ps := fun hmem => hp (h.allocated p hmem)
  have hlast : s.lastTask ∈ ps := h.last ▸ getLastD_mem h.ne_nil 0
  have hpl : p ≠ s.lastTask := fun he => hpps (he ▸ hlast)
  refine ⟨?_, ?_, ?_, ?_, ?_, ?_, ?_⟩
  · refine linked_append.2 ⟨?_, ?_, ?_, trivial⟩
    · have hnext := (h.linked.updateNext (x := 0) hpps).retarget h.nodup p
      rw [← h.last] at hnext
      exact hnext.updatePrev hpps
    · exact (Function.update_self p _ s.prev).trans h.last
    · exact (Function.update_of_ne hpl _ _).trans (Function.update_self _ _ _)
  · simpa using ⟨h.null, h0.symm⟩
  · simpa [List.nodup_append, h.nodup] using fun q hq => ne_of_mem_of_not_mem hq hpps
  · obtain ⟨q, qs, rfl⟩ := List.exists_cons_of_ne_nil h.ne_nil
    exact h.first
  · simp [spawnThread]
  · exact List.mem_append_left _ h.current
  · intro q hq
    rcases List.mem_append.1 hq with hq | hq
    · exact Finset.mem_insert_of_mem (h.allocated q hq)
    · exact List.mem_singleton.1 hq ▸ Finset.mem_insert_self _ _

/-- The current task is taken out, between the others. -/
theorem TaskList.kill (h : TaskList s ps) (hk : s.killThisThread = some s') :
    ∃ before behind, ps = before ++ s.currentTask :: behind ∧ TaskList s' (before ++ behind) ∧
      s'.task = s.task ∧ s'.nextTaskId = s.nextTaskId := by
  obtain ⟨before, behind, rfl⟩ := List.append_of_mem h.current
  refine ⟨before, behind, rfl, ?_⟩
  obtain ⟨-, hprev, hnext, -⟩ := linked_append.1 h.linked
  have hremoved : ∀ p ∈ before ++ behind, p ≠ s.currentTask ∧
      p ∈ before ++ s.currentTask :: behind := fun p hp => by
    have hnd := List.nodup_middle.1 h.nodup
    exact ⟨ne_of_mem_of_not_mem hp (List.nodup_cons.1 hnd).1, by
      rcases List.mem_append.1 hp with hp | hp <;> simp [hp]⟩
  have hnot0 : ∀ p ∈ before ++ behind, p ≠ 0 := fun p hp =>
    ne_of_mem_of_not_mem (hremoved p hp).2 h.null
  unfold killThisThread at hk
  simp only [Option.ite_none_left_eq_some, not_and, Option.some.injEq] at hk
  obtain ⟨hmany, rfl⟩ := hk
  refine ⟨⟨?_, ?_, ?_, ?_, ?_, ?_, ?_⟩, rfl, rfl⟩
  · exact h.linked.remove h.nodup h.null
  · exact fun h0 => hnot0 0 h0 rfl
  · exact (List.nodup_cons.1 (List.nodup_middle.1 h.nodup)).2
  · show (if s.currentTask = s.firstTask then s.next s.currentTask else s.firstTask) = _
    rw [h.first, hnext]
    cases before with
    | nil => simp
    | cons p before => exact if_neg fun he => (hremoved p (by simp)).1 he.symm
  · show (if s.currentTask = s.lastTask then s.prev s.currentTask else s.lastTask) = _
    rw [h.last, hprev]
    obtain rfl | ⟨behind, p, rfl⟩ := behind.eq_nil_or_concat
    · simp
    · have hne := (hremoved p (by simp)).1
      simp only [List.concat_eq_append, ← List.append_assoc, ← List.cons_append,
        List.getLastD_concat, if_neg hne.symm]
  · show s.successor ∈ _
    unfold successor
    rw [hnext]
    cases behind with
    | cons p behind =>
      rw [if_pos (hnot0 _ (by simp))]
      simp
    | nil =>
      -- the last task hands over to the first one, which is another
      rw [if_neg (by simp), h.first]
      cases before with
      | nil => exact absurd hnext (hmany hprev)
      | cons p before => simp
  · exact fun p hp => Finset.mem_erase.2 ⟨(hremoved p hp).1, h.allocated p (hremoved p hp).2⟩

/-- What the tasks hold does not matter. -/
theorem TaskList.setTask (h : TaskList s ps) (task : ℕ → Task) {c : ℕ} (hc : c ∈ ps) :
    TaskList { s with task := task, currentTask := c } ps :=
  ⟨h.linked, h.null, h.nodup, h.first, h.last, hc, h.allocated⟩

theorem TaskList.following_mem (h : TaskList s ps) {t : ℕ} (ht : t ∈ ps) :
    s.following t ∈ ps := by
  unfold following
  split_ifs with h0
  · exact h.first ▸ headD_mem (List.ne_nil_of_mem ht) 0
  · exact (h.linked.next_mem ht).resolve_left h0

/-- Where the loop of `_do_switch_task` ends. -/
theorem nextRunnable_spec {n t u : ℕ} (hn : s.nextRunnable n t = some u) :
    (s.task u).waiting = false ∧
      ∀ ps : List ℕ, (∀ t ∈ ps, s.following t ∈ ps) → t ∈ ps → u ∈ ps := by
  induction n generalizing t with
  | zero => cases hn
  | succ n ih =>
    unfold nextRunnable at hn
    dsimp only at hn
    split_ifs at hn with hw
    · obtain ⟨hu, hmem⟩ := ih hn
      exact ⟨hu, fun ps hps ht => hmem ps hps (hps t ht)⟩
    · cases hn
      exact ⟨by simpa using hw, fun ps hps ht => hps t ht⟩

/-- A task of the list goes on, and the registers of the current one are stored. -/
theorem TaskList.switch (h : TaskList s ps) {regs : Registers}
    (hs : s.doSwitchTask regs = some s') :
    ∃ c ∈ ps, s' = { s with
      task := Function.update s.task s.currentTask { s.task s.currentTask with state := regs }
      currentTask := c } := by
  unfold doSwitchTask at hs
  dsimp only at hs
  split at hs
  · cases hs
  · rename_i t ht
    split_ifs at hs
    cases hs
    exact ⟨t, (nextRunnable_spec ht).2 ps (fun u hu => h.following_mem hu) h.current, rfl⟩

theorem setWaiting_cases {tid : ℕ} {w : Bool} (hs : s.setWaiting tid w = some s') :
    s' = s ∨ ∃ t, s' = { s with
      task := Function.update s.task t { s.task t with waiting := w } } := by
  unfold Tasks.setWaiting at hs
  split at hs
  · cases hs
  · cases hs
    exact .inl rfl
  · cases hs
    exact .inr ⟨_, rfl⟩

end Steps

/-! ### The scheduler -/

/-- The tasks, oldest first, and the one that is running. -/
structure Scheduler where
  tasks : List ℕ
  running : ℕ

/-- What a call does to the tasks. -/
inductive SchedulerStep (q : Scheduler) : TaskEvent → Scheduler → Prop
  | spawned {tid p : ℕ} {state : Registers} (hp : p ∉ q.tasks) :
      SchedulerStep q (.spawned tid state) { q with tasks := q.tasks ++ [p] }
  | killed {tid tid' p : ℕ} {before behind : List ℕ}
      (hq : q.tasks = before ++ q.running :: behind) (hp : p ∈ before ++ behind) :
      SchedulerStep q (.killed tid tid') ⟨before ++ behind, p⟩
  | switched {tid tid' p : ℕ} {regs : Registers} (hp : p ∈ q.tasks) :
      SchedulerStep q (.switched tid regs tid') { q with running := p }
  | waitingSet {tid : ℕ} {waiting : Bool} : SchedulerStep q (.waitingSet tid waiting) q

def scheduler : System Scheduler TaskEvent := ⟨SchedulerStep⟩

/-- The list holds the tasks of the scheduler. -/
def Schedules (s : Tasks) (q : Scheduler) : Prop := TaskList s q.tasks ∧ s.currentTask = q.running

/-- The step lemma. -/
theorem simulates_scheduler : tasks.Simulates scheduler Schedules := by
  rintro s ⟨ps, running⟩ e s' ⟨h, rfl⟩ hs
  cases hs with
  | spawn function h0 hp =>
    have hnew := fun hmem => hp (h.allocated _ hmem)
    exact ⟨_, .spawned hnew, h.spawn function h0 hp, rfl⟩
  | kill hk =>
    obtain ⟨before, behind, heq, hlist, -⟩ := h.kill hk
    exact ⟨_, .killed heq hlist.current, hlist, rfl⟩
  | switch regs hs =>
    obtain ⟨c, hc, rfl⟩ := h.switch hs
    exact ⟨_, .switched hc, h.setTask _ hc, rfl⟩
  | setWaiting hs =>
    obtain rfl | ⟨t, rfl⟩ := setWaiting_cases hs
    · exact ⟨_, .waitingSet, h, rfl⟩
    · exact ⟨_, .waitingSet, h.setTask _ h.current, rfl⟩

section Tour

variable {s s' : Tasks} {ps : List ℕ}

/-- The run lemma: the list holds the tasks of a scheduler that has taken the same steps. -/
theorem exists_scheduler (s₀ : Tasks) {p : ℕ} (hp : p ≠ 0) (dir : ℕ)
    (h : tasks.Reachable (s₀.initTasks p dir) s) :
    ∃ q, scheduler.Reachable ⟨[p], p⟩ q ∧ Schedules s q :=
  h.simulated simulates_scheduler ⟨taskList_init s₀ hp dir, rfl⟩

theorem exists_taskList (s₀ : Tasks) {p : ℕ} (hp : p ≠ 0) (dir : ℕ)
    (h : tasks.Reachable (s₀.initTasks p dir) s) : ∃ ps, TaskList s ps := by
  obtain ⟨q, -, hlist, -⟩ := exists_scheduler s₀ hp dir h
  exact ⟨q.tasks, hlist⟩

/-! ### Round the list -/

/-- The tasks in the order in which they follow the current one, which comes last. -/
def Tasks.tour (s : Tasks) (ps : List ℕ) : List ℕ := ps.rotate (ps.idxOf s.currentTask + 1)

theorem TaskList.tour_eq (h : TaskList s ps) {before behind : List ℕ}
    (hps : ps = before ++ s.currentTask :: behind) :
    s.tour ps = behind ++ before ++ [s.currentTask] := by
  have hnd := h.nodup
  rw [hps, List.nodup_append] at hnd
  have hnot : s.currentTask ∉ before := fun hmem =>
    hnd.2.2 _ hmem _ List.mem_cons_self rfl
  have hidx : ps.idxOf s.currentTask + 1 = (before ++ [s.currentTask]).length := by
    rw [hps, List.idxOf_append_of_notMem hnot, List.idxOf_cons_self]
    simp
  rw [tour, hidx, hps, List.append_cons, List.rotate_append_length_eq, List.append_assoc]

/-- Along the links, each task follows the one before it. -/
theorem isChain_of_linked {b : ℕ} (h : Linked s.next s.prev b ps 0) (h0 : 0 ∉ ps) :
    ps.IsChain fun t u => s.following t = u := by
  induction ps generalizing b with
  | nil => exact .nil
  | cons p ps ih =>
    obtain ⟨-, hnext, hrest⟩ := h
    refine List.isChain_cons.2 ⟨fun q hq => ?_, ih hrest (List.not_mem_of_not_mem_cons h0)⟩
    obtain ⟨qs, rfl⟩ : ∃ qs, ps = q :: qs := by
      cases ps with
      | nil => cases hq
      | cons q' qs => exact ⟨qs, by rw [Option.some.inj hq]⟩
    have hq0 : q ≠ 0 := fun he => h0 (by simp [he])
    rw [following, hnext, List.headD_cons, if_neg hq0]

/-- **`following` goes round the list**, from the current task to itself. -/
theorem TaskList.isChain_tour (h : TaskList s ps) :
    (s.currentTask :: s.tour ps).IsChain fun t u => s.following t = u := by
  obtain ⟨before, behind, hps⟩ := List.append_of_mem h.current
  have hchain := isChain_of_linked h.linked h.null
  have hlink := h.linked
  rw [h.tour_eq hps]
  rw [hps] at hchain hlink
  obtain ⟨hbefore, hbehind, hmiddle⟩ := List.isChain_append.1 hchain
  -- behind the last task comes the first one
  have hwrap : ∀ t ∈ (s.currentTask :: behind).getLast?,
      ∀ u ∈ (before ++ [s.currentTask]).head?, s.following t = u := by
    intro t ht u hu
    have hlast : s.next t = 0 := (linked_append.1 hlink).2.next_getLast ht
    rw [following, if_pos hlast, h.first, hps]
    cases before <;> simpa using hu
  have hfront : (before ++ [s.currentTask]).IsChain fun t u => s.following t = u :=
    List.isChain_append.2 ⟨hbefore, .singleton _, hmiddle⟩
  rw [List.append_assoc, ← List.cons_append]
  exact List.isChain_append.2 ⟨hbehind, hfront, hwrap⟩

end Tour

end Kernel

end Bluejay
