import Bluejay.Kernel.TaskList

/-!
# The task list over whole runs

* `TasksOk ls s ps` : after the calls `ls`, the nodes `ps` are one well-formed list of the tasks
  that are alive, and each task that is not running has the registers that were stored for it.
* `tasksOk_of_run` : this holds after every run.
-/

namespace Bluejay

namespace Kernel

open Tasks

/-- The nodes `ps` are the list of the tasks that are alive after the calls `ls`. -/
structure TasksOk (ls : List TaskEvent) (s : Tasks) (ps : List ℕ) : Prop where
  linked : Linked s.next s.prev 0 ps 0
  null : 0 ∉ ps
  nodup : ps.Nodup
  first : s.firstTask = ps.headD 0
  last : s.lastTask = ps.getLastD 0
  current : s.currentTask ∈ ps
  alive : ps.map (fun p => (s.task p).id) = alive ls
  ids : (Kernel.alive ls).Nodup
  saved : ∀ p ∈ ps, p ≠ s.currentTask → saved (s.task p).id ls = some (s.task p).state

/-- The invariant of a run. -/
structure TaskInv (ls : List TaskEvent) (s : Tasks) (ps : List ℕ) : Prop extends TasksOk ls s ps where
  allocated : ∀ p ∈ ps, p ∈ s.allocated
  nextTaskId : s.nextTaskId = u32 (spawns ls + 1)
  old : ∀ t ∈ Kernel.alive ls, t ≤ spawns ls

section Events

variable {ls : List TaskEvent} {t tid next : ℕ} {regs : Registers} {w : Bool}

@[simp] theorem alive_spawned : alive (ls ++ [.spawned tid regs]) = alive ls ++ [tid] := by
  simp [alive]

@[simp] theorem alive_killed : alive (ls ++ [.killed tid next]) = (alive ls).erase tid := by
  simp [alive]

@[simp] theorem alive_switched : alive (ls ++ [.switched tid regs next]) = alive ls := by
  simp [alive]

@[simp] theorem alive_waitingSet : alive (ls ++ [.waitingSet tid w]) = alive ls := by
  simp [alive]

@[simp] theorem saved_spawned :
    saved t (ls ++ [.spawned tid regs]) = if tid = t then some regs else saved t ls := by
  simp [saved]

@[simp] theorem saved_killed : saved t (ls ++ [.killed tid next]) = saved t ls := by simp [saved]

@[simp] theorem saved_switched :
    saved t (ls ++ [.switched tid regs next]) = if tid = t then some regs else saved t ls := by
  simp [saved]

@[simp] theorem saved_waitingSet : saved t (ls ++ [.waitingSet tid w]) = saved t ls := by
  simp [saved]

@[simp] theorem spawns_spawned : spawns (ls ++ [.spawned tid regs]) = spawns ls + 1 := by
  simp [spawns]

@[simp] theorem spawns_killed : spawns (ls ++ [.killed tid next]) = spawns ls := by simp [spawns]

@[simp] theorem spawns_switched : spawns (ls ++ [.switched tid regs next]) = spawns ls := by
  simp [spawns]

@[simp] theorem spawns_waitingSet : spawns (ls ++ [.waitingSet tid w]) = spawns ls := by
  simp [spawns]

theorem spawns_append_le (e : TaskEvent) : spawns ls ≤ spawns (ls ++ [e]) := by
  simp [spawns, List.countP_append]

end Events

section Steps

variable {ls : List TaskEvent} {s s' : Tasks} {ps : List ℕ}

theorem TaskInv.list (h : TaskInv ls s ps) : TaskList s ps :=
  ⟨h.linked, h.null, h.nodup, h.first, h.last, h.current, h.allocated⟩

/-- The list and what is known of its tasks. -/
theorem TaskList.taskInv (h : TaskList s ps) (halive : ps.map (fun p => (s.task p).id) = alive ls)
    (hids : (alive ls).Nodup)
    (hsaved : ∀ p ∈ ps, p ≠ s.currentTask → saved (s.task p).id ls = some (s.task p).state)
    (hnext : s.nextTaskId = u32 (spawns ls + 1)) (hold : ∀ t ∈ alive ls, t ≤ spawns ls) :
    TaskInv ls s ps :=
  ⟨⟨h.linked, h.null, h.nodup, h.first, h.last, h.current, halive, hids, hsaved⟩, h.allocated,
    hnext, hold⟩

theorem taskInv_init (s : Tasks) {p : ℕ} (hp : p ≠ 0) (dir : ℕ) :
    TaskInv [] (s.initTasks p dir) [p] := by
  refine (taskList_init s hp dir).taskInv (by simp [initTasks, alive]) (List.nodup_singleton 0)
    (fun q hq hne => absurd (List.mem_singleton.1 hq) hne) rfl fun t ht => ?_
  obtain rfl : t = 0 := by simpa [alive] using ht
  exact Nat.zero_le _

theorem TaskInv.ne_of_mem (h : TaskInv ls s ps) {p q : ℕ} (hp : p ∈ ps) (hq : q ∈ ps)
    (hne : p ≠ q) : (s.task p).id ≠ (s.task q).id := fun heq =>
  hne (List.inj_on_of_nodup_map (h.alive ▸ h.ids) hp hq heq)

theorem TaskInv.spawn (h : TaskInv ls s ps) {p : ℕ} (function : ℕ) (h0 : p ≠ 0)
    (hp : p ∉ s.allocated) (hlt : spawns ls + 1 < 2 ^ 32) :
    TaskInv (ls ++ [.spawned s.nextTaskId (s.spawnState function)]) (s.spawnThread p function)
      (ps ++ [p]) := by
  have hpps : p ∉ ps := fun hmem => hp (h.allocated p hmem)
  have hid : s.nextTaskId = spawns ls + 1 := h.nextTaskId.trans (u32_of_lt hlt)
  have htask : ∀ q ∈ ps, (s.spawnThread p function).task q = s.task q := fun q hq =>
    Function.update_of_ne (ne_of_mem_of_not_mem hq hpps) _ _
  have htaskp : ((s.spawnThread p function).task p).id = s.nextTaskId ∧
      ((s.spawnThread p function).task p).state = s.spawnState function := by
    simp [spawnThread]
  have hold : ∀ t ∈ alive ls, t ≠ s.nextTaskId := fun t ht he => by
    have := h.old t ht
    omega
  refine (h.list.spawn function h0 hp).taskInv ?_ ?_ ?_ ?_ ?_
  · rw [List.map_append, List.map_congr_left fun q hq => by rw [htask q hq], h.alive,
      List.map_singleton, htaskp.1, alive_spawned]
  · rw [alive_spawned, List.nodup_append]
    exact ⟨h.ids, List.nodup_singleton _, fun t ht u hu => List.mem_singleton.1 hu ▸ hold t ht⟩
  · intro q hq hne
    rw [saved_spawned]
    rcases List.mem_append.1 hq with hq | hq
    · rw [htask q hq, if_neg (hold _ (h.alive ▸ List.mem_map_of_mem hq)).symm]
      exact h.saved q hq hne
    · obtain rfl := List.mem_singleton.1 hq
      rw [htaskp.1, htaskp.2, if_pos rfl]
  · show u32 (s.nextTaskId + 1) = _
    rw [hid, spawns_spawned]
  · intro t ht
    rw [spawns_spawned]
    rcases List.mem_append.1 (alive_spawned ▸ ht) with ht | ht
    · exact (h.old t ht).trans (Nat.le_succ _)
    · rw [List.mem_singleton.1 ht, hid]

theorem TaskInv.kill (h : TaskInv ls s ps) (hk : s.killThisThread = some s') :
    ∃ ps', TaskInv (ls ++ [.killed s.taskId s'.taskId]) s' ps' := by
  obtain ⟨before, behind, rfl, hlist, htask, hid⟩ := h.list.kill hk
  have hremoved : ∀ p ∈ before ++ behind, p ≠ s.currentTask ∧
      p ∈ before ++ s.currentTask :: behind := fun p hp => by
    have hnd := List.nodup_middle.1 h.nodup
    exact ⟨ne_of_mem_of_not_mem hp (List.nodup_cons.1 hnd).1, by
      rcases List.mem_append.1 hp with hp | hp <;> simp [hp]⟩
  refine ⟨before ++ behind, hlist.taskInv ?_ ?_ ?_ ?_ ?_⟩
  · rw [alive_killed, ← h.alive, htask, List.map_append, List.map_append, List.map_cons]
    have hnot : s.taskId ∉ before.map fun p => (s.task p).id := fun hmem => by
      obtain ⟨p, hp, he⟩ := List.mem_map.1 hmem
      have hp' := hremoved p (List.mem_append_left _ hp)
      exact h.ne_of_mem hp'.2 h.current hp'.1 he
    rw [List.erase_append_right _ hnot]
    exact congrArg _ (List.erase_cons_head _ _).symm
  · rw [alive_killed]
    exact h.ids.erase _
  · intro p hp _
    rw [saved_killed, htask]
    exact h.saved p (hremoved p hp).2 (hremoved p hp).1
  · rw [spawns_killed, hid]
    exact h.nextTaskId
  · intro t ht
    rw [spawns_killed]
    exact h.old t (List.mem_of_mem_erase (alive_killed ▸ ht))

/-- A change of the tasks that leaves their ids alone. -/
theorem TaskInv.setTask (h : TaskInv ls s ps) {e : TaskEvent} {task : ℕ → Task} {c : ℕ}
    (hid : ∀ p, (task p).id = (s.task p).id) (hc : c ∈ ps) (halive : alive (ls ++ [e]) = alive ls)
    (hspawns : spawns (ls ++ [e]) = spawns ls)
    (hsaved : ∀ p ∈ ps, p ≠ c → saved (s.task p).id (ls ++ [e]) = some (task p).state) :
    TaskInv (ls ++ [e]) { s with task := task, currentTask := c } ps := by
  refine (h.list.setTask task hc).taskInv ?_ (halive ▸ h.ids) ?_ (hspawns ▸ h.nextTaskId) ?_
  · simp only [hid, h.alive, halive]
  · intro p hp hne
    rw [hid]
    exact hsaved p hp hne
  · rw [halive, hspawns]
    exact h.old

theorem TaskInv.switch (h : TaskInv ls s ps) {regs : Registers}
    (hs : s.doSwitchTask regs = some s') :
    TaskInv (ls ++ [.switched s.taskId regs s'.taskId]) s' ps := by
  obtain ⟨c, hc, rfl⟩ := h.list.switch hs
  refine h.setTask (fun p => ?_) hc alive_switched spawns_switched fun p hp hne => ?_
  · rw [Function.update_apply]
    split_ifs with hp
    · rw [hp]
    · rfl
  · rw [saved_switched, Function.update_apply]
    by_cases hpc : p = s.currentTask
    · rw [if_pos (by rw [hpc]; rfl), if_pos hpc]
    · have hid : s.taskId ≠ (s.task p).id := h.ne_of_mem h.current hp (Ne.symm hpc)
      rw [if_neg hid, if_neg hpc]
      exact h.saved p hp hpc

theorem TaskInv.setWaiting (h : TaskInv ls s ps) {tid : ℕ} {w : Bool}
    (hs : s.setWaiting tid w = some s') : TaskInv (ls ++ [.waitingSet tid w]) s' ps := by
  have hsaved : ∀ p ∈ ps, p ≠ s.currentTask →
      saved (s.task p).id (ls ++ [.waitingSet tid w]) = some (s.task p).state := fun p hp hne => by
    rw [saved_waitingSet]
    exact h.saved p hp hne
  obtain rfl | ⟨t, rfl⟩ := setWaiting_cases hs
  · exact h.setTask (fun _ => rfl) h.current alive_waitingSet spawns_waitingSet hsaved
  · refine h.setTask (fun p => ?_) h.current alive_waitingSet spawns_waitingSet fun p hp hne => ?_
    all_goals
      rw [Function.update_apply]
      split_ifs with hpt
    · rw [hpt]
    · rfl
    · rw [hsaved p hp hne, hpt]
    · exact hsaved p hp hne

/-- The step lemma. -/
theorem TaskInv.step (h : TaskInv ls s ps) {e : TaskEvent} (hs : TaskStep s e s')
    (hlt : spawns (ls ++ [e]) < 2 ^ 32) : ∃ ps', TaskInv (ls ++ [e]) s' ps' := by
  cases hs with
  | spawn function h0 hp =>
    rw [spawns_spawned] at hlt
    exact ⟨_, h.spawn function h0 hp hlt⟩
  | kill hk => exact h.kill hk
  | switch regs hs => exact ⟨ps, h.switch hs⟩
  | setWaiting hs => exact ⟨ps, h.setWaiting hs⟩

/-- **The tasks are one well-formed list**, in which each task that is alive occurs once and has
its registers. -/
theorem tasksOk_of_run (s₀ : Tasks) {p : ℕ} (hp : p ≠ 0) (dir : ℕ)
    (h : tasks.Run (s₀.initTasks p dir) ls s) (hlt : spawns ls < 2 ^ 32) :
    ∃ ps, TasksOk ls s ps := by
  have hinv : ∃ ps, TaskInv ls s ps := by
    induction h with
    | nil => exact ⟨[p], taskInv_init s₀ hp dir⟩
    | @snoc ls s s' e _ hs ih =>
      obtain ⟨ps, hps⟩ := ih ((spawns_append_le e).trans_lt hlt)
      exact hps.step hs hlt
  exact hinv.imp fun _ h => h.toTasksOk

end Steps

/-! ### Waiting tasks -/

/-- The call hands control to a task. -/
def TaskEvent.transfers : TaskEvent → Bool
  | .killed _ _ | .switched _ _ _ => true
  | _ => false

/-- If the call hands control to a task, it does not wait. -/
def ResumesReady (x : Tasks × TaskEvent × Tasks) : Prop :=
  x.2.1.transfers → (x.2.2.task x.2.2.currentTask).waiting = false

/-- If the call is `kill_this_thread`, the task it hands over to does not wait. -/
def SuccessorReady (x : Tasks × TaskEvent × Tasks) : Prop :=
  ∀ tid next, x.2.1 = .killed tid next → (x.1.task x.1.successor).waiting = false

/-- `kill_this_thread` does not look at the flag; `_do_switch_task` does. -/
theorem resumesReady_step {s s' : Tasks} {e : TaskEvent} (hs : TaskStep s e s') :
    ResumesReady (s, e, s') ↔ SuccessorReady (s, e, s') := by
  cases hs with
  | spawn function h0 hp => exact ⟨fun _ _ _ h => (nomatch h), fun _ h => (nomatch h)⟩
  | setWaiting hs => exact ⟨fun _ _ _ h => (nomatch h), fun _ h => (nomatch h)⟩
  | kill hk =>
    unfold Tasks.killThisThread at hk
    simp only [Option.ite_none_left_eq_some, Option.some.injEq] at hk
    obtain ⟨-, rfl⟩ := hk
    exact ⟨fun h _ _ _ => h rfl, fun h _ => h _ _ rfl⟩
  | switch regs hs =>
    refine ⟨fun _ _ _ h => (nomatch h), fun _ _ => ?_⟩
    unfold Tasks.doSwitchTask at hs
    dsimp only at hs
    split at hs
    · cases hs
    · rename_i t ht
      split_ifs at hs
      cases hs
      exact (nextRunnable_spec ht).1

/-- Memory before `init_tasks`. -/
def noTasks : Tasks :=
  ⟨fun _ => 0, fun _ => 0, fun _ => ⟨0, false, 0, .zero⟩, ∅, 0, 0, 0, 0, fun _ => ⟨0, 0⟩⟩

/-- Two tasks, with ids 0 and 1; the first one is running. -/
def twoTasks : Tasks := (noTasks.initTasks 8 0).spawnThread 16 0

theorem tasksOk_twoTasks :
    ∃ ps, TasksOk [.spawned 1 ((noTasks.initTasks 8 0).spawnState 0)] twoTasks ps :=
  tasksOk_of_run noTasks (p := 8) (by decide) 0 (.snoc (.nil) (.spawn 0 (by decide) (by decide)))
    (by decide)

end Kernel

end Bluejay
