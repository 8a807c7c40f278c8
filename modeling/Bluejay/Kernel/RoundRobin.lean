import Bluejay.Kernel.TaskSafety

/-!
# Round robin

* `switchTasks` : calls of `_do_switch_task`, with nothing between them.
* `Fair` : they select the tasks that are not waiting once each, in the order of the list.
* `fair_of_reachable` : this holds in every state that can be reached.
* `EndsInTour` : the loop of `_do_switch_task` ends after one tour of the list at most.
* `endsInTour_iff` : this is so exactly if some task is not waiting; otherwise the loop does not
  end, and the panic behind it is not reached.
-/

namespace Bluejay

namespace Kernel

namespace Tasks

/-- The task is not waiting. -/
def ready (s : Tasks) (t : ℕ) : Bool := !(s.task t).waiting

/-- Calls of `_do_switch_task` one after the other, and the tasks that they switch to. -/
def switchTasks : List Registers → Tasks → Option (List ℕ × Tasks)
  | [], s => some ([], s)
  | regs :: rest, s => do
    let s' ← s.doSwitchTask regs
    let (ts, s'') ← switchTasks rest s'
    return (s'.currentTask :: ts, s'')

end Tasks

open Tasks

/-- As many switches as there are tasks that are not waiting select each of these once, in the
order in which they follow the current task, and no other one. -/
def Fair (s : Tasks) (ps : List ℕ) : Prop :=
  ∀ regs : List Registers, regs.length = ps.countP s.ready →
    ∃ ts s', switchTasks regs s = some (ts, s') ∧ ts = (s.tour ps).filter s.ready ∧
      ∀ t, ts.count t = if t ∈ ps ∧ s.ready t = true then 1 else 0

/-- After one tour of the list at most the loop has ended: at a task that is not waiting if there
is one, and otherwise at the current task, for which the kernel panics. -/
def EndsInTour (s : Tasks) (ps : List ℕ) : Prop :=
  ∃ n ≤ ps.length, ∃ t, s.nextRunnable n s.currentTask = some t ∧
    if ps.any s.ready then s.ready t = true
    else t = s.currentTask ∧ (s.task s.currentTask).waiting = true

section Switches

variable {s s' : Tasks} {ps qs : List ℕ} {n t q : ℕ}

/-- The loop stops at the first task ahead that is not waiting. -/
theorem nextRunnable_eq_some {front : List ℕ}
    (h : (t :: (front ++ [q])).IsChain fun t u => s.following t = u)
    (hfront : ∀ u ∈ front, s.ready u = false) (hq : s.ready q = true) (hn : front.length < n) :
    s.nextRunnable n t = some q := by
  obtain ⟨n, rfl⟩ := Nat.exists_eq_succ_of_ne_zero (Nat.ne_zero_of_lt hn)
  induction front generalizing n t with
  | nil =>
    obtain rfl : s.following t = q := h.rel
    have hw : (s.task (s.following t)).waiting = false := by simpa [ready] using hq
    simp [nextRunnable, hw]
  | cons u front ih =>
    obtain rfl : s.following t = u := h.rel
    have hw : (s.task (s.following t)).waiting = true := by
      simpa [ready] using hfront _ List.mem_cons_self
    obtain ⟨n, rfl⟩ := Nat.exists_eq_succ_of_ne_zero (n := n) (by simp at hn; omega)
    rw [nextRunnable]
    simp only [hw, if_true]
    exact ih h.tail (fun u hu => hfront u (List.mem_cons_of_mem _ hu)) n (by simpa using hn)

/-- If all tasks are waiting, the loop does not end. -/
theorem nextRunnable_eq_none (hps : ∀ u ∈ ps, s.following u ∈ ps ∧ s.ready u = false)
    (ht : t ∈ ps) : s.nextRunnable n t = none := by
  induction n generalizing t with
  | zero => rfl
  | succ n ih =>
    have hmem := (hps t ht).1
    have hw : (s.task (s.following t)).waiting = true := by simpa [ready] using (hps _ hmem).2
    rw [nextRunnable]
    simp only [hw, if_true]
    exact ih hmem

/-- A change of the tasks that leaves their flags alone. -/
theorem ready_congr {task : ℕ → Task} (c : ℕ) (h : ∀ p, (task p).waiting = (s.task p).waiting) :
    ready { s with task := task, currentTask := c } = s.ready := by
  funext p
  simp [ready, h]

theorem waiting_update (regs : Registers) (p : ℕ) :
    (Function.update s.task s.currentTask { s.task s.currentTask with state := regs } p).waiting =
      (s.task p).waiting := by
  rw [Function.update_apply]
  split_ifs with hp
  · rw [hp]
  · rfl

/-- One switch, to the first task ahead that is not waiting. -/
theorem doSwitchTask_eq {front : List ℕ}
    (h : (s.currentTask :: (front ++ [q])).IsChain fun t u => s.following t = u)
    (hfront : ∀ u ∈ front, s.ready u = false) (hq : s.ready q = true)
    (hn : front.length < s.allocated.card) (regs : Registers) :
    s.doSwitchTask regs = some { s with
      task := Function.update s.task s.currentTask { s.task s.currentTask with state := regs }
      currentTask := q } := by
  -- storing the registers changes neither the list nor the flags
  have hready := ready_congr s.currentTask fun p => waiting_update (s := s) regs p
  have hnext := nextRunnable_eq_some (s := { s with
      task := Function.update s.task s.currentTask { s.task s.currentTask with state := regs } })
    h (fun u hu => by rw [hready]; exact hfront u hu) (by rw [hready]; exact hq) hn
  have hflag : ¬ (q = s.currentTask ∧ (s.task s.currentTask).waiting = true) := by
    rintro ⟨rfl, hw⟩
    simp [ready, hw] at hq
  rw [doSwitchTask]
  simp only [hnext, Function.update_self, if_neg hflag]

/-- The switches select the tasks ahead that are not waiting. -/
theorem switchTasks_eq (regs : List Registers)
    (h : (s.currentTask :: qs).IsChain fun t u => s.following t = u)
    (hn : qs.length ≤ s.allocated.card) (hlen : regs.length = qs.countP s.ready) :
    ∃ s', switchTasks regs s = some (qs.filter s.ready, s') := by
  induction regs generalizing s qs with
  | nil =>
    have hnone : qs.filter s.ready = [] := by
      rw [List.filter_eq_nil_iff]
      exact List.countP_eq_zero.1 hlen.symm
    exact ⟨s, by rw [switchTasks, hnone]⟩
  | cons regs rest ih =>
    obtain ⟨q, hfind⟩ : ∃ q, qs.find? s.ready = some q := by
      rw [← Option.isSome_iff_exists, List.find?_isSome]
      exact List.countP_pos_iff.1 (by rw [← hlen]; exact Nat.succ_pos _)
    obtain ⟨hq, front, behind, rfl, hfront⟩ := List.find?_eq_some_iff_append.1 hfind
    replace hfront : ∀ u ∈ front, s.ready u = false := fun u hu => by simpa using hfront u hu
    have hnone : front.filter s.ready = [] := by
      rw [List.filter_eq_nil_iff]
      exact fun u hu => by simp [hfront u hu]
    obtain ⟨hahead, hbehind⟩ : (s.currentTask :: (front ++ [q])).IsChain
        (fun t u => s.following t = u) ∧ (q :: behind).IsChain fun t u => s.following t = u := by
      rw [← List.cons_append, List.isChain_split] at h
      exact h
    have hstep := doSwitchTask_eq hahead hfront hq (by simp at hn; omega) regs
    have hready := ready_congr q fun p => waiting_update (s := s) regs p
    obtain ⟨s', hrest⟩ := ih (s := { s with
        task := Function.update s.task s.currentTask { s.task s.currentTask with state := regs }
        currentTask := q }) hbehind (by simp at hn ⊢; omega) (by
      rw [hready]
      simpa [List.countP_append, List.countP_eq_length_filter, hnone, hq] using hlen)
    rw [hready] at hrest
    refine ⟨s', ?_⟩
    rw [switchTasks, hstep]
    simp [hrest, hnone, hq]

theorem TaskList.length_le_card (h : TaskList s ps) : ps.length ≤ s.allocated.card := by
  rw [← List.toFinset_card_of_nodup h.nodup]
  exact Finset.card_le_card fun p hp => h.allocated p (List.mem_toFinset.1 hp)

/-- **The switches are fair.** -/
theorem TaskList.fair (h : TaskList s ps) : Fair s ps := by
  intro regs hlen
  have hperm : (s.tour ps).Perm ps := List.rotate_perm _ _
  obtain ⟨s', hs'⟩ := switchTasks_eq regs h.isChain_tour
    (by rw [hperm.length_eq]; exact h.length_le_card) (by rw [hperm.countP_eq]; exact hlen)
  refine ⟨_, s', hs', rfl, fun t => ?_⟩
  have hnd : (s.tour ps).Nodup := List.nodup_rotate.2 h.nodup
  simp only [(hnd.filter _).count, List.mem_filter, hperm.mem_iff]

/-- **Round robin**, in every state that can be reached. -/
theorem fair_of_reachable (s₀ : Tasks) {p : ℕ} (hp : p ≠ 0) (dir : ℕ)
    (h : tasks.Reachable (s₀.initTasks p dir) s) : ∃ ps, TaskList s ps ∧ Fair s ps := by
  obtain ⟨ps, hps⟩ := exists_taskList s₀ hp dir h
  exact ⟨ps, hps, hps.fair⟩

theorem fair_twoTasks : ∃ ps, TaskList twoTasks ps ∧ Fair twoTasks ps :=
  fair_of_reachable noTasks (p := 8) (by decide) 0
    ((System.Reachable.refl _).tail (.spawn (p := 16) 0 (by decide) (by decide)))

/-! ### The end of the loop -/

theorem TaskList.endsInTour (h : TaskList s ps) :
    EndsInTour s ps ↔ ∃ t ∈ ps, s.ready t = true := by
  have hany : ps.any s.ready = true ↔ ∃ t ∈ ps, s.ready t = true := List.any_eq_true
  constructor
  · rintro ⟨n, -, t, ht, -⟩
    by_contra hno
    have hall : ∀ u ∈ ps, s.following u ∈ ps ∧ s.ready u = false := fun u hu =>
      ⟨h.following_mem hu, Bool.eq_false_iff.2 fun hu' => hno ⟨u, hu, hu'⟩⟩
    rw [nextRunnable_eq_none hall h.current] at ht
    cases ht
  · intro hex
    have hperm : (s.tour ps).Perm ps := List.rotate_perm _ _
    obtain ⟨q, hfind⟩ : ∃ q, (s.tour ps).find? s.ready = some q := by
      rw [← Option.isSome_iff_exists, List.find?_isSome]
      obtain ⟨t, ht, hready⟩ := hex
      exact ⟨t, hperm.mem_iff.2 ht, hready⟩
    obtain ⟨hq, front, behind, htour, hfront⟩ := List.find?_eq_some_iff_append.1 hfind
    have hchain := h.isChain_tour
    have hlen := hperm.length_eq
    rw [htour] at hlen hchain
    rw [← List.cons_append, List.isChain_split] at hchain
    refine ⟨ps.length, le_rfl, q, ?_, by rw [if_pos (hany.2 hex)]; exact hq⟩
    refine nextRunnable_eq_some hchain.1 (fun u hu => by simpa using hfront u hu) hq ?_
    simp at hlen
    omega

/-- **The selection ends exactly if some task is not waiting**, in every state that can be
reached. -/
theorem endsInTour_iff (s₀ : Tasks) {p : ℕ} (hp : p ≠ 0) (dir : ℕ)
    (h : tasks.Reachable (s₀.initTasks p dir) s) :
    ∃ ps, TaskList s ps ∧ (EndsInTour s ps ↔ ∃ t ∈ ps, s.ready t = true) := by
  obtain ⟨ps, hps⟩ := exists_taskList s₀ hp dir h
  exact ⟨ps, hps, hps.endsInTour⟩

theorem endsInTour_twoTasks : ∃ ps, TaskList twoTasks ps ∧
    (EndsInTour twoTasks ps ↔ ∃ t ∈ ps, twoTasks.ready t = true) :=
  endsInTour_iff noTasks (p := 8) (by decide) 0
    ((System.Reachable.refl _).tail (.spawn (p := 16) 0 (by decide) (by decide)))

/-- **The only task marks itself as waiting**, and the loop does not end. -/
theorem not_endsInTour : ¬ ∀ (s₀ : Tasks) (p dir : ℕ) (s : Tasks), p ≠ 0 →
    tasks.Reachable (s₀.initTasks p dir) s → ∃ ps, TaskList s ps ∧ EndsInTour s ps := by
  intro h
  obtain ⟨s, hs, hnext, hcurrent, hw⟩ : ∃ s, (noTasks.initTasks 8 0).setWaiting 0 true = some s ∧
      s.following 8 = 8 ∧ s.currentTask = 8 ∧ (s.task 8).waiting = true :=
    ⟨_, rfl, rfl, rfl, rfl⟩
  obtain ⟨ps, -, n, -, t, ht, -⟩ := h noTasks 8 0 s (by decide) ((System.Reachable.refl _).tail
    (.setWaiting hs))
  have hnone : s.nextRunnable n s.currentTask = none := by
    refine @nextRunnable_eq_none _ [8] _ _ (fun u hu => ?_) (by simp [hcurrent])
    obtain rfl := List.mem_singleton.1 hu
    exact ⟨by simp [hnext], by simp [ready, hw]⟩
  rw [ht] at hnone
  cases hnone

end Switches

end Kernel

end Bluejay
