import Bluejay.Kernel.Semaphore
import Bluejay.Lib.Links

/-!
# The queue of a semaphore

`sm_unsafe_wait` puts a task at the end of the queue, and `sm_unsafe_signal` takes the first one.
Both do so under the spinlock, so that a run is a sequence of such changes, in any order.

* `waitQueue` : the runs, with the tasks that ought to be in the queue beside the state.
* `ChangeOk` : the queue is what it ought to be, the task that has waited longest is woken up, and
  no entry that was freed is accessed.
* `QueueInv` : what holds while no change takes the only entry; `last` is the last entry.
* `fifo_iff` : all changes of a run are right exactly if none takes the only entry, since `last` is
  left as it is then.
* `lost_of_drained` : from then on no task is woken up.
-/

namespace Bluejay

namespace Kernel

/-- A change of the queue. -/
inductive QueueOp (Task : Type*)
  /-- In `sm_unsafe_wait`, with the address of the entry that is allocated. -/
  | enqueue (t : Task) (a : ℕ)
  /-- In `sm_unsafe_signal`. -/
  | dequeue

/-- The tasks that wait, in the order they came in, after a change. -/
def QueueOp.waiting {Task : Type*} : QueueOp Task → List Task → List Task
  | .enqueue t _, ts => ts ++ [t]
  | .dequeue, ts => ts.tail

/-- The entries `es`, each with its address and its task, lie one behind the other from `p` on. -/
def Entries {Task : Type*} (node : ℕ → Option (SmTask Task)) : ℕ → List (ℕ × Task) → Prop
  | p, [] => p = 0
  | p, (a, t) :: es => p = a ∧ a ≠ 0 ∧ ∃ n, node a = some ⟨t, n⟩ ∧ Entries node n es

/-- The entries, other than a new one, that a change reads, writes or frees. -/
def accessed {Task : Type*} (s : SmState Task) : QueueOp Task → List ℕ
  | .enqueue _ _ => if s.sem.last = 0 then [] else [s.sem.last]
  | .dequeue => if s.sem.first = 0 then [] else [s.sem.first]

/-- The queue holds exactly the tasks `ts`, in this order. -/
structure QueueOk {Task : Type*} (s : SmState Task) (ts : List Task) : Prop where
  ends : s.sem.first = 0 ↔ s.sem.last = 0
  entries : ∃ es, Entries s.node s.sem.first es ∧ es.map Prod.snd = ts ∧
    (es.map Prod.fst).Nodup ∧ ∀ a ∈ es.map Prod.fst, s.allocated a = true

section Queue

variable {Task : Type*} [DecidableEq Task]

variable (Task) in
/-- The changes of a queue, with the tasks that wait. -/
def waitQueue : System (SmState Task × List Task) (QueueOp Task) where
  step x op y := y.2 = op.waiting x.2 ∧
    match op with
    | .enqueue t a => a ≠ 0 ∧ x.1.allocated a = false ∧ y.1 = x.1.enqueue t a
    | .dequeue => y.1 = x.1.dequeue

/-- A change is right. -/
structure ChangeOk
    (x : (SmState Task × List Task) × QueueOp Task × (SmState Task × List Task)) : Prop where
  queue : QueueOk x.2.2.1 x.2.2.2
  wakes : x.2.1 = .dequeue → x.2.2.1.waiting =
    match x.1.2 with
    | [] => x.1.1.waiting
    | t :: _ => Function.update x.1.1.waiting t false
  live : ∀ a ∈ accessed x.1.1 x.2.1, x.1.1.allocated a = true

/-- The change takes the only entry. -/
def TakesOnly (s : SmState Task) (op : QueueOp Task) : Prop :=
  op = .dequeue ∧ s.sem.first ≠ 0 ∧ ∃ t, s.node s.sem.first = some ⟨t, 0⟩

/-- What holds along a run in which no change takes the only entry. -/
structure QueueInv (s : SmState Task) (es : List (ℕ × Task)) : Prop where
  entries : Entries s.node s.sem.first es
  nodup : (es.map Prod.fst).Nodup
  allocated : ∀ a ∈ es.map Prod.fst, s.allocated a = true
  last : s.sem.last = (es.map Prod.fst).getLastD 0

variable {s s' : SmState Task} {t : Task} {a p : ℕ} {es : List (ℕ × Task)}
  {node node' : ℕ → Option (SmTask Task)}

/-! ### Entries -/

omit [DecidableEq Task] in
theorem Entries.ne_zero (h : Entries node p es) (ha : a ∈ es.map Prod.fst) : a ≠ 0 := by
  induction es generalizing p with
  | nil => cases ha
  | cons e es ih =>
    obtain ⟨-, hne, n, -, ht⟩ := h
    rcases List.mem_cons.1 ha with rfl | ha
    · exact hne
    · exact ih ht ha

omit [DecidableEq Task] in
theorem Entries.eq_zero_iff (h : Entries node p es) : p = 0 ↔ es = [] := by
  cases es with
  | nil => exact iff_of_true h rfl
  | cons e es => exact iff_of_false (h.1 ▸ h.2.1) (List.cons_ne_nil _ _)

omit [DecidableEq Task] in
/-- Other nodes do not matter. -/
theorem Entries.congr (h : Entries node p es) (hn : ∀ a ∈ es.map Prod.fst, node' a = node a) :
    Entries node' p es := by
  induction es generalizing p with
  | nil => exact h
  | cons e es ih =>
    obtain ⟨hp, hne, n, hnode, ht⟩ := h
    rw [List.map_cons, List.forall_mem_cons] at hn
    exact ⟨hp, hne, n, hn.1.trans hnode, ih ht hn.2⟩

omit [DecidableEq Task] in
/-- The last entry is linked to a new one. -/
theorem Entries.snoc (h : Entries node p es) (hes : es ≠ []) (hnd : (es.map Prod.fst).Nodup)
    (ha : a ∉ es.map Prod.fst) (h0 : a ≠ 0) (hnew : node a = some ⟨t, 0⟩) :
    Entries (Function.update node ((es.map Prod.fst).getLastD 0)
      ((node ((es.map Prod.fst).getLastD 0)).map fun n => { n with next := a })) p
      (es ++ [(a, t)]) := by
  induction es generalizing p with
  | nil => exact absurd rfl hes
  | cons e es ih =>
    obtain ⟨rfl, hne, n, hnode, ht⟩ := h
    rw [List.map_cons, List.nodup_cons] at hnd
    rw [List.map_cons, List.mem_cons, not_or] at ha
    cases es with
    | nil =>
      refine ⟨rfl, hne, a, ?_, rfl, h0, 0, ?_, rfl⟩
      · rw [show ([e].map Prod.fst).getLastD 0 = e.1 from rfl, Function.update_self, hnode]
        rfl
      · rw [← hnew]
        exact Function.update_of_ne ha.1 _ _
    | cons e' es =>
      have hlast : ((e :: e' :: es).map Prod.fst).getLastD 0 =
          ((e' :: es).map Prod.fst).getLastD 0 := rfl
      have hmem : ((e' :: es).map Prod.fst).getLastD 0 ∈ (e' :: es).map Prod.fst :=
        getLastD_mem (List.cons_ne_nil _ _) 0
      rw [hlast]
      refine ⟨rfl, hne, n, ?_, ih ht (List.cons_ne_nil _ _) hnd.2 ha.2⟩
      rw [← hnode]
      exact Function.update_of_ne (ne_of_mem_of_not_mem hmem hnd.1).symm _ _

/-! ### The changes -/

omit [DecidableEq Task] in
theorem QueueInv.last_eq_zero_iff (h : QueueInv s es) : s.sem.last = 0 ↔ es = [] := by
  rw [h.last]
  cases es with
  | nil => exact iff_of_true rfl rfl
  | cons e es =>
    have hmem : ((e :: es).map Prod.fst).getLastD 0 ∈ (e :: es).map Prod.fst :=
      getLastD_mem (List.cons_ne_nil _ _) 0
    exact iff_of_false (h.entries.ne_zero hmem) (List.cons_ne_nil _ _)

omit [DecidableEq Task] in
theorem QueueInv.queueOk (h : QueueInv s es) : QueueOk s (es.map Prod.snd) :=
  ⟨h.entries.eq_zero_iff.trans h.last_eq_zero_iff.symm,
    es, h.entries, rfl, h.nodup, h.allocated⟩

omit [DecidableEq Task] in
/-- The entries that a change accesses are in the queue. -/
theorem QueueInv.live (h : QueueInv s es) (op : QueueOp Task) :
    ∀ a ∈ accessed s op, s.allocated a = true := by
  intro a ha
  cases op with
  | enqueue t b =>
    simp only [accessed] at ha
    split_ifs at ha with hlast
    · cases ha
    · obtain rfl := List.mem_singleton.1 ha
      have hes : es.map Prod.fst ≠ [] := fun hes => hlast (by rw [h.last, hes]; rfl)
      exact h.allocated _ (h.last ▸ getLastD_mem hes 0)
  | dequeue =>
    simp only [accessed] at ha
    split_ifs at ha with hfirst
    · cases ha
    · obtain rfl := List.mem_singleton.1 ha
      cases es with
      | nil => exact absurd h.entries hfirst
      | cons e es => exact h.allocated _ (h.entries.1 ▸ List.mem_cons_self)

omit [DecidableEq Task] in
theorem QueueInv.enqueue (h : QueueInv s es) (h0 : a ≠ 0) (hfree : s.allocated a = false) :
    QueueInv (s.enqueue t a) (es ++ [(a, t)]) := by
  have hnot : a ∉ es.map Prod.fst := fun ha => by
    rw [h.allocated a ha] at hfree
    cases hfree
  have hnd : ((es ++ [(a, t)]).map Prod.fst).Nodup := by
    rw [List.map_append, List.nodup_append]
    refine ⟨h.nodup, List.nodup_singleton a, fun b hb c hc => ?_⟩
    rw [List.mem_singleton.1 hc]
    exact ne_of_mem_of_not_mem hb hnot
  have halloc : ∀ b ∈ (es ++ [(a, t)]).map Prod.fst,
      Function.update s.allocated a true b = true := by
    intro b hb
    rw [List.map_append, List.mem_append] at hb
    by_cases hba : b = a
    · rw [hba, Function.update_self]
    · rw [Function.update_of_ne hba]
      exact h.allocated b (hb.resolve_right fun hb => hba (List.mem_singleton.1 hb))
  have hnode : Entries (Function.update s.node a (some ⟨t, 0⟩)) s.sem.first es :=
    h.entries.congr fun b hb => Function.update_of_ne (ne_of_mem_of_not_mem hb hnot) _ _
  by_cases hlast : s.sem.last = 0
  · obtain rfl := h.last_eq_zero_iff.1 hlast
    rw [SmState.enqueue, if_neg (not_not.2 hlast)]
    exact ⟨⟨rfl, h0, 0, Function.update_self _ _ _, rfl⟩, hnd, halloc, rfl⟩
  · have hes : es ≠ [] := mt h.last_eq_zero_iff.2 hlast
    rw [SmState.enqueue, if_pos hlast]
    refine ⟨?_, hnd, halloc, ?_⟩
    · rw [h.last]
      exact hnode.snoc hes h.nodup hnot h0 (Function.update_self _ _ _)
    · rw [List.map_append, List.getLastD_eq_getLast?]
      simp

theorem dequeue_of_first (h : s.sem.first = 0) : s.dequeue = s := by
  unfold SmState.dequeue
  split
  · rfl
  · rfl
  · next hne => exact absurd h hne

theorem dequeue_of_node {f : SmTask Task} (h : s.sem.first ≠ 0) (hf : s.node s.sem.first = some f) :
    s.dequeue =
      { s with
        sem := { s.sem with first := f.next }
        waiting := Function.update s.waiting f.tid false
        allocated := Function.update s.allocated s.sem.first false } := by
  unfold SmState.dequeue
  split
  · next h₀ => exact absurd h₀ h
  · next hnone _ => rw [hf] at hnone; cases hnone
  · next hsome _ => rw [← Option.some.inj (hsome.symm.trans hf)]

/-- An entry with another one behind it leaves the queue. -/
theorem QueueInv.dequeue (h : QueueInv s ((a, t) :: es)) (hes : es ≠ []) :
    QueueInv s.dequeue es ∧ s.dequeue.waiting = Function.update s.waiting t false := by
  obtain ⟨hfirst, hne, n, hnode, ht⟩ := h.entries
  have hnd := h.nodup
  rw [List.map_cons, List.nodup_cons] at hnd
  rw [dequeue_of_node (hfirst ▸ hne) (hfirst ▸ hnode), hfirst]
  refine ⟨⟨ht, hnd.2, fun b hb => ?_, ?_⟩, rfl⟩
  · exact (Function.update_of_ne (ne_of_mem_of_not_mem hb hnd.1) _ _).trans
      (h.allocated b (List.mem_cons_of_mem _ hb))
  · cases es with
    | nil => exact absurd rfl hes
    | cons e es => exact h.last

omit [DecidableEq Task] in
/-- The first entry has no other one behind it if it is the only one. -/
theorem QueueInv.takesOnly (h : QueueInv s [(a, t)]) : TakesOnly s .dequeue := by
  obtain ⟨hfirst, hne, n, hnode, rfl⟩ := h.entries
  exact ⟨rfl, hfirst ▸ hne, t, hfirst ▸ hnode⟩

/-- The step lemma. -/
theorem QueueInv.step (h : QueueInv s es) {x : SmState Task × List Task} {op : QueueOp Task}
    (hs : (waitQueue Task).step (s, es.map Prod.snd) op x) (hno : ¬ TakesOnly s op) :
    ChangeOk ((s, es.map Prod.snd), op, x) ∧ ∃ es', QueueInv x.1 es' ∧ x.2 = es'.map Prod.snd := by
  obtain ⟨s', ts⟩ := x
  cases op with
  | enqueue t a =>
    obtain ⟨rfl, h0, hfree, rfl⟩ := hs
    have hinv := h.enqueue (t := t) h0 hfree
    have hmap : es.map Prod.snd ++ [t] = (es ++ [(a, t)]).map Prod.snd := by
      rw [List.map_append]
      rfl
    exact ⟨⟨(congrArg (QueueOk _) hmap).mpr hinv.queueOk, nofun, h.live _⟩, _, hinv, hmap⟩
  | dequeue =>
    obtain ⟨rfl, rfl⟩ := hs
    match es with
    | [] =>
      have hsame : s.dequeue = s := dequeue_of_first h.entries
      exact ⟨⟨hsame.symm ▸ h.queueOk, fun _ => by rw [hsame]; rfl, h.live _⟩, [],
        hsame.symm ▸ h, rfl⟩
    | [(a, t)] => exact absurd h.takesOnly hno
    | (a, t) :: e :: es =>
      obtain ⟨hinv, hwakes⟩ := h.dequeue (List.cons_ne_nil e es)
      exact ⟨⟨hinv.queueOk, fun _ => hwakes, h.live _⟩, _, hinv, rfl⟩

/-- After the only entry was taken, `last` is not `NULL`. -/
theorem QueueInv.not_ends (h : QueueInv s es) (htakes : TakesOnly s .dequeue) :
    ¬ (s.dequeue.sem.first = 0 ↔ s.dequeue.sem.last = 0) := by
  obtain ⟨-, hne, t, hnode⟩ := htakes
  have hes : es ≠ [] := mt h.entries.eq_zero_iff.2 hne
  rw [dequeue_of_node hne hnode]
  exact fun hiff => mt h.last_eq_zero_iff.1 hes (hiff.1 rfl)

/-- **All changes of a run are right exactly if none takes the only entry.** -/
theorem fifo_iff {s₀ : SmState Task} (h₀ : s₀.sem = smNew)
    {ts : List ((SmState Task × List Task) × QueueOp Task × (SmState Task × List Task))}
    {x : SmState Task × List Task} (h : (waitQueue Task).Trace (s₀, []) ts x) :
    (∀ y ∈ ts, ChangeOk y) ↔ ∀ y ∈ ts, ¬ TakesOnly y.1.1 y.2.1 := by
  suffices hts : ((∀ y ∈ ts, ChangeOk y) ↔ ∀ y ∈ ts, ¬ TakesOnly y.1.1 y.2.1) ∧
      ((∀ y ∈ ts, ¬ TakesOnly y.1.1 y.2.1) →
        ∃ es, QueueInv x.1 es ∧ x.2 = es.map Prod.snd) from hts.1
  induction h with
  | nil =>
    refine ⟨by simp, fun _ => ⟨[], ⟨?_, .nil, by simp, ?_⟩, rfl⟩⟩
    · show s₀.sem.first = 0
      rw [h₀]
      rfl
    · rw [h₀]
      rfl
  | @snoc ts x x' op h hs ih =>
    simp only [List.forall_mem_append, List.forall_mem_singleton]
    obtain ⟨hiff, hinv⟩ := ih
    refine ⟨⟨fun hok => ?_, fun hno => ?_⟩, fun hno => ?_⟩
    · refine ⟨hiff.1 hok.1, fun htakes => ?_⟩
      obtain ⟨es, hes, -⟩ := hinv (hiff.1 hok.1)
      obtain rfl := htakes.1
      obtain ⟨-, hx⟩ := hs
      exact hes.not_ends htakes (hx ▸ hok.2.queue.ends)
    · obtain ⟨es, hes, hx⟩ := hinv hno.1
      obtain ⟨s, _⟩ := x
      obtain rfl := hx
      exact ⟨hiff.2 hno.1, (hes.step hs hno.2).1⟩
    · obtain ⟨es, hes, hx⟩ := hinv hno.1
      obtain ⟨s, _⟩ := x
      obtain rfl := hx
      exact (hes.step hs hno.2).2

/-- **Once the only entry was taken, no task is woken up any more**: `first` stays `NULL`, and the
tasks that come are linked behind an entry that was freed. -/
theorem lost_of_drained {x y : SmState Task × List Task} (h : (waitQueue Task).Reachable x y)
    (hfirst : x.1.sem.first = 0) (hlast : x.1.sem.last ≠ 0) :
    y.1.sem.first = 0 ∧ y.1.sem.last ≠ 0 ∧ y.1.waiting = x.1.waiting := by
  refine h.invariant (I := fun y => y.1.sem.first = 0 ∧ y.1.sem.last ≠ 0 ∧
    y.1.waiting = x.1.waiting) ⟨hfirst, hlast, rfl⟩ fun y op z hy hs => ?_
  obtain ⟨hfirst, hlast, hw⟩ := hy
  cases op with
  | enqueue t a =>
    obtain ⟨-, h0, -, hz⟩ := hs
    rw [hz, SmState.enqueue, if_pos hlast]
    exact ⟨hfirst, h0, hw⟩
  | dequeue =>
    obtain ⟨-, hz⟩ := hs
    rw [hz, dequeue_of_first hfirst]
    exact ⟨hfirst, hlast, hw⟩

end Queue

/-! ### Two tasks -/

/-- The task `true` waits. -/
def sampleQueue₁ : SmState Bool := (smStart Bool).enqueue true 8

/-- It is woken up. -/
def sampleQueue₂ : SmState Bool := sampleQueue₁.dequeue

/-- The task `false` waits. -/
def sampleQueue₃ : SmState Bool := sampleQueue₂.enqueue false 16

theorem sampleQueue_trace₁ : (waitQueue Bool).Trace (smStart Bool, [])
    [((smStart Bool, []), .enqueue true 8, (sampleQueue₁, [true]))] (sampleQueue₁, [true]) :=
  .snoc .nil ⟨rfl, by decide, rfl, rfl⟩

theorem fifo_sample :
    ChangeOk ((smStart Bool, []), QueueOp.enqueue true 8, (sampleQueue₁, [true])) := by
  refine (fifo_iff rfl sampleQueue_trace₁).2 ?_ _ (List.mem_singleton.2 rfl)
  rintro y (_ | ⟨_, ⟨⟩⟩) ⟨⟨⟩, -⟩

/-- **An entry that was freed is accessed**, and the task that waits is not in the queue. -/
theorem not_fifo : ¬ ∀ (Task : Type) [DecidableEq Task] (s₀ : SmState Task), s₀.sem = smNew →
    ∀ ts x, (waitQueue Task).Trace (s₀, []) ts x → ∀ y ∈ ts, ChangeOk y := by
  intro h
  have hdequeue : (waitQueue Bool).step (sampleQueue₁, [true]) .dequeue (sampleQueue₂, []) :=
    ⟨rfl, rfl⟩
  have h₂ := sampleQueue_trace₁.snoc hdequeue
  have hs : (waitQueue Bool).step (sampleQueue₂, []) (.enqueue false 16)
      (sampleQueue₃, [false]) := ⟨rfl, by decide, by decide, rfl⟩
  have h₃ := h₂.snoc hs
  have hok := h Bool _ rfl _ _ h₃ _ (List.mem_append_right _ (List.mem_singleton.2 rfl))
  exact absurd (hok.live 8 (by decide)) (by decide)

end Kernel

end Bluejay
