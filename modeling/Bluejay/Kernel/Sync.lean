import Bluejay.Lib.Bytes
import Bluejay.Lib.System
import Mathlib.Tactic.SplitIfs

/-!
# Spinlocks, and the handles of semaphores

* `spinlock` : any number of threads attempt to acquire a lock, and release it.  The lock is free
  with the value `0`, but an attempt compares it with `-2` : `attemptsOk_iff`.
* `smIds` : the calls of `sm_new`, with whatever memory they find.  Handles are turned into a list
  of semaphores and an index by `sm_new` and again by `sm_from_id`.
* `HandlesOk` : the handles are distinct and lead to structures of their own.
* `handlesOk_iff` : `sm_new` returns the index in the list, so that this holds as long as there is
  one list.
-/

namespace Bluejay

namespace Kernel

/-! ### Spinlocks -/

/-- `sl_new`. -/
def slNew : ℤ := 0

/-- `__sync_bool_compare_and_swap`. -/
def compareAndSwap (sl old new : ℤ) : Bool × ℤ := if sl = old then (true, new) else (false, sl)

/-- A lock, and the threads between a successful `sl_acquire` and their `sl_release`. -/
structure SlState (Thread : Type*) where
  sl : ℤ
  holds : Thread → Bool

inductive SlOp (Thread : Type*)
  /-- One turn of the loop in `sl_acquire`. -/
  | attempt (t : Thread)
  /-- `sl_release`. -/
  | release (t : Thread)

section Spinlock

variable {Thread : Type*}

/-- The lock was just created. -/
def slStart (Thread : Type*) : SlState Thread := ⟨slNew, fun _ => false⟩

variable (Thread) in
/-- All interleavings. -/
def spinlock [DecidableEq Thread] : System (SlState Thread) (SlOp Thread) where
  step s op s' :=
    match op with
    | .attempt t => s.holds t = false ∧
      s' = ⟨(compareAndSwap s.sl (-2) 1).2,
        Function.update s.holds t (compareAndSwap s.sl (-2) 1).1⟩
    | .release t => s.holds t = true ∧ s' = ⟨0, Function.update s.holds t false⟩

/-- At most one thread holds the lock after the step, and an attempt to acquire it that is made
while no thread holds it succeeds. -/
structure AttemptOk (x : SlState Thread × SlOp Thread × SlState Thread) : Prop where
  exclusive : ∀ t u, x.2.2.holds t = true → x.2.2.holds u = true → t = u
  succeeds : ∀ t, x.2.1 = .attempt t → (∀ u, x.1.holds u = false) → x.2.2.holds t = true

variable [DecidableEq Thread] {s s' : SlState Thread}

omit [DecidableEq Thread] in
theorem compareAndSwap_slStart : compareAndSwap (slStart Thread).sl (-2) 1 = (false, slNew) := rfl

/-- The lock is never acquired. -/
theorem spinlock_stuck (h : (spinlock Thread).Reachable (slStart Thread) s) :
    s = slStart Thread := by
  refine h.invariant (I := fun s => s = slStart Thread) rfl fun s op s' hs hstep => ?_
  subst hs
  cases op with
  | attempt t =>
    obtain ⟨-, rfl⟩ := hstep
    rw [compareAndSwap_slStart]
    exact congrArg _ (Function.update_eq_self t _)
  | release t => exact absurd hstep.1 Bool.false_ne_true

/-- **The steps of a run are right exactly if there is none.** -/
theorem attemptsOk_iff {ts : List (SlState Thread × SlOp Thread × SlState Thread)}
    (h : (spinlock Thread).Trace (slStart Thread) ts s) : (∀ x ∈ ts, AttemptOk x) ↔ ts = [] := by
  refine ⟨fun hok => ?_, fun hts => by simp [hts]⟩
  by_contra hne
  obtain ⟨op, s', hmem, hstep⟩ := h.eq_nil_or_first.resolve_left fun hnil => hne hnil.1
  have hs' : s' = slStart Thread := spinlock_stuck ((System.Reachable.refl _).tail hstep)
  cases op with
  | attempt t =>
    have hholds := (hok _ hmem).succeeds t rfl fun _ => rfl
    rw [hs'] at hholds
    cases hholds
  | release t => exact absurd hstep.1 Bool.false_ne_true

/-- A thread attempts to acquire the lock. -/
theorem attempt_step (t : Thread) :
    (spinlock Thread).step (slStart Thread) (.attempt t) (slStart Thread) := by
  refine ⟨rfl, ?_⟩
  rw [compareAndSwap_slStart]
  exact congrArg _ (Function.update_eq_self t _).symm

theorem not_attemptsOk_once : ¬ ∀ x ∈ [(slStart Unit, SlOp.attempt (), slStart Unit)],
    AttemptOk x :=
  fun h => List.cons_ne_nil _ _ ((attemptsOk_iff (.snoc .nil (attempt_step ()))).1 h)

/-- **An attempt to acquire a free lock fails.** -/
theorem not_attemptsOk : ¬ ∀ (Thread : Type) [DecidableEq Thread] ts (s : SlState Thread),
    (spinlock Thread).Trace (slStart Thread) ts s → ∀ x ∈ ts, AttemptOk x := by
  intro h
  have hok := h Unit _ _ (.snoc .nil (attempt_step ())) _ (List.mem_singleton.2 rfl)
  exact Bool.noConfusion (hok.succeeds () rfl fun _ => rfl)

end Spinlock

/-! ### The handles of semaphores -/

/-- `SM_PER_LIST`. -/
def smPerList : ℕ := 1024

/-- `sizeof(struct semaphore)`. -/
def semaphoreSize : ℕ := 16

/-- `sizeof(struct sm_list)`. -/
def smListSize : ℕ := semaphoreSize * smPerList + 4

/-- The static variables of `sync.c`, the memory, and the lists that were allocated. -/
structure SmLists where
  mem : Mem
  smFirst : ℕ
  smNum : ℕ
  lists : List ℕ

/-- What a call of `sm_new` returns, the place of the structure that it has initialised, and the
memory that it found. -/
structure Handle where
  sm : ℕ
  place : ℕ
  before : Mem

/-- `&l->semaphores[num]`. -/
def semaphoreAt (l num : ℕ) : ℕ := u32 (l + semaphoreSize * num)

/-- `l->next`. -/
def nextList (mem : Mem) (l : ℕ) : ℕ := mem.loadLE (u32 (l + semaphoreSize * smPerList)) 4

/-- `sm_from_id`. -/
def smFromId (mem : Mem) (first sm : ℕ) : ℕ :=
  if smPerList ≤ sm then smFromId mem (nextList mem first) (sm - smPerList)
  else semaphoreAt first sm
termination_by sm
decreasing_by unfold smPerList at *; omega

/-- `malloc(sizeof(struct sm_list))` returns the place `l`, apart from the lists that there are.
The other bytes may be any, in the new list as well. -/
def MallocList (s : SmLists) (l : ℕ) (s' : SmLists) : Prop :=
  l ≠ 0 ∧ l + smListSize ≤ 2 ^ 32 ∧
    (∀ l' ∈ s.lists, l' + smListSize ≤ l ∨ l + smListSize ≤ l') ∧
    ∃ mem : Mem, (∀ l' ∈ s.lists, ∀ i < smListSize, mem (l' + i) = s.mem (l' + i)) ∧
      s' = { s with mem := mem, lists := l :: s.lists }

/-- The loop of `sm_new`, from the list `l` on. -/
inductive Walk : SmLists → ℕ → ℕ → SmLists → ℕ → ℕ → Prop
  | stop {s : SmLists} {l num : ℕ} (h : num < smPerList) : Walk s l num s l num
  | next {s s' : SmLists} {l l' num num' : ℕ} (h : smPerList ≤ num) (hn : nextList s.mem l ≠ 0)
      (hw : Walk s (nextList s.mem l) (num - smPerList) s' l' num') : Walk s l num s' l' num'
  | grow {s s₁ s' : SmLists} {l l₁ l' num num' : ℕ} (h : smPerList ≤ num)
      (hn : nextList s.mem l = 0) (hm : MallocList s l₁ s₁)
      (hw : Walk { s₁ with mem := s₁.mem.storeLE (u32 (l + semaphoreSize * smPerList)) 4 l₁ } l₁
        (num - smPerList) s' l' num') : Walk s l num s' l' num'

/-- The fields `first`, `last`, `sm` and `task_lock` are set. -/
def initSemaphore (mem : Mem) (p : ℕ) : Mem :=
  (((mem.storeLE (p + 4) 4 0).storeLE (p + 8) 4 0).storeLE (p + 12) 4 1).storeLE p 4 slNew.toNat

/-- The first list is there, and `num` is the number of the semaphore. -/
def FirstList (s s' : SmLists) : Prop :=
  if s.smFirst = 0 then ∃ l s₁, MallocList s l s₁ ∧ s' = { s₁ with smFirst := l } else s' = s

/-- The calls of `sm_new`.  Between them the memory may change in any way. -/
def smIds : System SmLists Handle where
  step s h s' := ∃ s₁ s₂ l, FirstList { s with mem := h.before } s₁ ∧
    Walk { s₁ with smNum := u32 (s₁.smNum + 1) } s₁.smFirst s₁.smNum s₂ l h.sm ∧
    h.place = semaphoreAt l h.sm ∧ s' = { s₂ with mem := initSemaphore s₂.mem h.place }

/-- No call was made yet. -/
def smIdsStart (mem : Mem) : SmLists := ⟨mem, 0, 0, []⟩

/-- The count is one, and the queue is empty. -/
def IsNewSemaphore (mem : Mem) (p : ℕ) : Prop :=
  mem.loadLE p 4 = 0 ∧ mem.loadLE (p + 4) 4 = 0 ∧ mem.loadLE (p + 8) 4 = 0 ∧
    mem.loadLE (p + 12) 4 = 1

/-- The handle leads to the structure of its call. -/
def Leads (s : SmLists) (h : Handle) : Prop := smFromId s.mem s.smFirst h.sm = h.place

/-- The handles are distinct, each of them leads to the structure that its call has initialised,
then and after all later calls, and no later call touches this structure. -/
structure HandlesOk (ts : List (SmLists × Handle × SmLists)) : Prop where
  call : ∀ x ∈ ts, IsNewSemaphore x.2.2.mem x.2.1.place ∧ Leads x.2.2 x.2.1
  distinct : ts.Pairwise fun x y => x.2.1.sm ≠ y.2.1.sm
  leads : ts.Pairwise fun x y => Leads y.2.2 x.2.1
  apart : ts.Pairwise fun x y => x.2.1.place + semaphoreSize ≤ y.2.1.place ∨
    y.2.1.place + semaphoreSize ≤ x.2.1.place
  kept : ts.Pairwise fun x y => ∀ i < semaphoreSize,
    y.2.2.mem (x.2.1.place + i) = y.2.1.before (x.2.1.place + i)

section Handles

variable {s s' : SmLists} {h : Handle} {l l' num num' : ℕ} {mem : Mem}
  {ts : List (SmLists × Handle × SmLists)}

theorem isNewSemaphore_init (mem : Mem) (p : ℕ) : IsNewSemaphore (initSemaphore mem p) p := by
  unfold IsNewSemaphore initSemaphore
  refine ⟨Mem.loadLE_storeLE _ _ _ _, ?_, ?_, ?_⟩
  · rw [Mem.loadLE_storeLE_of_disjoint (by omega), Mem.loadLE_storeLE_of_disjoint (by omega),
      Mem.loadLE_storeLE_of_disjoint (by omega)]
    exact (Mem.loadLE_storeLE _ _ _ _).trans (Nat.zero_mod _)
  · rw [Mem.loadLE_storeLE_of_disjoint (by omega), Mem.loadLE_storeLE_of_disjoint (by omega)]
    exact (Mem.loadLE_storeLE _ _ _ _).trans (Nat.zero_mod _)
  · rw [Mem.loadLE_storeLE_of_disjoint (by omega)]
    exact (Mem.loadLE_storeLE _ _ _ _).trans (Nat.mod_eq_of_lt (by decide))

theorem initSemaphore_of_out {p i : ℕ} (hi : i < p ∨ p + semaphoreSize ≤ i) :
    initSemaphore mem p i = mem i := by
  unfold semaphoreSize at hi
  unfold initSemaphore
  rw [Mem.storeLE_of_out (by omega), Mem.storeLE_of_out (by omega),
    Mem.storeLE_of_out (by omega), Mem.storeLE_of_out (by omega)]

/-- The loop leaves the index in the list. -/
theorem Walk.num_eq (h : Walk s l num s' l' num') :
    num' = num % smPerList ∧ s'.smNum = s.smNum := by
  induction h with
  | stop h => exact ⟨(Nat.mod_eq_of_lt h).symm, rfl⟩
  | next h _ _ ih => exact ⟨ih.1.trans (Nat.mod_eq_sub_mod h).symm, ih.2⟩
  | grow h _ hm _ ih =>
    obtain ⟨-, -, -, mem, -, rfl⟩ := hm
    exact ⟨ih.1.trans (Nat.mod_eq_sub_mod h).symm, ih.2⟩

theorem Walk.eq_of_lt (h : Walk s l num s' l' num') (hlt : num < smPerList) :
    s' = s ∧ l' = l ∧ num' = num := by
  cases h with
  | stop => exact ⟨rfl, rfl, rfl⟩
  | next hle => exact absurd hle (Nat.not_le.2 hlt)
  | grow hle => exact absurd hle (Nat.not_le.2 hlt)

/-- The first list is allocated once. -/
theorem FirstList.spec (h : FirstList s s') : s'.smNum = s.smNum ∧
    (s.smFirst = 0 ∧ s'.smFirst ≠ 0 ∧ s'.smFirst + smListSize ≤ 2 ^ 32 ∨
      s.smFirst ≠ 0 ∧ s' = s) := by
  unfold FirstList at h
  split_ifs at h with h0
  · obtain ⟨l, s₁, ⟨hl, hle, -, mem, -, rfl⟩, rfl⟩ := h
    exact ⟨rfl, .inl ⟨h0, hl, hle⟩⟩
  · exact ⟨h ▸ rfl, .inr ⟨h0, h⟩⟩

/-- A call returns the number of the semaphore in its list. -/
theorem sm_of_step (hs : smIds.step s h s') :
    h.sm = s.smNum % smPerList ∧ s'.smNum = u32 (s.smNum + 1) := by
  obtain ⟨s₁, s₂, l, hfirst, hwalk, -, rfl⟩ := hs
  obtain ⟨hnum, -⟩ := hfirst.spec
  obtain ⟨hsm, hnum'⟩ := hwalk.num_eq
  exact ⟨hsm.trans (congrArg (· % smPerList) hnum),
    hnum'.trans (congrArg (fun n => u32 (n + 1)) hnum)⟩

/-- The numbers start again after every `SM_PER_LIST` calls. -/
theorem sm_of_trace (ht : smIds.Trace (smIdsStart mem) ts s) :
    s.smNum = u32 ts.length ∧
      ∀ i (hi : i < ts.length), ts[i].2.1.sm = i % smPerList := by
  induction ht with
  | nil => exact ⟨rfl, fun i hi => absurd hi (Nat.not_lt_zero i)⟩
  | @snoc ts s s' h ht hs ih =>
    obtain ⟨hnum, hsm⟩ := ih
    obtain ⟨hsm', hnum'⟩ := sm_of_step hs
    refine ⟨?_, fun i hi => ?_⟩
    · rw [hnum', hnum, List.length_append, List.length_singleton]
      unfold u32
      omega
    · rw [List.getElem_append]
      split_ifs with hlt
      · exact hsm i hlt
      · have hi' : i = ts.length := by
          rw [List.length_append, List.length_singleton] at hi
          omega
        rw [List.getElem_singleton, hsm', hnum, hi']
        unfold u32 smPerList
        omega

/-- One of the first calls initialises the next semaphore of the first list. -/
theorem first_step (hs : smIds.step s h s') (hnum : s.smNum < smPerList)
    (hfirst : s.smFirst = 0 ∨ s.smFirst + smListSize ≤ 2 ^ 32) :
    h.sm = s.smNum ∧ s'.smNum = s.smNum + 1 ∧ s'.smFirst ≠ 0 ∧
      s'.smFirst + smListSize ≤ 2 ^ 32 ∧ h.place = s'.smFirst + semaphoreSize * h.sm ∧
      IsNewSemaphore s'.mem h.place ∧ (s.smFirst ≠ 0 → s'.smFirst = s.smFirst ∧
        ∀ i, i < h.place ∨ h.place + semaphoreSize ≤ i → s'.mem i = h.before i) := by
  obtain ⟨s₁, s₂, l, hf, hwalk, hplace, rfl⟩ := hs
  obtain ⟨hnum₁, hcases⟩ := hf.spec
  change s₁.smNum = s.smNum at hnum₁
  rw [hnum₁] at hwalk
  obtain ⟨rfl, rfl, hsm⟩ := hwalk.eq_of_lt hnum
  have hl : s₁.smFirst ≠ 0 ∧ s₁.smFirst + smListSize ≤ 2 ^ 32 := by
    rcases hcases with ⟨-, h0, hle⟩ | ⟨h0, rfl⟩
    · exact ⟨h0, hle⟩
    · exact ⟨h0, hfirst.resolve_left h0⟩
  have hat : h.place = s₁.smFirst + semaphoreSize * h.sm := by
    rw [hplace, hsm, semaphoreAt, u32_of_lt]
    have := hl.2
    unfold smListSize semaphoreSize smPerList at *
    omega
  refine ⟨hsm, u32_of_lt ?_, hl.1, hl.2, hat, isNewSemaphore_init _ _, fun h0 => ?_⟩
  · unfold smPerList at hnum
    omega
  · obtain ⟨-, rfl⟩ := hcases.resolve_left fun hc => h0 hc.1
    exact ⟨rfl, fun i hi => initSemaphore_of_out hi⟩

theorem smFromId_of_lt {first sm : ℕ} (hsm : sm < smPerList) :
    smFromId mem first sm = semaphoreAt first sm := by
  rw [smFromId, if_neg (Nat.not_le.2 hsm)]

theorem pairwise_snoc {α : Type*} {R : α → α → Prop} {xs : List α} {y : α} :
    (xs ++ [y]).Pairwise R ↔ xs.Pairwise R ∧ ∀ x ∈ xs, R x y := by
  simp [List.pairwise_append]

/-- What holds after some of the first calls. -/
structure FirstCalls (ts : List (SmLists × Handle × SmLists)) (s : SmLists) : Prop where
  ok : HandlesOk ts
  smNum : s.smNum = ts.length
  smFirst : ts = [] ∧ s.smFirst = 0 ∨ s.smFirst ≠ 0 ∧ s.smFirst + smListSize ≤ 2 ^ 32
  handle : ∀ x ∈ ts, x.2.1.sm < ts.length ∧ x.2.1.place = s.smFirst + semaphoreSize * x.2.1.sm

/-- The step lemma. -/
theorem FirstCalls.step (hc : FirstCalls ts s) (hlen : ts.length < smPerList)
    (hs : smIds.step s h s') : FirstCalls (ts ++ [(s, h, s')]) s' := by
  obtain ⟨hsm, hnum, h0, hle, hplace, hnew, hkept⟩ := first_step hs (hc.smNum ▸ hlen)
    (hc.smFirst.imp And.right And.right)
  rw [hc.smNum] at hsm hnum
  have hleads : ∀ {g : Handle}, g.sm < smPerList →
      g.place = s'.smFirst + semaphoreSize * g.sm → Leads s' g := fun {g} hlt hg => by
    rw [Leads, smFromId_of_lt hlt, hg, semaphoreAt, u32_of_lt]
    unfold smListSize semaphoreSize smPerList at *
    omega
  -- the earlier calls have made their structures in the same list
  have hsame : ∀ x ∈ ts, s.smFirst ≠ 0 := fun x hx =>
    (hc.smFirst.resolve_left fun hnil => List.not_mem_nil (hnil.1 ▸ hx)).1
  have hold : ∀ x ∈ ts, x.2.1.sm < ts.length ∧
      x.2.1.place = s'.smFirst + semaphoreSize * x.2.1.sm := fun x hx => by
    rw [(hkept (hsame x hx)).1]
    exact hc.handle x hx
  have hbefore : ∀ x ∈ ts, x.2.1.place + semaphoreSize ≤ h.place := fun x hx => by
    obtain ⟨hlt, hx'⟩ := hold x hx
    rw [hplace, hx', hsm]
    unfold semaphoreSize
    omega
  refine ⟨⟨?_, ?_, ?_, ?_, ?_⟩, ?_, .inr ⟨h0, hle⟩, ?_⟩
  · rw [List.forall_mem_append, List.forall_mem_singleton]
    exact ⟨hc.ok.call, hnew, hleads (hsm ▸ hlen) hplace⟩
  · refine pairwise_snoc.2 ⟨hc.ok.distinct, fun x hx => ?_⟩
    rw [hsm]
    exact Nat.ne_of_lt (hold x hx).1
  · exact pairwise_snoc.2 ⟨hc.ok.leads, fun x hx =>
      hleads (Nat.lt_trans (hold x hx).1 hlen) (hold x hx).2⟩
  · exact pairwise_snoc.2 ⟨hc.ok.apart, fun x hx => .inl (hbefore x hx)⟩
  · refine pairwise_snoc.2 ⟨hc.ok.kept, fun x hx i hi => (hkept (hsame x hx)).2 _ (.inl ?_)⟩
    have := hbefore x hx
    omega
  · rw [hnum, List.length_append, List.length_singleton]
  · rw [List.forall_mem_append, List.forall_mem_singleton, List.length_append,
      List.length_singleton]
    exact ⟨fun x hx => ⟨Nat.lt_succ_of_lt (hold x hx).1, (hold x hx).2⟩,
      hsm ▸ Nat.lt_succ_self _, hplace⟩

theorem firstCalls_of_trace (ht : smIds.Trace (smIdsStart mem) ts s)
    (hlen : ts.length ≤ smPerList) : FirstCalls ts s := by
  induction ht with
  | nil => exact ⟨⟨by simp, .nil, .nil, .nil, .nil⟩, rfl, .inl ⟨rfl, rfl⟩, by simp⟩
  | snoc _ hs ih =>
    rw [List.length_append, List.length_singleton] at hlen
    exact (ih (Nat.le_of_succ_le hlen)).step hlen hs

/-- **The handles of a run are right exactly if they fit in one list.** -/
theorem handlesOk_iff (ht : smIds.Trace (smIdsStart mem) ts s) :
    HandlesOk ts ↔ ts.length ≤ smPerList := by
  refine ⟨fun hok => ?_, fun hlen => (firstCalls_of_trace ht hlen).ok⟩
  by_contra hlen
  rw [Nat.not_le] at hlen
  have hsm := (sm_of_trace ht).2
  have hne := List.pairwise_iff_getElem.1 hok.distinct 0 smPerList (by omega) hlen (by decide)
  rw [hsm, hsm] at hne
  exact hne rfl

/-! ### Calls -/

/-- A memory in which every list has a next one. -/
def dirtyMem : Mem := fun _ => 1

theorem nextList_dirtyMem (l : ℕ) : nextList dirtyMem l ≠ 0 := by
  simp [nextList, dirtyMem, Mem.loadLE]

theorem exists_walk (hs : s.mem = dirtyMem) (l num : ℕ) : ∃ l' num', Walk s l num s l' num' := by
  induction num using Nat.strongRecOn generalizing l with
  | _ num ih =>
    by_cases hlt : num < smPerList
    · exact ⟨l, num, .stop hlt⟩
    · obtain ⟨l', num', hw⟩ := ih (num - smPerList) (by unfold smPerList at *; omega)
        (nextList s.mem l)
      exact ⟨l', num', .next (Nat.not_lt.1 hlt) (hs ▸ nextList_dirtyMem l) hw⟩

theorem exists_smNew (hs : s.smFirst = 0 → s.lists = []) : ∃ h s', smIds.step s h s' ∧
    (s'.smFirst = 0 → s'.lists = []) := by
  obtain ⟨s₁, hmem, h0, hfirst⟩ : ∃ s₁, s₁.mem = dirtyMem ∧ s₁.smFirst ≠ 0 ∧
      FirstList { s with mem := dirtyMem } s₁ := by
    by_cases h0 : s.smFirst = 0
    · refine ⟨⟨dirtyMem, 4096, s.smNum, [4096]⟩, rfl, (by decide : (4096 : ℕ) ≠ 0), ?_⟩
      rw [FirstList, if_pos h0]
      refine ⟨4096, ⟨dirtyMem, s.smFirst, s.smNum, [4096]⟩, ⟨by decide, by decide, ?_, ?_⟩, rfl⟩
      · rw [show ({ s with mem := dirtyMem } : SmLists).lists = [] from hs h0]
        exact fun _ hl => absurd hl List.not_mem_nil
      · exact ⟨dirtyMem, fun _ _ _ _ => rfl, by rw [hs h0]⟩
    · exact ⟨{ s with mem := dirtyMem }, rfl, h0, by rw [FirstList, if_neg h0]⟩
  obtain ⟨l, num, hw⟩ := exists_walk (s := { s₁ with smNum := u32 (s₁.smNum + 1) }) hmem
    s₁.smFirst s₁.smNum
  exact ⟨⟨num, semaphoreAt l num, dirtyMem⟩, _, ⟨s₁, _, l, hfirst, hw, rfl, rfl⟩,
    fun h => absurd h h0⟩

/-- There is a run of any number of calls. -/
theorem exists_smNews (mem : Mem) (n : ℕ) : ∃ ts s, smIds.Trace (smIdsStart mem) ts s ∧
    ts.length = n ∧ (s.smFirst = 0 → s.lists = []) := by
  induction n with
  | zero => exact ⟨[], _, .nil, rfl, fun _ => rfl⟩
  | succ n ih =>
    obtain ⟨ts, s, ht, hlen, hs⟩ := ih
    obtain ⟨h, s', hstep, hs'⟩ := exists_smNew hs
    exact ⟨_, s', ht.snoc hstep, by rw [List.length_append, hlen]; rfl, hs'⟩

end Handles

theorem handlesOk_twice : ∃ ts s, smIds.Trace (smIdsStart dirtyMem) ts s ∧ ts.length = 2 ∧
    HandlesOk ts := by
  obtain ⟨ts, s, ht, hlen, -⟩ := exists_smNews dirtyMem 2
  exact ⟨ts, s, ht, hlen, (handlesOk_iff ht).2 (hlen ▸ by decide)⟩

/-- **The first handle is returned again** by the call number `SM_PER_LIST + 1`. -/
theorem not_handlesOk : ¬ ∀ (mem : Mem) ts s, smIds.Trace (smIdsStart mem) ts s →
    HandlesOk ts := by
  intro h
  obtain ⟨ts, s, ht, hlen, -⟩ := exists_smNews dirtyMem (smPerList + 1)
  have hsm := (sm_of_trace ht).2
  have hne := List.pairwise_iff_getElem.1 (h _ _ _ ht).distinct 0 smPerList (by omega) (by omega)
    (by decide)
  rw [hsm, hsm] at hne
  exact hne rfl

end Kernel

end Bluejay
