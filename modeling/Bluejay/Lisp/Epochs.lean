import Bluejay.Lib.System
import Bluejay.Lisp.Gc
import Mathlib.Data.Finset.Union

/-!
# Collection after collection

`_do_gc` counts `gc_mark` up and gives the new number to what it visits.  The field `mark` of an
allocation has 24 bits and is -1 at first; the counter has 32 bits.

* `GcState`, `GcStep` : allocations, stores, `add_to_pool` and collections, in any order.
* `markRoots` : the calls of `_mark` of one collection, with the allocations in the order in which
  they are visited.
* `CollectsOnce` : the next collection meets no mark of its own, marks what it visits, visits
  nothing twice, and ends.
* `collectsOnce_iff` : so it is in all runs of at most `n` collections exactly if `n < 2 ^ 24 - 2`.
-/

namespace Bluejay

namespace Lisp

/-- The allocations, and the counter of the collector. -/
structure GcState where
  heap : Heap
  mark : ℕ → ℕ
  pool : ℕ → ℕ
  gcMark : ℕ

/-- Nothing is allocated; `gc_mark` is static, so it is zero. -/
def gcStart : GcState := ⟨Heap.ofList [], fun _ => 0, fun _ => 0, 0⟩

namespace GcState

/-- `gc_mark++`. -/
def newMark (s : GcState) : ℕ := (s.gcMark + 1) % 2 ^ 32

/-- A new allocation, as `add_this_alloc` leaves it. -/
def alloc (s : GcState) (p : ℕ) (o : Obj) (current_pool : ℕ) : GcState :=
  { s with
    heap := s.heap.set p o
    mark := Function.update s.mark p (2 ^ 24 - 1)
    pool := Function.update s.pool p current_pool }

end GcState

/-- The calls of `_mark` by `_do_gc`, and the allocations they visit. -/
def markRoots (H : Heap) (gc_mark n : ℕ) (roots : List Word) (s : Marks) :
    Option (Marks × List ℕ) :=
  H.markGraph.visits (marker gc_mark).logged n roots (s, [])

theorem markRoots_fst (H : Heap) (gc_mark n : ℕ) (roots : List Word) (s : Marks) :
    (markRoots H gc_mark n roots s).map Prod.fst =
      roots.foldlM (fun s v => mark H gc_mark n v s) s := by
  rw [markRoots, Graph.visits_logged, Graph.visits]
  simp only [mark_eq_visit]

inductive GcAction
  | alloc
  | store
  | addToPool
  | collect
  deriving DecidableEq

/-- What happens between two states. -/
inductive GcStep (s : GcState) : GcAction → GcState → Prop
  | alloc (p : ℕ) (o : Obj) (current_pool : ℕ) (h : p ∉ s.heap.dom) :
      GcStep s .alloc (s.alloc p o current_pool)
  /-- The program changes an object. -/
  | store (p : ℕ) (o : Obj) (h : p ∈ s.heap.dom) :
      GcStep s .store { s with heap := s.heap.set p o }
  | addToPool (p : ℕ) (current_pool : ℕ) (h : p ∈ s.heap.dom) :
      GcStep s .addToPool { s with pool := Function.update s.pool p current_pool }
  /-- `_do_gc`, with any roots. -/
  | collect (roots : List Word) (n : ℕ) (m : Marks) (visited : List ℕ)
      (h : markRoots s.heap s.newMark n roots ⟨s.mark, 0⟩ = some (m, visited)) :
      GcStep s .collect
        { s with heap := sweep s.heap s.pool s.newMark m, mark := m.mark, gcMark := s.newMark }

/-- All histories of allocations and collections. -/
def collector : System GcState GcAction := ⟨GcStep⟩

/-- **What the marks are for**: no allocation has the mark of the next collection yet, and that
collection, with any roots, ends, visits nothing twice, and leaves its mark on what it visits. -/
structure CollectsOnce (s : GcState) : Prop where
  fresh : ∀ p ∈ s.heap.dom, s.mark p ≠ s.newMark
  visits : ∀ roots, ∃ n m visited,
    markRoots s.heap s.newMark n roots ⟨s.mark, 0⟩ = some (m, visited) ∧ visited.Nodup ∧
      ∀ p ∈ visited, m.mark p = s.newMark

/-- The collection of a step is `_do_gc`. -/
theorem doGc_eq {s : GcState} (hmark : s.gcMark + 1 < 2 ^ 32) (mem : ℕ → Word)
    (segs : List Segment) (n esp ebp marked : ℕ) :
    doGc s.heap s.pool mem segs s.gcMark n ⟨s.mark, marked⟩ esp ebp =
      (markRoots s.heap s.newMark n (roots mem gcBase segs esp ebp) ⟨s.mark, 0⟩).map fun r =>
        sweep s.heap s.pool s.newMark r.1 := by
  rw [doGc, ← markRoots_fst, GcState.newMark, Nat.mod_eq_of_lt hmark, Option.map_map]
  rfl

section Epochs

variable {s : GcState} {H : Heap} {gc_mark : ℕ}

/-- The addresses that values on the heap, or among the roots, point to. -/
def Heap.pointers (H : Heap) (roots : List Word) : Finset ℕ :=
  (roots.map pointer).toFinset ∪ H.dom.biUnion fun p => ((H.children p).map pointer).toFinset

/-- With a mark that fits its field, the marking phase ends, and visits nothing twice. -/
theorem markRoots_ok (hg : gc_mark < 2 ^ 24) (roots : List Word) (m : Marks) :
    ∃ n m' visited, markRoots H gc_mark n roots m = some (m', visited) ∧ visited.Nodup ∧
      ∀ p ∈ visited, m'.mark p = gc_mark := by
  have hK := marker_lawful hg
  have hlogged : (marker gc_mark).logged.Lawful := fun s u v => hK s.1 u v
  -- every value that is met is a root, or is held by an allocation
  have hdom : ∀ w p, pointer w ∈ H.pointers roots → H.markGraph.node w = some p →
      p ∈ H.pointers roots ∧ ∀ w' ∈ H.markGraph.succ p, pointer w' ∈ H.pointers roots := by
    intro w p hw hp
    simp only [Heap.markGraph, Option.ite_none_right_eq_some, Option.some.injEq] at hp
    refine ⟨hp.2 ▸ hw, fun w' hw' => ?_⟩
    have hpd : p ∈ H.dom := by
      by_contra hpd
      have hnil : H.children p = [] := by rw [Heap.children, H.obj_eq_none.2 hpd]; rfl
      exact absurd (hnil ▸ (show w' ∈ H.children p from hw')) List.not_mem_nil
    refine Finset.mem_union_right _ (Finset.mem_biUnion.2 ⟨p, hpd, ?_⟩)
    exact List.mem_toFinset.2 (List.mem_map_of_mem hw')
  have hroots : ∀ w ∈ roots, pointer w ∈ H.pointers roots := fun w hw =>
    Finset.mem_union_left _ (List.mem_toFinset.2 (List.mem_map_of_mem hw))
  obtain ⟨⟨m', visited⟩, h⟩ := Option.isSome_iff_exists.1
    (Graph.visits_isSome hlogged (s := (m, [])) hdom hroots (Nat.lt_succ_self _))
  obtain ⟨hnd, hmarked⟩ := Graph.visits_nodup hK h
  exact ⟨_, m', visited, h, hnd, fun p hp => by simpa [marker] using hmarked p hp⟩

/-- The marks of other collections are kept. -/
theorem markRoots_mark {n : ℕ} {roots : List Word} {m m' : Marks} {visited : List ℕ}
    (hg : gc_mark < 2 ^ 24) (h : markRoots H gc_mark n roots m = some (m', visited)) (p : ℕ) :
    m'.mark p = gc_mark ∨ m'.mark p = m.mark p := by
  refine Graph.visits_invariant
    (I := fun s => s.1.mark p = gc_mark ∨ s.1.mark p = m.mark p) ?_ h (.inr rfl)
  intro s u _ hs
  by_cases hu : p = u
  · subst hu
    left
    simp only [Marker.logged, marker, Marks.set, Function.update_self]
    exact Nat.mod_eq_of_lt hg
  · simpa only [Marker.logged, marker, Marks.set, Function.update_of_ne hu] using hs

/-- A collection whose mark fits its field and is new does what it should. -/
theorem collectsOnce_of_lt (hg : s.newMark < 2 ^ 24)
    (hfresh : ∀ p ∈ s.heap.dom, s.mark p ≠ s.newMark) : CollectsOnce s :=
  ⟨hfresh, fun roots => markRoots_ok hg roots _⟩

/-- After `k` collections, what is allocated has the mark of one of them, or its first one. -/
structure EpochInv (s : GcState) (k : ℕ) : Prop where
  gcMark : s.gcMark = k
  mark : ∀ p ∈ s.heap.dom, s.mark p = 2 ^ 24 - 1 ∨ s.mark p ≤ k

theorem EpochInv.step {s' : GcState} {a : GcAction} {k : ℕ} (h : EpochInv s k)
    (hs : GcStep s a s') (hk : k < 2 ^ 24 - 2) :
    EpochInv s' (if a = .collect then k + 1 else k) := by
  cases hs with
  | alloc p o current_pool hp =>
    refine ⟨h.gcMark, fun q hq => ?_⟩
    by_cases hqp : q = p
    · exact .inl (by rw [hqp]; exact Function.update_self _ _ _)
    · have hmem : q ∈ s.heap.dom := (Finset.mem_insert.1 hq).resolve_left hqp
      have hmark : (s.alloc p o current_pool).mark q = s.mark q := Function.update_of_ne hqp _ _
      rw [hmark]
      exact h.mark q hmem
  | store p o hp =>
    refine ⟨h.gcMark, fun q hq => h.mark q ?_⟩
    rcases Finset.mem_insert.1 hq with rfl | hq
    · exact hp
    · exact hq
  | addToPool p current_pool hp => exact ⟨h.gcMark, h.mark⟩
  | collect roots n m visited hm =>
    have hnew : s.newMark = k + 1 := by
      rw [GcState.newMark, h.gcMark]
      omega
    refine ⟨hnew, fun q hq => ?_⟩
    have hold := h.mark q (Finset.mem_filter.1 hq).1
    rcases markRoots_mark (by omega) hm q with hq | hq
    · exact .inr (hq.trans hnew).le
    · have hq' : m.mark q = s.mark q := hq
      show m.mark q = 2 ^ 24 - 1 ∨ m.mark q ≤ k + 1
      rw [hq']
      exact hold.imp_right Nat.le_succ_of_le

/-- The run lemma. -/
theorem epochInv_of_run {ls : List GcAction} (h : collector.Run gcStart ls s)
    (hls : ls.count .collect < 2 ^ 24 - 2) : EpochInv s (ls.count .collect) := by
  induction h with
  | nil => exact ⟨rfl, fun p hp => absurd hp (Finset.notMem_empty p)⟩
  | @snoc ls s s' l h hs ih =>
    rw [List.count_append, List.count_singleton] at hls
    have hinv := (ih (by omega)).step hs (by omega)
    rw [List.count_append, List.count_singleton]
    cases l with
    | collect => exact hinv
    | _ => exact hinv

theorem EpochInv.collectsOnce {k : ℕ} (h : EpochInv s k) (hk : k < 2 ^ 24 - 2) :
    CollectsOnce s := by
  have hnew : s.newMark = k + 1 := by
    rw [GcState.newMark, h.gcMark]
    omega
  refine collectsOnce_of_lt (by omega) fun p hp => ?_
  rcases h.mark p hp with hm | hm
  · omega
  · omega

/-- Any number of collections, with nothing allocated. -/
theorem exists_run_collect (k : ℕ) (hk : k < 2 ^ 32) : ∃ s,
    collector.Run gcStart (List.replicate k .collect) s ∧ s.gcMark = k ∧ s.heap.dom = ∅ := by
  induction k with
  | zero => exact ⟨gcStart, .nil, rfl, rfl⟩
  | succ k ih =>
    obtain ⟨s, hrun, hmark, hdom⟩ := ih (by omega)
    rw [List.replicate_succ']
    refine ⟨_, hrun.snoc (.collect [] 0 _ [] rfl), ?_, ?_⟩
    · show (s.gcMark + 1) % 2 ^ 32 = k + 1
      rw [hmark, Nat.mod_eq_of_lt hk]
    · show s.heap.dom.filter _ = ∅
      rw [hdom, Finset.filter_empty]

/-- **The mark of a new allocation is that of the collection with the number `2 ^ 24 - 1`.** -/
theorem exists_collision : ∃ s, collector.Run gcStart
    (List.replicate (2 ^ 24 - 2) .collect ++ [.alloc]) s ∧ ¬ CollectsOnce s := by
  obtain ⟨s, hrun, hmark, hdom⟩ := exists_run_collect (2 ^ 24 - 2) (by omega)
  have hfree : 16 ∉ s.heap.dom := by
    rw [hdom]
    exact Finset.notMem_empty _
  refine ⟨_, hrun.snoc (.alloc 16 (.cons nil nil) 0 hfree), fun h => ?_⟩
  refine h.fresh 16 (Finset.mem_insert_self _ _) ?_
  show Function.update s.mark 16 (2 ^ 24 - 1) 16 = (s.gcMark + 1) % 2 ^ 32
  rw [Function.update_self, hmark]
  omega

end Epochs

/-- **Marks never collide** in runs of at most `n` collections exactly if `n < 2 ^ 24 - 2`. -/
theorem collectsOnce_iff (n : ℕ) :
    (∀ ls s, collector.Run gcStart ls s → ls.count .collect ≤ n → CollectsOnce s) ↔
      n < 2 ^ 24 - 2 := by
  constructor
  · intro h
    by_contra hn
    obtain ⟨s, hrun, hnot⟩ := exists_collision
    refine hnot (h _ s hrun ?_)
    rw [List.count_append, List.count_replicate_self]
    have hone : [GcAction.alloc].count .collect = 0 := rfl
    omega
  · intro hn ls s hrun hls
    have hlt : ls.count .collect < 2 ^ 24 - 2 := hls.trans_lt hn
    exact (epochInv_of_run hrun hlt).collectsOnce hlt

/-- **A new allocation counts as marked** in the collection with the number `2 ^ 24 - 1`. -/
theorem not_collectsOnce : ¬ ∀ ls s, collector.Run gcStart ls s → CollectsOnce s := by
  intro h
  obtain ⟨s, hrun, hnot⟩ := exists_collision
  exact hnot (h _ s hrun)

end Lisp

end Bluejay
