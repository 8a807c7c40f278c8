import Bluejay.Lisp.Epochs

/-!
# A collection is not seen

What the collector of `gc.c` promises to a program: its objects stay as long as the program can
get at them, through any number of allocations, stores and collections.

* `Mutator`, `MutStep` : a program on the collector.  It holds values, goes from a value to those
  its object holds, stores values it holds, and collects with at least its own values as roots.
* `Endless`, `EndlessStep` : the same program on a memory that is never collected.  There a new
  object may stand wherever the program cannot look.
* `markRoots_iff` : a collection marks exactly what is reachable from the roots.
* `MutInv.step`, `endless_of_run` : **every run on the collector is a run without it**, with the same
  values held and the same objects behind them.
* `collect_exact` : a collection frees exactly what is neither reachable nor in a living pool.

The program makes no class instances, which `_mark` does not follow, and there are fewer
collections than marks.
-/

namespace Bluejay

namespace Lisp

/-- The allocations, and the values a program holds. -/
structure Mutator where
  gc : GcState
  held : List Word

/-- What a program does. -/
inductive MutAction
  /-- A new object; `w` is its value. -/
  | alloc (w : Word) (o : Obj) (current_pool : ℕ)
  /-- The object of `w` becomes `o`. -/
  | store (w : Word) (o : Obj)
  | addToPool (w : Word) (current_pool : ℕ)
  /-- `w'` is one of the values in the object of `w`. -/
  | load (w w' : Word)
  /-- A value that is not on the heap. -/
  | compute (w : Word)
  /-- The program keeps these values only. -/
  | drop (held : List Word)
  | collect (roots : List Word)
  deriving DecidableEq

def MutAction.isCollect : MutAction → Bool
  | .collect _ => true
  | _ => false

/-- One step of a program on the collector. -/
inductive MutStep (s : Mutator) : MutAction → Mutator → Prop
  | alloc (w : Word) (o : Obj) (current_pool : ℕ) (hw : heapp w) (hf : o.fits (tag w))
      (hfree : pointer w ∉ s.gc.heap.dom) (ho : ∀ u ∈ o.children, u ∈ s.held) :
      MutStep s (.alloc w o current_pool) ⟨s.gc.alloc (pointer w) o current_pool, w :: s.held⟩
  | store (w : Word) (o : Obj) (hw : w ∈ s.held) (hh : heapp w) (hf : o.fits (tag w))
      (ho : ∀ u ∈ o.children, u ∈ s.held) :
      MutStep s (.store w o) { s with gc := { s.gc with heap := s.gc.heap.set (pointer w) o } }
  | addToPool (w : Word) (current_pool : ℕ) (hw : w ∈ s.held) (hh : heapp w) :
      MutStep s (.addToPool w current_pool)
        { s with gc := { s.gc with pool := Function.update s.gc.pool (pointer w) current_pool } }
  | load (w w' : Word) (hw : w ∈ s.held) (hh : heapp w)
      (hw' : w' ∈ s.gc.heap.children (pointer w)) :
      MutStep s (.load w w') { s with held := w' :: s.held }
  | compute (w : Word) (hh : heapp w = false) (hc : classp w = false) :
      MutStep s (.compute w) { s with held := w :: s.held }
  | drop (held : List Word) (h : held ⊆ s.held) : MutStep s (.drop held) { s with held := held }
  /-- `_do_gc`, which finds at least the values of the program among its roots. -/
  | collect (roots : List Word) (n : ℕ) (m : Marks) (visited : List ℕ) (hr : s.held ⊆ roots)
      (h : markRoots s.gc.heap s.gc.newMark n roots ⟨s.gc.mark, 0⟩ = some (m, visited)) :
      MutStep s (.collect roots)
        { s with gc := { s.gc with
            heap := sweep s.gc.heap s.gc.pool s.gc.newMark m
            mark := m.mark
            gcMark := s.gc.newMark } }

/-- All runs of programs on the collector. -/
def mutators : System Mutator MutAction := ⟨MutStep⟩

/-- The values a program that holds `held` can get at. -/
abbrev Heap.Met (H : Heap) (held : List Word) (w : Word) : Prop := H.markGraph.Met held w

/-- A memory without a collector, and the values a program holds. -/
structure Endless where
  heap : Heap
  held : List Word

/-- One step of the program.  Collections do nothing, and pools mean nothing. -/
inductive EndlessStep (t : Endless) : MutAction → Endless → Prop
  | alloc (w : Word) (o : Obj) (current_pool : ℕ) (hw : heapp w) (hf : o.fits (tag w))
      (hfree : ∀ u, t.heap.Met t.held u → heapp u → pointer u ≠ pointer w)
      (ho : ∀ u ∈ o.children, u ∈ t.held) :
      EndlessStep t (.alloc w o current_pool) ⟨t.heap.set (pointer w) o, w :: t.held⟩
  | store (w : Word) (o : Obj) (hw : w ∈ t.held) (hh : heapp w) (hf : o.fits (tag w))
      (ho : ∀ u ∈ o.children, u ∈ t.held) :
      EndlessStep t (.store w o) { t with heap := t.heap.set (pointer w) o }
  | addToPool (w : Word) (current_pool : ℕ) (hw : w ∈ t.held) (hh : heapp w) :
      EndlessStep t (.addToPool w current_pool) t
  | load (w w' : Word) (hw : w ∈ t.held) (hh : heapp w) (hw' : w' ∈ t.heap.children (pointer w)) :
      EndlessStep t (.load w w') { t with held := w' :: t.held }
  | compute (w : Word) (hh : heapp w = false) (hc : classp w = false) :
      EndlessStep t (.compute w) { t with held := w :: t.held }
  | drop (held : List Word) (h : held ⊆ t.held) :
      EndlessStep t (.drop held) { t with held := held }
  | collect (roots : List Word) (hr : t.held ⊆ roots) : EndlessStep t (.collect roots) t

/-- All runs of programs without a collector. -/
def endless : System Endless MutAction := ⟨EndlessStep⟩

/-! ### One collection -/

section Collect

variable {H : Heap} {gc_mark : ℕ} {roots : List Word} {p : ℕ}

/-- **What a collection marks** is what can be reached from its roots. -/
theorem markRoots_iff {n : ℕ} {s m : Marks} {visited : List ℕ} (hg : gc_mark < 2 ^ 24)
    (hfresh : ∀ p ∈ H.dom, s.mark p ≠ gc_mark)
    (h : markRoots H gc_mark n roots s = some (m, visited)) (hp : p ∈ H.dom) :
    m.mark p = gc_mark ↔ ∃ w ∈ roots, H.markGraph.Reach w p := by
  have hK : (marker gc_mark).logged.Lawful := fun s u v => marker_lawful hg s.1 u v
  obtain ⟨vs, ht⟩ := Graph.trace_foldlM hK (fun w s s' => Graph.visit_trace hK) h
  have hdom : ∀ q, ¬ q ∈ H.dom → H.markGraph.succ q = [] := fun q hq => by
    show H.children q = []
    rw [Heap.children, Heap.obj_eq_none.2 hq]
    rfl
  have hnot : ∀ q, q ∈ H.dom → ¬ (marker gc_mark).logged.marked (s, []) q = true := by
    intro q hq
    simpa [Marker.logged, marker] using hfresh q hq
  rw [← Graph.mem_trace_iff hK ht hdom hnot hp]
  have hmarked : (marker gc_mark).logged.marked (m, visited) p = true ↔ p ∈ vs := by
    rw [ht.eq, Graph.marked_foldl hK]
    exact or_iff_left (hnot p hp)
  rw [← hmarked]
  simp [Marker.logged, marker]

theorem markGraph_node {w : Word} : H.markGraph.node w = some p ↔ heapp w ∧ pointer w = p := by
  simp only [Heap.markGraph, Option.ite_none_right_eq_some, Option.some.injEq]

/-- What a collection keeps it does not change. -/
theorem sweep_obj {pool : ℕ → ℕ} {m : Marks} (h : poolAlive (pool p) ∨ m.mark p = gc_mark) :
    (sweep H pool gc_mark m).obj p = H.obj p :=
  if_pos h

end Collect

/-! ### What a program sees -/

section Sees

variable {H : Heap} {held held' : List Word} {w : Word} {o : Obj}

/-- Every value the program can get at leads to an object of its kind, and not to a class
instance. -/
structure Usable (H : Heap) (held : List Word) : Prop where
  noClass : ∀ w, H.Met held w → classp w = false
  points : ∀ w, H.Met held w → H.Points w

/-- The object behind a value the program can get at. -/
theorem Usable.obj (h : Usable H held) (hw : H.Met held w) (hh : heapp w) :
    ∃ o, H.obj (pointer w) = some o ∧ o.fits (tag w) :=
  h.points w hw (by rw [hh]; rfl)

theorem Usable.mem_dom (h : Usable H held) (hw : H.Met held w) (hh : heapp w) :
    pointer w ∈ H.dom := by
  obtain ⟨o, ho, -⟩ := h.obj hw hh
  exact (H.mem_dom _).1 (by rw [ho]; rfl)

theorem Usable.mono (h : Usable H held) (hsub : ∀ u ∈ held', H.Met held u) : Usable H held' :=
  ⟨fun w hw => h.noClass w (hw.of_subset hsub), fun w hw => h.points w (hw.of_subset hsub)⟩

/-- A value that is not on the heap leads nowhere. -/
theorem met_cons (hw : heapp w = false) {u : Word} (hu : H.Met (w :: held) u) :
    u = w ∨ H.Met held u := by
  induction hu with
  | root h => exact (List.mem_cons.1 h).imp_right .root
  | step _ hv hx ih =>
    obtain ⟨hh, -⟩ := markGraph_node.1 hv
    rcases ih with rfl | hu
    · rw [hw] at hh
      cases hh
    · exact .inr (.step hu hv hx)

theorem obj_set_self (p : ℕ) : (H.set p o).obj p = some o := Function.update_self _ _ _

theorem obj_set_of_ne {p q : ℕ} (h : q ≠ p) : (H.set p o).obj q = H.obj q :=
  Function.update_of_ne h _ _

theorem children_set_self (p : ℕ) : (H.set p o).children p = o.children := by
  rw [Heap.children, obj_set_self]
  rfl

theorem children_set_of_ne {p q : ℕ} (h : q ≠ p) : (H.set p o).children q = H.children q := by
  rw [Heap.children, obj_set_of_ne h, Heap.children]

/-- What can be got at once the object of `w` is `o`. -/
theorem met_set (ho : ∀ u ∈ o.children, H.Met held u)
    (hheld : ∀ u ∈ held', u = w ∨ H.Met held u) {u : Word}
    (hu : (H.set (pointer w) o).Met held' u) : u = w ∨ H.Met held u := by
  induction hu with
  | root h => exact hheld _ h
  | @step x u v _ hv hu ih =>
    right
    have hmem : u ∈ (H.set (pointer w) o).children v := hu
    by_cases hvp : v = pointer w
    · rw [hvp, children_set_self] at hmem
      exact ho u hmem
    · rw [children_set_of_ne hvp] at hmem
      obtain ⟨-, hxv⟩ := markGraph_node.1 hv
      rcases ih with rfl | hx
      · exact absurd hxv.symm hvp
      · exact .step hx hv hmem

theorem classp_of_heapp (hh : heapp w) : classp w = false := by
  simp only [heapp, consp, stringp, symbolp, closurep, Bool.or_eq_true, decide_eq_true_eq] at hh
  simp only [classp, decide_eq_false_iff_not]
  rcases hh with ((h | h) | h) | h <;> rw [h] <;> decide

/-- A tag that fits an object's first kind fits what takes its place. -/
theorem fits_of_fits {o' : Obj} {m n : ℕ} (hm : o.fits m) (hn : o.fits n) (hn' : o'.fits n) :
    o'.fits m := by
  cases o <;> cases o' <;> simp only [Obj.fits, Bool.or_eq_true, decide_eq_true_eq] at * <;>
    simp only [consTag, classTag, stringTag, symbolTag, closureTag] at * <;> omega

end Sees

/-! ### Runs -/

/-- The program holds the same values on both memories, and what they lead to is the same. -/
structure Sees (s : Mutator) (t : Endless) : Prop where
  held : t.held = s.held
  obj : ∀ w, s.gc.heap.Met s.held w → heapp w →
    t.heap.obj (pointer w) = s.gc.heap.obj (pointer w)

section Step

variable {s s' : Mutator} {t : Endless} {a : MutAction} {k : ℕ} {w : Word}

theorem Sees.children (h : Sees s t) (hw : s.gc.heap.Met s.held w) (hh : heapp w) :
    t.heap.children (pointer w) = s.gc.heap.children (pointer w) := by
  rw [Heap.children, h.obj w hw hh, Heap.children]

/-- What the program can get at is the same. -/
theorem Sees.met (h : Sees s t) : t.heap.Met t.held w ↔ s.gc.heap.Met s.held w := by
  rw [h.held]
  have hnode : t.heap.markGraph.node = s.gc.heap.markGraph.node := rfl
  refine Graph.met_congr hnode fun u v hu hv => ?_
  obtain ⟨hh, rfl⟩ := markGraph_node.1 hv
  exact h.children hu hh

/-- A step that changes what is held only. -/
theorem Sees.hold (h : Sees s t) (hs : Usable s.gc.heap s.held) (held : List Word)
    (hsub : ∀ u ∈ held, s.gc.heap.Met s.held u) :
    Sees { s with held := held } { t with held := held } ∧ Usable s.gc.heap held :=
  ⟨⟨rfl, fun w hw hh => h.obj w (hw.of_subset hsub) hh⟩, hs.mono hsub⟩

/-- A step that puts an object at `w`, which is where the program looks only if it has changed the
object of a value it holds. -/
theorem Sees.set (h : Sees s t) (hs : Usable s.gc.heap s.held) {o : Obj} (held : List Word)
    (gc : GcState) (hgc : gc.heap = s.gc.heap.set (pointer w) o) (hh : heapp w)
    (hf : o.fits (tag w)) (ho : ∀ u ∈ o.children, u ∈ s.held)
    (hheld : ∀ u ∈ held, u = w ∨ s.gc.heap.Met s.held u)
    (hw : ∀ u, s.gc.heap.Met s.held u → heapp u → pointer u = pointer w →
      s.gc.heap.Met s.held w) :
    Sees ⟨gc, held⟩ ⟨t.heap.set (pointer w) o, held⟩ ∧ Usable gc.heap held := by
  have hmet : ∀ u, gc.heap.Met held u → u = w ∨ s.gc.heap.Met s.held u := fun u hu =>
    met_set (fun u hu => .root (ho u hu)) hheld (hgc ▸ hu)
  refine ⟨⟨rfl, fun u hu hhu => ?_⟩, fun u hu => ?_, fun u hu hhu => ?_⟩
  · rw [hgc]
    by_cases hp : pointer u = pointer w
    · rw [hp, obj_set_self, obj_set_self]
    · rw [obj_set_of_ne hp, obj_set_of_ne hp]
      refine h.obj u ((hmet u hu).resolve_left ?_) hhu
      rintro rfl
      exact hp rfl
  · rcases hmet u hu with rfl | hu
    · exact classp_of_heapp hh
    · exact hs.noClass u hu
  · rw [hgc]
    by_cases hp : pointer u = pointer w
    · refine ⟨o, by rw [hp, obj_set_self], ?_⟩
      rcases hmet u hu with rfl | hu
      · exact hf
      · -- `u` and `w` lead to one object
        rw [hs.noClass u hu, Bool.or_false] at hhu
        obtain ⟨o₁, h₁, hf₁⟩ := hs.obj hu hhu
        obtain ⟨o₂, h₂, hf₂⟩ := hs.obj (hw u hu hhu hp) hh
        rw [hp, h₂, Option.some.injEq] at h₁
        subst h₁
        exact fits_of_fits hf₁ hf₂ hf
    · rw [obj_set_of_ne hp]
      refine hs.points u ((hmet u hu).resolve_left ?_) hhu
      rintro rfl
      exact hp rfl

/-- A collection leaves alone what the program can get at. -/
theorem Sees.collect (h : Sees s t) (hs : Usable s.gc.heap s.held) (gc : GcState) {gc_mark n : ℕ}
    {roots : List Word} {m : Marks} {visited : List ℕ} (hg : gc_mark < 2 ^ 24)
    (hfresh : ∀ p ∈ s.gc.heap.dom, s.gc.mark p ≠ gc_mark) (hr : s.held ⊆ roots)
    (hm : markRoots s.gc.heap gc_mark n roots ⟨s.gc.mark, 0⟩ = some (m, visited))
    (hgc : gc.heap = sweep s.gc.heap s.gc.pool gc_mark m) :
    Sees ⟨gc, s.held⟩ t ∧ Usable gc.heap s.held := by
  have hobj : ∀ u, s.gc.heap.Met s.held u → heapp u →
      gc.heap.obj (pointer u) = s.gc.heap.obj (pointer u) := fun u hu hh => by
    obtain ⟨x, hx, hreach⟩ := hu.reach (markGraph_node.2 ⟨hh, rfl⟩)
    rw [hgc]
    refine sweep_obj (.inr ?_)
    exact (markRoots_iff (s := ⟨s.gc.mark, 0⟩) hg hfresh hm (hs.mem_dom hu hh)).2
      ⟨x, hr hx, hreach⟩
  have hmet : ∀ u, gc.heap.Met s.held u ↔ s.gc.heap.Met s.held u := fun u => by
    have hnode : gc.heap.markGraph.node = s.gc.heap.markGraph.node := rfl
    refine Graph.met_congr hnode fun x v hx hv => ?_
    obtain ⟨hh, rfl⟩ := markGraph_node.1 hv
    show gc.heap.children (pointer x) = s.gc.heap.children (pointer x)
    rw [Heap.children, hobj x hx hh, Heap.children]
  refine ⟨⟨h.held, fun u hu hh => ?_⟩, fun u hu => hs.noClass u ((hmet u).1 hu),
    fun u hu hhu => ?_⟩
  · rw [hobj u ((hmet u).1 hu) hh]
    exact h.obj u ((hmet u).1 hu) hh
  · have hu' := (hmet u).1 hu
    have hh := hhu
    rw [hs.noClass u hu', Bool.or_false] at hh
    rw [hobj u hu' hh]
    exact hs.points u hu' hhu

/-- What a run keeps: the marks are those of the collections so far, and the program sees what it
sees without a collector. -/
structure MutInv (s : Mutator) (t : Endless) (k : ℕ) : Prop where
  epoch : EpochInv s.gc k
  usable : Usable s.gc.heap s.held
  sees : Sees s t

/-- The step lemma: the program without a collector follows every step. -/
theorem MutInv.step (h : MutInv s t k) (hk : k < 2 ^ 24 - 2) (hs : MutStep s a s') :
    ∃ t', EndlessStep t a t' ∧ MutInv s' t' (if a.isCollect then k + 1 else k) := by
  obtain ⟨he, hu, hv⟩ := h
  have hheld := hv.held
  cases hs with
  | alloc w o current_pool hw hf hfree ho =>
    -- the new address is not in use, so the program cannot get at it
    have hapart : ∀ u, s.gc.heap.Met s.held u → heapp u → pointer u ≠ pointer w :=
      fun u hm hh hp => hfree (hp ▸ hu.mem_dom hm hh)
    obtain ⟨hv', hu'⟩ := hv.set hu (w :: s.held) (s.gc.alloc (pointer w) o current_pool)
      rfl hw hf ho (fun u hm => (List.mem_cons.1 hm).imp_right .root)
      fun u hm hh hp => absurd hp (hapart u hm hh)
    refine ⟨_, .alloc w o current_pool hw hf (fun u hm => hapart u (hv.met.1 hm))
      (fun u hm => hheld ▸ ho u hm), he.step (.alloc _ o current_pool hfree) hk, hu', ?_⟩
    rw [hheld]
    exact hv'
  | store w o hw hh hf ho =>
    obtain ⟨hv', hu'⟩ := hv.set hu s.held
      { s.gc with heap := s.gc.heap.set (pointer w) o } rfl hh hf ho
      (fun u hm => .inr (.root hm)) fun _ _ _ _ => .root hw
    refine ⟨_, .store w o (hheld ▸ hw) hh hf (fun u hm => hheld ▸ ho u hm),
      he.step (.store _ o (hu.mem_dom (.root hw) hh)) hk, hu', ?_⟩
    rw [hheld]
    exact hv'
  | addToPool w current_pool hw hh =>
    exact ⟨t, .addToPool w current_pool (hheld ▸ hw) hh,
      he.step (.addToPool _ current_pool (hu.mem_dom (.root hw) hh)) hk, hu, hv.held, hv.obj⟩
  | load w w' hw hh hw' =>
    obtain ⟨hv', hu'⟩ := hv.hold hu (w' :: s.held) fun u hm => by
      rcases List.mem_cons.1 hm with rfl | hm
      · exact .step (.root hw) (markGraph_node.2 ⟨hh, rfl⟩) hw'
      · exact .root hm
    refine ⟨_, .load w w' (hheld ▸ hw) hh ((hv.children (.root hw) hh).symm ▸ hw'), he, hu', ?_⟩
    rw [hheld]
    exact hv'
  | compute w hh hc =>
    refine ⟨_, .compute w hh hc, he, ⟨fun u hm => ?_, fun u hm hhu => ?_⟩,
      by rw [hheld], fun u hm hhu => ?_⟩
    · rcases met_cons hh hm with rfl | hm
      · exact hc
      · exact hu.noClass u hm
    · rcases met_cons hh hm with rfl | hm
      · rw [hh, hc] at hhu
        cases hhu
      · exact hu.points u hm hhu
    · rcases met_cons hh hm with rfl | hm
      · rw [hh] at hhu
        cases hhu
      · exact hv.obj u hm hhu
  | drop held hsub =>
    obtain ⟨hv', hu'⟩ := hv.hold hu held fun u hm => .root (hsub hm)
    exact ⟨_, .drop held (hheld ▸ hsub), he, hu', hv'⟩
  | collect roots n m visited hr hm =>
    have hnew : s.gc.newMark = k + 1 := by
      rw [GcState.newMark, he.gcMark]
      omega
    obtain ⟨hv', hu'⟩ := hv.collect hu
      { s.gc with
        heap := sweep s.gc.heap s.gc.pool s.gc.newMark m
        mark := m.mark
        gcMark := s.gc.newMark }
      (by omega) (he.collectsOnce hk).fresh hr hm rfl
    exact ⟨t, .collect roots (hheld ▸ hr), he.step (.collect roots n m visited hm) hk, hu', hv'⟩

end Step

/-- Nothing is allocated, and nothing is held. -/
def mutStart : Mutator := ⟨gcStart, []⟩

def endlessStart : Endless := ⟨Heap.ofList [], []⟩

theorem mutInv_start : MutInv mutStart endlessStart 0 := by
  have hmet : ∀ w, ¬ mutStart.gc.heap.Met mutStart.held w := fun w h => by
    induction h with
    | root h => cases h
    | step _ _ _ ih => exact ih
  exact ⟨⟨rfl, fun p hp => absurd hp (Finset.notMem_empty p)⟩,
    ⟨fun w hw => absurd hw (hmet w), fun w hw => absurd hw (hmet w)⟩,
    ⟨rfl, fun w hw => absurd hw (hmet w)⟩⟩

/-- The run lemma. -/
theorem mutInv_of_run {ls : List MutAction} {s : Mutator} (h : mutators.Run mutStart ls s)
    (hls : ls.countP MutAction.isCollect < 2 ^ 24 - 2) :
    ∃ t, endless.Run endlessStart ls t ∧ MutInv s t (ls.countP MutAction.isCollect) := by
  induction h with
  | nil => exact ⟨endlessStart, .nil, mutInv_start⟩
  | @snoc ls s s' l h hs ih =>
    rw [List.countP_append, List.countP_singleton] at hls ⊢
    obtain ⟨t, ht, hinv⟩ := ih (by omega)
    obtain ⟨t', hstep, hinv'⟩ := hinv.step (by omega) hs
    refine ⟨t', ht.snoc hstep, ?_⟩
    split_ifs at hinv' ⊢ <;> exact hinv'

/-- **A run on the collector is a run without it.**  The program holds the same values, and each
heap value it can get at has its object, which is the same as without the collector. -/
theorem endless_of_run {ls : List MutAction} {s : Mutator} (h : mutators.Run mutStart ls s)
    (hls : ls.countP MutAction.isCollect < 2 ^ 24 - 2) :
    ∃ t, endless.Run endlessStart ls t ∧ t.held = s.held ∧
      ∀ w, s.gc.heap.Met s.held w → heapp w → ∃ o, o.fits (tag w) ∧
        s.gc.heap.obj (pointer w) = some o ∧ t.heap.obj (pointer w) = some o := by
  obtain ⟨t, ht, -, hu, hv⟩ := mutInv_of_run h hls
  refine ⟨t, ht, hv.held, fun w hw hh => ?_⟩
  obtain ⟨o, ho, hf⟩ := hu.obj hw hh
  exact ⟨o, hf, ho, (hv.obj w hw hh).trans ho⟩

/-- **A collection frees exactly the rest**: what is not in a living pool and cannot be reached
from the roots.  With any roots a collection ends, and what stays is not changed. -/
theorem collect_exact {ls : List MutAction} {s : Mutator} (h : mutators.Run mutStart ls s)
    (hls : ls.countP MutAction.isCollect < 2 ^ 24 - 2) {roots : List Word}
    (hr : s.held ⊆ roots) :
    (∃ s', MutStep s (.collect roots) s') ∧ ∀ s', MutStep s (.collect roots) s' →
      ∀ p ∈ s.gc.heap.dom,
        (p ∈ s'.gc.heap.dom ↔
          poolAlive (s.gc.pool p) ∨ ∃ w ∈ roots, s.gc.heap.markGraph.Reach w p) ∧
        (p ∈ s'.gc.heap.dom → s'.gc.heap.obj p = s.gc.heap.obj p) := by
  obtain ⟨t, -, he, -, -⟩ := mutInv_of_run h hls
  have hfresh := (he.collectsOnce hls).fresh
  have hg : s.gc.newMark < 2 ^ 24 := by
    rw [GcState.newMark, he.gcMark]
    omega
  obtain ⟨n, m, visited, hm, -⟩ := (he.collectsOnce hls).visits roots
  refine ⟨⟨_, .collect roots n m visited hr hm⟩, fun s' hs' p hp => ?_⟩
  cases hs' with
  | collect roots n m visited _ hm =>
    have hmarked := markRoots_iff (s := ⟨s.gc.mark, 0⟩) hg hfresh hm hp
    have hmem : p ∈ (sweep s.gc.heap s.gc.pool s.gc.newMark m).dom ↔
        poolAlive (s.gc.pool p) ∨ m.mark p = s.gc.newMark :=
      Finset.mem_filter.trans (and_iff_right hp)
    refine ⟨hmem.trans (or_congr_right hmarked), fun hkept => ?_⟩
    exact sweep_obj (hmem.1 hkept)

theorem not_reach_nil {H : Heap} {p : ℕ} : ¬ H.markGraph.Reach nil p := fun h => by
  induction h with
  | root h => cases (markGraph_node.1 h).1
  | edge _ _ _ ih => exact ih

/-- A cell is made and dropped. -/
theorem run_dropped : mutators.Run mutStart
    [.compute nil, .alloc 17 (.cons nil nil) 0, .drop [nil]]
    ⟨gcStart.alloc 16 (.cons nil nil) 0, [nil]⟩ := by
  let s₁ : Mutator := ⟨gcStart, [nil]⟩
  let s₂ : Mutator := ⟨gcStart.alloc 16 (.cons nil nil) 0, [17, nil]⟩
  have h₁ : mutators.Run mutStart ([] ++ [.compute nil]) s₁ :=
    .snoc .nil (.compute nil (by decide) (by decide))
  have h₂ : mutators.Run mutStart ([.compute nil] ++ [.alloc 17 (.cons nil nil) 0]) s₂ :=
    h₁.snoc (.alloc 17 (.cons nil nil) 0 (by decide) (by decide) (by decide) (by decide))
  exact h₂.snoc (.drop [nil] (by decide))

/-- The cell is freed. -/
theorem collect_dropped : ∃ s s', mutators.Run mutStart
    [.compute nil, .alloc 17 (.cons nil nil) 0, .drop [nil]] s ∧
      MutStep s (.collect [nil]) s' ∧ 16 ∈ s.gc.heap.dom ∧ 16 ∉ s'.gc.heap.dom := by
  have hmem : 16 ∈ (gcStart.alloc 16 (.cons nil nil) 0).heap.dom := Finset.mem_insert_self _ _
  obtain ⟨⟨s', hs'⟩, hall⟩ := collect_exact run_dropped (by decide) (List.Subset.refl [nil])
  refine ⟨_, s', run_dropped, hs', hmem, fun hkept => ?_⟩
  rcases (hall s' hs' 16 hmem).1.1 hkept with hp | ⟨w, hw, hr⟩
  · cases hp
  · rw [List.mem_singleton.1 hw] at hr
    exact not_reach_nil hr

/-- The address of the cell is used again. -/
theorem endless_reuse : ∃ s t, mutators.Run mutStart
    [.compute nil, .alloc 17 (.cons nil nil) 0, .drop [nil], .collect [nil],
      .alloc 17 (.cons nil nil) 0] s ∧
    endless.Run endlessStart
      [.compute nil, .alloc 17 (.cons nil nil) 0, .drop [nil], .collect [nil],
        .alloc 17 (.cons nil nil) 0] t ∧ t.held = s.held := by
  have hcollect := run_dropped.snoc
    (.collect [nil] 1 ⟨(gcStart.alloc 16 (.cons nil nil) 0).mark, 0⟩ [] (List.Subset.refl _) rfl)
  have halloc := hcollect.snoc
    (.alloc 17 (.cons nil nil) 0 (by decide) (by decide) (by decide) (by decide))
  obtain ⟨t, ht, hheld, -⟩ := endless_of_run halloc (by decide)
  exact ⟨_, t, halloc, ht, hheld⟩

end Lisp

end Bluejay
