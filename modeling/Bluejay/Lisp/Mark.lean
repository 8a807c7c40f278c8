import Bluejay.Lisp.Heap

/-!
# Marking

`_mark` of `gc.c`.  A value is followed if `heapp` holds of it, and a mark is kept in a bit field
of 24 bits.

* `mark` : the recursion, with a bound on its depth; `mark_eq_visit` : it is a depth-first
  visit of the values that `heapp` accepts.
* `MarksReachable` : what `_mark` is for.
* `marksReachable_iff` : it does this exactly where no class instance is reachable and the
  current mark fits its field.
-/

namespace Bluejay

namespace Lisp

/-- The `mark` of every allocation, and the counter `*marked`. -/
structure Marks where
  mark : ℕ → ℕ
  marked : ℕ

/-- The assignment `alloc->mark = gc_mark`; the field has 24 bits. -/
def Marks.set (gc_mark : ℕ) (s : Marks) (alloc : ℕ) : Marks :=
  ⟨Function.update s.mark alloc (gc_mark % 2 ^ 24), s.marked + 1⟩

/-- `_mark`, to a depth of less than `n`. -/
def mark (H : Heap) (gc_mark : ℕ) : ℕ → Word → Marks → Option Marks
  | 0, _, _ => none
  | n + 1, value, s =>
    if heapp value then
      let alloc := pointer value
      if s.mark alloc = gc_mark then some s
      else
        let s := s.set gc_mark alloc
        match H.obj alloc with
        | some (.cons car cdr) => (mark H gc_mark n car s).bind fun s => mark H gc_mark n cdr s
        | some (.closure _ _ data) => data.foldlM (fun s v => mark H gc_mark n v s) s
        | some (.object _ members) => members.foldlM (fun s v => mark H gc_mark n v s) s
        | _ => some s
    else some s

/-- **What `_mark` is for**: it ends, with a mark on everything reachable from `v`, and no other
mark changed. -/
def MarksReachable (H : Heap) (gc_mark : ℕ) (v : Word) (s : Marks) : Prop :=
  ∃ n s', mark H gc_mark n v s = some s' ∧
    (∀ p, H.graph.Reach v p → s'.mark p = gc_mark) ∧
    ∀ p, ¬ H.graph.Reach v p → s'.mark p = s.mark p

/-! ### `_mark` as a depth-first visit -/

/-- The graph of the values that `heapp` accepts. -/
def Heap.markGraph (H : Heap) : Graph Word ℕ where
  node v := if heapp v then some (pointer v) else none
  succ := H.children

/-- The marks of allocations as `_mark` sees them. -/
def marker (gc_mark : ℕ) : Marker Marks ℕ where
  marked s p := s.mark p = gc_mark
  set := Marks.set gc_mark

theorem marker_lawful {gc_mark : ℕ} (h : gc_mark < 2 ^ 24) : (marker gc_mark).Lawful := by
  intro s u v
  simp only [marker, Marks.set, decide_eq_true_eq, Nat.mod_eq_of_lt h]
  by_cases huv : u = v
  · subst huv; simp
  · simp [huv]

theorem mark_eq_visit (H : Heap) (gc_mark n : ℕ) (v : Word) (s : Marks) :
    mark H gc_mark n v s = H.markGraph.visit (marker gc_mark) n v s := by
  induction n generalizing v s with
  | zero => rfl
  | succ n ih =>
    rw [mark, Graph.visit]
    by_cases hv : heapp v
    · simp only [hv, if_true, Heap.markGraph, marker, decide_eq_true_eq, Heap.children]
      split_ifs with hm
      · rfl
      · cases ho : H.obj (pointer v) with
        | none => rfl
        | some o =>
          cases o with
          | cons car cdr =>
            simp only [ih, Option.map_some, Option.getD_some, Obj.children, List.foldlM_cons,
              List.foldlM_nil, bind_pure]
            rfl
          | text chars => rfl
          | closure args function data => simp only [ih]; rfl
          | object type members => simp only [ih]; rfl
    · simp [hv, Heap.markGraph]

/-! ### Completeness -/

section Complete

variable {H : HeapGraph} {gc_mark : ℕ} {v : Word} {p : ℕ} {s s' : Marks}

theorem reach_of_markGraph (h : H.markGraph.Reach v p) : H.graph.Reach v p := by
  have hnode : ∀ w q, H.markGraph.node w = some q → H.graph.node w = some q := by
    intro w q hw
    simp only [Heap.markGraph, Heap.graph, Option.ite_none_right_eq_some] at hw ⊢
    exact ⟨by simp [hw.1], hw.2⟩
  induction h with
  | root hw => exact .root (hnode _ _ hw)
  | edge _ hw hn ih => exact .edge ih hw (hnode _ _ hn)

/-- What a value that `heapp` accepts leads to is no class instance. -/
theorem not_isClass_of_heapp {w : Word} {o : Obj} (hw : heapp w) (hf : o.fits (tag w)) :
    o.isClass = false := by
  cases o with
  | object type members =>
    simp only [Obj.fits, decide_eq_true_eq] at hf
    simp [heapp, consp, stringp, symbolp, closurep, hf, classTag, consTag, stringTag, symbolTag,
      closureTag] at hw
  | _ => rfl

/-- What a value with the tag of a class leads to is a class instance. -/
theorem isClass_of_classp {w : Word} {o : Obj} (hw : classp w) (hf : o.fits (tag w)) :
    o.isClass = true := by
  simp only [classp, decide_eq_true_eq] at hw
  cases o with
  | object type members => rfl
  | _ => simp [Obj.fits, hw, classTag, consTag, stringTag, symbolTag, closureTag] at hf

/-- No class instance is reachable from `v`. -/
def NoClass (H : Heap) (v : Word) : Prop :=
  ∀ p, H.graph.Reach v p → ∀ o, H.obj p = some o → o.isClass = false

/-- The edges that `_mark` does not follow lead to class instances. -/
theorem markGraph_of_noClass (hv : H.Points v) (hc : NoClass H.toHeap v)
    (h : H.graph.Reach v p) : H.markGraph.Reach v p := by
  have hnode : ∀ w q, H.Points w → H.graph.Reach v q → H.graph.node w = some q →
      H.markGraph.node w = some q := by
    intro w q hp hr hw
    simp only [Heap.graph, Heap.markGraph, Option.ite_none_right_eq_some] at hw ⊢
    obtain ⟨o, ho, hf⟩ := hp hw.1
    have hno := hc q hr o (by rw [← Option.some.inj hw.2, ho])
    rcases Bool.or_eq_true _ _ ▸ hw.1 with hh | hh
    · exact ⟨hh, hw.2⟩
    · rw [isClass_of_classp hh hf] at hno
      cases hno
  induction h with
  | root hw => exact .root (hnode _ _ hv (.root hw) hw)
  | edge hu hw hn ih =>
    exact .edge ih hw (hnode _ _ (HeapGraph.points_of_mem_children hw) (.edge hu hw hn) hn)

/-- What `_mark` follows is no class instance. -/
theorem not_isClass_of_markGraph (hv : H.Points v) (h : H.markGraph.Reach v p) {o : Obj}
    (ho : H.obj p = some o) : o.isClass = false := by
  have hnode : ∀ w, H.Points w → H.markGraph.node w = some p → o.isClass = false := by
    intro w hp hw
    simp only [Heap.markGraph, Option.ite_none_right_eq_some, Option.some.injEq] at hw
    obtain ⟨o', ho', hf⟩ := hp (by simp [hw.1])
    rw [hw.2, ho] at ho'
    cases ho'
    exact not_isClass_of_heapp hw.1 hf
  cases h with
  | root hw => exact hnode v hv hw
  | edge hu hw hn => exact hnode _ (HeapGraph.points_of_mem_children hw) hn

/-- Reachable addresses are in use. -/
theorem mem_dom_of_reach (hv : H.Points v) (h : H.graph.Reach v p) : p ∈ H.dom := by
  obtain ⟨w, hw, rfl, hp⟩ := HeapGraph.reach_cases hv h
  obtain ⟨o, ho, -⟩ := hp hw
  exact (H.mem_dom _).1 (by rw [ho]; rfl)

/-- What a visit changes. -/
theorem mark_foldl (h : gc_mark < 2 ^ 24) (vs : List ℕ) (s : Marks) (p : ℕ) :
    (vs.foldl (Marks.set gc_mark) s).mark p = if p ∈ vs then gc_mark else s.mark p := by
  induction vs generalizing s with
  | nil => simp
  | cons u vs ih =>
    rw [List.foldl_cons, ih]
    by_cases hvs : p ∈ vs
    · rw [if_pos hvs, if_pos (List.mem_cons_of_mem u hvs)]
    · rw [if_neg hvs]
      by_cases hu : p = u
      · rw [if_pos (by simp [hu]), hu]
        simp only [Marks.set, Function.update_self]
        exact Nat.mod_eq_of_lt h
      · rw [if_neg (by simp [hu, hvs])]
        simp only [Marks.set, Function.update_of_ne hu]

/-- A mark that does not fit its field is never found there. -/
theorem mark_of_ge {H : Heap} (hg : 2 ^ 24 ≤ gc_mark) {n : ℕ}
    (h : mark H gc_mark n v s = some s') (hp : s'.mark p = gc_mark) : s.mark p = gc_mark := by
  rw [mark_eq_visit] at h
  refine Graph.visit_invariant (I := fun s' => s'.mark p = gc_mark → s.mark p = gc_mark)
    (fun s₁ u _ hs hset => ?_) h id hp
  by_cases hu : p = u
  · simp only [marker, Marks.set, hu, Function.update_self] at hset
    have := Nat.mod_lt gc_mark (Nat.two_pow_pos 24)
    omega
  · simp only [marker, Marks.set, Function.update_of_ne hu] at hset
    exact hs hset

/-- A value that leads nowhere is not marked. -/
theorem marksReachable_of_isolated (hr : ∀ p, ¬ H.graph.Reach v p) :
    MarksReachable H.toHeap gc_mark v s := by
  have hv : heapp v = false := by
    by_contra hv
    exact hr (pointer v) (.root (by simp [Heap.graph, hv]))
  refine ⟨1, s, by simp [mark, hv], fun p hp => absurd hp (hr p), fun _ _ => rfl⟩

/-- With a mark that fits its field and no class instance in reach, `_mark` does its work. -/
theorem marksReachable_of_noClass (hv : H.Points v) (hs : ∀ p ∈ H.dom, s.mark p ≠ gc_mark)
    (hc : NoClass H.toHeap v) (hg : gc_mark < 2 ^ 24) : MarksReachable H.toHeap gc_mark v s := by
  have hK := marker_lawful hg
  have hdom : ∀ w p, H.Points w → H.markGraph.node w = some p →
      p ∈ H.dom ∧ ∀ w' ∈ H.markGraph.succ p, H.Points w' := by
    intro w p hw hp
    simp only [Heap.markGraph, Option.ite_none_right_eq_some, Option.some.injEq] at hp
    obtain ⟨o, ho, -⟩ := hw (by simp [hp.1])
    rw [hp.2] at ho
    exact ⟨(H.mem_dom p).1 (by rw [ho]; rfl), fun w' hw' => HeapGraph.points_of_mem_children hw'⟩
  obtain ⟨s', h⟩ := Option.isSome_iff_exists.1
    (Graph.visit_isSome hK hdom (s := s) hv (Nat.lt_succ_self _))
  obtain ⟨vs, ht⟩ := Graph.visit_trace hK h
  have hmark : ∀ p, s'.mark p = if p ∈ vs then gc_mark else s.mark p := fun p => by
    have heq : s' = vs.foldl (Marks.set gc_mark) s := ht.eq
    rw [heq, mark_foldl hg]
  refine ⟨_, s', (mark_eq_visit _ _ _ _ _).trans h, fun p hp => ?_, fun p hp => ?_⟩
  · have hmem : p ∈ vs := by
      refine Graph.marked_of_reach hK ht (fun q hq => ?_) (markGraph_of_noClass hv hc hp)
      simpa [marker] using hs q (mem_dom_of_reach hv (reach_of_markGraph hq))
    rw [hmark, if_pos hmem]
  · have hnot : p ∉ vs := fun hvs => by
      obtain ⟨w, hw, hr⟩ := ht.reach p hvs
      rw [List.mem_singleton] at hw
      exact hp (reach_of_markGraph (hw ▸ hr))
    rw [hmark, if_neg hnot]

/-- **`_mark` marks everything reachable** exactly where no class instance is reachable and, if
anything is reachable, the current mark fits in 24 bits. -/
theorem marksReachable_iff (hv : H.Points v) (hs : ∀ p ∈ H.dom, s.mark p ≠ gc_mark) :
    MarksReachable H.toHeap gc_mark v s ↔
      NoClass H.toHeap v ∧ (gc_mark < 2 ^ 24 ∨ ∀ p, ¬ H.graph.Reach v p) := by
  constructor
  · rintro ⟨n, s', h, hmark, -⟩
    rcases Nat.lt_or_ge gc_mark (2 ^ 24) with hg | hg
    · refine ⟨fun p hp o ho => ?_, .inl hg⟩
      rw [mark_eq_visit] at h
      obtain ⟨vs, ht⟩ := Graph.visit_trace (marker_lawful hg) h
      have hp' := hmark p hp
      have heq : s' = vs.foldl (Marks.set gc_mark) s := ht.eq
      rw [heq, mark_foldl hg] at hp'
      split_ifs at hp' with hvs
      · obtain ⟨w, hw, hr⟩ := ht.reach p hvs
        rw [List.mem_singleton] at hw
        exact not_isClass_of_markGraph hv (hw ▸ hr) ho
      · exact absurd hp' (hs p (mem_dom_of_reach hv hp))
    · have hno : ∀ p, ¬ H.graph.Reach v p := fun p hp =>
        hs p (mem_dom_of_reach hv hp) (mark_of_ge hg h (hmark p hp))
      exact ⟨fun p hp => absurd hp (hno p), .inr hno⟩
  · rintro ⟨hc, hg | hr⟩
    · exact marksReachable_of_noClass hv hs hc hg
    · exact marksReachable_of_isolated hr

end Complete

/-- A cell that is its own `car` is marked. -/
theorem marksReachable_cycle :
    MarksReachable (HeapGraph.ofList [(16, .cons 17 nil)] (by decide)).toHeap 1 17
      ⟨fun _ => 0, 0⟩ := by
  refine (marksReachable_iff (fun _ => ⟨.cons 17 nil, rfl, rfl⟩) (fun _ _ => Nat.zero_ne_one)).2
    ⟨fun p _ o ho => ?_, .inl (by decide)⟩
  have hmem : (p, o) ∈ [(16, Obj.cons 17 nil)] := mem_of_obj_ofList ho
  rw [List.mem_singleton, Prod.mk.injEq] at hmem
  rw [hmem.2]
  rfl

/-- **A class instance is not marked**: `heapp` does not hold of it. -/
theorem not_marksReachable_class : ¬ ∀ (H : HeapGraph) (gc_mark : ℕ) (v : Word) (s : Marks),
    H.Points v → (∀ p ∈ H.dom, s.mark p ≠ gc_mark) → MarksReachable H.toHeap gc_mark v s := by
  intro h
  obtain ⟨n, s', hmark, hreach, -⟩ := h
    (.ofList [(16, .object 37 [nil]), (32, .text "point")] (by decide)) 1 18 ⟨fun _ => 0, 0⟩
    (fun _ => ⟨.object 37 [nil], rfl, rfl⟩) (fun _ _ => Nat.zero_ne_one)
  have hp := hreach 16 (.root rfl)
  cases n with
  | zero => cases hmark
  | succ n =>
    cases hmark
    cases hp

end Lisp

end Bluejay
