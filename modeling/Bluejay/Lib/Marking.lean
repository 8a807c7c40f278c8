import Mathlib.Data.Finset.Card
import Mathlib.Tactic.Common

/-!
# Depth-first marking

A collector marks a graph by recursion: a word that leads to an unmarked node marks it and goes
on to the words the node holds.  Where a mark is kept, and what else a visit records, is left to
a `Marker`.

* `Graph W V` : words `W` that may lead to nodes `V`; `Graph.Reach w v` : `v` is reachable from
  the word `w`.
* `Graph.visit` : the recursion, with a bound on its depth.
* `Graph.visit_invariant` : what every marking keeps, a visit keeps.
* `Graph.visit_trace` : a visit marks a list of reachable nodes that is closed under edges.
* `Graph.marked_of_reach` : where nothing reachable was marked before, everything reachable is
  marked afterwards; `Graph.mem_trace_iff` : what several visits, one after the other, mark.
* `Graph.Met` : the words that can be got at; `Graph.met_congr` : they depend on the nodes that can
  be got at only.
* `Graph.visit_isSome` : a depth greater than the number of unmarked nodes is enough.
* `Marker.logged` : a record of the marks; `Graph.visits_nodup` : no node is marked twice.
-/

namespace Bluejay

/-- A graph of nodes that hold words. -/
structure Graph (W V : Type*) where
  /-- The node a word leads to. -/
  node : W → Option V
  /-- The words a node holds. -/
  succ : V → List W

/-- How nodes are marked in the state `S`. -/
structure Marker (S V : Type*) where
  marked : S → V → Bool
  set : S → V → S

/-- Marking a node marks this node and no other. -/
def Marker.Lawful {S V : Type*} (K : Marker S V) : Prop :=
  ∀ s u v, K.marked (K.set s v) u = true ↔ u = v ∨ K.marked s u = true

/-- The same marks, with the nodes in the order in which they are marked. -/
def Marker.logged {S V : Type*} (K : Marker S V) : Marker (S × List V) V where
  marked s v := K.marked s.1 v
  set s v := (K.set s.1 v, s.2 ++ [v])

namespace Graph

variable {W V S : Type*} (G : Graph W V) (K : Marker S V)

/-- The node `v` is reachable from the word `w`. -/
inductive Reach (w : W) : V → Prop
  | root {v : V} (h : G.node w = some v) : Reach w v
  | edge {u v : V} {w' : W} (h : Reach w u) (hw : w' ∈ G.succ u) (hv : G.node w' = some v) :
      Reach w v

/-- Mark from the word `w` on, to a depth of less than `n`. -/
def visit : ℕ → W → S → Option S
  | 0, _, _ => none
  | n + 1, w, s =>
    match G.node w with
    | none => some s
    | some v =>
      if K.marked s v then some s
      else (G.succ v).foldlM (fun s w' => visit n w' s) (K.set s v)

/-- Mark from one word after the other. -/
def visits (n : ℕ) (ws : List W) (s : S) : Option S := ws.foldlM (fun s w => G.visit K n w s) s

variable {G K}

/-- What every marking keeps, a visit keeps. -/
theorem visit_invariant {I : S → Prop}
    (hI : ∀ s v, K.marked s v = false → I s → I (K.set s v)) {n : ℕ} {w : W} {s s' : S}
    (h : G.visit K n w s = some s') (hs : I s) : I s' := by
  induction n generalizing w s s' with
  | zero => cases h
  | succ n ih =>
    rw [visit] at h
    split at h
    · cases h; exact hs
    · rename_i v _
      split_ifs at h with hm
      · cases h; exact hs
      · have hset := hI s v (by simpa using hm) hs
        clear hm
        generalize K.set s v = s₁ at h hset
        generalize G.succ v = ws at h
        induction ws generalizing s₁ with
        | nil => cases h; exact hset
        | cons w' ws ihw =>
          rw [List.foldlM_cons] at h
          obtain ⟨s₂, h₂, h⟩ := Option.bind_eq_some_iff.1 h
          exact ihw s₂ (ih h₂ hset) h

/-- The same for words that are visited one after the other. -/
theorem visits_invariant {I : S → Prop}
    (hI : ∀ s v, K.marked s v = false → I s → I (K.set s v)) {n : ℕ} {ws : List W} {s s' : S}
    (h : G.visits K n ws s = some s') (hs : I s) : I s' := by
  induction ws generalizing s with
  | nil => cases h; exact hs
  | cons w ws ih =>
    obtain ⟨s₁, h₁, h⟩ := Option.bind_eq_some_iff.1 h
    exact ih h (visit_invariant hI h₁ hs)

/-- What is reachable from a word of a node is reachable from any word that leads to it. -/
theorem Reach.of_succ {w w' : W} {u v : V} (hu : G.node w = some u) (hw : w' ∈ G.succ u)
    (h : G.Reach w' v) : G.Reach w v := by
  induction h with
  | root h => exact .edge (.root hu) hw h
  | edge _ hw' hv ih => exact .edge ih hw' hv

theorem marked_foldl (hK : K.Lawful) {s : S} {vs : List V} {u : V} :
    K.marked (vs.foldl K.set s) u = true ↔ u ∈ vs ∨ K.marked s u = true := by
  induction vs generalizing s with
  | nil => simp
  | cons v vs ih => rw [List.foldl_cons, ih, hK, List.mem_cons]; tauto

/-- Every word of a node of `vs` leads to a marked node. -/
def Closed (G : Graph W V) (K : Marker S V) (vs : List V) (s : S) : Prop :=
  ∀ v ∈ vs, ∀ w ∈ G.succ v, ∀ u, G.node w = some u → K.marked s u = true

/-- The list `vs` of nodes records a visit from the words `ws`. -/
structure Trace (G : Graph W V) (K : Marker S V) (ws : List W) (s s' : S) (vs : List V) :
    Prop where
  eq : s' = vs.foldl K.set s
  reach : ∀ v ∈ vs, ∃ w ∈ ws, G.Reach w v
  roots : ∀ w ∈ ws, ∀ v, G.node w = some v → K.marked s' v = true
  closed : G.Closed K vs s'

/-- Marks are kept. -/
theorem Trace.marked_mono {ws : List W} {s s' : S} {vs : List V} (h : Trace G K ws s s' vs)
    (hK : K.Lawful) {v : V} (hv : K.marked s v = true) : K.marked s' v = true := by
  rw [h.eq, marked_foldl hK]
  exact .inr hv

/-- Visiting words one after the other. -/
theorem Trace.append {ws : List W} {w : W} {s s₁ s' : S} {vs us : List V} (hK : K.Lawful)
    (h : Trace G K [w] s s₁ vs) (h' : Trace G K ws s₁ s' us) :
    Trace G K (w :: ws) s s' (vs ++ us) where
  eq := by rw [h'.eq, h.eq, List.foldl_append]
  reach v hv := by
    rcases List.mem_append.1 hv with hv | hv
    · obtain ⟨w', hw', hr⟩ := h.reach v hv
      obtain rfl := List.mem_singleton.1 hw'
      exact ⟨w', List.mem_cons_self, hr⟩
    · obtain ⟨w', hw', hr⟩ := h'.reach v hv
      exact ⟨w', List.mem_cons_of_mem _ hw', hr⟩
  roots w' hw' v hv := by
    rcases List.mem_cons.1 hw' with rfl | hw'
    · exact h'.marked_mono hK (h.roots w' (List.mem_singleton_self _) v hv)
    · exact h'.roots w' hw' v hv
  closed v hv w' hw' u hu := by
    rcases List.mem_append.1 hv with hv | hv
    · exact h'.marked_mono hK (h.closed v hv w' hw' u hu)
    · exact h'.closed v hv w' hw' u hu

theorem trace_foldlM (hK : K.Lawful) {n : ℕ} {ws : List W} {s s' : S}
    (hn : ∀ w s s', G.visit K n w s = some s' → ∃ vs, Trace G K [w] s s' vs)
    (h : ws.foldlM (fun s w => G.visit K n w s) s = some s') :
    ∃ vs, Trace G K ws s s' vs := by
  induction ws generalizing s with
  | nil =>
    cases h
    exact ⟨[], rfl, by simp, by simp, fun v hv => absurd hv List.not_mem_nil⟩
  | cons w ws ih =>
    rw [List.foldlM_cons] at h
    obtain ⟨s₁, h₁, h⟩ := Option.bind_eq_some_iff.1 h
    obtain ⟨vs, ht⟩ := hn w s s₁ h₁
    obtain ⟨us, hu⟩ := ih h
    exact ⟨vs ++ us, ht.append hK hu⟩

/-- **What a visit marks**: reachable nodes, and with a node all that its words lead to. -/
theorem visit_trace (hK : K.Lawful) {n : ℕ} {w : W} {s s' : S}
    (h : G.visit K n w s = some s') : ∃ vs, Trace G K [w] s s' vs := by
  induction n generalizing w s s' with
  | zero => cases h
  | succ n ih =>
    rw [visit] at h
    split at h
    · -- the word leads nowhere
      rename_i hw
      cases h
      refine ⟨[], rfl, by simp, fun w' hw' v hv => ?_, fun v hv => absurd hv List.not_mem_nil⟩
      obtain rfl := List.mem_singleton.1 hw'
      rw [hw] at hv
      cases hv
    · rename_i v hw
      split_ifs at h with hm
      · -- the node is marked already
        cases h
        refine ⟨[], rfl, by simp, fun w' hw' u hu => ?_,
          fun v hv => absurd hv List.not_mem_nil⟩
        obtain rfl := List.mem_singleton.1 hw'
        rw [hw] at hu
        cases hu
        exact hm
      · obtain ⟨vs, ht⟩ := trace_foldlM hK (fun w s s' h => ih h) h
        have hv : K.marked s' v = true := ht.marked_mono hK ((hK s v v).2 (.inl rfl))
        refine ⟨v :: vs, by rw [List.foldl_cons]; exact ht.eq, fun u hu => ?_,
          fun w' hw' u hu => ?_, fun u hu w' hw' => ?_⟩
        · refine ⟨w, List.mem_singleton_self _, ?_⟩
          rcases List.mem_cons.1 hu with rfl | hu
          · exact .root hw
          · obtain ⟨w', hw', hr⟩ := ht.reach u hu
            exact hr.of_succ hw hw'
        · obtain rfl := List.mem_singleton.1 hw'
          rw [hw] at hu
          cases hu
          exact hv
        · rcases List.mem_cons.1 hu with rfl | hu
          · exact ht.roots w' hw'
          · exact ht.closed u hu w' hw'

/-- **Marking is complete** where nothing reachable was marked before. -/
theorem marked_of_reach (hK : K.Lawful) {w : W} {s s' : S} {vs : List V}
    (h : Trace G K [w] s s' vs) (hs : ∀ v, G.Reach w v → ¬ K.marked s v = true) {v : V}
    (hv : G.Reach w v) : v ∈ vs := by
  have hmem : ∀ u, G.Reach w u → K.marked s' u = true → u ∈ vs := fun u hu hm => by
    rw [h.eq, marked_foldl hK] at hm
    exact hm.resolve_right (hs u hu)
  have hmark : K.marked s' v = true := by
    induction hv with
    | root hw => exact h.roots w (List.mem_singleton_self _) _ hw
    | edge hu hw hv ih => exact h.closed _ (hmem _ hu ih) _ hw _ hv
  exact hmem v hv hmark

/-- **What visits mark**, among the nodes of `dom`, which hold all the words: those that are
reachable. -/
theorem mem_trace_iff (hK : K.Lawful) {ws : List W} {s s' : S} {vs : List V}
    (h : Trace G K ws s s' vs) {dom : V → Prop} (hdom : ∀ v, ¬ dom v → G.succ v = [])
    (hs : ∀ v, dom v → ¬ K.marked s v = true) {v : V} (hv : dom v) :
    v ∈ vs ↔ ∃ w ∈ ws, G.Reach w v := by
  have hmem : ∀ u, dom u → K.marked s' u = true → u ∈ vs := fun u hu hm => by
    rw [h.eq, marked_foldl hK] at hm
    exact hm.resolve_right (hs u hu)
  refine ⟨h.reach v, ?_⟩
  rintro ⟨w, hw, hr⟩
  refine hmem v hv ?_
  induction hr with
  | root hn => exact h.roots w hw _ hn
  | @edge u v w' hu hw' hn ih =>
    have hdu : dom u := by
      by_contra hnot
      rw [hdom u hnot] at hw'
      cases hw'
    exact h.closed u (hmem u hdu (ih hdu)) w' hw' v hn

/-! ### Words that can be got at -/

/-- The word `w` is one of `ws`, or one of the words of a node that such a word leads to, and so
on. -/
inductive Met (G : Graph W V) (ws : List W) : W → Prop
  | root {w : W} (h : w ∈ ws) : Met G ws w
  | step {u w : W} {v : V} (h : Met G ws u) (hv : G.node u = some v) (hw : w ∈ G.succ v) :
      Met G ws w

theorem Met.of_subset {ws ws' : List W} {w : W} (h : G.Met ws w)
    (hws : ∀ u ∈ ws, G.Met ws' u) : G.Met ws' w := by
  induction h with
  | root h => exact hws _ h
  | step _ hv hw ih => exact .step ih hv hw

theorem Met.reach {ws : List W} {u : W} {v : V} (h : G.Met ws u) (hv : G.node u = some v) :
    ∃ w ∈ ws, G.Reach w v := by
  induction h generalizing v with
  | root h => exact ⟨_, h, .root hv⟩
  | step _ hn hw ih =>
    obtain ⟨w, hw', hr⟩ := ih hn
    exact ⟨w, hw', .edge hr hw hv⟩

/-- Two graphs that agree on the nodes that can be got at in one of them. -/
theorem met_congr {G' : Graph W V} {ws : List W} (hnode : G'.node = G.node)
    (hsucc : ∀ w v, G.Met ws w → G.node w = some v → G'.succ v = G.succ v) {w : W} :
    G'.Met ws w ↔ G.Met ws w := by
  constructor
  · intro h
    induction h with
    | root h => exact .root h
    | step _ hv hw ih =>
      rw [hnode] at hv
      exact .step ih hv (hsucc _ _ ih hv ▸ hw)
  · intro h
    induction h with
    | root h => exact .root h
    | step hu hv hw ih => exact .step ih (hnode ▸ hv) ((hsucc _ _ hu hv).symm ▸ hw)

/-- A visit leaves no more nodes unmarked. -/
theorem visit_card_le [DecidableEq V] (hK : K.Lawful) {dom : Finset V} {n : ℕ} {w : W} {s s' : S}
    (h : G.visit K n w s = some s') :
    (dom.filter fun u => ¬ K.marked s' u = true).card ≤
      (dom.filter fun u => ¬ K.marked s u = true).card := by
  obtain ⟨vs, ht⟩ := visit_trace hK h
  refine Finset.card_le_card fun u hu => ?_
  obtain ⟨hu, hnot⟩ := Finset.mem_filter.1 hu
  exact Finset.mem_filter.2 ⟨hu, fun hm => hnot (ht.marked_mono hK hm)⟩

/-- Visits end one after the other if each of them does with as many nodes unmarked. -/
theorem visits_isSome_of [DecidableEq V] (hK : K.Lawful) {dom : Finset V} {good : W → Prop}
    {n : ℕ} (hvisit : ∀ w s, good w → (dom.filter fun u => ¬ K.marked s u = true).card < n →
      (G.visit K n w s).isSome) {ws : List W} (hws : ∀ w ∈ ws, good w) {s : S}
    (hn : (dom.filter fun u => ¬ K.marked s u = true).card < n) :
    (G.visits K n ws s).isSome := by
  induction ws generalizing s with
  | nil => rfl
  | cons w ws ih =>
    obtain ⟨s₁, h₁⟩ := Option.isSome_iff_exists.1 (hvisit w s (hws w List.mem_cons_self) hn)
    rw [visits, List.foldlM_cons, h₁]
    exact ih (fun w hw => hws w (List.mem_cons_of_mem _ hw)) ((visit_card_le hK h₁).trans_lt hn)

/-- **A visit ends** within a depth greater than the number of unmarked nodes, where the words
it meets are `good` ones, which lead to nodes of `dom` with good words. -/
theorem visit_isSome [DecidableEq V] (hK : K.Lawful) {dom : Finset V} {good : W → Prop}
    (hdom : ∀ w v, good w → G.node w = some v → v ∈ dom ∧ ∀ w' ∈ G.succ v, good w') {n : ℕ}
    {w : W} {s : S} (hw : good w)
    (hn : (dom.filter fun v => ¬ K.marked s v = true).card < n) :
    (G.visit K n w s).isSome := by
  induction n generalizing w s with
  | zero => exact absurd hn (Nat.not_lt_zero _)
  | succ n ih =>
    rw [visit]
    split
    · rfl
    · rename_i v hv
      obtain ⟨hvdom, hsucc⟩ := hdom w v hw hv
      split_ifs with hm
      · rfl
      · -- one node fewer is unmarked
        have hmem : v ∈ dom.filter fun v => ¬ K.marked s v = true :=
          Finset.mem_filter.2 ⟨hvdom, hm⟩
        have hlt : (dom.filter fun u => ¬ K.marked (K.set s v) u = true).card < n := by
          refine (Finset.card_lt_card ⟨fun u hu => ?_, fun hsub => ?_⟩).trans_le
            (Nat.lt_succ_iff.1 hn)
          · obtain ⟨hu, hnot⟩ := Finset.mem_filter.1 hu
            exact Finset.mem_filter.2 ⟨hu, fun h => hnot ((hK s u v).2 (.inr h))⟩
          · exact (Finset.mem_filter.1 (hsub hmem)).2 ((hK s v v).2 (.inl rfl))
        exact visits_isSome_of hK (fun w s hw hs => ih hw hs) hsucc hlt

theorem visits_isSome [DecidableEq V] (hK : K.Lawful) {dom : Finset V} {good : W → Prop}
    (hdom : ∀ w v, good w → G.node w = some v → v ∈ dom ∧ ∀ w' ∈ G.succ v, good w') {n : ℕ}
    {ws : List W} {s : S} (hws : ∀ w ∈ ws, good w)
    (hn : (dom.filter fun v => ¬ K.marked s v = true).card < n) :
    (G.visits K n ws s).isSome :=
  visits_isSome_of hK (fun _ _ hw hs => visit_isSome hK hdom hw hs) hws hn

/-! ### The order of the marks -/

theorem visits_logged_of {n : ℕ} (hvisit : ∀ (w : W) (s : S × List V),
    (G.visit K.logged n w s).map Prod.fst = G.visit K n w s.1) {ws : List W} {s : S × List V} :
    (G.visits K.logged n ws s).map Prod.fst = G.visits K n ws s.1 := by
  induction ws generalizing s with
  | nil => rfl
  | cons w ws ih =>
    rw [visits, visits, List.foldlM_cons, List.foldlM_cons, ← hvisit w s]
    cases G.visit K.logged n w s with
    | none => rfl
    | some s₁ => exact ih

theorem visit_logged {n : ℕ} {w : W} {s : S × List V} :
    (G.visit K.logged n w s).map Prod.fst = G.visit K n w s.1 := by
  induction n generalizing w s with
  | zero => rfl
  | succ n ih =>
    rw [visit, visit]
    split
    · rfl
    · rename_i v _
      by_cases hm : K.marked s.1 v = true
      · rw [if_pos hm, if_pos (show K.logged.marked s v = true from hm)]
        rfl
      · rw [if_neg hm, if_neg (show ¬ K.logged.marked s v = true from hm)]
        exact visits_logged_of fun w s => ih

theorem visits_logged {n : ℕ} {ws : List W} {s : S × List V} :
    (G.visits K.logged n ws s).map Prod.fst = G.visits K n ws s.1 :=
  visits_logged_of fun _ _ => visit_logged

/-- **No node is marked twice.** -/
theorem visits_nodup (hK : K.Lawful) {n : ℕ} {ws : List W} {s s' : S} {vs : List V}
    (h : G.visits K.logged n ws (s, []) = some (s', vs)) :
    vs.Nodup ∧ ∀ v ∈ vs, K.marked s' v = true := by
  refine visits_invariant (I := fun s => s.2.Nodup ∧ ∀ v ∈ s.2, K.marked s.1 v = true)
    (fun s v hv ⟨hnd, hm⟩ => ⟨?_, fun u hu => ?_⟩) h ⟨List.nodup_nil, by simp⟩
  · refine List.nodup_append.2 ⟨hnd, List.nodup_singleton v, ?_⟩
    rintro u hu v' hv' rfl
    obtain rfl := List.mem_singleton.1 hv'
    exact absurd (hm _ hu) (by simpa [Marker.logged] using hv)
  · rcases List.mem_append.1 hu with hu | hu
    · exact (hK _ _ _).2 (.inr (hm u hu))
    · exact (hK _ _ _).2 (.inl (List.mem_singleton.1 hu))

end Graph

end Bluejay
