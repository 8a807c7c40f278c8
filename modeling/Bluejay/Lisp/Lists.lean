import Mathlib.Data.Finset.Card
import Mathlib.Data.Finset.Lattice.Fold
import Bluejay.Lisp.Heap

/-!
# Proper lists

* `ListOf H v ws` : in the heap `H`, the value `v` is the proper list of the values `ws`.
* `ListOf.length`, `ListOf.listp`, `ListOf.elt` : what the functions of `lisp.c` make of it.
* `Heap.Extends` : a heap with more objects; `ListOf.extends`.
-/

namespace Bluejay

namespace Lisp

/-- The value `v` is the proper list of the values `ws`. -/
def ListOf (H : Heap) (v : Word) : List Word → Prop
  | [] => v = nil
  | w :: ws => consp v ∧ ∃ d, H.obj (pointer v) = some (.cons w d) ∧ ListOf H d ws

namespace ListOf

variable {H : Heap} {v w : Word} {ws ws' : List Word}

theorem car (h : ListOf H v (w :: ws)) : H.car v = w := by
  obtain ⟨hc, d, ho, -⟩ := h
  simp [Heap.car, hc, ho]

theorem cdr (h : ListOf H v (w :: ws)) : ListOf H (H.cdr v) ws := by
  obtain ⟨hc, d, ho, hd⟩ := h
  simpa [Heap.cdr, hc, ho] using hd

theorem not_consp_nil : consp nil = false := by decide

/-- A value is a proper list in one way. -/
theorem unique (h : ListOf H v ws) (h' : ListOf H v ws') : ws = ws' := by
  induction ws generalizing v ws' with
  | nil =>
    obtain rfl : v = nil := h
    cases ws' with
    | nil => rfl
    | cons w' ws' => exact absurd h'.1 (by simp [not_consp_nil])
  | cons w ws ih =>
    cases ws' with
    | nil =>
      obtain rfl : v = nil := h'
      exact absurd h.1 (by simp [not_consp_nil])
    | cons w' ws' => rw [← h.car, ← h'.car, ih h.cdr h'.cdr]

theorem nilp_iff (h : ListOf H v ws) : nilp v = true ↔ ws = [] := by
  have hnil : nilp v = true ↔ v = nil := by simp [nilp]
  rw [hnil]
  constructor
  · rintro rfl
    exact h.unique rfl
  · rintro rfl
    exact h

theorem pointer_injective {v w : ℕ} (hv : consp v) (hw : consp w)
    (h : pointer v = pointer w) : v = w := by
  have hv : v % 8 = 1 := of_decide_eq_true hv
  have hw : w % 8 = 1 := of_decide_eq_true hw
  simp only [pointer] at h
  omega

/-- The cells of a proper list are different objects. -/
theorem exists_cells (h : ListOf H v ws) : ∃ cs : List Word, cs.length = ws.length ∧
    (cs.map pointer).Nodup ∧ (∀ c ∈ cs, consp c ∧ pointer c ∈ H.dom ∧
      ∃ us, us.length ≤ ws.length ∧ ListOf H c us) ∧
    ∀ n, ws.length < n → H.cells n v = some (cs, nil) := by
  induction ws generalizing v with
  | nil =>
    obtain rfl : v = nil := h
    refine ⟨[], rfl, List.nodup_nil, by simp, fun n hn => ?_⟩
    obtain ⟨n, rfl⟩ := Nat.exists_eq_succ_of_ne_zero (Nat.ne_zero_of_lt hn)
    simp [Heap.cells, not_consp_nil]
  | cons w ws ih =>
    obtain ⟨cs, hlen, hnd, hcs, hcells⟩ := ih h.cdr
    obtain ⟨hc, d, ho, -⟩ := id h
    have hdom : pointer v ∈ H.dom := (H.mem_dom _).1 (by simp [ho])
    refine ⟨v :: cs, by simp [hlen], ?_, ?_, fun n hn => ?_⟩
    · rw [List.map_cons, List.nodup_cons]
      refine ⟨fun hmem => ?_, hnd⟩
      -- a cell further on is the start of a shorter list
      obtain ⟨c, hmem, hp⟩ := List.mem_map.1 hmem
      obtain ⟨hcc, -, us, hus, hlist⟩ := hcs c hmem
      obtain rfl := pointer_injective hcc hc hp
      obtain rfl := hlist.unique h
      exact absurd hus (Nat.not_succ_le_self _)
    · refine List.forall_mem_cons.2 ⟨⟨hc, hdom, _, le_rfl, h⟩, fun c hmem => ?_⟩
      obtain ⟨hcc, hd, us, hus, hlist⟩ := hcs c hmem
      exact ⟨hcc, hd, us, hus.trans (Nat.le_succ _), hlist⟩
    · obtain ⟨n, rfl⟩ := Nat.exists_eq_succ_of_ne_zero (Nat.ne_zero_of_lt hn)
      have hn' : ws.length < n := by simpa using hn
      simp [Heap.cells, hc, hcells n hn']

/-- There are as many objects as cells of a proper list. -/
theorem length_le_card (h : ListOf H v ws) : ws.length ≤ H.dom.card := by
  obtain ⟨cs, hlen, hnd, hcs, -⟩ := h.exists_cells
  have hsub : (cs.map pointer).toFinset ⊆ H.dom := fun p hp => by
    obtain ⟨c, hc, rfl⟩ := List.mem_map.1 (List.mem_toFinset.1 hp)
    exact (hcs c hc).2.1
  have hcard := Finset.card_le_card hsub
  rwa [List.toFinset_card_of_nodup hnd, List.length_map, hlen] at hcard

theorem cells (h : ListOf H v ws) : ∃ cs : List Word, cs.length = ws.length ∧
    H.cells (H.dom.card + 1) v = some (cs, nil) := by
  obtain ⟨cs, hlen, -, -, hcells⟩ := h.exists_cells
  exact ⟨cs, hlen, hcells _ (Nat.lt_succ_of_le h.length_le_card)⟩

@[simp] theorem length (h : ListOf H v ws) : H.length v = some ws.length := by
  obtain ⟨cs, hlen, hc⟩ := h.cells
  simp [Heap.length, hc, nilp, hlen]

@[simp] theorem listp (h : ListOf H v ws) : H.listp v = some true := by
  obtain ⟨cs, -, hc⟩ := h.cells
  simp [Heap.listp, hc, nilp]

theorem elt (h : ListOf H v ws) {i : ℕ} (hw : ws[i]? = some w) : H.elt v i = w := by
  induction ws generalizing v i with
  | nil => simp at hw
  | cons u ws ih =>
    cases i with
    | zero => simpa [Heap.elt, h.car] using hw
    | succ i => exact ih h.cdr (by simpa using hw)

end ListOf

/-! ### Growing heaps -/

/-- The objects of `H` are in `H'` as they are. -/
def Heap.Extends (H H' : Heap) : Prop := ∀ p o, H.obj p = some o → H'.obj p = some o

namespace Heap.Extends

variable {H H' H'' : Heap}

theorem refl (H : Heap) : H.Extends H := fun _ _ => id

theorem trans (h : H.Extends H') (h' : H'.Extends H'') : H.Extends H'' :=
  fun p o ho => h' p o (h p o ho)

theorem dom_subset (h : H.Extends H') : H.dom ⊆ H'.dom := by
  intro p hp
  obtain ⟨o, ho⟩ := Option.isSome_iff_exists.1 ((H.mem_dom p).2 hp)
  exact (H'.mem_dom p).1 (by rw [h p o ho]; rfl)

theorem set {p : ℕ} (hp : p ∉ H.dom) (o : Obj) : H.Extends (H.set p o) := by
  intro q o' hq
  have hne : q ≠ p := by
    rintro rfl
    exact hp ((H.mem_dom q).1 (by rw [hq]; rfl))
  simpa [Heap.set, hne] using hq

end Heap.Extends

/-- There is always room: above all addresses in use. -/
theorem Heap.exists_fresh (H : Heap) : ∃ p, p ∉ H.dom ∧ p % 8 = 0 := by
  refine ⟨8 * (H.dom.sup id + 1), fun hmem => ?_, Nat.mul_mod_right _ _⟩
  have hle : 8 * (H.dom.sup id + 1) ≤ H.dom.sup id := Finset.le_sup (f := id) hmem
  omega

theorem ListOf.extends {H H' : Heap} {v : Word} {ws : List Word} (h : ListOf H v ws)
    (hH : H.Extends H') : ListOf H' v ws := by
  induction ws generalizing v with
  | nil => exact h
  | cons w ws ih =>
    obtain ⟨hc, d, ho, hd⟩ := h
    exact ⟨hc, d, hH _ _ ho, ih hd⟩

end Lisp

end Bluejay
