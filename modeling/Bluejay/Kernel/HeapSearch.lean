import Bluejay.Kernel.HeapDelete
import Mathlib.Logic.Function.Iterate
import Mathlib.Order.Monotone.Basic
import Mathlib.Order.WellFounded

/-!
# Inserting into the heap, and searching it

`heap_insert` and `heap_decrease` move an entry towards the root; `heap_lookup_min` and
`heap_entry_index` go down from the root, always to the smaller child.

* `inserts_and_decreases` : the first two keep the order of the heap, and change the entry they
  are told to.
* `OnPath h i` : the searches can get to entry `i`.
* `bestFit_iff` : `heap_lookup_min` finds the smallest hole that is large enough exactly if the
  path leads to one.
* `addressed_iff` : `heap_entry_index` finds the entry it is told to exactly if the path leads to
  it, and to no other entry with its key before.
-/

namespace Bluejay

namespace Kernel

/-! ### Towards the root -/

/-- The first `size` entries are in heap order except that entry `i` may be below its parent,
which is not above the children of `i`. -/
structure OrderedBelow (size i : ℕ) (e : ℕ → HeapEntry) : Prop where
  other : ∀ j < size, j ≠ 0 → j ≠ i → (e (heapParent j)).key ≤ (e j).key
  child : ∀ j < size, j ≠ 0 → heapParent j = i → i ≠ 0 → (e (heapParent i)).key ≤ (e j).key

section SiftUp

variable {size i n : ℕ} {e : ℕ → HeapEntry}

/-- Entry `i` is exchanged with its parent. -/
theorem OrderedBelow.swap (h : OrderedBelow size i e) (hi : i < size) (hi0 : i ≠ 0)
    (hlt : (e i).key < (e (heapParent i)).key) :
    OrderedBelow size (heapParent i) (swapEntries e i (heapParent i)) := by
  have hpi : heapParent i < i := heapParent_lt hi0
  constructor
  · intro j hj hj0 hjp
    by_cases hji : j = i
    · rw [hji, swapEntries_left, swapEntries_right]
      exact hlt.le
    rw [swapEntries_other hji hjp]
    by_cases hparent : heapParent j = i
    · rw [hparent, swapEntries_left]
      exact h.child j hj hj0 hparent hi0
    by_cases hsibling : heapParent j = heapParent i
    · have hle := h.other j hj hj0 hji
      rw [hsibling] at hle ⊢
      rw [swapEntries_right]
      exact hlt.le.trans hle
    · rw [swapEntries_other hparent hsibling]
      exact h.other j hj hj0 hji
  · intro j hj hj0 hparent hp0
    have hpp : heapParent (heapParent i) < heapParent i := heapParent_lt hp0
    have hup := h.other (heapParent i) (hpi.trans hi) hp0 hpi.ne
    rw [swapEntries_other (hpp.trans hpi).ne hpp.ne]
    by_cases hji : j = i
    · rw [hji, swapEntries_left]
      exact hup
    · have hjp : j ≠ heapParent i := by
        have := heapParent_lt hj0
        omega
      have hle := h.other j hj hj0 hji
      rw [swapEntries_other hji hjp]
      rw [hparent] at hle
      exact hup.trans hle

/-- Entry `i` is not below its parent. -/
theorem OrderedBelow.finish (h : OrderedBelow size i e)
    (hle : i ≠ 0 → (e (heapParent i)).key ≤ (e i).key) : HeapOrdered size e := by
  intro j hj hj0
  by_cases hji : j = i
  · rw [hji] at hj0 ⊢
    exact hle hj0
  · exact h.other j hj hj0 hji

/-- The loop restores the order. -/
theorem ordered_siftUp (h : OrderedBelow size i e) (hi : i < size) (hn : i ≤ n) :
    HeapOrdered size (siftUp (e i).key n e i) := by
  induction n generalizing i e with
  | zero => exact h.finish fun hi0 => absurd (Nat.le_zero.1 hn) hi0
  | succ n ih =>
    unfold siftUp
    split_ifs with hup
    · have hpi : heapParent i < i := heapParent_lt hup.1
      have hnext := ih (h.swap hi hup.1 hup.2) (hpi.trans hi) (by omega)
      rwa [swapEntries_right] at hnext
    · exact h.finish fun hi0 => not_lt.1 fun hlt => hup ⟨hi0, hlt⟩

end SiftUp

/-- `heap_insert` adds the entry `e`, and keeps the order. -/
def Inserts (h : MinHeap) (e : HeapEntry) : Prop :=
  ∃ h', heapInsert h e = .ok h' ∧ HeapOrdered h'.size h'.elements ∧ h'.size = h.size + 1 ∧
    h'.entries.Perm (e :: h.entries)

/-- `heap_decrease` replaces entry `i` by `new`, and keeps the order. -/
def Decreases (h : MinHeap) (i : ℕ) (new : HeapEntry) : Prop :=
  ∃ h', heapDecrease h i new = .ok h' ∧ HeapOrdered h'.size h'.elements ∧ h'.size = h.size ∧
    h'.entries.Perm (h.entries.set i new)

section Update

variable {h : MinHeap} {i : ℕ} {e new : HeapEntry}

theorem inserts (hord : HeapOrdered h.size h.elements) (hs : h.size < heapSize) : Inserts h e := by
  have hbelow : OrderedBelow (h.size + 1) h.size (Function.update h.elements h.size e) := by
    constructor
    · intro j hj hj0 hjs
      have hlt := heapParent_lt hj0
      rw [Function.update_of_ne (by omega), Function.update_of_ne hjs]
      exact hord j (by omega) hj0
    · intro j hj hj0 hp
      have hlt := heapParent_lt hj0
      omega
  have hsift := ordered_siftUp hbelow (Nat.lt_succ_self _) le_rfl
  rw [Function.update_self] at hsift
  have hok : heapInsert h e = .ok ⟨siftUp e.key h.size (Function.update h.elements h.size e) h.size,
      h.size + 1⟩ := if_pos hs
  exact ⟨_, hok, hsift, rfl, entries_heapInsert hok⟩

/-- The key that goes through an `int` comes back as it was. -/
theorem decreases (hord : HeapOrdered h.size h.elements) (hs : h.size ≤ heapSize)
    (hi : i < h.size) (hle : new.key ≤ (h.elements i).key) (hkey : new.key < 2 ^ 32) :
    Decreases h i new := by
  have hbelow : OrderedBelow h.size i (Function.update h.elements i new) := by
    constructor
    · intro j hj hj0 hji
      have hold := hord j hj hj0
      rw [Function.update_of_ne hji]
      by_cases hp : heapParent j = i
      · rw [hp] at hold ⊢
        rw [Function.update_self]
        exact hle.trans hold
      · rwa [Function.update_of_ne hp]
    · intro j hj hj0 hp hi0
      have hij := heapParent_lt hj0
      have hold := hord j hj hj0
      rw [hp] at hold
      rw [Function.update_of_ne (heapParent_lt hi0).ne, Function.update_of_ne (by omega)]
      exact (hord i hi hi0).trans hold
  have hsift := ordered_siftUp hbelow hi le_rfl
  rw [Function.update_self] at hsift
  refine ⟨⟨siftUp new.key i (Function.update h.elements i new) i, h.size⟩, ?_, hsift, rfl, ?_⟩
  · rw [heapDecrease, if_pos (hi.trans_le hs), u32_of_lt hkey]
  · refine (map_siftUp_perm _ _ _ hi).trans ?_
    rw [map_update_range]
    exact .refl _

/-- **`heap_insert` and `heap_decrease` keep the heap.** -/
theorem inserts_and_decreases (h : MinHeap) (hord : HeapOrdered h.size h.elements)
    (hs : h.size ≤ heapSize) (hkeys : ∀ j < h.size, (h.elements j).key < 2 ^ 32) :
    (h.size < heapSize → ∀ e, Inserts h e) ∧
      ∀ i < h.size, ∀ new : HeapEntry, new.key ≤ (h.elements i).key → Decreases h i new :=
  ⟨fun hs _ => inserts hord hs,
    fun i hi _ hle => decreases hord hs hi hle (hle.trans_lt (hkeys i hi))⟩

end Update

theorem inserts_threeHoles : Inserts threeHoles ⟨2, 8⟩ ∧ Decreases threeHoles 2 ⟨0, 8⟩ :=
  have hkept := inserts_and_decreases threeHoles (by decide) (by decide) (by decide)
  ⟨hkept.1 (by decide) _, hkept.2 2 (by decide) _ (by decide)⟩

/-! ### The path of the searches -/

/-- Entry `i`, and every entry above it but the root, is the smaller child of its parent, the right
one if they are equal. -/
inductive OnPath (h : MinHeap) : ℕ → Prop
  | root (hs : 0 < h.size) : OnPath h 0
  | left {i : ℕ} (hi : OnPath h i) (hl : heapLeft i < h.size)
      (hlt : heapRight i < h.size → (h.elements (heapLeft i)).key < (h.elements (heapRight i)).key) :
      OnPath h (heapLeft i)
  | right {i : ℕ} (hi : OnPath h i) (hr : heapRight i < h.size)
      (hle : (h.elements (heapRight i)).key ≤ (h.elements (heapLeft i)).key) :
      OnPath h (heapRight i)

/-- Where the searches go from entry `j`; not below `h.size` if it has no child. -/
def smallerChild (h : MinHeap) (j : ℕ) : ℕ :=
  if h.size ≤ heapLeft j then heapRight j
  else if h.size ≤ heapRight j then heapLeft j
  else if (h.elements (heapLeft j)).key < (h.elements (heapRight j)).key then heapLeft j
  else heapRight j

/-- The entry `d` levels down the path. -/
def pathAt (h : MinHeap) (d : ℕ) : ℕ := (smallerChild h)^[d] 0

section Path

variable {h : MinHeap} {i j d : ℕ} {go : HeapEntry → Bool}

theorem lt_smallerChild (h : MinHeap) (j : ℕ) : j < smallerChild h j := by
  unfold smallerChild heapLeft heapRight
  split_ifs <;> omega

theorem pathAt_succ (h : MinHeap) (d : ℕ) : pathAt h (d + 1) = smallerChild h (pathAt h d) :=
  Function.iterate_succ_apply' _ _ _

theorem pathAt_strictMono (h : MinHeap) : StrictMono (pathAt h) :=
  strictMono_nat_of_lt_succ fun d => (pathAt_succ h d).symm ▸ lt_smallerChild h _

theorem smallerChild_left (hl : heapLeft i < h.size)
    (hlt : heapRight i < h.size → (h.elements (heapLeft i)).key < (h.elements (heapRight i)).key) :
    smallerChild h i = heapLeft i := by
  unfold smallerChild
  rw [if_neg (not_le.2 hl)]
  by_cases hr : h.size ≤ heapRight i
  · rw [if_pos hr]
  · rw [if_neg hr, if_pos (hlt (not_le.1 hr))]

theorem smallerChild_right (hr : heapRight i < h.size)
    (hle : (h.elements (heapRight i)).key ≤ (h.elements (heapLeft i)).key) :
    smallerChild h i = heapRight i := by
  have hl : heapLeft i < h.size := by
    unfold heapLeft heapRight at *
    omega
  unfold smallerChild
  rw [if_neg (not_le.2 hl), if_neg (not_le.2 hr), if_neg (not_lt.2 hle)]

theorem OnPath.lt (hi : OnPath h i) : i < h.size := by
  cases hi with
  | root hs => exact hs
  | left _ hl _ => exact hl
  | right _ hr _ => exact hr

theorem OnPath.exists_pathAt (hi : OnPath h i) : ∃ d, pathAt h d = i := by
  induction hi with
  | root _ => exact ⟨0, rfl⟩
  | left _ hl hlt ih =>
    obtain ⟨d, hd⟩ := ih
    exact ⟨d + 1, by rw [pathAt_succ, hd, smallerChild_left hl hlt]⟩
  | right _ hr hle ih =>
    obtain ⟨d, hd⟩ := ih
    exact ⟨d + 1, by rw [pathAt_succ, hd, smallerChild_right hr hle]⟩

theorem onPath_pathAt (hd : pathAt h d < h.size) : OnPath h (pathAt h d) := by
  induction d with
  | zero => exact .root (Nat.zero_lt_of_lt hd)
  | succ d ih =>
    rw [pathAt_succ] at hd ⊢
    have hi := ih ((lt_smallerChild h _).trans hd)
    unfold smallerChild at hd ⊢
    split_ifs at hd ⊢ with hl hr hlt
    · exact absurd hd (not_lt.2 (hl.trans (Nat.le_succ _)))
    · exact .left hi hd fun hr' => absurd hr' (not_lt.2 hr)
    · exact .left hi hd fun _ => hlt
    · exact .right hi hd (not_lt.1 hlt)

/-- A search goes down the path while `go` holds. -/
theorem heapDescend_pathAt {n : ℕ} (hn : h.size ≤ d + n) :
    ∃ m, heapDescend go h n (pathAt h d) = pathAt h (d + m) ∧
      (∀ k < m, pathAt h (d + k) < h.size ∧ go (h.elements (pathAt h (d + k)))) ∧
      ¬ (pathAt h (d + m) < h.size ∧ go (h.elements (pathAt h (d + m)))) := by
  induction n generalizing d with
  | zero =>
    refine ⟨0, rfl, fun k hk => absurd hk (Nat.not_lt_zero k), fun hd => ?_⟩
    have hle := (pathAt_strictMono h).le_apply (x := d)
    exact absurd hd.1 (not_lt.2 ((show h.size ≤ d from hn).trans hle))
  | succ n ih =>
    by_cases hgo : pathAt h d < h.size ∧ go (h.elements (pathAt h d))
    · obtain ⟨m, hm, hbefore, hstop⟩ := ih (d := d + 1) (by omega)
      refine ⟨m + 1, ?_, fun k hk => ?_, ?_⟩
      · rw [heapDescend, if_pos hgo, ← show d + 1 + m = d + (m + 1) by omega, ← hm, pathAt_succ]
        rfl
      · cases k with
        | zero => exact hgo
        | succ k => simpa [Nat.add_assoc, Nat.add_comm 1] using hbefore k (by omega)
      · simpa [Nat.add_assoc, Nat.add_comm 1] using hstop
    · exact ⟨0, by rw [heapDescend, if_neg hgo, Nat.add_zero],
        fun k hk => absurd hk (Nat.not_lt_zero k), hgo⟩

/-- A search stops at the first entry of the path that `go` does not hold of, if there is one. -/
theorem heapDescend_first (go : HeapEntry → Bool) (h : MinHeap) :
    (heapDescend go h h.size 0 < h.size → OnPath h (heapDescend go h h.size 0) ∧
      go (h.elements (heapDescend go h h.size 0)) = false) ∧
    ∀ i, OnPath h i → i < heapDescend go h h.size 0 → go (h.elements i) = true := by
  have hd : h.size ≤ 0 + h.size := (Nat.zero_add _).ge
  obtain ⟨m, hm, hbefore, hstop⟩ := @heapDescend_pathAt h 0 go h.size hd
  simp only [Nat.zero_add] at hm hbefore hstop
  rw [show heapDescend go h h.size 0 = pathAt h m from hm]
  refine ⟨fun hlt => ⟨onPath_pathAt hlt, ?_⟩, fun i hi hlt => ?_⟩
  · simpa [hlt] using hstop
  · obtain ⟨k, rfl⟩ := hi.exists_pathAt
    exact (hbefore k ((pathAt_strictMono h).lt_iff_lt.1 hlt)).2

/-- Down the path, the keys do not decrease. -/
theorem OnPath.key_le (hord : HeapOrdered h.size h.elements) (hi : OnPath h i) (hj : OnPath h j)
    (hij : i ≤ j) : (h.elements i).key ≤ (h.elements j).key := by
  obtain ⟨k, rfl⟩ := hi.exists_pathAt
  obtain ⟨m, rfl⟩ := hj.exists_pathAt
  have hkm : k ≤ m := (pathAt_strictMono h).le_iff_le.1 hij
  clear hi hij
  induction m, hkm using Nat.le_induction with
  | base => exact le_rfl
  | succ m hkm ih =>
    have hlt := (pathAt_strictMono h) (Nat.lt_succ_self m)
    have hm : OnPath h (pathAt h m) := onPath_pathAt (hlt.trans hj.lt)
    refine (ih hm).trans ?_
    have hparent : heapParent (pathAt h (m + 1)) = pathAt h m := by
      rw [pathAt_succ]
      unfold smallerChild heapParent heapLeft heapRight
      split_ifs <;> omega
    have hle := hord _ hj.lt (Nat.zero_lt_of_lt hlt).ne'
    rwa [hparent] at hle

end Path

/-! ### `heap_lookup_min` -/

/-- No entry that is large enough is smaller than entry `i`. -/
def IsBest (h : MinHeap) (min i : ℕ) : Prop :=
  i < h.size ∧ min ≤ (h.elements i).key ∧
    ∀ j < h.size, min ≤ (h.elements j).key → (h.elements i).key ≤ (h.elements j).key

/-- `heap_lookup_min` finds an entry if one is large enough, and then the smallest such one. -/
def BestFit (h : MinHeap) (min : ℕ) : Prop :=
  ∃ r, heapLookupMin h min false = .ok (r, h) ∧
    (r.isSome ↔ ∃ i < h.size, min ≤ (h.elements i).key) ∧
    ∀ e i, r = some (e, i) → e = h.elements i ∧ IsBest h min i

theorem heapLookupMin_eq (h : MinHeap) (min : ℕ) : heapLookupMin h min false =
    .ok (if heapDescend (fun e => e.key < min) h h.size 0 < h.size then
      some (h.elements (heapDescend (fun e => e.key < min) h h.size 0),
        heapDescend (fun e => e.key < min) h h.size 0) else none, h) := by
  simp only [heapLookupMin, Bool.false_eq_true, if_false, Except.map]
  split_ifs <;> rfl

/-- `heap_lookup_min` finds the smallest entry that is large enough exactly if there is none, or
one is on the path. -/
theorem bestFit_iff {h : MinHeap} (hord : HeapOrdered h.size h.elements) (min : ℕ) :
    BestFit h min ↔ ((∃ i < h.size, min ≤ (h.elements i).key) →
      ∃ i, OnPath h i ∧ IsBest h min i) := by
  obtain ⟨hfound, hbefore⟩ := heapDescend_first (fun e => e.key < min) h
  unfold BestFit
  rw [heapLookupMin_eq]
  set r := heapDescend (fun e => e.key < min) h h.size 0 with hr
  constructor
  · rintro ⟨_, hok, hsome, hbest⟩ hex
    have hlt : r < h.size := by
      by_contra hge
      rw [if_neg hge, Except.ok.injEq, Prod.mk.injEq] at hok
      rw [← hok.1] at hsome
      exact absurd (hsome.2 hex) (by simp)
    rw [if_pos hlt, Except.ok.injEq, Prod.mk.injEq] at hok
    exact ⟨r, (hfound hlt).1, (hbest _ _ hok.1.symm).2⟩
  · intro hpath
    refine ⟨_, rfl, ?_, fun e i hei => ?_⟩
    · constructor
      · intro hsome
        by_cases hlt : r < h.size
        · exact ⟨r, hlt, by simpa using (hfound hlt).2⟩
        · simp [hlt] at hsome
      · intro hex
        obtain ⟨i, hi, hlt, hmin, -⟩ := hpath hex
        have hle : r ≤ i := by
          by_contra hgt
          exact absurd (hbefore i hi (not_le.1 hgt)) (by simpa using hmin)
        rw [if_pos (hle.trans_lt hlt)]
        rfl
    · by_cases hlt : r < h.size
      · rw [if_pos hlt, Option.some.injEq, Prod.mk.injEq] at hei
        obtain ⟨rfl, rfl⟩ := hei
        obtain ⟨hon, hge⟩ := hfound hlt
        have hmin : min ≤ (h.elements r).key := by simpa using hge
        refine ⟨rfl, hlt, hmin, fun j hj hjmin => ?_⟩
        obtain ⟨i, hi, -, himin, hbest⟩ := hpath ⟨r, hlt, hmin⟩
        have hle : r ≤ i := by
          by_contra hgt
          exact absurd (hbefore i hi (not_le.1 hgt)) (by simpa using himin)
        exact (hon.key_le hord hi hle).trans (hbest j hj hjmin)
      · simp [hlt] at hei

theorem bestFit_threeHoles : BestFit threeHoles 2 :=
  (bestFit_iff (by decide) 2).2 fun _ => ⟨1, .left (.root (by decide)) (by decide) (by decide),
    by decide, by decide, by decide⟩

/-- **`heap_lookup_min` misses a hole**: at the hole of size 2 it turns away from that of size
3. -/
theorem not_bestFit : ¬ ∀ (h : MinHeap) (min : ℕ), HeapOrdered h.size h.elements → 0 < min →
    min < 2 ^ 31 → BestFit h min := by
  intro h
  obtain ⟨r, hok, hsome, -⟩ := h threeHoles 3 (by decide) (by decide) (by decide)
  have hnone : heapLookupMin threeHoles 3 false = .ok (none, threeHoles) := rfl
  obtain rfl : none = r := by simpa [hnone] using hok
  exact absurd (hsome.2 ⟨2, by decide, by decide⟩) (by decide)

/-! ### `heap_entry_index` -/

/-- `heap_entry_index` finds an entry that is equal to `e`, and `heap_decrease_entry` replaces that
entry and no other. -/
def Addressed (h : MinHeap) (e : HeapEntry) : Prop :=
  (∃ j, heapEntryIndex h e = some j ∧ j < h.size ∧ h.elements j = e) ∧
    ∀ new : HeapEntry, new.key ≤ e.key → ∃ h', heapDecreaseEntry h e new = .ok h' ∧
      HeapOrdered h'.size h'.elements ∧ h'.entries.Perm (new :: h.entries.erase e)

/-- `heap_entry_index` finds the entry exactly if it is on the path, and no entry above it has the
same key. -/
theorem addressed_iff {h : MinHeap} {e : HeapEntry} (hord : HeapOrdered h.size h.elements)
    (hs : h.size ≤ heapSize) (hkeys : ∀ j < h.size, (h.elements j).key < 2 ^ 32) :
    Addressed h e ↔ ∃ j, OnPath h j ∧ h.elements j = e ∧
      ∀ k, OnPath h k → k < j → (h.elements k).key ≠ e.key := by
  obtain ⟨hfound, hbefore⟩ := heapDescend_first (fun a => a.key ≠ e.key) h
  have hindex : heapEntryIndex h e =
      if h.size ≤ heapDescend (fun a => a.key ≠ e.key) h h.size 0 then none
      else some (heapDescend (fun a => a.key ≠ e.key) h h.size 0) := rfl
  set r := heapDescend (fun a => a.key ≠ e.key) h h.size 0 with hr
  constructor
  · rintro ⟨⟨j, hj, hlt, hje⟩, -⟩
    rw [hindex] at hj
    split_ifs at hj with hge
    obtain rfl : r = j := Option.some.inj hj
    exact ⟨r, (hfound hlt).1, hje, fun k hk hkr => by simpa using hbefore k hk hkr⟩
  · rintro ⟨j, hj, hje, hfirst⟩
    have hle : r ≤ j := by
      by_contra hgt
      exact absurd (hbefore j hj (not_le.1 hgt)) (by simp [hje])
    have hlt : r < h.size := hle.trans_lt hj.lt
    obtain ⟨hon, hkey⟩ := hfound hlt
    obtain rfl : r = j := by
      by_contra hne
      exact hfirst r hon (lt_of_le_of_ne hle hne) (by simpa using hkey)
    rw [if_neg (not_le.2 hlt)] at hindex
    refine ⟨⟨r, hindex, hlt, hje⟩, fun new hnew => ?_⟩
    rw [← hje] at hnew
    obtain ⟨h', hok, hord', -, hperm⟩ :=
      decreases hord hs hlt hnew (hnew.trans_lt (hkeys r hlt))
    refine ⟨h', ?_, hord', hperm.trans ?_⟩
    · rw [heapDecreaseEntry, hindex]
      exact hok
    · have hlen : r < h.entries.length := by simpa [MinHeap.entries] using hlt
      have hget : h.entries[r] = e := by simpa [MinHeap.entries] using hje
      refine (List.set_perm_cons_eraseIdx hlen new).trans (List.Perm.cons _ ?_)
      have hcons := List.getElem_cons_eraseIdx_perm hlen
      rw [hget] at hcons
      exact (hcons.trans (List.perm_cons_erase (hget ▸ List.getElem_mem hlen))).cons_inv

theorem addressed_threeHoles : Addressed threeHoles ⟨2, 0⟩ :=
  (addressed_iff (by decide) (by decide) (by decide)).2
    ⟨1, .left (.root (by decide)) (by decide) (by decide), rfl, by
      intro k hk hlt
      obtain rfl : k = 0 := by omega
      decide⟩

/-- **`heap_entry_index` misses an entry**, and its `-1` is used as an index. -/
theorem not_addressed : ¬ ∀ (h : MinHeap) (e : HeapEntry), HeapOrdered h.size h.elements →
    h.size ≤ heapSize → (∀ j < h.size, (h.elements j).key < 2 ^ 32) → e ∈ h.entries →
      Addressed h e := by
  intro h
  obtain ⟨⟨j, hj, -⟩, -⟩ :=
    h threeHoles ⟨3, 0⟩ (by decide) (by decide) (by decide) (by decide)
  have hnone : heapEntryIndex threeHoles ⟨3, 0⟩ = none := rfl
  rw [hnone] at hj
  cases hj

end Kernel

end Bluejay
