import Bluejay.Kernel.MinHeap
import Mathlib.Data.Multiset.AddSub

/-!
# Deleting an entry of the heap

`heap_delete` gives the entry the key `-1`, moves it towards the root and deletes the root.  The
key is compared as an unsigned number, so the entry does not move, and it is the root that goes.

* `HeapOrdered` : no key is below that of its parent.
* `ordered_heapSort` : `heap_sort` restores the order below the index it is called for.
* `deletes_iff` : `heap_delete` deletes the entry it is told to exactly if that is the root, or
  the root is equal to the entry with the key `-1`, and it is not the only entry.
-/

namespace Bluejay

namespace Kernel

/-- The first `size` entries are in heap order. -/
def HeapOrdered (size : ℕ) (e : ℕ → HeapEntry) : Prop :=
  ∀ j < size, j ≠ 0 → (e (heapParent j)).key ≤ (e j).key

instance (size : ℕ) (e : ℕ → HeapEntry) : Decidable (HeapOrdered size e) :=
  inferInstanceAs (Decidable (∀ j < size, _ → _))

/-- The first `size` entries are in heap order except that entry `i` may be greater than its
children, which are not below the parent of `i`. -/
structure OrderedExcept (size i : ℕ) (e : ℕ → HeapEntry) : Prop where
  other : ∀ j < size, j ≠ 0 → heapParent j ≠ i → (e (heapParent j)).key ≤ (e j).key
  child : ∀ j < size, j ≠ 0 → heapParent j = i → i ≠ 0 → (e (heapParent i)).key ≤ (e j).key

section Sift

variable {size i j c n : ℕ} {e : ℕ → HeapEntry}

theorem heapParent_eq_iff (hj : j ≠ 0) : heapParent j = i ↔ j = heapLeft i ∨ j = heapRight i := by
  unfold heapParent heapLeft heapRight
  omega

theorem swapEntries_left : swapEntries e i j i = e j := by
  by_cases h : i = j
  · simp [swapEntries, h]
  · simp [swapEntries, Function.update_of_ne h]

theorem swapEntries_right : swapEntries e i j j = e i := by simp [swapEntries]

theorem swapEntries_other {k : ℕ} (hi : k ≠ i) (hj : k ≠ j) : swapEntries e i j k = e k := by
  rw [swapEntries, Function.update_of_ne hj, Function.update_of_ne hi]

/-- Entry `i` is exchanged with its smallest child. -/
theorem OrderedExcept.swap (h : OrderedExcept size i e) (hc : c < size) (hc0 : c ≠ 0)
    (hp : heapParent c = i) (hlt : (e c).key < (e i).key)
    (hmin : ∀ j < size, j ≠ 0 → heapParent j = i → (e c).key ≤ (e j).key) :
    OrderedExcept size c (swapEntries e i c) := by
  have hic : i < c := hp ▸ heapParent_lt hc0
  constructor
  · intro j hj hj0 hpj
    have hpj_lt : heapParent j < j := heapParent_lt hj0
    by_cases hjc : j = c
    · subst hjc
      rw [hp, swapEntries_left, swapEntries_right]
      exact hlt.le
    by_cases hji : j = i
    · subst hji
      rw [swapEntries_other hpj_lt.ne (by omega), swapEntries_left]
      exact h.child c hc hc0 hp hj0
    rw [swapEntries_other hji hjc]
    by_cases hpi : heapParent j = i
    · rw [hpi, swapEntries_left]
      exact hmin j hj hj0 hpi
    · rw [swapEntries_other hpi hpj]
      exact h.other j hj hj0 hpi
  · intro j hj hj0 hpj _
    have hcj : c < j := hpj ▸ heapParent_lt hj0
    have hle := h.other j hj hj0 (by omega)
    rw [hp, swapEntries_left, swapEntries_other (by omega) (by omega)]
    rwa [hpj] at hle

/-- Entry `i` is not greater than its children. -/
theorem OrderedExcept.finish (h : OrderedExcept size i e)
    (hle : ∀ j < size, j ≠ 0 → heapParent j = i → (e i).key ≤ (e j).key) : HeapOrdered size e := by
  intro j hj hj0
  by_cases hp : heapParent j = i
  · rw [hp]
    exact hle j hj hj0 hp
  · exact h.other j hj hj0 hp

/-- `heap_sort` restores the order. -/
theorem ordered_heapSort (h : OrderedExcept size i e) (hn : size ≤ i + n) :
    HeapOrdered size (heapSort size n e i) := by
  induction n generalizing i e with
  | zero =>
    refine h.finish fun j hj hj0 hp => ?_
    have := heapParent_lt hj0
    omega
  | succ n ih =>
    unfold heapSort
    extract_lets l r s₁ s₂
    -- `s₂` is the index with the smallest key among `i` and its children
    have hs₁ : s₁ = i ∨ s₁ = l ∧ l < size ∧ (e l).key < (e i).key := by
      simp only [s₁]
      split_ifs with hl
      · exact .inr ⟨rfl, hl⟩
      · exact .inl rfl
    have hs₁_le : (e s₁).key ≤ (e i).key ∧ (l < size → (e s₁).key ≤ (e l).key) := by
      simp only [s₁]
      split_ifs with hl
      · exact ⟨hl.2.le, fun _ => le_rfl⟩
      · exact ⟨le_rfl, fun hl' => not_lt.1 fun hlt => hl ⟨hl', hlt⟩⟩
    have hs₂ : s₂ = s₁ ∨ s₂ = r ∧ r < size ∧ (e r).key < (e s₁).key := by
      simp only [s₂]
      split_ifs with hr
      · exact .inr ⟨rfl, hr⟩
      · exact .inl rfl
    have hs₂_le : (e s₂).key ≤ (e s₁).key ∧ (r < size → (e s₂).key ≤ (e r).key) := by
      simp only [s₂]
      split_ifs with hr
      · exact ⟨hr.2.le, fun _ => le_rfl⟩
      · exact ⟨le_rfl, fun hr' => not_lt.1 fun hlt => hr ⟨hr', hlt⟩⟩
    have hmin : ∀ j < size, j ≠ 0 → heapParent j = i → (e s₂).key ≤ (e j).key := by
      intro j hj hj0 hp
      rcases (heapParent_eq_iff hj0).1 hp with rfl | rfl
      · exact hs₂_le.1.trans (hs₁_le.2 hj)
      · exact hs₂_le.2 hj
    split_ifs with hne
    · have hs : (s₂ = l ∨ s₂ = r) ∧ s₂ < size ∧ (e s₂).key < (e i).key := by
        rcases hs₂ with heq | ⟨heq, hr, hlt⟩
        · rcases hs₁ with heq₁ | ⟨heq₁, hl, hlt⟩
          · exact absurd (heq.trans heq₁) hne
          · rw [heq, heq₁]
            exact ⟨.inl rfl, hl, hlt⟩
        · rw [heq]
          exact ⟨.inr rfl, hr, hlt.trans_le hs₁_le.1⟩
      have hs0 : s₂ ≠ 0 ∧ i < s₂ := by
        rcases hs.1 with heq | heq <;> rw [heq] <;> simp only [l, r, heapLeft, heapRight] <;> omega
      exact ih (h.swap hs.2.1 hs0.1 ((heapParent_eq_iff hs0.1).2 hs.1) hs.2.2 hmin) (by omega)
    · rw [ne_eq, not_not] at hne
      exact h.finish (hne ▸ hmin)

end Sift

/-! ### `heap_delete` -/

/-- The entry that `heap_delete` puts in the place of the one to delete. -/
def deletedEntry : HeapEntry := ⟨2 ^ 32 - 1, 0⟩

/-- `heap_delete` deletes entry `i`, and no other. -/
def Deletes (h : MinHeap) (i : ℕ) : Prop :=
  ∃ h', heapDelete h i = .ok h' ∧ h'.size = h.size - 1 ∧ HeapOrdered h'.size h'.elements ∧
    h.entries.Perm (h.elements i :: h'.entries)

theorem siftUp_of_le {k n i : ℕ} {e : ℕ → HeapEntry} (h : (e (heapParent i)).key ≤ k) :
    siftUp k n e i = e := by
  cases n with
  | zero => rfl
  | succ n => exact if_neg fun hi => absurd hi.2 (not_lt.2 h)

section Delete

variable {h h' : MinHeap} {i : ℕ}

/-- No key is greater than `-1`, so the entry stays where it is. -/
theorem heapDecrease_deleted (hs : h.size ≤ heapSize) (hi : i < h.size)
    (hkeys : ∀ j < h.size, (h.elements j).key < 2 ^ 32) :
    heapDecrease h i deletedEntry =
      .ok { h with elements := Function.update h.elements i deletedEntry } := by
  have hle : (Function.update h.elements i deletedEntry (heapParent i)).key ≤
      u32 deletedEntry.key := by
    rw [Function.update_apply]
    split_ifs with hp
    · decide
    · have hlt := hkeys (heapParent i) (by unfold heapParent; omega)
      have hu : u32 deletedEntry.key = 2 ^ 32 - 1 := by decide
      omega
  rw [heapDecrease, if_pos (hi.trans_le hs), siftUp_of_le hle]

/-- With a single entry, the size is decremented twice. -/
theorem heapDelete_single (hs : h.size = 1) : ¬ ∃ h', heapDelete h i = .ok h' := by
  rintro ⟨h', hd⟩
  unfold heapDelete at hd
  cases hdec : heapDecrease h i ⟨2 ^ 32 - 1, 0⟩ with
  | error => rw [hdec] at hd; cases hd
  | ok h₁ =>
    rw [hdec] at hd
    have hs₁ : h₁.size = 1 := (heapDecrease_size hdec).trans hs
    simp [heapDeleteRoot, hs₁, sub32, heapSize] at hd

/-- With more entries, the last one takes the place of the root. -/
theorem heapDelete_eq {n : ℕ} (hn : h.size = n + 2) (hs : h.size ≤ heapSize) (hi : i < h.size)
    (hkeys : ∀ j < h.size, (h.elements j).key < 2 ^ 32) :
    ∃ h', heapDelete h i = .ok h' ∧ h'.size = n + 1 ∧
      h'.elements = heapSort (n + 1) (n + 1)
        (Function.update (Function.update h.elements i deletedEntry) 0
          (Function.update h.elements i deletedEntry (n + 1))) 0 := by
  have hlt : n + 1 < heapSize := by omega
  have hsub : sub32 (n + 2) 1 = n + 1 := by
    have : heapSize = 4096 := rfl
    rw [sub32_of_le] <;> omega
  have hdec := heapDecrease_deleted hs hi hkeys
  refine ⟨⟨heapSort (n + 1) (n + 1) (Function.update (Function.update h.elements i deletedEntry) 0
    (Function.update h.elements i deletedEntry (n + 1))) 0, n + 1⟩, ?_, rfl, rfl⟩
  unfold heapDelete
  rw [show (⟨2 ^ 32 - 1, 0⟩ : HeapEntry) = deletedEntry from rfl, hdec]
  simp only [heapDeleteRoot, hn, hsub, if_pos hlt, if_neg (show n + 2 ≠ 0 by omega),
    if_neg (show n + 2 ≠ 1 by omega)]

/-- The entries that `heap_delete` leaves when it is told to delete another one than the root:
the root is gone, and the entry has become `deletedEntry`. -/
theorem entries_heapDelete_pos (hs : h.size ≤ heapSize) (hi : i < h.size) (hi0 : i ≠ 0)
    (hkeys : ∀ j < h.size, (h.elements j).key < 2 ^ 32) (hd : heapDelete h i = .ok h') :
    ∃ rest, h.entries.Perm (h.elements 0 :: h.elements i :: rest) ∧
      h'.entries.Perm (deletedEntry :: rest) := by
  obtain ⟨n, hn⟩ : ∃ n, h.size = n + 2 := ⟨h.size - 2, by omega⟩
  obtain ⟨k, rfl⟩ := Nat.exists_eq_succ_of_ne_zero hi0
  have hdec := heapDecrease_deleted hs hi hkeys
  have hroot : heapDeleteRoot
      { h with elements := Function.update h.elements (k + 1) deletedEntry } = .ok h' := by
    rw [← hd]
    unfold heapDelete
    rw [show (⟨2 ^ 32 - 1, 0⟩ : HeapEntry) = deletedEntry from rfl, hdec]
  have hperm := entries_heapDeleteRoot
    (h := ⟨Function.update h.elements (k + 1) deletedEntry, h.size⟩) hn hs hroot
  obtain ⟨tail, htail⟩ : ∃ tail, tail = (List.range (n + 1)).map fun j => h.elements (j + 1) :=
    ⟨_, rfl⟩
  have hlen : k < tail.length := by
    rw [htail, List.length_map, List.length_range]
    omega
  have hget : tail[k] = h.elements (k + 1) := by simp [htail]
  have hset : ((List.range (n + 1)).map fun j =>
      Function.update h.elements (k + 1) deletedEntry (j + 1)) = tail.set k deletedEntry := by
    rw [htail, ← map_update_range]
    refine List.map_congr_left fun j _ => ?_
    simp only [Function.update_apply, Nat.add_right_cancel_iff]
  refine ⟨tail.eraseIdx k, ?_, ?_⟩
  · rw [entries_eq_cons hn, ← htail, ← hget]
    exact (List.getElem_cons_eraseIdx_perm hlen).symm.cons _
  · rw [hset] at hperm
    exact hperm.trans (List.set_perm_cons_eraseIdx hlen _)

/-- The root is the entry to delete: what is left is in order. -/
theorem ordered_heapDelete (hord : HeapOrdered h.size h.elements) (hs : h.size ≤ heapSize)
    (hi : i < h.size) (hkeys : ∀ j < h.size, (h.elements j).key < 2 ^ 32)
    (h0 : i = 0 ∨ h.elements 0 = deletedEntry) (hd : heapDelete h i = .ok h') :
    h'.size = h.size - 1 ∧ HeapOrdered h'.size h'.elements := by
  obtain ⟨n, hn⟩ : ∃ n, h.size = n + 2 := by
    refine ⟨h.size - 2, ?_⟩
    have : h.size ≠ 1 := fun h₁ => heapDelete_single h₁ ⟨h', hd⟩
    omega
  obtain ⟨h₁, hd₁, hsize, helem⟩ := heapDelete_eq hn hs hi hkeys
  obtain rfl : h₁ = h' := by simpa [hd] using hd₁.symm
  rw [hsize, helem, hn]
  refine ⟨rfl, ordered_heapSort ⟨fun j hj hj0 hp => ?_, fun _ _ _ _ h => absurd rfl h⟩ (by omega)⟩
  rw [Function.update_of_ne hp, Function.update_of_ne hj0]
  have hle := hord j (by omega) hj0
  rcases h0 with rfl | h0
  · rwa [Function.update_of_ne hp, Function.update_of_ne hj0]
  · -- all keys are greatest
    have hroot : ∀ m j, j ≤ m → j < h.size → 2 ^ 32 - 1 ≤ (h.elements j).key := by
      intro m
      induction m with
      | zero =>
        intro j hj _
        obtain rfl : j = 0 := by omega
        rw [h0]
        exact le_rfl
      | succ m ih =>
        intro j hj hjs
        by_cases hj0 : j = 0
        · exact ih j (by omega) hjs
        · have hlt := heapParent_lt hj0
          exact (ih _ (by omega) (by omega)).trans (hord j hjs hj0)
    have hmax : ∀ m < h.size,
        (Function.update h.elements i deletedEntry m).key = 2 ^ 32 - 1 := fun m hm => by
      rw [Function.update_apply]
      split_ifs
      · rfl
      · have h₁ := hroot m m le_rfl hm
        have h₂ := hkeys m hm
        omega
    have hlt := heapParent_lt hj0
    rw [hmax j (by omega), hmax _ (by omega)]

/-- `heap_delete` deletes the entry it is told to exactly if there is another one and it is the
root, or the root is `deletedEntry`. -/
theorem deletes_iff (hord : HeapOrdered h.size h.elements)
    (hkeys : ∀ j < h.size, (h.elements j).key < 2 ^ 32) (hs : h.size ≤ heapSize)
    (hi : i < h.size) :
    Deletes h i ↔ 2 ≤ h.size ∧ (i = 0 ∨ h.elements 0 = deletedEntry) := by
  constructor
  · rintro ⟨h', hd, -, -, hperm⟩
    have h₁ : h.size ≠ 1 := fun h₁ => heapDelete_single h₁ ⟨h', hd⟩
    refine ⟨by omega, or_iff_not_imp_left.2 fun hi0 => ?_⟩
    obtain ⟨rest, hold, hnew⟩ := entries_heapDelete_pos hs hi hi0 hkeys hd
    -- cancel what both sides share
    have hperm' := (hold.symm.trans hperm).trans (hnew.cons _)
    have hcancel := (((List.Perm.swap _ _ _).trans hperm').cons_inv)
    rw [← Multiset.coe_eq_coe, ← Multiset.cons_coe, ← Multiset.cons_coe] at hcancel
    exact (Multiset.cons_inj_left _).1 hcancel
  · rintro ⟨h₂, h0⟩
    obtain ⟨n, hn⟩ : ∃ n, h.size = n + 2 := ⟨h.size - 2, by omega⟩
    obtain ⟨h', hd, -, -⟩ := heapDelete_eq hn hs hi hkeys
    obtain ⟨hsize, hord'⟩ := ordered_heapDelete hord hs hi hkeys h0 hd
    refine ⟨h', hd, hsize, hord', ?_⟩
    by_cases hi0 : i = 0
    · subst hi0
      exact entries_heapDelete_zero (by omega) hs hd
    · obtain ⟨rest, hold, hnew⟩ := entries_heapDelete_pos hs hi hi0 hkeys hd
      rw [h0.resolve_left hi0] at hold
      exact hold.trans ((List.Perm.swap _ _ _).trans (hnew.symm.cons _))

end Delete

/-- Three holes with keys 1, 2 and 3. -/
def threeHoles : MinHeap := ⟨fun i => ⟨i + 1, 0⟩, 3⟩

theorem deletes_threeHoles : Deletes threeHoles 0 :=
  (deletes_iff (h := threeHoles) (by decide) (by decide) (by decide) (by decide)).2
    ⟨by decide, .inl rfl⟩

/-- **`heap_delete` deletes another entry**: told to delete the one with key 2, it deletes that
with key 1. -/
theorem not_deletes : ¬ ∀ (h : MinHeap) (i : ℕ), HeapOrdered h.size h.elements →
    (∀ j < h.size, (h.elements j).key < 2 ^ 32) → h.size ≤ heapSize → i < h.size →
      Deletes h i := by
  intro h
  obtain ⟨h', hd, -, -, hperm⟩ :=
    h threeHoles 1 (by decide) (by decide) (by decide) (by decide)
  have hok : (heapDelete threeHoles 1).map MinHeap.entries = .ok [⟨3, 0⟩, ⟨2 ^ 32 - 1, 0⟩] := by
    decide +kernel
  rw [hd] at hok
  obtain hent := Except.ok.inj hok
  rw [hent] at hperm
  exact absurd hperm (by decide)

end Kernel

end Bluejay
