import Bluejay.Lib.Bytes
import Mathlib.Data.List.Nodup
import Mathlib.Data.List.Perm.Basic
import Mathlib.Data.List.Range
import Mathlib.Logic.Equiv.Basic

/-!
# The heap of free holes

`kheap.c` keeps the free holes of the kernel's arena in a binary min-heap: an array of
`(key, address)` entries, of which the first `size` are in use.

* `MinHeap` is `struct min_heap`; `heapSort`, `heapDeleteRoot`, `heapDecrease`, `heapDelete`,
  `heapInsert`, `heapLookupMin`, `heapEntryIndex`, … are the functions of the file.
* `MinHeap.entries` lists the entries in use.  The heap operations are described by what they
  do to this list up to permutation (`entries_heapInsert`, `entries_heapDecrease`,
  `entries_heapDelete_zero`); the order of the heap plays no part in which entries it holds.

Two loops of the file are the same: `heap_decrease` and `heap_insert` move an entry towards
the root (`siftUp`), and `heap_lookup_min` and `heap_entry_index` walk down towards the smaller
child (`heapDescend`).  A loop of at most `n` turns is a recursion on `n`.
-/

namespace Bluejay

namespace Kernel

/-- How a call can fail to return: `kpanic`, or an access outside an array. -/
inductive Stop
  | panic (message : String)
  | fault
  deriving DecidableEq

/-- `struct heap_entry`. -/
structure HeapEntry where
  key : ℕ
  address : ℕ
  deriving DecidableEq

/-- `HEAP_SIZE`. -/
def heapSize : ℕ := 4096

/-- `struct min_heap`; of `elements`, the indices below `heapSize` are the array. -/
structure MinHeap where
  elements : ℕ → HeapEntry
  size : ℕ

/-- The entries in use. -/
def MinHeap.entries (h : MinHeap) : List HeapEntry := (List.range h.size).map h.elements

def swapEntries (e : ℕ → HeapEntry) (i j : ℕ) : ℕ → HeapEntry :=
  Function.update (Function.update e i (e j)) j (e i)

def heapParent (i : ℕ) : ℕ := (i - 1) / 2

def heapLeft (i : ℕ) : ℕ := 2 * i + 1

def heapRight (i : ℕ) : ℕ := 2 * i + 2

/-- `heap_sort`, for at most `n` levels. -/
def heapSort (size : ℕ) : ℕ → (ℕ → HeapEntry) → ℕ → (ℕ → HeapEntry)
  | 0, e, _ => e
  | n + 1, e, i =>
    let l := heapLeft i
    let r := heapRight i
    let smallest := if l < size ∧ (e l).key < (e i).key then l else i
    let smallest := if r < size ∧ (e r).key < (e smallest).key then r else smallest
    if smallest ≠ i then heapSort size n (swapEntries e i smallest) smallest else e

/-- The `while` loop shared by `heap_decrease` and `heap_insert`: move entry `i` towards the
root while its parent's key is greater than `k`. -/
def siftUp (k : ℕ) : ℕ → (ℕ → HeapEntry) → ℕ → (ℕ → HeapEntry)
  | 0, e, _ => e
  | n + 1, e, i =>
    if i ≠ 0 ∧ k < (e (heapParent i)).key then
      siftUp k n (swapEntries e i (heapParent i)) (heapParent i)
    else e

def heapDeleteRoot (h : MinHeap) : Except Stop MinHeap :=
  if h.size = 0 then .ok h
  else
    -- there is no `return` after the `heap->size--` for a single entry
    let size := if h.size = 1 then h.size - 1 else h.size
    let size := sub32 size 1
    if size < heapSize then
      .ok ⟨heapSort size size (Function.update h.elements 0 (h.elements size)) 0, size⟩
    else .error .fault

/-- `heap_decrease`.  The key goes through an `int` and is converted back for the
comparison. -/
def heapDecrease (h : MinHeap) (i : ℕ) (new : HeapEntry) : Except Stop MinHeap :=
  if i < heapSize then
    .ok { h with elements := siftUp (u32 new.key) i (Function.update h.elements i new) i }
  else .error .fault

def heapDelete (h : MinHeap) (i : ℕ) : Except Stop MinHeap :=
  match heapDecrease h i ⟨2 ^ 32 - 1, 0⟩ with
  | .ok h => heapDeleteRoot h
  | .error stop => .error stop

def heapInsert (h : MinHeap) (e : HeapEntry) : Except Stop MinHeap :=
  if h.size < heapSize then
    .ok ⟨siftUp e.key h.size (Function.update h.elements h.size e) h.size, h.size + 1⟩
  else .error (.panic "Heap overflow!")

/-- The `while` loop shared by `heap_lookup_min` and `heap_entry_index`: from index `j`, go
down to the smaller child while `go` holds of the entry. -/
def heapDescend (go : HeapEntry → Bool) (h : MinHeap) : ℕ → ℕ → ℕ
  | 0, j => j
  | n + 1, j =>
    if j < h.size ∧ go (h.elements j) then
      let left := heapLeft j
      let right := heapRight j
      heapDescend go h n <|
        if h.size ≤ left then right
        else if h.size ≤ right then left
        else if (h.elements left).key < (h.elements right).key then left else right
    else j

/-- `heap_lookup_min`: the entry found and its index (`*ok` is `isSome`), and the heap. -/
def heapLookupMin (h : MinHeap) (min : ℕ) (delete : Bool) :
    Except Stop (Option (HeapEntry × ℕ) × MinHeap) :=
  let j := heapDescend (fun e => e.key < min) h h.size 0
  if j < h.size then
    (if delete then heapDelete h j else .ok h).map fun h' => (some (h.elements j, j), h')
  else .ok (none, h)

/-- `heap_entry_index`; `none` is its `-1`. -/
def heapEntryIndex (h : MinHeap) (e : HeapEntry) : Option ℕ :=
  let i := heapDescend (fun a => a.key ≠ e.key) h h.size 0
  if h.size ≤ i then none else some i

/-- `heap_decrease_entry`; index `-1` is outside the array. -/
def heapDecreaseEntry (h : MinHeap) (src new : HeapEntry) : Except Stop MinHeap :=
  match heapEntryIndex h src with
  | some i => heapDecrease h i new
  | none => .error .fault

/-- `heap_delete_entry`. -/
def heapDeleteEntry (h : MinHeap) (e : HeapEntry) : Except Stop MinHeap :=
  match heapEntryIndex h e with
  | some i => heapDelete h i
  | none => .error .fault

/-! ### Which entries the heap holds -/

theorem heapParent_lt {i : ℕ} (h : i ≠ 0) : heapParent i < i := by
  unfold heapParent; omega

theorem swapEntries_eq (e : ℕ → HeapEntry) (i j : ℕ) :
    swapEntries e i j = e ∘ Equiv.swap i j := by
  funext k
  by_cases hj : k = j
  · simp [swapEntries, hj]
  · by_cases hi : k = i
    · subst hi; simp [swapEntries, Function.update_of_ne hj]
    · simp [swapEntries, hj, hi, Equiv.swap_apply_of_ne_of_ne hi hj]

theorem map_swapEntries_perm {n i j : ℕ} (e : ℕ → HeapEntry) (hi : i < n) (hj : j < n) :
    ((List.range n).map (swapEntries e i j)).Perm ((List.range n).map e) := by
  rw [swapEntries_eq, ← List.map_map]
  refine List.Perm.map e ?_
  have hnd : ((List.range n).map (Equiv.swap i j)).Nodup :=
    List.Nodup.map (Equiv.swap i j).injective List.nodup_range
  refine (List.perm_ext_iff_of_nodup hnd List.nodup_range).2 fun k => ?_
  simp only [List.mem_map, List.mem_range]
  constructor
  · rintro ⟨a, ha, rfl⟩
    rw [Equiv.swap_apply_def]; split_ifs <;> omega
  · intro hk
    refine ⟨Equiv.swap i j k, ?_, Equiv.swap_apply_self i j k⟩
    rw [Equiv.swap_apply_def]; split_ifs <;> omega

theorem map_siftUp_perm {n i : ℕ} (k m : ℕ) (e : ℕ → HeapEntry) (hi : i < n) :
    ((List.range n).map (siftUp k m e i)).Perm ((List.range n).map e) := by
  induction m generalizing e i with
  | zero => exact List.Perm.refl _
  | succ m ih =>
    unfold siftUp
    split_ifs with h
    · have hp : heapParent i < n := (heapParent_lt h.1).trans hi
      exact (ih _ hp).trans (map_swapEntries_perm e hi hp)
    · exact List.Perm.refl _

theorem map_heapSort_perm {size i : ℕ} (m : ℕ) (e : ℕ → HeapEntry) (hi : i < size) :
    ((List.range size).map (heapSort size m e i)).Perm ((List.range size).map e) := by
  induction m generalizing e i with
  | zero => exact List.Perm.refl _
  | succ m ih =>
    unfold heapSort
    extract_lets l r s₁ s₂
    have h₁ : s₁ < size := by
      simp only [s₁]
      split_ifs with hl
      · exact hl.1
      · exact hi
    have h₂ : s₂ < size := by
      simp only [s₂]
      split_ifs with hr
      · exact hr.1
      · exact h₁
    split_ifs
    · exact (ih _ h₂).trans (map_swapEntries_perm e hi h₂)
    · exact List.Perm.refl _

theorem map_update_range (n i : ℕ) (e : ℕ → HeapEntry) (a : HeapEntry) :
    (List.range n).map (Function.update e i a) = ((List.range n).map e).set i a := by
  apply List.ext_getElem
  · simp
  · intro k h₁ h₂
    simp only [List.getElem_map, List.getElem_range, List.getElem_set, Function.update_apply]
    by_cases h : k = i
    · simp [h]
    · simp [h, Ne.symm h]

/-- `heap_insert` adds its entry. -/
theorem entries_heapInsert {h h' : MinHeap} {e : HeapEntry} (hi : heapInsert h e = .ok h') :
    h'.entries.Perm (e :: h.entries) := by
  unfold heapInsert at hi
  split_ifs at hi with hs
  cases hi
  refine (map_siftUp_perm _ _ _ (Nat.lt_succ_self _)).trans ?_
  rw [List.range_succ, List.map_append, List.map_singleton, Function.update_self]
  have hold : (List.range h.size).map (Function.update h.elements h.size e) = h.entries :=
    List.map_congr_left fun k hk =>
      Function.update_of_ne (Nat.ne_of_lt (List.mem_range.1 hk)) _ _
  rw [hold]
  exact List.perm_append_singleton _ _

theorem heapInsert_size {h h' : MinHeap} {e : HeapEntry} (hi : heapInsert h e = .ok h') :
    h'.size ≤ heapSize := by
  unfold heapInsert at hi
  split_ifs at hi with hs
  simp only [Except.ok.injEq] at hi
  rw [← hi]
  exact hs

/-- `heap_decrease` replaces entry `i`. -/
theorem entries_heapDecrease {h h' : MinHeap} {i : ℕ} {new : HeapEntry} (hi : i < h.size)
    (hd : heapDecrease h i new = .ok h') :
    ∃ rest, h.entries.Perm (h.elements i :: rest) ∧ h'.entries.Perm (new :: rest) := by
  have hl : i < h.entries.length := by simpa [MinHeap.entries] using hi
  have hget : h.entries[i] = h.elements i := by simp [MinHeap.entries]
  unfold heapDecrease at hd
  split_ifs at hd
  cases hd
  refine ⟨h.entries.eraseIdx i, ?_, ?_⟩
  · rw [← hget]; exact (List.getElem_cons_eraseIdx_perm hl).symm
  · refine (map_siftUp_perm _ _ _ hi).trans ?_
    rw [map_update_range]
    exact List.set_perm_cons_eraseIdx hl new

theorem entries_eq_cons {h : MinHeap} {n : ℕ} (hn : h.size = n + 1) :
    h.entries = h.elements 0 :: (List.range n).map fun k => h.elements (k + 1) := by
  rw [MinHeap.entries, hn, List.range_succ_eq_map, List.map_cons, List.map_map]
  rfl

theorem heapDecrease_size {h h' : MinHeap} {i : ℕ} {new : HeapEntry}
    (hd : heapDecrease h i new = .ok h') : h'.size = h.size := by
  unfold heapDecrease at hd
  split_ifs at hd
  simp only [Except.ok.injEq] at hd
  rw [← hd]

theorem heapDeleteRoot_size {h h' : MinHeap} (h₀ : h.size ≠ 0)
    (hd : heapDeleteRoot h = .ok h') : h'.size < heapSize := by
  unfold heapDeleteRoot at hd
  rw [if_neg h₀] at hd
  dsimp only at hd
  split_ifs at hd with h₁ hlt hlt
  all_goals
    simp only [Except.ok.injEq] at hd
    rw [← hd]
    exact hlt

/-- `heap_delete_root` removes the root, when that is not the only entry. -/
theorem entries_heapDeleteRoot {h h' : MinHeap} {n : ℕ} (hn : h.size = n + 2)
    (hs : h.size ≤ heapSize) (hd : heapDeleteRoot h = .ok h') :
    h'.entries.Perm ((List.range (n + 1)).map fun k => h.elements (k + 1)) := by
  have hsub : sub32 (n + 2) 1 = n + 1 := by
    have : heapSize = 4096 := rfl
    rw [sub32_of_le] <;> omega
  unfold heapDeleteRoot at hd
  simp only [hn, hsub, if_neg (show n + 2 ≠ 0 by omega), if_neg (show n + 2 ≠ 1 by omega)] at hd
  split_ifs at hd
  cases hd
  refine (map_heapSort_perm _ _ (Nat.succ_pos n)).trans ?_
  -- the last entry has taken the root's place
  rw [List.range_succ_eq_map, List.map_cons, Function.update_self, List.map_map,
    ← List.range_succ_eq_map, List.range_succ, List.map_append]
  exact (List.perm_append_singleton _ _).symm

/-- `heap_delete` at index `0` removes the root, when that is not the only entry. -/
theorem entries_heapDelete_zero {h h' : MinHeap} (h₁ : 1 < h.size) (hs : h.size ≤ heapSize)
    (hd : heapDelete h 0 = .ok h') : h.entries.Perm (h.elements 0 :: h'.entries) := by
  obtain ⟨n, hn⟩ : ∃ n, h.size = n + 2 := ⟨h.size - 2, by omega⟩
  rw [entries_eq_cons hn]
  refine List.Perm.cons _ ?_
  exact (entries_heapDeleteRoot (h := ⟨Function.update h.elements 0 _, h.size⟩) hn hs hd).symm

theorem heapDelete_size {h h' : MinHeap} {i : ℕ} (h₀ : h.size ≠ 0)
    (hd : heapDelete h i = .ok h') : h'.size < heapSize := by
  unfold heapDelete at hd
  cases hi : heapDecrease h i ⟨2 ^ 32 - 1, 0⟩ with
  | error => rw [hi] at hd; cases hd
  | ok h₁ => rw [hi] at hd; exact heapDeleteRoot_size (heapDecrease_size hi ▸ h₀) hd

theorem heapDescend_spec (go : HeapEntry → Bool) (h : MinHeap) {n j : ℕ} (hn : h.size ≤ j + n) :
    h.size ≤ heapDescend go h n j ∨ go (h.elements (heapDescend go h n j)) = false := by
  induction n generalizing j with
  | zero => exact Or.inl hn
  | succ n ih =>
    unfold heapDescend
    split_ifs with hj
    · exact ih (by unfold heapLeft heapRight; split_ifs <;> omega)
    · rcases not_and_or.1 hj with hj | hg
      · exact Or.inl (by omega)
      · exact Or.inr (by simpa using hg)

/-- What `heap_lookup_min` finds is an entry of the heap with a key of at least `min`. -/
theorem heapLookupMin_spec {h : MinHeap} {min i : ℕ} {e : HeapEntry} {h' : MinHeap}
    (hl : heapLookupMin h min false = .ok (some (e, i), h')) :
    h' = h ∧ i < h.size ∧ e = h.elements i ∧ min ≤ e.key := by
  simp only [heapLookupMin, Bool.false_eq_true, if_false, Except.map] at hl
  set j := heapDescend (fun e => e.key < min) h h.size 0 with hdef
  split_ifs at hl with hj
  · simp only [Except.ok.injEq, Prod.mk.injEq, Option.some.injEq] at hl
    obtain ⟨⟨rfl, rfl⟩, rfl⟩ := hl
    refine ⟨rfl, hj, rfl, ?_⟩
    rcases heapDescend_spec (fun e => e.key < min) h (n := h.size) (j := 0) (by omega)
      with hge | hkey
    · exact absurd hj (Nat.not_lt.2 hge)
    · simpa [← hdef] using hkey
  · simp at hl

end Kernel

end Bluejay
