import Mathlib.Data.List.Basic
import Mathlib.Tactic.SplitIfs

/-!
# Searches

The first number of an interval that has a property, found piece by piece, and the first member of a
list.

* `Finds P lo hi r` : `r` is the first number with `P` from `lo` on and below `hi`.
* `Finds.append`, `Finds.pieces` : the search of an interval from those of its parts.
* `finds_find?` : the search of a list of consecutive numbers.
* `exists_first` : what is in front of the first member with a property.
-/

namespace Bluejay

/-- `r` is the first number with `P` from `lo` on and below `hi`, if there is one. -/
def Finds (P : ℕ → Prop) (lo hi : ℕ) : Option ℕ → Prop
  | none => ∀ j, lo ≤ j → j < hi → ¬ P j
  | some i => lo ≤ i ∧ i < hi ∧ P i ∧ ∀ j, lo ≤ j → j < i → ¬ P j

section Finds

variable {P Q : ℕ → Prop} {lo mid hi i c n : ℕ} {r r' : Option ℕ}

theorem Finds.congr (h : Finds P lo hi r) (hPQ : ∀ j, lo ≤ j → j < hi → (P j ↔ Q j)) :
    Finds Q lo hi r := by
  cases r with
  | none => exact fun j hj hj' => mt (hPQ j hj hj').2 (h j hj hj')
  | some i =>
    obtain ⟨hlo, hhi, hP, hleast⟩ := h
    exact ⟨hlo, hhi, (hPQ i hlo hhi).1 hP, fun j hj hj' =>
      mt (hPQ j hj (Nat.lt_trans hj' hhi)).2 (hleast j hj hj')⟩

theorem Finds.unique (h : Finds P lo hi r) (h' : Finds P lo hi r') : r = r' := by
  cases r with
  | none =>
    cases r' with
    | none => rfl
    | some i => exact absurd h'.2.2.1 (h i h'.1 h'.2.1)
  | some i =>
    obtain ⟨hlo, hhi, hP, hleast⟩ := h
    cases r' with
    | none => exact absurd hP (h' i hlo hhi)
    | some j =>
      obtain ⟨hlo', -, hP', hleast'⟩ := h'
      rcases Nat.lt_trichotomy i j with hij | rfl | hij
      · exact absurd hP (hleast' i hlo hij)
      · rfl
      · exact absurd hP' (hleast j hlo' hij)

/-- An interval in front in which there is nothing may be left out. -/
theorem Finds.drop (h : Finds P lo hi r) (hle : lo ≤ mid) (hmid : ∀ j, lo ≤ j → j < mid → ¬ P j) :
    Finds P mid hi r := by
  cases r with
  | none => exact fun j hj => h j (Nat.le_trans hle hj)
  | some i =>
    obtain ⟨hlo, hhi, hP, hleast⟩ := h
    exact ⟨Nat.le_of_not_lt fun hlt => hmid i hlo hlt hP, hhi, hP,
      fun j hj => hleast j (Nat.le_trans hle hj)⟩

/-- The search goes on behind an interval in which nothing was found. -/
theorem Finds.append (h : Finds P lo mid r) (h' : Finds P mid hi r') (hlo : lo ≤ mid)
    (hhi : mid ≤ hi) : Finds P lo hi (r.or r') := by
  cases r with
  | some i =>
    obtain ⟨hi₁, hi₂, hP, hleast⟩ := h
    exact ⟨hi₁, Nat.lt_of_lt_of_le hi₂ hhi, hP, hleast⟩
  | none =>
    have hsplit : ∀ j, lo ≤ j → (mid ≤ j → ¬ P j) → ¬ P j := fun j hj hmid =>
      (Nat.lt_or_ge j mid).elim (h j hj) hmid
    cases r' with
    | none => exact fun j hj hj' => hsplit j hj fun hmid => h' j hmid hj'
    | some i =>
      obtain ⟨hi₁, hi₂, hP, hleast⟩ := h'
      exact ⟨Nat.le_trans hlo hi₁, hi₂, hP, fun j hj hj' =>
        hsplit j hj fun hmid => hleast j hmid hj'⟩

/-- The search of a single number. -/
theorem finds_singleton [DecidablePred P] (i : ℕ) :
    Finds P i (i + 1) (if P i then some i else none) := by
  split_ifs with h
  · exact ⟨Nat.le_refl i, i.lt_succ_self, h, fun j hj hj' => absurd hj (Nat.not_le.2 hj')⟩
  · intro j hj hj'
    rwa [Nat.le_antisymm (Nat.le_of_lt_succ hj') hj]

/-- The search of `n` pieces of the same length. -/
theorem Finds.pieces {f : ℕ → Option ℕ}
    (h : ∀ i < n, Finds P (lo + c * i) (lo + c * (i + 1)) (f i)) :
    Finds P lo (lo + c * n) ((List.range n).findSome? f) := by
  induction n with
  | zero => exact fun j hj hj' => absurd hj (Nat.not_le.2 hj')
  | succ n ih =>
    rw [List.range_succ, List.findSome?_append, List.findSome?_singleton]
    exact (ih fun i hi => h i (Nat.lt_succ_of_lt hi)).append (h n n.lt_succ_self)
      (Nat.le_add_right _ _) (Nat.add_le_add_left (Nat.mul_le_mul_left c n.le_succ) lo)

/-- The search of the numbers below `n`. -/
theorem finds_find? (p : ℕ → Bool) (n : ℕ) :
    Finds (fun i => p i = true) 0 n ((List.range n).find? p) := by
  cases h : (List.range n).find? p with
  | none =>
    exact fun j _ hj => List.find?_eq_none.1 h j (List.mem_range.2 hj)
  | some i =>
    obtain ⟨hp, hi, hleast⟩ := List.find?_range_eq_some.1 h
    exact ⟨Nat.zero_le i, List.mem_range.1 hi, hp, fun j _ hj => by simpa using hleast j hj⟩

/-- What is found, with the interval moved by `lo`. -/
theorem Finds.shift (h : Finds (fun i => P (lo + i)) 0 n r) :
    Finds P lo (lo + n) (r.map (lo + ·)) := by
  have hsub : ∀ j, lo ≤ j → P j → P (lo + (j - lo)) := fun j hj hP => by
    rwa [Nat.add_sub_cancel' hj]
  cases r with
  | none =>
    intro j hj hj' hP
    exact h (j - lo) (Nat.zero_le _) (by omega) (hsub j hj hP)
  | some i =>
    obtain ⟨-, hi, hP, hleast⟩ := h
    refine ⟨Nat.le_add_right _ _, Nat.add_lt_add_left hi lo, hP, fun j hj hj' hPj => ?_⟩
    change j < lo + i at hj'
    exact hleast (j - lo) (Nat.zero_le _) (by omega) (hsub j hj hPj)

end Finds

/-- The first member of a list with a property. -/
theorem exists_first {α : Type} {p : α → Prop} {l : List α} (h : ∃ a ∈ l, p a) :
    ∃ l₁ a l₂, l = l₁ ++ a :: l₂ ∧ p a ∧ ∀ a ∈ l₁, ¬ p a := by
  classical
  obtain ⟨a, ha⟩ := Option.isSome_iff_exists.1
    ((List.find?_isSome (p := fun a => decide (p a))).2 (by simpa using h))
  obtain ⟨hp, l₁, l₂, rfl, hl⟩ := List.find?_eq_some_iff_append.1 ha
  exact ⟨l₁, a, l₂, rfl, by simpa using hp, by simpa using hl⟩

end Bluejay
