import Mathlib.Algebra.Ring.Nat
import Mathlib.Data.List.Basic
import Mathlib.Data.Nat.Notation

/-!
# Reading a list in pieces

* `chunks read sizes offset` : what successive reads return, each from where the one before has
  ended.
* `EachRead P n sizes offset` : `P` holds of the offset and the size of each of these reads, in a
  list of `n` elements.
* `flatten_chunks_iff` : the pieces make up the list exactly if each read is right.
-/

namespace Bluejay

section Chunks

variable {α : Type} (read : ℕ → ℕ → List α)

/-- What successive reads of these sizes return, from the offset on. -/
def chunks : List ℕ → ℕ → List (List α)
  | [], _ => []
  | size :: sizes, offset =>
    read offset size :: chunks sizes (offset + (read offset size).length)

/-- The offset and the size of each read, in a list of `n` elements. -/
def EachRead (P : ℕ → ℕ → Prop) (n : ℕ) : List ℕ → ℕ → Prop
  | [], _ => True
  | size :: sizes, offset => P offset size ∧ EachRead P n sizes (offset + min size (n - offset))

variable {read} {P Q : ℕ → ℕ → Prop} {xs : List α} {sizes : List ℕ} {n offset size : ℕ}

theorem EachRead.congr (h : ∀ offset size, P offset size ↔ Q offset size) :
    EachRead P n sizes offset ↔ EachRead Q n sizes offset := by
  induction sizes generalizing offset with
  | nil => exact Iff.rfl
  | cons size sizes ih => rw [EachRead, EachRead, h, ih]

/-- A read in front of the rest of the list. -/
theorem append_eq_drop_iff {ys zs : List α} (hlen : ys.length = min size (xs.length - offset)) :
    ys ++ zs = xs.drop offset ↔
      ys = (xs.drop offset).take size ∧ zs = xs.drop (offset + ys.length) := by
  have htake : ys.length = ((xs.drop offset).take size).length := by
    rw [List.length_take, List.length_drop, hlen]
  have hsplit : xs.drop offset = (xs.drop offset).take size ++ xs.drop (offset + ys.length) := by
    rcases Nat.le_total size (xs.length - offset) with hle | hle
    · rw [hlen, Nat.min_eq_left hle, ← List.drop_drop, List.take_append_drop]
    · have hrest : xs.drop (offset + ys.length) = [] := List.drop_eq_nil_of_le (by omega)
      rw [List.take_of_length_le (by rwa [List.length_drop]), hrest, List.append_nil]
  constructor
  · intro h
    exact List.append_inj (h.trans hsplit) htake
  · rintro ⟨hys, hzs⟩
    rw [hsplit, ← hys, ← hzs]

/-- Reads that return as much as there is make up the list exactly if each of them is right. -/
theorem flatten_chunks_iff
    (hread : ∀ offset size, (read offset size).length = min size (xs.length - offset))
    (hsizes : xs.length ≤ offset + sizes.sum) :
    (chunks read sizes offset).flatten = xs.drop offset ↔
      EachRead (fun offset size => read offset size = (xs.drop offset).take size) xs.length sizes
        offset := by
  induction sizes generalizing offset with
  | nil =>
    rw [List.sum_nil] at hsizes
    exact iff_of_true (List.drop_eq_nil_of_le hsizes).symm trivial
  | cons size sizes ih =>
    rw [List.sum_cons] at hsizes
    rw [chunks, List.flatten_cons, append_eq_drop_iff (hread offset size), EachRead,
      hread offset size, ih (by omega)]

end Chunks

end Bluejay
