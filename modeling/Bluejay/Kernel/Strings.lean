import Bluejay.Lib.Bytes
import Mathlib.Data.List.GetD

/-!
# Bounded comparison of strings

* `strnlen`, `strncmp` : the functions of `io.c`.
* `strncmp_eq_zero` : what is compared is all in front of the first zero byte.
-/

namespace Bluejay

namespace Kernel

/-- The loop of `strnlen`, for at most `n` more bytes. -/
def strnlenLoop (s : ℕ → UInt8) : ℕ → ℕ → ℕ
  | 0, i => i
  | n + 1, i => if s i = 0 then i else strnlenLoop s n (i + 1)

/-- `strnlen`. -/
def strnlen (s : ℕ → UInt8) (len : ℕ) : ℕ := strnlenLoop s len 0

/-- `strncmp`. -/
def strncmp (a b : ℕ → UInt8) (len : ℕ) : ℤ :=
  let al := strnlen a len
  let bl := strnlen b len
  if al ≠ bl then (bl : ℤ) - al
  else if ∀ i < al, a i = b i then 0 else -1

/-- The bytes of a string; a zero byte is behind them. -/
def bytesOf (s : List UInt8) : ℕ → UInt8 := fun i => s.getD i 0

/-- The first `n` bytes. -/
def bytesAt (s : ℕ → UInt8) (n : ℕ) : List UInt8 := (List.range n).map s

/-- Of the first `n` bytes those up to the first zero byte are the same. -/
def Agree (n : ℕ) (a b : ℕ → UInt8) : Prop := ∀ i < n, (∀ j < i, a j ≠ 0) → a i = b i

section Strings

variable {a b s : ℕ → UInt8} {i k n : ℕ} {bs : List UInt8}

theorem strnlenLoop_spec (s : ℕ → UInt8) (n i : ℕ) :
    i ≤ strnlenLoop s n i ∧ strnlenLoop s n i ≤ i + n ∧
      (∀ j, i ≤ j → j < strnlenLoop s n i → s j ≠ 0) ∧
      (strnlenLoop s n i < i + n → s (strnlenLoop s n i) = 0) := by
  induction n generalizing i with
  | zero => exact ⟨Nat.le_refl i, Nat.le_refl i, fun j h h' => absurd h (Nat.not_le.2 h'),
      fun h => absurd h (Nat.lt_irrefl i)⟩
  | succ n ih =>
    rw [strnlenLoop]
    split_ifs with hzero
    · exact ⟨Nat.le_refl i, by omega, fun j h h' => absurd h (Nat.not_le.2 h'), fun _ => hzero⟩
    · obtain ⟨hle, hbound, hfront, hend⟩ := ih (i + 1)
      refine ⟨by omega, by omega, fun j h h' => ?_, fun h => hend (by omega)⟩
      rcases Nat.eq_or_lt_of_le h with rfl | h
      · exact hzero
      · exact hfront j h h'

theorem strnlen_le (s : ℕ → UInt8) (n : ℕ) : strnlen s n ≤ n := by
  have := (strnlenLoop_spec s n 0).2.1
  rwa [Nat.zero_add] at this

theorem ne_zero_of_lt_strnlen (h : i < strnlen s n) : s i ≠ 0 :=
  (strnlenLoop_spec s n 0).2.2.1 i (Nat.zero_le i) h

theorem strnlen_eq_zero (h : strnlen s n < n) : s (strnlen s n) = 0 :=
  (strnlenLoop_spec s n 0).2.2.2 (by rwa [Nat.zero_add])

/-- The length is that of the bytes in front of the first zero byte. -/
theorem strnlen_eq (hk : k ≤ n) (hfront : ∀ i < k, s i ≠ 0) (hend : k < n → s k = 0) :
    strnlen s n = k := by
  rcases Nat.lt_trichotomy (strnlen s n) k with h | h | h
  · exact absurd (strnlen_eq_zero (Nat.lt_of_lt_of_le h hk)) (hfront _ h)
  · exact h
  · exact absurd (hend (Nat.lt_of_lt_of_le h (strnlen_le s n))) (ne_zero_of_lt_strnlen h)

/-- Strings that are the same up to the first zero byte have the same length. -/
theorem Agree.strnlen_eq (h : Agree n a b) : strnlen a n = strnlen b n := by
  have hsame : ∀ i < strnlen a n, a i = b i := fun i hi =>
    h i (Nat.lt_of_lt_of_le hi (strnlen_le a n)) fun j hj =>
      ne_zero_of_lt_strnlen (Nat.lt_trans hj hi)
  refine (Kernel.strnlen_eq (strnlen_le a n) (fun i hi => ?_) fun hlt => ?_).symm
  · rw [← hsame i hi]
    exact ne_zero_of_lt_strnlen hi
  · rw [← h _ hlt fun j hj => ne_zero_of_lt_strnlen hj]
    exact strnlen_eq_zero hlt

/-- The strings are equal for `strncmp` exactly if they are the same up to the first zero byte. -/
theorem strncmp_eq_zero : strncmp a b n = 0 ↔ Agree n a b := by
  unfold strncmp
  simp only
  split_ifs with hlen hall
  · refine ⟨fun h => ?_, fun h => absurd h.strnlen_eq hlen⟩
    omega
  · rw [ne_eq, not_not] at hlen
    refine iff_of_true rfl fun i hi hfront => ?_
    rcases Nat.lt_or_ge i (strnlen a n) with hlt | hge
    · exact hall i hlt
    · have heq : i = strnlen a n := by
        by_contra hne
        have hlt : strnlen a n < i := by omega
        exact hfront _ hlt (strnlen_eq_zero (Nat.lt_trans hlt hi))
      rw [heq] at hi ⊢
      rw [strnlen_eq_zero hi]
      rw [hlen] at hi ⊢
      exact (strnlen_eq_zero hi).symm
  · refine iff_of_false (by decide) fun h => hall fun i hi => ?_
    exact h i (Nat.lt_of_lt_of_le hi (strnlen_le a n)) fun j hj =>
      ne_zero_of_lt_strnlen (Nat.lt_trans hj hi)

theorem bytesOf_of_lt (h : i < bs.length) : bytesOf bs i = bs[i] := by
  rw [bytesOf, List.getD_eq_getElem _ _ h]

@[simp] theorem length_bytesAt (s : ℕ → UInt8) (n : ℕ) : (bytesAt s n).length = n := by
  rw [bytesAt, List.length_map, List.length_range]

theorem bytesOf_bytesAt (h : i < n) : bytesOf (bytesAt s n) i = s i := by
  rw [bytesOf_of_lt (by rwa [length_bytesAt])]
  simp [bytesAt]

/-- A string is given by its length and its bytes. -/
theorem eq_bytesAt (hlen : bs.length = n) (h : ∀ i < n, s i = bytesOf bs i) : bs = bytesAt s n := by
  refine List.ext_getElem (by rw [hlen, length_bytesAt]) fun i h₁ h₂ => ?_
  rw [← bytesOf_of_lt h₁, ← bytesOf_of_lt h₂, ← h i (hlen ▸ h₁), bytesOf_bytesAt (hlen ▸ h₁)]

theorem Agree.refl (n : ℕ) (a : ℕ → UInt8) : Agree n a a := fun _ _ _ => rfl

instance (n : ℕ) (a b : ℕ → UInt8) : Decidable (Agree n a b) :=
  inferInstanceAs (Decidable (∀ _ < n, _))

end Strings

end Kernel

end Bluejay
