import Mathlib.Algebra.Group.Int.Defs
import Mathlib.Algebra.Group.Nat.Defs
import Mathlib.Data.Int.Notation
import Mathlib.Data.Nat.Notation
import Mathlib.Logic.Function.Basic
import Mathlib.Tactic.SplitIfs

/-!
# Byte-addressed memory

`Mem` is a memory of bytes.  Multi-byte fields are little-endian: `loadLE m a k` reads the
`k` bytes from `a` on, `storeLE m a k v` writes the low `k` bytes of `v` there.

* `loadLE_storeLE` : a field reads back what was stored in it, truncated to its width.
* `loadLE_congr` : a load depends on the bytes of its field only; with `storeLE_of_out`,
  `update_of_out` and `memcpy_of_out` this gives every frame condition.

Machine addresses and sizes are natural numbers below `2 ^ 32`; `u32` and `sub32` are the
wrapping conversions and the wrapping difference of C's 32-bit unsigned arithmetic.
-/

namespace Bluejay

/-- A memory of bytes. -/
abbrev Mem := ℕ → UInt8

/-- Conversion to a 32-bit unsigned number. -/
def u32 (n : ℕ) : ℕ := n % 2 ^ 32

/-- `a - b` in 32-bit unsigned arithmetic. -/
def sub32 (a b : ℕ) : ℕ := (a + (2 ^ 32 - b % 2 ^ 32)) % 2 ^ 32

/-- A 32-bit number read as a signed one. -/
def signed32 (n : ℕ) : ℤ := if n < 2 ^ 31 then n else n - 2 ^ 32

theorem u32_of_lt {n : ℕ} (h : n < 2 ^ 32) : u32 n = n := Nat.mod_eq_of_lt h

theorem u32_lt (n : ℕ) : u32 n < 2 ^ 32 := Nat.mod_lt _ (by decide)

theorem sub32_of_le {a b : ℕ} (h : b ≤ a) (ha : a < 2 ^ 32) : sub32 a b = a - b := by
  unfold sub32; omega

namespace Mem

/-- The `k`-byte little-endian number at `a`. -/
def loadLE (m : Mem) (a : ℕ) : ℕ → ℕ
  | 0 => 0
  | k + 1 => (m a).toNat + 256 * loadLE m (a + 1) k

/-- Write the low `k` bytes of `v` at `a`. -/
def storeLE (m : Mem) (a : ℕ) : ℕ → ℕ → Mem
  | 0, _ => m
  | k + 1, v => storeLE (Function.update m a (UInt8.ofNat v)) (a + 1) k (v / 256)

/-- `memset`: `n` bytes from `a` on become `c`. -/
def memset (m : Mem) (a : ℕ) (c : UInt8) (n : ℕ) : Mem :=
  fun i => if a ≤ i ∧ i < a + n then c else m i

/-- `memcpy`: bytes `0 … n - 1` are copied upwards, one at a time. -/
def memcpy (m : Mem) (dest src : ℕ) : ℕ → Mem
  | 0 => m
  | n + 1 =>
    let m' := memcpy m dest src n
    Function.update m' (dest + n) (m' (src + n))

theorem update_of_out {m : Mem} {a i : ℕ} {b : UInt8} (h : i ≠ a) :
    Function.update m a b i = m i := Function.update_of_ne h _ _

theorem storeLE_of_out {m : Mem} {a k v i : ℕ} (h : i < a ∨ a + k ≤ i) :
    storeLE m a k v i = m i := by
  induction k generalizing m a v with
  | zero => rfl
  | succ k ih => rw [storeLE, ih (by omega), update_of_out (by omega)]

theorem memcpy_of_out {m : Mem} {dest src n i : ℕ} (h : i < dest ∨ dest + n ≤ i) :
    memcpy m dest src n i = m i := by
  induction n with
  | zero => rfl
  | succ n ih => rw [memcpy, update_of_out (by omega), ih (by omega)]

/-- What is copied does not change on the way. -/
theorem memcpy_of_disjoint {m : Mem} {dest src n i : ℕ} (h : src + n ≤ dest ∨ dest + n ≤ src)
    (hi : i < n) : memcpy m dest src n (dest + i) = m (src + i) := by
  induction n with
  | zero => cases hi
  | succ n ih =>
    rw [memcpy]
    by_cases hlast : i = n
    · rw [hlast, Function.update_self, memcpy_of_out (by omega)]
    · rw [update_of_out (by omega), ih (by omega) (by omega)]

/-- A load depends on the bytes of its field only. -/
theorem loadLE_congr {m m' : Mem} {a k : ℕ} (h : ∀ i, a ≤ i → i < a + k → m i = m' i) :
    loadLE m a k = loadLE m' a k := by
  induction k generalizing a with
  | zero => rfl
  | succ k ih =>
    rw [loadLE, loadLE, h a (by omega) (by omega),
      ih fun i h₁ h₂ => h i (by omega) (by omega)]

theorem loadLE_lt (m : Mem) (a k : ℕ) : loadLE m a k < 256 ^ k := by
  induction k generalizing a with
  | zero => simp [loadLE]
  | succ k ih =>
    have hb : (m a).toNat < 256 := (m a).toNat_lt
    have hr := ih (a + 1)
    rw [loadLE, Nat.pow_succ]
    omega

/-- The bits of a number are those of its bytes. -/
theorem testBit_loadLE (m : Mem) {a k j : ℕ} (hj : j < 8 * k) :
    (loadLE m a k).testBit j = (m (a + j / 8)).toNat.testBit (j % 8) := by
  induction k generalizing a j with
  | zero => cases hj
  | succ k ih =>
    have hb : (m a).toNat < 2 ^ 8 := (m a).toNat_lt
    have hsplit : loadLE m a (k + 1) = 2 ^ 8 * loadLE m (a + 1) k + (m a).toNat :=
      Nat.add_comm _ _
    rw [hsplit, Nat.testBit_two_pow_mul_add _ hb]
    split_ifs with hlt
    · rw [Nat.div_eq_of_lt hlt, Nat.mod_eq_of_lt hlt, Nat.add_zero]
    · rw [ih (by omega), show a + 1 + (j - 8) / 8 = a + j / 8 by omega,
        show (j - 8) % 8 = j % 8 by omega]

/-- A field reads back what was stored in it. -/
theorem loadLE_storeLE (m : Mem) (a k v : ℕ) : loadLE (storeLE m a k v) a k = v % 256 ^ k := by
  induction k generalizing m a v with
  | zero => simp [loadLE, Nat.mod_one]
  | succ k ih =>
    have hw : 256 ^ (k + 1) = 256 * 256 ^ k := Nat.pow_succ'
    rw [loadLE, storeLE, ih, storeLE_of_out (by omega), Function.update_self,
      UInt8.toNat_ofNat', hw, Nat.mod_mul]

/-- Storing in one field leaves a disjoint one alone. -/
theorem loadLE_storeLE_of_disjoint {m : Mem} {a b k n v : ℕ} (h : a + k ≤ b ∨ b + n ≤ a) :
    loadLE (storeLE m b n v) a k = loadLE m a k :=
  loadLE_congr fun _ h₁ h₂ => storeLE_of_out (by omega)

end Mem

end Bluejay
