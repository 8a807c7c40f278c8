import Bluejay.Lib.Bytes
import Mathlib.Data.List.Basic

/-!
# Data laid out in memory

A file format puts its fields one after the other.  `Mem.Holds m a bs` says that the memory `m`
has the bytes `bs` from the address `a` on.

* `holds_append` : what stands one after the other can be read piece by piece.
* `bytesLE`, `loadLE_of_holds` : a number as little-endian bytes, and how a load reads it back.
* `readString`, `readString_of_holds` : a string that ends with a zero byte.
-/

namespace Bluejay

/-- The low `k` bytes of `v`, little-endian. -/
def bytesLE : ℕ → ℕ → List UInt8
  | 0, _ => []
  | k + 1, v => UInt8.ofNat v :: bytesLE k (v / 256)

@[simp] theorem length_bytesLE (k v : ℕ) : (bytesLE k v).length = k := by
  induction k generalizing v with
  | zero => rfl
  | succ k ih => rw [bytesLE, List.length_cons, ih]

namespace Mem

/-- The bytes `bs` are in memory from the address `a` on. -/
def Holds (m : Mem) : ℕ → List UInt8 → Prop
  | _, [] => True
  | a, b :: bs => m a = b ∧ Holds m (a + 1) bs

/-- The string at `a`, of which at most `n` bytes can be read. -/
def readString (m : Mem) (a : ℕ) : ℕ → List UInt8
  | 0 => []
  | n + 1 => if m a = 0 then [] else m a :: readString m (a + 1) n

variable {m : Mem} {a n k v : ℕ} {b : UInt8} {bs cs : List UInt8}

@[simp] theorem holds_nil : m.Holds a [] := trivial

@[simp] theorem holds_cons : m.Holds a (b :: bs) ↔ m a = b ∧ m.Holds (a + 1) bs := Iff.rfl

theorem holds_append : m.Holds a (bs ++ cs) ↔ m.Holds a bs ∧ m.Holds (a + bs.length) cs := by
  induction bs generalizing a with
  | nil => simp
  | cons b bs ih =>
    rw [List.cons_append, holds_cons, holds_cons, ih, and_assoc, List.length_cons,
      Nat.add_right_comm, Nat.add_assoc]

/-- The bytes of a list can be put anywhere, before any others. -/
theorem exists_holds (a : ℕ) (bs : List UInt8) (b : UInt8) :
    ∃ m : Mem, m.Holds a bs ∧ ∀ i, a + bs.length ≤ i → m i = b := by
  induction bs generalizing a with
  | nil => exact ⟨fun _ => b, trivial, fun _ _ => rfl⟩
  | cons c bs ih =>
    obtain ⟨m, hm, hb⟩ := ih (a + 1)
    have hcongr : ∀ {bs : List UInt8} {i}, a < i → m.Holds i bs →
        Holds (Function.update m a c) i bs := by
      intro bs
      induction bs with
      | nil => exact fun _ _ => trivial
      | cons d bs ih =>
        intro i hi h
        exact ⟨(update_of_out (by omega)).trans h.1, ih (by omega) h.2⟩
    refine ⟨Function.update m a c, ⟨Function.update_self _ _ _, hcongr (Nat.lt_succ_self _) hm⟩,
      fun i hi => ?_⟩
    rw [List.length_cons] at hi
    rw [update_of_out (by omega), hb i (by omega)]

theorem Holds.getD (h : m.Holds a bs) {i : ℕ} (hi : i < bs.length) : m (a + i) = bs.getD i 0 := by
  induction bs generalizing a i with
  | nil => cases hi
  | cons b bs ih =>
    cases i with
    | zero => exact h.1
    | succ i =>
      rw [← Nat.add_assoc, Nat.add_right_comm]
      exact ih h.2 (Nat.lt_of_succ_lt_succ hi)

theorem Holds.getLast (h : m.Holds a bs) (hne : bs ≠ []) :
    m (a + bs.length - 1) = bs.getLast hne := by
  induction bs generalizing a with
  | nil => exact absurd rfl hne
  | cons b bs ih =>
    cases bs with
    | nil => exact h.1
    | cons c bs =>
      have hlast := ih h.2 (List.cons_ne_nil c bs)
      rw [List.getLast_cons_cons, ← hlast]
      congr 1
      simp only [List.length_cons]
      omega

/-- A number that was written as bytes is read back, truncated to its width. -/
theorem loadLE_of_holds (h : m.Holds a (bytesLE k v)) : m.loadLE a k = v % 256 ^ k := by
  induction k generalizing a v with
  | zero => simp [loadLE, Nat.mod_one]
  | succ k ih =>
    have hw : 256 ^ (k + 1) = 256 * 256 ^ k := Nat.pow_succ'
    rw [loadLE, ih h.2, h.1, UInt8.toNat_ofNat', hw, Nat.mod_mul]

/-- All bytes of a field that reads as zero are zero. -/
theorem eq_zero_of_loadLE (h : m.loadLE a k = 0) {i : ℕ} (hi : i < k) : m (a + i) = 0 := by
  induction k generalizing a i with
  | zero => cases hi
  | succ k ih =>
    rw [loadLE, Nat.add_eq_zero_iff, Nat.mul_eq_zero] at h
    obtain ⟨h₀, h⟩ := h
    cases i with
    | zero => exact UInt8.toNat_inj.1 h₀
    | succ i =>
      have hrest := ih (h.resolve_left (by decide)) (Nat.lt_of_succ_lt_succ hi)
      rwa [Nat.add_assoc, Nat.add_comm 1] at hrest

/-- Bytes that are copied from elsewhere. -/
theorem Holds.shift {m' : Mem} {b : ℕ} (h : m.Holds a bs)
    (hcopy : ∀ i < bs.length, m' (b + i) = m (a + i)) : m'.Holds b bs := by
  induction bs generalizing a b with
  | nil => trivial
  | cons c bs ih =>
    refine ⟨(hcopy 0 (Nat.succ_pos _)).trans h.1, ih h.2 fun i hi => ?_⟩
    have hnext := hcopy (i + 1) (Nat.succ_lt_succ hi)
    rwa [← Nat.add_assoc, ← Nat.add_assoc, Nat.add_right_comm, Nat.add_right_comm a] at hnext

theorem Holds.congr {m' : Mem} (h : m.Holds a bs)
    (heq : ∀ i, a ≤ i → i < a + bs.length → m' i = m i) : m'.Holds a bs :=
  h.shift fun i hi => heq (a + i) (Nat.le_add_right a i) (Nat.add_lt_add_left hi a)

/-- A string is read past bytes other than zero. -/
theorem readString_append (h : m.Holds a bs) (hbs : 0 ∉ bs) (hn : bs.length ≤ n) :
    m.readString a n = bs ++ m.readString (a + bs.length) (n - bs.length) := by
  induction bs generalizing a n with
  | nil => rfl
  | cons b bs ih =>
    cases n with
    | zero => cases hn
    | succ n =>
      rw [List.mem_cons, not_or] at hbs
      rw [readString, h.1, if_neg (Ne.symm hbs.1), ih h.2 hbs.2 (Nat.le_of_succ_le_succ hn),
        List.length_cons, Nat.add_assoc, Nat.add_comm 1, Nat.succ_sub_succ, List.cons_append]

theorem readString_eq_nil (hend : m a = 0) (n : ℕ) : m.readString a n = [] := by
  cases n with
  | zero => rfl
  | succ n => exact if_pos hend

/-- A string that ends with a zero byte is read back. -/
theorem readString_of_holds (h : m.Holds a bs) (hend : m (a + bs.length) = 0) (hbs : 0 ∉ bs)
    (hn : bs.length ≤ n) : m.readString a n = bs := by
  rw [readString_append h hbs hn, readString_eq_nil hend, List.append_nil]

end Mem

end Bluejay
