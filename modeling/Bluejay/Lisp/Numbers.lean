import Bluejay.Lib.Bytes
import Bluejay.Lisp.Heap
import Mathlib.Data.Int.ModEq
import Mathlib.Tactic.Linarith

/-!
# Integers

A Lisp integer is a signed number of 30 bits, kept in the high bits of a `value_t`.  The library
shifts these words right as the unsigned numbers that they are in C, computes, and shifts back.

* `residue` : the 30-bit word of an integer, which `i >> 2` yields.
* `shiftBack_eq_intval` : a 32-bit result is shifted back to the encoding of an integer exactly
  if the two agree modulo `2 ^ 30`.
* `lPlus_intval`, `lMinus_intval`, `lTimes_intval`, `lNumEq_intval` : these four have the
  meaning of the signed operation.
* `valint_iff`, `lNumLt_iff`, `lNumGt_iff`, `dividesSigned_iff` : the others have it on a part
  of the integers only.
* `signed_iff` : all of them have it exactly for `a` not negative and `b` positive.
-/

namespace Bluejay

namespace Lisp

/-! ## The library functions -/

/-- `valint`, which returns an `int`. -/
def valint (i : Word) : ℤ := if !integerp i then 0 else signed32 (i / 4)

/-- `(n << 2) | INT_TAG`, where the tag is `0`. -/
def shiftBack (n : ℕ) : Word := u32 (4 * n)

def boolval (b : Bool) : Word := if b then t else nil

/-- The common shape of the operations: anything but two integers gives `nil`. -/
def onIntegers (f : ℕ → ℕ → Word) (a b : Word) : Word :=
  if !integerp a || !integerp b then nil else f (a / 4) (b / 4)

def lPlus : Word → Word → Word := onIntegers fun a b => shiftBack (u32 (a + b))

def lMinus : Word → Word → Word := onIntegers fun a b => shiftBack (sub32 a b)

def lTimes : Word → Word → Word := onIntegers fun a b => shiftBack (u32 (a * b))

/-- `l_divide`; `none` is the trap of a division by `0`. -/
def lDivide (a b : Word) : Option Word :=
  if !integerp a || !integerp b then some nil
  else if b / 4 = 0 then none
  else some (shiftBack (a / 4 / (b / 4)))

def lNumEq : Word → Word → Word := onIntegers fun a b => boolval (a = b)

def lNumGt : Word → Word → Word := onIntegers fun a b => boolval (a > b)

def lNumLt : Word → Word → Word := onIntegers fun a b => boolval (a < b)

/-! ## Encodings -/

/-- The integers that a word has room for. -/
def Small (a : ℤ) : Prop := -2 ^ 29 ≤ a ∧ a < 2 ^ 29

instance (a : ℤ) : Decidable (Small a) := inferInstanceAs (Decidable (_ ∧ _))

/-- The 30-bit word of an integer. -/
def residue (a : ℤ) : ℕ := (a % 2 ^ 30).toNat

theorem residue_lt (a : ℤ) : residue a < 2 ^ 30 := by unfold residue; omega

theorem natCast_residue (a : ℤ) : (residue a : ℤ) = a % 2 ^ 30 := by unfold residue; omega

theorem intval_eq (a : ℤ) : intval a = 4 * residue a := by
  change (4 * a % 2 ^ 32).toNat = 4 * (a % 2 ^ 30).toNat
  omega

@[simp] theorem integerp_intval (a : ℤ) : integerp (intval a) = true := by
  simp [integerp, intval_eq]

@[simp] theorem intval_shift (a : ℤ) : intval a / 4 = residue a := by
  rw [intval_eq]
  exact Nat.mul_div_cancel_left _ (by decide)

/-- A residue reads as the integer, one that is negative as `2 ^ 30` more. -/
theorem residue_cases {a : ℤ} (ha : Small a) :
    (0 ≤ a ∧ (residue a : ℤ) = a) ∨ (a < 0 ∧ (residue a : ℤ) = a + 2 ^ 30) := by
  unfold Small at ha
  rw [natCast_residue]
  omega

theorem residue_inj {a b : ℤ} (ha : Small a) (hb : Small b) : residue a = residue b ↔ a = b := by
  unfold Small at ha hb
  unfold residue
  omega

/-- A 32-bit result shifted back is the encoding of an integer iff they agree modulo `2 ^ 30`. -/
theorem shiftBack_eq_intval {n : ℕ} {m : ℤ} :
    shiftBack (u32 n) = intval m ↔ (n : ℤ) ≡ m [ZMOD 2 ^ 30] := by
  change 4 * (n % 2 ^ 32) % 2 ^ 32 = (4 * m % 2 ^ 32).toNat ↔ (n : ℤ) % 2 ^ 30 = m % 2 ^ 30
  omega

theorem shiftBack_eq_intval_of_lt {n : ℕ} {m : ℤ} (hn : n < 2 ^ 32) :
    shiftBack n = intval m ↔ (n : ℤ) ≡ m [ZMOD 2 ^ 30] := by
  rw [← shiftBack_eq_intval, u32_of_lt hn]

theorem residue_modEq (a : ℤ) : (residue a : ℤ) ≡ a [ZMOD 2 ^ 30] := by
  rw [natCast_residue]
  exact Int.mod_modEq a _

/-- The exact result in 30-bit two's complement. -/
def wrap30 (a : ℤ) : ℤ := a.bmod (2 ^ 30)

theorem wrap30_small (a : ℤ) : Small (wrap30 a) := by
  have hpos : 0 < 2 ^ 30 := by decide
  have hlow : -((2 ^ 30 : ℕ) / 2 : ℤ) ≤ wrap30 a := Int.le_bmod hpos
  have hhigh : wrap30 a < ((2 ^ 30 : ℕ) + 1) / 2 := Int.bmod_lt hpos
  exact ⟨hlow, hhigh⟩

theorem modEq_wrap30 (a : ℤ) : a ≡ wrap30 a [ZMOD 2 ^ 30] := by
  have h : ((2 ^ 30 : ℕ) : ℤ) ∣ wrap30 a - a := Int.dvd_bmod_sub_self
  exact Int.modEq_iff_dvd.2 (by exact_mod_cast h)

/-! ## The operations on encoded integers -/

variable {a b : ℤ}

theorem onIntegers_intval (f : ℕ → ℕ → Word) (a b : ℤ) :
    onIntegers f (intval a) (intval b) = f (residue a) (residue b) := by
  simp [onIntegers]

theorem lPlus_intval (a b : ℤ) : lPlus (intval a) (intval b) = intval (wrap30 (a + b)) := by
  rw [lPlus, onIntegers_intval, shiftBack_eq_intval, Nat.cast_add]
  exact ((residue_modEq a).add (residue_modEq b)).trans (modEq_wrap30 _)

theorem lMinus_intval (a b : ℤ) : lMinus (intval a) (intval b) = intval (wrap30 (a - b)) := by
  have hb := residue_lt b
  have hcast : ((residue a + (2 ^ 32 - residue b % 2 ^ 32) : ℕ) : ℤ) =
      residue a - residue b + 4 * 2 ^ 30 := by omega
  have hwhole : (residue a - residue b + 4 * 2 ^ 30 : ℤ) ≡ residue a - residue b [ZMOD 2 ^ 30] := by
    change (_ : ℤ) % _ = _ % _
    omega
  rw [lMinus, onIntegers_intval]
  refine shiftBack_eq_intval.2 (hcast ▸ hwhole.trans ?_)
  exact ((residue_modEq a).sub (residue_modEq b)).trans (modEq_wrap30 _)

theorem lTimes_intval (a b : ℤ) : lTimes (intval a) (intval b) = intval (wrap30 (a * b)) := by
  rw [lTimes, onIntegers_intval, shiftBack_eq_intval, Nat.cast_mul]
  exact ((residue_modEq a).mul (residue_modEq b)).trans (modEq_wrap30 _)

theorem boolval_eq_t {p : Bool} : boolval p = t ↔ p := by cases p <;> decide

theorem lNumEq_intval (ha : Small a) (hb : Small b) :
    lNumEq (intval a) (intval b) = t ↔ a = b := by
  rw [lNumEq, onIntegers_intval, boolval_eq_t, decide_eq_true_iff, residue_inj ha hb]

/-! ## Where the sign is lost -/

/-- The value of an integer is what was encoded unless that is negative. -/
theorem valint_iff (ha : Small a) : valint (intval a) = a ↔ 0 ≤ a := by
  have hlt := residue_lt a
  have hval : valint (intval a) = residue a := by
    simp only [valint, integerp_intval, intval_shift, signed32, Bool.not_true, Bool.false_eq_true,
      if_false]
    rw [if_pos (by omega)]
  rw [hval]
  rcases residue_cases ha with ⟨hs, hr⟩ | ⟨hs, hr⟩ <;> omega

/-- The order is the signed one for two integers of the same sign. -/
theorem lNumLt_iff (ha : Small a) (hb : Small b) :
    (lNumLt (intval a) (intval b) = t ↔ a < b) ↔ (0 ≤ a ↔ 0 ≤ b) := by
  rw [lNumLt, onIntegers_intval, boolval_eq_t, decide_eq_true_iff]
  unfold Small at ha hb
  rcases residue_cases ha with ⟨hsa, hra⟩ | ⟨hsa, hra⟩ <;>
    rcases residue_cases hb with ⟨hsb, hrb⟩ | ⟨hsb, hrb⟩ <;> omega

theorem lNumGt_eq (a b : Word) : lNumGt a b = lNumLt b a := by
  simp [lNumGt, lNumLt, onIntegers, Bool.or_comm]

theorem lNumGt_iff (ha : Small a) (hb : Small b) :
    (lNumGt (intval a) (intval b) = t ↔ a > b) ↔ (0 ≤ a ↔ 0 ≤ b) := by
  rw [lNumGt_eq, gt_iff_lt, lNumLt_iff hb ha]
  exact iff_comm

/-! ## Division -/

/-- What division should do: the truncated quotient, and some value where there is none. -/
def DividesSigned (a b : ℤ) : Prop :=
  if b = 0 then (lDivide (intval a) (intval b)).isSome = true
  else lDivide (intval a) (intval b) = some (intval (wrap30 (a.tdiv b)))

/-- A divisor of `0` traps. -/
theorem lDivide_zero (a : ℤ) : lDivide (intval a) (intval 0) = none := by
  simp [lDivide, residue]

theorem dividesSigned_iff_modEq (hb : Small b) (hne : b ≠ 0) :
    DividesSigned a b ↔ (residue a / residue b : ℤ) ≡ a.tdiv b [ZMOD 2 ^ 30] := by
  have hzero : residue b ≠ 0 := by
    intro h
    have hz : residue b = residue 0 := h
    exact hne ((residue_inj hb (by decide)).1 hz)
  have hlt : residue a / residue b < 2 ^ 32 :=
    ((Nat.div_le_self _ _).trans_lt (residue_lt a)).trans (by decide)
  have hdiv : lDivide (intval a) (intval b) = some (shiftBack (residue a / residue b)) := by
    simp [lDivide, hzero]
  rw [DividesSigned, if_neg hne, hdiv, Option.some_inj, shiftBack_eq_intval_of_lt hlt,
    Int.natCast_div]
  exact ⟨fun h => h.trans (modEq_wrap30 _).symm, fun h => h.trans (modEq_wrap30 _)⟩

theorem modEq_iff_of_small {x y : ℤ} (hxy : x - y < 2 ^ 30) (hyx : y - x < 2 ^ 30) :
    x ≡ y [ZMOD 2 ^ 30] ↔ x = y := by
  unfold Int.ModEq
  omega

/-- A dividend that is not negative: a negative divisor reads as a larger number than any. -/
theorem dividesSigned_of_nonneg (ha : Small a) (hb : Small b) (hne : b ≠ 0) (hsa : 0 ≤ a) :
    DividesSigned a b ↔ 0 < b ∨ a < -b := by
  have hra : (residue a : ℤ) = a := by
    rw [natCast_residue, Int.emod_eq_of_lt hsa (ha.2.trans (by decide))]
  rw [dividesSigned_iff_modEq hb hne, hra]
  rcases residue_cases hb with ⟨hsb, hrb⟩ | ⟨hsb, hrb⟩
  · have hpos : 0 < b := by omega
    rw [hrb, Int.tdiv_eq_ediv_of_nonneg hsa]
    exact iff_of_true rfl (.inl hpos)
  · unfold Small at ha hb
    have hcode : a / (b + 2 ^ 30) = 0 := Int.ediv_eq_zero_of_lt hsa (by omega)
    have hpos : 0 < -b := by omega
    have htrue : a.tdiv b = -(a / -b) := by
      rw [← Int.tdiv_eq_ediv_of_nonneg hsa, Int.tdiv_neg, neg_neg]
    have hquot : 0 ≤ a / -b := Int.ediv_nonneg hsa hpos.le
    have hsmall : a / -b ≤ a := Int.ediv_le_self _ hsa
    have hlt : a / -b < 1 ↔ a < 1 * -b := Int.ediv_lt_iff_lt_mul hpos
    rw [hrb, hcode, htrue, modEq_iff_of_small (by omega) (by omega)]
    omega

/-- A negative dividend reads as a number of `2 ^ 29` or more. -/
theorem dividesSigned_of_neg (ha : Small a) (hb : Small b) (hne : b ≠ 0) (hsa : a < 0) :
    DividesSigned a b ↔ b = 1 ∨ a = b := by
  have hra : (residue a : ℤ) = a + 2 ^ 30 := by
    rcases residue_cases ha with ⟨hs, -⟩ | ⟨-, hr⟩
    · omega
    · exact hr
  rw [dividesSigned_iff_modEq hb hne, hra]
  unfold Small at ha
  rcases residue_cases hb with ⟨hsb, hrb⟩ | ⟨hsb, hrb⟩
  · have hpos : 0 < b := by omega
    have htrue : a.tdiv b = -(-a / b) := by
      rw [← Int.tdiv_eq_ediv_of_nonneg (by omega : 0 ≤ -a), Int.neg_tdiv, neg_neg]
    rw [hrb, htrue]
    by_cases hone : b = 1
    · subst hone
      rw [Int.ediv_one, Int.ediv_one, neg_neg]
      exact iff_of_true (by simp [Int.ModEq]) (.inl rfl)
    · unfold Small at hb
      have hcode : (a + 2 ^ 30) / b < 2 ^ 29 := (Int.ediv_lt_iff_lt_mul hpos).2 (by omega)
      have hcode' : 1 ≤ (a + 2 ^ 30) / b := (Int.le_ediv_iff_mul_le hpos).2 (by omega)
      have hquot : 0 ≤ -a / b := Int.ediv_nonneg (by omega) hpos.le
      have hsmall : -a / b ≤ -a := Int.ediv_le_self _ (by omega)
      rw [modEq_iff_of_small (by omega) (by omega)]
      omega
  · have hpos : 0 < -b := by omega
    have htrue : a.tdiv b = -a / -b := by
      rw [← Int.tdiv_eq_ediv_of_nonneg (by omega : 0 ≤ -a), Int.neg_tdiv, Int.tdiv_neg, neg_neg]
    unfold Small at hb
    have hbpos : 0 < b + 2 ^ 30 := by omega
    have hquot : 0 ≤ -a / -b := Int.ediv_nonneg (by omega) hpos.le
    have hsmall : -a / -b ≤ -a := Int.ediv_le_self _ (by omega)
    have hcode : (a + 2 ^ 30) / (b + 2 ^ 30) < 2 := (Int.ediv_lt_iff_lt_mul hbpos).2 (by omega)
    have hone : 1 ≤ (a + 2 ^ 30) / (b + 2 ^ 30) ↔ 1 * (b + 2 ^ 30) ≤ a + 2 ^ 30 :=
      Int.le_ediv_iff_mul_le hbpos
    have hcode' : 0 ≤ (a + 2 ^ 30) / (b + 2 ^ 30) := Int.ediv_nonneg (by omega) hbpos.le
    have hq : 1 ≤ -a / -b ↔ 1 * -b ≤ -a := Int.le_ediv_iff_mul_le hpos
    have heq : a = b → -a / -b = 1 := fun h => h ▸ Int.ediv_self (by omega)
    rw [hrb, htrue, modEq_iff_of_small (by omega) (by omega)]
    by_cases hab : a = b
    · have := heq hab
      omega
    · omega

/-- Division has the signed meaning for a dividend that is not negative with a positive divisor
or with a quotient of `0`, and for a negative one with the divisor `1` or itself. -/
theorem dividesSigned_iff (ha : Small a) (hb : Small b) :
    DividesSigned a b ↔ b ≠ 0 ∧ (0 ≤ a ∧ (0 < b ∨ a < -b) ∨ a < 0 ∧ (b = 1 ∨ a = b)) := by
  by_cases hne : b = 0
  · subst hne
    simp [DividesSigned, lDivide_zero]
  · by_cases hsa : 0 ≤ a
    · rw [dividesSigned_of_nonneg ha hb hne hsa]
      omega
    · rw [dividesSigned_of_neg ha hb hne (by omega)]
      omega

/-! ## All operations -/

/-- The library treats the encodings of `a` and `b` as those of signed integers. -/
structure Signed (a b : ℤ) : Prop where
  left : valint (intval a) = a
  right : valint (intval b) = b
  plus : lPlus (intval a) (intval b) = intval (wrap30 (a + b))
  minus : lMinus (intval a) (intval b) = intval (wrap30 (a - b))
  times : lTimes (intval a) (intval b) = intval (wrap30 (a * b))
  eq : lNumEq (intval a) (intval b) = t ↔ a = b
  gt : lNumGt (intval a) (intval b) = t ↔ a > b
  lt : lNumLt (intval a) (intval b) = t ↔ a < b
  divide : DividesSigned a b

/-- **Integer operations have signed semantics** exactly for `a` not negative and `b`
positive. -/
theorem signed_iff (ha : Small a) (hb : Small b) : Signed a b ↔ 0 ≤ a ∧ 0 < b := by
  constructor
  · intro h
    have hsa : 0 ≤ a := (valint_iff ha).1 h.left
    have hsb : 0 ≤ b := (valint_iff hb).1 h.right
    have hne : b ≠ 0 := ((dividesSigned_iff ha hb).1 h.divide).1
    exact ⟨hsa, by omega⟩
  · rintro ⟨hsa, hsb⟩
    have hsign : 0 ≤ a ↔ 0 ≤ b := iff_of_true hsa hsb.le
    exact {
      left := (valint_iff ha).2 hsa
      right := (valint_iff hb).2 hsb.le
      plus := lPlus_intval a b
      minus := lMinus_intval a b
      times := lTimes_intval a b
      eq := lNumEq_intval ha hb
      gt := (lNumGt_iff ha hb).2 hsign
      lt := (lNumLt_iff ha hb).2 hsign
      divide := (dividesSigned_iff ha hb).2 ⟨hsb.ne', .inl ⟨hsa, .inl hsb⟩⟩ }

theorem signed_seven_two : Signed 7 2 := (signed_iff (by decide) (by decide)).2 (by decide)

/-- `-1` reads back as `2 ^ 30 - 1`, and is not less than `0`. -/
theorem not_signed_all : ¬ ∀ a b : ℤ, Small a → Small b → Signed a b := by
  intro h
  have hlt : lNumLt (intval (-1)) (intval 0) = t :=
    (h (-1) 0 (by decide) (by decide)).lt.2 (by decide)
  exact absurd hlt (by decide)

end Lisp

end Bluejay
