import Mathlib.Algebra.Group.Nat.Defs
import Mathlib.Data.Nat.Notation
import Mathlib.Logic.Function.Basic
import Mathlib.Tactic.TypeStar

/-!
# A window on endless paper

A screen of `h` rows with `w` cells each, kept as one array, shows lines of a paper on which
nothing is ever moved.

* `Shows w h screen paper top` : the rows of the screen are the lines of the paper from `top` on.
* `Shows.write` : a cell is written on the screen and on the paper.
* `Shows.scroll` : the rows move up, and the line that appears is written anew.
-/

namespace Bluejay

variable {α : Type*}

/-- Write a cell of the paper. -/
def writeAt (paper : ℕ → ℕ → α) (line column : ℕ) (v : α) : ℕ → ℕ → α :=
  fun l c => if l = line ∧ c = column then v else paper l c

/-- Write all cells of a line. -/
def writeLine (paper : ℕ → ℕ → α) (line : ℕ) (v : α) : ℕ → ℕ → α :=
  fun l c => if l = line then v else paper l c

/-- The rows of the screen are the lines of the paper from `top` on. -/
def Shows (w h : ℕ) (screen : ℕ → α) (paper : ℕ → ℕ → α) (top : ℕ) : Prop :=
  ∀ y < h, ∀ x < w, screen (y * w + x) = paper (top + y) x

section Shows

variable {w h top x y x' y' : ℕ} {screen screen' : ℕ → α} {paper : ℕ → ℕ → α}

/-- A cell is given by its row and its column. -/
theorem cellIndex_inj (hx : x < w) (hx' : x' < w) (heq : y * w + x = y' * w + x') :
    y = y' ∧ x = x' := by
  have hw : 0 < w := Nat.zero_lt_of_lt hx
  have hrow : ∀ {r c : ℕ}, c < w → (r * w + c) / w = r := fun {r c} hc => by
    rw [Nat.add_comm, Nat.add_mul_div_right _ _ hw, Nat.div_eq_of_lt hc, Nat.zero_add]
  have hy : y = y' := by rw [← hrow (r := y) hx, heq, hrow hx']
  subst hy
  exact ⟨rfl, Nat.add_left_cancel heq⟩

/-- The cells of a row are on the screen. -/
theorem cellIndex_lt (hx : x < w) (hy : y < h) : y * w + x < h * w := by
  calc y * w + x < y * w + w := Nat.add_lt_add_left hx _
    _ = (y + 1) * w := (Nat.succ_mul y w).symm
    _ ≤ h * w := Nat.mul_le_mul_right w hy

theorem Shows.write (hs : Shows w h screen paper top) (hx : x < w) (v : α) :
    Shows w h (Function.update screen (y * w + x) v) (writeAt paper (top + y) x v) top := by
  intro y' hy' x' hx'
  unfold writeAt
  by_cases heq : y' * w + x' = y * w + x
  · obtain ⟨rfl, rfl⟩ := cellIndex_inj hx' hx heq
    rw [Function.update_self, if_pos ⟨rfl, rfl⟩]
  · rw [Function.update_of_ne heq, hs y' hy' x' hx', if_neg]
    rintro ⟨hline, rfl⟩
    exact heq (by rw [Nat.add_left_cancel hline])

/-- The rows move up by one, and the last one is written anew. -/
theorem Shows.scroll {v : α} (hs : Shows w (h + 1) screen paper top)
    (hup : ∀ i < h * w, screen' i = screen (i + w))
    (hlast : ∀ i, h * w ≤ i → i < (h + 1) * w → screen' i = v) :
    Shows w (h + 1) screen' (writeLine paper (top + (h + 1)) v) (top + 1) := by
  intro y hy x hx
  unfold writeLine
  rcases Nat.eq_or_lt_of_le (Nat.le_of_lt_succ hy) with rfl | hlt
  · rw [hlast _ (Nat.le_add_right _ _) (cellIndex_lt hx hy), if_pos (by omega)]
  · have hindex : y * w + x + w = (y + 1) * w + x := by rw [Nat.succ_mul]; omega
    rw [hup _ (cellIndex_lt hx hlt), hindex, hs (y + 1) (Nat.succ_lt_succ hlt) x hx,
      if_neg (by omega), show top + (y + 1) = top + 1 + y by omega]

end Shows

end Bluejay
