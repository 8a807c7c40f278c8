import Bluejay.Lib.Extents
import Bluejay.Lib.System
import Mathlib.Logic.Function.Basic
import Mathlib.Tactic.SplitIfs

/-!
# A store of blocks

What an allocator is for, as its clients see it: blocks are asked for, filled, resized and given
back, and nothing is said about where the bookkeeping is.

* `Store β` : the contents of the block at each address in use.
* `Store.Step` : one operation.  A new block is apart from all blocks in use, a resized one keeps
  its contents as far as they fit, a write changes one place of one block.
* `Store.Run.kept` : a block keeps its contents as long as no operation touches it.
-/

namespace Bluejay

/-- The contents of the block at each address in use. -/
abbrev Store (β : Type*) := ℕ → Option (List β)

namespace Store

variable {β : Type*}

/-- No block is in use. -/
def empty : Store β := fun _ => none

/-- The operations of a store's clients. -/
inductive Op (β : Type*)
  | alloc (n : ℕ)
  | free (p : ℕ)
  | resize (p n : ℕ)
  | write (a : ℕ) (b : β)

/-- There is room for a block of `n` places at `p`: it overlaps no block in use. -/
structure Apart (S : Store β) (p n : ℕ) : Prop where
  ne_zero : p ≠ 0
  unused : S p = none
  disjoint : ∀ q d, S q = some d → Extent.Disjoint ⟨p, n⟩ ⟨q, d.length⟩

/-- One operation.  What a new block holds, and where it is, is left open. -/
inductive Step (S : Store β) : Op β → Store β → Prop
  | alloc {p : ℕ} {d : List β} (hp : Apart S p d.length) :
      Step S (.alloc d.length) (Function.update S p (some d))
  | free {p : ℕ} {d : List β} (hp : S p = some d) :
      Step S (.free p) (Function.update S p none)
  | resize {p q : ℕ} {d d' : List β} (hp : S p = some d) (hq : Apart S q d'.length)
      (hd : d'.take d.length = d.take d'.length) :
      Step S (.resize p d'.length) (Function.update (Function.update S p none) q (some d'))
  | write {p a : ℕ} {b : β} {d : List β} (hp : S p = some d) (ha : p ≤ a ∧ a < p + d.length) :
      Step S (.write a b) (Function.update S p (some (d.set (a - p) b)))

/-- All runs of a store and its clients. -/
def blocks : System (Store β) (Op β) := ⟨Step⟩

/-- The operation is about the block of `n` places at `p`. -/
def Op.Touches (p n : ℕ) : Op β → Prop
  | .alloc _ => False
  | .free q => q = p
  | .resize q _ => q = p
  | .write a _ => p ≤ a ∧ a < p + n

variable {S S' : Store β} {p : ℕ} {d : List β} {l : Op β} {ls : List (Op β)}

/-- One step leaves a block alone that it does not touch. -/
theorem Step.kept (h : Step S l S') (hp : S p = some d) (hl : ¬ l.Touches p d.length) :
    S' p = some d := by
  cases h with
  | @alloc q e hq =>
    have hne : p ≠ q := by
      rintro rfl
      rw [hq.unused] at hp
      cases hp
    rwa [Function.update_of_ne hne]
  | @free q e hq => rwa [Function.update_of_ne fun hpq => hl hpq.symm]
  | @resize q r e e' hq hr he =>
    have hne : p ≠ r := by
      rintro rfl
      rw [hr.unused] at hp
      cases hp
    rwa [Function.update_of_ne hne, Function.update_of_ne fun hpq => hl hpq.symm]
  | @write q a b e hq ha =>
    have hne : p ≠ q := by
      rintro rfl
      obtain rfl : e = d := Option.some.inj (hq.symm.trans hp)
      exact hl ha
    rwa [Function.update_of_ne hne]

/-- **A block keeps its contents until an operation touches it.** -/
theorem Run.kept (h : blocks.Run S ls S') (hp : S p = some d)
    (hl : ∀ l ∈ ls, ¬ l.Touches p d.length) : S' p = some d := by
  induction h with
  | nil => exact hp
  | snoc _ hs ih =>
    rw [List.forall_mem_append] at hl
    exact Step.kept hs (ih hl.1) (hl.2 _ (List.mem_singleton.2 rfl))

end Store

end Bluejay
