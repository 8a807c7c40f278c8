import Bluejay.Kernel.Paging

/-!
# The search for a free frame

* `numFrames` : `NUM_FRAMES`, the number of words of the bit set.
* `FindsLowest` : `first_free_frame` returns the lowest frame that is free, and panics only if
  there is none.
* `findsLowest_iff` : the bound of its loop, `NUM_FRAMES / BITS`, divides a number of words by the
  number of bits of a word once more; so this holds exactly if a frame of the first 1023 words is
  free, or none at all.
-/

namespace Bluejay

namespace Kernel

/-- `NUM_FRAMES`. -/
def numFrames : ℕ := 0xffffffff / 0x1000 / 32

/-- The lowest free frame of the bit set is found, if there is one. -/
structure FindsLowest (frames : ℕ → ℕ) : Prop where
  lowest : ∀ f, firstFreeFrame frames = some f →
    f < numFrames * bits ∧ used frames f = false ∧ ∀ g < f, used frames g = true
  full : firstFreeFrame frames = none → ∀ f < numFrames * bits, used frames f = true

section Search

variable {frames : ℕ → ℕ}

theorem searched_lt_covered : numSets * bits < numFrames * bits :=
  Nat.mul_lt_mul_of_pos_right (by decide) (by decide)

/-- **The search finds the lowest free frame exactly if there is none, or one in the words that it
looks at.** -/
theorem findsLowest_iff (frames : ℕ → ℕ) : FindsLowest frames ↔
    (∃ f < numSets * bits, used frames f = false) ∨
      ∀ f < numFrames * bits, used frames f = true := by
  constructor
  · intro h
    cases hf : firstFreeFrame frames with
    | some f => exact .inl ⟨f, firstFreeFrame_spec hf⟩
    | none => exact .inr (h.full hf)
  · intro h
    refine ⟨fun f hf => ?_, fun hnone => h.resolve_left ?_⟩
    · obtain ⟨hlt, hfree⟩ := firstFreeFrame_spec hf
      exact ⟨hlt.trans searched_lt_covered, hfree, fun g hg => firstFreeFrame_least hf hg⟩
    · rintro ⟨f, hf, hfree⟩
      rw [firstFreeFrame_none hnone hf] at hfree
      cases hfree

/-- **With the first 1023 words full, the kernel panics**, although all other frames are free. -/
theorem not_findsLowest : ¬ ∀ frames : ℕ → ℕ, FindsLowest frames := by
  intro h
  obtain ⟨frames, hlow, hhigh⟩ : ∃ frames : ℕ → ℕ, (∀ i < numSets, frames i = 2 ^ 32 - 1) ∧
      frames numSets = 0 :=
    ⟨fun i => if i < numSets then 2 ^ 32 - 1 else 0, fun i hi => if_pos hi,
      if_neg (Nat.lt_irrefl _)⟩
  have hnone : firstFreeFrame frames = none := by
    cases hf : firstFreeFrame frames with
    | none => rfl
    | some f =>
      obtain ⟨hlt, hfree⟩ := firstFreeFrame_spec hf
      have hword : f / bits < numSets := Nat.div_lt_of_lt_mul (by rwa [Nat.mul_comm])
      have hbit : f % bits < 32 := Nat.mod_lt _ (by decide)
      rw [used, hlow _ hword, Nat.testBit_two_pow_sub_one, decide_eq_true hbit] at hfree
      cases hfree
  have hused := (h frames).full hnone (numSets * bits) searched_lt_covered
  rw [used, Nat.mul_div_cancel _ (by decide), hhigh, Nat.zero_testBit] at hused
  cases hused

end Search

end Kernel

end Bluejay
