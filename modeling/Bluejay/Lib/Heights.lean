import Mathlib.Algebra.Order.Ring.Int

/-!
# Stack heights of code with forward and backward jumps

Code keeps a stack discipline if every position has one height above the start, whichever way it
is reached.

* `Heights ι` : what the instructions `ι` do to the height, where they jump, which are labels.
* `Typed Γ d c d'` : from the height `d`, the code `c` goes through heights that are not
  negative and ends at `d'`; jumps and labels agree on the heights `Γ` of the labels.
* `Flow P p i q` : in the program `P`, control goes from position `p` with instruction `i` to
  position `q`.
* `Typed.flow` : control stays in typed code until its end, and the heights are as computed.
-/

namespace Bluejay

/-- The effect of instructions on the height of the stack.  A jump has none. -/
structure Heights (ι : Type) where
  /-- `none` if the height afterwards does not depend on the height before. -/
  effect : ι → Option ℤ
  target : ι → Option ℕ
  label : ι → Option ℕ
  target_effect : ∀ {i l}, target i = some l → effect i = some 0

namespace Heights

variable {ι : Type} (S : Heights ι)

/-- From the height `d`, the code ends at `d'`. -/
def Typed (Γ : ℕ → ℤ) : ℤ → List ι → ℤ → Prop
  | d, [], d' => 0 ≤ d ∧ d = d'
  | d, i :: c, d' => 0 ≤ d ∧ (∀ l, S.target i = some l ∨ S.label i = some l → Γ l = d) ∧
      ∃ e, S.effect i = some e ∧ Typed Γ (d + e) c d'

/-- Control goes from `p` to `q`. -/
def Flow (P : List ι) (p : ℕ) (i : ι) (q : ℕ) : Prop :=
  P[p]? = some i ∧ (q = p + 1 ∨ ∃ l j, S.target i = some l ∧ P[q]? = some j ∧ S.label j = some l)

/-- The height behind the code, if it starts at `d`. -/
def height (d : ℤ) (c : List ι) : ℤ := c.foldl (fun d i => d + (S.effect i).getD 0) d

/-- No label stands in two places. -/
def LabelsUnique (P : List ι) : Prop := (P.filterMap S.label).Nodup

instance (P : List ι) : Decidable (S.LabelsUnique P) :=
  inferInstanceAs (Decidable (P.filterMap S.label).Nodup)

/-- Jumps lead to labels in the code. -/
def Closed (c : List ι) : Prop :=
  ∀ l ∈ c.filterMap S.target, l ∈ c.filterMap S.label

/-- The lowest and the last height of code without jumps and labels that starts at 0. -/
def straight : List ι → Option (ℤ × ℤ)
  | [] => some (0, 0)
  | i :: c =>
    match S.target i, S.label i, S.effect i, straight c with
    | none, none, some e, some (lo, e') => some (min 0 (e + lo), e + e')
    | _, _, _, _ => none

variable {S} {Γ : ℕ → ℤ} {c c₁ c₂ P : List ι} {d d' e : ℤ}

theorem Typed.nonneg (h : S.Typed Γ d c d') : 0 ≤ d := by
  cases c with
  | nil => exact h.1
  | cons i c => exact h.1

theorem typed_append : S.Typed Γ d (c₁ ++ c₂) d' ↔ ∃ e, S.Typed Γ d c₁ e ∧ S.Typed Γ e c₂ d' := by
  induction c₁ generalizing d with
  | nil =>
    constructor
    · exact fun h => ⟨d, ⟨h.nonneg, rfl⟩, h⟩
    · rintro ⟨_, ⟨-, rfl⟩, h⟩
      exact h
  | cons i c₁ ih =>
    simp only [List.cons_append, Typed, ih]
    constructor
    · rintro ⟨hd, hl, e, he, e', h₁, h₂⟩
      exact ⟨e', ⟨hd, hl, e, he, h₁⟩, h₂⟩
    · rintro ⟨e', ⟨hd, hl, e, he, h₁⟩, h₂⟩
      exact ⟨hd, hl, e, he, e', h₁, h₂⟩

theorem Typed.append (h₁ : S.Typed Γ d c₁ e) (h₂ : S.Typed Γ e c₂ d') :
    S.Typed Γ d (c₁ ++ c₂) d' :=
  typed_append.2 ⟨e, h₁, h₂⟩

theorem Typed.height (h : S.Typed Γ d c d') : S.height d c = d' := by
  induction c generalizing d with
  | nil => exact h.2
  | cons i c ih =>
    obtain ⟨-, -, e, he, h⟩ := h
    rw [← ih h]
    simp [Heights.height, he]

theorem typed_straight {lo : ℤ} (h : S.straight c = some (lo, e)) (hd : 0 ≤ d + lo) :
    S.Typed Γ d c (d + e) := by
  induction c generalizing d lo e with
  | nil =>
    obtain ⟨rfl, rfl⟩ : 0 = lo ∧ 0 = e := by simpa [straight] using h
    exact ⟨by omega, by omega⟩
  | cons i c ih =>
    unfold straight at h
    split at h
    · rename_i e₁ lo' e' ht hl he hc
      obtain ⟨rfl, rfl⟩ : min 0 (e₁ + lo') = lo ∧ e₁ + e' = e := by simpa using h
      refine ⟨by omega, fun l hl' => by simp [ht, hl] at hl', e₁, he, ?_⟩
      rw [← add_assoc]
      exact ih hc (by omega)
    · cases h

/-- What is known at a position of typed code. -/
theorem Typed.at_getElem? {code : List ι} (h : S.Typed Γ d code d') {p : ℕ} {i : ι}
    (hi : code[p]? = some i) :
    (∀ l, S.target i = some l ∨ S.label i = some l → Γ l = S.height d (code.take p)) ∧
      ∃ e, S.effect i = some e ∧ S.height d (code.take (p + 1)) = S.height d (code.take p) + e := by
  obtain ⟨hp, rfl⟩ := List.getElem?_eq_some_iff.1 hi
  rw [← List.take_append_drop p code, typed_append] at h
  obtain ⟨e, h₁, h₂⟩ := h
  rw [List.drop_eq_getElem_cons hp] at h₂
  obtain ⟨-, hl, e', he', -⟩ := h₂
  refine ⟨by rwa [h₁.height], e', he', ?_⟩
  rw [← List.take_append_getElem hp]
  simp only [Heights.height, List.foldl_append, List.foldl_cons, List.foldl_nil, he',
    Option.getD_some]

theorem Typed.height_take_nonneg (h : S.Typed Γ d c d') (p : ℕ) :
    0 ≤ S.height d (c.take p) := by
  rw [← List.take_append_drop p c, typed_append] at h
  obtain ⟨e, h₁, h₂⟩ := h
  rw [h₁.height]
  exact h₂.nonneg

/-- In a program without duplicate labels, a label has one position. -/
theorem LabelsUnique.eq (h : S.LabelsUnique P) {p q l : ℕ} {i j : ι} (hp : P[p]? = some i)
    (hi : S.label i = some l) (hq : P[q]? = some j) (hj : S.label j = some l) : p = q := by
  have hmem : ∀ {P : List ι} {p : ℕ} {i : ι}, P[p]? = some i → S.label i = some l →
      l ∈ P.filterMap S.label := fun hp hi =>
    List.mem_filterMap.2 ⟨_, List.mem_of_getElem? hp, hi⟩
  induction P generalizing p q with
  | nil => simp at hp
  | cons x P ih =>
    have htail : S.LabelsUnique P := h.sublist ((List.sublist_cons_self x P).filterMap S.label)
    cases p with
    | zero =>
      cases q with
      | zero => rfl
      | succ q =>
        obtain rfl : x = i := by simpa using hp
        rw [LabelsUnique, List.filterMap_cons_some hi, List.nodup_cons] at h
        exact absurd (hmem (by simpa using hq) hj) h.1
    | succ p =>
      cases q with
      | zero =>
        obtain rfl : x = j := by simpa using hq
        rw [LabelsUnique, List.filterMap_cons_some hj, List.nodup_cons] at h
        exact absurd (hmem (by simpa using hp) hi) h.1
      | succ q => exact congrArg (· + 1) (ih htail (by simpa using hp) (by simpa using hq))

/-- Control stays in typed code until its end, and the heights are as computed. -/
theorem Typed.flow (h : S.Typed Γ d c d') (hc : S.Closed c) {pre post : List ι}
    (hP : S.LabelsUnique (pre ++ c ++ post)) {p q : ℕ} {i : ι} (hp : p < c.length)
    (hf : S.Flow (pre ++ c ++ post) (pre.length + p) i q) : ∃ p' e, q = pre.length + p' ∧
      p' ≤ c.length ∧ S.effect i = some e ∧
      S.height d (c.take p') = S.height d (c.take p) + e := by
  have hget : ∀ {p : ℕ}, p < c.length → (pre ++ c ++ post)[pre.length + p]? = getElem? c p := by
    intro p hp
    rw [List.append_assoc, List.getElem?_append_right (by omega), List.getElem?_append_left
      (by omega), Nat.add_sub_cancel_left]
  obtain ⟨hi, hq⟩ := hf
  rw [hget hp] at hi
  obtain ⟨hΓ, e, he, hsucc⟩ := h.at_getElem? hi
  rcases hq with rfl | ⟨l, j, hl, hj, hjl⟩
  · exact ⟨p + 1, e, by omega, hp, he, hsucc⟩
  · -- the label the jump leads to is the one in `c`
    obtain ⟨j', hj', hjl'⟩ := List.mem_filterMap.1
      (hc l (List.mem_filterMap.2 ⟨i, List.mem_of_getElem? hi, hl⟩))
    obtain ⟨p', hp', hget'⟩ := List.getElem_of_mem hj'
    have hjp : getElem? c p' = some j' := by rw [List.getElem?_eq_getElem hp', hget']
    have heq : q = pre.length + p' := hP.eq hj hjl (by rw [hget hp', hjp]) hjl'
    refine ⟨p', 0, heq, hp'.le, S.target_effect hl, ?_⟩
    rw [← (h.at_getElem? hjp).1 l (.inr hjl'), ← hΓ l (.inl hl), add_zero]

end Heights

end Bluejay
