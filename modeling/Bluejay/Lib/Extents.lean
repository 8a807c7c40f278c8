import Mathlib.Data.List.Perm.Basic
import Mathlib.Tactic.Common

/-!
# Used and free extents of a store

The purpose of an allocator, apart from any representation: a region is cut into extents that
do not overlap, each of them used or free.

* `Extent` : the addresses `start … start + len - 1`.
* `Adjacent lo as hi` : the extents `as` stand one behind the other, from `lo` to `hi`.
* `Partition lo hi` : lists of used and of free extents of `[lo, hi)`, pairwise disjoint.  That
  they are is a field, so an overlapping partition cannot be built.
* `Partition.take`, `Partition.split`, `Partition.release` : hand out a free extent whole, hand
  out its front, take back a used one.
-/

namespace Bluejay

/-- The addresses from `start` to `start + len - 1`. -/
structure Extent where
  start : ℕ
  len : ℕ
  deriving DecidableEq

namespace Extent

/-- `a` and `b` do not overlap: one ends before the other starts. -/
def Disjoint (a b : Extent) : Prop := a.start + a.len ≤ b.start ∨ b.start + b.len ≤ a.start

instance (a b : Extent) : Decidable (Disjoint a b) :=
  inferInstanceAs (Decidable (_ ∨ _))

/-- `a` lies in `[lo, hi)`. -/
def Within (lo hi : ℕ) (a : Extent) : Prop := lo ≤ a.start ∧ a.start + a.len ≤ hi

theorem Disjoint.symm {a b : Extent} (h : Disjoint a b) : Disjoint b a := Or.symm h

instance : Std.Symm Disjoint := ⟨fun _ _ => Disjoint.symm⟩

/-- The first `n` addresses of `a`. -/
def front (a : Extent) (n : ℕ) : Extent := ⟨a.start, n⟩

/-- What is left of `a` after its first `n` addresses. -/
def rest (a : Extent) (n : ℕ) : Extent := ⟨a.start + n, a.len - n⟩

variable {a b : Extent} {n lo hi : ℕ}

theorem Disjoint.front (h : Disjoint a b) (hn : n ≤ a.len) : Disjoint (a.front n) b := by
  simp only [Disjoint, Extent.front] at *; omega

theorem Disjoint.rest (h : Disjoint a b) (hn : n ≤ a.len) : Disjoint (a.rest n) b := by
  simp only [Disjoint, Extent.rest] at *; omega

theorem front_disjoint_rest : Disjoint (a.front n) (a.rest n) := Or.inl (Nat.le_refl _)

theorem Within.front (h : Within lo hi a) (hn : n ≤ a.len) : Within lo hi (a.front n) := by
  simp only [Within, Extent.front] at *; omega

theorem Within.rest (h : Within lo hi a) (hn : n ≤ a.len) : Within lo hi (a.rest n) := by
  simp only [Within, Extent.rest] at *; omega

end Extent

/-- The extents stand one behind the other, from `lo` to `hi`. -/
def Adjacent : ℕ → List Extent → ℕ → Prop
  | lo, [], hi => lo = hi
  | lo, a :: as, hi => a.start = lo ∧ Adjacent (lo + a.len) as hi

instance Adjacent.decidable : ∀ lo as hi, Decidable (Adjacent lo as hi)
  | lo, [], hi => inferInstanceAs (Decidable (lo = hi))
  | lo, a :: as, hi =>
    have := Adjacent.decidable (lo + a.len) as hi
    inferInstanceAs (Decidable (a.start = lo ∧ Adjacent (lo + a.len) as hi))

namespace Adjacent

variable {lo mid hi : ℕ} {a : Extent} {as bs cs : List Extent}

theorem append_iff : Adjacent lo (as ++ bs) hi ↔ ∃ mid, Adjacent lo as mid ∧ Adjacent mid bs hi := by
  induction as generalizing lo with
  | nil => exact ⟨fun h => ⟨lo, rfl, h⟩, fun ⟨_, h, h'⟩ => h ▸ h'⟩
  | cons a as ih =>
    constructor
    · rintro ⟨ha, h⟩
      obtain ⟨mid, has, hbs⟩ := ih.1 h
      exact ⟨mid, ⟨ha, has⟩, hbs⟩
    · rintro ⟨mid, ⟨ha, has⟩, hbs⟩
      exact ⟨ha, ih.2 ⟨mid, has, hbs⟩⟩

theorem append (h : Adjacent lo as mid) (h' : Adjacent mid bs hi) : Adjacent lo (as ++ bs) hi :=
  append_iff.2 ⟨mid, h, h'⟩

theorem le (h : Adjacent lo as hi) : lo ≤ hi := by
  induction as generalizing lo with
  | nil => exact Nat.le_of_eq h
  | cons a as ih => exact Nat.le_trans (Nat.le_add_right _ _) (ih h.2)

theorem within (h : Adjacent lo as hi) : ∀ a ∈ as, a.Within lo hi := by
  induction as generalizing lo with
  | nil =>
    intro a ha
    cases ha
  | cons b as ih =>
    obtain ⟨hb, has⟩ := h
    intro a ha
    rcases List.mem_cons.1 ha with rfl | ha
    · exact ⟨Nat.le_of_eq hb.symm, hb ▸ has.le⟩
    · obtain ⟨hlo, hhi⟩ := ih has a ha
      exact ⟨Nat.le_trans (Nat.le_add_right _ _) hlo, hhi⟩

/-- What stands before an extent, and what stands behind it. -/
theorem middle (h : Adjacent lo (as ++ a :: bs) hi) :
    Adjacent lo as a.start ∧ Adjacent (a.start + a.len) bs hi := by
  obtain ⟨mid, has, ha, hbs⟩ := append_iff.1 h
  rw [ha]
  exact ⟨has, hbs⟩

/-- An extent is cut up. -/
theorem replace (h : Adjacent lo (as ++ a :: bs) hi) (hcs : Adjacent a.start cs (a.start + a.len)) :
    Adjacent lo (as ++ (cs ++ bs)) hi :=
  h.middle.1.append (hcs.append h.middle.2)

theorem disjoint (h : Adjacent lo (as ++ a :: bs) hi) : ∀ b ∈ as ++ bs, b.Disjoint a := by
  intro b hb
  rcases List.mem_append.1 hb with hb | hb
  · exact .inl (h.middle.1.within b hb).2
  · exact .inr (h.middle.2.within b hb).1

end Adjacent

/-- Extents of `[lo, hi)`, each used or free, no two of them overlapping. -/
structure Partition (lo hi : ℕ) where
  used : List Extent
  free : List Extent
  disjoint : (used ++ free).Pairwise Extent.Disjoint
  within : ∀ a ∈ used ++ free, a.Within lo hi

namespace Partition

variable {lo hi : ℕ} (P : Partition lo hi)

theorem pairwise_of_perm {l l' : List Extent} (h : l.Pairwise Extent.Disjoint) (hp : l.Perm l') :
    l'.Pairwise Extent.Disjoint :=
  (hp.pairwise_iff fun h => h.symm).1 h

/-- A free extent is handed out whole. -/
def take {a : Extent} {rest : List Extent} (h : P.free.Perm (a :: rest)) : Partition lo hi where
  used := a :: P.used
  free := rest
  disjoint := pairwise_of_perm P.disjoint <|
    (h.append_left P.used).trans (@List.perm_middle _ a P.used rest)
  within b hb := P.within b <| by
    rw [List.mem_append, h.mem_iff]
    simp only [List.mem_append, List.mem_cons] at hb ⊢
    tauto

/-- A used extent is taken back. -/
def release {a : Extent} {rest : List Extent} (h : P.used.Perm (a :: rest)) :
    Partition lo hi where
  used := rest
  free := a :: P.free
  disjoint := pairwise_of_perm P.disjoint <|
    (h.append_right P.free).trans (@List.perm_middle _ a rest P.free).symm
  within b hb := P.within b <| by
    rw [List.mem_append, h.mem_iff]
    simp only [List.mem_append, List.mem_cons] at hb ⊢
    tauto

/-- The front of a free extent is handed out, the rest stays free. -/
def split {a : Extent} {rest : List Extent} (h : P.free.Perm (a :: rest)) {n : ℕ}
    (hn : n ≤ a.len) : Partition lo hi where
  used := a.front n :: P.used
  free := a.rest n :: rest
  disjoint := by
    have hd : (a :: (P.used ++ rest)).Pairwise Extent.Disjoint := (P.take h).disjoint
    obtain ⟨ha, hr⟩ := List.pairwise_cons.1 hd
    refine pairwise_of_perm (l := a.front n :: a.rest n :: (P.used ++ rest)) ?_
      ((@List.perm_middle _ (a.rest n) P.used rest).symm.cons _)
    refine List.pairwise_cons.2 ⟨fun b hb => ?_, List.pairwise_cons.2
      ⟨fun b hb => (ha b hb).rest hn, hr⟩⟩
    rcases List.mem_cons.1 hb with rfl | hb
    · exact Extent.front_disjoint_rest
    · exact (ha b hb).front hn
  within b hb := by
    have ha : a.Within lo hi := (P.take h).within a (by simp [take])
    simp only [List.mem_append, List.mem_cons] at hb
    rcases hb with (rfl | hb) | rfl | hb
    · exact ha.front hn
    · exact P.within b (List.mem_append_left _ hb)
    · exact ha.rest hn
    · exact (P.take h).within b (List.mem_append_right _ hb)

/-- Used extents do not overlap. -/
theorem used_pairwise : P.used.Pairwise Extent.Disjoint :=
  (List.pairwise_append.1 P.disjoint).1

/-- No used extent overlaps a free one. -/
theorem used_disjoint_free {a b : Extent} (ha : a ∈ P.used) (hb : b ∈ P.free) :
    a.Disjoint b :=
  (List.pairwise_append.1 P.disjoint).2.2 a ha b hb

end Partition

end Bluejay
