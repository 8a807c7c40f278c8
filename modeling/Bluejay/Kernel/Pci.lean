import Mathlib.Data.List.Basic
import Mathlib.Data.Nat.Notation
import Mathlib.Order.Lattice
import Mathlib.Tactic.SplitIfs

/-!
# Vendors of PCI devices

* `pciVendorById` : the binary search of `pci.c`, with the entries of the table that it reads.
* `LooksUp` : it reads only entries of the table, ends, and finds the entry with the id.
* `looksUp_iff` : when this is so.  If the id is not in the table, the interval stays at one entry
  with a smaller id.
-/

namespace Bluejay

namespace Kernel

/-- `struct pci_vendor`. -/
structure PciVendor where
  id : UInt16
  name : List UInt8
  deriving DecidableEq

/-- The entries that were read, and what is returned, if the search has ended: the index of an
entry, or `none` for `NULL`. -/
structure VendorRun where
  read : List ℕ
  result : Option (Option ℕ)

/-- The run with an entry that was read before. -/
def VendorRun.after (run : VendorRun) (guess : ℕ) : VendorRun :=
  { run with read := guess :: run.read }

/-- The loop of `pci_vendor_by_id`, for `fuel` steps.  A read outside of the table ends the run. -/
def pciVendorLoop (vs : List PciVendor) (id : UInt16) : ℕ → ℕ → ℕ → VendorRun
  | 0, _, _ => ⟨[], none⟩
  | fuel + 1, start, max =>
    if max = start then ⟨[], some none⟩
    else
      let guess := (max - start) / 2 + start
      match vs[guess]? with
      | none => ⟨[guess], none⟩
      | some v =>
        if v.id = id then ⟨[guess], some (some guess)⟩
        else if v.id > id then (pciVendorLoop vs id fuel start guess).after guess
        -- `start = guess`, not `guess + 1`
        else (pciVendorLoop vs id fuel guess max).after guess

/-- `pci_vendor_by_id`, for `fuel` steps. -/
def pciVendorById (vs : List PciVendor) (id : UInt16) (fuel : ℕ) : VendorRun :=
  pciVendorLoop vs id fuel 0 vs.length

/-- Only entries of the table are read, and the search ends with the entry that has the id, or with
`NULL` if there is none. -/
structure LooksUp (vs : List PciVendor) (id : UInt16) : Prop where
  inside : ∀ fuel, ∀ i ∈ (pciVendorById vs id fuel).read, i < vs.length
  result : ∃ fuel r, (pciVendorById vs id fuel).result = some r ∧
    ∀ i, r = some i ↔ (vs[i]?.map PciVendor.id) = some id

/-- The table is strictly sorted by id. -/
def SortedById (vs : List PciVendor) : Prop := vs.Pairwise fun v v' => v.id < v'.id

instance : DecidablePred SortedById := fun _ => inferInstanceAs (Decidable (List.Pairwise _ _))

section Pci

variable {vs : List PciVendor} {id : UInt16} {fuel start max guess i j p : ℕ} {v : PciVendor}

theorem SortedById.lt_iff (hs : SortedById vs) (hi : i < vs.length) (hj : j < vs.length) :
    vs[i].id < vs[j].id ↔ i < j := by
  have hlt : ∀ {i j : ℕ} (hi : i < vs.length) (hj : j < vs.length), i < j →
      vs[i].id < vs[j].id := fun hi hj h => List.pairwise_iff_getElem.1 hs _ _ hi hj h
  refine ⟨fun h => ?_, hlt hi hj⟩
  rcases Nat.lt_trichotomy i j with hij | rfl | hij
  · exact hij
  · exact absurd h (UInt16.lt_irrefl _)
  · exact absurd h (UInt16.lt_asymm (hlt hj hi hij))

theorem SortedById.eq_of_id (hs : SortedById vs) (hi : i < vs.length) (hj : j < vs.length)
    (heq : vs[i].id = vs[j].id) : i = j := by
  rcases Nat.lt_trichotomy i j with hij | hij | hij
  · exact absurd (heq ▸ (hs.lt_iff hi hj).2 hij) (UInt16.lt_irrefl _)
  · exact hij
  · exact absurd (heq ▸ (hs.lt_iff hj hi).2 hij) (UInt16.lt_irrefl _)

/-- A step in an interval of the table: the entry is found, or the search goes on in front of it or
from it on. -/
theorem pciVendorLoop_cases (vs : List PciVendor) (id : UInt16) (hlt : start < max)
    (hmax : max ≤ vs.length) : ∃ (guess : ℕ) (h : guess < vs.length),
      start ≤ guess ∧ guess < max ∧ (start + 1 < max → start < guess) ∧
      (vs[guess].id = id ∧
          (∀ fuel, pciVendorLoop vs id (fuel + 1) start max = ⟨[guess], some (some guess)⟩) ∨
        id < vs[guess].id ∧ (∀ fuel, pciVendorLoop vs id (fuel + 1) start max =
          (pciVendorLoop vs id fuel start guess).after guess) ∨
        vs[guess].id < id ∧ (∀ fuel, pciVendorLoop vs id (fuel + 1) start max =
          (pciVendorLoop vs id fuel guess max).after guess)) := by
  obtain ⟨guess, hguess⟩ : ∃ guess, (max - start) / 2 + start = guess := ⟨_, rfl⟩
  have h : guess < vs.length := by omega
  have hstep : ∀ fuel, pciVendorLoop vs id (fuel + 1) start max =
      if vs[guess].id = id then ⟨[guess], some (some guess)⟩
      else if vs[guess].id > id then (pciVendorLoop vs id fuel start guess).after guess
      else (pciVendorLoop vs id fuel guess max).after guess := by
    intro fuel
    rw [pciVendorLoop, if_neg (by omega), hguess]
    simp only [List.getElem?_eq_getElem h]
  refine ⟨guess, h, by omega, by omega, by omega, ?_⟩
  by_cases heq : vs[guess].id = id
  · exact .inl ⟨heq, fun fuel => (hstep fuel).trans (if_pos heq)⟩
  · by_cases hgt : vs[guess].id > id
    · exact .inr (.inl ⟨hgt, fun fuel => by rw [hstep, if_neg heq, if_pos hgt]⟩)
    · have hless := UInt16.lt_of_le_of_ne (UInt16.not_lt.1 hgt) heq
      exact .inr (.inr ⟨hless, fun fuel => by rw [hstep, if_neg heq, if_neg hgt]⟩)

theorem pciVendorLoop_self :
    pciVendorLoop vs id (fuel + 1) start start = ⟨[], some none⟩ := if_pos rfl

/-- Whatever the table, only its entries are read. -/
theorem read_pciVendorLoop (hle : start ≤ max) (hmax : max ≤ vs.length) :
    ∀ i ∈ (pciVendorLoop vs id fuel start max).read, i < vs.length := by
  induction fuel generalizing start max with
  | zero => exact fun i hi => absurd hi List.not_mem_nil
  | succ fuel ih =>
    rcases Nat.eq_or_lt_of_le hle with rfl | hlt
    · rw [pciVendorLoop_self]
      exact fun i hi => absurd hi List.not_mem_nil
    · obtain ⟨guess, h, hstart, hend, -, ⟨-, hstep⟩ | ⟨-, hstep⟩ | ⟨-, hstep⟩⟩ :=
        pciVendorLoop_cases vs id hlt hmax
      · rw [hstep]
        exact List.forall_mem_singleton.2 h
      · rw [hstep]
        exact List.forall_mem_cons.2 ⟨h, ih hstart (Nat.le_of_lt h)⟩
      · rw [hstep]
        exact List.forall_mem_cons.2 ⟨h, ih (Nat.le_of_lt hend) hmax⟩

/-- An entry of the interval is found. -/
theorem result_of_mem (hs : SortedById vs) (hp : p < vs.length) (hid : vs[p].id = id)
    (hstart : start ≤ p) (hend : p < max) (hmax : max ≤ vs.length) :
    ∃ fuel, (pciVendorLoop vs id fuel start max).result = some (some p) := by
  induction hwidth : max - start using Nat.strong_induction_on generalizing start max with
  | _ width ih =>
    obtain ⟨guess, h, hle, hlt, hprogress, ⟨heq, hstep⟩ | ⟨hgt, hstep⟩ | ⟨hless, hstep⟩⟩ :=
      pciVendorLoop_cases vs id (Nat.lt_of_le_of_lt hstart hend) hmax
    · -- the ids are distinct
      obtain rfl : guess = p := hs.eq_of_id h hp (heq.trans hid.symm)
      exact ⟨1, by rw [hstep]⟩
    · have hp' : p < guess := (hs.lt_iff hp h).1 (hid ▸ hgt)
      obtain ⟨fuel, hfuel⟩ := ih (guess - start) (by omega) hstart hp' (Nat.le_of_lt h) rfl
      exact ⟨fuel + 1, by rw [hstep]; exact hfuel⟩
    · -- the interval has another entry, so the guess is behind its start
      have hp' : guess < p := (hs.lt_iff h hp).1 (hid ▸ hless)
      obtain ⟨fuel, hfuel⟩ := ih (max - guess) (by omega) (Nat.le_of_lt hp') hend hmax rfl
      exact ⟨fuel + 1, by rw [hstep]; exact hfuel⟩

/-- If all ids are greater, the interval becomes empty. -/
theorem result_of_lt (hsmall : ∀ v ∈ vs, id < v.id) (hmax : max ≤ vs.length) :
    ∃ fuel, (pciVendorLoop vs id fuel 0 max).result = some none := by
  induction max using Nat.strong_induction_on with
  | _ max ih =>
    rcases Nat.eq_zero_or_pos max with rfl | hpos
    · exact ⟨1, by rw [pciVendorLoop_self]⟩
    · obtain ⟨guess, h, -, hlt, -, ⟨heq, -⟩ | ⟨-, hstep⟩ | ⟨hless, -⟩⟩ :=
        pciVendorLoop_cases vs id hpos hmax
      · exact absurd (heq ▸ hsmall _ (List.getElem_mem h)) (UInt16.lt_irrefl _)
      · obtain ⟨fuel, hfuel⟩ := ih guess hlt (Nat.le_of_lt h)
        exact ⟨fuel + 1, by rw [hstep]; exact hfuel⟩
      · exact absurd hless (UInt16.lt_asymm (hsmall _ (List.getElem_mem h)))

/-- If the id is not in the table, and the interval starts with an entry that has a smaller one, the
search does not end. -/
theorem result_of_not_mem (hno : ∀ v ∈ vs, v.id ≠ id) (hlt : start < max)
    (hmax : max ≤ vs.length) (hstart : ∃ h : start < vs.length, vs[start].id < id) :
    (pciVendorLoop vs id fuel start max).result = none := by
  induction fuel generalizing start max with
  | zero => rfl
  | succ fuel ih =>
    obtain ⟨guess, h, hle, hend, -, ⟨heq, -⟩ | ⟨hgt, hstep⟩ | ⟨hless, hstep⟩⟩ :=
      pciVendorLoop_cases vs id hlt hmax
    · exact absurd heq (hno _ (List.getElem_mem h))
    · -- the first entry stays in the interval
      have hne : start ≠ guess := by
        obtain ⟨_, hless⟩ := hstart
        rintro rfl
        exact UInt16.lt_asymm hless hgt
      rw [hstep]
      exact ih (by omega) (Nat.le_of_lt h) hstart
    · rw [hstep]
      exact ih hend hmax ⟨h, hless⟩

/-- Only entries of the table are read.  In a sorted table the search is right exactly if the id is
in the table, or all ids of the table are greater. -/
theorem looksUp_iff (hs : SortedById vs) :
    (∀ fuel, ∀ i ∈ (pciVendorById vs id fuel).read, i < vs.length) ∧
      (LooksUp vs id ↔ (∃ v ∈ vs, v.id = id) ∨ ∀ v ∈ vs, id < v.id) := by
  have hinside : ∀ fuel, ∀ i ∈ (pciVendorById vs id fuel).read, i < vs.length := fun fuel =>
    read_pciVendorLoop (Nat.zero_le _) (Nat.le_refl _)
  refine ⟨hinside, fun h => ?_, fun h => ⟨hinside, ?_⟩⟩
  · obtain ⟨fuel, r, hr, -⟩ := h.result
    by_contra hnot
    obtain ⟨hno, hsmaller⟩ := not_or.1 hnot
    have hno : ∀ v ∈ vs, v.id ≠ id := fun v hv heq => hno ⟨v, hv, heq⟩
    obtain ⟨v, hv, hle⟩ : ∃ v ∈ vs, ¬ id < v.id := by
      by_contra hall
      exact hsmaller fun v hv => by_contra fun hle => hall ⟨v, hv, hle⟩
    obtain ⟨p, hp, rfl⟩ := List.getElem_of_mem hv
    have hless : vs[p].id < id := UInt16.lt_of_le_of_ne (UInt16.not_lt.1 hle) (hno _ hv)
    -- then the first entry has a smaller id, too
    have hpos : 0 < vs.length := Nat.lt_of_le_of_lt (Nat.zero_le p) hp
    have hfirst : vs[0].id < id := by
      rcases Nat.eq_zero_or_pos p with rfl | hp'
      · exact hless
      · exact UInt16.lt_trans ((hs.lt_iff hpos hp).2 hp') hless
    rw [pciVendorById, result_of_not_mem hno hpos (Nat.le_refl _) ⟨hpos, hfirst⟩] at hr
    cases hr
  · rcases h with ⟨v, hv, rfl⟩ | hsmall
    · obtain ⟨p, hp, rfl⟩ := List.getElem_of_mem hv
      obtain ⟨fuel, hfuel⟩ := result_of_mem hs hp rfl (Nat.zero_le p) hp (Nat.le_refl _)
      refine ⟨fuel, some p, hfuel, fun i => ⟨?_, fun hi => ?_⟩⟩
      · rintro ⟨⟩
        rw [List.getElem?_eq_getElem hp, Option.map_some]
      · obtain ⟨v, hv, heq⟩ := Option.map_eq_some_iff.1 hi
        obtain ⟨hlt, rfl⟩ := List.getElem?_eq_some_iff.1 hv
        rw [hs.eq_of_id hp hlt heq.symm]
    · obtain ⟨fuel, hfuel⟩ := result_of_lt hsmall (Nat.le_refl vs.length)
      refine ⟨fuel, none, hfuel,
        fun i => ⟨fun h => (Option.some_ne_none i h.symm).elim, fun hi => ?_⟩⟩
      obtain ⟨v, hv, heq⟩ := Option.map_eq_some_iff.1 hi
      exact absurd (heq ▸ hsmall v (List.mem_of_getElem? hv)) (UInt16.lt_irrefl _)

end Pci

/-- An id that is in the table, one in front of the table, and one between two of its ids. -/
def sampleVendors : List PciVendor := [⟨0x33, []⟩, ⟨0x3d, []⟩, ⟨0x70, []⟩]

theorem looksUp_sample : LooksUp sampleVendors 0x3d ∧ LooksUp sampleVendors 0x10 :=
  ⟨(looksUp_iff (by decide)).2.2 (.inl (by decide)),
    (looksUp_iff (by decide)).2.2 (.inr (by decide))⟩

theorem not_looksUp : ¬ ∀ (vs : List PciVendor) (id : UInt16), SortedById vs → LooksUp vs id := by
  intro h
  obtain ⟨fuel, r, hr, -⟩ := (h sampleVendors 0x40 (by decide)).result
  rw [pciVendorById, result_of_not_mem (by decide) (by decide) (Nat.le_refl _)
    ⟨by decide, by decide⟩] at hr
  cases hr

end Kernel

end Bluejay
