import Mathlib.Data.List.Nodup
import Mathlib.Logic.Function.Basic
import Mathlib.Tactic.SplitIfs
import Mathlib.Tactic.Tauto
import Mathlib.Data.Nat.Notation

/-!
# Doubly linked lists

The nodes are addresses, and the fields `next` and `prev` functions of them.

* `Linked next prev b ps a` : the nodes `ps` are linked in this order, with `b` before the first
  and `a` after the last of them.
* `linked_append` : a list is linked if its parts are, to each other.
* `Linked.retarget`, `Linked.rehead` : another node comes after the last, or before the first.
* `Linked.remove` : a node is taken out.

Of a singly linked list only the field `next` is left.

* `Forward next ps a` : the nodes `ps` follow each other, with `a` after the last of them.
* `Forward.snoc` : another node comes after the last one.
* `Forward.eq_of_length` : the nodes that follow a first one.
-/

namespace Bluejay

/-- The nodes `ps` are linked, between `b` and `a`. -/
def Linked (next prev : ℕ → ℕ) : ℕ → List ℕ → ℕ → Prop
  | _, [], _ => True
  | b, p :: ps, a => prev p = b ∧ next p = ps.headD a ∧ Linked next prev p ps a

section Linked

variable {next prev next' prev' : ℕ → ℕ} {ps qs : List ℕ} {a b p : ℕ}

theorem linked_append : Linked next prev b (ps ++ qs) a ↔
    Linked next prev b ps (qs.headD a) ∧ Linked next prev (ps.getLastD b) qs a := by
  induction ps generalizing b with
  | nil => simp [Linked]
  | cons p ps ih =>
    have hhead : (ps ++ qs).headD a = ps.headD (qs.headD a) := by cases ps <;> rfl
    have hlast : (p :: ps).getLastD b = ps.getLastD p := by cases ps <;> rfl
    rw [List.cons_append, Linked, Linked, ih, hhead, hlast]
    tauto

/-- The fields of other nodes do not matter. -/
theorem Linked.congr (h : Linked next prev b ps a) (hn : ∀ p ∈ ps, next' p = next p)
    (hp : ∀ p ∈ ps, prev' p = prev p) : Linked next' prev' b ps a := by
  induction ps generalizing b with
  | nil => trivial
  | cons p ps ih =>
    obtain ⟨hb, ha, hrest⟩ := h
    exact ⟨(hp p List.mem_cons_self).trans hb, (hn p List.mem_cons_self).trans ha,
      ih hrest (fun q hq => hn q (List.mem_cons_of_mem _ hq))
        fun q hq => hp q (List.mem_cons_of_mem _ hq)⟩

theorem Linked.updateNext (h : Linked next prev b ps a) {q x : ℕ} (hq : q ∉ ps) :
    Linked (Function.update next q x) prev b ps a :=
  h.congr (fun _ hp => Function.update_of_ne (ne_of_mem_of_not_mem hp hq) _ _) fun _ _ => rfl

theorem Linked.updatePrev (h : Linked next prev b ps a) {q x : ℕ} (hq : q ∉ ps) :
    Linked next (Function.update prev q x) b ps a :=
  h.congr (fun _ _ => rfl) fun _ hp => Function.update_of_ne (ne_of_mem_of_not_mem hp hq) _ _

/-- Another node comes after the last one. -/
theorem Linked.retarget (h : Linked next prev b ps a) (hnd : ps.Nodup) (x : ℕ) :
    Linked (Function.update next (ps.getLastD 0) x) prev b ps x := by
  induction ps generalizing b with
  | nil => trivial
  | cons p ps ih =>
    obtain ⟨hb, ha, hrest⟩ := h
    obtain ⟨hp, hnd⟩ := List.nodup_cons.1 hnd
    cases ps with
    | nil => exact ⟨hb, Function.update_self _ _ _, trivial⟩
    | cons q ps =>
      have hlast : (p :: q :: ps).getLastD 0 = (q :: ps).getLastD 0 := rfl
      have hne : p ≠ (q :: ps).getLastD 0 := by
        rw [List.getLastD_cons]
        exact fun he => hp (he ▸ List.getLastD_mem_cons)
      rw [hlast]
      exact ⟨hb, by rw [Function.update_of_ne hne]; exact ha, ih hrest hnd⟩

/-- Another node comes before the first one. -/
theorem Linked.rehead (h : Linked next prev b ps a) (hnd : ps.Nodup) (x : ℕ) :
    Linked next (Function.update prev (ps.headD 0) x) x ps a := by
  cases ps with
  | nil => trivial
  | cons p ps =>
    obtain ⟨-, ha, hrest⟩ := h
    exact ⟨Function.update_self _ _ _, ha, hrest.updatePrev (List.nodup_cons.1 hnd).1⟩

theorem getLastD_mem (h : ps ≠ []) (d : ℕ) : ps.getLastD d ∈ ps := by
  cases ps with
  | nil => exact absurd rfl h
  | cons p ps =>
    rw [List.getLastD_cons]
    exact List.getLastD_mem_cons

theorem headD_mem (h : ps ≠ []) (d : ℕ) : ps.headD d ∈ ps := by
  cases ps with
  | nil => exact absurd rfl h
  | cons p ps => exact List.mem_cons_self

/-- The node after one of the nodes. -/
theorem Linked.next_mem (h : Linked next prev b ps a) (hp : p ∈ ps) : next p = a ∨ next p ∈ ps := by
  induction ps generalizing b with
  | nil => exact absurd hp List.not_mem_nil
  | cons q ps ih =>
    obtain ⟨-, ha, hrest⟩ := h
    rcases List.mem_cons.1 hp with rfl | hp
    · cases ps with
      | nil => exact .inl ha
      | cons q ps => exact .inr (by rw [ha]; exact List.mem_cons_of_mem _ List.mem_cons_self)
    · exact (ih hrest hp).imp_right (List.mem_cons_of_mem _)

/-- The node after the last one. -/
theorem Linked.next_getLast (h : Linked next prev b ps a) (hp : p ∈ ps.getLast?) : next p = a := by
  induction ps generalizing b with
  | nil => cases hp
  | cons q ps ih =>
    obtain ⟨-, ha, hrest⟩ := h
    cases ps with
    | nil =>
      obtain rfl : q = p := by simpa using hp
      exact ha
    | cons r ps =>
      rw [List.getLast?_cons_cons] at hp
      exact ih hrest hp

/-- The node `x` is taken out: its neighbours, where there are any, are linked to each other. -/
theorem Linked.remove {x : ℕ} (h : Linked next prev 0 (ps ++ x :: qs) 0)
    (hnd : (ps ++ x :: qs).Nodup) (h0 : 0 ∉ ps ++ x :: qs) :
    Linked (if prev x ≠ 0 then Function.update next (prev x) (next x) else next)
      (if next x ≠ 0 then Function.update prev (next x) (prev x) else prev) 0 (ps ++ qs) 0 := by
  obtain ⟨hps, hprev, hnext, hqs⟩ := linked_append.1 h
  obtain ⟨hndp, hndx, hdisj⟩ := List.nodup_append.1 hnd
  obtain ⟨-, hndq⟩ := List.nodup_cons.1 hndx
  rw [hprev, hnext]
  refine linked_append.2 ⟨?_, ?_⟩
  · by_cases hp : ps = []
    · subst hp
      trivial
    · have hlast : ps.getLastD 0 ∈ ps := getLastD_mem hp 0
      have hne : ps.getLastD 0 ≠ 0 := fun he => h0 (List.mem_append_left _ (he ▸ hlast))
      rw [if_pos hne]
      refine (hps.retarget hndp (qs.headD 0)).congr (fun _ _ => rfl) fun p hmem => ?_
      split_ifs with hq
      · refine Function.update_of_ne (hdisj p hmem _ (List.mem_cons_of_mem _ (headD_mem ?_ 0))) _ _
        rintro rfl
        exact hq rfl
      · rfl
  · by_cases hq : qs = []
    · subst hq
      trivial
    · have hhead : qs.headD 0 ∈ qs := headD_mem hq 0
      have hne : qs.headD 0 ≠ 0 := fun he =>
        h0 (List.mem_append_right _ (List.mem_cons_of_mem x (he ▸ hhead)))
      rw [if_pos hne]
      refine (hqs.rehead hndq (ps.getLastD 0)).congr (fun q hmem => ?_) fun _ _ => rfl
      split_ifs with hp
      · refine Function.update_of_ne (fun heq => ?_) _ _
        have hne' : ps ≠ [] := by
          rintro rfl
          exact hp rfl
        exact hdisj _ (getLastD_mem hne' 0) q (List.mem_cons_of_mem _ hmem) heq.symm
      · rfl

end Linked

/-- Each of the nodes `ps` leads to the next one, and the last one to `a`. -/
def Forward (next : ℕ → ℕ) : List ℕ → ℕ → Prop
  | [], _ => True
  | p :: ps, a => next p = ps.headD a ∧ Forward next ps a

section Forward

variable {next next' : ℕ → ℕ} {ps qs : List ℕ} {a b p : ℕ}

theorem Forward.congr (h : Forward next ps a) (hn : ∀ p ∈ ps, next' p = next p) :
    Forward next' ps a := by
  induction ps with
  | nil => trivial
  | cons p ps ih =>
    exact ⟨(hn p List.mem_cons_self).trans h.1, ih h.2 fun q hq => hn q (List.mem_cons_of_mem _ hq)⟩

/-- The node after the last one. -/
theorem Forward.next_getLastD (h : Forward next ps a) (hps : ps ≠ []) :
    next (ps.getLastD 0) = a := by
  induction ps with
  | nil => exact absurd rfl hps
  | cons p ps ih =>
    cases ps with
    | nil => exact h.1
    | cons q ps => exact ih h.2 (List.cons_ne_nil q ps)

/-- The node after one of the nodes. -/
theorem Forward.next_mem (h : Forward next ps a) (hp : p ∈ ps) : next p = a ∨ next p ∈ ps := by
  induction ps with
  | nil => exact absurd hp List.not_mem_nil
  | cons q ps ih =>
    rcases List.mem_cons.1 hp with rfl | hp
    · cases ps with
      | nil => exact .inl h.1
      | cons q ps => exact .inr (h.1 ▸ List.mem_cons_of_mem _ List.mem_cons_self)
    · exact (ih h.2 hp).imp_right (List.mem_cons_of_mem _)

/-- The last node leads to another one, which comes after it. -/
theorem Forward.snoc (h : Forward next ps a) (hnd : ps.Nodup) (hp : p ∉ ps) :
    Forward (Function.update next (ps.getLastD p) p) (ps ++ [p])
      (Function.update next (ps.getLastD p) p p) := by
  induction ps generalizing a with
  | nil => exact ⟨rfl, trivial⟩
  | cons q ps ih =>
    obtain ⟨hq, hnd⟩ := List.nodup_cons.1 hnd
    obtain ⟨hpq, hp⟩ := not_or.1 (mt List.mem_cons.2 hp)
    cases ps with
    | nil => exact ⟨Function.update_self _ _ _, rfl, trivial⟩
    | cons r ps =>
      have hlast : (q :: r :: ps).getLastD p = (r :: ps).getLastD p := rfl
      have hne : q ≠ (r :: ps).getLastD p := fun heq =>
        hq (heq ▸ getLastD_mem (List.cons_ne_nil r ps) p)
      rw [hlast]
      exact ⟨by rw [Function.update_of_ne hne]; exact h.1, ih h.2 hnd hp⟩

/-- Lists of the same length with the same first node are the same. -/
theorem Forward.eq_of_length (h : Forward next ps a) (h' : Forward next qs b)
    (hlen : ps.length = qs.length) (hhead : ps.headD 0 = qs.headD 0) : ps = qs := by
  induction ps generalizing qs with
  | nil => exact (List.eq_nil_of_length_eq_zero hlen.symm).symm
  | cons p ps ih =>
    obtain ⟨q, qs, rfl⟩ := List.exists_cons_of_length_eq_add_one hlen.symm
    obtain rfl : p = q := hhead
    have hlen' : ps.length = qs.length := by simpa using hlen
    refine congrArg (p :: ·) (ih h.2 h'.2 hlen' ?_)
    cases ps with
    | nil =>
      rw [List.eq_nil_of_length_eq_zero hlen'.symm]
    | cons r ps =>
      obtain ⟨s, qs, rfl⟩ := List.exists_cons_of_length_eq_add_one hlen'.symm
      exact h.1.symm.trans h'.1

/-- A list that starts among nodes that lead only to each other does not end. -/
theorem Forward.not_closed {S : ℕ → Prop} (h : Forward next ps 0) (hzero : ¬ S 0)
    (hclosed : ∀ p, S p → S (next p)) (hhead : S (ps.headD 0)) : False := by
  induction ps with
  | nil => exact hzero hhead
  | cons p ps ih => exact ih h.2 (h.1 ▸ hclosed p hhead)

end Forward

end Bluejay
