import Mathlib.Data.Finset.Lattice.Fold
import Mathlib.Data.Finset.SDiff
import Bluejay.Lisp.Compiler
import Bluejay.Lisp.Lists
import Mathlib.Order.Lattice.Nat

/-!
# Values as trees

A value without class instances that is not cyclic is a tree, wherever its parts lie in the heap.

* `Sexp` : such trees; `Represents H v e` : in the heap `H`, the value `v` is `e`.
* `Sexp.write` : lay out `e` in memory, from a given address on; `represents_write`.
* `Runtime.inert` : a `Runtime` for forms that run nothing while they are compiled.
-/

namespace Bluejay

namespace Lisp

/-- A value as a tree.  The captured values of a closure are a list, linked by `cons`. -/
inductive Sexp
  | atom (w : Word)
  | symbol (chars : String)
  | string (chars : String)
  | cons (car cdr : Sexp)
  | closure (args : Args) (function : CodePtr) (data : Sexp)
  deriving DecidableEq

namespace Sexp

/-- A proper list. -/
def list : List Sexp → Sexp
  | [] => .atom nil
  | e :: es => .cons e (list es)

def int (i : ℤ) : Sexp := .atom (intval i)

end Sexp

mutual

/-- The value `v` is the tree `e`. -/
def Represents (H : Heap) (v : Word) : Sexp → Prop
  | .atom w => v = w ∧ (integerp v ∨ v = nil)
  | .symbol s => symbolp v ∧ H.obj (pointer v) = some (.text s)
  | .string s => stringp v ∧ H.obj (pointer v) = some (.text s)
  | .cons a d => consp v ∧ ∃ x y, H.obj (pointer v) = some (.cons x y) ∧ Represents H x a ∧
      Represents H y d
  | .closure args f d => closurep v ∧ ∃ data, H.obj (pointer v) = some (.closure args f data) ∧
      RepresentsAll H data d

/-- The values `vs` are the members of the list `e`. -/
def RepresentsAll (H : Heap) (vs : List Word) : Sexp → Prop
  | .atom w => vs = [] ∧ w = nil
  | .cons a d => ∃ x xs, vs = x :: xs ∧ Represents H x a ∧ RepresentsAll H xs d
  | _ => False

end

/-! ### Growing heaps -/

mutual

theorem represents_extends {H H' : Heap} (h : H.Extends H') : ∀ (e : Sexp) {v : Word},
    Represents H v e → Represents H' v e
  | .atom _, _, hv => hv
  | .symbol _, _, hv => ⟨hv.1, h _ _ hv.2⟩
  | .string _, _, hv => ⟨hv.1, h _ _ hv.2⟩
  | .cons a d, _, ⟨hc, x, y, ho, hx, hy⟩ =>
    ⟨hc, x, y, h _ _ ho, represents_extends h a hx, represents_extends h d hy⟩
  | .closure _ _ d, _, ⟨hc, data, ho, hd⟩ => ⟨hc, data, h _ _ ho, representsAll_extends h d hd⟩

theorem representsAll_extends {H H' : Heap} (h : H.Extends H') : ∀ (e : Sexp) {vs : List Word},
    RepresentsAll H vs e → RepresentsAll H' vs e
  | .atom _, _, hv => hv
  | .cons a d, _, ⟨x, xs, hvs, hx, hxs⟩ =>
    ⟨x, xs, hvs, represents_extends h a hx, representsAll_extends h d hxs⟩

end

/-- The objects that are not at the addresses `S`. -/
def Heap.except (H : Heap) (S : Finset ℕ) : Heap where
  obj p := if p ∈ S then none else H.obj p
  dom := H.dom \ S
  mem_dom p := by
    by_cases hp : p ∈ S
    · simp [hp]
    · simp [hp, H.mem_dom]

theorem Heap.except_extends {H H' : Heap} {S T : Finset ℕ} (hST : T ⊆ S)
    (h : ∀ p o, p ∉ S → H.obj p = some o → H'.obj p = some o) :
    (H.except S).Extends (H'.except T) := by
  intro p o hp
  simp only [Heap.except, Option.ite_none_left_eq_some] at hp ⊢
  exact ⟨fun hT => hp.1 (hST hT), h p o hp.1 hp.2⟩

/-! ### Layout -/

mutual

/-- Lay out a tree from the address `p` on: the value, the next free address, and the objects. -/
def Sexp.write : Sexp → ℕ → Word × ℕ × List (ℕ × Obj)
  | .atom w, p => (w, p, [])
  | .symbol s, p => (p + symbolTag, p + 8, [(p, .text s)])
  | .string s, p => (p + stringTag, p + 8, [(p, .text s)])
  | .cons a d, p =>
    let (x, q, l) := a.write p
    let (y, r, l') := d.write q
    (r + consTag, r + 8, (r, .cons x y) :: (l ++ l'))
  | .closure args f d, p =>
    let (xs, q, l) := d.writeAll p
    (q + closureTag, q + 8, (q, .closure args f xs) :: l)

/-- Lay out the members of a list. -/
def Sexp.writeAll : Sexp → ℕ → List Word × ℕ × List (ℕ × Obj)
  | .cons a d, p =>
    let (x, q, l) := a.write p
    let (xs, r, l') := d.writeAll q
    (x :: xs, r, l ++ l')
  | _, p => ([], p, [])

end

mutual

/-- The atoms of the tree are integers or `nil`, and captured values are proper lists. -/
def Sexp.Valid : Sexp → Prop
  | .atom w => integerp w ∨ w = nil
  | .symbol _ | .string _ => True
  | .cons a d => a.Valid ∧ d.Valid
  | .closure _ _ d => d.ValidAll

def Sexp.ValidAll : Sexp → Prop
  | .atom w => w = nil
  | .cons a d => a.Valid ∧ d.ValidAll
  | _ => False

end

/-- The objects `l` lie at different addresses from `p` up to `q`. -/
def Between (p q : ℕ) (l : List (ℕ × Obj)) : Prop :=
  p ≤ q ∧ q % 8 = p % 8 ∧ (l.map Prod.fst).Nodup ∧ ∀ x ∈ l, p ≤ x.1 ∧ x.1 < q

theorem Between.append {p q r : ℕ} {l l' : List (ℕ × Obj)} (h : Between p q l)
    (h' : Between q r l') : Between p r (l ++ l') := by
  obtain ⟨hpq, hmod, hnd, hmem⟩ := h
  obtain ⟨hqr, hmod', hnd', hmem'⟩ := h'
  refine ⟨hpq.trans hqr, hmod'.trans hmod, ?_, fun x hx => ?_⟩
  · rw [List.map_append, List.nodup_append]
    refine ⟨hnd, hnd', ?_⟩
    simp only [List.mem_map, forall_exists_index, and_imp, forall_apply_eq_imp_iff₂]
    intro x hx y hy heq
    have h₁ := (hmem x hx).2
    have h₂ := (hmem' y hy).1
    omega
  · rcases List.mem_append.1 hx with hx | hx
    · exact ⟨(hmem x hx).1, (hmem x hx).2.trans_le hqr⟩
    · exact ⟨hpq.trans (hmem' x hx).1, (hmem' x hx).2⟩

theorem Between.cons {p q : ℕ} {l : List (ℕ × Obj)} (h : Between p q l) (o : Obj) :
    Between p (q + 8) ((q, o) :: l) := by
  obtain ⟨hpq, hmod, hnd, hmem⟩ := h
  refine ⟨by omega, by omega, ?_, ?_⟩
  · rw [List.map_cons, List.nodup_cons]
    refine ⟨fun hq => ?_, hnd⟩
    obtain ⟨x, hx, rfl⟩ := List.mem_map.1 hq
    exact absurd (hmem x hx).2 (lt_irrefl _)
  · simp only [List.forall_mem_cons]
    exact ⟨by omega, fun x hx => ⟨(hmem x hx).1, by have := (hmem x hx).2; omega⟩⟩

theorem Between.nil (p : ℕ) : Between p p [] := ⟨le_rfl, rfl, List.nodup_nil, by simp⟩

mutual

theorem between_write : ∀ (e : Sexp) (p : ℕ), Between p (e.write p).2.1 (e.write p).2.2
  | .atom _, p => .nil p
  | .symbol _, p => (Between.nil p).cons _
  | .string _, p => (Between.nil p).cons _
  | .cons a d, p => ((between_write a p).append (between_write d _)).cons _
  | .closure _ _ d, p => (between_writeAll d p).cons _

theorem between_writeAll : ∀ (e : Sexp) (p : ℕ), Between p (e.writeAll p).2.1 (e.writeAll p).2.2
  | .cons a d, p => (between_write a p).append (between_writeAll d _)
  | .atom _, p => .nil p
  | .symbol _, p => .nil p
  | .string _, p => .nil p
  | .closure _ _ _, p => .nil p

end

/-- The objects `l` are in the heap. -/
def Heap.Holds (H : Heap) (l : List (ℕ × Obj)) : Prop := ∀ x ∈ l, H.obj x.1 = some x.2

theorem Heap.holds_ofList {l : List (ℕ × Obj)} (h : (l.map Prod.fst).Nodup) :
    (Heap.ofList l).Holds l := by
  intro x hx
  obtain ⟨l₁, l₂, rfl⟩ := List.append_of_mem hx
  refine List.lookup_eq_some_iff.2 ⟨l₁, l₂, rfl, fun y hy => ?_⟩
  rw [List.map_append, List.nodup_append] at h
  have hne := h.2.2 y.1 (List.mem_map_of_mem hy) x.1 (by simp)
  simpa using Ne.symm hne

theorem tag_add {p k : ℕ} (hp : p % 8 = 0) (hk : k < 8) :
    tag (p + k) = k ∧ pointer (p + k) = p := by
  simp only [tag, pointer]
  omega

mutual

theorem represents_write {H : Heap} : ∀ (e : Sexp) (p : ℕ), p % 8 = 0 → e.Valid →
    H.Holds (e.write p).2.2 → Represents H (e.write p).1 e
  | .atom _, _, _, he, _ => ⟨rfl, he⟩
  | .symbol s, p, hp, _, hH => by
    obtain ⟨ht, hq⟩ := tag_add (k := symbolTag) hp (by decide)
    refine ⟨by simp [symbolp, Sexp.write, ht], ?_⟩
    simp only [Sexp.write, hq]
    exact hH (p, _) List.mem_cons_self
  | .string s, p, hp, _, hH => by
    obtain ⟨ht, hq⟩ := tag_add (k := stringTag) hp (by decide)
    refine ⟨by simp [stringp, Sexp.write, ht], ?_⟩
    simp only [Sexp.write, hq]
    exact hH (p, _) List.mem_cons_self
  | .cons a d, p, hp, he, hH => by
    have ha := (between_write a p).2.1
    have hd := (between_write d (a.write p).2.1).2.1
    obtain ⟨ht, hq⟩ := tag_add (p := (d.write (a.write p).2.1).2.1) (k := consTag) (by omega)
      (by decide)
    refine ⟨by simp [consp, Sexp.write, ht], _, _, ?_,
      represents_write a p hp he.1 fun x hx => hH x (by simp [Sexp.write, hx]),
      represents_write d (a.write p).2.1 (by omega) he.2
        fun x hx => hH x (by simp [Sexp.write, hx])⟩
    simp only [Sexp.write, hq]
    exact hH (_, _) List.mem_cons_self
  | .closure args f d, p, hp, he, hH => by
    have hd := (between_writeAll d p).2.1
    obtain ⟨ht, hq⟩ := tag_add (p := (d.writeAll p).2.1) (k := closureTag) (by omega) (by decide)
    refine ⟨by simp [closurep, Sexp.write, ht], _, ?_,
      representsAll_writeAll d p hp he fun x hx => hH x (by simp [Sexp.write, hx])⟩
    simp only [Sexp.write, hq]
    exact hH (_, _) List.mem_cons_self

theorem representsAll_writeAll {H : Heap} : ∀ (e : Sexp) (p : ℕ), p % 8 = 0 → e.ValidAll →
    H.Holds (e.writeAll p).2.2 → RepresentsAll H (e.writeAll p).1 e
  | .cons a d, p, hp, he, hH => by
    have ha := (between_write a p).2.1
    exact ⟨_, _, rfl, represents_write a p hp he.1 fun x hx => hH x (by simp [Sexp.writeAll, hx]),
      representsAll_writeAll d (a.write p).2.1 (by omega) he.2
        fun x hx => hH x (by simp [Sexp.writeAll, hx])⟩
  | .atom _, _, _, he, _ => ⟨rfl, he⟩

end

/-- A heap that holds the tree and nothing else, from the address 16 on, and the value. -/
def Sexp.heap (e : Sexp) : Heap × Word := (Heap.ofList (e.write 16).2.2, (e.write 16).1)

theorem represents_heap {e : Sexp} (he : e.Valid) : Represents e.heap.1 e.heap.2 e :=
  represents_write e 16 rfl he (Heap.holds_ofList (between_write e 16).2.2.1)

/-! ### Forms that run nothing -/

/-- Addresses are handed out in increasing order, and no code returns. -/
def Runtime.inert : Runtime where
  malloc H := 8 * (H.dom.sup id + 1)
  fresh H h := by
    have hle : id (8 * (H.dom.sup id + 1)) ≤ H.dom.sup id := Finset.le_sup h
    simp only [id] at hle
    omega
  aligned H := by omega
  callList _ _ _ := none
  run _ _ := none

/-- The form is in memory, in the pool 1, which is the current one. -/
def Sexp.state (e : Sexp) : State := ⟨⟨e.heap.1, fun _ => 1, 1, [], []⟩, [], []⟩

end Lisp

end Bluejay
