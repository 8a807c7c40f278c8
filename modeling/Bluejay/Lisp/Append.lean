import Bluejay.Lisp.Apply

/-!
# `append`

* `lAppend` : `l_append`.
* `Operands H as xss` : the values `as` are proper lists of the values `xss`, or atoms.
* `Concatenated` : the result is a new list of all the values, in order, and no object is changed.
* `concatenates_iff` : the pointer to the end of the list is only set behind an element of a list;
  so this holds exactly if the first item other than `nil` is not an atom.
-/

namespace Bluejay

namespace Lisp

/-! ### `l_append` -/

/-- `new = cons(b, nil); *last = new; last = cdrref(new)`, for the variables `first` and `last`. -/
def appendCell (R : Runtime) (b first : Word) (last : ListEnd) (w : World) :
    Option (Word × ListEnd × World) := do
  let (new, w) := w.allocate R (.cons b nil) consTag
  let (first, w) ← last.assign new first w
  return (first, cdrref new, w)

/-- An element of an item that is a list. -/
def appendElement (R : Runtime) (b first : Word) (last : ListEnd) (w : World) :
    Option (Word × ListEnd × World) :=
  match last with
  | .null =>
    let (first, w) := w.allocate R (.cons b nil) consTag
    some (first, cdrref first, w)
  | last => appendCell R b first last w

/-- The inner loop, for at most `n` turns. -/
def appendElements (R : Runtime) : ℕ → Word → Word → ListEnd → World →
    Option (Word × ListEnd × World)
  | 0, _, _, _, _ => none
  | n + 1, i, first, last, w =>
    if nilp i then some (first, last, w)
    else do
      let (first, last, w) ← appendElement R (w.heap.car i) first last w
      appendElements R n (w.heap.cdr i) first last w

/-- One item. -/
def appendItem (R : Runtime) (turns : ℕ) (a first : Word) (last : ListEnd) (w : World) :
    Option (Word × ListEnd × World) := do
  if !(← w.heap.listp a) then appendCell R a first last w
  else appendElements R turns a first last w

/-- The outer loop, for at most `n` turns. -/
def appendItems (R : Runtime) (turns : ℕ) : ℕ → Word → Word → ListEnd → World →
    Option (Word × World)
  | 0, _, _, _, _ => none
  | n + 1, item, first, last, w =>
    if nilp item then some (first, w)
    else do
      let (first, last, w) ← appendItem R turns (w.heap.car item) first last w
      appendItems R turns n (w.heap.cdr item) first last w

/-- `l_append`, for at most `n` turns of each loop. -/
def lAppend (R : Runtime) (n : ℕ) (l : Word) (w : World) : Option (Word × World) :=
  if nilp l then some (l, w) else appendItems R n n l nil .null w

/-! ### Concatenation -/

/-- The value is neither a cell nor `nil`. -/
def atom (v : Word) : Bool := !consp v && !nilp v

/-- The item `a` contributes the values `xs`. -/
inductive Operand (H : Heap) (a : Word) : List Word → Prop
  | list {xs : List Word} (h : ListOf H a xs) : Operand H a xs
  | atom (h : atom a = true) : Operand H a [a]

/-- The items contribute the values `xss`. -/
abbrev Operands (H : Heap) : List Word → List (List Word) → Prop := List.Forall₂ (Operand H)

/-- The value `v` of `w'` is a new list of the values `xs`, and the objects of `w` are unchanged. -/
structure Concatenated (w w' : World) (v : Word) (xs : List Word) : Prop where
  list : ListOf w'.heap v xs
  fresh : ∀ k < xs.length, pointer (w'.heap.nthCdr k v) ∉ w.heap.dom
  keeps : w.heap.Extends w'.heap

/-- `l_append` returns the concatenation. -/
def Concatenates (R : Runtime) (w : World) (l : Word) (xss : List (List Word)) : Prop :=
  ∃ N, ∀ n ≥ N, ∃ v w', lAppend R n l w = some (v, w') ∧ Concatenated w w' v xss.flatten

/-- Behind any number of items that are `nil` there is an atom. -/
def LeadingAtom : List Word → Prop
  | [] => False
  | a :: as => atom a = true ∨ a = nil ∧ LeadingAtom as

/-- The pointer `last`, when the cells `l` are there. -/
def lastOf (l : List (Word × Word)) : ListEnd := if l = [] then .null else endOf l

section Append

variable {R : Runtime} {H K : Heap} {w : World} {l : List (Word × Word)} {a b i v : Word}
  {xs as : List Word} {xss : List (List Word)} {n turns : ℕ}

theorem ListOf.cdr_extends {G : Heap} (h : ListOf H v (a :: as)) (hG : H.Extends G) :
    G.cdr v = H.cdr v := by
  obtain ⟨hc, d, ho, -⟩ := h
  simp [Heap.cdr, hc, ho, hG _ _ ho]

theorem listp_of_atom (h : atom a = true) : H.listp a = some false := by
  simp only [atom, Bool.and_eq_true, Bool.not_eq_true'] at h
  simp [Heap.listp, Heap.cells, h.1, h.2]

/-- One cell more. -/
theorem appendCell_ok (h : NewCells K w.heap l nil) (hl : l ≠ []) : ∃ c w',
    appendCell R b (firstCell l nil) (lastOf l) w =
      some (firstCell (l ++ [(c, b)]) nil, lastOf (l ++ [(c, b)]), w') ∧
      NewCells K w'.heap (l ++ [(c, b)]) nil := by
  obtain ⟨c, w₁, w', hw₁, hassign, hcells, hend, -⟩ := h.append R b
  refine ⟨c, w', ?_, hcells⟩
  rw [appendCell, lastOf, if_neg hl, hw₁]
  simp only [hassign, hend, Option.bind_eq_bind, Option.bind_some]
  rw [lastOf, if_neg (by simp)]
  rfl

theorem lastOf_ne_null (hl : l ≠ []) : lastOf l ≠ .null := by
  obtain ⟨l, x, rfl⟩ := List.eq_nil_or_concat l |>.resolve_left hl
  rw [lastOf, if_neg hl, endOf, List.concat_eq_append, List.getLast?_concat]
  intro h
  cases h

theorem appendElement_ok (h : NewCells K w.heap l nil) : ∃ c w',
    appendElement R b (firstCell l nil) (lastOf l) w =
      some (firstCell (l ++ [(c, b)]) nil, lastOf (l ++ [(c, b)]), w') ∧
      NewCells K w'.heap (l ++ [(c, b)]) nil := by
  by_cases hl : l = []
  · subst hl
    obtain ⟨c, w₁, w', hw₁, hassign, hcells, hend, -⟩ := h.append R b
    obtain rfl : w₁ = w' := (Prod.ext_iff.1 (Option.some.inj hassign)).2
    refine ⟨c, w₁, ?_, hcells⟩
    have hlast : lastOf ([] : List (Word × Word)) = .null := rfl
    rw [hlast, appendElement, hw₁]
    simp only [hend]
    rw [lastOf, if_neg (by simp)]
    rfl
  · obtain ⟨c, w', hrun, hcells⟩ := appendCell_ok (R := R) (b := b) h hl
    refine ⟨c, w', ?_, hcells⟩
    rw [← hrun, appendElement]
    exact lastOf_ne_null hl

/-- The elements of an item are put behind the list. -/
theorem appendElements_ok (h : NewCells K w.heap l nil) (hi : ListOf K i xs) (hn : xs.length < n) :
    ∃ l' w', appendElements R n i (firstCell l nil) (lastOf l) w =
      some (firstCell (l ++ l') nil, lastOf (l ++ l'), w') ∧
      NewCells K w'.heap (l ++ l') nil ∧ l'.map Prod.snd = xs := by
  induction xs generalizing i n l w with
  | nil =>
    obtain rfl : i = nil := hi
    obtain ⟨n, rfl⟩ := Nat.exists_eq_succ_of_ne_zero (Nat.ne_zero_of_lt hn)
    exact ⟨[], w, by rw [List.append_nil]; rfl, by rwa [List.append_nil], rfl⟩
  | cons x xs ih =>
    obtain ⟨n, rfl⟩ := Nat.exists_eq_succ_of_ne_zero (Nat.ne_zero_of_lt hn)
    have hnil : ¬ nilp i = true := fun hnil => by simpa using hi.nilp_iff.1 hnil
    obtain ⟨c, w₁, hcell, hcells⟩ := appendElement_ok (R := R) (b := x) h
    obtain ⟨l', w', hrun, hcells', hvalues⟩ := ih hcells hi.cdr (Nat.lt_of_succ_lt_succ hn)
    refine ⟨(c, x) :: l', w', ?_, by rwa [List.append_assoc] at hcells', by simp [hvalues]⟩
    rw [appendElements, if_neg hnil, (hi.extends h.keeps).car, hcell]
    simp only [Option.bind_eq_bind, Option.bind_some, hi.cdr_extends hcells.keeps]
    rw [hrun, List.append_assoc]
    rfl

/-- The items are put behind the list, if it is not empty or no atom comes first. -/
theorem appendItems_ok (hxss : Operands K as xss) (h : NewCells K w.heap l nil)
    (hi : ListOf K i as) (hn : as.length < n) (hturns : ∀ xs ∈ xss, xs.length < turns)
    (hno : l = [] → ¬ LeadingAtom as) :
    ∃ l' w', appendItems R turns n i (firstCell l nil) (lastOf l) w =
      some (firstCell (l ++ l') nil, w') ∧
      NewCells K w'.heap (l ++ l') nil ∧ l'.map Prod.snd = xss.flatten := by
  induction hxss generalizing i n l w with
  | nil =>
    obtain rfl : i = nil := hi
    obtain ⟨n, rfl⟩ := Nat.exists_eq_succ_of_ne_zero (Nat.ne_zero_of_lt hn)
    exact ⟨[], w, by rw [List.append_nil]; rfl, by rwa [List.append_nil], rfl⟩
  | @cons a xs as xss ha hxss ih =>
    obtain ⟨n, rfl⟩ := Nat.exists_eq_succ_of_ne_zero (Nat.ne_zero_of_lt hn)
    obtain ⟨hxs, hturns⟩ := List.forall_mem_cons.1 hturns
    have hnil : ¬ nilp i = true := fun hnil => by simpa using hi.nilp_iff.1 hnil
    have hcar := (hi.extends h.keeps).car
    -- the item itself
    obtain ⟨l₁, w₁, hrun, hcells, hvalues, hnext⟩ : ∃ l₁ w₁,
        appendItem R turns a (firstCell l nil) (lastOf l) w =
          some (firstCell (l ++ l₁) nil, lastOf (l ++ l₁), w₁) ∧
        NewCells K w₁.heap (l ++ l₁) nil ∧ l₁.map Prod.snd = xs ∧
        (l ++ l₁ = [] → ¬ LeadingAtom as) := by
      cases ha with
      | list hlist =>
        obtain ⟨l₁, w₁, hrun, hcells, hvalues⟩ := appendElements_ok (R := R) h hlist hxs
        refine ⟨l₁, w₁, ?_, hcells, hvalues, fun hempty hlead => ?_⟩
        · rw [appendItem, (hlist.extends h.keeps).listp]
          exact hrun
        · obtain ⟨rfl, rfl⟩ := List.append_eq_nil_iff.1 hempty
          obtain rfl : xs = [] := hvalues.symm
          exact hno rfl (.inr ⟨hlist, hlead⟩)
      | atom hatom =>
        have hl : l ≠ [] := fun hl => hno hl (.inl hatom)
        obtain ⟨c, w₁, hrun, hcells⟩ := appendCell_ok (R := R) (b := a) h hl
        refine ⟨[(c, a)], w₁, ?_, hcells, rfl, fun hempty => ?_⟩
        · rw [appendItem, listp_of_atom hatom]
          exact hrun
        · exact absurd (List.append_eq_nil_iff.1 hempty).1 hl
    obtain ⟨l₂, w', hrest, hcells', hvalues'⟩ := ih hcells hi.cdr (Nat.lt_of_succ_lt_succ hn)
      hturns hnext
    refine ⟨l₁ ++ l₂, w', ?_, by rwa [List.append_assoc] at hcells', by simp [hvalues, hvalues']⟩
    rw [appendItems, if_neg hnil, hcar, hrun]
    simp only [Option.bind_eq_bind, Option.bind_some]
    rw [hi.cdr_extends hcells.keeps, hrest, List.append_assoc]

/-- An atom comes first, and `last` is `NULL`. -/
theorem appendItems_null (hxss : Operands K as xss) (hK : K.Extends w.heap) (hi : ListOf K i as)
    (hlead : LeadingAtom as) (first : Word) : appendItems R turns n i first .null w = none := by
  induction hxss generalizing i n with
  | nil => exact absurd hlead id
  | @cons a xs as xss ha hxss ih =>
    cases n with
    | zero => rfl
    | succ n =>
      have hnil : ¬ nilp i = true := fun hnil => by simpa using hi.nilp_iff.1 hnil
      rw [appendItems, if_neg hnil, (hi.extends hK).car]
      rcases hlead with hatom | ⟨rfl, hlead⟩
      · rw [appendItem, listp_of_atom hatom]
        rfl
      · have hnil : ListOf w.heap nil [] := rfl
        have hlistp : w.heap.listp nil = some true := hnil.listp
        rw [appendItem, hlistp]
        cases turns with
        | zero => rfl
        | succ turns =>
          have hrest := ih (n := n) hi.cdr hlead
          rw [← hi.cdr_extends hK] at hrest
          exact hrest

theorem lAppend_eq (R : Runtime) (n : ℕ) (i : Word) (w : World) :
    lAppend R (n + 1) i w = appendItems R (n + 1) (n + 1) i nil .null w := by
  rw [lAppend, appendItems]
  split_ifs with hnil
  · rw [show i = nil from of_decide_eq_true hnil]
  · rfl

/-- **`append` is concatenation exactly if** the first item other than `nil` is not an atom. -/
theorem concatenates_iff (R : Runtime) (hi : ListOf w.heap i as) (hxss : Operands w.heap as xss) :
    Concatenates R w i xss ↔ ¬ LeadingAtom as := by
  constructor
  · rintro ⟨N, hN⟩ hlead
    obtain ⟨v, w', hrun, -⟩ := hN (N + 1) (Nat.le_succ N)
    rw [lAppend_eq, appendItems_null hxss (.refl _) hi hlead] at hrun
    cases hrun
  · intro hno
    refine ⟨as.length + xss.flatten.length + 1, fun n hn => ?_⟩
    obtain ⟨n, rfl⟩ := Nat.exists_eq_succ_of_ne_zero (Nat.ne_zero_of_lt hn)
    have hturns : ∀ xs ∈ xss, xs.length < n + 1 := fun xs hxs => by
      have hle := (List.sublist_flatten_of_mem hxs).length_le
      omega
    have hcells : NewCells w.heap w.heap [] nil := ⟨trivial, List.nodup_nil, nofun, .refl _⟩
    have hlen : as.length < n + 1 := by omega
    obtain ⟨l, w', hrun, hcells, hvalues⟩ := appendItems_ok (R := R) hxss hcells hi hlen hturns
      fun _ => hno
    rw [List.nil_append] at hrun hcells
    refine ⟨firstCell l nil, w', by rw [lAppend_eq]; exact hrun, hvalues ▸ hcells.cells.listOf,
      fun k hk => ?_, hcells.keeps⟩
    -- the cell in question is one of the new ones
    rw [← hvalues, List.length_map] at hk
    have hsplit := List.take_append_drop k l
    have hnth := hcells.cells
    rw [← hsplit] at hnth
    have hcell := hnth.nthCdr
    rw [hsplit, List.length_take, Nat.min_eq_left hk.le, List.drop_eq_getElem_cons hk] at hcell
    rw [hcell]
    exact hcells.new _ (List.getElem_mem hk)

/-- The argument list `((5))`. -/
def nestedFive : World := ⟨.ofList [(16, .cons 20 nil), (32, .cons 17 nil)], fun _ => 0, 0, [], []⟩

/-- `(append '(5))` -/
theorem concatenates_five : Concatenates .inert nestedFive 33 [[20]] := by
  have hi : ListOf nestedFive.heap 33 [17] := ⟨by decide, nil, by decide, rfl⟩
  have hitem : ListOf nestedFive.heap 17 [20] := ⟨by decide, nil, by decide, rfl⟩
  refine (concatenates_iff .inert hi (.cons (.list hitem) .nil)).2 fun hlead => ?_
  rcases hlead with h | ⟨h, -⟩ <;> exact absurd h (by decide)

/-- **`(append 5)`** writes through a null pointer. -/
theorem not_concatenates : ¬ ∀ (R : Runtime) (w : World) (i : Word) (as : List Word)
    (xss : List (List Word)), ListOf w.heap i as → Operands w.heap as xss →
      Concatenates R w i xss := by
  intro h
  have hi : ListOf fiveWorld.heap 17 [20] := ⟨by decide, nil, by decide, rfl⟩
  have hitems : Operands fiveWorld.heap [20] [[20]] := .cons (.atom (by decide)) .nil
  obtain ⟨N, hN⟩ := h .inert fiveWorld 17 [20] [[20]] hi hitems
  obtain ⟨v, w', hrun, -⟩ := hN (N + 1) (Nat.le_succ N)
  rw [lAppend_eq, appendItems_null hitems (.refl _) hi (.inl (by decide))] at hrun
  cases hrun

end Append

end Lisp

end Bluejay
