import Bluejay.Lisp.Copies

/-!
# Calls with a list of arguments

`apply` and macros are called with a list: `call_list_args` makes a copy of it that has one element
for each parameter, and `_call_list` puts the elements on the stack.

* `callListArgs` : `call_list_args`; `Entered` : what it enters the function with.
* `lApply`, `callList` : `l_apply` and `call_list`.
* `CellsTo H l e` : the cells and values of a list whose last `cdr` is `e`.
* `callListArgs_spec` : the words that the function finds, for any number of arguments.
* `Enforced` : what a call should come to.
* `enforced_iff` : a call is refused, or passes what the function expects, exactly if the number of
  arguments is acceptable, and there are less than `2 ^ 16` parameters besides the rest parameter,
  and the arguments are finite.
-/

namespace Bluejay

namespace Lisp

/-! ### `call_list_args` -/

/-- A pointer to the end of the list in the variable `list`. -/
inductive ListEnd
  | null
  /-- `&list`. -/
  | variable
  /-- `cdrref(cell)`. -/
  | cdr (cell : Word)

def cdrref (v : Word) : ListEnd := if consp v then .cdr v else .null

/-- `*val = v`; the variable and memory then. -/
def ListEnd.assign (val : ListEnd) (v : Word) (list : Word) (w : World) : Option (Word × World) :=
  match val with
  | .null => none
  | .variable => some (v, w)
  | .cdr cell => some (list, w.setCdr cell v)

/-- `for (i = list; !nilp(i); i = cdr(i)) val = cdrref(i)`, for at most `n` turns. -/
def lastCdrref (H : Heap) : ℕ → Word → ListEnd → Option ListEnd
  | 0, _, _ => none
  | n + 1, i, val => if nilp i then some val else lastCdrref H n (H.cdr i) (cdrref i)

/-- `cdr`, `n` times. -/
def Heap.nthCdr (H : Heap) : ℕ → Word → Word
  | 0, v => v
  | n + 1, v => nthCdr H n (H.cdr v)

/-- `cxdr`. -/
def cxdr (H : Heap) (v : Word) (index : ℕ) : Option Word := do
  if !(← H.listp v) || index ≥ (← H.length v) then return nil
  else return H.nthCdr index v

/-- `cxdrref(&v, index)`. -/
def cxdrref (H : Heap) (v : Word) (index : ℕ) : Option ListEnd := do
  if !(← H.listp v) || index ≥ (← H.length v) then return .null
  else
    match index with
    | 0 => return .variable
    | index + 1 => return cdrref (H.nthCdr index v)

/-- `args->optional_arguments[i].value`; `outside` is what memory in front of the array and behind
it reads as. -/
def Args.optionalValue (args : Args) (outside : ℤ → Word) (i : ℤ) : Word :=
  match i with
  | .ofNat k => (args.optionalArguments[k]?).elim (outside i) OptionalArgument.value
  | .negSucc _ => outside i

/-- The loop of `call_list_args` over the default arguments from `i` on, for `k` turns. -/
def appendDefaults (R : Runtime) (outside : ℤ → Word) (args : Args) :
    ℕ → ℤ → ListEnd → Word → World → Option (ListEnd × Word × World)
  | 0, _, val, list, w => some (val, list, w)
  | k + 1, i, val, list, w => do
    let (appended, w) := w.allocate R (.cons (args.optionalValue outside i) nil) consTag
    let (list, w) ← val.assign appended list w
    appendDefaults R outside args k (i + 1) (cdrref appended) list w

/-- The loop of `_call_list` with `ecx` in the register, which leaves it when the low half of `ecx`
is 0; the words from `esi` on, of which some may not have been written. -/
def spreadLoop (H : Heap) (list : Word) : ℕ → List (Option Word) → List (Option Word)
  | 0, words => words
  | ecx + 1, words =>
    let words := words.set ecx (some (H.elt list ecx))
    if ecx % 2 ^ 16 = 0 then words else spreadLoop H list ecx words

/-- What `_call_list` puts on the stack. -/
def spread (H : Heap) (list : Word) : Option (List (Option Word)) :=
  (H.length list).map fun ecx => spreadLoop H list ecx (List.replicate ecx none)

/-- A call of `code_ptr` by `_call_list`: the words behind the return address, those that were never
written left out; the closure that `edi` belongs to; and the indices at which
`optional_arguments` has been read. -/
structure Entered where
  codePtr : CodePtr
  words : List (Option Word)
  closure : Option Word
  indices : List ℤ

/-- `call_list_args`, up to the call. -/
def callListArgs (R : Runtime) (outside : ℤ → Word) (n : ℕ) (code_ptr : CodePtr) (args : Args)
    (list : Word) (closure : Option Word) (w : World) : Option (Entered × World) := do
  let (list, w) ← deepCopy R n list w
  let nargs ← w.heap.length list
  let val ← lastCdrref w.heap (w.heap.dom.card + 1) list .variable
  let total_required := args.numRequired + args.numOptional
  if nargs > total_required then
    let trailing ← cxdr w.heap list total_required
    let (last_item, w) := w.allocate R (.cons trailing nil) consTag
    let ref ← cxdrref w.heap list total_required
    let (list, w) ← ref.assign last_item list w
    return (⟨code_ptr, ← spread w.heap list, closure, []⟩, w)
  else
    let i : ℤ := nargs - args.numRequired
    let turns := (args.numOptional - i).toNat
    let (val, list, w) ← appendDefaults R outside args turns i val list w
    let (last, w) := w.allocate R (.cons nil nil) consTag
    let (list, w) ← val.assign last list w
    return (⟨code_ptr, ← spread w.heap list, closure,
      (List.range turns).map fun k : ℕ => i + k⟩, w)

/-- What becomes of a call: `l_apply` returns `nil`, or the function is entered. -/
inductive CallResult
  | refused
  | entered (e : Entered)

/-- `l_apply`. -/
def lApply (R : Runtime) (outside : ℤ → Word) (n : ℕ) (func args : Word) (w : World) :
    Option (CallResult × World) :=
  if !closurep func then some (.refused, w)
  else
    match w.heap.listp args, w.heap.obj (pointer func) with
    | some false, _ => some (.refused, w)
    | some true, some (.closure cargs f _) =>
      (callListArgs R outside n f cargs args (some func) w).map fun r => (.entered r.1, r.2)
    | _, _ => none

/-- `call_list`. -/
def callListOf (R : Runtime) (outside : ℤ → Word) (n : ℕ) (fun_ : Function) (list : Word)
    (w : World) : Option (CallResult × World) :=
  (callListArgs R outside n fun_.codePtr fun_.args list none w).map fun r => (.entered r.1, r.2)

/-! ### Lists as cells -/

/-- The first of the cells, or `e` if there are none. -/
def firstCell (l : List (Word × Word)) (e : Word) : Word := (l.head?).elim e Prod.fst

/-- The pairs are cells and their values, each cell leads to the next one and the last to `e`. -/
def CellsTo (H : Heap) : List (Word × Word) → Word → Prop
  | [], _ => True
  | (c, v) :: l, e => consp c = true ∧ H.obj (pointer c) = some (.cons v (firstCell l e)) ∧
      CellsTo H l e

/-- A pointer to where the cells lead to. -/
def endOf (l : List (Word × Word)) : ListEnd := (l.getLast?).elim .variable fun c => .cdr c.1

section Cells

variable {H H' K : Heap} {l l₁ l₂ : List (Word × Word)} {c e v x : Word} {n : ℕ}

@[simp] theorem firstCell_nil (e : Word) : firstCell [] e = e := rfl

@[simp] theorem firstCell_cons (c v e : Word) (l : List (Word × Word)) :
    firstCell ((c, v) :: l) e = c := rfl

theorem firstCell_append (l₁ l₂ : List (Word × Word)) (e : Word) :
    firstCell (l₁ ++ l₂) e = firstCell l₁ (firstCell l₂ e) := by
  cases l₁ <;> rfl

theorem cellsTo_append :
    CellsTo H (l₁ ++ l₂) e ↔ CellsTo H l₁ (firstCell l₂ e) ∧ CellsTo H l₂ e := by
  induction l₁ with
  | nil => simp [CellsTo]
  | cons x l₁ ih =>
    rw [List.cons_append, CellsTo, CellsTo, ih, firstCell_append]
    tauto

theorem CellsTo.congr (h : CellsTo H l e)
    (hH : ∀ x ∈ l, ∀ o, H.obj (pointer x.1) = some o → H'.obj (pointer x.1) = some o) :
    CellsTo H' l e := by
  induction l with
  | nil => trivial
  | cons x l ih =>
    obtain ⟨hc, ho, hl⟩ := h
    exact ⟨hc, hH x List.mem_cons_self _ ho, ih hl fun y hy => hH y (List.mem_cons_of_mem _ hy)⟩

theorem CellsTo.listOf (h : CellsTo H l nil) : ListOf H (firstCell l nil) (l.map Prod.snd) := by
  induction l with
  | nil => rfl
  | cons x l ih =>
    obtain ⟨hc, ho, hl⟩ := h
    exact ⟨hc, _, ho, ih hl⟩

theorem CellsTo.cdr (h : CellsTo H ((c, v) :: l) e) : H.cdr c = firstCell l e := by
  obtain ⟨hc, ho, -⟩ := h
  simp [Heap.cdr, hc, ho]

theorem CellsTo.nthCdr (h : CellsTo H (l₁ ++ l₂) e) :
    H.nthCdr l₁.length (firstCell (l₁ ++ l₂) e) = firstCell l₂ e := by
  induction l₁ with
  | nil => rfl
  | cons x l₁ ih =>
    have hcdr : H.cdr x.1 = firstCell (l₁ ++ l₂) e := h.cdr
    rw [List.length_cons, Heap.nthCdr]
    show H.nthCdr l₁.length (H.cdr x.1) = _
    rw [hcdr]
    exact ih h.2.2

/-- The loop finds the end of the list. -/
theorem CellsTo.lastCdrref (h : CellsTo H l nil) (hn : l.length < n) (val : ListEnd) :
    lastCdrref H n (firstCell l nil) val = some ((l.getLast?).elim val fun c => .cdr c.1) := by
  induction l generalizing n val with
  | nil =>
    obtain ⟨n, rfl⟩ := Nat.exists_eq_succ_of_ne_zero (Nat.ne_zero_of_lt hn)
    rfl
  | cons x l ih =>
    obtain ⟨n, rfl⟩ := Nat.exists_eq_succ_of_ne_zero (Nat.ne_zero_of_lt hn)
    obtain ⟨c, v⟩ := x
    have hcdr := h.cdr
    obtain ⟨hc, -, hl⟩ := h
    have hnil : nilp c = false := by
      refine decide_eq_false ?_
      rintro rfl
      cases hc
    rw [firstCell_cons, Lisp.lastCdrref, hnil, if_neg Bool.false_ne_true, hcdr,
      ih hl (Nat.lt_of_succ_lt_succ hn), cdrref, if_pos hc]
    cases l with
    | nil => rfl
    | cons y l => rw [List.getLast?_cons_cons]; rfl

end Cells

/-- The cells are not among the objects of `K`, which are there as they are. -/
structure NewCells (K H : Heap) (l : List (Word × Word)) (e : Word) : Prop where
  cells : CellsTo H l e
  nodup : (l.map fun x => pointer x.1).Nodup
  new : ∀ x ∈ l, pointer x.1 ∉ K.dom
  keeps : K.Extends H

section NewCells

variable {R : Runtime} {H K G : Heap} {l : List (Word × Word)} {c e v x : Word} {w : World}

theorem CellsTo.mem_dom (h : CellsTo H l e) : ∀ y ∈ l, pointer y.1 ∈ H.dom := by
  induction l with
  | nil => nofun
  | cons y l ih =>
    obtain ⟨-, ho, hl⟩ := h
    exact List.forall_mem_cons.2 ⟨(H.mem_dom _).1 (by rw [ho]; rfl), ih hl⟩

theorem NewCells.extends (h : NewCells K H l e) (hG : H.Extends G) : NewCells K G l e :=
  ⟨h.cells.congr fun _ _ o ho => hG _ o ho, h.nodup, h.new, h.keeps.trans hG⟩

/-- The end of the list is assigned to; other objects stay as they are. -/
theorem NewCells.assign (h : NewCells K w.heap l e) (x : Word) :
    ∃ w', (endOf l).assign x (firstCell l e) w = some (firstCell l x, w') ∧
      NewCells K w'.heap l x ∧
      ∀ p o, (∀ y ∈ l, p ≠ pointer y.1) → w.heap.obj p = some o → w'.heap.obj p = some o := by
  rcases List.eq_nil_or_concat l with rfl | ⟨l, ⟨c, u⟩, rfl⟩
  · exact ⟨w, rfl, ⟨trivial, h.nodup, h.new, h.keeps⟩, fun _ _ _ ho => ho⟩
  rw [List.concat_eq_append] at h ⊢
  obtain ⟨hfront, hc, ho, -⟩ := cellsTo_append.1 h.cells
  have hheap : (w.setCdr c x).heap = w.heap.set (pointer c) (.cons u x) := by
    simp [World.setCdr, Heap.car, hc, ho]
  have hset : ∀ p o, p ≠ pointer c → w.heap.obj p = some o →
      (w.setCdr c x).heap.obj p = some o := by
    intro p o hp h
    simpa [hheap, Heap.set, hp] using h
  have hlast : endOf (l ++ [(c, u)]) = .cdr c := by simp [endOf]
  have hfirst : firstCell (l ++ [(c, u)]) e = firstCell (l ++ [(c, u)]) x := by
    rw [firstCell_append, firstCell_append]
    rfl
  refine ⟨w.setCdr c x, by rw [hlast, hfirst]; rfl, ⟨?_, h.nodup, h.new, ?_⟩, fun p o hp h => ?_⟩
  · refine cellsTo_append.2 ⟨hfront.congr fun y hy o ho => hset _ o ?_ ho, hc, ?_, trivial⟩
    · -- the cells are different objects
      have hnodup := h.nodup
      rw [List.map_append, List.nodup_append'] at hnodup
      exact fun heq => hnodup.2.2 (List.mem_map_of_mem hy) (by simp [heq])
    · rw [hheap, obj_set]
      rfl
  · intro p o hp
    refine hset p o ?_ (h.keeps p o hp)
    rintro rfl
    exact h.new (c, u) (by simp) ((K.mem_dom _).1 (by rw [hp]; rfl))
  · exact hset p o (hp (c, u) (by simp)) h

/-- A new cell is put behind the list. -/
theorem NewCells.append (h : NewCells K w.heap l nil) (R : Runtime) (v : Word) :
    ∃ c w₁ w', w.allocate R (.cons v nil) consTag = (c, w₁) ∧
      (endOf l).assign c (firstCell l nil) w₁ = some (firstCell (l ++ [(c, v)]) nil, w') ∧
      NewCells K w'.heap (l ++ [(c, v)]) nil ∧ cdrref c = endOf (l ++ [(c, v)]) ∧
      ∀ p o, (∀ y ∈ l, p ≠ pointer y.1) → w.heap.obj p = some o → w'.heap.obj p = some o := by
  have hk : consTag < 8 := by decide
  obtain ⟨htag, hnew, -⟩ := allocate_spec R w (.cons v nil) hk
  have hext := extends_allocate R w (.cons v nil) hk
  have hobj := obj_allocate R w (.cons v nil) hk
  obtain ⟨c, w₁, hw₁⟩ : ∃ c w₁, w.allocate R (.cons v nil) consTag = (c, w₁) := ⟨_, _, rfl⟩
  rw [hw₁] at htag hnew hext hobj
  have hc : consp c = true := decide_eq_true htag
  have hne : ∀ y ∈ l, pointer c ≠ pointer y.1 := fun y hy heq =>
    hnew (heq ▸ h.cells.mem_dom y hy)
  obtain ⟨w', hassign, hcells, hkeep⟩ := (h.extends hext).assign c
  have hlast : CellsTo w'.heap [(c, v)] nil := ⟨hc, hkeep _ _ hne hobj, trivial⟩
  refine ⟨c, w₁, w', hw₁, ?_, ⟨?_, ?_, ?_, hcells.keeps⟩, ?_, fun p o hp ho => ?_⟩
  · rw [hassign, firstCell_append]
    rfl
  · exact cellsTo_append.2 ⟨hcells.cells, hlast⟩
  · rw [List.map_append, List.nodup_append']
    refine ⟨h.nodup, List.nodup_singleton _, ?_⟩
    rw [List.map_singleton, List.disjoint_singleton]
    intro hmem
    obtain ⟨y, hy, heq⟩ := List.mem_map.1 hmem
    exact hne y hy heq.symm
  · intro y hy
    rcases List.mem_append.1 hy with hy | hy
    · exact h.new y hy
    · obtain rfl := List.mem_singleton.1 hy
      exact fun hmem => hnew (h.keeps.dom_subset hmem)
  · simp [cdrref, hc, endOf]
  · exact hkeep p o hp (hext p o ho)

/-- Without some of the objects. -/
theorem except_extends_self (G : Heap) (S : Finset ℕ) : (G.except S).Extends G := by
  intro p o hp
  simp only [Heap.except, Option.ite_none_left_eq_some] at hp
  exact hp.2

/-- A copy of a list has new cells, made behind the copies of all elements. -/
theorem deepCopy_list {vs : List Word} {list : Word} (hl : ListOf H list vs)
    (hvs : ∀ v ∈ vs, Copyable H v) : ∃ N, ∀ n ≥ N, ∀ w : World, H.Extends w.heap →
      ∃ K l w', deepCopy R n list w = some (firstCell l nil, w') ∧ w.heap.Extends K ∧
        NewCells K w'.heap l nil ∧ l.length = vs.length ∧
        ∀ x ∈ vs.zip (l.map Prod.snd), IsCopy H K x.1 x.2 := by
  induction vs generalizing list with
  | nil =>
    obtain rfl : list = nil := hl
    refine ⟨1, fun n hn w _ => ?_⟩
    obtain ⟨n, rfl⟩ := Nat.exists_eq_succ_of_ne_zero (Nat.ne_zero_of_lt hn)
    exact ⟨w.heap, [], w, rfl, .refl _, ⟨trivial, List.nodup_nil, nofun, .refl _⟩, rfl, nofun⟩
  | cons v vs ih =>
    obtain ⟨hc, d, ho, hd⟩ := hl
    obtain ⟨N, hN⟩ := deepCopy_spec (R := R) (hvs v List.mem_cons_self)
    obtain ⟨M, hM⟩ := ih hd fun u hu => hvs u (List.mem_cons_of_mem _ hu)
    refine ⟨max N M + 1, fun n hn w hH => ?_⟩
    obtain ⟨n, rfl⟩ := Nat.exists_eq_succ_of_ne_zero (Nat.ne_zero_of_lt hn)
    have hle := Nat.le_of_succ_le_succ hn
    obtain ⟨v', w₁, hv, hext, hcopy⟩ := hN n (le_of_max_le_left hle) w hH
    obtain ⟨K, l, w₂, hd', hK, hcells, hlen, hcopies⟩ := hM n (le_of_max_le_right hle) w₁
      (hH.trans hext)
    have hk : consTag < 8 := by decide
    have hspec := allocate_spec R w₂ (.cons v' (firstCell l nil)) hk
    have hlast := extends_allocate R w₂ (.cons v' (firstCell l nil)) hk
    have hobj := obj_allocate R w₂ (.cons v' (firstCell l nil)) hk
    have hrun : deepCopy R (n + 1) list w =
        some (w₂.allocate R (.cons v' (firstCell l nil)) consTag) := by
      have hheap : heapp list = true := by simp [heapp, hc]
      have hkind : symbolp list = false ∧ stringp list = false := by
        have htag : tag list = consTag := of_decide_eq_true hc
        simp [symbolp, stringp, htag, symbolTag, stringTag, consTag]
      have hcar : w.heap.car list = v := by simp [Heap.car, hc, hH _ _ ho]
      have hcdr : w₁.heap.cdr list = d := by simp [Heap.cdr, hc, hext _ _ (hH _ _ ho)]
      rw [deepCopy, immediate_of_heapp hheap, hkind.1, hkind.2, hc]
      simp [hcar, hv, hcdr, hd']
    obtain ⟨c, w', hw'⟩ : ∃ c w', w₂.allocate R (.cons v' (firstCell l nil)) consTag = (c, w') :=
      ⟨_, _, rfl⟩
    rw [hw'] at hspec hlast hobj hrun
    have hcells' := hcells.extends hlast
    refine ⟨K, (c, v') :: l, w', hrun, hext.trans hK, ⟨?_, ?_, ?_, hcells'.keeps⟩, ?_, ?_⟩
    · exact ⟨decide_eq_true hspec.1, hobj, hcells'.cells⟩
    · rw [List.map_cons, List.nodup_cons]
      refine ⟨fun hmem => ?_, hcells.nodup⟩
      obtain ⟨y, hy, heq⟩ := List.mem_map.1 hmem
      exact hspec.2.1 (heq ▸ hcells.cells.mem_dom y hy)
    · exact List.forall_mem_cons.2
        ⟨fun hmem => hspec.2.1 (hcells.keeps.dom_subset hmem), hcells.new⟩
    · rw [List.length_cons, List.length_cons, hlen]
    · rw [List.map_cons, List.zip_cons_cons]
      exact List.forall_mem_cons.2
        ⟨hcopy.extends ((except_extends_self _ _).trans hK), hcopies⟩

/-- The default arguments from `i` on are put behind the list. -/
theorem NewCells.appendDefaults (h : NewCells K w.heap l nil) (R : Runtime) (outside : ℤ → Word)
    (args : Args) (k : ℕ) (i : ℤ) : ∃ l' w',
      appendDefaults R outside args k i (endOf l) (firstCell l nil) w =
        some (endOf (l ++ l'), firstCell (l ++ l') nil, w') ∧
      NewCells K w'.heap (l ++ l') nil ∧
      l'.map Prod.snd = (List.range k).map fun j : ℕ => args.optionalValue outside (i + j) := by
  induction k generalizing i l w with
  | zero => exact ⟨[], w, by rw [List.append_nil]; rfl, by rwa [List.append_nil], rfl⟩
  | succ k ih =>
    obtain ⟨c, w₁, w₂, hw₁, hassign, hcells, hend, -⟩ := h.append R (args.optionalValue outside i)
    obtain ⟨l', w', hrun, hcells', hvalues⟩ := ih hcells (i + 1)
    refine ⟨(c, args.optionalValue outside i) :: l', w', ?_, ?_, ?_⟩
    · rw [Lisp.appendDefaults, hw₁]
      simp only [hassign, hend, Option.bind_eq_bind, Option.bind_some]
      rw [hrun, List.append_assoc]
      rfl
    · rwa [List.append_assoc] at hcells'
    · rw [List.map_cons, hvalues, List.range_succ_eq_map, List.map_cons, List.map_map]
      have hzero : i = i + (0 : ℕ) := by omega
      refine congrArg₂ List.cons (congrArg (args.optionalValue outside) hzero)
        (List.map_congr_left fun j _ => ?_)
      have hsucc : i + 1 + j = i + (j + 1 : ℕ) := by omega
      exact congrArg (args.optionalValue outside) hsucc

theorem cdrref_endOf {l₂ : List (Word × Word)} (h : CellsTo H (l ++ l₂) nil) (hl₂ : l₂ ≠ []) :
    cxdrref H (firstCell (l ++ l₂) nil) l.length = some (endOf l) := by
  have hlen : ¬ l.length ≥ ((l ++ l₂).map Prod.snd).length := by
    have hpos := List.length_pos_of_ne_nil hl₂
    simp only [List.length_map, List.length_append]
    omega
  unfold cxdrref
  rw [h.listOf.listp, h.listOf.length]
  simp only [Option.bind_eq_bind, Option.bind_some, Bool.not_true, Bool.false_or, hlen,
    decide_false, Bool.false_eq_true, if_false]
  rcases List.eq_nil_or_concat l with rfl | ⟨l, ⟨c, u⟩, rfl⟩
  · rfl
  rw [List.concat_eq_append, List.append_assoc] at h
  have hc : consp c = true := (cellsTo_append.1 h).2.1
  have hnth : H.nthCdr l.length (firstCell (l ++ ([(c, u)] ++ l₂)) nil) = c := h.nthCdr
  rw [List.concat_eq_append, List.length_append, List.length_singleton, List.append_assoc]
  simp only [hnth, cdrref, hc, if_true]
  simp [endOf]

/-- The list is cut, and a cell with its rest put behind it. -/
theorem NewCells.split {l₂ : List (Word × Word)} (h : NewCells K w.heap (l ++ l₂) nil)
    (hl₂ : l₂ ≠ []) (R : Runtime) : ∃ c w₁ w',
      cxdr w.heap (firstCell (l ++ l₂) nil) l.length = some (firstCell l₂ nil) ∧
      w.allocate R (.cons (firstCell l₂ nil) nil) consTag = (c, w₁) ∧
      cxdrref w₁.heap (firstCell (l ++ l₂) nil) l.length = some (endOf l) ∧
      (endOf l).assign c (firstCell (l ++ l₂) nil) w₁ =
        some (firstCell (l ++ [(c, firstCell l₂ nil)]) nil, w') ∧
      NewCells K w'.heap (l ++ [(c, firstCell l₂ nil)]) nil ∧ NewCells K w'.heap l₂ nil := by
  have hk : consTag < 8 := by decide
  obtain ⟨htag, hnew, -⟩ := allocate_spec R w (.cons (firstCell l₂ nil) nil) hk
  have hext := extends_allocate R w (.cons (firstCell l₂ nil) nil) hk
  have hobj := obj_allocate R w (.cons (firstCell l₂ nil) nil) hk
  obtain ⟨c, w₁, hw₁⟩ : ∃ c w₁, w.allocate R (.cons (firstCell l₂ nil) nil) consTag = (c, w₁) :=
    ⟨_, _, rfl⟩
  rw [hw₁] at htag hnew hext hobj
  have hc : consp c = true := decide_eq_true htag
  have hne : ∀ y ∈ l ++ l₂, pointer c ≠ pointer y.1 := fun y hy heq =>
    hnew (heq ▸ h.cells.mem_dom y hy)
  have h₁ := h.extends hext
  obtain ⟨hfront, hback⟩ := cellsTo_append.1 h₁.cells
  have hnodup := h.nodup
  rw [List.map_append, List.nodup_append'] at hnodup
  have hfirst : NewCells K w₁.heap l (firstCell l₂ nil) :=
    ⟨hfront, hnodup.1, fun y hy => h.new y (List.mem_append_left _ hy), h₁.keeps⟩
  obtain ⟨w', hassign, hcells, hkeep⟩ := hfirst.assign c
  have hlast : CellsTo w'.heap [(c, firstCell l₂ nil)] nil :=
    ⟨hc, hkeep _ _ (fun y hy => hne y (List.mem_append_left _ hy)) hobj, trivial⟩
  refine ⟨c, w₁, w', ?_, hw₁, cdrref_endOf h₁.cells hl₂, ?_, ⟨?_, ?_, ?_, hcells.keeps⟩,
    ⟨?_, hnodup.2.1, fun y hy => h.new y (List.mem_append_right _ hy), hcells.keeps⟩⟩
  · have hlen : ¬ l.length ≥ ((l ++ l₂).map Prod.snd).length := by
      have hpos := List.length_pos_of_ne_nil hl₂
      simp only [List.length_map, List.length_append]
      omega
    unfold cxdr
    rw [h.cells.listOf.listp, h.cells.listOf.length]
    simp only [Option.bind_eq_bind, Option.bind_some, Bool.not_true, Bool.false_or, hlen,
      decide_false, Bool.false_eq_true, if_false, h.cells.nthCdr]
    rfl
  · rw [firstCell_append, hassign, firstCell_append]
    rfl
  · exact cellsTo_append.2 ⟨hcells.cells, hlast⟩
  · rw [List.map_append, List.nodup_append']
    refine ⟨hnodup.1, List.nodup_singleton _, ?_⟩
    rw [List.map_singleton, List.disjoint_singleton]
    intro hmem
    obtain ⟨y, hy, heq⟩ := List.mem_map.1 hmem
    exact hne y (List.mem_append_left _ hy) heq.symm
  · intro y hy
    rcases List.mem_append.1 hy with hy | hy
    · exact hfirst.new y hy
    · obtain rfl := List.mem_singleton.1 hy
      exact fun hmem => hnew (h.keeps.dom_subset hmem)
  · -- the rest of the list has other cells
    refine hback.congr fun y hy o ho => hkeep _ o (fun z hz heq => ?_) ho
    exact hnodup.2.2 (List.mem_map_of_mem hz) (heq ▸ List.mem_map_of_mem hy)

end NewCells

/-! ### The words on the stack -/

section Spread

variable {H : Heap} {list : Word} {ecx k : ℕ} {words : List (Option Word)}

/-- Lists of at most `2 ^ 16` elements are put on the stack. -/
theorem spreadLoop_small (h : ecx ≤ 2 ^ 16) (hlen : ecx ≤ words.length) :
    (spreadLoop H list ecx words)[k]? =
      if k < ecx then some (some (H.elt list k)) else words[k]? := by
  induction ecx generalizing words with
  | zero => simp [spreadLoop]
  | succ ecx ih =>
    have hset : (words.set ecx (some (H.elt list ecx)))[k]? =
        if k = ecx then some (some (H.elt list ecx)) else words[k]? := by
      rw [List.getElem?_set]
      split_ifs with h₁ h₂ h₂ <;> first | rfl | omega
    have hmod : ecx % 2 ^ 16 = ecx := Nat.mod_eq_of_lt (by omega)
    rw [spreadLoop, hmod]
    split_ifs with hzero hk hk
    · obtain rfl : k = ecx := by omega
      rw [hset, if_pos rfl]
    · rw [hset, if_neg (by omega)]
    · rw [ih (by omega) (by simp; omega)]
      split_ifs with hlt
      · rfl
      · obtain rfl : k = ecx := by omega
        rw [hset, if_pos rfl]
    · rw [ih (by omega) (by simp; omega), if_neg (by omega), hset, if_neg (by omega)]

/-- Of longer lists, the first elements are not. -/
theorem spreadLoop_large (h : 2 ^ 16 < ecx) (hk : k < 2 ^ 16) :
    (spreadLoop H list ecx words)[k]? = words[k]? := by
  induction ecx generalizing words with
  | zero => omega
  | succ ecx ih =>
    have hset : (words.set ecx (some (H.elt list ecx)))[k]? = words[k]? :=
      List.getElem?_set_ne (by omega)
    rw [spreadLoop]
    split_ifs with hzero
    · exact hset
    · have hne : ecx ≠ 2 ^ 16 := by
        rintro rfl
        exact hzero (Nat.mod_self _)
      rw [ih (by omega), hset]

theorem length_spreadLoop : (spreadLoop H list ecx words).length = words.length := by
  induction ecx generalizing words with
  | zero => rfl
  | succ ecx ih =>
    rw [spreadLoop]
    split_ifs
    · exact List.length_set
    · rw [ih, List.length_set]

/-- **What `_call_list` puts on the stack**: the elements of the list, or, if it is too long,
something else in the first words. -/
theorem spread_of_list {vs : List Word} (h : ListOf H list vs) : ∃ words,
    spread H list = some words ∧ words.length = vs.length ∧
      (vs.length ≤ 2 ^ 16 → words = vs.map some) ∧
      (2 ^ 16 < vs.length → words[0]? = some none) := by
  refine ⟨_, by rw [spread, h.length, Option.map_some], ?_, fun hlen => ?_, fun hlen => ?_⟩
  · rw [length_spreadLoop, List.length_replicate]
  · refine List.ext_getElem? fun k => ?_
    rw [spreadLoop_small hlen (by simp), List.getElem?_map]
    split_ifs with hk
    · rw [List.getElem?_eq_getElem hk, Option.map_some,
        ListOf.elt h (List.getElem?_eq_getElem hk)]
    · rw [List.getElem?_eq_none (by simpa using hk), List.getElem?_eq_none (by simpa using hk)]
      rfl
  · rw [spreadLoop_large hlen (by decide), List.getElem?_replicate, if_pos (by omega)]

end Spread

/-! ### What the function finds -/

/-- The indices that the loop over the default arguments goes through. -/
def defaultIndices (args : Args) (nargs : ℕ) : List ℤ :=
  (List.range (args.numOptional - (nargs - args.numRequired : ℤ)).toNat).map fun k : ℕ =>
    (nargs - args.numRequired : ℤ) + k

theorem length_defaultIndices (args : Args) (nargs : ℕ) : (defaultIndices args nargs).length =
    args.numRequired + args.numOptional - nargs := by
  rw [defaultIndices, List.length_map, List.length_range]
  omega

/-- The elements of the list that `call_list_args` makes of the copies `us` of the arguments: one
for each parameter, and a list of what is left over. -/
def elementsFor (args : Args) (outside : ℤ → Word) (us : List Word) (rest : Word) : List Word :=
  if us.length > args.numRequired + args.numOptional then
    us.take (args.numRequired + args.numOptional) ++ [rest]
  else
    us ++ (defaultIndices args us.length).map (args.optionalValue outside) ++ [rest]

/-- What a call with the arguments `vs` does, for the copies `us` and the list `rest` of those that
are left over. -/
structure Spreads (H K : Heap) (args : Args) (outside : ℤ → Word) (vs us : List Word) (rest : Word)
    (e : Entered) (w' : World) : Prop where
  keeps : K.Extends w'.heap
  length : us.length = vs.length
  copies : ∀ x ∈ vs.zip us, IsCopy H K x.1 x.2
  list : ListOf w'.heap rest (us.drop (args.numRequired + args.numOptional))
  words : e.words.length = args.numRequired + args.numOptional + 1 ∧
    (args.numRequired + args.numOptional < 2 ^ 16 →
      e.words = (elementsFor args outside us rest).map some) ∧
    (2 ^ 16 ≤ args.numRequired + args.numOptional → e.words[0]? = some none)
  indices : e.indices = if us.length > args.numRequired + args.numOptional then [] else
    defaultIndices args us.length

theorem length_elementsFor (args : Args) (outside : ℤ → Word) (us : List Word) (rest : Word) :
    (elementsFor args outside us rest).length = args.numRequired + args.numOptional + 1 := by
  unfold elementsFor
  split_ifs with h
  · simp only [List.length_append, List.length_take, List.length_singleton]
    omega
  · simp only [List.length_append, List.length_map, length_defaultIndices, List.length_singleton]
    omega

theorem spread_elementsFor {H : Heap} {args : Args} {outside : ℤ → Word} {us : List Word}
    {list rest : Word} (h : ListOf H list (elementsFor args outside us rest)) : ∃ words,
      spread H list = some words ∧ words.length = args.numRequired + args.numOptional + 1 ∧
      (args.numRequired + args.numOptional < 2 ^ 16 →
        words = (elementsFor args outside us rest).map some) ∧
      (2 ^ 16 ≤ args.numRequired + args.numOptional → words[0]? = some none) := by
  obtain ⟨words, hspread, hlen, hsmall, hlarge⟩ := spread_of_list h
  rw [length_elementsFor] at hlen hsmall hlarge
  exact ⟨words, hspread, hlen, fun hlt => hsmall hlt, fun hle => hlarge (Nat.lt_succ_of_le hle)⟩

/-- **The call enters the function with one word for each parameter, and one more**, whatever the
number of arguments is. -/
theorem callListArgs_spec {R : Runtime} {H : Heap} {list : Word} {vs : List Word}
    (hl : ListOf H list vs) (hvs : ∀ v ∈ vs, Copyable H v) (outside : ℤ → Word) (args : Args)
    (code_ptr : CodePtr) (closure : Option Word) :
    ∃ N, ∀ n ≥ N, ∀ w : World, H.Extends w.heap → ∃ K us rest e w',
      callListArgs R outside n code_ptr args list closure w = some (e, w') ∧
      Spreads H K args outside vs us rest e w' := by
  obtain ⟨N, hN⟩ := deepCopy_list (R := R) hl hvs
  refine ⟨N, fun n hn w hH => ?_⟩
  obtain ⟨K, l, w₁, hcopy, -, hcells, hlen, hcopies⟩ := hN n hn w hH
  have hcard : l.length < w₁.heap.dom.card + 1 := by
    have hle := hcells.cells.listOf.length_le_card
    rw [List.length_map] at hle
    omega
  have hlast : lastCdrref w₁.heap (w₁.heap.dom.card + 1) (firstCell l nil) .variable =
      some (endOf l) := hcells.cells.lastCdrref hcard .variable
  have hlength : w₁.heap.length (firstCell l nil) = some l.length := by
    rw [hcells.cells.listOf.length, List.length_map]
  have hus : (l.map Prod.snd).length = l.length := List.length_map _
  by_cases hmore : l.length > args.numRequired + args.numOptional
  · -- what is left over becomes the last element
    have htake : (l.take (args.numRequired + args.numOptional)).length =
        args.numRequired + args.numOptional := by
      rw [List.length_take]
      omega
    have hdrop : l.drop (args.numRequired + args.numOptional) ≠ [] := by
      rw [← List.length_pos_iff, List.length_drop]
      omega
    have hsplit := List.take_append_drop (args.numRequired + args.numOptional) l
    rw [← hsplit] at hcells
    obtain ⟨c, w₂, w', hcxdr, halloc, href, hassign, hfront, hback⟩ := hcells.split hdrop R
    rw [htake, hsplit] at hcxdr href
    rw [hsplit] at hassign
    have helements : (l.take (args.numRequired + args.numOptional) ++
        [(c, firstCell (l.drop (args.numRequired + args.numOptional)) nil)]).map Prod.snd =
        elementsFor args outside (l.map Prod.snd)
          (firstCell (l.drop (args.numRequired + args.numOptional)) nil) := by
      rw [elementsFor, hus, if_pos hmore, List.map_append, List.map_take]
      rfl
    have hlistOf := hfront.cells.listOf
    rw [helements] at hlistOf
    obtain ⟨words, hspread, hwords⟩ := spread_elementsFor hlistOf
    have hrest := hback.cells.listOf
    rw [List.map_drop] at hrest
    refine ⟨K, l.map Prod.snd, firstCell (l.drop (args.numRequired + args.numOptional)) nil,
      ⟨code_ptr, words, closure, []⟩, w', ?_, hfront.keeps, hus.trans hlen, hcopies, hrest, hwords,
      ?_⟩
    · unfold callListArgs
      simp only [hcopy, hlength, hlast, hmore, hcxdr, halloc, href, hassign, hspread,
        Option.bind_eq_bind, Option.bind_some, if_true]
      rfl
    · rw [hus, if_pos hmore]
  · -- default arguments and an empty list are put behind
    obtain ⟨l', w₂, hdefaults, hcells₂, hvalues⟩ := hcells.appendDefaults R outside args
      (args.numOptional - (l.length - args.numRequired : ℤ)).toNat (l.length - args.numRequired)
    obtain ⟨c, w₃, w', halloc, hassign, hcells₃, -, -⟩ := hcells₂.append R nil
    have helements : (l ++ l' ++ [(c, nil)]).map Prod.snd =
        elementsFor args outside (l.map Prod.snd) nil := by
      rw [elementsFor, hus, if_neg hmore, List.map_append, List.map_append, hvalues, defaultIndices,
        List.map_map]
      rfl
    have hlistOf := hcells₃.cells.listOf
    rw [helements] at hlistOf
    obtain ⟨words, hspread, hwords⟩ := spread_elementsFor hlistOf
    have hrest : (l.map Prod.snd).drop (args.numRequired + args.numOptional) = [] :=
      List.drop_eq_nil_of_le (by rw [hus]; omega)
    refine ⟨K, l.map Prod.snd, nil,
      ⟨code_ptr, words, closure, defaultIndices args l.length⟩, w', ?_,
      hcells₃.keeps, hus.trans hlen, hcopies, ?_, hwords, ?_⟩
    · unfold callListArgs
      simp only [hcopy, hlength, hlast, hmore, hdefaults, halloc, hassign, hspread,
        Option.bind_eq_bind, Option.bind_some, if_false]
      rfl
    · rw [hrest]
      rfl
    · rw [hus, if_neg hmore]

/-! ### Arity -/

/-- What is called with a list: a closure by `l_apply`, a macro by `walk_and_alloc`. -/
inductive Callee
  | closure (func : Word)
  | macro_ (f : Function)

def Callee.call (R : Runtime) (outside : ℤ → Word) (n : ℕ) :
    Callee → Word → World → Option (CallResult × World)
  | .closure func, list, w => lApply R outside n func list w
  | .macro_ f, list, w => callListOf R outside n f list w

/-- It is a function with the parameters `args`. -/
def Callee.Takes (H : Heap) (args : Args) : Callee → Prop
  | .closure func => closurep func = true ∧
      ∃ f data, H.obj (pointer func) = some (.closure args f data)
  | .macro_ f => f.args = args

/-- The function finds a copy of each argument, the default values of the parameters that there are
no arguments for, and a list of copies of the arguments that are left over. -/
structure PassesExactly (H H' : Heap) (args : Args) (vs : List Word) (e : Entered) : Prop where
  supplied : ∀ k v, vs[k]? = some v → k < args.numRequired + args.numOptional →
    ∃ u, e.words[k]? = some (some u) ∧ IsCopy H H' v u
  missing : ∀ k, vs.length ≤ k → k < args.numRequired + args.numOptional →
    ∃ d, args.optionalArguments[k - args.numRequired]? = some d ∧
      e.words[k]? = some (some d.value)
  rest : args.variadic = true → ∃ u us,
    e.words[args.numRequired + args.numOptional]? = some (some u) ∧ ListOf H' u us ∧
      us.length = (vs.drop (args.numRequired + args.numOptional)).length ∧
      ∀ x ∈ (vs.drop (args.numRequired + args.numOptional)).zip us, IsCopy H H' x.1 x.2

/-- **What a call with the arguments `vs` should come to.** -/
def Enforced (H H' : Heap) (args : Args) (vs : List Word) : CallResult → Prop
  | .refused => areArgsAcceptable args vs.length = false
  | .entered e => areArgsAcceptable args vs.length = true ∧ PassesExactly H H' args vs e ∧
      (∀ i ∈ e.indices, 0 ≤ i ∧ i < args.numOptional) ∧ realNargs args ≤ e.words.length

section Arity

variable {R : Runtime} {outside : ℤ → Word} {H K : Heap} {args : Args} {list rest : Word}
  {vs us : List Word} {e : Entered} {w w' : World} {callee : Callee}

theorem numRequired_le (h : areArgsAcceptable args vs.length = true) :
    args.numRequired ≤ vs.length := by
  unfold areArgsAcceptable at h
  split_ifs at h
  · exact of_decide_eq_true h
  · exact of_decide_eq_true (Bool.and_eq_true_iff.1 h).1

theorem getElem?_elementsFor_left {k : ℕ} (hk : k < us.length)
    (hlt : k < args.numRequired + args.numOptional) :
    (elementsFor args outside us rest)[k]? = us[k]? := by
  unfold elementsFor
  split_ifs with hmore
  · rw [List.getElem?_append_left (by rw [List.length_take]; omega), List.getElem?_take_of_lt hlt]
  · rw [List.append_assoc, List.getElem?_append_left hk]

theorem getElem?_elementsFor_right {k : ℕ} (hr : args.numRequired ≤ us.length)
    (hk : us.length ≤ k) (hlt : k < args.numRequired + args.numOptional) :
    ∃ d, args.optionalArguments[k - args.numRequired]? = some d ∧
      (elementsFor args outside us rest)[k]? = some d.value := by
  have hbound : k - args.numRequired < args.optionalArguments.length := by
    unfold Args.numOptional at hlt
    omega
  refine ⟨_, List.getElem?_eq_getElem hbound, ?_⟩
  have hindex : (defaultIndices args us.length)[k - us.length]? =
      some (Int.ofNat (k - args.numRequired)) := by
    rw [defaultIndices, List.getElem?_map, List.getElem?_range (by omega), Option.map_some]
    exact congrArg some (by rw [Int.ofNat_eq_natCast]; omega)
  rw [elementsFor, if_neg (by omega), List.append_assoc, List.getElem?_append_right hk,
    List.getElem?_append_left (by rw [List.length_map, length_defaultIndices]; omega),
    List.getElem?_map, hindex, Option.map_some]
  simp [Args.optionalValue, hbound]

theorem getElem?_elementsFor_last :
    (elementsFor args outside us rest)[args.numRequired + args.numOptional]? = some rest := by
  have hlen := length_elementsFor args outside us rest
  unfold elementsFor at hlen ⊢
  split_ifs at hlen ⊢ with hmore
  all_goals
    rw [List.length_append, List.length_singleton] at hlen
    rw [List.getElem?_append_right (by omega), Nat.sub_eq_zero_of_le (by omega)]
    rfl

/-- With an acceptable number of arguments, and not too many parameters, the function finds what it
expects. -/
theorem Spreads.enforced (h : Spreads H K args outside vs us rest e w')
    (hargs : areArgsAcceptable args vs.length = true)
    (hsmall : args.numRequired + args.numOptional < 2 ^ 16) :
    Enforced H w'.heap args vs (.entered e) := by
  have hlen := h.length
  have hr := numRequired_le hargs
  have hwords := h.words.2.1 hsmall
  have hcopy : ∀ x ∈ vs.zip us, IsCopy H w'.heap x.1 x.2 := fun x hx =>
    (h.copies x hx).extends h.keeps
  refine ⟨hargs, ⟨fun k v hv hlt => ?_, fun k hk hlt => ?_, fun _ => ⟨rest, _, ?_, h.list, ?_, ?_⟩⟩,
    fun i hi => ?_, ?_⟩
  · obtain ⟨hk, rfl⟩ := List.getElem?_eq_some_iff.1 hv
    have hk' : k < us.length := by omega
    refine ⟨us[k], ?_, ?_⟩
    · rw [hwords, List.getElem?_map, getElem?_elementsFor_left hk' hlt,
        List.getElem?_eq_getElem hk', Option.map_some]
    · refine hcopy (vs[k], us[k]) (List.mem_iff_getElem?.2 ⟨k, ?_⟩)
      simp [hk, hk']
  · obtain ⟨d, hd, hvalue⟩ := @getElem?_elementsFor_right outside args rest us k (by omega)
      (by omega) hlt
    exact ⟨d, hd, by rw [hwords, List.getElem?_map, hvalue, Option.map_some]⟩
  · rw [hwords, List.getElem?_map, getElem?_elementsFor_last, Option.map_some]
  · rw [List.length_drop, List.length_drop, hlen]
  · intro x hx
    rw [List.zip_eq_zipWith, ← List.drop_zipWith, ← List.zip_eq_zipWith] at hx
    exact hcopy x (List.mem_of_mem_drop hx)
  · rw [h.indices] at hi
    split_ifs at hi with hmore
    · cases hi
    · obtain ⟨k, hk, rfl⟩ := List.mem_map.1 hi
      rw [List.mem_range] at hk
      omega
  · rw [h.words.1, realNargs]
    split_ifs <;> omega

/-- Otherwise, if there are parameters, the first of so many is not passed. -/
theorem Spreads.not_passesExactly (h : Spreads H K args outside vs us rest e w')
    (hlarge : 2 ^ 16 ≤ args.numRequired + args.numOptional) :
    ¬ PassesExactly H w'.heap args vs e := by
  intro hpass
  have hfirst := h.words.2.2 hlarge
  have hpos : 0 < args.numRequired + args.numOptional := by omega
  rcases Nat.eq_zero_or_pos vs.length with hvs | hvs
  · obtain ⟨d, -, hword⟩ := hpass.missing 0 (by omega) hpos
    rw [hfirst] at hword
    cases hword
  · obtain ⟨u, hword, -⟩ := hpass.supplied 0 _ (List.getElem?_eq_getElem hvs) hpos
    rw [hfirst] at hword
    cases hword

/-- With too few arguments, `optional_arguments` is read in front of its start. -/
theorem Spreads.negative_index (h : Spreads H K args outside vs us rest e w')
    (hfew : vs.length < args.numRequired) : ((vs.length : ℤ) - args.numRequired) ∈ e.indices := by
  have hlen := h.length
  rw [h.indices, if_neg (by omega), defaultIndices, hlen]
  exact List.mem_map.2 ⟨0, List.mem_range.2 (by omega), by omega⟩

/-- If a list is finite data, so are its elements. -/
theorem copyable_elements (hl : ListOf H list vs) (h : Copyable H list) :
    ∀ v ∈ vs, Copyable H v := by
  induction vs generalizing list with
  | nil => nofun
  | cons v vs ih =>
    obtain ⟨hc, d, ho, hd⟩ := hl
    have hheap : heapp list = true := by simp [heapp, hc]
    have htag : tag list = consTag := of_decide_eq_true hc
    cases h with
    | immediate himm =>
      rw [immediate_of_heapp hheap] at himm
      cases himm
    | text hv _ => simp [symbolp, stringp, htag, symbolTag, stringTag, consTag] at hv
    | closure hv _ _ => simp [closurep, htag, closureTag, consTag] at hv
    | other _ hh =>
      rw [hheap] at hh
      cases hh
    | cons _ ho' hx hy =>
      rw [ho] at ho'
      cases ho'
      exact List.forall_mem_cons.2 ⟨hx, ih hd hy⟩

theorem points_list {H : HeapGraph} (hl : ListOf H.toHeap list vs) : H.Points list := by
  cases vs with
  | nil =>
    obtain rfl : list = nil := hl
    exact fun h => absurd h (by decide)
  | cons v vs =>
    obtain ⟨hc, d, ho, -⟩ := hl
    exact fun _ => ⟨_, ho, of_decide_eq_true hc ▸ rfl⟩

/-- A call of a function is one of `call_list_args`. -/
theorem Callee.Takes.call_eq (h : callee.Takes w.heap args) (hl : ListOf w.heap list vs)
    (R : Runtime) (outside : ℤ → Word) : ∃ code_ptr closure, ∀ n, callee.call R outside n list w =
      (callListArgs R outside n code_ptr args list closure w).map fun r => (.entered r.1, r.2) := by
  cases callee with
  | closure func =>
    obtain ⟨hclo, f, data, ho⟩ := h
    refine ⟨f, some func, fun n => ?_⟩
    rw [Callee.call, lApply, hclo, hl.listp, ho]
    rfl
  | macro_ f =>
    obtain rfl := h
    exact ⟨f.codePtr, none, fun n => rfl⟩

end Arity

/-- **A call with a list is refused, or passes what the function expects, exactly if the number of
arguments is acceptable, there are less than `2 ^ 16` required and optional parameters, and the
arguments are finite data.** -/
theorem enforced_iff (R : Runtime) (outside : ℤ → Word) {H : HeapGraph} {w : World}
    (hw : w.heap = H.toHeap) {callee : Callee} {args : Args} {list : Word} {vs : List Word}
    (hcallee : callee.Takes w.heap args) (hl : ListOf w.heap list vs) :
    (∃ N, ∀ n ≥ N, ∃ r w', callee.call R outside n list w = some (r, w') ∧
      Enforced w.heap w'.heap args vs r) ↔
    areArgsAcceptable args vs.length = true ∧ args.numRequired + args.numOptional < 2 ^ 16 ∧
      ∀ v ∈ vs, Copyable w.heap v := by
  obtain ⟨code_ptr, closure, hcall⟩ := hcallee.call_eq hl R outside
  constructor
  · rintro ⟨N, hN⟩
    have hvs : ∀ v ∈ vs, Copyable w.heap v := by
      obtain ⟨r, w', hrun, -⟩ := hN N le_rfl
      rw [hcall] at hrun
      obtain ⟨e, he, -⟩ := Option.map_eq_some_iff.1 hrun
      obtain ⟨⟨list', w₁⟩, hcopy, -⟩ := Option.bind_eq_some_iff.1 he
      rw [hw] at hl ⊢
      exact copyable_elements hl (copyable_of_deepCopy (points_list hl) (hw ▸ .refl _) hcopy)
    obtain ⟨M, hM⟩ := callListArgs_spec (R := R) hl hvs outside args code_ptr closure
    obtain ⟨r, w', hrun, hr⟩ := hN (max N M) (le_max_left N M)
    obtain ⟨K, us, rest, e, w'', hargs, hspreads⟩ := hM (max N M) (le_max_right N M) w (.refl _)
    rw [hcall, hargs] at hrun
    cases hrun
    refine ⟨hr.1, ?_, hvs⟩
    by_contra hlarge
    exact hspreads.not_passesExactly (Nat.le_of_not_lt hlarge) hr.2.1
  · rintro ⟨hacceptable, hsmall, hvs⟩
    obtain ⟨M, hM⟩ := callListArgs_spec (R := R) hl hvs outside args code_ptr closure
    refine ⟨M, fun n hn => ?_⟩
    obtain ⟨K, us, rest, e, w', hargs, hspreads⟩ := hM n hn w (.refl _)
    exact ⟨.entered e, w', by rw [hcall, hargs]; rfl, hspreads.enforced hacceptable hsmall⟩

/-! ### Examples -/

/-- The list `(5)` at the address 16, and the function `(lambda (a) …)` at 32. -/
def fiveList : HeapGraph :=
  .ofList [(16, .cons 20 nil), (32, .closure ⟨1, [], false⟩ (.builtin "f") [])] (by decide)

def fiveWorld : World := ⟨fiveList.toHeap, fun _ => 0, 0, [], []⟩

/-- `(apply f '(5))` -/
theorem enforced_five : ∃ N, ∀ n ≥ N, ∃ r w',
    (Callee.closure 38).call .inert (fun _ => 0) n 17 fiveWorld = some (r, w') ∧
      Enforced fiveWorld.heap w'.heap ⟨1, [], false⟩ [20] r := by
  have hl : ListOf fiveWorld.heap 17 [20] := ⟨by decide, nil, by decide, rfl⟩
  have hcallee : (Callee.closure 38).Takes fiveWorld.heap ⟨1, [], false⟩ :=
    ⟨by decide, .builtin "f", [], by decide⟩
  refine (enforced_iff (H := fiveList) .inert (fun _ => 0) rfl hcallee hl).2
    ⟨by decide, by decide, ?_⟩
  intro v hv
  obtain rfl := List.mem_singleton.1 hv
  exact .immediate (by decide)

/-- **`(apply f nil)`** : a call without the argument that is required. -/
theorem not_enforced_all : ¬ ∀ (R : Runtime) (outside : ℤ → Word) (H : HeapGraph) (w : World)
    (callee : Callee) (args : Args) (list : Word) (vs : List Word), w.heap = H.toHeap →
      callee.Takes w.heap args → ListOf w.heap list vs →
      ∃ N, ∀ n ≥ N, ∃ r w', callee.call R outside n list w = some (r, w') ∧
        Enforced w.heap w'.heap args vs r := by
  intro h
  have hcallee : (Callee.closure 38).Takes fiveWorld.heap ⟨1, [], false⟩ :=
    ⟨by decide, .builtin "f", [], by decide⟩
  obtain ⟨N, hN⟩ := h .inert (fun _ => 0) fiveList fiveWorld _ _ nil [] rfl hcallee rfl
  obtain ⟨r, w', hrun, hr⟩ := hN N le_rfl
  have hl : ListOf fiveWorld.heap nil [] := rfl
  obtain ⟨code_ptr, closure, hcall⟩ := Callee.Takes.call_eq hcallee hl .inert fun _ => 0
  rw [hcall] at hrun
  obtain ⟨e, -, he⟩ := Option.map_eq_some_iff.1 hrun
  cases he
  exact absurd hr.1 (by decide)

end Lisp

end Bluejay
