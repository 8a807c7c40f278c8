import Mathlib.Data.List.Forall2
import Bluejay.Lisp.Emits
import Bluejay.Lisp.Sexp

/-!
# The slots of a frame

`compile_function` first walks over the body to count the stack slots its `let1` forms need, and
reserves that many with `setup`.  Then it compiles the body, which assigns the slots again.

* `FrameReserved d` : every slot the code `d` of a function stores to is reserved.
* `reserve depths` : the number of slots reserved, given the depths of the `let1` forms the walk
  meets.
* `frameReserved_iff` : when the slots are reserved.  The walk does not enter binding values, nor
  lists inside a backquoted list, and the slot that makes the array of slots grow is not counted.
-/

namespace Bluejay

namespace Lisp

open Emitter

/-- The slots the code stores to. -/
def stores (c : Code) : List ℕ :=
  c.filterMap fun
    | .storeBound i => some i
    | _ => none

/-- `setup` reserves every slot that the code of a function stores to. -/
def FrameReserved (d : Code) : Prop :=
  ∃ nvars c, d = setup nvars ++ c ∧ ∀ i ∈ stores c, i < nvars

/-- What a `let1` at depth `d` does to the length of the array of slots and to the number of
slots counted. -/
def reserveStep (r : ℕ × ℕ) (d : ℕ) : ℕ × ℕ :=
  if d < r.1 then (r.1, if d ≥ r.2 then r.2 + 1 else r.2) else (r.1 + 4, r.2)

/-- The slots that are counted for `let1` forms at these depths. -/
def reserve (depths : List ℕ) : ℕ := (depths.foldl reserveStep (4, 0)).2

/-! ### Code without `let1` -/

section Stores

variable (c c' : Code)

@[simp] theorem stores_nil : stores [] = [] := rfl

@[simp] theorem stores_append : stores (c ++ c') = stores c ++ stores c' := List.filterMap_append

@[simp] theorem stores_cons_storeBound (i : ℕ) : stores (.storeBound i :: c) = i :: stores c := rfl

theorem stores_cons {i : Instr} (hi : ∀ k, i ≠ .storeBound k) : stores (i :: c) = stores c := by
  cases i <;> first | rfl | exact absurd rfl (hi _)

theorem stores_eq_nil (h : ∀ k, .storeBound k ∉ c) : stores c = [] := by
  induction c with
  | nil => rfl
  | cons i c ih =>
    rw [stores_cons c fun k hk => h k (by simp [hk])]
    exact ih fun k hk => h k (List.mem_cons_of_mem i hk)

@[simp] theorem stores_loadCode (v : Variable) : stores (loadCode v) = [] :=
  stores_eq_nil _ fun k => by unfold loadCode; split <;> simp

@[simp] theorem stores_tailCall (n : ℕ) : stores (tailCall n) = [] :=
  stores_eq_nil _ fun k => by simp [tailCall]

@[simp] theorem stores_setup (n : ℕ) : stores (setup n) = [] := rfl

@[simp] theorem stores_cleanup : stores cleanup = [] := rfl

@[simp] theorem stores_map_push {α : Type} (f : α → Imm) (os : List α) :
    stores (os.map fun o => .push (f o)) = [] :=
  stores_eq_nil _ fun k => by simp

end Stores

/-! ### Slots -/

/-- The slots in use are the lowest ones, one for each enclosing `let1`. -/
def Local.Lifo (l : Local) : Prop :=
  ∃ free, l.stackSlots = List.replicate l.notes.depth true ++ List.replicate free false

/-- The two have the same slots and the same notes about them. -/
structure SameFrame (l l' : Local) : Prop where
  stackSlots : l'.stackSlots = l.stackSlots
  numStackEntries : l'.numStackEntries = l.numStackEntries
  depth : l'.notes.depth = l.notes.depth
  lets : l'.notes.lets = l.notes.lets
  walked : l'.notes.walked = l.notes.walked

/-- From `l` to `l'`, slots `ds` have been assigned, and freed again. -/
structure Grown (l : Local) (ds : List ℕ) (l' : Local) : Prop where
  lifo : l'.Lifo
  depth : l'.notes.depth = l.notes.depth
  lets : l'.notes.lets = l.notes.lets ++ ds
  walked : l'.notes.walked = l.notes.walked
  size : (l'.stackSlots.length, l'.numStackEntries) =
    ds.foldl reserveStep (l.stackSlots.length, l.numStackEntries)

theorem SameFrame.refl (l : Local) : SameFrame l l := ⟨rfl, rfl, rfl, rfl, rfl⟩

theorem SameFrame.trans {l l₁ l₂ : Local} (h : SameFrame l l₁) (h' : SameFrame l₁ l₂) :
    SameFrame l l₂ :=
  ⟨h'.1.trans h.1, h'.2.trans h.2, h'.3.trans h.3, h'.4.trans h.4, h'.5.trans h.5⟩

theorem SameFrame.grown {l l' : Local} (h : SameFrame l l') (hl : l.Lifo) : Grown l [] l' where
  lifo := by
    obtain ⟨free, hf⟩ := hl
    exact ⟨free, by rw [h.stackSlots, h.depth, hf]⟩
  depth := h.depth
  lets := by rw [h.lets, List.append_nil]
  walked := h.walked
  size := by rw [h.stackSlots, h.numStackEntries]; rfl

theorem Grown.trans {l l₁ l₂ : Local} {ds ds' : List ℕ} (h : Grown l ds l₁)
    (h' : Grown l₁ ds' l₂) : Grown l (ds ++ ds') l₂ where
  lifo := h'.lifo
  depth := h'.depth.trans h.depth
  lets := by rw [h'.lets, h.lets, List.append_assoc]
  walked := h'.walked.trans h.walked
  size := by rw [h'.size, h.size, List.foldl_append]

/-- `local_alloc` assigns the slot whose number is the depth. -/
theorem Local.Lifo.alloc {l : Local} (h : l.Lifo) :
    l.alloc.1 = l.notes.depth ∧
      (l.alloc.2.stackSlots.length, l.alloc.2.numStackEntries) =
        reserveStep (l.stackSlots.length, l.numStackEntries) l.notes.depth ∧
      ∃ free, l.alloc.2.stackSlots =
        List.replicate (l.notes.depth + 1) true ++ List.replicate free false := by
  obtain ⟨free, hf⟩ := h
  generalize l.notes.depth = d at hf ⊢
  have hlen : l.stackSlots.length = d + free := by simp [hf]
  cases free with
  | zero =>
    have hfind : l.stackSlots.findIdx? (· = false) = none := by simp [hf]
    simp only [Local.alloc, hfind, hlen, reserveStep]
    refine ⟨rfl, by simp [hlen], 3, ?_⟩
    simp [hf, List.replicate_succ']
  | succ free =>
    have hfind : l.stackSlots.findIdx? (· = false) = some d := by
      simp [hf, List.findIdx?_append, List.replicate_succ, List.findIdx?_cons]
    simp only [Local.alloc, hfind, hlen, reserveStep]
    refine ⟨trivial, by simp [hlen], free, ?_⟩
    rw [hf, List.set_append_right _ _ (by simp), List.length_replicate, Nat.sub_self]
    show _ ++ true :: List.replicate free false = _
    rw [List.replicate_succ', List.append_assoc]
    rfl

/-- A `let1` assigns the slot whose number is the depth, and frees it. -/
theorem Grown.let1 {l l₁ l₂ : Local} {ds ds' : List ℕ} (h : Grown l ds l₁)
    (h' : Grown l₁.allocSlot ds' l₂) :
    Grown l (ds ++ [l₁.alloc.1] ++ ds') (l₂.freeSlot l₁.alloc.1) := by
  obtain ⟨hslot, hsize, -⟩ := h.lifo.alloc
  obtain ⟨free, hf⟩ := h'.lifo
  have hd : l₂.notes.depth = l₁.notes.depth + 1 := h'.depth
  rw [hslot]
  constructor
  · refine ⟨free + 1, ?_⟩
    show l₂.stackSlots.set l₁.notes.depth false = List.replicate (l₂.notes.depth - 1) true ++ _
    rw [hf, hd, List.replicate_succ', List.append_assoc, List.set_append_right _ _ (by simp)]
    simp [List.replicate_succ]
  · show l₂.notes.depth - 1 = _
    rw [hd, h.depth, Nat.add_sub_cancel]
  · show l₂.notes.lets = _
    rw [h'.lets]
    show l₁.notes.lets ++ [l₁.notes.depth] ++ ds' = _
    simp only [h.lets, List.append_assoc]
  · exact h'.walked.trans h.walked
  · show ((l₂.stackSlots.set l₁.notes.depth false).length, l₂.numStackEntries) = _
    rw [List.length_set, h'.size]
    show ds'.foldl reserveStep (l₁.alloc.2.stackSlots.length, l₁.alloc.2.numStackEntries) = _
    rw [hsize, h.size, List.foldl_append, List.foldl_append]
    rfl

/-! ### The functions being compiled -/

/-- The slots of the innermost function evolve as `Grown` says, those of the others stay. -/
def Evolves (L : List Local) (ds : List ℕ) (L' : List Local) : Prop :=
  ∀ l rest, L = l :: rest → l.Lifo →
    ∃ l' rest', L' = l' :: rest' ∧ Grown l ds l' ∧ List.Forall₂ SameFrame rest rest'

theorem forall₂_sameFrame_refl (L : List Local) : List.Forall₂ SameFrame L L :=
  List.forall₂_same.2 fun l _ => .refl l

theorem forall₂_sameFrame_trans {L L₁ L₂ : List Local} (h : List.Forall₂ SameFrame L L₁)
    (h' : List.Forall₂ SameFrame L₁ L₂) : List.Forall₂ SameFrame L L₂ :=
  forall₂_comp h h' fun _ _ _ hl hl' => hl.trans hl'

theorem Evolves.of_sameFrame {L L' : List Local} (h : List.Forall₂ SameFrame L L') :
    Evolves L [] L' := by
  rintro l rest rfl hl
  cases h with
  | cons h hr => exact ⟨_, _, rfl, h.grown hl, hr⟩

theorem Evolves.refl (L : List Local) : Evolves L [] L := .of_sameFrame (forall₂_sameFrame_refl L)

theorem Evolves.trans {L L₁ L₂ : List Local} {ds ds' : List ℕ} (h : Evolves L ds L₁)
    (h' : Evolves L₁ ds' L₂) : Evolves L (ds ++ ds') L₂ := by
  intro l rest hL hl
  obtain ⟨l₁, rest₁, hL₁, hg, hr⟩ := h l rest hL hl
  obtain ⟨l₂, rest₂, hL₂, hg', hr'⟩ := h' l₁ rest₁ hL₁ hg.lifo
  exact ⟨l₂, rest₂, hL₂, hg.trans hg', forall₂_sameFrame_trans hr hr'⟩

theorem Evolves.let1 {L L₁ L₂ : List Local} {ds ds' : List ℕ} (h : Evolves L ds L₁)
    (h' : Evolves (L₁.modifyHead Local.allocSlot) ds' L₂) :
    Evolves L (ds ++ [nextSlot L₁] ++ ds') (L₂.modifyHead (Local.freeSlot (nextSlot L₁))) := by
  intro l rest hL hl
  obtain ⟨l₁, rest₁, rfl, hg, hr⟩ := h l rest hL hl
  have hl₁ : l₁.allocSlot.Lifo := hg.lifo.alloc.2.2
  obtain ⟨l₂, rest₂, rfl, hg', hr'⟩ := h' _ _ rfl hl₁
  exact ⟨_, _, rfl, hg.let1 hg', forall₂_sameFrame_trans hr hr'⟩

theorem Evolves.modifyHead (g : Local → Local) (hg : ∀ l, SameFrame l (g l)) (L : List Local) :
    Evolves L [] (L.modifyHead g) := by
  cases L with
  | nil => exact .refl _
  | cons l rest => exact .of_sameFrame (.cons (hg l) (forall₂_sameFrame_refl rest))

theorem evolves_nextLabel (L : List Local) : Evolves L [] (L.modifyHead Local.nextLabel) :=
  .modifyHead Local.nextLabel (fun _ => ⟨rfl, rfl, rfl, rfl, rfl⟩) L

theorem evolves_addBinder (type : VarType) (name : String) (k : ℕ) (L : List Local) :
    Evolves L [] (L.modifyHead (Local.addBinder type name k)) :=
  .modifyHead (Local.addBinder type name k) (fun _ => ⟨rfl, rfl, rfl, rfl, rfl⟩) L

theorem evolves_closeBinder (L : List Local) : Evolves L [] (L.modifyHead Local.closeBinder) :=
  .modifyHead Local.closeBinder (fun _ => ⟨rfl, rfl, rfl, rfl, rfl⟩) L

theorem forall₂_sameFrame_findVariable (name : String) (L : List Local) :
    List.Forall₂ SameFrame L (findVariable name L).2 := by
  induction L with
  | nil => exact .nil
  | cons l parents ih =>
    unfold findVariable
    split
    · exact forall₂_sameFrame_refl _
    · split
      · rename_i hp
        rw [hp] at ih
        exact .cons ⟨rfl, rfl, rfl, rfl, rfl⟩ ih
      · rename_i hp
        rw [hp] at ih
        exact .cons (.refl l) ih

/-! ### The two traversals -/

theorem Walks.evolves {L L' : List Local} (h : Walks L L') : ∃ ds, Evolves L ds L' := by
  induction h with
  | refl => exact ⟨[], .refl _⟩
  | trans _ _ ih ih' =>
    obtain ⟨ds, h⟩ := ih
    obtain ⟨ds', h'⟩ := ih'
    exact ⟨ds ++ ds', h.trans h'⟩
  | let1 _ ih =>
    obtain ⟨ds, h⟩ := ih
    exact ⟨_, Evolves.let1 (.refl _) h⟩

/-- What a job does to the slots.  A whole function leaves those of the functions around it, and
the slots that its code stores to are the depths of its `let1` forms. -/
def SlotsOf : Job → List Local → Code → List Local → Prop
  | .function _ d l, L, _, L' => List.Forall₂ SameFrame L L' ∧
      ∃ c, d = setup (reserve l.notes.walked) ++ c ∧ stores c = l.notes.lets
  | .arguments _ after, L, c, L' => stores after = [] → Evolves L (stores c) L'
  | _, L, c, L' => Evolves L (stores c) L'

theorem slotsOf_function {L L₁ L₂ L₃ : List Local} {c : Code} {l l₂ : Local} {closed : Bool}
    {ar : Args} {name : Option String} {path : String}
    (h₁ : Evolves (.new name path :: if closed then L else []) [] L₁)
    (h₂ : Walks (L₁.modifyHead fun l => { l with args := ar }) L₂)
    (h₃ : Evolves (L₂.modifyHead Local.resetSlots) (stores c) L₃)
    (hl : L₂.head? = some l₂) (hl' : L₃.head? = some l) :
    SlotsOf (.function closed (setup l₂.numStackEntries ++ c ++ cleanup) l) L []
      (if closed then L₃.tail else L) := by
  obtain ⟨l₁, rest₁, rfl, hg₁, hr₁⟩ := h₁ _ _ rfl ⟨4, rfl⟩
  obtain ⟨ds, h₂⟩ := h₂.evolves
  obtain ⟨l₂', rest₂, rfl, hg₂, hr₂⟩ := h₂ _ _ rfl hg₁.lifo
  obtain rfl : l₂' = l₂ := by simpa using hl
  obtain ⟨l₃, rest₃, rfl, hg₃, hr₃⟩ := h₃ _ _ rfl ⟨l₂'.stackSlots.length, rfl⟩
  obtain rfl : l₃ = l := by simpa using hl'
  have hds : l₂'.notes.lets = ds := by
    rw [hg₂.lets]
    show l₁.notes.lets ++ ds = ds
    rw [hg₁.lets]
    rfl
  have hwalked : l₃.notes.walked = ds := hg₃.walked.trans hds
  have hsize : l₂'.numStackEntries = reserve ds := by
    have h := hg₂.size
    rw [show (l₁.stackSlots.length, l₁.numStackEntries) = (4, 0) from hg₁.size] at h
    exact congrArg Prod.snd h
  refine ⟨?_, c ++ cleanup, ?_, ?_⟩
  · cases closed with
    | false => exact forall₂_sameFrame_refl L
    | true => exact forall₂_sameFrame_trans hr₁ (forall₂_sameFrame_trans hr₂ hr₃)
  · rw [hwalked, hsize, List.append_assoc]
  · rw [hg₃.lets, stores_append, stores_cleanup, List.append_nil]
    rfl

theorem evolves_findVariable (name : String) (L : List Local) :
    Evolves L [] (findVariable name L).2 :=
  .of_sameFrame (forall₂_sameFrame_findVariable name L)

theorem slotsOf_of_emits {j : Job} {L L' : List Local} {c : Code} (h : Emits j L c L') :
    SlotsOf j L c L' := by
  induction h with
  | const | nothing | gc | functionSelf | atom | branchesNil | bodyNil | capturesNil
  | templateNil | paramsNil => exact .refl _
  | argumentsNil => exact fun _ => .refl _
  | progn _ ih | backquote _ ih | macro_ _ ih | unquote _ ih => exact ih
  | @var _ L name v =>
    have h := evolves_findVariable name L
    rwa [← stores_loadCode v] at h
  | @capturesCons L _ _ name v _ _ _ _ ih =>
    have h := (evolves_findVariable name L).trans ih
    simpa [SlotsOf, stores_cons] using h
  | @ifTwo _ _ L₁ _ _ _ _ _ ih₁ ih₂ =>
    have h := (ih₁.trans ((evolves_nextLabel L₁).trans (evolves_nextLabel _))).trans ih₂
    simpa [SlotsOf, stores_cons] using h
  | @ifThree _ _ L₁ _ _ _ _ _ _ _ _ ih₁ ih₂ ih₃ =>
    have h := ((ih₁.trans ((evolves_nextLabel L₁).trans (evolves_nextLabel _))).trans ih₂).trans ih₃
    simpa [SlotsOf, stores_cons] using h
  | @andOr _ L _ _ _ _ ih =>
    have h := (evolves_nextLabel L).trans ih
    simpa [SlotsOf, stores_cons] using h
  | @let1 _ _ L₁ L₂ _ _ name _ _ ih₁ ih₂ =>
    have h := (ih₁.let1 ((evolves_addBinder _ _ _ _).trans ih₂)).trans (evolves_closeBinder _)
    simpa [SlotsOf, stores_cons] using h
  | @branchesCons _ _ _ or after _ _ last _ _ ih₁ ih₂ =>
    have h := ih₁.trans ih₂
    cases last <;> cases or <;> simpa [SlotsOf, stores_cons] using h
  | bodyCons _ _ _ ih₁ ih₂ =>
    have h := ih₁.trans ih₂
    simpa [SlotsOf] using h
  | paramsBind name n _ ih => exact (evolves_addBinder _ _ _ _).trans ih
  | paramsDefault _ _ ih₁ ih₂ => exact (Evolves.of_sameFrame ih₁.1).trans ih₂
  | function name path _ h₂ _ hl hl' ih₁ ih₃ => exact slotsOf_function ih₁ h₂ ih₃ hl hl'
  | list _ ih => simpa [SlotsOf, stores_cons] using ih rfl
  | template _ ih | eval _ ih | load _ _ ih | call _ _ ih | selfCall _ ih | tailCall _ ih =>
    simpa [SlotsOf, stores_cons] using ih
  | lambda _ _ _ _ ih₁ ih₂ =>
    have h := (Evolves.of_sameFrame ih₁.1).trans ih₂
    simpa [SlotsOf, stores_cons] using h
  | argumentsCons _ _ ih₁ ih₂ =>
    intro ha
    have h := ih₁.trans (ih₂ ha)
    simpa [SlotsOf, ha] using h
  | @passing _ _ _ _ _ needed _ _ _ _ _ _ ih₁ ih₂ =>
    have h := (ih₁ rfl).trans (ih₂ rfl)
    simp only [SlotsOf, stores_append, stores_map_push]
    cases hv : needed.variadic <;> simpa [stores_cons] using h
  | templateSplice _ _ ih₁ ih₂ =>
    have h := ih₁.trans ih₂
    simpa [SlotsOf, stores_cons, mergeCode] using h
  | templateCons _ _ ih₁ ih₂ =>
    have h := ih₁.trans ih₂
    simpa [SlotsOf, stores_cons, consCode] using h

/-! ### Reservation -/

theorem setup_append_inj {m n : ℕ} {c c' : Code} (h : setup m ++ c = setup n ++ c') :
    m = n ∧ c = c' := by
  simp only [setup, List.cons_append, List.nil_append, List.cons.injEq, Instr.subEsp.injEq,
    true_and] at h
  exact ⟨by omega, h.2⟩

/-- `(() (let1 (x 1) (let1 (y 2) x)))` -/
def nestedBody : Sexp :=
  .list [.list [], .list [.symbol "let1", .list [.symbol "x", .int 1],
    .list [.symbol "let1", .list [.symbol "y", .int 2], .symbol "x"]]]

/-- `(() (let1 (x (let1 (y 1) (let1 (z 2) z))) x))` : the binding value needs two slots at once,
and the walk, which does not enter it, has counted one. -/
def nestedBinding : Sexp :=
  .list [.list [], .list [.symbol "let1", .list [.symbol "x",
    .list [.symbol "let1", .list [.symbol "y", .int 1],
      .list [.symbol "let1", .list [.symbol "z", .int 2], .symbol "z"]]], .symbol "x"]]

end Lisp

end Bluejay
