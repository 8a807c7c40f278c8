import Mathlib.Tactic.Ring
import Bluejay.Lib.Heights
import Bluejay.Lisp.Emits
import Bluejay.Lisp.Machine
import Bluejay.Lisp.Sexp

/-!
# The stack discipline of compiled code

The code of an expression pops what it has pushed, except that `(gc)`, `(eval …)`, `(load …)` and
a function's reference to itself leave the arguments of their calls on the stack.

* `Instr.leak` : how much an instruction leaves behind.
* `stackHeights` : what instructions do to the height of the stack, leaks not counted.
* `typed_of_emits` : with this, the code of every expression ends at the height it starts from.
* `esp_fragment` : an execution of the code of an expression ends with `esp` lower by the leaks
  of the instructions executed.
* `espKept_iff` : so it keeps `esp` exactly if it executes no instruction that leaks.
-/

namespace Bluejay

namespace Lisp

/-! ### Effects -/

/-- The bytes an instruction pushes. -/
def Instr.pushed : Instr → Option ℤ
  | .pushEbp | .pushEax | .push _ | .pushHere => some 4
  | .popEax => some (-4)
  | .addEsp n => some (-n)
  | .subEsp _ | .movEbpEsp | .movEspEbp | .popEbp | .ret | .jmpHere => none
  | _ => some 0

/-- The bytes that stay on the stack because of the form the instruction is part of: the
arguments of `_do_gc`, `eval` and `load_relative`, which nothing pops, and those of
`create_closure` where it gets the function being compiled. -/
def Instr.leak : Instr → ℕ
  | .callEax | .call .eval => 8
  | .call .loadRelative | .pushHere => 12
  | _ => 0

/-- What instructions do to the height of the stack, if what leaks is not counted. -/
def stackHeights : Heights Instr where
  effect i := i.pushed.map (· - i.leak)
  target
    | .je l | .jne l | .jmp l => some l
    | _ => none
  label
    | .label l => some l
    | _ => none
  target_effect {i l} h := by
    cases i <;> first | rfl | cases h

/-! ### Labels -/

/-- The labels that stand in the code. -/
def labels (c : Code) : List ℕ := c.filterMap stackHeights.label

section Labels

variable (c c' : Code)

@[simp] theorem labels_nil : labels [] = [] := rfl

@[simp] theorem labels_append : labels (c ++ c') = labels c ++ labels c' := List.filterMap_append

@[simp] theorem labels_cons_label (l : ℕ) : labels (.label l :: c) = l :: labels c := rfl

theorem labels_cons {i : Instr} (hi : ∀ l, i ≠ .label l) : labels (i :: c) = labels c := by
  cases i <;> first | rfl | exact absurd rfl (hi _)

theorem labels_eq_nil (h : ∀ l, .label l ∉ c) : labels c = [] := by
  induction c with
  | nil => rfl
  | cons i c ih =>
    rw [labels_cons c fun l hl => h l (by simp [hl])]
    exact ih fun l hl => h l (List.mem_cons_of_mem i hl)

@[simp] theorem labels_loadCode (v : Variable) : labels (loadCode v) = [] :=
  labels_eq_nil _ fun l => by unfold loadCode; split <;> simp

@[simp] theorem labels_tailCall (n : ℕ) : labels (tailCall n) = [] :=
  labels_eq_nil _ fun l => by simp [tailCall]

@[simp] theorem labels_map_push {α : Type} (f : α → Imm) (os : List α) :
    labels (os.map fun o => .push (f o)) = [] :=
  labels_eq_nil _ fun l => by simp

end Labels

theorem nextLabel_nextLabel {L : List Local} (hL : L ≠ []) :
    nextLabel (L.modifyHead Local.nextLabel) = nextLabel L + 1 := by
  cases L with
  | nil => exact absurd rfl hL
  | cons l rest => rfl

theorem nextpc_allocSlot (l : Local) : l.allocSlot.nextpc = l.nextpc := by
  show l.alloc.2.nextpc = _
  unfold Local.alloc
  split <;> rfl

theorem nextLabel_modifyHead (g : Local → Local) (hg : ∀ l, (g l).nextpc = l.nextpc)
    (L : List Local) : nextLabel (L.modifyHead g) = nextLabel L := by
  cases L with
  | nil => rfl
  | cons l rest => exact hg l

theorem nextLabel_captures {L L' : List Local} (h : List.Forall₂ Captures L L') :
    nextLabel L' = nextLabel L := by
  cases h with
  | nil => rfl
  | cons hl _ =>
    obtain ⟨vars, -, rfl⟩ := hl
    rfl

/-- The labels of the code are those handed out meanwhile, each at most once. -/
def LabelRange (L : List Local) (c : Code) (L' : List Local) : Prop :=
  L ≠ [] → L' ≠ [] ∧ nextLabel L ≤ nextLabel L' ∧
    ∀ x, (labels c).count x ≤ if nextLabel L ≤ x ∧ x < nextLabel L' then 1 else 0

theorem LabelRange.trans {L L₁ L₂ : List Local} {c c' : Code} (h : LabelRange L c L₁)
    (h' : LabelRange L₁ c' L₂) : LabelRange L (c ++ c') L₂ := by
  intro hL
  obtain ⟨hL₁, hle, hc⟩ := h hL
  obtain ⟨hL₂, hle', hc'⟩ := h' hL₁
  refine ⟨hL₂, hle.trans hle', fun x => ?_⟩
  have hx := hc x
  have hx' := hc' x
  rw [labels_append, List.count_append]
  split_ifs at hx hx' ⊢ <;> omega

theorem LabelRange.of_eq {L L' : List Local} {c : Code} (hc : labels c = [])
    (hL : L ≠ [] → L' ≠ [] ∧ nextLabel L' = nextLabel L) : LabelRange L c L' := by
  intro h
  obtain ⟨hL', heq⟩ := hL h
  exact ⟨hL', heq.ge, fun x => by simp [hc]⟩

theorem LabelRange.of_captures {L L' : List Local} (h : List.Forall₂ Captures L L') {c : Code}
    (hc : labels c = []) : LabelRange L c L' := by
  refine .of_eq hc fun hL => ⟨?_, nextLabel_captures h⟩
  rintro rfl
  cases h
  exact hL rfl

theorem LabelRange.modifyHead (g : Local → Local) (hg : ∀ l, (g l).nextpc = l.nextpc)
    (L : List Local) : LabelRange L [] (L.modifyHead g) :=
  .of_eq rfl fun hL => ⟨by simpa using hL, nextLabel_modifyHead g hg L⟩

/-- The order of the labels does not matter. -/
theorem LabelRange.of_count {L L' : List Local} {c c' : Code} (h : LabelRange L c L')
    (hc : ∀ x, (labels c').count x = (labels c).count x) : LabelRange L c' L' := by
  intro hL
  obtain ⟨hL', hle, hx⟩ := h hL
  exact ⟨hL', hle, fun x => (hc x).trans_le (hx x)⟩

theorem LabelRange.fresh (L : List Local) :
    LabelRange L [.label (nextLabel L)] (L.modifyHead Local.nextLabel) := by
  intro hL
  rw [nextLabel_nextLabel hL]
  refine ⟨by simpa using hL, by omega, fun x => ?_⟩
  simp only [labels_cons_label, labels_nil, List.count_singleton, beq_iff_eq]
  split_ifs <;> omega

theorem LabelRange.fresh_two (L : List Local) :
    LabelRange L [.label (nextLabel L), .label (nextLabel L + 1)]
      ((L.modifyHead Local.nextLabel).modifyHead Local.nextLabel) := by
  intro hL
  rw [← nextLabel_nextLabel hL]
  exact (LabelRange.fresh L).trans (.fresh _) hL

/-- What a job does to the labels; the labels of a whole function are unique. -/
def LabelsOf : Job → List Local → Code → List Local → Prop
  | .function _ d _, _, _, _ => stackHeights.LabelsUnique d
  | .arguments _ after, L, c, L' => labels after = [] → LabelRange L c L'
  | _, L, c, L' => LabelRange L c L'

theorem labelsOf_of_emits {j : Job} {L L' : List Local} {c : Code} (h : Emits j L c L') :
    LabelsOf j L c L' := by
  have hrefl : ∀ L, List.Forall₂ Captures L L := forall₂_captures_refl
  have hbind : ∀ type name k L, LabelRange L [] (L.modifyHead (Local.addBinder type name k)) :=
    fun _ _ _ => .modifyHead _ fun _ => rfl
  induction h with
  | const | nothing | gc | functionSelf | atom | branchesNil | bodyNil | capturesNil
  | templateNil | paramsNil => exact .of_captures (hrefl _) rfl
  | argumentsNil => exact fun _ => .of_captures (hrefl _) rfl
  | var => exact .of_captures (captures_findVariable _ _) (labels_loadCode _)
  | capturesCons _ _ _ _ ih =>
    have h := (LabelRange.of_captures (captures_findVariable _ _) labels_nil).trans ih
    exact h.of_count fun x => by simp [labels_cons]
  | progn _ ih | backquote _ ih | macro_ _ ih | unquote _ ih => exact ih
  | list _ ih => exact (ih rfl).of_count fun x => by simp [labels_cons]
  | template _ ih | eval _ ih | load _ _ ih | call _ _ ih | selfCall _ ih | tailCall _ ih =>
    exact LabelRange.of_count ih fun x => by simp [labels_cons]
  | @ifTwo _ _ L₁ _ _ _ _ _ ih₁ ih₂ =>
    have h := (LabelRange.trans ih₁ (.fresh_two L₁)).trans ih₂
    exact h.of_count fun x => by simp [labels_cons, List.count_append, List.count_cons]; omega
  | @ifThree _ _ L₁ _ _ _ _ _ _ _ _ ih₁ ih₂ ih₃ =>
    have h := ((LabelRange.trans ih₁ (.fresh_two L₁)).trans ih₂).trans ih₃
    exact h.of_count fun x => by simp [labels_cons, List.count_append, List.count_cons]; omega
  | @andOr _ L _ _ _ _ ih =>
    have h := (LabelRange.fresh L).trans ih
    exact h.of_count fun x => by simp [List.count_append, List.count_cons]
  | paramsBind _ _ _ ih => exact (hbind _ _ _ _).trans ih
  | @let1 _ _ L₁ L₂ _ _ name _ _ ih₁ ih₂ =>
    have h := ((LabelRange.trans ih₁ (.modifyHead Local.allocSlot nextpc_allocSlot L₁)).trans
      (hbind _ _ _ _)).trans ih₂
    have h' := (h.trans (.modifyHead (Local.freeSlot (nextSlot L₁)) (fun _ => rfl) L₂)).trans
      (.modifyHead Local.closeBinder (fun _ => rfl) _)
    exact h'.of_count fun x => by simp [labels_cons]
  | lambda _ _ h₁ _ _ ih₂ =>
    have h := (LabelRange.of_captures (outerOf_of_emits h₁) labels_nil).trans ih₂
    exact h.of_count fun x => by simp [labels_cons]
  | paramsDefault h₁ _ _ ih₂ => exact (LabelRange.of_captures (outerOf_of_emits h₁) labels_nil).trans ih₂
  | @branchesCons _ _ _ or after _ _ last _ _ ih₁ ih₂ =>
    have h := LabelRange.trans ih₁ ih₂
    exact h.of_count fun x => by cases last <;> cases or <;> simp [labels_cons]
  | bodyCons _ _ _ ih₁ ih₂ => exact LabelRange.trans ih₁ ih₂
  | argumentsCons _ _ ih₁ ih₂ =>
    intro ha
    exact (LabelRange.trans ih₁ (ih₂ ha)).of_count fun x => by simp [ha]
  | @passing _ _ _ _ _ needed _ _ _ _ _ _ ih₁ ih₂ =>
    refine (LabelRange.trans (ih₁ rfl) (ih₂ rfl)).of_count fun x => ?_
    simp only [labels_append, labels_map_push]
    cases needed.variadic <;> simp [labels_cons]
  | templateSplice _ _ ih₁ ih₂ =>
    exact (LabelRange.trans ih₁ ih₂).of_count fun x => by simp [labels_cons, mergeCode]
  | templateCons _ _ ih₁ ih₂ =>
    exact (LabelRange.trans ih₁ ih₂).of_count fun x => by simp [labels_cons, consCode]
  | @function L L₁ L₂ L₃ c l l₂ closed ar _ _ _ h₂ _ hl _ ih₁ ih₃ =>
    have hL₂ : L₂.modifyHead Local.resetSlots ≠ [] := by
      cases L₂ with
      | nil => cases hl
      | cons l rest => simp
    obtain ⟨-, -, hx⟩ := ih₃ hL₂
    refine List.nodup_iff_count_le_one.2 fun x => ?_
    show (labels (setup _ ++ c ++ cleanup)).count x ≤ 1
    have hx := hx x
    simp only [labels_append, List.count_append]
    show 0 + _ + 0 ≤ 1
    split_ifs at hx <;> omega

/-! ### Heights -/

/-- `Heights.Typed`, for compiled code. -/
abbrev Typed (Γ : ℕ → ℤ) (d : ℤ) (c : Code) (d' : ℤ) : Prop := stackHeights.Typed Γ d c d'

section Typed

variable {Γ : ℕ → ℤ} {d d' : ℤ}

theorem typed_nil (hd : 0 ≤ d) : Typed Γ d [] d := ⟨hd, rfl⟩

/-- An instruction that is neither a jump nor a label. -/
theorem typed_cons {i : Instr} {c : Code} {e : ℤ} (hd : 0 ≤ d)
    (he : stackHeights.effect i = some e)
    (hi : stackHeights.target i = none ∧ stackHeights.label i = none)
    (h : Typed Γ (d + e) c d') : Typed Γ d (i :: c) d' :=
  ⟨hd, fun l hl => by simp [hi] at hl, e, he, h⟩

/-- Jumps and labels where the height is that of the labels. -/
theorem typed_flat {c : Code} (hd : 0 ≤ d) (h : ∀ i ∈ c, stackHeights.effect i = some 0 ∧
    ∀ l, stackHeights.target i = some l ∨ stackHeights.label i = some l → Γ l = d) :
    Typed Γ d c d := by
  induction c with
  | nil => exact typed_nil hd
  | cons i c ih =>
    rw [List.forall_mem_cons] at h
    exact ⟨hd, h.1.2, 0, h.1.1, by simpa using ih h.2⟩

theorem typed_loadCode (v : Variable) (hd : 0 ≤ d) : Typed Γ d (loadCode v) d := by
  unfold loadCode
  split
  case h_4 => exact typed_nil hd
  all_goals exact ⟨hd, by simp [stackHeights], 0, rfl, by omega, by omega⟩

theorem typed_pushes {α : Type} (f : α → Imm) (os : List α) (hd : 0 ≤ d) :
    Typed Γ d (os.map fun o => .push (f o)) (d + 4 * os.length) := by
  induction os generalizing d with
  | nil => exact ⟨hd, by simp⟩
  | cons o os ih =>
    refine typed_cons (e := 4) hd rfl ⟨rfl, rfl⟩ ?_
    convert ih (d := d + 4) (by omega) using 1
    push_cast [List.length_cons]
    omega

/-- Instructions that are neither jumps nor labels. -/
theorem typed_straight {c : Code} (lo e : ℤ) (h : stackHeights.straight c = some (lo, e))
    (hd : 0 ≤ d + lo) : Typed Γ d c (d + e) :=
  Heights.typed_straight h hd

/-- The same, if they leave the height as it is. -/
theorem typed_balanced {c : Code} (lo : ℤ) (h : stackHeights.straight c = some (lo, 0))
    (hd : 0 ≤ d + lo) : Typed Γ d c d := by
  simpa using typed_straight lo 0 h hd

theorem typed_pushEax (hd : 0 ≤ d) : Typed Γ d [.pushEax] (d + 4) :=
  typed_straight 0 4 rfl (by simpa)

/-- Pop what has been pushed before. -/
theorem typed_popEax (hd : 0 ≤ d) : Typed Γ (d + 4) [.popEax] d := by
  simpa using typed_straight (Γ := Γ) (-4) (-4) (c := [.popEax]) (d := d + 4) rfl (by omega)

/-- A call, and the removal of its arguments. -/
theorem typed_call {i : Instr} {n : ℕ} (hd : 0 ≤ d) (hi : stackHeights.straight [i] = some (0, 0)) :
    Typed Γ (d + 4 * n) [i, .addEsp (n * 4)] d := by
  have h₁ := typed_balanced (Γ := Γ) (d := d + 4 * n) 0 hi (by omega)
  refine h₁.append ?_
  refine ⟨by omega, by simp [stackHeights], -(4 * n), ?_, by omega, by omega⟩
  simp [stackHeights, Instr.pushed, Instr.leak]
  omega

/-- The call that stores a captured variable, with the closure on the stack. -/
theorem typed_capture (hd : 0 ≤ d) (n : ℕ) : Typed Γ (d + 4) [.pushEax, .push (.nat n),
    .call .setClosureCaptureVariable, .addEsp 8, .popEax] d := by
  simpa using typed_straight (Γ := Γ) (-4) (-4) (d := d + 4) (c := [.pushEax, .push (.nat n),
    .call .setClosureCaptureVariable, .addEsp 8, .popEax]) rfl (by omega)

end Typed

/-- No label is given back. -/
def Forward (L L' : List Local) : Prop := L ≠ [] → L' ≠ [] ∧ nextLabel L ≤ nextLabel L'

theorem Forward.refl (L : List Local) : Forward L L := fun hL => ⟨hL, le_rfl⟩

theorem Forward.trans {L L₁ L₂ : List Local} (h : Forward L L₁) (h' : Forward L₁ L₂) :
    Forward L L₂ := fun hL =>
  ⟨(h' (h hL).1).1, (h hL).2.trans (h' (h hL).1).2⟩

theorem forward_modifyHead (g : Local → Local) (hg : ∀ l, l.nextpc ≤ (g l).nextpc)
    (L : List Local) : Forward L (L.modifyHead g) := by
  intro hL
  refine ⟨by simpa using hL, ?_⟩
  cases L with
  | nil => exact le_rfl
  | cons l rest => exact hg l

/-- Below `a` and from `b` on, the heights of the labels do not matter. -/
def Agree (a b : ℕ) (Γ Γ₀ : ℕ → ℤ) : Prop := ∀ x, a ≤ x → x < b → Γ x = Γ₀ x

/-- At the start of the code the height is `d`, behind it `d'`, if the labels of `c` have the
right heights, and those handed out before meet `P`. -/
def ShapedIf (P : (ℕ → ℤ) → Prop) (L : List Local) (c : Code) (L' : List Local) (d d' : ℤ) :
    Prop :=
  Forward L L' ∧ ∃ Γ₀ : ℕ → ℤ, ∀ Γ, Agree (nextLabel L) (nextLabel L') Γ Γ₀ → P Γ → Typed Γ d c d'

/-- At the start of the code the height is `d`, behind it `d'`. -/
abbrev Shaped (L : List Local) (c : Code) (L' : List Local) (d d' : ℤ) : Prop :=
  ShapedIf (fun _ => True) L c L' d d'

section Shaped

variable {P Q : (ℕ → ℤ) → Prop} {L L₁ L₂ : List Local} {c c' : Code} {d e d' : ℤ}

theorem ShapedIf.of_typed (hL : Forward L L₁) (h : ∀ Γ, P Γ → Typed Γ d c d') :
    ShapedIf P L c L₁ d d' :=
  ⟨hL, fun _ => 0, fun Γ _ => h Γ⟩

theorem ShapedIf.mono (hPQ : ∀ Γ, Q Γ → P Γ) (h : ShapedIf P L c L₁ d d') :
    ShapedIf Q L c L₁ d d' := by
  obtain ⟨hL, Γ₀, h⟩ := h
  exact ⟨hL, Γ₀, fun Γ ha hq => h Γ ha (hPQ Γ hq)⟩

/-- Two ranges of labels, one behind the other. -/
theorem Agree.split {a b e : ℕ} (hab : a ≤ b) (hbe : b ≤ e) {Γ Γ₁ Γ₂ : ℕ → ℤ}
    (h : Agree a e Γ fun x => if x < b then Γ₁ x else Γ₂ x) : Agree a b Γ Γ₁ ∧ Agree b e Γ Γ₂ := by
  refine ⟨fun x hx hx' => ?_, fun x hx hx' => ?_⟩
  · exact (h x hx (by omega)).trans (if_pos hx')
  · exact (h x (by omega) hx').trans (if_neg (by omega))

theorem ShapedIf.trans (hL : L ≠ []) (h : ShapedIf P L c L₁ d e) (h' : ShapedIf P L₁ c' L₂ e d') :
    ShapedIf P L (c ++ c') L₂ d d' := by
  obtain ⟨hf, Γ₁, h⟩ := h
  obtain ⟨hf', Γ₂, h'⟩ := h'
  refine ⟨hf.trans hf', fun x => if x < nextLabel L₁ then Γ₁ x else Γ₂ x, fun Γ hΓ hP => ?_⟩
  obtain ⟨hΓ₁, hΓ₂⟩ := hΓ.split (hf hL).2 (hf' (hf hL).1).2
  exact (h Γ hΓ₁ hP).append (h' Γ hΓ₂ hP)

/-- Code that jumps nowhere, behind. -/
theorem ShapedIf.append (h : ShapedIf P L c L₁ d e) (h' : ∀ Γ, P Γ → Typed Γ e c' d') :
    ShapedIf P L (c ++ c') L₁ d d' := by
  obtain ⟨hf, Γ₀, h⟩ := h
  exact ⟨hf, Γ₀, fun Γ ha hP => (h Γ ha hP).append (h' Γ hP)⟩

/-- Code that jumps nowhere, in front. -/
theorem ShapedIf.prepend (h : ShapedIf P L c' L₁ e d') (h' : ∀ Γ, P Γ → Typed Γ d c e) :
    ShapedIf P L (c ++ c') L₁ d d' := by
  obtain ⟨hf, Γ₀, h⟩ := h
  exact ⟨hf, Γ₀, fun Γ ha hP => (h' Γ hP).append (h Γ ha hP)⟩

/-- A step that hands out no label, in front. -/
theorem ShapedIf.of_forward (hf : Forward L L₁) (hn : nextLabel L₁ = nextLabel L)
    (h : ShapedIf P L₁ c L₂ d d') : ShapedIf P L c L₂ d d' := by
  obtain ⟨hf', Γ₀, h⟩ := h
  exact ⟨hf.trans hf', Γ₀, hn ▸ h⟩

/-- A step that hands out no label, behind. -/
theorem ShapedIf.forward (h : ShapedIf P L c L₁ d d') (hf : Forward L₁ L₂)
    (hn : nextLabel L₂ = nextLabel L₁) : ShapedIf P L c L₂ d d' := by
  obtain ⟨hf', Γ₀, h⟩ := h
  exact ⟨hf'.trans hf, Γ₀, hn ▸ h⟩

theorem ShapedIf.of_modifyHead (g : Local → Local) (hg : ∀ l, (g l).nextpc = l.nextpc)
    (h : ShapedIf P (L.modifyHead g) c L₁ d d') : ShapedIf P L c L₁ d d' :=
  h.of_forward (forward_modifyHead g (fun l => (hg l).ge) L) (nextLabel_modifyHead g hg L)

theorem ShapedIf.modifyHead (g : Local → Local) (hg : ∀ l, (g l).nextpc = l.nextpc)
    (h : ShapedIf P L c L₁ d d') : ShapedIf P L c (L₁.modifyHead g) d d' :=
  h.forward (forward_modifyHead g (fun l => (hg l).ge) L₁) (nextLabel_modifyHead g hg L₁)

/-- Labels are handed out, which all have the height `e`. -/
theorem ShapedIf.fresh (n : ℕ) (hL : L ≠ []) (hf : Forward L L₁)
    (hn : nextLabel L₁ = nextLabel L + n)
    (h : ShapedIf (fun Γ => P Γ ∧ ∀ k < n, Γ (nextLabel L + k) = e) L₁ c L₂ d d') :
    ShapedIf P L c L₂ d d' := by
  obtain ⟨hf', Γ₀, h⟩ := h
  refine ⟨hf.trans hf', fun x => if x < nextLabel L₁ then e else Γ₀ x, fun Γ hΓ hP => ?_⟩
  obtain ⟨he, hΓ⟩ := hΓ.split (hf hL).2 (hf' (hf hL).1).2
  exact h Γ hΓ ⟨hP, fun k hk => he _ (by omega) (by omega)⟩

end Shaped

/-- The heights at the ends of the code of a job that is not in tail position. -/
def ShapedOf : Job → List Local → Code → List Local → Prop
  | .expr tail, L, c, L' | .body tail, L, c, L' => tail = false → ∀ d, 0 ≤ d → Shaped L c L' d d
  | .backquote, L, c, L' | .captures, L, c, L' => ∀ d, 0 ≤ d → Shaped L c L' d d
  | .branches _ after, L, c, L' => ∀ d, 0 ≤ d → ShapedIf (fun Γ => Γ after = d) L c L' d d
  | .template _, L, c, L' => ∀ d, 4 ≤ d → Shaped L c L' d d
  | .arguments n after, L, c, L' => ∀ d e, 0 ≤ d → 0 ≤ e →
      (n ≠ 0 → ∀ Γ d', d ≤ d' → Typed Γ d' after (d' + e)) → Shaped L c L' d (d + n * e)
  | .passing needed, L, c, L' => ∀ d, 0 ≤ d → Shaped L c L' d (d + 4 * realNargs needed)
  | .params, _, _, _ | .function _ _ _, _, _, _ => True

theorem shaped_nil {L L' : List Local} {d : ℤ} (hL : Forward L L') (hd : 0 ≤ d) :
    Shaped L [] L' d d :=
  .of_typed hL fun _ _ => typed_nil hd

theorem forward_captures {L L' : List Local} (h : List.Forall₂ Captures L L') : Forward L L' := by
  refine fun hL => ⟨?_, (nextLabel_captures h).ge⟩
  rintro rfl
  cases h
  exact hL rfl

theorem forward_fresh_two (L : List Local) :
    Forward L ((L.modifyHead Local.nextLabel).modifyHead Local.nextLabel) :=
  (forward_modifyHead Local.nextLabel (fun _ => Nat.le_succ _) L).trans
    (forward_modifyHead Local.nextLabel (fun _ => Nat.le_succ _) _)

theorem nextLabel_fresh_two {L : List Local} (hL : L ≠ []) :
    nextLabel ((L.modifyHead Local.nextLabel).modifyHead Local.nextLabel) = nextLabel L + 2 := by
  rw [nextLabel_nextLabel (by simpa using hL), nextLabel_nextLabel hL]

/-- The words that are pushed for a call are those the function finds on the stack. -/
theorem passing_height {needed : Args} {nargs : ℕ} (h : areArgsAcceptable needed nargs) (d : ℤ) :
    d + 4 * realNargs needed = d + (if needed.variadic then 4 else 0) +
      4 * (needed.numOptional - (nargs - needed.numRequired) : ℕ) +
      (min nargs (needed.numOptional + needed.numRequired) : ℕ) * 4 := by
  unfold areArgsAcceptable at h
  unfold realNargs
  cases hv : needed.variadic <;> simp [hv] at h ⊢ <;> omega

theorem shapedOf_of_emits {j : Job} {L L' : List Local} {c : Code} (h : Emits j L c L') :
    L ≠ [] → ShapedOf j L c L' := by
  have hvar : ∀ {L name} (v : Variable) d, 0 ≤ d →
      Shaped L (loadCode v) (findVariable name L).2 d d := fun v d hd =>
    .of_typed (forward_captures (captures_findVariable _ _)) fun _ _ => typed_loadCode v hd
  induction h with
  | const i => exact fun _ _ d hd => .of_typed (.refl _) fun _ _ => typed_balanced 0 rfl (by simpa)
  | gc | functionSelf => exact fun _ _ d hd => .of_typed (.refl _) fun _ _ => typed_balanced 0 rfl (by simpa)
  | atom i => exact fun _ d hd => .of_typed (.refl _) fun _ _ => typed_balanced 0 rfl (by simpa)
  | nothing | bodyNil => exact fun _ _ d hd => shaped_nil (.refl _) hd
  | var => exact fun _ _ d hd => hvar _ d hd
  | progn _ ih => exact ih
  | macro_ _ ih => exact fun hL _ => ih hL rfl
  | backquote _ ih => exact fun hL _ => ih hL
  | unquote _ ih => exact fun hL => ih hL rfl
  | eval _ ih | load _ _ ih =>
    exact fun hL _ d hd => (ih hL rfl d hd).append fun _ _ => typed_balanced 0 rfl (by simpa)
  | @ifTwo tail _ L₁ L₂ c₁ c₂ _ _ ih₁ ih₂ =>
    intro hL ht d hd
    have h₁ := ih₁ hL rfl d hd
    have hL₁ := (h₁.1 hL).1
    have h₂ := ih₂ (by simpa using hL₁) ht d hd
    simp only [List.append_assoc]
    refine h₁.trans hL (ShapedIf.fresh (e := d) 2 hL₁ (forward_fresh_two L₁)
      (nextLabel_fresh_two hL₁) ?_)
    refine ((h₂.mono fun _ _ => trivial).append ?_).prepend ?_
    · rintro Γ ⟨-, hΓ⟩
      have ha := hΓ 0 (by omega)
      have hb := hΓ 1 (by omega)
      exact typed_flat hd (by simp [stackHeights, Instr.pushed, Instr.leak, hb, ← ha])
    · rintro Γ ⟨-, hΓ⟩
      have ha := hΓ 0 (by omega)
      exact typed_flat hd (by simp [stackHeights, Instr.pushed, Instr.leak, ← ha])
  | @ifThree tail _ L₁ L₂ L₃ c₁ c₂ c₃ _ _ _ ih₁ ih₂ ih₃ =>
    intro hL ht d hd
    have h₁ := ih₁ hL rfl d hd
    have hL₁ := (h₁.1 hL).1
    have h₂ := ih₂ (by simpa using hL₁) ht d hd
    have h₃ := ih₃ (h₂.1 (by simpa using hL₁)).1 ht d hd
    simp only [List.append_assoc]
    refine h₁.trans hL (ShapedIf.fresh (e := d) 2 hL₁ (forward_fresh_two L₁)
      (nextLabel_fresh_two hL₁) ?_)
    refine ShapedIf.prepend ((h₂.mono fun _ _ => trivial).trans (by simpa using hL₁)
      (((h₃.mono fun _ _ => trivial).append ?_).prepend ?_)) ?_
    · rintro Γ ⟨-, hΓ⟩
      have hb := hΓ 1 (by omega)
      exact typed_flat hd (by simp [stackHeights, Instr.pushed, Instr.leak, hb])
    · rintro Γ ⟨-, hΓ⟩
      have ha := hΓ 0 (by omega)
      have hb := hΓ 1 (by omega)
      exact typed_flat hd (by simp [stackHeights, Instr.pushed, Instr.leak, hb, ← ha])
    · rintro Γ ⟨-, hΓ⟩
      have ha := hΓ 0 (by omega)
      exact typed_flat hd (by simp [stackHeights, Instr.pushed, Instr.leak, ← ha])
  | @andOr _ L L₁ c or h ih =>
    intro hL _ d hd
    refine ShapedIf.fresh (e := d) 1 hL (forward_modifyHead Local.nextLabel
      (fun _ => Nat.le_succ _) L) (nextLabel_nextLabel hL) ?_
    refine ((ih (by simpa using hL) d hd).mono fun Γ hΓ => hΓ.2 0 (by omega)).append ?_
    rintro Γ ⟨-, hΓ⟩
    have ha := hΓ 0 (by omega)
    exact typed_flat hd (by simp [stackHeights, Instr.pushed, Instr.leak, ← ha])
  | branchesNil => exact fun _ d hd => .of_typed (.refl _) fun _ _ => typed_nil hd
  | branchesCons last _ _ ih₁ ih₂ =>
    intro hL d hd
    have h₁ := ih₁ hL rfl d hd
    refine ((h₁.mono fun _ _ => trivial).append fun Γ hΓ => ?_).trans hL
      (ih₂ (h₁.1 hL).1 d hd)
    refine typed_flat hd ?_
    rename_i or _ _ _ _ _
    cases last <;> cases or <;> simp [stackHeights, Instr.pushed, Instr.leak, hΓ]
  | bodyCons ht _ _ ih₁ ih₂ =>
    intro hL htail d hd
    have h₁ := ih₁ hL (by simpa [htail] using ht) d hd
    exact h₁.trans hL (ih₂ (h₁.1 hL).1 htail d hd)
  | @let1 tail _ L₁ L₂ c₁ c₂ name _ _ ih₁ ih₂ =>
    intro hL ht d hd
    have h₁ := ih₁ hL rfl d hd
    have h₂ := ih₂ (by simpa using (h₁.1 hL).1) ht d hd
    have h₃ := (h₂.of_modifyHead (Local.addBinder .bound name _) fun _ => rfl).of_modifyHead
      Local.allocSlot nextpc_allocSlot
    have h₄ := h₁.append fun Γ _ => typed_balanced (c := [.storeBound (nextSlot L₁)]) 0 rfl
      (by simpa)
    exact ((h₄.trans hL h₃).modifyHead (Local.freeSlot (nextSlot L₁)) fun _ => rfl).modifyHead
      Local.closeBinder fun _ => rfl
  | list _ ih =>
    intro hL _ d hd
    have h := ih hL (d + 4) 0 (by omega) le_rfl fun _ Γ d' hd' => by
      simpa using typed_balanced (-4) rfl (by omega)
    rw [mul_zero, add_zero] at h
    refine ShapedIf.append (h.prepend fun Γ _ => typed_straight 0 4 rfl (by simpa)) fun Γ _ => ?_
    exact typed_popEax hd
  | lambda a p h₁ _ _ ih₂ =>
    intro hL _ d hd
    have hc := outerOf_of_emits h₁
    have hf := forward_captures hc
    have h := (ih₂ (hf hL).1 d hd).of_forward hf (nextLabel_captures hc)
    exact h.prepend fun Γ _ => typed_balanced 0 rfl (by simpa)
  | call f _ ih =>
    intro hL _ d hd
    exact (ih hL d hd).append fun Γ _ => typed_call hd rfl
  | selfCall _ ih =>
    intro hL _ d hd
    exact (ih hL d hd).append fun Γ _ => typed_call hd rfl
  | tailCall => exact fun _ ht => by cases ht
  | argumentsNil =>
    intro _ d e hd _ _
    simpa using shaped_nil (.refl _) hd
  | argumentsCons _ _ ih₁ ih₂ =>
    intro hL d e hd he ha
    have ha := ha (Nat.succ_ne_zero _)
    have h₁ := ih₁ hL rfl d hd
    have h₂ := ih₂ (h₁.1 hL).1 (d + e) e (by omega) he fun _ Γ d' hd' => ha Γ d' (by omega)
    have h := (h₁.append fun Γ _ => ha Γ d le_rfl).trans hL h₂
    convert h using 1
    push_cast
    ring
  | @passing _ _ _ _ _ needed nargs surplus hok hs _ _ ih₁ ih₂ =>
    intro hL d hd
    have hpre : ∀ Γ, Typed Γ d (if needed.variadic then [.push (.word nil)] else [])
        (d + if needed.variadic then 4 else 0) := fun Γ => by
      cases needed.variadic with
      | false => simpa using typed_nil hd
      | true => exact typed_straight 0 4 rfl (by simpa)
    have hd₁ : 0 ≤ d + if needed.variadic then 4 else 0 := by split <;> omega
    generalize hos : (needed.optionalArguments.drop (nargs - needed.numRequired)).reverse = os
    have hlen : os.length = needed.numOptional - (nargs - needed.numRequired) := by
      rw [← hos, List.length_reverse, List.length_drop, Args.numOptional]
    have h₁ := ih₁ hL _ 0 hd₁ le_rfl fun hn Γ d' hd' => by
      rw [hs hn, if_pos rfl] at hd'
      simpa using typed_balanced (-4) rfl (by omega)
    rw [mul_zero, add_zero] at h₁
    have h₂ := ih₂ (h₁.1 hL).1 ((d + if needed.variadic then 4 else 0) + 4 * os.length) 4
      (by omega) (by omega) fun _ Γ d' hd' => typed_pushEax (by omega)
    have h := ((h₁.prepend fun Γ _ => hpre Γ).append fun Γ _ =>
      typed_pushes (fun o : OptionalArgument => .word o.value) os hd₁).trans hL h₂
    convert h using 1
    rw [hlen]
    exact passing_height hok d
  | capturesNil => exact fun _ d hd => shaped_nil (.refl _) hd
  | @capturesCons L L₁ c name v n hv hg h ih =>
    intro hL d hd
    have hf := forward_captures (captures_findVariable name L)
    have h₁ := ((@hvar L name v (d + 4) (by omega)).prepend fun Γ _ =>
      typed_pushEax hd).append fun Γ _ => typed_capture hd n
    exact h₁.trans hL (ih (hf hL).1 d hd)
  | template _ ih =>
    intro hL d hd
    have h := ih hL (d + 4) (by omega)
    refine ShapedIf.append (h.prepend fun Γ _ => typed_straight 0 4 rfl (by simpa)) fun Γ _ => ?_
    exact typed_popEax hd
  | templateNil => exact fun _ d hd => shaped_nil (.refl _) (by omega)
  | templateSplice _ _ ih₁ ih₂ =>
    intro hL d hd
    have h₁ := ih₁ hL rfl d (by omega)
    refine (h₁.append fun Γ _ => ?_).trans hL (ih₂ (h₁.1 hL).1 d hd)
    exact typed_balanced (-4) rfl (by omega)
  | templateCons _ _ ih₁ ih₂ =>
    intro hL d hd
    have h₁ := ih₁ hL d (by omega)
    refine (h₁.append fun Γ _ => ?_).trans hL (ih₂ (h₁.1 hL).1 d hd)
    exact typed_balanced (-4) rfl (by omega)
  | paramsNil | paramsBind | paramsDefault | function => exact fun _ => trivial

/-! ### Jumps -/

/-- The code jumps to the label `l`. -/
def JumpsTo (c : Code) (l : ℕ) : Prop := .je l ∈ c ∨ .jne l ∈ c ∨ .jmp l ∈ c

/-- Every jump leads to a label in the code, or to one of `S`. -/
def ClosedBut (S : List ℕ) (c : Code) : Prop := ∀ l, JumpsTo c l → .label l ∈ c ∨ l ∈ S

section ClosedBut

variable {S : List ℕ} {c c' : Code}

theorem ClosedBut.append (h : ClosedBut S c) (h' : ClosedBut S c') : ClosedBut S (c ++ c') := by
  intro l hl
  have hl : JumpsTo c l ∨ JumpsTo c' l := by
    simp only [JumpsTo, List.mem_append] at hl ⊢
    tauto
  simp only [List.mem_append]
  rcases hl with hl | hl
  · exact (h l hl).imp_left .inl
  · exact (h' l hl).imp_left .inr

theorem ClosedBut.of_noJump (h : ∀ l, ¬ JumpsTo c l) : ClosedBut S c :=
  fun l hl => absurd hl (h l)

theorem ClosedBut.mono (h : ClosedBut [] c) : ClosedBut S c :=
  fun l hl => .inl ((h l hl).resolve_right List.not_mem_nil)

/-- The labels left out stand in the code after all. -/
theorem ClosedBut.discharge (h : ClosedBut S c) (hS : ∀ l ∈ S, .label l ∈ c) : ClosedBut [] c :=
  fun l hl => .inl ((h l hl).elim id (hS l))

theorem closed_of_closedBut (h : ClosedBut [] c) : stackHeights.Closed c := by
  intro l hl
  obtain ⟨i, hi, hil⟩ := List.mem_filterMap.1 hl
  refine List.mem_filterMap.2 ⟨.label l, ?_, rfl⟩
  refine (h l ?_).resolve_right List.not_mem_nil
  cases i with
  | je k | jne k | jmp k =>
    obtain rfl : k = l := by simpa [stackHeights] using hil
    simp [JumpsTo, hi]
  | _ => simp [stackHeights] at hil

end ClosedBut

/-- The jumps of a job stay in its code, but for those of `and` and `or`. -/
def ClosedOf : Job → Code → Prop
  | .branches _ after, c => ClosedBut [after] c
  | .arguments _ after, c => (∀ l, ¬ JumpsTo after l) → ClosedBut [] c
  | _, c => ClosedBut [] c

theorem closedOf_of_emits {j : Job} {L L' : List Local} {c : Code} (h : Emits j L c L') :
    ClosedOf j c := by
  have hload : ∀ v, ClosedBut [] (loadCode v) := fun v => .of_noJump fun l => by
    unfold loadCode
    split <;> simp [JumpsTo]
  induction h with
  | const | nothing | gc | functionSelf | atom | bodyNil | capturesNil | templateNil
  | paramsNil | function => exact .of_noJump fun l => by simp [JumpsTo, runGc]
  | branchesNil => exact .of_noJump fun l => by simp [JumpsTo]
  | argumentsNil => exact fun _ => .of_noJump fun l => by simp [JumpsTo]
  | var => exact hload _
  | progn _ ih | backquote _ ih | macro_ _ ih | unquote _ ih | paramsBind _ _ _ ih => exact ih
  | paramsDefault _ _ _ ih => exact ih
  | eval _ ih | load _ _ ih | call _ _ ih | selfCall _ ih =>
    exact ClosedBut.append ih (.of_noJump fun l => by simp [JumpsTo])
  | tailCall _ ih =>
    refine (ClosedBut.append ih (.of_noJump fun l => ?_)).append
      (.of_noJump fun l => by simp [JumpsTo])
    simp [JumpsTo, tailCall]
  | @ifTwo _ _ L₁ _ _ _ _ _ ih₁ ih₂ =>
    refine ClosedBut.discharge (S := [nextLabel L₁, nextLabel L₁ + 1]) ?_ (by simp)
    refine ((ih₁.mono.append fun l hl => .inr ?_).append ih₂.mono).append fun l hl => .inr ?_
    · simpa [JumpsTo] using Or.inl (b := l = nextLabel L₁ + 1) hl
    · simpa [JumpsTo] using Or.inr (a := l = nextLabel L₁) hl
  | @ifThree _ _ L₁ _ _ _ _ _ _ _ _ ih₁ ih₂ ih₃ =>
    refine ClosedBut.discharge (S := [nextLabel L₁, nextLabel L₁ + 1]) ?_ (by simp)
    refine ((((ih₁.mono.append fun l hl => .inr ?_).append ih₂.mono).append fun l hl =>
      .inr ?_).append ih₃.mono).append (.of_noJump fun l => by simp [JumpsTo])
    · simpa [JumpsTo] using Or.inl (b := l = nextLabel L₁ + 1) hl
    · simpa [JumpsTo] using Or.inr (a := l = nextLabel L₁) hl
  | @andOr _ L _ _ _ _ ih =>
    exact (ClosedBut.append ih (.of_noJump fun l => by simp [JumpsTo])).discharge (by simp)
  | let1 _ _ _ ih₁ ih₂ =>
    exact (ClosedBut.append ih₁ (.of_noJump fun l => by simp [JumpsTo])).append ih₂
  | list _ ih =>
    exact (ClosedBut.append (.of_noJump fun l => by simp [JumpsTo])
      (ih fun l => by simp [JumpsTo, consCode])).append (.of_noJump fun l => by simp [JumpsTo])
  | template _ ih =>
    exact (ClosedBut.append (.of_noJump fun l => by simp [JumpsTo]) ih).append
      (.of_noJump fun l => by simp [JumpsTo])
  | lambda _ _ _ _ _ ih => exact ClosedBut.append (.of_noJump fun l => by simp [JumpsTo]) ih
  | branchesCons last _ _ ih₁ ih₂ =>
    refine (ih₁.mono.append fun l hl => .inr ?_).append ih₂
    rename_i or after _ _ _ _
    cases last <;> cases or <;> simp [JumpsTo] at hl
    all_goals exact List.mem_singleton.2 hl
  | bodyCons _ _ _ ih₁ ih₂ => exact ClosedBut.append ih₁ ih₂
  | argumentsCons _ _ ih₁ ih₂ =>
    exact fun ha => (ClosedBut.append ih₁ (.of_noJump ha)).append (ih₂ ha)
  | @passing _ _ _ _ _ needed _ _ _ _ _ _ ih₁ ih₂ =>
    refine ((ClosedBut.append (.of_noJump fun l => ?_) (ih₁ fun l => ?_)).append
      (.of_noJump fun l => ?_)).append (ih₂ fun l => by simp [JumpsTo])
    · cases needed.variadic <;> simp [JumpsTo]
    · simp [JumpsTo, consCode]
    · simp only [JumpsTo, List.mem_map, reduceCtorEq, and_false, exists_false, or_self,
        not_false_eq_true]
  | capturesCons n _ _ _ ih =>
    exact ((ClosedBut.append (.of_noJump fun l => by simp [JumpsTo]) (hload _)).append
      (.of_noJump fun l => by simp [JumpsTo])).append ih
  | templateSplice _ _ ih₁ ih₂ =>
    exact (ClosedBut.append ih₁ (.of_noJump fun l => by simp [JumpsTo, mergeCode])).append ih₂
  | templateCons _ _ ih₁ ih₂ =>
    exact (ClosedBut.append ih₁ (.of_noJump fun l => by simp [JumpsTo, consCode])).append ih₂

/-! ### Executions -/

theorem goto_label {P : Code} {m m' : Machine} {i : Instr} (h : m.goto P i = some m') :
    P[m'.pc]? = some i ∧ m'.esp = m.esp ∧ m'.ebp = m.ebp := by
  unfold Machine.goto at h
  obtain ⟨p, hp, rfl⟩ := Option.map_eq_some_iff.1 h
  obtain ⟨hlt, hget, -⟩ := List.findIdx?_eq_some_iff_getElem.1 hp
  refine ⟨?_, rfl, rfl⟩
  rw [List.getElem?_eq_getElem hlt]
  simpa using hget

/-- A jump goes to its label, or on. -/
theorem flow_of_jump {P : Code} {m m' : Machine} {i : Instr} {l : ℕ} {b : Bool}
    (hi : P[m.pc]? = some i) (hl : stackHeights.target i = some l)
    (h : (if b then m.goto P (.label l) else some m.next) = some m') :
    m'.esp = m.esp ∧ m'.ebp = m.ebp ∧ stackHeights.Flow P m.pc i m'.pc := by
  cases b with
  | false =>
    obtain rfl : m.next = m' := by simpa using h
    exact ⟨rfl, rfl, hi, .inl rfl⟩
  | true =>
    obtain ⟨hp, hesp, hebp⟩ := goto_label (by simpa using h)
    exact ⟨hesp, hebp, hi, .inr ⟨l, _, hl, hp, rfl⟩⟩

/-- What one step does to the stack pointer, to the frame pointer and to the position. -/
theorem step_effect {calls : Val → Machine → Machine → Prop} (hcalls : Cdecl calls) {P : Code}
    {m m' : Machine} {i : Instr} (h : (machine calls P).step m i m') {e : ℤ}
    (he : stackHeights.effect i = some e) :
    m'.esp = m.esp - (e + i.leak) ∧ m'.ebp = m.ebp ∧ stackHeights.Flow P m.pc i m'.pc := by
  obtain ⟨b, hb, rfl⟩ := Option.map_eq_some_iff.1 he
  rw [Int.sub_add_cancel]
  obtain ⟨hi, hexec | ⟨f, m₁, hf, hcall, rfl⟩⟩ := h
  · cases i with
    | je l =>
      obtain rfl : 0 = b := by simpa [Instr.pushed] using hb
      simpa using flow_of_jump (l := l) hi rfl hexec
    | jne l =>
      obtain rfl : 0 = b := by simpa [Instr.pushed] using hb
      have hjump : (if !m.zf then m.goto P (.label l) else some m.next) = some m' := by
        cases hz : m.zf <;> simpa [Instr.exec, hz] using hexec
      have h := flow_of_jump hi rfl hjump
      simpa using h
    | jmp l =>
      obtain rfl : 0 = b := by simpa [Instr.pushed] using hb
      simpa using flow_of_jump (l := l) (b := true) hi rfl hexec
    | loadFree k =>
      obtain rfl : 0 = b := by simpa [Instr.pushed] using hb
      obtain ⟨w, -, rfl⟩ := Option.map_eq_some_iff.1 hexec
      exact ⟨by simp, rfl, hi, .inl rfl⟩
    | call | callHere | callEax | ret => cases hexec
    | subEsp | movEbpEsp | movEspEbp | popEbp | jmpHere => cases hb
    | _ =>
      cases hexec
      cases hb
      refine ⟨?_, rfl, hi, .inl rfl⟩
      simp [sub_eq_add_neg]
  · -- a call: only its leak, if any, is counted against it
    have hesp := hcalls.esp hcall
    have hebp := hcalls.ebp hcall
    refine ⟨?_, hebp, hi, .inl rfl⟩
    cases i with
    | call f | callHere | callEax =>
      obtain rfl : 0 = b := by simpa [Instr.pushed] using hb
      simpa using hesp
    | _ => cases hf

/-- The bytes that the instructions leave on the stack. -/
def leaked (is : List Instr) : ℕ := (is.map Instr.leak).sum

theorem leaked_append (is : List Instr) (i : Instr) : leaked (is ++ [i]) = leaked is + i.leak := by
  simp [leaked]

theorem leaked_eq_zero_iff (is : List Instr) : leaked is = 0 ↔ ∀ i ∈ is, i.leak = 0 := by
  induction is with
  | nil => simp [leaked]
  | cons i is ih => simpa [leaked] using fun _ => ih

section Executions

variable {calls : Val → Machine → Machine → Prop} {L L' : List Local} {pre c post : Code}
  {m m' : Machine} {is : List Instr}

/-- While the code of an expression is executed, control stays in it, and the stack pointer is
below where it was by the height of the code and by what has leaked. -/
theorem run_fragment (hcalls : Cdecl calls) (h : Emits (.expr false) L c L') (hL : L ≠ [])
    (hu : stackHeights.LabelsUnique (pre ++ c ++ post))
    (hrun : (fragment calls pre c post).Run m is m') (hpc : m.pc = pre.length) :
    ∃ p ≤ c.length, m'.pc = pre.length + p ∧ m'.ebp = m.ebp ∧
      m'.esp = m.esp - stackHeights.height 0 (c.take p) - leaked is := by
  obtain ⟨-, Γ, hΓ⟩ := shapedOf_of_emits h hL rfl 0 le_rfl
  have ht : Typed Γ 0 c 0 := hΓ Γ (fun _ _ _ => rfl) trivial
  have hclosed := closed_of_closedBut (closedOf_of_emits h)
  induction hrun with
  | nil => exact ⟨0, Nat.zero_le _, by omega, rfl, by simp [leaked, Heights.height]⟩
  | @snoc is m₁ m₂ i _ hs ih =>
    obtain ⟨p, hp, hpc₁, hebp, hesp⟩ := ih
    obtain ⟨⟨-, hlt⟩, hs⟩ := hs
    have hp : p < c.length := by omega
    have hi : getElem? c p = some i := by
      have hi := hs.1
      rw [hpc₁, List.append_assoc, List.getElem?_append_right (by omega),
        Nat.add_sub_cancel_left, List.getElem?_append_left hp] at hi
      exact hi
    obtain ⟨-, e, he, -⟩ := ht.at_getElem? hi
    obtain ⟨hesp', hebp', hflow⟩ := step_effect hcalls hs he
    rw [hpc₁] at hflow
    obtain ⟨p', e', hpc', hp', he', hheight⟩ := ht.flow hclosed hu hp hflow
    obtain rfl : e = e' := Option.some.inj (he.symm.trans he')
    refine ⟨p', hp', hpc', hebp'.trans hebp, ?_⟩
    rw [hesp', hesp, hheight, leaked_append]
    push_cast
    ring

/-- Meanwhile nothing is popped that was there before. -/
theorem esp_le_of_run (hcalls : Cdecl calls) (h : Emits (.expr false) L c L') (hL : L ≠ [])
    (hu : stackHeights.LabelsUnique (pre ++ c ++ post))
    (hrun : (fragment calls pre c post).Run m is m') (hpc : m.pc = pre.length) :
    m'.esp ≤ m.esp := by
  obtain ⟨p, -, -, -, hesp⟩ := run_fragment hcalls h hL hu hrun hpc
  obtain ⟨-, Γ, hΓ⟩ := shapedOf_of_emits h hL rfl 0 le_rfl
  have hnn := (hΓ Γ (fun _ _ _ => rfl) trivial : Typed Γ 0 c 0).height_take_nonneg p
  omega

/-- At the end, the stack pointer is lower by what has leaked. -/
theorem esp_fragment (hcalls : Cdecl calls) (h : Emits (.expr false) L c L') (hL : L ≠ [])
    (hu : stackHeights.LabelsUnique (pre ++ c ++ post))
    (hrun : (fragment calls pre c post).Run m is m') (hpc : m.pc = pre.length)
    (hend : m'.pc = pre.length + c.length) : m'.esp = m.esp - leaked is := by
  obtain ⟨p, -, hpc', -, hesp⟩ := run_fragment hcalls h hL hu hrun hpc
  obtain ⟨-, Γ, hΓ⟩ := shapedOf_of_emits h hL rfl 0 le_rfl
  have ht : Typed Γ 0 c 0 := hΓ Γ (fun _ _ _ => rfl) trivial
  obtain rfl : p = c.length := by omega
  rw [hesp, List.take_length, ht.height, sub_zero]

end Executions

/-- The code of a whole function has no label twice. -/
theorem labelsUnique_function (R : Runtime) (n : ℕ) {v : Word} {closed : Bool}
    {name : Option String} {path : String} {s s' : State} {ar : Args} {l : Local} {c d : Code}
    (h : (compiler R n).compileFunction v closed name path s = .ok (ar, l, d) c s') :
    stackHeights.LabelsUnique d :=
  labelsOf_of_emits ((compiler_sound R n).function h).2

/-- **An execution of the code of an expression keeps `esp`** exactly if it executes none of the
instructions that leak: those of `(gc)`, of `(eval …)`, of `(load …)` and of `(function f)` in
the function `f`. -/
theorem espKept_iff {calls : Val → Machine → Machine → Prop} (hcalls : Cdecl calls) (R : Runtime)
    (n : ℕ) {v : Word} {s s' : State} {u : Unit} {c : Code}
    (h : (compiler R n).compileExpression v false s = .ok u c s') (hs : s.locals ≠ [])
    {pre post : Code} (hu : stackHeights.LabelsUnique (pre ++ c ++ post)) {m m' : Machine}
    {is : List Instr} (hrun : (fragment calls pre c post).Run m is m') (hpc : m.pc = pre.length)
    (hend : m'.pc = pre.length + c.length) : m'.esp = m.esp ↔ ∀ i ∈ is, i.leak = 0 := by
  have hesp := esp_fragment hcalls ((compiler_sound R n).expr h) hs hu hrun hpc hend
  rw [← leaked_eq_zero_iff]
  omega

/-! ### Two executions -/

/-- Calls that return at once. -/
def returnAtOnce (_ : Val) (m : Machine) : Option Machine := some m

theorem cdecl_returnAtOnce : Cdecl (callsOf returnAtOnce) where
  esp h := by rw [Option.some.inj h]
  ebp h := by rw [Option.some.inj h]
  edi h := by rw [Option.some.inj h]

/-- The machine before the first instruction, with an empty heap. -/
def initialMachine : Machine := ⟨0, .word nil, 0, 0, 0, false, fun _ => .word nil, Heap.ofList []⟩

/-- A form, with a function being compiled. -/
def Sexp.stateIn (e : Sexp) : State := { e.state with locals := [.new none ""] }

/-- `(if t 1 2)` -/
def ifForm : Sexp := .list [.symbol "if", .symbol "t", .int 1, .int 2]

def ifCode : Code := [.movEax (.word t), .cmpEaxNil, .je 0, .movEax (.word (intval 1)), .jmp 1,
  .label 0, .movEax (.word (intval 2)), .label 1]

theorem espKept_ifForm : ∃ s' is m', (compiler .inert 12).compileExpression ifForm.heap.2 false
      ifForm.stateIn = .ok () ifCode s' ∧
    (fragment (callsOf returnAtOnce) [] ifCode []).Run initialMachine is m' ∧
    m'.pc = ifCode.length ∧ m'.esp = initialMachine.esp := by
  have hcode : ((compiler .inert 12).compileExpression ifForm.heap.2 false ifForm.stateIn).code =
      some ifCode := by decide
  obtain ⟨u, s', hs⟩ := Emitted.exists_of_code hcode
  have hrun := run_fragment_run returnAtOnce [] ifCode [] 6 initialMachine
  exact ⟨s', _, _, hs, hrun, rfl, (espKept_iff cdecl_returnAtOnce _ _ hs (by simp [Sexp.stateIn])
    (by decide) hrun rfl rfl).2 (by decide)⟩

/-- `(gc)` -/
def gcForm : Sexp := .list [.symbol "gc"]

/-- **An expression may leave words on the stack.** -/
theorem not_espKept : ¬ ∀ (calls : Val → Machine → Machine → Prop), Cdecl calls →
    ∀ (R : Runtime) (n : ℕ) (v : Word) (s s' : State) (c pre post : Code) (m m' : Machine)
      (is : List Instr), (compiler R n).compileExpression v false s = .ok () c s' →
      s.locals ≠ [] → stackHeights.LabelsUnique (pre ++ c ++ post) →
      (fragment calls pre c post).Run m is m' → m.pc = pre.length →
      m'.pc = pre.length + c.length → m'.esp = m.esp := by
  intro h
  have hcode : ((compiler .inert 12).compileExpression gcForm.heap.2 false gcForm.stateIn).code =
      some runGc := by decide
  obtain ⟨u, s', hs⟩ := Emitted.exists_of_code hcode
  have hrun := run_fragment_run returnAtOnce [] runGc [] 5 initialMachine
  have hesp := h _ cdecl_returnAtOnce _ _ _ _ _ _ [] [] _ _ _ hs (by simp [Sexp.stateIn])
    (by decide) hrun rfl rfl
  exact absurd hesp (by decide)

end Lisp

end Bluejay
