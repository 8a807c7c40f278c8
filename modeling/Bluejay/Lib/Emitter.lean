import Mathlib.Tactic.Common

/-!
# Programs that emit code

A code generator threads a state, appends instructions to its output, and may stop with an
error, which leaves the state as it is at that point.

* `Emitter σ ι ε α` : such programs, with states `σ`, instructions `ι` and errors `ε`; a monad.
* `emit`, `stop`, `get`, `modify`, `when`, `capture` : the primitive ones; `capture m` returns
  the code of `m` instead of emitting it.
* `forDown` : the loop `for (i = lo + k - 1; i >= lo; i--)`.
* `bind_ok_iff` and its siblings take a run that succeeded apart.
* `Keeps I m` : the program keeps the invariant `I`, also when it stops; rules for it.
* `Relates P m` : the runs of the program that succeed are in the relation `P`, which holds of
  composed runs if it holds of their parts; rules for it.
* `Same I m m'` : from states with `I` the programs do the same, and `I` stays; rules for it.
-/

namespace Bluejay

/-- What a run comes to. -/
inductive Emitted (σ ι ε α : Type) : Type
  | ok (a : α) (code : List ι) (s : σ)
  | error (e : ε) (s : σ)

/-- The value of a run that succeeded. -/
def Emitted.value {σ ι ε α : Type} : Emitted σ ι ε α → Option α
  | .ok a _ _ => some a
  | .error _ _ => none

theorem Emitted.exists_of_value {σ ι ε α β : Type} {r : Emitted σ ι ε α} {f : α → β} {b : β}
    (h : r.value.map f = some b) : ∃ a c s, r = .ok a c s ∧ f a = b := by
  cases r with
  | error e s => cases h
  | ok a c s => exact ⟨a, c, s, rfl, Option.some.inj h⟩

/-- The code of a run that succeeded. -/
def Emitted.code {σ ι ε α : Type} : Emitted σ ι ε α → Option (List ι)
  | .ok _ c _ => some c
  | .error _ _ => none

theorem Emitted.exists_of_code {σ ι ε α : Type} {r : Emitted σ ι ε α} {c : List ι}
    (h : r.code = some c) : ∃ a s, r = .ok a c s := by
  cases r with
  | error e s => cases h
  | ok a c' s =>
    obtain rfl : c' = c := Option.some.inj h
    exact ⟨a, s, rfl⟩

/-- The state a run ends in. -/
def Emitted.state {σ ι ε α : Type} : Emitted σ ι ε α → σ
  | .ok _ _ s => s
  | .error _ s => s

/-- A program with state `σ` that emits instructions `ι`. -/
def Emitter (σ ι ε α : Type) : Type := σ → Emitted σ ι ε α

namespace Emitter

variable {σ ι ε α β : Type}

/-- Put the code `c` in front of what a run emits. -/
def prepend (c : List ι) : Emitted σ ι ε α → Emitted σ ι ε α
  | .ok a c' s => .ok a (c ++ c') s
  | .error e s => .error e s

instance : Monad (Emitter σ ι ε) where
  pure a := fun s => .ok a [] s
  bind x f := fun s =>
    match x s with
    | .ok a c s' => prepend c (f a s')
    | .error e s' => .error e s'

def emit (c : List ι) : Emitter σ ι ε Unit := fun s => .ok () c s

def stop (e : ε) : Emitter σ ι ε α := fun s => .error e s

def get : Emitter σ ι ε σ := fun s => .ok s [] s

def modify (f : σ → σ) : Emitter σ ι ε Unit := fun s => .ok () [] (f s)

def capture (m : Emitter σ ι ε α) : Emitter σ ι ε (α × List ι) := fun s =>
  match m s with
  | .ok a c s' => .ok (a, c) [] s'
  | .error e s' => .error e s'

/-- `if (p) m`. -/
def when (p : Prop) [Decidable p] (m : Emitter σ ι ε Unit) : Emitter σ ι ε Unit :=
  if p then m else pure ()

/-- `body (lo + k - 1)`, …, `body lo`. -/
def forDown (body : ℕ → Emitter σ ι ε Unit) (lo : ℕ) : ℕ → Emitter σ ι ε Unit
  | 0 => pure ()
  | k + 1 => do
    body (lo + k)
    forDown body lo k

/-! ### Runs that succeed -/

section Ok

variable {x : Emitter σ ι ε α} {f : α → Emitter σ ι ε β} {s s' : σ} {a : α} {b : β}
  {c : List ι}

theorem bind_ok_iff : (x >>= f) s = .ok b c s' ↔
    ∃ a c₁ s₁ c₂, c = c₁ ++ c₂ ∧ x s = .ok a c₁ s₁ ∧ f a s₁ = .ok b c₂ s' := by
  show (match x s with | .ok a c s' => prepend c (f a s') | .error e s' => .error e s') = _ ↔ _
  constructor
  · intro h
    cases hx : x s with
    | error e s₁ => rw [hx] at h; cases h
    | ok a c₁ s₁ =>
      rw [hx] at h
      dsimp only at h
      cases hf : f a s₁ with
      | error e s₂ => rw [hf] at h; cases h
      | ok b' c₂ s₂ =>
        rw [hf] at h
        cases h
        exact ⟨a, c₁, s₁, c₂, rfl, rfl, hf⟩
  · rintro ⟨a, c₁, s₁, c₂, rfl, hx, hf⟩
    rw [hx]
    dsimp only
    rw [hf]
    rfl

theorem bind_ok {c' : List ι} {s₁ : σ} (hx : x s = .ok a c s₁) (hf : f a s₁ = .ok b c' s') :
    (x >>= f) s = .ok b (c ++ c') s' :=
  bind_ok_iff.2 ⟨a, c, s₁, c', rfl, hx, hf⟩

/-- The last turn of the loop. -/
theorem forDown_ok {body : ℕ → Emitter σ ι ε Unit} {lo k : ℕ} {s₁ : σ} {c' : List ι}
    (h : forDown body (lo + 1) k s = .ok () c s₁) (h' : body lo s₁ = .ok () c' s') :
    forDown body lo (k + 1) s = .ok () (c ++ c') s' := by
  induction k generalizing s c with
  | zero =>
    obtain ⟨rfl, rfl⟩ : [] = c ∧ s = s₁ := by
      simpa [forDown, pure] using h
    rw [List.nil_append, ← List.append_nil c']
    exact bind_ok h' rfl
  | succ k ih =>
    obtain ⟨u, c₁, s₂, c₂, rfl, h₁, h₂⟩ := bind_ok_iff.1 h
    have hlast : body (lo + (k + 1)) s = .ok u c₁ s₂ := by
      rw [show lo + (k + 1) = lo + 1 + k by omega]
      exact h₁
    rw [List.append_assoc]
    exact bind_ok hlast (ih h₂)

/-- What a program does behind one that emits nothing. -/
theorem bind_of_ok (h : x s = .ok a [] s') : (x >>= f) s = f a s' := by
  show (match x s with | .ok a c s' => prepend c (f a s') | .error e s' => .error e s') = _
  rw [h]
  show prepend [] (f a s') = f a s'
  cases f a s' <;> rfl

/-- What a program does behind two that do the same. -/
theorem bind_eq {x' : Emitter σ ι ε α} (h : x s = x' s) : (x >>= f) s = (x' >>= f) s := by
  show (match x s with | .ok a c s' => prepend c (f a s') | .error e s' => .error e s') = _
  rw [h]
  rfl

theorem capture_eq {x' : Emitter σ ι ε α} (h : x s = x' s) : capture x s = capture x' s := by
  unfold capture
  rw [h]

@[simp] theorem pure_ok_iff {a' : α} :
    (pure a' : Emitter σ ι ε α) s = .ok a c s' ↔ a' = a ∧ [] = c ∧ s = s' := by
  show Emitted.ok a' [] s = _ ↔ _
  rw [Emitted.ok.injEq]

@[simp] theorem emit_ok_iff {c' : List ι} {u : Unit} :
    (emit c' : Emitter σ ι ε Unit) s = .ok u c s' ↔ c' = c ∧ s = s' := by
  simp [emit]

@[simp] theorem stop_ok_iff {e : ε} : ((stop e : Emitter σ ι ε α) s = .ok a c s') ↔ False := by
  simp [stop]

@[simp] theorem get_ok_iff {t : σ} :
    (get : Emitter σ ι ε σ) s = .ok t c s' ↔ s = t ∧ [] = c ∧ s = s' := by
  simp [get]

@[simp] theorem modify_ok_iff {g : σ → σ} {u : Unit} :
    (modify g : Emitter σ ι ε Unit) s = .ok u c s' ↔ [] = c ∧ g s = s' := by
  simp [modify]

@[simp] theorem capture_ok_iff {d : List ι} :
    (capture x) s = .ok (a, d) c s' ↔ x s = .ok a d s' ∧ [] = c := by
  unfold capture
  cases x s with
  | error e s₁ => simp
  | ok a' d' s₁ =>
    simp only [Emitted.ok.injEq, Prod.mk.injEq]
    tauto

theorem when_ok_iff {p : Prop} [Decidable p] {m : Emitter σ ι ε Unit} {u : Unit} :
    (when p m) s = .ok u c s' ↔ p ∧ m s = .ok u c s' ∨ ¬ p ∧ [] = c ∧ s = s' := by
  unfold when
  split_ifs with h <;> simp [h]

theorem ite_ok_iff {p : Prop} [Decidable p] {m m' : Emitter σ ι ε α} :
    (if p then m else m') s = .ok a c s' ↔
      p ∧ m s = .ok a c s' ∨ ¬ p ∧ m' s = .ok a c s' := by
  split_ifs with h <;> simp [h]

end Ok

/-! ### Invariants -/

/-- From a state with `I`, a run ends in one, whether it succeeds or stops. -/
def Keeps (I : σ → Prop) (m : Emitter σ ι ε α) : Prop := ∀ s, I s → I (m s).state

section Keeps

variable {I : σ → Prop} {x m m' : Emitter σ ι ε α} {f : α → Emitter σ ι ε β}

theorem Keeps.bind (hx : Keeps I x) (hf : ∀ a, Keeps I (f a)) : Keeps I (x >>= f) := by
  intro s hs
  have hx := hx s hs
  show I (match x s with | .ok a c s' => prepend c (f a s') | .error e s' => .error e s').state
  cases h : x s with
  | error e s' => rwa [h] at hx
  | ok a c s' =>
    rw [h] at hx
    have hf := hf a s' hx
    dsimp only
    cases h' : f a s' <;> rwa [h'] at hf

/-- The state that a run succeeds in. -/
theorem Keeps.of_ok {s s' : σ} {a : α} {c : List ι} (hx : Keeps I x) (h : x s = .ok a c s')
    (hs : I s) : I s' := by
  have hx := hx s hs
  rwa [h] at hx

theorem keeps_pure (a : α) : Keeps I (pure a : Emitter σ ι ε α) := fun _ hs => hs

theorem keeps_emit (c : List ι) : Keeps I (emit c : Emitter σ ι ε Unit) := fun _ hs => hs

theorem keeps_stop (e : ε) : Keeps I (stop e : Emitter σ ι ε α) := fun _ hs => hs

theorem keeps_get : Keeps I (get : Emitter σ ι ε σ) := fun _ hs => hs

/-- A state that was read has `I`. -/
theorem keeps_get_bind {f : σ → Emitter σ ι ε β} (hf : ∀ t, I t → Keeps I (f t)) :
    Keeps I ((get : Emitter σ ι ε σ) >>= f) := by
  intro s hs
  have h := hf s hs s hs
  show I (prepend [] (f s s)).state
  cases h' : f s s <;> rwa [h'] at h

theorem keeps_modify {g : σ → σ} (hg : ∀ s, I s → I (g s)) :
    Keeps I (modify g : Emitter σ ι ε Unit) := hg

theorem keeps_ite {p : Prop} [Decidable p] (hm : Keeps I m) (hm' : Keeps I m') :
    Keeps I (if p then m else m') := by
  split_ifs
  · exact hm
  · exact hm'

theorem keeps_when {p : Prop} [Decidable p] {m : Emitter σ ι ε Unit} (hm : Keeps I m) :
    Keeps I (when p m) :=
  keeps_ite hm (keeps_pure ())

theorem keeps_capture (hm : Keeps I m) : Keeps I (capture m) := by
  intro s hs
  have hm := hm s hs
  unfold capture
  cases h : m s <;> rwa [h] at hm

end Keeps

/-! ### Relations along runs -/

/-- A relation between the states before and after a run and the code, that holds of runs that
are composed of others. -/
structure Composable (P : σ → List ι → σ → Prop) : Prop where
  refl : ∀ s, P s [] s
  trans : ∀ {s s₁ s₂ c c'}, P s c s₁ → P s₁ c' s₂ → P s (c ++ c') s₂

/-- The runs that succeed are in the relation. -/
def Relates (P : σ → List ι → σ → Prop) (m : Emitter σ ι ε α) : Prop :=
  ∀ s a c s', m s = .ok a c s' → P s c s'

section Relates

variable {P : σ → List ι → σ → Prop} {x m m' : Emitter σ ι ε α} {f : α → Emitter σ ι ε β}

theorem Relates.bind (hx : Relates P x) (hP : Composable P) (hf : ∀ a, Relates P (f a)) :
    Relates P (x >>= f) := by
  intro s b c s' h
  obtain ⟨a, c₁, s₁, c₂, rfl, h₁, h₂⟩ := bind_ok_iff.1 h
  exact hP.trans (hx _ _ _ _ h₁) (hf a _ _ _ _ h₂)

theorem relates_pure (hP : Composable P) (a : α) : Relates P (pure a : Emitter σ ι ε α) := by
  intro s a' c s' h
  obtain ⟨-, rfl, rfl⟩ := pure_ok_iff.1 h
  exact hP.refl s

theorem relates_stop (e : ε) : Relates P (stop e : Emitter σ ι ε α) := by
  intro s a c s' h
  cases h

theorem relates_emit {c : List ι} (h : ∀ s, P s c s) : Relates P (emit c : Emitter σ ι ε Unit) := by
  intro s u c' s' hok
  obtain ⟨rfl, rfl⟩ := emit_ok_iff.1 hok
  exact h s

theorem relates_modify {g : σ → σ} (h : ∀ s, P s [] (g s)) :
    Relates P (modify g : Emitter σ ι ε Unit) := by
  intro s u c s' hok
  obtain ⟨rfl, rfl⟩ := modify_ok_iff.1 hok
  exact h s

theorem relates_ite {p : Prop} [Decidable p] (hm : Relates P m) (hm' : Relates P m') :
    Relates P (if p then m else m') := by
  split_ifs
  · exact hm
  · exact hm'

theorem relates_when (hP : Composable P) {p : Prop} [Decidable p] {m : Emitter σ ι ε Unit}
    (hm : Relates P m) : Relates P (when p m) :=
  relates_ite hm (relates_pure hP ())

theorem relates_forDown (hP : Composable P) {body : ℕ → Emitter σ ι ε Unit}
    (hb : ∀ i, Relates P (body i)) (lo n : ℕ) : Relates P (forDown body lo n) := by
  induction n with
  | zero => exact relates_pure hP ()
  | succ n ih => exact (hb _).bind hP fun _ => ih

end Relates

/-! ### Programs that do the same -/

/-- From a state with `I` both programs do the same, and where they succeed, it has `I` again. -/
def Same (I : σ → Prop) (m m' : Emitter σ ι ε α) : Prop :=
  ∀ s, I s → m s = m' s ∧ ∀ a c s', m s = .ok a c s' → I s'

section Same

variable {I : σ → Prop} {x x' m : Emitter σ ι ε α} {f f' : α → Emitter σ ι ε β}

theorem Same.bind (hx : Same I x x') (hf : ∀ a, Same I (f a) (f' a)) :
    Same I (x >>= f) (x' >>= f') := by
  intro s hs
  obtain ⟨heq, hok⟩ := hx s hs
  constructor
  · show (match x s with | .ok a c s' => prepend c (f a s') | .error e s' => .error e s') =
      (match x' s with | .ok a c s' => prepend c (f' a s') | .error e s' => .error e s')
    rw [← heq]
    cases h : x s with
    | error e s' => rfl
    | ok a c s' => exact congrArg (prepend c) (hf a s' (hok a c s' h)).1
  · intro b c s' h
    obtain ⟨a, c₁, s₁, c₂, rfl, h₁, h₂⟩ := bind_ok_iff.1 h
    exact (hf a s₁ (hok _ _ _ h₁)).2 _ _ _ h₂

/-- A program does the same as itself, if it keeps `I` where it succeeds. -/
theorem same_self (h : ∀ s a c s', I s → m s = .ok a c s' → I s') : Same I m m :=
  fun s hs => ⟨rfl, fun a c s' hok => h s a c s' hs hok⟩

theorem Keeps.same (h : Keeps I m) : Same I m m :=
  same_self fun _ _ _ _ hs hok => h.of_ok hok hs

theorem same_pure (a : α) : Same I (pure a : Emitter σ ι ε α) (pure a) := (keeps_pure a).same

theorem same_emit (c : List ι) : Same I (emit c : Emitter σ ι ε Unit) (emit c) :=
  (keeps_emit c).same

theorem same_stop (e : ε) : Same I (stop e : Emitter σ ι ε α) (stop e) := (keeps_stop e).same

end Same

end Emitter

end Bluejay
