import Mathlib.Data.Nat.Notation
import Mathlib.Tactic.SplitIfs

/-!
# Computations that report events

* `Traced W E α` : computations with a world `W` that may fail and report events `E`; a monad.
* `Traced.Below` : where one computation returns, so does the other, with the same result.
* `Traced.Limit` : what a growing sequence of approximations, such as an interpreter with fuel,
  returns in the end; `limit_bind_iff`, `limit_unique`.
* `Traced.Ensures` : every event satisfies a predicate and every result another one, where an
  invariant of the world holds; rules for it.
-/

namespace Bluejay

/-- A computation with a world `W` that may fail and reports events `E`. -/
def Traced (W E α : Type) : Type := W → Option (α × W × List E)

namespace Traced

variable {W E α β : Type}

instance : Monad (Traced W E) where
  pure a := fun w => some (a, w, [])
  bind x f := fun w =>
    (x w).bind fun r => (f r.1 r.2.1).map fun q => (q.1, q.2.1, r.2.2 ++ q.2.2)

def fail : Traced W E α := fun _ => none

/-- Report an event. -/
def emit (e : E) : Traced W E Unit := fun w => some ((), w, [e])

/-- Fail where there is no value. -/
def ofOption : Option α → Traced W E α
  | none => fail
  | some a => pure a

/-- A step of the world without events. -/
def lift (f : W → Option (α × W)) : Traced W E α := fun w => (f w).map fun r => (r.1, r.2, [])

variable {x y : Traced W E α} {f g : α → Traced W E β} {a : α} {b : β} {e : E} {w w' : W}
  {t : List E} {r : α × W × List E}

theorem pure_apply : (pure a : Traced W E α) w = some (a, w, []) := rfl

theorem bind_eq_some : (x >>= f) w = some (b, w', t) ↔ ∃ a w₁ t₁ t₂, x w = some (a, w₁, t₁) ∧
    f a w₁ = some (b, w', t₂) ∧ t = t₁ ++ t₂ := by
  change ((x w).bind _ = _) ↔ _
  constructor
  · intro h
    obtain ⟨⟨a, w₁, t₁⟩, hx, h⟩ := Option.bind_eq_some_iff.1 h
    obtain ⟨⟨b', w'', t₂⟩, hf, heq⟩ := Option.map_eq_some_iff.1 h
    cases heq
    exact ⟨a, w₁, t₁, t₂, hx, hf, rfl⟩
  · rintro ⟨a, w₁, t₁, t₂, hx, hf, rfl⟩
    simp only [hx, Option.bind_some, hf, Option.map_some]

theorem pure_bind (a : α) (f : α → Traced W E β) : (pure a >>= f) = f a := by
  funext w
  change (f a w).map _ = f a w
  cases f a w <;> rfl

theorem bind_pure_apply (x : Traced W E α) (g : α → β) :
    (x >>= fun a => pure (g a)) w = some (b, w', t) ↔ ∃ a, x w = some (a, w', t) ∧ g a = b := by
  rw [bind_eq_some]
  constructor
  · rintro ⟨a, w₁, t₁, t₂, hx, hb, rfl⟩
    cases hb
    exact ⟨a, by rwa [List.append_nil], rfl⟩
  · rintro ⟨a, hx, rfl⟩
    exact ⟨a, w', t, [], hx, rfl, (List.append_nil t).symm⟩

/-! ### Approximation -/

/-- Where `x` returns, `y` returns the same. -/
def Below (x y : Traced W E α) : Prop := ∀ w r, x w = some r → y w = some r

namespace Below

theorem refl (x : Traced W E α) : Below x x := fun _ _ h => h

theorem trans {z : Traced W E α} (h : Below x y) (h' : Below y z) : Below x z :=
  fun w r hr => h' w r (h w r hr)

theorem fail (x : Traced W E α) : Below fail x := nofun

theorem bind (hx : Below x y) (hf : ∀ a, Below (f a) (g a)) : Below (x >>= f) (y >>= g) := by
  rintro w ⟨b, w', t⟩ h
  obtain ⟨a, w₁, t₁, t₂, ha, hb, rfl⟩ := bind_eq_some.1 h
  exact bind_eq_some.2 ⟨a, w₁, t₁, t₂, hx _ _ ha, hf a _ _ hb, rfl⟩

theorem ite {p : Prop} [Decidable p] {x' y' : Traced W E α} (hx : Below x y) (hy : Below x' y') :
    Below (if p then x else x') (if p then y else y') := by
  split_ifs
  · exact hx
  · exact hy

end Below

/-- Each approximation is below the next. -/
def Mono (x : ℕ → Traced W E α) : Prop := ∀ n, Below (x n) (x (n + 1))

/-- What some approximation returns. -/
def Limit (x : ℕ → Traced W E α) (w : W) (r : α × W × List E) : Prop := ∃ n, x n w = some r

section Limit

variable {x : ℕ → Traced W E α} {f : ℕ → α → Traced W E β}

theorem Mono.le (h : Mono x) {n m : ℕ} (hnm : n ≤ m) : Below (x n) (x m) := by
  induction hnm with
  | refl => exact .refl _
  | step _ ih => exact ih.trans (h _)

theorem mono_const (x : Traced W E α) : Mono fun _ => x := fun _ => .refl x

theorem Mono.bind (hx : Mono x) (hf : ∀ a, Mono fun n => f n a) :
    Mono fun n => x n >>= f n := fun n => (hx n).bind fun a => hf a n

theorem limit_const {x : Traced W E α} {r : α × W × List E} :
    Limit (fun _ => x) w r ↔ x w = some r := ⟨fun ⟨_, h⟩ => h, fun h => ⟨0, h⟩⟩

/-- An approximation more or less does not matter. -/
theorem limit_succ (hx : Mono x) : Limit (fun n => x (n + 1)) w r ↔ Limit x w r :=
  ⟨fun ⟨n, h⟩ => ⟨n + 1, h⟩, fun ⟨n, h⟩ => ⟨n, hx n _ _ h⟩⟩

theorem limit_unique (hx : Mono x) {r r' : α × W × List E} (h : Limit x w r) (h' : Limit x w r') :
    r = r' := by
  obtain ⟨n, h⟩ := h
  obtain ⟨m, h'⟩ := h'
  have hn := hx.le (Nat.le_max_left n m) _ _ h
  have hm := hx.le (Nat.le_max_right n m) _ _ h'
  exact Option.some.inj (hn.symm.trans hm)

/-- All approximations from some point on return it. -/
theorem Limit.eventually (hx : Mono x) (h : Limit x w r) : ∃ n, ∀ m ≥ n, x m w = some r :=
  h.imp fun _ hn _ hm => hx.le hm _ _ hn

theorem limit_bind_iff (hx : Mono x) (hf : ∀ a, Mono fun n => f n a) :
    Limit (fun n => x n >>= f n) w (b, w', t) ↔ ∃ a w₁ t₁ t₂, Limit x w (a, w₁, t₁) ∧
      Limit (fun n => f n a) w₁ (b, w', t₂) ∧ t = t₁ ++ t₂ := by
  constructor
  · rintro ⟨n, h⟩
    obtain ⟨a, w₁, t₁, t₂, ha, hb, ht⟩ := bind_eq_some.1 h
    exact ⟨a, w₁, t₁, t₂, ⟨n, ha⟩, ⟨n, hb⟩, ht⟩
  · rintro ⟨a, w₁, t₁, t₂, ⟨n, ha⟩, ⟨m, hb⟩, ht⟩
    have hn := hx.le (Nat.le_max_left n m) _ _ ha
    have hm := (hf a).le (Nat.le_max_right n m) _ _ hb
    exact ⟨max n m, bind_eq_some.2 ⟨a, w₁, t₁, t₂, hn, hm, ht⟩⟩

end Limit

/-! ### Invariants -/

/-- Where `I` holds of the world, `x` keeps it, its events satisfy `K` and its result `Q`. -/
def Ensures (I : W → Prop) (K : E → Prop) (x : Traced W E α) (Q : α → Prop) : Prop :=
  ∀ w a w' t, I w → x w = some (a, w', t) → Q a ∧ I w' ∧ ∀ e ∈ t, K e

section Ensures

variable {I : W → Prop} {K : E → Prop} {Q : α → Prop} {Q' : β → Prop}

theorem ensures_pure (h : Q a) : Ensures I K (pure a : Traced W E α) Q := by
  intro w a' w' t hw hr
  cases hr
  exact ⟨h, hw, nofun⟩

theorem ensures_fail : Ensures I K (fail : Traced W E α) Q := nofun

theorem ensures_emit (h : K e) : Ensures I K (emit e : Traced W E Unit) fun _ => True := by
  intro w a w' t hw hr
  cases hr
  exact ⟨trivial, hw, by simpa using h⟩

theorem ensures_lift {f : W → Option (α × W)}
    (h : ∀ w a w', I w → f w = some (a, w') → Q a ∧ I w') :
    Ensures I K (lift f : Traced W E α) Q := by
  intro w a w' t hw hr
  obtain ⟨⟨a', w''⟩, hf, heq⟩ := Option.map_eq_some_iff.1 hr
  cases heq
  obtain ⟨ha, hw'⟩ := h w a' w'' hw hf
  exact ⟨ha, hw', nofun⟩

theorem ensures_ofOption {o : Option α} (h : ∀ a, o = some a → Q a) :
    Ensures I K (ofOption o : Traced W E α) Q := by
  cases o with
  | none => exact ensures_fail
  | some a => exact ensures_pure (h a rfl)

theorem Ensures.bind (hx : Ensures I K x Q) (hf : ∀ a, Q a → Ensures I K (f a) Q') :
    Ensures I K (x >>= f) Q' := by
  intro w b w' t hw hr
  obtain ⟨a, w₁, t₁, t₂, ha, hb, rfl⟩ := bind_eq_some.1 hr
  obtain ⟨hQ, hw₁, ht₁⟩ := hx w a w₁ t₁ hw ha
  obtain ⟨hQ', hw', ht₂⟩ := hf a hQ w₁ b w' t₂ hw₁ hb
  exact ⟨hQ', hw', fun e he => (List.mem_append.1 he).elim (ht₁ e) (ht₂ e)⟩

theorem Ensures.mono {Q'' : α → Prop} (hx : Ensures I K x Q) (h : ∀ a, Q a → Q'' a) :
    Ensures I K x Q'' := fun w a w' t hw hr =>
  (hx w a w' t hw hr).imp_left (h a)

end Ensures

end Traced

end Bluejay
