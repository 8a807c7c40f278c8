import Mathlib.Tactic.SplitIfs
import Bluejay.Lib.System

/-!
# What is sure to happen

Where others make the choices (an allocator, what is called), a program is sure to do only what
it does whatever they choose.

* `System.Inevitably Q s` : from `s`, the system gets to a state with `Q`, whatever is chosen.
* `Outcome σ α` : computations with a state `σ`, as what they are sure to establish; a monad.
* `Outcome.choose` : a choice that others make.
* `Outcome.Guarantees x K` : a relation between the states before and after; rules for it.
* `Outcome.Feasible x` : `x` does not establish what is impossible.
* `Outcome.Returns x` : what `x` is sure of is true of something that it may return.
-/

namespace Bluejay

namespace System

variable {σ ℓ : Type*} (A : System σ ℓ)

/-- Whatever steps are chosen, the system does not stop before it gets to a state with `Q`. -/
inductive Inevitably (Q : σ → Prop) : σ → Prop
  | now {s : σ} (h : Q s) : Inevitably Q s
  | step {s : σ} (hex : ∃ l s', A.step s l s') (h : ∀ l s', A.step s l s' → Inevitably Q s') :
      Inevitably Q s

variable {A} {Q Q' : σ → Prop} {s s' : σ} {l : ℓ}

namespace Inevitably

theorem trans (h : A.Inevitably Q s) (hQ : ∀ s, Q s → A.Inevitably Q' s) : A.Inevitably Q' s := by
  induction h with
  | now h => exact hQ _ h
  | step hex _ ih => exact .step hex ih

theorem mono (h : A.Inevitably Q s) (hQ : ∀ s, Q s → Q' s) : A.Inevitably Q' s :=
  h.trans fun s hs => .now (hQ s hs)

/-- A step without alternatives. -/
theorem of_step (hs : A.step s l s') (hall : ∀ l₁ s₁, A.step s l₁ s₁ → s₁ = s')
    (h : A.Inevitably Q s') : A.Inevitably Q s :=
  .step ⟨l, s', hs⟩ fun l₁ s₁ h₁ => hall l₁ s₁ h₁ ▸ h

end Inevitably

end System

/-- A computation with a state: `x Q s` says that `x`, started in `s`, is sure to return, with a
value and a state that satisfy `Q`. -/
def Outcome (σ α : Type) : Type := (α → σ → Prop) → σ → Prop

namespace Outcome

variable {σ α β : Type}

instance : Monad (Outcome σ) where
  pure a := fun Q s => Q a s
  bind x f := fun Q s => x (fun a s' => f a Q s') s

instance : LawfulMonad (Outcome σ) :=
  LawfulMonad.mk' _ (fun _ => rfl) (fun _ _ => rfl) fun _ _ _ => rfl

/-- Return some value and some state that are allowed. -/
def choose (allowed : σ → α → σ → Prop) : Outcome σ α := fun Q s =>
  ∀ a s', allowed s a s' → Q a s'

/-- Never return. -/
def fail : Outcome σ α := fun _ _ => False

/-- The state. -/
def get : Outcome σ σ := fun Q s => Q s s

def set (s' : σ) : Outcome σ Unit := fun Q _ => Q () s'

theorem bind_apply (x : Outcome σ α) (f : α → Outcome σ β) (Q : β → σ → Prop) (s : σ) :
    (x >>= f) Q s = x (fun a s' => f a Q s') s := rfl

/-- What `x` is sure to establish may come about. -/
def Feasible (x : Outcome σ α) : Prop := ∀ s, ¬ x (fun _ _ => False) s

/-- What `x` returns from `s`, if it does, is related to `s` by `K`. -/
def Guarantees (x : Outcome σ α) (K : σ → α → σ → Prop) : Prop :=
  ∀ (Q Q' : α → σ → Prop) (s : σ), (∀ a s', K s a s' → Q a s' → Q' a s') → x Q s → x Q' s

section Guarantees

variable {x y : Outcome σ α} {f : α → Outcome σ β} {K K' : σ → α → σ → Prop} {L : σ → β → σ → Prop}

theorem guarantees_pure {a : α} (h : ∀ s, K s a s) : Guarantees (pure a : Outcome σ α) K :=
  fun _ _ s hQ hs => hQ a s (h s) hs

theorem guarantees_fail : Guarantees (fail : Outcome σ α) K := fun _ _ _ _ h => h.elim

theorem guarantees_choose {allowed : σ → α → σ → Prop} (h : ∀ s a s', allowed s a s' → K s a s') :
    Guarantees (choose allowed) K :=
  fun _ _ s hQ hs a s' ha => hQ a s' (h s a s' ha) (hs a s' ha)

theorem Guarantees.mono (hx : Guarantees x K) (h : ∀ s a s', K s a s' → K' s a s') :
    Guarantees x K' :=
  fun Q Q' s hQ hs => hx Q Q' s (fun a s' hK => hQ a s' (h s a s' hK)) hs

theorem Guarantees.bind (hx : Guarantees x K)
    (hf : ∀ a, Guarantees (f a) fun s' b s'' => ∀ s, K s a s' → L s b s'') :
    Guarantees (x >>= f) L := by
  intro Q Q' s hQ hs
  refine hx _ _ s (fun a s' hK hfa => ?_) hs
  exact hf a Q Q' s' (fun b s'' hL => hQ b s'' (hL s hK)) hfa

theorem guarantees_ite {p : Prop} [Decidable p] (hx : Guarantees x K) (hy : Guarantees y K) :
    Guarantees (if p then x else y) K := by
  split_ifs
  · exact hx
  · exact hy

theorem Guarantees.weaken (hx : Guarantees x K) {Q Q' : α → σ → Prop} {s : σ} (h : x Q s)
    (hQ : ∀ a s', K s a s' → Q a s' → Q' a s') : x Q' s :=
  hx Q Q' s hQ h

/-- What a feasible computation establishes does come about. -/
theorem Guarantees.exists_of (hx : Guarantees x K) (hf : Feasible x) {Q : α → σ → Prop} {s : σ}
    (h : x Q s) : ∃ a s', K s a s' ∧ Q a s' := by
  refine Classical.byContradiction fun hno => ?_
  exact hf s (hx.weaken h fun a s' hK hQ => hno ⟨a, s', hK, hQ⟩)

theorem feasible_pure {a : α} : Feasible (pure a : Outcome σ α) := fun _ h => h

end Guarantees

/-- If `x` is sure to return, there is something that it may return. -/
def Returns (x : Outcome σ α) : Prop := ∀ Q s, x Q s → ∃ a s', ∀ Q', x Q' s → Q' a s'

namespace Returns

variable {x : Outcome σ α} {f : α → Outcome σ β}

theorem pure {a : α} : Returns (Pure.pure a : Outcome σ α) := fun _ s _ => ⟨a, s, fun _ h => h⟩

theorem get : Returns (Outcome.get : Outcome σ σ) := fun _ s _ => ⟨s, s, fun _ h => h⟩

theorem set {s : σ} : Returns (Outcome.set s) := fun _ _ _ => ⟨(), s, fun _ h => h⟩

theorem fail : Returns (Outcome.fail : Outcome σ α) := fun _ _ h => h.elim

theorem choose {allowed : σ → α → σ → Prop} (h : ∀ s, ∃ a s', allowed s a s') :
    Returns (Outcome.choose allowed) := by
  intro Q s _
  obtain ⟨a, s', ha⟩ := h s
  exact ⟨a, s', fun Q' hQ' => hQ' a s' ha⟩

theorem bind (hx : Returns x) (hf : ∀ a, Returns (f a)) : Returns (x >>= f) := by
  intro Q s h
  obtain ⟨a, s', ha⟩ := hx _ s h
  obtain ⟨b, s'', hb⟩ := hf a Q s' (ha _ h)
  exact ⟨b, s'', fun Q' hQ' => hb Q' (ha _ hQ')⟩

end Returns

end Outcome

end Bluejay
