import Mathlib.Data.Nat.Notation
import Mathlib.Tactic.TypeStar

/-!
# Systems that call themselves

A system some of whose steps are calls of the system itself, nested to any depth.

* `Recursive σ` : the steps; how a call is entered, when it is done, how its caller goes on.
* `Recursive.Path k s s'` : from `s` to `s'` within one activation, in `k` steps, where those of
  the calls that have been made and left on the way count.
* `Recursive.Ends k s r` : the activation is done in `r`.
* `Recursive.First T k s s'` : within the activation, `s'` is the first state with `T`.
* `Recursive.Forced k s s'` : the only way from `s` leads to `s'`; what follows for the paths that
  start in `s`.
* `Recursive.Functional` : at most one way from everywhere; then the end is determined.
-/

namespace Bluejay

/-- A system with calls of itself. -/
structure Recursive (σ : Type*) where
  step : σ → σ → Prop
  /-- A call leads to the first state of its activation. -/
  enter : σ → σ → Prop
  /-- The call from `s` has been done in `r`, and `s'` is behind it. -/
  leave : σ → σ → σ → Prop
  done : σ → Prop

namespace Recursive

variable {σ : Type*} (A : Recursive σ)

/-- A path within one activation. -/
inductive Path : ℕ → σ → σ → Prop
  | refl (s : σ) : Path 0 s s
  | step {k : ℕ} {s s₁ s' : σ} (h : A.step s s₁) (h' : Path k s₁ s') : Path (k + 1) s s'
  | call {j k : ℕ} {s b r s₁ s' : σ} (he : A.enter s b) (hb : Path j b r) (hr : A.done r)
      (hl : A.leave s r s₁) (h' : Path k s₁ s') : Path (j + k + 1) s s'

/-- The activation that is in `s` ends in `r`. -/
structure Ends (k : ℕ) (s r : σ) : Prop where
  path : A.Path k s r
  done : A.done r

/-- Within the activation, `s'` is the first state from `s` on that has `T`. -/
inductive First (T : σ → Prop) : ℕ → σ → σ → Prop
  | here {s : σ} (h : T s) : First T 0 s s
  | step {k : ℕ} {s s₁ s' : σ} (hs : ¬ T s) (h : A.step s s₁) (h' : First T k s₁ s') :
      First T (k + 1) s s'
  | call {j k : ℕ} {s b r s₁ s' : σ} (hs : ¬ T s) (he : A.enter s b) (hb : A.Ends j b r)
      (hl : A.leave s r s₁) (h' : First T k s₁ s') : First T (j + k + 1) s s'

/-- There is one way on from `s`, a step to `s'`. -/
structure Only (s s' : σ) : Prop where
  step : A.step s s'
  unique : ∀ t, A.step s t → t = s'
  not_enter : ∀ b, ¬ A.enter s b
  not_done : ¬ A.done s

/-- There is one way on from `s` for `k` steps, and it leads to `s'`. -/
inductive Forced : ℕ → σ → σ → Prop
  | refl (s : σ) : Forced 0 s s
  | head {k : ℕ} {s s₁ s' : σ} (h : A.Only s s₁) (h' : Forced k s₁ s') : Forced (k + 1) s s'

/-- There is at most one way on from every state. -/
structure Functional : Prop where
  step : ∀ {s s₁ s₂}, A.step s s₁ → A.step s s₂ → s₁ = s₂
  enter : ∀ {s b₁ b₂}, A.enter s b₁ → A.enter s b₂ → b₁ = b₂
  leave : ∀ {s r s₁ s₂}, A.leave s r s₁ → A.leave s r s₂ → s₁ = s₂
  not_enter : ∀ {s s₁ b}, A.step s s₁ → ¬ A.enter s b
  not_step_of_done : ∀ {s s₁}, A.done s → ¬ A.step s s₁
  not_enter_of_done : ∀ {s b}, A.done s → ¬ A.enter s b

variable {A} {j k : ℕ} {s s₁ s' t r : σ}

namespace Path

theorem trans (h : A.Path j s s₁) (h' : A.Path k s₁ s') : ∃ n, A.Path n s s' := by
  induction h with
  | refl => exact ⟨k, h'⟩
  | step hs _ ih =>
    obtain ⟨n, hn⟩ := ih h'
    exact ⟨n + 1, .step hs hn⟩
  | call he hb hr hl _ _ ih =>
    obtain ⟨n, hn⟩ := ih h'
    exact ⟨_, .call he hb hr hl hn⟩

end Path

namespace Ends

/-- The activation is done, or it makes a step or a call. -/
theorem cases (h : A.Ends k s r) : (k = 0 ∧ r = s ∧ A.done s) ∨
    (∃ n s₁, k = n + 1 ∧ A.step s s₁ ∧ A.Ends n s₁ r) ∨
    ∃ i n b r₁ s₁, k = i + n + 1 ∧ A.enter s b ∧ A.Ends i b r₁ ∧ A.leave s r₁ s₁ ∧
      A.Ends n s₁ r := by
  obtain ⟨h, hr⟩ := h
  cases h with
  | refl => exact .inl ⟨rfl, rfl, hr⟩
  | step hs h' => exact .inr (.inl ⟨_, _, rfl, hs, h', hr⟩)
  | call he hb hr₁ hl h' => exact .inr (.inr ⟨_, _, _, _, _, rfl, he, ⟨hb, hr₁⟩, hl, h', hr⟩)

theorem step (hs : A.step s s₁) (h : A.Ends k s₁ r) : A.Ends (k + 1) s r := ⟨.step hs h.1, h.2⟩

theorem call {b r₁ : σ} (he : A.enter s b) (hb : A.Ends j b r₁) (hl : A.leave s r₁ s₁)
    (h : A.Ends k s₁ r) : A.Ends (j + k + 1) s r :=
  ⟨.call he hb.1 hb.2 hl h.1, h.2⟩

/-- The end is determined. -/
theorem unique (hA : A.Functional) (h : A.Ends j s r) {r' : σ} (h' : A.Ends k s r') : r' = r := by
  obtain ⟨h, hr⟩ := h
  induction h generalizing k r' with
  | refl s =>
    obtain ⟨-, rfl, -⟩ | ⟨_, _, -, hs, -⟩ | ⟨_, _, _, _, _, -, he, -⟩ := h'.cases
    · rfl
    · exact absurd hs (hA.not_step_of_done hr)
    · exact absurd he (hA.not_enter_of_done hr)
  | step hs _ ih =>
    obtain ⟨-, -, hd⟩ | ⟨_, _, -, hs', h'⟩ | ⟨_, _, _, _, _, -, he, -⟩ := h'.cases
    · exact absurd hs (hA.not_step_of_done hd)
    · obtain rfl := hA.step hs hs'
      exact ih h' hr
    · exact absurd he (hA.not_enter hs)
  | call he hb hr₁ hl _ ihb ih =>
    obtain ⟨-, -, hd⟩ | ⟨_, _, -, hs, -⟩ | ⟨_, _, _, _, _, -, he', hb', hl', h'⟩ := h'.cases
    · exact absurd he (hA.not_enter_of_done hd)
    · exact absurd he (hA.not_enter hs)
    · obtain rfl := hA.enter he he'
      obtain rfl := ihb hb' hr₁
      obtain rfl := hA.leave hl hl'
      exact ih h' hr

end Ends

namespace First

variable {T : σ → Prop}

/-- The first state is determined. -/
theorem unique (hA : A.Functional) (h : A.First T j s r) {r' : σ} (h' : A.First T k s r') :
    r' = r := by
  induction h generalizing k with
  | here hs =>
    cases h' with
    | here => rfl
    | step hs' => exact absurd hs hs'
    | call hs' => exact absurd hs hs'
  | step hs h _ ih =>
    cases h' with
    | here hs' => exact absurd hs' hs
    | step _ hstep h' =>
      obtain rfl := hA.step h hstep
      exact ih h'
    | call _ he => exact absurd he (hA.not_enter h)
  | call hs he hb hl _ ih =>
    cases h' with
    | here hs' => exact absurd hs' hs
    | step _ hstep => exact absurd he (hA.not_enter hstep)
    | call _ he' hb' hl' h' =>
      obtain rfl := hA.enter he he'
      obtain rfl := hb.unique hA hb'
      obtain rfl := hA.leave hl hl'
      exact ih h'

end First

/-- An activation ends where it is done first. -/
theorem ends_iff_first (hA : A.Functional) : A.Ends k s r ↔ A.First A.done k s r := by
  constructor
  · rintro ⟨h, hr⟩
    induction h with
    | refl => exact .here hr
    | step hs _ ih => exact .step (fun hd => hA.not_step_of_done hd hs) hs (ih hr)
    | call he hb hd hl _ _ ih =>
      exact .call (fun hd => hA.not_enter_of_done hd he) he ⟨hb, hd⟩ hl (ih hr)
  · intro h
    induction h with
    | here h => exact ⟨.refl _, h⟩
    | step _ hs _ ih => exact ih.step hs
    | call _ he hb hl _ ih => exact .call he hb hl ih

namespace Forced

theorem trans (h : A.Forced j s s₁) (h' : A.Forced k s₁ s') : A.Forced (j + k) s s' := by
  induction h with
  | refl => rwa [Nat.zero_add]
  | head ho _ ih =>
    rw [Nat.add_right_comm]
    exact .head ho (ih h')

theorem path (h : A.Forced k s s') : A.Path k s s' := by
  induction h with
  | refl s => exact .refl s
  | head ho _ ih => exact .step ho.step ih

/-- On the way, the activation is not done. -/
theorem not_done (h : A.Forced j s s') {i : ℕ} (hi : i < j) (h' : A.Forced i s t) : ¬ A.done t := by
  induction h' generalizing j with
  | refl =>
    cases h with
    | refl => exact absurd hi (Nat.lt_irrefl 0)
    | head ho _ => exact ho.not_done
  | head ho' _ ih =>
    cases h with
    | refl => exact absurd hi (Nat.not_lt_zero _)
    | head ho h =>
      obtain rfl := ho.unique _ ho'.step
      exact ih h (Nat.lt_of_succ_lt_succ hi)

/-- A path from `s` is part of the way that is forced, or takes all of it. -/
theorem path_cases (h : A.Forced j s s₁) (hp : A.Path k s t) :
    (∃ i < j, A.Forced i s t) ∨ ∃ n, k = n + j ∧ A.Path n s₁ t := by
  induction h generalizing k with
  | refl => exact .inr ⟨k, rfl, hp⟩
  | head ho _ ih =>
    cases hp with
    | refl => exact .inl ⟨0, Nat.succ_pos _, .refl _⟩
    | step hs hp =>
      obtain rfl := ho.unique _ hs
      obtain ⟨i, hi, hf⟩ | ⟨n, rfl, hn⟩ := ih hp
      · exact .inl ⟨i + 1, Nat.succ_lt_succ hi, .head ho hf⟩
      · exact .inr ⟨n, rfl, hn⟩
    | call he => exact absurd he (ho.not_enter _)

/-- The activation goes the way that is forced, and ends where it ends from there. -/
theorem ends_iff (h : A.Forced j s s₁) : A.Ends k s r ↔ ∃ n, k = n + j ∧ A.Ends n s₁ r := by
  induction h generalizing k with
  | refl => simp
  | @head j s s₁ s' ho _ ih =>
    constructor
    · intro h
      obtain ⟨-, -, hd⟩ | ⟨n, t, rfl, hs, h⟩ | ⟨_, _, _, _, _, -, he, -⟩ := h.cases
      · exact absurd hd ho.not_done
      · obtain rfl := ho.unique _ hs
        obtain ⟨n, rfl, hn⟩ := ih.1 h
        exact ⟨n, rfl, hn⟩
      · exact absurd he (ho.not_enter _)
    · rintro ⟨n, rfl, h⟩
      exact (ih.2 ⟨n, rfl, h⟩).step ho.step

end Forced

end Recursive

end Bluejay
