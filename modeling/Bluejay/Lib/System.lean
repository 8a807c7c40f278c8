import Mathlib.Tactic.TypeStar

/-!
# Transition systems

The kernel's allocator and its semaphores are studied over whole runs: any sequence of calls,
any interleaving of steps.  Both are labelled transition systems, and the notions every such
study needs are collected here.

## Main definitions

* `System σ ℓ` : a transition relation `σ → ℓ → σ → Prop`.
* `System.Run s₀ ls s` : the actions `ls`, in this order, lead from `s₀` to `s`.
* `System.Reachable s₀ s` : some run leads from `s₀` to `s`.
* `System.Trace s₀ ts s` : the steps `ts`, with the states between, lead from `s₀` to `s`.
* `System.guard G` : the same system, restricted to the steps `s -l→ s'` with `G s l`.  Its
  runs are the runs all of whose steps meet the condition `G`.
* `System.Simulates R` : every step of the system is matched by one of another system, up to
  the relation `R`.
-/

namespace Bluejay

/-- A labelled transition system with states `σ` and labels `ℓ`. -/
structure System (σ : Type*) (ℓ : Type*) where
  /-- `step s l s'` : from `s`, the action `l` may lead to `s'`. -/
  step : σ → ℓ → σ → Prop

namespace System

variable {σ τ ℓ : Type*} (A : System σ ℓ) (B : System τ ℓ)

/-- `Run s₀ ls s` : performing the actions `ls` leads from `s₀` to `s`. -/
inductive Run (s₀ : σ) : List ℓ → σ → Prop
  | nil : Run s₀ [] s₀
  | snoc {ls : List ℓ} {s s' : σ} {l : ℓ} (h : Run s₀ ls s) (hs : A.step s l s') :
      Run s₀ (ls ++ [l]) s'

/-- Some run of `A` leads from `s₀` to `s`. -/
def Reachable (s₀ s : σ) : Prop := ∃ ls, A.Run s₀ ls s

variable {A} in
theorem Run.cons {s₀ s₁ s : σ} {l : ℓ} {ls : List ℓ} (hs : A.step s₀ l s₁) (h : A.Run s₁ ls s) :
    A.Run s₀ (l :: ls) s := by
  induction h with
  | nil => exact .snoc .nil hs
  | snoc _ hs' ih => exact .snoc ih hs'

variable {A} in
theorem Run.append {s₀ s₁ s : σ} {ls ls' : List ℓ} (h : A.Run s₀ ls s₁) (h' : A.Run s₁ ls' s) :
    A.Run s₀ (ls ++ ls') s := by
  induction h' with
  | nil => rwa [List.append_nil]
  | snoc _ hs ih =>
    rw [← List.append_assoc]
    exact ih.snoc hs

variable {A} in
theorem Run.eq_of_nil {s₀ s : σ} (h : A.Run s₀ [] s) : s = s₀ := by
  generalize hl : ([] : List ℓ) = is at h
  cases h with
  | nil => rfl
  | snoc _ _ => exact absurd hl.symm (by simp)

variable {A} in
/-- A run of `ls ++ ls'` is one of `ls` and then one of `ls'`. -/
theorem Run.split {s₀ s : σ} {is : List ℓ} (h : A.Run s₀ is s) {ls ls' : List ℓ}
    (his : is = ls ++ ls') : ∃ s₁, A.Run s₀ ls s₁ ∧ A.Run s₁ ls' s := by
  induction h generalizing ls' with
  | nil =>
    obtain ⟨rfl, rfl⟩ := List.append_eq_nil_iff.1 his.symm
    exact ⟨s₀, .nil, .nil⟩
  | @snoc js s s' l h hs ih =>
    rcases List.eq_nil_or_concat ls' with rfl | ⟨ks, l', rfl⟩
    · rw [List.append_nil] at his
      exact ⟨s', his ▸ h.snoc hs, .nil⟩
    · rw [List.concat_eq_append, ← List.append_assoc] at his
      obtain ⟨hjs, hl⟩ := List.append_inj' his rfl
      obtain ⟨s₁, h₁, h₂⟩ := ih hjs
      obtain rfl : l = l' := List.singleton_inj.1 hl
      exact ⟨s₁, h₁, List.concat_eq_append ▸ h₂.snoc hs⟩

variable {A} in
/-- The first step of a run. -/
theorem Run.uncons {s₀ s : σ} {l : ℓ} {ls : List ℓ} (h : A.Run s₀ (l :: ls) s) :
    ∃ s₁, A.step s₀ l s₁ ∧ A.Run s₁ ls s := by
  obtain ⟨s₁, h₁, h₂⟩ := h.split (show l :: ls = [l] ++ ls from rfl)
  refine ⟨s₁, ?_, h₂⟩
  generalize hl : [l] = is at h₁
  cases h₁ with
  | nil => cases hl
  | @snoc js s' s'' l' h hs =>
    obtain ⟨hjs, hl'⟩ := List.append_inj' (show [] ++ [l] = js ++ [l'] from hl) rfl
    obtain rfl := List.singleton_inj.1 hl'
    obtain rfl := (hjs ▸ h).eq_of_nil
    exact hs

variable {A} in
/-- A run of `A` is one of any system with the same steps. -/
theorem Run.mono {B : System σ ℓ} (hAB : ∀ s l s', A.step s l s' → B.step s l s') {s₀ s : σ}
    {ls : List ℓ} (h : A.Run s₀ ls s) : B.Run s₀ ls s := by
  induction h with
  | nil => exact .nil
  | snoc _ hs ih => exact ih.snoc (hAB _ _ _ hs)

/-- `Trace s₀ ts s` : the steps `ts`, each with the states before and after it, lead from `s₀` to
`s`. -/
inductive Trace (s₀ : σ) : List (σ × ℓ × σ) → σ → Prop
  | nil : Trace s₀ [] s₀
  | snoc {ts : List (σ × ℓ × σ)} {s s' : σ} {l : ℓ} (h : Trace s₀ ts s) (hs : A.step s l s') :
      Trace s₀ (ts ++ [(s, l, s')]) s'

/-- The steps of `A` that meet the condition `G`. -/
def guard (G : σ → ℓ → Prop) : System σ ℓ where
  step s l s' := G s l ∧ A.step s l s'

/-- `B` follows every step of `A`, up to `R`. -/
def Simulates (R : σ → τ → Prop) : Prop :=
  ∀ s t l s', R s t → A.step s l s' → ∃ t', B.step t l t' ∧ R s' t'

variable {A B}

namespace Reachable

theorem refl (s : σ) : A.Reachable s s := ⟨[], .nil⟩

theorem tail {s₀ s s' : σ} {l : ℓ} (h : A.Reachable s₀ s) (hs : A.step s l s') :
    A.Reachable s₀ s' :=
  h.imp' (· ++ [l]) fun _ hr => hr.snoc hs

/-- The run lemma: a predicate that holds initially and that every step keeps holds in every
reachable state. -/
theorem invariant {I : σ → Prop} {s₀ s : σ} (h : A.Reachable s₀ s) (h₀ : I s₀)
    (hstep : ∀ s l s', I s → A.step s l s' → I s') : I s := by
  obtain ⟨ls, hr⟩ := h
  induction hr with
  | nil => exact h₀
  | snoc _ hs ih => exact hstep _ _ _ ih hs

/-- Along a simulation, every reachable state has a related reachable state. -/
theorem simulated {R : σ → τ → Prop} (hR : Simulates A B R) {s₀ s : σ} {t₀ : τ}
    (h : A.Reachable s₀ s) (h₀ : R s₀ t₀) : ∃ t, B.Reachable t₀ t ∧ R s t := by
  refine h.invariant (I := fun s => ∃ t, B.Reachable t₀ t ∧ R s t) ⟨t₀, refl t₀, h₀⟩ ?_
  rintro s l s' ⟨t, ht, hst⟩ hs
  obtain ⟨t', hl, hst'⟩ := hR s t l s' hst hs
  exact ⟨t', ht.tail hl, hst'⟩

end Reachable

/-- A run is followed by a run of another system, whose actions are named by `f`. -/
theorem Run.followed {κ : Type*} {B : System τ κ} {R : σ → τ → Prop} (f : ℓ → κ)
    (hR : ∀ s t l s', R s t → A.step s l s' → ∃ t', B.step t (f l) t' ∧ R s' t') {s₀ s : σ}
    {t₀ : τ} {ls : List ℓ} (h : A.Run s₀ ls s) (h₀ : R s₀ t₀) :
    ∃ t, B.Run t₀ (ls.map f) t ∧ R s t := by
  induction h with
  | nil => exact ⟨t₀, .nil, h₀⟩
  | @snoc ls s s' l _ hs ih =>
    obtain ⟨t, ht, hst⟩ := ih
    obtain ⟨t', hl, hst'⟩ := hR s t l s' hst hs
    rw [List.map_append]
    exact ⟨t', ht.snoc hl, hst'⟩

namespace Trace

variable {s₀ s : σ} {ts : List (σ × ℓ × σ)}

theorem reachable (h : A.Trace s₀ ts s) : A.Reachable s₀ s := by
  induction h with
  | nil => exact .refl _
  | snoc _ hs ih => exact ih.tail hs

/-- A trace is empty, or it has a step from its first state. -/
theorem eq_nil_or_first (h : A.Trace s₀ ts s) :
    ts = [] ∧ s = s₀ ∨ ∃ l s', (s₀, l, s') ∈ ts ∧ A.step s₀ l s' := by
  induction h with
  | nil => exact .inl ⟨rfl, rfl⟩
  | @snoc ts s s' l h hs ih =>
    right
    rcases ih with ⟨rfl, rfl⟩ | ⟨l', s₁, hmem, hstep⟩
    · exact ⟨l, s', List.mem_singleton.2 rfl, hs⟩
    · exact ⟨l', s₁, List.mem_append_left _ hmem, hstep⟩

/-- Two conditions that agree on the steps from reachable states agree on whole runs. -/
theorem forall_iff {P Q : σ × ℓ × σ → Prop} (h : A.Trace s₀ ts s)
    (hstep : ∀ s l s', A.Reachable s₀ s → A.step s l s' → (P (s, l, s') ↔ Q (s, l, s'))) :
    (∀ x ∈ ts, P x) ↔ ∀ x ∈ ts, Q x := by
  induction h with
  | nil => simp
  | @snoc ts s s' l h hs ih =>
    simp only [List.forall_mem_append, List.forall_mem_singleton, ih,
      hstep s l s' h.reachable hs]

end Trace

end System

end Bluejay
