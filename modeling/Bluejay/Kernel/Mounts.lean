import Bluejay.Kernel.Vfs
import Bluejay.Lib.System
import Mathlib.Data.Nat.Bitwise
import Mathlib.Logic.Relation

/-!
# Mounts

* `fsMount` : `fs_mount` of `vfs.c`; `mounting` : all sequences of calls.
* `fsMount_cases` : what a call does, by the number it returns.
* `MountsOk` : the mounts are those of the calls that returned 0, each directory is mounted on once
  and stays so, and no chain of mounts comes back to where it started, but for directories that
  are mounted on themselves.
* `mountsOk_of_run` : so it is in every run.

The tests are by `^`, so a directory that is mounted on already is reported as no directory: the
number 2 is never returned.
-/

namespace Bluejay

namespace Kernel

/-- `FS_MOUNT`. -/
def fsMountFlag : ℕ := 8

/-- `fs_mount`, with the nodes as they are afterwards. -/
def fsMount (node : ℕ → FsNode) (target source : ℕ) : ℕ × (ℕ → FsNode) :=
  if (node target).flags ^^^ fsDirectory ≠ 0 then (1, node)
  else if (node target).flags &&& fsMountFlag ≠ 0 then (2, node)
  else if (node source).flags ^^^ fsDirectory ≠ 0 then (3, node)
  else
    (0, Function.update node target
      { node target with flags := (node target).flags ||| fsMountFlag, mount := source })

/-- A call of `fs_mount`, and the number that it returns. -/
structure MountCall where
  target : ℕ
  source : ℕ
  code : ℕ
  deriving DecidableEq

/-- All sequences of calls, with nodes that are there. -/
def mounting : System (ℕ → FsNode) MountCall where
  step node c node' :=
    c.target ≠ 0 ∧ c.source ≠ 0 ∧ fsMount node c.target c.source = (c.code, node')

/-- The directory `p` leads to another directory `q`. -/
def MountedOn (node : ℕ → FsNode) (p q : ℕ) : Prop := (node p).mount = q ∧ q ≠ 0 ∧ p ≠ q

/-- What the calls `cs` come to. -/
structure MountsOk (cs : List MountCall) (node : ℕ → FsNode) : Prop where
  mount : ∀ p q, ⟨p, q, 0⟩ ∈ cs ↔ q ≠ 0 ∧ (node p).mount = q
  once : ((cs.filter fun c => c.code = 0).map MountCall.target).Nodup
  code : ∀ c ∈ cs, c.code ≠ 2
  acyclic : ∀ p, ¬ Relation.TransGen (MountedOn node) p p

/-- An edge to a node without edges closes no cycle. -/
theorem acyclic_of_sink {V : Type*} {r r' : V → V → Prop} {s : V}
    (h : ∀ p, ¬ Relation.TransGen r p p) (hr : ∀ p q, r' p q → r p q ∨ q = s)
    (hs : ∀ q, ¬ r' s q) (p : V) : ¬ Relation.TransGen r' p p := by
  have hpath : ∀ a b, Relation.TransGen r' a b → Relation.TransGen r a b ∨ b = s := by
    intro a b hab
    induction hab with
    | single hab => exact (hr _ _ hab).imp_left .single
    | tail _ hbc ih =>
      rcases ih with ih | rfl
      · exact (hr _ _ hbc).imp_left ih.tail
      · exact absurd hbc (hs _)
  intro hp
  rcases hpath p p hp with hp' | rfl
  · exact h p hp'
  · obtain ⟨q, hq, -⟩ := Relation.TransGen.head'_iff.1 hp
    exact hs q hq

/-! ### One call -/

section Call

variable {node node' : ℕ → FsNode} {t s c : ℕ}

theorem xor_fsDirectory {n : ℕ} : n ^^^ fsDirectory = 0 ↔ n = fsDirectory := Nat.xor_eq_zero_iff

/-- What a call does: nothing, or it mounts one directory on another, both without a mount. -/
theorem fsMount_cases (h : fsMount node t s = (c, node')) :
    (c ≠ 0 ∧ c ≠ 2 ∧ node' = node) ∨
      (c = 0 ∧ (node t).flags = fsDirectory ∧ (node s).flags = fsDirectory ∧
        node' = Function.update node t
          { node t with flags := fsDirectory ||| fsMountFlag, mount := s }) := by
  unfold fsMount at h
  split_ifs at h with ht hm hs
  · cases h
    exact .inl ⟨by decide, by decide, rfl⟩
  · -- a directory without further flags has no mount
    rw [not_not, xor_fsDirectory] at ht
    rw [ht] at hm
    exact absurd rfl hm
  · cases h
    exact .inl ⟨by decide, by decide, rfl⟩
  · rw [not_not, xor_fsDirectory] at ht hs
    cases h
    refine .inr ⟨rfl, ht, hs, ?_⟩
    rw [ht]

end Call

/-! ### Runs -/

/-- Where there is a mount the flags say so. -/
def FlagsOk (node : ℕ → FsNode) : Prop :=
  ∀ p, (node p).mount ≠ 0 → (node p).flags = fsDirectory ||| fsMountFlag

section Runs

variable {node node' node₀ : ℕ → FsNode} {cs : List MountCall} {c : MountCall} {t s : ℕ}

theorem FlagsOk.mount_eq_zero (h : FlagsOk node) {p : ℕ} (hp : (node p).flags = fsDirectory) :
    (node p).mount = 0 := by
  by_contra hne
  exact absurd (hp.symm.trans (h p hne)) (by decide)

/-- A call that fails. -/
theorem MountsOk.fail (h : MountsOk cs node) (hk : c.code ≠ 0) (hk' : c.code ≠ 2) :
    MountsOk (cs ++ [c]) node where
  mount p q := by
    rw [← h.mount p q, List.mem_append, List.mem_singleton]
    refine ⟨fun hmem => hmem.resolve_right ?_, .inl⟩
    rintro rfl
    exact hk rfl
  once := by
    rw [List.filter_append, List.filter_cons_of_neg (by simpa using hk), List.filter_nil,
      List.append_nil]
    exact h.once
  code := List.forall_mem_append.2 ⟨h.code, List.forall_mem_singleton.2 hk'⟩
  acyclic := h.acyclic

/-- The directory `s` is mounted on the directory `t`, and neither has a mount. -/
theorem MountsOk.mounted (h : MountsOk cs node) (hmt : (node t).mount = 0)
    (hms : (node s).mount = 0) (h0 : s ≠ 0) (hnew : (node' t).mount = s)
    (hother : ∀ p ≠ t, node' p = node p) : MountsOk (cs ++ [⟨t, s, 0⟩]) node' := by
  have hfirst : ∀ q, (⟨t, q, 0⟩ : MountCall) ∉ cs := fun q hmem =>
    ((h.mount t q).1 hmem).1 (((h.mount t q).1 hmem).2.symm.trans hmt)
  constructor
  · intro p q
    rw [List.mem_append, List.mem_singleton, MountCall.mk.injEq]
    by_cases hpt : p = t
    · subst hpt
      rw [hnew]
      constructor
      · rintro (hmem | ⟨-, rfl, -⟩)
        · exact absurd hmem (hfirst q)
        · exact ⟨h0, rfl⟩
      · rintro ⟨-, rfl⟩
        exact .inr ⟨rfl, rfl, rfl⟩
    · rw [hother p hpt, ← h.mount p q]
      exact or_iff_left fun heq => hpt heq.1
  · rw [List.filter_append, List.map_append, List.nodup_append]
    refine ⟨h.once, by simp, fun p hp q hq => ?_⟩
    obtain rfl : q = t := by simpa using hq
    rintro rfl
    obtain ⟨⟨p, q, k⟩, hmem, rfl⟩ := List.mem_map.1 hp
    obtain ⟨hmem, hk⟩ := List.mem_filter.1 hmem
    obtain rfl : k = 0 := by simpa using hk
    exact hfirst q hmem
  · exact List.forall_mem_append.2 ⟨h.code, by simp⟩
  · -- the new edge leads to a directory without a mount, or to itself
    refine acyclic_of_sink (s := s) h.acyclic (fun p q hpq => ?_) fun q hq => ?_
    · obtain ⟨hm, hq, hpq⟩ := hpq
      by_cases hpt : p = t
      · subst hpt
        exact .inr (hm.symm.trans hnew)
      · rw [hother p hpt] at hm
        exact .inl ⟨hm, hq, hpq⟩
    · obtain ⟨hm, hq, hsq⟩ := hq
      by_cases hst : s = t
      · subst hst
        exact hsq (hnew.symm.trans hm)
      · rw [hother s hst] at hm
        exact hq (hm.symm.trans hms)

/-- The step lemma. -/
theorem MountsOk.step (h : MountsOk cs node) (hf : FlagsOk node) (hs : mounting.step node c node') :
    MountsOk (cs ++ [c]) node' ∧ FlagsOk node' := by
  obtain ⟨-, h0, hcall⟩ := hs
  obtain ⟨t, s, k⟩ := c
  rcases fsMount_cases hcall with ⟨hk, hk', rfl⟩ | ⟨hk, ht, hsrc, rfl⟩
  · exact ⟨h.fail hk hk', hf⟩
  · dsimp only at hk h0
    subst hk
    have hother : ∀ p ≠ t, Function.update node t
        { node t with flags := fsDirectory ||| fsMountFlag, mount := s } p = node p :=
      fun p hp => Function.update_of_ne hp _ _
    refine ⟨h.mounted (hf.mount_eq_zero ht) (hf.mount_eq_zero hsrc) h0 ?_ hother, fun p hp => ?_⟩
    · rw [Function.update_self]
    · by_cases hpt : p = t
      · subst hpt
        rw [Function.update_self]
      · rw [hother p hpt] at hp ⊢
        exact hf p hp

theorem mountsOk_nil (h : ∀ p, (node p).mount = 0) : MountsOk [] node where
  mount p q := by
    refine ⟨fun hmem => absurd hmem List.not_mem_nil, fun hq => ?_⟩
    exact absurd (hq.2.symm.trans (h p)) hq.1
  once := List.nodup_nil
  code _ hc := absurd hc List.not_mem_nil
  acyclic p hp := by
    obtain ⟨q, hq, -⟩ := Relation.TransGen.head'_iff.1 hp
    exact hq.2.1 (hq.1.symm.trans (h p))

/-- The run lemma. -/
theorem mountsOk_flagsOk (h₀ : ∀ p, (node₀ p).mount = 0) (h : mounting.Run node₀ cs node) :
    MountsOk cs node ∧ FlagsOk node := by
  induction h with
  | nil => exact ⟨mountsOk_nil h₀, fun p hp => absurd (h₀ p) hp⟩
  | snoc _ hs ih => exact ih.1.step ih.2 hs

/-- **What mounting comes to**, in every run from nodes without a mount. -/
theorem mountsOk_of_run (h₀ : ∀ p, (node₀ p).mount = 0) (h : mounting.Run node₀ cs node) :
    MountsOk cs node :=
  (mountsOk_flagsOk h₀ h).1

end Runs

/-- Two directories are mounted on each other: the second call fails. -/
theorem mountsOk_two : ∃ node₀ node : ℕ → FsNode,
    mounting.Run node₀ [⟨1, 2, 0⟩, ⟨2, 1, 3⟩] node ∧
      MountsOk [⟨1, 2, 0⟩, ⟨2, 1, 3⟩] node ∧ (node 1).mount = 2 := by
  let node₀ : ℕ → FsNode := fun _ => ⟨0, fun _ => 0, 0, fsDirectory, 0, 0, 0, 0, 0, none, 0⟩
  have hrun : mounting.Run node₀ ([] ++ [⟨1, 2, 0⟩] ++ [⟨2, 1, 3⟩])
      (fsMount (fsMount node₀ 1 2).2 2 1).2 :=
    .snoc (.snoc .nil ⟨by decide, by decide, Prod.ext (by decide) rfl⟩)
      ⟨by decide, by decide, Prod.ext (by decide) rfl⟩
  exact ⟨node₀, _, hrun, mountsOk_of_run (fun _ => rfl) hrun, by decide⟩

end Kernel

end Bluejay
