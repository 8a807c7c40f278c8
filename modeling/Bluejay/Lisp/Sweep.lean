import Bluejay.Lib.Links
import Bluejay.Lisp.Gc

/-!
# The list of allocations

All allocations are on one list, from `first_a` to `last_a`.  `add_this_alloc` puts a new one at
its end, and `_sweep` of `gc.c` takes out those that it frees.

* `Allocs` : the fields of every `struct alloc`, and the two ends of the list; `Allocs.ListOk` :
  the list is well formed.
* `sweepList` : `_sweep`; an access to an allocation that is freed already has no result.
* `sweepLoop_ok` : the loop frees what it should, and links the others to each other.
* `SweepsWell` : what `_sweep` is for; `sweepsWell_iff` : it does this exactly if the first
  allocation is not freed, and the last two are both freed or both kept.
* `sweepList_refines` : what it frees is what `sweep` takes out of the heap.
-/

namespace Bluejay

namespace Lisp

/-- The allocations: the fields of `struct alloc` by address, and the global variables. -/
structure Allocs where
  typeTag : ℕ → ℕ
  prev : ℕ → ℕ
  next : ℕ → ℕ
  pool : ℕ → ℕ
  mark : ℕ → ℕ
  /-- Those that `malloc_aligned` has returned and `free_aligned` has not been called with. -/
  live : ℕ → Bool
  firstA : ℕ
  lastA : ℕ
  currentPool : ℕ

namespace Allocs

/-- `add_this_alloc`; the field `mark` has 24 bits. -/
def addThisAlloc (a tag : ℕ) (s : Allocs) : Option Allocs :=
  let s := { s with
    mark := Function.update s.mark a (2 ^ 24 - 1)
    typeTag := Function.update s.typeTag a tag
    pool := Function.update s.pool a s.currentPool }
  if s.lastA ≠ 0 then
    if s.live s.lastA then
      some { s with
        prev := Function.update s.prev a s.lastA
        next := Function.update (Function.update s.next s.lastA a) a 0
        lastA := a }
    else none
  else
    some { s with
      prev := Function.update s.prev a 0
      next := Function.update s.next a 0
      firstA := a
      lastA := a }

/-- `malloc_aligned` returns `a`, which is then added. -/
def alloc (x : ℕ × ℕ) (s : Allocs) : Option Allocs :=
  addThisAlloc x.1 x.2 { s with live := Function.update s.live x.1 true }

/-- `del_alloc`. -/
def delAlloc (a : ℕ) (s : Allocs) : Option Allocs :=
  if s.live a then some { s with live := Function.update s.live a false } else none

def setNext (a n : ℕ) (s : Allocs) : Option Allocs :=
  if s.live a then some { s with next := Function.update s.next a n } else none

def setPrev (a p : ℕ) (s : Allocs) : Option Allocs :=
  if s.live a then some { s with prev := Function.update s.prev a p } else none

/-- The condition of `_sweep`: marked or in living pool. -/
def kept (gc_mark : ℕ) (s : Allocs) (a : ℕ) : Bool := poolAlive (s.pool a) || s.mark a = gc_mark

/-- The other branch of `_sweep`: free and remove from allocation list. -/
def remove (a : ℕ) (s : Allocs) : Option Allocs := do
  let p := s.prev a
  let n := s.next a
  let s ← s.delAlloc a
  -- the source has set `a` to `n` when it compares it with the ends
  let a := n
  let s := if a = s.firstA then { s with firstA := n } else s
  let s := if a = s.lastA then { s with lastA := p } else s
  let s ← if p ≠ 0 then s.setNext p n else some s
  if n ≠ 0 then s.setPrev n p else some s

/-- The loop of `_sweep` from `a` on, for at most `n` turns, with the calls of `free_aligned`. -/
def sweepLoop (gc_mark : ℕ) : ℕ → ℕ → Allocs → Option (List ℕ × Allocs)
  | _, 0, s => some ([], s)
  | 0, _ + 1, _ => none
  | n + 1, a@(_ + 1), s =>
    if s.live a = false then none
    else if s.kept gc_mark a then sweepLoop gc_mark n (s.next a) s
    else (s.remove a).bind fun s' =>
      (sweepLoop gc_mark n (s.next a) s').map fun r => (a :: r.1, r.2)

/-- `_sweep`. -/
def sweepList (gc_mark n : ℕ) (s : Allocs) : Option (List ℕ × Allocs) :=
  sweepLoop gc_mark n s.firstA s

/-- The allocations `ps` are linked to each other, and none of them is freed. -/
structure Chain (s : Allocs) (ps : List ℕ) : Prop where
  linked : Linked s.next s.prev 0 ps 0
  nodup : ps.Nodup
  ne_zero : 0 ∉ ps
  live : ∀ p ∈ ps, s.live p = true

/-- The list from `first_a` to `last_a` is well formed, and consists of `ps`. -/
structure ListOk (s : Allocs) (ps : List ℕ) : Prop extends Chain s ps where
  first : s.firstA = ps.headD 0
  last : s.lastA = ps.getLastD 0

/-! ### One turn of the loop -/

section Remove

variable {s : Allocs} {gc_mark a : ℕ} {ks rest : List ℕ}

theorem chain_tail (h : Chain s (ks ++ a :: rest)) :
    s.prev a = ks.getLastD 0 ∧ s.next a = rest.headD 0 := by
  obtain ⟨-, hprev, hnext, -⟩ := linked_append.1 h.linked
  exact ⟨hprev, hnext⟩

/-- The neighbours of an allocation, where there are any, are not the allocation itself. -/
theorem Chain.neighbours (h : Chain s (ks ++ a :: rest)) :
    (ks.getLastD 0 ≠ 0 → ks.getLastD 0 ≠ a ∧ s.live (ks.getLastD 0)) ∧
      (rest.headD 0 ≠ 0 → rest.headD 0 ≠ a ∧ s.live (rest.headD 0)) := by
  obtain ⟨-, hnd, hdisj⟩ := List.nodup_append.1 h.nodup
  constructor
  · intro hne
    have hks : ks ≠ [] := by
      rintro rfl
      exact hne rfl
    have hmem := getLastD_mem hks 0
    exact ⟨hdisj _ hmem a List.mem_cons_self, h.live _ (List.mem_append_left _ hmem)⟩
  · intro hne
    have hrest : rest ≠ [] := by
      rintro rfl
      exact hne rfl
    have hmem := headD_mem hrest 0
    refine ⟨fun he => (List.nodup_cons.1 hnd).1 (he ▸ hmem), h.live _ ?_⟩
    exact List.mem_append_right _ (List.mem_cons_of_mem _ hmem)

/-- An allocation is freed and taken out.  `last_a` changes if the allocation is the one *before*
the last. -/
theorem remove_ok (gc_mark : ℕ) (h : Chain s (ks ++ a :: rest))
    (hfirst : rest.headD 0 ≠ s.firstA) :
    ∃ s', s.remove a = some s' ∧ Chain s' (ks ++ rest) ∧
      s'.live = Function.update s.live a false ∧ s'.kept gc_mark = s.kept gc_mark ∧
      s'.firstA = s.firstA ∧
      s'.lastA = if rest.headD 0 = s.lastA then ks.getLastD 0 else s.lastA := by
  have hlive : s.live a = true := h.live a (List.mem_append_right _ List.mem_cons_self)
  obtain ⟨hprev, hnext⟩ := chain_tail h
  obtain ⟨hp, hn⟩ := h.neighbours
  have hlinked := h.linked.remove h.nodup h.ne_zero
  have hsub : (ks ++ rest).Sublist (ks ++ a :: rest) :=
    List.Sublist.append_left (List.sublist_cons_self _ _) _
  have hne : ∀ p ∈ ks ++ rest, p ≠ a := fun p hmem heq =>
    (List.nodup_cons.1 (List.nodup_middle.1 h.nodup)).1 (heq ▸ hmem)
  have hlive' : ∀ p ≠ a, s.live p → Function.update s.live a false p = true := by
    intro p hpa hl
    rw [Function.update_of_ne hpa, hl]
  rw [hprev, hnext] at hlinked
  refine ⟨{ s with
    live := Function.update s.live a false
    lastA := if rest.headD 0 = s.lastA then ks.getLastD 0 else s.lastA
    next := if ks.getLastD 0 ≠ 0 then Function.update s.next (ks.getLastD 0) (rest.headD 0)
      else s.next
    prev := if rest.headD 0 ≠ 0 then Function.update s.prev (rest.headD 0) (ks.getLastD 0)
      else s.prev }, ?_, ?_, rfl, rfl, rfl, rfl⟩
  · unfold remove
    rw [hprev, hnext, delAlloc, if_pos hlive]
    simp only [Option.bind_eq_bind, Option.bind_some, if_neg hfirst]
    generalize ks.getLastD 0 = p at *
    generalize rest.headD 0 = n at *
    by_cases hp0 : p = 0 <;> by_cases hn0 : n = 0 <;> by_cases hl : n = s.lastA <;>
      simp_all [setNext, setPrev]
  · exact ⟨hlinked, h.nodup.sublist hsub, fun h0 => h.ne_zero (hsub.subset h0),
      fun p hmem => hlive' p (hne p hmem) (h.live p (hsub.subset hmem))⟩

/-- The part of `EndsKept` about the end of the list. -/
def LastKept (kept : ℕ → Bool) (ps : List ℕ) : Prop :=
  ∀ p ∈ ps.dropLast.getLast?, ∀ q ∈ ps.getLast?, kept p = kept q

/-- What the loop makes of `last_a`, from `l` to `l'`, with `ks` kept before `rest`. -/
def LastSpec (kept : ℕ → Bool) (ks : List ℕ) (l l' : ℕ) : List ℕ → Prop
  | [] => l' = l
  | [_] => (l = 0 → ks = []) → l' = l
  | x :: y :: rest => l = (y :: rest).getLastD 0 →
    (l' = (ks ++ (x :: y :: rest).filter kept).getLastD 0 ↔ LastKept kept (x :: y :: rest))

theorem lastKept_cons {kept : ℕ → Bool} {x y z : ℕ} :
    LastKept kept (x :: y :: z :: rest) ↔ LastKept kept (y :: z :: rest) :=
  Iff.rfl

theorem lastKept_pair {kept : ℕ → Bool} {x y : ℕ} : LastKept kept [x, y] ↔ kept x = kept y := by
  simp [LastKept]

theorem LastSpec.keep {kept : ℕ → Bool} {l l' x : ℕ} (hk : kept x = true)
    (hnd : (ks ++ x :: rest).Nodup) (h0 : 0 ∉ ks ++ x :: rest)
    (h : LastSpec kept (ks ++ [x]) l l' rest) : LastSpec kept ks l l' (x :: rest) := by
  rcases rest with - | ⟨y, - | ⟨z, rest⟩⟩
  · exact fun _ => h
  · intro hl
    have hy : l ≠ 0 := by
      rintro rfl
      exact h0 (by simp [show (0 : ℕ) = y from hl])
    have hxy : x ≠ y := by
      rintro rfl
      exact (List.nodup_cons.1 (List.nodup_append.1 hnd).2.1).1 List.mem_cons_self
    obtain rfl : l' = y := (h fun h => absurd h hy).trans hl
    rw [lastKept_pair, hk]
    cases hky : kept l' <;> simp [hk, hky, hxy.symm]
  · intro hl
    rw [lastKept_cons, List.filter_cons, if_pos hk, List.append_cons]
    exact h hl

theorem LastSpec.free {kept : ℕ → Bool} {l l' x : ℕ} (hk : kept x = false)
    (hnd : (ks ++ x :: rest).Nodup) (h0 : 0 ∉ ks ++ x :: rest)
    (h : LastSpec kept ks (if rest.headD 0 = l then ks.getLastD 0 else l) l' rest) :
    LastSpec kept ks l l' (x :: rest) := by
  rcases rest with - | ⟨y, - | ⟨z, rest⟩⟩
  · -- the last allocation is freed
    intro hl
    rw [LastSpec, List.headD_nil] at h
    rw [h]
    split_ifs with h0l
    · rw [hl h0l.symm, ← h0l]
      rfl
    · rfl
  · -- the one before the last is freed
    intro hl
    obtain rfl : l = y := hl
    have hks : ks.getLastD 0 = 0 → ks = [] := by
      intro he
      by_contra hne
      exact h0 (List.mem_append_left _ (he ▸ getLastD_mem hne 0))
    rw [List.headD_cons, if_pos rfl] at h
    rw [lastKept_pair, hk, h hks]
    cases hky : kept l with
    | false => simp [hk, hky]
    | true =>
      have hne : ks.getLastD 0 ≠ l := by
        intro he
        rcases eq_or_ne ks [] with rfl | hne
        · exact h0 (by simp [show (0 : ℕ) = l from he])
        · have hmem := getLastD_mem hne 0
          rw [he] at hmem
          exact (List.nodup_append.1 hnd).2.2 l hmem l (by simp) rfl
      simpa [hk, hky] using hne
  · intro hl
    have hne : y ≠ l := by
      rintro rfl
      have hmem := getLastD_mem (List.cons_ne_nil z rest) 0
      rw [show (z :: rest).getLastD 0 = y from hl.symm] at hmem
      have hnd' := (List.nodup_append.1 hnd).2.1
      exact (List.nodup_cons.1 (List.nodup_cons.1 hnd').2).1 hmem
    rw [List.headD_cons, if_neg hne] at h
    rw [lastKept_cons, List.filter_cons, if_neg (by simp [hk])]
    exact h hl

/-- A turn of the loop. -/
theorem sweepLoop_succ (ha : a ≠ 0) (hl : s.live a = true) (n : ℕ) :
    sweepLoop gc_mark (n + 1) a s =
      if s.kept gc_mark a then sweepLoop gc_mark n (s.next a) s
      else (s.remove a).bind fun s' =>
        (sweepLoop gc_mark n (s.next a) s').map fun r => (a :: r.1, r.2) := by
  obtain ⟨b, rfl⟩ := Nat.exists_eq_succ_of_ne_zero ha
  rw [sweepLoop, if_neg (by simp [hl])]

/-- A greater bound on the number of turns does not matter. -/
theorem sweepLoop_mono {n m : ℕ} {r : List ℕ × Allocs} (h : sweepLoop gc_mark n a s = some r)
    (hnm : n ≤ m) : sweepLoop gc_mark m a s = some r := by
  induction n generalizing m a s r with
  | zero =>
    cases a with
    | zero => simpa [sweepLoop] using h
    | succ a => cases h
  | succ n ih =>
    obtain ⟨m, rfl⟩ := Nat.exists_eq_add_of_le' (Nat.le_trans (Nat.succ_pos n) hnm)
    have hnm : n ≤ m := Nat.le_of_succ_le_succ hnm
    rcases Nat.eq_zero_or_pos a with rfl | ha
    · simpa [sweepLoop] using h
    · have hl : s.live a = true := by
        by_contra hl
        obtain ⟨b, rfl⟩ := Nat.exists_eq_succ_of_ne_zero ha.ne'
        rw [sweepLoop, if_pos (by simpa using hl)] at h
        cases h
      rw [sweepLoop_succ ha.ne' hl] at h ⊢
      split_ifs at h ⊢ with hk
      · exact ih h hnm
      · obtain ⟨s', hs', h⟩ := Option.bind_eq_some_iff.1 h
        obtain ⟨r', hr', rfl⟩ := Option.map_eq_some_iff.1 h
        rw [hs', Option.bind_some, ih hr' hnm]
        rfl

/-- The loop frees what is not kept, and links the others to each other. -/
theorem sweepLoop_ok (hc : Chain s (ks ++ rest)) (hfirst0 : s.firstA ≠ 0)
    (hfirst : s.firstA ∉ rest.tail) :
    ∃ s', sweepLoop gc_mark rest.length (rest.headD 0) s =
        some (rest.filter fun p => !s.kept gc_mark p, s') ∧
      Chain s' (ks ++ rest.filter (s.kept gc_mark)) ∧ s'.firstA = s.firstA ∧
      (∀ p, s'.live p = (s.live p && !(rest.filter fun p => !s.kept gc_mark p).contains p)) ∧
      LastSpec (s.kept gc_mark) ks s.lastA s'.lastA rest := by
  induction rest generalizing ks s with
  | nil => exact ⟨s, by simp [sweepLoop], by simpa using hc, rfl, by simp, rfl⟩
  | cons a rest ih =>
    have hlive : s.live a = true := hc.live a (by simp)
    have ha : a ≠ 0 := fun he => hc.ne_zero (by simp [he])
    have hhead : rest.headD 0 ≠ s.firstA := by
      intro he
      cases rest with
      | nil => exact hfirst0 he.symm
      | cons b rest => exact hfirst (he ▸ List.mem_cons_self)
    have htail : s.firstA ∉ rest.tail := fun hm => hfirst (List.mem_of_mem_tail hm)
    rw [List.length_cons, List.headD_cons, sweepLoop_succ ha hlive, (chain_tail hc).2]
    by_cases hk : s.kept gc_mark a = true
    · rw [List.append_cons] at hc
      obtain ⟨s', hs', hc', hfirst', hlive', hlast⟩ := ih hc hfirst0 htail
      rw [← List.append_cons] at hc
      refine ⟨s', ?_, ?_, hfirst', ?_, hlast.keep hk hc.nodup hc.ne_zero⟩
      · rw [if_pos hk, hs']
        simp [hk]
      · simpa [hk] using hc'
      · simpa [hk] using hlive'
    · obtain ⟨s₁, hs₁, hc₁, hlive₁, hkept, hfirst₁, hlast₁⟩ :=
        remove_ok gc_mark hc hhead
      rw [← hfirst₁] at hfirst0 htail
      obtain ⟨s', hs', hc', hfirst', hlive', hlast⟩ := ih hc₁ hfirst0 htail
      rw [hkept] at hs' hc' hlive' hlast
      rw [hlast₁] at hlast
      refine ⟨s', ?_, ?_, hfirst'.trans hfirst₁, fun p => ?_,
        hlast.free (by simpa using hk) hc.nodup hc.ne_zero⟩
      · rw [if_neg hk, hs₁, Option.bind_some, hs']
        simp [hk]
      · simpa [hk] using hc'
      · rw [hlive' p, hlive₁]
        by_cases hp : p = a
        · simp [hp, hk]
        · simp [hp, hk]

end Remove

/-! ### New allocations -/

section Add

variable {s : Allocs} {ps : List ℕ} {a : ℕ}

/-- A new allocation is added at the end of a well-formed list. -/
theorem ListOk.alloc (h : ListOk s ps) (ha : a ≠ 0) (hl : s.live a = false) (tag : ℕ) :
    ∃ s', s.alloc (a, tag) = some s' ∧ ListOk s' (ps ++ [a]) ∧
      s'.live = Function.update s.live a true := by
  have hmem : a ∉ ps := fun hm => by simp [h.live a hm] at hl
  have hnodup : (ps ++ [a]).Nodup :=
    List.nodup_append.2 ⟨h.nodup, List.nodup_singleton a, by
      rintro p hp b hb rfl
      exact hmem (List.mem_singleton.1 hb ▸ hp)⟩
  have hzero : 0 ∉ ps ++ [a] := by
    simpa [Ne.symm ha] using h.ne_zero
  have hlive : ∀ p ∈ ps ++ [a], Function.update s.live a true p = true := by
    intro p hp
    by_cases hpa : p = a
    · rw [hpa, Function.update_self]
    · rw [Function.update_of_ne hpa]
      exact h.live p (by simpa [hpa] using hp)
  rcases eq_or_ne ps [] with rfl | hps
  · -- the list is empty
    have hlast : s.lastA = 0 := h.last
    refine ⟨_, by simp [Allocs.alloc, addThisAlloc, hlast]; rfl, ⟨⟨?_, hnodup, hzero, hlive⟩,
      rfl, rfl⟩, rfl⟩
    exact ⟨Function.update_self _ _ _, Function.update_self _ _ _, trivial⟩
  · have hlastMem : s.lastA ∈ ps := h.last ▸ getLastD_mem hps 0
    have hlast : s.lastA ≠ 0 := fun he => h.ne_zero (he ▸ hlastMem)
    have hne : s.lastA ≠ a := fun he => hmem (he ▸ hlastMem)
    refine ⟨_, by simp [Allocs.alloc, addThisAlloc, hlast, hne, h.live _ hlastMem]; rfl,
      ⟨⟨linked_append.2 ⟨?_, ?_⟩, hnodup, hzero, hlive⟩, ?_, ?_⟩, rfl⟩
    · rw [h.last]
      exact ((h.linked.retarget h.nodup a).updateNext hmem).updatePrev hmem
    · exact ⟨by rw [← h.last]; exact Function.update_self _ _ _, Function.update_self _ _ _,
        trivial⟩
    · obtain ⟨p, ps, rfl⟩ := List.exists_cons_of_ne_nil hps
      exact h.first
    · simp

/-- New allocations are added in the order in which they are made. -/
theorem ListOk.allocs (h : ListOk s ps) {xs : List (ℕ × ℕ)} (hnd : (xs.map Prod.fst).Nodup)
    (h0 : 0 ∉ xs.map Prod.fst) (hl : ∀ p ∈ xs.map Prod.fst, s.live p = false) :
    ∃ s', xs.foldlM (fun s x => s.alloc x) s = some s' ∧ ListOk s' (ps ++ xs.map Prod.fst) := by
  induction xs generalizing s ps with
  | nil => exact ⟨s, rfl, by simpa using h⟩
  | cons x xs ih =>
    obtain ⟨a, tag⟩ := x
    rw [List.map_cons, List.nodup_cons] at hnd
    rw [List.map_cons, List.mem_cons, not_or] at h0
    obtain ⟨s₁, hs₁, hok₁, hlive₁⟩ := h.alloc (Ne.symm h0.1) (hl a List.mem_cons_self) tag
    obtain ⟨s', hs', hok'⟩ := ih hok₁ hnd.2 h0.2 fun p hp => by
      have hne : p ≠ a := fun he => hnd.1 (he ▸ hp)
      rw [hlive₁, Function.update_of_ne hne]
      exact hl p (List.mem_cons_of_mem _ hp)
    refine ⟨s', ?_, ?_⟩
    · rw [List.foldlM_cons, hs₁]
      exact hs'
    · rwa [List.append_assoc] at hok'

end Add

section Sweep

variable {s : Allocs} {ps : List ℕ}

/-- The end of the list, as the loop leaves it. -/
theorem lastSpec_iff {kept : ℕ → Bool} {l' : ℕ} (hps : ps ≠ [])
    (h : LastSpec kept [] (ps.getLastD 0) l' ps) (hfirst : ∀ p ∈ ps.head?, kept p) :
    l' = (ps.filter kept).getLastD 0 ↔ LastKept kept ps := by
  rcases ps with - | ⟨x, - | ⟨y, rest⟩⟩
  · exact absurd rfl hps
  · rw [show l' = x from h fun _ => rfl, List.filter_cons, if_pos (hfirst x rfl)]
    simp [LastKept]
  · exact h rfl

/-- `_sweep` of a well-formed list returns; it has freed what is not kept. -/
theorem sweepList_ok (gc_mark : ℕ) (h : ListOk s ps) :
    ∃ s', sweepList gc_mark ps.length s = some (ps.filter fun p => !s.kept gc_mark p, s') ∧
      Chain s' (ps.filter (s.kept gc_mark)) ∧ s'.firstA = s.firstA ∧
      (∀ p, s'.live p = (s.live p && !(ps.filter fun p => !s.kept gc_mark p).contains p)) ∧
      LastSpec (s.kept gc_mark) [] s.lastA s'.lastA ps := by
  rcases eq_or_ne ps [] with rfl | hps
  · have hfirst : s.firstA = 0 := h.first
    refine ⟨s, ?_, h.toChain, rfl, by simp, rfl⟩
    rw [sweepList, hfirst]
    simp [sweepLoop]
  · obtain ⟨a, ps, rfl⟩ := List.exists_cons_of_ne_nil hps
    have hfirst : s.firstA = a := h.first
    have ha : s.firstA ≠ 0 := fun he => h.ne_zero (by simp [← he, hfirst])
    have htail : s.firstA ∉ ps := hfirst ▸ (List.nodup_cons.1 h.nodup).1
    have hchain : Chain s ([] ++ a :: ps) := h.toChain
    obtain ⟨s', hs', hrest⟩ := sweepLoop_ok hchain ha htail
    refine ⟨s', ?_, hrest⟩
    rw [sweepList, h.first]
    exact hs'

end Sweep

end Allocs

/-- **What `_sweep` is for**: each allocation that is not kept is freed once, and the others are
a well-formed list in their old order, at the end of which new ones are added. -/
def SweepsWell (gc_mark : ℕ) (s : Allocs) (ps : List ℕ) : Prop :=
  ∃ n s', s.sweepList gc_mark n = some (ps.filter fun p => !s.kept gc_mark p, s') ∧
    (∀ p, s'.live p = (s.live p && !(ps.filter fun p => !s.kept gc_mark p).contains p)) ∧
    s'.ListOk (ps.filter (s.kept gc_mark)) ∧
    ∀ xs : List (ℕ × ℕ), (xs.map Prod.fst).Nodup → 0 ∉ xs.map Prod.fst →
      (∀ p ∈ xs.map Prod.fst, s'.live p = false) →
      ∃ s'', xs.foldlM (fun s x => s.alloc x) s' = some s'' ∧
        s''.ListOk (ps.filter (s.kept gc_mark) ++ xs.map Prod.fst)

/-- The first allocation is kept, and the last two are both kept or both freed. -/
def EndsKept (kept : ℕ → Bool) (ps : List ℕ) : Prop :=
  (∀ p ∈ ps.head?, kept p) ∧ Allocs.LastKept kept ps

section Sweep

open Allocs

variable {s : Allocs} {ps : List ℕ} {gc_mark : ℕ}

/-- **`_sweep` leaves the survivors in a well-formed list** exactly if it keeps the first
allocation, and the last two are both kept or both freed. -/
theorem sweepsWell_iff (h : s.ListOk ps) :
    SweepsWell gc_mark s ps ↔ EndsKept (s.kept gc_mark) ps := by
  obtain ⟨s', hs', hchain, hfirst, hlive, hlast⟩ := sweepList_ok gc_mark h
  rw [h.last] at hlast
  constructor
  · rintro ⟨n, s₁, hs₁, -, hok, -⟩
    obtain rfl : s₁ = s' := by
      have heq := (sweepLoop_mono hs₁ (Nat.le_add_right n ps.length)).symm.trans
        (sweepLoop_mono hs' (Nat.le_add_left ps.length n))
      rw [Option.some.injEq, Prod.mk.injEq] at heq
      exact heq.2
    have hhead : ∀ p ∈ ps.head?, s.kept gc_mark p := by
      -- `first_a` is still the first allocation, so that it is one of those kept
      intro p hp
      have hps : ps.headD 0 = p := by rw [List.headD_eq_head?_getD, hp, Option.getD_some]
      have hp0 : p ≠ 0 := fun he => h.ne_zero (he ▸ List.mem_of_mem_head? hp)
      have hmem : p ∈ ps.filter (s.kept gc_mark) := by
        have heq : (ps.filter (s.kept gc_mark)).headD 0 = p := by
          rw [← hok.first, hfirst, h.first, hps]
        refine heq ▸ headD_mem ?_ 0
        intro hnil
        rw [hnil] at heq
        exact hp0 heq.symm
      exact (List.mem_filter.1 hmem).2
    refine ⟨hhead, ?_⟩
    rcases eq_or_ne ps [] with rfl | hps
    · simp [LastKept]
    · exact (lastSpec_iff hps hlast hhead).1 hok.last
  · rintro ⟨hhead, hends⟩
    have hok : s'.ListOk (ps.filter (s.kept gc_mark)) := by
      refine ⟨hchain, ?_, ?_⟩
      · rw [hfirst, h.first]
        cases ps with
        | nil => rfl
        | cons a ps => simp [hhead a rfl]
      · rcases eq_or_ne ps [] with rfl | hps
        · exact hlast
        · exact (lastSpec_iff hps hlast hhead).2 hends
    exact ⟨_, s', hs', hlive, hok, fun xs hnd h0 hl => hok.allocs hnd h0 hl⟩

/-- `_sweep` refines `sweep`: the allocations left are those of the heap that is left. -/
theorem sweepList_refines {H : Heap} {m : Marks} (h : s.ListOk ps)
    (hdom : ∀ p, p ∈ H.dom ↔ p ∈ ps) (hmark : m.mark = s.mark) :
    ∃ freed s', s.sweepList gc_mark ps.length = some (freed, s') ∧
      ∀ p ∈ ps, s'.live p = true ↔ p ∈ (sweep H s.pool gc_mark m).dom := by
  obtain ⟨s', hs', -, -, hlive, -⟩ := sweepList_ok gc_mark h
  refine ⟨_, s', hs', fun p hp => ?_⟩
  rw [hlive, h.live p hp]
  simp [sweep, Allocs.kept, hdom, hmark, hp]

/-- Three allocations, at 16, 32 and 48, of which the ones with a mark of 1 are marked. -/
def threeAllocs (marks : List (ℕ × ℕ)) : Allocs where
  typeTag _ := consTag
  prev p := p - 16
  next p := if p = 48 then 0 else p + 16
  pool _ := 0
  mark p := (marks.lookup p).getD (2 ^ 24 - 1)
  live p := [16, 32, 48].contains p
  firstA := 16
  lastA := 48
  currentPool := 0

theorem listOk_threeAllocs (marks : List (ℕ × ℕ)) : (threeAllocs marks).ListOk [16, 32, 48] := by
  refine ⟨⟨⟨rfl, rfl, rfl, rfl, rfl, rfl, trivial⟩, by decide, by decide, ?_⟩, rfl, rfl⟩
  exact fun p hp => List.contains_iff_mem.2 hp

/-- The last two are freed. -/
theorem sweepsWell_threeAllocs : SweepsWell 1 (threeAllocs [(16, 1)]) [16, 32, 48] :=
  (sweepsWell_iff (listOk_threeAllocs _)).2 ⟨by decide, by unfold LastKept; decide⟩

/-- **`last_a` dangles** when the last allocation is freed, and the one before it is not. -/
theorem not_sweepsWell : ¬ ∀ (gc_mark : ℕ) (s : Allocs) (ps : List ℕ), s.ListOk ps →
    SweepsWell gc_mark s ps := by
  intro h
  let s := threeAllocs [(16, 1), (32, 1)]
  obtain ⟨n, s', hs', -, hok, -⟩ := h 1 s _ (listOk_threeAllocs _)
  have hrun : (s.sweepList 1 3).map (fun r => r.2.lastA) = some 48 := by decide
  obtain ⟨r, hr, hlast⟩ := Option.map_eq_some_iff.1 hrun
  have heq := (Allocs.sweepLoop_mono hs' (Nat.le_add_right n 3)).symm.trans
    (Allocs.sweepLoop_mono hr (Nat.le_add_left 3 n))
  rw [Option.some.injEq] at heq
  rw [← heq, show s'.lastA = 32 from hok.last] at hlast
  exact absurd hlast (by decide)

end Sweep

end Lisp

end Bluejay
