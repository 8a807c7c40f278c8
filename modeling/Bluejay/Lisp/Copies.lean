import Bluejay.Lisp.RoundTrip

/-!
# Deep copies

* `deepCopy` : `deep_copy`.
* `Copyable H v` : in the heap `H`, the value `v` is data that `deep_copy` gets to the end of.
* `IsCopy H v G w` : the value `w` of the heap `G` is what `deep_copy` makes of `v`.
* `deepCopy_spec` : a copy is made of new objects.
* `deepCopy_extends`, `copyable_of_deepCopy` : no object changes, and only data without cycles is
  copied.
-/

namespace Bluejay

namespace Lisp

/-! ### `deep_copy` -/

/-- `new_c->data[i] = v`, for the next `i`. -/
def World.addCapture (w : World) (new v : Word) : World :=
  match w.heap.obj (pointer new) with
  | some (.closure args f data) => { w with
      heap := w.heap.set (pointer new) (.closure args f (data ++ [v])) }
  | _ => w

/-- The loop of `deep_copy` over the captures of a closure; those that it has not come to are left
out of the new closure. -/
def copyCaptures (copy : Word → World → Option (Word × World)) (new : Word) :
    List Word → World → Option World
  | [], w => some w
  | v :: vs, w => do
    let (v', w) ← copy v w
    copyCaptures copy new vs (w.addCapture new v')

/-- The values that `deep_copy` returns as they are. -/
def immediate (val : Word) : Bool := integerp val || nilp val || val = t

/-- `deep_copy`, for at most `n` nested calls.  Of the arguments of `cons`, whose order C leaves
open, the `car` is first. -/
def deepCopy (R : Runtime) : ℕ → Word → World → Option (Word × World)
  | 0, _, _ => none
  | n + 1, val, w =>
    if immediate val then some (val, w)
    else if symbolp val then
      (w.heap.text val).map fun s => w.allocate R (.text s) symbolTag
    else if stringp val then
      (w.heap.text val).map fun s => w.allocate R (.text s) stringTag
    else if consp val then do
      let (car, w) ← deepCopy R n (w.heap.car val) w
      let (cdr, w) ← deepCopy R n (w.heap.cdr val) w
      return w.allocate R (.cons car cdr) consTag
    else if closurep val then
      match w.heap.obj (pointer val) with
      | some (.closure args f data) => do
        let (new, w) := w.allocate R (.closure args f []) closureTag
        let w ← copyCaptures (deepCopy R n) new data w
        return (new, w)
      | _ => none
    else some (nil, w)

/-! ### Copies -/

/-- The value is finite data. -/
inductive Copyable (H : Heap) : Word → Prop
  | immediate {v : Word} (hv : immediate v = true) : Copyable H v
  | text {v : Word} {s : String} (hv : symbolp v = true ∨ stringp v = true)
      (ho : H.obj (pointer v) = some (.text s)) : Copyable H v
  | cons {v x y : Word} (hv : consp v = true) (ho : H.obj (pointer v) = some (.cons x y))
      (hx : Copyable H x) (hy : Copyable H y) : Copyable H v
  | closure {v : Word} {args : Args} {f : CodePtr} {data : List Word} (hv : closurep v = true)
      (ho : H.obj (pointer v) = some (.closure args f data)) (hdata : ∀ u ∈ data, Copyable H u) :
      Copyable H v
  /-- An instance of a class. -/
  | other {v : Word} (hv : immediate v = false) (hh : heapp v = false) : Copyable H v

/-- The value `w` of the heap `G` is a copy of `v`. -/
inductive IsCopy (H G : Heap) : Word → Word → Prop
  | immediate {v : Word} (hv : immediate v = true) : IsCopy H G v v
  | text {v w : Word} {s : String} (hv : symbolp v = true ∨ stringp v = true) (htag : tag w = tag v)
      (ho : H.obj (pointer v) = some (.text s)) (ho' : G.obj (pointer w) = some (.text s)) :
      IsCopy H G v w
  | cons {v w x y x' y' : Word} (hv : consp v = true) (hw : consp w = true)
      (ho : H.obj (pointer v) = some (.cons x y)) (ho' : G.obj (pointer w) = some (.cons x' y'))
      (hx : IsCopy H G x x') (hy : IsCopy H G y y') : IsCopy H G v w
  | closure {v w : Word} {args : Args} {f : CodePtr} {data data' : List Word}
      (hv : closurep v = true) (hw : closurep w = true)
      (ho : H.obj (pointer v) = some (.closure args f data))
      (ho' : G.obj (pointer w) = some (.closure args f data')) (hlen : data'.length = data.length)
      (hdata : ∀ u ∈ data.zip data', IsCopy H G u.1 u.2) : IsCopy H G v w
  /-- What cannot be copied is `nil`. -/
  | other {v : Word} (hv : immediate v = false) (hh : heapp v = false) : IsCopy H G v nil

section Copies

variable {R : Runtime} {H G G' : Heap} {n : ℕ} {u v v' : Word} {us : List Word}

theorem IsCopy.extends (h : IsCopy H G v v') (hG : G.Extends G') : IsCopy H G' v v' := by
  induction h with
  | immediate hv => exact .immediate hv
  | text hv htag ho ho' => exact .text hv htag ho (hG _ _ ho')
  | cons hv hw ho ho' _ _ hx hy => exact .cons hv hw ho (hG _ _ ho') hx hy
  | closure hv hw ho ho' hlen _ hdata => exact .closure hv hw ho (hG _ _ ho') hlen hdata
  | other hv hh => exact .other hv hh

/-- `v'` is a copy of `v`, made of new objects. -/
def Copied (H : Heap) (w w' : World) (v v' : Word) : Prop :=
  w.heap.Extends w'.heap ∧ IsCopy H (w'.heap.except w.heap.dom) v v'

/-- Given enough nested calls, `deep_copy` copies the value, in every heap with more objects. -/
def Copies (R : Runtime) (H : Heap) (v : Word) : Prop :=
  ∃ N, ∀ n ≥ N, ∀ w : World, H.Extends w.heap →
    ∃ v' w', deepCopy R n v w = some (v', w') ∧ Copied H w w' v v'

/-- The last new object is part of the copy. -/
theorem extends_allocate (R : Runtime) (w : World) (o : Obj) {k : ℕ} (hk : k < 8) :
    w.heap.Extends (w.allocate R o k).2.heap := by
  obtain ⟨-, hp, hheap⟩ := allocate_spec R w o hk
  rw [hheap]
  exact .set hp o

theorem obj_allocate (R : Runtime) (w : World) (o : Obj) {k : ℕ} (hk : k < 8) :
    (w.allocate R o k).2.heap.obj (pointer (w.allocate R o k).1) = some o := by
  rw [(allocate_spec R w o hk).2.2, obj_set]

theorem except_obj {S : Finset ℕ} {p : ℕ} {o : Obj} (hp : p ∉ S) (ho : G.obj p = some o) :
    (G.except S).obj p = some o := by
  simp [Heap.except, hp, ho]

/-- The captures are copied one after the other into the closure `new`; no other object changes. -/
theorem copyCaptures_spec (args : Args) (f : CodePtr) (hus : ∀ u ∈ us, Copies R H u) :
    ∃ N, ∀ n ≥ N, ∀ (w : World) (new : Word) (done : List Word), pointer new ∉ H.dom →
      H.Extends w.heap → w.heap.obj (pointer new) = some (.closure args f done) →
      ∃ us' w', copyCaptures (deepCopy R n) new us w = some w' ∧ us'.length = us.length ∧
        w'.heap.obj (pointer new) = some (.closure args f (done ++ us')) ∧
        (∀ p o, p ≠ pointer new → w.heap.obj p = some o → w'.heap.obj p = some o) ∧
        ∀ x ∈ us.zip us', IsCopy H (w'.heap.except w.heap.dom) x.1 x.2 := by
  induction us with
  | nil =>
    refine ⟨0, fun n _ w new done _ _ ho => ⟨[], w, rfl, rfl, ?_, fun _ _ _ h => h, nofun⟩⟩
    rw [ho, List.append_nil]
  | cons u us ih =>
    obtain ⟨N, hN⟩ := hus u List.mem_cons_self
    obtain ⟨M, hM⟩ := ih fun u hu => hus u (List.mem_cons_of_mem _ hu)
    refine ⟨max N M, fun n hn w new done hnew hH ho => ?_⟩
    obtain ⟨u', w₁, hu, hext, hcopy⟩ := hN n (le_of_max_le_left hn) w hH
    have ho₁ := hext _ _ ho
    have hheap : (w₁.addCapture new u').heap =
        w₁.heap.set (pointer new) (.closure args f (done ++ [u'])) := by
      rw [World.addCapture, ho₁]
    have hset : ∀ p o, p ≠ pointer new → w₁.heap.obj p = some o →
        (w₁.addCapture new u').heap.obj p = some o := by
      intro p o hp h
      simpa [hheap, Heap.set, hp] using h
    have hH₂ : H.Extends (w₁.addCapture new u').heap := by
      intro p o h
      refine hset p o ?_ (hext p o (hH p o h))
      rintro rfl
      exact hnew ((H.mem_dom _).1 (by rw [h]; rfl))
    obtain ⟨us', w', hrun, hlen, hobj, hkeep, hcopies⟩ := hM n (le_of_max_le_right hn) _
      new (done ++ [u']) hnew hH₂ (by rw [hheap, obj_set])
    have hdom : w.heap.dom ⊆ (w₁.addCapture new u').heap.dom := by
      rw [hheap]
      exact hext.dom_subset.trans (Finset.subset_insert _ _)
    refine ⟨u' :: us', w', ?_, by simp [hlen], by simpa using hobj, fun p o hp h => ?_, ?_⟩
    · rw [copyCaptures, hu]
      exact hrun
    · exact hkeep p o hp (hset p o hp (hext p o h))
    · -- the closure is older than what is copied into it
      have hmem : pointer new ∈ w.heap.dom := (w.heap.mem_dom _).1 (by rw [ho]; rfl)
      rw [List.zip_cons_cons]
      refine List.forall_mem_cons.2 ⟨hcopy.extends (Heap.except_extends subset_rfl ?_), ?_⟩
      · intro p o hp h
        have hne : p ≠ pointer new := by
          rintro rfl
          exact hp hmem
        exact hkeep p o hne (hset p o hne h)
      · exact fun x hx => (hcopies x hx).extends (Heap.except_extends hdom fun _ _ _ h => h)

theorem immediate_of_heapp {v : ℕ} (h : heapp v = true) : immediate v = false := by
  have htag : v % 8 = 1 ∨ v % 8 = 3 ∨ v % 8 = 5 ∨ v % 8 = 6 := by
    simp only [heapp, Bool.or_eq_true] at h
    rcases h with ((h | h) | h) | h
    · exact .inl (of_decide_eq_true h)
    · exact .inr (.inl (of_decide_eq_true h))
    · exact .inr (.inr (.inl (of_decide_eq_true h)))
    · exact .inr (.inr (.inr (of_decide_eq_true h)))
  have hne : ¬ v % 4 = 0 ∧ ¬ v = 47 ∧ ¬ v = 8 := by omega
  simp [immediate, integerp, nilp, nil, t, hne]

/-- A new object is not among those that there were. -/
theorem except_allocate (R : Runtime) {w w' : World} (o : Obj) {k : ℕ} (hk : k < 8)
    (h : w.heap.Extends w'.heap) :
    ((w'.allocate R o k).2.heap.except w.heap.dom).obj (pointer (w'.allocate R o k).1) = some o :=
  except_obj (fun hmem => (allocate_spec R w' o hk).2.1 (h.dom_subset hmem))
    (obj_allocate R w' o hk)

/-- **A copy of finite data is made of new objects.** -/
theorem deepCopy_spec (h : Copyable H v) : Copies R H v := by
  induction h with
  | @immediate v hv =>
    refine ⟨1, fun n hn w _ => ?_⟩
    obtain ⟨n, rfl⟩ := Nat.exists_eq_succ_of_ne_zero (Nat.ne_zero_of_lt hn)
    exact ⟨v, w, by rw [deepCopy, if_pos hv], .refl _, .immediate hv⟩
  | @text v str hv ho =>
    refine ⟨1, fun n hn w hH => ?_⟩
    obtain ⟨n, rfl⟩ := Nat.exists_eq_succ_of_ne_zero (Nat.ne_zero_of_lt hn)
    have htext : w.heap.text v = some str := by rw [Heap.text, hH _ _ ho]
    have hheap : heapp v = true := by
      rcases hv with hv | hv <;> simp [heapp, hv]
    -- symbols and strings differ in the tag only
    obtain ⟨k, hk, htag, hrun⟩ : ∃ k, k < 8 ∧ tag v = k ∧
        deepCopy R (n + 1) v w = some (w.allocate R (.text str) k) := by
      by_cases hsym : symbolp v = true
      · refine ⟨symbolTag, by decide, of_decide_eq_true hsym, ?_⟩
        simp [deepCopy, immediate_of_heapp hheap, hsym, htext]
      · have hstr : stringp v = true := hv.resolve_left hsym
        refine ⟨stringTag, by decide, of_decide_eq_true hstr, ?_⟩
        simp [deepCopy, immediate_of_heapp hheap, hsym, hstr, htext]
    exact ⟨_, _, hrun, extends_allocate R w _ hk,
      .text hv ((allocate_spec R w (.text str) hk).1.trans htag.symm) ho
        (except_allocate R _ hk (.refl _))⟩
  | @cons v x y hv ho _ _ hx hy =>
    obtain ⟨N, hN⟩ := hx
    obtain ⟨M, hM⟩ := hy
    refine ⟨max N M + 1, fun n hn w hH => ?_⟩
    obtain ⟨n, rfl⟩ := Nat.exists_eq_succ_of_ne_zero (Nat.ne_zero_of_lt hn)
    have hle := Nat.le_of_succ_le_succ hn
    have hk : consTag < 8 := by decide
    have hheap : heapp v = true := by simp [heapp, hv]
    have hkind : symbolp v = false ∧ stringp v = false := by
      have htag : tag v = consTag := of_decide_eq_true hv
      simp [symbolp, stringp, htag, symbolTag, stringTag, consTag]
    obtain ⟨x', w₁, hx', hext₁, hcopy₁⟩ := hN n (le_of_max_le_left hle) w hH
    obtain ⟨y', w₂, hy', hext₂, hcopy₂⟩ := hM n (le_of_max_le_right hle) w₁ (hH.trans hext₁)
    have hcar : w.heap.car v = x := by simp [Heap.car, hv, hH _ _ ho]
    have hcdr : w₁.heap.cdr v = y := by simp [Heap.cdr, hv, hext₁ _ _ (hH _ _ ho)]
    have hrun : deepCopy R (n + 1) v w = some (w₂.allocate R (.cons x' y') consTag) := by
      rw [deepCopy, immediate_of_heapp hheap, hkind.1, hkind.2, hv]
      simp [hcar, hx', hcdr, hy']
    have hext := hext₁.trans hext₂
    have hlast := extends_allocate R w₂ (.cons x' y') hk
    refine ⟨_, _, hrun, hext.trans hlast, .cons hv ?_ ho (except_allocate R _ hk hext) ?_ ?_⟩
    · exact decide_eq_true (allocate_spec R w₂ (.cons x' y') hk).1
    · exact hcopy₁.extends (Heap.except_extends subset_rfl fun p o _ h => hlast p o (hext₂ p o h))
    · exact hcopy₂.extends (Heap.except_extends hext₁.dom_subset fun p o _ h => hlast p o h)
  | @closure v args f data hv ho _ hdata =>
    have hk : closureTag < 8 := by decide
    have hheap : heapp v = true := by simp [heapp, hv]
    have hkind : symbolp v = false ∧ stringp v = false ∧ consp v = false := by
      have htag : tag v = closureTag := of_decide_eq_true hv
      simp [symbolp, stringp, consp, htag, symbolTag, stringTag, consTag, closureTag]
    obtain ⟨N, hN⟩ := copyCaptures_spec args f hdata
    refine ⟨N + 1, fun n hn w hH => ?_⟩
    obtain ⟨n, rfl⟩ := Nat.exists_eq_succ_of_ne_zero (Nat.ne_zero_of_lt hn)
    have hspec := allocate_spec R w (.closure args f []) hk
    have hext := extends_allocate R w (.closure args f []) hk
    have hobj := obj_allocate R w (.closure args f []) hk
    -- the new closure is made first, and then filled with copies
    have hrun : deepCopy R (n + 1) v w = (copyCaptures (deepCopy R n)
        (w.allocate R (.closure args f []) closureTag).1 data
        (w.allocate R (.closure args f []) closureTag).2).map
          fun w' => ((w.allocate R (.closure args f []) closureTag).1, w') := by
      rw [deepCopy, immediate_of_heapp hheap, hkind.1, hkind.2.1, hkind.2.2, hv]
      simp only [Bool.false_eq_true, if_false, if_true, hH _ _ ho]
      cases copyCaptures (deepCopy R n) (w.allocate R (.closure args f []) closureTag).1 data
        (w.allocate R (.closure args f []) closureTag).2 <;> rfl
    generalize hw₁ : w.allocate R (.closure args f []) closureTag = r at *
    obtain ⟨new, w₁⟩ := r
    dsimp only at *
    obtain ⟨data', w', hcaptures, hlen, hobj', hkeep, hcopies⟩ := hN n (Nat.le_of_succ_le_succ hn)
      w₁ new [] (fun hmem => hspec.2.1 (hH.dom_subset hmem)) (hH.trans hext) hobj
    rw [hcaptures] at hrun
    refine ⟨new, w', hrun, fun p o ho' => ?_, ?_⟩
    · refine hkeep p o ?_ (hext p o ho')
      rintro rfl
      exact hspec.2.1 ((w.heap.mem_dom _).1 (by rw [ho']; rfl))
    · have hin := hext.dom_subset
      refine .closure hv (decide_eq_true hspec.1) ho (except_obj hspec.2.1 hobj') hlen ?_
      exact fun x hx => (hcopies x hx).extends (Heap.except_extends hin fun _ _ _ h => h)
  | @other v hv hh =>
    refine ⟨1, fun n hn w _ => ?_⟩
    obtain ⟨n, rfl⟩ := Nat.exists_eq_succ_of_ne_zero (Nat.ne_zero_of_lt hn)
    refine ⟨nil, w, ?_, .refl _, .other hv hh⟩
    simp only [heapp, Bool.or_eq_false_iff] at hh
    rw [deepCopy, hv, hh.1.1.1, hh.1.1.2, hh.1.2, hh.2]
    rfl

/-! ### What is copied is finite -/

theorem addCapture_obj {w : World} {new : Word} (v : Word) {p : ℕ} (hp : p ≠ pointer new) :
    (w.addCapture new v).heap.obj p = w.heap.obj p := by
  unfold World.addCapture
  split
  · simp [Heap.set, hp]
  · rfl

theorem copyCaptures_keep {copy : Word → World → Option (Word × World)} {new : Word}
    (hcopy : ∀ v w v' w', copy v w = some (v', w') → w.heap.Extends w'.heap) {w w' : World}
    (h : copyCaptures copy new us w = some w') {p : ℕ} {o : Obj} (hp : p ≠ pointer new)
    (ho : w.heap.obj p = some o) : w'.heap.obj p = some o := by
  induction us generalizing w with
  | nil =>
    cases h
    exact ho
  | cons u us ih =>
    obtain ⟨⟨u', w₁⟩, hu, h⟩ := Option.bind_eq_some_iff.1 h
    exact ih h ((addCapture_obj u' hp).trans (hcopy _ _ _ _ hu _ _ ho))

/-- Every capture is copied, in a heap that still has the objects of `H`. -/
theorem copyCaptures_each {copy : Word → World → Option (Word × World)} {new : Word}
    (hcopy : ∀ v w v' w', copy v w = some (v', w') → w.heap.Extends w'.heap)
    (hnew : pointer new ∉ H.dom) {w w' : World} (hH : H.Extends w.heap)
    (h : copyCaptures copy new us w = some w') :
    ∀ u ∈ us, ∃ w₁ r, H.Extends w₁.heap ∧ copy u w₁ = some r := by
  induction us generalizing w with
  | nil => nofun
  | cons u us ih =>
    obtain ⟨⟨u', w₁⟩, hu, h⟩ := Option.bind_eq_some_iff.1 h
    refine List.forall_mem_cons.2 ⟨⟨w, _, hH, hu⟩, ih (fun p o ho => ?_) h⟩
    refine (addCapture_obj u' ?_).trans (hcopy _ _ _ _ hu p o (hH p o ho))
    rintro rfl
    exact hnew ((H.mem_dom _).1 (by rw [ho]; rfl))

theorem extends_of_allocate {w w' : World} {o : Obj} {k : ℕ} (hk : k < 8)
    (h : w.allocate R o k = (v', w')) : w.heap.Extends w'.heap := by
  have hext := extends_allocate R w o hk
  rwa [h] at hext

/-- `deep_copy` changes no object. -/
theorem deepCopy_extends {w w' : World} (h : deepCopy R n v w = some (v', w')) :
    w.heap.Extends w'.heap := by
  induction n generalizing v w v' w' with
  | zero => cases h
  | succ n ih =>
    rw [deepCopy] at h
    split_ifs at h with himm hsym hstr hcons hclo
    · cases h
      exact .refl _
    · obtain ⟨str, -, hr⟩ := Option.map_eq_some_iff.1 h
      exact extends_of_allocate (by decide) hr
    · obtain ⟨str, -, hr⟩ := Option.map_eq_some_iff.1 h
      exact extends_of_allocate (by decide) hr
    · obtain ⟨⟨x', w₁⟩, hx, h⟩ := Option.bind_eq_some_iff.1 h
      obtain ⟨⟨y', w₂⟩, hy, hr⟩ := Option.bind_eq_some_iff.1 h
      exact (ih hx).trans ((ih hy).trans (extends_of_allocate (by decide) (Option.some.inj hr)))
    · split at h
      · obtain ⟨w₁, hcaptures, hr⟩ := Option.bind_eq_some_iff.1 h
        cases hr
        rename_i args f data ho
        have hk : closureTag < 8 := by decide
        obtain ⟨-, hp, -⟩ := allocate_spec R w (.closure args f []) hk
        intro p o hpo
        refine copyCaptures_keep (fun _ _ _ _ => ih) hcaptures ?_
          (extends_allocate R w _ hk p o hpo)
        rintro rfl
        exact hp ((w.heap.mem_dom _).1 (Option.isSome_iff_exists.2 ⟨o, hpo⟩))
      · cases h
    · cases h
      exact .refl _

/-- **Only finite data is copied.** -/
theorem copyable_of_deepCopy {H : HeapGraph} {w w' : World} (hv : H.Points v)
    (hH : H.toHeap.Extends w.heap) (h : deepCopy R n v w = some (v', w')) :
    Copyable H.toHeap v := by
  induction n generalizing v w v' w' with
  | zero => cases h
  | succ n ih =>
    rw [deepCopy] at h
    split_ifs at h with himm hsym hstr hcons hclo
    · exact .immediate himm
    · obtain ⟨o, ho, hfits⟩ := hv (by simp [heapp, hsym])
      rw [show tag v = symbolTag from of_decide_eq_true hsym] at hfits
      cases o with
      | text str => exact .text (.inl hsym) ho
      | _ => cases hfits
    · obtain ⟨o, ho, hfits⟩ := hv (by simp [heapp, hstr])
      rw [show tag v = stringTag from of_decide_eq_true hstr] at hfits
      cases o with
      | text str => exact .text (.inr hstr) ho
      | _ => cases hfits
    · obtain ⟨o, ho, hfits⟩ := hv (by simp [heapp, hcons])
      rw [show tag v = consTag from of_decide_eq_true hcons] at hfits
      cases o with
      | cons x y =>
        obtain ⟨⟨x', w₁⟩, hx, h⟩ := Option.bind_eq_some_iff.1 h
        obtain ⟨⟨y', w₂⟩, hy, hr⟩ := Option.bind_eq_some_iff.1 h
        have hext := deepCopy_extends hx
        have hcar : w.heap.car v = x := by simp [Heap.car, hcons, hH _ _ ho]
        have hcdr : w₁.heap.cdr v = y := by simp [Heap.cdr, hcons, hext _ _ (hH _ _ ho)]
        rw [hcar] at hx
        rw [hcdr] at hy
        exact .cons hcons ho (ih (H.points _ _ ho x (by simp [Obj.words, Obj.children])) hH hx)
          (ih (H.points _ _ ho y (by simp [Obj.words, Obj.children])) (hH.trans hext) hy)
      | _ => cases hfits
    · obtain ⟨o, ho, hfits⟩ := hv (by simp [heapp, hclo])
      rw [show tag v = closureTag from of_decide_eq_true hclo] at hfits
      cases o with
      | closure args f data =>
        rw [hH _ _ ho] at h
        obtain ⟨w₁, hcaptures, -⟩ := Option.bind_eq_some_iff.1 h
        have hk : closureTag < 8 := by decide
        obtain ⟨-, hp, -⟩ := allocate_spec R w (.closure args f []) hk
        have heach := copyCaptures_each (fun _ _ _ _ => deepCopy_extends)
          (fun hmem => hp (hH.dom_subset hmem)) (hH.trans (extends_allocate R w _ hk)) hcaptures
        refine .closure hclo ho fun u hu => ?_
        obtain ⟨w₂, ⟨u', w₃⟩, hH₂, hcopy⟩ := heach u hu
        exact ih (H.points _ _ ho u hu) hH₂ hcopy
      | _ => cases hfits
    · refine .other (Bool.eq_false_of_not_eq_true himm) ?_
      simp [heapp, hcons, hstr, hsym, hclo]

end Copies

end Lisp

end Bluejay
