import Bluejay.Lisp.Template

/-!
# What `merge2` changes

`merge2` puts a list behind another by an assignment to the last cell of the first one.

* `Lengthens H H'` : from `H` to `H'`, lists may have grown at their ends, and no cell has changed
  otherwise.
* `merge2_cases` : what `merge2` does with a proper list.
* `guarantees_evalTemplate` : what is sure of every evaluation of a template; it makes lists that
  begin as they should.
* `evalTemplate_of_safely` : a safe evaluation makes what the template denotes.
* `safely_of_evalTemplate` : an evaluation that has done so has been safe, as lists that have grown
  never shrink.
* `backquoteOk_iff` : both together.
-/

namespace Bluejay

namespace Lisp

/-! ### Heaps in which lists grow -/

/-- The `cdr`s from `v` on are cells, down to `nil` if there is an end. -/
def Fine (H : Heap) (v : Word) : Prop :=
  ∃ T : Word → Prop, T v ∧
    ∀ u, T u → u = nil ∨ consp u ∧ ∃ x y, H.obj (pointer u) = some (.cons x y) ∧ T y

/-- Cells stay as they are, but for ends of lists, behind which there may be more. -/
def Lengthens (H H' : Heap) : Prop :=
  ∀ p x y, H.obj p = some (.cons x y) →
    ∃ y', H'.obj p = some (.cons x y') ∧ (y' = y ∨ y = nil ∧ Fine H' y')

section Lengthens

variable {H H' H'' : Heap} {v w x y : Word} {p : ℕ}

theorem fine_nil (H : Heap) : Fine H nil := ⟨(· = nil), rfl, fun _ h => .inl h⟩

theorem Fine.cell (hv : consp v) (ho : H.obj (pointer v) = some (.cons x y)) (hy : Fine H y) :
    Fine H v := by
  obtain ⟨T, hT, hstep⟩ := hy
  refine ⟨fun u => u = v ∨ T u, .inl rfl, ?_⟩
  rintro u (rfl | hu)
  · exact .inr ⟨hv, x, y, ho, .inr hT⟩
  · exact (hstep u hu).imp_right fun ⟨hc, x, y, ho, hy⟩ => ⟨hc, x, y, ho, .inr hy⟩

theorem Fine.lengthens (h : Fine H v) (hH : Lengthens H H') : Fine H' v := by
  obtain ⟨T, hT, hstep⟩ := h
  refine ⟨fun u => T u ∨ Fine H' u, .inl hT, ?_⟩
  rintro u (hu | ⟨T', hu, hstep'⟩)
  · rcases hstep u hu with rfl | ⟨hc, x, y, ho, hy⟩
    · exact .inl rfl
    · obtain ⟨y', ho', rfl | ⟨rfl, hfine⟩⟩ := hH _ x y ho
      · exact .inr ⟨hc, x, y', ho', .inl hy⟩
      · exact .inr ⟨hc, x, y', ho', .inr hfine⟩
  · exact (hstep' u hu).imp_right fun ⟨hc, x, y, ho, hy⟩ => ⟨hc, x, y, ho, .inr ⟨T', hy, hstep'⟩⟩

theorem Fine.listp_ne (h : Fine H v) : H.listp v ≠ some false := by
  have hcells : ∀ n v cs e, Fine H v → H.cells n v = some (cs, e) → e = nil := by
    intro n
    induction n with
    | zero => exact fun v cs e _ hc => by cases hc
    | succ n ih =>
      rintro v cs e ⟨T, hT, hstep⟩ hc
      rw [Heap.cells] at hc
      rcases hstep v hT with rfl | ⟨hv, x, y, ho, hy⟩
      · rw [if_neg (by decide)] at hc
        cases hc
        rfl
      · rw [if_pos hv, Heap.cdr, if_pos hv, ho] at hc
        obtain ⟨r, hr, he⟩ := Option.map_eq_some_iff.1 hc
        cases he
        exact ih y _ _ ⟨T, hy, hstep⟩ hr
  intro hl
  obtain ⟨r, hr, he⟩ := Option.map_eq_some_iff.1 hl
  rw [hcells _ _ _ _ h hr] at he
  exact absurd he (by decide)

theorem KeepsConses.lengthens (h : KeepsConses H H') : Lengthens H H' :=
  fun p x y ho => ⟨y, h p x y ho, .inl rfl⟩

theorem Lengthens.refl (H : Heap) : Lengthens H H := fun _ _ y ho => ⟨y, ho, .inl rfl⟩

theorem Lengthens.trans (h : Lengthens H H') (h' : Lengthens H' H'') : Lengthens H H'' := by
  intro p x y ho
  obtain ⟨y', ho', hy'⟩ := h p x y ho
  obtain ⟨y'', ho'', hy''⟩ := h' p x y' ho'
  refine ⟨y'', ho'', ?_⟩
  rcases hy' with rfl | ⟨rfl, hfine⟩
  · exact hy''
  · right
    refine ⟨rfl, ?_⟩
    rcases hy'' with rfl | ⟨-, hfine''⟩
    · exact hfine.lengthens h'
    · exact hfine''

/-- A cell that ends a list later on has always ended one. -/
theorem Lengthens.end_of (h : Lengthens H H') (ho : H.obj p = some (.cons x y))
    (hn : ∃ x', H'.obj p = some (.cons x' nil)) : y = nil := by
  obtain ⟨y', ho', hy⟩ := h p x y ho
  obtain ⟨x', hn⟩ := hn
  obtain rfl : y' = nil := by
    rw [ho'] at hn
    cases hn
    rfl
  exact hy.elim Eq.symm And.left

end Lengthens

/-! ### Data in heaps -/

section Data

variable {H H' : Heap} {fin : Word → Prop} {p : ℕ}

theorem spellsAll_cons {v x y : Word} {d : Datum} {ds : List Datum} (hv : consp v)
    (ho : H.obj (pointer v) = some (.cons x y)) :
    SpellsAll fin H v (d :: ds) ↔ Spells fin H x d ∧ SpellsAll fin H y ds := by
  constructor
  · rintro ⟨-, x', y', ho', hd, hds⟩
    rw [ho] at ho'
    cases ho'
    exact ⟨hd, hds⟩
  · exact fun ⟨hd, hds⟩ => ⟨hv, x, y, ho, hd, hds⟩

mutual

/-- What has been built stays, if its cells do. -/
theorem Spells.congr : ∀ {d : Datum} {v : Word}, Spells fin H v d →
    (∀ p x y, OnSpine H p v d → H.obj p = some (.cons x y) → H'.obj p = some (.cons x y)) →
    Spells fin H' v d
  | .atom _, _, h, _ => h
  | .list _, _, h, hH => SpellsAll.congr h hH

theorem SpellsAll.congr : ∀ {ds : List Datum} {v : Word}, SpellsAll fin H v ds →
    (∀ p x y, OnSpineAll H p v ds → H.obj p = some (.cons x y) → H'.obj p = some (.cons x y)) →
    SpellsAll fin H' v ds
  | [], _, h, _ => h
  | _ :: _, _, ⟨hv, x, y, ho, hd, hds⟩, hH => ⟨hv, x, y, hH _ x y (.inl rfl) ho,
    hd.congr fun p a b hp => hH p a b (.inr ⟨x, y, ho, .inl hp⟩),
    hds.congr fun p a b hp => hH p a b (.inr ⟨x, y, ho, .inr hp⟩)⟩

end

/-- There are lists that begin as the datum says. -/
abbrev Begins (H : Heap) : Word → Datum → Prop := Spells (fun _ => True) H

abbrev BeginsAll (H : Heap) : Word → List Datum → Prop := SpellsAll (fun _ => True) H

mutual

/-- What lists begin with, they begin with when they grow. -/
theorem begins_lengthens (hH : Lengthens H H') : ∀ {d : Datum} {v : Word}, Begins H v d →
    Begins H' v d
  | .atom _, _, h => h
  | .list _, _, h => beginsAll_lengthens hH h

theorem beginsAll_lengthens (hH : Lengthens H H') : ∀ {ds : List Datum} {v : Word},
    BeginsAll H v ds → BeginsAll H' v ds
  | [], _, _ => trivial
  | d :: ds, v, ⟨hv, x, y, ho, hd, hds⟩ => by
    obtain ⟨y', ho', rfl | ⟨rfl, -⟩⟩ := hH _ x y ho
    · exact ⟨hv, x, y', ho', begins_lengthens hH hd, beginsAll_lengthens hH hds⟩
    · -- nothing is said about what is behind the end
      cases ds with
      | nil => exact ⟨hv, x, y', ho', begins_lengthens hH hd, trivial⟩
      | cons d ds => exact absurd hds.1 (by decide)

end

mutual

/-- Lists that have not grown beyond the datum have always been the datum. -/
theorem denotes_of_lengthens (hH : Lengthens H H') : ∀ {d : Datum} {v : Word}, Begins H v d →
    Denotes H' v d → Denotes H v d
  | .atom _, _, h, _ => h
  | .list _, _, h, h' => denotesAll_of_lengthens hH h h'

theorem denotesAll_of_lengthens (hH : Lengthens H H') : ∀ {ds : List Datum} {v : Word},
    BeginsAll H v ds → DenotesAll H' v ds → DenotesAll H v ds
  | [], _, _, h' => h'
  | d :: ds, v, ⟨hv, x, y, ho, hd, hds⟩, ⟨_, x', y', ho', hd', hds'⟩ => by
    obtain ⟨y₁, ho₁, hy⟩ := hH _ x y ho
    rw [ho₁] at ho'
    cases ho'
    refine ⟨hv, x, y, ho, denotes_of_lengthens hH hd hd', ?_⟩
    rcases hy with rfl | ⟨rfl, -⟩
    · exact denotesAll_of_lengthens hH hds hds'
    · cases ds with
      | nil => rfl
      | cons d ds => exact absurd hds.1 (by decide)

end

mutual

/-- While the value is the datum, the ends of its lists are ends. -/
theorem ends_of_denotes (hH : Lengthens H H') : ∀ {d : Datum} {v : Word}, Denotes H v d →
    Denotes H' v d → OnSpine H p v d → (∃ x, H.obj p = some (.cons x nil)) →
    ∃ x, H'.obj p = some (.cons x nil)
  | .atom _, _, _, _, hp, _ => hp.elim
  | .list _, _, h, h', hp, hn => ends_of_denotesAll hH h h' hp hn

theorem ends_of_denotesAll (hH : Lengthens H H') : ∀ {ds : List Datum} {v : Word},
    DenotesAll H v ds → DenotesAll H' v ds → OnSpineAll H p v ds →
    (∃ x, H.obj p = some (.cons x nil)) → ∃ x, H'.obj p = some (.cons x nil)
  | [], _, _, _, hp, _ => hp.elim
  | d :: ds, v, ⟨_, x, y, ho, hd, hds⟩, ⟨_, x', y', ho', hd', hds'⟩, hp, hn => by
    obtain ⟨y₁, ho₁, hy⟩ := hH _ x y ho
    rw [ho₁] at ho'
    cases ho'
    rcases hp with rfl | ⟨x₁, y₁, ho₂, hp⟩
    · -- the cell at `p` is the first one
      obtain ⟨x₁, hn⟩ := hn
      rw [ho] at hn
      cases hn
      cases ds with
      | nil => exact ⟨x, by rw [ho₁, show y' = nil from hds']⟩
      | cons d ds => exact absurd hds.1 (by decide)
    · rw [ho] at ho₂
      cases ho₂
      rcases hp with hp | hp
      · exact ends_of_denotes hH hd hd' hp hn
      · rcases hy with rfl | ⟨rfl, -⟩
        · exact ends_of_denotesAll hH hds hds' hp hn
        · cases ds with
          | nil => exact hp.elim
          | cons d ds => exact absurd hds.1 (by decide)

end

end Data

/-! ### What `merge2` does -/

section Merge

variable {H : Heap} {fin : Word → Prop} {p n : ℕ} {u v x y tail : Word} {us : List Word}

theorem setCdr_obj (ho : H.obj p = some (.cons x y)) (q : ℕ) :
    (H.setCdr p tail).obj q = if q = p then some (.cons x tail) else H.obj q := by
  simp only [Heap.setCdr, ho, Heap.set, Function.update_apply]

/-- More behind the end of a list. -/
theorem lengthens_setCdr (ho : H.obj p = some (.cons x nil)) (hfine : Fine H tail) :
    Lengthens H (H.setCdr p tail) := by
  obtain ⟨T, hT, hstep⟩ := hfine
  have hfine' : Fine (H.setCdr p tail) tail := by
    refine ⟨T, hT, fun u hu => (hstep u hu).imp_right ?_⟩
    rintro ⟨hc, a, b, hab, hb⟩
    by_cases hp : pointer u = p
    · exact ⟨hc, x, tail, by rw [setCdr_obj ho, if_pos hp], hT⟩
    · exact ⟨hc, a, b, by rw [setCdr_obj ho, if_neg hp, hab], hb⟩
  intro q a b hab
  by_cases hq : q = p
  · subst hq
    rw [ho] at hab
    cases hab
    exact ⟨tail, by rw [setCdr_obj ho, if_pos rfl], .inr ⟨rfl, hfine'⟩⟩
  · exact ⟨b, by rw [setCdr_obj ho, if_neg hq, hab], .inl rfl⟩

/-- The loop of `nilptr` finds the last cell; what is put behind it is behind the list. -/
theorem nilptrLoop_of_list (h : ListOf H v (u :: us)) (hn : us.length < n) :
    ∃ p x, nilptrLoop H n v = some p ∧ H.obj p = some (.cons x nil) ∧
      ∀ fin tail ds, SpellsAll fin (H.setCdr p tail) v ((u :: us).map .atom ++ ds) ↔
        SpellsAll fin (H.setCdr p tail) tail ds := by
  obtain ⟨n, rfl⟩ := Nat.exists_eq_succ_of_ne_zero (Nat.ne_zero_of_lt hn)
  induction us generalizing u v n with
  | nil =>
    obtain ⟨hv, y, ho, rfl⟩ := h
    have hcdr : H.cdr v = nil := by simp [Heap.cdr, hv, ho]
    refine ⟨pointer v, u, by simp [nilptrLoop, hcdr, nilp], ho, fun fin tail ds => ?_⟩
    refine (spellsAll_cons hv (x := u) (y := tail) ?_).trans (and_iff_right rfl)
    rw [setCdr_obj ho, if_pos rfl]
  | cons u' us ih =>
    obtain ⟨hv, y, ho, hy⟩ := h
    have hcdr : H.cdr v = y := by simp [Heap.cdr, hv, ho]
    have hynil : y ≠ nil := by
      rintro rfl
      exact absurd hy.1 (by decide)
    obtain ⟨n, rfl⟩ := Nat.exists_eq_succ_of_ne_zero (Nat.ne_zero_of_lt (Nat.lt_of_succ_lt_succ hn))
    obtain ⟨p, x, hp, hop, hspells⟩ := ih hy n (Nat.lt_of_succ_lt_succ hn)
    refine ⟨p, x, ?_, hop, fun fin tail ds => ?_⟩
    · rw [nilptrLoop, hcdr, if_neg (by simpa [nilp] using hynil), hp]
    · have hne : pointer v ≠ p := by
        rintro rfl
        rw [ho] at hop
        cases hop
        exact hynil rfl
      refine (spellsAll_cons hv (x := u) (y := y) ?_).trans
        ((and_iff_right rfl).trans (hspells fin tail ds))
      rw [setCdr_obj hop, if_neg hne, ho]

theorem fine_of_list (h : ListOf H v us) : Fine H v := by
  induction us generalizing v with
  | nil => exact (show v = nil from h) ▸ fine_nil H
  | cons u us ih =>
    obtain ⟨hv, y, ho, hy⟩ := h
    exact (ih hy).cell hv ho

/-- What `merge2` does with a proper list, and anything built so far behind it. -/
structure Merges (H : Heap) (v tail : Word) (us : List Word) (w : Word) (H' : Heap) : Prop where
  iff : ∀ Q, merge2 v tail Q H ↔ Q w H'
  lengthens : Lengthens H H'
  spells : ∀ fin ds, SpellsAll fin H' w (us.map .atom ++ ds) ↔ SpellsAll fin H' tail ds
  fine : Fine H' w
  /-- Nothing but the last cell of the first list is changed. -/
  obj : ∀ q, H'.obj q = H.obj q ∨ nilptr H v = some (.cdr q)
  last : ∀ p, nilptr H v = some (.cdr p) → (∃ x, H.obj p = some (.cons x nil)) ∧
    ∃ x, H'.obj p = some (.cons x tail)

theorem merge2_of_listp (h : ListOf H v us) (hfine : Fine H tail)
    (hl : H.listp tail = some true) : ∃ w H', Merges H v tail us w H' := by
  have hmerge : ∀ Q, merge2 v tail Q H ↔ assignNilptr v tail Q H := by
    intro Q
    simp only [merge2, Outcome.bind_apply, Outcome.get, ListOf.listp h, hl]
  cases us with
  | nil =>
    have hlistp := ListOf.listp h
    obtain rfl : v = nil := h
    have hptr : nilptr H nil = some .variable := by
      simp [nilptr, hlistp, nilp]
    refine ⟨tail, H, fun Q => (hmerge Q).trans ?_, .refl H, fun fin ds => Iff.rfl, hfine,
      fun q => .inl rfl, fun p hp => ?_⟩
    · simp only [assignNilptr, Outcome.bind_apply, Outcome.get, hptr]
      rfl
    · rw [hptr] at hp
      cases hp
  | cons u us =>
    have hnil : ¬ nilp v = true := by simp [ListOf.nilp_iff h]
    have hlen : us.length < H.dom.card + 1 :=
      Nat.lt_succ_of_le (Nat.le_of_succ_le (ListOf.length_le_card h))
    obtain ⟨p, x, hp, hop, hspells⟩ := nilptrLoop_of_list h hlen
    have hptr : nilptr H v = some (.cdr p) := by
      simp [nilptr, ListOf.listp h, hnil, hp]
    have hev : Lengthens H (H.setCdr p tail) := lengthens_setCdr hop hfine
    refine ⟨v, H.setCdr p tail, fun Q => (hmerge Q).trans ?_, hev,
      fun fin ds => hspells fin tail ds, (fine_of_list h).lengthens hev, fun q => ?_,
      fun q hq => ?_⟩
    · simp only [assignNilptr, Outcome.bind_apply, Outcome.get, hptr]
      rfl
    · by_cases hq : q = p
      · exact .inr (hq ▸ hptr)
      · exact .inl (by rw [setCdr_obj hop, if_neg hq])
    · rw [hptr] at hq
      cases hq
      exact ⟨⟨x, hop⟩, x, by rw [setCdr_obj hop, if_pos rfl]⟩

theorem merge2_cases {Q : Word → Heap → Prop} (h : ListOf H v us) (hfine : Fine H tail)
    (hm : merge2 v tail Q H) : ∃ w H', Merges H v tail us w H' := by
  refine merge2_of_listp h hfine ?_
  cases hl : H.listp tail with
  | none =>
    -- `listp(back)` does not end
    simp only [merge2, Outcome.bind_apply, Outcome.get, ListOf.listp h, hl] at hm
    exact hm.elim
  | some l =>
    cases l with
    | false => exact absurd hl hfine.listp_ne
    | true => rfl

/-- If nothing is put behind a list, nothing changes. -/
theorem Merges.obj_of_nil {w : Word} {H' : Heap} (h : Merges H v nil us w H') (q : ℕ) :
    H'.obj q = H.obj q := by
  rcases h.obj q with hq | hq
  · exact hq
  · obtain ⟨⟨x, hx⟩, x', hx'⟩ := h.last q hq
    obtain ⟨y', ho, -⟩ := h.lengthens q x nil hx
    rw [hx'] at ho
    cases ho
    rw [hx, hx']

end Merge

/-! ### What is sure of every evaluation -/

section Evaluation

variable {X : Word → Outcome Heap Word} {H H₁ H₂ : Heap} {v tail : Word} {d : Datum}
  {ds : List Datum}

theorem feasible_cell (car cdr : Word) : (cell car cdr).Feasible := by
  intro H h
  obtain ⟨p, hp, hp8⟩ := H.exists_fresh
  exact h _ _ ⟨p, hp, hp8, rfl, rfl⟩

theorem Heap.Extends.keepsConses (h : H.Extends H₁) : KeepsConses H H₁ :=
  fun p _ _ ho => h p _ ho

/-- The evaluation so far, whether or not lists have been changed that should not be. -/
structure Built (H : Heap) (ds : List Datum) (v : Word) (H' : Heap) : Prop where
  lengthens : Lengthens H H'
  begins : BeginsAll H' v ds
  fine : Fine H' v

theorem built_cell (h : Built H ds tail H₁) (hev : Lengthens H₁ H₂) (hd : Begins H₂ v d) :
    (cell v tail).Guarantees fun H₂' w H₃ => H₂' = H₂ → Built H (d :: ds) w H₃ ∧
      KeepsConses H₂ H₃ ∧ consp w ∧ H₃.obj (pointer w) = some (.cons v tail) := by
  refine (guarantees_cell v tail).mono ?_
  rintro H₂ w H₃ ⟨hext, hw, ho⟩ rfl
  have hkeep := hext.keepsConses
  have hev' := hev.trans hkeep.lengthens
  have hds := beginsAll_lengthens hev' h.begins
  refine ⟨⟨h.lengthens.trans hev', ⟨hw, v, tail, ho, begins_lengthens hkeep.lengthens hd, hds⟩,
    (h.fine.lengthens hev').cell hw ho⟩, hkeep, hw, ho⟩

theorem built_merge {us : List Word} {w : Word} {H₃ : Heap} (h : Built H ds tail H₁)
    (hkeep : KeepsConses H₁ H₂) (hm : Merges H₂ v tail us w H₃) :
    Built H (us.map .atom ++ ds) w H₃ := by
  have hev := hkeep.lengthens.trans hm.lengthens
  exact ⟨h.lengthens.trans hev, (hm.spells _ ds).2 (beginsAll_lengthens hev h.begins), hm.fine⟩

mutual

theorem guarantees_evalTemplate
    (hX : ∀ e, (X e).Guarantees fun H _ H' => KeepsConses H H') : ∀ t : Template,
    (evalTemplate X t).Guarantees fun H r H' => Lengthens H H' ∧ Begins H' r.2 r.1
  | .const _ => Outcome.guarantees_pure fun H => ⟨.refl H, rfl⟩
  | .unquote e => (hX e).bind fun _ => Outcome.guarantees_pure fun _ _ h => ⟨h.lengthens, rfl⟩
  | .list is => (guarantees_evalItems hX is).bind fun _ =>
    Outcome.guarantees_pure fun _ _ h => ⟨h.lengthens, h.begins⟩

theorem guarantees_evalItems
    (hX : ∀ e, (X e).Guarantees fun H _ H' => KeepsConses H H') : ∀ is : Items,
    (evalItems X is).Guarantees fun H r H' => Built H r.1 r.2 H'
  | .nil => Outcome.guarantees_pure fun H => ⟨.refl H, trivial, fine_nil H⟩
  | .cons t is => by
    intro Q Q' H hQ h
    refine (guarantees_evalItems hX is).weaken h fun r H₁ hr h => ?_
    refine (guarantees_evalTemplate hX t).weaken h fun r' H₂ hr' h => ?_
    exact (built_cell hr hr'.1 hr'.2).weaken h fun w H₃ hw h => hQ _ _ (hw rfl).1 h
  | .splice e is => by
    intro Q Q' H hQ h
    refine (guarantees_evalItems hX is).weaken h fun r H₁ hr h => ?_
    refine (hX e).weaken h fun v H₂ hkeep h => ?_
    obtain ⟨us, hus, h⟩ := h
    obtain ⟨w, H₃, hm⟩ := merge2_cases hus (hr.fine.lengthens hkeep.lengthens) h
    exact ⟨us, hus, (hm.iff _).2 (hQ _ _ (built_merge hr hkeep hm) ((hm.iff _).1 h))⟩

end

mutual

theorem feasible_evalTemplate (hX : ∀ e, (X e).Guarantees fun H _ H' => KeepsConses H H')
    (hf : ∀ e, (X e).Feasible) : ∀ t : Template, (evalTemplate X t).Feasible
  | .const _ => fun _ h => h
  | .unquote e => hf e
  | .list is => feasible_evalItems hX hf is

theorem feasible_evalItems (hX : ∀ e, (X e).Guarantees fun H _ H' => KeepsConses H H')
    (hf : ∀ e, (X e).Feasible) : ∀ is : Items, (evalItems X is).Feasible
  | .nil => fun _ h => h
  | .cons t is => by
    intro H h
    obtain ⟨r, H₁, -, h⟩ := (guarantees_evalItems hX is).exists_of (feasible_evalItems hX hf is) h
    obtain ⟨r', H₂, -, h⟩ := (guarantees_evalTemplate hX t).exists_of
      (feasible_evalTemplate hX hf t) h
    exact feasible_cell _ _ _ h
  | .splice e is => by
    intro H h
    obtain ⟨r, H₁, hr, h⟩ := (guarantees_evalItems hX is).exists_of (feasible_evalItems hX hf is) h
    obtain ⟨v, H₂, hkeep, us, hus, h⟩ := (hX e).exists_of (hf e) h
    obtain ⟨w, H₃, hm⟩ := merge2_cases hus (hr.fine.lengthens hkeep.lengthens) h
    exact (hm.iff _).1 h

end

end Evaluation

/-! ### Safe evaluation -/

/-- The cells `S` stay as they are. -/
def KeepsCells (S : ℕ → Prop) (H H' : Heap) : Prop :=
  ∀ p x y, S p → H.obj p = some (.cons x y) → H'.obj p = some (.cons x y)

section Safely

variable {X : Word → Outcome Heap Word} {H H₁ H₂ H₃ : Heap} {S : ℕ → Prop}

theorem KeepsCells.trans (h : KeepsCells S H H₁) (h' : KeepsCells S H₁ H₂) : KeepsCells S H H₂ :=
  fun p x y hp ho => h' p x y hp (h p x y hp ho)

theorem KeepsConses.keeps (h : KeepsConses H H₁) : KeepsCells S H H₁ := fun p x y _ ho => h p x y ho

/-- A list that may be spliced is spliced without harm. -/
theorem keeps_merge {v tail w : Word} {us : List Word} {ds : List Datum}
    (hm : Merges H v tail us w H₁) (hds : DenotesAll H tail ds) (hmay : MaySplice S H v tail ds) :
    KeepsCells S H H₁ ∧ DenotesAll H₁ w (us.map .atom ++ ds) := by
  have hkeep : KeepsCells (fun p => S p ∨ OnSpineAll H p tail ds) H H₁ := by
    intro p x y hp ho
    rcases hm.obj p with hobj | hlast
    · rw [hobj, ho]
    · rcases hmay with rfl | hmay
      · obtain rfl : tail = nil := hds
        rw [hm.obj_of_nil, ho]
      · obtain ⟨hS, hspine⟩ := hmay p hlast
        exact (hp.elim hS hspine).elim
  refine ⟨fun p x y hp => hkeep p x y (.inl hp), (hm.spells _ ds).2 ?_⟩
  exact hds.congr fun p x y hp => hkeep p x y (.inr hp)

mutual

/-- A safe evaluation changes no cell of `S`, and makes what the template denotes. -/
theorem evalTemplate_of_safely (hX : ∀ e, (X e).Guarantees fun H _ H' => KeepsConses H H') :
    ∀ (t : Template) {S : ℕ → Prop} {Q : Datum × Word → Heap → Prop} {H : Heap},
    evalSafely X S t Q H → evalTemplate X t
      (fun r H' => Q r H' ∧ KeepsCells S H H' ∧ Denotes H' r.2 r.1) H
  | .const _, _, _, _, h => ⟨h, fun _ _ _ _ ho => ho, rfl⟩
  | .unquote e, _, _, _, h => (hX e).weaken h fun _ _ hkeep h => ⟨h, hkeep.keeps, rfl⟩
  | .list is, _, _, _, h => evalItems_of_safely hX is h

theorem evalItems_of_safely (hX : ∀ e, (X e).Guarantees fun H _ H' => KeepsConses H H') :
    ∀ (is : Items) {S : ℕ → Prop} {Q : List Datum × Word → Heap → Prop} {H : Heap},
    evalItemsSafely X S is Q H → evalItems X is
      (fun r H' => Q r H' ∧ KeepsCells S H H' ∧ DenotesAll H' r.2 r.1) H
  | .nil, _, _, _, h => ⟨h, fun _ _ _ _ ho => ho, rfl⟩
  | .cons t is, S, Q, H, h => by
    refine (guarantees_evalItems hX is).weaken (evalItems_of_safely hX is h) ?_
    rintro r H₁ hr ⟨h, hkeep₁, hds⟩
    refine (guarantees_evalTemplate hX t).weaken (evalTemplate_of_safely hX t h) ?_
    rintro r' H₂ hr' ⟨h, hkeep₂, hd⟩
    refine (built_cell hr hr'.1 hr'.2).weaken h fun w H₃ hw h => ?_
    obtain ⟨-, hkeep₃, hwc, ho⟩ := hw rfl
    have hkeepS : KeepsCells S H₁ H₂ := fun p x y hp => hkeep₂ p x y (.inl hp)
    refine ⟨h, (hkeep₁.trans hkeepS).trans hkeep₃.keeps, hwc, r'.2, r.2, ho, ?_, ?_⟩
    · exact hd.congr fun p x y _ => hkeep₃ p x y
    · -- the list behind has not changed while the element was evaluated
      have hds₂ := hds.congr fun p x y hp => hkeep₂ p x y (.inr hp)
      exact hds₂.congr fun p x y _ => hkeep₃ p x y
  | .splice e is, S, Q, H, h => by
    refine (guarantees_evalItems hX is).weaken (evalItems_of_safely hX is h) ?_
    rintro r H₁ hr ⟨h, hkeep₁, hds⟩
    refine (hX e).weaken h fun v H₂ hkeep₂ h => ?_
    obtain ⟨us, hus, hmay, h⟩ := h
    obtain ⟨w, H₃, hm⟩ := merge2_cases hus (hr.fine.lengthens hkeep₂.lengthens) h
    have hds₂ := hds.congr fun p x y _ => hkeep₂ p x y
    obtain ⟨hkeep₃, hd⟩ := keeps_merge hm hds₂ hmay
    refine ⟨us, hus, (hm.iff _).2 ⟨(hm.iff _).1 h, ?_, hd⟩⟩
    exact (hkeep₁.trans hkeep₂.keeps).trans hkeep₃

end

/-- The cells of `S` that end a list do so afterwards. -/
def Ends (S : ℕ → Prop) (H H' : Heap) : Prop :=
  ∀ p, S p → (∃ x, H.obj p = some (.cons x nil)) → ∃ x, H'.obj p = some (.cons x nil)

theorem Ends.before (h : Ends S H H₂) (hev : Lengthens H H₁) (hev' : Lengthens H₁ H₂) :
    Ends S H H₁ := by
  rintro p hp ⟨x, ho⟩
  obtain ⟨y, ho₁, -⟩ := hev p x nil ho
  obtain rfl := hev'.end_of ho₁ (h p hp ⟨x, ho⟩)
  exact ⟨x, ho₁⟩

theorem Ends.after (h : Ends S H H₂) (hS : ∀ p, S p → ∃ x y, H.obj p = some (.cons x y))
    (hev : Lengthens H H₁) : Ends S H₁ H₂ := by
  rintro p hp hn
  obtain ⟨x, y, ho⟩ := hS p hp
  obtain rfl := hev.end_of ho hn
  exact h p hp ⟨x, ho⟩

mutual

/-- The lists of a datum consist of cells. -/
theorem exists_of_onSpine {p : ℕ} : ∀ {d : Datum} {v : Word}, OnSpine H p v d → Denotes H v d →
    ∃ x y, H.obj p = some (.cons x y)
  | .atom _, _, h, _ => h.elim
  | .list _, _, h, hd => exists_of_onSpineAll h hd

theorem exists_of_onSpineAll {p : ℕ} : ∀ {ds : List Datum} {v : Word}, OnSpineAll H p v ds →
    DenotesAll H v ds → ∃ x y, H.obj p = some (.cons x y)
  | [], _, h, _ => h.elim
  | _ :: _, _, h, ⟨_, x, y, ho, hd, hds⟩ => by
    rcases h with rfl | ⟨x', y', ho', h⟩
    · exact ⟨x, y, ho⟩
    · rw [ho] at ho'
      cases ho'
      exact h.elim (fun h => exists_of_onSpine h hd) fun h => exists_of_onSpineAll h hds

end

/-- A list has been spliced without harm only if it might be. -/
theorem maySplice_of_denotes {v tail w : Word} {us : List Word} {ds : List Datum}
    (hm : Merges H v tail us w H₁) (hds : DenotesAll H tail ds) (hends : Ends S H H₁)
    (hds₁ : DenotesAll H₁ tail ds) : MaySplice S H v tail ds := by
  refine or_iff_not_imp_left.2 fun hne p hp => ?_
  obtain ⟨hn, x, ho⟩ := hm.last p hp
  -- the cell at `p` does not end a list any more
  have htail : tail ≠ nil := by
    rintro rfl
    cases ds with
    | nil => exact hne rfl
    | cons d ds => exact absurd hds.1 (by decide)
  have hnot : ¬ ∃ x, H₁.obj p = some (.cons x nil) := by
    rintro ⟨x', ho'⟩
    rw [ho] at ho'
    cases ho'
    exact htail rfl
  exact ⟨fun hS => hnot (hends p hS hn),
    fun hspine => hnot (ends_of_denotesAll hm.lengthens hds hds₁ hspine hn)⟩

mutual

/-- If the value is what the template denotes, and the ends of lists in `S` are still ends, the
evaluation has been safe. -/
theorem safely_of_evalTemplate (hX : ∀ e, (X e).Guarantees fun H _ H' => KeepsConses H H')
    (hf : ∀ e, (X e).Feasible) : ∀ (t : Template) {S : ℕ → Prop}
    {Q Q' : Datum × Word → Heap → Prop} {H : Heap},
    (∀ p, S p → ∃ x y, H.obj p = some (.cons x y)) → evalTemplate X t Q H →
    (∀ r H', Lengthens H H' → Begins H' r.2 r.1 → Q r H' → Ends S H H' ∧ Denotes H' r.2 r.1) →
    (∀ r H', Lengthens H H' → Begins H' r.2 r.1 → Denotes H' r.2 r.1 → Q r H' → Q' r H') →
    evalSafely X S t Q' H
  | .const _, _, _, _, _, _, h, _, hQ' => hQ' _ _ (.refl _) rfl rfl h
  | .unquote e, _, _, _, _, _, h, _, hQ' =>
    (hX e).weaken h fun _ _ hkeep h => hQ' _ _ hkeep.lengthens rfl rfl h
  | .list is, _, _, _, _, hS, h, hQ, hQ' => safely_of_evalItems hX hf is hS h
    (fun r H' hr h => hQ (.list r.1, r.2) H' hr.lengthens hr.begins h)
    fun r H' hr hd h => hQ' (.list r.1, r.2) H' hr.lengthens hr.begins hd h

theorem safely_of_evalItems (hX : ∀ e, (X e).Guarantees fun H _ H' => KeepsConses H H')
    (hf : ∀ e, (X e).Feasible) : ∀ (is : Items) {S : ℕ → Prop}
    {Q Q' : List Datum × Word → Heap → Prop} {H : Heap},
    (∀ p, S p → ∃ x y, H.obj p = some (.cons x y)) → evalItems X is Q H →
    (∀ r H', Built H r.1 r.2 H' → Q r H' → Ends S H H' ∧ DenotesAll H' r.2 r.1) →
    (∀ r H', Built H r.1 r.2 H' → DenotesAll H' r.2 r.1 → Q r H' → Q' r H') →
    evalItemsSafely X S is Q' H
  | .nil, _, _, _, _, _, h, _, hQ' => hQ' _ _ ⟨.refl _, trivial, fine_nil _⟩ rfl h
  | .cons t is, S, Q, Q', H, hS, h, hQ, hQ' => by
    refine safely_of_evalItems hX hf is hS h ?_ ?_
    · intro r H₁ hr h
      obtain ⟨r', H₂, hr', h⟩ := (guarantees_evalTemplate hX t).exists_of
        (feasible_evalTemplate hX hf t) h
      obtain ⟨w, H₃, hw, h⟩ := (built_cell hr hr'.1 hr'.2).exists_of (feasible_cell _ _) h
      obtain ⟨hbuilt, hkeep, hwc, ho⟩ := hw rfl
      obtain ⟨hends, hd⟩ := hQ _ _ hbuilt h
      have hev := hr'.1.trans hkeep.lengthens
      exact ⟨hends.before hr.lengthens hev,
        denotesAll_of_lengthens hev hr.begins ((spellsAll_cons hwc ho).1 hd).2⟩
    · intro r H₁ hr hds h
      refine safely_of_evalTemplate hX hf t ?_ h ?_ ?_
      · rintro p (hp | hp)
        · obtain ⟨x, y, ho⟩ := hS p hp
          obtain ⟨y', ho', -⟩ := hr.lengthens p x y ho
          exact ⟨x, y', ho'⟩
        · exact exists_of_onSpineAll hp hds
      · intro r' H₂ hev₂ hbegins h
        obtain ⟨w, H₃, hw, h⟩ := (built_cell hr hev₂ hbegins).exists_of (feasible_cell _ _) h
        obtain ⟨hbuilt, hkeep, hwc, ho⟩ := hw rfl
        obtain ⟨hends, hd⟩ := hQ _ _ hbuilt h
        obtain ⟨hd₃, hds₃⟩ := (spellsAll_cons hwc ho).1 hd
        have hends' : Ends (fun p => S p ∨ OnSpineAll H₁ p r.2 r.1) H₁ H₃ := fun p hp hn =>
          hp.elim (fun hp => hends.after hS hr.lengthens p hp hn) fun hp =>
            ends_of_denotesAll (hev₂.trans hkeep.lengthens) hds hds₃ hp hn
        exact ⟨hends'.before hev₂ hkeep.lengthens, denotes_of_lengthens hkeep.lengthens hbegins hd₃⟩
      · intro r' H₂ hev₂ hbegins _ h
        refine (built_cell hr hev₂ hbegins).weaken h fun w H₃ hw h => ?_
        obtain ⟨hbuilt, -⟩ := hw rfl
        exact hQ' _ _ hbuilt (hQ _ _ hbuilt h).2 h
  | .splice e is, S, Q, Q', H, hS, h, hQ, hQ' => by
    refine safely_of_evalItems hX hf is hS h ?_ ?_
    · -- what is so in the end has been so before the list was spliced
      intro r H₁ hr h
      obtain ⟨v, H₂, hkeep, us, hus, h⟩ := (hX e).exists_of (hf e) h
      obtain ⟨w, H₃, hm⟩ := merge2_cases hus (hr.fine.lengthens hkeep.lengthens) h
      obtain ⟨hends, hd⟩ := hQ _ _ (built_merge hr hkeep hm) ((hm.iff _).1 h)
      have hev := hkeep.lengthens.trans hm.lengthens
      exact ⟨hends.before hr.lengthens hev,
        denotesAll_of_lengthens hev hr.begins ((hm.spells _ _).1 hd)⟩
    · intro r H₁ hr hds h
      refine (hX e).weaken h fun v H₂ hkeep h => ?_
      obtain ⟨us, hus, h⟩ := h
      obtain ⟨w, H₃, hm⟩ := merge2_cases hus (hr.fine.lengthens hkeep.lengthens) h
      have hbuilt := built_merge hr hkeep hm
      have hend := (hm.iff _).1 h
      obtain ⟨hends, hd⟩ := hQ _ _ hbuilt hend
      have hds₂ := hds.congr fun p x y _ => hkeep p x y
      refine ⟨us, hus, ?_, (hm.iff _).2 (hQ' _ _ hbuilt hd hend)⟩
      exact maySplice_of_denotes hm hds₂
        (hends.after hS (hr.lengthens.trans hkeep.lengthens)) ((hm.spells _ _).1 hd)

end

/-- **Backquote builds the right list and destroys nothing** exactly if no list that it splices, in
front of others, ends in a cell that there was before or that is part of what is built. -/
theorem backquoteOk_iff (hX : ∀ e, (X e).Guarantees fun H _ H' => KeepsConses H H')
    (hf : ∀ e, (X e).Feasible) (t : Template) (H : Heap) :
    BackquoteOk X t H ↔ SpliceOk X t H := by
  constructor
  · intro h
    refine safely_of_evalTemplate hX hf t (fun p hp => hp) h ?_ fun _ _ _ _ _ _ => trivial
    rintro r H' - - ⟨hd, hkeep⟩
    exact ⟨fun p _ ⟨x, ho⟩ => ⟨x, hkeep p x nil ho⟩, hd⟩
  · intro h
    refine (guarantees_evalTemplate hX t).weaken (evalTemplate_of_safely hX t h) ?_
    rintro r H' - ⟨-, hkeep, hd⟩
    exact ⟨hd, fun p x y ho => hkeep p x y ⟨x, y, ho⟩ ho⟩

end Safely

/-- **A list that is spliced in front of others is changed**: with the list `(1)` at 16, and `x` its
value, the template `(,@x 1)` makes it longer. -/
theorem not_backquoteOk : ¬ ∀ (X : Word → Outcome Heap Word) (t : Template) (H : Heap),
    (∀ e, (X e).Guarantees fun H _ H' => KeepsConses H H') → (∀ e, (X e).Feasible) →
    evalTemplate X t (fun _ _ => True) H → BackquoteOk X t H := by
  intro h
  let H := Heap.ofList [(16, .cons 4 nil)]
  -- the list `(1)`, with a new cell somewhere
  have hcell : ∀ tail H₁, (∃ p, p ∉ H.dom ∧ p % 8 = 0 ∧ tail = p + consTag ∧
      H₁ = H.set p (.cons 4 nil)) → ListOf H₁ 17 [4] ∧ ListOf H₁ tail [4] ∧
      nilptr H₁ 17 = some (.cdr 16) := by
    rintro _ _ ⟨p, hp, hp8, rfl, rfl⟩
    have hlist : ListOf (H.set p (.cons 4 nil)) 17 [4] :=
      ListOf.extends ⟨by decide, nil, rfl, rfl⟩ (.set hp _)
    have hcdr : (H.set p (.cons 4 nil)).cdr 17 = nil := ListOf.cdr hlist
    have htag : tag (p + consTag) = consTag ∧ pointer (p + consTag) = p := by
      simp only [tag, pointer, consTag]
      omega
    refine ⟨hlist, ⟨by simp [consp, htag.1], nil, by simp [Heap.set, htag.2], rfl⟩, ?_⟩
    rw [nilptr, ListOf.listp hlist, if_neg (by decide)]
    rw [nilptrLoop, hcdr, if_pos (by decide)]
    rfl
  have hmerge : ∀ tail H₁, (∃ p, p ∉ H.dom ∧ p % 8 = 0 ∧ tail = p + consTag ∧
      H₁ = H.set p (.cons 4 nil)) → ∃ w H', Merges H₁ 17 tail [4] w H' := by
    intro tail H₁ hnew
    obtain ⟨hlist, htail, -⟩ := hcell tail H₁ hnew
    exact merge2_of_listp hlist (fine_of_list htail) (ListOf.listp htail)
  obtain ⟨p, hp, hp8⟩ := H.exists_fresh
  have hok := h (fun _ => pure 17) (.list (.splice 0 (.cons (.const 4) .nil))) H
    (fun _ => Outcome.guarantees_pure fun H p x y ho => ho) (fun _ => Outcome.feasible_pure)
    fun tail H₁ hnew => ?_
  · obtain ⟨us, hus, hok⟩ := hok _ _ ⟨p, hp, hp8, rfl, rfl⟩
    obtain ⟨hlist, -, hptr⟩ := hcell _ _ ⟨p, hp, hp8, rfl, rfl⟩
    obtain rfl := ListOf.unique hus hlist
    obtain ⟨w, H', hm⟩ := hmerge _ _ ⟨p, hp, hp8, rfl, rfl⟩
    obtain ⟨-, hkeep⟩ := (hm.iff _).1 hok
    obtain ⟨-, x, hx⟩ := hm.last 16 hptr
    have hold := hkeep 16 4 nil rfl
    have htail : p + consTag = nil := by
      rw [hx] at hold
      injection hold with hold
      injection hold
    -- a cell is not at an address that would make its value `nil`
    have hnil : p + 1 = 47 := htail
    omega
  · obtain ⟨w, H', hm⟩ := hmerge tail H₁ hnew
    exact ⟨[4], (hcell tail H₁ hnew).1, (hm.iff _).2 trivial⟩

end Lisp

end Bluejay
