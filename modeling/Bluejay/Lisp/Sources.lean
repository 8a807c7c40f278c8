import Bluejay.Lisp.ControlFlow
import Bluejay.Lisp.Sexp
import Bluejay.Lisp.Terms

/-!
# Source trees

* `Term.shape` : a term without its constants, which are words in memory; what can be compiled
  does not depend on them.
* `Sexp.IsTerm e t`, `Sexp.Defines e d` : the tree `e` is written like the term `t`, or like the
  definition `d`, up to constants.
* `exists_spells`, `exists_defines` : wherever such a tree lies in memory, it is a term, or a
  definition, of this shape.
-/

namespace Bluejay

namespace Lisp

/-! ### Shapes -/

namespace Term

mutual

/-- The term with other constants. -/
def shape : Term → Term
  | .literal _ => .literal 0
  | .quote _ => .quote 0
  | .ite c a b => .ite c.shape a.shape b.shape
  | .andOr or es => .andOr or (shapeAll es)
  | .progn es => .progn (shapeAll es)
  | .let1 x e es => .let1 x e.shape (shapeAll es)
  | .list es => .list (shapeAll es)
  | .call f es => .call f (shapeAll es)
  | .callRest f es more => .callRest f (shapeAll es) (shapeAll more)
  | e => e

def shapeAll : List Term → List Term
  | [] => []
  | e :: es => e.shape :: shapeAll es

end

theorem length_shapeAll (es : List Term) : (shapeAll es).length = es.length := by
  induction es with
  | nil => rfl
  | cons e es ih => rw [shapeAll, List.length_cons, List.length_cons, ih]

theorem ne_nil_of_shapeAll {es es' : List Term} (h : shapeAll es' = shapeAll es) (hes : es ≠ []) :
    es' ≠ [] := by
  rintro rfl
  cases es with
  | nil => exact hes rfl
  | cons e es => cases h

mutual

theorem binds_shape : ∀ e : Term, e.shape.binds = e.binds
  | .nil | .t | .literal _ | .quote _ | .var _ => rfl
  | .ite c a b => by simp only [shape, binds, binds_shape c, binds_shape a, binds_shape b]
  | .andOr _ es | .progn es | .list es | .call _ es => by
    simp only [shape, binds, bindsAll_shapeAll es]
  | .let1 _ e es => by simp only [shape, binds, binds_shape e, bindsAll_shapeAll es]
  | .callRest _ es more => by
    simp only [shape, binds, bindsAll_shapeAll es, bindsAll_shapeAll more]

theorem bindsAll_shapeAll : ∀ es : List Term, bindsAll (shapeAll es) = bindsAll es
  | [] => rfl
  | e :: es => by simp only [shapeAll, bindsAll, binds_shape e, bindsAll_shapeAll es]

end

mutual

theorem lets_shape (d : ℕ) : ∀ e : Term, e.shape.lets d = e.lets d
  | .nil | .t | .literal _ | .quote _ | .var _ => rfl
  | .ite c a b => by simp only [shape, lets, lets_shape d c, lets_shape d a, lets_shape d b]
  | .andOr _ es | .progn es | .list es | .call _ es => by
    simp only [shape, lets, letsAll_shapeAll d es]
  | .let1 _ e es => by simp only [shape, lets, lets_shape d e, letsAll_shapeAll (d + 1) es]
  | .callRest _ es more => by
    simp only [shape, lets, letsAll_shapeAll d es, letsAll_shapeAll d more]

theorem letsAll_shapeAll (d : ℕ) : ∀ es : List Term, letsAll d (shapeAll es) = letsAll d es
  | [] => rfl
  | e :: es => by simp only [shapeAll, letsAll, lets_shape d e, letsAll_shapeAll d es]

end

mutual

theorem walked_shape (d : ℕ) : ∀ e : Term, e.shape.walked d = e.walked d
  | .nil | .t | .literal _ | .quote _ | .var _ => rfl
  | .ite c a b => by
    simp only [shape, walked, walked_shape d c, walked_shape d a, walked_shape d b]
  | .andOr _ es | .progn es | .list es | .call _ es => by
    simp only [shape, walked, walkedAll_shapeAll d es]
  | .let1 _ _ es => by simp only [shape, walked, walkedAll_shapeAll (d + 1) es]
  | .callRest _ es more => by
    simp only [shape, walked, walkedAll_shapeAll d es, walkedAll_shapeAll d more]

theorem walkedAll_shapeAll (d : ℕ) : ∀ es : List Term, walkedAll d (shapeAll es) = walkedAll d es
  | [] => rfl
  | e :: es => by simp only [shapeAll, walkedAll, walked_shape d e, walkedAll_shapeAll d es]

end

mutual

theorem heads_shape : ∀ e : Term, e.shape.heads = e.heads
  | .nil | .t | .literal _ | .quote _ | .var _ => rfl
  | .ite c a b => by simp only [shape, heads, heads_shape c, heads_shape a, heads_shape b]
  | .andOr _ es | .progn es | .list es | .call _ es => by
    simp only [shape, heads, headsAll_shapeAll es]
  | .let1 _ _ es => by simp only [shape, heads, headsAll_shapeAll es]
  | .callRest _ es more => by
    simp only [shape, heads, headsAll_shapeAll es, headsAll_shapeAll more]

theorem headsAll_shapeAll : ∀ es : List Term, headsAll (shapeAll es) = headsAll es
  | [] => rfl
  | e :: es => by simp only [shapeAll, headsAll, heads_shape e, headsAll_shapeAll es]

end

section Legal

variable (takes : String → Option Args)

mutual

theorem legal_shape : ∀ (e : Term) (scope ended : List String),
    e.shape.Legal takes scope ended ↔ e.Legal takes scope ended
  | .nil, _, _ | .t, _, _ | .literal _, _, _ | .quote _, _, _ | .var _, _, _ => Iff.rfl
  | .ite c a b, _, _ => by
    simp only [shape, Legal, legal_shape c, legal_shape a, legal_shape b, binds_shape]
  | .andOr _ es, _, _ | .progn es, _, _ => by simp only [shape, Legal, legalBody_shapeAll es]
  | .let1 _ e es, _, _ => by
    simp only [shape, Legal, legal_shape e, legalBody_shapeAll es, binds_shape]
  | .list es, _, _ => by simp only [shape, Legal, legalArguments_shapeAll es]
  | .call _ es, _, _ => by
    simp only [shape, Legal, legalArguments_shapeAll es, length_shapeAll]
  | .callRest _ es more, _, _ => by
    simp only [shape, Legal, legalArguments_shapeAll es, legalArguments_shapeAll more,
      length_shapeAll, bindsAll_shapeAll]

theorem legalBody_shapeAll : ∀ (es : List Term) (scope ended : List String),
    LegalBody takes scope ended (shapeAll es) ↔ LegalBody takes scope ended es
  | [], _, _ => Iff.rfl
  | e :: es, _, _ => by
    simp only [shapeAll, LegalBody, legal_shape e, legalBody_shapeAll es, binds_shape]

theorem legalArguments_shapeAll : ∀ (es : List Term) (scope ended : List String),
    LegalArguments takes scope ended (shapeAll es) ↔ LegalArguments takes scope ended es
  | [], _, _ => Iff.rfl
  | e :: es, _, _ => by
    simp only [shapeAll, LegalArguments, legal_shape e, legalArguments_shapeAll es,
      bindsAll_shapeAll]

end

end Legal

end Term

def Definition.shape (d : Definition) : Definition := { d with body := Term.shapeAll d.body }

/-! ### Trees -/

namespace Sexp

/-- The walk does not enter the tree when it is quoted. -/
def Unquoted (q : Sexp) : Prop :=
  (∀ a d, q ≠ .cons a d) ∨
    ∃ x xs, q = .list (x :: xs) ∧ x ≠ .symbol "unquote" ∧ x ≠ .symbol "unquote-splice"

mutual

/-- The tree is written like the term, up to constants. -/
def IsTerm (e : Sexp) : Term → Prop
  | .nil => e = .atom Lisp.nil ∨ e = .symbol "nil"
  | .t => e = .symbol "t"
  | .literal _ => (∃ s, e = .string s) ∨ ∃ w, e = .atom w ∧ integerp w
  | .quote _ => ∃ q, e = .list [.symbol "quote", q] ∧ q.Unquoted
  | .var x => e = .symbol x ∧ x ∉ constants
  | .ite c a b => ∃ x y, IsTerm x c ∧ IsTerm y a ∧
      ((∃ z, e = .list [.symbol "if", x, y, z] ∧ IsTerm z b) ∨
        e = .list [.symbol "if", x, y] ∧ b = .nil)
  | .andOr or es => ∃ xs, e = .list (.symbol (if or then "or" else "and") :: xs) ∧
      AreTerms xs es ∧ es ≠ []
  | .progn es => ∃ xs, e = .list (.symbol "progn" :: xs) ∧ AreTerms xs es ∧ es ≠ []
  | .let1 x value es => ∃ y xs, e = .list (.symbol "let1" :: .list [.symbol x, y] :: xs) ∧
      IsTerm y value ∧ AreTerms xs es ∧ es ≠ []
  | .list es => ∃ xs, e = .list (.symbol "list" :: xs) ∧ AreTerms xs es
  | .call f es => f ∉ specialForms ∧ ∃ xs, e = .list (.symbol f :: xs) ∧ AreTerms xs es
  | .callRest f es more => f ∉ specialForms ∧ ∃ xs ys, e = .list (.symbol f :: (xs ++ ys)) ∧
      AreTerms xs es ∧ AreTerms ys more

def AreTerms (xs : List Sexp) : List Term → Prop
  | [] => xs = []
  | e :: es => ∃ x xs', xs = x :: xs' ∧ IsTerm x e ∧ AreTerms xs' es

end

/-- The trees are the parameters. -/
def parameters (d : Definition) : List Sexp :=
  d.params.map .symbol ++ d.rest.toList.flatMap fun r => [.symbol "&", .symbol r]

/-- The tree is written like the parameters and the body of the definition. -/
def Defines (e : Sexp) (d : Definition) : Prop :=
  ∃ xs, e = .list (.list (parameters d) :: xs) ∧ "&" ∉ d.params ∧ AreTerms xs d.body ∧ d.body ≠ []

end Sexp

section Trees

variable {H : Heap} {v : Word} {s : String} {es : List Sexp}

theorem listp_of_not_consp {H : Heap} (hcons : consp v = false) (hnil : nilp v = false) :
    H.listp v = some false := by
  simp [Heap.listp, Heap.cells, hcons, hnil]

theorem not_consp_of_symbolp (h : symbolp v = true) : consp v = false := by
  have h8 : tag v = symbolTag := of_decide_eq_true h
  simp [consp, h8, symbolTag, consTag]

theorem not_consp_of_literal (h : integerp v = true ∨ stringp v = true) : consp v = false := by
  cases hc : consp v with
  | false => rfl
  | true =>
    obtain ⟨-, -, hint, hstr⟩ := kind_of_consp hc
    rcases h with h | h
    · exact absurd h (by simp [hint])
    · exact absurd h (by simp [hstr])

/-- A list in memory. -/
theorem represents_list : ∀ {es : List Sexp} {v : Word}, Represents H v (.list es) →
    ∃ ws, ListOf H v ws ∧ List.Forall₂ (Represents H) ws es
  | [], _, hv => ⟨[], hv.1, .nil⟩
  | e :: es, v, hv => by
    obtain ⟨hc, x, y, ho, hx, hy⟩ := hv
    obtain ⟨ws, hws, hes⟩ := represents_list hy
    exact ⟨x :: ws, ⟨hc, y, ho, hws⟩, .cons hx hes⟩

theorem named_of_represents (hv : Represents H v (.symbol s)) : H.Named v s := by
  obtain ⟨hsym, hobj⟩ := hv
  exact ⟨hsym, by simp [Heap.text, hobj]⟩

/-- A form in memory. -/
theorem isForm_of_represents (hv : Represents H v (.list (.symbol s :: es))) :
    ∃ ws, H.IsForm v s ws ∧ List.Forall₂ (Represents H) ws es := by
  obtain ⟨ws, hws, hes⟩ := represents_list hv
  cases hes with
  | cons hf hes => exact ⟨_, ⟨_, named_of_represents hf, hws⟩, hes⟩

theorem symstreq_of_represents {e : Sexp} (hv : Represents H v e) (he : e ≠ .symbol s) :
    H.symstreq v s = false := by
  cases e with
  | symbol s' =>
    rw [(named_of_represents hv).symstreq, decide_eq_false]
    rintro rfl
    exact he rfl
  | atom w =>
    refine symstreq_of_not_symbolp ?_ s
    obtain ⟨rfl, hw | rfl⟩ := hv
    · exact (kind_of_literal (.inl hw)).1
    · rfl
  | string s' => exact symstreq_of_not_symbolp (kind_of_literal (.inr hv.1)).1 s
  | cons a d => exact symstreq_of_not_symbolp (kind_of_consp hv.1).1 s
  | closure args f d =>
    refine symstreq_of_not_symbolp (decide_eq_false ?_) s
    have h8 : tag v = closureTag := of_decide_eq_true hv.1
    simp [h8, closureTag, symbolTag]

/-- What is no cell is no list, except `nil`. -/
theorem listp_of_represents {e : Sexp} (hv : Represents H v e) (he : ∀ a d, e ≠ .cons a d) :
    v = nil ∨ H.listp v = some false := by
  cases e with
  | cons a d => exact absurd rfl (he a d)
  | atom w =>
    obtain ⟨rfl, hw | rfl⟩ := hv
    · exact .inr (listp_of_not_consp (not_consp_of_literal (.inl hw)) (kind_of_literal (.inl hw)).2)
    · exact .inl rfl
  | symbol s =>
    exact .inr (listp_of_not_consp (not_consp_of_symbolp hv.1) (kind_of_symbolp hv.1).1)
  | string s =>
    exact .inr (listp_of_not_consp (not_consp_of_literal (.inr hv.1)) (kind_of_literal (.inr hv.1)).2)
  | closure args f d =>
    have h8 : tag v = closureTag := of_decide_eq_true hv.1
    have hcons : consp v = false := by simp [consp, h8, closureTag, consTag]
    refine .inr (listp_of_not_consp hcons (decide_eq_false ?_))
    rintro rfl
    exact absurd h8 (by decide)

theorem unquoted_of_represents {e : Sexp} (hv : Represents H v e) (he : e.Unquoted) :
    H.Unquoted v := by
  rcases he with he | ⟨x, xs, rfl, hunquote, hsplice⟩
  · rcases listp_of_represents hv he with rfl | hlist
    · have hnil : ListOf H nil [] := rfl
      have hcar : symbolp (H.car nil) = false := by
        rw [show H.car nil = nil from if_neg (by decide)]
        rfl
      exact ⟨true, hnil.listp, fun _ =>
        ⟨symstreq_of_not_symbolp hcar _, symstreq_of_not_symbolp hcar _⟩⟩
    · exact ⟨false, hlist, fun h => absurd h Bool.false_ne_true⟩
  · obtain ⟨ws, hws, hes⟩ := represents_list hv
    cases hes with
    | cons hx _ =>
      refine ⟨true, hws.listp, fun _ => ?_⟩
      rw [hws.car]
      exact ⟨symstreq_of_represents hx hunquote, symstreq_of_represents hx hsplice⟩

mutual

/-- A tree in memory that is written like a term is a term of this shape. -/
theorem exists_spells : ∀ (f : Term) {e : Sexp} {v : Word}, Represents H v e → e.IsTerm f →
    ∃ f', H.Spells v f' ∧ f'.shape = f.shape
  | .nil, e, v, hv, he => by
    refine ⟨.nil, ?_, rfl⟩
    rcases he with rfl | rfl
    · exact .inl hv.1
    · exact .inr (named_of_represents hv)
  | .t, e, v, hv, he => by
    obtain rfl : e = .symbol "t" := he
    exact ⟨.t, named_of_represents hv, rfl⟩
  | .literal _, e, v, hv, he => by
    refine ⟨.literal v, ?_, rfl⟩
    rcases he with ⟨s, rfl⟩ | ⟨w, rfl, hw⟩
    · exact ⟨rfl, .inr hv.1⟩
    · obtain rfl := hv.1
      exact ⟨rfl, .inl hw⟩
  | .quote _, e, v, hv, ⟨q, he, hq⟩ => by
    subst he
    obtain ⟨ws, hform, hes⟩ := isForm_of_represents hv
    cases hes with
    | cons hw hes =>
      cases hes
      exact ⟨.quote _, ⟨hform, unquoted_of_represents hw hq⟩, rfl⟩
  | .var x, e, v, hv, ⟨he, hx⟩ => by
    subst he
    exact ⟨.var x, ⟨named_of_represents hv, hx⟩, rfl⟩
  | .ite c a b, e, v, hv, ⟨x, y, hx, hy, hz⟩ => by
    rcases hz with ⟨z, he, hz⟩ | ⟨he, rfl⟩
    · subst he
      obtain ⟨ws, hform, hes⟩ := isForm_of_represents hv
      rcases hes with _ | ⟨hx', _ | ⟨hy', _ | ⟨hz', _ | _⟩⟩⟩
      obtain ⟨c', hc, hcs⟩ := exists_spells c hx' hx
      obtain ⟨a', ha, has⟩ := exists_spells a hy' hy
      obtain ⟨b', hb, hbs⟩ := exists_spells b hz' hz
      exact ⟨.ite c' a' b', ⟨_, _, hc, ha, .inl ⟨_, hform, hb⟩⟩, by
        simp only [Term.shape, hcs, has, hbs]⟩
    · subst he
      obtain ⟨ws, hform, hes⟩ := isForm_of_represents hv
      rcases hes with _ | ⟨hx', _ | ⟨hy', _ | _⟩⟩
      obtain ⟨c', hc, hcs⟩ := exists_spells c hx' hx
      obtain ⟨a', ha, has⟩ := exists_spells a hy' hy
      exact ⟨.ite c' a' .nil, ⟨_, _, hc, ha, .inr ⟨hform, rfl⟩⟩, by
        simp only [Term.shape, hcs, has]⟩
  | .andOr or as, e, v, hv, ⟨xs, he, hxs, hne⟩ => by
    subst he
    obtain ⟨ws, hform, hes⟩ := isForm_of_represents hv
    obtain ⟨as', hspells, hshape⟩ := exists_spellsAll as hes hxs
    exact ⟨.andOr or as', ⟨ws, hform, hspells, Term.ne_nil_of_shapeAll hshape hne⟩, by
      simp only [Term.shape, hshape]⟩
  | .progn as, e, v, hv, ⟨xs, he, hxs, hne⟩ => by
    subst he
    obtain ⟨ws, hform, hes⟩ := isForm_of_represents hv
    obtain ⟨as', hspells, hshape⟩ := exists_spellsAll as hes hxs
    exact ⟨.progn as', ⟨ws, hform, hspells, Term.ne_nil_of_shapeAll hshape hne⟩, by
      simp only [Term.shape, hshape]⟩
  | .let1 x a as, e, v, hv, ⟨y, xs, he, hy, hxs, hne⟩ => by
    subst he
    obtain ⟨ws, hform, hes⟩ := isForm_of_represents hv
    rcases hes with _ | ⟨hbinding, hes⟩
    obtain ⟨us, hlist, hus⟩ := represents_list hbinding
    rcases hus with _ | ⟨hx', _ | ⟨hy', _ | _⟩⟩
    obtain ⟨a', ha, hvalue⟩ := exists_spells a hy' hy
    obtain ⟨as', hspells, hshape⟩ := exists_spellsAll as hes hxs
    exact ⟨.let1 x a' as', ⟨_, _, _, _, hform, hlist, named_of_represents hx', ha, hspells,
      Term.ne_nil_of_shapeAll hshape hne⟩, by simp only [Term.shape, hvalue, hshape]⟩
  | .list as, e, v, hv, ⟨xs, he, hxs⟩ => by
    subst he
    obtain ⟨ws, hform, hes⟩ := isForm_of_represents hv
    obtain ⟨as', hspells, hshape⟩ := exists_spellsAll as hes hxs
    exact ⟨.list as', ⟨ws, hform, hspells⟩, by simp only [Term.shape, hshape]⟩
  | .call f as, e, v, hv, ⟨hf, xs, he, hxs⟩ => by
    subst he
    obtain ⟨ws, hform, hes⟩ := isForm_of_represents hv
    obtain ⟨as', hspells, hshape⟩ := exists_spellsAll as hes hxs
    exact ⟨.call f as', ⟨hf, ws, hform, hspells⟩, by simp only [Term.shape, hshape]⟩
  | .callRest f as more, e, v, hv, ⟨hf, xs, ys, he, hxs, hys⟩ => by
    subst he
    obtain ⟨ws, hform, hes⟩ := isForm_of_represents hv
    obtain ⟨as', hspells, hshape⟩ :=
      exists_spellsAll as (List.forall₂_take_append _ _ _ hes) hxs
    obtain ⟨more', hmore, hshape'⟩ :=
      exists_spellsAll more (List.forall₂_drop_append _ _ _ hes) hys
    rw [← List.take_append_drop xs.length ws] at hform
    exact ⟨.callRest f as' more', ⟨hf, _, _, hform, hspells, hmore⟩, by
      simp only [Term.shape, hshape, hshape']⟩

theorem exists_spellsAll : ∀ (as : List Term) {es : List Sexp} {ws : List Word},
    List.Forall₂ (Represents H) ws es → Sexp.AreTerms es as →
    ∃ as', H.SpellsAll ws as' ∧ Term.shapeAll as' = Term.shapeAll as
  | [], es, ws, hws, hes => by
    obtain rfl : es = [] := hes
    cases hws
    exact ⟨[], rfl, rfl⟩
  | a :: as, es, ws, hws, ⟨x, xs, hes, hx, hxs⟩ => by
    subst hes
    cases hws with
    | cons hw hws =>
      obtain ⟨a', ha, hshape⟩ := exists_spells a hw hx
      obtain ⟨as', has, hshapes⟩ := exists_spellsAll as hws hxs
      exact ⟨a' :: as', ⟨_, _, rfl, ha, has⟩, by simp only [Term.shapeAll, hshape, hshapes]⟩

end

/-- Trees in memory that are parameters. -/
theorem declares_of_represents {d : Definition} {ws : List Word}
    (hws : List.Forall₂ (Represents H) ws (Sexp.parameters d)) :
    H.Declares ws d.params d.rest := by
  have hnamed : ∀ {ws : List Word} {xs : List String},
      List.Forall₂ (Represents H) ws (xs.map .symbol) → List.Forall₂ H.Named ws xs := by
    intro ws xs h
    rw [List.forall₂_map_right_iff] at h
    exact h.imp fun _ _ => named_of_represents
  unfold Sexp.parameters at hws
  cases hrest : d.rest with
  | none =>
    rw [hrest] at hws
    exact hnamed (by simpa using hws)
  | some r =>
    rw [hrest] at hws
    have hparams := List.forall₂_take_append _ _ _ hws
    have hmore := List.forall₂_drop_append _ _ _ hws
    obtain ⟨u, u', hdrop, hu, hu'⟩ : ∃ u u', ws.drop (d.params.map Sexp.symbol).length = [u, u'] ∧
        Represents H u (.symbol "&") ∧ Represents H u' (.symbol r) := by
      generalize ws.drop (d.params.map Sexp.symbol).length = us at hmore
      rcases hmore with _ | ⟨hu, _ | ⟨hu', _ | _⟩⟩
      exact ⟨_, _, rfl, hu, hu'⟩
    refine ⟨_, u, u', ?_, hnamed hparams, named_of_represents hu, named_of_represents hu'⟩
    rw [← hdrop, List.take_append_drop]

/-- A tree in memory that is written like a definition is a definition of this shape. -/
theorem exists_defines {e : Sexp} {d : Definition} (hv : Represents H v e) (he : e.Defines d) :
    ∃ d', H.Defines v d' ∧ d'.shape = d.shape := by
  obtain ⟨xs, rfl, hamp, hxs, hne⟩ := he
  obtain ⟨us, hlist, hes⟩ := represents_list hv
  rcases hes with _ | ⟨hparams, hbody⟩
  obtain ⟨ps, hps, hdeclares⟩ := represents_list hparams
  obtain ⟨as', has, hshape⟩ := exists_spellsAll d.body hbody hxs
  refine ⟨⟨d.name, d.params, d.rest, as'⟩, ⟨_, _, _, hlist, hps, declares_of_represents hdeclares,
    hamp, has, Term.ne_nil_of_shapeAll hshape hne⟩, ?_⟩
  simp only [Definition.shape, hshape]

end Trees

end Lisp

end Bluejay
