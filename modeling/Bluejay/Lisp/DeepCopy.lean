import Bluejay.Lisp.Apply

/-!
# What a copy is equal to

* `Data H v` : the value `v` has no cycles.
* `Equal H v G w` : the values are structurally equal.
* `HasInstance H v` : an instance of a class is in `v`.
* `Faithful` : `deep_copy` returns an equal value, made of new cells, and changes nothing.
* `Arrive` : the arguments of a call by `call_list_args` are equal to those in the list.
* `faithful_iff` : an instance is replaced by `nil`, so both hold exactly if there is none.
-/

namespace Bluejay

namespace Lisp

/-- Data without cycles. -/
inductive Data (H : Heap) : Word → Prop
  | immediate {v : Word} (hv : immediate v = true) : Data H v
  | text {v : Word} {s : String} (hv : symbolp v = true ∨ stringp v = true)
      (ho : H.obj (pointer v) = some (.text s)) : Data H v
  | cons {v x y : Word} (hv : consp v = true) (ho : H.obj (pointer v) = some (.cons x y))
      (hx : Data H x) (hy : Data H y) : Data H v
  | closure {v : Word} {args : Args} {f : CodePtr} {data : List Word} (hv : closurep v = true)
      (ho : H.obj (pointer v) = some (.closure args f data)) (hdata : ∀ u ∈ data, Data H u) :
      Data H v
  | object {v type : Word} {members : List Word} (hv : classp v = true)
      (ho : H.obj (pointer v) = some (.object type members)) (htype : Data H type)
      (hmembers : ∀ u ∈ members, Data H u) : Data H v

/-- The value `v` of `H` and the value `w` of `G` are the same data. -/
inductive Equal (H G : Heap) : Word → Word → Prop
  | immediate {v : Word} (hv : immediate v = true) : Equal H G v v
  | text {v w : Word} {s : String} (hv : symbolp v = true ∨ stringp v = true) (htag : tag w = tag v)
      (ho : H.obj (pointer v) = some (.text s)) (ho' : G.obj (pointer w) = some (.text s)) :
      Equal H G v w
  | cons {v w x y x' y' : Word} (hv : consp v = true) (hw : consp w = true)
      (ho : H.obj (pointer v) = some (.cons x y)) (ho' : G.obj (pointer w) = some (.cons x' y'))
      (hx : Equal H G x x') (hy : Equal H G y y') : Equal H G v w
  | closure {v w : Word} {args : Args} {f : CodePtr} {data data' : List Word}
      (hv : closurep v = true) (hw : closurep w = true)
      (ho : H.obj (pointer v) = some (.closure args f data))
      (ho' : G.obj (pointer w) = some (.closure args f data')) (hlen : data'.length = data.length)
      (hdata : ∀ u ∈ data.zip data', Equal H G u.1 u.2) : Equal H G v w
  | object {v w type type' : Word} {members members' : List Word} (hv : classp v = true)
      (hw : classp w = true) (ho : H.obj (pointer v) = some (.object type members))
      (ho' : G.obj (pointer w) = some (.object type' members')) (htype : Equal H G type type')
      (hlen : members'.length = members.length)
      (hmembers : ∀ u ∈ members.zip members', Equal H G u.1 u.2) : Equal H G v w

/-- An instance of a class is in the value: it is one, or there is one in its `car` or `cdr` or in
something that it has captured. -/
inductive HasInstance (H : Heap) : Word → Prop
  | here {v : Word} (hv : classp v = true) : HasInstance H v
  | car {v x y : Word} (hv : consp v = true) (ho : H.obj (pointer v) = some (.cons x y))
      (hx : HasInstance H x) : HasInstance H v
  | cdr {v x y : Word} (hv : consp v = true) (ho : H.obj (pointer v) = some (.cons x y))
      (hy : HasInstance H y) : HasInstance H v
  | capture {v u : Word} {args : Args} {f : CodePtr} {data : List Word} (hv : closurep v = true)
      (ho : H.obj (pointer v) = some (.closure args f data)) (hu : u ∈ data)
      (h : HasInstance H u) : HasInstance H v

/-- `deep_copy` returns data that is equal to `v` and shares no cell with anything that was there
before, and changes no object. -/
def Faithful (R : Runtime) (w : World) (v : Word) : Prop :=
  ∃ N, ∀ n ≥ N, ∃ v' w', deepCopy R n v w = some (v', w') ∧ Equal w.heap w'.heap v v' ∧
    w.heap.Extends w'.heap ∧ ∀ p, w'.heap.graph.Reach v' p → p ∉ w.heap.dom

/-- The function that `call_list_args` calls with the list `list` of the values `vs` gets data equal
to them. -/
def Arrive (R : Runtime) (w : World) (outside : ℤ → Word) (code_ptr : CodePtr) (args : Args)
    (list : Word) (vs : List Word) (closure : Option Word) : Prop :=
  ∃ N, ∀ n ≥ N, ∃ K us rest e w', callListArgs R outside n code_ptr args list closure w =
    some (e, w') ∧ Spreads w.heap K args outside vs us rest e w' ∧
      ∀ x ∈ vs.zip us, Equal w.heap w'.heap x.1 x.2

section Copies

variable {R : Runtime} {H H₁ H₂ G K : Heap} {w : World} {v v' : Word} {p : ℕ}

/-- A value that `deep_copy` returns as it is leads to no object. -/
theorem kind_of_immediate {v : ℕ} (h : immediate v = true) :
    heapp v = false ∧ classp v = false := by
  have htag : tag v = 0 ∨ tag v = 4 ∨ tag v = 7 := by
    have hcases : v % 4 = 0 ∨ v = 47 ∨ v = 8 := by
      simp only [immediate, Bool.or_eq_true] at h
      rcases h with (h | h) | h
      · exact .inl (of_decide_eq_true h)
      · exact .inr (.inl (of_decide_eq_true h))
      · exact .inr (.inr (of_decide_eq_true h))
    unfold tag
    omega
  rcases htag with h | h | h <;>
    simp [heapp, consp, stringp, symbolp, closurep, classp, h, consTag, stringTag, symbolTag,
      closureTag, classTag]

theorem immediate_of_classp (h : classp v = true) : immediate v = false := by
  by_contra himm
  rw [(kind_of_immediate (Bool.not_eq_false _ ▸ himm)).2] at h
  cases h

theorem heapp_of_classp (h : classp v = true) : heapp v = false := by
  have htag : tag v = classTag := of_decide_eq_true h
  simp [heapp, consp, stringp, symbolp, closurep, htag, consTag, stringTag, symbolTag, closureTag,
    classTag]

/-- The parts of data are data. -/
theorem Data.words {o : Obj} (h : Data H v) (hv : Lisp.immediate v = false)
    (ho : H.obj (pointer v) = some o) : ∀ u ∈ o.words, Data H u := by
  cases h with
  | immediate h =>
    rw [hv] at h
    cases h
  | text _ ho' =>
    rw [ho'] at ho
    cases ho
    nofun
  | cons _ ho' hx hy =>
    rw [ho'] at ho
    cases ho
    simpa [Obj.words, Obj.children] using ⟨hx, hy⟩
  | closure _ ho' hdata =>
    rw [ho'] at ho
    cases ho
    exact hdata
  | object _ ho' htype hmembers =>
    rw [ho'] at ho
    cases ho
    exact List.forall_mem_cons.2 ⟨htype, hmembers⟩

/-- Data is copied, the instances in it as `nil`. -/
theorem Data.copyable (h : Data H v) : Copyable H v := by
  induction h with
  | immediate hv => exact .immediate hv
  | text hv ho => exact .text hv ho
  | cons hv ho _ _ hx hy => exact .cons hv ho hx hy
  | closure hv ho _ hdata => exact .closure hv ho hdata
  | object hv _ _ _ _ _ => exact .other (immediate_of_classp hv) (heapp_of_classp hv)

/-- What is neither returned as it is nor copied is an instance. -/
theorem Data.classp (h : Data H v) (hv : Lisp.immediate v = false) (hh : heapp v = false) :
    Lisp.classp v = true := by
  cases h with
  | immediate h =>
    rw [hv] at h
    cases h
  | text h => rcases h with h | h <;> simp [heapp, h] at hh
  | cons h => simp [heapp, h] at hh
  | closure h => simp [heapp, h] at hh
  | object h => exact h

/-- Data is still there where there are more objects, and nothing else in its place. -/
theorem Data.obj {o : Obj} (h : Data H v) (hv : Lisp.immediate v = false) (h₁ : H.Extends H₁)
    (ho : H₁.obj (pointer v) = some o) : H.obj (pointer v) = some o := by
  cases h with
  | immediate h =>
    rw [hv] at h
    cases h
  | text _ ho' => rw [← ho, h₁ _ _ ho', ho']
  | cons _ ho' => rw [← ho, h₁ _ _ ho', ho']
  | closure _ ho' => rw [← ho, h₁ _ _ ho', ho']
  | object _ ho' => rw [← ho, h₁ _ _ ho', ho']

theorem Data.extends (h : Data H v) (h₁ : H.Extends H₁) : Data H₁ v := by
  induction h with
  | immediate hv => exact .immediate hv
  | text hv ho => exact .text hv (h₁ _ _ ho)
  | cons hv ho _ _ hx hy => exact .cons hv (h₁ _ _ ho) hx hy
  | closure hv ho _ hdata => exact .closure hv (h₁ _ _ ho) hdata
  | object hv ho _ _ htype hmembers => exact .object hv (h₁ _ _ ho) htype hmembers

/-- A copy of data without instances is equal to it, in all heaps that have the data and the copy. -/
theorem IsCopy.equal (h : IsCopy H₁ K v v') (hG : K.Extends G) (hd : Data H v)
    (hno : ¬ HasInstance H v) (h₁ : H.Extends H₁) (h₂ : H.Extends H₂) : Equal H₂ G v v' := by
  induction h with
  | immediate hv => exact .immediate hv
  | @text v _ _ hv htag ho ho' =>
    have himm : Lisp.immediate v = false := by
      refine immediate_of_heapp ?_
      rcases hv with hv | hv <;> simp [heapp, hv]
    exact .text hv htag (h₂ _ _ (hd.obj himm h₁ ho)) (hG _ _ ho')
  | @cons v _ x y _ _ hv hw ho ho' _ _ hx hy =>
    have himm : Lisp.immediate v = false := immediate_of_heapp (by simp [heapp, hv])
    have ho := hd.obj himm h₁ ho
    have hwords := hd.words himm ho
    exact .cons hv hw (h₂ _ _ ho) (hG _ _ ho')
      (hx (hwords x (by simp [Obj.words, Obj.children])) fun h => hno (.car hv ho h))
      (hy (hwords y (by simp [Obj.words, Obj.children])) fun h => hno (.cdr hv ho h))
  | @closure v _ args f data data' hv hw ho ho' hlen _ hdata =>
    have himm : Lisp.immediate v = false := immediate_of_heapp (by simp [heapp, hv])
    have ho := hd.obj himm h₁ ho
    have hwords := hd.words himm ho
    refine .closure hv hw (h₂ _ _ ho) (hG _ _ ho') hlen fun u hu => ?_
    have hmem : u.1 ∈ data := (List.of_mem_zip hu).1
    exact hdata u hu (hwords _ hmem) fun h => hno (.capture hv ho hmem h)
  | other hv hh => exact absurd (.here (hd.classp hv hh)) hno

theorem exists_zip_left {α β : Type*} {as : List α} {bs : List β} (h : bs.length = as.length)
    {x : α} (hx : x ∈ as) : ∃ y, (x, y) ∈ as.zip bs := by
  have hmap : (as.zip bs).map Prod.fst = as := List.map_fst_zip (by omega)
  rw [← hmap] at hx
  obtain ⟨⟨_, y⟩, hy, rfl⟩ := List.mem_map.1 hx
  exact ⟨y, hy⟩

theorem exists_zip_right {α β : Type*} {as : List α} {bs : List β} (h : bs.length = as.length)
    {y : β} (hy : y ∈ bs) : ∃ x, (x, y) ∈ as.zip bs := by
  have hmap : (as.zip bs).map Prod.snd = bs := List.map_snd_zip (by omega)
  rw [← hmap] at hy
  obtain ⟨⟨x, _⟩, hx, rfl⟩ := List.mem_map.1 hy
  exact ⟨x, hx⟩

/-- The parts of an object that is copied are copied. -/
theorem IsCopy.parts {o : Obj} (h : IsCopy H K v v') (hv : heapp v = true)
    (ho : H.obj (pointer v) = some o) : ∃ o', K.obj (pointer v') = some o' ∧
      o'.children.length = o.children.length ∧
      ∀ u ∈ o.children.zip o'.children, IsCopy H K u.1 u.2 := by
  cases h with
  | immediate h =>
    rw [immediate_of_heapp hv] at h
    cases h
  | text _ _ ho₁ ho' =>
    rw [ho₁] at ho
    cases ho
    exact ⟨_, ho', rfl, nofun⟩
  | cons _ _ ho₁ ho' hx hy =>
    rw [ho₁] at ho
    cases ho
    exact ⟨_, ho', rfl, by simpa [Obj.children] using ⟨hx, hy⟩⟩
  | closure _ _ ho₁ ho' hlen hdata =>
    rw [ho₁] at ho
    cases ho
    exact ⟨_, ho', hlen, hdata⟩
  | other _ hh =>
    rw [hh] at hv
    cases hv

/-- The parts of equal objects are equal. -/
theorem Equal.parts {o o' : Obj} (h : Equal H G v v') (hv : heapp v = true)
    (ho : H.obj (pointer v) = some o) (ho' : G.obj (pointer v') = some o') :
    ∀ u ∈ o.children.zip o'.children, Equal H G u.1 u.2 := by
  cases h with
  | immediate h =>
    rw [immediate_of_heapp hv] at h
    cases h
  | text _ _ ho₁ =>
    rw [ho₁] at ho
    cases ho
    nofun
  | cons _ _ ho₁ ho₂ hx hy =>
    rw [ho₁] at ho
    rw [ho₂] at ho'
    cases ho
    cases ho'
    simpa [Obj.children] using ⟨hx, hy⟩
  | closure _ _ ho₁ ho₂ _ hdata =>
    rw [ho₁] at ho
    rw [ho₂] at ho'
    cases ho
    cases ho'
    exact hdata
  | object hclass =>
    rw [heapp_of_classp hclass] at hv
    cases hv

/-- Nothing is equal to `nil` but `nil`. -/
theorem not_equal_nil (h : classp v = true) : ¬ Equal H G v nil := by
  have htag : tag v = classTag := of_decide_eq_true h
  intro heq
  cases heq with
  | immediate hv => cases h
  | text _ htag' =>
    rw [htag] at htag'
    cases htag'
  | cons _ hw => cases hw
  | closure _ hw => cases hw
  | object _ hw => cases hw

/-- The copy of an instance is `nil`. -/
theorem IsCopy.eq_nil (h : IsCopy H K v v') (hv : classp v = true) : v' = nil := by
  have hheap := heapp_of_classp hv
  cases h with
  | immediate h =>
    rw [immediate_of_classp hv] at h
    cases h
  | text h => rcases h with h | h <;> simp [heapp, h] at hheap
  | cons h => simp [heapp, h] at hheap
  | closure h => simp [heapp, h] at hheap
  | other => rfl

/-- A copy in which an instance has been replaced is not equal to the value. -/
theorem HasInstance.not_equal (h : HasInstance H v) (hc : IsCopy H K v v') (hG : K.Extends G) :
    ¬ Equal H G v v' := by
  -- a part with an instance
  have hpart : ∀ {v v' u : Word} {o : Obj}, heapp v = true → H.obj (pointer v) = some o →
      u ∈ o.children → (∀ u', IsCopy H K u u' → ¬ Equal H G u u') → IsCopy H K v v' →
      ¬ Equal H G v v' := by
    intro v v' u o hv ho hu hno hc heq
    obtain ⟨o', ho', hlen, hparts⟩ := hc.parts hv ho
    obtain ⟨u', hmem⟩ := exists_zip_left hlen hu
    exact hno u' (hparts _ hmem) (heq.parts hv ho (hG _ _ ho') _ hmem)
  induction h generalizing v' with
  | here hv =>
    rw [hc.eq_nil hv]
    exact not_equal_nil hv
  | car hv ho _ ih =>
    exact hpart (by simp [heapp, hv]) ho (by simp [Obj.children]) (fun _ => ih) hc
  | cdr hv ho _ ih =>
    exact hpart (by simp [heapp, hv]) ho (by simp [Obj.children]) (fun _ => ih) hc
  | capture hv ho hu _ ih => exact hpart (by simp [heapp, hv]) ho hu (fun _ => ih) hc

theorem IsCopy.equal_iff (h : IsCopy H K v v') (hG : K.Extends G) (hd : Data H v) :
    Equal H G v v' ↔ ¬ HasInstance H v :=
  ⟨fun heq hi => hi.not_equal h hG heq, fun hno => h.equal hG hd hno (.refl _) (.refl _)⟩

/-- A copy is made of objects of `K`. -/
theorem IsCopy.target (h : IsCopy H K v v') (hn : (heapp v' || Lisp.classp v') = true) :
    ∃ o, K.obj (pointer v') = some o ∧ ∀ u' ∈ o.children, ∃ u, IsCopy H K u u' := by
  cases h with
  | immediate hv =>
    rw [(kind_of_immediate hv).1, (kind_of_immediate hv).2] at hn
    cases hn
  | text _ _ _ ho' => exact ⟨_, ho', nofun⟩
  | cons _ _ _ ho' hx hy =>
    refine ⟨_, ho', fun u' hu' => ?_⟩
    rcases List.mem_pair.1 hu' with rfl | rfl
    · exact ⟨_, hx⟩
    · exact ⟨_, hy⟩
  | closure _ _ _ ho' hlen hdata =>
    refine ⟨_, ho', fun u' hu' => ?_⟩
    obtain ⟨u, hu⟩ := exists_zip_right hlen hu'
    exact ⟨u, hdata _ hu⟩
  | other => cases hn

/-- All that the copy leads to is in `K`. -/
theorem IsCopy.reach (h : IsCopy H K v v') (hG : K.Extends G) (hr : G.graph.Reach v' p) :
    p ∈ K.dom := by
  have hnode : ∀ {u : Word} {q : ℕ}, G.graph.node u = some q →
      (heapp u || Lisp.classp u) = true ∧ pointer u = q := by
    intro u q hq
    simpa [Heap.graph] using hq
  have hmem : ∀ {u u' : Word} {q : ℕ}, IsCopy H K u u' → G.graph.node u' = some q →
      q ∈ K.dom := by
    intro u u' q hc hq
    obtain ⟨hkind, rfl⟩ := hnode hq
    obtain ⟨o, ho, -⟩ := hc.target hkind
    exact (K.mem_dom _).1 (by rw [ho]; rfl)
  suffices hcopy : ∃ u u', IsCopy H K u u' ∧ G.graph.node u' = some p by
    obtain ⟨u, u', hc, hq⟩ := hcopy
    exact hmem hc hq
  induction hr with
  | root hq => exact ⟨v, v', h, hq⟩
  | @edge q r w _ hw hr ih =>
    obtain ⟨u, u', hc, hq⟩ := ih
    obtain ⟨hkind, rfl⟩ := hnode hq
    obtain ⟨o, ho, hparts⟩ := hc.target hkind
    have hchild : w ∈ o.children := by
      simpa [Heap.graph, Heap.children, hG _ _ ho] using hw
    obtain ⟨x, hx⟩ := hparts w hchild
    exact ⟨x, w, hx, hr⟩

/-! ### The claim about `deep_copy` -/

theorem faithful_deepCopy (R : Runtime) (h : Data w.heap v) :
    Faithful R w v ↔ ¬ HasInstance w.heap v := by
  obtain ⟨N, hN⟩ := deepCopy_spec (R := R) h.copyable
  constructor
  · rintro ⟨M, hM⟩
    obtain ⟨v', w', hrun, -, hcopy⟩ := hN (max N M) (le_max_left _ _) w (.refl _)
    obtain ⟨v'', w'', hrun', heq, -⟩ := hM (max N M) (le_max_right _ _)
    rw [hrun] at hrun'
    cases hrun'
    exact (hcopy.equal_iff (except_extends_self _ _) h).1 heq
  · intro hno
    refine ⟨N, fun n hn => ?_⟩
    obtain ⟨v', w', hrun, hext, hcopy⟩ := hN n hn w (.refl _)
    have hsub := except_extends_self w'.heap w.heap.dom
    refine ⟨v', w', hrun, hcopy.equal hsub h hno (.refl _) (.refl _), hext, fun p hp hmem => ?_⟩
    -- what the copy leads to is not among the old objects
    have hnew := hcopy.reach hsub hp
    rw [← Heap.mem_dom, Heap.except] at hnew
    simp [hmem] at hnew

theorem arrive_iff (R : Runtime) {list : Word} {vs : List Word} (hl : ListOf w.heap list vs)
    (hvs : ∀ v ∈ vs, Data w.heap v) (outside : ℤ → Word) (code_ptr : CodePtr) (args : Args)
    (closure : Option Word) : Arrive R w outside code_ptr args list vs closure ↔
      ∀ v ∈ vs, ¬ HasInstance w.heap v := by
  obtain ⟨N, hN⟩ := callListArgs_spec (R := R) hl (fun v hv => (hvs v hv).copyable) outside args
    code_ptr closure
  constructor
  · rintro ⟨M, hM⟩ v hv
    obtain ⟨K, us, rest, e, w', hrun, hspreads, heq⟩ := hM M le_rfl
    obtain ⟨u, hu⟩ := exists_zip_left hspreads.length hv
    exact ((hspreads.copies _ hu).equal_iff hspreads.keeps (hvs v hv)).1 (heq _ hu)
  · intro hno
    refine ⟨N, fun n hn => ?_⟩
    obtain ⟨K, us, rest, e, w', hrun, hspreads⟩ := hN n hn w (.refl _)
    refine ⟨K, us, rest, e, w', hrun, hspreads, fun x hx => ?_⟩
    have hmem : x.1 ∈ vs := (List.of_mem_zip hx).1
    exact (hspreads.copies x hx).equal hspreads.keeps (hvs _ hmem) (hno _ hmem) (.refl _) (.refl _)

/-- The elements of a list that is data. -/
theorem Data.elements {list : Word} {vs : List Word} (h : Data H list) (hl : ListOf H list vs) :
    ∀ v ∈ vs, Data H v := by
  induction vs generalizing list with
  | nil => nofun
  | cons v vs ih =>
    obtain ⟨hc, d, ho, hd⟩ := hl
    have hwords := h.words (immediate_of_heapp (by simp [heapp, hc])) ho
    exact List.forall_mem_cons.2 ⟨hwords v (by simp [Obj.words, Obj.children]),
      ih (hwords d (by simp [Obj.words, Obj.children])) hd⟩

theorem HasInstance.kind (h : HasInstance H v) : (heapp v || classp v) = true := by
  cases h with
  | here hv => simp [hv]
  | car hv => simp [heapp, hv]
  | cdr hv => simp [heapp, hv]
  | capture hv => simp [heapp, hv]

theorem hasInstance_list {list : Word} {vs : List Word} (hl : ListOf H list vs) :
    HasInstance H list ↔ ∃ v ∈ vs, HasInstance H v := by
  induction vs generalizing list with
  | nil =>
    obtain rfl : list = nil := hl
    refine ⟨fun h => ?_, fun ⟨v, hv, _⟩ => absurd hv List.not_mem_nil⟩
    cases h.kind
  | cons v vs ih =>
    obtain ⟨hc, d, ho, hd⟩ := hl
    have hheap : heapp list = true := by simp [heapp, hc]
    rw [List.exists_mem_cons_iff, ← ih hd]
    constructor
    · intro h
      cases h with
      | here hv =>
        rw [heapp_of_classp hv] at hheap
        cases hheap
      | car _ ho' hx =>
        rw [ho] at ho'
        cases ho'
        exact .inl hx
      | cdr _ ho' hy =>
        rw [ho] at ho'
        cases ho'
        exact .inr hy
      | capture _ ho' =>
        rw [ho] at ho'
        cases ho'
    · rintro (h | h)
      · exact .car hc ho h
      · exact .cdr hc ho h

/-- **`deep_copy` is faithful, and the arguments of a dynamic call arrive unaltered, exactly if** no
instance of a class is in the value. -/
theorem faithful_iff (R : Runtime) (h : Data w.heap v) :
    (Faithful R w v ↔ ¬ HasInstance w.heap v) ∧
      ∀ vs, ListOf w.heap v vs → ∀ outside code_ptr args closure,
        (Arrive R w outside code_ptr args v vs closure ↔ ¬ HasInstance w.heap v) := by
  refine ⟨faithful_deepCopy R h, fun vs hl outside code_ptr args closure => ?_⟩
  rw [arrive_iff R hl (h.elements hl), hasInstance_list hl]
  push Not
  rfl

/-- The list `(5)`. -/
theorem faithful_five : (Faithful .inert fiveWorld 17 ↔ ¬ HasInstance fiveWorld.heap 17) ∧
    ∀ vs, ListOf fiveWorld.heap 17 vs → ∀ outside code_ptr args closure,
      (Arrive .inert fiveWorld outside code_ptr args 17 vs closure ↔
        ¬ HasInstance fiveWorld.heap 17) :=
  have hdata : Data fiveWorld.heap 17 :=
    .cons (x := 20) (y := nil) (by decide) (by decide) (.immediate (by decide))
      (.immediate (by decide))
  faithful_iff .inert hdata

/-- An instance without members of the class that the symbol at 16 names. -/
def instanceWorld : World :=
  ⟨.ofList [(16, .text "point"), (32, .object 21 [])], fun _ => 0, 0, [], []⟩

/-- **An instance is replaced by `nil`.** -/
theorem not_faithful : ¬ ∀ (R : Runtime) (w : World) (v : Word), Data w.heap v →
    Faithful R w v := by
  intro h
  have ho : instanceWorld.heap.obj (pointer 34) = some (.object 21 []) := by decide
  have htype : Data instanceWorld.heap 21 := .text (s := "point") (.inl (by decide)) (by decide)
  have hdata : Data instanceWorld.heap 34 := .object (by decide) ho htype nofun
  exact (faithful_deepCopy .inert hdata).1 (h .inert instanceWorld 34 hdata) (.here (by decide))

end Copies

end Lisp

end Bluejay
