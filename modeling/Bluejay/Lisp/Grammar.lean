import Bluejay.Lisp.Numbers
import Bluejay.Lisp.Scanner

/-!
# The grammar of forms

* `Derives b text e rest` : the text starts with what is written for the tree `e`, or, if `b`, with
  the rest of a list up to its parenthesis; `rest` is left.
* `read1_of_derives`, `derives_of_read1` : `read1` accepts just these texts.
* `read1_iff` : and what it makes of them is the tree.
* `derives_text` : what `printval_ol` writes is one of the texts for a tree.

Behind the last entry of a list there may be reader macro characters without a form: `readn` takes
any failure for the end.  The character `\` before a closing `"` does not keep it from closing the
string, and is dropped.
-/

namespace Bluejay

namespace Lisp

/-! ### Strings -/

/-- What is between the quotation marks, and the string that it stands for. -/
inductive Escaped : List Char → List Char → Prop
  | nil : Escaped [] []
  | trailing : Escaped ['\\'] []
  | char {c : Char} {cs chars : List Char} (hquote : c ≠ '"') (hback : c ≠ '\\')
    (h : Escaped cs chars) : Escaped (c :: cs) (c :: chars)
  | escape {c : Char} {cs chars : List Char} (hquote : c ≠ '"') (h : Escaped cs chars) :
    Escaped ('\\' :: c :: cs) ((if c = 'n' then '\n' else c) :: chars)

theorem readstrLoop_of_escaped {cs chars : List Char} (h : Escaped cs chars) (rest : List Char) :
    readstrLoop false (cs ++ '"' :: rest) = some (chars, rest) := by
  induction h with
  | nil => simp [readstrLoop]
  | trailing => simp [readstrLoop]
  | char hquote hback _ ih => simp [readstrLoop, hquote, hback, ih]
  | escape hquote _ ih => simp [readstrLoop, hquote, ih]

/-- What the loop of `readstr` accepts, behind a `\` or not. -/
theorem escaped_of_readstrLoop {cs chars rest : List Char} : ∀ {escape : Bool},
    readstrLoop escape cs = some (chars, rest) → ∃ body, cs = body ++ '"' :: rest ∧
      Escaped (if escape then '\\' :: body else body) chars := by
  induction cs generalizing chars with
  | nil => intro escape h; cases h
  | cons c cs ih =>
    intro escape h
    by_cases hquote : c = '"'
    · subst hquote
      obtain ⟨rfl, rfl⟩ : [] = chars ∧ cs = rest := by simpa [readstrLoop] using h
      cases escape
      · exact ⟨[], rfl, .nil⟩
      · exact ⟨[], rfl, .trailing⟩
    · cases escape with
      | false =>
        by_cases hback : c = '\\'
        · subst hback
          have hloop : readstrLoop true cs = some (chars, rest) := by
            simpa [readstrLoop] using h
          obtain ⟨body, rfl, hbody⟩ := ih hloop
          exact ⟨'\\' :: body, rfl, hbody⟩
        · obtain ⟨chars', hloop, rfl⟩ : ∃ chars', readstrLoop false cs = some (chars', rest) ∧
              c :: chars' = chars := by
            simpa [readstrLoop, hquote, hback] using h
          obtain ⟨body, rfl, hbody⟩ := ih hloop
          exact ⟨c :: body, rfl, .char hquote hback hbody⟩
      | true =>
        obtain ⟨chars', hloop, rfl⟩ : ∃ chars', readstrLoop false cs = some (chars', rest) ∧
            (if c = 'n' then '\n' else c) :: chars' = chars := by
          simpa [readstrLoop, hquote] using h
        obtain ⟨body, rfl, hbody⟩ := ih hloop
        exact ⟨c :: body, rfl, .escape hquote hbody⟩

/-! ### Forms -/

/-- The integer that `readint` makes of the digits. -/
def digitsValue (ds : List Char) : Word := intval (u32 (Nat.ofDigitChars 10 ds 0) : ℕ)

/-- What a text starts with, and what is left of it: a form, or the rest of a list. -/
inductive Derives : Bool → List Char → Sexp → List Char → Prop
  | blank {blank cs rest : List Char} {e : Sexp} (h : Blank blank) (he : Derives false cs e rest) :
    Derives false (blank ++ cs) e rest
  | symbol {c : Char} {cs rest : List Char} (hc : kind c = .symbol) (hcs : ∀ d ∈ cs, issym d = true)
    (hrest : ∀ d ∈ rest.head?, issym d = false) :
    Derives false (c :: (cs ++ rest)) (.symbol (String.ofList (c :: cs))) rest
  | string {cs chars rest : List Char} (h : Escaped cs chars) :
    Derives false ('"' :: (cs ++ '"' :: rest)) (.string (String.ofList chars)) rest
  | integer {ds rest : List Char} (hne : ds ≠ []) (hds : ∀ d ∈ ds, d.isDigit = true)
    (hrest : ∀ d ∈ rest.head?, d.isDigit = false) :
    Derives false (ds ++ rest) (.atom (digitsValue ds)) rest
  | quote {c : Char} {cs rest : List Char} {name : String} {e : Sexp} (hc : c ∈ quoteChars)
    (hname : readerMacro (quoteChar c cs).1 = some name)
    (he : Derives false (quoteChar c cs).2 e rest) :
    Derives false (c :: cs) (.list [.symbol name, e]) rest
  | list {cs rest : List Char} {e : Sexp} (h : Derives true cs e rest) :
    Derives false ('(' :: cs) e rest
  | nil {cs rest : List Char} (h : Formless cs (')' :: rest)) :
    Derives true cs (.atom Lisp.nil) rest
  | cons {cs mid rest : List Char} {a d : Sexp} (ha : Derives false cs a mid)
    (hd : Derives true mid d rest) : Derives true cs (.cons a d) rest

/-- What a text consists of, with white space and comments behind the last form. -/
inductive Contents : List Char → List Sexp → Prop
  | ended {text : List Char} (h : Blank text) : Contents text []
  | form {text rest : List Char} {e : Sexp} {es : List Sexp} (h : Derives false text e rest)
    (hs : Contents rest es) : Contents text (e :: es)

/-! ### Texts that are read -/

section Complete

variable {R : Runtime} {n : ℕ} {w : World} {cs rest : List Char} {e a d : Sexp}

/-- `read1` takes the text up to `rest` for the tree `e`, which it makes of new objects. -/
def ReadsForm (R : Runtime) (cs rest : List Char) (e : Sexp) : Prop :=
  ∃ N, ∀ n ≥ N, ∀ w : World, ∃ v w', read1 R n ⟨cs, w⟩ = some (.ok v, ⟨rest, w'⟩) ∧
    w.heap.Extends w'.heap ∧ Represents (w'.heap.except w.heap.dom) v e

/-- `readn` takes the text up to a parenthesis for the list `e`. -/
def ReadsList (R : Runtime) (cs rest : List Char) (e : Sexp) : Prop :=
  ∃ N, ∀ n ≥ N, ∀ m ≥ N, ∀ w : World, ∃ v w',
    readn R (read1 R n) m ⟨cs, w⟩ = some (v, ⟨')' :: rest, w'⟩) ∧
    w.heap.Extends w'.heap ∧ Represents (w'.heap.except w.heap.dom) v e

/-- The loop of `readn` takes it for what comes behind the cell `last`. -/
def ReadsRest (R : Runtime) (cs rest : List Char) (e : Sexp) : Prop :=
  ∃ N, ∀ n ≥ N, ∀ m ≥ N, ∀ (w : World) (first last x : Word), consp last →
    w.heap.obj (pointer last) = some (.cons x nil) → ∃ r w',
      readnLoop R (read1 R n) m first (some last) ⟨cs, w⟩ = some (first, ⟨')' :: rest, w'⟩) ∧
      (∀ p o, p ≠ pointer last → w.heap.obj p = some o → w'.heap.obj p = some o) ∧
      w'.heap.obj (pointer last) = some (.cons x r) ∧ Represents (w'.heap.except w.heap.dom) r e

theorem read1_blank {blank : List Char} (h : Blank blank) :
    read1 R n ⟨blank ++ cs, w⟩ = read1 R n ⟨cs, w⟩ := by
  have hskip := skipws_blank h cs
  cases hcs : skipws false cs with
  | none => rw [read1_endless (s := ⟨cs, w⟩) hcs, read1_endless (s := ⟨blank ++ cs, w⟩) (hskip.trans hcs)]
  | some input =>
    rw [read1_skip (s := ⟨cs, w⟩) hcs, read1_skip (s := ⟨blank ++ cs, w⟩) (hskip.trans hcs)]

theorem readintLoop_digits {ds : List Char} (hds : ∀ c ∈ ds, c.isDigit = true)
    (hrest : ∀ c ∈ rest.head?, c.isDigit = false) {k : ℕ} (hk : k < 2 ^ 32) :
    readintLoop k (ds ++ rest) = (u32 (Nat.ofDigitChars 10 ds k), rest) := by
  induction ds generalizing k with
  | nil =>
    rw [List.nil_append, Nat.ofDigitChars_nil, u32_of_lt hk]
    cases rest with
    | nil => rfl
    | cons c rest => simp [readintLoop, hrest c rfl]
  | cons c ds ih =>
    obtain ⟨hc, hds⟩ := List.forall_mem_cons.1 hds
    rw [List.cons_append, readintLoop, if_pos hc, ih hds (u32_lt _), u32_ofDigitChars,
      Nat.ofDigitChars_cons, Nat.mul_comm]

/-! Tokens. -/

theorem readsForm_symbol {c : Char} (hc : kind c = .symbol) (hcs : ∀ d ∈ cs, issym d = true)
    (hrest : ∀ d ∈ rest.head?, issym d = false) :
    ReadsForm R (c :: (cs ++ rest)) rest (.symbol (String.ofList (c :: cs))) := by
  have hhas := kind_has c
  rw [hc] at hhas
  have hdelimited : Delimited rest := fun d hd => by
    have hsym := hrest d hd
    simp only [issym, Bool.or_eq_false_iff] at hsym
    exact ⟨hrest d hd, hsym.2⟩
  refine ⟨1, fun n hn w => ?_⟩
  obtain ⟨n, rfl⟩ := Nat.exists_eq_succ_of_ne_zero (Nat.ne_zero_of_lt hn)
  obtain ⟨v, w', hread, hext, ht, ho⟩ := allocate_reads R w rest
    (.text (String.ofList (c :: cs))) (k := symbolTag) (by decide)
  refine ⟨v, w', ?_, hext, decide_eq_true ht, ho⟩
  rw [read1, okayIf_expected (readquote_expected (starts_of_issymstart hhas.2) hhas.1)]
  refine okayIf_ok ?_
  rw [readsym_append R w hhas.2 hcs hdelimited, hread]

theorem readsForm_string {chars : List Char} (h : Escaped cs chars) :
    ReadsForm R ('"' :: (cs ++ '"' :: rest)) rest (.string (String.ofList chars)) := by
  refine ⟨1, fun n hn w => ?_⟩
  obtain ⟨n, rfl⟩ := Nat.exists_eq_succ_of_ne_zero (Nat.ne_zero_of_lt hn)
  obtain ⟨v, w', hread, hext, ht, ho⟩ := allocate_reads R w rest
    (.text (String.ofList chars)) (k := stringTag) (by decide)
  refine ⟨v, w', ?_, hext, decide_eq_true ht, ho⟩
  rw [read1_string, readstrLoop_of_escaped h, Option.bind_some, hread]

theorem readsForm_integer {ds : List Char} (hne : ds ≠ []) (hds : ∀ d ∈ ds, d.isDigit = true)
    (hrest : ∀ d ∈ rest.head?, d.isDigit = false) :
    ReadsForm R (ds ++ rest) rest (.atom (digitsValue ds)) := by
  refine ⟨1, fun n hn w => ⟨digitsValue ds, w, ?_, .refl _, rfl, .inl (integerp_intval _)⟩⟩
  obtain ⟨n, rfl⟩ := Nat.exists_eq_succ_of_ne_zero (Nat.ne_zero_of_lt hn)
  have hloop := readintLoop_digits hds hrest (k := 0) (by decide)
  obtain ⟨c, cs, rfl⟩ := List.exists_cons_of_ne_nil hne
  obtain ⟨hstart, hquote, hsym, hstr⟩ := isDigit_starts (hds c List.mem_cons_self)
  rw [List.cons_append] at hloop ⊢
  rw [read1, okayIf_expected (readquote_expected hstart hquote),
    okayIf_expected (readsym_expected hstart hsym), okayIf_expected (readstr_expected hstart hstr)]
  refine okayIf_ok ?_
  simp only [readint, skipws_of_head hstart.1 hstart.2, Option.bind_eq_bind, Option.bind_some,
    List.head?_cons, Option.map_some, hds c List.mem_cons_self, Option.getD_some, if_true, hloop,
    digitsValue]

/-! Lists. -/

/-- A new object. -/
theorem allocate_ok (R : Runtime) (w : World) (o : Obj) {k : ℕ} (hk : k < 8) : ∃ v w',
    w.allocate R o k = (v, w') ∧ tag v = k ∧ pointer v ∉ w.heap.dom ∧
      w'.heap = w.heap.set (pointer v) o ∧ w.heap.Extends w'.heap := by
  obtain ⟨ht, hv, hheap⟩ := allocate_spec R w o hk
  obtain ⟨v, w', hw'⟩ : ∃ v w', w.allocate R o k = (v, w') := ⟨_, _, rfl⟩
  rw [hw'] at ht hv hheap
  refine ⟨v, w', hw', ht, hv, hheap, ?_⟩
  rw [show w'.heap = _ from hheap]
  exact .set hv _

theorem readsList_nil (h : Formless cs (')' :: rest)) : ReadsList R cs rest (.atom nil) := by
  obtain ⟨N, hN⟩ := safe_of_formless R h
  refine ⟨N + 1, fun n hn m hm w => ⟨nil, w, ?_, .refl _, rfl, .inr rfl⟩⟩
  obtain ⟨m, rfl⟩ := Nat.exists_eq_succ_of_ne_zero (Nat.ne_zero_of_lt hm)
  obtain ⟨err, -, hread⟩ := hN n (by omega) w
  simp [readn, readnLoop, hread]

theorem readsRest_nil (h : Formless cs (')' :: rest)) : ReadsRest R cs rest (.atom nil) := by
  obtain ⟨N, hN⟩ := safe_of_formless R h
  refine ⟨N + 1, fun n hn m hm w first last x _ hlast =>
    ⟨nil, w, ?_, fun _ _ _ => id, hlast, rfl, .inr rfl⟩⟩
  obtain ⟨m, rfl⟩ := Nat.exists_eq_succ_of_ne_zero (Nat.ne_zero_of_lt hm)
  obtain ⟨err, -, hread⟩ := hN n (by omega) w
  simp [readnLoop, hread]

/-- The first entry of a list. -/
theorem readsList_cons {mid : List Char} (ha : ReadsForm R cs mid a) (hd : ReadsRest R mid rest d) :
    ReadsList R cs rest (.cons a d) := by
  obtain ⟨N, hN⟩ := ha
  obtain ⟨M, hM⟩ := hd
  refine ⟨N + M + 1, fun n hn m hm w => ?_⟩
  obtain ⟨m, rfl⟩ := Nat.exists_eq_succ_of_ne_zero (Nat.ne_zero_of_lt hm)
  obtain ⟨v, w₁, hv, hext, hrep⟩ := hN n (by omega) w
  obtain ⟨cell, w₂, hw₂, ht, hcell, hheap, hext₂⟩ := allocate_ok R w₁ (.cons v nil)
    (k := consTag) (by decide)
  have hc : consp cell := decide_eq_true ht
  obtain ⟨r, w', hloop, hkeep, hobj, hr⟩ := hM n (by omega) m (by omega) w₂ cell cell v hc
    (by rw [hheap, obj_set])
  refine ⟨cell, w', ?_, fun p o hp => ?_, ?_⟩
  · simp [readn, readnLoop, hv, hw₂, hloop]
  · have hp₂ := hext.trans hext₂ p o hp
    refine hkeep p o ?_ hp₂
    rintro rfl
    exact hcell ((w₁.heap.mem_dom _).1 (by rw [hext _ _ hp]; rfl))
  · exact represents_cell hc hcell hext hrep hr (hext.trans hext₂).dom_subset hobj
      fun p o _ hne ho => hkeep p o hne (hext₂ p o ho)

/-- An entry behind another. -/
theorem readsRest_cons {mid : List Char} (ha : ReadsForm R cs mid a) (hd : ReadsRest R mid rest d) :
    ReadsRest R cs rest (.cons a d) := by
  obtain ⟨N, hN⟩ := ha
  obtain ⟨M, hM⟩ := hd
  refine ⟨N + M + 1, fun n hn m hm w first last x hc hlast => ?_⟩
  obtain ⟨m, rfl⟩ := Nat.exists_eq_succ_of_ne_zero (Nat.ne_zero_of_lt hm)
  obtain ⟨v, w₁, hv, hext, hrep⟩ := hN n (by omega) w
  obtain ⟨cell, w₂, hw₂, ht, hcell, hheap, hext₂⟩ := allocate_ok R w₁ (.cons v nil)
    (k := consTag) (by decide)
  have hcons : consp cell := decide_eq_true ht
  -- the cell before gets the new one for its `cdr`
  have hlast₂ : w₂.heap.obj (pointer last) = some (.cons x nil) := hext₂ _ _ (hext _ _ hlast)
  have hmem : pointer last ∈ w.heap.dom := (w.heap.mem_dom _).1 (by rw [hlast]; rfl)
  have hcl : pointer cell ≠ pointer last := fun h => hcell (hext.dom_subset (h ▸ hmem))
  have hset : (w₂.setCdr last cell).heap = w₂.heap.set (pointer last) (.cons x cell) := by
    simp [World.setCdr, Heap.car, hc, hlast₂]
  have hset_ne : ∀ p o, p ≠ pointer last → w₂.heap.obj p = some o →
      (w₂.setCdr last cell).heap.obj p = some o := fun p o hp ho => by
    rw [hset, Heap.set]
    exact (Function.update_of_ne hp _ _).trans ho
  obtain ⟨r, w', hloop, hkeep, hobj, hr⟩ := hM n (by omega) m (by omega) (w₂.setCdr last cell)
    first cell v hcons (hset_ne _ _ hcl (by rw [hheap, obj_set]))
  have hsub : w.heap.dom ⊆ (w₂.setCdr last cell).heap.dom := by
    rw [hset]
    exact (hext.trans hext₂).dom_subset.trans (Finset.subset_insert _ _)
  refine ⟨cell, w', ?_, fun p o hp ho => ?_, ?_, ?_⟩
  · simp [readnLoop, hv, hw₂, hloop]
  · refine hkeep p o ?_ (hset_ne p o hp (hext₂ p o (hext p o ho)))
    rintro rfl
    exact hcell ((w₁.heap.mem_dom _).1 (by rw [hext _ _ ho]; rfl))
  · exact hkeep _ _ hcl.symm (by rw [hset, obj_set])
  · refine represents_cell hcons hcell hext hrep hr hsub hobj fun p o hp hne ho => ?_
    exact hkeep p o hne (hset_ne p o (fun h => hp (h ▸ hmem)) (hext₂ p o ho))

theorem readsForm_list (h : ReadsList R cs rest e) : ReadsForm R ('(' :: cs) rest e := by
  obtain ⟨N, hN⟩ := h
  refine ⟨N + 1, fun n hn w => ?_⟩
  obtain ⟨n, rfl⟩ := Nat.exists_eq_succ_of_ne_zero (Nat.ne_zero_of_lt hn)
  obtain ⟨v, w', hread, hext, hrep⟩ := hN n (by omega) n (by omega) w
  refine ⟨v, w', ?_, hext, hrep⟩
  have hopen : Starts '(' := ⟨by decide, by decide⟩
  have hclose : Starts ')' := ⟨by decide, by decide⟩
  rw [read1_list]
  simp [readlist, skipws_of_head hopen.1 hopen.2, hread, skipws_of_head hclose.1 hclose.2]

/-- A reader macro character makes a list of two. -/
theorem readsForm_quote {c : Char} {name : String} (hc : c ∈ quoteChars)
    (hname : readerMacro (quoteChar c cs).1 = some name)
    (he : ReadsForm R (quoteChar c cs).2 rest e) :
    ReadsForm R (c :: cs) rest (.list [.symbol name, e]) := by
  obtain ⟨N, hN⟩ := he
  refine ⟨N + 1, fun n hn w => ?_⟩
  obtain ⟨n, rfl⟩ := Nat.exists_eq_succ_of_ne_zero (Nat.ne_zero_of_lt hn)
  obtain ⟨v, w₁, hv, hext, hrep⟩ := hN n (by omega) w
  obtain ⟨sym, w₂, hw₂, hsym, hsymnew, hheap₂, hext₂⟩ := allocate_ok R w₁ (.text name)
    (k := symbolTag) (by decide)
  obtain ⟨tail, w₃, hw₃, htail, htailnew, hheap₃, hext₃⟩ := allocate_ok R w₂ (.cons v nil)
    (k := consTag) (by decide)
  obtain ⟨cell, w₄, hw₄, hcell, hcellnew, hheap₄, hext₄⟩ := allocate_ok R w₃ (.cons sym tail)
    (k := consTag) (by decide)
  have hext' : w.heap.Extends w₄.heap := hext.trans (hext₂.trans (hext₃.trans hext₄))
  have hstart := starts_of_mem_quoteChars hc
  have hmem : (c = '\'' || c = '`' || c = ',' || c = '#') = true := by
    simpa [quoteChars, or_assoc] using hc
  have hquote : readquote R (read1 R n) ⟨c :: cs, w⟩ = some (.ok cell, ⟨rest, w₄⟩) := by
    simp only [readquote, skipws_of_head hstart.1 hstart.2, Option.bind_eq_bind, Option.bind_some,
      hmem, if_true, hv, hname, hw₂, hw₃, hw₄, Reading.allocate]
  refine ⟨cell, w₄, ?_, hext', ?_⟩
  · rw [read1]
    exact okayIf_ok hquote
  · -- the objects are new, since memory has only grown
    have hnew : ∀ {H : Heap} {q : ℕ}, w.heap.Extends H → q ∉ H.dom → q ∉ w.heap.dom :=
      fun h hq hmem => hq (h.dom_subset hmem)
    have hobj : ∀ {q o}, q ∉ w.heap.dom → w₄.heap.obj q = some o →
        (w₄.heap.except w.heap.dom).obj q = some o := fun hq ho => by simp [Heap.except, hq, ho]
    have hv₄ : Represents (w₄.heap.except w.heap.dom) v e :=
      represents_extends (Heap.except_extends subset_rfl fun q o _ ho =>
        hext₄ q o (hext₃ q o (hext₂ q o ho))) e hrep
    refine ⟨decide_eq_true hcell, sym, tail, hobj (hnew (hext.trans (hext₂.trans hext₃)) hcellnew) ?_,
      ⟨decide_eq_true hsym, hobj (hnew hext hsymnew) ?_⟩, decide_eq_true htail, v, nil,
      hobj (hnew (hext.trans hext₂) htailnew) ?_, hv₄, rfl, .inr rfl⟩
    · rw [hheap₄, obj_set]
    · exact hext₄ _ _ (hext₃ _ _ (by rw [hheap₂, obj_set]))
    · exact hext₄ _ _ (by rw [hheap₃, obj_set])

theorem reads_of_derives (R : Runtime) {b : Bool} (h : Derives b cs e rest) :
    if b then ReadsList R cs rest e ∧ ReadsRest R cs rest e else ReadsForm R cs rest e := by
  induction h with
  | blank hblank _ ih =>
    obtain ⟨N, hN⟩ := ih
    refine ⟨N, fun n hn w => ?_⟩
    rw [read1_blank hblank]
    exact hN n hn w
  | symbol hc hcs hrest => exact readsForm_symbol hc hcs hrest
  | string h => exact readsForm_string h
  | integer hne hds hrest => exact readsForm_integer hne hds hrest
  | quote hc hname _ ih => exact readsForm_quote hc hname ih
  | list _ ih => exact readsForm_list ih.1
  | nil h => exact ⟨readsList_nil h, readsRest_nil h⟩
  | cons _ _ iha ihd => exact ⟨readsList_cons iha ihd.2, readsRest_cons iha ihd.2⟩

/-- What the grammar allows is read. -/
theorem read1_of_derives (R : Runtime) (h : Derives false cs e rest) : ReadsForm R cs rest e :=
  reads_of_derives R h

end Complete

/-! ### Texts that are read, and no others -/

section Sound

variable {R : Runtime} {n m : ℕ} {s s' : Reading} {cs rest : List Char} {v : Word}

/-- What `read1` does where a form starts with the character `c`. -/
inductive FirstChar (R : Runtime) (n : ℕ) (c : Char) (cs : List Char) (w : World) :
    Except ReadError Word → Reading → Prop
  | symbol {v : Word} {w' : World} (hc : kind c = .symbol) :
    FirstChar R n c cs w (.ok v) ⟨cs.dropWhile issym, w'⟩
  | string {v : Word} {w' : World} {chars rest : List Char} (hc : c = '"')
    (h : readstrLoop false cs = some (chars, rest)) : FirstChar R n c cs w (.ok v) ⟨rest, w'⟩
  | integer {v : Word} (hc : c.isDigit = true) :
    FirstChar R n c cs w (.ok v) ⟨(readintLoop 0 (c :: cs)).2, w⟩
  | list {r : Except ReadError Word} {s' : Reading} (hc : c = '(')
    (h : readlist R (read1 R n) n ⟨'(' :: cs, w⟩ = some (r, s')) : FirstChar R n c cs w r s'
  | quote {v v' : Word} {s' : Reading} {w' : World} (hc : c ∈ quoteChars)
    (h : read1 R n ⟨(quoteChar c cs).2, w⟩ = some (.ok v, s')) :
    FirstChar R n c cs w (.ok v') ⟨s'.input, w'⟩
  | stray {e e' : ReadError} {s' : Reading} (hc : c ∈ quoteChars)
    (h : read1 R n ⟨(quoteChar c cs).2, w⟩ = some (.error e, s'))
    (he : e'.safeState = e.safeState) : FirstChar R n c cs w (.error e') s'

/-- Where reading fails nothing starts. -/
theorem blocked_of_error {e : ReadError} (h : read1 R n s = some (.error e, s')) :
    Blocked s'.input := by
  have hmore := read1_mono R (Nat.le_add_right n (s.input.length + 1)) s _ h
  have htracks := read1_tracks R (n + (s.input.length + 1)) s (by omega)
  rw [hmore] at htracks
  exact htracks.2.1

/-- `read1` skips white space and comments, and looks at one character. -/
theorem read1_cases {r : Except ReadError Word} (h : read1 R (n + 1) s = some (r, s')) :
    ∃ blank input, Blank blank ∧ s.input = blank ++ input ∧
      (Blocked input ∧ r = .error ⟨.expected, true, ""⟩ ∧ s' = ⟨input, s.world⟩ ∨
        ∃ c cs, input = c :: cs ∧ FirstChar R n c cs s.world r s') := by
  cases hskip : skipws false s.input with
  | none => rw [read1_endless hskip] at h; cases h
  | some input =>
    obtain ⟨hstop, blank, hblank, hinput⟩ := skipws_eq_some_iff.1 hskip
    refine ⟨blank, input, hblank, hinput, ?_⟩
    rw [read1_skip hskip] at h
    by_cases hblocked : Blocked input
    · rw [read1_blocked hblocked] at h
      cases h
      exact .inl ⟨hblocked, rfl, rfl⟩
    · cases input with
      | nil => exact absurd blocked_nil hblocked
      | cons c cs =>
        refine .inr ⟨c, cs, rfl, ?_⟩
        have hhas := kind_has c
        cases hk : kind c <;> rw [hk] at hhas
        case quote =>
          have hread := @read1_quote R n s.world _ cs hhas
          cases hr : read1 R n ⟨(quoteChar c cs).2, s.world⟩ with
          | none => rw [hr] at hread; rw [hread] at h; cases h
          | some r₁ =>
            obtain ⟨e₁ | v, s₁⟩ := r₁
            · rw [hr] at hread
              obtain ⟨e₂, hsafe, hread⟩ := hread fun _ => blocked_of_error hr
              rw [hread] at h
              cases h
              exact .stray hhas hr hsafe
            · rw [hr] at hread
              obtain ⟨v', w', hread⟩ := hread
              rw [hread] at h
              cases h
              exact .quote hhas hr
        case symbol =>
          obtain ⟨v, w', hread⟩ := @read1_symbol R n s.world _ cs hk
          rw [hread] at h
          cases h
          exact .symbol hk
        case string =>
          obtain rfl : c = '"' := hhas
          rw [read1_string] at h
          cases hl : readstrLoop false cs with
          | none => rw [hl] at h; cases h
          | some l =>
            rw [hl] at h
            cases h
            exact .string rfl hl
        case integer =>
          obtain ⟨v, hread⟩ := @read1_integer R n s.world _ cs hhas
          rw [hread] at h
          cases h
          exact .integer hhas
        case list =>
          obtain rfl : c = '(' := hhas
          rw [read1_list] at h
          exact .list rfl h
        case other => exact absurd (blocked_cons.2 ⟨stops_cons.1 hstop, hk⟩) hblocked

/-- How a list is read: its entries, and a parenthesis or not. -/
theorem readlist_cases {rec : Reading → ReadResult} {w : World} {r : Except ReadError Word}
    (h : readlist R rec n ⟨'(' :: cs, w⟩ = some (r, s')) : ∃ v s₁ input,
      readn R rec n ⟨cs, w⟩ = some (v, s₁) ∧ skipws false s₁.input = some input ∧
      ((∃ rest, input = ')' :: rest ∧ r = .ok v ∧ s' = ⟨rest, s₁.world⟩) ∨
        input.head? ≠ some ')' ∧ s'.input = input ∧ ∃ e, r = .error e) := by
  have hopen : Starts '(' := by decide
  simp only [readlist, skipws_of_head hopen.1 hopen.2, Option.bind_eq_bind, Option.bind_some,
    List.head?_cons, if_true, List.tail_cons, Option.bind_eq_some_iff] at h
  obtain ⟨⟨v, s₁⟩, hn, input, hskip, h⟩ := h
  refine ⟨v, s₁, input, hn, hskip, ?_⟩
  split_ifs at h with hclose
  · obtain ⟨rest, rfl⟩ := List.head?_eq_some_iff.1 hclose
    cases h
    exact .inl ⟨rest, rfl, rfl, rfl⟩
  · cases h
    exact .inr ⟨hclose, rfl, _, rfl⟩

/-- At a parenthesis reading fails in a safe state. -/
theorem safe_of_close {e : ReadError} (h : read1 R n s = some (.error e, s'))
    (hclose : s'.input.head? = some ')') : e.safeState = true := by
  induction n generalizing s e s' with
  | zero => cases h
  | succ n ih =>
    obtain ⟨blank, input, -, -, ⟨-, he, -⟩ | ⟨c, cs, -, hc⟩⟩ := read1_cases h
    · cases he
      rfl
    · cases hc with
      | list _ hlist =>
        obtain ⟨v, s₁, input, -, -, ⟨rest, -, hr, -⟩ | ⟨hno, hinput, -⟩⟩ := readlist_cases hlist
        · cases hr
        · exact absurd (hinput ▸ hclose) hno
      | stray _ hr he => exact he.trans (ih hr hclose)

/-- The loop of `readn` gets to a parenthesis only behind the rest of a list. -/
theorem derives_of_readnLoop
    (hread : ∀ {s s' : Reading} {v : Word}, read1 R n s = some (.ok v, s') →
      ∃ e, Derives false s.input e s'.input)
    {first : Word} {last : Option Word} (h : readnLoop R (read1 R n) m first last s = some (v, s'))
    (hclose : skipws false s'.input = some (')' :: rest)) :
    ∃ e, Derives true s.input e rest := by
  induction m generalizing s first last with
  | zero => cases h
  | succ m ih =>
    obtain ⟨⟨r, s₁⟩, hr, h⟩ := Option.bind_eq_some_iff.1 h
    cases r with
    | error e =>
      obtain ⟨-, rfl⟩ : first = v ∧ s₁ = s' := by simpa using h
      have hstop := skipws_of_stops (blocked_of_error hr).stops
      obtain hinput : s₁.input = ')' :: rest := Option.some.inj (hstop.symm.trans hclose)
      have hform := (formless_of_safe hr (safe_of_close hr (by rw [hinput]; rfl))).1
      rw [hinput] at hform
      exact ⟨_, .nil hform⟩
    | ok a =>
      obtain ⟨e, he⟩ := hread hr
      have hnext : ∀ {w : World} {first : Word} {last : Option Word},
          readnLoop R (read1 R n) m first last ⟨s₁.input, w⟩ = some (v, s') →
            ∃ d, Derives true s₁.input d rest := fun {w} {_ _} h => ih (s := ⟨s₁.input, w⟩) h
      obtain ⟨d, hd⟩ : ∃ d, Derives true s₁.input d rest := by
        cases last with
        | none => exact hnext h
        | some last => exact hnext h
      exact ⟨_, .cons he hd⟩

theorem forall_takeWhile (f : Char → Bool) (cs : List Char) : ∀ d ∈ cs.takeWhile f, f d = true :=
  List.all_eq_true.1 List.all_takeWhile

theorem head?_dropWhile (f : Char → Bool) (cs : List Char) :
    ∀ d ∈ (cs.dropWhile f).head?, f d = false := by
  intro d hd
  have hhead := List.head?_dropWhile_not f cs
  rw [Option.mem_def.1 hd] at hhead
  exact hhead

theorem exists_readerMacro {c : Char} (cs : List Char) (hc : c ∈ quoteChars) :
    ∃ name, readerMacro (quoteChar c cs).1 = some name := by
  refine Option.isSome_iff_exists.1 ?_
  unfold quoteChar
  split_ifs with h₁ h₂
  · rfl
  all_goals
    exact (forall_quoteChars fun c => (readerMacro c).isSome).2 ⟨rfl, rfl, rfl, rfl⟩ c hc

/-- What is read is in the grammar. -/
theorem derives_of_read1 (h : read1 R n s = some (.ok v, s')) :
    ∃ e, Derives false s.input e s'.input := by
  induction n generalizing s v s' with
  | zero => cases h
  | succ n ih =>
    obtain ⟨blank, input, hblank, hinput, ⟨-, he, -⟩ | ⟨c, cs, rfl, hc⟩⟩ := read1_cases h
    · cases he
    · rw [hinput]
      suffices hform : ∃ e, Derives false (c :: cs) e s'.input from
        hform.imp fun _ he => .blank hblank he
      clear h
      cases hc with
      | symbol hc =>
        have hform := Derives.symbol hc (forall_takeWhile issym cs) (head?_dropWhile issym cs)
        rw [List.takeWhile_append_dropWhile] at hform
        exact ⟨_, hform⟩
      | string hc h =>
        subst hc
        obtain ⟨body, rfl, hbody⟩ := escaped_of_readstrLoop h
        exact ⟨_, .string hbody⟩
      | integer hc =>
        have hne : (c :: cs).takeWhile Char.isDigit ≠ [] := by simp [hc]
        have hform := Derives.integer hne (forall_takeWhile Char.isDigit _)
          (head?_dropWhile Char.isDigit (c :: cs))
        rw [List.takeWhile_append_dropWhile] at hform
        rw [readintLoop_snd]
        exact ⟨_, hform⟩
      | list hc h =>
        subst hc
        obtain ⟨v, s₁, input, hn, hskip, ⟨rest, rfl, -, rfl⟩ | ⟨-, -, e, he⟩⟩ := readlist_cases h
        · obtain ⟨e, he⟩ := derives_of_readnLoop ih hn hskip
          exact ⟨e, .list he⟩
        · cases he
      | quote hc h =>
        obtain ⟨e, he⟩ := ih h
        obtain ⟨name, hname⟩ := exists_readerMacro cs hc
        exact ⟨_, .quote hc hname he⟩

end Sound

/-! ### The tree of a text -/

section Unique

variable {H : Heap} {v : Word} {cs rest : List Char} {e : Sexp}

/-- Which constructor of a tree the tag of a value belongs to. -/
def treeKind (v : Word) : ℕ :=
  if tag v = symbolTag then 1 else if tag v = stringTag then 2 else if tag v = consTag then 3
  else if tag v = closureTag then 4 else 0

theorem ctorIdx_of_represents (hv : Represents H v e) : e.ctorIdx = treeKind v := by
  cases e with
  | atom w =>
    obtain ⟨-, hw | rfl⟩ := hv
    · rcases tag_of_integerp hw with h8 | h8 <;> rw [treeKind, h8] <;> rfl
    · rfl
  | symbol s =>
    have h8 : tag v = symbolTag := of_decide_eq_true hv.1
    rw [treeKind, h8]
    rfl
  | string s =>
    have h8 : tag v = stringTag := of_decide_eq_true hv.1
    rw [treeKind, h8]
    rfl
  | cons a d =>
    have h8 : tag v = consTag := of_decide_eq_true hv.1
    rw [treeKind, h8]
    rfl
  | closure args f d =>
    have h8 : tag v = closureTag := of_decide_eq_true hv.1
    rw [treeKind, h8]
    rfl

mutual

/-- A value is one tree at most. -/
theorem represents_unique : ∀ (e : Sexp) {e' : Sexp} {v : Word}, Represents H v e →
    Represents H v e' → e = e'
  | .atom w, e', v, hv, hv' => by
    cases e' with
    | atom w' => rw [← hv.1, hv'.1]
    | _ => exact absurd ((ctorIdx_of_represents hv).trans (ctorIdx_of_represents hv').symm) nofun
  | .symbol s, e', v, hv, hv' => by
    cases e' with
    | symbol s' =>
      cases hv.2.symm.trans hv'.2
      rfl
    | _ => exact absurd ((ctorIdx_of_represents hv).trans (ctorIdx_of_represents hv').symm) nofun
  | .string s, e', v, hv, hv' => by
    cases e' with
    | string s' =>
      cases hv.2.symm.trans hv'.2
      rfl
    | _ => exact absurd ((ctorIdx_of_represents hv).trans (ctorIdx_of_represents hv').symm) nofun
  | .cons a d, e', v, hv, hv' => by
    cases e' with
    | cons a' d' =>
      obtain ⟨-, x, y, ho, hx, hy⟩ := hv
      obtain ⟨-, x', y', ho', hx', hy'⟩ := hv'
      cases ho.symm.trans ho'
      rw [represents_unique a hx hx', represents_unique d hy hy']
    | _ => exact absurd ((ctorIdx_of_represents hv).trans (ctorIdx_of_represents hv').symm) nofun
  | .closure args f d, e', v, hv, hv' => by
    cases e' with
    | closure args' f' d' =>
      obtain ⟨-, data, ho, hd⟩ := hv
      obtain ⟨-, data', ho', hd'⟩ := hv'
      cases ho.symm.trans ho'
      rw [representsAll_unique d hd hd']
    | _ => exact absurd ((ctorIdx_of_represents hv).trans (ctorIdx_of_represents hv').symm) nofun

theorem representsAll_unique : ∀ (e : Sexp) {e' : Sexp} {vs : List Word}, RepresentsAll H vs e →
    RepresentsAll H vs e' → e = e'
  | .atom w, .atom w', _, hv, hv' => by rw [hv.2, hv'.2]
  | .cons a d, .cons a' d', _, ⟨x, xs, hvs, hx, hxs⟩, ⟨x', xs', hvs', hx', hxs'⟩ => by
    cases hvs.symm.trans hvs'
    rw [represents_unique a hx hx', representsAll_unique d hxs hxs']
  | .atom _, .cons _ _, _, hv, ⟨_, _, hvs, _⟩ => by
    cases hv.1.symm.trans hvs
  | .cons _ _, .atom _, _, ⟨_, _, hvs, _⟩, hv => by
    cases hv.1.symm.trans hvs

end

theorem represents_of_except {S : Finset ℕ} (hv : Represents (H.except S) v e) :
    Represents H v e :=
  represents_extends (fun _ _ ho => (Option.ite_none_left_eq_some.1 ho).2) e hv

/-- **The reader accepts the grammar.**  `read1` takes a text up to `rest` for a value that is the
tree `e` exactly if that is what the grammar says, and it makes the value of new objects. -/
theorem read1_iff (R : Runtime) (w : World) :
    (∃ n v w', read1 R n ⟨cs, w⟩ = some (.ok v, ⟨rest, w'⟩) ∧ w.heap.Extends w'.heap ∧
      Represents (w'.heap.except w.heap.dom) v e) ↔ Derives false cs e rest := by
  constructor
  · rintro ⟨n, v, w', h, -, hv⟩
    obtain ⟨e', he'⟩ := derives_of_read1 h
    obtain ⟨N, hN⟩ := read1_of_derives R he'
    obtain ⟨v₁, w₁, h₁, -, hv₁⟩ := hN N le_rfl w
    have hmore := read1_mono R (Nat.le_max_left n N) ⟨cs, w⟩ _ h
    have hmore₁ := read1_mono R (Nat.le_max_right n N) ⟨cs, w⟩ _ h₁
    cases hmore.symm.trans hmore₁
    rwa [represents_unique e hv hv₁]
  · intro h
    obtain ⟨N, hN⟩ := read1_of_derives R h
    obtain ⟨v, w', hread⟩ := hN N le_rfl w
    exact ⟨N, v, w', hread⟩

end Unique

/-! ### What is printed -/

theorem kind_symbol {c : Char} (hc : issymstart c = true) (hquote : c ∉ ['\'', ',', '#']) :
    kind c = .symbol := by
  have hback : c ≠ '`' := by
    rintro rfl
    exact absurd hc (by decide)
  simp only [List.mem_cons, List.not_mem_nil, or_false, not_or] at hquote
  have hnot : c ∉ quoteChars := by
    simp [quoteChars, hquote, hback]
  rw [kind, if_neg hnot, if_pos hc]

theorem digitsValue_toDigits {v : ℕ} (hi : integerp v) (hv : v < 2 ^ 32) :
    digitsValue (Nat.toDigits 10 (v / 4)) = v := by
  rw [digitsValue, Nat.ofDigitChars_ten_toDigits, u32_of_lt (by omega), intval_div_four hi hv]

mutual

/-- What is written for a value is one of the texts for it. -/
theorem derives_text : ∀ (e : Sexp) {tail : List Char}, e.Printable → Delimited tail →
    Derives false (e.text ++ tail) e.reread tail
  | .atom w, tail, he, htail => by
    unfold Sexp.text Sexp.reread
    split_ifs with hw
    · have hkind : kind 'n' = .symbol := rfl
      have hsym : ∀ d ∈ ['i', 'l'], issym d = true :=
        List.forall_mem_cons.2 ⟨rfl, List.forall_mem_singleton.2 rfl⟩
      exact .symbol hkind hsym fun d hd => (htail d hd).1
    · obtain ⟨hi, hlt⟩ := he.resolve_left hw
      have hrest : ∀ d ∈ tail.head?, d.isDigit = false := fun d hd => (htail d hd).2
      have hform := Derives.integer (Nat.toDigits_ne_nil (b := 10) (n := w / 4))
        (fun c hc => Nat.isDigit_of_mem_toDigits (by decide) (by decide) hc) hrest
      rwa [digitsValue_toDigits hi hlt] at hform
  | .symbol s, tail, he, htail => by
    obtain ⟨c, cs, hs, hc, hcs, hquote⟩ := he
    have hform := Derives.symbol (kind_symbol hc hquote) hcs fun d hd => (htail d hd).1
    rwa [← List.cons_append, ← hs, String.ofList_toList] at hform
  | .string s, tail, he, _ => by
    have hescaped : ∀ cs : List Char, (∀ c ∈ cs, c ≠ '"' ∧ c ≠ '\\') → Escaped cs cs := by
      intro cs hcs
      induction cs with
      | nil => exact .nil
      | cons c cs ih =>
        obtain ⟨hc, hcs⟩ := List.forall_mem_cons.1 hcs
        exact .char hc.1 hc.2 (ih hcs)
    have hform : Derives false ('"' :: (s.toList ++ '"' :: tail)) _ tail :=
      .string (hescaped s.toList fun c hc => ⟨(he c hc).1, (he c hc).2.1⟩)
    rw [String.ofList_toList] at hform
    simpa [Sexp.text, Sexp.reread] using hform
  | .cons a d, tail, he, _ => by
    have hform := Derives.list (.cons (derives_text a he.1 (delimited_textTail d tail))
      (derives_textTail d he.2))
    simpa [Sexp.text, Sexp.reread] using hform

theorem derives_textTail : ∀ (e : Sexp) {tail : List Char}, e.PrintableTail →
    Derives true (e.textTail ++ ')' :: tail) e.rereadTail tail
  | .atom w, tail, he => by
    obtain rfl : w = nil := he
    exact .nil (.blocked .nil (blocked_cons.2 ⟨by decide, by decide⟩))
  | .cons a d, tail, he => by
    have hform := derives_text a he.1 (delimited_textTail d tail)
    have hspace := Derives.blank (.space (c := ' ') rfl .nil) hform
    have hrest := Derives.cons hspace (derives_textTail d he.2)
    simpa [Sexp.textTail, Sexp.rereadTail] using hrest

end

/-- Forms that are printed on lines of their own. -/
theorem contents_lines {es : List Sexp} (hes : ∀ e ∈ es, e.Printable) :
    Contents (es.flatMap fun e => e.text ++ ['\n']) (es.map Sexp.reread) := by
  have hline : ∀ {text : List Char} {es : List Sexp}, Contents text es → Contents ('\n' :: text) es := by
    intro text es h
    cases h with
    | ended h => exact .ended (.space rfl h)
    | form h hs => exact .form (.blank (.space rfl .nil) h) hs
  induction es with
  | nil => exact .ended .nil
  | cons e es ih =>
    obtain ⟨he, hes⟩ := List.forall_mem_cons.1 hes
    rw [List.flatMap_cons, List.append_assoc, List.map_cons]
    exact .form (derives_text e he (delimited_cons ⟨by decide, by decide⟩)) (hline (ih hes))

end Lisp

end Bluejay
