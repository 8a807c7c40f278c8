import Bluejay.Lisp.Lists
import Bluejay.Lisp.Reader
import Bluejay.Lisp.Sexp

/-!
# What is printed can be read

* `Sexp.Printable` : the values in question, as trees; `Sexp.text` : what is written for them.
* `printvalOl_text` : `printval_ol` writes `Sexp.text`.
* `read1_text` : `read1` reads it back, into new objects, whatever is in memory before.
* `read1_printvalOl` : printing and then reading gives an equal value, where `nil` and the symbol
  of this name are the same.
-/

namespace Bluejay

namespace Lisp

/-! ### Printable values -/

mutual

/-- Integers, `nil`, symbols that `readsym` accepts and that are not taken for a reader macro,
strings of ASCII characters other than `"` and `\`, and proper lists of such values. -/
def Sexp.Printable : Sexp → Prop
  | .atom w => w = nil ∨ integerp w ∧ w < 2 ^ 32
  | .symbol s => ∃ c cs, s.toList = c :: cs ∧ issymstart c ∧ (∀ c ∈ cs, issym c) ∧
      c ∉ ['\'', ',', '#']
  | .string s => ∀ c ∈ s.toList, c ≠ '"' ∧ c ≠ '\\' ∧ 0 < c.toNat ∧ c.toNat < 128
  | .cons a d => a.Printable ∧ d.PrintableTail
  | .closure _ _ _ => False

/-- The rest of a proper list of such values. -/
def Sexp.PrintableTail : Sexp → Prop
  | .atom w => w = nil
  | .cons a d => a.Printable ∧ d.PrintableTail
  | _ => False

end

mutual

/-- What is written for a value. -/
def Sexp.text : Sexp → List Char
  | .atom w => if w = nil then ['n', 'i', 'l'] else Nat.toDigits 10 (w / 4)
  | .symbol s => s.toList
  | .string s => '"' :: s.toList ++ ['"']
  | .cons a d => '(' :: a.text ++ d.textTail ++ [')']
  | .closure _ _ _ => []

/-- What is written for the rest of a list. -/
def Sexp.textTail : Sexp → List Char
  | .cons a d => ' ' :: a.text ++ d.textTail
  | _ => []

end

mutual

/-- What is read back: a `nil` that is not the end of a list becomes a symbol. -/
def Sexp.reread : Sexp → Sexp
  | .atom w => if w = nil then .symbol "nil" else .atom w
  | .cons a d => .cons a.reread d.rereadTail
  | e => e

def Sexp.rereadTail : Sexp → Sexp
  | .cons a d => .cons a.reread d.rereadTail
  | e => e

end

/-- Take the symbol `nil` for the value `nil`. -/
def Sexp.identify : Sexp → Sexp
  | .symbol s => if s = "nil" then .atom nil else .symbol s
  | .cons a d => .cons a.identify d.identify
  | e => e

mutual

@[simp] theorem identify_reread : ∀ e : Sexp, e.reread.identify = e.identify
  | .atom w => by
    unfold Sexp.reread
    split_ifs with h
    · rw [h]
      rfl
    · rfl
  | .symbol _ => rfl
  | .string _ => rfl
  | .cons a d => by
    rw [Sexp.reread, Sexp.identify, Sexp.identify, identify_reread a, identify_rereadTail d]
  | .closure _ _ _ => rfl

@[simp] theorem identify_rereadTail : ∀ e : Sexp, e.rereadTail.identify = e.identify
  | .atom _ => rfl
  | .symbol _ => rfl
  | .string _ => rfl
  | .cons a d => by
    rw [Sexp.rereadTail, Sexp.identify, Sexp.identify, identify_reread a, identify_rereadTail d]
  | .closure _ _ _ => rfl

end

/-! ### Printing -/

section Printing

variable {H : Heap} {v : Word} {address : CodePtr → List Char}

theorem exists_listOf : ∀ (e : Sexp) {v : Word}, Represents H v e → e.PrintableTail →
    ∃ ws, ListOf H v ws
  | .atom w, _, hv, he => ⟨[], hv.1.trans he⟩
  | .cons a d, _, hv, he => by
    obtain ⟨hc, x, y, ho, -, hy⟩ := hv
    obtain ⟨ws, hws⟩ := exists_listOf d hy he.2
    exact ⟨x :: ws, hc, y, ho, hws⟩

theorem tag_of_integerp {v : ℕ} (h : integerp v) : tag v = 0 ∨ tag v = 4 := by
  have : v % 4 = 0 := of_decide_eq_true h
  unfold tag
  omega

theorem not_integerp_of_consp {v : ℕ} (h : consp v) : integerp v = false := by
  have : v % 8 = 1 := of_decide_eq_true h
  have hne : ¬ v % 4 = 0 := by omega
  exact decide_eq_false hne

mutual

/-- `printval_ol` writes the text of a value. -/
theorem printvalOl_text : ∀ (e : Sexp) {v : Word}, Represents H v e → e.Printable →
    ∃ N, ∀ n ≥ N, printvalOl address H (n + 1) v = some e.text
  | .atom w, v, hv, he => by
    obtain rfl : v = w := hv.1
    refine ⟨0, fun n _ => ?_⟩
    rcases he with rfl | ⟨hi, -⟩
    · rfl
    · have hnil : v ≠ nil := by
        rintro rfl
        exact absurd hi (by decide)
      rcases tag_of_integerp hi with ht | ht <;>
        simp [printvalOl, Sexp.text, symbolp, stringp, ht, hi, hnil, symbolTag, stringTag]
  | .symbol s, v, hv, he => by
    refine ⟨0, fun n _ => ?_⟩
    simp [printvalOl, Sexp.text, hv.1, Heap.text, hv.2]
  | .string s, v, hv, he => by
    have ht : tag v = stringTag := of_decide_eq_true hv.1
    refine ⟨0, fun n _ => ?_⟩
    simp [printvalOl, Sexp.text, symbolp, stringp, ht, Heap.text, hv.2, symbolTag, stringTag]
  | .cons a d, v, hv, he => by
    obtain ⟨ws, hlist⟩ := exists_listOf (.cons a d) hv he
    obtain ⟨hc, x, y, ho, hx, hy⟩ := hv
    obtain ⟨N, hN⟩ := printvalOl_text a hx he.1
    obtain ⟨M, hM⟩ := printRest_text d hy he.2
    have ht : v % 8 = 1 := of_decide_eq_true hc
    have hint := not_integerp_of_consp hc
    refine ⟨N + M + 1, fun n hn => ?_⟩
    obtain ⟨n, rfl⟩ := Nat.exists_eq_succ_of_ne_zero (Nat.ne_zero_of_lt hn)
    have hcar : printvalOl address H (n + 1) (H.car v) = some a.text := by
      rw [Heap.car, if_pos hc, ho]
      exact hN n (by omega)
    have hcdr : printRest H (printvalOl address H (n + 1)) (n + 1) (H.cdr v) = some d.textTail := by
      rw [Heap.cdr, if_pos hc, ho]
      exact hM n (by omega) (n + 1) (by omega)
    rw [printvalOl]
    simp [symbolp, stringp, tag, ht, hint, hc, hcar, hcdr, hlist.listp, Sexp.text, symbolTag,
      stringTag]

/-- The rest of a list is written as well. -/
theorem printRest_text : ∀ (e : Sexp) {v : Word}, Represents H v e → e.PrintableTail →
    ∃ N, ∀ n ≥ N, ∀ m ≥ N, printRest H (printvalOl address H (n + 1)) m v = some e.textTail
  | .atom w, v, hv, he => by
    obtain rfl : v = nil := hv.1.trans he
    refine ⟨1, fun n _ m hm => ?_⟩
    obtain ⟨m, rfl⟩ := Nat.exists_eq_succ_of_ne_zero (Nat.ne_zero_of_lt hm)
    rfl
  | .cons a d, v, hv, he => by
    obtain ⟨hc, x, y, ho, hx, hy⟩ := hv
    obtain ⟨N, hN⟩ := printvalOl_text a hx he.1
    obtain ⟨M, hM⟩ := printRest_text d hy he.2
    have hnil : nilp v = false := decide_eq_false fun h => by
      rw [h] at hc
      exact absurd hc (by decide)
    refine ⟨N + M + 1, fun n hn m hm => ?_⟩
    obtain ⟨m, rfl⟩ := Nat.exists_eq_succ_of_ne_zero (Nat.ne_zero_of_lt hm)
    have hcar : printvalOl address H (n + 1) (H.car v) = some a.text := by
      rw [Heap.car, if_pos hc, ho]
      exact hN n (by omega)
    have hcdr : printRest H (printvalOl address H (n + 1)) m (H.cdr v) = some d.textTail := by
      rw [Heap.cdr, if_pos hc, ho]
      exact hM n (by omega) m (by omega)
    simp [printRest, hnil, hcar, hcdr, Sexp.textTail]

end

end Printing

/-! ### Characters -/

section Characters

variable {c : Char}

theorem issymstart_iff : issymstart c = true ↔
    35 ≤ c.toNat ∧ c.toNat ≤ 39 ∨ 42 ≤ c.toNat ∧ c.toNat ≤ 47 ∨ 60 ≤ c.toNat ∧ c.toNat ≤ 90 ∨
      97 ≤ c.toNat ∧ c.toNat ≤ 122 := by
  have hupper : c.isUpper = decide (c.val ≥ 'A'.val ∧ c.val ≤ 'Z'.val) := rfl
  have hlower : c.isLower = (decide (c.val ≥ 'a'.val) && decide (c.val ≤ 'z'.val)) := rfl
  have halpha : c.isAlpha = (c.isUpper || c.isLower) := rfl
  simp only [issymstart, isallowedchar, halpha, hupper, hlower, Char.le_def,
    UInt32.le_iff_toNat_le, Bool.or_eq_true, Bool.and_eq_true, decide_eq_true_eq, ge_iff_le]
  simp
  omega

theorem isDigit_iff : c.isDigit = true ↔ 48 ≤ c.toNat ∧ c.toNat ≤ 57 := by
  simp only [Char.isDigit, UInt32.le_iff_toNat_le, Bool.and_eq_true, decide_eq_true_eq, ge_iff_le]
  simp

theorem isspace_iff : isspace c = true ↔ c.toNat = 32 ∨ 9 ≤ c.toNat ∧ c.toNat ≤ 13 := by
  have hspace : c = ' ' ↔ c.toNat = 32 := by
    rw [← Char.toNat_inj]
    rfl
  simp only [isspace, Char.le_def, UInt32.le_iff_toNat_le, Bool.or_eq_true, Bool.and_eq_true,
    decide_eq_true_eq, hspace]
  simp

/-- A token may start with the character: it is not skipped. -/
def Starts (c : Char) : Prop := isspace c = false ∧ c ≠ ';'

theorem starts_of_toNat (h : 33 ≤ c.toNat) (hc : c ≠ ';') : Starts c := by
  refine ⟨Bool.eq_false_iff.2 fun hs => ?_, hc⟩
  rw [isspace_iff] at hs
  omega

theorem starts_of_issymstart (h : issymstart c = true) : Starts c := by
  refine starts_of_toNat ?_ ?_
  · rw [issymstart_iff] at h
    omega
  · rintro rfl
    exact absurd h (by decide)

/-- What starts with a digit is not another kind of token. -/
theorem isDigit_starts (h : c.isDigit = true) :
    Starts c ∧ c ∉ ['\'', '`', ',', '#'] ∧ issymstart c = false ∧ c ≠ '"' := by
  have hne : ∀ d : Char, d.isDigit = false → c ≠ d := by
    rintro d hd rfl
    rw [h] at hd
    cases hd
  refine ⟨?_, ?_, ?_, hne _ (by decide)⟩
  · rw [isDigit_iff] at h
    exact starts_of_toNat (by omega) (hne _ (by decide))
  · simp only [List.mem_cons, not_or, List.not_mem_nil, not_false_eq_true, and_true]
    exact ⟨hne _ (by decide), hne _ (by decide), hne _ (by decide), hne _ (by decide)⟩
  · rw [isDigit_iff] at h
    refine Bool.eq_false_iff.2 fun hs => ?_
    rw [issymstart_iff] at hs
    omega

end Characters

/-! ### Tokens -/

section Reading

variable {R : Runtime} {rec : Reading → ReadResult} {n : ℕ} {w : World} {c : Char}
  {cs tail : List Char}

/-- No character of a token comes next. -/
def Delimited (tail : List Char) : Prop :=
  ∀ c ∈ tail.head?, issym c = false ∧ c.isDigit = false

theorem skipws_of_head (hspace : isspace c = false) (hc : c ≠ ';') :
    skipws false (c :: cs) = some (c :: cs) := by
  simp [skipws, hspace, hc]

theorem readquote_expected (h : Starts c) (hc : c ∉ ['\'', '`', ',', '#']) :
    readquote R rec ⟨c :: cs, w⟩ = expected ⟨c :: cs, w⟩ := by
  simp only [List.mem_cons, not_or, List.not_mem_nil, not_false_eq_true, and_true] at hc
  simp [readquote, skipws_of_head h.1 h.2, hc]

theorem readsym_expected (h : Starts c) (hc : issymstart c = false) :
    readsym R ⟨c :: cs, w⟩ = expected ⟨c :: cs, w⟩ := by
  simp [readsym, skipws_of_head h.1 h.2, hc]

theorem readstr_expected (h : Starts c) (hc : c ≠ '"') :
    readstr R ⟨c :: cs, w⟩ = expected ⟨c :: cs, w⟩ := by
  simp [readstr, skipws_of_head h.1 h.2, hc]

theorem readint_expected (h : Starts c) (hc : c.isDigit = false) :
    readint ⟨c :: cs, w⟩ = expected ⟨c :: cs, w⟩ := by
  simp [readint, skipws_of_head h.1 h.2, hc]

theorem readlist_expected (h : Starts c) (hc : c ≠ '(') :
    readlist R rec n ⟨c :: cs, w⟩ = expected ⟨c :: cs, w⟩ := by
  simp [readlist, skipws_of_head h.1 h.2, hc]

theorem okayIf_expected {read next : Reading → ReadResult} {s : Reading}
    (h : read s = expected s) : okayIf read next s = next s := by
  simp [okayIf, h, expected]

theorem okayIf_ok {read next : Reading → ReadResult} {s s' : Reading} {v : Word}
    (h : read s = some (.ok v, s')) : okayIf read next s = some (.ok v, s') := by
  simp [okayIf, h]

/-- White space before a token is skipped by whatever reads the token. -/
theorem read1_space : read1 R n ⟨' ' :: cs, w⟩ = read1 R n ⟨cs, w⟩ := by
  cases n with
  | zero => rfl
  | succ n =>
    have hskip : skipws false (' ' :: cs) = skipws false cs := by simp [skipws, isspace]
    simp only [read1, okayIf, readquote, hskip]

theorem span_issym (hcs : ∀ c ∈ cs, issym c = true) (h : Delimited tail) :
    (cs ++ tail).span issym = (cs, tail) := by
  have hhead : tail.takeWhile issym = [] ∧ tail.dropWhile issym = tail := by
    cases tail with
    | nil => exact ⟨rfl, rfl⟩
    | cons c tail =>
      have hc := (h c rfl).1
      simp [hc]
  rw [List.span_eq_takeWhile_dropWhile, List.takeWhile_append_of_pos hcs,
    List.dropWhile_append_of_pos hcs, hhead.1, hhead.2, List.append_nil]

theorem readstrLoop_append (hcs : ∀ c ∈ cs, c ≠ '"' ∧ c ≠ '\\') :
    readstrLoop false (cs ++ '"' :: tail) = some (cs, tail) := by
  induction cs with
  | nil => simp [readstrLoop]
  | cons c cs ih =>
    obtain ⟨⟨hquote, hback⟩, hcs⟩ := List.forall_mem_cons.1 hcs
    simp [readstrLoop, hquote, hback, ih hcs]

theorem u32_ofDigitChars (ds : List Char) (a : ℕ) :
    u32 (Nat.ofDigitChars 10 ds (u32 a)) = u32 (Nat.ofDigitChars 10 ds a) := by
  rw [Nat.ofDigitChars_eq_ofDigitChars_zero, @Nat.ofDigitChars_eq_ofDigitChars_zero ds a]
  simp only [u32, Nat.add_mod, Nat.mul_mod, Nat.mod_mod]

theorem readintLoop_append {ds : List Char} (hds : ∀ c ∈ ds, c.isDigit = true) (h : Delimited tail)
    {a : ℕ} (ha : a < 2 ^ 32) :
    readintLoop a (ds ++ tail) = (u32 (Nat.ofDigitChars 10 ds a), tail) := by
  induction ds generalizing a with
  | nil =>
    rw [List.nil_append, Nat.ofDigitChars_nil, u32_of_lt ha]
    cases tail with
    | nil => rfl
    | cons c tail => simp [readintLoop, (h c rfl).2]
  | cons c ds ih =>
    obtain ⟨hc, hds⟩ := List.forall_mem_cons.1 hds
    rw [List.cons_append, readintLoop, if_pos hc, ih hds (u32_lt _), u32_ofDigitChars,
      Nat.ofDigitChars_cons, Nat.mul_comm]

/-! ### Values -/

/-- A new object is at a new address. -/
theorem allocate_spec (R : Runtime) (w : World) (o : Obj) {k : ℕ} (hk : k < 8) :
    tag (w.allocate R o k).1 = k ∧ pointer (w.allocate R o k).1 ∉ w.heap.dom ∧
      (w.allocate R o k).2.heap = w.heap.set (pointer (w.allocate R o k).1) o := by
  obtain ⟨ht, hp⟩ := tag_add (R.aligned w.heap) hk
  refine ⟨ht, ?_, ?_⟩
  · rw [World.allocate, hp]
    exact R.fresh _
  · simp only [World.allocate, hp]

@[simp] theorem obj_set {H : Heap} {p : ℕ} (o : Obj) : (H.set p o).obj p = some o :=
  Function.update_self _ _ _

theorem set_except {H : Heap} {p : ℕ} (hp : p ∉ H.dom) (o : Obj) :
    ((H.set p o).except H.dom).obj p = some o := by
  simp [Heap.except, hp]

/-- A text that was read is a new object. -/
theorem allocate_reads (R : Runtime) (w : World) (tail : List Char) (o : Obj) {k : ℕ} (hk : k < 8) :
    ∃ v w', Reading.allocate R ⟨tail, w⟩ o k = some (.ok v, ⟨tail, w'⟩) ∧
      w.heap.Extends w'.heap ∧ tag v = k ∧
      (w'.heap.except w.heap.dom).obj (pointer v) = some o := by
  obtain ⟨ht, hp, hheap⟩ := allocate_spec R w o hk
  refine ⟨(w.allocate R o k).1, (w.allocate R o k).2, rfl, ?_, ht, ?_⟩
  · rw [hheap]
    exact .set hp o
  · rw [hheap]
    exact set_except hp o

/-- Reading the text gives the value `e`, made of new objects, and leaves the others as they
are. -/
def Reads (R : Runtime) (text : List Char) (e : Sexp) : Prop :=
  ∃ N, ∀ n ≥ N, ∀ (w : World) (tail : List Char), Delimited tail → ∃ v w',
    read1 R (n + 1) ⟨text ++ tail, w⟩ = some (.ok v, ⟨tail, w'⟩) ∧ w.heap.Extends w'.heap ∧
      Represents (w'.heap.except w.heap.dom) v e

/-- Reading the text up to a parenthesis adds the list `e` behind the cell `last`. -/
def ReadsTail (R : Runtime) (text : List Char) (e : Sexp) : Prop :=
  ∃ N, ∀ n ≥ N, ∀ m ≥ N, ∀ (w : World) (tail : List Char) (first last x : Word), consp last →
    w.heap.obj (pointer last) = some (.cons x nil) → ∃ r w',
      readnLoop R (read1 R (n + 1)) m first (some last) ⟨text ++ ')' :: tail, w⟩ =
        some (first, ⟨')' :: tail, w'⟩) ∧
      (∀ p o, p ≠ pointer last → w.heap.obj p = some o → w'.heap.obj p = some o) ∧
      w'.heap.obj (pointer last) = some (.cons x r) ∧ Represents (w'.heap.except w.heap.dom) r e

theorem readsym_append (R : Runtime) (w : World) (hc : issymstart c = true)
    (hcs : ∀ c ∈ cs, issym c = true) (h : Delimited tail) :
    readsym R ⟨c :: (cs ++ tail), w⟩ =
      Reading.allocate R ⟨tail, w⟩ (.text (String.ofList (c :: cs))) symbolTag := by
  have hstart := starts_of_issymstart hc
  have hspan := span_issym hcs h
  rw [List.span_eq_takeWhile_dropWhile, Prod.mk.injEq] at hspan
  simp [readsym, skipws_of_head hstart.1 hstart.2, hc, hspan]

theorem reads_symbol (R : Runtime) {s : String} (h : (Sexp.symbol s).Printable) :
    Reads R s.toList (.symbol s) := by
  obtain ⟨c, cs, hs, hc, hcs, hreader⟩ := h
  refine ⟨0, fun n _ w tail htail => ?_⟩
  have hquote : c ∉ ['\'', '`', ',', '#'] := by
    simp only [List.mem_cons, not_or] at hreader ⊢
    refine ⟨hreader.1, ?_, hreader.2⟩
    rintro rfl
    exact absurd hc (by decide)
  obtain ⟨v, w', hread, hext, ht, ho⟩ := allocate_reads R w tail (.text s) (k := symbolTag)
    (by decide)
  refine ⟨v, w', ?_, hext, decide_eq_true ht, ho⟩
  rw [hs, List.cons_append, read1,
    okayIf_expected (readquote_expected (starts_of_issymstart hc) hquote)]
  refine okayIf_ok ?_
  rw [readsym_append R w hc hcs htail, ← hs, String.ofList_toList, hread]

theorem reads_string (R : Runtime) {s : String} (h : (Sexp.string s).Printable) :
    Reads R ('"' :: s.toList ++ ['"']) (.string s) := by
  refine ⟨0, fun n _ w tail _ => ?_⟩
  have hstart : Starts '"' := ⟨by decide, by decide⟩
  obtain ⟨v, w', hread, hext, ht, ho⟩ := allocate_reads R w tail (.text s) (k := stringTag)
    (by decide)
  refine ⟨v, w', ?_, hext, decide_eq_true ht, ho⟩
  have hloop : readstrLoop false (s.toList ++ '"' :: tail) = some (s.toList, tail) :=
    readstrLoop_append fun c hc => ⟨(h c hc).1, (h c hc).2.1⟩
  rw [read1, List.cons_append, List.cons_append, List.append_assoc,
    okayIf_expected (readquote_expected hstart (by decide)),
    okayIf_expected (readsym_expected hstart (by decide))]
  refine okayIf_ok ?_
  simp [readstr, skipws_of_head hstart.1 hstart.2, hloop, hread]

theorem intval_div_four {v : ℕ} (hi : integerp v) (hv : v < 2 ^ 32) :
    intval ((v / 4 : ℕ) : ℤ) = v := by
  have hi4 : v % 4 = 0 := of_decide_eq_true hi
  have hval : 4 * ((v / 4 : ℕ) : ℤ) % 2 ^ 32 = v := by omega
  rw [intval, hval, Int.toNat_natCast]

theorem reads_integer (R : Runtime) {v : ℕ} (hi : integerp v) (hv : v < 2 ^ 32) :
    Reads R (Nat.toDigits 10 (v / 4)) (.atom v) := by
  refine ⟨0, fun n _ w tail htail => ⟨v, w, ?_, .refl _, rfl, .inl hi⟩⟩
  have hdigits : ∀ c ∈ Nat.toDigits 10 (v / 4), c.isDigit = true := fun c hc =>
    Nat.isDigit_of_mem_toDigits (by decide) (by decide) hc
  have hloop := readintLoop_append hdigits htail (a := 0) (by decide)
  rw [Nat.ofDigitChars_ten_toDigits, u32_of_lt (by omega)] at hloop
  cases hd : Nat.toDigits 10 (v / 4) with
  | nil => exact absurd hd Nat.toDigits_ne_nil
  | cons c cs =>
    rw [hd] at hdigits hloop
    have hc := hdigits c List.mem_cons_self
    obtain ⟨hstart, hquote, hsym, hstr⟩ := isDigit_starts hc
    rw [List.cons_append] at hloop ⊢
    rw [read1, okayIf_expected (readquote_expected hstart hquote),
      okayIf_expected (readsym_expected hstart hsym), okayIf_expected (readstr_expected hstart hstr)]
    refine okayIf_ok ?_
    simp only [readint, skipws_of_head hstart.1 hstart.2, Option.bind_eq_bind, Option.bind_some,
      List.head?_cons, Option.map_some, hc, Option.getD_some, if_true, hloop,
      intval_div_four hi hv]

/-! ### Lists -/

theorem delimited_cons (hc : issym c = false ∧ c.isDigit = false) : Delimited (c :: tail) := by
  intro d hd
  cases hd
  exact hc

/-- A value in a list is followed by a space or a parenthesis. -/
theorem delimited_textTail (d : Sexp) (tail : List Char) :
    Delimited (d.textTail ++ ')' :: tail) := by
  cases d <;> exact delimited_cons ⟨by decide, by decide⟩

/-- A parenthesis ends a list. -/
theorem read1_parenthesis : read1 R (n + 1) ⟨')' :: tail, w⟩ = expected ⟨')' :: tail, w⟩ := by
  have hstart : Starts ')' := ⟨by decide, by decide⟩
  rw [read1, okayIf_expected (readquote_expected hstart (by decide)),
    okayIf_expected (readsym_expected hstart (by decide)),
    okayIf_expected (readstr_expected hstart (by decide)),
    okayIf_expected (readint_expected hstart (by decide)),
    okayIf_expected (readlist_expected hstart (by decide))]

/-- A new cell is a list if its `car` was read before it and its `cdr` afterwards. -/
theorem represents_cell {H H₁ H' : Heap} {S : Finset ℕ} {v r cell : Word} {a d : Sexp}
    (hc : consp cell) (hcell : pointer cell ∉ H₁.dom) (hext : H.Extends H₁)
    (hv : Represents (H₁.except H.dom) v a) (hr : Represents (H'.except S) r d) (hS : H.dom ⊆ S)
    (hobj : H'.obj (pointer cell) = some (.cons v r))
    (hkeep : ∀ p o, p ∉ H.dom → p ≠ pointer cell → H₁.obj p = some o → H'.obj p = some o) :
    Represents (H'.except H.dom) cell (.cons a d) := by
  have hnot : pointer cell ∉ H.dom := fun h => hcell (hext.dom_subset h)
  refine ⟨hc, v, r, ?_, represents_extends (Heap.except_extends subset_rfl fun p o hp ho => ?_) a hv,
    represents_extends (Heap.except_extends hS fun _ _ _ => id) d hr⟩
  · simp [Heap.except, hnot, hobj]
  · refine hkeep p o hp ?_ ho
    rintro rfl
    exact hcell ((H₁.mem_dom _).1 (by rw [ho]; rfl))

mutual

/-- What is written for a value is read back. -/
theorem read1_text (R : Runtime) : ∀ e : Sexp, e.Printable → Reads R e.text e.reread
  | .atom w, he => by
    unfold Sexp.text Sexp.reread
    split_ifs with hw
    · exact reads_symbol R (s := "nil")
        ⟨'n', ['i', 'l'], rfl, rfl,
          List.forall_mem_cons.2 ⟨rfl, List.forall_mem_singleton.2 rfl⟩, by simp⟩
    · obtain ⟨hi, hlt⟩ := he.resolve_left hw
      exact reads_integer R hi hlt
  | .symbol _, he => reads_symbol R he
  | .string _, he => reads_string R he
  | .cons a d, he => by
    obtain ⟨N, hN⟩ := read1_text R a he.1
    obtain ⟨M, hM⟩ := readnLoop_textTail R d he.2
    refine ⟨N + M + 1, fun n hn w tail _ => ?_⟩
    obtain ⟨n, rfl⟩ := Nat.exists_eq_succ_of_ne_zero (Nat.ne_zero_of_lt hn)
    obtain ⟨v, w₁, hv, hext, hrep⟩ := hN n (by omega) w (d.textTail ++ ')' :: tail)
      (delimited_textTail d tail)
    obtain ⟨ht, hcell, hheap⟩ := allocate_spec R w₁ (.cons v nil) (k := consTag) (by decide)
    obtain ⟨cell, w₂, hw₂⟩ : ∃ cell w₂, w₁.allocate R (.cons v nil) consTag = (cell, w₂) :=
      ⟨_, _, rfl⟩
    rw [hw₂] at ht hcell hheap
    obtain ⟨r, w', hloop, hkeep, hobj, hr⟩ := hM n (by omega) n (by omega) w₂ tail cell cell v
      (decide_eq_true ht) (by rw [hheap, obj_set])
    have hext₂ : w₁.heap.Extends w₂.heap := by
      rw [hheap]
      exact .set hcell _
    refine ⟨cell, w', ?_, fun p o hp => ?_, ?_⟩
    · have hopen : Starts '(' := ⟨by decide, by decide⟩
      have htext : (Sexp.cons a d).text ++ tail =
          '(' :: (a.text ++ (d.textTail ++ ')' :: tail)) := by
        simp [Sexp.text]
      rw [htext, read1, okayIf_expected (readquote_expected hopen (by decide)),
        okayIf_expected (readsym_expected hopen (by decide)),
        okayIf_expected (readstr_expected hopen (by decide)),
        okayIf_expected (readint_expected hopen (by decide))]
      refine okayIf_ok ?_
      simp [readlist, skipws_of_head hopen.1 hopen.2, readn, readnLoop, hv, hw₂, hloop,
        skipws_of_head (c := ')') (by decide) (by decide)]
    · have hp₂ := hext.trans hext₂ p o hp
      refine hkeep p o ?_ hp₂
      rintro rfl
      exact hcell ((w₁.heap.mem_dom _).1 (by rw [hext _ _ hp]; rfl))
    · exact represents_cell (decide_eq_true ht) hcell hext hrep hr
        (hext.trans hext₂).dom_subset hobj fun p o _ hne ho => hkeep p o hne (hext₂ p o ho)

/-- The rest of a list is read back. -/
theorem readnLoop_textTail (R : Runtime) : ∀ e : Sexp, e.PrintableTail →
    ReadsTail R e.textTail e.rereadTail
  | .atom w, he => by
    refine ⟨1, fun n _ m hm w tail first last x hc hlast => ?_⟩
    obtain ⟨m, rfl⟩ := Nat.exists_eq_succ_of_ne_zero (Nat.ne_zero_of_lt hm)
    refine ⟨nil, w, ?_, fun _ _ _ => id, hlast, he.symm, .inr rfl⟩
    simp [readnLoop, Sexp.textTail, read1_parenthesis, expected]
  | .cons a d, he => by
    obtain ⟨N, hN⟩ := read1_text R a he.1
    obtain ⟨M, hM⟩ := readnLoop_textTail R d he.2
    refine ⟨N + M + 1, fun n hn m hm w tail first last x hc hlast => ?_⟩
    obtain ⟨m, rfl⟩ := Nat.exists_eq_succ_of_ne_zero (Nat.ne_zero_of_lt hm)
    obtain ⟨v, w₁, hv, hext, hrep⟩ := hN n (by omega) w (d.textTail ++ ')' :: tail)
      (delimited_textTail d tail)
    obtain ⟨ht, hcell, hheap⟩ := allocate_spec R w₁ (.cons v nil) (k := consTag) (by decide)
    obtain ⟨cell, w₂, hw₂⟩ : ∃ cell w₂, w₁.allocate R (.cons v nil) consTag = (cell, w₂) :=
      ⟨_, _, rfl⟩
    rw [hw₂] at ht hcell hheap
    have hext₂ : w₁.heap.Extends w₂.heap := by
      rw [hheap]
      exact .set hcell _
    -- the cell before gets the new one for its `cdr`
    have hlast₂ : w₂.heap.obj (pointer last) = some (.cons x nil) := hext₂ _ _ (hext _ _ hlast)
    have hmem : pointer last ∈ w.heap.dom := (w.heap.mem_dom _).1 (by rw [hlast]; rfl)
    have hcl : pointer cell ≠ pointer last := fun h => hcell (hext.dom_subset (h ▸ hmem))
    have hset : (w₂.setCdr last cell).heap = w₂.heap.set (pointer last) (.cons x cell) := by
      simp [World.setCdr, Heap.car, hc, hlast₂]
    have hset_ne : ∀ p o, p ≠ pointer last → w₂.heap.obj p = some o →
        (w₂.setCdr last cell).heap.obj p = some o := fun p o hp ho => by
      rw [hset, Heap.set]
      exact (Function.update_of_ne hp _ _).trans ho
    obtain ⟨r, w', hloop, hkeep, hobj, hr⟩ := hM n (by omega) m (by omega) (w₂.setCdr last cell)
      tail first cell v (decide_eq_true ht) (hset_ne _ _ hcl (by rw [hheap, obj_set]))
    have hsub : w.heap.dom ⊆ (w₂.setCdr last cell).heap.dom := by
      rw [hset]
      exact (hext.trans hext₂).dom_subset.trans (Finset.subset_insert _ _)
    refine ⟨cell, w', ?_, fun p o hp ho => ?_, ?_, ?_⟩
    · have htext : (Sexp.cons a d).textTail ++ ')' :: tail =
          ' ' :: (a.text ++ (d.textTail ++ ')' :: tail)) := by
        simp [Sexp.textTail]
      simp [htext, readnLoop, read1_space, hv, hw₂, hloop]
    · refine hkeep p o ?_ (hset_ne p o hp (hext₂ p o (hext p o ho)))
      rintro rfl
      exact hcell ((w₁.heap.mem_dom _).1 (by rw [hext _ _ ho]; rfl))
    · exact hkeep _ _ hcl.symm (by rw [hset, obj_set])
    · refine represents_cell (decide_eq_true ht) hcell hext hrep hr hsub hobj fun p o hp hne ho => ?_
      exact hkeep p o hne (hset_ne p o (fun h => hp (h ▸ hmem)) (hext₂ p o ho))

end

/-- **What `printval_ol` writes for a value, followed by a newline, is read back by `read1` to its
end, as an equal value, where `nil` and the symbol `nil` are the same.** -/
theorem read1_printvalOl (R : Runtime) (address : CodePtr → List Char) {H : Heap} {v : Word}
    {e : Sexp} (hv : Represents H v e) (he : e.Printable) : ∃ N, ∀ n ≥ N, ∃ text,
      printvalOl address H n v = some text ∧ ∀ (w : World) (rest : List Char), ∃ v' w' e',
        read1 R n ⟨text ++ '\n' :: rest, w⟩ = some (.ok v', ⟨'\n' :: rest, w'⟩) ∧
          Represents w'.heap v' e' ∧ e'.identify = e.identify ∧ w.heap.Extends w'.heap := by
  obtain ⟨N, hN⟩ : ∃ N, ∀ n ≥ N, printvalOl address H (n + 1) v = some e.text :=
    printvalOl_text e hv he
  obtain ⟨M, hM⟩ := read1_text R e he
  refine ⟨N + M + 1, fun n hn => ?_⟩
  obtain ⟨n, rfl⟩ := Nat.exists_eq_succ_of_ne_zero (Nat.ne_zero_of_lt hn)
  refine ⟨e.text, hN n (by omega), fun w rest => ?_⟩
  obtain ⟨v', w', hread, hext, hrep⟩ := hM n (by omega) w ('\n' :: rest)
    (delimited_cons ⟨by decide, by decide⟩)
  exact ⟨v', w', e.reread, hread, represents_extends (fun p o ho =>
    (Option.ite_none_left_eq_some.1 ho).2) _ hrep, identify_reread e, hext⟩

end Reading

/-- `(a 5 ("x y" nil))`. -/
def nestedList : Sexp := .list [.symbol "a", .int 5, .list [.string "x y", .atom nil]]

example : nestedList.text = "(a 5 (\"x y\" nil))".toList := by decide

theorem read1_nestedList : ∃ N, ∀ n ≥ N, ∃ text,
    printvalOl (fun _ => []) nestedList.heap.1 n nestedList.heap.2 = some text ∧
      ∀ (w : World) (rest : List Char), ∃ v' w' e',
        read1 .inert n ⟨text ++ '\n' :: rest, w⟩ = some (.ok v', ⟨'\n' :: rest, w'⟩) ∧
          Represents w'.heap v' e' ∧ e'.identify = nestedList.identify ∧ w.heap.Extends w'.heap := by
  have hvalid : nestedList.Valid :=
    ⟨trivial, .inl rfl, ⟨trivial, .inr rfl, .inr rfl⟩, .inr rfl⟩
  have hstring : (Sexp.string "x y").Printable := by
    have hchars : "x y".toList = ['x', ' ', 'y'] := rfl
    unfold Sexp.Printable
    rw [hchars]
    simp
  have hprintable : nestedList.Printable :=
    ⟨⟨'a', [], rfl, rfl, by simp, by simp⟩, .inr ⟨rfl, by decide⟩, ⟨hstring, .inl rfl, rfl⟩, rfl⟩
  exact read1_printvalOl .inert _ (represents_heap hvalid) hprintable

end Lisp

end Bluejay
