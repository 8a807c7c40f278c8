import Bluejay.Lisp.RoundTrip

/-!
# What a failed read consumes

An error of the reader in a safe state tells the caller that it may try something else.

* `Blank` : white space and comments; `skipws_eq_some_iff` : what `skipws` consumes.
* `kind` : the first character of a form decides which function reads it (`read1_symbol` and the
  like).
* `Formless` : texts with reader macro characters, but no form behind them.
* `read1_safe_iff` : `read1` fails in a safe state exactly on these.
* `harmless_iff` : what fails in a safe state has consumed white space and comments only, exactly
  if the text does not start with a reader macro character that no form follows.
-/

namespace Bluejay

namespace Lisp

/-! ### White space and comments -/

/-- White space and comments. -/
inductive Blank : List Char → Prop
  | nil : Blank []
  | space {c : Char} {cs : List Char} (hc : isspace c = true) (h : Blank cs) : Blank (c :: cs)
  | comment {body cs : List Char} (hbody : '\n' ∉ body) (h : Blank cs) :
    Blank (';' :: (body ++ '\n' :: cs))

/-- There is nothing for `skipws` to skip. -/
def Stops (cs : List Char) : Prop := ∀ c ∈ cs.head?, Starts c

@[simp] theorem stops_nil : Stops [] := by simp [Stops]

@[simp] theorem stops_cons {c : Char} {cs : List Char} : Stops (c :: cs) ↔ Starts c := by
  simp [Stops]

theorem skipws_of_stops {cs : List Char} (h : Stops cs) : skipws false cs = some cs := by
  cases cs with
  | nil => rfl
  | cons c cs =>
    obtain ⟨hspace, hc⟩ := stops_cons.1 h
    exact skipws_of_head hspace hc

theorem skipws_comment {body rest : List Char} (hbody : '\n' ∉ body) :
    skipws true (body ++ '\n' :: rest) = skipws false rest := by
  induction body with
  | nil => simp [skipws]
  | cons c body ih =>
    rw [List.mem_cons, not_or] at hbody
    have hc : c ≠ '\n' := fun h => hbody.1 h.symm
    simpa [skipws, hc] using ih hbody.2

theorem skipws_blank {blank : List Char} (h : Blank blank) (rest : List Char) :
    skipws false (blank ++ rest) = skipws false rest := by
  induction h with
  | nil => rfl
  | space hc _ ih => simpa [skipws, hc] using ih
  | @comment body cs hbody _ ih =>
    have hspace : isspace ';' = false := by decide
    have hskip := @skipws_comment _ (cs ++ rest) hbody
    simp only [List.cons_append, List.append_assoc, skipws, hspace, Bool.false_eq_true, if_false,
      if_true, hskip, ih]

/-- What is skipped, in a comment or not. -/
theorem skipws_sound {cs rest : List Char} : ∀ {comment : Bool},
    skipws comment cs = some rest → Stops rest ∧ ∃ blank, Blank blank ∧
      if comment then ∃ body, '\n' ∉ body ∧ cs = body ++ '\n' :: (blank ++ rest)
      else cs = blank ++ rest := by
  induction cs with
  | nil =>
    intro comment h
    cases comment with
    | false =>
      cases h
      exact ⟨stops_nil, [], .nil, rfl⟩
    | true => cases h
  | cons c cs ih =>
    intro comment h
    rw [skipws] at h
    cases comment with
    | true =>
      obtain ⟨hstop, blank, hblank, hcs⟩ := ih h
      refine ⟨hstop, blank, hblank, ?_⟩
      by_cases hc : c = '\n'
      · subst hc
        exact ⟨[], List.not_mem_nil, by simpa using hcs⟩
      · obtain ⟨body, hbody, rfl⟩ : ∃ body, '\n' ∉ body ∧ cs = body ++ '\n' :: (blank ++ rest) := by
          simpa [hc] using hcs
        exact ⟨c :: body, by simp [hbody, Ne.symm hc], rfl⟩
    | false =>
      by_cases hspace : isspace c = true
      · rw [if_neg Bool.false_ne_true, if_pos hspace] at h
        obtain ⟨hstop, blank, hblank, rfl⟩ := ih h
        exact ⟨hstop, c :: blank, .space hspace hblank, rfl⟩
      · rw [if_neg Bool.false_ne_true, if_neg hspace] at h
        by_cases hc : c = ';'
        · subst hc
          rw [if_pos rfl] at h
          obtain ⟨hstop, blank, hblank, body, hbody, rfl⟩ := ih h
          exact ⟨hstop, ';' :: (body ++ '\n' :: blank), .comment hbody hblank, by simp⟩
        · rw [if_neg hc] at h
          cases h
          exact ⟨stops_cons.2 ⟨Bool.eq_false_iff.2 hspace, hc⟩, [], .nil, rfl⟩

/-- `skipws` consumes white space and comments, up to something else. -/
theorem skipws_eq_some_iff {cs rest : List Char} : skipws false cs = some rest ↔
    Stops rest ∧ ∃ blank, Blank blank ∧ cs = blank ++ rest := by
  constructor
  · intro h
    exact skipws_sound h
  · rintro ⟨hstop, blank, hblank, rfl⟩
    rw [skipws_blank hblank, skipws_of_stops hstop]

/-- Where something other than white space starts is determined. -/
theorem not_blank {blank cs : List Char} {c : Char} (h : Blank blank) (hc : Starts c) :
    ¬ Blank (blank ++ c :: cs) := by
  intro hall
  have hend : skipws false (blank ++ c :: cs) = some [] := by
    have := skipws_blank hall []
    rwa [List.append_nil] at this
  rw [skipws_blank h, skipws_of_head hc.1 hc.2] at hend
  cases hend

/-! ### The first character of a form -/

/-- The kinds of form, by their first character; no form starts with one of the kind `other`. -/
inductive Kind
  | quote
  | symbol
  | string
  | integer
  | list
  | other
  deriving DecidableEq

/-- The reader macro characters that `readquote` accepts. -/
def quoteChars : List Char := ['\'', '`', ',', '#']

def kind (c : Char) : Kind :=
  if c ∈ quoteChars then .quote
  else if issymstart c then .symbol
  else if c = '"' then .string
  else if c.isDigit then .integer
  else if c = '(' then .list
  else .other

/-- What is known of a character of a kind. -/
def Kind.Has : Kind → Char → Prop
  | .quote, c => c ∈ quoteChars
  | .symbol, c => c ∉ quoteChars ∧ issymstart c = true
  | .string, c => c = '"'
  | .integer, c => c.isDigit = true
  | .list, c => c = '('
  | .other, c => c ∉ quoteChars ∧ issymstart c = false ∧ c ≠ '"' ∧ c.isDigit = false ∧ c ≠ '('

theorem kind_has (c : Char) : (kind c).Has c := by
  unfold kind
  split_ifs with hquote hsym hstr hint hlist
  · exact hquote
  · exact ⟨hquote, hsym⟩
  · exact hstr
  · exact hint
  · exact hlist
  · exact ⟨hquote, Bool.eq_false_iff.2 hsym, hstr, Bool.eq_false_iff.2 hint, hlist⟩

instance (c : Char) : Decidable (Starts c) := inferInstanceAs (Decidable (_ ∧ _))

theorem forall_quoteChars (p : Char → Prop) :
    (∀ c ∈ quoteChars, p c) ↔ p '\'' ∧ p '`' ∧ p ',' ∧ p '#' := by
  simp [quoteChars]

theorem starts_of_mem_quoteChars {c : Char} (hc : c ∈ quoteChars) : Starts c :=
  (forall_quoteChars Starts).2 ⟨by decide, by decide, by decide, by decide⟩ c hc

theorem starts_of_kind {c : Char} (h : kind c ≠ .other) : Starts c := by
  have hc := kind_has c
  cases hk : kind c <;> rw [hk] at hc
  case quote => exact starts_of_mem_quoteChars hc
  case symbol => exact starts_of_issymstart hc.2
  case string => exact (show c = '"' from hc) ▸ by decide
  case integer => exact (isDigit_starts hc).1
  case list => exact (show c = '(' from hc) ▸ by decide
  case other => exact absurd hk h

/-- No form starts here. -/
def Blocked (cs : List Char) : Prop := ∀ c ∈ cs.head?, Starts c ∧ kind c = .other

@[simp] theorem blocked_nil : Blocked [] := by simp [Blocked]

@[simp] theorem blocked_cons {c : Char} {cs : List Char} :
    Blocked (c :: cs) ↔ Starts c ∧ kind c = .other := by
  simp [Blocked]

theorem Blocked.stops {cs : List Char} (h : Blocked cs) : Stops cs := fun c hc => (h c hc).1

section Read1

variable {R : Runtime} {rec : Reading → ReadResult} {n : ℕ} {w : World} {c : Char}
  {cs input : List Char} {s : Reading}

/-- Whatever is skipped first need not be there. -/
theorem read1_skip (h : skipws false s.input = some input) :
    read1 R n s = read1 R n ⟨input, s.world⟩ := by
  have hstop := skipws_of_stops (skipws_eq_some_iff.1 h).1
  cases n with
  | zero => rfl
  | succ n => simp only [read1, okayIf, readquote, h, hstop]

theorem read1_endless (h : skipws false s.input = none) : read1 R n s = none := by
  cases n with
  | zero => rfl
  | succ n => simp [read1, okayIf, readquote, h]

/-- At the end, and before a character that starts no form, all functions fail in turn. -/
theorem expected_of_blocked (h : Blocked cs) :
    readquote R rec ⟨cs, w⟩ = expected ⟨cs, w⟩ ∧ readsym R ⟨cs, w⟩ = expected ⟨cs, w⟩ ∧
      readstr R ⟨cs, w⟩ = expected ⟨cs, w⟩ ∧ readint ⟨cs, w⟩ = expected ⟨cs, w⟩ ∧
      readlist R rec n ⟨cs, w⟩ = expected ⟨cs, w⟩ := by
  cases cs with
  | nil => simp [readquote, readsym, readstr, readint, readlist, skipws]
  | cons c cs =>
    obtain ⟨hstart, hkind⟩ := blocked_cons.1 h
    have hc := kind_has c
    rw [hkind] at hc
    exact ⟨readquote_expected hstart hc.1, readsym_expected hstart hc.2.1,
      readstr_expected hstart hc.2.2.1, readint_expected hstart hc.2.2.2.1,
      readlist_expected hstart hc.2.2.2.2⟩

theorem read1_blocked (h : Blocked cs) : read1 R (n + 1) ⟨cs, w⟩ = expected ⟨cs, w⟩ := by
  obtain ⟨hquote, hsym, hstr, hint, hlist⟩ :=
    @expected_of_blocked R (read1 R n) n w _ h
  rw [read1, okayIf_expected hquote, okayIf_expected hsym, okayIf_expected hstr,
    okayIf_expected hint, okayIf_expected hlist]

/-- An alternative is tried only if the first one has failed in a safe state. -/
theorem okayIf_of_error {read next : Reading → ReadResult}
    (h : ∀ e s', read s = some (.error e, s') → e.safeState = false) :
    okayIf read next s = read s := by
  unfold okayIf
  cases hr : read s with
  | none => rfl
  | some r =>
    obtain ⟨v | v, s'⟩ := r
    · simp [h v s' hr]
    · rfl

theorem okayIf_of_safe {read next : Reading → ReadResult} {e : ReadError} {s' : Reading}
    (h : read s = some (.error e, s')) (he : e.safeState = true) :
    okayIf read next s = next s' := by
  simp [okayIf, h, he]

/-! ### One lemma for each kind -/

theorem readsym_symbol (hc : issymstart c = true) : ∃ v w',
    readsym R ⟨c :: cs, w⟩ = some (.ok v, ⟨cs.dropWhile issym, w'⟩) := by
  have hstart := starts_of_issymstart hc
  have hread : readsym R ⟨c :: cs, w⟩ = Reading.allocate R ⟨cs.dropWhile issym, w⟩
      (.text (String.ofList (c :: cs.takeWhile issym))) symbolTag := by
    simp only [readsym, skipws_of_head hstart.1 hstart.2, Option.bind_eq_bind, Option.bind_some, hc,
      if_true, List.span_eq_takeWhile_dropWhile]
  exact ⟨_, _, hread⟩

theorem read1_symbol (hc : kind c = .symbol) : ∃ v w',
    read1 R (n + 1) ⟨c :: cs, w⟩ = some (.ok v, ⟨cs.dropWhile issym, w'⟩) := by
  have hhas := kind_has c
  rw [hc] at hhas
  obtain ⟨v, w', h⟩ := @readsym_symbol R w _ cs hhas.2
  refine ⟨v, w', ?_⟩
  rw [read1, okayIf_expected (readquote_expected (starts_of_issymstart hhas.2) hhas.1)]
  exact okayIf_ok h

theorem read1_string : read1 R (n + 1) ⟨'"' :: cs, w⟩ = (readstrLoop false cs).bind fun r =>
    Reading.allocate R ⟨r.2, w⟩ (.text (String.ofList r.1)) stringTag := by
  have hstart : Starts '"' := by decide
  have hread : readstr R ⟨'"' :: cs, w⟩ = (readstrLoop false cs).bind fun r =>
      Reading.allocate R ⟨r.2, w⟩ (.text (String.ofList r.1)) stringTag := by
    simp only [readstr, skipws_of_head hstart.1 hstart.2, Option.bind_eq_bind, Option.bind_some,
      if_true]
  rw [read1, okayIf_expected (readquote_expected hstart (by decide)),
    okayIf_expected (readsym_expected hstart (by decide)), okayIf_of_error, hread]
  intro e s' h
  rw [hread] at h
  cases hl : readstrLoop false cs <;> rw [hl] at h <;> cases h

theorem read1_integer (hc : c.isDigit = true) : ∃ v,
    read1 R (n + 1) ⟨c :: cs, w⟩ = some (.ok v, ⟨(readintLoop 0 (c :: cs)).2, w⟩) := by
  obtain ⟨hstart, hquote, hsym, hstr⟩ := isDigit_starts hc
  have hread : readint ⟨c :: cs, w⟩ = some (.ok (intval (readintLoop 0 (c :: cs)).1),
      ⟨(readintLoop 0 (c :: cs)).2, w⟩) := by
    simp [readint, skipws_of_head hstart.1 hstart.2, hc]
  refine ⟨intval (readintLoop 0 (c :: cs)).1, ?_⟩
  rw [read1, okayIf_expected (readquote_expected hstart hquote),
    okayIf_expected (readsym_expected hstart hsym), okayIf_expected (readstr_expected hstart hstr)]
  exact okayIf_ok hread

/-- What a list may fail with is not a safe error. -/
theorem readlist_of_error {e : ReadError} {s' : Reading}
    (h : readlist R rec n ⟨'(' :: cs, w⟩ = some (.error e, s')) : e.safeState = false := by
  have hstart : Starts '(' := by decide
  simp only [readlist, skipws_of_head hstart.1 hstart.2, Option.bind_eq_bind, Option.bind_some,
    List.head?_cons, if_true, Option.bind_eq_some_iff] at h
  obtain ⟨r, -, input, -, h⟩ := h
  split_ifs at h <;> cases h
  rfl

theorem read1_list :
    read1 R (n + 1) ⟨'(' :: cs, w⟩ = readlist R (read1 R n) n ⟨'(' :: cs, w⟩ := by
  have hstart : Starts '(' := by decide
  rw [read1, okayIf_expected (readquote_expected hstart (by decide)),
    okayIf_expected (readsym_expected hstart (by decide)),
    okayIf_expected (readstr_expected hstart (by decide)),
    okayIf_expected (readint_expected hstart (by decide)),
    okayIf_of_error fun e s' h => readlist_of_error h]

/-- `readquote` passes on what it gets for the form behind the reader macro character, a failure
with its safety. -/
theorem readquote_cons (hc : c ∈ quoteChars) :
    match rec ⟨(quoteChar c cs).2, w⟩ with
    | none => readquote R rec ⟨c :: cs, w⟩ = none
    | some (.error e, s') => ∃ e', e'.safeState = e.safeState ∧
        readquote R rec ⟨c :: cs, w⟩ = some (.error e', s')
    | some (.ok _, s') => ∃ v w', readquote R rec ⟨c :: cs, w⟩ = some (.ok v, ⟨s'.input, w'⟩) := by
  have hstart := starts_of_mem_quoteChars hc
  have hmem : (c = '\'' || c = '`' || c = ',' || c = '#') = true := by
    simpa [quoteChars, or_assoc] using hc
  have hmacro : (readerMacro (quoteChar c cs).1).isSome := by
    unfold quoteChar
    split_ifs with h₁ h₂
    · rfl
    all_goals
      exact (forall_quoteChars fun c => (readerMacro c).isSome).2 ⟨rfl, rfl, rfl, rfl⟩ c hc
  obtain ⟨name, hname⟩ := Option.isSome_iff_exists.1 hmacro
  simp only [readquote, skipws_of_head hstart.1 hstart.2, Option.bind_eq_bind, Option.bind_some,
    hmem, if_true]
  cases rec ⟨(quoteChar c cs).2, w⟩ with
  | none => rfl
  | some r =>
    obtain ⟨e | v, s'⟩ := r
    · exact ⟨{ e with code := .expected, message := _ }, rfl, rfl⟩
    · simp only [Option.bind_some, hname]
      exact ⟨_, _, rfl⟩

theorem read1_quote (hc : c ∈ quoteChars) :
    match read1 R n ⟨(quoteChar c cs).2, w⟩ with
    | none => read1 R (n + 1) ⟨c :: cs, w⟩ = none
    | some (.error e, s') => (e.safeState = true → Blocked s'.input) → ∃ e',
        e'.safeState = e.safeState ∧ read1 R (n + 1) ⟨c :: cs, w⟩ = some (.error e', s')
    | some (.ok _, s') => ∃ v w', read1 R (n + 1) ⟨c :: cs, w⟩ = some (.ok v, ⟨s'.input, w'⟩) := by
  have hquote := @readquote_cons R (read1 R n) w _ cs hc
  cases hr : read1 R n ⟨(quoteChar c cs).2, w⟩ with
  | none =>
    rw [hr] at hquote
    simp only at hquote ⊢
    simp [read1, okayIf, hquote]
  | some r =>
    obtain ⟨e | v, s'⟩ := r
    · rw [hr] at hquote
      obtain ⟨e', hsafe, hquote⟩ := hquote
      intro hblocked
      cases he : e.safeState with
      | false =>
        refine ⟨e', hsafe.trans he, ?_⟩
        rw [read1, okayIf_of_error, hquote]
        intro e₁ s₁ h
        rw [hquote] at h
        cases h
        exact hsafe.trans he
      | true =>
        -- the alternatives to `readquote` are tried behind what it has consumed
        obtain ⟨-, hsym, hstr, hint, hlist⟩ :=
          @expected_of_blocked R (read1 R n) n s'.world _ (hblocked he)
        refine ⟨⟨.expected, true, ""⟩, rfl, ?_⟩
        rw [read1, okayIf_of_safe hquote (hsafe.trans he), okayIf_expected hsym,
          okayIf_expected hstr, okayIf_expected hint, okayIf_expected hlist]
        rfl
    · rw [hr] at hquote
      obtain ⟨v', w', hquote⟩ := hquote
      refine ⟨v', w', ?_⟩
      rw [read1]
      exact okayIf_ok hquote

end Read1

/-! ### Failures in a safe state -/

/-- No form follows in the text, only reader macro characters up to where `rest` starts. -/
inductive Formless : List Char → List Char → Prop
  | blocked {blank rest : List Char} (h : Blank blank) (hrest : Blocked rest) :
    Formless (blank ++ rest) rest
  | quote {blank cs rest : List Char} {c : Char} (h : Blank blank) (hc : c ∈ quoteChars)
    (hs : Formless (quoteChar c cs).2 rest) : Formless (blank ++ c :: cs) rest

theorem Formless.isBlocked {text rest : List Char} (h : Formless text rest) : Blocked rest := by
  induction h with
  | blocked _ hrest => exact hrest
  | quote _ _ _ ih => exact ih

theorem length_quoteChar (c : Char) (cs : List Char) : (quoteChar c cs).2.length ≤ cs.length := by
  unfold quoteChar
  split_ifs <;> simp

theorem quoteChar_suffix (c : Char) (cs : List Char) : (quoteChar c cs).2 <:+ cs := by
  unfold quoteChar
  split_ifs
  exacts [List.tail_suffix _, List.tail_suffix _, List.suffix_rfl]

theorem Formless.suffix {text rest : List Char} (h : Formless text rest) : rest <:+ text := by
  induction h with
  | @blocked blank rest _ _ => exact List.suffix_append _ _
  | @quote blank cs rest c _ _ _ ih =>
    exact (ih.trans (quoteChar_suffix c cs)).trans
      ((List.suffix_cons c cs).trans (List.suffix_append _ _))

section Safe

variable {R : Runtime} {n : ℕ} {s s' : Reading} {e : ReadError}

/-- If `read1` fails in a safe state, then there was no form, and memory is as before. -/
theorem formless_of_safe (h : read1 R n s = some (.error e, s')) (he : e.safeState = true) :
    Formless s.input s'.input ∧ s'.world = s.world := by
  induction n generalizing s e s' with
  | zero => cases h
  | succ n ih =>
    cases hskip : skipws false s.input with
    | none => rw [read1_endless hskip] at h; cases h
    | some input =>
      obtain ⟨hstop, blank, hblank, hinput⟩ := skipws_eq_some_iff.1 hskip
      rw [read1_skip hskip] at h
      by_cases hblocked : Blocked input
      · rw [read1_blocked hblocked] at h
        cases h
        exact ⟨hinput ▸ .blocked hblank hblocked, rfl⟩
      · cases input with
        | nil => exact absurd blocked_nil hblocked
        | cons c cs =>
          have hhas := kind_has c
          cases hk : kind c <;> rw [hk] at hhas
          case quote =>
            have hread := @read1_quote R n s.world _ cs hhas
            cases hr : read1 R n ⟨(quoteChar c cs).2, s.world⟩ with
            | none => rw [hr] at hread; rw [hread] at h; cases h
            | some r =>
              obtain ⟨e₁ | v, s₁⟩ := r
              · rw [hr] at hread
                obtain ⟨e₂, hsafe, hread⟩ := hread fun h₁ => (ih hr h₁).1.isBlocked
                rw [hread] at h
                cases h
                obtain ⟨hform, hworld⟩ := ih hr (hsafe.symm.trans he)
                exact ⟨hinput ▸ .quote hblank hhas hform, hworld⟩
              · rw [hr] at hread
                obtain ⟨v', w', hread⟩ := hread
                rw [hread] at h
                cases h
          case symbol =>
            obtain ⟨v, w', hread⟩ := @read1_symbol R n s.world _ cs hk
            rw [hread] at h
            cases h
          case string =>
            obtain rfl : c = '"' := hhas
            rw [read1_string] at h
            cases hl : readstrLoop false cs <;> rw [hl] at h <;> cases h
          case integer =>
            obtain ⟨v, hread⟩ := @read1_integer R n s.world _ cs hhas
            rw [hread] at h
            cases h
          case list =>
            obtain rfl : c = '(' := hhas
            rw [read1_list] at h
            rw [readlist_of_error h] at he
            cases he
          case other => exact absurd (blocked_cons.2 ⟨stops_cons.1 hstop, hk⟩) hblocked

/-- If there is no form, then `read1` fails in a safe state behind what it has consumed. -/
theorem safe_of_formless (R : Runtime) {text rest : List Char} (h : Formless text rest) :
    ∃ N, ∀ n ≥ N, ∀ w, ∃ e, e.safeState = true ∧
      read1 R n ⟨text, w⟩ = some (.error e, ⟨rest, w⟩) := by
  induction h with
  | @blocked blank rest hblank hrest =>
    refine ⟨1, fun n hn w => ⟨⟨.expected, true, ""⟩, rfl, ?_⟩⟩
    obtain ⟨n, rfl⟩ := Nat.exists_eq_succ_of_ne_zero (Nat.ne_zero_of_lt hn)
    have hskip : skipws false (blank ++ rest) = some rest :=
      skipws_eq_some_iff.2 ⟨hrest.stops, blank, hblank, rfl⟩
    rw [read1_skip hskip, read1_blocked hrest]
    rfl
  | @quote blank cs rest c hblank hc hs ih =>
    obtain ⟨N, hN⟩ := ih
    refine ⟨N + 1, fun n hn w => ?_⟩
    obtain ⟨n, rfl⟩ := Nat.exists_eq_succ_of_ne_zero (Nat.ne_zero_of_lt hn)
    have hskip : skipws false (blank ++ c :: cs) = some (c :: cs) :=
      skipws_eq_some_iff.2 ⟨stops_cons.2 (starts_of_mem_quoteChars hc), blank, hblank, rfl⟩
    obtain ⟨e, he, hr⟩ := hN n (by omega) w
    have hread := @read1_quote R n w _ cs hc
    rw [hr] at hread
    obtain ⟨e', he', hread⟩ := hread fun _ => hs.isBlocked
    refine ⟨e', he'.trans he, ?_⟩
    rw [read1_skip hskip, hread]

/-- `read1` fails in a safe state exactly if there is no form. -/
theorem read1_safe_iff (R : Runtime) (s : Reading) (rest : List Char) :
    (∃ n e w', e.safeState = true ∧ read1 R n s = some (.error e, ⟨rest, w'⟩)) ↔
      Formless s.input rest := by
  constructor
  · rintro ⟨n, e, w', he, h⟩
    exact (formless_of_safe h he).1
  · intro h
    obtain ⟨N, hN⟩ := safe_of_formless R h
    obtain ⟨e, he, hread⟩ := hN N le_rfl s.world
    exact ⟨N, e, s.world, he, hread⟩

/-! ### Consuming nothing -/

/-- If `read` fails in a safe state, then it has consumed white space and comments only. -/
def Harmless (read : Reading → ReadResult) (s : Reading) : Prop :=
  ∀ e s', read s = some (.error e, s') → e.safeState = true →
    ∃ blank, Blank blank ∧ s.input = blank ++ s'.input

/-- The text starts with a reader macro character that no form follows. -/
def Dangling (text : List Char) : Prop :=
  ∃ blank c cs rest, Blank blank ∧ c ∈ quoteChars ∧ Formless (quoteChar c cs).2 rest ∧
    text = blank ++ c :: cs

/-- A function that skips first, and fails in a safe state there only, consumes nothing else. -/
theorem harmless_of_skipped {read : Reading → ReadResult} (hnone : skipws false s.input = none →
    read s = none) (h : ∀ input, skipws false s.input = some input → ∀ e s',
    read s = some (.error e, s') → e.safeState = true → s'.input = input) : Harmless read s := by
  intro e s' hread he
  cases hskip : skipws false s.input with
  | none => rw [hnone hskip] at hread; cases hread
  | some input =>
    rw [h input hskip e s' hread he]
    exact (skipws_eq_some_iff.1 hskip).2

theorem readsym_harmless (R : Runtime) (s : Reading) : Harmless (readsym R) s := by
  refine harmless_of_skipped (fun h => by simp [readsym, h]) fun input hskip e s' h _ => ?_
  simp only [readsym, hskip, Option.bind_eq_bind, Option.bind_some] at h
  split at h
  · split_ifs at h <;> cases h
    rfl
  · cases h
    rfl

theorem readstr_harmless (R : Runtime) (s : Reading) : Harmless (readstr R) s := by
  refine harmless_of_skipped (fun h => by simp [readstr, h]) fun input hskip e s' h _ => ?_
  simp only [readstr, hskip, Option.bind_eq_bind, Option.bind_some] at h
  split at h
  · split_ifs at h
    · obtain ⟨r, -, h⟩ := Option.bind_eq_some_iff.1 h
      cases h
    · cases h
      rfl
  · cases h
    rfl

theorem readint_harmless (s : Reading) : Harmless readint s := by
  refine harmless_of_skipped (fun h => by simp [readint, h]) fun input hskip e s' h _ => ?_
  simp only [readint, hskip, Option.bind_eq_bind, Option.bind_some] at h
  split_ifs at h <;> cases h
  rfl

theorem readlist_harmless (R : Runtime) (rec : Reading → ReadResult) (n : ℕ) (s : Reading) :
    Harmless (readlist R rec n) s := by
  refine harmless_of_skipped (fun h => by simp [readlist, h]) fun input hskip e s' h he => ?_
  simp only [readlist, hskip, Option.bind_eq_bind, Option.bind_some] at h
  split_ifs at h
  · obtain ⟨r, -, h⟩ := Option.bind_eq_some_iff.1 h
    obtain ⟨input', -, h⟩ := Option.bind_eq_some_iff.1 h
    split_ifs at h <;> cases h
    cases he
  · cases h
    rfl

/-- What is read up to a character that no form starts with is not `Blank` if a reader macro
character was read. -/
theorem not_blank_of_suffix {blank pre cs rest : List Char} {c : Char} (hblank : Blank blank)
    (hc : Starts c) (hrest : rest <:+ cs) (h : blank ++ c :: cs = pre ++ rest) : ¬ Blank pre := by
  obtain ⟨q, rfl⟩ := hrest
  have hpre : blank ++ c :: q = pre := by
    rw [← List.cons_append, ← List.append_assoc] at h
    exact List.append_cancel_right h
  rw [← hpre]
  exact not_blank hblank hc

theorem readquote_harmless (R : Runtime) (n : ℕ) (h : ¬ Dangling s.input) :
    Harmless (readquote R (read1 R n)) s := by
  refine harmless_of_skipped (fun h => by simp [readquote, h]) fun input hskip e s' hread he => ?_
  obtain ⟨hstop, blank, hblank, hinput⟩ := skipws_eq_some_iff.1 hskip
  have hskip' : readquote R (read1 R n) s = readquote R (read1 R n) ⟨input, s.world⟩ := by
    simp only [readquote, hskip, skipws_of_stops hstop]
  rw [hskip'] at hread
  cases input with
  | nil =>
    rw [(expected_of_blocked blocked_nil (R := R) (n := n)).1] at hread
    cases hread
    rfl
  | cons c cs =>
    by_cases hc : c ∈ quoteChars
    · have hquote := @readquote_cons R (read1 R n) s.world _ cs hc
      cases hr : read1 R n ⟨(quoteChar c cs).2, s.world⟩ with
      | none => rw [hr] at hquote; rw [hquote] at hread; cases hread
      | some r =>
        obtain ⟨e₁ | v, s₁⟩ := r
        · rw [hr] at hquote
          obtain ⟨e₂, hsafe, hquote⟩ := hquote
          rw [hquote] at hread
          cases hread
          have hform := (formless_of_safe hr (hsafe.symm.trans he)).1
          exact absurd ⟨blank, c, cs, _, hblank, hc, hform, hinput⟩ h
        · rw [hr] at hquote
          obtain ⟨v', w', hquote⟩ := hquote
          rw [hquote] at hread
          cases hread
    · rw [readquote_expected (stops_cons.1 hstop) hc] at hread
      cases hread
      rfl

theorem read1_harmless_iff (R : Runtime) (s : Reading) :
    (∀ n, Harmless (read1 R n) s) ↔ ¬ Dangling s.input := by
  constructor
  · rintro h ⟨blank, c, cs, rest, hblank, hc, hform, hinput⟩
    have hall : Formless s.input rest := hinput ▸ .quote hblank hc hform
    obtain ⟨n, e, w', he, hread⟩ := (read1_safe_iff R s rest).2 hall
    obtain ⟨pre, hpre, heq⟩ := h n e _ hread he
    exact not_blank_of_suffix hblank (starts_of_mem_quoteChars hc)
      (hform.suffix.trans (quoteChar_suffix c cs)) (hinput.symm.trans heq) hpre
  · intro h n e s' hread he
    have hform := (formless_of_safe hread he).1
    generalize htext : s.input = text at hform
    cases hform with
    | blocked hblank hrest => exact ⟨_, hblank, rfl⟩
    | quote hblank hc hs => exact absurd ⟨_, _, _, _, hblank, hc, hs, htext⟩ h

/-- **A recoverable read error consumes nothing**, whatever function of the reader returns it,
exactly if the text does not start with a reader macro character that no form follows. -/
theorem harmless_iff (R : Runtime) (s : Reading) :
    (∀ n, Harmless (read1 R n) s ∧ Harmless (readquote R (read1 R n)) s ∧ Harmless (readsym R) s ∧
      Harmless (readstr R) s ∧ Harmless readint s ∧ Harmless (readlist R (read1 R n) n) s) ↔
      ¬ Dangling s.input := by
  rw [← read1_harmless_iff R s]
  constructor
  · intro h n
    exact (h n).1
  · intro h n
    exact ⟨h n, readquote_harmless R n ((read1_harmless_iff R s).1 h), readsym_harmless R s,
      readstr_harmless R s, readint_harmless s, readlist_harmless R (read1 R n) n s⟩

end Safe

/-- Memory before anything is allocated. -/
def World.initial : World := ⟨Heap.ofList [], fun _ => 0, 0, [], []⟩

/-- Of `'` nothing is left, but `read1` fails in a safe state. -/
theorem not_harmless_all : ¬ ∀ (R : Runtime) (s : Reading) (n : ℕ), Harmless (read1 R n) s := by
  intro h
  obtain ⟨blank, hblank, heq⟩ := h .inert ⟨['\''], .initial⟩ 2 ⟨.expected, true, ""⟩
    ⟨[], .initial⟩ rfl rfl
  obtain rfl : ['\''] = blank := by simpa using heq
  exact not_blank .nil (by decide) hblank

end Lisp

end Bluejay
