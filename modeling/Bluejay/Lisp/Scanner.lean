import Bluejay.Lisp.ReadErrors

/-!
# One pass over a text

`scan` goes over a text once, with a counter of open parentheses, and tells where its first form
ends.  It knows nothing of the functions that call each other to read the form.

* `skipwsFor`, `readstrFor` : the loops of `skipws` and `readstr` turn by turn, on streams whose
  `get` returns `-1` at the end; `skipws` and `readstrLoop` are what they come to.
* `Tracks` : a result of `read1` is what `scan` says.
* `read1_tracks` : it always is, given more turns than there are characters.
* `read1_mono` : with more turns `read1` comes to the same.
* `reader_ends_iff` : `read1` and `readn` end exactly if the scan of a list from here on does not
  run off the end of the text in a comment or in a string.
-/

namespace Bluejay

namespace Lisp

/-! ### Streams -/

/-- `peek` of a stream on a string; `none` is `-1`. -/
def peekc (cs : List Char) : Option Char := cs.head?

/-- `get`, which returns `-1` at the end, and leaves the stream there. -/
def getc (cs : List Char) : Option Char × List Char := (cs.head?, cs.tail)

/-- The loops of `skipws`, for at most `n` turns; inside of a comment or not. -/
def skipwsFor : ℕ → Bool → List Char → Option (List Char)
  | 0, _, _ => none
  | n + 1, true, cs => skipwsFor n ((getc cs).1 ≠ some '\n') (getc cs).2
  | n + 1, false, cs =>
    if (peekc cs).any isspace then skipwsFor n false (getc cs).2
    else if peekc cs = some ';' then skipwsFor n true cs
    else some cs

/-- The loop of `readstr`, for at most `n` turns. -/
def readstrFor : ℕ → Bool → List Char → Option (List Char × List Char)
  | 0, _, _ => none
  | n + 1, escape, cs =>
    if peekc cs ≠ some '"' then
      let (c, cs) := getc cs
      let c := if escape && c = some 'n' then some '\n' else c
      if c = some '\\' && !escape then readstrFor n true cs
      else (readstrFor n false cs).map fun r => (c.toList ++ r.1, r.2)
    else some ([], (getc cs).2)

attribute [local simp] peekc getc skipwsFor readstrFor

theorem skipws_of_skipwsFor {n : ℕ} {comment : Bool} {cs rest : List Char}
    (h : skipwsFor n comment cs = some rest) : skipws comment cs = some rest := by
  induction n generalizing comment cs with
  | zero => cases h
  | succ n ih =>
    cases comment with
    | true =>
      have hnext := ih h
      cases cs with
      | nil => simp [skipws] at hnext
      | cons c cs => simpa [skipws] using hnext
    | false =>
      rw [skipwsFor] at h
      cases cs with
      | nil => simpa [skipws] using h
      | cons c cs =>
        by_cases hspace : isspace c = true
        · have hnext := ih (by simpa [hspace] using h)
          simpa [skipws, hspace] using hnext
        · by_cases hc : c = ';'
          · subst hc
            have hnext := ih (by simpa [hspace] using h)
            simpa [skipws, hspace] using hnext
          · simpa [skipws, hspace, hc] using h

theorem exists_skipwsFor {cs rest : List Char} : ∀ {comment : Bool},
    skipws comment cs = some rest → ∃ n, skipwsFor n comment cs = some rest := by
  induction cs with
  | nil =>
    intro comment h
    cases comment with
    | false => exact ⟨1, h⟩
    | true => cases h
  | cons c cs ih =>
    intro comment h
    rw [skipws] at h
    cases comment with
    | true =>
      obtain ⟨n, hn⟩ := ih h
      exact ⟨n + 1, by simpa using hn⟩
    | false =>
      by_cases hspace : isspace c = true
      · rw [if_neg Bool.false_ne_true, if_pos hspace] at h
        obtain ⟨n, hn⟩ := ih h
        exact ⟨n + 1, by simpa [hspace] using hn⟩
      · rw [if_neg Bool.false_ne_true, if_neg hspace] at h
        by_cases hc : c = ';'
        · subst hc
          obtain ⟨n, hn⟩ := ih h
          -- one turn to see the semicolon, and one to get it
          exact ⟨n + 2, by simpa [hspace] using hn⟩
        · rw [if_neg hc] at h
          exact ⟨1, by simpa [hspace, hc] using h⟩

/-- `skipws` is what its loops come to, `none` if they do not end. -/
theorem skipws_iff {comment : Bool} {cs rest : List Char} :
    skipws comment cs = some rest ↔ ∃ n, skipwsFor n comment cs = some rest :=
  ⟨exists_skipwsFor, fun ⟨_, h⟩ => skipws_of_skipwsFor h⟩

/-- One turn of the loop is one step of `readstrLoop`. -/
theorem readstrFor_cons {n : ℕ} {escape : Bool} {c : Char} {cs : List Char} (hc : c ≠ '"') :
    readstrFor (n + 1) escape (c :: cs) =
      if (if escape && c = 'n' then '\n' else c) = '\\' && !escape then readstrFor n true cs
      else (readstrFor n false cs).map fun r =>
        ((if escape && c = 'n' then '\n' else c) :: r.1, r.2) := by
  by_cases hn : (escape && decide (c = 'n')) = true
  · simp [hc, hn]
  · simp [hc, hn]

/-- At the end the same turn is made again and again. -/
theorem readstrFor_nil (n : ℕ) (escape : Bool) : readstrFor n escape [] = none := by
  induction n generalizing escape with
  | zero => rfl
  | succ n ih => simp [ih]

theorem readstrLoop_of_readstrFor {n : ℕ} {escape : Bool} {cs : List Char}
    {r : List Char × List Char} (h : readstrFor n escape cs = some r) :
    readstrLoop escape cs = some r := by
  induction n generalizing escape cs r with
  | zero => cases h
  | succ n ih =>
    cases cs with
    | nil => rw [readstrFor_nil] at h; cases h
    | cons c cs =>
      by_cases hquote : c = '"'
      · simpa [readstrLoop, hquote] using h
      · rw [readstrFor_cons hquote] at h
        simp only [readstrLoop, if_neg hquote]
        generalize (if (escape && decide (c = 'n')) = true then '\n' else c) = kept at h ⊢
        split at h
        case isTrue hback => rw [if_pos hback, ih h]
        case isFalse hback =>
          obtain ⟨r', hr', hr⟩ := Option.map_eq_some_iff.1 h
          rw [if_neg hback, ih hr', Option.map_some, hr]

theorem exists_readstrFor {cs : List Char} : ∀ {escape : Bool} {r : List Char × List Char},
    readstrLoop escape cs = some r → ∃ n, readstrFor n escape cs = some r := by
  induction cs with
  | nil => intro escape r h; cases h
  | cons c cs ih =>
    intro escape r h
    by_cases hquote : c = '"'
    · exact ⟨1, by simpa [readstrLoop, hquote] using h⟩
    · have hturn := fun n => @readstrFor_cons n escape _ cs hquote
      simp only [readstrLoop, if_neg hquote] at h
      generalize (if (escape && decide (c = 'n')) = true then '\n' else c) = kept at h hturn
      split at h
      case isTrue hback =>
        obtain ⟨n, hn⟩ := ih h
        exact ⟨n + 1, by rw [hturn, if_pos hback, hn]⟩
      case isFalse hback =>
        obtain ⟨r', hr', hr⟩ := Option.map_eq_some_iff.1 h
        obtain ⟨n, hn⟩ := ih hr'
        exact ⟨n + 1, by rw [hturn, if_neg hback, hn, Option.map_some, hr]⟩

/-- The loop of `readstr` likewise. -/
theorem readstrLoop_iff {escape : Bool} {cs : List Char} {r : List Char × List Char} :
    readstrLoop escape cs = some r ↔ ∃ n, readstrFor n escape cs = some r :=
  ⟨exists_readstrFor, fun ⟨_, h⟩ => readstrLoop_of_readstrFor h⟩

/-! ### The scan -/

/-- Where in the text the scan is; `comma` right behind a comma. -/
inductive Mode
  | code (comma : Bool)
  | comment
  | string
  deriving DecidableEq

/-- What is found: the end of a form, a character or an end of the text that ends the reading of
all open lists, or the end of the text inside of a comment or a string. -/
inductive Verdict
  | form (rest : List Char)
  | stuck (rest : List Char)
  | endless
  deriving DecidableEq

/-- Go over the text to the end of the first form, inside of `depth` open lists. -/
def scan : Mode → ℕ → List Char → Verdict
  | .code _, _, [] => .stuck []
  | .comment, _, [] | .string, _, [] => .endless
  | .comment, depth, c :: cs => scan (if c = '\n' then .code false else .comment) depth cs
  | .string, depth, c :: cs =>
    if c ≠ '"' then scan .string depth cs
    else if depth = 0 then .form cs
    else scan (.code false) depth cs
  | .code comma, depth, c :: cs =>
    if comma && c = '@' || isspace c then scan (.code false) depth cs
    else if c = ';' then scan .comment depth cs
    else match kind c with
      | .quote => scan (.code (c = ',')) depth cs
      | .symbol => if depth = 0 then .form (cs.dropWhile issym) else scan (.code false) depth cs
      | .integer =>
        if depth = 0 then .form (cs.dropWhile Char.isDigit) else scan (.code false) depth cs
      | .string => scan .string depth cs
      | .list => scan (.code false) (depth + 1) cs
      | .other =>
        if c ≠ ')' || depth = 0 then .stuck (c :: cs)
        else if depth = 1 then .form cs
        else scan (.code false) (depth - 1) cs

attribute [local simp] scan

section Scan

variable {depth n : ℕ} {c : Char} {cs rest : List Char} {b escape : Bool}

/-- What a character that is not skipped means. -/
theorem scan_starts (hstart : Starts c) : scan (.code false) depth (c :: cs) =
    match kind c with
    | .quote => scan (.code (c = ',')) depth cs
    | .symbol => if depth = 0 then .form (cs.dropWhile issym) else scan (.code false) depth cs
    | .integer =>
      if depth = 0 then .form (cs.dropWhile Char.isDigit) else scan (.code false) depth cs
    | .string => scan .string depth cs
    | .list => scan (.code false) (depth + 1) cs
    | .other =>
      if c ≠ ')' || depth = 0 then .stuck (c :: cs)
      else if depth = 1 then .form cs
      else scan (.code false) (depth - 1) cs := by
  rw [scan, Bool.false_and, Bool.false_or, if_neg (by simp [hstart.1]), if_neg hstart.2]

/-- A comment ends with its line, and with the text never. -/
theorem scan_skipws {comment : Bool} :
    scan (if comment then .comment else .code false) depth cs = match skipws comment cs with
      | none => .endless
      | some rest => scan (.code false) depth rest := by
  induction cs generalizing comment with
  | nil => cases comment <;> rfl
  | cons c cs ih =>
    cases comment with
    | true =>
      rw [skipws, if_pos rfl, if_pos rfl, ← ih, scan]
      by_cases hc : c = '\n' <;> simp [hc]
    | false =>
      rw [skipws, if_neg Bool.false_ne_true, if_neg Bool.false_ne_true]
      by_cases hspace : isspace c = true
      · rw [if_pos hspace, ← ih]
        simp [hspace]
      · rw [if_neg hspace]
        by_cases hc : c = ';'
        · subst hc
          rw [if_pos rfl, ← ih]
          simp [hspace]
        · rw [if_neg hc]

/-- A string ends at the next quotation mark, escaped or not. -/
theorem scan_string : scan .string depth cs = match readstrLoop escape cs with
    | none => .endless
    | some (_, rest) => if depth = 0 then .form rest else scan (.code false) depth rest := by
  induction cs generalizing escape with
  | nil => rfl
  | cons c cs ih =>
    by_cases hc : c = '"'
    · simp [readstrLoop, hc]
    · simp only [scan, readstrLoop, ne_eq, hc, not_false_eq_true, if_true, if_false]
      generalize (if (escape && decide (c = 'n')) = true then '\n' else c) = kept
      by_cases hback : (decide (kept = '\\') && !escape) = true
      · rw [if_pos hback]
        exact ih
      · rw [if_neg hback, @ih false]
        cases readstrLoop false cs <;> rfl

/-- In a list it does not matter whether a comma was just read. -/
theorem scan_comma : scan (.code b) (depth + 1) cs = scan (.code false) (depth + 1) cs := by
  cases cs with
  | nil => rfl
  | cons c cs =>
    by_cases hc : b = true ∧ c = '@'
    · obtain ⟨hb, hc⟩ := hc
      subst hb hc
      have hkind : kind '@' = .symbol := by decide
      have hspace : isspace '@' = false := by decide
      simp [hkind, hspace]
    · have hb : (b && decide (c = '@')) = false := by simpa using hc
      simp only [scan, hb, Bool.false_and, Bool.false_or]

theorem kind_of_issym (h : issym c = true) : kind c = .quote ∨ kind c = .symbol ∨ kind c = .integer := by
  have hc := kind_has c
  have hsym : issymstart c = true ∨ c.isDigit = true := by
    simpa [issym, issymstart, or_assoc] using h
  cases hk : kind c <;> rw [hk] at hc
  case quote => exact .inl rfl
  case symbol => exact .inr (.inl rfl)
  case integer => exact .inr (.inr rfl)
  case other =>
    have hhas := hc
    simp [Kind.Has] at hhas
    rcases hsym with h | h <;> simp_all
  case string => exact absurd (show c = '"' from hc) (by rintro rfl; exact absurd h (by decide))
  case list => exact absurd (show c = '(' from hc) (by rintro rfl; exact absurd h (by decide))

/-- In a list the scan goes through symbols and integers character by character. -/
theorem scan_issym (h : issym c = true) :
    scan (.code false) (depth + 1) (c :: cs) = scan (.code false) (depth + 1) cs := by
  have hkind := kind_of_issym h
  have hstart : Starts c := starts_of_kind (by rcases hkind with h | h | h <;> rw [h] <;> decide)
  rw [scan_starts hstart]
  rcases hkind with hk | hk | hk <;> simp only [hk]
  · exact scan_comma
  · rfl
  · rfl

theorem scan_dropWhile {p : Char → Bool} (hp : ∀ c, p c = true → issym c = true) :
    scan (.code false) (depth + 1) (cs.dropWhile p) = scan (.code false) (depth + 1) cs := by
  induction cs with
  | nil => rfl
  | cons c cs ih =>
    by_cases hc : p c = true
    · rw [List.dropWhile_cons_of_pos hc, ih, scan_issym (hp c hc)]
    · rw [List.dropWhile_cons_of_neg hc]

theorem scan_quote (hc : c ∈ quoteChars) :
    scan (.code false) depth (c :: cs) = scan (.code false) depth (quoteChar c cs).2 := by
  have hstart := starts_of_mem_quoteChars hc
  have hstep : scan (.code false) depth (c :: cs) = scan (.code (c = ',')) depth cs := by
    have hkind : kind c = .quote := if_pos hc
    rw [scan_starts hstart, hkind]
  rw [hstep]
  unfold quoteChar
  cases cs with
  | nil => split_ifs <;> rfl
  | cons d cs =>
    by_cases hcomma : c = ','
    · subst hcomma
      by_cases hd : d = '@'
      · subst hd
        simp
      · simp [hd]
    · by_cases hhash : c = '#' ∧ d = '\''
      · obtain ⟨rfl, rfl⟩ := hhash
        have hkind : kind '\'' = .quote := by decide
        have hspace : isspace '\'' = false := by decide
        simp [hkind, hspace]
      · simp [hcomma, hhash]

/-! ### What `read1` consumes -/

/-- A result of reading a form is what `scan` says, also where the form is an entry of a list. -/
def Tracks (input : List Char) : ReadResult → Prop
  | none => ∀ depth, scan (.code false) depth input = .endless
  | some (.ok _, s') => s'.input.length < input.length ∧
    scan (.code false) 0 input = .form s'.input ∧
    ∀ depth, scan (.code false) (depth + 1) input = scan (.code false) (depth + 1) s'.input
  | some (.error _, s') => s'.input.length ≤ input.length ∧ Blocked s'.input ∧
    scan (.code false) 0 input = .stuck s'.input ∧
    ∀ depth, scan (.code false) (depth + 1) input = scan (.code false) (depth + 1) s'.input

/-- So is a result of reading the entries of a list. -/
def TracksAll (input : List Char) : Option (Word × Reading) → Prop
  | none => ∀ depth, scan (.code false) (depth + 1) input = .endless
  | some (_, s') => s'.input.length ≤ input.length ∧ Blocked s'.input ∧
    ∀ depth, scan (.code false) (depth + 1) input = scan (.code false) (depth + 1) s'.input

/-- Only a parenthesis that closes a list is not the end. -/
theorem scan_stuck (h : Blocked cs) (hdepth : depth = 0 ∨ cs.head? ≠ some ')') :
    scan (.code false) depth cs = .stuck cs := by
  cases cs with
  | nil => rfl
  | cons c cs =>
    obtain ⟨hstart, hkind⟩ := blocked_cons.1 h
    have hend : (c ≠ ')' || decide (depth = 0)) = true := by
      simpa [or_comm] using hdepth
    rw [scan_starts hstart, hkind]
    exact if_pos hend

theorem scan_close : scan (.code false) (depth + 1) (')' :: cs) =
    if depth = 0 then .form cs else scan (.code false) depth cs := by
  have hkind : kind ')' = .other := by decide
  have hspace : isspace ')' = false := by decide
  simp [hkind, hspace]

/-- `skipws` does not change what is found. -/
theorem Tracks.of_skipws {input : List Char} {r : ReadResult}
    (h : skipws false cs = some input) (hr : Tracks input r) : Tracks cs r := by
  have hscan : ∀ depth, scan (.code false) depth cs = scan (.code false) depth input := by
    intro depth
    have := @scan_skipws depth cs false
    simpa [h] using this
  have hlen : input.length ≤ cs.length := by
    obtain ⟨-, blank, -, rfl⟩ := skipws_eq_some_iff.1 h
    simp
  rcases r with _ | ⟨e | v, s'⟩
  · intro depth
    rw [hscan, hr]
  · exact ⟨hr.1.trans hlen, hr.2.1, (hscan 0).trans hr.2.2.1, fun depth =>
      (hscan _).trans (hr.2.2.2 depth)⟩
  · exact ⟨hr.1.trans_le hlen, (hscan 0).trans hr.2.1, fun depth => (hscan _).trans (hr.2.2 depth)⟩

theorem readnLoop_tracks {R : Runtime} {rec : Reading → ReadResult} {k : ℕ}
    (hrec : ∀ s : Reading, s.input.length < k → Tracks s.input (rec s)) {first : Word}
    {last : Option Word} {s : Reading} (hk : s.input.length < k) (hn : s.input.length < n) :
    TracksAll s.input (readnLoop R rec n first last s) := by
  induction n generalizing first last s with
  | zero => cases hn
  | succ n ih =>
    have hr := hrec s hk
    rw [readnLoop]
    generalize rec s = r at hr ⊢
    rcases r with _ | ⟨e | v, s'⟩
    · intro depth
      exact hr (depth + 1)
    · exact ⟨hr.1, hr.2.1, hr.2.2.2⟩
    · obtain ⟨hlt, -, hscan⟩ := hr
      -- the next turn starts behind the form
      have hnext : ∀ {first last w}, TracksAll s.input
          (readnLoop R rec n first last ⟨s'.input, w⟩) := by
        intro first last w
        have hloop := @ih first last ⟨s'.input, w⟩
          (hlt.trans hk) (by change s'.input.length < n; omega)
        generalize readnLoop R rec n first last ⟨s'.input, w⟩ = r at hloop ⊢
        rcases r with _ | ⟨v', s''⟩
        · intro depth
          rw [hscan, hloop depth]
        · exact ⟨hloop.1.trans hlt.le, hloop.2.1, fun depth =>
            (hscan depth).trans (hloop.2.2 depth)⟩
      cases last with
      | none => exact hnext
      | some last => exact hnext

theorem readlist_tracks {R : Runtime} {rec : Reading → ReadResult} {k : ℕ} {w : World}
    (hrec : ∀ s : Reading, s.input.length < k → Tracks s.input (rec s)) (hk : cs.length < k)
    (hn : cs.length < n) : Tracks ('(' :: cs) (readlist R rec n ⟨'(' :: cs, w⟩) := by
  have hstart : Starts '(' := by decide
  have hscan : ∀ depth, scan (.code false) depth ('(' :: cs) = scan (.code false) (depth + 1) cs := by
    intro depth
    have hkind : kind '(' = .list := by decide
    rw [scan_starts hstart, hkind]
  have hloop : TracksAll cs (readn R rec n ⟨cs, w⟩) :=
    readnLoop_tracks hrec (s := ⟨cs, w⟩) hk hn
  simp only [readlist, skipws_of_head hstart.1 hstart.2, Option.bind_eq_bind, Option.bind_some,
    List.head?_cons, if_true, List.tail_cons]
  generalize readn R rec n ⟨cs, w⟩ = r at hloop ⊢
  rcases r with _ | ⟨v, s'⟩
  · intro depth
    rw [hscan, hloop depth]
  · obtain ⟨hle, hblocked, hrest⟩ := hloop
    simp only [Option.bind_some, skipws_of_stops hblocked.stops]
    by_cases hclose : s'.input.head? = some ')'
    · obtain ⟨rest, hinput⟩ : ∃ rest, s'.input = ')' :: rest := by
        cases hs : s'.input with
        | nil => rw [hs] at hclose; cases hclose
        | cons c rest => rw [hs] at hclose; cases hclose; exact ⟨rest, rfl⟩
      rw [if_pos hclose, hinput]
      rw [hinput] at hle hrest
      refine ⟨?_, ?_, fun depth => ?_⟩
      · exact (Nat.lt_succ_of_le (Nat.le_succ _)).trans_le (Nat.succ_le_succ hle)
      · rw [hscan, hrest, scan_close, if_pos rfl]
        rfl
      · rw [hscan, hrest, scan_close, if_neg (Nat.succ_ne_zero _)]
        rfl
    · rw [if_neg hclose]
      refine ⟨hle.trans (Nat.le_succ _), hblocked, ?_, fun depth => ?_⟩
      · rw [hscan, hrest, scan_stuck hblocked (.inr hclose)]
      · rw [hscan, hrest, scan_stuck hblocked (.inr hclose), scan_stuck hblocked (.inr hclose)]

theorem length_of_readstrLoop {r : List Char × List Char} (h : readstrLoop escape cs = some r) :
    r.2.length < cs.length := by
  induction cs generalizing escape r with
  | nil => cases h
  | cons c cs ih =>
    by_cases hquote : c = '"'
    · obtain rfl : ([], cs) = r := by simpa [readstrLoop, hquote] using h
      exact Nat.lt_succ_self _
    · simp only [readstrLoop, if_neg hquote] at h
      generalize (if (escape && decide (c = 'n')) = true then '\n' else c) = kept at h
      split at h
      · exact (ih h).trans (Nat.lt_succ_self _)
      · obtain ⟨r', hr', rfl⟩ := Option.map_eq_some_iff.1 h
        exact (ih hr').trans (Nat.lt_succ_self _)

theorem readintLoop_snd (a : ℕ) (cs : List Char) :
    (readintLoop a cs).2 = cs.dropWhile Char.isDigit := by
  induction cs generalizing a with
  | nil => rfl
  | cons c cs ih =>
    by_cases hc : c.isDigit = true
    · rw [readintLoop, if_pos hc, ih, List.dropWhile_cons_of_pos hc]
    · rw [readintLoop, if_neg hc, List.dropWhile_cons_of_neg hc]

/-- Given more turns than there are characters, `read1` consumes what `scan` says. -/
theorem read1_tracks (R : Runtime) : ∀ (n : ℕ) (s : Reading), s.input.length < n →
    Tracks s.input (read1 R n s) := by
  intro n
  induction n with
  | zero => intro s hn; cases hn
  | succ n ih =>
    intro s hn
    cases hskip : skipws false s.input with
    | none =>
      rw [read1_endless hskip]
      intro depth
      have := @scan_skipws depth s.input false
      simpa [hskip] using this
    | some input =>
      obtain ⟨hstop, blank, -, hinput⟩ := skipws_eq_some_iff.1 hskip
      have hlen : input.length ≤ n := by
        have : input.length ≤ s.input.length := by simp [hinput]
        omega
      rw [read1_skip hskip]
      refine .of_skipws hskip ?_
      by_cases hblocked : Blocked input
      · rw [read1_blocked hblocked]
        exact ⟨le_rfl, hblocked, scan_stuck hblocked (.inl rfl), fun _ => rfl⟩
      · cases input with
        | nil => exact absurd blocked_nil hblocked
        | cons c cs =>
          have hcs : cs.length < n := hlen
          have hstart := stops_cons.1 hstop
          have hhas := kind_has c
          -- a symbol and an integer are forms of their own, and are passed through in a list
          have hword : ∀ p : Char → Bool, (∀ c, p c = true → issym c = true) → issym c = true →
              scan (.code false) 0 (c :: cs) = .form (cs.dropWhile p) → ∀ v w,
              Tracks (c :: cs) (some (.ok v, ⟨cs.dropWhile p, w⟩)) := by
            intro p hp hc hzero v w
            refine ⟨?_, hzero, fun depth => ?_⟩
            · exact Nat.lt_succ_of_le (List.dropWhile_sublist p).length_le
            · rw [scan_issym hc, scan_dropWhile hp]
          cases hk : kind c <;> rw [hk] at hhas
          case quote =>
            have hread := @read1_quote R n s.world _ cs hhas
            have hlen' := length_quoteChar c cs
            have hquote := ih ⟨(quoteChar c cs).2, s.world⟩ (hlen'.trans_lt hcs)
            cases hr : read1 R n ⟨(quoteChar c cs).2, s.world⟩ with
            | none =>
              rw [hr] at hread hquote
              rw [hread]
              intro depth
              rw [scan_quote hhas, hquote depth]
            | some r =>
              obtain ⟨e | v, s'⟩ := r
              · rw [hr] at hread hquote
                obtain ⟨hle, hblocked', hzero, hscan⟩ := hquote
                obtain ⟨e', -, hread⟩ := hread fun _ => hblocked'
                rw [hread]
                refine ⟨hle.trans (hlen'.trans (Nat.le_succ _)), hblocked', ?_, fun depth => ?_⟩
                · rw [scan_quote hhas, hzero]
                · rw [scan_quote hhas, hscan]
              · rw [hr] at hread hquote
                obtain ⟨hlt, hzero, hscan⟩ := hquote
                obtain ⟨v', w', hread⟩ := hread
                rw [hread]
                refine ⟨hlt.trans_le (hlen'.trans (Nat.le_succ _)), ?_, fun depth => ?_⟩
                · rw [scan_quote hhas, hzero]
                · rw [scan_quote hhas, hscan]
          case symbol =>
            obtain ⟨v, w', hread⟩ := @read1_symbol R n s.world _ cs hk
            rw [hread]
            refine hword issym (fun _ h => h) (by simp_all [issym, issymstart, Kind.Has]) ?_ _ _
            rw [scan_starts hstart, hk]
            rfl
          case string =>
            obtain rfl : c = '"' := hhas
            have hscan : ∀ depth, scan (.code false) depth ('"' :: cs) =
                match readstrLoop false cs with
                | none => .endless
                | some (_, rest) =>
                  if depth = 0 then .form rest else scan (.code false) depth rest := by
              intro depth
              rw [scan_starts hstart, hk]
              exact scan_string
            rw [read1_string]
            cases hloop : readstrLoop false cs with
            | none =>
              intro depth
              rw [hscan, hloop]
            | some r =>
              refine ⟨?_, ?_, fun depth => ?_⟩
              · exact (length_of_readstrLoop hloop).trans (Nat.lt_succ_self _)
              · rw [hscan, hloop]
                rfl
              · rw [hscan, hloop]
                rfl
          case integer =>
            obtain ⟨v, hread⟩ := @read1_integer R n s.world _ cs hhas
            rw [hread, readintLoop_snd, List.dropWhile_cons_of_pos hhas]
            have hdigit : c.isDigit = true := hhas
            refine hword Char.isDigit (fun _ h => by simp [issym, h]) (by simp [issym, hdigit]) ?_ _ _
            rw [scan_starts hstart, hk]
            rfl
          case list =>
            obtain rfl : c = '(' := hhas
            rw [read1_list]
            exact readlist_tracks ih hcs hcs
          case other => exact absurd (blocked_cons.2 ⟨hstart, hk⟩) hblocked

theorem readn_tracks (R : Runtime) (s : Reading) (hn : s.input.length < n) :
    TracksAll s.input (readn R (read1 R n) n s) :=
  readnLoop_tracks (read1_tracks R n) hn hn

theorem read1_eq_none_iff {R : Runtime} {s : Reading} (hn : s.input.length < n) :
    read1 R n s = none ↔ scan (.code false) 0 s.input = .endless := by
  have htracks := read1_tracks R n s hn
  generalize read1 R n s = r at htracks ⊢
  rcases r with _ | ⟨e | v, s'⟩
  · exact iff_of_true rfl (htracks 0)
  · exact iff_of_false nofun (by rw [htracks.2.2.1]; nofun)
  · exact iff_of_false nofun (by rw [htracks.2.1]; nofun)

theorem readn_eq_none_iff {R : Runtime} {s : Reading} (hn : s.input.length < n) :
    readn R (read1 R n) n s = none ↔ scan (.code false) 1 s.input = .endless := by
  have htracks := readn_tracks R s hn
  generalize readn R (read1 R n) n s = r at htracks ⊢
  rcases r with _ | ⟨v, s'⟩
  · exact iff_of_true rfl (htracks 0)
  · refine iff_of_false nofun ?_
    obtain ⟨-, hblocked, hscan⟩ := htracks
    rw [hscan]
    cases hs : s'.input with
    | nil => exact nofun
    | cons c cs =>
      obtain ⟨hstart, hkind⟩ := blocked_cons.1 (hs ▸ hblocked)
      rw [scan_starts hstart, hkind]
      by_cases hc : c = ')' <;> simp [hc]

/-- **The reader terminates** exactly on the texts whose scan does not run off the end in a comment
or in a string: for `read1` a scan up to the end of the first form, for `readn` up to the first
character that is not part of a form. -/
theorem reader_ends_iff (R : Runtime) (s : Reading) :
    ((∃ N, ∀ n ≥ N, read1 R n s ≠ none) ↔ scan (.code false) 0 s.input ≠ .endless) ∧
    ((∃ N, ∀ n ≥ N, readn R (read1 R n) n s ≠ none) ↔ scan (.code false) 1 s.input ≠ .endless) := by
  constructor
  · constructor
    · rintro ⟨N, hN⟩
      have hn : s.input.length < N + s.input.length + 1 := by omega
      exact (read1_eq_none_iff hn).not.1 (hN _ (by omega))
    · intro h
      exact ⟨s.input.length + 1, fun n hn => (read1_eq_none_iff hn).not.2 h⟩
  · constructor
    · rintro ⟨N, hN⟩
      have hn : s.input.length < N + s.input.length + 1 := by omega
      exact (readn_eq_none_iff hn).not.1 (hN _ (by omega))
    · intro h
      exact ⟨s.input.length + 1, fun n hn => (readn_eq_none_iff hn).not.2 h⟩

end Scan

/-! ### More turns -/

/-- Whatever `f` comes to, `g` comes to. -/
def Refines {α β : Type} (f g : α → Option β) : Prop := ∀ s r, f s = some r → g s = some r

section Turns

variable {R : Runtime} {f g f' g' : Reading → ReadResult} {n m : ℕ}

theorem Refines.okayIf (h : Refines f g) (h' : Refines f' g') :
    Refines (okayIf f f') (okayIf g g') := by
  intro s r hr
  obtain ⟨⟨r₁, s₁⟩, h₁, hr⟩ := Option.bind_eq_some_iff.1 hr
  refine Option.bind_eq_some_iff.2 ⟨(r₁, s₁), h s _ h₁, ?_⟩
  cases r₁ with
  | ok v => exact hr
  | error e =>
    dsimp only at hr ⊢
    split_ifs at hr ⊢
    · exact h' s₁ r hr
    · exact hr

theorem Refines.readquote (h : Refines f g) : Refines (readquote R f) (readquote R g) := by
  intro s r hr
  obtain ⟨input, hinput, hr⟩ := Option.bind_eq_some_iff.1 hr
  refine Option.bind_eq_some_iff.2 ⟨input, hinput, ?_⟩
  cases input with
  | nil => exact hr
  | cons c cs =>
    dsimp only at hr ⊢
    split_ifs at hr ⊢
    · obtain ⟨⟨r₁, s₁⟩, h₁, hr⟩ := Option.bind_eq_some_iff.1 hr
      exact Option.bind_eq_some_iff.2 ⟨(r₁, s₁), h _ _ h₁, hr⟩
    · exact hr

theorem Refines.readnLoop (h : Refines f g) (hnm : n ≤ m) {first : Word} {last : Option Word} :
    Refines (readnLoop R f n first last) (readnLoop R g m first last) := by
  induction n generalizing m first last with
  | zero => intro s r hr; cases hr
  | succ n ih =>
    obtain ⟨m, rfl⟩ := Nat.exists_eq_succ_of_ne_zero (Nat.ne_zero_of_lt hnm)
    intro s r hr
    obtain ⟨⟨r₁, s₁⟩, h₁, hr⟩ := Option.bind_eq_some_iff.1 hr
    refine Option.bind_eq_some_iff.2 ⟨(r₁, s₁), h s _ h₁, ?_⟩
    cases r₁ with
    | error e => exact hr
    | ok v =>
      cases last with
      | none => exact ih (Nat.le_of_succ_le_succ hnm) _ _ hr
      | some last => exact ih (Nat.le_of_succ_le_succ hnm) _ _ hr

theorem Refines.readlist (h : Refines f g) (hnm : n ≤ m) :
    Refines (readlist R f n) (readlist R g m) := by
  intro s r hr
  obtain ⟨input, hinput, hr⟩ := Option.bind_eq_some_iff.1 hr
  refine Option.bind_eq_some_iff.2 ⟨input, hinput, ?_⟩
  dsimp only at hr ⊢
  split_ifs at hr ⊢
  · obtain ⟨⟨v, s₁⟩, h₁, hr⟩ := Option.bind_eq_some_iff.1 hr
    exact Option.bind_eq_some_iff.2 ⟨(v, s₁), h.readnLoop hnm _ _ h₁, hr⟩
  · exact hr

/-- With more turns `read1` comes to the same. -/
theorem read1_mono (R : Runtime) (hnm : n ≤ m) : Refines (read1 R n) (read1 R m) := by
  induction n generalizing m with
  | zero => intro s r hr; cases hr
  | succ n ih =>
    obtain ⟨m, rfl⟩ := Nat.exists_eq_succ_of_ne_zero (Nat.ne_zero_of_lt hnm)
    have hrec := ih (Nat.le_of_succ_le_succ hnm)
    have hself : ∀ f : Reading → ReadResult, Refines f f := fun _ _ _ h => h
    intro s r hr
    rw [read1] at hr ⊢
    exact (hrec.readquote.okayIf ((hself _).okayIf ((hself _).okayIf ((hself _).okayIf
      ((hrec.readlist (Nat.le_of_succ_le_succ hnm)).okayIf (hself _)))))) s r hr

end Turns

/-- A comment that is the last line, without a newline, is read forever. -/
theorem not_reader_ends_all :
    ¬ ∀ (R : Runtime) (s : Reading), ∃ N, ∀ n ≥ N, read1 R n s ≠ none := by
  intro h
  obtain ⟨N, hN⟩ := h .inert ⟨[';'], .initial⟩
  exact hN N le_rfl (read1_endless rfl)

end Lisp

end Bluejay
