import Mathlib.Data.Nat.Find
import Bluejay.Lisp.Reader

/-!
# The buffers of tokens

* `readsymWrites`, `readstrWrites` : what `readsym` and `readstr` write into the area for the
  characters of a token, and the size of the area at each write.  The input is all that `get` will
  return, also behind the end of the stream.
* `SymbolInside`, `StringInside` : all writes are inside of the area.
* `tokensInside_iff` : when this is so.  `readstr` does not look at the size before it writes the
  zero byte, and the size is an `int`.
-/

namespace Bluejay

namespace Lisp

/-- A write `s[index] = value`, with the size of the area then. -/
structure TokenWrite where
  index : ℕ
  size : ℤ
  value : Char
  deriving DecidableEq

/-- The write is inside of the area. -/
def TokenWrite.Inside (x : TokenWrite) : Prop := x.index < x.size

instance : DecidablePred TokenWrite.Inside := fun _ => inferInstanceAs (Decidable (_ < _))

/-- All writes are inside of the area, however many turns there are. -/
def AllInside (writes : ℕ → List TokenWrite) : Prop := ∀ n, ∀ x ∈ writes n, x.Inside

/-- `size *= 2`, for an `int`. -/
def doubled (size : ℤ) : ℤ := signed32 (size * 2 % 2 ^ 32).toNat

/-- `if (i >= size) { size *= 2; ... }`. -/
def grow (i : ℕ) (size : ℤ) : ℤ := if size ≤ i then doubled size else size

section Writes

variable (input : ℕ → Char)

/-- The loop of `readsym`, for at most `n` turns, at the place `p` of the input. -/
def readsymWritesLoop : ℕ → ℕ → ℕ → ℤ → List TokenWrite
  | 0, _, _, _ => []
  | n + 1, p, i, size =>
    let size := grow i size
    if issym (input p) then ⟨i, size, input p⟩ :: readsymWritesLoop n (p + 1) (i + 1) size
    else [⟨i, size, '\x00'⟩]

/-- `readsym`, behind the white space, for at most `n` turns of the loop. -/
def readsymWrites (n : ℕ) : List TokenWrite :=
  if issymstart (input 0) then ⟨0, 8, input 0⟩ :: readsymWritesLoop input n 1 1 8 else []

/-- The loop of `readstr`, for at most `n` turns, at the place `p` of the input. -/
def readstrWritesLoop : ℕ → ℕ → ℕ → ℤ → Bool → List TokenWrite
  | 0, _, _, _, _ => []
  | n + 1, p, i, size, escape =>
    if input p ≠ '"' then
      let size := grow i size
      let c := if escape && input p = 'n' then '\n' else input p
      -- `i--`, and it is incremented again
      if c = '\\' && !escape then readstrWritesLoop n (p + 1) i size true
      else ⟨i, size, c⟩ :: readstrWritesLoop n (p + 1) (i + 1) size false
    -- the size is not looked at here
    else [⟨i, size, '\x00'⟩]

/-- `readstr`, behind the white space, for at most `n` turns of the loop. -/
def readstrWrites (n : ℕ) : List TokenWrite :=
  if input 0 = '"' then readstrWritesLoop input n 1 0 8 false else []

/-- All writes of `readsym` are inside of the area. -/
def SymbolInside : Prop := AllInside (readsymWrites input)

/-- All writes of `readstr` are inside of the area. -/
def StringInside : Prop := AllInside (readstrWrites input)

/-- The characters from the place `p` on are this text, without a quote. -/
def TextFrom : ℕ → List Char → Prop
  | _, [] => True
  | p, c :: cs => input p = c ∧ c ≠ '"' ∧ TextFrom (p + 1) cs

/-- The characters from the place `p` on, up to a quote, are this text. -/
def TextAt (p : ℕ) (text : List Char) : Prop :=
  TextFrom input p text ∧ input (p + text.length) = '"'

end Writes

/-- The number of the characters that a text stands for, behind a backslash or not. -/
def textLength : Bool → List Char → ℕ
  | _, [] => 0
  | true, _ :: cs => textLength false cs + 1
  | false, c :: cs => if c = '\\' then textLength true cs else textLength false cs + 1

/-- The last character of a text is a backslash that escapes what is behind the text. -/
def dangling : Bool → List Char → Bool
  | escape, [] => escape
  | true, _ :: cs => dangling false cs
  | false, c :: cs => dangling (c = '\\') cs

/-- The size is one that doubling leads to, and the area is not larger than it must be for the
characters before `i`, and `i` itself behind a backslash. -/
structure CapacityOk (i : ℕ) (size : ℤ) (escape : Bool) (k : ℕ) : Prop where
  size : size = 8 * 2 ^ k
  exponent : k ≤ 27
  room : i ≤ 8 * 2 ^ k
  least : k = 0 ∨ 8 * 2 ^ k < 2 * i ∨ escape = true ∧ 8 * 2 ^ k = 2 * i
  escape : escape = true → i < 8 * 2 ^ k

section Tokens

variable {input : ℕ → Char} {n m p i k : ℕ} {size : ℤ} {escape : Bool} {text : List Char}
  {c : Char}

/-! ### Growing -/

theorem doubled_of_lt (hk : k < 27) : doubled (8 * 2 ^ k) = 8 * 2 ^ (k + 1) := by
  have h : 2 ^ k ≤ 2 ^ 26 := Nat.pow_le_pow_right (by decide) (by omega)
  unfold doubled signed32
  have hz : ((2 : ℤ) ^ k) = ((2 ^ k : ℕ) : ℤ) := by push_cast; rfl
  rw [Int.pow_succ 2 k, hz]
  generalize 2 ^ k = x at h ⊢
  split_ifs <;> omega

theorem doubled_last : doubled (8 * 2 ^ 27) = -2 ^ 31 := by decide

theorem pow_capacity_le (hk : k ≤ 27) : 8 * 2 ^ k ≤ 2 ^ 30 :=
  calc 8 * 2 ^ k ≤ 8 * 2 ^ 27 := Nat.mul_le_mul_left 8 (Nat.pow_le_pow_right (by decide) hk)
    _ = 2 ^ 30 := by decide

theorem capacityOk_start (hi : i ≤ 1) : CapacityOk i 8 false 0 where
  size := by decide
  exponent := by decide
  room := by omega
  least := .inl rfl
  escape h := by cases h

namespace CapacityOk

theorem le_last (h : CapacityOk i size escape k) : i ≤ 2 ^ 30 :=
  h.room.trans (pow_capacity_le h.exponent)

/-- Only the largest area is full at the largest index. -/
theorem eq_last (h : CapacityOk i size escape k) (hi : ¬ i < 2 ^ 30) :
    i = 2 ^ 30 ∧ size = 8 * 2 ^ 27 ∧ escape = false := by
  have hi : i = 2 ^ 30 := by have := h.le_last; omega
  have hk : k = 27 := by
    by_contra hk
    have hlt : 8 * 2 ^ k ≤ 8 * 2 ^ 26 :=
      Nat.mul_le_mul_left 8 (Nat.pow_le_pow_right (by decide) (by have := h.exponent; omega))
    have := h.room
    omega
  subst hi hk
  refine ⟨rfl, h.size, ?_⟩
  cases escape with
  | false => rfl
  | true => exact absurd (h.escape rfl) (by decide)

/-- What the check for the size leads to, below the largest size. -/
theorem grow (h : CapacityOk i size escape k) (hi : i < 2 ^ 30) :
    ∃ k' ≤ 27, Lisp.grow i size = 8 * 2 ^ k' ∧ i < 8 * 2 ^ k' ∧ (k' = 0 ∨ 8 * 2 ^ k' ≤ 2 * i) := by
  have hz : size = ((8 * 2 ^ k : ℕ) : ℤ) := by rw [h.size]; push_cast; rfl
  rcases Nat.lt_or_ge i (8 * 2 ^ k) with hlt | hge
  · refine ⟨k, h.exponent, ?_, hlt, ?_⟩
    · rw [Lisp.grow, if_neg (by omega), h.size]
    · rcases h.least with h0 | hl | ⟨-, hl⟩
      · exact .inl h0
      · exact .inr hl.le
      · exact .inr hl.le
  · -- the area is full, and it is not the largest one
    have heq : i = 8 * 2 ^ k := le_antisymm h.room hge
    have hk : k < 27 := by
      by_contra hk
      have : k = 27 := by have := h.exponent; omega
      subst this
      omega
    have hpos := Nat.two_pow_pos k
    refine ⟨k + 1, hk, ?_, ?_, .inr ?_⟩
    · rw [Lisp.grow, if_pos (by omega), h.size, doubled_of_lt hk]
    · rw [Nat.pow_succ]; omega
    · rw [Nat.pow_succ]; omega

/-- A character is written, and the next one is read. -/
theorem write (h : CapacityOk i size escape k) (hi : i < 2 ^ 30) :
    i < Lisp.grow i size ∧ ∃ k', CapacityOk (i + 1) (Lisp.grow i size) false k' := by
  obtain ⟨k', hk', hs, hlt, hl⟩ := h.grow hi
  refine ⟨by rw [hs]; exact_mod_cast hlt, k', ⟨hs, hk', hlt, ?_, fun h => by cases h⟩⟩
  rcases hl with h0 | hl
  · exact .inl h0
  · exact .inr (.inl (by omega))

/-- A backslash is read. -/
theorem skip (h : CapacityOk i size escape k) (hi : i < 2 ^ 30) :
    ∃ k', CapacityOk i (Lisp.grow i size) true k' := by
  obtain ⟨k', hk', hs, hlt, hl⟩ := h.grow hi
  refine ⟨k', ⟨hs, hk', hlt.le, ?_, fun _ => hlt⟩⟩
  rcases hl with h0 | hl
  · exact .inl h0
  · rcases hl.lt_or_eq with hl | hl
    · exact .inr (.inl hl)
    · exact .inr (.inr ⟨rfl, hl⟩)

/-- When the zero byte of a string is inside of the area. -/
theorem lt_iff (h : CapacityOk i size escape k) :
    i < size ↔ escape = true ∨ ∀ k, i ≠ 8 * 2 ^ k := by
  have hz : (i : ℤ) < size ↔ i < 8 * 2 ^ k := by rw [h.size]; exact_mod_cast Iff.rfl
  rw [hz]
  cases escape with
  | true => exact ⟨fun _ => .inl rfl, fun _ => h.escape rfl⟩
  | false =>
    constructor
    · rintro hlt
      refine .inr fun k' hk' => ?_
      -- a smaller area would have been large enough
      have hlt' : k' < k := by
        by_contra hge
        have : 8 * 2 ^ k ≤ 8 * 2 ^ k' :=
          Nat.mul_le_mul_left 8 (Nat.pow_le_pow_right (by decide) (by omega))
        omega
      have hle : 8 * 2 ^ (k' + 1) ≤ 8 * 2 ^ k :=
        Nat.mul_le_mul_left 8 (Nat.pow_le_pow_right (by decide) hlt')
      rw [Nat.pow_succ] at hle
      rcases h.least with h0 | hl | ⟨hl, -⟩
      · omega
      · omega
      · cases hl
    · rintro (hf | hne)
      · cases hf
      · exact h.room.lt_of_ne (hne k)

end CapacityOk

/-! ### Turns of the loops -/

section Turns

variable {f g : ℕ → List TokenWrite} {x : TokenWrite}

theorem allInside_cons (h0 : f 0 = []) (h : ∀ n, f (n + 1) = x :: g n) :
    AllInside f ↔ x.Inside ∧ AllInside g := by
  constructor
  · intro hin
    refine ⟨hin 1 x (by simp [h]), fun n y hy => hin (n + 1) y ?_⟩
    rw [h]
    exact List.mem_cons_of_mem _ hy
  · rintro ⟨hx, hin⟩ n y hy
    cases n with
    | zero => rw [h0] at hy; cases hy
    | succ n =>
      rw [h] at hy
      rcases List.mem_cons.mp hy with rfl | hy
      · exact hx
      · exact hin n y hy

theorem allInside_last (h0 : f 0 = []) (h : ∀ n, f (n + 1) = [x]) : AllInside f ↔ x.Inside := by
  rw [allInside_cons (g := fun _ => []) h0 h]
  exact ⟨fun h => h.1, fun h => ⟨h, fun _ y hy => by cases hy⟩⟩

theorem allInside_skip (h0 : f 0 = []) (h : ∀ n, f (n + 1) = g n) :
    AllInside f ↔ AllInside g := by
  constructor
  · intro hin n y hy
    exact hin (n + 1) y (by rwa [h])
  · intro hin n y hy
    cases n with
    | zero => rw [h0] at hy; cases hy
    | succ n => exact hin n y (by rwa [← h])

end Turns

theorem readsym_write (h : issym (input p) = true) :
    AllInside (fun n => readsymWritesLoop input n p i size) ↔ i < grow i size ∧
      AllInside fun n => readsymWritesLoop input n (p + 1) (i + 1) (grow i size) :=
  allInside_cons (f := fun n => readsymWritesLoop input n p i size)
    (x := ⟨i, grow i size, input p⟩) rfl fun n => by rw [readsymWritesLoop, if_pos h]

theorem readsym_end (h : ¬ issym (input p) = true) :
    AllInside (fun n => readsymWritesLoop input n p i size) ↔ i < grow i size :=
  allInside_last (f := fun n => readsymWritesLoop input n p i size)
    (x := ⟨i, grow i size, '\x00'⟩) rfl fun n => by rw [readsymWritesLoop, if_neg h]

theorem readstr_end (h : input p = '"') :
    AllInside (fun n => readstrWritesLoop input n p i size escape) ↔ i < size :=
  allInside_last (f := fun n => readstrWritesLoop input n p i size escape)
    (x := ⟨i, size, '\x00'⟩) rfl fun n => by rw [readstrWritesLoop, if_neg (not_not_intro h)]

/-- A character that is no quote and no backslash that escapes is written. -/
theorem readstr_write (h : input p ≠ '"') (he : escape = true ∨ input p ≠ '\\') :
    AllInside (fun n => readstrWritesLoop input n p i size escape) ↔ i < grow i size ∧
      AllInside fun n => readstrWritesLoop input n (p + 1) (i + 1) (grow i size) false := by
  refine allInside_cons (f := fun n => readstrWritesLoop input n p i size escape)
    (x := ⟨i, grow i size, if escape && input p = 'n' then '\n' else input p⟩) rfl fun n => ?_
  rw [readstrWritesLoop, if_pos h]
  refine if_neg ?_
  rcases he with rfl | he
  · simp
  · cases escape with
    | true => simp
    | false => simp [he]

theorem readstr_skip (h : input p = '\\') :
    AllInside (fun n => readstrWritesLoop input n p i size false) ↔
      AllInside fun n => readstrWritesLoop input n (p + 1) i (grow i size) true := by
  refine allInside_skip (f := fun n => readstrWritesLoop input n p i size false) rfl fun n => ?_
  rw [readstrWritesLoop, if_pos (by rw [h]; decide)]
  exact if_pos (by simp [h])

/-! ### What is written -/

/-- The characters of a write and its index. -/
def TokenWrite.entry (x : TokenWrite) : Char × ℕ := (x.value, x.index)

/-- The loop of `readstr` writes the characters that the reader returns, one behind the other, and
the zero byte. -/
theorem readstrWritesLoop_entries : ∀ {cs p i size escape text rest},
    (∀ j c, cs[j]? = some c → input (p + j) = c) → readstrLoop escape cs = some (text, rest) →
    (readstrWritesLoop input cs.length p i size escape).map TokenWrite.entry =
      (text ++ ['\x00']).zipIdx i := by
  intro cs
  induction cs with
  | nil => intro p i size escape text rest _ h; cases h
  | cons c cs ih =>
    intro p i size escape text rest hin h
    have hc : input p = c := hin 0 c rfl
    have htail : ∀ j c, cs[j]? = some c → input (p + 1 + j) = c := fun j c hj => by
      rw [Nat.add_assoc, Nat.add_comm 1 j]
      exact hin (j + 1) c hj
    rw [List.length_cons, readstrWritesLoop, hc]
    rw [readstrLoop] at h
    by_cases hq : c = '"'
    · rw [if_pos hq] at h
      cases h
      rw [if_neg (not_not_intro hq)]
      rfl
    rw [if_neg hq] at h
    rw [if_pos hq]
    -- both loops look at the character that stands for `c`
    simp only at h ⊢
    generalize (if (escape && c = 'n') = true then '\n' else c) = c' at h ⊢
    by_cases hb : (c' = '\\' && !escape) = true
    · rw [if_pos hb] at h ⊢
      exact ih htail h
    · rw [if_neg hb] at h ⊢
      obtain ⟨⟨text', rest'⟩, h', heq⟩ := Option.map_eq_some_iff.mp h
      cases heq
      rw [List.map_cons, ih htail h']
      rfl

/-- The loop of `readsym` writes the other characters of the name and the zero byte. -/
theorem readsymWritesLoop_entries : ∀ {cs : List Char} {p i size},
    (∀ j c, cs[j]? = some c → input (p + j) = c) → issym (input (p + cs.length)) = false →
    (readsymWritesLoop input (cs.length + 1) p i size).map TokenWrite.entry =
      ((cs.takeWhile issym) ++ ['\x00']).zipIdx i := by
  intro cs
  induction cs with
  | nil =>
    intro p i size _ hend
    rw [readsymWritesLoop, if_neg (by rw [show issym (input p) = false from hend]; decide)]
    rfl
  | cons c cs ih =>
    intro p i size hin hend
    have hc : input p = c := hin 0 c rfl
    have htail : ∀ j c, cs[j]? = some c → input (p + 1 + j) = c := fun j c hj => by
      rw [Nat.add_assoc, Nat.add_comm 1 j]
      exact hin (j + 1) c hj
    rw [List.length_cons, Nat.add_comm cs.length 1, ← Nat.add_assoc] at hend
    rw [readsymWritesLoop, hc, List.takeWhile_cons]
    by_cases hs : issym c = true
    · rw [if_pos hs, if_pos hs, List.map_cons, List.length_cons, ih htail hend]
      rfl
    · rw [if_neg hs, if_neg hs]
      rfl

/-! ### The largest area -/

theorem grow_last : grow (2 ^ 30) (8 * 2 ^ 27) = -2 ^ 31 := by decide

theorem grow_grow_last : grow (2 ^ 30) (-2 ^ 31) = 0 := by decide

/-- A symbol that fills the largest area. -/
theorem readsym_last :
    ¬ AllInside fun n => readsymWritesLoop input n p (2 ^ 30) (8 * 2 ^ 27) := by
  by_cases h : issym (input p) = true
  · rw [readsym_write h, grow_last]
    exact fun hin => absurd hin.1 (by decide)
  · rw [readsym_end h, grow_last]
    decide

/-- A string that fills the largest area: the next write, behind a backslash or not, is not
inside of it. -/
theorem readstr_last :
    ¬ AllInside fun n => readstrWritesLoop input n p (2 ^ 30) (8 * 2 ^ 27) false := by
  by_cases hq : input p = '"'
  · rw [readstr_end hq]
    decide
  by_cases hb : input p = '\\'
  · -- the size becomes negative, and then zero
    rw [readstr_skip hb, grow_last]
    by_cases hq : input (p + 1) = '"'
    · rw [readstr_end hq]
      decide
    · rw [readstr_write hq (.inl rfl), grow_grow_last]
      exact fun hin => absurd hin.1 (by decide)
  · rw [readstr_write hq (.inr hb), grow_last]
    exact fun hin => absurd hin.1 (by decide)

/-! ### Symbols -/

theorem readsymWritesLoop_iff : ∀ {d i size k}, CapacityOk i size false k → 2 ^ 30 - i = d →
    (AllInside (fun n => readsymWritesLoop input n i i size) ↔
      ∃ n, i ≤ n ∧ n < 2 ^ 30 ∧ issym (input n) = false) := by
  intro d
  induction d with
  | zero =>
    intro i size k h hd
    obtain ⟨rfl, rfl, -⟩ := h.eq_last (by omega)
    refine iff_of_false readsym_last ?_
    rintro ⟨n, hn, hlt, -⟩
    omega
  | succ d ih =>
    intro i size k h hd
    obtain ⟨hlt, k', h'⟩ := h.write (by omega)
    by_cases hs : issym (input i) = true
    · rw [readsym_write hs, ih h' (by omega), and_iff_right hlt]
      constructor
      · rintro ⟨n, hn, hr⟩
        exact ⟨n, by omega, hr⟩
      · rintro ⟨n, hn, hr, hf⟩
        have hne : n ≠ i := by
          rintro rfl
          rw [hs] at hf
          cases hf
        exact ⟨n, by omega, hr, hf⟩
    · rw [readsym_end hs]
      exact iff_of_true hlt ⟨i, le_rfl, by omega, by simpa using hs⟩

theorem readsymWrites_iff (hs : issymstart (input 0) = true) : SymbolInside input ↔
    ∃ n, 0 < n ∧ n < 2 ^ 30 ∧ issym (input n) = false := by
  have hwrites : readsymWrites input =
      fun n => ⟨0, 8, input 0⟩ :: readsymWritesLoop input n 1 1 8 := by
    funext n
    rw [readsymWrites, if_pos hs]
  have hloop : SymbolInside input ↔ AllInside fun n => readsymWritesLoop input n 1 1 8 := by
    rw [SymbolInside, hwrites]
    constructor
    · exact fun hin n x hx => hin n x (List.mem_cons_of_mem _ hx)
    · intro hin n x hx
      rcases List.mem_cons.mp hx with rfl | hx
      · exact show (0 : ℤ) < 8 by decide
      · exact hin n x hx
  rw [hloop, readsymWritesLoop_iff (capacityOk_start le_rfl) rfl]
  rfl

/-! ### Strings -/

/-- One turn of the loop for a character `c`, below the largest size. -/
theorem readstr_step (h : CapacityOk i size escape k) (hi : i < 2 ^ 30) (hc : input p = c)
    (hq : c ≠ '"') : ∃ i' size' escape' k', CapacityOk i' size' escape' k' ∧
      (AllInside (fun n => readstrWritesLoop input n p i size escape) ↔
        AllInside fun n => readstrWritesLoop input n (p + 1) i' size' escape') ∧
      ∀ cs, i + textLength escape (c :: cs) = i' + textLength escape' cs ∧
        dangling escape (c :: cs) = dangling escape' cs := by
  subst hc
  obtain ⟨hin, kw, hw⟩ := h.write hi
  cases escape with
  | true =>
    refine ⟨i + 1, _, false, kw, hw, by rw [readstr_write hq (.inl rfl), and_iff_right hin], ?_⟩
    exact fun cs => ⟨by simp only [textLength]; omega, rfl⟩
  | false =>
    by_cases hb : input p = '\\'
    · obtain ⟨kb, hk⟩ := h.skip hi
      refine ⟨i, _, true, kb, hk, readstr_skip hb, fun cs => ?_⟩
      simp [textLength, dangling, hb]
    · refine ⟨i + 1, _, false, kw, hw, by rw [readstr_write hq (.inr hb), and_iff_right hin], ?_⟩
      exact fun cs => ⟨by simp only [textLength, if_neg hb]; omega, by simp [dangling, hb]⟩

/-- The state of the loop behind a text. -/
theorem readstr_append : ∀ {text p i size escape k}, CapacityOk i size escape k →
    TextFrom input p text → i + textLength escape text < 2 ^ 30 →
    ∃ size' k', CapacityOk (i + textLength escape text) size' (dangling escape text) k' ∧
      (AllInside (fun n => readstrWritesLoop input n p i size escape) ↔
        AllInside fun n => readstrWritesLoop input n (p + text.length)
          (i + textLength escape text) size' (dangling escape text)) := by
  intro text
  induction text with
  | nil =>
    intro p i size escape k h _ _
    cases escape with
    | true => exact ⟨size, k, h, Iff.rfl⟩
    | false => exact ⟨size, k, h, Iff.rfl⟩
  | cons c cs ih =>
    intro p i size escape k h ⟨hc, hq, hs⟩ hlt
    obtain ⟨i', size', escape', k', h', hiff, htext⟩ := readstr_step h (by omega) hc hq
    obtain ⟨hlen, hd⟩ := htext cs
    rw [hlen] at hlt
    obtain ⟨size'', k'', h'', hiff'⟩ := ih h' hs hlt
    refine ⟨size'', k'', by rwa [hlen, hd], ?_⟩
    rw [hlen, hd, hiff, hiff', List.length_cons, show p + (cs.length + 1) = p + 1 + cs.length by
      omega]

/-- A text that does not fit into the largest area. -/
theorem readstr_long : ∀ {text p i size escape k}, CapacityOk i size escape k →
    TextFrom input p text → 2 ^ 30 ≤ i + textLength escape text →
    ¬ AllInside fun n => readstrWritesLoop input n p i size escape := by
  intro text
  induction text with
  | nil =>
    intro p i size escape k h _ hle
    have hi : ¬ i < 2 ^ 30 := by cases escape <;> simp only [textLength] at hle <;> omega
    obtain ⟨rfl, rfl, rfl⟩ := h.eq_last hi
    exact readstr_last
  | cons c cs ih =>
    intro p i size escape k h ⟨hc, hq, hs⟩ hle
    by_cases hi : i < 2 ^ 30
    · obtain ⟨i', size', escape', k', h', hiff, htext⟩ := readstr_step h hi hc hq
      rw [hiff]
      exact ih h' hs (by rw [← (htext cs).1]; exact hle)
    · obtain ⟨rfl, rfl, rfl⟩ := h.eq_last hi
      exact readstr_last

/-- A string that is closed. -/
theorem readstrWritesLoop_iff (h : CapacityOk i size escape k) (ht : TextAt input p text) :
    AllInside (fun n => readstrWritesLoop input n p i size escape) ↔
      i + textLength escape text < 2 ^ 30 ∧
        (dangling escape text = true ∨ ∀ k, i + textLength escape text ≠ 8 * 2 ^ k) := by
  by_cases hlt : i + textLength escape text < 2 ^ 30
  · obtain ⟨size', k', h', hiff⟩ := readstr_append h ht.1 hlt
    rw [hiff, readstr_end ht.2, h'.lt_iff, and_iff_right hlt]
  · exact iff_of_false (readstr_long h ht.1 (by omega)) fun h => hlt h.1

/-- At most every other character of a text is a backslash that is left out. -/
theorem length_le_textLength : ∀ (escape : Bool) (text : List Char),
    text.length ≤ 2 * textLength escape text + if escape then 0 else 1
  | true, [] => Nat.zero_le _
  | false, [] => Nat.zero_le _
  | true, _ :: cs => by
    have ih := length_le_textLength false cs
    simp only [List.length_cons, textLength, if_true, Bool.false_eq_true, if_false] at ih ⊢
    omega
  | false, c :: cs => by
    have ihe := length_le_textLength true cs
    have ih := length_le_textLength false cs
    simp only [List.length_cons, textLength, if_true, Bool.false_eq_true, if_false] at ih ihe ⊢
    split_ifs <;> omega

theorem exists_textFrom : ∀ m p, (∀ j < m, input (p + j) ≠ '"') →
    ∃ text, text.length = m ∧ TextFrom input p text
  | 0, _, _ => ⟨[], rfl, trivial⟩
  | m + 1, p, h => by
    obtain ⟨cs, hlen, hs⟩ := exists_textFrom m (p + 1) fun j hj => by
      rw [Nat.add_assoc, Nat.add_comm 1 j]
      exact h (j + 1) (by omega)
    exact ⟨input p :: cs, by rw [List.length_cons, hlen], rfl, h 0 (by omega), hs⟩

theorem readstrWrites_iff (hq : input 0 = '"') : StringInside input ↔
    ∃ text, TextAt input 1 text ∧ textLength false text < 2 ^ 30 ∧
      (dangling false text = true ∨ ∀ k, textLength false text ≠ 8 * 2 ^ k) := by
  have hstart := capacityOk_start (i := 0) (by decide)
  have hwrites : readstrWrites input = fun n => readstrWritesLoop input n 1 0 8 false := by
    funext n
    rw [readstrWrites, if_pos hq]
  rw [StringInside, hwrites]
  constructor
  · intro hin
    by_cases hend : ∃ m, input (1 + m) = '"'
    · -- the text up to the first quote
      obtain ⟨text, hlen, hs⟩ := exists_textFrom (Nat.find hend) 1 fun j hj => Nat.find_min hend hj
      have ht : TextAt input 1 text := ⟨hs, by rw [hlen]; exact Nat.find_spec hend⟩
      have := (readstrWritesLoop_iff hstart ht).mp hin
      rw [Nat.zero_add] at this
      exact ⟨text, ht, this⟩
    · -- without a quote, enough characters are written
      obtain ⟨text, hlen, hs⟩ : ∃ text, text.length = 2 ^ 31 + 1 ∧ TextFrom input 1 text :=
        exists_textFrom _ _ fun j _ hj => hend ⟨j, hj⟩
      have hle := length_le_textLength false text
      rw [if_neg (by decide)] at hle
      exact absurd hin (readstr_long hstart hs (by omega))
  · rintro ⟨text, ht, h⟩
    rw [readstrWritesLoop_iff hstart ht, Nat.zero_add]
    exact h

/-- `readsym` stays inside of the area if the symbol ends below the largest size; `readstr` does so
if the string is closed, below the largest size, and what it stands for does not fill the area. -/
theorem tokensInside_iff (input : ℕ → Char) :
    (SymbolInside input ↔
      (issymstart (input 0) = true → ∃ n, 0 < n ∧ n < 2 ^ 30 ∧ issym (input n) = false)) ∧
    (StringInside input ↔
      (input 0 = '"' → ∃ text, TextAt input 1 text ∧ textLength false text < 2 ^ 30 ∧
        (dangling false text = true ∨ ∀ k, textLength false text ≠ 8 * 2 ^ k))) := by
  constructor
  · by_cases hs : issymstart (input 0) = true
    · rw [readsymWrites_iff hs]
      exact ⟨fun h _ => h, fun h => h hs⟩
    · refine iff_of_true (fun n x hx => ?_) fun h => absurd h hs
      rw [readsymWrites, if_neg hs] at hx
      cases hx
  · by_cases hq : input 0 = '"'
    · rw [readstrWrites_iff hq]
      exact ⟨fun h _ => h, fun h => h hq⟩
    · refine iff_of_true (fun n x hx => ?_) fun h => absurd h hq
      rw [readstrWrites, if_neg hq] at hx
      cases hx

/-- The eight letters of `"abcdefgh"` fill the area, and the zero byte is behind it. -/
theorem not_tokensInside : ¬ ∀ input, SymbolInside input ∧ StringInside input := by
  intro h
  have hin := (h fun p => "\"abcdefgh\"".toList.getD p ' ').2 9 ⟨8, 8, '\x00'⟩ (by decide)
  exact absurd hin (by decide)

end Tokens

end Lisp

end Bluejay
