import Bluejay.Kernel.Strings

/-!
# What the bounded comparison of strings reads

* `strnlenRun`, `strncmpRun` : `strnlen` and `strncmp` of `io.c`, with the indices that they read
  and with the `int`s that they count with.
* `strncmpRun_result` : the result is that of `strncmp`, unless a string has `2 ^ 31` bytes.
* `exactInside_iff` : when nothing behind the first `n` bytes is read.  `strnlen` looks at the byte
  before it looks at the index.
-/

namespace Bluejay

namespace Kernel

/-- The indices that a function reads, and what it returns. -/
structure Reads (α : Type) where
  reads : List ℕ
  result : α

/-- All that is read are the first `n` bytes. -/
def Reads.Inside {α : Type} (r : Reads α) (n : ℕ) : Prop := ∀ i ∈ r.reads, i < n

/-- The loop of `strnlen`. -/
def strnlenRunLoop (s : ℕ → UInt8) (len i : ℕ) : Reads ℕ :=
  -- `s[i] && i < len`: the byte is read first
  if s i ≠ 0 ∧ i < len then
    let r := strnlenRunLoop s len (i + 1)
    ⟨i :: r.reads, r.result⟩
  else ⟨[i], i⟩
termination_by len - i

/-- `strnlen`, with what it reads. -/
def strnlenRun (s : ℕ → UInt8) (len : ℕ) : Reads ℕ := strnlenRunLoop s len 0

/-- The loop of `strncmp`; both strings are read at the same index. -/
def strncmpRunLoop (a b : ℕ → UInt8) (al : ℤ) (i : ℕ) : Reads ℤ :=
  if i < al then
    if a i ≠ b i then ⟨[i], -1⟩
    else
      let r := strncmpRunLoop a b al (i + 1)
      ⟨i :: r.reads, r.result⟩
  else ⟨[], 0⟩
termination_by (al - i).toNat

/-- `bl - al`, for `int`s. -/
def intSub (bl al : ℤ) : ℤ := signed32 ((bl - al) % 2 ^ 32).toNat

/-- `strncmp`, with what it reads. -/
def strncmpRun (a b : ℕ → UInt8) (len : ℕ) : Reads ℤ :=
  let ra := strnlenRun a len
  let rb := strnlenRun b len
  -- the lengths are kept in `int`s
  let al := signed32 ra.result
  let bl := signed32 rb.result
  let r := if al ≠ bl then ⟨[], intSub bl al⟩ else strncmpRunLoop a b al 0
  ⟨ra.reads ++ rb.reads ++ r.reads, r.result⟩

/-- There is a zero byte among the first `n` bytes. -/
def Terminated (n : ℕ) (s : ℕ → UInt8) : Prop := ∃ i < n, s i = 0

/-- The first zero byte is at `k`. -/
def StopsAt (s : ℕ → UInt8) (k : ℕ) : Prop := s k = 0 ∧ ∀ i < k, s i ≠ 0

/-- `strncmp` returns 0 exactly if the strings agree, and neither it nor `strnlen` reads an index
that is not below `n`. -/
structure ExactInside (n : ℕ) (a b : ℕ → UInt8) : Prop where
  exact : (strncmpRun a b n).result = 0 ↔ Agree n a b
  strncmp : (strncmpRun a b n).Inside n
  strnlen_left : (strnlenRun a n).Inside n
  strnlen_right : (strnlenRun b n).Inside n

section Runs

variable {a b s : ℕ → UInt8} {i j k m n : ℕ} {al : ℤ}

/-! ### The lengths -/

/-- The loop returns what the loop without the reads returns, and reads everything up to there. -/
theorem strnlenRunLoop_spec (s : ℕ → UInt8) (m i : ℕ) :
    (strnlenRunLoop s (i + m) i).result = strnlenLoop s m i ∧
      ∀ j, j ∈ (strnlenRunLoop s (i + m) i).reads ↔ i ≤ j ∧ j ≤ strnlenLoop s m i := by
  induction m generalizing i with
  | zero =>
    rw [strnlenRunLoop, if_neg (by omega), strnlenLoop]
    exact ⟨rfl, fun j => by rw [List.mem_singleton]; omega⟩
  | succ m ih =>
    rw [strnlenRunLoop, strnlenLoop]
    by_cases hzero : s i = 0
    · rw [if_neg fun h => h.1 hzero, if_pos hzero]
      exact ⟨rfl, fun j => by rw [List.mem_singleton]; omega⟩
    · obtain ⟨hresult, hreads⟩ := ih (i + 1)
      rw [if_pos ⟨hzero, by omega⟩, if_neg hzero, show i + (m + 1) = i + 1 + m by omega]
      refine ⟨hresult, fun j => ?_⟩
      have hle := (strnlenLoop_spec s m (i + 1)).1
      rw [List.mem_cons, hreads]
      omega

theorem strnlenRun_result (s : ℕ → UInt8) (n : ℕ) : (strnlenRun s n).result = strnlen s n := by
  have h := (strnlenRunLoop_spec s n 0).1
  rwa [Nat.zero_add] at h

/-- `strnlen` reads as many bytes as it counts, and one more. -/
theorem mem_strnlenRun : j ∈ (strnlenRun s n).reads ↔ j ≤ strnlen s n := by
  have h := (strnlenRunLoop_spec s n 0).2 j
  rw [Nat.zero_add] at h
  rw [strnlenRun, h, strnlen]
  omega

theorem strnlen_lt_iff : strnlen s n < n ↔ Terminated n s := by
  constructor
  · exact fun h => ⟨strnlen s n, h, strnlen_eq_zero h⟩
  · rintro ⟨i, hi, hzero⟩
    by_contra hge
    exact ne_zero_of_lt_strnlen (Nat.lt_of_lt_of_le hi (Nat.not_lt.1 hge)) hzero

/-- `strnlen` stays inside exactly if there is a zero byte inside. -/
theorem strnlenRun_inside_iff : (strnlenRun s n).Inside n ↔ Terminated n s := by
  rw [← strnlen_lt_iff]
  constructor
  · exact fun h => h _ (mem_strnlenRun.2 (Nat.le_refl _))
  · exact fun h j hj => Nat.lt_of_le_of_lt (mem_strnlenRun.1 hj) h

/-- The length is where the first zero byte is. -/
theorem stopsAt_strnlen (h : Terminated n s) : StopsAt s (strnlen s n) :=
  ⟨strnlen_eq_zero (strnlen_lt_iff.2 h), fun _ hi => ne_zero_of_lt_strnlen hi⟩

theorem StopsAt.strnlen_eq (hk : StopsAt s k) (h : Terminated n s) : strnlen s n = k := by
  obtain ⟨i, hi, hzero⟩ := h
  have hle : k ≤ i := by
    by_contra hlt
    exact hk.2 i (by omega) hzero
  exact Kernel.strnlen_eq (by omega) hk.2 fun _ => hk.1

/-! ### The comparison -/

theorem signed32_inj (hm : m < 2 ^ 32) (hn : n < 2 ^ 32) : signed32 m = signed32 n ↔ m = n := by
  unfold signed32
  split_ifs <;> omega

/-- The difference of two lengths is zero for no two different ones. -/
theorem intSub_ne_zero (hm : m < 2 ^ 32) (hn : n < 2 ^ 32) (hne : m ≠ n) :
    intSub (signed32 n) (signed32 m) ≠ 0 := by
  unfold intSub signed32
  split_ifs <;> omega

theorem intSub_of_lt (hm : m < 2 ^ 31) (hn : n < 2 ^ 31) :
    intSub (signed32 n) (signed32 m) = (n : ℤ) - m := by
  unfold intSub signed32
  rw [if_pos hm, if_pos hn]
  split_ifs <;> omega

/-- The loop of `strncmp` reads up to the length only. -/
theorem lt_of_mem_strncmpRunLoop (hj : j ∈ (strncmpRunLoop a b al i).reads) : (j : ℤ) < al := by
  fun_induction strncmpRunLoop a b al i with
  | case1 i hi hne =>
    rw [List.mem_singleton] at hj
    exact hj ▸ hi
  | case2 i hi heq r ih =>
    rcases List.mem_cons.1 hj with rfl | hj
    · exact hi
    · exact ih hj
  | case3 i hge => simp at hj

theorem strncmpRunLoop_result (a b : ℕ → UInt8) (al : ℤ) (i : ℕ) :
    (strncmpRunLoop a b al i).result =
      if ∀ j < al.toNat, i ≤ j → a j = b j then 0 else -1 := by
  fun_induction strncmpRunLoop a b al i with
  | case1 i hi hne => rw [if_neg fun h => hne (h i (by omega) (Nat.le_refl i))]
  | case2 i hi heq r ih =>
    rw [ne_eq, not_not] at heq
    rw [show r.result = _ from ih]
    refine if_congr ⟨fun h j hlt hj => ?_, fun h j hlt hj => h j hlt (by omega)⟩ rfl rfl
    rcases Nat.eq_or_lt_of_le hj with rfl | hj
    · exact heq
    · exact h j hlt hj
  | case3 i hge => rw [if_pos fun j hlt hj => by omega]

/-- For lengths that an `int` holds the result is that of `strncmp`. -/
theorem strncmpRun_result (ha : strnlen a n < 2 ^ 31) (hb : strnlen b n < 2 ^ 31) :
    (strncmpRun a b n).result = strncmp a b n := by
  unfold strncmpRun strncmp
  simp only [strnlenRun_result]
  by_cases hlen : strnlen a n = strnlen b n
  · rw [if_neg (not_not.2 (by rw [hlen])), if_neg (not_not.2 hlen), strncmpRunLoop_result]
    refine if_congr ?_ rfl rfl
    rw [signed32, if_pos ha, Int.toNat_natCast]
    exact ⟨fun h i hi => h i hi (Nat.zero_le i), fun h j hj _ => h j hj⟩
  · have hne : signed32 (strnlen a n) ≠ signed32 (strnlen b n) := fun h =>
      hlen ((signed32_inj (by omega) (by omega)).1 h)
    rw [if_pos hne, if_pos hlen, intSub_of_lt ha hb]

/-- From `2 ^ 31` on the length is a negative `int`, and nothing is compared. -/
theorem strncmpRun_result_long (hlen : strnlen a n = strnlen b n) (ha : 2 ^ 31 ≤ strnlen a n)
    (hn : n < 2 ^ 32) : (strncmpRun a b n).result = 0 := by
  have hlt := Nat.lt_of_le_of_lt (strnlen_le a n) hn
  unfold strncmpRun
  simp only [strnlenRun_result]
  rw [if_neg (not_not.2 (by rw [hlen])), strncmpRunLoop_result, if_pos]
  intro j hj
  rw [signed32, if_neg (by omega)] at hj
  omega

theorem strncmpRun_result_ne (hlen : strnlen a n ≠ strnlen b n) (hn : n < 2 ^ 32) :
    (strncmpRun a b n).result ≠ 0 := by
  have ha := Nat.lt_of_le_of_lt (strnlen_le a n) hn
  have hb := Nat.lt_of_le_of_lt (strnlen_le b n) hn
  unfold strncmpRun
  simp only [strnlenRun_result]
  rw [if_pos fun h => hlen ((signed32_inj ha hb).1 h)]
  exact intSub_ne_zero ha hb hlen

/-- What `strncmp` reads, the two calls of `strnlen` read already. -/
theorem mem_strncmpRun (hn : n < 2 ^ 32) :
    j ∈ (strncmpRun a b n).reads ↔ j ≤ strnlen a n ∨ j ≤ strnlen b n := by
  have ha := Nat.lt_of_le_of_lt (strnlen_le a n) hn
  unfold strncmpRun
  simp only [List.mem_append, mem_strnlenRun, strnlenRun_result]
  refine ⟨fun h => ?_, Or.inl⟩
  rcases h with h | h
  · exact h
  · split_ifs at h with hlen
    · simp at h
    · have hlt := lt_of_mem_strncmpRunLoop h
      unfold signed32 at hlt
      split_ifs at hlt <;> omega

/-- At most one byte too many is read. -/
theorem le_of_mem_strncmpRun (hn : n < 2 ^ 32) (hj : j ∈ (strncmpRun a b n).reads) : j ≤ n := by
  rcases (mem_strncmpRun hn).1 hj with h | h
  · exact Nat.le_trans h (strnlen_le a n)
  · exact Nat.le_trans h (strnlen_le b n)

theorem strncmpRun_inside (hn : n < 2 ^ 32) (ha : Terminated n a) (hb : Terminated n b) :
    (strncmpRun a b n).Inside n := by
  intro j hj
  have hlta := strnlen_lt_iff.2 ha
  have hltb := strnlen_lt_iff.2 hb
  rcases (mem_strncmpRun hn).1 hj with h | h <;> omega

/-- Strings of the same length agree exactly if all bytes in front of the end are the same. -/
theorem StopsAt.agree_iff (ha : StopsAt a k) (hb : StopsAt b k) (hk : k < n) :
    Agree n a b ↔ ∀ i < k, a i = b i := by
  constructor
  · exact fun h i hi => h i (by omega) fun j hj => ha.2 j (by omega)
  · intro h i hi hfront
    rcases Nat.lt_trichotomy i k with hlt | rfl | hgt
    · exact h i hlt
    · rw [ha.1, hb.1]
    · exact absurd ha.1 (hfront k hgt)

/-- The comparison is exact, unless the bytes of two strings of `2 ^ 31` bytes or more are not
compared. -/
theorem strncmpRun_exact_iff (hn : n < 2 ^ 32) (ha : Terminated n a) (hb : Terminated n b) :
    ((strncmpRun a b n).result = 0 ↔ Agree n a b) ↔
      ∀ k, 2 ^ 31 ≤ k → StopsAt a k → StopsAt b k → ∀ i < k, a i = b i := by
  have hstopa := stopsAt_strnlen ha
  have hstopb := stopsAt_strnlen hb
  constructor
  · intro h k hk hka hkb
    have hla := hka.strnlen_eq ha
    have hlb := hkb.strnlen_eq hb
    have hlt := strnlen_lt_iff.2 ha
    rw [← hka.agree_iff hkb (by omega : k < n)]
    exact h.1 (strncmpRun_result_long (hla.trans hlb.symm) (by omega) hn)
  · intro h
    by_cases hlen : strnlen a n = strnlen b n
    · rcases Nat.lt_or_ge (strnlen a n) (2 ^ 31) with hshort | hlong
      · rw [strncmpRun_result hshort (hlen ▸ hshort), strncmp_eq_zero]
      · rw [← hlen] at hstopb
        refine iff_of_true (strncmpRun_result_long hlen hlong hn) ?_
        rw [hstopa.agree_iff hstopb (strnlen_lt_iff.2 ha)]
        exact h _ hlong hstopa hstopb
    · exact iff_of_false (strncmpRun_result_ne hlen hn) fun h => hlen h.strnlen_eq

/-- The comparison is exact and bounded exactly if both strings end inside, and if strings of the
same length of `2 ^ 31` bytes or more are the same. -/
theorem exactInside_iff (hn : n < 2 ^ 32) :
    ExactInside n a b ↔ Terminated n a ∧ Terminated n b ∧
      ∀ k, 2 ^ 31 ≤ k → StopsAt a k → StopsAt b k → ∀ i < k, a i = b i := by
  constructor
  · intro h
    have ha := strnlenRun_inside_iff.1 h.strnlen_left
    have hb := strnlenRun_inside_iff.1 h.strnlen_right
    exact ⟨ha, hb, (strncmpRun_exact_iff hn ha hb).1 h.exact⟩
  · rintro ⟨ha, hb, hlong⟩
    exact {
      exact := (strncmpRun_exact_iff hn ha hb).2 hlong
      strncmp := strncmpRun_inside hn ha hb
      strnlen_left := strnlenRun_inside_iff.2 ha
      strnlen_right := strnlenRun_inside_iff.2 hb }

/-- The name "a" ends inside of two bytes. -/
theorem exactInside_name : ExactInside 2 (bytesOf [97]) (bytesOf [97]) :=
  (exactInside_iff (by decide)).2 ⟨⟨1, by decide⟩, ⟨1, by decide⟩, fun _ _ _ _ _ _ => rfl⟩

/-- Of a name of one byte, without a zero byte behind it, the byte behind it is read. -/
theorem not_exactInside :
    ¬ ∀ (n : ℕ) (a b : ℕ → UInt8), n < 2 ^ 32 → ExactInside n a b := by
  intro h
  have hread : 1 ∈ (strnlenRun (bytesOf [97]) 1).reads := by
    rw [mem_strnlenRun, strnlen, strnlenLoop, strnlenLoop]
    decide
  exact absurd ((h 1 _ (bytesOf [97]) (by decide)).strnlen_left 1 hread) (by decide)

end Runs

end Kernel

end Bluejay
