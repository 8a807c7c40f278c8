import Bluejay.Kernel.Frames

/-!
# Page tables in the page directory

* `getOrCreateTable`, `clearFrame`, `freeFrame`, `unmapAllFrames`, `destroyPageTableIfExists`,
  `mapPage` : the functions of `paging.c`.
* `Consistent` : a table that was created is the one that is found later, and the entry of a
  4 MB page is not taken for the address of a table.
* `consistent_iff` : this is so exactly if `malloc` returns a whole page, and a directory entry
  that is present has no 4 MB bit.
-/

namespace Bluejay

namespace Kernel

instance (s : Paging) (dir table : ℕ) : Decidable (hasTable s dir table) :=
  inferInstanceAs (Decidable (_ ∧ _))

/-- `get_or_create_table`, where `malloc` returns `p`: the table, and the state after the call. -/
def getOrCreateTable (s : Paging) (dir table : ℕ) (user rw : Bool) (p : ℕ) : ℕ × Paging :=
  if hasTable s dir table then (tableAt s dir table, s)
  else (p, { s with
    word := Function.update s.word (dir + 4 * table)
      (virtToPhys p ||| 1 ||| rw.toNat <<< 1 ||| user.toNat <<< 2)
    tables := insert p s.tables })

/-- The 32-bit word at `a`, which may lie in two words of memory. -/
def loadWord (word : ℕ → ℕ) (a : ℕ) : ℕ :=
  (word (a - a % 4) + 2 ^ 32 * word (a - a % 4 + 4)) / 2 ^ (8 * (a % 4)) % 2 ^ 32

/-- `clear_frame`. -/
def clearFrame (frames : ℕ → ℕ) (frameAddr : ℕ) : ℕ → ℕ :=
  let frame := frameAddr / 0x1000
  Function.update frames (frame / bits)
    (frames (frame / bits) &&& (2 ^ 32 - 1 - 1 <<< (frame % bits)))

/-- `free_frame`. -/
def freeFrame (frames : ℕ → ℕ) (page : ℕ) : ℕ → ℕ := clearFrame frames (page / 0x1000)

/-- `unmap_all_frames`. -/
def unmapAllFrames (s : Paging) (pageTableP : ℕ) : ℕ → ℕ :=
  (List.range 1024).foldl (fun frames i =>
    let e := loadWord s.word (physToVirt pageTableP + 4 * i)
    if e &&& 1 ≠ 0 then clearFrame frames (e >>> 12) else frames) s.frames

/-- `destroy_page_table_if_exists`, and what it makes of the bit set; the memory that it frees is
left alone. -/
def destroyPageTableIfExists (s : Paging) (dir table : ℕ) : Paging :=
  if hasTable s dir table then
    { s with frames := unmapAllFrames s (s.word (dir + 4 * table) >>> 12) }
  else s

/-- The test of `map_page` for a page that is mapped. -/
def isMapped (s : Paging) (dir table page : ℕ) : Bool :=
  let d := s.word (dir + 4 * table)
  (d &&& 1 ≠ 0 && d &&& 1 <<< 7 ≠ 0) || (d >>> 12 ≠ 0 && loadWord s.word (d + 4 * page) &&& 1 ≠ 0)

/-- `map_page`, where `malloc` returns `p`; `none` is the `kpanic` of `first_free_frame`. -/
def mapPage (s : Paging) (dir virt : ℕ) (user rw : Bool) (p : ℕ) : Option Paging :=
  match firstFreeFrame s.frames with
  | none => none
  | some frame =>
    if isMapped s dir (tableOf virt) (pageOf virt) then some s
    else
      let s := { s with frames := setFrame s.frames frame }
      let (t, s) := getOrCreateTable s dir (tableOf virt) user rw p
      allocFrame s (t + 4 * pageOf virt) user rw

/-! ### The directory -/

/-- The entry has the bit of a 4 MB page. -/
def largePage (s : Paging) (dir table : ℕ) : Bool := (s.word (dir + 4 * table)).testBit 7

/-- The entry is present. -/
def entryPresent (s : Paging) (dir table : ℕ) : Bool := s.word (dir + 4 * table) % 2 = 1

/-- Look-ups of a table, the first of them where `malloc` returns `p`. -/
structure Consistent (s : Paging) (dir table p : ℕ) : Prop where
  /-- As long as the directory entry stays, later calls return the table that was created. -/
  same (user rw : Bool) (h : ¬ hasTable s dir table) (s' : Paging)
    (hs : s'.word (dir + 4 * table) =
      (getOrCreateTable s dir table user rw p).2.word (dir + 4 * table))
    (user' rw' : Bool) (p' : ℕ) : (getOrCreateTable s' dir table user' rw' p').1 = p
  /-- What is written to an entry of the table is found by the next call. -/
  found (user rw : Bool) (h : ¬ hasTable s dir table) (page e : ℕ)
    (hne : dir + 4 * table ≠ p + 4 * page) (s' : Paging)
    (hs : s' = { (getOrCreateTable s dir table user rw p).2 with
      word := Function.update (getOrCreateTable s dir table user rw p).2.word (p + 4 * page) e })
    (user' rw' : Bool) (p' : ℕ) :
    s'.word ((getOrCreateTable s' dir table user' rw' p').1 + 4 * page) = e
  /-- The entry of a 4 MB page is not taken for the address of a table. -/
  large (h : largePage s dir table = true) : ¬ hasTable s dir table

section Directory

variable {s s' : Paging} {dir table p : ℕ} {user rw : Bool}

/-- With `^`, only the present bit is tested. -/
theorem hasTable_iff : hasTable s dir table ↔ entryPresent s dir table = true := by
  have hone : s.word (dir + 4 * table) &&& 1 = s.word (dir + 4 * table) % 2 := Nat.and_one_is_mod _
  rw [hasTable, entryPresent, hone]
  constructor
  · rintro ⟨hodd, -⟩
    simpa using hodd
  · intro hodd
    have hodd : s.word (dir + 4 * table) % 2 = 1 := by simpa using hodd
    refine ⟨by omega, fun hxor => ?_⟩
    rw [Nat.xor_eq_zero_iff] at hxor
    rw [hxor] at hodd
    exact absurd hodd (by decide)

theorem or_flags_div (x : ℕ) (user rw : Bool) :
    (x ||| 1 ||| rw.toNat <<< 1 ||| user.toNat <<< 2) / 0x1000 = x / 0x1000 := by
  have hflags : ∀ y f : ℕ, f < 8 → (y ||| f) / 0x1000 = y / 0x1000 := by
    intro y f hf
    have hdiv : f / 2 ^ 12 = 0 := Nat.div_eq_of_lt (hf.trans (by decide))
    rw [show (0x1000 : ℕ) = 2 ^ 12 from rfl, ← Nat.shiftRight_eq_div_pow,
      ← Nat.shiftRight_eq_div_pow, Nat.shiftRight_or_distrib, Nat.shiftRight_eq_div_pow f, hdiv,
      Nat.or_zero]
  rw [hflags _ _ (by cases user <;> decide), hflags _ _ (by cases rw <;> decide),
    hflags _ _ (by decide)]

theorem or_flags_mod (x : ℕ) (user rw : Bool) :
    (x ||| 1 ||| rw.toNat <<< 1 ||| user.toNat <<< 2) % 2 = 1 := by
  have hbit : (x ||| 1 ||| rw.toNat <<< 1 ||| user.toNat <<< 2).testBit 0 = true := by simp
  exact of_decide_eq_true ((Nat.testBit_zero _).symm.trans hbit)

/-- The address of a table without the bits that its directory entry has no room for. -/
theorem physToVirt_virtToPhys (hp : p < 2 ^ 32) :
    physToVirt (virtToPhys p - virtToPhys p % 0x1000) = p - p % 0x1000 := by
  unfold physToVirt virtToPhys u32 sub32
  omega

theorem getOrCreateTable_of_absent (h : ¬ hasTable s dir table) :
    (getOrCreateTable s dir table user rw p).1 = p ∧
      (getOrCreateTable s dir table user rw p).2.word (dir + 4 * table) =
        virtToPhys p ||| 1 ||| rw.toNat <<< 1 ||| user.toNat <<< 2 := by
  rw [getOrCreateTable, if_neg h]
  exact ⟨rfl, Function.update_self _ _ _⟩

/-- What later calls make of the entry that was created. -/
theorem getOrCreateTable_created (hp : p < 2 ^ 32) (h : ¬ hasTable s dir table)
    (hs : s'.word (dir + 4 * table) =
      (getOrCreateTable s dir table user rw p).2.word (dir + 4 * table)) (user' rw' : Bool)
    (p' : ℕ) : (getOrCreateTable s' dir table user' rw' p').1 = p - p % 0x1000 := by
  rw [(getOrCreateTable_of_absent h).2] at hs
  have hpresent : hasTable s' dir table :=
    hasTable_iff.2 (by rw [entryPresent, hs, or_flags_mod]; rfl)
  have hentry : ∀ x : ℕ, x - x % 0x1000 = 0x1000 * (x / 0x1000) := fun x => by omega
  rw [getOrCreateTable, if_pos hpresent, ← physToVirt_virtToPhys hp, tableAt, hs, hentry,
    or_flags_div, ← hentry]

/-- **The look-ups are consistent exactly if** `malloc` returns a whole page for a new table, and
a present entry is not that of a 4 MB page. -/
theorem consistent_iff (s : Paging) (dir table : ℕ) (hp : p < 2 ^ 32) :
    Consistent s dir table p ↔ (entryPresent s dir table = false → p % 0x1000 = 0) ∧
      (entryPresent s dir table = true → largePage s dir table = false) := by
  have habsent : entryPresent s dir table = false ↔ ¬ hasTable s dir table := by
    rw [hasTable_iff, Bool.not_eq_true]
  constructor
  · intro h
    refine ⟨fun hno => ?_, fun hyes => Bool.eq_false_iff.2 fun hl => ?_⟩
    · have hno := habsent.1 hno
      have heq := h.same false false hno _ rfl false false 0
      rw [getOrCreateTable_created hp hno rfl] at heq
      omega
    · exact h.large hl (hasTable_iff.2 hyes)
  · rintro ⟨hpage, hlarge⟩
    have hsame : ∀ user rw, ¬ hasTable s dir table → ∀ s' : Paging, s'.word (dir + 4 * table) =
        (getOrCreateTable s dir table user rw p).2.word (dir + 4 * table) → ∀ user' rw' p',
        (getOrCreateTable s' dir table user' rw' p').1 = p := by
      intro user rw hno s' hs user' rw' p'
      rw [getOrCreateTable_created hp hno hs, hpage (habsent.2 hno), Nat.sub_zero]
    refine ⟨hsame, fun user rw hno page e hne s' hs user' rw' p' => ?_, fun hl hyes => ?_⟩
    · have hword : s'.word (dir + 4 * table) =
          (getOrCreateTable s dir table user rw p).2.word (dir + 4 * table) := by
        rw [hs]
        exact Function.update_of_ne hne _ _
      rw [hsame user rw hno s' hword, hs]
      exact Function.update_self _ _ _
    · rw [hlarge (hasTable_iff.1 hyes)] at hl
      cases hl

theorem consistent_wholePage : Consistent (initPaging (fun _ => 0) 0x1000) 0x1000 0 0xC0400000 :=
  (consistent_iff _ _ _ (by decide)).2 ⟨fun _ => by decide, fun h => absurd h (by decide)⟩

/-- **The table is lost** if `malloc` returns an address inside of a page. -/
theorem not_consistent : ¬ ∀ (s : Paging) (dir table p : ℕ), p < 2 ^ 32 →
    Consistent s dir table p := by
  intro h
  have hno : ¬ hasTable (initPaging (fun _ => 0) 0x1000) 0x1000 0 := by decide
  have hsame := (h _ 0x1000 0 0xC0400010 (by decide)).same false false hno _ rfl false false 0
  rw [getOrCreateTable_created (by decide) hno rfl] at hsame
  exact absurd hsame (by decide)

end Directory

end Kernel

end Bluejay
