import Bluejay.Kernel.Ext2Bitmap
import Bluejay.Lib.Search
import Mathlib.Data.Nat.Find

/-!
# The search for a clear bit

* `firstZeroBit_spec` : `ext2_first_zero_bit` finds the first clear bit of the blocks it looks at,
  and returns its number in 32 bits; the bound of the blocks wraps around.
* `FindsFirst` : the contract of the function.  The search always starts with the first bit, which
  `findsFirst_iff` turns into a condition.
* `FindAndSet` : a bit that was found is set, and not found again.  The search counts eight bits for
  each byte of a block, and the accessors one: `findAndSet_iff`.
-/

namespace Bluejay

namespace Kernel

namespace Ext2

/-- The bit `i` of the bitmap is clear. -/
def Clear (sb : Superblock) (disk : Mem) (bitmapBlock i : ℕ) : Prop :=
  diskBit disk (bitmapBit sb bitmapBlock i) = false

/-- The number of bits of some blocks. -/
def bitsOf (sb : Superblock) (numBlocks : ℕ) : ℕ := 8 * blockSize sb * numBlocks

/-- The bit is one of those that are to be searched: `~0` blocks means no limit. -/
def Searched (sb : Superblock) (numBlocks i : ℕ) : Prop :=
  numBlocks = 2 ^ 32 - 1 ∨ i < bitsOf sb numBlocks

/-- The result is the first clear bit from `startAt` on, and `-1` exactly if there is none. -/
structure FindsFirst (sb : Superblock) (disk : Mem) (bitmapBlock numBlocks startAt r : ℕ) : Prop where
  first : ∀ i, startAt ≤ i → Searched sb numBlocks i → Clear sb disk bitmapBlock i →
    (∀ j, startAt ≤ j → j < i → ¬ Clear sb disk bitmapBlock j) → r = i
  none : r = 2 ^ 32 - 1 ↔
    ∀ i, startAt ≤ i → Searched sb numBlocks i → ¬ Clear sb disk bitmapBlock i

/-- The number of the block behind the last one has 32 bits, and the first clear bit of all is not
below `startAt` and has a number less than `-1`, if there is one; or else there is no clear bit from
`startAt` on. -/
def FirstIsWanted (sb : Superblock) (disk : Mem) (bitmapBlock numBlocks startAt : ℕ) : Prop :=
  if bitmapBlock + numBlocks < 2 ^ 32 then
    (∀ i, Searched sb numBlocks i → ¬ Clear sb disk bitmapBlock i) ∨
      ∃ p, Searched sb numBlocks p ∧ Clear sb disk bitmapBlock p ∧
        (∀ j < p, ¬ Clear sb disk bitmapBlock j) ∧ startAt ≤ p ∧ p < 2 ^ 32 - 1
  else ∀ i, startAt ≤ i → Searched sb numBlocks i → ¬ Clear sb disk bitmapBlock i

/-- A bit that is found is clear, and once it is set the next search finds a larger one. -/
def FindAndSet (sb : Superblock) (disk : Mem) (bitmapBlock numBlocks : ℕ) : Prop :=
  let i := firstZeroBit sb disk bitmapBlock numBlocks
  i ≠ 2 ^ 32 - 1 → checkInBitmap sb disk bitmapBlock i = false ∧
    let r := firstZeroBit sb (setInBitmap sb disk bitmapBlock i true) bitmapBlock numBlocks
    r = 2 ^ 32 - 1 ∨ i < r

/-- The search looks at no block; or the first clear bit is at most the size of a block, and the
number of the next one is larger in 32 bits too. -/
def FoundInFirstBits (sb : Superblock) (disk : Mem) (bitmapBlock numBlocks : ℕ) : Prop :=
  2 ^ 32 ≤ bitmapBlock + numBlocks ∨
    ∀ p, Finds (Clear sb disk bitmapBlock) 0 (bitsOf sb numBlocks) (some p) →
      u32 p = 2 ^ 32 - 1 ∨ p ≤ blockSize sb ∧
        ∀ p', Finds (fun i => Clear sb disk bitmapBlock i ∧
            bitmapBit sb bitmapBlock i ≠ bitmapBit sb bitmapBlock p)
          (p + 1) (bitsOf sb numBlocks) (some p') → p < u32 p'

/-- What a block has, as a number of a bit of the bitmap. -/
def zeroInBlock (sb : Superblock) (disk : Mem) (bitmapBlock block : ℕ) : Option ℕ :=
  (List.range (blockSize sb / 4)).findSome? fun i =>
    (trailingOnes ((readBlock sb disk block).loadLE (4 * i) 4)).map fun trailing =>
      trailing + (4 * 8 * i + (block - bitmapBlock) * 8 * blockSize sb)

section Search

variable {sb : Superblock} {disk : Mem} {b n m i j p s : ℕ}

/-! ### What is found -/

theorem finds_trailingOnes (word : ℕ) :
    Finds (fun j => word.testBit j = false) 0 32 (trailingOnes word) :=
  (finds_find? (fun j => !word.testBit j) 32).congr fun j _ _ => by simp

/-- A bit of a block of the bitmap. -/
theorem clear_iff (hs : sb.blockSizeShift ≤ 6) (hj : j < 8 * blockSize sb) :
    Clear sb disk b (8 * blockSize sb * m + j) ↔
      (readBlock sb disk (b + m) (j / 8)).toNat.testBit (j % 8) = false := by
  have hpos := blockSize_pos hs
  rw [testBit_readBlock hs hj, Clear, bitmapBit, Nat.mul_add_div (by omega), Nat.div_eq_of_lt hj,
    Nat.add_zero, Nat.mul_add_mod, Nat.mod_eq_of_lt hj]

/-- The search of a block. -/
theorem finds_zeroInBlock (hs : sb.blockSizeShift ≤ 6) (disk : Mem) (b m : ℕ) :
    Finds (Clear sb disk b) (8 * blockSize sb * m) (8 * blockSize sb * m + 8 * blockSize sb)
      (zeroInBlock sb disk b (b + m)) := by
  obtain ⟨k, hk, -, -⟩ := exists_blockSize hs
  have hwords : 8 * blockSize sb = 32 * (blockSize sb / 4) := by omega
  have hend : 8 * blockSize sb * m + 8 * blockSize sb =
      8 * blockSize sb * m + 32 * (blockSize sb / 4) := congrArg _ hwords
  rw [hend]
  refine Finds.pieces fun i hi => ?_
  have hfinds := (finds_trailingOnes ((readBlock sb disk (b + m)).loadLE (4 * i) 4)).congr
    (Q := fun j => Clear sb disk b (8 * blockSize sb * m + 32 * i + j)) fun j _ hj => by
      rw [Nat.add_assoc, clear_iff hs (by omega), Mem.testBit_loadLE _ hj,
        show (32 * i + j) / 8 = 4 * i + j / 8 by omega, show (32 * i + j) % 8 = j % 8 by omega]
  have hshift := hfinds.shift
  have hmap : (fun trailing => trailing + (4 * 8 * i + (b + m - b) * 8 * blockSize sb)) =
      (8 * blockSize sb * m + 32 * i + ·) := by
    funext trailing
    rw [Nat.add_sub_cancel_left, Nat.mul_assoc m, Nat.mul_comm m]
    omega
  rw [hmap]
  exact hshift

/-- The loop over the blocks. -/
theorem firstZeroBitLoop_spec (hs : sb.blockSizeShift ≤ 6) (disk : Mem) (b n m : ℕ) : ∃ r,
    Finds (Clear sb disk b) (8 * blockSize sb * m) (8 * blockSize sb * m + bitsOf sb n) r ∧
      firstZeroBitLoop sb disk b n (b + m) = (r.map u32).getD (2 ^ 32 - 1) := by
  induction n generalizing m with
  | zero => exact ⟨none, fun j hj hj' => absurd hj (Nat.not_le.2 hj'), rfl⟩
  | succ n ih =>
    obtain ⟨r, hr, hloop⟩ := ih (m + 1)
    have hblock := finds_zeroInBlock hs disk b m
    rw [Nat.mul_succ] at hr
    refine ⟨(zeroInBlock sb disk b (b + m)).or r, ?_, ?_⟩
    · have hlen : 8 * blockSize sb * m + bitsOf sb (n + 1) =
          8 * blockSize sb * m + 8 * blockSize sb + bitsOf sb n := by
        rw [bitsOf, bitsOf, Nat.mul_succ]
        omega
      rw [hlen]
      exact hblock.append hr (Nat.le_add_right _ _) (Nat.le_add_right _ _)
    · have hfound : ((List.range (blockSize sb / 4)).findSome? fun i =>
          (trailingOnes ((readBlock sb disk (b + m)).loadLE (4 * i) 4)).map fun trailing =>
            u32 (trailing + (4 * 8 * i + (b + m - b) * 8 * blockSize sb))) =
          (zeroInBlock sb disk b (b + m)).map u32 := by
        rw [zeroInBlock, List.map_findSome?]
        congr 1
        funext i
        rw [Function.comp, Option.map_map]
        rfl
      rw [firstZeroBitLoop, hfound, Nat.add_assoc, hloop]
      cases zeroInBlock sb disk b (b + m) <;> rfl

/-- **The search finds the first clear bit**, if the bound of the blocks does not wrap around. -/
theorem firstZeroBit_spec (hs : sb.blockSizeShift ≤ 6) (hbn : b + n < 2 ^ 32) (disk : Mem) : ∃ r,
    Finds (Clear sb disk b) 0 (bitsOf sb n) r ∧
      firstZeroBit sb disk b n = (r.map u32).getD (2 ^ 32 - 1) := by
  have h := firstZeroBitLoop_spec hs disk b n 0
  have hn : u32 (b + n) - b = n := by rw [u32_of_lt hbn, Nat.add_sub_cancel_left]
  rw [firstZeroBit, hn]
  rwa [Nat.mul_zero, Nat.zero_add, Nat.add_zero] at h

/-! ### The first clear bit from some bit on -/

/-- Behind the last block of the disk the first one comes again. -/
theorem clear_mod (hs : sb.blockSizeShift ≤ 6) :
    Clear sb disk b (i % bitsOf sb (diskBlocks sb)) ↔ Clear sb disk b i := by
  have hpos := blockSize_pos hs
  obtain ⟨c, hc⟩ : ∃ c, 8 * blockSize sb = c := ⟨_, rfl⟩
  rw [Clear, Clear, bitmapBit, bitmapBit, bitsOf, hc, Nat.mod_mul_right_div_self,
    Nat.mod_mul_right_mod, Nat.add_mod_mod]

/-- A search without a limit looks at the whole disk. -/
theorem not_clear_of_none (hs : sb.blockSizeShift ≤ 6)
    (h : Finds (Clear sb disk b) 0 (bitsOf sb n) none) (hi : Searched sb n i) :
    ¬ Clear sb disk b i := by
  rcases hi with rfl | hi
  · obtain ⟨k, -, h2, -, hmul⟩ := exists_diskBlocks hs
    have hle : diskBlocks sb ≤ 2 ^ 32 - 1 := by
      have := Nat.mul_le_mul_right (diskBlocks sb) h2
      omega
    have hpos : 0 < bitsOf sb (diskBlocks sb) :=
      Nat.mul_pos (Nat.mul_pos (by decide) (blockSize_pos hs)) (diskBlocks_pos hs)
    rw [← clear_mod hs]
    exact h _ (Nat.zero_le _) (Nat.lt_of_lt_of_le (Nat.mod_lt i hpos) (Nat.mul_le_mul_left _ hle))
  · exact h i (Nat.zero_le i) hi

/-- The contract when the first clear bit of all is known. -/
theorem findsFirst_of_first (hp : Searched sb n p) (hclear : Clear sb disk b p)
    (hleast : ∀ j < p, ¬ Clear sb disk b j) (hs : s < 2 ^ 32) :
    FindsFirst sb disk b n s (u32 p) ↔ s ≤ p ∧ p < 2 ^ 32 - 1 := by
  classical
  constructor
  · intro h
    have hsp : s ≤ p := by
      by_contra hlt
      rw [Nat.not_le] at hlt
      have hp32 : u32 p = p := u32_of_lt (Nat.lt_trans hlt hs)
      by_cases hex : ∃ i, s ≤ i ∧ Searched sb n i ∧ Clear sb disk b i
      · -- the first clear bit from `s` on is not `p`
        obtain ⟨hsi, hi, hci⟩ := Nat.find_spec hex
        have hfirst := h.first _ hsi hi hci fun j hj hjlt hcj => Nat.find_min hex hjlt
          ⟨hj, hi.imp_right (Nat.lt_trans hjlt), hcj⟩
        omega
      · have hnone := h.none.2 fun i hi hsi hci => hex ⟨i, hi, hsi, hci⟩
        omega
    have hr := h.first p hsp hp hclear fun j _ hj => hleast j hj
    have hne : u32 p ≠ 2 ^ 32 - 1 := fun he => h.none.1 he p hsp hp hclear
    have := u32_lt p
    omega
  · rintro ⟨hsp, hlt⟩
    rw [u32_of_lt (by omega)]
    refine ⟨fun i hi _ hci hmin => ?_, iff_of_false (Nat.ne_of_lt hlt) fun h => h p hsp hp hclear⟩
    rcases Nat.lt_trichotomy p i with hpi | rfl | hpi
    · exact absurd hclear (hmin p hsp hpi)
    · rfl
    · exact absurd hci (hleast i hpi)

/-- **The contract holds exactly if the first clear bit of all is the one that is wanted.** -/
theorem findsFirst_iff (hs : sb.blockSizeShift ≤ 6) (hn : n < 2 ^ 32) (hstart : s < 2 ^ 32)
    (disk : Mem) (b : ℕ) :
    FindsFirst sb disk b n s (firstZeroBit sb disk b n) ↔ FirstIsWanted sb disk b n s := by
  rw [FirstIsWanted]
  split_ifs with hbn
  · obtain ⟨r, hr, heq⟩ := firstZeroBit_spec hs hbn disk
    rw [heq]
    cases r with
    | none =>
      have hnone : ∀ i, Searched sb n i → ¬ Clear sb disk b i := fun i => not_clear_of_none hs hr
      refine iff_of_true ⟨fun i _ hi hci => absurd hci (hnone i hi), ?_⟩ (.inl hnone)
      exact iff_of_true rfl fun i _ => hnone i
    | some p =>
      obtain ⟨-, hp, hclear, hleast⟩ := hr
      replace hleast : ∀ j < p, ¬ Clear sb disk b j := fun j => hleast j (Nat.zero_le j)
      refine (findsFirst_of_first (.inr hp) hclear hleast hstart).trans ⟨fun h => .inr
        ⟨p, .inr hp, hclear, hleast, h⟩, ?_⟩
      rintro (hnone | ⟨p', -, hclear', hleast', h⟩)
      · exact absurd hclear (hnone p (.inr hp))
      · rcases Nat.lt_trichotomy p p' with hpp | rfl | hpp
        · exact absurd hclear (hleast' p hpp)
        · exact h
        · exact absurd hclear' (hleast p' hpp)
  · rw [firstZeroBit_of_wrap hn (Nat.not_lt.1 hbn)]
    exact ⟨fun h => h.none.1 rfl, fun h => ⟨fun i hi hsi hci => absurd hci (h i hi hsi),
      iff_of_true rfl h⟩⟩

/-! ### Finding and setting bits -/

/-- No number but zero is the same as eight times this number in 32 bits. -/
theorem eq_zero_of_modEq {x y z : ℕ} (h : 8 * x ≡ z [MOD 2 ^ 32]) (hz : u32 (z + y) = x + y) :
    x = 0 := by
  have hlt : x + y < 2 ^ 32 := hz ▸ u32_lt _
  have hzx : z + y ≡ x + y [MOD 2 ^ 32] := hz.trans (Nat.mod_eq_of_lt hlt).symm
  have hdvd := (Nat.modEq_iff_dvd' (by omega)).1 (h.trans (hzx.add_right_cancel' y)).symm
  rw [show 8 * x - x = 7 * x by omega] at hdvd
  exact Nat.eq_zero_of_dvd_of_lt (Nat.Coprime.dvd_of_dvd_mul_left (by decide) hdvd)
    (Nat.lt_of_le_of_lt (Nat.le_add_right x y) hlt)

/-- The bit that was found is accessed if its number is at most the size of a block. -/
theorem accessedBit_first (hs : sb.blockSizeShift ≤ 6) (hb : b < 2 ^ 32)
    (hclear : Clear sb disk b p) (hleast : ∀ j < p, ¬ Clear sb disk b j) :
    accessedBit sb b (u32 p) = bitmapBit sb b p ↔ p ≤ blockSize sb := by
  have hpos := blockSize_pos hs
  obtain ⟨k, hk, -, h128, hmul⟩ := exists_diskBlocks hs
  constructor
  · intro h
    have hle : u32 p ≤ blockSize sb := by
      obtain ⟨q, y, hP, -, -, hqy, hy, -⟩ := accessedBit_spec hs hb (u32 p)
      obtain ⟨q', hq'⟩ : ∃ q', p / (8 * blockSize sb) = q' := ⟨_, rfl⟩
      have hdiv := Nat.div_add_mod p (8 * blockSize sb)
      rw [hP, bitmapBit, hq'] at h
      obtain ⟨hblock, hmod⟩ := mul_add_inj (by omega) (Nat.mod_lt p (by omega)) h
      rw [hq', ← hmod] at hdiv
      -- both numbers lead to the same block, as far as the disk goes
      have hqq : q ≡ q' [MOD diskBlocks sb] := Nat.ModEq.add_left_cancel' b hblock
      have hwhole : 8 * blockSize sb * diskBlocks sb = 4096 * (k * diskBlocks sb) := by
        rw [hk, ← Nat.mul_assoc 8 512 k, Nat.mul_assoc]
      have hbits : 8 * blockSize sb * q ≡ 8 * blockSize sb * q' [MOD 2 ^ 32] :=
        (hqq.mul_left' (8 * blockSize sb)).of_dvd ⟨4096, by rw [hwhole, hmul, Nat.mul_comm]⟩
      rw [Nat.mul_assoc] at hbits
      rw [hqy, eq_zero_of_modEq hbits (hdiv ▸ hqy), Nat.zero_add]
      exact hy
    -- a smaller bit at the same place would have been found
    have hsame := (accessedBit_of_le hs hb hle).symm.trans h
    have hp : u32 p = p := Nat.le_antisymm (Nat.mod_le _ _) (Nat.le_of_not_lt fun hlt =>
      hleast _ hlt (by rwa [Clear, hsame]))
    rwa [← hp]
  · intro hle
    rw [u32_of_lt (by omega), accessedBit_of_le hs hb hle]

theorem clear_set_iff (hs : sb.blockSizeShift ≤ 6) (hb : b < 2 ^ 32) :
    Clear sb (setInBitmap sb disk b i true) b j ↔
      Clear sb disk b j ∧ bitmapBit sb b j ≠ accessedBit sb b i := by
  rw [Clear, diskBit_set hs hb, Clear]
  split_ifs with h
  · exact iff_of_false id fun hc => hc.2 h
  · exact ⟨fun hc => ⟨hc, h⟩, And.left⟩

/-- The next search, when the first clear bit is known. -/
theorem findAndSet_of_first (hs : sb.blockSizeShift ≤ 6) (hb : b < 2 ^ 32) (hbn : b + n < 2 ^ 32)
    (hp : Finds (Clear sb disk b) 0 (bitsOf sb n) (some p)) :
    (u32 p ≠ 2 ^ 32 - 1 → checkInBitmap sb disk b (u32 p) = false ∧
      (firstZeroBit sb (setInBitmap sb disk b (u32 p) true) b n = 2 ^ 32 - 1 ∨
        u32 p < firstZeroBit sb (setInBitmap sb disk b (u32 p) true) b n)) ↔
    (u32 p = 2 ^ 32 - 1 ∨ p ≤ blockSize sb ∧
      ∀ p', Finds (fun i => Clear sb disk b i ∧ bitmapBit sb b i ≠ bitmapBit sb b p)
        (p + 1) (bitsOf sb n) (some p') → p < u32 p') := by
  obtain ⟨-, hlt, hclear, hleast⟩ := hp
  replace hleast : ∀ j < p, ¬ Clear sb disk b j := fun j => hleast j (Nat.zero_le j)
  have hiff := accessedBit_first hs hb hclear hleast
  obtain ⟨r, hr, heq⟩ := firstZeroBit_spec hs hbn (setInBitmap sb disk b (u32 p) true)
  rw [heq, ← or_iff_not_imp_left]
  refine or_congr_right' fun hne => ?_
  by_cases hle : p ≤ blockSize sb
  · -- the bit is set, and the next one is found
    have hplace := hiff.2 hle
    obtain ⟨k, hk, -, h128⟩ := exists_blockSize hs
    have hp32 : u32 p = p := u32_of_lt (by omega)
    have hnext : Finds (fun i => Clear sb disk b i ∧ bitmapBit sb b i ≠ bitmapBit sb b p)
        (p + 1) (bitsOf sb n) r := by
      rw [← hplace]
      refine (hr.congr fun j _ _ => clear_set_iff hs hb).drop (Nat.zero_le _) ?_
      rintro j - hj ⟨hcj, hne⟩
      rcases Nat.lt_or_eq_of_le (Nat.le_of_lt_succ hj) with hj | rfl
      · exact hleast j hj hcj
      · exact hne hplace.symm
    rw [checkInBitmap_eq hs hb, hplace, hp32]
    cases r with
    | none =>
      refine iff_of_true ⟨hclear, .inl rfl⟩ ⟨hle, fun p' hp' => ?_⟩
      cases hnext.unique hp'
    | some p' =>
      refine ⟨fun h => ⟨hle, fun p'' hp'' => ?_⟩, fun h => ⟨hclear, .inr (h.2 p' hnext)⟩⟩
      obtain rfl := Option.some.inj (hnext.unique hp'')
      exact h.2.elim (fun he => by change u32 p' = _ at he; omega) id
  · -- another bit is set, and the same one is found
    have hsame : Finds (Clear sb (setInBitmap sb disk b (u32 p) true) b) 0 (bitsOf sb n)
        (some p) :=
      ⟨Nat.zero_le p, hlt, (clear_set_iff hs hb).2 ⟨hclear, fun he => hle (hiff.1 he.symm)⟩,
        fun j _ hj hcj => hleast j hj ((clear_set_iff hs hb).1 hcj).1⟩
    obtain rfl := hr.unique hsame
    refine iff_of_false ?_ fun h => hle h.1
    rintro ⟨-, hminus | hlarger⟩
    · exact hne hminus
    · exact Nat.lt_irrefl _ hlarger

/-- **A bit that was found is not found again exactly if it is one of the first bits.** -/
theorem findAndSet_iff (hs : sb.blockSizeShift ≤ 6) (hb : b < 2 ^ 32) (hn : n < 2 ^ 32)
    (disk : Mem) : FindAndSet sb disk b n ↔ FoundInFirstBits sb disk b n := by
  unfold FindAndSet FoundInFirstBits
  rcases Nat.lt_or_ge (b + n) (2 ^ 32) with hbn | hbn
  · rw [or_iff_right (Nat.not_le.2 hbn)]
    obtain ⟨r, hr, heq⟩ := firstZeroBit_spec hs hbn disk
    simp only [heq]
    cases r with
    | none =>
      refine iff_of_true (fun hne => absurd rfl hne) fun p hp => ?_
      cases hr.unique hp
    | some p =>
      refine (findAndSet_of_first hs hb hbn hr).trans ⟨fun h p' hp' => ?_, fun h => h p hr⟩
      obtain rfl := Option.some.inj (hr.unique hp')
      exact h
  · simp only [firstZeroBit_of_wrap hn hbn]
    exact iff_of_true (fun hne => absurd rfl hne) (.inl hbn)

end Search

/-! ### Bitmaps of the sample -/

/-- The first free block. -/
theorem findsFirst_sample : FindsFirst sampleSuperblock sampleDisk 3 1 0
    (firstZeroBit sampleSuperblock sampleDisk 3 1) := by
  refine (findsFirst_iff (by decide) (by decide) (by decide) _ _).2 ?_
  rw [FirstIsWanted, if_pos (by decide)]
  exact .inr ⟨7, .inr (by decide), by unfold Clear; decide,
    by unfold Clear; decide, by decide, by decide⟩

/-- **The first clear bit is returned, not the first one from `startAt` on.** -/
theorem not_findsFirst : ¬ ∀ (sb : Superblock) (disk : Mem) (bitmapBlock numBlocks startAt : ℕ),
    sb.blockSizeShift ≤ 6 → bitmapBlock < 2 ^ 32 → numBlocks < 2 ^ 32 → startAt < 2 ^ 32 →
    FindsFirst sb disk bitmapBlock numBlocks startAt
      (firstZeroBit sb disk bitmapBlock numBlocks) := by
  intro h
  have hfirst := (h sampleSuperblock sampleDisk 3 1 12 (by decide) (by decide) (by decide)
    (by decide)).first 12 (Nat.le_refl _) (.inr (by decide)) (by unfold Clear; decide)
      fun j hj hlt => absurd hj (Nat.not_le.2 hlt)
  exact absurd hfirst (by decide)

theorem findAndSet_sample : FindAndSet sampleSuperblock sampleDisk 3 1 := by
  refine (findAndSet_iff (by decide) (by decide) (by decide) _).2 (.inr fun p hp => .inr ?_)
  have hseven : Finds (Clear sampleSuperblock sampleDisk 3) 0 (bitsOf sampleSuperblock 1)
      (some 7) := by
    unfold Finds Clear
    decide
  obtain rfl := Option.some.inj (hseven.unique hp)
  refine ⟨by decide, fun p' hp' => ?_⟩
  obtain ⟨hlt, hbits, -⟩ := hp'
  have hsize : bitsOf sampleSuperblock 1 = 8192 := by decide
  rw [u32_of_lt (by omega)]
  exact hlt

/-- A bitmap in block 3 whose first 1026 bits are set. -/
def usedBits : Mem := diskOf [(3072, List.replicate 128 0xff ++ [0x03])]

/-- **The bit 1026 is found, and found again.** -/
theorem not_findAndSet : ¬ ∀ (sb : Superblock) (disk : Mem) (bitmapBlock numBlocks : ℕ),
    sb.blockSizeShift ≤ 6 → bitmapBlock < 2 ^ 32 → numBlocks < 2 ^ 32 →
    FindAndSet sb disk bitmapBlock numBlocks := by
  intro h
  have hfind := h sampleSuperblock usedBits 3 1 (by decide) (by decide) (by decide)
  have hfirst : firstZeroBit sampleSuperblock usedBits 3 1 = 1026 := by decide +kernel
  have hagain : firstZeroBit sampleSuperblock
      (setInBitmap sampleSuperblock usedBits 3 1026 true) 3 1 = 1026 := by decide +kernel
  simp only [FindAndSet, hfirst, hagain] at hfind
  exact absurd (hfind (by decide)).2 (by decide)

end Ext2

end Kernel

end Bluejay
