import Bluejay.Kernel.Ext2Blocks
import Mathlib.Data.Nat.ModEq

/-!
# Bits of a bitmap

The bits of the disk are numbered from its first byte on.

* `bitmapBit` : the bit of the disk that is the bit `i` of a bitmap.
* `accessedBit` : the bit that `ext2_check_in_bitmap` and `ext2_set_in_bitmap` take for it; they
  leave a block behind after as many bits as it has bytes.
* `diskBit_setInBitmap` : what a call changes.  A bit is cleared by a mask that sets all others of
  its byte.
* `GetSet` : the laws of getting and setting bits; `getSet_iff` says when they hold.
-/

namespace Bluejay

namespace Kernel

namespace Ext2

/-- The number of blocks of a disk whose sectors have numbers of 32 bits. -/
def diskBlocks (sb : Superblock) : ℕ := 2 ^ 32 / (blockSize sb / 512)

/-- A bit of the disk. -/
def diskBit (disk : Mem) (p : ℕ) : Bool := (disk (p / 8)).toNat.testBit (p % 8)

/-- The bit `i` of the bitmap that starts with a block. -/
def bitmapBit (sb : Superblock) (block i : ℕ) : ℕ :=
  8 * blockSize sb * ((block + i / (8 * blockSize sb)) % diskBlocks sb) + i % (8 * blockSize sb)

/-- The bit that is accessed for the bit `i` of the bitmap. -/
def accessedBit (sb : Superblock) (block i : ℕ) : ℕ :=
  8 * blockSize sb * ((bitmapBlock sb block i).1 % diskBlocks sb) + (bitmapBlock sb block i).2

/-- After the bit `i` was set to `v` it reads as `v`, all others as before, and no bit of the disk
has changed but the bit `i` of the bitmap. -/
structure GetSet (sb : Superblock) (disk : Mem) (block i : ℕ) (v : Bool) : Prop where
  check : ∀ j < 2 ^ 32, checkInBitmap sb (setInBitmap sb disk block i v) block j =
    if j = i then v else checkInBitmap sb disk block j
  frame : ∀ p, p ≠ bitmapBit sb block i →
    diskBit (setInBitmap sb disk block i v) p = diskBit disk p

/-- To set a bit, its index is at most the number of bytes of a block, or the bit that is accessed
is set already; to clear it, it is the only one of its byte that is clear. -/
def CleanBit (sb : Superblock) (disk : Mem) (block i : ℕ) : Bool → Prop
  | true => i ≤ blockSize sb ∨ diskBit disk (accessedBit sb block i) = true
  | false => ∀ p, p / 8 = accessedBit sb block i / 8 →
    (diskBit disk p = true ↔ p ≠ accessedBit sb block i)

section Bits

variable {sb : Superblock} {disk : Mem} {block i j p x y : ℕ} {v : Bool}

/-! ### Blocks on the disk -/

theorem exists_diskBlocks (hs : sb.blockSizeShift ≤ 6) : ∃ k, blockSize sb = 512 * k ∧ 2 ≤ k ∧
    k ≤ 128 ∧ k * diskBlocks sb = 2 ^ 32 := by
  have hall : ∀ s ≤ 6, u32 (1024 <<< s) = 512 * 2 ^ (s + 1) ∧
      2 ≤ 2 ^ (s + 1) ∧ 2 ^ (s + 1) ≤ 128 ∧ 2 ^ (s + 1) * (2 ^ 32 / 2 ^ (s + 1)) = 2 ^ 32 := by
    decide
  obtain ⟨hk, h2, h128, hmul⟩ := hall _ hs
  refine ⟨2 ^ (sb.blockSizeShift + 1), hk, h2, h128, ?_⟩
  rw [diskBlocks, show blockSize sb = _ from hk, Nat.mul_div_cancel_left _ (by decide), hmul]

theorem diskBlocks_pos (hs : sb.blockSizeShift ≤ 6) : 0 < diskBlocks sb := by
  obtain ⟨k, -, -, -, hmul⟩ := exists_diskBlocks hs
  exact Nat.pos_of_ne_zero fun h0 => by rw [h0] at hmul; omega

/-- Numbers of sectors wrap around, and blocks behind the last one are the first ones again. -/
theorem blockStart_eq_mod (hs : sb.blockSizeShift ≤ 6) :
    512 * blockStart sb x = blockSize sb * (x % diskBlocks sb) := by
  obtain ⟨k, hk, -, -, hmul⟩ := exists_diskBlocks hs
  rw [blockStart, hk, Nat.mul_div_cancel_left _ (by decide), u32, ← hmul, Nat.mul_mod_mul_left,
    Nat.mul_assoc]

theorem u32_mod_diskBlocks (hs : sb.blockSizeShift ≤ 6) :
    u32 x % diskBlocks sb = x % diskBlocks sb := by
  obtain ⟨k, -, -, -, hmul⟩ := exists_diskBlocks hs
  exact Nat.mod_mod_of_dvd x ⟨k, by rw [← hmul, Nat.mul_comm]⟩

/-- The places in the blocks of a disk are different ones. -/
theorem mul_add_inj {c m m' y y' : ℕ} (hy : y < c) (hy' : y' < c) (h : c * m + y = c * m' + y') :
    m = m' ∧ y = y' := by
  have hpos : 0 < c := Nat.lt_of_le_of_lt (Nat.zero_le y) hy
  have hdiv : ∀ {m y}, y < c → (c * m + y) / c = m := fun {m y} hy => by
    rw [Nat.mul_add_div hpos, Nat.div_eq_of_lt hy, Nat.add_zero]
  obtain rfl : m = m' := (hdiv hy).symm.trans ((congrArg (· / c) h).trans (hdiv hy'))
  exact ⟨rfl, Nat.add_left_cancel h⟩

/-- A bit of a block that is read. -/
theorem testBit_readBlock (hs : sb.blockSizeShift ≤ 6) (hy : y < 8 * blockSize sb) :
    (readBlock sb disk x (y / 8)).toNat.testBit (y % 8) =
      diskBit disk (8 * blockSize sb * (x % diskBlocks sb) + y) := by
  obtain ⟨o, ho⟩ : ∃ o, blockSize sb * (x % diskBlocks sb) = o := ⟨_, rfl⟩
  rw [readBlock_of_shift hs, blockStart_eq_mod hs, structAt, if_pos (by omega), diskBit,
    Nat.mul_assoc, ho, show (8 * o + y) / 8 = o + y / 8 by omega,
    show (8 * o + y) % 8 = y % 8 by omega]

/-! ### The bit that is accessed -/

theorem bitmapBlockLoop_eq {c n : ℕ} (hc : 0 < c) (hn : i ≤ n) (hb : block < 2 ^ 32) :
    bitmapBlockLoop c n block i = (u32 (block + (i - 1) / c), i - c * ((i - 1) / c)) := by
  induction n generalizing block i with
  | zero =>
    obtain rfl := Nat.le_zero.1 hn
    rw [bitmapBlockLoop, Nat.zero_sub, Nat.zero_div, Nat.add_zero, u32_of_lt hb, Nat.zero_sub]
  | succ n ih =>
    rw [bitmapBlockLoop]
    split_ifs with hlt
    · obtain ⟨q, hq⟩ : ∃ q, (i - c - 1) / c = q := ⟨_, rfl⟩
      have hnext : (i - 1) / c = q + 1 := by
        rw [← hq, Nat.div_eq, if_pos (by omega), show i - 1 - c = i - c - 1 by omega]
      have hblock : u32 (u32 (block + 1) + q) = u32 (block + (q + 1)) := by
        unfold u32
        omega
      rw [ih (by omega) (u32_lt _), hq, hnext, hblock, Nat.mul_succ, Nat.sub_sub,
        Nat.add_comm c]
    · rw [Nat.div_eq_of_lt (by omega), Nat.add_zero, u32_of_lt hb, Nat.mul_zero, Nat.sub_zero]

/-- The index is taken apart by the number of bytes of a block. -/
theorem accessedBit_spec (hs : sb.blockSizeShift ≤ 6) (hb : block < 2 ^ 32) (i : ℕ) :
    ∃ q y, accessedBit sb block i = 8 * blockSize sb * ((block + q) % diskBlocks sb) + y ∧
      (bitmapBlock sb block i).2 = y ∧ (bitmapBlock sb block i).1 = u32 (block + q) ∧
      i = blockSize sb * q + y ∧ y ≤ blockSize sb ∧ (q = 0 ∨ 0 < y) := by
  have hpos := blockSize_pos hs
  have hloop := bitmapBlockLoop_eq hpos (Nat.le_refl i) hb
  obtain ⟨q, hq⟩ : ∃ q, (i - 1) / blockSize sb = q := ⟨_, rfl⟩
  have hdiv := Nat.div_add_mod (i - 1) (blockSize sb)
  have hmod := Nat.mod_lt (i - 1) hpos
  rw [hq] at hdiv hloop
  have hzero : i = 0 → q = 0 := fun hi => by rw [← hq, hi, Nat.zero_sub, Nat.zero_div]
  refine ⟨q, i - blockSize sb * q, ?_, congrArg Prod.snd hloop, congrArg Prod.fst hloop, ?_, ?_, ?_⟩
  · rw [accessedBit, bitmapBlock, hloop, u32_mod_diskBlocks hs]
  · rcases Nat.eq_zero_or_pos i with hi | hi
    · rw [hzero hi, hi, Nat.mul_zero]
    · omega
  · omega
  · rcases Nat.eq_zero_or_pos i with hi | hi
    · exact .inl (hzero hi)
    · right
      omega

/-- The blocks that indices of 32 bits lead to are different ones. -/
theorem block_inj (hs : sb.blockSizeShift ≤ 6) {q q' : ℕ} (hq : blockSize sb * q < 2 ^ 32)
    (hq' : blockSize sb * q' < 2 ^ 32)
    (h : (block + q) % diskBlocks sb = (block + q') % diskBlocks sb) : q = q' := by
  obtain ⟨k, hk, h2, -, hmul⟩ := exists_diskBlocks hs
  have hlt : ∀ q, blockSize sb * q < 2 ^ 32 → q < diskBlocks sb := fun q hq => by
    rw [← hmul] at hq
    refine Nat.lt_of_mul_lt_mul_left (Nat.lt_of_le_of_lt (Nat.mul_le_mul_right q ?_) hq)
    omega
  have hmod : q % diskBlocks sb = q' % diskBlocks sb := Nat.ModEq.add_left_cancel' block h
  rwa [Nat.mod_eq_of_lt (hlt q hq), Nat.mod_eq_of_lt (hlt q' hq')] at hmod

theorem accessedBit_inj (hs : sb.blockSizeShift ≤ 6) (hb : block < 2 ^ 32) (hi : i < 2 ^ 32)
    (hj : j < 2 ^ 32) (h : accessedBit sb block i = accessedBit sb block j) : i = j := by
  have hpos := blockSize_pos hs
  obtain ⟨q, y, hP, -, -, hqy, hy, -⟩ := accessedBit_spec hs hb i
  obtain ⟨q', y', hP', -, -, hqy', hy', -⟩ := accessedBit_spec hs hb j
  rw [hP, hP'] at h
  obtain ⟨hmod, rfl⟩ := mul_add_inj (by omega) (by omega) h
  obtain rfl := block_inj hs (by omega) (by omega) hmod
  rw [hqy, hqy']

/-- As long as the index is not larger than a block, the right bit is accessed. -/
theorem accessedBit_of_le (hs : sb.blockSizeShift ≤ 6) (hb : block < 2 ^ 32)
    (hi : i ≤ blockSize sb) : accessedBit sb block i = bitmapBit sb block i := by
  have hpos := blockSize_pos hs
  obtain ⟨q, y, hP, -, -, hqy, -, hq⟩ := accessedBit_spec hs hb i
  obtain rfl : q = 0 := by
    by_contra hne
    have hle := Nat.le_mul_of_pos_right (blockSize sb) (Nat.pos_of_ne_zero hne)
    have := hq.resolve_left hne
    omega
  have hiy : i = y := by rw [hqy, Nat.mul_zero, Nat.zero_add]
  rw [hP, bitmapBit, Nat.div_eq_of_lt (by omega), Nat.mod_eq_of_lt (by omega : i < _), hiy]

/-- With a larger index a bit of another block is accessed. -/
theorem accessedBit_div_ne (hs : sb.blockSizeShift ≤ 6) (hb : block < 2 ^ 32)
    (hlt : blockSize sb < i) (hi : i < 2 ^ 32) :
    accessedBit sb block i / 8 ≠ bitmapBit sb block i / 8 := by
  have hpos := blockSize_pos hs
  obtain ⟨q, y, hP, -, -, hqy, hy, -⟩ := accessedBit_spec hs hb i
  obtain ⟨q', hq'⟩ : ∃ q', i / (8 * blockSize sb) = q' := ⟨_, rfl⟩
  have hdiv := Nat.div_add_mod i (8 * blockSize sb)
  have hmod := Nat.mod_lt i (by omega : 0 < 8 * blockSize sb)
  rw [hq', Nat.mul_assoc] at hdiv
  intro h
  rw [hP, bitmapBit, hq', Nat.mul_assoc, Nat.mul_assoc,
    Nat.mul_add_div (by decide), Nat.mul_add_div (by decide)] at h
  obtain ⟨hblock, -⟩ := mul_add_inj (by omega) (by omega) h
  obtain rfl := block_inj hs (by omega) (by omega) hblock
  -- a block has more than one bit for each of its bytes
  rcases Nat.eq_zero_or_pos q with rfl | hq
  · rw [Nat.mul_zero] at hqy
    omega
  · have := Nat.le_mul_of_pos_right (blockSize sb) hq
    omega

/-! ### Getting and setting bits -/

theorem checkInBitmap_eq (hs : sb.blockSizeShift ≤ 6) (hb : block < 2 ^ 32) :
    checkInBitmap sb disk block i = diskBit disk (accessedBit sb block i) := by
  have hpos := blockSize_pos hs
  obtain ⟨q, y, -, hy, -, -, hle, -⟩ := accessedBit_spec hs hb i
  have hlt : (bitmapBlock sb block i).2 < 8 * blockSize sb := by
    rw [hy]
    omega
  exact testBit_readBlock hs hlt

theorem testBit_mask (byte : UInt8) {m n : ℕ} (hm : m < 8) (hn : n < 8) :
    (byte ||| 1 <<< UInt8.ofNat m).toNat.testBit n = (byte.toNat.testBit n || decide (n = m)) ∧
      (byte ||| ~~~(1 <<< UInt8.ofNat m)).toNat.testBit n =
        (byte.toNat.testBit n || decide (n ≠ m)) := by
  have hall : ∀ m < 8, ∀ n < 8, (1 <<< UInt8.ofNat m : UInt8).toNat.testBit n = decide (n = m) ∧
      (~~~(1 <<< UInt8.ofNat m) : UInt8).toNat.testBit n = decide (n ≠ m) := by
    decide
  obtain ⟨hset, hclear⟩ := hall m hm n hn
  rw [UInt8.toNat_or, UInt8.toNat_or, Nat.testBit_or, Nat.testBit_or, hset, hclear]
  exact ⟨rfl, rfl⟩

theorem assign_update_structAt {o n : ℕ} {byte : UInt8} (hj : j < n) :
    assign disk o n (Function.update (structAt disk o n) j byte) =
      Function.update disk (o + j) byte := by
  funext a
  unfold assign structAt
  by_cases ha : a = o + j
  · rw [ha, if_pos (by omega), Nat.add_sub_cancel_left, Function.update_self, Function.update_self]
  · rw [Function.update_of_ne ha]
    split_ifs with hin
    · rw [Function.update_of_ne (by omega), if_pos (by omega), Nat.add_sub_cancel' hin.1]
    · rfl

/-- **What a call changes**: to set a bit, this bit, and to clear it, all others of its byte. -/
theorem diskBit_setInBitmap (hs : sb.blockSizeShift ≤ 6) (hb : block < 2 ^ 32) :
    diskBit (setInBitmap sb disk block i v) p =
      if p / 8 = accessedBit sb block i / 8 ∧ (p = accessedBit sb block i ↔ v = true) then true
      else diskBit disk p := by
  have hpos := blockSize_pos hs
  obtain ⟨q, y, -, hy, -, -, hle, -⟩ := accessedBit_spec hs hb i
  obtain ⟨o, ho⟩ : ∃ o, blockSize sb * ((bitmapBlock sb block i).1 % diskBlocks sb) = o := ⟨_, rfl⟩
  have hP : accessedBit sb block i = 8 * o + y := by rw [accessedBit, Nat.mul_assoc, ho, hy]
  simp only [setInBitmap, hy, readBlock_of_shift hs, writeBlock_of_shift hs,
    blockStart_eq_mod hs, ho]
  have hget : structAt disk o (blockSize sb) (y / 8) = disk (o + y / 8) := if_pos (by omega)
  rw [assign_update_structAt (by omega), hget, hP, diskBit, diskBit,
    show (8 * o + y) / 8 = o + y / 8 by omega]
  by_cases hp : p / 8 = o + y / 8
  · obtain ⟨hset, hclear⟩ := testBit_mask (disk (o + y / 8)) (Nat.mod_lt y (by decide : 0 < 8))
      (Nat.mod_lt p (by decide : 0 < 8))
    have hiff : p = 8 * o + y ↔ p % 8 = y % 8 := by omega
    simp only [hp, Function.update_self, hiff, true_and]
    cases v
    · rw [if_neg Bool.false_ne_true, hclear]
      by_cases heq : p % 8 = y % 8 <;> simp [heq]
    · rw [if_pos rfl, hset]
      by_cases heq : p % 8 = y % 8 <;> simp [heq]
  · rw [Function.update_of_ne hp, if_neg fun h => hp h.1]

/-- A bit that was set reads as set, and all others as before. -/
theorem diskBit_set (hs : sb.blockSizeShift ≤ 6) (hb : block < 2 ^ 32) :
    diskBit (setInBitmap sb disk block i true) p =
      if p = accessedBit sb block i then true else diskBit disk p := by
  rw [diskBit_setInBitmap hs hb]
  by_cases hp : p = accessedBit sb block i
  · rw [if_pos ⟨congrArg (· / 8) hp, iff_of_true hp rfl⟩, if_pos hp]
  · rw [if_neg fun h => hp (h.2.2 rfl), if_neg hp]

theorem check_set (hs : sb.blockSizeShift ≤ 6) (hb : block < 2 ^ 32) (hi : i < 2 ^ 32)
    (hj : j < 2 ^ 32) : checkInBitmap sb (setInBitmap sb disk block i true) block j =
      if j = i then true else checkInBitmap sb disk block j := by
  rw [checkInBitmap_eq hs hb, checkInBitmap_eq hs hb, diskBit_set hs hb]
  by_cases hji : j = i
  · rw [if_pos (congrArg _ hji), if_pos hji]
  · rw [if_neg fun h => hji (accessedBit_inj hs hb hj hi h), if_neg hji]

/-- A bit that was set is not cleared again. -/
theorem check_set_clear (hs : sb.blockSizeShift ≤ 6) (hb : block < 2 ^ 32) :
    checkInBitmap sb (setInBitmap sb (setInBitmap sb disk block i true) block i false) block i =
      true := by
  rw [checkInBitmap_eq hs hb, diskBit_setInBitmap hs hb, diskBit_set hs hb, if_pos rfl, ite_self]

/-- A call that changes no bit keeps all of them, and reads the right one back. -/
theorem getSet_of_same (hs : sb.blockSizeShift ≤ 6) (hb : block < 2 ^ 32)
    (hsame : ∀ p, diskBit (setInBitmap sb disk block i v) p = diskBit disk p)
    (hv : diskBit disk (accessedBit sb block i) = v) : GetSet sb disk block i v := by
  refine ⟨fun j _ => ?_, fun p _ => hsame p⟩
  rw [checkInBitmap_eq hs hb, checkInBitmap_eq hs hb, hsame]
  split_ifs with hji
  · rw [hji, hv]
  · rfl

/-- **The laws hold exactly for a clean bit.** -/
theorem getSet_iff (hs : sb.blockSizeShift ≤ 6) (hb : block < 2 ^ 32) (hi : i < 2 ^ 32)
    (disk : Mem) (v : Bool) : GetSet sb disk block i v ↔ CleanBit sb disk block i v := by
  cases v with
  | true =>
    constructor
    · intro h
      by_contra hclean
      rw [CleanBit, not_or, Nat.not_le] at hclean
      have hne : accessedBit sb block i ≠ bitmapBit sb block i := fun he =>
        accessedBit_div_ne hs hb hclean.1 hi (congrArg (· / 8) he)
      have hframe := h.frame _ hne
      rw [diskBit_set hs hb, if_pos rfl] at hframe
      exact hclean.2 hframe.symm
    · rintro (hle | hset)
      · refine ⟨fun j hj => check_set hs hb hi hj, fun p hp => ?_⟩
        rw [← accessedBit_of_le hs hb hle] at hp
        rw [diskBit_set hs hb, if_neg hp]
      · refine getSet_of_same hs hb (fun p => ?_) hset
        rw [diskBit_set hs hb]
        split_ifs with hp
        · rw [hp, hset]
        · rfl
  | false =>
    have hbit : ∀ p, p / 8 = accessedBit sb block i / 8 → p ≠ accessedBit sb block i →
        diskBit (setInBitmap sb disk block i false) p = true := fun p hbyte hp => by
      rw [diskBit_setInBitmap hs hb, if_pos ⟨hbyte, iff_of_false hp Bool.false_ne_true⟩]
    have hself : diskBit (setInBitmap sb disk block i false) (accessedBit sb block i) =
        diskBit disk (accessedBit sb block i) := by
      rw [diskBit_setInBitmap hs hb, if_neg fun h => Bool.false_ne_true (h.2.1 rfl)]
    constructor
    · intro h p hbyte
      refine ⟨?_, fun hp => ?_⟩
      · rintro hset rfl
        have hcheck := h.check i hi
        rw [checkInBitmap_eq hs hb, hself, hset, if_pos rfl] at hcheck
        cases hcheck
      · rw [← h.frame p fun heq => ?_, hbit p hbyte hp]
        -- the right bit is in another byte
        rcases Nat.lt_or_ge (blockSize sb) i with hlt | hle
        · exact accessedBit_div_ne hs hb hlt hi (heq ▸ hbyte).symm
        · exact hp (heq.trans (accessedBit_of_le hs hb hle).symm)
    · intro hclean
      have hv : diskBit disk (accessedBit sb block i) = false :=
        Bool.eq_false_iff.2 fun hset => (hclean _ rfl).1 hset rfl
      refine getSet_of_same hs hb (fun p => ?_) hv
      by_cases hbyte : p / 8 = accessedBit sb block i / 8 ∧ p ≠ accessedBit sb block i
      · rw [hbit p hbyte.1 hbyte.2, (hclean p hbyte.1).2 hbyte.2]
      · rw [diskBit_setInBitmap hs hb, if_neg]
        rintro ⟨hp, hiff⟩
        exact hbyte ⟨hp, fun heq => Bool.false_ne_true (hiff.1 heq)⟩

end Bits

/-- The first free block of the sample is marked. -/
theorem getSet_sample : GetSet sampleSuperblock sampleDisk 3 7 true :=
  (getSet_iff (by decide) (by decide) (by decide) _ _).2 (.inl (by decide))

/-- **To clear a bit sets all others of its byte.** -/
theorem not_getSet : ¬ ∀ (sb : Superblock) (disk : Mem) (block i : ℕ) (v : Bool),
    sb.blockSizeShift ≤ 6 → block < 2 ^ 32 → i < 2 ^ 32 → GetSet sb disk block i v := by
  intro h
  have hframe := (h sampleSuperblock sampleDisk 3 0 false (by decide) (by decide)
    (by decide)).frame 24583 (by decide)
  exact absurd hframe (by decide)

end Ext2

end Kernel

end Bluejay
