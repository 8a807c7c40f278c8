import Bluejay.Kernel.Ext2Search

/-!
# Looking for a free inode, and for a free block

* `firstFreeInode`, `firstFreeBlock` : the functions of `ext2.c`.  Their loops go over the groups,
  but always look at the bitmap of the first one, from its first bit on, and what they return is the
  number of a bit of this bitmap.
* `SearchesOk` : what is found is free in its own group, and not reserved, and something is found if
  there is a free one in any group.
* `searchesOk_iff` : when this is so, by the first clear bit of each bitmap.
-/

namespace Bluejay

namespace Kernel

namespace Ext2

/-- The number of blocks of a bitmap that are searched. -/
def bitsetBlocks (sb : Superblock) (perGroup : ℕ) : ℕ := u32 (perGroup / 8 / blockSize sb + 1)

/-- The loop of `ext2_first_free_inode`, for the next `n` groups. -/
def firstFreeInodeLoop (sb : Superblock) (disk : Mem) : ℕ → ℕ
  | 0 => 0
  | n + 1 =>
    let bgd := loadBgd sb disk 0
    let inode := u32 (firstZeroBit sb disk bgd.inodeBitmap
      (bitsetBlocks sb sb.inodesPerBlockGroup) + 1)
    if inode ≠ 0 then inode else firstFreeInodeLoop sb disk n

/-- `ext2_first_free_inode`; `none` is the `kpanic` of `ext2_num_block_groups`. -/
def firstFreeInode (sb : Superblock) (disk : Mem) : Option ℕ :=
  (numBlockGroups sb).map (firstFreeInodeLoop sb disk)

/-- The loop of `ext2_first_free_block`, for the next `n` groups. -/
def firstFreeBlockLoop (sb : Superblock) (disk : Mem) : ℕ → ℕ
  | 0 => 0
  | n + 1 =>
    let bgd := loadBgd sb disk 0
    let blockNo := firstZeroBit sb disk bgd.blockBitmap (bitsetBlocks sb sb.blocksPerBlockGroup)
    if blockNo ≠ 0xffffffff then blockNo else firstFreeBlockLoop sb disk n

/-- `ext2_first_free_block`. -/
def firstFreeBlock (sb : Superblock) (disk : Mem) : Option ℕ :=
  (numBlockGroups sb).map (firstFreeBlockLoop sb disk)

/-- An inode from index 12 on that is free in the bitmap of its group. -/
def FreeInode (sb : Superblock) (disk : Mem) (n : ℕ) : Prop :=
  12 ≤ n - 1 ∧ n ≤ sb.totalInodes ∧
    bitAt sb disk (loadBgd sb disk ((n - 1) / sb.inodesPerBlockGroup)).inodeBitmap
      (localIndex sb n) = false

/-- A block that is free in the bitmap of its group. -/
def FreeBlock (sb : Superblock) (disk : Mem) (n : ℕ) : Prop :=
  ∃ g < groups sb, InGroup sb g n ∧
    bitAt sb disk (loadBgd sb disk g).blockBitmap (n - groupStart sb g) = false

/-- The results are a free inode, or `0` if there is none, and a free block, or `0` if all groups
are full. -/
def SearchesOk (sb : Superblock) (disk : Mem) : Prop :=
  ∃ i b, firstFreeInode sb disk = some i ∧ firstFreeBlock sb disk = some b ∧
    ((i ≠ 0 → FreeInode sb disk i) ∧ (i = 0 ↔ ∀ n, ¬ FreeInode sb disk n)) ∧
    (b ≠ 0 → FreeBlock sb disk b) ∧ (b = 0 → ∀ n, ¬ FreeBlock sb disk n)

/-- `r` is the first clear bit that is found in a bitmap. -/
def FirstClear (sb : Superblock) (disk : Mem) (bitmapBlock perGroup : ℕ) (r : Option ℕ) : Prop :=
  Finds (Clear sb disk bitmapBlock) 0 (bitsOf sb (bitsetBlocks sb perGroup)) r

/-- The first clear bit of the inode bitmap of the first group is not reserved, it stands for an
inode, and if this is an inode of another group, the bit is clear there as well; or there is no
clear bit, and no free inode in any group. -/
def FreeInodeInFirst (sb : Superblock) (disk : Mem) : Option ℕ → Prop
  | some z => 12 ≤ z ∧ z < sb.totalInodes ∧ (z < sb.inodesPerBlockGroup ∨
      bitAt sb disk (loadBgd sb disk (z / sb.inodesPerBlockGroup)).inodeBitmap
        (z % sb.inodesPerBlockGroup) = false)
  | none => ∀ n, ¬ FreeInode sb disk n

/-- The first clear bit of the block bitmap of the first group has the number of a block, and the
group of this block is the first one, which starts with block 0, or its bit is clear there; or there
is no clear bit, and no free block in any group. -/
def FreeBlockInFirst (sb : Superblock) (disk : Mem) : Option ℕ → Prop
  | some z => z < sb.totalBlocks ∧ (sb.superblockBlockNumber = 0 ∧ z < sb.blocksPerBlockGroup ∨
      bitAt sb disk (loadBgd sb disk ((z - sb.superblockBlockNumber) /
        sb.blocksPerBlockGroup)).blockBitmap
          ((z - sb.superblockBlockNumber) % sb.blocksPerBlockGroup) = false)
  | none => ∀ n, ¬ FreeBlock sb disk n

section Free

variable {sb : Superblock} {disk : Mem} {b g n z perGroup : ℕ} {r : Option ℕ}

/-! ### Bits of the bitmaps -/

theorem clear_iff_bitAt (hs : sb.blockSizeShift ≤ 6) (hb : blockSize sb * b < 512 * 2 ^ 32)
    (hz : z < 8 * blockSize sb) : Clear sb disk b z ↔ bitAt sb disk b z = false := by
  have hblock : b % diskBlocks sb = b := by
    obtain ⟨k, hk, h2, -, hmul⟩ := exists_diskBlocks hs
    refine Nat.mod_eq_of_lt (Nat.lt_of_mul_lt_mul_left (a := 512 * k) ?_)
    rwa [Nat.mul_assoc 512 k (diskBlocks sb), hmul, ← hk]
  rw [Clear, bitmapBit, Nat.div_eq_of_lt hz, Nat.mod_eq_of_lt hz, Nat.add_zero, hblock, diskBit,
    bitAt, Nat.mul_assoc, show (8 * (blockSize sb * b) + z) / 8 = blockSize sb * b + z / 8 by omega,
    show (8 * (blockSize sb * b) + z) % 8 = z % 8 by omega]

/-- The search of a bitmap. -/
theorem firstClear_spec (hs : sb.blockSizeShift ≤ 6) (hb : blockSize sb * b < 512 * 2 ^ 32)
    (hn : perGroup ≤ 8 * blockSize sb) (disk : Mem) : ∃ r, FirstClear sb disk b perGroup r ∧
      firstZeroBit sb disk b (bitsetBlocks sb perGroup) = r.getD (2 ^ 32 - 1) ∧
      ∀ z, r = some z → z < 2 ^ 32 - 1 := by
  obtain ⟨k, hk, h2, h128⟩ := exists_blockSize hs
  have hb31 : b < 2 ^ 31 := by
    have := Nat.mul_le_mul_right b (by omega : 1024 ≤ blockSize sb)
    omega
  have hblocks : bitsetBlocks sb perGroup ≤ 2 := by
    have hdiv : perGroup / 8 / blockSize sb ≤ 1 := by
      rw [Nat.div_div_eq_div_mul]
      exact Nat.div_le_of_le_mul (by omega)
    exact Nat.le_trans (Nat.mod_le _ _) (Nat.succ_le_succ hdiv)
  obtain ⟨r, hr, heq⟩ := firstZeroBit_spec hs (by omega : b + bitsetBlocks sb perGroup < 2 ^ 32) disk
  have hlt : ∀ z, r = some z → z < 2 ^ 32 - 1 := by
    rintro z rfl
    have hz := hr.2.1
    have hbits : bitsOf sb (bitsetBlocks sb perGroup) ≤ 8 * blockSize sb * 2 :=
      Nat.mul_le_mul_left _ hblocks
    omega
  refine ⟨r, hr, ?_, hlt⟩
  rw [heq]
  cases r with
  | none => rfl
  | some z =>
    have hz := hlt z rfl
    exact u32_of_lt (by omega)

/-! ### Inodes -/

/-- All turns of the loop look at the same bitmap. -/
theorem firstFreeInodeLoop_eq (hr : firstZeroBit sb disk (loadBgd sb disk 0).inodeBitmap
    (bitsetBlocks sb sb.inodesPerBlockGroup) = r.getD (2 ^ 32 - 1))
    (hlt : ∀ z, r = some z → z < 2 ^ 32 - 1) (n : ℕ) :
    firstFreeInodeLoop sb disk (n + 1) = (r.map (· + 1)).getD 0 := by
  cases r with
  | none =>
    have hzero : ∀ n, firstFreeInodeLoop sb disk n = 0 := fun n => by
      induction n with
      | zero => rfl
      | succ n ih =>
        rw [firstFreeInodeLoop, hr]
        exact ih
    exact hzero _
  | some z =>
    have hz := hlt z rfl
    have hsucc : u32 (z + 1) = z + 1 := u32_of_lt (by omega)
    rw [firstFreeInodeLoop, hr]
    exact (congrArg (fun i => if i ≠ 0 then i else _) hsucc).trans (if_pos (Nat.succ_ne_zero z))

theorem WellFormed.freeInode_succ (h : WellFormed sb disk) (hg : 0 < groups sb)
    (hz : FirstClear sb disk (loadBgd sb disk 0).inodeBitmap sb.inodesPerBlockGroup (some z)) :
    FreeInode sb disk (z + 1) ↔ FreeInodeInFirst sb disk (some z) := by
  have hgeo := h.geometry hg
  have hblock := hgeo.block_lt (h.group 0 hg).inodeBitmap.1.2.2
  have hown : z < sb.inodesPerBlockGroup →
      bitAt sb disk (loadBgd sb disk (z / sb.inodesPerBlockGroup)).inodeBitmap
        (z % sb.inodesPerBlockGroup) = false := fun hlt => by
    rw [Nat.div_eq_of_lt hlt, Nat.mod_eq_of_lt hlt]
    exact (clear_iff_bitAt h.shift hblock
      (Nat.lt_of_lt_of_le hlt h.inodesPerGroup.2)).1 hz.2.2.1
  rw [FreeInode, FreeInodeInFirst, localIndex, Nat.add_sub_cancel, Nat.succ_le_iff]
  exact and_congr_right fun _ => and_congr_right fun _ =>
    ⟨.inr, fun hor => hor.elim hown id⟩

/-- The search for an inode. -/
theorem WellFormed.inodeSearch_iff (h : WellFormed sb disk) (hg : 0 < groups sb) : ∃ i,
    firstFreeInode sb disk = some i ∧
      (((i ≠ 0 → FreeInode sb disk i) ∧ (i = 0 ↔ ∀ n, ¬ FreeInode sb disk n)) ↔
        ∀ r, FirstClear sb disk (loadBgd sb disk 0).inodeBitmap sb.inodesPerBlockGroup r →
          FreeInodeInFirst sb disk r) := by
  have hgeo := h.geometry hg
  obtain ⟨r, hr, heq, hlt⟩ := firstClear_spec h.shift
    (hgeo.block_lt (h.group 0 hg).inodeBitmap.1.2.2) h.inodesPerGroup.2 disk
  obtain ⟨n, hn⟩ := Nat.exists_eq_succ_of_ne_zero (Nat.ne_of_gt hg)
  refine ⟨_, by rw [firstFreeInode, h.numGroups]; rfl, ?_⟩
  have hall : (∀ r, FirstClear sb disk (loadBgd sb disk 0).inodeBitmap sb.inodesPerBlockGroup r →
      FreeInodeInFirst sb disk r) ↔ FreeInodeInFirst sb disk r :=
    ⟨fun hall => hall r hr, fun h' r' hr' => hr.unique hr' ▸ h'⟩
  rw [hall, hn, firstFreeInodeLoop_eq heq hlt]
  cases r with
  | none => exact ⟨fun h' => h'.2.1 rfl, fun h' => ⟨fun hne => absurd rfl hne, iff_of_true rfl h'⟩⟩
  | some z =>
    rw [← h.freeInode_succ hg hr]
    exact ⟨fun h' => h'.1 (Nat.succ_ne_zero z), fun h' => ⟨fun _ => h',
      iff_of_false (Nat.succ_ne_zero z) fun hnone => hnone _ h'⟩⟩

/-! ### Blocks -/

theorem firstFreeBlockLoop_eq (hr : firstZeroBit sb disk (loadBgd sb disk 0).blockBitmap
    (bitsetBlocks sb sb.blocksPerBlockGroup) = r.getD (2 ^ 32 - 1))
    (hlt : ∀ z, r = some z → z < 2 ^ 32 - 1) (n : ℕ) :
    firstFreeBlockLoop sb disk (n + 1) = r.getD 0 := by
  cases r with
  | none =>
    have hzero : ∀ n, firstFreeBlockLoop sb disk n = 0 := fun n => by
      induction n with
      | zero => rfl
      | succ n ih =>
        rw [firstFreeBlockLoop, hr]
        exact ih
    exact hzero _
  | some z =>
    rw [firstFreeBlockLoop, hr]
    exact if_pos (Nat.ne_of_lt (hlt z rfl))

theorem WellFormed.groups_eq (h : WellFormed sb disk) :
    groups sb = (sb.totalBlocks + (sb.blocksPerBlockGroup - 1)) / sb.blocksPerBlockGroup := by
  obtain ⟨k, hk, h2, h128⟩ := exists_blockSize h.shift
  obtain ⟨hpos, hle⟩ := h.blocksPerGroup
  have haddr := h.addressable
  rw [hk, Nat.mul_div_cancel_left _ (by decide)] at haddr
  have htotal := Nat.le_trans (Nat.mul_le_mul_right sb.totalBlocks h2) haddr
  rw [groups, idivCeil, sub32_of_le hpos (by omega), u32_of_lt (by omega)]

/-- The group of a block. -/
theorem WellFormed.inGroup_iff (h : WellFormed sb disk) : g < groups sb ∧ InGroup sb g n ↔
    n < sb.totalBlocks ∧ sb.superblockBlockNumber ≤ n ∧
      g = (n - sb.superblockBlockNumber) / sb.blocksPerBlockGroup := by
  have hpos := h.blocksPerGroup.1
  unfold InGroup groupStart
  constructor
  · rintro ⟨-, hlo, hhi, hn⟩
    refine ⟨hn, by omega, (Nat.div_eq_of_lt_le ?_ ?_).symm⟩ <;> omega
  · rintro ⟨hn, hfirst, rfl⟩
    obtain ⟨q, hq⟩ : ∃ q, (n - sb.superblockBlockNumber) / sb.blocksPerBlockGroup = q := ⟨_, rfl⟩
    have hdiv := Nat.div_add_mod (n - sb.superblockBlockNumber) sb.blocksPerBlockGroup
    have hmod := Nat.mod_lt (n - sb.superblockBlockNumber) hpos
    rw [hq, Nat.mul_comm] at hdiv
    rw [hq, h.groups_eq]
    refine ⟨(Nat.le_div_iff_mul_le hpos).2 ?_, by omega, ?_, hn⟩ <;> rw [Nat.succ_mul] <;> omega

theorem WellFormed.freeBlock_iff (h : WellFormed sb disk) : FreeBlock sb disk n ↔
    n < sb.totalBlocks ∧ sb.superblockBlockNumber ≤ n ∧
      bitAt sb disk (loadBgd sb disk ((n - sb.superblockBlockNumber) /
        sb.blocksPerBlockGroup)).blockBitmap
          ((n - sb.superblockBlockNumber) % sb.blocksPerBlockGroup) = false := by
  have hlocal : ∀ g, g = (n - sb.superblockBlockNumber) / sb.blocksPerBlockGroup →
      sb.superblockBlockNumber ≤ n →
      n - groupStart sb g = (n - sb.superblockBlockNumber) % sb.blocksPerBlockGroup := by
    rintro g rfl -
    have hdiv := Nat.div_add_mod (n - sb.superblockBlockNumber) sb.blocksPerBlockGroup
    rw [groupStart, Nat.mul_comm]
    omega
  constructor
  · rintro ⟨g, hg, hin, hbit⟩
    obtain ⟨hn, hfirst, hgroup⟩ := h.inGroup_iff.1 ⟨hg, hin⟩
    rw [hlocal g hgroup hfirst, hgroup] at hbit
    exact ⟨hn, hfirst, hbit⟩
  · rintro ⟨hn, hfirst, hbit⟩
    obtain ⟨hg, hin⟩ := h.inGroup_iff.2 ⟨hn, hfirst, rfl⟩
    exact ⟨_, hg, hin, by rwa [hlocal _ rfl hfirst]⟩

/-- The first bit of a block bitmap stands for a block of the file system itself. -/
theorem WellFormed.first_used (h : WellFormed sb disk) (hg : 0 < groups sb) :
    ¬ Clear sb disk (loadBgd sb disk 0).blockBitmap 0 := by
  have hblock := (h.geometry hg).block_lt (h.group 0 hg).blockBitmap.1.2.2
  have hfirst : sb.superblockBlockNumber < bgdtEnd sb := by
    have hbgdt : 1 ≤ bgdtBlock sb := by
      unfold bgdtBlock
      split_ifs <;> omega
    have hend : bgdtBlock sb + 1 ≤ bgdtEnd sb := Nat.succ_le_succ (Nat.le_add_right _ _)
    rw [h.first]
    split_ifs <;> omega
  have hused := (h.group 0 hg).used 0 h.blocksPerGroup.1
    (.inl (by rw [groupStart, Nat.zero_mul]; exact hfirst))
  rw [clear_iff_bitAt h.shift hblock (Nat.mul_pos (by decide) (blockSize_pos h.shift)), hused]
  exact nofun

theorem WellFormed.freeBlock_first (h : WellFormed sb disk) (hg : 0 < groups sb)
    (hz : FirstClear sb disk (loadBgd sb disk 0).blockBitmap sb.blocksPerBlockGroup (some z)) :
    z ≠ 0 ∧ (FreeBlock sb disk z ↔ FreeBlockInFirst sb disk (some z)) := by
  have hblock := (h.geometry hg).block_lt (h.group 0 hg).blockBitmap.1.2.2
  have hne : z ≠ 0 := by
    rintro rfl
    exact h.first_used hg hz.2.2.1
  have hfirst : sb.superblockBlockNumber ≤ z := by
    have hle : sb.superblockBlockNumber ≤ 1 := by
      rw [h.first]
      split_ifs <;> omega
    omega
  refine ⟨hne, ?_⟩
  rw [h.freeBlock_iff, FreeBlockInFirst]
  refine and_congr_right fun _ => ⟨fun hbit => .inr hbit.2, ?_⟩
  rintro (⟨hzero, hlt⟩ | hbit)
  · refine ⟨hfirst, ?_⟩
    rw [hzero, Nat.sub_zero, Nat.div_eq_of_lt hlt, Nat.mod_eq_of_lt hlt]
    exact (clear_iff_bitAt h.shift hblock (Nat.lt_of_lt_of_le hlt h.blocksPerGroup.2)).1 hz.2.2.1
  · exact ⟨hfirst, hbit⟩

/-- The search for a block. -/
theorem WellFormed.blockSearch_iff (h : WellFormed sb disk) (hg : 0 < groups sb) : ∃ b,
    firstFreeBlock sb disk = some b ∧
      (((b ≠ 0 → FreeBlock sb disk b) ∧ (b = 0 → ∀ n, ¬ FreeBlock sb disk n)) ↔
        ∀ r, FirstClear sb disk (loadBgd sb disk 0).blockBitmap sb.blocksPerBlockGroup r →
          FreeBlockInFirst sb disk r) := by
  have hgeo := h.geometry hg
  obtain ⟨r, hr, heq, hlt⟩ := firstClear_spec h.shift
    (hgeo.block_lt (h.group 0 hg).blockBitmap.1.2.2) h.blocksPerGroup.2 disk
  obtain ⟨n, hn⟩ := Nat.exists_eq_succ_of_ne_zero (Nat.ne_of_gt hg)
  refine ⟨_, by rw [firstFreeBlock, h.numGroups]; rfl, ?_⟩
  have hall : (∀ r, FirstClear sb disk (loadBgd sb disk 0).blockBitmap sb.blocksPerBlockGroup r →
      FreeBlockInFirst sb disk r) ↔ FreeBlockInFirst sb disk r :=
    ⟨fun hall => hall r hr, fun h' r' hr' => hr.unique hr' ▸ h'⟩
  rw [hall, hn, firstFreeBlockLoop_eq heq hlt]
  cases r with
  | none => exact ⟨fun h' => h'.2 rfl, fun h' => ⟨fun hne => absurd rfl hne, fun _ => h'⟩⟩
  | some z =>
    obtain ⟨hne, hiff⟩ := h.freeBlock_first hg hr
    rw [← hiff]
    exact ⟨fun h' => h'.1 hne, fun h' => ⟨fun _ => h', fun hzero => absurd hzero hne⟩⟩

end Free

/-! ### The sample -/

end Ext2

end Kernel

end Bluejay
