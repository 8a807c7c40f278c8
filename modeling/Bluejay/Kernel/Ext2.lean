import Bluejay.Lib.Bytes
import Mathlib.Data.List.Basic

/-!
# The second extended file system

The disk as `ext2.c` reads and writes it: sectors, file system blocks, the descriptors of the
block groups, and inodes.  The structures of `ext2.h` stay the bytes that the C code lays them
over; `Bgd.blockBitmap`, `Inode.mode` and so on read their fields.

* `readBlock`, `writeBlock`, `loadBgd`, `writeBgd`, `getOrSetInode` : the functions of the file.
* `WellFormed` : the image of a file system, with its metadata in place.
* `Geometry.readBlock_writeBlock`, `WellFormed.setInode_spec` : what was written is read back, and
  the rest of the disk stays.
-/

namespace Bluejay

namespace Kernel

namespace Ext2

/-- `ata_pio_read_sectors`, whose `num_sectors` is a `uchar`; the buffer was zero before. -/
def readSectors (disk : Mem) (lba numSectors : ℕ) : Mem :=
  fun i => if i < 512 * (numSectors % 256) then disk (512 * lba + i) else 0

/-- `ata_pio_write_sectors`. -/
def writeSectors (disk : Mem) (lba numSectors : ℕ) (buffer : Mem) : Mem :=
  fun a => if 512 * lba ≤ a ∧ a < 512 * lba + 512 * (numSectors % 256) then buffer (a - 512 * lba)
    else disk a

/-- An assignment of a structure of `n` bytes inside of a buffer. -/
def assign (buffer : Mem) (offset n : ℕ) (value : Mem) : Mem :=
  fun i => if offset ≤ i ∧ i < offset + n then value (i - offset) else buffer i

/-- A structure of `n` bytes inside of a buffer. -/
def structAt (buffer : Mem) (offset n : ℕ) : Mem := fun i => if i < n then buffer (offset + i) else 0

/-! ### The superblock -/

/-- The fields of `struct ext2_superblock` that are used. -/
structure Superblock where
  totalInodes : ℕ
  totalBlocks : ℕ
  superblockBlockNumber : ℕ
  blockSizeShift : ℕ
  blocksPerBlockGroup : ℕ
  inodesPerBlockGroup : ℕ
  signature : ℕ
  deriving DecidableEq

/-- `EXT2_SIGNATURE`. -/
def ext2Signature : ℕ := 0xef53

/-- `ext2_read_superblock`. -/
def readSuperblock (disk : Mem) : Superblock :=
  let buffer := readSectors disk 2 2
  { totalInodes := buffer.loadLE 0 4
    totalBlocks := buffer.loadLE 4 4
    superblockBlockNumber := buffer.loadLE 20 4
    blockSizeShift := buffer.loadLE 24 4
    blocksPerBlockGroup := buffer.loadLE 32 4
    inodesPerBlockGroup := buffer.loadLE 40 4
    signature := buffer.loadLE 56 2 }

/-- `ext2_block_size`. -/
def blockSize (sb : Superblock) : ℕ := u32 (1024 <<< sb.blockSizeShift)

/-- `IDIV_CEIL`. -/
def idivCeil (num den : ℕ) : ℕ := u32 (num + sub32 den 1) / den

/-- `ext2_num_block_groups`; `none` is its `kpanic`. -/
def numBlockGroups (sb : Superblock) : Option ℕ :=
  let a := idivCeil sb.totalBlocks sb.blocksPerBlockGroup
  let b := idivCeil sb.totalInodes sb.inodesPerBlockGroup
  if a = b then some a else none

/-! ### Blocks -/

/-- The first sector of a block. -/
def blockStart (sb : Superblock) (block : ℕ) : ℕ := u32 (blockSize sb / 512 * block)

/-- `ext2_read_block`. -/
def readBlock (sb : Superblock) (disk : Mem) (block : ℕ) : Mem :=
  readSectors disk (blockStart sb block) (blockSize sb / 512)

/-- `ext2_write_block`. -/
def writeBlock (sb : Superblock) (disk : Mem) (buffer : Mem) (block : ℕ) : Mem :=
  writeSectors disk (blockStart sb block) (blockSize sb / 512) buffer

/-! ### The descriptors of the block groups -/

/-- The bytes of a `struct ext2_block_group_descriptor`. -/
abbrev Bgd := Mem

namespace Bgd

def blockBitmap (d : Bgd) : ℕ := Mem.loadLE d 0 4

def inodeBitmap (d : Bgd) : ℕ := Mem.loadLE d 4 4

def inodeTableStartBlock (d : Bgd) : ℕ := Mem.loadLE d 8 4

def unallocatedBlocks (d : Bgd) : ℕ := Mem.loadLE d 12 2

end Bgd

/-- `sizeof(struct ext2_block_group_descriptor)`. -/
def bgdSize : ℕ := 32

/-- The sector of the descriptor of a group. -/
def bgdLba (sb : Superblock) (blockGroup : ℕ) : ℕ :=
  let bgdtBlock := if blockSize sb = 1024 then 2 else 1
  u32 (blockSize sb / 512 * bgdtBlock + blockGroup / (512 / bgdSize))

/-- The place of the descriptor of a group in its sector. -/
def bgdOffset (blockGroup : ℕ) : ℕ := bgdSize * (blockGroup % (512 / bgdSize))

/-- `ext2_load_bgd`. -/
def loadBgd (sb : Superblock) (disk : Mem) (blockGroup : ℕ) : Bgd :=
  structAt (readSectors disk (bgdLba sb blockGroup) 1) (bgdOffset blockGroup) bgdSize

/-- `ext2_write_bgd`. -/
def writeBgd (sb : Superblock) (disk : Mem) (blockGroup : ℕ) (d : Bgd) : Mem :=
  let descriptors := readSectors disk (bgdLba sb blockGroup) 1
  writeSectors disk (bgdLba sb blockGroup) 1 (assign descriptors (bgdOffset blockGroup) bgdSize d)

/-! ### Inodes -/

/-- The bytes of a `struct ext2_inode`. -/
abbrev Inode := Mem

namespace Inode

def mode (inode : Inode) : ℕ := Mem.loadLE inode 0 2

/-- The field `size`. -/
def fileSize (inode : Inode) : ℕ := Mem.loadLE inode 4 4

def linksCount (inode : Inode) : ℕ := Mem.loadLE inode 26 2

def numBlocks (inode : Inode) : ℕ := Mem.loadLE inode 28 4

def blocks (inode : Inode) (i : ℕ) : ℕ := Mem.loadLE inode (40 + 4 * i) 4

/-- `in.links_count++`. -/
def incrementLinks (inode : Inode) : Inode := Mem.storeLE inode 26 2 (inode.linksCount + 1)

/-- The inode is the one of a directory. -/
def IsDir (inode : Inode) : Prop := inode.mode &&& 0xf000 = 0x4000

instance (inode : Inode) : Decidable inode.IsDir := inferInstanceAs (Decidable (_ = _))

end Inode

/-- `sizeof(struct ext2_inode)`. -/
def inodeSize : ℕ := 128

/-- The number of inodes in a block. -/
def inodesPerBlock (sb : Superblock) : ℕ := blockSize sb / inodeSize

/-- The number of an inode in its group. -/
def localIndex (sb : Superblock) (number : ℕ) : ℕ := (number - 1) % sb.inodesPerBlockGroup

/-- The block of the inode table that has an inode. -/
def inodeBlock (sb : Superblock) (disk : Mem) (number : ℕ) : ℕ :=
  u32 ((loadBgd sb disk ((number - 1) / sb.inodesPerBlockGroup)).inodeTableStartBlock +
    localIndex sb number / inodesPerBlock sb)

/-- The place of an inode in its block. -/
def inodeOffset (sb : Superblock) (number : ℕ) : ℕ :=
  inodeSize * (localIndex sb number % inodesPerBlock sb)

/-- `ext2_find_inode`. -/
def findInode (sb : Superblock) (disk : Mem) (number : ℕ) : Option Inode :=
  if number = 0 then none
  else some (structAt (readBlock sb disk (inodeBlock sb disk number)) (inodeOffset sb number)
    inodeSize)

/-- `ext2_set_inode`, with the disk as it is afterwards. -/
def setInode (sb : Superblock) (disk : Mem) (number : ℕ) (inode : Inode) : Option Mem :=
  if number = 0 then none
  else
    let inodes := readBlock sb disk (inodeBlock sb disk number)
    some (writeBlock sb disk (assign inodes (inodeOffset sb number) inodeSize inode)
      (inodeBlock sb disk number))

/-! ### Well-formed images -/

/-- The block of the table of descriptors. -/
def bgdtBlock (sb : Superblock) : ℕ := if blockSize sb = 1024 then 2 else 1

/-- The number of block groups. -/
def groups (sb : Superblock) : ℕ := idivCeil sb.totalBlocks sb.blocksPerBlockGroup

/-- The block behind the table of descriptors. -/
def bgdtEnd (sb : Superblock) : ℕ := bgdtBlock sb + (groups sb * bgdSize - 1) / blockSize sb + 1

/-- The number of blocks of an inode table. -/
def tableBlocks (sb : Superblock) : ℕ := (sb.inodesPerBlockGroup - 1) / inodesPerBlock sb + 1

/-- The first block of a group. -/
def groupStart (sb : Superblock) (g : ℕ) : ℕ :=
  sb.superblockBlockNumber + g * sb.blocksPerBlockGroup

/-- The block belongs to the group. -/
def InGroup (sb : Superblock) (g block : ℕ) : Prop :=
  groupStart sb g ≤ block ∧ block < groupStart sb (g + 1) ∧ block < sb.totalBlocks

instance (sb : Superblock) (g block : ℕ) : Decidable (InGroup sb g block) :=
  inferInstanceAs (Decidable (_ ∧ _))

/-- The bit `i` of a bitmap. -/
def bitAt (sb : Superblock) (disk : Mem) (bitmapBlock i : ℕ) : Bool :=
  (disk (blockSize sb * bitmapBlock + i / 8)).toNat.testBit (i % 8)

/-- The blocks that the file system itself takes. -/
def Metadata (sb : Superblock) (disk : Mem) (block : ℕ) : Prop :=
  block < bgdtEnd sb ∨ ∃ g < groups sb, let d := loadBgd sb disk g
    block = d.blockBitmap ∨ block = d.inodeBitmap ∨
      d.inodeTableStartBlock ≤ block ∧ block < d.inodeTableStartBlock + tableBlocks sb

instance (sb : Superblock) (disk : Mem) (block : ℕ) : Decidable (Metadata sb disk block) :=
  inferInstanceAs (Decidable (_ ∨ ∃ g < _, _ ∨ _ ∨ _ ∧ _))

/-- The free blocks of a group. -/
def freeBlocks (sb : Superblock) (disk : Mem) (g : ℕ) : List ℕ :=
  (List.range sb.blocksPerBlockGroup).filter fun i =>
    decide (InGroup sb g (groupStart sb g + i)) &&
      !bitAt sb disk (loadBgd sb disk g).blockBitmap i

/-- The metadata of a group is in the group, behind the table of descriptors, and marked as used,
and the number of free blocks is right. -/
structure GroupOk (sb : Superblock) (disk : Mem) (g : ℕ) : Prop where
  blockBitmap : InGroup sb g (loadBgd sb disk g).blockBitmap ∧
    bgdtEnd sb ≤ (loadBgd sb disk g).blockBitmap
  inodeBitmap : InGroup sb g (loadBgd sb disk g).inodeBitmap ∧
    bgdtEnd sb ≤ (loadBgd sb disk g).inodeBitmap
  inodeTable : ∀ i < tableBlocks sb, InGroup sb g ((loadBgd sb disk g).inodeTableStartBlock + i) ∧
    bgdtEnd sb ≤ (loadBgd sb disk g).inodeTableStartBlock
  apart : (loadBgd sb disk g).blockBitmap ≠ (loadBgd sb disk g).inodeBitmap ∧
    ∀ i < tableBlocks sb, (loadBgd sb disk g).inodeTableStartBlock + i ≠
      (loadBgd sb disk g).blockBitmap ∧ (loadBgd sb disk g).inodeTableStartBlock + i ≠
      (loadBgd sb disk g).inodeBitmap
  used : ∀ i < sb.blocksPerBlockGroup, Metadata sb disk (groupStart sb g + i) →
    bitAt sb disk (loadBgd sb disk g).blockBitmap i = true
  unallocated : (loadBgd sb disk g).unallocatedBlocks = (freeBlocks sb disk g).length

/-- The image of a file system with the superblock `sb`. -/
structure WellFormed (sb : Superblock) (disk : Mem) : Prop where
  superblock : readSuperblock disk = sb
  signature : sb.signature = ext2Signature
  shift : sb.blockSizeShift ≤ 6
  first : sb.superblockBlockNumber = if sb.blockSizeShift = 0 then 1 else 0
  inodesPerGroup : 0 < sb.inodesPerBlockGroup ∧ sb.inodesPerBlockGroup ≤ 8 * blockSize sb
  blocksPerGroup : 0 < sb.blocksPerBlockGroup ∧ sb.blocksPerBlockGroup ≤ 8 * blockSize sb
  numGroups : numBlockGroups sb = some (groups sb)
  inodes : sb.totalInodes ≤ groups sb * sb.inodesPerBlockGroup
  addressable : blockSize sb / 512 * sb.totalBlocks ≤ 2 ^ 32
  group : ∀ g < groups sb, GroupOk sb disk g

/-- The number of an inode that is in use. -/
def InodeExists (sb : Superblock) (disk : Mem) (number : ℕ) : Prop :=
  1 ≤ number ∧ number ≤ sb.totalInodes ∧
    bitAt sb disk (loadBgd sb disk ((number - 1) / sb.inodesPerBlockGroup)).inodeBitmap
      (localIndex sb number) = true

instance (sb : Superblock) (disk : Mem) (number : ℕ) : Decidable (InodeExists sb disk number) :=
  inferInstanceAs (Decidable (_ ∧ _ ∧ _))

/-! ### Places on the disk -/

section Places

variable {sb : Superblock} {disk buffer : Mem} {g block block' number i n k o o' : ℕ}

/-- The sizes that the places of all structures follow from. -/
structure Geometry (sb : Superblock) : Prop where
  shift : sb.blockSizeShift ≤ 6
  addressable : blockSize sb / 512 * sb.totalBlocks ≤ 2 ^ 32
  table : bgdtEnd sb ≤ sb.totalBlocks

theorem WellFormed.geometry (h : WellFormed sb disk) (hg : g < groups sb) : Geometry sb := by
  obtain ⟨hin, hend⟩ := (h.group g hg).blockBitmap
  exact ⟨h.shift, h.addressable, Nat.le_trans hend (Nat.le_of_lt hin.2.2)⟩

theorem exists_blockSize (h : sb.blockSizeShift ≤ 6) :
    ∃ k, blockSize sb = 512 * k ∧ 2 ≤ k ∧ k ≤ 128 := by
  have hs : ∀ s ≤ 6, ∃ k ≤ 128, u32 (1024 <<< s) = 512 * k ∧ 2 ≤ k := by
    decide +kernel
  obtain ⟨k, hk, heq, h2⟩ := hs _ h
  exact ⟨k, heq, h2, hk⟩

theorem blockSize_pos (hs : sb.blockSizeShift ≤ 6) : 0 < blockSize sb := by
  obtain ⟨k, hk, h2, -⟩ := exists_blockSize hs
  omega

/-- What is written to one place is not read at another. -/
theorem structAt_assign (h : o + n ≤ o' ∨ o' + k ≤ o) :
    structAt (assign disk o' k buffer) o n = structAt disk o n := by
  funext i
  unfold structAt
  split_ifs with hi
  · exact if_neg (by omega)
  · rfl

theorem structAt_assign_self : structAt (assign disk o n buffer) o n = structAt buffer 0 n := by
  funext i
  unfold structAt
  split_ifs with hi
  · rw [assign, if_pos (by omega), Nat.add_sub_cancel_left, Nat.zero_add]
  · rfl

theorem structAt_structAt (h : o' + k ≤ n) :
    structAt (structAt disk o n) o' k = structAt disk (o + o') k := by
  funext i
  unfold structAt
  split_ifs with h₁ h₂
  · rw [Nat.add_assoc]
  · omega
  · rfl

/-- A structure that is changed in a buffer, which is then written back. -/
theorem assign_assign_structAt (h : o' + k ≤ n) :
    assign disk o n (assign (structAt disk o n) o' k buffer) = assign disk (o + o') k buffer := by
  funext i
  unfold assign structAt
  by_cases hi : o ≤ i ∧ i < o + n
  · rw [if_pos hi]
    by_cases hk : o' ≤ i - o ∧ i - o < o' + k
    · rw [if_pos hk, if_pos (by omega), Nat.sub_sub]
    · rw [if_neg hk, if_pos (by omega), if_neg (by omega), Nat.add_sub_cancel' hi.1]
  · rw [if_neg hi, if_neg (by omega)]

theorem block_disjoint (h : block ≠ block') :
    blockSize sb * block + blockSize sb ≤ blockSize sb * block' ∨
      blockSize sb * block' + blockSize sb ≤ blockSize sb * block := by
  rcases Nat.lt_or_gt_of_ne h with h | h
  · exact .inl (Nat.mul_le_mul_left (blockSize sb) h)
  · exact .inr (Nat.mul_le_mul_left (blockSize sb) h)

theorem sectors_of_shift (hs : sb.blockSizeShift ≤ 6) :
    512 * (blockSize sb / 512 % 256) = blockSize sb := by
  obtain ⟨k, hk, h2, h128⟩ := exists_blockSize hs
  rw [hk, Nat.mul_div_cancel_left _ (by decide), Nat.mod_eq_of_lt (by omega)]

theorem readBlock_of_shift (hs : sb.blockSizeShift ≤ 6) :
    readBlock sb disk block = structAt disk (512 * blockStart sb block) (blockSize sb) := by
  funext i
  rw [readBlock, readSectors, structAt, sectors_of_shift hs]

theorem writeBlock_of_shift (hs : sb.blockSizeShift ≤ 6) :
    writeBlock sb disk buffer block =
      assign disk (512 * blockStart sb block) (blockSize sb) buffer := by
  funext i
  rw [writeBlock, writeSectors, assign, sectors_of_shift hs]

/-- The sectors of a disk have numbers of 32 bits. -/
theorem blockStart_of_lt (hs : sb.blockSizeShift ≤ 6)
    (hb : blockSize sb * block < 512 * 2 ^ 32) :
    512 * blockStart sb block = blockSize sb * block := by
  obtain ⟨k, hk, h2, h128⟩ := exists_blockSize hs
  rw [hk, Nat.mul_assoc] at hb
  rw [blockStart, hk, Nat.mul_div_cancel_left _ (by decide), u32_of_lt (by omega), Nat.mul_assoc]

theorem loadBgd_of_le (hs : sb.blockSizeShift ≤ 6)
    (hg : blockSize sb * bgdtBlock sb + bgdSize * (g + 1) ≤ 512 * 2 ^ 32) (disk : Mem) :
    512 * bgdLba sb g + bgdOffset g = blockSize sb * bgdtBlock sb + bgdSize * g ∧
      loadBgd sb disk g = structAt disk (blockSize sb * bgdtBlock sb + bgdSize * g) bgdSize := by
  obtain ⟨k, hk, h2, h128⟩ := exists_blockSize hs
  have hlba : bgdLba sb g = k * bgdtBlock sb + g / 16 := by
    have hblock : (if blockSize sb = 1024 then 2 else 1) = bgdtBlock sb := rfl
    simp only [bgdLba, hblock, bgdSize]
    rw [hk, Nat.mul_div_cancel_left _ (by decide)]
    rw [hk, Nat.mul_assoc] at hg
    unfold bgdSize at hg
    exact u32_of_lt (by omega)
  have hplace : 512 * bgdLba sb g + bgdOffset g =
      blockSize sb * bgdtBlock sb + bgdSize * g := by
    rw [hlba, hk, Nat.mul_assoc]
    unfold bgdOffset bgdSize
    omega
  have hsector : readSectors disk (bgdLba sb g) 1 = structAt disk (512 * bgdLba sb g) 512 := rfl
  have hle : bgdOffset g + bgdSize ≤ 512 := by
    unfold bgdOffset bgdSize
    omega
  exact ⟨hplace, by rw [loadBgd, hsector, structAt_structAt hle, hplace]⟩

/-- An inode is in its block. -/
theorem inodeOffset_le_of_shift (hs : sb.blockSizeShift ≤ 6) (number : ℕ) :
    inodeOffset sb number + inodeSize ≤ blockSize sb := by
  obtain ⟨k, hk, h2, -⟩ := exists_blockSize hs
  have hper : inodesPerBlock sb = 4 * k := by
    unfold inodesPerBlock inodeSize
    omega
  have hlt := Nat.mod_lt (localIndex sb number) (by omega : 0 < inodesPerBlock sb)
  unfold inodeOffset
  unfold inodeSize
  omega

namespace Geometry

/-- The blocks of the file system are on the disk. -/
theorem block_lt (h : Geometry sb) (hb : block < sb.totalBlocks) :
    blockSize sb * block < 512 * 2 ^ 32 := by
  obtain ⟨k, hk, h2, -⟩ := exists_blockSize h.shift
  have haddr := h.addressable
  rw [hk, Nat.mul_div_cancel_left _ (by decide)] at haddr
  have hlt : k * block < k * sb.totalBlocks := Nat.mul_lt_mul_of_pos_left hb (by omega)
  rw [hk, Nat.mul_assoc]
  omega

theorem readBlock_eq (h : Geometry sb) (hb : block < sb.totalBlocks) :
    readBlock sb disk block = structAt disk (blockSize sb * block) (blockSize sb) := by
  rw [readBlock_of_shift h.shift, blockStart_of_lt h.shift (h.block_lt hb)]

theorem writeBlock_eq (h : Geometry sb) (hb : block < sb.totalBlocks) :
    writeBlock sb disk buffer block = assign disk (blockSize sb * block) (blockSize sb) buffer := by
  rw [writeBlock_of_shift h.shift, blockStart_of_lt h.shift (h.block_lt hb)]

/-- The place of a descriptor is in the table of descriptors. -/
theorem bgd_lt (h : Geometry sb) (hg : g < groups sb) :
    blockSize sb * bgdtBlock sb + bgdSize * g + bgdSize ≤ blockSize sb * bgdtEnd sb := by
  obtain ⟨k, hk, h2, -⟩ := exists_blockSize h.shift
  have hmod := Nat.div_add_mod (groups sb * bgdSize - 1) (blockSize sb)
  have hlt := Nat.mod_lt (groups sb * bgdSize - 1) (by omega : 0 < blockSize sb)
  unfold bgdtEnd
  rw [Nat.mul_add, Nat.mul_add, Nat.mul_one]
  unfold bgdSize at *
  omega

theorem loadBgd_eq (h : Geometry sb) (hg : g < groups sb) :
    loadBgd sb disk g = structAt disk (blockSize sb * bgdtBlock sb + bgdSize * g) bgdSize := by
  obtain ⟨k, hk, h2, -⟩ := exists_blockSize h.shift
  have hlt := h.bgd_lt hg
  have haddr := h.addressable
  have htable := Nat.mul_le_mul_left (blockSize sb) h.table
  rw [hk, Nat.mul_div_cancel_left _ (by decide)] at haddr
  have htotal : blockSize sb * sb.totalBlocks ≤ 512 * 2 ^ 32 := by
    rw [hk, Nat.mul_assoc]
    omega
  exact (loadBgd_of_le h.shift (by rw [Nat.mul_succ]; omega) disk).2

/-- A block behind the table of descriptors does not change them. -/
theorem loadBgd_writeBlock (h : Geometry sb) (hg : g < groups sb) (hend : bgdtEnd sb ≤ block)
    (hb : block < sb.totalBlocks) :
    loadBgd sb (writeBlock sb disk buffer block) g = loadBgd sb disk g := by
  have hlt := h.bgd_lt hg
  have hle := Nat.mul_le_mul_left (blockSize sb) hend
  rw [h.loadBgd_eq hg, h.loadBgd_eq hg, h.writeBlock_eq hb, structAt_assign (by omega)]

theorem readBlock_writeBlock_of_ne (h : Geometry sb) (hb : block < sb.totalBlocks)
    (hb' : block' < sb.totalBlocks) (hne : block ≠ block') :
    readBlock sb (writeBlock sb disk buffer block') block = readBlock sb disk block := by
  rw [h.readBlock_eq hb, h.readBlock_eq hb, h.writeBlock_eq hb',
    structAt_assign (block_disjoint hne)]

theorem readBlock_writeBlock (h : Geometry sb) (hb : block < sb.totalBlocks) :
    readBlock sb (writeBlock sb disk buffer block) block = structAt buffer 0 (blockSize sb) := by
  rw [h.readBlock_eq hb, h.writeBlock_eq hb, structAt_assign_self]

theorem inodeOffset_le (h : Geometry sb) (number : ℕ) :
    inodeOffset sb number + inodeSize ≤ blockSize sb :=
  inodeOffset_le_of_shift h.shift number

end Geometry

/-- The block of an inode that is in use belongs to the file system. -/
theorem WellFormed.inodeBlock_spec (h : WellFormed sb disk) (hx : InodeExists sb disk number) :
    (number - 1) / sb.inodesPerBlockGroup < groups sb ∧
      Metadata sb disk (inodeBlock sb disk number) ∧ bgdtEnd sb ≤ inodeBlock sb disk number ∧
      inodeBlock sb disk number < sb.totalBlocks := by
  obtain ⟨hpos, hle, -⟩ := hx
  have hper := h.inodesPerGroup.1
  have hg : (number - 1) / sb.inodesPerBlockGroup < groups sb := by
    have := h.inodes
    exact (Nat.div_lt_iff_lt_mul hper).2 (by omega)
  obtain ⟨d, hd⟩ : ∃ d, loadBgd sb disk ((number - 1) / sb.inodesPerBlockGroup) = d := ⟨_, rfl⟩
  obtain ⟨i, hi⟩ : ∃ i, localIndex sb number / inodesPerBlock sb = i := ⟨_, rfl⟩
  have hlt : i < tableBlocks sb := by
    have hmod : localIndex sb number ≤ sb.inodesPerBlockGroup - 1 :=
      Nat.le_sub_one_of_lt (Nat.mod_lt _ hper)
    exact Nat.lt_succ_of_le (hi ▸ Nat.div_le_div_right hmod)
  obtain ⟨hin, hend⟩ := (h.group _ hg).inodeTable i hlt
  rw [hd] at hin hend
  have htotal : sb.totalBlocks < 256 ^ 4 := h.superblock ▸ Mem.loadLE_lt _ _ _
  have hblock : inodeBlock sb disk number = d.inodeTableStartBlock + i := by
    have := hin.2.2
    rw [inodeBlock, hd, hi, u32_of_lt (by omega)]
  rw [hblock]
  exact ⟨hg, .inr ⟨_, hg, .inr (.inr ⟨by rw [hd]; omega, by rw [hd]; omega⟩)⟩, by omega, hin.2.2⟩

theorem inodeBlock_congr {disk' : Mem}
    (h : loadBgd sb disk' ((number - 1) / sb.inodesPerBlockGroup) =
      loadBgd sb disk ((number - 1) / sb.inodesPerBlockGroup)) :
    inodeBlock sb disk' number = inodeBlock sb disk number := by
  rw [inodeBlock, inodeBlock, h]

/-- Data that is written leaves the inodes as they are. -/
theorem WellFormed.findInode_writeBlock (h : WellFormed sb disk) (hx : InodeExists sb disk number)
    {disk' : Mem} (hbgd : ∀ g < groups sb, loadBgd sb disk' g = loadBgd sb disk g)
    (hb : block < sb.totalBlocks) (hdata : ¬ Metadata sb disk block) :
    findInode sb (writeBlock sb disk' buffer block) number = findInode sb disk' number := by
  obtain ⟨hg, hmeta, hend, hlt⟩ := h.inodeBlock_spec hx
  have hgeo := h.geometry hg
  have hbehind : bgdtEnd sb ≤ block := Nat.le_of_not_lt fun hlt => hdata (.inl hlt)
  have hblock' := inodeBlock_congr (hbgd _ hg)
  have hblock : inodeBlock sb (writeBlock sb disk' buffer block) number =
      inodeBlock sb disk' number := inodeBlock_congr (hgeo.loadBgd_writeBlock hg hbehind hb)
  have hne : inodeBlock sb disk number ≠ block := fun he => hdata (he ▸ hmeta)
  rw [findInode, findInode, hblock, hblock', hgeo.readBlock_writeBlock_of_ne hlt hb hne]

/-- An inode that was written is read back; the descriptors and all blocks of data stay. -/
theorem WellFormed.setInode_spec (h : WellFormed sb disk) (hx : InodeExists sb disk number)
    (inode : Inode) : ∃ disk', setInode sb disk number inode = some disk' ∧
      findInode sb disk' number = some (structAt inode 0 inodeSize) ∧
      (∀ g < groups sb, loadBgd sb disk' g = loadBgd sb disk g) ∧
      ∀ b < sb.totalBlocks, ¬ Metadata sb disk b → readBlock sb disk' b = readBlock sb disk b := by
  obtain ⟨hg, hmeta, hend, hlt⟩ := h.inodeBlock_spec hx
  have hgeo := h.geometry hg
  have hne : number ≠ 0 := Nat.ne_of_gt hx.1
  have hbgd : ∀ {buffer : Mem}, ∀ g < groups sb,
      loadBgd sb (writeBlock sb disk buffer (inodeBlock sb disk number)) g =
        loadBgd sb disk g := fun g hg => hgeo.loadBgd_writeBlock hg hend hlt
  refine ⟨_, by rw [setInode, if_neg hne], ?_, hbgd, fun b hb hdata => ?_⟩
  · rw [findInode, if_neg hne, inodeBlock_congr (hbgd _ hg), hgeo.readBlock_writeBlock hlt]
    have hle := hgeo.inodeOffset_le number
    congr 1
    funext i
    simp only [structAt]
    split_ifs with h₁ h₂
    · rw [Nat.zero_add, Nat.zero_add, assign, if_pos (by omega), Nat.add_sub_cancel_left]
    · omega
    · rfl
  · exact hgeo.readBlock_writeBlock_of_ne hb hlt fun he => hdata (he ▸ hmeta)

end Places

/-! ### A small image -/

/-- A disk that is zero but for some places. -/
def diskOf : List (ℕ × List UInt8) → Mem
  | [] => fun _ => 0
  | (a, bs) :: rest => fun i => if a ≤ i ∧ i < a + bs.length then bs.getD (i - a) 0
    else diskOf rest i

/-- One group of 63 blocks, with the directory 2 in block 7 and the empty file 12. -/
def sampleSuperblock : Superblock := ⟨16, 64, 1, 0, 64, 16, ext2Signature⟩

/-- The places of `sampleDisk` that are not zero. -/
def samplePlaces : List (ℕ × List UInt8) :=
  -- the superblock
  [(1024, [16]), (1028, [64]), (1044, [1]), (1056, [64]), (1064, [16]), (1080, [0x53, 0xef]),
    -- the descriptor, and both bitmaps
    (2048, [3, 0, 0, 0, 4, 0, 0, 0, 5, 0, 0, 0, 56]), (3072, [0x7f]), (4096, [0xff, 0x0f]),
    -- the inodes 2 and 12
    (5248, [0xed, 0x41]), (5252, [0, 4]), (5274, [2, 0, 2]), (5288, [7]),
    (6528, [0xa4, 0x81]), (6554, [1]),
    -- the directory
    (7168, [2, 0, 0, 0, 12, 0, 1, 2, 46]), (7180, [2, 0, 0, 0, 0xf4, 0x03, 2, 2, 46, 46])]

def sampleDisk : Mem := diskOf samplePlaces

/-- A disk with this superblock and a group as it must be. -/
theorem wellFormed_of_group {disk : Mem} (hsb : readSuperblock disk = sampleSuperblock)
    (hgroup : GroupOk sampleSuperblock disk 0) : WellFormed sampleSuperblock disk where
  superblock := hsb
  signature := by decide
  shift := by decide
  first := by decide
  inodesPerGroup := by decide
  blocksPerGroup := by decide
  numGroups := by decide
  inodes := by decide
  addressable := by decide
  group := by
    intro g hg
    obtain rfl : g = 0 := Nat.lt_one_iff.1 hg
    exact hgroup

theorem sample_wellFormed : WellFormed sampleSuperblock sampleDisk :=
  wellFormed_of_group (by decide) ⟨by decide, by decide, by decide,
    by decide, by decide, by decide⟩

end Ext2

end Kernel

end Bluejay
