import Bluejay.Kernel.Ext2
import Bluejay.Lib.System

/-!
# Allocating blocks

The bitmaps of `ext2.c`, and `ext2_alloc_new_block`.

* `firstZeroBit`, `setInBitmap`, `allocNewBlock` : the functions of the file.
* `CallOk` : a call takes a free block of some group, and changes nothing else.
* `callsOk_iff` : the search is not limited to a number of blocks, so that its bound wraps around
  and it ends at once; this holds in a run exactly if there is no call.
-/

namespace Bluejay

namespace Kernel

namespace Ext2

/-- The loop of `ext2_bitmap_block`, which ends after at most `index` steps. -/
def bitmapBlockLoop (blockSize : ℕ) : ℕ → ℕ → ℕ → ℕ × ℕ
  | 0, bitmapBlock, index => (bitmapBlock, index)
  | n + 1, bitmapBlock, index =>
    if index > blockSize then
      bitmapBlockLoop blockSize n (u32 (bitmapBlock + 1)) (index - blockSize)
    else (bitmapBlock, index)

/-- `ext2_bitmap_block`: the block of the bitmap and the index in it. -/
def bitmapBlock (sb : Superblock) (bitmapBlock index : ℕ) : ℕ × ℕ :=
  bitmapBlockLoop (blockSize sb) index bitmapBlock index

/-- `ext2_check_in_bitmap`. -/
def checkInBitmap (sb : Superblock) (disk : Mem) (block index : ℕ) : Bool :=
  let (block, index) := bitmapBlock sb block index
  (readBlock sb disk block (index / 8)).toNat.testBit (index % 8)

/-- `ext2_set_in_bitmap`. -/
def setInBitmap (sb : Superblock) (disk : Mem) (block index : ℕ) (value : Bool) : Mem :=
  let (block, index) := bitmapBlock sb block index
  let buffer := readBlock sb disk block
  let targetBit : UInt8 := 1 <<< UInt8.ofNat (index % 8)
  let byte := if value then buffer (index / 8) ||| targetBit else buffer (index / 8) ||| ~~~targetBit
  writeBlock sb disk (Function.update buffer (index / 8) byte) block

/-- `__builtin_ffs(~word) - 1`, for a word that has a zero bit. -/
def trailingOnes (word : ℕ) : Option ℕ := (List.range 32).find? fun j => !word.testBit j

/-- The outer loop of `ext2_first_zero_bit`, for the next `n` blocks. -/
def firstZeroBitLoop (sb : Superblock) (disk : Mem) (bitmapBlock : ℕ) : ℕ → ℕ → ℕ
  | 0, _ => 2 ^ 32 - 1
  | n + 1, block =>
    let buffer := readBlock sb disk block
    let found := (List.range (blockSize sb / 4)).findSome? fun i =>
      (trailingOnes (buffer.loadLE (4 * i) 4)).map fun trailing =>
        u32 (trailing + (4 * 8 * i + (block - bitmapBlock) * 8 * blockSize sb))
    found.getD (firstZeroBitLoop sb disk bitmapBlock n (block + 1))

/-- `ext2_first_zero_bit`, which does not use its last parameter. -/
def firstZeroBit (sb : Superblock) (disk : Mem) (bitmapBlock numBlocks : ℕ) : ℕ :=
  firstZeroBitLoop sb disk bitmapBlock (u32 (bitmapBlock + numBlocks) - bitmapBlock) bitmapBlock

/-- `ext2_alloc_new_block`, with at most `fuel` groups that have no free blocks. -/
def allocNewBlock (sb : Superblock) (disk : Mem) : ℕ → ℕ → Option (ℕ × Mem)
  | 0, _ => none
  | fuel + 1, blockGroup =>
    let bgd := loadBgd sb disk blockGroup
    if bgd.unallocatedBlocks = 0 then allocNewBlock sb disk fuel (u32 (blockGroup + 1))
    else
      let block := firstZeroBit sb disk bgd.blockBitmap (2 ^ 32 - 1)
      let disk := setInBitmap sb disk bgd.blockBitmap block true
      let bgd := bgd.storeLE 12 2 (bgd.unallocatedBlocks - 1)
      some (block, writeBgd sb disk blockGroup bgd)

/-- Some group from `g` on has free blocks. -/
def FreeFrom (sb : Superblock) (disk : Mem) (g : ℕ) : Prop :=
  ∃ g' < groups sb, g ≤ g' ∧ (loadBgd sb disk g').unallocatedBlocks ≠ 0

/-- The calls that are made while free blocks remain, with their results. -/
def blockCalls (sb : Superblock) : System Mem (ℕ × ℕ) where
  step disk call disk' := FreeFrom sb disk call.1 ∧
    ∃ fuel, allocNewBlock sb disk fuel call.1 = some (call.2, disk')

/-- The byte of the disk that has the bit `i` of the bitmap of a group. -/
def bitmapByte (sb : Superblock) (disk : Mem) (g i : ℕ) : ℕ :=
  blockSize sb * (loadBgd sb disk g).blockBitmap + i / 8

/-- The place on the disk of the number of free blocks of a group. -/
def unallocatedAt (sb : Superblock) (g : ℕ) : ℕ := 512 * bgdLba sb g + bgdOffset g + 12

/-- A call takes a free block of a group: it returns the absolute number of the block, marks it,
counts the block, and changes no other byte. -/
def CallOk (sb : Superblock) (x : Mem × (ℕ × ℕ) × Mem) : Prop :=
  ∃ g i, i < sb.blocksPerBlockGroup ∧ InGroup sb g x.2.1.2 ∧ x.2.1.2 = groupStart sb g + i ∧
    bitAt sb x.1 (loadBgd sb x.1 g).blockBitmap i = false ∧
    bitAt sb x.2.2 (loadBgd sb x.1 g).blockBitmap i = true ∧
    (loadBgd sb x.2.2 g).unallocatedBlocks + 1 = (loadBgd sb x.1 g).unallocatedBlocks ∧
    ∀ a, a ≠ bitmapByte sb x.1 g i → a ≠ unallocatedAt sb g → a ≠ unallocatedAt sb g + 1 →
      x.2.2 a = x.1 a

/-- All calls of a run take free blocks, and no two the same one. -/
structure CallsOk (sb : Superblock) (ts : List (Mem × (ℕ × ℕ) × Mem)) : Prop where
  call : ∀ x ∈ ts, CallOk sb x
  distinct : ts.Pairwise fun x y => x.2.1.2 ≠ y.2.1.2

section Calls

variable {sb : Superblock} {disk disk' : Mem} {g r n : ℕ}

/-- With a bound that wraps around no block is looked at. -/
theorem firstZeroBit_of_wrap {b n : ℕ} (hn : n < 2 ^ 32) (hbn : 2 ^ 32 ≤ b + n) :
    firstZeroBit sb disk b n = 2 ^ 32 - 1 := by
  have hnone : u32 (b + n) - b = 0 := by
    unfold u32
    omega
  rw [firstZeroBit, hnone, firstZeroBitLoop]

/-- The blocks of a group are not the result of a search that fails. -/
theorem inGroup_lt (h : WellFormed sb disk) {b : ℕ} (hb : InGroup sb g b) : b < 2 ^ 32 - 1 := by
  have htotal : sb.totalBlocks < 256 ^ 4 := h.superblock ▸ Mem.loadLE_lt _ _ _
  have hlt : b < sb.totalBlocks := hb.2.2
  omega

/-- Every call from a well-formed image returns the number of no block. -/
theorem allocNewBlock_eq (h : WellFormed sb disk) (hfree : FreeFrom sb disk g)
    (hr : allocNewBlock sb disk n g = some (r, disk')) : r = 2 ^ 32 - 1 := by
  induction n generalizing g with
  | zero => cases hr
  | succ n ih =>
    obtain ⟨g', hg', hle, hne⟩ := hfree
    rw [allocNewBlock] at hr
    split_ifs at hr with hzero
    · have hlt : g < g' := Nat.lt_of_le_of_ne hle fun he => hne (he ▸ hzero)
      -- the next group is not behind the one with free blocks
      have hnext : u32 (g + 1) ≤ g' := Nat.le_trans (Nat.mod_le _ _) hlt
      exact ih ⟨g', hg', hnext, hne⟩ hr
    · have hok := (h.group g (Nat.lt_of_le_of_lt hle hg')).blockBitmap
      have hpos : 0 < bgdtEnd sb := Nat.succ_pos _
      have hne : (loadBgd sb disk g).blockBitmap ≠ 0 :=
        Nat.ne_of_gt (Nat.lt_of_lt_of_le hpos hok.2)
      -- without a limit the bound of the search wraps around
      rw [firstZeroBit_of_wrap (by decide) (by omega)] at hr
      exact (Prod.mk.inj (Option.some.inj hr)).1.symm

/-- A call made while free blocks remain returns. -/
theorem exists_allocNewBlock (hg : groups sb ≤ 2 ^ 32) (hfree : FreeFrom sb disk g) :
    ∃ n r disk', allocNewBlock sb disk n g = some (r, disk') := by
  obtain ⟨g', hg', hle, hne⟩ := hfree
  obtain ⟨k, rfl⟩ := Nat.exists_eq_add_of_le hle
  induction k generalizing g with
  | zero =>
    rw [Nat.add_zero] at hne
    exact ⟨1, _, _, by rw [allocNewBlock, if_neg hne]⟩
  | succ k ih =>
    by_cases hzero : (loadBgd sb disk g).unallocatedBlocks = 0
    · have hnext : g + (k + 1) = g + 1 + k := by omega
      rw [hnext] at hg' hne
      obtain ⟨n, r, disk', hr⟩ := ih hg' (Nat.le_add_right _ _) hne
      refine ⟨n + 1, r, disk', ?_⟩
      rw [allocNewBlock, if_pos hzero, u32_of_lt (by omega), hr]
    · exact ⟨1, _, _, by rw [allocNewBlock, if_neg hzero]⟩

/-- No call from a well-formed image takes a free block. -/
theorem not_callOk (h : WellFormed sb disk) {call : ℕ × ℕ}
    (hs : (blockCalls sb).step disk call disk') : ¬ CallOk sb (disk, call, disk') := by
  rintro ⟨g, i, -, hgroup, -⟩
  obtain ⟨hfree, n, hr⟩ := hs
  exact Nat.ne_of_lt (inGroup_lt h hgroup) (allocNewBlock_eq h hfree hr)

/-- **In a run from a well-formed image the calls take free blocks exactly if there is none.** -/
theorem callsOk_iff (h : WellFormed sb disk) {ts : List (Mem × (ℕ × ℕ) × Mem)}
    (hts : (blockCalls sb).Trace disk ts disk') : CallsOk sb ts ↔ ts = [] := by
  constructor
  · intro hok
    by_contra hne
    obtain ⟨call, disk₁, hmem, hs⟩ := hts.eq_nil_or_first.resolve_left fun hnil => hne hnil.1
    exact not_callOk h hs (hok.call _ hmem)
  · rintro rfl
    exact ⟨fun _ h => (List.not_mem_nil h).elim, .nil⟩

end Calls

/-- A call for the group of the sample. -/
theorem exists_sampleCall : ∃ call disk', (blockCalls sampleSuperblock).step sampleDisk call disk' := by
  have hfree : FreeFrom sampleSuperblock sampleDisk 0 := ⟨0, by decide, by decide⟩
  obtain ⟨n, r, disk', hr⟩ := exists_allocNewBlock (by decide) hfree
  exact ⟨(0, r), disk', hfree, n, hr⟩

theorem not_callsOk_sample : ∃ ts disk', (blockCalls sampleSuperblock).Trace sampleDisk ts disk' ∧
    ¬ CallsOk sampleSuperblock ts := by
  obtain ⟨call, disk', hs⟩ := exists_sampleCall
  have htrace := (System.Trace.nil (A := blockCalls sampleSuperblock)).snoc hs
  exact ⟨_, _, htrace, mt (callsOk_iff sample_wellFormed htrace).1 (List.cons_ne_nil _ _)⟩

/-- **A block is returned that is not there.** -/
theorem not_callsOk : ¬ ∀ (sb : Superblock) (disk disk' : Mem) (ts : List (Mem × (ℕ × ℕ) × Mem)),
    WellFormed sb disk → (blockCalls sb).Trace disk ts disk' → CallsOk sb ts := by
  intro h
  obtain ⟨call, disk', hs⟩ := exists_sampleCall
  have hok := h _ _ _ _ sample_wellFormed (.snoc .nil hs)
  exact not_callOk sample_wellFormed hs (hok.call _ (List.mem_singleton.2 rfl))

end Ext2

end Kernel

end Bluejay
