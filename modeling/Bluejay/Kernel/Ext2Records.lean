import Bluejay.Kernel.Ext2

/-!
# Inodes and group descriptors as records

Inodes and descriptors are read and written together with the block or the sector they are in.
With the tables apart, each is a record of its own all the same.

* `RecordLayout` : the tables of a disk are apart, and on sectors with numbers of 32 bits.
* `findInode_at`, `setInode_at`, `writeBgd_at` : what is read and written is the record at its place.
* `records_getSet` : the laws of reading and writing records.
-/

namespace Bluejay

namespace Kernel

namespace Ext2

/-- The place of the descriptor of a group on the disk. -/
def bgdAt (sb : Superblock) (g : ℕ) : ℕ := blockSize sb * bgdtBlock sb + bgdSize * g

/-- The place of the inode table of a group. -/
def inodeTableAt (sb : Superblock) (disk : Mem) (g : ℕ) : ℕ :=
  blockSize sb * (loadBgd sb disk g).inodeTableStartBlock

/-- The size of the inode tables. -/
def tableSize (sb : Superblock) : ℕ := inodeSize * sb.inodesPerBlockGroup

/-- The place of an inode; the numbers start with one. -/
def inodeAt (sb : Superblock) (disk : Mem) (number : ℕ) : ℕ :=
  inodeTableAt sb disk ((number - 1) / sb.inodesPerBlockGroup) + inodeSize * localIndex sb number

/-- The disk has `n` groups.  Their inode tables are apart from each other and from the descriptors,
and no number of a sector takes more than 32 bits. -/
structure RecordLayout (sb : Superblock) (disk : Mem) (n : ℕ) : Prop where
  shift : sb.blockSizeShift ≤ 6
  inodesPerGroup : 0 < sb.inodesPerBlockGroup
  bgdt : bgdAt sb n ≤ 512 * 2 ^ 32
  table : ∀ g < n, inodeTableAt sb disk g + tableSize sb ≤ 512 * 2 ^ 32
  apart : ∀ g < n, ∀ g' < n, g ≠ g' →
    inodeTableAt sb disk g + tableSize sb ≤ inodeTableAt sb disk g' ∨
      inodeTableAt sb disk g' + tableSize sb ≤ inodeTableAt sb disk g
  behind : ∀ g < n, inodeTableAt sb disk g + tableSize sb ≤ bgdAt sb 0 ∨
    bgdAt sb n ≤ inodeTableAt sb disk g

/-- Nothing but the `n` bytes from `o` on has changed. -/
def OnlyRecord (disk disk' : Mem) (o n : ℕ) : Prop := ∀ a, a < o ∨ o + n ≤ a → disk' a = disk a

section Records

variable {sb : Superblock} {disk buffer : Mem} {g g' i j n o k number : ℕ} {inode : Inode} {d : Bgd}

theorem onlyRecord_assign : OnlyRecord disk (assign disk o n buffer) o n := fun _ ha =>
  if_neg (by omega)

/-! ### Places of records -/

theorem bgdAt_mono (sb : Superblock) (h : g ≤ g') : bgdAt sb g ≤ bgdAt sb g' :=
  Nat.add_le_add_left (Nat.mul_le_mul_left _ h) _

theorem bgdAt_succ (sb : Superblock) (g : ℕ) : bgdAt sb (g + 1) = bgdAt sb g + bgdSize := by
  unfold bgdAt bgdSize
  omega

/-- The tables of inodes have whole blocks of inodes. -/
theorem inodeAt_eq (hs : sb.blockSizeShift ≤ 6) (disk : Mem) (number : ℕ) :
    inodeAt sb disk number = blockSize sb * ((loadBgd sb disk
      ((number - 1) / sb.inodesPerBlockGroup)).inodeTableStartBlock +
        localIndex sb number / inodesPerBlock sb) + inodeOffset sb number := by
  obtain ⟨k, hk, -, -⟩ := exists_blockSize hs
  have hsize : blockSize sb = inodeSize * inodesPerBlock sb := by
    unfold inodesPerBlock inodeSize
    omega
  have hmod := Nat.div_add_mod (localIndex sb number) (inodesPerBlock sb)
  rw [inodeAt, inodeTableAt, inodeOffset, Nat.mul_add, Nat.add_assoc]
  congr 1
  rw [hsize, Nat.mul_assoc, ← Nat.mul_add, hmod]

namespace RecordLayout

theorem loadBgd_at (h : RecordLayout sb disk n) (hg : g < n) (disk' : Mem) :
    loadBgd sb disk' g = structAt disk' (bgdAt sb g) bgdSize :=
  (loadBgd_of_le h.shift (Nat.le_trans (bgdAt_mono sb hg) h.bgdt) disk').2

theorem writeBgd_at (h : RecordLayout sb disk n) (hg : g < n) :
    writeBgd sb disk g d = assign disk (bgdAt sb g) bgdSize d := by
  have hplace := (loadBgd_of_le h.shift (Nat.le_trans (bgdAt_mono sb hg) h.bgdt) disk).1
  have hle : bgdOffset g + bgdSize ≤ 512 := by
    unfold bgdOffset bgdSize
    omega
  have hread : readSectors disk (bgdLba sb g) 1 = structAt disk (512 * bgdLba sb g) 512 := rfl
  have hwrite : ∀ buffer, writeSectors disk (bgdLba sb g) 1 buffer =
      assign disk (512 * bgdLba sb g) 512 buffer := fun _ => rfl
  rw [bgdAt, ← hplace, ← assign_assign_structAt hle, ← hread, ← hwrite]
  rfl

/-- The inode is one of a group. -/
theorem group_lt (h : RecordLayout sb disk n) (h1 : 1 ≤ i) (hi : i ≤ n * sb.inodesPerBlockGroup) :
    (i - 1) / sb.inodesPerBlockGroup < n :=
  (Nat.div_lt_iff_lt_mul h.inodesPerGroup).2 (by omega)

/-- The place of an inode is in the table of its group. -/
theorem inodeAt_le (h : RecordLayout sb disk n) :
    inodeAt sb disk i + inodeSize ≤
      inodeTableAt sb disk ((i - 1) / sb.inodesPerBlockGroup) + tableSize sb := by
  have hlt : localIndex sb i < sb.inodesPerBlockGroup := Nat.mod_lt _ h.inodesPerGroup
  unfold inodeAt tableSize inodeSize
  omega

/-- The block of an inode, and its place. -/
theorem blockStart_inode (h : RecordLayout sb disk n) (h1 : 1 ≤ i)
    (hi : i ≤ n * sb.inodesPerBlockGroup) :
    512 * blockStart sb (inodeBlock sb disk i) + inodeOffset sb i = inodeAt sb disk i := by
  obtain ⟨k, hk, h2, -⟩ := exists_blockSize h.shift
  obtain ⟨b, hb⟩ : ∃ b, (loadBgd sb disk
    ((i - 1) / sb.inodesPerBlockGroup)).inodeTableStartBlock +
      localIndex sb i / inodesPerBlock sb = b := ⟨_, rfl⟩
  have hat := inodeAt_eq h.shift disk i
  have hle := h.inodeAt_le (i := i)
  have htable := h.table _ (h.group_lt h1 hi)
  rw [hb] at hat
  have hlt : blockSize sb * b < 512 * 2 ^ 32 := by
    unfold inodeSize at hle
    omega
  have hb32 : b < 2 ^ 32 := by
    have hmul := Nat.mul_le_mul_right b (by omega : 512 ≤ blockSize sb)
    omega
  rw [inodeBlock, hb, u32_of_lt hb32, blockStart_of_lt h.shift hlt, hat]

theorem findInode_at (h : RecordLayout sb disk n) (h1 : 1 ≤ i)
    (hi : i ≤ n * sb.inodesPerBlockGroup) :
    findInode sb disk i = some (structAt disk (inodeAt sb disk i) inodeSize) := by
  rw [findInode, if_neg (by omega), readBlock_of_shift h.shift,
    structAt_structAt (inodeOffset_le_of_shift h.shift i), h.blockStart_inode h1 hi]

theorem setInode_at (h : RecordLayout sb disk n) (h1 : 1 ≤ i)
    (hi : i ≤ n * sb.inodesPerBlockGroup) :
    setInode sb disk i inode = some (assign disk (inodeAt sb disk i) inodeSize inode) := by
  rw [setInode, if_neg (by omega)]
  simp only [readBlock_of_shift h.shift, writeBlock_of_shift h.shift]
  rw [assign_assign_structAt (inodeOffset_le_of_shift h.shift i), h.blockStart_inode h1 hi]

/-! ### Writing a record -/

/-- Inodes are apart. -/
theorem inodes_apart (h : RecordLayout sb disk n) (h1 : 1 ≤ i)
    (hi : i ≤ n * sb.inodesPerBlockGroup) (h1' : 1 ≤ j) (hj : j ≤ n * sb.inodesPerBlockGroup)
    (hne : j ≠ i) : inodeAt sb disk j + inodeSize ≤ inodeAt sb disk i ∨
      inodeAt sb disk i + inodeSize ≤ inodeAt sb disk j := by
  by_cases hg : (j - 1) / sb.inodesPerBlockGroup = (i - 1) / sb.inodesPerBlockGroup
  · have hlocal : localIndex sb j ≠ localIndex sb i := by
      intro hlocal
      have hdj := Nat.div_add_mod (j - 1) sb.inodesPerBlockGroup
      have hdi := Nat.div_add_mod (i - 1) sb.inodesPerBlockGroup
      unfold localIndex at hlocal
      rw [hg, hlocal] at hdj
      omega
    unfold inodeAt
    rw [hg]
    unfold inodeSize
    omega
  · have hlei := h.inodeAt_le (i := i)
    have hlej := h.inodeAt_le (i := j)
    have hgei : inodeTableAt sb disk ((i - 1) / sb.inodesPerBlockGroup) ≤ inodeAt sb disk i :=
      Nat.le_add_right _ _
    have hgej : inodeTableAt sb disk ((j - 1) / sb.inodesPerBlockGroup) ≤ inodeAt sb disk j :=
      Nat.le_add_right _ _
    have := h.apart _ (h.group_lt h1' hj) _ (h.group_lt h1 hi) hg
    omega

/-- An inode is apart from the descriptors. -/
theorem loadBgd_assign (h : RecordLayout sb disk n) (h1 : 1 ≤ i)
    (hi : i ≤ n * sb.inodesPerBlockGroup) (hg : g < n) :
    loadBgd sb (assign disk (inodeAt sb disk i) inodeSize inode) g = loadBgd sb disk g := by
  have hle := h.inodeAt_le (i := i)
  have hge : inodeTableAt sb disk ((i - 1) / sb.inodesPerBlockGroup) ≤ inodeAt sb disk i :=
    Nat.le_add_right _ _
  have hfirst := bgdAt_mono sb (Nat.zero_le g)
  have hlast := bgdAt_mono sb (Nat.succ_le_of_lt hg)
  rw [Nat.succ_eq_add_one, bgdAt_succ] at hlast
  have := h.behind _ (h.group_lt h1 hi)
  rw [h.loadBgd_at hg, h.loadBgd_at hg, structAt_assign (by omega)]

theorem inodeTableAt_assign (h : RecordLayout sb disk n) (h1 : 1 ≤ i)
    (hi : i ≤ n * sb.inodesPerBlockGroup) (hg : g < n) :
    inodeTableAt sb (assign disk (inodeAt sb disk i) inodeSize inode) g =
      inodeTableAt sb disk g := by
  rw [inodeTableAt, h.loadBgd_assign h1 hi hg, inodeTableAt]

/-- The tables stay where they are. -/
theorem setInode (h : RecordLayout sb disk n) (h1 : 1 ≤ i)
    (hi : i ≤ n * sb.inodesPerBlockGroup) :
    RecordLayout sb (assign disk (inodeAt sb disk i) inodeSize inode) n := by
  have htable : ∀ g < n, inodeTableAt sb (assign disk (inodeAt sb disk i) inodeSize inode) g =
      inodeTableAt sb disk g := fun _ => h.inodeTableAt_assign h1 hi
  refine ⟨h.shift, h.inodesPerGroup, h.bgdt, fun g hg => ?_, fun g hg g' hg' => ?_, fun g hg => ?_⟩
  · rw [htable g hg]
    exact h.table g hg
  · rw [htable g hg, htable g' hg']
    exact h.apart g hg g' hg'
  · rw [htable g hg]
    exact h.behind g hg

theorem findInode_setInode (h : RecordLayout sb disk n) (h1 : 1 ≤ i)
    (hi : i ≤ n * sb.inodesPerBlockGroup) (hj : j ≤ n * sb.inodesPerBlockGroup) :
    findInode sb (assign disk (inodeAt sb disk i) inodeSize inode) j =
      if j = i then some (structAt inode 0 inodeSize) else findInode sb disk j := by
  rcases Nat.eq_zero_or_pos j with rfl | h1'
  · rw [if_neg (by omega)]
    rfl
  · have hat : inodeAt sb (assign disk (inodeAt sb disk i) inodeSize inode) j =
        inodeAt sb disk j :=
      congrArg (· + _) (h.inodeTableAt_assign h1 hi (h.group_lt h1' hj))
    rw [(h.setInode h1 hi).findInode_at h1' hj, hat]
    split_ifs with hji
    · rw [hji, structAt_assign_self]
    · rw [structAt_assign (h.inodes_apart h1 hi h1' hj hji), h.findInode_at h1' hj]

theorem loadBgd_writeBgd (h : RecordLayout sb disk n) (hg : g < n) (hg' : g' < n) :
    loadBgd sb (writeBgd sb disk g d) g' =
      if g' = g then structAt d 0 bgdSize else loadBgd sb disk g' := by
  rw [h.loadBgd_at hg', h.writeBgd_at hg]
  split_ifs with hgg
  · rw [hgg, structAt_assign_self]
  · rw [structAt_assign, h.loadBgd_at hg']
    unfold bgdAt bgdSize
    omega

end RecordLayout

/-- **The laws of reading and writing records.** -/
theorem records_getSet (h : RecordLayout sb disk n) :
    (∀ i j inode, 1 ≤ i → i ≤ n * sb.inodesPerBlockGroup → j ≤ n * sb.inodesPerBlockGroup →
      ∃ disk', setInode sb disk i inode = some disk' ∧
        findInode sb disk' j =
          (if j = i then some (structAt inode 0 inodeSize) else findInode sb disk j) ∧
        OnlyRecord disk disk' (inodeAt sb disk i) inodeSize) ∧
      (∀ g g' d, g < n → g' < n →
        loadBgd sb (writeBgd sb disk g d) g' =
          (if g' = g then structAt d 0 bgdSize else loadBgd sb disk g') ∧
        OnlyRecord disk (writeBgd sb disk g d) (bgdAt sb g) bgdSize) ∧
      findInode sb disk 0 = none ∧ ∀ inode, setInode sb disk 0 inode = none := by
  refine ⟨fun i j inode h1 hi hj => ?_, fun g g' d hg hg' => ?_, rfl, fun _ => rfl⟩
  · exact ⟨_, h.setInode_at h1 hi, h.findInode_setInode h1 hi hj, onlyRecord_assign⟩
  · refine ⟨h.loadBgd_writeBgd hg hg', ?_⟩
    rw [h.writeBgd_at hg]
    exact onlyRecord_assign

end Records

theorem sample_recordLayout : RecordLayout sampleSuperblock sampleDisk 1 where
  shift := by decide
  inodesPerGroup := by decide
  bgdt := by decide
  table := by decide
  apart g hg g' hg' hne := absurd ((Nat.lt_one_iff.1 hg).trans (Nat.lt_one_iff.1 hg').symm) hne
  behind := by decide

/-- The inodes 2 and 12 of the sample. -/
theorem records_getSet_sample : ∃ disk',
    setInode sampleSuperblock sampleDisk 2 (fun _ => 0) = some disk' ∧
      findInode sampleSuperblock disk' 12 = findInode sampleSuperblock sampleDisk 12 := by
  obtain ⟨disk', hset, hfind, -⟩ := (records_getSet sample_recordLayout).1 2 12 (fun _ => 0)
    (by decide) (by decide) (by decide)
  exact ⟨disk', hset, hfind⟩

end Ext2

end Kernel

end Bluejay
