import Bluejay.Kernel.Ext2List

/-!
# Reading a file

* `readInode` : `ext2_read_inode`, which reads from the start of the file.
* `fileRead` : `ext2_file_read`, which reads from any offset on.
* `readsStart` : the first one reads the bytes of the file and no others.
* `readsAt_iff` : when the second one does so.
-/

namespace Bluejay

namespace Kernel

namespace Ext2

/-! ### The functions -/

/-- The bytes that `ext2_read_block` writes to its buffer. -/
def blockBytes (sb : Superblock) : ℕ := 512 * (blockSize sb / 512 % 256)

/-- A read: the blocks of the inode that it asks for, and what it returns with the bytes of the
buffer; `none` is the `kpanic` of `ext2_compute_absolute_block`. -/
structure ReadRun where
  requested : List ℕ
  result : Option (ℕ × Mem)

/-- The loop of `ext2_read_inode`, for the next `n` blocks. -/
def readFullBlocks (sb : Superblock) (disk : Mem) (inode : Inode) :
    ℕ → ℕ → Mem → List ℕ × Option Mem
  | 0, _, buffer => ([], some buffer)
  | n + 1, i, buffer =>
    match readInodeBlock sb disk inode i with
    | none => ([i], none)
    | some data =>
      let rest := readFullBlocks sb disk inode n (i + 1)
        (assign buffer (i * blockSize sb) (blockBytes sb) data)
      (i :: rest.1, rest.2)

/-- `ext2_read_inode`, with the bytes of the buffer. -/
def readInode (sb : Superblock) (disk : Mem) (inode : Inode) (buffer : Mem) (size : ℕ) : ReadRun :=
  let fsize := min inode.fileSize (u32 size)
  let i := fsize / blockSize sb
  match readFullBlocks sb disk inode i 0 buffer with
  | (requested, none) => ⟨requested, none⟩
  | (requested, some buffer) =>
    if i * blockSize sb < fsize then
      let remainder := fsize % blockSize sb
      ⟨requested ++ [i], (readInodeBlock sb disk inode i).map fun transfer =>
        (fsize, assign buffer (i * blockSize sb) remainder transfer)⟩
    else ⟨requested, some (fsize, buffer)⟩

/-- The loop of `ext2_file_read`; `none` if it takes more steps. -/
def fileReadLoop (sb : Superblock) (disk : Mem) (inode : Inode) :
    ℕ → ℕ → ℕ → ℕ → ℕ → Mem → Option ReadRun
  | 0, _, _, _, _, _ => none
  | n + 1, blockStart, blockOffset, size, numRead, buffer =>
    let toRead := min (blockSize sb - blockOffset) size
    match readInodeBlock sb disk inode blockStart with
    | none => some ⟨[blockStart], none⟩
    | some tmp =>
      let buffer := assign buffer numRead toRead fun k => tmp (blockOffset + k)
      let numRead := numRead + toRead
      -- it ends only after a block of which nothing is needed
      if toRead > 0 then
        (fileReadLoop sb disk inode n (blockStart + 1) 0 (size - toRead) numRead buffer).map
          fun run => { run with requested := blockStart :: run.requested }
      else some ⟨[blockStart], some (numRead, buffer)⟩

/-- `ext2_file_read`, with the bytes of the buffer; `inode` is the cached one. -/
def fileRead (sb : Superblock) (disk : Mem) (inode : Inode) (ofs size : ℕ) (buffer : Mem)
    (fuel : ℕ) : Option ReadRun :=
  fileReadLoop sb disk inode fuel (ofs / blockSize sb) (ofs % blockSize sb) size 0 buffer

/-! ### What they should do -/

/-- A byte of the direct blocks, one behind the other. -/
def fileByte (sb : Superblock) (disk : Mem) (inode : Inode) (k : ℕ) : UInt8 :=
  readBlock sb disk (inode.blocks (k / blockSize sb)) (k % blockSize sb)

/-- `ext2_read_inode` returns the number of bytes of the file, at most `size`.  These bytes are in
the buffer, whose other bytes are as before, and only direct blocks are asked for. -/
def ReadsStart (sb : Superblock) (disk : Mem) (inode : Inode) (buffer : Mem) (size : ℕ) : Prop :=
  ∃ requested buffer', readInode sb disk inode buffer size =
      ⟨requested, some (min size inode.fileSize, buffer')⟩ ∧
    (∀ k < min size inode.fileSize, buffer' k = fileByte sb disk inode k) ∧
    (∀ k, min size inode.fileSize ≤ k → buffer' k = buffer k) ∧
    ∀ block ∈ requested, block < 12

/-- The read returns the number of bytes that there are from the offset on, at most `size`.  These
bytes are in the buffer, whose other bytes are as before.  No block behind the end of the file is
asked for, and from the start of the file on `ext2_read_inode` does the same. -/
def ReadsAt (sb : Superblock) (disk : Mem) (inode : Inode) (ofs size : ℕ) : Prop :=
  ∀ buffer, ∃ fuel requested buffer',
    fileRead sb disk inode ofs size buffer fuel =
      some ⟨requested, some (min size (inode.fileSize - ofs), buffer')⟩ ∧
    (∀ k < min size (inode.fileSize - ofs), buffer' k = fileByte sb disk inode (ofs + k)) ∧
    (∀ k, min size (inode.fileSize - ofs) ≤ k → buffer' k = buffer k) ∧
    (∀ block ∈ requested, block * blockSize sb < inode.fileSize) ∧
    (ofs = 0 → (readInode sb disk inode buffer size).result =
      some (min size (inode.fileSize - ofs), buffer'))

/-- The last block that `ext2_file_read` asks for: behind the one with the last byte. -/
def lastBlock (sb : Superblock) (ofs size : ℕ) : ℕ :=
  if size = 0 then ofs / blockSize sb else (ofs + size - 1) / blockSize sb + 1

section Read

variable {sb : Superblock} {disk buffer : Mem} {inode : Inode} {i k m n ofs size fuel : ℕ}
  {blockStart blockOffset numRead : ℕ} {run : ReadRun}

/-! ### Pieces of a buffer -/

/-- One piece behind another one. -/
theorem assign_assign (buffer : Mem) (pos n m ofs : ℕ) (f : Mem) :
    assign (assign buffer pos n fun k => f (ofs + k)) (pos + n) m (fun k => f (ofs + n + k)) =
      assign buffer pos (n + m) fun k => f (ofs + k) := by
  funext k
  simp only [assign]
  split_ifs with h₁ h₂ h₂ h₂
  · congr 1
    omega
  all_goals first | rfl | omega

theorem assign_congr {value value' : Mem} {pos : ℕ} (h : ∀ k < n, value k = value' k) :
    assign buffer pos n value = assign buffer pos n value' := by
  funext k
  simp only [assign]
  split_ifs with hk
  · exact h _ (by omega)
  · rfl

theorem assign_zero {value : Mem} {pos : ℕ} : assign buffer pos 0 value = buffer := by
  funext k
  exact if_neg (by omega)

theorem blockBytes_of_shift (hs : sb.blockSizeShift ≤ 6) : blockBytes sb = blockSize sb :=
  sectors_of_shift hs

/-- The bytes of a block of the file. -/
theorem fileByte_block (hk : k < blockSize sb) : fileByte sb disk inode (i * blockSize sb + k) =
    readBlock sb disk (inode.blocks i) k := by
  have hpos : 0 < blockSize sb := Nat.zero_lt_of_lt hk
  rw [fileByte, Nat.mul_comm, Nat.mul_add_div hpos, Nat.div_eq_of_lt hk, Nat.add_zero,
    Nat.mul_add_mod, Nat.mod_eq_of_lt hk]

/-! ### From the start of the file -/

theorem readFullBlocks_eq (hs : sb.blockSizeShift ≤ 6) (hi : i + n ≤ 12) :
    readFullBlocks sb disk inode n i buffer = (List.range' i n,
      some (assign buffer (i * blockSize sb) (n * blockSize sb)
        fun k => fileByte sb disk inode (i * blockSize sb + k))) := by
  induction n generalizing i buffer with
  | zero => rw [Nat.zero_mul, assign_zero]; rfl
  | succ n ih =>
    rw [readFullBlocks, readInodeBlock_of_lt (by omega)]
    simp only
    rw [ih (by omega), blockBytes_of_shift hs,
      assign_congr fun k hk => (fileByte_block (i := i) hk).symm, Nat.add_mul i 1, Nat.one_mul,
      assign_assign, Nat.add_comm (blockSize sb), ← Nat.succ_mul, List.range'_succ]

/-- What `ext2_read_inode` reads is the start of the file, in direct blocks. -/
theorem readInode_eq (hs : sb.blockSizeShift ≤ 6) (hsize : size < 2 ^ 32)
    (hfile : inode.fileSize ≤ 12 * blockSize sb) :
    ∃ requested, readInode sb disk inode buffer size = ⟨requested, some (min size inode.fileSize,
      assign buffer 0 (min size inode.fileSize) (fileByte sb disk inode))⟩ ∧
        ∀ block ∈ requested, block < 12 := by
  have hpos := blockSize_pos hs
  obtain ⟨n, hn⟩ : ∃ n, min size inode.fileSize = n := ⟨_, rfl⟩
  have hle : n ≤ 12 * blockSize sb := by omega
  have hdiv : n / blockSize sb ≤ 12 := by
    rw [Nat.div_le_iff_le_mul hpos]
    omega
  have hmod := Nat.div_add_mod' n (blockSize sb)
  have hfull : readFullBlocks sb disk inode (n / blockSize sb) 0 buffer =
      (List.range' 0 (n / blockSize sb), some (assign buffer 0 (n / blockSize sb * blockSize sb)
        (fileByte sb disk inode))) := by
    simpa only [Nat.zero_mul, Nat.zero_add] using
      readFullBlocks_eq hs (by omega : 0 + n / blockSize sb ≤ 12)
  simp only [readInode, u32_of_lt hsize, Nat.min_comm inode.fileSize size, hn, hfull]
  split_ifs with hrest
  · have hlt : n / blockSize sb < 12 :=
      Nat.lt_of_mul_lt_mul_right (Nat.lt_of_lt_of_le hrest hle)
    refine ⟨List.range' 0 (n / blockSize sb) ++ [n / blockSize sb], ?_, fun block hblock => ?_⟩
    · rw [readInodeBlock_of_lt hlt, Option.map_some,
        assign_congr fun k hk => (fileByte_block
          (Nat.lt_trans hk (Nat.mod_lt n hpos))).symm]
      have hjoin := assign_assign buffer 0 (n / blockSize sb * blockSize sb) (n % blockSize sb) 0
        (fileByte sb disk inode)
      simp only [Nat.zero_add] at hjoin
      rw [hjoin, hmod]
    · rcases List.mem_append.1 hblock with hblock | hblock
      · have := (List.mem_range'_1.1 hblock).2
        omega
      · rw [List.mem_singleton.1 hblock]
        exact hlt
  · -- the bytes end with a block
    have hzero : n / blockSize sb * blockSize sb = n := by omega
    refine ⟨_, by rw [hzero], fun block hblock => ?_⟩
    have := (List.mem_range'_1.1 hblock).2
    omega

theorem readsStart (hs : sb.blockSizeShift ≤ 6) (hsize : size < 2 ^ 31)
    (hfile : inode.fileSize ≤ 12 * blockSize sb) : ReadsStart sb disk inode buffer size := by
  obtain ⟨requested, hread, hblocks⟩ := readInode_eq hs (by omega : size < 2 ^ 32) hfile
  refine ⟨requested, _, hread, fun k hk => ?_, fun k hk => ?_, hblocks⟩
  · exact if_pos (by omega)
  · exact if_neg (by omega)

/-! ### From any offset on -/

/-- The next block is asked for also if no more bytes are to be read. -/
theorem fileReadLoop_zero (hi : blockStart < 12) :
    fileReadLoop sb disk inode (n + 1) blockStart blockOffset 0 numRead buffer =
      some ⟨[blockStart], some (numRead, buffer)⟩ := by
  simp only [fileReadLoop, readInodeBlock_of_lt hi, Nat.min_zero, Nat.add_zero, assign_zero]
  rfl

/-- The bytes of a block from the offset on, and those of the next blocks. -/
theorem fileReadLoop_succ (hi : blockStart < 12) (hoff : blockOffset < blockSize sb)
    (hsize : 0 < size) (hread : m = min (blockSize sb - blockOffset) size) :
    fileReadLoop sb disk inode (n + 1) blockStart blockOffset size numRead buffer =
      (fileReadLoop sb disk inode n (blockStart + 1) 0 (size - m) (numRead + m)
        (assign buffer numRead m fun k =>
          fileByte sb disk inode (blockStart * blockSize sb + blockOffset + k))).map
        fun run => { run with requested := blockStart :: run.requested } := by
  have hbytes : assign buffer numRead m
      (fun k => readBlock sb disk (inode.blocks blockStart) (blockOffset + k)) =
      assign buffer numRead m fun k =>
        fileByte sb disk inode (blockStart * blockSize sb + blockOffset + k) := by
    refine assign_congr fun k hk => ?_
    rw [Nat.add_assoc, fileByte_block (by omega)]
  simp only [fileReadLoop, readInodeBlock_of_lt hi, ← hread, hbytes]
  exact if_pos (by omega)

theorem lastBlock_of_le (hsize : 0 < size) (hle : size ≤ blockSize sb - ofs % blockSize sb) :
    lastBlock sb ofs size = ofs / blockSize sb + 1 := by
  have hmod := Nat.div_add_mod' ofs (blockSize sb)
  have hdiv : (ofs + size - 1) / blockSize sb = ofs / blockSize sb := by
    rw [Nat.div_eq_iff (by omega)]
    omega
  rw [lastBlock, if_neg (by omega), hdiv]

/-- The next block starts at the next multiple of the block size. -/
theorem next_block (hpos : 0 < blockSize sb) (ofs : ℕ) :
    (ofs + (blockSize sb - ofs % blockSize sb)) / blockSize sb = ofs / blockSize sb + 1 ∧
      (ofs + (blockSize sb - ofs % blockSize sb)) % blockSize sb = 0 := by
  have hlt := Nat.mod_lt ofs hpos
  have hmod := Nat.div_add_mod' ofs (blockSize sb)
  have hsum : ofs + (blockSize sb - ofs % blockSize sb) =
      (ofs / blockSize sb + 1) * blockSize sb := by
    rw [Nat.add_mul]
    omega
  rw [hsum]
  exact ⟨Nat.mul_div_cancel _ hpos, Nat.mul_mod_left _ _⟩

theorem lastBlock_next (hlt : n < size) :
    lastBlock sb (ofs + n) (size - n) = lastBlock sb ofs size := by
  rw [lastBlock, lastBlock, if_neg (by omega), if_neg (by omega),
    show ofs + n + (size - n) - 1 = ofs + size - 1 by omega]

theorem div_le_lastBlock (sb : Superblock) (ofs size : ℕ) :
    ofs / blockSize sb ≤ lastBlock sb ofs size := by
  unfold lastBlock
  split_ifs with hsize
  · exact Nat.le_refl _
  · exact Nat.le_succ_of_le (Nat.div_le_div_right (by omega))

/-- If the last block that is asked for is a direct one, all bytes are read. -/
theorem fileReadLoop_eq (hpos : 0 < blockSize sb) (hlast : lastBlock sb ofs size < 12)
    (hfuel : size + 1 < fuel) :
    ∃ requested, fileReadLoop sb disk inode fuel (ofs / blockSize sb) (ofs % blockSize sb) size
        numRead buffer = some ⟨requested, some (numRead + size, assign buffer numRead size fun k =>
          fileByte sb disk inode (ofs + k))⟩ ∧
      ∀ block ∈ requested, block ≤ lastBlock sb ofs size := by
  induction fuel generalizing ofs size numRead buffer with
  | zero => omega
  | succ n ih =>
    have hfirst := div_le_lastBlock sb ofs size
    have hi : ofs / blockSize sb < 12 := Nat.lt_of_le_of_lt hfirst hlast
    have hoff := Nat.mod_lt ofs hpos
    rcases Nat.eq_zero_or_pos size with rfl | hsize
    · refine ⟨[ofs / blockSize sb], ?_, fun block hblock => ?_⟩
      · rw [fileReadLoop_zero hi, assign_zero, Nat.add_zero]
      · rwa [List.mem_singleton.1 hblock]
    · rw [fileReadLoop_succ hi hoff hsize rfl, Nat.div_add_mod']
      rcases Nat.lt_or_ge (blockSize sb - ofs % blockSize sb) size with hlt | hge
      · -- the piece ends with the block
        obtain ⟨m, hm⟩ : ∃ m, blockSize sb - ofs % blockSize sb = m := ⟨_, rfl⟩
        obtain ⟨hdiv, hmod⟩ := next_block hpos ofs
        rw [hm] at hlt hdiv hmod ⊢
        rw [Nat.min_eq_left (Nat.le_of_lt hlt), ← hdiv, ← hmod]
        obtain ⟨requested, hrest, hblocks⟩ : ∃ requested,
            fileReadLoop sb disk inode n ((ofs + m) / blockSize sb) ((ofs + m) % blockSize sb)
              (size - m) (numRead + m) (assign buffer numRead m fun k =>
                fileByte sb disk inode (ofs + k)) =
              some ⟨requested, some (numRead + m + (size - m),
                assign (assign buffer numRead m fun k => fileByte sb disk inode (ofs + k))
                  (numRead + m) (size - m) fun k => fileByte sb disk inode (ofs + m + k))⟩ ∧
            ∀ block ∈ requested, block ≤ lastBlock sb (ofs + m) (size - m) :=
          ih (by rw [lastBlock_next hlt]; exact hlast) (by omega)
        rw [lastBlock_next hlt] at hblocks
        refine ⟨_, congrArg (Option.map _) hrest |>.trans ?_, List.forall_mem_cons.2
          ⟨hfirst, hblocks⟩⟩
        rw [Option.map_some, assign_assign, Nat.add_assoc, Nat.add_sub_cancel' (Nat.le_of_lt hlt)]
      · -- the piece ends in the block, and one more block is asked for
        rw [lastBlock_of_le hsize hge] at hlast hfirst ⊢
        obtain ⟨n, rfl⟩ := Nat.exists_eq_succ_of_ne_zero (by omega : n ≠ 0)
        rw [Nat.min_eq_right hge, Nat.sub_self, fileReadLoop_zero hlast]
        refine ⟨_, rfl, ?_⟩
        simp

theorem direct_of_fileReadLoop {requested : List ℕ} {result : ℕ × Mem}
    (h : fileReadLoop sb disk inode (n + 1) blockStart blockOffset size numRead buffer =
      some ⟨requested, some result⟩) : blockStart < 12 := by
  by_contra hge
  rw [fileReadLoop, readInodeBlock_of_ge (Nat.not_lt.1 hge)] at h
  cases h

/-- A read that returns has asked for the last block. -/
theorem lastBlock_mem {requested : List ℕ} {result : ℕ × Mem} (hpos : 0 < blockSize sb)
    (h : fileReadLoop sb disk inode fuel (ofs / blockSize sb) (ofs % blockSize sb) size numRead
      buffer = some ⟨requested, some result⟩) : lastBlock sb ofs size ∈ requested := by
  induction fuel generalizing ofs size numRead buffer requested with
  | zero => cases h
  | succ n ih =>
    have hi := direct_of_fileReadLoop h
    rcases Nat.eq_zero_or_pos size with rfl | hsize
    · rw [fileReadLoop_zero hi, Option.some_inj] at h
      cases h
      exact List.mem_singleton_self _
    · rw [fileReadLoop_succ hi (Nat.mod_lt ofs hpos) hsize rfl] at h
      obtain ⟨⟨rest, result'⟩, hrest, heq⟩ := Option.map_eq_some_iff.1 h
      cases heq
      rcases Nat.lt_or_ge (blockSize sb - ofs % blockSize sb) size with hlt | hge
      · obtain ⟨m, hm⟩ : ∃ m, blockSize sb - ofs % blockSize sb = m := ⟨_, rfl⟩
        obtain ⟨hdiv, hmod⟩ := next_block hpos ofs
        rw [hm] at hlt hdiv hmod hrest
        rw [Nat.min_eq_left (Nat.le_of_lt hlt), ← hdiv, ← hmod] at hrest
        rw [← lastBlock_next hlt]
        exact List.mem_cons_of_mem _ (ih hrest)
      · rw [Nat.min_eq_right hge, Nat.sub_self] at hrest
        cases n with
        | zero => cases hrest
        | succ n =>
          rw [fileReadLoop_zero (direct_of_fileReadLoop hrest), Option.some_inj] at hrest
          cases hrest
          rw [lastBlock_of_le hsize hge]
          exact List.mem_cons_of_mem _ (List.mem_singleton_self _)

theorem le_lastBlock (hpos : 0 < blockSize sb) (hsize : 0 < size) :
    ofs + size ≤ lastBlock sb ofs size * blockSize sb := by
  have hmod := Nat.div_add_mod' (ofs + size - 1) (blockSize sb)
  have hlt := Nat.mod_lt (ofs + size - 1) hpos
  rw [lastBlock, if_neg (by omega), Nat.add_mul]
  omega

/-- `ext2_file_read` reads the bytes of the file exactly if the block behind the one with the last
byte that is asked for starts in front of the end of the file. -/
theorem readsAt_iff (hs : sb.blockSizeShift ≤ 6) (hsize : size < 2 ^ 32)
    (hfile : inode.fileSize ≤ 12 * blockSize sb) :
    ReadsAt sb disk inode ofs size ↔ lastBlock sb ofs size * blockSize sb < inode.fileSize := by
  have hpos := blockSize_pos hs
  constructor
  · intro h
    obtain ⟨fuel, requested, buffer', hread, -, -, hblocks, -⟩ := h fun _ => 0
    exact hblocks _ (lastBlock_mem hpos hread)
  · intro hlast buffer
    have hdirect : lastBlock sb ofs size < 12 :=
      Nat.lt_of_mul_lt_mul_right (Nat.lt_of_lt_of_le hlast hfile)
    have hmin : min size (inode.fileSize - ofs) = size := by
      rcases Nat.eq_zero_or_pos size with rfl | hsize
      · exact Nat.zero_min _
      · have hle : ofs + size ≤ lastBlock sb ofs size * blockSize sb := le_lastBlock hpos hsize
        omega
    obtain ⟨requested, hread, hblocks⟩ : ∃ requested,
        fileReadLoop sb disk inode (size + 2) (ofs / blockSize sb) (ofs % blockSize sb) size 0
          buffer = some ⟨requested, some (0 + size, assign buffer 0 size fun k =>
            fileByte sb disk inode (ofs + k))⟩ ∧
        ∀ block ∈ requested, block ≤ lastBlock sb ofs size :=
      fileReadLoop_eq hpos hdirect (Nat.lt_succ_self (size + 1))
    rw [hmin]
    rw [Nat.zero_add] at hread
    refine ⟨_, requested, _, hread, fun k hk => ?_, fun k hk => ?_, fun block hblock => ?_, ?_⟩
    · rw [assign, if_pos (by omega), Nat.sub_zero]
    · exact if_neg (by omega)
    · exact Nat.lt_of_le_of_lt (Nat.mul_le_mul_right _ (hblocks block hblock)) hlast
    · rintro rfl
      obtain ⟨requested', hinode, -⟩ := readInode_eq hs hsize hfile
      rw [Nat.sub_zero] at hmin
      rw [hinode, hmin]
      simp only [Nat.zero_add]

end Read

/-! ### Two files -/

/-- The inode of a file with 2000 bytes in the blocks 7 and 8. -/
def twoBlocks : Inode := diskOf [(0, [0xa4, 0x81]), (4, [0xd0, 7]), (40, [7, 0, 0, 0, 8])]

theorem readsStart_sample :
    ReadsStart sampleSuperblock sampleDisk twoBlocks (fun _ => 0) 1500 :=
  readsStart (by decide) (by decide) (by decide)

theorem readsAt_sample : ReadsAt sampleSuperblock sampleDisk twoBlocks 100 200 :=
  (readsAt_iff (by decide) (by decide) (by decide)).2 (by decide)

/-- The inode of a file with 5 bytes in the block 7. -/
def fiveBytes : Inode := diskOf [(0, [0xa4, 0x81]), (4, [5]), (40, [7])]

/-- A read of 100 bytes asks for the block behind the file. -/
theorem not_readsAt : ¬ ∀ sb disk inode ofs size, sb.blockSizeShift ≤ 6 → ofs < 2 ^ 32 →
    size < 2 ^ 32 → inode.fileSize ≤ 12 * blockSize sb → ReadsAt sb disk inode ofs size := by
  intro h
  obtain ⟨fuel, requested, buffer', hread, -, -, hblocks, -⟩ := h sampleSuperblock sampleDisk
    fiveBytes 0 100 (by decide) (by decide) (by decide) (by decide) fun _ => 0
  exact absurd (hblocks _ (lastBlock_mem (by decide) hread)) (by decide)

end Ext2

end Kernel

end Bluejay
