import Bluejay.Kernel.Ext2
import Mathlib.Data.List.Forall2

/-!
# Directories

* `dirContains`, `insertIntoDir`, `hardLink` : the functions of `ext2.c`, on the entries that lie
  one behind the other in the blocks of a directory.
* `Chain` : the entries that a block really has.
* `insertInBlock_skip`, `insertInBlock_slot` : the search for a place in such a block.
* `Chain.place`, `chain_place_iff` : the entries afterwards.
-/

namespace Bluejay

namespace Kernel

namespace Ext2

/-! ### Blocks of an inode -/

/-- `ext2_compute_absolute_block`; `none` is its `kpanic`. -/
def computeAbsoluteBlock (block : ℕ) : Option ℕ := if block ≥ 12 then none else some block

/-- `ext2_read_inode_block`. -/
def readInodeBlock (sb : Superblock) (disk : Mem) (inode : Inode) (block : ℕ) : Option Mem := do
  let block ← computeAbsoluteBlock block
  return readBlock sb disk (inode.blocks block)

/-- `ext2_write_inode_block`. -/
def writeInodeBlock (sb : Superblock) (disk : Mem) (dir : Inode) (buffer : Mem) (block : ℕ) :
    Option Mem := do
  let block ← computeAbsoluteBlock block
  return writeBlock sb disk buffer (dir.blocks block)

/-! ### Entries -/

/-- A `struct ext2_dirent`, with its place in the block. -/
structure Dirent where
  offset : ℕ
  inode : ℕ
  recLen : ℕ
  name : List UInt8

/-- The entry at `o`. -/
def direntAt (b : Mem) (o : ℕ) : Dirent where
  offset := o
  inode := b.loadLE o 4
  recLen := b.loadLE (o + 4) 2
  name := (List.range (b (o + 6)).toNat).map fun i => b (o + 8 + i)

/-- `PAD`. -/
def pad (num : ℕ) : ℕ := (num + 3) / 4 * 4

/-- `PAD(name_len + sizeof(struct ext2_dirent))`. -/
def minSize (nameLen : ℕ) : ℕ := pad (nameLen + 8)

/-- `ext2_s_to_ft[mode >> 12]`. -/
def sToFt (mode : ℕ) : ℕ := [0, 5, 3, 0, 2, 0, 4, 0, 1, 0, 7, 0, 6].getD (mode / 2 ^ 12) 0

/-! ### Looking for a name -/

/-- `strncmp` is zero; behind their ends the strings have a zero byte. -/
def strncmp : ℕ → List UInt8 → List UInt8 → Bool
  | 0, _, _ => true
  | n + 1, a, b =>
    a.headD 0 = b.headD 0 && (a.headD 0 = 0 || strncmp n a.tail b.tail)

/-- The inner loop of `ext2_dir_ls` with `ext2_dir_contains_cb`: whether the name was found, if
the loop over the blocks ends here. -/
def containsInBlock (blockSize : ℕ) (name : List UInt8) (buffer : Mem) :
    ℕ → ℕ → Option (Option Bool)
  | 0, _ => none
  | n + 1, o =>
    if o < blockSize then
      let ent := direntAt buffer o
      if ent.inode = 0 then some (some false)
      else if strncmp (min ent.name.length name.length) ent.name name then some (some true)
      else containsInBlock blockSize name buffer n (o + ent.recLen)
    else some none

/-- The loop of `ext2_dir_ls`, for the next `n` blocks. -/
def containsLoop (sb : Superblock) (disk : Mem) (dir : Inode) (name : List UInt8) :
    ℕ → ℕ → Option Bool
  | 0, _ => some false
  | n + 1, i => do
    let buffer ← readInodeBlock sb disk dir i
    match ← containsInBlock (blockSize sb) name buffer (blockSize sb + 1) 0 with
    | some found => some found
    | none => containsLoop sb disk dir name n (i + 1)

/-- `ext2_dir_contains`; `none` if it panics or does not end. -/
def dirContains (sb : Superblock) (disk : Mem) (dir : Inode) (name : List UInt8) : Option Bool :=
  if dir.IsDir then containsLoop sb disk dir name dir.numBlocks 0 else some false

/-! ### Inserting a name -/

/-- The entry `name → inode` at `o`. -/
def writeDirent (b : Mem) (o recLen : ℕ) (name : List UInt8) (inode type : ℕ) : Mem :=
  let b := b.storeLE (o + 4) 2 recLen
  let b := Function.update b (o + 6) (UInt8.ofNat name.length)
  let b := assign b (o + 8) name.length fun i => name.getD i 0
  let b := b.storeLE o 4 inode
  Function.update b (o + 7) (UInt8.ofNat type)

/-- The inner loop of `ext2_insert_into_dir`: the block with the new entry, if it fits. -/
def insertInBlock (blockSize : ℕ) (name : List UInt8) (inode type : ℕ) (buffer : Mem) :
    ℕ → ℕ → Option (Option Mem)
  | 0, _ => none
  | n + 1, o =>
    if o < blockSize then
      let ent := direntAt buffer o
      if ent.inode = 0 then
        some (some (writeDirent buffer o (minSize name.length) name inode type))
      else
        let thisMinSize := minSize ent.name.length
        let availableSize := sub32 ent.recLen thisMinSize
        if availableSize ≥ minSize name.length then
          let buffer := buffer.storeLE (o + 4) 2 thisMinSize
          some (some (writeDirent buffer (o + thisMinSize) availableSize name inode type))
        else insertInBlock blockSize name inode type buffer n (o + ent.recLen)
    else some none

/-- The loop of `ext2_insert_into_dir`, for the next `n` blocks: what is in the buffer at the end,
and the number of the block. -/
def insertLoop (sb : Superblock) (disk : Mem) (dir : Inode) (name : List UInt8)
    (inode type : ℕ) : ℕ → ℕ → Mem → Option (Mem × ℕ)
  | 0, i, buffer => some (buffer, i)
  | n + 1, i, _ => do
    let buffer ← readInodeBlock sb disk dir i
    match ← insertInBlock (blockSize sb) name inode type buffer (blockSize sb + 1) 0 with
    | some buffer => some (buffer, i)
    | none => insertLoop sb disk dir name inode type n (i + 1) buffer

/-- `ext2_insert_into_dir`, which writes the buffer whether it has inserted the name or not; the
buffer was zero before. -/
def insertIntoDir (sb : Superblock) (disk : Mem) (dir : Inode) (name : List UInt8)
    (inode type : ℕ) : Option Mem :=
  let name := name.take 255
  if dir.IsDir then do
    let (buffer, i) ← insertLoop sb disk dir name inode type dir.numBlocks 0 fun _ => 0
    writeInodeBlock sb disk dir buffer i
  else some disk

/-- `ext2_hard_link`, with the disk as it is afterwards; `none` if it panics or does not end. -/
def hardLink (sb : Superblock) (disk : Mem) (dir : Inode) (name : List UInt8) (inode : ℕ) :
    Option (Bool × Mem) := do
  if ← dirContains sb disk dir name then some (false, disk)
  else
    match findInode sb disk inode with
    | none => some (false, disk)
    | some target =>
      if dir.IsDir then
        let target := target.incrementLinks
        let disk := (setInode sb disk inode target).getD disk
        let disk ← insertIntoDir sb disk dir name inode (sToFt target.mode)
        some (true, disk)
      else some (false, disk)

/-! ### The entries of a block -/

/-- An entry as the format has it. -/
structure ValidAt (b : Mem) (o : ℕ) : Prop where
  fits : 8 + (direntAt b o).name.length ≤ (direntAt b o).recLen
  aligned : (direntAt b o).recLen % 4 = 0

/-- The entries `es` lie one behind the other from `o` up to `p`. -/
inductive Chain (b : Mem) : ℕ → List Dirent → ℕ → Prop
  | nil (o : ℕ) : Chain b o [] o
  | cons {o p : ℕ} {es : List Dirent} (h : ValidAt b o)
      (ht : Chain b (o + (direntAt b o).recLen) es p) : Chain b o (direntAt b o :: es) p

/-- The first entry that `ext2_insert_into_dir` takes: it is not used, or has room behind it. -/
def Slot (size : ℕ) (e : Dirent) : Prop := e.inode = 0 ∨ size ≤ e.recLen - minSize e.name.length

instance (size : ℕ) (e : Dirent) : Decidable (Slot size e) := inferInstanceAs (Decidable (_ ∨ _))

/-- The block with the new entry in the place of `e`, or behind it. -/
def place (b : Mem) (e : Dirent) (name : List UInt8) (inode type : ℕ) : Mem :=
  if e.inode = 0 then writeDirent b e.offset (minSize name.length) name inode type
  else writeDirent (b.storeLE (e.offset + 4) 2 (minSize e.name.length))
    (e.offset + minSize e.name.length) (e.recLen - minSize e.name.length) name inode type

section Blocks

variable {b b' : Mem} {o p q n inode type recLen : ℕ} {e : Dirent} {es es' pre post : List Dirent}
  {name : List UInt8}

theorem le_minSize (n : ℕ) : n + 8 ≤ minSize n := by
  unfold minSize pad
  omega

theorem ValidAt.minSize_le (h : ValidAt b o) :
    minSize (direntAt b o).name.length ≤ (direntAt b o).recLen := by
  have := h.fits
  have := h.aligned
  unfold minSize pad
  omega

theorem recLen_lt (b : Mem) (o : ℕ) : (direntAt b o).recLen < 2 ^ 16 := Mem.loadLE_lt b (o + 4) 2

theorem name_length_lt (b : Mem) (o : ℕ) : (direntAt b o).name.length < 256 := by
  simpa [direntAt] using (b (o + 6)).toNat_lt

/-- An entry depends on its header and its name only. -/
theorem direntAt_congr (h : ∀ i, o ≤ i → i < o + 8 + (direntAt b o).name.length → b i = b' i) :
    direntAt b' o = direntAt b o := by
  have hlen : (b (o + 6)).toNat = (direntAt b o).name.length := by simp [direntAt]
  have hsix : b' (o + 6) = b (o + 6) := (h _ (by omega) (by omega)).symm
  have hname : (List.range (b (o + 6)).toNat).map (fun i => b' (o + 8 + i)) =
      (List.range (b (o + 6)).toNat).map fun i => b (o + 8 + i) := by
    refine List.map_congr_left fun i hi => (h _ (by omega) ?_).symm
    rw [List.mem_range] at hi
    omega
  rw [direntAt, direntAt, hsix, hname,
    Mem.loadLE_congr fun i h₁ h₂ => (h i h₁ (by omega)).symm,
    Mem.loadLE_congr fun i h₁ h₂ => (h i (by omega) (by omega)).symm]

theorem Chain.length_le (h : Chain b o es p) : o + 8 * es.length ≤ p := by
  induction h with
  | nil => simp
  | @cons o p es h _ ih =>
    have := h.fits
    rw [List.length_cons]
    omega

theorem Chain.append (h : Chain b o pre q) (h' : Chain b q post p) :
    Chain b o (pre ++ post) p := by
  induction h with
  | nil => exact h'
  | cons h _ ih => exact .cons h (ih h')

theorem Chain.split (h : Chain b o (pre ++ post) p) : ∃ q, Chain b o pre q ∧ Chain b q post p := by
  induction pre generalizing o with
  | nil => exact ⟨o, .nil o, h⟩
  | cons e pre ih =>
    cases h with
    | cons h ht =>
      obtain ⟨q, hq, hp⟩ := ih ht
      exact ⟨q, .cons h hq, hp⟩

theorem Chain.congr (h : Chain b o es p) (hb : ∀ i, o ≤ i → i < p → b i = b' i) :
    Chain b' o es p := by
  induction h with
  | nil => exact .nil _
  | @cons o p es h ht ih =>
    have hp := ht.length_le
    have hfits := h.fits
    have hd : direntAt b' o = direntAt b o :=
      direntAt_congr fun i h₁ h₂ => hb i h₁ (by omega)
    have hv : ValidAt b' o := ⟨hd ▸ h.fits, hd ▸ h.aligned⟩
    rw [← hd]
    refine .cons hv ?_
    rw [hd]
    exact ih fun i h₁ h₂ => hb i (by omega) h₂

/-- Entries that end before others of the same block are the first ones of these. -/
theorem Chain.exists_append (h : Chain b o pre q) (h' : Chain b o es p) (hq : q ≤ p) :
    ∃ post, es = pre ++ post ∧ Chain b q post p := by
  induction h generalizing es with
  | nil => exact ⟨es, rfl, h'⟩
  | @cons o q pre h ht ih =>
    have hlt := ht.length_le
    have hfits := h.fits
    cases h' with
    | nil => omega
    | cons _ ht' =>
      obtain ⟨post, rfl, hpost⟩ := ih ht' hq
      exact ⟨post, rfl, hpost⟩

theorem Chain.unique (h : Chain b o es p) (h' : Chain b o es' p) : es' = es := by
  obtain ⟨post, rfl, hpost⟩ := h.exists_append h' (Nat.le_refl _)
  have hnil := hpost.length_le
  rw [List.eq_nil_of_length_eq_zero (by omega : post.length = 0), List.append_nil]

/-! ### Writing an entry -/

theorem assign_of_out {buffer value : Mem} {offset i : ℕ} (h : i < offset ∨ offset + n ≤ i) :
    assign buffer offset n value i = buffer i := if_neg (by omega)

theorem assign_of_mem {buffer value : Mem} {offset i : ℕ} (h : i < n) :
    assign buffer offset n value (offset + i) = value i := by
  rw [assign, if_pos (by omega), Nat.add_sub_cancel_left]

theorem writeDirent_of_out {i : ℕ} (h : i < o ∨ o + 8 + name.length ≤ i) :
    writeDirent b o recLen name inode type i = b i := by
  simp only [writeDirent]
  rw [Mem.update_of_out (by omega), Mem.storeLE_of_out (by omega), assign_of_out (by omega),
    Mem.update_of_out (by omega), Mem.storeLE_of_out (by omega)]

/-- The entry that was written is there. -/
theorem direntAt_writeDirent (hname : name.length < 256) (hinode : inode < 2 ^ 32)
    (hrec : recLen < 2 ^ 16) :
    direntAt (writeDirent b o recLen name inode type) o = ⟨o, inode, recLen, name⟩ := by
  have hi : (writeDirent b o recLen name inode type).loadLE o 4 = inode := by
    simp only [writeDirent]
    rw [Mem.loadLE_congr fun i h₁ h₂ => Mem.update_of_out (by omega), Mem.loadLE_storeLE]
    exact Nat.mod_eq_of_lt hinode
  have hr : (writeDirent b o recLen name inode type).loadLE (o + 4) 2 = recLen := by
    simp only [writeDirent]
    rw [Mem.loadLE_congr fun i h₁ h₂ => Mem.update_of_out (by omega),
      Mem.loadLE_storeLE_of_disjoint (by omega),
      Mem.loadLE_congr fun i h₁ h₂ => assign_of_out (by omega),
      Mem.loadLE_congr fun i h₁ h₂ => Mem.update_of_out (by omega), Mem.loadLE_storeLE]
    exact Nat.mod_eq_of_lt hrec
  have hl : (writeDirent b o recLen name inode type (o + 6)).toNat = name.length := by
    simp only [writeDirent]
    rw [Mem.update_of_out (by omega), Mem.storeLE_of_out (by omega), assign_of_out (by omega),
      Function.update_self, UInt8.toNat_ofNat', Nat.mod_eq_of_lt hname]
  have hn : ∀ i < name.length, writeDirent b o recLen name inode type (o + 8 + i) =
      name.getD i 0 := by
    intro i hi
    simp only [writeDirent]
    rw [Mem.update_of_out (by omega), Mem.storeLE_of_out (by omega), assign_of_mem hi]
  rw [direntAt, hi, hr, hl]
  congr
  refine List.ext_getElem (by simp) fun i h₁ h₂ => ?_
  rw [List.getElem_map, List.getElem_range, hn i h₂]
  simp [h₂]

theorem direntAt_setRecLen (hrec : recLen < 2 ^ 16) :
    direntAt (b.storeLE (o + 4) 2 recLen) o =
      ⟨o, (direntAt b o).inode, recLen, (direntAt b o).name⟩ := by
  have hsix : b.storeLE (o + 4) 2 recLen (o + 6) = b (o + 6) := Mem.storeLE_of_out (by omega)
  have hname : (fun i => b.storeLE (o + 4) 2 recLen (o + 8 + i)) = fun i => b (o + 8 + i) := by
    funext i
    exact Mem.storeLE_of_out (by omega)
  rw [direntAt, direntAt, hsix, hname, Mem.loadLE_storeLE_of_disjoint (by omega),
    Mem.loadLE_storeLE, show recLen % 256 ^ 2 = recLen from Nat.mod_eq_of_lt hrec]

theorem minSize_lt (hname : name.length < 256) : minSize name.length < 2 ^ 16 := by
  unfold minSize pad
  omega

theorem minSize_mod (n : ℕ) : minSize n % 4 = 0 := Nat.mul_mod_left _ _

/-- In the place of an entry that is not used the new one may be too short, or too long: the
entries after it are whatever lies behind it. -/
theorem chain_place_iff (h : Chain b o (pre ++ e :: post) p) (hno : e.inode = 0)
    (hname : name.length < 256) (hinode : inode < 2 ^ 32) :
    Chain (place b e name inode type) o es p ↔ ∃ rest,
      es = pre ++ ⟨e.offset, inode, minSize name.length, name⟩ :: rest ∧
        Chain b (e.offset + minSize name.length) rest p := by
  obtain ⟨q, hpre, hpost⟩ := h.split
  have hlt := hpost.length_le
  rw [List.length_cons] at hlt
  obtain ⟨-, rfl⟩ : True ∧ e = direntAt b q := by
    cases hpost
    exact ⟨trivial, rfl⟩
  rw [place, if_pos hno, show (direntAt b q).offset = q from rfl]
  have hsize := le_minSize name.length
  have hpre' : Chain (writeDirent b q (minSize name.length) name inode type) o pre q :=
    hpre.congr fun i _ hi => (writeDirent_of_out (.inl hi)).symm
  have hd : direntAt (writeDirent b q (minSize name.length) name inode type) q =
      ⟨q, inode, minSize name.length, name⟩ :=
    direntAt_writeDirent hname hinode (minSize_lt hname)
  have hv : ValidAt (writeDirent b q (minSize name.length) name inode type) q := by
    constructor
    · rw [hd]
      show 8 + name.length ≤ minSize name.length
      omega
    · rw [hd]
      exact minSize_mod _
  constructor
  · intro hes
    obtain ⟨es', rfl, hes'⟩ := hpre'.exists_append hes (by omega)
    cases hes' with
    | nil => omega
    | cons _ hrest =>
      rw [hd] at hrest ⊢
      refine ⟨_, rfl, hrest.congr fun i hi _ => writeDirent_of_out (.inr ?_)⟩
      change q + minSize name.length ≤ i at hi
      omega
  · rintro ⟨rest, rfl, hrest⟩
    refine hpre'.append ?_
    rw [← hd]
    refine .cons hv ?_
    rw [hd]
    exact hrest.congr fun i hi _ => (writeDirent_of_out (.inr (by omega))).symm

/-- Behind an entry with enough room the new one gets all of the room. -/
theorem Chain.place (h : Chain b o (pre ++ e :: post) p) (hused : e.inode ≠ 0)
    (hroom : minSize name.length ≤ e.recLen - minSize e.name.length) (hname : name.length < 256)
    (hinode : inode < 2 ^ 32) :
    Chain (place b e name inode type) o (pre ++ ⟨e.offset, e.inode, minSize e.name.length, e.name⟩ ::
      ⟨e.offset + minSize e.name.length, inode, e.recLen - minSize e.name.length, name⟩ ::
        post) p := by
  obtain ⟨q, hpre, hpost⟩ := h.split
  cases hpost with
  | cons hv hpost =>
    rw [Ext2.place, if_neg hused, show (direntAt b q).offset = q from rfl]
    obtain ⟨t, ht⟩ : ∃ t, minSize (direntAt b q).name.length = t := ⟨_, rfl⟩
    obtain ⟨r, hr⟩ : ∃ r, (direntAt b q).recLen = r := ⟨_, rfl⟩
    have hsize := le_minSize name.length
    have htsize := le_minSize (direntAt b q).name.length
    have htr := hv.minSize_le
    have hrlt := recLen_lt b q
    have htmod := minSize_mod (direntAt b q).name.length
    have hrmod := hv.aligned
    rw [ht] at htsize htr htmod hroom ⊢
    rw [hr] at htr hrlt hrmod hroom hpost ⊢
    obtain ⟨b₁, hb₁⟩ : ∃ b₁, b.storeLE (q + 4) 2 t = b₁ := ⟨_, rfl⟩
    obtain ⟨b₂, hb₂⟩ : ∃ b₂, writeDirent b₁ (q + t) (r - t) name inode type = b₂ := ⟨_, rfl⟩
    rw [hb₁, hb₂]
    have hd₁ : direntAt b₁ q = ⟨q, (direntAt b q).inode, t, (direntAt b q).name⟩ :=
      hb₁ ▸ direntAt_setRecLen (by omega)
    have hd₂ : direntAt b₂ q = ⟨q, (direntAt b q).inode, t, (direntAt b q).name⟩ := by
      rw [← hd₁]
      refine direntAt_congr fun i h₁ h₂ => ?_
      rw [hd₁] at h₂
      exact (hb₂ ▸ writeDirent_of_out (.inl (by simp only at h₂; omega))).symm
    have hnew : direntAt b₂ (q + t) = ⟨q + t, inode, r - t, name⟩ :=
      hb₂ ▸ direntAt_writeDirent hname hinode (by omega)
    -- what is written lies between the header of the old entry and its end
    have hout : ∀ i, i < q ∨ q + r ≤ i → b i = b₂ i := by
      intro i hi
      rw [← hb₂, writeDirent_of_out (by omega), ← hb₁, Mem.storeLE_of_out (by omega)]
    have hold : ValidAt b₂ q := by
      constructor
      · rw [hd₂]
        show 8 + (direntAt b q).name.length ≤ t
        omega
      · rw [hd₂]
        exact htmod
    have hvalid : ValidAt b₂ (q + t) := by
      constructor
      · rw [hnew]
        show 8 + name.length ≤ r - t
        omega
      · rw [hnew]
        show (r - t) % 4 = 0
        omega
    refine (hpre.congr fun i _ hi => hout i (.inl hi)).append ?_
    rw [← hd₂, ← hnew]
    refine .cons hold ?_
    rw [hd₂]
    refine .cons hvalid ?_
    rw [hnew]
    show Chain b₂ (q + t + (r - t)) post p
    rw [Nat.add_assoc, Nat.add_sub_cancel' htr]
    exact hpost.congr fun i hi _ => hout i (.inr hi)

/-! ### The search -/

theorem availableSize_eq (h : ValidAt b o) :
    sub32 (direntAt b o).recLen (minSize (direntAt b o).name.length) =
      (direntAt b o).recLen - minSize (direntAt b o).name.length :=
  sub32_of_le h.minSize_le (Nat.lt_trans (recLen_lt b o) (by decide))

/-- A block without a place for the entry is left behind. -/
theorem insertInBlock_skip (h : Chain b o es p) (hes : ∀ e ∈ es, ¬ Slot (minSize name.length) e)
    (hn : es.length < n) : insertInBlock p name inode type b n o = some none := by
  induction h generalizing n with
  | nil o =>
    obtain ⟨n, rfl⟩ := Nat.exists_eq_succ_of_ne_zero (Nat.ne_zero_of_lt hn)
    rw [insertInBlock, if_neg (Nat.lt_irrefl _)]
  | @cons o p es h ht ih =>
    obtain ⟨n, rfl⟩ := Nat.exists_eq_succ_of_ne_zero (Nat.ne_zero_of_lt hn)
    obtain ⟨hno, hes⟩ := List.forall_mem_cons.1 hes
    simp only [Slot, not_or] at hno
    have hlt := (Chain.cons h ht).length_le
    rw [List.length_cons] at hlt hn
    rw [insertInBlock, if_pos (by omega)]
    simp only [availableSize_eq h]
    rw [if_neg hno.1, if_neg hno.2, ih hes (by omega)]

/-- The entry goes to the first place. -/
theorem insertInBlock_slot (h : Chain b o (pre ++ e :: post) p)
    (hpre : ∀ e ∈ pre, ¬ Slot (minSize name.length) e) (he : Slot (minSize name.length) e)
    (hn : pre.length < n) :
    insertInBlock p name inode type b n o = some (some (place b e name inode type)) := by
  induction pre generalizing o n with
  | nil =>
    obtain ⟨n, rfl⟩ := Nat.exists_eq_succ_of_ne_zero (Nat.ne_zero_of_lt hn)
    have hlt := h.length_le
    rw [List.nil_append, List.length_cons] at hlt
    cases h with
    | cons hv ht =>
      rw [insertInBlock, if_pos (by omega), place]
      simp only [availableSize_eq hv]
      split_ifs with h₀ h₁
      · rfl
      · rfl
      · exact absurd he (not_or.2 ⟨h₀, h₁⟩)
  | cons e' pre ih =>
    obtain ⟨n, rfl⟩ := Nat.exists_eq_succ_of_ne_zero (Nat.ne_zero_of_lt hn)
    obtain ⟨hno, hrest⟩ := List.forall_mem_cons.1 hpre
    simp only [Slot, not_or] at hno
    have hlt := h.length_le
    rw [List.cons_append, List.length_cons] at hlt
    rw [List.length_cons] at hn
    cases h with
    | cons hv ht =>
      rw [insertInBlock, if_pos (by omega)]
      simp only [availableSize_eq hv]
      rw [if_neg hno.1, if_neg hno.2, ih ht hrest (by omega)]

end Blocks

end Ext2

end Kernel

end Bluejay
