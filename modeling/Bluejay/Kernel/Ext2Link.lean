import Bluejay.Kernel.Ext2Dir
import Bluejay.Lib.Search
import Mathlib.Data.List.Induction
import Mathlib.Data.List.Nodup
import Mathlib.Data.List.Perm.Basic

/-!
# Hard links

* `Atomic` : a call of `ext2_hard_link` does all of its work, or nothing.
* `CanLink` : the name, the target and the first place that the search finds are as they must be
  for the link to be made.
* `atomic_iff` : the call is atomic exactly if it stops before it writes, or `CanLink`.
-/

namespace Bluejay

namespace Kernel

namespace Ext2

/-- The names in a block, with their inodes. -/
def used (es : List Dirent) : List (List UInt8 × ℕ) :=
  (es.filter fun e => e.inode ≠ 0).map fun e => (e.name, e.inode)

/-- The blocks of a directory have these entries. -/
def BlockEntries (sb : Superblock) (disk : Mem) (blocks : List ℕ) (rss : List (List Dirent)) :
    Prop :=
  List.Forall₂ (fun b es => Chain (readBlock sb disk b) 0 es (blockSize sb)) blocks rss

/-- The inode of a directory with the blocks `blocks`, which have the entries `rss`. -/
structure Directory (sb : Superblock) (disk : Mem) (dir : Inode) (blocks : List ℕ)
    (rss : List (List Dirent)) : Prop where
  fileSize : dir.fileSize = blocks.length * blockSize sb
  /-- Blocks of 512 bytes, among them those with the numbers of blocks. -/
  numBlocks : blockSize sb / 512 * blocks.length ≤ dir.numBlocks
  direct : ∀ i < 12, dir.blocks i = blocks.getD i 0
  data : ∀ b ∈ blocks, b < sb.totalBlocks ∧ ¬ Metadata sb disk b
  nodup : blocks.Nodup
  entries : BlockEntries sb disk blocks rss

/-- There is room for an entry of the given size, in or behind some other one. -/
def Room (size : ℕ) (rss : List (List Dirent)) : Prop :=
  ∃ es ∈ rss, ∃ e ∈ es, if e.inode = 0 then size ≤ e.recLen
    else size ≤ e.recLen - minSize e.name.length

instance (size : ℕ) (rss : List (List Dirent)) : Decidable (Room size rss) :=
  inferInstanceAs (Decidable (∃ es ∈ rss, ∃ e ∈ es, if e.inode = 0 then size ≤ e.recLen
    else size ≤ e.recLen - minSize e.name.length))

/-- The name cannot be linked to the inode. -/
def Cannot (sb : Superblock) (disk : Mem) (dir : Inode) (rss : List (List Dirent))
    (name : List UInt8) (inode : ℕ) : Prop :=
  (∃ i, (name, i) ∈ rss.flatMap used) ∨ ¬ dir.IsDir ∨ ¬ InodeExists sb disk inode ∨
    ¬ Room (minSize name.length) rss

/-- The directory has its old entries and the new one, and the target has one more link. -/
def Linked (sb : Superblock) (disk disk' : Mem) (blocks : List ℕ) (rss : List (List Dirent))
    (name : List UInt8) (inode : ℕ) : Prop :=
  (∃ rss', BlockEntries sb disk' blocks rss' ∧
    (rss'.flatMap used).Perm ((name, inode) :: rss.flatMap used)) ∧
  (findInode sb disk' inode).map Inode.linksCount =
    (findInode sb disk inode).map fun i => i.linksCount + 1

/-- The call returns; if it returns `true` the name is linked, and if it cannot be, it returns
`false` and the whole disk is as before. -/
def Atomic (sb : Superblock) (disk : Mem) (dir : Inode) (blocks : List ℕ)
    (rss : List (List Dirent)) (name : List UInt8) (inode : ℕ) : Prop :=
  ∃ r disk', hardLink sb disk dir name inode = some (r, disk') ∧
    (r = true → Linked sb disk disk' blocks rss name inode) ∧
    (Cannot sb disk dir rss name inode → r = false ∧ disk' = disk)

/-- The first entry that is not used or has enough room behind it is one of the first twelve
blocks; if it is not used, what lies behind the new entry is read as the entries behind the old
one. -/
def FirstSlot (sb : Superblock) (disk : Mem) (blocks : List ℕ) (rss : List (List Dirent))
    (size : ℕ) : Prop :=
  ∃ rss₁ pre e post rss₂, rss = rss₁ ++ (pre ++ e :: post) :: rss₂ ∧
    (∀ es ∈ rss₁, ∀ e ∈ es, ¬ Slot size e) ∧ (∀ e ∈ pre, ¬ Slot size e) ∧ Slot size e ∧
    rss₁.length < 12 ∧
    (e.inode = 0 → ∃ rest, Chain (readBlock sb disk (blocks.getD rss₁.length 0))
      (e.offset + size) rest (blockSize sb) ∧ (used rest).Perm (used post))

/-- The name is new and short enough, the target is there and has not the most links that can be
counted, and there is a place for the entry. -/
structure CanLink (sb : Superblock) (disk : Mem) (blocks : List ℕ) (rss : List (List Dirent))
    (name : List UInt8) (inode : ℕ) : Prop where
  new : ∀ i, (name, i) ∉ rss.flatMap used
  short : name.length ≤ 255
  target : InodeExists sb disk inode
  links : ∀ target ∈ findInode sb disk inode, target.linksCount < 2 ^ 16 - 1
  room : Room (minSize name.length) rss
  slot : FirstSlot sb disk blocks rss (minSize name.length)

section Links

variable {sb : Superblock} {disk disk' : Mem} {dir : Inode} {blocks bs₁ bs₂ : List ℕ} {b : ℕ}
  {rss rss' rss₁ rss₂ : List (List Dirent)} {pre post es : List Dirent} {e : Dirent}
  {name : List UInt8} {inode type n i size : ℕ} {buffer : Mem}

theorem used_append : used (pre ++ post) = used pre ++ used post := by
  simp [used]

theorem used_cons (h : e.inode ≠ 0) : used (e :: post) = (e.name, e.inode) :: used post := by
  simp [used, h]

theorem used_mk {offset recLen : ℕ} (h : inode ≠ 0) :
    used (⟨offset, inode, recLen, name⟩ :: post) = (name, inode) :: used post := used_cons h

theorem used_cons_of_unused (h : e.inode = 0) : used (e :: post) = used post := by
  simp [used, h]

theorem BlockEntries.congr (h : BlockEntries sb disk blocks rss)
    (hdisk : ∀ b ∈ blocks, readBlock sb disk' b = readBlock sb disk b) :
    BlockEntries sb disk' blocks rss := by
  induction h with
  | nil => exact .nil
  | cons hc _ ih =>
    obtain ⟨hb, hrest⟩ := List.forall_mem_cons.1 hdisk
    exact .cons (hb ▸ hc) (ih hrest)

theorem BlockEntries.unique (h : BlockEntries sb disk blocks rss)
    (h' : BlockEntries sb disk blocks rss') : rss' = rss := by
  induction h generalizing rss' with
  | nil => exact List.forall₂_nil_left_iff.1 h'
  | cons hc _ ih =>
    obtain ⟨es', rss', hc', hrest, rfl⟩ := List.forall₂_cons_left_iff.1 h'
    rw [hc.unique hc', ih hrest]

theorem BlockEntries.split (h : BlockEntries sb disk blocks (rss₁ ++ es :: rss₂)) :
    ∃ bs₁ b bs₂, blocks = bs₁ ++ b :: bs₂ ∧ BlockEntries sb disk bs₁ rss₁ ∧
      Chain (readBlock sb disk b) 0 es (blockSize sb) ∧ BlockEntries sb disk bs₂ rss₂ := by
  induction rss₁ generalizing blocks with
  | nil =>
    obtain ⟨b, bs, hc, hrest, rfl⟩ := List.forall₂_cons_right_iff.1 h
    exact ⟨[], b, bs, rfl, .nil, hc, hrest⟩
  | cons es' rss₁ ih =>
    obtain ⟨b', bs, hc', hrest, rfl⟩ := List.forall₂_cons_right_iff.1 h
    obtain ⟨bs₁, b, bs₂, rfl, h₁, hc, h₂⟩ := ih hrest
    exact ⟨b' :: bs₁, b, bs₂, rfl, .cons hc' h₁, hc, h₂⟩

theorem BlockEntries.split_blocks (h : BlockEntries sb disk (bs₁ ++ b :: bs₂) rss) :
    ∃ rss₁ es rss₂, rss = rss₁ ++ es :: rss₂ ∧ BlockEntries sb disk bs₁ rss₁ ∧
      Chain (readBlock sb disk b) 0 es (blockSize sb) ∧ BlockEntries sb disk bs₂ rss₂ := by
  induction bs₁ generalizing rss with
  | nil =>
    obtain ⟨es, rss₂, hc, hrest, rfl⟩ := List.forall₂_cons_left_iff.1 h
    exact ⟨[], es, rss₂, rfl, .nil, hc, hrest⟩
  | cons b' bs₁ ih =>
    obtain ⟨es', rss', hc', hrest, rfl⟩ := List.forall₂_cons_left_iff.1 h
    obtain ⟨rss₁, es, rss₂, rfl, h₁, hc, h₂⟩ := ih hrest
    exact ⟨es' :: rss₁, es, rss₂, rfl, .cons hc' h₁, hc, h₂⟩

/-- If only one block is written, only its entries change. -/
theorem blockEntries_iff (h₁ : BlockEntries sb disk bs₁ rss₁) (h₂ : BlockEntries sb disk bs₂ rss₂)
    (hdisk : ∀ b' ∈ bs₁ ++ bs₂, readBlock sb disk' b' = readBlock sb disk b') :
    BlockEntries sb disk' (bs₁ ++ b :: bs₂) rss' ↔
      ∃ es, rss' = rss₁ ++ es :: rss₂ ∧ Chain (readBlock sb disk' b) 0 es (blockSize sb) := by
  obtain ⟨hd₁, hd₂⟩ := List.forall_mem_append.1 hdisk
  have h₁' := h₁.congr hd₁
  have h₂' := h₂.congr hd₂
  constructor
  · intro h
    obtain ⟨r₁, es, r₂, rfl, hr₁, hc, hr₂⟩ := h.split_blocks
    exact ⟨es, by rw [h₁'.unique hr₁, h₂'.unique hr₂], hc⟩
  · rintro ⟨es, rfl, hc⟩
    exact List.rel_append h₁' (.cons hc h₂')

/-- The first entry of a directory that is taken. -/
theorem Room.exists_slot (h : Room size rss) : ∃ rss₁ pre e post rss₂,
    rss = rss₁ ++ (pre ++ e :: post) :: rss₂ ∧ (∀ es ∈ rss₁, ∀ e ∈ es, ¬ Slot size e) ∧
      (∀ e ∈ pre, ¬ Slot size e) ∧ Slot size e := by
  classical
  obtain ⟨es, hes, e, he, hroom⟩ := h
  have hslot : Slot size e := by
    split_ifs at hroom with h₀
    · exact .inl h₀
    · exact .inr hroom
  obtain ⟨rss₁, es₁, rss₂, rfl, ⟨e₁, he₁, hs₁⟩, hrss₁⟩ :
      ∃ rss₁ es rss₂, rss = rss₁ ++ es :: rss₂ ∧ (∃ e ∈ es, Slot size e) ∧
        ∀ es ∈ rss₁, ¬ ∃ e ∈ es, Slot size e :=
    exists_first ⟨es, hes, e, he, hslot⟩
  obtain ⟨pre, e₂, post, rfl, hs₂, hpre⟩ := exists_first ⟨e₁, he₁, hs₁⟩
  refine ⟨rss₁, pre, e₂, post, rss₂, rfl, ?_, hpre, hs₂⟩
  intro es hes e he hs
  exact hrss₁ es hes ⟨e, he, hs⟩

/-! ### The search through the blocks -/

theorem readInodeBlock_eq (hd : Directory sb disk dir (bs₁ ++ b :: bs₂) rss)
    (hlt : bs₁.length < 12) (hdisk : readBlock sb disk' b = readBlock sb disk b) :
    readInodeBlock sb disk' dir bs₁.length = some (readBlock sb disk b) := by
  simp [readInodeBlock, computeAbsoluteBlock, Nat.not_le.2 hlt, hd.direct _ hlt, hdisk,
    List.getD_eq_getElem?_getD]

/-- Blocks without a place for the entry are left behind. -/
theorem insertLoop_skip (inode type n : ℕ) (buffer : Mem)
    (hd : Directory sb disk dir (bs₁ ++ bs₂) rss)
    (h : BlockEntries sb disk bs₁ rss₁)
    (hes : ∀ es ∈ rss₁, ∀ e ∈ es, ¬ Slot (minSize name.length) e) (hlen : bs₁.length ≤ 12)
    (hdisk : ∀ b ∈ bs₁, readBlock sb disk' b = readBlock sb disk b) :
    ∃ buffer', insertLoop sb disk' dir name inode type (bs₁.length + n) 0 buffer =
      insertLoop sb disk' dir name inode type n bs₁.length buffer' := by
  induction bs₁ using List.reverseRecOn generalizing rss₁ bs₂ n with
  | nil => exact ⟨buffer, by simp⟩
  | append_singleton bs₁ b ih =>
    obtain ⟨rss₁, es, rss₂, rfl, h₁, hc, h₂⟩ := h.split_blocks
    obtain rfl := List.forall₂_nil_left_iff.1 h₂
    rw [List.length_append, List.length_singleton] at hlen
    obtain ⟨hdisk₁, hdisk₂⟩ := List.forall_mem_append.1 hdisk
    obtain ⟨hes₁, hes₂⟩ := List.forall_mem_append.1 hes
    rw [List.append_assoc, List.singleton_append] at hd
    obtain ⟨buffer', hih⟩ := ih (n + 1) hd h₁ hes₁ (by omega) hdisk₁
    refine ⟨readBlock sb disk b, ?_⟩
    have hlt := hc.length_le
    rw [List.length_append, List.length_singleton, Nat.add_assoc, Nat.add_comm 1, hih, insertLoop,
      readInodeBlock_eq hd (by omega) (hdisk₂ b List.mem_cons_self)]
    simp only [Option.bind_eq_bind, Option.bind_some]
    rw [insertInBlock_skip hc (List.forall_mem_singleton.1 hes₂) (by omega)]
    rfl

/-- The entry goes to the first place, if it is in one of the first twelve blocks. -/
theorem insertLoop_slot (hd : Directory sb disk dir (bs₁ ++ b :: bs₂) rss)
    (h : BlockEntries sb disk bs₁ rss₁)
    (hc : Chain (readBlock sb disk b) 0 (pre ++ e :: post) (blockSize sb))
    (hes : ∀ es ∈ rss₁, ∀ e ∈ es, ¬ Slot (minSize name.length) e)
    (hpre : ∀ e ∈ pre, ¬ Slot (minSize name.length) e) (he : Slot (minSize name.length) e)
    (hlen : bs₁.length < 12)
    (hdisk : ∀ b' ∈ bs₁ ++ b :: bs₂, readBlock sb disk' b' = readBlock sb disk b') :
    insertLoop sb disk' dir name inode type (bs₁.length + (n + 1)) 0 buffer =
      some (place (readBlock sb disk b) e name inode type, bs₁.length) := by
  obtain ⟨hdisk₁, hdisk₂⟩ := List.forall_mem_append.1 hdisk
  obtain ⟨buffer', hskip⟩ :=
    insertLoop_skip inode type (n + 1) buffer hd h hes (Nat.le_of_lt hlen) hdisk₁
  have hlt := hc.length_le
  rw [List.length_append, List.length_cons] at hlt
  rw [hskip, insertLoop, readInodeBlock_eq hd hlen (hdisk₂ b List.mem_cons_self)]
  simp only [Option.bind_eq_bind, Option.bind_some]
  rw [insertInBlock_slot hc hpre he (by omega)]
  rfl

/-- If there is no place in the first twelve blocks, the search ends in the panic. -/
theorem insertLoop_panic (hd : Directory sb disk dir (bs₁ ++ bs₂) rss)
    (h : BlockEntries sb disk bs₁ rss₁)
    (hes : ∀ es ∈ rss₁, ∀ e ∈ es, ¬ Slot (minSize name.length) e) (hlen : bs₁.length = 12)
    (hdisk : ∀ b ∈ bs₁, readBlock sb disk' b = readBlock sb disk b) :
    insertLoop sb disk' dir name inode type (12 + (n + 1)) 0 buffer = none := by
  obtain ⟨buffer', hskip⟩ :=
    insertLoop_skip inode type (n + 1) buffer hd h hes (Nat.le_of_eq hlen) hdisk
  rw [hlen] at hskip
  rw [hskip, insertLoop]
  rfl

/-! ### The whole call -/

theorem linksCount_structAt (inode : Inode) :
    Inode.linksCount (structAt inode 0 inodeSize) = inode.linksCount := by
  refine Mem.loadLE_congr fun i h₁ h₂ => ?_
  rw [structAt, if_pos (by unfold inodeSize; omega), Nat.zero_add]

theorem linksCount_incrementLinks (inode : Inode) :
    inode.incrementLinks.linksCount = (inode.linksCount + 1) % 2 ^ 16 :=
  Mem.loadLE_storeLE _ _ 2 _

/-- The call after it has found out that the name is new. -/
theorem hardLink_eq (hnew : dirContains sb disk dir name = some false) (hdir : dir.IsDir)
    (hinode : inode ≠ 0) : ∃ target disk₁, findInode sb disk inode = some target ∧
      setInode sb disk inode target.incrementLinks = some disk₁ ∧
      hardLink sb disk dir name inode =
        (insertIntoDir sb disk₁ dir name inode (sToFt target.incrementLinks.mode)).map
          fun disk₂ => (true, disk₂) := by
  obtain ⟨target, ht⟩ : ∃ target, findInode sb disk inode = some target := by
    rw [findInode, if_neg hinode]
    exact ⟨_, rfl⟩
  obtain ⟨disk₁, hd₁⟩ : ∃ disk₁, setInode sb disk inode target.incrementLinks = some disk₁ := by
    rw [setInode, if_neg hinode]
    exact ⟨_, rfl⟩
  refine ⟨target, disk₁, ht, hd₁, ?_⟩
  simp only [hardLink, hnew, ht, hdir, hd₁, Option.bind_eq_bind, Option.bind_some, if_true,
    Option.getD_some, Bool.false_eq_true, if_false]
  cases insertIntoDir sb disk₁ dir name inode (sToFt target.incrementLinks.mode) <;> rfl

/-- There are more sectors than blocks, so the search gets to every block. -/
theorem Directory.le_numBlocks (hd : Directory sb disk dir blocks rss) (h : WellFormed sb disk) :
    2 * blocks.length ≤ dir.numBlocks := by
  obtain ⟨k, hk, h2, -⟩ := exists_blockSize h.shift
  have hsectors := hd.numBlocks
  rw [hk, Nat.mul_div_cancel_left _ (by decide)] at hsectors
  exact Nat.le_trans (Nat.mul_le_mul_right _ h2) hsectors

/-- The first place is not in the first twelve blocks. -/
theorem insertIntoDir_panic (inode type : ℕ) (h : WellFormed sb disk)
    (hd : Directory sb disk dir (bs₁ ++ bs₂) rss) (hdir : dir.IsDir) (hname : name.length ≤ 255)
    (h₁ : BlockEntries sb disk bs₁ rss₁)
    (hes : ∀ es ∈ rss₁, ∀ e ∈ es, ¬ Slot (minSize name.length) e) (hlen : bs₁.length = 12)
    (hrest : bs₂ ≠ []) (hdisk : ∀ b ∈ bs₁, readBlock sb disk' b = readBlock sb disk b) :
    insertIntoDir sb disk' dir name inode type = none := by
  have hblocks := hd.le_numBlocks h
  have hpos := List.length_pos_of_ne_nil hrest
  rw [List.length_append, hlen] at hblocks
  obtain ⟨n, hn⟩ := Nat.exists_eq_add_of_le (by omega : 12 + 1 ≤ dir.numBlocks)
  rw [insertIntoDir, if_pos hdir, List.take_of_length_le hname, hn, Nat.add_assoc, Nat.add_comm 1,
    insertLoop_panic hd h₁ hes hlen hdisk]
  rfl

/-- The first place is in the block `b`, one of the first twelve. -/
theorem insertIntoDir_slot (inode type : ℕ) (h : WellFormed sb disk)
    (hd : Directory sb disk dir (bs₁ ++ b :: bs₂) rss) (hdir : dir.IsDir)
    (hname : name.length ≤ 255) (h₁ : BlockEntries sb disk bs₁ rss₁)
    (hc : Chain (readBlock sb disk b) 0 (pre ++ e :: post) (blockSize sb))
    (hes : ∀ es ∈ rss₁, ∀ e ∈ es, ¬ Slot (minSize name.length) e)
    (hpre : ∀ e ∈ pre, ¬ Slot (minSize name.length) e) (he : Slot (minSize name.length) e)
    (hlen : bs₁.length < 12)
    (hdisk : ∀ b' ∈ bs₁ ++ b :: bs₂, readBlock sb disk' b' = readBlock sb disk b') :
    insertIntoDir sb disk' dir name inode type =
      some (writeBlock sb disk' (place (readBlock sb disk b) e name inode type) b) := by
  have hblocks := hd.le_numBlocks h
  rw [List.length_append, List.length_cons] at hblocks
  obtain ⟨n, hn⟩ := Nat.exists_eq_add_of_le (by omega : bs₁.length + 1 ≤ dir.numBlocks)
  have hwrite : writeInodeBlock sb disk' dir (place (readBlock sb disk b) e name inode type)
      bs₁.length = some (writeBlock sb disk' (place (readBlock sb disk b) e name inode type) b) := by
    simp [writeInodeBlock, computeAbsoluteBlock, Nat.not_le.2 hlen, hd.direct _ hlen,
      List.getD_eq_getElem?_getD]
  rw [insertIntoDir, if_pos hdir, List.take_of_length_le hname, hn, Nat.add_assoc,
    Nat.add_comm 1, insertLoop_slot hd h₁ hc hes hpre he hlen hdisk]
  simp only [Option.bind_eq_bind, Option.bind_some]
  exact hwrite

/-- A write of the block `b` does not change the other ones. -/
theorem Directory.readBlock_writeBlock_of_mem (hgeo : Geometry sb)
    (hd : Directory sb disk dir (bs₁ ++ b :: bs₂) rss) (buffer : Mem) {b' : ℕ}
    (hb' : b' ∈ bs₁ ++ bs₂) :
    readBlock sb (writeBlock sb disk' buffer b) b' = readBlock sb disk' b' := by
  obtain ⟨hb, -⟩ := hd.data b (by simp)
  have hne : b' ≠ b := by
    have hnodup := hd.nodup
    rw [List.nodup_middle, List.nodup_cons] at hnodup
    rintro rfl
    exact hnodup.1 hb'
  obtain ⟨hlt, -⟩ := hd.data b' (List.perm_middle.mem_iff.2 (List.mem_cons_of_mem b hb'))
  exact hgeo.readBlock_writeBlock_of_ne hlt hb hne

/-- The entries after a write of the block `b`. -/
theorem Directory.entries_writeBlock (hgeo : Geometry sb)
    (hd : Directory sb disk dir (bs₁ ++ b :: bs₂) rss) (h₁ : BlockEntries sb disk bs₁ rss₁)
    (h₂ : BlockEntries sb disk bs₂ rss₂)
    (hdisk : ∀ b' ∈ bs₁ ++ b :: bs₂, readBlock sb disk' b' = readBlock sb disk b')
    (buffer : Mem) :
    BlockEntries sb (writeBlock sb disk' buffer b) (bs₁ ++ b :: bs₂) rss' ↔
      ∃ es, rss' = rss₁ ++ es :: rss₂ ∧ Chain buffer 0 es (blockSize sb) := by
  obtain ⟨hb, -⟩ := hd.data b (by simp)
  have hsame : ∀ i < blockSize sb, buffer i = structAt buffer 0 (blockSize sb) i := by
    intro i hi
    rw [structAt, if_pos hi, Nat.zero_add]
  rw [blockEntries_iff h₁ h₂, hgeo.readBlock_writeBlock hb]
  · refine exists_congr fun es => and_congr_right fun _ => ?_
    exact ⟨fun hc => hc.congr fun i _ hi => (hsame i hi).symm,
      fun hc => hc.congr fun i _ hi => hsame i hi⟩
  · intro b' hb'
    rw [hd.readBlock_writeBlock_of_mem hgeo buffer hb']
    exact hdisk b' (List.perm_middle.mem_iff.2 (List.mem_cons_of_mem b hb'))

theorem hardLink_panic (h : WellFormed sb disk) (hd : Directory sb disk dir (bs₁ ++ bs₂) rss)
    (hx : InodeExists sb disk inode) (hnew : dirContains sb disk dir name = some false)
    (hdir : dir.IsDir) (hname : name.length ≤ 255) (h₁ : BlockEntries sb disk bs₁ rss₁)
    (hes : ∀ es ∈ rss₁, ∀ e ∈ es, ¬ Slot (minSize name.length) e) (hlen : bs₁.length = 12)
    (hrest : bs₂ ≠ []) : hardLink sb disk dir name inode = none := by
  obtain ⟨target, disk₁, ht, hd₁, hlink⟩ := hardLink_eq hnew hdir (Nat.ne_of_gt hx.1)
  obtain ⟨disk₁', hd₁', -, -, hdata⟩ := h.setInode_spec hx target.incrementLinks
  obtain rfl := Option.some_inj.1 (hd₁.symm.trans hd₁')
  have hdisk : ∀ b ∈ bs₁, readBlock sb disk₁ b = readBlock sb disk b := by
    intro b hb
    obtain ⟨hlt, hmeta⟩ := hd.data b (List.mem_append_left _ hb)
    exact hdata b hlt hmeta
  rw [hlink, insertIntoDir_panic inode _ h hd hdir hname h₁ hes hlen hrest hdisk]
  rfl

/-- What is on the disk if the first place is in the block `b`, one of the first twelve. -/
theorem hardLink_slot (h : WellFormed sb disk) (hd : Directory sb disk dir (bs₁ ++ b :: bs₂) rss)
    (hx : InodeExists sb disk inode) (hnew : dirContains sb disk dir name = some false)
    (hdir : dir.IsDir) (hname : name.length ≤ 255) (h₁ : BlockEntries sb disk bs₁ rss₁)
    (hc : Chain (readBlock sb disk b) 0 (pre ++ e :: post) (blockSize sb))
    (h₂ : BlockEntries sb disk bs₂ rss₂)
    (hes : ∀ es ∈ rss₁, ∀ e ∈ es, ¬ Slot (minSize name.length) e)
    (hpre : ∀ e ∈ pre, ¬ Slot (minSize name.length) e) (he : Slot (minSize name.length) e)
    (hlen : bs₁.length < 12) : ∃ type disk₂, hardLink sb disk dir name inode = some (true, disk₂) ∧
      (findInode sb disk₂ inode).map Inode.linksCount =
        (findInode sb disk inode).map (fun i => (i.linksCount + 1) % 2 ^ 16) ∧
      ∀ rss', BlockEntries sb disk₂ (bs₁ ++ b :: bs₂) rss' ↔ ∃ es, rss' = rss₁ ++ es :: rss₂ ∧
        Chain (place (readBlock sb disk b) e name inode type) 0 es (blockSize sb) := by
  obtain ⟨target, disk₁, ht, hd₁, hlink⟩ := hardLink_eq hnew hdir (Nat.ne_of_gt hx.1)
  obtain ⟨disk₁', hd₁', hfind, hbgd, hdata⟩ := h.setInode_spec hx target.incrementLinks
  obtain rfl := Option.some_inj.1 (hd₁.symm.trans hd₁')
  have hdisk : ∀ b' ∈ bs₁ ++ b :: bs₂, readBlock sb disk₁ b' = readBlock sb disk b' := by
    intro b' hb
    obtain ⟨hlt, hmeta⟩ := hd.data b' hb
    exact hdata b' hlt hmeta
  obtain ⟨hb, hmeta⟩ := hd.data b (by simp)
  refine ⟨sToFt target.incrementLinks.mode, writeBlock sb disk₁ (place (readBlock sb disk b) e name
    inode (sToFt target.incrementLinks.mode)) b, ?_, ?_, fun rss' => ?_⟩
  · rw [hlink, insertIntoDir_slot inode _ h hd hdir hname h₁ hc hes hpre he hlen hdisk]
    rfl
  · rw [h.findInode_writeBlock hx hbgd hb hmeta, hfind, ht]
    simp only [Option.map_some, linksCount_structAt, linksCount_incrementLinks]
  · exact hd.entries_writeBlock (h.geometry (h.inodeBlock_spec hx).1) h₁ h₂ hdisk _

theorem hardLink_true {r : Bool} (hnew : dirContains sb disk dir name = some false)
    (hdir : dir.IsDir) (hinode : inode ≠ 0)
    (h : hardLink sb disk dir name inode = some (r, disk')) : r = true := by
  obtain ⟨target, disk₁, -, -, hlink⟩ := hardLink_eq hnew hdir hinode
  rw [hlink] at h
  obtain ⟨disk₂, -, heq⟩ := Option.map_eq_some_iff.1 h
  exact (congrArg Prod.fst heq).symm

theorem Chain.name_lt {o p : ℕ} (h : Chain buffer o es p) (he : e ∈ es) : e.name.length < 256 := by
  induction h with
  | nil => cases he
  | cons _ _ ih =>
    rcases List.mem_cons.1 he with rfl | he
    · exact name_length_lt _ _
    · exact ih he

/-- The entries of blocks have no longer names. -/
theorem BlockEntries.length_lt (h : BlockEntries sb disk blocks rss)
    (hmem : (name, inode) ∈ rss.flatMap used) : name.length < 256 := by
  obtain ⟨es, hes, hin⟩ := List.mem_flatMap.1 hmem
  obtain ⟨rss₁, rss₂, rfl⟩ := List.append_of_mem hes
  obtain ⟨-, b, -, -, -, hc, -⟩ := h.split
  obtain ⟨e, he, heq⟩ := List.mem_map.1 hin
  obtain rfl : e.name = name := congrArg Prod.fst heq
  exact hc.name_lt (List.mem_filter.1 he).1

/-- A list with one more member in the middle. -/
theorem perm_insert_iff {α : Type} (x : α) (l₁ l₂ l₃ : List α) {r q : List α} :
    (l₁ ++ (l₂ ++ x :: r) ++ l₃).Perm (x :: (l₁ ++ (l₂ ++ q) ++ l₃)) ↔ r.Perm q := by
  have hmid : (l₁ ++ (l₂ ++ x :: r) ++ l₃).Perm (x :: (l₁ ++ (l₂ ++ r) ++ l₃)) := by
    simpa only [List.append_assoc, List.cons_append] using
      @List.perm_middle _ x (l₁ ++ l₂) (r ++ l₃)
  rw [hmid.congr_left, List.perm_cons, List.perm_append_right_iff, List.perm_append_left_iff,
    List.perm_append_left_iff]

/-- When the entries afterwards are the old ones and the new one. -/
theorem exists_perm_iff (type : ℕ) (rss₁ rss₂ : List (List Dirent))
    (hc : Chain buffer 0 (pre ++ e :: post) size) (hinode : inode ≠ 0)
    (hlt : inode < 2 ^ 32) (hname : name.length < 256) (he : Slot (minSize name.length) e) :
    (∃ es, Chain (place buffer e name inode type) 0 es size ∧
      ((rss₁ ++ es :: rss₂).flatMap used).Perm
        ((name, inode) :: (rss₁ ++ (pre ++ e :: post) :: rss₂).flatMap used)) ↔
      (e.inode = 0 → ∃ rest, Chain buffer (e.offset + minSize name.length) rest size ∧
        (used rest).Perm (used post)) := by
  by_cases h₀ : e.inode = 0
  · have hperm : ∀ rest, ((rss₁ ++ (pre ++ ⟨e.offset, inode, minSize name.length, name⟩ ::
        rest) :: rss₂).flatMap used).Perm
        ((name, inode) :: (rss₁ ++ (pre ++ e :: post) :: rss₂).flatMap used) ↔
        (used rest).Perm (used post) := by
      intro rest
      refine Iff.trans ?_ (perm_insert_iff (name, inode) (rss₁.flatMap used) (used pre)
        (rss₂.flatMap used))
      simp only [List.flatMap_append, List.flatMap_cons, used_append, used_mk hinode,
        used_cons_of_unused h₀, List.append_assoc]
    rw [forall_prop_of_true h₀]
    constructor
    · rintro ⟨es, hes, hp⟩
      obtain ⟨rest, rfl, hrest⟩ := (chain_place_iff hc h₀ hname hlt).1 hes
      exact ⟨rest, hrest, (hperm rest).1 hp⟩
    · rintro ⟨rest, hrest, hp⟩
      exact ⟨_, (chain_place_iff hc h₀ hname hlt).2 ⟨rest, rfl, hrest⟩, (hperm rest).2 hp⟩
  · refine iff_of_true ⟨_, hc.place h₀ (he.resolve_left h₀) hname hlt, ?_⟩ fun h => absurd h h₀
    have hperm := (perm_insert_iff (name, inode) (rss₁.flatMap used)
      (used pre ++ [(e.name, e.inode)]) (rss₂.flatMap used)).2 (List.Perm.refl (used post))
    simpa only [List.flatMap_append, List.flatMap_cons, used_append, used_mk hinode, used_mk h₀,
      used_cons h₀, List.append_assoc, List.singleton_append] using hperm

/-! ### Atomicity -/

theorem linksCount_lt (inode : Inode) : inode.linksCount < 2 ^ 16 := Mem.loadLE_lt inode 26 2

theorem CanLink.atomic (hcan : CanLink sb disk blocks rss name inode) (h : WellFormed sb disk)
    (hd : Directory sb disk dir blocks rss) (hinode : inode < 2 ^ 32) (hdir : dir.IsDir)
    (hnew : dirContains sb disk dir name = some false) :
    Atomic sb disk dir blocks rss name inode := by
  have hne : inode ≠ 0 := Nat.ne_of_gt hcan.target.1
  obtain ⟨rss₁, pre, e, post, rss₂, rfl, hes, hpre, he, hlen, hrest⟩ := hcan.slot
  obtain ⟨bs₁, b, bs₂, rfl, h₁, hc, h₂⟩ := hd.entries.split
  rw [← h₁.length_eq] at hlen hrest
  obtain ⟨type, disk₂, hlink, hcount, hentries⟩ :=
    hardLink_slot h hd hcan.target hnew hdir hcan.short h₁ hc h₂ hes hpre he hlen
  refine ⟨true, disk₂, hlink, fun _ => ⟨?_, ?_⟩, ?_⟩
  · obtain ⟨es, hplace, hperm⟩ := (exists_perm_iff type rss₁ rss₂ hc hne
      hinode (Nat.lt_succ_of_le hcan.short) he).2 (by simpa using hrest)
    exact ⟨_, (hentries _).2 ⟨es, rfl, hplace⟩, hperm⟩
  · rw [hcount]
    cases hfind : findInode sb disk inode with
    | none => rfl
    | some target =>
      have hlt := hcan.links target hfind
      simp only [Option.map_some]
      rw [Nat.mod_eq_of_lt (by omega)]
  · rintro (⟨i, hi⟩ | hno | hno | hno)
    · exact absurd hi (hcan.new i)
    · exact absurd hdir hno
    · exact absurd hcan.target hno
    · exact absurd hcan.room hno

theorem Atomic.canLink (ha : Atomic sb disk dir blocks rss name inode) (h : WellFormed sb disk)
    (hd : Directory sb disk dir blocks rss) (hinode : inode < 2 ^ 32) (hdir : dir.IsDir)
    (hnew : dirContains sb disk dir name = some false) (hne : inode ≠ 0) :
    CanLink sb disk blocks rss name inode := by
  obtain ⟨r, disk₂, hlink, hlinked, hcannot⟩ := ha
  obtain rfl := hardLink_true hnew hdir hne hlink
  obtain ⟨⟨rss', hrss', hperm⟩, hcount⟩ := hlinked rfl
  have hcan : ¬ Cannot sb disk dir rss name inode := fun hno => absurd (hcannot hno).1 (by decide)
  simp only [Cannot, not_or, not_exists, not_not] at hcan
  obtain ⟨hnot, -, hx, hroom⟩ := hcan
  have hshort : name.length < 256 :=
    hrss'.length_lt (hperm.mem_iff.2 List.mem_cons_self)
  obtain ⟨rss₁, pre, e, post, rss₂, rfl, hes, hpre, he⟩ := hroom.exists_slot
  obtain ⟨bs₁, b, bs₂, rfl, h₁, hc, h₂⟩ := hd.entries.split
  have hlen : bs₁.length < 12 := by
    by_contra hlen
    have hd' := hd
    rw [← List.take_append_drop 12 bs₁, List.append_assoc] at hd'
    have hpanic := hardLink_panic h hd' hx hnew hdir (Nat.le_of_lt_succ hshort)
      (List.forall₂_take 12 h₁) (fun es hmem => hes es (List.mem_of_mem_take hmem))
      (by rw [List.length_take]; omega) (by simp)
    rw [hlink] at hpanic
    cases hpanic
  obtain ⟨type, disk₂', hlink', hcount', hentries⟩ :=
    hardLink_slot h hd hx hnew hdir (Nat.le_of_lt_succ hshort) h₁ hc h₂ hes hpre he hlen
  obtain rfl : disk₂ = disk₂' := by
    rw [hlink] at hlink'
    exact congrArg Prod.snd (Option.some_inj.1 hlink')
  obtain ⟨es, rfl, hplace⟩ := (hentries _).1 hrss'
  have hrest := (exists_perm_iff type rss₁ rss₂ hc hne hinode hshort
    he).1 ⟨es, hplace, hperm⟩
  refine ⟨hnot, Nat.le_of_lt_succ hshort, hx, ?_, hroom, rss₁, pre, e, post, rss₂, rfl, hes, hpre,
    he, h₁.length_eq ▸ hlen, ?_⟩
  · intro target ht
    obtain ⟨count, hcnt⟩ : ∃ count, target.linksCount = count := ⟨_, rfl⟩
    have hlt := linksCount_lt target
    rw [hcount, show findInode sb disk inode = some target from ht] at hcount'
    simp only [Option.map_some, Option.some_inj, hcnt] at hcount'
    rw [hcnt] at hlt ⊢
    omega
  · rw [← h₁.length_eq]
    simpa using hrest

/-- The call is atomic exactly if it stops before it writes, or if the link can be made. -/
theorem atomic_iff (h : WellFormed sb disk) (hd : Directory sb disk dir blocks rss)
    (hinode : inode < 2 ^ 32) : Atomic sb disk dir blocks rss name inode ↔
      ¬ dir.IsDir ∨ dirContains sb disk dir name = some true ∨
        dirContains sb disk dir name = some false ∧
          (inode = 0 ∨ CanLink sb disk blocks rss name inode) := by
  have hstop : hardLink sb disk dir name inode = some (false, disk) →
      Atomic sb disk dir blocks rss name inode := by
    intro hlink
    refine ⟨false, disk, hlink, fun hr => ?_, fun _ => ⟨rfl, rfl⟩⟩
    cases hr
  constructor
  · intro ha
    by_cases hdir : dir.IsDir
    · obtain ⟨r, disk₂, hlink, -⟩ := id ha
      cases hnew : dirContains sb disk dir name with
      | none =>
        rw [hardLink, hnew] at hlink
        cases hlink
      | some found =>
        cases found with
        | true => exact .inr (.inl rfl)
        | false =>
          refine .inr (.inr ⟨rfl, ?_⟩)
          by_cases hne : inode = 0
          · exact .inl hne
          · exact .inr (ha.canLink h hd hinode hdir hnew hne)
    · exact .inl hdir
  · rintro (hdir | hnew | ⟨hnew, rfl | hcan⟩)
    · apply hstop
      have hnew : dirContains sb disk dir name = some false := if_neg hdir
      cases hfind : findInode sb disk inode <;> simp [hardLink, hnew, hfind, hdir]
    · apply hstop
      simp [hardLink, hnew]
    · apply hstop
      simp [hardLink, hnew, findInode]
    · by_cases hdir : dir.IsDir
      · exact hcan.atomic h hd hinode hdir hnew
      · apply hstop
        cases hfind : findInode sb disk inode <;> simp [hardLink, hnew, hfind, hdir]

end Links

/-! ### Two directories -/

theorem Chain.cons_of_eq {b : Mem} {o o' p : ℕ} {es : List Dirent} (h : ValidAt b o)
    (ho : o + (direntAt b o).recLen = o') (ht : Chain b o' es p) :
    Chain b o (direntAt b o :: es) p := .cons h (ho ▸ ht)

/-- The directory of the small image. -/
def sampleDir (disk : Mem) : Inode := (findInode sampleSuperblock disk 2).getD fun _ => 0

/-- The entries of its block, at the given places. -/
def sampleEntries (disk : Mem) (os : List ℕ) : List (List Dirent) :=
  [os.map (direntAt (readBlock sampleSuperblock disk 7))]

theorem sample_directory : Directory sampleSuperblock sampleDisk (sampleDir sampleDisk) [7]
    (sampleEntries sampleDisk [0, 12]) where
  fileSize := by decide
  numBlocks := by decide
  direct := by decide
  data := by decide
  nodup := by decide
  entries := .cons
    (.cons_of_eq ⟨by decide, by decide⟩ (by decide : _ = 12)
      (.cons_of_eq ⟨by decide, by decide⟩ (by decide : _ = 1024) (.nil _)))
    .nil

theorem atomic_sample : Atomic sampleSuperblock sampleDisk (sampleDir sampleDisk) [7]
    (sampleEntries sampleDisk [0, 12]) [97] 12 := by
  have hused : (sampleEntries sampleDisk [0, 12]).flatMap used = [([46], 2), ([46, 46], 2)] := by
    decide
  refine (atomic_iff sample_wellFormed sample_directory (by decide)).2
    (.inr (.inr ⟨by decide, .inr ⟨?_, by decide, by decide, ?_, by decide,
      [], [_], _, [], [], rfl, ?_, ?_, ?_, by decide, ?_⟩⟩))
  · simp [hused]
  · have hlinks : (findInode sampleSuperblock sampleDisk 12).map Inode.linksCount = some 1 := by
      decide
    intro target ht
    rw [show findInode sampleSuperblock sampleDisk 12 = some target from ht, Option.map_some,
      Option.some_inj] at hlinks
    rw [hlinks]
    decide
  · simp
  · simp only [List.forall_mem_singleton]
    decide
  · decide
  · intro h₀
    exact absurd h₀ (by decide)

/-- The directory, filled up with links to the file 12. -/
def fullBlock : List UInt8 :=
  [2, 0, 0, 0, 12, 0, 1, 2, 46, 0, 0, 0, 2, 0, 0, 0, 12, 0, 2, 2, 46, 46, 0, 0] ++
    [97, 98, 99].flatMap (fun c => [12, 0, 0, 0, 8, 1, 255, 1] ++ List.replicate 255 c ++ [0]) ++
    [12, 0, 0, 0, 208, 0, 200, 1] ++ List.replicate 200 100

def fullDisk : Mem := diskOf ((7168, fullBlock) :: (6554, [4]) :: samplePlaces)

theorem full_wellFormed : WellFormed sampleSuperblock fullDisk :=
  wellFormed_of_group (by decide) ⟨by decide, by decide, by decide,
    by decide, by decide, by decide⟩

theorem full_directory : Directory sampleSuperblock fullDisk (sampleDir fullDisk) [7]
    (sampleEntries fullDisk [0, 12, 24, 288, 552, 816]) where
  fileSize := by decide
  numBlocks := by decide
  direct := by decide
  data := by decide
  nodup := by decide
  entries := .cons
    (.cons_of_eq ⟨by decide +kernel, by decide +kernel⟩ (by decide +kernel : _ = 12)
      (.cons_of_eq ⟨by decide +kernel, by decide +kernel⟩ (by decide +kernel : _ = 24)
      (.cons_of_eq ⟨by decide +kernel, by decide +kernel⟩ (by decide +kernel : _ = 288)
      (.cons_of_eq ⟨by decide +kernel, by decide +kernel⟩ (by decide +kernel : _ = 552)
      (.cons_of_eq ⟨by decide +kernel, by decide +kernel⟩ (by decide +kernel : _ = 816)
      (.cons_of_eq ⟨by decide +kernel, by decide +kernel⟩ (by decide +kernel : _ = 1024)
        (.nil _)))))))
    .nil

/-- There is no room in the full directory, but the call returns `true`. -/
theorem not_atomic_full : ∃ sb disk dir blocks rss name inode, WellFormed sb disk ∧
    Directory sb disk dir blocks rss ∧ InodeExists sb disk inode ∧ dir.IsDir ∧
      ¬ Room (minSize name.length) rss ∧ ¬ Atomic sb disk dir blocks rss name inode := by
  refine ⟨sampleSuperblock, fullDisk, sampleDir fullDisk, [7], _, [101], 12, full_wellFormed,
    full_directory, by decide, by decide, by decide +kernel, ?_⟩
  rintro ⟨r, disk', hlink, -, hcannot⟩
  have hr := hardLink_true (by decide +kernel) (by decide) (by decide) hlink
  obtain ⟨rfl, -⟩ := hcannot (.inr (.inr (.inr (by decide +kernel))))
  cases hr

end Ext2

end Kernel

end Bluejay
