import Bluejay.Kernel.Ext2Exact

/-!
# Inserting an entry

* `typed`, `typedEntries` : the used entries with their types.
* `Inserts` : `ext2_insert_into_dir` writes one block that has room, its records tile it again, and
  the new entry is there beside the old ones.
* `inserts_iff` : when this is so.
-/

namespace Bluejay

namespace Kernel

namespace Ext2

/-- The used entries of a block, with the type that is behind the length of the name. -/
def typed (b : Mem) (es : List Dirent) : List (List UInt8 × ℕ × UInt8) :=
  (es.filter fun e => e.inode ≠ 0).map fun e => (e.name, e.inode, b (e.offset + 7))

/-- The used entries of the blocks of a directory. -/
def typedEntries (sb : Superblock) (disk : Mem) :
    List ℕ → List (List Dirent) → List (List UInt8 × ℕ × UInt8)
  | b :: blocks, es :: rss => typed (readBlock sb disk b) es ++ typedEntries sb disk blocks rss
  | _, _ => []

/-- The call returns.  It has written one block, which had room; the records tile the blocks, and
the used entries are the new one and the old ones. -/
def Inserts (sb : Superblock) (disk : Mem) (dir : Inode) (blocks : List ℕ)
    (rss : List (List Dirent)) (name : List UInt8) (inode : ℕ) (type : UInt8) : Prop :=
  ∃ disk', insertIntoDir sb disk dir name inode type.toNat = some disk' ∧
    (∃ (i b : ℕ) (es : List Dirent), blocks[i]? = some b ∧ rss[i]? = some es ∧
      Room (minSize name.length) [es] ∧
      ∀ a, a < blockSize sb * b ∨ blockSize sb * b + blockSize sb ≤ a → disk' a = disk a) ∧
    ∃ rss', BlockEntries sb disk' blocks rss' ∧
      (typedEntries sb disk' blocks rss').Perm
        ((name, inode, type) :: typedEntries sb disk blocks rss)

/-- The first entry that is not used or has enough room behind it is in one of the first twelve
blocks.  If it is not used, its block has room, and behind the new entry the same used entries are
read as behind the old one. -/
def FitsFirst (sb : Superblock) (disk : Mem) (blocks : List ℕ) (rss : List (List Dirent))
    (size : ℕ) : Prop :=
  ∃ rss₁ pre e post rss₂, rss = rss₁ ++ (pre ++ e :: post) :: rss₂ ∧
    (∀ es ∈ rss₁, ∀ e ∈ es, ¬ Slot size e) ∧ (∀ e ∈ pre, ¬ Slot size e) ∧ Slot size e ∧
    rss₁.length < 12 ∧
    (e.inode = 0 → Room size [pre ++ e :: post] ∧
      ∃ rest, Chain (readBlock sb disk (blocks.getD rss₁.length 0)) (e.offset + size) rest
          (blockSize sb) ∧
        (typed (readBlock sb disk (blocks.getD rss₁.length 0)) rest).Perm
          (typed (readBlock sb disk (blocks.getD rss₁.length 0)) post))

section Insert

variable {sb : Superblock} {disk disk' b b' buffer : Mem} {dir : Inode} {blocks bs₁ bs₂ : List ℕ}
  {rss rss' rss₁ rss₂ : List (List Dirent)} {pre post es rest : List Dirent} {e : Dirent}
  {name : List UInt8} {inode block o p q size : ℕ} {type : UInt8}

/-! ### Types -/

theorem typed_append : typed b (pre ++ post) = typed b pre ++ typed b post := by
  simp [typed]

theorem typed_cons (h : e.inode ≠ 0) :
    typed b (e :: post) = (e.name, e.inode, b (e.offset + 7)) :: typed b post := by
  simp [typed, h]

theorem typed_mk {offset recLen : ℕ} (h : inode ≠ 0) :
    typed b (⟨offset, inode, recLen, name⟩ :: post) =
      (name, inode, b (offset + 7)) :: typed b post := typed_cons h

theorem typed_cons_of_unused (h : e.inode = 0) : typed b (e :: post) = typed b post := by
  simp [typed, h]

/-- The types are in the headers of the entries. -/
theorem Chain.typed_congr (h : Chain b o es p) (hb : ∀ i, o ≤ i → i < p → b' i = b i) :
    typed b' es = typed b es := by
  induction h with
  | nil => rfl
  | @cons o p es h ht ih =>
    have hfits := h.fits
    have hlen := ht.length_le
    have hrest := ih fun i h₁ h₂ => hb i (by omega) h₂
    by_cases hused : (direntAt b o).inode = 0
    · rw [typed_cons_of_unused hused, typed_cons_of_unused hused, hrest]
    · have htype : b' ((direntAt b o).offset + 7) = b ((direntAt b o).offset + 7) :=
        hb (o + 7) (by omega) (by omega)
      rw [typed_cons hused, typed_cons hused, hrest, htype]

theorem typedEntries_append (hlen : bs₁.length = rss₁.length) :
    typedEntries sb disk (bs₁ ++ blocks) (rss₁ ++ rss) =
      typedEntries sb disk bs₁ rss₁ ++ typedEntries sb disk blocks rss := by
  induction bs₁ generalizing rss₁ with
  | nil =>
    rw [List.eq_nil_of_length_eq_zero hlen.symm]
    rfl
  | cons b bs₁ ih =>
    obtain ⟨es, rss₁, rfl⟩ := List.exists_cons_of_length_eq_add_one hlen.symm
    simp only [List.cons_append, typedEntries]
    rw [ih (by simpa using hlen), List.append_assoc]

theorem typedEntries_congr (h : ∀ b ∈ blocks, readBlock sb disk' b = readBlock sb disk b) :
    typedEntries sb disk' blocks rss = typedEntries sb disk blocks rss := by
  induction blocks generalizing rss with
  | nil => rfl
  | cons b blocks ih =>
    obtain ⟨hb, hrest⟩ := List.forall_mem_cons.1 h
    cases rss with
    | nil => rfl
    | cons es rss => rw [typedEntries, typedEntries, hb, ih hrest]

/-! ### The new entry -/

theorem writeDirent_type {recLen : ℕ} :
    writeDirent b o recLen name inode type.toNat (o + 7) = type := by
  simp [writeDirent]

/-- The entry is written in the place of one that is not used. -/
theorem Chain.typed_place_unused (h : Chain b o (pre ++ e :: post) p) (h₀ : e.inode = 0)
    (hinode : inode ≠ 0) (hrest : Chain b (e.offset + minSize name.length) rest p) :
    typed (Ext2.place b e name inode type.toNat)
        (pre ++ ⟨e.offset, inode, minSize name.length, name⟩ :: rest) =
      typed b pre ++ (name, inode, type) :: typed b rest := by
  obtain ⟨q, hpre, hpost⟩ := h.split
  obtain rfl : e.offset = q := by
    cases hpost
    rfl
  have hsize := le_minSize name.length
  rw [Ext2.place, if_pos h₀, typed_append, typed_mk hinode, writeDirent_type,
    hpre.typed_congr fun i _ hi => writeDirent_of_out (.inl hi),
    hrest.typed_congr fun i hi _ => writeDirent_of_out (.inr (by omega))]

/-- The entry is written behind one that is used. -/
theorem Chain.typed_place_used (h : Chain b o (pre ++ e :: post) p) (hused : e.inode ≠ 0)
    (hinode : inode ≠ 0) (hroom : minSize name.length ≤ e.recLen - minSize e.name.length) :
    typed (Ext2.place b e name inode type.toNat)
        (pre ++ ⟨e.offset, e.inode, minSize e.name.length, e.name⟩ ::
          ⟨e.offset + minSize e.name.length, inode, e.recLen - minSize e.name.length, name⟩ ::
            post) =
      typed b pre ++
        (e.name, e.inode, b (e.offset + 7)) :: (name, inode, type) :: typed b post := by
  obtain ⟨q, hpre, hpost⟩ := h.split
  cases hpost with
  | cons hv hpost =>
    obtain ⟨t, ht⟩ : ∃ t, minSize (direntAt b q).name.length = t := ⟨_, rfl⟩
    obtain ⟨r, hr⟩ : ∃ r, (direntAt b q).recLen = r := ⟨_, rfl⟩
    have hsize := le_minSize name.length
    have htsize := le_minSize (direntAt b q).name.length
    rw [ht, hr] at hroom
    rw [ht] at htsize
    rw [hr] at hpost
    have hplace : ∀ i, i ≠ q + 4 → i ≠ q + 5 → i < q + t ∨ q + r ≤ i →
        Ext2.place b (direntAt b q) name inode type.toNat i = b i := by
      intro i h₄ h₅ hi
      rw [Ext2.place, if_neg hused, ht, hr, show (direntAt b q).offset = q from rfl,
        writeDirent_of_out (by omega), Mem.storeLE_of_out (by omega)]
    have hnew : Ext2.place b (direntAt b q) name inode type.toNat (q + t + 7) = type := by
      rw [Ext2.place, if_neg hused, ht, show (direntAt b q).offset = q from rfl, writeDirent_type]
    rw [ht, hr, show (direntAt b q).offset = q from rfl, typed_append, typed_mk hused,
      typed_mk hinode, hnew, hplace (q + 7) (by omega) (by omega) (by omega),
      hpre.typed_congr fun i _ hi => hplace i (by omega) (by omega) (by omega),
      hpost.typed_congr fun i hi _ => hplace i (by omega) (by omega) (by omega)]

/-- When the entries afterwards are the old ones and the new one. -/
theorem exists_typed_perm_iff (l₁ l₂ : List (List UInt8 × ℕ × UInt8))
    (hc : Chain buffer 0 (pre ++ e :: post) size) (hinode : inode ≠ 0) (hlt : inode < 2 ^ 32)
    (hname : name.length < 256) (he : Slot (minSize name.length) e) :
    (∃ es, Chain (place buffer e name inode type.toNat) 0 es size ∧
      (l₁ ++ typed (place buffer e name inode type.toNat) es ++ l₂).Perm
        ((name, inode, type) :: (l₁ ++ typed buffer (pre ++ e :: post) ++ l₂))) ↔
      (e.inode = 0 → ∃ rest, Chain buffer (e.offset + minSize name.length) rest size ∧
        (typed buffer rest).Perm (typed buffer post)) := by
  by_cases h₀ : e.inode = 0
  · rw [forall_prop_of_true h₀, typed_append, typed_cons_of_unused h₀]
    constructor
    · rintro ⟨es, hes, hp⟩
      obtain ⟨rest, rfl, hrest⟩ := (chain_place_iff hc h₀ hname hlt).1 hes
      rw [hc.typed_place_unused h₀ hinode hrest] at hp
      exact ⟨rest, hrest, (perm_insert_iff _ _ _ _).1 hp⟩
    · rintro ⟨rest, hrest, hp⟩
      refine ⟨_, (chain_place_iff hc h₀ hname hlt).2 ⟨rest, rfl, hrest⟩, ?_⟩
      rw [hc.typed_place_unused h₀ hinode hrest]
      exact (perm_insert_iff _ _ _ _).2 hp
  · have hroom := he.resolve_left h₀
    refine iff_of_true ⟨_, hc.place h₀ hroom hname hlt, ?_⟩ fun h => absurd h h₀
    rw [hc.typed_place_used h₀ hinode hroom, typed_append, typed_cons h₀]
    have hperm := (perm_insert_iff (name, inode, type) l₁
      (typed buffer pre ++ [(e.name, e.inode, buffer (e.offset + 7))]) l₂).2
      (List.Perm.refl (typed buffer post))
    simpa only [List.append_assoc, List.singleton_append] using hperm

/-! ### The disk -/

theorem typedEntries_used (h : blocks.length = rss.length) :
    (typedEntries sb disk blocks rss).map (fun t => (t.1, t.2.1)) = rss.flatMap used := by
  induction blocks generalizing rss with
  | nil =>
    rw [List.eq_nil_of_length_eq_zero h.symm]
    rfl
  | cons b blocks ih =>
    obtain ⟨es, rss, rfl⟩ := List.exists_cons_of_length_eq_add_one h.symm
    rw [typedEntries, List.map_append, ih (by simpa using h), List.flatMap_cons, used, typed,
      List.map_map]
    rfl

theorem WellFormed.geometry_of_block (h : WellFormed sb disk) (hblock : block < sb.totalBlocks) :
    Geometry sb := by
  refine h.geometry (g := 0) ?_
  obtain ⟨hpos, hle⟩ := h.blocksPerGroup
  obtain ⟨k, hk, h2, h128⟩ := exists_blockSize h.shift
  have haddr := h.addressable
  rw [hk, Nat.mul_div_cancel_left _ (by decide)] at haddr
  have htotal := Nat.mul_le_mul_right sb.totalBlocks h2
  rw [groups, idivCeil, sub32_of_le hpos (by omega), u32_of_lt (by omega)]
  exact Nat.div_pos (by omega) hpos

/-- If the disk has a new entry, the block that was written is not another one. -/
theorem Inserts.room (h : Inserts sb disk dir (bs₁ ++ block :: bs₂) (rss₁ ++ es :: rss₂) name inode
      type) (hd : Directory sb disk dir (bs₁ ++ block :: bs₂) (rss₁ ++ es :: rss₂))
    (hlen : bs₁.length = rss₁.length) (hgeo : Geometry sb)
    (hwrite : insertIntoDir sb disk dir name inode type.toNat =
      some (writeBlock sb disk buffer block)) : Room (minSize name.length) [es] := by
  obtain ⟨disk', hinsert, ⟨i, b, es', hb, hes', hroom, hframe⟩, rss', hentries, hperm⟩ := h
  obtain rfl := Option.some_inj.1 (hinsert.symm.trans hwrite)
  obtain ⟨hblock, -⟩ := hd.data block (by simp)
  rw [hgeo.writeBlock_eq hblock] at hframe hentries hperm
  obtain rfl : b = block := by
    by_contra hne
    -- then nothing has changed
    have hsame : assign disk (blockSize sb * block) (blockSize sb) buffer = disk := by
      funext a
      by_cases hin : blockSize sb * block ≤ a ∧ a < blockSize sb * block + blockSize sb
      · have hdisjoint : blockSize sb * b + blockSize sb ≤ blockSize sb * block ∨
            blockSize sb * block + blockSize sb ≤ blockSize sb * b := block_disjoint hne
        exact hframe a (by omega)
      · exact if_neg hin
    rw [hsame] at hentries hperm
    rw [hd.entries.unique hentries] at hperm
    have hlength := hperm.length_eq
    rw [List.length_cons] at hlength
    omega
  have hmid : (bs₁ ++ b :: bs₂)[bs₁.length]? = some b := by simp
  obtain rfl : bs₁.length = i :=
    (List.getElem?_inj (by simp) hd.nodup).1 (hmid.trans hb.symm)
  rw [hlen, List.getElem?_append_right (Nat.le_refl _), Nat.sub_self] at hes'
  exact Option.some_inj.1 hes' ▸ hroom

/-- The first place is in one of the first twelve blocks. -/
theorem inserts_slot_iff (h : WellFormed sb disk)
    (hd : Directory sb disk dir (bs₁ ++ block :: bs₂) (rss₁ ++ (pre ++ e :: post) :: rss₂))
    (hdir : dir.IsDir) (hne : inode ≠ 0) (hlt : inode < 2 ^ 32) (hname : name.length ≤ 255)
    (h₁ : BlockEntries sb disk bs₁ rss₁)
    (hc : Chain (readBlock sb disk block) 0 (pre ++ e :: post) (blockSize sb))
    (h₂ : BlockEntries sb disk bs₂ rss₂)
    (hes : ∀ es ∈ rss₁, ∀ e ∈ es, ¬ Slot (minSize name.length) e)
    (hpre : ∀ e ∈ pre, ¬ Slot (minSize name.length) e) (he : Slot (minSize name.length) e)
    (hlen : bs₁.length < 12) :
    Inserts sb disk dir (bs₁ ++ block :: bs₂) (rss₁ ++ (pre ++ e :: post) :: rss₂) name inode type ↔
      (e.inode = 0 → Room (minSize name.length) [pre ++ e :: post] ∧
        ∃ rest, Chain (readBlock sb disk block) (e.offset + minSize name.length) rest
            (blockSize sb) ∧
          (typed (readBlock sb disk block) rest).Perm (typed (readBlock sb disk block) post)) := by
  obtain ⟨hblock, -⟩ := hd.data block (by simp)
  have hgeo := h.geometry_of_block hblock
  obtain ⟨buffer, hbuffer⟩ :
      ∃ buffer, place (readBlock sb disk block) e name inode type.toNat = buffer := ⟨_, rfl⟩
  have hwrite := insertIntoDir_slot inode type.toNat h hd hdir hname h₁ hc hes hpre he hlen
    fun _ _ => rfl
  have hentries : ∀ rss', BlockEntries sb (writeBlock sb disk buffer block)
      (bs₁ ++ block :: bs₂) rss' ↔
        ∃ es, rss' = rss₁ ++ es :: rss₂ ∧ Chain buffer 0 es (blockSize sb) := fun _ =>
    hd.entries_writeBlock hgeo h₁ h₂ (fun _ _ => rfl) buffer
  rw [hbuffer] at hwrite
  have hperm : (∃ es, Chain buffer 0 es (blockSize sb) ∧
      (typedEntries sb disk bs₁ rss₁ ++ typed buffer es ++ typedEntries sb disk bs₂ rss₂).Perm
        ((name, inode, type) :: (typedEntries sb disk bs₁ rss₁ ++
          typed (readBlock sb disk block) (pre ++ e :: post) ++
            typedEntries sb disk bs₂ rss₂))) ↔
      (e.inode = 0 → ∃ rest,
        Chain (readBlock sb disk block) (e.offset + minSize name.length) rest (blockSize sb) ∧
          (typed (readBlock sb disk block) rest).Perm
            (typed (readBlock sb disk block) post)) := by
    rw [← hbuffer]
    exact exists_typed_perm_iff _ _ hc hne hlt (Nat.lt_succ_of_le hname) he
  -- the entries of the other blocks are the old ones
  have htyped : ∀ es, Chain buffer 0 es (blockSize sb) →
      typedEntries sb (writeBlock sb disk buffer block) (bs₁ ++ block :: bs₂)
        (rss₁ ++ es :: rss₂) =
      typedEntries sb disk bs₁ rss₁ ++ typed buffer es ++ typedEntries sb disk bs₂ rss₂ := by
    intro es hchain
    have hother : ∀ b ∈ bs₁ ++ bs₂, readBlock sb (writeBlock sb disk buffer block) b =
        readBlock sb disk b := fun b hb => hd.readBlock_writeBlock_of_mem hgeo buffer hb
    obtain ⟨hother₁, hother₂⟩ := List.forall_mem_append.1 hother
    rw [typedEntries_append h₁.length_eq, typedEntries, typedEntries_congr hother₁,
      typedEntries_congr hother₂, hgeo.readBlock_writeBlock hblock,
      hchain.typed_congr fun i _ hi => ?_, List.append_assoc]
    rw [structAt, if_pos hi, Nat.zero_add]
  have hold : typedEntries sb disk (bs₁ ++ block :: bs₂) (rss₁ ++ (pre ++ e :: post) :: rss₂) =
      typedEntries sb disk bs₁ rss₁ ++ typed (readBlock sb disk block) (pre ++ e :: post) ++
        typedEntries sb disk bs₂ rss₂ := by
    rw [typedEntries_append h₁.length_eq, typedEntries, List.append_assoc]
  constructor
  · intro hins h₀
    refine ⟨hins.room hd h₁.length_eq hgeo hwrite, hperm.1 ?_ h₀⟩
    obtain ⟨disk', hinsert, -, rss', hrss', hp⟩ := hins
    obtain rfl := Option.some_inj.1 (hinsert.symm.trans hwrite)
    obtain ⟨es, rfl, hchain⟩ := (hentries rss').1 hrss'
    rw [htyped es hchain, hold] at hp
    exact ⟨es, hchain, hp⟩
  · intro hrest
    obtain ⟨es, hchain, hp⟩ := hperm.2 fun h₀ => (hrest h₀).2
    have hroom : Room (minSize name.length) [pre ++ e :: post] := by
      by_cases h₀ : e.inode = 0
      · exact (hrest h₀).1
      · exact ⟨_, List.mem_singleton_self _, e, by simp, by
          rw [if_neg h₀]
          exact he.resolve_left h₀⟩
    refine ⟨_, hwrite, ⟨bs₁.length, block, pre ++ e :: post, by simp, ?_, hroom, fun a ha => ?_⟩,
      rss₁ ++ es :: rss₂, (hentries _).2 ⟨es, rfl, hchain⟩, ?_⟩
    · rw [h₁.length_eq]
      simp
    · rw [hgeo.writeBlock_eq hblock, assign_of_out ha]
    · rw [htyped es hchain, hold]
      exact hp

/-- The entry is inserted exactly if its name has at most 255 bytes and it fits into the first
place. -/
theorem inserts_iff (h : WellFormed sb disk) (hd : Directory sb disk dir blocks rss)
    (hdir : dir.IsDir) (hroom : Room (minSize name.length) rss) (hne : inode ≠ 0)
    (hlt : inode < 2 ^ 32) (type : UInt8) : Inserts sb disk dir blocks rss name inode type ↔
      name.length ≤ 255 ∧ FitsFirst sb disk blocks rss (minSize name.length) := by
  constructor
  · intro hins
    have hname : name.length < 256 := by
      -- the new entry is a record, with its length in one byte
      obtain ⟨disk', -, -, rss', hentries, hperm⟩ := hins
      have hmem := List.mem_map_of_mem (f := fun t : List UInt8 × ℕ × UInt8 => (t.1, t.2.1))
        (hperm.mem_iff.2 List.mem_cons_self)
      rw [typedEntries_used hentries.length_eq] at hmem
      exact hentries.length_lt hmem
    obtain ⟨rss₁, pre, e, post, rss₂, rfl, hes, hpre, he⟩ := hroom.exists_slot
    obtain ⟨bs₁, block, bs₂, rfl, h₁, hc, h₂⟩ := hd.entries.split
    have hlen : bs₁.length < 12 := by
      by_contra hlen
      -- the loop asks for the block 12
      obtain ⟨disk', hinsert, -⟩ := hins
      have hd' := hd
      rw [← List.take_append_drop 12 bs₁, List.append_assoc] at hd'
      have hpanic := insertIntoDir_panic inode type.toNat h hd' hdir (Nat.le_of_lt_succ hname)
        (List.forall₂_take 12 h₁) (fun es hmem => hes es (List.mem_of_mem_take hmem))
        (by rw [List.length_take]; omega) (by simp) fun _ _ => rfl
      rw [hinsert] at hpanic
      cases hpanic
    have hrest := (inserts_slot_iff h hd hdir hne hlt (Nat.le_of_lt_succ hname) h₁ hc h₂ hes hpre
      he hlen).1 hins
    refine ⟨Nat.le_of_lt_succ hname, rss₁, pre, e, post, rss₂, rfl, hes, hpre, he,
      h₁.length_eq ▸ hlen, ?_⟩
    rw [← h₁.length_eq]
    simpa using hrest
  · rintro ⟨hname, rss₁, pre, e, post, rss₂, rfl, hes, hpre, he, hlen, hrest⟩
    obtain ⟨bs₁, block, bs₂, rfl, h₁, hc, h₂⟩ := hd.entries.split
    rw [← h₁.length_eq] at hlen hrest
    exact (inserts_slot_iff h hd hdir hne hlt hname h₁ hc h₂ hes hpre he hlen).2
      (by simpa using hrest)

end Insert

/-! ### Directories of the sample -/

theorem inserts_sample : Inserts sampleSuperblock sampleDisk (sampleDir sampleDisk) [7]
    (sampleEntries sampleDisk [0, 12]) [97] 12 1 := by
  refine (inserts_iff sample_wellFormed sample_directory (by decide) (by decide)
    (by decide) (by decide) 1).2 ⟨by decide, [], [_], _, [], [], rfl, ?_, ?_, ?_, by decide, ?_⟩
  · simp
  · simp only [List.forall_mem_singleton]
    decide
  · decide
  · intro h₀
    exact absurd h₀ (by decide)

theorem tail_wellFormed : WellFormed sampleSuperblock tailDisk :=
  wellFormed_of_group (by decide) ⟨by decide, by decide, by decide,
    by decide, by decide, by decide⟩

theorem tail_directory : Directory sampleSuperblock tailDisk (sampleDir tailDisk) [7]
    (sampleEntries tailDisk [0, 12, 24]) where
  fileSize := by decide
  numBlocks := by decide
  direct := by decide
  data := by decide
  nodup := by decide
  entries := .cons
    (.cons_of_eq ⟨by decide, by decide⟩ (by decide : _ = 12)
      (.cons_of_eq ⟨by decide, by decide⟩ (by decide : _ = 24)
        (.cons_of_eq ⟨by decide, by decide⟩ (by decide : _ = 1024)
          (.nil _))))
    .nil

/-- The unused entry has the whole rest of the block, and the new one only 12 bytes of it. -/
theorem not_inserts : ¬ ∀ (sb : Superblock) (disk : Mem) (dir : Inode) (blocks : List ℕ)
    (rss : List (List Dirent)) (name : List UInt8) (inode : ℕ) (type : UInt8),
    WellFormed sb disk → Directory sb disk dir blocks rss → dir.IsDir → name.length ≤ 255 →
      blocks.length ≤ 12 → Room (minSize name.length) rss → inode ≠ 0 → inode < 2 ^ 32 →
        Inserts sb disk dir blocks rss name inode type := by
  intro h
  obtain ⟨b, hread⟩ : ∃ b, readBlock sampleSuperblock tailDisk 7 = b := ⟨_, rfl⟩
  have hd : Directory sampleSuperblock tailDisk (sampleDir tailDisk) ([] ++ 7 :: [])
      ([] ++ ([direntAt b 0, direntAt b 12] ++ direntAt b 24 :: []) :: []) :=
    hread ▸ tail_directory
  have hc : Chain (readBlock sampleSuperblock tailDisk 7) 0
      ([direntAt b 0, direntAt b 12] ++ direntAt b 24 :: []) (blockSize sampleSuperblock) :=
    (List.forall₂_cons.1 hd.entries).1
  have hins := h _ _ _ _ _ [97] 12 1 tail_wellFormed hd (by decide) (by decide) (by decide)
    (by rw [← hread]; decide) (by decide) (by decide)
  rw [inserts_slot_iff tail_wellFormed hd (by decide) (by decide) (by decide) (by decide)
    .nil hc .nil (by simp) (by rw [← hread]; decide) (by rw [← hread]; decide)
    (by decide)] at hins
  obtain ⟨-, rest, hrest, -⟩ := hins (by rw [← hread]; decide)
  -- the length of the record behind the new one is zero
  change Chain _ 36 rest _ at hrest
  cases hrest with
  | cons hv _ => exact absurd hv.fits (by decide)

end Ext2

end Kernel

end Bluejay
