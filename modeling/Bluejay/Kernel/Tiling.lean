import Bluejay.Kernel.AllocSafety
import Bluejay.Kernel.HeapSearch

/-!
# Boundary tags

Walking the arena by the sizes in the headers, one gets from block to block to its end; each block
repeats its size in its footer.

* `Block.Tagged b m` : the header and the footer of the block `b` are in the memory `m`.
* `Tiles m lo bs hi` : the blocks `bs` fill `[lo, hi)`, and their tags are in memory;
  `Tiles.eq_append`, `Tiles.unique` : memory says what the blocks are.
* `Tiled L s bs` : the blocks fill the arena, and the heap has one entry for each free block.
* `HeapOps` : the operations on the heap as parameters of the allocator; `HeapOps.Correct` says
  what it expects of them.
-/

namespace Bluejay

namespace Kernel

/-- A block of the arena. -/
structure Block extends Extent where
  allocated : Bool
  deriving DecidableEq

/-- The heap entry for a free block. -/
def Block.entry (b : Block) : HeapEntry := ⟨b.len, b.start⟩

/-- The header and the footer of the block are in memory. -/
structure Block.Tagged (b : Block) (m : Mem) : Prop where
  room : headerSize + footerSize ≤ b.len
  size : Kernel.size m b.start = b.len
  magic : Kernel.magic m b.start = heapMagic
  allocated : Kernel.allocated m b.start = b.allocated
  footer : Kernel.footer m (b.start + b.len - footerSize) = b.len

instance (b : Block) (m : Mem) : Decidable (b.Tagged m) :=
  decidable_of_iff (headerSize + footerSize ≤ b.len ∧ size m b.start = b.len ∧
      magic m b.start = heapMagic ∧ allocated m b.start = b.allocated ∧
      footer m (b.start + b.len - footerSize) = b.len)
    ⟨fun ⟨hr, hs, hm, ha, hf⟩ => ⟨hr, hs, hm, ha, hf⟩, fun ⟨hr, hs, hm, ha, hf⟩ => ⟨hr, hs, hm, ha, hf⟩⟩

/-- The tags of a block are read in its header and its footer. -/
theorem Block.Tagged.of_tags {b : Block} {m m' : Mem} (h : b.Tagged m)
    (hhi : b.start + b.len ≤ 2 ^ 32)
    (hm : ∀ i, b.start ≤ i ∧ i < b.start + headerSize ∨
      b.start + b.len - footerSize ≤ i ∧ i < b.start + b.len → m' i = m i) : b.Tagged m' := by
  obtain ⟨hroom, hsize, hmagic, hallocated, hfooter⟩ := h
  simp only [headerSize, footerSize] at hroom hm
  have h4 : u32 (b.start + 4) = b.start + 4 := u32_of_lt (by omega)
  have h8 : u32 (b.start + 8) = b.start + 8 := u32_of_lt (by omega)
  have hload : ∀ a, b.start ≤ a ∧ a + 4 ≤ b.start + 12 ∨ a = b.start + b.len - 4 →
      m'.loadLE a 4 = m.loadLE a 4 :=
    fun a ha => Mem.loadLE_congr fun i _ _ => hm i (by omega)
  refine ⟨hroom, ?_, ?_, ?_, ?_⟩
  · rw [← hsize, Kernel.size, Kernel.size, h8]
    exact hload _ (by omega)
  · exact (hload _ (by omega)).trans hmagic
  · rw [← hallocated, Kernel.allocated, Kernel.allocated, h4, hm _ (by omega)]
  · exact (hload _ (.inr rfl)).trans hfooter

theorem Block.Tagged.congr {b : Block} {m m' : Mem} (h : b.Tagged m)
    (hhi : b.start + b.len ≤ 2 ^ 32)
    (hm : ∀ i, b.start ≤ i → i < b.start + b.len → m' i = m i) : b.Tagged m' := by
  have hroom := h.room
  simp only [headerSize, footerSize] at hroom
  refine h.of_tags hhi fun i hi => ?_
  simp only [headerSize, footerSize] at hi
  exact hm i (by omega) (by omega)

theorem Block.eq_of_fields {b b' : Block} (hs : b.start = b'.start) (hl : b.len = b'.len)
    (ha : b.allocated = b'.allocated) : b = b' := by
  obtain ⟨⟨start, len⟩, allocated⟩ := b
  obtain ⟨⟨start', len'⟩, allocated'⟩ := b'
  obtain rfl : start = start' := hs
  obtain rfl : len = len' := hl
  obtain rfl : allocated = allocated' := ha
  rfl

/-- The blocks fill `[lo, hi)`. -/
structure Tiles (m : Mem) (lo : ℕ) (bs : List Block) (hi : ℕ) : Prop where
  adjacent : Adjacent lo (bs.map Block.toExtent) hi
  tagged : ∀ b ∈ bs, b.Tagged m

section Tiles

variable {m m' : Mem} {lo mid hi : ℕ} {b : Block} {bs bs' cs pre post : List Block}

/-- A block alone. -/
theorem Block.Tagged.tiles (h : b.Tagged m) : Tiles m b.start [b] (b.start + b.len) :=
  ⟨⟨rfl, rfl⟩, List.forall_mem_singleton.2 h⟩

theorem Tiles.within (h : Tiles m lo bs hi) (hb : b ∈ bs) : b.Within lo hi :=
  h.adjacent.within _ (List.mem_map_of_mem hb)

theorem Tiles.middle (h : Tiles m lo (pre ++ b :: post) hi) :
    Tiles m lo pre b.start ∧ Tiles m (b.start + b.len) post hi := by
  obtain ⟨hadj, htag⟩ := h
  rw [List.map_append, List.map_cons] at hadj
  exact ⟨⟨hadj.middle.1, fun x hx => htag x (List.mem_append_left _ hx)⟩,
    ⟨hadj.middle.2, fun x hx => htag x (List.mem_append_right _ (List.mem_cons_of_mem _ hx))⟩⟩

theorem Tiles.append (h : Tiles m lo bs mid) (h' : Tiles m mid cs hi) :
    Tiles m lo (bs ++ cs) hi := by
  refine ⟨?_, fun x hx => ?_⟩
  · rw [List.map_append]
    exact h.adjacent.append h'.adjacent
  · rcases List.mem_append.1 hx with hx | hx
    · exact h.tagged x hx
    · exact h'.tagged x hx

/-- The tags of the blocks are read in the blocks. -/
theorem Tiles.congr (h : Tiles m lo bs hi) (hhi : hi ≤ 2 ^ 32)
    (hm : ∀ i, lo ≤ i → i < hi → m' i = m i) : Tiles m' lo bs hi := by
  refine ⟨h.adjacent, fun b hb => ?_⟩
  obtain ⟨hlo, hend⟩ := h.within hb
  exact (h.tagged b hb).congr (hend.trans hhi) fun i hi hi' =>
    hm i (hlo.trans hi) (hi'.trans_le hend)

/-- Writes in one block, which is cut up. -/
theorem Tiles.replace (h : Tiles m lo (pre ++ b :: post) hi) (hhi : hi ≤ 2 ^ 32)
    (hm : ChangesOnly m m' b.toExtent) (hcs : Tiles m' b.start cs (b.start + b.len)) :
    Tiles m' lo (pre ++ (cs ++ post)) hi := by
  have hmem : b ∈ pre ++ b :: post := List.mem_append_right _ List.mem_cons_self
  have hend := (h.within hmem).2
  have hpre := h.middle.1.congr (by omega) fun i _ hi => hm i (.inl hi)
  have hpost := h.middle.2.congr hhi fun i hi _ => hm i (.inr hi)
  exact hpre.append (hcs.append hpost)

/-- What memory says of the first blocks, it says of all. -/
theorem Tiles.eq_append (h : Tiles m lo bs hi) (h' : Tiles m lo cs mid) (hmid : mid ≤ hi) :
    ∃ rest, bs = cs ++ rest ∧ Tiles m mid rest hi := by
  induction cs generalizing lo bs with
  | nil =>
    obtain rfl : lo = mid := h'.adjacent
    exact ⟨bs, rfl, h⟩
  | cons x cs ih =>
    have hx := h'.tagged x List.mem_cons_self
    have hxs : x.start = lo := h'.adjacent.1
    have hle : lo + x.len ≤ mid := h'.adjacent.2.le
    have hroom := hx.room
    simp only [headerSize, footerSize] at hroom
    cases bs with
    | nil =>
      have hlo : lo = hi := h.adjacent
      omega
    | cons y bs =>
      have hy := h.tagged y List.mem_cons_self
      have hys : y.start = lo := h.adjacent.1
      have hlen : y.len = x.len := by rw [← hy.size, ← hx.size, hxs, hys]
      have hflag : y.allocated = x.allocated := by rw [← hy.allocated, ← hx.allocated, hxs, hys]
      obtain rfl : y = x := Block.eq_of_fields (hys.trans hxs.symm) hlen hflag
      obtain ⟨rest, rfl, hrest⟩ := ih
        ⟨h.adjacent.2, fun x hx => h.tagged x (List.mem_cons_of_mem _ hx)⟩
        ⟨h'.adjacent.2, fun x hx => h'.tagged x (List.mem_cons_of_mem _ hx)⟩
      exact ⟨rest, rfl, hrest⟩

/-- Two blocks are the same or do not overlap. -/
theorem Tiles.disjoint_of_ne {x y : Block} (h : Tiles m lo bs hi) (hx : x ∈ bs) (hy : y ∈ bs)
    (hne : x ≠ y) : x.toExtent.Disjoint y.toExtent := by
  obtain ⟨pre, post, rfl⟩ := List.append_of_mem hy
  rcases List.mem_append.1 hx with hx | hx
  · exact .inl (h.middle.1.within hx).2
  · rcases List.mem_cons.1 hx with rfl | hx
    · exact absurd rfl hne
    · exact .inr (h.middle.2.within hx).1

/-- The block that starts where `b` ends is the next one. -/
theorem Tiles.exists_behind {x : Block} (h : Tiles m lo (pre ++ b :: post) hi)
    (hx : x ∈ pre ++ b :: post) (hstart : x.start = b.start + b.len) : ∃ post', post = x :: post' := by
  have h16 : headerSize = 12 ∧ footerSize = 4 := ⟨rfl, rfl⟩
  have hroom_x := (h.tagged x hx).room
  have hroom_b := (h.tagged b (List.mem_append_right _ List.mem_cons_self)).room
  rcases List.mem_append.1 hx with hx | hx
  · have hend := (h.middle.1.within hx).2
    omega
  rcases List.mem_cons.1 hx with rfl | hx
  · omega
  cases post with
  | nil => cases hx
  | cons y post =>
    rcases List.mem_cons.1 hx with rfl | hx
    · exact ⟨post, rfl⟩
    · have hlo := (h.middle.2.adjacent.2.within _ (List.mem_map_of_mem hx)).1
      have hroom_y := (h.tagged y (by simp)).room
      omega

theorem Tiles.unique (h : Tiles m lo bs hi) (h' : Tiles m lo cs hi) : bs = cs := by
  obtain ⟨rest, rfl, hrest⟩ := h.eq_append h' le_rfl
  cases rest with
  | nil => rw [List.append_nil]
  | cons x rest =>
    have hroom := (hrest.tagged x List.mem_cons_self).room
    have hle := hrest.adjacent.2.le
    simp only [headerSize, footerSize] at hroom
    omega

end Tiles

/-- The entries for the free blocks. -/
def freeEntries (bs : List Block) : List HeapEntry :=
  (bs.filter fun b => !b.allocated).map Block.entry

/-- The heap is in order, and fits in its array. -/
structure HeapOk (h : MinHeap) : Prop where
  size : h.size ≤ heapSize
  ordered : HeapOrdered h.size h.elements

/-- The blocks fill the arena, and the heap has one entry for each free block. -/
structure Tiled (L : Layout) (s : State) (bs : List Block) : Prop where
  tiles : Tiles s.mem L.mallocBase bs arenaEnd
  heap : HeapOk s.heap
  entries : s.heap.entries.Perm (freeEntries bs)

section Tiled

variable {L : Layout} {s : State} {b : Block} {bs pre post : List Block} {e : HeapEntry}

@[simp] theorem freeEntries_append (bs cs : List Block) :
    freeEntries (bs ++ cs) = freeEntries bs ++ freeEntries cs := by
  simp [freeEntries]

@[simp] theorem freeEntries_cons (b : Block) (bs : List Block) :
    freeEntries (b :: bs) = if b.allocated then freeEntries bs else b.entry :: freeEntries bs := by
  cases h : b.allocated <;> simp [freeEntries, h]

@[simp] theorem freeEntries_nil : freeEntries [] = [] := rfl

theorem mem_freeEntries : e ∈ freeEntries bs ↔ ∃ b ∈ bs, b.allocated = false ∧ b.entry = e := by
  simp [freeEntries, and_assoc]

/-- The arena ends below `2 ^ 32`. -/
theorem Tiled.lt (h : Tiled L s bs) (hb : b ∈ bs) :
    headerSize + footerSize ≤ b.start ∧ b.start + b.len ≤ arenaEnd :=
  ⟨L.header_le.trans (h.tiles.within hb).1, (h.tiles.within hb).2⟩

/-- An entry of the heap is that of a free block. -/
theorem Tiled.exists_block (h : Tiled L s bs) (he : e ∈ s.heap.entries) :
    ∃ pre b post, bs = pre ++ b :: post ∧ b.allocated = false ∧ b.entry = e ∧
      s.heap.entries.Perm (e :: (freeEntries pre ++ freeEntries post)) := by
  obtain ⟨b, hb, hfree, rfl⟩ := mem_freeEntries.1 (h.entries.mem_iff.1 he)
  obtain ⟨pre, post, rfl⟩ := List.append_of_mem hb
  refine ⟨pre, b, post, rfl, hfree, rfl, h.entries.trans ?_⟩
  rw [freeEntries_append, freeEntries_cons, hfree]
  exact List.perm_middle

/-- Writes in the payload of a block. -/
theorem Tiled.payload {m' : Mem} (h : Tiled L s bs) (hb : b ∈ bs)
    (hm : ∀ i, i < b.start + headerSize ∨ b.start + b.len - footerSize ≤ i → m' i = s.mem i) :
    Tiled L ⟨m', s.heap⟩ bs := by
  have harena := arenaEnd_le
  have hroom := (h.tiles.tagged b hb).room
  refine ⟨⟨h.tiles.adjacent, fun x hx => ?_⟩, h.heap, h.entries⟩
  have htag := h.tiles.tagged x hx
  have hend := (h.lt hx).2.trans harena
  by_cases hxb : x = b
  · refine htag.of_tags hend fun i hi => hm i ?_
    rw [← hxb]
    omega
  · have hd := h.tiles.disjoint_of_ne hx hb hxb
    refine htag.congr hend fun i hlo hhi => hm i ?_
    unfold Extent.Disjoint at hd
    omega

end Tiled

/-! ### Small arenas -/

/-- An arena of 2 MiB. -/
def sampleLayout : Layout := ⟨0xC0200000, by decide, by decide⟩

/-- Write the header and the footer of a block. -/
def Block.write (m : Mem) (b : Block) : Mem :=
  setFooter (setSize (setMagic (setAllocated m b.start b.allocated) b.start heapMagic) b.start b.len)
    (b.start + b.len - footerSize) b.len

/-- The blocks, in memory that is zero otherwise, and the entries for the free ones. -/
def sampleState (bs : List Block) : State :=
  { mem := bs.foldl Block.write fun _ => 0
    heap := ⟨fun i => (freeEntries bs).getD i ⟨0, 0⟩, (freeEntries bs).length⟩ }

end Kernel

end Bluejay
