import Bluejay.Kernel.Alloc
import Bluejay.Lib.Extents
import Mathlib.Tactic.NormNum

/-!
# When the allocator is safe

The blocks in use and the free holes of a safe allocator are a partition of the arena:
`Models L c P` ties the bytes and the heap of `c` to a `Partition` of
`[malloc_base, 0xC0400000)`.  It asks for the size fields in the headers only; footers,
`magic` and `allocated` may hold anything.

* `Safe` : live blocks do not overlap, lie in the arena and avoid every hole in the heap.
* `CallOk` : the call stays clear of the places where the bookkeeping goes wrong: a request
  whose full size wraps, `heap_delete` of an entry other than the root or of the only entry,
  coalescing in `free`, growth in place and shrinking moves in `realloc`.
* `models_malloc`, `models_free`, `models_payload` : what one call keeps; `safe_of_callOk`, the
  run lemma.
* `not_safe_of_coalescing` : without the condition, `malloc` returns a block that is in use.
-/

namespace Bluejay

namespace Kernel

/-- The extent of the block whose payload is at `p`, by its header. -/
def extent (m : Mem) (p : ℕ) : Extent := ⟨blockOf p, size m (blockOf p)⟩

/-- The live blocks. -/
def Clients.blocks (c : Clients) : List Extent := c.live.map fun x => extent c.state.mem x.1

/-- The range of a heap entry. -/
def HeapEntry.hole (e : HeapEntry) : Extent := ⟨e.address, e.key⟩

/-- Live blocks do not overlap, lie in the arena, and avoid the holes. -/
def Safe (L : Layout) (c : Clients) : Prop :=
  c.blocks.Pairwise Extent.Disjoint ∧
    (∀ b ∈ c.blocks, b.Within L.mallocBase arenaEnd) ∧
    ∀ b ∈ c.blocks, ∀ e ∈ c.state.heap.entries, b.Disjoint e.hole

/-- The full size of the request does not wrap, and a hole that is used up is the root of the
heap and not the only entry. -/
def MallocOk (s : State) (n : ℕ) : Prop :=
  n + headerSize + footerSize < 2 ^ 32 ∧
    ∀ e i heap, heapLookupMin s.heap (n + headerSize + footerSize) false =
      .ok (some (e, i), heap) →
      size s.mem e.address ≤ n + headerSize + footerSize + (headerSize + footerSize + 8) →
      i = 0 ∧ 1 < s.heap.size

/-- Neither neighbour is taken for a free block. -/
def FreeOk (m : Mem) (p : ℕ) : Prop :=
  isFree m (prevHeader m p) = false ∧ isFree m (nextHeader m p) = false

/-- The block moves, to one that is no smaller, and `malloc` and `free` are in order. -/
def ReallocOk (s : State) (p n : ℕ) : Prop :=
  growsInPlace s.mem p n = false ∧ size s.mem (blockOf p) ≤ n + headerSize + footerSize ∧
    MallocOk s n ∧
    ∀ new s₁, malloc s n = .ok (new, s₁) → FreeOk (copyPayload s₁ new p).mem p

/-- The call keeps clear of the defects. -/
def CallOk (c : Clients) : Call → Prop
  | .malloc n => MallocOk c.state n
  | .free p => FreeOk c.state.mem p
  | .realloc p n => ReallocOk c.state p n
  | .write _ _ => True

/-! ### What the writes touch -/

/-- `m'` differs from `m` inside `a` at most. -/
def ChangesOnly (m m' : Mem) (a : Extent) : Prop :=
  ∀ i, i < a.start ∨ a.start + a.len ≤ i → m' i = m i

/-- The extent lies in the 32-bit address space and holds a header and a footer. -/
def Fits (a : Extent) : Prop := headerSize + footerSize ≤ a.len ∧ a.start + a.len ≤ 2 ^ 32

theorem size_of_changesOnly {m m' : Mem} {a b : Extent} (hm : ChangesOnly m m' a)
    (hb : Fits b) (hd : b.Disjoint a) : size m' b.start = size m b.start := by
  simp only [Fits, Extent.Disjoint, headerSize, footerSize] at hb hd
  have hu : u32 (b.start + 8) = b.start + 8 := u32_of_lt (by omega)
  simp only [size, hu]
  exact Mem.loadLE_congr fun i h₁ h₂ => hm i (by omega)

theorem size_setSize {m : Mem} {h v : ℕ} (hv : v < 2 ^ 32) : size (setSize m h v) h = v := by
  rw [size, setSize, Mem.loadLE_storeLE]
  exact Nat.mod_eq_of_lt hv

theorem size_lt (m : Mem) (h : ℕ) : size m h < 2 ^ 32 := Mem.loadLE_lt _ _ 4

theorem changesOnly_setSize (m : Mem) {h v : ℕ} (hh : h + headerSize ≤ 2 ^ 32) :
    ChangesOnly m (setSize m h v) ⟨h, headerSize⟩ := fun i hi => by
  simp only [headerSize] at hh hi
  have hu : u32 (h + 8) = h + 8 := u32_of_lt (by omega)
  rw [setSize, hu, Mem.storeLE_of_out (by omega)]

theorem changesOnly_setMagic (m : Mem) {h v : ℕ} :
    ChangesOnly m (setMagic m h v) ⟨h, headerSize⟩ := fun i hi => by
  simp only [headerSize] at hi
  rw [setMagic, Mem.storeLE_of_out (by omega)]

theorem changesOnly_setAllocated (m : Mem) {h : ℕ} {b : Bool} (hh : h + headerSize ≤ 2 ^ 32) :
    ChangesOnly m (setAllocated m h b) ⟨h, headerSize⟩ := fun i hi => by
  simp only [headerSize] at hh hi
  have hu : u32 (h + 4) = h + 4 := u32_of_lt (by omega)
  rw [setAllocated, hu, Mem.storeLE_of_out (by omega)]

theorem changesOnly_setFooter (m : Mem) {f v : ℕ} :
    ChangesOnly m (setFooter m f v) ⟨f, footerSize⟩ := fun i hi => by
  simp only [footerSize] at hi
  rw [setFooter, Mem.storeLE_of_out (by omega)]

theorem ChangesOnly.mono {m m' : Mem} {a b : Extent} (h : ChangesOnly m m' a)
    (hab : b.start ≤ a.start ∧ a.start + a.len ≤ b.start + b.len) : ChangesOnly m m' b :=
  fun i hi => h i (by omega)

theorem ChangesOnly.trans {m m' m'' : Mem} {a : Extent} (h : ChangesOnly m m' a)
    (h' : ChangesOnly m' m'' a) : ChangesOnly m m'' a :=
  fun i hi => (h' i hi).trans (h i hi)

/-- `claim` writes inside the block it claims. -/
theorem changesOnly_claim (m : Mem) {a : Extent} (ha : Fits a) :
    ChangesOnly m (claim m a.start a.len) a := by
  simp only [Fits, headerSize, footerSize] at ha
  have hf : sub32 (a.start + a.len) footerSize = a.start + a.len - 4 := by
    unfold sub32 footerSize; omega
  have hh : a.start + headerSize ≤ 2 ^ 32 := by simp only [headerSize]; omega
  have hin : a.start ≤ a.start ∧ a.start + headerSize ≤ a.start + a.len := by
    simp only [headerSize]; omega
  simp only [claim, hf]
  refine (((changesOnly_setAllocated m hh).mono hin).trans
    ((changesOnly_setMagic _).mono hin)).trans (((changesOnly_setSize _ hh).mono hin).trans
    ((changesOnly_setFooter _).mono ?_))
  simp only [footerSize]; omega

theorem size_claim (m : Mem) {a : Extent} (ha : Fits a) (hl : a.len < 2 ^ 32) :
    size (claim m a.start a.len) a.start = a.len := by
  simp only [Fits, headerSize, footerSize] at ha
  have hf : sub32 (a.start + a.len) footerSize = a.start + a.len - 4 := by
    unfold sub32 footerSize; omega
  have hu : u32 (a.start + 8) = a.start + 8 := u32_of_lt (by omega)
  have hs := size_setSize (m := setMagic (setAllocated m a.start true) a.start heapMagic)
    (h := a.start) hl
  refine Eq.trans ?_ hs
  simp only [claim, size, setFooter, hf, hu]
  exact Mem.loadLE_storeLE_of_disjoint (by omega)

/-- The writes of a split: the header and the footer of the remainder, then the block. -/
theorem split_writes (m : Mem) {e : Extent} {k : ℕ} (hk : headerSize + footerSize ≤ k)
    (hr : k + headerSize + footerSize ≤ e.len) (he : Fits e) :
    ∀ m', m' = claim (setFooter (setSize m (e.start + k) (e.len - k))
        (sub32 (e.start + e.len) footerSize) (e.len - k)) e.start k →
      ChangesOnly m m' e ∧ size m' e.start = k ∧ size m' (e.start + k) = e.len - k := by
  simp only [Fits, headerSize, footerSize] at hk hr he
  have hf : sub32 (e.start + e.len) footerSize = e.start + e.len - 4 := by
    unfold sub32 footerSize; omega
  rintro m' rfl
  rw [hf]
  set m₁ := setSize m (e.start + k) (e.len - k) with hm₁
  set m₂ := setFooter m₁ (e.start + e.len - 4) (e.len - k) with hm₂
  have hfront : Fits (e.front k) := by
    simp only [Fits, Extent.front, headerSize, footerSize]; omega
  have hrest : Fits (e.rest k) := by
    simp only [Fits, Extent.rest, headerSize, footerSize]; omega
  have hc : ChangesOnly m₂ (claim m₂ e.start k) (e.front k) :=
    changesOnly_claim m₂ (a := e.front k) hfront
  have h₁ : ChangesOnly m m₁ ⟨e.start + k, headerSize⟩ :=
    changesOnly_setSize m (by simp only [headerSize]; omega)
  have h₂ : ChangesOnly m₁ m₂ ⟨e.start + e.len - 4, footerSize⟩ := changesOnly_setFooter m₁
  refine ⟨(h₁.mono ?_).trans ((h₂.mono ?_).trans (hc.mono ?_)),
    size_claim m₂ (a := e.front k) hfront (by simp only [Extent.front]; omega), ?_⟩
  · simp only [headerSize]; omega
  · simp only [footerSize]; omega
  · simp only [Extent.front]; omega
  · -- neither the new block nor the footer reaches the remainder's header
    have hsz : size m₁ (e.start + k) = e.len - k := size_setSize (by omega)
    have hu : u32 (e.start + k + 8) = e.start + k + 8 := u32_of_lt (by omega)
    refine (size_of_changesOnly hc hrest Extent.front_disjoint_rest.symm).trans ?_
    rw [← hsz]
    simp only [Extent.rest, size, hu]
    exact Mem.loadLE_congr fun i _ _ => h₂ i (by dsimp only; omega)

/-! ### The arena as a partition -/

/-- The bytes and the heap of `c` represent the partition `P` of the arena. -/
structure Models (L : Layout) (c : Clients) (P : Partition L.mallocBase arenaEnd) : Prop where
  used : P.used.Perm c.blocks
  free : P.free.Perm (c.state.heap.entries.map HeapEntry.hole)
  heap_size : c.state.heap.size ≤ heapSize
  live : ∀ x ∈ c.live, (headerSize ≤ x.1 ∧ x.1 < 2 ^ 32) ∧
    x.2 + headerSize + footerSize ≤ size c.state.mem (blockOf x.1)
  hole : ∀ e ∈ c.state.heap.entries, headerSize + footerSize ≤ e.key ∧
    size c.state.mem e.address = e.key

variable {L : Layout} {P : Partition L.mallocBase arenaEnd}

theorem Models.safe {c : Clients} (h : Models L c P) : Safe L c := by
  refine ⟨Partition.pairwise_of_perm P.used_pairwise h.used, fun b hb => ?_, fun b hb e he => ?_⟩
  · exact P.within b (List.mem_append_left _ (h.used.mem_iff.2 hb))
  · exact P.used_disjoint_free (h.used.mem_iff.2 hb)
      (h.free.mem_iff.2 (List.mem_map_of_mem he))

theorem arenaEnd_le : arenaEnd ≤ 2 ^ 32 := by norm_num [arenaEnd]

/-- Live blocks and holes hold a header and a footer, inside the address space. -/
theorem fits_of_within {a : Extent} (ha : a.Within L.mallocBase arenaEnd)
    (hl : headerSize + footerSize ≤ a.len) : Fits a :=
  ⟨hl, Nat.le_trans ha.2 arenaEnd_le⟩

theorem mem_blocks {c : Clients} {x : ℕ × ℕ} (hx : x ∈ c.live) :
    extent c.state.mem x.1 ∈ c.blocks :=
  List.mem_map.2 ⟨x, hx, rfl⟩

theorem Models.fits_block {c : Clients} (h : Models L c P) {x : ℕ × ℕ} (hx : x ∈ c.live) :
    Fits (extent c.state.mem x.1) := by
  have hw := h.safe.2.1 _ (mem_blocks hx)
  have := (h.live x hx).2
  exact fits_of_within hw (by simp only [extent]; omega)

theorem Models.within_hole {c : Clients} (h : Models L c P) {e : HeapEntry}
    (he : e ∈ c.state.heap.entries) : e.hole.Within L.mallocBase arenaEnd :=
  P.within _ (List.mem_append_right _ (h.free.mem_iff.2 (List.mem_map_of_mem he)))

theorem Models.fits_hole {c : Clients} (h : Models L c P) {e : HeapEntry}
    (he : e ∈ c.state.heap.entries) : Fits e.hole :=
  fits_of_within (h.within_hole he) (h.hole e he).1

/-- Writes that no live block overlaps leave the live blocks as they are. -/
theorem Models.blocks_congr {c : Clients} (h : Models L c P) {m' : Mem} {a : Extent}
    (hm : ChangesOnly c.state.mem m' a) (hd : ∀ b ∈ c.blocks, b.Disjoint a) :
    ∀ x ∈ c.live, extent m' x.1 = extent c.state.mem x.1 := fun x hx => by
  have hs := size_of_changesOnly hm (h.fits_block hx) (hd _ (mem_blocks hx))
  simp only [extent] at hs ⊢
  rw [hs]

/-! ### `malloc` -/

/-- What `malloc` does: a hole `e` is used up, or its front is split off. -/
theorem malloc_cases {s s' : State} {n p : ℕ} (h : malloc s n = .ok (p, s'))
    (hn : n + headerSize + footerSize < 2 ^ 32) :
    ∃ e i, i < s.heap.size ∧ e = s.heap.elements i ∧ n + headerSize + footerSize ≤ e.key ∧
      heapLookupMin s.heap (n + headerSize + footerSize) false =
        .ok (some (e, i), s.heap) ∧
      mallocIn s e i (n + headerSize + footerSize) = .ok (p, s') := by
  unfold malloc at h
  rw [u32_of_lt hn] at h
  dsimp only at h
  split at h
  · rename_i e i heap hl
    obtain ⟨rfl, hi, he, hk⟩ := heapLookupMin_spec hl
    split_ifs at h
    exact ⟨e, i, hi, he, hk, hl, h⟩
  · cases h
  · cases h

/-- Writes inside the hole `e` leave the live blocks and the other holes as they are. -/
theorem Models.others {c : Clients} (h : Models L c P) {e : HeapEntry} {rest : List HeapEntry}
    {m' : Mem} (hp : c.state.heap.entries.Perm (e :: rest))
    (hm : ChangesOnly c.state.mem m' e.hole) :
    (∀ x ∈ c.live, extent m' x.1 = extent c.state.mem x.1) ∧
      ∀ e' ∈ rest, headerSize + footerSize ≤ e'.key ∧ size m' e'.address = e'.key := by
  have he : e ∈ c.state.heap.entries := hp.mem_iff.2 List.mem_cons_self
  refine ⟨h.blocks_congr hm fun b hb => h.safe.2.2 b hb e he, fun e' he' => ?_⟩
  have he'' : e' ∈ c.state.heap.entries := hp.mem_iff.2 (List.mem_cons_of_mem _ he')
  obtain ⟨hk, hz⟩ := h.hole e' he''
  have hd : (e.hole :: rest.map HeapEntry.hole).Pairwise Extent.Disjoint :=
    Partition.pairwise_of_perm (List.pairwise_append.1 P.disjoint).2.1
      (h.free.trans (hp.map HeapEntry.hole))
  have hdis := (List.pairwise_cons.1 hd).1 _ (List.mem_map_of_mem he')
  exact ⟨hk, (size_of_changesOnly hm (h.fits_hole he'') hdis.symm).trans hz⟩

/-- The payload of a block put at the hole `e`. -/
theorem Models.payload {c : Clients} (h : Models L c P) {e : HeapEntry}
    (he : e ∈ c.state.heap.entries) :
    u32 (e.address + headerSize) = e.address + headerSize ∧
      blockOf (e.address + headerSize) = e.address := by
  have hfit := h.fits_hole he
  simp only [Fits, HeapEntry.hole, headerSize, footerSize] at hfit
  simp only [blockOf, sub32, headerSize, u32]
  omega

/-- The hole `e` becomes a block; the others stay as they are. -/
theorem Models.take {c : Clients} (h : Models L c P) {e : HeapEntry} {n : ℕ}
    (hn : n + headerSize + footerSize ≤ e.key) {heap : MinHeap} {m' : Mem}
    (hp : c.state.heap.entries.Perm (e :: heap.entries)) (hs : heap.size ≤ heapSize)
    (hm : ChangesOnly c.state.mem m' e.hole) (hsize : size m' e.address = e.key) :
    (∃ P', Models L ⟨⟨m', heap⟩, (u32 (e.address + headerSize), n) :: c.live⟩ P') ∧
      ∀ x ∈ c.live, extent m' x.1 = extent c.state.mem x.1 := by
  have he : e ∈ c.state.heap.entries := hp.mem_iff.2 List.mem_cons_self
  obtain ⟨hu, hb⟩ := h.payload he
  obtain ⟨hblocks, hholes⟩ := h.others hp hm
  have hfree : P.free.Perm (e.hole :: heap.entries.map HeapEntry.hole) :=
    h.free.trans (hp.map HeapEntry.hole)
  refine ⟨⟨P.take hfree, ?_, List.Perm.refl _, hs, fun x hx => ?_, hholes⟩, hblocks⟩
  · have hnew : extent m' (e.address + headerSize) = e.hole := by
      rw [extent, hb, hsize, HeapEntry.hole]
    simp only [Clients.blocks, List.map_cons, hu, hnew, Partition.take]
    rw [List.map_congr_left hblocks]
    exact h.used.cons _
  · rcases List.mem_cons.1 hx with rfl | hx
    · have hlt : u32 (e.address + headerSize) < 2 ^ 32 := u32_lt _
      rw [hu] at hlt
      simp only [hu, hb, hsize]
      exact ⟨⟨Nat.le_add_left _ _, hlt⟩, hn⟩
    · have := congrArg Extent.len (hblocks x hx)
      simp only [extent] at this
      rw [this]
      exact h.live x hx

/-- The front of the hole `e` becomes a block; the others stay as they are. -/
theorem Models.split {c : Clients} (h : Models L c P) {e : HeapEntry} {rest : List HeapEntry}
    {n k : ℕ} (hn : n + headerSize + footerSize ≤ k)
    (hk : k + headerSize + footerSize ≤ e.key) {heap : MinHeap} {m' : Mem}
    (hp : c.state.heap.entries.Perm (e :: rest))
    (hp' : heap.entries.Perm (⟨e.key - k, e.address + k⟩ :: rest)) (hs : heap.size ≤ heapSize)
    (hm : ChangesOnly c.state.mem m' e.hole) (hsize : size m' e.address = k)
    (hrest : size m' (e.address + k) = e.key - k) :
    (∃ P', Models L ⟨⟨m', heap⟩, (u32 (e.address + headerSize), n) :: c.live⟩ P') ∧
      ∀ x ∈ c.live, extent m' x.1 = extent c.state.mem x.1 := by
  have he : e ∈ c.state.heap.entries := hp.mem_iff.2 List.mem_cons_self
  obtain ⟨hu, hb⟩ := h.payload he
  obtain ⟨hblocks, hholes⟩ := h.others hp hm
  have hfree : P.free.Perm (e.hole :: rest.map HeapEntry.hole) :=
    h.free.trans (hp.map HeapEntry.hole)
  have hle : k ≤ e.hole.len := by simp only [HeapEntry.hole]; omega
  refine ⟨⟨P.split hfree hle, ?_, (hp'.map HeapEntry.hole).symm, hs, fun x hx => ?_,
    fun e' he' => ?_⟩, hblocks⟩
  · have hnew : extent m' (e.address + headerSize) = e.hole.front k := by
      rw [extent, hb, hsize, HeapEntry.hole, Extent.front]
    simp only [Clients.blocks, List.map_cons, hu, hnew, Partition.split]
    rw [List.map_congr_left hblocks]
    exact h.used.cons _
  · rcases List.mem_cons.1 hx with rfl | hx
    · have hlt : u32 (e.address + headerSize) < 2 ^ 32 := u32_lt _
      rw [hu] at hlt
      simp only [hu, hb, hsize]
      exact ⟨⟨Nat.le_add_left _ _, hlt⟩, hn⟩
    · have := congrArg Extent.len (hblocks x hx)
      simp only [extent] at this
      rw [this]
      exact h.live x hx
  · rcases List.mem_cons.1 (hp'.mem_iff.1 he') with rfl | he'
    · exact ⟨by dsimp only; omega, hrest⟩
    · exact hholes e' he'

/-- **`malloc` keeps the partition**, when no full size wraps and no hole but the root is
used up.  The live blocks stay as they are. -/
theorem models_malloc {s s' : State} {live : List (ℕ × ℕ)} {n p : ℕ}
    (h : Models L ⟨s, live⟩ P) (hok : MallocOk s n) (hr : malloc s n = .ok (p, s')) :
    (∃ P', Models L ⟨s', (p, n) :: live⟩ P') ∧
      ∀ x ∈ live, extent s'.mem x.1 = extent s.mem x.1 := by
  obtain ⟨hw, hroot⟩ := hok
  obtain ⟨e, i, hi, he, hk, hl, hin⟩ := malloc_cases hr hw
  have hmem : e ∈ s.heap.entries := by
    rw [he]; exact List.mem_map_of_mem (List.mem_range.2 hi)
  obtain ⟨-, hsz⟩ := h.hole e hmem
  dsimp only at hsz
  have hfit := h.fits_hole hmem
  have hwin := h.within_hole hmem
  -- a hole that is used up leaves the heap, and it is the root
  have hdel : ∀ heap, e.key ≤ n + headerSize + footerSize + (headerSize + footerSize + 8) →
      heapDelete s.heap i = .ok heap →
      s.heap.entries.Perm (e :: heap.entries) ∧ heap.size ≤ heapSize := by
    intro heap hle hd
    obtain ⟨rfl, h₁⟩ := hroot e i s.heap hl (hsz ▸ hle)
    exact ⟨he ▸ entries_heapDelete_zero h₁ h.heap_size hd, Nat.le_of_lt (heapDelete_size (by omega) hd)⟩
  have hfull : e.key < 2 ^ 32 := hsz ▸ size_lt _ _
  have hadr : e.address + e.key ≤ arenaEnd := hwin.2
  have hend := arenaEnd_le
  have hH : headerSize = 12 := rfl
  have hF : footerSize = 4 := rfl
  unfold mallocIn at hin
  simp only [hsz] at hin
  split_ifs at hin with hexact hsmall
  · -- exact fit: nothing is written
    cases hd : heapDelete s.heap i with
    | error => rw [hd] at hin; cases hin
    | ok heap =>
      rw [hd] at hin
      cases hin
      obtain ⟨hp, hs⟩ := hdel heap (by omega) hd
      exact h.take hk hp hs (fun _ _ => rfl) hsz
  · -- the remainder is too small for a block of its own
    rw [sub32_of_le hk hfull] at hsmall
    cases hd : heapDelete s.heap i with
    | error => rw [hd] at hin; cases hin
    | ok heap =>
      rw [hd] at hin
      cases hin
      obtain ⟨hp, hs⟩ := hdel heap (by omega) hd
      exact h.take hk hp hs (changesOnly_claim s.mem (a := e.hole) hfit)
        (size_claim s.mem (a := e.hole) hfit hfull)
  · -- the front of the hole is split off
    rw [sub32_of_le hk hfull] at hsmall hin
    set k := n + headerSize + footerSize with hkdef
    have hu : u32 (e.address + k) = e.address + k := u32_of_lt (by omega)
    rw [hu] at hin
    cases hd : heapDecrease s.heap i ⟨e.key - k, e.address + k⟩ with
    | error => rw [hd] at hin; cases hin
    | ok heap =>
      rw [hd] at hin
      cases hin
      obtain ⟨rest, hp, hp'⟩ := entries_heapDecrease hi hd
      have hs : heap.size ≤ heapSize := (heapDecrease_size hd).trans_le h.heap_size
      rw [← he] at hp
      obtain ⟨hm, hsize, hrest⟩ := split_writes s.mem (e := e.hole) (k := k) (by omega)
        (by simp only [HeapEntry.hole]; omega) hfit _ rfl
      exact h.split (Nat.le_refl _) (by omega) hp hp' hs hm hsize hrest

/-! ### Writes, `free`, `realloc` -/

/-- Two live blocks are the same or do not overlap. -/
theorem Models.eq_or_disjoint {c : Clients} (h : Models L c P) {a b : Extent}
    (ha : a ∈ c.blocks) (hb : b ∈ c.blocks) : a = b ∨ a.Disjoint b := by
  by_cases hab : a = b
  · exact Or.inl hab
  · exact Or.inr (h.safe.1.forall ha hb hab)

theorem Models.ne_zero {c : Clients} (h : Models L c P) {x : ℕ × ℕ} (hx : x ∈ c.live) :
    x.1 ≠ 0 := by
  have hle := (h.live x hx).1.1
  have hH : headerSize = 12 := rfl
  omega

/-- **A client's write keeps the partition.** -/
theorem models_payload {s : State} {live : List (ℕ × ℕ)} (h : Models L ⟨s, live⟩ P)
    {p n : ℕ} (hp : (p, n) ∈ live) {m' : Mem} (hm : ChangesOnly s.mem m' ⟨p, n⟩) :
    Models L ⟨{ s with mem := m' }, live⟩ P := by
  have hfit := h.fits_block hp
  obtain ⟨⟨h12, hlt⟩, hroom⟩ := h.live _ hp
  have hH : headerSize = 12 := rfl
  have hF : footerSize = 4 := rfl
  have hw := h.safe.2.1 _ (mem_blocks hp)
  dsimp only [Fits, extent, Extent.Within] at hfit h12 hlt hroom hw
  have hb : blockOf p + headerSize = p := by
    have := L.header_le
    have hend := arenaEnd_le
    unfold blockOf sub32 at *
    omega
  have hin : ChangesOnly s.mem m' (extent s.mem p) :=
    hm.mono (by simp only [extent]; omega)
  have hblocks : ∀ x ∈ live, extent m' x.1 = extent s.mem x.1 := fun x hx => by
    rcases h.eq_or_disjoint (mem_blocks hx) (mem_blocks hp) with heq | hd
    · -- the write is behind the header of its own block
      have hstart := congrArg Extent.start heq
      simp only [extent] at hstart
      have hu : u32 (blockOf p + 8) = blockOf p + 8 := u32_of_lt (by omega)
      have hs : size m' (blockOf p) = size s.mem (blockOf p) := by
        simp only [size, hu]
        exact Mem.loadLE_congr fun i _ _ => hm i (by dsimp only; omega)
      simp only [extent, hstart, hs]
    · have hs := size_of_changesOnly hin (h.fits_block hx) hd
      simp only [extent] at hs ⊢
      rw [hs]
  refine ⟨?_, h.free, h.heap_size, fun x hx => ?_, fun e he => ?_⟩
  · simp only [Clients.blocks]
    rw [List.map_congr_left hblocks]
    exact h.used
  · have := congrArg Extent.len (hblocks x hx)
    simp only [extent] at this
    rw [this]
    exact h.live x hx
  · obtain ⟨hk, hz⟩ := h.hole e he
    have hd := h.safe.2.2 _ (mem_blocks hp) e he
    exact ⟨hk, (size_of_changesOnly hin (h.fits_hole he) hd.symm).trans hz⟩

/-- **`free` keeps the partition**, when neither neighbour is coalesced. -/
theorem models_free {s s' : State} {live live' : List (ℕ × ℕ)} {p n : ℕ}
    (h : Models L ⟨s, live⟩ P) (hl : live.Perm ((p, n) :: live')) (hok : FreeOk s.mem p)
    (hr : free s p = .ok s') : ∃ P', Models L ⟨s', live'⟩ P' := by
  have hp : (p, n) ∈ live := hl.mem_iff.2 List.mem_cons_self
  have hsub : ∀ x ∈ live', x ∈ live := fun x hx => hl.mem_iff.2 (List.mem_cons_of_mem _ hx)
  have hfit := h.fits_block hp
  have h0 : p ≠ 0 := h.ne_zero hp
  unfold free at hr
  rw [if_neg h0] at hr
  dsimp only at hr
  simp only [hok.1, hok.2, Bool.false_eq_true, if_false] at hr
  split_ifs at hr
  set sz := size s.mem (blockOf p) with hsz
  set m' := setSize (setMagic (setAllocated s.mem (blockOf p) false) (blockOf p) heapMagic)
    (blockOf p) sz with hm'
  cases hi : heapInsert s.heap ⟨sz, blockOf p⟩ with
  | error => rw [hi] at hr; cases hr
  | ok heap =>
    rw [hi] at hr
    cases hr
    dsimp only at hfit
    have hin : headerSize ≤ (extent s.mem p).len := by
      have := hfit.1
      omega
    have hh : blockOf p + headerSize ≤ 2 ^ 32 := by
      have := hfit.2
      simp only [extent] at this hin
      omega
    have hm : ChangesOnly s.mem m' (extent s.mem p) :=
      (((changesOnly_setAllocated _ hh).trans (changesOnly_setMagic _)).trans
        (changesOnly_setSize _ hh)).mono ⟨Nat.le_refl _, Nat.add_le_add_left hin _⟩
    have hused : P.used.Perm (extent s.mem p :: live'.map fun x => extent s.mem x.1) :=
      h.used.trans (hl.map _)
    have hblocks : ∀ x ∈ live', extent m' x.1 = extent s.mem x.1 := fun x hx => by
      have hd := (List.pairwise_cons.1 (Partition.pairwise_of_perm P.used_pairwise hused)).1 _
        (List.mem_map_of_mem (f := fun x : ℕ × ℕ => extent s.mem x.1) hx)
      have hs := size_of_changesOnly hm (h.fits_block (hsub x hx)) hd.symm
      simp only [extent] at hs ⊢
      rw [hs]
    refine ⟨P.release hused, ?_, ?_, heapInsert_size hi, fun x hx => ?_, fun e he => ?_⟩
    · simp only [Clients.blocks, Partition.release]
      rw [List.map_congr_left hblocks]
    · exact (h.free.cons _).trans ((entries_heapInsert hi).map HeapEntry.hole).symm
    · have := congrArg Extent.len (hblocks x hx)
      simp only [extent] at this
      rw [this]
      exact h.live x (hsub x hx)
    · rcases List.mem_cons.1 ((entries_heapInsert hi).mem_iff.1 he) with rfl | he
      · exact ⟨hfit.1, size_setSize (size_lt _ _)⟩
      · obtain ⟨hk, hz⟩ := h.hole e he
        have hd := h.safe.2.2 _ (mem_blocks hp) e he
        exact ⟨hk, (size_of_changesOnly hm (h.fits_hole he) hd.symm).trans hz⟩

/-- **`realloc` keeps the partition**, when it moves the block to one that is no smaller. -/
theorem models_realloc {s s' : State} {live : List (ℕ × ℕ)} {p m n q : ℕ}
    (h : Models L ⟨s, live⟩ P) (hp : (p, m) ∈ live) (hok : ReallocOk s p n)
    (hr : realloc s p n = .ok (q, s')) :
    ∃ P', Models L ⟨s', (q, n) :: live.erase (p, m)⟩ P' := by
  obtain ⟨hgrow, hroom, hmalloc, hfree⟩ := hok
  have h0 : p ≠ 0 := (h.ne_zero hp)
  unfold realloc at hr
  rw [if_neg h0, hgrow] at hr
  simp only [Bool.false_eq_true, if_false] at hr
  cases hm : malloc s n with
  | error => rw [hm] at hr; cases hr
  | ok r =>
    obtain ⟨new, s₁⟩ := r
    rw [hm] at hr
    dsimp only at hr
    obtain ⟨⟨P₁, h₁⟩, hkeep⟩ := models_malloc h hmalloc hm
    have hnew : new ≠ 0 := h₁.ne_zero List.mem_cons_self
    rw [if_neg hnew] at hr
    cases hf : free (copyPayload s₁ new p) p with
    | error => rw [hf] at hr; cases hr
    | ok s₂ =>
      rw [hf] at hr
      cases hr
      -- the bytes copied fit in the new payload
      have hsize := congrArg Extent.len (hkeep _ hp)
      simp only [extent] at hsize
      have hk := (h.live _ hp).2
      have hlt := size_lt s.mem (blockOf p)
      dsimp only at hk
      have hcopy : copyPayload s₁ q p = { s₁ with
          mem := s₁.mem.memcpy q p (size s.mem (blockOf p) - (headerSize + footerSize)) } := by
        rw [copyPayload, hsize, sub32_of_le (by omega) hlt]
      have hout : ∀ i, i < q ∨ q + n ≤ i → s₁.mem.memcpy q p
          (size s.mem (blockOf p) - (headerSize + footerSize)) i = s₁.mem i :=
        fun i hi => Mem.memcpy_of_out (by omega)
      have h₂ := models_payload h₁ List.mem_cons_self hout
      rw [← hcopy] at h₂
      have hl : ((q, n) :: live).Perm ((p, m) :: (q, n) :: live.erase (p, m)) :=
        ((List.perm_cons_erase hp).cons _).trans (List.Perm.swap _ _ _)
      exact models_free h₂ hl (hfree q s₁ hm) hf

/-! ### Runs -/

/-- `init_allocator` makes one hole of the whole arena. -/
theorem models_start (L : Layout) (m : Mem) : ∃ P, Models L (start L m) P := by
  have hend := arenaEnd_le
  obtain ⟨hroom, hH, hF⟩ : L.mallocBase + headerSize + footerSize ≤ arenaEnd ∧
    headerSize = 12 ∧ footerSize = 4 := ⟨L.room, rfl, rfl⟩
  have hlt : arenaEnd - L.mallocBase < 2 ^ 32 := by have := L.header_le; omega
  have hsize : size (start L m).state.mem L.mallocBase = arenaEnd - L.mallocBase := by
    have hu : u32 (L.mallocBase + 8) = L.mallocBase + 8 := u32_of_lt (by omega)
    have hu' : u32 (L.mallocBase + 4) = L.mallocBase + 4 := u32_of_lt (by omega)
    simp only [start, initAllocator, size, setAllocated, setSize, hu, hu']
    rw [Mem.loadLE_storeLE_of_disjoint (by omega), Mem.loadLE_storeLE]
    exact Nat.mod_eq_of_lt hlt
  have hsum : L.mallocBase + (arenaEnd - L.mallocBase) ≤ arenaEnd := by omega
  let P : Partition L.mallocBase arenaEnd :=
    { used := []
      free := [⟨L.mallocBase, arenaEnd - L.mallocBase⟩]
      disjoint := List.pairwise_singleton _ _
      within := fun a ha => by
        rw [List.nil_append, List.mem_singleton] at ha
        rw [ha]
        exact ⟨Nat.le_refl _, hsum⟩ }
  have he : (start L m).state.heap.entries =
      [⟨arenaEnd - L.mallocBase, L.mallocBase⟩] := by
    simp [start, initAllocator, MinHeap.entries, List.range_succ]
  refine ⟨P, List.Perm.refl _, ?_, ?_, fun x hx => absurd hx List.not_mem_nil, fun e h => ?_⟩
  · rw [he]
    exact List.Perm.refl _
  · exact (by decide : 1 ≤ heapSize)
  · rw [he, List.mem_singleton] at h
    rw [h]
    exact ⟨by dsimp only; omega, hsize⟩

/-- The step lemma: a call that meets the condition keeps the partition. -/
theorem models_step {c c' : Clients} {l : Call} (h : ∃ P, Models L c P) (hok : CallOk c l)
    (hs : calls.step c l c') : ∃ P, Models L c' P := by
  obtain ⟨P, h⟩ := h
  cases hs with
  | malloc hn hr => exact (models_malloc h hok hr).1
  | free hp hr => exact models_free h (List.perm_cons_erase hp) hok hr
  | realloc hp hn hr => exact models_realloc h hp hok hr
  | write hp ha =>
    refine ⟨P, models_payload h hp fun i hi => ?_⟩
    exact Function.update_of_ne (by dsimp only at hi; omega) _ _

/-- **The allocator is safe in every run whose calls all meet the condition.** -/
theorem safe_of_callOk {L : Layout} {m : Mem} {c : Clients}
    (h : (calls.guard CallOk).Reachable (start L m) c) : Safe L c := by
  obtain ⟨P, hP⟩ := h.invariant (I := fun c => ∃ P, Models L c P) (models_start L m)
    fun c l c' hc hs => models_step hc hs.1 hs.2
  exact hP.safe

/-- One block is handed out and taken back. -/
theorem safe_malloc_free : ∃ c, (start ⟨0xC0200000, by decide, by decide⟩ fun _ => 0).run
    [.malloc 16, .free 0xC020000C] = some c ∧ Safe ⟨0xC0200000, by decide, by decide⟩ c := by
  let L : Layout := ⟨0xC0200000, by decide, by decide⟩
  let c₀ := start L fun _ => 0
  have hmalloc : CallOk c₀ (.malloc 16) := by
    refine ⟨by decide, fun e i heap hl hs => ?_⟩
    obtain ⟨-, hi, rfl, -⟩ := heapLookupMin_spec hl
    obtain rfl : i = 0 := Nat.lt_one_iff.1 hi
    exact absurd hs (by decide)
  have hfree : ((c₀.call (.malloc 16)).all fun c =>
      decide (isFree c.state.mem (prevHeader c.state.mem 0xC020000C) = false ∧
        isFree c.state.mem (nextHeader c.state.mem 0xC020000C) = false)) = true := by
    decide
  have hrun : (c₀.run [.malloc 16, .free 0xC020000C]).isSome = true := by decide
  obtain ⟨c₂, hc₂⟩ := Option.isSome_iff_exists.1 hrun
  obtain ⟨c₁, h₁, hr⟩ := Option.bind_eq_some_iff.1 hc₂
  obtain ⟨c₂', h₂, hr⟩ := Option.bind_eq_some_iff.1 hr
  obtain rfl : c₂' = c₂ := Option.some.inj hr
  have hok : FreeOk c₁.state.mem 0xC020000C := by
    rw [h₁, Option.all_some, decide_eq_true_eq] at hfree
    exact hfree
  have hreach₁ : (calls.guard CallOk).Reachable c₀ c₁ :=
    (System.Reachable.refl c₀).tail ⟨hmalloc, callStep_of_call h₁⟩
  have hreach₂ : (calls.guard CallOk).Reachable c₀ c₂' :=
    hreach₁.tail (l := .free 0xC020000C) ⟨hok, callStep_of_call h₂⟩
  exact ⟨c₂', hc₂, safe_of_callOk hreach₂⟩

/-- **`malloc` hands out memory that is in use.**  The second block at the start of the arena
fits exactly and is not marked; freeing its neighbour absorbs it in a hole. -/
theorem not_safe_of_coalescing :
    ¬ ∀ L m c, calls.Reachable (start L m) c → Safe L c := by
  intro h
  let L : Layout := ⟨0xC0200000, by decide, by decide⟩
  let ls : List Call := [.malloc 16, .malloc 16, .free 0xC020000C, .malloc 16,
    .free 0xC020002C, .malloc 48]
  obtain ⟨c, hc, hlive⟩ : ∃ c, (start L fun _ => 0).run ls = some c ∧
      ¬ c.blocks.Pairwise Extent.Disjoint := by
    have := (by decide +kernel : ((start L fun _ => 0).run ls).any
      fun c => ¬ c.blocks.Pairwise Extent.Disjoint)
    simpa [Option.any_eq_true] using this
  exact hlive (h L _ c (reachable_of_run (.refl _) hc)).1

end Kernel

end Bluejay
