import Bluejay.Kernel.Tiling
import Mathlib.Data.List.MinMax
import Mathlib.Data.List.Sort

/-!
# `malloc` and the boundary tags

* `mallocWith ops` : `malloc`, with the operations on the heap as parameters.
* `mallocKeeps_iff` : with correct operations, `malloc` keeps the boundary tags exactly if there is
  no hole for the request, or the size does not wrap, the hole does not fit exactly, and what is
  split off has the `magic` and the flag of a free block there already.
-/

namespace Bluejay

namespace Kernel

/-! ### Operations on the heap -/

/-- The operations on the heap that `malloc` uses. -/
structure HeapOps where
  lookupMin : MinHeap → ℕ → Except Stop (Option (HeapEntry × ℕ) × MinHeap)
  decrease : MinHeap → ℕ → HeapEntry → Except Stop MinHeap
  delete : MinHeap → ℕ → Except Stop MinHeap

/-- Those of `kheap.c`. -/
def kheapOps : HeapOps := ⟨fun h min => heapLookupMin h min false, heapDecrease, heapDelete⟩

/-- What `malloc` expects of them. -/
structure HeapOps.Correct (ops : HeapOps) : Prop where
  lookupMin : ∀ h min, HeapOk h → ∃ r, ops.lookupMin h min = .ok (r, h) ∧
    (r.isSome ↔ ∃ i < h.size, min ≤ (h.elements i).key) ∧
    ∀ e i, r = some (e, i) → e = h.elements i ∧ IsBest h min i
  decrease : ∀ h i new, HeapOk h → i < h.size → new.key ≤ (h.elements i).key →
    new.key < 2 ^ 32 → ∃ h', ops.decrease h i new = .ok h' ∧ HeapOk h' ∧
      h'.entries.Perm (h.entries.set i new)
  delete : ∀ h i, HeapOk h → i < h.size → ∃ h', ops.delete h i = .ok h' ∧ HeapOk h' ∧
    h.entries.Perm (h.elements i :: h'.entries)

/-- The end of `malloc` for a hole `e`, at index `i` of the heap. -/
def mallocInWith (ops : HeapOps) (s : State) (e : HeapEntry) (i full_size : ℕ) :
    Except Stop (ℕ × State) :=
  let old_size := size s.mem e.address
  let mem := u32 (e.address + headerSize)
  if full_size = old_size then
    (ops.delete s.heap i).map fun heap => (mem, { s with heap := heap })
  else
    let new_size := sub32 old_size full_size
    if new_size ≤ headerSize + footerSize + 8 then
      (ops.delete s.heap i).map fun heap => (mem, ⟨claim s.mem e.address old_size, heap⟩)
    else
      let old_f := sub32 (e.address + old_size) footerSize
      let new_header := u32 (e.address + full_size)
      let m := setSize s.mem new_header new_size
      let m := setFooter m old_f new_size
      (ops.decrease s.heap i ⟨new_size, new_header⟩).map fun heap =>
        (mem, ⟨claim m e.address full_size, heap⟩)

/-- `malloc`, with the operations on the heap as parameters. -/
def mallocWith (ops : HeapOps) (s : State) (size : ℕ) : Except Stop (ℕ × State) :=
  let full_size := u32 (size + headerSize + footerSize)
  match ops.lookupMin s.heap full_size with
  | .ok (some (e, i), heap) =>
    if allocated s.mem e.address then
      .error (.panic "Gap already allocated (this should never happen)")
    else mallocInWith ops ⟨s.mem, heap⟩ e i full_size
  | .ok (none, _) => .error (.panic "Whoops, malloc ran out of memory")
  | .error stop => .error stop

theorem mallocWith_kheapOps : mallocWith kheapOps = malloc := rfl

/-! ### Writing tags -/

section Tags

variable {m : Mem} {a v k : ℕ} {b : Bool}

/-- The writes to a header. -/
theorem header_writes (m : Mem) (ha : a + headerSize ≤ 2 ^ 32) (hv : v < 2 ^ 32) :
    ∀ m', m' = setSize (setMagic (setAllocated m a b) a heapMagic) a v →
      ChangesOnly m m' ⟨a, headerSize⟩ ∧ size m' a = v ∧ magic m' a = heapMagic ∧
        allocated m' a = b := by
  rintro m' rfl
  have h4 : u32 (a + 4) = a + 4 := u32_of_lt (by simp only [headerSize] at ha; omega)
  have h8 : u32 (a + 8) = a + 8 := u32_of_lt (by simp only [headerSize] at ha; omega)
  refine ⟨?_, size_setSize hv, ?_, ?_⟩
  · exact (((changesOnly_setAllocated m ha).trans (changesOnly_setMagic _)).trans
      (changesOnly_setSize _ ha))
  · rw [magic, setSize, h8, Mem.loadLE_storeLE_of_disjoint (by omega), setMagic,
      Mem.loadLE_storeLE]
    rfl
  · rw [allocated, setSize, h8, h4, Mem.storeLE_of_out (by omega), setMagic,
      Mem.storeLE_of_out (by omega), setAllocated, h4]
    cases b <;> simp [Mem.storeLE]

/-- A block that is claimed has its tags. -/
theorem tagged_claim (m : Mem) {a : Extent} (ha : Fits a) (hl : a.len < 2 ^ 32) :
    (⟨a, true⟩ : Block).Tagged (claim m a.start a.len) := by
  obtain ⟨hroom, hend⟩ := ha
  simp only [headerSize, footerSize] at hroom
  have hf : sub32 (a.start + a.len) footerSize = a.start + a.len - 4 := by
    unfold sub32 footerSize
    omega
  have h4 : u32 (a.start + 4) = a.start + 4 := u32_of_lt (by omega)
  have h8 : u32 (a.start + 8) = a.start + 8 := u32_of_lt (by omega)
  obtain ⟨-, hsize, hmagic, halloc⟩ := header_writes (b := true) m (a := a.start)
    (by simp only [headerSize]; omega) hl _ rfl
  set m₁ := setSize (setMagic (setAllocated m a.start true) a.start heapMagic) a.start a.len
    with hm₁
  have hclaim : claim m a.start a.len = setFooter m₁ (a.start + a.len - 4) a.len := by
    rw [claim, hf, ← hm₁, hsize]
  rw [hclaim]
  set m₂ := setFooter m₁ (a.start + a.len - 4) a.len with hm₂
  have hout : ∀ i, i < a.start + a.len - 4 → m₂ i = m₁ i :=
    fun i hi => Mem.storeLE_of_out (.inl hi)
  have hsize₂ : size m₂ a.start = a.len := by
    rw [← hsize, size, size, h8]
    exact Mem.loadLE_congr fun i _ _ => hout i (by omega)
  have hmagic₂ : magic m₂ a.start = heapMagic := by
    rw [← hmagic, magic, magic]
    exact Mem.loadLE_congr fun i _ _ => hout i (by omega)
  have halloc₂ : allocated m₂ a.start = true := by
    rw [← halloc, allocated, allocated, h4, hout _ (by omega)]
  have hfooter₂ : footer m₂ (a.start + a.len - 4) = a.len := by
    rw [footer, hm₂, setFooter, Mem.loadLE_storeLE]
    exact Nat.mod_eq_of_lt hl
  exact ⟨hroom, hsize₂, hmagic₂, halloc₂, hfooter₂⟩

/-- The writes of a split: the block has its tags, and the remainder its sizes; its `magic` and its
flag are what was there before. -/
theorem split_tagged (m : Mem) {e : Extent} (hk : headerSize + footerSize ≤ k)
    (hr : k + headerSize + footerSize ≤ e.len) (he : Fits e) (hl : e.len < 2 ^ 32) :
    ∀ m', m' = claim (setFooter (setSize m (e.start + k) (e.len - k))
        (sub32 (e.start + e.len) footerSize) (e.len - k)) e.start k →
      ChangesOnly m m' e ∧ (⟨e.front k, true⟩ : Block).Tagged m' ∧
      magic m' (e.start + k) = magic m (e.start + k) ∧
      allocated m' (e.start + k) = allocated m (e.start + k) ∧
      (magic m (e.start + k) = heapMagic →
        (⟨e.rest k, allocated m (e.start + k)⟩ : Block).Tagged m') := by
  intro m' hm'
  obtain ⟨hchange, -, hrest⟩ := split_writes m hk hr he m' hm'
  obtain ⟨hroom, hend⟩ := he
  simp only [headerSize, footerSize] at hk hr hroom
  have hfront : Fits (e.front k) := by
    simp only [Fits, Extent.front, headerSize, footerSize]
    omega
  have hf : sub32 (e.start + e.len) footerSize = e.start + e.len - 4 := by
    unfold sub32 footerSize
    omega
  have h4 : u32 (e.start + k + 4) = e.start + k + 4 := u32_of_lt (by omega)
  have h8 : u32 (e.start + k + 8) = e.start + k + 8 := u32_of_lt (by omega)
  rw [hf] at hm'
  set m₁ := setSize m (e.start + k) (e.len - k) with hm₁
  set m₂ := setFooter m₁ (e.start + e.len - 4) (e.len - k) with hm₂
  have htag : (⟨e.front k, true⟩ : Block).Tagged m' := by
    rw [hm']
    exact tagged_claim m₂ (a := e.front k) hfront (by simp only [Extent.front]; omega)
  -- the block that is claimed ends before the remainder
  have hclaim : ∀ i, e.start + k ≤ i → m' i = m₂ i := by
    intro i hi
    rw [hm']
    exact changesOnly_claim m₂ (a := e.front k) hfront i (.inr hi)
  have hfirst : ∀ i, e.start + k ≤ i → i < e.start + k + 8 → m' i = m i := by
    intro i hlo hhi
    rw [hclaim i hlo, hm₂, setFooter, Mem.storeLE_of_out (by omega), hm₁, setSize, h8,
      Mem.storeLE_of_out (by omega)]
  have hfooter : footer m' (e.start + e.len - 4) = e.len - k := by
    rw [footer, Mem.loadLE_congr fun i hlo _ => hclaim i (by omega), hm₂, setFooter,
      Mem.loadLE_storeLE]
    exact Nat.mod_eq_of_lt (by omega)
  have hmagic : magic m' (e.start + k) = magic m (e.start + k) :=
    Mem.loadLE_congr fun i hlo hhi => hfirst i hlo (by omega)
  have halloc : allocated m' (e.start + k) = allocated m (e.start + k) := by
    rw [allocated, allocated, h4, hfirst _ (by omega) (by omega)]
  refine ⟨hchange, htag, hmagic, halloc, fun h => ⟨?_, hrest, hmagic.trans h, halloc, ?_⟩⟩
  · simp only [Extent.rest, headerSize, footerSize]
    omega
  · have haddr : (e.rest k).start + (e.rest k).len - footerSize = e.start + e.len - 4 := by
      simp only [Extent.rest, footerSize]
      omega
    show footer m' ((e.rest k).start + (e.rest k).len - footerSize) = e.len - k
    rw [haddr, hfooter]

end Tags

/-! ### `malloc` -/

/-- `malloc` panics, or returns a block that is marked and large enough, and the blocks fill the
arena again. -/
def MallocKeeps (ops : HeapOps) (L : Layout) (s : State) (n : ℕ) : Prop :=
  (∃ msg, mallocWith ops s n = .error (.panic msg)) ∨
    ∃ p s' bs b, mallocWith ops s n = .ok (p, s') ∧ Tiled L s' bs ∧ b ∈ bs ∧
      b.allocated = true ∧ p = b.start + headerSize ∧ n + headerSize + footerSize ≤ b.len

/-- The size of the request does not wrap, the hole that is found does not fit exactly, and where
a remainder is split off, there are the `magic` and the flag of a free block already. -/
def SplitsClean (ops : HeapOps) (s : State) (n : ℕ) : Prop :=
  n + headerSize + footerSize < 2 ^ 32 ∧
    ∀ e i heap, ops.lookupMin s.heap (n + headerSize + footerSize) = .ok (some (e, i), heap) →
      e.key ≠ n + headerSize + footerSize ∧
      (n + headerSize + footerSize + (headerSize + footerSize + 8) < e.key →
        magic s.mem (e.address + (n + headerSize + footerSize)) = heapMagic ∧
        allocated s.mem (e.address + (n + headerSize + footerSize)) = false)

section Malloc

variable {ops : HeapOps} {L : Layout} {s : State} {pre post bs : List Block} {b : Block}
  {i k n : ℕ}

/-- A hole that fits exactly stays marked as free, without an entry. -/
theorem mallocIn_exact (hops : ops.Correct) (ht : Tiled L s bs) (hi : i < s.heap.size)
    (hk : size s.mem (s.heap.elements i).address = k) :
    ∃ s', mallocInWith ops s (s.heap.elements i) i k =
      .ok (u32 ((s.heap.elements i).address + headerSize), s') ∧ ∀ bs', ¬ Tiled L s' bs' := by
  obtain ⟨heap, hdel, -, hperm⟩ := hops.delete s.heap i ht.heap hi
  refine ⟨{ s with heap := heap }, ?_, fun bs' ht' => ?_⟩
  · rw [mallocInWith, hk, if_pos rfl, hdel]
    rfl
  · obtain rfl := ht.tiles.unique ht'.tiles
    have hlen := (hperm.symm.trans (ht.entries.trans ht'.entries.symm)).length_eq
    rw [List.length_cons] at hlen
    exact absurd hlen (Nat.succ_ne_self _)

/-- A hole whose remainder would be too small is handed out whole. -/
theorem mallocIn_whole (hops : ops.Correct) (ht : Tiled L s (pre ++ b :: post))
    (hb : b.allocated = false) (hi : i < s.heap.size) (hbi : b.entry = s.heap.elements i)
    (hk : k < b.len) (hsmall : b.len ≤ k + (headerSize + footerSize + 8)) :
    ∃ s', mallocInWith ops s b.entry i k = .ok (b.start + headerSize, s') ∧
      Tiled L s' (pre ++ ({ b with allocated := true } :: post)) ∧
      ChangesOnly s.mem s'.mem b.toExtent := by
  obtain ⟨heap, hdel, hheap, hperm⟩ := hops.delete s.heap i ht.heap hi
  have hmem : b ∈ pre ++ b :: post := List.mem_append_right _ List.mem_cons_self
  have htag := ht.tiles.tagged b hmem
  obtain ⟨hstart, hend⟩ := ht.lt hmem
  have hsize : size s.mem b.entry.address = b.len := htag.size
  have harena := arenaEnd_le
  have hlen : b.len < 2 ^ 32 := by
    simp only [headerSize, footerSize] at hstart
    omega
  have hfit : Fits b.toExtent := ⟨htag.room, hend.trans harena⟩
  have hp : u32 (b.start + headerSize) = b.start + headerSize := by
    have hroom := htag.room
    simp only [headerSize, footerSize] at *
    exact u32_of_lt (by omega)
  have hchange : ChangesOnly s.mem (claim s.mem b.start b.len) b.toExtent :=
    changesOnly_claim s.mem hfit
  refine ⟨⟨claim s.mem b.start b.len, heap⟩, ?_, ⟨?_, hheap, ?_⟩, hchange⟩
  · rw [mallocInWith, hsize, if_neg hk.ne, sub32_of_le hk.le hlen, if_pos (by omega), hdel]
    show Except.ok (u32 (b.start + headerSize), _) = _
    rw [hp]
    rfl
  · exact ht.tiles.replace harena hchange (tagged_claim s.mem hfit hlen).tiles
  · rw [← hbi] at hperm
    have hentries := ht.entries
    rw [freeEntries_append, freeEntries_cons, hb] at hentries
    rw [freeEntries_append, freeEntries_cons, if_pos rfl]
    exact (hperm.symm.trans (hentries.trans List.perm_middle)).cons_inv

/-- With correct operations, `malloc` returns once a hole is found. -/
theorem mallocIn_ok (hops : ops.Correct) (hheap : HeapOk s.heap) (hi : i < s.heap.size)
    (hsize : size s.mem (s.heap.elements i).address = (s.heap.elements i).key)
    (hk : k ≤ (s.heap.elements i).key) :
    ∃ r, mallocInWith ops s (s.heap.elements i) i k = .ok r := by
  have hlt : (s.heap.elements i).key < 2 ^ 32 := hsize ▸ size_lt _ _
  obtain ⟨heap, hdel, -⟩ := hops.delete s.heap i hheap hi
  obtain ⟨heap', hdec, -⟩ := hops.decrease s.heap i
    ⟨(s.heap.elements i).key - k, u32 ((s.heap.elements i).address + k)⟩ hheap hi
    (Nat.sub_le _ _) ((Nat.sub_le _ _).trans_lt hlt)
  simp only [mallocInWith, hsize, sub32_of_le hk hlt, hdel, hdec]
  split_ifs
  · exact ⟨_, rfl⟩
  · exact ⟨_, rfl⟩
  · exact ⟨_, rfl⟩

/-- The front of a hole is handed out; memory has to have the other tags of the remainder. -/
theorem mallocIn_split (hops : ops.Correct) (ht : Tiled L s (pre ++ b :: post))
    (hb : b.allocated = false) (hi : i < s.heap.size) (hbi : b.entry = s.heap.elements i)
    (hk : headerSize + footerSize ≤ k) (hbig : k + (headerSize + footerSize + 8) < b.len) :
    ∃ s', mallocInWith ops s b.entry i k = .ok (b.start + headerSize, s') ∧
      (magic s.mem (b.start + k) = heapMagic ∧ allocated s.mem (b.start + k) = false →
        Tiled L s' (pre ++ ([⟨b.front k, true⟩, ⟨b.rest k, false⟩] ++ post))) ∧
      ∀ bs, Tiled L s' bs →
        magic s.mem (b.start + k) = heapMagic ∧ allocated s.mem (b.start + k) = false := by
  have hmem : b ∈ pre ++ b :: post := List.mem_append_right _ List.mem_cons_self
  have htag := ht.tiles.tagged b hmem
  obtain ⟨hstart, hend⟩ := ht.lt hmem
  have hsize : size s.mem b.entry.address = b.len := htag.size
  have harena := arenaEnd_le
  have h16 : headerSize = 12 ∧ footerSize = 4 := ⟨rfl, rfl⟩
  have hlen : b.len < 2 ^ 32 := by omega
  have hfit : Fits b.toExtent := ⟨htag.room, hend.trans harena⟩
  have hp : u32 (b.start + headerSize) = b.start + headerSize := u32_of_lt (by omega)
  have hnew : u32 (b.start + k) = b.start + k := u32_of_lt (by omega)
  obtain ⟨heap, hdec, hheap, hperm⟩ := hops.decrease s.heap i ⟨b.len - k, b.start + k⟩ ht.heap hi
    (by rw [← hbi]; exact Nat.sub_le _ _) ((Nat.sub_le _ _).trans_lt hlen)
  obtain ⟨hchange, hfront, hmagic, halloc, hrest⟩ :=
    split_tagged s.mem (e := b.toExtent) hk (by omega) hfit hlen _ rfl
  set m' := claim (setFooter (setSize s.mem (b.start + k) (b.len - k))
    (sub32 (b.start + b.len) footerSize) (b.len - k)) b.start k with hm'
  have hcut : k + (b.len - k) = b.len := by omega
  -- the heap after the call
  have hentries : heap.entries.Perm
      (⟨b.len - k, b.start + k⟩ :: (freeEntries pre ++ freeEntries post)) := by
    have hlt : i < s.heap.entries.length := by simpa [MinHeap.entries] using hi
    have hget : s.heap.entries[i] = b.entry := by simp [MinHeap.entries, hbi]
    have hold := ht.entries
    rw [freeEntries_append, freeEntries_cons, hb] at hold
    have hcons := List.getElem_cons_eraseIdx_perm hlt
    rw [hget] at hcons
    have hothers := (hcons.trans (hold.trans List.perm_middle)).cons_inv
    exact hperm.trans ((List.set_perm_cons_eraseIdx hlt _).trans (hothers.cons _))
  refine ⟨⟨m', heap⟩, ?_, fun hclean => ⟨?_, hheap, ?_⟩, fun bs htiled => ?_⟩
  · rw [mallocInWith, hsize, if_neg (by omega), sub32_of_le (by omega) hlen, if_neg (by omega)]
    show (ops.decrease s.heap i ⟨b.len - k, u32 (b.start + k)⟩).map _ = _
    rw [hnew, hdec]
    show Except.ok (u32 (b.start + headerSize), _) = _
    rw [hp]
    show Except.ok (_, (⟨claim (setFooter (setSize s.mem (u32 (b.start + k)) _) _ _) _ _, _⟩ :
      State)) = _
    rw [hnew]
    rfl
  · refine ht.tiles.replace harena hchange ⟨⟨rfl, rfl, ?_⟩, ?_⟩
    · show b.start + k + (b.len - k) = b.start + b.len
      omega
    · intro x hx
      rcases List.mem_cons.1 hx with rfl | hx
      · exact hfront
      · obtain rfl := List.mem_singleton.1 hx
        have htags := hrest hclean.1
        rwa [hclean.2] at htags
  · refine hentries.trans ?_
    simpa [Block.entry, Extent.rest] using List.perm_middle.symm
  · -- the walk along the blocks comes to the remainder
    have hpre : Tiles m' L.mallocBase pre b.start :=
      ht.tiles.middle.1.congr (by omega) fun i _ hi => hchange i (.inl hi)
    have hbefore : Tiles m' L.mallocBase (pre ++ [⟨b.front k, true⟩]) (b.start + k) := by
      refine hpre.append ⟨⟨rfl, rfl⟩, fun x hx => ?_⟩
      obtain rfl := List.mem_singleton.1 hx
      exact hfront
    obtain ⟨rest, rfl, hrests⟩ := htiled.tiles.eq_append hbefore (by omega)
    cases rest with
    | nil =>
      have hlast : b.start + k = arenaEnd := hrests.adjacent
      omega
    | cons r rest =>
      have hr : r.Tagged m' := hrests.tagged r List.mem_cons_self
      have hstart_r : r.start = b.start + k := hrests.adjacent.1
      refine ⟨by rw [← hmagic, ← hstart_r, hr.magic], ?_⟩
      rw [← halloc, ← hstart_r, hr.allocated]
      -- the block with the entry of the remainder is the remainder
      obtain ⟨x, hx, hfree, hentry⟩ := mem_freeEntries.1
        (htiled.entries.mem_iff.1 (hentries.mem_iff.2 List.mem_cons_self))
      have hstart_x : x.start = b.start + k := congrArg HeapEntry.address hentry
      have hroom_x := (htiled.tiles.tagged x hx).room
      rcases List.mem_append.1 hx with hx | hx
      · have hend_x := (hbefore.within hx).2
        omega
      · rcases List.mem_cons.1 hx with rfl | hx
        · exact hfree
        · have hlo := (hrests.adjacent.2.within _ (List.mem_map_of_mem hx)).1
          have hroom_r := hr.room
          omega

/-- With correct operations on the heap, `malloc` keeps the boundary tags exactly if no hole is
large enough for the full size, or the request is `SplitsClean`. -/
theorem mallocKeeps_iff (hops : ops.Correct) (ht : Tiled L s bs) (hn : n < 2 ^ 32) :
    MallocKeeps ops L s n ↔
      (∀ e ∈ s.heap.entries, e.key < u32 (n + headerSize + footerSize)) ∨ SplitsClean ops s n := by
  have h16 : headerSize = 12 ∧ footerSize = 4 := ⟨rfl, rfl⟩
  obtain ⟨r, hr, hsome, hbest⟩ := hops.lookupMin s.heap (u32 (n + headerSize + footerSize)) ht.heap
  cases r with
  | none =>
    have hpanic : mallocWith ops s n = .error (.panic "Whoops, malloc ran out of memory") := by
      rw [mallocWith, hr]
    have hnone : ∀ e ∈ s.heap.entries, e.key < u32 (n + headerSize + footerSize) := by
      intro e he
      obtain ⟨i, hi, rfl⟩ := List.mem_map.1 he
      by_contra hle
      exact absurd (hsome.2 ⟨i, List.mem_range.1 hi, not_lt.1 hle⟩) (by simp)
    exact ⟨fun _ => .inl hnone, fun _ => .inl ⟨_, hpanic⟩⟩
  | some r =>
    obtain ⟨e, i⟩ := r
    obtain ⟨rfl, hi, hk, -⟩ := hbest e i rfl
    have hmem : s.heap.elements i ∈ s.heap.entries := List.mem_map_of_mem (List.mem_range.2 hi)
    obtain ⟨pre, b, post, rfl, hb, hbi, -⟩ := ht.exists_block hmem
    have hbmem : b ∈ pre ++ b :: post := List.mem_append_right _ List.mem_cons_self
    have htag := ht.tiles.tagged b hbmem
    have hlt := (ht.lt hbmem).2
    have harena := arenaEnd_le
    have hsize : size s.mem (s.heap.elements i).address = (s.heap.elements i).key := by
      rw [← hbi]
      exact htag.size
    have hkey : (s.heap.elements i).key = b.len := congrArg HeapEntry.key hbi.symm
    have haddr : (s.heap.elements i).address = b.start := congrArg HeapEntry.address hbi.symm
    -- `malloc` goes on with the hole `b`
    have hgap : allocated s.mem (s.heap.elements i).address = false := by
      rw [haddr, htag.allocated, hb]
    have hin : mallocWith ops s n =
        mallocInWith ops s (s.heap.elements i) i (u32 (n + headerSize + footerSize)) := by
      rw [mallocWith, hr]
      exact if_neg (by simp [hgap])
    obtain ⟨⟨p, s₁⟩, hok⟩ := mallocIn_ok hops ht.heap hi hsize hk
    have hkeeps : MallocKeeps ops L s n ↔ ∃ p s' bs b, mallocWith ops s n = .ok (p, s') ∧
        Tiled L s' bs ∧ b ∈ bs ∧ b.allocated = true ∧ p = b.start + headerSize ∧
        n + headerSize + footerSize ≤ b.len := by
      refine or_iff_right ?_
      rintro ⟨msg, herr⟩
      rw [hin, hok] at herr
      cases herr
    rw [hkeeps, or_iff_right fun hnone => absurd (hnone _ hmem) (not_lt.2 hk)]
    by_cases hwrap : n + headerSize + footerSize < 2 ^ 32
    · rw [u32_of_lt hwrap] at hr hk hin
      set k := n + headerSize + footerSize with hkdef
      have hclean : SplitsClean ops s n ↔ b.len ≠ k ∧
          (k + (headerSize + footerSize + 8) < b.len →
            magic s.mem (b.start + k) = heapMagic ∧ allocated s.mem (b.start + k) = false) := by
        refine ⟨fun h => ?_, fun h => ⟨hwrap, fun e' i' heap' hr' => ?_⟩⟩
        · rw [← hkey, ← haddr]
          exact h.2 _ _ _ hr
        · rw [← hkdef, hr, Except.ok.injEq, Prod.mk.injEq, Option.some.injEq, Prod.mk.injEq] at hr'
          rw [← hr'.1.1, hkey, haddr]
          exact h
      rw [hclean, hin]
      rcases eq_or_ne b.len k with hexact | hne
      · -- the hole fits exactly
        have hk : size s.mem (s.heap.elements i).address = k := hsize.trans (hkey.trans hexact)
        obtain ⟨s', hs', hnot⟩ := mallocIn_exact hops ht hi hk
        refine iff_of_false ?_ fun h => h.1 hexact
        rintro ⟨p', s'', bs', b', heq, ht', -⟩
        rw [hs', Except.ok.injEq, Prod.mk.injEq] at heq
        exact hnot bs' (heq.2 ▸ ht')
      have hlen : k < b.len := by omega
      rw [← hbi]
      by_cases hbig : k + (headerSize + footerSize + 8) < b.len
      · -- the front is split off
        obtain ⟨s', hs', hif, honly⟩ := mallocIn_split hops ht hb hi hbi (by omega) hbig
        constructor
        · rintro ⟨p', s'', bs', b', heq, ht', -⟩
          rw [hs', Except.ok.injEq, Prod.mk.injEq] at heq
          exact ⟨hne, fun _ => honly bs' (heq.2 ▸ ht')⟩
        · rintro ⟨-, h⟩
          exact ⟨_, s', _, ⟨b.front k, true⟩, hs', hif (h hbig), by simp, rfl, rfl, le_rfl⟩
      · -- the hole is handed out whole
        obtain ⟨s', hs', ht', -⟩ := mallocIn_whole hops ht hb hi hbi hlen (not_lt.1 hbig)
        refine iff_of_true ⟨_, s', _, { b with allocated := true }, hs', ht', by simp, rfl, rfl,
          hlen.le⟩ ⟨hne, fun h => absurd h hbig⟩
    · -- no block is as large as the request
      refine iff_of_false ?_ fun h => hwrap h.1
      rintro ⟨p', s', bs', b', -, ht', hb', -, -, hroom⟩
      obtain ⟨hstart, hend⟩ := ht'.lt hb'
      omega

end Malloc

/-! ### Out of memory -/

section OutOfMemory

variable {h : MinHeap} {i n : ℕ} {new : HeapEntry} {stop : Stop} {s : State}

theorem heapDecrease_error (hd : heapDecrease h i new = .error stop) : stop = .fault := by
  unfold heapDecrease at hd
  split_ifs at hd
  exact (Except.error.inj hd).symm

theorem heapDelete_error (hd : heapDelete h i = .error stop) : stop = .fault := by
  unfold heapDelete at hd
  split at hd
  · unfold heapDeleteRoot at hd
    dsimp only at hd
    split_ifs at hd <;> exact (Except.error.inj hd).symm
  · obtain rfl := Except.error.inj hd
    exact heapDecrease_error ‹_›

theorem error_of_map {α β : Type} {x : Except Stop α} {f : α → β}
    (hx : x.map f = .error stop) : x = .error stop := by
  cases x with
  | error e => exact congrArg _ (Except.error.inj hx)
  | ok a => cases hx

theorem mallocIn_error {e : HeapEntry} {k : ℕ} (hm : mallocIn s e i k = .error stop) :
    stop = .fault := by
  unfold mallocIn at hm
  dsimp only at hm
  split_ifs at hm
  · exact heapDelete_error (error_of_map hm)
  · exact heapDelete_error (error_of_map hm)
  · exact heapDecrease_error (error_of_map hm)

/-- Where the search finds the best fit, `malloc` reports that there is no memory only if no hole
is large enough. -/
theorem no_hole_of_outOfMemory (hbest : BestFit s.heap (u32 (n + headerSize + footerSize)))
    (hm : malloc s n = .error (.panic "Whoops, malloc ran out of memory")) :
    ∀ e ∈ s.heap.entries, e.key < u32 (n + headerSize + footerSize) := by
  obtain ⟨r, hr, hsome, -⟩ := hbest
  rw [malloc, hr] at hm
  cases r with
  | none =>
    intro e he
    obtain ⟨i, hi, rfl⟩ := List.mem_map.1 he
    by_contra hle
    exact absurd (hsome.2 ⟨i, List.mem_range.1 hi, not_lt.1 hle⟩) (by simp)
  | some r =>
    obtain ⟨e, i⟩ := r
    dsimp only at hm
    split_ifs at hm
    · simp at hm
    · exact absurd (mallocIn_error hm) (by simp)

end OutOfMemory

/-! ### Operations that are correct -/

/-- The key of `a` is not above that of `b`. -/
def HeapEntry.le (a b : HeapEntry) : Prop := a.key ≤ b.key

instance : DecidableRel HeapEntry.le := fun a b => inferInstanceAs (Decidable (a.key ≤ b.key))

instance : Std.Total HeapEntry.le := ⟨fun a b => Nat.le_total a.key b.key⟩

instance : IsTrans HeapEntry HeapEntry.le := ⟨fun _ _ _ => Nat.le_trans⟩

/-- The entries in the order of their keys. -/
def sortedHeap (l : List HeapEntry) : MinHeap :=
  ⟨fun i => (l.insertionSort HeapEntry.le).getD i ⟨0, 0⟩, l.length⟩

/-- Operations on the heap that look at all entries. -/
def plainOps : HeapOps where
  lookupMin h min := .ok ((((List.range h.size).filter fun i => min ≤ (h.elements i).key).argmin
    fun i => (h.elements i).key).map fun i => (h.elements i, i), h)
  decrease := heapDecrease
  delete h i := .ok (sortedHeap (h.entries.eraseIdx i))

theorem entries_sortedHeap (l : List HeapEntry) : (sortedHeap l).entries.Perm l := by
  have hentries : (sortedHeap l).entries = l.insertionSort HeapEntry.le := by
    refine List.ext_getElem (by simp [MinHeap.entries, sortedHeap]) fun i hi hi' => ?_
    simp only [MinHeap.entries, sortedHeap, List.getElem_map, List.getElem_range,
      List.getD_eq_getElem?_getD, List.getElem?_eq_getElem hi', Option.getD_some]
  rw [hentries]
  exact List.perm_insertionSort _ _

theorem heapOk_sortedHeap {l : List HeapEntry} (hl : l.length ≤ heapSize) :
    HeapOk (sortedHeap l) := by
  refine ⟨hl, fun j hj hj0 => ?_⟩
  have hlen : (l.insertionSort HeapEntry.le).length = l.length := List.length_insertionSort _ _
  have hj' : j < l.length := hj
  have hlt := heapParent_lt hj0
  have hp : heapParent j < (l.insertionSort HeapEntry.le).length := by omega
  simp only [sortedHeap, List.getD_eq_getElem?_getD, List.getElem?_eq_getElem hp,
    List.getElem?_eq_getElem (hlen.symm ▸ hj'), Option.getD_some]
  exact List.pairwise_iff_getElem.1 (List.pairwise_insertionSort HeapEntry.le l) _ _ _ _ hlt

theorem plainOps_correct : plainOps.Correct where
  lookupMin h min hh := by
    set l := (List.range h.size).filter fun i => min ≤ (h.elements i).key with hl
    have hmem : ∀ i, i ∈ l ↔ i < h.size ∧ min ≤ (h.elements i).key := by simp [hl]
    refine ⟨_, rfl, ?_, fun e i hei => ?_⟩
    · rw [Option.isSome_map, ← Option.ne_none_iff_isSome, ne_eq, List.argmin_eq_none, ← hl,
        List.eq_nil_iff_forall_not_mem]
      simp [hmem]
    · obtain ⟨j, hj, heq⟩ := Option.map_eq_some_iff.1 hei
      rw [Prod.mk.injEq] at heq
      obtain ⟨rfl, rfl⟩ := heq
      obtain ⟨hlt, hmin⟩ := (hmem j).1 (List.argmin_mem hj)
      exact ⟨rfl, hlt, hmin, fun k hk hkmin =>
        List.le_of_mem_argmin (f := fun i => (h.elements i).key) ((hmem k).2 ⟨hk, hkmin⟩) hj⟩
  decrease h i new hh hi hle hlt := by
    obtain ⟨h', hok, hord, hsize, hperm⟩ := decreases hh.ordered hh.size hi hle hlt
    exact ⟨h', hok, ⟨hsize.trans_le hh.size, hord⟩, hperm⟩
  delete h i hh hi := by
    have hlt : i < h.entries.length := by simpa [MinHeap.entries] using hi
    have hget : h.entries[i] = h.elements i := by simp [MinHeap.entries]
    refine ⟨_, rfl, heapOk_sortedHeap ?_, ?_⟩
    · have hlen : (h.entries.eraseIdx i).length ≤ h.entries.length := List.length_eraseIdx_le _ _
      simp only [MinHeap.entries, List.length_map, List.length_range] at hlen ⊢
      exact hlen.trans hh.size
    · rw [← hget]
      exact (List.getElem_cons_eraseIdx_perm hlt).symm.trans ((entries_sortedHeap _).symm.cons _)

/-! ### One hole -/

/-- The whole arena of `sampleLayout` is free. -/
def oneHole : State := sampleState [⟨⟨0xC0200000, 0x200000⟩, false⟩]

theorem tiled_oneHole : Tiled sampleLayout oneHole [⟨⟨0xC0200000, 0x200000⟩, false⟩] :=
  ⟨⟨by decide, by decide⟩, ⟨by decide, by decide⟩, .refl _⟩

/-- A request that leaves a remainder of 8 bytes gets the whole hole. -/
theorem mallocKeeps_oneHole : MallocKeeps plainOps sampleLayout oneHole (0x200000 - 24) := by
  refine (mallocKeeps_iff plainOps_correct tiled_oneHole (by decide)).2 (.inr ⟨by decide, ?_⟩)
  intro e i heap hl
  obtain ⟨r, hr, -, hbest⟩ := plainOps_correct.lookupMin oneHole.heap
    (0x200000 - 24 + headerSize + footerSize) tiled_oneHole.heap
  rw [hr, Except.ok.injEq, Prod.mk.injEq] at hl
  obtain ⟨rfl, hi, -⟩ := hbest e i hl.1
  obtain rfl : i = 0 := Nat.lt_one_iff.1 hi
  show 0x200000 ≠ 0x200000 - 24 + headerSize + footerSize ∧
    (0x200000 - 24 + headerSize + footerSize + (headerSize + footerSize + 8) < 0x200000 → _)
  exact ⟨by decide, fun h => absurd h (by decide)⟩

/-- **`malloc` breaks the boundary tags**: what it splits off has no `magic`. -/
theorem not_mallocKeeps : ¬ ∀ (ops : HeapOps) (L : Layout) (s : State) (bs : List Block) (n : ℕ),
    ops.Correct → Tiled L s bs → n < 2 ^ 32 → MallocKeeps ops L s n := by
  intro h
  have hlookup : plainOps.lookupMin oneHole.heap 32 =
      .ok (some (⟨0x200000, 0xC0200000⟩, 0), oneHole.heap) := rfl
  have hin : mallocWith plainOps oneHole 16 =
      mallocInWith plainOps oneHole ⟨0x200000, 0xC0200000⟩ 0 32 := by
    rw [mallocWith, show u32 (16 + headerSize + footerSize) = 32 from rfl, hlookup]
    exact if_neg (by decide)
  obtain ⟨s', hs', -, honly⟩ := mallocIn_split (i := 0) (k := 32) plainOps_correct
    (show Tiled sampleLayout oneHole ([] ++ [_]) from tiled_oneHole) rfl (by decide) rfl
    (by decide) (by decide)
  rcases h plainOps _ oneHole _ 16 plainOps_correct tiled_oneHole (by decide) with
    ⟨msg, herr⟩ | ⟨p, s'', bs, b, hok, ht, -⟩
  · rw [hin] at herr
    exact absurd (hs'.symm.trans herr) (by simp)
  · rw [hin] at hok
    have hss : s' = s'' := (Prod.mk.inj (Except.ok.inj (hs'.symm.trans hok))).2
    exact absurd (honly bs (hss ▸ ht)).1 (by decide)

end Kernel

end Bluejay
