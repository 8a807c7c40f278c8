import Bluejay.Kernel.MallocTiling

/-!
# `free` and the boundary tags

`free` adds up the sizes of the block and its free neighbours, but writes the header of the merged
block only, and takes no entry out of the heap.

* `coalesce pre b post` : the blocks there should be after the block `b` is freed.
* `freeCoalesces_iff` : these are the blocks exactly if no neighbour is taken for a free block, and
  there is room in the heap.
-/

namespace Bluejay

namespace Kernel

/-- The block in front is merged with `b`, if it is free. -/
def mergeBefore (pre : List Block) (b : Block) : List Block × Block :=
  match pre.getLast? with
  | some a => if a.allocated then (pre, b) else (pre.dropLast, ⟨⟨a.start, a.len + b.len⟩, false⟩)
  | none => (pre, b)

/-- The block behind is merged with `b`, if it is free. -/
def mergeBehind (b : Block) : List Block → Block × List Block
  | a :: post => if a.allocated then (b, a :: post) else (⟨⟨b.start, b.len + a.len⟩, false⟩, post)
  | [] => (b, [])

/-- The blocks after `b` is freed. -/
def coalesce (pre : List Block) (b : Block) (post : List Block) : List Block :=
  let (pre, b) := mergeBefore pre b
  let (b, post) := mergeBehind b post
  pre ++ { b with allocated := false } :: post

/-- `free` returns, the blocks are those there should be, and only blocks of the arena are taken
for neighbours. -/
def FreeCoalesces (L : Layout) (s : State) (pre : List Block) (b : Block) (post : List Block) :
    Prop :=
  (∃ s', free s (b.start + headerSize) = .ok s' ∧ Tiled L s' (coalesce pre b post)) ∧
    ∀ h ∈ [prevHeader s.mem (b.start + headerSize), nextHeader s.mem (b.start + headerSize)],
      isFree s.mem h → ∃ x ∈ pre ++ b :: post, x.start = h

section Free

variable {L : Layout} {s : State} {pre post : List Block} {b : Block}

theorem mergeBefore_cases (pre : List Block) (b : Block) :
    ((∀ a, pre.getLast? = some a → a.allocated = true) ∧ mergeBefore pre b = (pre, b)) ∨
    ∃ pre' a, pre = pre' ++ [a] ∧ a.allocated = false ∧
      mergeBefore pre b = (pre', ⟨⟨a.start, a.len + b.len⟩, false⟩) := by
  unfold mergeBefore
  cases hlast : pre.getLast? with
  | none => exact .inl ⟨by simp, rfl⟩
  | some a =>
    cases ha : a.allocated with
    | true => exact .inl ⟨by simp [ha], by simp [ha]⟩
    | false =>
      refine .inr ⟨pre.dropLast, a, ?_, ha, by simp [ha]⟩
      exact (List.dropLast_append_getLast? a hlast).symm

theorem mergeBehind_cases (b : Block) (post : List Block) :
    ((∀ a, post.head? = some a → a.allocated = true) ∧ mergeBehind b post = (b, post)) ∨
    ∃ a post', post = a :: post' ∧ a.allocated = false ∧
      mergeBehind b post = (⟨⟨b.start, b.len + a.len⟩, false⟩, post') := by
  cases post with
  | nil => exact .inl ⟨by simp, rfl⟩
  | cons a post =>
    cases ha : a.allocated with
    | true => exact .inl ⟨by simp [ha], by simp [mergeBehind, ha]⟩
    | false => exact .inr ⟨a, post, rfl, ha, by simp [mergeBehind, ha]⟩

/-- No neighbour is free. -/
theorem coalesce_eq (hpre : ∀ a, pre.getLast? = some a → a.allocated = true)
    (hpost : ∀ a, post.head? = some a → a.allocated = true) :
    coalesce pre b post = pre ++ { b with allocated := false } :: post := by
  rcases mergeBefore_cases pre b with ⟨-, hb⟩ | ⟨pre', a, rfl, ha, -⟩
  · rcases mergeBehind_cases b post with ⟨-, hb'⟩ | ⟨a, post', rfl, ha, -⟩
    · simp only [coalesce, hb, hb']
    · exact absurd (hpost a rfl) (by simp [ha])
  · exact absurd (hpre a (by simp)) (by simp [ha])

/-- The entries for the blocks after `free`: one more, unless a neighbour is absorbed. -/
theorem freeEntries_coalesce (h : (freeEntries (coalesce pre b post)).length =
    (freeEntries pre).length + (freeEntries post).length + 1) :
    (∀ a, pre.getLast? = some a → a.allocated = true) ∧
      ∀ a, post.head? = some a → a.allocated = true := by
  rcases mergeBefore_cases pre b with ⟨hpre, hb⟩ | ⟨pre', a, rfl, ha, hb⟩
  · rcases mergeBehind_cases b post with ⟨hpost, -⟩ | ⟨a, post', rfl, ha, hb'⟩
    · exact ⟨hpre, hpost⟩
    · simp only [coalesce, hb, hb', freeEntries_append, freeEntries_cons, ha, List.length_append,
        Bool.false_eq_true, if_false, List.length_cons] at h
      omega
  · obtain ⟨b', hb'⟩ : ∃ b' : Block, b' = ⟨⟨a.start, a.len + b.len⟩, false⟩ := ⟨_, rfl⟩
    rw [← hb'] at hb
    have hle : (freeEntries (mergeBehind b' post).2).length ≤ (freeEntries post).length := by
      rcases mergeBehind_cases b' post with ⟨-, h⟩ | ⟨a, post', rfl, -, h⟩
      · rw [h]
      · rw [h, freeEntries_cons]
        split_ifs
        · exact le_rfl
        · exact Nat.le_succ _
    simp only [coalesce, hb, freeEntries_append, freeEntries_cons, ha, List.length_append,
      Bool.false_eq_true, if_false, List.length_cons, freeEntries_nil, List.length_nil] at h
    omega

/-- `free` finds the block again. -/
theorem blockOf_payload (ht : Tiles s.mem L.mallocBase (pre ++ b :: post) arenaEnd) :
    blockOf (b.start + headerSize) = b.start := by
  have hmem : b ∈ pre ++ b :: post := List.mem_append_right _ List.mem_cons_self
  have hroom := (ht.tagged b hmem).room
  have hend := (ht.within hmem).2
  have harena := arenaEnd_le
  have h16 : headerSize = 12 ∧ footerSize = 4 := ⟨rfl, rfl⟩
  rw [blockOf, sub32_of_le (Nat.le_add_left _ _) (by omega), Nat.add_sub_cancel]

/-- `free` finds the header of the block in front. -/
theorem prevHeader_eq {a : Block} (ht : Tiles s.mem L.mallocBase (pre ++ b :: post) arenaEnd)
    (hlast : pre.getLast? = some a) : prevHeader s.mem (b.start + headerSize) = a.start := by
  obtain ⟨pre', rfl⟩ := List.getLast?_eq_some_iff.1 hlast
  have hpre := ht.middle.1
  have hmem : a ∈ pre' ++ [a] := List.mem_append_right _ List.mem_cons_self
  have hnext : a.start + a.len = b.start := hpre.middle.2.adjacent
  have htag := hpre.tagged a hmem
  have hfooter := htag.footer
  have hend := (ht.within (List.mem_append_right _ List.mem_cons_self)).2
  have harena := arenaEnd_le
  have hstart := L.header_le.trans (hpre.within hmem).1
  have h16 : headerSize = 12 ∧ footerSize = 4 := ⟨rfl, rfl⟩
  have hroom := htag.room
  have hroom_b := (ht.tagged b (List.mem_append_right _ List.mem_cons_self)).room
  have hf : sub32 b.start footerSize = a.start + a.len - footerSize := by
    rw [hnext, sub32_of_le (by omega) (by omega)]
  rw [prevHeader, blockOf_payload ht, hf, hfooter, sub32_of_le (by omega) (by omega),
    u32_of_lt (by omega)]
  omega

theorem nextHeader_eq (ht : Tiles s.mem L.mallocBase (pre ++ b :: post) arenaEnd) :
    nextHeader s.mem (b.start + headerSize) = b.start + b.len := by
  have hmem : b ∈ pre ++ b :: post := List.mem_append_right _ List.mem_cons_self
  have hend := (ht.within hmem).2
  have hlt : arenaEnd < 2 ^ 32 := by decide
  rw [nextHeader, blockOf_payload ht, (ht.tagged b hmem).size, u32_of_lt (by omega)]

/-- What `free` does to a block of the arena. -/
theorem free_eq (ht : Tiled L s (pre ++ b :: post)) :
    ∃ sz start m', free s (b.start + headerSize) =
        (heapInsert s.heap ⟨sz, start⟩).map (fun heap => ⟨m', heap⟩) ∧
      m' = setSize (setMagic (setAllocated s.mem start false) start heapMagic) start sz ∧
      start = (if isFree s.mem (prevHeader s.mem (b.start + headerSize))
        then prevHeader s.mem (b.start + headerSize) else b.start) ∧
      (FreeOk s.mem (b.start + headerSize) → sz = b.len) := by
  have hmem : b ∈ pre ++ b :: post := List.mem_append_right _ List.mem_cons_self
  have htag := ht.tiles.tagged b hmem
  have hne : b.start + headerSize ≠ 0 := Nat.succ_ne_zero _
  have hmagic : ¬ magic s.mem b.start ≠ heapMagic := not_not.2 htag.magic
  unfold free
  rw [if_neg hne, blockOf_payload ht.tiles]
  dsimp only
  rw [if_neg hmagic]
  refine ⟨_, _, _, rfl, rfl, rfl, fun hok => ?_⟩
  rw [hok.1, hok.2]
  exact htag.size

/-- Where no neighbour is taken for a free block, `free` marks the block, and adds its entry. -/
theorem free_alone (ht : Tiled L s (pre ++ b :: post)) (hb : b.allocated = true)
    (hok : FreeOk s.mem (b.start + headerSize)) (hroom : s.heap.size < heapSize) :
    ∃ s', free s (b.start + headerSize) = .ok s' ∧
      Tiled L s' (pre ++ { b with allocated := false } :: post) ∧
      ChangesOnly s.mem s'.mem b.toExtent := by
  have hmem : b ∈ pre ++ b :: post := List.mem_append_right _ List.mem_cons_self
  have htag := ht.tiles.tagged b hmem
  have hentries : s.heap.entries.Perm (freeEntries pre ++ freeEntries post) := by
    have h := ht.entries
    rwa [freeEntries_append, freeEntries_cons, hb, if_pos rfl] at h
  obtain ⟨sz, start, m', hfree, hm', hstart, hsz⟩ := free_eq ht
  have hstart' : start = b.start := by rw [hstart, hok.1, if_neg (by simp)]
  rw [hsz hok, hstart'] at hfree hm'
  obtain ⟨heap, hi, hord, hsize', hperm⟩ := inserts (e := b.entry) ht.heap.ordered hroom
  have harena := arenaEnd_le
  have h16 : headerSize = 12 ∧ footerSize = 4 := ⟨rfl, rfl⟩
  have hroom_b := htag.room
  obtain ⟨hstart_b, hend⟩ := ht.lt hmem
  obtain ⟨hchange, hsz', hmagic', halloc'⟩ :=
    header_writes s.mem (b := false) (a := b.start) (by omega) (show b.len < 2 ^ 32 by omega) m' hm'
  have hfooter : footer m' (b.start + b.len - footerSize) = b.len := by
    refine Eq.trans (Mem.loadLE_congr fun i hlo _ => hchange i (.inr ?_)) htag.footer
    show b.start + headerSize ≤ i
    omega
  have hin : ChangesOnly s.mem m' b.toExtent := hchange.mono ⟨le_rfl, by
    show b.start + headerSize ≤ b.start + b.len
    omega⟩
  refine ⟨⟨m', heap⟩, ?_, ⟨?_, ⟨hsize'.trans_le hroom, hord⟩, ?_⟩, hin⟩
  · rw [hfree, show (⟨b.len, b.start⟩ : HeapEntry) = b.entry from rfl, hi]
    rfl
  · have htag' : ({ b with allocated := false } : Block).Tagged m' :=
      ⟨hroom_b, hsz', hmagic', halloc', hfooter⟩
    exact ht.tiles.replace harena hin htag'.tiles
  · rw [freeEntries_append, freeEntries_cons]
    exact hperm.trans ((hentries.cons _).trans List.perm_middle.symm)

/-- `free` makes the blocks that there should be exactly if neither of the headers that it takes for
the neighbours' is that of a free block, and there is room in the heap. -/
theorem freeCoalesces_iff (ht : Tiled L s (pre ++ b :: post)) (hb : b.allocated = true) :
    FreeCoalesces L s pre b post ↔
      FreeOk s.mem (b.start + headerSize) ∧ s.heap.size < heapSize := by
  have hmem : b ∈ pre ++ b :: post := List.mem_append_right _ List.mem_cons_self
  have htag := ht.tiles.tagged b hmem
  have hentries : s.heap.entries.Perm (freeEntries pre ++ freeEntries post) := by
    have h := ht.entries
    rwa [freeEntries_append, freeEntries_cons, hb, if_pos rfl] at h
  obtain ⟨sz, start, m', hfree, -, hstart, -⟩ := free_eq ht
  constructor
  · rintro ⟨⟨s', hs', ht'⟩, harena⟩
    cases hi : heapInsert s.heap ⟨sz, start⟩ with
    | error stop =>
      rw [hfree, hi] at hs'
      cases hs'
    | ok heap =>
      rw [hfree, hi] at hs'
      obtain rfl : (⟨m', heap⟩ : State) = s' := Except.ok.inj hs'
      have hroom : s.heap.size < heapSize := by
        by_contra hfull
        rw [heapInsert, if_neg hfull] at hi
        cases hi
      -- one more entry: nothing has been absorbed
      have hperm := ((entries_heapInsert hi).symm.trans ht'.entries)
      have hlen := hperm.length_eq
      rw [List.length_cons, hentries.length_eq, List.length_append] at hlen
      obtain ⟨hpre, hpost⟩ := freeEntries_coalesce hlen.symm
      rw [coalesce_eq hpre hpost, freeEntries_append, freeEntries_cons] at hperm
      have hnew := ((hentries.cons _).symm.trans (hperm.trans List.perm_middle))
      have hentry : (⟨sz, start⟩ : HeapEntry) = b.entry := by
        rw [← Multiset.coe_eq_coe, ← Multiset.cons_coe, ← Multiset.cons_coe] at hnew
        exact (Multiset.cons_inj_left _).1 hnew
      have hsame : start = b.start := congrArg HeapEntry.address hentry
      refine ⟨⟨?_, ?_⟩, hroom⟩
      · -- the block itself is not free
        by_contra hprev
        rw [Bool.not_eq_false] at hprev
        rw [hstart, if_pos hprev] at hsame
        rw [hsame, isFree, htag.allocated, hb] at hprev
        simp at hprev
      · -- the header behind is that of a block of the arena, which is the next one
        by_contra hnext
        rw [Bool.not_eq_false] at hnext
        obtain ⟨x, hx, hstart_x⟩ := harena _ (by simp) hnext
        rw [nextHeader_eq ht.tiles] at hstart_x
        have htag_x := ht.tiles.tagged x hx
        have hfree_x : x.allocated = false := by
          rw [nextHeader_eq ht.tiles, ← hstart_x, isFree, htag_x.allocated] at hnext
          simpa using (Bool.and_eq_true_iff.1 hnext).2
        obtain ⟨post', rfl⟩ := ht.tiles.exists_behind hx hstart_x
        exact absurd (hpost x rfl) (by simp [hfree_x])
  · rintro ⟨hok, hroom⟩
    have hpre : ∀ a, pre.getLast? = some a → a.allocated = true := by
      intro a ha
      have hmem_a : a ∈ pre ++ b :: post := List.mem_append_left _ (List.mem_of_getLast? ha)
      have hprev := hok.1
      have htag_a := ht.tiles.tagged a hmem_a
      rw [prevHeader_eq ht.tiles ha, isFree, htag_a.magic, htag_a.allocated] at hprev
      simpa using hprev
    have hpost : ∀ a, post.head? = some a → a.allocated = true := by
      intro a ha
      obtain ⟨post', rfl⟩ := List.head?_eq_some_iff.1 ha
      have hnext := hok.2
      have htag_a := ht.tiles.tagged a (by simp)
      have hstart_a : a.start = b.start + b.len := ht.tiles.middle.2.adjacent.1
      rw [nextHeader_eq ht.tiles, ← hstart_a, isFree, htag_a.magic, htag_a.allocated] at hnext
      simpa using hnext
    obtain ⟨s', hs', ht', -⟩ := free_alone ht hb hok hroom
    refine ⟨⟨s', hs', by rwa [coalesce_eq hpre hpost]⟩, fun h hh hfree_h => ?_⟩
    rcases List.mem_cons.1 hh with rfl | hh
    · rw [hok.1] at hfree_h
      cases hfree_h
    · obtain rfl := List.mem_singleton.1 hh
      rw [hok.2] at hfree_h
      cases hfree_h

end Free

/-! ### One block, and two -/

/-- The whole arena is one block, which is freed. -/
theorem freeCoalesces_oneBlock : FreeCoalesces sampleLayout
    (sampleState [⟨⟨0xC0200000, 0x200000⟩, true⟩]) [] ⟨⟨0xC0200000, 0x200000⟩, true⟩ [] := by
  have ht : Tiled sampleLayout (sampleState [⟨⟨0xC0200000, 0x200000⟩, true⟩])
      ([] ++ ⟨⟨0xC0200000, 0x200000⟩, true⟩ :: []) :=
    ⟨⟨by decide, by decide⟩, ⟨by decide, by decide⟩, .refl _⟩
  exact (freeCoalesces_iff ht rfl).2
    ⟨⟨by decide, by decide⟩, by decide⟩

/-- A block of 32 bytes, and a hole behind it. -/
def blockAndHole : List Block :=
  [⟨⟨0xC0200000, 32⟩, true⟩, ⟨⟨0xC0200020, 0x1FFFE0⟩, false⟩]

theorem tiled_blockAndHole : Tiled sampleLayout (sampleState blockAndHole)
    ([] ++ ⟨⟨0xC0200000, 32⟩, true⟩ :: [⟨⟨0xC0200020, 0x1FFFE0⟩, false⟩]) :=
  ⟨⟨by decide, by decide⟩, ⟨by decide, by decide⟩, .refl _⟩

/-- **`free` leaves the entry of a hole that it has merged**: there are two entries for one free
block. -/
theorem not_freeCoalesces : ¬ ∀ (L : Layout) (s : State) (pre : List Block) (b : Block)
    (post : List Block), Tiled L s (pre ++ b :: post) → b.allocated = true →
      FreeCoalesces L s pre b post := by
  intro h
  obtain ⟨⟨s', hs', ht'⟩, -⟩ := h _ _ _ _ _ tiled_blockAndHole rfl
  have htwo : (free (sampleState blockAndHole) 0xC020000C).map (fun s => s.heap.size) = .ok 2 := by
    decide
  rw [show free (sampleState blockAndHole) 0xC020000C = .ok s' from hs'] at htwo
  have hsize : s'.heap.size = 2 := Except.ok.inj htwo
  have hlen := ht'.entries.length_eq
  rw [MinHeap.entries, List.length_map, List.length_range, hsize] at hlen
  exact absurd hlen (by decide)

end Kernel

end Bluejay
