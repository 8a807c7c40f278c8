import Bluejay.Kernel.FreeTiling

/-!
# `realloc` and the boundary tags

* `reallocWith ops` : `realloc`, with the functions that it calls as parameters; `AllocOps.Correct`
  says what it expects of them.
* `reallocKeeps_of` : with correct functions, `realloc` keeps contents and neighbours if it moves
  the block to one that holds the old payload.
* `growsInPlace_of_reallocKeeps` : in place, it never does; `reallocKeeps` has both.
-/

namespace Bluejay

namespace Kernel

/-- The functions that `realloc` calls. -/
structure AllocOps where
  malloc : State → ℕ → Except Stop (ℕ × State)
  free : State → ℕ → Except Stop State
  decreaseEntry : MinHeap → HeapEntry → HeapEntry → Except Stop MinHeap
  deleteEntry : MinHeap → HeapEntry → Except Stop MinHeap

/-- Those of `alloc.c` and `kheap.c`. -/
def allocOps : AllocOps := ⟨malloc, free, heapDecreaseEntry, heapDeleteEntry⟩

/-- The live ones of the blocks `xs` are among the blocks `bs`, with the bytes they had. -/
def KeepsLive (m m' : Mem) (xs bs : List Block) : Prop :=
  ∀ x ∈ xs, x.allocated = true → x ∈ bs ∧ ∀ i, x.start ≤ i → i < x.start + x.len → m' i = m i

/-- What `realloc` expects of them. -/
structure AllocOps.Correct (ops : AllocOps) (L : Layout) : Prop where
  malloc : ∀ s bs n, Tiled L s bs → n < 2 ^ 32 →
    (∃ msg, ops.malloc s n = .error (.panic msg)) ∨
      ∃ p s' bs' b, ops.malloc s n = .ok (p, s') ∧ Tiled L s' bs' ∧ b ∈ bs' ∧ b ∉ bs ∧
        b.allocated = true ∧ p = b.start + headerSize ∧ n + headerSize + footerSize ≤ b.len ∧
        KeepsLive s.mem s'.mem bs bs'
  free : ∀ s pre b post, Tiled L s (pre ++ b :: post) → b.allocated = true →
    (∃ msg, ops.free s (b.start + headerSize) = .error (.panic msg)) ∨
      ∃ s' bs', ops.free s (b.start + headerSize) = .ok s' ∧ Tiled L s' bs' ∧
        KeepsLive s.mem s'.mem (pre ++ post) bs'
  /-- An entry that is not there has the index `-1`. -/
  decreaseEntry : ∀ h e new, HeapOk h →
    if e ∈ h.entries then ∃ h', ops.decreaseEntry h e new = .ok h' ∧
      (new.key ≤ e.key → HeapOk h') ∧ h'.entries.Perm (new :: h.entries.erase e)
    else ops.decreaseEntry h e new = .error .fault
  deleteEntry : ∀ h e, HeapOk h →
    if e ∈ h.entries then ∃ h', ops.deleteEntry h e = .ok h' ∧ HeapOk h' ∧
      h'.entries.Perm (h.entries.erase e)
    else ops.deleteEntry h e = .error .fault

/-- `realloc` in place, with the functions that it calls as parameters. -/
def growInPlaceWith (ops : AllocOps) (s : State) (mem size' : ℕ) : Except Stop (ℕ × State) :=
  let base := blockOf mem
  let next := nextHeader s.mem mem
  let remaining :=
    sub32 (size s.mem base + size s.mem next) (size' + headerSize + footerSize)
  let old_entry : HeapEntry := ⟨size s.mem next, next⟩
  let finish := fun (m : Mem) (f : ℕ) (heap : MinHeap) =>
    let full_size := u32 (sub32 f base + footerSize)
    let m := setFooter m f full_size
    let m := setSize m base full_size
    let m := setMagic m base heapMagic
    let m := setAllocated m base true
    (mem, (⟨m, heap⟩ : State))
  if remaining ≤ headerSize + footerSize + 8 then
    let f := sub32 (next + headerSize * size s.mem next) (headerSize * footerSize)
    (ops.deleteEntry s.heap old_entry).map fun heap => finish s.mem f heap
  else
    let f := u32 (mem + size')
    let new_h := u32 (f + footerSize * footerSize)
    let new_f := sub32 (new_h + headerSize * remaining) (headerSize * footerSize)
    let m := setAllocated s.mem new_h false
    let m := setFooter m new_f remaining
    let m := setSize m new_h remaining
    let m := setMagic m new_h heapMagic
    (ops.decreaseEntry s.heap old_entry ⟨remaining, new_h⟩).map fun heap => finish m f heap

/-- `realloc`, with the functions that it calls as parameters. -/
def reallocWith (ops : AllocOps) (s : State) (mem size' : ℕ) : Except Stop (ℕ × State) :=
  if mem = 0 then .ok (0, s)
  else if growsInPlace s.mem mem size' then growInPlaceWith ops s mem size'
  else
    match ops.malloc s size' with
    | .error stop => .error stop
    | .ok (new, s₁) =>
      if new = 0 then .ok (new, s₁)
      else (ops.free (copyPayload s₁ new mem) mem).map fun s₂ => (new, s₂)

theorem reallocWith_allocOps : reallocWith allocOps = realloc := rfl

/-- `realloc` panics, or returns a block that is large enough and starts with what the old one held,
and leaves the other live blocks as they are; the blocks fill the arena again. -/
def ReallocKeeps (ops : AllocOps) (L : Layout) (s : State) (pre : List Block) (b : Block)
    (post : List Block) (n : ℕ) : Prop :=
  (∃ msg, reallocWith ops s (b.start + headerSize) n = .error (.panic msg)) ∨
    ∃ p s' bs c, reallocWith ops s (b.start + headerSize) n = .ok (p, s') ∧ Tiled L s' bs ∧
      c ∈ bs ∧ c.allocated = true ∧ p = c.start + headerSize ∧
      n + headerSize + footerSize ≤ c.len ∧
      (∀ i < min (b.len - (headerSize + footerSize)) n,
        s'.mem (p + i) = s.mem (b.start + headerSize + i)) ∧
      KeepsLive s.mem s'.mem (pre ++ post) bs

section Realloc

variable {ops : AllocOps} {L : Layout} {s : State} {pre post : List Block} {b : Block} {n : ℕ}

theorem mem_of_mem_of_ne {x : Block} (hx : x ∈ pre ++ b :: post) (hne : x ≠ b) :
    x ∈ pre ++ post := by
  rcases List.mem_append.1 hx with hx | hx
  · exact List.mem_append_left _ hx
  · exact List.mem_append_right _ ((List.mem_cons.1 hx).resolve_left hne)

/-- The blocks beside `b` are not `b`. -/
theorem Tiled.mem_and_ne {x : Block} (ht : Tiled L s (pre ++ b :: post)) (hx : x ∈ pre ++ post) :
    x ∈ pre ++ b :: post ∧ x ≠ b := by
  have h16 : headerSize = 12 ∧ footerSize = 4 := ⟨rfl, rfl⟩
  have hroom := (ht.tiles.tagged b (List.mem_append_right _ List.mem_cons_self)).room
  rcases List.mem_append.1 hx with hx | hx
  · refine ⟨List.mem_append_left _ hx, ?_⟩
    rintro rfl
    have hle := (ht.tiles.middle.1.within hx).2
    omega
  · refine ⟨List.mem_append_right _ (List.mem_cons_of_mem _ hx), ?_⟩
    rintro rfl
    have hle := (ht.tiles.middle.2.within hx).1
    omega

/-- A block that is moved to one that holds its payload. -/
theorem reallocKeeps_of (hops : ops.Correct L) (ht : Tiled L s (pre ++ b :: post))
    (hb : b.allocated = true) (hn : n < 2 ^ 32)
    (hgrow : growsInPlace s.mem (b.start + headerSize) n = false)
    (hfit : b.len ≤ n + headerSize + footerSize) : ReallocKeeps ops L s pre b post n := by
  have h16 : headerSize = 12 ∧ footerSize = 4 := ⟨rfl, rfl⟩
  have hmem : b ∈ pre ++ b :: post := List.mem_append_right _ List.mem_cons_self
  have hne : ∀ a, a + headerSize ≠ 0 := fun a => Nat.succ_ne_zero _
  have hreal : reallocWith ops s (b.start + headerSize) n =
      match ops.malloc s n with
      | .error stop => .error stop
      | .ok (new, s₁) =>
        if new = 0 then .ok (new, s₁)
        else (ops.free (copyPayload s₁ new (b.start + headerSize)) (b.start + headerSize)).map
          fun s₂ => (new, s₂) := by
    rw [reallocWith, if_neg (hne b.start), hgrow, if_neg (by simp)]
  unfold ReallocKeeps
  rw [hreal]
  rcases hops.malloc s _ n ht hn with ⟨msg, hm⟩ | ⟨p, s₁, bs₁, c, hm, ht₁, hc, hnew, hcalloc,
    rfl, hroom, hkeep₁⟩
  · rw [hm]
    exact .inl ⟨msg, rfl⟩
  rw [hm]
  obtain ⟨hb₁, hbytes₁⟩ := hkeep₁ b hmem hb
  have hcb : c ≠ b := by
    rintro rfl
    exact hnew hmem
  have hdisj := ht₁.tiles.disjoint_of_ne hc hb₁ hcb
  have htag := ht₁.tiles.tagged b hb₁
  have hend := (ht₁.lt hb₁).2
  have harena := arenaEnd_le
  have hstart := (ht₁.lt hb₁).1
  have hroom_b := htag.room
  obtain ⟨pre₁, post₁, rfl⟩ := List.append_of_mem hb₁
  -- the bytes of the old payload are copied to the new one
  obtain ⟨s₂, hs₂⟩ : ∃ s₂, copyPayload s₁ (c.start + headerSize) (b.start + headerSize) = s₂ :=
    ⟨_, rfl⟩
  have hcopy : s₂.mem = s₁.mem.memcpy (c.start + headerSize) (b.start + headerSize)
      (b.len - (headerSize + footerSize)) := by
    rw [← hs₂, copyPayload, blockOf_payload ht₁.tiles, htag.size, sub32_of_le htag.room (by omega)]
  have hout : ∀ i, i < c.start + headerSize ∨ c.start + c.len - footerSize ≤ i →
      s₂.mem i = s₁.mem i := by
    intro i hi
    rw [hcopy]
    exact Mem.memcpy_of_out (by omega)
  have ht₂ : Tiled L s₂ (pre₁ ++ b :: post₁) := by
    have hs : s₂ = ⟨s₂.mem, s₁.heap⟩ := by rw [← hs₂, copyPayload]
    rw [hs]
    exact ht₁.payload hc hout
  have hc₁ : c ∈ pre₁ ++ post₁ := mem_of_mem_of_ne hc hcb
  dsimp only
  rw [if_neg (hne c.start), hs₂]
  rcases hops.free s₂ pre₁ b post₁ ht₂ hb with ⟨msg, hf⟩ | ⟨s₃, bs₃, hf, ht₃, hkeep₃⟩
  · rw [hf]
    exact .inl ⟨msg, rfl⟩
  rw [hf]
  obtain ⟨hc₃, hbytes₃⟩ := hkeep₃ c hc₁ hcalloc
  refine .inr ⟨_, s₃, bs₃, c, rfl, ht₃, hc₃, hcalloc, rfl, hroom, fun i hi => ?_,
    fun x hx hxa => ?_⟩
  · have hi' := lt_min_iff.1 hi
    unfold Extent.Disjoint at hdisj
    rw [hbytes₃ _ (by omega) (by omega), hcopy,
      Mem.memcpy_of_disjoint (by omega) hi'.1, hbytes₁ _ (by omega) (by omega)]
  · obtain ⟨hx', hxb⟩ := ht.mem_and_ne hx
    obtain ⟨hx₁, hxbytes₁⟩ := hkeep₁ x hx' hxa
    have hxc : x ≠ c := by
      rintro rfl
      exact hnew hx'
    have hd := ht₁.tiles.disjoint_of_ne hx₁ hc hxc
    obtain ⟨hx₃, hxbytes₃⟩ := hkeep₃ x (mem_of_mem_of_ne hx₁ hxb) hxa
    refine ⟨hx₃, fun i hlo hhi => ?_⟩
    unfold Extent.Disjoint at hd
    rw [hxbytes₃ i hlo hhi, hout i (by omega), hxbytes₁ i hlo hhi]

/-- No block reaches over the end of the block behind `b`: what comes there is live, or has its
entry in the heap still. -/
theorem not_straddles {x c : Block} {s' : State} {bs : List Block}
    (ht : Tiled L s (pre ++ b :: x :: post)) (ht' : Tiled L s' bs)
    (hkeep : KeepsLive s.mem s'.mem (pre ++ x :: post) bs)
    (hentries : ∀ e ∈ freeEntries post, e ∈ s'.heap.entries) (hc : c ∈ bs) :
    ¬ (c.start < x.start + x.len ∧ x.start + x.len < c.start + c.len) := by
  rintro ⟨hlo, hhi⟩
  have hend := (ht'.lt hc).2
  have hx : Adjacent (b.start + b.len) (x.toExtent :: post.map Block.toExtent) arenaEnd :=
    ht.tiles.middle.2.adjacent
  cases post with
  | nil =>
    have hlast : b.start + b.len + x.len = arenaEnd := hx.2
    have hstart : x.start = b.start + b.len := hx.1
    omega
  | cons y post =>
    have hstart : x.start = b.start + b.len := hx.1
    have hstart_y : y.start = b.start + b.len + x.len := hx.2.1
    obtain ⟨z, hz, hstart_z⟩ : ∃ z ∈ bs, z.start = y.start := by
      cases hy : y.allocated with
      | true => exact ⟨y, (hkeep y (by simp) hy).1, rfl⟩
      | false =>
        have hin := hentries y.entry (by rw [freeEntries_cons, hy]; exact List.mem_cons_self)
        obtain ⟨z, hz, -, hzy⟩ := mem_freeEntries.1 (ht'.entries.mem_iff.1 hin)
        exact ⟨z, hz, congrArg HeapEntry.address hzy⟩
    have hne : z ≠ c := by
      rintro rfl
      omega
    have hd := ht'.tiles.disjoint_of_ne hz hc hne
    have hroom := (ht'.tiles.tagged z hz).room
    unfold Extent.Disjoint at hd
    have h16 : headerSize = 12 ∧ footerSize = 4 := ⟨rfl, rfl⟩
    omega

/-- Without the entry of a free block, the entries of the blocks further on are in the heap
still. -/
theorem Tiled.mem_erase {x : Block} (ht : Tiled L s (pre ++ b :: x :: post)) {e : HeapEntry}
    (he : e ∈ freeEntries post) : e ∈ s.heap.entries.erase x.entry := by
  obtain ⟨y, hy, hfree, rfl⟩ := mem_freeEntries.1 he
  have hx : x ∈ pre ++ b :: x :: post := by simp
  have hroom := (ht.tiles.tagged x hx).room
  have h16 : headerSize = 12 ∧ footerSize = 4 := ⟨rfl, rfl⟩
  have hlo := (ht.tiles.middle.2.adjacent.2.within _ (List.mem_map_of_mem hy)).1
  have hstart : x.start = b.start + b.len := ht.tiles.middle.2.adjacent.1
  have hne : y.entry ≠ x.entry := by
    intro heq
    have hstart_y : y.start = x.start := congrArg HeapEntry.address heq
    omega
  exact (List.mem_erase_of_ne hne).2
    (ht.entries.mem_iff.2 (mem_freeEntries.2 ⟨y, by simp [hy], hfree, rfl⟩))

/-- The last writes of `realloc` in place leave the size. -/
theorem size_finish (m : Mem) {a v : ℕ} (ha : a + headerSize ≤ 2 ^ 32) (hv : v < 2 ^ 32) :
    size (setAllocated (setMagic (setSize m a v) a heapMagic) a true) a = v := by
  have h4 : u32 (a + 4) = a + 4 := u32_of_lt (by simp only [headerSize] at ha; omega)
  have h8 : u32 (a + 8) = a + 8 := u32_of_lt (by simp only [headerSize] at ha; omega)
  rw [size, setAllocated, h4, h8, Mem.loadLE_storeLE_of_disjoint (by omega), setMagic,
    Mem.loadLE_storeLE_of_disjoint (by omega), setSize, h8, Mem.loadLE_storeLE]
  exact Nat.mod_eq_of_lt hv

/-- In place, neither the footer nor the header of the remainder is written where it should be. -/
theorem growsInPlace_of_reallocKeeps (hops : ops.Correct L) (hbase : 0xC0100000 ≤ L.mallocBase)
    (ht : Tiled L s (pre ++ b :: post)) (h : ReallocKeeps ops L s pre b post n) :
    growsInPlace s.mem (b.start + headerSize) n = false := by
  by_contra hgrow
  rw [Bool.not_eq_false] at hgrow
  have h16 : headerSize = 12 ∧ footerSize = 4 := ⟨rfl, rfl⟩
  have hmem : b ∈ pre ++ b :: post := List.mem_append_right _ List.mem_cons_self
  have htag := ht.tiles.tagged b hmem
  have hend := (ht.lt hmem).2
  have hstart := (ht.tiles.within hmem).1
  have hroom := htag.room
  have harena : arenaEnd = 0xC0400000 := rfl
  have hne : b.start + headerSize ≠ 0 := Nat.succ_ne_zero _
  unfold ReallocKeeps at h
  rw [reallocWith, if_neg hne, if_pos hgrow] at h
  simp only [growInPlaceWith, blockOf_payload ht.tiles, nextHeader_eq ht.tiles, htag.size] at h
  simp only [growsInPlace, blockOf_payload ht.tiles, nextHeader_eq ht.tiles, htag.size,
    Bool.and_eq_true, Bool.not_eq_true', decide_eq_true_eq] at hgrow
  set z := size s.mem (b.start + b.len) with hz
  have hdelete := hops.deleteEntry s.heap ⟨z, b.start + b.len⟩ ht.heap
  have hdecrease := fun new => hops.decreaseEntry s.heap ⟨z, b.start + b.len⟩ new ht.heap
  by_cases hin : (⟨z, b.start + b.len⟩ : HeapEntry) ∈ s.heap.entries
  · simp only [if_pos hin] at hdelete hdecrease
    obtain ⟨x, hx, hfree_x, hentry⟩ := mem_freeEntries.1 (ht.entries.mem_iff.1 hin)
    have hstart_x : x.start = b.start + b.len := congrArg HeapEntry.address hentry
    have hlen_x : x.len = z := congrArg HeapEntry.key hentry
    have hend_x := (ht.lt hx).2
    have hroom_x := (ht.tiles.tagged x hx).room
    obtain ⟨post', rfl⟩ := ht.tiles.exists_behind hx hstart_x
    have hothers : ∀ e ∈ freeEntries post', e ∈ s.heap.entries.erase ⟨z, b.start + b.len⟩ :=
      fun e he => hentry ▸ ht.mem_erase he
    have hn : n ≤ z + b.len - (headerSize + footerSize) := by
      rw [sub32_of_le (by omega) (by omega)] at hgrow
      exact hgrow.2
    have hremaining : sub32 (b.len + z) (n + headerSize + footerSize) =
        b.len + z - (n + headerSize + footerSize) := sub32_of_le (by omega) (by omega)
    rw [hremaining] at h
    by_cases hsmall : b.len + z - (n + headerSize + footerSize) ≤ headerSize + footerSize + 8
    · obtain ⟨heap, hd, -, hperm⟩ := hdelete
      simp only [if_pos hsmall, hd] at h
      rcases h with ⟨msg, h⟩ | ⟨p, s', bs, c, h, ht', hc, -, hp, -, -, hkeep⟩
      · cases h
      obtain ⟨hp', hs'⟩ := Prod.mk.inj (Except.ok.inj h)
      have hstart_c : c.start = b.start := by omega
      have hlen_c : c.len = b.len + 12 * z - 44 := by
        have hf : sub32 (b.start + b.len + headerSize * z) (headerSize * footerSize) =
            b.start + b.len + 12 * z - 48 := by
          show sub32 (b.start + b.len + 12 * z) 48 = _
          exact sub32_of_le (by omega) (by omega)
        have hfull : u32 (sub32 (b.start + b.len + 12 * z - 48) b.start + footerSize) =
            b.len + 12 * z - 44 := by
          rw [sub32_of_le (by omega) (by omega), u32_of_lt (by omega)]
          omega
        have hsize := (ht'.tiles.tagged c hc).size
        rw [hstart_c, ← hs', hf, hfull] at hsize
        rw [← hsize]
        exact size_finish _ (by omega) (by omega)
      refine not_straddles ht ht' hkeep (fun e he => ?_) hc ⟨by omega, by omega⟩
      rw [← hs']
      exact hperm.mem_iff.2 (hothers e he)
    · obtain ⟨heap, hd, -, hperm⟩ := hdecrease ⟨b.len + z - (n + headerSize + footerSize),
        u32 (u32 (b.start + headerSize + n) + footerSize * footerSize)⟩
      simp only [if_neg hsmall, hd] at h
      rcases h with ⟨msg, h⟩ | ⟨p, s', bs, c, h, ht', -, -, -, -, -, hkeep⟩
      · cases h
      obtain ⟨-, hs'⟩ := Prod.mk.inj (Except.ok.inj h)
      -- the remainder has its entry where the header was written
      have hnew : u32 (u32 (b.start + headerSize + n) + footerSize * footerSize) =
          b.start + n + 28 := by
        rw [u32_of_lt (show b.start + headerSize + n < 2 ^ 32 by omega)]
        show u32 (b.start + 12 + n + 16) = _
        rw [u32_of_lt (by omega)]
        omega
      have hrest : (⟨b.len + z - (n + headerSize + footerSize), b.start + n + 28⟩ : HeapEntry) ∈
          s'.heap.entries := by
        rw [← hs', ← hnew]
        exact hperm.mem_iff.2 List.mem_cons_self
      obtain ⟨r, hr, -, hentry_r⟩ := mem_freeEntries.1 (ht'.entries.mem_iff.1 hrest)
      have hstart_r : r.start = b.start + n + 28 := congrArg HeapEntry.address hentry_r
      have hlen_r : r.len = b.len + z - (n + headerSize + footerSize) :=
        congrArg HeapEntry.key hentry_r
      refine not_straddles ht ht' hkeep (fun e he => ?_) hr ⟨by omega, by omega⟩
      rw [← hs']
      exact hperm.mem_iff.2 (List.mem_cons_of_mem _ (hothers e he))
  · -- there is no such entry: the index is `-1`
    simp only [if_neg hin] at hdelete hdecrease
    rw [hdelete, hdecrease] at h
    rcases h with ⟨msg, h⟩ | ⟨p, s', bs, c, h, -⟩
    · split_ifs at h <;> simp [Except.map] at h
    · split_ifs at h <;> simp [Except.map] at h

end Realloc

/-! ### Functions that are correct -/

/-- What `malloc` should return. -/
def GoodMalloc (L : Layout) (s : State) (n : ℕ) (r : ℕ × State) : Prop :=
  ∀ bs, Tiled L s bs → ∃ bs' b, Tiled L r.2 bs' ∧ b ∈ bs' ∧ b ∉ bs ∧ b.allocated = true ∧
    r.1 = b.start + headerSize ∧ n + headerSize + footerSize ≤ b.len ∧
    KeepsLive s.mem r.2.mem bs bs'

/-- What `free` should return. -/
def GoodFree (L : Layout) (s : State) (p : ℕ) (s' : State) : Prop :=
  ∀ pre b post, Tiled L s (pre ++ b :: post) → p = b.start + headerSize → b.allocated = true →
    ∃ bs, Tiled L s' bs ∧ KeepsLive s.mem s'.mem (pre ++ post) bs

open Classical in
/-- Panic instead of returning what is not good. -/
noncomputable def checked {α : Type} (good : α → Prop) : Except Stop α → Except Stop α
  | .ok a => if good a then .ok a else .error (.panic "Heap overflow!")
  | .error _ => .error (.panic "Heap overflow!")

/-- The functions of `alloc.c`, with correct operations on the heap, where what they return is
good. -/
noncomputable def checkedOps (L : Layout) : AllocOps where
  malloc s n := checked (GoodMalloc L s n) (mallocWith plainOps s n)
  free s p := checked (GoodFree L s p) (free s p)
  decreaseEntry h e new :=
    if e ∈ h.entries then .ok (sortedHeap (new :: h.entries.erase e)) else .error .fault
  deleteEntry h e :=
    if e ∈ h.entries then .ok (sortedHeap (h.entries.erase e)) else .error .fault

theorem checked_cases {α : Type} (good : α → Prop) (x : Except Stop α) :
    (∃ msg, checked good x = .error (.panic msg)) ∨ ∃ a, checked good x = .ok a ∧ good a := by
  cases x with
  | error e => exact .inl ⟨_, rfl⟩
  | ok a =>
    by_cases hgood : good a
    · exact .inr ⟨a, if_pos hgood, hgood⟩
    · exact .inl ⟨_, if_neg hgood⟩

theorem checkedOps_correct (L : Layout) : (checkedOps L).Correct L where
  malloc s bs n ht _ := by
    rcases checked_cases (GoodMalloc L s n) (mallocWith plainOps s n) with h | ⟨r, hr, hgood⟩
    · exact .inl h
    · obtain ⟨bs', b, hgood⟩ := hgood bs ht
      exact .inr ⟨r.1, r.2, bs', b, hr, hgood⟩
  free s pre b post ht hb := by
    rcases checked_cases (GoodFree L s (b.start + headerSize)) (free s (b.start + headerSize))
      with h | ⟨s', hs', hgood⟩
    · exact .inl h
    · obtain ⟨bs, hgood⟩ := hgood pre b post ht rfl hb
      exact .inr ⟨s', bs, hs', hgood⟩
  decreaseEntry h e new hh := by
    split_ifs with hin
    · have hlen : (new :: h.entries.erase e).length ≤ heapSize := by
        have hpos := List.length_pos_of_mem hin
        rw [List.length_cons, List.length_erase_of_mem hin, Nat.sub_add_cancel hpos]
        simpa [MinHeap.entries] using hh.size
      exact ⟨_, if_pos hin, fun _ => heapOk_sortedHeap hlen, entries_sortedHeap _⟩
    · exact if_neg hin
  deleteEntry h e hh := by
    split_ifs with hin
    · have hlen : (h.entries.erase e).length ≤ heapSize := by
        refine List.length_erase_le.trans ?_
        simpa [MinHeap.entries] using hh.size
      exact ⟨_, if_pos hin, heapOk_sortedHeap hlen, entries_sortedHeap _⟩
    · exact if_neg hin

/-! ### Four blocks, and two -/

/-- Two live blocks, a hole that is a bit larger than the first one, and a live block. -/
def fourBlocks : List Block := [⟨⟨0xC0200000, 32⟩, true⟩, ⟨⟨0xC0200020, 32⟩, true⟩,
  ⟨⟨0xC0200040, 48⟩, false⟩, ⟨⟨0xC0200070, 0x1FFF90⟩, true⟩]

theorem tiled_fourBlocks : Tiled sampleLayout (sampleState fourBlocks) fourBlocks :=
  ⟨⟨by decide, by decide⟩, ⟨by decide, by decide⟩, .refl _⟩

end Kernel

end Bluejay
