import Bluejay.Kernel.Tables

/-!
# Releasing frames

* `maps` : runs of `alloc_frame` and `map_page`, each of which maps a page.
* `SetsItsBit` : a call marks the frame that its entry records, and no other one.
* `Release` : the ways in which the frames are given back.
* `Undone` : every call sets its bit, and the release leaves the bit set as it was before.
* `undone_iff` : addresses, frame numbers and entries are mixed up, so this holds only for frame 0,
  where they are all the same.
-/

namespace Bluejay

namespace Kernel

/-- A call that maps a page. -/
inductive MapCall
  | allocFrame (user writable : Bool)
  | mapPage (dir virt : ℕ) (user rw : Bool)

/-- A call, and the address of the entry that it is about. -/
structure Mapping where
  call : MapCall
  entry : ℕ

/-- The calls; the memory that `malloc` returns is not that of the directory. -/
inductive MapStep (s : Paging) : Mapping → Paging → Prop
  | allocFrame {entry : ℕ} {user writable : Bool} {s' : Paging}
      (h : allocFrame s entry user writable = some s') :
      MapStep s ⟨.allocFrame user writable, entry⟩ s'
  | mapPage {dir virt p : ℕ} {user rw : Bool} {s' : Paging}
      (hp : p + 0x1000 ≤ dir ∨ dir + 0x1000 ≤ p) (h : mapPage s dir virt user rw p = some s') :
      MapStep s ⟨.mapPage dir virt user rw,
        (getOrCreateTable s dir (tableOf virt) user rw p).1 + 4 * pageOf virt⟩ s'

/-- All sequences of calls that map their pages. -/
def maps : System Paging Mapping where
  step s m s' := MapStep s m s' ∧ s.present m.entry = false ∧ s'.present m.entry = true

/-- The frame that the entry records. -/
def recordedFrame (s : Paging) (entry : ℕ) : ℕ := s.word entry / 0x1000

/-- The call sets one bit, that of the frame recorded in its entry. -/
def SetsItsBit (x : Paging × Mapping × Paging) : Prop :=
  used x.1.frames (recordedFrame x.2.2 x.2.1.entry) = false ∧
    ∀ f, used x.2.2.frames f =
      (decide (f = recordedFrame x.2.2 x.2.1.entry) || used x.1.frames f)

/-- How frames are given back. -/
inductive Release
  /-- By `free_frame`, each with its address. -/
  | freed
  /-- By `unmap_all_frames`. -/
  | unmapped (pageTableP : ℕ)
  /-- By `destroy_page_table_if_exists`. -/
  | destroyed (dir table : ℕ)

/-- The bit set after the frames of the entries `es` are given back. -/
def Release.run (s : Paging) (es : List ℕ) : Release → ℕ → ℕ
  | .freed => es.foldl (fun frames e => freeFrame frames (0x1000 * recordedFrame s e)) s.frames
  | .unmapped pageTableP => unmapAllFrames s pageTableP
  | .destroyed dir table => (destroyPageTableIfExists s dir table).frames

/-- The present entries of the table at `t` are `es`. -/
structure TableOf (s : Paging) (t : ℕ) (es : List ℕ) : Prop where
  aligned : t % 4 = 0
  mem_iff : ∀ e, e ∈ es ↔ ∃ i < 1024, e = t + 4 * i ∧ s.present e = true

/-- The release is one of the frames of the entries `es`. -/
def Release.Covers (s : Paging) (es : List ℕ) : Release → Prop
  | .freed => True
  | .unmapped pageTableP => TableOf s (physToVirt pageTableP) es
  | .destroyed dir table => entryPresent s dir table = true ∧ largePage s dir table = false ∧
      TableOf s (tableAt s dir table) es

/-- The entries of the calls. -/
def entries (ts : List (Paging × Mapping × Paging)) : List ℕ := ts.map fun x => x.2.1.entry

/-- Every call sets its bit, and the release clears these bits and no others. -/
def Undone (s₀ : Paging) (ts : List (Paging × Mapping × Paging)) (s : Paging) (r : Release) :
    Prop :=
  (∀ x ∈ ts, SetsItsBit x) ∧ ∀ f, used (r.run s (entries ts)) f = used s₀.frames f

/-- The frames whose bits `unmap_all_frames` clears: it takes the frame number of an entry for an
address. -/
def clearedFrames (s : Paging) (pageTableP : ℕ) : List ℕ :=
  (((List.range 1024).map fun i => loadWord s.word (physToVirt pageTableP + 4 * i)).filter
    (· % 2 = 1)).map fun e => e >>> 12 / 0x1000

/-- `destroy_page_table_if_exists` takes the frame number of the table for its address, too: what
is there clears frame 0, if it was mapped, and no frame that was in use before. -/
def Release.Lucky (s₀ s : Paging) (es : List ℕ) : Release → Prop
  | .destroyed dir table =>
    (es ≠ [] → 0 ∈ clearedFrames s (s.word (dir + 4 * table) >>> 12)) ∧
      ∀ f ∈ clearedFrames s (s.word (dir + 4 * table) >>> 12), used s₀.frames f = false
  | _ => True

/-- No page is mapped, or one by `alloc_frame` while frame 0 is free. -/
def OnlyFrameZero (s₀ : Paging) (ts : List (Paging × Mapping × Paging)) : Prop :=
  ts = [] ∨ ∃ x, ts = [x] ∧ (∃ user writable, x.2.1.call = .allocFrame user writable) ∧
    used s₀.frames 0 = false

section Release

variable {s s' s₀ : Paging} {frames : ℕ → ℕ} {entry f : ℕ} {user writable : Bool} {m : Mapping}

theorem used_clearFrame (a f : ℕ) :
    used (clearFrame frames a) f = (used frames f && decide (f ≠ a / 0x1000)) := by
  have hsplit : f = a / 0x1000 ↔
      f / bits = a / 0x1000 / bits ∧ f % bits = a / 0x1000 % bits := by
    unfold bits
    omega
  have hlt : f % bits < 32 := Nat.mod_lt _ (by decide)
  have hpow : 2 ^ (a / 0x1000 % bits) < 2 ^ 32 :=
    Nat.pow_lt_pow_right (by decide) (Nat.mod_lt _ (by decide))
  simp only [used, clearFrame, Function.update_apply, Nat.one_shiftLeft]
  by_cases hq : f / bits = a / 0x1000 / bits
  · rw [if_pos hq, Nat.testBit_and, Nat.sub_sub, Nat.add_comm 1, Nat.testBit_two_pow_sub_succ hpow,
      Nat.testBit_two_pow, decide_eq_true hlt, Bool.true_and, hq]
    simp only [ne_eq, hsplit, hq, true_and, eq_comm, decide_not]
  · rw [if_neg hq]
    simp [hsplit, hq]

/-- `unmap_all_frames` clears the bits of `clearedFrames`. -/
theorem used_unmapAllFrames (pageTableP f : ℕ) : used (unmapAllFrames s pageTableP) f =
    (used s.frames f && decide (f ∉ clearedFrames s pageTableP)) := by
  unfold unmapAllFrames clearedFrames
  generalize s.frames = frames
  generalize List.range 1024 = is
  induction is generalizing frames with
  | nil => simp
  | cons i is ih =>
    rw [List.foldl_cons, ih, List.map_cons, List.filter_cons]
    by_cases hodd : loadWord s.word (physToVirt pageTableP + 4 * i) % 2 = 1
    · have hne : loadWord s.word (physToVirt pageTableP + 4 * i) &&& 1 ≠ 0 := by
        rw [Nat.and_one_is_mod, hodd]
        decide
      simp only [if_pos hne, hodd, decide_true, if_true, List.map_cons, List.mem_cons, not_or,
        used_clearFrame]
      simp only [ne_eq, Bool.decide_and, Bool.and_assoc]
    · have hzero : ¬ loadWord s.word (physToVirt pageTableP + 4 * i) &&& 1 ≠ 0 := by
        rw [Nat.and_one_is_mod]
        omega
      simp only [if_neg hzero, hodd, decide_false, Bool.false_eq_true, if_false]

/-! ### What a call does -/

/-- The bit of the frame is set, and its number is put into the lowest bits of the entry. -/
theorem allocFrame_sets (h : allocFrame s entry user writable = some s')
    (hs : s.present entry = false) : ∃ f, firstFreeFrame s.frames = some f ∧
      (∀ g, used s'.frames g = (decide (g = f) || used s.frames g)) ∧
      recordedFrame s' entry = f / 0x1000 ∧
      s'.word entry = f ||| 1 ||| writable.toNat <<< 1 ||| user.toNat <<< 2 := by
  rcases allocFrame_cases h with ⟨hp, -⟩ | ⟨-, f, hf, hframes, hword⟩
  · rw [hs] at hp
    cases hp
  · obtain ⟨hlt, -⟩ := firstFreeFrame_spec hf
    have hsets : numSets * bits = 32736 := by decide
    have hunit : u32 (f * 0x1000) / 0x1000 = f := by
      rw [u32_of_lt (by omega)]
      omega
    refine ⟨f, hf, fun g => ?_, ?_, hword⟩
    · rw [hframes, used_setFrame, hunit]
    · rw [recordedFrame, hword, or_flags_div]

theorem firstFreeFrame_zero (h : used frames 0 = false) : firstFreeFrame frames = some 0 := by
  obtain ⟨f, hf⟩ := exists_firstFreeFrame (by decide) h
  rcases Nat.eq_zero_or_pos f with rfl | hpos
  · exact hf
  · rw [firstFreeFrame_least hf hpos] at h
    cases h

theorem tableOf_lt (virt : ℕ) : tableOf virt < 1024 := by
  have := u32_lt virt
  rw [tableOf, Nat.shiftRight_eq_div_pow]
  omega

/-- The look-up of a table leaves the entries of the table alone. -/
theorem getOrCreateTable_present {dir table page p : ℕ} {rw : Bool}
    (hp : p + 0x1000 ≤ dir ∨ dir + 0x1000 ≤ p) (htable : table < 1024) (hpage : page < 1024) :
    (getOrCreateTable s dir table user rw p).2.frames = s.frames ∧
      (getOrCreateTable s dir table user rw p).2.present
        ((getOrCreateTable s dir table user rw p).1 + 4 * page) =
      s.present ((getOrCreateTable s dir table user rw p).1 + 4 * page) := by
  by_cases h : hasTable s dir table
  · rw [getOrCreateTable, if_pos h]
    exact ⟨rfl, rfl⟩
  · have hne : p + 4 * page ≠ dir + 4 * table := by
      rcases hp with h | h <;> omega
    rw [getOrCreateTable, if_neg h]
    exact ⟨rfl, by simp only [Paging.present, Function.update_of_ne hne]⟩

/-- The bit set has no part in it. -/
theorem getOrCreateTable_setFrames {dir table p : ℕ} {rw : Bool} :
    (getOrCreateTable { s with frames := frames } dir table user rw p).1 =
      (getOrCreateTable s dir table user rw p).1 := by
  by_cases h : hasTable s dir table
  · have h' : hasTable { s with frames := frames } dir table := h
    rw [getOrCreateTable, getOrCreateTable, if_pos h, if_pos h']
    rfl
  · have h' : ¬ hasTable { s with frames := frames } dir table := h
    rw [getOrCreateTable, getOrCreateTable, if_neg h, if_neg h']

/-- `map_page` marks the frame before it takes one, so that it never takes frame 0. -/
theorem mapPage_sets {dir virt p : ℕ} {rw : Bool} (hp : p + 0x1000 ≤ dir ∨ dir + 0x1000 ≤ p)
    (h : mapPage s dir virt user rw p = some s')
    (hentry : entry = (getOrCreateTable s dir (tableOf virt) user rw p).1 + 4 * pageOf virt)
    (hs : s.present entry = false) (hs' : s'.present entry = true) :
    ∃ f ≠ 0, used s.frames f = false ∧ used s'.frames f = true ∧
      recordedFrame s' entry = f / 0x1000 := by
  unfold mapPage at h
  split at h
  · cases h
  · rename_i g hg
    dsimp only at h
    split_ifs at h with hmapped
    · cases h
      rw [hs] at hs'
      cases hs'
    · have hpage : pageOf virt < 1024 := Nat.mod_lt _ (by decide)
      obtain ⟨hframes, hpresent⟩ := @getOrCreateTable_present _ user _ _ _ _ rw hp
        (tableOf_lt virt) hpage
      rw [getOrCreateTable_setFrames, ← hentry] at h hpresent
      obtain ⟨f, hf, hset, hrecorded, -⟩ := allocFrame_sets h (hpresent.trans hs)
      rw [hframes] at hf hset
      have hfree := (firstFreeFrame_spec hf).2
      rw [used_setFrame, Bool.or_eq_false_iff] at hfree
      refine ⟨f, ?_, hfree.2, by rw [hset, decide_eq_true rfl, Bool.true_or], hrecorded⟩
      rintro rfl
      -- a frame below the first free one is used, and so is frame 0 if it was that one
      rcases Nat.eq_zero_or_pos g with rfl | hpos
      · simp at hfree
      · rw [firstFreeFrame_least hg hpos] at hfree
        cases hfree.2

/-- **A call sets its bit exactly if** it is `alloc_frame` with frame 0 free. -/
theorem setsItsBit_iff (h : maps.step s m s') : SetsItsBit (s, m, s') ↔
    (∃ user writable, m.call = .allocFrame user writable) ∧ used s.frames 0 = false := by
  obtain ⟨hstep, hs, hs'⟩ := h
  have hzero : ∀ {f : ℕ}, f = f / 0x1000 ↔ f = 0 := by omega
  cases hstep with
  | @allocFrame entry user writable _ h =>
    obtain ⟨f, hf, hset, hrecorded, -⟩ := allocFrame_sets h hs
    constructor
    · rintro ⟨-, hbits⟩
      refine ⟨⟨user, writable, rfl⟩, ?_⟩
      have hf' := hbits f
      dsimp only at hf'
      rw [hset, (firstFreeFrame_spec hf).2, hrecorded, decide_eq_true rfl, Bool.or_false,
        Bool.or_false, eq_comm, decide_eq_true_iff, hzero] at hf'
      rw [← hf', (firstFreeFrame_spec hf).2]
    · rintro ⟨-, hfree⟩
      obtain rfl : f = 0 := Option.some.inj (hf.symm.trans (firstFreeFrame_zero hfree))
      exact ⟨by rw [hrecorded]; exact hfree, fun g => by rw [hrecorded]; exact hset g⟩
  | mapPage hp h =>
    obtain ⟨f, hne, hfree, hused, hrecorded⟩ := mapPage_sets hp h rfl hs hs'
    constructor
    · rintro ⟨-, hbits⟩
      have hf' := hbits f
      dsimp only at hf'
      rw [hused, hfree, hrecorded, Bool.or_false, eq_comm, decide_eq_true_iff, hzero] at hf'
      exact absurd hf' hne
    · rintro ⟨⟨_, _, hcall⟩, -⟩
      cases hcall

/-- What a call that sets its bit does. -/
theorem setsItsBit_spec (h : maps.step s m s') (hset : SetsItsBit (s, m, s')) :
    used s.frames 0 = false ∧ (∀ f, used s'.frames f = (decide (f = 0) || used s.frames f)) ∧
      s'.word m.entry < 8 := by
  obtain ⟨⟨user, writable, hcall⟩, hfree⟩ := (setsItsBit_iff h).1 hset
  obtain ⟨hstep, hs, -⟩ := h
  cases hstep with
  | @allocFrame entry user writable _ h =>
    obtain ⟨f, hf, hset, -, hword⟩ := allocFrame_sets h hs
    obtain rfl : f = 0 := Option.some.inj (hf.symm.trans (firstFreeFrame_zero hfree))
    refine ⟨hfree, hset, ?_⟩
    rw [hword]
    cases user <;> cases writable <;> decide
  | mapPage => cases hcall

/-! ### Whole runs -/

variable {ts : List (Paging × Mapping × Paging)} {r : Release} {es : List ℕ}

/-- If every call sets its bit, there is one call at most. -/
theorem eq_of_setsItsBit (h : maps.Trace s₀ ts s) (hall : ∀ x ∈ ts, SetsItsBit x) :
    ts = [] ∧ s = s₀ ∨ ∃ m, ts = [(s₀, m, s)] ∧ maps.step s₀ m s := by
  induction h with
  | nil => exact .inl ⟨rfl, rfl⟩
  | @snoc ts s s' m h hs ih =>
    rw [List.forall_mem_append, List.forall_mem_singleton] at hall
    obtain ⟨hts, hlast⟩ := hall
    rcases ih hts with ⟨rfl, rfl⟩ | ⟨m', rfl, hs'⟩
    · exact .inr ⟨m, rfl, hs⟩
    · -- the call before it has taken frame 0
      have hfree := (setsItsBit_spec hs hlast).1
      rw [(setsItsBit_spec hs' (hts _ (List.mem_singleton.2 rfl))).2.1] at hfree
      cases hfree

theorem step_of_singleton {x : Paging × Mapping × Paging} (h : maps.Trace s₀ ts s)
    (hts : ts = [x]) : x = (s₀, x.2.1, s) ∧ maps.step s₀ x.2.1 s := by
  cases h with
  | nil => cases hts
  | @snoc ts s₁ _ m h hs =>
    obtain ⟨rfl, hx⟩ := List.append_inj' (show ts ++ [(s₁, m, s)] = [] ++ [x] from hts) rfl
    obtain rfl := List.singleton_inj.1 hx
    obtain ⟨-, rfl⟩ | ⟨_, _, hmem, -⟩ := h.eq_nil_or_first
    · exact ⟨rfl, hs⟩
    · cases hmem

theorem forall_setsItsBit_iff (h : maps.Trace s₀ ts s) :
    (∀ x ∈ ts, SetsItsBit x) ↔ OnlyFrameZero s₀ ts := by
  constructor
  · intro hall
    rcases eq_of_setsItsBit h hall with ⟨rfl, -⟩ | ⟨m, rfl, hs⟩
    · exact .inl rfl
    · exact .inr ⟨_, rfl, (setsItsBit_iff hs).1 (hall _ (List.mem_singleton.2 rfl))⟩
  · rintro (rfl | ⟨x, hts, hx⟩)
    · simp
    · obtain ⟨hx', hs⟩ := step_of_singleton h hts
      rw [hts, List.forall_mem_singleton, hx']
      exact (setsItsBit_iff hs).2 hx

/-- The words at aligned addresses. -/
theorem loadWord_aligned {word : ℕ → ℕ} {a : ℕ} (ha : a % 4 = 0) :
    loadWord word a = word a % 2 ^ 32 := by
  rw [loadWord, ha, Nat.sub_zero, Nat.mul_zero, Nat.pow_zero, Nat.div_one,
    Nat.add_mul_mod_self_left]

/-- What is cleared for a table, at the right address. -/
theorem mem_clearedFrames {pageTableP : ℕ} (h : TableOf s (physToVirt pageTableP) es) :
    f ∈ clearedFrames s pageTableP ↔ ∃ e ∈ es, f = (s.word e % 2 ^ 32) >>> 12 / 0x1000 := by
  have hload : ∀ i, loadWord s.word (physToVirt pageTableP + 4 * i) =
      s.word (physToVirt pageTableP + 4 * i) % 2 ^ 32 := fun i => by
    have := h.aligned
    exact loadWord_aligned (by omega)
  have hodd : ∀ e, s.word e % 2 ^ 32 % 2 = 1 ↔ s.present e = true := fun e => by
    rw [Paging.present, decide_eq_true_iff, Nat.mod_mod_of_dvd _ (by decide)]
  unfold clearedFrames
  simp only [List.mem_map, List.mem_filter, List.mem_range, decide_eq_true_eq, h.mem_iff, hload]
  constructor
  · rintro ⟨e, ⟨⟨i, hi, rfl⟩, he⟩, rfl⟩
    exact ⟨_, ⟨i, hi, rfl, (hodd _).1 he⟩, rfl⟩
  · rintro ⟨e, ⟨i, hi, rfl, he⟩, rfl⟩
    exact ⟨_, ⟨⟨i, hi, rfl⟩, (hodd _).2 he⟩, rfl⟩

/-- The release, when every call has set its bit. -/
theorem release_iff (h : maps.Trace s₀ ts s) (hall : ∀ x ∈ ts, SetsItsBit x)
    (hr : r.Covers s (entries ts)) :
    (∀ f, used (r.run s (entries ts)) f = used s₀.frames f) ↔ r.Lucky s₀ s (entries ts) := by
  rcases eq_of_setsItsBit h hall with ⟨rfl, rfl⟩ | ⟨m, rfl, hs⟩
  · cases r with
    | freed => exact ⟨fun _ => trivial, fun _ _ => rfl⟩
    | unmapped pageTableP =>
      refine ⟨fun _ => trivial, fun _ f => ?_⟩
      have hnone : f ∉ clearedFrames s pageTableP := fun hmem => by
        obtain ⟨e, he, -⟩ := (mem_clearedFrames hr).1 hmem
        cases he
      rw [Release.run, used_unmapAllFrames, decide_eq_true hnone, Bool.and_true]
    | destroyed dir table =>
      rw [Release.run, destroyPageTableIfExists, if_pos (hasTable_iff.2 hr.1), Release.Lucky]
      simp only [used_unmapAllFrames, Bool.and_eq_left_iff_imp, decide_eq_true_eq]
      constructor
      · exact fun hkeep => ⟨fun hne => absurd rfl hne, fun f hf =>
          Bool.eq_false_iff.2 fun hused => hkeep f hused hf⟩
      · rintro ⟨-, hfree⟩ f hused hf
        rw [hfree f hf] at hused
        cases hused
  · obtain ⟨hfree, hset, hword⟩ := setsItsBit_spec hs (hall _ (List.mem_singleton.2 rfl))
    cases r with
    | freed =>
      refine ⟨fun _ => trivial, fun _ f => ?_⟩
      have hzero : 0x1000 * recordedFrame s m.entry = 0 := by
        rw [recordedFrame, Nat.div_eq_of_lt (hword.trans (by decide)), Nat.mul_zero]
      rw [Release.run, entries, List.map_singleton, List.foldl_cons, List.foldl_nil, freeFrame,
        hzero, used_clearFrame, hset]
      by_cases hf : f = 0
      · simp [hf, hfree]
      · simp [hf]
    | unmapped pageTableP =>
      refine ⟨fun _ => trivial, fun _ f => ?_⟩
      have hmem : f ∈ clearedFrames s pageTableP ↔ f = 0 := by
        have hzero : (s.word m.entry % 2 ^ 32) >>> 12 / 0x1000 = 0 := by
          rw [Nat.shiftRight_eq_div_pow]
          omega
        rw [mem_clearedFrames hr]
        constructor
        · rintro ⟨e, he, rfl⟩
          obtain rfl := List.mem_singleton.1 he
          exact hzero
        · rintro rfl
          exact ⟨_, List.mem_singleton.2 rfl, hzero.symm⟩
      rw [Release.run, used_unmapAllFrames, hset]
      simp only [hmem]
      by_cases hf : f = 0
      · simp [hf, hfree]
      · simp [hf]
    | destroyed dir table =>
      rw [Release.run, destroyPageTableIfExists, if_pos (hasTable_iff.2 hr.1), Release.Lucky]
      simp only [used_unmapAllFrames, hset]
      generalize clearedFrames s (s.word (dir + 4 * table) >>> 12) = cleared
      constructor
      · intro hkeep
        refine ⟨fun _ => ?_, fun f hf => ?_⟩
        · have h0 := hkeep 0
          rw [hfree, decide_eq_true rfl, Bool.true_or, Bool.true_and, decide_eq_false_iff_not,
            not_not] at h0
          exact h0
        · have hf' := hkeep f
          rw [decide_eq_false (not_not.2 hf), Bool.and_false] at hf'
          exact hf'.symm
      · rintro ⟨hzero, hclear⟩ f
        by_cases hf : f ∈ cleared
        · simp [hf, hclear f hf]
        · have hne : f ≠ 0 := by
            rintro rfl
            exact hf (hzero (by simp [entries]))
          simp [hf, hne]

/-- **Releasing frames undoes allocating them exactly if** there is nothing to undo, or frame 0 is
what was allocated; and what `destroy_page_table_if_exists` goes through in place of the table
names this frame and no other one in use. -/
theorem undone_iff (h : maps.Trace s₀ ts s) (hr : r.Covers s (entries ts)) :
    Undone s₀ ts s r ↔ OnlyFrameZero s₀ ts ∧ r.Lucky s₀ s (entries ts) := by
  rw [← forall_setsItsBit_iff h, Undone]
  constructor
  · rintro ⟨hall, hkeep⟩
    exact ⟨hall, (release_iff h hall hr).1 hkeep⟩
  · rintro ⟨hall, hlucky⟩
    exact ⟨hall, (release_iff h hall hr).2 hlucky⟩

/-- `alloc_frame` maps a page, if there is a free frame among those that are searched. -/
theorem exists_allocFrame (hf : f < numSets * bits) (hfree : used s.frames f = false)
    (hs : s.present entry = false) :
    ∃ s', maps.step s ⟨.allocFrame false false, entry⟩ s' := by
  obtain ⟨g, hg⟩ := exists_firstFreeFrame hf hfree
  obtain ⟨s', hs'⟩ := exists_allocFrame_of_free hs hg false false
  obtain ⟨f, -, -, -, hword⟩ := allocFrame_sets hs' hs
  exact ⟨s', .allocFrame hs', hs, by rw [Paging.present, hword, or_flags_mod]; rfl⟩

/-- A page that is mapped to frame 0 and released. -/
theorem undone_frameZero : ∃ ts s, maps.Trace ⟨fun _ => 0, fun _ => 0, ∅⟩ ts s ∧ ts ≠ [] ∧
    Undone ⟨fun _ => 0, fun _ => 0, ∅⟩ ts s .freed := by
  obtain ⟨s, hs⟩ := @exists_allocFrame ⟨fun _ => 0, fun _ => 0, ∅⟩ 0 0 (by decide) rfl rfl
  have htrace := System.Trace.nil.snoc hs
  exact ⟨_, s, htrace, by simp, (undone_iff (r := .freed) htrace trivial).2
    ⟨.inr ⟨_, rfl, ⟨_, _, rfl⟩, rfl⟩, trivial⟩⟩

/-- **Frame 1 is not given back.** -/
theorem not_undone : ¬ ∀ (s₀ : Paging) (ts : List (Paging × Mapping × Paging)) (s : Paging)
    (r : Release), maps.Trace s₀ ts s → r.Covers s (entries ts) → Undone s₀ ts s r := by
  intro h
  obtain ⟨s, hs⟩ := @exists_allocFrame ⟨fun i => if i = 0 then 1 else 0, fun _ => 0, ∅⟩ 0 1
    (by decide) rfl rfl
  have hall := (h _ _ s .freed (System.Trace.nil.snoc hs) trivial).1
  have hfree := ((setsItsBit_iff hs).1 (hall _ (List.mem_singleton.2 rfl))).2
  cases hfree

end Release

end Kernel

end Bluejay
