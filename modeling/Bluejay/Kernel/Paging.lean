import Bluejay.Lib.Bytes
import Bluejay.Lib.Search
import Bluejay.Lib.System
import Mathlib.Data.Finset.Insert
import Mathlib.Data.Nat.Bitwise

/-!
# Pages and frames

`paging.c`: a bit set of the physical frames that are in use, and page tables, whose entries hold
the number of a frame in their bits 12 to 31.

* `setFrame`, `firstFreeFrame`, `allocFrame`, `initPaging` : the functions of the file.
* `AllocPage` : `alloc_page`, where `malloc` may return any page that is free and zeroed.
* `EntryOk` : an entry that a call makes present maps the frame that the call takes.
* `framesOk_iff` : the frame number is not shifted into its place in the entry, so this holds in
  a run exactly if no call makes an entry present.

Memory is a function from addresses to the 32-bit words there.
-/

namespace Bluejay

namespace Kernel

/-- `BITS`. -/
def bits : ℕ := 32

/-- `NUM_FRAMES / BITS`, in which the macro's divisions come first. -/
def numSets : ℕ := 0xffffffff / 0x1000 / 32 / bits

/-- `KERNEL_VIRTUAL_BASE`. -/
def kernelVirtualBase : ℕ := 0xC0000000

/-- `PHYS_TO_VIRT`. -/
def physToVirt (p : ℕ) : ℕ := u32 (p + 0xC0000000)

/-- `VIRT_TO_PHYS`. -/
def virtToPhys (v : ℕ) : ℕ := sub32 v 0xC0000000

/-- The bit set of frames, and memory. -/
structure Paging where
  frames : ℕ → ℕ
  word : ℕ → ℕ
  /-- The page tables that were allocated. -/
  tables : Finset ℕ

/-- The frame is marked as used. -/
def used (frames : ℕ → ℕ) (frame : ℕ) : Bool := (frames (frame / bits)).testBit (frame % bits)

/-- `set_frame`. -/
def setFrame (frames : ℕ → ℕ) (frameAddr : ℕ) : ℕ → ℕ :=
  let frame := frameAddr / 0x1000
  Function.update frames (frame / bits) (frames (frame / bits) ||| 1 <<< (frame % bits))

/-- `first_free_frame`; `none` is its `kpanic`. -/
def firstFreeFrame (frames : ℕ → ℕ) : Option ℕ :=
  (List.range numSets).findSome? fun i =>
    if frames i = 2 ^ 32 - 1 then none
    else (List.range bits).findSome? fun j =>
      if frames i &&& 1 <<< j = 0 then some (i * bits + j) else none

/-- `alloc_frame`, for the entry at the address `entry`. -/
def allocFrame (s : Paging) (entry : ℕ) (user writable : Bool) : Option Paging :=
  if s.word entry &&& 1 ≠ 0 then some s
  else match firstFreeFrame s.frames with
    | none => none
    | some frame => some { s with
        frames := setFrame s.frames (u32 (frame * 0x1000))
        word := Function.update s.word entry
          (frame ||| 1 ||| writable.toNat <<< 1 ||| user.toNat <<< 2) }

/-- The loop of `map_4mb`. -/
def map4mbFrames (frames : ℕ → ℕ) : ℕ → ℕ :=
  (List.range 1024).foldl (fun frames i => setFrame frames (i * 0x1000)) frames

/-- `init_paging`: no frame is used before, and the kernel's page directory is at `dir`. -/
def initPaging (word : ℕ → ℕ) (dir : ℕ) : Paging where
  frames := map4mbFrames fun _ => 0
  word := Function.update (fun a => if dir ≤ a ∧ a < dir + 1024 * 4 then 0 else word a)
    (dir + 4 * (kernelVirtualBase >>> 22)) 0b10000011
  tables := ∅

/-- The condition of `get_or_create_table`. -/
def hasTable (s : Paging) (dir table : ℕ) : Prop :=
  s.word (dir + 4 * table) &&& 1 ≠ 0 ∧ s.word (dir + 4 * table) ^^^ 1 <<< 7 ≠ 0

/-- The table that the directory entry leads to. -/
def tableAt (s : Paging) (dir table : ℕ) : ℕ :=
  physToVirt (s.word (dir + 4 * table) - s.word (dir + 4 * table) % 0x1000)

/-- Put the new page table `p` into the directory, with `user` and `rw` false. -/
def createTable (s : Paging) (dir table p : ℕ) : Paging :=
  { s with
    word := Function.update s.word (dir + 4 * table) (virtToPhys p ||| 1)
    tables := insert p s.tables }

/-- A call of `alloc_page`, and the address of the entry that it is about. -/
structure AllocCall where
  dir : ℕ
  virt : ℕ
  entry : ℕ

/-- The table of the page. -/
def tableOf (virt : ℕ) : ℕ := u32 virt >>> 22

/-- The number of the page in its table. -/
def pageOf (virt : ℕ) : ℕ := u32 virt / 0x1000 % 1024

/-- `malloc` may return the page `p`, which is aligned, zeroed, and not in use. -/
structure FreshTable (s : Paging) (dir p : ℕ) : Prop where
  aligned : p % 0x1000 = 0
  zeroed : ∀ i < 1024, s.word (p + 4 * i) = 0
  fresh : p ∉ s.tables
  apart : p + 0x1000 ≤ dir ∨ dir + 0x1000 ≤ p

/-- `alloc_page`. -/
inductive AllocPage (s : Paging) : AllocCall → Paging → Prop
  | found {dir virt : ℕ} {s' : Paging} (h : hasTable s dir (tableOf virt))
      (hs : allocFrame s (tableAt s dir (tableOf virt) + 4 * pageOf virt) false false = some s') :
      AllocPage s ⟨dir, virt, tableAt s dir (tableOf virt) + 4 * pageOf virt⟩ s'
  | created {dir virt p : ℕ} {s' : Paging} (h : ¬ hasTable s dir (tableOf virt))
      (hp : FreshTable s dir p)
      (hs : allocFrame (createTable s dir (tableOf virt) p) (p + 4 * pageOf virt) false false =
        some s') :
      AllocPage s ⟨dir, virt, p + 4 * pageOf virt⟩ s'

/-- All sequences of calls. -/
def paging : System Paging AllocCall := ⟨AllocPage⟩

/-! ### What the entries should hold -/

/-- The entry is present. -/
def Paging.present (s : Paging) (entry : ℕ) : Bool := s.word entry % 2 = 1

/-- The call makes its entry present. -/
def Mapped (x : Paging × AllocCall × Paging) : Prop :=
  x.1.present x.2.1.entry = false ∧ x.2.2.present x.2.1.entry = true

/-- The frame that the entry of the call maps, after the call. -/
def mappedFrame (x : Paging × AllocCall × Paging) : ℕ := x.2.2.word x.2.1.entry / 0x1000

/-- The entry maps a frame that was free before the call and is used after it, for the kernel
and read-only. -/
def EntryOk (x : Paging × AllocCall × Paging) : Prop :=
  used x.1.frames (mappedFrame x) = false ∧ used x.2.2.frames (mappedFrame x) = true ∧
    x.2.2.word x.2.1.entry % 8 = 1

/-- The entries made present are right; no two of them map the same frame, and none maps a frame
of the initial 4 MB. -/
structure FramesOk (ts : List (Paging × AllocCall × Paging)) : Prop where
  entry : ∀ x ∈ ts, Mapped x → EntryOk x
  distinct : ts.Pairwise fun x y => Mapped x → Mapped y → mappedFrame x ≠ mappedFrame y
  kernel : ∀ x ∈ ts, Mapped x → 1024 ≤ mappedFrame x

/-! ### What the calls do -/

section Steps

variable {s s' : Paging} {frames : ℕ → ℕ} {entry f : ℕ} {user writable : Bool}

theorem and_one_shiftLeft_eq_zero {x j : ℕ} : x &&& 1 <<< j = 0 ↔ x.testBit j = false := by
  rw [Nat.one_shiftLeft, Nat.and_two_pow]
  cases x.testBit j <;> simp

theorem used_setFrame (a f : ℕ) :
    used (setFrame frames a) f = (decide (f = a / 0x1000) || used frames f) := by
  have hsplit : f = a / 0x1000 ↔
      f / bits = a / 0x1000 / bits ∧ f % bits = a / 0x1000 % bits := by
    unfold bits
    omega
  simp only [used, setFrame, Function.update_apply, Nat.one_shiftLeft]
  by_cases hq : f / bits = a / 0x1000 / bits
  · rw [if_pos hq, Nat.testBit_or, Nat.testBit_two_pow, Bool.or_comm, hq]
    simp only [hsplit, hq, true_and, eq_comm]
  · rw [if_neg hq]
    simp [hsplit, hq]

theorem used_map4mbFrames (f : ℕ) :
    used (map4mbFrames frames) f = (decide (f < 1024) || used frames f) := by
  have hfold : ∀ n, used ((List.range n).foldl
      (fun frames i => setFrame frames (i * 0x1000)) frames) f =
        (decide (f < n) || used frames f) := by
    intro n
    induction n with
    | zero => simp
    | succ n ih =>
      rw [List.range_succ, List.foldl_append, List.foldl_cons, List.foldl_nil, used_setFrame,
        Nat.mul_div_cancel _ (by decide), ih, ← Bool.or_assoc]
      simp only [Nat.lt_succ_iff_lt_or_eq, Bool.decide_or, Bool.or_comm]
  exact hfold 1024

theorem used_word {i j : ℕ} (hj : j < bits) :
    used frames (i * bits + j) = (frames i).testBit j := by
  have hdiv : (i * bits + j) / bits = i ∧ (i * bits + j) % bits = j := by
    unfold bits at *
    omega
  rw [used, hdiv.1, hdiv.2]

/-- The search of one word. -/
theorem finds_word (frames : ℕ → ℕ) (i : ℕ) :
    Finds (fun f => used frames f = false) (i * bits) (i * bits + bits)
      (if frames i = 2 ^ 32 - 1 then none
        else (List.range bits).findSome? fun j =>
          if frames i &&& 1 <<< j = 0 then some (i * bits + j) else none) := by
  split_ifs with hfull
  · intro f hf hf' hfree
    have hj : f - i * bits < 32 := by
      unfold bits at *
      omega
    rw [← Nat.add_sub_cancel' hf, used_word hj, hfull, Nat.testBit_two_pow_sub_one,
      decide_eq_true hj] at hfree
    cases hfree
  · rw [show i * bits + bits = i * bits + 1 * bits by rw [Nat.one_mul]]
    refine .pieces fun j hj => ?_
    have hbit := finds_singleton (P := fun f => used frames f = false) (i * bits + j)
    simp only [used_word hj, ← and_one_shiftLeft_eq_zero] at hbit
    rwa [Nat.one_mul, Nat.one_mul]

/-- The search of the first `n` words. -/
theorem finds_words {n : ℕ} {r : Option ℕ}
    (h : ((List.range n).findSome? fun i => if frames i = 2 ^ 32 - 1 then none
      else (List.range bits).findSome? fun j =>
        if frames i &&& 1 <<< j = 0 then some (i * bits + j) else none) = r) :
    Finds (fun f => used frames f = false) 0 (n * bits) r := by
  rw [← h, ← Nat.zero_add (n * bits), Nat.mul_comm]
  refine .pieces fun i _ => ?_
  rw [Nat.zero_add, Nat.zero_add, Nat.mul_succ, Nat.mul_comm]
  exact finds_word frames i

/-- **`first_free_frame` returns the first free frame of the first sets.** -/
theorem finds_firstFreeFrame {r : Option ℕ} (h : firstFreeFrame frames = r) :
    Finds (fun f => used frames f = false) 0 (numSets * bits) r := finds_words h

theorem firstFreeFrame_spec (h : firstFreeFrame frames = some f) :
    f < numSets * bits ∧ used frames f = false := by
  obtain ⟨-, hlt, hfree, -⟩ := finds_firstFreeFrame h
  exact ⟨hlt, hfree⟩

theorem firstFreeFrame_least (h : firstFreeFrame frames = some f) {g : ℕ} (hg : g < f) :
    used frames g = true := by
  obtain ⟨-, -, -, hleast⟩ := finds_firstFreeFrame h
  exact Bool.eq_true_of_not_eq_false (hleast g (Nat.zero_le g) hg)

theorem firstFreeFrame_none (h : firstFreeFrame frames = none) (hf : f < numSets * bits) :
    used frames f = true :=
  Bool.eq_true_of_not_eq_false (finds_firstFreeFrame h f (Nat.zero_le f) hf)

/-- The search finds a frame where one of the first sets is free. -/
theorem exists_firstFreeFrame (hf : f < numSets * bits) (hfree : used frames f = false) :
    ∃ g, firstFreeFrame frames = some g := by
  cases h : firstFreeFrame frames with
  | some g => exact ⟨g, rfl⟩
  | none =>
    rw [firstFreeFrame_none h hf] at hfree
    cases hfree

theorem present_iff : s.present entry = true ↔ s.word entry &&& 1 ≠ 0 := by
  simp [Paging.present, Nat.and_one_is_mod]

theorem createTable_frames (s : Paging) (dir table p : ℕ) :
    (createTable s dir table p).frames = s.frames := rfl

/-- Where a frame is free, an entry gets one. -/
theorem exists_allocFrame_of_free (hs : s.present entry = false)
    (hf : firstFreeFrame s.frames = some f) (user writable : Bool) :
    ∃ s', allocFrame s entry user writable = some s' := by
  have hno : ¬ s.word entry &&& 1 ≠ 0 := fun hne => by
    rw [present_iff.2 hne] at hs
    cases hs
  rw [allocFrame, if_neg hno, hf]
  exact ⟨_, rfl⟩

/-- An entry that is present stays as it is; another one gets the number of the first free
frame, in its lowest bits. -/
theorem allocFrame_cases (h : allocFrame s entry user writable = some s') :
    s.present entry = true ∧ s' = s ∨
      s.present entry = false ∧ ∃ f, firstFreeFrame s.frames = some f ∧
        s'.frames = setFrame s.frames (u32 (f * 0x1000)) ∧
        s'.word entry = f ||| 1 ||| writable.toNat <<< 1 ||| user.toNat <<< 2 := by
  unfold allocFrame at h
  split_ifs at h with hp
  · cases h
    exact .inl ⟨present_iff.2 hp, rfl⟩
  · refine .inr ⟨Bool.eq_false_iff.2 fun h => hp (present_iff.1 h), ?_⟩
    cases hf : firstFreeFrame s.frames with
    | none => rw [hf] at h; cases h
    | some f =>
      rw [hf] at h
      cases h
      exact ⟨f, rfl, rfl, Function.update_self _ _ _⟩

/-- A call finds its entry present and changes nothing there, or the entry gets the number of a
free frame, for the kernel and read-only. -/
theorem allocPage_cases {c : AllocCall} (h : AllocPage s c s') :
    s.present c.entry = true ∧ s'.present c.entry = true ∧ s'.frames = s.frames ∨
      ∃ f < numSets * bits, used s.frames f = false ∧ s.present c.entry = false ∧
        s'.frames = setFrame s.frames (u32 (f * 0x1000)) ∧ s'.word c.entry = f ||| 1 := by
  cases h with
  | found _ hs =>
    rcases allocFrame_cases hs with ⟨hp, rfl⟩ | ⟨hp, f, hf, hframes, hword⟩
    · exact .inl ⟨hp, hp, rfl⟩
    · obtain ⟨hlt, hfree⟩ := firstFreeFrame_spec hf
      exact .inr ⟨f, hlt, hfree, hp, hframes, by simpa using hword⟩
  | @created dir virt p _ hno hp hs =>
    have hzero : s.word (p + 4 * pageOf virt) = 0 :=
      hp.zeroed _ (Nat.mod_lt _ (by decide))
    have habsent : s.present (p + 4 * pageOf virt) = false := by simp [Paging.present, hzero]
    have hpage : pageOf virt < 1024 := Nat.mod_lt _ (by decide)
    have htable : tableOf virt < 1024 := by
      have := u32_lt virt
      rw [tableOf, Nat.shiftRight_eq_div_pow]
      omega
    -- the directory is not in the new table
    have hne : p + 4 * pageOf virt ≠ dir + 4 * tableOf virt := by
      rcases hp.apart with h | h <;> omega
    rcases allocFrame_cases hs with ⟨hp, -⟩ | ⟨-, f, hf, hframes, hword⟩
    · have hword : (createTable s dir (tableOf virt) p).word (p + 4 * pageOf virt) = 0 :=
        (Function.update_of_ne hne _ _).trans hzero
      simp [Paging.present, hword] at hp
    · obtain ⟨hlt, hfree⟩ := firstFreeFrame_spec hf
      exact .inr ⟨f, hlt, hfree, habsent, hframes, by simpa using hword⟩

/-- The frames of the initial 4 MB are used. -/
def KernelUsed (s : Paging) : Prop := ∀ f < 1024, used s.frames f = true

theorem initPaging_frames (word : ℕ → ℕ) (dir : ℕ) :
    (initPaging word dir).frames = map4mbFrames fun _ => 0 := by rw [initPaging]

theorem kernelUsed_init (word : ℕ → ℕ) (dir : ℕ) : KernelUsed (initPaging word dir) := by
  intro f hf
  rw [initPaging_frames, used_map4mbFrames, decide_eq_true hf, Bool.true_or]

theorem KernelUsed.step (h : KernelUsed s) {c : AllocCall} (hs : AllocPage s c s') :
    KernelUsed s' := by
  intro f hf
  rcases allocPage_cases hs with ⟨-, -, hframes⟩ | ⟨g, -, -, -, hframes, -⟩
  · rw [hframes, h f hf]
  · rw [hframes, used_setFrame, h f hf, Bool.or_true]

/-- An entry that becomes present seems to map one of the first frames, which are all used. -/
theorem not_entryOk (h : KernelUsed s) {c : AllocCall} (hs : AllocPage s c s')
    (hp : s.present c.entry = false) : Mapped (s, c, s') ∧ ¬ EntryOk (s, c, s') := by
  rcases allocPage_cases hs with ⟨hp', -⟩ | ⟨f, hlt, -, -, -, hword⟩
  · rw [hp] at hp'
    cases hp'
  · have hodd : (f ||| 1) % 2 = 1 := by
      rw [← Nat.and_one_is_mod, Nat.and_or_distrib_right]
      rcases Nat.mod_two_eq_zero_or_one f with h | h <;> simp [Nat.and_one_is_mod, h]
    have hdiv : (f ||| 1) / 0x1000 < 1024 := by
      have hshift : (f ||| 1) / 2 ^ 12 = f / 2 ^ 12 ||| 1 / 2 ^ 12 := by
        simp only [← Nat.shiftRight_eq_div_pow, Nat.shiftRight_or_distrib]
      have hsets : numSets * bits = 32736 := by decide
      rw [show (0x1000 : ℕ) = 2 ^ 12 from rfl, hshift, show 1 / 2 ^ 12 = 0 from rfl, Nat.or_zero]
      omega
    refine ⟨⟨hp, by simp [Paging.present, hword, hodd]⟩, fun hok => ?_⟩
    have hfree := hok.1
    rw [mappedFrame, hword, h _ hdiv] at hfree
    cases hfree

/-- In a run the entries made present are right exactly if no entry is made present: each call
finds its entry present already. -/
theorem framesOk_iff (word : ℕ → ℕ) (dir : ℕ) {ts : List (Paging × AllocCall × Paging)}
    (h : paging.Trace (initPaging word dir) ts s) :
    FramesOk ts ↔ ∀ x ∈ ts, x.1.present x.2.1.entry = true := by
  have hused : ∀ {s}, paging.Reachable (initPaging word dir) s → KernelUsed s := fun hr =>
    hr.invariant (kernelUsed_init word dir) fun _ _ _ hi hs => hi.step hs
  have hiff : (∀ x ∈ ts, Mapped x → EntryOk x) ↔ ∀ x ∈ ts, x.1.present x.2.1.entry = true :=
    h.forall_iff fun s c s' hr hs => by
      constructor
      · intro hok
        by_contra hp
        have hno := not_entryOk (hused hr) hs (Bool.eq_false_iff.2 hp)
        exact hno.2 (hok hno.1)
      · intro hp hm
        rw [hm.1] at hp
        cases hp
  refine ⟨fun hok => hiff.1 hok.entry, fun hp => ?_⟩
  have hno : ∀ x ∈ ts, ¬ Mapped x := fun x hx hm => by
    have := hm.1
    rw [hp x hx] at this
    cases this
  exact ⟨hiff.2 hp, List.pairwise_of_forall_mem_list fun x hx _ _ hm => absurd hm (hno x hx),
    fun x hx hm => absurd hm (hno x hx)⟩

end Steps

/-- A page of the kernel that is mapped already. -/
theorem framesOk_present : ∃ ts s, paging.Trace (initPaging (fun _ => 1) 0x1000) ts s ∧
    ts ≠ [] ∧ FramesOk ts := by
  have halloc : AllocPage (initPaging (fun _ => 1) 0x1000) ⟨0x1000, 0xC0000000, 0xC0000000⟩
      (initPaging (fun _ => 1) 0x1000) := by
    have htable : hasTable (initPaging (fun _ => 1) 0x1000) 0x1000 (tableOf 0xC0000000) :=
      ⟨by decide, by decide⟩
    exact .found htable rfl
  have htrace := (System.Trace.nil (A := paging)).snoc halloc
  refine ⟨_, _, htrace, by simp, (framesOk_iff _ _ htrace).2 fun x hx => ?_⟩
  obtain rfl := List.mem_singleton.1 hx
  decide

/-- **The first page allocated seems to map frame 0.** -/
theorem not_framesOk : ¬ ∀ (word : ℕ → ℕ) (dir : ℕ) (ts : List (Paging × AllocCall × Paging))
    (s : Paging), paging.Trace (initPaging word dir) ts s → FramesOk ts := by
  intro h
  obtain ⟨f, hfree⟩ : ∃ f, firstFreeFrame (map4mbFrames fun _ => 0) = some f :=
    exists_firstFreeFrame (f := 1024) (by decide) (by rw [used_map4mbFrames]; rfl)
  have hnone : ∀ i < 1024, (initPaging (fun _ => 0) 0x1000).word (0x10000 + 4 * i) = 0 := by
    intro i hi
    have hne : 0x10000 + 4 * i ≠ 0x1000 + 4 * (kernelVirtualBase >>> 22) := by
      have : kernelVirtualBase >>> 22 = 768 := by decide
      omega
    rw [initPaging]
    simp [Function.update_of_ne hne]
  have hfresh : FreshTable (initPaging (fun _ => 0) 0x1000) 0x1000 0x10000 :=
    ⟨by decide, hnone, Finset.notMem_empty _, .inr (by decide)⟩
  have hno : ¬ hasTable (initPaging (fun _ => 0) 0x1000) 0x1000 (tableOf 0) := fun hd =>
    hd.1 (by decide)
  have hframes : (createTable (initPaging (fun _ => 0) 0x1000) 0x1000 (tableOf 0) 0x10000).frames =
      map4mbFrames fun _ => 0 := (createTable_frames _ _ _ _).trans (initPaging_frames _ _)
  rw [← hframes] at hfree
  have habsent : (createTable (initPaging (fun _ => 0) 0x1000) 0x1000 (tableOf 0) 0x10000).present
      (0x10000 + 4 * pageOf 0) = false := by decide
  obtain ⟨s', hs⟩ := exists_allocFrame_of_free habsent hfree false false
  have hcall := AllocPage.created hno hfresh hs
  have htrace := (System.Trace.nil (A := paging)).snoc hcall
  have hp := (framesOk_iff _ _ htrace).1 (h _ _ _ _ htrace) _ (List.mem_singleton.2 rfl)
  simp [Paging.present, hnone (pageOf 0) (by decide)] at hp

end Kernel

end Bluejay
