import Bluejay.Kernel.Ext2List

/-!
# The entries that are listed

* `DirectBlocks` : a directory whose data are direct blocks.
* `ExactListing` : its listing calls the callback for the entries that are used and for nothing
  else, and reads no other blocks.
* `exactListing_iff` : when this is so.
-/

namespace Bluejay

namespace Kernel

namespace Ext2

/-- The entries `es` lie one behind the other from `o` up to `p`, in any alignment. -/
inductive Records (b : Mem) : ℕ → List Dirent → ℕ → Prop
  | nil (o : ℕ) : Records b o [] o
  | cons {o p : ℕ} {es : List Dirent} (header : 8 ≤ (direntAt b o).recLen)
      (name : (direntAt b o).inode ≠ 0 → 8 + (direntAt b o).name.length ≤ (direntAt b o).recLen)
      (ht : Records b (o + (direntAt b o).recLen) es p) : Records b o (direntAt b o :: es) p

/-- The inode of a directory whose data are direct blocks, with the entries `rss`. -/
structure DirectBlocks (sb : Superblock) (disk : Mem) (dir : Inode) (rss : List (List Dirent)) :
    Prop where
  isDir : dir.IsDir
  direct : rss.length ≤ 12
  numBlocks : dir.numBlocks = blockSize sb / 512 * rss.length
  records : ∀ i es, rss[i]? = some es →
    Records (readBlock sb disk (dir.blocks i)) 0 es (blockSize sb)

/-- The run returns `true` after one call for each used entry and no others, in their order, and
has read the blocks of the directory only. -/
structure ListsAll {σ : Type} (dir : Inode) (rss : List (List Dirent)) (run : LsRun LsEnd σ) :
    Prop where
  result : run.result = .returned true
  calls : run.calls = used rss.flatten
  read : ∀ b ∈ run.read, ∃ i < rss.length, b = dir.blocks i

/-- With any callback that always continues the listing ends, and is exact. -/
def ExactListing (sb : Superblock) (disk : Mem) (dir : Inode) (base : ℕ)
    (rss : List (List Dirent)) : Prop :=
  ∀ (σ : Type) (cb : LsCallback σ) (data : σ), (∀ data inode name, (cb data inode name).1 = true) →
    ∃ run, Lists sb disk dir base (some cb) data run ∧ ListsAll dir rss run

/-- The callback continues at these entries. -/
def Continues {σ : Type} (f : LsCallback σ) (es : List Dirent) : Prop :=
  ∀ e ∈ es, ∀ data, (f data e.inode e.name).1 = true

/-- The data of the callback after these entries. -/
def dataAfter {σ : Type} (f : LsCallback σ) (data : σ) (es : List Dirent) : σ :=
  es.foldl (fun data e => (f data e.inode e.name).2) data

/-- There is an entry that is not used, and there is no used one behind such an entry. -/
def UnusedAtEnd (es : List Dirent) : Prop :=
  (∃ e ∈ es, e.inode = 0) ∧ es.Pairwise fun e e' => e.inode = 0 → e'.inode = 0

section List

variable {σ : Type} {sb : Superblock} {disk b : Mem} {dir : Inode}
  {base size ent fuel fuel' i m n o p : ℕ} {cb : Option (LsCallback σ)} {f : LsCallback σ}
  {data : σ} {run run' : LsRun LsEnd σ} {scan : LsRun (Option LsEnd) σ} {e : Dirent}
  {es pre post : List Dirent} {rss rss₁ rss₂ : List (List Dirent)} {name : List UInt8}

/-! ### Entries one behind the other -/

theorem used_eq_nil : used es = [] ↔ ∀ e ∈ es, e.inode = 0 := by
  simp [used, List.filter_eq_nil_iff]

/-- Behind the first entry that is not used there must not be a used one. -/
theorem unusedAtEnd_iff (hpre : ∀ e ∈ pre, e.inode ≠ 0) (he : e.inode = 0) :
    UnusedAtEnd (pre ++ e :: post) ↔ used post = [] := by
  rw [UnusedAtEnd, used_eq_nil, List.pairwise_append, List.pairwise_cons]
  constructor
  · rintro ⟨-, -, ⟨hpost, -⟩, -⟩ e' he'
    exact hpost e' he' he
  · intro hpost
    refine ⟨⟨e, by simp, he⟩, ?_, ⟨fun e' he' _ => hpost e' he', ?_⟩, fun e' he' _ _ h₀ =>
      absurd h₀ (hpre e' he')⟩
    · exact List.pairwise_of_forall_mem_list fun e' he' _ _ h₀ => absurd h₀ (hpre e' he')
    · exact List.pairwise_of_forall_mem_list fun _ _ e' he' _ => hpost e' he'

theorem Records.eq_of_nil (h : Records b o [] p) : p = o := by
  cases h
  rfl

theorem Records.length_le (h : Records b o es p) : o + 8 * es.length ≤ p := by
  induction h with
  | nil => simp
  | @cons o p es header _ _ ih =>
    rw [List.length_cons]
    omega

/-- The first of the entries is as it must be. -/
theorem Records.ok (h : Records b o (e :: es) p) (hp : p ≤ size) (hb : base + size < 2 ^ 32) :
    e = direntAt b o ∧ RecordOk base size e ∧ Records b (o + e.recLen) es p := by
  cases h with
  | cons header hname ht =>
    have hlen := ht.length_le
    refine ⟨rfl, ⟨?_, fun _ => ⟨by omega, ?_⟩, fun hused => ⟨?_, .inr ?_⟩⟩, ht⟩
    · change o + 4 ≤ size
      omega
    · change base + o + _ < 2 ^ 32
      omega
    · change o + 7 ≤ size
      omega
    · change o + 8 + _ ≤ size
      have := hname hused
      omega

theorem records_append :
    Records b o (pre ++ post) p ↔ ∃ q, Records b o pre q ∧ Records b q post p := by
  induction pre generalizing o with
  | nil =>
    refine ⟨fun h => ⟨o, .nil o, h⟩, ?_⟩
    rintro ⟨q, hnil, h⟩
    rwa [hnil.eq_of_nil] at h
  | cons e pre ih =>
    constructor
    · rintro (_ | ⟨header, hname, ht⟩)
      obtain ⟨q, hpre, hpost⟩ := ih.1 ht
      exact ⟨q, .cons header hname hpre, hpost⟩
    · rintro ⟨q, _ | ⟨header, hname, ht⟩, hpost⟩
      exact .cons header hname (ih.2 ⟨q, ht, hpost⟩)

theorem Chain.records (h : Chain b o es p) : Records b o es p := by
  induction h with
  | nil => exact .nil _
  | cons h _ ih => exact .cons (Nat.le_of_add_right_le h.fits) (fun _ => h.fits) ih

/-- Entries one behind the other are all as they must be. -/
theorem Records.safeFrom (h : Records b o es size) (hb : base + size < 2 ^ 32) :
    SafeFrom base size b o := by
  induction es generalizing o with
  | nil => exact safeFrom_past (Nat.le_of_eq h.eq_of_nil)
  | cons e es ih =>
    obtain ⟨rfl, hok, ht⟩ := h.ok (Nat.le_refl size) hb
    exact safeFrom_used hok (ih ht)

theorem Records.unusedFrom (h : Records b o es size) (hno : ∃ e ∈ es, e.inode = 0) :
    UnusedFrom size b o := by
  induction h with
  | nil => simp at hno
  | @cons o p es header _ ht ih =>
    have hlen := ht.length_le
    by_cases hused : (direntAt b o).inode = 0
    · exact ⟨o, .refl o, by omega, hused⟩
    · rw [List.exists_mem_cons_iff] at hno
      exact (ih (hno.resolve_left hused)).of_next (by omega) hused

/-! ### Their listing -/

theorem continues_of_forall (hf : ∀ data inode name, (f data inode name).1 = true) :
    Continues f es := fun e _ data => hf data e.inode e.name

theorem dataAfter_append : dataAfter f data (pre ++ post) =
    dataAfter f (dataAfter f data pre) post := List.foldl_append

/-- Used entries are passed if the callback continues at them. -/
theorem Records.lsBlock_pass (hb : base + size < 2 ^ 32) (h : Records b o es p) (hp : p ≤ size)
    (hused : ∀ e ∈ es, e.inode ≠ 0) (hf : Continues f es) (k : ℕ) (data : σ) :
    lsBlock base size (some f) b (es.length + k) (base + o) data =
      (lsBlock base size (some f) b k (base + p) (dataAfter f data es)).map
        (·.after [] (used es)) := by
  induction es generalizing o data with
  | nil =>
    rw [h.eq_of_nil, List.length_nil, Nat.zero_add]
    exact Option.map_id.symm ▸ rfl
  | cons e es ih =>
    obtain ⟨he, hrest⟩ := List.forall_mem_cons.1 hused
    obtain ⟨hcont, hconts⟩ := List.forall_mem_cons.1 hf
    obtain ⟨rfl, hok, ht⟩ := h.ok hp hb
    have hnext : base + o + (direntAt b o).recLen < 2 ^ 32 := (hok.recLen he).2
    rw [List.length_cons, Nat.add_right_comm, lsBlock_call hb he (hok.name he), u32_of_lt hnext,
      Nat.add_assoc base]
    simp only [hcont, if_true]
    rw [ih ht hrest hconts, Option.map_map, used_cons he]
    rfl

/-- A block without an unused entry is listed to its end. -/
theorem Records.lsBlock_used (hb : base + size < 2 ^ 32) (h : Records b o es size)
    (hused : ∀ e ∈ es, e.inode ≠ 0) (hf : Continues f es) (hn : es.length < n) (data : σ) :
    lsBlock base size (some f) b n (base + o) data =
      some ⟨[], used es, none, dataAfter f data es⟩ := by
  obtain ⟨k, rfl⟩ := Nat.exists_eq_add_of_lt hn
  rw [Nat.add_assoc, h.lsBlock_pass hb (Nat.le_refl size) hused hf,
    lsBlock_past hb (Nat.le_refl size), Option.map_some, LsRun.after, List.append_nil,
    List.append_nil]

/-- The listing ends at the first unused entry. -/
theorem Records.lsBlock_unused (hb : base + size < 2 ^ 32)
    (h : Records b o (pre ++ e :: post) size) (hpre : ∀ e ∈ pre, e.inode ≠ 0) (he : e.inode = 0)
    (hf : Continues f pre) (hn : pre.length < n) (data : σ) :
    lsBlock base size (some f) b n (base + o) data =
      some ⟨[], used pre, some (.returned true), dataAfter f data pre⟩ := by
  obtain ⟨k, rfl⟩ := Nat.exists_eq_add_of_lt hn
  obtain ⟨q, hq, hrest⟩ := records_append.1 h
  obtain ⟨rfl, hok, -⟩ := hrest.ok (Nat.le_refl size) hb
  have hle := hrest.length_le
  have hinode : q + 4 ≤ size := hok.inode
  rw [Nat.add_assoc, hq.lsBlock_pass hb (by omega) hpre hf, Ext2.lsBlock_unused hb hinode he,
    Option.map_some, LsRun.after, List.append_nil, List.append_nil]

/-- The listing ends at the first entry at which the callback does not continue. -/
theorem Records.lsBlock_end (hb : base + size < 2 ^ 32)
    (h : Records b o (pre ++ e :: post) size) (hpre : ∀ e ∈ pre, e.inode ≠ 0) (he : e.inode ≠ 0)
    (hf : Continues f pre) (hend : (f (dataAfter f data pre) e.inode e.name).1 = false)
    (hn : pre.length < n) : lsBlock base size (some f) b n (base + o) data =
      some ⟨[], used (pre ++ [e]), some (.returned true),
        (f (dataAfter f data pre) e.inode e.name).2⟩ := by
  obtain ⟨k, rfl⟩ := Nat.exists_eq_add_of_lt hn
  obtain ⟨q, hq, hrest⟩ := records_append.1 h
  have hle := hrest.length_le
  obtain ⟨rfl, hok, -⟩ := hrest.ok (Nat.le_refl size) hb
  rw [Nat.add_assoc, hq.lsBlock_pass hb (by omega) hpre hf, lsBlock_call hb he (hok.name he)]
  simp only [hend, Bool.false_eq_true, if_false]
  rw [Option.map_some, LsRun.after, List.append_nil, used_append, used_cons he]
  rfl

/-- Blocks without an unused entry are listed to their ends, and the loop goes on. -/
theorem lsLoop_used (hb : base + blockSize sb < 2 ^ 32)
    (hrec : ∀ j es, rss[j]? = some es →
      Records (readBlock sb disk (dir.blocks (i + j))) 0 es (blockSize sb))
    (hused : ∀ es ∈ rss, ∀ e ∈ es, e.inode ≠ 0) (hf : Continues f rss.flatten)
    (hi : i + rss.length ≤ 12) (hfuel : blockSize sb < fuel) (k : ℕ) (data : σ) :
    lsLoop sb disk dir base (some f) fuel (rss.length + k) i data =
      (lsLoop sb disk dir base (some f) fuel k (i + rss.length)
        (dataAfter f data rss.flatten)).map
          (·.after ((List.range' i rss.length).map dir.blocks) (used rss.flatten)) := by
  induction rss generalizing i data with
  | nil =>
    rw [List.length_nil, Nat.zero_add, Nat.add_zero]
    exact Option.map_id.symm ▸ rfl
  | cons es rss ih =>
    obtain ⟨hes, hrest⟩ := List.forall_mem_cons.1 hused
    rw [List.flatten_cons] at hf
    obtain ⟨hfes, hfrest⟩ := List.forall_mem_append.1 hf
    rw [List.length_cons] at hi ⊢
    have hfirst := Nat.add_zero i ▸ hrec 0 es rfl
    have hlen := hfirst.length_le
    have hscan := hfirst.lsBlock_used hb hes hfes (by omega : es.length < fuel) data
    have hnext := ih (i := i + 1) (fun j es' hj => by
      rw [Nat.add_assoc, Nat.add_comm 1 j]
      exact hrec (j + 1) es' hj) hrest hfrest (by omega) (dataAfter f data es)
    rw [Nat.add_right_comm, lsLoop_next (by omega) hscan rfl]
    simp only
    rw [hnext, Option.map_map, Nat.add_assoc i 1, Nat.add_comm 1, List.flatten_cons,
      dataAfter_append]
    congr 1
    funext run
    simp [LsRun.after_after, List.range'_succ, used_append]

/-! ### Directories -/

theorem mem_read_of_lsLoop (hi : i < 12)
    (h : lsLoop sb disk dir base cb fuel (n + 1) i data = some run) :
    dir.blocks i ∈ run.read := by
  obtain ⟨scan, hscan⟩ := exists_scan_of_lsLoop hi h
  cases hend : scan.result with
  | some result =>
    rw [lsLoop_stop hi hscan hend, Option.some_inj] at h
    exact h ▸ List.mem_singleton.2 rfl
  | none =>
    rw [lsLoop_next hi hscan hend] at h
    obtain ⟨rest, -, rfl⟩ := Option.map_eq_some_iff.1 h
    exact List.mem_cons_self

/-- The listing of a directory with an unused entry stays in its blocks. -/
theorem DirectBlocks.robust (h : DirectBlocks sb disk dir rss) (hb : base + blockSize sb < 2 ^ 32)
    (hno : ∃ es ∈ rss, ∃ e ∈ es, e.inode = 0) : Robust sb disk dir base := by
  refine SafeContent.robust hb fun _ i _ hbefore => ?_
  obtain ⟨es, hes, hunused⟩ := hno
  obtain ⟨j, hj, rfl⟩ := List.getElem_of_mem hes
  have hi : i < rss.length := by
    by_contra hge
    exact hbefore j (by omega)
      ((h.records j _ (List.getElem?_eq_getElem hj)).unusedFrom hunused)
  exact ⟨Nat.lt_of_lt_of_le hi h.direct,
    (h.records i _ (List.getElem?_eq_getElem hi)).safeFrom hb⟩

/-- There are at least two sectors in a block. -/
theorem DirectBlocks.le_numBlocks (h : DirectBlocks sb disk dir rss) (hs : sb.blockSizeShift ≤ 6) :
    2 * rss.length ≤ dir.numBlocks := by
  obtain ⟨k, hk, h2, -⟩ := exists_blockSize hs
  rw [h.numBlocks, hk, Nat.mul_div_cancel_left _ (by decide)]
  exact Nat.mul_le_mul_right _ h2

/-- The listing of a directory that ends in a block of its own. -/
theorem DirectBlocks.lists_stop {result : LsEnd}
    (h : DirectBlocks sb disk dir (rss₁ ++ es :: rss₂)) (hs : sb.blockSizeShift ≤ 6)
    (hb : base + blockSize sb < 2 ^ 32) (hused : ∀ es ∈ rss₁, ∀ e ∈ es, e.inode ≠ 0)
    (hf : Continues f rss₁.flatten) (hscan : lsBlock base (blockSize sb) (some f)
      (readBlock sb disk (dir.blocks rss₁.length)) (blockSize sb + 1) base
        (dataAfter f data rss₁.flatten) = some scan) (hend : scan.result = some result) :
    Lists sb disk dir base (some f) data
      ⟨(List.range' 0 (rss₁.length + 1)).map dir.blocks, used rss₁.flatten ++ scan.calls, result,
        scan.data⟩ := by
  have hnum := h.le_numBlocks hs
  have hdirect := h.direct
  rw [List.length_append, List.length_cons] at hnum hdirect
  obtain ⟨k, hk⟩ : ∃ k, dir.numBlocks = rss₁.length + (k + 1) :=
    ⟨dir.numBlocks - rss₁.length - 1, by omega⟩
  have hrec : ∀ j es, rss₁[j]? = some es →
      Records (readBlock sb disk (dir.blocks (0 + j))) 0 es (blockSize sb) := by
    intro j es hj
    rw [Nat.zero_add]
    exact h.records j es (List.getElem?_append_left (List.getElem?_eq_some_iff.1 hj).1 ▸ hj)
  have hloop := lsLoop_used hb hrec hused hf (by omega) (Nat.lt_succ_self (blockSize sb)) (k + 1)
    data
  rw [← hk, Nat.zero_add, lsLoop_stop (by omega) hscan hend] at hloop
  refine (lists_iff h.isDir).2 ⟨_, hloop.trans ?_⟩
  simp [LsRun.after, List.range'_concat]

/-- The listing of a directory with an unused entry ends there. -/
theorem DirectBlocks.lists_unused
    (h : DirectBlocks sb disk dir (rss₁ ++ (pre ++ e :: post) :: rss₂))
    (hs : sb.blockSizeShift ≤ 6) (hb : base + blockSize sb < 2 ^ 32)
    (hused : ∀ es ∈ rss₁, ∀ e ∈ es, e.inode ≠ 0) (hpre : ∀ e ∈ pre, e.inode ≠ 0)
    (he : e.inode = 0) (hf : ∀ data inode name, (f data inode name).1 = true) (data : σ) :
    ∃ run, Lists sb disk dir base (some f) data run ∧ run.result = .returned true ∧
      run.calls = used rss₁.flatten ++ used pre ∧
      ∀ b ∈ run.read, ∃ i < rss₁.length + 1, b = dir.blocks i := by
  have hrec := h.records rss₁.length (pre ++ e :: post) (by simp)
  have hlen := hrec.length_le
  rw [List.length_append, List.length_cons] at hlen
  refine ⟨_, h.lists_stop hs hb hused (continues_of_forall hf) (hrec.lsBlock_unused hb hpre he
    (continues_of_forall hf) (by omega : pre.length < blockSize sb + 1) _) rfl, rfl, rfl,
    fun b hmem => ?_⟩
  obtain ⟨i, hi, rfl⟩ := List.mem_map.1 hmem
  obtain ⟨-, hlt⟩ := List.mem_range'_1.1 hi
  exact ⟨i, by omega, rfl⟩

/-- Without an unused entry the listing goes on behind the blocks of the directory. -/
theorem DirectBlocks.not_exact_of_used (h : DirectBlocks sb disk dir rss)
    (hs : sb.blockSizeShift ≤ 6) (hb : base + blockSize sb < 2 ^ 32) (hne : rss ≠ [])
    (hused : ∀ es ∈ rss, ∀ e ∈ es, e.inode ≠ 0) : ¬ ExactListing sb disk dir base rss := by
  intro hexact
  obtain ⟨run, hlists, hall⟩ := hexact Unit continueCallback () fun _ _ _ => rfl
  obtain ⟨fuel, hrun⟩ := (lists_iff h.isDir).1 hlists
  have hpos := List.length_pos_iff.2 hne
  have hnum := h.le_numBlocks hs
  obtain ⟨k, hk⟩ : ∃ k, dir.numBlocks = rss.length + (k + 1) :=
    ⟨dir.numBlocks - rss.length - 1, by omega⟩
  obtain ⟨fuel', hfuel⟩ : ∃ fuel', fuel' = max fuel (blockSize sb + 1) := ⟨_, rfl⟩
  have hrec : ∀ j es, rss[j]? = some es →
      Records (readBlock sb disk (dir.blocks (0 + j))) 0 es (blockSize sb) := by
    intro j es hj
    rw [Nat.zero_add]
    exact h.records j es hj
  have hloop := lsLoop_used (f := continueCallback) hb hrec hused (fun _ _ _ => rfl)
    (by rw [Nat.zero_add]; exact h.direct) (by omega : blockSize sb < fuel') (k + 1) ()
  rw [← hk, lsLoop_mono hrun (by omega), Nat.zero_add] at hloop
  obtain ⟨rest, hrest, rfl⟩ := Option.map_eq_some_iff.1 hloop.symm
  rcases Nat.lt_or_ge rss.length 12 with hlt | hge
  · -- the next block is one of the directory, so its entries are called again
    obtain ⟨i, hi, hblock⟩ := hall.read _
      (List.mem_append_right _ (mem_read_of_lsLoop hlt hrest))
    have hagain := h.records i rss[i] (List.getElem?_eq_getElem hi)
    have hlen := hagain.length_le
    have hscan := hagain.lsBlock_used (f := continueCallback) hb (hused _ (List.getElem_mem hi))
      (fun _ _ _ => rfl) (by omega : rss[i].length < fuel') ()
    rw [← hblock] at hscan
    rw [lsLoop_next hlt hscan rfl] at hrest
    obtain ⟨rest', -, rfl⟩ := Option.map_eq_some_iff.1 hrest
    have hcalls : used rss.flatten ++ (used rss[i] ++ rest'.calls) = used rss.flatten := hall.calls
    rw [List.append_right_eq_self, List.append_eq_nil_iff, used_eq_nil] at hcalls
    have hnil : rss[i] = [] := List.eq_nil_iff_forall_not_mem.2 fun e he =>
      hused _ (List.getElem_mem hi) e he (hcalls.1 e he)
    obtain ⟨l, hl, h2, -⟩ := exists_blockSize hs
    have hzero := (hnil ▸ hagain).eq_of_nil
    omega
  · rw [lsLoop_of_ge hge, Option.some_inj] at hrest
    cases hrest
    cases hall.result

/-- The listing of a directory is exact exactly if it has no block, or an unused entry with no used
one behind it. -/
theorem exactListing_iff (hs : sb.blockSizeShift ≤ 6) (hb : base + blockSize sb < 2 ^ 32)
    (h : DirectBlocks sb disk dir rss) :
    ExactListing sb disk dir base rss ↔ rss = [] ∨ UnusedAtEnd rss.flatten := by
  by_cases hno : ∃ es ∈ rss, ∃ e ∈ es, e.inode = 0
  · obtain ⟨rss₁, es, rss₂, rfl, hes, hused⟩ := exists_first hno
    obtain ⟨pre, e, post, rfl, he, hpre⟩ := exists_first hes
    have hused' : ∀ es ∈ rss₁, ∀ e ∈ es, e.inode ≠ 0 := fun es hes e he h₀ =>
      hused es hes ⟨e, he, h₀⟩
    have hflat : (rss₁ ++ (pre ++ e :: post) :: rss₂).flatten =
        (rss₁.flatten ++ pre) ++ e :: (post ++ rss₂.flatten) := by
      simp
    have hcalls : used (rss₁ ++ (pre ++ e :: post) :: rss₂).flatten =
        used rss₁.flatten ++ used pre ++ used (post ++ rss₂.flatten) := by
      rw [hflat, used_append, used_append, used_cons_of_unused he]
    have hall : ∀ e ∈ rss₁.flatten ++ pre, e.inode ≠ 0 := by
      intro e' he'
      rcases List.mem_append.1 he' with he' | he'
      · obtain ⟨es', hes', hmem⟩ := List.mem_flatten.1 he'
        exact hused' es' hes' e' hmem
      · exact hpre e' he'
    rw [hflat, unusedAtEnd_iff hall he]
    constructor
    · intro hexact
      obtain ⟨run, hlists, hrun⟩ := hexact Unit continueCallback () fun _ _ _ => rfl
      obtain ⟨run', hlists', -, hcalls', -⟩ := h.lists_unused (f := continueCallback) hs hb hused'
        hpre he (fun _ _ _ => rfl) ()
      rw [← hlists.unique hlists', hrun.calls, hcalls, List.append_right_eq_self] at hcalls'
      exact .inr hcalls'
    · rintro (hnil | hend) σ f data hf
      · simp at hnil
      · obtain ⟨run, hlists, hresult, hcalls', hread⟩ := h.lists_unused hs hb hused' hpre he hf data
        refine ⟨run, hlists, hresult, ?_, fun b hmem => ?_⟩
        · rw [hcalls', hcalls, hend, List.append_nil]
        · obtain ⟨i, hi, rfl⟩ := hread b hmem
          exact ⟨i, by rw [List.length_append, List.length_cons]; omega, rfl⟩
  · have hused : ∀ es ∈ rss, ∀ e ∈ es, e.inode ≠ 0 := fun es hes e he h₀ =>
      hno ⟨es, hes, e, he, h₀⟩
    constructor
    · intro hexact
      by_contra hor
      exact h.not_exact_of_used hs hb (fun hnil => hor (.inl hnil)) hused hexact
    · rintro (rfl | ⟨⟨e, he, h₀⟩, -⟩)
      · intro σ f data _
        have hrun : lsLoop sb disk dir base (some f) 0 dir.numBlocks 0 data =
            some ⟨[], [], .returned true, data⟩ := by
          rw [h.numBlocks, List.length_nil, Nat.mul_zero, lsLoop]
        exact ⟨_, (lists_iff h.isDir).2 ⟨0, hrun⟩, rfl, rfl, by simp⟩
      · obtain ⟨es, hes, hmem⟩ := List.mem_flatten.1 he
        exact absurd h₀ (hused es hes e hmem)

end List

/-! ### Directories of the sample -/

/-- A block of the sample that is read as its block 7. -/
theorem records_sample {disk : Mem} {os : List ℕ} (hblock : (sampleDir disk).blocks 0 = 7)
    (h : Chain (readBlock sampleSuperblock disk 7) 0
      (os.map (direntAt (readBlock sampleSuperblock disk 7))) (blockSize sampleSuperblock)) :
    ∀ i es, (sampleEntries disk os)[i]? = some es →
      Records (readBlock sampleSuperblock disk ((sampleDir disk).blocks i)) 0 es
        (blockSize sampleSuperblock) := by
  intro i es hes
  cases i with
  | zero =>
    obtain rfl := Option.some_inj.1 hes
    rw [hblock]
    exact h.records
  | succ i => cases hes

theorem sample_directBlocks : DirectBlocks sampleSuperblock sampleDisk (sampleDir sampleDisk)
    (sampleEntries sampleDisk [0, 12]) where
  isDir := by decide
  direct := by decide
  numBlocks := by decide
  records := records_sample (by decide) (List.forall₂_cons.1 sample_directory.entries).1

/-- The sample, with an unused entry at the end of the directory. -/
def tailDisk : Mem := diskOf ((7184, [12, 0]) :: (7196, [0xe8, 3]) :: samplePlaces)

theorem tail_directBlocks : DirectBlocks sampleSuperblock tailDisk (sampleDir tailDisk)
    (sampleEntries tailDisk [0, 12, 24]) where
  isDir := by decide
  direct := by decide
  numBlocks := by decide
  records := records_sample (by decide)
    (.cons_of_eq ⟨by decide, by decide⟩ (by decide : _ = 12)
      (.cons_of_eq ⟨by decide, by decide⟩ (by decide : _ = 24)
        (.cons_of_eq ⟨by decide, by decide⟩ (by decide : _ = 1024)
          (.nil _))))

theorem exactListing_sample : ExactListing sampleSuperblock tailDisk (sampleDir tailDisk) 0
    (sampleEntries tailDisk [0, 12, 24]) :=
  (exactListing_iff (by decide) (by decide) tail_directBlocks).2
    (.inr ⟨by decide, by decide⟩)

/-- The directory of the sample has one block and two sectors, and no unused entry. -/
theorem not_exactListing : ¬ ∀ sb disk dir base rss, sb.blockSizeShift ≤ 6 →
    base + blockSize sb < 2 ^ 32 → DirectBlocks sb disk dir rss →
      ExactListing sb disk dir base rss := by
  intro h
  exact sample_directBlocks.not_exact_of_used (by decide) (by decide) (List.cons_ne_nil _ _)
    (by decide) (h _ _ _ 0 _ (by decide) (by decide) sample_directBlocks)

end Ext2

end Kernel

end Bluejay
