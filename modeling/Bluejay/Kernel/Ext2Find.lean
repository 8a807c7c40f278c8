import Bluejay.Kernel.Ext2Exact
import Bluejay.Kernel.Strings

/-!
# Looking for a name

* `searchDir`, `findCallback` : `ext2_dir_find` and `ext2_dir_contains`, by a listing.
* `WholeName` : what is found is the entry with the whole name.
* `wholeName_iff` : when this is so.
-/

namespace Bluejay

namespace Kernel

namespace Ext2

/-! ### The functions -/

/-- `ext2_dir_find_cb`, with the name that is looked for. -/
def findCallback (name : List UInt8) : LsCallback ℕ := fun found inode entry =>
  if Kernel.strncmp (bytesOf entry) (bytesOf name) (min entry.length name.length) = 0 then
    (false, inode)
  else (true, found)

/-- `ext2_dir_find` with `ext2_dir_find_cb` and zero, `ext2_dir_contains` with
`ext2_dir_contains_cb` and `false`; what is returned is the data at the end. -/
def searchDir {σ : Type} (sb : Superblock) (disk : Mem) (dir : Inode) (base : ℕ)
    (cb : LsCallback σ) (fuel : ℕ) (data : σ) : Option (LsRun LsEnd σ) :=
  if dir.IsDir then dirLs sb disk dir base (some cb) fuel data
  else some ⟨[], [], .returned false, data⟩

/-! ### What it should do -/

/-- The name of the entry and the name that is looked for agree as far as the shorter one goes. -/
def Agrees (name entry : List UInt8) : Prop :=
  Agree (min entry.length name.length) (bytesOf entry) (bytesOf name)

instance (name : List UInt8) : DecidablePred (Agrees name) := fun entry =>
  inferInstanceAs (Decidable (Agree _ (bytesOf entry) _))

/-- The inode of the entry with this name, or zero. -/
def inodeOf (name : List UInt8) (es : List Dirent) : ℕ := ((used es).lookup name).getD 0

/-- Both functions return, `ext2_dir_find` with the inode of the entry with this name and
`ext2_dir_contains` with whether there is one, and what has ended the listing is that name. -/
def WholeName (sb : Superblock) (disk : Mem) (dir : Inode) (base : ℕ) (rss : List (List Dirent))
    (name : List UInt8) : Prop :=
  ∃ fuel found contains, searchDir sb disk dir base (findCallback name) fuel 0 = some found ∧
    searchDir sb disk dir base (containsCallback name) fuel false = some contains ∧
    found.result = .returned true ∧ contains.result = .returned true ∧
    found.data = inodeOf name rss.flatten ∧ (contains.data = true ↔ found.data ≠ 0) ∧
    (found.data ≠ 0 → found.calls.getLast? = some (name, found.data))

/-- The first entry that is not used, or agrees with the name, has that name; or it is not used, and
no used entry behind it has the name. -/
def FirstNamed (name : List UInt8) : List Dirent → Prop
  | [] => False
  | e :: es =>
    if e.inode = 0 then ∀ e ∈ es, e.inode ≠ 0 → e.name ≠ name
    else if Agrees name e.name then e.name = name
    else FirstNamed name es

instance decidableFirstNamed (name : List UInt8) : DecidablePred (FirstNamed name)
  | [] => inferInstanceAs (Decidable False)
  | e :: es =>
    have := decidableFirstNamed name es
    inferInstanceAs (Decidable (if e.inode = 0 then ∀ e ∈ es, e.inode ≠ 0 → e.name ≠ name
      else if Agrees name e.name then e.name = name else FirstNamed name es))

/-- All entries are used and none of them agrees with the name.  The blocks that are read behind
those of the directory, up to an unused entry, are direct blocks with entries as they must be,
none of which agrees with the name. -/
def NoneNamed (sb : Superblock) (disk : Mem) (dir : Inode) (base : ℕ) (rss : List (List Dirent))
    (name : List UInt8) : Prop :=
  (∀ e ∈ rss.flatten, e.inode ≠ 0 ∧ ¬ Agrees name e.name) ∧
    ∀ i, rss.length ≤ i → i < dir.numBlocks →
      (∀ j, rss.length ≤ j → j < i →
        ¬ UnusedFrom (blockSize sb) (readBlock sb disk (dir.blocks j)) 0) →
      i < 12 ∧ SafeFrom base (blockSize sb) (readBlock sb disk (dir.blocks i)) 0 ∧
        NoneFrom (Agrees name) (blockSize sb) (readBlock sb disk (dir.blocks i)) 0

section Find

variable {σ : Type} {sb : Superblock} {disk b : Mem} {dir : Inode} {base fuel i k n : ℕ}
  {cb : LsCallback σ} {data : σ} {run : LsRun LsEnd σ} {e : Dirent} {es pre post : List Dirent}
  {rss rss₁ rss₂ : List (List Dirent)} {name entry : List UInt8} {p : List UInt8 → Prop}
  [DecidablePred p] {found : ℕ → σ}

/-! ### Comparing names -/

/-- `strncmp` is zero exactly if the names are the same up to the first zero byte. -/
theorem strncmp_iff {a b : List UInt8} :
    strncmp n a b = true ↔ Agree n (bytesOf a) (bytesOf b) := by
  induction n generalizing a b with
  | zero => exact iff_of_true rfl fun i hi => absurd hi (Nat.not_lt_zero i)
  | succ n ih =>
    have hhead : ∀ s : List UInt8, s.headD 0 = bytesOf s 0 := fun s => by cases s <;> rfl
    have htail : ∀ (s : List UInt8) i, bytesOf s.tail i = bytesOf s (i + 1) := fun s i => by
      cases s <;> simp [bytesOf]
    simp only [strncmp, Bool.and_eq_true, Bool.or_eq_true, decide_eq_true_eq, hhead, ih]
    constructor
    · rintro ⟨hfirst, hrest⟩ i hi hfront
      cases i with
      | zero => exact hfirst
      | succ i =>
        rw [← htail, ← htail]
        refine hrest.resolve_left (hfront 0 (Nat.succ_pos i)) i (Nat.lt_of_succ_lt_succ hi)
          fun j hj => ?_
        rw [htail]
        exact hfront (j + 1) (Nat.succ_lt_succ hj)
    · intro h
      refine ⟨h 0 (Nat.succ_pos n) fun j hj => absurd hj (Nat.not_lt_zero j), ?_⟩
      by_cases hzero : bytesOf a 0 = 0
      · exact .inl hzero
      · refine .inr fun i hi hfront => ?_
        rw [htail, htail]
        refine h (i + 1) (Nat.succ_lt_succ hi) fun j hj => ?_
        cases j with
        | zero => exact hzero
        | succ j =>
          rw [← htail]
          exact hfront j (Nat.lt_of_succ_lt_succ hj)

theorem findCallback_eq :
    findCallback name = searchCallback (Agrees name) (fun inode => inode) := by
  funext found inode entry
  simp only [findCallback, searchCallback, strncmp_eq_zero]
  rfl

theorem containsCallback_eq :
    containsCallback name = searchCallback (Agrees name) fun _ => true := by
  funext found inode entry
  simp only [containsCallback, searchCallback, strncmp_iff]
  rfl

theorem agrees_self (name : List UInt8) : Agrees name name := Agree.refl _ _

theorem searchDir_of_isDir (hdir : dir.IsDir) :
    searchDir sb disk dir base cb fuel data = dirLs sb disk dir base (some cb) fuel data :=
  if_pos hdir

/-! ### A search of the entries -/

theorem continues_search (h : ∀ e ∈ es, ¬ p e.name) : Continues (searchCallback p found) es := by
  intro e he data
  rw [searchCallback, if_neg (h e he)]

theorem dataAfter_search (h : ∀ e ∈ es, ¬ p e.name) :
    dataAfter (searchCallback p found) data es = data := by
  induction es with
  | nil => rfl
  | cons e es ih =>
    obtain ⟨he, hes⟩ := List.forall_mem_cons.1 h
    rw [dataAfter, List.foldl_cons, searchCallback, if_neg he]
    exact ih hes

/-- The search ends at the first entry that is not used or has a name with `p`. -/
theorem DirectBlocks.lists_first
    (h : DirectBlocks sb disk dir (rss₁ ++ (pre ++ e :: post) :: rss₂)) (hs : sb.blockSizeShift ≤ 6)
    (hb : base + blockSize sb < 2 ^ 32)
    (hbefore : ∀ e ∈ rss₁.flatten ++ pre, e.inode ≠ 0 ∧ ¬ p e.name) (he : e.inode = 0 ∨ p e.name)
    (found : ℕ → σ) (data : σ) :
    ∃ run, Lists sb disk dir base (some (searchCallback p found)) data run ∧
      run.result = .returned true ∧ run.data = (if e.inode = 0 then data else found e.inode) ∧
      (e.inode ≠ 0 → run.calls.getLast? = some (e.name, e.inode)) := by
  obtain ⟨hblocks, hpre⟩ := List.forall_mem_append.1 hbefore
  have hused : ∀ es ∈ rss₁, ∀ e ∈ es, e.inode ≠ 0 := fun es hes e he =>
    (hblocks e (List.mem_flatten_of_mem hes he)).1
  have hrec := h.records rss₁.length (pre ++ e :: post) (by simp)
  have hlen := hrec.length_le
  rw [List.length_append, List.length_cons] at hlen
  have hn : pre.length < blockSize sb + 1 := by omega
  have hcont : Continues (searchCallback p found) pre :=
    continues_search fun e he => (hpre e he).2
  have hconts : Continues (searchCallback p found) rss₁.flatten :=
    continues_search fun e he => (hblocks e he).2
  by_cases hzero : e.inode = 0
  · refine ⟨_, h.lists_stop hs hb hused hconts
      (hrec.lsBlock_unused hb (fun e he => (hpre e he).1) hzero hcont hn _) rfl,
      rfl, ?_, fun hne => absurd hzero hne⟩
    rw [if_pos hzero, dataAfter_search fun e he => (hpre e he).2,
      dataAfter_search fun e he => (hblocks e he).2]
  · have hp : ∀ data, searchCallback p found data e.inode e.name = (false, found e.inode) :=
      fun data => if_pos (he.resolve_left hzero)
    refine ⟨_, h.lists_stop hs hb hused hconts (hrec.lsBlock_end hb
      (fun e he => (hpre e he).1) hzero hcont (by rw [hp]) hn) rfl, rfl, ?_, fun _ => ?_⟩
    · rw [if_neg hzero, hp]
    · simp only
      rw [used_append, used_cons hzero, ← List.append_assoc]
      exact List.getLast?_concat

/-- If there is no such entry, the search goes on behind the blocks of the directory. -/
theorem DirectBlocks.lsLoop_behind (h : DirectBlocks sb disk dir rss) (hs : sb.blockSizeShift ≤ 6)
    (hb : base + blockSize sb < 2 ^ 32) (hall : ∀ e ∈ rss.flatten, e.inode ≠ 0 ∧ ¬ p e.name)
    (hfuel : blockSize sb < fuel) (found : ℕ → σ) (data : σ) :
    lsLoop sb disk dir base (some (searchCallback p found)) fuel dir.numBlocks 0 data =
      (lsLoop sb disk dir base (some (searchCallback p found)) fuel (dir.numBlocks - rss.length)
        rss.length data).map
          (·.after ((List.range' 0 rss.length).map dir.blocks) (used rss.flatten)) := by
  have hnum := h.le_numBlocks hs
  have hrec : ∀ j es, rss[j]? = some es →
      Records (readBlock sb disk (dir.blocks (0 + j))) 0 es (blockSize sb) := by
    intro j es hj
    rw [Nat.zero_add]
    exact h.records j es hj
  have hconts : Continues (searchCallback p found) rss.flatten :=
    continues_search fun e he => (hall e he).2
  have hloop := lsLoop_used hb hrec (fun es hes e he => (hall e (List.mem_flatten_of_mem hes he)).1)
    hconts (by rw [Nat.zero_add]; exact h.direct) hfuel (dir.numBlocks - rss.length) data
  rwa [Nat.add_sub_cancel' (by omega), Nat.zero_add,
    dataAfter_search fun e he => (hall e he).2] at hloop

/-! ### What is found -/

theorem inodeOf_eq_zero : inodeOf name es = 0 ↔ ∀ e ∈ es, e.inode ≠ 0 → e.name ≠ name := by
  induction es with
  | nil => simp [inodeOf, used]
  | cons e es ih =>
    rw [List.forall_mem_cons]
    by_cases hzero : e.inode = 0
    · rw [inodeOf, used_cons_of_unused hzero]
      exact ih.trans ⟨fun h => ⟨fun hne => absurd hzero hne, h⟩, fun h => h.2⟩
    · rw [inodeOf, used_cons hzero, List.lookup_cons]
      by_cases hname : name = e.name
      · simp [hname, hzero]
      · rw [beq_false_of_ne hname]
        exact ih.trans ⟨fun h => ⟨fun _ => Ne.symm hname, h⟩, fun h => h.2⟩

theorem inodeOf_first (hpre : ∀ e ∈ pre, ¬ Agrees name e.name) (he : e.inode ≠ 0)
    (hname : e.name = name) : inodeOf name (pre ++ e :: post) = e.inode := by
  have hnone : (used pre).lookup name = none := by
    refine List.lookup_eq_none_iff.2 fun call hcall => ?_
    obtain ⟨e', he', rfl⟩ := List.mem_map.1 hcall
    refine bne_iff_ne.2 fun heq => ?_
    exact hpre e' (List.mem_of_mem_filter he') (heq ▸ agrees_self name)
  rw [inodeOf, used_append, used_cons he, List.lookup_append, hnone, List.lookup_cons, hname,
    beq_self_eq_true]
  rfl

theorem firstNamed_append (hpre : ∀ e ∈ pre, e.inode ≠ 0 ∧ ¬ Agrees name e.name) :
    FirstNamed name (pre ++ es) ↔ FirstNamed name es := by
  induction pre with
  | nil => rfl
  | cons e pre ih =>
    obtain ⟨⟨hused, hname⟩, hpre⟩ := List.forall_mem_cons.1 hpre
    rw [List.cons_append, FirstNamed, if_neg hused, if_neg hname]
    exact ih hpre

/-- Both listings return what a search with `found` and one with `true` return. -/
theorem wholeName_of_lists {found : LsRun LsEnd ℕ} {contains : LsRun LsEnd Bool} (hdir : dir.IsDir)
    (hfound : Lists sb disk dir base (some (findCallback name)) 0 found)
    (hcontains : Lists sb disk dir base (some (containsCallback name)) false contains)
    (hresult : found.result = .returned true) (hresult' : contains.result = .returned true)
    (hdata : found.data = inodeOf name rss.flatten) (hdata' : contains.data = true ↔ found.data ≠ 0)
    (hlast : found.data ≠ 0 → found.calls.getLast? = some (name, found.data)) :
    WholeName sb disk dir base rss name := by
  obtain ⟨fuel, hfuel⟩ := hfound
  obtain ⟨fuel', hfuel'⟩ := hcontains
  refine ⟨max fuel fuel', found, contains, ?_, ?_, hresult, hresult', hdata, hdata', hlast⟩
  · rw [searchDir_of_isDir hdir]
    exact dirLs_mono hfuel (Nat.le_max_left _ _)
  · rw [searchDir_of_isDir hdir]
    exact dirLs_mono hfuel' (Nat.le_max_right _ _)

theorem WholeName.lists (hdir : dir.IsDir) (h : WholeName sb disk dir base rss name) :
    ∃ run, Lists sb disk dir base (some (findCallback name)) 0 run ∧
      run.result = .returned true ∧ run.data = inodeOf name rss.flatten ∧
      (run.data ≠ 0 → run.calls.getLast? = some (name, run.data)) := by
  obtain ⟨fuel, found, -, hfound, -, hresult, -, hdata, -, hlast⟩ := h
  rw [searchDir_of_isDir hdir] at hfound
  exact ⟨found, ⟨fuel, hfound⟩, hresult, hdata, hlast⟩

/-- The search ends at the entry `e`. -/
theorem DirectBlocks.wholeName_first
    (h : DirectBlocks sb disk dir (rss₁ ++ (pre ++ e :: post) :: rss₂)) (hs : sb.blockSizeShift ≤ 6)
    (hb : base + blockSize sb < 2 ^ 32)
    (hbefore : ∀ e ∈ rss₁.flatten ++ pre, e.inode ≠ 0 ∧ ¬ Agrees name e.name)
    (he : e.inode = 0 ∨ Agrees name e.name) :
    WholeName sb disk dir base (rss₁ ++ (pre ++ e :: post) :: rss₂) name ↔
      FirstNamed name (rss₁ ++ (pre ++ e :: post) :: rss₂).flatten := by
  have hflat : (rss₁ ++ (pre ++ e :: post) :: rss₂).flatten =
      (rss₁.flatten ++ pre) ++ e :: (post ++ rss₂.flatten) := by
    simp
  obtain ⟨found, hfound, hresult, hdata, hlast⟩ :=
    h.lists_first hs hb hbefore he (fun inode => inode) 0
  rw [hflat, firstNamed_append hbefore, FirstNamed]
  by_cases hzero : e.inode = 0
  · -- nothing is found, so there must be nothing behind `e`
    rw [if_pos hzero]
    rw [if_pos hzero] at hdata
    have hnone : inodeOf name ((rss₁.flatten ++ pre) ++ e :: (post ++ rss₂.flatten)) = 0 ↔
        ∀ e ∈ post ++ rss₂.flatten, e.inode ≠ 0 → e.name ≠ name := by
      rw [inodeOf_eq_zero, List.forall_mem_append, List.forall_mem_cons]
      refine ⟨fun h => h.2.2, fun h => ⟨fun e he _ heq => ?_, fun hne => absurd hzero hne, h⟩⟩
      exact (hbefore e he).2 (heq ▸ agrees_self name)
    rw [← hnone]
    constructor
    · intro hwhole
      obtain ⟨run, hlists, -, hrun, -⟩ := hwhole.lists h.isDir
      rw [findCallback_eq] at hlists
      rw [← hflat, ← hrun, hlists.unique hfound, hdata]
    · intro hzero'
      obtain ⟨contains, hcontains, hresult', hdata', -⟩ :=
        h.lists_first hs hb hbefore he (fun _ => true) false
      rw [if_pos hzero] at hdata'
      rw [← findCallback_eq] at hfound
      rw [← containsCallback_eq] at hcontains
      refine wholeName_of_lists h.isDir hfound hcontains hresult hresult' ?_ ?_ ?_
      · rw [hdata, hflat, hzero']
      · simp [hdata, hdata']
      · exact fun hne => absurd hdata hne
  · -- `e` is found
    rw [if_neg hzero, if_pos (he.resolve_left hzero)]
    rw [if_neg hzero] at hdata
    constructor
    · intro hwhole
      obtain ⟨run, hlists, -, -, hrun⟩ := hwhole.lists h.isDir
      rw [findCallback_eq] at hlists
      obtain rfl := hlists.unique hfound
      have hsame := (hlast hzero).symm.trans (hrun (hdata ▸ hzero))
      exact congrArg Prod.fst (Option.some_inj.1 hsame)
    · intro hname
      obtain ⟨contains, hcontains, hresult', hdata', -⟩ :=
        h.lists_first hs hb hbefore he (fun _ => true) false
      rw [if_neg hzero] at hdata'
      rw [← findCallback_eq] at hfound
      rw [← containsCallback_eq] at hcontains
      refine wholeName_of_lists h.isDir hfound hcontains hresult hresult' ?_ ?_ fun _ => ?_
      · rw [hdata, hflat, inodeOf_first (fun e he => (hbefore e he).2) hzero hname]
      · simp [hdata, hdata', hzero]
      · rw [hlast hzero, hname, hdata]

/-- The search goes on behind the blocks of the directory. -/
theorem DirectBlocks.wholeName_behind (h : DirectBlocks sb disk dir rss)
    (hs : sb.blockSizeShift ≤ 6) (hb : base + blockSize sb < 2 ^ 32)
    (hall : ∀ e ∈ rss.flatten, e.inode ≠ 0 ∧ ¬ Agrees name e.name) :
    WholeName sb disk dir base rss name ↔ NoneNamed sb disk dir base rss name := by
  have hnum := h.le_numBlocks hs
  have hzero : inodeOf name rss.flatten = 0 := inodeOf_eq_zero.2 fun e he _ heq =>
    (hall e he).2 (heq ▸ agrees_self name)
  constructor
  · intro hwhole
    refine ⟨hall, fun i hi hlt hbefore => ?_⟩
    obtain ⟨run, hlists, hresult, hdata, -⟩ := hwhole.lists h.isDir
    obtain ⟨fuel, hrun⟩ := (lists_iff h.isDir).1 hlists
    have hmax := lsLoop_mono hrun (Nat.le_max_left fuel (blockSize sb + 1))
    rw [findCallback_eq, h.lsLoop_behind hs hb hall (by omega)] at hmax
    obtain ⟨rest, hrest, rfl⟩ := Option.map_eq_some_iff.1 hmax
    exact safe_of_lsLoop (fun inode hne _ _ => hne) hb hs hrest hresult (hdata.trans hzero) hi
      (by omega) hbefore
  · rintro ⟨-, hbehind⟩
    -- both searches read the same blocks
    have hrest : ∀ {σ : Type} (found : ℕ → σ) (data : σ), ∃ run,
        Lists sb disk dir base (some (searchCallback (Agrees name) found)) data run ∧
          run.result = .returned true ∧ run.data = data := by
      intro σ found data
      obtain ⟨rest, hrest, hresult, hdata⟩ := lsLoop_returns (I := (· = data)) (i := rss.length)
        (n := dir.numBlocks - rss.length) hb (fun j hj hlt hbefore =>
          let ⟨hj₁₂, hsafe, hnone⟩ := hbehind j hj (by omega) hbefore
          ⟨hj₁₂, hsafe, hnone.keepsFrom⟩) rfl
      exact ⟨_, (lists_iff h.isDir).2 ⟨blockSize sb + 1, (h.lsLoop_behind hs hb hall
        (Nat.lt_succ_self _) found data).trans (congrArg _ hrest)⟩, hresult, hdata⟩
    obtain ⟨found, hfound, hresult, hdata⟩ := hrest (fun inode => inode) 0
    obtain ⟨contains, hcontains, hresult', hdata'⟩ := hrest (fun _ => true) false
    rw [← findCallback_eq] at hfound
    rw [← containsCallback_eq] at hcontains
    refine wholeName_of_lists h.isDir hfound hcontains hresult hresult' ?_ ?_ ?_
    · rw [hdata, hzero]
    · simp [hdata, hdata']
    · exact fun hne => absurd hdata hne

/-- What is found is the entry with the whole name exactly if the first entry that is not used or
agrees with the name has it, or is not used with no such entry behind it; or if there is no such
entry, also in what is read behind the blocks of the directory. -/
theorem wholeName_iff (hs : sb.blockSizeShift ≤ 6) (hb : base + blockSize sb < 2 ^ 32)
    (h : DirectBlocks sb disk dir rss) (name : List UInt8) :
    WholeName sb disk dir base rss name ↔
      FirstNamed name rss.flatten ∨ NoneNamed sb disk dir base rss name := by
  by_cases hstop : ∃ es ∈ rss, ∃ e ∈ es, e.inode = 0 ∨ Agrees name e.name
  · obtain ⟨rss₁, es, rss₂, rfl, hes, hblocks⟩ := exists_first hstop
    obtain ⟨pre, e, post, rfl, he, hpre⟩ := exists_first hes
    have hbefore : ∀ e ∈ rss₁.flatten ++ pre, e.inode ≠ 0 ∧ ¬ Agrees name e.name := by
      intro e' he'
      rw [← not_or]
      rcases List.mem_append.1 he' with he' | he'
      · obtain ⟨es', hes', hmem⟩ := List.mem_flatten.1 he'
        exact fun hor => hblocks es' hes' ⟨e', hmem, hor⟩
      · exact hpre e' he'
    rw [h.wholeName_first hs hb hbefore he]
    refine (or_iff_left fun hnone => ?_).symm
    have hmem : pre ++ e :: post ∈ rss₁ ++ (pre ++ e :: post) :: rss₂ := by simp
    have hpass := hnone.1 e (List.mem_flatten_of_mem hmem (by simp))
    exact he.elim hpass.1 hpass.2
  · have hall : ∀ e ∈ rss.flatten, e.inode ≠ 0 ∧ ¬ Agrees name e.name := by
      intro e he
      rw [← not_or]
      obtain ⟨es, hes, hmem⟩ := List.mem_flatten.1 he
      exact fun hor => hstop ⟨es, hes, e, hmem, hor⟩
    rw [h.wholeName_behind hs hb hall]
    refine (or_iff_right fun hfirst => ?_).symm
    rw [← List.append_nil rss.flatten, firstNamed_append hall] at hfirst
    exact hfirst

end Find

/-! ### A directory of the sample -/

/-- The sample, with an entry `ab` and an unused one behind it. -/
def prefixDisk : Mem := diskOf ((7184, [12, 0]) :: (7192, [12, 0, 0, 0, 12, 0, 2, 1, 97, 98]) ::
  (7208, [0xdc, 3]) :: samplePlaces)

theorem prefix_directBlocks : DirectBlocks sampleSuperblock prefixDisk (sampleDir prefixDisk)
    (sampleEntries prefixDisk [0, 12, 24, 36]) where
  isDir := by decide
  direct := by decide
  numBlocks := by decide
  records := records_sample (by decide)
    (.cons_of_eq ⟨by decide, by decide⟩ (by decide : _ = 12)
      (.cons_of_eq ⟨by decide, by decide⟩ (by decide : _ = 24)
        (.cons_of_eq ⟨by decide, by decide⟩ (by decide : _ = 36)
          (.cons_of_eq ⟨by decide, by decide⟩ (by decide : _ = 1024)
            (.nil _)))))

theorem wholeName_sample : WholeName sampleSuperblock prefixDisk (sampleDir prefixDisk) 0
    (sampleEntries prefixDisk [0, 12, 24, 36]) [97, 98] :=
  (wholeName_iff (by decide) (by decide) prefix_directBlocks [97, 98]).2
    (.inl (by decide))

/-- `a` is found, where the name of the entry is `ab`. -/
theorem not_wholeName : ¬ ∀ sb disk dir base rss name, sb.blockSizeShift ≤ 6 →
    base + blockSize sb < 2 ^ 32 → DirectBlocks sb disk dir rss →
      ((used rss.flatten).map Prod.fst).Nodup → WholeName sb disk dir base rss name := by
  intro h
  obtain ⟨b, hread⟩ : ∃ b, b = readBlock sampleSuperblock prefixDisk 7 := ⟨_, rfl⟩
  have hblocks : DirectBlocks sampleSuperblock prefixDisk (sampleDir prefixDisk)
      ([] ++ ([direntAt b 0, direntAt b 12] ++ direntAt b 24 :: [direntAt b 36]) :: []) :=
    hread ▸ prefix_directBlocks
  have hwhole := h _ _ _ 0 _ [97] (by decide) (by decide) hblocks
    (by rw [hread]; decide)
  rw [hblocks.wholeName_first (by decide) (by decide) (by rw [hread]; decide)
    (by rw [hread]; decide), hread] at hwhole
  exact absurd hwhole (by decide)

end Ext2

end Kernel

end Bluejay
