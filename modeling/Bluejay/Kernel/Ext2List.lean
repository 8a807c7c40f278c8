import Bluejay.Kernel.Ext2Link

/-!
# Listing a directory

* `dirLs` : `ext2_dir_ls`, with the blocks it reads, the calls of the callback, and how it ends.
  What it reads of a block lies in a buffer, and a read of any other place ends the run.
* `Robust`, `robust_iff` : the listing returns without such a read, and when it does so.
* `SafeContent.lists_contains` : a name is looked for by a listing.
-/

namespace Bluejay

namespace Kernel

namespace Ext2

/-- A callback of `ext2_dir_ls` with its data, the inode and the name: whether the listing goes on,
and the data afterwards. -/
abbrev LsCallback (σ : Type) := σ → ℕ → List UInt8 → Bool × σ

/-- How a listing ends; `outside` is a read of a byte that is not in the buffer. -/
inductive LsEnd
  | returned (result : Bool)
  | panicked
  | outside
  deriving DecidableEq

/-- A listing, or a part of one: the blocks that were read, the names and inodes that the callback
got, the end and the data of the callback. -/
structure LsRun (ρ σ : Type) where
  read : List ℕ
  calls : List (List UInt8 × ℕ)
  result : ρ
  data : σ

/-- The run with what was done before. -/
def LsRun.after {ρ σ : Type} (run : LsRun ρ σ) (read : List ℕ) (calls : List (List UInt8 × ℕ)) :
    LsRun ρ σ :=
  { run with read := read ++ run.read, calls := calls ++ run.calls }

/-- The `n` bytes at the address `a` are in the buffer. -/
def InBuffer (base size a n : ℕ) : Prop := n = 0 ∨ base ≤ a ∧ a + n ≤ base + size

instance (base size a n : ℕ) : Decidable (InBuffer base size a n) :=
  inferInstanceAs (Decidable (_ ∨ _))

section Listing

variable {σ : Type}

/-- `if (cb) { ... }`, for the entry at the address `ent`. -/
def lsCall (base size : ℕ) (cb : Option (LsCallback σ)) (ent : ℕ) (e : Dirent) (data : σ) :
    LsRun (Option LsEnd) σ :=
  match cb with
  | none => ⟨[], [], none, data⟩
  | some cb =>
    let nameLen := min e.name.length 255
    if InBuffer base size (ent + 6) 1 ∧ InBuffer base size (ent + 8) nameLen then
      let name := e.name.take nameLen
      let (continues, data) := cb data e.inode name
      ⟨[], [(name, e.inode)], if continues then none else some (.returned true), data⟩
    else ⟨[], [], some .outside, data⟩

/-- The loop over the entries of a block, from the address `ent` on.  The block is in the buffer at
the address `base`; the end is `none` if the entries have run out. -/
def lsBlock (base size : ℕ) (cb : Option (LsCallback σ)) (buffer : Mem) :
    ℕ → ℕ → σ → Option (LsRun (Option LsEnd) σ)
  | 0, _, _ => none
  | n + 1, ent, data =>
    if ent < u32 (base + size) then
      let e := direntAt buffer (ent - base)
      if ¬ InBuffer base size ent 4 then some ⟨[], [], some .outside, data⟩
      else if e.inode = 0 then some ⟨[], [], some (.returned true), data⟩
      else
        let run := lsCall base size cb ent e data
        if run.result.isSome then some run
        else if ¬ InBuffer base size (ent + 4) 2 then some { run with result := some .outside }
        else (lsBlock base size cb buffer n (u32 (ent + e.recLen)) run.data).map
          (·.after run.read run.calls)
    else some ⟨[], [], none, data⟩

/-- The loop over the blocks, for the next `n` of them. -/
def lsLoop (sb : Superblock) (disk : Mem) (dir : Inode) (base : ℕ) (cb : Option (LsCallback σ))
    (fuel : ℕ) : ℕ → ℕ → σ → Option (LsRun LsEnd σ)
  | 0, _, data => some ⟨[], [], .returned true, data⟩
  | n + 1, i, data =>
    match readInodeBlock sb disk dir i with
    | none => some ⟨[], [], .panicked, data⟩
    | some buffer => do
      let run ← lsBlock base (blockSize sb) cb buffer fuel base data
      match run.result with
      | some result => return ⟨[dir.blocks i], run.calls, result, run.data⟩
      | none =>
        let rest ← lsLoop sb disk dir base cb fuel n (i + 1) run.data
        return rest.after [dir.blocks i] run.calls

/-- `ext2_dir_ls`, with a buffer at the address `base`; `none` if a loop takes more than `fuel`
steps for the entries of a block. -/
def dirLs (sb : Superblock) (disk : Mem) (dir : Inode) (base : ℕ) (cb : Option (LsCallback σ))
    (fuel : ℕ) (data : σ) : Option (LsRun LsEnd σ) :=
  if dir.IsDir then lsLoop sb disk dir base cb fuel dir.numBlocks 0 data
  else some ⟨[], [], .returned false, data⟩

/-- The listing ends, with this run. -/
def Lists (sb : Superblock) (disk : Mem) (dir : Inode) (base : ℕ) (cb : Option (LsCallback σ))
    (data : σ) (run : LsRun LsEnd σ) : Prop :=
  ∃ fuel, dirLs sb disk dir base cb fuel data = some run

/-- A callback that ends the listing at the first name with `p`. -/
def searchCallback (p : List UInt8 → Prop) [DecidablePred p] (found : ℕ → σ) : LsCallback σ :=
  fun data inode entry => if p entry then (false, found inode) else (true, data)

/-- `ext2_dir_contains_cb`, with the name that is looked for. -/
def containsCallback (name : List UInt8) : LsCallback Bool := fun found _ entry =>
  if strncmp (min entry.length name.length) entry name then (false, true) else (true, found)

end Listing

/-- The listing returns, and all bytes that it reads are in the buffer. -/
def Robust (sb : Superblock) (disk : Mem) (dir : Inode) (base : ℕ) : Prop :=
  ∀ (σ : Type) (cb : Option (LsCallback σ)) (data : σ),
    ∃ run, Lists sb disk dir base cb data run ∧ ∃ result, run.result = .returned result

/-- From the place `o` of a block the lengths of used entries lead to the place `p`. -/
inductive Reaches (b : Mem) (size : ℕ) : ℕ → ℕ → Prop
  | refl (o : ℕ) : Reaches b size o o
  | step {o p : ℕ} (h : o < size) (hused : (direntAt b o).inode ≠ 0)
      (ht : Reaches b size (o + (direntAt b o).recLen) p) : Reaches b size o p

/-- The length of the name and the name are in the block. -/
def NameIn (size : ℕ) (e : Dirent) : Prop :=
  e.offset + 7 ≤ size ∧ (e.name = [] ∨ e.offset + 8 + e.name.length ≤ size)

instance (size : ℕ) (e : Dirent) : Decidable (NameIn size e) :=
  inferInstanceAs (Decidable (_ ∧ (_ ∨ _)))

/-- The number of the inode is in the block; if it is not zero, then so is the name, and the next
entry is behind this one and has an address. -/
structure RecordOk (base size : ℕ) (e : Dirent) : Prop where
  inode : e.offset + 4 ≤ size
  recLen : e.inode ≠ 0 → 0 < e.recLen ∧ base + e.offset + e.recLen < 2 ^ 32
  name : e.inode ≠ 0 → NameIn size e

/-- All entries that are reached from `o` on are as they must be. -/
def SafeFrom (base size : ℕ) (b : Mem) (o : ℕ) : Prop :=
  ∀ p, Reaches b size o p → p < size → RecordOk base size (direntAt b p)

/-- No used entry that is reached from `o` on has a name with `p`. -/
def NoneFrom (p : List UInt8 → Prop) (size : ℕ) (b : Mem) (o : ℕ) : Prop :=
  ∀ q, Reaches b size o q → q < size → (direntAt b q).inode ≠ 0 → ¬ p (direntAt b q).name

/-- The callback keeps `I` at all used entries that are reached from `o` on. -/
def KeepsFrom {σ : Type} (cb : Option (LsCallback σ)) (I : σ → Prop) (size : ℕ) (b : Mem)
    (o : ℕ) : Prop :=
  ∀ f, cb = some f → ∀ q, Reaches b size o q → q < size → (direntAt b q).inode ≠ 0 →
    ∀ data, I data → I (f data (direntAt b q).inode (direntAt b q).name).2

/-- An entry that is not used is reached from `o` on. -/
def UnusedFrom (size : ℕ) (b : Mem) (o : ℕ) : Prop :=
  ∃ p, Reaches b size o p ∧ p < size ∧ (direntAt b p).inode = 0

/-- The data of a callback after these calls. -/
def calledData {σ : Type} (f : LsCallback σ) (data : σ) (calls : List (List UInt8 × ℕ)) : σ :=
  calls.foldl (fun data call => (f data call.2 call.1).2) data

/-- The callback continues at all of these calls. -/
def AllContinue {σ : Type} (f : LsCallback σ) : σ → List (List UInt8 × ℕ) → Prop
  | _, [] => True
  | data, call :: calls =>
    (f data call.2 call.1).1 = true ∧ AllContinue f (f data call.2 call.1).2 calls

/-- Of as many blocks as there are sectors, those up to the first one in which an entry that is not
used is reached are direct blocks, and the entries that are reached in them are as they must be. -/
def SafeContent (sb : Superblock) (disk : Mem) (dir : Inode) (base : ℕ) : Prop :=
  dir.IsDir → ∀ i < dir.numBlocks,
    (∀ j < i, ¬ UnusedFrom (blockSize sb) (readBlock sb disk (dir.blocks j)) 0) →
      i < 12 ∧ SafeFrom base (blockSize sb) (readBlock sb disk (dir.blocks i)) 0

section List

variable {σ : Type} {sb : Superblock} {disk b : Mem} {dir : Inode}
  {base size ent fuel fuel' i m n o p : ℕ} {cb : Option (LsCallback σ)} {f : LsCallback σ}
  {data : σ} {run run' : LsRun LsEnd σ} {scan : LsRun (Option LsEnd) σ} {e : Dirent}
  {name : List UInt8}

/-! ### Runs -/

theorem LsRun.after_after {ρ : Type} (run : LsRun ρ σ) (r₁ r₂ : List ℕ)
    (c₁ c₂ : List (List UInt8 × ℕ)) :
    (run.after r₂ c₂).after r₁ c₁ = run.after (r₁ ++ r₂) (c₁ ++ c₂) := by
  simp [LsRun.after]

theorem LsRun.after_nil {ρ : Type} (run : LsRun ρ σ) : run.after [] [] = run := rfl

/-- More steps do not change the run. -/
theorem lsBlock_mono (h : lsBlock base size cb b fuel ent data = some scan) (hle : fuel ≤ fuel') :
    lsBlock base size cb b fuel' ent data = some scan := by
  induction fuel generalizing fuel' ent data scan with
  | zero => simp [lsBlock] at h
  | succ n ih =>
    obtain ⟨n', rfl⟩ := Nat.exists_eq_add_of_le' hle
    rw [← Nat.add_assoc]
    simp only [lsBlock] at h ⊢
    split_ifs at h ⊢
    all_goals try exact h
    obtain ⟨scan', hscan, rfl⟩ := Option.map_eq_some_iff.1 h
    rw [ih hscan (Nat.le_add_left n n'), Option.map_some]

theorem lsLoop_mono (h : lsLoop sb disk dir base cb fuel n i data = some run)
    (hle : fuel ≤ fuel') : lsLoop sb disk dir base cb fuel' n i data = some run := by
  induction n generalizing i data run with
  | zero => exact h
  | succ n ih =>
    rw [lsLoop] at h ⊢
    cases hbuffer : readInodeBlock sb disk dir i with
    | none => rwa [hbuffer] at h
    | some buffer =>
      simp only [hbuffer] at h ⊢
      obtain ⟨scan, hscan, h⟩ := Option.bind_eq_some_iff.1 h
      rw [lsBlock_mono hscan hle]
      refine Option.bind_eq_some_iff.2 ⟨scan, rfl, ?_⟩
      cases hr : scan.result with
      | some result => rwa [hr] at h
      | none =>
        simp only [hr] at h ⊢
        obtain ⟨rest, hrest, h⟩ := Option.bind_eq_some_iff.1 h
        exact Option.bind_eq_some_iff.2 ⟨rest, ih hrest, h⟩

theorem dirLs_mono (h : dirLs sb disk dir base cb fuel data = some run) (hle : fuel ≤ fuel') :
    dirLs sb disk dir base cb fuel' data = some run := by
  unfold dirLs at h ⊢
  split_ifs at h ⊢
  · exact lsLoop_mono h hle
  · exact h

theorem Lists.unique (h : Lists sb disk dir base cb data run)
    (h' : Lists sb disk dir base cb data run') : run = run' := by
  obtain ⟨fuel, h⟩ := h
  obtain ⟨fuel', h'⟩ := h'
  have hmax := dirLs_mono h (Nat.le_max_left fuel fuel')
  rw [dirLs_mono h' (Nat.le_max_right fuel fuel')] at hmax
  exact (Option.some_inj.1 hmax).symm

theorem lists_iff (hdir : dir.IsDir) : Lists sb disk dir base cb data run ↔
    ∃ fuel, lsLoop sb disk dir base cb fuel dir.numBlocks 0 data = some run := by
  simp [Lists, dirLs, hdir]

/-! ### One entry -/

theorem inBuffer_add (hn : n ≠ 0) : InBuffer base size (base + o) n ↔ o + n ≤ size := by
  unfold InBuffer
  omega

theorem lsCall_of_nameIn (hname : NameIn size (direntAt b o)) :
    lsCall base size (some f) (base + o) (direntAt b o) data =
      ⟨[], [((direntAt b o).name, (direntAt b o).inode)],
        if (f data (direntAt b o).inode (direntAt b o).name).1 then none else some (.returned true),
        (f data (direntAt b o).inode (direntAt b o).name).2⟩ := by
  obtain ⟨h₇, h₈⟩ := hname
  change o + 7 ≤ size at h₇
  change _ ∨ o + 8 + _ ≤ size at h₈
  have hlen : min (direntAt b o).name.length 255 = (direntAt b o).name.length :=
    Nat.min_eq_left (Nat.le_of_lt_succ (name_length_lt b o))
  have hin : InBuffer base size (base + o + 8) (direntAt b o).name.length :=
    h₈.imp (fun h => by rw [h, List.length_nil]) fun h => by omega
  simp only [lsCall, hlen, List.take_length]
  rw [if_pos ⟨by rw [Nat.add_assoc, inBuffer_add (by decide)]; omega, hin⟩]

theorem lsCall_of_not_nameIn (hname : ¬ NameIn size (direntAt b o)) :
    lsCall base size (some f) (base + o) (direntAt b o) data = ⟨[], [], some .outside, data⟩ := by
  have hlen : min (direntAt b o).name.length 255 = (direntAt b o).name.length :=
    Nat.min_eq_left (Nat.le_of_lt_succ (name_length_lt b o))
  simp only [lsCall, hlen]
  refine if_neg (mt (fun hin => ?_) hname)
  obtain ⟨h₇, h₈⟩ := hin
  rw [Nat.add_assoc, inBuffer_add (by decide)] at h₇
  exact ⟨h₇, h₈.imp List.eq_nil_of_length_eq_zero fun h => by change o + 8 + _ ≤ size; omega⟩

theorem lsBlock_past (hb : base + size < 2 ^ 32) (ho : size ≤ o) :
    lsBlock base size cb b (n + 1) (base + o) data = some ⟨[], [], none, data⟩ := by
  rw [lsBlock, u32_of_lt hb, if_neg (by omega)]

/-- In front of the buffer the listing does not go on. -/
theorem lsBlock_before (hb : base + size < 2 ^ 32) (hent : ent < base) :
    lsBlock base size cb b (n + 1) ent data = some ⟨[], [], some .outside, data⟩ := by
  have hout : ¬ InBuffer base size ent 4 := by
    unfold InBuffer
    omega
  rw [lsBlock, u32_of_lt hb, if_pos (by omega), if_pos hout]

theorem lsBlock_cut (hb : base + size < 2 ^ 32) (ho : o < size) (hcut : size < o + 4) :
    lsBlock base size cb b (n + 1) (base + o) data = some ⟨[], [], some .outside, data⟩ := by
  have hout : ¬ InBuffer base size (base + o) 4 := by
    rw [inBuffer_add (by decide)]
    omega
  rw [lsBlock, u32_of_lt hb, if_pos (by omega), if_pos hout]

theorem lsBlock_unused (hb : base + size < 2 ^ 32) (ho : o + 4 ≤ size)
    (hno : (direntAt b o).inode = 0) :
    lsBlock base size cb b (n + 1) (base + o) data =
      some ⟨[], [], some (.returned true), data⟩ := by
  have hin : InBuffer base size (base + o) 4 := (inBuffer_add (by decide)).2 ho
  simp only [lsBlock]
  rw [u32_of_lt hb, if_pos (by omega), if_neg (not_not.2 hin), Nat.add_sub_cancel_left, if_pos hno]

theorem lsBlock_used (hb : base + size < 2 ^ 32) (ho : o + 4 ≤ size)
    (hused : (direntAt b o).inode ≠ 0)
    (hscan : lsCall base size cb (base + o) (direntAt b o) data = scan) :
    lsBlock base size cb b (n + 1) (base + o) data =
      if scan.result.isSome then some scan
      else if ¬ InBuffer base size (base + o + 4) 2 then some { scan with result := some .outside }
      else (lsBlock base size cb b n (u32 (base + o + (direntAt b o).recLen)) scan.data).map
        (·.after scan.read scan.calls) := by
  have hin : InBuffer base size (base + o) 4 := (inBuffer_add (by decide)).2 ho
  simp only [lsBlock]
  rw [u32_of_lt hb, if_pos (by omega), if_neg (not_not.2 hin), Nat.add_sub_cancel_left,
    if_neg hused, hscan]

/-- The callback gets a used entry whose name is in the block, and says whether the next one is
looked at. -/
theorem lsBlock_call (hb : base + size < 2 ^ 32) (hused : (direntAt b o).inode ≠ 0)
    (hname : NameIn size (direntAt b o)) :
    lsBlock base size (some f) b (n + 1) (base + o) data =
      let called := f data (direntAt b o).inode (direntAt b o).name
      if called.1 then
        (lsBlock base size (some f) b n (u32 (base + o + (direntAt b o).recLen)) called.2).map
          (·.after [] [((direntAt b o).name, (direntAt b o).inode)])
      else some ⟨[], [((direntAt b o).name, (direntAt b o).inode)], some (.returned true),
        called.2⟩ := by
  have h₇ : o + 7 ≤ size := hname.1
  have h₄ : InBuffer base size (base + o + 4) 2 := by
    rw [Nat.add_assoc, inBuffer_add (by decide)]
    omega
  rw [lsBlock_used hb (by omega) hused (lsCall_of_nameIn hname), if_neg (not_not.2 h₄)]
  cases hf : (f data (direntAt b o).inode (direntAt b o).name).1 <;> simp [hf]

theorem lsBlock_outside (hb : base + size < 2 ^ 32) (ho : o + 4 ≤ size)
    (hused : (direntAt b o).inode ≠ 0) (hname : ¬ NameIn size (direntAt b o)) :
    lsBlock base size (some f) b (n + 1) (base + o) data =
      some ⟨[], [], some .outside, data⟩ := by
  rw [lsBlock_used hb ho hused (lsCall_of_not_nameIn hname)]
  rfl

/-- Without a callback only the header is read. -/
theorem lsBlock_skip (hb : base + size < 2 ^ 32) (ho : o + 6 ≤ size)
    (hused : (direntAt b o).inode ≠ 0) (hnext : base + o + (direntAt b o).recLen < 2 ^ 32) :
    lsBlock base size (none : Option (LsCallback σ)) b (n + 1) (base + o) data =
      lsBlock base size none b n (base + (o + (direntAt b o).recLen)) data := by
  have h₄ : InBuffer base size (base + o + 4) 2 := by
    rw [Nat.add_assoc, inBuffer_add (by decide)]
    omega
  rw [lsBlock_used hb (by omega) hused rfl, u32_of_lt hnext, if_neg (not_not.2 h₄), Nat.add_assoc]
  simp [lsCall, LsRun.after_nil]

/-! ### Entries that are as they must be -/

theorem SafeFrom.ok (h : SafeFrom base size b o) (ho : o < size) :
    RecordOk base size (direntAt b o) := h o (.refl o) ho

theorem SafeFrom.next (h : SafeFrom base size b o) (ho : o < size)
    (hused : (direntAt b o).inode ≠ 0) : SafeFrom base size b (o + (direntAt b o).recLen) :=
  fun p hp => h p (.step ho hused hp)

theorem safeFrom_past (ho : size ≤ o) : SafeFrom base size b o := by
  intro p hp hlt
  cases hp <;> omega

theorem safeFrom_unused (ho : o + 4 ≤ size) (hno : (direntAt b o).inode = 0) :
    SafeFrom base size b o := by
  intro p hp _
  cases hp with
  | refl => exact ⟨ho, fun hne => absurd hno hne, fun hne => absurd hno hne⟩
  | step _ hne _ => exact absurd hno hne

theorem safeFrom_used (hok : RecordOk base size (direntAt b o))
    (ht : SafeFrom base size b (o + (direntAt b o).recLen)) : SafeFrom base size b o := by
  intro p hp hlt
  cases hp with
  | refl => exact hok
  | step _ _ hp => exact ht p hp hlt

theorem UnusedFrom.of_next (h : UnusedFrom size b (o + (direntAt b o).recLen)) (ho : o < size)
    (hused : (direntAt b o).inode ≠ 0) : UnusedFrom size b o := by
  obtain ⟨p, hp, hlt, hno⟩ := h
  exact ⟨p, .step ho hused hp, hlt, hno⟩

theorem UnusedFrom.next (h : UnusedFrom size b o) (hused : (direntAt b o).inode ≠ 0) :
    UnusedFrom size b (o + (direntAt b o).recLen) := by
  obtain ⟨p, hp, hlt, hno⟩ := h
  cases hp with
  | refl => exact absurd hno hused
  | step _ _ ht => exact ⟨p, ht, hlt, hno⟩

theorem not_unusedFrom_past (ho : size ≤ o) : ¬ UnusedFrom size b o := by
  rintro ⟨p, hp, hlt, -⟩
  cases hp <;> omega

theorem NoneFrom.next {p : List UInt8 → Prop} (h : NoneFrom p size b o) (ho : o < size)
    (hused : (direntAt b o).inode ≠ 0) : NoneFrom p size b (o + (direntAt b o).recLen) :=
  fun q hq => h q (.step ho hused hq)

theorem noneFrom_past {p : List UInt8 → Prop} (ho : size ≤ o) : NoneFrom p size b o := by
  intro q hq hlt
  cases hq <;> omega

theorem noneFrom_unused {p : List UInt8 → Prop} (hno : (direntAt b o).inode = 0) :
    NoneFrom p size b o := by
  intro q hq _ hused
  cases hq with
  | refl => exact absurd hno hused
  | step _ hne _ => exact absurd hno hne

theorem noneFrom_used {p : List UInt8 → Prop} (hname : ¬ p (direntAt b o).name)
    (ht : NoneFrom p size b (o + (direntAt b o).recLen)) : NoneFrom p size b o := by
  intro q hq hlt hused
  cases hq with
  | refl => exact hname
  | step _ _ hq => exact ht q hq hlt hused

theorem KeepsFrom.next {I : σ → Prop} (h : KeepsFrom cb I size b o) (ho : o < size)
    (hused : (direntAt b o).inode ≠ 0) : KeepsFrom cb I size b (o + (direntAt b o).recLen) :=
  fun f hf q hq => h f hf q (.step ho hused hq)

theorem keepsFrom_true : KeepsFrom cb (fun _ => True) size b o :=
  fun _ _ _ _ _ _ _ _ => trivial

/-- Where no name with `p` is reached, a search does not change its data. -/
theorem NoneFrom.keepsFrom {p : List UInt8 → Prop} [DecidablePred p] {found : ℕ → σ}
    (h : NoneFrom p size b o) : KeepsFrom (some (searchCallback p found)) (· = data) size b o := by
  intro f hf q hq hlt hused data' hdata
  obtain rfl := Option.some_inj.1 hf
  rw [searchCallback, if_neg (h q hq hlt hused)]
  exact hdata

/-- A block whose entries are as they must be is listed, up to an entry that is not used or to its
end. -/
theorem lsBlock_returns {I : σ → Prop} (hb : base + size < 2 ^ 32)
    (hsafe : SafeFrom base size b o) (hn : size - o < n) (hI : KeepsFrom cb I size b o)
    (hdata : I data) : ∃ scan, lsBlock base size cb b n (base + o) data = some scan ∧
      I scan.data ∧
      (scan.result = some (.returned true) ∨ scan.result = none ∧ ¬ UnusedFrom size b o) := by
  induction n generalizing o data with
  | zero => omega
  | succ n ih =>
    rcases Nat.lt_or_ge o size with ho | ho
    · have hok := hsafe.ok ho
      have ho₄ : o + 4 ≤ size := hok.inode
      by_cases hused : (direntAt b o).inode = 0
      · exact ⟨_, lsBlock_unused hb ho₄ hused, hdata, .inl rfl⟩
      · obtain ⟨hpos, hnext⟩ := hok.recLen hused
        have hlen := (hok.name hused).1
        change base + o + _ < _ at hnext
        change o + 7 ≤ size at hlen
        have hrest : ∀ data, I data → ∃ scan,
            lsBlock base size cb b n (base + (o + (direntAt b o).recLen)) data = some scan ∧
              I scan.data ∧ (scan.result = some (.returned true) ∨
                scan.result = none ∧ ¬ UnusedFrom size b o) := fun data hdata =>
          (ih (hsafe.next ho hused) (by omega) (hI.next ho hused) hdata).imp fun scan h =>
            ⟨h.1, h.2.1, h.2.2.imp_right fun h => ⟨h.1, mt (·.next hused) h.2⟩⟩
        cases cb with
        | none =>
          rw [lsBlock_skip hb (by omega) hused hnext]
          exact hrest data hdata
        | some f =>
          rw [lsBlock_call hb hused (hok.name hused), u32_of_lt hnext, Nat.add_assoc]
          have hcalled := hI f rfl o (.refl o) ho hused data hdata
          obtain ⟨scan, hscan, hdata', hresult⟩ := hrest _ hcalled
          simp only
          split_ifs
          · exact ⟨_, congrArg (Option.map _) hscan, hdata', hresult⟩
          · exact ⟨_, rfl, hcalled, .inl rfl⟩
    · exact ⟨_, lsBlock_past hb ho, hdata, .inr ⟨rfl, not_unusedFrom_past ho⟩⟩

/-- The callback that does nothing. -/
def continueCallback : LsCallback Unit := fun _ _ _ => (true, ())

/-- An entry behind the last address would be in front of the buffer. -/
theorem next_lt_of_lsBlock (hb : base + size < 2 ^ 32) (hsize : size ≤ 2 ^ 16) (ho : o < size)
    (h : lsBlock base size cb b n (u32 (base + o + (direntAt b o).recLen)) data = some scan)
    (hin : scan.result ≠ some .outside) : base + o + (direntAt b o).recLen < 2 ^ 32 := by
  by_contra hwrap
  have hrec := recLen_lt b o
  have hbefore : u32 (base + o + (direntAt b o).recLen) < base := by
    unfold u32
    omega
  cases n with
  | zero => simp [lsBlock] at h
  | succ n =>
    rw [lsBlock_before hb hbefore, Option.some_inj] at h
    exact hin (h ▸ rfl)

theorem le_of_lsBlock (hb : base + size < 2 ^ 32) (ho : o < size)
    (h : lsBlock base size cb b (n + 1) (base + o) data = some scan)
    (hin : scan.result ≠ some .outside) : o + 4 ≤ size := by
  by_contra hcut
  rw [lsBlock_cut hb ho (Nat.not_le.1 hcut), Option.some_inj] at h
  exact hin (h ▸ rfl)

theorem nameIn_of_lsBlock (hb : base + size < 2 ^ 32) (ho : o + 4 ≤ size)
    (hused : (direntAt b o).inode ≠ 0)
    (h : lsBlock base size (some f) b (n + 1) (base + o) data = some scan)
    (hin : scan.result ≠ some .outside) : NameIn size (direntAt b o) := by
  by_contra hname
  rw [lsBlock_outside hb ho hused hname, Option.some_inj] at h
  exact hin (h ▸ rfl)

/-- Only a block whose entries are as they must be is searched in vain with nothing read outside
of it. -/
theorem safe_of_lsBlock {p : List UInt8 → Prop} [DecidablePred p] {found : ℕ → σ}
    (hfound : ∀ inode ≠ 0, ∀ entry, p entry → found inode ≠ data) (hb : base + size < 2 ^ 32)
    (hsize : size ≤ 2 ^ 16)
    (h : lsBlock base size (some (searchCallback p found)) b n (base + o) data = some scan)
    (hin : scan.result ≠ some .outside) (hdata : scan.result.isSome → scan.data = data) :
    scan.data = data ∧ SafeFrom base size b o ∧ NoneFrom p size b o ∧
      (¬ UnusedFrom size b o → scan.result = none) := by
  induction n generalizing o scan with
  | zero => simp [lsBlock] at h
  | succ n ih =>
    rcases Nat.lt_or_ge o size with ho | ho
    · have ho₄ := le_of_lsBlock hb ho h hin
      by_cases hused : (direntAt b o).inode = 0
      · rw [lsBlock_unused hb ho₄ hused, Option.some_inj] at h
        exact ⟨h ▸ rfl, safeFrom_unused ho₄ hused, noneFrom_unused hused,
          fun hno => absurd ⟨o, .refl o, ho, hused⟩ hno⟩
      · have hname := nameIn_of_lsBlock hb ho₄ hused h hin
        rw [lsBlock_call hb hused hname] at h
        by_cases hp : p (direntAt b o).name
        · simp only [searchCallback, if_pos hp, Bool.false_eq_true, if_false,
            Option.some_inj] at h
          subst h
          exact absurd (hdata rfl) (hfound _ hused _ hp)
        · simp only [searchCallback, if_neg hp, if_true] at h
          obtain ⟨rest, hrest, rfl⟩ := Option.map_eq_some_iff.1 h
          have hnext := next_lt_of_lsBlock hb hsize ho hrest hin
          rw [u32_of_lt hnext, Nat.add_assoc] at hrest
          obtain ⟨hsame, hsafe, hnone, hend⟩ := ih hrest hin hdata
          -- were the length zero, the rest would be shorter than itself
          have hpos : 0 < (direntAt b o).recLen := by
            by_contra hzero
            rw [Nat.eq_zero_of_not_pos hzero, Nat.add_zero] at hsafe
            exact hzero ((hsafe.ok ho).recLen hused).1
          exact ⟨hsame, safeFrom_used ⟨ho₄, fun _ => ⟨hpos, hnext⟩, fun _ => hname⟩ hsafe,
            noneFrom_used hp hnone, fun hno => hend (mt (·.of_next ho hused) hno)⟩
    · rw [lsBlock_past hb ho, Option.some_inj] at h
      exact ⟨h ▸ rfl, safeFrom_past ho, noneFrom_past ho, fun _ => h ▸ rfl⟩

/-! ### The loop over the blocks -/

theorem blockSize_le (hs : sb.blockSizeShift ≤ 6) : blockSize sb ≤ 2 ^ 16 := by
  obtain ⟨k, hk, -, h128⟩ := exists_blockSize hs
  omega

theorem readInodeBlock_of_lt (hi : i < 12) :
    readInodeBlock sb disk dir i = some (readBlock sb disk (dir.blocks i)) := by
  rw [readInodeBlock, computeAbsoluteBlock, if_neg (Nat.not_le.2 hi)]
  rfl

theorem readInodeBlock_of_ge (hi : 12 ≤ i) : readInodeBlock sb disk dir i = none := by
  rw [readInodeBlock, computeAbsoluteBlock, if_pos hi]
  rfl

theorem lsLoop_of_ge (hi : 12 ≤ i) : lsLoop sb disk dir base cb fuel (n + 1) i data =
    some ⟨[], [], .panicked, data⟩ := by
  rw [lsLoop, readInodeBlock_of_ge hi]

/-- A block that has been listed to its end. -/
theorem lsLoop_next (hi : i < 12) (hscan : lsBlock base (blockSize sb) cb
      (readBlock sb disk (dir.blocks i)) fuel base data = some scan) (hend : scan.result = none) :
    lsLoop sb disk dir base cb fuel (n + 1) i data =
      (lsLoop sb disk dir base cb fuel n (i + 1) scan.data).map
        (·.after [dir.blocks i] scan.calls) := by
  rw [lsLoop, readInodeBlock_of_lt hi]
  simp only
  rw [hscan]
  simp only [Option.bind_eq_bind, Option.bind_some, hend]
  exact Option.map_eq_bind.symm

/-- A block in which the listing ends. -/
theorem lsLoop_stop {result : LsEnd} (hi : i < 12) (hscan : lsBlock base (blockSize sb) cb
      (readBlock sb disk (dir.blocks i)) fuel base data = some scan)
    (hend : scan.result = some result) : lsLoop sb disk dir base cb fuel (n + 1) i data =
      some ⟨[dir.blocks i], scan.calls, result, scan.data⟩ := by
  rw [lsLoop, readInodeBlock_of_lt hi]
  simp only
  rw [hscan]
  simp only [Option.bind_eq_bind, Option.bind_some, hend]
  rfl

/-- If the listing ends, so does that of its first block. -/
theorem exists_scan_of_lsLoop (hi : i < 12)
    (h : lsLoop sb disk dir base cb fuel (n + 1) i data = some run) :
    ∃ scan, lsBlock base (blockSize sb) cb (readBlock sb disk (dir.blocks i)) fuel base data =
      some scan := by
  rw [lsLoop, readInodeBlock_of_lt hi] at h
  obtain ⟨scan, hscan, -⟩ := Option.bind_eq_some_iff.1 h
  exact ⟨scan, hscan⟩

/-- If the listing returns, its first block is a direct one, and nothing was read outside of it. -/
theorem inside_of_lsLoop {result : Bool}
    (h : lsLoop sb disk dir base cb fuel (n + 1) i data = some run)
    (hresult : run.result = .returned result) : i < 12 ∧ ∃ scan, lsBlock base (blockSize sb) cb
      (readBlock sb disk (dir.blocks i)) fuel base data = some scan ∧
        scan.result ≠ some .outside := by
  have hi : i < 12 := by
    by_contra hge
    rw [lsLoop_of_ge (Nat.not_lt.1 hge), Option.some_inj] at h
    cases h
    cases hresult
  obtain ⟨scan, hscan⟩ := exists_scan_of_lsLoop hi h
  refine ⟨hi, scan, hscan, fun hout => ?_⟩
  rw [lsLoop_stop hi hscan hout, Option.some_inj] at h
  cases h
  cases hresult

/-- The next `n` blocks, if they are as they must be. -/
theorem lsLoop_returns {I : σ → Prop} (hb : base + blockSize sb < 2 ^ 32)
    (hsafe : ∀ j, i ≤ j → j < i + n →
      (∀ k, i ≤ k → k < j → ¬ UnusedFrom (blockSize sb) (readBlock sb disk (dir.blocks k)) 0) →
        j < 12 ∧ SafeFrom base (blockSize sb) (readBlock sb disk (dir.blocks j)) 0 ∧
          KeepsFrom cb I (blockSize sb) (readBlock sb disk (dir.blocks j)) 0)
    (hdata : I data) :
    ∃ run, lsLoop sb disk dir base cb (blockSize sb + 1) n i data = some run ∧
      run.result = .returned true ∧ I run.data := by
  induction n generalizing i data with
  | zero => exact ⟨_, rfl, rfl, hdata⟩
  | succ n ih =>
    obtain ⟨hi, hfirst, hI⟩ := hsafe i (Nat.le_refl i) (by omega) fun k h₁ h₂ => by omega
    obtain ⟨scan, hscan, hdata', hend | ⟨hend, hno⟩⟩ := lsBlock_returns hb hfirst
      (by omega : blockSize sb - 0 < blockSize sb + 1) hI hdata
    · exact ⟨_, lsLoop_stop hi hscan hend, rfl, hdata'⟩
    · obtain ⟨run, hrun, hresult⟩ := ih (i := i + 1) (fun j h₁ h₂ hbefore =>
        hsafe j (by omega) (by omega) fun k h₃ h₄ => by
          rcases Nat.eq_or_lt_of_le h₃ with rfl | h₃
          · exact hno
          · exact hbefore k h₃ h₄) hdata'
      rw [lsLoop_next hi hscan hend]
      exact ⟨_, congrArg (Option.map _) hrun, hresult⟩

theorem safe_of_lsLoop {p : List UInt8 → Prop} [DecidablePred p] {found : ℕ → σ} {result : Bool}
    (hfound : ∀ inode ≠ 0, ∀ entry, p entry → found inode ≠ data)
    (hb : base + blockSize sb < 2 ^ 32) (hs : sb.blockSizeShift ≤ 6)
    (h : lsLoop sb disk dir base (some (searchCallback p found)) fuel n i data = some run)
    (hresult : run.result = .returned result) (hdata : run.data = data) {j : ℕ} (hi : i ≤ j)
    (hj : j < i + n) (hbefore : ∀ k, i ≤ k → k < j →
      ¬ UnusedFrom (blockSize sb) (readBlock sb disk (dir.blocks k)) 0) :
    j < 12 ∧ SafeFrom base (blockSize sb) (readBlock sb disk (dir.blocks j)) 0 ∧
      NoneFrom p (blockSize sb) (readBlock sb disk (dir.blocks j)) 0 := by
  induction n generalizing i run with
  | zero => omega
  | succ n ih =>
    obtain ⟨hi₁₂, scan, hscan, hin⟩ := inside_of_lsLoop h hresult
    have hscanData : scan.result.isSome → scan.data = data := by
      intro hsome
      obtain ⟨result', hend⟩ := Option.isSome_iff_exists.1 hsome
      rw [lsLoop_stop hi₁₂ hscan hend, Option.some_inj] at h
      rw [← hdata, ← h]
    obtain ⟨hsame, hsafe, hnone, hend⟩ :=
      safe_of_lsBlock hfound hb (blockSize_le hs) (o := 0) hscan hin hscanData
    rcases Nat.eq_or_lt_of_le hi with rfl | hlt
    · exact ⟨hi₁₂, hsafe, hnone⟩
    · rw [lsLoop_next hi₁₂ hscan (hend (hbefore i (Nat.le_refl i) hlt)), hsame] at h
      obtain ⟨rest, hrest, rfl⟩ := Option.map_eq_some_iff.1 h
      exact ih hrest hresult hdata hlt (by omega) fun k h₁ h₂ => hbefore k (by omega) h₂

/-! ### Any content -/

theorem Robust.safe (hs : sb.blockSizeShift ≤ 6) (hb : base + blockSize sb < 2 ^ 32)
    (h : Robust sb disk dir base) : SafeContent sb disk dir base := by
  intro hdir i hi hbefore
  obtain ⟨run, hlists, result, hresult⟩ :=
    h Unit (some (searchCallback (fun _ => False) fun _ => ())) ()
  obtain ⟨fuel, hrun⟩ := (lists_iff hdir).1 hlists
  obtain ⟨hi₁₂, hsafe, -⟩ := safe_of_lsLoop (fun _ _ _ hfalse => hfalse.elim) hb hs hrun hresult
    rfl (Nat.zero_le i) (by omega) fun k _ hk => hbefore k hk
  exact ⟨hi₁₂, hsafe⟩

theorem SafeContent.lsLoop_returns (h : SafeContent sb disk dir base)
    (hb : base + blockSize sb < 2 ^ 32) (hdir : dir.IsDir) (cb : Option (LsCallback σ)) (data : σ) :
    ∃ run, lsLoop sb disk dir base cb (blockSize sb + 1) dir.numBlocks 0 data = some run ∧
      run.result = .returned true := by
  have hsafe : ∀ j, 0 ≤ j → j < 0 + dir.numBlocks →
      (∀ k, 0 ≤ k → k < j → ¬ UnusedFrom (blockSize sb) (readBlock sb disk (dir.blocks k)) 0) →
        j < 12 ∧ SafeFrom base (blockSize sb) (readBlock sb disk (dir.blocks j)) 0 ∧
          KeepsFrom cb (fun _ => True) (blockSize sb) (readBlock sb disk (dir.blocks j)) 0 := by
    intro j _ hj hbefore
    obtain ⟨hj₁₂, hfirst⟩ := h hdir j (by omega) fun k hk => hbefore k (Nat.zero_le k) hk
    exact ⟨hj₁₂, hfirst, keepsFrom_true⟩
  obtain ⟨run, hrun, hresult, -⟩ := Ext2.lsLoop_returns hb hsafe (I := fun _ => True) trivial
  exact ⟨run, hrun, hresult⟩

theorem SafeContent.robust (hb : base + blockSize sb < 2 ^ 32)
    (h : SafeContent sb disk dir base) : Robust sb disk dir base := by
  intro σ cb data
  by_cases hdir : dir.IsDir
  · obtain ⟨run, hrun, hresult⟩ := h.lsLoop_returns hb hdir cb data
    exact ⟨run, (lists_iff hdir).2 ⟨_, hrun⟩, _, hresult⟩
  · exact ⟨⟨[], [], .returned false, data⟩, ⟨0, if_neg hdir⟩, _, rfl⟩

/-- The listing of any content returns with no byte read outside of the buffer exactly if the
entries that are reached are as they must be. -/
theorem robust_iff (hs : sb.blockSizeShift ≤ 6) (hb : base + blockSize sb < 2 ^ 32) :
    Robust sb disk dir base ↔ SafeContent sb disk dir base :=
  ⟨Robust.safe hs hb, SafeContent.robust hb⟩

/-! ### One callback instead of another -/

section Transfer

variable {τ : Type} {g : LsCallback τ} {data' : τ} {calls calls' : List (List UInt8 × ℕ)}

theorem calledData_append : calledData f data (calls ++ calls') =
    calledData f (calledData f data calls) calls' := List.foldl_append

theorem allContinue_append : AllContinue f data (calls ++ calls') ↔
    AllContinue f data calls ∧ AllContinue f (calledData f data calls) calls' := by
  induction calls generalizing data with
  | nil => exact (and_iff_right trivial).symm
  | cons call calls ih =>
    rw [List.cons_append, AllContinue, AllContinue, ih, and_assoc]
    rfl

theorem allContinue_of_forall (h : ∀ data inode name, (f data inode name).1 = true) (data : σ)
    (calls : List (List UInt8 × ℕ)) : AllContinue f data calls := by
  induction calls generalizing data with
  | nil => trivial
  | cons call calls ih => exact ⟨h _ _ _, ih _⟩

/-- A call is that of the callback, or there is none. -/
theorem lsCall_cases (base size ent : ℕ) (e : Dirent) (f : LsCallback σ) (data : σ) :
    (∃ name, lsCall base size (some f) ent e data = ⟨[], [(name, e.inode)],
      if (f data e.inode name).1 then none else some (.returned true), (f data e.inode name).2⟩ ∧
      ∀ {τ : Type} (g : LsCallback τ) (data' : τ), lsCall base size (some g) ent e data' =
        ⟨[], [(name, e.inode)], if (g data' e.inode name).1 then none else some (.returned true),
          (g data' e.inode name).2⟩) ∨
      lsCall base size (some f) ent e data = ⟨[], [], some .outside, data⟩ ∧
        ∀ {τ : Type} (g : LsCallback τ) (data' : τ), lsCall base size (some g) ent e data' =
          ⟨[], [], some .outside, data'⟩ := by
  by_cases hin : InBuffer base size (ent + 6) 1 ∧
      InBuffer base size (ent + 8) (min e.name.length 255)
  · exact .inl ⟨e.name.take (min e.name.length 255), if_pos hin, fun g data' => if_pos hin⟩
  · exact .inr ⟨if_neg hin, fun g data' => if_neg hin⟩

/-- A callback that continues at all calls of a listing can take the place of its callback. -/
theorem lsBlock_transfer (h : lsBlock base size (some f) b n ent data = some scan)
    (hf : AllContinue f data scan.calls) (hg : AllContinue g data' scan.calls) :
    scan.data = calledData f data scan.calls ∧ lsBlock base size (some g) b n ent data' =
      some ⟨scan.read, scan.calls, scan.result, calledData g data' scan.calls⟩ := by
  induction n generalizing ent data data' scan with
  | zero => cases h
  | succ n ih =>
    simp only [lsBlock] at h ⊢
    by_cases hent : ent < u32 (base + size)
    · rw [if_pos hent] at h ⊢
      by_cases hin : InBuffer base size ent 4
      · rw [if_neg (not_not.2 hin)] at h ⊢
        by_cases hno : (direntAt b (ent - base)).inode = 0
        · rw [if_pos hno] at h ⊢
          cases h
          exact ⟨rfl, rfl⟩
        · rw [if_neg hno] at h ⊢
          rcases lsCall_cases base size ent (direntAt b (ent - base)) f data with
            ⟨name, hcall, hcall'⟩ | ⟨hcall, hcall'⟩
          · rw [hcall] at h
            rw [hcall']
            cases hcont : (f data (direntAt b (ent - base)).inode name).1 with
            | false =>
              simp only [hcont, Bool.false_eq_true, if_false, Option.isSome_some, if_true] at h
              cases h
              exact absurd (hcont.symm.trans hf.1) Bool.false_ne_true
            | true =>
              simp only [hcont, if_true, Option.isSome_none, Bool.false_eq_true, if_false] at h
              by_cases hlen : InBuffer base size (ent + 4) 2
              · rw [if_neg (not_not.2 hlen)] at h
                obtain ⟨rest, hrest, rfl⟩ := Option.map_eq_some_iff.1 h
                obtain ⟨-, hfrest⟩ : _ ∧ AllContinue f _ rest.calls := hf
                obtain ⟨hgcont, hgrest⟩ : (g _ _ _).1 = true ∧ AllContinue g _ rest.calls := hg
                obtain ⟨hdata, hscan⟩ := ih hrest hfrest hgrest
                simp only [hgcont, if_true, Option.isSome_none, Bool.false_eq_true, if_false]
                rw [if_neg (not_not.2 hlen), hscan]
                exact ⟨hdata, rfl⟩
              · rw [if_pos hlen] at h
                cases h
                simp only [hg.1, if_true, Option.isSome_none, Bool.false_eq_true, if_false]
                exact ⟨rfl, if_pos hlen⟩
          · rw [hcall] at h
            rw [hcall']
            cases h
            exact ⟨rfl, rfl⟩
      · rw [if_pos hin] at h ⊢
        cases h
        exact ⟨rfl, rfl⟩
    · rw [if_neg hent] at h ⊢
      cases h
      exact ⟨rfl, rfl⟩

theorem lsLoop_transfer (h : lsLoop sb disk dir base (some f) fuel n i data = some run)
    (hf : AllContinue f data run.calls) (hg : AllContinue g data' run.calls) :
    run.data = calledData f data run.calls ∧ lsLoop sb disk dir base (some g) fuel n i data' =
      some ⟨run.read, run.calls, run.result, calledData g data' run.calls⟩ := by
  induction n generalizing i data data' run with
  | zero =>
    cases h
    exact ⟨rfl, rfl⟩
  | succ n ih =>
    rcases Nat.lt_or_ge i 12 with hi | hi
    · obtain ⟨scan, hscan⟩ := exists_scan_of_lsLoop hi h
      cases hend : scan.result with
      | some result =>
        rw [lsLoop_stop hi hscan hend] at h
        cases h
        obtain ⟨hdata, hscan'⟩ := lsBlock_transfer hscan hf hg
        exact ⟨hdata, lsLoop_stop hi hscan' hend⟩
      | none =>
        rw [lsLoop_next hi hscan hend] at h
        obtain ⟨rest, hrest, rfl⟩ := Option.map_eq_some_iff.1 h
        obtain ⟨hfscan, hfrest⟩ := allContinue_append.1 hf
        obtain ⟨hgscan, hgrest⟩ := allContinue_append.1 hg
        obtain ⟨hdata, hscan'⟩ := lsBlock_transfer hscan hfscan hgscan
        rw [← hdata] at hfrest
        obtain ⟨hdata', hrest'⟩ := ih hrest hfrest hgrest
        rw [lsLoop_next hi hscan' hend, hrest']
        refine ⟨?_, ?_⟩
        · rw [LsRun.after, hdata', hdata]
          exact calledData_append.symm
        · rw [Option.map_some, LsRun.after, LsRun.after, calledData_append]
    · rw [lsLoop_of_ge hi] at h ⊢
      cases h
      exact ⟨rfl, rfl⟩

theorem dirLs_transfer (h : dirLs sb disk dir base (some f) fuel data = some run)
    (hf : AllContinue f data run.calls) (hg : AllContinue g data' run.calls) :
    run.data = calledData f data run.calls ∧ dirLs sb disk dir base (some g) fuel data' =
      some ⟨run.read, run.calls, run.result, calledData g data' run.calls⟩ := by
  unfold dirLs at h ⊢
  split_ifs at h ⊢
  · exact lsLoop_transfer h hf hg
  · cases h
    exact ⟨rfl, rfl⟩

/-- Callbacks that always continue get the same names. -/
theorem dirLs_of_continues (hf : ∀ data inode name, (f data inode name).1 = true)
    (hg : ∀ data inode name, (g data inode name).1 = true) (data : σ) (data' : τ) :
    dirLs sb disk dir base (some g) fuel data' =
      (dirLs sb disk dir base (some f) fuel data).map fun run =>
        ⟨run.read, run.calls, run.result, calledData g data' run.calls⟩ := by
  cases hls : dirLs sb disk dir base (some f) fuel data with
  | some run =>
    exact (dirLs_transfer hls (allContinue_of_forall hf _ _) (allContinue_of_forall hg _ _)).2
  | none =>
    cases hls' : dirLs sb disk dir base (some g) fuel data' with
    | none => rfl
    | some run =>
      have htransfer : _ ∧ dirLs sb disk dir base (some f) fuel data = _ :=
        dirLs_transfer hls' (allContinue_of_forall hg _ _) (allContinue_of_forall hf _ _)
      rw [htransfer.2] at hls
      cases hls

end Transfer

theorem lsCall_calls (ent : ℕ) (he : e.inode ≠ 0) (data : σ) :
    ∀ call ∈ (lsCall base size cb ent e data).calls, call.1.length ≤ 255 ∧ call.2 ≠ 0 := by
  intro call hcall
  cases cb with
  | none => cases hcall
  | some f =>
    by_cases hin : InBuffer base size (ent + 6) 1 ∧
        InBuffer base size (ent + 8) (min e.name.length 255)
    · rw [lsCall, if_pos hin] at hcall
      obtain rfl := List.mem_singleton.1 hcall
      refine ⟨?_, he⟩
      rw [List.length_take]
      omega
    · rw [lsCall, if_neg hin] at hcall
      cases hcall

/-- The callback gets at most 255 bytes of a name, and an inode. -/
theorem lsBlock_calls (h : lsBlock base size cb b n ent data = some scan) :
    ∀ call ∈ scan.calls, call.1.length ≤ 255 ∧ call.2 ≠ 0 := by
  induction n generalizing ent data scan with
  | zero => cases h
  | succ n ih =>
    simp only [lsBlock] at h
    obtain ⟨e, he⟩ : ∃ e, direntAt b (ent - base) = e := ⟨_, rfl⟩
    obtain ⟨called, hcalled⟩ : ∃ called, lsCall base size cb ent e data = called := ⟨_, rfl⟩
    have hcall : e.inode ≠ 0 → _ := fun hused => hcalled ▸ lsCall_calls ent hused data
    rw [he, hcalled] at h
    split_ifs at h
    · cases h
      exact fun call hmem => absurd hmem List.not_mem_nil
    · cases h
      exact hcall ‹_›
    · obtain ⟨rest, hrest, rfl⟩ := Option.map_eq_some_iff.1 h
      exact List.forall_mem_append.2 ⟨hcall ‹_›, ih hrest⟩
    · cases h
      exact hcall ‹_›
    · cases h
      exact fun call hmem => absurd hmem List.not_mem_nil
    · cases h
      exact fun call hmem => absurd hmem List.not_mem_nil

theorem lsLoop_calls (h : lsLoop sb disk dir base cb fuel n i data = some run) :
    ∀ call ∈ run.calls, call.1.length ≤ 255 ∧ call.2 ≠ 0 := by
  induction n generalizing i data run with
  | zero =>
    cases h
    intro call hmem
    cases hmem
  | succ n ih =>
    rcases Nat.lt_or_ge i 12 with hi | hi
    · obtain ⟨scan, hscan⟩ := exists_scan_of_lsLoop hi h
      cases hend : scan.result with
      | some result =>
        rw [lsLoop_stop hi hscan hend] at h
        cases h
        exact lsBlock_calls hscan
      | none =>
        rw [lsLoop_next hi hscan hend] at h
        obtain ⟨rest, hrest, rfl⟩ := Option.map_eq_some_iff.1 h
        exact List.forall_mem_append.2 ⟨lsBlock_calls hscan, ih hrest⟩
    · rw [lsLoop_of_ge hi] at h
      cases h
      intro call hmem
      cases hmem

theorem dirLs_calls (h : dirLs sb disk dir base cb fuel data = some run) :
    ∀ call ∈ run.calls, call.1.length ≤ 255 ∧ call.2 ≠ 0 := by
  unfold dirLs at h
  split_ifs at h
  · exact lsLoop_calls h
  · cases h
    intro call hmem
    cases hmem

/-! ### Looking for a name -/

/-- The search of a block is its listing with `ext2_dir_contains_cb`. -/
theorem containsInBlock_of_lsBlock {scan : LsRun (Option LsEnd) Bool}
    (hb : base + size < 2 ^ 32) (hsize : size ≤ 2 ^ 16)
    (h : lsBlock base size (some (containsCallback name)) b n (base + o) false = some scan)
    (hin : scan.result ≠ some .outside) :
    containsInBlock size name b n o = some (scan.result.map fun _ => scan.data) ∧
      (scan.result = none → scan.data = false) := by
  induction n generalizing o scan with
  | zero => simp [lsBlock] at h
  | succ n ih =>
    simp only [containsInBlock]
    rcases Nat.lt_or_ge o size with ho | ho
    · have ho₄ := le_of_lsBlock hb ho h hin
      rw [if_pos ho]
      by_cases hused : (direntAt b o).inode = 0
      · rw [lsBlock_unused hb ho₄ hused, Option.some_inj] at h
        rw [if_pos hused, ← h]
        exact ⟨rfl, fun h₀ => by cases h₀⟩
      · have hname := nameIn_of_lsBlock hb ho₄ hused h hin
        rw [lsBlock_call hb hused hname] at h
        rw [if_neg hused]
        by_cases hfound : strncmp (min (direntAt b o).name.length name.length)
            (direntAt b o).name name
        · simp only [containsCallback, if_pos hfound] at h
          rw [if_neg Bool.false_ne_true, Option.some_inj] at h
          rw [if_pos hfound, ← h]
          exact ⟨rfl, fun h₀ => by cases h₀⟩
        · simp only [containsCallback, if_neg hfound, if_true] at h
          obtain ⟨rest, hrest, rfl⟩ := Option.map_eq_some_iff.1 h
          have hnext := next_lt_of_lsBlock hb hsize ho hrest hin
          rw [u32_of_lt hnext, Nat.add_assoc] at hrest
          rw [if_neg hfound]
          obtain ⟨hcontains, hdata⟩ := ih hrest hin
          exact ⟨hcontains, hdata⟩
    · rw [lsBlock_past hb ho, Option.some_inj] at h
      rw [if_neg (Nat.not_lt.2 ho), ← h]
      exact ⟨rfl, fun _ => rfl⟩

theorem containsLoop_of_lsLoop {run : LsRun LsEnd Bool} (hs : sb.blockSizeShift ≤ 6)
    (hb : base + blockSize sb < 2 ^ 32)
    (h : lsLoop sb disk dir base (some (containsCallback name)) (blockSize sb + 1) n i false =
      some run) (hresult : run.result = .returned true) :
    containsLoop sb disk dir name n i = some run.data := by
  induction n generalizing i run with
  | zero =>
    obtain rfl := Option.some_inj.1 h
    rfl
  | succ n ih =>
    obtain ⟨hi, scan, hscan, hin⟩ := inside_of_lsLoop h hresult
    obtain ⟨hblock, hdata⟩ := containsInBlock_of_lsBlock hb (blockSize_le hs) (o := 0) hscan hin
    rw [containsLoop, readInodeBlock_of_lt hi]
    simp only [Option.bind_eq_bind, Option.bind_some]
    rw [hblock]
    cases hend : scan.result with
    | some result =>
      rw [lsLoop_stop hi hscan hend, Option.some_inj] at h
      rw [← h]
      rfl
    | none =>
      rw [lsLoop_next hi hscan hend, hdata hend] at h
      obtain ⟨rest, hrest, rfl⟩ := Option.map_eq_some_iff.1 h
      exact (ih hrest hresult :)

/-- If the content can be listed, a name is looked for by a listing with
`ext2_dir_contains_cb`. -/
theorem SafeContent.lists_contains (h : SafeContent sb disk dir base) (hs : sb.blockSizeShift ≤ 6)
    (hb : base + blockSize sb < 2 ^ 32) (name : List UInt8) :
    ∃ run, Lists sb disk dir base (some (containsCallback name)) false run ∧
      dirContains sb disk dir name = some run.data := by
  by_cases hdir : dir.IsDir
  · obtain ⟨run, hrun, hresult⟩ := h.lsLoop_returns hb hdir (some (containsCallback name)) false
    refine ⟨run, (lists_iff hdir).2 ⟨_, hrun⟩, ?_⟩
    rw [dirContains, if_pos hdir]
    exact containsLoop_of_lsLoop hs hb hrun hresult
  · exact ⟨_, ⟨0, if_neg hdir⟩, if_neg hdir⟩

end List

/-! ### The sample -/

/-- A listing with the buffer near the end of the address space. -/
theorem robust_sample : Robust sampleSuperblock sampleDisk (sampleDir sampleDisk) 0xffffe800 := by
  refine (robust_iff (by decide) (by decide)).2 fun _ i hi _ => ?_
  have hnum : (sampleDir sampleDisk).numBlocks = 2 := by decide
  rw [hnum] at hi
  refine ⟨by omega, ?_⟩
  cases i with
  | zero =>
    refine safeFrom_used ⟨by decide, ?_, ?_⟩ (safeFrom_used ⟨?_, ?_, ?_⟩ (safeFrom_past ?_))
    all_goals decide
  | succ i =>
    -- the block 0, which is read for the second sector
    obtain rfl : i = 0 := by omega
    exact safeFrom_unused (by decide) (by decide)

/-- The sample, with zero as the length of the first entry of the directory. -/
def loopDisk : Mem := diskOf ((7172, [0, 0]) :: samplePlaces)

theorem not_robust : ¬ ∀ sb disk dir base, sb.blockSizeShift ≤ 6 →
    base + blockSize sb < 2 ^ 32 → Robust sb disk dir base := by
  intro h
  have hsafe := (h sampleSuperblock loopDisk (sampleDir loopDisk) 0 (by decide) (by decide)).safe
    (by decide) (by decide)
  obtain ⟨-, hblock⟩ := hsafe (by decide) 0 (by decide) fun j hj =>
    absurd hj (Nat.not_lt_zero j)
  exact absurd ((hblock.ok (by decide)).recLen (by decide)).1 (by decide)

end Ext2

end Kernel

end Bluejay
