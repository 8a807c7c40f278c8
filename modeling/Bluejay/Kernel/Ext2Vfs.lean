import Bluejay.Kernel.Ext2Exact
import Bluejay.Kernel.Initrd
import Bluejay.Kernel.Strings
import Bluejay.Kernel.Vfs
import Bluejay.Lib.Links
import Mathlib.Data.List.GetD
import Mathlib.Logic.Equiv.List

/-!
# Directories in memory

* `inode2vfs` : `ext2_inode2vfs`, which reads a whole tree of directories.
* `dirReaddir` : `ext2_dir_readdir`.
* `MirrorsDisk` : the list of a directory is that of the disk.
* `mirrorsDisk_iff` : when this is so.
-/

namespace Bluejay

namespace Kernel

namespace Ext2

/-- `malloc`, for one kind of structure.  The calls of `ext2_inode2vfs` have the places in the tree
of directories as names, which begin with the number of the entry. -/
structure Allocation where
  address : List ℕ → ℕ
  injective : Function.Injective address
  ne_zero : ∀ p, address p ≠ 0

/-- The disk, the buffers on the stack, and what `malloc` returns. -/
structure VfsEnv where
  sb : Superblock
  disk : Mem
  stack : List ℕ → ℕ
  dirents : Allocation
  datas : Allocation
  nodes : Allocation

/-- `EXT2_F_TYPE`. -/
def Inode.type (inode : Inode) : ℕ := inode.mode &&& 0xf000

/-- The field `uid`. -/
def Inode.uid (inode : Inode) : ℕ := Mem.loadLE inode 2 2

/-- The field `gid`. -/
def Inode.gid (inode : Inode) : ℕ := Mem.loadLE inode 24 2

/-! ### Building the list -/

/-- `struct ext2_fs_dirent_to_fs_data`, with the memory and the number of calls before. -/
structure BuildState where
  heap : VfsHeap
  last : ℕ
  calls : ℕ

/-- The names that `ext2_dirent_to_fs_node_cb` takes for `.` and `..`. -/
def Skipped (name : List UInt8) : Prop :=
  Kernel.strncmp (bytesOf [46]) (bytesOf name) name.length = 0 ∨
    Kernel.strncmp (bytesOf [46, 46]) (bytesOf name) name.length = 0

instance : DecidablePred Skipped := fun _ => inferInstanceAs (Decidable (_ ∨ _))

section Build

variable (E : VfsEnv) (build : List ℕ → ℕ → List UInt8 → VfsHeap → Option (ℕ × VfsHeap))

/-- `ext2_dirent_to_fs_node_cb`, in the directory at the place `path`; `build` is
`ext2_inode2vfs`. -/
def direntToFsNode (path : List ℕ) (s : BuildState) (inode : ℕ) (name : List UInt8) :
    Option BuildState :=
  let dent := E.dirents.address (s.calls :: path)
  if Skipped name then some { s with calls := s.calls + 1 }
  else do
    let (node, heap) ← build (s.calls :: path) inode name s.heap
    let old := heap.dirent dent
    -- the field `next` is not set
    let heap := heap.setDirent dent { old with
      node := node
      nameLen := name.length
      name := assign old.name 0 (min name.length 256) (bytesOf name)
      inode := inode }
    if s.last ≠ 0 then
      let last := heap.dirent s.last
      return ⟨heap.setDirent s.last { last with next := dent }, dent, s.calls + 1⟩
    else
      let d := E.datas.address path
      return ⟨heap.setData d { heap.data d with dirent := dent }, dent, s.calls + 1⟩

/-- The same as a callback.  If a call does not return, neither does the listing; its data stay
`none`. -/
def direntCallback (path : List ℕ) : LsCallback (Option BuildState) := fun s inode name =>
  (true, s.bind fun s => direntToFsNode E build path s inode name)

end Build

/-- The data and the node that `ext2_inode2vfs` makes, before it looks at the type. -/
def newNode (E : VfsEnv) (path : List ℕ) (inode : ℕ) (name : List UInt8) (file : Inode)
    (heap : VfsHeap) : VfsHeap :=
  let d := E.datas.address path
  let n := E.nodes.address path
  let heap := heap.setData d ⟨0, 0, 0⟩
  let old := heap.node n
  heap.setNode n { old with
    nameLen := min name.length fsMaxNameLen
    name := assign old.name 0 (min name.length fsMaxNameLen) (bytesOf name)
    inode := inode
    driRes := d
    mask := file.mode &&& 0xfff
    gid := file.gid
    uid := file.uid
    size := file.fileSize }

/-- The node with its flags and the functions of its driver. -/
def setKind (heap : VfsHeap) (n flags : ℕ) (vtable : Vtable) : VfsHeap :=
  heap.setNode n { heap.node n with flags := flags, vtable := some vtable }

/-- `ext2_inode2vfs`; `none` if it panics, does not end or takes more steps.  It returns the address
of the node, or `NULL`. -/
def inode2vfs (E : VfsEnv) : ℕ → List ℕ → ℕ → List UInt8 → VfsHeap → Option (ℕ × VfsHeap)
  | 0, _, _, _, _ => none
  | fuel + 1, path, inode, name, heap =>
    match findInode E.sb E.disk inode with
    | none => some (0, heap)
    | some file =>
      let n := E.nodes.address path
      let heap := newNode E path inode name file heap
      if file.type = 0x8000 then some (n, setKind heap n fsFile .ext2File)
      else if file.type = 0x4000 then
        match dirLs E.sb E.disk file (E.stack path)
            (some (direntCallback E (inode2vfs E fuel) path)) fuel
            (some ⟨setKind heap n fsDirectory .ext2Dir, 0, 0⟩) with
        | some ⟨_, _, .returned _, some s⟩ => some (n, s.heap)
        | _ => none
      -- `kpanic`
      else none

/-! ### Reading the list -/

/-- The loop of `ext2_dir_readdir`, for the next `n` entries. -/
def readdirLoop (h : VfsHeap) : ℕ → ℕ → ℕ
  | 0, dent => dent
  | n + 1, dent => if dent = 0 then 0 else readdirLoop h n (h.next dent)

/-- `ext2_dir_readdir`, with what is in the entry before; `none` if it returns `false`. -/
def dirReaddir (h : VfsHeap) (node index : ℕ) (dirent : FsDirent) : Option FsDirent :=
  let dent := readdirLoop h index (h.data (h.node node).driRes).dirent
  if dent ≠ 0 then
    let e := h.dirent dent
    some ⟨assign dirent.name 0 (max e.nameLen fsMaxNameLen) e.name, e.nameLen, e.inode⟩
  else none

/-! ### What the list should be -/

/-- The names `.` and `..`. -/
def Dots (name : List UInt8) : Prop := name = [46] ∨ name = [46, 46]

instance : DecidablePred Dots := fun _ => inferInstanceAs (Decidable (_ ∨ _))

/-- The entry has this name and inode. -/
structure EntryOk (call : List UInt8 × ℕ) (e : Ext2FsDirent) : Prop where
  nameLen : e.nameLen = call.1.length
  name : ∀ i < call.1.length, e.name i = bytesOf call.1 i
  inode : e.inode = call.2

/-- The entry that was read has this name and inode. -/
structure DirentOk (call : List UInt8 × ℕ) (e : FsDirent) : Prop where
  nameLen : e.nameLen = call.1.length
  name : ∀ i < call.1.length, e.name i = bytesOf call.1 i
  inode : e.inode = call.2

/-- The list of the directory ends, and has these entries; and so has `ext2_dir_readdir`. -/
structure HasEntries (h : VfsHeap) (node : ℕ) (calls : List (List UInt8 × ℕ)) : Prop where
  list : ∃ ps, (h.data (h.node node).driRes).dirent = ps.headD 0 ∧ 0 ∉ ps ∧ Forward h.next ps 0 ∧
    List.Forall₂ (fun call p => EntryOk call (h.dirent p)) calls ps
  readdir : ∀ i call, calls[i]? = some call → ∀ dirent, ∃ e ∈ dirReaddir h node i dirent,
    DirentOk call e
  past : ∀ i, calls.length ≤ i → ∀ dirent, dirReaddir h node i dirent = none

/-- The listing of the directory `inode` with a callback that always continues. -/
def ListsInode (E : VfsEnv) (path : List ℕ) (inode : ℕ) (run : LsRun LsEnd Unit) : Prop :=
  ∃ dir, findInode E.sb E.disk inode = some dir ∧
    Lists E.sb E.disk dir (E.stack path) (some continueCallback) () run

/-- `ext2_inode2vfs` returns a node of the directory, whose list has the entries that `ext2_dir_ls`
reports, except for `.` and `..`. -/
def MirrorsDisk (E : VfsEnv) (inode : ℕ) (name : List UInt8) (heap : VfsHeap) : Prop :=
  ∃ fuel node heap' run, inode2vfs E fuel [] inode name heap = some (node, heap') ∧
    ListsInode E [] inode run ∧
    HasEntries heap' node (run.calls.filter fun call => ¬ Dots call.1)

/-- This is so whatever was in the memory that `malloc` returns. -/
def AlwaysMirrors (E : VfsEnv) (inode : ℕ) (name : List UInt8) : Prop :=
  ∀ heap, MirrorsDisk E inode name heap

/-- The tree of directories ends, and has only regular files and directories that can be listed. -/
inductive Buildable (E : VfsEnv) : List ℕ → ℕ → Prop
  | missing {path : List ℕ} {inode : ℕ} (hfind : findInode E.sb E.disk inode = none) :
    Buildable E path inode
  | file {path : List ℕ} {inode : ℕ} {file : Inode}
    (hfind : findInode E.sb E.disk inode = some file) (htype : file.type = 0x8000) :
    Buildable E path inode
  | dir {path : List ℕ} {inode : ℕ} {dir : Inode} {run : LsRun LsEnd Unit} {result : Bool}
    (hfind : findInode E.sb E.disk inode = some dir) (htype : dir.type = 0x4000)
    (hls : Lists E.sb E.disk dir (E.stack path) (some continueCallback) () run)
    (hresult : run.result = .returned result)
    (hentries : ∀ k call, run.calls[k]? = some call → ¬ Skipped call.1 →
      Buildable E (k :: path) call.2) : Buildable E path inode

/-- The numbers of the calls for the entries that are put into the list. -/
def kept : List (List UInt8 × ℕ) → ℕ → List ℕ
  | [], _ => []
  | call :: calls, k => if Skipped call.1 then kept calls (k + 1) else k :: kept calls (k + 1)

/-- What lies elsewhere in the tree of directories is as before. -/
structure Frame (E : VfsEnv) (path : List ℕ) (h h' : VfsHeap) : Prop where
  dirent : ∀ q, (∀ k, ¬ k :: path <:+ q) →
    h'.dirent (E.dirents.address q) = h.dirent (E.dirents.address q)
  data : ∀ q, ¬ path <:+ q → h'.data (E.datas.address q) = h.data (E.datas.address q)
  node : ∀ q, ¬ path <:+ q → h'.node (E.nodes.address q) = h.node (E.nodes.address q)

/-- What is built for an entry stays below its place, and its node is the one of that place. -/
structure BuildOk (E : VfsEnv) (path : List ℕ)
    (build : List ℕ → ℕ → List UInt8 → VfsHeap → Option (ℕ × VfsHeap)) : Prop where
  frame : ∀ k inode name h n h', build (k :: path) inode name h = some (n, h') →
    Frame E (k :: path) h h'
  node : ∀ k inode name h n h', build (k :: path) inode name h = some (n, h') → inode ≠ 0 →
    n = E.nodes.address (k :: path)

/-- The addresses of the entries in the list, after these calls. -/
def listed (E : VfsEnv) (path : List ℕ) (calls : List (List UInt8 × ℕ)) : List ℕ :=
  (kept calls 0).map fun k => E.dirents.address (k :: path)

/-- The list after these calls.  The last entry leads to where it did before, in `h`. -/
structure Built (E : VfsEnv) (path : List ℕ) (h : VfsHeap) (calls : List (List UInt8 × ℕ))
    (s : BuildState) : Prop where
  count : s.calls = calls.length
  last : s.last = (listed E path calls).getLastD 0
  head : (s.heap.data (E.datas.address path)).dirent = (listed E path calls).headD 0
  list : Forward s.heap.next (listed E path calls) (h.next ((listed E path calls).getLastD 0))
  entries : List.Forall₂ (fun call p => EntryOk call (s.heap.dirent p))
    (calls.filter fun call => ¬ Skipped call.1) (listed E path calls)
  nodes : ∀ k ∈ kept calls 0,
    (s.heap.dirent (E.dirents.address (k :: path))).node = E.nodes.address (k :: path)
  dirent : ∀ q, (∀ k < calls.length, ¬ k :: path <:+ q) →
    s.heap.dirent (E.dirents.address q) = h.dirent (E.dirents.address q)
  data : ∀ q, q ≠ path → (∀ k < calls.length, ¬ k :: path <:+ q) →
    s.heap.data (E.datas.address q) = h.data (E.datas.address q)
  node : ∀ q, (∀ k < calls.length, ¬ k :: path <:+ q) →
    s.heap.node (E.nodes.address q) = h.node (E.nodes.address q)

/-- One more entry is at the end of the list. -/
structure Appended (E : VfsEnv) (path : List ℕ) (h : VfsHeap) (calls : List (List UInt8 × ℕ))
    (call : List UInt8 × ℕ) (s s' : BuildState) (dent : ℕ) : Prop where
  count : s'.calls = s.calls + 1
  last : s'.last = dent
  head : (s'.heap.data (E.datas.address path)).dirent = (listed E path calls ++ [dent]).headD 0
  before : ∀ p ∈ listed E path calls, s'.heap.dirent p = { s.heap.dirent p with
    next := Function.update s.heap.next ((listed E path calls).getLastD dent) dent p }
  entry : EntryOk call (s'.heap.dirent dent)
  entryNode : (s'.heap.dirent dent).node = E.nodes.address (calls.length :: path)
  next : s'.heap.next dent = h.next dent
  dirent : ∀ q, (∀ k < (calls ++ [call]).length, ¬ k :: path <:+ q) →
    s'.heap.dirent (E.dirents.address q) = h.dirent (E.dirents.address q)
  data : ∀ q, q ≠ path → (∀ k < (calls ++ [call]).length, ¬ k :: path <:+ q) →
    s'.heap.data (E.datas.address q) = h.data (E.datas.address q)
  node : ∀ q, (∀ k < (calls ++ [call]).length, ¬ k :: path <:+ q) →
    s'.heap.node (E.nodes.address q) = h.node (E.nodes.address q)

section Mirror

variable {E : VfsEnv} {path q : List ℕ} {h h' heap : VfsHeap} {s s' : BuildState}
  {build : List ℕ → ℕ → List UInt8 → VfsHeap → Option (ℕ × VfsHeap)}
  {calls calls' : List (List UInt8 × ℕ)} {call : List UInt8 × ℕ} {name : List UInt8}
  {inode node fuel i j k : ℕ} {dir : Inode} {run : LsRun LsEnd Unit} {ps : List ℕ}

/-! ### Places in the tree -/

theorem not_suffix_of_length {p : List ℕ} (h : q.length < p.length) : ¬ p <:+ q := fun hs =>
  absurd hs.length_le (Nat.not_le.2 h)

theorem not_suffix_cons (h : j ≠ k) : ¬ j :: path <:+ k :: path := by
  intro hs
  have heq := hs.eq_of_length rfl
  exact h (List.cons.inj heq).1

theorem suffix_of_cons (h : k :: path <:+ q) : path <:+ q := (List.suffix_cons k path).trans h

theorem kept_cons (call : List UInt8 × ℕ) (calls : List (List UInt8 × ℕ)) (k : ℕ) :
    kept (call :: calls) k =
      if Skipped call.1 then kept calls (k + 1) else k :: kept calls (k + 1) := rfl

theorem kept_append (calls calls' : List (List UInt8 × ℕ)) (k : ℕ) :
    kept (calls ++ calls') k = kept calls k ++ kept calls' (k + calls.length) := by
  induction calls generalizing k with
  | nil => rfl
  | cons call calls ih =>
    rw [List.cons_append, kept_cons, kept_cons, ih, List.length_cons, Nat.add_assoc, Nat.add_comm 1]
    split_ifs <;> rfl

theorem mem_kept (h : i ∈ kept calls k) : k ≤ i ∧ i < k + calls.length := by
  induction calls generalizing k with
  | nil => cases h
  | cons call calls ih =>
    rw [List.length_cons]
    rw [kept_cons] at h
    split_ifs at h with hskip
    · have := ih h
      omega
    · rcases List.mem_cons.1 h with rfl | h
      · omega
      · have := ih h
        omega

theorem kept_nodup (calls : List (List UInt8 × ℕ)) (k : ℕ) : (kept calls k).Nodup := by
  induction calls generalizing k with
  | nil => exact List.nodup_nil
  | cons call calls ih =>
    rw [kept_cons]
    split_ifs
    · exact ih (k + 1)
    · refine List.nodup_cons.2 ⟨fun hk => ?_, ih (k + 1)⟩
      have := (mem_kept hk).1
      omega

theorem length_kept (calls : List (List UInt8 × ℕ)) (k : ℕ) :
    (kept calls k).length = (calls.filter fun call => ¬ Skipped call.1).length := by
  induction calls generalizing k with
  | nil => rfl
  | cons call calls ih =>
    rw [kept_cons, List.filter_cons]
    by_cases hskip : Skipped call.1 <;> simp [hskip, ih]

theorem listed_nodup (E : VfsEnv) (path : List ℕ) (calls : List (List UInt8 × ℕ)) :
    (listed E path calls).Nodup :=
  (kept_nodup calls 0).map fun _ _ heq => (List.cons.inj (E.dirents.injective heq)).1

theorem mem_listed {p : ℕ} (hp : p ∈ listed E path calls) :
    ∃ k < calls.length, p = E.dirents.address (k :: path) := by
  obtain ⟨k, hk, rfl⟩ := List.mem_map.1 hp
  exact ⟨k, by simpa using (mem_kept hk).2, rfl⟩

theorem zero_not_mem_listed : 0 ∉ listed E path calls := by
  intro hmem
  obtain ⟨k, -, hk⟩ := mem_listed hmem
  exact E.dirents.ne_zero _ hk.symm

/-- The address of the next entry is a new one. -/
theorem next_not_mem_listed : E.dirents.address (calls.length :: path) ∉ listed E path calls := by
  intro hmem
  obtain ⟨k, hk, heq⟩ := mem_listed hmem
  exact Nat.ne_of_gt hk (List.cons.inj (E.dirents.injective heq)).1

theorem kept_skip (hskip : Skipped call.1) : kept (calls ++ [call]) 0 = kept calls 0 := by
  rw [kept_append, kept_cons, if_pos hskip]
  exact List.append_nil _

theorem kept_keep (hkeep : ¬ Skipped call.1) :
    kept (calls ++ [call]) 0 = kept calls 0 ++ [calls.length] := by
  rw [kept_append, kept_cons, if_neg hkeep, Nat.zero_add]
  rfl

theorem filter_skip (hskip : Skipped call.1) :
    (calls ++ [call]).filter (fun call => ¬ Skipped call.1) =
      calls.filter fun call => ¬ Skipped call.1 := by
  rw [List.filter_append, List.filter_cons_of_neg (by simpa using hskip), List.filter_nil,
    List.append_nil]

theorem filter_keep (hkeep : ¬ Skipped call.1) :
    (calls ++ [call]).filter (fun call => ¬ Skipped call.1) =
      calls.filter (fun call => ¬ Skipped call.1) ++ [call] := by
  rw [List.filter_append, List.filter_cons_of_pos (by simpa using hkeep), List.filter_nil]

theorem forall_lt_snoc {P : ℕ → Prop} (hP : ∀ k < (calls ++ [call]).length, P k) :
    (∀ k < calls.length, P k) ∧ P calls.length := by
  rw [List.length_append, List.length_singleton] at hP
  exact ⟨fun k hk => hP k (Nat.lt_succ_of_lt hk), hP _ (Nat.lt_succ_self _)⟩

theorem listed_skip (hskip : Skipped call.1) :
    listed E path (calls ++ [call]) = listed E path calls := by
  rw [listed, kept_skip hskip, listed]

theorem listed_keep (hkeep : ¬ Skipped call.1) : listed E path (calls ++ [call]) =
    listed E path calls ++ [E.dirents.address (calls.length :: path)] := by
  rw [listed, kept_keep hkeep, List.map_append, listed]
  rfl

theorem forall₂_imp_mem {α β : Type} {R R' : α → β → Prop} {xs : List α} {ys : List β}
    (h : List.Forall₂ R xs ys) (himp : ∀ x, ∀ y ∈ ys, R x y → R' x y) :
    List.Forall₂ R' xs ys := by
  induction h with
  | nil => exact .nil
  | cons hxy _ ih =>
    exact .cons (himp _ _ List.mem_cons_self hxy)
      (ih fun x y hy => himp x y (List.mem_cons_of_mem _ hy))

theorem headD_append_of_ne {α : Type} {xs ys : List α} {d : α} (h : xs ≠ []) :
    (xs ++ ys).headD d = xs.headD d := by
  cases xs with
  | nil => exact absurd rfl h
  | cons x xs => rfl

/-! ### One call -/

theorem Frame.dirent_cons (hframe : Frame E (k :: path) h h') (j : ℕ) :
    h'.dirent (E.dirents.address (j :: path)) = h.dirent (E.dirents.address (j :: path)) :=
  hframe.dirent _ fun _ => not_suffix_of_length (by simp)

theorem direntToFsNode_skip (hskip : Skipped name) :
    direntToFsNode E build path s inode name = some { s with calls := s.calls + 1 } :=
  if_pos hskip

theorem direntToFsNode_keep (hkeep : ¬ Skipped name) (hname : name.length ≤ 255)
    (h : direntToFsNode E build path s inode name = some s') :
    ∃ node heap x, build (s.calls :: path) inode name s.heap = some (node, heap) ∧
      EntryOk (name, inode) x ∧ x.node = node ∧
      x.next = heap.next (E.dirents.address (s.calls :: path)) ∧
      s'.last = E.dirents.address (s.calls :: path) ∧ s'.calls = s.calls + 1 ∧
      s'.heap.node = heap.node ∧
      if s.last ≠ 0 then
        s'.heap.data = heap.data ∧ ∃ y, s'.heap.dirent = Function.update
          (Function.update heap.dirent (E.dirents.address (s.calls :: path)) x) s.last y ∧
          y = { Function.update heap.dirent (E.dirents.address (s.calls :: path)) x s.last with
            next := E.dirents.address (s.calls :: path) }
      else
        s'.heap.dirent = Function.update heap.dirent (E.dirents.address (s.calls :: path)) x ∧
          ∃ y, s'.heap.data = Function.update heap.data (E.datas.address path) y ∧
            y.dirent = E.dirents.address (s.calls :: path) := by
  rw [direntToFsNode, if_neg hkeep] at h
  obtain ⟨⟨node, heap⟩, hbuild, h⟩ := Option.bind_eq_some_iff.1 h
  refine ⟨node, heap, { heap.dirent (E.dirents.address (s.calls :: path)) with
    node := node
    nameLen := name.length
    name := assign (heap.dirent (E.dirents.address (s.calls :: path))).name 0
      (min name.length 256) (bytesOf name)
    inode := inode }, hbuild, ⟨rfl, fun i hi => ?_, rfl⟩, rfl, rfl, ?_⟩
  · change i < name.length at hi
    exact if_pos (by omega)
  · simp only at h
    split_ifs at h ⊢
    · cases h
      exact ⟨rfl, rfl, rfl, rfl, _, rfl, rfl⟩
    · cases h
      exact ⟨rfl, rfl, rfl, rfl, _, rfl, rfl⟩

theorem EntryOk.congr {x y : Ext2FsDirent} (hx : EntryOk call x) (hlen : y.nameLen = x.nameLen)
    (hname : y.name = x.name) (hinode : y.inode = x.inode) : EntryOk call y :=
  ⟨hlen.trans hx.nameLen, fun i hi => hname ▸ hx.name i hi, hinode.trans hx.inode⟩

/-- The memory before the first call. -/
theorem built_nil (hhead : (h.data (E.datas.address path)).dirent = 0) :
    Built E path h [] ⟨h, 0, 0⟩ :=
  ⟨rfl, rfl, hhead, trivial, .nil, fun _ hk => absurd hk List.not_mem_nil, fun _ _ => rfl,
    fun _ _ _ => rfl, fun _ _ => rfl⟩

/-- A call for a name that is skipped. -/
theorem Built.skip (hb : Built E path h calls s) (hskip : Skipped call.1) :
    Built E path h (calls ++ [call]) { s with calls := s.calls + 1 } where
  count := by
    rw [List.length_append, hb.count]
    rfl
  last := by
    rw [listed_skip hskip]
    exact hb.last
  head := by
    rw [listed_skip hskip]
    exact hb.head
  list := by
    rw [listed_skip hskip]
    exact hb.list
  entries := by
    rw [listed_skip hskip, filter_skip hskip]
    exact hb.entries
  nodes := by
    rw [kept_skip hskip]
    exact hb.nodes
  dirent q hq := hb.dirent q (forall_lt_snoc hq).1
  data q hne hq := hb.data q hne (forall_lt_snoc hq).1
  node q hq := hb.node q (forall_lt_snoc hq).1

/-- What a call does that makes an entry. -/
theorem Built.appends (hb : Built E path h calls s) (hbuild : BuildOk E path build)
    (hok : call.1.length ≤ 255 ∧ call.2 ≠ 0) (hkeep : ¬ Skipped call.1)
    (hcall : direntToFsNode E build path s call.2 call.1 = some s') :
    Appended E path h calls call s s' (E.dirents.address (calls.length :: path)) := by
  obtain ⟨node, heap, x, hreturn, hentry, hxnode, hnext, hlast, hcount, hnode, hdata⟩ :=
    direntToFsNode_keep hkeep hok.1 hcall
  rw [hb.count] at hreturn hnext hlast hdata
  -- what is made for the entry itself lies below its place
  have hchild := hbuild.frame _ _ _ _ _ _ hreturn
  have hxnode := hxnode.trans (hbuild.node _ _ _ _ _ _ hreturn hok.2)
  have hold : ∀ p ∈ listed E path calls, heap.dirent p = s.heap.dirent p := by
    intro p hp
    obtain ⟨k, -, rfl⟩ := mem_listed hp
    exact hchild.dirent_cons k
  have hxnext : x.next = h.next (E.dirents.address (calls.length :: path)) := by
    rw [hnext, VfsHeap.next, hchild.dirent_cons,
      hb.dirent _ fun k hk => not_suffix_cons (Nat.ne_of_lt hk)]
    rfl
  have hdirent : ∀ q, (∀ k < (calls ++ [call]).length, ¬ k :: path <:+ q) →
      heap.dirent (E.dirents.address q) = h.dirent (E.dirents.address q) ∧
        E.dirents.address q ∉ listed E path calls ∧
        E.dirents.address q ≠ E.dirents.address (calls.length :: path) := by
    intro q hq
    obtain ⟨hbefore, hown⟩ := forall_lt_snoc hq
    refine ⟨?_, fun hmem => ?_, fun heq => ?_⟩
    · rw [hchild.dirent q fun j hj => hown (suffix_of_cons hj), hb.dirent q hbefore]
    · obtain ⟨k, hk, heq⟩ := mem_listed hmem
      exact hbefore k hk (E.dirents.injective heq ▸ List.suffix_refl _)
    · exact hown (E.dirents.injective heq ▸ List.suffix_refl _)
  have hdatas : ∀ q, q ≠ path → (∀ k < (calls ++ [call]).length, ¬ k :: path <:+ q) →
      heap.data (E.datas.address q) = h.data (E.datas.address q) := by
    intro q hne hq
    rw [hchild.data q (forall_lt_snoc hq).2, hb.data q hne (forall_lt_snoc hq).1]
  have hnodes : ∀ q, (∀ k < (calls ++ [call]).length, ¬ k :: path <:+ q) →
      s'.heap.node (E.nodes.address q) = h.node (E.nodes.address q) := by
    intro q hq
    rw [hnode, hchild.node q (forall_lt_snoc hq).2, hb.node q (forall_lt_snoc hq).1]
  have hnotin : E.dirents.address (calls.length :: path) ∉ listed E path calls :=
    next_not_mem_listed
  have hzero : 0 ∉ listed E path calls := zero_not_mem_listed
  rw [hb.last] at hdata
  obtain ⟨dent, hdent⟩ : ∃ dent, E.dirents.address (calls.length :: path) = dent := ⟨_, rfl⟩
  obtain ⟨ps, hps⟩ : ∃ ps, listed E path calls = ps := ⟨_, rfl⟩
  rw [hdent] at hnotin hdirent hlast hxnext hdata ⊢
  rw [hps] at hold hnotin hdirent hzero hdata
  by_cases hne : ps = []
  · -- the first entry of the list
    subst hne
    rw [if_neg (fun h => h rfl)] at hdata
    obtain ⟨hd, y, hy, hydirent⟩ := hdata
    have hself : s'.heap.dirent dent = x := by rw [hd, Function.update_self]
    refine ⟨hcount, hlast, ?_, fun p hp => ?_, hself ▸ hentry, hself ▸ hxnode, ?_, fun q hq => ?_,
      fun q hne hq => ?_, hnodes⟩
    · rw [hps, hy, Function.update_self]
      exact hydirent
    · rw [hps] at hp
      cases hp
    · rw [VfsHeap.next, hself, hxnext]
    · obtain ⟨hq, -, hqdent⟩ := hdirent q hq
      rw [hd, Function.update_of_ne hqdent, hq]
    · rw [hy, Function.update_of_ne (mt (fun heq => E.datas.injective heq) hne), hdatas q hne hq]
  · -- the last entry of the list leads to the new one
    have hmem : ps.getLastD 0 ∈ ps := getLastD_mem hne 0
    rw [if_pos fun heq : ps.getLastD 0 = 0 => hzero (heq ▸ hmem)] at hdata
    obtain ⟨hy, y, hd, hyeq⟩ := hdata
    have hdentne : ps.getLastD 0 ≠ dent := fun heq => hnotin (heq ▸ hmem)
    have hlastd : ps.getLastD dent = ps.getLastD 0 := by
      cases ps with
      | nil => exact absurd rfl hne
      | cons p ps => rfl
    have hself : s'.heap.dirent dent = x := by
      rw [hd, Function.update_of_ne hdentne.symm, Function.update_self]
    refine ⟨hcount, hlast, ?_, fun p hp => ?_, hself ▸ hentry, hself ▸ hxnode, ?_, fun q hq => ?_,
      fun q hne hq => ?_, hnodes⟩
    · rw [hps, hy, hchild.data _ (not_suffix_of_length (by simp)), hb.head, hps,
        headD_append_of_ne hne]
    · rw [hps] at hp ⊢
      rw [hlastd]
      by_cases hplast : p = ps.getLastD 0
      · rw [hplast, hd, Function.update_self, Function.update_self, hyeq,
          Function.update_of_ne hdentne, hold _ hmem]
      · have hpdent : p ≠ dent := fun heq => hnotin (heq ▸ hp)
        rw [hd, Function.update_of_ne hplast, Function.update_of_ne hpdent, hold p hp,
          Function.update_of_ne hplast]
        rfl
    · rw [VfsHeap.next, hself, hxnext]
    · obtain ⟨hq, hqps, hqdent⟩ := hdirent q hq
      have hqlast : E.dirents.address q ≠ ps.getLastD 0 := fun heq => hqps (heq ▸ hmem)
      rw [hd, Function.update_of_ne hqlast, Function.update_of_ne hqdent, hq]
    · rw [hy, hdatas q hne hq]

/-- A call for a name that is not skipped. -/
theorem Built.append (hb : Built E path h calls s) (hkeep : ¬ Skipped call.1)
    (ha : Appended E path h calls call s s' (E.dirents.address (calls.length :: path))) :
    Built E path h (calls ++ [call]) s' where
  count := by rw [ha.count, hb.count, List.length_append, List.length_singleton]
  last := by rw [ha.last, listed_keep hkeep, List.getLastD_concat]
  head := by rw [ha.head, listed_keep hkeep]
  list := by
    rw [listed_keep hkeep, List.getLastD_concat]
    by_cases hnil : listed E path calls = []
    · rw [hnil]
      exact ⟨ha.next, trivial⟩
    · have hnew : E.dirents.address (calls.length :: path) ∉ listed E path calls :=
        next_not_mem_listed
      have hlast : E.dirents.address (calls.length :: path) ≠
          (listed E path calls).getLastD (E.dirents.address (calls.length :: path)) :=
        fun heq => hnew (heq ▸ getLastD_mem hnil _)
      have hsame : s.heap.next (E.dirents.address (calls.length :: path)) =
          h.next (E.dirents.address (calls.length :: path)) := by
        rw [VfsHeap.next, hb.dirent _ fun k hk => not_suffix_cons (Nat.ne_of_lt hk)]
        rfl
      have hsnoc := hb.list.snoc (listed_nodup E path calls) hnew
      rw [Function.update_of_ne hlast, hsame] at hsnoc
      refine hsnoc.congr fun p hp => ?_
      rcases List.mem_append.1 hp with hp | hp
      · rw [VfsHeap.next, ha.before p hp]
      · obtain rfl := List.mem_singleton.1 hp
        rw [ha.next, Function.update_of_ne hlast, hsame]
  entries := by
    rw [filter_keep hkeep, listed_keep hkeep]
    refine List.rel_append (forall₂_imp_mem hb.entries fun call' p hp hok => ?_)
      (.cons ha.entry .nil)
    rw [ha.before p hp]
    exact hok.congr rfl rfl rfl
  nodes k hk := by
    rw [kept_keep hkeep] at hk
    rcases List.mem_append.1 hk with hk | hk
    · rw [ha.before _ (List.mem_map_of_mem hk)]
      exact hb.nodes k hk
    · obtain rfl := List.mem_singleton.1 hk
      exact ha.entryNode
  dirent := ha.dirent
  data := ha.data
  node := ha.node

/-- One more call. -/
theorem Built.snoc (hb : Built E path h calls s) (hbuild : BuildOk E path build)
    (hok : call.1.length ≤ 255 ∧ call.2 ≠ 0)
    (hcall : direntToFsNode E build path s call.2 call.1 = some s') :
    Built E path h (calls ++ [call]) s' := by
  by_cases hskip : Skipped call.1
  · rw [direntToFsNode_skip hskip, Option.some_inj] at hcall
    exact hcall ▸ hb.skip hskip
  · exact hb.append hskip (hb.appends hbuild hok hskip hcall)

/-! ### A whole listing -/

theorem calledData_none : calledData (direntCallback E build path) none calls = none := by
  induction calls with
  | nil => rfl
  | cons call calls ih => exact ih

theorem calledData_cons : calledData (direntCallback E build path) (some s) (call :: calls) =
    calledData (direntCallback E build path)
      (direntToFsNode E build path s call.2 call.1) calls := rfl

theorem Built.calledData (hb : Built E path h calls s) (hbuild : BuildOk E path build)
    (hoks : ∀ call ∈ calls', call.1.length ≤ 255 ∧ call.2 ≠ 0)
    (hcalls : calledData (direntCallback E build path) (some s) calls' = some s') :
    Built E path h (calls ++ calls') s' := by
  induction calls' generalizing calls s with
  | nil =>
    obtain rfl : s = s' := Option.some_inj.1 hcalls
    rwa [List.append_nil]
  | cons call calls' ih =>
    rw [calledData_cons] at hcalls
    cases hcall : direntToFsNode E build path s call.2 call.1 with
    | none =>
      rw [hcall, calledData_none] at hcalls
      cases hcalls
    | some s₁ =>
      rw [hcall] at hcalls
      have hb₁ := hb.snoc hbuild (hoks call List.mem_cons_self) hcall
      rw [List.append_cons]
      exact ih hb₁ (fun call' hmem => hoks call' (List.mem_cons_of_mem _ hmem)) hcalls

/-- What `ext2_inode2vfs` makes itself is a node with its data. -/
structure Ready (E : VfsEnv) (path : List ℕ) (flags : ℕ) (vtable : Vtable) (heap h : VfsHeap) :
    Prop where
  dirent : h.dirent = heap.dirent
  data : h.data = Function.update heap.data (E.datas.address path) ⟨0, 0, 0⟩
  node : ∀ a ≠ E.nodes.address path, h.node a = heap.node a
  driRes : (h.node (E.nodes.address path)).driRes = E.datas.address path
  flags : (h.node (E.nodes.address path)).flags = flags
  vtable : (h.node (E.nodes.address path)).vtable = some vtable

theorem ready_setKind (E : VfsEnv) (path : List ℕ) (inode : ℕ) (name : List UInt8) (file : Inode)
    (heap : VfsHeap) (flags : ℕ) (vtable : Vtable) : Ready E path flags vtable heap
      (setKind (newNode E path inode name file heap) (E.nodes.address path) flags vtable) where
  dirent := rfl
  data := rfl
  node a ha := by
    simp only [setKind, newNode, VfsHeap.setNode, VfsHeap.setData, Function.update_of_ne ha]
  driRes := by simp only [setKind, newNode, VfsHeap.setNode, Function.update_self]
  flags := by simp only [setKind, VfsHeap.setNode, Function.update_self]
  vtable := by simp only [setKind, VfsHeap.setNode, Function.update_self]

theorem Ready.frame {flags : ℕ} {vtable : Vtable} (h : Ready E path flags vtable heap h') :
    Frame E path heap h' where
  dirent q _ := by rw [h.dirent]
  data q hq := by
    have hne : q ≠ path := fun heq => hq (heq ▸ List.suffix_refl q)
    rw [h.data, Function.update_of_ne (mt (fun heq => E.datas.injective heq) hne)]
  node q hq := by
    have hne : q ≠ path := fun heq => hq (heq ▸ List.suffix_refl q)
    exact h.node _ (mt (fun heq => E.nodes.injective heq) hne)

/-- A directory is listed, and its entries are put in a list. -/
theorem inode2vfs_dir (hfind : findInode E.sb E.disk inode = some dir)
    (htype : dir.type = 0x4000) (name : List UInt8) (heap : VfsHeap) :
    ∃ h, Ready E path fsDirectory .ext2Dir heap h ∧ ∀ fuel,
      inode2vfs E (fuel + 1) path inode name heap =
        (dirLs E.sb E.disk dir (E.stack path) (some continueCallback) fuel ()).bind fun run =>
          match run.result with
          | .returned _ =>
            (calledData (direntCallback E (inode2vfs E fuel) path) (some ⟨h, 0, 0⟩) run.calls).map
              fun s => (E.nodes.address path, s.heap)
          | _ => none := by
  refine ⟨_, ready_setKind E path inode name dir heap fsDirectory .ext2Dir, fun fuel => ?_⟩
  rw [inode2vfs, hfind]
  simp only
  rw [if_neg (by rw [htype]; decide), if_pos htype]
  have hcontinues : ∀ (data : Unit) (inode : ℕ) (name : List UInt8),
      (continueCallback data inode name).1 = true := fun _ _ _ => rfl
  have hbuild : ∀ (data : Option BuildState) (inode : ℕ) (name : List UInt8),
      (direntCallback E (inode2vfs E fuel) path data inode name).1 = true := fun _ _ _ => rfl
  rw [dirLs_of_continues hcontinues hbuild ()]
  cases dirLs E.sb E.disk dir (E.stack path) (some continueCallback) fuel () with
  | none => rfl
  | some run =>
    rw [Option.map_some, Option.bind_some]
    cases run.result with
    | returned result =>
      simp only
      cases calledData (direntCallback E (inode2vfs E fuel) path) _ run.calls with
      | none => rfl
      | some s => rfl
    | panicked => rfl
    | outside => rfl

theorem Built.frame (hb : Built E path h calls s) : Frame E path h s.heap where
  dirent q hq := hb.dirent q fun k _ => hq k
  data q hq := hb.data q (fun heq => hq (heq ▸ List.suffix_refl q)) fun _ _ => mt suffix_of_cons hq
  node q hq := hb.node q fun _ _ => mt suffix_of_cons hq

theorem Frame.trans {h'' : VfsHeap} (h₁ : Frame E path h h') (h₂ : Frame E path h' h'') :
    Frame E path h h'' where
  dirent q hq := (h₂.dirent q hq).trans (h₁.dirent q hq)
  data q hq := (h₂.data q hq).trans (h₁.data q hq)
  node q hq := (h₂.node q hq).trans (h₁.node q hq)

/-- The list that is left of a directory, if what is made below it stays below it. -/
theorem built_of_inode2vfs (hfind : findInode E.sb E.disk inode = some dir)
    (htype : dir.type = 0x4000) (hbuild : BuildOk E path (inode2vfs E fuel))
    (h : inode2vfs E (fuel + 1) path inode name heap = some (node, h')) :
    node = E.nodes.address path ∧ ∃ h₀ run result s,
      Ready E path fsDirectory .ext2Dir heap h₀ ∧
      dirLs E.sb E.disk dir (E.stack path) (some continueCallback) fuel () = some run ∧
      run.result = .returned result ∧
      calledData (direntCallback E (inode2vfs E fuel) path) (some ⟨h₀, 0, 0⟩) run.calls = some s ∧
      Built E path h₀ run.calls s ∧ s.heap = h' := by
  obtain ⟨h₀, hready, heq⟩ : ∃ h₀, Ready E path _ _ heap h₀ ∧ _ :=
    inode2vfs_dir hfind htype name heap
  rw [heq] at h
  obtain ⟨run, hls, h⟩ := Option.bind_eq_some_iff.1 h
  cases hresult : run.result with
  | returned result =>
    simp only [hresult] at h
    obtain ⟨s, hs, hnode⟩ := Option.map_eq_some_iff.1 h
    cases hnode
    have hhead : (h₀.data (E.datas.address path)).dirent = 0 := by
      rw [hready.data, Function.update_self]
    exact ⟨rfl, h₀, run, result, s, hready, hls, hresult, hs,
      (built_nil hhead).calledData hbuild (dirLs_calls hls) hs, rfl⟩
  | panicked => simp [hresult] at h
  | outside => simp [hresult] at h

/-- What is made for an inode stays below its place in the tree. -/
theorem inode2vfs_frame (h : inode2vfs E fuel path inode name heap = some (node, h')) :
    Frame E path heap h' ∧ (inode ≠ 0 → node = E.nodes.address path) := by
  induction fuel generalizing path inode name heap node h' with
  | zero => cases h
  | succ fuel ih =>
    cases hfind : findInode E.sb E.disk inode with
    | none =>
      have hzero : inode = 0 := by
        by_contra hne
        rw [findInode, if_neg hne] at hfind
        cases hfind
      rw [inode2vfs, hfind] at h
      cases h
      exact ⟨⟨fun _ _ => rfl, fun _ _ => rfl, fun _ _ => rfl⟩, absurd hzero⟩
    | some file =>
      by_cases hdir : file.type = 0x4000
      · have hbuild : BuildOk E path (inode2vfs E fuel) :=
          ⟨fun _ _ _ _ _ _ h => (ih h).1, fun _ _ _ _ _ _ h => (ih h).2⟩
        obtain ⟨rfl, h₀, run, result, s, hready, -, -, -, hb, rfl⟩ :=
          built_of_inode2vfs hfind hdir hbuild h
        exact ⟨hready.frame.trans hb.frame, fun _ => rfl⟩
      · rw [inode2vfs, hfind] at h
        simp only at h
        rw [if_neg hdir] at h
        split_ifs at h
        cases h
        exact ⟨(ready_setKind E path inode name file heap fsFile .ext2File).frame, fun _ => rfl⟩

theorem buildOk_inode2vfs (E : VfsEnv) (path : List ℕ) (fuel : ℕ) :
    BuildOk E path (inode2vfs E fuel) :=
  ⟨fun _ _ _ _ _ _ h => (inode2vfs_frame h).1, fun _ _ _ _ _ _ h => (inode2vfs_frame h).2⟩

/-! ### Whether the tree is built -/

theorem direntToFsNode_isSome : (∃ s', direntToFsNode E build path s inode name = some s') ↔
    (¬ Skipped name → ∃ r, build (s.calls :: path) inode name s.heap = some r) := by
  by_cases hskip : Skipped name
  · exact iff_of_true ⟨_, direntToFsNode_skip hskip⟩ fun hkeep => absurd hskip hkeep
  · rw [direntToFsNode, if_neg hskip]
    refine ⟨fun ⟨s', h⟩ _ => ?_, fun h => ?_⟩
    · obtain ⟨r, hr, -⟩ := Option.bind_eq_some_iff.1 h
      exact ⟨r, hr⟩
    · obtain ⟨⟨node, heap⟩, hr⟩ := h hskip
      rw [hr, Option.bind_eq_bind, Option.bind_some]
      simp only
      split_ifs
      · exact ⟨_, rfl⟩
      · exact ⟨_, rfl⟩

theorem direntToFsNode_calls (h : direntToFsNode E build path s inode name = some s') :
    s'.calls = s.calls + 1 := by
  by_cases hskip : Skipped name
  · rw [direntToFsNode_skip hskip, Option.some_inj] at h
    rw [← h]
  · rw [direntToFsNode, if_neg hskip] at h
    obtain ⟨r, -, h⟩ := Option.bind_eq_some_iff.1 h
    simp only at h
    split_ifs at h
    · cases h
      rfl
    · cases h
      rfl

theorem calledData_returns (h : ∀ k call, calls[k]? = some call → ¬ Skipped call.1 →
      ∀ heap, ∃ r, build ((s.calls + k) :: path) call.2 call.1 heap = some r) :
    ∃ s', calledData (direntCallback E build path) (some s) calls = some s' := by
  induction calls generalizing s with
  | nil => exact ⟨s, rfl⟩
  | cons call calls ih =>
    obtain ⟨s₁, hs₁⟩ := direntToFsNode_isSome.2 fun hkeep => h 0 call rfl hkeep s.heap
    rw [calledData_cons]
    rw [hs₁]
    refine ih fun k call' hk hkeep heap => ?_
    rw [direntToFsNode_calls hs₁, Nat.add_assoc, Nat.add_comm 1]
    exact h (k + 1) call' hk hkeep heap

theorem returns_of_calledData
    (h : calledData (direntCallback E build path) (some s) calls = some s')
    (hk : calls[k]? = some call) (hkeep : ¬ Skipped call.1) :
    ∃ heap r, build ((s.calls + k) :: path) call.2 call.1 heap = some r := by
  induction calls generalizing s k with
  | nil => cases hk
  | cons call' calls ih =>
    rw [calledData_cons] at h
    cases hcall : direntToFsNode E build path s call'.2 call'.1 with
    | none =>
      rw [hcall, calledData_none] at h
      cases h
    | some s₁ =>
      rw [hcall] at h
      cases k with
      | zero =>
        obtain rfl : call' = call := Option.some_inj.1 hk
        exact ⟨s.heap, direntToFsNode_isSome.1 ⟨s₁, hcall⟩ hkeep⟩
      | succ k =>
        have := ih h hk
        rwa [direntToFsNode_calls hcall, Nat.add_assoc, Nat.add_comm 1] at this

/-- A bound for each of the numbers below `n` gives one for all of them. -/
theorem exists_common_bound {P : ℕ → ℕ → Prop} (n : ℕ) (h : ∀ k < n, ∃ b, ∀ c, b ≤ c → P k c) :
    ∃ b, ∀ c, b ≤ c → ∀ k < n, P k c := by
  induction n with
  | zero => exact ⟨0, fun _ _ k hk => absurd hk (Nat.not_lt_zero k)⟩
  | succ n ih =>
    obtain ⟨b₁, hb₁⟩ := ih fun k hk => h k (Nat.lt_succ_of_lt hk)
    obtain ⟨b₂, hb₂⟩ := h n (Nat.lt_succ_self n)
    refine ⟨max b₁ b₂, fun c hc k hk => ?_⟩
    rcases Nat.lt_succ_iff_lt_or_eq.1 hk with hk | rfl
    · exact hb₁ c (Nat.le_trans (Nat.le_max_left b₁ b₂) hc) k hk
    · exact hb₂ c (Nat.le_trans (Nat.le_max_right b₁ b₂) hc)

/-- With enough steps a tree that can be built is built. -/
theorem Buildable.returns (h : Buildable E path inode) :
    ∃ fuel, ∀ fuel', fuel ≤ fuel' → ∀ name heap, ∃ r,
      inode2vfs E fuel' path inode name heap = some r := by
  induction h with
  | missing hfind =>
    refine ⟨1, fun fuel' hle name heap => ?_⟩
    obtain ⟨fuel, rfl⟩ := Nat.exists_eq_add_of_le' hle
    rw [inode2vfs, hfind]
    exact ⟨_, rfl⟩
  | file hfind htype =>
    refine ⟨1, fun fuel' hle name heap => ?_⟩
    obtain ⟨fuel, rfl⟩ := Nat.exists_eq_add_of_le' hle
    rw [inode2vfs, hfind]
    simp only
    rw [if_pos htype]
    exact ⟨_, rfl⟩
  | @dir path inode dir run result hfind htype hls hresult _ ih =>
    obtain ⟨fuel₁, hfuel₁⟩ := hls
    -- the entries have bounds of their own, and there are finitely many of them
    have hbound : ∀ k < run.calls.length, ∃ b, ∀ c, b ≤ c → ∀ call,
        run.calls[k]? = some call → ¬ Skipped call.1 → ∀ name heap, ∃ r,
          inode2vfs E c (k :: path) call.2 name heap = some r := by
      intro k hk
      by_cases hskip : Skipped run.calls[k].1
      · refine ⟨0, fun c _ call hcall hkeep => ?_⟩
        rw [List.getElem?_eq_getElem hk, Option.some_inj] at hcall
        exact absurd (hcall ▸ hskip) hkeep
      · obtain ⟨b, hb⟩ := ih k _ (List.getElem?_eq_getElem hk) hskip
        refine ⟨b, fun c hc call hcall _ => ?_⟩
        rw [List.getElem?_eq_getElem hk, Option.some_inj] at hcall
        exact hcall ▸ hb c hc
    obtain ⟨fuel₂, hfuel₂⟩ := exists_common_bound run.calls.length hbound
    refine ⟨max fuel₁ fuel₂ + 1, fun fuel' hle name heap => ?_⟩
    obtain ⟨fuel, rfl⟩ := Nat.exists_eq_add_of_le' (Nat.le_of_add_left_le hle)
    obtain ⟨h₀, -, heq⟩ := inode2vfs_dir hfind htype name heap
    obtain ⟨s, hs⟩ : ∃ s, calledData (direntCallback E (inode2vfs E fuel) path) (some ⟨h₀, 0, 0⟩)
        run.calls = some s := by
      refine calledData_returns fun k call hk hkeep heap => ?_
      obtain ⟨hlt, -⟩ := List.getElem?_eq_some_iff.1 hk
      rw [Nat.zero_add]
      exact hfuel₂ fuel (by omega) k hlt call hk hkeep _ _
    rw [heq, dirLs_mono hfuel₁ (by omega : fuel₁ ≤ fuel), Option.bind_some]
    simp only [hresult]
    rw [hs]
    exact ⟨_, rfl⟩

theorem buildable_of_inode2vfs {r : ℕ × VfsHeap}
    (h : inode2vfs E fuel path inode name heap = some r) : Buildable E path inode := by
  induction fuel generalizing path inode name heap r with
  | zero => cases h
  | succ fuel ih =>
    obtain ⟨node, h'⟩ := r
    cases hfind : findInode E.sb E.disk inode with
    | none => exact .missing hfind
    | some file =>
      by_cases hdir : file.type = 0x4000
      · obtain ⟨-, h₀, run, result, s, -, hls, hresult, hs, -, -⟩ :=
          built_of_inode2vfs hfind hdir (buildOk_inode2vfs E _ _) h
        refine .dir hfind hdir ⟨fuel, hls⟩ hresult fun k call hk hkeep => ?_
        obtain ⟨heap', r, hr⟩ := returns_of_calledData hs hk hkeep
        rw [Nat.zero_add] at hr
        exact ih hr
      · rw [inode2vfs, hfind] at h
        simp only at h
        rw [if_neg hdir] at h
        split_ifs at h with hfile
        exact .file hfind hfile

/-! ### Reading the list -/

theorem readdirLoop_zero (h : VfsHeap) (n : ℕ) : readdirLoop h n 0 = 0 := by
  cases n with
  | zero => rfl
  | succ n => exact if_pos rfl

theorem readdirLoop_eq (hlist : Forward h.next ps 0) (hzero : 0 ∉ ps) (n : ℕ) :
    readdirLoop h n (ps.headD 0) = ps.getD n 0 := by
  induction ps generalizing n with
  | nil => exact readdirLoop_zero h n
  | cons p ps ih =>
    obtain ⟨hp, hps⟩ := not_or.1 (mt List.mem_cons.2 hzero)
    cases n with
    | zero => rfl
    | succ n =>
      rw [List.headD_cons, readdirLoop, if_neg (Ne.symm hp), hlist.1, ih hlist.2 hps]
      rfl

theorem dirReaddir_ok {p : ℕ} (hp : readdirLoop h i (h.data (h.node node).driRes).dirent = p)
    (hne : p ≠ 0) (hok : EntryOk call (h.dirent p)) (dirent : FsDirent) :
    ∃ e ∈ dirReaddir h node i dirent, DirentOk call e := by
  rw [dirReaddir, hp]
  refine ⟨_, if_pos hne, hok.nameLen, fun j hj => ?_, hok.inode⟩
  have hlen : j < (h.dirent p).nameLen := hok.nameLen ▸ hj
  have hcopied : 0 ≤ j ∧ j < 0 + max (h.dirent p).nameLen fsMaxNameLen := by omega
  exact (if_pos hcopied).trans (hok.name j hj)

/-- A list that ends and has the entries is what `ext2_dir_readdir` reads. -/
theorem hasEntries_iff : HasEntries h node calls ↔
    ∃ ps, (h.data (h.node node).driRes).dirent = ps.headD 0 ∧ 0 ∉ ps ∧ Forward h.next ps 0 ∧
      List.Forall₂ (fun call p => EntryOk call (h.dirent p)) calls ps := by
  refine ⟨HasEntries.list, fun ⟨ps, hhead, hzero, hforward, hentries⟩ =>
    ⟨⟨ps, hhead, hzero, hforward, hentries⟩, fun i call hcall dirent => ?_, fun i hi dirent => ?_⟩⟩
  · obtain ⟨hi, rfl⟩ := List.getElem?_eq_some_iff.1 hcall
    have hi' : i < ps.length := hentries.length_eq ▸ hi
    have hloop : readdirLoop h i (h.data (h.node node).driRes).dirent = ps[i] := by
      rw [hhead, readdirLoop_eq hforward hzero, List.getD_eq_getElem _ _ hi']
    exact dirReaddir_ok hloop (fun heq => hzero (heq ▸ List.getElem_mem hi'))
      (hentries.get hi hi') dirent
  · rw [dirReaddir, hhead, readdirLoop_eq hforward hzero,
      List.getD_eq_default _ _ (hentries.length_eq ▸ hi)]
    rfl

/-! ### The whole directory -/

theorem skipped_of_dots (h : Dots name) : Skipped name := by
  rcases h with rfl | rfl
  · exact .inl (strncmp_eq_zero.2 (Agree.refl _ _))
  · exact .inr (strncmp_eq_zero.2 (Agree.refl _ _))

theorem filter_dots (h : ∀ call ∈ calls, Skipped call.1 → Dots call.1) :
    calls.filter (fun call => ¬ Dots call.1) = calls.filter fun call => ¬ Skipped call.1 := by
  refine List.filter_congr fun call hcall => ?_
  rw [decide_eq_decide, not_iff_not]
  exact ⟨skipped_of_dots, h call hcall⟩

/-- The list with these entries is that of the directory. -/
def Mirrored (E : VfsEnv) (s : BuildState) (calls calls' : List (List UInt8 × ℕ)) : Prop :=
  ∃ ps, ps.headD 0 = (listed E [] calls).headD 0 ∧ 0 ∉ ps ∧ Forward s.heap.next ps 0 ∧
    List.Forall₂ (fun call p => EntryOk call (s.heap.dirent p)) calls' ps

/-- What is left of a directory, in terms of its listing. -/
theorem built_top (hfind : findInode E.sb E.disk inode = some dir) (htype : dir.type = 0x4000)
    (h : inode2vfs E fuel [] inode name heap = some (node, h')) :
    ∃ h₀ run s, h₀.next = heap.next ∧ ListsInode E [] inode run ∧ Built E [] h₀ run.calls s ∧
      ∀ calls, HasEntries h' node calls ↔ Mirrored E s run.calls calls := by
  cases fuel with
  | zero => cases h
  | succ fuel =>
    obtain ⟨rfl, h₀, run, result, s, hready, hls, -, -, hb, rfl⟩ :=
      built_of_inode2vfs hfind htype (buildOk_inode2vfs E _ _) h
    have hnext : h₀.next = heap.next := by
      funext a
      rw [VfsHeap.next, hready.dirent]
      rfl
    refine ⟨h₀, run, s, hnext, ⟨dir, hfind, fuel, hls⟩, hb, fun calls => ?_⟩
    have hnode := hb.node [] fun k _ => not_suffix_of_length (Nat.succ_pos 0)
    rw [hasEntries_iff, hnode, hready.driRes, hb.head]
    simp only [Mirrored, eq_comm]

theorem ListsInode.unique {run' : LsRun LsEnd Unit} (h : ListsInode E path inode run)
    (h' : ListsInode E path inode run') : run = run' := by
  obtain ⟨dir, hfind, hls⟩ := h
  obtain ⟨dir', hfind', hls'⟩ := h'
  obtain rfl : dir = dir' := Option.some_inj.1 (hfind.symm.trans hfind')
  exact hls.unique hls'

/-- A directory that can be built mirrors the disk if its list has the right entries. -/
theorem mirrorsDisk_of_built (hfind : findInode E.sb E.disk inode = some dir)
    (htype : dir.type = 0x4000) (hbuild : Buildable E [] inode) (name : List UInt8)
    (heap : VfsHeap) :
    ∃ h₀ run s, h₀.next = heap.next ∧ ListsInode E [] inode run ∧ Built E [] h₀ run.calls s ∧
      (Mirrored E s run.calls (run.calls.filter fun call => ¬ Dots call.1) →
        MirrorsDisk E inode name heap) := by
  obtain ⟨fuel, hfuel⟩ := hbuild.returns
  obtain ⟨⟨node, h'⟩, hr⟩ := hfuel fuel (Nat.le_refl fuel) name heap
  obtain ⟨h₀, run, s, hnext, hls, hb, hiff⟩ := built_top hfind htype hr
  exact ⟨h₀, run, s, hnext, hls, hb, fun hlist => ⟨fuel, node, h', run, hr, hls, (hiff _).2 hlist⟩⟩

/-- A directory that mirrors the disk was built, and its list has the right entries. -/
theorem MirrorsDisk.built (hfind : findInode E.sb E.disk inode = some dir)
    (htype : dir.type = 0x4000) (h : MirrorsDisk E inode name heap) :
    Buildable E [] inode ∧ ∃ h₀ run s, h₀.next = heap.next ∧ ListsInode E [] inode run ∧
      Built E [] h₀ run.calls s ∧
      Mirrored E s run.calls (run.calls.filter fun call => ¬ Dots call.1) := by
  obtain ⟨fuel, node, h', run, hr, hls, hentries⟩ := h
  obtain ⟨h₀, run', s, hnext, hls', hb, hiff⟩ := built_top hfind htype hr
  obtain rfl := hls.unique hls'
  exact ⟨buildable_of_inode2vfs hr, h₀, run, s, hnext, hls, hb, (hiff _).1 hentries⟩

/-- The list ends if the memory of its last entry was zero. -/
theorem Built.forward (hb : Built E path h calls s)
    (hend : ∀ p ∈ (listed E path calls).getLast?, h.next p = 0) :
    Forward s.heap.next (listed E path calls) 0 := by
  have hlist := hb.list
  by_cases hnil : listed E path calls = []
  · rw [hnil]
    trivial
  · have hlast : (listed E path calls).getLastD 0 ∈ (listed E path calls).getLast? := by
      rw [Option.mem_def, List.getLastD_eq_getLast?, List.getLast?_eq_some_getLast hnil]
      rfl
    rwa [hend _ hlast] at hlist

/-- The list has the right entries exactly if it ends. -/
theorem Built.mirrored_iff (hb : Built E [] h calls s)
    (hdots : ∀ call ∈ calls, Skipped call.1 → Dots call.1) :
    Mirrored E s calls (calls.filter fun call => ¬ Dots call.1) ↔
      ∀ p ∈ (listed E [] calls).getLast?, h.next p = 0 := by
  rw [filter_dots hdots]
  constructor
  · rintro ⟨ps, hhead, -, hforward, hentries⟩ p hp
    have hlen : ps.length = (listed E [] calls).length :=
      hentries.length_eq.symm.trans hb.entries.length_eq
    -- from the same first entry on, both lists are the same
    obtain rfl := hforward.eq_of_length hb.list hlen hhead
    have hne : listed E [] calls ≠ [] := by
      intro hnil
      rw [hnil] at hp
      cases hp
    have hlast : (listed E [] calls).getLastD 0 = p := by
      rw [List.getLastD_eq_getLast?, Option.mem_def.1 hp]
      rfl
    rw [← hlast, ← hb.list.next_getLastD hne, hforward.next_getLastD hne]
  · intro hend
    exact ⟨listed E [] calls, rfl, zero_not_mem_listed, hb.forward hend, hb.entries⟩

/-- If every entry leads to itself in the memory that `malloc` returns, only the empty list ends. -/
theorem Built.dots_of_mirrored (hb : Built E [] h calls s) (hself : ∀ a, h.next a = a)
    (hlist : Mirrored E s calls (calls.filter fun call => ¬ Dots call.1)) :
    ∀ call ∈ calls, Dots call.1 := by
  obtain ⟨ps, hhead, hzero, hforward, hentries⟩ := hlist
  have hnil : listed E [] calls = [] := by
    by_contra hne
    refine hforward.not_closed (S := (· ∈ listed E [] calls)) zero_not_mem_listed (fun p hp => ?_)
      (hhead ▸ headD_mem hne 0)
    rcases hb.list.next_mem hp with heq | hmem
    · rw [heq, hself]
      exact getLastD_mem hne 0
    · exact hmem
  rw [hnil] at hhead
  have hps : ps = [] := by
    by_contra hne
    have hmem := headD_mem hne 0
    rw [hhead] at hmem
    exact hzero hmem
  rw [hps] at hentries
  have hfilter := List.forall₂_nil_right_iff.1 hentries
  intro call hcall
  have := List.filter_eq_nil_iff.1 hfilter call hcall
  simpa using this

theorem kept_eq_nil (h : ∀ call ∈ calls, Skipped call.1) (k : ℕ) : kept calls k = [] := by
  induction calls generalizing k with
  | nil => rfl
  | cons call calls ih =>
    rw [kept_cons, if_pos (h call List.mem_cons_self)]
    exact ih (fun call' hmem => h call' (List.mem_cons_of_mem _ hmem)) (k + 1)

/-- The nodes are the last of the list only with the last of the entries. -/
theorem listed_getLast : (∀ p ∈ (listed E path calls).getLast?, h.next p = 0) ↔
    ∀ k ∈ (kept calls 0).getLast?, h.next (E.dirents.address (k :: path)) = 0 := by
  rw [listed, List.getLast?_map]
  simp

/-- If only `.` and `..` are skipped, the directory mirrors the disk exactly if the tree ends and
the memory of the last entry was zero. -/
theorem mirrorsDisk_iff (hfind : findInode E.sb E.disk inode = some dir)
    (htype : dir.type = 0x4000)
    (hdots : ∀ run, ListsInode E [] inode run → ∀ call ∈ run.calls, Skipped call.1 → Dots call.1) :
    MirrorsDisk E inode name heap ↔ Buildable E [] inode ∧ ∀ run, ListsInode E [] inode run →
      ∀ k ∈ (kept run.calls 0).getLast?, heap.next (E.dirents.address [k]) = 0 := by
  constructor
  · intro h
    obtain ⟨hbuild, h₀, run, s, hnext, hls, hb, hlist⟩ := h.built hfind htype
    refine ⟨hbuild, fun run' hls' => ?_⟩
    obtain rfl := hls.unique hls'
    rw [← hnext]
    exact listed_getLast.1 ((hb.mirrored_iff (hdots run hls)).1 hlist)
  · rintro ⟨hbuild, hend⟩
    obtain ⟨h₀, run, s, hnext, hls, hb, hmirrors⟩ :=
      mirrorsDisk_of_built hfind htype hbuild name heap
    refine hmirrors ((hb.mirrored_iff (hdots run hls)).2 (listed_getLast.2 ?_))
    rw [hnext]
    exact hend run hls

/-- The directory mirrors the disk in any memory exactly if the tree ends and the list is empty. -/
theorem alwaysMirrors_iff (hfind : findInode E.sb E.disk inode = some dir)
    (htype : dir.type = 0x4000) : AlwaysMirrors E inode name ↔
      Buildable E [] inode ∧
        ∀ run, ListsInode E [] inode run → ∀ call ∈ run.calls, Dots call.1 := by
  constructor
  · intro h
    -- memory in which every entry leads to itself
    let e : Ext2FsDirent := ⟨0, fun _ => 0, 0, 0, 0⟩
    let heap : VfsHeap :=
      ⟨fun a => { e with next := a }, fun _ => ⟨0, 0, 0⟩,
        fun _ => ⟨0, fun _ => 0, 0, 0, 0, 0, 0, 0, 0, none, 0⟩⟩
    obtain ⟨hbuild, h₀, run, s, hnext, hls, hb, hlist⟩ := (h heap).built hfind htype
    refine ⟨hbuild, fun run' hls' => ?_⟩
    obtain rfl := hls.unique hls'
    exact hb.dots_of_mirrored (fun a => congrFun hnext a) hlist
  · rintro ⟨hbuild, hdots⟩ heap
    refine (mirrorsDisk_iff hfind htype fun run hls call hcall _ => hdots run hls call hcall).2
      ⟨hbuild, fun run hls k hk => ?_⟩
    rw [kept_eq_nil fun call hcall => skipped_of_dots (hdots run hls call hcall)] at hk
    cases hk

/-- The directory mirrors the disk in any memory exactly if the tree ends and the list is empty.
Where only `.` and `..` are skipped, it does so exactly if the tree ends and the memory of the last
entry was zero. -/
theorem mirrors_iff (hfind : findInode E.sb E.disk inode = some dir) (htype : dir.type = 0x4000) :
    (AlwaysMirrors E inode name ↔ Buildable E [] inode ∧
      ∀ run, ListsInode E [] inode run → ∀ call ∈ run.calls, Dots call.1) ∧
    ∀ heap,
      (∀ run, ListsInode E [] inode run → ∀ call ∈ run.calls, Skipped call.1 → Dots call.1) →
      (MirrorsDisk E inode name heap ↔ Buildable E [] inode ∧ ∀ run, ListsInode E [] inode run →
        ∀ k ∈ (kept run.calls 0).getLast?, heap.next (E.dirents.address [k]) = 0) :=
  ⟨alwaysMirrors_iff hfind htype, fun _ hdots => mirrorsDisk_iff hfind htype hdots⟩

end Mirror

/-! ### Two directories -/

/-- An address for every place. -/
def sampleAllocation : Allocation where
  address p := Encodable.encode p + 1
  injective _ _ h := Encodable.encode_injective (Nat.succ_injective h)
  ne_zero _ := Nat.succ_ne_zero _

def sampleEnv (disk : Mem) : VfsEnv :=
  ⟨sampleSuperblock, disk, fun _ => 0, sampleAllocation, sampleAllocation, sampleAllocation⟩

theorem sample_findInode (disk : Mem) :
    findInode (sampleEnv disk).sb (sampleEnv disk).disk 2 = some (sampleDir disk) := rfl

/-- The calls for the directory of the small image, and how the listing ends. -/
def sampleListing (disk : Mem) : Option (List (List UInt8 × ℕ) × LsEnd) :=
  (dirLs sampleSuperblock disk (sampleDir disk) 0 (some continueCallback) 8 ()).map
    fun run => (run.calls, run.result)

theorem listsInode_of_eq {disk : Mem} {calls : List (List UInt8 × ℕ)}
    (h : sampleListing disk = some (calls, .returned true)) :
    ∃ run, run.calls = calls ∧ run.result = .returned true ∧
      Lists sampleSuperblock disk (sampleDir disk) 0 (some continueCallback) () run ∧
        ∀ run', ListsInode (sampleEnv disk) [] 2 run' → run' = run := by
  obtain ⟨run, hrun, hcalls⟩ := Option.map_eq_some_iff.1 h
  obtain ⟨rfl, hresult⟩ := Prod.mk.inj hcalls
  have hls : ListsInode (sampleEnv disk) [] 2 run := ⟨_, sample_findInode disk, 8, hrun⟩
  exact ⟨run, rfl, hresult, ⟨8, hrun⟩, fun run' hls' => hls'.unique hls⟩

/-- There is nothing but `.` and `..` in the directory. -/
theorem alwaysMirrors_sample : AlwaysMirrors (sampleEnv tailDisk) 2 [] := by
  obtain ⟨run, hcalls, hresult, hls, hunique⟩ := listsInode_of_eq
    (by decide : sampleListing tailDisk =
      some ([([46], 2), ([46, 46], 2)], .returned true))
  have hdots : ∀ call ∈ run.calls, Dots call.1 := by
    rw [hcalls]
    decide
  refine (mirrors_iff (sample_findInode tailDisk) (by decide)).1.2
    ⟨.dir (sample_findInode tailDisk) (by decide) hls hresult ?_, ?_⟩
  · intro k call hk hkeep
    exact absurd (skipped_of_dots (hdots call (List.mem_of_getElem? hk))) hkeep
  · intro run' hls'
    rw [hunique run' hls']
    exact hdots

/-- The small image, with the file `a` in the directory. -/
def oneFileDisk : Mem :=
  diskOf ((7184, [12, 0]) :: (7192, [12, 0, 0, 0, 12, 0, 1, 1, 97]) :: (7208, [0xdc, 3]) ::
    samplePlaces)

/-- Memory that is not zero. -/
def usedHeap : VfsHeap where
  dirent _ := ⟨1, fun _ => 1, 1, 1, 1⟩
  data _ := ⟨1, 1, 1⟩
  node _ := ⟨1, fun _ => 1, 1, 1, 1, 1, 1, 1, 1, none, 1⟩

/-- The entry of the one file leads to where the memory for it did before. -/
theorem not_mirrors : ¬ ∀ (E : VfsEnv) (inode : ℕ) (name : List UInt8) (dir : Inode)
    (heap : VfsHeap), findInode E.sb E.disk inode = some dir → dir.type = 0x4000 →
      Buildable E [] inode → MirrorsDisk E inode name heap := by
  intro h
  obtain ⟨run, hcalls, hresult, hls, hunique⟩ := listsInode_of_eq
    (by decide : sampleListing oneFileDisk =
      some ([([46], 2), ([46, 46], 2), ([97], 12)], .returned true))
  have hdir : (sampleDir oneFileDisk).type = 0x4000 := by decide
  have hbuild : Buildable (sampleEnv oneFileDisk) [] 2 := by
    refine .dir (sample_findInode oneFileDisk) hdir hls hresult ?_
    rw [hcalls]
    intro k call hk hkeep
    have htype : (findInode sampleSuperblock oneFileDisk 12).map Inode.type = some 0x8000 := by
      decide
    obtain ⟨file, hfile, htype⟩ := Option.map_eq_some_iff.1 htype
    rcases List.mem_of_getElem? hk with _ | ⟨_, _ | ⟨_, _ | ⟨_, h⟩⟩⟩
    · exact absurd (by decide) hkeep
    · exact absurd (by decide) hkeep
    · exact .file hfile htype
    · cases h
  have hdots : ∀ run', ListsInode (sampleEnv oneFileDisk) [] 2 run' →
      ∀ call ∈ run'.calls, Skipped call.1 → Dots call.1 := by
    intro run' hls'
    rw [hunique run' hls', hcalls]
    decide
  have hmirrors := h _ 2 [] _ usedHeap (sample_findInode oneFileDisk) hdir hbuild
  have hend := ((mirrorsDisk_iff (sample_findInode oneFileDisk) hdir hdots).1 hmirrors).2 run
    ⟨_, sample_findInode oneFileDisk, hls⟩ 2
  rw [hcalls] at hend
  exact absurd (hend (by decide)) Nat.one_ne_zero

end Ext2

end Kernel

end Bluejay
