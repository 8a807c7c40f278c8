import Bluejay.Kernel.Finddir
import Bluejay.Lib.Chunks

/-!
# Reading files of the initial ram disk

* `fsRead`, `initrdRead` : `fs_read` of `vfs.c` and `initrd_read` of `vfs_initrd.c`.
* `InitrdFile` : a node of the initial ram disk and the bytes of its file.
* `ReadsRange`, `chunksOf` : one read, and successive reads.
* `initrdReads_iff` : when they return the bytes of the file.
-/

namespace Bluejay

namespace Kernel

/-! ### The functions -/

/-- `initrd_read`, with the buffer as it is afterwards. -/
def initrdRead (w : Vfs) (node offset size : ℕ) (buffer : Mem) : ℕ × Mem :=
  if offset > (w.heap.node node).size then (0, buffer)
  else
    let size := min size ((w.heap.node node).size - offset)
    match w.entries[(w.heap.node node).driRes]? with
    | none => (size, buffer)
    -- from the start of the file on, whatever the offset
    | some e => (size, Ext2.assign buffer 0 size fun k => w.mem (e.data + k))

/-- The type of the functions that read. -/
abbrev FsRead := ℕ → ℕ → ℕ → Mem → ℕ × Mem

/-- The field `read`; `ext2FileRead` is `ext2_file_read`. -/
def Vtable.read (w : Vfs) (ext2FileRead : FsRead) : Vtable → Option FsRead
  | .ext2File => some ext2FileRead
  | .ext2Dir => none
  | .initrd => some (initrdRead w)

/-- `fs_read`, with the buffer as it is afterwards. -/
def fsRead (w : Vfs) (ext2FileRead : FsRead) (n offset size : ℕ) (buffer : Mem) : ℕ × Mem :=
  let node := follow w.heap.node n
  match (w.heap.node node).vtable.bind (Vtable.read w ext2FileRead) with
  | none => (0, buffer)
  | some read => if node = 0 then (0, buffer) else read node offset size buffer

/-! ### What they should do -/

/-- The node is one of a file of the initial ram disk, with these bytes. -/
structure InitrdFile (w : Vfs) (n : ℕ) (file : List UInt8) : Prop where
  ne_zero : n ≠ 0
  mount : (w.heap.node n).mount = 0
  vtable : (w.heap.node n).vtable = some .initrd
  size : (w.heap.node n).size = file.length
  data : ∃ e, w.entries[(w.heap.node n).driRes]? = some e ∧ w.mem.Holds e.data file

/-- The read returns the number of the bytes that there are from the offset on, but at most the
size, and these bytes. -/
def ReadsRange (w : Vfs) (ext2FileRead : FsRead) (n : ℕ) (file : List UInt8) (offset size : ℕ) :
    Prop :=
  ∀ buffer, (fsRead w ext2FileRead n offset size buffer).1 = min size (file.length - offset) ∧
    ∀ i < min size (file.length - offset),
      (fsRead w ext2FileRead n offset size buffer).2 i = bytesOf file (offset + i)

/-- The bytes that a read returns. -/
def readBytes (w : Vfs) (ext2FileRead : FsRead) (n : ℕ) (buffer : Mem) (offset size : ℕ) :
    List UInt8 :=
  bytesAt (fsRead w ext2FileRead n offset size buffer).2
    (fsRead w ext2FileRead n offset size buffer).1

/-- The bytes from the offset on are the same as the first bytes of the file, as far as they are
read. -/
def Repeats (file : List UInt8) (offset size : ℕ) : Prop :=
  ∀ i < min size (file.length - offset), bytesOf file i = bytesOf file (offset + i)

instance (file : List UInt8) (offset size : ℕ) : Decidable (Repeats file offset size) :=
  inferInstanceAs (Decidable (∀ _ < _, _))

/-- A node in the array `initrd_content`. -/
def InitrdNode.toFsNode (x : InitrdNode) : FsNode where
  nameLen := 0
  name := bytesOf x.name
  inode := 0
  flags := x.flags
  mask := x.mask
  gid := x.gid
  uid := x.uid
  size := x.size
  driRes := x.driResI
  vtable := some .initrd
  mount := 0

/-- What `init_initrd_vfs` sets up is in the variables of the driver. -/
structure Initrd.Installed (r : Initrd) (w : Vfs) : Prop where
  entries : w.entries = r.files.map Prod.fst
  content : w.initrdContent ≠ 0
  nodes : ∀ i x, r.files[i]? = some x →
    w.heap.node (w.initrdContent + fsNodeSize * i) = x.2.toFsNode

section Read

variable {w : Vfs} {ext2FileRead : FsRead} {n offset size i : ℕ} {file : List UInt8}
  {buffer : Mem} {sizes : List ℕ}

/-- A read returns the first bytes of the file, but as many as there are from the offset on. -/
theorem InitrdFile.fsRead (h : InitrdFile w n file) (ext2FileRead : FsRead) (offset size : ℕ)
    (buffer : Mem) :
    (fsRead w ext2FileRead n offset size buffer).1 = min size (file.length - offset) ∧
      ∀ i < min size (file.length - offset),
        (fsRead w ext2FileRead n offset size buffer).2 i = bytesOf file i := by
  obtain ⟨e, he, hdata⟩ := h.data
  have hfollow : follow w.heap.node n = n := if_neg (not_not.2 h.mount)
  have hread : Kernel.fsRead w ext2FileRead n offset size buffer =
      initrdRead w n offset size buffer := by
    rw [Kernel.fsRead, hfollow, h.vtable]
    exact if_neg h.ne_zero
  rw [hread, initrdRead, h.size, he]
  by_cases hpast : offset > file.length
  · rw [if_pos hpast, Nat.sub_eq_zero_of_le (Nat.le_of_lt hpast), Nat.min_zero]
    exact ⟨rfl, fun i hi => absurd hi (Nat.not_lt_zero i)⟩
  · rw [if_neg hpast]
    refine ⟨rfl, fun i hi => ?_⟩
    have hcopied : 0 ≤ i ∧ i < 0 + min size (file.length - offset) := by omega
    refine (if_pos hcopied).trans ?_
    exact hdata.getD (by omega)

/-- One read is right exactly if the first bytes of the file are those at the offset. -/
theorem readsRange_iff (h : InitrdFile w n file) :
    ReadsRange w ext2FileRead n file offset size ↔ Repeats file offset size := by
  constructor
  · intro hreads i hi
    obtain ⟨-, hbytes⟩ := hreads fun _ => 0
    rw [← hbytes i hi, (h.fsRead ext2FileRead offset size _).2 i hi]
  · intro hrepeats buffer
    obtain ⟨hcount, hbytes⟩ := h.fsRead ext2FileRead offset size buffer
    exact ⟨hcount, fun i hi => (hbytes i hi).trans (hrepeats i hi)⟩

/-- The bytes that are returned are right under the same condition. -/
theorem readBytes_eq_iff (h : InitrdFile w n file) :
    readBytes w ext2FileRead n buffer offset size = (file.drop offset).take size ↔
      Repeats file offset size := by
  obtain ⟨hcount, hbytes⟩ := h.fsRead ext2FileRead offset size buffer
  have hlen : ((file.drop offset).take size).length = min size (file.length - offset) := by
    rw [List.length_take, List.length_drop]
  have hrange : ∀ i < min size (file.length - offset),
      bytesOf ((file.drop offset).take size) i = bytesOf file (offset + i) := by
    intro i hi
    rw [bytesOf_of_lt (hlen ▸ hi), bytesOf_of_lt (by omega)]
    simp
  rw [readBytes, hcount]
  constructor
  · intro heq i hi
    rw [← hbytes i hi, ← hrange i hi, ← heq, bytesOf_bytesAt hi]
  · intro hrepeats
    refine (eq_bytesAt hlen fun i hi => ?_).symm
    rw [hbytes i hi, hrepeats i hi, hrange i hi]

theorem length_readBytes (h : InitrdFile w n file) (ext2FileRead : FsRead) (buffer : Mem)
    (offset size : ℕ) :
    (readBytes w ext2FileRead n buffer offset size).length = min size (file.length - offset) := by
  rw [readBytes, length_bytesAt, (h.fsRead ext2FileRead offset size buffer).1]

/-- Reads return the bytes of the file exactly if the bytes at the offset are the first ones of the
file, and successive reads make up the file exactly if this is so for each of them. -/
theorem initrdReads_iff (h : InitrdFile w n file) (ext2FileRead : FsRead) :
    (∀ offset size, ReadsRange w ext2FileRead n file offset size ↔ Repeats file offset size) ∧
      ∀ buffer sizes, file.length ≤ sizes.sum →
        ((chunks (readBytes w ext2FileRead n buffer) sizes 0).flatten = file ↔
          EachRead (Repeats file) file.length sizes 0) := by
  refine ⟨fun offset size => readsRange_iff h, fun buffer sizes hsizes => ?_⟩
  have hchunks := flatten_chunks_iff (length_readBytes h ext2FileRead buffer)
    (by rwa [Nat.zero_add])
  rw [List.drop_zero] at hchunks
  rw [hchunks]
  exact EachRead.congr fun offset size => readBytes_eq_iff h

/-! ### The files of an archive -/

theorem readHeaders_driResI {W : Width} {m : Mem} {f k : ℕ} {x : InitrdFsEntry × InitrdNode}
    (hx : (readHeaders W m n i f)[k]? = some x) : x.2.driResI = i + k := by
  induction n generalizing i f k with
  | zero => cases hx
  | succ n ih =>
    cases k with
    | zero =>
      obtain rfl := Option.some_inj.1 hx
      rfl
    | succ k => rw [ih hx, Nat.add_assoc, Nat.add_comm 1]

theorem initInitrdVfs_driResI {W : Width} {m : Mem} {data k : ℕ} {r : Initrd}
    {x : InitrdFsEntry × InitrdNode} (hinit : initInitrdVfs W m data = some r)
    (hx : r.files[k]? = some x) : x.2.driResI = k := by
  rw [initInitrdVfs] at hinit
  split_ifs at hinit
  cases hinit
  rw [readHeaders_driResI hx, Nat.zero_add]

/-- The nodes that `init_initrd_vfs` makes are those of the files that were read back. -/
theorem initrdFile_of_fileOk {W : Width} {data : ℕ} {r : Initrd} {fs : List InputFile}
    {f : InputFile} (hinit : initInitrdVfs W w.mem data = some r) (hr : r.Installed w)
    (hfiles : List.Forall₂ (FileOk W w.mem) fs r.files) (hf : fs[i]? = some f) :
    InitrdFile w (w.initrdContent + fsNodeSize * i) f.data := by
  obtain ⟨hi, rfl⟩ := List.getElem?_eq_some_iff.1 hf
  have hi' : i < r.files.length := hfiles.length_eq ▸ hi
  have hx : r.files[i]? = some r.files[i] := List.getElem?_eq_getElem hi'
  have hok : FileOk W w.mem fs[i] r.files[i] := hfiles.get hi hi'
  have hres : r.files[i].2.driResI = i := initInitrdVfs_driResI hinit hx
  have hcontent := hr.content
  refine ⟨by omega, ?_, ?_, ?_, r.files[i].1, ?_, hok.data⟩
  · rw [hr.nodes i _ hx]
    rfl
  · rw [hr.nodes i _ hx]
    rfl
  · rw [hr.nodes i _ hx]
    exact hok.nodeSize
  · rw [hr.nodes i _ hx, hr.entries]
    change (r.files.map Prod.fst)[r.files[i].2.driResI]? = _
    rw [hres, List.getElem?_map, hx]
    rfl

end Read

/-- One file of two bytes, with the node 1. -/
def fileVfs : Vfs where
  heap :=
    { dirent := fun _ => ⟨0, fun _ => 0, 0, 0, 0⟩
      data := fun _ => ⟨0, 0, 0⟩
      node := fun _ => ⟨0, fun _ => 0, 0, fsFile, 0, 0, 0, 2, 0, some .initrd, 0⟩ }
  mem := fun a => bytesOf [1, 2] (a - 172)
  realInitrd := 2
  initrdContent := 1
  entries := [⟨100, 172, 2⟩]

theorem fileVfs_initrdFile : InitrdFile fileVfs 1 [1, 2] :=
  ⟨by decide, rfl, rfl, rfl, _, rfl, rfl, rfl, trivial⟩

theorem readsRange_sample : ReadsRange fileVfs (fun _ _ _ buffer => (0, buffer)) 1 [1, 2] 0 2 :=
  ((initrdReads_iff fileVfs_initrdFile _).1 0 2).2 (by decide)

/-- The byte at the offset 1 is not the first one. -/
theorem not_readsRange : ¬ ∀ (w : Vfs) (ext2FileRead : FsRead) (n : ℕ) (file : List UInt8)
    (offset size : ℕ), InitrdFile w n file → ReadsRange w ext2FileRead n file offset size := by
  intro h
  have hreads := h fileVfs (fun _ _ _ buffer => (0, buffer)) 1 _ 1 1 fileVfs_initrdFile
  exact absurd ((readsRange_iff fileVfs_initrdFile).1 hreads) (by decide)

end Kernel

end Bluejay
