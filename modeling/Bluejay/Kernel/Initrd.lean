import Bluejay.Lib.Layout
import Mathlib.Algebra.Order.BigOperators.Group.List
import Mathlib.Algebra.Order.Ring.Nat
import Mathlib.Data.List.Forall2

/-!
# Initial ram disks

`mkinitrd/main.c` writes an archive of files, `vfs_initrd.c` reads it in memory.  The headers of
both are the packed structures of `initrd.h`, whose width depends on the one of `unsigned long`.

* `mkinitrd`, `initInitrdVfs` : the two programs.
* `RoundTrips` : wherever the archive is in memory, the files are read back from it.
* `roundTrips_iff` : `mkinitrd` reads the bytes of a file into a `char` and stops at the first one
  that looks like `EOF`, so this holds exactly if no file has the byte `0xff`, and the sizes fit
  in the `int` of `file_size`.
-/

namespace Bluejay

namespace Kernel

/-- The width of `unsigned long`. -/
inductive Width
  | four
  | eight
  deriving DecidableEq

/-- `sizeof(unsigned long)`. -/
def Width.bytes : Width → ℕ
  | .four => 4
  | .eight => 8

/-- Conversion to `size_t`. -/
def Width.sizeT (W : Width) (n : ℕ) : ℕ := n % 256 ^ W.bytes

/-- `INITRD_MAGIC`. -/
def initrdMagic : ℕ := 0xaa77dbf6

/-- `sizeof(struct initrd_global_header)`. -/
def globalHeaderSize (W : Width) : ℕ := 4 + W.bytes

/-- `sizeof(struct initrd_file_header)`. -/
def fileHeaderSize (W : Width) : ℕ := 64 + W.bytes

/-- A file that is put into the archive, with its name on the command line. -/
structure InputFile where
  name : List UInt8
  data : List UInt8
  name_length : name.length ≤ 63
  name_ne : 0 ∉ name

/-- The files on the command line, behind the name of the program and that of the archive. -/
structure InputFiles where
  files : List InputFile
  argc_lt : files.length + 2 < 2 ^ 31

/-! ### Writing the archive -/

/-- The result of `file_size`, an `int`, as the `unsigned long` of the header. -/
def fileSize (W : Width) (n : ℕ) : ℕ := (signed32 (u32 n) % (256 ^ W.bytes : ℕ)).toNat

/-- The loop of `main` that copies a file: `c` is a `char`, and `EOF` is `-1`. -/
def copyFile : List UInt8 → List UInt8
  | [] => []
  | c :: cs => if c.toInt8.toInt = -1 then [] else c :: copyFile cs

/-- The header of a file. -/
def fileHeader (W : Width) (f : InputFile) : List UInt8 :=
  f.name ++ List.replicate (64 - f.name.length) 0 ++ bytesLE W.bytes (fileSize W f.data.length)

/-- `main` of `mkinitrd`. -/
def mkinitrd (W : Width) (fs : InputFiles) : List UInt8 :=
  bytesLE 4 initrdMagic ++ bytesLE W.bytes fs.files.length ++
    fs.files.flatMap fun f => fileHeader W f ++ copyFile f.data

/-! ### Reading the archive -/

/-- `struct initrd_fs_entry`. -/
structure InitrdFsEntry where
  name : ℕ
  data : ℕ
  size : ℕ

/-- The fields of `struct fs_node` that are set. -/
structure InitrdNode where
  name : List UInt8
  driResI : ℕ
  flags : ℕ
  mask : ℕ
  uid : ℕ
  gid : ℕ
  size : ℕ

/-- `FS_FILE`. -/
def fsFile : ℕ := 1

/-- The body of the loop of `init_initrd_vfs`, for the header at `f` of the file `i`. -/
def readHeader (W : Width) (m : Mem) (i f : ℕ) : InitrdFsEntry × InitrdNode :=
  let data := W.sizeT (f + fileHeaderSize W)
  let size := m.loadLE (f + 64) W.bytes
  (⟨f, data, u32 size⟩,
    ⟨m.readString f (256 ^ W.bytes - f), i, fsFile, 0b101001001, 0, 0, size⟩)

/-- The loop of `init_initrd_vfs`, from the header at `f` of the file `i` on. -/
def readHeaders (W : Width) (m : Mem) : ℕ → ℕ → ℕ → List (InitrdFsEntry × InitrdNode)
  | 0, _, _ => []
  | n + 1, i, f =>
    let x := readHeader W m i f
    x :: readHeaders W m n (i + 1) (W.sizeT (x.1.data + x.2.size))

/-- What `init_initrd_vfs` sets up. -/
structure Initrd where
  numInitrdFiles : ℕ
  files : List (InitrdFsEntry × InitrdNode)

/-- `init_initrd_vfs`; `none` is its `kpanic`. -/
def initInitrdVfs (W : Width) (m : Mem) (data : ℕ) : Option Initrd :=
  if m.loadLE data 4 ≠ initrdMagic then none
  else
    let numInitrdFiles := u32 (m.loadLE (data + 4) W.bytes)
    some ⟨numInitrdFiles,
      readHeaders W m numInitrdFiles 0 (W.sizeT (data + globalHeaderSize W))⟩

/-! ### Round trips -/

/-- The file is read back: its name, its size, and its bytes. -/
structure FileOk (W : Width) (m : Mem) (f : InputFile) (x : InitrdFsEntry × InitrdNode) : Prop where
  name : m.readString x.1.name (256 ^ W.bytes - x.1.name) = f.name
  nodeName : x.2.name = f.name
  size : x.1.size = f.data.length
  nodeSize : x.2.size = f.data.length
  data : m.Holds x.1.data f.data

/-- Wherever the archive is in memory, the same files are read back, in order. -/
def RoundTrips (W : Width) (fs : InputFiles) : Prop :=
  ∀ (m : Mem) (data : ℕ), data + (mkinitrd W fs).length ≤ 256 ^ W.bytes →
    m.Holds data (mkinitrd W fs) → ∃ r, initInitrdVfs W m data = some r ∧
      r.numInitrdFiles = fs.files.length ∧ List.Forall₂ (FileOk W m) fs.files r.files

/-- The length of the files with their headers. -/
def filesLength (W : Width) (fs : List InputFile) : ℕ :=
  (fs.map fun f => fileHeaderSize W + f.data.length).sum

/-- The length of an archive that has all bytes of its files. -/
def archiveLength (W : Width) (fs : InputFiles) : ℕ :=
  globalHeaderSize W + filesLength W fs.files

section RoundTrip

variable {W : Width} {m : Mem} {f : InputFile} {fs : List InputFile} {cs : List UInt8} {i p : ℕ}


/-- The one byte that looks like `EOF`. -/
theorem toInt8_eq_neg_one {c : UInt8} : c.toInt8.toInt = -1 ↔ c = 0xff := by
  constructor
  · intro h
    have hc : c.toInt8 = (0xff : UInt8).toInt8 := Int8.toInt_inj.1 (by rw [h]; rfl)
    rw [← UInt8.toUInt8_toInt8 c, hc, UInt8.toUInt8_toInt8]
  · rintro rfl
    rfl

theorem copyFile_eq_self (h : 0xff ∉ cs) : copyFile cs = cs := by
  induction cs with
  | nil => rfl
  | cons c cs ih =>
    rw [List.mem_cons, not_or] at h
    rw [copyFile, if_neg fun hc => h.1 (toInt8_eq_neg_one.1 hc).symm, ih h.2]

theorem length_copyFile_le (cs : List UInt8) : (copyFile cs).length ≤ cs.length := by
  induction cs with
  | nil => exact Nat.le_refl _
  | cons c cs ih =>
    rw [copyFile]
    split_ifs
    · exact Nat.zero_le _
    · exact Nat.succ_le_succ ih

/-- The rest of a file is lost from the first byte `0xff` on. -/
theorem length_copyFile_lt (h : 0xff ∈ cs) : (copyFile cs).length < cs.length := by
  induction cs with
  | nil => cases h
  | cons c cs ih =>
    rw [copyFile]
    split_ifs with hc
    · exact Nat.succ_pos _
    · refine Nat.succ_lt_succ (ih ((List.mem_cons.1 h).resolve_left fun he => ?_))
      exact hc (toInt8_eq_neg_one.2 he.symm)

@[simp] theorem length_fileHeader (W : Width) (f : InputFile) :
    (fileHeader W f).length = fileHeaderSize W := by
  have := f.name_length
  simp only [fileHeader, List.length_append, List.length_replicate, length_bytesLE,
    fileHeaderSize]
  omega

@[simp] theorem filesLength_cons (W : Width) (f : InputFile) (fs : List InputFile) :
    filesLength W (f :: fs) = fileHeaderSize W + f.data.length + filesLength W fs := rfl

theorem length_mkinitrd (W : Width) (fs : InputFiles) :
    (mkinitrd W fs).length = globalHeaderSize W +
      (fs.files.map fun f => fileHeaderSize W + (copyFile f.data).length).sum := by
  simp [mkinitrd, globalHeaderSize, List.length_flatMap, Nat.add_assoc]

theorem length_mkinitrd_le (W : Width) (fs : InputFiles) :
    (mkinitrd W fs).length ≤ archiveLength W fs := by
  rw [length_mkinitrd, archiveLength, filesLength]
  refine Nat.add_le_add_left (List.sum_le_sum fun f _ => ?_) _
  exact Nat.add_le_add_left (length_copyFile_le _) _

/-- The archive is too short for a file with the byte `0xff`. -/
theorem length_mkinitrd_lt {fs : InputFiles} (h : ∃ f ∈ fs.files, 0xff ∈ f.data) :
    (mkinitrd W fs).length < archiveLength W fs := by
  rw [length_mkinitrd, archiveLength, filesLength]
  refine Nat.add_lt_add_left (List.sum_lt_sum _ _ (fun f _ => ?_) ?_) _
  · exact Nat.add_le_add_left (length_copyFile_le _) _
  · obtain ⟨f, hf, hmem⟩ := h
    exact ⟨f, hf, Nat.add_lt_add_left (length_copyFile_lt hmem) _⟩

/-- The size in the header and the one of the entry are right. -/
theorem fileSize_eq_iff {n : ℕ} (h : n < 256 ^ W.bytes) :
    fileSize W n = n ∧ u32 n = n ↔ W = .four ∨ n < 2 ^ 31 := by
  unfold fileSize signed32 u32
  cases W with
  | four =>
    simp only [Width.bytes] at h ⊢
    simp only [true_or, iff_true]
    split_ifs <;> omega
  | eight =>
    simp only [Width.bytes] at h ⊢
    simp only [reduceCtorEq, false_or]
    split_ifs <;> omega

theorem fileSize_lt (W : Width) (n : ℕ) : fileSize W n < 256 ^ W.bytes := by
  have hpos : 0 < 256 ^ W.bytes := Nat.pow_pos (by decide)
  have := Int.emod_lt_of_pos (signed32 (u32 n)) (Int.natCast_pos.2 hpos)
  have := Int.emod_nonneg (signed32 (u32 n)) (Int.natCast_ne_zero.2 hpos.ne')
  rw [fileSize]
  omega

/-- A file that is in memory with its header is read back exactly if its size fits. -/
theorem fileOk_iff (hm : m.Holds p (fileHeader W f ++ f.data))
    (hp : p + fileHeaderSize W + f.data.length ≤ 256 ^ W.bytes) :
    FileOk W m f (readHeader W m i p) ↔ W = .four ∨ f.data.length < 2 ^ 31 := by
  have hname := f.name_length
  have hlong : f.data.length < 256 ^ W.bytes := by
    unfold fileHeaderSize at hp
    omega
  rw [Mem.holds_append, length_fileHeader, fileHeader, Mem.holds_append, Mem.holds_append] at hm
  obtain ⟨⟨⟨hstr, hzero⟩, hsize⟩, hdata⟩ := hm
  -- the name ends inside of the header
  have hend : m (p + f.name.length) = 0 := by
    obtain ⟨k, hk⟩ : ∃ k, 64 - f.name.length = k + 1 := ⟨63 - f.name.length, by omega⟩
    rw [hk, List.replicate_succ] at hzero
    exact hzero.1
  have hread : m.readString p (256 ^ W.bytes - p) = f.name :=
    Mem.readString_of_holds hstr hend f.name_ne (by unfold fileHeaderSize at hp; omega)
  have hload : m.loadLE (p + 64) W.bytes = fileSize W f.data.length := by
    rw [List.length_append, List.length_replicate, Nat.add_sub_cancel' (by omega)] at hsize
    rw [Mem.loadLE_of_holds hsize, Nat.mod_eq_of_lt (fileSize_lt W _)]
  have hptr : m.Holds (W.sizeT (p + fileHeaderSize W)) f.data := by
    cases hf : f.data with
    | nil => trivial
    | cons b bs =>
      rw [hf, List.length_cons] at hp
      rwa [Width.sizeT, Nat.mod_eq_of_lt (by omega), ← hf]
  rw [← fileSize_eq_iff hlong]
  constructor
  · rintro ⟨-, -, hs, hn, -⟩
    simp only [readHeader, hload] at hs hn
    rw [hn] at hs
    exact ⟨hn, hs⟩
  · rintro ⟨hn, hs⟩
    exact ⟨hread, hread, by simp only [readHeader, hload, hn, hs],
      by simp only [readHeader, hload, hn], hptr⟩

/-- Behind a file that is read back the next header is read. -/
theorem next_readHeader (h : FileOk W m f (readHeader W m i p)) :
    W.sizeT ((readHeader W m i p).1.data + (readHeader W m i p).2.size) =
      W.sizeT (p + (fileHeaderSize W + f.data.length)) := by
  rw [h.nodeSize, readHeader, Width.sizeT, Width.sizeT, Width.sizeT, Nat.mod_add_mod,
    Nat.add_assoc]

/-- Files that are in memory with their headers are read back exactly if their sizes fit. -/
theorem filesOk_iff (hm : m.Holds p (fs.flatMap fun f => fileHeader W f ++ f.data))
    (hp : p + filesLength W fs ≤ 256 ^ W.bytes) :
    List.Forall₂ (FileOk W m) fs (readHeaders W m fs.length i (W.sizeT p)) ↔
      ∀ f ∈ fs, W = .four ∨ f.data.length < 2 ^ 31 := by
  induction fs generalizing i p with
  | nil => simp [readHeaders]
  | cons f fs ih =>
    rw [List.flatMap_cons, Mem.holds_append, List.length_append, length_fileHeader] at hm
    rw [filesLength_cons] at hp
    have hlt : p < 256 ^ W.bytes := by
      unfold fileHeaderSize at hp
      omega
    have hfile := fileOk_iff (i := i) hm.1 (by omega)
    rw [show W.sizeT p = p from Nat.mod_eq_of_lt hlt, List.length_cons, readHeaders,
      List.forall₂_cons, List.forall_mem_cons, hfile]
    refine and_congr_right fun hok => ?_
    rw [next_readHeader (hfile.2 hok)]
    exact ih hm.2 (by omega)

/-- The last byte of a file, or of its header if there is none, is known where it is read back. -/
theorem exists_lastByte (W : Width) (f : InputFile) : ∃ b : UInt8, ∀ (m : Mem) (i p : ℕ),
    p + fileHeaderSize W + f.data.length ≤ 256 ^ W.bytes → FileOk W m f (readHeader W m i p) →
    m (p + fileHeaderSize W + f.data.length - 1) = b := by
  by_cases hf : f.data = []
  · refine ⟨0, fun m i p hp h => ?_⟩
    have hzero : m.loadLE (p + 64) W.bytes = 0 := by
      have := h.nodeSize
      rwa [hf] at this
    have hpos : 0 < W.bytes := by cases W <;> decide
    have hlast := Mem.eq_zero_of_loadLE hzero (Nat.sub_lt hpos Nat.one_pos)
    rwa [hf, List.length_nil, fileHeaderSize, Nat.add_zero, ← Nat.add_assoc,
      Nat.add_sub_assoc hpos]
  · refine ⟨f.data.getLast hf, fun m i p hp h => ?_⟩
    have hlen : 0 < f.data.length := List.length_pos_of_ne_nil hf
    have hptr : (readHeader W m i p).1.data = p + fileHeaderSize W :=
      Nat.mod_eq_of_lt (by omega)
    exact hptr ▸ h.data.getLast hf

/-- Where the files are read back, the last of their bytes and headers is known. -/
theorem exists_last (hne : fs ≠ []) : ∃ b : UInt8, ∀ (m : Mem) (i p : ℕ),
    p + filesLength W fs ≤ 256 ^ W.bytes →
    List.Forall₂ (FileOk W m) fs (readHeaders W m fs.length i (W.sizeT p)) →
    m (p + filesLength W fs - 1) = b := by
  induction fs with
  | nil => exact absurd rfl hne
  | cons f fs ih =>
    have hhead : ∀ {m i p}, p + filesLength W (f :: fs) ≤ 256 ^ W.bytes →
        List.Forall₂ (FileOk W m) (f :: fs) (readHeaders W m (f :: fs).length i (W.sizeT p)) →
        FileOk W m f (readHeader W m i p) ∧ List.Forall₂ (FileOk W m) fs
          (readHeaders W m fs.length (i + 1)
            (W.sizeT (p + (fileHeaderSize W + f.data.length)))) := by
      intro m i p hp h
      rw [filesLength_cons] at hp
      have hlt : p < 256 ^ W.bytes := by
        unfold fileHeaderSize at hp
        omega
      rw [show W.sizeT p = p from Nat.mod_eq_of_lt hlt, List.length_cons, readHeaders,
        List.forall₂_cons] at h
      exact ⟨h.1, next_readHeader h.1 ▸ h.2⟩
    by_cases hfs : fs = []
    · obtain ⟨b, hb⟩ := exists_lastByte W f
      refine ⟨b, fun m i p hp h => ?_⟩
      have hlast : filesLength W (f :: fs) = fileHeaderSize W + f.data.length := by
        rw [hfs]
        rfl
      have := hb m i p (by omega) (hhead hp h).1
      rwa [hlast, ← Nat.add_assoc]
    · obtain ⟨b, hb⟩ := ih hfs
      refine ⟨b, fun m i p hp h => ?_⟩
      have hrest := (hhead hp h).2
      rw [filesLength_cons] at hp ⊢
      have := hb m (i + 1) (p + (fileHeaderSize W + f.data.length)) (by omega) hrest
      rwa [← Nat.add_assoc]

/-- Reading back an archive is reading back its files. -/
theorem initInitrdVfs_iff {fs : InputFiles} {a : ℕ}
    (hm : m.Holds a (bytesLE 4 initrdMagic ++ bytesLE W.bytes fs.files.length)) :
    (∃ r, initInitrdVfs W m a = some r ∧ r.numInitrdFiles = fs.files.length ∧
      List.Forall₂ (FileOk W m) fs.files r.files) ↔
      List.Forall₂ (FileOk W m) fs.files
        (readHeaders W m fs.files.length 0 (W.sizeT (a + globalHeaderSize W))) := by
  have hargc := fs.argc_lt
  rw [Mem.holds_append, length_bytesLE] at hm
  have hmagic : m.loadLE a 4 = initrdMagic := Mem.loadLE_of_holds hm.1
  have hbound : fs.files.length < 256 ^ W.bytes := by
    cases W <;> simp only [Width.bytes] <;> omega
  have hnum : u32 (m.loadLE (a + 4) W.bytes) = fs.files.length := by
    rw [Mem.loadLE_of_holds hm.2, Nat.mod_eq_of_lt hbound, u32_of_lt (by omega)]
  simp [initInitrdVfs, hmagic, hnum]

/-- Without the byte `0xff` the archive has all bytes of the files. -/
theorem mkinitrd_eq {fs : InputFiles} (h : ∀ f ∈ fs.files, 0xff ∉ f.data) :
    mkinitrd W fs = bytesLE 4 initrdMagic ++ bytesLE W.bytes fs.files.length ++
      fs.files.flatMap fun f => fileHeader W f ++ f.data := by
  rw [mkinitrd, List.flatMap_congr fun f hf => by rw [copyFile_eq_self (h f hf)]]

/-- Where a file has the byte `0xff` the memory behind the archive is read as well. -/
theorem RoundTrips.notMem {fs : InputFiles} (h : RoundTrips W fs)
    (hfit : archiveLength W fs ≤ 256 ^ W.bytes) : ∀ f ∈ fs.files, 0xff ∉ f.data := by
  by_contra hff
  push Not at hff
  have hlt := length_mkinitrd_lt (W := W) hff
  obtain ⟨f, hf, -⟩ := hff
  obtain ⟨b, hb⟩ := exists_last (W := W) (List.ne_nil_of_mem hf)
  -- the last byte of the full archive is not in memory
  obtain ⟨b', hne⟩ : ∃ b', b' ≠ b := by
    by_cases hb : b = 0
    · exact ⟨1, hb ▸ by decide⟩
    · exact ⟨0, Ne.symm hb⟩
  obtain ⟨m, hm, hbehind⟩ := Mem.exists_holds 0 (mkinitrd W fs) b'
  have hread := (initInitrdVfs_iff (Mem.holds_append.1 hm).1).1 (h m 0 (by omega) hm)
  rw [Nat.zero_add] at hread hbehind
  rw [archiveLength] at hfit hlt
  exact hne ((hbehind _ (by omega)).symm.trans (hb m 0 _ hfit hread))

end RoundTrip

/-- A file of two bytes. -/
def twoBytes : InputFile := ⟨[97], [1, 2], by decide, by decide⟩

/-- A file of the byte `0xff`. -/
def eofByte : InputFile := ⟨[97], [0xff], by decide, by decide⟩

end Kernel

end Bluejay
