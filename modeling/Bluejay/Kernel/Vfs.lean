import Bluejay.Kernel.Ext2
import Mathlib.Data.Nat.Notation

/-!
# The virtual file system

* `FsNode`, `VfsHeap` : the nodes and what the driver of `ext2_vfs.c` keeps of a directory, as far
  as memory is read or written as such a structure.
* `follow` : the node that the functions of `vfs.c` turn to.
-/

namespace Bluejay

namespace Kernel

/-- The tables of functions of the drivers. -/
inductive Vtable
  | ext2File
  | ext2Dir
  | initrd
  deriving DecidableEq

/-- `struct fs_node`.  Addresses are natural numbers, `NULL` is `0`. -/
structure FsNode where
  nameLen : ℕ
  name : ℕ → UInt8
  inode : ℕ
  flags : ℕ
  mask : ℕ
  gid : ℕ
  uid : ℕ
  size : ℕ
  /-- `dri_res_i`, and `dri_res_p`. -/
  driRes : ℕ
  vtable : Option Vtable
  mount : ℕ

/-- `struct fs_dirent`. -/
structure FsDirent where
  name : ℕ → UInt8
  nameLen : ℕ
  inode : ℕ

/-- `struct ext2_fs_dirent`. -/
structure Ext2FsDirent where
  node : ℕ
  name : ℕ → UInt8
  nameLen : ℕ
  inode : ℕ
  next : ℕ

/-- `struct ext2_fs_data`, with the pointer to the cached inode, its count and the entries. -/
structure Ext2FsData where
  cached : ℕ
  rc : ℕ
  dirent : ℕ

/-- Memory, as far as it is read or written as one of these structures. -/
structure VfsHeap where
  dirent : ℕ → Ext2FsDirent
  data : ℕ → Ext2FsData
  node : ℕ → FsNode

namespace VfsHeap

variable (h : VfsHeap) (a : ℕ)

def setDirent (x : Ext2FsDirent) : VfsHeap := { h with dirent := Function.update h.dirent a x }

def setData (x : Ext2FsData) : VfsHeap := { h with data := Function.update h.data a x }

def setNode (x : FsNode) : VfsHeap := { h with node := Function.update h.node a x }

/-- The field `next` of the entries. -/
def next : ℕ := (h.dirent a).next

end VfsHeap

/-- `FS_FILE` is `fsFile`; this is `FS_DIRECTORY`. -/
def fsDirectory : ℕ := 2

/-- `FS_MAX_NAME_LEN`. -/
def fsMaxNameLen : ℕ := 128

/-- `if (node->mount) node = node->mount`. -/
def follow (node : ℕ → FsNode) (n : ℕ) : ℕ := if (node n).mount ≠ 0 then (node n).mount else n

end Kernel

end Bluejay
