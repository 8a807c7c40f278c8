import Bluejay.Kernel.Alloc
import Bluejay.Kernel.AllocSafety
import Bluejay.Kernel.AllocStore
import Bluejay.Kernel.Ext2
import Bluejay.Kernel.Ext2Bitmap
import Bluejay.Kernel.Ext2Blocks
import Bluejay.Kernel.Ext2Dir
import Bluejay.Kernel.Ext2Exact
import Bluejay.Kernel.Ext2Find
import Bluejay.Kernel.Ext2Free
import Bluejay.Kernel.Ext2Insert
import Bluejay.Kernel.Ext2Link
import Bluejay.Kernel.Ext2List
import Bluejay.Kernel.Ext2Read
import Bluejay.Kernel.Ext2Records
import Bluejay.Kernel.Ext2Search
import Bluejay.Kernel.Ext2Vfs
import Bluejay.Kernel.Finddir
import Bluejay.Kernel.Frames
import Bluejay.Kernel.FreeTiling
import Bluejay.Kernel.HeapDelete
import Bluejay.Kernel.HeapSearch
import Bluejay.Kernel.Initrd
import Bluejay.Kernel.InitrdRead
import Bluejay.Kernel.MallocTiling
import Bluejay.Kernel.MinHeap
import Bluejay.Kernel.Mounts
import Bluejay.Kernel.Paging
import Bluejay.Kernel.Pci
import Bluejay.Kernel.Printf
import Bluejay.Kernel.ReallocTiling
import Bluejay.Kernel.Release
import Bluejay.Kernel.RoundRobin
import Bluejay.Kernel.Semaphore
import Bluejay.Kernel.StringReads
import Bluejay.Kernel.Sync
import Bluejay.Kernel.Tables
import Bluejay.Kernel.Task
import Bluejay.Kernel.TaskList
import Bluejay.Kernel.TaskSafety
import Bluejay.Kernel.Terminal
import Bluejay.Kernel.Tiling
import Bluejay.Kernel.Vga
import Bluejay.Kernel.WaitQueue
import Bluejay.Kernel.WakeUp
import Bluejay.Lib.Bytes
import Bluejay.Lib.Chunks
import Bluejay.Lib.Emitter
import Bluejay.Lib.Extents
import Bluejay.Lib.Heights
import Bluejay.Lib.Layout
import Bluejay.Lib.Links
import Bluejay.Lib.Marking
import Bluejay.Lib.Outcome
import Bluejay.Lib.Recursive
import Bluejay.Lib.Search
import Bluejay.Lib.Store
import Bluejay.Lib.System
import Bluejay.Lib.Traced
import Bluejay.Lib.Window
import Bluejay.Lisp.Append
import Bluejay.Lisp.Apply
import Bluejay.Lisp.Backquote
import Bluejay.Lisp.Cells
import Bluejay.Lisp.Closures
import Bluejay.Lisp.Collections
import Bluejay.Lisp.Compiler
import Bluejay.Lisp.Concat
import Bluejay.Lisp.ControlFlow
import Bluejay.Lisp.Copies
import Bluejay.Lisp.DeepCopy
import Bluejay.Lisp.Definitions
import Bluejay.Lisp.Dolist
import Bluejay.Lisp.Emits
import Bluejay.Lisp.Epochs
import Bluejay.Lisp.Execution
import Bluejay.Lisp.Files
import Bluejay.Lisp.Frame
import Bluejay.Lisp.Gc
import Bluejay.Lisp.Grammar
import Bluejay.Lisp.Heap
import Bluejay.Lisp.Image
import Bluejay.Lisp.Invariants
import Bluejay.Lisp.Invocation
import Bluejay.Lisp.Istream
import Bluejay.Lisp.JumpLabels
import Bluejay.Lisp.Language
import Bluejay.Lisp.Leftovers
import Bluejay.Lisp.ListFunctions
import Bluejay.Lisp.Lists
import Bluejay.Lisp.Load
import Bluejay.Lisp.Machine
import Bluejay.Lisp.Mark
import Bluejay.Lisp.Numbers
import Bluejay.Lisp.Parameters
import Bluejay.Lisp.Passing
import Bluejay.Lisp.Pools
import Bluejay.Lisp.Programs
import Bluejay.Lisp.ReadErrors
import Bluejay.Lisp.Reader
import Bluejay.Lisp.References
import Bluejay.Lisp.RoundTrip
import Bluejay.Lisp.Routines
import Bluejay.Lisp.Scanner
import Bluejay.Lisp.Scope
import Bluejay.Lisp.Segments
import Bluejay.Lisp.SelfCalls
import Bluejay.Lisp.Semantics
import Bluejay.Lisp.Sexp
import Bluejay.Lisp.Silent
import Bluejay.Lisp.Sources
import Bluejay.Lisp.Splice
import Bluejay.Lisp.StackDiscipline
import Bluejay.Lisp.Sweep
import Bluejay.Lisp.TailCalls
import Bluejay.Lisp.TailFunctions
import Bluejay.Lisp.TailPositions
import Bluejay.Lisp.Template
import Bluejay.Lisp.Terms
import Bluejay.Lisp.Tidy
import Bluejay.Lisp.Tokens
import Bluejay.Lisp.Translation
import Bluejay.Lisp.Traversal
