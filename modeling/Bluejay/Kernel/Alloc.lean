import Bluejay.Kernel.MinHeap
import Bluejay.Lib.System

/-!
# The kernel allocator

`alloc.c` hands out blocks of the arena `[malloc_base, 0xC0400000)`.  A block starts with a
`heap_alloc_header` (12 bytes: `magic`, `allocated`, `size`) and ends with a
`heap_alloc_footer` (4 bytes: `size`); sizes are those of the whole block.

* `malloc`, `free`, `realloc`, `initAllocator` are the functions of the file, on the bytes of
  memory.  Addresses are 32-bit, and the pointer arithmetic is C's: it counts in units of the
  pointer's type.
* `calls` is the system of all runs: the allocator's state together with the pointers the
  clients hold, under any sequence of `malloc`, `free` and `realloc` calls and of writes by
  the clients inside their payloads.  `Clients.run` executes such a sequence.

The array of the min-heap is a static object outside the arena and is kept apart from the
memory.
-/

namespace Bluejay

namespace Kernel

/-- `HEADER_SIZE`. -/
def headerSize : ℕ := 12

/-- `FOOTER_SIZE`. -/
def footerSize : ℕ := 4

/-- `HEAP_MAGIC`. -/
def heapMagic : ℕ := 0xCAFEBABE

/-- The end of the arena. -/
def arenaEnd : ℕ := 0xC0400000

/-- The arena: `malloc_base` is fixed by the linker, and leaves room for one header and
footer. -/
structure Layout where
  mallocBase : ℕ
  header_le : headerSize + footerSize ≤ mallocBase
  room : mallocBase + headerSize + footerSize ≤ arenaEnd

/-! ### Headers and footers -/

def magic (m : Mem) (h : ℕ) : ℕ := m.loadLE h 4

def allocated (m : Mem) (h : ℕ) : Bool := m (u32 (h + 4)) ≠ 0

def size (m : Mem) (h : ℕ) : ℕ := m.loadLE (u32 (h + 8)) 4

def setMagic (m : Mem) (h v : ℕ) : Mem := m.storeLE h 4 v

def setAllocated (m : Mem) (h : ℕ) (b : Bool) : Mem :=
  m.storeLE (u32 (h + 4)) 1 (if b then 1 else 0)

def setSize (m : Mem) (h v : ℕ) : Mem := m.storeLE (u32 (h + 8)) 4 v

/-- The `size` of a footer, its only field. -/
def footer (m : Mem) (f : ℕ) : ℕ := m.loadLE f 4

def setFooter (m : Mem) (f v : ℕ) : Mem := m.storeLE f 4 v

/-! ### The allocator -/

/-- The memory and the min-heap of free holes. -/
structure State where
  mem : Mem
  heap : MinHeap

def initAllocator (L : Layout) (m : Mem) : State :=
  let size := arenaEnd - L.mallocBase
  let m := m.memset L.mallocBase 0 size
  let m := setMagic m L.mallocBase heapMagic
  let m := setSize m L.mallocBase size
  let m := setAllocated m L.mallocBase false
  { mem := m
    heap := ⟨Function.update (fun _ => ⟨0, 0⟩) 0 ⟨size, L.mallocBase⟩, 1⟩ }

/-- The end of `malloc`: header and footer of the block handed out. -/
def claim (m : Mem) (addr full_size : ℕ) : Mem :=
  let f := sub32 (addr + full_size) footerSize
  let m := setAllocated m addr true
  let m := setMagic m addr heapMagic
  let m := setSize m addr full_size
  setFooter m f (size m addr)

/-- `malloc` once a hole `e`, at index `i` of the heap, is found for `full_size` bytes. -/
def mallocIn (s : State) (e : HeapEntry) (i full_size : ℕ) : Except Stop (ℕ × State) :=
  let old_size := size s.mem e.address
  let mem := u32 (e.address + headerSize)
  if full_size = old_size then
    (heapDelete s.heap i).map fun heap => (mem, { s with heap := heap })
  else
    let new_size := sub32 old_size full_size
    if new_size ≤ headerSize + footerSize + 8 then
      (heapDelete s.heap i).map fun heap => (mem, ⟨claim s.mem e.address old_size, heap⟩)
    else
      let old_f := sub32 (e.address + old_size) footerSize
      let new_header := u32 (e.address + full_size)
      let m := setSize s.mem new_header new_size
      let m := setFooter m old_f new_size
      (heapDecrease s.heap i ⟨new_size, new_header⟩).map fun heap =>
        (mem, ⟨claim m e.address full_size, heap⟩)

def malloc (s : State) (size : ℕ) : Except Stop (ℕ × State) :=
  let full_size := u32 (size + headerSize + footerSize)
  match heapLookupMin s.heap full_size false with
  | .ok (some (e, i), heap) =>
    if allocated s.mem e.address then
      .error (.panic "Gap already allocated (this should never happen)")
    else mallocIn ⟨s.mem, heap⟩ e i full_size
  | .ok (none, _) => .error (.panic "Whoops, malloc ran out of memory")
  | .error stop => .error stop

/-- The header of the block whose payload is at `mem`. -/
def blockOf (mem : ℕ) : ℕ := sub32 mem headerSize

/-- `prev_h` in `free`: the header the preceding footer leads to. -/
def prevHeader (m : Mem) (mem : ℕ) : ℕ :=
  let prev_f := sub32 (blockOf mem) footerSize
  u32 (sub32 prev_f (footer m prev_f) + footerSize)

/-- `next_h` in `free`, `next` in `realloc`. -/
def nextHeader (m : Mem) (mem : ℕ) : ℕ := u32 (blockOf mem + size m (blockOf mem))

/-- The test by which `free` takes `h` for the header of a free block. -/
def isFree (m : Mem) (h : ℕ) : Bool := magic m h == heapMagic && !allocated m h

def free (s : State) (mem : ℕ) : Except Stop State :=
  if mem = 0 then .ok s
  else
    let base := blockOf mem
    if magic s.mem base ≠ heapMagic then
      .error (.panic "Freeing memory not allocated with malloc()")
    else
      let prev_h := prevHeader s.mem mem
      let next_h := nextHeader s.mem mem
      let start := if isFree s.mem prev_h then prev_h else base
      let sz := size s.mem base
      let sz := if isFree s.mem prev_h then u32 (sz + size s.mem prev_h) else sz
      let sz := if isFree s.mem next_h then u32 (sz + size s.mem next_h) else sz
      let m := setAllocated s.mem start false
      let m := setMagic m start heapMagic
      let m := setSize m start sz
      (heapInsert s.heap ⟨sz, start⟩).map fun heap => ⟨m, heap⟩

/-- The test by which `realloc` grows the block in place. -/
def growsInPlace (m : Mem) (mem size' : ℕ) : Bool :=
  let next := nextHeader m mem
  !allocated m next &&
    decide (size' ≤ sub32 (size m next + size m (blockOf mem)) (headerSize + footerSize))

/-- `realloc` in place. -/
def growInPlace (s : State) (mem size' : ℕ) : Except Stop (ℕ × State) :=
  let base := blockOf mem
  let next := nextHeader s.mem mem
  let remaining :=
    sub32 (size s.mem base + size s.mem next) (size' + headerSize + footerSize)
  let old_entry : HeapEntry := ⟨size s.mem next, next⟩
  let finish := fun (m : Mem) (f : ℕ) (heap : MinHeap) =>
    let full_size := u32 (sub32 f base + footerSize)
    let m := setFooter m f full_size
    let m := setSize m base full_size
    let m := setMagic m base heapMagic
    let m := setAllocated m base true
    (mem, (⟨m, heap⟩ : State))
  if remaining ≤ headerSize + footerSize + 8 then
    -- `next + next->size - FOOTER_SIZE` counts in headers, not in bytes
    let f := sub32 (next + headerSize * size s.mem next) (headerSize * footerSize)
    (heapDeleteEntry s.heap old_entry).map fun heap => finish s.mem f heap
  else
    let f := u32 (mem + size')
    -- `f + FOOTER_SIZE` counts in footers, `new_h + remaining - FOOTER_SIZE` in headers
    let new_h := u32 (f + footerSize * footerSize)
    let new_f := sub32 (new_h + headerSize * remaining) (headerSize * footerSize)
    let m := setAllocated s.mem new_h false
    let m := setFooter m new_f remaining
    let m := setSize m new_h remaining
    let m := setMagic m new_h heapMagic
    (heapDecreaseEntry s.heap old_entry ⟨remaining, new_h⟩).map fun heap => finish m f heap

/-- `memcpy(new, mem, base->size - HEADER_SIZE - FOOTER_SIZE)` in `realloc`. -/
def copyPayload (s : State) (new mem : ℕ) : State :=
  { s with mem := s.mem.memcpy new mem (sub32 (size s.mem (blockOf mem))
      (headerSize + footerSize)) }

def realloc (s : State) (mem size' : ℕ) : Except Stop (ℕ × State) :=
  if mem = 0 then .ok (0, s)
  else if growsInPlace s.mem mem size' then growInPlace s mem size'
  else
    match malloc s size' with
    | .error stop => .error stop
    | .ok (new, s₁) =>
      if new = 0 then .ok (new, s₁)
      else (free (copyPayload s₁ new mem) mem).map fun s₂ => (new, s₂)

/-! ### Runs -/

/-- The allocator, and the live pointers with the sizes that were asked for. -/
structure Clients where
  state : State
  live : List (ℕ × ℕ)

/-- What the clients of the allocator can do. -/
inductive Call
  | malloc (n : ℕ)
  | free (p : ℕ)
  | realloc (p n : ℕ)
  | write (a : ℕ) (b : UInt8)

/-- The step of one call.  `free` and `realloc` are given live pointers, and clients write
inside their own payloads. -/
inductive CallStep : Clients → Call → Clients → Prop
  | malloc {s s' : State} {live : List (ℕ × ℕ)} {n p : ℕ} (hn : n < 2 ^ 32)
      (h : malloc s n = .ok (p, s')) : CallStep ⟨s, live⟩ (.malloc n) ⟨s', (p, n) :: live⟩
  | free {s s' : State} {live : List (ℕ × ℕ)} {p n : ℕ} (hp : (p, n) ∈ live)
      (h : free s p = .ok s') : CallStep ⟨s, live⟩ (.free p) ⟨s', live.erase (p, n)⟩
  | realloc {s s' : State} {live : List (ℕ × ℕ)} {p m n q : ℕ} (hp : (p, m) ∈ live)
      (hn : n < 2 ^ 32) (h : realloc s p n = .ok (q, s')) :
      CallStep ⟨s, live⟩ (.realloc p n) ⟨s', (q, n) :: live.erase (p, m)⟩
  | write {s : State} {live : List (ℕ × ℕ)} {p n a : ℕ} {b : UInt8} (hp : (p, n) ∈ live)
      (ha : p ≤ a ∧ a < p + n) :
      CallStep ⟨s, live⟩ (.write a b) ⟨{ s with mem := Function.update s.mem a b }, live⟩

/-- All runs of the allocator and its clients. -/
def calls : System Clients Call := ⟨CallStep⟩

/-- The state `init_allocator` sets up on a machine with memory `m`. -/
def start (L : Layout) (m : Mem) : Clients := ⟨initAllocator L m, []⟩

/-- One call, executed. -/
def Clients.call (c : Clients) : Call → Option Clients
  | .malloc n =>
    match malloc c.state n with
    | .ok (p, s) => if n < 2 ^ 32 then some ⟨s, (p, n) :: c.live⟩ else none
    | .error _ => none
  | .free p =>
    match c.live.find? (·.1 == p), free c.state p with
    | some x, .ok s => some ⟨s, c.live.erase x⟩
    | _, _ => none
  | .realloc p n =>
    match c.live.find? (·.1 == p), realloc c.state p n with
    | some x, .ok (q, s) => if n < 2 ^ 32 then some ⟨s, (q, n) :: c.live.erase x⟩ else none
    | _, _ => none
  | .write a b =>
    match c.live.find? fun x => x.1 ≤ a && a < x.1 + x.2 with
    | some _ => some { c with state := { c.state with mem := Function.update c.state.mem a b } }
    | none => none

/-- A list of calls, executed. -/
def Clients.run (c : Clients) : List Call → Option Clients
  | [] => some c
  | l :: ls => (c.call l).bind fun c => c.run ls

theorem callStep_of_call {c c' : Clients} {l : Call} (h : c.call l = some c') :
    CallStep c l c' := by
  cases l with
  | malloc n =>
    simp only [Clients.call] at h
    split at h
    · split_ifs at h with hn
      cases h
      exact .malloc hn ‹_›
    · cases h
  | free p =>
    simp only [Clients.call] at h
    split at h
    · rename_i x s hx hs
      cases h
      have hp := List.find?_some hx
      obtain rfl := beq_iff_eq.1 hp
      exact .free (List.mem_of_find?_eq_some hx) hs
    · cases h
  | realloc p n =>
    simp only [Clients.call] at h
    split at h
    · rename_i x q s hx hs
      split_ifs at h with hn
      cases h
      have hp := List.find?_some hx
      obtain rfl := beq_iff_eq.1 hp
      exact .realloc (List.mem_of_find?_eq_some hx) hn hs
    · cases h
  | write a b =>
    simp only [Clients.call] at h
    split at h
    · rename_i x hx
      cases h
      have ha := List.find?_some hx
      simp only [Bool.and_eq_true, decide_eq_true_eq] at ha
      exact .write (List.mem_of_find?_eq_some hx) ha
    · cases h

/-- What executing calls leads to is reachable. -/
theorem reachable_of_run {c₀ c c' : Clients} {ls : List Call} (h : calls.Reachable c₀ c)
    (hr : c.run ls = some c') : calls.Reachable c₀ c' := by
  induction ls generalizing c with
  | nil => cases hr; exact h
  | cons l ls ih =>
    obtain ⟨d, hd, hr⟩ := Option.bind_eq_some_iff.1 hr
    exact ih (h.tail (callStep_of_call hd)) hr

end Kernel

end Bluejay
