import Bluejay.Lisp.Mark

/-!
# The roots of the collector

`_do_gc` of `gc.c` looks for live values on the stack.  C code that calls Lisp code pushes a
*segment*, which says where the Lisp frames below it start and end and which values the C code
retains.

* `Segment`, `gcPushSegment`, `gcPrepareCall` : the list of segments.
* `roots` : the values `_do_gc` calls `_mark` on, in this order; `doGc` marks them and sweeps.
* `Stack` : the shape of a stack of Lisp frames and C code; the words are those of the memory.
* `mem_roots_iff` : with `gc_base` as it is, the arguments and the retained values of the
  segments are the roots, and no word of a Lisp frame is.
* `rootsComplete_iff` : so all live words are marked exactly where each equals one of these.
-/

namespace Bluejay

namespace Lisp

/-- `struct gc_segment`; `prev` is the order of the list of segments. -/
structure Segment where
  segStart : ℕ
  segEnd : ℕ
  nargs : ℕ
  oldEbp : ℕ
  retained : List Word

/-- `gc_push_segment`.  The fields it does not set, and the retained values, are what
`malloc` returned. -/
def gcPushSegment (last_arg_addr : ℕ) (garbage : Segment) (old_ebp : ℕ) (segs : List Segment) :
    List Segment :=
  { garbage with
    segStart := if last_arg_addr ≠ 0 then last_arg_addr + 4 else 0
    oldEbp := old_ebp } :: segs

/-- `gc_prepare_call_`. -/
def gcPrepareCall (esp nargs : ℕ) : List Segment → List Segment
  | [] => []
  | seg :: segs => { seg with nargs := nargs, segEnd := esp + 4 + 4 * nargs } :: segs

/-- `value_t *gc_base`: it is zero at first, and nothing calls `gc_set_base_here`. -/
def gcBase : ℕ := 0

/-! ### `_do_gc` -/

section DoGc

variable (mem : ℕ → Word) (gc_base : ℕ)

/-- The `for` loop over one frame, for at most `n` words: the words it marks, and `esp_p`. -/
def markFrame (ebp_p : ℕ) : ℕ → ℕ → List Word × ℕ
  | 0, esp_p => ([], esp_p)
  | n + 1, esp_p =>
    if esp_p < ebp_p ∧ esp_p < gc_base then
      let (marked, esp_p') := markFrame ebp_p n (esp_p + 4)
      (mem esp_p :: marked, esp_p')
    else ([], esp_p)

/-- The `while` loop over the frames of a segment, for at most `n` frames. -/
def markFrames (seg_end : ℕ) : ℕ → ℕ → ℕ → List Word
  | 0, _, _ => []
  | n + 1, esp_p, ebp_p =>
    if esp_p < seg_end then
      let (marked, esp_p) := markFrame mem gc_base ebp_p (ebp_p - esp_p) esp_p
      marked ++ markFrames seg_end n (esp_p + 8) (mem esp_p)
    else []

/-- The arguments `_do_gc` finds for a segment. -/
def Segment.args (seg : Segment) : List Word :=
  (List.range seg.nargs).map fun i => mem (seg.segEnd + 4 + 4 * i)

/-- The values `_do_gc` calls `_mark` on. -/
def roots : List Segment → ℕ → ℕ → List Word
  | [], _, _ => []
  | seg :: segs, esp_p, ebp_p =>
    if seg.segStart = 0 then []
    else
      markFrames mem gc_base seg.segEnd (seg.segEnd - esp_p) esp_p ebp_p ++
        seg.args mem ++ seg.retained ++ roots segs seg.segStart seg.oldEbp

end DoGc

/-- `pool_alive`. -/
def poolAlive (pool : ℕ) : Bool := pool ≠ 0

/-- `_sweep`: what is neither in a living pool nor marked is freed. -/
def sweep (H : Heap) (pool : ℕ → ℕ) (gc_mark : ℕ) (s : Marks) : Heap where
  obj p := if poolAlive (pool p) ∨ s.mark p = gc_mark then H.obj p else none
  dom := H.dom.filter fun p => poolAlive (pool p) ∨ s.mark p = gc_mark
  mem_dom p := by
    rw [Finset.mem_filter, ← H.mem_dom]
    split_ifs with h <;> simp [h]

/-- `_do_gc`, with a depth of less than `n` for `_mark`. -/
def doGc (H : Heap) (pool : ℕ → ℕ) (mem : ℕ → Word) (segs : List Segment) (gc_mark n : ℕ)
    (s : Marks) (esp ebp : ℕ) : Option Heap :=
  ((roots mem gcBase segs esp ebp).foldlM (fun s v => mark H (gc_mark + 1) n v s)
    { s with marked := 0 }).map fun s => sweep H pool (gc_mark + 1) s

/-! ### Stacks -/

/-- The words of a Lisp frame, from its top on: pushed temporaries and arguments, then the
reserved slots; each says whether it holds a value the program still uses.  The saved `ebp` and
the return address follow. -/
structure Frame where
  temporaries : List Bool
  slots : List Bool

def Frame.size (f : Frame) : ℕ := f.temporaries.length + f.slots.length + 2

/-- C code below Lisp frames: it has called Lisp code with the words of `args`, holds `words`
words of its own above its return address, and retains values in its segment. -/
structure CCode where
  args : List Bool
  words : ℕ
  oldEbp : ℕ
  retained : List Word

def CCode.size (c : CCode) : ℕ := c.args.length + c.words + 1

/-- A stack, most recent first: Lisp frames and C code in any order, down to `main`. -/
inductive Stack
  | main (oldEbp : ℕ)
  | lisp (frame : Frame) (below : Stack)
  | c (code : CCode) (below : Stack)

/-- The addresses, from `esp` on, of the words that are live. -/
def liveAt (esp : ℕ) : List Bool → List ℕ
  | [] => []
  | live :: rest => (if live then [esp] else []) ++ liveAt (esp + 4) rest

namespace Stack

/-- The addresses of the live words of a stack whose top is at `esp`. -/
def live : ℕ → Stack → List ℕ
  | _, main _ => []
  | esp, lisp f below => liveAt esp (f.temporaries ++ f.slots) ++ below.live (esp + 4 * f.size)
  | esp, c code below => liveAt esp code.args ++ below.live (esp + 4 * code.size)

/-- The segments, for a stack whose top is at `esp`.  C code pushes its segment with the address
of its last argument, which is the first word below its return address. -/
def segments : ℕ → Stack → List Segment
  | esp, main oldEbp => gcPrepareCall esp 0 (gcPushSegment 0 ⟨0, 0, 0, 0, []⟩ oldEbp [])
  | esp, lisp f below => below.segments (esp + 4 * f.size)
  | esp, c code below =>
    gcPrepareCall (esp + 4 * code.args.length) code.args.length
      (gcPushSegment (esp + 4 * code.size) ⟨0, 0, 0, 0, code.retained⟩ code.oldEbp
        (below.segments (esp + 4 * code.size)))

/-- The values that are retained. -/
def retained : Stack → List Word
  | main _ => []
  | lisp _ below => below.retained
  | c code below => code.retained ++ below.retained

/-- The words `_do_gc` takes for the arguments C code has passed.  They start one return address
and the arguments *above* the stack pointer of the C code, where the C code's own words are. -/
def supposedArgs (mem : ℕ → Word) : ℕ → Stack → List Word
  | _, main _ => []
  | esp, lisp f below => below.supposedArgs mem (esp + 4 * f.size)
  | esp, c code below =>
    ((List.range code.args.length).map fun i =>
        mem (esp + 4 * code.args.length + 4 * (code.args.length + 2) + 4 * i)) ++
      below.supposedArgs mem (esp + 4 * code.size)

end Stack

/-- **What `_do_gc` is for**: before it sweeps it calls `_mark` on every live word of a Lisp frame
and on every retained value. -/
def RootsComplete (mem : ℕ → Word) (s : Stack) (esp ebp : ℕ) : Prop :=
  (∀ a ∈ s.live esp, mem a ∈ roots mem gcBase (s.segments esp) esp ebp) ∧
    ∀ v ∈ s.retained, v ∈ roots mem gcBase (s.segments esp) esp ebp

section Roots

variable (mem : ℕ → Word)

/-- No word of a frame is below `gc_base`. -/
theorem markFrame_gcBase (ebp_p n esp_p : ℕ) :
    markFrame mem gcBase ebp_p n esp_p = ([], esp_p) := by
  cases n with
  | zero => rfl
  | succ n => exact if_neg fun h => Nat.not_lt_zero _ h.2

theorem markFrames_gcBase (seg_end n esp_p ebp_p : ℕ) :
    markFrames mem gcBase seg_end n esp_p ebp_p = [] := by
  induction n generalizing esp_p ebp_p with
  | zero => rfl
  | succ n ih =>
    rw [markFrames]
    split_ifs
    · rw [markFrame_gcBase]
      exact ih _ _
    · rfl

/-- The roots are the supposed arguments and the retained values. -/
theorem mem_roots_iff {s : Stack} {esp esp_p ebp_p : ℕ} {v : Word} :
    v ∈ roots mem gcBase (s.segments esp) esp_p ebp_p ↔
      v ∈ s.supposedArgs mem esp ∨ v ∈ s.retained := by
  induction s generalizing esp esp_p ebp_p with
  | main oldEbp => simp [Stack.segments, gcPrepareCall, gcPushSegment, roots,
      Stack.supposedArgs, Stack.retained]
  | lisp f below ih => exact ih
  | c code below ih =>
    have hne : esp + 4 * code.size ≠ 0 := by unfold CCode.size; omega
    have hargs : ∀ i, esp + 4 * code.args.length + 4 + 4 * code.args.length + 4 + 4 * i =
        esp + 4 * code.args.length + 4 * (code.args.length + 2) + 4 * i := by omega
    simp only [Stack.segments, gcPrepareCall, gcPushSegment, if_pos hne, roots,
      markFrames_gcBase, Segment.args, hargs, Stack.supposedArgs, Stack.retained,
      List.mem_append, List.nil_append]
    rw [if_neg (Nat.succ_ne_zero _)]
    simp only [List.mem_append, ih]
    tauto

/-- **The roots are complete** exactly where each live word is also one of the words taken for
arguments, or a retained value. -/
theorem rootsComplete_iff {s : Stack} {esp ebp : ℕ} :
    RootsComplete mem s esp ebp ↔
      ∀ a ∈ s.live esp, mem a ∈ s.supposedArgs mem esp ∨ mem a ∈ s.retained := by
  simp only [RootsComplete, mem_roots_iff]
  exact and_iff_left fun v hv => .inr hv

end Roots

/-- **The value of a `let1` is not a root**: a frame with one live slot, called by `main`. -/
theorem not_rootsComplete_let1 : ¬ ∀ (mem : ℕ → Word) (s : Stack) (esp ebp : ℕ),
    RootsComplete mem s esp ebp := by
  intro h
  have hslot := (h (fun _ => 19) (.lisp ⟨[], [true]⟩ (.main 0)) 4096 4100).1 4096
    List.mem_cons_self
  exact absurd hslot (by decide)

end Lisp

end Bluejay
