import Bluejay.Lib.Layout
import Bluejay.Lisp.Lists

/-!
# `concat`

Here the texts of strings are bytes in memory, and the blocks that `malloc` has given out have
their sizes.  The cells of lists are kept beside them.

* `Libc.Ok` : what `l_concat` relies on in `malloc` and `realloc`; a fresh byte has any value.
* `lConcat`, `lStringLength` : `l_concat` and `l_string_length`.
* `Text` : a string of a given text, whose terminator is inside its block.
* `lConcat_spec` : the result has the bytes of all the strings, and its block ends there.
* `not_concat` : so the terminator is never inside the block.
* `strlen_concat` : the length is the sum exactly if the byte behind the block happens to be zero.
-/

namespace Bluejay

namespace Lisp

/-! ### Memory in blocks -/

/-- Memory, with the addresses and sizes of the blocks that are in use. -/
structure Ram where
  mem : Mem
  blocks : List (ℕ × ℕ)

/-- `sizeof(struct alloc)` -/
def allocSize : ℕ := 16

namespace Ram

/-- The block at `p` is given back. -/
def release (m : Ram) (p : ℕ) : Ram := { m with blocks := m.blocks.filter fun b => b.1 ≠ p }

/-- `memcpy` to the offset `offset` of the block at `p`; undefined if that is not in the block. -/
def memcpy (m : Ram) (p offset src n : ℕ) : Option Ram :=
  if m.blocks.any fun b => b.1 = p && offset + n ≤ b.2 then
    some { m with mem := m.mem.memcpy (p + offset) src n }
  else none

end Ram

/-- `malloc_aligned` and `realloc_aligned`; `none` is a null pointer, through which the callers
write. -/
structure Libc where
  malloc : ℕ → Ram → Option (ℕ × Ram)
  realloc : ℕ → ℕ → Ram → Option (ℕ × Ram)

/-- The memory `m'` is `m` with a new block of `n` bytes at `p`, of any contents. -/
structure NewBlock (m m' : Ram) (p n : ℕ) : Prop where
  aligned : p % 8 = 0
  pos : 0 < p
  fits : p + n < 2 ^ 32
  blocks : ∀ b, b ∈ m'.blocks ↔ b = (p, n) ∨ b ∈ m.blocks
  apart : ∀ q k, (q, k) ∈ m.blocks → q ≠ p ∧ (q + k ≤ p ∨ p + n ≤ q)
  keeps : ∀ q k, (q, k) ∈ m.blocks → ∀ i, q ≤ i → i < q + k → m'.mem i = m.mem i

/-- What `malloc` and `realloc` are documented to do. -/
structure Libc.Ok (C : Libc) : Prop where
  malloc : ∀ {m m' p n}, C.malloc n m = some (p, m') → NewBlock m m' p n
  realloc : ∀ {m m' p q n k}, C.realloc p n m = some (q, m') → (p, k) ∈ m.blocks →
    NewBlock (m.release p) m' q n ∧ ∀ i < min k n, m'.mem (q + i) = m.mem (p + i)

/-- Memory and the list of all allocations. -/
structure Arena extends Ram where
  firstA : ℕ
  lastA : ℕ
  currentPool : ℕ

/-- `add_this_alloc`.  The fields are `type_tag` at 0, `prev` at 4, `next` at 8, `pool` at 12 and
the 24 bits of `mark` behind it. -/
def addThisAlloc (s : Arena) (a tag : ℕ) : Arena :=
  let mem := ((s.mem.storeLE (a + 13) 3 (2 ^ 24 - 1)).storeLE a 4 tag).storeLE (a + 12) 1
    s.currentPool
  if s.lastA ≠ 0 then
    { s with
      mem := ((mem.storeLE (a + 4) 4 s.lastA).storeLE (s.lastA + 8) 4 a).storeLE (a + 8) 4 0
      lastA := a }
  else { s with mem := (mem.storeLE (a + 8) 4 0).storeLE (a + 4) 4 0, firstA := a, lastA := a }

/-! ### `l_string_length` and `l_concat` -/

/-- `strlen`, for a string that ends before memory does. -/
def strlen (m : Mem) (a : ℕ) : ℕ := (m.readString a (2 ^ 32 - a)).length

/-- `l_string_length`. -/
def lStringLength (string : Word) (m : Mem) : Word :=
  if !stringp string then intval 0 else intval (strlen m (pointer string))

/-- The loop of `l_concat`, for at most `n` turns; sizes are 32-bit numbers. -/
def concatLoop (C : Libc) (H : Heap) : ℕ → Word → ℕ → ℕ → Ram → Option (ℕ × Ram)
  | 0, _, _, _, _ => none
  | n + 1, str, stringAlloc, lengths, m =>
    if nilp str then some (stringAlloc, m)
    else if !stringp (H.car str) then concatLoop C H n (H.cdr str) stringAlloc lengths m
    else do
      let len := strlen m.mem (pointer (H.car str))
      let (stringAlloc, m) ← C.realloc stringAlloc (u32 (allocSize + lengths + len)) m
      let m ← m.memcpy stringAlloc (u32 (allocSize + lengths)) (pointer (H.car str)) len
      concatLoop C H n (H.cdr str) stringAlloc (u32 (lengths + len)) m

/-- `l_concat`, for at most `n` turns. -/
def lConcat (C : Libc) (H : Heap) (n : ℕ) (strings : Word) (s : Arena) : Option (Word × Arena) := do
  let (stringAlloc, m) ← C.malloc allocSize s.toRam
  let (stringAlloc, m) ← concatLoop C H n strings stringAlloc 0 m
  let s := addThisAlloc { s with toRam := m } stringAlloc stringTag
  return ((stringAlloc + allocSize) ||| stringTag, s)

/-! ### Strings -/

/-- The value `v` is a string of the text `xs`; the terminator is inside its block. -/
structure Text (m : Ram) (v : Word) (xs : List UInt8) : Prop where
  string : stringp v = true
  header : allocSize ≤ pointer v
  inside : ∃ k, (pointer v - allocSize, k) ∈ m.blocks ∧ allocSize + xs.length < k
  holds : m.mem.Holds (pointer v) xs
  terminated : m.mem (pointer v + xs.length) = 0
  nonzero : 0 ∉ xs

/-- The value `v` contributes the text `xs`. -/
inductive TextPart (m : Ram) (v : Word) : List UInt8 → Prop
  | text {xs : List UInt8} (h : Text m v xs) : TextPart m v xs
  | skipped (h : stringp v = false) : TextPart m v []

/-- Blocks lie in memory, and the last allocation is one of them. -/
structure Arena.Wf (s : Arena) : Prop where
  fits : ∀ p k, (p, k) ∈ s.blocks → p + k < 2 ^ 32
  last : s.lastA ≠ 0 → ∃ k, allocSize ≤ k ∧ (s.lastA, k) ∈ s.blocks

/-- `l_concat` returns a string of the text `xs`. -/
def ReturnsText (C : Libc) (H : Heap) (strings : Word) (s : Arena) (xs : List UInt8) : Prop :=
  ∃ N, ∀ n ≥ N, ∃ v s', lConcat C H n strings s = some (v, s') ∧ Text s'.toRam v xs

/-! ### The loop -/

/-- The block at `p` of `m` has `n` bytes and holds the text `xs` behind its header; what was in use
in `m₀` is as it was. -/
structure TextBlock (m₀ m : Ram) (p n : ℕ) (xs : List UInt8) : Prop where
  aligned : p % 8 = 0
  pos : 0 < p
  fits : p + n < 2 ^ 32
  room : allocSize + xs.length ≤ n
  block : ∀ k, (p, k) ∈ m.blocks ↔ k = n
  holds : m.mem.Holds (p + allocSize) xs
  kept : ∀ q k, (q, k) ∈ m₀.blocks → (q, k) ∈ m.blocks
  apart : ∀ q k, (q, k) ∈ m₀.blocks → q ≠ p ∧ (q + k ≤ p ∨ p + n ≤ q)
  keeps : ∀ q k, (q, k) ∈ m₀.blocks → ∀ i, q ≤ i → i < q + k → m.mem i = m₀.mem i

section Concat

variable {C : Libc} {H : Heap} {m₀ m m' m₁ : Ram} {s s' : Arena} {p q n n' k a len : ℕ}
  {v str strings : Word} {xs ys : List UInt8} {vs : List Word} {xss : List (List UInt8)}

theorem strlen_of_holds {m : Mem} (h : m.Holds a xs) (hend : m (a + xs.length) = 0)
    (hxs : 0 ∉ xs) (hfits : a + xs.length < 2 ^ 32) : strlen m a = xs.length := by
  rw [strlen, Mem.readString_of_holds h hend hxs (by omega)]

theorem NewBlock.block (h : NewBlock m m' p n) (k : ℕ) : (p, k) ∈ m'.blocks ↔ k = n := by
  rw [h.blocks]
  constructor
  · rintro (heq | hold)
    · exact (Prod.mk.inj heq).2
    · exact absurd rfl (h.apart p k hold).1
  · rintro rfl
    exact .inl rfl

theorem NewBlock.textBlock (h : NewBlock m₀ m p allocSize) : TextBlock m₀ m p allocSize [] where
  aligned := h.aligned
  pos := h.pos
  fits := h.fits
  room := le_rfl
  block := h.block
  holds := trivial
  kept := fun _ _ hq => (h.blocks _).2 (.inr hq)
  apart := h.apart
  keeps := h.keeps

theorem mem_release : (q, k) ∈ (m.release p).blocks ↔ (q, k) ∈ m.blocks ∧ q ≠ p := by
  simp [Ram.release]

/-- The block is made larger, and perhaps moved. -/
theorem TextBlock.realloc (h : TextBlock m₀ m p n xs) (hC : C.Ok)
    (hrealloc : C.realloc p n' m = some (q, m')) (hn : n ≤ n') : TextBlock m₀ m' q n' xs := by
  obtain ⟨hnew, hmoved⟩ := hC.realloc hrealloc ((h.block n).2 rfl)
  have hroom := h.room
  have hrel {a k : ℕ} (ha : (a, k) ∈ m₀.blocks) : (a, k) ∈ (m.release p).blocks :=
    mem_release.2 ⟨h.kept a k ha, (h.apart a k ha).1⟩
  refine ⟨hnew.aligned, hnew.pos, hnew.fits, hroom.trans hn, hnew.block, ?_,
    fun a k ha => (hnew.blocks _).2 (.inr (hrel ha)), fun a k ha => hnew.apart a k (hrel ha),
    fun a k ha i h₁ h₂ => ?_⟩
  · refine h.holds.shift fun i hi => ?_
    rw [Nat.add_assoc, hmoved _ (by omega), Nat.add_assoc]
  · exact (hnew.keeps a k (hrel ha) i h₁ h₂).trans (h.keeps a k ha i h₁ h₂)

/-- A copy to a block is inside of it. -/
theorem Ram.memcpy_eq_some {offset src : ℕ} (h : m.memcpy p offset src len = some m') :
    ∃ k, (p, k) ∈ m.blocks ∧ offset + len ≤ k ∧
      m' = { m with mem := m.mem.memcpy (p + offset) src len } := by
  unfold Ram.memcpy at h
  split_ifs at h with hany
  obtain ⟨⟨a, k⟩, hb, hin⟩ := List.any_eq_true.1 hany
  simp only [Bool.and_eq_true, decide_eq_true_eq] at hin
  obtain ⟨rfl, hin⟩ := hin
  exact ⟨k, hb, hin, (Option.some.inj h).symm⟩

/-- Where the bytes of a text are. -/
theorem Text.bytes (h : Text m₀ v ys) : ∃ q k, (q, k) ∈ m₀.blocks ∧ q ≤ pointer v ∧
    pointer v + ys.length < q + k := by
  obtain ⟨k, hk, hin⟩ := h.inside
  have hheader := h.header
  exact ⟨_, k, hk, Nat.sub_le .., by omega⟩

/-- The texts of the strings stay. -/
theorem TextBlock.text (h : TextBlock m₀ m p n xs) (hv : Text m₀ v ys) :
    m.mem.Holds (pointer v) ys ∧ m.mem (pointer v + ys.length) = 0 := by
  obtain ⟨q, k, hq, hle, hlt⟩ := hv.bytes
  constructor
  · exact hv.holds.congr fun i h₁ h₂ => h.keeps q k hq i (by omega) (by omega)
  · rw [h.keeps q k hq _ (by omega) hlt, hv.terminated]

theorem TextBlock.strlen (h : TextBlock m₀ m p n xs)
    (hfits : ∀ q k, (q, k) ∈ m₀.blocks → q + k < 2 ^ 32) (hv : Text m₀ v ys) :
    strlen m.mem (pointer v) = ys.length := by
  obtain ⟨q, k, hq, -, hlt⟩ := hv.bytes
  obtain ⟨hholds, hend⟩ := h.text hv
  exact strlen_of_holds hholds hend hv.nonzero (hlt.trans (hfits q k hq))

/-- A text is put behind the others. -/
theorem TextBlock.append (h : TextBlock m₀ m p n xs) (hv : Text m₀ v ys)
    (hroom : allocSize + xs.length + ys.length ≤ n) :
    TextBlock m₀ { m with mem := m.mem.memcpy (p + (allocSize + xs.length)) (pointer v) ys.length }
      p n (xs ++ ys) := by
  obtain ⟨a, k, ha, hle, hlt⟩ := hv.bytes
  have hapart := (h.apart a k ha).2
  refine ⟨h.aligned, h.pos, h.fits, by rw [List.length_append]; omega, h.block, ?_, h.kept, h.apart,
    fun b k hb i h₁ h₂ => ?_⟩
  · rw [Mem.holds_append, ← Nat.add_assoc]
    constructor
    · exact h.holds.congr fun i h₁ h₂ => Mem.memcpy_of_out (by omega)
    · exact (h.text hv).1.shift fun i hi => Mem.memcpy_of_disjoint (by omega) hi
  · have hapart := (h.apart b k hb).2
    exact (Mem.memcpy_of_out (by omega)).trans (h.keeps b k hb i h₁ h₂)

/-- One string.  The copy is inside of the block, so its size did not wrap. -/
theorem TextBlock.step (hC : C.Ok) (h : TextBlock m₀ m p (allocSize + xs.length) xs)
    (hv : Text m₀ v ys)
    (hrealloc : C.realloc p (u32 (allocSize + xs.length + ys.length)) m = some (q, m₁))
    (hcopy : m₁.memcpy q (u32 (allocSize + xs.length)) (pointer v) ys.length = some m') :
    u32 (xs.length + ys.length) = (xs ++ ys).length ∧
      TextBlock m₀ m' q (allocSize + (xs ++ ys).length) (xs ++ ys) := by
  have hfits := h.fits
  have hoffset : u32 (allocSize + xs.length) = allocSize + xs.length := u32_of_lt (by omega)
  rw [hoffset] at hcopy
  obtain ⟨k, hk, hin, rfl⟩ := Ram.memcpy_eq_some hcopy
  have hsize : u32 (allocSize + xs.length + ys.length) = allocSize + xs.length + ys.length := by
    obtain ⟨hnew, -⟩ := hC.realloc hrealloc ((h.block _).2 rfl)
    obtain rfl := (hnew.block k).1 hk
    exact le_antisymm (Nat.mod_le _ _) hin
  rw [hsize] at hrealloc
  have happend := (h.realloc hC hrealloc (Nat.le_add_right _ _)).append hv le_rfl
  rw [Nat.add_assoc, ← List.length_append] at happend
  have hlt := happend.fits
  rw [List.length_append] at hlt
  exact ⟨by rw [List.length_append, u32_of_lt (by omega)], happend⟩

/-- The loop puts all texts behind the header. -/
theorem concatLoop_spec (hC : C.Ok) (hfits : ∀ q k, (q, k) ∈ m₀.blocks → q + k < 2 ^ 32)
    (hparts : List.Forall₂ (TextPart m₀) vs xss) (hl : ListOf H str vs)
    (h : TextBlock m₀ m p (allocSize + xs.length) xs)
    (hrun : concatLoop C H n str p xs.length m = some (q, m')) :
    TextBlock m₀ m' q (allocSize + (xs ++ xss.flatten).length) (xs ++ xss.flatten) := by
  induction hparts generalizing n str p m xs with
  | nil =>
    cases n with
    | zero => cases hrun
    | succ n =>
      obtain rfl : str = nil := hl
      obtain ⟨rfl, rfl⟩ := Prod.mk.inj (Option.some.inj hrun)
      simpa using h
  | @cons v ys vs xss hv hparts ih =>
    cases n with
    | zero => cases hrun
    | succ n =>
      have hnil : ¬ nilp str = true := fun hnil => by simpa using hl.nilp_iff.1 hnil
      rw [concatLoop, if_neg hnil, hl.car] at hrun
      cases hv with
      | skipped hstr =>
        rw [hstr] at hrun
        exact ih hl.cdr h hrun
      | text hv =>
        rw [hv.string, h.strlen hfits hv] at hrun
        simp only [Bool.not_true, Bool.false_eq_true, ↓reduceIte, Option.bind_eq_bind,
          Option.bind_eq_some_iff] at hrun
        obtain ⟨⟨r, m₁⟩, hrealloc, m₂, hcopy, hrun⟩ := hrun
        obtain ⟨hlen, hstep⟩ := h.step hC hv hrealloc hcopy
        rw [hlen] at hrun
        have hrest := ih hl.cdr hstep hrun
        rwa [List.append_assoc] at hrest

/-- `add_this_alloc` writes to the header, and to that of the last allocation. -/
theorem addThisAlloc_of_out {p i : ℕ} (s : Arena) (tag : ℕ) (hi : p + allocSize ≤ i)
    (hlast : s.lastA ≠ 0 → i < s.lastA + 8 ∨ s.lastA + 12 ≤ i) :
    (addThisAlloc s p tag).mem i = s.mem i := by
  have hsize : allocSize = 16 := rfl
  rw [addThisAlloc]
  split_ifs with h
  · have hout := hlast h
    dsimp only
    iterate 6 rw [Mem.storeLE_of_out (by omega)]
  · dsimp only
    iterate 5 rw [Mem.storeLE_of_out (by omega)]

@[simp] theorem addThisAlloc_blocks (s : Arena) (p tag : ℕ) :
    (addThisAlloc s p tag).blocks = s.blocks := by
  unfold addThisAlloc
  split_ifs <;> rfl

/-- The value `v` is a string whose block ends with the last byte of the text `xs`. -/
structure Unterminated (m : Ram) (v : Word) (xs : List UInt8) : Prop where
  string : stringp v = true
  block : ∀ k, (pointer v - allocSize, k) ∈ m.blocks ↔ k = allocSize + xs.length
  holds : m.mem.Holds (pointer v) xs
  fits : pointer v + xs.length < 2 ^ 32

theorem Unterminated.not_text (h : Unterminated m v xs) : ¬ Text m v xs := by
  intro ht
  obtain ⟨k, hk, hlt⟩ := ht.inside
  exact absurd ((h.block k).1 hk) (Nat.ne_of_gt hlt)

theorem stringValue {p : ℕ} (h : p % 8 = 0) :
    stringp ((p + allocSize) ||| stringTag) = true ∧
      pointer ((p + allocSize) ||| stringTag) = p + allocSize := by
  have hor : (p + allocSize) ||| stringTag = p + allocSize + stringTag := by
    have hmul := Nat.two_pow_add_eq_or_of_lt (i := 3) (b := stringTag) (by decide) ((p + 16) / 8)
    have hdiv : 2 ^ 3 * ((p + 16) / 8) = p + allocSize := by
      rw [allocSize]
      omega
    rw [← hdiv, hmul]
  rw [hor]
  constructor
  · exact decide_eq_true (show (p + 16 + 3) % 8 = 3 by omega)
  · show p + 16 + 3 - (p + 16 + 3) % 8 = p + 16
    omega

/-- **What `concat` returns**: the bytes of all the strings in order, and nothing behind them. -/
theorem lConcat_spec (hC : C.Ok) (hs : s.Wf) (hl : ListOf H strings vs)
    (hparts : List.Forall₂ (TextPart s.toRam) vs xss)
    (hrun : lConcat C H n strings s = some (v, s')) : Unterminated s'.toRam v xss.flatten := by
  simp only [lConcat, Option.bind_eq_bind, Option.bind_eq_some_iff] at hrun
  obtain ⟨⟨p, m⟩, hmalloc, ⟨q, m'⟩, hloop, hrun⟩ := hrun
  obtain ⟨rfl, rfl⟩ := Prod.mk.inj (Option.some.inj hrun)
  have hstart : TextBlock s.toRam _ _ (allocSize + ([] : List UInt8).length) [] :=
    (hC.malloc hmalloc).textBlock
  have h := concatLoop_spec hC hs.fits hparts hl hstart hloop
  rw [List.nil_append] at h
  obtain ⟨hstring, hpointer⟩ := stringValue h.aligned
  have hfits := h.fits
  refine ⟨hstring, fun k => ?_, ?_, ?_⟩
  · rw [hpointer, Nat.add_sub_cancel, addThisAlloc_blocks]
    exact h.block k
  · rw [hpointer]
    refine h.holds.congr fun i h₁ h₂ => addThisAlloc_of_out _ _ h₁ fun hlast => ?_
    obtain ⟨k, hk, hblock⟩ := hs.last hlast
    have hapart := (h.apart _ k hblock).2
    have hsize : allocSize = 16 := rfl
    dsimp only
    omega
  · rw [hpointer]
    omega

theorem zero_notMem_of_parts (h : List.Forall₂ (TextPart m) vs xss) : 0 ∉ xss.flatten := by
  induction h with
  | nil => simp
  | cons hv hparts ih =>
    rw [List.flatten_cons, List.mem_append, not_or]
    cases hv with
    | text hv => exact ⟨hv.nonzero, ih⟩
    | skipped => exact ⟨List.not_mem_nil, ih⟩

/-- The length is right by accident. -/
theorem strlen_concat (hC : C.Ok) (hs : s.Wf) (hl : ListOf H strings vs)
    (hparts : List.Forall₂ (TextPart s.toRam) vs xss)
    (hrun : lConcat C H n strings s = some (v, s')) :
    strlen s'.mem (pointer v) = xss.flatten.length ↔
      s'.mem (pointer v + xss.flatten.length) = 0 := by
  have h := lConcat_spec hC hs hl hparts hrun
  have hfits := h.fits
  constructor
  · intro hlen
    rw [strlen, Mem.readString_append h.holds (zero_notMem_of_parts hparts) (by omega),
      List.length_append, Nat.add_eq_left, List.length_eq_zero_iff] at hlen
    obtain ⟨k, hk⟩ : ∃ k, 2 ^ 32 - pointer v - xss.flatten.length = k + 1 :=
      ⟨2 ^ 32 - pointer v - xss.flatten.length - 1, by omega⟩
    rw [hk, Mem.readString] at hlen
    by_contra hne
    rw [if_neg hne] at hlen
    cases hlen
  · intro hend
    exact strlen_of_holds h.holds hend (zero_notMem_of_parts hparts) hfits

/-- **`concat` never returns a proper string**: there is no place for the terminator. -/
theorem not_concat (hC : C.Ok) (hs : s.Wf) (hl : ListOf H strings vs)
    (hparts : List.Forall₂ (TextPart s.toRam) vs xss) :
    ¬ ReturnsText C H strings s xss.flatten := by
  rintro ⟨N, hN⟩
  obtain ⟨v, s', hrun, htext⟩ := hN N le_rfl
  exact (lConcat_spec hC hs hl hparts hrun).not_text htext

end Concat

/-! ### An allocator -/

/-- The first address behind all blocks where a block can be. -/
def freeAddress (blocks : List (ℕ × ℕ)) : ℕ :=
  (blocks.foldr (fun b top => max (b.1 + b.2 + 1) top) 1 + 7) / 8 * 8

/-- An allocator that always takes fresh memory. -/
def bumpLibc : Libc where
  malloc n m :=
    let p := freeAddress m.blocks
    if p + n < 2 ^ 32 then some (p, { m with blocks := (p, n) :: m.blocks }) else none
  realloc p n m :=
    let q := freeAddress m.blocks
    if q + n < 2 ^ 32 then
      some (q, ⟨fun i => if q ≤ i ∧ i < q + n then m.mem (p + (i - q)) else m.mem i,
        (q, n) :: (m.release p).blocks⟩)
    else none

theorem lt_freeAddress {blocks : List (ℕ × ℕ)} {q k : ℕ} (h : (q, k) ∈ blocks) :
    q + k < freeAddress blocks := by
  have htop : q + k + 1 ≤ blocks.foldr (fun b top => max (b.1 + b.2 + 1) top) 1 := by
    induction blocks with
    | nil => cases h
    | cons b blocks ih =>
      rw [List.foldr_cons]
      rcases List.mem_cons.1 h with rfl | h
      · exact le_max_left _ _
      · exact (ih h).trans (le_max_right _ _)
  rw [freeAddress]
  omega

theorem freeAddress_pos (blocks : List (ℕ × ℕ)) : 0 < freeAddress blocks := by
  have htop : 1 ≤ blocks.foldr (fun b top => max (b.1 + b.2 + 1) top) 1 := by
    induction blocks with
    | nil => exact le_rfl
    | cons b blocks ih => exact ih.trans (le_max_right _ _)
  rw [freeAddress]
  omega

theorem bumpLibc_ok : bumpLibc.Ok where
  malloc := by
    intro m m' p n h
    simp only [bumpLibc] at h
    split_ifs at h with hfits
    obtain ⟨rfl, rfl⟩ := Prod.mk.inj (Option.some.inj h)
    exact ⟨Nat.mul_mod_left _ _, freeAddress_pos _, hfits, fun b => List.mem_cons,
      fun q k hq => by have hlt := lt_freeAddress hq; omega, fun _ _ _ _ _ _ => rfl⟩
  realloc := by
    intro m m' p q n k h hp
    simp only [bumpLibc] at h
    split_ifs at h with hfits
    obtain ⟨rfl, rfl⟩ := Prod.mk.inj (Option.some.inj h)
    have hlt {a j : ℕ} (ha : (a, j) ∈ (m.release p).blocks) : a + j < freeAddress m.blocks :=
      lt_freeAddress (mem_release.1 ha).1
    refine ⟨⟨Nat.mul_mod_left _ _, freeAddress_pos _, hfits, fun b => List.mem_cons,
      fun a j ha => by have hlt := hlt ha; omega, fun a j ha i h₁ h₂ => ?_⟩, fun i hi => ?_⟩
    · have hlt := hlt ha
      exact if_neg (by omega)
    · dsimp only
      rw [if_pos (by omega), Nat.add_sub_cancel_left]

/-- The list `("a")`, whose string is at 32. -/
def oneString : Arena := ⟨⟨fun i => if i = 32 then 97 else 0, [(16, 18)]⟩, 16, 16, 0⟩

def oneStringCells : Heap := .ofList [(4096, .cons 35 nil)]

example : (lConcat bumpLibc oneStringCells 3 4097 oneString).map Prod.fst = some 83 := by
  decide

theorem wf_oneString : oneString.Wf where
  fits := by simp [oneString]
  last := fun _ => ⟨18, by decide, by simp [oneString]⟩

theorem listOf_oneString : ListOf oneStringCells 4097 [35] := ⟨by decide, nil, by decide, rfl⟩

theorem parts_oneString : List.Forall₂ (TextPart oneString.toRam) [35] [[97]] := by
  have hinside : ∃ k, (16, k) ∈ oneString.blocks ∧ allocSize + 1 < k := ⟨18, by decide, by decide⟩
  exact .cons (.text ⟨by decide, by decide, hinside, ⟨rfl, trivial⟩, rfl, by decide⟩) .nil

theorem not_concat_oneString : ¬ ReturnsText bumpLibc oneStringCells 4097 oneString [97] :=
  not_concat bumpLibc_ok wf_oneString listOf_oneString parts_oneString

/-- **`(concat "a")`** returns an unterminated string. -/
theorem concat_unterminated : ¬ ∀ (C : Libc) (H : Heap) (s : Arena) (strings : Word)
    (vs : List Word) (xss : List (List UInt8)), C.Ok → s.Wf → ListOf H strings vs →
    List.Forall₂ (TextPart s.toRam) vs xss → ReturnsText C H strings s xss.flatten := by
  intro h
  obtain ⟨N, hN⟩ := h _ _ _ _ _ _ bumpLibc_ok wf_oneString listOf_oneString parts_oneString
  obtain ⟨v, s', hrun, htext⟩ := hN N le_rfl
  have hspec := lConcat_spec bumpLibc_ok wf_oneString listOf_oneString parts_oneString hrun
  exact hspec.not_text htext

end Lisp

end Bluejay
