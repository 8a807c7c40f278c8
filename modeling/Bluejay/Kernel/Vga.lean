import Bluejay.Lib.Bytes
import Mathlib.Data.List.Basic

/-!
# The console

* `vgaPut`, `vgaClear` : the functions of `vga.c`.  Every access to the frame buffer, to the buffer
  for an escape sequence and to the table of colors is checked, and one that is not inside ends the
  run.
* `VgaOk` : the invariant.  Behind what was put into the buffer it is zero.
* `StaysInside` : after each of the calls the cursor and the index are inside, and so was every
  access.
* `staysInside_iff` : when this is so.  A sequence that fills the buffer with digits leaves no byte
  behind them at which `parse_int` stops.
-/

namespace Bluejay

namespace Kernel

/-- `BUFFER_SIZE`. -/
def bufferSize : ℕ := 16

/-- The variables of `vga.c`. -/
structure Vga where
  cursorX : ℕ
  cursorY : ℕ
  color : UInt8
  fb : ℕ → UInt16
  buffer : ℕ → UInt8
  bufferIndex : ℕ
  inEscape : Bool

/-- `enum vga_colors`. -/
inductive VgaColor
  | black | blue | green | cyan | red | magenta | brown | lightGrey
  | darkGrey | lightBlue | lightGreen | lightCyan | lightRed | lightMagenta | lightBrown | white
  deriving DecidableEq

/-- The number of a color. -/
def VgaColor.code (c : VgaColor) : UInt8 := UInt8.ofNat c.ctorIdx

/-! ### Checked accesses -/

namespace Vga

variable (s : Vga)

/-- `fb[i] = v`. -/
def setCell (i : ℕ) (v : UInt16) : Option Vga :=
  if i < 25 * 80 then some { s with fb := Function.update s.fb i v } else none

/-- `memcpy(&fb[dest], &fb[src], n * 2)`. -/
def copyCells (dest src n : ℕ) : Option Vga :=
  if dest + n ≤ 25 * 80 ∧ src + n ≤ 25 * 80 then
    some { s with fb := fun i => if dest ≤ i ∧ i < dest + n then s.fb (i - dest + src) else s.fb i }
  else none

/-- `for (i = first; i < last; i++) fb[i] = v`. -/
def fillCells (first last : ℕ) (v : UInt16) : Option Vga :=
  if last ≤ 25 * 80 then some { s with fb := fun i => if first ≤ i ∧ i < last then v else s.fb i }
  else none

/-- `buffer[i]`. -/
def bufferAt (i : ℕ) : Option UInt8 := if i < bufferSize then some (s.buffer i) else none

/-- `buffer[i] = c`. -/
def setBuffer (i : ℕ) (c : UInt8) : Option Vga :=
  if i < bufferSize then some { s with buffer := Function.update s.buffer i c } else none

end Vga

/-! ### Escape sequences -/

/-- `isdigit`. -/
def isdigit (c : UInt8) : Bool := 48 ≤ c ∧ c ≤ 57

/-- The loop of `parse_int`, for at most `n` bytes of the buffer from the byte `i` on. -/
def parseIntLoop (s : Vga) : ℕ → ℕ → ℕ → Option ℕ
  | 0, _, _ => none
  | n + 1, i, number => do
    let c ← s.bufferAt i
    if isdigit c then parseIntLoop s n (i + 1) (u32 (u32 (number * 10) + (c.toNat - 48)))
    else return number

/-- `parse_int(buffer + 1)`. -/
def parseInt (s : Vga) : Option ℕ := parseIntLoop s bufferSize 1 0

/-- `ansi_to_vga_colors`. -/
def ansiToVgaColors : List UInt8 :=
  List.replicate 30 0 ++
    [VgaColor.black, .red, .green, .lightBrown, .blue, .magenta, .cyan, .white].map VgaColor.code ++
    List.replicate 52 0 ++
    [VgaColor.lightGrey, .lightRed, .lightGreen, .lightBrown, .lightBlue, .lightMagenta, .lightCyan,
      .white].map VgaColor.code

/-- The end of `got_escape`, for the number `c`. -/
def setAnsiColor (s : Vga) (c : ℤ) : Option Vga :=
  if c = 0 then some { s with color := VgaColor.white.code }
  else if 30 ≤ c ∧ c ≤ 37 ∨ 90 ≤ c ∧ c ≤ 97 then do
    let value ← ansiToVgaColors[c.toNat]?
    return { s with color := (s.color &&& (0xf0 : UInt8)) ||| value }
  else if 40 ≤ c ∧ c ≤ 47 ∨ 100 ≤ c ∧ c ≤ 107 then do
    let value ← ansiToVgaColors[(c - 10).toNat]?
    return { s with color := (s.color &&& (0x0f : UInt8)) ||| (value <<< 4) }
  else some s

/-- `got_escape`. -/
def gotEscape (s : Vga) : Option Vga := do
  let first ← s.bufferAt 0
  if first ≠ 91 then some s
  else do
    let number ← parseInt s
    setAnsiColor s (signed32 number)

/-! ### Characters -/

/-- `c | (color << 8)`, where `c` is signed. -/
def cell (c color : UInt8) : UInt16 := c.toInt8.toInt16.toUInt16 ||| color.toUInt16 <<< 8

/-- The loop of `scroll`, for at most `n` lines. -/
def scrollLoop : ℕ → Vga → Option Vga
  | 0, s => some s
  | n + 1, s =>
    if 25 ≤ s.cursorY then do
      let s ← s.copyCells 0 80 (24 * 80)
      let s ← s.fillCells (24 * 80) (25 * 80) (cell 32 s.color)
      scrollLoop n { s with cursorY := s.cursorY - 1 }
    else some s

/-- `scroll`. -/
def scroll (s : Vga) : Option Vga := scrollLoop s.cursorY s

/-- The `switch` of `vga_put`. -/
def putChar (s : Vga) (c : UInt8) : Option Vga :=
  if c = 8 then
    let s := if 0 < s.cursorX then { s with cursorX := s.cursorX - 1 } else s
    s.setCell (s.cursorY * 80 + s.cursorX) (cell 32 s.color)
  else if c = 9 then some { s with cursorX := (s.cursorX + 8) &&& 0xfffffff8 }
  else if c = 10 then some { s with cursorY := s.cursorY + 1, cursorX := 0 }
  else if c = 13 then some { s with cursorX := 0 }
  else if c = 27 then some { s with inEscape := true }
  else do
    let s ← s.setCell (s.cursorY * 80 + s.cursorX) (cell c s.color)
    return { s with cursorX := s.cursorX + 1 }

/-- `vga_put`. -/
def vgaPut (s : Vga) (c : UInt8) : Option Vga :=
  if s.inEscape then
    if bufferSize ≤ s.bufferIndex ∨ c = 109 then do
      -- an `m` counts also if the buffer is full
      let s ← if c = 109 then gotEscape s else some s
      return { s with
        inEscape := false
        bufferIndex := 0
        buffer := fun i => if i < bufferSize then 0 else s.buffer i }
    else do
      let s' ← s.setBuffer s.bufferIndex c
      return { s' with bufferIndex := s.bufferIndex + 1 }
  else do
    let s ← putChar s c
    scroll (if 80 ≤ s.cursorX then { s with cursorX := 0, cursorY := s.cursorY + 1 } else s)

/-- `vga_clear`. -/
def vgaClear (s : Vga) : Option Vga := do
  let s ← s.fillCells 0 (25 * 80) (cell 32 VgaColor.white.code)
  return { s with cursorX := 0, cursorY := 0 }

/-! ### Runs -/

/-- A call of `vga_clear` or `vga_put`. -/
inductive VgaCall
  | clear
  | put (c : UInt8)

/-- What a call does. -/
def VgaCall.exec (s : Vga) : VgaCall → Option Vga
  | .clear => vgaClear s
  | .put c => vgaPut s c

/-- The variables at the start, with anything in the frame buffer. -/
def Vga.boot (fb : ℕ → UInt16) : Vga := ⟨0, 0, VgaColor.white.code, fb, fun _ => 0, 0, false⟩

/-- The cursor is on the screen, and the index is one of the buffer or the one behind it. -/
def Vga.Bounded (s : Vga) : Prop := s.cursorX < 80 ∧ s.cursorY < 25 ∧ s.bufferIndex ≤ 16

/-- No call accesses anything outside, and after each of them the variables are bounded. -/
def StaysInside : Vga → List VgaCall → Prop
  | _, [] => True
  | s, call :: calls => ∃ s', call.exec s = some s' ∧ s'.Bounded ∧ StaysInside s' calls

/-- An `m` comes when the buffer is full, with `[` and fifteen digits. -/
def Vga.Overruns (s : Vga) (call : VgaCall) : Prop :=
  call = .put 109 ∧ s.inEscape = true ∧ s.bufferIndex = bufferSize ∧ s.buffer 0 = 91 ∧
    ∀ i, 1 ≤ i → i < bufferSize → isdigit (s.buffer i) = true

/-- None of the calls is of that kind. -/
def NoneOverruns : Vga → List VgaCall → Prop
  | _, [] => True
  | s, call :: calls => ¬ s.Overruns call ∧ ∀ s', call.exec s = some s' → NoneOverruns s' calls

/-- The invariant: behind what was put into the buffer it is zero. -/
structure VgaOk (s : Vga) : Prop where
  cursorX : s.cursorX < 80
  cursorY : s.cursorY < 25
  bufferIndex : s.bufferIndex ≤ bufferSize
  outside : s.inEscape = false → s.bufferIndex = 0
  zeros : ∀ i, s.bufferIndex ≤ i → i < bufferSize → s.buffer i = 0

section Vga

variable {s s' : Vga} {c : UInt8} {i n number : ℕ} {call : VgaCall} {calls : List VgaCall}
  {fb : ℕ → UInt16}

/-! ### The screen -/

theorem setCell_of_lt {v : UInt16} (h : i < 25 * 80) :
    s.setCell i v = some { s with fb := Function.update s.fb i v } := if_pos h

/-- The number of a cell on the screen. -/
theorem cell_lt {x y : ℕ} (hx : x < 80) (hy : y < 25) : y * 80 + x < 25 * 80 := by omega

/-- The buffer is as before. -/
def SameBuffer (s s' : Vga) : Prop := s'.buffer = s.buffer ∧ s'.bufferIndex = s.bufferIndex

theorem scrollLoop_of_lt (h : s.cursorY < 25) (n : ℕ) : scrollLoop n s = some s := by
  cases n with
  | zero => rfl
  | succ n => exact if_neg (Nat.not_le.2 h)

/-- From the line below the screen it scrolls once. -/
theorem scrollLoop_of_eq (h : s.cursorY = 25) (n : ℕ) :
    ∃ fb, scrollLoop (n + 1) s = some { s with fb := fb, cursorY := 24 } := by
  obtain ⟨s₁, hcopy, hs₁⟩ : ∃ s₁, s.copyCells 0 80 (24 * 80) = some s₁ ∧
      s₁ = { s with fb := s₁.fb } := ⟨_, if_pos (by decide), rfl⟩
  obtain ⟨s₂, hfill, hs₂⟩ : ∃ s₂, s₁.fillCells (24 * 80) (25 * 80) (cell 32 s₁.color) = some s₂ ∧
      s₂ = { s with fb := s₂.fb } := by
    refine ⟨_, if_pos (by decide), ?_⟩
    rw [hs₁]
  refine ⟨s₂.fb, ?_⟩
  rw [scrollLoop, if_pos (Nat.le_of_eq h.symm), hcopy]
  simp only [Option.bind_eq_bind, Option.bind_some]
  rw [hfill, Option.bind_some, scrollLoop_of_lt]
  · rw [hs₂, h]
  · rw [hs₂, h]
    exact Nat.lt_succ_self 24

/-- The cursor is on the screen again. -/
theorem scroll_spec (hx : s.cursorX < 80) (hy : s.cursorY ≤ 25) :
    ∃ s', scroll s = some s' ∧ s'.cursorX < 80 ∧ s'.cursorY < 25 ∧ SameBuffer s s' := by
  rcases Nat.eq_or_lt_of_le hy with heq | hlt
  · obtain ⟨fb, hscroll⟩ := scrollLoop_of_eq heq 24
    rw [scroll, heq, hscroll]
    exact ⟨_, rfl, hx, Nat.lt_succ_self 24, rfl, rfl⟩
  · exact ⟨s, scrollLoop_of_lt hlt _, hx, hlt, rfl, rfl⟩

/-- The next tab stop is on the screen or right behind it. -/
theorem tab_le : ∀ x < 80, (x + 8) &&& 0xfffffff8 ≤ 80 := by decide

/-- A character moves the cursor at most to the end of the line, or to the next line. -/
theorem putChar_spec (hx : s.cursorX < 80) (hy : s.cursorY < 25) (c : UInt8) :
    ∃ s', putChar s c = some s' ∧ s'.cursorX ≤ 80 ∧ s'.cursorY ≤ 25 ∧
      (s'.cursorX = 80 → s'.cursorY < 25) ∧ SameBuffer s s' := by
  have hcell := cell_lt hx hy
  unfold putChar
  split_ifs
  · -- a backspace in the first column
    simp only [setCell_of_lt (cell_lt (Nat.lt_of_le_of_lt (Nat.sub_le s.cursorX 1) hx) hy)]
    exact ⟨_, rfl, Nat.le_of_lt (Nat.lt_of_le_of_lt (Nat.sub_le s.cursorX 1) hx),
      Nat.le_of_lt hy, fun _ => hy, rfl, rfl⟩
  · rw [setCell_of_lt hcell]
    exact ⟨_, rfl, Nat.le_of_lt hx, Nat.le_of_lt hy, fun _ => hy, rfl, rfl⟩
  · -- a tab
    exact ⟨_, rfl, tab_le _ hx, Nat.le_of_lt hy, fun _ => hy, rfl, rfl⟩
  · exact ⟨_, rfl, Nat.zero_le _, hy, fun h => absurd h (by simp), rfl, rfl⟩
  · exact ⟨_, rfl, Nat.zero_le _, Nat.le_of_lt hy, fun _ => hy, rfl, rfl⟩
  · exact ⟨_, rfl, Nat.le_of_lt hx, Nat.le_of_lt hy, fun _ => hy, rfl, rfl⟩
  · -- any other character
    rw [setCell_of_lt hcell]
    exact ⟨_, rfl, hx, Nat.le_of_lt hy, fun _ => hy, rfl, rfl⟩

/-! ### The buffer -/

theorem bufferAt_of_lt (h : i < bufferSize) : s.bufferAt i = some (s.buffer i) := if_pos h

theorem isdigit_zero : isdigit 0 = false := by decide

/-- `parse_int` stops at a byte that is not a digit. -/
theorem exists_parseIntLoop (hi : i < bufferSize) (hn : bufferSize < i + n)
    (hstop : ∃ j, i ≤ j ∧ j < bufferSize ∧ isdigit (s.buffer j) = false) (number : ℕ) :
    ∃ r, parseIntLoop s n i number = some r := by
  induction n generalizing i number with
  | zero => omega
  | succ n ih =>
    rw [parseIntLoop, bufferAt_of_lt hi]
    simp only [Option.bind_eq_bind, Option.bind_some]
    by_cases hdigit : isdigit (s.buffer i) = true
    · rw [if_pos hdigit]
      obtain ⟨j, hij, hj, hno⟩ := hstop
      have hne : i ≠ j := by
        rintro rfl
        rw [hdigit] at hno
        cases hno
      exact ih (by omega) (by omega) ⟨j, by omega, hj, hno⟩ _
    · rw [if_neg hdigit]
      exact ⟨number, rfl⟩

/-- Behind digits only, it reads the byte behind the buffer. -/
theorem parseIntLoop_eq_none (hdigits : ∀ j, i ≤ j → j < bufferSize → isdigit (s.buffer j) = true)
    (hi : i ≤ bufferSize) (number : ℕ) : parseIntLoop s n i number = none := by
  induction n generalizing i number with
  | zero => rfl
  | succ n ih =>
    rw [parseIntLoop]
    rcases Nat.eq_or_lt_of_le hi with rfl | hlt
    · rw [Vga.bufferAt, if_neg (Nat.lt_irrefl _)]
      rfl
    · rw [bufferAt_of_lt hlt, Option.bind_eq_bind, Option.bind_some,
        if_pos (hdigits i (Nat.le_refl i) hlt)]
      exact ih (fun j hj => hdigits j (Nat.le_of_succ_le hj)) hlt _

/-- The table has all colors that are looked up. -/
theorem setAnsiColor_spec (s : Vga) (c : ℤ) :
    ∃ color, setAnsiColor s c = some { s with color := color } := by
  have hlen : ansiToVgaColors.length = 98 := by decide
  have hcolor : ∀ i < 98, ∃ value, ansiToVgaColors[i]? = some value := fun i hi =>
    ⟨_, List.getElem?_eq_getElem (hlen ▸ hi)⟩
  unfold setAnsiColor
  split_ifs with h₀ h₁ h₂
  · exact ⟨_, rfl⟩
  · obtain ⟨value, hvalue⟩ := hcolor c.toNat (by omega)
    rw [hvalue]
    exact ⟨_, rfl⟩
  · obtain ⟨value, hvalue⟩ := hcolor (c - 10).toNat (by omega)
    rw [hvalue]
    exact ⟨_, rfl⟩
  · exact ⟨s.color, rfl⟩

/-- `got_escape` changes the color only, if it stays inside of the buffer. -/
theorem gotEscape_spec (h : s.buffer 0 ≠ 91 ∨
      ∃ j, 1 ≤ j ∧ j < bufferSize ∧ isdigit (s.buffer j) = false) :
    ∃ color, gotEscape s = some { s with color := color } := by
  rw [gotEscape, bufferAt_of_lt (by decide), Option.bind_eq_bind, Option.bind_some]
  by_cases hfirst : s.buffer 0 ≠ 91
  · exact ⟨s.color, if_pos hfirst⟩
  · obtain ⟨number, hnumber⟩ := exists_parseIntLoop (n := bufferSize) (by decide) (by decide)
      (h.resolve_left hfirst) 0
    rw [if_neg hfirst, parseInt, hnumber]
    exact setAnsiColor_spec s _

theorem gotEscape_eq_none (hfirst : s.buffer 0 = 91)
    (hdigits : ∀ j, 1 ≤ j → j < bufferSize → isdigit (s.buffer j) = true) : gotEscape s = none := by
  rw [gotEscape, bufferAt_of_lt (by decide), Option.bind_eq_bind, Option.bind_some,
    if_neg (not_not.2 hfirst), parseInt, parseIntLoop_eq_none hdigits (by decide)]
  rfl

/-! ### One call -/

theorem vgaOk_boot (fb : ℕ → UInt16) : VgaOk (Vga.boot fb) :=
  ⟨Nat.succ_pos 79, Nat.succ_pos 24, Nat.zero_le _, fun _ => rfl, fun _ _ _ => rfl⟩

/-- The buffer was overrun, or there is a byte at which `parse_int` stops. -/
theorem VgaOk.stops (h : VgaOk s) (hescape : s.inEscape = true) (hover : ¬ s.Overruns (.put 109)) :
    s.buffer 0 ≠ 91 ∨ ∃ j, 1 ≤ j ∧ j < bufferSize ∧ isdigit (s.buffer j) = false := by
  rcases Nat.eq_or_lt_of_le h.bufferIndex with hfull | hlt
  · by_contra hnot
    obtain ⟨hfirst, hdigits⟩ := not_or.1 hnot
    refine hover ⟨rfl, hescape, hfull, not_not.1 hfirst, fun i hi hi' => ?_⟩
    by_contra hno
    exact hdigits ⟨i, hi, hi', Bool.eq_false_iff.2 hno⟩
  · -- the first byte behind what was put into the buffer is zero
    rcases Nat.eq_zero_or_pos s.bufferIndex with hzero | hpos
    · left
      rw [h.zeros 0 (Nat.le_of_eq hzero) (by decide)]
      decide
    · right
      refine ⟨s.bufferIndex, hpos, hlt, ?_⟩
      rw [h.zeros _ (Nat.le_refl _) hlt]
      exact isdigit_zero

/-- The end of an escape sequence. -/
theorem VgaOk.endEscape (h : VgaOk s) (color : UInt8) : VgaOk { s with
    color := color
    inEscape := false
    bufferIndex := 0
    buffer := fun i => if i < bufferSize then 0 else s.buffer i } :=
  ⟨h.cursorX, h.cursorY, Nat.zero_le _, fun _ => rfl, fun _ _ hi => if_pos hi⟩

/-- A character outside of an escape sequence. -/
theorem VgaOk.put (h : VgaOk s) (hescape : s.inEscape = false) (c : UInt8) :
    ∃ s', vgaPut s c = some s' ∧ VgaOk s' := by
  obtain ⟨s₁, hput, hx, hy, hend, hsame⟩ := putChar_spec h.cursorX h.cursorY c
  -- the end of a line
  obtain ⟨s₂, hwrap, hx₂, hy₂, hsame₂⟩ : ∃ s₂,
      (if 80 ≤ s₁.cursorX then { s₁ with cursorX := 0, cursorY := s₁.cursorY + 1 } else s₁) = s₂ ∧
        s₂.cursorX < 80 ∧ s₂.cursorY ≤ 25 ∧ SameBuffer s₁ s₂ := by
    by_cases hfull : 80 ≤ s₁.cursorX
    · exact ⟨_, if_pos hfull, Nat.succ_pos 79, hend (Nat.le_antisymm hx hfull), rfl, rfl⟩
    · exact ⟨_, if_neg hfull, Nat.not_le.1 hfull, hy, rfl, rfl⟩
  obtain ⟨s₃, hscroll, hx₃, hy₃, hsame₃⟩ := scroll_spec hx₂ hy₂
  have hbuffer : s₃.buffer = s.buffer := hsame₃.1.trans (hsame₂.1.trans hsame.1)
  have hindex : s₃.bufferIndex = 0 :=
    (hsame₃.2.trans (hsame₂.2.trans hsame.2)).trans (h.outside hescape)
  refine ⟨s₃, ?_, hx₃, hy₃, hindex ▸ Nat.zero_le _, fun _ => hindex, fun i _ hi => ?_⟩
  · rw [vgaPut, if_neg (by rw [hescape]; decide), hput, Option.bind_eq_bind, Option.bind_some,
      hwrap, hscroll]
  · rw [hbuffer]
    exact h.zeros i (h.outside hescape ▸ Nat.zero_le i) hi

/-- A call that does not overrun the buffer keeps the invariant. -/
theorem VgaOk.step (h : VgaOk s) (hover : ¬ s.Overruns call) :
    ∃ s', call.exec s = some s' ∧ VgaOk s' := by
  cases call with
  | clear =>
    have hfill : s.fillCells 0 (25 * 80) (cell 32 VgaColor.white.code) = some _ :=
      if_pos (by decide)
    refine ⟨_, by rw [VgaCall.exec, vgaClear, hfill]; rfl, ?_⟩
    exact ⟨Nat.succ_pos 79, Nat.succ_pos 24, h.bufferIndex, h.outside, h.zeros⟩
  | put c =>
    cases hescape : s.inEscape with
    | false => exact h.put hescape c
    | true =>
      change ∃ s', vgaPut s c = some s' ∧ VgaOk s'
      rw [vgaPut, if_pos hescape]
      by_cases hend : bufferSize ≤ s.bufferIndex ∨ c = 109
      · -- the sequence ends
        rw [if_pos hend]
        by_cases hm : c = 109
        · subst hm
          obtain ⟨color, hgot⟩ := gotEscape_spec (h.stops hescape hover)
          rw [if_pos rfl, hgot]
          exact ⟨_, rfl, h.endEscape color⟩
        · rw [if_neg hm]
          exact ⟨_, rfl, h.endEscape s.color⟩
      · -- the character is put into the buffer
        rw [if_neg hend]
        have hroom : s.bufferIndex < bufferSize := Nat.not_le.1 (not_or.1 hend).1
        have hset : s.setBuffer s.bufferIndex c = some _ := if_pos hroom
        rw [hset]
        refine ⟨_, rfl, h.cursorX, h.cursorY, hroom, fun hout => ?_, fun i hi hi' => ?_⟩
        · exact absurd (hescape.symm.trans hout) (by decide)
        · change Function.update s.buffer s.bufferIndex c i = 0
          rw [Function.update_of_ne (Nat.ne_of_gt hi)]
          exact h.zeros i (Nat.le_of_lt hi) hi'

/-- A call that overruns the buffer reads outside of it. -/
theorem exec_eq_none (hover : s.Overruns call) : call.exec s = none := by
  obtain ⟨rfl, hescape, -, hfirst, hdigits⟩ := hover
  change vgaPut s 109 = none
  rw [vgaPut, if_pos hescape, if_pos (.inr rfl), if_pos rfl, gotEscape_eq_none hfirst hdigits]
  rfl

/-! ### Runs -/

theorem VgaOk.inside_iff (h : VgaOk s) : StaysInside s calls ↔ NoneOverruns s calls := by
  induction calls generalizing s with
  | nil => exact Iff.rfl
  | cons call calls ih =>
    constructor
    · rintro ⟨s', hexec, -, hrest⟩
      have hover : ¬ s.Overruns call := by
        intro hover
        rw [exec_eq_none hover] at hexec
        cases hexec
      refine ⟨hover, fun s'' hexec' => ?_⟩
      obtain ⟨s₁, hexec₁, hok⟩ := h.step hover
      obtain rfl : s₁ = s'' := Option.some_inj.1 (hexec₁.symm.trans hexec')
      obtain rfl : s₁ = s' := Option.some_inj.1 (hexec₁.symm.trans hexec)
      exact (ih hok).1 hrest
    · rintro ⟨hover, hrest⟩
      obtain ⟨s', hexec, hok⟩ := h.step hover
      exact ⟨s', hexec, ⟨hok.cursorX, hok.cursorY, hok.bufferIndex⟩, (ih hok).2 (hrest s' hexec)⟩

/-- From the start on everything stays inside exactly if no `m` comes when the buffer is full, with
`[` and fifteen digits. -/
theorem staysInside_iff (fb : ℕ → UInt16) (calls : List VgaCall) :
    StaysInside (Vga.boot fb) calls ↔ NoneOverruns (Vga.boot fb) calls :=
  (vgaOk_boot fb).inside_iff

/-- Calls that stay inside end in a state. -/
theorem StaysInside.exists_state (h : StaysInside s calls) :
    (calls.foldlM VgaCall.exec s).isSome = true := by
  induction calls generalizing s with
  | nil => rfl
  | cons call calls ih =>
    obtain ⟨s', hexec, -, hrest⟩ := h
    rw [List.foldlM_cons, hexec, Option.bind_eq_bind, Option.bind_some]
    exact ih hrest

end Vga

/-- An escape sequence with fifteen digits. -/
def longEscape : List VgaCall :=
  .clear :: .put 27 :: .put 91 :: List.replicate 15 (.put 48) ++ [.put 109]

theorem not_staysInside : ¬ ∀ (fb : ℕ → UInt16) (calls : List VgaCall),
    StaysInside (Vga.boot fb) calls := by
  intro h
  have hrun : (longEscape.foldlM VgaCall.exec (Vga.boot fun _ => 0)).isSome = false := by
    decide
  have hinside := (h (fun _ => 0) longEscape).exists_state
  rw [hrun] at hinside
  cases hinside

end Kernel

end Bluejay
