import Bluejay.Lib.Window
import Bluejay.Kernel.Vga
import Mathlib.Data.List.GetD

/-!
# What the console shows

* `Terminal` : what the console is for: a paper on which nothing moves, and a pen.  An escape
  sequence is the list of its bytes.
* `Terminal.Shown` : the frame buffer is a window on the paper, with the cursor in it.
* `Terminal.Shown.step` : what one call does to the screen, the terminal does on its paper.
* `exists_terminal_shown` : the console refines the terminal in every run that stays inside.
* `write_shown` : the text that is on the screen after `vga_clear`.
-/

namespace Bluejay

namespace Kernel

/-! ### The terminal -/

/-- A terminal that keeps all lines. -/
structure Terminal where
  paper : ℕ → ℕ → UInt16
  line : ℕ
  column : ℕ
  color : UInt8
  /-- The bytes of the escape sequence, if there is one. -/
  escape : Option (List UInt8)

/-- The number that decimal digits denote. -/
def decimal (digits : List UInt8) : ℕ := digits.foldl (fun n d => n * 10 + (d.toNat - 48)) 0

/-- The colors 30 to 37 of a terminal. -/
def darkColors : List VgaColor := [.black, .red, .green, .lightBrown, .blue, .magenta, .cyan, .white]

/-- The colors 90 to 97 of a terminal. -/
def lightColors : List VgaColor :=
  [.lightGrey, .lightRed, .lightGreen, .lightBrown, .lightBlue, .lightMagenta, .lightCyan, .white]

/-- The color of the text becomes `fg`. -/
def withForeground (color : UInt8) (fg : VgaColor) : UInt8 := (color &&& (0xf0 : UInt8)) ||| fg.code

/-- The color behind the text becomes `bg`. -/
def withBackground (color : UInt8) (bg : VgaColor) : UInt8 := (color &&& (0x0f : UInt8)) ||| bg.code <<< 4

/-- The color after the attribute `n`. -/
def attributeColor (color : UInt8) (n : ℤ) : UInt8 :=
  if n = 0 then VgaColor.white.code
  else if 30 ≤ n ∧ n ≤ 37 then withForeground color (darkColors.getD (n - 30).toNat .black)
  else if 90 ≤ n ∧ n ≤ 97 then withForeground color (lightColors.getD (n - 90).toNat .black)
  else if 40 ≤ n ∧ n ≤ 47 then withBackground color (darkColors.getD (n - 40).toNat .black)
  else if 100 ≤ n ∧ n ≤ 107 then withBackground color (lightColors.getD (n - 100).toNat .black)
  else color

/-- The color after an escape sequence that an `m` ends.  Behind a `[` it has a number. -/
def escapeColor (color : UInt8) : List UInt8 → UInt8
  | 91 :: bytes => attributeColor color (signed32 (u32 (decimal (bytes.takeWhile isdigit))))
  | _ => color

namespace Terminal

variable (t : Terminal)

/-- Go to the next line.  A line that was not on the screen is blank. -/
def newLine : Terminal := { t with
  line := t.line + 1
  column := 0
  paper := if t.line + 1 < 25 then t.paper else writeLine t.paper (t.line + 1) (cell 32 t.color) }

/-- Go to a column, or to the next line if it is not on the screen. -/
def moveTo (column : ℕ) : Terminal := if 80 ≤ column then t.newLine else { t with column := column }

/-- Write a character at the cursor. -/
def writeChar (c : UInt8) : Terminal :=
  { t with paper := writeAt t.paper t.line t.column (cell c t.color) }

/-- Go back and erase what is there. -/
def backspace : Terminal := { t with column := t.column - 1 }.writeChar 32

/-- A character outside of an escape sequence. -/
def typed (c : UInt8) : Terminal :=
  if c = 8 then t.backspace
  else if c = 9 then t.moveTo (t.column / 8 * 8 + 8)
  else if c = 10 then t.newLine
  else if c = 13 then { t with column := 0 }
  else if c = 27 then { t with escape := some [] }
  else (t.writeChar c).moveTo (t.column + 1)

/-- A character.  An escape sequence ends with an `m`, or it is too long. -/
def put (c : UInt8) : Terminal :=
  match t.escape with
  | none => t.typed c
  | some bytes =>
    if c = 109 then { t with color := escapeColor t.color bytes, escape := none }
    else { t with escape := if bytes.length < bufferSize then some (bytes ++ [c]) else none }

/-- New paper. -/
def clear : Terminal :=
  { t with paper := fun _ _ => cell 32 VgaColor.white.code, line := 0, column := 0 }

/-- What a call does. -/
def exec : VgaCall → Terminal
  | .clear => t.clear
  | .put c => t.put c

/-- The terminal at the start, with anything on the first lines. -/
def boot (fb : ℕ → UInt16) : Terminal :=
  ⟨fun l c => fb (l * 80 + c), 0, 0, VgaColor.white.code, none⟩

end Terminal

/-- The bytes of the escape sequence are in the buffer, and it is zero behind them. -/
structure InBuffer (s : Vga) (bs : List UInt8) : Prop where
  index : s.bufferIndex = bs.length
  room : bs.length ≤ bufferSize
  bytes : ∀ i < bufferSize, s.buffer i = bs.getD i 0

/-- The frame buffer is a window on the paper, with the cursor in it. -/
structure Terminal.Shown (t : Terminal) (s : Vga) : Prop where
  screen : Shows 80 25 s.fb t.paper (t.line - 24)
  row : s.cursorY = min t.line 24
  column : s.cursorX = t.column
  inside : t.column < 80
  color : s.color = t.color
  escape : s.inEscape = t.escape.isSome
  buffer : InBuffer s (t.escape.getD [])

section Terminal

variable {s s' : Vga} {t : Terminal} {c : UInt8} {bs rest : List UInt8} {i n number : ℕ}
  {call : VgaCall} {calls : List VgaCall} {fb : ℕ → UInt16}

/-! ### Escape sequences -/

/-- The number is kept in an unsigned `int`. -/
theorem foldl_u32 (digits : List UInt8) (number : ℕ) :
    digits.foldl (fun n d => u32 (u32 (n * 10) + (d.toNat - 48))) (u32 number) =
      u32 (digits.foldl (fun n d => n * 10 + (d.toNat - 48)) number) := by
  induction digits generalizing number with
  | nil => rfl
  | cons d digits ih =>
    rw [List.foldl_cons, List.foldl_cons, ← ih]
    congr 1
    unfold u32
    omega

variable (rest) in
/-- `parse_int` reads the digits, if there is a byte behind them at which it stops. -/
theorem parseIntLoop_eq (hbytes : ∀ j, i + j < bufferSize → s.buffer (i + j) = rest.getD j 0)
    (hroom : i + rest.length ≤ bufferSize)
    (hstop : i + rest.length < bufferSize ∨ ∃ c ∈ rest, isdigit c = false)
    (hn : rest.length < n) (number : ℕ) :
    parseIntLoop s n i number = some ((rest.takeWhile isdigit).foldl
      (fun n d => u32 (u32 (n * 10) + (d.toNat - 48))) number) := by
  induction rest generalizing i n number with
  | nil =>
    obtain ⟨n, rfl⟩ := Nat.exists_eq_succ_of_ne_zero (Nat.ne_of_gt hn)
    have hi : i < bufferSize := hstop.resolve_right (by rintro ⟨c, hc, -⟩; cases hc)
    have hzero : s.buffer i = 0 := hbytes 0 hi
    rw [parseIntLoop, bufferAt_of_lt hi, hzero]
    rfl
  | cons d rest ih =>
    obtain ⟨n, rfl⟩ := Nat.exists_eq_succ_of_ne_zero (Nat.ne_of_gt (Nat.zero_lt_of_lt hn))
    rw [List.length_cons] at hroom hstop hn
    have hi : i < bufferSize := by omega
    have hfirst : s.buffer i = d := hbytes 0 hi
    rw [parseIntLoop, bufferAt_of_lt hi, hfirst, Option.bind_eq_bind, Option.bind_some]
    cases hd : isdigit d with
    | false =>
      rw [List.takeWhile_cons_of_neg (by rw [hd]; decide)]
      rfl
    | true =>
      rw [if_pos rfl, List.takeWhile_cons_of_pos hd, List.foldl_cons]
      refine ih (fun j hj => ?_) (by omega) ?_ (by omega) _
      · rw [Nat.add_assoc, Nat.add_comm 1 j]
        exact hbytes (j + 1) (by omega)
      · refine hstop.imp (by omega) ?_
        rintro ⟨c, hc, hno⟩
        rcases List.mem_cons.1 hc with rfl | hc
        · exact absurd (hd.symm.trans hno) (by decide)
        · exact ⟨c, hc, hno⟩

/-- The table of colors has those of a terminal. -/
theorem ansiToVgaColors_eq : (∀ n < 8, ansiToVgaColors[30 + n]? =
      some (darkColors.getD n .black).code) ∧
    ∀ n < 8, ansiToVgaColors[90 + n]? = some (lightColors.getD n .black).code := by decide

theorem setAnsiColor_eq (s : Vga) (n : ℤ) :
    setAnsiColor s n = some { s with color := attributeColor s.color n } := by
  obtain ⟨hdark, hlight⟩ := ansiToVgaColors_eq
  unfold setAnsiColor attributeColor
  by_cases h₀ : n = 0
  · rw [if_pos h₀, if_pos h₀]
  rw [if_neg h₀, if_neg h₀]
  by_cases h₁ : 30 ≤ n ∧ n ≤ 37
  · rw [if_pos (.inl h₁), if_pos h₁, show n.toNat = 30 + (n - 30).toNat by omega,
      hdark _ (by omega)]
    rfl
  by_cases h₂ : 90 ≤ n ∧ n ≤ 97
  · rw [if_pos (.inr h₂), if_neg h₁, if_pos h₂, show n.toNat = 90 + (n - 90).toNat by omega,
      hlight _ (by omega)]
    rfl
  rw [if_neg (not_or.2 ⟨h₁, h₂⟩), if_neg h₁, if_neg h₂]
  by_cases h₃ : 40 ≤ n ∧ n ≤ 47
  · rw [if_pos (.inl h₃), if_pos h₃, show (n - 10).toNat = 30 + (n - 40).toNat by omega,
      hdark _ (by omega)]
    rfl
  by_cases h₄ : 100 ≤ n ∧ n ≤ 107
  · rw [if_pos (.inr h₄), if_neg h₃, if_pos h₄, show (n - 10).toNat = 90 + (n - 100).toNat by omega,
      hlight _ (by omega)]
    rfl
  rw [if_neg (not_or.2 ⟨h₃, h₄⟩), if_neg h₃, if_neg h₄]

/-- `got_escape` sets the color, if `parse_int` stops inside of the buffer. -/
theorem InBuffer.gotEscape_eq (h : InBuffer s bs)
    (hstop : bs.length < bufferSize ∨ bs.head? ≠ some 91 ∨ ∃ c ∈ bs.tail, isdigit c = false) :
    gotEscape s = some { s with color := escapeColor s.color bs } := by
  rw [gotEscape, bufferAt_of_lt (by decide), h.bytes 0 (by decide), Option.bind_eq_bind,
    Option.bind_some]
  cases bs with
  | nil => rfl
  | cons b bs =>
    rw [List.getD_cons_zero]
    by_cases hb : b = 91
    · subst hb
      have hparse : parseInt s = some (u32 (decimal (bs.takeWhile isdigit))) := by
        rw [parseInt, parseIntLoop_eq bs, decimal, ← foldl_u32]
        · rfl
        · intro j hj
          rw [h.bytes _ hj, Nat.add_comm, List.getD_cons_succ]
        · rw [Nat.add_comm]
          exact h.room
        · rw [Nat.add_comm]
          exact hstop.imp_right fun h => h.resolve_left (not_not.2 rfl)
        · exact Nat.lt_of_succ_le h.room
      rw [if_neg (not_not.2 rfl), hparse, Option.bind_eq_bind, Option.bind_some, setAnsiColor_eq]
      rfl
    · rw [if_pos hb]
      unfold escapeColor
      split
      · rename_i heq
        cases heq
        exact absurd rfl hb
      · rfl

/-- The buffer was overrun, or there is a byte at which `parse_int` stops. -/
theorem InBuffer.stops (h : InBuffer s bs) (hin : s.inEscape = true)
    (hover : ¬ s.Overruns (.put 109)) :
    bs.length < bufferSize ∨ bs.head? ≠ some 91 ∨ ∃ c ∈ bs.tail, isdigit c = false := by
  rcases Nat.eq_or_lt_of_le h.room with hfull | hlt
  · right
    by_contra hnot
    obtain ⟨hfirst, hdigits⟩ := not_or.1 hnot
    rw [not_not] at hfirst
    cases bs with
    | nil => cases hfirst
    | cons b bs =>
      obtain rfl : b = 91 := Option.some_inj.1 hfirst
      refine hover ⟨rfl, hin, h.index.trans hfull, h.bytes 0 (by decide), fun i hi hi' => ?_⟩
      obtain ⟨i, rfl⟩ := Nat.exists_eq_succ_of_ne_zero (Nat.ne_of_gt hi)
      have hlt : i < bs.length := by
        rw [← hfull] at hi'
        exact Nat.lt_of_succ_lt_succ hi'
      rw [h.bytes _ hi', List.getD_cons_succ, List.getD_eq_getElem _ _ hlt]
      by_contra hno
      exact hdigits ⟨_, List.getElem_mem hlt, Bool.eq_false_iff.2 hno⟩
  · exact .inl hlt

/-- One more byte. -/
theorem InBuffer.push (h : InBuffer s bs) (hroom : bs.length < bufferSize) (c : UInt8) :
    InBuffer { s with
      buffer := Function.update s.buffer s.bufferIndex c
      bufferIndex := s.bufferIndex + 1 } (bs ++ [c]) := by
  refine ⟨?_, ?_, fun i hi => ?_⟩
  · rw [List.length_append, h.index]
    rfl
  · rw [List.length_append]
    exact hroom
  · simp only [h.index]
    rcases Nat.lt_trichotomy i bs.length with hlt | rfl | hgt
    · rw [Function.update_of_ne (Nat.ne_of_lt hlt), h.bytes i hi, List.getD_append _ _ _ _ hlt]
    · rw [Function.update_self, List.getD_append_right _ _ _ _ (Nat.le_refl _), Nat.sub_self]
      rfl
    · rw [Function.update_of_ne (Nat.ne_of_gt hgt), h.bytes i hi,
        List.getD_eq_default _ _ (Nat.le_of_lt hgt),
        List.getD_eq_default _ _ (by rw [List.length_append]; exact hgt)]

/-! ### The cursor -/

/-- Below the last row, the rows move up. -/
theorem scroll_of_eq (h : s.cursorY = 25) : scroll s = some { s with
    cursorY := 24
    fb := fun i => if 24 * 80 ≤ i ∧ i < 25 * 80 then cell 32 s.color
      else if i < 24 * 80 then s.fb (i + 80) else s.fb i } := by
  have hcopy : s.copyCells 0 80 (24 * 80) = some { s with
      fb := fun i => if i < 24 * 80 then s.fb (i + 80) else s.fb i } := by
    rw [Vga.copyCells, if_pos (by decide)]
    simp only [Nat.zero_le, true_and, Nat.zero_add, Nat.sub_zero]
  rw [scroll, h, scrollLoop, if_pos (Nat.le_of_eq h.symm), hcopy]
  simp only [Option.bind_eq_bind, Option.bind_some]
  rw [Vga.fillCells, if_pos (by decide), Option.bind_some, scrollLoop_of_lt]
  · simp only [h]
  · change s.cursorY - 1 < 25
    omega

/-- The line feed. -/
theorem Terminal.Shown.newLine (h : t.Shown s) :
    ∃ s', scroll { s with cursorX := 0, cursorY := s.cursorY + 1 } = some s' ∧
      t.newLine.Shown s' := by
  have hrow := h.row
  by_cases hlast : t.line + 1 < 25
  · refine ⟨_, scrollLoop_of_lt (by simp only; omega) _, ?_⟩
    have hnew : t.newLine = { t with line := t.line + 1, column := 0 } := by
      rw [Terminal.newLine, if_pos hlast]
    rw [hnew]
    exact {
      screen := by
        have hscreen := h.screen
        rw [show t.line - 24 = t.line + 1 - 24 by omega] at hscreen
        exact hscreen
      row := by simp only; omega
      column := rfl
      inside := Nat.succ_pos 79
      color := h.color
      escape := h.escape
      buffer := ⟨h.buffer.index, h.buffer.room, h.buffer.bytes⟩ }
  · have hbottom : s.cursorY + 1 = 25 := by omega
    refine ⟨_, scroll_of_eq hbottom, ?_⟩
    have hnew : t.newLine = { t with
        line := t.line + 1
        column := 0
        paper := writeLine t.paper (t.line + 1) (cell 32 t.color) } := by
      rw [Terminal.newLine, if_neg hlast]
    rw [hnew]
    exact {
      screen := by
        have hscroll : Shows 80 25 (fun i => if 24 * 80 ≤ i ∧ i < 25 * 80 then cell 32 s.color
            else if i < 24 * 80 then s.fb (i + 80) else s.fb i) _ _ :=
          h.screen.scroll (fun i hi => by rw [if_neg (by omega), if_pos hi])
            fun i hi hi' => if_pos ⟨hi, hi'⟩
        rw [show t.line - 24 + (24 + 1) = t.line + 1 by omega,
          show t.line - 24 + 1 = t.line + 1 - 24 by omega, h.color] at hscroll
        rw [← h.color] at hscroll ⊢
        exact hscroll
      row := by simp only; omega
      column := rfl
      inside := Nat.succ_pos 79
      color := h.color
      escape := h.escape
      buffer := ⟨h.buffer.index, h.buffer.room, h.buffer.bytes⟩ }

/-- The end of `vga_put`, when the cursor is in a column of its line or right behind it. -/
theorem Terminal.Shown.moveTo (h : t.Shown s) {column : ℕ} (s₁ : Vga)
    (hs₁ : s₁ = { s with cursorX := column }) :
    ∃ s', scroll (if 80 ≤ s₁.cursorX then { s₁ with cursorX := 0, cursorY := s₁.cursorY + 1 }
      else s₁) = some s' ∧ (t.moveTo column).Shown s' := by
  subst hs₁
  unfold Terminal.moveTo
  by_cases hend : 80 ≤ column
  · rw [if_pos hend, if_pos hend]
    exact h.newLine
  · rw [if_neg hend, if_neg hend]
    have hrow := h.row
    exact ⟨_, scrollLoop_of_lt (by simp only; omega) _, {
      screen := h.screen
      row := h.row
      column := rfl
      inside := Nat.not_le.1 hend
      color := h.color
      escape := h.escape
      buffer := ⟨h.buffer.index, h.buffer.room, h.buffer.bytes⟩ }⟩

/-- The character at the cursor. -/
theorem Terminal.Shown.writeChar (h : t.Shown s) (c : UInt8) :
    ∃ s', s.setCell (s.cursorY * 80 + s.cursorX) (cell c s.color) = some s' ∧
      (t.writeChar c).Shown s' ∧ s'.cursorX = s.cursorX := by
  have hrow := h.row
  have hx : s.cursorX < 80 := h.column ▸ h.inside
  refine ⟨_, setCell_of_lt (cell_lt hx (by omega)), {
    screen := ?_
    row := h.row
    column := h.column
    inside := h.inside
    color := h.color
    escape := h.escape
    buffer := ⟨h.buffer.index, h.buffer.room, h.buffer.bytes⟩ }, rfl⟩
  have hwrite := h.screen.write (y := s.cursorY) hx (cell c s.color)
  rw [show t.line - 24 + s.cursorY = t.line by omega, h.column, h.color] at hwrite
  rw [h.column, h.color]
  exact hwrite

/-- The columns at which a tab stops. -/
theorem tab_eq : ∀ x < 80, (x + 8) &&& 0xfffffff8 = x / 8 * 8 + 8 := by decide

theorem Terminal.Shown.setColumn (h : t.Shown s) (column : ℕ) (hc : column < 80) :
    Terminal.Shown { t with column := column } { s with cursorX := column } := {
  screen := h.screen
  row := h.row
  column := rfl
  inside := hc
  color := h.color
  escape := h.escape
  buffer := ⟨h.buffer.index, h.buffer.room, h.buffer.bytes⟩ }

/-- A cursor on the screen stays where it is. -/
theorem Terminal.Shown.scroll_eq (h : t.Shown s) :
    scroll (if 80 ≤ s.cursorX then { s with cursorX := 0, cursorY := s.cursorY + 1 } else s) =
      some s := by
  have hrow := h.row
  have hcolumn := h.column
  have hinside := h.inside
  rw [if_neg (by omega)]
  exact scrollLoop_of_lt (by omega) _

/-- A character outside of an escape sequence. -/
theorem Terminal.Shown.typed (h : t.Shown s) (hescape : t.escape = none) (c : UInt8) :
    ∃ s', vgaPut s c = some s' ∧ (t.typed c).Shown s' := by
  have hnot : s.inEscape = false := by rw [h.escape, hescape]; rfl
  have hinside := h.inside
  unfold vgaPut putChar Terminal.typed
  rw [if_neg (by rw [hnot]; decide)]
  by_cases hback : c = 8
  · rw [if_pos hback, if_pos hback]
    have hleft : (if 0 < s.cursorX then { s with cursorX := s.cursorX - 1 } else s) =
        { s with cursorX := t.column - 1 } := by
      rw [← h.column]
      split_ifs with hpos
      · rfl
      · rw [show s.cursorX - 1 = s.cursorX by omega]
    have hcolumn := h.setColumn (t.column - 1) (by omega)
    obtain ⟨s', hset, hs', -⟩ := hcolumn.writeChar 32
    simp only [hleft]
    rw [hset, Option.bind_eq_bind, Option.bind_some, hs'.scroll_eq]
    exact ⟨s', rfl, hs'⟩
  rw [if_neg hback, if_neg hback]
  by_cases htab : c = 9
  · rw [if_pos htab, if_pos htab, Option.bind_eq_bind, Option.bind_some]
    exact h.moveTo _ (by rw [tab_eq _ (h.column ▸ hinside), h.column])
  rw [if_neg htab, if_neg htab]
  by_cases hline : c = 10
  · rw [if_pos hline, if_pos hline, Option.bind_eq_bind, Option.bind_some]
    exact h.newLine
  rw [if_neg hline, if_neg hline]
  by_cases hreturn : c = 13
  · rw [if_pos hreturn, if_pos hreturn, Option.bind_eq_bind, Option.bind_some]
    have hcolumn := h.setColumn 0 (Nat.succ_pos 79)
    exact ⟨_, hcolumn.scroll_eq, hcolumn⟩
  rw [if_neg hreturn, if_neg hreturn]
  by_cases hesc : c = 27
  · rw [if_pos hesc, if_pos hesc, Option.bind_eq_bind, Option.bind_some]
    have hbegin : Terminal.Shown { t with escape := some [] } { s with inEscape := true } := {
      screen := h.screen
      row := h.row
      column := h.column
      inside := h.inside
      color := h.color
      escape := rfl
      buffer := by
        have hbuffer := h.buffer
        rw [hescape] at hbuffer
        exact ⟨hbuffer.index, hbuffer.room, hbuffer.bytes⟩ }
    exact ⟨_, hbegin.scroll_eq, hbegin⟩
  · rw [if_neg hesc, if_neg hesc]
    obtain ⟨s₁, hset, hs₁, hx⟩ := h.writeChar c
    rw [hset, Option.bind_eq_bind, Option.bind_some]
    simp only [Option.pure_def, Option.bind_some]
    exact hs₁.moveTo { s₁ with cursorX := s₁.cursorX + 1 } (by rw [hx, h.column])

/-- What one call does to the screen, the terminal does on its paper. -/
theorem Terminal.Shown.put (h : t.Shown s) (c : UInt8) (hover : ¬ s.Overruns (.put c)) :
    ∃ s', vgaPut s c = some s' ∧ (t.put c).Shown s' := by
  cases hescape : t.escape with
  | none =>
    rw [Terminal.put, hescape]
    exact h.typed hescape c
  | some bs =>
    have hin : s.inEscape = true := by rw [h.escape, hescape]; rfl
    have hbuffer := h.buffer
    rw [hescape, Option.getD_some] at hbuffer
    have hempty : ∀ color, InBuffer { s with
        color := color
        inEscape := false
        bufferIndex := 0
        buffer := fun i => if i < bufferSize then 0 else s.buffer i } [] := fun color =>
      ⟨rfl, Nat.zero_le _, fun i hi => if_pos hi⟩
    rw [Terminal.put, hescape, vgaPut, if_pos hin]
    simp only
    by_cases hm : c = 109
    · -- the sequence ends, and it has a color
      rw [if_pos (.inr hm), if_pos hm, if_pos hm, hbuffer.gotEscape_eq]
      · refine ⟨_, rfl, {
          screen := h.screen
          row := h.row
          column := h.column
          inside := h.inside
          color := by rw [h.color]
          escape := rfl
          buffer := hempty _ }⟩
      · exact hbuffer.stops hin (hm ▸ hover)
    · rw [if_neg hm, if_neg hm]
      by_cases hroom : bs.length < bufferSize
      · -- one more byte
        rw [if_neg (by rw [not_or, hbuffer.index]; exact ⟨Nat.not_le.2 hroom, hm⟩),
          Vga.setBuffer, if_pos (hbuffer.index ▸ hroom), if_pos hroom]
        refine ⟨_, rfl, {
          screen := h.screen
          row := h.row
          column := h.column
          inside := h.inside
          color := h.color
          escape := hin
          buffer := hbuffer.push hroom c }⟩
      · -- too long
        rw [if_pos (.inl (hbuffer.index ▸ Nat.not_lt.1 hroom)), if_neg hroom]
        exact ⟨_, rfl, {
          screen := h.screen
          row := h.row
          column := h.column
          inside := h.inside
          color := h.color
          escape := rfl
          buffer := hempty _ }⟩

theorem Terminal.Shown.clear (h : t.Shown s) : ∃ s', vgaClear s = some s' ∧ t.clear.Shown s' := by
  rw [vgaClear, Vga.fillCells, if_pos (Nat.le_refl _)]
  refine ⟨_, rfl, {
    screen := fun y hy x hx => if_pos ⟨Nat.zero_le _, cellIndex_lt hx hy⟩
    row := rfl
    column := rfl
    inside := Nat.succ_pos 79
    color := h.color
    escape := h.escape
    buffer := ⟨h.buffer.index, h.buffer.room, h.buffer.bytes⟩ }⟩

/-- The step lemma. -/
theorem Terminal.Shown.step (h : t.Shown s) (hover : ¬ s.Overruns call) :
    ∃ s', call.exec s = some s' ∧ (t.exec call).Shown s' := by
  cases call with
  | clear => exact h.clear
  | put c => exact h.put c hover

theorem Terminal.shown_boot (fb : ℕ → UInt16) : (Terminal.boot fb).Shown (Vga.boot fb) where
  screen y _ x _ := by
    change fb (y * 80 + x) = fb ((0 - 24 + y) * 80 + x)
    rw [Nat.zero_sub, Nat.zero_add]
  row := rfl
  column := rfl
  inside := Nat.succ_pos 79
  color := rfl
  escape := rfl
  buffer := ⟨rfl, Nat.zero_le _, fun _ _ => rfl⟩

/-- The run lemma. -/
theorem Terminal.Shown.run (h : t.Shown s) (hinside : NoneOverruns s calls) :
    ∃ s', calls.foldlM VgaCall.exec s = some s' ∧ (calls.foldl Terminal.exec t).Shown s' := by
  induction calls generalizing s t with
  | nil => exact ⟨s, rfl, h⟩
  | cons call calls ih =>
    obtain ⟨s₁, hexec, hs₁⟩ := h.step hinside.1
    rw [List.foldlM_cons, hexec, Option.bind_eq_bind, Option.bind_some, List.foldl_cons]
    exact ih hs₁ (hinside.2 s₁ hexec)

/-- A run that ends was inside. -/
theorem noneOverruns_of_run (h : calls.foldlM VgaCall.exec s = some s') :
    NoneOverruns s calls := by
  induction calls generalizing s with
  | nil => trivial
  | cons call calls ih =>
    rw [List.foldlM_cons, Option.bind_eq_bind] at h
    obtain ⟨s₁, hexec, hrest⟩ := Option.bind_eq_some_iff.1 h
    refine ⟨fun hover => ?_, fun s₂ hs₂ => ?_⟩
    · rw [exec_eq_none hover] at hexec
      cases hexec
    · obtain rfl := Option.some_inj.1 (hexec.symm.trans hs₂)
      exact ih hrest

/-- After every run of calls the screen is a window on what the terminal has on its paper. -/
theorem shown_of_run (fb : ℕ → UInt16) (calls : List VgaCall) (s' : Vga)
    (h : calls.foldlM VgaCall.exec (Vga.boot fb) = some s') :
    (calls.foldl Terminal.exec (Terminal.boot fb)).Shown s' := by
  obtain ⟨s₁, hrun, hs₁⟩ := (Terminal.shown_boot fb).run (noneOverruns_of_run h)
  obtain rfl := Option.some_inj.1 (hrun.symm.trans h)
  exact hs₁

/-- New paper, a letter in red, and a line feed. -/
theorem shown_redLetter : ∃ s',
    [.clear, .put 27, .put 91, .put 51, .put 49, .put 109, .put 65, .put 10].foldlM VgaCall.exec
      (Vga.boot fun _ => 0) = some s' ∧
    ([.clear, .put 27, .put 91, .put 51, .put 49, .put 109, .put 65, .put 10].foldl Terminal.exec
      (Terminal.boot fun _ => 0)).Shown s' := by
  obtain ⟨s', hrun⟩ := Option.isSome_iff_exists.1 (show (List.foldlM VgaCall.exec
    (Vga.boot fun _ => 0) [.clear, .put 27, .put 91, .put 51, .put 49, .put 109, .put 65,
      .put 10]).isSome = true by decide)
  exact ⟨s', hrun, shown_of_run _ _ s' hrun⟩

/-! ### Text -/

/-- A character of a text: it stands for itself, or it ends a line. -/
def Plain (c : UInt8) : Prop := c ≠ 8 ∧ c ≠ 9 ∧ c ≠ 13 ∧ c ≠ 27

instance (c : UInt8) : Decidable (Plain c) := inferInstanceAs (Decidable (_ ∧ _))

/-- The rows of a text behind what is in its first row already. -/
def rowsOf (row : List UInt8) : List UInt8 → List (List UInt8)
  | [] => [row]
  | c :: text =>
    if c = 10 then row :: rowsOf [] text
    else if 80 ≤ row.length + 1 then (row ++ [c]) :: rowsOf [] text
    else rowsOf (row ++ [c]) text

/-- The cell `x` of the line `l`, when `rows` were written on new paper. -/
def rowsCell (color : UInt8) (rows : List (List UInt8)) (l x : ℕ) : UInt16 :=
  match (rows.getD l [])[x]? with
  | some c => cell c color
  | none => cell 32 (if l < 25 then VgaColor.white.code else color)

/-- The rows `done` and, at the cursor, the row `row` were written on new paper. -/
structure Terminal.HasRows (t : Terminal) (pen : UInt8) (done : List (List UInt8))
    (row : List UInt8) : Prop where
  line : t.line = done.length
  column : t.column = row.length
  inside : row.length < 80
  color : t.color = pen
  escape : t.escape = none
  cells : ∀ l ≤ max 24 t.line, ∀ x < 80, t.paper l x = rowsCell pen (done ++ [row]) l x

theorem Terminal.hasRows_clear (hescape : t.escape = none) :
    t.clear.HasRows t.color [] [] where
  line := rfl
  column := rfl
  inside := Nat.succ_pos 79
  color := rfl
  escape := hescape
  cells l hl x hx := by
    have hmax : max 24 t.clear.line = 24 := rfl
    have hempty : (([] ++ [[]] : List (List UInt8)).getD l []) = [] := by
      cases l <;> rfl
    rw [rowsCell, hempty, List.getElem?_nil, if_pos (by omega)]
    rfl

/-- The row is ended. -/
theorem Terminal.HasRows.newLine {done : List (List UInt8)} {row : List UInt8} {pen : UInt8}
    (hline : t.line = done.length) (hcolor : t.color = pen) (hescape : t.escape = none)
    (hcells : ∀ l ≤ max 24 t.line, ∀ x < 80, t.paper l x = rowsCell pen (done ++ [row]) l x) :
    t.newLine.HasRows pen (done ++ [row]) [] where
  line := by
    rw [List.length_append, ← hline]
    rfl
  column := rfl
  inside := Nat.succ_pos 79
  color := hcolor
  escape := hescape
  cells l hl x hx := by
    change l ≤ max 24 (t.line + 1) at hl
    -- the empty row is not seen
    have hempty : ((done ++ [row]) ++ [[]]).getD l [] = (done ++ [row]).getD l [] := by
      rcases Nat.lt_or_ge l (done ++ [row]).length with hlt | hge
      · rw [List.getD_append _ _ _ _ hlt]
      · rw [List.getD_append_right _ _ _ _ hge, List.getD_eq_default _ _ hge]
        cases l - (done ++ [row]).length <;> rfl
    have hlength : (done ++ [row]).length = t.line + 1 := by
      rw [List.length_append, ← hline]
      rfl
    unfold rowsCell at hcells ⊢
    rw [hempty]
    unfold Terminal.newLine
    simp only
    by_cases hnew : t.line + 1 < 25
    · rw [if_pos hnew]
      exact hcells l (by omega) x hx
    · rw [if_neg hnew, writeLine]
      by_cases hlast : l = t.line + 1
      · rw [if_pos hlast, List.getD_eq_default _ _ (by omega), List.getElem?_nil, if_neg (by omega)]
        exact congrArg (cell 32) hcolor
      · rw [if_neg hlast]
        exact hcells l (by omega) x hx

/-- A character is written behind those of its row. -/
theorem Terminal.HasRows.writeChar {done : List (List UInt8)} {row : List UInt8} {pen : UInt8}
    (h : t.HasRows pen done row) (c : UInt8) : ∀ l ≤ max 24 t.line, ∀ x < 80,
      (t.writeChar c).paper l x = rowsCell pen (done ++ [row ++ [c]]) l x := by
  intro l hl x hx
  change writeAt t.paper t.line t.column (cell c t.color) l x = _
  unfold writeAt
  rw [h.line, h.column, h.color, h.cells l hl x hx]
  unfold rowsCell
  rcases Nat.lt_trichotomy l done.length with hlt | rfl | hgt
  · rw [if_neg (by omega), List.getD_append _ _ _ _ hlt, List.getD_append _ _ _ _ hlt]
  · rw [List.getD_append_right _ _ _ _ (Nat.le_refl _),
      List.getD_append_right _ _ _ _ (Nat.le_refl _), Nat.sub_self, List.getD_cons_zero,
      List.getD_cons_zero]
    rcases Nat.lt_trichotomy x row.length with hlt | rfl | hgt
    · rw [if_neg (by omega), List.getElem?_append_left hlt]
    · rw [if_pos ⟨rfl, rfl⟩, List.getElem?_concat_length]
    · rw [if_neg (by omega), List.getElem?_eq_none (Nat.le_of_lt hgt),
        List.getElem?_eq_none (by rw [List.length_append]; exact hgt)]
  · have hover : ∀ r : List UInt8, (done ++ [r]).getD l [] = [] := fun r =>
      List.getD_eq_default _ _ (by rw [List.length_append]; exact hgt)
    rw [if_neg (by omega), hover, hover]

/-- The text is on the paper, row by row. -/
theorem Terminal.HasRows.write {done : List (List UInt8)} {row text : List UInt8} {pen : UInt8}
    (h : t.HasRows pen done row) (hplain : ∀ c ∈ text, Plain c) :
    ∃ done' row', done' ++ [row'] = done ++ rowsOf row text ∧
      ((text.map VgaCall.put).foldl Terminal.exec t).HasRows pen done' row' := by
  induction text generalizing t done row with
  | nil => exact ⟨done, row, rfl, h⟩
  | cons c text ih =>
    have hc := hplain c List.mem_cons_self
    have hrest : ∀ d ∈ text, Plain d := fun d hd => hplain d (List.mem_cons_of_mem c hd)
    rw [List.map_cons, List.foldl_cons, rowsOf]
    have hput : t.exec (.put c) = if c = 10 then t.newLine else
        (t.writeChar c).moveTo (t.column + 1) := by
      rw [Terminal.exec, Terminal.put, h.escape]
      simp only
      rw [Terminal.typed, if_neg hc.1, if_neg hc.2.1, if_neg hc.2.2.1, if_neg hc.2.2.2]
    rw [hput]
    by_cases hline : c = 10
    · rw [if_pos hline, if_pos hline, ← List.singleton_append, ← List.append_assoc]
      exact ih (.newLine h.line h.color h.escape h.cells) hrest
    · rw [if_neg hline, if_neg hline, Terminal.moveTo, h.column]
      by_cases hend : 80 ≤ row.length + 1
      · rw [if_pos hend, if_pos hend, ← List.singleton_append, ← List.append_assoc]
        exact ih (.newLine h.line h.color h.escape (h.writeChar c)) hrest
      · rw [if_neg hend, if_neg hend]
        refine ih ⟨h.line, ?_, ?_, h.color, h.escape, h.writeChar c⟩ hrest
        · rw [List.length_append]
          rfl
        · rw [List.length_append]
          exact Nat.not_le.1 hend

/-- A console that is not in an escape sequence shows some terminal. -/
theorem VgaOk.exists_shown (h : VgaOk s) (hescape : s.inEscape = false) :
    ∃ t : Terminal, t.Shown s ∧ t.escape = none ∧ t.color = s.color := by
  refine ⟨⟨fun l c => s.fb (l * 80 + c), s.cursorY, s.cursorX, s.color, none⟩, {
    screen := fun y _ x _ => ?_
    row := ?_
    column := rfl
    inside := h.cursorX
    color := rfl
    escape := hescape
    buffer := ⟨h.outside hescape, Nat.zero_le _, fun i hi => ?_⟩ }, rfl, rfl⟩
  · have hrow := h.cursorY
    rw [show s.cursorY - 24 + y = y by omega]
  · have hrow := h.cursorY
    change s.cursorY = min s.cursorY 24
    omega
  · exact h.zeros i (by rw [h.outside hescape]; exact Nat.zero_le i) hi

/-- What the screen shows after `vga_clear` and a text: the last 25 rows of the text. -/
structure ShowsRows (s : Vga) (pen : UInt8) (rows : List (List UInt8)) : Prop where
  cells : ∀ y < 25, ∀ x < 80, s.fb (y * 80 + x) = rowsCell pen rows (rows.length - 25 + y) x
  cursorY : s.cursorY = min (rows.length - 1) 24
  cursorX : some s.cursorX = rows.getLast?.map List.length

/-- Outside of an escape sequence nothing overruns the buffer. -/
theorem Terminal.Shown.write (h : t.Shown s) (hescape : t.escape = none) {text : List UInt8}
    (hplain : ∀ c ∈ text, Plain c) :
    ∃ s', (text.map VgaCall.put).foldlM VgaCall.exec s = some s' ∧
      ((text.map VgaCall.put).foldl Terminal.exec t).Shown s' := by
  induction text generalizing s t with
  | nil => exact ⟨s, rfl, h⟩
  | cons c text ih =>
    have hc := hplain c List.mem_cons_self
    have hover : ¬ s.Overruns (.put c) := by
      rintro ⟨-, hin, -⟩
      rw [h.escape, hescape] at hin
      cases hin
    have hafter : (t.exec (.put c)).escape = none := by
      rw [Terminal.exec, Terminal.put, hescape]
      simp only
      rw [Terminal.typed, if_neg hc.1, if_neg hc.2.1, if_neg hc.2.2.1, if_neg hc.2.2.2]
      unfold Terminal.moveTo
      split_ifs <;> exact hescape
    obtain ⟨s₁, hexec, hs₁⟩ := h.step hover
    rw [List.map_cons, List.foldlM_cons, hexec, Option.bind_eq_bind, Option.bind_some,
      List.foldl_cons]
    exact ih hs₁ hafter fun d hd => hplain d (List.mem_cons_of_mem c hd)

/-- After `vga_clear` and a text the screen shows the last rows of the text. -/
theorem clear_write_shown (hok : VgaOk s) (hescape : s.inEscape = false) {text : List UInt8}
    (hplain : ∀ c ∈ text, Plain c) : ∃ s₁ s', vgaClear s = some s₁ ∧
      (text.map VgaCall.put).foldlM VgaCall.exec s₁ = some s' ∧
      ShowsRows s' s.color (rowsOf [] text) := by
  obtain ⟨t, ht, hnone, hcolor⟩ := hok.exists_shown hescape
  obtain ⟨s₁, hclear, hs₁⟩ := ht.clear
  obtain ⟨s', hrun, hs'⟩ := hs₁.write hnone hplain
  obtain ⟨done, row, hrows, hhas⟩ := (Terminal.hasRows_clear hnone).write hplain
  rw [List.nil_append] at hrows
  have hline := hhas.line
  have hlength : (done ++ [row]).length = done.length + 1 := List.length_append
  refine ⟨s₁, s', hclear, hrun, fun y hy x hx => ?_, ?_, ?_⟩
  · rw [hs'.screen y hy x hx, hhas.cells _ (by omega) x hx, hcolor, ← hrows, hlength, hline,
      show done.length + 1 - 25 = done.length - 24 by omega]
  · rw [hs'.row, hline, ← hrows, hlength, Nat.add_sub_cancel]
  · rw [hs'.column, hhas.column, ← hrows, List.getLast?_concat]
    rfl

end Terminal

end Kernel

end Bluejay
