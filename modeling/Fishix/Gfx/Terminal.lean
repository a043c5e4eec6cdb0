import Fishix.Common.CString
import Fishix.Common.Trace
import Fishix.Common.Word

/-!
# The grid of the virtual terminal

Model of `VirtualTerminal::write_char` with what it calls (gfx/terminal.cpp:81-143, 195-387): the
parser of control sequences, the cursor and the cells of the buffer. Pixels are left out. An `int`
wraps around, a coordinate that is passed on becomes a `usize`.

The cursor stays in the grid and so do the accesses, but for three slips: in insert mode the last
character of a line is moved behind the line, `CSI P` moves characters behind the line where its
last column comes out left of the cursor, and a tab wraps at the end of an `int`.

* `DrawsInside`: what the loops over cells keep.
* `Unfinished.finishChar`: the end of `write_char` brings the cursor back.
* `staysInside_iff`: every stream of bytes.
-/

namespace Fishix.Gfx

open Function (update update_self update_of_ne)

/-! ## Numbers -/

/-- The value of an `int`. -/
def int32 (x : ℤ) : ℤ := x.bmod (2 ^ 32)

def usize (x : ℤ) : U64 := BitVec.ofInt 64 x

/-- `klib::clamp`. -/
def clamp (v low high : ℤ) : ℤ := min (max v low) high

/-- `klib::align_up` of an `int`, which is a `usize` for it (klib/algorithm.hpp:22-24). -/
def alignUpInt (i : ℤ) (alignment : U64) : ℤ :=
  if usize i % alignment ≠ 0#64 then int32 ((usize i / alignment + 1#64) * alignment).toNat else i

/-- `for (int x = low; x < high; x++)`. -/
def loopUp (low high : ℤ) : List ℤ := (List.range (high - low).toNat).map fun (i : ℕ) => low + i

def ascii (c : Char) : CChar := BitVec.ofNat 8 c.toNat

/-! ## The terminal -/

/-- A grid. The number of its cells is an `int` (gfx/terminal.cpp:168). -/
structure Grid where
  width : ℕ
  height : ℕ
  width_pos : 0 < width
  height_pos : 0 < height
  cells : width * height < 2 ^ 31

section Numbers

variable {x low high : ℤ} {n : ℕ}

theorem int32_eq_ite (x : ℤ) :
    int32 x = if x % 2 ^ 32 < 2 ^ 31 then x % 2 ^ 32 else x % 2 ^ 32 - 2 ^ 32 := by
  unfold int32
  rw [Int.bmod_def]
  rfl

theorem int32_of_lt (hlow : -2 ^ 31 ≤ x) (hhigh : x < 2 ^ 31) : int32 x = x := by
  rw [int32_eq_ite]
  split_ifs <;> omega

theorem int32_bounds (x : ℤ) : -2 ^ 31 ≤ int32 x ∧ int32 x < 2 ^ 31 := by
  rw [int32_eq_ite]
  split_ifs <;> omega

theorem toNat_usize (h : 0 ≤ x) (hn : x < n) (hbig : n < 2 ^ 31) : (usize x).toNat = x.toNat := by
  unfold usize
  rw [BitVec.toNat_ofInt]
  omega

theorem usize_lt (h : 0 ≤ x) (hn : x < n) (hbig : n < 2 ^ 31) : (usize x).toNat < n := by
  rw [toNat_usize h hn hbig]
  omega

theorem mem_loopUp : x ∈ loopUp low high ↔ low ≤ x ∧ x < high := by
  unfold loopUp
  rw [List.mem_map]
  constructor
  · rintro ⟨i, hi, rfl⟩
    rw [List.mem_range] at hi
    omega
  · rintro ⟨hlow, hhigh⟩
    exact ⟨(x - low).toNat, List.mem_range.mpr (by omega), by omega⟩

theorem clamp_bounds (h : low ≤ high) : low ≤ clamp x low high ∧ clamp x low high ≤ high := by
  unfold clamp
  omega

/-- A tab comes to the next column that is a multiple of eight. -/
theorem alignUpInt_nonneg_iff (h : 0 < x) (hx : x < 2 ^ 31) :
    0 ≤ alignUpInt x 8#64 ↔ x + 7 < 2 ^ 31 := by
  have hat : (usize x).toNat = x.toNat := by
    unfold usize
    rw [BitVec.toNat_ofInt]
    omega
  unfold alignUpInt
  have hmod : (usize x % 8#64 ≠ 0#64) ↔ x.toNat % 8 ≠ 0 := by
    rw [ne_eq, ← BitVec.toNat_inj, BitVec.toNat_umod, hat]
    rfl
  have hnext : ((usize x / 8#64 + 1#64) * 8#64).toNat = (x.toNat / 8 + 1) * 8 := by
    have h8 : (8#64).toNat = 8 := rfl
    have h1 : (1#64).toNat = 1 := rfl
    rw [BitVec.toNat_mul, BitVec.toNat_add, BitVec.toNat_udiv, hat, h8, h1]
    omega
  split_ifs with hunaligned
  · rw [hnext, int32_eq_ite]
    rw [hmod] at hunaligned
    split_ifs <;> omega
  · rw [hmod] at hunaligned
    omega

theorem Grid.width_lt (g : Grid) : g.width < 2 ^ 31 :=
  (Nat.le_mul_of_pos_right _ g.height_pos).trans_lt g.cells

theorem Grid.height_lt (g : Grid) : g.height < 2 ^ 31 :=
  (Nat.le_mul_of_pos_left _ g.width_pos).trans_lt g.cells

end Numbers

/-- `index` (gfx/terminal.cpp:82). Where it is an `int`, it is the same in the grid. -/
def Grid.index (g : Grid) (x y : U64) : U64 := y * BitVec.ofNat 64 g.width + x

/-- An access to a cell of `buffer`, or to an argument in `csi_args`. -/
inductive TerminalAccess
  | cell (x y : U64)
  | arg (i : ℕ)
  deriving DecidableEq

def maxCsiArgs : ℕ := 16

/-- The access lies in the array. -/
def TerminalAccess.InBounds (g : Grid) : TerminalAccess → Prop
  | .cell x y => x.toNat < g.width ∧ y.toNat < g.height ∧
      (g.index x y).toNat < g.width * g.height
  | .arg i => i < maxCsiArgs

theorem TerminalAccess.inBounds_cell {g : Grid} {x y : U64} (hx : x.toNat < g.width)
    (hy : y.toNat < g.height) : (TerminalAccess.cell x y).InBounds g := by
  have hcells := g.cells
  have hrow : y.toNat * g.width + g.width ≤ g.width * g.height := by
    rw [← Nat.succ_mul, mul_comm]
    exact Nat.mul_le_mul_left g.width hy
  have hwidth : (BitVec.ofNat 64 g.width).toNat = g.width := by
    rw [BitVec.toNat_ofNat, Nat.mod_eq_of_lt (g.width_lt.trans (by norm_num))]
  refine ⟨hx, hy, ?_⟩
  unfold Grid.index
  rw [BitVec.toNat_add, BitVec.toNat_mul, hwidth]
  omega

/-- What drawing does not change. -/
structure TerminalState where
  currentFg : BitVec 32
  currentBg : BitVec 32
  isBold : Bool := false
  cursorX : ℤ := 0
  cursorY : ℤ := 0
  oldCursorX : ℤ := 0
  oldCursorY : ℤ := 0
  csiProgress : ℕ := 0
  csiArgs : ℕ → ℤ := fun _ => 0
  csiArgIndex : ℕ := 0
  csiArgCount : ℕ := 0
  csiQuestionMark : Bool := false
  insertMode : Bool := false

/-- `VirtualTerminal`, with the accesses so far. -/
structure VirtualTerminal extends TerminalState where
  /-- `ColoredChar::encoded`, by index. -/
  buffer : U64 → U64
  cursorNeedsUndrawing : Bool := false
  accesses : List TerminalAccess := []

def rgb (r g b : ℕ) : BitVec 32 := BitVec.ofNat 32 (r * 2 ^ 16 + g * 2 ^ 8 + b)

/-- `color_table` (gfx/terminal.cpp:21-38). -/
def colorTable : List (BitVec 32) :=
  [rgb 0 0 0, rgb 205 49 49, rgb 13 188 121, rgb 229 229 16, rgb 36 114 200, rgb 188 63 188,
    rgb 17 168 205, rgb 229 229 229, rgb 102 102 102, rgb 241 76 76, rgb 35 209 139,
    rgb 245 245 67, rgb 59 142 234, rgb 214 112 214, rgb 41 184 219, rgb 229 229 229]

def color (n : ℤ) : BitVec 32 := colorTable.getD n.toNat 0#32

def defaultFgColor : BitVec 32 := color 15
def defaultBgColor : BitVec 32 := color 0

def boldFlag : BitVec 32 := 0x1000000#32

/-- `ColoredChar` of a character, which is signed, and its colours (gfx/terminal.hpp:41-49). -/
def coloredChar (c : CChar) (fg bg : BitVec 32) : U64 :=
  c.signExtend 64 ||| ((fg &&& 0x1ffffff#32).setWidth 64 <<< 8) |||
    ((bg &&& 0xffffff#32).setWidth 64 <<< 40)

def charOf (encoded : U64) : CChar := encoded.setWidth 8
def fgOf (encoded : U64) : BitVec 32 := (encoded >>> 8).setWidth 32 &&& 0x1ffffff#32
def bgOf (encoded : U64) : BitVec 32 := (encoded >>> 40).setWidth 32 &&& 0xffffff#32

namespace VirtualTerminal

section Drawing

variable (g : Grid) (t : VirtualTerminal)

/-- An access to a cell. -/
def touch (x y : U64) : VirtualTerminal := { t with accesses := t.accesses ++ [.cell x y] }

/-- `set_char_at` (gfx/terminal.cpp:81-89). -/
def setCharAt (x y : U64) (c : CChar) (fg bg : BitVec 32) : VirtualTerminal :=
  let t := t.touch x y
  if t.buffer (g.index x y) = coloredChar c fg bg then t
  else { t with
    buffer := update t.buffer (g.index x y) (coloredChar c fg bg)
    cursorNeedsUndrawing := false }

/-- A cell gets the character and the colours of another one. -/
def copyCell (encoded : U64) (x y : U64) : VirtualTerminal :=
  t.setCharAt g x y (charOf encoded) (fgOf encoded) (bgOf encoded)

def clearCell (x y : U64) : VirtualTerminal :=
  t.setCharAt g x y (ascii ' ') defaultFgColor defaultBgColor

/-- `move_char` (gfx/terminal.cpp:95-100). -/
def moveChar (oldX oldY newX newY : U64) : VirtualTerminal :=
  let encoded := t.buffer (g.index oldX oldY)
  ((t.touch oldX oldY).copyCell g encoded newX newY).clearCell g oldX oldY

/-- `scroll` (gfx/terminal.cpp:102-114). -/
def scroll : VirtualTerminal :=
  let t := (loopUp 0 (g.height - 1)).foldl (fun t y => (loopUp 0 g.width).foldl (fun t x =>
    let encoded := t.buffer (g.index (usize x) (usize (y + 1)))
    (t.touch (usize x) (usize (y + 1))).copyCell g encoded (usize x) (usize y)) t) t
  let t := (loopUp 0 g.width).foldl (fun t x => t.clearCell g (usize x) (usize (g.height - 1))) t
  { t with cursorNeedsUndrawing := true }

/-- `redraw_cursor` (gfx/terminal.cpp:116-136). -/
def redrawCursor : VirtualTerminal :=
  let t := if t.cursorNeedsUndrawing then t.touch (usize t.oldCursorX) (usize t.oldCursorY) else t
  { t with oldCursorX := t.cursorX, oldCursorY := t.cursorY }

/-- `move_cursor` (gfx/terminal.cpp:138-143). -/
def moveCursor (x y : ℤ) : VirtualTerminal :=
  redrawCursor { t with cursorX := x, cursorY := y, cursorNeedsUndrawing := true }

/-- The loops that clear cells from one column up to another. -/
def clearFrom (low high y : ℤ) : VirtualTerminal :=
  (loopUp low high).foldl (fun t x => t.clearCell g (usize x) (usize y)) t

/-- The loops that clear the cells of the display that meet a condition. -/
def clearWhere (p : ℤ → ℤ → Bool) : VirtualTerminal :=
  (loopUp 0 g.height).foldl (fun t y => (loopUp 0 g.width).foldl (fun t x =>
    if p x y then t.clearCell g (usize x) (usize y) else t) t) t

end Drawing

/-! ## Control sequences -/

section Control

variable (g : Grid) (t : VirtualTerminal)

/-- `reset_control_sequence` (gfx/terminal.cpp:195-201). -/
def resetControlSequence : VirtualTerminal :=
  { t with
    csiProgress := 0
    csiArgIndex := 0
    csiArgCount := 0
    csiArgs := fun _ => 0
    csiQuestionMark := false }

/-- An argument of `CSI m` (gfx/terminal.cpp:205-229). -/
def selectGraphic (i : ℕ) : VirtualTerminal :=
  let n := t.csiArgs i
  let t := { t with accesses := t.accesses ++ [.arg i] }
  if n = 0 then
    { t with currentFg := defaultFgColor, currentBg := defaultBgColor, isBold := false }
  else if n = 1 then { t with isBold := true }
  else if n = 7 then { t with currentFg := t.currentBg, currentBg := t.currentFg }
  else if n = 22 then { t with isBold := false }
  else if 30 ≤ n ∧ n ≤ 37 then { t with currentFg := color (n - 30) }
  else if 90 ≤ n ∧ n ≤ 97 then { t with currentFg := color (n + 8 - 90) }
  else if n = 39 then { t with currentFg := defaultFgColor }
  else if 40 ≤ n ∧ n ≤ 47 then { t with currentBg := color (n - 40) }
  else if n = 49 then { t with currentBg := defaultBgColor }
  else if 100 ≤ n ∧ n ≤ 107 then { t with currentBg := color (n + 8 - 100) }
  else t

/-- Where a cell or the cursor stands in the order that `CSI J` compares. -/
def order (x y : ℤ) : ℤ := int32 (int32 (int32 (y + 1) * g.width) + x)

/-- `CSI J` (gfx/terminal.cpp:231-248). -/
def eraseInDisplay : VirtualTerminal :=
  let n := t.csiArgs 0
  if n = 0 then t.clearWhere g fun x y => order g t.cursorX t.cursorY ≤ order g x y
  else if n = 1 then t.clearWhere g fun x y => order g x y ≤ order g t.cursorX t.cursorY
  else if n = 2 ∨ n = 3 then t.clearWhere g fun _ _ => true
  else t

/-- `CSI K` (gfx/terminal.cpp:250-260). -/
def eraseInLine : VirtualTerminal :=
  let n := t.csiArgs 0
  if n = 0 then t.clearFrom g t.cursorX g.width t.cursorY
  else if n = 1 then (loopUp 0 (t.cursorX + 1)).reverse.foldl
    (fun t x => t.clearCell g (usize x) (usize t.cursorY)) t
  else if n = 2 then t.clearFrom g 0 g.width t.cursorY
  else t

/-- `csi_args[0]` where it may be left out (gfx/terminal.cpp:282, 290). -/
def firstArg : VirtualTerminal :=
  if t.csiArgCount = 0 then { t with csiArgs := update t.csiArgs 0 1 } else t

/-- `last` (gfx/terminal.cpp:283, 291). -/
def lastColumn : ℤ := clamp (int32 (t.cursorX + t.csiArgs 0)) 0 g.width

/-- `CSI P` (gfx/terminal.cpp:281-288). -/
def deleteCharacters : VirtualTerminal :=
  let t := t.firstArg
  let last := t.lastColumn g
  let t := t.clearFrom g t.cursorX last t.cursorY
  (loopUp 0 (g.width - last)).foldl (fun t i =>
    t.moveChar g (usize (last + i)) (usize t.cursorY) (usize (int32 (t.cursorX + i)))
      (usize t.cursorY)) t

/-- `CSI X` (gfx/terminal.cpp:289-293). -/
def eraseCharacters : VirtualTerminal :=
  let t := t.firstArg
  t.clearFrom g t.cursorX (t.lastColumn g) t.cursorY

/-- `apply_control_sequence` (gfx/terminal.cpp:203-300). -/
def applyControlSequence (code : CChar) : VirtualTerminal :=
  let arg := t.csiArgs 0
  let count := max arg 1
  let lastX : ℤ := g.width - 1
  let lastY : ℤ := g.height - 1
  if code = ascii 'm' then (List.range (t.csiArgIndex + 1)).foldl selectGraphic t
  else if code = ascii 'J' then t.eraseInDisplay g
  else if code = ascii 'K' then t.eraseInLine g
  else if t.csiQuestionMark ∧ code = ascii 'h' then t
  else if t.csiQuestionMark ∧ code = ascii 'l' then t
  else if code = ascii 'A' then
    t.moveCursor t.cursorX (clamp (int32 (t.cursorY - count)) 0 lastY)
  else if code = ascii 'B' then
    t.moveCursor t.cursorX (clamp (int32 (t.cursorY + count)) 0 lastY)
  else if code = ascii 'C' then
    t.moveCursor (clamp (int32 (t.cursorX + count)) 0 lastX) t.cursorY
  else if code = ascii 'D' then
    t.moveCursor (clamp (int32 (t.cursorX - count)) 0 lastX) t.cursorY
  else if code = ascii 'E' then t.moveCursor 0 (clamp (int32 (t.cursorY + count)) 0 lastY)
  else if code = ascii 'F' then t.moveCursor 0 (clamp (int32 (t.cursorY - count)) 0 lastY)
  else if code = ascii 'G' then t.moveCursor (clamp (int32 (arg - 1)) 0 lastX) t.cursorY
  else if code = ascii 'H' ∨ code = ascii 'f' then
    t.moveCursor (clamp (int32 (arg - 1)) 0 lastX) (clamp (int32 (t.csiArgs 1 - 1)) 0 lastY)
  else if code = ascii 'd' then t.moveCursor t.cursorX (clamp (int32 (arg - 1)) 0 lastY)
  else if code = ascii 'r' then t.moveCursor 0 0
  else if code = ascii 'P' then t.deleteCharacters g
  else if code = ascii 'X' then t.eraseCharacters g
  else if code = ascii 'h' ∨ code = ascii 'l' then
    if arg = 4 then { t with insertMode := code = ascii 'h' } else t
  else t

/-- A byte of a control sequence behind `ESC [` (gfx/terminal.cpp:315-333). -/
def sequenceByte (c : CChar) : VirtualTerminal :=
  if ascii '0' ≤ c ∧ c ≤ ascii '9' then
    { t with
      csiArgs := update t.csiArgs t.csiArgIndex
        (int32 (int32 (t.csiArgs t.csiArgIndex * 10) + (c - ascii '0').toNat))
      csiArgCount := t.csiArgIndex + 1
      accesses := t.accesses ++ [.arg t.csiArgIndex] }
  else if ascii 'a' ≤ c ∧ c ≤ ascii 'z' ∨ ascii 'A' ≤ c ∧ c ≤ ascii 'Z' then
    (t.applyControlSequence g c).resetControlSequence
  else if c = ascii ';' then
    let t := { t with csiArgIndex := t.csiArgIndex + 1 }
    let t := if maxCsiArgs ≤ t.csiArgIndex then t.resetControlSequence else t
    { t with
      csiArgs := update t.csiArgs t.csiArgIndex 0
      accesses := t.accesses ++ [.arg t.csiArgIndex] }
  else if c = ascii '?' then { t with csiQuestionMark := true }
  else t.resetControlSequence

/-- Behind its last column a line ends (gfx/terminal.cpp:376-379). -/
def wrapLine : VirtualTerminal :=
  if (g.width : ℤ) ≤ t.cursorX then
    { t with cursorX := 0, cursorY := int32 (t.cursorY + 1) }
  else t

/-- Below the grid all lines go up (gfx/terminal.cpp:381-384). -/
def scrollLine : VirtualTerminal :=
  if (g.height : ℤ) ≤ t.cursorY then
    let t := t.scroll g
    { t with cursorY := int32 (t.cursorY - 1) }
  else t

/-- `write_char` behind its `switch` (gfx/terminal.cpp:376-386). -/
def finishChar : VirtualTerminal :=
  { ((t.wrapLine g).scrollLine g).redrawCursor with cursorNeedsUndrawing := true }

/-- `set_char_at_cursor` (gfx/terminal.cpp:91-93). -/
def setCharAtCursor (c : CChar) : VirtualTerminal :=
  t.setCharAt g (usize t.cursorX) (usize t.cursorY) c
    (t.currentFg ||| if t.isBold then boldFlag else 0#32) t.currentBg

/-- The loop of insert mode, from the last column to the cursor (gfx/terminal.cpp:368-369). -/
def shiftLine : VirtualTerminal :=
  (loopUp t.cursorX g.width).reverse.foldl (fun t i =>
    t.moveChar g (usize i) (usize t.cursorY) (usize (i + 1)) (usize t.cursorY)) t

/-- A character that is shown (gfx/terminal.cpp:366-373). -/
def printChar (c : CChar) : VirtualTerminal :=
  let t := if t.insertMode then t.shiftLine g else t
  let t := t.setCharAtCursor g c
  { t with cursorX := int32 (t.cursorX + 1) }

/-- The characters that are neither shown nor move the cursor (gfx/terminal.cpp:358-365). -/
def silent (c : CChar) : Bool :=
  c = 0x07#8 || c = 0x00#8 || c = 0x7f#8 || c = 0x0e#8 || c = 0x0f#8

/-- A byte outside of a control sequence (gfx/terminal.cpp:335-386). -/
def plainByte (c : CChar) : VirtualTerminal :=
  if c = 0x08#8 then
    if 0 < t.cursorX then
      redrawCursor { t with cursorX := t.cursorX - 1, cursorNeedsUndrawing := true }
    else { t with cursorNeedsUndrawing := false }
  else if c = 0x09#8 then
    finishChar g { t with cursorX := alignUpInt (int32 (t.cursorX + 1)) 8#64 }
  else if c = 0x0d#8 then finishChar g { t with cursorX := 0 }
  else if c = 0x0b#8 ∨ c = 0x0c#8 ∨ c = 0x0a#8 then
    finishChar g { t with
      cursorX := 0
      cursorY := int32 (t.cursorY + 1)
      cursorNeedsUndrawing := true }
  else if c = 0x1b#8 then finishChar g { t with csiProgress := 1 }
  else if silent c then finishChar g t
  else finishChar g (t.printChar g c)

/-- `write_char` (gfx/terminal.cpp:302-387). -/
def writeChar (c : CChar) : VirtualTerminal :=
  if t.csiProgress = 1 then
    if c = ascii '[' then { t with csiProgress := 2 } else t.resetControlSequence
  else if t.csiProgress = 2 then t.sequenceByte g c
  else t.plainByte g c

/-- The constructor with `redraw` (gfx/terminal.cpp:145-193). -/
def construct : VirtualTerminal :=
  let t : VirtualTerminal :=
    { currentFg := defaultFgColor
      currentBg := defaultBgColor
      buffer := fun _ => coloredChar (ascii ' ') defaultFgColor defaultBgColor }
  (loopUp 0 g.height).foldl (fun t y => (loopUp 0 g.width).foldl (fun t x =>
    let encoded := t.buffer (g.index (usize x) (usize y))
    (t.touch (usize x) (usize y)).copyCell g encoded (usize x) (usize y)) t) t.redrawCursor

/-- The cursor and all accesses so far lie in the grid. -/
structure Inside : Prop where
  cursorX : 0 ≤ t.cursorX ∧ t.cursorX < g.width
  cursorY : 0 ≤ t.cursorY ∧ t.cursorY < g.height
  accesses : ∀ a ∈ t.accesses, a.InBounds g

/-- A character is shown. -/
def shown (c : CChar) : Bool :=
  !(c = 0x08#8 || c = 0x09#8 || c = 0x0d#8 || c = 0x0b#8 || c = 0x0c#8 || c = 0x0a#8 ||
    c = 0x1b#8 || silent c)

/-- No character is shown in insert mode, no tab comes to the end of an `int`, and the argument of
    `CSI P` does not make the column overflow. -/
structure ByteFits (c : CChar) : Prop where
  print : t.csiProgress ≠ 1 → t.csiProgress ≠ 2 → shown c → t.insertMode = false
  tab : t.csiProgress ≠ 1 → t.csiProgress ≠ 2 → c = 0x09#8 → t.cursorX + 8 < 2 ^ 31
  delete : t.csiProgress = 2 → c = ascii 'P' → t.cursorX = 0 ∨ t.csiArgCount = 0 ∨
    0 ≤ t.csiArgs 0 ∧ t.cursorX + t.csiArgs 0 < 2 ^ 31

end Control

/-! ## Drawing -/

/-- Drawing keeps the accesses so far and changes nothing but the buffer. -/
structure Draws (t t' : VirtualTerminal) : Prop where
  state : t'.toTerminalState = t.toTerminalState
  kept : ∀ a ∈ t.accesses, a ∈ t'.accesses

/-- Drawing inside of the grid. -/
structure DrawsInside (g : Grid) (t t' : VirtualTerminal) : Prop extends Draws t t' where
  inside : ∀ a ∈ t'.accesses, a ∈ t.accesses ∨ a.InBounds g

section Drawing

variable {g : Grid} {t t' t'' : VirtualTerminal} {x y x' y' : U64}

theorem Draws.refl (t : VirtualTerminal) : Draws t t := ⟨rfl, fun _ => id⟩

theorem Draws.trans (h : Draws t t') (h' : Draws t' t'') : Draws t t'' :=
  ⟨h'.state.trans h.state, fun a ha => h'.kept a (h.kept a ha)⟩

theorem DrawsInside.refl (t : VirtualTerminal) : DrawsInside g t t :=
  ⟨Draws.refl t, fun _ => .inl⟩

theorem DrawsInside.trans (h : DrawsInside g t t') (h' : DrawsInside g t' t'') :
    DrawsInside g t t'' :=
  ⟨h.toDraws.trans h'.toDraws, fun a ha => (h'.inside a ha).elim (h.inside a) .inr⟩

section

variable {α : Type} {f : VirtualTerminal → α → VirtualTerminal}

/-- The rules for a loop. -/
theorem draws_foldl (hf : ∀ t i, Draws t (f t i)) (l : List α) (t : VirtualTerminal) :
    Draws t (l.foldl f t) := by
  induction l generalizing t with
  | nil => exact Draws.refl t
  | cons i l ih => exact (hf t i).trans (ih _)

theorem drawsInside_foldl {l : List α}
    (hf : ∀ t', t'.toTerminalState = t.toTerminalState → ∀ i ∈ l, DrawsInside g t' (f t' i)) :
    DrawsInside g t (l.foldl f t) := by
  refine List.foldlRecOn l f (DrawsInside.refl t) fun t' ht' i hi => ?_
  exact ht'.trans (hf t' ht'.state i hi)

/-- What one turn of a loop accesses stays in the list. -/
theorem mem_foldl_of_mem {l : List α} (hf : ∀ t i, Draws t (f t i)) {i : α} (hi : i ∈ l)
    {a : TerminalAccess} (ha : ∀ t', t'.toTerminalState = t.toTerminalState → a ∈ (f t' i).accesses)
    : a ∈ (l.foldl f t).accesses := by
  obtain ⟨before, behind, rfl⟩ := List.append_of_mem hi
  rw [List.foldl_append, List.foldl_cons]
  refine (draws_foldl hf behind _).kept a (ha _ ?_)
  exact (draws_foldl hf before t).state

end

section

variable (t : VirtualTerminal)

theorem draws_touch (x y : U64) : Draws t (t.touch x y) :=
  ⟨rfl, fun _ ha => List.mem_append_left _ ha⟩

theorem drawsInside_touch (hx : x.toNat < g.width) (hy : y.toNat < g.height) :
    DrawsInside g t (t.touch x y) := by
  refine ⟨draws_touch t x y, fun a ha => ?_⟩
  rcases List.mem_append.mp ha with ha | ha
  · exact .inl ha
  · obtain rfl := List.mem_singleton.mp ha
    exact .inr (TerminalAccess.inBounds_cell hx hy)

theorem setCharAt_accesses (x y : U64) (c : CChar) (fg bg : BitVec 32) :
    (t.setCharAt g x y c fg bg).accesses = (t.touch x y).accesses := by
  unfold setCharAt
  simp only
  split_ifs
  · rfl
  · rfl

theorem setCharAt_state (x y : U64) (c : CChar) (fg bg : BitVec 32) :
    (t.setCharAt g x y c fg bg).toTerminalState = t.toTerminalState := by
  unfold setCharAt
  simp only
  split_ifs
  · rfl
  · rfl

theorem draws_setCharAt (x y : U64) (c : CChar) (fg bg : BitVec 32) :
    Draws t (t.setCharAt g x y c fg bg) := by
  refine ⟨setCharAt_state t x y c fg bg, ?_⟩
  rw [setCharAt_accesses]
  exact (draws_touch t x y).kept

/-- `set_char_at` accesses its cell. -/
theorem drawsInside_setCharAt (hx : x.toNat < g.width) (hy : y.toNat < g.height) (c : CChar)
    (fg bg : BitVec 32) : DrawsInside g t (t.setCharAt g x y c fg bg) := by
  refine ⟨draws_setCharAt t x y c fg bg, ?_⟩
  rw [setCharAt_accesses]
  exact (drawsInside_touch t hx hy).inside

theorem draws_moveChar (x y x' y' : U64) : Draws t (t.moveChar g x y x' y') :=
  ((draws_touch t x y).trans (draws_setCharAt _ _ _ _ _ _)).trans (draws_setCharAt _ _ _ _ _ _)

theorem drawsInside_moveChar (hx : x.toNat < g.width) (hy : y.toNat < g.height)
    (hx' : x'.toNat < g.width) (hy' : y'.toNat < g.height) :
    DrawsInside g t (t.moveChar g x y x' y') :=
  ((drawsInside_touch t hx hy).trans (drawsInside_setCharAt _ hx' hy' _ _ _)).trans
    (drawsInside_setCharAt _ hx hy _ _ _)

theorem mem_moveChar (x y x' y' : U64) : .cell x' y' ∈ (t.moveChar g x y x' y').accesses := by
  refine (draws_setCharAt _ x y _ _ _).kept _ ?_
  unfold copyCell
  rw [setCharAt_accesses]
  exact List.mem_append_right _ (List.mem_singleton_self _)

theorem draws_scroll : Draws t (t.scroll g) := by
  have hcopied := draws_foldl (fun (t : VirtualTerminal) (y : ℤ) =>
    draws_foldl (fun (t : VirtualTerminal) (x : ℤ) =>
      (draws_touch t (usize x) (usize (y + 1))).trans (draws_setCharAt (g := g) _ (usize x)
        (usize y)
        (charOf (t.buffer (g.index (usize x) (usize (y + 1)))))
        (fgOf (t.buffer (g.index (usize x) (usize (y + 1)))))
        (bgOf (t.buffer (g.index (usize x) (usize (y + 1))))))) (loopUp 0 g.width) t)
    (loopUp 0 (g.height - 1)) t
  have hcleared := hcopied.trans (draws_foldl (fun (t : VirtualTerminal) (x : ℤ) =>
    draws_setCharAt (g := g) t (usize x) (usize (g.height - 1)) (ascii ' ') defaultFgColor
      defaultBgColor) (loopUp 0 g.width) _)
  exact ⟨hcleared.state, hcleared.kept⟩

theorem drawsInside_scroll : DrawsInside g t (t.scroll g) := by
  have hw := g.width_lt
  have hh := g.height_lt
  have hcopied : DrawsInside g t ((loopUp 0 (g.height - 1)).foldl (fun t y =>
      (loopUp 0 g.width).foldl (fun t x => (t.touch (usize x) (usize (y + 1))).copyCell g
        (t.buffer (g.index (usize x) (usize (y + 1)))) (usize x) (usize y)) t) t) := by
    refine drawsInside_foldl fun t' _ y hy => drawsInside_foldl fun t'' _ x hx => ?_
    rw [mem_loopUp] at hx hy
    have hx' := usize_lt hx.1 hx.2 hw
    exact (drawsInside_touch t'' hx' (usize_lt (by omega) (by omega) hh)).trans
      (drawsInside_setCharAt _ hx' (usize_lt (by omega) (by omega) hh) _ _ _)
  have hcleared := hcopied.trans (drawsInside_foldl (l := loopUp 0 g.width)
    (f := fun t x => t.clearCell g (usize x) (usize (g.height - 1))) fun t' _ x hx => by
      rw [mem_loopUp] at hx
      have hpos := g.height_pos
      exact drawsInside_setCharAt t' (usize_lt hx.1 hx.2 hw) (usize_lt (by omega) (by omega) hh)
        _ _ _)
  exact ⟨⟨hcleared.state, hcleared.kept⟩, hcleared.inside⟩

/-- The cells that `CSI J` clears lie in the grid. -/
theorem drawsInside_clearWhere (p : ℤ → ℤ → Bool) : DrawsInside g t (t.clearWhere g p) := by
  refine drawsInside_foldl fun t' _ y hy => drawsInside_foldl fun t'' _ x hx => ?_
  rw [mem_loopUp] at hx hy
  split_ifs
  · exact drawsInside_setCharAt t'' (usize_lt hx.1 hx.2 g.width_lt)
      (usize_lt hy.1 hy.2 g.height_lt) _ _ _
  · exact DrawsInside.refl t''

theorem draws_clearFrom (low high y : ℤ) : Draws t (t.clearFrom g low high y) :=
  draws_foldl (fun t x => draws_setCharAt t (usize x) (usize y) _ _ _) _ t

theorem drawsInside_clearFrom {low high y : ℤ} (hlow : 0 ≤ low) (hhigh : high ≤ g.width)
    (hy : 0 ≤ y) (hy' : y < g.height) : DrawsInside g t (t.clearFrom g low high y) := by
  refine drawsInside_foldl fun t' _ x hx => ?_
  rw [mem_loopUp] at hx
  exact drawsInside_setCharAt t' (usize_lt (by omega) (by omega) g.width_lt)
    (usize_lt hy hy' g.height_lt) _ _ _

end

end Drawing

/-! ## What a byte keeps -/

/-- The cursor, the old one and the arguments are what they should be. -/
structure Placed (g : Grid) (s : TerminalState) : Prop where
  cursorX : 0 ≤ s.cursorX ∧ s.cursorX < g.width
  cursorY : 0 ≤ s.cursorY ∧ s.cursorY < g.height
  oldCursorX : 0 ≤ s.oldCursorX ∧ s.oldCursorX < g.width
  oldCursorY : 0 ≤ s.oldCursorY ∧ s.oldCursorY < g.height
  argIndex : s.csiArgIndex < maxCsiArgs
  args : ∀ i, -2 ^ 31 ≤ s.csiArgs i ∧ s.csiArgs i < 2 ^ 31

/-- The invariant: all is placed, and no access was outside. -/
structure Sound (g : Grid) (t : VirtualTerminal) : Prop where
  placed : Placed g t.toTerminalState
  accesses : ∀ a ∈ t.accesses, a.InBounds g

section Sound

variable {g : Grid} {t t' : VirtualTerminal} {c : CChar} {x y : ℤ} {y' : U64}

theorem Sound.inside (h : Sound g t) : t.Inside g :=
  ⟨h.placed.cursorX, h.placed.cursorY, h.accesses⟩

theorem Sound.draws (h : Sound g t) (hd : DrawsInside g t t') : Sound g t' :=
  ⟨hd.state ▸ h.placed, fun a ha => (hd.inside a ha).elim (h.accesses a) id⟩

theorem redrawCursor_state (t : VirtualTerminal) : t.redrawCursor.toTerminalState =
    { t.toTerminalState with oldCursorX := t.cursorX, oldCursorY := t.cursorY } := by
  unfold redrawCursor
  split_ifs
  · rfl
  · rfl

theorem redrawCursor_kept (t : VirtualTerminal) :
    ∀ a ∈ t.accesses, a ∈ t.redrawCursor.accesses := by
  intro a ha
  unfold redrawCursor
  split_ifs
  · exact List.mem_append_left _ ha
  · exact ha

/-- `redraw_cursor` accesses the cell of the old cursor. -/
theorem redrawCursor_inside (hx : 0 ≤ t.oldCursorX ∧ t.oldCursorX < g.width)
    (hy : 0 ≤ t.oldCursorY ∧ t.oldCursorY < g.height) (h : ∀ a ∈ t.accesses, a.InBounds g) :
    ∀ a ∈ t.redrawCursor.accesses, a.InBounds g := by
  intro a ha
  unfold redrawCursor at ha
  split_ifs at ha
  · rcases List.mem_append.mp ha with ha | ha
    · exact h a ha
    · obtain rfl := List.mem_singleton.mp ha
      exact TerminalAccess.inBounds_cell (usize_lt hx.1 hx.2 g.width_lt)
        (usize_lt hy.1 hy.2 g.height_lt)
  · exact h a ha

theorem Sound.moveCursor (h : Sound g t) (hx : 0 ≤ x ∧ x < g.width) (hy : 0 ≤ y ∧ y < g.height) :
    Sound g (t.moveCursor x y) := by
  refine ⟨?_, redrawCursor_inside h.placed.oldCursorX h.placed.oldCursorY h.accesses⟩
  unfold VirtualTerminal.moveCursor
  rw [redrawCursor_state]
  exact ⟨hx, hy, hx, hy, h.placed.argIndex, h.placed.args⟩

theorem Sound.resetControlSequence (h : Sound g t) : Sound g t.resetControlSequence := by
  have hzero : -2 ^ 31 ≤ (0 : ℤ) ∧ (0 : ℤ) < 2 ^ 31 := by decide
  exact ⟨⟨h.placed.cursorX, h.placed.cursorY, h.placed.oldCursorX, h.placed.oldCursorY,
    show 0 < maxCsiArgs by decide, fun _ => hzero⟩, h.accesses⟩

/-- An argument is read, and nothing but the colours changes. -/
def Recolours (i : ℕ) (t t' : VirtualTerminal) : Prop :=
  ∃ fg bg bold, t' = { t with
    currentFg := fg
    currentBg := bg
    isBold := bold
    accesses := t.accesses ++ [.arg i] }

theorem recolours_selectGraphic (t : VirtualTerminal) (i : ℕ) :
    Recolours i t (t.selectGraphic i) := by
  unfold VirtualTerminal.selectGraphic
  simp only
  repeat' refine iteInduction (motive := Recolours i t) (fun _ => ?_) fun _ => ?_
  all_goals exact ⟨_, _, _, rfl⟩

theorem Sound.selectGraphic (h : Sound g t) {i : ℕ} (hi : i ≤ t.csiArgIndex) :
    Sound g (t.selectGraphic i) ∧ (t.selectGraphic i).csiArgIndex = t.csiArgIndex := by
  obtain ⟨hx, hy, hx', hy', hindex, hargs⟩ := h.placed
  obtain ⟨fg, bg, bold, hselect⟩ := recolours_selectGraphic t i
  rw [hselect]
  refine ⟨⟨⟨hx, hy, hx', hy', hindex, hargs⟩, fun a ha => ?_⟩, rfl⟩
  rcases List.mem_append.mp ha with ha | ha
  · exact h.accesses a ha
  · obtain rfl := List.mem_singleton.mp ha
    exact hi.trans_lt hindex

/-- `CSI m` reads only arguments that there are. -/
theorem Sound.selectGraphics (h : Sound g t) :
    Sound g ((List.range (t.csiArgIndex + 1)).foldl VirtualTerminal.selectGraphic t) := by
  refine (List.foldlRecOn (motive := fun t' => Sound g t' ∧ t'.csiArgIndex = t.csiArgIndex) _ _
    ⟨h, rfl⟩ fun t' ht' i hi => ?_).1
  obtain ⟨hsound, hindex⟩ := ht'
  have hle : i ≤ t'.csiArgIndex := by
    rw [hindex]
    exact Nat.lt_succ_iff.mp (List.mem_range.mp hi)
  obtain ⟨hsound', hindex'⟩ := hsound.selectGraphic hle
  exact ⟨hsound', hindex'.trans hindex⟩

theorem Sound.eraseInDisplay (h : Sound g t) : Sound g (t.eraseInDisplay g) := by
  unfold VirtualTerminal.eraseInDisplay
  simp only
  split_ifs
  · exact h.draws (drawsInside_clearWhere t _)
  · exact h.draws (drawsInside_clearWhere t _)
  · exact h.draws (drawsInside_clearWhere t _)
  · exact h

theorem Sound.eraseInLine (h : Sound g t) : Sound g (t.eraseInLine g) := by
  obtain ⟨hx, hy, -, -, -, -⟩ := h.placed
  unfold VirtualTerminal.eraseInLine
  simp only
  split_ifs
  · exact h.draws (drawsInside_clearFrom t hx.1 le_rfl hy.1 hy.2)
  · refine h.draws (drawsInside_foldl fun t' ht' x hmem => ?_)
    rw [List.mem_reverse, mem_loopUp] at hmem
    have hsame := congrArg TerminalState.cursorY ht'
    refine drawsInside_setCharAt t' (usize_lt hmem.1 (by omega) g.width_lt) ?_ _ _ _
    rw [hsame]
    exact usize_lt hy.1 hy.2 g.height_lt
  · exact h.draws (drawsInside_clearFrom t le_rfl le_rfl hy.1 hy.2)
  · exact h

theorem Sound.firstArg (h : Sound g t) : Sound g t.firstArg := by
  unfold VirtualTerminal.firstArg
  split_ifs
  · refine ⟨⟨h.placed.cursorX, h.placed.cursorY, h.placed.oldCursorX, h.placed.oldCursorY,
      h.placed.argIndex, fun i => ?_⟩, h.accesses⟩
    show -2 ^ 31 ≤ update t.csiArgs 0 1 i ∧ update t.csiArgs 0 1 i < 2 ^ 31
    by_cases hi : i = 0
    · subst hi
      rw [update_self]
      decide
    · rw [update_of_ne hi]
      exact h.placed.args i
  · exact h

theorem firstArg_cursor (t : VirtualTerminal) :
    t.firstArg.cursorX = t.cursorX ∧ t.firstArg.cursorY = t.cursorY ∧
      t.firstArg.accesses = t.accesses := by
  unfold VirtualTerminal.firstArg
  split_ifs
  · exact ⟨rfl, rfl, rfl⟩
  · exact ⟨rfl, rfl, rfl⟩

theorem Sound.eraseCharacters (h : Sound g t) : Sound g (t.eraseCharacters g) := by
  have h1 := h.firstArg
  unfold VirtualTerminal.eraseCharacters
  have hlast := clamp_bounds (x := int32 (t.firstArg.cursorX + t.firstArg.csiArgs 0))
    (show (0 : ℤ) ≤ g.width by omega)
  exact h1.draws (drawsInside_clearFrom _ h1.placed.cursorX.1 hlast.2 h1.placed.cursorY.1
    h1.placed.cursorY.2)

theorem lastColumn_bounds (t : VirtualTerminal) :
    0 ≤ t.lastColumn g ∧ t.lastColumn g ≤ g.width :=
  clamp_bounds (by omega)

/-- The last column is right of the cursor unless the column overflows. -/
theorem Placed.le_lastColumn_iff (h : Placed g t.toTerminalState) :
    t.cursorX ≤ t.lastColumn g ↔
      t.cursorX = 0 ∨ 0 ≤ t.csiArgs 0 ∧ t.cursorX + t.csiArgs 0 < 2 ^ 31 := by
  have hx := h.cursorX
  have harg := h.args 0
  have hw := g.width_lt
  unfold lastColumn clamp
  rw [int32_eq_ite]
  split_ifs <;> omega

theorem Sound.deleteCharacters (h : Sound g t)
    (hlast : t.cursorX ≤ t.firstArg.lastColumn g) : Sound g (t.deleteCharacters g) := by
  have h1 := h.firstArg
  obtain ⟨hx, hy, -, -, -, -⟩ := h1.placed
  obtain ⟨hlow, hhigh⟩ := t.firstArg.lastColumn_bounds (g := g)
  have hclear := drawsInside_clearFrom t.firstArg hx.1 hhigh hy.1 hy.2
  refine (h1.draws hclear).draws (drawsInside_foldl fun t' ht' i hi => ?_)
  rw [mem_loopUp] at hi
  have hsameX : t'.cursorX = t.firstArg.cursorX :=
    congrArg TerminalState.cursorX (ht'.trans hclear.state)
  have hsameY : t'.cursorY = t.firstArg.cursorY :=
    congrArg TerminalState.cursorY (ht'.trans hclear.state)
  rw [← t.firstArg_cursor.1] at hlast
  have hw := g.width_lt
  have hrow : (usize t'.cursorY).toNat < g.height := by
    rw [hsameY]
    exact usize_lt hy.1 hy.2 g.height_lt
  have hto : int32 (t'.cursorX + i) = t'.cursorX + i := int32_of_lt (by omega) (by omega)
  refine drawsInside_moveChar t' (usize_lt (by omega) (by omega) hw) hrow ?_ hrow
  rw [hto]
  exact usize_lt (by omega) (by omega) hw

/-- Left of the cursor, `CSI P` moves characters behind the line. -/
theorem Sound.mem_deleteCharacters (h : Sound g t) (hlast : t.firstArg.lastColumn g < t.cursorX) :
    .cell (usize g.width) (usize t.cursorY) ∈ (t.deleteCharacters g).accesses := by
  have hx := h.placed.cursorX
  have hw := g.width_lt
  obtain ⟨hlow, hhigh⟩ := t.firstArg.lastColumn_bounds (g := g)
  obtain ⟨hcursorX, hcursorY, -⟩ := t.firstArg_cursor
  have hclear := draws_clearFrom (g := g) t.firstArg t.firstArg.cursorX
    (t.firstArg.lastColumn g) t.firstArg.cursorY
  refine mem_foldl_of_mem (i := g.width - t.cursorX)
    (fun _ _ => draws_moveChar _ _ _ _ _) (mem_loopUp.mpr (by omega)) fun t' ht' => ?_
  have hsame := ht'.trans hclear.state
  have hsameX : t'.cursorX = t.cursorX := (congrArg TerminalState.cursorX hsame).trans hcursorX
  have hsameY : t'.cursorY = t.cursorY := (congrArg TerminalState.cursorY hsame).trans hcursorY
  have hto : int32 (t'.cursorX + (g.width - t.cursorX)) = g.width := by
    rw [hsameX, add_sub_cancel]
    exact int32_of_lt (by omega) (by omega)
  rw [hto, hsameY]
  exact mem_moveChar t' _ _ _ _

theorem not_inside_of_mem (hw : .cell (usize g.width) y' ∈ t.accesses) : ¬t.Inside g := by
  intro h
  have hlt := (h.accesses _ hw).1
  have hbig := g.width_lt
  unfold usize at hlt
  rw [BitVec.toNat_ofInt] at hlt
  omega

theorem Sound.applyControlSequence (h : Sound g t)
    (hdelete : c = ascii 'P' → Sound g (t.deleteCharacters g)) :
    Sound g (t.applyControlSequence g c) := by
  obtain ⟨hx, hy, hx', hy', hindex, hargs⟩ := h.placed
  have hpos := g.width_pos
  have hpos' := g.height_pos
  have hcolumn (x : ℤ) : 0 ≤ clamp x 0 (g.width - 1) ∧ clamp x 0 (g.width - 1) < g.width := by
    have := clamp_bounds (x := x) (show (0 : ℤ) ≤ g.width - 1 by omega)
    omega
  have hrow (y : ℤ) : 0 ≤ clamp y 0 (g.height - 1) ∧ clamp y 0 (g.height - 1) < g.height := by
    have := clamp_bounds (x := y) (show (0 : ℤ) ≤ g.height - 1 by omega)
    omega
  have hfirst : 0 ≤ (0 : ℤ) ∧ (0 : ℤ) < g.width := by omega
  have hfirst' : 0 ≤ (0 : ℤ) ∧ (0 : ℤ) < g.height := by omega
  unfold VirtualTerminal.applyControlSequence
  simp only
  refine iteInduction (motive := Sound g) (fun _ => h.selectGraphics) fun _ => ?_
  refine iteInduction (motive := Sound g) (fun _ => h.eraseInDisplay) fun _ => ?_
  refine iteInduction (motive := Sound g) (fun _ => h.eraseInLine) fun _ => ?_
  refine iteInduction (motive := Sound g) (fun _ => h) fun _ => ?_
  refine iteInduction (motive := Sound g) (fun _ => h) fun _ => ?_
  refine iteInduction (motive := Sound g) (fun _ => h.moveCursor hx (hrow _)) fun _ => ?_
  refine iteInduction (motive := Sound g) (fun _ => h.moveCursor hx (hrow _)) fun _ => ?_
  refine iteInduction (motive := Sound g) (fun _ => h.moveCursor (hcolumn _) hy) fun _ => ?_
  refine iteInduction (motive := Sound g) (fun _ => h.moveCursor (hcolumn _) hy) fun _ => ?_
  refine iteInduction (motive := Sound g) (fun _ => h.moveCursor hfirst (hrow _)) fun _ => ?_
  refine iteInduction (motive := Sound g) (fun _ => h.moveCursor hfirst (hrow _)) fun _ => ?_
  refine iteInduction (motive := Sound g) (fun _ => h.moveCursor (hcolumn _) hy) fun _ => ?_
  refine iteInduction (motive := Sound g) (fun _ => h.moveCursor (hcolumn _) (hrow _)) fun _ => ?_
  refine iteInduction (motive := Sound g) (fun _ => h.moveCursor hx (hrow _)) fun _ => ?_
  refine iteInduction (motive := Sound g) (fun _ => h.moveCursor hfirst hfirst') fun _ => ?_
  refine iteInduction (motive := Sound g) hdelete fun _ => ?_
  refine iteInduction (motive := Sound g) (fun _ => h.eraseCharacters) fun _ => ?_
  refine iteInduction (motive := Sound g) (fun _ => ?_) fun _ => h
  refine iteInduction (motive := Sound g) (fun _ => ?_) fun _ => h
  exact ⟨⟨hx, hy, hx', hy', hindex, hargs⟩, h.accesses⟩

theorem applyControlSequence_delete (t : VirtualTerminal) :
    t.applyControlSequence g (ascii 'P') = t.deleteCharacters g := by
  unfold VirtualTerminal.applyControlSequence
  simp [ascii]

/-- The argument at the index is written. -/
theorem Sound.setArg (h : Sound g t) {value : ℤ} (hvalue : -2 ^ 31 ≤ value ∧ value < 2 ^ 31)
    (count : ℕ) :
    Sound g { t with
      csiArgs := update t.csiArgs t.csiArgIndex value
      csiArgCount := count
      accesses := t.accesses ++ [.arg t.csiArgIndex] } := by
  obtain ⟨hx, hy, hx', hy', hindex, hargs⟩ := h.placed
  refine ⟨⟨hx, hy, hx', hy', hindex, fun i => ?_⟩, fun a ha => ?_⟩
  · show -2 ^ 31 ≤ update t.csiArgs t.csiArgIndex value i ∧
      update t.csiArgs t.csiArgIndex value i < 2 ^ 31
    by_cases hi : i = t.csiArgIndex
    · rw [hi, update_self]
      exact hvalue
    · rw [update_of_ne hi]
      exact hargs i
  · rcases List.mem_append.mp ha with ha | ha
    · exact h.accesses a ha
    · obtain rfl := List.mem_singleton.mp ha
      exact hindex

theorem Sound.sequenceByte (h : Sound g t)
    (hdelete : c = ascii 'P' → Sound g (t.deleteCharacters g)) :
    Sound g (t.sequenceByte g c) := by
  unfold VirtualTerminal.sequenceByte
  split_ifs
  · exact h.setArg (int32_bounds _) _
  · exact (h.applyControlSequence hdelete).resetControlSequence
  · -- one argument too many ends the sequence
    have hzero : -2 ^ 31 ≤ (0 : ℤ) ∧ (0 : ℤ) < 2 ^ 31 := by decide
    obtain ⟨hx, hy, hx', hy', hindex, hargs⟩ := h.placed
    simp only
    split_ifs with hfull
    · have hnext : Sound g { t with csiArgIndex := t.csiArgIndex } := h
      exact hnext.resetControlSequence.setArg hzero _
    · have hnext : Sound g { t with csiArgIndex := t.csiArgIndex + 1 } :=
        ⟨⟨hx, hy, hx', hy', Nat.lt_of_not_le hfull, hargs⟩, h.accesses⟩
      exact hnext.setArg hzero _
  · obtain ⟨hx, hy, hx', hy', hindex, hargs⟩ := h.placed
    exact ⟨⟨hx, hy, hx', hy', hindex, hargs⟩, h.accesses⟩
  · exact h.resetControlSequence

theorem sequenceByte_delete (t : VirtualTerminal) :
    t.sequenceByte g (ascii 'P') = (t.deleteCharacters g).resetControlSequence := by
  rw [← applyControlSequence_delete]
  rfl

/-- `CSI P` stays in the grid exactly if the column does not overflow. -/
theorem Sound.deleteCharacters_iff (h : Sound g t) :
    t.cursorX ≤ t.firstArg.lastColumn g ↔ t.cursorX = 0 ∨ t.csiArgCount = 0 ∨
      0 ≤ t.csiArgs 0 ∧ t.cursorX + t.csiArgs 0 < 2 ^ 31 := by
  have hiff := h.firstArg.placed.le_lastColumn_iff
  rw [t.firstArg_cursor.1] at hiff
  rw [hiff]
  by_cases hcount : t.csiArgCount = 0
  · have hx := h.placed.cursorX
    have hw := g.width_lt
    have harg : t.firstArg.csiArgs 0 = 1 := by
      unfold VirtualTerminal.firstArg
      rw [if_pos hcount]
      exact update_self 0 1 t.csiArgs
    rw [harg]
    omega
  · have harg : t.firstArg = t := if_neg hcount
    rw [harg]
    omega

/-! ## The end of a character -/

/-- What a character leaves to the end of `write_char`: the cursor may be behind its line, or in
    the line below the grid. -/
structure Unfinished (g : Grid) (t : VirtualTerminal) : Prop where
  cursorX : 0 ≤ t.cursorX
  cursorY : 0 ≤ t.cursorY ∧ (t.cursorY < g.height ∨ t.cursorY = g.height ∧ t.cursorX < g.width)
  oldCursorX : 0 ≤ t.oldCursorX ∧ t.oldCursorX < g.width
  oldCursorY : 0 ≤ t.oldCursorY ∧ t.oldCursorY < g.height
  argIndex : t.csiArgIndex < maxCsiArgs
  args : ∀ i, -2 ^ 31 ≤ t.csiArgs i ∧ t.csiArgs i < 2 ^ 31
  accesses : ∀ a ∈ t.accesses, a.InBounds g

theorem Sound.redrawCursor (h : Sound g t) : Sound g t.redrawCursor :=
  ⟨by
    rw [redrawCursor_state]
    exact ⟨h.placed.cursorX, h.placed.cursorY, h.placed.cursorX, h.placed.cursorY,
      h.placed.argIndex, h.placed.args⟩,
    redrawCursor_inside h.placed.oldCursorX h.placed.oldCursorY h.accesses⟩

theorem Unfinished.wrapLine (h : Unfinished g t) :
    Unfinished g (t.wrapLine g) ∧ (t.wrapLine g).cursorX < g.width := by
  have hpos := g.width_pos
  have hbig := g.height_lt
  unfold VirtualTerminal.wrapLine
  split_ifs with hline
  · obtain ⟨hx, hy, hx', hy', hindex, hargs, haccesses⟩ := h
    have hnext : int32 (t.cursorY + 1) = t.cursorY + 1 := int32_of_lt (by omega) (by omega)
    rw [hnext]
    refine ⟨⟨le_rfl, ⟨?_, ?_⟩, hx', hy', hindex, hargs, haccesses⟩, ?_⟩
    all_goals simp only
    all_goals omega
  · exact ⟨h, by omega⟩

theorem Unfinished.scrollLine (h : Unfinished g t) (hx : t.cursorX < g.width) :
    Sound g (t.scrollLine g) := by
  have hpos := g.height_pos
  have hbig := g.height_lt
  obtain ⟨hx0, hy, hx', hy', hindex, hargs, haccesses⟩ := h
  unfold VirtualTerminal.scrollLine
  split_ifs with hbelow
  · have hscroll := drawsInside_scroll (g := g) t
    have hup : int32 (t.cursorY - 1) = t.cursorY - 1 := int32_of_lt (by omega) (by omega)
    have hplaced : Placed g { (t.scroll g).toTerminalState with
        cursorY := int32 ((t.scroll g).cursorY - 1) } := by
      rw [hscroll.state, hup]
      refine ⟨⟨hx0, hx⟩, ?_, hx', hy', hindex, hargs⟩
      simp only
      omega
    exact ⟨hplaced, fun a ha => (hscroll.inside a ha).elim (haccesses a) id⟩
  · exact ⟨⟨⟨hx0, hx⟩, ⟨hy.1, by omega⟩, hx', hy', hindex, hargs⟩, haccesses⟩

/-- The end of `write_char` brings the cursor back into the grid. -/
theorem Unfinished.finishChar (h : Unfinished g t) : Sound g (t.finishChar g) := by
  obtain ⟨hwrap, hx⟩ := h.wrapLine
  obtain ⟨hplaced, haccesses⟩ := (hwrap.scrollLine hx).redrawCursor
  exact ⟨hplaced, haccesses⟩

theorem finishChar_kept (t : VirtualTerminal) :
    ∀ a ∈ t.accesses, a ∈ (t.finishChar g).accesses := by
  intro a ha
  have hwrap : a ∈ (t.wrapLine g).accesses := by
    unfold wrapLine
    split_ifs
    · exact ha
    · exact ha
  refine redrawCursor_kept _ a ?_
  unfold scrollLine
  split_ifs
  · exact (draws_scroll _).kept a hwrap
  · exact hwrap

theorem finishChar_cursorX (hx : t.cursorX < g.width) :
    (t.finishChar g).cursorX = t.cursorX := by
  have hwrap : t.wrapLine g = t := if_neg (by omega)
  have hscroll : (t.scrollLine g).cursorX = t.cursorX := by
    unfold scrollLine
    split_ifs
    · show (t.scroll g).cursorX = t.cursorX
      exact congrArg TerminalState.cursorX (draws_scroll t).state
    · rfl
  show ((t.wrapLine g).scrollLine g).redrawCursor.cursorX = t.cursorX
  rw [hwrap, redrawCursor_state]
  exact hscroll

theorem Sound.unfinished (h : Sound g t) (hx : 0 ≤ x) :
    Unfinished g { t with cursorX := x } :=
  ⟨hx, ⟨h.placed.cursorY.1, .inl h.placed.cursorY.2⟩, h.placed.oldCursorX, h.placed.oldCursorY,
    h.placed.argIndex, h.placed.args, h.accesses⟩

/-- A tab comes to a column exactly if this does not overflow. -/
theorem Sound.tab_nonneg_iff (h : Sound g t) :
    0 ≤ alignUpInt (int32 (t.cursorX + 1)) 8#64 ↔ t.cursorX + 8 < 2 ^ 31 := by
  have hx := h.placed.cursorX
  have hw := g.width_lt
  have hnext : int32 (t.cursorX + 1) = t.cursorX + 1 := int32_of_lt (by omega) (by omega)
  rw [hnext, alignUpInt_nonneg_iff (by omega) (by omega)]
  omega

theorem Sound.setCharAtCursor (h : Sound g t) : Sound g (t.setCharAtCursor g c) := by
  have hx := h.placed.cursorX
  have hy := h.placed.cursorY
  exact h.draws (drawsInside_setCharAt t (usize_lt hx.1 hx.2 g.width_lt)
    (usize_lt hy.1 hy.2 g.height_lt) _ _ _)

theorem Sound.printChar (h : Sound g t) (hinsert : t.insertMode = false) :
    Unfinished g (t.printChar g c) := by
  have hset := h.setCharAtCursor (c := c)
  have hx := hset.placed.cursorX
  have hw := g.width_lt
  unfold VirtualTerminal.printChar
  rw [hinsert, if_neg Bool.false_ne_true]
  refine hset.unfinished ?_
  rw [int32_of_lt (by omega) (by omega)]
  omega

/-- In insert mode the last character of the line is moved behind it. -/
theorem Sound.mem_printChar (h : Sound g t) (hinsert : t.insertMode = true) :
    .cell (usize g.width) (usize t.cursorY) ∈ (t.printChar g c).accesses := by
  have hx := h.placed.cursorX
  have hshift : .cell (usize g.width) (usize t.cursorY) ∈ (t.shiftLine g).accesses := by
    have hlast : (g.width : ℤ) - 1 ∈ (loopUp t.cursorX g.width).reverse := by
      rw [List.mem_reverse, mem_loopUp]
      omega
    refine mem_foldl_of_mem (fun _ _ => draws_moveChar _ _ _ _ _) hlast fun t' ht' => ?_
    have hsame : t'.cursorY = t.cursorY := congrArg TerminalState.cursorY ht'
    rw [hsame, sub_add_cancel]
    exact mem_moveChar t' _ _ _ _
  unfold VirtualTerminal.printChar
  rw [hinsert]
  exact (draws_setCharAt _ _ _ _ _ _).kept _ hshift

/-! ## Every byte -/

theorem shown_iff : shown c ↔ c ≠ 0x08#8 ∧ c ≠ 0x09#8 ∧ c ≠ 0x0d#8 ∧
    ¬(c = 0x0b#8 ∨ c = 0x0c#8 ∨ c = 0x0a#8) ∧ c ≠ 0x1b#8 ∧ ¬silent c := by
  unfold shown
  simp only [Bool.not_eq_true', Bool.or_eq_false_iff, decide_eq_false_iff_not, not_or,
    Bool.not_eq_true]
  tauto

theorem Sound.plainByte (h : Sound g t) (hshown : shown c → t.insertMode = false)
    (htab : c = 0x09#8 → t.cursorX + 8 < 2 ^ 31) : Sound g (t.plainByte g c) := by
  obtain ⟨hx, hy, hx', hy', hindex, hargs⟩ := h.placed
  have hbig := g.height_lt
  have hw := g.width_pos
  unfold VirtualTerminal.plainByte
  split_ifs with hback hleft htab' hreturn hline hescape hsilent
  · have hmoved : Sound g { t with cursorX := t.cursorX - 1, cursorNeedsUndrawing := true } :=
      ⟨⟨by simp only; omega, hy, hx', hy', hindex, hargs⟩, h.accesses⟩
    exact hmoved.redrawCursor
  · exact ⟨h.placed, h.accesses⟩
  · exact (h.unfinished (h.tab_nonneg_iff.mpr (htab htab'))).finishChar
  · exact (h.unfinished le_rfl).finishChar
  · have hnext : Unfinished g { t with
        cursorX := 0
        cursorY := int32 (t.cursorY + 1)
        cursorNeedsUndrawing := true } := by
      rw [int32_of_lt (by omega) (by omega)]
      refine ⟨le_rfl, ?_, hx', hy', hindex, hargs, h.accesses⟩
      simp only
      omega
    exact hnext.finishChar
  · have hescaped := h.unfinished hx.1
    exact Unfinished.finishChar (t := { t with csiProgress := 1 }) ⟨hescaped.cursorX,
      hescaped.cursorY, hx', hy', hindex, hargs, h.accesses⟩
  · exact (h.unfinished hx.1).finishChar
  · refine (h.printChar (hshown (shown_iff.mpr ?_))).finishChar
    exact ⟨hback, htab', hreturn, hline, hescape, hsilent⟩

theorem Sound.writeChar (h : Sound g t) (hfits : ByteFits t c) : Sound g (t.writeChar g c) := by
  unfold VirtualTerminal.writeChar
  split_ifs with hescape hbracket hsequence
  · exact ⟨⟨h.placed.cursorX, h.placed.cursorY, h.placed.oldCursorX, h.placed.oldCursorY,
      h.placed.argIndex, h.placed.args⟩, h.accesses⟩
  · exact h.resetControlSequence
  · refine h.sequenceByte fun hcode => h.deleteCharacters ?_
    exact h.deleteCharacters_iff.mpr (hfits.delete hsequence hcode)
  · exact h.plainByte (hfits.print hescape hsequence) (hfits.tab hescape hsequence)

theorem plainByte_shown (hshown : shown c) :
    t.plainByte g c = finishChar g (t.printChar g c) := by
  obtain ⟨hback, htab, hreturn, hline, hescape, hsilent⟩ := shown_iff.mp hshown
  unfold plainByte
  rw [if_neg hback, if_neg htab, if_neg hreturn, if_neg hline, if_neg hescape, if_neg hsilent]

theorem Sound.byteFits (h : Sound g t) (hinside : Inside g (t.writeChar g c)) : ByteFits t c := by
  refine ⟨fun hescape hsequence hshown => ?_, fun hescape hsequence htab => ?_,
    fun hsequence hcode => ?_⟩
  · by_contra hinsert
    have hwrite : t.writeChar g c = finishChar g (t.printChar g c) := by
      unfold VirtualTerminal.writeChar
      rw [if_neg hescape, if_neg hsequence, plainByte_shown hshown]
    rw [hwrite] at hinside
    have hmem := h.mem_printChar (c := c) (Bool.eq_true_of_not_eq_false hinsert)
    exact not_inside_of_mem (finishChar_kept _ _ hmem) hinside
  · by_contra hlast
    have hwrite : t.writeChar g c =
        finishChar g { t with cursorX := alignUpInt (int32 (t.cursorX + 1)) 8#64 } := by
      unfold VirtualTerminal.writeChar
      rw [if_neg hescape, if_neg hsequence, htab]
      rfl
    rw [hwrite] at hinside
    have hneg := mt h.tab_nonneg_iff.mp hlast
    have hcolumn := hinside.cursorX.1
    rw [finishChar_cursorX (by simp only; omega)] at hcolumn
    exact hneg hcolumn
  · rw [← h.deleteCharacters_iff]
    by_contra hlast
    have hwrite : t.writeChar g c = (t.deleteCharacters g).resetControlSequence := by
      unfold VirtualTerminal.writeChar
      rw [if_neg (by omega), if_pos hsequence, hcode, sequenceByte_delete]
    rw [hwrite] at hinside
    have hmem := h.mem_deleteCharacters (not_le.mp hlast)
    exact not_inside_of_mem (t := (t.deleteCharacters g).resetControlSequence) hmem hinside

/-- A byte keeps the cursor and the accesses in the grid exactly if it fits. -/
theorem Sound.writeChar_inside_iff (h : Sound g t) :
    Inside g (t.writeChar g c) ↔ ByteFits t c :=
  ⟨h.byteFits, fun hfits => (h.writeChar hfits).inside⟩

theorem sound_construct (g : Grid) : Sound g (construct g) := by
  have hw := g.width_pos
  have hh := g.height_pos
  have hzero : -2 ^ 31 ≤ (0 : ℤ) ∧ (0 : ℤ) < 2 ^ 31 := by decide
  have hx : 0 ≤ (0 : ℤ) ∧ (0 : ℤ) < g.width := by omega
  have hy : 0 ≤ (0 : ℤ) ∧ (0 : ℤ) < g.height := by omega
  have hempty : Sound g
      { currentFg := defaultFgColor
        currentBg := defaultBgColor
        buffer := fun _ => coloredChar (ascii ' ') defaultFgColor defaultBgColor } :=
    ⟨⟨hx, hy, hx, hy, show 0 < maxCsiArgs by decide, fun _ => hzero⟩,
      fun a ha => absurd ha List.not_mem_nil⟩
  unfold construct
  refine hempty.redrawCursor.draws (drawsInside_foldl fun t' _ y hmemY =>
    drawsInside_foldl fun t'' _ x hmemX => ?_)
  rw [mem_loopUp] at hmemX hmemY
  have hcolumn := usize_lt hmemX.1 hmemX.2 g.width_lt
  have hrow := usize_lt hmemY.1 hmemY.2 g.height_lt
  exact (drawsInside_touch t'' hcolumn hrow).trans (drawsInside_setCharAt _ hcolumn hrow _ _ _)

/-- Behind every byte the cursor is in the grid, as are all accesses so far. -/
def StaysInside (g : Grid) (bytes : List CChar) : Prop :=
  ∀ before, before <+: bytes → Inside g (before.foldl (VirtualTerminal.writeChar g) (construct g))

/-- The terminal stays in its grid exactly if every byte fits. -/
theorem staysInside_iff (g : Grid) (bytes : List CChar) :
    StaysInside g bytes ↔
      Along (VirtualTerminal.writeChar g) ByteFits (construct g) bytes :=
  forall_prefix_iff_along (sound_construct g) (fun _ h => h.inside)
    (fun _ _ h hfits => h.writeChar hfits) fun _ _ h => h.writeChar_inside_iff.mp

/-- A letter in insert mode, in a grid of two columns. -/
theorem insert_leaves_grid : ¬∀ g bytes, StaysInside g bytes := by
  intro h
  let g : Grid := ⟨2, 1, by decide, by decide, by decide⟩
  have hinside := h g [0x1b#8, ascii '[', ascii '4', ascii 'h', ascii 'a'] _ List.prefix_rfl
  exact @not_inside_of_mem g _ 0#64 (by decide) hinside

end Sound

end VirtualTerminal

end Fishix.Gfx
