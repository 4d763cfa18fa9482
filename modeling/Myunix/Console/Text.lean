import Myunix.CString
import Myunix.Lib.Memory
import Myunix.Lib.Page

/-!
# The text console (`tty.c`)

`tty_putc` writes characters to text memory, two bytes each, and scrolls it by copying line after line. What has been
written is a page of paper (`Lib.Page`): the console shows its last lines.

* `Shown`: text memory and the cursor of the display show a page, and all other memory is as it was.
* `ttyPutc_shown`: a character is a key of the typewriter.
* **`tty_shows`**: whatever is written, `tty_putc` returns and the console shows the end of the paper.
* **`kmain_text`**: without a framebuffer `kmain` turns the console on with 80 columns and 25 lines. With one, pitch and
  depth change their places in its call of `tty_init`, which leaves the console off unless a line has 16 bytes.
-/

namespace Myunix.Console

open Lib

/-! ## The code -/

/-- The display controller behind the ports `0x3D4` and `0x3D5`: the register that is selected, and the registers. -/
structure Crtc where
  index : Byte
  regs : Byte → Byte

/-- `outb(port, value)` to the display controller. -/
def Crtc.outb (port : Nat) (value : Byte) (v : Crtc) : Crtc :=
  if port = 0x3D4 then { v with index := value }
  else if port = 0x3D5 then { v with regs := Function.update v.regs v.index value }
  else v

/-- The variables of `tty.c`, memory and the display controller. `cursor_x`, `cursor_y`, `width` and `height` have 16
bits, the others 32. -/
structure TextConsole where
  cursorX : Nat
  cursorY : Nat
  width : Nat
  height : Nat
  bpp : Nat
  pitch : Nat
  vmem : Nat
  mem : Memory
  crtc : Crtc

/-- `TTY_DEFAULT_ATTRIBUTE`. -/
def ttyDefaultAttribute : Byte := 0x07#8

/-- `(uintptr_t)vmem + y * pitch + x * bpp`. -/
def TextConsole.place (t : TextConsole) (y x : Nat) : Nat := (t.vmem + y * t.pitch + x * t.bpp) % 0x100000000

/-- `where[0] = …`, `where[1] = …`. -/
def putCell (mem : Memory) (p : Nat) (c : Byte × Byte) : Memory := putByte (putByte mem p c.1) (p + 1) c.2

/-- `tty_update_cursor`. -/
def ttyUpdateCursor (t : TextConsole) : TextConsole :=
  let position := (t.cursorY * t.width + t.cursorX) % 0x10000
  { t with crtc := t.crtc
      |>.outb 0x3D4 0x0F#8 |>.outb 0x3D5 (BitVec.ofNat 8 position)
      |>.outb 0x3D4 0x0E#8 |>.outb 0x3D5 (BitVec.ofNat 8 (position / 256)) }

/-- The first rounds of `tty_clear_line`. -/
def clearCells (t : TextConsole) (y : Nat) : Nat → Memory → Memory
  | 0, mem => mem
  | x + 1, mem => putCell (clearCells t y x mem) (t.place y x) (0x20#8, ttyDefaultAttribute)

/-- `tty_clear_line`. -/
def ttyClearLine (y : Nat) (t : TextConsole) : TextConsole := { t with mem := clearCells t y t.width t.mem }

/-- The first rounds of `tty_copy_line`. -/
def copyCells (t : TextConsole) (s d : Nat) : Nat → Memory → Memory
  | 0, mem => mem
  | x + 1, mem =>
    let mem := copyCells t s d x mem
    putCell mem (t.place d x) (mem (t.place s x), mem (t.place s x + 1))

/-- `tty_copy_line`. -/
def ttyCopyLine (s d : Nat) (t : TextConsole) : TextConsole := { t with mem := copyCells t s d t.width t.mem }

/-- The first rounds of the loop of `tty_scroll`. -/
def scrollLines (t : TextConsole) : Nat → TextConsole
  | 0 => t
  | y + 1 => ttyCopyLine (y + 1) y (scrollLines t y)

/-- `tty_scroll`; `height` is not 0 when it is called. -/
def ttyScroll (t : TextConsole) : TextConsole := ttyClearLine (t.height - 1) (scrollLines t (t.height - 1))

/-- `tty_move_cursor`. -/
def ttyMoveCursor (x y : Nat) (t : TextConsole) : TextConsole :=
  ttyUpdateCursor { t with cursorX := x % 0x10000, cursorY := y % 0x10000 }

/-- The first rounds of the loop of `tty_clear_screen`. -/
def clearLines (t : TextConsole) : Nat → TextConsole
  | 0 => t
  | y + 1 => ttyClearLine y (clearLines t y)

/-- `tty_clear_screen`. -/
def ttyClearScreen (t : TextConsole) : TextConsole := ttyMoveCursor 0 0 (clearLines t t.height)

/-- `tty_putc`, where the cursor is behind the end of a row. -/
def ttyWrapRow (t : TextConsole) : TextConsole :=
  if t.cursorX ≥ t.width then { t with cursorX := 0, cursorY := (t.cursorY + 1) % 0x10000 } else t

/-- `tty_putc`, where the cursor is behind the last row. -/
def ttyWrapScreen (t : TextConsole) : TextConsole :=
  if t.cursorY ≥ t.height then { ttyScroll t with cursorX := 0, cursorY := t.height - 1 } else t

/-- The end of `tty_putc`. -/
def ttyWrap (t : TextConsole) : TextConsole := ttyUpdateCursor (ttyWrapScreen (ttyWrapRow t))

/-- The cases of `tty_putc`, with the function that is called for the carriage return of `'\n'`. A `'\b'` in the first
column is written. -/
def ttyPutcCase (again : Byte → TextConsole → Kernel TextConsole) (c : Byte) (t : TextConsole) :
    Kernel TextConsole :=
  if c = 0x08#8 ∧ t.cursorX > 0 then return { t with cursorX := t.cursorX - 1 }
  else if c = 0x0A#8 then do
    let t ← again 0x0D#8 t
    return { t with cursorX := 0, cursorY := (t.cursorY + 1) % 0x10000 }
  else if c = 0x0D#8 then return { t with cursorX := 0 }
  else if c = 0x09#8 then return { t with cursorX := (t.cursorX + 4) % 0x10000 }
  else return { t with
    mem := putCell t.mem (t.place t.cursorY t.cursorX) (c, ttyDefaultAttribute)
    cursorX := (t.cursorX + 1) % 0x10000 }

/-- `tty_putc`, with the function it calls for the carriage return. -/
def ttyPutcBody (again : Byte → TextConsole → Kernel TextConsole) (c : Byte) (t : TextConsole) :
    Kernel TextConsole := do
  if t.vmem = 0 then return t
  kassert (t.cursorX < t.width)
  kassert (t.cursorY < t.height)
  let t ← ttyPutcCase again c t
  return ttyWrap t

/-- `tty_putc`: the inner call is for `'\r'`, which does not call it again. -/
def ttyPutc (c : Byte) (t : TextConsole) : Kernel TextConsole := ttyPutcBody (ttyPutcBody fun _ => .ok) c t

/-- Characters, one after the other. -/
def ttyPuts (cs : List Byte) (t : TextConsole) : Kernel TextConsole := runSteps (fun t c => ttyPutc c t) t cs

/-- `tty_init`, which prints `info` and then perhaps `unsupported`. The screen is cleared before its size is known. -/
def ttyInit (info unsupported : List Byte) (vmemPtr w h fbBpp fbPitch : Word) (t : TextConsole) :
    Kernel TextConsole := do
  let t ← ttyPuts info (ttyClearScreen t)
  if fbBpp ≠ 0x10#32 then ttyPuts unsupported t
  else if fbBpp % 8#32 ≠ 0#32 then ttyPuts unsupported t
  else return { t with
    width := w.toNat % 0x10000, height := h.toNat % 0x10000, bpp := (fbBpp / 8#32).toNat, pitch := fbPitch.toNat
    vmem := vmemPtr.toNat }

/-- What the boot loader says about the framebuffer. -/
structure FramebufferInfo where
  kind : Byte
  addr : BitVec 64
  pitch : Word
  width : Word
  height : Word
  bpp : Byte

/-- The calls of `tty_init` in `kmain`. -/
def kmainTty (info unsupported : List Byte) (fb : Option FramebufferInfo) (t : TextConsole) : Kernel TextConsole :=
  match fb with
  | some fb =>
    if fb.addr ≠ 0#64 then
      -- text, a picture that `framebuffer.c` draws, and a picture with a palette
      if fb.kind = 2#8 then
        ttyInit info unsupported (fb.addr.setWidth 32) fb.width fb.height fb.pitch (fb.bpp.setWidth 32) t
      else if fb.kind = 1#8 then return t
      else if fb.kind = 0#8 then
        ttyInit info unsupported (fb.addr.setWidth 32) fb.width fb.height fb.pitch (fb.bpp.setWidth 32) t
      else throw .assertion
    else ttyInit info unsupported 0xB8000#32 80#32 25#32 16#32 160#32 t
  | none => ttyInit info unsupported 0xB8000#32 80#32 25#32 16#32 160#32 t

/-- The variables as the kernel finds them when it starts. -/
def ttyBoot (mem : Memory) (crtc : Crtc) : TextConsole := ⟨0, 0, 0, 0, 0, 0, 0, mem, crtc⟩

/-! ## What it should do -/

/-- A mode of the display. -/
structure TextMode where
  vmem : Nat
  width : Nat
  height : Nat
  pitch : Nat
  vmem_pos : 0 < vmem
  width_pos : 0 < width
  width_le : width ≤ 0xFFFC
  height_pos : 0 < height
  height_le : height ≤ 0xFFFF
  pitch_ge : 2 * width ≤ pitch
  fits : vmem + height * pitch ≤ 0x100000000

/-- The place of a character. -/
def TextMode.place (m : TextMode) (y x : Nat) : Nat := m.vmem + y * m.pitch + x * 2

/-- A space. -/
def blankCell : Byte × Byte := (0x20#8, ttyDefaultAttribute)

/-- A character as it stands in text memory. -/
def textCell (c : Byte) : Byte × Byte := (c, ttyDefaultAttribute)

/-- The key for a character. -/
def keyOf {α : Type} (glyph : Byte → α) (c : Byte) : Key α :=
  if c = 0x08#8 then .back (glyph c)
  else if c = 0x0A#8 then .newline
  else if c = 0x0D#8 then .ret
  else if c = 0x09#8 then .tab
  else .mark (glyph c)

/-- What stands in text memory, and every other byte of `mem₀`. -/
structure TextHolds (m : TextMode) (mem₀ : Memory) (cell : Nat → Nat → Byte × Byte) (mem : Memory) : Prop where
  cells : ∀ y < m.height, ∀ x < m.width, (mem (m.place y x), mem (m.place y x + 1)) = cell y x
  others : ∀ a, (∀ y < m.height, ∀ x < m.width, a ≠ m.place y x ∧ a ≠ m.place y x + 1) → mem a = mem₀ a

/-- The console is on. -/
structure TurnedOn (m : TextMode) (t : TextConsole) : Prop where
  vmem : t.vmem = m.vmem
  width : t.width = m.width
  height : t.height = m.height
  pitch : t.pitch = m.pitch
  bpp : t.bpp = 2

/-- The registers of the display controller for the place of its cursor. -/
def CursorAt (v : Crtc) (position : Nat) : Prop :=
  v.regs 0x0F#8 = BitVec.ofNat 8 position ∧ v.regs 0x0E#8 = BitVec.ofNat 8 (position / 256)

/-- **The console shows a page.** -/
structure Shown (m : TextMode) (mem₀ : Memory) (p : Page (Byte × Byte)) (t : TextConsole) : Prop where
  on : TurnedOn m t
  text : TextHolds m mem₀ p.cell t.mem
  cursorX : t.cursorX = p.col
  cursorY : t.cursorY = p.row
  col_lt : p.col < m.width
  row_lt : p.row < m.height
  cursor : CursorAt t.crtc (p.row * m.width + p.col)

/-- The paper before anything is written: text memory, and then blank rows. -/
def TextMode.paper (m : TextMode) (mem : Memory) : Page (Byte × Byte) where
  cell y x := if y < m.height then (mem (m.place y x), mem (m.place y x + 1)) else blankCell
  row := 0
  col := 0

/-! ## Text memory -/

section Places

variable (m : TextMode) {t : TextConsole} {mem₀ mem : Memory} {cell cell' : Nat → Nat → Byte × Byte} {c : Byte × Byte}
  {y x y' x' n : Nat}

/-- A row ends before the next one. -/
theorem TextMode.row_le (h : y < y') : y * m.pitch + 2 * m.width ≤ y' * m.pitch := by
  have hmul := Nat.mul_le_mul_right m.pitch h
  rw [Nat.succ_mul] at hmul
  have hp := m.pitch_ge
  omega

theorem TextMode.place_lt (hy : y < m.height) (hx : x < m.width) : m.place y x + 2 ≤ 0x100000000 := by
  have hrow := m.row_le hy
  have hf := m.fits
  unfold TextMode.place
  omega

/-- Two places are apart. -/
theorem TextMode.place_apart (hx : x < m.width) (hx' : x' < m.width) (h : ¬ (y' = y ∧ x' = x)) :
    m.place y' x' + 2 ≤ m.place y x ∨ m.place y x + 2 ≤ m.place y' x' := by
  unfold TextMode.place
  rcases Nat.lt_trichotomy y y' with hlt | heq | hgt
  · have hrow := m.row_le hlt
    omega
  · subst heq
    omega
  · have hrow := m.row_le hgt
    omega

variable {m}

/-- The mode stays when text memory and the cursor change. -/
theorem TurnedOn.update (ht : TurnedOn m t) (cursorX cursorY : Nat) (mem : Memory) (crtc : Crtc) :
    TurnedOn m { t with cursorX := cursorX, cursorY := cursorY, mem := mem, crtc := crtc } :=
  ⟨ht.vmem, ht.width, ht.height, ht.pitch, ht.bpp⟩

theorem TurnedOn.place (ht : TurnedOn m t) (hy : y < m.height) (hx : x < m.width) : t.place y x = m.place y x := by
  have hlt := m.place_lt hy hx
  unfold TextMode.place at hlt
  rw [TextConsole.place, TextMode.place, ht.vmem, ht.pitch, ht.bpp, Nat.mod_eq_of_lt (by omega)]

/-- Only the marks on the screen count. -/
theorem TextHolds.congr (h : TextHolds m mem₀ cell mem) (heq : ∀ y < m.height, ∀ x < m.width, cell' y x = cell y x) :
    TextHolds m mem₀ cell' mem :=
  ⟨fun y hy x hx => (h.cells y hy x hx).trans (heq y hy x hx).symm, h.others⟩

/-- A character is written. -/
theorem TextHolds.put (h : TextHolds m mem₀ cell mem) (hy : y < m.height) (hx : x < m.width) :
    TextHolds m mem₀ (Page.put cell y x c) (putCell mem (m.place y x) c) := by
  refine ⟨fun y' hy' x' hx' => ?_, fun a ha => ?_⟩
  · by_cases hsame : y' = y ∧ x' = x
    · rw [hsame.1, hsame.2, Page.put_self, putCell, putByte_self, putByte_apart (by omega), putByte_self]
    · have hapart := m.place_apart hx hx' hsame
      rw [Page.put_apart hsame, putCell, putByte_apart (by omega), putByte_apart (by omega), putByte_apart (by omega),
        putByte_apart (by omega)]
      exact h.cells y' hy' x' hx'
  · have hne := ha y hy x hx
    rw [putCell, putByte_apart hne.2, putByte_apart hne.1]
    exact h.others a ha

/-- A line is cleared. -/
theorem clearCells_holds (ht : TurnedOn m t) (hy : y < m.height) (h : TextHolds m mem₀ cell mem) (hn : n ≤ m.width) :
    TextHolds m mem₀ (fun r x => if r = y ∧ x < n then blankCell else cell r x) (clearCells t y n mem) := by
  induction n with
  | zero => exact h.congr fun r _ x _ => if_neg (by omega)
  | succ n ih =>
    rw [clearCells, ht.place hy (by omega)]
    refine ((ih (by omega)).put hy (by omega)).congr fun r _ x _ => ?_
    by_cases hsame : r = y ∧ x = n
    · rw [if_pos (by omega), hsame.1, hsame.2, Page.put_self]
      rfl
    · rw [Page.put_apart hsame]
      exact if_congr (by omega) rfl rfl

/-- A line is copied to another one. -/
theorem copyCells_holds {s d : Nat} (ht : TurnedOn m t) (hs : s < m.height) (hd : d < m.height)
    (h : TextHolds m mem₀ cell mem) (hn : n ≤ m.width) :
    TextHolds m mem₀ (fun r x => if r = d ∧ x < n then cell s x else cell r x) (copyCells t s d n mem) := by
  induction n with
  | zero => exact h.congr fun r _ x _ => if_neg (by omega)
  | succ n ih =>
    have hrest := ih (by omega)
    have hcell := hrest.cells s hs n (by omega)
    rw [if_neg (by omega)] at hcell
    rw [copyCells]
    simp only [ht.place hs (show n < m.width by omega), ht.place hd (show n < m.width by omega), hcell]
    refine (hrest.put hd (by omega)).congr fun r _ x _ => ?_
    by_cases hsame : r = d ∧ x = n
    · rw [if_pos (by omega), hsame.1, hsame.2, Page.put_self]
    · rw [Page.put_apart hsame]
      exact if_congr (by omega) rfl rfl

/-- Lines go up. -/
theorem scrollLines_holds (ht : TurnedOn m t) (h : TextHolds m mem₀ cell t.mem) (hn : n < m.height) :
    ∃ mem, scrollLines t n = { t with mem := mem } ∧
      TextHolds m mem₀ (fun r x => if r < n then cell (r + 1) x else cell r x) mem := by
  induction n with
  | zero => exact ⟨t.mem, rfl, h.congr fun r _ x _ => if_neg (by omega)⟩
  | succ n ih =>
    obtain ⟨mem, hmem, hh⟩ := ih (by omega)
    have hon : TurnedOn m { t with mem := mem } := ht.update _ _ _ _
    refine ⟨copyCells { t with mem := mem } (n + 1) n t.width mem, by rw [scrollLines, hmem]; rfl, ?_⟩
    have hw := ht.width
    refine (copyCells_holds hon hn (show n < m.height by omega) hh (Nat.le_of_eq hw)).congr fun r _ x hx => ?_
    by_cases hr : r = n
    · rw [hr, if_pos (by omega), if_pos (by omega), if_neg (by omega)]
    · rw [if_neg (show ¬ (r = n ∧ x < t.width) by omega)]
      exact if_congr (by omega) rfl rfl

/-- **Scrolling.** -/
theorem ttyScroll_holds (ht : TurnedOn m t) (h : TextHolds m mem₀ cell t.mem) :
    ∃ mem, ttyScroll t = { t with mem := mem } ∧ TextHolds m mem₀ (Page.scroll blankCell m.height cell) mem := by
  have hh := m.height_pos
  obtain ⟨mem, hmem, hlines⟩ := scrollLines_holds (n := m.height - 1) ht h (by omega)
  have hon : TurnedOn m { t with mem := mem } := ht.update _ _ _ _
  have hw := ht.width
  refine ⟨clearCells { t with mem := mem } (m.height - 1) t.width mem, ?_, ?_⟩
  · unfold ttyScroll
    rw [show t.height - 1 = m.height - 1 by rw [ht.height], hmem]
    rfl
  · refine (clearCells_holds hon (show m.height - 1 < m.height by omega) hlines (Nat.le_of_eq hw)).congr
      fun r hr x hx => ?_
    unfold Page.scroll
    by_cases hlast : r = m.height - 1
    · rw [if_neg (by omega), if_pos (by omega)]
    · rw [if_pos (by omega), if_neg (by omega), if_pos (by omega)]

end Places

/-! ## The cursor -/

/-- The two bytes of a position. -/
theorem ttyUpdateCursor_regs (t : TextConsole) : (ttyUpdateCursor t).crtc.regs 0x0F#8 =
    BitVec.ofNat 8 ((t.cursorY * t.width + t.cursorX) % 0x10000) ∧ (ttyUpdateCursor t).crtc.regs 0x0E#8 =
    BitVec.ofNat 8 ((t.cursorY * t.width + t.cursorX) % 0x10000 / 256) := by
  simp only [ttyUpdateCursor, Crtc.outb, if_pos, show (0x3D5 : Nat) ≠ 0x3D4 by decide, if_false]
  exact ⟨by rw [Function.update_of_ne (by decide), Function.update_self], Function.update_self ..⟩

/-- `tty_update_cursor` sets the cursor of the display. -/
theorem ttyUpdateCursor_cursor (t : TextConsole) :
    CursorAt (ttyUpdateCursor t).crtc (t.cursorY * t.width + t.cursorX) := by
  obtain ⟨hlow, hhigh⟩ := ttyUpdateCursor_regs t
  refine ⟨hlow.trans ?_, hhigh.trans ?_⟩
  · apply BitVec.eq_of_toNat_eq
    rw [BitVec.toNat_ofNat, BitVec.toNat_ofNat]
    omega
  · apply BitVec.eq_of_toNat_eq
    rw [BitVec.toNat_ofNat, BitVec.toNat_ofNat]
    omega

section Putc

variable {m : TextMode} {t : TextConsole} {mem₀ : Memory} {p : Page (Byte × Byte)} {c : Byte}

/-- The console is as `p` says, but the cursor may have left the screen. -/
structure Typed (m : TextMode) (mem₀ : Memory) (p : Page (Byte × Byte)) (t : TextConsole) : Prop where
  on : TurnedOn m t
  text : TextHolds m mem₀ p.cell t.mem
  cursorX : t.cursorX = p.col
  cursorY : t.cursorY = p.row
  row_le : p.row < m.height ∨ p.row = m.height ∧ p.col < m.width

/-- A row that is full. -/
theorem ttyWrapRow_typed (h : Typed m mem₀ p t) : Typed m mem₀ (p.wrap m.width) (ttyWrapRow t) ∧
    (p.wrap m.width).col < m.width := by
  obtain ⟨hon, htext, hx, hy, hrow⟩ := h
  have hpos := m.width_pos
  have hh := m.height_le
  have hcond : t.cursorX ≥ t.width ↔ m.width ≤ p.col := by rw [hx, hon.width]
  unfold ttyWrapRow
  rcases Nat.lt_or_ge p.col m.width with hroom | hover
  · rw [if_neg (by omega), Page.wrap_room hroom]
    exact ⟨⟨hon, htext, hx, hy, hrow⟩, hroom⟩
  · rw [if_pos (hcond.2 hover), Page.wrap_full hover]
    refine ⟨⟨hon.update _ _ _ _, htext, rfl, ?_, ?_⟩, hpos⟩
    · change (t.cursorY + 1) % 0x10000 = p.row + 1
      omega
    · change p.row + 1 < m.height ∨ p.row + 1 = m.height ∧ 0 < m.width
      omega

/-- A screen that is full. -/
theorem ttyWrapScreen_typed (h : Typed m mem₀ p t) (hcol : p.col < m.width) :
    Typed m mem₀ (p.clip blankCell m.height) (ttyWrapScreen t) ∧ (p.clip blankCell m.height).col < m.width ∧
      (p.clip blankCell m.height).row < m.height := by
  obtain ⟨hon, htext, hx, hy, hrow⟩ := h
  have hpos := m.width_pos
  have hhpos := m.height_pos
  have hcond : t.cursorY ≥ t.height ↔ m.height ≤ p.row := by rw [hy, hon.height]
  unfold ttyWrapScreen Page.clip
  by_cases hover : m.height ≤ p.row
  · obtain ⟨mem, hmem, hscroll⟩ := ttyScroll_holds hon htext
    have hlast : m.height - 1 < m.height := by omega
    rw [if_pos (hcond.2 hover), if_pos hover, hmem]
    exact ⟨⟨hon.update _ _ _ _, hscroll, rfl, congrArg (· - 1) hon.height,
      Or.inl hlast⟩, hpos, hlast⟩
  · rw [if_neg (hover ∘ hcond.1), if_neg hover]
    exact ⟨⟨hon, htext, hx, hy, hrow⟩, hcol, by omega⟩

/-- **The end of `tty_putc`** brings the cursor back to the screen. -/
theorem ttyWrap_shown (h : Typed m mem₀ p t) :
    Shown m mem₀ ((p.wrap m.width).clip blankCell m.height) (ttyWrap t) := by
  obtain ⟨hrow, hcol⟩ := ttyWrapRow_typed h
  obtain ⟨⟨hon, htext, hx, hy, -⟩, hcol', hrow'⟩ := ttyWrapScreen_typed hrow hcol
  have hcursor := ttyUpdateCursor_cursor (ttyWrapScreen (ttyWrapRow t))
  rw [hx, hy, hon.width] at hcursor
  exact ⟨hon.update _ _ _ _, htext, hx, hy, hcol', hrow', hcursor⟩

/-- A character is its case, and then the cursor comes back. -/
theorem ttyPutcBody_on (h : Shown m mem₀ p t) (again : Byte → TextConsole → Kernel TextConsole) (c : Byte) :
    ttyPutcBody again c t = ttyPutcCase again c t >>= fun t => .ok (ttyWrap t) := by
  have hpos := m.vmem_pos
  have hx : t.cursorX < t.width := by rw [h.cursorX, h.on.width]; exact h.col_lt
  have hy : t.cursorY < t.height := by rw [h.cursorY, h.on.height]; exact h.row_lt
  rw [ttyPutcBody, if_neg (by rw [h.on.vmem]; omega), assert_bind hx, assert_bind hy]
  rfl

/-- The carriage return that `'\n'` begins with. -/
theorem ttyPutc_return (h : Shown m mem₀ p t) (again : Byte → TextConsole → Kernel TextConsole) :
    ∃ t', ttyPutcBody again 0x0D#8 t = .ok t' ∧ Shown m mem₀ { p with col := 0 } t' := by
  have hrow := h.row_lt
  have hback : Typed m mem₀ { p with col := 0 } { t with cursorX := 0 } :=
    ⟨h.on.update _ _ _ _, h.text, rfl, h.cursorY, Or.inl hrow⟩
  have hshown := ttyWrap_shown hback
  rw [Page.wrap_room (show ({ p with col := 0 } : Page (Byte × Byte)).col < m.width from m.width_pos), Page.clip,
    if_neg (show ¬ m.height ≤ p.row by omega)] at hshown
  exact ⟨_, ttyPutcBody_on h again 0x0D#8, hshown⟩

/-- **A case of `tty_putc`** is a key. -/
theorem ttyPutcCase_typed (h : Shown m mem₀ p t) (c : Byte) :
    ∃ t', ttyPutcCase (ttyPutcBody fun _ => .ok) c t = .ok t' ∧ Typed m mem₀ (p.act (keyOf textCell c)) t' := by
  obtain ⟨t₁, ht₁, h₁⟩ := ttyPutc_return h fun _ => .ok
  have hw := m.width_le
  have hh := m.height_le
  have hcol := h.col_lt
  have hrow := h.row_lt
  have hx := h.cursorX
  have hy := h.cursorY
  have hstrike : Typed m mem₀ (p.strike (textCell c)) { t with
      mem := putCell t.mem (t.place t.cursorY t.cursorX) (c, ttyDefaultAttribute)
      cursorX := (t.cursorX + 1) % 0x10000 } := by
    refine ⟨h.on.update _ _ _ _, ?_, ?_, hy, Or.inl hrow⟩
    · have hput := h.text.put (c := textCell c) hrow hcol
      rw [← h.on.place hrow hcol, ← hy, ← hx] at hput
      rw [hx, hy] at hput ⊢
      exact hput
    · change (t.cursorX + 1) % 0x10000 = p.col + 1
      omega
  unfold ttyPutcCase keyOf
  by_cases hback : c = 0x08#8
  · rw [if_pos hback]
    rcases Nat.eq_zero_or_pos p.col with hzero | hpos
    · rw [if_neg (by omega), if_neg (by rw [hback]; decide), if_neg (by rw [hback]; decide),
        if_neg (by rw [hback]; decide), Page.act_back_first hzero]
      exact ⟨_, rfl, hstrike⟩
    · rw [if_pos ⟨hback, by omega⟩, Page.act_back hpos]
      exact ⟨_, rfl, h.on.update _ _ _ _, h.text, congrArg (· - 1) hx, hy,
        Or.inl hrow⟩
  · rw [if_neg (fun hc => hback hc.1), if_neg hback]
    by_cases hnl : c = 0x0A#8
    · rw [if_pos hnl, if_pos hnl, ht₁]
      refine ⟨_, rfl, h₁.on.update _ _ _ _, h₁.text, rfl, ?_, ?_⟩
      · have hy₁ : t₁.cursorY = p.row := h₁.cursorY
        change (t₁.cursorY + 1) % 0x10000 = p.row + 1
        omega
      · have hpos := m.width_pos
        change p.row + 1 < m.height ∨ p.row + 1 = m.height ∧ 0 < m.width
        omega
    · rw [if_neg hnl, if_neg hnl]
      by_cases hcr : c = 0x0D#8
      · rw [if_pos hcr, if_pos hcr]
        exact ⟨_, rfl, h.on.update _ _ _ _, h.text, rfl, hy, Or.inl hrow⟩
      · rw [if_neg hcr, if_neg hcr]
        by_cases htab : c = 0x09#8
        · rw [if_pos htab, if_pos htab]
          refine ⟨_, rfl, h.on.update _ _ _ _, h.text, ?_, hy, Or.inl hrow⟩
          change (t.cursorX + 4) % 0x10000 = p.col + 4
          omega
        · rw [if_neg htab, if_neg htab]
          exact ⟨_, rfl, hstrike⟩

/-- **A character** is a key of a typewriter. -/
theorem ttyPutc_shown (h : Shown m mem₀ p t) (c : Byte) : ∃ t', ttyPutc c t = .ok t' ∧
    Shown m mem₀ (p.pressIn blankCell m.width m.height (keyOf textCell c)) t' := by
  obtain ⟨t', ht', htyped⟩ := ttyPutcCase_typed h c
  exact ⟨ttyWrap t', by rw [ttyPutc, ttyPutcBody_on h, ht', ok_bind], ttyWrap_shown htyped⟩

/-- Characters are keys. -/
theorem ttyPuts_shown (cs : List Byte) (h : Shown m mem₀ p t) : ∃ t', ttyPuts cs t = .ok t' ∧
    Shown m mem₀ (p.typeIn blankCell m.width m.height (cs.map (keyOf textCell))) t' := by
  induction cs generalizing p t with
  | nil => exact ⟨t, rfl, h⟩
  | cons c cs ih =>
    obtain ⟨t₁, ht₁, h₁⟩ := ttyPutc_shown h c
    obtain ⟨t', ht', h'⟩ := ih h₁
    exact ⟨t', (runSteps_cons ht₁).trans ht', h'⟩

end Putc

/-! ## The console from the start -/

section Boot

variable (info unsupported cs : List Byte) (mem : Memory) (crtc : Crtc)

/-- A console that is off does nothing. -/
theorem ttyPuts_off (cs : List Byte) {t : TextConsole} (h : t.vmem = 0) : ttyPuts cs t = .ok t := by
  induction cs with
  | nil => rfl
  | cons c cs ih =>
    have hput : ttyPutc c t = .ok t := by rw [ttyPutc, ttyPutcBody, if_pos h]; rfl
    exact (runSteps_cons hput).trans ih

/-- The state in which `tty_init` finds the mode: the screen it has cleared has no lines. -/
theorem ttyInit_boot (vmemPtr w h fbBpp fbPitch : Word) :
    ttyInit info unsupported vmemPtr w h fbBpp fbPitch (ttyBoot mem crtc) =
      if fbBpp = 0x10#32 then .ok { ttyMoveCursor 0 0 (ttyBoot mem crtc) with
        width := w.toNat % 0x10000, height := h.toNat % 0x10000, bpp := 2, pitch := fbPitch.toNat
        vmem := vmemPtr.toNat }
      else .ok (ttyMoveCursor 0 0 (ttyBoot mem crtc)) := by
  have hoff : (ttyClearScreen (ttyBoot mem crtc)).vmem = 0 := rfl
  rw [ttyInit, ttyPuts_off info hoff, ok_bind]
  by_cases hbpp : fbBpp = 0x10#32
  · rw [if_neg (by simp [hbpp]), if_neg (by rw [hbpp]; decide), if_pos hbpp, hbpp]
    rfl
  · rw [if_pos hbpp, if_neg hbpp, ttyPuts_off unsupported hoff]
    rfl

/-- The paper is blank below the screen. -/
theorem TextMode.paper_fresh (m : TextMode) : (m.paper mem).Fresh blankCell m.width m.height :=
  ⟨m.width_pos, fun _ _ _ hr => if_neg (by omega)⟩

/-- A console that has just been turned on shows what stands in text memory. -/
theorem ttyInit_shown (m : TextMode) : ∃ t, ttyInit info unsupported (BitVec.ofNat 32 m.vmem) (BitVec.ofNat 32 m.width)
    (BitVec.ofNat 32 m.height) 0x10#32 (BitVec.ofNat 32 m.pitch) (ttyBoot mem crtc) = .ok t ∧
    Shown m mem ((m.paper mem).window m.height) t := by
  have hw := m.width_le
  have hwp := m.width_pos
  have hh := m.height_le
  have hhp := m.height_pos
  have hf := m.fits
  have hpitch : m.pitch ≤ m.height * m.pitch := Nat.le_mul_of_pos_left _ hhp
  have hp := m.pitch_ge
  have hv := m.vmem_pos
  have htop : (m.paper mem).top m.height = 0 := by
    change 0 + 1 - m.height = 0
    omega
  refine ⟨_, (ttyInit_boot info unsupported mem crtc _ _ _ _ _).trans (if_pos rfl), ⟨?_, ?_, ?_, ?_, rfl⟩,
    ⟨?_, fun _ _ => rfl⟩, rfl, ?_, hwp, ?_, ?_⟩
  · exact (BitVec.toNat_ofNat ..).trans (Nat.mod_eq_of_lt (by omega))
  · change (BitVec.ofNat 32 m.width).toNat % 0x10000 = m.width
    rw [BitVec.toNat_ofNat]
    omega
  · change (BitVec.ofNat 32 m.height).toNat % 0x10000 = m.height
    rw [BitVec.toNat_ofNat]
    omega
  · exact (BitVec.toNat_ofNat ..).trans (Nat.mod_eq_of_lt (by omega))
  · intro y hy x hx
    change _ = (m.paper mem).cell ((m.paper mem).top m.height + y) x
    rw [htop, Nat.zero_add]
    exact (if_pos hy).symm
  · change 0 = 0 - (m.paper mem).top m.height
    omega
  · change 0 - (m.paper mem).top m.height < m.height
    omega
  · have hcursor := ttyUpdateCursor_cursor (ttyBoot mem crtc)
    change CursorAt (ttyUpdateCursor (ttyBoot mem crtc)).crtc ((0 - (m.paper mem).top m.height) * m.width + 0)
    rw [htop, Nat.sub_zero, Nat.zero_mul]
    exact hcursor

/-- What is written behind that is typed on the paper. -/
theorem Shown.typed {m : TextMode} {t : TextConsole} (h : Shown m mem ((m.paper mem).window m.height) t) :
    ∃ t', ttyPuts cs t = .ok t' ∧
      Shown m mem (((m.paper mem).type m.width (cs.map (keyOf textCell))).window m.height) t' := by
  obtain ⟨t', ht', h'⟩ := ttyPuts_shown cs h
  rw [← Page.window_type m.height_pos (m.paper_fresh mem)] at h'
  exact ⟨t', ht', h'⟩

/-- **The text console**: whatever is written, `tty_putc` returns. The screen shows the end of the paper on which it is
typed, below what stood in text memory at first; no other byte of memory changes, and the cursor of the display is where
the next character goes. -/
theorem tty_shows (m : TextMode) : ∃ t t', ttyInit info unsupported (BitVec.ofNat 32 m.vmem) (BitVec.ofNat 32 m.width)
    (BitVec.ofNat 32 m.height) 0x10#32 (BitVec.ofNat 32 m.pitch) (ttyBoot mem crtc) = .ok t ∧ ttyPuts cs t = .ok t' ∧
    Shown m mem (((m.paper mem).type m.width (cs.map (keyOf textCell))).window m.height) t' := by
  obtain ⟨t, ht, h⟩ := ttyInit_shown info unsupported mem crtc m
  obtain ⟨t', ht', h'⟩ := h.typed cs
  exact ⟨t, t', ht, ht', h'⟩

/-- The mode that `kmain` takes when there is no framebuffer. -/
def vgaText : TextMode where
  vmem := 0xB8000
  width := 80
  height := 25
  pitch := 160
  vmem_pos := by decide
  width_pos := by decide
  width_le := by decide
  height_pos := by decide
  height_le := by decide
  pitch_ge := by decide
  fits := by decide

/-- A character that is no key for the cursor. -/
def IsPlain (c : Byte) : Prop := c ≠ 0x08#8 ∧ c ≠ 0x09#8 ∧ c ≠ 0x0A#8 ∧ c ≠ 0x0D#8

instance (c : Byte) : Decidable (IsPlain c) := inferInstanceAs (Decidable (_ ∧ _))

theorem keyOf_plain {α : Type} {glyph : Byte → α} {c : Byte} (h : IsPlain c) : keyOf glyph c = .mark (glyph c) := by
  rw [keyOf, if_neg h.1, if_neg h.2.2.1, if_neg h.2.2.2, if_neg h.2.1]

/-- **Plain text**: character `i` stands in line `i / width` of the text, in column `i % width`, as long as the line is
on the screen. -/
theorem tty_plain (m : TextMode) (hplain : ∀ c ∈ cs, IsPlain c) : ∃ t t',
    ttyInit info unsupported (BitVec.ofNat 32 m.vmem) (BitVec.ofNat 32 m.width) (BitVec.ofNat 32 m.height) 0x10#32
      (BitVec.ofNat 32 m.pitch) (ttyBoot mem crtc) = .ok t ∧ ttyPuts cs t = .ok t' ∧
    ∀ i, (hi : i < cs.length) → cs.length / m.width + 1 - m.height ≤ i / m.width →
      (t'.mem (m.place (i / m.width - (cs.length / m.width + 1 - m.height)) (i % m.width)),
        t'.mem (m.place (i / m.width - (cs.length / m.width + 1 - m.height)) (i % m.width) + 1)) =
      (cs[i], ttyDefaultAttribute) := by
  obtain ⟨t, ht, h⟩ := ttyInit_shown info unsupported mem crtc m
  obtain ⟨t', ht', h'⟩ := h.typed cs
  refine ⟨t, t', ht, ht', fun i hi hon => ?_⟩
  have hw := m.width_pos
  have hkeys : cs.map (keyOf textCell) = (cs.map textCell).map .mark := by
    rw [List.map_map]
    exact List.map_congr_left fun c hc => keyOf_plain (hplain c hc)
  rw [hkeys] at h'
  have hx : i % m.width < m.width := Nat.mod_lt _ hw
  obtain ⟨hplace, hcol⟩ := Page.type_place (p := m.paper mem) (cs.map textCell) hw
  have hcell := Page.type_marks (r := i / m.width) (p := m.paper mem) (cs.map textCell) hw hx
  have hstart : (m.paper mem).row * m.width + (m.paper mem).col = 0 := Nat.zero_mul _
  rw [hstart, if_neg (Nat.not_lt_zero _), Nat.sub_zero, Nat.div_add_mod'] at hcell
  rw [hstart, Nat.zero_add, List.length_map] at hplace
  generalize (m.paper mem).type m.width ((cs.map textCell).map .mark) = p at h' hplace hcol hcell
  have hrow : p.row = cs.length / m.width := by
    rw [← hplace, Nat.mul_comm, Nat.mul_add_div hw, Nat.div_eq_of_lt hcol, Nat.add_zero]
  have htop : p.top m.height = cs.length / m.width + 1 - m.height := congrArg (· + 1 - m.height) hrow
  have hle : i / m.width ≤ cs.length / m.width := Nat.div_le_div_right (by omega)
  have hh := m.height_pos
  rw [← htop] at hon ⊢
  have hmem := h'.text.cells (i / m.width - p.top m.height) (by omega) (i % m.width) hx
  have hwin : (p.window m.height).cell (i / m.width - p.top m.height) (i % m.width) =
      p.cell (i / m.width) (i % m.width) := congrArg (p.cell · _) (by omega)
  rw [hmem, hwin, hcell, List.getD_eq_getElem?_getD, List.getElem?_map, List.getElem?_eq_getElem hi]
  rfl

/-- `Hi` in the mode of `kmain`. -/
theorem tty_plain_vga : ∃ t t', ttyInit [] [] 0xB8000#32 80#32 25#32 0x10#32 160#32
    (ttyBoot (fun _ => 0#8) ⟨0#8, fun _ => 0#8⟩) = .ok t ∧
    ttyPuts [0x48#8, 0x69#8] t = .ok t' ∧ (t'.mem 0xB8002, t'.mem 0xB8003) = (0x69#8, 0x07#8) := by
  obtain ⟨t, t', ht, ht', hcells⟩ := tty_plain [] [] [0x48#8, 0x69#8] (fun _ => 0#8) ⟨0#8, fun _ => 0#8⟩ vgaText
    (by decide)
  exact ⟨t, t', ht, ht', hcells 1 (by decide) (by decide)⟩

/-- **The console that `kmain` turns on**: 80 columns and 25 lines where there is no framebuffer. In a text mode of the
boot loader the line length stands in the place of the depth, and the console stays off for ever, unless a line has 16
bytes. -/
theorem kmain_text (fb : Option FramebufferInfo) :
    ((∀ f, fb = some f → f.addr = 0#64) → ∃ t t', kmainTty info unsupported fb (ttyBoot mem crtc) = .ok t ∧
      ttyPuts cs t = .ok t' ∧
      Shown vgaText mem (((vgaText.paper mem).type 80 (cs.map (keyOf textCell))).window 25) t') ∧
    (∀ f, fb = some f → f.addr ≠ 0#64 → f.kind = 1#8 ∨ (f.kind = 0#8 ∨ f.kind = 2#8) ∧ f.pitch ≠ 16#32 →
      ∃ t, kmainTty info unsupported fb (ttyBoot mem crtc) = .ok t ∧ ttyPuts cs t = .ok t ∧ t.mem = mem) := by
  refine ⟨fun hnone => ?_, ?_⟩
  · obtain ⟨t, ht, h⟩ := ttyInit_shown info unsupported mem crtc vgaText
    obtain ⟨t', ht', h'⟩ := h.typed cs
    refine ⟨t, t', ?_, ht', h'⟩
    cases fb with
    | none => exact ht
    | some f =>
      rw [kmainTty, if_neg (not_not.2 (hnone f rfl))]
      exact ht
  · rintro f rfl haddr hkind
    rw [kmainTty, if_pos haddr]
    rcases hkind with hkind | ⟨hkind, hpitch⟩
    · rw [if_neg (by rw [hkind]; decide), if_pos hkind]
      exact ⟨_, rfl, ttyPuts_off cs rfl, rfl⟩
    · have hinit := (ttyInit_boot info unsupported mem crtc (f.addr.setWidth 32) f.width f.height f.pitch
        (f.bpp.setWidth 32)).trans (if_neg hpitch)
      rcases hkind with hkind | hkind
      · rw [if_neg (by rw [hkind]; decide), if_neg (by rw [hkind]; decide), if_pos hkind, hinit]
        exact ⟨_, rfl, ttyPuts_off cs rfl, rfl⟩
      · rw [if_pos hkind, hinit]
        exact ⟨_, rfl, ttyPuts_off cs rfl, rfl⟩

end Boot

end Myunix.Console
