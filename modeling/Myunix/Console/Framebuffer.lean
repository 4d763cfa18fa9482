import Myunix.CString

/-!
# The framebuffer console (`framebuffer.c`)

`framebuffer_putc` draws a character into video memory or, with back buffers, into the first of them. What has changed
is found by a comparison with the second back buffer, a copy of what is on the screen: pixel by pixel after a glyph, row
by row after a scroll. `Near` relates the buffers of a machine with back buffers to the video memory of one without,
with a set of offsets at which the screen may be behind; drawing keeps it for a set that holds the drawn pixels, and a
copy takes its block out of the set (`copyIfDifferent_twin`).

`double_buffer_invisible` says that both machines show the same picture after every character.
-/

namespace Myunix.Framebuffer

open Lib

/-! ## The code -/

/-- The bytes of a buffer, by their offset. -/
abbrev Buffer := Nat → Byte

/-- `font8x8_basic`: the eight rows of each glyph. -/
abbrev Font := Byte → Nat → Byte

/-- The video mode, with `(height + 1) * pitch` bytes of video memory in the address space. -/
structure Mode where
  pitch : Nat
  width : Nat
  height : Nat
  bpp : Nat
  bpp_eq : bpp = 24 ∨ bpp = 32
  width_ge : 8 ≤ width
  height_ge : 8 ≤ height
  pitch_ge : width * bpp / 8 ≤ pitch
  fits : (height + 1) * pitch < 0x100000000

/-- `(height + 1) * pitch`, the size of every buffer. -/
def Mode.size (m : Mode) : Nat := (m.height + 1) * m.pitch % 0x100000000

/-- `y * pitch + x * (bpp / 8)`. -/
def Mode.offset (m : Mode) (x y : Nat) : Nat := (y * m.pitch + x * (m.bpp / 8)) % 0x100000000

/-- The state of the console once `framebuffer_init` has set `vmem`; before, its functions do nothing. -/
structure Screen where
  vmem : Buffer
  backbuffer0 : Option Buffer
  backbuffer1 : Option Buffer
  cursorX : Nat
  cursorY : Nat

/-- `memcpy` of `len` bytes at offset `o` of a buffer to offset `d` of a buffer; the two ranges do not overlap. -/
def memcpy (m : Mode) (dest : Buffer) (d : Nat) (src : Buffer) (o len : Nat) : Kernel Buffer := do
  kassert (len ≠ 0)
  if d + len ≤ m.size ∧ o + len ≤ m.size then
    return fun i => if d ≤ i ∧ i < d + len then src (o + (i - d)) else dest i
  else throw .bounds

/-- `memcmp` of `len` bytes at one offset of two buffers: whether it returns another value than 0. -/
def memcmp (b₀ b₁ : Buffer) (o len : Nat) : Bool := !decide (∀ i < len, b₀ (o + i) = b₁ (o + i))

/-- The body of the loops of the two copy functions: a block that differs is copied to the screen and its shadow. -/
def copyIfDifferent (m : Mode) (o len : Nat) (s : Screen) : Kernel Screen :=
  match s.backbuffer0, s.backbuffer1 with
  | some b₀, some b₁ =>
    if memcmp b₀ b₁ o len then do
      let vmem ← memcpy m s.vmem o b₀ o len
      let b₁ ← memcpy m b₁ o b₀ o len
      return { s with vmem := vmem, backbuffer1 := some b₁ }
    else return s
  | _, _ => return s

/-- `framebuffer_copy_to_front`. -/
def framebufferCopyToFront (m : Mode) (s : Screen) : Kernel Screen :=
  if s.backbuffer0.isNone ∨ s.backbuffer1.isNone then return s
  else forRange (fun y s => copyIfDifferent m (m.offset 0 y) m.pitch s) 0 m.height s

/-- `framebuffer_copy_region_if_needed`. -/
def framebufferCopyRegionIfNeeded (m : Mode) (x y w h : Nat) (s : Screen) : Kernel Screen :=
  if s.backbuffer0.isNone ∨ s.backbuffer1.isNone then return s
  else forRange (fun dy s => forRange (fun dx s =>
    copyIfDifferent m (m.offset (x + dx) (y + dy)) (m.bpp / 8) s) 0 w s) 0 h s

/-- `where[0] = …`, `where[1] = …`, `where[2] = …` at offset `o`. -/
def pixelBytes (b : Buffer) (o : Nat) (v : Word) : Buffer :=
  Function.update (Function.update (Function.update b o ((v >>> 0).setWidth 8)) (o + 1) ((v >>> 1).setWidth 8))
    (o + 2) ((v >>> 2).setWidth 8)

/-- The pixel `(x, y)` of a buffer. -/
def writePixel (m : Mode) (b : Buffer) (x y : Nat) (v : Word) : Kernel Buffer :=
  if m.offset x y + 3 ≤ m.size then .ok (pixelBytes b (m.offset x y) v) else .error .bounds

/-- `framebuffer_setpixel`. -/
def framebufferSetpixel (m : Mode) (x y : Nat) (v : Word) (s : Screen) : Kernel Screen := do
  kassert (x < m.width)
  kassert (y < m.height)
  match s.backbuffer0 with
  | none =>
    let vmem ← writePixel m s.vmem x y v
    return { s with vmem := vmem }
  | some b =>
    let b ← writePixel m b x y v
    return { s with backbuffer0 := some b }

/-- `framebuffer_clear`. -/
def framebufferClear (m : Mode) (v : Word) (s : Screen) : Kernel Screen := do
  let s ← forRange (fun y s => forRange (fun x s => framebufferSetpixel m x y v s) 0 m.width s) 0 m.height s
  framebufferCopyToFront m s

/-- The color of a pixel of a glyph. -/
def glyphColor (font : Font) (c : Byte) (i j : Nat) : Word :=
  if c.toNat < 128 ∧ (font c i).getLsbD j then 0xFFFFFF#32 else 0xDE00EE#32

/-- `put_c_at`. -/
def putCAt (m : Mode) (font : Font) (c : Byte) (x y : Nat) (s : Screen) : Kernel Screen := do
  let s ← forRange (fun i s => forRange (fun j s =>
    framebufferSetpixel m (x + j) (y + i) (glyphColor font c i j) s) 0 8 s) 0 8 s
  framebufferCopyRegionIfNeeded m x y 8 8 s

/-- A row of `framebuffer_scroll`. -/
def scrollRow (m : Mode) (y : Nat) (s : Screen) : Kernel Screen :=
  match s.backbuffer0 with
  | none => do
    let vmem ← memcpy m s.vmem (m.offset 0 y) s.vmem (m.offset 0 (y + 8)) m.pitch
    return { s with vmem := vmem }
  | some b => do
    let b ← memcpy m b (m.offset 0 y) b (m.offset 0 (y + 8)) m.pitch
    return { s with backbuffer0 := some b }

/-- `framebuffer_scroll`. -/
def framebufferScroll (m : Mode) (s : Screen) : Kernel Screen := do
  let s ← forRange (scrollRow m) 0 (m.height - 8) s
  let s ← forRange (fun x s => forRange (fun y s =>
    framebufferSetpixel m x (m.height - y - 1) 0xDE00EE#32 s) 0 8 s) 0 m.width s
  framebufferCopyToFront m s

/-- The end of `framebuffer_putc`, which brings the cursor back to the screen. -/
def wrapCursor (m : Mode) (s : Screen) : Kernel Screen := do
  let s := if s.cursorX ≥ m.width / 8 then { s with cursorX := 0, cursorY := s.cursorY + 1 } else s
  if s.cursorY ≥ m.height / 8 then
    let s ← framebufferScroll m s
    return { s with cursorX := 0, cursorY := m.height / 8 - 1 }
  else return s

/-- The cases of `framebuffer_putc`; the inner call for `'\n'` is written out (`framebufferPutc_return`). A `'\b'` in
the first column is drawn. -/
def putcCase (m : Mode) (font : Font) (c : Byte) (s : Screen) : Kernel Screen :=
  if c = 8#8 ∧ s.cursorX > 0 then .ok { s with cursorX := s.cursorX - 1 }
  else if c = 10#8 then do
    let s ← wrapCursor m { s with cursorX := 0 }
    return { s with cursorX := 0, cursorY := s.cursorY + 1 }
  else if c = 13#8 then .ok { s with cursorX := 0 }
  else if c = 9#8 then .ok { s with cursorX := s.cursorX + 4 }
  else do
    let s ← putCAt m font c (s.cursorX * 8) (s.cursorY * 8) s
    return { s with cursorX := s.cursorX + 1 }

/-- `framebuffer_putc`. -/
def framebufferPutc (m : Mode) (font : Font) (c : Byte) (s : Screen) : Kernel Screen := do
  let s ← putcCase m font c s
  wrapCursor m s

/-- `framebuffer_putc('\r')`. -/
theorem framebufferPutc_return (m : Mode) (font : Font) (s : Screen) :
    framebufferPutc m font 13#8 s = wrapCursor m { s with cursorX := 0 } := rfl

/-- `framebuffer_enable_double_buffer`, with what the two calls of `kmalloc` return. A second call that fails frees the
first block; `memcpy` stops at a null pointer. -/
def framebufferEnableDoubleBuffer (m : Mode) (block₀ block₁ : Option Buffer) (s : Screen) : Kernel Screen :=
  match block₀, block₁ with
  | some b₀, some b₁ => do
    let b₀ ← memcpy m b₀ 0 s.vmem 0 m.size
    let b₁ ← memcpy m b₁ 0 b₀ 0 m.size
    return { s with backbuffer0 := some b₀, backbuffer1 := some b₁ }
  | _, _ => throw .assertion

/-- `framebuffer_init`, on video memory `vmem`. -/
def framebufferInit (m : Mode) (vmem : Buffer) : Kernel Screen :=
  framebufferClear m 0xDE00EE#32 ⟨vmem, none, none, 0, 0⟩

/-- The characters of a list, one after the other. -/
def framebufferPuts (m : Mode) (font : Font) (cs : List Byte) (s : Screen) : Kernel Screen :=
  runSteps (fun s c => framebufferPutc m font c s) s cs

/-! ## Offsets -/

section Offsets

variable (m : Mode) {x y : Nat}

theorem Mode.size_eq : m.size = m.height * m.pitch + m.pitch := by
  unfold Mode.size
  rw [Nat.mod_eq_of_lt m.fits, Nat.succ_mul]

theorem Mode.bytes : m.bpp / 8 = 3 ∨ m.bpp / 8 = 4 := by
  rcases m.bpp_eq with h | h <;> omega

/-- A pixel of a row. -/
theorem Mode.pixel_le (hx : x < m.width) : x * (m.bpp / 8) + m.bpp / 8 ≤ m.pitch := by
  have hrow : m.width * (m.bpp / 8) ≤ m.pitch := by
    have hpitch := m.pitch_ge
    rcases m.bpp_eq with h | h
    · rw [h] at hpitch ⊢; omega
    · rw [h] at hpitch ⊢; omega
  have hpixel : (x + 1) * (m.bpp / 8) ≤ m.width * (m.bpp / 8) := Nat.mul_le_mul_right _ hx
  rw [Nat.succ_mul] at hpixel
  omega

theorem Mode.pitch_pos : 0 < m.pitch := by
  have hwidth := m.width_ge
  have hpixel := m.pixel_le (show 0 < m.width by omega)
  have hbytes := m.bytes
  omega

/-- A row of the screen. -/
theorem Mode.row_le (hy : y < m.height) : y * m.pitch + m.pitch ≤ m.height * m.pitch := by
  rw [← Nat.succ_mul]
  exact Nat.mul_le_mul_right _ hy

theorem Mode.offset_eq (hx : x < m.width) (hy : y < m.height) : m.offset x y = y * m.pitch + x * (m.bpp / 8) := by
  have hpixel := m.pixel_le hx
  have hrow := m.row_le hy
  have hfits := m.fits
  rw [Nat.succ_mul] at hfits
  exact Nat.mod_eq_of_lt (by omega)

/-- A pixel of the screen. -/
theorem Mode.offset_le (hx : x < m.width) (hy : y < m.height) : m.offset x y + m.bpp / 8 ≤ m.height * m.pitch := by
  have hpixel := m.pixel_le hx
  have hrow := m.row_le hy
  rw [m.offset_eq hx hy]
  omega

theorem Mode.offset_row (hy : y < m.height) : m.offset 0 y = y * m.pitch := by
  have hwidth := m.width_ge
  rw [m.offset_eq (by omega) hy, Nat.zero_mul, Nat.add_zero]

end Offsets

/-! ## Bytes -/

theorem memcpy_ok {m : Mode} {dest src : Buffer} {d o len : Nat} (hlen : len ≠ 0) (hd : d + len ≤ m.size)
    (ho : o + len ≤ m.size) :
    memcpy m dest d src o len = .ok fun i => if d ≤ i ∧ i < d + len then src (o + (i - d)) else dest i := by
  unfold memcpy
  rw [assert_bind hlen, if_pos ⟨hd, ho⟩]
  rfl

/-- A pixel that is the same before is the same after. -/
theorem pixelBytes_congr {b c : Buffer} {o i : Nat} {v : Word} (h : b i = c i) :
    pixelBytes b o v i = pixelBytes c o v i := by
  unfold pixelBytes
  simp only [Function.update_apply, h]

theorem pixelBytes_other {b : Buffer} {o i : Nat} {v : Word} (h : i < o ∨ o + 3 ≤ i) : pixelBytes b o v i = b i := by
  unfold pixelBytes
  rw [Function.update_of_ne (by omega), Function.update_of_ne (by omega), Function.update_of_ne (by omega)]

/-! ## Two machines -/

/-- Video memory `v` of a machine without back buffers, and the buffers of one with them: both draw the same, the shadow
`b₁` is what the screen `w` shows, and the screen is behind at most at the offsets in `R`. -/
structure Near (m : Mode) (R : Nat → Prop) (v b₀ b₁ w : Buffer) : Prop where
  same : ∀ i < m.height * m.pitch, b₀ i = v i
  shown : ∀ i < m.height * m.pitch, w i = b₁ i
  fresh : ∀ i < m.height * m.pitch, ¬ R i → b₁ i = b₀ i

/-- Two machines with their cursors at the same place, `d` with back buffers. -/
def Twin (m : Mode) (R : Nat → Prop) (cx cy : Nat) (p d : Screen) : Prop :=
  ∃ v b₀ b₁ w, p = ⟨v, none, none, cx, cy⟩ ∧ d = ⟨w, some b₀, some b₁, cx, cy⟩ ∧ Near m R v b₀ b₁ w

section Twin

variable {m : Mode} {R S : Nat → Prop} {cx cy : Nat} {p d : Screen}

theorem Twin.mono (h : Twin m R cx cy p d) (hRS : ∀ i < m.height * m.pitch, R i → S i) : Twin m S cx cy p d := by
  obtain ⟨v, b₀, b₁, w, hp, hd, hn⟩ := h
  exact ⟨v, b₀, b₁, w, hp, hd, hn.same, hn.shown, fun i hi hS => hn.fresh i hi fun hR => hS (hRS i hi hR)⟩

/-- A pixel in `R` is drawn on both machines. -/
theorem setpixel_twin {x y : Nat} {v : Word} (hx : x < m.width) (hy : y < m.height)
    (hR : ∀ k < m.bpp / 8, R (m.offset x y + k)) (h : Twin m R cx cy p d) :
    InStep (framebufferSetpixel m x y v p) (framebufferSetpixel m x y v d) (Twin m R cx cy) := by
  obtain ⟨u, b₀, b₁, w, rfl, rfl, hn⟩ := h
  have hbytes := m.bytes
  have hle := m.offset_le hx hy
  have hsize : m.offset x y + 3 ≤ m.size := by rw [m.size_eq]; omega
  refine ⟨⟨pixelBytes u (m.offset x y) v, none, none, cx, cy⟩,
    ⟨w, some (pixelBytes b₀ (m.offset x y) v), some b₁, cx, cy⟩, ?_, ?_, _, _, _, _, rfl, rfl, ?_⟩
  · simp only [framebufferSetpixel, assert_bind hx, assert_bind hy, writePixel, if_pos hsize, ok_bind]
    rfl
  · simp only [framebufferSetpixel, assert_bind hx, assert_bind hy, writePixel, if_pos hsize, ok_bind]
    rfl
  · refine ⟨fun i hi => pixelBytes_congr (hn.same i hi), hn.shown, fun i hi hRi => ?_⟩
    have hout : i < m.offset x y ∨ m.offset x y + 3 ≤ i := by
      by_contra hin
      have hk := hR (i - m.offset x y) (by omega)
      rw [show m.offset x y + (i - m.offset x y) = i by omega] at hk
      exact hRi hk
    rw [pixelBytes_other hout]
    exact hn.fresh i hi hRi

/-- After a comparison and its copies a block of the screen is up to date. -/
theorem copyIfDifferent_twin {o len : Nat} (hlen : len ≠ 0) (ho : o + len ≤ m.height * m.pitch)
    (h : Twin m R cx cy p d) :
    ∃ d', copyIfDifferent m o len d = .ok d' ∧ Twin m (fun i => R i ∧ ¬ (o ≤ i ∧ i < o + len)) cx cy p d' := by
  obtain ⟨u, b₀, b₁, w, rfl, rfl, hn⟩ := h
  have hsize : o + len ≤ m.size := by rw [m.size_eq]; omega
  by_cases hsame : ∀ i < len, b₀ (o + i) = b₁ (o + i)
  · have hcmp : memcmp b₀ b₁ o len = false := by simpa [memcmp] using hsame
    refine ⟨_, by simp only [copyIfDifferent, hcmp, Bool.false_eq_true, if_false]; rfl, u, b₀, b₁, w, rfl, rfl, hn.same,
      hn.shown, fun i hi hRi => ?_⟩
    by_cases hin : o ≤ i ∧ i < o + len
    · have hb := hsame (i - o) (by omega)
      rw [show o + (i - o) = i by omega] at hb
      exact hb.symm
    · exact hn.fresh i hi fun hR => hRi ⟨hR, hin⟩
  · have hcmp : memcmp b₀ b₁ o len = true := by simpa [memcmp] using hsame
    refine ⟨_, by simp only [copyIfDifferent, hcmp, if_true, memcpy_ok hlen hsize hsize, ok_bind]; rfl, u, b₀, _, _,
      rfl, rfl, hn.same, fun i hi => ?_, fun i hi hRi => ?_⟩
    · by_cases hin : o ≤ i ∧ i < o + len
      · simp only [if_pos hin]
      · simp only [if_neg hin]
        exact hn.shown i hi
    · by_cases hin : o ≤ i ∧ i < o + len
      · simp only [if_pos hin, show o + (i - o) = i by omega]
      · simp only [if_neg hin]
        exact hn.fresh i hi fun hR => hRi ⟨hR, hin⟩

/-- The functions that copy to the screen do nothing without back buffers. -/
theorem copyToFront_plain {v : Buffer} :
    framebufferCopyToFront m ⟨v, none, none, cx, cy⟩ = .ok ⟨v, none, none, cx, cy⟩ :=
  rfl

/-- The bytes of row `y`. -/
def InRow (m : Mode) (y i : Nat) : Prop := m.offset 0 y ≤ i ∧ i < m.offset 0 y + m.pitch

/-- A copy of all rows: the screen is up to date. -/
theorem copyToFront_twin (h : Twin m R cx cy p d) :
    InStep (framebufferCopyToFront m p) (framebufferCopyToFront m d) (Twin m (fun _ => False) cx cy) := by
  have hpitch := m.pitch_pos
  -- the rows that have been compared are up to date
  have hloop : ∃ d', forRange (fun y s => copyIfDifferent m (m.offset 0 y) m.pitch s) 0 m.height d = .ok d' ∧
      Twin m (fun i => ∀ y < m.height, ¬ InRow m y i) cx cy p d' := by
    refine forRange_zero_ok (P := fun n d => Twin m (fun i => ∀ y < n, ¬ InRow m y i) cx cy p d)
      (fun y d hy ht => ?_) (h.mono fun _ _ _ y hy => absurd hy (Nat.not_lt_zero y))
    have hrow := m.row_le hy
    rw [← m.offset_row hy] at hrow
    obtain ⟨d', hd', ht'⟩ := copyIfDifferent_twin (Nat.ne_of_gt hpitch) hrow ht
    refine ⟨d', hd', ht'.mono fun i _ hi y' hy' => ?_⟩
    by_cases hyy : y' = y
    · rw [hyy]; exact hi.2
    · exact hi.1 y' (by omega)
  obtain ⟨v, b₀, b₁, w, rfl, rfl, -⟩ := h
  obtain ⟨d', hd', ht⟩ := hloop
  refine ⟨_, d', copyToFront_plain, hd', ht.mono fun i hi hout => ?_⟩
  -- every offset of the screen is in a row
  have hrow : i / m.pitch < m.height := (Nat.div_lt_iff_lt_mul hpitch).2 hi
  apply hout (i / m.pitch) hrow
  have hdiv := Nat.div_add_mod' i m.pitch
  have hmod := Nat.mod_lt i hpitch
  unfold InRow
  rw [m.offset_row hrow]
  omega

/-- The bytes of the pixel `(x, y)`. -/
def InPixel (m : Mode) (x y i : Nat) : Prop := m.offset x y ≤ i ∧ i < m.offset x y + m.bpp / 8

/-- The bytes of the pixels of a rectangle. -/
def InRegion (m : Mode) (x y w h i : Nat) : Prop := ∃ dy < h, ∃ dx < w, InPixel m (x + dx) (y + dy) i

/-- A copy of a rectangle of pixels: the screen is up to date if it was behind only there. -/
theorem copyRegion_twin {x y w h : Nat} (hx : x + w ≤ m.width) (hy : y + h ≤ m.height)
    (ht : Twin m (InRegion m x y w h) cx cy p d) :
    InStep (framebufferCopyRegionIfNeeded m x y w h p) (framebufferCopyRegionIfNeeded m x y w h d)
      (Twin m (fun _ => False) cx cy) := by
  have hbytes := m.bytes
  have hpixel : ∀ {S : Nat → Prop} {dx dy : Nat} {d : Screen}, dx < w → dy < h → Twin m S cx cy p d →
      ∃ d', copyIfDifferent m (m.offset (x + dx) (y + dy)) (m.bpp / 8) d = .ok d' ∧
        Twin m (fun i => S i ∧ ¬ InPixel m (x + dx) (y + dy) i) cx cy p d' := fun hdx hdy ht =>
    copyIfDifferent_twin (by omega) (m.offset_le (by omega) (by omega)) ht
  have hrow : ∀ {S : Nat → Prop} {dy : Nat} {d : Screen}, dy < h → Twin m S cx cy p d →
      ∃ d', forRange (fun dx s => copyIfDifferent m (m.offset (x + dx) (y + dy)) (m.bpp / 8) s) 0 w d = .ok d' ∧
        Twin m (fun i => S i ∧ ∀ dx < w, ¬ InPixel m (x + dx) (y + dy) i) cx cy p d' := by
    intro S dy d hdy ht
    refine forRange_zero_ok
      (P := fun n d => Twin m (fun i => S i ∧ ∀ dx < n, ¬ InPixel m (x + dx) (y + dy) i) cx cy p d)
      (fun dx d hdx ht => ?_) (ht.mono fun i _ hS => ⟨hS, fun dx hdx => absurd hdx (Nat.not_lt_zero dx)⟩)
    obtain ⟨d', hd', ht'⟩ := hpixel hdx hdy ht
    refine ⟨d', hd', ht'.mono fun i _ hi => ⟨hi.1.1, fun dx' hdx' => ?_⟩⟩
    by_cases hxx : dx' = dx
    · rw [hxx]; exact hi.2
    · exact hi.1.2 dx' (by omega)
  have hloop : ∃ d', forRange (fun dy s => forRange (fun dx s =>
        copyIfDifferent m (m.offset (x + dx) (y + dy)) (m.bpp / 8) s) 0 w s) 0 h d = .ok d' ∧
      Twin m (fun i => InRegion m x y w h i ∧ ∀ dy < h, ∀ dx < w, ¬ InPixel m (x + dx) (y + dy) i) cx cy p d' := by
    refine forRange_zero_ok (P := fun n d => Twin m (fun i => InRegion m x y w h i ∧
      ∀ dy < n, ∀ dx < w, ¬ InPixel m (x + dx) (y + dy) i) cx cy p d) (fun dy d hdy ht => ?_)
      (ht.mono fun i _ hR => ⟨hR, fun dy hdy => absurd hdy (Nat.not_lt_zero dy)⟩)
    obtain ⟨d', hd', ht'⟩ := hrow hdy ht
    refine ⟨d', hd', ht'.mono fun i _ hi => ⟨hi.1.1, fun dy' hdy' => ?_⟩⟩
    by_cases hyy : dy' = dy
    · rw [hyy]; exact hi.2
    · exact hi.1.2 dy' (by omega)
  obtain ⟨v, b₀, b₁, u, rfl, rfl, -⟩ := ht
  obtain ⟨d', hd', ht'⟩ := hloop
  refine ⟨_, d', rfl, hd', ht'.mono fun i _ hi => ?_⟩
  obtain ⟨⟨dy, hdy, dx, hdx, hin⟩, hout⟩ := hi
  exact hout dy hdy dx hdx hin

/-- A glyph. -/
theorem putCAt_twin {font : Font} {c : Byte} {x y : Nat} (hx : x + 8 ≤ m.width) (hy : y + 8 ≤ m.height)
    (h : Twin m (fun _ => False) cx cy p d) :
    InStep (putCAt m font c x y p) (putCAt m font c x y d) (Twin m (fun _ => False) cx cy) := by
  refine InStep.bind (R := Twin m (InRegion m x y 8 8) cx cy) ?_ fun p d => copyRegion_twin hx hy
  refine InStep.forRange (fun i p d _ hi => InStep.forRange fun j p d _ hj => ?_) (h.mono fun _ _ hf => hf.elim)
  refine setpixel_twin (by omega) (by omega) fun k hk => ⟨i, by omega, j, by omega, ?_⟩
  exact ⟨by omega, by omega⟩

/-- A buffer after row `y + 8` has been copied to row `y`. -/
def rowUp (m : Mode) (y : Nat) (b : Buffer) : Buffer := fun i =>
  if m.offset 0 y ≤ i ∧ i < m.offset 0 y + m.pitch then b (m.offset 0 (y + 8) + (i - m.offset 0 y)) else b i

/-- A row of a scroll. -/
theorem scrollRow_twin {y : Nat} (hy : y + 8 < m.height) (h : Twin m (fun _ => True) cx cy p d) :
    InStep (scrollRow m y p) (scrollRow m y d) (Twin m (fun _ => True) cx cy) := by
  obtain ⟨u, b₀, b₁, w, rfl, rfl, hn⟩ := h
  have hpitch := m.pitch_pos
  have hto := m.row_le (show y < m.height by omega)
  have hfrom := m.row_le hy
  rw [← m.offset_row (show y < m.height by omega)] at hto
  rw [← m.offset_row hy] at hfrom
  have hsize := m.size_eq
  have hcopy : ∀ b : Buffer, memcpy m b (m.offset 0 y) b (m.offset 0 (y + 8)) m.pitch = .ok (rowUp m y b) := fun b =>
    memcpy_ok (Nat.ne_of_gt hpitch) (by omega) (by omega)
  refine ⟨⟨rowUp m y u, none, none, cx, cy⟩, ⟨w, some (rowUp m y b₀), some b₁, cx, cy⟩, ?_, ?_, _, _, b₁, w, rfl, rfl,
    fun i hi => ?_, hn.shown, fun i _ hR => absurd trivial hR⟩
  · simp only [scrollRow, hcopy u, ok_bind]; rfl
  · simp only [scrollRow, hcopy b₀, ok_bind]; rfl
  · unfold rowUp
    split
    · exact hn.same _ (by omega)
    · exact hn.same i hi

/-- A scroll. -/
theorem scroll_twin (h : Twin m (fun _ => False) cx cy p d) :
    InStep (framebufferScroll m p) (framebufferScroll m d) (Twin m (fun _ => False) cx cy) := by
  have hheight := m.height_ge
  refine InStep.bind (R := Twin m (fun _ => True) cx cy) ?_ fun p d h => InStep.bind
    (R := Twin m (fun _ => True) cx cy) ?_ fun p d => copyToFront_twin
  · exact InStep.forRange (fun y p d _ hy => scrollRow_twin (by omega)) (h.mono fun _ _ _ => trivial)
  · refine InStep.forRange (fun x p d _ hx => InStep.forRange fun y p d _ hy => ?_) h
    exact setpixel_twin (by omega) (by omega) fun _ _ => trivial

/-- The cursor moves on both machines. -/
theorem Twin.move (h : Twin m R cx cy p d) (cx' cy' : Nat) :
    Twin m R cx' cy' { p with cursorX := cx', cursorY := cy' } { d with cursorX := cx', cursorY := cy' } := by
  obtain ⟨v, b₀, b₁, w, rfl, rfl, hn⟩ := h
  exact ⟨v, b₀, b₁, w, rfl, rfl, hn⟩

theorem Twin.cursor (h : Twin m R cx cy p d) :
    p.cursorX = cx ∧ p.cursorY = cy ∧ d.cursorX = cx ∧ d.cursorY = cy := by
  obtain ⟨v, b₀, b₁, w, rfl, rfl, -⟩ := h
  exact ⟨rfl, rfl, rfl, rfl⟩

/-- Two machines between two characters: they show the same, and their cursors are on the screen. -/
def Mirror (m : Mode) (p d : Screen) : Prop :=
  ∃ cx cy, cx < m.width / 8 ∧ cy < m.height / 8 ∧ Twin m (fun _ => False) cx cy p d

/-- The last row of glyphs, after a scroll or without one. -/
theorem wrapRow_twin (hx : cx < m.width / 8) (h : Twin m (fun _ => False) cx cy p d) :
    InStep (if p.cursorY ≥ m.height / 8 then do
        let s ← framebufferScroll m p
        return { s with cursorX := 0, cursorY := m.height / 8 - 1 }
      else return p)
      (if d.cursorY ≥ m.height / 8 then do
        let s ← framebufferScroll m d
        return { s with cursorX := 0, cursorY := m.height / 8 - 1 }
      else return d) (Mirror m) := by
  have hheight := m.height_ge
  obtain ⟨-, hp, -, hd⟩ := h.cursor
  rw [hp, hd]
  by_cases hy : cy ≥ m.height / 8
  · rw [if_pos hy, if_pos hy]
    refine (scroll_twin h).bind fun p d h => InStep.pure ?_
    exact ⟨0, m.height / 8 - 1, by omega, by omega, h.move 0 (m.height / 8 - 1)⟩
  · rw [if_neg hy, if_neg hy]
    exact InStep.pure ⟨cx, cy, hx, by omega, h⟩

/-- Wherever the cursor is, it comes back to the screen. -/
theorem wrapCursor_twin (h : Twin m (fun _ => False) cx cy p d) :
    InStep (wrapCursor m p) (wrapCursor m d) (Mirror m) := by
  have hwidth := m.width_ge
  obtain ⟨hpx, hpy, hdx, hdy⟩ := h.cursor
  unfold wrapCursor
  by_cases hx : cx ≥ m.width / 8
  · have hp : p.cursorX ≥ m.width / 8 := hpx ▸ hx
    have hd : d.cursorX ≥ m.width / 8 := hdx ▸ hx
    simp only [if_pos hp, if_pos hd, hpy, hdy]
    exact wrapRow_twin (by omega) (h.move 0 (cy + 1))
  · have hp : ¬ p.cursorX ≥ m.width / 8 := hpx ▸ hx
    have hd : ¬ d.cursorX ≥ m.width / 8 := hdx ▸ hx
    simp only [if_neg hp, if_neg hd]
    exact wrapRow_twin (by omega) h

/-- Each case of `framebuffer_putc`. -/
theorem putcCase_twin {font : Font} {c : Byte} (h : Mirror m p d) :
    InStep (putcCase m font c p) (putcCase m font c d) fun p d => ∃ cx cy, Twin m (fun _ => False) cx cy p d := by
  obtain ⟨cx, cy, hcx, hcy, ht⟩ := h
  obtain ⟨hpx, hpy, hdx, hdy⟩ := ht.cursor
  have hto : ∀ {p' d' : Screen} {cx' cy' : Nat}, Twin m (fun _ => False) cx' cy' p' d' →
      InStep (.ok p' : Kernel Screen) (.ok d' : Kernel Screen) fun p d => ∃ cx cy, Twin m (fun _ => False) cx cy p d :=
    fun h => ⟨_, _, rfl, rfl, _, _, h⟩
  unfold putcCase
  rw [hpx, hpy, hdx, hdy]
  split
  · exact hto (ht.move (cx - 1) cy)
  · split
    · apply (wrapCursor_twin (ht.move 0 cy)).bind
      intro p d h
      obtain ⟨cx', cy', -, -, ht'⟩ := h
      obtain ⟨-, hpy', -, hdy'⟩ := ht'.cursor
      rw [hpy', hdy']
      exact hto (ht'.move 0 (cy' + 1))
    · split
      · exact hto (ht.move 0 cy)
      · split
        · exact hto (ht.move (cx + 4) cy)
        · -- the glyph is on the screen
          apply (putCAt_twin (by omega) (by omega) ht).bind
          intro p d h
          obtain ⟨hpx', hpy', hdx', hdy'⟩ := h.cursor
          rw [hpx', hpy', hdx', hdy']
          exact hto (h.move (cx + 1) cy)

/-- **One character.** -/
theorem framebufferPutc_mirror {font : Font} {c : Byte} (h : Mirror m p d) :
    InStep (framebufferPutc m font c p) (framebufferPutc m font c d) (Mirror m) :=
  (putcCase_twin h).bind fun _ _ ⟨_, _, h⟩ => wrapCursor_twin h

end Twin

/-! ## Whole runs -/

/-- A console without back buffers, as `framebuffer_init` and every character leave it. -/
structure Plain (m : Mode) (s : Screen) : Prop where
  backbuffer0 : s.backbuffer0 = none
  backbuffer1 : s.backbuffer1 = none
  cursorX : s.cursorX < m.width / 8
  cursorY : s.cursorY < m.height / 8

section Runs

variable {m : Mode} {s : Screen}

theorem Mirror.plain {p d : Screen} (h : Mirror m p d) : Plain m p := by
  obtain ⟨cx, cy, hx, hy, v, b₀, b₁, w, rfl, rfl, -⟩ := h
  exact ⟨rfl, rfl, hx, hy⟩

/-- Both back buffers start as copies of video memory. -/
theorem enable_mirror (hs : Plain m s) (block₀ block₁ : Buffer) :
    ∃ d, framebufferEnableDoubleBuffer m (some block₀) (some block₁) s = .ok d ∧ Mirror m s d := by
  obtain ⟨v, bb₀, bb₁, cx, cy⟩ := s
  obtain ⟨rfl, rfl, hx, hy⟩ := hs
  have hpitch := m.pitch_pos
  have hsize := m.size_eq
  have hcopy : ∀ b c : Buffer, memcpy m b 0 c 0 m.size = .ok fun i => if i < m.size then c i else b i := by
    intro b c
    rw [memcpy_ok (by omega) (by omega) (by omega)]
    simp only [Nat.zero_le, true_and, Nat.zero_add, Nat.sub_zero]
  refine ⟨_, by simp only [framebufferEnableDoubleBuffer, hcopy, ok_bind]; rfl, cx, cy, hx, hy, v, _, _, v, rfl, rfl,
    fun i hi => ?_, fun i hi => ?_, fun i hi _ => ?_⟩
  · exact if_pos (by omega)
  · rw [if_pos (by omega), if_pos (by omega)]
  · rw [if_pos (by omega)]

/-- A cleared screen. -/
theorem clear_twin {R : Nat → Prop} {cx cy : Nat} {p d : Screen} {v : Word} (h : Twin m R cx cy p d) :
    InStep (framebufferClear m v p) (framebufferClear m v d) (Twin m (fun _ => False) cx cy) := by
  refine InStep.bind (R := Twin m (fun _ => True) cx cy) ?_ fun p d => copyToFront_twin
  refine InStep.forRange (fun y p d _ hy => InStep.forRange fun x p d _ hx => ?_) (h.mono fun _ _ _ => trivial)
  exact setpixel_twin (by omega) (by omega) fun _ _ => trivial

/-- `framebuffer_init` leaves a console without back buffers, with its cursor in the first place. -/
theorem framebufferInit_plain (m : Mode) (vmem : Buffer) : ∃ s, framebufferInit m vmem = .ok s ∧ Plain m s := by
  have hwidth := m.width_ge
  have hheight := m.height_ge
  have hstart : Twin m (fun _ => False) 0 0 ⟨vmem, none, none, 0, 0⟩ ⟨vmem, some vmem, some vmem, 0, 0⟩ :=
    ⟨vmem, vmem, vmem, vmem, rfl, rfl, fun _ _ => rfl, fun _ _ => rfl, fun _ _ _ => rfl⟩
  obtain ⟨s, d, hs, -, ht⟩ := clear_twin (v := 0xDE00EE#32) hstart
  exact ⟨s, hs, Mirror.plain ⟨0, 0, by omega, by omega, ht⟩⟩

/-- A run of characters on two such machines. -/
theorem framebufferPuts_mirror {p d : Screen} (h : Mirror m p d) (font : Font) (cs : List Byte) :
    InStep (framebufferPuts m font cs p) (framebufferPuts m font cs d) (Mirror m) :=
  InStep.runSteps (fun _ _ _ => framebufferPutc_mirror) cs h

/-- Before the back buffers are enabled, no character stops the kernel or moves the cursor off the screen. -/
theorem framebufferPuts_plain (hs : Plain m s) (font : Font) (cs : List Byte) :
    ∃ s', framebufferPuts m font cs s = .ok s' ∧ Plain m s' := by
  obtain ⟨d, -, hd⟩ := enable_mirror hs s.vmem s.vmem
  obtain ⟨s', d', hs', -, hm⟩ := framebufferPuts_mirror hd font cs
  exact ⟨s', hs', hm.plain⟩

end Runs

/-- **Double buffering is invisible.** Enable the back buffers of a console, or do not: every sequence of characters
runs without a failed assertion on both machines and leaves the same visible rows of video memory, and both back buffers
equal them. -/
theorem double_buffer_invisible (m : Mode) (font : Font) (s : Screen) (hs : Plain m s) (block₀ block₁ : Buffer)
    (cs : List Byte) :
    ∃ d p' d', framebufferEnableDoubleBuffer m (some block₀) (some block₁) s = .ok d ∧
      framebufferPuts m font cs s = .ok p' ∧ framebufferPuts m font cs d = .ok d' ∧
      p'.backbuffer0 = none ∧ p'.backbuffer1 = none ∧
      ∃ b₀ b₁, d'.backbuffer0 = some b₀ ∧ d'.backbuffer1 = some b₁ ∧
        ∀ i < m.height * m.pitch, d'.vmem i = p'.vmem i ∧ b₀ i = d'.vmem i ∧ b₁ i = d'.vmem i := by
  obtain ⟨d, hd, hm⟩ := enable_mirror hs block₀ block₁
  obtain ⟨p', d', hp', hd', cx, cy, -, -, v, b₀, b₁, w, rfl, rfl, hn⟩ := framebufferPuts_mirror hm font cs
  refine ⟨d, _, _, hd, hp', hd', rfl, rfl, b₀, b₁, rfl, rfl, fun i hi => ?_⟩
  have hshown := hn.shown i hi
  have hfresh := hn.fresh i hi not_false
  have hsame := hn.same i hi
  exact ⟨(hshown.trans hfresh).trans hsame, (hshown.trans hfresh).symm, hshown.symm⟩

/-- A mode of 640 by 480 pixels. -/
def vga : Mode where
  pitch := 2560
  width := 640
  height := 480
  bpp := 32
  bpp_eq := Or.inr rfl
  width_ge := by decide
  height_ge := by decide
  pitch_ge := by decide
  fits := by decide

/-- Such a mode from `framebuffer_init` on: some characters, the back buffers, and more characters. -/
theorem double_buffer_vga : ∃ s s' d p' d', framebufferInit vga (fun _ => 0#8) = .ok s ∧
    framebufferPuts vga (fun _ _ => 0#8) [72#8, 10#8] s = .ok s' ∧
    framebufferEnableDoubleBuffer vga (some fun _ => 1#8) (some fun _ => 2#8) s' = .ok d ∧
    framebufferPuts vga (fun _ _ => 0#8) [105#8, 9#8, 8#8] s' = .ok p' ∧
    framebufferPuts vga (fun _ _ => 0#8) [105#8, 9#8, 8#8] d = .ok d' ∧
    ∀ i < vga.height * vga.pitch, d'.vmem i = p'.vmem i := by
  obtain ⟨s, hs, hplain⟩ := framebufferInit_plain vga fun _ => 0#8
  obtain ⟨s', hs', hplain'⟩ := framebufferPuts_plain hplain (fun _ _ => 0#8) [72#8, 10#8]
  obtain ⟨d, p', d', hd, hp', hd', -, -, b₀, b₁, -, -, hsame⟩ := double_buffer_invisible vga (fun _ _ => 0#8) s' hplain'
    (fun _ => 1#8) (fun _ => 2#8) [105#8, 9#8, 8#8]
  exact ⟨s, s', d, p', d', hs, hs', hd, hp', hd', fun i hi => (hsame i hi).1⟩

end Myunix.Framebuffer
