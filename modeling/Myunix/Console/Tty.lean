import Myunix.Task.RingBuffer

/-!
# The line discipline of the console (`console.c`)

`tty_read` takes its bytes from a ring buffer that is filled a line at a time: `buffer_fill` edits a line in a buffer on
the stack, where `\b` and 127 take the last character back, and then copies it. `editLines` is what the bytes of the
serial port should become; `tty_line_discipline` says that the reads of a single reader return just that, and that the
ring buffer is neither overrun nor read while it is empty.

The bytes that `serial_getc` returns are a list; behind its end `serial_getc` waits. As there is one reader, no task
waits for the semaphore of the ring buffer, which is therefore known by its count.
-/

namespace Myunix.Console

open Lib Myunix.Task

/-! ## The functions -/

/-- Why a read does not return. -/
inductive ConsoleStop
  /-- `serial_getc` waits. -/
  | waiting
  /-- The reader waits for a byte that nobody will write. -/
  | blocked
  /-- A byte that has not been read is about to be overwritten. -/
  | overrun
  /-- The kernel stops. -/
  | failed (f : Failure)
deriving DecidableEq, Repr

/-- The console: `text_buffer` and the count of its semaphore, the bytes that come from the serial port, and the
characters that have been written to the console. -/
structure ConsoleState where
  text : RingBuffer
  sem : Word
  input : List Byte
  echo : List Byte
  /-- The number of calls of `buffer_fill`. -/
  fills : Nat

/-- A kernel step. -/
def lift {α : Type} (x : Kernel α) : Outcome ConsoleStop α := x.mapError .failed

/-- The character that `getc` makes of a byte from the serial port. -/
def getcByte (c : Byte) : Byte := if c = 0x0D#8 then 0x0A#8 else c

/-- `\b` or 127. -/
def isBackspace (c : Byte) : Prop := c = 0x08#8 ∨ c = 0x7F#8

instance (c : Byte) : Decidable (isBackspace c) := inferInstanceAs (Decidable (_ ∨ _))

/-- The first loop of `buffer_fill`, with the bytes to come, `tmp_buffer`, `i` and what has been written to the console.
It gives back the bytes that are left. -/
def fillLoop : List Byte → List Byte → Nat → List Byte → Outcome ConsoleStop (List Byte × List Byte × List Byte)
  | [], tmp, i, echo => if i < 1024 then .error .waiting else .ok ([], tmp, echo)
  | b :: input, tmp, i, echo =>
    if i < 1024 then
      let c := getcByte b
      if c = 0#8 then .error (.failed .assertion)
      else if isBackspace c then fillLoop input tmp (if i > 0 then i - 1 else i) (echo ++ [0x08#8])
      else if c = 0x0A#8 then .ok (input, tmp.set i c, echo ++ [c])
      else fillLoop input (tmp.set i c) (i + 1) (echo ++ [c])
    else .ok (b :: input, tmp, echo)

/-- `ringbuffer_write_byte`, while no task waits. -/
def ringbufferWriteByte (text : RingBuffer) (sem : Word) (c : Byte) : Outcome ConsoleStop (RingBuffer × Word) := do
  if (ringbufferUnread text).toNat + 1 = text.size.toNat then .error .overrun
  else
    let text ← lift (putByte text c)
    return (text, sem + 1#32)

/-- `ringbuffer_read_byte`. -/
def ringbufferReadByte (text : RingBuffer) (sem : Word) : Outcome ConsoleStop (Byte × RingBuffer × Word) := do
  if sem > 0#32 then
    let (c, text) ← lift (takeByte text)
    return (c, text, sem - 1#32)
  else .error .blocked

/-- The second loop of `buffer_fill`, over what is left of `tmp_buffer`. -/
def copyLoop : List Byte → RingBuffer → Word → Outcome ConsoleStop (RingBuffer × Word)
  | [], text, sem => .ok (text, sem)
  | c :: tmp, text, sem => do
    let (text, sem) ← ringbufferWriteByte text sem c
    if c = 0x0A#8 then return (text, sem) else copyLoop tmp text sem

/-- `buffer_fill`; `stack n` is what its `n`-th call finds in `tmp_buffer`. -/
def bufferFill (stack : Nat → Nat → Byte) (x : ConsoleState) : Outcome ConsoleStop ConsoleState := do
  let (input, tmp, echo) ← fillLoop x.input ((List.range 1024).map (stack x.fills)) 0 x.echo
  let (text, sem) ← copyLoop tmp x.text x.sem
  return ⟨text, sem, input, echo, x.fills + 1⟩

/-- `buffer_getc`. -/
def bufferGetc (stack : Nat → Nat → Byte) (x : ConsoleState) : Outcome ConsoleStop (Byte × ConsoleState) := do
  let x ← if ringbufferUnread x.text = 0#32 then bufferFill stack x else pure x
  lift (kassert (ringbufferUnread x.text > 0#32))
  let (c, text, sem) ← ringbufferReadByte x.text x.sem
  return (c, { x with text := text, sem := sem })

/-- The loop of `tty_read`: the bytes it puts into its buffer. -/
def ttyReadLoop (stack : Nat → Nat → Byte) : Nat → ConsoleState → Outcome ConsoleStop (List Byte × ConsoleState)
  | 0, x => .ok ([], x)
  | n + 1, x => do
    let (c, x) ← bufferGetc stack x
    let (buf, x) ← ttyReadLoop stack n x
    return (c :: buf, x)

/-- `tty_read`. -/
def ttyRead (stack : Nat → Nat → Byte) (size : Word) (x : ConsoleState) :
    Outcome ConsoleStop (List Byte × ConsoleState) :=
  ttyReadLoop stack size.toNat x

/-- Calls of `tty_read`, and all the bytes they return. -/
def ttyReads (stack : Nat → Nat → Byte) : List Word → ConsoleState → Outcome ConsoleStop (List Byte × ConsoleState)
  | [], x => .ok ([], x)
  | size :: sizes, x => do
    let (buf, x) ← ttyRead stack size x
    let (out, x) ← ttyReads stack sizes x
    return (buf ++ out, x)

/-- The console after `console_init`; `buffer` has 2048 bytes. -/
def consoleInit (buffer input : List Byte) : ConsoleState := ⟨⟨buffer, 2048#32, 0#32, 0#32⟩, 0#32, input, [], 0⟩

/-! ## What they should do -/

/-- **The line editor**: `line` is the current line, the result are the lines that are finished. -/
def editLines : List Byte → List Byte → List Byte
  | _, [] => []
  | line, b :: input =>
    let c := getcByte b
    if isBackspace c then editLines line.dropLast input
    else if c = 0x0A#8 ∨ (line ++ [c]).length = 1024 then line ++ [c] ++ editLines [] input
    else editLines (line ++ [c]) input

/-! ## One line -/

section Fill

variable {input tmp line echo : List Byte}

/-- `getc` gives NUL for NUL only. -/
theorem getcByte_ne_zero {b : Byte} (h : b ≠ 0#8) : getcByte b ≠ 0#8 := by
  unfold getcByte
  split
  · decide
  · exact h

/-- A full buffer ends the loop. -/
theorem fillLoop_full (input tmp echo : List Byte) : fillLoop input tmp 1024 echo = .ok (input, tmp, echo) := by
  cases input with
  | nil => rfl
  | cons b input => rfl

/-- What a line is when it is copied: it ends at its first newline, or fills the buffer. -/
def FinishedLine (line : List Byte) : Prop :=
  ∃ start c, line = start ++ [c] ∧ 0x0A#8 ∉ start ∧ (c = 0x0A#8 ∨ line.length = 1024)

/-- **The first loop of `buffer_fill`** edits a line; the characters behind `i` do not matter. -/
theorem fillLoop_spec (input : List Byte) : ∀ (echo : List Byte) {tmp line : List Byte}, 0#8 ∉ input → tmp.length = 1024 →
    line <+: tmp → line.length < 1024 → 0x0A#8 ∉ line →
      fillLoop input tmp line.length echo = .error .waiting ∨
      ∃ rest tmp' echo' line', fillLoop input tmp line.length echo = .ok (rest, tmp', echo') ∧ 0#8 ∉ rest ∧
        tmp'.length = 1024 ∧ line' <+: tmp' ∧ FinishedLine line' ∧
        editLines line input = line' ++ editLines [] rest := by
  induction input with
  | nil =>
    intro echo tmp line _ _ _ hi _
    exact Or.inl (if_pos hi)
  | cons b input ih =>
    intro echo tmp line hinput htmp hline hi hnl
    obtain ⟨hb, hinput⟩ := not_or.1 (List.mem_cons.not.1 hinput)
    have hc : getcByte b ≠ 0#8 := getcByte_ne_zero (Ne.symm hb)
    rw [fillLoop, if_pos hi, editLines]
    dsimp only
    rw [if_neg hc]
    by_cases hback : isBackspace (getcByte b)
    · -- the last character is taken back
      have hlen : (if line.length > 0 then line.length - 1 else line.length) = line.dropLast.length := by
        rw [List.length_dropLast]
        split <;> omega
      rw [if_pos hback, if_pos hback, hlen]
      refine ih _ hinput htmp ((List.dropLast_prefix line).trans hline) ?_ fun hmem =>
        hnl (List.dropLast_subset line hmem)
      rw [List.length_dropLast]
      omega
    · rw [if_neg hback, if_neg hback]
      -- the character is put behind the line
      have hset : line ++ [getcByte b] <+: tmp.set line.length (getcByte b) := by
        obtain ⟨behind, rfl⟩ := hline
        cases behind with
        | nil =>
          rw [List.append_nil] at htmp
          omega
        | cons d behind =>
          rw [List.set_append_right _ _ (Nat.le_refl _), Nat.sub_self, List.set_cons_zero]
          exact ⟨behind, by simp⟩
      have hlength : (tmp.set line.length (getcByte b)).length = 1024 := (List.length_set ..).trans htmp
      by_cases hnewline : getcByte b = 0x0A#8
      · rw [if_pos hnewline, if_pos (Or.inl hnewline)]
        exact Or.inr ⟨input, _, _, line ++ [getcByte b], rfl, hinput, hlength, hset,
          ⟨line, getcByte b, rfl, hnl, Or.inl hnewline⟩, rfl⟩
      · rw [if_neg hnewline]
        have hsucc : (line ++ [getcByte b]).length = line.length + 1 := by simp
        by_cases hfull : (line ++ [getcByte b]).length = 1024
        · have hi' : line.length + 1 = 1024 := hsucc.symm.trans hfull
          rw [if_pos (Or.inr hfull), hi', fillLoop_full]
          exact Or.inr ⟨input, _, _, line ++ [getcByte b], rfl, hinput, hlength, hset,
            ⟨line, getcByte b, rfl, hnl, Or.inr hfull⟩, rfl⟩
        · rw [if_neg (not_or.2 ⟨hnewline, hfull⟩), ← hsucc]
          apply ih _ hinput hlength hset (by omega)
          rw [List.mem_append, List.mem_singleton]
          exact not_or.2 ⟨hnl, Ne.symm hnewline⟩

end Fill

/-! ## The ring buffer -/

/-- **The invariant**: the ring buffer holds the bytes `xs`, and so does its semaphore. -/
structure ConsoleSound (x : ConsoleState) (xs : List Byte) : Prop where
  ring : RingHolds x.text xs
  size : x.text.size = 2048#32
  sem : x.sem.toNat = xs.length
  input : 0#8 ∉ x.input

section Ring

variable {text : RingBuffer} {sem : Word} {xs : List Byte}

/-- A byte is written into a buffer that has room. -/
theorem ringbufferWriteByte_spec (h : RingHolds text xs) (hsem : sem.toNat = xs.length)
    (hroom : xs.length + 1 < text.size.toNat) (c : Byte) :
    ∃ sem', ringbufferWriteByte text sem c = .ok (text.put xs c, sem') ∧ sem'.toNat = (xs ++ [c]).length := by
  have hlt := text.size.isLt
  refine ⟨sem + 1#32, ?_, ?_⟩
  · unfold ringbufferWriteByte
    rw [if_neg (by rw [h.unread]; omega), h.putByte c]
    rfl
  · rw [List.length_append, List.length_singleton]
    bv_omega

/-- **The second loop of `buffer_fill`** copies the line, and nothing behind it. -/
theorem copyLoop_spec (start : List Byte) : ∀ {text : RingBuffer} {sem : Word} {xs : List Byte} {c : Byte}
    {behind : List Byte}, RingHolds text xs → sem.toNat = xs.length →
    xs.length + (start ++ [c]).length < text.size.toNat → 0x0A#8 ∉ start → (c = 0x0A#8 ∨ behind = []) →
      ∃ text' sem', copyLoop (start ++ [c] ++ behind) text sem = .ok (text', sem') ∧
        RingHolds text' (xs ++ (start ++ [c])) ∧ text'.size = text.size ∧ sem'.toNat = (xs ++ (start ++ [c])).length := by
  induction start with
  | nil =>
    intro text sem xs c behind h hsem hroom _ hend
    obtain ⟨sem', hwrite, hsem'⟩ := ringbufferWriteByte_spec h hsem hroom c
    refine ⟨text.put xs c, sem', ?_, h.put hroom c, rfl, hsem'⟩
    show (ringbufferWriteByte text sem c >>= _) = _
    rw [hwrite, ok_bind]
    dsimp only
    rcases hend with rfl | rfl
    · rfl
    · split
      · rfl
      · rfl
  | cons b start ih =>
    intro text sem xs c behind h hsem hroom hnl hend
    obtain ⟨hb, hnl⟩ := not_or.1 (List.mem_cons.not.1 hnl)
    rw [List.cons_append, List.length_cons] at hroom
    obtain ⟨sem₁, hwrite, hsem₁⟩ := ringbufferWriteByte_spec h hsem (by omega) b
    have hroom' : (xs ++ [b]).length + (start ++ [c]).length < (text.put xs b).size.toNat := by
      show _ < text.size.toNat
      rw [List.length_append, List.length_singleton]
      omega
    obtain ⟨text', sem', hcopy, h', hsize, hsem'⟩ := ih (h.put (by omega) b) hsem₁ hroom' hnl hend
    rw [List.append_assoc, List.singleton_append] at h' hsem'
    refine ⟨text', sem', ?_, h', hsize, hsem'⟩
    show (ringbufferWriteByte text sem b >>= _) = _
    rw [hwrite, ok_bind]
    dsimp only
    rw [if_neg (Ne.symm hb)]
    exact hcopy

end Ring

section Reads

variable {stack : Nat → Nat → Byte} {x : ConsoleState} {xs : List Byte}

/-- **`buffer_fill`** waits, or fills an empty buffer with the next line. -/
theorem bufferFill_spec (h : ConsoleSound x []) :
    bufferFill stack x = .error .waiting ∨
    ∃ x' line, bufferFill stack x = .ok x' ∧ ConsoleSound x' line ∧ line ≠ [] ∧
      editLines [] x.input = line ++ editLines [] x'.input := by
  have hlength : ((List.range 1024).map (stack x.fills)).length = 1024 := by
    rw [List.length_map, List.length_range]
  have hloop := fillLoop_spec x.input x.echo h.input hlength List.nil_prefix (by decide) List.not_mem_nil
  rw [List.length_nil] at hloop
  rcases hloop with hwait | ⟨rest, tmp, echo, line, hfill, hrest, htmp, hline, ⟨start, c, rfl, hstart, hend⟩, hedit⟩
  · left
    rw [bufferFill, hwait]
    rfl
  · obtain ⟨behind, rfl⟩ := hline
    have htotal := htmp
    rw [List.length_append] at htotal
    have hbehind : c = 0x0A#8 ∨ behind = [] := by
      rcases hend with hc | hfull
      · exact Or.inl hc
      · exact Or.inr (List.length_eq_zero_iff.1 (by omega))
    have hroom : ([] : List Byte).length + (start ++ [c]).length < x.text.size.toNat := by
      rw [h.size, List.length_nil]
      show _ < 2048
      omega
    obtain ⟨text, sem, hcopy, hring, hsize, hsem⟩ := copyLoop_spec start h.ring h.sem hroom hstart hbehind
    refine Or.inr ⟨⟨text, sem, rest, echo, x.fills + 1⟩, start ++ [c], ?_, ⟨hring, hsize.trans h.size, hsem, hrest⟩,
      by simp, hedit⟩
    simp only [bufferFill, hfill, hcopy, ok_bind]
    rfl

/-- The end of `buffer_getc`: a buffer that is not empty is read. -/
theorem getcRead_spec {c : Byte} (h : ConsoleSound x (c :: xs)) :
    ∃ x', (do
      lift (kassert (ringbufferUnread x.text > 0#32))
      let (c, text, sem) ← ringbufferReadByte x.text x.sem
      return (c, { x with text := text, sem := sem }) : Outcome ConsoleStop (Byte × ConsoleState)) = .ok (c, x') ∧
      ConsoleSound x' xs ∧ x'.input = x.input := by
  obtain ⟨htake, hring⟩ := h.ring.takeByte
  have hunread := h.ring.unread
  have hsem := h.sem
  rw [List.length_cons] at hunread hsem
  have hpos : kassert (ringbufferUnread x.text > 0#32) = .ok ⟨⟩ := assert_pos (by bv_omega)
  have hunits : x.sem > 0#32 := by bv_omega
  refine ⟨{ x with
    text := { x.text with readHead := (x.text.readHead + 1#32) % x.text.size }
    sem := x.sem - 1#32 }, ?_, ⟨hring, h.size, ?_, h.input⟩, rfl⟩
  · simp only [hpos, ringbufferReadByte, if_pos hunits, htake]
    rfl
  · show (x.sem - 1#32).toNat = xs.length
    bv_omega

/-- **`buffer_getc`** waits, or returns the next character of the lines. -/
theorem bufferGetc_spec (stack : Nat → Nat → Byte) (h : ConsoleSound x xs) :
    bufferGetc stack x = .error .waiting ∨
    ∃ c x' xs', bufferGetc stack x = .ok (c, x') ∧ ConsoleSound x' xs' ∧
      xs ++ editLines [] x.input = c :: (xs' ++ editLines [] x'.input) := by
  have hunread := h.ring.unread
  cases xs with
  | nil =>
    -- the buffer is empty and is filled
    rw [List.length_nil] at hunread
    have hempty : ringbufferUnread x.text = 0#32 := BitVec.eq_of_toNat_eq hunread
    simp only [bufferGetc, if_pos hempty]
    rcases bufferFill_spec h with hwait | ⟨x₁, line, hfill, h₁, hline, hedit⟩
    · left
      rw [hwait]
      rfl
    · cases line with
      | nil => exact absurd rfl hline
      | cons c line =>
        obtain ⟨x', hread, h', hinput⟩ := getcRead_spec h₁
        refine Or.inr ⟨c, x', line, ?_, h', ?_⟩
        · rw [hfill]
          exact hread
        · rw [List.nil_append, hedit, hinput, List.cons_append]
  | cons c xs =>
    have hne : ringbufferUnread x.text ≠ 0#32 := by
      intro hz
      rw [hz, List.length_cons] at hunread
      exact absurd hunread (by simp)
    simp only [bufferGetc, if_neg hne]
    obtain ⟨x', hread, h', hinput⟩ := getcRead_spec h
    exact Or.inr ⟨c, x', xs, hread, h', by rw [hinput, List.cons_append]⟩

/-- **`tty_read`** waits, or returns as many characters of the lines as it was asked for. -/
theorem ttyReadLoop_spec (stack : Nat → Nat → Byte) (n : Nat) : ∀ {x : ConsoleState} {xs : List Byte},
    ConsoleSound x xs →
    ttyReadLoop stack n x = .error .waiting ∨
    ∃ buf x' xs', ttyReadLoop stack n x = .ok (buf, x') ∧ ConsoleSound x' xs' ∧ buf.length = n ∧
      xs ++ editLines [] x.input = buf ++ (xs' ++ editLines [] x'.input) := by
  induction n with
  | zero => exact fun {x xs} h => Or.inr ⟨[], x, xs, rfl, h, rfl, rfl⟩
  | succ n ih =>
    intro x xs h
    rcases bufferGetc_spec stack h with hwait | ⟨c, x₁, xs₁, hgetc, h₁, hfirst⟩
    · left
      rw [ttyReadLoop, hwait]
      rfl
    · rcases ih h₁ with hwait | ⟨buf, x', xs', hread, h', hlength, hrest⟩
      · left
        simp only [ttyReadLoop, hgetc, ok_bind, hwait]
        rfl
      · refine Or.inr ⟨c :: buf, x', xs', ?_, h', by rw [List.length_cons, hlength], ?_⟩
        · simp only [ttyReadLoop, hgetc, ok_bind, hread]
          rfl
        · rw [hfirst, hrest, List.cons_append]

/-- The number of bytes that reads of the given sizes ask for. -/
def bytesAsked : List Word → Nat
  | [] => 0
  | size :: sizes => size.toNat + bytesAsked sizes

/-- Calls of `tty_read` one after the other. -/
theorem ttyReads_spec (stack : Nat → Nat → Byte) (sizes : List Word) : ∀ {x : ConsoleState} {xs : List Byte},
    ConsoleSound x xs →
    ttyReads stack sizes x = .error .waiting ∨
    ∃ out x' xs', ttyReads stack sizes x = .ok (out, x') ∧ ConsoleSound x' xs' ∧
      out.length = bytesAsked sizes ∧ xs ++ editLines [] x.input = out ++ (xs' ++ editLines [] x'.input) := by
  induction sizes with
  | nil => exact fun {x xs} h => Or.inr ⟨[], x, xs, rfl, h, rfl, rfl⟩
  | cons size sizes ih =>
    intro x xs h
    rcases ttyReadLoop_spec stack size.toNat h with hwait | ⟨buf, x₁, xs₁, hread, h₁, hlength, hfirst⟩
    · left
      rw [ttyReads, ttyRead, hwait]
      rfl
    · rcases ih h₁ with hwait | ⟨out, x', xs', hreads, h', hlengths, hrest⟩
      · left
        simp only [ttyReads, ttyRead, hread, ok_bind, hwait]
        rfl
      · refine Or.inr ⟨buf ++ out, x', xs', ?_, h', ?_, ?_⟩
        · simp only [ttyReads, ttyRead, hread, ok_bind, hreads]
          rfl
        · rw [List.length_append, hlength, hlengths, bytesAsked]
        · rw [hfirst, hrest, List.append_assoc]

theorem consoleInit_sound {buffer input : List Byte} (hbuffer : buffer.length = 2048) (hinput : 0#8 ∉ input) :
    ConsoleSound (consoleInit buffer input) [] := by
  refine ⟨⟨holds_nil ?_, hbuffer, rfl, show 0 < 2048 by decide⟩, rfl, rfl, hinput⟩
  show 0 < buffer.length
  omega

end Reads

/-- **The line discipline.** For all bytes from the serial port but NUL, and all sizes of the reads of a single reader:
the reads return the first characters of the edited lines, as many as were asked for, or `serial_getc` waits. In
particular the ring buffer is not overrun, no assertion fails, and the reader does not wait for the semaphore. -/
theorem tty_line_discipline (stack : Nat → Nat → Byte) (buffer input : List Byte) (hbuffer : buffer.length = 2048)
    (hinput : 0#8 ∉ input) (sizes : List Word) :
    ttyReads stack sizes (consoleInit buffer input) = .error .waiting ∨
    ∃ out x, ttyReads stack sizes (consoleInit buffer input) = .ok (out, x) ∧
      out.length = bytesAsked sizes ∧ out <+: editLines [] input := by
  rcases ttyReads_spec stack sizes (consoleInit_sound hbuffer hinput) with
    hwait | ⟨out, x, xs, hreads, -, hlength, hedit⟩
  · exact Or.inl hwait
  · exact Or.inr ⟨out, x, hreads, hlength, ⟨_, hedit.symm⟩⟩

/-- `a`, a backspace, `b` and the return key, read one byte at a time. -/
theorem tty_line_discipline_ab :
    ∃ out x, ttyReads (fun _ _ => 0#8) [1#32, 1#32] (consoleInit (List.replicate 2048 0#8) [0x61, 0x08, 0x62, 0x0D]) =
        .ok (out, x) ∧ out = [0x62, 0x0A] ∧ out <+: editLines [] [0x61, 0x08, 0x62, 0x0D] := by
  have h := tty_line_discipline (fun _ _ => 0#8) (List.replicate 2048 0#8) [0x61, 0x08, 0x62, 0x0D]
    List.length_replicate (by decide) [1#32, 1#32]
  have hreturns : (ttyReads (fun _ _ => 0#8) [1#32, 1#32]
      (consoleInit (List.replicate 2048 0#8) [0x61, 0x08, 0x62, 0x0D])).toBool = true := by decide +kernel
  rcases h with hwait | ⟨out, x, hreads, hlength, hedit⟩
  · rw [hwait] at hreturns
    cases hreturns
  · have hlines : editLines [] [0x61, 0x08, 0x62, 0x0D] = [0x62, 0x0A] := by decide
    refine ⟨out, x, hreads, ?_, hedit⟩
    rw [hlines] at hedit
    exact hedit.eq_of_length hlength

end Myunix.Console
