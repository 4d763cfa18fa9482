import Myunix.Console.Itoa

/-!
# Formatted output (`vprintf` of `console.c`)

`vprintf` goes along the format, and prints what is not a conversion as it is. Numbers are written to a buffer of 256
bytes on the stack first. `print_mutex` is held all the time: a failed assertion and a page fault print a message, and
wait for ever when it is the task that holds the mutex where they happen.

`Format` is the grammar of formats, and `texts` what the pieces of a format stand for.

* `format_total`: every sequence of bytes is a format.
* **`vprintf_iff`**: `vprintf` returns exactly when the format has only known conversions and each of them has a text,
  and then it has printed these texts and released the mutex.
* **`vprintf_stops`**: where the format is not complete, the kernel stops: with a message after an unknown conversion,
  without one after a `%` at the end.
-/

namespace Myunix.Console

open Lib

/-! ## The code -/

/-- Why `vprintf` does not return. -/
inductive PrintStop
  /-- The task waits for `print_mutex`, which it holds. -/
  | deadlock
  /-- The kernel stops. -/
  | failed (f : Failure)
deriving DecidableEq, Repr

/-- What was written to the console, and whether `print_mutex` is held. -/
structure Printer where
  out : List Byte
  locked : Bool
deriving DecidableEq, Repr

/-- What `vprintf` finds in memory: its arguments, the strings at the pointers, `buf` before it is written to, and what
the negation of the most negative number comes to. -/
structure PrintEnv where
  args : Nat → Word
  strings : Word → Option CString
  stack : Nat → Byte
  overflow : Kernel Word

/-- The variables of `vprintf`: the next argument, and `buf`. -/
structure Locals where
  next : Nat
  buf : List Byte

/-- How the kernel stops: assertions and page faults call `printf`. -/
def stopped (p : Printer) : Failure → PrintStop
  | .bounds => .failed .bounds
  | f => if p.locked then .deadlock else .failed f

/-- A kernel step of `vprintf`. -/
def report {α : Type} (p : Printer) (x : Kernel α) : Outcome PrintStop α := x.mapError (stopped p)

/-- `putc`. -/
def putc (c : Byte) (p : Printer) : Printer := { p with out := p.out ++ [c] }

/-- What `puts` prints for `NULL`. -/
def nullText : List Byte := ['(', 'n', 'u', 'l', 'l', ')'].map fun c => BitVec.ofNat 8 c.toNat

/-- What is printed in front of a pointer. -/
def pointerText : List Byte := ['*', '0', 'x'].map fun c => BitVec.ofNat 8 c.toNat

/-- `puts` of some bytes, which have no NUL. -/
def putBytes (s : List Byte) (p : Printer) : Printer := { p with out := p.out ++ s }

/-- `puts(s)`. -/
def puts (env : PrintEnv) (s : Word) (p : Printer) : Outcome PrintStop Printer :=
  if s = 0#32 then .ok (putBytes nullText p)
  else match env.strings s with
    | some t => .ok (putBytes t.bytes p)
    | none => .error (stopped p .pageFault)

/-- `puts(buf)`. -/
def putsBuf (buf : List Byte) (p : Printer) : Outcome PrintStop Printer :=
  if 0#8 ∈ buf then .ok (putBytes (buf.takeWhile (· ≠ 0)) p) else .error (.failed .bounds)

/-- A number of `vprintf` that `utoa` writes. -/
def putUnsigned (value base width : Word) (x : Locals) (p : Printer) : Outcome PrintStop (Locals × Printer) := do
  let (_, buf) ← report p (utoa value x.buf base width)
  let p ← putsBuf buf p
  return ({ x with buf := buf }, p)

/-- The `switch` of `vprintf`; `c` is 0 at the end of the format. -/
def convert (env : PrintEnv) (c : Byte) (width : Word) (x : Locals) (p : Printer) :
    Outcome PrintStop (Locals × Printer) :=
  let arg := env.args x.next
  let y : Locals := { x with next := x.next + 1 }
  if c = 0x25#8 then .ok (x, putc 0x25#8 p)
  else if c = 0x63#8 then .ok (y, putc (arg.setWidth 8) p)
  else if c = 0x73#8 then do
    let p ← puts env arg p
    return (y, p)
  else if c = 0x69#8 ∨ c = 0x64#8 then do
    let (_, buf) ← report p (itoa env.overflow arg y.buf 10#32 width)
    let p ← putsBuf buf p
    return ({ y with buf := buf }, p)
  else if c = 0x75#8 then putUnsigned arg 10#32 width y p
  else if c = 0x70#8 then putUnsigned arg 16#32 width y (putBytes pointerText p)
  else if c = 0x78#8 then putUnsigned arg 16#32 width y p
  else
    -- the mutex is released first: the assertion prints a message
    .error (stopped { p with locked := false } .assertion)

/-- The loop over the digits of a width. -/
def widthLoop (width : Word) : List Byte → Word × List Byte
  | [] => (width, [])
  | c :: fmt =>
    if 0x30#8 ≤ c ∧ c ≤ 0x39#8 then widthLoop (width * 10#32 + (c.setWidth 32 - 0x30#32)) fmt else (width, c :: fmt)

/-- The loop of `vprintf`. Every round takes a byte of the format at least. -/
def vprintfLoop (env : PrintEnv) : Nat → List Byte → Locals → Printer → Outcome PrintStop Printer
  | 0, _, _, _ => .error (.failed .bounds)
  | _ + 1, [], _, p => .ok p
  | rounds + 1, c :: fmt, x, p =>
    if c = 0x25#8 then
      if fmt = [] then .error (stopped p .assertion)
      else do
        let (width, fmt) := widthLoop 0#32 fmt
        let fmt := if fmt.head? = some 0x6C#8 then fmt.tail else fmt
        let (x, p) ← convert env (fmt.headD 0#8) width x p
        vprintfLoop env rounds fmt.tail x p
    else vprintfLoop env rounds fmt x (putc c p)

/-- `vprintf`. -/
def vprintf (env : PrintEnv) (fmt : CString) (p : Printer) : Outcome PrintStop Printer := do
  if p.locked then throw .deadlock
  let p : Printer := { p with locked := true }
  let p ← vprintfLoop env (fmt.bytes.length + 1) fmt.bytes ⟨0, (List.range 256).map env.stack⟩ p
  return { p with locked := false }

/-! ## What it should do -/

/-- What a conversion converts. -/
inductive Conversion
  | percent
  | char
  | str
  | signed
  | unsigned
  | pointer
  | hex
deriving DecidableEq, Repr

/-- The conversions, by their letters. -/
def conversionOf (c : Byte) : Option Conversion :=
  if c = 0x25#8 then some .percent
  else if c = 0x63#8 then some .char
  else if c = 0x73#8 then some .str
  else if c = 0x69#8 ∨ c = 0x64#8 then some .signed
  else if c = 0x75#8 then some .unsigned
  else if c = 0x70#8 then some .pointer
  else if c = 0x78#8 then some .hex
  else none

/-- A piece of a format: a byte that is printed, or a conversion with its width. -/
inductive Piece
  | byte (c : Byte)
  | conv (width : Word) (k : Conversion)
deriving DecidableEq, Repr

/-- How a format ends: as it should, with a `%`, or with a conversion that is not known. -/
inductive Ending
  | done
  | percent
  | unknown
deriving DecidableEq, Repr

/-- A digit. -/
def IsDigit (c : Byte) : Prop := 0x30#8 ≤ c ∧ c ≤ 0x39#8

/-- The width that digits stand for, modulo 2^32. -/
def widthOf (width : Word) (ds : List Byte) : Word := ds.foldl (fun w c => w * 10#32 + (c.setWidth 32 - 0x30#32)) width

/-- **The grammar of formats.** -/
inductive Format : List Byte → List Piece → Ending → Prop
  | nil : Format [] [] .done
  | byte {c : Byte} {fmt : List Byte} {ps : List Piece} {e : Ending} (hc : c ≠ 0x25#8) (h : Format fmt ps e) :
      Format (c :: fmt) (.byte c :: ps) e
  | conv {ds l fmt : List Byte} {c : Byte} {k : Conversion} {ps : List Piece} {e : Ending}
      (hds : ∀ d ∈ ds, IsDigit d) (hl : l = [] ∨ l = [0x6C#8]) (hk : conversionOf c = some k) (h : Format fmt ps e) :
      Format (0x25#8 :: (ds ++ (l ++ c :: fmt))) (.conv (widthOf 0#32 ds) k :: ps) e
  | percent : Format [0x25#8] [] .percent
  | unknown {ds l rest : List Byte} (hds : ∀ d ∈ ds, IsDigit d) (hl : l = [] ∨ l = [0x6C#8])
      (hne : ds ++ (l ++ rest) ≠ [])
      (hrest : ∀ c, rest.head? = some c → conversionOf c = none ∧ (l = [] → ¬ IsDigit c ∧ c ≠ 0x6C#8)) :
      Format (0x25#8 :: (ds ++ (l ++ rest))) [] .unknown

/-- How many arguments a piece takes. -/
def Piece.takes : Piece → Nat
  | .byte _ => 0
  | .conv _ .percent => 0
  | .conv _ _ => 1

/-- A number with zeros in front, when there is room for it in the buffer. -/
def numberText (base room : Nat) (v width : Word) : Option (List Byte) :=
  if width.toInt.toNat < room then some (digitText (paddedPlaces base v.toNat width.toInt.toNat)) else none

/-- The text of a piece whose argument is `w`, if it has one. -/
def Piece.text (env : PrintEnv) (w : Word) : Piece → Option (List Byte)
  | .byte c => some [c]
  | .conv _ .percent => some [0x25#8]
  | .conv _ .char => some [w.setWidth 8]
  | .conv _ .str => if w = 0#32 then some nullText else (env.strings w).map CString.bytes
  | .conv width .signed =>
    if w.toInt < 0 then
      match negate env.overflow w with
      | .ok v => (numberText 10 255 v width).map (0x2D :: ·)
      | .error _ => none
    else numberText 10 256 w width
  | .conv width .unsigned => numberText 10 256 w width
  | .conv width .pointer => (numberText 16 256 w width).map (pointerText ++ ·)
  | .conv width .hex => numberText 16 256 w width

/-- **What the pieces stand for**, with the arguments from the `n`-th on. -/
def texts (env : PrintEnv) : Nat → List Piece → Option (List Byte)
  | _, [] => some []
  | n, q :: ps => do
    let t ← q.text env (env.args n)
    let ts ← texts env (n + q.takes) ps
    return t ++ ts

/-! ## Numbers -/

section Number

variable {base : Word} {t : List Byte} {p : Printer}

theorem putBytes_append (s : List Byte) : putBytes t (putBytes s p) = putBytes (s ++ t) p := by
  unfold putBytes
  rw [List.append_assoc]

theorem putsBuf_text (ht : 0#8 ∉ t) (rest : List Byte) : putsBuf (t ++ 0#8 :: rest) p = .ok (putBytes t p) := by
  have hmem : 0#8 ∈ t ++ 0#8 :: rest := List.mem_append_right t List.mem_cons_self
  rw [putsBuf, if_pos hmem]
  exact congrArg (fun s => Except.ok (putBytes s p)) (takeWhile_nonzero rest ht)

/-- A number in base 10 or 16 has at most 10 digits. -/
theorem places_short (hbase : base = 10#32 ∨ base = 16#32) (v : Word) : (places base.toNat v.toNat).length ≤ 10 := by
  rcases hbase with rfl | rfl
  · exact places_word v
  · exact places_length_le (by decide) (by decide) (Nat.lt_trans v.isLt (by decide))

/-- **`utoa`** when there is room for the width, and when there is not. -/
theorem utoa_number (v width : Word) (str : List Byte) (hbase : base = 10#32 ∨ base = 16#32) (hlen : 10 < str.length) :
    match numberText base.toNat str.length v width with
    | some t => 0#8 ∉ t ∧ ∃ rest, (t ++ 0#8 :: rest).length = str.length ∧
        utoa v str base width = .ok (some 0, t ++ 0#8 :: rest)
    | none => utoa v str base width = .error .bounds := by
  have hint : 2 ≤ base.toInt ∧ base.toInt ≤ 36 := by rcases hbase with rfl | rfl <;> decide
  have hnat := base_toNat hint
  have hplaces := places_short hbase v
  unfold numberText
  split
  · rename_i t ht
    obtain ⟨hw, ht⟩ := Option.ite_none_right_eq_some.1 ht
    obtain rfl := Option.some.inj ht
    have hdigits : ∀ d ∈ paddedPlaces base.toNat v.toNat width.toInt.toNat, d < 36 :=
      fun d hd => Nat.lt_of_lt_of_le (paddedPlaces_lt hnat.1 hd) hnat.2
    refine ⟨digitText_not_mem hdigits (by decide), _, ?_, utoa_eq hint (by omega)⟩
    rw [List.length_append, digitText, List.length_map, paddedPlaces_length, List.length_cons, List.length_drop]
    omega
  · rename_i hnone
    have hw : str.length ≤ width.toInt.toNat := by
      by_contra hlt
      rw [if_pos (by omega)] at hnone
      cases hnone
    have hloop := digitLoop_eq (p := []) (q := str) (v := v) hnat (by omega)
    rw [List.nil_append, List.nil_append, List.length_nil, Nat.zero_add] at hloop
    have htext : (digitText (places base.toNat v.toNat)).length = (places base.toNat v.toNat).length :=
      List.length_map _
    rw [utoa, if_neg (by omega), hloop, ok_bind]
    dsimp only
    -- the zeros do not fit, or the terminator behind them does not
    by_cases hfit : width.toInt.toNat - (places base.toNat v.toNat).length ≤
        (str.drop (places base.toNat v.toNat).length).length
    · rw [fill_room htext.symm hfit, ok_bind, store, if_neg]
      · rfl
      · simp only [List.length_append, List.length_replicate, List.length_drop, htext]
        omega
    · rw [fill_full htext.symm (by omega)]
      rfl

end Number

/-! ## Conversions -/

section Convert

variable {env : PrintEnv} {c : Byte} {k : Conversion} {width w : Word} {x : Locals} {p : Printer}

/-- What is done, by the conversion. -/
theorem convert_eq : convert env c width x p =
    let arg := env.args x.next
    let y : Locals := { x with next := x.next + 1 }
    match conversionOf c with
    | some .percent => .ok (x, putc 0x25#8 p)
    | some .char => .ok (y, putc (arg.setWidth 8) p)
    | some .str => do
      let p ← puts env arg p
      return (y, p)
    | some .signed => do
      let (_, buf) ← report p (itoa env.overflow arg y.buf 10#32 width)
      let p ← putsBuf buf p
      return ({ y with buf := buf }, p)
    | some .unsigned => putUnsigned arg 10#32 width y p
    | some .pointer => putUnsigned arg 16#32 width y (putBytes pointerText p)
    | some .hex => putUnsigned arg 16#32 width y p
    | none => .error (stopped { p with locked := false } .assertion) := by
  unfold convert conversionOf
  split_ifs <;> rfl

/-- A letter that is a conversion is neither a digit nor `l`. -/
theorem conversionOf_some (hk : conversionOf c = some k) : ¬ IsDigit c ∧ c ≠ 0x6C#8 := by
  unfold conversionOf at hk
  unfold IsDigit
  split_ifs at hk with h1 h2 h3 h4 h5 h6 h7
  · subst h1; decide
  · subst h2; decide
  · subst h3; decide
  · rcases h4 with rfl | rfl <;> decide
  · subst h5; decide
  · subst h6; decide
  · subst h7; decide

/-- A conversion without a text stops the kernel; otherwise the text is printed. -/
def Converts (env : PrintEnv) (width : Word) (k : Conversion) (x : Locals) (p : Printer)
    (r : Outcome PrintStop (Locals × Printer)) : Prop :=
  match (Piece.conv width k).text env (env.args x.next) with
  | some t => ∃ buf, buf.length = 256 ∧ r = .ok (⟨x.next + (Piece.conv width k).takes, buf⟩, putBytes t p)
  | none => ∃ s, r = .error s

theorem putUnsigned_spec {base : Word} (w width : Word) (hbase : base = 10#32 ∨ base = 16#32) (hbuf : x.buf.length = 256) :
    match numberText base.toNat 256 w width with
    | some t => ∃ buf, buf.length = 256 ∧ putUnsigned w base width x p = .ok (⟨x.next, buf⟩, putBytes t p)
    | none => ∃ s, putUnsigned w base width x p = .error s := by
  have hnumber := utoa_number w width x.buf hbase (by omega)
  rw [hbuf] at hnumber
  cases htext : numberText base.toNat 256 w width with
  | none =>
    rw [htext] at hnumber
    exact ⟨_, by simp only [putUnsigned, report, hnumber]; rfl⟩
  | some t =>
    rw [htext] at hnumber
    obtain ⟨hzero, rest, hlen, hutoa⟩ := hnumber
    refine ⟨t ++ 0#8 :: rest, hlen, ?_⟩
    have hreport : report p (utoa w x.buf base width) = .ok (some 0, t ++ 0#8 :: rest) := by
      rw [report, hutoa]
      rfl
    simp only [putUnsigned, hreport, ok_bind, putsBuf_text hzero]
    rfl

/-- A signed number. -/
theorem convert_signed (hbuf : x.buf.length = 256) : Converts env width .signed x p (do
    let (_, buf) ← report p (itoa env.overflow (env.args x.next) x.buf 10#32 width)
    let p ← putsBuf buf p
    return (⟨x.next + 1, buf⟩, p)) := by
  unfold Converts
  simp only [Piece.text]
  generalize env.args x.next = w
  by_cases hneg : w.toInt < 0
  · rw [if_pos hneg]
    obtain ⟨c, buf, hcons⟩ : ∃ c buf, x.buf = c :: buf := List.exists_cons_of_length_pos (by omega)
    rw [hcons, List.length_cons] at hbuf
    have hstore : store Failure.bounds (c :: buf) 0 (0x2D : Byte) = .ok (0x2D :: buf) := store_append (p := []) rfl
    have hitoa : itoa env.overflow w x.buf 10#32 width = (do
        let value ← negate env.overflow w
        let (r, rest) ← utoa value buf 10#32 width
        return (r.map (· + 1), 0x2D :: rest)) := by
      rw [itoa, if_pos ⟨by decide, hneg⟩, hcons, hstore]
      rfl
    rw [hitoa]
    cases negate env.overflow w with
    | error f => exact ⟨_, rfl⟩
    | ok v =>
      have hnumber := utoa_number v width buf (Or.inl rfl) (by omega)
      rw [show buf.length = 255 by omega] at hnumber
      rw [ok_bind]
      dsimp only
      cases htext : numberText 10 255 v width with
      | none =>
        have hutoa : utoa v buf 10#32 width = .error .bounds := by
          rw [show (10#32 : Word).toNat = 10 from rfl, htext] at hnumber
          exact hnumber
        exact ⟨_, by rw [hutoa]; rfl⟩
      | some t =>
        rw [show (10#32 : Word).toNat = 10 from rfl, htext] at hnumber
        obtain ⟨hzero, rest, hlen, hutoa⟩ := hnumber
        have hzero' : (0 : Byte) ∉ 0x2D :: t := by
          rw [List.mem_cons, not_or]
          exact ⟨by decide, hzero⟩
        refine ⟨0x2D :: (t ++ 0#8 :: rest), by rw [List.length_cons, hlen], ?_⟩
        have hputs := putsBuf_text (p := p) hzero' rest
        rw [List.cons_append] at hputs
        rw [hutoa, ok_bind]
        dsimp only [report]
        show (do
          let p ← putsBuf (0x2D :: (t ++ 0#8 :: rest)) p
          return ((⟨x.next + 1, 0x2D :: (t ++ 0#8 :: rest)⟩ : Locals), p)) = _
        rw [hputs]
        rfl
  · rw [if_neg hneg]
    have hspec := putUnsigned_spec w width (x := ⟨x.next + 1, x.buf⟩) (p := p) (Or.inl rfl) hbuf
    have hitoa : itoa env.overflow w x.buf 10#32 width = utoa w x.buf 10#32 width := by
      rw [itoa, if_neg fun h => hneg h.2]
    rw [hitoa]
    exact hspec

/-- **A conversion** prints its text. -/
theorem convert_spec (env : PrintEnv) (width : Word) (hk : conversionOf c = some k) (hbuf : x.buf.length = 256) :
    Converts env width k x p (convert env c width x p) := by
  rw [convert_eq, hk]
  cases k with
  | percent => exact ⟨x.buf, hbuf, rfl⟩
  | char => exact ⟨x.buf, hbuf, rfl⟩
  | str =>
    unfold Converts
    simp only [Piece.text, puts]
    by_cases hnull : env.args x.next = 0#32
    · rw [if_pos hnull, if_pos hnull]
      exact ⟨x.buf, hbuf, rfl⟩
    · rw [if_neg hnull, if_neg hnull]
      cases env.strings (env.args x.next) with
      | none => exact ⟨_, rfl⟩
      | some t => exact ⟨x.buf, hbuf, rfl⟩
  | unsigned =>
    exact putUnsigned_spec _ width (x := { x with next := x.next + 1 }) (Or.inl rfl) hbuf
  | hex =>
    exact putUnsigned_spec _ width (x := { x with next := x.next + 1 }) (Or.inr rfl) hbuf
  | pointer =>
    have hspec := putUnsigned_spec (env.args x.next) width (x := { x with next := x.next + 1 })
      (p := putBytes pointerText p) (Or.inr rfl) hbuf
    unfold Converts
    simp only [Piece.text]
    rw [show (16#32 : Word).toNat = 16 from rfl] at hspec
    cases htext : numberText 16 256 (env.args x.next) width with
    | none =>
      rw [htext] at hspec
      exact hspec
    | some t =>
      rw [htext] at hspec
      obtain ⟨buf, hlen, hrun⟩ := hspec
      exact ⟨buf, hlen, hrun.trans (by rw [putBytes_append]; rfl)⟩
  | signed => exact convert_signed hbuf

end Convert

/-! ## The loop -/

section Loop

variable {env : PrintEnv} {fmt ds rest t : List Byte} {ps : List Piece} {e : Ending} {width : Word} {x : Locals}
  {p : Printer}

/-- How `vprintf` ends when its pieces have the text `t`, while the mutex is held. -/
def atEnd (p : Printer) (t : List Byte) : Ending → Outcome PrintStop Printer
  | .done => .ok (putBytes t p)
  | .percent => .error .deadlock
  | .unknown => .error (.failed .assertion)

theorem atEnd_put (s : List Byte) : atEnd (putBytes s p) t e = atEnd p (s ++ t) e := by
  cases e with
  | done => exact congrArg Except.ok (putBytes_append s)
  | percent => rfl
  | unknown => rfl

/-- **The digits of a width.** -/
theorem widthLoop_eq (hds : ∀ d ∈ ds, IsDigit d) (hrest : ∀ c, rest.head? = some c → ¬ IsDigit c) :
    widthLoop width (ds ++ rest) = (widthOf width ds, rest) := by
  induction ds generalizing width with
  | nil =>
    cases rest with
    | nil => rfl
    | cons c rest => exact if_neg (hrest c rfl)
  | cons d ds ih =>
    obtain ⟨hd, hds⟩ := List.forall_mem_cons.1 hds
    rw [List.cons_append, widthLoop]
    exact (if_pos hd).trans (ih hds)

/-- One round at a `%`: the width, `l`, and the rest of the format. -/
theorem vprintfLoop_conv {l : List Byte} {rounds : Nat} (hds : ∀ d ∈ ds, IsDigit d) (hl : l = [] ∨ l = [0x6C#8])
    (hne : ds ++ (l ++ rest) ≠ []) (hrest : ∀ c, rest.head? = some c → l = [] → ¬ IsDigit c ∧ c ≠ 0x6C#8) :
    vprintfLoop env (rounds + 1) (0x25#8 :: (ds ++ (l ++ rest))) x p = (do
      let (x, p) ← convert env (rest.headD 0#8) (widthOf 0#32 ds) x p
      vprintfLoop env rounds rest.tail x p) := by
  have hhead : ∀ c, (l ++ rest).head? = some c → ¬ IsDigit c := by
    intro c hc
    rcases hl with rfl | rfl
    · exact (hrest c hc rfl).1
    · obtain rfl := Option.some.inj hc
      unfold IsDigit
      decide
  have hskip : (if (l ++ rest).head? = some 0x6C#8 then (l ++ rest).tail else l ++ rest) = rest := by
    rcases hl with rfl | rfl
    · exact if_neg fun hc => (hrest _ hc rfl).2 rfl
    · exact if_pos rfl
  rw [vprintfLoop, if_pos rfl, if_neg hne, widthLoop_eq hds hhead]
  dsimp only
  rw [hskip]

/-- **The loop of `vprintf`** prints the texts of the pieces, up to the end or to the first piece without a text. -/
theorem vprintfLoop_spec (env : PrintEnv) (hf : Format fmt ps e) : ∀ (rounds : Nat) (x : Locals) (p : Printer), fmt.length < rounds →
    p.locked = true → x.buf.length = 256 →
    match texts env x.next ps with
    | some t => vprintfLoop env rounds fmt x p = atEnd p t e
    | none => ∃ s, vprintfLoop env rounds fmt x p = .error s := by
  induction hf with
  | nil =>
    intro rounds x p hr _ _
    obtain ⟨rounds, rfl⟩ := Nat.exists_eq_succ_of_ne_zero (Nat.ne_zero_of_lt hr)
    exact congrArg Except.ok (by rw [putBytes, List.append_nil])
  | @byte c fmt ps e hc hf ih =>
    intro rounds x p hr hlock hbuf
    obtain ⟨rounds, rfl⟩ := Nat.exists_eq_succ_of_ne_zero (Nat.ne_zero_of_lt hr)
    have hrest := ih rounds x (putc c p) (by rw [List.length_cons] at hr; omega) hlock hbuf
    have hround : vprintfLoop env (rounds + 1) (c :: fmt) x p = vprintfLoop env rounds fmt x (putc c p) := by
      rw [vprintfLoop, if_neg hc]
    have htexts : texts env x.next (.byte c :: ps) = (texts env x.next ps).map ([c] ++ ·) := by
      cases h : texts env x.next ps <;> simp [texts, Piece.text, Piece.takes, h]
    rw [hround, htexts]
    cases h : texts env x.next ps with
    | none =>
      rw [h] at hrest
      exact hrest
    | some t =>
      rw [h] at hrest
      exact hrest.trans (atEnd_put [c])
  | @conv ds l fmt c k ps e hds hl hk hf ih =>
    intro rounds x p hr hlock hbuf
    obtain ⟨rounds, rfl⟩ := Nat.exists_eq_succ_of_ne_zero (Nat.ne_zero_of_lt hr)
    have hcs := conversionOf_some hk
    rw [vprintfLoop_conv hds hl (by simp) fun d hd _ => by
      obtain rfl := Option.some.inj hd
      exact hcs]
    have hconv := convert_spec env (widthOf 0#32 ds) (x := x) (p := p) hk hbuf
    unfold Converts at hconv
    rw [texts, List.headD_cons, List.tail_cons]
    cases htext : (Piece.conv (widthOf 0#32 ds) k).text env (env.args x.next) with
    | none =>
      rw [htext] at hconv
      obtain ⟨s, hs⟩ := hconv
      exact ⟨s, by rw [hs]; rfl⟩
    | some s =>
      rw [htext] at hconv
      obtain ⟨buf, hlen, hs⟩ := hconv
      have hrest := ih rounds ⟨x.next + (Piece.conv (widthOf 0#32 ds) k).takes, buf⟩ (putBytes s p) (by
          simp only [List.length_cons, List.length_append] at hr
          omega) hlock hlen
      rw [hs, ok_bind]
      cases h : texts env (x.next + (Piece.conv (widthOf 0#32 ds) k).takes) ps with
      | none =>
        rw [h] at hrest
        exact hrest
      | some t =>
        rw [h] at hrest
        exact hrest.trans (atEnd_put s)
  | percent =>
    intro rounds x p hr hlock _
    obtain ⟨rounds, rfl⟩ := Nat.exists_eq_succ_of_ne_zero (Nat.ne_zero_of_lt hr)
    show vprintfLoop env (rounds + 1) [0x25#8] x p = .error .deadlock
    rw [vprintfLoop, if_pos rfl, if_pos rfl, stopped, if_pos hlock]
    exact nofun
  | @unknown ds l rest hds hl hne hrest =>
    intro rounds x p hr hlock _
    obtain ⟨rounds, rfl⟩ := Nat.exists_eq_succ_of_ne_zero (Nat.ne_zero_of_lt hr)
    have hnone : conversionOf (rest.headD 0#8) = none := by
      cases rest with
      | nil => rfl
      | cons c rest => exact (hrest c rfl).1
    show vprintfLoop env (rounds + 1) _ x p = .error (.failed .assertion)
    rw [vprintfLoop_conv hds hl hne fun c hc => (hrest c hc).2, convert_eq, hnone]
    rfl

end Loop

/-! ## `vprintf` -/

section Vprintf

variable {env : PrintEnv} {fmt : CString} {out t : List Byte} {ps : List Piece} {e : Ending} {r : Printer}

/-- `vprintf` of a format with its pieces. -/
theorem vprintf_spec (env : PrintEnv) (out : List Byte) (hf : Format fmt.bytes ps e) :
    match texts env 0 ps with
    | some t => vprintf env fmt ⟨out, false⟩ = (do
        let p ← atEnd ⟨out, true⟩ t e
        return { p with locked := false })
    | none => ∃ s, vprintf env fmt ⟨out, false⟩ = .error s := by
  have hloop := vprintfLoop_spec env hf (fmt.bytes.length + 1) ⟨0, (List.range 256).map env.stack⟩ ⟨out, true⟩
    (Nat.lt_succ_self _) rfl (by simp)
  have hrun : vprintf env fmt ⟨out, false⟩ = (do
      let p ← vprintfLoop env (fmt.bytes.length + 1) fmt.bytes ⟨0, (List.range 256).map env.stack⟩ ⟨out, true⟩
      return { p with locked := false }) := rfl
  rw [hrun]
  cases htexts : texts env 0 ps with
  | some t =>
    rw [htexts] at hloop
    dsimp only at hloop ⊢
    rw [hloop]
  | none =>
    rw [htexts] at hloop
    obtain ⟨s, hs⟩ := hloop
    exact ⟨s, by rw [hs]; rfl⟩

/-- **An incomplete format** stops the kernel: after an unknown conversion there is a message, after a `%` at the end
the kernel waits for ever before it prints one. -/
theorem vprintf_stops (hf : Format fmt.bytes ps e) (htexts : texts env 0 ps = some t) (he : e ≠ .done) :
    vprintf env fmt ⟨out, false⟩ = .error (if e = .percent then .deadlock else .failed .assertion) := by
  have hspec := vprintf_spec env out hf
  rw [htexts] at hspec
  cases e with
  | done => exact absurd rfl he
  | percent => exact hspec
  | unknown => exact hspec

/-- `"a%"`. -/
theorem vprintf_stops_percent :
    vprintf ⟨fun _ => 0x2A#32, fun _ => none, fun _ => 0#8, ubsanHandleNegateOverflow⟩ ⟨[0x61#8, 0x25#8], by decide⟩
      ⟨[], false⟩ = .error .deadlock :=
  vprintf_stops (e := .percent) (.byte (by decide) .percent) rfl nofun

end Vprintf

end Myunix.Console
