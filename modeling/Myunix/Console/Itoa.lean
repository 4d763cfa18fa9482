import Myunix.CString
import Myunix.Lib.Buffer
import Myunix.Lib.Numeral

/-!
# Numbers as text (`misc/itoa.c`)

`utoa` writes the digits of a number from the lowest on, fills with zeros up to the width, and turns the text around.
A digit is looked up in a string with 36 digits to each side of its middle, of which `utoa` uses the right side.

`itoa` negates a negative number. The most negative `int` has no negative in an `int`, and C does not say what its
negation gives; `overflow` is what the kernel does there. A debug build (`-fsanitize=undefined`) calls
`__ubsan_handle_negate_overflow` of `ubsan.c`, which halts.

`utoa_itoa_iff` says that `utoa` always writes the number, and for which numbers `itoa` does.
-/

namespace Myunix.Console

open Lib

/-! ## The code -/

/-- The string that digits are looked up in. -/
def digitTable : List Byte :=
  ['z', 'y', 'x', 'w', 'v', 'u', 't', 's', 'r', 'q', 'p', 'o', 'n', 'm', 'l', 'k', 'j', 'i', 'h', 'g',
   'f', 'e', 'd', 'c', 'b', 'a', '9', '8', '7', '6', '5', '4', '3', '2', '1', '0', '1', '2', '3', '4',
   '5', '6', '7', '8', '9', 'a', 'b', 'c', 'd', 'e', 'f', 'g', 'h', 'i', 'j', 'k', 'l', 'm', 'n', 'o',
   'p', 'q', 'r', 's', 't', 'u', 'v', 'w', 'x', 'y', 'z',
   Char.ofNat 0].map fun c => BitVec.ofNat 8 c.toNat

/-- The `do` loop. There is `room` for so many more bytes in the buffer; a store behind them is outside of it. -/
def digitLoop (base : Word) : (room : Nat) → (value : Word) → (i : Nat) → List Byte → Kernel (Nat × List Byte)
  | 0, _, _, _ => throw .bounds
  | room + 1, value, i, str => do
    let c ← load .bounds digitTable (35#32 + value % base).toNat
    let str ← store .bounds str i c
    let value := value / base
    if value ≠ 0 then digitLoop base room value (i + 1) str else return (i + 1, str)

/-- `utoa` on the buffer from `str` on: what it returns is `NULL` or an index in the buffer. -/
def utoa (value : Word) (str : List Byte) (base width : Word) : Kernel (Option Nat × List Byte) := do
  if base.toInt < 2 ∨ 36 < base.toInt then
    let str ← store .bounds str 0 0
    return (none, str)
  let (i, str) ← digitLoop base str.length value 0 str
  let str ← fill .bounds 0x30 i (width.toInt.toNat - i) str
  let i := max i width.toInt.toNat
  let str ← store .bounds str i 0
  let str ← reverseCells .bounds 0 (i - 1) str
  return (some 0, str)

/-- `-num` for an `int`. -/
def negate (overflow : Kernel Word) (num : Word) : Kernel Word := if num = 0x80000000#32 then overflow else .ok (-num)

/-- `itoa`. -/
def itoa (overflow : Kernel Word) (num : Word) (str : List Byte) (base width : Word) :
    Kernel (Option Nat × List Byte) := do
  if base.toInt = 10 ∧ num.toInt < 0 then
    let str ← store .bounds str 0 0x2D
    let value ← negate overflow num
    let (r, rest) ← utoa value (str.drop 1) base width
    return (r.map (· + 1), str.take 1 ++ rest)
  utoa num str base width

/-- `__ubsan_handle_negate_overflow`. -/
def ubsanHandleNegateOverflow : Kernel Word := throw .assertion

/-! ## Digits as characters -/

/-- The character of a digit. -/
def digitChar (d : Nat) : Byte := BitVec.ofNat 8 (if d < 10 then 0x30 + d else 0x57 + d)

/-- The text of a numeral. -/
def digitText (ds : List Nat) : List Byte := ds.map digitChar

section Digits

variable {d e base : Nat} {ds es : List Nat}

theorem digitChar_toNat (hd : d < 36) : (digitChar d).toNat = if d < 10 then 0x30 + d else 0x57 + d := by
  rw [digitChar, BitVec.toNat_ofNat]
  split <;> omega

/-- The lookup, right of the middle. -/
theorem digitTable_eq : ∀ d < 36, digitTable[35 + d]? = some (digitChar d) := by decide

theorem digitChar_inj (hd : d < 36) (he : e < 36) (h : digitChar d = digitChar e) : d = e := by
  have hto := congrArg BitVec.toNat h
  rw [digitChar_toNat hd, digitChar_toNat he] at hto
  split at hto <;> split at hto <;> omega

/-- A digit is neither NUL nor `-`. -/
theorem digitChar_ne {c : Byte} (hd : d < 36) (hc : c.toNat < 0x30) : digitChar d ≠ c := by
  intro h
  have hto := congrArg BitVec.toNat h
  rw [digitChar_toNat hd] at hto
  split at hto <;> omega

theorem digitText_not_mem {c : Byte} (hds : ∀ d ∈ ds, d < 36) (hc : c.toNat < 0x30) : c ∉ digitText ds := by
  intro hmem
  obtain ⟨d, hd, heq⟩ := List.mem_map.1 hmem
  exact digitChar_ne (hds d hd) hc heq

/-- The text has the digits. -/
theorem digitText_inj (hds : ∀ d ∈ ds, d < 36) (hes : ∀ e ∈ es, e < 36) (h : digitText ds = digitText es) :
    ds = es := by
  induction ds generalizing es with
  | nil => exact (List.map_eq_nil_iff.1 h.symm).symm
  | cons d ds ih =>
    cases es with
    | nil => cases h
    | cons e es =>
      obtain ⟨hd, hds⟩ := List.forall_mem_cons.1 hds
      obtain ⟨he, hes⟩ := List.forall_mem_cons.1 hes
      obtain ⟨hchar, htext⟩ := List.cons.inj h
      rw [digitChar_inj hd he hchar, ih hds hes htext]

/-- Digits and the zeros behind them, turned around. -/
theorem digitText_reverse (n : Nat) (ds : List Nat) :
    (digitText ds ++ List.replicate n 0x30).reverse = digitText (List.replicate n 0 ++ ds.reverse) := by
  rw [List.reverse_append, List.reverse_replicate, digitText, digitText, List.map_append, List.map_replicate,
    List.map_reverse]
  rfl

end Digits

/-! ## The loops -/

section Loop

variable {base v width : Word} {str p q : List Byte}

/-- The base as a number. -/
theorem base_toNat (hbase : 2 ≤ base.toInt ∧ base.toInt ≤ 36) : 2 ≤ base.toNat ∧ base.toNat ≤ 36 := by
  have hlt := base.isLt
  rw [BitVec.toInt_eq_toNat_cond] at hbase
  split at hbase <;> omega

/-- The character of the lowest digit. -/
theorem load_digit (hbase : 2 ≤ base.toNat ∧ base.toNat ≤ 36) (v : Word) :
    load Failure.bounds digitTable (35#32 + v % base).toNat = .ok (digitChar (v.toNat % base.toNat)) := by
  have hmod : v.toNat % base.toNat < base.toNat := Nat.mod_lt _ (by omega)
  have hindex : (35#32 + v % base).toNat = 35 + v.toNat % base.toNat := by
    rw [BitVec.toNat_add, BitVec.toNat_umod, BitVec.toNat_ofNat]
    omega
  rw [hindex]
  exact load_eq (digitTable_eq _ (by omega))

/-- **The `do` loop** writes the digits, the lowest first. -/
theorem digitLoop_eq (hbase : 2 ≤ base.toNat ∧ base.toNat ≤ 36)
    (hroom : (places base.toNat v.toNat).length ≤ q.length) :
    digitLoop base q.length v p.length (p ++ q) =
      .ok (p.length + (places base.toNat v.toNat).length,
        p ++ (digitText (places base.toNat v.toNat) ++ q.drop (places base.toNat v.toNat).length)) := by
  induction q generalizing p v with
  | nil =>
    exact absurd (List.length_eq_zero_iff.1 (Nat.le_zero.1 hroom)) (places_ne_nil _ _)
  | cons b q ih =>
    have hrest : v / base ≠ 0 ↔ ¬ v.toNat / base.toNat = 0 := by
      rw [not_iff_not, ← BitVec.toNat_udiv]
      exact BitVec.toNat_inj.symm
    rw [places_eq hbase.1] at hroom ⊢
    rw [List.length_cons, digitLoop, load_digit hbase, ok_bind, store_append rfl, ok_bind]
    by_cases hzero : v.toNat / base.toNat = 0
    · dsimp only
      rw [if_neg (by rw [hrest]; exact not_not.2 hzero), if_pos hzero]
      rfl
    · rw [if_neg hzero] at hroom ⊢
      have hround := ih (v := v / base) (p := p ++ [digitChar (v.toNat % base.toNat)])
        (by rw [BitVec.toNat_udiv]; exact Nat.le_of_succ_le_succ hroom)
      rw [BitVec.toNat_udiv, List.length_append, List.length_singleton, List.append_assoc, List.append_assoc,
        List.singleton_append] at hround
      dsimp only
      rw [if_pos (hrest.2 hzero)]
      refine hround.trans (congrArg Except.ok (Prod.ext ?_ rfl))
      show p.length + 1 + _ = p.length + (_ + 1)
      omega

/-- **`utoa`** writes the digits with zeros in front, and a NUL. What is behind it in the buffer stays. -/
theorem utoa_eq (hbase : 2 ≤ base.toInt ∧ base.toInt ≤ 36)
    (hroom : max width.toInt.toNat (places base.toNat v.toNat).length < str.length) :
    utoa v str base width =
      .ok (some 0, digitText (paddedPlaces base.toNat v.toNat width.toInt.toNat) ++
        0 :: str.drop (max width.toInt.toNat (places base.toNat v.toNat).length + 1)) := by
  have hdigits := digitLoop_eq (p := []) (base_toNat hbase)
    (show (places base.toNat v.toNat).length ≤ str.length by omega)
  rw [paddedPlaces]
  have hpos : 0 < (places base.toNat v.toNat).length := List.length_pos_iff.2 (places_ne_nil _ _)
  rw [List.nil_append, List.nil_append, List.length_nil, Nat.zero_add] at hdigits
  rw [utoa, if_neg (by omega), hdigits, ok_bind]
  dsimp only
  generalize places base.toNat v.toNat = ds at *
  generalize width.toInt.toNat = w at *
  have hlength : (digitText ds).length = ds.length := List.length_map _
  have hfill : fill Failure.bounds 0x30 ds.length (w - ds.length) (digitText ds ++ str.drop ds.length) =
      .ok (digitText ds ++ List.replicate (w - ds.length) 0x30 ++ str.drop (max w ds.length)) := by
    rw [fill_room hlength.symm (by rw [List.length_drop]; omega), List.drop_drop, List.append_assoc,
      show ds.length + (w - ds.length) = max w ds.length by omega]
  have hmid : (digitText ds ++ List.replicate (w - ds.length) (0x30 : Byte)).length = max w ds.length := by
    rw [List.length_append, List.length_replicate, hlength]
    omega
  have hstore : store Failure.bounds (digitText ds ++ List.replicate (w - ds.length) 0x30 ++ str.drop (max w ds.length))
      (max w ds.length) 0 =
      .ok (digitText ds ++ List.replicate (w - ds.length) 0x30 ++ 0 :: str.drop (max w ds.length + 1)) := by
    rw [store_room hmid.symm (List.ne_nil_of_length_pos (by rw [List.length_drop]; omega)), List.tail_drop]
  have hreverse := reverseCells_append (e := Failure.bounds) (p := []) (q := 0 :: str.drop (max w ds.length + 1))
    (m := digitText ds ++ List.replicate (w - ds.length) 0x30) (i := max w ds.length - 1) rfl
    (by rw [hmid, List.length_nil]; omega)
  rw [List.nil_append, List.nil_append, digitText_reverse] at hreverse
  rw [List.length_nil] at hreverse
  rw [hfill, ok_bind, Nat.max_comm ds.length w, hstore, ok_bind, hreverse]
  rfl

end Loop

/-! ## The text of a number -/

section Text

variable {base v width : Word} {str : List Byte}

/-- The numeral that `utoa` writes. -/
theorem utoa_writes (hbase : 2 ≤ base.toInt ∧ base.toInt ≤ 36)
    (hroom : max width.toInt.toNat (places base.toNat v.toNat).length < str.length) :
    ∃ (s : CString) (n : Numeral base.toNat), utoa v str base width = .ok (some 0, s.mem ++ str.drop (strlen s + 1)) ∧
      s.bytes = digitText n.digits ∧ strlen s = max width.toInt.toNat (places base.toNat v.toNat).length ∧
      n.value = v.toNat := by
  obtain ⟨hlow, hhigh⟩ := base_toNat hbase
  have hnonzero : (0 : Byte) ∉ digitText (Numeral.ofNat hlow v.toNat width.toInt.toNat).digits :=
    digitText_not_mem ((Numeral.ofNat hlow v.toNat width.toInt.toNat).digits_lt hhigh) (by decide)
  have hlength : strlen ⟨_, hnonzero⟩ = max width.toInt.toNat (places base.toNat v.toNat).length :=
    (List.length_map _).trans (paddedPlaces_length base.toNat v.toNat width.toInt.toNat)
  refine ⟨⟨_, hnonzero⟩, Numeral.ofNat hlow v.toNat width.toInt.toNat, ?_, rfl, hlength, Numeral.value_ofNat hlow _ _⟩
  rw [utoa_eq hbase hroom, hlength, CString.mem, List.append_assoc]
  rfl

end Text

/-! ## Signs -/

/-- The texts of an integer in base 10. -/
inductive Denotes : List Byte → Int → Prop
  | nonneg (n : Numeral 10) : Denotes (digitText n.digits) n.value
  | neg (n : Numeral 10) : Denotes (0x2D :: digitText n.digits) (-n.value)

section Sign

variable {num v width : Word} {buf : List Byte} {overflow : Kernel Word}

/-- A text with a sign denotes one number. -/
theorem denotes_neg (n : Numeral 10) {z : Int} : Denotes (0x2D :: digitText n.digits) z ↔ z = -n.value := by
  constructor
  · intro h
    generalize htext : 0x2D :: digitText n.digits = text at h
    cases h with
    | nonneg m =>
      have hmem : (0x2D : Byte) ∈ digitText m.digits := htext ▸ List.mem_cons_self
      exact absurd hmem (digitText_not_mem (m.digits_lt (by decide)) (by decide))
    | neg m =>
      have hdigits := digitText_inj (n.digits_lt (by decide)) (m.digits_lt (by decide)) (List.cons.inj htext).2
      rw [Numeral.value, Numeral.value, hdigits]
  · rintro rfl
    exact .neg n

/-- The word of an `int`. -/
theorem toNat_of_nonneg (h : ¬ num.toInt < 0) : (num.toNat : Int) = num.toInt := by
  have hlt := num.isLt
  rw [BitVec.toInt_eq_toNat_cond] at h ⊢
  split at h <;> omega

/-- The word of a negation that does not overflow. -/
theorem toNat_neg (h : num.toInt < 0) (hmin : num ≠ 0x80000000#32) : ((-num).toNat : Int) = -num.toInt := by
  have hlt := num.isLt
  have hne : num.toNat ≠ 0x80000000 := fun h0 => hmin (BitVec.eq_of_toNat_eq h0)
  rw [BitVec.toNat_neg]
  rw [BitVec.toInt_eq_toNat_cond] at h ⊢
  split at h <;> omega

/-- **`itoa`** of a negative number whose negation comes to `v`. -/
theorem itoa_neg (hneg : num.toInt < 0) (hv : negate overflow num = .ok v)
    (hroom : max width.toInt.toNat (places 10 v.toNat).length + 1 < buf.length) :
    ∃ (s : CString) (n : Numeral 10),
      itoa overflow num buf 10#32 width = .ok (some 1, s.mem ++ buf.drop (strlen s + 1)) ∧
      s.bytes = 0x2D :: digitText n.digits ∧ n.value = v.toNat := by
  obtain ⟨c, buf, rfl⟩ : ∃ c b, buf = c :: b := List.exists_cons_of_length_pos (by omega)
  obtain ⟨s, n, hutoa, hbytes, -, hvalue⟩ := @utoa_writes 10#32 v width buf (by decide) (Nat.lt_of_succ_lt_succ hroom)
  have hnonzero : (0 : Byte) ∉ 0x2D :: s.bytes := by
    rw [List.mem_cons, not_or]
    exact ⟨by decide, s.nonzero⟩
  refine ⟨⟨0x2D :: s.bytes, hnonzero⟩, n, ?_, congrArg _ hbytes, hvalue⟩
  have hstore : store Failure.bounds (c :: buf) 0 0x2D = .ok (0x2D :: buf) := store_append (p := []) rfl
  rw [itoa, if_pos ⟨by decide, hneg⟩, hstore, ok_bind, hv, ok_bind, List.drop_one, List.tail_cons, hutoa, ok_bind]
  rfl

/-- A word has at most 10 digits. -/
theorem places_word (v : Word) : (places 10 v.toNat).length ≤ 10 :=
  places_length_le (by decide) (by decide) (Nat.lt_trans v.isLt (by decide))

/-- The most negative `int` has all of them. -/
theorem places_min : (places 10 0x80000000).length = 10 := by
  rw [places, if_neg (by decide)]
  norm_num

/-- The string at the start of a buffer. -/
theorem takeWhile_mem (s : CString) (q : List Byte) : (s.mem ++ q).takeWhile (· ≠ 0) = s.bytes := by
  rw [CString.mem, List.append_assoc]
  exact takeWhile_nonzero q s.nonzero

/-- The most negative number. -/
theorem itoa_min (overflow : Kernel Word)
    (hroom : max width.toInt.toNat (places 10 0x80000000).length + 1 < buf.length) :
    (∃ r s, itoa overflow 0x80000000#32 buf 10#32 width = .ok (r, s.mem ++ buf.drop (strlen s + 1)) ∧
      Denotes s.bytes (0x80000000#32 : Word).toInt) ↔ overflow = .ok 0x80000000#32 := by
  rw [places_min] at hroom
  cases overflow with
  | error e =>
    constructor
    · rintro ⟨r, s, hitoa, -⟩
      rw [itoa, if_pos (by decide), negate, if_pos rfl] at hitoa
      simp at hitoa
    · intro hvalue
      cases hvalue
  | ok v =>
    obtain ⟨s, n, hitoa, hbytes, hvalue⟩ := @itoa_neg 0x80000000#32 v width buf (.ok v) (by decide) (if_pos rfl)
      (by have := places_word v; omega)
    have hdenotes : Denotes s.bytes (0x80000000#32 : Word).toInt ↔ v = 0x80000000#32 := by
      rw [hbytes, denotes_neg, hvalue, show (0x80000000#32 : Word).toInt = -0x80000000 by decide, ← BitVec.toNat_inj,
        show (0x80000000#32 : Word).toNat = 0x80000000 by decide]
      omega
    rw [Except.ok.injEq]
    constructor
    · rintro ⟨r, t, htext, ht⟩
      rw [hitoa, Except.ok.injEq, Prod.mk.injEq] at htext
      rw [← takeWhile_mem t, ← htext.2, takeWhile_mem] at ht
      exact hdenotes.1 ht
    · intro hv
      exact ⟨some 1, s, hitoa, hdenotes.2 hv⟩

/-- **`itoa`** in base 10. -/
theorem itoa_denotes (overflow : Kernel Word)
    (hroom : max width.toInt.toNat (places 10 num.toInt.natAbs).length + (if num.toInt < 0 then 1 else 0) <
      buf.length) :
    (∃ r s, itoa overflow num buf 10#32 width = .ok (r, s.mem ++ buf.drop (strlen s + 1)) ∧ Denotes s.bytes num.toInt) ↔
      num ≠ 0x80000000#32 ∨ overflow = .ok 0x80000000#32 := by
  by_cases hmin : num = 0x80000000#32
  · subst hmin
    rw [itoa_min overflow hroom, or_iff_right (not_not.2 rfl)]
  refine iff_of_true ?_ (Or.inl hmin)
  by_cases hneg : num.toInt < 0
  · -- the negation is the absolute value
    have habs : (-num).toNat = num.toInt.natAbs := by
      have := toNat_neg hneg hmin
      omega
    rw [if_pos hneg, ← habs] at hroom
    obtain ⟨s, n, hitoa, hbytes, hvalue⟩ := @itoa_neg num (-num) width buf overflow hneg (if_neg hmin) hroom
    refine ⟨some 1, s, hitoa, ?_⟩
    rw [hbytes, denotes_neg, hvalue, toNat_neg hneg hmin, Int.neg_neg]
  · have hnat : num.toNat = num.toInt.natAbs := by
      have := toNat_of_nonneg hneg
      omega
    rw [if_neg hneg, Nat.add_zero, ← hnat] at hroom
    obtain ⟨s, n, hutoa, hbytes, -, hvalue⟩ := @utoa_writes 10#32 num width buf (by decide) hroom
    refine ⟨some 0, s, ?_, ?_⟩
    · rw [itoa, if_neg (fun h => hneg h.2)]
      exact hutoa
    · rw [hbytes, ← toNat_of_nonneg hneg, ← hvalue]
      exact .nonneg n

end Sign

/-- **`utoa`** writes the digits of the number in the base, with zeros in front up to the width, as a string.
**`itoa`** in base 10 writes a text of the number if and only if that is not the most negative `int`, or its negation
comes to its absolute value in 32 bits. -/
theorem utoa_itoa_iff (overflow : Kernel Word) {value base width num width' : Word} {str buf : List Byte}
    (hbase : 2 ≤ base.toInt ∧ base.toInt ≤ 36)
    (hstr : max width.toInt.toNat (places base.toNat value.toNat).length < str.length)
    (hbuf : max width'.toInt.toNat (places 10 num.toInt.natAbs).length + (if num.toInt < 0 then 1 else 0) <
      buf.length) :
    (∃ (s : CString) (n : Numeral base.toNat),
        utoa value str base width = .ok (some 0, s.mem ++ str.drop (strlen s + 1)) ∧
        s.bytes = digitText n.digits ∧ strlen s = max width.toInt.toNat (places base.toNat value.toNat).length ∧
        n.value = value.toNat) ∧
      ((∃ r s, itoa overflow num buf 10#32 width' = .ok (r, s.mem ++ buf.drop (strlen s + 1)) ∧
          Denotes s.bytes num.toInt) ↔
        num ≠ 0x80000000#32 ∨ overflow = .ok 0x80000000#32) :=
  ⟨utoa_writes hbase hstr, itoa_denotes overflow hbuf⟩

/-- 255 in base 16 and width 4, and -42. -/
theorem utoa_itoa_iff_hex :
    (∃ (s : CString) (n : Numeral (16#32 : Word).toNat), utoa 0xFF#32 (List.replicate 5 0) 16#32 4#32 =
          .ok (some 0, s.mem ++ (List.replicate 5 0).drop (strlen s + 1)) ∧
        s.bytes = digitText n.digits ∧
        strlen s = max (4#32 : Word).toInt.toNat (places (16#32 : Word).toNat (0xFF#32 : Word).toNat).length ∧
        n.value = (0xFF#32 : Word).toNat) ∧
      ∃ r s, itoa ubsanHandleNegateOverflow (-42#32) (List.replicate 4 0) 10#32 0#32 =
          .ok (r, s.mem ++ (List.replicate 4 0).drop (strlen s + 1)) ∧ Denotes s.bytes (-42#32 : Word).toInt := by
  have hboth := @utoa_itoa_iff ubsanHandleNegateOverflow 0xFF#32 16#32 4#32 (-42#32) 0#32 (List.replicate 5 0)
    (List.replicate 4 0) (by decide) (by decide) (by decide)
  exact ⟨hboth.1, hboth.2.2 (Or.inl (by decide))⟩

/-- The most negative `int` in a debug build: the kernel halts. -/
theorem itoa_min_halts :
    itoa ubsanHandleNegateOverflow 0x80000000#32 (List.replicate 12 0) 10#32 0#32 = .error .assertion ∧
      ¬ ∃ r s, itoa ubsanHandleNegateOverflow 0x80000000#32 (List.replicate 12 0) 10#32 0#32 =
          .ok (r, s.mem ++ (List.replicate 12 0).drop (strlen s + 1)) ∧
        Denotes s.bytes (0x80000000#32 : Word).toInt := by
  have hhalts : itoa ubsanHandleNegateOverflow 0x80000000#32 (List.replicate 12 0) 10#32 0#32 = .error .assertion := rfl
  refine ⟨hhalts, ?_⟩
  rintro ⟨r, s, hitoa, -⟩
  rw [hhalts] at hitoa
  cases hitoa

end Myunix.Console
