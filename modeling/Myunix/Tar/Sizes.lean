import Mathlib.Algebra.Order.Floor.Div
import Mathlib.Data.Nat.Prime.Basic
import Myunix.Lib.Numeral
import Myunix.Tar.Archive

/-!
# The size in a header (`misc/oct2bin.c`, `tar.c`)

A header has the size of its file as an octal number in a field of 12 bytes, with spaces or zeros in front, and behind it
NULs or spaces that end it (`SizeField`). `oct2bin` multiplies by 8 for each byte before a NUL, also for one that is no
digit. So it reads the number and multiplies it by 8 for each space that ends it (`oct2bin_bytes`).

`oct2bin_iff` says for which fields it returns the size.
-/

namespace Myunix.Tar

open Lib

/-- `oct2bin`. -/
def oct2bin (str : List Byte) (size : Nat) : Nat := oct2binLoop (str.take size) 0

theorem fsize_eq (header : List Byte) : fsize header = oct2bin (header.drop 124) 12 := rfl

/-! ## Fields -/

/-- The octal digit `d`. -/
def octalDigit (d : Nat) : Byte := BitVec.ofNat 8 (0x30 + d)

/-- A field with the size `v`. -/
structure SizeField (v : Nat) where
  spaces : Nat
  zeros : Nat
  terminator : List Byte
  ends : terminator ≠ []
  terminates : ∀ c ∈ terminator, c = 0 ∨ c = 0x20
  length : spaces + zeros + (Nat.digits 8 v).length + terminator.length = 12

/-- The bytes of the field. -/
def SizeField.bytes {v : Nat} (f : SizeField v) : List Byte :=
  List.replicate f.spaces 0x20 ++ (List.replicate f.zeros 0 ++ (Nat.digits 8 v).reverse).map octalDigit ++ f.terminator

theorem SizeField.bytes_length {v : Nat} (f : SizeField v) : f.bytes.length = 12 := by
  rw [← f.length]
  simp [SizeField.bytes, Nat.add_assoc]

/-! ## The loop -/

section Loop

variable {v x d n : Nat} {c : Byte} {rest : List Byte} {ds : List Nat}

/-- A digit. -/
theorem oct2binLoop_digit (hd : d < 8) :
    oct2binLoop (octalDigit d :: rest) (x % 0x100000000) = oct2binLoop rest ((x * 8 + d) % 0x100000000) := by
  have htoNat : (octalDigit d).toNat = 0x30 + d := by
    rw [octalDigit, BitVec.toNat_ofNat]
    omega
  have htoInt : (octalDigit d).toInt = 0x30 + d := by
    rw [BitVec.toInt_eq_toNat_of_lt (by omega), htoNat]
    omega
  have hne : octalDigit d ≠ 0 := by
    intro he
    rw [he, show (0 : Byte).toNat = 0 by rfl] at htoNat
    omega
  rw [oct2binLoop, if_neg hne]
  dsimp only
  rw [htoInt, if_pos (by omega), htoNat]
  congr 1
  omega

/-- A space, which is no digit, but counts as a place. -/
theorem oct2binLoop_space :
    oct2binLoop (0x20 :: rest) (x % 0x100000000) = oct2binLoop rest (x * 8 % 0x100000000) := by
  rw [oct2binLoop, if_neg (by decide)]
  dsimp only
  rw [if_neg (by decide)]
  congr 1
  omega

theorem oct2binLoop_spaces (n : Nat) :
    oct2binLoop (List.replicate n 0x20 ++ rest) (x % 0x100000000) = oct2binLoop rest (x * 8 ^ n % 0x100000000) := by
  induction n generalizing x with
  | zero => rw [Nat.pow_zero, Nat.mul_one, List.replicate_zero, List.nil_append]
  | succ n ih => rw [List.replicate_succ, List.cons_append, oct2binLoop_space, ih, Nat.pow_succ', Nat.mul_assoc]

theorem oct2binLoop_digits (hds : ∀ d ∈ ds, d < 8) : oct2binLoop (ds.map octalDigit ++ rest) (x % 0x100000000) =
    oct2binLoop rest (ds.foldl (fun x d => x * 8 + d) x % 0x100000000) := by
  induction ds generalizing x with
  | nil => rfl
  | cons d ds ih =>
    obtain ⟨hd, hds⟩ := List.forall_mem_cons.1 hds
    rw [List.map_cons, List.cons_append, oct2binLoop_digit hd, ih hds, List.foldl_cons]

/-- The bytes that end a number: each space before the first NUL counts as a place. -/
theorem oct2binLoop_terminator (h : ∀ c ∈ rest, c = 0 ∨ c = 0x20) :
    oct2binLoop rest (x % 0x100000000) = x * 8 ^ (rest.takeWhile (· = 0x20)).length % 0x100000000 := by
  induction rest generalizing x with
  | nil => rw [List.takeWhile_nil, List.length_nil, Nat.pow_zero, Nat.mul_one, oct2binLoop]
  | cons c rest ih =>
    obtain ⟨rfl | rfl, hrest⟩ := List.forall_mem_cons.1 h
    · rw [List.takeWhile_cons_of_neg (by decide), List.length_nil, Nat.pow_zero, Nat.mul_one, oct2binLoop, if_pos rfl]
    · rw [oct2binLoop_space, ih hrest, List.takeWhile_cons_of_pos (by decide), List.length_cons, Nat.pow_succ',
        Nat.mul_assoc]

/-- The digits of a number, with zeros in front. -/
theorem foldl_digits (zeros v : Nat) :
    (List.replicate zeros 0 ++ (Nat.digits 8 v).reverse).foldl (fun x d => x * 8 + d) 0 = v := by
  show positional 8 (List.replicate zeros 0 ++ (Nat.digits 8 v).reverse) = v
  rw [positional_zeros, positional_reverse, Nat.ofDigits_digits]

/-- **`oct2bin` of a field.** -/
theorem oct2bin_bytes (f : SizeField v) :
    oct2bin f.bytes 12 = v * 8 ^ (f.terminator.takeWhile (· = 0x20)).length % 0x100000000 := by
  have hdigits : ∀ d ∈ List.replicate f.zeros 0 ++ (Nat.digits 8 v).reverse, d < 8 := by
    intro d hd
    rcases List.mem_append.1 hd with hd | hd
    · rw [List.eq_of_mem_replicate hd]
      decide
    · exact Nat.digits_lt_base (by decide) (List.mem_reverse.1 hd)
  have hspaces : 0 * 8 ^ f.spaces = 0 := Nat.zero_mul _
  rw [oct2bin, List.take_of_length_le (Nat.le_of_eq f.bytes_length), SizeField.bytes, List.append_assoc]
  calc oct2binLoop (List.replicate f.spaces 0x20 ++
          ((List.replicate f.zeros 0 ++ (Nat.digits 8 v).reverse).map octalDigit ++ f.terminator)) (0 % 0x100000000)
      = oct2binLoop ((List.replicate f.zeros 0 ++ (Nat.digits 8 v).reverse).map octalDigit ++ f.terminator)
          (0 % 0x100000000) := by rw [oct2binLoop_spaces, hspaces]
    _ = oct2binLoop f.terminator (v % 0x100000000) := by rw [oct2binLoop_digits hdigits, foldl_digits]
    _ = v * 8 ^ (f.terminator.takeWhile (· = 0x20)).length % 0x100000000 := oct2binLoop_terminator f.terminates

end Loop

/-! ## The size -/

section Size

variable {v n : Nat}

/-- A number that fits in 32 bits is not itself again after more places. -/
theorem shifted_ne (hv : v < 0x100000000) (hpos : v ≠ 0) (hn : n ≠ 0) : v * 8 ^ n % 0x100000000 ≠ v := by
  intro heq
  -- the difference is `v` times an odd number
  have hle : v ≤ v * 8 ^ n := Nat.le_mul_of_pos_right v (Nat.pow_pos (by decide))
  have hmod : v % 0x100000000 = v * 8 ^ n % 0x100000000 := by rw [heq, Nat.mod_eq_of_lt hv]
  have hdvd : 0x100000000 ∣ v * (8 ^ n - 1) := by
    rw [Nat.mul_sub_one]
    exact (Nat.modEq_iff_dvd' hle).1 hmod
  have hodd : Odd (8 ^ n - 1) := by
    refine Nat.Even.sub_odd (Nat.one_le_pow _ _ (by decide)) ?_ odd_one
    exact Even.pow_of_ne_zero (by decide) hn
  have hcoprime : Nat.Coprime 0x100000000 (8 ^ n - 1) :=
    Nat.Coprime.pow_left 32 (Nat.coprime_two_left.2 hodd)
  exact hpos (Nat.eq_zero_of_dvd_of_lt (hcoprime.dvd_of_dvd_mul_right hdvd) hv)

/-- `tar_entry_length` by the size. -/
theorem tarEntryLength_of_fsize {header : List Byte} (h : fsize header = v) (hv : v ≤ 0x100000000 - 1536) :
    tarEntryLength header = 512 + 512 * (v ⌈/⌉ 512) := by
  rw [tarEntryLength, h, Nat.ceilDiv_eq_add_pred_div]
  omega

/-- No space ends the number exactly when a NUL does. -/
theorem SizeField.takeWhile_eq_nil (f : SizeField v) :
    (f.terminator.takeWhile (· = 0x20)).length = 0 ↔ f.terminator.head? = some 0 := by
  have hne := f.ends
  have hterm := f.terminates
  cases hcase : f.terminator with
  | nil => exact absurd hcase hne
  | cons c rest =>
    rw [hcase] at hterm
    rcases (List.forall_mem_cons.1 hterm).1 with rfl | rfl
    · simp
    · simp

/-- **`oct2bin`** returns the size, and `tar_entry_length` the room of the header and the data, if and only if a NUL ends
the number, or it is 0. -/
theorem oct2bin_iff {v : Nat} (f : SizeField v) (hv : v < 0x100000000) {header : List Byte}
    (hheader : (header.drop 124).take 12 = f.bytes) :
    (oct2bin f.bytes 12 = v ∧ (v ≤ 0x100000000 - 1536 → tarEntryLength header = 512 + 512 * (v ⌈/⌉ 512))) ↔
      f.terminator.head? = some 0 ∨ v = 0 := by
  have hsize : fsize header = oct2bin f.bytes 12 := by
    rw [fsize_eq, ← hheader, oct2bin, oct2bin, List.take_take, Nat.min_self]
  rw [← f.takeWhile_eq_nil]
  constructor
  · rintro ⟨hvalue, -⟩
    by_contra hcon
    obtain ⟨hn, hpos⟩ := not_or.1 hcon
    exact shifted_ne hv hpos hn ((oct2bin_bytes f).symm.trans hvalue)
  · intro hcase
    have hvalue : oct2bin f.bytes 12 = v := by
      rw [oct2bin_bytes]
      rcases hcase with hn | rfl
      · rw [hn, Nat.pow_zero, Nat.mul_one, Nat.mod_eq_of_lt hv]
      · rw [Nat.zero_mul, Nat.zero_mod]
    exact ⟨hvalue, fun hle => tarEntryLength_of_fsize (hsize.trans hvalue) hle⟩

end Size

theorem eightField_length : 0 + 9 + (Nat.digits 8 8).length + 1 = 12 := by norm_num

theorem single_terminates {b : Byte} (hb : b = 0 ∨ b = 0x20) : ∀ c ∈ [b], c = 0 ∨ c = 0x20 :=
  List.forall_mem_singleton.2 hb

/-- The size 8, as `00000000010` and one byte that ends it. -/
def eightField (b : Byte) (hb : b = 0 ∨ b = 0x20) : SizeField 8 :=
  ⟨0, 9, [b], List.cons_ne_nil b [], single_terminates hb, eightField_length⟩

/-- With a NUL. -/
theorem oct2bin_iff_nul : oct2bin (eightField 0 (Or.inl rfl)).bytes 12 = 8 ∧
    (8 ≤ 0x100000000 - 1536 →
      tarEntryLength (List.replicate 124 0 ++ (eightField 0 (Or.inl rfl)).bytes) = 512 + 512 * (8 ⌈/⌉ 512)) := by
  refine (oct2bin_iff (eightField 0 (Or.inl rfl)) (by decide) ?_).2 (Or.inl rfl)
  rw [List.drop_append, List.length_replicate, List.take_of_length_le]
  · simp
  · simp [SizeField.bytes_length]

/-- With a space. -/
theorem oct2bin_space : ¬ ∀ {v : Nat} (f : SizeField v), v < 8 ^ 11 → v < 0x100000000 → oct2bin f.bytes 12 = v := by
  intro h
  have height := h (eightField 0x20 (Or.inr rfl)) (by decide) (by decide)
  rw [oct2bin_bytes] at height
  exact absurd height (by decide)

end Myunix.Tar
