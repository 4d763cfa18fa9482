import Mathlib.Algebra.GroupWithZero.Nat
import Mathlib.Logic.Function.Basic

/-!
# Memory as bytes and words

A memory gives a byte for each address. Words of four bytes are little-endian and need no alignment.

* `wordAt` reads a word, `putWord` writes one: `wordAt_putWord` is the word that was written, and
  `wordAt_putWord_apart` a word that has no byte in common with it.
* `fillBytes` and `copyBytes` write a range of bytes; what is outside of the range stays.
* `wordAt_congr`: a word depends on its four bytes alone.
-/

namespace Myunix.Lib

/-- A byte for each address. -/
abbrev Memory := Nat → BitVec 8

/-- The word at `a`, lowest byte first. -/
def wordAt (m : Memory) (a : Nat) : Nat :=
  (m a).toNat + 256 * (m (a + 1)).toNat + 65536 * (m (a + 2)).toNat + 16777216 * (m (a + 3)).toNat

/-- Byte `k` of the word `v`. -/
def wordByte (v k : Nat) : BitVec 8 := BitVec.ofNat 8 (v / 256 ^ k)

/-- Write the byte `b` at `a`. -/
def putByte (m : Memory) (a : Nat) (b : BitVec 8) : Memory := Function.update m a b

/-- Write the word `v` at `a`, lowest byte first. -/
def putWord (m : Memory) (a v : Nat) : Memory :=
  putByte (putByte (putByte (putByte m a (wordByte v 0)) (a + 1) (wordByte v 1)) (a + 2) (wordByte v 2)) (a + 3)
    (wordByte v 3)

/-- Write the byte `b` to the `n` addresses from `a` on. -/
def fillBytes (m : Memory) (a n : Nat) (b : BitVec 8) : Memory := fun x => if a ≤ x ∧ x < a + n then b else m x

/-- Write the `n` bytes at `src` to `dest`. -/
def copyBytes (m : Memory) (dest src n : Nat) : Memory :=
  fun x => if dest ≤ x ∧ x < dest + n then m (src + (x - dest)) else m x

section Memory

variable {m m' : Memory} {a c v n src dest x : Nat} {b : BitVec 8}

/-! ## Bytes -/

theorem putByte_self : putByte m a b a = b := by rw [putByte, Function.update_self]

theorem putByte_apart (h : x ≠ a) : putByte m a b x = m x := by rw [putByte, Function.update_of_ne h]

theorem putWord_apart (h : x < a ∨ a + 4 ≤ x) : putWord m a v x = m x := by
  unfold putWord
  rw [putByte_apart (by omega), putByte_apart (by omega), putByte_apart (by omega), putByte_apart (by omega)]

theorem fillBytes_in (h : a ≤ x) (h' : x < a + n) : fillBytes m a n b x = b := if_pos ⟨h, h'⟩

theorem fillBytes_apart (h : x < a ∨ a + n ≤ x) : fillBytes m a n b x = m x := if_neg (by omega)

theorem copyBytes_in (h : dest ≤ x) (h' : x < dest + n) : copyBytes m dest src n x = m (src + (x - dest)) :=
  if_pos ⟨h, h'⟩

theorem copyBytes_apart (h : x < dest ∨ dest + n ≤ x) : copyBytes m dest src n x = m x := if_neg (by omega)

/-- A range of bytes is filled one byte after the other. -/
theorem fillBytes_succ : fillBytes m a (n + 1) b = putByte (fillBytes m a n b) (a + n) b := by
  funext x
  by_cases hx : x = a + n
  · subst hx
    rw [putByte_self, fillBytes_in (by omega) (by omega)]
  · rw [putByte_apart hx]
    by_cases hin : a ≤ x ∧ x < a + n
    · rw [fillBytes_in hin.1 (by omega), fillBytes_in hin.1 hin.2]
    · rw [fillBytes_apart (by omega), fillBytes_apart (by omega)]

/-- A range of bytes is copied one byte after the other, when the two ranges are apart. -/
theorem copyBytes_succ (h : src + (n + 1) ≤ dest ∨ dest + n ≤ src) :
    copyBytes m dest src (n + 1) = putByte (copyBytes m dest src n) (dest + n) (copyBytes m dest src n (src + n)) := by
  funext x
  by_cases hx : x = dest + n
  · subst hx
    rw [putByte_self, copyBytes_in (by omega) (by omega), copyBytes_apart (by omega), Nat.add_sub_cancel_left]
  · rw [putByte_apart hx]
    by_cases hin : dest ≤ x ∧ x < dest + n
    · rw [copyBytes_in hin.1 (by omega), copyBytes_in hin.1 hin.2]
    · rw [copyBytes_apart (by omega), copyBytes_apart (by omega)]

/-! ## Words -/

theorem wordByte_toNat (v k : Nat) : (wordByte v k).toNat = v / 256 ^ k % 256 := BitVec.toNat_ofNat ..

theorem wordAt_lt : wordAt m a < 0x100000000 := by
  have h0 := (m a).isLt
  have h1 := (m (a + 1)).isLt
  have h2 := (m (a + 2)).isLt
  have h3 := (m (a + 3)).isLt
  unfold wordAt
  omega

/-- A word depends on its bytes. -/
theorem wordAt_congr (h : ∀ x, a ≤ x → x < a + 4 → m' x = m x) : wordAt m' a = wordAt m a := by
  unfold wordAt
  rw [h a (by omega) (by omega), h (a + 1) (by omega) (by omega), h (a + 2) (by omega) (by omega),
    h (a + 3) (by omega) (by omega)]

/-- **The word that was written.** -/
theorem wordAt_putWord (hv : v < 0x100000000) : wordAt (putWord m a v) a = v := by
  have h3 : putWord m a v (a + 3) = wordByte v 3 := putByte_self
  have h2 : putWord m a v (a + 2) = wordByte v 2 := by
    unfold putWord
    rw [putByte_apart (by omega), putByte_self]
  have h1 : putWord m a v (a + 1) = wordByte v 1 := by
    unfold putWord
    rw [putByte_apart (by omega), putByte_apart (by omega), putByte_self]
  have h0 : putWord m a v a = wordByte v 0 := by
    unfold putWord
    rw [putByte_apart (by omega), putByte_apart (by omega), putByte_apart (by omega), putByte_self]
  simp only [wordAt, h0, h1, h2, h3, wordByte_toNat]
  omega

/-- A word elsewhere. -/
theorem wordAt_putWord_apart (h : a + 4 ≤ c ∨ c + 4 ≤ a) : wordAt (putWord m c v) a = wordAt m a :=
  wordAt_congr fun _ _ _ => putWord_apart (by omega)

theorem wordAt_putByte_apart (h : a + 4 ≤ c ∨ c < a) : wordAt (putByte m c b) a = wordAt m a :=
  wordAt_congr fun _ _ _ => putByte_apart (by omega)

theorem wordAt_fillBytes_apart (h : a + 4 ≤ c ∨ c + n ≤ a) : wordAt (fillBytes m c n b) a = wordAt m a :=
  wordAt_congr fun _ _ _ => fillBytes_apart (by omega)

end Memory

end Myunix.Lib
