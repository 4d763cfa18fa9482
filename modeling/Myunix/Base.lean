import Myunix.Lib.Outcome

/-!
# Words, pointers and ways to stop

The kernel is a 32-bit program: `Word` is `uint32_t` and `uintptr_t`, with C's wrapping arithmetic. A failed
`assert`, `assert_panic` or `panic` halts the machine; an access outside an allocated object has no defined result.
Both end a run of the model.
-/

namespace Myunix

/-- `uint32_t`, `uintptr_t`, `size_t`, `unsigned int`. -/
abbrev Word := BitVec 32

/-- Why an operation does not return. -/
inductive Failure
  /-- A failed `assert`, `assert_panic` or a call of `panic`: the kernel halts. -/
  | assertion
  /-- A read or write outside the object it is meant for. -/
  | bounds
  /-- An access to a virtual page that is not present, or a write to a read-only one. -/
  | pageFault
deriving DecidableEq, Repr

/-- A kernel operation returns or stops. -/
abbrev Kernel (α : Type) := Lib.Outcome Failure α

/-- `assert(exp)`. -/
abbrev kassert (p : Prop) [Decidable p] : Kernel PUnit := Lib.assert Failure.assertion p

/-! ## Pages and offsets -/

theorem offset_toNat (ptr : Word) : (ptr &&& 0xFFF#32).toNat = ptr.toNat % 4096 := Nat.and_two_pow_sub_one_eq_mod _ 12

/-- The address of the page of a pointer: a word is its page and its offset. -/
theorem page_toNat (ptr : Word) : (ptr &&& ~~~ 0xFFF#32).toNat = ptr.toNat / 4096 * 4096 := by
  have hoff := offset_toNat ptr
  have hlow : (ptr &&& ~~~ 0xFFF#32) &&& 0xFFF#32 = 0#32 := by
    rw [BitVec.and_assoc, show ~~~ 0xFFF#32 &&& 0xFFF#32 = 0#32 by decide, BitVec.and_zero]
  have hdisj : (ptr &&& ~~~ 0xFFF#32) &&& (ptr &&& 0xFFF#32) = 0#32 := by
    rw [BitVec.and_comm ptr 0xFFF#32, ← BitVec.and_assoc, hlow, BitVec.zero_and]
  have hsum : (ptr &&& ~~~ 0xFFF#32) + (ptr &&& 0xFFF#32) = ptr := by
    rw [BitVec.add_eq_or_of_and_eq_zero _ _ hdisj, ← BitVec.and_or_distrib_left,
      show ~~~ 0xFFF#32 ||| 0xFFF#32 = BitVec.allOnes 32 by decide, BitVec.and_allOnes]
  have hal : (ptr &&& ~~~ 0xFFF#32).toNat % 4096 = 0 := by
    have hnat := congrArg BitVec.toNat hlow
    rw [BitVec.toNat_and] at hnat
    exact (Nat.and_two_pow_sub_one_eq_mod _ 12).symm.trans hnat
  have hlt := (ptr &&& ~~~ 0xFFF#32).isLt
  have hnat := congrArg BitVec.toNat hsum
  rw [BitVec.toNat_add, hoff] at hnat
  omega

end Myunix
