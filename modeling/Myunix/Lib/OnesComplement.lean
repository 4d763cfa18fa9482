import Mathlib.Algebra.BigOperators.Group.List.Basic
import Mathlib.Algebra.GroupWithZero.Nat
import Mathlib.Data.List.Induction

/-!
# One's complement sums

Numbers up to `m` added with end-around carry: a sum above `m` wraps to `m` less. The sum of a list is determined by the
ordinary sum modulo `m` and by whether that sum is 0 (`onesSum_unique`), so any way of folding the carries back in gives
the same result. For `m = 2^16 - 1` this is the sum of the internet checksum (RFC 1071).
-/

namespace Myunix.Lib

/-- `a + b` with the carry added at the other end. -/
def endAround (m a b : Nat) : Nat := if a + b ≤ m then a + b else a + b - m

/-- The one's complement sum of a list. -/
def onesSum (m : Nat) (l : List Nat) : Nat := l.foldl (endAround m) 0

section Sums

variable {m : Nat} {l : List Nat}

theorem endAround_le {a b : Nat} (ha : a ≤ m) (hb : b ≤ m) : endAround m a b ≤ m := by
  unfold endAround
  split <;> omega

theorem endAround_mod (a b : Nat) : endAround m a b % m = (a + b) % m := by
  unfold endAround
  split
  · rfl
  · exact (Nat.mod_eq_sub_mod (by omega)).symm

theorem endAround_eq_zero {a b : Nat} : endAround m a b = 0 ↔ a + b = 0 := by
  unfold endAround
  split <;> omega

theorem onesSum_append (x : Nat) : onesSum m (l ++ [x]) = endAround m (onesSum m l) x := by
  simp [onesSum, List.foldl_append]

theorem onesSum_le (hl : ∀ x ∈ l, x ≤ m) : onesSum m l ≤ m := by
  induction l using List.reverseRecOn with
  | nil => exact Nat.zero_le m
  | append_singleton l x ih =>
    rw [onesSum_append]
    exact endAround_le (ih fun y hy => hl y (List.mem_append_left _ hy)) (hl x (by simp))

theorem onesSum_mod : onesSum m l % m = l.sum % m := by
  induction l using List.reverseRecOn with
  | nil => rfl
  | append_singleton l x ih =>
    rw [onesSum_append, endAround_mod, Nat.add_mod, ih, ← Nat.add_mod, List.sum_append, List.sum_singleton]

theorem onesSum_eq_zero : onesSum m l = 0 ↔ l.sum = 0 := by
  induction l using List.reverseRecOn with
  | nil => simp [onesSum]
  | append_singleton l x ih =>
    rw [onesSum_append, endAround_eq_zero, List.sum_append, List.sum_singleton]
    omega

/-- **Uniqueness**: a number up to `m` that agrees with the sum modulo `m`, and on being 0, is the one's complement
sum. -/
theorem onesSum_unique {v : Nat} (hl : ∀ x ∈ l, x ≤ m) (hv : v ≤ m) (hmod : v % m = l.sum % m)
    (hzero : v = 0 ↔ l.sum = 0) : v = onesSum m l := by
  have hle := onesSum_le hl
  have hm : onesSum m l % m = l.sum % m := onesSum_mod
  have hz : onesSum m l = 0 ↔ l.sum = 0 := onesSum_eq_zero
  rw [← hmod] at hm
  by_cases hlt : v < m
  · by_cases hlt' : onesSum m l < m
    · rw [Nat.mod_eq_of_lt hlt, Nat.mod_eq_of_lt hlt'] at hm
      exact hm.symm
    · have heq : onesSum m l = m := by omega
      rw [heq, Nat.mod_self, Nat.mod_eq_of_lt hlt] at hm
      omega
  · have heq : v = m := by omega
    rw [heq, Nat.mod_self] at hm
    by_cases hlt' : onesSum m l < m
    · rw [Nat.mod_eq_of_lt hlt'] at hm
      omega
    · omega

end Sums

end Myunix.Lib
