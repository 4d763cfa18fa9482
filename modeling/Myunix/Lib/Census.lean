import Mathlib.Data.List.Basic

/-!
# Counting the cells of a table

`countBelow n P` is the number of indices below `n` with the property `P`. A table that changes at one index changes
the count by what that index contributed before and after (`countBelow_update`). An allocator that always takes the
lowest free index leaves all but the lowest ones (`LowestTaken`).
-/

namespace Myunix.Lib

/-- The number of indices below `n` with the property. -/
def countBelow (n : Nat) (P : Nat → Bool) : Nat := (List.range n).countP P

section Counts

variable {n p : Nat} {P Q : Nat → Bool}

theorem countBelow_succ (n : Nat) (P : Nat → Bool) :
    countBelow (n + 1) P = countBelow n P + if P n then 1 else 0 := by
  simp [countBelow, List.range_succ, List.countP_append, List.countP_singleton]

theorem countBelow_congr (h : ∀ q, q < n → Q q = P q) : countBelow n Q = countBelow n P := by
  apply List.countP_congr
  intro q hq
  rw [h q (List.mem_range.1 hq)]

theorem countBelow_eq_zero (h : ∀ q, q < n → P q = false) : countBelow n P = 0 := by
  apply List.countP_eq_zero.2
  intro q hq
  simp [h q (List.mem_range.1 hq)]

theorem countBelow_pos (hp : p < n) (h : P p = true) : 0 < countBelow n P :=
  List.countP_pos_iff.2 ⟨p, List.mem_range.2 hp, h⟩

/-- All indices but 0. -/
theorem countBelow_positive (h : ∀ q, 0 < q → q < n + 1 → P q = true) : n ≤ countBelow (n + 1) P := by
  induction n with
  | zero => exact Nat.zero_le _
  | succ n ih =>
    have hrest := ih fun q hq hlt => h q hq (by omega)
    rw [countBelow_succ, if_pos (h (n + 1) (by omega) (by omega))]
    omega

/-- **One index changes.** -/
theorem countBelow_update (hp : p < n) (h : ∀ q, q ≠ p → Q q = P q) :
    countBelow n Q + (if P p then 1 else 0) = countBelow n P + if Q p then 1 else 0 := by
  -- induction on the number of indices; the index `p` is met once
  induction n with
  | zero => omega
  | succ m ih =>
    rw [countBelow_succ, countBelow_succ]
    by_cases hm : m = p
    · subst hm
      have hbelow : countBelow m Q = countBelow m P := countBelow_congr fun q hq => h q (by omega)
      omega
    · have hrest := ih (by omega)
      rw [h m hm]
      omega

end Counts

/-! ## Taking the lowest -/

/-- Of the indices with `P`, all but the `t` lowest are left. -/
def LowestTaken (t : Nat) (P Q : Nat → Bool) : Prop := ∀ m, Q m = (P m && decide (t ≤ countBelow m P))

section Lowest

variable {s t p : Nat} {P Q R : Nat → Bool}

theorem lowestTaken_one (hp : P p = true) (hlow : ∀ q, q < p → P q = false)
    (hQ : ∀ q, Q q = (P q && decide (q ≠ p))) : LowestTaken 1 P Q := by
  intro q
  rw [hQ q]
  by_cases hq : P q = true
  · rw [hq, Bool.true_and, Bool.true_and, decide_eq_decide]
    constructor
    · intro hne
      have hlt : p < q := by
        by_contra hle
        have hfalse := hlow q (by omega)
        rw [hq] at hfalse
        cases hfalse
      exact countBelow_pos hlt hp
    · rintro hle rfl
      rw [countBelow_eq_zero hlow] at hle
      omega
  · rw [Bool.not_eq_true] at hq
    rw [hq, Bool.false_and, Bool.false_and]

/-- Below every index, `t` fewer are left, as far as there were so many. -/
theorem LowestTaken.count (h : LowestTaken t P Q) (m : Nat) : countBelow m Q = countBelow m P - t := by
  induction m with
  | zero => exact (Nat.zero_sub t).symm
  | succ m ih =>
    rw [countBelow_succ, countBelow_succ, ih, h m]
    by_cases hm : P m = true
    · by_cases ht : t ≤ countBelow m P
      · simp only [hm, ht, decide_true, Bool.and_self, if_true]
        omega
      · simp only [hm, ht, decide_false, Bool.and_false, if_true, Bool.false_eq_true, if_false]
        omega
    · rw [Bool.not_eq_true] at hm
      simp only [hm, Bool.false_and, Bool.false_eq_true, if_false]
      omega

theorem LowestTaken.trans (h : LowestTaken t P Q) (h' : LowestTaken s Q R) : LowestTaken (t + s) P R := by
  intro m
  rw [h' m, h.count m, h m, Bool.and_assoc, ← Bool.decide_and]
  congr 1
  rw [decide_eq_decide]
  omega

end Lowest

end Myunix.Lib
