import Mathlib.Data.List.Basic

/-!
# Circular buffers

A list of cells is used as a ring: `Holds cells head xs` says that the elements `xs` stand in consecutive cells from
`head` on, going round at the end. `Holds.push` and `Holds.pop` are the two ends of the queue. A reader and a writer
that each keep only their own position know the number of elements up to a full round (`ringDistance_eq`): a full ring
and an empty one look the same to them (`ringDistance_full`).
-/

namespace Myunix.Lib

universe u

/-- The elements `xs` stand in the cells from `head` on. -/
structure Holds {α : Type u} (cells : List α) (head : Nat) (xs : List α) : Prop where
  head_lt : head < cells.length
  fits : xs.length ≤ cells.length
  cell : ∀ k, k < xs.length → cells[(head + k) % cells.length]? = xs[k]?

/-- The number of cells from position `r` to position `w` of a ring with `n` cells. -/
def ringDistance (n r w : Nat) : Nat := if w < r then n - r + w else w - r

section Positions

variable {n r k j : Nat}

/-- A position less than a full round ahead. -/
theorem ring_position (hr : r < n) (hk : k < n) : (r + k) % n = if r + k < n then r + k else r + k - n := by
  split
  · exact Nat.mod_eq_of_lt ‹_›
  · rw [Nat.mod_eq_sub_mod (by omega)]
    exact Nat.mod_eq_of_lt (by omega)

theorem ring_position_ne (hr : r < n) (hk : k < n) (hj : j < k) : (r + j) % n ≠ (r + k) % n := by
  rw [ring_position hr hk, ring_position hr (by omega)]
  split <;> split <;> omega

/-- Less than a full round ahead, the two positions tell the distance. -/
theorem ringDistance_eq (hr : r < n) (hk : k < n) : ringDistance n r ((r + k) % n) = k := by
  rw [ring_position hr hk, ringDistance]
  split <;> split <;> omega

/-- A full round ahead is where one started. -/
theorem ringDistance_full (hr : r < n) : ringDistance n r ((r + n) % n) = 0 := by
  rw [Nat.add_mod_right, Nat.mod_eq_of_lt hr, ringDistance, if_neg (Nat.lt_irrefl r), Nat.sub_self]

end Positions

section Ends

variable {α : Type u} {cells xs : List α} {head : Nat}

theorem holds_nil (h : head < cells.length) : Holds cells head [] :=
  ⟨h, Nat.zero_le _, fun k hk => absurd hk (Nat.not_lt_zero k)⟩

/-- Write the cell after the last element. -/
theorem Holds.push (h : Holds cells head xs) (hroom : xs.length < cells.length) (x : α) :
    Holds (cells.set ((head + xs.length) % cells.length) x) head (xs ++ [x]) := by
  have hpos : (head + xs.length) % cells.length < cells.length := Nat.mod_lt _ (by omega)
  refine ⟨by rw [List.length_set]; exact h.head_lt, by rw [List.length_set, List.length_append]; exact hroom, ?_⟩
  intro k hk
  rw [List.length_append, List.length_singleton] at hk
  rw [List.length_set]
  rcases Nat.lt_or_eq_of_le (Nat.le_of_lt_succ hk) with hlt | rfl
  · have hne := ring_position_ne h.head_lt hroom hlt
    rw [List.getElem?_set_ne hne.symm, h.cell k hlt, List.getElem?_append_left hlt]
  · rw [List.getElem?_set_self hpos, List.getElem?_concat_length]

/-- Read the first cell and move on. -/
theorem Holds.pop {x : α} (h : Holds cells head (x :: xs)) :
    cells[head]? = some x ∧ Holds cells ((head + 1) % cells.length) xs := by
  have hfits : xs.length + 1 ≤ cells.length := h.fits
  have hpos : 0 < cells.length := by omega
  refine ⟨?_, Nat.mod_lt _ hpos, by omega, fun k hk => ?_⟩
  · have hcell := h.cell 0 (Nat.succ_pos _)
    rwa [Nat.add_zero, Nat.mod_eq_of_lt h.head_lt] at hcell
  · have hcell := h.cell (k + 1) (Nat.succ_lt_succ hk)
    rw [Nat.mod_add_mod, Nat.add_assoc, Nat.add_comm 1 k]
    exact hcell

end Ends

end Myunix.Lib
