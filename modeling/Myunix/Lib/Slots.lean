import Myunix.Lib.Ring

/-!
# A ring of slots

Two parties that hand elements to each other through a ring need no count when every slot tells whether it is full.
`Slots cells first xs` says that the elements `xs` stand in the slots from `first` on and that all other slots are empty.
`Slots.look` is what the reader finds, `Slots.pop` how it takes an element, `Slots.push` how the writer brings one.
-/

namespace Myunix.Lib

universe u

/-- The elements `xs` stand in the slots from `first` on, and the other slots are empty. -/
structure Slots {α : Type u} (cells : List (Option α)) (first : Nat) (xs : List α) : Prop where
  first_lt : first < cells.length
  fits : xs.length ≤ cells.length
  cell : ∀ k < cells.length, cells[(first + k) % cells.length]? = some xs[k]?

section Slots

variable {α : Type u} {cells : List (Option α)} {first n : Nat} {xs : List α} {x : α}

/-- A ring of empty slots. -/
theorem slots_nil (h : first < n) : Slots (List.replicate n (none : Option α)) first [] := by
  refine ⟨by rwa [List.length_replicate], Nat.zero_le _, fun k _ => ?_⟩
  rw [List.length_replicate, List.getElem?_replicate, if_pos (Nat.mod_lt _ (by omega))]
  rfl

/-- What the reader finds. -/
theorem Slots.look (h : Slots cells first xs) : cells[first]? = some xs.head? := by
  have hpos := Nat.lt_of_le_of_lt (Nat.zero_le _) h.first_lt
  have hcell := h.cell 0 hpos
  rwa [Nat.add_zero, Nat.mod_eq_of_lt h.first_lt, ← List.head?_eq_getElem?] at hcell

/-- An element comes behind the others. -/
theorem Slots.push (h : Slots cells first xs) (hroom : xs.length < cells.length) (x : α) :
    Slots (cells.set ((first + xs.length) % cells.length) (some x)) first (xs ++ [x]) := by
  have hpos : (first + xs.length) % cells.length < cells.length := Nat.mod_lt _ (by omega)
  refine ⟨by rw [List.length_set]; exact h.first_lt, by rw [List.length_set, List.length_append]; exact hroom, ?_⟩
  intro k hk
  rw [List.length_set] at hk ⊢
  rcases Nat.lt_trichotomy k xs.length with hlt | rfl | hgt
  · have hne := ring_position_ne h.first_lt hroom hlt
    rw [List.getElem?_set_ne hne.symm, h.cell k hk, List.getElem?_append_left hlt]
  · rw [List.getElem?_set_self hpos, List.getElem?_concat_length]
  · have hne := ring_position_ne h.first_lt hk hgt
    rw [List.getElem?_set_ne hne, h.cell k hk, List.getElem?_eq_none (by omega), List.getElem?_eq_none (by simp; omega)]

/-- The first element is taken, and its slot is empty then. -/
theorem Slots.pop (h : Slots cells first (x :: xs)) : Slots (cells.set first none) ((first + 1) % cells.length) xs := by
  have hfits : xs.length + 1 ≤ cells.length := h.fits
  have hfirst := h.first_lt
  refine ⟨by rw [List.length_set]; exact Nat.mod_lt _ (by omega), by rw [List.length_set]; omega, fun k hk => ?_⟩
  rw [List.length_set] at hk ⊢
  rw [Nat.mod_add_mod, Nat.add_assoc, Nat.add_comm 1 k]
  rcases Nat.lt_or_eq_of_le (Nat.succ_le_of_lt hk) with hlt | heq
  · have hne := ring_position_ne h.first_lt hlt (Nat.succ_pos k)
    rw [Nat.add_zero, Nat.mod_eq_of_lt hfirst] at hne
    rw [List.getElem?_set_ne hne, h.cell (k + 1) hlt, List.getElem?_cons_succ]
  · -- all the way round: the slot that has been emptied
    rw [show first + (k + 1) = first + cells.length by omega, Nat.add_mod_right, Nat.mod_eq_of_lt hfirst,
      List.getElem?_set_self hfirst, List.getElem?_eq_none (by omega)]

end Slots

end Myunix.Lib
