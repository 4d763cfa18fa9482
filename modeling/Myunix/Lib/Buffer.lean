import Mathlib.Data.List.Induction
import Myunix.Lib.Outcome

/-!
# Buffers with bounds

A buffer is a list of cells of fixed length. `load` and `store` stop with an error outside of it.

* `load_append` and `store_append` are the two accesses for a buffer that is written as the cells before the one that is
  accessed, this one, and the cells behind it.
* `fill` stores one value to the cells from an index on (`fill_append`).
* `reverseCells` turns a part of a buffer around, with an index from each end (`reverseCells_append`).
-/

namespace Myunix.Lib

universe u v

/-- The value of cell `i`. -/
def load {ε : Type u} {α : Type v} (e : ε) (s : List α) (i : Nat) : Outcome ε α :=
  match s[i]? with
  | some a => .ok a
  | none => .error e

/-- Cell `i` gets the value `a`. -/
def store {ε : Type u} {α : Type v} (e : ε) (s : List α) (i : Nat) (a : α) : Outcome ε (List α) :=
  if i < s.length then .ok (s.set i a) else .error e

/-- `for (j = start; j < start + n; j++) s[j] = a`. -/
def fill {ε : Type u} {α : Type v} (e : ε) (a : α) (start n : Nat) (s : List α) : Outcome ε (List α) :=
  forRange (fun j s => store e s j a) start n s

/-- `for (; j < i; j++, i--)` exchanges `s[j]` and `s[i]`. -/
def reverseCells {ε : Type u} {α : Type v} (e : ε) : (j i : Nat) → List α → Outcome ε (List α)
  | _, 0, s => .ok s
  | j, i + 1, s =>
    if j < i + 1 then do
      let c ← load e s j
      let d ← load e s (i + 1)
      let s ← store e s j d
      let s ← store e s (i + 1) c
      reverseCells e (j + 1) i s
    else .ok s

section Buffer

variable {ε : Type u} {α : Type v} {e : ε} {s p q : List α} {a b : α} {i : Nat}

theorem load_eq (h : s[i]? = some a) : load e s i = .ok a := by
  rw [load, h]

theorem load_append (hi : i = p.length) : load e (p ++ a :: q) i = .ok a :=
  load_eq (by rw [hi, List.getElem?_append_right (Nat.le_refl _), Nat.sub_self]; rfl)

theorem store_append (hi : i = p.length) : store e (p ++ b :: q) i a = .ok (p ++ a :: q) := by
  have hlt : i < (p ++ b :: q).length := by
    rw [hi, List.length_append, List.length_cons]
    omega
  rw [store, if_pos hlt, hi, List.set_append_right _ _ (Nat.le_refl _), Nat.sub_self]
  rfl

/-- Some cell is there to store to. -/
theorem store_room (hi : i = p.length) (hq : q ≠ []) : store e (p ++ q) i a = .ok (p ++ a :: q.tail) := by
  cases q with
  | nil => exact absurd rfl hq
  | cons b q => exact store_append hi

/-- **`fill`** of the next `n` cells. -/
theorem fill_room {n : Nat} (hi : i = p.length) (hn : n ≤ q.length) :
    fill e a i n (p ++ q) = .ok (p ++ (List.replicate n a ++ q.drop n)) := by
  induction n generalizing p q i with
  | zero => rfl
  | succ n ih =>
    cases q with
    | nil => simp at hn
    | cons b q =>
      unfold fill at ih ⊢
      rw [forRange_succ, store_append hi, ok_bind, List.append_cons,
        ih (by rw [hi, List.length_append, List.length_singleton]) (Nat.le_of_succ_le_succ hn), List.append_assoc,
        List.replicate_succ, List.drop_succ_cons]
      rfl

/-- There are not as many cells. -/
theorem fill_full {n : Nat} (hi : i = p.length) (hn : q.length < n) : fill e a i n (p ++ q) = .error e := by
  induction n generalizing p q i with
  | zero => exact absurd hn (Nat.not_lt_zero _)
  | succ n ih =>
    unfold fill at ih ⊢
    rw [forRange_succ]
    cases q with
    | nil =>
      have hout : ¬ i < (p ++ []).length := by
        rw [List.append_nil]
        omega
      rw [store, if_neg hout]
      rfl
    | cons b q =>
      rw [store_append hi, ok_bind, List.append_cons]
      exact ih (by rw [hi, List.length_append, List.length_singleton]) (Nat.lt_of_succ_lt_succ hn)

/-- The rest of a buffer. -/
theorem fill_append (hi : i = p.length) : fill e a i q.length (p ++ q) = .ok (p ++ List.replicate q.length a) := by
  rw [fill_room hi (Nat.le_refl _), List.drop_length, List.append_nil]

/-- One exchange: the two ends of what is left. -/
theorem reverseCells_ends {m : List α} (hi : i = p.length) :
    reverseCells e i (i + m.length + 1) (p ++ a :: (m ++ b :: q)) =
      reverseCells e (i + 1) (i + m.length) (p ++ b :: (m ++ a :: q)) := by
  have hassoc (c d : α) : p ++ c :: (m ++ d :: q) = (p ++ c :: m) ++ d :: q := by
    rw [List.append_assoc, List.cons_append]
  have hend (c : α) : i + m.length + 1 = (p ++ c :: m).length := by
    rw [hi, List.length_append, List.length_cons, Nat.add_assoc]
  rw [reverseCells, if_pos (by omega), load_append hi, ok_bind, hassoc a b, load_append (hend a), ok_bind, ← hassoc a b,
    store_append hi, ok_bind, hassoc b b, store_append (hend b), ok_bind, ← hassoc b a]

/-- **`reverseCells`** from the first to the last cell of a part. -/
theorem reverseCells_append {m : List α} {j : Nat} (hj : j = p.length) (hi : i + 1 = p.length + m.length) :
    reverseCells e j i (p ++ (m ++ q)) = .ok (p ++ (m.reverse ++ q)) := by
  -- the ends of `m` change places, and then the same is done to what is between them
  induction m using List.bidirectionalRec generalizing p q i j with
  | nil =>
    rw [List.length_nil] at hi
    obtain _ | i := i
    · rfl
    · rw [reverseCells, if_neg (by omega)]
      rfl
  | singleton a =>
    rw [List.length_singleton] at hi
    obtain _ | i := i
    · rfl
    · rw [reverseCells, if_neg (by omega)]
      rfl
  | cons_append a m b ih =>
    have hlast : i = j + m.length + 1 := by
      rw [List.length_cons, List.length_append, List.length_singleton] at hi
      omega
    have hrest := ih (p := p ++ [b]) (q := a :: q) (i := j + m.length) (j := j + 1)
      (by rw [List.length_append, List.length_singleton, hj])
      (by rw [List.length_append, List.length_singleton, hj]; omega)
    calc reverseCells e j i (p ++ (a :: (m ++ [b]) ++ q))
        = reverseCells e j (j + m.length + 1) (p ++ a :: (m ++ b :: q)) := by
          rw [hlast, List.cons_append, List.append_assoc, List.singleton_append]
      _ = reverseCells e (j + 1) (j + m.length) (p ++ [b] ++ (m ++ a :: q)) := by
          rw [reverseCells_ends hj, List.append_assoc, List.singleton_append]
      _ = .ok (p ++ [b] ++ (m.reverse ++ a :: q)) := hrest
      _ = .ok (p ++ ((a :: (m ++ [b])).reverse ++ q)) := by simp

end Buffer

end Myunix.Lib
