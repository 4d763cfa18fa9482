import Mathlib.Data.List.Perm.Basic
import Mathlib.Data.List.Count

/-!
# Heaps that log what is freed

An allocator that has memory for every request returns a new block each time, so a block is known by its number. `Heap`
counts the blocks and logs the pointers that were given back.

Between two heaps there is a law of conservation: what was freed and what is still held is what was taken, and whatever
was freed by mistake (`Ledger`). A run that has to give back what it takes keeps the books along its steps
(`Ledger.malloc`, `Ledger.free`), and at the end they say whether it did (`Ledger.balanced_iff`).
-/

namespace Myunix.Lib

/-- What is passed to `free`: a block, or a pointer to anything else. -/
inductive HeapPtr
  | block (n : Nat)
  | other
deriving DecidableEq, Repr

/-- The number of the next block, and the pointers that were freed, the last one first. -/
structure Heap where
  next : Nat
  freed : List HeapPtr
deriving DecidableEq, Repr

namespace Heap

/-- A new block. -/
def malloc (h : Heap) : Nat × Heap := (h.next, { h with next := h.next + 1 })

/-- Give a pointer back. -/
def free (h : Heap) (p : HeapPtr) : Heap := { h with freed := p :: h.freed }

/-- Give pointers back, one after the other. -/
def freeAll (h : Heap) (ps : List HeapPtr) : Heap := ps.foldl free h

@[simp] theorem malloc_fst (h : Heap) : h.malloc.1 = h.next := rfl

@[simp] theorem malloc_next (h : Heap) : h.malloc.2.next = h.next + 1 := rfl

@[simp] theorem malloc_freed (h : Heap) : h.malloc.2.freed = h.freed := rfl

@[simp] theorem free_next (h : Heap) (p : HeapPtr) : (h.free p).next = h.next := rfl

@[simp] theorem free_freed (h : Heap) (p : HeapPtr) : (h.free p).freed = p :: h.freed := rfl

@[simp] theorem freeAll_nil (h : Heap) : h.freeAll [] = h := rfl

@[simp] theorem freeAll_cons (h : Heap) (p : HeapPtr) (ps : List HeapPtr) :
    h.freeAll (p :: ps) = (h.free p).freeAll ps := rfl

/-- The blocks taken since `h`. -/
def taken (h h' : Heap) : List HeapPtr := (List.range' h.next (h'.next - h.next)).map .block

/-- **Every block taken since `h` was freed once**, and nothing else was freed. -/
def Balanced (h h' : Heap) : Prop := h.next ≤ h'.next ∧ h'.freed.Perm (taken h h' ++ h.freed)

instance (h h' : Heap) : Decidable (Balanced h h') :=
  inferInstanceAs (Decidable (h.next ≤ h'.next ∧ h'.freed.Perm (taken h h' ++ h.freed)))

end Heap

/-- **The books** since `h`: the pointers freed and the ones held are the blocks taken and the pointers `stray`, which
were freed without having been taken. -/
structure Ledger (h h' : Heap) (held stray : List HeapPtr) : Prop where
  le : h.next ≤ h'.next
  books : (h'.freed ++ held).Perm (Heap.taken h h' ++ h.freed ++ stray)

namespace Ledger

open Heap

variable {h h' : Heap} {held held' stray : List HeapPtr} {p : HeapPtr}

theorem refl (h : Heap) : Ledger h h [] [] := by
  refine ⟨Nat.le_refl _, ?_⟩
  unfold taken
  rw [Nat.sub_self]
  simp

/-- A block is taken. -/
theorem malloc (hl : Ledger h h' held stray) : Ledger h h'.malloc.2 (.block h'.malloc.1 :: held) stray := by
  obtain ⟨hle, hbooks⟩ := hl
  refine ⟨Nat.le_succ_of_le hle, ?_⟩
  have htaken : taken h h'.malloc.2 = taken h h' ++ [.block h'.next] := by
    unfold taken
    rw [malloc_next, Nat.succ_sub hle, List.range'_1_concat, List.map_append, Nat.add_sub_cancel' hle]
    rfl
  rw [htaken, malloc_freed, malloc_fst]
  rw [List.perm_iff_count] at hbooks ⊢
  intro q
  have hq := hbooks q
  simp only [List.count_append, List.count_cons, List.count_nil] at hq ⊢
  omega

/-- A pointer that is held is freed. -/
theorem free (hl : Ledger h h' (p :: held) stray) : Ledger h (h'.free p) held stray :=
  ⟨hl.le, List.perm_middle.symm.trans hl.books⟩

/-- A pointer that is not held, but will be freed. -/
theorem borrow (hl : Ledger h h' held stray) (p : HeapPtr) : Ledger h h' (p :: held) (p :: stray) :=
  ⟨hl.le, List.perm_middle.trans ((hl.books.cons p).trans List.perm_middle.symm)⟩

/-- The books do not know an order. -/
theorem perm (hl : Ledger h h' held stray) (hp : held.Perm held') : Ledger h h' held' stray :=
  ⟨hl.le, (hp.symm.append_left _).trans hl.books⟩

/-- Pointers that are held are freed. -/
theorem freeAll {ps : List HeapPtr} (hl : Ledger h h' (ps ++ held) stray) : Ledger h (h'.freeAll ps) held stray := by
  induction ps generalizing h' with
  | nil => exact hl
  | cons p ps ih => exact ih hl.free

/-- **What the books say at the end.** -/
theorem balanced_iff (hl : Ledger h h' held stray) : Balanced h h' ↔ held.Perm stray := by
  constructor
  · rintro ⟨-, hfreed⟩
    have hbooks := (hfreed.append_right held).symm.trans hl.books
    exact (List.perm_append_left_iff _).1 hbooks
  · intro hp
    exact ⟨hl.le, (List.perm_append_right_iff held).1 (hl.books.trans (hp.symm.append_left _))⟩

end Ledger

namespace Heap

variable {h h' : Heap} {b : Nat}

theorem mem_taken : .block b ∈ taken h h' ↔ h.next ≤ b ∧ b < h'.next := by
  unfold taken
  rw [List.mem_map_of_injective fun _ _ heq => HeapPtr.block.inj heq, List.mem_range'_1]
  omega

/-- A block that was taken and not freed. -/
structure Live (b : Nat) (h : Heap) : Prop where
  lt : b < h.next
  notFreed : .block b ∉ h.freed

theorem Live.malloc (hb : Live b h) : Live b h.malloc.2 := ⟨Nat.lt_succ_of_lt hb.lt, hb.notFreed⟩

/-- A new block is another one. -/
theorem Live.malloc_ne (hb : Live b h) : h.malloc.1 ≠ b := Nat.ne_of_gt hb.lt

theorem Live.free {p : HeapPtr} (hb : Live b h) (hne : p ≠ .block b) : Live b (h.free p) := by
  refine ⟨hb.lt, fun hmem => ?_⟩
  rcases List.mem_cons.1 hmem with heq | hmem
  · exact hne heq.symm
  · exact hb.notFreed hmem

theorem Live.freeAll {ps : List HeapPtr} (hb : Live b h) (hne : .block b ∉ ps) : Live b (h.freeAll ps) := by
  induction ps generalizing h with
  | nil => exact hb
  | cons p ps ih =>
    rw [List.mem_cons, not_or] at hne
    exact ih (hb.free (Ne.symm hne.1)) hne.2

/-- A new block is live, if only blocks were freed that had been taken. -/
theorem live_malloc (hfreed : ∀ c, .block c ∈ h.freed → c < h.next) : Live h.malloc.1 h.malloc.2 :=
  ⟨Nat.lt_succ_self _, fun hmem => Nat.lt_irrefl _ (hfreed _ hmem)⟩

/-- A block taken since `h` that is live. -/
theorem Live.not_balanced (hb : Live b h') (hge : h.next ≤ b) : ¬ Balanced h h' := by
  intro hbal
  exact hb.notFreed (hbal.2.mem_iff.2 (List.mem_append_left _ (mem_taken.2 ⟨hge, hb.lt⟩)))

theorem balanced_refl (h : Heap) : Balanced h h := (Ledger.refl h).balanced_iff.2 (List.Perm.refl [])

end Heap

end Myunix.Lib
