import Mathlib.Data.Finset.Card
import Mathlib.Order.Interval.Finset.Nat

/-!
# Region allocators

An allocator hands out regions of consecutive cells of a bounded space and takes them back. Its abstract state is the
set of cells in use and the regions that are live; `AllocInv base bound` says that the cells in use are those of `base`
and of the live regions, that live regions are apart from each other and from `base`, and that all lie below `bound`.

Taking a region of free cells (`AllocInv.alloc`) and giving back a live one (`AllocInv.free`) keep this, and the number
of free cells and live cells together is constant (`AllocInv.count`).
-/

namespace Myunix.Lib

/-- The cells `start, …, start + size - 1`. -/
structure Region where
  start : Nat
  size : Nat
deriving DecidableEq, Repr

/-- The cells of a region. -/
def Region.cells (r : Region) : Finset Nat := Finset.Ico r.start (r.start + r.size)

theorem Region.mem_cells {r : Region} {b : Nat} : b ∈ r.cells ↔ r.start ≤ b ∧ b < r.start + r.size := Finset.mem_Ico

/-- The cells of all regions of a list. -/
def cellsOf : List Region → Finset Nat
  | [] => ∅
  | r :: rs => r.cells ∪ cellsOf rs

theorem mem_cellsOf {b : Nat} {rs : List Region} : b ∈ cellsOf rs ↔ ∃ r ∈ rs, b ∈ r.cells := by
  induction rs with
  | nil => simp [cellsOf]
  | cons r rs ih => simp [cellsOf, ih]

/-- Total size of the regions. -/
def totalSize : List Region → Nat
  | [] => 0
  | r :: rs => r.size + totalSize rs

theorem card_cellsOf {rs : List Region} (h : rs.Pairwise fun r s => Disjoint r.cells s.cells) :
    (cellsOf rs).card = totalSize rs := by
  induction rs with
  | nil => rfl
  | cons r rs ih =>
    rw [List.pairwise_cons] at h
    have hd : Disjoint r.cells (cellsOf rs) := by
      rw [Finset.disjoint_left]
      intro b hb hb'
      obtain ⟨s, hs, hbs⟩ := mem_cellsOf.1 hb'
      exact Finset.disjoint_left.1 (h.1 s hs) hb hbs
    have hr : r.cells.card = r.size := by simp [Region.cells]
    simp only [cellsOf, Finset.card_union_of_disjoint hd, ih h.2, hr, totalSize]

/-- The cells in use are those of `base` and of the live regions, which are apart. -/
structure AllocInv (base : Finset Nat) (bound : Nat) (used : Finset Nat) (live : List Region) : Prop where
  used_eq : used = base ∪ cellsOf live
  apart : live.Pairwise fun r s => Disjoint r.cells s.cells
  base_apart : ∀ r ∈ live, Disjoint r.cells base
  below : ∀ r ∈ live, ∀ b ∈ r.cells, b < bound

namespace AllocInv

variable {base used used' : Finset Nat} {bound : Nat} {live : List Region} {r : Region}

theorem init (base : Finset Nat) (bound : Nat) : AllocInv base bound base [] :=
  ⟨by simp [cellsOf], List.Pairwise.nil, by simp, by simp⟩

/-- Taking a region of cells that are not in use. -/
theorem alloc (h : AllocInv base bound used live) (hfree : ∀ b ∈ r.cells, b ∉ used) (hlt : ∀ b ∈ r.cells, b < bound)
    (hused : ∀ b, b ∈ used' ↔ b ∈ used ∨ b ∈ r.cells) : AllocInv base bound used' (r :: live) := by
  have hfree' : ∀ b ∈ r.cells, b ∉ base ∧ b ∉ cellsOf live := by
    intro b hb
    have := hfree b hb
    rw [h.used_eq, Finset.mem_union, not_or] at this
    exact this
  refine ⟨?_, List.pairwise_cons.2 ⟨fun s hs => ?_, h.apart⟩, ?_, ?_⟩
  · ext b
    rw [hused, h.used_eq]
    simp only [cellsOf, Finset.mem_union]
    tauto
  · rw [Finset.disjoint_left]
    intro b hb hbs
    exact (hfree' b hb).2 (mem_cellsOf.2 ⟨s, hs, hbs⟩)
  · intro s hs
    rcases List.mem_cons.1 hs with rfl | hs
    · rw [Finset.disjoint_left]
      exact fun b hb => (hfree' b hb).1
    · exact h.base_apart s hs
  · intro s hs
    rcases List.mem_cons.1 hs with rfl | hs
    · exact hlt
    · exact h.below s hs

/-- Giving a live region back. -/
theorem free (h : AllocInv base bound used live) (hr : r ∈ live)
    (hused : ∀ b, b ∈ used' ↔ b ∈ used ∧ b ∉ r.cells) : AllocInv base bound used' (live.erase r) := by
  have hperm := List.perm_cons_erase hr
  have hapart : (r :: live.erase r).Pairwise fun r s => Disjoint r.cells s.cells :=
    (hperm.pairwise_iff fun {_ _} hd => Disjoint.symm hd).1 h.apart
  rw [List.pairwise_cons] at hapart
  have hmem : ∀ s, s ∈ live ↔ s = r ∨ s ∈ live.erase r := fun s => by rw [hperm.mem_iff, List.mem_cons]
  refine ⟨?_, hapart.2, fun s hs => h.base_apart s ((hmem s).2 (Or.inr hs)),
    fun s hs => h.below s ((hmem s).2 (Or.inr hs))⟩
  ext b
  rw [hused, h.used_eq]
  simp only [Finset.mem_union, mem_cellsOf]
  constructor
  · rintro ⟨hb | ⟨s, hs, hbs⟩, hn⟩
    · exact Or.inl hb
    · rcases (hmem s).1 hs with rfl | hs
      · exact absurd hbs hn
      · exact Or.inr ⟨s, hs, hbs⟩
  · rintro (hb | ⟨s, hs, hbs⟩)
    · exact ⟨Or.inl hb, fun hbr => Finset.disjoint_left.1 (h.base_apart r hr) hbr hb⟩
    · exact ⟨Or.inr ⟨s, (hmem s).2 (Or.inr hs), hbs⟩, fun hbr => Finset.disjoint_left.1 (hapart.1 s hs) hbr hbs⟩

/-- Free cells and live cells add up to the cells that were free at the start. -/
theorem count (h : AllocInv base bound used live) :
    (Finset.range bound \ used).card + totalSize live = (Finset.range bound \ base).card := by
  have hsub : cellsOf live ⊆ Finset.range bound \ base := by
    intro b hb
    obtain ⟨r, hr, hbr⟩ := mem_cellsOf.1 hb
    rw [Finset.mem_sdiff, Finset.mem_range]
    exact ⟨h.below r hr b hbr, Finset.disjoint_left.1 (h.base_apart r hr) hbr⟩
  have heq : Finset.range bound \ used = (Finset.range bound \ base) \ cellsOf live := by
    rw [h.used_eq, Finset.sdiff_union_distrib]
    ext b
    simp only [Finset.mem_inter, Finset.mem_sdiff]
    tauto
  have hle := Finset.card_le_card hsub
  rw [heq, Finset.card_sdiff_of_subset hsub, ← card_cellsOf h.apart]
  omega

end AllocInv

end Myunix.Lib
