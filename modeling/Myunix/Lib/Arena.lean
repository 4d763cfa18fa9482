import Mathlib.Data.List.Pairwise
import Mathlib.Data.List.Nodup
import Mathlib.Algebra.BigOperators.Group.List.Basic
import Mathlib.Algebra.GroupWithZero.Nat

/-!
# Extents packed in an arena

An arena is a range of addresses from `lo` to `hi`. Extents lie in it in the order of their addresses, without overlap
and with gaps between them (`Packed`).

* `packed_insert` and `packed_remove`: an extent is put into a gap, and an extent anywhere is taken out.
* `firstGap` is the search for the first gap that holds `k` addresses: `firstGap_some` says what it finds.
* `Packed.occupied_le`: what the extents occupy and any one gap together fit in the arena; `occupied_le_of_apart` is
  the bound for extents in any order.
-/

namespace Myunix.Lib

universe u

/-- The extents lie in order between `lo` and `hi`. -/
def Packed {α : Type u} (start stop : α → Nat) : Nat → List α → Nat → Prop
  | lo, [], hi => lo ≤ hi
  | lo, e :: es, hi => lo ≤ start e ∧ start e ≤ stop e ∧ Packed start stop (stop e) es hi

/-- Where the last extent ends, or `lo` before the first one. -/
def endOf {α : Type u} (stop : α → Nat) : Nat → List α → Nat
  | lo, [] => lo
  | _, e :: es => endOf stop (stop e) es

/-- Where the first extent starts, or `hi` after the last one. -/
def startOf {α : Type u} (start : α → Nat) (hi : Nat) : List α → Nat
  | [] => hi
  | e :: _ => start e

/-- What the extents occupy. -/
def occupied {α : Type u} (start stop : α → Nat) (es : List α) : Nat := (es.map fun e => stop e - start e).sum

/-- The first gap that holds `k` addresses, as the extents before and after it. -/
def firstGap {α : Type u} (start stop : α → Nat) (k : Nat) : Nat → List α → Nat → Option (List α × List α)
  | lo, [], hi => if lo + k ≤ hi then some ([], []) else none
  | lo, e :: es, hi =>
    if lo + k ≤ start e then some ([], e :: es)
    else (firstGap start stop k (stop e) es hi).map fun s => (e :: s.1, s.2)

section Arena

variable {α : Type u} {start stop : α → Nat} {lo hi k : Nat} {e x : α} {es l₁ l₂ : List α}

theorem endOf_append : endOf stop lo (l₁ ++ l₂) = endOf stop (endOf stop lo l₁) l₂ := by
  induction l₁ generalizing lo with
  | nil => rfl
  | cons e l₁ ih => exact ih

theorem endOf_concat : endOf stop lo (l₁ ++ [e]) = stop e := by rw [endOf_append]; rfl

theorem Packed.le (h : Packed start stop lo es hi) : lo ≤ hi := by
  induction es generalizing lo with
  | nil => exact h
  | cons e es ih =>
    have := ih h.2.2
    have := h.1
    have := h.2.1
    omega

/-- The two parts of an arena. -/
theorem packed_append :
    Packed start stop lo (l₁ ++ l₂) hi ↔
      Packed start stop lo l₁ (endOf stop lo l₁) ∧ Packed start stop (endOf stop lo l₁) l₂ hi := by
  induction l₁ generalizing lo with
  | nil => exact ⟨fun h => ⟨Nat.le_refl lo, h⟩, fun h => h.2⟩
  | cons e l₁ ih =>
    constructor
    · rintro ⟨h1, h2, h3⟩
      exact ⟨⟨h1, h2, (ih.1 h3).1⟩, (ih.1 h3).2⟩
    · rintro ⟨⟨h1, h2, h3⟩, h4⟩
      exact ⟨h1, h2, ih.2 ⟨h3, h4⟩⟩

theorem Packed.startOf_le (h : Packed start stop lo es hi) : lo ≤ startOf start hi es ∧ startOf start hi es ≤ hi := by
  cases es with
  | nil => exact ⟨h, Nat.le_refl hi⟩
  | cons e es =>
    have h1 := h.1
    have h2 := h.2.1
    have h3 := h.2.2.le
    exact ⟨h1, by show start e ≤ hi; omega⟩

/-- A gap is between its two ends. -/
theorem Packed.gap (h : Packed start stop lo (l₁ ++ l₂) hi) :
    lo ≤ endOf stop lo l₁ ∧ endOf stop lo l₁ ≤ startOf start hi l₂ ∧ startOf start hi l₂ ≤ hi :=
  ⟨(packed_append.1 h).1.le, (packed_append.1 h).2.startOf_le⟩

theorem Packed.mono {lo' hi' : Nat} (h : Packed start stop lo es hi) (h1 : lo' ≤ lo) (h2 : hi ≤ hi') :
    Packed start stop lo' es hi' := by
  induction es generalizing lo lo' with
  | nil => exact Nat.le_trans h1 (Nat.le_trans h h2)
  | cons e es ih => exact ⟨Nat.le_trans h1 h.1, h.2.1, ih h.2.2 (Nat.le_refl _)⟩

/-- Every extent is in the arena. -/
theorem Packed.mem (h : Packed start stop lo es hi) (he : e ∈ es) : lo ≤ start e ∧ start e ≤ stop e ∧ stop e ≤ hi := by
  induction es generalizing lo with
  | nil => cases he
  | cons x es ih =>
    obtain ⟨h1, h2, h3⟩ := h
    rcases List.mem_cons.1 he with rfl | he
    · exact ⟨h1, h2, h3.le⟩
    · obtain ⟨h4, h5, h6⟩ := ih h3 he
      exact ⟨by omega, h5, h6⟩

/-- The neighbours of an extent do not reach into it. -/
theorem Packed.around (h : Packed start stop lo (l₁ ++ e :: l₂) hi) :
    (∀ x ∈ l₁, stop x ≤ start e) ∧ ∀ x ∈ l₂, stop e ≤ start x := by
  obtain ⟨h1, h2, h3, h4⟩ := packed_append.1 h
  exact ⟨fun x hx => Nat.le_trans (h1.mem hx).2.2 h2, fun x hx => (h4.mem hx).1⟩

/-- The extents are in order. -/
theorem Packed.pairwise (h : Packed start stop lo es hi) : es.Pairwise fun a b => stop a ≤ start b := by
  induction es generalizing lo with
  | nil => exact List.Pairwise.nil
  | cons e es ih => exact List.pairwise_cons.2 ⟨fun x hx => (h.2.2.mem hx).1, ih h.2.2⟩

/-- Two extents of the arena have nothing in common. -/
theorem Packed.apart (h : Packed start stop lo es hi) (he : e ∈ es) (hx : x ∈ es) :
    e = x ∨ stop e ≤ start x ∨ stop x ≤ start e := by
  induction es generalizing lo with
  | nil => cases he
  | cons y es ih =>
    rcases List.mem_cons.1 he with rfl | he' <;> rcases List.mem_cons.1 hx with rfl | hx'
    · exact Or.inl rfl
    · exact Or.inr (Or.inl (h.2.2.mem hx').1)
    · exact Or.inr (Or.inr (h.2.2.mem he').1)
    · exact ih h.2.2 he' hx'

/-- **An extent is put into a gap.** -/
theorem packed_insert (h : Packed start stop lo (l₁ ++ l₂) hi) (h1 : endOf stop lo l₁ ≤ start e)
    (h2 : start e ≤ stop e) (h3 : stop e ≤ startOf start hi l₂) : Packed start stop lo (l₁ ++ e :: l₂) hi := by
  obtain ⟨hl, hr⟩ := packed_append.1 h
  refine packed_append.2 ⟨hl, h1, h2, ?_⟩
  cases l₂ with
  | nil => exact h3
  | cons x l₂ => exact ⟨h3, hr.2⟩

/-- **An extent is taken out.** -/
theorem packed_remove (h : Packed start stop lo (l₁ ++ e :: l₂) hi) : Packed start stop lo (l₁ ++ l₂) hi := by
  obtain ⟨hl, h1, h2, hr⟩ := packed_append.1 h
  exact packed_append.2 ⟨hl, hr.mono (by omega) (Nat.le_refl hi)⟩

/-! ## Gaps -/

/-- **What the search finds**: a gap of the arena that is large enough, the first one. -/
theorem firstGap_some (h : firstGap start stop k lo es hi = some (l₁, l₂)) :
    es = l₁ ++ l₂ ∧ endOf stop lo l₁ + k ≤ startOf start hi l₂ := by
  induction es generalizing lo l₁ l₂ with
  | nil =>
    rw [firstGap, Option.ite_none_right_eq_some] at h
    obtain ⟨hk, h⟩ := h
    obtain ⟨rfl, rfl⟩ := Prod.mk.inj (Option.some.inj h)
    exact ⟨rfl, hk⟩
  | cons e es ih =>
    rw [firstGap] at h
    split at h
    · rename_i hk
      obtain ⟨rfl, rfl⟩ := Prod.mk.inj (Option.some.inj h)
      exact ⟨rfl, hk⟩
    · obtain ⟨⟨s₁, s₂⟩, hs, heq⟩ := Option.map_eq_some_iff.1 h
      obtain ⟨rfl, rfl⟩ := Prod.mk.inj heq
      obtain ⟨rfl, hk⟩ := ih hs
      exact ⟨rfl, hk⟩

/-- The extents and any one gap fit in the arena. -/
theorem Packed.occupied_le (h : Packed start stop lo (l₁ ++ l₂) hi) :
    lo + occupied start stop (l₁ ++ l₂) + (startOf start hi l₂ - endOf stop lo l₁) ≤ hi := by
  have hpart : ∀ {es : List α} {lo hi : Nat}, Packed start stop lo es hi → lo + occupied start stop es ≤ hi := by
    intro es
    induction es with
    | nil => exact fun h => h
    | cons e es ih =>
      intro lo hi h
      have hrest := ih h.2.2
      have h1 := h.1
      have h2 := h.2.1
      simp only [occupied, List.map_cons, List.sum_cons] at hrest ⊢
      omega
  obtain ⟨hl, hr⟩ := packed_append.1 h
  have h1 := hpart hl
  have h2 : startOf start hi l₂ + occupied start stop l₂ ≤ hi := by
    cases l₂ with
    | nil => exact Nat.le_refl hi
    | cons e l₂ =>
      have hfrom : Packed start stop (start e) (e :: l₂) hi := ⟨Nat.le_refl _, hr.2⟩
      exact hpart hfrom
  have h3 := hr.startOf_le
  simp only [occupied, List.map_append, List.sum_append] at h1 h2 ⊢
  omega

/-- There are not more extents than fit. -/
theorem length_le_occupied (h : ∀ e ∈ es, start e + k ≤ stop e) : es.length * k ≤ occupied start stop es := by
  induction es with
  | nil => simp [occupied]
  | cons e es ih =>
    have he := h e List.mem_cons_self
    have hrest := ih fun x hx => h x (List.mem_cons_of_mem e hx)
    simp only [occupied, List.map_cons, List.sum_cons, List.length_cons, Nat.add_mul] at hrest ⊢
    omega

theorem occupied_insert :
    occupied start stop (l₁ ++ e :: l₂) = occupied start stop (l₁ ++ l₂) + (stop e - start e) := by
  simp only [occupied, List.map_append, List.map_cons, List.sum_append, List.sum_cons]
  omega

/-- **Extents without overlap**, in any order, fit below where they end. -/
theorem occupied_le_of_apart (hap : es.Pairwise fun a b => stop a ≤ start b ∨ stop b ≤ start a)
    (hin : ∀ e ∈ es, stop e ≤ hi) : occupied start stop es ≤ hi := by
  -- the addresses of the extents, one after the other
  have hlen : (es.flatMap fun e => List.range' (start e) (stop e - start e)).length = occupied start stop es := by
    rw [List.length_flatMap, occupied]
    congr 1
    exact List.map_congr_left fun e _ => List.length_range'
  have hnodup : (es.flatMap fun e => List.range' (start e) (stop e - start e)).Nodup := by
    refine List.nodup_flatMap.2 ⟨fun e _ => List.nodup_range', hap.imp fun h a ha hb => ?_⟩
    rw [List.mem_range'_1] at ha hb
    omega
  have hsub : (es.flatMap fun e => List.range' (start e) (stop e - start e)) ⊆ List.range hi := by
    intro a ha
    obtain ⟨e, he, ha⟩ := List.mem_flatMap.1 ha
    rw [List.mem_range'_1] at ha
    have := hin e he
    rw [List.mem_range]
    omega
  rw [← hlen]
  exact (List.subperm_of_subset hnodup hsub).length_le.trans_eq List.length_range

end Arena

end Myunix.Lib
