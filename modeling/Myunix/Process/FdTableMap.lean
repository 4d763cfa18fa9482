import Myunix.Process.FdTable
import Mathlib.Order.Bounds.Basic

/-!
# Descriptor tables as finite maps

What a table is for: a map from descriptors to entries (`FdMap`) with a lookup, a store, an allocation at the lowest
free descriptor and a copy (`fdSpec`). The slots of a table, `NULL` beyond its array, are its map (`FdTable.map`).

`length`, `capacity` and the `NULL` gaps do not agree on where a table ends: `fd_table_set(length, e)` fills the slot
`length` and leaves `length` as it is, so that this slot counts as taken for `fd_table_get` and as free for
`fd_table_append` and `fd_table_clone`; a store at or beyond `capacity` writes behind the grown array. `FdCallOk` says
when a call stays clear of these cases. Under it every call acts on the map as specified (`fdStep_refines`), and so
does every run (`fd_runs_refine_maps`).
-/

namespace Myunix.Process

open Lib

/-! ## The specification -/

/-- A finite map from descriptors to entries. -/
abbrev FdMap := Nat → Option FdPtr

/-- The calls on a list of maps. -/
def fdSpec (ms : List FdMap) : FdOp → FdResult → List FdMap → Prop
  | .set t i entry, r, ms' => ∃ m, ms[t]? = some m ∧
      ms' = ms.set t (Function.update m i.toNat entry) ∧ r = .index i.toNat
  | .append t entry, r, ms' => ∃ m k, ms[t]? = some m ∧ IsLeast {j | m j = none} k ∧
      ms' = ms.set t (Function.update m k (some entry)) ∧ r = .index k
  | .get t i, r, ms' => ∃ m, ms[t]? = some m ∧ ms' = ms ∧ r = .entry (m i.toNat)
  | .clone t, r, ms' => ∃ m, ms[t]? = some m ∧ ms' = ms ++ [m] ∧ r = .table ms.length

/-- The map of a table. -/
def FdTable.map (t : FdTable) : FdMap := fun i => t.entries[i]?.join

/-- The number of slots that hold `p`. -/
def FdTable.slots (t : FdTable) (p : FdPtr) : Nat := t.entries.count (some p)

/-- The maps of all tables. -/
def FdState.maps (s : FdState) : List FdMap := s.tables.map FdTable.map

/-- The array has `capacity` slots, and no slot after `length` is taken. -/
structure FdTable.WF (t : FdTable) : Prop where
  entries_length : t.entries.length = t.capacity
  length_le : t.length ≤ t.capacity
  capacity_lt : t.capacity < 0x40000000
  capacity_pos : 0 < t.capacity
  tail : ∀ i, t.length < i → t.map i = none

/-- When a call does on the slots what it should do on the map. -/
def FdCallOk (s : FdState) : FdOp → Prop
  | .set t i (some _) => ∃ tab, s.tables[t]? = some tab ∧ i.toNat < tab.capacity
  | .set t _ none => ∃ tab, s.tables[t]? = some tab
  | .append t _ => ∃ tab, s.tables[t]? = some tab ∧
      ((∃ j < tab.length, tab.map j = none) ∨ (tab.length < tab.capacity ∧ tab.map tab.length = none) ∨
        (tab.length = tab.capacity ∧ tab.capacity + 8 < 0x40000000))
  | .get t i => ∃ tab, s.tables[t]? = some tab ∧ ¬ (i.toNat = tab.length ∧ tab.length = tab.capacity)
  | .clone t => ∃ tab, s.tables[t]? = some tab ∧ ∀ i e, tab.map i = some e → i < tab.length ∧ i < 16

/-! ## Slots -/

section Slots

variable {t : FdTable} {i : Nat}

theorem slot_of_lt (h : i < t.entries.length) : t.slot i = .ok (t.map i) := by
  simp [FdTable.slot, FdTable.map, List.getElem?_eq_getElem h]

theorem getElem_eq_map (h : i < t.entries.length) : t.map i = t.entries[i] := by
  simp [FdTable.map, List.getElem?_eq_getElem h]

theorem map_of_le (h : t.entries.length ≤ i) : t.map i = none := by
  simp [FdTable.map, List.getElem?_eq_none h]

theorem setSlot_of_lt (p : Option FdPtr) (h : i < t.entries.length) :
    t.setSlot i p = .ok { t with entries := t.entries.set i p } := if_pos h

theorem map_set (p : Option FdPtr) (h : i < t.entries.length) :
    FdTable.map { t with entries := t.entries.set i p } = Function.update t.map i p := by
  funext j
  by_cases hj : j = i
  · subst hj; simp [FdTable.map, h]
  · simp [FdTable.map, Function.update_of_ne hj, List.getElem?_set_ne (Ne.symm hj)]

/-- A store moves one slot from the old entry to the new one. -/
theorem slots_set (v : Option FdPtr) (p : FdPtr) (h : i < t.entries.length) :
    (t.entries.set i v).count (some p) + (if t.map i = some p then 1 else 0) =
      t.slots p + if v = some p then 1 else 0 := by
  have hle : (if t.map i = some p then 1 else 0) ≤ t.slots p := by
    split
    · rename_i heq
      rw [getElem_eq_map h] at heq
      exact List.count_pos_iff.2 (heq ▸ List.getElem_mem h)
    · exact Nat.zero_le _
  rw [List.count_set h, ← getElem_eq_map h]
  simp only [beq_iff_eq]
  unfold FdTable.slots at hle ⊢
  omega

theorem kcallocSlots_of_lt {n : Nat} (h : n < 0x40000000) : kcallocSlots n = n := by
  unfold kcallocSlots; omega

end Slots

/-! ## One lemma per function -/

section Functions

variable {t : FdTable}

theorem fdTableNew_ok : ∃ t, fdTableNew = .ok t ∧ t.WF ∧ t.map = (fun _ => none) ∧ t.capacity = 16 ∧
    t.refcount = 1 ∧ ∀ p, t.slots p = 0 := by
  have hmap : FdTable.map ⟨List.replicate 16 none, 0, 16, 1⟩ = fun _ => none := by
    funext i
    simp only [FdTable.map, List.getElem?_replicate]
    split <;> rfl
  exact ⟨⟨List.replicate 16 none, 0, 16, 1⟩, rfl,
    ⟨rfl, by decide, by decide, by decide, fun i _ => by rw [hmap]⟩, hmap, rfl,
    rfl, fun p => by simp [FdTable.slots]⟩

/-- Storing in a slot of the array, with `length` raised to at least that slot. -/
theorem WF.store (ht : t.WF) {i n : Nat} (p : Option FdPtr) (hi : i < t.capacity) (hn : t.length ≤ n)
    (hin : p = none ∨ i ≤ n) (hnc : n ≤ t.capacity) :
    FdTable.WF { t with entries := t.entries.set i p, length := n } := by
  refine ⟨by simpa using ht.entries_length, hnc, ht.capacity_lt, ht.capacity_pos, fun j hj => ?_⟩
  have hm : FdTable.map { t with entries := t.entries.set i p, length := n } = Function.update t.map i p :=
    map_set p (by rw [ht.entries_length]; exact hi)
  rw [hm]
  by_cases hji : j = i
  · subst hji
    simp only at hj
    rcases hin with rfl | hin
    · simp
    · omega
  · rw [Function.update_of_ne hji]
    exact ht.tail j (by simp only at hj; omega)

/-- The table after a slot is cleared. -/
theorem wf_clear (ht : t.WF) (i : Nat) :
    FdTable.WF { t with entries := t.entries.set i none } ∧
      FdTable.map { t with entries := t.entries.set i none } = Function.update t.map i none := by
  by_cases hi : i < t.capacity
  · exact ⟨WF.store ht none hi (Nat.le_refl _) (Or.inl rfl) ht.length_le,
      map_set none (by rw [ht.entries_length]; exact hi)⟩
  · have hle : t.entries.length ≤ i := by rw [ht.entries_length]; omega
    rw [List.set_eq_of_length_le hle, ← map_of_le (t := t) hle, Function.update_eq_self]
    exact ⟨ht, rfl⟩

/-- The table after an entry is stored inside the array. -/
theorem wf_put (ht : t.WF) (e : FdPtr) {i : Nat} (hi : i < t.capacity) :
    FdTable.WF { t with entries := t.entries.set i (some e), length := max t.length i } ∧
      FdTable.map { t with entries := t.entries.set i (some e), length := max t.length i } =
        Function.update t.map i (some e) := by
  refine ⟨WF.store ht (some e) hi (Nat.le_max_left _ _) (Or.inr (Nat.le_max_right _ _)) ?_, ?_⟩
  · have := ht.length_le
    omega
  · exact map_set (t := t) (some e) (by rw [ht.entries_length]; exact hi)

/-- The old entry of slot `i` loses its reference. -/
def freeOld (h : FdHeap) (t : FdTable) (i : Nat) : FdHeap := (t.map i).elim h (fdFree h)

/-- Clearing a slot always works. -/
theorem fdTableSet_none (ht : t.WF) (h : FdHeap) (i : Nat) :
    fdTableSet h t i none = .ok (i, freeOld h t i, { t with entries := t.entries.set i none }) := by
  by_cases hi : i < t.capacity
  · have hi' : i < t.entries.length := by rw [ht.entries_length]; exact hi
    cases hs : t.map i with
    | none =>
      have hget : t.entries[i] = none := by rw [← getElem_eq_map hi', hs]
      have hsame : t.entries.set i none = t.entries := by rw [← hget, List.set_getElem_self]
      simp [fdTableSet, hi, slot_of_lt hi', hs, hsame, freeOld, pure, Except.pure]
    | some old => simp [fdTableSet, hi, slot_of_lt hi', hs, setSlot_of_lt none hi', freeOld, pure, Except.pure]
  · have hs : t.map i = none := map_of_le (by rw [ht.entries_length]; omega)
    have hsame : t.entries.set i none = t.entries := List.set_eq_of_length_le (by rw [ht.entries_length]; omega)
    simp [fdTableSet, hi, hs, hsame, freeOld, pure, Except.pure]

/-- Storing an entry inside the array works; `length` never exceeds the slot by less than it should. -/
theorem fdTableSet_some (ht : t.WF) (h : FdHeap) {i : Nat} (e : FdPtr) (hi : i < t.capacity) :
    fdTableSet h t i (some e) =
      .ok (i, freeOld h t i, { t with entries := t.entries.set i (some e), length := max t.length i }) := by
  have hi' : i < t.entries.length := by rw [ht.entries_length]; exact hi
  have hlen : (if t.length < i then { t with entries := t.entries.set i (some e), length := i }
      else { t with entries := t.entries.set i (some e) }) =
      { t with entries := t.entries.set i (some e), length := max t.length i } := by
    split
    · simp only [FdTable.mk.injEq, true_and, and_true]; omega
    · simp only [FdTable.mk.injEq, true_and, and_true]; omega
  cases hs : t.map i with
  | none => simp [fdTableSet, hi, slot_of_lt hi', hs, setSlot_of_lt _ hi', freeOld, pure, Except.pure, ← hlen]
  | some old => simp [fdTableSet, hi, slot_of_lt hi', hs, setSlot_of_lt _ hi', freeOld, pure, Except.pure, ← hlen]

/-- The search loop of `fd_table_append` finds the first gap, or there is none. -/
theorem appendGap_spec (ht : t.WF) (n i : Nat) (hn : i + n ≤ t.length) :
    (∃ k, appendGap t i n = .ok (some k) ∧ i ≤ k ∧ k < i + n ∧ t.map k = none ∧
      ∀ j, i ≤ j → j < k → t.map j ≠ none) ∨
    (appendGap t i n = .ok none ∧ ∀ j, i ≤ j → j < i + n → t.map j ≠ none) := by
  induction n generalizing i with
  | zero => exact Or.inr ⟨rfl, fun j h1 h2 => by omega⟩
  | succ n ih =>
    have hi : i < t.entries.length := by have := ht.length_le; rw [ht.entries_length]; omega
    cases hs : t.map i with
    | none =>
      exact Or.inl ⟨i, by simp [appendGap, slot_of_lt hi, hs, pure, Except.pure], Nat.le_refl i, by omega, hs,
        fun j h1 h2 => by omega⟩
    | some old =>
      have heq : appendGap t i (n + 1) = appendGap t (i + 1) n := by
        simp [appendGap, slot_of_lt hi, hs]
      have hne : ∀ j, i ≤ j → ¬ i + 1 ≤ j → t.map j ≠ none := by
        intro j h1 h2
        rw [show j = i by omega, hs]; simp
      rw [heq]
      rcases ih (i + 1) (by omega) with ⟨k, hk, h1, h2, h3, h4⟩ | ⟨hk, h4⟩
      · refine Or.inl ⟨k, hk, by omega, by omega, h3, fun j hj hjk => ?_⟩
        by_cases hij : i + 1 ≤ j
        · exact h4 j hij hjk
        · exact hne j hj hij
      · refine Or.inr ⟨hk, fun j hj hjk => ?_⟩
        by_cases hij : i + 1 ≤ j
        · exact h4 j hij (by omega)
        · exact hne j hj hij

/-- A full table grows by eight empty slots. -/
theorem grow_ok (ht : t.WF) (hfull : t.length = t.capacity) (hc : t.capacity + 8 < 0x40000000) :
    ∃ t', fdTableRealloc { t with capacity := (t.capacity + 8) % 0x100000000 } = .ok t' ∧ t'.WF ∧
      t'.map = t.map ∧ t'.length = t.length ∧ t'.capacity = t.capacity + 8 ∧ t'.refcount = t.refcount ∧
      ∀ p, t'.slots p = t.slots p := by
  have hmod : (t.capacity + 8) % 0x100000000 = t.capacity + 8 := by omega
  have hlen := ht.entries_length
  let t' : FdTable := { t with entries := t.entries ++ List.replicate 8 none, capacity := t.capacity + 8 }
  have hmap : t'.map = t.map := by
    funext j
    by_cases hj : j < t.entries.length
    · simp [FdTable.map, t', List.getElem?_append_left hj]
    · rw [map_of_le (t := t) (Nat.le_of_not_lt hj)]
      simp only [FdTable.map, t', List.getElem?_append_right (Nat.le_of_not_lt hj), List.getElem?_replicate]
      split <;> rfl
  refine ⟨t', ?_, ⟨by simp [t', hlen], ?_, hc, Nat.succ_pos _, fun i hi => ?_⟩, hmap, rfl, rfl, rfl, fun p => ?_⟩
  · have htake : t.entries.take t.capacity = t.entries := List.take_of_length_le (by omega)
    have hslots : kcallocSlots (t.capacity + 8) = t.capacity + 8 := kcallocSlots_of_lt hc
    have hcopied : kcallocSlots t.capacity = t.capacity := kcallocSlots_of_lt ht.capacity_lt
    have hpos := ht.capacity_pos
    have hnil : t.entries ≠ [] := List.ne_nil_of_length_pos (by omega)
    rw [hmod, fdTableRealloc, if_neg hnil]
    simp only [hfull, hcopied, hslots]
    rw [assert_bind (by omega), if_pos (by omega), htake]
    simp [t', pure, Except.pure, hfull]
  · simp only [t']; omega
  · rw [hmap]; exact ht.tail i hi
  · simp [FdTable.slots, t', List.count_append]

/-- `fd_table_append` stores in the first gap below `length`, or in the slot `length`, wherever that slot is in the
array. -/
theorem fdTableAppend_store (ht : t.WF) (e : FdPtr)
    (hroom : (∃ j < t.length, t.map j = none) ∨ t.length < t.capacity ∨
      (t.length = t.capacity ∧ t.capacity + 8 < 0x40000000)) :
    ∃ k t', fdTableAppend t e = .ok (k, t') ∧ t'.WF ∧ t'.refcount = t.refcount ∧
      t'.map = Function.update t.map k (some e) ∧ (∀ j < k, t.map j ≠ none) ∧
      (t.map k ≠ none → k = t.length ∧ t.length < t.capacity ∧ ∀ j < t.length, t.map j ≠ none) ∧
      ∀ p, t'.slots p + (if t.map k = some p then 1 else 0) = t.slots p + if some e = some p then 1 else 0 := by
  have hle := ht.length_le
  rcases appendGap_spec ht t.length 0 (by omega) with ⟨k, hk, -, h2, h3, h4⟩ | ⟨hk, h4⟩
  · -- a gap below `length`
    have hkc : k < t.entries.length := by rw [ht.entries_length]; omega
    refine ⟨k, { t with entries := t.entries.set k (some e) }, ?_,
      WF.store ht (some e) (by omega) (Nat.le_refl _) (Or.inr (by omega)) hle, rfl, map_set (some e) hkc,
      fun j hj => h4 j (Nat.zero_le j) hj, fun hne => absurd h3 hne, fun p => slots_set (some e) p hkc⟩
    simp [fdTableAppend, hk, setSlot_of_lt _ hkc, pure, Except.pure]
  · -- no gap: the slot `length`, after growing if the array is full
    have hbelow : ∀ j < t.length, t.map j ≠ none := fun j hj => h4 j (Nat.zero_le j) (by omega)
    by_cases hlt : t.length < t.capacity
    · have hi' : t.length < t.entries.length := by rw [ht.entries_length]; exact hlt
      refine ⟨t.length, { t with entries := t.entries.set t.length (some e), length := t.length + 1 }, ?_,
        WF.store ht (some e) hlt (Nat.le_succ _) (Or.inr (Nat.le_succ _)) (by omega), rfl, map_set _ hi', hbelow,
        fun _ => ⟨rfl, hlt, hbelow⟩, fun p => slots_set (some e) p hi'⟩
      have hne : t.length ≠ t.capacity := by omega
      simp [fdTableAppend, hk, hne, setSlot_of_lt _ hi', pure, Except.pure]
    · obtain ⟨hfull, hc⟩ : t.length = t.capacity ∧ t.capacity + 8 < 0x40000000 := by
        rcases hroom with ⟨j, hj, hjn⟩ | hlt' | hfull
        · exact absurd hjn (hbelow j hj)
        · exact absurd hlt' hlt
        · exact hfull
      obtain ⟨t', hgrow, hwf, hmap, hlen, hcap, href, hslots⟩ := grow_ok ht hfull hc
      have hl : t.map t.length = none := map_of_le (by rw [ht.entries_length]; omega)
      have hi' : t'.length < t'.entries.length := by rw [hwf.entries_length]; omega
      refine ⟨t.length, { t' with entries := t'.entries.set t'.length (some e), length := t'.length + 1 }, ?_,
        WF.store hwf (some e) (by omega) (Nat.le_succ _) (Or.inr (Nat.le_succ _)) (by omega), href, ?_, hbelow,
        fun hne => absurd hl hne, fun p => ?_⟩
      · simp only [fdTableAppend, hk, ok_bind, if_pos hfull, hgrow, setSlot_of_lt _ hi']
        simp [pure, Except.pure, hlen]
      · rw [← hmap, ← hlen]; exact map_set (t := t') _ hi'
      · rw [← hslots p, ← hmap, ← hlen]
        exact slots_set (some e) p hi'

/-- `fd_table_append` takes the lowest free slot when the slot `length` is not taken behind its back. -/
theorem fdTableAppend_ok (ht : t.WF) (e : FdPtr)
    (hok : (∃ j < t.length, t.map j = none) ∨ (t.length < t.capacity ∧ t.map t.length = none) ∨
      (t.length = t.capacity ∧ t.capacity + 8 < 0x40000000)) :
    ∃ k t', fdTableAppend t e = .ok (k, t') ∧ t'.WF ∧ t'.refcount = t.refcount ∧ IsLeast {j | t.map j = none} k ∧
      t'.map = Function.update t.map k (some e) ∧ ∀ p, t'.slots p = t.slots p + if some e = some p then 1 else 0 := by
  obtain ⟨k, t', happ, hwf, href, hmap, hbelow, htaken, hslots⟩ :=
    fdTableAppend_store ht e (hok.imp id (Or.imp And.left id))
  have hk : t.map k = none := by
    by_contra hne
    obtain ⟨rfl, hlt, hfull⟩ := htaken hne
    rcases hok with ⟨j, hj, hjn⟩ | ⟨-, hl⟩ | ⟨hfull', -⟩
    · exact hfull j hj hjn
    · exact hne hl
    · omega
  refine ⟨k, t', happ, hwf, href, ⟨hk, fun j hj => ?_⟩, hmap, fun p => ?_⟩
  · by_contra hjk
    exact hbelow j (by omega) hj
  · have := hslots p
    rw [hk, if_neg (by simp)] at this
    exact this

/-- `fd_table_get` reads the map, except at the end of a full table. -/
theorem fdTableGet_ok (ht : t.WF) {i : Nat} (hok : ¬ (i = t.length ∧ t.length = t.capacity)) :
    fdTableGet t i = .ok (t.map i) := by
  have hle := ht.length_le
  by_cases hi : i > t.length
  · simp [fdTableGet, hi, ht.tail i hi]
  · simp only [fdTableGet, if_neg hi]
    exact slot_of_lt (by rw [ht.entries_length]; omega)

/-- One more reference to every entry of a list of slots. -/
def referenceAll (h : FdHeap) (l : List (Option FdPtr)) : FdHeap := l.foldl (fun h e => e.elim h (fdReference h)) h

/-- After `i` rounds of the loop of `fd_table_clone` the copy agrees with `t` below `i` and is empty from `i` on. -/
structure ClonedTo (t : FdTable) (h : FdHeap) (i : Nat) (x : FdHeap × FdTable) : Prop where
  heap : x.1 = referenceAll h (t.entries.take i)
  wf : x.2.WF
  capacity : x.2.capacity = 16
  refcount : x.2.refcount = 1
  map : x.2.map = fun j => if j < i then t.map j else none
  slots : ∀ p, x.2.slots p = (t.entries.take i).count (some p)

section Clone

variable {h : FdHeap} {j : Nat} {x : FdHeap × FdTable}

theorem take_succ_slots (hj : j < t.entries.length) : t.entries.take (j + 1) = t.entries.take j ++ [t.map j] := by
  rw [getElem_eq_map hj, List.take_append_getElem hj]

/-- The next slot of the copy is empty, and its map grows by one slot. -/
theorem ClonedTo.next_map (hx : ClonedTo t h j x) : x.2.map j = none ∧
    Function.update x.2.map j (t.map j) = fun k => if k < j + 1 then t.map k else none := by
  rw [hx.map]
  refine ⟨by simp, ?_⟩
  funext k
  by_cases hk : k = j
  · subst hk; simp
  · rw [Function.update_of_ne hk]
    by_cases hk' : k < j
    · rw [if_pos hk', if_pos (by omega)]
    · rw [if_neg hk', if_neg (by omega)]

/-- A round at an empty slot. -/
theorem ClonedTo.skip (hx : ClonedTo t h j x) (hj : j < t.entries.length) (hs : t.map j = none) :
    ClonedTo t h (j + 1) (x.1, { x.2 with entries := x.2.entries.set j none }) := by
  obtain ⟨hold, hnext⟩ := hx.next_map
  rw [hs] at hnext
  obtain ⟨hwf, hmap⟩ := wf_clear hx.wf j
  have htake := take_succ_slots hj
  rw [hs] at htake
  refine ⟨?_, hwf, hx.capacity, hx.refcount, hmap.trans hnext, fun p => ?_⟩
  · rw [htake, referenceAll, List.foldl_append]
    exact hx.heap
  · rw [htake, List.count_append, ← hx.slots p]
    by_cases hlt : j < x.2.entries.length
    · have := slots_set none p hlt
      rw [hold] at this
      simpa [FdTable.slots] using this
    · simp [FdTable.slots, List.set_eq_of_length_le (Nat.le_of_not_lt hlt)]

/-- A round at a slot that holds `e`. -/
theorem ClonedTo.copy {e : FdPtr} (hx : ClonedTo t h j x) (hj : j < t.entries.length) (hs : t.map j = some e)
    (hj16 : j < x.2.capacity) : ClonedTo t h (j + 1)
      (fdReference x.1 e, { x.2 with entries := x.2.entries.set j (some e), length := max x.2.length j }) := by
  obtain ⟨hold, hnext⟩ := hx.next_map
  rw [hs] at hnext
  obtain ⟨hwf, hmap⟩ := wf_put hx.wf e hj16
  have htake := take_succ_slots hj
  rw [hs] at htake
  refine ⟨?_, hwf, hx.capacity, hx.refcount, hmap.trans hnext, fun p => ?_⟩
  · rw [htake, referenceAll, List.foldl_append, hx.heap]
    rfl
  · have := slots_set (some e) p (show j < x.2.entries.length by rw [hx.wf.entries_length]; exact hj16)
    rw [hold, hx.slots p, if_neg (by simp)] at this
    rw [htake, List.count_append, List.count_singleton]
    simpa [FdTable.slots] using this

/-- One round of the loop of `fd_table_clone`. -/
theorem fdTableCloneBody_ok (ht : t.WF) (hj : j < t.length) (hok : ∀ e, t.map j = some e → j < 16)
    (hx : ClonedTo t h j x) : ∃ y, fdTableCloneBody t j x = .ok y ∧ ClonedTo t h (j + 1) y := by
  have hjt : j < t.entries.length := by
    have := ht.length_le
    rw [ht.entries_length]
    omega
  have hget : fdTableGet t j = .ok (t.map j) := fdTableGet_ok ht (by omega)
  have hold := hx.next_map.1
  obtain ⟨h', new⟩ := x
  cases hs : t.map j with
  | none =>
    have hset := fdTableSet_none hx.wf h' j
    rw [freeOld, hold, Option.elim_none] at hset
    exact ⟨_, by simp [fdTableCloneBody, hget, hs, hset, pure, Except.pure], hx.skip hjt hs⟩
  | some e =>
    have hj16 : j < new.capacity := by
      have hcap : new.capacity = 16 := hx.capacity
      rw [hcap]
      exact hok e hs
    have hset := fdTableSet_some hx.wf (fdReference h' e) e hj16
    rw [freeOld, hold, Option.elim_none] at hset
    exact ⟨_, by simp [fdTableCloneBody, hget, hs, hset, pure, Except.pure], hx.copy hjt hs hj16⟩

/-- `fd_table_clone` copies the slots below `length`, if those that are taken are below the 16 slots of a new table. -/
theorem fdTableClone_copy (ht : t.WF) (h : FdHeap) (hok : ∀ i e, i < t.length → t.map i = some e → i < 16) :
    ∃ t', fdTableClone h t = .ok (referenceAll h (t.entries.take t.length), t') ∧
      ClonedTo t h t.length (referenceAll h (t.entries.take t.length), t') := by
  obtain ⟨t₀, hnew, hwf₀, hmap₀, hcap₀, href₀, hslots₀⟩ := fdTableNew_ok
  obtain ⟨⟨h', t'⟩, hloop, hx⟩ := forRange_ok (P := ClonedTo t h) (n := t.length) (i := 0) (s := (h, t₀))
    (fun j x _ hj hx => fdTableCloneBody_ok ht (by omega) (fun e he => hok j e (by omega) he) hx)
    ⟨rfl, hwf₀, hcap₀, href₀, by simpa using hmap₀, by simpa using hslots₀⟩
  rw [Nat.zero_add] at hx
  have hheap : h' = referenceAll h (t.entries.take t.length) := hx.heap
  subst hheap
  exact ⟨t', by simp [fdTableClone, hnew, hloop], hx⟩

end Clone

/-- `fd_table_clone` copies the map of a table whose entries are all below `length` and below the 16 slots of a new
table. -/
theorem fdTableClone_ok (ht : t.WF) (h : FdHeap) (hok : ∀ i e, t.map i = some e → i < t.length ∧ i < 16) :
    ∃ h' t', fdTableClone h t = .ok (h', t') ∧ t'.WF ∧ t'.map = t.map := by
  obtain ⟨t', hclone, hx⟩ := fdTableClone_copy ht h fun i e _ he => (hok i e he).2
  refine ⟨_, t', hclone, hx.wf, hx.map.trans ?_⟩
  funext j
  split
  · rfl
  · cases hs : t.map j with
    | none => rfl
    | some e => exact absurd (hok j e hs).1 ‹_›

end Functions

/-! ## One call and whole runs -/

/-- The state's maps, every table well-formed. -/
def FdRefines (s : FdState) (ms : List FdMap) : Prop := ms = s.maps ∧ ∀ t ∈ s.tables, t.WF

theorem maps_set (s : FdState) (h : FdHeap) (k : Nat) (tab : FdTable) :
    FdState.maps ⟨h, s.tables.set k tab⟩ = s.maps.set k tab.map := by
  simp [FdState.maps, List.map_set]

theorem maps_get {s : FdState} {k : Nat} {tab : FdTable} (h : s.tables[k]? = some tab) :
    s.maps[k]? = some tab.map := by
  simp [FdState.maps, h]

theorem table_ok {s : FdState} {k : Nat} {tab : FdTable} (h : s.tables[k]? = some tab) : s.table k = .ok tab := by
  simp [FdState.table, h]

/-- Replacing one table by a well-formed one keeps all well-formed. -/
theorem wf_set {ts : List FdTable} {k : Nat} {tab : FdTable} (hts : ∀ t ∈ ts, t.WF) (htab : tab.WF) :
    ∀ t ∈ ts.set k tab, t.WF := by
  intro t ht
  rcases List.mem_or_eq_of_mem_set ht with h | rfl
  · exact hts t h
  · exact htab

/-- **One call** that meets `FdCallOk` returns what the specification says. -/
theorem fdStep_refines (s : FdState) (ms : List FdMap) (op : FdOp) (hR : FdRefines s ms) (hok : FdCallOk s op) :
    ∃ r s' ms', fdStep s op = .ok (r, s') ∧ fdSpec ms op r ms' ∧ FdRefines s' ms' := by
  obtain ⟨rfl, hwf⟩ := hR
  have hmem : ∀ {k : Nat} {tab : FdTable}, s.tables[k]? = some tab → tab.WF :=
    fun h => hwf _ (List.mem_of_getElem? h)
  cases op with
  | set k i entry =>
    cases entry with
    | none =>
      obtain ⟨tab, hk⟩ := hok
      have hset := fdTableSet_none (hmem hk) s.heap i.toNat
      obtain ⟨hwf', hmap⟩ := wf_clear (hmem hk) i.toNat
      refine ⟨.index i.toNat,
        ⟨freeOld s.heap tab i.toNat, s.tables.set k { tab with entries := tab.entries.set i.toNat none }⟩, _, ?_,
        ⟨tab.map, maps_get hk, rfl, rfl⟩, ?_, wf_set hwf hwf'⟩
      · simp only [fdStep, table_ok hk, hset, ok_bind]; rfl
      · rw [maps_set, hmap]
    | some e =>
      obtain ⟨tab, hk, hi⟩ := hok
      have hset := fdTableSet_some (hmem hk) s.heap e hi
      obtain ⟨hwf', hmap⟩ := wf_put (hmem hk) e hi
      refine ⟨.index i.toNat, ⟨freeOld s.heap tab i.toNat, s.tables.set k _⟩, _, ?_,
        ⟨tab.map, maps_get hk, rfl, rfl⟩, ?_, wf_set hwf hwf'⟩
      · simp only [fdStep, table_ok hk, hset, ok_bind]; rfl
      · rw [maps_set, hmap]
  | append k e =>
    obtain ⟨tab, hk, hfree⟩ := hok
    obtain ⟨j, t', happ, hwf', -, hleast, hmap, -⟩ := fdTableAppend_ok (hmem hk) e hfree
    refine ⟨.index j, ⟨s.heap, s.tables.set k t'⟩, _, ?_, ⟨tab.map, j, maps_get hk, hleast, rfl, rfl⟩, ?_,
      wf_set hwf hwf'⟩
    · simp [fdStep, table_ok hk, happ, pure, Except.pure]
    · rw [maps_set, hmap]
  | get k i =>
    obtain ⟨tab, hk, hi⟩ := hok
    refine ⟨.entry (tab.map i.toNat), s, _, ?_, ⟨tab.map, maps_get hk, rfl, rfl⟩, rfl, hwf⟩
    simp [fdStep, table_ok hk, fdTableGet_ok (hmem hk) hi, pure, Except.pure]
  | clone k =>
    obtain ⟨tab, hk, hall⟩ := hok
    obtain ⟨h', t', hclone, hwf', hmap⟩ := fdTableClone_ok (hmem hk) s.heap hall
    refine ⟨.table s.tables.length, ⟨h', s.tables ++ [t']⟩, _, ?_, ⟨tab.map, maps_get hk, rfl, ?_⟩, ?_, ?_⟩
    · simp [fdStep, table_ok hk, hclone, pure, Except.pure]
    · simp [FdState.maps]
    · simp [FdState.maps, hmap]
    · intro t ht
      rcases List.mem_append.1 ht with h | h
      · exact hwf t h
      · rw [List.mem_singleton.1 h]; exact hwf'

theorem fdInit_refines (h : FdHeap) : ∃ s, fdInit h = .ok s ∧ FdRefines s [fun _ => none] := by
  obtain ⟨t, hnew, hwf, hmap, -, -, -⟩ := fdTableNew_ok
  refine ⟨⟨h, [t]⟩, by simp [fdInit, hnew, pure, Except.pure], by simp [FdState.maps, hmap], ?_⟩
  intro t' ht'
  rw [List.mem_singleton.1 ht']; exact hwf

/-- **Runs.** From a new table, every sequence of calls that each meet `FdCallOk` returns, answers as the finite maps
do, and leaves tables that read as these maps. -/
theorem fd_runs_refine_maps (h : FdHeap) (s₀ : FdState) (hinit : fdInit h = .ok s₀) (ops : List FdOp)
    (hok : Meets fdStep FdCallOk s₀ ops) :
    ∃ rs s ms, runOps fdStep s₀ ops = .ok (rs, s) ∧ SpecRun fdSpec [fun _ => none] ops rs ms ∧ ms = s.maps := by
  obtain ⟨s, hs, hR⟩ := fdInit_refines h
  rw [hs, Except.ok.injEq] at hinit
  subst hinit
  obtain ⟨rs, s', ms, hrun, hspec, hR'⟩ := runOps_refines fdStep_refines ops hR hok
  exact ⟨rs, s', ms, hrun, hspec, hR'.1⟩

/-- A run of every kind of call on a table and its copy. -/
theorem fd_runs_refine_maps_copy :
    ∃ s₀ rs s ms, fdInit ⟨fun _ => ⟨some 7, 0, 1, true⟩, []⟩ = .ok s₀ ∧
      runOps fdStep s₀ [.append 0 1, .set 0 0 (some 2), .append 0 3, .clone 0, .set 0 1 none, .get 1 1] = .ok (rs, s) ∧
      SpecRun fdSpec [fun _ => none]
        [.append 0 1, .set 0 0 (some 2), .append 0 3, .clone 0, .set 0 1 none, .get 1 1] rs ms ∧ ms = s.maps := by
  obtain ⟨rs, s, ms, h⟩ := fd_runs_refine_maps ⟨fun _ => ⟨some 7, 0, 1, true⟩, []⟩ _ rfl
    [.append 0 1, .set 0 0 (some 2), .append 0 3, .clone 0, .set 0 1 none, .get 1 1]
    (meets_cons ⟨_, rfl, by decide⟩ rfl <| meets_cons ⟨_, rfl, by decide⟩ rfl <|
      meets_cons ⟨_, rfl, by decide⟩ rfl <|
      meets_cons ⟨⟨some 2 :: some 3 :: List.replicate 14 none, 2, 16, 1⟩, rfl, fun i e h => by
        rcases i with _ | _ | i
        · decide
        · decide
        · simp only [FdTable.map, List.getElem?_cons_succ, List.getElem?_replicate] at h
          split at h <;> cases h⟩ rfl <|
      meets_cons ⟨_, rfl⟩ rfl <| meets_cons ⟨_, rfl, by decide⟩ rfl trivial)
  exact ⟨_, rs, s, ms, rfl, h⟩

/-- After `fd_table_set(0, e)` the slot 0 is taken and `length` still 0: `fd_table_append` returns 0 again and
overwrites the entry. -/
theorem fd_append_overwrites :
    ∃ s₀ s, fdInit ⟨fun _ => ⟨some 7, 0, 1, true⟩, []⟩ = .ok s₀ ∧
      runOps fdStep s₀ [.set 0 0 (some 1), .append 0 2] = .ok ([.index 0, .index 0], s) ∧
      ¬ ∃ ms, SpecRun fdSpec [fun _ => none] [.set 0 0 (some 1), .append 0 2] [.index 0, .index 0] ms := by
  refine ⟨_, _, rfl, rfl, ?_⟩
  rintro ⟨ms, r, rs, u, hr, ⟨m, hm, rfl, -⟩, r', rs', u', hr', ⟨m', k, hm', hk, -, rfl⟩, -⟩
  obtain ⟨-, rfl⟩ := List.cons.inj hr
  cases hr'
  cases hm
  cases hm'
  exact absurd hk.1 (by simp)

end Myunix.Process
