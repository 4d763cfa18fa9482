import Myunix.Process.FdWorld
import Mathlib.Algebra.BigOperators.Group.List.Basic
import Mathlib.Algebra.GroupWithZero.Nat

/-!
# Reference counts of descriptors

The count of an entry is meant to be the number of slots of live tables that hold it, plus the references that kernel
code has in its hands; the node of an entry is closed when that number drops to 0.

`Counted` states this for an arbitrary number `cnt p` of references to each entry `p`; `fd_new`, `fd_reference` and
`fd_free` keep it with `cnt` adjusted. The calls on tables adjust `cnt` by the slots they write (`fdWorldStep_counts`),
except in two places: `fd_table_append` may overwrite the slot `length`, and `fd_table_free` does not look at it.
`process_spawn_init` fills exactly this slot with the third terminal descriptor.
-/

namespace Myunix.Process

open Lib

/-! ## Counting -/

/-- The number of slots of live tables that hold `p`. -/
def slotsOf (ts : List FdTable) (p : FdPtr) : Nat := (ts.map fun t => if t.refcount = 0 then 0 else t.slots p).sum

/-- All references to `p`: slots and references in hand. -/
def FdWorld.refs (w : FdWorld) (p : FdPtr) : Nat := slotsOf w.tables p + w.held p

/-- The number of entries made for the node `n` that have no reference left. -/
def releasedOf (next : Nat) (nodes : FdPtr → NodePtr) (cnt : FdPtr → Nat) (n : NodePtr) : Nat :=
  (List.range next).countP fun p => nodes p = n ∧ cnt p = 0

/-- The counts of the entries are `cnt`, and the closed nodes are those of the entries without references. -/
structure Counted (h : FdHeap) (next : Nat) (nodes : FdPtr → NodePtr) (cnt : FdPtr → Nat) : Prop where
  refcount : ∀ p, (h.fds p).refcount = cnt p
  node : ∀ p, 0 < cnt p → (h.fds p).node = some (nodes p)
  fresh : ∀ p : Nat, next ≤ p → cnt p = 0
  closed : ∀ n, h.closed.count n = releasedOf next nodes cnt n

section Counting

variable {h : FdHeap} {next p : Nat} {nodes : FdPtr → NodePtr} {cnt cnt' : FdPtr → Nat}

/-- Changing the count of one entry from or to 0. -/
theorem releasedOf_update (nodes : FdPtr → NodePtr) (hp : p < next) (h : ∀ q : Nat, q ≠ p → cnt' q = cnt q)
    (n : NodePtr) :
    releasedOf next nodes cnt' n + (if nodes p = n ∧ cnt p = 0 then 1 else 0) =
      releasedOf next nodes cnt n + if nodes p = n ∧ cnt' p = 0 then 1 else 0 := by
  -- induction on the number of entries; the entry `p` is met once
  have hbelow : ∀ m ≤ p, releasedOf m nodes cnt' n = releasedOf m nodes cnt n := by
    intro m hm
    apply List.countP_congr
    intro q hq
    rw [h q (by have := List.mem_range.1 hq; omega)]
  induction next with
  | zero => omega
  | succ m ih =>
    by_cases hm : m = p
    · subst hm
      have := hbelow m (Nat.le_refl m)
      simp only [releasedOf, List.range_succ, List.countP_append, List.countP_singleton, decide_eq_true_eq] at this ⊢
      omega
    · have := ih (by omega)
      simp only [releasedOf, List.range_succ, List.countP_append, List.countP_singleton, decide_eq_true_eq, h m hm]
        at this ⊢
      omega

theorem Counted.lt (hc : Counted h next nodes cnt) (hp : 0 < cnt p) : p < next := by
  by_contra hle
  have := hc.fresh p (Nat.le_of_not_lt hle)
  omega

/-- A counting that is the same function. -/
theorem Counted.of_eq (hc : Counted h next nodes cnt) (heq : ∀ p, cnt' p = cnt p) : Counted h next nodes cnt' := by
  rw [show cnt' = cnt from funext heq]
  exact hc

/-- Another count `c` for an entry in use, which closes its node at 0. -/
theorem Counted.setCount {h' : FdHeap} {c : Nat} (hc : Counted h next nodes cnt) (hp : 0 < cnt p)
    (hother : ∀ q, q ≠ p → h'.fds q = h.fds q) (hself : (h'.fds p).refcount = c)
    (hnode : 0 < c → (h'.fds p).node = (h.fds p).node)
    (hclosed : ∀ n, h'.closed.count n = h.closed.count n + if nodes p = n ∧ c = 0 then 1 else 0) :
    Counted h' next nodes (Function.update cnt p c) := by
  have hlt := hc.lt hp
  refine ⟨fun q => ?_, fun q hq => ?_, fun q hq => ?_, fun n => ?_⟩
  · by_cases hqp : q = p
    · subst hqp
      rw [Function.update_self, hself]
    · rw [Function.update_of_ne hqp, hother q hqp]
      exact hc.refcount q
  · by_cases hqp : q = p
    · subst hqp
      rw [Function.update_self] at hq
      rw [hnode hq]
      exact hc.node q hp
    · rw [Function.update_of_ne hqp] at hq
      rw [hother q hqp]
      exact hc.node q hq
  · have hqp : q ≠ p := by omega
    rw [Function.update_of_ne hqp]
    exact hc.fresh q hq
  · have hrel := releasedOf_update nodes hlt (fun q hq => Function.update_of_ne hq c cnt) n
    rw [Function.update_self, if_neg (by omega), Nat.add_zero] at hrel
    rw [hclosed n, hc.closed n, hrel]

/-- `fd_reference` counts one more. -/
theorem Counted.reference (hc : Counted h next nodes cnt) (hp : 0 < cnt p) :
    Counted (fdReference h p) next nodes fun q => cnt q + if p = q then 1 else 0 := by
  have hr : (h.fds p).refcount = cnt p := hc.refcount p
  rw [fdReference, if_pos (by omega)]
  refine (hc.setCount (c := cnt p + 1) hp (fun q hq => Function.update_of_ne hq _ _) ?_ (fun _ => ?_)
    fun n => ?_).of_eq fun q => ?_
  · simp [hr]
  · simp
  · rw [if_neg (by omega)]
    rfl
  · by_cases hq : q = p
    · subst hq; simp
    · rw [Function.update_of_ne hq, if_neg (Ne.symm hq)]; rfl

/-- `fd_free` counts one less and closes the node at 0. -/
theorem Counted.free (hc : Counted h next nodes cnt) (hp : 0 < cnt p) :
    Counted (fdFree h p) next nodes fun q => cnt q - if p = q then 1 else 0 := by
  have hr : (h.fds p).refcount = cnt p := hc.refcount p
  suffices hup : Counted (fdFree h p) next nodes (Function.update cnt p (cnt p - 1)) by
    apply hup.of_eq
    intro q
    by_cases hq : q = p
    · subst hq; simp
    · rw [Function.update_of_ne hq, if_neg (Ne.symm hq)]; rfl
  rw [fdFree, if_neg (by omega)]
  by_cases hlast : cnt p = 1
  · rw [if_pos (by omega)]
    refine hc.setCount hp (fun q hq => Function.update_of_ne hq _ _) ?_ (fun hpos => ?_) fun n => ?_
    · simp [hlast]
    · omega
    · rw [hc.node p hp, Option.toList_some, List.count_append, List.count_singleton, hlast]
      simp
  · rw [if_neg (by omega)]
    refine hc.setCount hp (fun q hq => Function.update_of_ne hq _ _) ?_ (fun _ => ?_) fun n => ?_
    · simp only [Function.update_self]
      omega
    · simp
    · rw [if_neg (by omega)]
      rfl

/-- One more reference for every slot of a list. -/
theorem Counted.referenceAll (hc : Counted h next nodes cnt) (l : List (Option FdPtr))
    (hl : ∀ p, some p ∈ l → 0 < cnt p) :
    Counted (referenceAll h l) next nodes fun p => cnt p + l.count (some p) := by
  induction l generalizing h cnt with
  | nil => exact hc
  | cons e l ih =>
    cases e with
    | none =>
      refine (ih hc fun p hp => hl p (List.mem_cons_of_mem _ hp)).of_eq fun p => ?_
      rw [List.count_cons_of_ne (by simp)]
    | some q =>
      have hq := hc.reference (hl q List.mem_cons_self)
      refine (ih hq fun p hp => ?_).of_eq fun p => ?_
      · have := hl p (List.mem_cons_of_mem _ hp)
        omega
      · simp only [List.count_cons, beq_iff_eq, Option.some.injEq]
        omega

/-- One reference less for every slot of a list. -/
theorem Counted.freeAll (hc : Counted h next nodes cnt) (l : List (Option FdPtr))
    (hl : ∀ p, l.count (some p) ≤ cnt p) :
    Counted (freeAll h l) next nodes fun p => cnt p - l.count (some p) := by
  induction l generalizing h cnt with
  | nil => exact hc
  | cons e l ih =>
    cases e with
    | none =>
      simp only [List.count_cons_of_ne (show (none : Option FdPtr) ≠ some _ by simp)] at hl ⊢
      exact ih hc hl
    | some q =>
      simp only [List.count_cons, beq_iff_eq, Option.some.injEq] at hl ⊢
      have hpos : 0 < cnt q := by
        have := hl q
        rw [if_pos rfl] at this
        omega
      refine (ih (hc.free hpos) fun p => ?_).of_eq fun p => ?_
      · have := hl p
        omega
      · omega

/-- `fd_new` makes an entry with one reference. -/
theorem Counted.new (hc : Counted h next nodes cnt) (node : NodePtr) :
    Counted { fdNew h next with
        fds := Function.update (fdNew h next).fds next { (fdNew h next).fds next with node := some node } }
      (next + 1) (Function.update nodes next node) (Function.update cnt next 1) := by
  have hnew : fdNew h next = { h with fds := Function.update h.fds next ⟨none, 0#32, 1, true⟩ } := by
    simp [fdNew, fdReference]
  rw [hnew]
  refine ⟨fun q => ?_, fun q hq => ?_, fun q hq => ?_, fun n => ?_⟩
  · by_cases hqp : q = next
    · subst hqp; simp
    · simpa [Function.update_of_ne hqp] using hc.refcount q
  · by_cases hqp : q = next
    · subst hqp; simp
    · rw [Function.update_of_ne hqp] at hq
      simpa [Function.update_of_ne hqp] using hc.node q hq
  · have hqp : q ≠ next := by omega
    rw [Function.update_of_ne hqp]
    exact hc.fresh q (by omega)
  · rw [hc.closed n]
    simp only [releasedOf, List.range_succ, List.countP_append, List.countP_singleton, Function.update_self]
    rw [if_neg (by simp)]
    apply List.countP_congr
    intro q hq
    have hqp : q ≠ next := Nat.ne_of_lt (List.mem_range.1 hq)
    rw [Function.update_of_ne hqp, Function.update_of_ne hqp]

end Counting

/-! ## Slots of all tables -/

section Slots

variable {ts : List FdTable} {t : Nat} {tab tab' : FdTable} {p : FdPtr}

theorem slotsOf_append : slotsOf (ts ++ [tab]) p = slotsOf ts p + if tab.refcount = 0 then 0 else tab.slots p := by
  simp [slotsOf]

/-- Writing back one table exchanges its slots. -/
theorem slotsOf_set (tab' : FdTable) (p : FdPtr) (ht : ts[t]? = some tab) :
    slotsOf (ts.set t tab') p + (if tab.refcount = 0 then 0 else tab.slots p) =
      slotsOf ts p + if tab'.refcount = 0 then 0 else tab'.slots p := by
  induction ts generalizing t with
  | nil => simp at ht
  | cons a ts ih =>
    cases t with
    | zero =>
      simp only [List.getElem?_cons_zero, Option.some.injEq] at ht
      subst ht
      simp only [slotsOf, List.set_cons_zero, List.map_cons, List.sum_cons]
      omega
    | succ t =>
      have := ih (t := t) (by simpa using ht)
      simp only [slotsOf, List.set_cons_succ, List.map_cons, List.sum_cons] at this ⊢
      omega

/-- The slots of a live table are among the slots of all. -/
theorem slots_le_slotsOf (ht : ts[t]? = some tab) (hr : tab.refcount ≠ 0) : tab.slots p ≤ slotsOf ts p := by
  have := slotsOf_set { tab with refcount := 0 } p ht
  rw [if_neg hr, if_pos rfl] at this
  omega

theorem slots_pos {i : Nat} (h : tab.map i = some p) : 0 < tab.slots p := by
  have hi : i < tab.entries.length := by
    by_contra hle
    rw [map_of_le (Nat.le_of_not_lt hle)] at h
    cases h
  rw [getElem_eq_map hi] at h
  exact List.count_pos_iff.2 (h ▸ List.getElem_mem hi)

end Slots

/-! ## One call and whole runs -/

/-- There is a gap below `length`, or the slot `length` is not taken. -/
def FdTable.EndFree (tab : FdTable) : Prop := (∃ j < tab.length, tab.map j = none) ∨ tab.map tab.length = none

/-- When a call keeps the counts: it stays inside the arrays, takes new references only to entries in use, stores only
references that the caller has, does not append over a taken slot, and the last `fd_table_free` of a table finds all
taken slots below `length`. -/
def FdCountOk (w : FdWorld) (c : FdCall) : Prop :=
  FdInBounds w c ∧
    match c with
    | .fdReference p => 0 < (w.heap.fds p).refcount
    | .set _ _ (some entry) => 0 < w.held entry
    | .append t entry => 0 < w.held entry ∧ ∀ tab, w.Live t tab → tab.EndFree
    | .dup t oldfd => ∀ tab, w.Live t tab → tab.map oldfd.toNat ≠ none → tab.EndFree
    | .free t => ∀ tab, w.Live t tab → tab.refcount = 1 → ∀ i e, tab.map i = some e → i < tab.length
    | .tableNew | .fdNew _ | .set _ _ none | .get _ _ | .clone _ | .reference _ | .dup2 _ _ _ | .close _ _ => True

/-- Tables are well-formed, and the counts are the references. -/
structure FdInv (w : FdWorld) : Prop where
  wf : ∀ t ∈ w.tables, t.WF
  refcount : ∀ t ∈ w.tables, 0 ≤ t.refcount
  counted : Counted w.heap w.nextFd w.nodes w.refs

section Calls

variable {w : FdWorld} {t : Nat} {tab : FdTable}

theorem slots_le_refs (hl : w.Live t tab) (p : FdPtr) : tab.slots p ≤ w.refs p :=
  Nat.le_trans (slots_le_slotsOf hl.1 hl.2) (Nat.le_add_right _ _)

theorem FdTable.Room.append (hr : tab.Room) (he : tab.EndFree) :
    (∃ j < tab.length, tab.map j = none) ∨ (tab.length < tab.capacity ∧ tab.map tab.length = none) ∨
      (tab.length = tab.capacity ∧ tab.capacity + 8 < 0x40000000) := by
  rcases he with hgap | hend
  · exact Or.inl hgap
  · exact hr.imp id (Or.imp (fun hlt => ⟨hlt, hend⟩) id)

/-- The overwritten entry of a slot loses one reference. -/
theorem Counted.freeOld {h : FdHeap} {next : Nat} {nodes : FdPtr → NodePtr} {cnt : FdPtr → Nat}
    (hc : Counted h next nodes cnt) (hle : ∀ p, tab.slots p ≤ cnt p) (i : Nat) :
    Counted (freeOld h tab i) next nodes fun p => cnt p - if tab.map i = some p then 1 else 0 := by
  cases hs : tab.map i with
  | none => simpa [Process.freeOld, hs] using hc
  | some e =>
    simp only [Process.freeOld, hs, Option.elim_some, Option.some.injEq]
    exact hc.free (Nat.lt_of_lt_of_le (slots_pos hs) (hle e))

/-- Clearing a slot takes it from its entry, also beyond the array. -/
theorem slots_clear (tab : FdTable) (i : Nat) (p : FdPtr) :
    (tab.entries.set i none).count (some p) + (if tab.map i = some p then 1 else 0) = tab.slots p := by
  by_cases hi : i < tab.entries.length
  · simpa using slots_set none p hi
  · have hle := Nat.le_of_not_lt hi
    simp [List.set_eq_of_length_le hle, map_of_le hle, FdTable.slots]

/-- All taken slots are below `length`. -/
theorem slots_take {n : Nat} (hall : ∀ i e, tab.map i = some e → i < n) (p : FdPtr) :
    (tab.entries.take n).count (some p) = tab.slots p := by
  have hdrop : (tab.entries.drop n).count (some p) = 0 := by
    rw [List.count_eq_zero]
    intro hmem
    obtain ⟨k, hk⟩ := List.mem_iff_getElem?.1 hmem
    rw [List.getElem?_drop] at hk
    have := hall (n + k) p (by rw [FdTable.map, hk]; rfl)
    omega
  rw [FdTable.slots, ← List.take_append_drop n tab.entries, List.count_append, hdrop, Nat.add_zero,
    List.take_append_drop]

theorem taken_le_slots (tab : FdTable) (i : Nat) (p : FdPtr) :
    (if tab.map i = some p then 1 else 0) ≤ tab.slots p := by
  split
  · exact slots_pos ‹_›
  · exact Nat.zero_le _

theorem FdInv.refcount_set {tab' : FdTable} (hI : FdInv w) (h : 0 ≤ tab'.refcount) :
    ∀ x ∈ w.tables.set t tab', 0 ≤ x.refcount := by
  intro x hx
  rcases List.mem_or_eq_of_mem_set hx with hx | rfl
  · exact hI.refcount x hx
  · exact h

/-- Writing back a live table, with the references in hand adjusted. -/
theorem FdInv.put_held (hI : FdInv w) (hl : w.Live t tab) {x : FdHeap × FdTable} {held cnt : FdPtr → Nat}
    (hwf : x.2.WF) (hr : x.2.refcount = tab.refcount) (hc : Counted x.1 w.nextFd w.nodes cnt)
    (heq : ∀ p, cnt p + tab.slots p + w.held p = w.refs p + x.2.slots p + held p) :
    FdInv { w.put t x with held := held } := by
  have hpos : 0 ≤ x.2.refcount := by
    rw [hr]
    exact hI.refcount tab (List.mem_of_getElem? hl.1)
  refine ⟨wf_set hI.wf hwf, hI.refcount_set hpos, hc.of_eq fun p => ?_⟩
  have hset := slotsOf_set x.2 p hl.1
  rw [hr, if_neg hl.2, if_neg hl.2] at hset
  have := heq p
  simp only [FdWorld.refs, FdWorld.put] at this ⊢
  omega

theorem FdInv.put (hI : FdInv w) (hl : w.Live t tab) {x : FdHeap × FdTable} {cnt : FdPtr → Nat}
    (hwf : x.2.WF) (hr : x.2.refcount = tab.refcount) (hc : Counted x.1 w.nextFd w.nodes cnt)
    (heq : ∀ p, cnt p + tab.slots p = w.refs p + x.2.slots p) : FdInv (w.put t x) :=
  @FdInv.put_held _ _ _ hI hl x w.held cnt hwf hr hc fun p => by rw [heq p]

theorem FdInv.put_self (hI : FdInv w) (hl : w.Live t tab) : FdInv (w.put t (w.heap, tab)) :=
  hI.put hl (hl.wf hI.wf) rfl hI.counted fun _ => rfl

/-- Clearing a slot. -/
theorem FdInv.clear (hI : FdInv w) (hl : w.Live t tab) (i : Nat) :
    FdInv (w.put t (freeOld w.heap tab i, { tab with entries := tab.entries.set i none })) := by
  apply hI.put hl (wf_clear (hl.wf hI.wf) i).1 rfl (hI.counted.freeOld (slots_le_refs hl) i)
  intro p
  have hset := slots_clear tab i p
  have hle := slots_le_refs hl p
  simp only [FdTable.slots] at hset hle ⊢
  omega

theorem FdInv.append (hI : FdInv w) {h : FdHeap} (hwf : tab.WF) (hr : tab.refcount = 1)
    (hc : Counted h w.nextFd w.nodes fun p => w.refs p + tab.slots p) :
    FdInv { w with heap := h, tables := w.tables ++ [tab] } := by
  refine ⟨wf_append hI.wf hwf, fun t ht => ?_, hc.of_eq fun p => ?_⟩
  · rcases List.mem_append.1 ht with h | h
    · exact hI.refcount t h
    · rw [List.mem_singleton.1 h, hr]
      decide
  · simp only [FdWorld.refs]
    rw [slotsOf_append, if_neg (by rw [hr]; decide)]
    omega

theorem dup_counts (hI : FdInv w) (hl : w.Live t tab) {oldfd : Word} (hget : tab.Gets oldfd.toNat)
    (hroom : tab.map oldfd.toNat ≠ none → tab.Room ∧ tab.EndFree) :
    ∃ x, syscallDup w.heap tab oldfd = .ok x ∧ FdInv (w.put t x) := by
  have hwf := hl.wf hI.wf
  rw [syscallDup, fdTableGet_ok hwf hget, ok_bind]
  cases hs : tab.map oldfd.toNat with
  | none => exact ⟨_, rfl, hI.put_self hl⟩
  | some fd =>
    obtain ⟨hr, he⟩ := hroom (by rw [hs]; simp)
    obtain ⟨k, t', happ, hwf', href, -, -, hslots⟩ := fdTableAppend_ok hwf fd (hr.append he)
    have hpos : 0 < w.refs fd := Nat.lt_of_lt_of_le (slots_pos hs) (slots_le_refs hl fd)
    refine ⟨(fdReference w.heap fd, t'), ?_, hI.put hl hwf' href (hI.counted.reference hpos) fun p => ?_⟩
    · simp only
      rw [hI.counted.node fd hpos, assert_bind (by simp), happ]
      rfl
    · have := hslots p
      simp only [Option.some.injEq] at this ⊢
      omega

theorem dup2_counts (hI : FdInv w) (hl : w.Live t tab) {oldfd newfd : Word} (hget : tab.Gets oldfd.toNat)
    (hnew : tab.map oldfd.toNat ≠ none → newfd ≠ oldfd → newfd.toNat < tab.capacity) :
    ∃ x, syscallDup2 w.heap tab oldfd newfd = .ok x ∧ FdInv (w.put t x) := by
  have hwf := hl.wf hI.wf
  rw [syscallDup2, fdTableGet_ok hwf hget, ok_bind]
  cases hs : tab.map oldfd.toNat with
  | none => exact ⟨_, rfl, hI.put_self hl⟩
  | some fd =>
    have hpos : 0 < w.refs fd := Nat.lt_of_lt_of_le (slots_pos hs) (slots_le_refs hl fd)
    simp only
    rw [hI.counted.node fd hpos, assert_bind (by simp)]
    by_cases heq : newfd = oldfd
    · rw [if_pos heq]
      exact ⟨_, rfl, hI.put_self hl⟩
    · have hlt := hnew (by rw [hs]; simp) heq
      have hle : ∀ p, tab.slots p ≤ w.refs p + if fd = p then 1 else 0 :=
        fun p => Nat.le_trans (slots_le_refs hl p) (Nat.le_add_right _ _)
      rw [if_neg heq, fdTableSet_some hwf _ fd hlt, ok_bind]
      refine ⟨_, rfl, hI.put hl (wf_put hwf fd hlt).1 rfl
        ((hI.counted.reference hpos).freeOld hle newfd.toNat) fun p => ?_⟩
      have hset := slots_set (some fd) p (show newfd.toNat < tab.entries.length by rw [hwf.entries_length]; exact hlt)
      have hle := hle p
      have hsl := taken_le_slots tab newfd.toNat p
      simp only [FdTable.slots, Option.some.injEq] at hset hle hsl ⊢
      omega

theorem close_counts (hI : FdInv w) (hl : w.Live t tab) {fdNum : Word} (hget : tab.Gets fdNum.toNat) :
    ∃ x, syscallClose w.heap tab fdNum = .ok x ∧ FdInv (w.put t x) := by
  have hwf := hl.wf hI.wf
  rw [syscallClose, fdTableGet_ok hwf hget, ok_bind]
  cases hs : tab.map fdNum.toNat with
  | none => exact ⟨_, rfl, hI.put_self hl⟩
  | some fd =>
    have hpos : 0 < w.refs fd := Nat.lt_of_lt_of_le (slots_pos hs) (slots_le_refs hl fd)
    simp only
    rw [hI.counted.node fd hpos, assert_bind (by simp), fdTableSet_none hwf, ok_bind]
    exact ⟨_, rfl, hI.clear hl fdNum.toNat⟩

theorem held_store {e : FdPtr} (he : 0 < w.held e) (p : FdPtr) :
    Function.update w.held e (w.held e - 1) p + (if e = p then 1 else 0) = w.held p := by
  by_cases hp : p = e
  · subst hp
    rw [Function.update_self, if_pos rfl]
    omega
  · rw [Function.update_of_ne hp, if_neg (Ne.symm hp), Nat.add_zero]

theorem free_counts (hI : FdInv w) (hl : w.Live t tab)
    (hall : tab.refcount = 1 → ∀ i e, tab.map i = some e → i < tab.length) :
    ∃ x, fdTableFree w.heap tab = .ok x ∧ FdInv (w.put t x) := by
  have hwf := hl.wf hI.wf
  have hpos : 0 ≤ tab.refcount := hI.refcount tab (List.mem_of_getElem? hl.1)
  have hne : tab.refcount ≠ 0 := hl.2
  refine ⟨_, fdTableFree_eq hwf w.heap (by omega), wf_set hI.wf (wf_refcount hwf _), hI.refcount_set ?_, ?_⟩
  · simp only
    omega
  · have hset := fun p => slotsOf_set { tab with refcount := tab.refcount - 1 } p hl.1
    simp only [if_neg hl.2] at hset
    by_cases hlast : tab.refcount = 1
    · -- the last reference: the loop frees all slots
      have htake := slots_take (hall hlast)
      have hle : ∀ p, (tab.entries.take tab.length).count (some p) ≤ w.refs p := by
        intro p
        rw [htake p]
        exact slots_le_refs hl p
      simp only [FdWorld.put, if_pos (show tab.refcount - 1 = 0 by omega)] at hset ⊢
      apply (hI.counted.freeAll _ hle).of_eq
      intro p
      have := hset p
      simp only [FdWorld.refs, htake p] at this ⊢
      omega
    · simp only [FdWorld.put, if_neg (show ¬ tab.refcount - 1 = 0 by omega)] at hset ⊢
      apply hI.counted.of_eq
      intro p
      have := hset p
      simp only [FdWorld.refs, FdTable.slots] at this ⊢
      omega

theorem reference_counts (hI : FdInv w) (hl : w.Live t tab) : FdInv (w.put t (w.heap, fdTableReference tab)) := by
  have hpos : 0 ≤ tab.refcount := hI.refcount tab (List.mem_of_getElem? hl.1)
  have hne : tab.refcount ≠ 0 := hl.2
  have heq : fdTableReference tab = { tab with refcount := tab.refcount + 1 } := if_pos (by omega)
  rw [heq]
  refine ⟨wf_set hI.wf (wf_refcount (hl.wf hI.wf) _), hI.refcount_set ?_, hI.counted.of_eq fun p => ?_⟩
  · simp only
    omega
  · have hset := slotsOf_set { tab with refcount := tab.refcount + 1 } p hl.1
    rw [if_neg hl.2, if_neg (show ¬ tab.refcount + 1 = 0 by omega)] at hset
    simp only [FdWorld.refs, FdWorld.put, FdTable.slots] at hset ⊢
    omega

/-- **One call** that meets `FdCountOk` returns and keeps the counts. -/
theorem fdWorldStep_counts (w : FdWorld) (c : FdCall) (hI : FdInv w) (hok : FdCountOk w c) :
    ∃ w', fdWorldStep w c = .ok w' ∧ FdInv w' := by
  obtain ⟨hbounds, hcount⟩ := hok
  cases c with
  | tableNew =>
    obtain ⟨tab, hnew, hwf, -, -, href, hslots⟩ := fdTableNew_ok
    refine ⟨_, by rw [fdWorldStep, hnew, ok_bind]; rfl, hI.append hwf href ?_⟩
    exact hI.counted.of_eq fun p => by rw [hslots p, Nat.add_zero]
  | fdNew node =>
    refine ⟨_, rfl, hI.wf, hI.refcount, (hI.counted.new node).of_eq fun p => ?_⟩
    have hfresh := hI.counted.fresh w.nextFd (Nat.le_refl _)
    by_cases hp : p = w.nextFd
    · subst hp
      simp only [FdWorld.refs, Function.update_self] at hfresh ⊢
      omega
    · simp only [FdWorld.refs, Function.update_of_ne hp]
  | fdReference p =>
    have hpos : 0 < w.refs p := by
      have hr := hI.counted.refcount p
      simp only at hcount
      omega
    refine ⟨_, rfl, hI.wf, hI.refcount, (hI.counted.reference hpos).of_eq fun q => ?_⟩
    by_cases hq : q = p
    · subst hq
      simp [FdWorld.refs, Nat.add_assoc]
    · simp [FdWorld.refs, Function.update_of_ne hq, Ne.symm hq]
  | set t i entry =>
    cases entry with
    | none =>
      obtain ⟨tab, hl⟩ := hbounds
      refine ⟨_, ?_, hI.clear hl i.toNat⟩
      rw [fdWorldStep, hl.table_eq, ok_bind, fdTableSet_none (hl.wf hI.wf)]
      rfl
    | some e =>
      obtain ⟨tab, hl, hi⟩ := hbounds
      have hwf := hl.wf hI.wf
      refine ⟨_, by rw [fdWorldStep, hl.table_eq, ok_bind, fdTableSet_some hwf _ e hi]; rfl,
        hI.put_held hl (wf_put hwf e hi).1 rfl (hI.counted.freeOld (slots_le_refs hl) i.toNat) fun p => ?_⟩
      have hset := slots_set (some e) p (show i.toNat < tab.entries.length by rw [hwf.entries_length]; exact hi)
      have hle := slots_le_refs hl p
      have hsl := taken_le_slots tab i.toNat p
      have hst := held_store hcount p
      simp only [FdTable.slots, FdWorld.put, Option.some.injEq] at hset hle hsl hst ⊢
      omega
  | append t e =>
    obtain ⟨tab, hl, hroom⟩ := hbounds
    obtain ⟨k, t', happ, hwf', href, -, -, hslots⟩ :=
      fdTableAppend_ok (hl.wf hI.wf) e (hroom.append (hcount.2 tab hl))
    refine ⟨_, by rw [fdWorldStep, hl.table_eq, ok_bind, happ]; rfl,
      hI.put_held hl hwf' href hI.counted fun p => ?_⟩
    have hsl := hslots p
    have hst := held_store hcount.1 p
    simp only [FdWorld.put, Option.some.injEq] at hsl hst ⊢
    omega
  | get t i =>
    obtain ⟨tab, hl, hi⟩ := hbounds
    exact ⟨w, by rw [fdWorldStep, hl.table_eq, ok_bind, fdTableGet_ok (hl.wf hI.wf) hi]; rfl, hI⟩
  | clone t =>
    obtain ⟨tab, hl, hsmall⟩ := hbounds
    obtain ⟨t', hclone, hx⟩ := fdTableClone_copy (hl.wf hI.wf) w.heap hsmall
    refine ⟨_, by rw [fdWorldStep, hl.table_eq, ok_bind, hclone]; rfl, hI.append hx.wf hx.refcount ?_⟩
    refine (hI.counted.referenceAll (tab.entries.take tab.length) fun p hp => ?_).of_eq fun p => ?_
    · exact Nat.lt_of_lt_of_le (List.count_pos_iff.2 (List.mem_of_mem_take hp)) (slots_le_refs hl p)
    · rw [← hx.slots p]
  | reference t =>
    obtain ⟨tab, hl⟩ := hbounds
    exact ⟨_, by rw [fdWorldStep, hl.table_eq, ok_bind]; rfl, reference_counts hI hl⟩
  | free t =>
    obtain ⟨tab, hl⟩ := hbounds
    obtain ⟨x, hx, hI'⟩ := free_counts hI hl (hcount tab hl)
    exact ⟨_, by rw [fdWorldStep, hl.table_eq, ok_bind, hx]; rfl, hI'⟩
  | dup t oldfd =>
    obtain ⟨tab, hl, hget, hroom⟩ := hbounds
    obtain ⟨x, hx, hI'⟩ := dup_counts hI hl hget fun h => ⟨hroom h, hcount tab hl h⟩
    exact ⟨_, by rw [fdWorldStep, hl.table_eq, ok_bind, hx]; rfl, hI'⟩
  | dup2 t oldfd newfd =>
    obtain ⟨tab, hl, hget, hnew⟩ := hbounds
    obtain ⟨x, hx, hI'⟩ := dup2_counts hI hl hget hnew
    exact ⟨_, by rw [fdWorldStep, hl.table_eq, ok_bind, hx]; rfl, hI'⟩
  | close t fdNum =>
    obtain ⟨tab, hl, hget⟩ := hbounds
    obtain ⟨x, hx, hI'⟩ := close_counts hI hl hget
    exact ⟨_, by rw [fdWorldStep, hl.table_eq, ok_bind, hx]; rfl, hI'⟩

end Calls

/-- **Runs.** After every run whose calls meet `FdCountOk` the count of every entry is the number of slots of live
tables that hold it plus the references in hand, and each node was closed once for each of its entries for which that
number is 0. -/
theorem fd_refcounts_are_slots (calls : List FdCall) (hok : StepsMeet fdWorldStep FdCountOk fdBoot calls) :
    ∃ w, runSteps fdWorldStep fdBoot calls = .ok w ∧
      (∀ p, (w.heap.fds p).refcount = slotsOf w.tables p + w.held p) ∧
      ∀ n, w.heap.closed.count n =
        (List.range w.nextFd).countP fun p => w.nodes p = n ∧ slotsOf w.tables p + w.held p = 0 := by
  have hboot : FdInv fdBoot :=
    ⟨by simp [fdBoot], by simp [fdBoot], fun p => rfl, fun p hp => absurd hp (Nat.lt_irrefl 0), fun p _ => rfl,
      fun n => rfl⟩
  obtain ⟨w, hrun, hI⟩ := runSteps_inv (I := fun _ => FdInv) (fun _ => fdWorldStep_counts) calls [] hboot hok
  refine ⟨w, hrun, fun p => ?_, hI.counted.closed⟩
  exact_mod_cast hI.counted.refcount p

/-- Only the slots of the front part of the array are taken. -/
theorem map_below {tab : FdTable} {l : List (Option FdPtr)} {k i : Nat} {e : FdPtr}
    (hl : tab.entries = l ++ List.replicate k none) (he : tab.map i = some e) : i < l.length := by
  by_contra hle
  rw [FdTable.map, hl, List.getElem?_append_right (Nat.le_of_not_lt hle), List.getElem?_replicate] at he
  split at he <;> cases he

/-- A file opened, duplicated, inherited and closed everywhere. -/
theorem fd_refcounts_are_slots_closed :
    ∃ w, runSteps fdWorldStep fdBoot [.tableNew, .fdNew 7, .append 0 0, .dup 0 0, .dup2 0 0 1, .clone 0, .close 0 0,
        .reference 0, .free 0, .free 0, .close 1 1, .free 1] = .ok w ∧
      (∀ p, (w.heap.fds p).refcount = slotsOf w.tables p + w.held p) ∧
      ∀ n, w.heap.closed.count n =
        (List.range w.nextFd).countP fun p => w.nodes p = n ∧ slotsOf w.tables p + w.held p = 0 := by
  apply fd_refcounts_are_slots _
  refine stepsMeet_cons ⟨trivial, trivial⟩ rfl <| stepsMeet_cons ⟨trivial, trivial⟩ rfl <|
    stepsMeet_cons ⟨⟨_, ⟨rfl, by decide⟩, Or.inr (Or.inl (by decide))⟩, by decide, ?_⟩ rfl <|
    stepsMeet_cons ⟨⟨_, ⟨rfl, by decide⟩, fun h => absurd h.2 (by decide), fun _ => Or.inr (Or.inl (by decide))⟩, ?_⟩
      rfl <|
    stepsMeet_cons ⟨⟨_, ⟨rfl, by decide⟩, fun h => absurd h.2 (by decide), fun _ _ => by decide⟩, trivial⟩ rfl <|
    stepsMeet_cons ⟨⟨_, ⟨rfl, by decide⟩, fun i e hi _ => Nat.lt_trans hi (by decide)⟩, trivial⟩ rfl <|
    stepsMeet_cons ⟨⟨_, ⟨rfl, by decide⟩, fun h => absurd h.2 (by decide)⟩, trivial⟩ rfl <|
    stepsMeet_cons ⟨⟨_, rfl, by decide⟩, trivial⟩ rfl <|
    stepsMeet_cons ⟨⟨_, rfl, by decide⟩, ?_⟩ rfl <|
    stepsMeet_cons ⟨⟨_, rfl, by decide⟩, ?_⟩ rfl <|
    stepsMeet_cons ⟨⟨_, ⟨rfl, by decide⟩, fun h => absurd h.2 (by decide)⟩, trivial⟩ rfl <|
    stepsMeet_cons ⟨⟨_, rfl, by decide⟩, ?_⟩ rfl trivial
  · rintro tab ⟨ht, -⟩
    cases ht
    exact Or.inr (by decide)
  · rintro tab ⟨ht, -⟩ -
    cases ht
    exact Or.inr (by decide)
  · rintro tab ⟨ht, -⟩ hr
    cases ht
    exact absurd hr (by decide)
  · rintro tab ⟨ht, -⟩ - i e he
    cases ht
    exact map_below (l := [none, some 0]) (k := 14) rfl he
  · rintro tab ⟨ht, -⟩ - i e he
    cases ht
    exact map_below (l := [some 0]) (k := 15) rfl he

/-- `process_spawn_init` stores the terminal in the slots 0, 1 and 2, which leaves `length` at 2: `fd_table_free` misses the
slot 2, and the entry keeps a reference that nothing holds. -/
theorem fd_table_free_leaks :
    ∃ w, runSteps fdWorldStep fdBoot [.tableNew, .fdNew 7, .set 0 0 (some 0), .fdReference 0, .set 0 1 (some 0),
        .fdReference 0, .set 0 2 (some 0), .free 0] = .ok w ∧
      (w.heap.fds 0).refcount = 1 ∧ slotsOf w.tables 0 = 0 ∧ w.held 0 = 0 ∧ w.heap.closed = [] :=
  ⟨_, rfl, rfl, rfl, rfl, rfl⟩

end Myunix.Process
