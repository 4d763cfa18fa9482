import Myunix.Process.FdTableMap

/-!
# Descriptors of all processes

The tables of all processes share the entries. Processes make tables and entries, store entries, copy tables, share
them by reference and free them; `dup`, `dup2` and `close` do so with indices from user registers. A table whose count
has dropped to 0 is freed.

`fd_runs_in_bounds` says when the accesses to the arrays of all tables stay inside them. `fd_table_set` beyond
`capacity` grows the array to `i` slots and then writes slot `i`; `fd_table_get` allows `i = length`, which a full
table does not have.
-/

namespace Myunix.Process

open Lib

/-! ## The calls -/

/-- `fd_new` at the address `p`. -/
def fdNew (h : FdHeap) (p : FdPtr) : FdHeap :=
  fdReference { h with fds := Function.update h.fds p ⟨none, 0#32, 0, true⟩ } p

/-- One round of the loop of `fd_table_free`. -/
def fdTableFreeBody (t : FdTable) (i : Nat) (h : FdHeap) : Kernel FdHeap := do
  match ← t.slot i with
  | some p => return fdFree h p
  | none => return h

/-- `fd_table_free`. -/
def fdTableFree (h : FdHeap) (t : FdTable) : Kernel (FdHeap × FdTable) := do
  kassert (t.refcount ≠ -1)
  let t := { t with refcount := t.refcount - 1 }
  if t.refcount = 0 then do
    let h ← forRange (fdTableFreeBody t) 0 t.length h
    return (h, t)
  else return (h, t)

/-- `syscall_dup`. The index that `fd_table_append` returns is never `-1`. -/
def syscallDup (h : FdHeap) (t : FdTable) (oldfd : Word) : Kernel (FdHeap × FdTable) := do
  match ← fdTableGet t oldfd.toNat with
  | none => return (h, t)
  | some fd =>
    kassert ((h.fds fd).node ≠ none)
    let (_, t) ← fdTableAppend t fd
    return (fdReference h fd, t)

/-- `syscall_dup2`. -/
def syscallDup2 (h : FdHeap) (t : FdTable) (oldfd newfd : Word) : Kernel (FdHeap × FdTable) := do
  match ← fdTableGet t oldfd.toNat with
  | none => return (h, t)
  | some fd =>
    kassert ((h.fds fd).node ≠ none)
    if newfd = oldfd then return (h, t)
    else
      let (_, h, t) ← fdTableSet (fdReference h fd) t newfd.toNat (some fd)
      return (h, t)

/-- `syscall_close`. -/
def syscallClose (h : FdHeap) (t : FdTable) (fdNum : Word) : Kernel (FdHeap × FdTable) := do
  match ← fdTableGet t fdNum.toNat with
  | none => return (h, t)
  | some fd =>
    kassert ((h.fds fd).node ≠ none)
    let (_, h, t) ← fdTableSet h t fdNum.toNat none
    return (h, t)

/-! ## The system -/

/-- The entries and tables of all processes. `held` counts the references that kernel code has from `fd_new` or
`fd_reference` and has not stored yet, and `nodes` the node each entry was made for. -/
structure FdWorld where
  heap : FdHeap
  nextFd : FdPtr
  tables : List FdTable
  held : FdPtr → Nat
  nodes : FdPtr → NodePtr

/-- A call. A table is named by its place among the tables made so far. -/
inductive FdCall
  | tableNew
  /-- `fd_new`, with the node its callers store in the entry. -/
  | fdNew (node : NodePtr)
  | fdReference (p : FdPtr)
  | set (t : Nat) (i : Word) (entry : Option FdPtr)
  | append (t : Nat) (entry : FdPtr)
  | get (t : Nat) (i : Word)
  | clone (t : Nat)
  | reference (t : Nat)
  | free (t : Nat)
  | dup (t : Nat) (oldfd : Word)
  | dup2 (t : Nat) (oldfd newfd : Word)
  | close (t : Nat) (fdNum : Word)
deriving DecidableEq, Repr

namespace FdWorld

/-- The table behind a pointer, if it has not been freed. -/
def table (w : FdWorld) (t : Nat) : Kernel FdTable :=
  match w.tables[t]? with
  | some tab => if tab.refcount = 0 then .error .bounds else .ok tab
  | none => .error .bounds

/-- Write back a table and the heap. -/
def put (w : FdWorld) (t : Nat) (x : FdHeap × FdTable) : FdWorld :=
  { w with heap := x.1, tables := w.tables.set t x.2 }

/-- A stored reference is not held any more. -/
def store (w : FdWorld) (entry : FdPtr) : FdWorld :=
  { w with held := Function.update w.held entry (w.held entry - 1) }

end FdWorld

/-- One call. -/
def fdWorldStep (w : FdWorld) : FdCall → Kernel FdWorld
  | .tableNew => do
    let tab ← fdTableNew
    return { w with tables := w.tables ++ [tab] }
  | .fdNew node => do
    let h := fdNew w.heap w.nextFd
    return { w with
      heap := { h with fds := Function.update h.fds w.nextFd { h.fds w.nextFd with node := some node } }
      nextFd := w.nextFd + 1
      held := Function.update w.held w.nextFd 1
      nodes := Function.update w.nodes w.nextFd node }
  | .fdReference p => do
    return { w with heap := Process.fdReference w.heap p, held := Function.update w.held p (w.held p + 1) }
  | .set t i none => do
    let (_, h, tab) ← fdTableSet w.heap (← w.table t) i.toNat none
    return w.put t (h, tab)
  | .set t i (some entry) => do
    let (_, h, tab) ← fdTableSet w.heap (← w.table t) i.toNat (some entry)
    return (w.put t (h, tab)).store entry
  | .append t entry => do
    let (_, tab) ← fdTableAppend (← w.table t) entry
    return (w.put t (w.heap, tab)).store entry
  | .get t i => do
    let _ ← fdTableGet (← w.table t) i.toNat
    return w
  | .clone t => do
    let (h, tab) ← fdTableClone w.heap (← w.table t)
    return { w with heap := h, tables := w.tables ++ [tab] }
  | .reference t => do
    let tab ← w.table t
    return w.put t (w.heap, fdTableReference tab)
  | .free t => do
    let r ← fdTableFree w.heap (← w.table t)
    return w.put t r
  | .dup t oldfd => do
    let r ← syscallDup w.heap (← w.table t) oldfd
    return w.put t r
  | .dup2 t oldfd newfd => do
    let r ← syscallDup2 w.heap (← w.table t) oldfd newfd
    return w.put t r
  | .close t fdNum => do
    let r ← syscallClose w.heap (← w.table t) fdNum
    return w.put t r

/-- No tables and no entries. -/
def fdBoot : FdWorld := ⟨⟨fun _ => ⟨none, 0#32, 0, false⟩, []⟩, 0, [], fun _ => 0, fun _ => 0⟩

/-! ## Accesses inside the arrays -/

/-- A table that has not been freed. -/
def FdWorld.Live (w : FdWorld) (t : Nat) (tab : FdTable) : Prop := w.tables[t]? = some tab ∧ tab.refcount ≠ 0

/-- `fd_table_append` finds a gap, has a slot left, or can grow. -/
def FdTable.Room (tab : FdTable) : Prop :=
  (∃ j < tab.length, tab.map j = none) ∨ tab.length < tab.capacity ∨
    (tab.length = tab.capacity ∧ tab.capacity + 8 < 0x40000000)

/-- `fd_table_get` is not asked for the slot behind a full table. -/
def FdTable.Gets (tab : FdTable) (i : Nat) : Prop := ¬ (i = tab.length ∧ tab.length = tab.capacity)

/-- When a call stays inside the arrays. -/
def FdInBounds (w : FdWorld) : FdCall → Prop
  | .tableNew => True
  | .fdNew _ => True
  | .fdReference _ => True
  | .set t i (some _) => ∃ tab, w.Live t tab ∧ i.toNat < tab.capacity
  | .set t _ none => ∃ tab, w.Live t tab
  | .append t _ => ∃ tab, w.Live t tab ∧ tab.Room
  | .get t i => ∃ tab, w.Live t tab ∧ tab.Gets i.toNat
  | .clone t => ∃ tab, w.Live t tab ∧ ∀ i e, i < tab.length → tab.map i = some e → i < 16
  | .reference t => ∃ tab, w.Live t tab
  | .free t => ∃ tab, w.Live t tab
  | .dup t oldfd => ∃ tab, w.Live t tab ∧ tab.Gets oldfd.toNat ∧ (tab.map oldfd.toNat ≠ none → tab.Room)
  | .dup2 t oldfd newfd => ∃ tab, w.Live t tab ∧ tab.Gets oldfd.toNat ∧
      (tab.map oldfd.toNat ≠ none → newfd ≠ oldfd → newfd.toNat < tab.capacity)
  | .close t fdNum => ∃ tab, w.Live t tab ∧ tab.Gets fdNum.toNat

section Bounds

variable {w : FdWorld} {t : Nat} {tab : FdTable}

theorem FdWorld.Live.table_eq (h : w.Live t tab) : w.table t = .ok tab := by
  rw [FdWorld.table, h.1]
  exact if_neg h.2

theorem FdWorld.Live.wf (h : w.Live t tab) (hwf : ∀ t ∈ w.tables, t.WF) : tab.WF :=
  hwf _ (List.mem_of_getElem? h.1)

theorem wf_append {ts : List FdTable} (hts : ∀ t ∈ ts, t.WF) (htab : tab.WF) : ∀ t ∈ ts ++ [tab], t.WF := by
  intro t ht
  rcases List.mem_append.1 ht with h | h
  · exact hts t h
  · rw [List.mem_singleton.1 h]
    exact htab

theorem fdTableReference_wf (h : tab.WF) : (fdTableReference tab).WF := by
  unfold fdTableReference
  split
  · exact ⟨h.entries_length, h.length_le, h.capacity_lt, h.capacity_pos, h.tail⟩
  · exact h

/-- The entries of the slots of a list, freed one after the other. -/
def freeAll (h : FdHeap) (l : List (Option FdPtr)) : FdHeap := l.foldl (fun h e => e.elim h (fdFree h)) h

theorem freeAll_append (h : FdHeap) (l l' : List (Option FdPtr)) : freeAll h (l ++ l') = freeAll (freeAll h l) l' := by
  simp [freeAll, List.foldl_append]

/-- The loop of `fd_table_free` frees the entries below `length`. -/
theorem fdTableFree_loop (h : tab.WF) (heap : FdHeap) :
    forRange (fdTableFreeBody tab) 0 tab.length heap = .ok (freeAll heap (tab.entries.take tab.length)) := by
  have hstep : ∀ j x, 0 ≤ j → j < 0 + tab.length → x = freeAll heap (tab.entries.take j) →
      ∃ x', fdTableFreeBody tab j x = .ok x' ∧ x' = freeAll heap (tab.entries.take (j + 1)) := by
    intro j x _ hj hx
    have hjt : j < tab.entries.length := by
      have := h.length_le
      rw [h.entries_length]
      omega
    rw [take_succ_slots hjt, freeAll_append, ← hx]
    cases hs : tab.map j with
    | none => exact ⟨x, by simp [fdTableFreeBody, slot_of_lt hjt, hs, pure, Except.pure], rfl⟩
    | some e => exact ⟨fdFree x e, by simp [fdTableFreeBody, slot_of_lt hjt, hs, pure, Except.pure], rfl⟩
  obtain ⟨heap', hloop, hheap⟩ :=
    forRange_ok (P := fun i x => x = freeAll heap (tab.entries.take i)) (s := heap) hstep rfl
  rw [hloop, hheap, Nat.zero_add]

theorem wf_refcount (h : tab.WF) (n : Int) : FdTable.WF { tab with refcount := n } :=
  ⟨h.entries_length, h.length_le, h.capacity_lt, h.capacity_pos, h.tail⟩

/-- `fd_table_free` of a live table. -/
theorem fdTableFree_eq (h : tab.WF) (heap : FdHeap) (hr : tab.refcount ≠ -1) :
    fdTableFree heap tab = .ok (if tab.refcount - 1 = 0 then freeAll heap (tab.entries.take tab.length) else heap,
      { tab with refcount := tab.refcount - 1 }) := by
  have hwf := wf_refcount h (tab.refcount - 1)
  rw [fdTableFree, assert_bind hr]
  by_cases hz : tab.refcount - 1 = 0
  · simp only [hz, if_true]
    have := fdTableFree_loop hwf heap
    simp only [hz] at this
    rw [this]
    rfl
  · simp [hz, pure, Except.pure]

theorem syscallDup_yields (h : tab.WF) {heap : FdHeap} {oldfd : Word} (hget : tab.Gets oldfd.toNat)
    (hroom : tab.map oldfd.toNat ≠ none → tab.Room) :
    Yields (syscallDup heap tab oldfd) (fun x => x.2.WF) (· ≠ .bounds) := by
  rw [syscallDup, fdTableGet_ok h hget, ok_bind]
  cases hs : tab.map oldfd.toNat with
  | none => exact h
  | some fd =>
    obtain ⟨k, t', happ, hwf, -⟩ := fdTableAppend_store h fd (hroom (by rw [hs]; simp))
    apply Yields.bind (yields_assert (by simp))
    intro _ _
    rw [happ, ok_bind]
    exact hwf

theorem syscallDup2_yields (h : tab.WF) {heap : FdHeap} {oldfd newfd : Word} (hget : tab.Gets oldfd.toNat)
    (hnew : tab.map oldfd.toNat ≠ none → newfd ≠ oldfd → newfd.toNat < tab.capacity) :
    Yields (syscallDup2 heap tab oldfd newfd) (fun x => x.2.WF) (· ≠ .bounds) := by
  rw [syscallDup2, fdTableGet_ok h hget, ok_bind]
  cases hs : tab.map oldfd.toNat with
  | none => exact h
  | some fd =>
    apply Yields.bind (yields_assert (by simp))
    intro _ _
    by_cases heq : newfd = oldfd
    · rw [if_pos heq]
      exact h
    · have hlt := hnew (by rw [hs]; simp) heq
      rw [if_neg heq, fdTableSet_some h _ fd hlt, ok_bind]
      exact (wf_put h fd hlt).1

theorem syscallClose_yields (h : tab.WF) {heap : FdHeap} {fdNum : Word} (hget : tab.Gets fdNum.toNat) :
    Yields (syscallClose heap tab fdNum) (fun x => x.2.WF) (· ≠ .bounds) := by
  rw [syscallClose, fdTableGet_ok h hget, ok_bind]
  cases hs : tab.map fdNum.toNat with
  | none => exact h
  | some fd =>
    apply Yields.bind (yields_assert (by simp))
    intro _ _
    rw [fdTableSet_none h, ok_bind]
    exact (wf_clear h fdNum.toNat).1

/-- **One call** leaves well-formed tables behind and does not access a slot outside an array. -/
theorem fdWorldStep_yields (w : FdWorld) (c : FdCall) (hwf : ∀ t ∈ w.tables, t.WF) (hok : FdInBounds w c) :
    Yields (fdWorldStep w c) (fun w' => ∀ t ∈ w'.tables, t.WF) (· ≠ .bounds) := by
  cases c with
  | tableNew =>
    obtain ⟨tab, hnew, htab, -⟩ := fdTableNew_ok
    simp only [fdWorldStep, hnew, ok_bind]
    exact wf_append hwf htab
  | fdNew node => exact hwf
  | fdReference p => exact hwf
  | set t i entry =>
    cases entry with
    | none =>
      obtain ⟨tab, hl⟩ := hok
      simp only [fdWorldStep, hl.table_eq, ok_bind, fdTableSet_none (hl.wf hwf)]
      exact wf_set hwf (wf_clear (hl.wf hwf) i.toNat).1
    | some e =>
      obtain ⟨tab, hl, hi⟩ := hok
      simp only [fdWorldStep, hl.table_eq, ok_bind, fdTableSet_some (hl.wf hwf) _ e hi]
      exact wf_set hwf (wf_put (hl.wf hwf) e hi).1
  | append t e =>
    obtain ⟨tab, hl, hroom⟩ := hok
    obtain ⟨k, t', happ, hwf', -⟩ := fdTableAppend_store (hl.wf hwf) e hroom
    simp only [fdWorldStep, hl.table_eq, ok_bind, happ]
    exact wf_set hwf hwf'
  | get t i =>
    obtain ⟨tab, hl, hi⟩ := hok
    simp only [fdWorldStep, hl.table_eq, ok_bind, fdTableGet_ok (hl.wf hwf) hi]
    exact hwf
  | clone t =>
    obtain ⟨tab, hl, hsmall⟩ := hok
    obtain ⟨t', hclone, hx⟩ := fdTableClone_copy (hl.wf hwf) w.heap hsmall
    simp only [fdWorldStep, hl.table_eq, ok_bind, hclone]
    exact wf_append hwf hx.wf
  | reference t =>
    obtain ⟨tab, hl⟩ := hok
    simp only [fdWorldStep, hl.table_eq, ok_bind]
    exact wf_set hwf (fdTableReference_wf (hl.wf hwf))
  | free t =>
    obtain ⟨tab, hl⟩ := hok
    simp only [fdWorldStep, hl.table_eq, ok_bind]
    refine Yields.bind (P := fun x => x.2.WF) ?_ fun x hx => wf_set hwf hx
    by_cases hr : tab.refcount = -1
    · simp [fdTableFree, hr, kassert, assert, Yields]
    · rw [fdTableFree_eq (hl.wf hwf) w.heap hr]
      exact wf_refcount (hl.wf hwf) _
  | dup t oldfd =>
    obtain ⟨tab, hl, hget, hroom⟩ := hok
    simp only [fdWorldStep, hl.table_eq, ok_bind]
    exact Yields.bind (syscallDup_yields (hl.wf hwf) hget hroom) fun x hx => wf_set hwf hx
  | dup2 t oldfd newfd =>
    obtain ⟨tab, hl, hget, hnew⟩ := hok
    simp only [fdWorldStep, hl.table_eq, ok_bind]
    exact Yields.bind (syscallDup2_yields (hl.wf hwf) hget hnew) fun x hx => wf_set hwf hx
  | close t fdNum =>
    obtain ⟨tab, hl, hget⟩ := hok
    simp only [fdWorldStep, hl.table_eq, ok_bind]
    exact Yields.bind (syscallClose_yields (hl.wf hwf) hget) fun x hx => wf_set hwf hx

/-- **Runs.** No call of a run in which every call meets `FdInBounds` reads or writes outside the array of a table, and
every table it leaves has an array of `capacity` slots with `length` among them. -/
theorem fd_runs_in_bounds (calls : List FdCall) (hok : StepsMeet fdWorldStep FdInBounds fdBoot calls) :
    runSteps fdWorldStep fdBoot calls ≠ .error .bounds ∧
      ∀ w, runSteps fdWorldStep fdBoot calls = .ok w →
        ∀ t ∈ w.tables, t.length ≤ t.capacity ∧ t.entries.length = t.capacity := by
  have h := runSteps_yields (I := fun w => ∀ t ∈ w.tables, t.WF) (E := fun e => e ≠ .bounds) fdWorldStep_yields calls
    (by simp [fdBoot]) hok
  constructor
  · intro heq
    rw [heq] at h
    exact h rfl
  · intro w heq t ht
    rw [heq] at h
    exact ⟨(h t ht).length_le, (h t ht).entries_length⟩

end Bounds

/-- A process that opens a file, duplicates it, closes one descriptor and forks. -/
theorem fd_runs_in_bounds_fork :
    ∃ w, runSteps fdWorldStep fdBoot [.tableNew, .fdNew 7, .append 0 0, .dup2 0 0 5, .close 0 0, .clone 0, .free 0] =
      .ok w ∧ ∀ t ∈ w.tables, t.length ≤ t.capacity ∧ t.entries.length = t.capacity := by
  have h := fd_runs_in_bounds [.tableNew, .fdNew 7, .append 0 0, .dup2 0 0 5, .close 0 0, .clone 0, .free 0]
    (stepsMeet_cons trivial rfl <| stepsMeet_cons trivial rfl <|
      stepsMeet_cons ⟨_, ⟨rfl, by decide⟩, Or.inr (Or.inl (by decide))⟩ rfl <|
      stepsMeet_cons ⟨_, ⟨rfl, by decide⟩, fun h => absurd h.2 (by decide), fun _ _ => by decide⟩ rfl <|
      stepsMeet_cons ⟨_, ⟨rfl, by decide⟩, fun h => absurd h.2 (by decide)⟩ rfl <|
      stepsMeet_cons ⟨_, ⟨rfl, by decide⟩, fun i e hi _ => Nat.lt_trans hi (by decide)⟩ rfl <|
      stepsMeet_cons ⟨_, ⟨rfl, by decide⟩⟩ rfl trivial)
  exact ⟨_, rfl, h.2 _ rfl⟩

/-- `dup2(0, 16)` in a process with one open file grows the array to 16 slots and writes slot 16. -/
theorem fd_dup2_out_of_bounds :
    ∃ w tab, runSteps fdWorldStep fdBoot [.tableNew, .fdNew 7, .append 0 0] = .ok w ∧ w.Live 0 tab ∧
      tab.capacity = 16 ∧ fdWorldStep w (.dup2 0 0 16) = .error .bounds :=
  ⟨_, ⟨some 0 :: List.replicate 15 none, 1, 16, 1⟩, rfl, ⟨rfl, by decide⟩, rfl, rfl⟩

end Myunix.Process
