import Myunix.Base

/-!
# File descriptors and descriptor tables (`process.c`)

An `fd_entry_t` is a reference-counted open file, an `fd_table_t` an array of `capacity` pointers to such entries of
which the code treats the first `length` as in use. The entries live in a heap `FdHeap` that the tables share; the
nodes closed with `fs_close` are logged there in order.

Array accesses outside `entries` stop with `Failure.bounds`.
-/

namespace Myunix.Process

open Lib

/-- `fd_entry_t *`. -/
abbrev FdPtr := Nat

/-- `fs_node_t *`. -/
abbrev NodePtr := Nat

/-- `fd_entry_t`; `live` is cleared by `kfree`. -/
structure FdEntry where
  node : Option NodePtr
  seek : Word
  refcount : Int
  live : Bool
deriving DecidableEq, Repr

/-- The entries and the nodes that were closed. -/
structure FdHeap where
  fds : FdPtr → FdEntry
  closed : List NodePtr

/-- `fd_table_t`: `entries` is the array of slots, `none` a `NULL` slot, and `[]` the `NULL` array of a new table. -/
structure FdTable where
  entries : List (Option FdPtr)
  length : Nat
  capacity : Nat
  refcount : Int
deriving DecidableEq, Repr

/-! ## Entries -/

/-- `fd_reference`. -/
def fdReference (h : FdHeap) (p : FdPtr) : FdHeap :=
  if (h.fds p).refcount ≠ -1 then
    { h with fds := Function.update h.fds p { h.fds p with refcount := (h.fds p).refcount + 1 } }
  else h

/-- `fd_free`: the last reference closes the node and frees the (then zeroed) entry. -/
def fdFree (h : FdHeap) (p : FdPtr) : FdHeap :=
  if (h.fds p).refcount = -1 then h
  else if (h.fds p).refcount - 1 = 0 then
    { fds := Function.update h.fds p ⟨none, 0, 0, false⟩
      closed := h.closed ++ (h.fds p).node.toList }
  else { h with fds := Function.update h.fds p { h.fds p with refcount := (h.fds p).refcount - 1 } }

/-! ## Tables -/

/-- Read `entries[i]`. -/
def FdTable.slot (t : FdTable) (i : Nat) : Kernel (Option FdPtr) :=
  match t.entries[i]? with
  | some p => .ok p
  | none => .error .bounds

/-- Write `entries[i]`. -/
def FdTable.setSlot (t : FdTable) (i : Nat) (p : Option FdPtr) : Kernel FdTable :=
  if i < t.entries.length then .ok { t with entries := t.entries.set i p } else .error .bounds

/-- The slots that `kcalloc(capacity, sizeof(fd_entry_t *))` makes room for: the byte count is a 32-bit product. -/
def kcallocSlots (capacity : Nat) : Nat := capacity * 4 % 0x100000000 / 4

/-- `fd_table_realloc`: a zeroed array of the new capacity that keeps the first `length` slots. `memcpy` stops on a
length of 0 bytes. -/
def fdTableRealloc (t : FdTable) : Kernel FdTable :=
  if t.entries = [] then .ok { t with entries := List.replicate (kcallocSlots t.capacity) none }
  else do
    let copied := kcallocSlots t.length
    kassert (copied ≠ 0)
    if copied ≤ t.entries.length ∧ copied ≤ kcallocSlots t.capacity then
      return { t with entries := t.entries.take copied ++ List.replicate (kcallocSlots t.capacity - copied) none }
    else throw .bounds

/-- `fd_table_reference`. -/
def fdTableReference (t : FdTable) : FdTable :=
  if t.refcount ≠ -1 then { t with refcount := t.refcount + 1 } else t

/-- `fd_table_new`. -/
def fdTableNew : Kernel FdTable := do
  let t ← fdTableRealloc { entries := [], length := 0, capacity := 16, refcount := 0 }
  return fdTableReference t

/-- `fd_table_set`. -/
def fdTableSet (h : FdHeap) (t : FdTable) (i : Nat) : Option FdPtr → Kernel (Nat × FdHeap × FdTable)
  | none =>
    if i < t.capacity then do
      match ← t.slot i with
      | some old => return (i, fdFree h old, ← t.setSlot i none)
      | none => return (i, h, t)
    else return (i, h, t)
  | some entry => do
    let (h, t) ←
      if i < t.capacity then do
        match ← t.slot i with
        | some old => pure (fdFree h old, t)
        | none => pure (h, t)
      else do
        let t ← fdTableRealloc { t with capacity := i }
        pure (h, t)
    let t ← t.setSlot i (some entry)
    return (i, h, if t.length < i then { t with length := i } else t)

/-- The search loop of `fd_table_append`: the first empty slot among the `n` slots from `i`. -/
def appendGap (t : FdTable) : Nat → Nat → Kernel (Option Nat)
  | _, 0 => .ok none
  | i, n + 1 => do
    match ← t.slot i with
    | none => return some i
    | some _ => appendGap t (i + 1) n

/-- `fd_table_append`. -/
def fdTableAppend (t : FdTable) (entry : FdPtr) : Kernel (Nat × FdTable) := do
  match ← appendGap t 0 t.length with
  | some i => return (i, ← t.setSlot i (some entry))
  | none =>
    let t ←
      if t.length = t.capacity then fdTableRealloc { t with capacity := (t.capacity + 8) % 0x100000000 } else pure t
    let t ← t.setSlot t.length (some entry)
    return (t.length, { t with length := t.length + 1 })

/-- `fd_table_get`. -/
def fdTableGet (t : FdTable) (i : Nat) : Kernel (Option FdPtr) :=
  if i > t.length then .ok none else t.slot i

/-- The loop body of `fd_table_clone`. -/
def fdTableCloneBody (old : FdTable) (i : Nat) : FdHeap × FdTable → Kernel (FdHeap × FdTable)
  | (h, new) => do
    match ← fdTableGet old i with
    | some p =>
      let (_, h, new) ← fdTableSet (fdReference h p) new i (some p)
      return (h, new)
    | none =>
      let (_, h, new) ← fdTableSet h new i none
      return (h, new)

/-- `fd_table_clone`. -/
def fdTableClone (h : FdHeap) (old : FdTable) : Kernel (FdHeap × FdTable) := do
  let new ← fdTableNew
  forRange (fdTableCloneBody old) 0 old.length (h, new)

/-! ## Calls on a set of tables -/

/-- All tables, in the order they were created, over one heap of entries. -/
structure FdState where
  heap : FdHeap
  tables : List FdTable

/-- A call on table `t`. -/
inductive FdOp
  | set (t : Nat) (i : Word) (entry : Option FdPtr)
  | append (t : Nat) (entry : FdPtr)
  | get (t : Nat) (i : Word)
  | clone (t : Nat)
deriving DecidableEq, Repr

/-- What a call returns: an index, an entry, or the new table. -/
inductive FdResult
  | index (i : Nat)
  | entry (p : Option FdPtr)
  | table (t : Nat)
deriving DecidableEq, Repr

/-- The table behind a table pointer. -/
def FdState.table (s : FdState) (t : Nat) : Kernel FdTable :=
  match s.tables[t]? with
  | some tab => .ok tab
  | none => .error .bounds

/-- One call. -/
def fdStep (s : FdState) : FdOp → Kernel (FdResult × FdState)
  | .set t i entry => do
    let (r, h, tab) ← fdTableSet s.heap (← s.table t) i.toNat entry
    return (.index r, ⟨h, s.tables.set t tab⟩)
  | .append t entry => do
    let (r, tab) ← fdTableAppend (← s.table t) entry
    return (.index r, { s with tables := s.tables.set t tab })
  | .get t i => do
    return (.entry (← fdTableGet (← s.table t) i.toNat), s)
  | .clone t => do
    let (h, tab) ← fdTableClone s.heap (← s.table t)
    return (.table s.tables.length, ⟨h, s.tables ++ [tab]⟩)

/-- The state after `fd_table_new`. -/
def fdInit (h : FdHeap) : Kernel FdState := do
  return ⟨h, [← fdTableNew]⟩

end Myunix.Process
