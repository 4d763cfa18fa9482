import Myunix.Lib.DoublyLinked
import Myunix.Usb.Uhci

/-!
# The list of queue heads (`usb/uhci.c`)

The queue heads in use are linked three times: the driver goes along `next` and `prev`, the controller along the links in
`head`, from the entries of its frame list. `QhList hc l` says that all of them go through the queue heads of `l`, and
that the last one is `async_qhs`.

`insert_list` and `remove_list` are the steps, `qh_runs_agree` is about every run of `uhci_insert_qh` and
`uhci_remove_qh` from `uhci_controller_init` on.
-/

namespace Myunix.Usb

open Lib

/-! ## Pointers and links -/

/-- A pointer, `none` for `NULL`. -/
def ptr (w : Word) : Option Word := if w = 0#32 then none else some w

/-- The queue head that the controller finds behind a link: its flags say that it is one, and not the end. -/
def linkQh (link : Word) : Option Word := if link &&& 0x3#32 = tdPtrQh then some (link &&& ~~~ 0xF#32) else none

/-- Queue heads are aligned to 16 bytes. -/
def QhAddr (q : Word) : Prop := q ≠ 0#32 ∧ q &&& 0xF#32 = 0#32

section Pointers

variable {q w : Word}

@[simp] theorem ptr_zero : ptr 0#32 = none := rfl

theorem ptr_of_ne (h : w ≠ 0#32) : ptr w = some w := if_neg h

theorem ptr_eq_none : ptr w = none ↔ w = 0#32 := by
  unfold ptr
  split <;> simp_all

theorem ptr_eq_some (h : q ≠ 0#32) : ptr w = some q ↔ w = q := by
  unfold ptr
  split
  · next hw =>
    rw [hw]
    simp [h.symm]
  · simp

@[simp] theorem linkQh_terminate : linkQh tdPtrTerminate = none := by decide

/-- A link is an aligned address with flags in its low bits. -/
theorem addr_or {flags : Word} (h : q &&& 0xF#32 = 0#32) (hflags : flags &&& ~~~ 0xF#32 = 0#32) :
    (q ||| flags) &&& 0x3#32 = flags &&& 0x3#32 ∧ (q ||| flags) &&& ~~~ 0xF#32 = q := by
  have hlow : q &&& 0x3#32 = 0#32 := by
    rw [show 0x3#32 = 0xF#32 &&& 0x3#32 by decide, ← BitVec.and_assoc, h, BitVec.zero_and]
  have hself : q &&& ~~~ 0xF#32 = q := by
    have hsplit : q &&& 0xF#32 ||| q &&& ~~~ 0xF#32 = q := by
      rw [← BitVec.and_or_distrib_left, show 0xF#32 ||| ~~~ 0xF#32 = BitVec.allOnes 32 by decide, BitVec.and_allOnes]
    rw [h, BitVec.zero_or] at hsplit
    exact hsplit
  constructor
  · rw [BitVec.and_comm, BitVec.and_or_distrib_left, BitVec.and_comm 0x3#32 q, hlow, BitVec.zero_or, BitVec.and_comm]
  · rw [BitVec.and_comm, BitVec.and_or_distrib_left, BitVec.and_comm (~~~ 0xF#32) q, hself,
      BitVec.and_comm (~~~ 0xF#32) flags, hflags, BitVec.or_zero]

/-- Following the link to a queue head. -/
theorem linkQh_or (h : q &&& 0xF#32 = 0#32) : linkQh (q ||| tdPtrQh) = some q := by
  obtain ⟨hflags, hself⟩ := addr_or h (show tdPtrQh &&& ~~~ 0xF#32 = 0#32 by decide)
  unfold linkQh
  rw [if_pos (hflags.trans (by decide)), hself]

end Pointers

/-! ## The list -/

/-- `l` is the list of queue heads, for the driver and for the controller. -/
structure QhList (hc : Uhci) (l : List Word) : Prop where
  nodup : l.Nodup
  addr : ∀ q ∈ l, QhAddr q
  first : ∀ i < 1024, linkQh (hc.framelist i) = l.head?
  last : l.getLast? = some hc.asyncQhs
  soft : DLinked (fun q => ptr (hc.qh q).next) (fun q => ptr (hc.qh q).prev) none l
  hard : DLinked (fun q => linkQh (hc.qh q).head) (fun q => ptr (hc.qh q).prev) none l
  terminate : (hc.qh hc.asyncQhs).head = tdPtrTerminate

section Steps

variable {hc hc' : Uhci} {l : List Word} {q : Word}

/-- Only the links matter. -/
theorem QhList.congr (h : QhList hc l) (hframe : hc'.framelist = hc.framelist) (hasync : hc'.asyncQhs = hc.asyncQhs)
    (hqh : ∀ c ∈ l, (hc'.qh c).head = (hc.qh c).head ∧ (hc'.qh c).next = (hc.qh c).next ∧
      (hc'.qh c).prev = (hc.qh c).prev) : QhList hc' l := by
  refine ⟨h.nodup, h.addr, ?_, ?_, ?_, ?_, ?_⟩
  · rw [hframe]
    exact h.first
  · rw [hasync]
    exact h.last
  · exact h.soft.congr (fun c hm => congrArg ptr (hqh c hm).2.1) fun c hm => congrArg ptr (hqh c hm).2.2
  · exact h.hard.congr (fun c hm => congrArg linkQh (hqh c hm).1) fun c hm => congrArg ptr (hqh c hm).2.2
  · rw [hasync, (hqh _ (List.mem_of_getLast? h.last)).1]
    exact h.terminate

/-- The last queue head has none after it. -/
theorem QhList.async_next (h : QhList hc l) : (hc.qh hc.asyncQhs).next = 0#32 := by
  obtain ⟨l', rfl⟩ := List.getLast?_eq_some_iff.1 h.last
  exact ptr_eq_none.1 (h.soft.at l').2

/-- Memory after `uhci_insert_qh`. -/
def inserted (hc : Uhci) (q : Word) : Uhci := { hc with
  asyncQhs := q
  qh := Function.update (Function.update hc.qh hc.asyncQhs
    { hc.qh hc.asyncQhs with next := q, head := q ||| tdPtrQh }) q
    { hc.qh q with head := tdPtrTerminate, prev := hc.asyncQhs, next := 0#32 } }

/-- **`uhci_insert_qh`** fails no assertion. -/
theorem uhciInsertQh_eq (h : QhList hc l) (hq : QhAddr q) (hnot : q ∉ l) :
    uhciInsertQh hc q = .ok (inserted hc q) := by
  have hlast : hc.asyncQhs ∈ l := List.mem_of_getLast? h.last
  have hne : hc.asyncQhs ≠ q := ne_of_mem_of_not_mem hlast hnot
  have hqh : Function.update (Function.update (Function.update (Function.update (Function.update hc.qh q
      { hc.qh q with head := tdPtrTerminate }) hc.asyncQhs { hc.qh hc.asyncQhs with next := q }) q
      { hc.qh q with head := tdPtrTerminate, prev := hc.asyncQhs }) q
      { hc.qh q with head := tdPtrTerminate, prev := hc.asyncQhs, next := 0#32 }) hc.asyncQhs
      { hc.qh hc.asyncQhs with next := q, head := q ||| tdPtrQh } = (inserted hc q).qh := by
    funext c
    by_cases hcq : c = q
    · subst hcq
      simp [inserted, Function.update_of_ne hne.symm]
    · by_cases hcl : c = hc.asyncQhs
      · subst hcl
        simp [inserted, Function.update_of_ne hcq]
      · simp [inserted, Function.update_of_ne hcq, Function.update_of_ne hcl]
  unfold uhciInsertQh
  rw [assert_pos (h.addr _ hlast).1, ok_bind, assert_pos h.async_next, ok_bind]
  simp only [Uhci.setQh, Function.update_self, Function.update_of_ne hne, Function.update_of_ne hne.symm, assert_pos hq.2,
    ok_bind, hqh]
  rfl

/-- **A queue head joins at the end.** -/
theorem QhList.insert (h : QhList hc l) (hq : QhAddr q) (hnot : q ∉ l) : QhList (inserted hc q) (l ++ [q]) := by
  have hlast : hc.asyncQhs ∈ l := List.mem_of_getLast? h.last
  have hself : (inserted hc q).qh q = { hc.qh q with head := tdPtrTerminate, prev := hc.asyncQhs, next := 0#32 } :=
    Function.update_self ..
  have hnew : (inserted hc q).qh hc.asyncQhs = { hc.qh hc.asyncQhs with next := q, head := q ||| tdPtrQh } := by
    simp only [inserted, Function.update_of_ne (ne_of_mem_of_not_mem hlast hnot), Function.update_self]
  have hold : ∀ c ∈ l, l.getLast? ≠ some c → (inserted hc q).qh c = hc.qh c := by
    intro c hm hne
    have hcl : c ≠ hc.asyncQhs := fun he => hne (he ▸ h.last)
    simp only [inserted, Function.update_of_ne (ne_of_mem_of_not_mem hm hnot), Function.update_of_ne hcl]
  have hprev : ∀ c ∈ l, ptr ((inserted hc q).qh c).prev = ptr (hc.qh c).prev := by
    intro c hm
    by_cases hcl : l.getLast? = some c
    · obtain rfl : hc.asyncQhs = c := Option.some.inj (h.last.symm.trans hcl)
      rw [hnew]
    · rw [hold c hm hcl]
  have hnewPrev : ptr ((inserted hc q).qh q).prev = l.getLast?.or none := by
    rw [hself, h.last, Option.or_none]
    exact ptr_of_ne (h.addr _ hlast).1
  refine ⟨?_, ?_, ?_, ?_, ?_, ?_, ?_⟩
  · exact List.nodup_append_comm.1 (List.nodup_cons.2 ⟨hnot, h.nodup⟩)
  · intro c hm
    rcases List.mem_append.1 hm with hm | hm
    · exact h.addr c hm
    · rw [List.mem_singleton.1 hm]
      exact hq
  · intro i hi
    rw [List.head?_append_of_ne_nil _ (List.ne_nil_of_mem hlast)]
    exact h.first i hi
  · exact List.getLast?_concat
  · refine h.soft.extend h.nodup (fun c hcl => ?_) (fun c hm hne => by rw [hold c hm hne]) hprev ?_ hnewPrev
    · obtain rfl : hc.asyncQhs = c := Option.some.inj (h.last.symm.trans hcl)
      rw [hnew]
      exact ptr_of_ne hq.1
    · rw [hself]
      rfl
  · refine h.hard.extend h.nodup (fun c hcl => ?_) (fun c hm hne => by rw [hold c hm hne]) hprev ?_ hnewPrev
    · obtain rfl : hc.asyncQhs = c := Option.some.inj (h.last.symm.trans hcl)
      rw [hnew]
      exact linkQh_or hq.2
    · rw [hself]
      exact linkQh_terminate
  · show ((inserted hc q).qh q).head = tdPtrTerminate
    rw [hself]

/-- The queue heads after `uhci_remove_qh`. -/
def removedQh (hc : Uhci) (q c : Word) : UhciQh := { hc.qh c with
  head := if c = (hc.qh q).prev then (hc.qh q).head else (hc.qh c).head
  next := if c = (hc.qh q).prev then (hc.qh q).next else (hc.qh c).next
  prev := if ptr (hc.qh q).next = some c then (hc.qh q).prev else (hc.qh c).prev }

/-- Memory after `uhci_remove_qh`. -/
def removed (hc : Uhci) (q : Word) : Uhci := { hc with
  asyncQhs := if hc.asyncQhs = q then (if (hc.qh q).next ≠ 0#32 then (hc.qh q).next else (hc.qh q).prev)
    else hc.asyncQhs
  qh := removedQh hc q }

theorem unlinkQh_eq (hc : Uhci) (q : Word) :
    unlinkQh hc q (hc.qh q).prev (hc.qh q).next = { hc with qh := removedQh hc q } := by
  have hlinks : Function.update (Function.update hc.qh (hc.qh q).prev
      { hc.qh (hc.qh q).prev with head := (hc.qh q).head }) (hc.qh q).prev
      { hc.qh (hc.qh q).prev with head := (hc.qh q).head, next := (hc.qh q).next } =
      fun c => { removedQh hc q c with prev := (hc.qh c).prev } := by
    funext c
    by_cases hcp : c = (hc.qh q).prev
    · subst hcp
      simp [removedQh]
    · simp [removedQh, hcp]
  unfold unlinkQh
  simp only [Uhci.setQh, Function.update_self, hlinks]
  by_cases hnext : (hc.qh q).next = 0#32
  · rw [if_neg (not_not.2 hnext)]
    congr 1
    funext c
    simp [removedQh, hnext]
  · rw [if_pos hnext]
    congr 1
    funext c
    by_cases hcn : (hc.qh q).next = c
    · subst hcn
      simp [removedQh, ptr_of_ne hnext]
    · simp [removedQh, ptr_of_ne hnext, hcn, Function.update_of_ne (Ne.symm hcn)]

/-- **`uhci_remove_qh`** on a queue head that is not the first fails no assertion. -/
theorem uhciRemoveQh_eq (hq : q ≠ 0#32) (hprev : (hc.qh q).prev ≠ 0#32) : uhciRemoveQh hc q = .ok (removed hc q) := by
  unfold uhciRemoveQh
  simp only [assert_pos hq, assert_pos hprev, ok_bind, unlinkQh_eq]
  by_cases hlast : hc.asyncQhs = q
  · by_cases hnext : (hc.qh q).next = 0#32
    · simp [hlast, hnext, removed]
    · simp [hlast, hnext, removed]
  · simp [hlast, removed]

/-- **A queue head leaves**, unless it is the first. -/
theorem QhList.remove {l₁ l₂ : List Word} (h : QhList hc (l₁ ++ q :: l₂)) (hfirst : l₁ ≠ []) :
    (hc.qh q).prev ≠ 0#32 ∧ QhList (removed hc q) (l₁ ++ l₂) := by
  obtain ⟨hqnot, hnodup⟩ := List.nodup_cons.1 (List.nodup_middle.1 h.nodup)
  have hmem : ∀ c ∈ l₁ ++ l₂, c ∈ l₁ ++ q :: l₂ := fun c hm => List.mem_append.2
    ((List.mem_append.1 hm).imp_right (List.mem_cons_of_mem q))
  -- its neighbours
  obtain ⟨p, hp⟩ : ∃ p, l₁.getLast? = some p := ⟨_, List.getLast?_eq_some_getLast hfirst⟩
  obtain ⟨hprev, hnext⟩ := h.soft.at l₁
  have hp₁ : p ∈ l₁ := List.mem_of_getLast? hp
  have hpaddr : QhAddr p := h.addr p (List.mem_append_left _ hp₁)
  have hprevq : (hc.qh q).prev = p := by
    rw [hp, Option.some_or] at hprev
    exact (ptr_eq_some hpaddr.1).1 hprev
  have hpp : ∀ c, ptr (hc.qh q).prev = some c ↔ c = (hc.qh q).prev := fun c => by
    rw [hprevq, ptr_of_ne hpaddr.1, Option.some.injEq]
    exact eq_comm
  have hlinkPrev : ∀ c ∈ l₁ ++ l₂, ptr (removedQh hc q c).prev =
      if ptr (hc.qh q).next = some c then ptr (hc.qh q).prev else ptr (hc.qh c).prev := by
    intro c _
    simp only [removedQh, apply_ite ptr]
  have hhard : linkQh (hc.qh q).head = l₂.head? := (h.hard.at l₁).2
  have hasync : (removed hc q).asyncQhs = if hc.asyncQhs = q then
      (if (hc.qh q).next ≠ 0#32 then (hc.qh q).next else (hc.qh q).prev) else hc.asyncQhs := rfl
  -- the last queue head is `q` or one of those behind it
  have hbehind : l₂ ≠ [] → hc.asyncQhs ∈ l₂ := by
    intro hne
    have hlast := h.last
    rw [List.getLast?_append, List.getLast?_cons, List.getLast?_eq_some_getLast hne, Option.some_or, Option.getD_some,
      Option.some.injEq] at hlast
    exact hlast ▸ List.getLast_mem hne
  have hend : hc.asyncQhs = q ↔ l₂ = [] := by
    constructor
    · intro he
      by_contra hne
      exact hqnot (List.mem_append_right _ (he ▸ hbehind hne))
    · rintro rfl
      have hlast := h.last
      rw [List.getLast?_concat, Option.some.injEq] at hlast
      exact hlast.symm
  refine ⟨hprevq ▸ hpaddr.1, hnodup, fun c hm => h.addr c (hmem c hm), ?_, ?_, ?_, ?_, ?_⟩
  · intro i hi
    have hhead : (l₁ ++ l₂).head? = (l₁ ++ q :: l₂).head? :=
      (List.head?_append_of_ne_nil l₁ hfirst).trans (List.head?_append_of_ne_nil l₁ hfirst).symm
    rw [hhead]
    exact h.first i hi
  · rw [hasync, List.getLast?_append]
    cases hl₂ : l₂.getLast? with
    | none =>
      obtain rfl := List.getLast?_eq_none_iff.1 hl₂
      have hnone : (hc.qh q).next = 0#32 := ptr_eq_none.1 hnext
      rw [if_pos (hend.2 rfl), if_neg (not_not.2 hnone), Option.none_or, hp, hprevq]
    | some c =>
      have hcq : hc.asyncQhs ≠ q := fun he => by simp [hend.1 he] at hl₂
      rw [if_neg hcq, Option.some_or, ← hl₂]
      have hlast := h.last
      rw [List.getLast?_append, List.getLast?_cons, Option.some_or] at hlast
      rw [← hlast, hl₂]
      rfl
  · refine h.soft.remove h.nodup (fun c _ => by simp) (fun c _ => ?_) hlinkPrev
    simp only [removed, removedQh, apply_ite ptr, hpp]
  · refine h.hard.remove h.nodup (fun c _ => by simp) (fun c _ => ?_) fun c hm => ?_
    · simp only [removed, removedQh, apply_ite linkQh, hpp]
    · rw [hhard, ← hnext]
      exact hlinkPrev c hm
  · rw [hasync]
    by_cases hlast : hc.asyncQhs = q
    · have hl₂ := hend.1 hlast
      rw [hl₂] at hnext
      have hnone : (hc.qh q).next = 0#32 := ptr_eq_none.1 hnext
      rw [if_pos hlast, if_neg (not_not.2 hnone)]
      simp only [removed, removedQh, if_true]
      rw [← hlast]
      exact h.terminate
    · rw [if_neg hlast]
      have hne : hc.asyncQhs ≠ (hc.qh q).prev := by
        rw [hprevq]
        exact fun he => List.disjoint_of_nodup_append hnodup hp₁ (he ▸ hbehind fun hnil => hlast (hend.2 hnil))
      simp only [removed, removedQh, if_neg hne]
      exact h.terminate

end Steps

/-! ## Runs -/

/-- A call that changes the list. -/
inductive QhOp
  | insert (qh : Word)
  | remove (qh : Word)
deriving DecidableEq, Repr

/-- One call. -/
def qhStep (hc : Uhci) : QhOp → Call Uhci
  | .insert qh => uhciInsertQh hc qh
  | .remove qh => uhciRemoveQh hc qh

/-- The queue head in the frame list. -/
def firstQh (hc : Uhci) : Option Word := linkQh (hc.framelist 0)

/-- The queue head is in the list that the driver goes along. -/
def InQhList (hc : Uhci) (qh : Word) : Prop := ∃ l, Follows (fun q => ptr (hc.qh q).next) (firstQh hc) l ∧ qh ∈ l

/-- When a call may be made: `uhci_insert_qh` for a queue head that is not in the list, `uhci_remove_qh` for one that is,
but not for the first one. -/
def QhLegal (hc : Uhci) : QhOp → Prop
  | .insert qh => QhAddr qh ∧ ¬ InQhList hc qh
  | .remove qh => InQhList hc qh ∧ firstQh hc ≠ some qh

/-- The list after a call. -/
def qhsAfter (l : List Word) : QhOp → List Word
  | .insert qh => l ++ [qh]
  | .remove qh => l.erase qh

section Runs

variable {hc : Uhci} {l : List Word} {q : Word} {op : QhOp}

theorem QhList.firstQh_eq (h : QhList hc l) : firstQh hc = l.head? := h.first 0 (by decide)

theorem inQhList_iff (h : Follows (fun q => ptr (hc.qh q).next) (firstQh hc) l) : InQhList hc q ↔ q ∈ l := by
  constructor
  · rintro ⟨l', hl', hq⟩
    exact hl'.unique h ▸ hq
  · exact fun hq => ⟨l, h, hq⟩

theorem QhList.mem_iff (h : QhList hc l) : InQhList hc q ↔ q ∈ l := by
  apply inQhList_iff
  rw [h.firstQh_eq]
  exact h.soft.follows

/-- **One call** on a list. -/
theorem QhList.step (h : QhList hc l) (hlegal : QhLegal hc op) :
    ∃ hc', qhStep hc op = .ok hc' ∧ QhList hc' (qhsAfter l op) := by
  cases op with
  | insert qh =>
    obtain ⟨haddr, hnot⟩ := hlegal
    rw [h.mem_iff] at hnot
    exact ⟨_, uhciInsertQh_eq h haddr hnot, h.insert haddr hnot⟩
  | remove qh =>
    obtain ⟨hin, hfirst⟩ := hlegal
    obtain ⟨l₁, l₂, rfl⟩ := List.append_of_mem (h.mem_iff.1 hin)
    have hne : l₁ ≠ [] := by
      rintro rfl
      exact hfirst h.firstQh_eq
    obtain ⟨hprev, hlist⟩ := h.remove hne
    have hnot : qh ∉ l₁ := fun hm => (List.nodup_cons.1 (List.nodup_middle.1 h.nodup)).1 (List.mem_append_left l₂ hm)
    refine ⟨_, uhciRemoveQh_eq (h.addr qh (h.mem_iff.1 hin)).1 hprev, ?_⟩
    rw [qhsAfter, List.erase_append_right _ hnot, List.erase_cons_head]
    exact hlist

theorem qhBlock_addr {block : Nat} (h : BitVec.ofNat 32 (block * 4096) ≠ 0#32) :
    QhAddr (BitVec.ofNat 32 (block * 4096)) := by
  refine ⟨h, BitVec.eq_of_toNat_eq ?_⟩
  rw [BitVec.toNat_and, BitVec.toNat_ofNat]
  show block * 4096 % 0x100000000 &&& 0xF = 0
  rw [show 0xF = 2 ^ 4 - 1 by rfl, Nat.and_two_pow_sub_one_eq_mod]
  omega

theorem uhciAllocQh_first (h : (hc.qh hc.queueHeads).active = 0) :
    uhciAllocQh hc = some (hc.queueHeads, hc.setQh hc.queueHeads fun qh => { qh with active := 1 }) := by
  have hbase : hc.qhAt 0 = hc.queueHeads := BitVec.add_zero _
  have hrange : List.range maxQh = 0 :: List.range' 1 15 := by decide
  unfold uhciAllocQh
  rw [hrange, List.find?_cons_of_pos (by simp [hbase, h]), Option.map_some, hbase]

/-- **`uhci_controller_init`** makes a list of one queue head. -/
theorem controllerInit_list {qhBlock tdBlock : Nat} {transfers : Word → UsbTransfer}
    (h : uhciControllerInit qhBlock tdBlock transfers = .ok hc) :
    QhList hc [BitVec.ofNat 32 (qhBlock * 4096)] := by
  unfold uhciControllerInit at h
  simp only [bind_eq_ok, assert_eq_ok] at h
  obtain ⟨-, hqh, -, -, h⟩ := h
  have haddr := qhBlock_addr hqh
  rw [uhciAllocQh_first rfl, pure_eq_ok] at h
  subst h
  have hlink : linkQh (tdPtrQh ||| BitVec.ofNat 32 (qhBlock * 4096)) = some (BitVec.ofNat 32 (qhBlock * 4096)) := by
    rw [BitVec.or_comm]
    exact linkQh_or haddr.2
  refine ⟨List.nodup_singleton _, ?_, ?_, rfl, ?_, ?_, ?_⟩
  · intro q hq
    rw [List.mem_singleton.1 hq]
    exact haddr
  · intro i hi
    simp only [Uhci.setQh, if_pos hi]
    exact hlink
  · simp [DLinked, Uhci.setQh]
  · simp [DLinked, Uhci.setQh]
  · simp [Uhci.setQh]

end Runs

/-- **The list of queue heads.** In every run of `uhci_insert_qh` on queue heads that are not in the list and
`uhci_remove_qh` on queue heads that are, other than the first one, no assertion fails. After it the controller goes
through the same queue heads as the driver in both directions, ends at `async_qhs`, and finds them in the order in which
they were inserted. -/
theorem qh_runs_agree (qhBlock tdBlock : Nat) (transfers : Word → UsbTransfer) (hc₀ : Uhci)
    (hinit : uhciControllerInit qhBlock tdBlock transfers = .ok hc₀) (ops : List QhOp)
    (hlegal : StepsMeet qhStep QhLegal hc₀ ops) :
    ∃ hc l, runSteps qhStep hc₀ ops = .ok hc ∧ l = ops.foldl qhsAfter [BitVec.ofNat 32 (qhBlock * 4096)] ∧ l.Nodup ∧
      (∀ i < 1024, Follows (fun q => linkQh (hc.qh q).head) (linkQh (hc.framelist i)) l) ∧
      Follows (fun q => ptr (hc.qh q).next) (firstQh hc) l ∧
      Follows (fun q => ptr (hc.qh q).prev) (some hc.asyncQhs) l.reverse ∧
      (∀ q ∈ l, ∀ r ∈ l, ptr (hc.qh q).next = some r ↔ ptr (hc.qh r).prev = some q) ∧
      l.getLast? = some hc.asyncQhs ∧ (hc.qh hc.asyncQhs).head = tdPtrTerminate := by
  obtain ⟨hc, hrun, h⟩ := runSteps_inv
    (I := fun done hc => QhList hc (done.foldl qhsAfter [BitVec.ofNat 32 (qhBlock * 4096)]))
    (fun done hc op h hlegal => by
      rw [List.foldl_append]
      exact h.step hlegal) ops [] (controllerInit_list hinit) hlegal
  rw [List.nil_append] at h
  refine ⟨hc, _, hrun, rfl, h.nodup, fun i hi => ?_, ?_, ?_, fun q hq r hr => h.soft.next_iff_prev hq hr, h.last,
    h.terminate⟩
  · rw [h.first i hi]
    exact h.hard.follows
  · rw [h.firstQh_eq]
    exact h.soft.follows
  · rw [← h.last]
    exact DLinked.follows_back _ [] (by rw [List.append_nil]; exact h.soft)

/-- Two queue heads come, the first of them leaves and comes again. -/
def reuseRun : List QhOp := [.insert 0x3020#32, .insert 0x3040#32, .remove 0x3020#32, .insert 0x3020#32]

theorem qh_runs_agree_reuse : ∃ hc₀ hc, uhciControllerInit 3 4 (fun _ => noTransfer) = .ok hc₀ ∧
    runSteps qhStep hc₀ reuseRun = .ok hc ∧
    Follows (fun q => linkQh (hc.qh q).head) (linkQh (hc.framelist 0)) [0x3000#32, 0x3040#32, 0x3020#32] := by
  obtain ⟨hc, l, hrun, hl, -, hhard, -⟩ := qh_runs_agree 3 4 (fun _ => noTransfer) _ rfl reuseRun (by
    refine stepsMeet_cons ⟨⟨by decide, by decide⟩, ?_⟩ rfl ?_
    · refine mt (inQhList_iff (l := [0x3000#32]) ?_).1 (by decide)
      exact ⟨rfl, rfl⟩
    refine stepsMeet_cons ⟨⟨by decide, by decide⟩, ?_⟩ rfl ?_
    · refine mt (inQhList_iff (l := [0x3000#32, 0x3020#32]) ?_).1 (by decide)
      exact ⟨rfl, rfl, rfl⟩
    refine stepsMeet_cons ⟨?_, by decide⟩ rfl ?_
    · refine (inQhList_iff (l := [0x3000#32, 0x3020#32, 0x3040#32]) ?_).2 (by decide)
      exact ⟨rfl, rfl, rfl, rfl⟩
    refine stepsMeet_cons ⟨⟨by decide, by decide⟩, ?_⟩ rfl trivial
    refine mt (inQhList_iff (l := [0x3000#32, 0x3040#32]) ?_).1 (by decide)
    exact ⟨rfl, rfl, rfl⟩)
  have hends : l = [0x3000#32, 0x3040#32, 0x3020#32] := hl.trans (by decide)
  exact ⟨_, hc, rfl, hrun, hends ▸ hhard 0 (by decide)⟩

end Myunix.Usb
