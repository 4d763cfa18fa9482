import Myunix.Lib.Census
import Myunix.Usb.QhList

/-!
# Control transfers (`usb/uhci.c`)

`uhci_dev_control` takes descriptors from the pool one after the other, each of them at once with the fields that the
controller reads and with the pointer that `uhci_process_qh` goes along when it releases them. `Building` says what is
built so far; `Building.add` is one descriptor. `Waiting` holds while the driver polls, whatever the controller does.

`uhci_dev_control_correct` is about a whole request.
-/

namespace Myunix.Usb

open Lib

/-! ## The pools -/

/-- A block of memory from `dma_malloc`. -/
def Block (base : Word) : Prop := base ≠ 0#32 ∧ base &&& 0xFFF#32 = 0#32

section Block

variable {base : Word} {i j : Nat}

theorem block_aligned (block : Nat) : BitVec.ofNat 32 (block * 4096) &&& 0xFFF#32 = 0#32 := by
  apply BitVec.eq_of_toNat_eq
  rw [BitVec.toNat_and, BitVec.toNat_ofNat, show (0xFFF#32).toNat = 2 ^ 12 - 1 by rfl, Nat.and_two_pow_sub_one_eq_mod]
  show _ % 4096 = 0
  omega

theorem Block.toNat (h : Block base) (hi : i < 128) :
    (base + BitVec.ofNat 32 (32 * i)).toNat = base.toNat + 32 * i ∧ base.toNat % 4096 = 0 ∧ 0 < base.toNat := by
  have hmod : base.toNat % 4096 = 0 := by
    have hand := congrArg BitVec.toNat h.2
    rw [BitVec.toNat_and, show (0xFFF#32).toNat = 2 ^ 12 - 1 by rfl, Nat.and_two_pow_sub_one_eq_mod] at hand
    exact hand
  have hpos : 0 < base.toNat := Nat.pos_of_ne_zero fun h0 => h.1 (BitVec.eq_of_toNat_eq h0)
  refine ⟨?_, hmod, hpos⟩
  rw [BitVec.toNat_add, BitVec.toNat_ofNat, Nat.mod_eq_of_lt (show 32 * i < 2 ^ 32 by omega)]
  exact Nat.mod_eq_of_lt (by have := base.isLt; omega)

/-- The records in a block are aligned like queue heads. -/
theorem Block.addr (h : Block base) (hi : i < 128) : QhAddr (base + BitVec.ofNat 32 (32 * i)) := by
  obtain ⟨hto, hmod, hpos⟩ := h.toNat hi
  constructor
  · intro h0
    rw [h0] at hto
    simp at hto
    omega
  · apply BitVec.eq_of_toNat_eq
    rw [BitVec.toNat_and, hto, show (0xF#32).toNat = 2 ^ 4 - 1 by rfl, Nat.and_two_pow_sub_one_eq_mod]
    show _ % 16 = 0
    omega

theorem Block.inj (h : Block base) (hi : i < 128) (hj : j < 128)
    (he : base + BitVec.ofNat 32 (32 * i) = base + BitVec.ofNat 32 (32 * j)) : i = j := by
  have hto := congrArg BitVec.toNat he
  rw [(h.toNat hi).1, (h.toNat hj).1] at hto
  omega

end Block

/-- The number of descriptors that are not active. -/
def inactiveTds (hc : Uhci) : Nat := countBelow maxTd fun i => (hc.td (hc.tdAt i)).active = 0

section Pool

variable {hc hc' : Uhci} {i : Nat}

theorem takeTd_ok (h : 0 < inactiveTds hc) : ∃ i < maxTd, (hc.td (hc.tdAt i)).active = 0 ∧
    takeTd hc = .ok (hc.tdAt i, hc.setTd (hc.tdAt i) fun td => { td with active := 1 }) := by
  obtain ⟨j, hj, hfree⟩ := List.countP_pos_iff.1 h
  cases hfind : (List.range maxTd).find? fun i => (hc.td (hc.tdAt i)).active = 0 with
  | none => exact absurd hfree (List.find?_eq_none.1 hfind j hj)
  | some i =>
    refine ⟨i, List.mem_range.1 (List.mem_of_find?_eq_some hfind), ?_, ?_⟩
    · simpa using List.find?_some hfind
    · rw [takeTd, uhciAllocTd, hfind]
      rfl

theorem takeTd_none (h : inactiveTds hc = 0) : takeTd hc = .error .noTd := by
  have hfind : (List.range maxTd).find? (fun i => (hc.td (hc.tdAt i)).active = 0) = none :=
    List.find?_eq_none.2 (List.countP_eq_zero.1 h)
  rw [takeTd, uhciAllocTd, hfind]
  rfl

/-- Only the activity of the descriptors counts. -/
theorem inactiveTds_congr (hbase : hc'.transferDescriptors = hc.transferDescriptors)
    (h : ∀ p, (hc'.td p).active = (hc.td p).active) : inactiveTds hc' = inactiveTds hc := by
  apply countBelow_congr
  intro i _
  rw [h, Uhci.tdAt, Uhci.tdAt, hbase]

/-- One descriptor fewer. -/
theorem inactiveTds_take (hblock : Block hc.transferDescriptors) (hi : i < maxTd)
    (hold : (hc.td (hc.tdAt i)).active = 0) (hbase : hc'.transferDescriptors = hc.transferDescriptors)
    (hnew : (hc'.td (hc.tdAt i)).active = 1)
    (hrest : ∀ p, p ≠ hc.tdAt i → (hc'.td p).active = (hc.td p).active) : inactiveTds hc' + 1 = inactiveTds hc := by
  have hat : ∀ j, hc'.tdAt j = hc.tdAt j := fun j => by rw [Uhci.tdAt, Uhci.tdAt, hbase]
  have hcount := countBelow_update (P := fun j => (hc.td (hc.tdAt j)).active = 0)
    (Q := fun j => j ≠ i ∧ (hc.td (hc.tdAt j)).active = 0) hi fun j hji => by simp [hji]
  have hcongr : inactiveTds hc' = countBelow maxTd fun j => j ≠ i ∧ (hc.td (hc.tdAt j)).active = 0 := by
    apply countBelow_congr
    intro j hj
    by_cases hji : j = i
    · subst hji
      simp [hat, hnew]
    · have hne : hc.tdAt j ≠ hc.tdAt i := fun he => hji (hblock.inj hj hi he)
      simp [hat, hrest _ hne, hji]
  rw [hcongr]
  simpa [hold, inactiveTds] using hcount

end Pool

/-! ## What the controller reads -/

/-- What a descriptor asks the controller for: a packet of `bytes` bytes, from or to `buffer`. -/
structure Packet where
  pid : Byte
  toggle : Bool
  bytes : Nat
  buffer : Word
deriving DecidableEq, Repr

/-- The packet of a descriptor. -/
def UhciTd.packet (td : UhciTd) : Packet :=
  ⟨td.token.setWidth 8, td.token.getLsbD 19, ((td.token >>> 21).toNat + 1) % 0x800, td.buffer⟩

/-- The descriptor that the controller finds behind a link. -/
def linkTd (link : Word) : Option Word := if link &&& 0x3#32 = 0#32 then some (link &&& ~~~ 0xF#32) else none

/-- The link that `uhci_init_td` writes for a descriptor with the pointer `next` to the one behind it. -/
def linkTo (next : Word) : Word := if next = 0#32 then tdPtrTerminate else next ||| tdPtrDepth

/-- The token that `uhci_init_td` writes for endpoint 0. -/
def tokenOf (len : BitVec 16) (toggle addr pid : Byte) : Word :=
  (len.setWidth 32 <<< 21 ||| toggle.setWidth 32 <<< 19 ||| (0 : Byte).setWidth 32 <<< 15 |||
    addr.setWidth 32 <<< 8) ||| pid.setWidth 32

section Token

variable {len : BitVec 16} {toggle addr pid : Byte} {q : Word}

@[simp] theorem tokenOf_pid : (tokenOf len toggle addr pid).setWidth 8 = pid := by
  unfold tokenOf
  apply BitVec.eq_of_getLsbD_eq
  intro i hi
  simp [hi]

@[simp] theorem tokenOf_toggle : (tokenOf len toggle addr pid).getLsbD 19 = toggle.getLsbD 0 := by
  unfold tokenOf
  simp

theorem tokenOf_len (ht : toggle.toNat < 2) : (tokenOf len toggle addr pid >>> 21).toNat = len.toNat % 0x800 := by
  have hbits : tokenOf len toggle addr pid >>> 21 = (len.setWidth 11).setWidth 32 := by
    unfold tokenOf
    apply BitVec.eq_of_getLsbD_eq
    intro i hi
    -- the other fields end below bit 21
    have htoggle : toggle.getLsbD (21 + i - 19) = false :=
      Nat.testBit_lt_two_pow (Nat.lt_of_lt_of_le ht (Nat.pow_le_pow_right (n := 2) (i := 1) (by decide) (by omega)))
    have haddr : addr.getLsbD (21 + i - 8) = false := BitVec.getLsbD_of_ge addr _ (by omega)
    have hpid : pid.getLsbD (21 + i) = false := BitVec.getLsbD_of_ge pid _ (by omega)
    simp [htoggle, haddr, hpid, hi]
    by_cases h : i < 11
    · simp [h]
      omega
    · simp [h]
      omega
  rw [hbits]
  simp
  omega

theorem packet_tokenOf {td : UhciTd} {toggle : Bool} (h : td.token = tokenOf len (if toggle then 1 else 0) addr pid) :
    td.packet = ⟨pid, toggle, (len.toNat % 0x800 + 1) % 0x800, td.buffer⟩ := by
  have hlen : (td.token >>> 21).toNat = len.toNat % 0x800 := by
    rw [h]
    apply tokenOf_len
    cases toggle <;> decide
  have htoggle : td.token.getLsbD 19 = toggle := by
    rw [h, tokenOf_toggle]
    cases toggle <;> rfl
  rw [UhciTd.packet, hlen, htoggle, h, tokenOf_pid]

@[simp] theorem linkTo_zero : linkTo 0#32 = tdPtrTerminate := rfl

theorem linkTo_of_ne (h : q ≠ 0#32) : linkTo q = q ||| tdPtrDepth := if_neg h

/-- The controller finds what the driver has linked. -/
theorem linkTd_linkTo (h : q &&& 0xF#32 = 0#32) : linkTd (linkTo q) = ptr q := by
  by_cases h0 : q = 0#32
  · subst h0
    rfl
  · obtain ⟨hflags, hself⟩ := addr_or h (show tdPtrDepth &&& ~~~ 0xF#32 = 0#32 by decide)
    rw [linkTo_of_ne h0, ptr_of_ne h0, linkTd, if_pos (hflags.trans (by decide)), hself]

end Token

/-! ## Building the descriptors -/

/-- What `uhci_init_td` makes of the descriptor at `p`. -/
def initTd (hc : Uhci) (td prev control token data p : Word) : UhciTd :=
  if p = td then { hc.td p with link := tdPtrTerminate, tdNext := 0#32, control, token, buffer := data }
  else if p = prev ∧ prev ≠ 0#32 then { hc.td p with link := td ||| tdPtrDepth, tdNext := td }
  else hc.td p

/-- `uhci_init_td`. -/
theorem uhciInitTd_eq (hc : Uhci) {td prev : Word} (speed data : Word) {addr toggle pid : Byte} (len : BitVec 16)
    (haddr : addr &&& ~~~ 0x7F = 0) (htoggle : toggle &&& ~~~ 0x1 = 0) (hpid : pid = 0x69 ∨ pid = 0xE1 ∨ pid = 0x2D)
    (hprev : prev ≠ td) :
    ∃ control, uhciInitTd hc td prev speed addr 0 toggle pid len data =
      .ok { hc with td := initTd hc td prev control (tokenOf len toggle addr pid) data } := by
  refine ⟨if speed = 1#32 then tdCtrlActive ||| 0x10000000#32 ||| 0x8000000#32 ||| tdCtrlLowspeed
    else tdCtrlActive ||| 0x10000000#32 ||| 0x8000000#32, ?_⟩
  unfold uhciInitTd
  rw [assert_bind haddr, assert_bind (by decide), assert_bind htoggle, assert_bind hpid]
  refine congrArg Except.ok ?_
  by_cases h0 : prev = 0#32
  · rw [if_neg (not_not.2 h0)]
    simp only [Uhci.setTd, Function.update_self, Function.update_idem]
    congr 1
    funext p
    by_cases hp : p = td
    · subst hp
      simp [initTd, tokenOf]
    · simp [initTd, hp, h0]
  · rw [if_pos h0]
    simp only [Uhci.setTd, Function.update_self, Function.update_idem, Function.update_of_ne hprev.symm]
    congr 1
    funext p
    by_cases hp : p = td
    · subst hp
      simp [initTd, tokenOf]
    · by_cases hpp : p = prev
      · subst hpp
        simp [initTd, hp, h0]
      · simp [initTd, hp, hpp]

/-- The descriptors `tds` were taken from the pool since `hc₀`, and ask for the packets `packets`. -/
structure Building (hc₀ : Uhci) (tds : List Word) (packets : List Packet) (hc : Uhci) : Prop where
  rest : { hc with td := hc₀.td } = hc₀
  nodup : tds.Nodup
  slot : ∀ p ∈ tds, ∃ i < maxTd, p = hc₀.tdAt i
  was : ∀ p ∈ tds, (hc₀.td p).active = 0
  active : ∀ p, (hc.td p).active = if p ∈ tds then 1 else (hc₀.td p).active
  count : inactiveTds hc + tds.length = inactiveTds hc₀
  chain : Follows (fun p => ptr (hc.td p).tdNext) tds.head? tds
  links : ∀ p ∈ tds, (hc.td p).link = linkTo (hc.td p).tdNext
  aligned : ∀ p ∈ tds, (hc.td p).tdNext &&& 0xF#32 = 0#32
  packets : tds.map (fun p => (hc.td p).packet) = packets

section Building

variable {hc₀ hc : Uhci} {tds : List Word} {packets : List Packet}

theorem Building.start (hc₀ : Uhci) : Building hc₀ [] [] hc₀ := by
  refine ⟨rfl, List.nodup_nil, ?_, ?_, fun p => ?_, rfl, rfl, ?_, ?_, rfl⟩
  · exact fun p hp => absurd hp List.not_mem_nil
  · exact fun p hp => absurd hp List.not_mem_nil
  · rw [if_neg List.not_mem_nil]
  · exact fun p hp => absurd hp List.not_mem_nil
  · exact fun p hp => absurd hp List.not_mem_nil

theorem Building.base (h : Building hc₀ tds packets hc) : hc.transferDescriptors = hc₀.transferDescriptors := by
  have hbase := congrArg Uhci.transferDescriptors h.rest
  exact hbase

/-- **One more descriptor.** -/
theorem Building.add (h : Building hc₀ tds packets hc) (hblock : Block hc₀.transferDescriptors)
    (hfree : 0 < inactiveTds hc) (speed data : Word) {addr pid : Byte} (toggle : Bool) (len : BitVec 16)
    (haddr : addr &&& ~~~ 0x7F = 0) (hpid : pid = 0x69 ∨ pid = 0xE1 ∨ pid = 0x2D) :
    ∃ td hc₁ hc', takeTd hc = .ok (td, hc₁) ∧
      uhciInitTd hc₁ td (tds.getLast?.getD 0#32) speed addr 0 (if toggle then 1 else 0) pid len data = .ok hc' ∧
      Building hc₀ (tds ++ [td]) (packets ++ [⟨pid, toggle, (len.toNat % 0x800 + 1) % 0x800, data⟩]) hc' := by
  have hbase := h.base
  obtain ⟨i, hi, hold, htake⟩ := takeTd_ok hfree
  have hat : hc.tdAt i = hc₀.tdAt i := by rw [Uhci.tdAt, Uhci.tdAt, hbase]
  -- the new descriptor is none of the others
  have hnot : hc.tdAt i ∉ tds := by
    intro hm
    rw [h.active, if_pos hm] at hold
    exact absurd hold (by decide)
  have hwas : (hc₀.td (hc.tdAt i)).active = 0 := by
    rw [h.active, if_neg hnot] at hold
    exact hold
  have htd : QhAddr (hc.tdAt i) := by
    rw [hat]
    exact hblock.addr hi
  have hprev : tds.getLast?.getD 0#32 ≠ hc.tdAt i := by
    cases hlast : tds.getLast? with
    | none => exact htd.1.symm
    | some p => exact ne_of_mem_of_not_mem (List.mem_of_getLast? hlast) hnot
  have htoggle : (if toggle then 1 else 0 : Byte) &&& ~~~ 0x1 = 0 := by
    cases toggle <;> decide
  obtain ⟨control, hinit⟩ := uhciInitTd_eq (hc.setTd (hc.tdAt i) fun td => { td with active := 1 }) speed data len
    haddr htoggle hpid hprev
  refine ⟨_, _, _, htake, hinit, ?_⟩
  -- memory afterwards, in terms of memory before
  generalize hhc' : ({ hc.setTd (hc.tdAt i) fun td => { td with active := 1 } with td := _ } : Uhci) = hc'
  have hself : hc'.td (hc.tdAt i) = { hc.td (hc.tdAt i) with
      link := tdPtrTerminate, tdNext := 0#32, control, token := tokenOf len (if toggle then 1 else 0) addr pid
      buffer := data, active := 1 } := by
    simp [← hhc', initTd, Uhci.setTd]
  have hlast : ∀ p, tds.getLast? = some p → hc'.td p = { hc.td p with
      link := hc.tdAt i ||| tdPtrDepth, tdNext := hc.tdAt i } := by
    intro p hp
    have hm := List.mem_of_getLast? hp
    obtain ⟨j, hj, hpj⟩ := h.slot p hm
    have hp0 : p ≠ 0#32 := hpj ▸ (hblock.addr hj).1
    have hne : p ≠ hc.tdAt i := ne_of_mem_of_not_mem hm hnot
    simp [← hhc', initTd, Uhci.setTd, hp, hne, hp0]
  have hother : ∀ p, p ≠ hc.tdAt i → tds.getLast? ≠ some p → hc'.td p = hc.td p := by
    intro p hne hp
    have hprev : ¬ (p = tds.getLast?.getD 0#32 ∧ tds.getLast?.getD 0#32 ≠ 0#32) := by
      rintro ⟨he, h0⟩
      cases hl : tds.getLast? with
      | none => exact h0 (by rw [hl]; rfl)
      | some c => exact hp (by rw [he, hl]; rfl)
    simp only [← hhc', initTd, Uhci.setTd, if_neg hne, if_neg hprev, Function.update_of_ne hne]
  -- the others keep all but their links
  have hkept : ∀ p, p ≠ hc.tdAt i → (hc'.td p).active = (hc.td p).active ∧ (hc'.td p).packet = (hc.td p).packet := by
    intro p hne
    by_cases hp : tds.getLast? = some p
    · rw [hlast p hp]
      exact ⟨rfl, rfl⟩
    · rw [hother p hne hp]
      exact ⟨rfl, rfl⟩
  refine ⟨?_, ?_, ?_, ?_, ?_, ?_, ?_, ?_, ?_, ?_⟩
  · rw [← hhc']
    exact h.rest
  · exact List.nodup_append_comm.1 (List.nodup_cons.2 ⟨hnot, h.nodup⟩)
  · intro p hm
    rcases List.mem_append.1 hm with hm | hm
    · exact h.slot p hm
    · rw [List.mem_singleton.1 hm]
      exact ⟨i, hi, hat⟩
  · intro p hm
    rcases List.mem_append.1 hm with hm | hm
    · exact h.was p hm
    · rw [List.mem_singleton.1 hm]
      exact hwas
  · intro p
    by_cases hp : p = hc.tdAt i
    · subst hp
      rw [hself, if_pos (List.mem_append_right _ (List.mem_singleton_self _))]
    · rw [(hkept p hp).1, h.active]
      simp only [List.mem_append, List.mem_singleton, hp, or_false]
  · have hcount : inactiveTds hc' + 1 = inactiveTds hc :=
      inactiveTds_take (hbase ▸ hblock) hi hold (by rw [← hhc']; rfl) (by rw [hself]) fun p hp => (hkept p hp).1
    have hbefore := h.count
    rw [List.length_append, List.length_singleton]
    omega
  · refine h.chain.extend h.nodup (fun p hp => ?_) (fun p hm hp => ?_) ?_
    · rw [hlast p hp]
      exact ptr_of_ne htd.1
    · rw [hother p (ne_of_mem_of_not_mem hm hnot) hp]
    · rw [hself]
      rfl
  · intro p hm
    rcases List.mem_append.1 hm with hm | hm
    · by_cases hp : tds.getLast? = some p
      · rw [hlast p hp]
        exact (linkTo_of_ne htd.1).symm
      · rw [hother p (ne_of_mem_of_not_mem hm hnot) hp]
        exact h.links p hm
    · rw [List.mem_singleton.1 hm, hself]
      exact linkTo_zero.symm
  · intro p hm
    rcases List.mem_append.1 hm with hm | hm
    · by_cases hp : tds.getLast? = some p
      · rw [hlast p hp]
        exact htd.2
      · rw [hother p (ne_of_mem_of_not_mem hm hnot) hp]
        exact h.aligned p hm
    · rw [List.mem_singleton.1 hm, hself]
      exact BitVec.zero_and
  · rw [List.map_append, List.map_singleton, ← h.packets]
    congr 1
    · exact List.map_congr_left fun p hm => (hkept p (ne_of_mem_of_not_mem hm hnot)).2
    · rw [hself, packet_tokenOf rfl]

/-- The packet of data descriptor `i`. -/
def dataPacket (pid : Byte) (maxLen len : Nat) (data : Word) (i : Nat) : Packet :=
  ⟨pid, decide (i % 2 ≠ 0), min maxLen (len - i * maxLen), data + BitVec.ofNat 32 (i * maxLen)⟩

/-- **One round** of the loop of `uhci_dev_control`. -/
theorem Building.data {x : DataState} (h : Building hc₀ tds packets x.hc) (hblock : Block hc₀.transferDescriptors)
    (hfree : 0 < inactiveTds x.hc) (speed : Byte) {addr pid : Byte} {maxLen len i : Nat} (data : Word)
    (haddr : addr &&& ~~~ 0x7F = 0) (hpid : pid = 0x69 ∨ pid = 0xE1 ∨ pid = 0x2D) (hpos : 0 < maxLen)
    (hmax : maxLen ≤ 64) (hprev : x.prev = tds.getLast?.getD 0#32) (hprogress : x.progress = i * maxLen)
    (hi : i * maxLen < len) :
    ∃ td x', dataTd speed addr pid maxLen len data i x = .ok x' ∧ x'.prev = td ∧
      x'.progress = min ((i + 1) * maxLen) len ∧
      Building hc₀ (tds ++ [td]) (packets ++ [dataPacket pid maxLen len data i]) x'.hc := by
  have hchunk : (if len - x.progress > maxLen then maxLen else len - x.progress) = min maxLen (len - i * maxLen) := by
    rw [hprogress]
    split <;> omega
  obtain ⟨td, hc₁, hc', htake, hinit, hbuilt⟩ := h.add hblock hfree (speed.setWidth 32)
    (data + BitVec.ofNat 32 x.progress) (decide (i % 2 ≠ 0)) (BitVec.ofNat 16 (min maxLen (len - i * maxLen) - 1)) haddr
    hpid
  refine ⟨td, ⟨hc', td, x.progress + min maxLen (len - i * maxLen)⟩, ?_, rfl, ?_, ?_⟩
  · unfold dataTd
    simp only [hchunk, htake, ok_bind, hprev]
    simp only [decide_eq_true_eq] at hinit
    rw [hinit, ok_bind]
    rfl
  · show x.progress + min maxLen (len - i * maxLen) = min ((i + 1) * maxLen) len
    rw [hprogress, Nat.succ_mul]
    omega
  · have hbytes : ((BitVec.ofNat 16 (min maxLen (len - i * maxLen) - 1)).toNat % 0x800 + 1) % 0x800 =
        min maxLen (len - i * maxLen) := by
      rw [BitVec.toNat_ofNat]
      omega
    rw [hbytes, hprogress] at hbuilt
    exact hbuilt

/-- Before round `i` of the loop, `i` data descriptors follow `head`. -/
def DataLoop (hc₀ : Uhci) (head : Word) (packets : List Packet) (pid : Byte) (maxLen len : Nat) (data : Word) (i : Nat)
    (x : DataState) : Prop :=
  ∃ datas, datas.length = i ∧ x.prev = (head :: datas).getLast?.getD 0#32 ∧ x.progress = min (i * maxLen) len ∧
    Building hc₀ (head :: datas) (packets ++ (List.range i).map (dataPacket pid maxLen len data)) x.hc

/-- The loop, or its first rounds: a data packet for each `maxLen` bytes. -/
theorem Building.loop {head : Word} (h : Building hc₀ [head] packets hc) (hblock : Block hc₀.transferDescriptors)
    (speed : Byte) {addr pid : Byte} {maxLen len n : Nat} (data : Word) (haddr : addr &&& ~~~ 0x7F = 0)
    (hpid : pid = 0x69 ∨ pid = 0xE1 ∨ pid = 0x2D) (hpos : 0 < maxLen) (hmax : maxLen ≤ 64)
    (hn : n ≤ (len + maxLen - 1) / maxLen) (hfree : n + 1 ≤ inactiveTds hc₀) :
    ∃ datas x, forRange (dataTd speed addr pid maxLen len data) 0 n ⟨hc, head, 0⟩ = .ok x ∧ datas.length = n ∧
      x.prev = (head :: datas).getLast?.getD 0#32 ∧
      Building hc₀ (head :: datas) (packets ++ (List.range n).map (dataPacket pid maxLen len data)) x.hc := by
  obtain ⟨x, hrun, datas, hlen, hprev, -, hbuilt⟩ := forRange_zero_ok (n := n)
    (P := DataLoop hc₀ head packets pid maxLen len data)
    (fun i x hi ⟨datas, hlen, hprev, hprogress, hbuilt⟩ => by
      have hlt : i * maxLen < len := by
        have hround := Nat.lt_of_lt_of_le hi hn
        rw [Nat.lt_div_iff_mul_lt hpos] at hround
        omega
      have hcount := hbuilt.count
      rw [List.length_cons, hlen] at hcount
      obtain ⟨td, x', hbody, hprev', hprogress', hbuilt'⟩ := hbuilt.data hblock (by omega) speed data haddr hpid hpos
        hmax hprev (hprogress.trans (Nat.min_eq_left (Nat.le_of_lt hlt))) hlt
      refine ⟨x', hbody, datas ++ [td], by rw [List.length_append, hlen]; rfl, ?_, hprogress', ?_⟩
      · rw [hprev', ← List.cons_append, List.getLast?_concat]
        rfl
      · rw [List.range_succ, List.map_append, List.map_singleton, ← List.append_assoc]
        exact hbuilt')
    (⟨[], rfl, rfl, by rw [Nat.zero_mul, Nat.zero_min], by simpa using h⟩ :
      DataLoop hc₀ head packets pid maxLen len data 0 ⟨hc, head, 0⟩)
  exact ⟨datas, x, hrun, hlen, hprev, hbuilt⟩

end Building

/-! ## The data -/

/-- The packets cover `len` bytes from `buffer` on, one after the other, each of them 1 to `maxLen` bytes. -/
def Covers (maxLen : Nat) : Word → Nat → List Packet → Prop
  | _, len, [] => len = 0
  | buffer, len, p :: ps => p.buffer = buffer ∧ 1 ≤ p.bytes ∧ p.bytes ≤ maxLen ∧ p.bytes ≤ len ∧
    Covers maxLen (buffer + BitVec.ofNat 32 p.bytes) (len - p.bytes) ps

theorem covers_dataPackets (pid : Byte) {maxLen len : Nat} (data : Word) (hpos : 0 < maxLen) (k i : Nat)
    (hk : k = (len - i * maxLen + maxLen - 1) / maxLen) :
    Covers maxLen (data + BitVec.ofNat 32 (i * maxLen)) (len - i * maxLen)
      ((List.range' i k).map (dataPacket pid maxLen len data)) := by
  induction k generalizing i with
  | zero =>
    have hzero := Nat.lt_of_div_eq_zero hpos hk.symm
    show len - i * maxLen = 0
    omega
  | succ k ih =>
    have hge : maxLen ≤ len - i * maxLen + maxLen - 1 := by
      by_contra hlt
      rw [Nat.div_eq_of_lt (by omega)] at hk
      omega
    have hsucc : (i + 1) * maxLen = i * maxLen + maxLen := Nat.succ_mul i maxLen
    refine ⟨rfl, ?_, Nat.min_le_left .., Nat.min_le_right .., ?_⟩
    · show 1 ≤ min maxLen (len - i * maxLen)
      omega
    show Covers maxLen (data + BitVec.ofNat 32 (i * maxLen) + BitVec.ofNat 32 (min maxLen (len - i * maxLen)))
      (len - i * maxLen - min maxLen (len - i * maxLen)) ((List.range' (i + 1) k).map (dataPacket pid maxLen len data))
    by_cases hlast : len - i * maxLen ≤ maxLen
    · -- the last packet
      have hk0 : k = 0 := by
        have hquot : (len - i * maxLen - 1 + maxLen) / maxLen = 1 := by
          rw [Nat.add_div_right _ hpos, Nat.div_eq_of_lt (by omega)]
        rw [show len - i * maxLen + maxLen - 1 = len - i * maxLen - 1 + maxLen by omega, hquot] at hk
        omega
      subst hk0
      show len - i * maxLen - min maxLen (len - i * maxLen) = 0
      omega
    · have hrest : k = (len - (i + 1) * maxLen + maxLen - 1) / maxLen := by
        rw [show len - i * maxLen + maxLen - 1 = len - (i + 1) * maxLen + maxLen - 1 + maxLen by omega,
          Nat.add_div_right _ hpos] at hk
        omega
      have hcover := ih (i + 1) hrest
      rw [hsucc, BitVec.ofNat_add, ← BitVec.add_assoc] at hcover
      rw [Nat.min_eq_left (by omega), Nat.sub_sub]
      exact hcover

/-! ## A request -/

/-- The pools are where `uhci_controller_init` put them, and the queue heads of the list are in use. -/
structure Ready (hc : Uhci) (l : List Word) : Prop where
  tds : Block hc.transferDescriptors
  qhs : Block hc.queueHeads
  list : QhList hc l
  active : ∀ q ∈ l, (hc.qh q).active ≠ 0

/-- `PID` of the data packets of a request: `IN` to the host, or `OUT`. -/
def dataPid (req : UsbDevReq) : Byte := if req.type &&& 0x80 ≠ 0 then 0x69 else 0xE1

/-- The opposite direction. -/
def statusPid (req : UsbDevReq) : Byte := if req.type &&& 0x80 ≠ 0 then 0xE1 else 0x69

/-- The number of data packets. -/
def dataCount (req : UsbDevReq) (maxLen : Nat) : Nat := (req.length.toNat + maxLen - 1) / maxLen

/-- The descriptors of the request `t` behind the queue head `qh`: the driver and the controller see the same ones, and
they are a setup packet, the data packets, and a status packet. Every link designates the next descriptor, and the last
one ends the chain. -/
structure ControlChain (hc : Uhci) (t : UsbTransfer) (maxLen : Nat) (qh head : Word) (datas : List Word)
    (status : Word) : Prop where
  driver : Follows (fun p => ptr (hc.td p).tdNext) (ptr (hc.qh qh).tdHead) (head :: datas ++ [status])
  controller : Follows (fun p => linkTd (hc.td p).link) (linkTd (hc.qh qh).element) (head :: datas ++ [status])
  links : ∀ p ∈ head :: datas ++ [status], (hc.td p).link = linkTo (hc.td p).tdNext
  last : (hc.td status).link = tdPtrTerminate
  setup : (hc.td head).packet = ⟨0x2D, false, 8, t.reqPtr⟩
  count : datas.length = dataCount t.req maxLen
  data : Covers maxLen t.data t.req.length.toNat (datas.map fun p => (hc.td p).packet)
  direction : ∀ p ∈ datas, (hc.td p).packet.pid = dataPid t.req
  toggle : datas.map (fun p => (hc.td p).packet.toggle) = (List.range datas.length).map fun i => decide (i % 2 ≠ 0)
  status : (hc.td status).packet = ⟨statusPid t.req, false, 0, 0#32⟩

/-- The request in `qh` with the descriptors `tds` is under way; `hc₀` was before it. -/
structure Waiting (hc₀ : Uhci) (l : List Word) (qh trans : Word) (tds : List Word) (hc : Uhci) : Prop where
  tdBase : hc.transferDescriptors = hc₀.transferDescriptors
  qhBase : hc.queueHeads = hc₀.queueHeads
  list : QhList hc (l ++ [qh])
  transfer : (hc.qh qh).transfer = trans
  chain : Follows (fun p => ptr (hc.td p).tdNext) (ptr (hc.qh qh).tdHead) tds
  few : tds.length ≤ maxTd
  tdActive : ∀ p, p ∉ tds → (hc.td p).active = (hc₀.td p).active
  tdWas : ∀ p ∈ tds, (hc₀.td p).active = 0
  qhActive : ∀ q, q ≠ qh → (hc.qh q).active = (hc₀.qh q).active
  qhWas : (hc₀.qh qh).active = 0

section Submit

variable {hc hc₀ : Uhci} {l : List Word}

/-- The queue head that `uhci_alloc_qh` takes. -/
def freeQh (hc : Uhci) : Option Word :=
  ((List.range maxQh).find? fun i => (hc.qh (hc.qhAt i)).active = 0).map hc.qhAt

theorem freeQh_isSome (h : ∃ i < maxQh, (hc.qh (hc.qhAt i)).active = 0) : ∃ q, freeQh hc = some q := by
  obtain ⟨j, hj, hfree⟩ := h
  unfold freeQh
  cases hfind : (List.range maxQh).find? fun i => (hc.qh (hc.qhAt i)).active = 0 with
  | none => exact absurd (decide_eq_true hfree) (List.find?_eq_none.1 hfind j (List.mem_range.2 hj))
  | some i => exact ⟨hc.qhAt i, rfl⟩

theorem freeQh_eq_some {q : Word} (h : freeQh hc = some q) : (∃ i < maxQh, q = hc.qhAt i) ∧ (hc.qh q).active = 0 ∧
    uhciAllocQh hc = some (q, hc.setQh q fun qh => { qh with active := 1 }) := by
  unfold freeQh at h
  rw [Option.map_eq_some_iff] at h
  obtain ⟨i, hfind, rfl⟩ := h
  refine ⟨⟨i, List.mem_range.1 (List.mem_of_find?_eq_some hfind), rfl⟩, ?_, ?_⟩
  · simpa using List.find?_some hfind
  · rw [uhciAllocQh, hfind]
    rfl

/-- Only the activity of the queue heads counts. -/
theorem freeQh_congr (hbase : hc.queueHeads = hc₀.queueHeads) (h : ∀ q, (hc.qh q).active = (hc₀.qh q).active) :
    freeQh hc = freeQh hc₀ := by
  have hat : hc.qhAt = hc₀.qhAt := by
    funext i
    rw [Uhci.qhAt, Uhci.qhAt, hbase]
  unfold freeQh
  simp only [hat, h]

/-- The descriptors that were built are those of the request. -/
theorem Building.controlChain {hc₁ : Uhci} {t : UsbTransfer} {maxLen : Nat} {qh head status : Word} {datas : List Word}
    (h : Building hc₀ (head :: datas ++ [status]) (⟨0x2D, false, 8, t.reqPtr⟩ ::
      (List.range (dataCount t.req maxLen)).map (dataPacket (dataPid t.req) maxLen t.req.length.toNat t.data) ++
      [⟨statusPid t.req, false, 0, 0#32⟩]) hc) (hlen : datas.length = dataCount t.req maxLen) (hpos : 0 < maxLen)
    (hhead : QhAddr head) (htd : hc₁.td = hc.td) (hdriver : (hc₁.qh qh).tdHead = head)
    (hcontroller : (hc₁.qh qh).element = head) : ControlChain hc₁ t maxLen qh head datas status := by
  have hpackets := h.packets
  rw [List.map_append, List.map_cons, List.map_singleton] at hpackets
  obtain ⟨hfront, hstatus⟩ := List.append_inj' hpackets rfl
  obtain ⟨hsetup, hdata⟩ := List.cons.inj hfront
  have hchain : Follows (fun p => ptr (hc.td p).tdNext) (some head) (head :: datas ++ [status]) := h.chain
  have hlink : linkTd head = some head := by
    obtain ⟨hflags, hself⟩ := addr_or hhead.2 (show (0#32 : Word) &&& ~~~ 0xF#32 = 0#32 by decide)
    rw [BitVec.or_zero] at hflags hself
    rw [linkTd, if_pos (hflags.trans (by decide)), hself]
  refine ⟨?_, ?_, ?_, ?_, ?_, hlen, ?_, ?_, ?_, ?_⟩
  · rw [htd, hdriver, ptr_of_ne hhead.1]
    exact hchain
  · rw [htd, hcontroller, hlink]
    refine hchain.congr fun p hp => ?_
    rw [h.links p hp, linkTd_linkTo (h.aligned p hp)]
  · rw [htd]
    exact h.links
  · have hend : (hc.td status).tdNext = 0#32 := ptr_eq_none.1 (hchain.at (head :: datas))
    rw [htd, h.links status (List.mem_append_right _ (List.mem_singleton_self status)), hend, linkTo_zero]
  · rw [htd]
    exact hsetup
  · rw [htd, hdata, List.range_eq_range']
    have hcovers := covers_dataPackets (dataPid t.req) t.data hpos (dataCount t.req maxLen) 0 (by rw [Nat.zero_mul, Nat.sub_zero]; rfl)
    rw [Nat.zero_mul, Nat.sub_zero, BitVec.add_zero] at hcovers
    exact hcovers
  · intro p hp
    have hm := List.mem_map_of_mem (f := fun p => (hc.td p).packet) hp
    rw [hdata] at hm
    obtain ⟨i, -, hi⟩ := List.mem_map.1 hm
    rw [htd, ← hi]
    rfl
  · have htoggles := congrArg (List.map Packet.toggle) hdata
    rw [List.map_map, List.map_map] at htoggles
    rw [htd, hlen]
    exact htoggles
  · rw [htd]
    exact (List.cons.inj hstatus).1

/-- A queue head from the pool joins the list with its descriptors. -/
theorem QhList.enqueue {q : Word} (h : QhList hc l) (trans head : Word) (hq : QhAddr q) (hnot : q ∉ l) :
    ∃ hc₁, uhciInsertQh (uhciInitQh (hc.setQh q fun qh => { qh with active := 1 }) q trans head) q = .ok hc₁ ∧
      QhList hc₁ (l ++ [q]) ∧ hc₁.td = hc.td ∧ hc₁.transfers = hc.transfers ∧
      hc₁.transferDescriptors = hc.transferDescriptors ∧ hc₁.queueHeads = hc.queueHeads ∧
      (hc₁.qh q).transfer = trans ∧ (hc₁.qh q).tdHead = head ∧ (hc₁.qh q).element = head ∧
      ∀ c, c ≠ q → (hc₁.qh c).active = (hc.qh c).active := by
  have hlist : QhList (uhciInitQh (hc.setQh q fun qh => { qh with active := 1 }) q trans head) l := by
    refine h.congr rfl rfl fun c hm => ?_
    have hne : c ≠ q := ne_of_mem_of_not_mem hm hnot
    simp [uhciInitQh, Uhci.setQh, Function.update_of_ne hne]
  refine ⟨_, uhciInsertQh_eq hlist hq hnot, hlist.insert hq hnot, rfl, rfl, rfl, rfl, ?_, ?_, ?_, fun c hne => ?_⟩
  · simp [inserted, uhciInitQh, Uhci.setQh]
  · simp [inserted, uhciInitQh, Uhci.setQh]
  · simp [inserted, uhciInitQh, Uhci.setQh]
  · by_cases hlast : c = hc.asyncQhs
    · subst hlast
      simp [inserted, uhciInitQh, Uhci.setQh, Function.update_of_ne hne]
    · simp [inserted, uhciInitQh, Uhci.setQh, Function.update_of_ne hne, Function.update_of_ne hlast]

theorem dataPid_cases (req : UsbDevReq) : dataPid req = 0x69 ∨ dataPid req = 0xE1 ∨ dataPid req = 0x2D := by
  unfold dataPid
  split <;> simp

theorem statusPid_cases (req : UsbDevReq) : statusPid req = 0x69 ∨ statusPid req = 0xE1 ∨ statusPid req = 0x2D := by
  unfold statusPid
  split <;> simp

/-- The setup packet and the first `m` data packets. -/
theorem Ready.front (h : Ready hc₀ l) {dev : UsbDevice} {trans : Word} (hpos : 0 < dev.maxPacketSize.toNat)
    (hmax : dev.maxPacketSize.toNat ≤ 64) (haddr : dev.addr.setWidth 8 &&& ~~~ 0x7F = (0 : Byte)) {m : Nat}
    (hm : m ≤ dataCount (hc₀.transfers trans).req dev.maxPacketSize.toNat) (hfree : m + 1 ≤ inactiveTds hc₀) :
    ∃ head hc₁ hc₂ datas x, takeTd hc₀ = .ok (head, hc₁) ∧
      uhciInitTd hc₁ head 0#32 (dev.speed.setWidth 32) (dev.addr.setWidth 8) 0 0 0x2D 7 (hc₀.transfers trans).reqPtr =
        .ok hc₂ ∧
      forRange (dataTd dev.speed (dev.addr.setWidth 8) (dataPid (hc₀.transfers trans).req) dev.maxPacketSize.toNat
        (hc₀.transfers trans).req.length.toNat (hc₀.transfers trans).data) 0 m ⟨hc₂, head, 0⟩ = .ok x ∧
      datas.length = m ∧ x.prev = (head :: datas).getLast?.getD 0#32 ∧
      Building hc₀ (head :: datas) (⟨0x2D, false, 8, (hc₀.transfers trans).reqPtr⟩ :: (List.range m).map
        (dataPacket (dataPid (hc₀.transfers trans).req) dev.maxPacketSize.toNat (hc₀.transfers trans).req.length.toNat
          (hc₀.transfers trans).data)) x.hc := by
  obtain ⟨head, hc₁, hc₂, htake, hinit, hbuilt⟩ := (Building.start hc₀).add h.tds (by omega) (dev.speed.setWidth 32)
    (hc₀.transfers trans).reqPtr false 7 haddr (Or.inr (Or.inr rfl))
  obtain ⟨datas, x, hloop, hlen, hprev, hbuilt⟩ := hbuilt.loop h.tds dev.speed (hc₀.transfers trans).data haddr
    (dataPid_cases _) hpos hmax hm hfree
  exact ⟨head, hc₁, hc₂, datas, x, htake, hinit, hloop, hlen, hprev, hbuilt⟩

/-- **The request joins the list.** -/
theorem Ready.submit (h : Ready hc₀ l) {dev : UsbDevice} {trans qh : Word} (hpos : 0 < dev.maxPacketSize.toNat)
    (hmax : dev.maxPacketSize.toNat ≤ 64) (haddr : dev.addr.setWidth 8 &&& ~~~ 0x7F = (0 : Byte))
    (htds : dataCount (hc₀.transfers trans).req dev.maxPacketSize.toNat + 2 ≤ inactiveTds hc₀)
    (hqh : freeQh hc₀ = some qh) :
    ∃ hc₁ head datas status, uhciSubmit hc₀ dev trans = .ok (qh, hc₁) ∧
      ControlChain hc₁ (hc₀.transfers trans) dev.maxPacketSize.toNat qh head datas status ∧
      Waiting hc₀ l qh trans (head :: datas ++ [status]) hc₁ ∧ hc₁.transfers = hc₀.transfers ∧
      (head :: datas ++ [status]).Nodup ∧ ∀ p ∈ head :: datas ++ [status], (∃ i < maxTd, p = hc₀.tdAt i) := by
  -- the descriptors
  obtain ⟨head, hc₁, hc₂, datas, x, htake, hsetup, hdata, hlen, hprev, hbuilt⟩ :=
    h.front hpos hmax haddr (Nat.le_refl (dataCount (hc₀.transfers trans).req dev.maxPacketSize.toNat)) (by omega)
  have hcount := hbuilt.count
  rw [List.length_cons, hlen] at hcount
  obtain ⟨status, hc₃, hc₄, htake', hstatus, hbuilt⟩ := hbuilt.add h.tds (by omega) (dev.speed.setWidth 32) 0#32 false
    0x7FF haddr (statusPid_cases (hc₀.transfers trans).req)
  rw [← hprev] at hstatus
  -- the queue head
  have hqhs : hc₄.qh = hc₀.qh := by
    have hrest := congrArg Uhci.qh hbuilt.rest
    exact hrest
  have hbase : hc₄.queueHeads = hc₀.queueHeads := by
    have hrest := congrArg Uhci.queueHeads hbuilt.rest
    exact hrest
  have htransfers : hc₄.transfers = hc₀.transfers := by
    have hrest := congrArg Uhci.transfers hbuilt.rest
    exact hrest
  have hlist : QhList hc₄ l := by
    refine h.list.congr ?_ ?_ fun c _ => by rw [hqhs]; exact ⟨rfl, rfl, rfl⟩
    · have hrest := congrArg Uhci.framelist hbuilt.rest
      exact hrest
    · have hrest := congrArg Uhci.asyncQhs hbuilt.rest
      exact hrest
  rw [← freeQh_congr hbase fun q => by rw [hqhs]] at hqh
  obtain ⟨⟨i, hi, hqi⟩, hinactive, halloc⟩ := freeQh_eq_some hqh
  have hq : QhAddr qh := by
    rw [hqi, Uhci.qhAt, hbase]
    exact h.qhs.addr (Nat.lt_trans hi (by decide))
  rw [hqhs] at hinactive
  obtain ⟨hc₅, hinsert, hlist₅, htd, htransfers₅, htdBase, hqhBase, htransfer, htdHead, helement, hactive⟩ :=
    hlist.enqueue trans head hq fun hm => h.active _ hm hinactive
  have hhead : QhAddr head := by
    obtain ⟨j, hj, rfl⟩ := hbuilt.slot head List.mem_cons_self
    exact h.tds.addr hj
  have hchain := hbuilt.controlChain hlen hpos hhead htd htdHead helement
  refine ⟨hc₅, head, datas, status, ?_, hchain, ?_, htransfers₅.trans htransfers, hbuilt.nodup, hbuilt.slot⟩
  · unfold uhciSubmit
    simp only [htake, hsetup, ok_bind]
    refine (congrArg (· >>= _) hdata).trans ?_
    simp only [ok_bind, htake']
    refine (congrArg (· >>= _) hstatus).trans ?_
    simp only [ok_bind, halloc, hinsert]
    rfl
  · refine ⟨htdBase.trans hbuilt.base, hqhBase.trans hbase, hlist₅, htransfer, hchain.driver, ?_, fun p hp => ?_,
      hbuilt.was, fun c hne => ?_, hinactive⟩
    · have hcount := hbuilt.count
      have hle : inactiveTds hc₀ ≤ maxTd := Nat.le_trans List.countP_le_length (Nat.le_of_eq List.length_range)
      omega
    · rw [htd, hbuilt.active, if_neg hp]
    · rw [hactive c hne, hqhs]

end Submit

/-! ## Waiting -/

section Wait

variable {hc hc₀ : Uhci} {l tds : List Word} {qh trans : Word}

/-- The loop of `uhci_process_qh` releases the descriptors of a list. -/
theorem freeTds_eq (fuel : Nat) {td : Word} (h : Follows (fun p => ptr (hc.td p).tdNext) (ptr td) tds)
    (hfuel : tds.length < fuel) :
    ∃ hc', freeTds fuel hc td = .ok hc' ∧ { hc' with td := hc.td } = hc ∧
      ∀ p, (hc'.td p).active = if p ∈ tds then 0 else (hc.td p).active := by
  induction tds generalizing fuel hc td with
  | nil =>
    obtain ⟨fuel, rfl⟩ := Nat.exists_eq_add_of_lt hfuel
    refine ⟨hc, ?_, rfl, fun p => by rw [if_neg List.not_mem_nil]⟩
    rw [List.length_nil, Nat.zero_add, freeTds, if_pos (ptr_eq_none.1 h)]
    rfl
  | cons a tds ih =>
    obtain ⟨fuel, rfl⟩ := Nat.exists_eq_succ_of_ne_zero (Nat.ne_zero_of_lt hfuel)
    have htd : td ≠ 0#32 := by
      rintro rfl
      exact absurd h.1 (by simp)
    obtain rfl : td = a := Option.some.inj ((ptr_of_ne htd).symm.trans h.1)
    have hkept : ∀ p, ((uhciFreeTd hc td).td p).tdNext = (hc.td p).tdNext := by
      intro p
      by_cases hp : p = td
      · subst hp
        simp [uhciFreeTd, Uhci.setTd]
      · simp [uhciFreeTd, Uhci.setTd, Function.update_of_ne hp]
    have hchain : Follows (fun p => ptr ((uhciFreeTd hc td).td p).tdNext) (ptr (hc.td td).tdNext) tds :=
      h.2.congr fun p _ => congrArg ptr (hkept p)
    obtain ⟨hc', hrun, hrest, hactive⟩ := ih fuel hchain (Nat.lt_of_succ_lt_succ hfuel)
    refine ⟨hc', ?_, ?_, fun p => ?_⟩
    · rw [freeTds, if_neg htd]
      exact hrun
    · exact congrArg (fun x : Uhci => { x with td := hc.td }) hrest
    · rw [hactive]
      by_cases hp : p = td
      · subst hp
        simp [uhciFreeTd, Uhci.setTd]
      · simp [uhciFreeTd, Uhci.setTd, hp]

theorem Waiting.advance (h : Waiting hc₀ l qh trans tds hc) (hw : HwStep) :
    Waiting hc₀ l qh trans tds (hc.advance hw) :=
  ⟨h.tdBase, h.qhBase, h.list.congr rfl rfl fun _ _ => ⟨rfl, rfl, rfl⟩, h.transfer, h.chain, h.few, h.tdActive, h.tdWas,
    h.qhActive, h.qhWas⟩

theorem Waiting.setTransfer (h : Waiting hc₀ l qh trans tds hc) (p : Word) (f : UsbTransfer → UsbTransfer) :
    Waiting hc₀ l qh trans tds (hc.setTransfer p f) :=
  ⟨h.tdBase, h.qhBase, h.list.congr rfl rfl fun _ _ => ⟨rfl, rfl, rfl⟩, h.transfer, h.chain, h.few, h.tdActive, h.tdWas,
    h.qhActive, h.qhWas⟩

/-- The request is over, and the pools are as they were in `hc₀`. -/
structure Finished (hc₀ : Uhci) (l : List Word) (hc : Uhci) : Prop where
  tdBase : hc.transferDescriptors = hc₀.transferDescriptors
  qhBase : hc.queueHeads = hc₀.queueHeads
  list : QhList hc l
  tdActive : ∀ p, (hc.td p).active = (hc₀.td p).active
  qhActive : ∀ q, (hc.qh q).active = (hc₀.qh q).active

/-- What `uhci_process_qh` finds out about the transfer of a queue head. -/
def lookAt (hc : Uhci) (qh : Word) : Uhci :=
  let transfer := (hc.qh qh).transfer
  let td := (hc.qh qh).element &&& ~~~ 0xF#32
  if td = 0#32 then hc.setTransfer transfer fun t => { t with success := true, complete := true }
  else if ~~~ (hc.td td).control &&& tdCtrlActive ≠ 0#32 then
    let hc :=
      if (hc.td td).control &&& tdCtrlStalled ≠ 0#32 then
        hc.setTransfer transfer fun t => { t with success := false, complete := true }
      else hc
    hc.setTransfer transfer fun t => { t with complete := true }
  else hc

/-- What it does when the transfer is complete. -/
def release (hc : Uhci) (qh : Word) : Call Uhci := do
  let hc := hc.setQh qh fun q => { q with transfer := 0#32 }
  let hc ← uhciRemoveQh hc qh
  let hc ← freeTds 0x100000000 hc (hc.qh qh).tdHead
  return uhciFreeQh hc qh

theorem uhciProcessQh_eq : uhciProcessQh hc qh =
    if ((lookAt hc qh).transfers (hc.qh qh).transfer).complete then release (lookAt hc qh) qh
    else pure (lookAt hc qh) := rfl

/-- What the driver finds out about the queue head at `qh` after a step of the controller: the request has gone through
(`true`) or was given up, or there is still something to do. -/
def HwStep.outcome (hw : HwStep) (qh : Word) : Option Bool :=
  let td := hw.element qh &&& ~~~ 0xF#32
  if td = 0#32 then some true else if ~~~ hw.control td &&& tdCtrlActive ≠ 0#32 then some false else none

theorem setTransfer_twice (p : Word) (f g : UsbTransfer → UsbTransfer) :
    (hc.setTransfer p f).setTransfer p g = hc.setTransfer p fun t => g (f t) := by
  simp [Uhci.setTransfer]

theorem lookAt_none {hw : HwStep} (h : hw.outcome qh = none) : lookAt (hc.advance hw) qh = hc.advance hw := by
  dsimp only [HwStep.outcome] at h
  split at h
  · simp at h
  · next hpointer =>
    split at h
    · simp at h
    · next hcontrol =>
      exact (if_neg hpointer).trans (if_neg hcontrol)

theorem lookAt_some {hw : HwStep} {b : Bool} (h : hw.outcome qh = some b) (htransfer : (hc.qh qh).transfer = trans) :
    ∃ t, lookAt (hc.advance hw) qh = (hc.advance hw).setTransfer trans t ∧ ∀ x, (t x).complete = true ∧
      (x.success = false → (t x).success = b) := by
  dsimp only [HwStep.outcome] at h
  subst htransfer
  split at h
  · next hpointer =>
    rw [Option.some.injEq] at h
    subst h
    exact ⟨_, if_pos hpointer, fun x => ⟨rfl, fun _ => rfl⟩⟩
  · next hpointer =>
    split at h
    · next hcontrol =>
      rw [Option.some.injEq] at h
      subst h
      by_cases hstalled : hw.control (hw.element qh &&& ~~~ 0xF#32) &&& tdCtrlStalled ≠ 0#32
      · refine ⟨fun t => { t with success := false, complete := true }, ?_, fun x => ⟨rfl, fun _ => rfl⟩⟩
        refine (if_neg hpointer).trans ((if_pos hcontrol).trans ?_)
        refine (congrArg (Uhci.setTransfer · _ _) (if_pos hstalled)).trans ?_
        exact setTransfer_twice ..
      · refine ⟨fun t => { t with complete := true }, ?_, fun x => ⟨rfl, fun hx => hx⟩⟩
        refine (if_neg hpointer).trans ((if_pos hcontrol).trans ?_)
        exact congrArg (Uhci.setTransfer · _ _) (if_neg hstalled)
    · simp at h

/-- The queue head leaves the list, and everything goes back to the pools. -/
theorem Waiting.release (h : Waiting hc₀ l qh trans tds hc) (hl : l ≠ []) :
    ∃ hc', release hc qh = .ok hc' ∧ hc'.transfers = hc.transfers ∧ Finished hc₀ l hc' := by
  have hlist : QhList (hc.setQh qh fun q => { q with transfer := 0#32 }) (l ++ [qh]) := by
    refine h.list.congr rfl rfl fun c _ => ?_
    by_cases hc' : c = qh
    · subst hc'
      simp [Uhci.setQh]
    · simp [Uhci.setQh, hc']
  obtain ⟨hprev, hremoved⟩ := hlist.remove hl
  rw [List.append_nil] at hremoved
  have hremove := uhciRemoveQh_eq (hlist.addr qh (List.mem_append_right l (List.mem_singleton_self qh))).1 hprev
  have hhead : ((removed (hc.setQh qh fun q => { q with transfer := 0#32 }) qh).qh qh).tdHead = (hc.qh qh).tdHead := by
    simp [removed, removedQh, Uhci.setQh]
  generalize hout : removed (hc.setQh qh fun q => { q with transfer := 0#32 }) qh = out at *
  have htd : out.td = hc.td := by
    rw [← hout]
    rfl
  have hqhs : ∀ q, (out.qh q).active = (hc.qh q).active := by
    intro q
    by_cases hq : q = qh
    · subst hq
      simp [← hout, removed, removedQh, Uhci.setQh]
    · simp [← hout, removed, removedQh, Uhci.setQh, hq]
  have hchain : Follows (fun p => ptr (out.td p).tdNext) (ptr (out.qh qh).tdHead) tds := by
    rw [htd, hhead]
    exact h.chain
  obtain ⟨hc', hfree, hrest, hactive⟩ := freeTds_eq 0x100000000 hchain (Nat.lt_of_le_of_lt h.few (by decide))
  have hqh : hc'.qh = out.qh := by
    have hrest' := congrArg Uhci.qh hrest
    exact hrest'
  have hbases : hc'.transferDescriptors = out.transferDescriptors ∧ hc'.queueHeads = out.queueHeads ∧
      hc'.framelist = out.framelist ∧ hc'.asyncQhs = out.asyncQhs ∧ hc'.transfers = out.transfers := by
    have htds := congrArg Uhci.transferDescriptors hrest
    have hheads := congrArg Uhci.queueHeads hrest
    have hframes := congrArg Uhci.framelist hrest
    have hasync := congrArg Uhci.asyncQhs hrest
    have htransfers := congrArg Uhci.transfers hrest
    exact ⟨htds, hheads, hframes, hasync, htransfers⟩
  obtain ⟨htds, hheads, hframes, hasync, htransfers⟩ := hbases
  have hkept : ∀ q, q ≠ qh → (uhciFreeQh hc' qh).qh q = out.qh q := fun q hq => by
    simp [uhciFreeQh, Uhci.setQh, hq, hqh]
  have hfreed : (uhciFreeQh hc' qh).qh qh = { out.qh qh with active := 0 } := by
    simp [uhciFreeQh, Uhci.setQh, hqh]
  refine ⟨uhciFreeQh hc' qh, ?_, ?_, ?_, ?_, ?_, fun p => ?_, fun q => ?_⟩
  · dsimp only [Usb.release]
    rw [hremove, ok_bind, hfree, ok_bind]
    rfl
  · show hc'.transfers = hc.transfers
    rw [htransfers, ← hout]
    rfl
  · show hc'.transferDescriptors = hc₀.transferDescriptors
    rw [htds, ← hout]
    exact h.tdBase
  · show hc'.queueHeads = hc₀.queueHeads
    rw [hheads, ← hout]
    exact h.qhBase
  · refine hremoved.congr hframes hasync fun c _ => ?_
    by_cases hq : c = qh
    · rw [hq, hfreed]
      exact ⟨rfl, rfl, rfl⟩
    · rw [hkept c hq]
      exact ⟨rfl, rfl, rfl⟩
  · show (hc'.td p).active = (hc₀.td p).active
    rw [hactive, htd]
    by_cases hp : p ∈ tds
    · rw [if_pos hp, h.tdWas p hp]
    · rw [if_neg hp, h.tdActive p hp]
  · by_cases hq : q = qh
    · rw [hq, hfreed, h.qhWas]
    · rw [hkept q hq, hqhs, h.qhActive q hq]

/-- **`uhci_process_qh`** leaves the request under way. -/
theorem Waiting.process_none (h : Waiting hc₀ l qh trans tds hc) (hopen : (hc.transfers trans).complete = false)
    {hw : HwStep} (hout : hw.outcome qh = none) : uhciProcessQh (hc.advance hw) qh = .ok (hc.advance hw) := by
  have htransfer : ((hc.advance hw).qh qh).transfer = trans := h.transfer
  have hopen' : ¬ ((hc.advance hw).transfers trans).complete = true := by
    show ¬ (hc.transfers trans).complete = true
    simp [hopen]
  rw [uhciProcessQh_eq, htransfer, lookAt_none hout, if_neg hopen']
  rfl

/-- **`uhci_process_qh`** finishes it. -/
theorem Waiting.process_some (h : Waiting hc₀ l qh trans tds hc) (hl : l ≠ []) {hw : HwStep} {b : Bool}
    (hout : hw.outcome qh = some b) :
    ∃ hc', uhciProcessQh (hc.advance hw) qh = .ok hc' ∧ Finished hc₀ l hc' ∧ (hc'.transfers trans).complete = true ∧
      ((hc.transfers trans).success = false → (hc'.transfers trans).success = b) := by
  have htransfer : ((hc.advance hw).qh qh).transfer = trans := h.transfer
  obtain ⟨t, hlook, ht⟩ := lookAt_some hout h.transfer
  obtain ⟨hcomplete, hsuccess⟩ := ht (hc.transfers trans)
  obtain ⟨hc', hrelease, htransfers, hfinished⟩ := ((h.advance hw).setTransfer trans t).release hl
  have hafter : hc'.transfers trans = t (hc.transfers trans) := by
    rw [htransfers]
    exact Function.update_self ..
  refine ⟨hc', ?_, hfinished, by rw [hafter, hcomplete], fun hx => by rw [hafter, hsuccess hx]⟩
  have hdone : (((hc.advance hw).setTransfer trans t).transfers trans).complete = true :=
    (congrArg UsbTransfer.complete (Function.update_self ..)).trans hcomplete
  rw [uhciProcessQh_eq, htransfer, hlook, if_pos hdone, hrelease]

/-- What becomes of the request when the controller does `hws`. -/
def outcome (qh : Word) (hws : List HwStep) : Option Bool := hws.findSome? (HwStep.outcome · qh)

/-- **The wait** ends with the request finished, if it ends. -/
theorem Waiting.wait (hws : List HwStep) : ∀ {hc : Uhci}, Waiting hc₀ l qh trans tds hc → l ≠ [] →
    (hc.transfers trans).complete = false →
      (outcome qh hws = none → waitLoop qh trans hws hc = .error .polling) ∧
      ∀ b, outcome qh hws = some b → ∃ hc', waitLoop qh trans hws hc = .ok hc' ∧ Finished hc₀ l hc' ∧
        ((hc.transfers trans).success = false → (hc'.transfers trans).success = b) := by
  induction hws with
  | nil =>
    intro hc _ _ hopen
    refine ⟨fun _ => ?_, fun b hb => by simp [outcome] at hb⟩
    rw [waitLoop, if_neg (by simp [hopen])]
    rfl
  | cons hw hws ih =>
    intro hc h hl hopen
    have hopen' : ¬ (hc.transfers trans).complete = true := by simp [hopen]
    rw [waitLoop, if_neg hopen']
    cases hout : hw.outcome qh with
    | none =>
      simp only [h.process_none hopen hout, ok_bind, outcome, List.findSome?_cons, hout]
      exact ih (h.advance hw) hl hopen
    | some b =>
      obtain ⟨hc', hprocess, hfinished, hcomplete, hsuccess⟩ := h.process_some hl hout
      have hend : waitLoop qh trans hws hc' = .ok hc' := by
        unfold waitLoop
        exact if_pos hcomplete
      simp only [hprocess, ok_bind, outcome, List.findSome?_cons, hout, hend]
      refine ⟨by simp, fun b' hb => ?_⟩
      rw [Option.some.injEq] at hb
      subst hb
      exact ⟨hc', rfl, hfinished, hsuccess⟩

end Wait

/-- **A whole call** of `uhci_dev_control` with enough descriptors. -/
theorem Ready.control {hc : Uhci} {l : List Word} (h : Ready hc l) {dev : UsbDevice} {trans qh : Word}
    (hpos : 0 < dev.maxPacketSize.toNat) (hmax : dev.maxPacketSize.toNat ≤ 64)
    (haddr : dev.addr.setWidth 8 &&& ~~~ 0x7F = (0 : Byte)) (htrans : trans ≠ 0#32)
    (hopen : (hc.transfers trans).complete = false)
    (htds : dataCount (hc.transfers trans).req dev.maxPacketSize.toNat + 2 ≤ inactiveTds hc)
    (hqh : freeQh hc = some qh) (hws : List HwStep) :
    (outcome qh hws = none → uhciDevControl hc dev trans hws = .error .polling) ∧
      ∀ b, outcome qh hws = some b → ∃ hc', uhciDevControl hc dev trans hws = .ok hc' ∧ Finished hc l hc' ∧
        ((hc.transfers trans).success = false → (hc'.transfers trans).success = b) := by
  obtain ⟨hc₁, head, datas, status, hsubmit, -, hwaiting, htransfers, -⟩ := h.submit hpos hmax haddr htds hqh
  have hl : l ≠ [] := List.ne_nil_of_mem (List.mem_of_getLast? h.list.last)
  have hqh₁ : qh ≠ 0#32 := (hwaiting.list.addr qh (List.mem_append_right l (List.mem_singleton_self qh))).1
  have hwait : uhciDevControl hc dev trans hws = waitLoop qh trans hws hc₁ := by
    unfold uhciDevControl uhciWaitForQh
    simp only [hsubmit, ok_bind, assert_pos hqh₁, assert_pos htrans, hwaiting.transfer]
  rw [hwait, ← htransfers]
  exact hwaiting.wait hws hl (by rw [htransfers]; exact hopen)

/-! ## From the initialisation -/

/-- The controller after its initialisation is ready, and nothing is in use but the first queue head. -/
theorem controllerInit_ready {hc : Uhci} {qhBlock tdBlock : Nat} {transfers : Word → UsbTransfer}
    (h : uhciControllerInit qhBlock tdBlock transfers = .ok hc) :
    Ready hc [BitVec.ofNat 32 (qhBlock * 4096)] ∧ inactiveTds hc = maxTd ∧
      ∃ i < maxQh, (hc.qh (hc.qhAt i)).active = 0 := by
  have hlist := controllerInit_list h
  unfold uhciControllerInit at h
  simp only [bind_eq_ok, assert_eq_ok] at h
  obtain ⟨-, hqh, -, htd, h⟩ := h
  have hqhs : Block (BitVec.ofNat 32 (qhBlock * 4096)) := ⟨hqh, block_aligned qhBlock⟩
  rw [uhciAllocQh_first rfl, pure_eq_ok] at h
  subst h
  refine ⟨⟨⟨htd, block_aligned tdBlock⟩, hqhs, hlist, ?_⟩, ?_, 1, by decide, ?_⟩
  · intro q hq
    rw [List.mem_singleton.1 hq]
    simp [Uhci.setQh]
  · simp [inactiveTds, countBelow, Uhci.setQh, maxTd]
  · have hne : BitVec.ofNat 32 (qhBlock * 4096) + BitVec.ofNat 32 (32 * 1) ≠ BitVec.ofNat 32 (qhBlock * 4096) := by
      intro he
      have hto := (hqhs.toNat (show 1 < 128 by decide)).1
      rw [he] at hto
      omega
    simp only [Uhci.setQh, Uhci.qhAt, Function.update_of_ne hne]

/-! ## The theorem -/

/-- **`uhci_dev_control`.** With enough descriptors and a queue head in the pools, a request joins the list as one setup
packet, as many data packets as it needs, which cover its data, and one status packet; the driver and the controller see
the same descriptors. The call returns exactly when the controller is done with them in one of the rounds in which the
driver looks, and then the same descriptors and queue heads are active as before it; until then it goes on polling. -/
theorem uhci_dev_control_correct (hc : Uhci) (l : List Word) (dev : UsbDevice) (trans : Word) (h : Ready hc l)
    (hmax : dev.maxPacketSize ∈ [(8 : Byte), 16, 32, 64]) (haddr : dev.addr.setWidth 8 &&& ~~~ 0x7F = (0 : Byte))
    (htrans : trans ≠ 0#32) (hopen : (hc.transfers trans).complete = false)
    (htds : dataCount (hc.transfers trans).req dev.maxPacketSize.toNat + 2 ≤ inactiveTds hc)
    (hqh : ∃ i < maxQh, (hc.qh (hc.qhAt i)).active = 0) :
    ∃ qh hc₁ head datas status, uhciSubmit hc dev trans = .ok (qh, hc₁) ∧
      ControlChain hc₁ (hc.transfers trans) dev.maxPacketSize.toNat qh head datas status ∧
      (head :: datas ++ [status]).Nodup ∧
      (∀ p ∈ head :: datas ++ [status], (∃ i < maxTd, p = hc.tdAt i) ∧ (hc.td p).active = 0) ∧
      ∀ hws, (outcome qh hws = none → uhciDevControl hc dev trans hws = .error .polling) ∧
        ∀ b, outcome qh hws = some b → ∃ hc₂, uhciDevControl hc dev trans hws = .ok hc₂ ∧
          (∀ p, (hc₂.td p).active = (hc.td p).active) ∧ (∀ q, (hc₂.qh q).active = (hc.qh q).active) ∧
          ((hc.transfers trans).success = false → (hc₂.transfers trans).success = b) := by
  have hsize : 0 < dev.maxPacketSize.toNat ∧ dev.maxPacketSize.toNat ≤ 64 := by
    simp only [List.mem_cons, List.not_mem_nil, or_false] at hmax
    obtain hm | hm | hm | hm := hmax <;> simp [hm]
  obtain ⟨qh, hqh⟩ := freeQh_isSome hqh
  obtain ⟨hc₁, head, datas, status, hsubmit, hchain, hwaiting, -, hnodup, hslot⟩ :=
    h.submit hsize.1 hsize.2 haddr htds hqh
  refine ⟨qh, hc₁, head, datas, status, hsubmit, hchain, hnodup, fun p hp => ⟨hslot p hp, hwaiting.tdWas p hp⟩,
    fun hws => ?_⟩
  obtain ⟨hpolls, hends⟩ := h.control hsize.1 hsize.2 haddr htrans hopen htds hqh hws
  refine ⟨hpolls, fun b hb => ?_⟩
  obtain ⟨hc₂, hreturns, hfinished, hsuccess⟩ := hends b hb
  exact ⟨hc₂, hreturns, hfinished.tdActive, hfinished.qhActive, hsuccess⟩

/-- The first request of `usb_dev_init`. -/
def deviceRequest : UsbTransfer := { noTransfer with req := ⟨0x80, 6, 0x100, 0, 18⟩, data := 0x2000#32 }

/-- The controller works on the first descriptor when the driver looks, and has reached the end of the chain when it looks
again. -/
def deviceAnswers : List HwStep :=
  [⟨fun _ => 0x4000#32, fun _ => tdCtrlActive⟩, ⟨fun _ => tdPtrTerminate, fun _ => 0#32⟩]

theorem uhci_dev_control_correct_device : ∃ hc, uhciControllerInit 3 4 (fun _ => deviceRequest) = .ok hc ∧
    ∃ qh hc₁ head datas status,
      uhciSubmit hc { zeroDevice with maxPacketSize := 8 } 0x1000#32 = .ok (qh, hc₁) ∧ datas.length = 3 ∧
      ControlChain hc₁ deviceRequest 8 qh head datas status ∧
      ∃ hc₂, uhciDevControl hc { zeroDevice with maxPacketSize := 8 } 0x1000#32 deviceAnswers = .ok hc₂ ∧
        (hc₂.transfers 0x1000#32).success = true ∧ ∀ p, (hc₂.td p).active = (hc.td p).active := by
  obtain ⟨hready, hinactive, hqh⟩ := controllerInit_ready
    (rfl : uhciControllerInit 3 4 (fun _ => deviceRequest) = .ok _)
  obtain ⟨qh, hc₁, head, datas, status, hsubmit, hchain, -, -, hwait⟩ := uhci_dev_control_correct _ _
    { zeroDevice with maxPacketSize := 8 } 0x1000#32 hready (by decide) (by decide) (by decide) rfl
    (by rw [hinactive]; decide) hqh
  have hworks : HwStep.outcome ⟨fun _ => 0x4000#32, fun _ => tdCtrlActive⟩ qh = none :=
    (if_neg (show ¬ 0x4000#32 &&& ~~~ 0xF#32 = 0#32 by decide)).trans
      (if_neg (show ¬ ~~~ tdCtrlActive &&& tdCtrlActive ≠ 0#32 by decide))
  have hdone : HwStep.outcome ⟨fun _ => tdPtrTerminate, fun _ => 0#32⟩ qh = some true :=
    if_pos (show tdPtrTerminate &&& ~~~ 0xF#32 = 0#32 by decide)
  have houtcome : outcome qh deviceAnswers = some true := by
    simp only [outcome, deviceAnswers, List.findSome?_cons, hworks, hdone]
  obtain ⟨hc₂, hreturns, htds, -, hsuccess⟩ := (hwait deviceAnswers).2 true houtcome
  exact ⟨_, rfl, qh, hc₁, head, datas, status, hsubmit, hchain.count, hchain, hc₂, hreturns, hsuccess rfl, htds⟩

end Myunix.Usb
