import Myunix.CString
import Myunix.Lib.Walk

/-!
# Scanning the PCI buses (`pci.c`)

`pci_scan` calls a function for what it finds on the buses. A bridge names the bus behind it, and `pci_scan_bus` is called
for that bus when the bridge is found, whatever bus that is. So the scan is a walk over the buses that remembers nothing
(`Lib.walk`), and it comes to every bus once exactly when each is named once.

`pci_scan_once_iff` says when the scan ends and finds every function once.
-/

namespace Myunix.Pci

open Lib

/-! ## The code -/

/-- `pci_device`. -/
def pciDevice (bus : Byte) (slot func : Nat) : Word :=
  bus.setWidth 32 <<< 16 ||| BitVec.ofNat 32 slot <<< 11 ||| BitVec.ofNat 32 func <<< 8

/-- `pci_address`. -/
def pciAddress (device : Word) (offset : Byte) : Word := 0x80000000#32 ||| device ||| (offset &&& 0xFC).setWidth 32

/-- The contents of configuration space: the register at each address. -/
abbrev ConfigSpace := Word → Word

/-- What the callback is called with. -/
structure PciCall where
  device : Word
  vendorid : BitVec 16
  deviceid : BitVec 16
deriving DecidableEq, Repr

section Code

variable (space : ConfigSpace)

/-- `pci_config_readw`. -/
def pciConfigReadw (device : Word) (offset : Byte) : BitVec 16 :=
  (space (pciAddress device offset) >>> (8 * (offset &&& 2).toNat)).setWidth 16

/-- `pci_config_readb`. -/
def pciConfigReadb (device : Word) (offset : Byte) : Byte :=
  (space (pciAddress device offset) >>> (8 * (offset &&& 3).toNat)).setWidth 8

/-- `pci_scan_function`: the calls that it makes, `none` when `pci_scan_bus` does not return. -/
def pciScanFunction (scanBus : Byte → Option (List PciCall)) (bus : Byte) (slot func : Nat) : Option (List PciCall) := do
  let deviceClass := pciConfigReadb space (pciDevice bus slot func) 0x0B
  let deviceSubclass := pciConfigReadb space (pciDevice bus slot func) 0x0A
  let calls ←
    if deviceClass = 0x06 ∧ deviceSubclass = 0x04 then
      let secondaryBus := pciConfigReadb space (pciDevice bus slot func) 0x19
      scanBus secondaryBus
    else some []
  let device := pciDevice bus slot func
  return calls ++ [⟨device, pciConfigReadw space device 0, pciConfigReadw space device 2⟩]

/-- `pci_scan_slot`. -/
def pciScanSlot (scanBus : Byte → Option (List PciCall)) (bus : Byte) (slot : Nat) : Option (List PciCall) :=
  if pciConfigReadw space (pciDevice bus slot 0) 0 = 0xFFFF then some []
  else if pciConfigReadb space (pciDevice bus slot 0) 0xE &&& 0x80 ≠ 0 then
    collect (fun func =>
      if pciConfigReadw space (pciDevice bus slot func) 0 ≠ 0xFFFF then pciScanFunction space scanBus bus slot func
      else some []) (List.range 8)
  else pciScanFunction space scanBus bus slot 0

/-- `pci_scan_bus`, at most `fuel` calls deep. -/
def pciScanBus : Nat → Byte → Option (List PciCall)
  | 0, _ => none
  | fuel + 1, bus => collect (pciScanSlot space (pciScanBus fuel) bus) (List.range 32)

/-- The loop of `pci_scan` over the functions of the first device. -/
def scanHost (fuel : Nat) : List Nat → Option (List PciCall)
  | [] => some []
  | function :: rest =>
    if pciConfigReadw space (pciDevice 0 0 function) 0 = 0xFFFF then some []
    else do
      let calls ← pciScanBus space fuel (BitVec.ofNat 8 function)
      let others ← scanHost fuel rest
      return calls ++ others

/-- `pci_scan`. -/
def pciScan (fuel : Nat) : Option (List PciCall) :=
  if pciConfigReadb space (pciDevice 0 0 0) 0xE &&& 0x80 = 0 then pciScanBus space fuel 0
  else scanHost space fuel (List.range 8)

end Code

/-! ## What there is on the buses -/

section Space

variable (space : ConfigSpace)

/-- A function that is present: function 0 of a device is, and the others if the device says that it has several. -/
structure Present (bus : Byte) (slot func : Nat) : Prop where
  slot_lt : slot < 32
  func_lt : func < 8
  vendor : pciConfigReadw space (pciDevice bus slot func) 0 ≠ 0xFFFF
  device : pciConfigReadw space (pciDevice bus slot 0) 0 ≠ 0xFFFF
  multi : func = 0 ∨ pciConfigReadb space (pciDevice bus slot 0) 0xE &&& 0x80 ≠ 0

/-- A PCI-PCI bridge. -/
def IsBridge (bus : Byte) (p : Nat × Nat) : Prop :=
  pciConfigReadb space (pciDevice bus p.1 p.2) 0x0B = 0x06 ∧ pciConfigReadb space (pciDevice bus p.1 p.2) 0x0A = 0x04

instance (bus : Byte) (p : Nat × Nat) : Decidable (IsBridge space bus p) := inferInstanceAs (Decidable (_ ∧ _))

/-- The bus behind a bridge. -/
def secondary (bus : Byte) (p : Nat × Nat) : Byte := pciConfigReadb space (pciDevice bus p.1 p.2) 0x19

/-- The functions of one slot. -/
def slotFunctions (bus : Byte) (slot : Nat) : List (Nat × Nat) :=
  if pciConfigReadw space (pciDevice bus slot 0) 0 = 0xFFFF then []
  else if pciConfigReadb space (pciDevice bus slot 0) 0xE &&& 0x80 ≠ 0 then
    ((List.range 8).filter fun func => pciConfigReadw space (pciDevice bus slot func) 0 ≠ 0xFFFF).map (slot, ·)
  else [(slot, 0)]

/-- The functions of one bus: their slots and numbers. -/
def functions (bus : Byte) : List (Nat × Nat) := (List.range 32).flatMap (slotFunctions space bus)

/-- The buses behind the bridges of a bus. -/
def secondaries (bus : Byte) : List Byte :=
  ((functions space bus).filter (IsBridge space bus)).map (secondary space bus)

/-- The buses that `pci_scan` starts with. -/
def roots : List Byte :=
  if pciConfigReadb space (pciDevice 0 0 0) 0xE &&& 0x80 = 0 then [0]
  else ((List.range 8).takeWhile fun function => pciConfigReadw space (pciDevice 0 0 function) 0 ≠ 0xFFFF).map
    (BitVec.ofNat 8)

/-- A bridge leads from one bus to the next. -/
def NextBus (b c : Byte) : Prop := ∃ slot func, Present space b slot func ∧ IsBridge space b (slot, func) ∧
  secondary space b (slot, func) = c

/-- The call for one function. -/
def callOf (bus : Byte) (p : Nat × Nat) : PciCall :=
  ⟨pciDevice bus p.1 p.2, pciConfigReadw space (pciDevice bus p.1 p.2) 0, pciConfigReadw space (pciDevice bus p.1 p.2) 2⟩

end Space

/-! ## The scan as a walk -/

section Device

variable {bus bus' : Byte} {slot func slot' func' : Nat}

theorem pciDevice_toNat (hslot : slot < 32) (hfunc : func < 8) :
    (pciDevice bus slot func).toNat = bus.toNat * 0x10000 + slot * 0x800 + func * 0x100 := by
  have hbus := bus.isLt
  have hslotPart : slot <<< 11 < 2 ^ 16 := by
    rw [Nat.shiftLeft_eq]
    omega
  have hfuncPart : func <<< 8 < 2 ^ 11 := by
    rw [Nat.shiftLeft_eq]
    omega
  have hlow : slot <<< 11 ||| func <<< 8 = slot <<< 11 + func <<< 8 := (Nat.shiftLeft_add_eq_or_of_lt hfuncPart slot).symm
  have hlt : slot <<< 11 + func <<< 8 < 2 ^ 16 := by
    rw [Nat.shiftLeft_eq, Nat.shiftLeft_eq]
    omega
  have hall : bus.toNat <<< 16 ||| (slot <<< 11 + func <<< 8) = bus.toNat <<< 16 + (slot <<< 11 + func <<< 8) :=
    (Nat.shiftLeft_add_eq_or_of_lt hlt bus.toNat).symm
  have hsum : (pciDevice bus slot func).toNat = bus.toNat <<< 16 ||| slot <<< 11 ||| func <<< 8 := by
    simp only [pciDevice, BitVec.toNat_or, BitVec.toNat_shiftLeft, BitVec.toNat_setWidth, BitVec.toNat_ofNat,
      Nat.shiftLeft_eq]
    rw [Nat.mod_eq_of_lt (show bus.toNat < 2 ^ 32 by omega), Nat.mod_eq_of_lt (show slot < 2 ^ 32 by omega),
      Nat.mod_eq_of_lt (show func < 2 ^ 32 by omega), Nat.mod_eq_of_lt (show bus.toNat * 2 ^ 16 < 2 ^ 32 by omega),
      Nat.mod_eq_of_lt (show slot * 2 ^ 11 < 2 ^ 32 by omega), Nat.mod_eq_of_lt (show func * 2 ^ 8 < 2 ^ 32 by omega)]
  rw [hsum, Nat.or_assoc, hlow, hall, Nat.shiftLeft_eq, Nat.shiftLeft_eq, Nat.shiftLeft_eq]
  omega

/-- Where the registers of a function are. -/
theorem pciAddress_device (hslot : slot < 32) (hfunc : func < 8) (offset : Byte) :
    (pciAddress (pciDevice bus slot func) offset).toNat / 256 = 0x800000 + bus.toNat * 256 + slot * 8 + func := by
  have hbus := bus.isLt
  have hdevice : (pciDevice bus slot func).toNat >>> 8 = bus.toNat * 256 + slot * 8 + func := by
    rw [pciDevice_toNat hslot hfunc, Nat.shiftRight_eq_div_pow]
    omega
  have hoffset : ((offset &&& 0xFC).setWidth 32).toNat >>> 8 = 0 := by
    have hlt := (offset &&& 0xFC).isLt
    rw [BitVec.toNat_setWidth, Nat.shiftRight_eq_div_pow]
    omega
  have hlow : bus.toNat * 256 + slot * 8 + func < 2 ^ 23 := by omega
  calc (pciAddress (pciDevice bus slot func) offset).toNat / 256
      = (pciAddress (pciDevice bus slot func) offset).toNat >>> 8 := (Nat.shiftRight_eq_div_pow _ 8).symm
    _ = 2 ^ 23 * 1 ||| (bus.toNat * 256 + slot * 8 + func) := by
      rw [pciAddress, BitVec.toNat_or, BitVec.toNat_or, Nat.shiftRight_or_distrib, Nat.shiftRight_or_distrib, hdevice,
        hoffset, Nat.or_zero]
      rfl
    _ = 0x800000 + bus.toNat * 256 + slot * 8 + func := by
      rw [← Nat.two_pow_add_eq_or_of_lt hlow 1]
      omega

/-- The address of a function says which one it is. -/
theorem pciDevice_inj (hslot : slot < 32) (hfunc : func < 8) (hslot' : slot' < 32) (hfunc' : func' < 8) :
    pciDevice bus slot func = pciDevice bus' slot' func' ↔ bus = bus' ∧ slot = slot' ∧ func = func' := by
  constructor
  · intro h
    have hnat := congrArg BitVec.toNat h
    rw [pciDevice_toNat hslot hfunc, pciDevice_toNat hslot' hfunc'] at hnat
    refine ⟨BitVec.eq_of_toNat_eq ?_, ?_, ?_⟩ <;> omega
  · rintro ⟨rfl, rfl, rfl⟩
    rfl

end Device

section Walk

variable {space : ConfigSpace} {bus b c : Byte} {slot func fuel : Nat} {p : Nat × Nat}

theorem mem_slotFunctions : p ∈ slotFunctions space bus slot ↔ p.1 = slot ∧ p.2 < 8 ∧
    pciConfigReadw space (pciDevice bus slot p.2) 0 ≠ 0xFFFF ∧ pciConfigReadw space (pciDevice bus slot 0) 0 ≠ 0xFFFF ∧
    (p.2 = 0 ∨ pciConfigReadb space (pciDevice bus slot 0) 0xE &&& 0x80 ≠ 0) := by
  unfold slotFunctions
  by_cases habsent : pciConfigReadw space (pciDevice bus slot 0) 0 = 0xFFFF
  · rw [if_pos habsent]
    exact ⟨fun hp => absurd hp List.not_mem_nil, fun hp => absurd habsent hp.2.2.2.1⟩
  · rw [if_neg habsent]
    by_cases hmulti : pciConfigReadb space (pciDevice bus slot 0) 0xE &&& 0x80 ≠ 0
    · rw [if_pos hmulti]
      simp only [List.mem_map, List.mem_filter, List.mem_range, decide_eq_true_eq]
      constructor
      · rintro ⟨func, ⟨hfunc, hvendor⟩, rfl⟩
        exact ⟨rfl, hfunc, hvendor, habsent, Or.inr hmulti⟩
      · rintro ⟨hslot, hfunc, hvendor, -⟩
        exact ⟨p.2, ⟨hfunc, hvendor⟩, Prod.ext hslot.symm rfl⟩
    · rw [if_neg hmulti, List.mem_singleton]
      constructor
      · rintro rfl
        exact ⟨rfl, Nat.succ_pos 7, habsent, habsent, Or.inl rfl⟩
      · rintro ⟨hslot, -, -, -, hzero⟩
        exact Prod.ext hslot (hzero.resolve_right hmulti)

theorem mem_functions : p ∈ functions space bus ↔ Present space bus p.1 p.2 := by
  unfold functions
  rw [List.mem_flatMap]
  constructor
  · rintro ⟨slot, hslot, hp⟩
    obtain ⟨rfl, hfunc, hvendor, hdevice, hmulti⟩ := mem_slotFunctions.1 hp
    exact ⟨List.mem_range.1 hslot, hfunc, hvendor, hdevice, hmulti⟩
  · exact fun h => ⟨p.1, List.mem_range.2 h.slot_lt, mem_slotFunctions.2 ⟨rfl, h.func_lt, h.vendor, h.device, h.multi⟩⟩

theorem functions_nodup : (functions space bus).Nodup := by
  refine List.nodup_flatMap.2 ⟨fun slot _ => ?_, ?_⟩
  · unfold slotFunctions
    split
    · exact List.nodup_nil
    · split
      · exact (List.nodup_range.filter _).map fun _ _ h => (Prod.mk.inj h).2
      · exact List.nodup_singleton _
  · refine List.nodup_range.imp fun hne p hp hp' => hne ?_
    exact (mem_slotFunctions.1 hp).1.symm.trans (mem_slotFunctions.1 hp').1

theorem mem_secondaries : c ∈ secondaries space b ↔ NextBus space b c := by
  simp only [secondaries, List.mem_map, List.mem_filter, mem_functions, decide_eq_true_eq, NextBus, Prod.exists]
  constructor
  · rintro ⟨slot, func, ⟨hpresent, hbridge⟩, hc⟩
    exact ⟨slot, func, hpresent, hbridge, hc⟩
  · rintro ⟨slot, func, hpresent, hbridge, hc⟩
    exact ⟨slot, func, ⟨hpresent, hbridge⟩, hc⟩

/-- **`pci_scan_bus`** scans the functions of the bus, one after the other. -/
theorem pciScanBus_succ : pciScanBus space (fuel + 1) bus =
    collect (fun p => pciScanFunction space (pciScanBus space fuel) bus p.1 p.2) (functions space bus) := by
  rw [pciScanBus, functions, collect_flatMap]
  apply collect_congr
  intro slot _
  unfold pciScanSlot slotFunctions
  by_cases habsent : pciConfigReadw space (pciDevice bus slot 0) 0 = 0xFFFF
  · rw [if_pos habsent, if_pos habsent]
    rfl
  · rw [if_neg habsent, if_neg habsent]
    by_cases hmulti : pciConfigReadb space (pciDevice bus slot 0) 0xE &&& 0x80 ≠ 0
    · rw [if_pos hmulti, if_pos hmulti, collect_map]
      exact collect_filter _ _
    · rw [if_neg hmulti, if_neg hmulti, collect_singleton]

theorem pciScanFunction_eq (scanBus : Byte → Option (List PciCall)) (bus : Byte) (p : Nat × Nat) :
    pciScanFunction space scanBus bus p.1 p.2 =
      (if IsBridge space bus p then scanBus (secondary space bus p) else some []).map (· ++ [callOf space bus p]) := by
  unfold pciScanFunction
  by_cases hbridge : IsBridge space bus p
  · obtain ⟨hclass, hsubclass⟩ := id hbridge
    simp only [if_pos hbridge, hclass, hsubclass, and_self, if_true]
    show (scanBus (secondary space bus p) >>= fun calls => some (calls ++ [callOf space bus p])) = _
    cases scanBus (secondary space bus p) with
    | none => rfl
    | some calls => rfl
  · rw [if_neg hbridge]
    simp only [IsBridge] at hbridge
    simp only [if_neg hbridge]
    rfl

theorem collect_secondaries {β : Type} (f : Byte → Option (List β)) (bus : Byte) :
    collect (fun p => if IsBridge space bus p then f (secondary space bus p) else some []) (functions space bus) =
      collect f (secondaries space bus) := by
  rw [secondaries, collect_map]
  exact collect_filter _ _

/-- The calls of a bus: those of the buses behind its bridges, and one for each of its functions. -/
theorem pciScanBus_calls {calls : List PciCall} (h : pciScanBus space (fuel + 1) bus = some calls) :
    ∃ r, collect (pciScanBus space fuel) (secondaries space bus) = some r ∧
      calls.Perm (r ++ (functions space bus).map (callOf space bus)) := by
  rw [pciScanBus_succ, collect_congr fun p _ => pciScanFunction_eq _ bus p] at h
  obtain ⟨r, hr, hperm⟩ := collect_more h
  rw [collect_secondaries] at hr
  rw [← List.map_eq_flatMap] at hperm
  exact ⟨r, hr, hperm⟩

/-- The scan of a bus returns when the walk does. -/
theorem pciScanBus_isSome : (∃ calls, pciScanBus space fuel bus = some calls) ↔
    ∃ s, walk (secondaries space) fuel bus = some s := by
  induction fuel generalizing bus with
  | zero => exact ⟨fun ⟨_, h⟩ => (by cases h), fun ⟨_, h⟩ => (by cases h)⟩
  | succ fuel ih =>
    have hparts : (∃ r, collect (pciScanBus space fuel) (secondaries space bus) = some r) ↔
        ∃ r, collect (walk (secondaries space) fuel) (secondaries space bus) = some r := by
      rw [collect_isSome, collect_isSome]
      exact forall₂_congr fun _ _ => ih
    constructor
    · rintro ⟨calls, h⟩
      obtain ⟨r, hr, -⟩ := pciScanBus_calls h
      obtain ⟨s, hs⟩ := hparts.1 ⟨r, hr⟩
      exact ⟨bus :: s, walk_succ_eq_some.2 ⟨s, hs, rfl⟩⟩
    · rintro ⟨s, h⟩
      obtain ⟨r, hr, -⟩ := walk_succ_eq_some.1 h
      obtain ⟨t, ht⟩ := hparts.2 ⟨r, hr⟩
      rw [← collect_secondaries] at ht
      rw [pciScanBus_succ, collect_congr fun p _ => pciScanFunction_eq _ bus p]
      exact collect_more_isSome _ ⟨t, ht⟩

/-- The functions of a bus at one address. -/
theorem countP_functions (hpresent : Present space c slot func) (bus : Byte) :
    ((functions space bus).map (callOf space bus)).countP (·.device = pciDevice c slot func) =
      if bus = c then 1 else 0 := by
  rw [List.countP_map]
  by_cases hbus : bus = c
  · subst hbus
    rw [if_pos rfl]
    have hmem : (slot, func) ∈ functions space bus := mem_functions.2 hpresent
    have hcount : (functions space bus).count (slot, func) = 1 :=
      List.count_eq_one_of_mem functions_nodup hmem
    rw [← hcount, List.count]
    apply List.countP_congr
    intro p hp
    have hp' := mem_functions.1 hp
    simp only [Function.comp, callOf, decide_eq_true_eq, beq_iff_eq,
      pciDevice_inj hp'.slot_lt hp'.func_lt hpresent.slot_lt hpresent.func_lt, true_and]
    exact ⟨fun ⟨h₁, h₂⟩ => Prod.ext h₁ h₂, fun h => ⟨congrArg Prod.fst h, congrArg Prod.snd h⟩⟩
  · rw [if_neg hbus]
    apply List.countP_eq_zero.2
    intro p hp
    have hp' := mem_functions.1 hp
    simp only [Function.comp, callOf, decide_eq_true_eq,
      pciDevice_inj hp'.slot_lt hp'.func_lt hpresent.slot_lt hpresent.func_lt]
    exact fun h => hbus h.1

/-- **The calls of a scan**: as many for each function as the walk comes to its bus. -/
theorem countP_pciScanBus (hpresent : Present space c slot func) : ∀ {fuel : Nat} {bus : Byte} {calls : List PciCall}
    {s : List Byte}, pciScanBus space fuel bus = some calls → walk (secondaries space) fuel bus = some s →
      calls.countP (·.device = pciDevice c slot func) = s.count c := by
  intro fuel
  induction fuel with
  | zero =>
    intro bus calls s h
    cases h
  | succ fuel ih =>
    intro bus calls s hcalls hs
    obtain ⟨r, hr, hperm⟩ := pciScanBus_calls hcalls
    obtain ⟨t, ht, rfl⟩ := walk_succ_eq_some.1 hs
    -- the buses behind the bridges
    have hparts : r.countP (·.device = pciDevice c slot func) = t.count c :=
      countP_collect (fun b _ x y hx hy => ih hx hy) hr ht
    rw [hperm.countP_eq, List.countP_append, countP_functions hpresent, hparts, List.count_cons]
    by_cases hbus : bus = c
    · simp [hbus]
    · simp [hbus]

/-- The calls are for functions. -/
theorem mem_pciScanBus {x : PciCall} : ∀ {fuel : Nat} {bus : Byte} {calls : List PciCall},
    pciScanBus space fuel bus = some calls → x ∈ calls → ∃ b, ∃ p ∈ functions space b, x = callOf space b p := by
  intro fuel
  induction fuel with
  | zero =>
    intro bus calls h
    cases h
  | succ fuel ih =>
    intro bus calls h hx
    obtain ⟨r, hr, hperm⟩ := pciScanBus_calls h
    rcases List.mem_append.1 (hperm.mem_iff.1 hx) with hx | hx
    · obtain ⟨b, -, y, hy, hxy⟩ := (mem_collect hr).1 hx
      exact ih hy hxy
    · obtain ⟨p, hp, rfl⟩ := List.mem_map.1 hx
      exact ⟨bus, p, hp, rfl⟩

theorem scanHost_eq (l : List Nat) : scanHost space fuel l = collect (pciScanBus space fuel)
    ((l.takeWhile fun function => pciConfigReadw space (pciDevice 0 0 function) 0 ≠ 0xFFFF).map (BitVec.ofNat 8)) := by
  induction l with
  | nil => rfl
  | cons function l ih =>
    rw [scanHost, List.takeWhile_cons]
    by_cases habsent : pciConfigReadw space (pciDevice 0 0 function) 0 = 0xFFFF
    · rw [if_pos habsent, if_neg (by simpa using habsent)]
      rfl
    · rw [if_neg habsent, if_pos (by simpa using habsent), List.map_cons, collect, ih]

/-- **`pci_scan`** is a walk from its roots. -/
theorem pciScan_eq : pciScan space fuel = collect (pciScanBus space fuel) (roots space) := by
  unfold pciScan roots
  split
  · rw [collect_singleton]
  · exact scanHost_eq _

/-- When function 0 of the first device is present, the scan starts with bus 0. -/
theorem zero_mem_roots (h : pciConfigReadw space (pciDevice 0 0 0) 0 ≠ 0xFFFF) : 0 ∈ roots space := by
  unfold roots
  split
  · exact List.mem_singleton_self 0
  · refine List.mem_map.2 ⟨0, ?_, rfl⟩
    rw [show List.range 8 = 0 :: List.range' 1 7 by decide, List.takeWhile_cons_of_pos (by simpa using h)]
    exact List.mem_cons_self

theorem nextBus_eq : (fun b c => c ∈ secondaries space b) = NextBus space := by
  funext b c
  exact propext mem_secondaries

/-- **The calls of the whole scan.** -/
theorem pciScan_calls {calls : List PciCall} {s : List Byte} (hcalls : pciScan space fuel = some calls)
    (hs : collect (walk (secondaries space) fuel) (roots space) = some s) (hpresent : Present space c slot func) :
    calls.filter (·.device = pciDevice c slot func) = [callOf space c (slot, func)] ↔ s.count c = 1 := by
  rw [pciScan_eq] at hcalls
  have hcount : calls.countP (·.device = pciDevice c slot func) = s.count c :=
    countP_collect (fun b _ x y hx hy => countP_pciScanBus hpresent hx hy) hcalls hs
  rw [← hcount, List.countP_eq_length_filter]
  constructor
  · intro h
    rw [h]
    rfl
  · intro h
    obtain ⟨x, hx⟩ := List.length_eq_one_iff.1 h
    have hmem : x ∈ calls.filter (·.device = pciDevice c slot func) := hx ▸ List.mem_singleton_self x
    obtain ⟨hxc, hdevice⟩ := List.mem_filter.1 hmem
    obtain ⟨r, -, y, hy, hxy⟩ := (mem_collect hcalls).1 hxc
    obtain ⟨b, p, hp, rfl⟩ := mem_pciScanBus hy hxy
    have hp' := mem_functions.1 hp
    obtain ⟨rfl, hslot, hfunc⟩ := (pciDevice_inj hp'.slot_lt hp'.func_lt hpresent.slot_lt hpresent.func_lt).1
      (of_decide_eq_true hdevice)
    rw [hx, ← hslot, ← hfunc]

end Walk

/-! ## The theorem -/

/-- The bridges make a tree of the buses: none that is scanned leads back to itself, and there is exactly one way into
each bus behind bus 0 that has functions. -/
structure BusTree (space : ConfigSpace) : Prop where
  acyclic : ∀ b, Visited (secondaries space) (roots space) b → ¬ Relation.TransGen (NextBus space) b b
  once : ∀ b, Relation.ReflTransGen (NextBus space) 0 b → (∃ slot func, Present space b slot func) →
    EnteredOnce (secondaries space) (roots space) b

/-- **`pci_scan`.** With a function 0 of the first device, the scan returns and makes exactly one call for every function
that is present on a bus behind bus 0 if and only if the bridges make a tree of the buses. -/
theorem pci_scan_once_iff (space : ConfigSpace) (h : pciConfigReadw space (pciDevice 0 0 0) 0 ≠ 0xFFFF) :
    (∃ fuel calls, pciScan space fuel = some calls ∧ ∀ bus slot func, Relation.ReflTransGen (NextBus space) 0 bus →
      Present space bus slot func →
        calls.filter (·.device = pciDevice bus slot func) = [callOf space bus (slot, func)]) ↔ BusTree space := by
  have hroot := zero_mem_roots h
  have hnamed : ∀ b, secondaries space b ≠ [] → ∃ slot func, Present space b slot func := by
    intro b hne
    obtain ⟨c, hc⟩ := List.exists_mem_of_ne_nil _ hne
    obtain ⟨slot, func, hpresent, -⟩ := mem_secondaries.1 hc
    exact ⟨slot, func, hpresent⟩
  constructor
  · rintro ⟨fuel, calls, hcalls, honce⟩
    have hwalks : ∃ s, collect (walk (secondaries space) fuel) (roots space) = some s := by
      rw [pciScan_eq] at hcalls
      exact collect_isSome.2 fun r hr => pciScanBus_isSome.1 (collect_isSome.1 ⟨calls, hcalls⟩ r hr)
    obtain ⟨s, hs⟩ := hwalks
    have hcounts := count_eq_one_iff (Q := fun b => ∃ slot func, Present space b slot func) hs hroot hnamed
    rw [nextBus_eq] at hcounts
    refine ⟨?_, hcounts.1 fun b hb ⟨slot, func, hpresent⟩ => (pciScan_calls hcalls hs hpresent).1
      (honce b slot func hb hpresent)⟩
    rintro b ⟨r, hr, hpath⟩
    obtain ⟨t, ht⟩ := collect_isSome.1 ⟨s, hs⟩ r hr
    have hacc := not_cycle_of_acc (walk_acc ht) hpath
    rw [nextBus_eq] at hacc
    exact hacc
  · intro htree
    have hwalks : ∀ r ∈ roots space, ∃ fuel s, walk (secondaries space) fuel r = some s := by
      intro r hr
      have : Finite Byte := Finite.of_injective BitVec.toFin fun _ _ => BitVec.eq_of_toFin_eq
      apply exists_walk
      refine acc_iff_acyclic.2 fun b hb => ?_
      rw [nextBus_eq]
      exact htree.acyclic b ⟨r, hr, hb⟩
    obtain ⟨fuel, hfuel⟩ := exists_fuel hwalks
    obtain ⟨s, hs⟩ := collect_isSome.2 hfuel
    obtain ⟨calls, hcalls⟩ : ∃ calls, pciScan space fuel = some calls := by
      rw [pciScan_eq]
      exact collect_isSome.2 fun r hr => pciScanBus_isSome.2 (hfuel r hr)
    have hcounts := count_eq_one_iff (Q := fun b => ∃ slot func, Present space b slot func) hs hroot hnamed
    rw [nextBus_eq] at hcounts
    refine ⟨fuel, calls, hcalls, fun bus slot func hbus hpresent => (pciScan_calls hcalls hs hpresent).2 ?_⟩
    exact hcounts.2 htree.once bus hbus ⟨slot, func, hpresent⟩

/-- The registers of a host bridge at 0:0.0, of a bridge to bus 1 at 0:1.0, and of a network card behind it at 1:0.0. -/
def bridged : ConfigSpace := fun a =>
  if a.toNat / 256 = 0x800000 then (if a.toNat % 256 = 0 then 0x00008086#32 else 0#32)
  else if a.toNat / 256 = 0x800008 then
    if a.toNat % 256 = 0 then 0x244E8086#32
    else if a.toNat % 256 = 8 then 0x06040000#32
    else if a.toNat % 256 = 0x18 then 0x00010100#32
    else 0#32
  else if a.toNat / 256 = 0x800100 then
    if a.toNat % 256 = 0 then 0x100E8086#32
    else if a.toNat % 256 = 8 then 0x02000000#32
    else 0#32
  else 0xFFFFFFFF#32

/-- The bridge is the only one. -/
theorem bridged_next {b c : Byte} : NextBus bridged b c ↔ b = 0 ∧ c = 1 := by
  constructor
  · rintro ⟨slot, func, hpresent, ⟨hclass, -⟩, rfl⟩
    have hdevice : (pciAddress (pciDevice b slot func) 0x0B).toNat / 256 = _ :=
      pciAddress_device hpresent.slot_lt hpresent.func_lt 0x0B
    have hslot := hpresent.slot_lt
    have hfunc := hpresent.func_lt
    unfold pciConfigReadb bridged at hclass
    rw [hdevice] at hclass
    split at hclass
    · split at hclass
      · exact absurd hclass (by decide)
      · exact absurd hclass (by decide)
    · split at hclass
      · have hzero : b.toNat = 0 := by omega
        obtain rfl : slot = 1 := by omega
        obtain rfl : func = 0 := by omega
        obtain rfl : b = 0 := BitVec.eq_of_toNat_eq hzero
        exact ⟨rfl, by decide⟩
      · split at hclass
        · split at hclass
          · exact absurd hclass (by decide)
          · split at hclass
            · exact absurd hclass (by decide)
            · exact absurd hclass (by decide)
        · exact absurd hclass (by decide)
  · rintro ⟨rfl, rfl⟩
    exact ⟨1, 0, ⟨by decide, by decide, by decide, by decide, Or.inl rfl⟩, ⟨by decide, by decide⟩, by decide⟩

theorem bridged_tree : BusTree bridged := by
  have hroots : roots bridged = [0] := rfl
  have hnot : ∀ {b c : Byte}, Relation.ReflTransGen (NextBus bridged) b c → b = 1 → c = 1 := by
    intro b c hbc hb
    rcases hbc.cases_head with rfl | ⟨d, hd, -⟩
    · exact hb
    · exact absurd ((bridged_next.1 hd).1.symm.trans hb) (by decide)
  refine ⟨fun b _ hb => ?_, fun b hb _ => ?_⟩
  · obtain ⟨c, hc, hcb⟩ := Relation.TransGen.head'_iff.1 hb
    obtain ⟨rfl, rfl⟩ := bridged_next.1 hc
    exact absurd (hnot hcb rfl) (by decide)
  · rw [EnteredOnce, hroots]
    rcases hb.cases_head with rfl | ⟨c, hc, hcb⟩
    · refine Or.inl ⟨by decide, fun a _ ha => ?_⟩
      exact absurd (bridged_next.1 (mem_secondaries.1 ha)).2 (by decide)
    · obtain ⟨-, rfl⟩ := bridged_next.1 hc
      obtain rfl := hnot hcb rfl
      refine Or.inr ⟨by decide, 0, ⟨0, List.mem_singleton_self 0, .refl⟩, by decide, fun a _ ha => ?_⟩
      exact (bridged_next.1 (mem_secondaries.1 ha)).1

/-- The bridge and the card behind it are found, once each. -/
theorem pci_scan_once_iff_bridge : ∃ fuel calls, pciScan bridged fuel = some calls ∧
    calls.filter (·.device = pciDevice 0 1 0) = [callOf bridged 0 (1, 0)] ∧
    calls.filter (·.device = pciDevice 1 0 0) = [callOf bridged 1 (0, 0)] := by
  obtain ⟨fuel, calls, hcalls, honce⟩ := (pci_scan_once_iff bridged (by decide)).2 bridged_tree
  refine ⟨fuel, calls, hcalls, honce 0 1 0 .refl ?_, honce 1 0 0 (.single (bridged_next.2 ⟨rfl, rfl⟩)) ?_⟩
  · exact ⟨by decide, by decide, by decide, by decide, Or.inl rfl⟩
  · exact ⟨by decide, by decide, by decide, by decide, Or.inl rfl⟩

/-- A bridge to its own bus. -/
def loopBridge : ConfigSpace := fun a => if a &&& 0xFFFFFF00#32 = 0x80000000#32 then 0x06040001#32 else 0xFFFFFFFF#32

theorem loopBridge_none (fuel : Nat) : pciScan loopBridge fuel = none := by
  have hbus : pciScanBus loopBridge fuel 0 = none := by
    induction fuel with
    | zero => rfl
    | succ fuel ih =>
      rw [pciScanBus, show List.range 32 = 0 :: List.range' 1 31 by decide, collect]
      have hslot : pciScanSlot loopBridge (pciScanBus loopBridge fuel) 0 0 = none := by
        unfold pciScanSlot
        rw [if_neg (by decide), if_neg (by decide), pciScanFunction_eq _ 0 (0, 0), if_pos (by decide),
          show secondary loopBridge 0 (0, 0) = 0 by decide, ih]
        rfl
      rw [hslot]
      rfl
  exact hbus

/-- The scan does not end. -/
theorem loopBridge_endless : ¬ ∃ fuel calls, pciScan loopBridge fuel = some calls := by
  rintro ⟨fuel, calls, hcalls⟩
  rw [loopBridge_none] at hcalls
  cases hcalls

end Myunix.Pci
