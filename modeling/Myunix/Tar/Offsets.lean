import Myunix.Fs.Files
import Myunix.Tar.Archive

/-!
# Going through any device

`tar_foreach_entry` adds up the lengths of the entries in 32-bit arithmetic, and the lengths come from the device. On a
device with any contents the offsets need not increase: the length of an entry of nearly 4 GiB is 0, and a sum may
overflow. `tar_offsets_iff` says for which devices they increase; then every loop over the headers ends.
-/

namespace Myunix.Tar

open Lib Fs Files

/-! ## The loop -/

/-- What `fs_read` returns for a header at `ptr`. -/
def headerRead (device : Extent) (ptr : Word) : Word := (Files.ramdiskRead device ptr 512#32).ret

/-- The bytes that are read at `ptr`. -/
def headerBytes (mem : Mem) (device : Extent) (ptr : Word) : List Byte :=
  (Files.ramdiskRead device ptr 512#32).source.map mem

/-- `ptr += tar_entry_length(header)`. -/
def nextOffset (mem : Mem) (device : Extent) (ptr : Word) : Word :=
  ptr + BitVec.ofNat 32 (tarEntryLength (headerBytes mem device ptr))

/-- The offset of the `k`-th header that `tar_foreach_entry` comes to, if it does not end before. -/
def headerOffset (mem : Mem) (device : Extent) : Nat → Option Word
  | 0 => if headerRead device 0#32 = 512#32 then some 0#32 else none
  | k + 1 =>
    match headerOffset mem device k with
    | none => none
    | some ptr =>
      let ptr := nextOffset mem device ptr
      if headerRead device ptr = 512#32 then some ptr else none

section Loop

variable {σ ρ : Type}

/-- At most `fuel` rounds of `tar_foreach_entry` from `ptr` on; `none` when they do not suffice. -/
def tarRounds (mem : Mem) (device : Extent) (body : σ → Nat → List Byte → Kernel (σ ⊕ ρ)) :
    Nat → Word → σ → Option (Kernel (σ ⊕ ρ))
  | 0, _, _ => none
  | fuel + 1, ptr, st =>
    if headerRead device ptr = 512#32 then
      match body st ptr.toNat (headerBytes mem device ptr) with
      | .error e => some (.error e)
      | .ok (.inr r) => some (.ok (.inr r))
      | .ok (.inl st) => tarRounds mem device body fuel (nextOffset mem device ptr) st
    else some (.ok (.inl st))

end Loop

/-- `tar_lookup`. -/
def lookupRounds (mem : Mem) (device : Extent) (fuel : Nat) (fname : CString) :
    Option (Kernel (Option (Nat × List Byte))) :=
  if strlen fname > 100 - 2 then some (.ok none)
  else (tarRounds mem device (lookupBody fname) fuel 0#32 ⟨⟩).map fun result => do
    match ← result with
    | .inl _ => return none
    | .inr found => return some found

/-- `tar_finddir`. -/
def finddirRounds (mem : Mem) (device : Extent) (fuel : Nat) (obj : TarObj) (name : CString) :
    Option (Kernel (Option TarNode)) :=
  (lookupRounds mem device fuel (fullPath obj.name name)).map fun result => do
    match ← result with
    | none => return none
    | some (off, header) =>
      let obj2 ← tarCreateObjFromHeader header off
      return some (fsNodeFromTar obj2)

/-- `tar_readdir`. -/
def readdirRounds (mem : Mem) (device : Extent) (fuel : Nat) (obj : TarObj) (i : Word) :
    Option (Kernel (Option Dirent)) :=
  if i = 0#32 then some (.ok (some ⟨0, ⟨[0x2E], dot_nonzero⟩⟩))
  else if i = 1#32 then some (.ok (some ⟨1, ⟨[0x2E, 0x2E], dotdot_nonzero⟩⟩))
  else (tarRounds mem device (readdirBody obj.name i.toNat) fuel 0#32 1).map fun result => do
    match ← result with
    | .inl _ => return none
    | .inr v => return some v

/-! ## The layout of the device -/

/-- The offsets of the headers increase until a read is short. -/
def OffsetsIncrease (mem : Mem) (device : Extent) : Prop :=
  ∀ k p q, headerOffset mem device k = some p → headerOffset mem device (k + 1) = some q → p < q

/-- `tar_lookup`, `tar_finddir` and `tar_readdir` return. -/
def LoopsEnd (mem : Mem) (device : Extent) : Prop :=
  ∃ fuel, (∀ fname, lookupRounds mem device fuel fname ≠ none) ∧
    (∀ obj name, finddirRounds mem device fuel obj name ≠ none) ∧ ∀ obj i, readdirRounds mem device fuel obj i ≠ none

/-- A read of 512 bytes at `p` is not short. -/
def Readable (device : Extent) (p : Nat) : Prop :=
  p ≤ device.length.toNat ∧ (p + 512 ≤ device.length.toNat ∨ 0x100000000 ≤ p + 512)

/-- The 512 bytes at `p`. -/
def headerAt (mem : Mem) (device : Extent) (p : Nat) : List Byte :=
  (addresses (device.object + BitVec.ofNat 32 p) 512).map mem

/-- The room an entry takes: its header and its data, in units of 512 bytes. A size that is not rounded to a word counts
as no data. -/
def entryRoom (header : List Byte) : Nat :=
  if 0x100000000 - 512 < fsize header then 512 else ((fsize header + 511) / 512 + 1) * 512

/-- One header follows the other from offset 0 on, without an overflow. -/
inductive EntryAt (mem : Mem) (device : Extent) : Nat → Prop
  | first : Readable device 0 → EntryAt mem device 0
  | next {p : Nat} : EntryAt mem device p → Readable device (p + entryRoom (headerAt mem device p)) →
      EntryAt mem device (p + entryRoom (headerAt mem device p))

/-- Every entry ends below 4 GiB. -/
def EntriesFit (mem : Mem) (device : Extent) : Prop :=
  ∀ p, EntryAt mem device p → p + entryRoom (headerAt mem device p) < 0x100000000

/-- The bytes of a ramdisk in memory are those of the reads of `Tar.ramdiskRead`. -/
theorem ramdiskRead_bytes (disk : Ramdisk) (mem : Mem) (object : Word)
    (hmem : ∀ i (h : i < disk.data.length), mem (object + BitVec.ofNat 32 i) = disk.data[i]) (offset size : Word)
    (hsum : offset.toNat + size.toNat < 0x100000000) :
    (Files.ramdiskRead ⟨object, BitVec.ofNat 32 disk.data.length⟩ offset size).source.map mem =
      ramdiskRead disk offset.toNat size.toNat := by
  have hfits := disk.fits
  have hlength : (BitVec.ofNat 32 disk.data.length).toNat = disk.data.length := by
    rw [BitVec.toNat_ofNat, Nat.mod_eq_of_lt (by omega)]
  by_cases hle : offset.toNat ≤ disk.data.length
  · have hle' : offset ≤ BitVec.ofNat 32 disk.data.length := by
      show offset.toNat ≤ (BitVec.ofNat 32 disk.data.length).toNat
      rw [hlength]
      exact hle
    have hclamp := clamp_toNat size hle'
    rw [if_pos hsum, hlength] at hclamp
    rw [ramdiskRead_eq hle' rfl]
    dsimp only
    rw [hclamp, ramdiskRead, if_neg (by omega), Nat.mod_eq_of_lt hsum]
    have hsize : (if offset.toNat + size.toNat > disk.data.length then disk.data.length - offset.toNat
        else size.toNat) = min size.toNat (disk.data.length - offset.toNat) := by
      split <;> omega
    dsimp only
    rw [hsize]
    apply List.ext_getElem (by simp)
    intro i hi _
    have hi' : i < min size.toNat (disk.data.length - offset.toNat) := by simpa using hi
    have haddr : object + offset + BitVec.ofNat 32 i = object + BitVec.ofNat 32 (offset.toNat + i) := by
      rw [BitVec.ofNat_add, BitVec.ofNat_toNat, BitVec.setWidth_eq, BitVec.add_assoc]
    simp only [addresses, List.map_map, List.getElem_map, List.getElem_range, Function.comp_apply, haddr,
      List.getElem_take, List.getElem_drop]
    exact hmem _ (by omega)
  · have hgt : offset > BitVec.ofNat 32 disk.data.length := by
      show (BitVec.ofNat 32 disk.data.length).toNat < offset.toNat
      omega
    rw [ramdiskRead, if_pos (by omega), Files.ramdiskRead, if_pos hgt]
    rfl

/-! ## When the offsets increase -/

section Offsets

variable {mem : Mem} {device : Extent}

theorem oct2binLoop_lt (str : List Byte) : ∀ r, r < 0x100000000 → oct2binLoop str r < 0x100000000 := by
  induction str with
  | nil => exact fun r hr => hr
  | cons c str ih =>
    intro r hr
    rw [oct2binLoop]
    split
    · exact hr
    · apply ih _
      split
      · rename_i hdigit
        have hle : c.toNat - 0x30 ≤ 7 := by
          have := BitVec.toInt_eq_toNat_cond c
          omega
        omega
      · omega

theorem fsize_lt (header : List Byte) : fsize header < 0x100000000 := oct2binLoop_lt _ 0 (by decide)

/-- `tar_entry_length` in unbounded arithmetic. -/
theorem tarEntryLength_eq (header : List Byte) : tarEntryLength header = entryRoom header % 0x100000000 := by
  have hlt := fsize_lt header
  unfold tarEntryLength entryRoom
  split
  · have hsum : (fsize header + 511) % 0x100000000 / 512 = 0 := by omega
    rw [hsum]
  · rw [Nat.mod_eq_of_lt (by omega : fsize header + 511 < 0x100000000)]

theorem entryRoom_bounds (header : List Byte) :
    512 ≤ entryRoom header ∧ entryRoom header ≤ 0x100000000 ∧ entryRoom header % 512 = 0 := by
  have hlt := fsize_lt header
  unfold entryRoom
  split
  · omega
  · omega

/-- A read that is not short reads all of the header. -/
theorem header_read {ptr : Word} (hle : ptr ≤ device.length)
    (hread : (if ptr + 512#32 > device.length then device.length - ptr else 512#32) = 512#32) :
    Files.ramdiskRead device ptr 512#32 = ⟨512#32, addresses (device.object + ptr) 512⟩ := by
  rw [ramdiskRead_eq hle rfl, hread]
  rfl

theorem headerRead_iff (ptr : Word) : headerRead device ptr = 512#32 ↔ Readable device ptr.toNat := by
  unfold headerRead Readable
  by_cases hle : ptr ≤ device.length
  · rw [ramdiskRead_eq hle rfl]
    have hle' : ptr.toNat ≤ device.length.toNat := hle
    have h512 : (512#32 : Word).toNat = 512 := rfl
    dsimp only
    split
    · constructor
      · intro hsize
        refine ⟨hle', Or.inl ?_⟩
        bv_omega
      · rintro ⟨-, hin | hwrap⟩
        · bv_omega
        · bv_omega
    · refine ⟨fun _ => ⟨hle', ?_⟩, fun _ => rfl⟩
      by_cases hwrap : 0x100000000 ≤ ptr.toNat + 512
      · exact Or.inr hwrap
      · left
        bv_omega
  · have hread : Files.ramdiskRead device ptr 512#32 = ⟨0#32, []⟩ := if_pos (by bv_omega)
    rw [hread]
    constructor
    · intro hzero
      exact absurd hzero (by decide)
    · rintro ⟨hge, -⟩
      exact absurd hge hle

theorem headerBytes_eq {ptr : Word} (h : Readable device ptr.toNat) :
    headerBytes mem device ptr = headerAt mem device ptr.toNat := by
  have hread : (if ptr + 512#32 > device.length then device.length - ptr else 512#32) = 512#32 := by
    obtain ⟨hle, hor⟩ := h
    split <;> bv_omega
  rw [headerBytes, header_read h.1 hread, headerAt, BitVec.ofNat_toNat, BitVec.setWidth_eq]

/-- The next offset, in unbounded arithmetic. -/
theorem nextOffset_toNat (mem : Mem) {ptr : Word} (h : Readable device ptr.toNat) :
    (nextOffset mem device ptr).toNat = (ptr.toNat + entryRoom (headerAt mem device ptr.toNat)) % 0x100000000 := by
  rw [nextOffset, headerBytes_eq h, tarEntryLength_eq, BitVec.toNat_add, BitVec.toNat_ofNat]
  omega

/-- The first header. -/
theorem headerOffset_zero {p : Word} : headerOffset mem device 0 = some p ↔ p = 0#32 ∧ Readable device 0 := by
  have hread : headerRead device 0#32 = 512#32 ↔ Readable device 0 := headerRead_iff 0#32
  rw [headerOffset, ← hread]
  by_cases hr : headerRead device 0#32 = 512#32
  · rw [if_pos hr]
    exact ⟨fun h => ⟨(Option.some_inj.1 h).symm, hr⟩, fun h => by rw [h.1]⟩
  · rw [if_neg hr]
    exact ⟨fun h => (by cases h), fun h => absurd h.2 hr⟩

/-- The header behind the one at `p`. -/
theorem headerOffset_succ {k : Nat} {p q : Word} (hp : headerOffset mem device k = some p) :
    headerOffset mem device (k + 1) = some q ↔
      q = nextOffset mem device p ∧ Readable device (nextOffset mem device p).toNat := by
  simp only [headerOffset, hp, ← headerRead_iff]
  by_cases hread : headerRead device (nextOffset mem device p) = 512#32
  · simp [hread, eq_comm]
  · simp [hread]

/-- A header that is not the first follows another one. -/
theorem headerOffset_pred {k : Nat} {q : Word} (hq : headerOffset mem device (k + 1) = some q) :
    ∃ p, headerOffset mem device k = some p := by
  cases hp : headerOffset mem device k with
  | none => simp [headerOffset, hp] at hq
  | some p => exact ⟨p, rfl⟩

/-- Headers are at multiples of 512. -/
theorem headerOffset_readable (k : Nat) : ∀ {p : Word}, headerOffset mem device k = some p →
    Readable device p.toNat ∧ p.toNat % 512 = 0 := by
  induction k with
  | zero =>
    intro p hp
    obtain ⟨rfl, hread⟩ := headerOffset_zero.1 hp
    exact ⟨hread, rfl⟩
  | succ k ih =>
    intro q hq
    obtain ⟨p, hp⟩ := headerOffset_pred hq
    obtain ⟨hreadable, hmod⟩ := ih hp
    obtain ⟨rfl, hread⟩ := (headerOffset_succ hp).1 hq
    have hroom := entryRoom_bounds (headerAt mem device p.toNat)
    refine ⟨hread, ?_⟩
    rw [nextOffset_toNat mem hreadable]
    omega

/-- An offset that is not behind that of a header is that of a header. -/
theorem Readable.of_le {p q : Nat} (h : Readable device p) (hle : q ≤ p) (hp : p % 512 = 0) (hq : q % 512 = 0) :
    Readable device q := by
  unfold Readable at *
  omega

/-- **If every entry fits**, the loop comes to the headers of the layout. -/
theorem headerOffset_entryAt (hfit : EntriesFit mem device) (k : Nat) : ∀ {p : Word},
    headerOffset mem device k = some p → EntryAt mem device p.toNat := by
  induction k with
  | zero =>
    intro p hp
    obtain ⟨rfl, hread⟩ := headerOffset_zero.1 hp
    exact .first hread
  | succ k ih =>
    intro q hq
    obtain ⟨p, hp⟩ := headerOffset_pred hq
    obtain ⟨rfl, hread⟩ := (headerOffset_succ hp).1 hq
    have hentry := ih hp
    have hnext := nextOffset_toNat mem (headerOffset_readable k hp).1
    rw [Nat.mod_eq_of_lt (hfit _ hentry)] at hnext
    rw [hnext] at hread ⊢
    exact .next hentry hread

/-- **If the offsets increase**, the loop comes to every header of the layout, and its entry fits. -/
theorem entryAt_headerOffset (hinc : OffsetsIncrease mem device) {p : Nat} (h : EntryAt mem device p) :
    (∃ k w, headerOffset mem device k = some w ∧ w.toNat = p) ∧
      p + entryRoom (headerAt mem device p) < 0x100000000 := by
  -- a header that the loop comes to has an entry that fits: else the next offset is that of a header before it
  have hfit : ∀ {k : Nat} {w : Word}, headerOffset mem device k = some w →
      w.toNat + entryRoom (headerAt mem device w.toNat) < 0x100000000 := by
    intro k w hw
    by_contra hge
    obtain ⟨hreadable, hmod⟩ := headerOffset_readable k hw
    have hroom := entryRoom_bounds (headerAt mem device w.toNat)
    have hnext := nextOffset_toNat mem hreadable
    have hlt := w.isLt
    have hle : (nextOffset mem device w).toNat ≤ w.toNat := by omega
    have hmod' : (nextOffset mem device w).toNat % 512 = 0 := by omega
    have hback := hinc k w _ hw ((headerOffset_succ hw).2 ⟨rfl, hreadable.of_le hle hmod hmod'⟩)
    exact absurd hle (Nat.not_le_of_lt hback)
  have hcome : ∃ k w, headerOffset mem device k = some w ∧ w.toNat = p := by
    induction h with
    | first hread => exact ⟨0, 0#32, headerOffset_zero.2 ⟨rfl, hread⟩, rfl⟩
    | next hentry hread ih =>
      obtain ⟨k, w, hw, rfl⟩ := ih
      have hnext := nextOffset_toNat mem (headerOffset_readable k hw).1
      rw [Nat.mod_eq_of_lt (hfit hw)] at hnext
      rw [← hnext] at hread ⊢
      exact ⟨k + 1, _, (headerOffset_succ hw).2 ⟨rfl, hread⟩, rfl⟩
  refine ⟨hcome, ?_⟩
  obtain ⟨k, w, hw, rfl⟩ := hcome
  exact hfit hw

/-- The offsets increase exactly when every entry fits. -/
theorem offsetsIncrease_iff : OffsetsIncrease mem device ↔ EntriesFit mem device := by
  constructor
  · intro hinc p hp
    exact (entryAt_headerOffset hinc hp).2
  · intro hfit k p q hp hq
    obtain ⟨rfl, -⟩ := (headerOffset_succ hp).1 hq
    have hnext := nextOffset_toNat mem (headerOffset_readable k hp).1
    have hroom := entryRoom_bounds (headerAt mem device p.toNat)
    rw [Nat.mod_eq_of_lt (hfit _ (headerOffset_entryAt hfit k hp))] at hnext
    show p.toNat < (nextOffset mem device p).toNat
    omega

/-! ## The loops end -/

/-- From an offset of the layout on, as many rounds suffice as there are bytes above it. -/
theorem tarRounds_end {σ ρ : Type} {body : σ → Nat → List Byte → Kernel (σ ⊕ ρ)} (hfit : EntriesFit mem device)
    (fuel : Nat) : ∀ {ptr : Word} {st : σ}, (Readable device ptr.toNat → EntryAt mem device ptr.toNat) →
      0x100000000 ≤ ptr.toNat + fuel → tarRounds mem device body fuel ptr st ≠ none := by
  induction fuel with
  | zero =>
    intro ptr st _ hfuel
    have hlt := ptr.isLt
    omega
  | succ fuel ih =>
    intro ptr st hentry hfuel
    rw [tarRounds]
    split
    · rename_i hread
      have hreadable := (headerRead_iff ptr).1 hread
      split
      · simp
      · simp
      · have hnext := nextOffset_toNat mem hreadable
        rw [Nat.mod_eq_of_lt (hfit _ (hentry hreadable))] at hnext
        have hroom := entryRoom_bounds (headerAt mem device ptr.toNat)
        refine ih (fun hread' => ?_) (by omega)
        rw [hnext] at hread' ⊢
        exact .next (hentry hreadable) hread'
    · simp

theorem loopsEnd_of_fit (hfit : EntriesFit mem device) : LoopsEnd mem device := by
  have hend : ∀ {σ ρ : Type} (body : σ → Nat → List Byte → Kernel (σ ⊕ ρ)) (st : σ),
      tarRounds mem device body 0x100000000 0#32 st ≠ none :=
    fun body st => tarRounds_end hfit 0x100000000 (fun hread => .first hread) (Nat.le_add_left ..)
  have hlookup : ∀ fname, lookupRounds mem device 0x100000000 fname ≠ none := by
    intro fname
    unfold lookupRounds
    split
    · simp
    · rw [ne_eq, Option.map_eq_none_iff]
      exact hend _ _
  refine ⟨0x100000000, hlookup, fun obj name => ?_, fun obj i => ?_⟩
  · unfold finddirRounds
    rw [ne_eq, Option.map_eq_none_iff]
    exact hlookup _
  · unfold readdirRounds
    split
    · simp
    · split
      · simp
      · rw [ne_eq, Option.map_eq_none_iff]
        exact hend _ _

end Offsets

/-- **Going through the headers.** For every device of less than 4 GiB with any contents: the offsets of the headers
increase until a read is short, and `tar_lookup`, `tar_finddir` and `tar_readdir` return, exactly when every entry ends
below 4 GiB. -/
theorem tar_offsets_iff (mem : Mem) (device : Extent) :
    (OffsetsIncrease mem device ∧ LoopsEnd mem device) ↔ EntriesFit mem device := by
  constructor
  · rintro ⟨hinc, -⟩
    exact offsetsIncrease_iff.1 hinc
  · intro hfit
    exact ⟨offsetsIncrease_iff.2 hfit, loopsEnd_of_fit hfit⟩

/-- A header with the name `a` and the size `37777777000`, which is 4 GiB less 512 bytes. -/
def hugeHeader : List Byte :=
  0x61 :: List.replicate 123 0 ++ [0x33, 0x37, 0x37, 0x37, 0x37, 0x37, 0x37, 0x37, 0x30, 0x30, 0x30] ++
    List.replicate 377 0

/-- A ramdisk with nothing but that header. -/
def hugeMem : Mem := fun a => hugeHeader.getD (a - 0x100000#32).toNat 0

def hugeDevice : Extent := ⟨0x100000#32, 512#32⟩

/-- A name that is not in the archive. -/
def otherName : CString := ⟨[0x62], by decide⟩

/-- The length of the entry is 0: the loop stays where it is, and the lookup of `b` does not return. -/
theorem huge_entry_stays :
    (∀ k, headerOffset hugeMem hugeDevice k = some 0#32) ∧ ¬ OffsetsIncrease hugeMem hugeDevice ∧
      ∀ fuel, lookupRounds hugeMem hugeDevice fuel otherName = none := by
  have hread : headerRead hugeDevice 0#32 = 512#32 := by decide +kernel
  have hnext : nextOffset hugeMem hugeDevice 0#32 = 0#32 := by decide +kernel
  have hbody : lookupBody otherName PUnit.unit.{1} (0#32).toNat (headerBytes hugeMem hugeDevice 0#32) =
      .ok (.inl PUnit.unit) := by
    decide +kernel
  have hstay : ∀ k, headerOffset hugeMem hugeDevice k = some 0#32 := by
    intro k
    induction k with
    | zero => rw [headerOffset, if_pos hread]
    | succ k ih =>
      rw [headerOffset, ih]
      dsimp only
      rw [hnext, if_pos hread]
  have hrounds : ∀ fuel, tarRounds hugeMem hugeDevice (lookupBody otherName) fuel 0#32 ⟨⟩ = none := by
    intro fuel
    induction fuel with
    | zero => rfl
    | succ fuel ih =>
      rw [tarRounds, if_pos hread, hbody]
      dsimp only
      rw [hnext, ih]
  refine ⟨hstay, fun hinc => ?_, fun fuel => ?_⟩
  · exact absurd (hinc 0 _ _ (hstay 0) (hstay 1)) (by decide)
  · rw [lookupRounds, if_neg (by decide : ¬ strlen otherName > 100 - 2), hrounds fuel]
    rfl

end Myunix.Tar
