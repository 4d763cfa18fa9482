import Myunix.CString

/-!
# Reading and writing files in memory (`ramdisk.c`, `tar.c`, `tmpfs.c`)

A ramdisk, a file in an archive on a ramdisk, and a file of the temporary filesystem are ranges of memory. A read is
described by what it returns and by the addresses it copies from; addresses and lengths are words, and `offset + size`
may overflow. `reads_iff` says when a read delivers the bytes of the file from `offset` on, `tmpfs_write_iff` when a
write leaves the file as it should be.
-/

namespace Myunix.Files

open Lib

/-- Memory, by address. -/
abbrev Mem := Word → Byte

/-- A range of memory: `object` and `length` of a ramdisk's node, `block` and `block_size` of a file. -/
structure Extent where
  object : Word
  length : Word
deriving DecidableEq, Repr

/-- The addresses of `n` bytes from `src` on. -/
def addresses (src : Word) (n : Nat) : List Word := (List.range n).map fun i => src + BitVec.ofNat 32 i

@[simp] theorem length_addresses (src : Word) (n : Nat) : (addresses src n).length = n := by simp [addresses]

theorem mem_addresses {src a : Word} {n : Nat} : a ∈ addresses src n ↔ ∃ i < n, a = src + BitVec.ofNat 32 i := by
  simp [addresses, eq_comm]

/-! ## Reads -/

/-- What a read returns, and the addresses `memcpy` copies from. -/
structure ReadResult where
  ret : Word
  source : List Word
deriving DecidableEq, Repr

/-- `ramdisk_read`. -/
def ramdiskRead (node : Extent) (offset size : Word) : ReadResult :=
  if offset > node.length then ⟨0#32, []⟩
  else
    let size := if offset + size > node.length then node.length - offset else size
    if size = 0#32 then ⟨0#32, []⟩
    else ⟨size, addresses (node.object + offset) size.toNat⟩

/-- `tar_read` of a file whose header is at `header` on the ramdisk. -/
def tarRead (device : Extent) (header length : Word) (offset size : Word) : ReadResult :=
  if offset > length then ⟨0#32, []⟩
  else
    let size := if offset + size > length then length - offset else size
    ramdiskRead device (header + 512#32 + offset) size

/-- `tmpfs_read` of a regular file. -/
def tmpfsRead (obj : Extent) (offset size : Word) : ReadResult :=
  if offset > obj.length then ⟨-1#32, []⟩
  else
    let len := if offset + size ≤ obj.length then size else obj.length - offset
    if len = 0#32 then ⟨0#32, []⟩
    else ⟨len, addresses (obj.object + offset) len.toNat⟩

/-- What a read of a file should do: copy the bytes from `offset` on, as many as there are and were asked for, and
return their number; behind the end of the file, copy nothing and return 0 or an error. -/
structure ReadsSlice (file : Extent) (offset size : Word) (r : ReadResult) : Prop where
  slice : offset ≤ file.length → r.ret.toNat = min size.toNat (file.length.toNat - offset.toNat) ∧
    r.source = addresses (file.object + offset) (min size.toNat (file.length.toNat - offset.toNat))
  behind : offset > file.length → r.source = [] ∧ (r.ret = 0#32 ∨ r.ret = -1#32)
  inside : ∀ a ∈ r.source, ∃ i < file.length.toNat, a = file.object + BitVec.ofNat 32 i

/-- The offset is behind the end, or the end of the range asked for is a word. -/
def NoWrap (length offset size : Word) : Prop := offset > length ∨ offset.toNat + size.toNat < 0x100000000

section Read

variable {file : Extent} {offset size : Word} {r : ReadResult}

/-- The size after the comparison with the length. -/
theorem clamp_toNat (size : Word) {length : Word} (hle : offset ≤ length) :
    (if offset + size > length then length - offset else size).toNat =
      if offset.toNat + size.toNat < 0x100000000 then min size.toNat (length.toNat - offset.toNat) else size.toNat := by
  split <;> split <;> bv_omega

/-- The bytes from `offset` on are those of the file. -/
theorem addresses_inside {n : Nat} (hn : offset.toNat + n ≤ file.length.toNat) :
    ∀ a ∈ addresses (file.object + offset) n, ∃ i < file.length.toNat, a = file.object + BitVec.ofNat 32 i := by
  intro a ha
  obtain ⟨i, hi, rfl⟩ := mem_addresses.1 ha
  refine ⟨offset.toNat + i, by omega, ?_⟩
  rw [BitVec.ofNat_add, BitVec.ofNat_toNat, BitVec.setWidth_eq, BitVec.add_assoc]

/-- A read of `n` bytes is right exactly when `n` is. -/
theorem readsSlice_iff (file : Extent) {n : Word} (hle : offset ≤ file.length) :
    ReadsSlice file offset size ⟨n, addresses (file.object + offset) n.toNat⟩ ↔
      n.toNat = min size.toNat (file.length.toNat - offset.toNat) := by
  constructor
  · intro h
    exact (h.slice hle).1
  · intro hn
    refine ⟨fun _ => ⟨hn, by rw [hn]⟩, fun hgt => ?_, addresses_inside ?_⟩
    · bv_omega
    · bv_omega

theorem readsSlice_behind (hgt : offset > file.length) (hret : r.ret = 0#32 ∨ r.ret = -1#32) (hsource : r.source = []) :
    ReadsSlice file offset size r :=
  ⟨fun hle => by bv_omega, fun _ => ⟨hsource, hret⟩, fun a ha => by simp [hsource] at ha⟩

/-- The clamped size is right exactly when the sum does not overflow. -/
theorem clamp_eq_iff (size : Word) {length : Word} (hle : offset ≤ length) :
    (if offset + size > length then length - offset else size).toNat =
      min size.toNat (length.toNat - offset.toNat) ↔ NoWrap length offset size := by
  rw [clamp_toNat size hle, NoWrap]
  by_cases hsum : offset.toNat + size.toNat < 0x100000000
  · rw [if_pos hsum]
    exact ⟨fun _ => Or.inr hsum, fun _ => rfl⟩
  · rw [if_neg hsum]
    constructor
    · intro hsize
      have hlt : size.toNat ≤ length.toNat - offset.toNat := by omega
      bv_omega
    · rintro (hgt | hlt)
      · bv_omega
      · exact absurd hlt hsum

theorem ramdiskRead_eq (hle : offset ≤ file.length) {n : Word}
    (hn : n = if offset + size > file.length then file.length - offset else size) :
    ramdiskRead file offset size = ⟨n, addresses (file.object + offset) n.toNat⟩ := by
  unfold ramdiskRead
  rw [if_neg (by bv_omega), ← hn]
  by_cases hz : n = 0#32
  · simp only [hz, if_true]
    rfl
  · simp only [if_neg hz]

theorem tmpfsRead_eq (hle : offset ≤ file.length) {n : Word}
    (hn : n = if offset + size > file.length then file.length - offset else size) :
    tmpfsRead file offset size = ⟨n, addresses (file.object + offset) n.toNat⟩ := by
  have hlen : (if offset + size ≤ file.length then size else file.length - offset) = n := by
    rw [hn]
    by_cases hcmp : offset + size ≤ file.length
    · rw [if_pos hcmp, if_neg (by bv_omega)]
    · rw [if_neg hcmp, if_pos (by bv_omega)]
  unfold tmpfsRead
  rw [if_neg (by bv_omega), hlen]
  by_cases hz : n = 0#32
  · simp only [hz, if_true]
    rfl
  · simp only [if_neg hz]

/-- **`ramdisk_read`.** -/
theorem ramdiskRead_slice :
    ReadsSlice file offset size (ramdiskRead file offset size) ↔ NoWrap file.length offset size := by
  by_cases hle : offset ≤ file.length
  · rw [ramdiskRead_eq hle rfl, readsSlice_iff file hle, clamp_eq_iff size hle]
  · have hgt : offset > file.length := by bv_omega
    have hread : ramdiskRead file offset size = ⟨0#32, []⟩ := if_pos hgt
    rw [hread]
    exact ⟨fun _ => Or.inl hgt, fun _ => readsSlice_behind hgt (Or.inl rfl) rfl⟩

/-- **`tmpfs_read`.** -/
theorem tmpfsRead_slice :
    ReadsSlice file offset size (tmpfsRead file offset size) ↔ NoWrap file.length offset size := by
  by_cases hle : offset ≤ file.length
  · rw [tmpfsRead_eq hle rfl, readsSlice_iff file hle, clamp_eq_iff size hle]
  · have hgt : offset > file.length := by bv_omega
    have hread : tmpfsRead file offset size = ⟨-1#32, []⟩ := if_pos hgt
    rw [hread]
    exact ⟨fun _ => Or.inl hgt, fun _ => readsSlice_behind hgt (Or.inr rfl) rfl⟩

/-- **`tar_read`** of an entry that is on the device. The device does not clamp the size again: it ends behind the
entry, and a sum that has overflowed is small. -/
theorem tarRead_slice (device : Extent) (header length : Word)
    (hentry : header.toNat + 512 + length.toNat ≤ device.length.toNat) :
    ReadsSlice ⟨device.object + header + 512#32, length⟩ offset size (tarRead device header length offset size) ↔
      NoWrap length offset size := by
  by_cases hle : offset ≤ length
  · have hclamp := clamp_toNat size hle
    have hread : tarRead device header length offset size =
        ramdiskRead device (header + 512#32 + offset)
          (if offset + size > length then length - offset else size) := if_neg (by bv_omega)
    have hstart : (⟨device.object + header + 512#32, length⟩ : Extent).object + offset =
        device.object + (header + 512#32 + offset) := by
      simp only [BitVec.add_assoc]
    have hiff := clamp_eq_iff size hle
    generalize (if offset + size > length then length - offset else size) = n at hclamp hread hiff
    have hoffset : (header + 512#32 + offset).toNat = header.toNat + 512 + offset.toNat := by bv_omega
    have hle' : header + 512#32 + offset ≤ device.length := by bv_omega
    have hsame : n = if header + 512#32 + offset + n > device.length then device.length - (header + 512#32 + offset)
        else n := by
      refine (if_neg ?_).symm
      split at hclamp <;> bv_omega
    rw [hread, ramdiskRead_eq hle' hsame, ← hstart]
    exact (readsSlice_iff ⟨device.object + header + 512#32, length⟩ hle).trans hiff
  · have hgt : offset > length := by bv_omega
    have hread : tarRead device header length offset size = ⟨0#32, []⟩ := if_pos hgt
    rw [hread]
    exact ⟨fun _ => Or.inl hgt, fun _ => readsSlice_behind hgt (Or.inl rfl) rfl⟩

end Read

/-- **Reads.** A read of a ramdisk, of a file of an archive that is on the ramdisk as a whole, or of a file of the
temporary filesystem delivers the bytes of the file from `offset` on exactly when `offset` is behind the end or
`offset + size` does not overflow. -/
theorem reads_iff (device : Extent) (header length : Word)
    (hentry : header.toNat + 512 + length.toNat ≤ device.length.toNat) (obj : Extent) (offset size : Word) :
    (ReadsSlice device offset size (ramdiskRead device offset size) ↔ NoWrap device.length offset size) ∧
    (ReadsSlice ⟨device.object + header + 512#32, length⟩ offset size (tarRead device header length offset size) ↔
      NoWrap length offset size) ∧
    (ReadsSlice obj offset size (tmpfsRead obj offset size) ↔ NoWrap obj.length offset size) :=
  ⟨ramdiskRead_slice, tarRead_slice device header length hentry, tmpfsRead_slice⟩

/-- The last 8 bytes of a file of 16 bytes are read with a buffer of 64 bytes. -/
theorem reads_iff_sixteen :
    ReadsSlice ⟨0x100000#32, 1024#32⟩ 8#32 64#32 (ramdiskRead ⟨0x100000#32, 1024#32⟩ 8#32 64#32) ∧
    ReadsSlice ⟨0x100200#32, 16#32⟩ 8#32 64#32 (tarRead ⟨0x100000#32, 1024#32⟩ 0#32 16#32 8#32 64#32) ∧
    ReadsSlice ⟨0x200000#32, 16#32⟩ 8#32 64#32 (tmpfsRead ⟨0x200000#32, 16#32⟩ 8#32 64#32) := by
  have h := reads_iff ⟨0x100000#32, 1024#32⟩ 0#32 16#32 (by decide) ⟨0x200000#32, 16#32⟩ 8#32 64#32
  exact ⟨h.1.2 (Or.inr (by decide)), h.2.1.2 (Or.inr (by decide)), h.2.2.2 (Or.inr (by decide))⟩

/-- With `offset + size = 2^32` nothing is clamped: each of the reads copies `size` bytes. -/
theorem reads_wrap :
    (ramdiskRead ⟨0x100000#32, 1024#32⟩ 8#32 0xFFFFFFF8#32).ret = 0xFFFFFFF8#32 ∧
    (tarRead ⟨0x100000#32, 1024#32⟩ 0#32 16#32 8#32 0xFFFFFFF8#32).ret = 0xFFFFFFF8#32 ∧
    (tmpfsRead ⟨0x200000#32, 16#32⟩ 8#32 0xFFFFFFF8#32).ret = 0xFFFFFFF8#32 ∧
    ¬ ReadsSlice ⟨0x100000#32, 1024#32⟩ 8#32 0xFFFFFFF8#32 (ramdiskRead ⟨0x100000#32, 1024#32⟩ 8#32 0xFFFFFFF8#32) ∧
    ¬ ReadsSlice ⟨0x100200#32, 16#32⟩ 8#32 0xFFFFFFF8#32
      (tarRead ⟨0x100000#32, 1024#32⟩ 0#32 16#32 8#32 0xFFFFFFF8#32) ∧
    ¬ ReadsSlice ⟨0x200000#32, 16#32⟩ 8#32 0xFFFFFFF8#32 (tmpfsRead ⟨0x200000#32, 16#32⟩ 8#32 0xFFFFFFF8#32) := by
  have hwrap : ∀ length : Word, 8#32 ≤ length → ¬ NoWrap length 8#32 0xFFFFFFF8#32 := by
    rintro length hle (hgt | hlt)
    · bv_omega
    · exact absurd hlt (by decide)
  refine ⟨rfl, rfl, rfl, fun h => ?_, fun h => ?_, fun h => ?_⟩
  · exact hwrap _ (by decide) (ramdiskRead_slice.1 h)
  · exact hwrap _ (by decide) ((tarRead_slice ⟨0x100000#32, 1024#32⟩ 0#32 16#32 (by decide)).1 h)
  · exact hwrap _ (by decide) (tmpfsRead_slice.1 h)

/-! ## Writes -/

/-- The result of a write: what it returns, the file, the memory and the addresses written. -/
structure WriteResult where
  ret : Word
  obj : Extent
  mem : Mem
  written : List Word

/-- Memory with the bytes `buf` at `dest`. -/
def copyTo (mem : Mem) (dest : Word) (buf : List Byte) : Mem := fun a =>
  if (a - dest).toNat < buf.length then buf.getD (a - dest).toNat 0 else mem a

/-- `memcpy` of the bytes `buf` to `dest`. -/
def memcpy (mem : Mem) (dest : Word) (buf : List Byte) : Kernel Mem := do
  kassert (BitVec.ofNat 32 buf.length ≠ 0#32)
  return copyTo mem dest buf

/-- `tmpfs_write` of a regular file. `NULL` is 0; `krealloc` says what the heap returns for a request, and what is in
memory then. The size is the length of `buf`. -/
def tmpfsWrite (krealloc : Extent → Word → Word × Mem) (mem : Mem) (obj : Extent) (offset : Word) (buf : List Byte) :
    Kernel WriteResult := do
  let size := BitVec.ofNat 32 buf.length
  let sizeReq := offset + size
  let (obj, mem) ← if sizeReq > obj.length then do
      let (block, mem) := krealloc obj sizeReq
      kassert (block ≠ 0#32)
      pure ((⟨block, sizeReq⟩ : Extent), mem)
    else do
      kassert (obj.object ≠ 0#32)
      pure (obj, mem)
  let mem ← memcpy mem (obj.object + offset) buf
  return ⟨size, obj, mem, addresses (obj.object + offset) buf.length⟩

/-- What is promised about `krealloc` when a block grows: it returns a block, and the bytes of the old one are at its
start. -/
def ReallocKeeps (mem : Mem) (krealloc : Extent → Word → Word × Mem) : Prop :=
  ∀ obj size, obj.length < size → (krealloc obj size).1 ≠ 0#32 ∧
    ∀ i < obj.length.toNat, (krealloc obj size).2 ((krealloc obj size).1 + BitVec.ofNat 32 i) =
      mem (obj.object + BitVec.ofNat 32 i)

/-- What a write of `buf` at `offset` should do to a file: the file is as long as it has to be, it has the bytes of
`buf`, zeroes between the old end and `offset`, the old bytes everywhere else, and nothing outside of it was written. -/
structure Written (mem : Mem) (obj : Extent) (offset : Word) (buf : List Byte) (r : WriteResult) : Prop where
  length : r.obj.length.toNat = max obj.length.toNat (offset.toNat + buf.length)
  data : ∀ i < buf.length, r.mem (r.obj.object + offset + BitVec.ofNat 32 i) = buf.getD i 0
  gap : ∀ i, obj.length.toNat ≤ i → i < offset.toNat → r.mem (r.obj.object + BitVec.ofNat 32 i) = 0
  rest : ∀ i < obj.length.toNat, i < offset.toNat ∨ offset.toNat + buf.length ≤ i →
    r.mem (r.obj.object + BitVec.ofNat 32 i) = mem (obj.object + BitVec.ofNat 32 i)
  inside : ∀ a ∈ r.written, ∃ i < r.obj.length.toNat, a = r.obj.object + BitVec.ofNat 32 i

/-- The write is refused and the file is as before. -/
def Refused (mem : Mem) (obj : Extent) (r : WriteResult) : Prop :=
  r.ret = -1#32 ∧ r.obj = obj ∧ r.mem = mem ∧ r.written = []

/-- Whatever the heap returns, the write is refused or does what it should. -/
def WriteGood (mem : Mem) (obj : Extent) (offset : Word) (buf : List Byte) : Prop :=
  ∀ krealloc, ReallocKeeps mem krealloc →
    ∃ r, tmpfsWrite krealloc mem obj offset buf = .ok r ∧ (Refused mem obj r ∨ Written mem obj offset buf r)

section Write

variable {krealloc : Extent → Word → Word × Mem} {mem : Mem} {obj : Extent} {offset : Word} {buf : List Byte}

theorem copyTo_inside {dest a : Word} (h : (a - dest).toNat < buf.length) :
    copyTo mem dest buf a = buf.getD (a - dest).toNat 0 := if_pos h

theorem copyTo_outside {dest a : Word} (h : buf.length ≤ (a - dest).toNat) : copyTo mem dest buf a = mem a :=
  if_neg (by omega)

/-- The distance of a byte of a block from the place that is written. -/
theorem block_sub (object offset : Word) (i : Nat) :
    object + BitVec.ofNat 32 i - (object + offset) = BitVec.ofNat 32 i - offset := by
  bv_omega

/-- **Without a byte to write** the kernel stops, whatever the file: `memcpy` copies at least one byte. -/
theorem tmpfsWrite_nil : tmpfsWrite krealloc mem obj offset [] = .error .assertion := by
  have hcopy : ∀ mem dest, memcpy mem dest [] = .error .assertion := fun _ _ => rfl
  simp only [tmpfsWrite, hcopy]
  by_cases hgrow : offset + BitVec.ofNat 32 ([] : List Byte).length > obj.length
  · by_cases hblock : (krealloc obj (offset + BitVec.ofNat 32 ([] : List Byte).length)).1 ≠ 0#32
    · simp only [if_pos hgrow, assert_pos hblock, ok_bind, pure_bind, error_bind]
    · simp only [if_pos hgrow, assert_neg hblock, error_bind]
  · by_cases hblock : obj.object ≠ 0#32
    · simp only [if_neg hgrow, assert_pos hblock, ok_bind, pure_bind, error_bind]
    · simp only [if_neg hgrow, assert_neg hblock, error_bind]

theorem size_nonzero (hbuf : 0 < buf.length) (hsum : offset.toNat + buf.length < 0x100000000) :
    BitVec.ofNat 32 buf.length ≠ 0#32 := by
  intro hz
  have hlength : (BitVec.ofNat 32 buf.length).toNat = buf.length := by
    rw [BitVec.toNat_ofNat, Nat.mod_eq_of_lt (by omega)]
  rw [hz] at hlength
  exact absurd hlength.symm (Nat.ne_of_gt hbuf)

/-- A file that is too short is moved. -/
theorem tmpfsWrite_grow (hsize : BitVec.ofNat 32 buf.length ≠ 0#32)
    (hgrow : offset + BitVec.ofNat 32 buf.length > obj.length)
    (hblock : (krealloc obj (offset + BitVec.ofNat 32 buf.length)).1 ≠ 0#32) :
    tmpfsWrite krealloc mem obj offset buf = .ok
      ⟨BitVec.ofNat 32 buf.length,
        ⟨(krealloc obj (offset + BitVec.ofNat 32 buf.length)).1, offset + BitVec.ofNat 32 buf.length⟩,
        copyTo (krealloc obj (offset + BitVec.ofNat 32 buf.length)).2
          ((krealloc obj (offset + BitVec.ofNat 32 buf.length)).1 + offset) buf,
        addresses ((krealloc obj (offset + BitVec.ofNat 32 buf.length)).1 + offset) buf.length⟩ := by
  simp only [tmpfsWrite, memcpy, if_pos hgrow, assert_pos hblock, assert_pos hsize, ok_bind]
  rfl

/-- A file that is long enough is written where it is. -/
theorem tmpfsWrite_inPlace (hsize : BitVec.ofNat 32 buf.length ≠ 0#32)
    (hfits : ¬ offset + BitVec.ofNat 32 buf.length > obj.length) (hblock : obj.object ≠ 0#32) :
    tmpfsWrite krealloc mem obj offset buf = .ok
      ⟨BitVec.ofNat 32 buf.length, obj, copyTo mem (obj.object + offset) buf,
        addresses (obj.object + offset) buf.length⟩ := by
  simp only [tmpfsWrite, memcpy, if_neg hfits, assert_pos hblock, assert_pos hsize, ok_bind]
  rfl

/-- `tmpfs_write` does not refuse a request. -/
theorem not_refused {r : WriteResult} (hbuf : 0 < buf.length) (hrun : tmpfsWrite krealloc mem obj offset buf = .ok r) :
    ¬ Refused mem obj r := by
  rintro ⟨-, -, -, hwritten⟩
  have hlength : r.written.length = buf.length := by
    simp only [tmpfsWrite] at hrun
    split at hrun
    · simp only [bind_eq_ok, pure_eq_ok, Prod.exists] at hrun
      obtain ⟨-, -, -, -, -, -, -, rfl⟩ := hrun
      exact length_addresses _ _
    · simp only [bind_eq_ok, pure_eq_ok, Prod.exists] at hrun
      obtain ⟨-, -, -, -, -, -, -, rfl⟩ := hrun
      exact length_addresses _ _
  rw [hwritten, List.length_nil] at hlength
  omega

/-- Without an overflow, `memcpy` to a block that is long enough writes the bytes it should, and no others. -/
theorem copyTo_written {mem' : Mem} {block : Extent} {ret : Word} (hsum : offset.toNat + buf.length < 0x100000000)
    (hoffset : offset.toNat ≤ obj.length.toNat)
    (hlength : block.length.toNat = max obj.length.toNat (offset.toNat + buf.length))
    (hkeep : ∀ i < obj.length.toNat, mem' (block.object + BitVec.ofNat 32 i) = mem (obj.object + BitVec.ofNat 32 i)) :
    Written mem obj offset buf
      ⟨ret, block, copyTo mem' (block.object + offset) buf, addresses (block.object + offset) buf.length⟩ := by
  refine ⟨hlength, fun i hi => ?_, fun i hle hlt => by omega, fun i hi hor => ?_, addresses_inside (by omega)⟩
  · have hsub : block.object + offset + BitVec.ofNat 32 i - (block.object + offset) = BitVec.ofNat 32 i := by bv_omega
    have hnat : (BitVec.ofNat 32 i).toNat = i := by rw [BitVec.toNat_ofNat, Nat.mod_eq_of_lt (by omega)]
    show copyTo mem' (block.object + offset) buf (block.object + offset + BitVec.ofNat 32 i) = buf.getD i 0
    rw [copyTo_inside (by rw [hsub, hnat]; exact hi), hsub, hnat]
  · rw [← hkeep i hi]
    apply copyTo_outside
    rw [block_sub]
    have hlt := obj.length.isLt
    have hnat : (BitVec.ofNat 32 i).toNat = i := by rw [BitVec.toNat_ofNat, Nat.mod_eq_of_lt (by omega)]
    rcases hor with hbefore | hbehind
    · bv_omega
    · bv_omega

/-- A write that does not leave a gap and does not overflow is good. -/
theorem writeGood_of (hbuf : 0 < buf.length) (hobj : obj.length ≠ 0#32 → obj.object ≠ 0#32)
    (hoffset : offset.toNat ≤ obj.length.toNat) (hsum : offset.toNat + buf.length < 0x100000000) :
    WriteGood mem obj offset buf := by
  intro krealloc hkeep
  have hcount := size_nonzero hbuf hsum
  have hsize : (offset + BitVec.ofNat 32 buf.length).toNat = offset.toNat + buf.length := by
    rw [BitVec.toNat_add, BitVec.toNat_ofNat]
    omega
  by_cases hgrow : offset + BitVec.ofNat 32 buf.length > obj.length
  · obtain ⟨hblock, hbytes⟩ := hkeep obj _ hgrow
    refine ⟨_, tmpfsWrite_grow hcount hgrow hblock, Or.inr (copyTo_written hsum hoffset ?_ hbytes)⟩
    have hlt : obj.length.toNat < (offset + BitVec.ofNat 32 buf.length).toNat := hgrow
    show (offset + BitVec.ofNat 32 buf.length).toNat = _
    omega
  · have hle : (offset + BitVec.ofNat 32 buf.length).toNat ≤ obj.length.toNat := Nat.le_of_not_lt hgrow
    have hblock : obj.object ≠ 0#32 := by
      apply hobj
      intro hz
      rw [hz] at hle
      have hzero : (0#32).toNat = 0 := rfl
      omega
    exact ⟨_, tmpfsWrite_inPlace hcount hgrow hblock, Or.inr (copyTo_written hsum hoffset (by omega) fun _ _ => rfl)⟩

/-- A heap that puts every block at address 1, with the byte `0xFF` behind the old bytes. -/
def dirtyRealloc (mem : Mem) (obj : Extent) (_ : Word) : Word × Mem :=
  (1#32, fun a => if (a - 1#32).toNat < obj.length.toNat then mem (obj.object + (a - 1#32)) else 0xFF#8)

theorem dirtyRealloc_keeps (mem : Mem) : ReallocKeeps mem (dirtyRealloc mem) := by
  intro obj size _
  have hblock : (1#32 : Word) ≠ 0#32 := by decide
  refine ⟨hblock, fun i hi => ?_⟩
  have hsub : 1#32 + BitVec.ofNat 32 i - 1#32 = BitVec.ofNat 32 i := by bv_omega
  have hlt := obj.length.isLt
  have hnat : (BitVec.ofNat 32 i).toNat = i := by rw [BitVec.toNat_ofNat, Nat.mod_eq_of_lt (by omega)]
  simp only [dirtyRealloc, hsub, hnat, if_pos hi]

/-- With that heap, a gap is not zero. -/
theorem gap_not_written (hbuf : 0 < buf.length) (hgap : obj.length.toNat < offset.toNat)
    (hsum : offset.toNat + buf.length < 0x100000000) : ¬ WriteGood mem obj offset buf := by
  intro hgood
  obtain ⟨r, hrun, hr⟩ := hgood (dirtyRealloc mem) (dirtyRealloc_keeps mem)
  have hcount := size_nonzero hbuf hsum
  have hsize : (offset + BitVec.ofNat 32 buf.length).toNat = offset.toNat + buf.length := by
    rw [BitVec.toNat_add, BitVec.toNat_ofNat]
    omega
  have hgrow : offset + BitVec.ofNat 32 buf.length > obj.length := by
    show obj.length.toNat < (offset + BitVec.ofNat 32 buf.length).toNat
    omega
  have hblock : (dirtyRealloc mem obj (offset + BitVec.ofNat 32 buf.length)).1 ≠ 0#32 :=
    (dirtyRealloc_keeps mem obj _ hgrow).1
  rw [tmpfsWrite_grow hcount hgrow hblock, Except.ok.injEq] at hrun
  subst hrun
  rcases hr with hrefused | hwritten
  · exact not_refused hbuf (tmpfsWrite_grow hcount hgrow hblock) hrefused
  -- the first byte behind the old end is the heap's
  · have hlt := obj.length.isLt
    have hnat : (BitVec.ofNat 32 obj.length.toNat).toNat = obj.length.toNat := by
      rw [BitVec.toNat_ofNat, Nat.mod_eq_of_lt (by omega)]
    have hsub : 1#32 + BitVec.ofNat 32 obj.length.toNat - 1#32 = BitVec.ofNat 32 obj.length.toNat := by bv_omega
    have hzero := hwritten.gap obj.length.toNat (Nat.le_refl _) hgap
    simp only [dirtyRealloc] at hzero
    rw [copyTo_outside (by rw [block_sub]; bv_omega), hsub, hnat, if_neg (Nat.lt_irrefl _)] at hzero
    exact absurd hzero (by decide)

/-- No write that overflows is good. -/
theorem overflow_not_written (hbuf : 0 < buf.length) (hsum : 0x100000000 ≤ offset.toNat + buf.length) :
    ¬ WriteGood mem obj offset buf := by
  intro hgood
  obtain ⟨r, hrun, hrefused | hwritten⟩ := hgood (dirtyRealloc mem) (dirtyRealloc_keeps mem)
  · exact not_refused hbuf hrun hrefused
  · have hlength := hwritten.length
    have hlt := r.obj.length.isLt
    omega

end Write

/-- **Writes.** Whatever the heap returns, a write to a file of the temporary filesystem does what it should exactly
when it starts inside the file or at its end, and `offset + size` does not overflow. -/
theorem tmpfs_write_iff (mem : Mem) (obj : Extent) (hobj : obj.length ≠ 0#32 → obj.object ≠ 0#32) (offset : Word)
    (buf : List Byte) (hbuf : 1 ≤ buf.length) :
    WriteGood mem obj offset buf ↔ offset ≤ obj.length ∧ offset.toNat + buf.length < 0x100000000 := by
  constructor
  · intro hgood
    have hsum : offset.toNat + buf.length < 0x100000000 := by
      by_contra hge
      exact overflow_not_written hbuf (Nat.le_of_not_lt hge) hgood
    refine ⟨?_, hsum⟩
    by_contra hgt
    exact gap_not_written hbuf (Nat.lt_of_not_le hgt) hsum hgood
  · rintro ⟨hoffset, hsum⟩
    exact writeGood_of hbuf hobj hoffset hsum

/-- Two bytes at the end of a file of 4 bytes. -/
theorem tmpfs_write_append : WriteGood (fun _ => 0x61#8) ⟨0x1000#32, 4#32⟩ 4#32 [0x62#8, 0x63#8] :=
  (tmpfs_write_iff _ _ (fun _ => by decide) _ _ (by decide)).2 ⟨by decide, by decide⟩

/-- One byte at offset 8 of a file of 4 bytes: the bytes between are those that were in the heap. -/
theorem tmpfs_write_gap :
    ReallocKeeps (fun _ => 0x61#8) (dirtyRealloc fun _ => 0x61#8) ∧
    (∃ r, tmpfsWrite (dirtyRealloc fun _ => 0x61#8) (fun _ => 0x61#8) ⟨0x1000#32, 4#32⟩ 8#32 [0x62#8] = .ok r ∧
      r.obj.length = 9#32 ∧ r.mem (r.obj.object + 4#32) = 0xFF#8) ∧
    ¬ WriteGood (fun _ => 0x61#8) ⟨0x1000#32, 4#32⟩ 8#32 [0x62#8] :=
  ⟨dirtyRealloc_keeps _, ⟨_, rfl, rfl, by decide⟩, gap_not_written (by decide) (by decide) (by decide)⟩

end Myunix.Files
