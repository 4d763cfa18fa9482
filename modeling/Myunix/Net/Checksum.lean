import Myunix.Net.Accept

/-!
# Checksums of whole buffers (`net/checksum.c`, `net/tcp.c`)

RFC 1071 pads an odd last byte with zero. `net_calc_checksum` does not look at that byte, so it is right for the buffers
of even length and for those that end with a zero (`net_calc_checksum_rfc`). `net_calc_checksum2` adds it, and takes the
checksum field out by subtracting it: `net_calc_checksum2_rfc` says that this is the checksum with the field set to
zero, although the sum of the first part has been folded before.
-/

namespace Myunix.Net

open Lib

/-! ## The checksum of RFC 1071 -/

/-- The 16-bit words of a buffer in network order, an odd last byte padded with zero. -/
def paddedWords : List Byte → List Nat
  | hi :: lo :: bytes => (hi.toNat * 256 + lo.toNat) :: paddedWords bytes
  | [b] => [b.toNat * 256]
  | [] => []

/-- **RFC 1071**: the checksum of a buffer of either parity. -/
def rfcChecksum (bytes : List Byte) : Nat := internetChecksum (paddedWords bytes)

/-- The byte behind the whole words; 0 if there is none. -/
def oddByte (bytes : List Byte) : Byte := bytes[bytes.length / 2 * 2]?.getD 0

section Words

variable {bytes bytes₁ bytes₂ : List Byte}

theorem oddByte_cons (hi lo : Byte) (bytes : List Byte) : oddByte (hi :: lo :: bytes) = oddByte bytes := by
  have hindex : (bytes.length + 1 + 1) / 2 * 2 = bytes.length / 2 * 2 + 1 + 1 := by omega
  rw [oddByte, List.length_cons, List.length_cons, hindex, List.getElem?_cons_succ, List.getElem?_cons_succ, oddByte]

theorem oddByte_even (h : bytes.length % 2 = 0) : oddByte bytes = 0 := by
  rw [oddByte, List.getElem?_eq_none (by omega)]
  rfl

theorem oddByte_odd (h : bytes.length % 2 = 1) : bytes.getLast? = some (oddByte bytes) := by
  have hlt : bytes.length / 2 * 2 < bytes.length := by omega
  have hlast : bytes.length - 1 = bytes.length / 2 * 2 := by omega
  rw [List.getLast?_eq_getElem?, hlast, oddByte, List.getElem?_eq_getElem hlt, Option.getD_some]

theorem oddByte_eq_zero_iff : oddByte bytes = 0 ↔ bytes.length % 2 = 0 ∨ bytes.getLast? = some 0 := by
  by_cases heven : bytes.length % 2 = 0
  · exact ⟨fun _ => Or.inl heven, fun _ => oddByte_even heven⟩
  · rw [oddByte_odd (by omega), Option.some.injEq]
    exact ⟨Or.inr, fun h => h.resolve_left heven⟩

theorem oddByte_append (h : bytes₁.length % 2 = 0) : oddByte (bytes₁ ++ bytes₂) = oddByte bytes₂ := by
  have hindex : (bytes₁.length + bytes₂.length) / 2 * 2 - bytes₁.length = bytes₂.length / 2 * 2 := by omega
  rw [oddByte, List.length_append, List.getElem?_append_right (by omega), hindex, oddByte]

/-- The padded words are the whole words and the one of the odd byte. -/
theorem paddedWords_eq (bytes : List Byte) :
    paddedWords bytes = words bytes ++ if bytes.length % 2 = 0 then [] else [(oddByte bytes).toNat * 256] := by
  fun_induction paddedWords bytes with
  | case1 hi lo bytes ih =>
    have hparity : (bytes.length + 1 + 1) % 2 = bytes.length % 2 := by omega
    rw [ih, words, oddByte_cons, List.length_cons, List.length_cons, hparity, List.cons_append]
  | case2 b => simp [words, oddByte]
  | case3 => rfl

theorem paddedWords_even (h : bytes.length % 2 = 0) : paddedWords bytes = words bytes := by
  rw [paddedWords_eq, if_pos h, List.append_nil]

theorem paddedWords_le : ∀ x ∈ paddedWords bytes, x ≤ 0xFFFF := by
  intro x hx
  rw [paddedWords_eq, List.mem_append] at hx
  rcases hx with hx | hx
  · exact words_le x hx
  · split at hx
    · cases hx
    · have := (oddByte bytes).isLt
      rw [List.mem_singleton.1 hx]
      omega

theorem paddedWords_sum (bytes : List Byte) : (paddedWords bytes).sum = (words bytes).sum + (oddByte bytes).toNat * 256 := by
  rw [paddedWords_eq, List.sum_append]
  split
  · rename_i h
    rw [oddByte_even h]
    rfl
  · rw [List.sum_singleton]

theorem paddedWords_append (h : bytes₁.length % 2 = 0) :
    paddedWords (bytes₁ ++ bytes₂) = words bytes₁ ++ paddedWords bytes₂ := by
  fun_induction words bytes₁ with
  | case1 hi lo bytes ih =>
    rw [List.length_cons, List.length_cons] at h
    rw [List.cons_append, List.cons_append, paddedWords, ih (by omega), List.cons_append]
  | case2 b => simp at h
  | case3 => rfl

end Words

/-! ## One buffer -/

section OneBuffer

variable {bytes : List Byte}

/-- A summand below `m` leaves a one's complement sum as it is only if it is 0. -/
theorem endAround_eq_left {m a b : Nat} (ha : a ≤ m) (hb : b < m) : endAround m a b = a ↔ b = 0 := by
  unfold endAround
  split <;> omega

/-- The loop does not look at the byte behind the whole words. -/
theorem netCalcChecksum_rfc_iff (h : bytes.length ≤ 65535) :
    netCalcChecksum bytes = rfcChecksum bytes ↔ oddByte bytes = 0 := by
  rw [netCalcChecksum_eq bytes (by omega), rfcChecksum]
  by_cases heven : bytes.length % 2 = 0
  · rw [paddedWords_even heven, oddByte_even heven]
    exact ⟨fun _ => rfl, fun _ => rfl⟩
  have hle : onesSum 0xFFFF (words bytes) ≤ 0xFFFF := onesSum_le words_le
  have hodd := (oddByte bytes).isLt
  have hle' : onesSum 0xFFFF (paddedWords bytes) ≤ 0xFFFF := onesSum_le paddedWords_le
  have hcompare : internetChecksum (words bytes) = internetChecksum (paddedWords bytes) ↔
      onesSum 0xFFFF (paddedWords bytes) = onesSum 0xFFFF (words bytes) := by
    unfold internetChecksum
    omega
  have hzero : (0 : Byte).toNat = 0 := rfl
  rw [hcompare, paddedWords_eq, if_neg heven, onesSum_append, endAround_eq_left hle (by omega),
    ← BitVec.toNat_inj, hzero]
  omega

end OneBuffer

/-- **`net_calc_checksum`** is the checksum of RFC 1071 exactly if the length is even or the last byte is zero. -/
theorem net_calc_checksum_rfc (bytes : List Byte) (h : bytes.length ≤ 65535) :
    netCalcChecksum bytes = rfcChecksum bytes ↔ bytes.length % 2 = 0 ∨ bytes.getLast? = some 0 := by
  rw [netCalcChecksum_rfc_iff h, oddByte_eq_zero_iff]

/-- A single byte that is not zero. -/
theorem net_calc_checksum_one : netCalcChecksum [0x01] ≠ rfcChecksum [0x01] := by decide

/-- Three bytes, the last of which is zero. -/
theorem net_calc_checksum_three : netCalcChecksum [0x01, 0x02, 0x00] = rfcChecksum [0x01, 0x02, 0x00] :=
  (net_calc_checksum_rfc [0x01, 0x02, 0x00] (by decide)).2 (Or.inr rfl)

/-! ## Two buffers and a field -/

/-- The word at an offset of a buffer. -/
def wordAt (bytes : List Byte) (o : Nat) : Nat := (bytes.getD o 0).toNat * 256 + (bytes.getD (o + 1) 0).toNat

/-- The buffer with the word at an offset replaced by zero. -/
def zeroWord (bytes : List Byte) (o : Nat) : List Byte := (bytes.set o 0).set (o + 1) 0

/-- The loop over the words, which stops if the sum does not fit in 32 bits. -/
def addWordsChecked : List Byte → Nat → Option Nat
  | hi :: lo :: bytes, v =>
    if v + (hi.toNat * 256 + lo.toNat) < 0x100000000 then addWordsChecked bytes (v + (hi.toNat * 256 + lo.toNat))
    else none
  | [_], v => some v
  | [], v => some v

/-- `net_calc_checksum2` in plain numbers: an operation of the accumulator that would wrap around stops it. -/
def netCalcChecksum2Checked (bytes₁ bytes₂ : List Byte) (checksum : Nat) : Option Nat := do
  let v ← addWordsChecked bytes₁ 0
  let v := if v > 0xFFFF then v / 0x10000 + v % 0x10000 else v
  let v ← addWordsChecked bytes₂ v
  if checksum ≤ v then
    let v := v - checksum
    if bytes₂.length % 2 ≠ 0 then
      let odd := (bytes₂[bytes₂.length / 2 * 2]?.getD 0).toNat * 256
      if v + odd < 0x100000000 then return foldChecksum (v + odd) else none
    else return foldChecksum v
  else none

section Field

variable {bytes bytes₁ bytes₂ : List Byte} {o : Nat}

theorem zeroWord_length : (zeroWord bytes o).length = bytes.length := by
  rw [zeroWord, List.length_set, List.length_set]

theorem addWordsChecked_eq (bytes : List Byte) (v : Nat) (h : v + (words bytes).sum < 0x100000000) :
    addWordsChecked bytes v = some (v + (words bytes).sum) := by
  fun_induction words bytes generalizing v with
  | case1 hi lo bytes ih =>
    rw [List.sum_cons] at h ⊢
    rw [← Nat.add_assoc] at h ⊢
    rw [addWordsChecked, if_pos (Nat.lt_of_le_of_lt (Nat.le_add_right _ _) h), ih _ h]
  | case2 b => simp [addWordsChecked]
  | case3 => rfl

/-- The words of the buffer sum up to the word taken out and the others. -/
theorem words_zeroWord (ho : o % 2 = 0) (hin : o + 2 ≤ bytes.length) :
    (words (zeroWord bytes o)).sum + wordAt bytes o = (words bytes).sum := by
  fun_induction words bytes generalizing o with
  | case1 hi lo bytes ih =>
    cases o with
    | zero =>
      have hzero : (0 : Byte).toNat = 0 := rfl
      have hset : zeroWord (hi :: lo :: bytes) 0 = 0 :: 0 :: bytes := rfl
      have hword : wordAt (hi :: lo :: bytes) 0 = hi.toNat * 256 + lo.toNat := rfl
      rw [hset, hword, words, List.sum_cons, List.sum_cons, hzero]
      omega
    | succ o =>
      -- `o` is even, so the word is not split
      obtain ⟨o, rfl⟩ : ∃ k, o = k + 1 := ⟨o - 1, by omega⟩
      have hset : zeroWord (hi :: lo :: bytes) (o + 2) = hi :: lo :: zeroWord bytes o := rfl
      have hword : wordAt (hi :: lo :: bytes) (o + 2) = wordAt bytes o := rfl
      rw [List.length_cons, List.length_cons] at hin
      rw [hset, hword, words, List.sum_cons, List.sum_cons, ← ih (o := o) (by omega) (by omega), Nat.add_assoc]
  | case2 b =>
    rw [List.length_singleton] at hin
    omega
  | case3 =>
    rw [List.length_nil] at hin
    omega

/-- A whole word is not the odd byte. -/
theorem oddByte_zeroWord (ho : o % 2 = 0) (hin : o + 2 ≤ bytes.length) :
    oddByte (zeroWord bytes o) = oddByte bytes := by
  rw [oddByte, oddByte, zeroWord_length, zeroWord, List.getElem?_set_ne (by omega), List.getElem?_set_ne (by omega)]

/-- The fold behind the first buffer: the residue stays, and a sum other than 0 does not become 0. -/
theorem prefold (s : Nat) : ∃ v ≤ s, (if s > 0xFFFF then s / 0x10000 + s % 0x10000 else s) = v ∧
    v % 0xFFFF = s % 0xFFFF ∧ (v = 0 ↔ s = 0) := by
  refine ⟨_, ?_, rfl, ?_, ?_⟩
  all_goals split
  all_goals omega

/-- What both forms of `net_calc_checksum2` compute, from the accumulator `v` behind the first buffer on. -/
theorem net_calc_checksum2_parts (heven : bytes₁.length % 2 = 0) (htotal : bytes₁.length + bytes₂.length ≤ 65547)
    (ho : o % 2 = 0) (hin : o + 2 ≤ bytes₂.length) :
    ∃ v, v + (paddedWords (zeroWord bytes₂ o)).sum < 0x100000000 ∧
      netCalcChecksum2 bytes₁ bytes₂ (wordAt bytes₂ o) =
        .ok (foldChecksum (v + (paddedWords (zeroWord bytes₂ o)).sum)) ∧
      netCalcChecksum2Checked bytes₁ bytes₂ (wordAt bytes₂ o) =
        some (foldChecksum (v + (paddedWords (zeroWord bytes₂ o)).sum)) ∧
      v % 0xFFFF = (words bytes₁).sum % 0xFFFF ∧ (v = 0 ↔ (words bytes₁).sum = 0) := by
  obtain ⟨v, hv, hfold, hmod, hzero⟩ := prefold (words bytes₁).sum
  have hsum₁ := words_sum_le bytes₁
  have hsum₂ := words_sum_le bytes₂
  have hodd := (oddByte bytes₂).isLt
  have hword := words_zeroWord ho hin
  have hpadded := paddedWords_sum (zeroWord bytes₂ o)
  rw [oddByte_zeroWord ho hin] at hpadded
  have hloop₁ : addWords bytes₁ 0 = (words bytes₁).sum := by rw [addWords_eq _ _ (by omega), Nat.zero_add]
  have hchecked₁ : addWordsChecked bytes₁ 0 = some (words bytes₁).sum := by
    rw [addWordsChecked_eq _ _ (by omega), Nat.zero_add]
  have hloop₂ : addWords bytes₂ v = v + (words bytes₂).sum := addWords_eq _ _ (by omega)
  have hchecked₂ : addWordsChecked bytes₂ v = some (v + (words bytes₂).sum) := addWordsChecked_eq _ _ (by omega)
  have hdrop : (v + (words bytes₂).sum + 0x100000000 - wordAt bytes₂ o) % 0x100000000 =
      v + (words (zeroWord bytes₂ o)).sum := by omega
  have hdrop' : v + (words bytes₂).sum - wordAt bytes₂ o = v + (words (zeroWord bytes₂ o)).sum := by omega
  refine ⟨v, by omega, ?_, ?_, hmod, hzero⟩
  · rw [netCalcChecksum2, assert_bind heven]
    dsimp only
    rw [hloop₁, hfold, hloop₂, hdrop]
    by_cases hparity : bytes₂.length % 2 = 0
    · rw [if_neg (by omega), hpadded, oddByte_even hparity]
      rfl
    · rw [if_pos hparity, ← oddByte, Nat.mod_eq_of_lt (by omega), hpadded, Nat.add_assoc]
      rfl
  · rw [netCalcChecksum2Checked, hchecked₁, Option.bind_eq_bind, Option.bind_some]
    dsimp only
    rw [hfold, hchecked₂, Option.bind_some, if_pos (by omega), hdrop']
    by_cases hparity : bytes₂.length % 2 = 0
    · rw [if_neg (by omega), hpadded, oddByte_even hparity]
      rfl
    · rw [if_pos hparity, ← oddByte, if_pos (by omega), hpadded, Nat.add_assoc]
      rfl

/-- The value of both forms. -/
theorem net_calc_checksum2_value (heven : bytes₁.length % 2 = 0) (htotal : bytes₁.length + bytes₂.length ≤ 65547)
    (ho : o % 2 = 0) (hin : o + 2 ≤ bytes₂.length) :
    netCalcChecksum2 bytes₁ bytes₂ (wordAt bytes₂ o) = .ok (rfcChecksum (bytes₁ ++ zeroWord bytes₂ o)) ∧
      netCalcChecksum2Checked bytes₁ bytes₂ (wordAt bytes₂ o) =
        some (rfcChecksum (bytes₁ ++ zeroWord bytes₂ o)) := by
  obtain ⟨v, hlt, hcode, hchecked, hmod, hzero⟩ := net_calc_checksum2_parts heven htotal ho hin
  have hsum : (paddedWords (bytes₁ ++ zeroWord bytes₂ o)).sum =
      (words bytes₁).sum + (paddedWords (zeroWord bytes₂ o)).sum := by
    rw [paddedWords_append heven, List.sum_append]
  have hvalue : foldChecksum (v + (paddedWords (zeroWord bytes₂ o)).sum) =
      rfcChecksum (bytes₁ ++ zeroWord bytes₂ o) := by
    obtain ⟨w, hw, heq, hwmod, hwzero⟩ := foldChecksum_fold hlt
    rw [heq, rfcChecksum, internetChecksum, onesSum_unique paddedWords_le hw ?_ ?_]
    · rw [hwmod, hsum, Nat.add_mod, hmod, ← Nat.add_mod]
    · rw [hwzero, hsum]
      omega
  rw [hcode, hchecked, hvalue]
  exact ⟨rfl, rfl⟩

end Field

/-- The TCP pseudo header of the packet in the frame. -/
def tcpPseudoHeader (f : Frame) (n : Nat) : List Byte := f.slice 26 4 ++ f.slice 30 4 ++ [0, 0x06] ++ htons n

theorem tcpPseudoHeader_length {f : Frame} {n : Nat} (h : 34 ≤ f.length) : (tcpPseudoHeader f n).length = 12 := by
  have hsrc : (f.slice 26 4).length = 4 := Frame.slice_length (by omega)
  have hdst : (f.slice 30 4).length = 4 := Frame.slice_length (by omega)
  simp [tcpPseudoHeader, htons, hsrc, hdst]

theorem Frame.slice_getD {f : Frame} {i n k : Nat} (hk : k < n) : (f.slice i n).getD k 0 = f.byte (i + k) := by
  rw [Frame.slice, Frame.byte, List.getD_eq_getElem?_getD, List.getElem?_take_of_lt hk, List.getElem?_drop,
    List.getD_eq_getElem?_getD]

/-- **`net_calc_checksum2`** is the checksum of RFC 1071 over both buffers with the field zeroed, and its accumulator
never wraps around; `tcp_calc_checksum` is that of the pseudo header and the segment. -/
theorem net_calc_checksum2_rfc :
    (∀ (bytes₁ bytes₂ : List Byte) (o : Nat), bytes₁.length % 2 = 0 → bytes₁.length + bytes₂.length ≤ 65547 →
      o % 2 = 0 → o + 2 ≤ bytes₂.length →
      netCalcChecksum2 bytes₁ bytes₂ (wordAt bytes₂ o) = .ok (rfcChecksum (bytes₁ ++ zeroWord bytes₂ o)) ∧
      netCalcChecksum2Checked bytes₁ bytes₂ (wordAt bytes₂ o) =
        some (rfcChecksum (bytes₁ ++ zeroWord bytes₂ o))) ∧
    ∀ (f : Frame) (n : Nat), 18 ≤ n → n ≤ 65535 → 34 + n ≤ f.length →
      tcpCalcChecksum f n = .ok (rfcChecksum (tcpPseudoHeader f n ++ zeroWord (f.slice 34 n) 16)) := by
  refine ⟨fun bytes₁ bytes₂ o heven htotal ho hin => net_calc_checksum2_value heven htotal ho hin, ?_⟩
  intro f n hmin hmax hlen
  have hheader : (tcpPseudoHeader f n).length = 12 := tcpPseudoHeader_length (by omega)
  have hsegment : (f.slice 34 n).length = n := Frame.slice_length hlen
  have hfield : f.be16 50 = wordAt (f.slice 34 n) 16 := by
    rw [wordAt, Frame.slice_getD (by omega), Frame.slice_getD (by omega), Frame.be16]
  rw [tcpCalcChecksum, Frame.read_ok (by omega), ok_bind, Frame.read_ok (by omega), ok_bind,
    Frame.ntohs_ok (by omega), ok_bind, Frame.read_ok hlen, ok_bind, ← tcpPseudoHeader, hfield]
  exact (net_calc_checksum2_value (by omega) (by omega) rfl (by omega)).1

/-- A first buffer whose sum is folded, and a second one of odd length that starts with the field. -/
theorem net_calc_checksum2_folded :
    netCalcChecksum2 [0xff, 0xff, 0xff, 0xff] [0x12, 0x34, 0x56] (wordAt [0x12, 0x34, 0x56] 0) =
      .ok (rfcChecksum ([0xff, 0xff, 0xff, 0xff] ++ zeroWord [0x12, 0x34, 0x56] 0)) :=
  (net_calc_checksum2_rfc.1 [0xff, 0xff, 0xff, 0xff] [0x12, 0x34, 0x56] 0 (by decide) (by decide) (by decide)
    (by decide)).1

end Myunix.Net
