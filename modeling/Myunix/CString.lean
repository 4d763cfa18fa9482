import Myunix.Base

/-!
# C strings (`string.c`)

A C string in memory is its bytes followed by a NUL. `memcmp` stops at the first difference, so comparing two strings
over the length of the first is a prefix test (`memcmp_prefix`), and one byte more, the NUL included, makes it a test
for equality (`memcmp_eq`); neither reads behind a NUL.
-/

namespace Myunix

/-- `char`. -/
abbrev Byte := BitVec 8

/-- A NUL-terminated string: no byte before the terminator is NUL. -/
structure CString where
  bytes : List Byte
  nonzero : (0 : Byte) ∉ bytes
deriving DecidableEq

theorem nil_nonzero : (0 : Byte) ∉ ([] : List Byte) := List.not_mem_nil

/-- The empty string. -/
def CString.empty : CString := ⟨[], nil_nonzero⟩

/-- The bytes in memory, the terminator included. -/
def CString.mem (s : CString) : List Byte := s.bytes ++ [0]

/-- `strlen`. -/
def strlen (s : CString) : Nat := s.bytes.length

/-- What is in front of the terminator. -/
theorem takeWhile_nonzero {s : List Byte} (rest : List Byte) (hs : (0 : Byte) ∉ s) :
    (s ++ 0 :: rest).takeWhile (· ≠ 0) = s := by
  have hpos : ∀ b ∈ s, decide (b ≠ 0) = true := fun b hb => decide_eq_true (ne_of_mem_of_not_mem hb hs)
  rw [List.takeWhile_append_of_pos hpos, List.takeWhile_cons_of_neg (by decide), List.append_nil]

/-- `memcmp`: the difference of the first two bytes that differ among the first `len`, as signed characters. -/
def memcmp : List Byte → List Byte → Nat → Kernel Int
  | _, _, 0 => .ok 0
  | a :: s₁, b :: s₂, len + 1 => if a ≠ b then .ok (a.toInt - b.toInt) else memcmp s₁ s₂ len
  | _, _, _ + 1 => .error .bounds

/-- Different first bytes decide. -/
theorem memcmp_ne {x y : Byte} (h : x ≠ y) (s₁ s₂ : List Byte) (n : Nat) :
    ∃ r, memcmp (x :: s₁) (y :: s₂) (n + 1) = .ok r ∧ r ≠ 0 := by
  refine ⟨x.toInt - y.toInt, if_pos h, fun h' => h (BitVec.toInt_inj.1 (by omega))⟩

/-- Equal first bytes are skipped. -/
theorem memcmp_self (x : Byte) (s₁ s₂ : List Byte) (n : Nat) :
    memcmp (x :: s₁) (x :: s₂) (n + 1) = memcmp s₁ s₂ n := if_neg (by simp)

/-- Comparing two buffers of the same size tests for equality. -/
theorem memcmp_buffers (a b : List Byte) (h : a.length = b.length) :
    ∃ r, memcmp a b a.length = .ok r ∧ (r = 0 ↔ a = b) := by
  induction a generalizing b with
  | nil =>
    obtain rfl := List.length_eq_zero_iff.1 h.symm
    exact ⟨0, rfl, by simp⟩
  | cons x a ih =>
    cases b with
    | nil => simp at h
    | cons y b =>
      by_cases hxy : x = y
      · subst hxy
        obtain ⟨r, hr, hiff⟩ := ih b (by simpa using h)
        exact ⟨r, (memcmp_self x a b a.length).trans hr, by simp [hiff]⟩
      · obtain ⟨r, hr, h0⟩ := memcmp_ne hxy a b a.length
        exact ⟨r, hr, by simp [h0, hxy]⟩

/-- Comparing over the length of the first string tests for a prefix. -/
theorem memcmp_prefix (a b : List Byte) (ha : (0 : Byte) ∉ a) :
    ∃ r, memcmp (a ++ [0]) (b ++ [0]) a.length = .ok r ∧ (r = 0 ↔ a <+: b) := by
  induction a generalizing b with
  | nil => exact ⟨0, rfl, by simp⟩
  | cons x a ih =>
    cases b with
    | nil =>
      obtain ⟨r, hr, h0⟩ := memcmp_ne (fun h => ha (h ▸ List.mem_cons_self) : x ≠ 0) (a ++ [0]) [] a.length
      exact ⟨r, hr, by simp [h0]⟩
    | cons y b =>
      by_cases hxy : x = y
      · subst hxy
        obtain ⟨r, hr, h⟩ := ih b (fun h => ha (List.mem_cons_of_mem _ h))
        exact ⟨r, (memcmp_self x _ _ _).trans hr, by rw [h, List.prefix_cons_inj]⟩
      · obtain ⟨r, hr, h0⟩ := memcmp_ne hxy (a ++ [0]) (b ++ [0]) a.length
        exact ⟨r, hr, by simp [h0, List.cons_prefix_cons, hxy]⟩

/-- Comparing the terminator as well tests for equality. -/
theorem memcmp_eq (a b : List Byte) (ha : (0 : Byte) ∉ a) (hb : (0 : Byte) ∉ b) :
    ∃ r, memcmp (a ++ [0]) (b ++ [0]) (a.length + 1) = .ok r ∧ (r = 0 ↔ a = b) := by
  induction a generalizing b with
  | nil =>
    cases b with
    | nil => exact ⟨0, rfl, by simp⟩
    | cons y b =>
      obtain ⟨r, hr, h0⟩ := memcmp_ne (fun h => hb (h ▸ List.mem_cons_self) : (0 : Byte) ≠ y) [] (b ++ [0]) 0
      exact ⟨r, hr, by simp [h0]⟩
  | cons x a ih =>
    cases b with
    | nil =>
      obtain ⟨r, hr, h0⟩ := memcmp_ne (fun h => ha (h ▸ List.mem_cons_self) : x ≠ 0) (a ++ [0]) [] (a.length + 1)
      exact ⟨r, hr, by simp [h0]⟩
    | cons y b =>
      by_cases hxy : x = y
      · subst hxy
        obtain ⟨r, hr, h⟩ := ih b (fun h => ha (List.mem_cons_of_mem _ h)) (fun h => hb (List.mem_cons_of_mem _ h))
        exact ⟨r, (memcmp_self x _ _ _).trans hr, by simp [h]⟩
      · obtain ⟨r, hr, h0⟩ := memcmp_ne hxy (a ++ [0]) (b ++ [0]) (a.length + 1)
        exact ⟨r, hr, by simp [h0, hxy]⟩

/-- Which buffer comes first only matters for the sign. -/
theorem memcmp_comm {a b : List Byte} {n : Nat} {r : Int} (h : memcmp a b n = .ok r) : memcmp b a n = .ok (-r) := by
  fun_induction memcmp a b n with
  | case1 a b =>
    rw [Except.ok.injEq] at h
    subst h
    simp [memcmp]
  | case2 x a y b n hne =>
    rw [Except.ok.injEq] at h
    rw [memcmp, if_pos (Ne.symm hne), ← h]
    congr 1
    omega
  | case3 x a y b n heq ih =>
    rw [not_not] at heq
    subst heq
    rw [memcmp_self]
    exact ih h
  | case4 => cases h

theorem CString.memcmp_prefix (s t : CString) :
    ∃ r, memcmp s.mem t.mem (strlen s) = .ok r ∧ (r = 0 ↔ s.bytes <+: t.bytes) :=
  Myunix.memcmp_prefix s.bytes t.bytes s.nonzero

theorem CString.memcmp_eq (s t : CString) :
    ∃ r, memcmp s.mem t.mem (strlen s + 1) = .ok r ∧ (r = 0 ↔ s = t) := by
  obtain ⟨r, hr, h⟩ := Myunix.memcmp_eq s.bytes t.bytes s.nonzero t.nonzero
  exact ⟨r, hr, by rw [h, CString.mk.injEq]⟩

/-- The same over the length of the second string. -/
theorem CString.memcmp_eq_right (s t : CString) :
    ∃ r, memcmp s.mem t.mem (strlen t + 1) = .ok r ∧ (r = 0 ↔ s = t) := by
  obtain ⟨r, hr, h⟩ := CString.memcmp_eq t s
  refine ⟨-r, memcmp_comm hr, ?_⟩
  rw [eq_comm (a := s), ← h]
  omega

end Myunix
