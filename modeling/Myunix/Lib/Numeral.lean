import Mathlib.Data.Nat.Digits.Lemmas

/-!
# Numerals

A numeral in a base is a list of digits, highest first, that are below the base; its value is positional.

* `places` are the digits that repeated division by the base gives, lowest first: at least one, also for 0
  (`places_eq`).
* `positional_places` says that these, turned around and with zeros in front, have the value of the number.
* `Numeral` is a numeral that is not empty, and `Numeral.ofNat` the one of a number, with at least a given width.
-/

namespace Myunix.Lib

/-! ## Digits and values -/

/-- The value of digits, highest first. -/
def positional (base : Nat) (ds : List Nat) : Nat := ds.foldl (fun v d => v * base + d) 0

/-- The digits of a number, lowest first. -/
def places (base v : Nat) : List Nat := if v = 0 then [0] else Nat.digits base v

section Places

variable {base v n d : Nat} {ds : List Nat}

theorem positional_reverse (base : Nat) (ds : List Nat) : positional base ds.reverse = Nat.ofDigits base ds := by
  rw [positional, List.foldl_reverse, Nat.ofDigits_eq_foldr]
  congr 1
  funext d v
  rw [Nat.cast_id, Nat.mul_comm v base, Nat.add_comm]

/-- Zeros in front do not count. -/
theorem positional_zeros (base n : Nat) (ds : List Nat) :
    positional base (List.replicate n 0 ++ ds) = positional base ds := by
  induction n with
  | zero => rfl
  | succ n ih =>
    rw [List.replicate_succ, List.cons_append, positional, List.foldl_cons, Nat.zero_mul, Nat.zero_add]
    exact ih

theorem ofDigits_places (base v : Nat) : Nat.ofDigits base (places base v) = v := by
  unfold places
  split
  · rename_i hv
    rw [hv]
    rfl
  · exact Nat.ofDigits_digits base v

/-- **The value of the digits.** -/
theorem positional_places (base n v : Nat) :
    positional base (List.replicate n 0 ++ (places base v).reverse) = v := by
  rw [positional_zeros, positional_reverse, ofDigits_places]

theorem places_ne_nil (base v : Nat) : places base v ≠ [] := by
  unfold places
  split
  · exact List.cons_ne_nil 0 []
  · rename_i hv
    exact Nat.digits_ne_nil_iff_ne_zero.2 hv

theorem places_lt (hbase : 2 ≤ base) (hd : d ∈ places base v) : d < base := by
  unfold places at hd
  split at hd
  · rw [List.mem_singleton.1 hd]
    exact Nat.lt_of_lt_of_le Nat.zero_lt_two hbase
  · exact Nat.digits_lt_base hbase hd

/-- **Division by the base** gives one digit after the other. -/
theorem places_eq (hbase : 2 ≤ base) (v : Nat) :
    places base v = v % base :: if v / base = 0 then [] else places base (v / base) := by
  by_cases hv : v = 0
  · rw [hv, places, if_pos rfl, Nat.zero_mod, Nat.zero_div, if_pos rfl]
  · rw [places, if_neg hv, Nat.digits_def' hbase (Nat.pos_of_ne_zero hv)]
    by_cases hrest : v / base = 0
    · rw [hrest, if_pos rfl, Nat.digits_zero]
    · rw [if_neg hrest, places, if_neg hrest]

/-- A number below a power has no more digits than its exponent. -/
theorem places_length_le (hbase : 2 ≤ base) (hn : 0 < n) (hv : v < base ^ n) : (places base v).length ≤ n := by
  unfold places
  split
  · exact hn
  · exact (Nat.digits_length_le_iff hbase v).2 hv

end Places

/-! ## Numerals -/

/-- A numeral in a base. -/
structure Numeral (base : Nat) where
  digits : List Nat
  ne : digits ≠ []
  below : ∀ d ∈ digits, d < base

/-- The value of a numeral. -/
def Numeral.value {base : Nat} (n : Numeral base) : Nat := positional base n.digits

/-- Digits that division has produced, and zeros in front of them. -/
def paddedPlaces (base v width : Nat) : List Nat :=
  List.replicate (width - (places base v).length) 0 ++ (places base v).reverse

section Numeral

variable {base v width d : Nat}

theorem paddedPlaces_ne_nil (base v width : Nat) : paddedPlaces base v width ≠ [] :=
  List.append_ne_nil_of_right_ne_nil _ (mt List.reverse_eq_nil_iff.1 (places_ne_nil base v))

theorem paddedPlaces_lt (hbase : 2 ≤ base) (hd : d ∈ paddedPlaces base v width) : d < base := by
  rcases List.mem_append.1 hd with hd | hd
  · rw [List.eq_of_mem_replicate hd]
    exact Nat.lt_of_lt_of_le Nat.zero_lt_two hbase
  · exact places_lt hbase (List.mem_reverse.1 hd)

theorem paddedPlaces_length (base v width : Nat) :
    (paddedPlaces base v width).length = max width (places base v).length := by
  rw [paddedPlaces, List.length_append, List.length_replicate, List.length_reverse]
  omega

/-- The numeral of a number, with zeros in front up to a width. -/
def Numeral.ofNat (hbase : 2 ≤ base) (v width : Nat) : Numeral base :=
  ⟨paddedPlaces base v width, paddedPlaces_ne_nil base v width, fun _ => paddedPlaces_lt hbase⟩

@[simp] theorem Numeral.value_ofNat (hbase : 2 ≤ base) (v width : Nat) : (Numeral.ofNat hbase v width).value = v :=
  positional_places base _ v

theorem Numeral.digits_lt {k : Nat} (n : Numeral base) (hk : base ≤ k) : ∀ d ∈ n.digits, d < k :=
  fun d hd => Nat.lt_of_lt_of_le (n.below d hd) hk

end Numeral

end Myunix.Lib
