import Mathlib.Data.List.Basic
import Mathlib.Data.List.Nodup

/-!
# Reading a list by positions while it changes

A reader asks for the element at one position after the other, and between two of its calls elements are added at the
end of the list and others are taken out. An element that is taken out in front of the position of the reader moves an
element behind its back.

`Cursor xs pos seen passed` is the invariant of such a reading: the reader is at `pos`, it has seen `seen`, and `passed`
elements were taken out that it had passed. Each kind of change has its lemma. At the end of the list at most `passed`
elements have been missed (`Cursor.missed`), and none was seen twice. Where `passed` is 0 the reader has seen the list.
-/

namespace Myunix.Lib

universe u

variable {α : Type u} [DecidableEq α]

/-- The elements that the reader has not seen. -/
def missing (seen xs : List α) : List α := xs.filter fun x => decide (x ∉ seen)

/-- **The invariant of a reading.** -/
structure Cursor (xs : List α) (pos : Nat) (seen : List α) (passed : Nat) : Prop where
  nodup : xs.Nodup
  once : seen.Nodup
  ahead : ∀ x ∈ xs.drop pos, x ∉ seen
  behind : (missing seen (xs.take pos)).length + (pos - xs.length) ≤ passed
  whole : passed = 0 → seen = xs.take pos

section Cursor

variable {xs seen : List α} {pos passed : Nat} {x : α}

theorem cursor_start (h : xs.Nodup) : Cursor xs 0 [] 0 := by
  refine ⟨h, List.nodup_nil, fun x _ => List.not_mem_nil, ?_, fun _ => rfl⟩
  simp [missing]

theorem missing_append (xs ys : List α) : missing seen (xs ++ ys) = missing seen xs ++ missing seen ys :=
  List.filter_append ..

theorem missing_le (seen xs : List α) : (missing seen xs).length ≤ xs.length := List.length_filter_le ..

theorem missing_erase (seen xs : List α) (x : α) : (missing seen (xs.erase x)).length ≤ (missing seen xs).length :=
  (List.erase_sublist.filter _).length_le

/-- An element behind the last one. -/
theorem Cursor.push (h : Cursor xs pos seen passed) (hx : x ∉ xs) (hseen : x ∉ seen) :
    Cursor (xs ++ [x]) pos seen passed := by
  obtain ⟨hnodup, honce, hahead, hbehind, hwhole⟩ := h
  refine ⟨?_, honce, fun y hy => ?_, ?_, fun hzero => ?_⟩
  · exact List.nodup_append.2 ⟨hnodup, List.nodup_singleton x, fun y hy z hz heq =>
      hx (by rw [← List.mem_singleton.1 hz, ← heq]; exact hy)⟩
  · rw [List.drop_append] at hy
    rcases List.mem_append.1 hy with hy | hy
    · exact hahead y hy
    · rw [List.mem_singleton.1 (List.mem_of_mem_drop hy)]
      exact hseen
  · rw [List.take_append, missing_append, List.length_append, List.length_append, List.length_singleton]
    have hlast := missing_le seen ([x].take (pos - xs.length))
    rw [List.length_take, List.length_singleton] at hlast
    omega
  · rw [List.take_append_of_le_length (by omega)]
    exact hwhole hzero

/-- An element that the reader has not passed is taken out. -/
theorem Cursor.erase_ahead (h : Cursor xs pos seen passed) (hx : x ∈ xs) (hpos : x ∉ xs.take pos) :
    Cursor (xs.erase x) pos seen passed := by
  obtain ⟨hnodup, honce, hahead, hbehind, hwhole⟩ := h
  have hsplit : xs.erase x = xs.take pos ++ (xs.drop pos).erase x := by
    conv_lhs => rw [← List.take_append_drop pos xs]
    exact List.erase_append_right _ hpos
  have hlen : pos < xs.length := by
    by_contra hge
    rw [List.take_of_length_le (by omega)] at hpos
    exact hpos hx
  have htake : (xs.take pos).length = pos := by rw [List.length_take]; omega
  refine ⟨hnodup.erase x, honce, fun y hy => ?_, ?_, fun hzero => ?_⟩
  · rw [hsplit, List.drop_append, List.drop_of_length_le (by omega), List.nil_append, htake, Nat.sub_self,
      List.drop_zero] at hy
    exact hahead y (List.mem_of_mem_erase hy)
  · rw [hsplit, List.take_append, htake, Nat.sub_self, List.take_zero, List.append_nil,
      List.take_of_length_le (by omega), List.length_append, htake]
    omega
  · rw [hsplit, List.take_append_of_le_length (by omega), List.take_of_length_le (by omega)]
    exact hwhole hzero

/-- An element that the reader has passed is taken out: the next one moves into its place. -/
theorem Cursor.erase_passed (h : Cursor xs pos seen passed) (hpos : x ∈ xs.take pos) :
    Cursor (xs.erase x) pos seen (passed + 1) := by
  obtain ⟨hnodup, honce, hahead, hbehind, hwhole⟩ := h
  have hsplit : xs.erase x = (xs.take pos).erase x ++ xs.drop pos := by
    conv_lhs => rw [← List.take_append_drop pos xs]
    exact List.erase_append_left _ hpos
  have hlen : ((xs.take pos).erase x).length + 1 = min pos xs.length := by
    have hcount := List.length_erase_add_one hpos
    rw [List.length_take] at hcount
    exact hcount
  have hpositive : 0 < xs.length := List.length_pos_of_mem (List.mem_of_mem_take hpos)
  have hless := missing_erase seen (xs.take pos) x
  refine ⟨hnodup.erase x, honce, fun y hy => hahead y ?_, ?_, fun hzero => absurd hzero (Nat.succ_ne_zero passed)⟩
  · rw [hsplit, List.drop_append, List.drop_of_length_le (by omega), List.nil_append] at hy
    exact List.mem_of_mem_drop hy
  · rw [hsplit, List.take_append, List.take_of_length_le (by omega), missing_append, List.length_append,
      List.length_append, List.length_drop]
    have hnext := missing_le seen ((xs.drop pos).take (pos - ((xs.take pos).erase x).length))
    rw [List.length_take, List.length_drop] at hnext
    omega

/-- The reader sees the element at its position. -/
theorem Cursor.next (h : Cursor xs pos seen passed) (hx : xs[pos]? = some x) :
    Cursor xs (pos + 1) (seen ++ [x]) passed := by
  obtain ⟨hnodup, honce, hahead, hbehind, hwhole⟩ := h
  obtain ⟨hlt, hget⟩ := List.getElem?_eq_some_iff.1 hx
  have hdrop : xs.drop pos = x :: xs.drop (pos + 1) := by rw [List.drop_eq_getElem_cons hlt, hget]
  rw [hdrop] at hahead
  have hfresh : x ∉ seen := hahead x List.mem_cons_self
  have hrest : x ∉ xs.drop (pos + 1) := by
    have hnodup' := hnodup.sublist (List.drop_sublist pos xs)
    rw [hdrop] at hnodup'
    exact (List.nodup_cons.1 hnodup').1
  refine ⟨hnodup, ?_, fun y hy hmem => ?_, ?_, fun hzero => ?_⟩
  · exact List.nodup_append.2 ⟨honce, List.nodup_singleton x, fun y hy z hz heq =>
      hfresh (by rw [← List.mem_singleton.1 hz, ← heq]; exact hy)⟩
  · rcases List.mem_append.1 hmem with hmem | hmem
    · exact hahead y (List.mem_cons_of_mem x hy) hmem
    · exact hrest (List.mem_singleton.1 hmem ▸ hy)
  · have hmissing : missing (seen ++ [x]) (xs.take (pos + 1)) = missing (seen ++ [x]) (xs.take pos) := by
      rw [List.take_add_one, hx, missing_append]
      simp [missing]
    have hless : (missing (seen ++ [x]) (xs.take pos)).length ≤ (missing seen (xs.take pos)).length := by
      refine (List.monotone_filter_right _ fun y hy => ?_).length_le
      simp only [List.mem_append, not_or, decide_eq_true_eq] at hy ⊢
      exact hy.1
    rw [hmissing]
    omega
  · rw [List.take_add_one, hx, ← hwhole hzero]
    rfl

/-- **At the end of the list** at most as many elements have been missed as were taken out behind the reader. -/
theorem Cursor.missed (h : Cursor xs pos seen passed) (hend : xs[pos]? = none) :
    (missing seen xs).length ≤ passed := by
  have hbehind := h.behind
  rw [List.take_of_length_le (List.getElem?_eq_none_iff.1 hend)] at hbehind
  omega

/-- Where no element was taken out behind the reader it has seen the whole list. -/
theorem Cursor.complete (h : Cursor xs pos seen 0) (hend : xs[pos]? = none) : seen = xs := by
  rw [h.whole rfl, List.take_of_length_le (List.getElem?_eq_none_iff.1 hend)]

end Cursor

end Myunix.Lib
