import Mathlib.Data.List.Induction
import Mathlib.Data.List.Infix
import Mathlib.Logic.Function.Basic

/-!
# Longest prefix matching

A table `T` maps some paths (lists of components) to values. `Longest T q pre rest b` says that `pre` is the longest
prefix of `q` in the table, `b` its value and `rest` what is left of `q`. In a prefix-closed table a search that walks
down component by component finds it (`longest_of_stop`). Adding one path changes the match of exactly the paths below
it (`Longest.update_other`, `Longest.update_below`).
-/

namespace Myunix.Lib

universe u v

variable {α : Type u} {β : Type v}

/-- The longest prefix of `q` in the table. -/
structure Longest (T : List α → Option β) (q pre rest : List α) (b : β) : Prop where
  split : q = pre ++ rest
  hit : T pre = some b
  longest : ∀ p, p <+: q → T p ≠ none → p.length ≤ pre.length

/-- With a path the table has all its prefixes. -/
def PrefixClosed (T : List α → Option β) : Prop := ∀ p e, T (p ++ [e]) ≠ none → T p ≠ none

section Tables

variable {T : List α → Option β} {p q pre rest pre' rest' : List α} {b b' : β}

theorem PrefixClosed.append (hc : PrefixClosed T) (l : List α) (h : T (p ++ l) ≠ none) : T p ≠ none := by
  induction l using List.reverseRecOn with
  | nil => rwa [List.append_nil] at h
  | append_singleton l e ih =>
    rw [← List.append_assoc] at h
    exact ih (hc _ _ h)

theorem PrefixClosed.of_prefix (hc : PrefixClosed T) (hp : p <+: q) (h : T q ≠ none) : T p ≠ none := by
  obtain ⟨l, rfl⟩ := hp
  exact hc.append l h

/-- Walking down until the next component is not in the table finds the longest prefix. -/
theorem longest_of_stop (hc : PrefixClosed T) (hit : T pre = some b)
    (hstop : ∀ e, rest.head? = some e → T (pre ++ [e]) = none) : Longest T (pre ++ rest) pre rest b := by
  refine ⟨rfl, hit, fun p hp hT => ?_⟩
  by_contra hlt
  obtain ⟨l, rfl⟩ : pre <+: p := List.prefix_of_prefix_length_le (List.prefix_append pre rest) hp (by omega)
  cases l with
  | nil => simp at hlt
  | cons e l =>
    rw [List.prefix_append_right_inj] at hp
    have hhead : rest.head? = some e := by
      obtain ⟨r, rfl⟩ := hp
      rfl
    refine hc.append l ?_ (hstop e hhead)
    rwa [List.append_assoc]

/-- The longest prefix is unique. -/
theorem Longest.unique (h : Longest T q pre rest b) (h' : Longest T q pre' rest' b') :
    pre = pre' ∧ rest = rest' ∧ b = b' := by
  have hpre : pre <+: q := ⟨rest, h.split.symm⟩
  have hpre' : pre' <+: q := ⟨rest', h'.split.symm⟩
  have hlen : pre.length = pre'.length :=
    Nat.le_antisymm (h'.longest pre hpre (by rw [h.hit]; simp)) (h.longest pre' hpre' (by rw [h'.hit]; simp))
  obtain ⟨rfl, rfl⟩ := List.append_inj (h.split.symm.trans h'.split) hlen
  refine ⟨rfl, rfl, Option.some.inj ?_⟩
  rw [← h.hit, ← h'.hit]

variable [DecidableEq α]

/-- A new path does not change the match of the paths it is no prefix of. -/
theorem Longest.update_other (h : Longest T q pre rest b) (hp : ¬ p <+: q) (v : β) :
    Longest (Function.update T p (some v)) q pre rest b := by
  have hne : ∀ l, l <+: q → l ≠ p := fun l hl heq => hp (heq ▸ hl)
  refine ⟨h.split, ?_, fun l hl hT => ?_⟩
  · rw [Function.update_of_ne (hne pre ⟨rest, h.split.symm⟩)]
    exact h.hit
  · rw [Function.update_of_ne (hne l hl)] at hT
    exact h.longest l hl hT

/-- It changes what is left over of all others. -/
theorem Longest.update_below (hc : PrefixClosed T) (hp : T p = none) {v : β} (hpq : p <+: q)
    (h : Longest T q pre rest b) (h' : Longest (Function.update T p (some v)) q pre' rest' b') : rest' ≠ rest := by
  rintro rfl
  have hpre : pre' = pre := List.append_cancel_right (h'.split.symm.trans h.split)
  subst hpre
  have hle : p.length ≤ pre'.length := h'.longest p hpq (by rw [Function.update_self]; simp)
  have hpp : p <+: pre' := List.prefix_of_prefix_length_le hpq ⟨rest', h.split.symm⟩ hle
  exact hc.of_prefix hpp (by rw [h.hit]; simp) hp

theorem PrefixClosed.update (hc : PrefixClosed T) {e : α} (hp : T p ≠ none) (v : β) :
    PrefixClosed (Function.update T (p ++ [e]) (some v)) := by
  intro l x h
  by_cases hl : l = p ++ [e]
  · subst hl
    rw [Function.update_self]
    simp
  · rw [Function.update_of_ne hl]
    by_cases hx : l ++ [x] = p ++ [e]
    · obtain ⟨rfl, -⟩ := List.append_inj' hx rfl
      exact hp
    · rw [Function.update_of_ne hx] at h
      exact hc l x h

end Tables

end Myunix.Lib
