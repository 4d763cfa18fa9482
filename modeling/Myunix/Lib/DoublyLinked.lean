import Mathlib.Logic.Function.Basic
import Mathlib.Data.List.Induction
import Mathlib.Data.List.Nodup

/-!
# Doubly linked lists

Each element of a doubly linked list has a link to the one after it and a link to the one before it. `DLinked next prev
p l` says that the links of the elements of `l` are those of the list `l`, with `p` before its first element.

* `DLinked.unique`: the links and the first element determine the list.
* `DLinked.extend`, `DLinked.insert` and `DLinked.remove`: an element joins at the end, an element joins anywhere, and
  an element anywhere leaves, for links that are known element by element.
* `DLinked.follows`: who goes along one of the links sees the elements in order (`Follows`).
-/

namespace Myunix.Lib

universe u

/-- The elements of `l` are linked in both directions, and `p` comes before the first one. -/
def DLinked {α : Type u} (next prev : α → Option α) : Option α → List α → Prop
  | _, [] => True
  | p, a :: l => prev a = p ∧ next a = l.head? ∧ DLinked next prev (some a) l

section DLinked

variable {α : Type u} {next prev next' prev' : α → Option α} {p : Option α} {a b : α} {l : List α}

/-- Only the links of the elements matter. -/
theorem DLinked.congr (hn : ∀ c ∈ l, next' c = next c) (hp : ∀ c ∈ l, prev' c = prev c) (h : DLinked next prev p l) :
    DLinked next' prev' p l := by
  induction l generalizing p with
  | nil => trivial
  | cons c l ih =>
    refine ⟨?_, ?_, ih (fun d hd => hn d (List.mem_cons_of_mem c hd)) (fun d hd => hp d (List.mem_cons_of_mem c hd)) h.2.2⟩
    · rw [hp c List.mem_cons_self]
      exact h.1
    · rw [hn c List.mem_cons_self]
      exact h.2.1

/-- The links and the first element determine the list. -/
theorem DLinked.unique {p' : Option α} {l' : List α} (h : DLinked next prev p l) (h' : DLinked next prev p' l')
    (hhead : l.head? = l'.head?) : l = l' := by
  induction l generalizing p p' l' with
  | nil => exact (List.head?_eq_none_iff.1 hhead.symm).symm
  | cons c l ih =>
    cases l' with
    | nil => simp at hhead
    | cons d l' =>
      obtain rfl : c = d := by simpa using hhead
      rw [ih h.2.2 h'.2.2 (h.2.1.symm.trans h'.2.1)]

/-- An element joins at the end. -/
theorem DLinked.extend (h : DLinked next prev p l) (hd : l.Nodup) (hlast : ∀ c, l.getLast? = some c → next' c = some a)
    (hnext : ∀ c ∈ l, l.getLast? ≠ some c → next' c = next c) (hprev : ∀ c ∈ l, prev' c = prev c)
    (hna : next' a = none) (hpa : prev' a = l.getLast?.or p) : DLinked next' prev' p (l ++ [a]) := by
  induction l generalizing p with
  | nil => exact ⟨hpa, hna, trivial⟩
  | cons c l ih =>
    have hc : c ∉ l := (List.nodup_cons.1 hd).1
    cases l with
    | nil => exact ⟨(hprev c List.mem_cons_self).trans h.1, hlast c rfl, hpa, hna, trivial⟩
    | cons d l =>
      rw [List.getLast?_cons_cons] at hlast hpa
      have hlastc : (c :: d :: l).getLast? ≠ some c := by
        rw [List.getLast?_cons_cons]
        exact fun he => hc (List.mem_of_getLast? he)
      refine ⟨(hprev c List.mem_cons_self).trans h.1, ?_, ih h.2.2 (List.nodup_cons.1 hd).2 hlast (fun e hm hne => ?_)
        (fun e hm => hprev e (List.mem_cons_of_mem c hm)) ?_⟩
      · rw [hnext c List.mem_cons_self hlastc]
        exact h.2.1
      · exact hnext e (List.mem_cons_of_mem c hm) (by rwa [List.getLast?_cons_cons])
      · rw [hpa, List.getLast?_cons, Option.some_or, Option.some_or]

/-- The neighbours of an element. -/
theorem DLinked.at (l₁ : List α) {l₂ : List α} (h : DLinked next prev p (l₁ ++ a :: l₂)) :
    prev a = l₁.getLast?.or p ∧ next a = l₂.head? := by
  induction l₁ generalizing p with
  | nil => exact ⟨h.1, h.2.1⟩
  | cons c l₁ ih =>
    obtain ⟨hprev, hnext⟩ := ih h.2.2
    refine ⟨?_, hnext⟩
    rw [hprev, List.getLast?_cons]
    cases l₁.getLast? <;> rfl

/-- **An element leaves**: its neighbours take over its links. -/
theorem DLinked.remove {l₁ l₂ : List α} [DecidableEq α] (h : DLinked next prev p (l₁ ++ a :: l₂))
    (hd : (l₁ ++ a :: l₂).Nodup) (hp : ∀ c ∈ l₁ ++ l₂, p ≠ some c)
    (hnext : ∀ c ∈ l₁ ++ l₂, next' c = if prev a = some c then next a else next c)
    (hprev : ∀ c ∈ l₁ ++ l₂, prev' c = if next a = some c then prev a else prev c) :
    DLinked next' prev' p (l₁ ++ l₂) := by
  -- induction on the elements before `a`
  induction l₁ generalizing p with
  | nil =>
    obtain ⟨hpa, hna, htail⟩ := h
    cases l₂ with
    | nil => trivial
    | cons b l =>
      have hb : b ∉ l := (List.nodup_cons.1 (List.nodup_cons.1 hd).2).1
      refine ⟨?_, ?_, DLinked.congr (fun c hc => ?_) (fun c hc => ?_) htail.2.2⟩
      · rw [hprev b List.mem_cons_self, hna, List.head?_cons, if_pos rfl, hpa]
      · rw [hnext b List.mem_cons_self, hpa, if_neg (hp b List.mem_cons_self)]
        exact htail.2.1
      · rw [hnext c (List.mem_cons_of_mem b hc), hpa, if_neg (hp c (List.mem_cons_of_mem b hc))]
      · have hbc : some b ≠ some c := fun he => hb (Option.some.inj he ▸ hc)
        rw [hprev c (List.mem_cons_of_mem b hc), hna, List.head?_cons, if_neg hbc]
  | cons c l₁ ih =>
    obtain ⟨hpc, hnc, htail⟩ := h
    obtain ⟨hc, hd'⟩ := List.nodup_cons.1 hd
    obtain ⟨hpa, hna⟩ := htail.at l₁
    have hc₂ : c ∉ l₁ ++ l₂ := fun hm => hc (by
      rcases List.mem_append.1 hm with hm | hm
      · exact List.mem_append_left _ hm
      · exact List.mem_append_right _ (List.mem_cons_of_mem a hm))
    refine ⟨?_, ?_, ih htail hd' (fun d hm he => hc₂ (Option.some.inj he ▸ hm))
      (fun d hm => hnext d (List.mem_cons_of_mem c hm)) fun d hm => hprev d (List.mem_cons_of_mem c hm)⟩
    · have hac : next a ≠ some c := by
        rw [hna]
        exact fun he => hc₂ (List.mem_append_right _ (List.mem_of_head? he))
      rw [hprev c List.mem_cons_self, if_neg hac, hpc]
    · rw [hnext c List.mem_cons_self, hpa]
      cases l₁ with
      | nil =>
        rw [List.getLast?_nil, Option.none_or, if_pos rfl]
        exact hna
      | cons d l₁ =>
        have hlast : ((d :: l₁).getLast?.or (some c)) ≠ some c := by
          rw [List.getLast?_eq_some_getLast (List.cons_ne_nil d l₁), Option.some_or]
          exact fun he => hc₂ (List.mem_append_left _ (Option.some.inj he ▸ List.getLast_mem (List.cons_ne_nil d l₁)))
        rw [if_neg hlast]
        exact hnc

/-- **An element joins** between two neighbours, which take it as the next and as the one before. -/
theorem DLinked.insert {l₁ l₂ : List α} [DecidableEq α] (h : DLinked next prev p (l₁ ++ l₂)) (hd : (l₁ ++ l₂).Nodup)
    (hna : next' a = l₂.head?) (hpa : prev' a = l₁.getLast?.or p)
    (hnext : ∀ c ∈ l₁ ++ l₂, next' c = if l₁.getLast? = some c then some a else next c)
    (hprev : ∀ c ∈ l₁ ++ l₂, prev' c = if l₂.head? = some c then some a else prev c) :
    DLinked next' prev' p (l₁ ++ a :: l₂) := by
  -- induction on the elements before `a`
  induction l₁ generalizing p with
  | nil =>
    refine ⟨hpa, hna, ?_⟩
    cases l₂ with
    | nil => trivial
    | cons b l =>
      have hb : b ∉ l := (List.nodup_cons.1 hd).1
      refine ⟨?_, ?_, DLinked.congr (fun c hc => ?_) (fun c hc => ?_) h.2.2⟩
      · rw [hprev b List.mem_cons_self, List.head?_cons, if_pos rfl]
      · rw [hnext b List.mem_cons_self, List.getLast?_nil, if_neg (by simp)]
        exact h.2.1
      · rw [hnext c (List.mem_cons_of_mem b hc), List.getLast?_nil, if_neg (by simp)]
      · have hbc : some b ≠ some c := fun he => hb (Option.some.inj he ▸ hc)
        rw [hprev c (List.mem_cons_of_mem b hc), List.head?_cons, if_neg hbc]
  | cons c l₁ ih =>
    obtain ⟨hpc, hnc, htail⟩ := h
    obtain ⟨hc, hd'⟩ := List.nodup_cons.1 hd
    rw [List.getLast?_cons] at hpa
    refine ⟨?_, ?_, ih htail hd' ?_ (fun d hm => ?_) fun d hm => hprev d (List.mem_cons_of_mem c hm)⟩
    · have hhead : l₂.head? ≠ some c := fun he => hc (List.mem_append_right _ (List.mem_of_head? he))
      rw [hprev c List.mem_cons_self, if_neg hhead, hpc]
    · rw [hnext c List.mem_cons_self]
      cases l₁ with
      | nil =>
        rw [List.getLast?_singleton, if_pos rfl]
        rfl
      | cons d l₁ =>
        have hlast : (c :: d :: l₁).getLast? ≠ some c := by
          rw [List.getLast?_cons_cons]
          exact fun he => hc (List.mem_append_left _ (List.mem_of_getLast? he))
        rw [if_neg hlast]
        exact hnc
    · rw [hpa]
      cases l₁.getLast? <;> rfl
    · rw [hnext d (List.mem_cons_of_mem c hm)]
      cases l₁ with
      | nil =>
        have hcd : c ≠ d := by
          rintro rfl
          exact hc hm
        rw [List.getLast?_singleton, if_neg (fun he => hcd (Option.some.inj he)), List.getLast?_nil, if_neg (by simp)]
      | cons e l₁ => rw [List.getLast?_cons_cons]

end DLinked

/-! ## Going along the links -/

/-- From `o`, the links lead through the elements of `l`, in this order, to an end. -/
def Follows {α : Type u} (next : α → Option α) : Option α → List α → Prop
  | o, [] => o = none
  | o, a :: l => o = some a ∧ Follows next (next a) l

section Follows

variable {α : Type u} {next prev : α → Option α} {p o : Option α} {a b : α} {l l' : List α}

/-- The links lead one way only. -/
theorem Follows.unique (h : Follows next o l) (h' : Follows next o l') : l = l' := by
  induction l generalizing o l' with
  | nil =>
    cases l' with
    | nil => rfl
    | cons b l' => exact absurd (h.symm.trans h'.1) (by simp)
  | cons a l ih =>
    cases l' with
    | nil => exact absurd (h'.symm.trans h.1) (by simp)
    | cons b l' =>
      obtain rfl : a = b := Option.some.inj (h.1.symm.trans h'.1)
      rw [ih h.2 h'.2]

/-- An element joins at the end. -/
theorem Follows.extend {next' : α → Option α} (h : Follows next l.head? l) (hd : l.Nodup)
    (hlast : ∀ c, l.getLast? = some c → next' c = some a) (hnext : ∀ c ∈ l, l.getLast? ≠ some c → next' c = next c)
    (hna : next' a = none) : Follows next' (l ++ [a]).head? (l ++ [a]) := by
  induction l with
  | nil => exact ⟨rfl, hna⟩
  | cons c l ih =>
    have hc : c ∉ l := (List.nodup_cons.1 hd).1
    refine ⟨rfl, ?_⟩
    cases l with
    | nil =>
      rw [hlast c rfl]
      exact ⟨rfl, hna⟩
    | cons d l =>
      rw [List.getLast?_cons_cons] at hlast
      have hlastc : (c :: d :: l).getLast? ≠ some c := by
        rw [List.getLast?_cons_cons]
        exact fun he => hc (List.mem_of_getLast? he)
      rw [hnext c List.mem_cons_self hlastc, h.2.1]
      refine ih ⟨rfl, h.2.2⟩ (List.nodup_cons.1 hd).2 hlast fun e hm hne => ?_
      exact hnext e (List.mem_cons_of_mem c hm) (by rwa [List.getLast?_cons_cons])

theorem Follows.head (h : Follows next o l) : o = l.head? := by
  cases l with
  | nil => exact h
  | cons a l => exact h.1

/-- The element after `a`. -/
theorem Follows.at (l₁ : List α) {l₂ : List α} (h : Follows next o (l₁ ++ a :: l₂)) : next a = l₂.head? := by
  induction l₁ generalizing o with
  | nil =>
    cases l₂ with
    | nil => exact h.2
    | cons b l₂ => exact h.2.1
  | cons c l₁ ih => exact ih h.2

/-- Only the links of the elements matter. -/
theorem Follows.congr {next' : α → Option α} (h : Follows next o l) (hn : ∀ c ∈ l, next' c = next c) :
    Follows next' o l := by
  induction l generalizing o with
  | nil => exact h
  | cons c l ih =>
    refine ⟨h.1, ?_⟩
    rw [hn c List.mem_cons_self]
    exact ih h.2 fun d hd => hn d (List.mem_cons_of_mem c hd)

theorem DLinked.follows (h : DLinked next prev p l) : Follows next l.head? l := by
  induction l generalizing p with
  | nil => rfl
  | cons a l ih =>
    refine ⟨rfl, ?_⟩
    rw [h.2.1]
    exact ih h.2.2

/-- In the other direction, from any element back to the first. -/
theorem DLinked.follows_back (l₁ l₂ : List α) (h : DLinked next prev none (l₁ ++ l₂)) :
    Follows prev l₁.getLast? l₁.reverse := by
  induction l₁ using List.reverseRecOn generalizing l₂ with
  | nil => rfl
  | append_singleton l₁ a ih =>
    rw [List.append_assoc] at h
    obtain ⟨hprev, -⟩ := h.at l₁
    rw [List.reverse_append, List.getLast?_append, List.getLast?_singleton, Option.some_or]
    refine ⟨rfl, ?_⟩
    rw [hprev, Option.or_none]
    exact ih _ h

/-- The two links are inverse to each other. -/
theorem DLinked.next_iff_prev (h : DLinked next prev none l) (ha : a ∈ l) (hb : b ∈ l) :
    next a = some b ↔ prev b = some a := by
  constructor
  · intro hnext
    obtain ⟨l₁, l₂, rfl⟩ := List.append_of_mem ha
    obtain ⟨l, rfl⟩ : ∃ l, l₂ = b :: l := List.head?_eq_some_iff.1 ((h.at l₁).2.symm.trans hnext)
    rw [List.append_cons] at h
    rw [(h.at (l₁ ++ [a])).1, List.getLast?_concat, Option.some_or]
  · intro hprev
    obtain ⟨l₁, l₂, rfl⟩ := List.append_of_mem hb
    have hlast : l₁.getLast? = some a := by
      rw [← hprev, (h.at l₁).1, Option.or_none]
    obtain ⟨l, rfl⟩ := List.getLast?_eq_some_iff.1 hlast
    rw [List.append_assoc] at h
    exact (h.at l).2

end Follows

end Myunix.Lib
