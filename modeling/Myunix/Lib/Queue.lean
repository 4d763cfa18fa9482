import Mathlib.Logic.Function.Basic
import Mathlib.Data.List.Nodup

/-!
# Queues that share one link field

An intrusive queue is a pair of pointers to elements that are chained through a link field of their own. Several
queues then share that field: an element can be in one of them at a time, and moving it rewrites links. `Links` is the
link field of all elements together with the pointers of all queues, and `Represents l L off` says that the queues are
the lists `L`, that the chain `off` has been taken off its queue, and that every other element has no link.

* `Represents.enqueue_nil`, `Represents.enqueue_snoc`: an element that is nowhere joins a queue at its end.
* `Represents.dequeue`: the first element of a queue leaves it.
* `Represents.detach`, `Represents.off_cons`: a whole queue is emptied at once, and its old chain is walked one by one.
-/

namespace Myunix.Lib

universe u v

/-- The two ends of a queue. -/
structure Queue (α : Type u) where
  first : Option α
  last : Option α
deriving DecidableEq, Repr

/-- The link field of every element, and the ends of every queue. -/
structure Links (κ : Type v) (α : Type u) where
  next : α → Option α
  queues : κ → Queue α

/-- Every element links to the one after it, the last one to none. -/
def Linked {α : Type u} (next : α → Option α) : List α → Prop
  | [] => True
  | a :: l => next a = l.head? ∧ Linked next l

section Linked

variable {α : Type u} {next next' : α → Option α}

theorem Linked.congr {l : List α} (h : ∀ a ∈ l, next' a = next a) (hl : Linked next l) : Linked next' l := by
  induction l with
  | nil => trivial
  | cons a l ih =>
    refine ⟨?_, ih (fun b hb => h b (List.mem_cons_of_mem a hb)) hl.2⟩
    rw [h a List.mem_cons_self]
    exact hl.1

/-- Elements outside the list may change their links. -/
theorem Linked.update [DecidableEq α] {l : List α} {a : α} {n : Option α} (ha : a ∉ l) (h : Linked next l) :
    Linked (Function.update next a n) l := by
  refine Linked.congr (fun b hb => ?_) h
  exact Function.update_of_ne (ne_of_mem_of_not_mem hb ha) n next

/-- The last element gets a successor. -/
theorem Linked.snoc [DecidableEq α] {a b : α} {l : List α} (h : Linked next l) (hd : l.Nodup)
    (hb : l.getLast? = some b) (ha : a ∉ l) (hn : next a = none) :
    Linked (Function.update next b (some a)) (l ++ [a]) := by
  induction l with
  | nil => simp at hb
  | cons c l ih =>
    cases l with
    | nil =>
      obtain rfl : c = b := by simpa using hb
      have hac : a ≠ c := by simpa using ha
      refine ⟨by simp, ?_, trivial⟩
      rw [Function.update_of_ne hac]
      exact hn
    | cons d l =>
      have hb' : (d :: l).getLast? = some b := by simpa using hb
      have hcb : c ≠ b := by
        rintro rfl
        exact (List.nodup_cons.1 hd).1 (List.mem_of_getLast? hb')
      refine ⟨?_, ih h.2 (List.nodup_cons.1 hd).2 hb' fun hm => ha (List.mem_cons_of_mem c hm)⟩
      rw [Function.update_of_ne hcb]
      exact h.1

end Linked

namespace Links

variable {κ : Type v} {α : Type u}

/-- `a->next = n`. -/
def setNext [DecidableEq α] (l : Links κ α) (a : α) (n : Option α) : Links κ α :=
  { l with next := Function.update l.next a n }

/-- `q->first` and `q->last` set. -/
def setQueue [DecidableEq κ] (l : Links κ α) (q : κ) (x : Queue α) : Links κ α :=
  { l with queues := Function.update l.queues q x }

@[simp] theorem setNext_next [DecidableEq α] (l : Links κ α) (a : α) (n : Option α) :
    (l.setNext a n).next = Function.update l.next a n := rfl

@[simp] theorem setNext_queues [DecidableEq α] (l : Links κ α) (a : α) (n : Option α) :
    (l.setNext a n).queues = l.queues := rfl

@[simp] theorem setQueue_next [DecidableEq κ] (l : Links κ α) (q : κ) (x : Queue α) :
    (l.setQueue q x).next = l.next := rfl

@[simp] theorem setQueue_queues [DecidableEq κ] (l : Links κ α) (q : κ) (x : Queue α) :
    (l.setQueue q x).queues = Function.update l.queues q x := rfl

end Links

/-! ## What the pointers mean -/

/-- The queues are the lists `L`, `off` is a chain outside them, and everything else is unlinked. -/
structure Represents {κ : Type v} {α : Type u} (l : Links κ α) (L : κ → List α) (off : List α) : Prop where
  first : ∀ q, (l.queues q).first = (L q).head?
  last : ∀ q, (l.queues q).last = (L q).getLast?
  linked : ∀ q, Linked l.next (L q)
  nodup : ∀ q, (L q).Nodup
  apart : ∀ q q' a, a ∈ L q → a ∈ L q' → q = q'
  offLinked : Linked l.next off
  offNodup : off.Nodup
  offApart : ∀ q, ∀ a ∈ off, a ∉ L q
  loose : ∀ a, a ∉ off → (∀ q, a ∉ L q) → l.next a = none

namespace Represents

variable {κ : Type v} {α : Type u} {l : Links κ α} {L : κ → List α} {off : List α} {q : κ} {a b : α}

theorem first_eq_none (h : Represents l L off) : (l.queues q).first = none ↔ L q = [] := by
  rw [h.first, List.head?_eq_none_iff]

theorem first_eq_some (h : Represents l L off) : (l.queues q).first = some a ↔ ∃ rest, L q = a :: rest := by
  rw [h.first, List.head?_eq_some_iff]

section Moves

variable [DecidableEq κ]

/-- The members of the lists when `a` joins one. -/
theorem mem_snoc {c : α} {p : κ} : c ∈ Function.update L q (L q ++ [a]) p ↔ c ∈ L p ∨ (c = a ∧ p = q) := by
  rcases eq_or_ne p q with rfl | hp
  · simp
  · simp [hp]

/-- The members of the lists when the first of `q` leaves. -/
theorem mem_tail (h : Represents l L off) {rest : List α} (hq : L q = a :: rest) {c : α} {p : κ} :
    c ∈ Function.update L q rest p ↔ c ∈ L p ∧ c ≠ a := by
  have hd := h.nodup q
  rw [hq, List.nodup_cons] at hd
  rcases eq_or_ne p q with rfl | hp
  · rw [Function.update_self, hq, List.mem_cons]
    constructor
    · exact fun hc => ⟨.inr hc, ne_of_mem_of_not_mem hc hd.1⟩
    · exact fun hc => hc.1.resolve_left hc.2
  · rw [Function.update_of_ne hp]
    constructor
    · rintro hc
      refine ⟨hc, ?_⟩
      rintro rfl
      exact hp (h.apart p q c hc (by simp [hq]))
    · exact fun hc => hc.1

/-- The lists stay apart when an element that is in none of them joins one. -/
theorem apart_snoc (h : Represents l L off) (ha : ∀ q, a ∉ L q) (p p' : κ) (c : α)
    (hc : c ∈ Function.update L q (L q ++ [a]) p) (hc' : c ∈ Function.update L q (L q ++ [a]) p') : p = p' := by
  rcases mem_snoc.1 hc with h1 | ⟨rfl, rfl⟩ <;> rcases mem_snoc.1 hc' with h2 | ⟨h2, h3⟩
  · exact h.apart p p' c h1 h2
  · subst h2; exact absurd h1 (ha p)
  · exact absurd h2 (ha p')
  · exact h3.symm

/-- An element that is nowhere joins an empty queue. -/
theorem enqueue_nil (h : Represents l L off) (hq : L q = []) (ho : a ∉ off) (ha : ∀ q, a ∉ L q) :
    Represents (l.setQueue q ⟨some a, some a⟩) (Function.update L q (L q ++ [a])) off where
  first p := by
    rcases eq_or_ne p q with rfl | hp
    · simp [hq]
    · simp [Function.update_of_ne hp, h.first]
  last p := by
    rcases eq_or_ne p q with rfl | hp
    · simp [hq]
    · simp [Function.update_of_ne hp, h.last]
  linked p := by
    rcases eq_or_ne p q with rfl | hp
    · rw [Function.update_self, hq]
      exact ⟨h.loose a ho ha, trivial⟩
    · rw [Function.update_of_ne hp]
      exact h.linked p
  nodup p := by
    rcases eq_or_ne p q with rfl | hp
    · simp [hq]
    · rw [Function.update_of_ne hp]
      exact h.nodup p
  apart := h.apart_snoc ha
  offLinked := h.offLinked
  offNodup := h.offNodup
  offApart p c hc := by
    rcases eq_or_ne p q with rfl | hp
    · rw [Function.update_self, hq, List.nil_append, List.mem_singleton]
      exact ne_of_mem_of_not_mem hc ho
    · rw [Function.update_of_ne hp]
      exact h.offApart p c hc
  loose c hc hp := h.loose c hc fun p hcp => hp p (mem_snoc.2 (.inl hcp))

/-- An element that is nowhere joins a queue whose last element is `b`. -/
theorem enqueue_snoc [DecidableEq α] (h : Represents l L off) (hb : (L q).getLast? = some b) (ho : a ∉ off)
    (ha : ∀ q, a ∉ L q) : Represents ((l.setNext b (some a)).setQueue q ⟨(l.queues q).first, some a⟩)
      (Function.update L q (L q ++ [a])) off := by
  have hbq : b ∈ L q := List.mem_of_getLast? hb
  refine ⟨?_, ?_, ?_, ?_, h.apart_snoc ha, ?_, h.offNodup, ?_, ?_⟩
  · intro p
    rcases eq_or_ne p q with rfl | hp
    · rw [Links.setQueue_queues, Function.update_self, Function.update_self, h.first,
        List.head?_append_of_ne_nil _ (List.ne_nil_of_mem hbq)]
    · simp [Function.update_of_ne hp, h.first]
  · intro p
    rcases eq_or_ne p q with rfl | hp
    · simp
    · simp [Function.update_of_ne hp, h.last]
  · intro p
    rcases eq_or_ne p q with rfl | hp
    · rw [Function.update_self]
      exact (h.linked p).snoc (h.nodup p) hb (ha p) (h.loose a ho ha)
    · rw [Function.update_of_ne hp]
      exact (h.linked p).update fun hbp => hp (h.apart p q b hbp hbq)
  · intro p
    rcases eq_or_ne p q with rfl | hp
    · rw [Function.update_self]
      exact (h.nodup p).append (List.nodup_singleton a) (by simpa using ha p)
    · rw [Function.update_of_ne hp]
      exact h.nodup p
  · exact h.offLinked.update fun hbo => h.offApart q b hbo hbq
  · intro p c hc
    rcases eq_or_ne p q with rfl | hp
    · rw [Function.update_self, List.mem_append, List.mem_singleton, not_or]
      exact ⟨h.offApart p c hc, ne_of_mem_of_not_mem hc ho⟩
    · rw [Function.update_of_ne hp]
      exact h.offApart p c hc
  · intro c hc hp
    have hcb : c ≠ b := by
      rintro rfl
      exact hp q (mem_snoc.2 (.inl hbq))
    rw [Links.setQueue_next, Links.setNext_next, Function.update_of_ne hcb]
    exact h.loose c hc fun p hcp => hp p (mem_snoc.2 (.inl hcp))

/-- The first element leaves its queue. -/
theorem dequeue [DecidableEq α] (h : Represents l L off) {rest : List α} (hq : L q = a :: rest) :
    Represents ((l.setQueue q ⟨rest.head?, rest.getLast?⟩).setNext a none) (Function.update L q rest) off := by
  have haq : a ∈ L q := by simp [hq]
  have hd := h.nodup q
  have hlk := h.linked q
  rw [hq, List.nodup_cons] at hd
  rw [hq] at hlk
  have hsub : ∀ p, ∀ c ∈ Function.update L q rest p, c ∈ L p ∧ c ≠ a := fun p c hc => (h.mem_tail hq).1 hc
  refine ⟨?_, ?_, ?_, ?_, ?_, ?_, h.offNodup, ?_, ?_⟩
  · intro p
    rcases eq_or_ne p q with rfl | hp
    · simp
    · simp [Function.update_of_ne hp, h.first]
  · intro p
    rcases eq_or_ne p q with rfl | hp
    · simp
    · simp [Function.update_of_ne hp, h.last]
  · intro p
    have hap : a ∉ Function.update L q rest p := fun hm => (hsub p a hm).2 rfl
    apply Linked.update hap
    rcases eq_or_ne p q with rfl | hp
    · rw [Function.update_self]
      exact hlk.2
    · rw [Function.update_of_ne hp]
      exact h.linked p
  · intro p
    rcases eq_or_ne p q with rfl | hp
    · rw [Function.update_self]
      exact hd.2
    · rw [Function.update_of_ne hp]
      exact h.nodup p
  · intro p p' c hc hc'
    exact h.apart p p' c (hsub p c hc).1 (hsub p' c hc').1
  · exact h.offLinked.update fun hao => h.offApart q a hao haq
  · exact fun p c hc hcp => h.offApart p c hc (hsub p c hcp).1
  · intro c hc hp
    rw [Links.setNext_next]
    rcases eq_or_ne c a with rfl | hca
    · exact Function.update_self ..
    · rw [Function.update_of_ne hca]
      apply h.loose c hc
      exact fun p hcp => hp p ((h.mem_tail hq).2 ⟨hcp, hca⟩)

/-- A queue is emptied without touching the links of its elements. -/
theorem detach (h : Represents l L []) (q : κ) :
    Represents (l.setQueue q ⟨none, none⟩) (Function.update L q []) (L q) := by
  have hsub : ∀ p, ∀ c ∈ Function.update L q [] p, c ∈ L p ∧ p ≠ q := by
    intro p c hc
    rcases eq_or_ne p q with rfl | hp
    · simp at hc
    · rw [Function.update_of_ne hp] at hc
      exact ⟨hc, hp⟩
  refine ⟨?_, ?_, ?_, ?_, ?_, h.linked q, h.nodup q, ?_, ?_⟩
  · intro p
    rcases eq_or_ne p q with rfl | hp
    · simp
    · simp [Function.update_of_ne hp, h.first]
  · intro p
    rcases eq_or_ne p q with rfl | hp
    · simp
    · simp [Function.update_of_ne hp, h.last]
  · intro p
    rcases eq_or_ne p q with rfl | hp
    · rw [Function.update_self]
      exact trivial
    · rw [Function.update_of_ne hp]
      exact h.linked p
  · intro p
    rcases eq_or_ne p q with rfl | hp
    · simp
    · rw [Function.update_of_ne hp]
      exact h.nodup p
  · exact fun p p' c hc hc' => h.apart p p' c (hsub p c hc).1 (hsub p' c hc').1
  · exact fun p c hc hcp => (hsub p c hcp).2 (h.apart p q c (hsub p c hcp).1 hc)
  · intro c hc hp
    apply h.loose c List.not_mem_nil
    intro p hcp
    rcases eq_or_ne p q with rfl | hpq
    · exact hc hcp
    · exact hp p (by rw [Function.update_of_ne hpq]; exact hcp)

end Moves

/-- The first element of the chain is unlinked from it. -/
theorem off_cons [DecidableEq α] (h : Represents l L (a :: off)) :
    l.next a = off.head? ∧ Represents (l.setNext a none) L off := by
  obtain ⟨hnext, hoff⟩ := h.offLinked
  obtain ⟨hao, hdo⟩ := List.nodup_cons.1 h.offNodup
  have haL : ∀ q, a ∉ L q := fun q => h.offApart q a List.mem_cons_self
  refine ⟨hnext, h.first, h.last, fun q => (h.linked q).update (haL q), h.nodup, h.apart, hoff.update hao, hdo, ?_, ?_⟩
  · exact fun q c hc => h.offApart q c (List.mem_cons_of_mem a hc)
  · intro c hc hq
    rw [Links.setNext_next]
    rcases eq_or_ne c a with rfl | hca
    · exact Function.update_self ..
    · rw [Function.update_of_ne hca]
      exact h.loose c (by simp [hca, hc]) hq

end Represents

end Myunix.Lib
