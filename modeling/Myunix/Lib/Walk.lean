import Mathlib.Data.Fintype.EquivFin
import Mathlib.Data.List.Count
import Mathlib.Logic.Relation

/-!
# Walks that remember nothing

A walk goes to a node, and from there to each node that the node names, and so on. It does not remember where it has been.

* `collect` puts together what a function returns for the elements of a list.
* `walk succ fuel a` lists the nodes of a walk from `a`, one entry for each time it comes to one; `none` when it goes
  deeper than `fuel`. It ends exactly when no path from `a` goes on for ever (`walk_acc`, `exists_walk`), which among
  finitely many nodes means that no node leads back to itself (`acc_iff_acyclic`).
* `walk_perm` says where the entries come from: the start, and one for each name in an entry.
* `count_eq_one_iff` says when a walk comes to each node once.
-/

namespace Myunix.Lib

universe u v

/-! ## Putting results together -/

/-- What `f` returns for the elements of a list, in turn. -/
def collect {α : Type u} {β : Type v} (f : α → Option (List β)) : List α → Option (List β)
  | [] => some []
  | a :: l => do
    let x ← f a
    let y ← collect f l
    return x ++ y

section Collect

variable {α γ : Type u} {β : Type v} {f g : α → Option (List β)} {l l₁ l₂ : List α} {a : α} {r : List β}

@[simp] theorem collect_nil : collect f [] = some [] := rfl

theorem collect_cons_eq_some :
    collect f (a :: l) = some r ↔ ∃ x y, f a = some x ∧ collect f l = some y ∧ r = x ++ y := by
  simp only [collect, Option.bind_eq_bind, Option.bind_eq_some_iff, Option.pure_def, Option.some.injEq]
  constructor
  · rintro ⟨x, hx, y, hy, rfl⟩
    exact ⟨x, y, hx, hy, rfl⟩
  · rintro ⟨x, y, hx, hy, rfl⟩
    exact ⟨x, hx, y, hy, rfl⟩

theorem collect_append : collect f (l₁ ++ l₂) = (collect f l₁).bind fun x => (collect f l₂).map (x ++ ·) := by
  induction l₁ with
  | nil =>
    rw [List.nil_append, collect_nil, Option.bind_some]
    cases collect f l₂ <;> rfl
  | cons a l ih =>
    rw [List.cons_append, collect, collect, ih]
    cases f a with
    | none => rfl
    | some x =>
      cases collect f l with
      | none => rfl
      | some y =>
        cases collect f l₂ with
        | none => rfl
        | some z => simp

theorem collect_singleton : collect f [a] = f a := by
  rw [collect]
  cases f a <;> simp

theorem collect_flatMap (k : γ → List α) (l : List γ) :
    collect f (l.flatMap k) = collect (fun c => collect f (k c)) l := by
  induction l with
  | nil => rfl
  | cons c l ih =>
    rw [List.flatMap_cons, collect_append, ih]
    simp only [collect]
    cases collect f (k c) with
    | none => rfl
    | some x => cases collect (fun c => collect f (k c)) l <;> rfl

theorem collect_map (k : γ → α) (l : List γ) : collect f (l.map k) = collect (fun c => f (k c)) l := by
  induction l with
  | nil => rfl
  | cons c l ih => rw [List.map_cons, collect, collect, ih]

/-- Only the elements with `p` return anything. -/
theorem collect_filter (p : α → Prop) [DecidablePred p] (l : List α) :
    collect (fun a => if p a then f a else some []) l = collect f (l.filter p) := by
  induction l with
  | nil => rfl
  | cons a l ih =>
    by_cases hp : p a
    · rw [List.filter_cons_of_pos (by simpa using hp), collect, collect, ih, if_pos hp]
    · rw [List.filter_cons_of_neg (by simpa using hp), collect, ih, if_neg hp]
      cases collect f (l.filter p) <;> rfl

theorem collect_congr (h : ∀ a ∈ l, f a = g a) : collect f l = collect g l := by
  induction l with
  | nil => rfl
  | cons a l ih =>
    rw [collect, collect, h a List.mem_cons_self, ih fun b hb => h b (List.mem_cons_of_mem a hb)]

/-- A function that returns more than another one. -/
theorem collect_mono (h : ∀ a ∈ l, ∀ x, f a = some x → g a = some x) (hr : collect f l = some r) :
    collect g l = some r := by
  induction l generalizing r with
  | nil => exact hr
  | cons a l ih =>
    obtain ⟨x, y, hx, hy, rfl⟩ := collect_cons_eq_some.1 hr
    refine collect_cons_eq_some.2 ⟨x, y, h a List.mem_cons_self x hx, ?_, rfl⟩
    exact ih (fun b hb => h b (List.mem_cons_of_mem a hb)) hy

/-- It returns when `f` does for each element. -/
theorem collect_isSome : (∃ r, collect f l = some r) ↔ ∀ a ∈ l, ∃ x, f a = some x := by
  induction l with
  | nil => simp
  | cons a l ih =>
    rw [List.forall_mem_cons, ← ih]
    constructor
    · rintro ⟨r, hr⟩
      obtain ⟨x, y, hx, hy, -⟩ := collect_cons_eq_some.1 hr
      exact ⟨⟨x, hx⟩, y, hy⟩
    · rintro ⟨⟨x, hx⟩, y, hy⟩
      exact ⟨x ++ y, collect_cons_eq_some.2 ⟨x, y, hx, hy, rfl⟩⟩

theorem mem_collect {b : β} (hr : collect f l = some r) : b ∈ r ↔ ∃ a ∈ l, ∃ x, f a = some x ∧ b ∈ x := by
  induction l generalizing r with
  | nil =>
    rw [collect_nil, Option.some.injEq] at hr
    simp [← hr]
  | cons a l ih =>
    obtain ⟨x, y, hx, hy, rfl⟩ := collect_cons_eq_some.1 hr
    simp [ih hy, hx]

/-- A function that returns something more at the end of each part. -/
theorem collect_more {k : α → List β} (hr : collect (fun a => (f a).map (· ++ k a)) l = some r) :
    ∃ r', collect f l = some r' ∧ r.Perm (r' ++ l.flatMap k) := by
  induction l generalizing r with
  | nil =>
    rw [collect_nil, Option.some.injEq] at hr
    exact ⟨[], rfl, by simp [← hr]⟩
  | cons a l ih =>
    obtain ⟨x, y, hx, hy, rfl⟩ := collect_cons_eq_some.1 hr
    obtain ⟨x', hx', rfl⟩ := Option.map_eq_some_iff.1 hx
    obtain ⟨y', hy', hperm⟩ := ih hy
    refine ⟨x' ++ y', collect_cons_eq_some.2 ⟨x', y', hx', hy', rfl⟩, ?_⟩
    rw [List.flatMap_cons, List.append_assoc, List.append_assoc]
    refine List.Perm.append_left x' ((hperm.append_left (k a)).trans ?_)
    rw [← List.append_assoc, ← List.append_assoc]
    exact List.Perm.append_right _ List.perm_append_comm

theorem collect_more_isSome (k : α → List β) (h : ∃ r, collect f l = some r) :
    ∃ r, collect (fun a => (f a).map (· ++ k a)) l = some r := by
  rw [collect_isSome] at h ⊢
  intro a ha
  obtain ⟨x, hx⟩ := h a ha
  exact ⟨x ++ k a, by rw [hx]; rfl⟩

/-- Two functions whose parts agree in a count. -/
theorem countP_collect {δ : Type v} {k : α → Option (List δ)} {p : β → Bool} {q : δ → Bool} {t : List δ}
    (h : ∀ a ∈ l, ∀ x y, f a = some x → k a = some y → x.countP p = y.countP q) (hr : collect f l = some r)
    (ht : collect k l = some t) : r.countP p = t.countP q := by
  induction l generalizing r t with
  | nil =>
    rw [collect_nil, Option.some.injEq] at hr ht
    simp [← hr, ← ht]
  | cons a l ih =>
    obtain ⟨x, r', hx, hr', rfl⟩ := collect_cons_eq_some.1 hr
    obtain ⟨y, t', hy, ht', rfl⟩ := collect_cons_eq_some.1 ht
    rw [List.countP_append, List.countP_append, h a List.mem_cons_self x y hx hy,
      ih (fun b hb => h b (List.mem_cons_of_mem a hb)) hr' ht']

end Collect

/-! ## Walks -/

/-- The nodes of a walk from a node, at most `fuel` deep. -/
def walk {α : Type u} (succ : α → List α) : Nat → α → Option (List α)
  | 0, _ => none
  | fuel + 1, a => (collect (walk succ fuel) (succ a)).map (a :: ·)

section Walk

variable {α : Type u} {succ : α → List α} {a b c : α} {fuel : Nat} {l s : List α}

theorem walk_succ_eq_some : walk succ (fuel + 1) a = some s ↔
    ∃ r, collect (walk succ fuel) (succ a) = some r ∧ s = a :: r := by
  rw [walk, Option.map_eq_some_iff]
  exact ⟨fun ⟨r, hr, h⟩ => ⟨r, hr, h.symm⟩, fun ⟨r, hr, h⟩ => ⟨r, hr, h.symm⟩⟩

theorem walk_mono {fuel' : Nat} (h : walk succ fuel a = some s) (hle : fuel ≤ fuel') :
    walk succ fuel' a = some s := by
  induction fuel generalizing a s fuel' with
  | zero => cases h
  | succ fuel ih =>
    obtain ⟨fuel', rfl⟩ := Nat.exists_eq_add_of_le' (Nat.lt_of_lt_of_le (Nat.succ_pos fuel) hle)
    obtain ⟨r, hr, rfl⟩ := walk_succ_eq_some.1 h
    exact walk_succ_eq_some.2 ⟨r, collect_mono (fun b _ x hx => ih hx (Nat.le_of_succ_le_succ hle)) hr, rfl⟩

/-- A walk that ends has no path that goes on for ever. -/
theorem walk_acc (h : walk succ fuel a = some s) : Acc (fun b a => b ∈ succ a) a := by
  induction fuel generalizing a s with
  | zero => cases h
  | succ fuel ih =>
    obtain ⟨r, hr, -⟩ := walk_succ_eq_some.1 h
    refine Acc.intro a fun b hb => ?_
    obtain ⟨x, hx⟩ := collect_isSome.1 ⟨r, hr⟩ b hb
    exact ih hx

/-- Some depth is enough for all nodes of a list. -/
theorem exists_fuel (h : ∀ a ∈ l, ∃ fuel s, walk succ fuel a = some s) :
    ∃ fuel, ∀ a ∈ l, ∃ s, walk succ fuel a = some s := by
  induction l with
  | nil => exact ⟨0, fun a ha => absurd ha List.not_mem_nil⟩
  | cons a l ih =>
    obtain ⟨n, s, hs⟩ := h a List.mem_cons_self
    obtain ⟨m, hm⟩ := ih fun b hb => h b (List.mem_cons_of_mem a hb)
    refine ⟨max n m, List.forall_mem_cons.2 ⟨⟨s, walk_mono hs (Nat.le_max_left n m)⟩, fun b hb => ?_⟩⟩
    obtain ⟨t, ht⟩ := hm b hb
    exact ⟨t, walk_mono ht (Nat.le_max_right n m)⟩

/-- **A walk ends** when no path goes on for ever. -/
theorem exists_walk (h : Acc (fun b a => b ∈ succ a) a) : ∃ fuel s, walk succ fuel a = some s := by
  induction h with
  | intro a _ ih =>
    obtain ⟨fuel, hfuel⟩ := exists_fuel ih
    obtain ⟨r, hr⟩ := collect_isSome.2 hfuel
    exact ⟨fuel + 1, a :: r, walk_succ_eq_some.2 ⟨r, hr, rfl⟩⟩

/-- **Where the entries come from**, for several walks. -/
theorem collect_walk_perm (h : ∀ a ∈ l, ∀ s, walk succ fuel a = some s → s.Perm (a :: s.flatMap succ)) {r : List α}
    (hr : collect (walk succ fuel) l = some r) : r.Perm (l ++ r.flatMap succ) := by
  induction l generalizing r with
  | nil =>
    rw [collect_nil, Option.some.injEq] at hr
    simp [← hr]
  | cons a l ih =>
    obtain ⟨x, y, hx, hy, rfl⟩ := collect_cons_eq_some.1 hr
    have hxp := h a List.mem_cons_self x hx
    have hyp := ih (fun b hb => h b (List.mem_cons_of_mem a hb)) hy
    refine (hxp.append hyp).trans ?_
    rw [List.flatMap_append, List.cons_append, List.cons_append]
    refine List.Perm.cons a ?_
    rw [← List.append_assoc, ← List.append_assoc]
    exact List.Perm.append_right _ List.perm_append_comm

theorem walk_perm (h : walk succ fuel a = some s) : s.Perm (a :: s.flatMap succ) := by
  induction fuel generalizing a s with
  | zero => cases h
  | succ fuel ih =>
    obtain ⟨r, hr, rfl⟩ := walk_succ_eq_some.1 h
    have hperm := collect_walk_perm (fun b _ s hs => ih hs) hr
    rw [List.flatMap_cons]
    exact hperm.cons a

/-- **What a walk comes to.** -/
theorem mem_walk (h : walk succ fuel a = some s) : c ∈ s ↔ Relation.ReflTransGen (fun a b => b ∈ succ a) a c := by
  constructor
  · induction fuel generalizing a s with
    | zero => cases h
    | succ fuel ih =>
      obtain ⟨r, hr, rfl⟩ := walk_succ_eq_some.1 h
      intro hc
      rcases List.mem_cons.1 hc with rfl | hc
      · exact .refl
      · obtain ⟨b, hb, x, hx, hcx⟩ := (mem_collect hr).1 hc
        exact .head hb (ih hx hcx)
  · -- the entries are closed under `succ`
    intro hpath
    have hperm := walk_perm h
    induction hpath with
    | refl => exact hperm.mem_iff.2 List.mem_cons_self
    | tail _ hstep ih => exact hperm.mem_iff.2 (List.mem_cons_of_mem a (List.mem_flatMap.2 ⟨_, ih, hstep⟩))

end Walk

/-! ## Termination among finitely many nodes -/

section Acyclic

variable {α : Type u} {r : α → α → Prop} {a b : α}

theorem acc_irrefl (h : Acc r a) : ¬ r a a := by
  induction h with
  | intro a _ ih => exact fun ha => ih a ha ha

/-- Where no path goes on for ever, none comes back. -/
theorem not_cycle_of_acc (h : Acc (fun b a => r a b) a) (hab : Relation.ReflTransGen r a b) :
    ¬ Relation.TransGen r b b := by
  have hb : Acc (fun b a => r a b) b := by
    induction hab with
    | refl => exact h
    | tail _ hstep ih => exact ih.inv hstep
  exact fun hcycle => acc_irrefl hb.transGen (Relation.transGen_swap.2 hcycle)

/-- **Paths end** exactly when no node that they come to leads back to itself. -/
theorem acc_iff_acyclic [Finite α] : Acc (fun b a => r a b) a ↔
    ∀ b, Relation.ReflTransGen r a b → ¬ Relation.TransGen r b b := by
  refine ⟨fun h b => not_cycle_of_acc h, fun h => ?_⟩
  -- on the nodes that the paths come to, "leads to" is a strict order
  let before (x y : { b // Relation.ReflTransGen r a b }) : Prop := Relation.TransGen r y.1 x.1
  have : IsTrans _ before := ⟨fun _ _ _ hxy hyz => hyz.trans hxy⟩
  have : Std.Irrefl before := ⟨fun x => h x.1 x.2⟩
  have : Finite { b // Relation.ReflTransGen r a b } := Finite.of_injective Subtype.val Subtype.val_injective
  have hwf : WellFounded before := Finite.wellFounded_of_trans_of_irrefl before
  have hall : ∀ x : { b // Relation.ReflTransGen r a b }, Acc (fun b a => r a b) x.1 := by
    intro x
    induction x using hwf.induction with
    | _ x ih => exact Acc.intro x.1 fun b hb => ih ⟨b, x.2.tail hb⟩ (.single hb)
  exact hall ⟨a, .refl⟩

end Acyclic

/-! ## Once -/

/-- Walks from `roots` visit a node. -/
def Visited {α : Type u} (succ : α → List α) (roots : List α) (a : α) : Prop :=
  ∃ r ∈ roots, Relation.ReflTransGen (fun a b => b ∈ succ a) r a

/-- Exactly one place leads walks from `roots` to `c`: `c` is one of the roots, or a name in a node that they visit. -/
def EnteredOnce {α : Type u} [BEq α] (succ : α → List α) (roots : List α) (c : α) : Prop :=
  roots.count c = 1 ∧ (∀ a, Visited succ roots a → c ∉ succ a) ∨
    c ∉ roots ∧ ∃ a, Visited succ roots a ∧ (succ a).count c = 1 ∧ ∀ b, Visited succ roots b → c ∈ succ b → b = a

section Once

variable {α : Type u} {succ : α → List α} {roots s : List α} {a c : α} {fuel : Nat}

theorem mem_walks (h : collect (walk succ fuel) roots = some s) : c ∈ s ↔ Visited succ roots c := by
  rw [mem_collect h]
  constructor
  · rintro ⟨r, hr, x, hx, hc⟩
    exact ⟨r, hr, (mem_walk hx).1 hc⟩
  · rintro ⟨r, hr, hpath⟩
    obtain ⟨x, hx⟩ := collect_isSome.1 ⟨s, h⟩ r hr
    exact ⟨r, hr, x, hx, (mem_walk hx).2 hpath⟩

variable [DecidableEq α]

/-- The entries for a node are as many as the places that lead to it, counted for each visit. -/
theorem count_walks (h : collect (walk succ fuel) roots = some s) (c : α) :
    s.count c = roots.count c + (s.flatMap succ).count c := by
  rw [← List.count_append]
  exact (collect_walk_perm (fun _ _ _ hs => walk_perm hs) h).count_eq c

/-- A node that is named in one node only. -/
theorem count_flatMap_of_unique (h : ∀ b ∈ s, c ∈ succ b → b = a) :
    (s.flatMap succ).count c = s.count a * (succ a).count c := by
  induction s with
  | nil => simp
  | cons b s ih =>
    rw [List.flatMap_cons, List.count_append, ih fun d hd => h d (List.mem_cons_of_mem b hd), List.count_cons]
    by_cases hba : b = a
    · subst hba
      simp [Nat.add_mul, Nat.add_comm]
    · have hnot : (succ b).count c = 0 := List.count_eq_zero.2 fun hc => hba (h b List.mem_cons_self hc)
      simp [hnot, hba]

/-- A name that occurs once occurs in one node only. -/
theorem unique_of_count_flatMap (h : (s.flatMap succ).count c = 1) : ∃ a ∈ s, (succ a).count c = 1 ∧
    ∀ b ∈ s, c ∈ succ b → b = a := by
  induction s with
  | nil => simp at h
  | cons d s ih =>
    rw [List.flatMap_cons, List.count_append] at h
    by_cases hd : c ∈ succ d
    · have hpos : 0 < (succ d).count c := List.count_pos_iff.2 hd
      refine ⟨d, List.mem_cons_self, by omega, List.forall_mem_cons.2 ⟨fun _ => rfl, fun b hb hc => ?_⟩⟩
      have hrest : (s.flatMap succ).count c = 0 := by omega
      exact absurd (List.mem_flatMap.2 ⟨b, hb, hc⟩) (List.count_eq_zero.1 hrest)
    · have hzero : (succ d).count c = 0 := List.count_eq_zero.2 hd
      obtain ⟨a, ha, hone, hunique⟩ := ih (by omega)
      exact ⟨a, List.mem_cons_of_mem d ha, hone, List.forall_mem_cons.2 ⟨fun hc => absurd hc hd, hunique⟩⟩

/-- **Once.** Walks come once to each of the nodes behind the root `r` that matter, among them all that name others, if
and only if each of these is entered once. -/
theorem count_eq_one_iff {r : α} {Q : α → Prop} (h : collect (walk succ fuel) roots = some s) (hr : r ∈ roots)
    (hQ : ∀ a, succ a ≠ [] → Q a) :
    (∀ c, Relation.ReflTransGen (fun a b => b ∈ succ a) r c → Q c → s.count c = 1) ↔
      ∀ c, Relation.ReflTransGen (fun a b => b ∈ succ a) r c → Q c → EnteredOnce succ roots c := by
  constructor
  · intro hone c hpath hQc
    have hcount := (count_walks h c).symm.trans (hone c hpath hQc)
    by_cases hroot : c ∈ roots
    · have hpos : 0 < roots.count c := List.count_pos_iff.2 hroot
      refine Or.inl ⟨by omega, fun a ha hc => ?_⟩
      have hnone : (s.flatMap succ).count c = 0 := by omega
      exact List.count_eq_zero.1 hnone (List.mem_flatMap.2 ⟨a, (mem_walks h).2 ha, hc⟩)
    · have hzero : roots.count c = 0 := List.count_eq_zero.2 hroot
      have hflat : (s.flatMap succ).count c = 1 := by omega
      obtain ⟨a, ha, hnamed, hunique⟩ := unique_of_count_flatMap hflat
      exact Or.inr ⟨hroot, a, (mem_walks h).1 ha, hnamed, fun b hb hc => hunique b ((mem_walks h).2 hb) hc⟩
  · intro honce c hpath
    -- along the path from `r`
    induction hpath with
    | refl =>
      intro hQr
      rcases honce r .refl hQr with ⟨hroot, hnot⟩ | ⟨hnot, -⟩
      · rw [count_walks h, hroot, List.count_eq_zero.2]
        intro hc
        obtain ⟨a, ha, hc⟩ := List.mem_flatMap.1 hc
        exact hnot a ((mem_walks h).1 ha) hc
      · exact absurd hr hnot
    | tail hpath hstep ih =>
      rename_i b c
      intro hQc
      have hb : Visited succ roots b := ⟨r, hr, hpath⟩
      have hcountb := ih (hQ b (List.ne_nil_of_mem hstep))
      rcases honce c (hpath.tail hstep) hQc with ⟨-, hnot⟩ | ⟨hroot, a, ha, hnamed, hunique⟩
      · exact absurd hstep (hnot b hb)
      · obtain rfl : b = a := hunique b hb hstep
        rw [count_walks h, List.count_eq_zero.2 hroot,
          count_flatMap_of_unique fun d hd hc => hunique d ((mem_walks h).1 hd) hc, hcountb, hnamed]

end Once

end Myunix.Lib
