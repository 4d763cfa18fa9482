import Myunix.Fs.Open

/-!
# References taken and dropped by `kopen`

`Held s₀ s holds` compares a state with one before: beyond the references of `s₀` there are `holds p` references to the
node `p`, which count unless the node is one that is never freed; a node made since `s₀` has these references only, and
if it has none it was freed, and closed, once. `fs_node_reference`, `fs_finddir` and `fs_node_release` change `holds` at
one node. `findfile_recursive` adds one reference to what it returns, in whatever way it returns, so `kopen` does.
-/

namespace Myunix.Fs

open Lib

variable {σ : Type}

/-- The references taken since `s₀`. -/
structure Held (s₀ s : FsState σ) (holds : NodePtr → Nat) : Prop where
  next : (s₀.nextNode : Nat) ≤ s.nextNode
  mounts : s.mounts = s₀.mounts
  rootMount : s.rootMount = s₀.rootMount
  old : ∀ p : Nat, p < s₀.nextNode → (s.nodes p).refcount =
    if 0 < (s₀.nodes p).refcount then (s₀.nodes p).refcount + holds p else (s₀.nodes p).refcount
  oldLogs : ∀ p : Nat, p < s₀.nextNode →
    s.freed.count p = s₀.freed.count p ∧ s.closed.count p = s₀.closed.count p
  fresh : ∀ p : Nat, s₀.nextNode ≤ p → p < s.nextNode → (s.nodes p).refcount = holds p ∧
    s.freed.count p = (if holds p = 0 then 1 else 0) ∧
    s.closed.count p = if holds p = 0 ∧ (s.nodes p).info.hasClose then 1 else 0
  unused : ∀ p : Nat, s.nextNode ≤ p → holds p = 0 ∧ s.freed.count p = 0 ∧ s.closed.count p = 0

/-- One more reference to `p`. -/
def plus (holds : NodePtr → Nat) (p : NodePtr) : NodePtr → Nat := fun q => holds q + if p = q then 1 else 0

/-- One more reference to what was returned. -/
def plusOption (holds : NodePtr → Nat) : Option NodePtr → NodePtr → Nat
  | none => holds
  | some p => plus holds p

/-- The mounted nodes exist, and nothing was freed or closed that does not. -/
structure FsState.WF (s : FsState σ) : Prop where
  mounted : ∀ m, ((s.mounts m).node : Nat) < s.nextNode
  freed : ∀ p ∈ s.freed, (p : Nat) < s.nextNode
  closed : ∀ p ∈ s.closed, (p : Nat) < s.nextNode

/-! ## The operations on nodes -/

section Nodes

variable {s₀ s s' : FsState σ} {holds : NodePtr → Nat} {p : Nat} {D : Drivers σ}

theorem plus_self : plus holds p p = holds p + 1 := by simp [plus]

theorem plus_of_ne {q : NodePtr} (h : q ≠ p) : plus holds p q = holds q := by
  simp [plus, Ne.symm h]

theorem plusOption_plus (r : Option NodePtr) : plusOption (plus holds p) r = plus (plusOption holds r) p := by
  cases r with
  | none => rfl
  | some q =>
    funext x
    simp only [plusOption, plus]
    omega

/-- Nothing has been taken at the start. -/
theorem FsState.WF.held (h : s.WF) : Held s s fun _ => 0 := by
  refine ⟨Nat.le_refl _, rfl, rfl, fun p _ => ?_, fun p _ => ⟨rfl, rfl⟩, fun p h1 h2 => ?_, fun p hp => ?_⟩
  · split <;> simp
  · omega
  · refine ⟨rfl, List.count_eq_zero.2 fun hm => ?_, List.count_eq_zero.2 fun hm => ?_⟩
    · exact Nat.not_le_of_lt (h.freed p hm) hp
    · exact Nat.not_le_of_lt (h.closed p hm) hp

/-- The driver's state does not matter. -/
theorem Held.setDriver (h : Held s₀ s holds) (driver : σ) : Held s₀ { s with driver := driver } holds :=
  ⟨h.next, h.mounts, h.rootMount, h.old, h.oldLogs, h.fresh, h.unused⟩

/-- The count of an old node. -/
theorem Held.old_pos (h : Held s₀ s holds) (hp : p < s₀.nextNode) (hpos : 0 < (s.nodes p).refcount) :
    0 < (s₀.nodes p).refcount ∧ (s.nodes p).refcount = (s₀.nodes p).refcount + holds p := by
  have := h.old p hp
  split at this
  · exact ⟨‹_›, this⟩
  · omega

/-- Another count for `p`, with the logs as they are. -/
theorem Held.setRefcount {n : Int} {holds' : NodePtr → Nat} (h : Held s₀ s holds) (hne : ∀ q, q ≠ p → holds' q = holds q)
    (hold : p < s₀.nextNode → n = if 0 < (s₀.nodes p).refcount then (s₀.nodes p).refcount + holds' p
      else (s₀.nodes p).refcount)
    (hfresh : s₀.nextNode ≤ p → p < s.nextNode → n = holds' p ∧ 0 < holds p ∧ 0 < holds' p)
    (hunused : s.nextNode ≤ p → holds' p = 0) : Held s₀ (s.setRefcount p n) holds' := by
  have hother : ∀ q, q ≠ p → (s.setRefcount p n).nodes q = s.nodes q := fun q hq => Function.update_of_ne hq _ _
  have hself : (s.setRefcount p n).nodes p = { s.nodes p with refcount := n } := Function.update_self ..
  refine ⟨h.next, h.mounts, h.rootMount, fun q hq => ?_, h.oldLogs, fun q h1 h2 => ?_, fun q hq => ?_⟩
  · by_cases hqp : q = p
    · subst hqp
      rw [hself]
      exact hold hq
    · rw [hother q hqp, hne q hqp]
      exact h.old q hq
  · by_cases hqp : q = p
    · subst hqp
      obtain ⟨hn, hpos, hpos'⟩ := hfresh h1 h2
      obtain ⟨-, hf, hc⟩ := h.fresh q h1 h2
      rw [if_neg (by omega)] at hf hc
      rw [hself, if_neg (by omega), if_neg (by omega)]
      exact ⟨hn, hf, hc⟩
    · rw [hother q hqp, hne q hqp]
      exact h.fresh q h1 h2
  · obtain ⟨h0, hf, hc⟩ := h.unused q hq
    by_cases hqp : q = p
    · subst hqp
      exact ⟨hunused hq, hf, hc⟩
    · exact ⟨(hne q hqp).trans h0, hf, hc⟩

/-- References to an old node that is never freed are not counted. -/
theorem Held.immortal {holds' : NodePtr → Nat} (h : Held s₀ s holds) (hlt : p < s₀.nextNode)
    (hneg : ¬ 0 < (s.nodes p).refcount) (hne : ∀ q, q ≠ p → holds' q = holds q) : Held s₀ s holds' := by
  have hnext := h.next
  have hold := h.old p hlt
  have hbase : ¬ 0 < (s₀.nodes p).refcount := by
    intro hpos
    rw [if_pos hpos] at hold
    omega
  rw [if_neg hbase] at hold
  have hsame : s.setRefcount p (s.nodes p).refcount = s := by
    simp [FsState.setRefcount]
  rw [← hsame]
  exact h.setRefcount hne (fun _ => by rw [if_neg hbase, hold]) (fun h1 _ => by omega) (fun h1 => by omega)

/-- `fs_node_reference` of an existing or a held node. -/
theorem Held.reference (h : Held s₀ s holds) (hp : p < s₀.nextNode ∨ 0 < holds p)
    (hs : fsNodeReference s p = .ok s') : Held s₀ s' (plus holds p) := by
  simp only [fsNodeReference, bind_eq_ok, assert_eq_ok] at hs
  obtain ⟨-, hne, hs⟩ := hs
  have hnext := h.next
  split at hs
  · rename_i hpos
    simp only [bind_eq_ok, assert_eq_ok, pure_eq_ok] at hs
    obtain ⟨-, -, rfl⟩ := hs
    refine h.setRefcount (fun q hq => plus_of_ne hq) (fun hlt => ?_) (fun h1 h2 => ?_) (fun hle => ?_)
    · obtain ⟨hbase, heq⟩ := h.old_pos hlt hpos
      rw [if_pos hbase, heq, plus_self]
      omega
    · obtain ⟨heq, -⟩ := h.fresh p h1 h2
      rw [plus_self, heq]
      omega
    · have := (h.unused p hle).1
      omega
  · rename_i hneg
    rw [pure_eq_ok] at hs
    subst hs
    have hlt : p < s₀.nextNode := by
      by_contra hle
      by_cases hs : p < s.nextNode
      · have := (h.fresh p (by omega) hs).1
        omega
      · have := (h.unused p (by omega)).1
        omega
    exact h.immortal hlt hneg fun q hq => plus_of_ne hq

/-- A held node exists. -/
theorem Held.used (h : Held s₀ s (plus holds p)) : p < s.nextNode := by
  by_contra hle
  have := (h.unused p (by omega)).1
  rw [plus_self] at this
  omega

/-- The count of a held node that is counted. -/
theorem Held.held_pos (h : Held s₀ s (plus holds p)) (hpos : 0 < (s.nodes p).refcount) :
    (p < s₀.nextNode ∧ 0 < (s₀.nodes p).refcount ∧ (s.nodes p).refcount = (s₀.nodes p).refcount + (holds p + 1)) ∨
      (s₀.nextNode ≤ p ∧ (s.nodes p).refcount = holds p + 1) := by
  by_cases hlt : p < s₀.nextNode
  · obtain ⟨hbase, heq⟩ := h.old_pos hlt hpos
    rw [plus_self] at heq
    exact Or.inl ⟨hlt, hbase, heq⟩
  · have heq := (h.fresh p (by omega) h.used).1
    rw [plus_self] at heq
    exact Or.inr ⟨by omega, heq⟩

/-- **`fs_node_free`**: the node is freed, and closed if it has a callback. -/
theorem fsNodeFree_ok (hs : fsNodeFree D s p = .ok s') :
    s'.nodes = s.nodes ∧ s'.nextNode = s.nextNode ∧ s'.mounts = s.mounts ∧ s'.rootMount = s.rootMount ∧
      s'.freed = s.freed ++ [p] ∧ s'.closed = s.closed ++ if (s.nodes p).info.hasClose then [p] else [] := by
  simp only [fsNodeFree, bind_eq_ok] at hs
  obtain ⟨-, -, hs⟩ := hs
  split at hs
  · rename_i hclose
    simp only [bind_eq_ok, pure_eq_ok] at hs
    obtain ⟨driver, -, rfl⟩ := hs
    exact ⟨rfl, rfl, rfl, rfl, rfl, by rw [if_pos hclose]⟩
  · rename_i hclose
    rw [pure_eq_ok] at hs
    subst hs
    exact ⟨rfl, rfl, rfl, rfl, rfl, by rw [if_neg hclose, List.append_nil]⟩

/-- **`fs_node_release`**: one reference less, or the node is freed, or it is one that is never freed. -/
theorem fsNodeRelease_ok {r : Option NodePtr} (hs : fsNodeRelease D s p = .ok (r, s')) :
    (1 < (s.nodes p).refcount ∧ r = some p ∧ s' = s.setRefcount p ((s.nodes p).refcount - 1)) ∨
      ((s.nodes p).refcount = 1 ∧ fsNodeFree D (s.setRefcount p 0) p = .ok s') ∨
      (¬ 0 < (s.nodes p).refcount ∧ r = some p ∧ s' = s) := by
  unfold fsNodeRelease at hs
  split at hs
  · rename_i hpos
    have hself : ((s.setRefcount p ((s.nodes p).refcount - 1)).nodes p).refcount = (s.nodes p).refcount - 1 := by
      simp [FsState.setRefcount]
    dsimp only at hs
    rw [hself] at hs
    split at hs
    · rename_i hzero
      simp only [bind_eq_ok, pure_eq_ok, Prod.mk.injEq] at hs
      obtain ⟨s₁, hfree, -, rfl⟩ := hs
      rw [hzero] at hfree
      exact Or.inr (Or.inl ⟨by omega, hfree⟩)
    · simp only [pure_eq_ok, Prod.mk.injEq] at hs
      exact Or.inl ⟨by omega, hs.1.symm, hs.2.symm⟩
  · rename_i hneg
    simp only [pure_eq_ok, Prod.mk.injEq] at hs
    exact Or.inr (Or.inr ⟨hneg, hs.1.symm, hs.2.symm⟩)

theorem count_log {l : List NodePtr} {q : NodePtr} (hq : q ≠ p) (b : Bool) :
    (l ++ if b then [p] else []).count q = l.count q := by
  cases b with
  | false => simp
  | true => rw [if_pos rfl, List.count_append, List.count_singleton, if_neg (by simpa using Ne.symm hq), Nat.add_zero]

/-- Freeing a fresh node after its last reference. -/
theorem Held.free (h : Held s₀ s (plus holds p)) (h0 : holds p = 0) (hfresh : s₀.nextNode ≤ p)
    (hs : fsNodeFree D (s.setRefcount p 0) p = .ok s') : Held s₀ s' holds := by
  have hlt := h.used
  obtain ⟨-, hf, hc⟩ := h.fresh p hfresh hlt
  rw [plus_self, if_neg (by omega)] at hf hc
  obtain ⟨hnodes, hnext, hmounts, hroot, hfreed, hclosed⟩ := fsNodeFree_ok hs
  have hother : ∀ q, q ≠ p → s'.nodes q = s.nodes q := by
    intro q hq
    rw [hnodes]
    exact Function.update_of_ne hq _ _
  have hself : s'.nodes p = { s.nodes p with refcount := 0 } := by
    rw [hnodes]
    exact Function.update_self ..
  have hinfo : ((s.setRefcount p 0).nodes p).info = (s.nodes p).info := by simp [FsState.setRefcount]
  rw [hinfo] at hclosed
  have hcount : ∀ q, q ≠ p → s'.freed.count q = s.freed.count q ∧ s'.closed.count q = s.closed.count q := by
    intro q hq
    rw [hfreed, hclosed]
    exact ⟨count_log hq true, count_log hq _⟩
  refine ⟨by rw [hnext]; exact h.next, hmounts.trans h.mounts, hroot.trans h.rootMount, fun q hq => ?_, fun q hq => ?_,
    fun q h1 h2 => ?_, fun q hq => ?_⟩
  · have hqp : q ≠ p := by omega
    rw [hother q hqp, h.old q hq, plus_of_ne hqp]
  · have hqp : q ≠ p := by omega
    rw [(hcount q hqp).1, (hcount q hqp).2]
    exact h.oldLogs q hq
  · have hq2 : q < s.nextNode := by
      rw [hnext] at h2
      exact h2
    by_cases hqp : q = p
    · subst hqp
      have hf' : (s.setRefcount q 0).freed.count q = 0 := hf
      have hc' : (s.setRefcount q 0).closed.count q = 0 := hc
      rw [hself, h0, hfreed, hclosed, List.count_append, List.count_append, hf', hc']
      refine ⟨rfl, by simp, ?_⟩
      cases (s.nodes q).info.hasClose <;> simp
    · rw [hother q hqp, (hcount q hqp).1, (hcount q hqp).2]
      have := h.fresh q h1 hq2
      rwa [plus_of_ne hqp] at this
  · have hq2 : s.nextNode ≤ q := by
      rw [hnext] at hq
      exact hq
    have hqp : q ≠ p := by omega
    rw [(hcount q hqp).1, (hcount q hqp).2]
    have := h.unused q hq2
    rwa [plus_of_ne hqp] at this

/-- `fs_node_release` of a held node. -/
theorem Held.release {r : Option NodePtr} (h : Held s₀ s (plus holds p)) (hs : fsNodeRelease D s p = .ok (r, s')) :
    Held s₀ s' holds := by
  have hnext := h.next
  have hused := h.used
  have hne : ∀ q, q ≠ p → holds q = plus holds p q := fun q hq => (plus_of_ne hq).symm
  rcases fsNodeRelease_ok hs with ⟨hmore, -, rfl⟩ | ⟨hone, hfree⟩ | ⟨hneg, -, rfl⟩
  · refine h.setRefcount hne (fun hlt => ?_) (fun h1 h2 => ?_) (fun hle => absurd hle (by omega))
    · rcases h.held_pos (by omega) with ⟨-, hbase, heq⟩ | ⟨hle, -⟩
      · rw [if_pos hbase, heq]
        omega
      · omega
    · rcases h.held_pos (by omega) with ⟨hlt, -⟩ | ⟨-, heq⟩
      · omega
      · rw [plus_self]
        omega
  · -- only a fresh node can lose its last reference
    rcases h.held_pos (by omega) with ⟨-, hbase, heq⟩ | ⟨hle, heq⟩
    · omega
    · exact h.free (by omega) hle hfree
  · have hlt : p < s₀.nextNode := by
      by_contra hle
      have heq := (h.fresh p (by omega) hused).1
      rw [plus_self] at heq
      omega
    exact h.immortal hlt hneg hne

/-- The pointer stays if there are more references. -/
theorem Held.release_pointer {r : Option NodePtr} (h : Held s₀ s (plus holds p)) (hmore : 0 < holds p)
    (hs : fsNodeRelease D s p = .ok (r, s')) : r = some p := by
  rcases fsNodeRelease_ok hs with ⟨-, hr, -⟩ | ⟨hone, -⟩ | ⟨-, hr, -⟩
  · exact hr
  · rcases h.held_pos (by omega) with ⟨-, hbase, heq⟩ | ⟨-, heq⟩
    · omega
    · omega
  · exact hr

/-- `fs_open` of a held node. -/
theorem Held.opens {flags : Word} (h : Held s₀ s holds) (hp : 0 < holds p) (hs : fsOpen D s p flags = .ok s') :
    Held s₀ s' (plus holds p) := by
  simp only [fsOpen, bind_eq_ok] at hs
  obtain ⟨s₁, href, hs⟩ := hs
  have h₁ := h.reference (Or.inr hp) href
  split at hs
  · simp only [bind_eq_ok, pure_eq_ok] at hs
    obtain ⟨driver, -, rfl⟩ := hs
    exact h₁.setDriver driver
  · rw [pure_eq_ok] at hs
    subst hs
    exact h₁

theorem Held.new (h : Held s₀ s holds) (info : NodeInfo) :
    Held s₀ (fsNodeNew s info).2 (plus holds (fsNodeNew s info).1) := by
  have hnext := h.next
  obtain ⟨h0, hf0, hc0⟩ := h.unused s.nextNode (Nat.le_refl _)
  have hother : ∀ q, q ≠ s.nextNode → (fsNodeNew s info).2.nodes q = s.nodes q :=
    fun q hq => Function.update_of_ne hq _ _
  have hself : (fsNodeNew s info).2.nodes s.nextNode = ⟨info, 1⟩ := Function.update_self ..
  refine ⟨Nat.le_succ_of_le h.next, h.mounts, h.rootMount, fun q hq => ?_, h.oldLogs, fun q h1 h2 => ?_, fun q hq => ?_⟩
  · have hqn : q ≠ s.nextNode := by omega
    rw [hother q hqn, h.old q hq, fsNodeNew, plus_of_ne hqn]
  · by_cases hqn : q = s.nextNode
    · subst hqn
      rw [hself, fsNodeNew, plus_self, h0]
      exact ⟨rfl, hf0, hc0⟩
    · have hlt : q < s.nextNode := by
        have : q < s.nextNode + 1 := h2
        omega
      rw [hother q hqn, fsNodeNew, plus_of_ne hqn]
      exact h.fresh q h1 hlt
  · have hle : s.nextNode + 1 ≤ q := hq
    have hqn : q ≠ s.nextNode := by omega
    rw [fsNodeNew, plus_of_ne hqn]
    exact h.unused q (by omega)

/-- `fs_finddir` returns a new reference or nothing. -/
theorem Held.finddir {name : CString} {r : Option NodePtr} (h : Held s₀ s holds)
    (hs : fsFinddir D s p name = .ok (r, s')) : Held s₀ s' (plusOption holds r) := by
  unfold fsFinddir at hs
  split at hs
  · simp only [bind_eq_ok] at hs
    obtain ⟨⟨info, driver⟩, -, hs⟩ := hs
    cases info with
    | none =>
      rw [pure_eq_ok, Prod.mk.injEq] at hs
      obtain ⟨rfl, rfl⟩ := hs
      exact h.setDriver driver
    | some info =>
      rw [pure_eq_ok, Prod.mk.injEq] at hs
      obtain ⟨rfl, rfl⟩ := hs
      exact (h.setDriver driver).new info
  · rw [pure_eq_ok, Prod.mk.injEq] at hs
    obtain ⟨rfl, rfl⟩ := hs
    exact h

theorem Held.readlink {len : Int} {buf : List Byte} (h : Held s₀ s holds)
    (hs : fsReadlink D s p = .ok (len, buf, s')) : Held s₀ s' holds := by
  unfold fsReadlink at hs
  split at hs
  · simp only [bind_eq_ok, pure_eq_ok, Prod.mk.injEq] at hs
    obtain ⟨x, -, -, -, rfl⟩ := hs
    exact h.setDriver _
  · simp only [pure_eq_ok, Prod.mk.injEq] at hs
    obtain ⟨-, -, rfl⟩ := hs
    exact h

end Nodes

/-! ## Path lookup -/

section Lookup

variable {s₀ s s' : FsState σ} {holds : NodePtr → Nat} {D : Drivers σ}

theorem Held.link {node : NodePtr} {leading l : List CString} (h : Held s₀ s holds)
    (hs : linkElements D s node leading = .ok (l, s')) : Held s₀ s' holds := by
  simp only [linkElements, bind_eq_ok] at hs
  obtain ⟨⟨len, buf, s₁⟩, hread, -, -, hs⟩ := hs
  have h₁ := h.readlink hread
  dsimp only at hs
  split at hs
  · cases hs
  · simp only [bind_eq_ok, pure_eq_ok, Prod.mk.injEq] at hs
    obtain ⟨-, -, -, -, -, -, -, rfl⟩ := hs
    exact h₁

/-- What a search does to the references, for every way it can return. -/
def AddsResult (s₀ : FsState σ)
    (find : List CString → NodePtr → FsState σ → Kernel (Option NodePtr × FsState σ)) : Prop :=
  ∀ elements root s holds r s', (root : Nat) < s₀.nextNode → Held s₀ s holds → find elements root s = .ok (r, s') →
    Held s₀ s' (plusOption holds r)

/-- The loop turns the reference to its node into one to its result. -/
theorem findfileLoop_held (hwf : s₀.WF)
    {recurse : List CString → NodePtr → FsState σ → Kernel (Option NodePtr × FsState σ)} (hrec : AddsResult s₀ recurse)
    (elements leading : List CString) {node : NodePtr} {r : Option NodePtr} (h : Held s₀ s (plus holds node))
    (hs : findfileLoop D recurse leading elements node s = .ok (r, s')) : Held s₀ s' (plusOption holds r) := by
  induction elements generalizing leading node s with
  | nil =>
    rw [findfileLoop, Except.ok.injEq, Prod.mk.injEq] at hs
    obtain ⟨rfl, rfl⟩ := hs
    exact h
  | cons element rest ih =>
    simp only [findfileLoop, bind_eq_ok] at hs
    obtain ⟨⟨next, s₁⟩, hfind, ⟨_, s₂⟩, hrel, hs⟩ := hs
    have h₁ := h.finddir hfind
    rw [plusOption_plus] at h₁
    have h₂ := h₁.release hrel
    cases next with
    | none =>
      simp only [pure_eq_ok, Prod.mk.injEq] at hs
      obtain ⟨rfl, rfl⟩ := hs
      exact h₂
    | some node =>
      dsimp only at hs
      split at hs
      · -- a link: the reference to it is kept during the recursive search
        simp only [bind_eq_ok] at hs
        obtain ⟨⟨l, s₃⟩, hlink, hs⟩ := hs
        have h₃ := h₂.link hlink
        dsimp only at hs
        split at hs
        · cases hs
        · simp only [bind_eq_ok] at hs
          obtain ⟨⟨mount, l'⟩, -, ⟨next, s₄⟩, hrecurse, ⟨_, s₅⟩, hrel', hs⟩ := hs
          have hmounted : (s₃.mounts mount).node < s₀.nextNode := by
            rw [h₃.mounts]
            exact hwf.mounted mount
          have h₄ := hrec _ _ _ _ _ _ hmounted h₃ hrecurse
          rw [plusOption, plusOption_plus] at h₄
          have h₅ := h₄.release hrel'
          cases next with
          | none =>
            simp only [pure_eq_ok, Prod.mk.injEq] at hs
            obtain ⟨rfl, rfl⟩ := hs
            exact h₅
          | some node => exact ih (leading ++ [element]) h₅ hs
      · exact ih (leading ++ [element]) h₂ hs

theorem findfileRecursive_held (hwf : s₀.WF) (level : Nat) : AddsResult s₀ (findfileRecursive D level) := by
  induction level with
  | zero =>
    intro elements root s holds r s' _ h hs
    rw [findfileRecursive, Except.ok.injEq, Prod.mk.injEq] at hs
    obtain ⟨rfl, rfl⟩ := hs
    exact h
  | succ level ih =>
    intro elements root s holds r s' hroot h hs
    simp only [findfileRecursive, bind_eq_ok] at hs
    obtain ⟨s₁, href, hs⟩ := hs
    exact findfileLoop_held hwf ih elements [] (h.reference (Or.inl hroot) href) hs

end Lookup

theorem kopenNode_held {D : Drivers σ} {s s' : FsState σ} {path : CString} {r : Option NodePtr} (hwf : s.WF)
    (hs : kopenNode D s path = .ok (r, s')) : Held s s' (plusOption (fun _ => 0) r) := by
  simp only [kopenNode, bind_eq_ok] at hs
  obtain ⟨c, -, hs⟩ := hs
  split at hs
  · split at hs
    · simp only [bind_eq_ok, pure_eq_ok, Prod.mk.injEq] at hs
      obtain ⟨s₁, href, rfl, rfl⟩ := hs
      exact hwf.held.reference (Or.inl (hwf.mounted _)) href
    · simp only [pure_eq_ok, Prod.mk.injEq] at hs
      obtain ⟨rfl, rfl⟩ := hs
      exact hwf.held
  · simp only [findfile, bind_eq_ok] at hs
    obtain ⟨l, -, hs⟩ := hs
    split at hs
    · cases hs
    · simp only [bind_eq_ok] at hs
      obtain ⟨⟨mount, l'⟩, -, hs⟩ := hs
      exact findfileRecursive_held hwf 10 _ _ _ _ _ _ (hwf.mounted mount) hwf.held hs

/-- **`kopen`** ends with one reference more, to what it returns. -/
theorem kopen_held {D : Drivers σ} {s s' : FsState σ} {path : CString} {flags : Word} {r : Option NodePtr} (hwf : s.WF)
    (hs : kopen D s path flags = .ok (r, s')) : Held s s' (plusOption (fun _ => 0) r) := by
  simp only [kopen, bind_eq_ok] at hs
  obtain ⟨⟨node, s₁⟩, hfind, hs⟩ := hs
  have h₁ := kopenNode_held hwf hfind
  cases node with
  | none =>
    simp only [pure_eq_ok, Prod.mk.injEq] at hs
    obtain ⟨rfl, rfl⟩ := hs
    exact h₁
  | some node =>
    simp only [bind_eq_ok] at hs
    obtain ⟨s₂, hopen, hrel⟩ := hs
    have h₂ : Held s s₂ (plus (plus (fun _ => 0) node) node) := h₁.opens (by rw [plusOption, plus_self]; omega) hopen
    rw [h₂.release_pointer (by rw [plus_self]; omega) hrel]
    exact h₂.release hrel

/-- **References.** After a call of `kopen` that returns: the counts of the nodes that existed are what they were, except
that of the returned node, which is one more unless it is negative; a returned new node has count 1 and was neither
freed nor closed; every other new node was freed once and closed once if it has a close callback. -/
theorem kopen_references (D : Drivers σ) (s s' : FsState σ) (path : CString) (flags : Word) (r : Option NodePtr)
    (hwf : s.WF) (hs : kopen D s path flags = .ok (r, s')) :
    (∀ p : Nat, p < s.nextNode → (s'.nodes p).refcount =
      if r = some p ∧ 0 < (s.nodes p).refcount then (s.nodes p).refcount + 1 else (s.nodes p).refcount) ∧
    (∀ p : Nat, p < s.nextNode → s'.freed.count p = s.freed.count p ∧ s'.closed.count p = s.closed.count p) ∧
    ∀ p : Nat, s.nextNode ≤ p → p < s'.nextNode →
      if r = some p then (s'.nodes p).refcount = 1 ∧ s'.freed.count p = 0 ∧ s'.closed.count p = 0
      else s'.freed.count p = 1 ∧ s'.closed.count p = if (s'.nodes p).info.hasClose then 1 else 0 := by
  have h := kopen_held hwf hs
  have hcount : ∀ p : Nat, plusOption (fun _ => 0) r p = if r = some p then 1 else 0 := by
    intro p
    cases r with
    | none => simp [plusOption]
    | some q => simp [plusOption, plus]
  refine ⟨fun p hp => ?_, h.oldLogs, fun p h1 h2 => ?_⟩
  · rw [h.old p hp, hcount p]
    by_cases hr : r = some p
    · simp [hr]
    · simp [hr]
  · have hf := h.fresh p h1 h2
    rw [hcount p] at hf
    by_cases hr : r = some p
    · simpa [hr] using hf
    · simpa [hr] using hf.2

/-- A driver whose directories have a link `l` to `a`, and files under all other names. -/
def linkDrivers : Drivers Unit where
  finddir _ _ name := .ok (some ⟨false, name.bytes = [0x6C], false, true, false, true, 0⟩, ())
  readlink _ _ := .ok (1, [0x61, 0], ())
  opens _ _ _ := .ok ()
  closes _ _ := .ok ()

/-- Ten nodes, the directory 1 among them, with count `n` and mounted as the root. -/
def mountedRoot (n : Int) : FsState Unit :=
  ⟨fun _ => ⟨⟨true, false, false, false, true, false, 0⟩, n⟩, 10, [], [], fun _ => ⟨rootElement, 1, [], 1⟩, 1, some 0, ()⟩

theorem mountedRoot_wf (n : Int) : (mountedRoot n).WF := by
  refine ⟨fun _ => by simp [mountedRoot], fun p hp => ?_, fun p hp => ?_⟩
  · cases hp
  · cases hp

/-- Opening `"/l"` makes two nodes: the link, which is freed and closed, and the file, which is returned. -/
theorem kopen_references_link :
    ∃ s', kopen linkDrivers (mountedRoot 3) ⟨[0x2F, 0x6C], by decide⟩ 0 = .ok (some 11, s') ∧
      (s'.nodes 1).refcount = 3 ∧ (s'.nodes 11).refcount = 1 ∧ s'.freed.count 10 = 1 ∧ s'.closed.count 10 = 1 := by
  refine ⟨_, rfl, ?_⟩
  have h := kopen_references linkDrivers (mountedRoot 3) _ ⟨[0x2F, 0x6C], by decide⟩ 0 (some 11) (mountedRoot_wf 3) rfl
  exact ⟨h.1 1 (by decide), (h.2.2 11 (by decide) (by decide)).1, (h.2.2 10 (by decide) (by decide)).1,
    (h.2.2 10 (by decide) (by decide)).2⟩

/-- Opening `"/"` when the root is a node that is never freed, as `tty_node` is, leaves its count at -1. -/
theorem kopen_immortal :
    ∃ s', kopen linkDrivers (mountedRoot (-1)) rootElement 0 = .ok (some 1, s') ∧ (s'.nodes 1).refcount = -1 :=
  ⟨_, rfl, rfl⟩

end Myunix.Fs
