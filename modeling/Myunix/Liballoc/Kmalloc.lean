import Myunix.Liballoc.Places
import Myunix.Liballoc.Init

/-!
# `kmalloc`

The loop of `kmalloc` goes along the majors, from the best bet or from the first one, and takes the first gap that is
large enough; where there is none in any major, it makes a new one behind the last.

* `Holds.place`: what a place in a block makes of the heap.
* `growAfter_spec`: what a new major makes of it.
* `kmallocFrom_spec` is the loop, and **`kmalloc_spec`** the function: a new minor is in the first gap of a major, or in
  a new major because no major had a gap (`Places`); the kernel stops when there are no pages for it, or no major.
-/

namespace Myunix.Liballoc

open Lib Pmm Vmm Syscall

/-- The major `M'` is `M` with the minor `x` at the start of its first gap for `size` bytes. -/
structure GapFilled (M : Major) (size : Nat) (x : Minor) (M' : Major) : Prop where
  addr : M'.addr = M.addr
  pages : M'.pages = M.pages
  minors : ∃ l₁ l₂, M.gapFor size = some (l₁, l₂) ∧ M'.minors = l₁ ++ x :: l₂ ∧
    x.addr = endOf Minor.stop (M.addr + 24) l₁

/-- Where `kmalloc` puts the minor `x`: in a gap of a major, or in a new major when there is no gap. -/
inductive Places (vm : Vm) (Ms : List Major) (size : Nat) (x : Minor) : List Major → Prop
  | gap (pre : List Major) (M M' : Major) (post : List Major) (hMs : Ms = pre ++ M :: post)
      (hM' : GapFilled M size x M') : Places vm Ms size x (pre ++ M' :: post)
  | new (N : Major) (hnone : ∀ M ∈ Ms, M.gapFor size = none) (hleft : PagesLeft vm (newPages size))
      (hpages : N.pages = newPages size) (hN : N.minors = [x]) : Places vm Ms size x (Ms ++ [N])

/-- What a place for the minor `x` leaves: it is apart from the others, whose bytes are as before. -/
structure Placed (vm : Vm) (Ms : List Major) (m : Memory) (size reqSize : Nat) (x : Minor) (h' : Heap)
    (Ms' : List Major) (m' : Memory) : Prop where
  holds : Holds h' Ms' m'
  unlocked : h'.spinlock = 0#32
  size_eq : x.size = size
  reqSize_eq : x.reqSize = reqSize
  spares : Spares vm (HeapPage Ms) h'.vm (HeapPage Ms')
  apart : ∀ y, Live Ms y → x.stop ≤ y.addr ∨ y.stop ≤ x.addr
  kept : ∀ y, Live Ms y → ∀ a, y.addr + 24 ≤ a → a < y.stop → m' a = m a

section Place

variable {P : Nat → Prop} {h : Heap} {Ms pre post : List Major} {m m' : Memory} {M N : Major} {x y : Minor}
  {l₁ l₂ : List Minor} {size reqSize : Nat}

theorem heapPage_update {n : Nat} (haddr : N.addr = M.addr) (hpages : N.pages = M.pages) :
    HeapPage (pre ++ N :: post) n ↔ HeapPage (pre ++ M :: post) n := by
  simp only [HeapPage, List.mem_append, List.mem_cons, or_and_right, exists_or, exists_eq_left, haddr, hpages]

/-- **One major changes**, and its pages stay. -/
theorem Holds.update {M' : Major} {vm' : Vm} {inuse : Nat} (hh : Holds h (pre ++ M :: post) m)
    (haddr : M'.addr = M.addr) (hpages : M'.pages = M.pages) (hs : Sees (HeapPage (pre ++ M :: post)) h.vm vm' m')
    (hat : HeapAt m' (pre ++ M' :: post)) (hinuse : inuse = totalInuse (pre ++ M' :: post) % 0x10000000000000000)
    (lock : Word) : Holds { h with vm := vm', inuse := inuse, spinlock := lock } (pre ++ M' :: post) m' := by
  have hmap : (pre ++ M' :: post).map Major.addr = (pre ++ M :: post).map Major.addr := by
    simp only [List.map_append, List.map_cons, haddr]
  refine hh.stored hs (fun n => heapPage_update haddr hpages) hat (hmap ▸ hh.root) ?_ ?_ hinuse
  · refine hh.bet.imp_right fun ⟨L, hL, he⟩ => ?_
    have hmem : L.addr ∈ (pre ++ M' :: post).map Major.addr := hmap ▸ List.mem_map_of_mem hL
    obtain ⟨L', hL', he'⟩ := List.mem_map.1 hmem
    exact ⟨L', hL', he'.trans he⟩
  · have hsizes : totalSize (pre ++ M' :: post) = totalSize (pre ++ M :: post) := by
      rw [totalSize_append, totalSize_append, totalSize_cons, totalSize_cons, hpages]
    rw [hsizes]
    exact hh.allocated

/-- **A place in a block**: the heap with the new minor. -/
theorem Holds.place (hh : Holds h (pre ++ M :: post) m) (hlock : h.spinlock = 1#32) (hroom : reqSize + 32 ≤ size)
    (hneed : 24 + size < 0x100000000) (hgap : M.gapFor size = some (l₁, l₂)) :
    ∃ x h' m' M', placeIn M.addr size reqSize h = .ok (some (x.ptr, h')) ∧ GapFilled M size x M' ∧
      Placed h.vm (pre ++ M :: post) m size reqSize x h' (pre ++ M' :: post) m' := by
  have hmem : M ∈ pre ++ M :: post := List.mem_append_right _ List.mem_cons_self
  obtain ⟨hM, hfit⟩ := firstGap_some hgap
  have hempty : M.minors = [] → M.addr + 24 + (24 + size) ≤ M.stop := by
    intro h0
    rw [hM] at h0
    obtain ⟨rfl, rfl⟩ := List.append_eq_nil_iff.1 h0
    exact hfit
  have hspec := placeIn_spec hh.pages hh.sees ⟨inPages_major hmem⟩ (hh.headers.majors M hmem) hlock hroom hneed hempty
  rw [hgap] at hspec
  obtain ⟨x, hx, hsize, hreq, q, hrun, vm', m', hq, hs', hc⟩ := hspec
  have h1 : endOf Minor.stop (M.addr + 24) l₁ ≤ x.addr := Nat.le_of_eq hx.symm
  have h2 : x.stop ≤ startOf Minor.addr M.stop l₂ := by
    have hxstop : x.stop = x.addr + 24 + x.size := rfl
    omega
  have hgapIn := (hM ▸ M.packed : Packed Minor.addr Minor.stop (M.addr + 24) (l₁ ++ l₂) M.stop).gap
  have hxstop : x.addr + 40 ≤ x.stop := by
    have := x.room
    unfold Minor.stop
    omega
  have hedits := hc.edits hM h1 h2
  have hpages : ∀ n, HeapPage (pre ++ M.insert l₁ l₂ x hM h1 h2 :: post) n ↔ HeapPage (pre ++ M :: post) n :=
    fun n => heapPage_update rfl rfl
  have haddr : (M.insert l₁ l₂ x hM h1 h2).addr = M.addr := rfl
  have hat := hh.headers.update haddr rfl ((hh.headers.majors M hmem).insert hM h1 h2 hc)
    fun a ha => hedits.outside (by omega) ha
  have hinuse : totalInuse (pre ++ M.insert l₁ l₂ x hM h1 h2 :: post) = totalInuse (pre ++ M :: post) + x.size := by
    have hminors : (M.insert l₁ l₂ x hM h1 h2).minors = l₁ ++ x :: l₂ := rfl
    rw [totalInuse_append, totalInuse_append, totalInuse_cons, totalInuse_cons, hminors, hM]
    simp only [List.map_append, List.map_cons, List.sum_append, List.sum_cons]
    omega
  have hheld : Holds { h with vm := vm', inuse := (h.inuse + x.size) % 0x10000000000000000, spinlock := 0#32 }
      (pre ++ M.insert l₁ l₂ x hM h1 h2 :: post) m' := by
    refine hh.update haddr rfl hs' hat ?_ 0#32
    have hold := hh.inuse
    rw [hinuse]
    omega
  refine ⟨x, _, m', M.insert l₁ l₂ x hM h1 h2, hrun.trans (congrArg (fun r => r.map some) hq),
    ⟨rfl, rfl, l₁, l₂, hgap, rfl, hx⟩,
    hheld, rfl, hsize, hreq, hs'.spares hpages, fun y ⟨L, hL, hy⟩ => ?_, fun y ⟨L, hL, hy⟩ a ha ha' => ?_⟩
  · by_cases he : L = M
    · subst he
      have haround := (L.insert l₁ l₂ x hM h1 h2).packed.around
      rcases List.mem_append.1 (hM ▸ hy) with hy | hy
      · exact Or.inr (haround.1 y hy)
      · exact Or.inl (haround.2 y hy)
    · have hL' : L ∈ pre ++ post := by
        simp only [List.mem_append, List.mem_cons] at hL ⊢
        tauto
      have hap := hh.headers.apart_from hL'
      have hym := Major.mem hy
      omega
  · by_cases he : L = M
    · subst he
      exact hedits.kept (hM ▸ hy) ha ha'
    · have hL' : L ∈ pre ++ post := by
        simp only [List.mem_append, List.mem_cons] at hL ⊢
        tauto
      have hap := hh.headers.apart_from hL'
      have hym := Major.mem hy
      exact hedits.outside (by omega) (by omega)

/-- One block more was handed out. -/
theorem Places.live {vm : Vm} {size : Nat} {Ms' : List Major} (hp : Places vm Ms size x Ms') :
    Live Ms' y ↔ y = x ∨ Live Ms y := by
  cases hp with
  | gap pre M M' post hMs hfill =>
    obtain ⟨l₁, l₂, hgap, hminors, -⟩ := hfill.minors
    have hM := (firstGap_some hgap).1
    rw [hMs]
    simp only [Live, List.mem_append, List.mem_cons, or_and_right, exists_or, exists_eq_left, hM, hminors]
    grind
  | new N hnone hleft hpages hN =>
    simp only [Live, List.mem_append, List.mem_singleton, or_and_right, exists_or, exists_eq_left, hN]
    exact or_comm

/-- `kmalloc` leaves no major empty that had minors. -/
theorem Places.filled {vm : Vm} {size : Nat} {Ms' : List Major} (hp : Places vm Ms size x Ms') (h : Filled Ms) :
    Filled Ms' := by
  cases hp with
  | gap pre M M' post hMs hfill =>
    obtain ⟨l₁, l₂, -, hminors, -⟩ := hfill.minors
    rw [hMs] at h
    exact h.update (by rw [hminors]; simp)
  | new N hnone hleft hpages hN =>
    have hne : N.minors ≠ [] := by
      rw [hN]
      exact List.cons_ne_nil x []
    cases Ms with
    | nil => exact ⟨fun he => absurd he hne, nofun⟩
    | cons M Ms =>
      refine ⟨h.1, fun K hK => ?_⟩
      rcases List.mem_append.1 hK with hK | hK
      · exact h.2 K hK
      · rw [List.mem_singleton.1 hK]
        exact hne

end Place

/-! ## A new major -/

/-- What a new major behind the last one leaves; in the others, the link to it changes and no other byte. -/
structure Grown (h : Heap) (Ms : List Major) (m : Memory) (n : Nat) (N : Major) (h' : Heap) (m' : Memory) : Prop where
  holds : Holds h' (Ms ++ [N]) m'
  lock : h'.spinlock = h.spinlock
  pages : N.pages = n
  empty : N.minors = []
  left : PagesLeft h.vm n
  spares : Spares h.vm (HeapPage Ms) h'.vm (HeapPage (Ms ++ [N]))
  kept : ∀ M ∈ Ms, ∀ a, M.addr + 8 ≤ a → a < M.stop → m' a = m a

section Grow

variable {h : Heap} {pre : List Major} {m : Memory} {L : Major} {size : Nat}

/-- **A new block after the last one.** -/
theorem growAfter_spec (hh : Holds h (pre ++ [L]) m) (hsize : size + 48 < 0x100000000)
    (htop : RunBelowTop h.vm .kernel (newPages size)) :
    (∃ N h' m', growAfter L.addr size h = .ok (N.addr, h') ∧ Grown h (pre ++ [L]) m (newPages size) N h' m') ∨
      (growAfter L.addr size h = .error (.failure .assertion) ∧ ¬ PagesLeft h.vm (newPages size)) := by
  rcases allocateNewPage_spec hh hsize htop with ⟨N, vm₁, vm₂, m₂, hrun, hnew, hleft⟩ | ⟨hrun, hleft⟩
  · refine Or.inl ?_
    have hL : L ∈ pre ++ [L] := List.mem_append_right _ (List.mem_singleton_self L)
    have hLstop := L.addr_lt_stop
    have hNstop := N.addr_lt_stop
    have hNbelow : N.stop ≤ 0x100000000 := N.below
    have hLbelow : L.stop ≤ 0x100000000 := L.below
    have hap := hnew.apart L hL
    have hLin : InPages (HeapPage (pre ++ [L] ++ [N])) L.addr (L.pages * 4096) :=
      inPages_major (List.mem_append_left _ hL)
    have hNin : InPages (HeapPage (pre ++ [L] ++ [N])) N.addr (N.pages * 4096) :=
      inPages_major (List.mem_append_right _ (List.mem_singleton_self N))
    have hLs : L.stop = L.addr + L.pages * 4096 := rfl
    have hNs : N.stop = N.addr + N.pages * 4096 := rfl
    obtain ⟨vm₄, hstores, hs⟩ := Sees.stores
      (h := { h with vm := vm₂, allocated := (h.allocated + newPages size * 4096) % 0x10000000000000000 }) hnew.pages
      [(L.addr + 4, N.addr), (N.addr, L.addr)]
      (by
        simp only [List.forall_mem_cons, List.not_mem_nil, false_implies, implies_true, and_true]
        exact ⟨hLin.sub (by omega) (by omega), hNin.sub (by omega) (by omega)⟩) hnew.sees
    have hbytes : ∀ a, ¬ (L.addr + 4 ≤ a ∧ a < L.addr + 8) → ¬ (N.addr ≤ a ∧ a < N.addr + 4) →
        putWords m₂ [(L.addr + 4, N.addr), (N.addr, L.addr)] a = m₂ a := fun a h1 h2 => putWords_apart (by
      simp only [List.forall_mem_cons, List.not_mem_nil, false_implies, implies_true, and_true]
      omega)
    have hlast : ((pre ++ [L]).map Major.addr).getLast? = some L.addr := by simp
    have hat : HeapAt (putWords m₂ [(L.addr + 4, N.addr), (N.addr, L.addr)]) (pre ++ [L] ++ [N]) := by
      refine hh.headers.append (hnew.major.congr fun a ha => ?_) hnew.apart ?_ ?_ (fun c hc => ?_) fun a h1 h2 => ?_
      · have hb := ha.bounds
        exact hbytes a (by omega) (by omega)
      · rw [hlast]
        simp (disch := omega) only [putWords, List.foldl_cons, List.foldl_nil, wordAt_putWord]
        rfl
      · simp (disch := omega) only [putWords, List.foldl_cons, List.foldl_nil, wordAt_putWord_apart]
        exact hnew.nextLink
      · obtain rfl := Option.some.inj (hlast.symm.trans hc)
        simp (disch := omega) only [putWords, List.foldl_cons, List.foldl_nil, wordAt_putWord, wordAt_putWord_apart]
      · rw [hbytes a (h2 _ hlast) (by omega), hnew.others a h1]
    have hroot : h.memRoot = ptrOf ((pre ++ [L] ++ [N]).map Major.addr).head? := by
      rw [hh.root]
      cases pre <;> rfl
    obtain ⟨hholds, hspares⟩ := hnew.joins hh hs hat hroot h.spinlock
    refine ⟨N, _, _, ?_, hholds, rfl, hnew.size, hnew.empty, hleft, hspares, fun M hM a h1 h2 => ?_⟩
    · rw [Heap.stores, bind_eq_ok] at hstores
      obtain ⟨h₃, hfirst, hrest⟩ := hstores
      rw [Heap.stores, bind_eq_ok] at hrest
      obtain ⟨h₄, hsecond, hrest⟩ := hrest
      obtain rfl := Except.ok.inj hrest
      simp only [growAfter, hrun, ok_bind, majNext, majPrev, hfirst, hsecond, if_neg N.nonzero]
      rfl
    · have hMap := hnew.apart M hM
      have hother : ¬ (L.addr + 4 ≤ a ∧ a < L.addr + 8) := by
        rcases List.mem_append.1 hM with hpre | hML
        · have := hh.headers.apart_from (List.mem_append_left [] hpre)
          omega
        · rw [List.mem_singleton.1 hML] at h1
          omega
      rw [hbytes a hother (by omega), hnew.others a (by omega)]
  · refine Or.inr ⟨?_, hleft⟩
    simp only [growAfter, hrun]
    rfl

end Grow

/-! ## The loop -/

/-- How `kmalloc` ends once it has a major to look at: with a new minor, or with a failed assertion because no major has
a gap and there are no pages for another one. -/
def Allocates (vm : Vm) (Ms : List Major) (m : Memory) (size reqSize : Nat) (r : HeapM (Nat × Heap)) : Prop :=
  (∃ x h' Ms' m', r = .ok (x.ptr, h') ∧ Places vm Ms size x Ms' ∧ Placed vm Ms m size reqSize x h' Ms' m') ∨
    (r = .error (.failure .assertion) ∧ (∀ M ∈ Ms, M.gapFor size = none) ∧ ¬ PagesLeft vm (newPages size))

section Loop

variable {h : Heap} {Ms pre post : List Major} {m : Memory} {M N : Major} {l₁ l₂ : List Minor}
  {size reqSize rounds bestSize : Nat} {startedBet : Bool}

/-- The sizes in the header of a major. -/
theorem Holds.loads (hh : Holds h Ms m) (hM : M ∈ Ms) :
    h.load (M.addr + 4) = .ok (wordAt m (M.addr + 4)) ∧ h.load (M.addr + 12) = .ok (M.pages * 4096) ∧
      h.load (M.addr + 16) = .ok M.used := by
  have hstop := M.addr_lt_stop
  have hMs : M.stop = M.addr + M.pages * 4096 := rfl
  have hin := inPages_major hM
  have hat := hh.headers.majors M hM
  refine ⟨hh.sees.load hh.pages (hin.sub (by omega) (by omega)), ?_, ?_⟩
  · rw [hh.sees.load hh.pages (hin.sub (by omega) (by omega)), hat.size]
  · rw [hh.sees.load hh.pages (hin.sub (by omega) (by omega)), hat.usage]

theorem Major.size_lt (M : Major) : M.pages * 4096 < 0x100000000 := by
  have := M.below
  have := M.nonzero
  omega

theorem sub32_used (M : Major) : sub32 (M.pages * 4096) M.used = M.pages * 4096 - M.used :=
  sub32_eq M.used_le M.size_lt

/-- Another best bet. -/
theorem Holds.bestBet {bet : Nat} (hh : Holds h Ms m) (hbet : bet = 0 ∨ ∃ M ∈ Ms, M.addr = bet) :
    Holds { h with bestBet := bet } Ms m :=
  ⟨hh.tables, hh.zero, hh.pages, hh.byte, hh.headers, hh.root, hbet, hh.allocated, hh.inuse⟩

/-- A full block has no gap. -/
theorem Major.gapFor_full (hfull : M.pages * 4096 < M.used + (24 + size)) : M.gapFor size = none := by
  cases hgap : M.gapFor size with
  | none => rfl
  | some r =>
    obtain ⟨l₁, l₂⟩ := r
    obtain ⟨hM, hfit⟩ := firstGap_some hgap
    have hle := (hM ▸ M.packed : Packed Minor.addr Minor.stop (M.addr + 24) (l₁ ++ l₂) M.stop).occupied_le
    have hused : M.used = 24 + occupied Minor.addr Minor.stop (l₁ ++ l₂) := by
      unfold Major.used
      rw [← hM]
    have hstop : M.stop = M.addr + M.pages * 4096 := rfl
    omega

/-- An empty block with room has a gap. -/
theorem Major.gapFor_empty (hM : M.minors = []) (hroom : 24 + (24 + size) ≤ M.pages * 4096) :
    M.gapFor size = some ([], []) := by
  unfold Major.gapFor
  rw [hM]
  exact if_pos (by show M.addr + 24 + (24 + size) ≤ M.addr + M.pages * 4096; omega)

/-- One round of the loop, with the sizes of the block. -/
theorem kmallocFrom_step (size reqSize rounds bestSize : Nat) (startedBet : Bool) (hh : Holds h Ms m) (hM : M ∈ Ms) :
    ∃ bet best, Holds { h with bestBet := bet } Ms m ∧
      kmallocFrom size reqSize (rounds + 1) M.addr startedBet bestSize h = (do
        match ← case1 M.addr size (M.pages * 4096 - M.used) startedBet { h with bestBet := bet } with
        | .inl (maj, startedBet, h) => kmallocFrom size reqSize rounds maj startedBet best h
        | .inr (maj, h) =>
          match ← placeIn maj size reqSize h with
          | some r => return r
          | none =>
            let (maj, startedBet, h) ← case5 maj size startedBet h
            kmallocFrom size reqSize rounds maj startedBet best h) := by
  obtain ⟨-, hsize, hused⟩ := hh.loads hM
  by_cases hbet : bestSize < M.pages * 4096 - M.used
  · refine ⟨M.addr, M.pages * 4096 - M.used, hh.bestBet (Or.inr ⟨M, hM, rfl⟩), ?_⟩
    rw [kmallocFrom, if_neg M.nonzero, hsize, ok_bind, hused, ok_bind, sub32_used]
    dsimp only
    rewrite [if_pos hbet, if_pos hbet]
    rfl
  · refine ⟨h.bestBet, bestSize, hh.bestBet hh.bet, ?_⟩
    rw [kmallocFrom, if_neg M.nonzero, hsize, ok_bind, hused, ok_bind, sub32_used]
    dsimp only
    rewrite [if_neg hbet, if_neg hbet]
    rfl

/-- **A block with a gap** ends the loop. -/
theorem kmallocFrom_gap (rounds bestSize : Nat) (startedBet : Bool) (hh : Holds h (pre ++ M :: post) m)
    (hlock : h.spinlock = 1#32) (hroom : reqSize + 32 ≤ size)
    (hneed : 24 + size < 0x100000000) (hgap : M.gapFor size = some (l₁, l₂)) :
    ∃ x h' m' M', kmallocFrom size reqSize (rounds + 1) M.addr startedBet bestSize h = .ok (x.ptr, h') ∧
      GapFilled M size x M' ∧ Placed h.vm (pre ++ M :: post) m size reqSize x h' (pre ++ M' :: post) m' := by
  have hmem : M ∈ pre ++ M :: post := List.mem_append_right _ List.mem_cons_self
  obtain ⟨bet, best, hbet, hstep⟩ := kmallocFrom_step size reqSize rounds bestSize startedBet hh hmem
  obtain ⟨x, h', m', M', hrun, hfill, hplaced⟩ := hbet.place hlock hroom hneed hgap
  refine ⟨x, h', m', M', ?_, hfill, hplaced⟩
  have hnot : ¬ M.pages * 4096 - M.used < add32 size 24 := by
    intro hlt
    rw [add32_eq (by omega)] at hlt
    have := M.used_le
    rw [Major.gapFor_full (by omega)] at hgap
    cases hgap
  rw [hstep]
  simp only [case1, if_neg hnot, pure_bind, hrun, ok_bind]
  rfl

/-- A block without one: `placeIn` finds none. -/
theorem placeIn_none (hh : Holds h Ms m) (hM : M ∈ Ms) (hlock : h.spinlock = 1#32) (hroom : reqSize + 32 ≤ size)
    (hneed : 24 + size < 0x100000000) (hgap : M.gapFor size = none) (hfree : M.used + (24 + size) ≤ M.pages * 4096) :
    placeIn M.addr size reqSize h = .ok none := by
  have hspec := placeIn_spec hh.pages hh.sees ⟨inPages_major hM⟩ (hh.headers.majors M hM) hlock hroom hneed
    (fun hnil => by
      have hused : M.used = 24 := by
        unfold Major.used
        rw [hnil]
        rfl
      show M.addr + 24 + (24 + size) ≤ M.addr + M.pages * 4096
      omega)
  rw [hgap] at hspec
  exact hspec

/-- **A block without a gap**, and another one behind it: the loop goes on there. -/
theorem kmallocFrom_next (rounds bestSize : Nat) (startedBet : Bool) (hh : Holds h (pre ++ M :: N :: post) m)
    (hlock : h.spinlock = 1#32)
    (hroom : reqSize + 32 ≤ size) (hneed : 24 + size < 0x100000000) (hgap : M.gapFor size = none) :
    ∃ bet best, Holds { h with bestBet := bet } (pre ++ M :: N :: post) m ∧
      kmallocFrom size reqSize (rounds + 1) M.addr startedBet bestSize h =
        kmallocFrom size reqSize rounds N.addr startedBet best { h with bestBet := bet } := by
  have hmem : M ∈ pre ++ M :: N :: post := List.mem_append_right _ List.mem_cons_self
  obtain ⟨bet, best, hbet, hstep⟩ := kmallocFrom_step size reqSize rounds bestSize startedBet hh hmem
  have hlink := hh.headers.next_eq
  refine ⟨bet, best, hbet, hstep.trans ?_⟩
  have hnext : Heap.load { h with bestBet := bet } (M.addr + 4) = .ok N.addr := by
    rw [(hbet.loads hmem).1, hlink]
    rfl
  by_cases hfull : M.pages * 4096 - M.used < add32 size 24
  · simp only [case1, if_pos hfull, hnext, ok_bind, if_pos N.nonzero]
    rfl
  · have hfree : M.used + (24 + size) ≤ M.pages * 4096 := by
      rw [add32_eq (by omega)] at hfull
      have := M.used_le
      omega
    have hnone := placeIn_none hbet hmem hlock hroom hneed hgap hfree
    simp only [case1, if_neg hfull, pure_bind, hnone, ok_bind, case5, hnext, if_pos N.nonzero]

/-- The last block without a gap: the loop that started with the best bet starts again. -/
theorem kmallocFrom_last (rounds bestSize : Nat) (hh : Holds h (pre ++ [M]) m) (hlock : h.spinlock = 1#32)
    (hroom : reqSize + 32 ≤ size)
    (hneed : 24 + size < 0x100000000) (hgap : M.gapFor size = none) :
    ∃ bet best, Holds { h with bestBet := bet } (pre ++ [M]) m ∧
      kmallocFrom size reqSize (rounds + 1) M.addr true bestSize h =
        kmallocFrom size reqSize rounds h.memRoot false best { h with bestBet := bet } := by
  have hmem : M ∈ pre ++ [M] := List.mem_append_right _ List.mem_cons_self
  obtain ⟨bet, best, hbet, hstep⟩ := kmallocFrom_step size reqSize rounds bestSize true hh hmem
  have hlink := hh.headers.next_eq
  refine ⟨bet, best, hbet, hstep.trans ?_⟩
  have hnext : Heap.load { h with bestBet := bet } (M.addr + 4) = .ok 0 := by
    rw [(hbet.loads hmem).1, hlink]
    rfl
  by_cases hfull : M.pages * 4096 - M.used < add32 size 24
  · simp only [case1, if_pos hfull, hnext, ok_bind]
    rfl
  · have hfree : M.used + (24 + size) ≤ M.pages * 4096 := by
      rw [add32_eq (by omega)] at hfull
      have := M.used_le
      omega
    have hnone := placeIn_none hbet hmem hlock hroom hneed hgap hfree
    simp only [case1, if_neg hfull, pure_bind, hnone, ok_bind, case5, hnext]
    rfl

/-- A place in the new major is a place of the heap. -/
theorem Grown.placed {h' h'' : Heap} {m' m'' : Memory} {x : Minor} {N' : Major}
    (hg : Grown h Ms m (newPages size) N h' m') (hnone : ∀ M ∈ Ms, M.gapFor size = none) (hfill : GapFilled N size x N')
    (hp : Placed h'.vm (Ms ++ [N]) m' size reqSize x h'' (Ms ++ [N']) m'') :
    Places h.vm Ms size x (Ms ++ [N']) ∧ Placed h.vm Ms m size reqSize x h'' (Ms ++ [N']) m'' := by
  obtain ⟨l₁, l₂, hgap, hminors, -⟩ := hfill.minors
  have hnil := (firstGap_some hgap).1
  rw [hg.empty] at hnil
  obtain ⟨rfl, rfl⟩ := List.append_eq_nil_iff.1 hnil.symm
  refine ⟨Places.new N' hnone hg.left (hfill.pages.trans hg.pages) hminors, hp.holds, hp.unlocked, hp.size_eq,
    hp.reqSize_eq, hg.spares.trans hp.spares, fun y ⟨M, hM, hy⟩ => hp.apart y ⟨M, List.mem_append_left _ hM, hy⟩,
    fun y ⟨M, hM, hy⟩ a h1 h2 => ?_⟩
  have hym := Major.mem hy
  rw [hp.kept y ⟨M, List.mem_append_left _ hM, hy⟩ a h1 h2, hg.kept M hM a (by omega) (by omega)]

/-- **The last block without a gap**, and none in the others: a new major, or the kernel stops. -/
theorem kmallocFrom_grow (hh : Holds h (pre ++ [M]) m) (hlock : h.spinlock = 1#32) (hroom : reqSize + 32 ≤ size)
    (hneed : size + 48 < 0x100000000) (hnone : ∀ L ∈ pre ++ [M], L.gapFor size = none)
    (htop : RunBelowTop h.vm .kernel (newPages size)) :
    Allocates h.vm (pre ++ [M]) m size reqSize (kmallocFrom size reqSize (rounds + 2) M.addr false bestSize h) := by
  have hmem : M ∈ pre ++ [M] := List.mem_append_right _ List.mem_cons_self
  have hgap := hnone M hmem
  obtain ⟨bet, best, hbet, hstep⟩ := kmallocFrom_step size reqSize (rounds + 1) bestSize false hh hmem
  have hlink := hh.headers.next_eq
  have hnext : Heap.load { h with bestBet := bet } (M.addr + 4) = .ok 0 := by
    rw [(hbet.loads hmem).1, hlink]
    rfl
  have hfree : ¬ M.pages * 4096 - M.used < add32 size 24 →
      placeIn M.addr size reqSize { h with bestBet := bet } = .ok none := by
    intro hfull
    rw [add32_eq (by omega)] at hfull
    have := M.used_le
    exact placeIn_none hbet hmem hlock hroom (by omega) hgap (by omega)
  rw [hstep]
  rcases growAfter_spec hbet hneed htop with ⟨N, h', m', hrun, hg⟩ | ⟨hrun, hleft⟩
  · have hlock' : h'.spinlock = 1#32 := hg.lock.trans hlock
    have hNgap : N.gapFor size = some ([], []) := by
      refine Major.gapFor_empty hg.empty ?_
      have := newPages_spec hneed
      rw [hg.pages]
      omega
    refine Or.inl ?_
    by_cases hfull : M.pages * 4096 - M.used < add32 size 24
    · obtain ⟨x, h'', m'', N', hplace, hfill, hplaced⟩ := hg.holds.place hlock' hroom (by omega) hNgap
      obtain ⟨hplaces, hplaced⟩ := hg.placed hnone hfill hplaced
      refine ⟨x, h'', _, m'', ?_, hplaces, hplaced⟩
      have hcase : case1 M.addr size (M.pages * 4096 - M.used) false { h with bestBet := bet } =
          .ok (.inr (N.addr, h')) := by
        simp only [case1, if_pos hfull, hnext, ok_bind, hrun, if_neg N.nonzero]
        rfl
      simp only [hcase, ok_bind, hplace]
      rfl
    · obtain ⟨x, h'', m'', N', hplace, hfill, hplaced⟩ := kmallocFrom_gap rounds best false
        hg.holds hlock' hroom (by omega) hNgap
      obtain ⟨hplaces, hplaced⟩ := hg.placed hnone hfill hplaced
      refine ⟨x, h'', _, m'', ?_, hplaces, hplaced⟩
      simp only [case1, if_neg hfull, pure_bind, hfree hfull, ok_bind, case5, hnext, hrun]
      exact hplace
  · refine Or.inr ⟨?_, hnone, hleft⟩
    by_cases hfull : M.pages * 4096 - M.used < add32 size 24
    · simp only [case1, if_pos hfull, hnext, ok_bind, hrun]
      rfl
    · simp only [case1, if_neg hfull, pure_bind, hfree hfull, ok_bind, case5, hnext, hrun]
      rfl

/-- **The loop from a block on** when the blocks before it have no gap. -/
theorem kmallocFrom_scan (pre : List Major) (bestSize : Nat) (hh : Holds h (pre ++ M :: post) m)
    (hlock : h.spinlock = 1#32) (hroom : reqSize + 32 ≤ size)
    (hneed : size + 48 < 0x100000000) (hpre : ∀ L ∈ pre, L.gapFor size = none)
    (htop : RunBelowTop h.vm .kernel (newPages size)) (hr : post.length + 2 ≤ rounds) :
    Allocates h.vm (pre ++ M :: post) m size reqSize (kmallocFrom size reqSize rounds M.addr false bestSize h) := by
  obtain ⟨rest, rfl⟩ := Nat.exists_eq_add_of_le' hr
  induction post generalizing pre M h bestSize with
  | nil =>
    cases hgap : M.gapFor size with
    | none =>
      refine kmallocFrom_grow hh hlock hroom hneed (fun L hL => ?_) htop
      rcases List.mem_append.1 hL with hL | hL
      · exact hpre L hL
      · rw [List.mem_singleton.1 hL]
        exact hgap
    | some r =>
      obtain ⟨x, h', m', M', hrun, hfill, hplaced⟩ := kmallocFrom_gap (rest + 1) bestSize false
        hh hlock hroom (by omega) hgap
      exact Or.inl ⟨x, h', _, m', hrun, Places.gap pre M M' [] rfl hfill, hplaced⟩
  | cons N post ih =>
    rw [List.length_cons, show rest + (post.length + 1 + 2) = rest + (post.length + 2) + 1 by omega]
    cases hgap : M.gapFor size with
    | none =>
      obtain ⟨bet, best, hbet, hrun⟩ := kmallocFrom_next (rest + (post.length + 2)) bestSize false
        hh hlock hroom (by omega) hgap
      rw [hrun]
      have hsplit : pre ++ M :: N :: post = (pre ++ [M]) ++ N :: post := by simp
      rw [hsplit] at hbet ⊢
      refine ih (pre ++ [M]) best hbet hlock (fun L hL => ?_) htop (Nat.le_add_left _ _)
      rcases List.mem_append.1 hL with hL | hL
      · exact hpre L hL
      · rw [List.mem_singleton.1 hL]
        exact hgap
    | some r =>
      obtain ⟨x, h', m', M', hrun, hfill, hplaced⟩ := kmallocFrom_gap (rest + (post.length + 2)) bestSize false
        hh hlock hroom (by omega) hgap
      exact Or.inl ⟨x, h', _, m', hrun, Places.gap pre M M' (N :: post) rfl hfill, hplaced⟩

/-- **The loop from the best bet on**: when it finds no gap there, it goes along the whole list. -/
theorem kmallocFrom_bet (bestSize : Nat) (hh : Holds h (pre ++ M :: post) m) (hlock : h.spinlock = 1#32)
    (hroom : reqSize + 32 ≤ size)
    (hneed : size + 48 < 0x100000000) (htop : RunBelowTop h.vm .kernel (newPages size))
    (hr : (pre ++ M :: post).length + post.length + 2 ≤ rounds) :
    Allocates h.vm (pre ++ M :: post) m size reqSize (kmallocFrom size reqSize rounds M.addr true bestSize h) := by
  induction post generalizing pre M h rounds bestSize with
  | nil =>
    obtain ⟨rest, rfl⟩ := Nat.exists_eq_add_of_le' hr
    rw [List.length_nil, show rest + ((pre ++ [M]).length + 0 + 2) = rest + (pre ++ [M]).length + 1 + 1 by omega]
    cases hgap : M.gapFor size with
    | none =>
      obtain ⟨bet, best, hbet, hrun⟩ := kmallocFrom_last (rest + (pre ++ [M]).length + 1) bestSize
        hh hlock hroom (by omega) hgap
      obtain ⟨R, Rs, hRs⟩ : ∃ R Rs, pre ++ [M] = R :: Rs := List.exists_cons_of_ne_nil (by simp)
      rw [hRs] at hbet hrun ⊢
      have hscan := kmallocFrom_scan [] best hbet hlock hroom hneed
        (fun L hL => absurd hL List.not_mem_nil) htop
        (by rw [List.length_cons]; omega : Rs.length + 2 ≤ rest + (R :: Rs).length + 1)
      have hroot : h.memRoot = R.addr := hbet.root
      rw [hrun, hroot]
      rw [← hroot] at hscan ⊢
      exact hscan
    | some r =>
      obtain ⟨x, h', m', M', hrun, hfill, hplaced⟩ := kmallocFrom_gap (rest + (pre ++ [M]).length + 1) bestSize true
        hh hlock hroom (by omega) hgap
      exact Or.inl ⟨x, h', _, m', hrun, Places.gap pre M M' [] rfl hfill, hplaced⟩
  | cons N post ih =>
    obtain ⟨rest, rfl⟩ := Nat.exists_eq_succ_of_ne_zero (by omega : rounds ≠ 0)
    cases hgap : M.gapFor size with
    | none =>
      obtain ⟨bet, best, hbet, hrun⟩ := kmallocFrom_next rest bestSize true hh hlock hroom (by omega) hgap
      rw [Nat.succ_eq_add_one, hrun]
      have hsplit : pre ++ M :: N :: post = (pre ++ [M]) ++ N :: post := by simp
      rw [hsplit] at hbet hr ⊢
      exact ih best hbet hlock htop (by rw [List.length_cons] at hr; omega)
    | some r =>
      obtain ⟨x, h', m', M', hrun, hfill, hplaced⟩ := kmallocFrom_gap rest bestSize true hh hlock hroom (by omega) hgap
      exact Or.inl ⟨x, h', _, m', hrun, Places.gap pre M M' (N :: post) rfl hfill, hplaced⟩

end Loop

/-! ## `kmalloc` -/

section Kmalloc

variable {h : Heap} {Ms : List Major} {m : Memory} {reqSize : Nat}

/-- The lock is none of the invariant's business. -/
theorem Holds.withLock (hh : Holds h Ms m) (lock : Word) : Holds { h with spinlock := lock } Ms m :=
  ⟨hh.tables, hh.zero, hh.pages, hh.byte, hh.headers, hh.root, hh.bet, hh.allocated, hh.inuse⟩

theorem liballocLock_ok (hlock : h.spinlock = 0#32) : liballocLock h = .ok { h with spinlock := 1#32 } := by
  rw [liballocLock, assert_bind hlock]
  rfl

/-- **`kmalloc`** on a heap with majors. -/
theorem kmalloc_spec (hh : Holds h Ms m) (hlock : h.spinlock = 0#32) (hreq : reqSize + 80 < 0x100000000)
    (htop : RunBelowTop h.vm .kernel (newPages (reqSize + 32))) (hMs : Ms ≠ []) :
    Allocates h.vm Ms m (reqSize + 32) reqSize (kmalloc reqSize h) := by
  have hsize : add32 reqSize 32 = reqSize + 32 := add32_eq (by omega)
  have hlen := hh.headers.length_le
  have hlocked := hh.withLock 1#32
  obtain ⟨R, Rs, rfl⟩ := List.exists_cons_of_ne_nil hMs
  have hroot : h.memRoot = R.addr := hh.root
  have hscan : ∀ best, Allocates h.vm (R :: Rs) m (reqSize + 32) reqSize
      (kmallocFrom (reqSize + 32) reqSize heapRounds h.memRoot false best { h with spinlock := 1#32 }) := by
    intro best
    have hscan := kmallocFrom_scan [] best hlocked rfl
      (Nat.le_refl (reqSize + 32)) hreq (fun L hL => absurd hL List.not_mem_nil) htop
      (by rw [List.length_cons] at hlen; unfold heapRounds; omega : Rs.length + 2 ≤ heapRounds)
    rwa [← hroot] at hscan
  unfold kmalloc
  rw [hsize, assert_bind (by omega), liballocLock_ok hlock, ok_bind, assert_bind (by rw [hroot]; exact R.nonzero)]
  by_cases hbet : h.bestBet = 0
  · rw [if_neg (not_not_intro hbet)]
    exact hscan 0
  · obtain ⟨M, hM, haddr⟩ := hh.bet.resolve_left hbet
    obtain ⟨-, hmajsize, husage⟩ := hlocked.loads hM
    rw [haddr] at hmajsize husage
    rw [if_pos hbet, hmajsize, ok_bind, husage, ok_bind]
    dsimp only
    split
    · obtain ⟨pre, post, hsplit⟩ := List.append_of_mem hM
      rw [hsplit] at hlen hlocked ⊢
      have hpost : post.length ≤ (pre ++ M :: post).length := by
        rw [List.length_append, List.length_cons]
        omega
      have hrun := kmallocFrom_bet (sub32 (M.pages * 4096) M.used) hlocked rfl (Nat.le_refl (reqSize + 32)) hreq htop
        (by unfold heapRounds; omega : _ ≤ heapRounds)
      rwa [haddr] at hrun
    · exact hscan _

/-- Without majors the kernel stops: nobody calls `liballoc_init` again. -/
theorem kmalloc_none (hh : Holds h [] m) (hlock : h.spinlock = 0#32) :
    kmalloc reqSize h = .error (.failure .assertion) := by
  have hroot : h.memRoot = 0 := hh.root
  unfold kmalloc
  by_cases hsize : add32 reqSize 32 ≠ 0
  · rw [assert_bind hsize, liballocLock_ok hlock, ok_bind]
    simp only [heapAssert, assert_neg (not_not_intro hroot), error_bind]
  · simp only [heapAssert, assert_neg hsize, error_bind]

/-- **When `kmalloc` returns**: there is a major, and one of them has a gap or there are pages for another one. -/
theorem kmalloc_returns_iff (hh : Holds h Ms m) (hlock : h.spinlock = 0#32) (hreq : reqSize + 80 < 0x100000000)
    (htop : RunBelowTop h.vm .kernel (newPages (reqSize + 32))) :
    (∃ p h', kmalloc reqSize h = .ok (p, h')) ↔
      Ms ≠ [] ∧ ((∃ M ∈ Ms, M.gapFor (reqSize + 32) ≠ none) ∨ PagesLeft h.vm (newPages (reqSize + 32))) := by
  by_cases hMs : Ms = []
  · subst hMs
    rw [kmalloc_none hh hlock]
    simp
  · have hspec := kmalloc_spec hh hlock hreq htop hMs
    constructor
    · rintro ⟨p, h', hrun⟩
      refine ⟨hMs, ?_⟩
      rcases hspec with ⟨x, h'', Ms', m', -, hplaces, -⟩ | ⟨herr, -⟩
      · cases hplaces with
        | gap pre M M' post hsplit hfill =>
          obtain ⟨l₁, l₂, hgap, -⟩ := hfill.minors
          refine Or.inl ⟨M, by rw [hsplit]; simp, ?_⟩
          rw [hgap]
          exact Option.some_ne_none _
        | new N hnone hleft => exact Or.inr hleft
      · rw [hrun] at herr
        cases herr
    · rintro ⟨-, hcan⟩
      rcases hspec with ⟨x, h', Ms', m', hrun, -⟩ | ⟨-, hnone, hleft⟩
      · exact ⟨x.ptr, h', hrun⟩
      · rcases hcan with ⟨M, hM, hgap⟩ | hpages
        · exact absurd (hnone M hM) hgap
        · exact absurd hpages hleft

/-- The heap that `liballoc_init` leaves has room for 100 bytes. -/
theorem kmalloc_returns_fresh :
    ∃ h' p h'', liballocInit freshHeap = .ok h' ∧ kmalloc 100 h' = .ok (p, h'') := by
  obtain ⟨h, N, m, hinit, hh, hempty, hsize, hlock, htop⟩ := freshHeap_started
  have hgap : N.gapFor (100 + 32) = some ([], []) := Major.gapFor_empty hempty (by omega)
  obtain ⟨p, h', hrun⟩ := (kmalloc_returns_iff hh hlock (by omega : 100 + 80 < 0x100000000) (htop _ (by decide))).2
    ⟨List.cons_ne_nil N [], Or.inl ⟨N, List.mem_singleton_self N, by rw [hgap]; exact Option.some_ne_none _⟩⟩
  exact ⟨h, p, h', hinit, hrun⟩

/-- The first block is the only one of the first major. -/
theorem kmalloc_fresh : ∃ h N m x h', liballocInit freshHeap = .ok h ∧ kmalloc 100 h = .ok (x.ptr, h') ∧
    Holds h' [N] m ∧ N.minors = [x] ∧ h'.spinlock = 0#32 := by
  obtain ⟨h, N, m, hinit, hh, hempty, hsize, hlock, htop⟩ := freshHeap_started
  have hgap : N.gapFor (100 + 32) = some ([], []) := Major.gapFor_empty hempty (by omega)
  rcases kmalloc_spec hh hlock (by omega : 100 + 80 < 0x100000000) (htop _ (by decide)) (List.cons_ne_nil N []) with
    ⟨x, h', Ms', m', hrun, hplaces, hplaced⟩ | ⟨-, hnone, -⟩
  · refine ⟨h, ?_⟩
    have hholds := hplaced.holds
    cases hplaces with
    | gap pre M M' post hMs hfill =>
      rcases List.append_eq_singleton_iff.1 hMs.symm with ⟨rfl, hM⟩ | ⟨-, hM⟩
      · obtain ⟨rfl, rfl⟩ := List.cons.inj hM
        obtain ⟨l₁, l₂, hgap', hminors, -⟩ := hfill.minors
        obtain ⟨rfl, rfl⟩ := Prod.mk.inj (Option.some.inj (hgap.symm.trans hgap'))
        exact ⟨M', m', x, h', hinit, hrun, hholds, hminors, hplaced.unlocked⟩
      · cases hM
    | new N' hnone =>
      rw [hnone N (List.mem_singleton_self N)] at hgap
      cases hgap
  · rw [hnone N (List.mem_singleton_self N)] at hgap
    cases hgap

end Kmalloc

end Myunix.Liballoc
