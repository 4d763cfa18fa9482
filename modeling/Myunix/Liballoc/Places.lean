import Myunix.Liballoc.Layout
import Myunix.Liballoc.View

/-!
# A place in a block of the heap

CASE 2 to CASE 4 of `kmalloc` look for a place in one block and put a header there. Each of them stores the words of the
new minor and of its neighbours in an order of its own; all of them leave what `Carved` says.

* `case2_spec`, `case3_spec`, `case41_spec` and `case42_spec`: the four ways to write a minor.
* `placeIn_spec`: the place is the first gap of the block that is large enough.
-/

namespace Myunix.Liballoc

open Lib Pmm Vmm Syscall

/-! ## The stores of one case -/

/-- The memory after the stores `l` of a case, the usage of `maj` and the byte before the pointer. -/
def carve (m : Memory) (maj : Nat) (l : List (Nat × Nat)) (x : Minor) : Memory :=
  putByte (putWord (putWords m l) (maj + 16) (wordAt (putWords m l) (maj + 16) + (24 + x.size))) (x.ptr - 16)
    (BitVec.ofNat 8 (x.ptr - (x.addr + 24)))

section Case

variable {P : Nat → Prop} {base : Vm} {m : Memory} {h : Heap} {maj prev next : Nat} {x : Minor} {l : List (Nat × Nat)}

/-- How a case ends. -/
theorem handOut_spec (hp : HeapPages P base) (hs : Sees P base h.vm m) (hin : InPages P x.addr (24 + x.size))
    (htop : x.stop ≤ 0x100000000) (hlock : h.spinlock = 1#32) :
    ∃ vm', handOut x.addr x.size h = .ok (x.ptr, { h with
        vm := vm', inuse := (h.inuse + x.size) % 0x10000000000000000, spinlock := 0#32 }) ∧
      Sees P base vm' (putByte m (x.ptr - 16) (BitVec.ofNat 8 (x.ptr - (x.addr + 24)))) := by
  have hroom := x.room
  have hptr := x.ptr_spec
  unfold Minor.stop at htop
  obtain ⟨vm', hstore, hs'⟩ := hs.kernelStore hp (a := x.ptr - 16) (hin _ (by omega) (by omega))
    (BitVec.ofNat 8 (x.ptr - (x.addr + 24)))
  refine ⟨vm', ?_, hs'⟩
  have hp1 : add32 (add32 x.addr 24) 16 = x.addr + 40 := by unfold add32; omega
  have hdiff : (if (x.addr + 40) % 16 ≠ 0 then 16 - (x.addr + 40) % 16 else (x.addr + 40) % 16) =
      x.ptr - (x.addr + 40) := by
    unfold Minor.ptr
    split <;> omega
  have hp2 : add32 (x.addr + 40) (x.ptr - (x.addr + 40)) = x.ptr := by unfold add32; omega
  have hp3 : sub32 x.ptr 16 = x.ptr - 16 := sub32_eq (by omega) (by omega)
  have hb : x.ptr - (x.addr + 40) + 16 = x.ptr - (x.addr + 24) := by omega
  simp only [handOut, align, hp1, hdiff, hp2, hp3, hb, hstore, ofKernel_ok, ok_bind, liballocUnlock, hlock,
    assert_bind, pure, Except.pure]

/-- **A case** as a whole. -/
theorem case_spec (hp : HeapPages P base) (hs : Sees P base h.vm m) (hl : ∀ p ∈ l, InPages P p.1 4)
    (husage : InPages P (maj + 16) 4) (hin : InPages P x.addr (24 + x.size)) (htop : x.stop ≤ 0x100000000)
    (hsum : wordAt (putWords m l) (maj + 16) + (24 + x.size) < 0x100000000) (hlock : h.spinlock = 1#32) :
    ∃ vm', (do
        let h ← h.stores l
        let h ← addUsage maj x.size h
        handOut x.addr x.size h) = .ok (x.ptr, { h with
          vm := vm', inuse := (h.inuse + x.size) % 0x10000000000000000, spinlock := 0#32 }) ∧
      Sees P base vm' (carve m maj l x) := by
  obtain ⟨vm₁, h1, hs₁⟩ := hs.stores hp l hl
  have hadd : add32 (wordAt (putWords m l) (maj + 16)) (add32 x.size 24) =
      wordAt (putWords m l) (maj + 16) + (24 + x.size) := by
    unfold add32
    omega
  obtain ⟨vm₂, h2, hs₂⟩ := Sees.store (h := { h with vm := vm₁ }) hp hs₁ husage
    (wordAt (putWords m l) (maj + 16) + (24 + x.size))
  obtain ⟨vm₃, h3, hs₃⟩ := handOut_spec (h := { h with vm := vm₂ }) hp hs₂ hin htop hlock
  refine ⟨vm₃, ?_, hs₃⟩
  have hload : Heap.load { h with vm := vm₁ } (maj + 16) = .ok _ := Sees.load hp hs₁ husage
  simp only [h1, ok_bind, addUsage, majUsage, hload, hadd, h2, h3]

/-- The words of a new minor and of its neighbours. -/
structure NewWords (m : Memory) (maj prev next : Nat) (x : Minor) : Prop where
  prevLink : wordAt m x.addr = prev
  nextLink : wordAt m (x.addr + 4) = next
  block : wordAt m (x.addr + 8) = maj
  magic : wordAt m (x.addr + 12) = 0xC001C0DE
  size : wordAt m (x.addr + 16) = x.size
  reqSize : wordAt m (x.addr + 20) = x.reqSize
  first : prev = 0 → wordAt m (maj + 20) = x.addr
  after : prev ≠ 0 → wordAt m (prev + 4) = x.addr
  before : next ≠ 0 → wordAt m next = x.addr

/-- What the stores of a case leave, when they write the words of the new minor and of its neighbours. -/
theorem carved_of_stores (hmaj : maj + 24 ≤ x.addr)
    (hsum : wordAt m (maj + 16) + (24 + x.size) < 0x100000000)
    (hprev : prev ≠ 0 → maj + 24 ≤ prev ∧ prev + 24 ≤ x.addr) (hnext : next ≠ 0 → x.stop ≤ next ∧ next < 0x100000000)
    (hl : ∀ p ∈ l, p.1 = maj + 20 ∧ prev = 0 ∨ (prev ≠ 0 ∧ p.1 = prev + 4) ∨ (next ≠ 0 ∧ p.1 = next) ∨
      (x.addr ≤ p.1 ∧ p.1 + 4 ≤ x.addr + 24))
    (hw : NewWords (putWords m l) maj prev next x) : Carved m (carve m maj l x) maj prev next x := by
  have hroom := x.room
  have hptr := x.ptr_spec
  have hstop : x.stop = x.addr + 24 + x.size := rfl
  have hword : ∀ c, (c + 4 ≤ maj + 16 ∨ maj + 20 ≤ c) → (c + 4 ≤ x.ptr - 16 ∨ x.ptr - 16 < c) →
      wordAt (carve m maj l x) c = wordAt (putWords m l) c := by
    intro c h1 h2
    unfold carve
    rw [wordAt_putByte_apart h2, wordAt_putWord_apart h1]
  have husage : wordAt (putWords m l) (maj + 16) = wordAt m (maj + 16) := by
    refine wordAt_congr fun a ha ha' => putWords_apart fun p hpl => ?_
    have := hl p hpl
    by_cases hp0 : prev = 0 <;> by_cases hn0 : next = 0 <;> simp only [hp0, hn0, ne_eq, not_true_eq_false,
      not_false_eq_true, forall_const, false_and, true_and, and_true, and_false, false_or] at this hprev hnext <;> omega
  refine ⟨⟨?_, ?_, ?_, ?_, ?_⟩, ?_, ?_, ?_, ?_, fun hne => ?_, fun hne => ?_, fun a h1 h2 h3 h4 => ?_⟩
  · rw [hword _ (by omega) (by omega), hw.block]
  · rw [hword _ (by omega) (by omega), hw.magic]
  · rw [hword _ (by omega) (by omega), hw.size]
  · rw [hword _ (by omega) (by omega), hw.reqSize]
  · unfold carve
    rw [putByte_self, BitVec.toNat_ofNat]
    omega
  · rw [hword _ (by omega) (by omega), hw.prevLink]
  · rw [hword _ (by omega) (by omega), hw.nextLink]
  · unfold carve
    rw [wordAt_putByte_apart (by omega), wordAt_putWord (by omega), husage]
  · rw [hword _ (by omega) (by omega)]
    split
    · rename_i hp0
      exact hw.first hp0
    · rename_i hp0
      have := hprev hp0
      refine wordAt_congr fun a ha ha' => putWords_apart fun p hpl => ?_
      have := hl p hpl
      by_cases hn0 : next = 0
      · omega
      · have := hnext hn0
        omega
  · have := hprev hne
    rw [hword _ (by omega) (by omega)]
    exact hw.after hne
  · have := hnext hne
    rw [hword _ (by omega) (by omega)]
    exact hw.before hne
  · unfold carve
    rw [putByte_apart (by omega), putWord_apart (by omega)]
    refine putWords_apart fun p hpl => ?_
    rcases hl p hpl with ⟨hp, hp0⟩ | ⟨hp0, hp⟩ | ⟨hn0, hp⟩ | hp
    · omega
    · have := h2 hp0
      omega
    · have := h3 hn0
      omega
    · omega

end Case

/-! ## The four ways to write a minor -/

section Ways

variable {P : Nat → Prop} {base : Vm} {m : Memory} {h : Heap} {M : Major} {x y z : Minor}

/-- The words of one block are in its pages. -/
structure InBlock (P : Nat → Prop) (M : Major) : Prop where
  pages : InPages P M.addr (M.pages * 4096)

theorem InBlock.sub (hb : InBlock P M) {a n : Nat} (h1 : M.addr ≤ a) (h2 : a + n ≤ M.stop) : InPages P a n :=
  hb.pages.sub h1 (by unfold Major.stop at h2; omega)

/-- How a case of `kmalloc` ends: a minor was written between its neighbours. -/
def Written (P : Nat → Prop) (base : Vm) (m : Memory) (h : Heap) (maj prev next : Nat) (x : Minor)
    (r : HeapM (Nat × Heap)) : Prop :=
  ∃ vm' m', r = .ok (x.ptr, { h with
      vm := vm', inuse := (h.inuse + x.size) % 0x10000000000000000, spinlock := 0#32 }) ∧
    Sees P base vm' m' ∧ Carved m m' maj prev next x

/-- **Stores of a case** that write the words of a new minor leave it written. -/
theorem written_of_stores {prev next : Nat} {l : List (Nat × Nat)} (hp : HeapPages P base) (hs : Sees P base h.vm m)
    (hb : InBlock P M) (hM : MajorAt m M) (hlock : h.spinlock = 1#32) (hlow : M.addr + 24 ≤ x.addr)
    (hfit : x.stop ≤ M.stop) (hused : M.used + (24 + x.size) < 0x100000000)
    (hprev : prev ≠ 0 → M.addr + 24 ≤ prev ∧ prev + 24 ≤ x.addr)
    (hnext : next ≠ 0 → x.stop ≤ next ∧ next + 24 ≤ M.stop)
    (hl : ∀ p ∈ l, p.1 = M.addr + 20 ∧ prev = 0 ∨ (prev ≠ 0 ∧ p.1 = prev + 4) ∨ (next ≠ 0 ∧ p.1 = next) ∨
      (x.addr ≤ p.1 ∧ p.1 + 4 ≤ x.addr + 24)) (hw : NewWords (putWords m l) M.addr prev next x) :
    Written P base m h M.addr prev next x (do
      let h ← h.stores l
      let h ← addUsage M.addr x.size h
      handOut x.addr x.size h) := by
  have hbelow : M.stop ≤ 0x100000000 := M.below
  have hroom := x.room
  have hstop : x.stop = x.addr + 24 + x.size := rfl
  have hsum : wordAt m (M.addr + 16) + (24 + x.size) < 0x100000000 := by rw [hM.usage]; exact hused
  have hcarved := carved_of_stores hlow hsum hprev (fun h => ⟨(hnext h).1, by have := hnext h; omega⟩) hl hw
  have husage : wordAt (putWords m l) (M.addr + 16) = wordAt m (M.addr + 16) := by
    refine wordAt_congr fun a ha ha' => putWords_apart fun p hpl => ?_
    rcases hl p hpl with ⟨hp, hp0⟩ | ⟨hp0, hp⟩ | ⟨hn0, hp⟩ | hp
    · omega
    · have := hprev hp0
      omega
    · have := hnext hn0
      omega
    · omega
  have hin : ∀ p ∈ l, InPages P p.1 4 := by
    intro p hpl
    rcases hl p hpl with ⟨hp, hp0⟩ | ⟨hp0, hp⟩ | ⟨hn0, hp⟩ | hp
    · exact hb.sub (by omega) (by omega)
    · have := hprev hp0
      exact hb.sub (by omega) (by omega)
    · have := hnext hn0
      exact hb.sub (by omega) (by omega)
    · exact hb.sub (by omega) (by omega)
  obtain ⟨vm', hrun, hs'⟩ := case_spec hp hs hin (hb.sub (a := M.addr + 16) (by omega) (by omega))
    (hb.sub (a := x.addr) (by omega) (by omega)) (by omega) (by rw [husage]; exact hsum) hlock
  exact ⟨vm', _, hrun, hs', hcarved⟩

theorem case2_spec (hp : HeapPages P base) (hs : Sees P base h.vm m) (hb : InBlock P M) (hM : MajorAt m M)
    (hlock : h.spinlock = 1#32) (hx : x.addr = M.addr + 24) (hfit : x.stop ≤ M.stop)
    (hused : M.used + (24 + x.size) < 0x100000000) :
    Written P base m h M.addr 0 0 x (case2 M.addr x.size x.reqSize h) := by
  have hbelow : M.stop ≤ 0x100000000 := M.below
  have hroom := x.room
  have hstop : x.stop = x.addr + 24 + x.size := rfl
  have hnew : add32 M.addr 24 = x.addr := (add32_eq (by omega)).trans hx.symm
  simp only [case2, hnew, majFirst, minMagic, minPrev, minNext, minBlock, minSize, minReqSize, liballocMagic]
  refine written_of_stores hp hs hb hM hlock (by omega) hfit hused (fun h => absurd rfl h) (fun h => absurd rfl h) ?_ ?_
  · simp only [List.forall_mem_cons, List.not_mem_nil, false_implies, implies_true, and_true, true_or, true_and]
    omega
  · constructor <;> simp (disch := omega) only [putWords, List.foldl_cons, List.foldl_nil, wordAt_putWord,
      wordAt_putWord_apart, ne_eq, not_true_eq_false, false_implies, forall_const]

theorem case3_spec (hp : HeapPages P base) (hs : Sees P base h.vm m) (hb : InBlock P M) (hM : MajorAt m M)
    (hlock : h.spinlock = 1#32) (hx : x.addr = M.addr + 24) (hfit : x.stop ≤ M.stop)
    (hused : M.used + (24 + x.size) < 0x100000000) (hz : x.stop ≤ z.addr) (hzM : z.stop ≤ M.stop) :
    Written P base m h M.addr 0 z.addr x (case3 M.addr z.addr x.size x.reqSize h) := by
  have hbelow : M.stop ≤ 0x100000000 := M.below
  have hroom := x.room
  have hstop : x.stop = x.addr + 24 + x.size := rfl
  have hzstop : z.stop = z.addr + 24 + z.size := rfl
  have hnew : add32 M.addr 24 = x.addr := (add32_eq (by omega)).trans hx.symm
  simp only [case3, hnew, majFirst, minMagic, minPrev, minNext, minBlock, minSize, minReqSize, liballocMagic]
  refine written_of_stores hp hs hb hM hlock (by omega) hfit hused (fun h => absurd rfl h)
    (fun _ => ⟨hz, by omega⟩) ?_ ?_
  · simp only [List.forall_mem_cons, List.not_mem_nil, false_implies, implies_true, and_true, true_or, true_and]
    omega
  · constructor <;> simp (disch := omega) only [putWords, List.foldl_cons, List.foldl_nil, wordAt_putWord,
      wordAt_putWord_apart, ne_eq, not_true_eq_false, false_implies, forall_const, implies_true]

theorem case41_spec (hp : HeapPages P base) (hs : Sees P base h.vm m) (hb : InBlock P M) (hM : MajorAt m M)
    (hlock : h.spinlock = 1#32) (hy : M.addr + 24 ≤ y.addr) (hx : x.addr = y.stop) (hfit : x.stop ≤ M.stop)
    (hused : M.used + (24 + x.size) < 0x100000000) :
    Written P base m h M.addr y.addr 0 x (case41 M.addr y.addr y.size x.size x.reqSize h) := by
  have hbelow : M.stop ≤ 0x100000000 := M.below
  have hroom := x.room
  have hstop : x.stop = x.addr + 24 + x.size := rfl
  have hystop : y.stop = y.addr + 24 + y.size := rfl
  have hy0 : y.addr ≠ 0 := by omega
  have hnew : add32 (add32 y.addr 24) y.size = x.addr := by unfold add32; omega
  simp only [case41, hnew, minMagic, minPrev, minNext, minBlock, minSize, minReqSize, liballocMagic]
  refine written_of_stores hp hs hb hM hlock (by omega) hfit hused (fun _ => ⟨hy, by omega⟩) (fun h => absurd rfl h)
    ?_ ?_
  · simp only [List.forall_mem_cons, List.not_mem_nil, false_implies, implies_true, and_true]
    omega
  · constructor <;> simp (disch := omega) only [putWords, List.foldl_cons, List.foldl_nil, wordAt_putWord,
      wordAt_putWord_apart, ne_eq, not_true_eq_false, false_implies, implies_true, hy0]

theorem case42_spec (hp : HeapPages P base) (hs : Sees P base h.vm m) (hb : InBlock P M) (hM : MajorAt m M)
    (hlock : h.spinlock = 1#32) (hy : M.addr + 24 ≤ y.addr) (hx : x.addr = y.stop) (hfit : x.stop ≤ M.stop)
    (hused : M.used + (24 + x.size) < 0x100000000) (hz : x.stop ≤ z.addr) (hzM : z.stop ≤ M.stop) :
    Written P base m h M.addr y.addr z.addr x (case42 M.addr y.addr y.size z.addr x.size x.reqSize h) := by
  have hbelow : M.stop ≤ 0x100000000 := M.below
  have hroom := x.room
  have hstop : x.stop = x.addr + 24 + x.size := rfl
  have hystop : y.stop = y.addr + 24 + y.size := rfl
  have hzstop : z.stop = z.addr + 24 + z.size := rfl
  have hy0 : y.addr ≠ 0 := by omega
  have hnew : add32 (add32 y.addr 24) y.size = x.addr := by unfold add32; omega
  simp only [case42, hnew, minMagic, minPrev, minNext, minBlock, minSize, minReqSize, liballocMagic]
  refine written_of_stores hp hs hb hM hlock (by omega) hfit hused (fun _ => ⟨hy, by omega⟩)
    (fun _ => ⟨hz, by omega⟩) ?_ ?_
  · simp only [List.forall_mem_cons, List.not_mem_nil, false_implies, implies_true, and_true]
    omega
  · constructor <;> simp (disch := omega) only [putWords, List.foldl_cons, List.foldl_nil, wordAt_putWord,
      wordAt_putWord_apart, ne_eq, false_implies, implies_true, hy0]

end Ways

/-! ## The search in a block -/

section Search

variable {P : Nat → Prop} {base : Vm} {m : Memory} {h : Heap} {M : Major} {y : Minor} {size reqSize : Nat}
  {pre post l₁ l₂ : List Minor}

/-- The first gap of a block for a minor of `size` bytes and its header. -/
def Major.gapFor (M : Major) (size : Nat) : Option (List Minor × List Minor) :=
  firstGap Minor.addr Minor.stop (24 + size) (M.addr + 24) M.minors M.stop

/-- A minor was written between `l₁` and `l₂`, behind the last one of `l₁`. -/
def PlacedAt (P : Nat → Prop) (base : Vm) (m : Memory) (h : Heap) (M : Major) (size reqSize : Nat) (l₁ l₂ : List Minor)
    (r : HeapM (Option (Nat × Heap))) : Prop :=
  ∃ x : Minor, x.addr = endOf Minor.stop (M.addr + 24) l₁ ∧ x.size = size ∧ x.reqSize = reqSize ∧
    ∃ q, r = .ok (some q) ∧ Written P base m h M.addr (lastPtr l₁) (headPtr l₂) x (.ok q)

theorem Written.placedAt {x : Minor} {prev next : Nat} {r : HeapM (Nat × Heap)}
    (h' : Written P base m h M.addr prev next x r) (l₁ l₂ : List Minor)
    (hx : x.addr = endOf Minor.stop (M.addr + 24) l₁)
    (hprev : lastPtr l₁ = prev) (hnext : headPtr l₂ = next) :
    PlacedAt P base m h M x.size x.reqSize l₁ l₂ (do return some (← r)) := by
  subst hprev hnext
  obtain ⟨vm', m', rfl, hs, hc⟩ := h'
  exact ⟨x, hx, rfl, rfl, _, rfl, vm', m', rfl, hs, hc⟩

/-- A gap that is large enough keeps the usage in bounds. -/
theorem used_of_gap (hM : M.minors = l₁ ++ l₂)
    (hgap : endOf Minor.stop (M.addr + 24) l₁ + (24 + size) ≤ startOf Minor.addr M.stop l₂) :
    M.used + (24 + size) < 0x100000000 := by
  have h := Packed.occupied_le (hM ▸ M.packed : Packed Minor.addr Minor.stop (M.addr + 24) (l₁ ++ l₂) M.stop)
  have hbelow : M.stop ≤ 0x100000000 := M.below
  have hnonzero := M.nonzero
  unfold Major.used
  rw [hM]
  omega

theorem mem_of_minors (hM : M.minors = pre ++ y :: post) : y ∈ M.minors := by
  rw [hM]
  exact List.mem_append_right _ List.mem_cons_self

/-- The links of a minor. -/
theorem MajorAt.links (h : MajorAt m M) (hM : M.minors = pre ++ y :: post) :
    wordAt m y.addr = lastPtr pre ∧ wordAt m (y.addr + 4) = headPtr post := by
  have hchain := h.chain
  rw [Major.addrs, hM, List.map_append, List.map_cons] at hchain
  exact hchain.at

/-- **CASE 4** from a minor on: the first gap behind it. -/
theorem case4_spec (hp : HeapPages P base) (hs : Sees P base h.vm m) (hb : InBlock P M) (hMm : MajorAt m M)
    (hlock : h.spinlock = 1#32) (hroom : reqSize + 32 ≤ size) (hneed : 24 + size < 0x100000000) {rounds : Nat}
    (hM : M.minors = pre ++ y :: post) (hr : post.length + 2 ≤ rounds) :
    match firstGap Minor.addr Minor.stop (24 + size) y.stop post M.stop with
    | none => case4 M.addr size reqSize rounds y.addr h = .ok none
    | some (l₁, l₂) =>
      PlacedAt P base m h M size reqSize (pre ++ y :: l₁) l₂ (case4 M.addr size reqSize rounds y.addr h) := by
  have hbelow : M.stop ≤ 0x100000000 := M.below
  have hMstop : M.stop = M.addr + M.pages * 4096 := rfl
  induction post generalizing pre y rounds with
  | nil =>
    obtain ⟨rounds, rfl⟩ := Nat.exists_eq_add_of_le hr
    have hyM := mem_of_minors hM
    have hy := Major.mem hyM
    have hystop : y.stop = y.addr + 24 + y.size := rfl
    have hy0 : y.addr ≠ 0 := by omega
    have hnext : h.load (y.addr + 4) = .ok 0 := by
      rw [hs.load hp (hb.sub (by omega) (by omega)), (hMm.links hM).2, headPtr_nil]
    have hsize : h.load (y.addr + 16) = .ok y.size := by
      rw [hs.load hp (hb.sub (by omega) (by omega)), (hMm.minors y hyM).size]
    have hmajsize : h.load (M.addr + 12) = .ok (M.pages * 4096) := by
      rw [hs.load hp (hb.sub (by omega) (by omega)), hMm.size]
    have hdiff : sub32 (sub32 (sub32 (add32 M.addr (M.pages * 4096)) y.addr) 24) y.size = M.stop - y.stop := by
      unfold sub32 add32
      omega
    have hadd : add32 size 24 = 24 + size := by rw [add32_eq (by omega)]; omega
    rw [List.length_nil, show 0 + 2 + rounds = rounds + 1 + 1 by omega]
    have hfalse : case4 M.addr size reqSize (rounds + 1) 0 h = .ok none := rfl
    simp only [firstGap, case4, if_neg hy0, hnext, hsize, hmajsize, hdiff, hadd, ok_bind, if_true]
    by_cases hfit : y.stop + (24 + size) ≤ M.stop
    · rw [if_pos hfit, if_pos (by omega : 24 + size ≤ M.stop - y.stop)]
      have hend : y.stop = endOf Minor.stop (M.addr + 24) (pre ++ [y]) := endOf_concat.symm
      have hwritten := case41_spec (x := ⟨y.stop, size, reqSize, hroom⟩) hp hs hb hMm hlock hy.1 rfl
        (by show y.stop + 24 + size ≤ M.stop; omega)
        (used_of_gap (by rw [hM, List.append_nil] : M.minors = (pre ++ [y]) ++ []) (by rw [← hend]; exact hfit))
      exact hwritten.placedAt _ [] hend lastPtr_concat rfl
    · rw [if_neg hfit, if_neg (by omega : ¬ 24 + size ≤ M.stop - y.stop)]
      exact hfalse
  | cons z post ih =>
    obtain ⟨rounds, rfl⟩ := Nat.exists_eq_add_of_le hr
    have hyM := mem_of_minors hM
    have hy := Major.mem hyM
    have hystop : y.stop = y.addr + 24 + y.size := rfl
    have hy0 : y.addr ≠ 0 := by omega
    have hM' : M.minors = (pre ++ [y]) ++ z :: post := by rw [hM, List.append_assoc]; rfl
    have hz := Major.mem (mem_of_minors hM')
    have hyz : y.stop ≤ z.addr :=
      (hM ▸ M.packed : Packed Minor.addr Minor.stop (M.addr + 24) (pre ++ y :: z :: post) M.stop).around.2 z
        List.mem_cons_self
    have hzstop : z.stop = z.addr + 24 + z.size := rfl
    have hnext : h.load (y.addr + 4) = .ok z.addr := by
      rw [hs.load hp (hb.sub (by omega) (by omega)), (hMm.links hM).2, headPtr_cons]
    have hsize : h.load (y.addr + 16) = .ok y.size := by
      rw [hs.load hp (hb.sub (by omega) (by omega)), (hMm.minors y hyM).size]
    have hdiff : sub32 (sub32 (sub32 z.addr y.addr) 24) y.size = z.addr - y.stop := by
      unfold sub32
      omega
    have hadd : add32 size 24 = 24 + size := by rw [add32_eq (by omega)]; omega
    have hz0 : z.addr ≠ 0 := by omega
    rw [List.length_cons, show post.length + 1 + 2 + rounds = (post.length + 2 + rounds) + 1 by omega]
    simp only [firstGap, case4, if_neg hy0, hnext, hsize, hdiff, hadd, ok_bind, if_neg hz0]
    by_cases hfit : y.stop + (24 + size) ≤ z.addr
    · rw [if_pos hfit, if_pos (by omega : 24 + size ≤ z.addr - y.stop)]
      have hend : y.stop = endOf Minor.stop (M.addr + 24) (pre ++ [y]) := endOf_concat.symm
      have hwritten := case42_spec (x := ⟨y.stop, size, reqSize, hroom⟩) hp hs hb hMm hlock hy.1 rfl
        (by show y.stop + 24 + size ≤ M.stop; omega)
        (used_of_gap hM' (by rw [← hend]; exact hfit))
        (by show y.stop + 24 + size ≤ z.addr; omega) hz.2
      exact hwritten.placedAt _ (z :: post) hend lastPtr_concat rfl
    · rw [if_neg hfit, if_neg (by omega : ¬ 24 + size ≤ z.addr - y.stop)]
      have hrest := ih hM' (Nat.le_add_right (post.length + 2) rounds)
      cases hgap : firstGap Minor.addr Minor.stop (24 + size) z.stop post M.stop with
      | none =>
        rw [hgap] at hrest
        exact hrest
      | some s =>
        rw [hgap] at hrest
        dsimp only at hrest
        rw [List.append_assoc] at hrest
        exact hrest

/-- **CASE 2 to CASE 4**: the first gap of the block. A block without minors has room, or nobody looks at it. -/
theorem placeIn_spec (hp : HeapPages P base) (hs : Sees P base h.vm m) (hb : InBlock P M) (hMm : MajorAt m M)
    (hlock : h.spinlock = 1#32) (hroom : reqSize + 32 ≤ size) (hneed : 24 + size < 0x100000000)
    (hempty : M.minors = [] → M.addr + 24 + (24 + size) ≤ M.stop) :
    match M.gapFor size with
    | none => placeIn M.addr size reqSize h = .ok none
    | some (l₁, l₂) => PlacedAt P base m h M size reqSize l₁ l₂ (placeIn M.addr size reqSize h) := by
  have hbelow : M.stop ≤ 0x100000000 := M.below
  have hstop := M.addr_lt_stop
  have hfirst : h.load (M.addr + 20) = .ok (headPtr M.minors) := by
    rw [hs.load hp (hb.sub (by omega) (by omega)), hMm.first]
    rfl
  unfold Major.gapFor placeIn
  simp only [majFirst, hfirst, ok_bind]
  cases hM : M.minors with
  | nil =>
    have hfit := hempty hM
    have hM' : M.minors = [] ++ [] := hM
    rw [firstGap, if_pos hfit, headPtr_nil, if_pos rfl]
    have hwritten := case2_spec (x := ⟨M.addr + 24, size, reqSize, hroom⟩) hp hs hb hMm hlock rfl
      (by show M.addr + 24 + 24 + size ≤ M.stop; omega)
      (used_of_gap hM' hfit)
    exact hwritten.placedAt [] [] rfl rfl rfl
  | cons z post =>
    have hz := Major.mem (x := z) (M := M) (by rw [hM]; exact List.mem_cons_self)
    have hzstop : z.stop = z.addr + 24 + z.size := rfl
    have hz0 : z.addr ≠ 0 := by omega
    have hdiff : sub32 (sub32 z.addr M.addr) 24 = z.addr - (M.addr + 24) := by
      unfold sub32
      omega
    have hadd : add32 size 24 = 24 + size := by rw [add32_eq (by omega)]; omega
    have hM' : M.minors = [] ++ z :: post := hM
    simp only [headPtr_cons, if_neg hz0, hdiff, hadd, firstGap]
    by_cases hfit : M.addr + 24 + (24 + size) ≤ z.addr
    · rw [if_pos hfit, if_pos (by omega : 24 + size ≤ z.addr - (M.addr + 24))]
      have hwritten := case3_spec (x := ⟨M.addr + 24, size, reqSize, hroom⟩) hp hs hb hMm hlock rfl
        (by show M.addr + 24 + 24 + size ≤ M.stop; omega)
        (used_of_gap hM' hfit) (by show M.addr + 24 + 24 + size ≤ z.addr; omega) hz.2
      exact hwritten.placedAt [] (z :: post) rfl rfl rfl
    · rw [if_neg hfit, if_neg (by omega : ¬ 24 + size ≤ z.addr - (M.addr + 24))]
      have hlen : post.length + 2 ≤ heapRounds := by
        have := M.length_lt
        rw [hM, List.length_cons] at this
        unfold heapRounds
        omega
      have hrest := case4_spec hp hs hb hMm hlock hroom hneed hM' hlen
      cases hgap : firstGap Minor.addr Minor.stop (24 + size) z.stop post M.stop with
      | none =>
        rw [hgap] at hrest
        exact hrest
      | some s =>
        rw [hgap] at hrest
        exact hrest

end Search

end Myunix.Liballoc
