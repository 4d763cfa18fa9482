import Myunix.Lib.Contract
import Myunix.Liballoc.Krealloc

/-!
# What the heap is for

For its clients the heap is a map from pointers to blocks of bytes (`Blocks`), together with the pages that it has for
itself (`Store`). A client may use the blocks it got, and only these; it may ask for blocks, for larger ones, and give
blocks back. `heapContract` is the contract between both.

* `Answers` is what each call answers, and `Separate` what holds of the blocks at any time: pointers are aligned and no
  two blocks have a byte in common (`Answers.separate`).
* `Shows` connects the blocks to the minors that lie in memory.
-/

namespace Myunix.Liballoc

open Lib Pmm Vmm Syscall Process

/-! ## The calls -/

/-- What the clients of the heap do: calls, accesses to their blocks, and whatever the rest of the kernel does to the
machine. -/
inductive HeapOp
  | malloc (n : Nat)
  | calloc (nobj size : Nat)
  | realloc (p n : Nat)
  | free (p : Nat)
  | read (p i : Nat)
  | write (p i : Nat) (b : Byte)
  | elsewhere (vm : Vm)

/-- An operation of a client: a pointer, a byte or 0, and the heap. -/
def heapStep : HeapOp → Heap → HeapM (Nat × Heap)
  | .malloc n, h => kmalloc n h
  | .calloc nobj size, h => kcalloc nobj size h
  | .realloc p n, h => krealloc p n h
  | .free p, h => do
    let h ← kfree p h
    return (0, h)
  | .read p i, h => do
    let b ← ofKernel (kernelLoad h.vm (p + i))
    return (b.toNat, h)
  | .write p i b, h => do
    let vm ← ofKernel (kernelStore h.vm (p + i) b)
    return (0, { h with vm := vm })
  | .elsewhere vm, h => return (0, { h with vm := vm })

/-! ## Blocks -/

/-- The bytes of each block that was handed out, by its pointer. -/
abbrev Blocks := Nat → Option (List Byte)

/-- What the clients know: their blocks, and the pages of the heap. -/
structure Store where
  blocks : Blocks
  pages : Nat → Prop

/-- `n` bytes at `p` are no bytes of a block. -/
structure Fresh (b : Blocks) (p n : Nat) : Prop where
  nonzero : p ≠ 0
  aligned : p % 16 = 0
  below : p + n < 0x100000000
  apart : ∀ q bs, b q = some bs → p + n < q ∨ q + bs.length < p

/-- At `p` there is a new block with the bytes `bs`. -/
def Allots (b : Blocks) (p : Nat) (bs : List Byte) (b' : Blocks) : Prop :=
  Fresh b p bs.length ∧ b' = Function.update b p (some bs)

/-- What a call answers. -/
def Answers (b : Blocks) : HeapOp → Nat → Blocks → Prop
  | .malloc n, r, b' => ∃ bs, bs.length = n ∧ Allots b r bs b'
  | .calloc nobj size, r, b' => Allots b r (List.replicate (nobj * size % 0x100000000) 0) b'
  | .realloc p n, r, b' =>
    if n = 0 then r = 0 ∧ b' = Function.update b p none
    else if p = 0 then ∃ bs, bs.length = n ∧ Allots b r bs b'
    else ∃ bs, b p = some bs ∧
      if n ≤ bs.length then r = p ∧ b' = Function.update b p (some (bs.take n))
      else ∃ cs, (bs ++ cs).length = n ∧ Fresh b r n ∧
        b' = Function.update (Function.update b p none) r (some (bs ++ cs))
  | .free p, r, b' => r = 0 ∧ b' = Function.update b p none
  | .read p i, r, b' => b' = b ∧ ∃ bs, b p = some bs ∧ (bs[i]?).map BitVec.toNat = some r
  | .write p i v, r, b' => r = 0 ∧ ∃ bs, b p = some bs ∧ b' = Function.update b p (some (bs.set i v))
  | .elsewhere _, r, b' => r = 0 ∧ b' = b

/-- The blocks have pointers that are aligned, end in the address space, and have no byte in common. -/
structure Separate (b : Blocks) : Prop where
  pointer : ∀ p bs, b p = some bs → p ≠ 0 ∧ p % 16 = 0 ∧ p + bs.length < 0x100000000
  apart : ∀ p q bs cs, b p = some bs → b q = some cs → p = q ∨ p + bs.length < q ∨ q + cs.length < p

section Blocks

variable {b b' : Blocks} {p q r n : Nat} {bs cs : List Byte} {op : HeapOp}

theorem answers_realloc_zero (hn : n = 0) : Answers b (.realloc p n) r b' ↔ r = 0 ∧ b' = Function.update b p none := by
  rw [Answers, if_pos hn]

theorem answers_realloc_null (hn : n ≠ 0) :
    Answers b (.realloc 0 n) r b' ↔ ∃ bs, bs.length = n ∧ Allots b r bs b' := by
  rw [Answers, if_neg hn, if_pos rfl]

theorem answers_realloc (hn : n ≠ 0) (hp : p ≠ 0) :
    Answers b (.realloc p n) r b' ↔ ∃ bs, b p = some bs ∧
      if n ≤ bs.length then r = p ∧ b' = Function.update b p (some (bs.take n))
      else ∃ cs, (bs ++ cs).length = n ∧ Fresh b r n ∧
        b' = Function.update (Function.update b p none) r (some (bs ++ cs)) := by
  rw [Answers, if_neg hn, if_neg hp]

theorem Separate.remove (h : Separate b) : Separate (Function.update b p none) := by
  have hold : ∀ q cs, Function.update b p none q = some cs → b q = some cs := by
    intro q cs hq
    by_cases he : q = p
    · subst he
      rw [Function.update_self] at hq
      cases hq
    · rwa [Function.update_of_ne he] at hq
  exact ⟨fun q cs hq => h.pointer q cs (hold q cs hq),
    fun q r cs ds hq hr => h.apart q r cs ds (hold q cs hq) (hold r ds hr)⟩

/-- A block joins that is apart from the others. -/
theorem Separate.insert (h : Separate b) (hp : p ≠ 0 ∧ p % 16 = 0 ∧ p + bs.length < 0x100000000)
    (hap : ∀ q cs, q ≠ p → b q = some cs → p + bs.length < q ∨ q + cs.length < p) :
    Separate (Function.update b p (some bs)) := by
  have hcases : ∀ q cs, Function.update b p (some bs) q = some cs → q = p ∧ cs = bs ∨ q ≠ p ∧ b q = some cs := by
    intro q cs hq
    by_cases he : q = p
    · subst he
      rw [Function.update_self] at hq
      exact Or.inl ⟨rfl, (Option.some.inj hq).symm⟩
    · rw [Function.update_of_ne he] at hq
      exact Or.inr ⟨he, hq⟩
  refine ⟨fun q cs hq => ?_, fun q r cs ds hq hr => ?_⟩
  · rcases hcases q cs hq with ⟨rfl, rfl⟩ | ⟨-, hq⟩
    · exact hp
    · exact h.pointer q cs hq
  · rcases hcases q cs hq with ⟨hqp, rfl⟩ | ⟨hne, hqb⟩ <;> rcases hcases r ds hr with ⟨hrp, rfl⟩ | ⟨hne', hrb⟩
    · exact Or.inl (hqp.trans hrp.symm)
    · rw [hqp]
      exact Or.inr (hap r ds hne' hrb)
    · rw [hrp]
      exact Or.inr (hap q cs hne hqb).symm
    · exact h.apart q r cs ds hqb hrb

end Blocks

/-! ## The contract -/

/-- What the rest of the kernel may do: not to touch the pages `P` of the heap. -/
structure LeavesAlone (P : Nat → Prop) (vm vm' : Vm) : Prop where
  tables : KernelTables vm'
  zero : vm'.pmm.used 0 = true
  entry : ∀ n, P n → vm'.entry .kernel n = vm.entry .kernel n
  bytes : ∀ n, P n → vm'.frames (kframe vm n) = vm.frames (kframe vm n)
  used : ∀ n, P n → kframe vm n < vm'.pmm.size ∧ vm'.pmm.used (kframe vm n) = true

/-- A request for `n` bytes: not so large that sizes wrap, and not at the end of the address space. -/
def MayAsk (h : Heap) (n : Nat) : Prop :=
  n + 80 < 0x100000000 ∧ RunBelowTop h.vm .kernel (newPages (n + 32))

/-- What a client may do. -/
def Allowed (A : Store) (h : Heap) : HeapOp → Prop
  | .malloc n => MayAsk h n
  | .calloc nobj size => MayAsk h (nobj * size % 0x100000000)
  | .realloc p n => (p = 0 ∧ n ≠ 0 ∧ MayAsk h n) ∨ ∃ bs, A.blocks p = some bs ∧ (bs.length < n → MayAsk h n)
  | .free p => ∃ bs, A.blocks p = some bs
  | .read p i => ∃ bs, A.blocks p = some bs ∧ i < bs.length
  | .write p i _ => ∃ bs, A.blocks p = some bs ∧ i < bs.length
  | .elsewhere vm => LeavesAlone A.pages h.vm vm

/-- There is no room for `n` bytes: the heap has lost its last page, or there are no pages for another major. -/
def NoRoom (A : Store) (h : Heap) (n : Nat) : Prop :=
  (∀ k, ¬ A.pages k) ∨ ¬ PagesLeft h.vm (newPages (n + 32))

/-- Why a call may stop the kernel. -/
def MayStop (A : Store) (h : Heap) : HeapOp → Prop
  | .malloc n => NoRoom A h n
  | .calloc nobj size => NoRoom A h (nobj * size % 0x100000000)
  | .realloc p n => (p = 0 ∧ NoRoom A h n) ∨
      ∃ bs, A.blocks p = some bs ∧ bs.length < n ∧ (bs = [] ∨ NoRoom A h n)
  | _ => False

/-- **The contract of the heap.** -/
def heapContract : Contract Store Heap HeapOp Nat HeapStop where
  allowed := Allowed
  promise A h op r A' h' := Answers A.blocks op r A'.blocks ∧
    ((∃ vm, op = .elsewhere vm) ∧ A'.pages = A.pages ∨ Spares h.vm A.pages h'.vm A'.pages)
  stops A h op e := e = .failure .assertion ∧ MayStop A h op

/-! ## Blocks in memory -/

/-- The bytes of a block. -/
def bytesAt (m : Memory) (p n : Nat) : List Byte := (List.range n).map fun i => m (p + i)

/-- The blocks are the minors, with the bytes that were asked for. -/
structure Shows (Ms : List Major) (m : Memory) (b : Blocks) : Prop where
  live : ∀ x, Live Ms x → b x.ptr = some (bytesAt m x.ptr x.reqSize)
  only : ∀ p bs, b p = some bs → ∃ x, Live Ms x ∧ x.ptr = p

section Shows

variable {Ms Ms' : List Major} {m m' : Memory} {b : Blocks} {x y : Minor} {p n i : Nat} {bs : List Byte}

@[simp] theorem length_bytesAt : (bytesAt m p n).length = n := by
  unfold bytesAt
  rw [List.length_map, List.length_range]

theorem bytesAt_congr (h : ∀ i < n, m' (p + i) = m (p + i)) : bytesAt m' p n = bytesAt m p n :=
  List.map_congr_left fun i hi => h i (List.mem_range.1 hi)

theorem getElem?_bytesAt (hi : i < n) : (bytesAt m p n)[i]? = some (m (p + i)) := by
  unfold bytesAt
  rw [List.getElem?_map, List.getElem?_range hi]
  rfl

theorem bytesAt_take (h : n ≤ p) {a : Nat} : (bytesAt m a p).take n = bytesAt m a n := by
  unfold bytesAt
  rw [← List.map_take, List.take_range, Nat.min_eq_left h]

/-- Two blocks with one pointer are one block. -/
theorem ptr_inj (hat : HeapAt m Ms) (hx : Live Ms x) (hy : Live Ms y) (he : x.ptr = y.ptr) : x = y := by
  have hxp := x.ptr_spec
  have hyp := y.ptr_spec
  have hxs := x.ptr_stop
  have hys := y.ptr_stop
  rcases hat.live_apart hx hy with rfl | hap | hap
  · rfl
  · omega
  · omega

/-- The block at a pointer. -/
theorem Shows.at (hs : Shows Ms m b) (hp : b p = some bs) :
    ∃ x, Live Ms x ∧ x.ptr = p ∧ bs = bytesAt m p x.reqSize := by
  obtain ⟨x, hx, rfl⟩ := hs.only p bs hp
  exact ⟨x, hx, rfl, Option.some.inj (hp.symm.trans (hs.live x hx))⟩

theorem Shows.nil : Shows [] m fun _ => none :=
  ⟨fun x ⟨M, hM, _⟩ => absurd hM List.not_mem_nil, fun p bs h => by cases h⟩

/-- **A block joins.** -/
theorem Shows.insert (hs : Shows Ms m b) (hlive : ∀ y, Live Ms' y ↔ y = x ∨ Live Ms y)
    (hap : ∀ y, Live Ms y → x.stop ≤ y.addr ∨ y.stop ≤ x.addr)
    (hkept : ∀ y, Live Ms y → ∀ a, y.addr + 24 ≤ a → a < y.stop → m' a = m a) :
    Shows Ms' m' (Function.update b x.ptr (some (bytesAt m' x.ptr x.reqSize))) := by
  have hxp := x.ptr_spec
  have hxs := x.ptr_stop
  have hne : ∀ y, Live Ms y → y.ptr ≠ x.ptr := by
    intro y hy he
    have hyp := y.ptr_spec
    have hys := y.ptr_stop
    have := hap y hy
    omega
  refine ⟨fun y hy => ?_, fun p bs hp => ?_⟩
  · rcases (hlive y).1 hy with rfl | hy
    · exact Function.update_self ..
    · have hyp := y.ptr_spec
      have hys := y.ptr_stop
      rw [Function.update_of_ne (hne y hy), hs.live y hy]
      exact congrArg some (bytesAt_congr fun i hi => (hkept y hy _ (by omega) (by omega)).symm)
  · by_cases he : p = x.ptr
    · exact ⟨x, (hlive x).2 (Or.inl rfl), he.symm⟩
    · rw [Function.update_of_ne he] at hp
      obtain ⟨y, hy, rfl⟩ := hs.only p bs hp
      exact ⟨y, (hlive y).2 (Or.inr hy), rfl⟩

/-- **A block leaves.** -/
theorem Shows.remove (hs : Shows Ms m b) (hat : HeapAt m Ms) (hx : Live Ms x)
    (hlive : ∀ y, Live Ms' y ↔ y ≠ x ∧ Live Ms y)
    (hkept : ∀ y, Live Ms' y → ∀ a, y.addr + 24 ≤ a → a < y.stop → m' a = m a) :
    Shows Ms' m' (Function.update b x.ptr none) := by
  refine ⟨fun y hy => ?_, fun p bs hp => ?_⟩
  · obtain ⟨hne, hyMs⟩ := (hlive y).1 hy
    have hyp := y.ptr_spec
    have hys := y.ptr_stop
    rw [Function.update_of_ne fun he => hne (ptr_inj hat hyMs hx he), hs.live y hyMs]
    exact congrArg some (bytesAt_congr fun i hi => (hkept y hy _ (by omega) (by omega)).symm)
  · by_cases he : p = x.ptr
    · subst he
      rw [Function.update_self] at hp
      cases hp
    · rw [Function.update_of_ne he] at hp
      obtain ⟨y, hy, rfl⟩ := hs.only p bs hp
      exact ⟨y, (hlive y).2 ⟨fun hyx => he (by rw [hyx]), hy⟩, rfl⟩

/-- **A block takes the place of another one.** -/
theorem Shows.replace (hs : Shows Ms m b) (hat : HeapAt m Ms) (hx : Live Ms x)
    (hlive : ∀ z, Live Ms' z ↔ z = y ∨ z ≠ x ∧ Live Ms z) (hne : ∀ z, Live Ms z → z ≠ x → z.ptr ≠ y.ptr)
    (hkept : ∀ z, Live Ms z → z ≠ x → ∀ a, z.addr + 24 ≤ a → a < z.stop → m' a = m a) :
    Shows Ms' m' (Function.update (Function.update b x.ptr none) y.ptr (some (bytesAt m' y.ptr y.reqSize))) := by
  refine ⟨fun z hz => ?_, fun p bs hp => ?_⟩
  · rcases (hlive z).1 hz with rfl | ⟨hzx, hz⟩
    · exact Function.update_self ..
    · have hzp := z.ptr_spec
      have hzs := z.ptr_stop
      rw [Function.update_of_ne (hne z hz hzx), Function.update_of_ne fun he => hzx (ptr_inj hat hz hx he),
        hs.live z hz]
      exact congrArg some (bytesAt_congr fun i hi => (hkept z hz hzx _ (by omega) (by omega)).symm)
  · by_cases hy : p = y.ptr
    · exact ⟨y, (hlive y).2 (Or.inl rfl), hy.symm⟩
    · rw [Function.update_of_ne hy] at hp
      by_cases hxp : p = x.ptr
      · subst hxp
        rw [Function.update_self] at hp
        cases hp
      · rw [Function.update_of_ne hxp] at hp
        obtain ⟨z, hz, rfl⟩ := hs.only p bs hp
        exact ⟨z, (hlive z).2 (Or.inr ⟨fun hzx => hxp (by rw [hzx]), hz⟩), rfl⟩

/-- The same blocks with other bytes in one of them. -/
theorem Shows.change (hs : Shows Ms m b) (hat : HeapAt m Ms) (hx : Live Ms x)
    (hm : ∀ a, a < x.ptr ∨ x.ptr + x.reqSize ≤ a → m' a = m a) :
    Shows Ms m' (Function.update b x.ptr (some (bytesAt m' x.ptr x.reqSize))) := by
  have hxp := x.ptr_spec
  have hxs := x.ptr_stop
  refine ⟨fun y hy => ?_, fun p bs hp => ?_⟩
  · by_cases he : y.ptr = x.ptr
    · rw [ptr_inj hat hy hx he]
      exact Function.update_self ..
    · have hyp := y.ptr_spec
      have hys := y.ptr_stop
      rw [Function.update_of_ne he, hs.live y hy]
      refine congrArg some (bytesAt_congr fun i hi => (hm _ ?_).symm)
      rcases hat.live_apart hx hy with rfl | hap | hap
      · exact absurd rfl he
      · omega
      · omega
  · by_cases he : p = x.ptr
    · exact ⟨x, hx, he.symm⟩
    · rw [Function.update_of_ne he] at hp
      exact hs.only p bs hp

end Shows

end Myunix.Liballoc
