import Myunix.Liballoc.Layout
import Myunix.Liballoc.Pages

/-!
# The heap as a whole

`Holds h Ms m` is the invariant of the heap: its pages are mapped and their frames are in use, `m` are the bytes that
the kernel finds in them, the majors `Ms` lie there, and the variables of the heap agree with them.

* `Holds.sees`: stores into the pages are stores to `m`; `Holds.stored` puts the invariant together again.
* `allocateNewPage_spec`: a new major takes pages that were free, or there are not as many and the kernel stops;
  `NewMajor.joins`: the heap with the new major.
-/

namespace Myunix.Liballoc

open Lib Pmm Vmm Syscall Process

/-- Page `n` belongs to one of the majors. -/
def HeapPage (Ms : List Major) (n : Nat) : Prop := ∃ M ∈ Ms, PageIn (M.addr / 4096) M.pages n

/-- The block `x` was handed out. -/
def Live (Ms : List Major) (x : Minor) : Prop := ∃ M ∈ Ms, x ∈ M.minors

/-- The bytes of all pages. -/
def totalSize (Ms : List Major) : Nat := (Ms.map fun M => M.pages * 4096).sum

/-- The bytes of all blocks that were handed out. -/
def totalInuse (Ms : List Major) : Nat := (Ms.map fun M => (M.minors.map Minor.size).sum).sum

/-- A major without minors is none but the first one, with the pages of `liballoc_init`. -/
def Filled : List Major → Prop
  | [] => True
  | M :: Ms => (M.minors = [] → M.pages = 16) ∧ ∀ N ∈ Ms, N.minors ≠ []

/-- The heap `h` consists of the majors `Ms`, and `m` are the bytes in its pages. -/
structure Holds (h : Heap) (Ms : List Major) (m : Memory) : Prop where
  tables : KernelTables h.vm
  zero : h.vm.pmm.used 0 = true
  pages : HeapPages (HeapPage Ms) h.vm
  byte : ∀ a, HeapPage Ms (a / 4096) → h.vm.frames (kframe h.vm (a / 4096)) (a % 4096) = m a
  headers : HeapAt m Ms
  root : h.memRoot = ptrOf (Ms.map Major.addr).head?
  bet : h.bestBet = 0 ∨ ∃ M ∈ Ms, M.addr = h.bestBet
  allocated : h.allocated = totalSize Ms % 0x10000000000000000
  inuse : h.inuse = totalInuse Ms % 0x10000000000000000

section State

variable {h : Heap} {Ms Ms' Ms'' : List Major} {m m' : Memory} {M N : Major} {vm vm' vm'' : Vm} {n x : Nat}
  {y z : Minor}

theorem totalSize_append {l l' : List Major} : totalSize (l ++ l') = totalSize l + totalSize l' := by
  simp only [totalSize, List.map_append, List.sum_append]

theorem totalInuse_append {l l' : List Major} : totalInuse (l ++ l') = totalInuse l + totalInuse l' := by
  simp only [totalInuse, List.map_append, List.sum_append]

theorem totalSize_cons : totalSize (M :: Ms) = M.pages * 4096 + totalSize Ms := by
  simp only [totalSize, List.map_cons, List.sum_cons]

theorem totalInuse_cons : totalInuse (M :: Ms) = (M.minors.map Minor.size).sum + totalInuse Ms := by
  simp only [totalInuse, List.map_cons, List.sum_cons]

theorem heapPage_append : HeapPage (Ms ++ [N]) n ↔ HeapPage Ms n ∨ PageIn (N.addr / 4096) N.pages n := by
  unfold HeapPage
  constructor
  · rintro ⟨M, hM, hn⟩
    rcases List.mem_append.1 hM with hM | hM
    · exact Or.inl ⟨M, hM, hn⟩
    · rw [List.mem_singleton.1 hM] at hn
      exact Or.inr hn
  · rintro (⟨M, hM, hn⟩ | hn)
    · exact ⟨M, List.mem_append_left _ hM, hn⟩
    · exact ⟨N, List.mem_append_right _ (List.mem_singleton_self N), hn⟩

theorem Filled.of_all (h : ∀ M ∈ Ms, M.minors ≠ []) : Filled Ms := by
  cases Ms with
  | nil => trivial
  | cons M Ms => exact ⟨fun he => absurd he (h M List.mem_cons_self), fun N hN => h N (List.mem_cons_of_mem M hN)⟩

/-- A major takes the place of another one with as many pages, and has minors. -/
theorem Filled.update {pre post : List Major} (h : Filled (pre ++ M :: post)) (hN : N.minors ≠ []) :
    Filled (pre ++ N :: post) := by
  cases pre with
  | nil => exact ⟨fun he => absurd he hN, h.2⟩
  | cons L pre =>
    refine ⟨h.1, fun K hK => ?_⟩
    rcases List.mem_append.1 hK with hK | hK
    · exact h.2 K (List.mem_append_left _ hK)
    · rcases List.mem_cons.1 hK with rfl | hK
      · exact hN
      · exact h.2 K (List.mem_append_right _ (List.mem_cons_of_mem M hK))

/-- A major leaves. -/
theorem Filled.drop {pre post : List Major} (h : Filled (pre ++ M :: post)) : Filled (pre ++ post) := by
  cases pre with
  | nil => exact Filled.of_all h.2
  | cons L pre =>
    refine ⟨h.1, fun K hK => h.2 K ?_⟩
    rcases List.mem_append.1 hK with hK | hK
    · exact List.mem_append_left _ hK
    · exact List.mem_append_right _ (List.mem_cons_of_mem M hK)

theorem live_below (hy : Live Ms y) : y.stop ≤ 0x100000000 := by
  obtain ⟨M, -, hy⟩ := hy
  exact (Major.mem hy).2.trans M.below

/-- Two blocks that were handed out have no byte in common. -/
theorem HeapAt.live_apart (hat : HeapAt m Ms) (hy : Live Ms y) (hz : Live Ms z) :
    y = z ∨ y.stop ≤ z.addr ∨ z.stop ≤ y.addr := by
  obtain ⟨M, hM, hy⟩ := hy
  obtain ⟨N, hN, hz⟩ := hz
  have hyM := Major.mem hy
  have hzN := Major.mem hz
  rcases hat.apart_or hM hN with rfl | hap
  · exact Major.apart hy hz
  · have hystop : y.stop = y.addr + 24 + y.size := rfl
    have hzstop : z.stop = z.addr + 24 + z.size := rfl
    omega

/-- There are fewer majors than rounds. -/
theorem HeapAt.length_le (hat : HeapAt m Ms) : Ms.length ≤ 0x100000 := by
  have hle : Ms.length * 4096 ≤ occupied Major.addr Major.stop Ms := length_le_occupied fun M _ => by
    have hstop := M.addr_lt_stop
    unfold Major.stop at hstop ⊢
    omega
  have htop := occupied_le_of_apart hat.apart fun M _ => M.below
  omega

/-- The bytes of a major are in its pages. -/
theorem pageIn_byte : PageIn (M.addr / 4096) M.pages (x / 4096) ↔ M.addr ≤ x ∧ x < M.stop := by
  have hal := M.aligned
  unfold PageIn Major.stop
  omega

theorem inPages_major (hM : M ∈ Ms) : InPages (HeapPage Ms) M.addr (M.pages * 4096) :=
  fun _ h1 h2 => ⟨M, hM, pageIn_byte.2 ⟨h1, h2⟩⟩

theorem Holds.sees (hh : Holds h Ms m) : Sees (HeapPage Ms) h.vm h.vm m := ⟨rfl, hh.byte, fun _ _ => rfl⟩

/-- **After stores into the pages**, the same pages hold other majors. -/
theorem Holds.stored (hh : Holds h Ms m) (hs : Sees (HeapPage Ms) h.vm vm' m')
    (hpages : ∀ n, HeapPage Ms' n ↔ HeapPage Ms n) (hat : HeapAt m' Ms') {root bet inuse allocated : Nat} {lock : Word}
    (hroot : root = ptrOf (Ms'.map Major.addr).head?) (hbet : bet = 0 ∨ ∃ M ∈ Ms', M.addr = bet)
    (hallocated : allocated = totalSize Ms' % 0x10000000000000000)
    (hinuse : inuse = totalInuse Ms' % 0x10000000000000000) :
    Holds ⟨vm', root, bet, allocated, inuse, lock⟩ Ms' m' := by
  have hpmm : vm'.pmm = h.vm.pmm := by rw [hs.map]
  refine ⟨?_, ?_, (hs.heapPages hh.pages).imp fun n hn => (hpages n).1 hn, fun a ha => ?_, hat, hroot, hbet, hallocated,
    hinuse⟩
  · show KernelTables vm'
    rw [hs.map]
    exact hh.tables
  · show vm'.pmm.used 0 = true
    rw [hpmm]
    exact hh.zero
  · rw [hs.kframe_eq]
    exact hs.byte a ((hpages _).1 ha)

/-- Stores into the pages spare the rest. -/
theorem Sees.spares (hs : Sees (HeapPage Ms) h.vm vm' m')
    (hpages : ∀ n, HeapPage Ms' n ↔ HeapPage Ms n) : Spares h.vm (HeapPage Ms) vm' (HeapPage Ms') := by
  have hmap := hs.map
  have hpmm : vm'.pmm = h.vm.pmm := by rw [hmap]
  refine ⟨fun b => by rw [hmap], by rw [hmap], by rw [hmap], fun n _ _ => hs.entry _ _, fun f hf _ => ⟨?_, fun _ => ?_⟩,
    fun n hn => Or.inl ((hpages n).1 hn), fun n hn => Or.inl ⟨n, (hpages n).1 hn, hs.kframe_eq n⟩,
    fun n hn hn' => absurd ((hpages n).2 hn) hn',
    fun n hn hf => absurd ⟨n, (hpages n).2 hn, (hs.kframe_eq n).symm⟩ hf⟩
  · rw [hpmm]
  · exact hs.others f fun n hn he => hf ⟨n, hn, he⟩

/-! ## A new major -/

/-- What `allocate_new_page` leaves: the major `N` without minors in pages that were free; `vm₁` is the machine after
the pages were taken, `vm₂` with the header in them. -/
structure NewMajor (h : Heap) (Ms : List Major) (m : Memory) (n : Nat) (N : Major) (vm₁ vm₂ : Vm) (m₂ : Memory) :
    Prop where
  size : N.pages = n
  empty : N.minors = []
  free : ∀ x, PageIn (N.addr / 4096) N.pages x → h.vm.entry .kernel x = 0#32
  taken : PagesTaken h.vm (N.addr / 4096) N.pages vm₁
  pages : HeapPages (HeapPage (Ms ++ [N])) vm₁
  sees : Sees (HeapPage (Ms ++ [N])) vm₁ vm₂ m₂
  major : MajorAt m₂ N
  prevLink : wordAt m₂ N.addr = 0
  nextLink : wordAt m₂ (N.addr + 4) = 0
  apart : ∀ M ∈ Ms, M.stop ≤ N.addr ∨ N.stop ≤ M.addr
  others : ∀ a, ¬ (N.addr ≤ a ∧ a < N.stop) → m₂ a = m a

/-- New pages are none of the heap's. -/
theorem Holds.apart_free (hh : Holds h Ms m)
    (hfree : ∀ x, PageIn (N.addr / 4096) N.pages x → h.vm.entry .kernel x = 0#32)
    (hM : M ∈ Ms) : M.stop ≤ N.addr ∨ N.stop ≤ M.addr := by
  by_contra hno
  have hMs := M.addr_lt_stop
  have hNs := N.addr_lt_stop
  -- the higher one of the two addresses is in both
  have hboth : ∃ a, (M.addr ≤ a ∧ a < M.stop) ∧ N.addr ≤ a ∧ a < N.stop := ⟨max M.addr N.addr, by omega⟩
  obtain ⟨a, haM, haN⟩ := hboth
  have hpres := hh.pages.present _ ⟨M, hM, pageIn_byte.2 haM⟩
  rw [hfree _ (pageIn_byte.2 haN)] at hpres
  exact hpres rfl

/-- The pages of the heap with some new ones. -/
theorem Holds.grown (hh : Holds h Ms m) (hfree : ∀ x, PageIn (N.addr / 4096) N.pages x → h.vm.entry .kernel x = 0#32)
    (ht : PagesTaken h.vm (N.addr / 4096) N.pages vm) :
    HeapPages (HeapPage (Ms ++ [N])) vm ∧ ∀ n, HeapPage Ms n → kframe vm n = kframe h.vm n := by
  have hold : ∀ n, HeapPage Ms n → ¬ PageIn (N.addr / 4096) N.pages n := by
    intro n hn hnew
    have hpres := hh.pages.present n hn
    rw [hfree n hnew] at hpres
    exact hpres rfl
  have hentry : ∀ n, HeapPage Ms n → vm.entry .kernel n = h.vm.entry .kernel n :=
    fun n hn => ht.stores.kernel n (hold n hn)
  have hframe : ∀ n, HeapPage Ms n → kframe vm n = kframe h.vm n := fun n hn => by
    unfold kframe
    rw [hentry n hn]
  have hcross : ∀ n k, HeapPage Ms n → PageIn (N.addr / 4096) N.pages k → kframe vm n ≠ kframe vm k := by
    intro n k hn hk he
    have hused := (hh.pages.used n hn).2
    rw [← hframe n hn, he, (ht.fresh k hk).2.2.1] at hused
    cases hused
  refine ⟨⟨fun n hn => ?_, fun n hn => ?_, fun n k hn hk he => ?_, fun n hn => ?_, fun n hn => ?_⟩, hframe⟩
  · rcases heapPage_append.1 hn with hn | hn
    · exact hh.pages.lt n hn
    · have hbelow := N.below
      have hal := N.aligned
      unfold PageIn at hn
      omega
  · rcases heapPage_append.1 hn with hn | hn
    · rw [hentry n hn]
      exact hh.pages.present n hn
    · exact ht.present n hn
  · rcases heapPage_append.1 hn with hn | hn <;> rcases heapPage_append.1 hk with hk | hk
    · rw [hframe n hn, hframe k hk] at he
      exact hh.pages.distinct n k hn hk he
    · exact absurd he (hcross n k hn hk)
    · exact absurd he.symm (hcross k n hk hn)
    · exact ht.distinct n k hn hk he
  · rw [ht.size]
    rcases heapPage_append.1 hn with hn | hn
    · rw [hframe n hn]
      refine ⟨(hh.pages.used n hn).1, ?_⟩
      rw [ht.used _ fun x hx => ?_]
      · exact (hh.pages.used n hn).2
      · rw [← hframe n hn]
        exact hcross n x hn hx
    · exact ⟨(ht.fresh n hn).1, (ht.fresh n hn).2.2.2⟩
  · rcases heapPage_append.1 hn with hn | hn
    · rw [hframe n hn]
      exact hh.pages.nonzero n hn
    · exact (ht.fresh n hn).2.1

theorem newPages_spec {size : Nat} (hsize : size + 48 < 0x100000000) :
    size + 48 ≤ newPages size * 4096 ∧ 16 ≤ newPages size ∧ newPages size ≤ 0x100000 := by
  have hst : add32 (add32 size 24) 24 = size + 48 := by
    unfold add32
    omega
  unfold newPages
  simp only [hst]
  split <;> split <;> omega

/-- **`allocate_new_page`** makes a new major, or stops the kernel when there are not as many pages. -/
theorem allocateNewPage_spec (hh : Holds h Ms m) {size : Nat} (hsize : size + 48 < 0x100000000)
    (htop : RunBelowTop h.vm .kernel (newPages size)) :
    (∃ N vm₁ vm₂ m₂, allocateNewPage size h = .ok (N.addr, { h with
        vm := vm₂, allocated := (h.allocated + newPages size * 4096) % 0x10000000000000000 }) ∧
        NewMajor h Ms m (newPages size) N vm₁ vm₂ m₂ ∧ PagesLeft h.vm (newPages size)) ∨
      (allocateNewPage size h = .error (.failure .assertion) ∧ ¬ PagesLeft h.vm (newPages size)) := by
  obtain ⟨hfit, h16, hmax⟩ := newPages_spec hsize
  rcases liballocAlloc_spec hh.tables hh.zero (by omega) htop with
    ⟨j, vm₁, halloc, hj, hbelow, hfree, htaken, hleft⟩ | ⟨halloc, hleft⟩
  · refine Or.inl ?_
    let N : Major := ⟨j * 4096, newPages size, [], by omega, by omega, by omega, by show j * 4096 + 24 ≤ _; omega⟩
    have hpage : N.addr / 4096 = j := Nat.mul_div_cancel j (by omega)
    have hNaddr : N.addr = j * 4096 := rfl
    have hNstop : N.stop = j * 4096 + newPages size * 4096 := rfl
    rw [← hpage] at hfree htaken
    obtain ⟨hpages, hframe⟩ := hh.grown hfree htaken
    let m₁ : Memory := fun a => if PageIn (N.addr / 4096) N.pages (a / 4096)
      then vm₁.frames (kframe vm₁ (a / 4096)) (a % 4096) else m a
    have hs₁ : Sees (HeapPage (Ms ++ [N])) vm₁ vm₁ m₁ := by
      refine ⟨rfl, fun a ha => ?_, fun _ _ => rfl⟩
      show _ = if _ then _ else _
      split
      · rfl
      · rename_i hnew
        rcases heapPage_append.1 ha with ha | ha
        · rw [hframe _ ha, htaken.frames]
          exact hh.byte a ha
        · exact absurd ha hnew
    have hNin : InPages (HeapPage (Ms ++ [N])) N.addr (N.pages * 4096) :=
      inPages_major (List.mem_append_right _ (List.mem_singleton_self N))
    obtain ⟨vm₂, hstores, hs₂⟩ := Sees.stores (h := { h with vm := vm₁ }) hpages
      [(N.addr, 0), (N.addr + 4, 0), (N.addr + 8, newPages size), (N.addr + 12, newPages size * 4096),
        (N.addr + 16, 24), (N.addr + 20, 0)]
      (by
        simp only [List.forall_mem_cons, List.not_mem_nil, false_implies, implies_true, and_true]
        have hN : N.pages * 4096 = newPages size * 4096 := rfl
        refine ⟨?_, ?_, ?_, ?_, ?_, ?_⟩ <;> exact hNin.sub (by omega) (by omega)) hs₁
    have hword : newPages size * 4096 % 0x100000000 = newPages size * 4096 := Nat.mod_eq_of_lt (by omega)
    have hsizeWord : Heap.load { h with vm := vm₂ } (N.addr + 12) = .ok (newPages size * 4096) := by
      rw [Sees.load hpages hs₂ (hNin.sub (by omega) (by show _ ≤ N.addr + newPages size * 4096; omega))]
      simp (disch := omega) only [putWords, List.foldl_cons, List.foldl_nil, wordAt_putWord, wordAt_putWord_apart]
    refine ⟨N, vm₁, vm₂, _, ?_, ⟨rfl, rfl, hfree, htaken, hpages, hs₂, ?_, ?_, ?_, fun M hM => hh.apart_free hfree hM,
      fun a ha => ?_⟩, hleft⟩
    · rw [hNaddr] at hstores hsizeWord ⊢
      simp only [allocateNewPage, halloc, ofKernel_ok, ok_bind, assert_bind (by omega : j * 4096 ≠ 0), majPrev, majNext,
        majPages, majSize, majUsage, majFirst, hword, hstores, hsizeWord]
      rfl
    · refine ⟨?_, ?_, ?_, ?_, fun x hx => absurd hx (List.not_mem_nil), trivial⟩ <;>
        simp (disch := omega) only [putWords, List.foldl_cons, List.foldl_nil, wordAt_putWord, wordAt_putWord_apart]
      · rfl
      · rfl
      · rfl
      · rfl
    · simp (disch := omega) only [putWords, List.foldl_cons, List.foldl_nil, wordAt_putWord, wordAt_putWord_apart]
    · simp (disch := omega) only [putWords, List.foldl_cons, List.foldl_nil, wordAt_putWord, wordAt_putWord_apart]
    · rw [putWords_apart (by
        simp only [List.forall_mem_cons, List.not_mem_nil, false_implies, implies_true, and_true]
        omega)]
      exact if_neg fun hp => ha (pageIn_byte.1 hp)
  · refine Or.inr ⟨?_, hleft⟩
    simp only [allocateNewPage, halloc]
    rfl

/-- **The new major joins** the list behind the others. -/
theorem NewMajor.joins {vm₁ vm₂ : Vm} {m₂ : Memory} (hnew : NewMajor h Ms m n N vm₁ vm₂ m₂) (hh : Holds h Ms m)
    (hs : Sees (HeapPage (Ms ++ [N])) vm₁ vm' m') (hat : HeapAt m' (Ms ++ [N])) {root : Nat}
    (hroot : root = ptrOf ((Ms ++ [N]).map Major.addr).head?) (lock : Word) :
    Holds ⟨vm', root, h.bestBet, (h.allocated + n * 4096) % 0x10000000000000000, h.inuse, lock⟩ (Ms ++ [N]) m' ∧
      Spares h.vm (HeapPage Ms) vm' (HeapPage (Ms ++ [N])) := by
  have ht := hnew.taken
  have hmap := hs.map
  have hpmm : vm'.pmm = vm₁.pmm := by rw [hmap]
  have hold := (hh.grown hnew.free ht).2
  have hframe : ∀ n, HeapPage Ms n → kframe vm' n = kframe h.vm n :=
    fun n hn => (hs.kframe_eq n).trans (hold n hn)
  refine ⟨⟨?_, ?_, hs.heapPages hnew.pages, fun a ha => ?_, hat, hroot, ?_, ?_, ?_⟩, ?_, ?_, ?_, fun x hx hx' => ?_,
    fun f hf hf' => ?_, fun x hx => ?_, fun x hx => ?_, fun x hx hx' => ?_, fun x hx hf => ?_⟩
  · show KernelTables vm'
    rw [hmap]
    exact ht.tables
  · show vm'.pmm.used 0 = true
    rw [hpmm, ht.used 0 fun x hx => (ht.fresh x hx).2.1.symm]
    exact hh.zero
  · rw [hs.kframe_eq]
    exact hs.byte a ha
  · exact hh.bet.imp_right fun ⟨M, hM, he⟩ => ⟨M, List.mem_append_left _ hM, he⟩
  · have htotal : totalSize (Ms ++ [N]) = totalSize Ms + n * 4096 := by
      rw [← hnew.size]
      simp [totalSize]
    rw [htotal, hh.allocated]
    exact Nat.mod_add_mod _ _ _
  · have htotal : totalInuse (Ms ++ [N]) = totalInuse Ms := by simp [totalInuse, hnew.empty]
    rw [htotal]
    exact hh.inuse
  · intro b
    rw [hmap]
    exact ht.stores.users b
  · rw [hmap]
    exact ht.stores.nextDir
  · rw [hmap]
    exact ht.size
  · rw [hs.entry]
    exact ht.stores.kernel x fun hin => hx' (heapPage_append.2 (Or.inr hin))
  · have hnot : ∀ x, PageIn (N.addr / 4096) N.pages x → f ≠ kframe vm₁ x := by
      rintro x hx rfl
      exact hf' ⟨x, heapPage_append.2 (Or.inr hx), (hs.kframe_eq x).symm⟩
    refine ⟨by rw [hpmm, ht.used f hnot], fun _ => ?_⟩
    rw [hs.others f fun x hx he => hf' ⟨x, hx, he.trans (hs.kframe_eq x).symm⟩, ht.frames]
  · exact (heapPage_append.1 hx).imp_right (hnew.free x)
  · rcases heapPage_append.1 hx with hx | hx
    · exact Or.inl ⟨x, hx, hframe x hx⟩
    · rw [hs.kframe_eq]
      exact Or.inr (ht.fresh x hx).2.2.1
  · exact absurd (heapPage_append.2 (Or.inl hx)) hx'
  · exact absurd ⟨x, heapPage_append.2 (Or.inl hx), (hframe x hx).symm⟩ hf

end State

end Myunix.Liballoc
