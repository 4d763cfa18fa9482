import Myunix.Liballoc.Kfree

/-!
# `kcalloc` and `krealloc`

Both write to the blocks that were handed out, from the pointer on and no further than what was asked for; no header is
there (`HeapAt.payload`), so that the heap stays what it is (`Holds.write`).

* `kcalloc_spec`: the block is zero. The product of the two sizes is taken modulo 2^32.
* `krealloc_shrink`: a smaller block is the same one.
* **`krealloc_grow`**: a larger block is another one with the bytes of the old one, which is freed; there are bytes to
  copy, or the kernel stops.
-/

namespace Myunix.Liballoc

open Lib Pmm Vmm Syscall

/-! ## Writing to a block -/

section Payload

variable {h : Heap} {Ms pre post : List Major} {m m' : Memory} {M L : Major} {x y : Minor} {a : Nat}

/-- No header is in the bytes that were asked for. -/
theorem HeapAt.header_apart (hat : HeapAt m Ms) (hx : Live Ms x) (hL : L ∈ Ms)
    (ha : (L.addr ≤ a ∧ a < L.addr + 8) ∨ L.Header a) : a < x.ptr ∨ x.stop ≤ a := by
  obtain ⟨M, hM, hx⟩ := hx
  have hxM := Major.mem hx
  have hptr := x.ptr_spec
  have hroom := x.room
  have hxstop : x.stop = x.addr + 24 + x.size := rfl
  have hLstop := L.addr_lt_stop
  rcases hat.apart_or hM hL with rfl | hap
  · rcases ha with ha | ha | ⟨y, hy, ha⟩
    · omega
    · omega
    · have hyp := y.ptr_spec
      have hyroom := y.room
      have hystop : y.stop = y.addr + 24 + y.size := rfl
      rcases Major.apart hx hy with rfl | hxy <;> omega
  · rcases ha with ha | ha
    · omega
    · have hb := ha.bounds
      omega

/-- **A write to a block** that was handed out touches no header. -/
theorem HeapAt.payload (hat : HeapAt m Ms) (hx : Live Ms x)
    (hm : ∀ a, a < x.ptr ∨ x.ptr + x.reqSize ≤ a → m' a = m a) : HeapAt m' Ms := by
  have hstop := x.ptr_stop
  refine hat.congr fun L hL a ha => hm a ?_
  have := hat.header_apart hx hL ha
  omega

/-- The block is in the pages of the heap. -/
theorem inPages_minor (hx : Live Ms x) : InPages (HeapPage Ms) x.ptr x.reqSize := by
  obtain ⟨M, hM, hx⟩ := hx
  have hxM := Major.mem hx
  have hptr := x.ptr_spec
  have hstop := x.ptr_stop
  have hMs : M.stop = M.addr + M.pages * 4096 := rfl
  exact (inPages_major hM).sub (by omega) (by omega)

/-- **The heap after a write to a block.** -/
theorem Holds.write {vm' : Vm} (hh : Holds h Ms m) (hx : Live Ms x)
    (hs : Sees (HeapPage Ms) h.vm vm' m') (hm : ∀ a, a < x.ptr ∨ x.ptr + x.reqSize ≤ a → m' a = m a) :
    Holds { h with vm := vm' } Ms m' :=
  hh.stored hs (fun _ => Iff.rfl) (hh.headers.payload hx hm) hh.root hh.bet hh.allocated hh.inuse

end Payload

/-! ## `kcalloc` -/

section Kcalloc

variable {h : Heap} {Ms : List Major} {m : Memory} {nobj size : Nat}

/-- **`kcalloc`**: what `kmalloc` does with the product of the sizes modulo 2^32, and the block is zero. -/
theorem kcalloc_spec (hh : Holds h Ms m) (hlock : h.spinlock = 0#32)
    (hreq : nobj * size % 0x100000000 + 80 < 0x100000000)
    (htop : RunBelowTop h.vm .kernel (newPages (nobj * size % 0x100000000 + 32))) (hMs : Ms ≠ []) :
    (∃ x h' Ms' m', kcalloc nobj size h = .ok (x.ptr, h') ∧
        Places h.vm Ms (nobj * size % 0x100000000 + 32) x Ms' ∧
        Placed h.vm Ms m (nobj * size % 0x100000000 + 32) (nobj * size % 0x100000000) x h' Ms' m' ∧
        ∀ a, x.ptr ≤ a → a < x.ptr + x.reqSize → m' a = 0#8) ∨
      (kcalloc nobj size h = .error (.failure .assertion) ∧
        (∀ M ∈ Ms, M.gapFor (nobj * size % 0x100000000 + 32) = none) ∧
        ¬ PagesLeft h.vm (newPages (nobj * size % 0x100000000 + 32))) := by
  unfold kcalloc
  generalize nobj * size % 0x100000000 = req at *
  rcases kmalloc_spec hh hlock hreq htop hMs with ⟨x, h', Ms', m', hrun, hplaces, hplaced⟩ | ⟨hrun, hnone⟩
  · have hx := hplaces.live.2 (Or.inl rfl)
    have hptr := x.ptr_spec
    have hsize := hplaced.reqSize_eq
    refine Or.inl ?_
    simp only [hrun, ok_bind, assert_bind (by omega : x.ptr ≠ 0)]
    by_cases hreq0 : req = 0
    · rw [if_neg (not_not_intro hreq0)]
      exact ⟨x, h', Ms', m', rfl, hplaces, hplaced, fun a h1 h2 => by omega⟩
    · have hin := inPages_minor hx
      have hstop := x.ptr_stop
      have hbelow := live_below hx
      obtain ⟨vm', hset, hs⟩ := hplaced.holds.sees.memset hplaced.holds.pages (n := req) (hsize ▸ hin)
        (by omega) hreq0 (by omega) 0#8
      have hwrite := hplaced.holds.write hx hs fun a ha => fillBytes_apart (by omega)
      have hzero : kernelMemset h'.vm x.ptr 0 req = .ok vm' := hset
      refine ⟨x, { h' with vm := vm' }, Ms', _, ?_, hplaces, ⟨hwrite, hplaced.unlocked, hplaced.size_eq, hsize,
        hplaced.spares.trans (hs.spares fun _ => Iff.rfl), hplaced.apart, fun y hy a h1 h2 => ?_⟩,
        fun a h1 h2 => ?_⟩
      · rw [if_pos hreq0, hzero, ofKernel_ok, ok_bind]
        rfl
      · have hap := hplaced.apart y hy
        rw [fillBytes_apart (by omega), hplaced.kept y hy a h1 h2]
      · exact fillBytes_in h1 (by omega)
  · refine Or.inr ⟨?_, hnone⟩
    simp only [hrun, error_bind]

end Kcalloc

/-! ## `krealloc` -/

/-- What `krealloc` of `x` to a larger block `y` leaves: the bytes of `x` are at the start of `y`. -/
structure Regrown (vm : Vm) (Ms : List Major) (m : Memory) (x y : Minor) (h' : Heap) (Ms' : List Major) (m' : Memory) :
    Prop where
  holds : Holds h' Ms' m'
  unlocked : h'.spinlock = 0#32
  spares : Spares vm (HeapPage Ms) h'.vm (HeapPage Ms')
  filled : Filled Ms → Filled Ms'
  live : ∀ z, Live Ms' z ↔ z = y ∨ z ≠ x ∧ Live Ms z
  apart : ∀ z, Live Ms z → y.stop ≤ z.addr ∨ z.stop ≤ y.addr
  copied : ∀ i < x.reqSize, m' (y.ptr + i) = m (x.ptr + i)
  kept : ∀ z, Live Ms z → z ≠ x → ∀ a, z.addr + 24 ≤ a → a < z.stop → m' a = m a

section Krealloc

variable {h : Heap} {Ms : List Major} {m : Memory} {M : Major} {x : Minor} {size : Nat}

/-- The first part of `krealloc`, up to the size that was asked for. -/
theorem krealloc_header (hh : Holds h Ms m) (hlock : h.spinlock = 0#32) (hx : Live Ms x) (hsize : size ≠ 0) :
    krealloc x.ptr size h = if size ≤ x.reqSize then (do
        let h ← Heap.store { h with spinlock := 1#32 } (x.addr + 20) size
        let h ← liballocUnlock h
        return (x.ptr, h))
      else (do
        let (ptr, h) ← kmalloc size h
        heapAssert (ptr ≠ 0)
        let vm ← ofKernel (kernelMemcpy h.vm ptr x.ptr x.reqSize)
        let h ← kfree x.ptr { h with vm := vm }
        return (ptr, h)) := by
  obtain ⟨M, hM, hxM⟩ := hx
  have hb : InBlock (HeapPage Ms) M := ⟨inPages_major hM⟩
  have hxat := (hh.headers.majors M hM).minors x hxM
  have hm := Major.mem hxM
  have hptr := x.ptr_spec
  have hroom := x.room
  have hxstop : x.stop = x.addr + 24 + x.size := rfl
  have hbelow : M.stop ≤ 0x100000000 := M.below
  have hlocked := hh.withLock 1#32
  have hunalign := unalign_spec hh.pages hh.sees hb hxM hxat
  have hmin : sub32 (x.addr + 24) 24 = x.addr := by
    rw [sub32_eq (by omega) (by omega)]
    omega
  have hmagic : Heap.load { h with spinlock := 1#32 } (x.addr + 12) = .ok liballocMagic := by
    rw [hlocked.sees.load hh.pages (hb.sub (by omega) (by omega)), hxat.magic]
  have hreal : Heap.load { h with spinlock := 1#32 } (x.addr + 20) = .ok x.reqSize := by
    rw [hlocked.sees.load hh.pages (hb.sub (by omega) (by omega)), hxat.reqSize]
  have hback : ({ h with spinlock := 0#32 } : Heap) = h := by
    rw [← hlock]
  have hunlock : liballocUnlock { h with spinlock := 1#32 } = .ok h := by
    rw [liballocUnlock_ok rfl]
    exact congrArg Except.ok hback
  simp only [krealloc, if_neg hsize, if_neg (by omega : ¬ x.ptr = 0), hunalign, ok_bind, liballocLock_ok hlock, hmin,
    liballocVerifyMagic, minMagic, minReqSize, hmagic, assert_bind, hreal, hunlock]

/-- What `krealloc` of `x` to a size that is not larger leaves: the same block, of which less was asked for. -/
structure Shrunk (vm : Vm) (Ms : List Major) (m : Memory) (x y : Minor) (h' : Heap) (Ms' : List Major) (m' : Memory) :
    Prop where
  holds : Holds h' Ms' m'
  unlocked : h'.spinlock = 0#32
  spares : Spares vm (HeapPage Ms) h'.vm (HeapPage Ms')
  ptr : y.ptr = x.ptr
  addr : y.addr = x.addr
  filled : Filled Ms → Filled Ms'
  live : ∀ z, Live Ms' z ↔ z = y ∨ z ≠ x ∧ Live Ms z
  kept : ∀ z, Live Ms z → ∀ a, z.addr + 24 ≤ a → a < z.stop → m' a = m a

/-- **A block that is not larger** is the same one. -/
theorem krealloc_shrink (hh : Holds h Ms m) (hlock : h.spinlock = 0#32) (hx : Live Ms x) (hsize : size ≠ 0)
    (hle : size ≤ x.reqSize) :
    ∃ h' Ms' m', krealloc x.ptr size h = .ok (x.ptr, h') ∧ Shrunk h.vm Ms m x (x.resize size hle) h' Ms' m' := by
  rw [krealloc_header hh hlock hx hsize, if_pos hle]
  have hxbelow := live_below hx
  have hxLive := hx
  obtain ⟨M, hM, hxM⟩ := hx
  obtain ⟨pre, post, rfl⟩ := List.append_of_mem hM
  obtain ⟨l₁, l₂, hsplit⟩ := List.append_of_mem hxM
  have hlocked := hh.withLock 1#32
  have hm := Major.mem hxM
  have hroom := x.room
  have hxstop : x.stop = x.addr + 24 + x.size := rfl
  have hMs : M.stop = M.addr + M.pages * 4096 := rfl
  obtain ⟨vm', hstore, hs⟩ := hlocked.sees.store hh.pages (a := x.addr + 20)
    ((inPages_major hM).sub (by omega) (by omega)) size
  have hsizeWord : wordAt (putWord m (x.addr + 20) size) (x.addr + 20) = size := wordAt_putWord (by omega)
  have hbytes : ∀ a, ¬ (x.addr + 20 ≤ a ∧ a < x.addr + 24) → putWord m (x.addr + 20) size a = m a :=
    fun a ha => putWord_apart (by omega)
  have haddr : (M.resize l₁ l₂ x size hsplit hle).addr = M.addr := rfl
  have hpages : ∀ n, HeapPage (pre ++ M.resize l₁ l₂ x size hsplit hle :: post) n ↔ HeapPage (pre ++ M :: post) n :=
    fun n => heapPage_update rfl rfl
  have hat := hh.headers.update haddr rfl ((hh.headers.majors M hM).resize hsplit hle hsizeWord hbytes)
    fun a ha => hbytes a (by omega)
  have hminors : (M.resize l₁ l₂ x size hsplit hle).minors = l₁ ++ x.resize size hle :: l₂ := rfl
  have hinuse : totalInuse (pre ++ M.resize l₁ l₂ x size hsplit hle :: post) = totalInuse (pre ++ M :: post) := by
    rw [totalInuse_append, totalInuse_append, totalInuse_cons, totalInuse_cons, hminors, hsplit]
    simp only [List.map_append, List.map_cons]
    rfl
  have hholds := hh.update haddr rfl hs hat (hinuse ▸ hh.inuse) 0#32
  refine ⟨_, pre ++ M.resize l₁ l₂ x size hsplit hle :: post, _, ?_, hholds, rfl, hs.spares hpages, rfl, rfl,
    fun hf => hf.update (by rw [hminors]; simp), fun z => ?_, fun z hz a h1 h2 => ?_⟩
  · simp only [hstore, ok_bind, liballocUnlock_ok]
    rfl
  · -- the others are those that are left without `x`
    have hne : ∀ z ∈ l₁ ++ l₂, z ≠ x := by
      have haround := (hsplit ▸ M.packed : Packed Minor.addr Minor.stop (M.addr + 24) (l₁ ++ x :: l₂) M.stop).around
      rintro z hz rfl
      rcases List.mem_append.1 hz with hz | hz
      · have := haround.1 z hz
        omega
      · have := haround.2 z hz
        omega
    have hfar : ∀ L ∈ pre ++ post, ∀ z ∈ L.minors, z ≠ x := by
      rintro L hL z hz rfl
      have hap := hh.headers.apart_from hL
      have hzL := Major.mem hz
      omega
    simp only [Live, List.mem_append, List.mem_cons, or_and_right, exists_or, exists_eq_left, hminors, hsplit]
      at hne hfar ⊢
    grind
  · have hap := hh.headers.live_apart hxLive hz
    refine hbytes a ?_
    rcases hap with rfl | hap <;> omega

/-- **A larger block**: another one, with the bytes of the old one. -/
theorem krealloc_grow (hh : Holds h Ms m) (hlock : h.spinlock = 0#32) (hx : Live Ms x) (hgrow : x.reqSize < size)
    (hne : x.reqSize ≠ 0) (hreq : size + 80 < 0x100000000)
    (htop : RunBelowTop h.vm .kernel (newPages (size + 32))) :
    (∃ y h' Ms' m', krealloc x.ptr size h = .ok (y.ptr, h') ∧ y.reqSize = size ∧ Regrown h.vm Ms m x y h' Ms' m') ∨
      (krealloc x.ptr size h = .error (.failure .assertion) ∧ (∀ M ∈ Ms, M.gapFor (size + 32) = none) ∧
        ¬ PagesLeft h.vm (newPages (size + 32))) := by
  have hMs : Ms ≠ [] := by
    obtain ⟨M, hM, -⟩ := hx
    exact List.ne_nil_of_mem hM
  rw [krealloc_header hh hlock hx (by omega), if_neg (by omega)]
  rcases kmalloc_spec hh hlock hreq htop hMs with ⟨y, h₁, Ms₁, m₁, hrun, hplaces, hplaced⟩ | ⟨hrun, hnone⟩
  · refine Or.inl ?_
    have hy := hplaces.live.2 (Or.inl rfl)
    have hx₁ := hplaces.live.2 (Or.inr hx)
    have hysize := hplaced.reqSize_eq
    have hyptr := y.ptr_spec
    have hystop := y.ptr_stop
    have hxptr := x.ptr_spec
    have hxstop := x.ptr_stop
    have hybelow := live_below hy
    have hxbelow := live_below hx
    have hap := hplaced.apart x hx
    obtain ⟨vm₂, hcopy, hs⟩ := hplaced.holds.sees.memcpy hplaced.holds.pages (n := x.reqSize)
      ((inPages_minor hy).sub (Nat.le_refl _) (by omega)) (inPages_minor hx₁) (by omega) (by omega) hne (by omega)
      (by omega) (by omega)
    have hwrite := hplaced.holds.write hy hs fun a ha => copyBytes_apart (by omega)
    obtain ⟨h', Ms', m', hfree, hremoves, hfreed⟩ := kfree_spec hwrite hplaced.unlocked hx₁
    have hyx : y ≠ x := by
      rintro rfl
      have := y.room
      unfold Minor.stop at hap
      omega
    have hgone := hremoves.gone hwrite.headers
    have hlive : ∀ z, Live Ms' z ↔ z = y ∨ z ≠ x ∧ Live Ms z := by
      intro z
      have hafter := hremoves.live (y := z)
      have hbefore := hplaces.live (y := z)
      constructor
      · intro hz
        have hzx : z ≠ x := by
          rintro rfl
          exact hgone hz
        exact (hbefore.1 (hafter.2 (Or.inr hz))).imp_right fun hz' => ⟨hzx, hz'⟩
      · rintro (rfl | ⟨hzx, hz⟩)
        · exact (hafter.1 hy).resolve_left hyx
        · exact (hafter.1 (hbefore.2 (Or.inr hz))).resolve_left hzx
    refine ⟨y, h', Ms', m', ?_, hysize, hfreed.holds, hfreed.unlocked, ?_,
      fun hf => hremoves.filled (hplaces.filled hf), hlive, hplaced.apart, fun i hi => ?_,
      fun z hz hzx a h1 h2 => ?_⟩
    · simp only [hrun, ok_bind, assert_bind (by omega : y.ptr ≠ 0), hcopy, ofKernel_ok, hfree]
      rfl
    · exact (hplaced.spares.trans (hs.spares fun _ => Iff.rfl)).trans hfreed.spares
    · rw [hfreed.kept y ((hlive y).2 (Or.inl rfl)) _ (by omega) (by omega), copyBytes_in (by omega) (by omega),
        Nat.add_sub_cancel_left]
      exact hplaced.kept x hx _ (by omega) (by omega)
    · have hzap := hplaced.apart z hz
      rw [hfreed.kept z ((hlive z).2 (Or.inr ⟨hzx, hz⟩)) a h1 h2, copyBytes_apart (by omega),
        hplaced.kept z hz a h1 h2]
  · refine Or.inr ⟨?_, hnone⟩
    simp only [hrun, error_bind]

/-- A block of no bytes cannot grow: `memcpy` does not copy nothing. -/
theorem krealloc_grow_empty (hh : Holds h Ms m) (hlock : h.spinlock = 0#32) (hx : Live Ms x) (hempty : x.reqSize = 0)
    (hsize : size ≠ 0) (hreq : size + 80 < 0x100000000) (htop : RunBelowTop h.vm .kernel (newPages (size + 32))) :
    krealloc x.ptr size h = .error (.failure .assertion) := by
  have hMs : Ms ≠ [] := by
    obtain ⟨M, hM, -⟩ := hx
    exact List.ne_nil_of_mem hM
  rw [krealloc_header hh hlock hx hsize, if_neg (by omega)]
  rcases kmalloc_spec hh hlock hreq htop hMs with ⟨y, h₁, Ms₁, m₁, hrun, hplaces, hplaced⟩ | ⟨hrun, -⟩
  · have hyptr := y.ptr_spec
    have hxptr := x.ptr_spec
    have hcopy : kernelMemcpy h₁.vm y.ptr x.ptr 0 = .error .assertion := by
      unfold kernelMemcpy
      rw [assert_bind (by omega : y.ptr ≠ 0), assert_bind (by omega : x.ptr ≠ 0)]
      rfl
    simp only [hrun, ok_bind, assert_bind (by omega : y.ptr ≠ 0), hempty, hcopy]
    rfl
  · simp only [hrun, error_bind]

end Krealloc

end Myunix.Liballoc
