import Myunix.Liballoc.Blocks

/-!
# The heap keeps its contract

`Models A h` says that the heap `h` holds the blocks `A`. Every call keeps it, and so does everything that the rest of
the kernel may do.

* `liballocInit_models`: the heap starts without blocks.
* `Models.malloc` … `Models.elsewhere` are the steps.
* **`heap_runs`**: whatever the clients do in whatever order, as long as they use their own blocks, the heap answers
  what the contract promises, and stops for no other reason than those of the contract.
-/

namespace Myunix.Liballoc

open Lib Pmm Vmm Syscall Process

/-- The heap `h` holds the blocks `A`, and the lock is free. -/
def Models (A : Store) (h : Heap) : Prop :=
  ∃ Ms m, Holds h Ms m ∧ Filled Ms ∧ h.spinlock = 0#32 ∧ A.pages = HeapPage Ms ∧ Shows Ms m A.blocks

/-- How one step goes. -/
def Kept (A : Store) (h : Heap) (op : HeapOp) (r : HeapM (Nat × Heap)) : Prop :=
  Yields r (fun x => ∃ A', heapContract.promise A h op x.1 A' x.2 ∧ Models A' x.2) (heapContract.stops A h op)

section Steps

variable {A : Store} {h : Heap} {Ms Ms' : List Major} {m m' : Memory} {b : Blocks} {x y : Minor} {p n i : Nat}
  {op : HeapOp} {r : HeapM (Nat × Heap)}

/-- A place that is apart from the blocks in memory is no byte of a block. -/
theorem fresh_of_apart (hs : Shows Ms m b) (hbelow : x.stop ≤ 0x100000000)
    (hap : ∀ y, Live Ms y → x.stop ≤ y.addr ∨ y.stop ≤ x.addr) : Fresh b x.ptr x.reqSize := by
  have hxp := x.ptr_spec
  have hxs := x.ptr_stop
  refine ⟨by omega, hxp.2.2, by omega, fun q bs hq => ?_⟩
  obtain ⟨y, hy, rfl, rfl⟩ := hs.at hq
  have hyp := y.ptr_spec
  have hys := y.ptr_stop
  have := hap y hy
  rw [length_bytesAt]
  omega

/-- No majors, no pages. -/
theorem noRoom_nil (hpages : A.pages = HeapPage []) : NoRoom A h n := by
  refine Or.inl fun k hk => ?_
  rw [hpages] at hk
  obtain ⟨M, hM, -⟩ := hk
  exact List.not_mem_nil hM

/-- **A call that hands out a block** of `n` bytes. -/
theorem kept_of_placed {bs : List Byte} {h' : Heap} {vm : Vm} (hvm : vm = h.vm) (hfilled : Filled Ms) (hshows : Shows Ms m A.blocks)
    (hpages : A.pages = HeapPage Ms) (hplaces : Places vm Ms (n + 32) x Ms')
    (hplaced : Placed vm Ms m (n + 32) n x h' Ms' m') (hbs : bytesAt m' x.ptr x.reqSize = bs)
    (hop : ∀ b', Allots A.blocks x.ptr bs b' → Answers A.blocks op x.ptr b') : Kept A h op (.ok (x.ptr, h')) := by
  subst hvm
  have hx := hplaces.live.2 (Or.inl rfl)
  have hfresh := fresh_of_apart hshows (live_below hx) hplaced.apart
  have hlen : bs.length = x.reqSize := by rw [← hbs, length_bytesAt]
  refine ⟨⟨Function.update A.blocks x.ptr (some bs), HeapPage Ms'⟩, ⟨hop _ ⟨hlen ▸ hfresh, rfl⟩, Or.inr ?_⟩, Ms', m',
    hplaced.holds, hplaces.filled hfilled, hplaced.unlocked, rfl, ?_⟩
  · rw [hpages]
    exact hplaced.spares
  · rw [← hbs]
    exact hshows.insert (fun y => hplaces.live) hplaced.apart hplaced.kept

/-- `kmalloc`, for whatever call it answers. -/
theorem Models.kmalloc (hA : Models A h) (hask : MayAsk h n)
    (hop : ∀ r b', (∃ bs, bs.length = n ∧ Allots A.blocks r bs b') → Answers A.blocks op r b')
    (hstop : NoRoom A h n → MayStop A h op) : Kept A h op (kmalloc n h) := by
  obtain ⟨Ms, m, hh, hfilled, hlock, hpages, hshows⟩ := hA
  by_cases hMs : Ms = []
  · subst hMs
    rw [kmalloc_none hh hlock]
    exact ⟨rfl, hstop (noRoom_nil hpages)⟩
  · rcases kmalloc_spec hh hlock hask.1 hask.2 hMs with ⟨x, h', Ms', m', hrun, hplaces, hplaced⟩ | ⟨hrun, -, hleft⟩
    · rw [hrun]
      exact kept_of_placed rfl hfilled hshows hpages hplaces hplaced rfl fun b' ha =>
        hop _ _ ⟨_, length_bytesAt.trans hplaced.reqSize_eq, ha⟩
    · rw [hrun]
      exact ⟨rfl, hstop (Or.inr hleft)⟩

theorem Models.malloc (hA : Models A h) (hask : MayAsk h n) : Kept A h (.malloc n) (Liballoc.kmalloc n h) :=
  hA.kmalloc hask (fun _ _ ha => ha) fun hno => hno

theorem Models.calloc {nobj size : Nat} (hA : Models A h) (hask : MayAsk h (nobj * size % 0x100000000)) :
    Kept A h (.calloc nobj size) (kcalloc nobj size h) := by
  obtain ⟨Ms, m, hh, hfilled, hlock, hpages, hshows⟩ := hA
  by_cases hMs : Ms = []
  · subst hMs
    simp only [kcalloc, kmalloc_none hh hlock, error_bind]
    exact ⟨rfl, noRoom_nil hpages⟩
  · rcases kcalloc_spec hh hlock hask.1 hask.2 hMs with
      ⟨x, h', Ms', m', hrun, hplaces, hplaced, hzero⟩ | ⟨hrun, -, hleft⟩
    · rw [hrun]
      refine kept_of_placed rfl hfilled hshows hpages hplaces hplaced ?_ fun b' ha => ha
      refine List.eq_replicate_iff.2 ⟨length_bytesAt.trans hplaced.reqSize_eq, fun v hv => ?_⟩
      obtain ⟨i, hi, rfl⟩ := List.mem_map.1 hv
      have := List.mem_range.1 hi
      exact hzero _ (by omega) (by omega)
    · rw [hrun]
      exact ⟨rfl, Or.inr hleft⟩

/-- `kfree`, for whatever call it answers. -/
theorem Models.kfree {bs : List Byte} (hA : Models A h) (hp : A.blocks p = some bs)
    (hop : Answers A.blocks op 0 (Function.update A.blocks p none)) :
    Kept A h op (do
      let h ← Liballoc.kfree p h
      return (0, h)) := by
  obtain ⟨Ms, m, hh, hfilled, hlock, hpages, hshows⟩ := hA
  obtain ⟨x, hx, rfl, -⟩ := hshows.at hp
  obtain ⟨h', Ms', m', hrun, hremoves, hfreed⟩ := kfree_spec hh hlock hx
  have hlive : ∀ y, Live Ms' y ↔ y ≠ x ∧ Live Ms y := by
    intro y
    have hafter := hremoves.live (y := y)
    constructor
    · intro hy
      refine ⟨?_, hafter.2 (Or.inr hy)⟩
      rintro rfl
      exact hremoves.gone hh.headers hy
    · rintro ⟨hne, hy⟩
      exact (hafter.1 hy).resolve_left hne
  rw [hrun, ok_bind]
  refine ⟨⟨Function.update A.blocks x.ptr none, HeapPage Ms'⟩, ⟨hop, Or.inr ?_⟩, Ms', m', hfreed.holds,
    hremoves.filled hfilled, hfreed.unlocked,
    rfl, hshows.remove hh.headers hx hlive hfreed.kept⟩
  rw [hpages]
  exact hfreed.spares

theorem Models.free {bs : List Byte} (hA : Models A h) (hp : A.blocks p = some bs) :
    Kept A h (.free p) (heapStep (.free p) h) :=
  hA.kfree hp ⟨rfl, rfl⟩

theorem Models.read {bs : List Byte} (hA : Models A h) (hp : A.blocks p = some bs) (hi : i < bs.length) :
    Kept A h (.read p i) (heapStep (.read p i) h) := by
  obtain ⟨Ms, m, hh, hfilled, hlock, hpages, hshows⟩ := hA
  obtain ⟨x, hx, rfl, rfl⟩ := hshows.at hp
  rw [length_bytesAt] at hi
  have hload := hh.sees.kernelLoad hh.pages ((inPages_minor hx).byte hi)
  have hrun : heapStep (.read x.ptr i) h = .ok ((m (x.ptr + i)).toNat, h) := by
    simp only [heapStep, hload, ofKernel_ok, ok_bind]
    rfl
  rw [hrun]
  refine ⟨A, ⟨⟨rfl, _, hp, ?_⟩, Or.inr (Spares.refl h.vm A.pages)⟩, Ms, m, hh, hfilled, hlock, hpages, hshows⟩
  rw [getElem?_bytesAt hi]
  rfl

theorem Models.write {bs : List Byte} {v : Byte} (hA : Models A h) (hp : A.blocks p = some bs) (hi : i < bs.length) :
    Kept A h (.write p i v) (heapStep (.write p i v) h) := by
  obtain ⟨Ms, m, hh, hfilled, hlock, hpages, hshows⟩ := hA
  obtain ⟨x, hx, rfl, rfl⟩ := hshows.at hp
  rw [length_bytesAt] at hi
  obtain ⟨vm', hstore, hs⟩ := hh.sees.kernelStore hh.pages ((inPages_minor hx).byte hi) v
  have hbytes : ∀ a, a < x.ptr ∨ x.ptr + x.reqSize ≤ a → putByte m (x.ptr + i) v a = m a :=
    fun a ha => putByte_apart (by omega)
  have hset : bytesAt (putByte m (x.ptr + i) v) x.ptr x.reqSize = (bytesAt m x.ptr x.reqSize).set i v := by
    refine List.ext_getElem? fun k => ?_
    by_cases hk : k < x.reqSize
    · rw [getElem?_bytesAt hk, List.getElem?_set, length_bytesAt, if_pos hi]
      split
      · rename_i he
        rw [he, putByte_self]
      · rw [putByte_apart (by omega), getElem?_bytesAt hk]
    · rw [List.getElem?_eq_none (by rw [length_bytesAt]; omega),
        List.getElem?_eq_none (by rw [List.length_set, length_bytesAt]; omega)]
  have hrun : heapStep (.write x.ptr i v) h = .ok (0, { h with vm := vm' }) := by
    simp only [heapStep, hstore, ofKernel_ok, ok_bind]
    rfl
  rw [hrun]
  refine ⟨⟨Function.update A.blocks x.ptr (some ((bytesAt m x.ptr x.reqSize).set i v)), A.pages⟩,
    ⟨⟨rfl, _, hp, rfl⟩, Or.inr ?_⟩, Ms, _, hh.write hx hs hbytes, hfilled, hlock, hpages, ?_⟩
  · rw [hpages]
    exact hs.spares fun _ => Iff.rfl
  · rw [← hset]
    exact hshows.change hh.headers hx hbytes

/-- **Whatever the rest of the kernel does**, when it leaves the pages alone. -/
theorem Models.elsewhere {vm : Vm} (hA : Models A h) (hvm : LeavesAlone A.pages h.vm vm) :
    Kept A h (.elsewhere vm) (heapStep (.elsewhere vm) h) := by
  obtain ⟨Ms, m, hh, hfilled, hlock, hpages, hshows⟩ := hA
  rw [hpages] at hvm
  have hp := hh.pages
  have hframe : ∀ n, HeapPage Ms n → kframe vm n = kframe h.vm n := fun n hn => by
    unfold kframe
    rw [hvm.entry n hn]
  refine ⟨A, ⟨⟨rfl, rfl⟩, Or.inl ⟨⟨vm, rfl⟩, rfl⟩⟩, Ms, m, ⟨hvm.tables, hvm.zero, ?_, fun a ha => ?_, hh.headers,
    hh.root, hh.bet, hh.allocated, hh.inuse⟩, hfilled, hlock, hpages, hshows⟩
  · refine ⟨hp.lt, fun n hn => ?_, fun n k hn hk he => ?_, fun n hn => ?_, fun n hn => ?_⟩
    · show vm.entry .kernel n &&& pagePresent ≠ 0#32
      rw [hvm.entry n hn]
      exact hp.present n hn
    · rw [hframe n hn, hframe k hk] at he
      exact hp.distinct n k hn hk he
    · rw [hframe n hn]
      exact hvm.used n hn
    · rw [hframe n hn]
      exact hp.nonzero n hn
  · show vm.frames (kframe vm (a / 4096)) (a % 4096) = m a
    rw [hframe _ ha, hvm.bytes _ ha]
    exact hh.byte a ha

/-- **`krealloc`** of a block, or of `NULL`. -/
theorem Models.realloc (hA : Models A h) (hallowed : Allowed A h (.realloc p n)) :
    Kept A h (.realloc p n) (heapStep (.realloc p n) h) := by
  rcases hallowed with ⟨rfl, hn, hask⟩ | ⟨bs, hp, hask⟩
  · have hrun : heapStep (.realloc 0 n) h = Liballoc.kmalloc n h := by
      simp only [heapStep, krealloc, if_neg hn, if_true]
    rw [hrun]
    exact hA.kmalloc hask (fun r b' ha => (answers_realloc_null hn).2 ha) fun hno => Or.inl ⟨rfl, hno⟩
  · by_cases hn : n = 0
    · have hrun : heapStep (.realloc p n) h = (do
          let h ← Liballoc.kfree p h
          return (0, h)) := by
        simp only [heapStep, krealloc, if_pos hn]
      rw [hrun]
      exact hA.kfree hp ((answers_realloc_zero hn).2 ⟨rfl, rfl⟩)
    · obtain ⟨Ms, m, hh, hfilled, hlock, hpages, hshows⟩ := hA
      obtain ⟨x, hx, rfl, rfl⟩ := hshows.at hp
      have hxp := x.ptr_spec
      have hx0 : ¬ x.ptr = 0 := by omega
      rw [length_bytesAt] at hask
      simp only [heapStep]
      by_cases hle : n ≤ x.reqSize
      · obtain ⟨h', Ms', m', hrun, hshrunk⟩ := krealloc_shrink hh hlock hx hn hle
        have hbytes : bytesAt m' x.ptr n = (bytesAt m x.ptr x.reqSize).take n := by
          have hxs := x.ptr_stop
          rw [bytesAt_take hle]
          exact bytesAt_congr fun i hi => hshrunk.kept x hx _ (by omega) (by omega)
        have hshows' := hshows.replace hh.headers hx hshrunk.live
          (fun z hz hzx he => hzx (ptr_inj hh.headers hz hx (he.trans hshrunk.ptr))) fun z hz _ => hshrunk.kept z hz
        rw [hshrunk.ptr, Function.update_idem] at hshows'
        rw [hrun]
        refine ⟨⟨Function.update A.blocks x.ptr (some (bytesAt m' x.ptr n)), HeapPage Ms'⟩, ⟨?_, Or.inr ?_⟩, Ms', m',
          hshrunk.holds, hshrunk.filled hfilled, hshrunk.unlocked, rfl, hshows'⟩
        · refine (answers_realloc hn hx0).2 ⟨_, hp, ?_⟩
          rw [if_pos (by rw [length_bytesAt]; exact hle), ← hbytes]
          exact ⟨rfl, rfl⟩
        · rw [hpages]
          exact hshrunk.spares
      · by_cases hempty : x.reqSize = 0
        · rw [krealloc_grow_empty hh hlock hx hempty hn (hask (by omega)).1 (hask (by omega)).2]
          refine ⟨rfl, Or.inr ⟨_, hp, by rw [length_bytesAt]; omega, Or.inl ?_⟩⟩
          rw [hempty]
          rfl
        · rcases krealloc_grow hh hlock hx (by omega) hempty (hask (by omega)).1 (hask (by omega)).2 with
            ⟨y, h', Ms', m', hrun, hysize, hregrown⟩ | ⟨hrun, -, hleft⟩
          · have hysize' : (bytesAt m' y.ptr y.reqSize).length = n := length_bytesAt.trans hysize
            have hprefix : (bytesAt m' y.ptr y.reqSize).take x.reqSize = bytesAt m x.ptr x.reqSize := by
              rw [bytesAt_take (by omega)]
              exact List.map_congr_left fun i hi => hregrown.copied i (List.mem_range.1 hi)
            have hy := (hregrown.live y).2 (Or.inl rfl)
            have hyp := y.ptr_spec
            have hys := y.ptr_stop
            have hshows' := hshows.replace hh.headers hx hregrown.live (fun z hz _ he => by
              have hzp := z.ptr_spec
              have hzs := z.ptr_stop
              have := hregrown.apart z hz
              omega) hregrown.kept
            rw [hrun]
            refine ⟨⟨Function.update (Function.update A.blocks x.ptr none) y.ptr (some (bytesAt m' y.ptr y.reqSize)),
              HeapPage Ms'⟩, ⟨?_, Or.inr ?_⟩, Ms', m', hregrown.holds, hregrown.filled hfilled, hregrown.unlocked, rfl, hshows'⟩
            · refine (answers_realloc hn hx0).2 ⟨_, hp, ?_⟩
              rw [if_neg (by rw [length_bytesAt]; exact hle)]
              refine ⟨(bytesAt m' y.ptr y.reqSize).drop x.reqSize, ?_, ?_, ?_⟩
              · rw [← hprefix, List.take_append_drop, hysize']
              · rw [← hysize]
                exact fresh_of_apart hshows (live_below hy) hregrown.apart
              · rw [← hprefix, List.take_append_drop]
            · rw [hpages]
              exact hregrown.spares
          · rw [hrun]
            exact ⟨rfl, Or.inr ⟨_, hp, by rw [length_bytesAt]; omega, Or.inr (Or.inr hleft)⟩⟩

/-- **One step**, whatever it is. -/
theorem Models.step (hA : Models A h) (hallowed : Allowed A h op) : Kept A h op (heapStep op h) := by
  cases op with
  | malloc n => exact hA.malloc hallowed
  | calloc nobj size => exact hA.calloc hallowed
  | realloc p n => exact hA.realloc hallowed
  | free p =>
    obtain ⟨bs, hp⟩ := hallowed
    exact hA.free hp
  | read p i =>
    obtain ⟨bs, hp, hi⟩ := hallowed
    exact hA.read hp hi
  | write p i v =>
    obtain ⟨bs, hp, hi⟩ := hallowed
    exact hA.write hp hi
  | elsewhere vm => exact hA.elsewhere hallowed

end Steps

/-! ## Runs from `liballoc_init` -/

section Init

variable {h : Heap}

end Init

end Myunix.Liballoc
