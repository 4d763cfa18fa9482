import Myunix.Liballoc.Kmalloc

/-!
# `kfree`

`kfree` finds the header through the byte before the pointer and the magic number, fills the block with zeros, takes
the minor out of its list, and gives the pages of a major back that has no minor any more.

* `kfree_drops`: the first part, up to the list of minors.
* `dropMajor_spec`: the major leaves the list and its pages become free.
* **`kfree_spec`**: every pointer that was handed out can be freed, and the heap is the one without it (`Removes`).
* `kfree_again`: who frees a pointer twice in a row stops the kernel.
-/

namespace Myunix.Liballoc

open Lib Pmm Vmm Syscall

/-! ## The header behind a pointer -/

/-- The memory after `unlinkMinor`: the neighbours of a minor are linked to each other. -/
def unlinked (m : Memory) (maj prev next : Nat) : Memory :=
  let m := if next ≠ 0 then putWord m next prev else m
  let m := if prev ≠ 0 then putWord m (prev + 4) next else m
  if prev = 0 then putWord m (maj + 20) next else m

/-- The memory after the links of `dropMajor`: the neighbours of a major are linked to each other. -/
def unchained (m : Memory) (prev next : Nat) : Memory :=
  let m := if prev ≠ 0 then putWord m (prev + 4) next else m
  if next ≠ 0 then putWord m next prev else m

section Header

variable {P : Nat → Prop} {base : Vm} {m : Memory} {h : Heap} {M : Major} {x : Minor} {maj prev next : Nat}

/-- `UNALIGN` takes back what `ALIGN` added. -/
theorem unalign_spec (hp : HeapPages P base) (hs : Sees P base h.vm m) (hb : InBlock P M) (hx : x ∈ M.minors)
    (hat : MinorAt m M.addr x) : unalign h x.ptr = .ok (x.addr + 24) := by
  have hm := Major.mem hx
  have hptr := x.ptr_spec
  have hstop := x.ptr_stop
  have hbelow : M.stop ≤ 0x100000000 := M.below
  have hinfo := hat.info
  have hload : kernelLoad h.vm (x.ptr - 16) = .ok (m (x.ptr - 16)) :=
    hs.kernelLoad hp (hb.sub (n := 1) (by omega) (by omega) _ (Nat.le_refl _) (Nat.lt_succ_self _))
  have hsub : sub32 x.ptr 16 = x.ptr - 16 := sub32_eq (by omega) (by omega)
  have hmsb : (m (x.ptr - 16)).msb = false := BitVec.msb_eq_false_iff_two_mul_lt.2 (by omega)
  have hdiff : ((m (x.ptr - 16)).signExtend 32).toNat = x.ptr - (x.addr + 24) := by
    rw [BitVec.signExtend_eq_setWidth_of_msb_false hmsb, BitVec.toNat_setWidth, hinfo]
    omega
  have hback : sub32 x.ptr (x.ptr - (x.addr + 24)) = x.addr + 24 := by
    rw [sub32_eq (by omega) (by omega)]
    omega
  simp only [unalign, hsub, hload, ofKernel_ok, ok_bind, hdiff, hback, if_pos (by omega : x.ptr - (x.addr + 24) < 32)]
  rfl

/-- A store under a condition, and what follows. -/
theorem Sees.storeIf (hp : HeapPages P base) (hs : Sees P base h.vm m) {c : Prop} [Decidable c] {a : Nat}
    (ha : c → InPages P a 4) (v : Nat) :
    ∃ vm', (∀ f : Heap → HeapM Heap, (if c then h.store a v >>= f else pure h >>= f) = f { h with vm := vm' }) ∧
      Sees P base vm' (if c then putWord m a v else m) := by
  by_cases hc : c
  · obtain ⟨vm', hstore, hs'⟩ := hs.store hp (ha hc) v
    simp only [if_pos hc]
    exact ⟨vm', fun f => by rw [hstore, ok_bind], hs'⟩
  · simp only [if_neg hc]
    exact ⟨h.vm, fun f => rfl, hs⟩

theorem unlinked_apart {a : Nat} (hnext : next ≠ 0 → a < next ∨ next + 4 ≤ a)
    (hprev : prev ≠ 0 → a < prev + 4 ∨ prev + 8 ≤ a) (hfirst : a < maj + 20 ∨ maj + 24 ≤ a) :
    unlinked m maj prev next a = m a := by
  by_cases hp0 : prev = 0 <;> by_cases hn0 : next = 0 <;> simp only [ne_eq, hp0, hn0, not_true_eq_false,
    not_false_eq_true, forall_const, false_implies] at hprev hnext <;>
  simp (disch := omega) only [unlinked, ne_eq, hp0, hn0, if_true, if_false, not_true_eq_false, not_false_eq_true,
    putWord_apart]

theorem unlinkMinor_spec (maj : Nat) (hp : HeapPages P base) (hs : Sees P base h.vm m) (hx : InPages P x.addr 24)
    (hfirst : InPages P (maj + 20) 4) (hprev : wordAt m x.addr = prev) (hnext : wordAt m (x.addr + 4) = next)
    (hprevIn : prev ≠ 0 → InPages P (prev + 4) 4) (hnextIn : next ≠ 0 → InPages P next 4) :
    ∃ vm', unlinkMinor maj x.addr h = .ok { h with vm := vm' } ∧ Sees P base vm' (unlinked m maj prev next) := by
  have hloadNext : h.load (x.addr + 4) = .ok next := by
    rw [hs.load hp (hx.sub (by omega) (by omega)), hnext]
  have hloadPrev : h.load x.addr = .ok prev := by
    rw [hs.load hp (hx.sub (by omega) (by omega)), hprev]
  obtain ⟨vm₁, h1, hs₁⟩ := hs.storeIf hp hnextIn prev
  obtain ⟨vm₂, h2, hs₂⟩ := Sees.storeIf (h := { h with vm := vm₁ }) hp hs₁ hprevIn next
  obtain ⟨vm₃, h3, hs₃⟩ := Sees.storeIf (h := { h with vm := vm₂ }) (c := prev = 0) hp hs₂ (fun _ => hfirst) next
  refine ⟨vm₃, ?_, hs₃⟩
  simp only [unlinkMinor, minNext, minPrev, majFirst, hloadNext, hloadPrev, ok_bind]
  refine (h1 _).trans ((h2 _).trans (Eq.trans ?_ (h3 pure)))
  split
  · exact (bind_pure _).symm
  · rfl

/-- What `kfree` stores. -/
theorem dropped_of_stores {used : Nat} (hmaj : maj + 24 ≤ x.addr) (hstop : x.stop ≤ 0x100000000)
    (hused : wordAt m (maj + 16) = used) (hle : 24 + x.size ≤ used) (hprevLt : prev < 0x100000000)
    (hprev : prev ≠ 0 → maj + 24 ≤ prev ∧ prev + 24 ≤ x.addr)
    (hnext : next ≠ 0 → x.stop ≤ next ∧ next < 0x100000000) :
    Dropped m (unlinked (putWords (fillBytes m (x.addr + 24) x.size 0#8)
      [(maj + 16, used - (24 + x.size)), (x.addr + 12, liballocDead)]) maj prev next) maj prev next x := by
  have hxstop : x.stop = x.addr + 24 + x.size := rfl
  have hroom := x.room
  have husedLt : used < 0x100000000 := hused ▸ wordAt_lt
  have hnextLt : next < 0x100000000 := by
    by_cases h0 : next = 0
    · omega
    · exact (hnext h0).2
  refine ⟨?_, ?_, fun hne => ?_, fun hne => ?_, fun a h1 h2 h3 h4 => ?_⟩
  · by_cases hp0 : prev = 0 <;> by_cases hn0 : next = 0 <;> simp only [ne_eq, hp0, hn0, not_true_eq_false,
      not_false_eq_true, forall_const, false_implies] at hprev hnext <;>
    simp (disch := omega) only [unlinked, putWords, List.foldl_cons, List.foldl_nil, ne_eq, hp0, hn0, if_true, if_false,
      not_true_eq_false, not_false_eq_true, wordAt_putWord, wordAt_putWord_apart, hused] <;> omega
  · by_cases hp0 : prev = 0 <;> by_cases hn0 : next = 0 <;> simp only [ne_eq, hp0, hn0, not_true_eq_false,
      not_false_eq_true, forall_const, false_implies] at hprev hnext <;>
    simp (disch := omega) only [unlinked, putWords, List.foldl_cons, List.foldl_nil, ne_eq, hp0, hn0, if_true, if_false,
      not_true_eq_false, not_false_eq_true, wordAt_putWord, wordAt_putWord_apart, wordAt_fillBytes_apart]
  · have hprev := hprev hne
    by_cases hn0 : next = 0 <;> simp only [ne_eq, hn0, not_true_eq_false,
      not_false_eq_true, forall_const, false_implies] at hnext <;>
    simp (disch := omega) only [unlinked, putWords, List.foldl_cons, List.foldl_nil, ne_eq, hne, hn0, if_true, if_false,
      not_true_eq_false, not_false_eq_true, wordAt_putWord]
  · have hnext := hnext hne
    by_cases hp0 : prev = 0 <;> simp only [ne_eq, hp0, not_true_eq_false,
      not_false_eq_true, forall_const, false_implies] at hprev <;>
    simp (disch := omega) only [unlinked, putWords, List.foldl_cons, List.foldl_nil, ne_eq, hne, hp0, if_true, if_false,
      not_true_eq_false, not_false_eq_true, wordAt_putWord, wordAt_putWord_apart]
  · rw [unlinked_apart (fun hne => by have := h3 hne; omega) (fun hne => by have := h2 hne; omega) (by omega)]
    simp (disch := omega) only [putWords, List.foldl_cons, List.foldl_nil, putWord_apart, fillBytes_apart]

end Header

/-! ## The minor leaves its list -/

section Drop

variable {h : Heap} {pre post : List Major} {m m' : Memory} {M : Major} {x : Minor} {l₁ l₂ : List Minor}

/-- The neighbours of a minor lie in the block. -/
theorem neighbours (hM : M.minors = l₁ ++ x :: l₂) :
    (lastPtr l₁ ≠ 0 → M.addr + 24 ≤ lastPtr l₁ ∧ lastPtr l₁ + 24 ≤ x.addr) ∧
      (headPtr l₂ ≠ 0 → x.stop ≤ headPtr l₂ ∧ headPtr l₂ + 24 ≤ M.stop) := by
  have haround := (hM ▸ M.packed : Packed Minor.addr Minor.stop (M.addr + 24) (l₁ ++ x :: l₂) M.stop).around
  constructor
  · rcases lastPtr_cases l₁ with ⟨h0, -⟩ | ⟨l, y, rfl, hy⟩
    · exact fun hne => absurd h0 hne
    · intro _
      have hym := Major.mem (M := M) (x := y) (by rw [hM]; simp)
      have hystop : y.stop = y.addr + 24 + y.size := rfl
      have := haround.1 y (by simp)
      omega
  · rcases headPtr_cases l₂ with ⟨h0, -⟩ | ⟨y, l, rfl, hy⟩
    · exact fun hne => absurd h0 hne
    · intro _
      have hym := Major.mem (M := M) (x := y) (by rw [hM]; simp)
      have hystop : y.stop = y.addr + 24 + y.size := rfl
      have := haround.2 y (by simp)
      omega

/-- **The first part of `kfree`**: the block is zero and no minor any more. -/
theorem kfree_drops (hh : Holds h (pre ++ M :: post) m) (hlock : h.spinlock = 0#32) (hM : M.minors = l₁ ++ x :: l₂) :
    ∃ vm' m', Sees (HeapPage (pre ++ M :: post)) h.vm vm' m' ∧ Dropped m m' M.addr (lastPtr l₁) (headPtr l₂) x ∧
      (∀ a, x.addr + 24 ≤ a → a < x.stop → m' a = 0#8) ∧
      ∀ h', h' = ({ h with
          vm := vm', inuse := (h.inuse + 0x10000000000000000 - x.size) % 0x10000000000000000,
          spinlock := 1#32 } : Heap) →
        kfree x.ptr h = (do
          let h ← if headPtr (l₁ ++ l₂) = 0 then dropMajor M.addr h' else rememberBet M.addr h'
          liballocUnlock h) := by
  have hmem : M ∈ pre ++ M :: post := List.mem_append_right _ List.mem_cons_self
  have hb : InBlock (HeapPage (pre ++ M :: post)) M := ⟨inPages_major hmem⟩
  have hp := hh.pages
  have hat := hh.headers.majors M hmem
  have hxM := mem_of_minors hM
  have hxat := hat.minors x hxM
  have hm := Major.mem hxM
  have hroom := x.room
  have hptr := x.ptr_spec
  have hxstop : x.stop = x.addr + 24 + x.size := rfl
  have hbelow : M.stop ≤ 0x100000000 := M.below
  obtain ⟨hprev, hnext⟩ := neighbours hM
  obtain ⟨hlinkPrev, hlinkNext⟩ := hat.links hM
  have hused : 24 + x.size ≤ M.used := by
    have := used_remove hM
    omega
  have husedLe := M.used_le
  -- the stores, one after the other
  obtain ⟨vm₁, hset, hs₁⟩ :=
    hh.sees.memset hp (a := x.addr + 24) (n := x.size) (hb.sub (by omega) (by omega)) (by omega)
    (by omega) (by omega) 0#8
  obtain ⟨vm₂, hstores, hs₂⟩ := Sees.stores (h := { h with
      vm := vm₁, inuse := (h.inuse + 0x10000000000000000 - x.size) % 0x10000000000000000, spinlock := 1#32 }) hp
    [(M.addr + 16, M.used - (24 + x.size)), (x.addr + 12, liballocDead)]
    (by
      simp only [List.forall_mem_cons, List.not_mem_nil, false_implies, implies_true, and_true]
      exact ⟨hb.sub (by omega) (by omega), hb.sub (by omega) (by omega)⟩) hs₁
  have hwordPrev : wordAt (putWords (fillBytes m (x.addr + 24) x.size 0#8)
      [(M.addr + 16, M.used - (24 + x.size)), (x.addr + 12, liballocDead)]) x.addr = lastPtr l₁ := by
    simp (disch := omega) only [putWords, List.foldl_cons, List.foldl_nil, wordAt_putWord_apart, wordAt_fillBytes_apart,
      hlinkPrev]
  have hwordNext : wordAt (putWords (fillBytes m (x.addr + 24) x.size 0#8)
      [(M.addr + 16, M.used - (24 + x.size)), (x.addr + 12, liballocDead)]) (x.addr + 4) = headPtr l₂ := by
    simp (disch := omega) only [putWords, List.foldl_cons, List.foldl_nil, wordAt_putWord_apart, wordAt_fillBytes_apart,
      hlinkNext]
  obtain ⟨vm₃, hunlink, hs₃⟩ := unlinkMinor_spec (h := { h with
      vm := vm₂, inuse := (h.inuse + 0x10000000000000000 - x.size) % 0x10000000000000000, spinlock := 1#32 })
    M.addr hp hs₂ (hb.sub (by omega) (by omega)) (hb.sub (by omega) (by omega)) hwordPrev hwordNext
    (fun h0 => by have := hprev h0; exact hb.sub (by omega) (by omega))
    (fun h0 => by have := hnext h0; exact hb.sub (by omega) (by omega))
  have hdropped := @dropped_of_stores m x M.addr (lastPtr l₁) (headPtr l₂) M.used
    hm.1 (by omega) hat.usage hused (hlinkPrev ▸ wordAt_lt) hprev
    (fun h0 => ⟨(hnext h0).1, by have := hnext h0; omega⟩)
  refine ⟨vm₃, _, hs₃, hdropped, fun a h1 h2 => ?_, ?_⟩
  · rw [unlinked_apart (fun h0 => by have := hnext h0; omega) (fun h0 => by have := hprev h0; omega) (by omega)]
    simp (disch := omega) only [putWords, List.foldl_cons, List.foldl_nil, putWord_apart]
    exact fillBytes_in h1 (by omega)
  · rintro h' rfl
    have hlocked := hh.withLock 1#32
    have hunalign := unalign_spec hp hh.sees hb hxM hxat
    have hmin : sub32 (x.addr + 24) 24 = x.addr := by
      rw [sub32_eq (by omega) (by omega)]
      omega
    have hmagic : Heap.load { h with spinlock := 1#32 } (x.addr + 12) = .ok liballocMagic := by
      rw [hlocked.sees.load hp (hb.sub (by omega) (by omega)), hxat.magic]
    have hblock : Heap.load { h with spinlock := 1#32 } (x.addr + 8) = .ok M.addr := by
      rw [hlocked.sees.load hp (hb.sub (by omega) (by omega)), hxat.block]
    have hsize : Heap.load { h with spinlock := 1#32 } (x.addr + 16) = .ok x.size := by
      rw [hlocked.sees.load hp (hb.sub (by omega) (by omega)), hxat.size]
    have husage : Heap.load { h with
        vm := vm₁, inuse := (h.inuse + 0x10000000000000000 - x.size) % 0x10000000000000000, spinlock := 1#32 }
        (M.addr + 16) = .ok M.used := by
      rw [Sees.load hp hs₁ (hb.sub (by omega) (by omega)), wordAt_fillBytes_apart (by omega), hat.usage]
    have hsize' : Heap.load { h with
        vm := vm₁, inuse := (h.inuse + 0x10000000000000000 - x.size) % 0x10000000000000000, spinlock := 1#32 }
        (x.addr + 16) = .ok x.size := by
      rw [Sees.load hp hs₁ (hb.sub (by omega) (by omega)), wordAt_fillBytes_apart (by omega), hxat.size]
    have hsub : sub32 M.used (add32 x.size 24) = M.used - (24 + x.size) := by
      have := M.size_lt
      rw [add32_eq (by omega), Nat.add_comm x.size, sub32_eq hused (by omega)]
    have hfirst : Heap.load { h with
        vm := vm₃, inuse := (h.inuse + 0x10000000000000000 - x.size) % 0x10000000000000000, spinlock := 1#32 }
        (M.addr + 20) = .ok (headPtr (l₁ ++ l₂)) := by
      rw [Sees.load hp hs₃ (hb.sub (by omega) (by omega))]
      exact congrArg Except.ok (hat.remove hM hdropped).first
    have hzero : kernelMemset h.vm (x.addr + 24) 0 x.size = .ok vm₁ := hset
    simp only [kfree, assert_bind (by omega : x.ptr ≠ 0), hunalign, ok_bind, liballocLock_ok hlock, hmin,
      liballocVerifyMagic, minMagic, minBlock, minSize, majUsage, majFirst, hmagic, hblock, hsize, assert_bind, hzero,
      ofKernel_ok, husage, hsize', hsub, hstores, hunlink, hfirst]

end Drop

/-! ## The major leaves its list -/

section Major

variable {h : Heap} {Ms pre post : List Major} {m : Memory} {M N : Major} {prev next a : Nat}

theorem unchained_apart (hprev : prev ≠ 0 → a < prev + 4 ∨ prev + 8 ≤ a) (hnext : next ≠ 0 → a < next ∨ next + 4 ≤ a) :
    unchained m prev next a = m a := by
  by_cases hp0 : prev = 0 <;> by_cases hn0 : next = 0 <;> simp only [ne_eq, hp0, hn0, not_true_eq_false,
    not_false_eq_true, forall_const, false_implies] at hprev hnext <;>
  simp (disch := omega) only [unchained, ne_eq, hp0, hn0, if_true, if_false, not_true_eq_false, not_false_eq_true,
    putWord_apart]

theorem unchained_links (hprev : prev < 0x100000000) (hnext : next < 0x100000000)
    (hap : prev ≠ 0 → next ≠ 0 → next + 8 ≤ prev ∨ prev + 8 ≤ next) :
    (prev ≠ 0 → wordAt (unchained m prev next) (prev + 4) = next) ∧
      (next ≠ 0 → wordAt (unchained m prev next) next = prev) := by
  by_cases hp0 : prev = 0 <;> by_cases hn0 : next = 0 <;> simp only [ne_eq, hp0, hn0, not_true_eq_false,
    not_false_eq_true, forall_const, false_implies] at hap <;>
  simp (disch := omega) only [unchained, ne_eq, hp0, hn0, if_true, if_false, not_true_eq_false, not_false_eq_true,
    wordAt_putWord, wordAt_putWord_apart, false_implies, implies_true, and_self]

/-- A pointer to the last major is that of a major. -/
theorem last_cases (l : List Major) :
    ptrOf (l.map Major.addr).getLast? = 0 ∧ (l.map Major.addr).getLast? = none ∨
      ∃ L ∈ l, (l.map Major.addr).getLast? = some L.addr ∧ ptrOf (l.map Major.addr).getLast? = L.addr := by
  cases hl : (l.map Major.addr).getLast? with
  | none => exact Or.inl ⟨rfl, rfl⟩
  | some c =>
    obtain ⟨L, hL, rfl⟩ := List.mem_map.1 (List.mem_of_getLast? hl)
    exact Or.inr ⟨L, hL, rfl, rfl⟩

theorem head_cases (l : List Major) :
    ptrOf (l.map Major.addr).head? = 0 ∧ (l.map Major.addr).head? = none ∨
      ∃ L ∈ l, (l.map Major.addr).head? = some L.addr ∧ ptrOf (l.map Major.addr).head? = L.addr := by
  cases hl : (l.map Major.addr).head? with
  | none => exact Or.inl ⟨rfl, rfl⟩
  | some c =>
    obtain ⟨L, hL, rfl⟩ := List.mem_map.1 (List.mem_of_head? hl)
    exact Or.inr ⟨L, hL, rfl, rfl⟩

theorem mem_of_others (hM : M ∈ pre ++ post) : M ∈ pre ++ N :: post :=
  (List.Sublist.append_left (List.sublist_cons_self N post) pre).subset hM

/-- **The links of the majors** when one of them leaves. -/
theorem HeapAt.unchain (hat : HeapAt m (pre ++ N :: post)) :
    HeapAt (unchained m (ptrOf (pre.map Major.addr).getLast?) (ptrOf (post.map Major.addr).head?)) (pre ++ post) ∧
      (∀ a, N.addr ≤ a → a < N.stop →
        unchained m (ptrOf (pre.map Major.addr).getLast?) (ptrOf (post.map Major.addr).head?) a = m a) ∧
      ∀ L ∈ pre ++ post, ∀ a, L.addr + 8 ≤ a → a < L.stop →
        unchained m (ptrOf (pre.map Major.addr).getLast?) (ptrOf (post.map Major.addr).head?) a = m a := by
  -- the two majors whose links change, and a byte that is not in these links
  have hprev : ∀ c, (pre.map Major.addr).getLast? = some c →
      ptrOf (pre.map Major.addr).getLast? = c ∧ ∃ L ∈ pre, L.addr = c := fun c hc =>
    ⟨by rw [hc]; rfl, List.mem_map.1 (List.mem_of_getLast? hc)⟩
  have hnext : ∀ c, (post.map Major.addr).head? = some c →
      ptrOf (post.map Major.addr).head? = c ∧ ∃ L ∈ post, L.addr = c := fun c hc =>
    ⟨by rw [hc]; rfl, List.mem_map.1 (List.mem_of_head? hc)⟩
  have hbytes : ∀ a, (∀ c, (pre.map Major.addr).getLast? = some c → ¬ (c + 4 ≤ a ∧ a < c + 8)) →
      (∀ c, (post.map Major.addr).head? = some c → ¬ (c ≤ a ∧ a < c + 4)) →
      unchained m (ptrOf (pre.map Major.addr).getLast?) (ptrOf (post.map Major.addr).head?) a = m a := by
    intro a hl hr
    refine unchained_apart (fun h0 => ?_) fun h0 => ?_
    · rcases last_cases pre with ⟨hz, -⟩ | ⟨L, -, hlast, hptr⟩
      · exact absurd hz h0
      · have := hl _ hlast
        omega
    · rcases head_cases post with ⟨hz, -⟩ | ⟨L, -, hhead, hptr⟩
      · exact absurd hz h0
      · have := hr _ hhead
        omega
  have hwords := hat.chain
  rw [List.map_append, List.map_cons] at hwords
  obtain ⟨hlinkPrev, hlinkNext⟩ := hwords.at
  have hlinks := unchained_links (m := m) (hlinkPrev ▸ wordAt_lt) (hlinkNext ▸ wordAt_lt) fun hp0 hn0 => by
    rcases last_cases pre with ⟨hz, -⟩ | ⟨L, hL, -, hLptr⟩
    · exact absurd hz hp0
    · rcases head_cases post with ⟨hz, -⟩ | ⟨R, hR, -, hRptr⟩
      · exact absurd hz hn0
      · have hap := (List.pairwise_append.1 hat.apart).2.2 L hL R (List.mem_cons_of_mem _ hR)
        have := L.addr_lt_stop
        have := R.addr_lt_stop
        omega
  have hat' := hat.remove
    (fun c hc => by
      obtain ⟨hptr, -⟩ := hprev c hc
      have hc0 := major_addr_ne_zero (List.mem_of_getLast? hc)
      rw [← hptr] at hc0 ⊢
      exact hlinks.1 hc0)
    (fun c hc => by
      obtain ⟨hptr, -⟩ := hnext c hc
      have hc0 := major_addr_ne_zero (List.mem_of_head? hc)
      rw [← hptr] at hc0 ⊢
      exact hlinks.2 hc0)
    (fun a _ hl hr => hbytes a hl hr)
  refine ⟨hat', fun a ha ha' => hbytes a (fun c hc => ?_) fun c hc => ?_, fun M hM a ha ha' =>
    hbytes a (fun c hc => ?_) fun c hc => ?_⟩
  · obtain ⟨-, L, hL, rfl⟩ := hprev c hc
    have := hat.apart_from (List.mem_append_left post hL)
    have := L.addr_lt_stop
    omega
  · obtain ⟨-, L, hL, rfl⟩ := hnext c hc
    have := hat.apart_from (List.mem_append_right pre hL)
    have := L.addr_lt_stop
    omega
  · obtain ⟨-, L, hL, rfl⟩ := hprev c hc
    have hLs := L.addr_lt_stop
    rcases hat'.apart_or (List.mem_append_left post hL) hM with rfl | hap <;> omega
  · obtain ⟨-, L, hL, rfl⟩ := hnext c hc
    have hLs := L.addr_lt_stop
    rcases hat'.apart_or (List.mem_append_right pre hL) hM with rfl | hap <;> omega

theorem heapPage_remove {n : Nat} :
    HeapPage (pre ++ N :: post) n ↔ HeapPage (pre ++ post) n ∨ PageIn (N.addr / 4096) N.pages n := by
  simp only [HeapPage, List.mem_append, List.mem_cons, or_and_right, exists_or, exists_eq_left]
  exact (or_congr_right or_comm).trans or_assoc.symm

/-- What is left of the heap when the pages of a major are given back. -/
structure Released (h : Heap) (Ms : List Major) (h' : Heap) (Ms' : List Major) (m' : Memory) : Prop where
  holds : Holds h' Ms' m'
  lock : h'.spinlock = h.spinlock
  spares : Spares h.vm (HeapPage Ms) h'.vm (HeapPage Ms')

/-- **The pages of a major are given back.** -/
theorem Holds.release {vm₁ vm₂ : Vm} {m₁ : Memory} (hh : Holds h (pre ++ N :: post) m) (hempty : N.minors = [])
    (hs : Sees (HeapPage (pre ++ N :: post)) h.vm vm₁ m₁) (hat : HeapAt m₁ (pre ++ post))
    (hg : PagesGiven vm₁ (N.addr / 4096) N.pages vm₂) {root bet : Nat}
    (hroot : root = ptrOf ((pre ++ post).map Major.addr).head?) (hbet : bet = 0 ∨ ∃ M ∈ pre ++ post, M.addr = bet) :
    Released h (pre ++ N :: post)
      ⟨vm₂, root, bet, (h.allocated + 0x10000000000000000 - N.pages * 4096) % 0x10000000000000000, h.inuse, h.spinlock⟩
      (pre ++ post) m₁ := by
  have hp := hh.pages
  have hpmm : vm₁.pmm = h.vm.pmm := by rw [hs.map]
  have hold : ∀ n, HeapPage (pre ++ post) n → HeapPage (pre ++ N :: post) n := fun n hn => heapPage_remove.2 (Or.inl hn)
  have hgone : ∀ n, PageIn (N.addr / 4096) N.pages n → HeapPage (pre ++ N :: post) n :=
    fun n hn => heapPage_remove.2 (Or.inr hn)
  have hother : ∀ n, HeapPage (pre ++ post) n → ¬ PageIn (N.addr / 4096) N.pages n := by
    rintro n ⟨L, hL, hn⟩ hn'
    have hap := hh.headers.apart_from hL
    have hLal := L.aligned
    have hNal := N.aligned
    have hLs : L.stop = L.addr + L.pages * 4096 := rfl
    have hNs : N.stop = N.addr + N.pages * 4096 := rfl
    unfold PageIn at hn hn'
    omega
  have hentry : ∀ n, ¬ PageIn (N.addr / 4096) N.pages n → vm₂.entry .kernel n = h.vm.entry .kernel n :=
    fun n hn => (hg.stores.kernel n hn).trans (hs.entry _ _)
  have hframe : ∀ n, HeapPage (pre ++ post) n → kframe vm₂ n = kframe h.vm n := fun n hn => by
    unfold kframe
    rw [hentry n (hother n hn)]
  have hused : ∀ f, (∀ n, PageIn (N.addr / 4096) N.pages n → f ≠ kframe h.vm n) →
      vm₂.pmm.used f = h.vm.pmm.used f := fun f hf => by
    rw [hg.used f fun n hn => by rw [hs.kframe_eq]; exact hf n hn, hpmm]
  have happart : ∀ n k, HeapPage (pre ++ post) n → PageIn (N.addr / 4096) N.pages k →
      kframe h.vm n ≠ kframe h.vm k := by
    intro n k hn hk he
    rw [hp.distinct n k (hold n hn) (hgone k hk) he] at hn
    exact hother k hn hk
  refine ⟨⟨hg.tables, ?_, ?_, fun a ha => ?_, hat, hroot, hbet, ?_, ?_⟩, rfl, ?_⟩
  · show vm₂.pmm.used 0 = true
    rw [hused 0 fun n hn => (hp.nonzero n (hgone n hn)).symm]
    exact hh.zero
  · refine ⟨fun n hn => hp.lt n (hold n hn), fun n hn => ?_, fun n k hn hk he => ?_, fun n hn => ?_, fun n hn => ?_⟩
    · show vm₂.entry .kernel n &&& pagePresent ≠ 0#32
      rw [hentry n (hother n hn)]
      exact hp.present n (hold n hn)
    · rw [hframe n hn, hframe k hk] at he
      exact hp.distinct n k (hold n hn) (hold k hk) he
    · rw [hframe n hn, hused _ fun k hk => happart n k hn hk, hg.size, hpmm]
      exact hp.used n (hold n hn)
    · rw [hframe n hn]
      exact hp.nonzero n (hold n hn)
  · show vm₂.frames (kframe vm₂ (a / 4096)) (a % 4096) = m₁ a
    rw [hframe _ ha, hg.frames]
    exact hs.byte a (hold _ ha)
  · have hsize : totalSize (pre ++ N :: post) = totalSize (pre ++ post) + N.pages * 4096 := by
      rw [totalSize_append, totalSize_append, totalSize_cons]
      omega
    have hle := N.size_lt
    have hallocated := hh.allocated
    show (h.allocated + 0x10000000000000000 - N.pages * 4096) % 0x10000000000000000 = _
    omega
  · have hinuse : totalInuse (pre ++ N :: post) = totalInuse (pre ++ post) := by
      rw [totalInuse_append, totalInuse_append, totalInuse_cons, hempty]
      simp
    rw [← hinuse]
    exact hh.inuse
  · refine ⟨fun b => (hg.stores.users b).trans (by rw [hs.map]), hg.stores.nextDir.trans (by rw [hs.map]), ?_,
      fun n hn _ => hentry n fun hn' => hn (hgone n hn'), fun f hf _ => ⟨?_, fun _ => ?_⟩,
      fun n hn => Or.inl (hold n hn),
      fun n hn => Or.inl ⟨n, hold n hn, hframe n hn⟩, fun n hn hn' => ?_, fun n hn hf => ?_⟩
    · rw [hg.size, hpmm]
    · exact hused f fun n hn he => hf ⟨n, hgone n hn, he⟩
    · rw [hg.frames]
      exact hs.others f fun n hn he => hf ⟨n, hn, he⟩
    · exact hg.free n ((heapPage_remove.1 hn).resolve_left hn')
    · have hn' : ¬ HeapPage (pre ++ post) n := fun hn' => hf ⟨n, hn', (hframe n hn').symm⟩
      rw [← hs.kframe_eq]
      exact hg.freed n ((heapPage_remove.1 hn).resolve_left hn')

/-- **A major without minors** leaves the list. -/
theorem dropMajor_spec (hh : Holds h (pre ++ N :: post) m) (hempty : N.minors = []) :
    ∃ h' m', dropMajor N.addr h = .ok h' ∧ Released h (pre ++ N :: post) h' (pre ++ post) m' ∧
      ∀ L ∈ pre ++ post, ∀ a, L.addr + 8 ≤ a → a < L.stop → m' a = m a := by
  have hmem : N ∈ pre ++ N :: post := List.mem_append_right _ List.mem_cons_self
  have hp := hh.pages
  have hb : InBlock (HeapPage (pre ++ N :: post)) N := ⟨inPages_major hmem⟩
  have hNstop := N.addr_lt_stop
  have hN0 := N.nonzero
  have hNal := N.aligned
  have hj : 1 ≤ N.addr / 4096 := by omega
  have hat := hh.headers.majors N hmem
  obtain ⟨hat', hin, hkept⟩ := hh.headers.unchain
  have hwords := hh.headers.chain
  rw [List.map_append, List.map_cons] at hwords
  obtain ⟨hlinkPrev, hlinkNext⟩ := hwords.at
  have hlinkIn : ∀ L ∈ pre ++ post, InPages (HeapPage (pre ++ N :: post)) L.addr 8 := by
    intro L hL
    have hstop := L.addr_lt_stop
    have hLs : L.stop = L.addr + L.pages * 4096 := rfl
    exact (inPages_major (mem_of_others hL)).sub (Nat.le_refl _) (by omega)
  -- the two links
  obtain ⟨vm₁, h1, hs₁⟩ := Sees.storeIf (h := { h with
      memRoot := if h.memRoot = N.addr then ptrOf (post.map Major.addr).head? else h.memRoot
      bestBet := if h.bestBet = N.addr then 0 else h.bestBet })
    (a := ptrOf (pre.map Major.addr).getLast? + 4) (c := ptrOf (pre.map Major.addr).getLast? ≠ 0) hp hh.sees
    (fun h0 => by
      obtain ⟨L, hL, -, hptr⟩ := (last_cases pre).resolve_left fun hz => h0 hz.1
      rw [hptr]
      exact (hlinkIn L (List.mem_append_left _ hL)).sub (by omega) (by omega))
    (ptrOf (post.map Major.addr).head?)
  obtain ⟨vm₂, h2, hs₂⟩ := Sees.storeIf (h := { h with
      vm := vm₁
      memRoot := if h.memRoot = N.addr then ptrOf (post.map Major.addr).head? else h.memRoot
      bestBet := if h.bestBet = N.addr then 0 else h.bestBet })
    (a := ptrOf (post.map Major.addr).head?) (c := ptrOf (post.map Major.addr).head? ≠ 0) hp hs₁
    (fun h0 => by
      obtain ⟨L, hL, -, hptr⟩ := (head_cases post).resolve_left fun hz => h0 hz.1
      rw [hptr]
      exact (hlinkIn L (List.mem_append_right _ hL)).sub (by omega) (by omega))
    (ptrOf (pre.map Major.addr).getLast?)
  have hs : Sees (HeapPage (pre ++ N :: post)) h.vm vm₂
      (unchained m (ptrOf (pre.map Major.addr).getLast?) (ptrOf (post.map Major.addr).head?)) := hs₂
  have hk : KernelTables vm₂ := by
    rw [hs.map]
    exact hh.tables
  obtain ⟨vm₃, hfree, hg⟩ := liballocFree_spec (n := N.pages) (hs.heapPages hp) hk hj
    fun n hn => heapPage_remove.2 (Or.inr hn)
  rw [Nat.div_mul_cancel (Nat.dvd_of_mod_eq_zero hNal)] at hfree
  have hroot : (if h.memRoot = N.addr then ptrOf (post.map Major.addr).head? else h.memRoot) =
      ptrOf ((pre ++ post).map Major.addr).head? := by
    have hold := hh.root
    cases pre with
    | nil => exact if_pos hold
    | cons L pre =>
      rw [hold]
      refine if_neg fun he => ?_
      have he : L.addr = N.addr := he
      have hap := hh.headers.apart_from (List.mem_append_left post List.mem_cons_self)
      have := L.addr_lt_stop
      omega
  have hbet : (if h.bestBet = N.addr then 0 else h.bestBet) = 0 ∨
      ∃ M ∈ pre ++ post, M.addr = if h.bestBet = N.addr then 0 else h.bestBet := by
    split
    · exact Or.inl rfl
    · rename_i hne
      refine hh.bet.imp_right fun ⟨M, hM, he⟩ => ⟨M, ?_, he⟩
      have hMN : M ≠ N := fun h => hne (by rw [← he, h])
      simp only [List.mem_append, List.mem_cons] at hM ⊢
      tauto
  refine ⟨_, _, ?_, hh.release hempty hs hat' hg hroot hbet, hkept⟩
  have hloadNext : h.load (N.addr + 4) = .ok (ptrOf (post.map Major.addr).head?) := by
    rw [hh.sees.load hp (hb.sub (by omega) (by omega)), hlinkNext]
  have hloadPrev : h.load N.addr = .ok (ptrOf (pre.map Major.addr).getLast?) := by
    rw [hh.sees.load hp (hb.sub (by omega) (by omega)), hlinkPrev]
  simp only [dropMajor, majNext, majPrev, hloadNext, hloadPrev, ok_bind]
  refine (h1 _).trans ((h2 _).trans ?_)
  have hsize : Heap.load { h with
      vm := vm₂
      memRoot := if h.memRoot = N.addr then ptrOf (post.map Major.addr).head? else h.memRoot
      bestBet := if h.bestBet = N.addr then 0 else h.bestBet } (N.addr + 12) = .ok (N.pages * 4096) := by
    rw [Sees.load hp hs (hb.sub (by omega) (by omega)),
      wordAt_congr fun a h1 h2 => hin a (by omega) (by omega), hat.size]
  have hpages : Heap.load { h with
      vm := vm₂
      memRoot := if h.memRoot = N.addr then ptrOf (post.map Major.addr).head? else h.memRoot
      bestBet := if h.bestBet = N.addr then 0 else h.bestBet } (N.addr + 8) = .ok N.pages := by
    rw [Sees.load hp hs (hb.sub (by omega) (by omega)),
      wordAt_congr fun a h1 h2 => hin a (by omega) (by omega), hat.pages]
  simp only [majSize, majPages, hsize, hpages, ok_bind, hfree, ofKernel_ok]
  rfl

end Major

/-! ## `kfree` -/

/-- What the majors are when `kfree` has freed `x`. -/
inductive Removes (x : Minor) : List Major → List Major → Prop
  | minor (pre : List Major) (M : Major) (post : List Major) (l₁ l₂ : List Minor) (hM : M.minors = l₁ ++ x :: l₂)
      (hne : l₁ ++ l₂ ≠ []) : Removes x (pre ++ M :: post) (pre ++ M.remove l₁ l₂ x hM :: post)
  | major (pre : List Major) (M : Major) (post : List Major) (hM : M.minors = [x]) :
      Removes x (pre ++ M :: post) (pre ++ post)

/-- What `kfree` of `x` leaves: the bytes of the other blocks are as before, its own are zero or not mapped. -/
structure Freed (vm : Vm) (Ms : List Major) (m : Memory) (x : Minor) (h' : Heap) (Ms' : List Major) (m' : Memory) :
    Prop where
  holds : Holds h' Ms' m'
  unlocked : h'.spinlock = 0#32
  spares : Spares vm (HeapPage Ms) h'.vm (HeapPage Ms')
  kept : ∀ y, Live Ms' y → ∀ a, y.addr + 24 ≤ a → a < y.stop → m' a = m a
  gone : ∀ a, x.addr + 24 ≤ a → a < x.stop →
    (HeapPage Ms' (a / 4096) ∧ m' a = 0#8) ∨ h'.vm.entry .kernel (a / 4096) = 0#32

section Kfree

variable {h : Heap} {Ms pre post : List Major} {m m' : Memory} {M : Major} {x y : Minor} {l₁ l₂ : List Minor}

/-- One block less. -/
theorem Removes.live {Ms' : List Major} (hr : Removes x Ms Ms') : Live Ms y ↔ y = x ∨ Live Ms' y := by
  cases hr with
  | minor pre M post l₁ l₂ hM hne =>
    have hminors : (M.remove l₁ l₂ x hM).minors = l₁ ++ l₂ := rfl
    simp only [Live, List.mem_append, List.mem_cons, or_and_right, exists_or, exists_eq_left, hM, hminors]
    grind
  | major pre M post hM =>
    simp only [Live, List.mem_append, List.mem_cons, or_and_right, exists_or, exists_eq_left, hM, List.not_mem_nil,
      or_false]
    grind

/-- `kfree` leaves no major empty. -/
theorem Removes.filled {Ms' : List Major} (hr : Removes x Ms Ms') (h : Filled Ms) : Filled Ms' := by
  cases hr with
  | minor pre M post l₁ l₂ hM hne => exact h.update hne
  | major pre M post hM => exact h.drop

/-- A block that was freed is not handed out any more. -/
theorem Removes.gone {Ms' : List Major} (hr : Removes x Ms Ms') (hat : HeapAt m Ms) : ¬ Live Ms' x := by
  have hroom := x.room
  have hxstop : x.stop = x.addr + 24 + x.size := rfl
  cases hr with
  | minor pre M post l₁ l₂ hM hne =>
    have haround := (hM ▸ M.packed : Packed Minor.addr Minor.stop (M.addr + 24) (l₁ ++ x :: l₂) M.stop).around
    have hxM := Major.mem (M := M) (x := x) (by rw [hM]; simp)
    rintro ⟨L, hL, hx⟩
    have hL' : L = M.remove l₁ l₂ x hM ∨ L ∈ pre ++ post := by
      simp only [List.mem_append, List.mem_cons] at hL ⊢
      tauto
    rcases hL' with rfl | hL'
    · rcases List.mem_append.1 hx with hx | hx
      · have := haround.1 x hx
        omega
      · have := haround.2 x hx
        omega
    · have hap := hat.apart_from hL'
      have hxL := Major.mem hx
      omega
  | major pre M post hM =>
    have hxM := Major.mem (M := M) (x := x) (by rw [hM]; simp)
    rintro ⟨L, hL, hx⟩
    have hap := hat.apart_from hL
    have hxL := Major.mem hx
    omega

theorem rememberBet_spec (hh : Holds h Ms m) (hM : M ∈ Ms) :
    ∃ bet, rememberBet M.addr h = .ok { h with bestBet := bet } ∧ Holds { h with bestBet := bet } Ms m := by
  obtain ⟨-, hsize, hused⟩ := hh.loads hM
  unfold rememberBet
  by_cases hbet : h.bestBet = 0
  · rw [if_neg (not_not_intro hbet)]
    exact ⟨h.bestBet, rfl, hh⟩
  · obtain ⟨B, hB, haddr⟩ := hh.bet.resolve_left hbet
    obtain ⟨-, hbetSize, hbetUsed⟩ := hh.loads hB
    rw [haddr] at hbetSize hbetUsed
    rw [if_pos hbet, hbetSize, ok_bind, hbetUsed, ok_bind, hsize, ok_bind, hused, ok_bind]
    dsimp only
    split
    · exact ⟨M.addr, rfl, hh.bestBet (Or.inr ⟨M, hM, rfl⟩)⟩
    · exact ⟨h.bestBet, rfl, hh⟩

theorem liballocUnlock_ok (hlock : h.spinlock = 1#32) : liballocUnlock h = .ok { h with spinlock := 0#32 } := by
  rw [liballocUnlock, assert_bind hlock]
  rfl

/-- The heap without a minor. -/
theorem Holds.dropped {vm' : Vm} (hh : Holds h (pre ++ M :: post) m) (hM : M.minors = l₁ ++ x :: l₂)
    (hs : Sees (HeapPage (pre ++ M :: post)) h.vm vm' m') (hd : Dropped m m' M.addr (lastPtr l₁) (headPtr l₂) x)
    (lock : Word) :
    Holds { h with
        vm := vm', inuse := (h.inuse + 0x10000000000000000 - x.size) % 0x10000000000000000, spinlock := lock }
      (pre ++ M.remove l₁ l₂ x hM :: post) m' := by
  have hxM := Major.mem (mem_of_minors hM)
  have hxstop : x.stop = x.addr + 24 + x.size := rfl
  have hbelow : M.stop ≤ 0x100000000 := M.below
  have hmem : M ∈ pre ++ M :: post := List.mem_append_right _ List.mem_cons_self
  have hedits := hd.edits hM
  have haddr : (M.remove l₁ l₂ x hM).addr = M.addr := rfl
  have hat := hh.headers.update haddr rfl ((hh.headers.majors M hmem).remove hM hd)
    fun a ha => hedits.outside hxM.2 ha
  have hminors : (M.remove l₁ l₂ x hM).minors = l₁ ++ l₂ := rfl
  have hinuse : totalInuse (pre ++ M :: post) = totalInuse (pre ++ M.remove l₁ l₂ x hM :: post) + x.size := by
    rw [totalInuse_append, totalInuse_append, totalInuse_cons, totalInuse_cons, hminors, hM]
    simp only [List.map_append, List.map_cons, List.sum_append, List.sum_cons]
    omega
  refine hh.update haddr rfl hs hat ?_ _
  have hold := hh.inuse
  omega

/-- `kfree` of a minor of one major. -/
theorem kfree_at (hh : Holds h (pre ++ M :: post) m) (hlock : h.spinlock = 0#32) (hM : M.minors = l₁ ++ x :: l₂) :
    ∃ h' Ms' m', kfree x.ptr h = .ok h' ∧ Removes x (pre ++ M :: post) Ms' ∧
      Freed h.vm (pre ++ M :: post) m x h' Ms' m' := by
  obtain ⟨vm', m', hs, hd, hzero, hrun⟩ := kfree_drops hh hlock hM
  have hdropped := hh.dropped hM hs hd 1#32
  have hpages : ∀ n, HeapPage (pre ++ M.remove l₁ l₂ x hM :: post) n ↔ HeapPage (pre ++ M :: post) n :=
    fun n => heapPage_update rfl rfl
  have hspares := hs.spares hpages
  have hxM := Major.mem (mem_of_minors hM)
  have hbelow : M.stop ≤ 0x100000000 := M.below
  have hedits := hd.edits hM
  have hmem : M ∈ pre ++ M :: post := List.mem_append_right _ List.mem_cons_self
  -- the bytes of the blocks that stay
  have hkept : ∀ y, Live (pre ++ M.remove l₁ l₂ x hM :: post) y → ∀ a, y.addr + 24 ≤ a → a < y.stop → m' a = m a := by
    rintro y ⟨L, hL, hy⟩ a h1 h2
    have hL' : L = M.remove l₁ l₂ x hM ∨ L ∈ pre ++ post := by
      simp only [List.mem_append, List.mem_cons] at hL ⊢
      tauto
    rcases hL' with rfl | hL'
    · exact hedits.kept hy h1 h2
    · have hap := hh.headers.apart_from hL'
      have hym := Major.mem hy
      exact hedits.outside hxM.2 (by omega)
  rw [hrun _ rfl]
  by_cases hempty : l₁ ++ l₂ = []
  · obtain ⟨h', m'', hdrop, hreleased, hkept'⟩ := dropMajor_spec hdropped hempty
    have haddr : (M.remove l₁ l₂ x hM).addr = M.addr := rfl
    rw [haddr] at hdrop
    obtain ⟨rfl, rfl⟩ := List.append_eq_nil_iff.1 hempty
    refine ⟨{ h' with spinlock := 0#32 }, pre ++ post, m'', ?_, Removes.major pre M post hM, hreleased.holds.withLock _,
      rfl, hspares.trans hreleased.spares, fun y ⟨L, hL, hy⟩ a h1 h2 => ?_, fun a h1 h2 => Or.inr ?_⟩
    · simp only [List.append_nil, headPtr_nil, if_true, hdrop, ok_bind]
      exact liballocUnlock_ok hreleased.lock
    · have hym := Major.mem hy
      rw [hkept' L hL a (by omega) (by omega)]
      exact hkept y ⟨L, mem_of_others hL, hy⟩ a h1 h2
    · have hin : PageIn (M.addr / 4096) M.pages (a / 4096) := pageIn_byte.2 ⟨by omega, by omega⟩
      refine hreleased.spares.given _ ((hpages _).2 ⟨M, hmem, hin⟩) fun hn => ?_
      obtain ⟨L, hL, hn⟩ := hn
      have hap := hh.headers.apart_from hL
      have haL := pageIn_byte.1 hn
      omega
  · have hfirst : headPtr (l₁ ++ l₂) ≠ 0 := by
      rcases headPtr_cases (l₁ ++ l₂) with ⟨-, h0⟩ | ⟨y, l, hl, hy⟩
      · exact absurd h0 hempty
      · have hym := Major.mem (M := M.remove l₁ l₂ x hM) (x := y) (by
          show y ∈ l₁ ++ l₂
          rw [hl]
          exact List.mem_cons_self)
        have haddr : (M.remove l₁ l₂ x hM).addr = M.addr := rfl
        omega
    obtain ⟨bet, hbet, hholds⟩ := rememberBet_spec hdropped
      (List.mem_append_right pre (List.mem_cons_self (a := M.remove l₁ l₂ x hM)))
    have haddr : (M.remove l₁ l₂ x hM).addr = M.addr := rfl
    rw [haddr] at hbet
    refine ⟨_, _, m', ?_, Removes.minor pre M post l₁ l₂ hM hempty, hholds.withLock 0#32, rfl, hspares, hkept,
      fun a h1 h2 => Or.inl ⟨?_, hzero a h1 h2⟩⟩
    · rw [if_neg hfirst, hbet, ok_bind]
      exact liballocUnlock_ok rfl
    · exact (hpages _).2 ⟨M, hmem, pageIn_byte.2 ⟨by omega, by omega⟩⟩

/-- **`kfree`** of a pointer that was handed out. -/
theorem kfree_spec (hh : Holds h Ms m) (hlock : h.spinlock = 0#32) (hx : Live Ms x) :
    ∃ h' Ms' m', kfree x.ptr h = .ok h' ∧ Removes x Ms Ms' ∧ Freed h.vm Ms m x h' Ms' m' := by
  obtain ⟨M, hM, hx⟩ := hx
  obtain ⟨pre, post, rfl⟩ := List.append_of_mem hM
  obtain ⟨l₁, l₂, hsplit⟩ := List.append_of_mem hx
  exact kfree_at hh hlock hsplit

/-- **A pointer that is freed twice in a row** stops the kernel: its pages are gone, or there is no magic number. -/
theorem kfree_again {vm : Vm} {h' : Heap} {Ms' : List Major} (hf : Freed vm Ms m x h' Ms' m')
    (htop : x.stop ≤ 0x100000000) :
    kfree x.ptr h' = .error (.failure .assertion) ∨ kfree x.ptr h' = .error (.failure .pageFault) := by
  have hptr := x.ptr_spec
  have hroom := x.room
  have hxstop : x.stop = x.addr + 24 + x.size := rfl
  have hsub : sub32 x.ptr 16 = x.ptr - 16 := sub32_eq (by omega) (by omega)
  have hbyte := hf.gone (x.ptr - 16) (by omega) (by omega)
  rcases hbyte with ⟨hpage, hz⟩ | hentry
  · left
    have hh := hf.holds
    have hload : kernelLoad h'.vm (x.ptr - 16) = .ok 0#8 := by rw [hh.sees.kernelLoad hh.pages hpage, hz]
    have hunalign : unalign h' x.ptr = .ok x.ptr := by
      have hdiff : ((0#8).signExtend 32).toNat = 0 := by decide
      have hback : sub32 x.ptr 0 = x.ptr := sub32_eq (Nat.zero_le _) (by omega)
      simp only [unalign, hsub, hload, ofKernel_ok, ok_bind, hdiff, hback, if_pos (by omega : 0 < 32)]
      rfl
    have hmin : sub32 x.ptr 24 = x.ptr - 24 := sub32_eq (by omega) (by omega)
    -- the magic number would be in the same page, where all bytes of the block are zero
    have hin : InPages (HeapPage Ms') (x.ptr - 24 + 12) 4 := fun a h1 h2 => by
      rw [show a / 4096 = (x.ptr - 16) / 4096 by omega]
      exact hpage
    have hzero : ∀ a, x.ptr - 24 + 12 ≤ a → a < x.ptr - 24 + 16 → m' a = 0#8 := by
      intro a h1 h2
      rcases hf.gone a (by omega) (by omega) with ⟨-, h0⟩ | hentry
      · exact h0
      · have hpres := hh.pages.present _ (hin a h1 (by omega))
        rw [hentry] at hpres
        exact absurd rfl hpres
    have hmagic : Heap.load { h' with spinlock := 1#32 } (x.ptr - 24 + 12) = .ok 0 := by
      rw [(hh.withLock 1#32).sees.load hh.pages hin]
      simp only [wordAt, hzero _ (Nat.le_refl _) (by omega), hzero (x.ptr - 24 + 12 + 1) (by omega) (by omega),
        hzero (x.ptr - 24 + 12 + 2) (by omega) (by omega), hzero (x.ptr - 24 + 12 + 3) (by omega) (by omega)]
      rfl
    simp only [kfree, assert_bind (by omega : x.ptr ≠ 0), hunalign, ok_bind, liballocLock_ok hf.unlocked, hmin,
      liballocVerifyMagic, minMagic, hmagic, assert_neg (by decide : ¬ 0 = liballocMagic), error_bind]
  · right
    have hload : kernelLoad h'.vm (x.ptr - 16) = .error .pageFault := by
      unfold kernelLoad kernelFrame
      rw [hentry]
      rfl
    simp only [kfree, assert_bind (by omega : x.ptr ≠ 0), unalign, hsub, hload]
    rfl

/-- **A block is freed once**: the second `kfree` of a pointer stops the kernel. -/
theorem kfree_twice (hh : Holds h Ms m) (hlock : h.spinlock = 0#32) (hx : Live Ms x) :
    ∃ h', kfree x.ptr h = .ok h' ∧
      (kfree x.ptr h' = .error (.failure .assertion) ∨ kfree x.ptr h' = .error (.failure .pageFault)) := by
  obtain ⟨h', Ms', m', hrun, -, hfreed⟩ := kfree_spec hh hlock hx
  exact ⟨h', hrun, kfree_again hfreed (live_below hx)⟩

/-- The first block of a heap, freed twice. -/
theorem kfree_twice_fresh : ∃ h p h' h'', liballocInit freshHeap = .ok h ∧ kmalloc 100 h = .ok (p, h') ∧
    kfree p h' = .ok h'' ∧
      (kfree p h'' = .error (.failure .assertion) ∨ kfree p h'' = .error (.failure .pageFault)) := by
  obtain ⟨h, N, m, x, h', hinit, hrun, hh, hN, hlock⟩ := kmalloc_fresh
  obtain ⟨h'', hfree, hagain⟩ := kfree_twice hh hlock ⟨N, List.mem_singleton_self N, by
    rw [hN]
    exact List.mem_singleton_self x⟩
  exact ⟨h, x.ptr, h', h'', hinit, hrun, hfree, hagain⟩

/-- **The last block of the only major** takes the major with it: its pages and their blocks are free, and every `kmalloc`
after its `kfree` stops the kernel. -/
theorem kfree_last (hh : Holds h [M] m) (hlock : h.spinlock = 0#32) (hM : M.minors = [x]) :
    ∃ h', kfree x.ptr h = .ok h' ∧
      (∀ n, PageIn (M.addr / 4096) M.pages n →
        h'.vm.entry .kernel n = 0#32 ∧ h'.vm.pmm.used (kframe h.vm n) = false) ∧
      h'.memRoot = 0 ∧ ∀ n, kmalloc n h' = .error (.failure .assertion) := by
  have hx : Live [M] x := ⟨M, List.mem_singleton_self M, by rw [hM]; exact List.mem_singleton_self x⟩
  obtain ⟨h', Ms', m', hrun, hremoves, hfreed⟩ := kfree_spec hh hlock hx
  have hnil : Ms' = [] := by
    generalize hMs : [M] = Ms at hremoves
    cases hremoves with
    | minor pre N post l₁ l₂ hN hne =>
      rcases List.append_eq_singleton_iff.1 hMs.symm with ⟨rfl, hN'⟩ | ⟨-, hN'⟩
      · obtain ⟨rfl, rfl⟩ := List.cons.inj hN'
        rcases List.append_eq_singleton_iff.1 (hN.symm.trans hM) with ⟨rfl, hx'⟩ | ⟨-, hx'⟩
        · exact absurd (List.cons.inj hx').2 hne
        · cases hx'
      · cases hN'
    | major pre N post hN =>
      rcases List.append_eq_singleton_iff.1 hMs.symm with ⟨rfl, hN'⟩ | ⟨-, hN'⟩
      · exact (List.cons.inj hN').2
      · cases hN'
  subst hnil
  refine ⟨h', hrun, fun n hn => ?_, hfreed.holds.root, fun n => kmalloc_none hfreed.holds hfreed.unlocked⟩
  -- without a major the heap has no pages, so it has given back all of `M`
  have hpage : HeapPage [M] n := ⟨M, List.mem_singleton_self M, hn⟩
  have hnone : ∀ k, ¬ HeapPage [] k := fun k ⟨_, hL, _⟩ => absurd hL List.not_mem_nil
  exact ⟨hfreed.spares.given n hpage (hnone n),
    hfreed.spares.given_frame n hpage fun ⟨k, hk, _⟩ => hnone k hk⟩

/-- The first block of a heap is the last one, too: with it the pages of `liballoc_init` go back. -/
theorem kfree_last_fresh : ∃ (h : Heap) (N : Major) (p : Nat) (h' h'' : Heap), liballocInit freshHeap = .ok h ∧
    kmalloc 100 h = .ok (p, h') ∧ kfree p h' = .ok h'' ∧
    (∀ n, PageIn (N.addr / 4096) N.pages n →
      h''.vm.entry .kernel n = 0#32 ∧ h''.vm.pmm.used (kframe h'.vm n) = false) ∧
    h''.memRoot = 0 ∧ ∀ n, kmalloc n h'' = .error (.failure .assertion) := by
  obtain ⟨h, N, m, x, h', hinit, hrun, hh, hN, hlock⟩ := kmalloc_fresh
  obtain ⟨h'', hfree, hgiven, hroot, hstops⟩ := kfree_last hh hlock hN
  exact ⟨h, N, x.ptr, h', h'', hinit, hrun, hfree, hgiven, hroot, hstops⟩

end Kfree

end Myunix.Liballoc
