import Myunix.Liballoc.Code
import Myunix.Process.Clone

/-!
# The memory of the heap

The kernel reaches the pages of the heap through its page directory. `HeapPages P vm` says that the pages `P` are
mapped, each to a frame of its own that is in use, and `Sees P base vm m` that the kernel finds the bytes of `m` in
them, in a machine that differs from `base` in these bytes alone.

* `Sees.load`, `Sees.store`: what an access does is what it does to `m`.
* `Sees.stores`, `Sees.memset` and `Sees.memcpy` are the same for the stores of a case and for ranges of bytes.
* `Spares` says what a step of the heap does to the rest of the machine: it takes free pages and gives pages back, and
  leaves all others alone (`Spares.trans`).
-/

namespace Myunix.Liballoc

open Lib Pmm Vmm Syscall Process

/-- The frame of page `n` of the kernel directory. -/
def kframe (vm : Vm) (n : Nat) : Nat := frameOf (vm.entry .kernel n)

/-- The pages `P` are mapped to frames of their own. -/
structure HeapPages (P : Nat → Prop) (vm : Vm) : Prop where
  lt : ∀ n, P n → n < 0x100000
  present : ∀ n, P n → vm.entry .kernel n &&& pagePresent ≠ 0#32
  distinct : ∀ n n', P n → P n' → kframe vm n = kframe vm n' → n = n'
  used : ∀ n, P n → kframe vm n < vm.pmm.size ∧ vm.pmm.used (kframe vm n) = true
  nonzero : ∀ n, P n → kframe vm n ≠ 0

/-- The machine is `base` with the bytes of `m` in the pages `P`. -/
structure Sees (P : Nat → Prop) (base vm : Vm) (m : Memory) : Prop where
  map : vm = { base with frames := vm.frames }
  byte : ∀ a, P (a / 4096) → vm.frames (kframe base (a / 4096)) (a % 4096) = m a
  others : ∀ f, (∀ n, P n → f ≠ kframe base n) → vm.frames f = base.frames f

/-- All bytes of the range are in the pages `P`. -/
def InPages (P : Nat → Prop) (a n : Nat) : Prop := ∀ x, a ≤ x → x < a + n → P (x / 4096)

section View

variable {P : Nat → Prop} {base vm : Vm} {m m' : Memory} {a n v dest src : Nat} {b : Byte} {h : Heap}

theorem InPages.byte (h : InPages P a n) {k : Nat} (hk : k < n) : P ((a + k) / 4096) := h _ (by omega) (by omega)

theorem InPages.sub {a' n' : Nat} (h : InPages P a n) (h1 : a ≤ a') (h2 : a' + n' ≤ a + n) : InPages P a' n' :=
  fun x hx hx' => h x (by omega) (by omega)

theorem Sees.entry (hs : Sees P base vm m) (d : DirPtr) (k : Nat) : vm.entry d k = base.entry d k := by
  rw [hs.map]
  rfl

theorem Sees.kframe_eq (hs : Sees P base vm m) (k : Nat) : kframe vm k = kframe base k := by
  unfold kframe
  rw [hs.entry]

/-- Stores do not change what the pages are. -/
theorem Sees.heapPages (hs : Sees P base vm m) (hp : HeapPages P base) : HeapPages P vm := by
  have hpmm : vm.pmm = base.pmm := by rw [hs.map]
  refine ⟨hp.lt, fun k hk => ?_, fun k k' hk hk' he => ?_, fun k hk => ?_, fun k hk => ?_⟩
  · rw [hs.entry]
    exact hp.present k hk
  · rw [hs.kframe_eq, hs.kframe_eq] at he
    exact hp.distinct k k' hk hk' he
  · rw [hs.kframe_eq, hpmm]
    exact hp.used k hk
  · rw [hs.kframe_eq]
    exact hp.nonzero k hk

theorem HeapPages.imp {Q : Nat → Prop} (hp : HeapPages P base) (h : ∀ k, Q k → P k) : HeapPages Q base :=
  ⟨fun k hk => hp.lt k (h k hk), fun k hk => hp.present k (h k hk),
    fun k k' hk hk' he => hp.distinct k k' (h k hk) (h k' hk') he, fun k hk => hp.used k (h k hk),
    fun k hk => hp.nonzero k (h k hk)⟩

theorem Sees.congr (hs : Sees P base vm m) (hm : ∀ a, P (a / 4096) → m' a = m a) : Sees P base vm m' :=
  ⟨hs.map, fun a ha => (hs.byte a ha).trans (hm a ha).symm, hs.others⟩

theorem Sees.kernelFrame (hp : HeapPages P base) (hs : Sees P base vm m) (ha : P (a / 4096)) :
    kernelFrame vm a = .ok (kframe base (a / 4096)) := by
  unfold Vmm.kernelFrame kframe frameOf
  simp only [hs.entry]
  rw [if_neg (hp.present _ ha)]
  rfl

theorem Sees.kernelLoad (hp : HeapPages P base) (hs : Sees P base vm m) (ha : P (a / 4096)) :
    kernelLoad vm a = .ok (m a) := by
  unfold Syscall.kernelLoad
  rw [hs.kernelFrame hp ha, ok_bind, hs.byte a ha]
  rfl

/-- A store of a byte: the frames of the pages are distinct, so that it changes no other byte of them. -/
theorem Sees.kernelStore (hp : HeapPages P base) (hs : Sees P base vm m) (ha : P (a / 4096)) (b : Byte) :
    ∃ vm', kernelStore vm a b = .ok vm' ∧ Sees P base vm' (putByte m a b) := by
  refine ⟨_, by rw [Syscall.kernelStore, hs.kernelFrame hp ha, ok_bind]; rfl, ?_, fun c hc => ?_, fun f hf => ?_⟩
  · conv_lhs => rw [hs.map]
  · dsimp only
    by_cases hca : c = a
    · subst hca
      rw [putByte_self, Function.update_self, Function.update_self]
    · rw [putByte_apart hca]
      by_cases hpage : kframe base (c / 4096) = kframe base (a / 4096)
      · have hn := hp.distinct _ _ hc ha hpage
        rw [hpage, Function.update_self, Function.update_of_ne (by omega), ← hpage, hs.byte c hc]
      · rw [Function.update_of_ne hpage, hs.byte c hc]
  · dsimp only
    rw [Function.update_of_ne (hf _ ha), hs.others f hf]

theorem add32_eq {a b : Nat} (hab : a + b < 0x100000000) : add32 a b = a + b := Nat.mod_eq_of_lt hab

theorem sub32_eq {a b : Nat} (hab : b ≤ a) (ha : a < 0x100000000) : sub32 a b = a - b := by
  unfold sub32
  omega

theorem ofKernel_ok {α : Type} (x : α) : ofKernel (.ok x : Kernel α) = .ok x := rfl

theorem append_toNat {k : Nat} (x : BitVec k) (b : Byte) : (x ++ b).toNat = 256 * x.toNat + b.toNat := by
  rw [BitVec.toNat_append, ← Nat.shiftLeft_add_eq_or_of_lt b.isLt, Nat.shiftLeft_eq, Nat.mul_comm]

/-- **A load** of a word. -/
theorem Sees.load (hp : HeapPages P base) (hs : Sees P base h.vm m) (ha : InPages P a 4) :
    h.load a = .ok (wordAt m a) := by
  have hword : kernelLoadWord h.vm a = .ok (m (a + 3) ++ m (a + 2) ++ m (a + 1) ++ m a) := by
    unfold kernelLoadWord
    rw [hs.kernelLoad hp (ha a (by omega) (by omega)), ok_bind, hs.kernelLoad hp (ha.byte (by omega)), ok_bind,
      hs.kernelLoad hp (ha.byte (by omega)), ok_bind, hs.kernelLoad hp (ha.byte (by omega)), ok_bind]
    rfl
  unfold Heap.load
  rw [hword, ofKernel_ok, ok_bind, pure_eq_ok]
  simp only [append_toNat, wordAt]
  omega

theorem Sees.kernelStoreWord (hp : HeapPages P base) (hs : Sees P base vm m) (ha : InPages P a 4) (v : Nat) :
    ∃ vm', kernelStoreWord vm a v = .ok vm' ∧ Sees P base vm' (putWord m a v) := by
  obtain ⟨vm₁, h1, hs₁⟩ := hs.kernelStore hp (ha a (by omega) (by omega)) (wordByte v 0)
  obtain ⟨vm₂, h2, hs₂⟩ := hs₁.kernelStore hp (ha (a + 1) (by omega) (by omega)) (wordByte v 1)
  obtain ⟨vm₃, h3, hs₃⟩ := hs₂.kernelStore hp (ha (a + 2) (by omega) (by omega)) (wordByte v 2)
  obtain ⟨vm₄, h4, hs₄⟩ := hs₃.kernelStore hp (ha (a + 3) (by omega) (by omega)) (wordByte v 3)
  refine ⟨vm₄, ?_, hs₄⟩
  simp only [Liballoc.kernelStoreWord, h1, h2, h3, h4, ok_bind]

/-- **A store** of a word. -/
theorem Sees.store (hp : HeapPages P base) (hs : Sees P base h.vm m) (ha : InPages P a 4) (v : Nat) :
    ∃ vm', h.store a v = .ok { h with vm := vm' } ∧ Sees P base vm' (putWord m a v) := by
  obtain ⟨vm', hstore, hs'⟩ := hs.kernelStoreWord hp ha v
  exact ⟨vm', by rw [Heap.store, hstore, ofKernel_ok, ok_bind]; rfl, hs'⟩

/-- The memory after stores of words, one after the other. -/
def putWords (m : Memory) (l : List (Nat × Nat)) : Memory := l.foldl (fun m x => putWord m x.1 x.2) m

theorem putWords_apart {l : List (Nat × Nat)} (h : ∀ p ∈ l, a < p.1 ∨ p.1 + 4 ≤ a) : putWords m l a = m a := by
  induction l generalizing m with
  | nil => rfl
  | cons p l ih =>
    have hl := ih (m := putWord m p.1 p.2) fun q hq => h q (List.mem_cons_of_mem p hq)
    exact hl.trans (putWord_apart (h p List.mem_cons_self))

/-- **Stores** of words. -/
theorem Sees.stores (hp : HeapPages P base) (l : List (Nat × Nat)) (hl : ∀ x ∈ l, InPages P x.1 4)
    (hs : Sees P base h.vm m) : ∃ vm', h.stores l = .ok { h with vm := vm' } ∧ Sees P base vm' (putWords m l) := by
  induction l generalizing h m with
  | nil => exact ⟨h.vm, rfl, hs⟩
  | cons x l ih =>
    obtain ⟨vm₁, h1, hs₁⟩ := hs.store hp (hl x List.mem_cons_self) x.2
    obtain ⟨vm₂, h2, hs₂⟩ := ih (h := { h with vm := vm₁ }) (fun y hy => hl y (List.mem_cons_of_mem x hy)) hs₁
    exact ⟨vm₂, by rw [Heap.stores, h1, ok_bind, h2], hs₂⟩

/-- **`memset`.** -/
theorem Sees.memset (hp : HeapPages P base) (hs : Sees P base vm m) (ha : InPages P a n) (h0 : a ≠ 0) (hn : n ≠ 0)
    (htop : a + n ≤ 0x100000000) (c : Byte) :
    ∃ vm', kernelMemset vm a c n = .ok vm' ∧ Sees P base vm' (fillBytes m a n c) := by
  have hzero : Sees P base vm (fillBytes m a 0 c) := hs.congr fun x _ => fillBytes_apart (by omega)
  unfold kernelMemset
  rw [assert_bind h0, assert_bind hn]
  refine forRange_zero_ok (P := fun i u => Sees P base u (fillBytes m a i c)) (fun i u hi hu => ?_) hzero
  rw [Nat.mod_eq_of_lt (by omega), fillBytes_succ]
  exact hu.kernelStore hp (ha.byte hi) c

/-- **`memcpy`** between ranges that are apart. -/
theorem Sees.memcpy (hp : HeapPages P base) (hs : Sees P base vm m) (hd : InPages P dest n) (hsrc : InPages P src n)
    (hd0 : dest ≠ 0) (hs0 : src ≠ 0) (hn : n ≠ 0) (hdtop : dest + n ≤ 0x100000000) (hstop : src + n ≤ 0x100000000)
    (hapart : src + n ≤ dest ∨ dest + n ≤ src) :
    ∃ vm', kernelMemcpy vm dest src n = .ok vm' ∧ Sees P base vm' (copyBytes m dest src n) := by
  have hzero : Sees P base vm (copyBytes m dest src 0) := hs.congr fun x _ => copyBytes_apart (by omega)
  unfold kernelMemcpy
  rw [assert_bind hd0, assert_bind hs0, assert_bind hn]
  refine forRange_zero_ok (P := fun i u => Sees P base u (copyBytes m dest src i)) (fun i u hi hu => ?_) hzero
  rw [Nat.mod_eq_of_lt (by omega), Nat.mod_eq_of_lt (by omega), hu.kernelLoad hp (hsrc.byte hi), ok_bind,
    copyBytes_succ (by omega)]
  exact hu.kernelStore hp (hd.byte hi) _

end View

/-! ## The rest of the machine -/

/-- Block `f` is behind one of the pages `P`. -/
def FrameOf (P : Nat → Prop) (vm : Vm) (f : Nat) : Prop := ∃ n, P n ∧ f = kframe vm n

/-- A step from `vm` to `vm'` in which the heap had the pages `P` and has `P'`: the other pages and blocks are as before,
what the heap has got was free, and what it has no more is free. -/
structure Spares (vm : Vm) (P : Nat → Prop) (vm' : Vm) (P' : Nat → Prop) : Prop where
  users : ∀ b, vm'.dirs (.user b) = vm.dirs (.user b)
  nextDir : vm'.nextDir = vm.nextDir
  size : vm'.pmm.size = vm.pmm.size
  entry : ∀ n, ¬ P n → ¬ P' n → vm'.entry .kernel n = vm.entry .kernel n
  frame : ∀ f, ¬ FrameOf P vm f → ¬ FrameOf P' vm' f →
    vm'.pmm.used f = vm.pmm.used f ∧ (vm.pmm.used f = true → vm'.frames f = vm.frames f)
  taken : ∀ n, P' n → P n ∨ vm.entry .kernel n = 0#32
  taken_frame : ∀ n, P' n → FrameOf P vm (kframe vm' n) ∨ vm.pmm.used (kframe vm' n) = false
  given : ∀ n, P n → ¬ P' n → vm'.entry .kernel n = 0#32
  given_frame : ∀ n, P n → ¬ FrameOf P' vm' (kframe vm n) → vm'.pmm.used (kframe vm n) = false

section Rest

variable {P P' P'' : Nat → Prop} {vm vm' vm'' : Vm}

theorem Spares.refl (vm : Vm) (P : Nat → Prop) : Spares vm P vm P :=
  ⟨fun _ => rfl, rfl, rfl, fun _ _ _ => rfl, fun _ _ _ => ⟨rfl, fun _ => rfl⟩, fun _ hn => Or.inl hn,
    fun n hn => Or.inl ⟨n, hn, rfl⟩, fun _ hn hn' => absurd hn hn', fun n hn hn' => absurd ⟨n, hn, rfl⟩ hn'⟩

/-- **One step after the other.** -/
theorem Spares.trans (h1 : Spares vm P vm' P') (h2 : Spares vm' P' vm'' P'') : Spares vm P vm'' P'' := by
  -- a block that the heap has got in the first step was free
  have hgot : ∀ f, ¬ FrameOf P vm f → FrameOf P' vm' f → vm.pmm.used f = false := by
    rintro f hf ⟨n, hn, rfl⟩
    exact (h1.taken_frame n hn).resolve_left hf
  refine ⟨fun b => (h2.users b).trans (h1.users b), h2.nextDir.trans h1.nextDir, h2.size.trans h1.size,
    fun n hn hn'' => ?_, fun f hf hf'' => ?_, fun n hn'' => ?_, fun n hn'' => ?_, fun n hn hn'' => ?_,
    fun n hn hf'' => ?_⟩
  · by_cases hn' : P' n
    · rw [h2.given n hn' hn'', (h1.taken n hn').resolve_left hn]
    · rw [h2.entry n hn' hn'', h1.entry n hn hn']
  · by_cases hf' : FrameOf P' vm' f
    · have hfree := hgot f hf hf'
      obtain ⟨n, hn, rfl⟩ := hf'
      rw [h2.given_frame n hn hf'', hfree]
      exact ⟨rfl, fun hu => by cases hu⟩
    · obtain ⟨hu, hb⟩ := h1.frame f hf hf'
      obtain ⟨hu', hb'⟩ := h2.frame f hf' hf''
      exact ⟨hu'.trans hu, fun ht => (hb' (hu.trans ht)).trans (hb ht)⟩
  · rcases h2.taken n hn'' with hn' | hz
    · exact h1.taken n hn'
    · by_cases hn : P n
      · exact Or.inl hn
      · by_cases hn' : P' n
        · exact h1.taken n hn'
        · exact Or.inr ((h1.entry n hn hn').symm.trans hz)
  · by_cases hf : FrameOf P vm (kframe vm'' n)
    · exact Or.inl hf
    · refine Or.inr ?_
      by_cases hf' : FrameOf P' vm' (kframe vm'' n)
      · exact hgot _ hf hf'
      · rw [← (h1.frame _ hf hf').1]
        exact (h2.taken_frame n hn'').resolve_left hf'
  · by_cases hn' : P' n
    · exact h2.given n hn' hn''
    · rw [h2.entry n hn' hn'', h1.given n hn hn']
  · by_cases hf' : FrameOf P' vm' (kframe vm n)
    · obtain ⟨k, hk, he⟩ := hf'
      rw [he] at hf'' ⊢
      exact h2.given_frame k hk hf''
    · rw [(h2.frame _ hf' hf'').1]
      exact h1.given_frame n hn hf'

end Rest

end Myunix.Liballoc
