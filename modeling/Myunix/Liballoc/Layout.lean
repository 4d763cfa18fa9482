import Myunix.Lib.Arena
import Myunix.Lib.DoublyLinked
import Myunix.Lib.Memory

/-!
# What lies in the pages of the heap

A `Minor` is a block that was handed out, with the header before it, and a `Major` some pages with the minors that are
packed in them. `MajorAt m M` says that the memory `m` holds the header of `M` and those of its minors, with the list
that links them, and `HeapAt m Ms` that it holds the majors `Ms` with theirs.

* `Chain.insert` and `Chain.remove` are the two lists, as the code changes them.
* `MajorAt.insert` and `MajorAt.remove`: a minor is written into a gap (`Carved`), a minor is unlinked (`Dropped`);
  `MajorAt.resize`: a minor has another size that was asked for.
* `HeapAt.update`, `HeapAt.append` and `HeapAt.remove`: what becomes of the majors.
-/

namespace Myunix.Liballoc

open Lib

/-! ## Lists in memory -/

/-- The pointer at `a`. -/
def linkAt (m : Memory) (a : Nat) : Option Nat := if wordAt m a = 0 then none else some (wordAt m a)

/-- A pointer as a number; `NULL` is 0. -/
def ptrOf (o : Option Nat) : Nat := o.getD 0

/-- The headers at `l` are linked: the first word of each is `prev`, the second one `next`. -/
def Chain (m : Memory) (l : List Nat) : Prop := DLinked (fun a => linkAt m (a + 4)) (linkAt m) none l

section Chain

variable {m m' : Memory} {a c : Nat} {o : Option Nat} {l l₁ l₂ : List Nat}

theorem linkAt_of_wordAt (h : wordAt m a = ptrOf o) (h0 : o ≠ some 0) : linkAt m a = o := by
  cases o with
  | none => exact if_pos h
  | some b =>
    have hb : wordAt m a ≠ 0 := fun hz => h0 (by rw [← hz, h]; rfl)
    rw [linkAt, if_neg hb, h]
    rfl

theorem wordAt_of_linkAt (h : linkAt m a = o) : wordAt m a = ptrOf o := by
  subst h
  unfold linkAt
  split
  · assumption
  · rfl

theorem linkAt_congr (h : wordAt m' a = wordAt m c) : linkAt m' a = linkAt m c := by
  unfold linkAt
  rw [h]

theorem Chain.congr (h : Chain m l) (hw : ∀ c ∈ l, wordAt m' c = wordAt m c ∧ wordAt m' (c + 4) = wordAt m (c + 4)) :
    Chain m' l :=
  DLinked.congr (fun c hc => linkAt_congr (hw c hc).2) (fun c hc => linkAt_congr (hw c hc).1) h

/-- The links of the element between `l₁` and `l₂`. -/
theorem Chain.at (h : Chain m (l₁ ++ a :: l₂)) :
    wordAt m a = ptrOf l₁.getLast? ∧ wordAt m (a + 4) = ptrOf l₂.head? := by
  obtain ⟨hprev, hnext⟩ := DLinked.at l₁ h
  rw [Option.or_none] at hprev
  exact ⟨wordAt_of_linkAt hprev, wordAt_of_linkAt hnext⟩

/-- **An element joins**: the stores that link it between its neighbours. -/
theorem Chain.insert (h : Chain m (l₁ ++ l₂)) (hd : (l₁ ++ l₂).Nodup) (h0 : ∀ c ∈ l₁ ++ l₂, c ≠ 0) (ha0 : a ≠ 0)
    (hprev : wordAt m' a = ptrOf l₁.getLast?) (hnext : wordAt m' (a + 4) = ptrOf l₂.head?)
    (hafter : ∀ c, l₁.getLast? = some c → wordAt m' (c + 4) = a)
    (hbefore : ∀ c, l₂.head? = some c → wordAt m' c = a)
    (hnexts : ∀ c ∈ l₁ ++ l₂, l₁.getLast? ≠ some c → wordAt m' (c + 4) = wordAt m (c + 4))
    (hprevs : ∀ c ∈ l₁ ++ l₂, l₂.head? ≠ some c → wordAt m' c = wordAt m c) : Chain m' (l₁ ++ a :: l₂) := by
  refine DLinked.insert h hd (linkAt_of_wordAt hnext fun he => ?_) ?_ (fun c hc => ?_) fun c hc => ?_
  · exact h0 0 (List.mem_append_right _ (List.mem_of_head? he)) rfl
  · rw [Option.or_none]
    exact linkAt_of_wordAt hprev fun he => h0 0 (List.mem_append_left _ (List.mem_of_getLast? he)) rfl
  · split
    · rename_i hlast
      exact linkAt_of_wordAt (hafter c hlast) fun he => ha0 (Option.some.inj he)
    · rename_i hlast
      exact linkAt_congr (hnexts c hc hlast)
  · split
    · rename_i hhead
      exact linkAt_of_wordAt (hbefore c hhead) fun he => ha0 (Option.some.inj he)
    · rename_i hhead
      exact linkAt_congr (hprevs c hc hhead)

/-- **An element leaves**: the stores that link its neighbours to each other. -/
theorem Chain.remove (h : Chain m (l₁ ++ a :: l₂)) (hd : (l₁ ++ a :: l₂).Nodup)
    (hafter : ∀ c, l₁.getLast? = some c → wordAt m' (c + 4) = ptrOf l₂.head?)
    (hbefore : ∀ c, l₂.head? = some c → wordAt m' c = ptrOf l₁.getLast?) (h0 : ∀ c ∈ l₁ ++ l₂, c ≠ 0)
    (hnexts : ∀ c ∈ l₁ ++ l₂, l₁.getLast? ≠ some c → wordAt m' (c + 4) = wordAt m (c + 4))
    (hprevs : ∀ c ∈ l₁ ++ l₂, l₂.head? ≠ some c → wordAt m' c = wordAt m c) : Chain m' (l₁ ++ l₂) := by
  obtain ⟨hpa, hna⟩ := DLinked.at l₁ h
  rw [Option.or_none] at hpa
  refine DLinked.remove h hd (fun c _ => by simp) (fun c hc => ?_) fun c hc => ?_
  · rw [hpa]
    split
    · rename_i hlast
      rw [hna]
      exact linkAt_of_wordAt (hafter c hlast) fun he =>
        h0 0 (List.mem_append_right _ (List.mem_of_head? he)) rfl
    · rename_i hlast
      exact linkAt_congr (hnexts c hc hlast)
  · rw [hna]
    split
    · rename_i hhead
      rw [hpa]
      exact linkAt_of_wordAt (hbefore c hhead) fun he =>
        h0 0 (List.mem_append_left _ (List.mem_of_getLast? he)) rfl
    · rename_i hhead
      exact linkAt_congr (hprevs c hc hhead)

end Chain

/-! ## Minors and majors -/

/-- A block that was handed out: its header is at `addr`, it has `size` bytes, and `reqSize` of them were asked for. -/
structure Minor where
  addr : Nat
  size : Nat
  reqSize : Nat
  room : reqSize + 32 ≤ size

/-- Where the block ends. -/
def Minor.stop (x : Minor) : Nat := x.addr + 24 + x.size

/-- The pointer that was handed out. -/
def Minor.ptr (x : Minor) : Nat := (x.addr + 55) / 16 * 16

/-- Some pages in a row, with the minors that are packed behind the header. -/
structure Major where
  addr : Nat
  pages : Nat
  minors : List Minor
  nonzero : addr ≠ 0
  aligned : addr % 4096 = 0
  below : addr + pages * 4096 ≤ 0x100000000
  packed : Packed Minor.addr Minor.stop (addr + 24) minors (addr + pages * 4096)

/-- Where the pages end. -/
def Major.stop (M : Major) : Nat := M.addr + M.pages * 4096

/-- The bytes in use: the header, and the minors with theirs. -/
def Major.used (M : Major) : Nat := 24 + occupied Minor.addr Minor.stop M.minors

/-- The addresses of the minors. -/
def Major.addrs (M : Major) : List Nat := M.minors.map Minor.addr

/-- A minor in a gap of the block. -/
def Major.insert (M : Major) (l₁ l₂ : List Minor) (x : Minor) (hM : M.minors = l₁ ++ l₂)
    (h1 : endOf Minor.stop (M.addr + 24) l₁ ≤ x.addr) (h2 : x.stop ≤ startOf Minor.addr M.stop l₂) : Major :=
  { M with
    minors := l₁ ++ x :: l₂
    packed := packed_insert (hM ▸ M.packed) h1 (by unfold Minor.stop; omega) h2 }

/-- The block without one of its minors. -/
def Major.remove (M : Major) (l₁ l₂ : List Minor) (x : Minor) (hM : M.minors = l₁ ++ x :: l₂) : Major :=
  { M with
    minors := l₁ ++ l₂
    packed := packed_remove (e := x) (hM ▸ M.packed) }

/-- The block when less was asked for. -/
def Minor.resize (x : Minor) (n : Nat) (hn : n ≤ x.reqSize) : Minor :=
  { x with
    reqSize := n
    room := Nat.le_trans (Nat.add_le_add_right hn 32) x.room }

/-- The block with another size asked for one of its minors. -/
def Major.resize (M : Major) (l₁ l₂ : List Minor) (x : Minor) (n : Nat) (hM : M.minors = l₁ ++ x :: l₂)
    (hn : n ≤ x.reqSize) : Major :=
  { M with
    minors := l₁ ++ x.resize n hn :: l₂
    packed := by
      have h : Packed Minor.addr Minor.stop (M.addr + 24) (l₁ ++ x :: l₂) M.stop := hM ▸ M.packed
      obtain ⟨h1, h2⟩ := packed_append.1 h
      exact packed_append.2 ⟨h1, h2⟩ }

/-- The memory holds the header of a minor of `maj`, and the distance to its pointer. -/
structure MinorAt (m : Memory) (maj : Nat) (x : Minor) : Prop where
  block : wordAt m (x.addr + 8) = maj
  magic : wordAt m (x.addr + 12) = 0xC001C0DE
  size : wordAt m (x.addr + 16) = x.size
  reqSize : wordAt m (x.addr + 20) = x.reqSize
  info : (m (x.ptr - 16)).toNat = x.ptr - (x.addr + 24)

/-- The memory holds the header of a major, and its list of minors. -/
structure MajorAt (m : Memory) (M : Major) : Prop where
  pages : wordAt m (M.addr + 8) = M.pages
  size : wordAt m (M.addr + 12) = M.pages * 4096
  usage : wordAt m (M.addr + 16) = M.used
  first : wordAt m (M.addr + 20) = ptrOf M.addrs.head?
  minors : ∀ x ∈ M.minors, MinorAt m M.addr x
  chain : Chain m M.addrs

/-- Byte `a` belongs to a header of the block, the links of the block itself apart. -/
def Major.Header (M : Major) (a : Nat) : Prop :=
  (M.addr + 8 ≤ a ∧ a < M.addr + 24) ∨ ∃ x ∈ M.minors, (x.addr ≤ a ∧ a < x.addr + 24) ∨ a = x.ptr - 16

section Major

variable {m m' : Memory} {M : Major} {x y : Minor} {l₁ l₂ : List Minor} {a : Nat}

theorem Minor.ptr_spec (x : Minor) : x.addr + 40 ≤ x.ptr ∧ x.ptr ≤ x.addr + 55 ∧ x.ptr % 16 = 0 := by
  unfold Minor.ptr
  omega

/-- What was asked for lies in the block. -/
theorem Minor.ptr_stop (x : Minor) : x.ptr + x.reqSize < x.stop := by
  have h := x.ptr_spec
  have hroom := x.room
  unfold Minor.stop
  omega

theorem Major.addr_lt_stop (M : Major) : M.addr + 24 ≤ M.stop := M.packed.le

theorem Major.mem (hx : x ∈ M.minors) : M.addr + 24 ≤ x.addr ∧ x.stop ≤ M.stop :=
  ⟨(M.packed.mem hx).1, (M.packed.mem hx).2.2⟩

theorem Major.apart (hx : x ∈ M.minors) (hy : y ∈ M.minors) : x = y ∨ x.stop ≤ y.addr ∨ y.stop ≤ x.addr :=
  M.packed.apart hx hy

theorem mem_addrs : a ∈ M.addrs ↔ ∃ x ∈ M.minors, x.addr = a := List.mem_map

theorem Major.addrs_nodup (M : Major) : M.addrs.Nodup := by
  refine List.pairwise_map.2 (M.packed.pairwise.imp ?_)
  intro x y hxy
  unfold Minor.stop at hxy
  omega

theorem Major.addrs_ne_zero (ha : a ∈ M.addrs) : a ≠ 0 := by
  obtain ⟨x, hx, rfl⟩ := mem_addrs.1 ha
  have := Major.mem hx
  omega

theorem Major.used_le (M : Major) : M.used ≤ M.pages * 4096 := by
  have hpacked : Packed Minor.addr Minor.stop (M.addr + 24) ([] ++ M.minors) M.stop := M.packed
  have h := hpacked.occupied_le
  rw [List.nil_append] at h
  have hstop : M.stop = M.addr + M.pages * 4096 := rfl
  unfold Major.used
  omega

/-- There are fewer minors than addresses. -/
theorem Major.length_lt (M : Major) : M.minors.length + 1 < 0x100000000 := by
  have h : M.minors.length * 56 ≤ occupied Minor.addr Minor.stop M.minors := by
    refine length_le_occupied fun x _ => ?_
    have hroom := x.room
    unfold Minor.stop
    omega
  have hused := M.used_le
  have hbelow := M.below
  unfold Major.used at hused
  omega

/-- A header byte lies in the block. -/
theorem Major.Header.bounds (h : M.Header a) : M.addr + 8 ≤ a ∧ a < M.stop := by
  have := M.addr_lt_stop
  rcases h with h | ⟨x, hx, h⟩
  · omega
  · have hm := Major.mem hx
    have hp := x.ptr_spec
    have hs := x.ptr_stop
    unfold Minor.stop at hm hs
    omega

theorem MinorAt.congr (h : MinorAt m a x) (hw : ∀ c, x.addr + 8 ≤ c → c < x.addr + 24 → m' c = m c)
    (hi : m' (x.ptr - 16) = m (x.ptr - 16)) : MinorAt m' a x := by
  refine ⟨?_, ?_, ?_, ?_, by rw [hi]; exact h.info⟩
  · rw [wordAt_congr fun c h1 h2 => hw c (by omega) (by omega)]
    exact h.block
  · rw [wordAt_congr fun c h1 h2 => hw c (by omega) (by omega)]
    exact h.magic
  · rw [wordAt_congr fun c h1 h2 => hw c (by omega) (by omega)]
    exact h.size
  · rw [wordAt_congr fun c h1 h2 => hw c (by omega) (by omega)]
    exact h.reqSize

/-- Only the headers matter. -/
theorem MajorAt.congr (h : MajorAt m M) (hm : ∀ a, M.Header a → m' a = m a) : MajorAt m' M := by
  have hhead : ∀ c, M.addr + 8 ≤ c → c + 4 ≤ M.addr + 24 → wordAt m' c = wordAt m c :=
    fun c h1 h2 => wordAt_congr fun a ha ha' => hm a (Or.inl ⟨by omega, by omega⟩)
  refine ⟨?_, ?_, ?_, ?_, fun x hx => ?_, h.chain.congr fun c hc => ?_⟩
  · rw [hhead _ (by omega) (by omega)]
    exact h.pages
  · rw [hhead _ (by omega) (by omega)]
    exact h.size
  · rw [hhead _ (by omega) (by omega)]
    exact h.usage
  · rw [hhead _ (by omega) (by omega)]
    exact h.first
  · exact (h.minors x hx).congr (fun c h1 h2 => hm c (Or.inr ⟨x, hx, Or.inl ⟨by omega, h2⟩⟩))
      (hm _ (Or.inr ⟨x, hx, Or.inr rfl⟩))
  · obtain ⟨x, hx, rfl⟩ := mem_addrs.1 hc
    exact ⟨wordAt_congr fun a h1 h2 => hm a (Or.inr ⟨x, hx, Or.inl ⟨h1, by omega⟩⟩),
      wordAt_congr fun a h1 h2 => hm a (Or.inr ⟨x, hx, Or.inl ⟨by omega, by omega⟩⟩)⟩

end Major

/-! ## A minor comes, a minor goes -/

/-- What every case of `kmalloc` stores for the minor `x` of `maj` between the minors at `prev` and `next`, each of
which may be `NULL`. -/
structure Carved (m m' : Memory) (maj prev next : Nat) (x : Minor) : Prop where
  minor : MinorAt m' maj x
  prevLink : wordAt m' x.addr = prev
  nextLink : wordAt m' (x.addr + 4) = next
  usage : wordAt m' (maj + 16) = wordAt m (maj + 16) + (24 + x.size)
  first : wordAt m' (maj + 20) = if prev = 0 then x.addr else wordAt m (maj + 20)
  after : prev ≠ 0 → wordAt m' (prev + 4) = x.addr
  before : next ≠ 0 → wordAt m' next = x.addr
  others : ∀ a, ¬ (maj + 16 ≤ a ∧ a < maj + 24) → (prev ≠ 0 → ¬ (prev + 4 ≤ a ∧ a < prev + 8)) →
    (next ≠ 0 → ¬ (next ≤ a ∧ a < next + 4)) → ¬ (x.addr ≤ a ∧ a < x.addr + 40) → m' a = m a

/-- What `kfree` stores: the minors at `prev` and `next` are linked to each other, and the bytes of the minor `x` are
those of nobody. -/
structure Dropped (m m' : Memory) (maj prev next : Nat) (x : Minor) : Prop where
  usage : wordAt m' (maj + 16) + (24 + x.size) = wordAt m (maj + 16)
  first : wordAt m' (maj + 20) = if prev = 0 then next else wordAt m (maj + 20)
  after : prev ≠ 0 → wordAt m' (prev + 4) = next
  before : next ≠ 0 → wordAt m' next = prev
  others : ∀ a, ¬ (maj + 16 ≤ a ∧ a < maj + 24) → (prev ≠ 0 → ¬ (prev + 4 ≤ a ∧ a < prev + 8)) →
    (next ≠ 0 → ¬ (next ≤ a ∧ a < next + 4)) → ¬ (x.addr ≤ a ∧ a < x.stop) → m' a = m a

/-- The pointer to the last one of some minors. -/
def lastPtr (l : List Minor) : Nat := ptrOf (l.map Minor.addr).getLast?

/-- The pointer to the first one of some minors. -/
def headPtr (l : List Minor) : Nat := ptrOf (l.map Minor.addr).head?

section Carve

variable {m m' : Memory} {M : Major} {x y : Minor} {l l₁ l₂ : List Minor} {a : Nat}

@[simp] theorem lastPtr_nil : lastPtr [] = 0 := rfl

@[simp] theorem lastPtr_concat : lastPtr (l ++ [y]) = y.addr := by
  simp [lastPtr, ptrOf]

@[simp] theorem headPtr_nil : headPtr [] = 0 := rfl

@[simp] theorem headPtr_cons : headPtr (y :: l) = y.addr := rfl

/-- A pointer to the last minor is that of a minor. -/
theorem lastPtr_cases (l : List Minor) : lastPtr l = 0 ∧ l = [] ∨ ∃ l' y, l = l' ++ [y] ∧ lastPtr l = y.addr := by
  rcases List.eq_nil_or_concat l with rfl | ⟨l', y, rfl⟩
  · exact Or.inl ⟨rfl, rfl⟩
  · rw [List.concat_eq_append]
    exact Or.inr ⟨l', y, rfl, lastPtr_concat⟩

theorem headPtr_cases (l : List Minor) : headPtr l = 0 ∧ l = [] ∨ ∃ y l', l = y :: l' ∧ headPtr l = y.addr := by
  cases l with
  | nil => exact Or.inl ⟨rfl, rfl⟩
  | cons y l => exact Or.inr ⟨y, l, rfl, rfl⟩

theorem last_eq_some (ha : a ≠ 0) : (l.map Minor.addr).getLast? = some a ↔ lastPtr l = a := by
  rcases lastPtr_cases l with ⟨h0, rfl⟩ | ⟨l', y, rfl, hy⟩
  · rw [h0]
    exact ⟨fun h => by simp at h, fun h => absurd h.symm ha⟩
  · rw [hy]
    simp

theorem head_eq_some (ha : a ≠ 0) : (l.map Minor.addr).head? = some a ↔ headPtr l = a := by
  cases l with
  | nil => exact ⟨fun h => by simp at h, fun h => absurd h.symm ha⟩
  | cons y l => simp

/-- Stores to the usage and the first pointer of a block, to the link behind `l₁` and the one before `l₂`, and to a
range of bytes that no other minor reaches into. -/
structure Edits (m m' : Memory) (M : Major) (l₁ l₂ : List Minor) (lo hi : Nat) : Prop where
  low : M.addr + 24 ≤ lo
  last : ∀ y ∈ l₁, y ∈ M.minors ∧ y.stop ≤ lo
  head : ∀ y ∈ l₂, y ∈ M.minors ∧ hi ≤ y.addr
  others : ∀ a, ¬ (M.addr + 16 ≤ a ∧ a < M.addr + 24) →
    (lastPtr l₁ ≠ 0 → ¬ (lastPtr l₁ + 4 ≤ a ∧ a < lastPtr l₁ + 8)) →
    (headPtr l₂ ≠ 0 → ¬ (headPtr l₂ ≤ a ∧ a < headPtr l₂ + 4)) → ¬ (lo ≤ a ∧ a < hi) → m' a = m a

/-- The bytes of the minors that stay. -/
theorem Edits.minor {lo hi : Nat} (h : Edits m m' M l₁ l₂ lo hi) (hy : y ∈ l₁ ++ l₂)
    (ha : y.addr ≤ a ∧ a < y.stop) (hlast : lastPtr l₁ = y.addr → ¬ (y.addr + 4 ≤ a ∧ a < y.addr + 8))
    (hhead : headPtr l₂ = y.addr → ¬ (y.addr ≤ a ∧ a < y.addr + 4)) : m' a = m a := by
  have hyM : y ∈ M.minors ∧ (y.stop ≤ lo ∨ hi ≤ y.addr) := by
    rcases List.mem_append.1 hy with hy | hy
    · exact ⟨(h.last y hy).1, Or.inl (h.last y hy).2⟩
    · exact ⟨(h.head y hy).1, Or.inr (h.head y hy).2⟩
  have hmem := Major.mem hyM.1
  -- another minor is somewhere else
  have hother : ∀ z ∈ M.minors, z.addr ≠ y.addr → ¬ (z.addr ≤ a ∧ a < z.addr + 24) := by
    intro z hz hne
    have hstop : z.addr + 24 ≤ z.stop := by unfold Minor.stop; omega
    rcases Major.apart hyM.1 hz with rfl | hap
    · exact absurd rfl hne
    · omega
  apply h.others
  · omega
  · rcases lastPtr_cases l₁ with ⟨h0, -⟩ | ⟨l, z, rfl, hz⟩
    · exact fun hne => absurd h0 hne
    · intro _
      rw [hz] at hlast ⊢
      have hzM := (h.last z (by simp)).1
      by_cases he : z.addr = y.addr
      · have := hlast he
        omega
      · have := hother z hzM he
        omega
  · rcases headPtr_cases l₂ with ⟨h0, -⟩ | ⟨z, l, rfl, hz⟩
    · exact fun hne => absurd h0 hne
    · intro _
      rw [hz] at hhead ⊢
      have hzM := (h.head z (by simp)).1
      by_cases he : z.addr = y.addr
      · have := hhead he
        omega
      · have := hother z hzM he
        omega
  · omega

/-- The header of the block, up to its usage. -/
theorem Edits.fields {lo hi : Nat} (h : Edits m m' M l₁ l₂ lo hi) (a : Nat) (ha : a + 4 ≤ M.addr + 16) :
    wordAt m' a = wordAt m a := by
  have hlow := h.low
  refine wordAt_congr fun c hc hc' => h.others c (by omega) ?_ ?_ (by omega)
  · rcases lastPtr_cases l₁ with ⟨h0, -⟩ | ⟨l, z, rfl, hz⟩
    · exact fun hne => absurd h0 hne
    · have hzM := Major.mem (h.last z (by simp)).1
      omega
  · rcases headPtr_cases l₂ with ⟨h0, -⟩ | ⟨z, l, rfl, hz⟩
    · exact fun hne => absurd h0 hne
    · have hzM := Major.mem (h.head z (by simp)).1
      omega

/-- A minor that stays keeps its header. -/
theorem Edits.minorAt {lo hi : Nat} (h : Edits m m' M l₁ l₂ lo hi) (hy : y ∈ l₁ ++ l₂) (hm : MinorAt m M.addr y) :
    MinorAt m' M.addr y := by
  have hp := y.ptr_spec
  have hs := y.ptr_stop
  have hstop : y.addr + 24 ≤ y.stop := by unfold Minor.stop; omega
  exact hm.congr (fun c h1 h2 => h.minor hy (by omega) (fun _ => by omega) fun _ => by omega)
    (h.minor hy (by omega) (fun _ => by omega) fun _ => by omega)

/-- The links that stay. -/
theorem Edits.links {lo hi : Nat} (h : Edits m m' M l₁ l₂ lo hi) {c : Nat} (hc : c ∈ (l₁ ++ l₂).map Minor.addr)
    (hc0 : c ≠ 0) :
    ((l₁.map Minor.addr).getLast? ≠ some c → wordAt m' (c + 4) = wordAt m (c + 4)) ∧
      ((l₂.map Minor.addr).head? ≠ some c → wordAt m' c = wordAt m c) := by
  obtain ⟨y, hy, rfl⟩ := List.mem_map.1 hc
  have hstop : y.addr + 24 ≤ y.stop := by unfold Minor.stop; omega
  refine ⟨fun hl => wordAt_congr fun a h1 h2 => ?_, fun hl => wordAt_congr fun a h1 h2 => ?_⟩
  · rw [Ne, last_eq_some hc0] at hl
    exact h.minor hy (by omega) (fun he => absurd he hl) fun _ => by omega
  · rw [Ne, head_eq_some hc0] at hl
    exact h.minor hy (by omega) (fun _ => by omega) fun he => absurd he hl

/-- Outside of the block, nothing is written. -/
theorem Edits.outside {lo hi : Nat} (h : Edits m m' M l₁ l₂ lo hi) (hhi : hi ≤ M.stop)
    (ha : ¬ (M.addr + 8 ≤ a ∧ a < M.stop)) : m' a = m a := by
  have hlow := h.low
  have hMstop := M.addr_lt_stop
  refine h.others a (by omega) ?_ ?_ (by omega)
  · rcases lastPtr_cases l₁ with ⟨h0, -⟩ | ⟨l, z, rfl, hz⟩
    · exact fun hne => absurd h0 hne
    · have hzM := Major.mem (h.last z (by simp)).1
      have hzstop : z.stop = z.addr + 24 + z.size := rfl
      omega
  · rcases headPtr_cases l₂ with ⟨h0, -⟩ | ⟨z, l, rfl, hz⟩
    · exact fun hne => absurd h0 hne
    · have hzM := Major.mem (h.head z (by simp)).1
      have hzstop : z.stop = z.addr + 24 + z.size := rfl
      omega

/-- The bytes of a block that was handed out and stays are not written. -/
theorem Edits.kept {lo hi : Nat} (h : Edits m m' M l₁ l₂ lo hi) (hy : y ∈ l₁ ++ l₂) (h1 : y.addr + 24 ≤ a)
    (h2 : a < y.stop) : m' a = m a :=
  h.minor hy (by omega) (fun _ => by omega) fun _ => by omega

theorem Carved.edits (hM : M.minors = l₁ ++ l₂) (h1 : endOf Minor.stop (M.addr + 24) l₁ ≤ x.addr)
    (h2 : x.stop ≤ startOf Minor.addr M.stop l₂) (hc : Carved m m' M.addr (lastPtr l₁) (headPtr l₂) x) :
    Edits m m' M l₁ l₂ x.addr (x.addr + 40) := by
  have hgap := Packed.gap (hM ▸ M.packed : Packed Minor.addr Minor.stop (M.addr + 24) (l₁ ++ l₂) M.stop)
  have haround := (M.insert l₁ l₂ x hM h1 h2).packed.around
  have hsize : x.addr + 40 ≤ x.stop := by
    have := x.room
    unfold Minor.stop
    omega
  refine ⟨by omega, fun y hy => ⟨by rw [hM]; exact List.mem_append_left _ hy, haround.1 y hy⟩, fun y hy => ⟨?_, ?_⟩,
    hc.others⟩
  · rw [hM]
    exact List.mem_append_right _ hy
  · have := haround.2 y hy
    omega

theorem Dropped.edits (hM : M.minors = l₁ ++ x :: l₂) (hd : Dropped m m' M.addr (lastPtr l₁) (headPtr l₂) x) :
    Edits m m' M l₁ l₂ x.addr x.stop := by
  have haround := (hM ▸ M.packed : Packed Minor.addr Minor.stop (M.addr + 24) (l₁ ++ x :: l₂) M.stop).around
  have hx := Major.mem (x := x) (M := M) (by rw [hM]; simp)
  refine ⟨hx.1, fun y hy => ⟨by rw [hM]; exact List.mem_append_left _ hy, haround.1 y hy⟩, fun y hy => ⟨?_, ?_⟩,
    hd.others⟩
  · rw [hM]
    exact List.mem_append_right _ (List.mem_cons_of_mem _ hy)
  · exact haround.2 y hy

theorem used_insert (hM : M.minors = l₁ ++ l₂) {h1 : endOf Minor.stop (M.addr + 24) l₁ ≤ x.addr}
    {h2 : x.stop ≤ startOf Minor.addr M.stop l₂} : (M.insert l₁ l₂ x hM h1 h2).used = M.used + (24 + x.size) := by
  show 24 + occupied Minor.addr Minor.stop (l₁ ++ x :: l₂) = 24 + occupied Minor.addr Minor.stop M.minors + _
  rw [hM, occupied_insert]
  unfold Minor.stop
  omega

theorem used_remove (hM : M.minors = l₁ ++ x :: l₂) : (M.remove l₁ l₂ x hM).used + (24 + x.size) = M.used := by
  show 24 + occupied Minor.addr Minor.stop (l₁ ++ l₂) + _ = 24 + occupied Minor.addr Minor.stop M.minors
  rw [hM, occupied_insert]
  unfold Minor.stop
  omega

theorem head_append_ne (h : l₁ ≠ []) : ((l₁ ++ l).map Minor.addr).head? = ((l₁ ++ l₂).map Minor.addr).head? := by
  cases l₁ with
  | nil => exact absurd rfl h
  | cons y l₁ => rfl

/-- **The header of the block after `kmalloc`.** -/
theorem MajorAt.insert (h : MajorAt m M) (hM : M.minors = l₁ ++ l₂)
    (h1 : endOf Minor.stop (M.addr + 24) l₁ ≤ x.addr) (h2 : x.stop ≤ startOf Minor.addr M.stop l₂)
    (hc : Carved m m' M.addr (lastPtr l₁) (headPtr l₂) x) : MajorAt m' (M.insert l₁ l₂ x hM h1 h2) := by
  have hgap := Packed.gap (hM ▸ M.packed : Packed Minor.addr Minor.stop (M.addr + 24) (l₁ ++ l₂) M.stop)
  have he := hc.edits hM h1 h2
  have hzero : ∀ c ∈ (l₁ ++ l₂).map Minor.addr, c ≠ 0 := by
    rw [← hM]
    exact fun c hc => Major.addrs_ne_zero hc
  refine ⟨(he.fields (M.addr + 8) (by omega)).trans h.pages, (he.fields (M.addr + 12) (by omega)).trans h.size,
    ?_, ?_, fun y hy => ?_, ?_⟩
  · rw [used_insert hM, ← h.usage]
    exact hc.usage
  · show wordAt m' (M.addr + 20) = ptrOf ((l₁ ++ x :: l₂).map Minor.addr).head?
    rw [hc.first]
    rcases lastPtr_cases l₁ with ⟨h0, rfl⟩ | ⟨l, z, rfl, hz⟩
    · rw [if_pos h0]
      rfl
    · have hzM := Major.mem (he.last z (by simp)).1
      rw [if_neg (by omega), h.first, Major.addrs, hM, head_append_ne (by simp)]
  · have hy' : y = x ∨ y ∈ l₁ ++ l₂ := by
      have hy : y ∈ l₁ ++ x :: l₂ := hy
      simp only [List.mem_append, List.mem_cons] at hy ⊢
      tauto
    rcases hy' with rfl | hy'
    · exact hc.minor
    · exact he.minorAt hy' (h.minors y (hM ▸ hy'))
  · have hchain : Chain m (l₁.map Minor.addr ++ l₂.map Minor.addr) := by
      rw [← List.map_append, ← hM]
      exact h.chain
    have hnodup : (l₁.map Minor.addr ++ l₂.map Minor.addr).Nodup := by
      rw [← List.map_append, ← hM]
      exact M.addrs_nodup
    rw [List.map_append] at hzero
    show Chain m' ((l₁ ++ x :: l₂).map Minor.addr)
    rw [List.map_append, List.map_cons]
    refine hchain.insert hnodup hzero (by omega) hc.prevLink hc.nextLink (fun c hl => ?_) (fun c hl => ?_)
      (fun c hm => (he.links (by rwa [List.map_append]) (hzero c hm)).1)
      fun c hm => (he.links (by rwa [List.map_append]) (hzero c hm)).2
    · have hc0 := hzero c (List.mem_append_left _ (List.mem_of_getLast? hl))
      rw [← (last_eq_some hc0).1 hl]
      exact hc.after (by rw [(last_eq_some hc0).1 hl]; exact hc0)
    · have hc0 := hzero c (List.mem_append_right _ (List.mem_of_head? hl))
      rw [← (head_eq_some hc0).1 hl]
      exact hc.before (by rw [(head_eq_some hc0).1 hl]; exact hc0)

/-- **The header of the block after `kfree`.** -/
theorem MajorAt.remove (h : MajorAt m M) (hM : M.minors = l₁ ++ x :: l₂)
    (hd : Dropped m m' M.addr (lastPtr l₁) (headPtr l₂) x) : MajorAt m' (M.remove l₁ l₂ x hM) := by
  have hx := Major.mem (x := x) (M := M) (by rw [hM]; simp)
  have he := hd.edits hM
  have hzero : ∀ c ∈ l₁.map Minor.addr ++ l₂.map Minor.addr, c ≠ 0 := by
    intro c hc
    apply Major.addrs_ne_zero (M := M)
    rw [Major.addrs, hM, List.map_append, List.map_cons]
    simp only [List.mem_append, List.mem_cons] at hc ⊢
    tauto
  refine ⟨(he.fields (M.addr + 8) (by omega)).trans h.pages, (he.fields (M.addr + 12) (by omega)).trans h.size,
    ?_, ?_, fun y hy => ?_, ?_⟩
  · have hused := used_remove hM
    have husage := h.usage
    have hdrop := hd.usage
    show wordAt m' (M.addr + 16) = _
    omega
  · show wordAt m' (M.addr + 20) = ptrOf ((l₁ ++ l₂).map Minor.addr).head?
    rw [hd.first]
    rcases lastPtr_cases l₁ with ⟨h0, rfl⟩ | ⟨l, z, rfl, hz⟩
    · rw [if_pos h0]
      rfl
    · have hzM := Major.mem (he.last z (by simp)).1
      rw [if_neg (by omega), h.first, Major.addrs, hM, head_append_ne (by simp)]
  · have hy : y ∈ l₁ ++ l₂ := hy
    refine he.minorAt hy (h.minors y ?_)
    rw [hM]
    simp only [List.mem_append, List.mem_cons] at hy ⊢
    tauto
  · have hchain : Chain m (l₁.map Minor.addr ++ x.addr :: l₂.map Minor.addr) := by
      rw [← List.map_cons, ← List.map_append, ← hM]
      exact h.chain
    have hnodup : (l₁.map Minor.addr ++ x.addr :: l₂.map Minor.addr).Nodup := by
      rw [← List.map_cons, ← List.map_append, ← hM]
      exact M.addrs_nodup
    show Chain m' ((l₁ ++ l₂).map Minor.addr)
    rw [List.map_append]
    refine hchain.remove hnodup (fun c hl => ?_) (fun c hl => ?_) hzero
      (fun c hm => (he.links (by rwa [List.map_append]) (hzero c hm)).1)
      fun c hm => (he.links (by rwa [List.map_append]) (hzero c hm)).2
    · have hc0 := hzero c (List.mem_append_left _ (List.mem_of_getLast? hl))
      rw [← (last_eq_some hc0).1 hl]
      exact hd.after (by rw [(last_eq_some hc0).1 hl]; exact hc0)
    · have hc0 := hzero c (List.mem_append_right _ (List.mem_of_head? hl))
      rw [← (head_eq_some hc0).1 hl]
      exact hd.before (by rw [(head_eq_some hc0).1 hl]; exact hc0)

/-- **The header of the block after `krealloc`** to a smaller size. -/
theorem MajorAt.resize (h : MajorAt m M) (hM : M.minors = l₁ ++ x :: l₂) {n : Nat} (hn : n ≤ x.reqSize)
    (hsize : wordAt m' (x.addr + 20) = n) (hm : ∀ a, ¬ (x.addr + 20 ≤ a ∧ a < x.addr + 24) → m' a = m a) :
    MajorAt m' (M.resize l₁ l₂ x n hM hn) := by
  have hxM : x ∈ M.minors := by rw [hM]; simp
  have hx := Major.mem hxM
  have hptr := x.ptr_spec
  have hstop := x.ptr_stop
  have haddrs : (M.resize l₁ l₂ x n hM hn).addrs = M.addrs := by
    show (l₁ ++ x.resize n hn :: l₂).map Minor.addr = M.minors.map Minor.addr
    rw [hM, List.map_append, List.map_append, List.map_cons, List.map_cons]
    rfl
  have hused : (M.resize l₁ l₂ x n hM hn).used = M.used := by
    show 24 + occupied Minor.addr Minor.stop (l₁ ++ x.resize n hn :: l₂) = 24 + occupied Minor.addr Minor.stop M.minors
    rw [hM, occupied_insert, occupied_insert]
    rfl
  have hword : ∀ c, c + 4 ≤ x.addr + 20 ∨ x.addr + 24 ≤ c → wordAt m' c = wordAt m c :=
    fun c hc => wordAt_congr fun a h1 h2 => hm a (by omega)
  -- the words of the other minors
  have hother : ∀ y ∈ M.minors, y ≠ x → ∀ a, y.addr ≤ a → a < y.stop → m' a = m a := by
    intro y hy hne a h1 h2
    have hap := (Major.apart hy hxM).resolve_left hne
    exact hm a (by omega)
  have hmem : ∀ y ∈ l₁ ++ x.resize n hn :: l₂, y = x.resize n hn ∨ y ∈ M.minors ∧ y ≠ x := by
    have haround := (hM ▸ M.packed : Packed Minor.addr Minor.stop (M.addr + 24) (l₁ ++ x :: l₂) M.stop).around
    have hroom := x.room
    have hxstop : x.stop = x.addr + 24 + x.size := rfl
    intro y hy
    rcases List.mem_append.1 hy with h1 | hy
    · refine Or.inr ⟨by rw [hM]; exact List.mem_append_left _ h1, fun he => ?_⟩
      have := haround.1 x (he ▸ h1)
      omega
    · rcases List.mem_cons.1 hy with h2 | h2
      · exact Or.inl h2
      · refine Or.inr ⟨by rw [hM]; exact List.mem_append_right _ (List.mem_cons_of_mem _ h2), fun he => ?_⟩
        have := haround.2 x (he ▸ h2)
        omega
  refine ⟨(hword (M.addr + 8) (by omega)).trans h.pages, (hword (M.addr + 12) (by omega)).trans h.size, ?_, ?_,
    fun y hy => ?_, ?_⟩
  · rw [hused, ← h.usage]
    exact hword (M.addr + 16) (by omega)
  · rw [haddrs, ← h.first]
    exact hword (M.addr + 20) (by omega)
  · rcases hmem y hy with rfl | ⟨hyM, hne⟩
    · have hxat := h.minors x hxM
      refine ⟨(hword (x.addr + 8) (by omega)).trans hxat.block, (hword (x.addr + 12) (by omega)).trans hxat.magic,
        (hword (x.addr + 16) (by omega)).trans hxat.size, hsize, ?_⟩
      show (m' (x.ptr - 16)).toNat = x.ptr - (x.addr + 24)
      rw [hm _ (by omega)]
      exact hxat.info
    · have hyptr := y.ptr_spec
      have hystop := y.ptr_stop
      have hys : y.stop = y.addr + 24 + y.size := rfl
      exact (h.minors y hyM).congr (fun c h1 h2 => hother y hyM hne c (by omega) (by omega))
        (hother y hyM hne _ (by omega) (by omega))
  · rw [haddrs]
    refine h.chain.congr fun c hc => ?_
    obtain ⟨y, hy, rfl⟩ := mem_addrs.1 hc
    by_cases hne : y = x
    · rw [hne]
      exact ⟨hword _ (by omega), hword _ (by omega)⟩
    · have hys : y.stop = y.addr + 24 + y.size := rfl
      have hroom := y.room
      exact ⟨wordAt_congr fun a h1 h2 => hother y hy hne a (by omega) (by omega),
        wordAt_congr fun a h1 h2 => hother y hy hne a (by omega) (by omega)⟩

end Carve

/-! ## The list of majors -/

/-- The memory holds the majors `Ms`, which have no page in common, and the list that links them. -/
structure HeapAt (m : Memory) (Ms : List Major) : Prop where
  majors : ∀ M ∈ Ms, MajorAt m M
  chain : Chain m (Ms.map Major.addr)
  apart : Ms.Pairwise fun M N => M.stop ≤ N.addr ∨ N.stop ≤ M.addr

section Heap

variable {m m' : Memory} {Ms pre post : List Major} {M M' N : Major} {a : Nat}

theorem HeapAt.nodup (h : HeapAt m Ms) : (Ms.map Major.addr).Nodup := by
  refine List.pairwise_map.2 (h.apart.imp fun {M N} hap => ?_)
  have := M.addr_lt_stop
  have := N.addr_lt_stop
  omega

theorem major_addr_ne_zero (ha : a ∈ Ms.map Major.addr) : a ≠ 0 := by
  obtain ⟨M, -, rfl⟩ := List.mem_map.1 ha
  exact M.nonzero

/-- The other majors are somewhere else. -/
theorem HeapAt.apart_from (h : HeapAt m (pre ++ M :: post)) (hN : N ∈ pre ++ post) :
    M.stop ≤ N.addr ∨ N.stop ≤ M.addr := by
  obtain ⟨-, hpost, hcross⟩ := List.pairwise_append.1 h.apart
  rcases List.mem_append.1 hN with hN | hN
  · have := hcross N hN M List.mem_cons_self
    omega
  · exact (List.pairwise_cons.1 hpost).1 N hN

/-- Two majors are the same or apart. -/
theorem HeapAt.apart_or (h : HeapAt m Ms) (hM : M ∈ Ms) (hN : N ∈ Ms) : M = N ∨ M.stop ≤ N.addr ∨ N.stop ≤ M.addr := by
  by_cases he : M = N
  · exact Or.inl he
  · obtain ⟨s, t, rfl⟩ := List.append_of_mem hM
    refine Or.inr (h.apart_from ?_)
    simp only [List.mem_append, List.mem_cons] at hN ⊢
    tauto

/-- The link to the next major. -/
theorem HeapAt.next_eq (h : HeapAt m (pre ++ M :: post)) :
    wordAt m (M.addr + 4) = ptrOf (post.map Major.addr).head? := by
  have hchain := h.chain
  rw [List.map_append, List.map_cons] at hchain
  exact hchain.at.2

/-- Only the headers matter. -/
theorem HeapAt.congr (h : HeapAt m Ms)
    (hm : ∀ M ∈ Ms, ∀ a, (M.addr ≤ a ∧ a < M.addr + 8) ∨ M.Header a → m' a = m a) : HeapAt m' Ms := by
  refine ⟨fun M hM => (h.majors M hM).congr fun a ha => hm M hM a (Or.inr ha), h.chain.congr fun c hc => ?_, h.apart⟩
  obtain ⟨M, hM, rfl⟩ := List.mem_map.1 hc
  exact ⟨wordAt_congr fun a h1 h2 => hm M hM a (Or.inl (by omega)),
    wordAt_congr fun a h1 h2 => hm M hM a (Or.inl (by omega))⟩

/-- **One major changes.** -/
theorem HeapAt.update (h : HeapAt m (pre ++ M :: post)) (haddr : M'.addr = M.addr) (hpages : M'.pages = M.pages)
    (hM' : MajorAt m' M') (hm : ∀ a, ¬ (M.addr + 8 ≤ a ∧ a < M.stop) → m' a = m a) :
    HeapAt m' (pre ++ M' :: post) := by
  have hstop : M'.stop = M.stop := by unfold Major.stop; rw [haddr, hpages]
  refine ⟨fun N hN => ?_, ?_, ?_⟩
  · have hN' : N = M' ∨ N ∈ pre ++ post := by
      simp only [List.mem_append, List.mem_cons] at hN ⊢
      tauto
    rcases hN' with rfl | hN'
    · exact hM'
    · refine (h.majors N ?_).congr fun a ha => hm a ?_
      · simp only [List.mem_append, List.mem_cons] at hN' ⊢
        tauto
      · have hb := ha.bounds
        have hap := h.apart_from hN'
        omega
  · have hmap : (pre ++ M' :: post).map Major.addr = (pre ++ M :: post).map Major.addr := by
      simp only [List.map_append, List.map_cons, haddr]
    rw [hmap]
    refine h.chain.congr fun c hc => ?_
    obtain ⟨N, hN, rfl⟩ := List.mem_map.1 hc
    have hN' : N = M ∨ N ∈ pre ++ post := by
      simp only [List.mem_append, List.mem_cons] at hN ⊢
      tauto
    have hfar : ∀ a, N.addr ≤ a → a < N.addr + 8 → ¬ (M.addr + 8 ≤ a ∧ a < M.stop) := by
      intro a h1 h2
      rcases hN' with rfl | hN'
      · omega
      · have hap := h.apart_from hN'
        have := N.addr_lt_stop
        omega
    exact ⟨wordAt_congr fun a h1 h2 => hm a (hfar a h1 (by omega)),
      wordAt_congr fun a h1 h2 => hm a (hfar a (by omega) (by omega))⟩
  · have happart := h.apart
    rw [List.pairwise_append, List.pairwise_cons] at happart ⊢
    obtain ⟨hpre, ⟨hM, hpost⟩, hcross⟩ := happart
    refine ⟨hpre, ⟨fun N hN => ?_, hpost⟩, fun N hN L hL => ?_⟩
    · rw [haddr, hstop]
      exact hM N hN
    · rcases List.mem_cons.1 hL with rfl | hL
      · rw [haddr, hstop]
        exact hcross N hN M List.mem_cons_self
      · exact hcross N hN L (List.mem_cons_of_mem _ hL)

/-- **A major joins** at the end. -/
theorem HeapAt.append (h : HeapAt m Ms) (hN : MajorAt m' N) (hap : ∀ M ∈ Ms, M.stop ≤ N.addr ∨ N.stop ≤ M.addr)
    (hprev : wordAt m' N.addr = ptrOf (Ms.map Major.addr).getLast?) (hnext : wordAt m' (N.addr + 4) = 0)
    (hafter : ∀ c, (Ms.map Major.addr).getLast? = some c → wordAt m' (c + 4) = N.addr)
    (hm : ∀ a, ¬ (N.addr ≤ a ∧ a < N.stop) →
      (∀ c, (Ms.map Major.addr).getLast? = some c → ¬ (c + 4 ≤ a ∧ a < c + 8)) → m' a = m a) :
    HeapAt m' (Ms ++ [N]) := by
  -- the bytes of the majors that were there
  have hkept : ∀ M ∈ Ms, ∀ a, M.addr ≤ a → a < M.stop →
      ((Ms.map Major.addr).getLast? = some M.addr → ¬ (M.addr + 4 ≤ a ∧ a < M.addr + 8)) → m' a = m a := by
    intro M hM a h1 h2 hlast
    refine hm a (by have := hap M hM; omega) fun c hc => ?_
    obtain ⟨L, hL, rfl⟩ := List.mem_map.1 (List.mem_of_getLast? hc)
    by_cases he : L = M
    · rw [he] at hc ⊢
      exact hlast hc
    · have hLM := (h.apart_or hL hM).resolve_left he
      have := L.addr_lt_stop
      omega
  refine ⟨fun M hM => ?_, ?_, List.pairwise_append.2 ⟨h.apart, List.pairwise_singleton _ _, fun M hM L hL => ?_⟩⟩
  · rcases List.mem_append.1 hM with hM | hM
    · refine (h.majors M hM).congr fun a ha => ?_
      have hb := ha.bounds
      exact hkept M hM a (by omega) hb.2 fun _ => by omega
    · rw [List.mem_singleton.1 hM]
      exact hN
  · rw [List.map_append, List.map_singleton]
    have hch : Chain m (Ms.map Major.addr ++ []) := by
      rw [List.append_nil]
      exact h.chain
    have hnd : (Ms.map Major.addr ++ []).Nodup := by
      rw [List.append_nil]
      exact h.nodup
    refine hch.insert hnd (fun c hc => major_addr_ne_zero (List.append_nil _ ▸ hc)) N.nonzero hprev hnext hafter
      (fun c hc => by simp at hc) (fun c hc hl => ?_) fun c hc _ => ?_
    · rw [List.append_nil] at hc
      obtain ⟨M, hM, rfl⟩ := List.mem_map.1 hc
      have := M.addr_lt_stop
      exact wordAt_congr fun a h1 h2 => hkept M hM a (by omega) (by omega) fun he => absurd he hl
    · rw [List.append_nil] at hc
      obtain ⟨M, hM, rfl⟩ := List.mem_map.1 hc
      have := M.addr_lt_stop
      exact wordAt_congr fun a h1 h2 => hkept M hM a (by omega) (by omega) fun _ => by omega
  · rw [List.mem_singleton.1 hL]
    exact hap M hM

/-- **A major leaves.** -/
theorem HeapAt.remove (h : HeapAt m (pre ++ M :: post))
    (hafter : ∀ c, (pre.map Major.addr).getLast? = some c → wordAt m' (c + 4) = ptrOf (post.map Major.addr).head?)
    (hbefore : ∀ c, (post.map Major.addr).head? = some c → wordAt m' c = ptrOf (pre.map Major.addr).getLast?)
    (hm : ∀ a, ¬ (M.addr ≤ a ∧ a < M.stop) →
      (∀ c, (pre.map Major.addr).getLast? = some c → ¬ (c + 4 ≤ a ∧ a < c + 8)) →
      (∀ c, (post.map Major.addr).head? = some c → ¬ (c ≤ a ∧ a < c + 4)) → m' a = m a) :
    HeapAt m' (pre ++ post) := by
  have hsub : (pre ++ post).Sublist (pre ++ M :: post) := List.Sublist.append_left (List.sublist_cons_self M post) pre
  have hother : ∀ N ∈ pre ++ post, ∀ L ∈ pre ++ post, N = L ∨ N.stop ≤ L.addr ∨ L.stop ≤ N.addr :=
    fun N hN L hL => h.apart_or (hsub.subset hN) (hsub.subset hL)
  have hkept : ∀ N ∈ pre ++ post, ∀ a, N.addr ≤ a → a < N.stop →
      ((pre.map Major.addr).getLast? = some N.addr → ¬ (N.addr + 4 ≤ a ∧ a < N.addr + 8)) →
      ((post.map Major.addr).head? = some N.addr → ¬ (N.addr ≤ a ∧ a < N.addr + 4)) → m' a = m a := by
    intro N hN a h1 h2 hlast hhead
    refine hm a (by have := h.apart_from hN; omega) (fun c hc => ?_) fun c hc => ?_
    · obtain ⟨L, hL, rfl⟩ := List.mem_map.1 (List.mem_of_getLast? hc)
      have hLs := L.addr_lt_stop
      rcases hother N hN L (List.mem_append_left _ hL) with rfl | hap
      · exact hlast hc
      · omega
    · obtain ⟨L, hL, rfl⟩ := List.mem_map.1 (List.mem_of_head? hc)
      have hLs := L.addr_lt_stop
      rcases hother N hN L (List.mem_append_right _ hL) with rfl | hap
      · exact hhead hc
      · omega
  have hch : Chain m (pre.map Major.addr ++ M.addr :: post.map Major.addr) := by
    rw [← List.map_cons, ← List.map_append]
    exact h.chain
  have hnd : (pre.map Major.addr ++ M.addr :: post.map Major.addr).Nodup := by
    rw [← List.map_cons, ← List.map_append]
    exact h.nodup
  refine ⟨fun N hN => ?_, ?_, h.apart.sublist hsub⟩
  · refine (h.majors N (hsub.subset hN)).congr fun a ha => ?_
    have hb := ha.bounds
    exact hkept N hN a (by omega) hb.2 (fun _ => by omega) fun _ => by omega
  · rw [List.map_append]
    refine hch.remove hnd hafter hbefore (fun c hc => major_addr_ne_zero (List.map_append ▸ hc)) (fun c hc hl => ?_)
      fun c hc hl => ?_
    · obtain ⟨N, hN, rfl⟩ := List.mem_map.1 (List.map_append ▸ hc : c ∈ (pre ++ post).map Major.addr)
      have := N.addr_lt_stop
      exact wordAt_congr fun a h1 h2 => hkept N hN a (by omega) (by omega) (fun he => absurd he hl) fun _ => by omega
    · obtain ⟨N, hN, rfl⟩ := List.mem_map.1 (List.map_append ▸ hc : c ∈ (pre ++ post).map Major.addr)
      have := N.addr_lt_stop
      exact wordAt_congr fun a h1 h2 => hkept N hN a (by omega) (by omega) (fun _ => by omega) fun he => absurd he hl

end Heap

end Myunix.Liballoc
