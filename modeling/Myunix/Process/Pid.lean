import Myunix.CString
import Myunix.Pmm.Blocks

/-!
# Process ids (`process.c`, `bitmap.c`)

`get_pid` counts up: the bitmap of the ids in use is only looked at to assert that the next one is free. An id that a
process gives back is never used again, and after the last one the bitmap is tested outside its size. `get_pid_iff`
says for which runs that does not happen.
-/

namespace Myunix.Process

open Lib

/-! ## Bitmaps -/

/-- `bitmap_t`. -/
structure Bitmap where
  map : Nat → Byte
  size : Nat

/-- `bitmap_new`, if there is memory for it. -/
def bitmapNew (size : Nat) : Kernel Bitmap := do
  kassert (size % 8 = 0)
  return ⟨fun _ => 0#8, size⟩

/-- `bitmap_set`. -/
def bitmapSet (bitmap : Bitmap) (bit : Nat) : Kernel Bitmap := do
  kassert (bit < bitmap.size)
  let byte := bitmap.map (bit / 8) ||| BitVec.twoPow 8 (bit % 8)
  return { bitmap with map := Function.update bitmap.map (bit / 8) byte }

/-- `bitmap_unset`. -/
def bitmapUnset (bitmap : Bitmap) (bit : Nat) : Kernel Bitmap := do
  kassert (bit < bitmap.size)
  let byte := bitmap.map (bit / 8) &&& ~~~ BitVec.twoPow 8 (bit % 8)
  return { bitmap with map := Function.update bitmap.map (bit / 8) byte }

/-- `bitmap_test`. -/
def bitmapTest (bitmap : Bitmap) (bit : Nat) : Kernel Bool := do
  kassert (bit < bitmap.size)
  return bitmap.map (bit / 8) &&& BitVec.twoPow 8 (bit % 8) != 0#8

/-- The bit of a bitmap. -/
def Bitmap.has (bitmap : Bitmap) (bit : Nat) : Bool := (bitmap.map (bit / 8)).getLsbD (bit % 8)

section Bitmap

variable {bitmap : Bitmap} {bit : Nat}

theorem bitmapTest_eq (h : bit < bitmap.size) : bitmapTest bitmap bit = .ok (bitmap.has bit) := by
  have hiff := Pmm.and_twoPow_ne_zero (w := bitmap.map (bit / 8)) (Nat.mod_lt bit (by omega : 0 < 8))
  have htest : (bitmap.map (bit / 8) &&& BitVec.twoPow 8 (bit % 8) != 0#8) = bitmap.has bit := by
    rw [Bool.eq_iff_iff, bne_iff_ne]
    exact hiff
  simp only [bitmapTest, assert_pos h, ok_bind, htest]
  rfl

theorem bit_eq {a b : Nat} : a = b ↔ a / 8 = b / 8 ∧ a % 8 = b % 8 := by omega

/-- `bitmap_set` sets one bit. -/
theorem bitmapSet_ok (h : bit < bitmap.size) : ∃ bitmap', bitmapSet bitmap bit = .ok bitmap' ∧
    bitmap'.size = bitmap.size ∧ ∀ b, bitmap'.has b = (bitmap.has b || decide (b = bit)) := by
  refine ⟨{ bitmap with
    map := Function.update bitmap.map (bit / 8) (bitmap.map (bit / 8) ||| BitVec.twoPow 8 (bit % 8)) }, ?_, rfl,
    fun b => ?_⟩
  · simp only [bitmapSet, assert_pos h, ok_bind]
    rfl
  simp only [Bitmap.has]
  by_cases hbyte : b / 8 = bit / 8
  · have hlt := Nat.mod_lt bit (by omega : 0 < 8)
    have hbit : bit % 8 = b % 8 ↔ b = bit := by rw [bit_eq]; omega
    rw [hbyte, Function.update_self, BitVec.getLsbD_or, BitVec.getLsbD_twoPow]
    simp [hlt, hbit]
  · have hne : b ≠ bit := fun h => hbyte (by rw [h])
    rw [Function.update_of_ne hbyte]
    simp [hne]

/-- `bitmap_unset` clears one bit. -/
theorem bitmapUnset_ok (h : bit < bitmap.size) : ∃ bitmap', bitmapUnset bitmap bit = .ok bitmap' ∧
    bitmap'.size = bitmap.size ∧ ∀ b, bitmap'.has b = (bitmap.has b && !decide (b = bit)) := by
  refine ⟨{ bitmap with
    map := Function.update bitmap.map (bit / 8) (bitmap.map (bit / 8) &&& ~~~ BitVec.twoPow 8 (bit % 8)) }, ?_, rfl,
    fun b => ?_⟩
  · simp only [bitmapUnset, assert_pos h, ok_bind]
    rfl
  simp only [Bitmap.has]
  by_cases hbyte : b / 8 = bit / 8
  · have hlt := Nat.mod_lt b (by omega : 0 < 8)
    have hlt' := Nat.mod_lt bit (by omega : 0 < 8)
    have hbit : bit % 8 = b % 8 ↔ b = bit := by rw [bit_eq]; omega
    rw [hbyte, Function.update_self, BitVec.getLsbD_and, BitVec.getLsbD_not, BitVec.getLsbD_twoPow]
    simp [hlt, hlt', hbit]
  · have hne : b ≠ bit := fun h => hbyte (by rw [h])
    rw [Function.update_of_ne hbyte]
    simp [hne]

end Bitmap

/-! ## Ids -/

/-- `PROCESS_MAX_PID`. -/
def processMaxPid : Nat := 32768

/-- `last_pid`, `pid_bitmap`, and the ids of the processes that have been created and not destroyed. -/
structure Pids where
  lastPid : Word
  bitmap : Bitmap
  live : List Word

/-- `process_init`, as far as ids go. -/
def processInit : Kernel Pids := do
  let bitmap ← bitmapNew processMaxPid
  let bitmap ← bitmapSet bitmap 0
  let bitmap ← bitmapSet bitmap 1
  return ⟨1#32, bitmap, []⟩

/-- `get_pid`. -/
def getPid (x : Pids) : Kernel (Word × Pids) := do
  kassert (¬ x.lastPid.toNat > processMaxPid)
  let pid := x.lastPid + 1#32
  kassert ((← bitmapTest x.bitmap pid.toNat) = false)
  let bitmap ← bitmapSet x.bitmap pid.toNat
  return (pid, { x with lastPid := pid, bitmap := bitmap })

/-- `process_destroy`, as far as ids go. -/
def destroyPid (x : Pids) (pid : Word) : Kernel Pids := do
  kassert (pid ≠ 1#32)
  kassert (pid ≠ 0#32)
  let bitmap ← bitmapUnset x.bitmap pid.toNat
  return { x with bitmap := bitmap }

/-- A process is created, or the process with an id is destroyed. -/
inductive PidOp
  | create
  | destroy (pid : Word)
deriving DecidableEq, Repr

/-- One operation. -/
def pidStep (x : Pids) : PidOp → Kernel Pids
  | .create => do
    let (pid, x) ← getPid x
    return { x with live := pid :: x.live }
  | .destroy pid => do
    let x ← destroyPid x pid
    return { x with live := x.live.erase pid }

/-- A process is created while there are fewer than the bitmap has ids for, and destroyed once. -/
def PidLegal (x : Pids) : PidOp → Prop
  | .create => x.live.length < processMaxPid - 2
  | .destroy pid => pid ∈ x.live

/-- `get_pid` returns an id of the bitmap that no live process has. -/
def PidGood (x : Pids) : PidOp → Prop
  | .create => ∃ pid x', getPid x = .ok (pid, x') ∧ 2 ≤ pid.toNat ∧ pid.toNat < processMaxPid ∧ pid ∉ x.live
  | .destroy _ => True

/-- The number of processes that a run creates. -/
def creations (ops : List PidOp) : Nat := ops.count .create

section Runs

variable {x x' : Pids} {k : Nat} {ops : List PidOp}

/-- **The invariant** after `k` creations. -/
structure PidSound (k : Nat) (x : Pids) : Prop where
  last : x.lastPid.toNat = k + 1
  room : k + 2 ≤ processMaxPid
  size : x.bitmap.size = processMaxPid
  nodup : x.live.Nodup
  range : ∀ pid ∈ x.live, 2 ≤ pid.toNat ∧ pid.toNat ≤ k + 1
  bits : ∀ pid : Word, 2 ≤ pid.toNat → x.bitmap.has pid.toNat = decide (pid ∈ x.live)

/-- After `process_init`. -/
theorem processInit_sound : ∃ x, processInit = .ok x ∧ x.live = [] ∧ PidSound 0 x := by
  have hzero : 0 < (⟨fun _ => 0#8, processMaxPid⟩ : Bitmap).size := by decide
  obtain ⟨b₀, h₀, hsize₀, hbits₀⟩ := bitmapSet_ok hzero
  have hone : 1 < b₀.size := by rw [hsize₀]; decide
  obtain ⟨b₁, h₁, hsize₁, hbits₁⟩ := bitmapSet_ok hone
  have hnew : bitmapNew processMaxPid = .ok ⟨fun _ => 0#8, processMaxPid⟩ := rfl
  refine ⟨⟨1#32, b₁, []⟩, by simp only [processInit, hnew, h₀, h₁, ok_bind]; rfl, rfl, rfl, by decide, ?_,
    List.nodup_nil, fun pid hpid => absurd hpid List.not_mem_nil, fun pid hpid => ?_⟩
  · rw [hsize₁, hsize₀]
  · have hempty : (⟨fun _ => 0#8, processMaxPid⟩ : Bitmap).has pid.toNat = false := BitVec.getLsbD_zero
    have h1 : pid.toNat ≠ 1 := by omega
    have h0 : pid.toNat ≠ 0 := by omega
    rw [hbits₁, hbits₀, hempty]
    simp [h0, h1]

/-- The next id. -/
theorem PidSound.next (h : PidSound k x) : (x.lastPid + 1#32).toNat = k + 2 := by
  have hlast := h.last
  have hroom := h.room
  unfold processMaxPid at hroom
  bv_omega

/-- While there is a next id, `get_pid` returns it. -/
theorem getPid_ok (h : PidSound k x) (hk : k + 2 < processMaxPid) :
    ∃ x', getPid x = .ok (x.lastPid + 1#32, x') ∧ x.lastPid + 1#32 ∉ x.live ∧
      PidSound (k + 1) { x' with live := (x.lastPid + 1#32) :: x'.live } := by
  have hnext := h.next
  have hlt : (x.lastPid + 1#32).toNat < x.bitmap.size := by rw [hnext, h.size]; exact hk
  have hfresh : x.lastPid + 1#32 ∉ x.live := by
    intro hmem
    have := (h.range _ hmem).2
    omega
  have htest : bitmapTest x.bitmap (x.lastPid + 1#32).toNat = .ok false := by
    rw [bitmapTest_eq hlt, h.bits _ (by omega), decide_eq_false hfresh]
  obtain ⟨bitmap, hset, hsize, hbits⟩ := bitmapSet_ok hlt
  have hlast : ¬ x.lastPid.toNat > processMaxPid := by
    have := h.last
    omega
  refine ⟨{ x with lastPid := x.lastPid + 1#32, bitmap := bitmap }, ?_, hfresh, hnext, hk, hsize.trans h.size,
    List.nodup_cons.2 ⟨hfresh, h.nodup⟩, fun pid hpid => ?_, fun pid hpid => ?_⟩
  · simp only [getPid, assert_pos hlast, htest, assert_pos, hset, ok_bind]
    rfl
  · rcases List.mem_cons.1 hpid with rfl | hpid
    · omega
    · have := h.range pid hpid
      omega
  · have hiff : pid.toNat = (x.lastPid + 1#32).toNat ↔ pid = x.lastPid + 1#32 := BitVec.toNat_inj
    rw [hbits, h.bits pid hpid]
    simp only [List.mem_cons, hiff]
    by_cases hp : pid = x.lastPid + 1#32 <;> by_cases hl : pid ∈ x.live <;> simp [hp, hl]

/-- After the last id, it does not return. -/
theorem getPid_stops (h : PidSound k x) (hk : ¬ k + 2 < processMaxPid) (r : Word × Pids) : getPid x ≠ .ok r := by
  intro hget
  simp only [getPid, bitmapTest, bind_eq_ok, assert_eq_ok] at hget
  obtain ⟨-, -, b, ⟨-, hlt, -⟩, -⟩ := hget
  rw [h.next, h.size] at hlt
  exact hk hlt

/-- A process that is destroyed gives its id back. -/
theorem destroyPid_ok (h : PidSound k x) {pid : Word} (hpid : pid ∈ x.live) :
    ∃ x', destroyPid x pid = .ok x' ∧ PidSound k { x' with live := x'.live.erase pid } := by
  obtain ⟨h2, hle⟩ := h.range pid hpid
  have hroom := h.room
  have hlt : pid.toNat < x.bitmap.size := by rw [h.size]; omega
  have h1 : pid ≠ 1#32 := by rintro rfl; exact absurd h2 (by decide)
  have h0 : pid ≠ 0#32 := by rintro rfl; exact absurd h2 (by decide)
  obtain ⟨bitmap, hunset, hsize, hbits⟩ := bitmapUnset_ok hlt
  refine ⟨{ x with bitmap := bitmap }, ?_, h.last, hroom, hsize.trans h.size, h.nodup.erase pid, fun q hq => ?_,
    fun q hq => ?_⟩
  · simp only [destroyPid, assert_pos h1, assert_pos h0, hunset, ok_bind]
    rfl
  · exact h.range q (List.mem_of_mem_erase hq)
  · have hiff : q.toNat = pid.toNat ↔ q = pid := BitVec.toNat_inj
    rw [hbits, h.bits q hq]
    simp only [h.nodup.mem_erase_iff, hiff]
    by_cases hp : q = pid <;> by_cases hl : q ∈ x.live <;> simp [hp, hl]

/-- Every creation is good while ids are left, and only then. -/
theorem pidGood_iff (h : PidSound k x) (hlegal : StepsMeet pidStep PidLegal x ops) :
    StepsMeet pidStep PidGood x ops ↔ k + creations ops + 2 ≤ processMaxPid := by
  induction ops generalizing x k with
  | nil =>
    have hroom := h.room
    simp [StepsMeet, creations, hroom]
  | cons op ops ih =>
    cases op with
    | create =>
      have hcount : creations (.create :: ops) = creations ops + 1 := List.count_cons_self
      rw [hcount]
      by_cases hk : k + 2 < processMaxPid
      · obtain ⟨x₁, hget, hfresh, hsound⟩ := getPid_ok h hk
        have hnext := h.next
        have hstep : pidStep x .create = .ok { x₁ with live := (x.lastPid + 1#32) :: x₁.live } := by
          simp only [pidStep, hget, ok_bind]
          rfl
        have hrest := ih hsound (hlegal.2 _ hstep)
        constructor
        · intro hgood
          have := hrest.1 (hgood.2 _ hstep)
          omega
        · intro hle
          refine stepsMeet_cons ⟨_, _, hget, by omega, by omega, hfresh⟩ hstep (hrest.2 (by omega))
      · constructor
        · rintro ⟨⟨pid, x₁, hget, -⟩, -⟩
          exact absurd hget (getPid_stops h hk _)
        · intro hle
          omega
    | destroy pid =>
      have hcount : creations (.destroy pid :: ops) = creations ops := List.count_cons_of_ne (by simp)
      rw [hcount]
      obtain ⟨x₁, hdestroy, hsound⟩ := destroyPid_ok h hlegal.1
      have hstep : pidStep x (.destroy pid) = .ok { x₁ with live := x₁.live.erase pid } := by
        simp only [pidStep, hdestroy, ok_bind]
        rfl
      have hrest := ih hsound (hlegal.2 _ hstep)
      exact ⟨fun hgood => hrest.1 (hgood.2 _ hstep), fun hle => stepsMeet_cons trivial hstep (hrest.2 hle)⟩

end Runs

/-- **Process ids.** In a run after `process_init` that never has too many processes at once, every call of `get_pid`
returns an id that no live process has, exactly when the run creates at most `PROCESS_MAX_PID - 2` processes in all. -/
theorem get_pid_iff (x : Pids) (ops : List PidOp) (hinit : processInit = .ok x)
    (hlegal : StepsMeet pidStep PidLegal x ops) :
    StepsMeet pidStep PidGood x ops ↔ creations ops ≤ processMaxPid - 2 := by
  obtain ⟨x₀, hx₀, -, hsound⟩ := processInit_sound
  rw [hinit, Except.ok.injEq] at hx₀
  subst hx₀
  rw [pidGood_iff hsound hlegal]
  unfold processMaxPid
  omega

/-- `n` processes are created, each after the one before it has been destroyed; the first id is `k + 2`. -/
def churn : Nat → Nat → List PidOp
  | _, 0 => []
  | k, n + 1 => .create :: .destroy (BitVec.ofNat 32 (k + 2)) :: churn (k + 1) n

section Churn

variable {x : Pids} {k : Nat}

theorem creations_churn (n : Nat) : ∀ k, creations (churn k n) = n := by
  induction n with
  | zero => exact fun _ => rfl
  | succ n ih =>
    intro k
    simp only [creations, churn, List.count_cons_self, List.count_cons_of_ne (by simp : PidOp.destroy _ ≠ .create)]
    rw [show List.count .create (churn (k + 1) n) = n from ih (k + 1)]

/-- There is never more than one process. -/
theorem churn_legal (n : Nat) : ∀ {k : Nat} {x : Pids}, PidSound k x → x.live = [] →
    StepsMeet pidStep PidLegal x (churn k n) := by
  induction n with
  | zero => exact fun _ _ => trivial
  | succ n ih =>
    intro k x h hlive
    refine ⟨by rw [PidLegal, hlive]; decide, fun x₁ hcreate => ?_⟩
    by_cases hk : k + 2 < processMaxPid
    · obtain ⟨x₂, hget, -, hsound⟩ := getPid_ok h hk
      have hpid : x.lastPid + 1#32 = BitVec.ofNat 32 (k + 2) := by
        apply BitVec.eq_of_toNat_eq
        unfold processMaxPid at hk
        rw [h.next, BitVec.toNat_ofNat, Nat.mod_eq_of_lt (by omega)]
      have hlive₂ : x₂.live = [] := by
        simp only [getPid, bind_eq_ok, pure_eq_ok, Prod.mk.injEq] at hget
        obtain ⟨-, -, -, -, -, -, -, -, -, rfl⟩ := hget
        exact hlive
      simp only [pidStep, hget, ok_bind, pure_eq_ok] at hcreate
      subst hcreate
      rw [hpid] at hsound ⊢
      refine ⟨List.mem_cons_self, fun x₃ hdestroy => ?_⟩
      obtain ⟨x₄, hd, hsound'⟩ := destroyPid_ok hsound List.mem_cons_self
      have hlive₄ : x₄.live = [BitVec.ofNat 32 (k + 2)] := by
        simp only [destroyPid, bind_eq_ok, pure_eq_ok] at hd
        obtain ⟨-, -, -, -, -, -, rfl⟩ := hd
        simp only [hlive₂]
      simp only [pidStep, hd, ok_bind, pure_eq_ok] at hdestroy
      subst hdestroy
      apply ih hsound'
      simp [hlive₄]
    · simp only [pidStep, bind_eq_ok] at hcreate
      obtain ⟨r, hget, -⟩ := hcreate
      exact absurd hget (getPid_stops h hk r)

end Churn

/-- Two processes, one after the other. -/
theorem get_pid_iff_two : ∃ x, processInit = .ok x ∧
    StepsMeet pidStep PidGood x [.create, .destroy 2#32, .create, .destroy 3#32] := by
  obtain ⟨x, hinit, hlive, hsound⟩ := processInit_sound
  have hlegal : StepsMeet pidStep PidLegal x [.create, .destroy 2#32, .create, .destroy 3#32] :=
    churn_legal 2 hsound hlive
  exact ⟨x, hinit, (get_pid_iff x _ hinit hlegal).2 (by decide)⟩

/-- With one process at a time, the 32767th call of `get_pid` stops the kernel. -/
theorem get_pid_runs_out : ∃ x, processInit = .ok x ∧ StepsMeet pidStep PidLegal x (churn 0 32767) ∧
    ¬ StepsMeet pidStep PidGood x (churn 0 32767) := by
  obtain ⟨x, hinit, hlive, hsound⟩ := processInit_sound
  have hlegal := churn_legal 32767 hsound hlive
  refine ⟨x, hinit, hlegal, fun hgood => ?_⟩
  have hle := (pidGood_iff hsound hlegal).1 hgood
  rw [creations_churn] at hle
  exact absurd hle (by decide)

end Myunix.Process
