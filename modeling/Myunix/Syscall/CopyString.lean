import Myunix.Syscall.Copy

/-!
# Strings from user memory (`syscall.c`)

`copy_from_userspace_string` copies a string whose length it does not know: it maps the user's pages one after the other
at the same scratch page, copies bytes up to the first NUL, and tests the size of the buffer before each of them. At the
end of a page it stores a terminator behind the bytes it has, and this store is not tested: when the buffer is full just
there, it goes to the byte behind the buffer.

* `stringBytes_spec` says what the `for` loop over one page does, `stringPages_spec` what the rounds of the `while` loop
  do from any of them on.
* `copies_string_iff` says for which calls the function does what its callers expect.
-/

namespace Myunix.Syscall

open Lib Vmm Process

/-! ## The code -/

/-- What a call returns: its result, the buffer and the machine. -/
abbrev StringRet := Word × (Nat → Byte) × Vm

/-- `*buf = b` for byte `i` of a buffer of `n` bytes. -/
def storeByte (n : Nat) (buffer : Nat → Byte) (i : Nat) (b : Byte) : Kernel (Nat → Byte) :=
  if i < n then .ok (Function.update buffer i b) else .error .bounds

/-- The `for` loop of `copy_from_userspace_string` over the `rest` last bytes of the page at `kptr`, with `i` bytes
copied to the buffer at address `addr`. It returns from the function (`inl`) or ends (`inr`). -/
def stringBytes (vm : Vm) (kptr addr n : Nat) : Nat → Nat → (Nat → Byte) → Kernel (StringRet ⊕ (Nat × (Nat → Byte)))
  | 0, i, buffer => .ok (.inr (i, buffer))
  | rest + 1, i, buffer =>
    if (addr + i) % 0x100000000 ≥ (addr + n) % 0x100000000 then do
      let vm ← unmapFromKernel kptr 1 vm
      return .inl (0xFFFFFFFF#32, buffer, vm)
    else do
      let b ← kernelLoad vm (kptr + (4096 - (rest + 1)))
      let buffer ← storeByte n buffer i b
      if b = 0#8 then
        let vm ← unmapFromKernel kptr 1 vm
        return .inl (BitVec.ofNat 32 i, buffer, vm)
      else stringBytes vm kptr addr n rest (i + 1) buffer

/-- The `while` loop; `none` when it is not over after that many rounds. At the last page of the address space
`kptr + BLOCK_SIZE` is 0, and the `for` loop does nothing. -/
def stringPages (pdir : DirPtr) (kptr addr n : Nat) :
    Nat → Nat → Nat → Nat → (Nat → Byte) → Vm → Kernel (Option StringRet)
  | 0, _, _, _, _, _ => .ok none
  | rounds + 1, p, offset, i, buffer, vm => do
    let (done, vm) ← mapUserspaceToKernel vm pdir p kptr 1
    if done then
      match ← stringBytes vm kptr addr n ((kptr + 4096) % 0x100000000 - (kptr + offset)) i buffer with
      | .inl r => return some r
      | .inr (i, buffer) =>
        let buffer ← storeByte n buffer i 0#8
        stringPages pdir kptr addr n rounds ((p + 4096) % 0x100000000) 0 i buffer vm
    else
      let vm ← unmapFromKernel kptr 1 vm
      return some (0xFFFFFFFF#32, buffer, vm)

/-- `copy_from_userspace_string`; the buffer is an object of `n` bytes at address `addr`, and `buffer i` is its byte
`i`. -/
def copyFromUserspaceString (vm : Vm) (pdir : DirPtr) (ptr n : Word) (addr : Nat) (buffer : Nat → Byte)
    (rounds : Nat) : Kernel (Option StringRet) := do
  kassert (ptr ≠ 0#32 ∧ addr ≠ 0)
  let (kptr, vm) ← findVspace .kernel 1 vm
  if kptr = 0 then return some (0xFFFFFFFF#32, buffer, vm)
  else stringPages pdir kptr addr n.toNat rounds (ptr &&& ~~~ 0xFFF#32).toNat (ptr &&& 0xFFF#32).toNat 0 buffer vm

/-! ## What the callers expect -/

/-- The address of byte `i` from `ptr` on; addresses wrap. -/
def byteAddr (ptr : Word) (i : Nat) : Nat := (ptr.toNat + i) % 0x100000000

/-- Byte `i` from `ptr` on, as the user sees it. -/
def userByte (vm : Vm) (pdir : DirPtr) (ptr : Word) (i : Nat) : Byte :=
  vm.frames (userPlace vm pdir (byteAddr ptr i)).1 (userPlace vm pdir (byteAddr ptr i)).2

/-- Byte `i` from `ptr` on is in a page that is present, writable and the user's. -/
def UserAt (vm : Vm) (pdir : DirPtr) (ptr : Word) (i : Nat) : Prop :=
  UserEntry (vm.entry pdir (byteAddr ptr i / 4096))

/-- At `ptr` there is a string of `k` bytes and a NUL, all in pages of the user. -/
structure UserString (vm : Vm) (pdir : DirPtr) (ptr : Word) (k : Nat) : Prop where
  user : ∀ i ≤ k, UserAt vm pdir ptr i
  bytes : ∀ i < k, userByte vm pdir ptr i ≠ 0#8
  nul : userByte vm pdir ptr k = 0#8

/-- The first `m` bytes from `ptr` on are in pages of the user, and none is a NUL. -/
def NoNul (vm : Vm) (pdir : DirPtr) (ptr : Word) (m : Nat) : Prop :=
  ∀ i < m, UserAt vm pdir ptr i ∧ userByte vm pdir ptr i ≠ 0#8

/-- The first `n` bytes from `ptr` on are in pages of the user, none is a NUL, and the last of them is the last byte of
its page. -/
def FillsToPageEnd (vm : Vm) (pdir : DirPtr) (ptr : Word) (n : Nat) : Prop :=
  NoNul vm pdir ptr n ∧ (ptr.toNat + n) % 4096 = 0

/-- The call returns. Its result is `k` exactly when there is a string of `k` bytes that fits into the buffer with its
NUL, and then the buffer holds it; without such a string the result is -1. Bytes behind the buffer are as before, and so
is every directory. -/
def CopiesString (vm : Vm) (pdir : DirPtr) (ptr n : Word) (addr : Nat) (buffer : Nat → Byte) : Prop :=
  ∃ rounds r buffer' vm', copyFromUserspaceString vm pdir ptr n addr buffer rounds = .ok (some (r, buffer', vm')) ∧
    (∀ k : Nat, r.toInt = k ↔ UserString vm pdir ptr k ∧ k + 1 ≤ n.toNat) ∧
    (∀ k, UserString vm pdir ptr k → k + 1 ≤ n.toNat → ∀ i ≤ k, buffer' i = userByte vm pdir ptr i) ∧
    ((∀ k, UserString vm pdir ptr k → ¬ k + 1 ≤ n.toNat) → r = 0xFFFFFFFF#32) ∧
    (∀ i, n.toNat ≤ i → buffer' i = buffer i) ∧ Restored vm vm' ∧ vm'.frames = vm.frames

/-! ## Rounds -/

section Rounds

variable {pdir : DirPtr} {kptr addr n : Nat}

/-- A run that is over stays as it is with more rounds. -/
theorem stringPages_more {rounds p offset i : Nat} {b : Nat → Byte} {vm : Vm}
    (h : stringPages pdir kptr addr n rounds p offset i b vm ≠ .ok none) (more : Nat) :
    stringPages pdir kptr addr n (rounds + more) p offset i b vm =
      stringPages pdir kptr addr n rounds p offset i b vm := by
  induction rounds generalizing p offset i b vm with
  | zero => exact absurd rfl h
  | succ rounds ih =>
    rw [Nat.succ_add_eq_add_succ]
    unfold stringPages at h ⊢
    cases hmap : mapUserspaceToKernel vm pdir p kptr 1 with
    | error e => rfl
    | ok r =>
      obtain ⟨done, u⟩ := r
      simp only [hmap, ok_bind] at h ⊢
      cases done with
      | false => rfl
      | true =>
        simp only [if_true] at h ⊢
        cases hbytes : stringBytes u kptr addr n ((kptr + 4096) % 0x100000000 - (kptr + offset)) i b with
        | error e => rfl
        | ok r =>
          simp only [hbytes, ok_bind] at h ⊢
          cases r with
          | inl r => rfl
          | inr r =>
            obtain ⟨k, c⟩ := r
            dsimp only at h ⊢
            cases hstore : storeByte n c k 0#8 with
            | error e => rfl
            | ok c' =>
              simp only [hstore, ok_bind] at h ⊢
              exact ih h

/-- Two runs that are over end in the same way. -/
theorem stringPages_settled {r₁ r₂ p offset i : Nat} {b : Nat → Byte} {vm : Vm}
    (h₁ : stringPages pdir kptr addr n r₁ p offset i b vm ≠ .ok none)
    (h₂ : stringPages pdir kptr addr n r₂ p offset i b vm ≠ .ok none) :
    stringPages pdir kptr addr n r₁ p offset i b vm = stringPages pdir kptr addr n r₂ p offset i b vm := by
  rw [← stringPages_more h₁ r₂, ← stringPages_more h₂ r₁, Nat.add_comm]

end Rounds

/-! ## One page -/

/-- The first `i` bytes have been copied to a buffer that held `buffer`, and no byte behind its `n` bytes is written. -/
structure CopiedTo (byte : Nat → Byte) (n : Nat) (buffer : Nat → Byte) (i : Nat) (b : Nat → Byte) : Prop where
  copied : ∀ l < i, b l = byte l
  behind : ∀ l, n ≤ l → b l = buffer l

theorem CopiedTo.snoc {byte buffer b : Nat → Byte} {n i : Nat} (h : CopiedTo byte n buffer i b) (hi : i < n) :
    CopiedTo byte n buffer (i + 1) (Function.update b i (byte i)) := by
  refine ⟨fun l hl => ?_, fun l hl => ?_⟩
  · by_cases hli : l = i
    · rw [hli, Function.update_self]
    · rw [Function.update_of_ne hli]
      exact h.copied l (by omega)
  · rw [Function.update_of_ne (by omega)]
    exact h.behind l hl

/-- A store to the next byte of the buffer leaves the copied ones. -/
theorem CopiedTo.store {byte buffer b : Nat → Byte} {n i : Nat} {w : Byte} (h : CopiedTo byte n buffer i b)
    (hi : i < n) : CopiedTo byte n buffer i (Function.update b i w) := by
  refine ⟨fun l hl => ?_, fun l hl => ?_⟩
  · rw [Function.update_of_ne (by omega)]
    exact h.copied l hl
  · rw [Function.update_of_ne (by omega)]
    exact h.behind l hl

/-- How the `for` loop ends that started with `i` bytes copied and `rest` bytes left in the page: at a NUL, at a byte
for which there is no room, or at the end of the page. -/
def BytesResult (byte : Nat → Byte) (n : Nat) (buffer : Nat → Byte) (u' : Vm) (rest i : Nat) :
    StringRet ⊕ (Nat × (Nat → Byte)) → Prop
  | .inl (r, b, v) => v = u' ∧
    ((∃ k, i ≤ k ∧ k < i + rest ∧ k < n ∧ (∀ l, i ≤ l → l < k → byte l ≠ 0#8) ∧ byte k = 0#8 ∧
        r = BitVec.ofNat 32 k ∧ CopiedTo byte n buffer (k + 1) b) ∨
      n < i + rest ∧ (∀ l, i ≤ l → l < n → byte l ≠ 0#8) ∧ r = 0xFFFFFFFF#32 ∧ CopiedTo byte n buffer n b)
  | .inr (k, b) => k = i + rest ∧ k ≤ n ∧ (∀ l, i ≤ l → l < k → byte l ≠ 0#8) ∧ CopiedTo byte n buffer k b

/-- **The `for` loop** over the rest of a page whose bytes the kernel can load. -/
theorem stringBytes_spec {u u' : Vm} {kptr addr n rest i : Nat} {byte buffer b : Nat → Byte}
    (hun : unmapFromKernel kptr 1 u = .ok u') (haddr : addr + n < 0x100000000) (hrest : rest ≤ 4096) (hi : i ≤ n)
    (hload : ∀ l < rest, kernelLoad u (kptr + (4096 - rest + l)) = .ok (byte (i + l)))
    (hc : CopiedTo byte n buffer i b) :
    ∃ x, stringBytes u kptr addr n rest i b = .ok x ∧ BytesResult byte n buffer u' rest i x := by
  induction rest generalizing i b with
  | zero => exact ⟨_, rfl, rfl, hi, fun l h1 h2 => absurd h2 (by omega), hc⟩
  | succ rest ih =>
    by_cases hin : i < n
    · -- there is room for the byte
      have hroom : ¬ (addr + i) % 0x100000000 ≥ (addr + n) % 0x100000000 := by omega
      have hbyte := hload 0 (by omega)
      simp only [Nat.add_zero] at hbyte
      have hstore : storeByte n b i (byte i) = .ok (Function.update b i (byte i)) := if_pos hin
      simp only [stringBytes, if_neg hroom, hbyte, hstore, ok_bind]
      by_cases hz : byte i = 0#8
      · rw [if_pos hz, hun, ok_bind]
        exact ⟨_, rfl, rfl, Or.inl ⟨i, le_rfl, by omega, hin, fun l h1 h2 => absurd h2 (by omega), hz, rfl,
          hc.snoc hin⟩⟩
      · rw [if_neg hz]
        have hload' : ∀ l < rest, kernelLoad u (kptr + (4096 - rest + l)) = .ok (byte (i + 1 + l)) := by
          intro l hl
          have hnext := hload (l + 1) (by omega)
          rwa [show 4096 - (rest + 1) + (l + 1) = 4096 - rest + l by omega,
            show i + (l + 1) = i + 1 + l by omega] at hnext
        obtain ⟨x, hx, hres⟩ := ih (by omega) hin hload' (hc.snoc hin)
        have hmore : ∀ {m l : Nat}, (∀ l, i + 1 ≤ l → l < m → byte l ≠ 0#8) → i ≤ l → l < m → byte l ≠ 0#8 := by
          intro m l hall h1 h2
          by_cases hli : l = i
          · rw [hli]; exact hz
          · exact hall l (by omega) h2
        refine ⟨x, hx, ?_⟩
        match x, hres with
        | .inl (r, c, v), ⟨hv, hcase⟩ =>
          refine ⟨hv, ?_⟩
          rcases hcase with ⟨k, h1, h2, h3, h4, h5, h6, h7⟩ | ⟨h1, h2, h3, h4⟩
          · exact Or.inl ⟨k, by omega, by omega, h3, fun l => hmore h4, h5, h6, h7⟩
          · exact Or.inr ⟨by omega, fun l => hmore h2, h3, h4⟩
        | .inr (k, c), ⟨h1, h2, h3, h4⟩ => exact ⟨by omega, h2, fun l => hmore h3, h4⟩
    · have hfull : (addr + i) % 0x100000000 ≥ (addr + n) % 0x100000000 := by omega
      have hin' : i = n := by omega
      subst hin'
      simp only [stringBytes, if_pos hfull, hun, ok_bind]
      exact ⟨_, rfl, rfl, Or.inr ⟨by omega, fun l h1 h2 => absurd h2 (by omega), rfl, hc⟩⟩

/-! ## Page after page -/

section Pages

variable {vm u : Vm} {a j : Nat} {ptr : Word} {addr n i : Nat} {buffer b : Nat → Byte}

/-- How a call with a scratch page below the last one ends. -/
def PagesResult (vm : Vm) (pdir : DirPtr) (ptr : Word) (n : Nat) (buffer : Nat → Byte)
    (x : Kernel (Option StringRet)) : Prop :=
  (∃ k b u', UserString vm pdir ptr k ∧ k < n ∧ x = .ok (some (BitVec.ofNat 32 k, b, u')) ∧
      CopiedTo (userByte vm pdir ptr) n buffer (k + 1) b ∧ Restored vm u' ∧ u'.frames = vm.frames) ∨
    FillsToPageEnd vm pdir ptr n ∧ x = .error .bounds ∨
    ¬ FillsToPageEnd vm pdir ptr n ∧ (∀ k, UserString vm pdir ptr k → ¬ k + 1 ≤ n) ∧
      ∃ b u', x = .ok (some (0xFFFFFFFF#32, b, u')) ∧ (∀ l, n ≤ l → b l = buffer l) ∧ Restored vm u' ∧
        u'.frames = vm.frames

/-- After `i` bytes that are no NUL, a string is at least as long. -/
theorem UserString.ge_of_noNul {pdir : DirPtr} {k : Nat} (h : UserString vm pdir ptr k) (hno : NoNul vm pdir ptr i) :
    i ≤ k := by
  by_contra hlt
  exact (hno k (by omega)).2 h.nul

/-- With the next `c` bytes of the user. -/
theorem NoNul.userAt {pdir : DirPtr} {c l : Nat} (h : NoNul vm pdir ptr i) (hpage : ∀ l < c, UserAt vm pdir ptr (i + l))
    (hl : l < i + c) : UserAt vm pdir ptr l := by
  by_cases hli : l < i
  · exact (h l hli).1
  · have hl' := hpage (l - i) (by omega)
    rwa [show i + (l - i) = l by omega] at hl'

/-- With those of them that are no NUL. -/
theorem NoNul.extend {pdir : DirPtr} {c m : Nat} (h : NoNul vm pdir ptr i)
    (hpage : ∀ l < c, UserAt vm pdir ptr (i + l)) (hm : m ≤ i + c)
    (hall : ∀ l, i ≤ l → l < m → userByte vm pdir ptr l ≠ 0#8) : NoNul vm pdir ptr m := by
  intro l hl
  refine ⟨h.userAt hpage (by omega), ?_⟩
  by_cases hli : l < i
  · exact (h l hli).2
  · exact hall l (by omega) hl

/-- The scratch page is taken down, and the directories are as before. -/
theorem unmapScratch (hk : KernelTables vm) (hj : j + 1 ≤ 0x100000) (hs : SameBut j 1 vm u)
    (hfree : vm.entry .kernel j = 0#32) :
    ∃ u', unmapFromKernel (j * 4096) 1 u = .ok u' ∧ Restored vm u' ∧ u'.frames = u.frames := by
  obtain ⟨u', hun, hs', hf, hclear⟩ := unmapFromKernel_ok hk (by omega) hj hs
  refine ⟨u', hun, hs'.restored (fun k hk1 => ?_) hclear, hf⟩
  rw [show k = 0 by omega]
  exact hfree

section Rounds

variable (hk : KernelTables vm) (hd : TablesAgree (vm.dirs (.user a)))
include hk hd

/-- A round of the mapper for byte `i`: its page is mapped, so that the kernel can load the bytes from `i` to the end of
the page, or it is not the user's. -/
theorem mapRound (hj : j + 1 ≤ 0x100000) (hs : SameBut j 1 vm u) (hf : u.frames = vm.frames) (ptr : Word) (i : Nat) :
    ∃ done u', mapUserspaceToKernel u (.user a) (byteAddr ptr i / 4096 * 4096) (j * 4096) 1 = .ok (done, u') ∧
      SameBut j 1 vm u' ∧ u'.frames = vm.frames ∧
      (done = true ∧ UserAt vm (.user a) ptr i ∧
          (∀ l < 4096 - byteAddr ptr i % 4096, UserAt vm (.user a) ptr (i + l) ∧
            kernelLoad u' (j * 4096 + (byteAddr ptr i % 4096 + l)) = .ok (userByte vm (.user a) ptr (i + l))) ∨
        done = false ∧ ¬ UserAt vm (.user a) ptr i) := by
  have hlt : byteAddr ptr i < 0x100000000 := Nat.mod_lt _ (by omega)
  obtain ⟨done, u', hmap, hs', hf', hcase⟩ :=
    mapUserspaceToKernel_user hk hd hj (show byteAddr ptr i / 4096 + 1 ≤ 0x100000 by omega) (by omega) hs
  refine ⟨done, u', hmap, hs', hf'.trans hf, ?_⟩
  rcases hcase with ⟨rfl, hm⟩ | ⟨rfl, k, hk1, hbad⟩
  · have hue := (hm 0 (by omega)).1
    rw [Nat.add_zero] at hue
    refine Or.inl ⟨rfl, hue, fun l hl => ?_⟩
    -- within the page addresses do not wrap
    have hva : byteAddr ptr (i + l) = byteAddr ptr i + l := by
      unfold byteAddr at hl hlt ⊢
      omega
    have hpage : (byteAddr ptr i + l) / 4096 = byteAddr ptr i / 4096 := by omega
    obtain ⟨hframe, hoff⟩ := kernelFrame_mapped hm hj rfl (show (byteAddr ptr i + l) / 4096 < _ by omega)
    have hsum : (j * 4096 + byteAddr ptr i % 4096 + l) % 0x100000000 = j * 4096 + (byteAddr ptr i % 4096 + l) := by
      omega
    rw [hsum] at hframe hoff
    refine ⟨?_, ?_⟩
    · unfold UserAt
      rw [hva, hpage]
      exact hue
    · unfold kernelLoad userByte
      rw [hframe, hoff, ok_bind, hf', hf, hva]
      rfl
  · rw [show k = 0 by omega, Nat.add_zero] at hbad
    exact Or.inr ⟨rfl, hbad⟩

/-- **The rounds of the `while` loop** from the one that starts with byte `i` on. -/
theorem stringPages_spec (hj : j + 1 < 0x100000) (hfree : vm.entry .kernel j = 0#32)
    (haddr : addr + n < 0x100000000) (hi : i < n) (hno : NoNul vm (.user a) ptr i) (hs : SameBut j 1 vm u)
    (hf : u.frames = vm.frames) (hc : CopiedTo (userByte vm (.user a) ptr) n buffer i b) :
    ∃ rounds, PagesResult vm (.user a) ptr n buffer
      (stringPages (.user a) (j * 4096) addr n rounds (byteAddr ptr i / 4096 * 4096) (byteAddr ptr i % 4096) i b
        u) := by
  -- each round copies at least one byte
  induction hleft : n - i using Nat.strong_induction_on generalizing i b u with
  | _ left ih =>
    obtain ⟨done, u₁, hmap, hs₁, hf₁, ⟨rfl, hat, hpage⟩ | ⟨rfl, hbad⟩⟩ :=
      mapRound hk hd (by omega) hs hf ptr i
    · obtain ⟨u₂, hun, hrest₂, hf₂⟩ := unmapScratch hk (by omega) hs₁ hfree
      have hrest : (j * 4096 + 4096) % 0x100000000 - (j * 4096 + byteAddr ptr i % 4096) =
          4096 - byteAddr ptr i % 4096 := by omega
      have hload : ∀ l < 4096 - byteAddr ptr i % 4096,
          kernelLoad u₁ (j * 4096 + (4096 - (4096 - byteAddr ptr i % 4096) + l)) =
            .ok (userByte vm (.user a) ptr (i + l)) := by
        intro l hl
        rw [show 4096 - (4096 - byteAddr ptr i % 4096) = byteAddr ptr i % 4096 by omega]
        exact (hpage l hl).2
      obtain ⟨x, hbytes, hres⟩ := stringBytes_spec hun haddr (by omega) hi.le hload hc
      -- up to the end of the page every byte is the user's
      have huser : ∀ l < 4096 - byteAddr ptr i % 4096, UserAt vm (.user a) ptr (i + l) := fun l hl => (hpage l hl).1
      match x, hres with
      | .inl (r, c, v), ⟨hv, hcase⟩ =>
        subst hv
        rcases hcase with ⟨k, h1, h2, h3, h4, h5, h6, h7⟩ | ⟨h1, h2, h3, h4⟩
        · have hfull := hno.extend huser (show k ≤ _ by omega) h4
          have hstring : UserString vm (.user a) ptr k :=
            ⟨fun l hl => hno.userAt huser (by omega), fun l hl => (hfull l hl).2, h5⟩
          refine ⟨1, Or.inl ⟨k, c, v, hstring, h3, ?_, h7, hrest₂, hf₂.trans hf₁⟩⟩
          simp only [stringPages, hmap, ok_bind, if_true, hrest, hbytes, h6]
          rfl
        · have hfull := hno.extend huser h1.le h2
          refine ⟨1, Or.inr (Or.inr ⟨fun hend => ?_, fun k hstr => ?_, c, v, ?_, h4.behind, hrest₂, hf₂.trans hf₁⟩)⟩
          · have hmod := hend.2
            unfold byteAddr at h1
            omega
          · have := hstr.ge_of_noNul hfull
            omega
          · simp only [stringPages, hmap, ok_bind, if_true, hrest, hbytes, h3]
            rfl
      | .inr (k, c), ⟨h1, h2, h3, h4⟩ =>
        have hfull := hno.extend huser h1.le h3
        by_cases hkn : k < n
        · -- the terminator is in the buffer, and the next round starts at the next page
          have hnext : (byteAddr ptr i / 4096 * 4096 + 4096) % 0x100000000 = byteAddr ptr k / 4096 * 4096 ∧
              0 = byteAddr ptr k % 4096 := by
            unfold byteAddr at h1 ⊢
            omega
          obtain ⟨rounds, hround⟩ := ih (n - k) (by omega) hkn hfull hs₁ hf₁ (h4.store hkn) rfl
          refine ⟨rounds + 1, ?_⟩
          have hstore : storeByte n c k 0#8 = .ok (Function.update c k 0#8) := if_pos hkn
          simp only [stringPages, hmap, ok_bind, if_true, hrest, hbytes, hstore, hnext.1]
          rw [← hnext.2] at hround
          exact hround
        · have hkn' : k = n := by omega
          subst hkn'
          have hstore : storeByte k c k 0#8 = .error .bounds := if_neg (by omega)
          refine ⟨1, Or.inr (Or.inl ⟨⟨hfull, ?_⟩, ?_⟩)⟩
          · unfold byteAddr at h1
            omega
          · simp only [stringPages, hmap, ok_bind, if_true, hrest, hbytes, hstore]
            rfl
    · obtain ⟨u₂, hun, hrest₂, hf₂⟩ := unmapScratch hk (by omega) hs₁ hfree
      refine ⟨1, Or.inr (Or.inr ⟨fun hend => hbad (hend.1 i hi).1, fun k hstr _ => ?_, b, u₂, ?_, hc.behind, hrest₂,
        hf₂.trans hf₁⟩)⟩
      · exact hbad (hstr.user i (hstr.ge_of_noNul hno))
      · simp only [stringPages, hmap, ok_bind, hun, Bool.false_eq_true, if_false]
        rfl

/-! ## The last page of the address space as the scratch page -/

/-- The rounds with the last page as the scratch page, from the page `d` pages behind the one of `ptr` on. -/
def lastPages (a : Nat) (ptr : Word) (addr n rounds d offset : Nat) (b : Nat → Byte) (u : Vm) :
    Kernel (Option StringRet) :=
  stringPages (.user a) (0xFFFFF * 4096) addr n rounds (byteAddr ptr (d * 4096) / 4096 * 4096) offset 0 b u

section Last

variable (hfree : vm.entry .kernel 0xFFFFF = 0#32) (hn : 0 < n)
include hfree hn

/-- Such a round copies no byte: it stores a terminator and goes on to the next page, or stops at a page that is not the
user's. -/
theorem lastPages_round (hs : SameBut 0xFFFFF 1 vm u) (hf : u.frames = vm.frames)
    (hb : ∀ l, n ≤ l → b l = buffer l) (addr d offset : Nat) :
    ∃ u' b', u'.frames = vm.frames ∧ (∀ l, n ≤ l → b' l = buffer l) ∧
      (UserAt vm (.user a) ptr (d * 4096) ∧ SameBut 0xFFFFF 1 vm u' ∧
          (∀ rounds, lastPages a ptr addr n (rounds + 1) d offset b u = lastPages a ptr addr n rounds (d + 1) 0 b' u') ∨
        ¬ UserAt vm (.user a) ptr (d * 4096) ∧ Restored vm u' ∧
          ∀ rounds, lastPages a ptr addr n (rounds + 1) d offset b u = .ok (some (0xFFFFFFFF#32, b', u'))) := by
  obtain ⟨done, u₁, hmap, hs₁, hf₁, ⟨rfl, hat, -⟩ | ⟨rfl, hbad⟩⟩ :=
    mapRound hk hd (by omega) hs hf ptr (d * 4096)
  · -- the bound of the `for` loop has wrapped to 0
    have hrest : (0xFFFFF * 4096 + 4096) % 0x100000000 - (0xFFFFF * 4096 + offset) = 0 := by omega
    have hnext : (byteAddr ptr (d * 4096) / 4096 * 4096 + 4096) % 0x100000000 =
        byteAddr ptr ((d + 1) * 4096) / 4096 * 4096 := by
      unfold byteAddr
      omega
    have hstore : storeByte n b 0 0#8 = .ok (Function.update b 0 0#8) := if_pos hn
    refine ⟨u₁, Function.update b 0 0#8, hf₁, fun l hl => ?_, Or.inl ⟨hat, hs₁, fun rounds => ?_⟩⟩
    · rw [Function.update_of_ne (by omega)]
      exact hb l hl
    · simp only [lastPages, stringPages, hmap, ok_bind, if_true, hrest, stringBytes, hstore, hnext]
  · obtain ⟨u₂, hun, hrest₂, hf₂⟩ := unmapScratch hk (by omega) hs₁ hfree
    refine ⟨u₂, b, hf₂.trans hf₁, hb, Or.inr ⟨hbad, hrest₂, fun rounds => ?_⟩⟩
    simp only [lastPages, stringPages, hmap, ok_bind, hun, Bool.false_eq_true, if_false]
    rfl

/-- The loop ends with -1 at a page that is not the user's. -/
theorem lastPages_ends (hs : SameBut 0xFFFFF 1 vm u) (hf : u.frames = vm.frames)
    (hb : ∀ l, n ≤ l → b l = buffer l) {d e : Nat} (hbad : ¬ UserAt vm (.user a) ptr ((d + e) * 4096))
    (addr offset : Nat) :
    ∃ rounds b' u', lastPages a ptr addr n rounds d offset b u = .ok (some (0xFFFFFFFF#32, b', u')) ∧
      (∀ l, n ≤ l → b' l = buffer l) ∧ Restored vm u' ∧ u'.frames = vm.frames := by
  induction e generalizing d offset b u with
  | zero =>
    obtain ⟨u', b', hf', hb', ⟨hat, -⟩ | ⟨-, hrest, hrun⟩⟩ :=
      lastPages_round hk hd hfree hn hs hf hb addr d offset
    · exact absurd hat hbad
    · exact ⟨1, b', u', hrun 0, hb', hrest, hf'⟩
  | succ e ih =>
    rw [show d + (e + 1) = d + 1 + e by omega] at hbad
    obtain ⟨u', b', hf', hb', ⟨-, hs', hrun⟩ | ⟨-, hrest, hrun⟩⟩ :=
      lastPages_round hk hd hfree hn hs hf hb addr d offset
    · obtain ⟨rounds, b'', u'', hrun', hb'', hrest, hf''⟩ := ih hs' hf' hb' hbad 0
      exact ⟨rounds + 1, b'', u'', (hrun rounds).trans hrun', hb'', hrest, hf''⟩
    · exact ⟨1, b', u', hrun 0, hb', hrest, hf'⟩

/-- When every page is the user's, it does not end. -/
theorem lastPages_runs (hs : SameBut 0xFFFFF 1 vm u) (hf : u.frames = vm.frames)
    (hb : ∀ l, n ≤ l → b l = buffer l) (hall : ∀ d, UserAt vm (.user a) ptr (d * 4096)) (rounds d offset : Nat) :
    lastPages a ptr addr n rounds d offset b u = .ok none := by
  induction rounds generalizing d offset b u with
  | zero => rfl
  | succ rounds ih =>
    obtain ⟨u', b', hf', hb', ⟨-, hs', hrun⟩ | ⟨hno, -⟩⟩ :=
      lastPages_round hk hd hfree hn hs hf hb addr d offset
    · exact (hrun rounds).trans (ih hs' hf' hb' (d + 1) 0)
    · exact absurd (hall d) hno

end Last

end Rounds

/-- From `ptr` on the loop reaches every page. -/
theorem userAt_pages {pdir : DirPtr} : (∀ d, UserAt vm pdir ptr (d * 4096)) ↔
    ∀ m < 0x100000, UserEntry (vm.entry pdir m) := by
  have hptr := ptr.isLt
  constructor
  · intro h m hm
    have hpage : byteAddr ptr ((m + 0x100000 - ptr.toNat / 4096) * 4096) / 4096 = m := by
      unfold byteAddr
      omega
    have hat := h (m + 0x100000 - ptr.toNat / 4096)
    unfold UserAt at hat
    rwa [hpage] at hat
  · intro h d
    have hlt : byteAddr ptr (d * 4096) < 0x100000000 := Nat.mod_lt _ (by omega)
    exact h _ (by omega)

end Pages

/-! ## The whole call -/

/-- What the callers see to: the kernel directory is as `vmm_init` leaves it, the user directory passes the checks of
`dump_directory`, and the buffer is an object of at least one byte. -/
structure StringCall (vm : Vm) (a : Nat) (n : Word) (addr : Nat) : Prop where
  kernel : KernelTables vm
  agree : TablesAgree (vm.dirs (.user a))
  pos : n ≠ 0#32
  buffer : addr ≠ 0
  object : addr + n.toNat < 0x100000000

section Call

variable {vm u : Vm} {a addr kptr : Nat} {ptr n : Word} {buffer : Nat → Byte} {pdir : DirPtr}

theorem UserString.unique {k l : Nat} (hk : UserString vm pdir ptr k) (hl : UserString vm pdir ptr l) : k = l := by
  have noNul : ∀ {k}, UserString vm pdir ptr k → NoNul vm pdir ptr k := fun h i hi => ⟨h.user i hi.le, h.bytes i hi⟩
  exact Nat.le_antisymm (hl.ge_of_noNul (noNul hk)) (hk.ge_of_noNul (noNul hl))

/-- A string that fits ends before the buffer is full. -/
theorem UserString.not_fillsToPageEnd {k m : Nat} (h : UserString vm pdir ptr k) (hk : k < m) :
    ¬ FillsToPageEnd vm pdir ptr m := by
  intro hend
  have := h.ge_of_noNul hend.1
  omega

/-- After the search the function is its loop. -/
theorem copyFromUserspaceString_eq (hptr : ptr ≠ 0#32) (haddr : addr ≠ 0)
    (hfind : findVspace .kernel 1 vm = .ok (kptr, u)) (hkptr : kptr ≠ 0) (rounds : Nat) :
    copyFromUserspaceString vm pdir ptr n addr buffer rounds =
      stringPages pdir kptr addr n.toNat rounds (byteAddr ptr 0 / 4096 * 4096) (byteAddr ptr 0 % 4096) 0 buffer u := by
  have hargs : ptr ≠ 0#32 ∧ addr ≠ 0 := ⟨hptr, haddr⟩
  have hbyte : byteAddr ptr 0 = ptr.toNat := Nat.mod_eq_of_lt ptr.isLt
  unfold copyFromUserspaceString
  simp only [assert_bind hargs, hfind, ok_bind, if_neg hkptr, page_toNat, offset_toNat, hbyte]

theorem toNat_pos (hn : n ≠ 0#32) : 0 < n.toNat := Nat.pos_of_ne_zero fun h => hn (BitVec.eq_of_toNat_eq h)

/-- -1 is no length. -/
theorem minus_one_ne (k : Nat) : (0xFFFFFFFF#32 : Word).toInt ≠ k := by
  have hval : (0xFFFFFFFF#32 : Word).toInt = -1 := by decide
  omega

/-- A call that returned has done so with the result of every run that is over. -/
theorem CopiesString.settled {x : Kernel (Option StringRet)} {rounds : Nat} {r : Word} {b : Nat → Byte} {v : Vm}
    (h : copyFromUserspaceString vm pdir ptr n addr buffer rounds = .ok (some (r, b, v))) (hptr : ptr ≠ 0#32)
    (haddr : addr ≠ 0) (hfind : findVspace .kernel 1 vm = .ok (kptr, u)) (hkptr : kptr ≠ 0) {rounds' : Nat}
    (hx : stringPages pdir kptr addr n.toNat rounds' (byteAddr ptr 0 / 4096 * 4096) (byteAddr ptr 0 % 4096) 0 buffer u
      = x) (hover : x ≠ .ok none) : x = .ok (some (r, b, v)) := by
  rw [copyFromUserspaceString_eq hptr haddr hfind hkptr] at h
  rw [← hx, ← h]
  apply stringPages_settled
  · rw [hx]; exact hover
  · rw [h]; simp

/-- A null pointer stops the function. -/
theorem copiesString_null : ¬ CopiesString vm pdir 0#32 n addr buffer := by
  rintro ⟨rounds, r, b, v, hrun, -⟩
  simp only [copyFromUserspaceString, bind_eq_ok, assert_eq_ok] at hrun
  obtain ⟨-, ⟨hne, -⟩, -⟩ := hrun
  exact hne rfl

/-- With a free page below the last one. -/
theorem copiesString_below (h : StringCall vm a n addr) (hptr : ptr ≠ 0#32)
    (hrun : ∃ j, 1 ≤ j ∧ j < 0xFFFFF ∧ vm.entry .kernel j = 0#32) :
    CopiesString vm (.user a) ptr n addr buffer ↔ ¬ FillsToPageEnd vm (.user a) ptr n.toNat ∧
      ∀ k, UserString vm (.user a) ptr k → k + 1 ≤ n.toNat → k < 0x80000000 := by
  have hn := n.isLt
  obtain ⟨j, u, hfind, hj1, hj, hs, hf, hfree⟩ := findVspace_scratch_one h.kernel hrun
  have hkptr : j * 4096 ≠ 0 := by omega
  have hstart : NoNul vm (.user a) ptr 0 := fun i hi => absurd hi (Nat.not_lt_zero i)
  obtain ⟨rounds, hres⟩ := stringPages_spec h.kernel h.agree hj hfree h.object (toNat_pos h.pos)
    hstart hs hf ⟨fun l hl => absurd hl (Nat.not_lt_zero l), fun l (_ : n.toNat ≤ l) => rfl⟩
  rw [← copyFromUserspaceString_eq hptr h.buffer hfind hkptr] at hres
  constructor
  · rintro ⟨rounds', r, b, v, hrun', hk, -⟩
    refine ⟨?_, fun k hstr hkn => ?_⟩
    · rw [copyFromUserspaceString_eq hptr h.buffer hfind hkptr] at hres
      rcases hres with ⟨k, b', u', hstr, hkn, -⟩ | ⟨-, hx⟩ | ⟨hend, -⟩
      · exact hstr.not_fillsToPageEnd hkn
      · have := CopiesString.settled hrun' hptr h.buffer hfind hkptr hx (by simp)
        cases this
      · exact hend
    · have hr := (hk k).2 ⟨hstr, hkn⟩
      have hlt := @BitVec.toInt_lt 32 r
      omega
  · rintro ⟨hend, hshort⟩
    rcases hres with ⟨k, b, u', hstr, hkn, hx, hc, hrest, hf'⟩ | ⟨hbad, -⟩ | ⟨-, hno, b, u', hx, hb, hrest, hf'⟩
    · have hr : (BitVec.ofNat 32 k).toInt = k := by
        have := hshort k hstr hkn
        rw [BitVec.toInt_eq_toNat_of_lt] <;> rw [BitVec.toNat_ofNat] <;> omega
      refine ⟨rounds, _, b, u', hx, fun l => ?_, fun l hl _ i hi => ?_, fun hnone => absurd hkn (hnone k hstr),
        hc.behind, hrest, hf'⟩
      · rw [hr]
        constructor
        · intro heq
          have hkl : k = l := by omega
          subst hkl
          exact ⟨hstr, hkn⟩
        · rintro ⟨hl, -⟩
          rw [hstr.unique hl]
      · have hkl := hstr.unique hl
        exact hc.copied i (by omega)
    · exact absurd hbad hend
    · exact ⟨rounds, _, b, u', hx, fun k => ⟨fun hk => absurd hk (minus_one_ne k), fun hk => absurd hk.2 (hno k hk.1)⟩,
        fun k hk hkn => absurd hkn (hno k hk), fun _ => rfl, hb, hrest, hf'⟩

/-- With the last page as the only free one. -/
theorem copiesString_last (h : StringCall vm a n addr) (hptr : ptr ≠ 0#32)
    (hused : ∀ j, 1 ≤ j → j < 0xFFFFF → vm.entry .kernel j ≠ 0#32) (hfree : vm.entry .kernel 0xFFFFF = 0#32) :
    CopiesString vm (.user a) ptr n addr buffer ↔ (∀ k, UserString vm (.user a) ptr k → ¬ k + 1 ≤ n.toNat) ∧
      ∃ m < 0x100000, ¬ UserEntry (vm.entry (.user a) m) := by
  have hfind : findVspace .kernel 1 vm = .ok (0xFFFFF * 4096, vm) := by
    rw [findVspace_kernel, findVspaceKernel_first h.kernel (by omega) (by omega) hfree hused, if_pos rfl]
  have hkptr : 0xFFFFF * 4096 ≠ 0 := by omega
  have hstart : ∀ rounds, copyFromUserspaceString vm (.user a) ptr n addr buffer rounds =
      lastPages a ptr addr n.toNat rounds 0 (byteAddr ptr 0 % 4096) buffer vm := by
    intro rounds
    rw [copyFromUserspaceString_eq hptr h.buffer hfind hkptr, lastPages, Nat.zero_mul]
  by_cases hall : ∀ d, UserAt vm (.user a) ptr (d * 4096)
  · have hall' := userAt_pages.1 hall
    constructor
    · rintro ⟨rounds, r, b, v, hrun, -⟩
      rw [hstart, lastPages_runs h.kernel h.agree hfree (toNat_pos h.pos) SameBut.refl rfl (fun _ _ => rfl) hall]
        at hrun
      cases hrun
    · rintro ⟨-, m, hm, hbad⟩
      exact absurd (hall' m hm) hbad
  · have hbad := hall
    push Not at hbad
    obtain ⟨d, hd⟩ := hbad
    rw [← Nat.zero_add d] at hd
    obtain ⟨rounds, b, u', hx, hb, hrest, hf⟩ := lastPages_ends h.kernel h.agree hfree (toNat_pos h.pos)
      SameBut.refl rfl (fun l (_ : n.toNat ≤ l) => rfl) hd addr (byteAddr ptr 0 % 4096)
    have hx' := hx
    rw [lastPages, Nat.zero_mul] at hx'
    have hpage : ∃ m < 0x100000, ¬ UserEntry (vm.entry (.user a) m) := by
      by_contra hno
      push Not at hno
      exact hall (userAt_pages.2 hno)
    constructor
    · rintro ⟨rounds', r, b', v, hrun, hk, -⟩
      have hset := CopiesString.settled hrun hptr h.buffer hfind hkptr hx' (by simp)
      simp only [Except.ok.injEq, Option.some.injEq, Prod.mk.injEq] at hset
      obtain ⟨rfl, -⟩ := hset
      exact ⟨fun k hstr hkn => minus_one_ne k ((hk k).2 ⟨hstr, hkn⟩), hpage⟩
    · rintro ⟨hno, -⟩
      rw [← hstart] at hx
      exact ⟨rounds, _, b, u', hx, fun k => ⟨fun hk => absurd hk (minus_one_ne k), fun hk => absurd hk.2 (hno k hk.1)⟩,
        fun k hk hkn => absurd hkn (hno k hk), fun _ => rfl, hb, hrest, hf⟩

/-- The address that a search without a result returns stops the mapper. -/
theorem stringPages_noVspace {n rounds p offset i : Nat} {r : StringRet} :
    stringPages pdir noVspace addr n rounds p offset i buffer vm ≠ .ok (some r) := by
  intro hrun
  cases rounds with
  | zero => cases hrun
  | succ rounds =>
    simp only [stringPages, mapUserspaceToKernel, bind_eq_ok, assert_eq_ok] at hrun
    obtain ⟨-, ⟨-, ⟨-, hal, -⟩, -⟩, -⟩ := hrun
    exact absurd hal (by decide)

/-- So does a string without a free page. -/
theorem copiesString_full (h : StringCall vm a n addr) (hptr : ptr ≠ 0#32)
    (hused : ∀ j, 1 ≤ j → j < 0x100000 → vm.entry .kernel j ≠ 0#32) :
    ¬ CopiesString vm (.user a) ptr n addr buffer := by
  rintro ⟨rounds, r, b, v, hrun, -⟩
  obtain ⟨kptr, u, hfind, -⟩ := findVspaceKernel_total h.kernel Nat.one_ne_zero
  rcases findVspaceKernel_one hfind with ⟨rfl, -⟩ | ⟨j, hj1, hj, -, hfree, -⟩
  · rw [← findVspace_kernel] at hfind
    rw [copyFromUserspaceString_eq hptr h.buffer hfind (by decide)] at hrun
    exact stringPages_noVspace hrun
  · exact hused j hj1 hj hfree

end Call

/-- **Strings.** The call does what its callers expect exactly when `ptr` is not 0 and one of two holds. Either there is
a free kernel page below the last one, the buffer is not filled just at the end of a page, and the length of the string
is no negative number; or the last kernel page is the only free one, there is no string that fits, and not every page is
the user's. -/
theorem copies_string_iff (vm : Vm) (a : Nat) (ptr n : Word) (addr : Nat) (buffer : Nat → Byte)
    (h : StringCall vm a n addr) :
    CopiesString vm (.user a) ptr n addr buffer ↔ ptr ≠ 0#32 ∧
      ((∃ j, 1 ≤ j ∧ j < 0xFFFFF ∧ vm.entry .kernel j = 0#32) ∧ ¬ FillsToPageEnd vm (.user a) ptr n.toNat ∧
          (∀ k, UserString vm (.user a) ptr k → k + 1 ≤ n.toNat → k < 0x80000000) ∨
        (∀ j, 1 ≤ j → j < 0xFFFFF → vm.entry .kernel j ≠ 0#32) ∧ vm.entry .kernel 0xFFFFF = 0#32 ∧
          (∀ k, UserString vm (.user a) ptr k → ¬ k + 1 ≤ n.toNat) ∧
          ∃ m < 0x100000, ¬ UserEntry (vm.entry (.user a) m)) := by
  by_cases hptr : ptr = 0#32
  · subst hptr
    exact ⟨fun hc => absurd hc copiesString_null, fun hr => absurd rfl hr.1⟩
  · by_cases hrun : ∃ j, 1 ≤ j ∧ j < 0xFFFFF ∧ vm.entry .kernel j = 0#32
    · rw [copiesString_below h hptr hrun]
      constructor
      · exact fun hr => ⟨hptr, Or.inl ⟨hrun, hr⟩⟩
      · rintro ⟨-, ⟨-, hr⟩ | ⟨hused, -⟩⟩
        · exact hr
        · obtain ⟨j, hj1, hj, hfree⟩ := hrun
          exact absurd hfree (hused j hj1 hj)
    · have hused : ∀ j, 1 ≤ j → j < 0xFFFFF → vm.entry .kernel j ≠ 0#32 :=
        fun j hj1 hj hfree => hrun ⟨j, hj1, hj, hfree⟩
      by_cases hlast : vm.entry .kernel 0xFFFFF = 0#32
      · rw [copiesString_last h hptr hused hlast]
        constructor
        · exact fun hr => ⟨hptr, Or.inr ⟨hused, hlast, hr⟩⟩
        · rintro ⟨-, ⟨hr, -⟩ | ⟨-, -, hr⟩⟩
          · exact absurd hr hrun
          · exact hr
      · constructor
        · intro hc
          refine absurd hc (copiesString_full h hptr fun j hj1 hj => ?_)
          by_cases hj' : j = 0xFFFFF
          · rw [hj']; exact hlast
          · exact hused j hj1 (by omega)
        · rintro ⟨-, ⟨hr, -⟩ | ⟨-, hr, -⟩⟩
          · exact absurd hr hrun
          · exact absurd hr hlast

/-- The buffer of `syscall_open`, for a process on a machine whose memory holds `byte`. -/
theorem openVm_stringCall (byte : Byte) : StringCall { openVm with frames := fun _ _ => byte } 0 256#32 0x2000 where
  kernel := openVm_tables
  agree := ⟨fun _ h => absurd (show (1#32 : Word) = 0#32 from h) (by decide), fun _ _ => rfl⟩
  pos := by decide
  buffer := by decide
  object := by decide

/-- A process with two pages, in the blocks 16 and 5. -/
def pathDir : PageDirectory where
  physicalTablesVirt := 0
  physicalTables k := if k = 0 then 1#32 else 0#32
  tables k := if k = 0 then some ⟨0, fun i => if i = 1 then 0x10007#32 else if i = 2 then 0x5007#32 else 0#32⟩ else none
  physicalAddress := 0
  refcount := 1

/-- The string `"/bin"` in the last two bytes of the one block and the first ones of the other. -/
def pathVm : Vm := { openVm with
  dirs := Function.update (fun _ => pathDir) .kernel (fullDir 0#32)
  frames := fun f i =>
    if f = 16 then (if i = 0xFFE then 0x2F#8 else 0x62#8)
    else if i = 0 then 0x69#8
    else if i = 1 then 0x6E#8
    else 0#8 }

theorem pathVm_string : UserString pathVm (.user 0) 0x1FFE#32 4 := by
  refine ⟨?_, by decide, rfl⟩
  unfold UserAt UserEntry
  decide

theorem pathDir_agree : TablesAgree pathDir := by
  refine ⟨fun k h => ?_, fun k h => ?_⟩
  · by_cases hk : k = 0
    · subst hk
      exact absurd h (by decide)
    · simp [pathDir, hk]
  · by_cases hk : k = 0
    · simp [pathDir, hk]
    · simp [pathDir, hk] at h

theorem pathVm_stringCall : StringCall pathVm 0 256#32 0x2000 where
  kernel := fun _ _ => ⟨⟨_, rfl⟩, rfl⟩
  agree := pathDir_agree
  pos := by decide
  buffer := by decide
  object := by decide

/-- A string that goes across the end of a page is copied. -/
theorem copies_string_two_pages : ∃ rounds buffer vm,
    copyFromUserspaceString pathVm (.user 0) 0x1FFE#32 256#32 0x2000 (fun _ => 1#8) rounds =
      .ok (some (4#32, buffer, vm)) ∧
    (List.range 5).map buffer = [0x2F#8, 0x62#8, 0x69#8, 0x6E#8, 0#8] := by
  have hfree : ∃ j, 1 ≤ j ∧ j < 0xFFFFF ∧ pathVm.entry .kernel j = 0#32 := ⟨1, le_rfl, by decide, rfl⟩
  have hshort : ∀ k, UserString pathVm (.user 0) 0x1FFE#32 k → k + 1 ≤ (256#32).toNat → k < 0x80000000 := by
    intro k _ hk
    have hlt : k + 1 ≤ 256 := hk
    omega
  obtain ⟨rounds, r, buffer, vm, hrun, hresult, hbytes, -⟩ :=
    (copies_string_iff pathVm 0 0x1FFE#32 256#32 0x2000 (fun _ => 1#8) pathVm_stringCall).2
      ⟨by decide, Or.inl ⟨hfree, fun hend => absurd hend.2 (by decide), hshort⟩⟩
  have hr : r.toInt = (4 : Nat) := (hresult 4).2 ⟨pathVm_string, by decide⟩
  have hr4 : r = 4#32 := BitVec.eq_of_toInt_eq hr
  subst hr4
  have hcopied : (List.range 5).map buffer = (List.range 5).map (userByte pathVm (.user 0) 0x1FFE#32) :=
    List.map_congr_left fun i hi =>
      hbytes 4 pathVm_string (by decide) i (Nat.le_of_lt_succ (List.mem_range.1 hi))
  exact ⟨rounds, buffer, vm, hrun, hcopied.trans (by decide)⟩

/-- A null pointer, and 256 bytes without a NUL in front of the end of a page. -/
theorem string_null_and_page_end :
    StringCall { openVm with frames := fun _ _ => 1#8 } 0 256#32 0x2000 ∧
    ¬ CopiesString { openVm with frames := fun _ _ => 1#8 } (.user 0) 0#32 256#32 0x2000 (fun _ => 0#8) ∧
    ¬ CopiesString { openVm with frames := fun _ _ => 1#8 } (.user 0) 0x1F00#32 256#32 0x2000 (fun _ => 0#8) := by
  refine ⟨openVm_stringCall 1#8, copiesString_null, fun hc => ?_⟩
  have hfree : ∃ j, 1 ≤ j ∧ j < 0xFFFFF ∧ ({ openVm with frames := fun _ _ => 1#8 } : Vm).entry .kernel j = 0#32 :=
    ⟨1, le_rfl, by decide, rfl⟩
  refine ((copiesString_below (openVm_stringCall 1#8) (by decide) hfree).1 hc).1 ⟨fun i _ => ⟨?_, ?_⟩, by decide⟩
  · show UserEntry 7#32
    exact ⟨by decide, by decide, by decide⟩
  · show (1#8 : Byte) ≠ 0#8
    decide

end Myunix.Syscall
