import Myunix.Tar.Archive

/-!
# Well-formed archives

An archive is a list of blocks: a header whose name ends with a NUL, and the data of the file, in units of 512 bytes;
blocks of zeroes mark its end (`Archive`). On its bytes the loop over the headers visits them in order
(`tarForeach_archive`), and its bodies see the names alone: `lookupBody_eq` for `tar_lookup`, `readdirBody_eq` for
`tar_readdir`.
-/

namespace Myunix.Tar

open Lib Fs

/-! ## The format -/

/-- A header and the data behind it. `rest` are the bytes of the header behind the NUL of its name. -/
structure TarBlock where
  name : CString
  rest : List Byte
  body : List Byte
  name_le : strlen name ≤ 98
  length : (name.bytes ++ 0 :: rest).length = 512
  body_length : body.length = (fsize (name.bytes ++ 0 :: rest) + 511) / 512 * 512

/-- The header of a block. -/
def TarBlock.header (e : TarBlock) : List Byte := e.name.bytes ++ 0 :: e.rest

theorem zeroes_length : ([] ++ (0 : Byte) :: List.replicate 511 0).length = 512 := by
  rw [List.nil_append, List.length_cons, List.length_replicate]

theorem zeroes_body : ([] : List Byte).length = (fsize ([] ++ 0 :: List.replicate 511 0) + 511) / 512 * 512 := by
  decide

/-- A block of zeroes. -/
def zeroBlock : TarBlock where
  name := .empty
  rest := List.replicate 511 0
  body := []
  name_le := Nat.zero_le 98
  length := zeroes_length
  body_length := zeroes_body

/-- The bytes of blocks. -/
def blockBytes (blocks : List TarBlock) : List Byte := blocks.flatMap fun e => e.header ++ e.body

/-- Components are separated by `/`; none of them is `.`. -/
def NoDot (name : CString) : Prop :=
  ∀ a b, name.bytes = a ++ 0x2E :: b →
    ¬ ((a = [] ∨ a.getLast? = some slash) ∧ (b = [] ∨ b.head? = some slash))

/-- An archive: its entries, and the number of zero blocks behind them. -/
structure Archive where
  entries : List TarBlock
  zeros : Nat
  named : ∀ e ∈ entries, e.name.bytes ≠ []
  distinct : (entries.map (·.name)).Nodup
  noDot : ∀ e ∈ entries, NoDot e.name
  fits : (blockBytes (entries ++ List.replicate zeros zeroBlock)).length + 512 < 0x100000000

/-- All blocks of an archive. -/
def Archive.blocks (A : Archive) : List TarBlock := A.entries ++ List.replicate A.zeros zeroBlock

/-- The ramdisk with the archive. -/
def Archive.device (A : Archive) : Ramdisk := ⟨blockBytes A.blocks, A.fits⟩

/-! ## The loop -/

section Loop

variable {σ ρ : Type} {device : Ramdisk} {body : σ → Nat → List Byte → Kernel (σ ⊕ ρ)}

/-- The loop over blocks from `ptr` on. -/
def foldBlocks (body : σ → Nat → List Byte → Kernel (σ ⊕ ρ)) : Nat → List TarBlock → σ → Kernel (σ ⊕ ρ)
  | _, [], st => .ok (.inl st)
  | ptr, e :: blocks, st => do
    match ← body st ptr e.header with
    | .inr r => return .inr r
    | .inl st => foldBlocks body (ptr + 512 + e.body.length) blocks st

/-- The offset of the next header. -/
theorem TarBlock.entryLength (e : TarBlock) (h : e.body.length + 1024 < 0x100000000) :
    tarEntryLength e.header = 512 + e.body.length := by
  have hb : e.body.length = (fsize e.header + 511) / 512 * 512 := e.body_length
  unfold tarEntryLength
  rw [Nat.mod_eq_of_lt (by omega : fsize e.header + 511 < 0x100000000), Nat.mod_eq_of_lt (by omega)]
  omega

theorem ramdiskRead_header {before behind : List Byte} {e : TarBlock}
    (hdata : device.data = before ++ (e.header ++ behind)) :
    ramdiskRead device before.length 512 = e.header := by
  have hlen : e.header.length = 512 := e.length
  have hall : device.data.length = before.length + (512 + behind.length) := by
    rw [hdata, List.length_append, List.length_append, hlen]
  have hfits := device.fits
  unfold ramdiskRead
  rw [if_neg (by omega), Nat.mod_eq_of_lt (by omega)]
  simp only [if_neg (show ¬ before.length + 512 > device.data.length by omega)]
  rw [hdata, List.drop_left, ← hlen, List.take_left]

/-- At the end of the device a read is short. -/
theorem ramdiskRead_end : (ramdiskRead device device.data.length 512).length ≠ 512 := by
  have hfits := device.fits
  unfold ramdiskRead
  rw [if_neg (by omega)]
  simp

/-- **The loop visits the blocks in order.** -/
theorem tarForeachEntry_blocks {blocks : List TarBlock} (before : List Byte) {fuel : Nat} {st : σ}
    (hdata : device.data = before ++ blockBytes blocks) (hfuel : blocks.length < fuel) :
    tarForeachEntry device body fuel before.length st = foldBlocks body before.length blocks st := by
  -- induction on the blocks to come; `before` holds those that were visited
  induction blocks generalizing before fuel st with
  | nil =>
    obtain ⟨fuel, rfl⟩ : ∃ n, fuel = n + 1 := ⟨fuel - 1, by simp at hfuel; omega⟩
    have hend : before.length = device.data.length := by simp [hdata, blockBytes]
    rw [tarForeachEntry, hend, if_neg ramdiskRead_end, foldBlocks]
  | cons e blocks ih =>
    obtain ⟨fuel, rfl⟩ : ∃ n, fuel = n + 1 := ⟨fuel - 1, by simp at hfuel; omega⟩
    have hsplit : device.data = before ++ (e.header ++ (e.body ++ blockBytes blocks)) := by
      rw [hdata, blockBytes, List.flatMap_cons, List.append_assoc]
      rfl
    have hlen : e.header.length = 512 := e.length
    have hall : device.data.length = before.length + (512 + (e.body.length + (blockBytes blocks).length)) := by
      rw [hsplit]
      simp only [List.length_append, hlen]
    have hfits := device.fits
    have hptr : (before ++ e.header ++ e.body).length = before.length + 512 + e.body.length := by
      simp only [List.length_append, hlen]
    have hnext : ∀ st, tarForeachEntry device body fuel (before.length + 512 + e.body.length) st =
        foldBlocks body (before.length + 512 + e.body.length) blocks st := by
      intro st
      rw [← hptr]
      refine ih _ ?_ (Nat.lt_of_succ_lt_succ hfuel)
      rw [hsplit]
      simp only [List.append_assoc]
    rw [tarForeachEntry, ramdiskRead_header hsplit, if_pos hlen, foldBlocks, e.entryLength (by omega),
      Nat.mod_eq_of_lt (by omega), ← Nat.add_assoc]
    cases body st before.length e.header with
    | error err => rfl
    | ok r =>
      cases r with
      | inl st => exact hnext st
      | inr r => rfl

theorem blocks_length_le (blocks : List TarBlock) : blocks.length * 512 ≤ (blockBytes blocks).length := by
  induction blocks with
  | nil => exact Nat.zero_le _
  | cons e blocks ih =>
    have hcons : (blockBytes (e :: blocks)).length = 512 + e.body.length + (blockBytes blocks).length := by
      simp only [blockBytes, List.flatMap_cons, List.length_append, show e.header.length = 512 from e.length]
    calc (e :: blocks).length * 512 = blocks.length * 512 + 512 := Nat.succ_mul _ _
      _ ≤ (blockBytes blocks).length + 512 := Nat.add_le_add_right ih 512
      _ ≤ (blockBytes (e :: blocks)).length := by rw [hcons]; omega

/-- **The loop over the headers of an archive.** -/
theorem tarForeach_archive (A : Archive) (st : σ) : tarForeach A.device body st = foldBlocks body 0 A.blocks st := by
  have hlen := blocks_length_le A.blocks
  apply tarForeachEntry_blocks [] rfl
  show A.blocks.length < (blockBytes A.blocks).length / 512 + 1
  omega

end Loop

/-! ## Names in headers -/

section Bytes

variable {n p rest s e r : List Byte}

/-- A header is compared with a name over the length of the name. -/
theorem memcmp_header (n rest p : List Byte) (hp : (0 : Byte) ∉ p) :
    ∃ r, memcmp (n ++ 0 :: rest) (p ++ [0]) p.length = .ok r ∧ (r = 0 ↔ p <+: n) := by
  induction p generalizing n with
  | nil => exact ⟨0, by cases n <;> rfl, by simp⟩
  | cons x p ih =>
    have hx : x ≠ 0 := fun h => hp (h ▸ List.mem_cons_self)
    cases n with
    | nil =>
      obtain ⟨r, hr, h0⟩ := memcmp_ne hx.symm rest (p ++ [0]) p.length
      exact ⟨r, hr, by simp [h0]⟩
    | cons y n =>
      by_cases hyx : y = x
      · subst hyx
        obtain ⟨r, hr, h⟩ := ih n (fun h => hp (List.mem_cons_of_mem _ h))
        exact ⟨r, (memcmp_self y _ _ _).trans hr, by rw [h, List.prefix_cons_inj]⟩
      · obtain ⟨r, hr, h0⟩ := memcmp_ne hyx (n ++ 0 :: rest) (p ++ [0]) p.length
        exact ⟨r, hr, by simp [h0, List.cons_prefix_cons, Ne.symm hyx]⟩

/-- The same with the NUL. -/
theorem memcmp_header_eq (n rest p : List Byte) (hn : (0 : Byte) ∉ n) (hp : (0 : Byte) ∉ p) :
    ∃ r, memcmp (n ++ 0 :: rest) (p ++ [0]) (p.length + 1) = .ok r ∧ (r = 0 ↔ n = p) := by
  induction p generalizing n with
  | nil =>
    cases n with
    | nil => exact ⟨0, by simp [memcmp], by simp⟩
    | cons y n =>
      obtain ⟨r, hr, h0⟩ := memcmp_ne (fun h => hn (h ▸ List.mem_cons_self) : y ≠ 0) (n ++ 0 :: rest) [] 0
      exact ⟨r, hr, by simp [h0]⟩
  | cons x p ih =>
    have hx : x ≠ 0 := fun h => hp (h ▸ List.mem_cons_self)
    cases n with
    | nil =>
      obtain ⟨r, hr, h0⟩ := memcmp_ne hx.symm rest (p ++ [0]) (p.length + 1)
      exact ⟨r, hr, by simp [h0]⟩
    | cons y n =>
      by_cases hyx : y = x
      · subst hyx
        obtain ⟨r, hr, h⟩ := ih n (fun h => hn (List.mem_cons_of_mem _ h)) (fun h => hp (List.mem_cons_of_mem _ h))
        exact ⟨r, (memcmp_self y _ _ _).trans hr, by rw [h]; simp⟩
      · obtain ⟨r, hr, h0⟩ := memcmp_ne hyx (n ++ 0 :: rest) (p ++ [0]) (p.length + 1)
        exact ⟨r, hr, by simp [h0, hyx]⟩

theorem byteAt_append (a : List Byte) (c : Byte) (b : List Byte) : byteAt (a ++ c :: b) a.length = .ok c := by
  simp [byteAt]

/-- The length of the first path element of a buffer. -/
theorem pathElementSize_eq (he : (0 : Byte) ∉ e) (hslash : slash ∉ e) (hr : r.head? = some 0 ∨ r.head? = some slash) :
    pathElementSize (e ++ r) = .ok e.length := by
  induction e with
  | nil =>
    cases r with
    | nil => simp at hr
    | cons c r =>
      have hc : ¬ (c ≠ 0 ∧ c ≠ slash) := by
        rintro ⟨hzero, hslash⟩
        simp only [List.head?_cons, Option.some.injEq] at hr
        exact hr.elim hzero hslash
      rw [List.nil_append, pathElementSize, if_neg hc]
      rfl
  | cons c e ih =>
    have hc : c ≠ 0 ∧ c ≠ slash := ⟨fun h => he (h ▸ List.mem_cons_self), fun h => hslash (h ▸ List.mem_cons_self)⟩
    rw [List.cons_append, pathElementSize, if_pos hc,
      ih (fun h => he (List.mem_cons_of_mem _ h)) (fun h => hslash (List.mem_cons_of_mem _ h)), ok_bind]
    rfl

end Bytes

/-- A name is the path or the path with a `/` behind it, as directories have it. -/
def NameOf (path n : List Byte) : Prop := n = path ∨ n = path ++ [slash]

instance (path n : List Byte) : Decidable (NameOf path n) := inferInstanceAs (Decidable (_ ∨ _))

/-- **`tar_lookup`** takes the names of the path. -/
theorem lookupBody_eq (e : TarBlock) (path : CString) (ptr : Nat) : lookupBody path ⟨⟩ ptr e.header =
    .ok (if NameOf path.bytes e.name.bytes then .inr (ptr, e.header) else .inl ⟨⟩) := by
  obtain ⟨r, hr, hstart⟩ := memcmp_header e.name.bytes e.rest path.bytes path.nonzero
  have hmem : memcmp e.header path.mem (strlen path) = .ok r := hr
  rw [lookupBody, hmem, ok_bind]
  by_cases hno : ¬ path.bytes <+: e.name.bytes
  · rw [if_neg fun h => hno (hstart.1 h), if_neg]
    · rfl
    · rintro (h | h)
      · exact hno ⟨[], by rw [List.append_nil, h]⟩
      · exact hno ⟨_, h.symm⟩
  have hp := not_not.1 hno
  rw [if_pos (hstart.2 hp)]
  obtain ⟨t, ht⟩ := hp
  have hnonzero := e.name.nonzero
  have hheader : e.header = path.bytes ++ (t ++ 0 :: e.rest) := by
    rw [TarBlock.header, ← ht, List.append_assoc]
  have hname : NameOf path.bytes e.name.bytes ↔ t = [] ∨ t = [slash] := by
    rw [NameOf, ← ht, List.append_right_eq_self, List.append_cancel_left_eq]
  simp only [hname]
  rw [← ht] at hnonzero
  rw [hheader, strlen]
  cases t with
  | nil =>
    rw [List.nil_append, byteAt_append, ok_bind, if_pos rfl, if_pos (.inl rfl)]
    rfl
  | cons c t =>
    have hc : c ≠ 0 := fun h => hnonzero (List.mem_append_right _ (h ▸ List.mem_cons_self))
    rw [List.cons_append, byteAt_append, ok_bind, if_neg hc]
    by_cases hslash : c = slash
    · subst hslash
      have hnext : path.bytes ++ slash :: (t ++ 0 :: e.rest) = (path.bytes ++ [slash]) ++ (t ++ 0 :: e.rest) := by simp
      have hlen : path.bytes.length + 1 = (path.bytes ++ [slash]).length := by simp
      rw [if_pos rfl, hnext, hlen]
      cases t with
      | nil =>
        rw [List.nil_append, byteAt_append, ok_bind, if_pos rfl, if_pos (.inr rfl)]
        rfl
      | cons c' t =>
        have hc' : c' ≠ 0 := fun h =>
          hnonzero (List.mem_append_right _ (List.mem_cons_of_mem _ (h ▸ List.mem_cons_self)))
        rw [List.cons_append, byteAt_append, ok_bind, if_neg hc', if_neg (by simp)]
        rfl
    · rw [if_neg hslash, if_neg (by simp [hslash])]
      rfl

/-! ## Listed names -/

/-- A `/` in front is taken off. -/
def stripSlash (r : List Byte) : List Byte := if r.head? = some slash then r.tail else r

/-- The element that a path of one element consists of. -/
def elementOf (r : List Byte) : Option (List Byte) :=
  let element := r.takeWhile (· ≠ slash)
  if r = [] then none else if NameOf element r then some element else none

/-- What `tar_readdir` lists for a name in a directory. -/
def listedName (dir n : List Byte) : Option (List Byte) :=
  if dir <+: n then elementOf (stripSlash (n.drop dir.length)) else none

section Listed

variable {r rest t : List Byte}

theorem copySubname_eq (rest : List Byte) (hr : (0 : Byte) ∉ r) (hlen : r.length ≤ 98) :
    ∃ zeros, copySubname (r ++ 0 :: rest) = r ++ 0 :: 0 :: zeros := by
  refine ⟨List.replicate (98 - r.length) 0, ?_⟩
  rw [copySubname, takeWhile_nonzero _ hr, List.take_of_length_le (by omega),
    show 100 - r.length = 98 - r.length + 1 + 1 by omega, List.replicate_succ, List.replicate_succ]

theorem stripSlash_suffix (r : List Byte) : stripSlash r <:+ r := by
  unfold stripSlash
  split
  · exact List.tail_suffix r
  · exact List.suffix_refl r

/-- A name up to its first `/`. -/
theorem element_split (r : List Byte) : ∃ el tl, r = el ++ tl ∧ r.takeWhile (· ≠ slash) = el ∧ slash ∉ el ∧
    (tl = [] ∨ ∃ u, tl = slash :: u) := by
  induction r with
  | nil => exact ⟨[], [], rfl, rfl, List.not_mem_nil, .inl rfl⟩
  | cons c r ih =>
    by_cases hc : c = slash
    · exact ⟨[], c :: r, rfl, by rw [List.takeWhile_cons_of_neg (by simpa using hc)], List.not_mem_nil,
        .inr ⟨r, by rw [hc]⟩⟩
    · obtain ⟨el, tl, rfl, hel, hslash, htl⟩ := ih
      refine ⟨c :: el, tl, rfl, ?_, ?_, htl⟩
      · rw [List.takeWhile_cons_of_pos (by simpa using hc), hel]
      · simp only [List.mem_cons, not_or]
        exact ⟨Ne.symm hc, hslash⟩

/-- The part of `tar_readdir` that looks at the name behind the directory's. -/
theorem entryName_eq (dir rest : List Byte) (ht : (0 : Byte) ∉ t) (hlen : t.length ≤ 98) :
    ∃ name, entryName dir.length (dir ++ (t ++ 0 :: rest)) = .ok name ∧
      name.map (·.bytes) = elementOf (stripSlash t) := by
  -- the byte behind the name of the directory
  obtain ⟨c, hc, hdrop⟩ : ∃ c, byteAt (dir ++ (t ++ 0 :: rest)) dir.length = .ok c ∧
      (dir ++ (t ++ 0 :: rest)).drop (if c = slash then dir.length + 1 else dir.length) = stripSlash t ++ 0 :: rest := by
    cases t with
    | nil => exact ⟨0, byteAt_append _ _ _, by rw [if_neg (by decide), List.drop_left]; rfl⟩
    | cons c t =>
      refine ⟨c, byteAt_append _ _ _, ?_⟩
      unfold stripSlash
      by_cases hs : c = slash
      · subst hs
        rw [if_pos rfl, ← List.drop_drop, List.drop_left]
        rfl
      · rw [if_neg hs, if_neg (by simpa using hs), List.drop_left]
  have hr : (0 : Byte) ∉ stripSlash t := fun h => ht ((stripSlash_suffix t).subset h)
  have hrlen : (stripSlash t).length ≤ 98 := Nat.le_trans (stripSlash_suffix t).length_le hlen
  obtain ⟨zeros, hsub⟩ := copySubname_eq rest hr hrlen
  rw [entryName, hc, ok_bind]
  simp only [hdrop, hsub]
  generalize stripSlash t = r at hr
  unfold elementOf
  cases r with
  | nil =>
    refine ⟨none, ?_, rfl⟩
    rw [List.nil_append, show byteAt (0 :: 0 :: zeros) 0 = .ok 0 from rfl, ok_bind, if_pos rfl]
    rfl
  | cons x r =>
    have hx : x ≠ 0 := fun h => hr (h ▸ List.mem_cons_self)
    rw [show byteAt (x :: r ++ 0 :: 0 :: zeros) 0 = .ok x from rfl, ok_bind, if_neg hx]
    obtain ⟨el, tl, hsplit, hel, hslash, htl⟩ := element_split (x :: r)
    have hel0 : (0 : Byte) ∉ el := fun h => hr (hsplit ▸ List.mem_append_left _ h)
    simp only [hel, List.cons_ne_nil, if_false]
    rw [hsplit] at hr ⊢
    rw [List.append_assoc]
    rcases htl with rfl | ⟨u, rfl⟩
    · refine ⟨some (cstringAt (el ++ 0 :: 0 :: zeros)), ?_, ?_⟩
      · rw [List.nil_append, pathElementSize_eq hel0 hslash (.inl rfl), ok_bind, byteAt_append, ok_bind,
          if_neg (by decide)]
        rfl
      · rw [Option.map_some, cstringAt_append _ hel0, if_pos (.inl (List.append_nil el))]
    · have hset : (el ++ slash :: (u ++ 0 :: 0 :: zeros)).set el.length 0 = el ++ 0 :: (u ++ 0 :: 0 :: zeros) := by
        simp
      have hnext : el ++ slash :: (u ++ 0 :: 0 :: zeros) = (el ++ [slash]) ++ (u ++ 0 :: 0 :: zeros) := by simp
      have hplus : el.length + 1 = (el ++ [slash]).length := by simp
      rw [List.cons_append, pathElementSize_eq hel0 hslash (.inr rfl), ok_bind, byteAt_append, ok_bind, if_pos rfl, hset]
      rw [hnext, hplus]
      cases u with
      | nil =>
        refine ⟨some (cstringAt (el ++ 0 :: 0 :: 0 :: zeros)), ?_, ?_⟩
        · rw [List.nil_append, byteAt_append, ok_bind, if_neg (by decide)]
          rfl
        · rw [Option.map_some, cstringAt_append _ hel0, if_pos (.inr rfl)]
      | cons c' u =>
        have hc' : c' ≠ 0 := fun h => hr (List.mem_append_right _ (List.mem_cons_of_mem _ (h ▸ List.mem_cons_self)))
        refine ⟨none, ?_, ?_⟩
        · rw [List.cons_append, byteAt_append, ok_bind, if_pos hc']
          rfl
        · rw [if_neg, Option.map_none]
          rintro (h | h)
          · simp at h
          · simp at h

/-- **One round of `tar_readdir`**, on any header but that of the root. -/
theorem readdirBody_eq (e : TarBlock) (dir : CString) (i j ptr : Nat) (hdot : e.name.bytes ≠ dotSlash.bytes) :
    ∃ name, name.map (·.bytes) = listedName dir.bytes e.name.bytes ∧ readdirBody dir i j ptr e.header =
      .ok (match name with
        | none => .inl j
        | some name => if j + 1 = i then .inr ⟨i, name⟩ else .inl (j + 1)) := by
  obtain ⟨r, hr, hroot⟩ := memcmp_header_eq e.name.bytes e.rest dotSlash.bytes e.name.nonzero dotSlash.nonzero
  obtain ⟨r', hr', hstart⟩ := memcmp_header e.name.bytes e.rest dir.bytes dir.nonzero
  have hmem : memcmp e.header dotSlash.mem 3 = .ok r := hr
  have hmem' : memcmp e.header dir.mem (strlen dir) = .ok r' := hr'
  rw [readdirBody, hmem, ok_bind, if_neg fun h => hdot (hroot.1 h), hmem', ok_bind]
  unfold listedName
  by_cases hp : dir.bytes <+: e.name.bytes
  · rw [if_pos (hstart.2 hp), if_pos hp]
    obtain ⟨t, ht⟩ := hp
    have hlen := e.name_le
    have hnonzero := e.name.nonzero
    unfold strlen at hlen
    rw [← ht, List.length_append] at hlen
    rw [← ht] at hnonzero
    obtain ⟨name, hname, hbytes⟩ := entryName_eq dir.bytes e.rest (t := t)
      (fun h => hnonzero (List.mem_append_right _ h)) (by omega)
    have hheader : e.header = dir.bytes ++ (t ++ 0 :: e.rest) := by
      rw [TarBlock.header, ← ht, List.append_assoc]
    refine ⟨name, by rw [hbytes, ← ht, List.drop_left], ?_⟩
    rw [hheader, strlen, hname, ok_bind]
    cases name with
    | none => rfl
    | some name =>
      show (if j + 1 = i then _ else _) = _
      by_cases hji : j + 1 = i
      · rw [if_pos hji]
        simp only [if_pos hji]
        rfl
      · rw [if_neg hji]
        simp only [if_neg hji]
        rfl
  · rw [if_neg fun h => hp (hstart.1 h), if_neg hp]
    exact ⟨none, rfl, rfl⟩

/-- The names of blocks. -/
def blockNames (blocks : List TarBlock) : List (List Byte) := blocks.map (·.name.bytes)

/-- What `tar_readdir` lists. -/
def listing (dir : List Byte) (names : List (List Byte)) : List (List Byte) := names.filterMap (listedName dir)

/-- **The loop of `tar_readdir`**: from counter `j` on it returns the name that is `i - j - 1` further in the list. -/
theorem readdirBlocks_eq (dir : CString) (i : Nat) {blocks : List TarBlock} (ptr : Nat) {j : Nat} (hj : j < i)
    (hdot : ∀ e ∈ blocks, e.name.bytes ≠ dotSlash.bytes) :
    ((listing dir.bytes (blockNames blocks))[i - j - 1]? = none ∧
      ∃ j', foldBlocks (readdirBody dir i) ptr blocks j = .ok (.inl j')) ∨
    ∃ name : CString, (listing dir.bytes (blockNames blocks))[i - j - 1]? = some name.bytes ∧
      foldBlocks (readdirBody dir i) ptr blocks j = .ok (.inr ⟨i, name⟩) := by
  induction blocks generalizing ptr j with
  | nil => exact .inl ⟨rfl, j, rfl⟩
  | cons e blocks ih =>
    have hrest : ∀ e ∈ blocks, e.name.bytes ≠ dotSlash.bytes := fun e he => hdot e (List.mem_cons_of_mem _ he)
    obtain ⟨name, hname, hbody⟩ := readdirBody_eq e dir i j ptr (hdot e List.mem_cons_self)
    rw [foldBlocks, hbody, ok_bind]
    cases name with
    | none =>
      have hlist : listing dir.bytes (blockNames (e :: blocks)) = listing dir.bytes (blockNames blocks) :=
        List.filterMap_cons_none hname.symm
      rw [hlist]
      exact ih _ hj hrest
    | some name =>
      have hlist : listing dir.bytes (blockNames (e :: blocks)) = name.bytes :: listing dir.bytes (blockNames blocks) :=
        List.filterMap_cons_some hname.symm
      rw [hlist]
      by_cases hji : j + 1 = i
      · refine .inr ⟨name, ?_, ?_⟩
        · rw [show i - j - 1 = 0 by omega, List.getElem?_cons_zero]
        · simp only [if_pos hji]
          rfl
      · have hnext := ih (ptr + 512 + e.body.length) (j := j + 1) (by omega) hrest
        rw [show i - j - 1 = i - (j + 1) - 1 + 1 by omega, List.getElem?_cons_succ]
        simp only [if_neg hji]
        exact hnext

/-- **The loop of `tar_lookup`** returns the first header with the path. -/
theorem lookupBlocks_eq (path : CString) (blocks : List TarBlock) (ptr : Nat) :
    (∃ e ∈ blocks, NameOf path.bytes e.name.bytes ∧ ∃ off,
      foldBlocks (lookupBody path) ptr blocks ⟨⟩ = .ok (.inr (off, e.header))) ∨
    (∀ e ∈ blocks, ¬ NameOf path.bytes e.name.bytes) ∧ foldBlocks (lookupBody path) ptr blocks ⟨⟩ = .ok (.inl ⟨⟩) := by
  induction blocks generalizing ptr with
  | nil => exact .inr ⟨fun e he => absurd he List.not_mem_nil, rfl⟩
  | cons e blocks ih =>
    rw [foldBlocks, lookupBody_eq, ok_bind]
    by_cases hname : NameOf path.bytes e.name.bytes
    · refine .inl ⟨e, List.mem_cons_self, hname, ptr, ?_⟩
      simp only [if_pos hname]
      rfl
    · simp only [if_neg hname]
      rcases ih (ptr + 512 + e.body.length) with ⟨e', he', hname', off, hrun⟩ | ⟨hno, hrun⟩
      · exact .inl ⟨e', List.mem_cons_of_mem _ he', hname', off, hrun⟩
      · refine .inr ⟨fun e' he' => ?_, hrun⟩
        rcases List.mem_cons.1 he' with rfl | he'
        · exact hname
        · exact hno e' he'

end Listed

end Myunix.Tar
