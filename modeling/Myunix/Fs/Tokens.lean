import Myunix.Fs.Canonical
import Myunix.Lib.Buffer

/-!
# The two ways to take a path apart (`fs.c`)

`tokenize_path` copies a path to a buffer of two bytes more than it has, with single NULs for its `/`, and its callers go
through the buffer from one string to the next. `tokenize_path_list` makes a list of the strings between the `/`. Here
each access to the buffer is checked.

* `tokenizePathIn_eq`: the accesses are inside, and the buffer is the one that `tokenizePath` says.
* `walkTokens_of_bufferTokens`: a walk that ends at an empty string reads only what is in the buffer.
* `tokenizePathList_components`: the list has the components of the path. `tokenize_paths_agree` puts it together.
-/

namespace Myunix.Fs

open Lib

/-! ## The code -/

/-- A round of the first loop of `tokenize_path`: `i` is the position in the path, and the state has the position in the
buffer and the buffer. -/
def tokenizeRound (path : List Byte) (i : Nat) : Nat × List Byte → Kernel (Nat × List Byte)
  | (j, s) => do
    let c ← load .bounds path i
    if c = 0x2F then
      if j ≠ 0 then
        let last ← load .bounds s (j - 1)
        if last ≠ 0 then
          let s ← store .bounds s j 0
          return (j + 1, s)
        else return (j, s)
      else return (j, s)
    else
      let s ← store .bounds s j c
      return (j + 1, s)

/-- `tokenize_path`; the block that `kmalloc` returns may have any contents. -/
def tokenizePathIn (block : Nat → Byte) (path : CString) : Kernel (List Byte) := do
  let pathLen := strlen path
  let s := (List.range (pathLen + 2)).map block
  let (j, s) ← forRange (tokenizeRound path.mem) 0 pathLen (0, s)
  fill .bounds 0 j (pathLen + 2 - j) s

/-- `strlen` of the string at the start of what is left of a buffer. -/
def strlenIn : List Byte → Kernel Nat
  | [] => throw .bounds
  | c :: s =>
    if c = 0 then return 0
    else do
      let n ← strlenIn s
      return n + 1

/-- The strings of a buffer, as its users go through them: `while (*s != 0) { j = strlen(s) + 1; …; s += j; }`. A walk that
is not over after `rounds` rounds does not return. -/
def walkTokens : (rounds : Nat) → List Byte → Kernel (List CString)
  | 0, _ => throw .bounds
  | _ + 1, [] => throw .bounds
  | rounds + 1, c :: s =>
    if c = 0 then return []
    else do
      let n ← strlenIn (c :: s)
      let tokens ← walkTokens rounds ((c :: s).drop (n + 1))
      return cstringAt (c :: s) :: tokens

/-! ## The buffer -/

section Buffer

variable {path : CString} {s : List Byte} {n : Nat}

/-- The invariant of the first loop, with `acc` in the buffer already. -/
structure Tokenized (path : CString) (i : Nat) (acc : List Byte) (js : Nat × List Byte) : Prop where
  position : js.1 = acc.length
  buffer : ∃ rest, js.2 = acc ++ rest ∧ acc.length + rest.length = strlen path + 2
  le : acc.length ≤ i
  loop : tokenizeLoop (path.bytes.drop i) acc = tokenizeLoop path.bytes []

/-- A store behind what is there. -/
theorem Tokenized.store {i : Nat} {acc : List Byte} {js : Nat × List Byte} (h : Tokenized path i acc js)
    (hi : i < strlen path) (c : Byte) : ∃ t, Lib.store Failure.bounds js.2 js.1 c = .ok t ∧
      ∃ rest, t = (acc ++ [c]) ++ rest ∧ (acc ++ [c]).length + rest.length = strlen path + 2 := by
  obtain ⟨rest, hrest, hlength⟩ := h.buffer
  have hle := h.le
  have hne : rest ≠ [] := by
    rintro rfl
    rw [List.length_nil] at hlength
    omega
  refine ⟨_, by rw [hrest, store_room h.position hne], rest.tail, by simp, ?_⟩
  rw [List.length_append, List.length_singleton, List.length_tail]
  have hpos := List.length_pos_iff.2 hne
  omega

/-- **A round** of the first loop. -/
theorem tokenizeRound_ok {i : Nat} {acc : List Byte} {js : Nat × List Byte} (h : Tokenized path i acc js)
    (hi : i < strlen path) :
    ∃ js', tokenizeRound path.mem i js = .ok js' ∧ ∃ acc', Tokenized path (i + 1) acc' js' := by
  obtain ⟨j, s⟩ := js
  have hi' : i < path.bytes.length := hi
  have hget : path.mem[i]? = some path.bytes[i] := by
    rw [CString.mem, List.getElem?_append_left hi', List.getElem?_eq_getElem hi']
  have hdrop : path.bytes.drop i = path.bytes[i] :: path.bytes.drop (i + 1) := List.drop_eq_getElem_cons hi'
  have hloop := h.loop
  rw [hdrop, tokenizeLoop] at hloop
  generalize path.bytes[i] = c at hget hloop
  have hle := h.le
  obtain ⟨rest, hrest, hlength⟩ := h.buffer
  have hj : j = acc.length := h.position
  have hs : s = acc ++ rest := hrest
  simp only [tokenizeRound, load_eq hget, ok_bind]
  split at hloop
  · rename_i hslash
    rw [if_pos hslash]
    by_cases hacc : acc = []
    · -- a `/` in front
      rw [if_neg fun hne => hne.1 hacc] at hloop
      have hzero : ¬ j ≠ 0 := by simp [hj, hacc]
      rw [if_neg hzero]
      exact ⟨(j, s), rfl, acc, h.position, h.buffer, by omega, hloop⟩
    · have hpos : j ≠ 0 := by
        rw [hj]
        exact fun hz => hacc (List.length_eq_zero_iff.1 hz)
      have hlast : s[j - 1]? = acc.getLast? := by
        rw [hs, hj, List.getElem?_append_left (by omega), List.getLast?_eq_getElem?]
      obtain ⟨b, hb⟩ : ∃ b, acc.getLast? = some b := ⟨_, List.getLast?_eq_some_getLast hacc⟩
      rw [if_pos hpos, load_eq (hlast.trans hb), ok_bind]
      by_cases hb0 : b = 0
      · -- a `/` behind another one
        rw [if_neg fun hne => hne.2 (by rw [hb, hb0])] at hloop
        rw [if_neg fun hne => hne hb0]
        exact ⟨(j, s), rfl, acc, h.position, h.buffer, by omega, hloop⟩
      · rw [if_pos ⟨hacc, fun he => hb0 (Option.some.inj (hb.symm.trans he))⟩] at hloop
        obtain ⟨t, ht, hbuffer⟩ := h.store hi 0
        rw [if_pos hb0]
        simp only [ht, ok_bind]
        refine ⟨(j + 1, t), rfl, acc ++ [0], ?_, hbuffer, ?_, hloop⟩
        · simp [hj]
        · rw [List.length_append, List.length_singleton]
          omega
  · rename_i hslash
    obtain ⟨t, ht, hbuffer⟩ := h.store hi c
    rw [if_neg hslash]
    simp only [ht, ok_bind]
    refine ⟨(j + 1, t), rfl, acc ++ [c], ?_, hbuffer, ?_, hloop⟩
    · simp [hj]
    · rw [List.length_append, List.length_singleton]
      omega

/-- **`tokenize_path`** stays inside its buffer, and fills it. -/
theorem tokenizePathIn_eq (block : Nat → Byte) (path : CString) :
    tokenizePathIn block path = .ok (tokenizePath path) := by
  have hstart : ∃ acc, Tokenized path 0 acc (0, (List.range (strlen path + 2)).map block) :=
    ⟨[], rfl, ⟨_, rfl, by simp⟩, Nat.le_refl 0, rfl⟩
  obtain ⟨⟨j, s⟩, hrun, acc, hacc⟩ := forRange_zero_ok (P := fun i js => ∃ acc, Tokenized path i acc js)
    (fun _ _ hi ⟨_, h⟩ => tokenizeRound_ok h hi) hstart
  obtain ⟨rest, hrest, hlength⟩ := hacc.buffer
  have hj : j = acc.length := hacc.position
  have hs : s = acc ++ rest := hrest
  have hend : path.bytes.drop (strlen path) = [] := List.drop_length
  have hloop := hacc.loop
  rw [hend, tokenizeLoop] at hloop
  have hcount : strlen path + 2 - j = rest.length := by omega
  simp only [tokenizePathIn, hrun, ok_bind]
  rw [hcount, hs, fill_append hj, tokenizePath, ← hloop]
  congr 3
  omega

theorem tokenizePath_length (path : CString) : (tokenizePath path).length = strlen path + 2 := by
  have hle := tokenizeLoop_length path.bytes []
  rw [List.length_nil, Nat.zero_add] at hle
  unfold tokenizePath strlen
  rw [List.length_append, List.length_replicate]
  omega

end Buffer

/-! ## The walk -/

section Walk

variable {s : List Byte} {rounds : Nat} {tokens : List CString}

/-- A string that ends inside. -/
theorem strlenIn_eq (h : strlen (cstringAt s) < s.length) : strlenIn s = .ok (strlen (cstringAt s)) := by
  induction s with
  | nil => cases h
  | cons c s ih =>
    rw [strlenIn]
    by_cases hc : c = 0
    · rw [if_pos hc, hc]
      rfl
    · have hstring : strlen (cstringAt (c :: s)) = strlen (cstringAt s) + 1 := by
        show ((c :: s).takeWhile fun b => decide (b ≠ 0)).length = (s.takeWhile fun b => decide (b ≠ 0)).length + 1
        rw [List.takeWhile_cons_of_pos (by simpa using hc), List.length_cons]
      rw [hstring, List.length_cons] at h
      rw [if_neg hc, ih (Nat.lt_of_succ_lt_succ h), hstring]
      rfl

/-- **A walk that comes to an empty string** reads only what is in the buffer. -/
theorem walkTokens_of_bufferTokens (h : bufferTokens rounds s = .ok tokens) (hl : tokens.length < rounds) :
    walkTokens rounds s = .ok tokens := by
  induction rounds generalizing s tokens with
  | zero => cases hl
  | succ rounds ih =>
    cases s with
    | nil => cases h
    | cons c s =>
      rw [bufferTokens] at h
      rw [walkTokens]
      split at h
      · rename_i hc
        rw [if_pos hc]
        exact h
      · rename_i hc
        simp only [bind_eq_ok, pure_eq_ok] at h
        obtain ⟨rest, hrest, rfl⟩ := h
        have hl' : rest.length < rounds := by simpa using hl
        obtain ⟨rounds, rfl⟩ := Nat.exists_eq_succ_of_ne_zero (Nat.ne_of_gt (Nat.lt_of_le_of_lt (Nat.zero_le _) hl'))
        -- the next string starts inside, so that this one ends there
        have hinside : strlen (cstringAt (c :: s)) + 1 < (c :: s).length := by
          by_contra hout
          rw [List.drop_eq_nil_of_le (Nat.le_of_not_lt hout)] at hrest
          cases hrest
        rw [if_neg hc, strlenIn_eq (Nat.lt_of_succ_lt hinside), ok_bind, ih hrest hl']
        rfl

end Walk

/-! ## The list -/

section List

variable {pre : List Byte}

/-- A path without a `/` is a component. -/
theorem components_single (h : (0x2F : Byte) ∉ pre) : components pre = if pre = [] then [] else [pre] := by
  have hsplit : pre.splitOnP (· = 0x2F) = [pre] :=
    List.splitOnP_eq_singleton fun b hb => by simpa using ne_of_mem_of_not_mem hb h
  rw [components, hsplit]
  by_cases hempty : pre = []
  · simp [hempty]
  · simp [hempty]

/-- A path up to its first `/`, and what is behind. -/
theorem pathElement_split (path : List Byte) : (0x2F : Byte) ∉ pathElement path ∧
    (path = pathElement path ∨ ∃ post, path = pathElement path ++ 0x2F :: post) := by
  refine ⟨fun h => by simpa using List.mem_takeWhile_imp h, ?_⟩
  have happend : path = pathElement path ++ path.dropWhile (· ≠ 0x2F) := List.takeWhile_append_dropWhile.symm
  cases hdrop : path.dropWhile (· ≠ 0x2F) with
  | nil =>
    rw [hdrop, List.append_nil] at happend
    exact Or.inl happend
  | cons c post =>
    have hc := List.head_dropWhile_not (fun b : Byte => decide (b ≠ 0x2F)) (hdrop ▸ List.cons_ne_nil c post)
    simp only [hdrop, List.head_cons] at hc
    obtain rfl : c = 0x2F := by simpa using hc
    rw [hdrop] at happend
    exact Or.inr ⟨post, happend⟩

/-- What one round of `tokenize_path_list` takes from a path. -/
theorem components_element (path : List Byte) : components path =
    (if pathElement path = [] then [] else [pathElement path]) ++ components (path.drop ((pathElement path).length + 1)) := by
  obtain ⟨hslash, hpath | ⟨post, hpath⟩⟩ := pathElement_split path
  · have hdrop : path.drop ((pathElement path).length + 1) = [] := by
      rw [← hpath]
      exact List.drop_eq_nil_of_le (Nat.le_succ _)
    rw [hdrop, show components [] = [] by rfl, List.append_nil, ← components_single hslash, ← hpath]
  · have hdrop : path.drop ((pathElement path).length + 1) = post := by
      rw [congrArg (List.drop _) hpath, ← List.drop_drop, List.drop_left]
      rfl
    rw [hdrop, ← components_single hslash, ← components_append, ← hpath]

/-- The rounds of `tokenize_path_list`. -/
theorem tokenizeFrom_components {fuel : Nat} (path : List Byte) (h : (0 : Byte) ∉ path) (hfuel : path.length ≤ fuel) :
    (tokenizeFrom fuel path h).map (·.bytes) = components path := by
  induction fuel generalizing path with
  | zero =>
    obtain rfl := List.length_eq_zero_iff.1 (Nat.le_zero.1 hfuel)
    rfl
  | succ fuel ih =>
    cases path with
    | nil => rfl
    | cons c path =>
      have hrest := ih ((c :: path).drop ((pathElement (c :: path)).length + 1)) (fun hm => h (List.mem_of_mem_drop hm))
        (by rw [List.length_drop]; omega)
      rw [tokenizeFrom, components_element, ← hrest]
      simp only [strlen, List.length_eq_zero_iff]
      split
      · rfl
      · rfl

/-- **The list of a path** has its components. -/
theorem tokenizePathList_components (path : CString) :
    (tokenizePathList path).map (·.bytes) = components path.bytes :=
  tokenizeFrom_components path.bytes path.nonzero (Nat.le_refl _)

end List

/-- **Both ways agree.** Whatever was in the block before, `tokenize_path` stays inside its buffer, the walk through it
stays inside too, and finds the elements of `tokenize_path_list`, which are the components of the path. -/
theorem tokenize_paths_agree (block : Nat → Byte) (path : CString) : ∃ s, tokenizePathIn block path = .ok s ∧
    s.length = strlen path + 2 ∧ walkTokens s.length s = .ok (tokenizePathList path) ∧
    (tokenizePathList path).map (·.bytes) = components path.bytes := by
  obtain ⟨tokens, htokens, hmap⟩ := bufferTokens_components path
  obtain rfl : tokens = tokenizePathList path := map_bytes_inj (hmap.trans (tokenizePathList_components path).symm)
  have hlength : (tokenizePathList path).length < (tokenizePath path).length := by
    obtain ⟨-, zeroes, hzeroes⟩ := tokenizePath_form path
    have hle := length_le_tokenBuffer (components path.bytes)
    have hcount : (tokenizePathList path).length = (components path.bytes).length := by
      rw [← hmap, List.length_map]
    rw [hcount, hzeroes, List.length_append, List.length_cons]
    omega
  exact ⟨tokenizePath path, tokenizePathIn_eq block path, tokenizePath_length path,
    walkTokens_of_bufferTokens htokens hlength, hmap⟩

end Myunix.Fs
