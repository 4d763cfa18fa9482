import Myunix.Fs.Open

/-!
# Paths that climb above the root

`canonicalize_path_push_path` resolves `..` by taking the last element of the list away, and stops with an assertion when
there is none. `canonicalizePathPushPath_eq` says what it does in terms of the components of the path. `kopenMarked` is
`kopen` with its failures marked by where they come from, and `kopen_canonical_iff` says for which paths, and which
targets of symbolic links, `kopen` never stops in there.
-/

namespace Myunix.Fs

open Lib

/-! ## Components -/

/-- The components of a path: what stands between `/`, where something stands there. -/
def components (path : List Byte) : List (List Byte) := (path.splitOnP (· = 0x2F)).filter (· ≠ [])

/-- The buffer of `tokenize_path`: each token with a NUL. -/
def tokenBuffer (ts : List (List Byte)) : List Byte := ts.flatMap (· ++ [0])

/-- Strings with the same bytes are the same. -/
theorem map_bytes_inj {l l' : List CString} (h : l.map (·.bytes) = l'.map (·.bytes)) : l = l' := by
  refine (List.map_inj_right fun a b hab => ?_).1 h
  cases a
  cases b
  simpa using hab

theorem components_append (a b : List Byte) : components (a ++ 0x2F :: b) = components a ++ components b := by
  unfold components
  rw [List.splitOnP_append_cons a b (by decide), List.filter_append]

section Tokens

variable {ts : List (List Byte)} {cur path : List Byte}

theorem tokenBuffer_snoc (ts : List (List Byte)) (t : List Byte) :
    tokenBuffer (ts ++ [t]) = tokenBuffer ts ++ t ++ [0] := by
  simp [tokenBuffer]

theorem length_le_tokenBuffer (ts : List (List Byte)) : ts.length ≤ (tokenBuffer ts).length := by
  induction ts with
  | nil => exact Nat.le_refl _
  | cons t ts ih =>
    have hcons : (tokenBuffer (t :: ts)).length = t.length + 1 + (tokenBuffer ts).length := by
      simp [tokenBuffer]
      omega
    rw [hcons, List.length_cons]
    omega

/-- A buffer without an unfinished token is empty or ends with a NUL. -/
theorem tokenBuffer_last (ts : List (List Byte)) : tokenBuffer ts = [] ∨ (tokenBuffer ts).getLast? = some 0 := by
  rcases List.eq_nil_or_concat ts with rfl | ⟨us, t, rfl⟩
  · exact Or.inl rfl
  · rw [List.concat_eq_append, tokenBuffer_snoc]
    exact Or.inr List.getLast?_concat

/-- A token is not empty and has no NUL. -/
def IsToken (t : List Byte) : Prop := t ≠ [] ∧ (0 : Byte) ∉ t

/-- What the loop of `tokenize_path` makes of a path: `ts` are the tokens so far, `cur` is the start of the next one. -/
theorem tokenizeLoop_eq (path : List Byte) : ∀ (ts : List (List Byte)) {cur : List Byte}, (0 : Byte) ∉ path →
    (0 : Byte) ∉ cur → (∀ t ∈ ts, IsToken t) →
    ∃ us rest, tokenizeLoop path (tokenBuffer ts ++ cur) = tokenBuffer us ++ rest ∧ (0 : Byte) ∉ rest ∧
      (∀ t ∈ us, IsToken t) ∧ us ++ (if rest = [] then [] else [rest]) =
        ts ++ (path.splitOnPPrepend (· = 0x2F) cur.reverse).filter (· ≠ []) := by
  induction path with
  | nil =>
    intro ts cur _ hcur hts
    refine ⟨ts, cur, rfl, hcur, hts, ?_⟩
    by_cases hempty : cur = []
    · simp [hempty]
    · simp [hempty]
  | cons c path ih =>
    intro ts cur hpath hcur hts
    obtain ⟨hc, hpath⟩ := not_or.1 (List.mem_cons.not.1 hpath)
    rw [tokenizeLoop]
    by_cases hslash : c = 0x2F
    · rw [if_pos hslash, List.splitOnPPrepend_cons_pos (by simpa using hslash), List.reverse_reverse,
        List.splitOnP_eq_splitOnPPrepend]
      by_cases hempty : cur = []
      · subst hempty
        have hlast : ¬ (tokenBuffer ts ++ [] ≠ [] ∧ (tokenBuffer ts ++ []).getLast? ≠ some 0) := by
          rw [List.append_nil]
          rcases tokenBuffer_last ts with hnil | hzero
          · exact fun h => h.1 hnil
          · exact fun h => h.2 hzero
        rw [if_neg hlast]
        obtain ⟨us, rest, hloop, hrest, hus, hsplit⟩ := ih ts hpath hcur hts
        exact ⟨us, rest, hloop, hrest, hus, by simpa using hsplit⟩
      · have hlast : tokenBuffer ts ++ cur ≠ [] ∧ (tokenBuffer ts ++ cur).getLast? ≠ some 0 := by
          refine ⟨by simp [hempty], fun hzero => ?_⟩
          have hx := List.getLast?_eq_some_getLast hempty
          rw [List.getLast?_append, hx, Option.some_or] at hzero
          exact hcur (List.mem_of_getLast? (hx.trans hzero))
        rw [if_pos hlast, ← tokenBuffer_snoc, ← List.append_nil (tokenBuffer _)]
        have hts' : ∀ t ∈ ts ++ [cur], IsToken t := by
          intro t ht
          rcases List.mem_append.1 ht with ht | ht
          · exact hts t ht
          · rw [List.mem_singleton.1 ht]
            exact ⟨hempty, hcur⟩
        obtain ⟨us, rest, hloop, hrest, hus, hsplit⟩ := ih (ts ++ [cur]) hpath List.not_mem_nil hts'
        refine ⟨us, rest, hloop, hrest, hus, ?_⟩
        rw [hsplit]
        simp [hempty]
    · rw [if_neg hslash, List.splitOnPPrepend_cons_neg (by simpa using hslash), List.append_assoc]
      have hcur' : (0 : Byte) ∉ cur ++ [c] := by
        rw [List.mem_append, List.mem_singleton]
        exact not_or.2 ⟨hcur, hc⟩
      obtain ⟨us, rest, hloop, hrest, hus, hsplit⟩ := ih ts hpath hcur' hts
      exact ⟨us, rest, hloop, hrest, hus, by simpa using hsplit⟩

theorem tokenizeLoop_length (path : List Byte) : ∀ s, (tokenizeLoop path s).length ≤ s.length + path.length := by
  induction path with
  | nil => exact fun s => Nat.le_refl _
  | cons c path ih =>
    intro s
    have hlen : ∀ s' : List Byte, s'.length ≤ s.length + 1 →
        (tokenizeLoop path s').length ≤ s.length + (c :: path).length := by
      intro s' hs'
      have := ih s'
      rw [List.length_cons]
      omega
    rw [tokenizeLoop]
    split
    · apply hlen _
      split <;> simp
    · exact hlen _ (by simp)

/-- The tokens of a buffer. -/
theorem bufferTokens_eq (ts : List (List Byte)) (rest : List Byte) : ∀ {fuel : Nat}, ts.length < fuel →
    (∀ t ∈ ts, IsToken t) →
      ∃ tokens, bufferTokens fuel (tokenBuffer ts ++ 0 :: rest) = .ok tokens ∧ tokens.map (·.bytes) = ts := by
  induction ts with
  | nil =>
    intro fuel hfuel _
    obtain ⟨fuel, rfl⟩ : ∃ n, fuel = n + 1 := ⟨fuel - 1, by simp at hfuel; omega⟩
    exact ⟨[], rfl, rfl⟩
  | cons t ts ih =>
    intro fuel hfuel hts
    obtain ⟨fuel, rfl⟩ : ∃ n, fuel = n + 1 := ⟨fuel - 1, by simp at hfuel; omega⟩
    obtain ⟨⟨hempty, hzero⟩, hts⟩ := List.forall_mem_cons.1 hts
    obtain ⟨tokens, htokens, hmap⟩ := ih (Nat.lt_of_succ_lt_succ hfuel) hts
    have hbuffer : tokenBuffer (t :: ts) ++ 0 :: rest = t ++ 0 :: (tokenBuffer ts ++ 0 :: rest) := by
      simp [tokenBuffer]
    have htoken := cstringAt_append (tokenBuffer ts ++ 0 :: rest) hzero
    rw [hbuffer]
    cases t with
    | nil => exact absurd rfl hempty
    | cons c t =>
      have hc : c ≠ 0 := fun he => hzero (he ▸ List.mem_cons_self)
      have hdrop : (c :: t ++ 0 :: (tokenBuffer ts ++ 0 :: rest)).drop
          (strlen (cstringAt (c :: t ++ 0 :: (tokenBuffer ts ++ 0 :: rest))) + 1) = tokenBuffer ts ++ 0 :: rest := by
        rw [strlen, htoken, ← List.drop_drop, List.drop_left]
        rfl
      refine ⟨cstringAt (c :: t ++ 0 :: (tokenBuffer ts ++ 0 :: rest)) :: tokens, ?_, ?_⟩
      · rw [List.cons_append, bufferTokens, if_neg hc]
        dsimp only
        rw [← List.cons_append, hdrop, htokens]
        rfl
      · rw [List.map_cons, htoken, hmap]

/-- **The buffer of a path**: its components with their NULs, and another NUL. -/
theorem tokenizePath_form (path : CString) : (∀ t ∈ components path.bytes, IsToken t) ∧
    ∃ zeroes, tokenizePath path = tokenBuffer (components path.bytes) ++ 0 :: zeroes := by
  obtain ⟨us, rest, hloop, hrest, hus, hsplit⟩ :=
    tokenizeLoop_eq path.bytes [] path.nonzero List.not_mem_nil fun _ ht => absurd ht List.not_mem_nil
  have hloop' : tokenizeLoop path.bytes [] = tokenBuffer us ++ rest := hloop
  have hlength := tokenizeLoop_length path.bytes []
  rw [hloop', List.length_nil, Nat.zero_add] at hlength
  obtain ⟨m, hm⟩ : ∃ m, strlen path + 2 - (tokenBuffer us ++ rest).length = m + 2 :=
    ⟨strlen path - (tokenBuffer us ++ rest).length, by unfold strlen; omega⟩
  have hbuffer : tokenizePath path = tokenBuffer us ++ rest ++ List.replicate (m + 2) 0 := by
    rw [tokenizePath, hloop', hm]
  have hcomponents : us ++ (if rest = [] then [] else [rest]) = components path.bytes := by
    rw [components, List.splitOnP_eq_splitOnPPrepend]
    exact hsplit
  constructor
  · rw [← hcomponents]
    intro t ht
    rcases List.mem_append.1 ht with ht | ht
    · exact hus t ht
    · by_cases hempty : rest = []
      · simp [hempty] at ht
      · rw [if_neg hempty, List.mem_singleton] at ht
        rw [ht]
        exact ⟨hempty, hrest⟩
  · -- a token that is not finished ends at the first NUL behind it
    rw [hbuffer, ← hcomponents]
    by_cases hempty : rest = []
    · exact ⟨List.replicate (m + 1) 0, by simp [hempty, List.replicate_succ]⟩
    · refine ⟨List.replicate m 0, ?_⟩
      rw [if_neg hempty, tokenBuffer_snoc]
      simp [List.replicate_succ]

/-- **The tokens of a path** are its components. -/
theorem bufferTokens_components (path : CString) :
    ∃ tokens, bufferTokens (tokenizePath path).length (tokenizePath path) = .ok tokens ∧
      tokens.map (·.bytes) = components path.bytes := by
  obtain ⟨htokens, zeroes, hzeroes⟩ := tokenizePath_form path
  have hfuel : (components path.bytes).length < (tokenizePath path).length := by
    rw [hzeroes, List.length_append, List.length_cons]
    have hle := length_le_tokenBuffer (components path.bytes)
    omega
  obtain ⟨tokens, heq, hmap⟩ := bufferTokens_eq _ zeroes hfuel htokens
  rw [← hzeroes] at heq
  exact ⟨tokens, heq, hmap⟩

end Tokens

/-! ## `.` and `..` -/

/-- The component `..`. -/
def dotdot : List Byte := [0x2E, 0x2E]

/-- The component `.`. -/
def dot : List Byte := [0x2E]

/-- A component that is neither `.` nor `..`. -/
def isName (c : List Byte) : Bool := c ≠ dotdot ∧ c ≠ dot

/-- From a directory at `depth`, the components never climb above the root: no part of them has more `..` than names
that are in front of it. -/
def NeverAbove (depth : Nat) (cs : List (List Byte)) : Prop :=
  ∀ start, start <+: cs → start.count dotdot ≤ depth + start.countP isName

/-- The directory that a component leads to; `..` stays at the root. -/
def resolveStep (names : List (List Byte)) (c : List Byte) : List (List Byte) :=
  if c = dotdot then names.dropLast else if c = dot then names else names ++ [c]

/-- The directory that components lead to. -/
def resolveDots (names cs : List (List Byte)) : List (List Byte) := cs.foldl resolveStep names

section Dots

variable {depth : Nat} {c : List Byte} {cs : List (List Byte)} {elements : List CString}

theorem neverAbove_nil (depth : Nat) : NeverAbove depth [] := by
  intro start hstart
  rw [List.prefix_nil.1 hstart]
  exact Nat.zero_le _

/-- The parts of `c :: cs` that are not empty start with `c`. -/
theorem neverAbove_cons : NeverAbove depth (c :: cs) ↔
    ∀ start, start <+: cs → (c :: start).count dotdot ≤ depth + (c :: start).countP isName := by
  constructor
  · intro h start hstart
    exact h (c :: start) ((List.prefix_cons_inj c).2 hstart)
  · intro h start hstart
    rcases List.prefix_cons_iff.1 hstart with rfl | ⟨t, rfl, ht⟩
    · exact Nat.zero_le _
    · exact h t ht

theorem neverAbove_dotdot : NeverAbove depth (dotdot :: cs) ↔ 0 < depth ∧ NeverAbove (depth - 1) cs := by
  have hname : isName dotdot = false := by decide
  rw [neverAbove_cons]
  simp only [List.count_cons_self, List.countP_cons_of_neg (by simp [hname] : ¬ isName dotdot = true)]
  constructor
  · intro h
    have hzero := h [] List.nil_prefix
    have hpos : 1 ≤ depth := by simpa using hzero
    refine ⟨hpos, fun start hstart => ?_⟩
    have := h start hstart
    omega
  · rintro ⟨hpos, h⟩ start hstart
    have := h start hstart
    omega

theorem neverAbove_dot : NeverAbove depth (dot :: cs) ↔ NeverAbove depth cs := by
  have hname : isName dot = false := by decide
  rw [neverAbove_cons]
  simp only [List.count_cons_of_ne (by decide : dot ≠ dotdot),
    List.countP_cons_of_neg (by simp [hname] : ¬ isName dot = true)]
  rfl

theorem neverAbove_name (hc : isName c = true) : NeverAbove depth (c :: cs) ↔ NeverAbove (depth + 1) cs := by
  have hne : c ≠ dotdot := by
    rintro rfl
    exact absurd hc (by decide)
  rw [neverAbove_cons]
  simp only [List.count_cons_of_ne hne, List.countP_cons_of_pos hc]
  constructor
  · intro h start hstart
    have := h start hstart
    omega
  · intro h start hstart
    have := h start hstart
    omega

theorem NeverAbove.mono {depth' : Nat} (h : NeverAbove depth cs) (hle : depth ≤ depth') : NeverAbove depth' cs :=
  fun start hstart => (h start hstart).trans (Nat.add_le_add_right hle _)

/-- **Pushing tokens** resolves `.` and `..`, and stops when they climb. -/
theorem pushTokens_eq (tokens : List CString) : ∀ elements : List CString,
    (NeverAbove elements.length (tokens.map (·.bytes)) → ∃ l, tokens.foldlM pushToken elements = .ok l ∧
      l.map (·.bytes) = resolveDots (elements.map (·.bytes)) (tokens.map (·.bytes))) ∧
    (¬ NeverAbove elements.length (tokens.map (·.bytes)) →
      tokens.foldlM pushToken elements = .error .assertion) := by
  induction tokens with
  | nil => exact fun elements => ⟨fun _ => ⟨elements, rfl, rfl⟩, fun h => absurd (neverAbove_nil _) h⟩
  | cons token tokens ih =>
    intro elements
    rw [List.map_cons, List.foldlM_cons, resolveDots, List.foldl_cons, resolveStep]
    by_cases hup : token.bytes = dotdot
    · rw [hup, neverAbove_dotdot, if_pos rfl, ← List.map_dropLast]
      have hpush : pushToken elements token = (do kassert (elements ≠ []); return elements.dropLast) := if_pos hup
      rw [hpush]
      by_cases hempty : elements = []
      · subst hempty
        exact ⟨fun h => absurd h.1 (Nat.lt_irrefl 0), fun _ => rfl⟩
      · have hpos : 0 < elements.length := List.length_pos_iff.2 hempty
        rw [show kassert (elements ≠ []) = .ok ⟨⟩ from assert_pos hempty, ok_bind, pure_bind, ← List.length_dropLast]
        exact ⟨fun h => (ih _).1 h.2, fun h => (ih _).2 fun hnever => h ⟨hpos, hnever⟩⟩
    · rw [if_neg hup]
      by_cases hstay : token.bytes = dot
      · have hpush : pushToken elements token = pure elements := (if_neg hup).trans (if_pos hstay)
        rw [hstay, neverAbove_dot, if_pos rfl, hpush, pure_bind]
        exact ih elements
      · have hpush : pushToken elements token = pure (elements ++ [token]) := (if_neg hup).trans (if_neg hstay)
        have hname : isName token.bytes = true := by simp [isName, hup, hstay]
        have hlength : elements.length + 1 = (elements ++ [token]).length := by simp
        have hmap : elements.map (·.bytes) ++ [token.bytes] = (elements ++ [token]).map (·.bytes) := by simp
        rw [neverAbove_name hname, if_neg hstay, hpush, pure_bind, hlength, hmap]
        exact ih (elements ++ [token])

/-- **`canonicalize_path_push_path`**, by the components of the path. -/
theorem canonicalizePathPushPath_eq (path : CString) (elements : List CString) :
    (NeverAbove elements.length (components path.bytes) → ∃ l, canonicalizePathPushPath path elements = .ok l ∧
      l.map (·.bytes) = resolveDots (elements.map (·.bytes)) (components path.bytes)) ∧
    (¬ NeverAbove elements.length (components path.bytes) →
      canonicalizePathPushPath path elements = .error .assertion) := by
  obtain ⟨tokens, htokens, hmap⟩ := bufferTokens_components path
  rw [← hmap, canonicalizePathPushPath, htokens, ok_bind]
  exact pushTokens_eq tokens elements

end Dots

/-! ## `kopen`, with its failures marked -/

/-- Why `kopen` stops. -/
inductive Stop
  /-- In `canonicalize_path_push_path`. -/
  | canonicalisation
  /-- Anywhere else. -/
  | other (f : Failure)
deriving DecidableEq, Repr

/-- The failure without the mark. -/
def Stop.failure : Stop → Failure
  | .canonicalisation => .assertion
  | .other f => f

/-- Any step but that one. -/
def mark {α : Type} (x : Kernel α) : Outcome Stop α := x.mapError .other

/-- `canonicalize_path_push_path`. -/
def pushPathMarked (path : CString) (elements : List CString) : Outcome Stop (List CString) :=
  (canonicalizePathPushPath path elements).mapError fun _ => .canonicalisation

/-- `canonicalize_path_list`. -/
def canonicalizePathListMarked (parent relativePath : CString) : Outcome Stop (List CString) := do
  let elements ← mark <|
    if strlen relativePath > 0 ∧ relativePath.bytes.head? ≠ some 0x2F then
      bufferTokens (tokenizePath parent).length (tokenizePath parent)
    else pure []
  pushPathMarked relativePath elements

section Marked

variable {σ : Type}

/-- `linkElements`. -/
def linkElementsMarked (D : Drivers σ) (s : FsState σ) (node : NodePtr) (leading : List CString) :
    Outcome Stop (List CString × FsState σ) := do
  let (len, buf, s) ← mark (fsReadlink D s node)
  mark (kassert (0 ≤ len))
  match buf[len.toNat]? with
  | none => mark (throw .bounds)
  | some c =>
    mark (kassert (c = 0))
    let l ← mark (copyElements leading)
    let l ← pushPathMarked (cstringAt buf) l
    return (l, s)

/-- The loop of `findfile_recursive`. -/
def findfileLoopMarked (D : Drivers σ)
    (recurse : List CString → NodePtr → FsState σ → Outcome Stop (Option NodePtr × FsState σ))
    (leading : List CString) :
    List CString → NodePtr → FsState σ → Outcome Stop (Option NodePtr × FsState σ)
  | [], node, s => .ok (some node, s)
  | element :: rest, node, s => do
    let (nextNode, s) ← mark (fsFinddir D s node element)
    let (_, s) ← mark (fsNodeRelease D s node)
    match nextNode with
    | none => return (none, s)
    | some node =>
      if (s.nodes node).info.symlink then
        let (l, s) ← linkElementsMarked D s node leading
        match s.rootMount with
        | none => mark (throw .assertion)
        | some root =>
          let (mount, l) ← mark (walkMountGraph s l root)
          let (nextNode, s) ← recurse l (s.mounts mount).node s
          let (_, s) ← mark (fsNodeRelease D s node)
          match nextNode with
          | none => return (none, s)
          | some node => findfileLoopMarked D recurse (leading ++ [element]) rest node s
      else findfileLoopMarked D recurse (leading ++ [element]) rest node s

/-- `findfile_recursive`. -/
def findfileRecursiveMarked (D : Drivers σ) :
    Nat → List CString → NodePtr → FsState σ → Outcome Stop (Option NodePtr × FsState σ)
  | 0, _, _, s => .ok (none, s)
  | level + 1, elements, rootNode, s => do
    let s ← mark (fsNodeReference s rootNode)
    findfileLoopMarked D (findfileRecursiveMarked D level) [] elements rootNode s

/-- `findfile`. -/
def findfileMarked (D : Drivers σ) (s : FsState σ) (root relativePath : CString) :
    Outcome Stop (Option NodePtr × FsState σ) := do
  let l ← canonicalizePathListMarked root relativePath
  match s.rootMount with
  | none => mark (throw .assertion)
  | some rootMount =>
    let (mount, l) ← mark (walkMountGraph s l rootMount)
    findfileRecursiveMarked D 10 l (s.mounts mount).node s

/-- The first half of `kopen`. -/
def kopenNodeMarked (D : Drivers σ) (s : FsState σ) (path : CString) :
    Outcome Stop (Option NodePtr × FsState σ) := do
  if (← mark (memcmp path.mem rootElement.mem 2)) = 0 then
    match s.rootMount with
    | some root =>
      let node := (s.mounts root).node
      let s ← mark (fsNodeReference s node)
      return (some node, s)
    | none => return (none, s)
  else findfileMarked D s rootElement path

/-- `kopen`. -/
def kopenMarked (D : Drivers σ) (s : FsState σ) (path : CString) (flags : Word) :
    Outcome Stop (Option NodePtr × FsState σ) := do
  match ← kopenNodeMarked D s path with
  | (none, s) => return (none, s)
  | (some node, s) =>
    let s ← mark (fsOpen D s node flags)
    mark (fsNodeRelease D s node)

/-! Without the marks, this is `kopen`. -/

/-- Forget the marks. -/
def unmark {α : Type} (x : Outcome Stop α) : Kernel α := x.mapError Stop.failure

@[simp] theorem unmark_mark {α : Type} (x : Kernel α) : unmark (mark x) = x := by
  cases x <;> rfl

@[simp] theorem unmark_bind {α β : Type} (x : Outcome Stop α) (f : α → Outcome Stop β) :
    unmark (x >>= f) = unmark x >>= fun a => unmark (f a) := by
  cases x <;> rfl

@[simp] theorem unmark_pure {α : Type} (a : α) : unmark (pure a : Outcome Stop α) = pure a := rfl

@[simp] theorem unmark_pushPath (path : CString) (elements : List CString) :
    unmark (pushPathMarked path elements) = canonicalizePathPushPath path elements := by
  obtain ⟨hok, herror⟩ := canonicalizePathPushPath_eq path elements
  by_cases h : NeverAbove elements.length (components path.bytes)
  · obtain ⟨l, hl, -⟩ := hok h
    rw [pushPathMarked, hl]
    rfl
  · rw [pushPathMarked, herror h]
    rfl

theorem unmark_linkElements (D : Drivers σ) (s : FsState σ) (node : NodePtr) (leading : List CString) :
    unmark (linkElementsMarked D s node leading) = linkElements D s node leading := by
  simp only [linkElementsMarked, linkElements, unmark_bind, unmark_mark]
  refine bind_congr fun r => bind_congr fun _ => ?_
  cases r.2.1[r.1.toNat]? with
  | none => exact unmark_mark _
  | some c => simp only [unmark_bind, unmark_mark, unmark_pushPath, unmark_pure]

theorem unmark_findfileLoop (D : Drivers σ)
    {recurse : List CString → NodePtr → FsState σ → Outcome Stop (Option NodePtr × FsState σ)}
    {recurse' : List CString → NodePtr → FsState σ → Kernel (Option NodePtr × FsState σ)}
    (hrec : ∀ l p s, unmark (recurse l p s) = recurse' l p s) (elements : List CString) :
    ∀ (leading : List CString) (node : NodePtr) (s : FsState σ),
      unmark (findfileLoopMarked D recurse leading elements node s) =
        findfileLoop D recurse' leading elements node s := by
  induction elements with
  | nil => exact fun _ _ _ => rfl
  | cons element rest ih =>
    intro leading node s
    simp only [findfileLoopMarked, findfileLoop, unmark_bind, unmark_mark]
    refine bind_congr fun found => bind_congr fun released => ?_
    cases found.1 with
    | none => rfl
    | some next =>
      dsimp only
      split
      · rw [unmark_bind, unmark_linkElements]
        apply bind_congr
        intro link
        cases link.2.rootMount with
        | none => exact unmark_mark _
        | some root =>
          simp only [unmark_bind, unmark_mark, hrec]
          refine bind_congr fun walked => bind_congr fun target => bind_congr fun released => ?_
          cases target.1 with
          | none => rfl
          | some node => exact ih _ _ _
      · exact ih _ _ _

theorem unmark_findfileRecursive (D : Drivers σ) (level : Nat) : ∀ (l : List CString) (p : NodePtr) (s : FsState σ),
    unmark (findfileRecursiveMarked D level l p s) = findfileRecursive D level l p s := by
  induction level with
  | zero => exact fun _ _ _ => rfl
  | succ level ih =>
    intro l p s
    simp only [findfileRecursiveMarked, findfileRecursive, unmark_bind, unmark_mark]
    exact bind_congr fun s => unmark_findfileLoop D ih l [] p s

/-- **The marked `kopen`** is `kopen`. -/
theorem unmark_kopen (D : Drivers σ) (s : FsState σ) (path : CString) (flags : Word) :
    unmark (kopenMarked D s path flags) = kopen D s path flags := by
  have hlist : unmark (canonicalizePathListMarked rootElement path) = canonicalizePathList rootElement path := by
    simp only [canonicalizePathListMarked, canonicalizePathList, unmark_bind, unmark_mark, unmark_pushPath]
    split
    · rfl
    · rfl
  have hfind : unmark (findfileMarked D s rootElement path) = findfile D s rootElement path := by
    simp only [findfileMarked, findfile, unmark_bind, hlist]
    apply bind_congr
    intro l
    cases s.rootMount with
    | none => exact unmark_mark _
    | some root =>
      simp only [unmark_bind, unmark_mark]
      exact bind_congr fun walked => unmark_findfileRecursive D 10 _ _ s
  have hnode : unmark (kopenNodeMarked D s path) = kopenNode D s path := by
    simp only [kopenNodeMarked, kopenNode, unmark_bind, unmark_mark]
    apply bind_congr
    intro r
    split
    · cases s.rootMount with
      | none => rfl
      | some root => simp only [unmark_bind, unmark_mark, unmark_pure]
    · exact hfind
  simp only [kopenMarked, kopen, unmark_bind, hnode]
  apply bind_congr
  intro found
  obtain ⟨node, s⟩ := found
  cases node with
  | none => rfl
  | some node => simp only [unmark_bind, unmark_mark]

end Marked

/-! ## When it does not stop in canonicalisation -/

section Safe

variable {σ α β : Type}

/-- The computation does not stop in canonicalisation. -/
def Safe (x : Outcome Stop α) : Prop := x ≠ .error .canonicalisation

theorem mark_safe (x : Kernel α) : Safe (mark x) := by
  cases x with
  | error f => exact fun h => by cases h
  | ok a => exact fun h => by cases h

theorem mark_ok (a : α) : mark (.ok a : Kernel α) = .ok a := rfl

theorem Safe.bind {x : Outcome Stop α} {f : α → Outcome Stop β} (hx : Safe x) (hf : ∀ a, x = .ok a → Safe (f a)) :
    Safe (x >>= f) := by
  cases x with
  | error e => exact fun h => hx (congrArg Except.error (Except.error.inj h))
  | ok a => exact hf a rfl

theorem mark_bind_safe {x : Kernel α} {f : α → Outcome Stop β} (hf : ∀ a, x = .ok a → Safe (f a)) :
    Safe (mark x >>= f) := by
  refine (mark_safe x).bind fun a ha => hf a ?_
  cases x with
  | error f => cases ha
  | ok b => exact congrArg Except.ok (Except.ok.inj ha)

theorem pure_safe (a : α) : Safe (pure a : Outcome Stop α) := fun h => by cases h

/-- Pushing a path is safe exactly when it does not climb. -/
theorem pushPath_safe_iff {path : CString} {elements : List CString} :
    Safe (pushPathMarked path elements) ↔ NeverAbove elements.length (components path.bytes) := by
  obtain ⟨hok, herror⟩ := canonicalizePathPushPath_eq path elements
  constructor
  · intro hsafe
    by_contra h
    apply hsafe
    rw [pushPathMarked, herror h]
    rfl
  · intro h
    obtain ⟨l, hl, -⟩ := hok h
    rw [pushPathMarked, hl]
    exact pure_safe _

/-- The targets of the links on the drivers. -/
def LinksIn (T : CString → Prop) (D : Drivers σ) : Prop :=
  ∀ s info len buf s', D.readlink s info = .ok (len, buf, s') → 0 ≤ len → T (cstringAt (buf.take 256))

/-- No target that fits into the buffer of `findfile_recursive` climbs. -/
def TargetsStay (T : CString → Prop) : Prop :=
  ∀ t, T t → strlen t ≤ 255 → NeverAbove 0 (components t.bytes)

/-- The string at the start of a buffer ends at its first NUL. -/
theorem strlen_cstringAt_le (buf : List Byte) : ∀ {n : Nat}, buf[n]? = some 0 → strlen (cstringAt buf) ≤ n := by
  induction buf with
  | nil => exact fun h => by cases h
  | cons c buf ih =>
    intro n hn
    by_cases hc : c = 0
    · have hempty : strlen (cstringAt (c :: buf)) = 0 := by simp [strlen, cstringAt, hc]
      rw [hempty]
      exact Nat.zero_le n
    · have hcons : strlen (cstringAt (c :: buf)) = strlen (cstringAt buf) + 1 := by
        show ((c :: buf).takeWhile (· ≠ 0)).length = (buf.takeWhile (· ≠ 0)).length + 1
        rw [List.takeWhile_cons_of_pos (by simpa using hc), List.length_cons]
      cases n with
      | zero => exact absurd (Option.some_inj.1 hn) hc
      | succ n =>
        rw [hcons]
        exact Nat.succ_le_succ (ih hn)

theorem linkElements_safe {T : CString → Prop} {D : Drivers σ} (hD : LinksIn T D) (hT : TargetsStay T)
    (s : FsState σ) (node : NodePtr) (leading : List CString) : Safe (linkElementsMarked D s node leading) := by
  unfold linkElementsMarked
  refine mark_bind_safe fun ⟨len, buf, s'⟩ hread => mark_bind_safe fun _ hlen => ?_
  rw [assert_eq_ok] at hlen
  cases hbyte : buf[len.toNat]? with
  | none => exact mark_safe _
  | some c =>
    refine mark_bind_safe fun _ hc => mark_bind_safe fun l _ => Safe.bind ?_ fun _ _ => pure_safe _
    rw [assert_eq_ok] at hc
    rw [hc] at hbyte
    rw [pushPath_safe_iff]
    have hstrlen := strlen_cstringAt_le _ hbyte
    unfold fsReadlink at hread
    split at hread
    · simp only [bind_eq_ok, pure_eq_ok, Prod.exists, Prod.mk.injEq] at hread
      obtain ⟨len', buf', driver, hdriver, rfl, rfl, rfl⟩ := hread
      have hlt : len'.toNat < (buf'.take 256).length := (List.getElem?_eq_some_iff.1 hbyte).1
      rw [List.length_take] at hlt
      exact (hT _ (hD _ _ _ _ _ hdriver hlen) (by omega)).mono (Nat.zero_le _)
    · simp only [pure_eq_ok, Prod.mk.injEq] at hread
      obtain ⟨rfl, -⟩ := hread
      exact absurd hlen (by decide)

theorem findfileLoop_safe {T : CString → Prop} {D : Drivers σ} (hD : LinksIn T D) (hT : TargetsStay T)
    {recurse : List CString → NodePtr → FsState σ → Outcome Stop (Option NodePtr × FsState σ)}
    (hrec : ∀ l p s, Safe (recurse l p s)) (elements : List CString) :
    ∀ (leading : List CString) (node : NodePtr) (s : FsState σ),
      Safe (findfileLoopMarked D recurse leading elements node s) := by
  induction elements with
  | nil => exact fun _ _ _ => pure_safe _
  | cons element rest ih =>
    intro leading node s
    unfold findfileLoopMarked
    refine mark_bind_safe fun found _ => mark_bind_safe fun released _ => ?_
    cases found.1 with
    | none => exact pure_safe _
    | some next =>
      dsimp only
      split
      · apply (linkElements_safe hD hT _ _ _).bind
        intro link _
        cases link.2.rootMount with
        | none => exact mark_safe _
        | some root =>
          refine mark_bind_safe fun walked _ => (hrec _ _ _).bind fun target _ => mark_bind_safe fun released _ => ?_
          cases target.1 with
          | none => exact pure_safe _
          | some node => exact ih _ _ _
      · exact ih _ _ _

theorem findfileRecursive_safe {T : CString → Prop} {D : Drivers σ} (hD : LinksIn T D) (hT : TargetsStay T)
    (level : Nat) : ∀ (l : List CString) (p : NodePtr) (s : FsState σ),
      Safe (findfileRecursiveMarked D level l p s) := by
  induction level with
  | zero => exact fun _ _ _ => pure_safe _
  | succ level ih => exact fun l p s => mark_bind_safe fun s' _ => findfileLoop_safe hD hT ih l [] p s'

/-- A search for no elements finds the node itself. -/
theorem findfileRecursive_nil_safe (D : Drivers σ) (level : Nat) (p : NodePtr) (s : FsState σ) :
    Safe (findfileRecursiveMarked D level [] p s) := by
  cases level with
  | zero => exact pure_safe _
  | succ level => exact mark_bind_safe fun s' _ => pure_safe _

/-- The root has no elements: every path is pushed onto the empty list. -/
theorem canonicalizePathList_root (path : CString) :
    canonicalizePathListMarked rootElement path = pushPathMarked path [] := by
  unfold canonicalizePathListMarked
  split
  · rfl
  · rfl

/-- The comparison of a path with `/`. -/
theorem memcmp_root (path : CString) :
    ∃ r, memcmp path.mem rootElement.mem 2 = .ok r ∧ (r = 0 ↔ path = rootElement) :=
  CString.memcmp_eq_right path rootElement

/-- `kopen` of a path that does not climb is safe if no link is met or no link climbs. -/
theorem kopen_safe {T : CString → Prop} {D : Drivers σ} (hD : LinksIn T D) (s : FsState σ) {path : CString}
    (flags : Word) (hpath : NeverAbove 0 (components path.bytes))
    (hlinks : resolveDots [] (components path.bytes) = [] ∨ TargetsStay T) : Safe (kopenMarked D s path flags) := by
  have hnode : Safe (kopenNodeMarked D s path) := by
    apply mark_bind_safe
    intro r _
    split
    · cases s.rootMount with
      | none => exact pure_safe _
      | some root => exact mark_bind_safe fun s' _ => pure_safe _
    · unfold findfileMarked
      rw [canonicalizePathList_root]
      have hpush : Safe (pushPathMarked path []) := pushPath_safe_iff.2 hpath
      apply hpush.bind
      intro l hl
      cases s.rootMount with
      | none => exact mark_safe _
      | some root =>
        apply mark_bind_safe
        intro walked hwalk
        rcases hlinks with hempty | hT
        · obtain ⟨l', hl', hmap⟩ := (canonicalizePathPushPath_eq path []).1 hpath
          rw [pushPathMarked, hl'] at hl
          obtain rfl : l' = l := Except.ok.inj hl
          obtain rfl : l' = [] := List.map_eq_nil_iff.1 (hmap.trans hempty)
          rw [walkMountGraph, Except.ok.injEq] at hwalk
          subst hwalk
          exact findfileRecursive_nil_safe D 10 _ s
        · exact findfileRecursive_safe hD hT 10 _ _ s
  refine hnode.bind fun ⟨node, s'⟩ _ => ?_
  cases node with
  | none => exact pure_safe _
  | some node => exact mark_bind_safe fun _ _ => mark_safe _

/-- A path that climbs stops every `kopen`. -/
theorem kopen_climbs (D : Drivers σ) (s : FsState σ) {path : CString} (flags : Word)
    (hpath : ¬ NeverAbove 0 (components path.bytes)) : kopenMarked D s path flags = .error .canonicalisation := by
  obtain ⟨r, hr, hroot⟩ := memcmp_root path
  have hne : r ≠ 0 := by
    intro hz
    rw [hroot.1 hz] at hpath
    exact hpath (neverAbove_nil 0)
  have hpush : pushPathMarked path [] = .error .canonicalisation := by
    rw [pushPathMarked, (canonicalizePathPushPath_eq path []).2 hpath]
    rfl
  have hfind : findfileMarked D s rootElement path = .error .canonicalisation := by
    rw [findfileMarked, canonicalizePathList_root, hpush]
    rfl
  have hnode : kopenNodeMarked D s path = .error .canonicalisation := by
    rw [kopenNodeMarked, hr]
    show (if r = 0 then _ else findfileMarked D s rootElement path) = _
    rw [if_neg hne, hfind]
  rw [kopenMarked, hnode]
  rfl

end Safe

/-! A filesystem on which every name is a link. -/

/-- A directory that is never freed. -/
def bareDirectory : FsNode := ⟨⟨true, false, false, false, true, false, 0⟩, -1⟩

/-- Every name is a link to `t`. -/
def everyLink (t : CString) : Drivers PUnit where
  finddir := fun s _ _ => .ok (some ⟨false, true, false, false, false, true, 0⟩, s)
  readlink := fun s _ => .ok (strlen t, t.mem, s)
  opens := fun s _ _ => .ok s
  closes := fun s _ => .ok s

/-- There are no names. -/
def noNames : Drivers PUnit where
  finddir := fun s _ _ => .ok (none, s)
  readlink := fun s _ => .ok (-1, [], s)
  opens := fun s _ _ => .ok s
  closes := fun s _ => .ok s

/-- The root directory, mounted. -/
def bareRoot : FsState PUnit where
  nodes := fun _ => bareDirectory
  nextNode := 1
  closed := []
  freed := []
  mounts := fun _ => ⟨rootElement, 0, [], -1⟩
  nextMount := 1
  rootMount := some 0
  driver := ⟨⟩

theorem noNames_linksIn (T : CString → Prop) : LinksIn T noNames := by
  intro s info len buf s' hread hlen
  rw [noNames, Except.ok.injEq, Prod.mk.injEq] at hread
  obtain ⟨rfl, -⟩ := hread
  exact absurd hlen (by decide)

/-- A string that fits into the buffer is read as it is. -/
theorem take_mem {t : CString} (ht : strlen t ≤ 255) : t.mem.take 256 = t.mem := by
  apply List.take_of_length_le
  rw [CString.mem, List.length_append, List.length_singleton]
  exact Nat.succ_le_succ ht

theorem cstringAt_mem {t : CString} (ht : strlen t ≤ 255) : cstringAt (t.mem.take 256) = t := by
  rw [take_mem ht]
  have hbytes : (cstringAt t.mem).bytes = t.bytes := cstringAt_append [] t.nonzero
  cases t
  simpa [cstringAt] using hbytes

theorem everyLink_linksIn {T : CString → Prop} {t : CString} (hT : T t) (ht : strlen t ≤ 255) :
    LinksIn T (everyLink t) := by
  intro s info len buf s' hread _
  rw [everyLink, Except.ok.injEq, Prod.mk.injEq, Prod.mk.injEq] at hread
  obtain ⟨-, rfl, -⟩ := hread
  rw [cstringAt_mem ht]
  exact hT

/-- There, a path with names stops at a link whose target climbs. -/
theorem kopen_link_climbs {path t : CString} (hpath : NeverAbove 0 (components path.bytes))
    (hnames : resolveDots [] (components path.bytes) ≠ []) (ht : strlen t ≤ 255)
    (hclimb : ¬ NeverAbove 0 (components t.bytes)) :
    kopenMarked (everyLink t) bareRoot path 0#32 = .error .canonicalisation := by
  obtain ⟨r, hr, hroot⟩ := memcmp_root path
  have hne : r ≠ 0 := by
    intro hz
    rw [hroot.1 hz] at hnames
    exact hnames rfl
  obtain ⟨l, hl, hmap⟩ := (canonicalizePathPushPath_eq path []).1 hpath
  cases l with
  | nil => exact absurd hmap.symm hnames
  | cons e rest =>
    have hpush : pushPathMarked path [] = .ok (e :: rest) := by
      rw [pushPathMarked, hl]
      rfl
    -- the first name is looked up in the root directory, and is a link
    let s : FsState PUnit := (fsNodeNew bareRoot ⟨false, true, false, false, false, true, 0⟩).2
    have hlink : linkElementsMarked (everyLink t) s 1 [] = .error .canonicalisation := by
      have hread : fsReadlink (everyLink t) s 1 = .ok ((strlen t : Int), t.mem.take 256, s) := rfl
      have hbyte : (t.mem.take 256)[(strlen t : Int).toNat]? = some 0 := by
        rw [take_mem ht, Int.toNat_natCast]
        exact List.getElem?_concat_length
      have htarget : pushPathMarked (cstringAt (t.mem.take 256)) [] = .error .canonicalisation := by
        rw [cstringAt_mem ht, pushPathMarked, (canonicalizePathPushPath_eq t []).2 hclimb]
        rfl
      have hlen : kassert (0 ≤ (strlen t : Int)) = .ok ⟨⟩ := assert_pos (Int.natCast_nonneg _)
      simp only [linkElementsMarked, hread, mark_ok, ok_bind, hlen, hbyte, copyElements, htarget, error_bind]
      rfl
    have hloop : findfileLoopMarked (everyLink t) (findfileRecursiveMarked (everyLink t) 9) [] (e :: rest) 0
        bareRoot = .error .canonicalisation := by
      have hfind : fsFinddir (everyLink t) bareRoot 0 e = .ok (some 1, s) := rfl
      have hrelease : fsNodeRelease (everyLink t) s 0 = .ok (some 0, s) := rfl
      have hflag : (s.nodes 1).info.symlink = true := rfl
      simp only [findfileLoopMarked, hfind, mark_ok, ok_bind, hrelease, if_pos hflag, hlink, error_bind]
    have hwalk : walkMountGraph bareRoot (e :: rest) 0 = .ok (0, e :: rest) := rfl
    have hreference : fsNodeReference bareRoot 0 = .ok bareRoot := rfl
    have hfind : findfileMarked (everyLink t) bareRoot rootElement path = .error .canonicalisation := by
      have hmount : bareRoot.rootMount = some 0 := rfl
      have hroot : (bareRoot.mounts 0).node = 0 := rfl
      simp only [findfileMarked, canonicalizePathList_root, hpush, ok_bind, hmount, hwalk, mark_ok, hroot,
        findfileRecursiveMarked, hreference]
      exact hloop
    have hnode : kopenNodeMarked (everyLink t) bareRoot path = .error .canonicalisation := by
      rw [kopenNodeMarked, hr]
      show (if r = 0 then _ else findfileMarked (everyLink t) bareRoot rootElement path) = _
      rw [if_neg hne, hfind]
    rw [kopenMarked, hnode]
    rfl

/-- **Canonicalisation in `kopen`.** Let the links of the filesystem have targets in `T`. `kopen` of `path` never stops
in canonicalisation, whatever the filesystem holds, exactly when `path` does not climb above the root, and no target in
`T` does or `path` leads to the root itself, so that no link is met. -/
theorem kopen_canonical_iff (T : CString → Prop) (path : CString) :
    (∀ (σ : Type) (D : Drivers σ) (s : FsState σ) (flags : Word), LinksIn T D →
      kopenMarked D s path flags ≠ .error .canonicalisation) ↔
    NeverAbove 0 (components path.bytes) ∧ (resolveDots [] (components path.bytes) = [] ∨ TargetsStay T) := by
  constructor
  · intro h
    have hpath : NeverAbove 0 (components path.bytes) := by
      by_contra hclimb
      exact h PUnit noNames bareRoot 0#32 (noNames_linksIn T) (kopen_climbs _ _ _ hclimb)
    refine ⟨hpath, ?_⟩
    by_contra hnot
    obtain ⟨hnames, hT⟩ := not_or.1 hnot
    simp only [TargetsStay, not_forall] at hT
    obtain ⟨t, hT, ht, hclimb⟩ := hT
    exact h PUnit (everyLink t) bareRoot 0#32 (everyLink_linksIn hT ht)
      (kopen_link_climbs hpath hnames ht hclimb)
  · rintro ⟨hpath, hlinks⟩ σ D s flags hD
    exact kopen_safe hD s flags hpath hlinks

/-- The path `..`. -/
def parentPath : CString := ⟨[0x2E, 0x2E], by decide⟩

/-- It stops the kernel in canonicalisation. -/
theorem kopen_parent_stops :
    kopenMarked noNames bareRoot parentPath 0#32 = .error .canonicalisation ∧
      kopen noNames bareRoot parentPath 0#32 = .error .assertion := by
  have hcomponents : components parentPath.bytes = [dotdot] := by
    rw [components, List.splitOnP_eq_singleton (by decide)]
    rfl
  have hclimb : ¬ NeverAbove 0 (components parentPath.bytes) := by
    rw [hcomponents, neverAbove_dotdot]
    exact fun h => absurd h.1 (Nat.lt_irrefl 0)
  have hmarked := kopen_climbs noNames bareRoot 0#32 hclimb
  refine ⟨hmarked, ?_⟩
  rw [← unmark_kopen, hmarked]
  rfl

end Myunix.Fs
