import Myunix.Fs.Canonical

/-!
# Canonical paths

`canonicalize_path_push_path` rewrites its path into a buffer of tokens and walks the buffer. What it is for is simpler:
a fold over what stands between the slashes (`referenceFold`). `push_path_canonical` says that it is that fold, that its
results are canonical and fixed by a second pass, and that pushing a path is pushing its parts one after the other.
-/

namespace Myunix.Fs

open Lib

/-! ## The tests for `.` and `..` -/

theorem dotdot_nonzero : (0 : Byte) ∉ dotdot := by decide

theorem dot_nonzero : (0 : Byte) ∉ dot := by decide

/-- The string `..`. -/
def dotdotString : CString := ⟨dotdot, dotdot_nonzero⟩

/-- The string `.`. -/
def dotString : CString := ⟨dot, dot_nonzero⟩

/-- The round as the source writes it, with `memcmp` over the special names and their NULs. -/
def pushTokenMemcmp (elements : List CString) (token : CString) : Kernel (List CString) := do
  if (← memcmp token.mem dotdotString.mem 3) = 0 then
    kassert (elements ≠ [])
    return elements.dropLast
  else if (← memcmp token.mem dotString.mem 2) = 0 then return elements
  else return elements ++ [token]

/-- Comparing the NUL as well makes the tests exact, and they do not read behind the token. -/
theorem pushTokenMemcmp_eq (elements : List CString) (token : CString) :
    pushTokenMemcmp elements token = pushToken elements token := by
  obtain ⟨r, hr, hr0⟩ := token.memcmp_eq_right dotdotString
  obtain ⟨t, ht, ht0⟩ := token.memcmp_eq_right dotString
  have hup : r = 0 ↔ token.bytes = [0x2E, 0x2E] := hr0.trans (by cases token; simp [dotdotString, dotdot])
  have hstay : t = 0 ↔ token.bytes = [0x2E] := ht0.trans (by cases token; simp [dotString, dot])
  have hr' : memcmp token.mem dotdotString.mem 3 = .ok r := hr
  have ht' : memcmp token.mem dotString.mem 2 = .ok t := ht
  unfold pushTokenMemcmp pushToken
  simp only [hr', ht', ok_bind, hup, hstay]

/-! ## The fold -/

/-- One piece of a path: empty pieces and `.` are dropped, `..` takes the last name away. -/
def referenceStep (names : List (List Byte)) (piece : List Byte) : List (List Byte) :=
  if piece = [] ∨ piece = dot then names
  else if piece = dotdot then names.dropLast
  else names ++ [piece]

/-- What stands between the slashes of a path. -/
def pieces (path : List Byte) : List (List Byte) := path.splitOnP (· = 0x2F)

/-- The pieces of a path, one after the other. -/
def referenceFold (names : List (List Byte)) (path : List Byte) : List (List Byte) := (pieces path).foldl referenceStep names

/-- No `..` of the path meets an empty list. -/
def NoUnderflow (names : List (List Byte)) (path : List Byte) : Prop :=
  ∀ start, start ++ [dotdot] <+: pieces path → start.foldl referenceStep names ≠ []

/-- A name that a canonical list may have. -/
structure CanonicalName (name : List Byte) : Prop where
  nonempty : name ≠ []
  no_slash : (0x2F : Byte) ∉ name
  not_dot : name ≠ dot
  not_dotdot : name ≠ dotdot

section Fold

variable {names ps : List (List Byte)} {path : List Byte}

/-- Dropping the empty pieces first makes no difference. -/
theorem foldl_referenceStep (ps : List (List Byte)) : ∀ names : List (List Byte),
    ps.foldl referenceStep names = resolveDots names (ps.filter (· ≠ [])) := by
  induction ps with
  | nil => exact fun _ => rfl
  | cons c ps ih =>
    intro names
    rw [List.foldl_cons, ih]
    by_cases hempty : c = []
    · subst hempty
      rfl
    · have hstep : referenceStep names c = resolveStep names c := by
        unfold referenceStep resolveStep
        by_cases hdot : c = dot
        · rw [if_pos (Or.inr hdot), if_neg (by rw [hdot]; decide), if_pos hdot]
        · rw [if_neg (not_or.2 ⟨hempty, hdot⟩), if_neg hdot]
      rw [List.filter_cons_of_pos (by simpa using hempty), hstep]
      rfl

theorem referenceFold_eq (names : List (List Byte)) (path : List Byte) :
    referenceFold names path = resolveDots names (components path) := foldl_referenceStep _ names

/-- A path whose `..` always find a name never climbs. -/
theorem neverAbove_of_pieces (ps : List (List Byte)) : ∀ names : List (List Byte),
    (∀ start, start ++ [dotdot] <+: ps → start.foldl referenceStep names ≠ []) →
      NeverAbove names.length (ps.filter (· ≠ [])) := by
  induction ps with
  | nil => exact fun _ _ => neverAbove_nil _
  | cons c ps ih =>
    intro names h
    have hrest := ih (referenceStep names c) fun start hstart => h (c :: start) ((List.prefix_cons_inj c).2 hstart)
    by_cases hempty : c = []
    · subst hempty
      exact hrest
    · rw [List.filter_cons_of_pos (by simpa using hempty)]
      by_cases hup : c = dotdot
      · subst hup
        have hne := h [] ((List.prefix_cons_inj dotdot).2 List.nil_prefix)
        have hstep : referenceStep names dotdot = names.dropLast := by
          rw [referenceStep, if_neg (by decide), if_pos rfl]
        rw [hstep, List.length_dropLast] at hrest
        exact neverAbove_dotdot.2 ⟨List.length_pos_iff.2 hne, hrest⟩
      · by_cases hdot : c = dot
        · subst hdot
          have hstep : referenceStep names dot = names := if_pos (Or.inr rfl)
          rw [hstep] at hrest
          exact neverAbove_dot.2 hrest
        · have hstep : referenceStep names c = names ++ [c] := by
            rw [referenceStep, if_neg (not_or.2 ⟨hempty, hdot⟩), if_neg hup]
          rw [hstep, List.length_append, List.length_singleton] at hrest
          exact (neverAbove_name (by simp [isName, hup, hdot])).2 hrest

theorem NoUnderflow.neverAbove (h : NoUnderflow names path) : NeverAbove names.length (components path) :=
  neverAbove_of_pieces _ names h

/-! ## Canonical names -/

theorem not_mem_piece {c : List Byte} (hc : c ∈ pieces path) : (0x2F : Byte) ∉ c := by
  have hfold : ∀ (l cur : List Byte), (0x2F : Byte) ∉ cur → ∀ c ∈ l.splitOnPPrepend (· = 0x2F) cur, (0x2F : Byte) ∉ c := by
    intro l
    induction l with
    | nil =>
      intro cur hcur c hc
      simp only [List.splitOnPPrepend_nil, List.mem_singleton] at hc
      rw [hc, List.mem_reverse]
      exact hcur
    | cons b l ih =>
      intro cur hcur c hc
      by_cases hb : b = 0x2F
      · rw [List.splitOnPPrepend_cons_pos (by simpa using hb), List.splitOnP_eq_splitOnPPrepend] at hc
        rcases List.mem_cons.1 hc with rfl | hc
        · rw [List.mem_reverse]
          exact hcur
        · exact ih [] List.not_mem_nil c hc
      · rw [List.splitOnPPrepend_cons_neg (by simpa using hb)] at hc
        refine ih (b :: cur) ?_ c hc
        rw [List.mem_cons]
        exact not_or.2 ⟨Ne.symm hb, hcur⟩
  rw [pieces, List.splitOnP_eq_splitOnPPrepend] at hc
  exact hfold path [] List.not_mem_nil c hc

theorem resolveStep_canonical {c : List Byte} (hn : ∀ x ∈ names, CanonicalName x) (hc : c ≠ []) (hs : (0x2F : Byte) ∉ c) :
    ∀ x ∈ resolveStep names c, CanonicalName x := by
  intro x hx
  unfold resolveStep at hx
  split at hx
  · exact hn x ((List.dropLast_sublist names).subset hx)
  · next hup =>
    split at hx
    · exact hn x hx
    · next hdot =>
      rcases List.mem_append.1 hx with hx | hx
      · exact hn x hx
      · rw [List.mem_singleton] at hx
        subst hx
        exact ⟨hc, hs, hdot, hup⟩

/-- Resolving keeps lists canonical. -/
theorem resolveDots_canonical (cs : List (List Byte)) (hcs : ∀ c ∈ cs, c ≠ [] ∧ (0x2F : Byte) ∉ c) :
    ∀ names : List (List Byte), (∀ x ∈ names, CanonicalName x) → ∀ x ∈ resolveDots names cs, CanonicalName x := by
  induction cs with
  | nil => exact fun _ hn => hn
  | cons c cs ih =>
    intro names hn
    obtain ⟨hc, hs⟩ := hcs c List.mem_cons_self
    exact ih (fun d hd => hcs d (List.mem_cons_of_mem _ hd)) _ (resolveStep_canonical hn hc hs)

theorem mem_components {c : List Byte} (hc : c ∈ components path) : c ≠ [] ∧ (0x2F : Byte) ∉ c := by
  obtain ⟨hmem, hne⟩ := List.mem_filter.1 hc
  exact ⟨by simpa using hne, not_mem_piece hmem⟩

/-- Canonical names are appended as they are. -/
theorem resolveDots_names (cs : List (List Byte)) (hcs : ∀ c ∈ cs, CanonicalName c) :
    ∀ names : List (List Byte), resolveDots names cs = names ++ cs := by
  induction cs with
  | nil => exact fun names => (List.append_nil names).symm
  | cons c cs ih =>
    intro names
    have hc := hcs c List.mem_cons_self
    have hstep : resolveStep names c = names ++ [c] := by
      rw [resolveStep, if_neg hc.not_dotdot, if_neg hc.not_dot]
    have hrest := ih (fun d hd => hcs d (List.mem_cons_of_mem _ hd)) (names ++ [c])
    rw [resolveDots, List.foldl_cons, hstep]
    rw [resolveDots] at hrest
    rw [hrest, List.append_assoc, List.singleton_append]

theorem neverAbove_names (cs : List (List Byte)) (hcs : ∀ c ∈ cs, CanonicalName c) (depth : Nat) : NeverAbove depth cs := by
  intro start hstart
  have hnot : dotdot ∉ start := fun hmem => (hcs _ (hstart.subset hmem)).not_dotdot rfl
  rw [List.count_eq_zero_of_not_mem hnot]
  exact Nat.zero_le _

end Fold

/-! ## Joining paths -/

/-- `/` is not NUL. -/
theorem slash_nonzero : (0x2F : Byte) ≠ 0 := by decide

theorem joined_nonzero {names : List (List Byte)} (h : ∀ n ∈ names, (0 : Byte) ∉ n) :
    (0 : Byte) ∉ [0x2F].intercalate names := by
  induction names with
  | nil => exact List.not_mem_nil
  | cons n names ih =>
    have hn := h n List.mem_cons_self
    cases names with
    | nil =>
      rw [List.intercalate_singleton]
      exact hn
    | cons m names =>
      rw [List.intercalate_cons_cons, List.mem_append, List.mem_append, List.mem_singleton]
      exact not_or.2 ⟨not_or.2 ⟨hn, slash_nonzero.symm⟩, ih fun x hx => h x (List.mem_cons_of_mem _ hx)⟩

theorem bytes_nonzero {l : List CString} : ∀ n ∈ l.map (·.bytes), (0 : Byte) ∉ n := by
  intro n hn
  obtain ⟨t, -, rfl⟩ := List.mem_map.1 hn
  exact t.nonzero

/-- The elements with slashes between them. -/
def joinPath (l : List CString) : CString := ⟨[0x2F].intercalate (l.map (·.bytes)), joined_nonzero bytes_nonzero⟩

theorem concat_nonzero (p q : CString) : (0 : Byte) ∉ p.bytes ++ 0x2F :: q.bytes := by
  rw [List.mem_append, List.mem_cons]
  exact not_or.2 ⟨p.nonzero, not_or.2 ⟨slash_nonzero.symm, q.nonzero⟩⟩

/-- `p ++ '/' ++ q`. -/
def concatPath (p q : CString) : CString := ⟨p.bytes ++ 0x2F :: q.bytes, concat_nonzero p q⟩

section Join

variable {l : List CString} {p q : CString}

/-- The components of joined names are the names. -/
theorem components_join (h : ∀ x ∈ l, CanonicalName x.bytes) : components (joinPath l).bytes = l.map (·.bytes) := by
  by_cases hempty : l = []
  · subst hempty
    rfl
  · have hslash : ∀ n ∈ l.map (·.bytes), (0x2F : Byte) ∉ n := by
      intro n hn
      obtain ⟨t, ht, rfl⟩ := List.mem_map.1 hn
      exact (h t ht).no_slash
    have hsplit := List.splitOn_intercalate (0x2F : Byte) hslash (by simpa using hempty)
    rw [List.splitOn_eq_splitOnP] at hsplit
    have hpieces : (joinPath l).bytes.splitOnP (fun b => decide (b = 0x2F)) = l.map (·.bytes) := hsplit
    rw [components, hpieces, List.filter_eq_self]
    intro n hn
    obtain ⟨t, ht, rfl⟩ := List.mem_map.1 hn
    simpa using (h t ht).nonempty

/-- Pushing a path is pushing its tokens. -/
theorem canonicalizePathPushPath_tokens (p : CString) : ∃ tokens : List CString,
    tokens.map (·.bytes) = components p.bytes ∧ ∀ e, canonicalizePathPushPath p e = tokens.foldlM pushToken e := by
  obtain ⟨tokens, htokens, hmap⟩ := bufferTokens_components p
  refine ⟨tokens, hmap, fun e => ?_⟩
  rw [canonicalizePathPushPath, htokens, ok_bind]

/-- **Paths push one after the other.** -/
theorem canonicalizePathPushPath_concat (p q : CString) (e : List CString) :
    canonicalizePathPushPath (concatPath p q) e =
      canonicalizePathPushPath p e >>= canonicalizePathPushPath q := by
  obtain ⟨ts, hts, hp⟩ := canonicalizePathPushPath_tokens p
  obtain ⟨us, hus, hq⟩ := canonicalizePathPushPath_tokens q
  obtain ⟨vs, hvs, hpq⟩ := canonicalizePathPushPath_tokens (concatPath p q)
  have happend : vs = ts ++ us := by
    apply map_bytes_inj
    rw [List.map_append, hts, hus, hvs]
    exact components_append p.bytes q.bytes
  rw [hpq, happend, List.foldlM_append, hp]
  exact bind_congr fun l => (hq l).symm

/-- A canonical list is what its joined names push onto the empty list. -/
theorem canonicalizePathPushPath_join (h : ∀ x ∈ l, CanonicalName x.bytes) :
    canonicalizePathPushPath (joinPath l) [] = .ok l := by
  have hnames : ∀ c ∈ l.map (·.bytes), CanonicalName c := by
    intro c hc
    obtain ⟨t, ht, rfl⟩ := List.mem_map.1 hc
    exact h t ht
  have hcomp := components_join h
  obtain ⟨l', hl', hbytes⟩ := (canonicalizePathPushPath_eq (joinPath l) []).1
    (by rw [hcomp]; exact neverAbove_names _ hnames _)
  rw [hcomp, resolveDots_names _ hnames, List.map_nil, List.nil_append] at hbytes
  rw [hl', map_bytes_inj hbytes]

end Join

/-- **Canonical paths.** Pushing a path onto a canonical list, where no `..` meets an empty list, is the fold over its
pieces. The result is canonical; its joined names push to the same list again; and a longer path goes on from it. -/
theorem push_path_canonical (e : List CString) (p : CString) (he : ∀ x ∈ e, CanonicalName x.bytes)
    (hp : NoUnderflow (e.map (·.bytes)) p.bytes) :
    ∃ l, canonicalizePathPushPath p e = .ok l ∧
      l.map (·.bytes) = referenceFold (e.map (·.bytes)) p.bytes ∧
      (∀ x ∈ l, CanonicalName x.bytes) ∧
      canonicalizePathPushPath (joinPath l) [] = .ok l ∧
      ∀ q, canonicalizePathPushPath (concatPath p q) e = canonicalizePathPushPath q l := by
  have hnever := hp.neverAbove
  rw [List.length_map] at hnever
  obtain ⟨l, hl, hbytes⟩ := (canonicalizePathPushPath_eq p e).1 hnever
  have hnames : ∀ x ∈ l, CanonicalName x.bytes := by
    intro x hx
    have hmem : x.bytes ∈ l.map (·.bytes) := List.mem_map_of_mem hx
    rw [hbytes] at hmem
    refine resolveDots_canonical _ (fun c hc => mem_components hc) _ (fun y hy => ?_) _ hmem
    obtain ⟨t, ht, rfl⟩ := List.mem_map.1 hy
    exact he t ht
  refine ⟨l, hl, ?_, hnames, canonicalizePathPushPath_join hnames, fun q => ?_⟩
  · rw [referenceFold_eq]
    exact hbytes
  · rw [canonicalizePathPushPath_concat, hl, ok_bind]

theorem elementA_nonzero : (0 : Byte) ∉ [(0x61 : Byte)] := by decide

/-- The name `a`. -/
def elementA : CString := ⟨[0x61], elementA_nonzero⟩

theorem upDown_nonzero : (0 : Byte) ∉ [(0x2E : Byte), 0x2F, 0x2E, 0x2E, 0x2F, 0x2F, 0x61] := by decide

/-- The path `./..//a`. -/
def upDown : CString := ⟨[0x2E, 0x2F, 0x2E, 0x2E, 0x2F, 0x2F, 0x61], upDown_nonzero⟩

/-- From the directory `a`, the path `./..//a` leads to `a`. -/
theorem push_path_up_down : ∃ l, canonicalizePathPushPath upDown [elementA] = .ok l ∧ l = [elementA] := by
  have hname : ∀ x ∈ [elementA], CanonicalName x.bytes := by
    intro x hx
    rw [List.mem_singleton.1 hx]
    exact ⟨by decide, by decide, by decide, by decide⟩
  have hpieces : pieces upDown.bytes = [dot, dotdot, [], [0x61]] := by decide
  have hno : NoUnderflow ([elementA].map (·.bytes)) upDown.bytes := by
    intro start hstart
    rw [hpieces] at hstart
    obtain ⟨rest, hrest⟩ := hstart
    -- the only `..` stands behind one piece
    rcases start with _ | ⟨a, _ | ⟨b, _ | ⟨c, _ | ⟨d, start⟩⟩⟩⟩
    · simp [dot, dotdot] at hrest
    · have ha : a = dot := by simpa using (List.cons.inj hrest).1
      subst ha
      decide
    · simp [dotdot] at hrest
    · simp [dotdot] at hrest
    · simp at hrest
  obtain ⟨l, hl, hfold, -⟩ := push_path_canonical [elementA] upDown hname hno
  refine ⟨l, hl, map_bytes_inj (hfold.trans ?_)⟩
  decide

end Myunix.Fs
