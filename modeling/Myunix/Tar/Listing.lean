import Mathlib.Data.List.Pairwise
import Myunix.Tar.Headers

/-!
# Listing and lookup

`tar_readdir` takes every name that starts with the name of the directory, whether a `/` follows or not, and takes a `/`
off what follows. So it also lists siblings of the directory whose names start with its name, and in the root names that
start with a `/`; `tar_finddir` finds neither (`siblings_listed`). `listing_agrees_iff` says that the two agree in the
directories in which there is no such name, no name stands with and without a `/` behind it, and a name of two slashes
behind the directory's, which is listed as an empty one, comes last.
-/

namespace Myunix.Tar

open Lib Fs

/-- A single path component. -/
def Component (s : List Byte) : Prop := s ≠ [] ∧ slash ∉ s

instance (s : List Byte) : Decidable (Component s) := inferInstanceAs (Decidable (_ ∧ _))

/-- The path of `s` in a directory. -/
def pathOf (dir s : List Byte) : List Byte := if dir = [] then s else dir ++ slash :: s

/-- What `tar_readdir` also takes for the directory: its name without a `/`, or a `/` for the root. -/
def stem (dir : List Byte) : List Byte := if dir = [] then [slash] else dir

/-! ## One name -/

section Names

variable {dir s n r t : List Byte}

theorem Component.head_ne (h : Component s) (u : List Byte) : (s ++ u).head? ≠ some slash := by
  cases s with
  | nil => exact absurd rfl h.1
  | cons c s =>
    intro hc
    simp only [List.cons_append, List.head?_cons, Option.some.injEq] at hc
    exact h.2 (hc ▸ List.mem_cons_self)

theorem NameOf.split (h : NameOf s n) : ∃ u, n = s ++ u := by
  rcases h with rfl | rfl
  · exact ⟨[], (List.append_nil _).symm⟩
  · exact ⟨[slash], rfl⟩

theorem takeWhile_component (h : slash ∉ s) :
    s.takeWhile (· ≠ slash) = s ∧ (s ++ [slash]).takeWhile (· ≠ slash) = s := by
  induction s with
  | nil => exact ⟨rfl, rfl⟩
  | cons c s ih =>
    simp only [List.mem_cons, not_or] at h
    have hc : c ≠ slash := Ne.symm h.1
    obtain ⟨h1, h2⟩ := ih h.2
    constructor
    · rw [List.takeWhile_cons_of_pos (by simpa using hc), h1]
    · rw [List.cons_append, List.takeWhile_cons_of_pos (by simpa using hc), h2]

/-- A path of one element, with or without a `/` behind it. -/
theorem elementOf_iff : elementOf r = some s ↔ r ≠ [] ∧ slash ∉ s ∧ NameOf s r := by
  unfold elementOf
  constructor
  · intro h
    dsimp only at h
    split at h
    · cases h
    next hne =>
      split at h
      next hname =>
        obtain rfl := Option.some.inj h
        refine ⟨hne, fun hs => ?_, hname⟩
        simpa using List.mem_takeWhile_imp hs
      · cases h
  · rintro ⟨hne, hslash, hname⟩
    have htake : r.takeWhile (· ≠ slash) = s := by
      rcases hname with rfl | rfl
      · exact (takeWhile_component hslash).1
      · exact (takeWhile_component hslash).2
    dsimp only
    rw [htake, if_neg hne, if_pos hname]

/-- What follows the name of the directory, with the `/` taken off. -/
theorem stripSlash_cases (t : List Byte) :
    t = slash :: stripSlash t ∨ t = stripSlash t ∧ (stripSlash t).head? ≠ some slash := by
  cases t with
  | nil => exact .inr ⟨rfl, by simp [stripSlash]⟩
  | cons c t =>
    by_cases hc : c = slash
    · subst hc
      exact .inl rfl
    · have hsame : stripSlash (c :: t) = c :: t := if_neg (by simpa using hc)
      rw [hsame]
      exact .inr ⟨rfl, by simpa using hc⟩

theorem stripSlash_component (h : Component s) (u : List Byte) :
    stripSlash (s ++ u) = s ++ u ∧ stripSlash (slash :: (s ++ u)) = s ++ u :=
  ⟨if_neg (h.head_ne u), rfl⟩

/-- The names of the form `p ++ s` are listed as `s` where `stripSlash` takes nothing else off. -/
theorem listedName_of (hp : ∀ u, n = t ++ s ++ u → dir <+: n ∧ stripSlash (n.drop dir.length) = s ++ u)
    (hs : Component s) (hn : NameOf (t ++ s) n) : listedName dir n = some s := by
  rcases hn with rfl | rfl
  · obtain ⟨hpre, hstrip⟩ := hp [] (List.append_nil _).symm
    rw [listedName, if_pos hpre, hstrip, elementOf_iff, List.append_nil]
    exact ⟨hs.1, hs.2, .inl rfl⟩
  · obtain ⟨hpre, hstrip⟩ := hp [slash] rfl
    rw [listedName, if_pos hpre, hstrip, elementOf_iff]
    exact ⟨by simp, hs.2, .inr rfl⟩

/-- An entry of the directory is listed. -/
theorem listedName_child (hs : Component s) (hn : NameOf (pathOf dir s) n) : listedName dir n = some s := by
  unfold pathOf at hn
  split at hn
  next hdir =>
    subst hdir
    refine listedName_of (t := []) (fun u hu => ⟨List.nil_prefix, ?_⟩) hs hn
    rw [hu]
    exact (stripSlash_component hs u).1
  next hdir =>
    rw [show dir ++ slash :: s = dir ++ [slash] ++ s by simp] at hn
    refine listedName_of (t := dir ++ [slash]) (fun u hu => ?_) hs hn
    have hsplit : n = dir ++ (slash :: (s ++ u)) := by rw [hu]; simp
    rw [hsplit, List.drop_left]
    exact ⟨⟨_, rfl⟩, (stripSlash_component hs u).2⟩

/-- So is a name that goes on without a `/`. -/
theorem listedName_stray (hs : Component s) (hn : NameOf (stem dir ++ s) n) : listedName dir n = some s := by
  refine listedName_of (t := stem dir) (fun u hu => ?_) hs hn
  rw [List.append_assoc] at hu
  unfold stem at hu
  split at hu
  next hdir =>
    subst hdir
    rw [hu]
    exact ⟨List.nil_prefix, (stripSlash_component hs u).2⟩
  next hdir =>
    rw [hu, List.drop_left]
    exact ⟨⟨_, rfl⟩, (stripSlash_component hs u).1⟩

/-- **All names that are listed.** -/
theorem listedName_cases (h : listedName dir n = some s) : slash ∉ s ∧
    (s = [] ∧ n = dir ++ [slash, slash] ∨ s ≠ [] ∧ (NameOf (pathOf dir s) n ∨ NameOf (stem dir ++ s) n)) := by
  unfold listedName at h
  split at h
  next hpre =>
    obtain ⟨t, rfl⟩ := hpre
    rw [List.drop_left, elementOf_iff] at h
    obtain ⟨hne, hslash, hname⟩ := h
    refine ⟨hslash, ?_⟩
    by_cases hs : s = []
    · subst hs
      refine .inl ⟨rfl, ?_⟩
      have hr : stripSlash t = [slash] := hname.resolve_left hne
      rcases stripSlash_cases t with ht | ⟨-, hhead⟩
      · rw [ht, hr]
      · rw [hr] at hhead
        exact absurd rfl hhead
    · refine .inr ⟨hs, ?_⟩
      have happend : ∀ p : List Byte, NameOf (p ++ s) (p ++ stripSlash t) := by
        intro p
        rcases hname with hr | hr
        · exact .inl (by rw [hr])
        · exact .inr (by rw [hr, List.append_assoc])
      unfold pathOf stem
      rcases stripSlash_cases t with ht | ⟨ht, -⟩
      · rw [ht]
        by_cases hdir : dir = []
        · subst hdir
          exact .inr (happend [slash])
        · rw [if_neg hdir]
          left
          have := happend (dir ++ [slash])
          simpa using this
      · rw [ht]
        by_cases hdir : dir = []
        · subst hdir
          exact .inl (happend [])
        · rw [if_neg hdir, if_neg hdir]
          exact .inr (happend dir)
  · cases h

/-- No name is both. -/
theorem child_not_stray (hs : Component s) (hn : NameOf (pathOf dir s) n) : ¬ NameOf (stem dir ++ s) n := by
  intro hstray
  obtain ⟨u, hu⟩ := hn.split
  obtain ⟨v, hv⟩ := hstray.split
  rw [hu] at hv
  unfold pathOf stem at hv
  by_cases hdir : dir = []
  · rw [if_pos hdir, if_pos hdir] at hv
    exact hs.head_ne u (by rw [hv]; rfl)
  · rw [if_neg hdir, if_neg hdir, List.append_assoc, List.append_assoc, List.append_cancel_left_eq] at hv
    exact hs.head_ne v (by rw [← hv]; rfl)

/-- A name that is listed is part of the name. -/
theorem listedName_nonzero (h : listedName dir n = some s) (hn : (0 : Byte) ∉ n) : (0 : Byte) ∉ s := by
  obtain ⟨-, ⟨rfl, -⟩ | ⟨-, hname | hname⟩⟩ := listedName_cases h
  · exact List.not_mem_nil
  · obtain ⟨u, rfl⟩ := hname.split
    intro hs
    refine hn (List.mem_append_left _ ?_)
    unfold pathOf
    split
    · exact hs
    · exact List.mem_append_right _ (List.mem_cons_of_mem _ hs)
  · obtain ⟨u, rfl⟩ := hname.split
    exact fun hs => hn (List.mem_append_left _ (List.mem_append_right _ hs))

end Names

/-! ## The names of an archive -/

/-- **When listing and lookup agree** on the names of an archive. -/
structure Unambiguous (E : List (List Byte)) (dir : List Byte) : Prop where
  /-- No name goes on behind that of the directory without a `/`. -/
  noStray : ∀ n ∈ E, ∀ s, Component s → ¬ NameOf (stem dir ++ s) n
  /-- No entry of the directory is there with and without a `/` behind its name. -/
  oneForm : ∀ s, Component s → ¬ (pathOf dir s ∈ E ∧ pathOf dir s ++ [slash] ∈ E)
  /-- The name that is listed as an empty one is behind the entries of the directory. -/
  blankLast : E.Pairwise fun n n' => n = dir ++ [slash, slash] → ∀ s, Component s → ¬ NameOf (pathOf dir s) n'

section Names

variable {E : List (List Byte)} {dir : List Byte}

/-- A list holds the elements with a property in front iff they have consecutive indices from 0. -/
theorem consecutive_iff {α : Type} (p : α → Prop) (l : List α) :
    (∃ m, ∀ i : Nat, (∃ a, l[i]? = some a ∧ p a) ↔ i < m) ↔ l.Pairwise fun a b => p b → p a := by
  constructor
  · rintro ⟨m, hm⟩
    rw [List.pairwise_iff_getElem]
    intro i j hi hj hij hp
    have hjm : j < m := (hm j).1 ⟨l[j], List.getElem?_eq_getElem hj, hp⟩
    obtain ⟨a, ha, hpa⟩ := (hm i).2 (Nat.lt_trans hij hjm)
    rw [List.getElem?_eq_getElem hi, Option.some.injEq] at ha
    rwa [ha]
  · intro h
    induction l with
    | nil => exact ⟨0, fun i => by simp⟩
    | cons a l ih =>
      obtain ⟨hhead, htail⟩ := List.pairwise_cons.1 h
      obtain ⟨m, hm⟩ := ih htail
      by_cases hp : p a
      · refine ⟨m + 1, fun i => ?_⟩
        cases i with
        | zero => simp [hp]
        | succ i =>
          rw [List.getElem?_cons_succ, hm i]
          omega
      · refine ⟨0, fun i => ?_⟩
        simp only [Nat.not_lt_zero, iff_false, not_exists, not_and]
        intro b hb hpb
        rcases List.mem_cons.1 (List.mem_of_getElem? hb) with rfl | hmem
        · exact hp hpb
        · exact hp (hhead b hmem hpb)

/-- A child of the directory, and nothing else, is listed as a component. -/
theorem Unambiguous.listed (h : Unambiguous E dir) {n s : List Byte} (hn : n ∈ E) (hs : s ≠ [])
    (hlisted : listedName dir n = some s) : Component s ∧ NameOf (pathOf dir s) n := by
  obtain ⟨hslash, ⟨hnil, -⟩ | ⟨-, hname⟩⟩ := listedName_cases hlisted
  · exact absurd hnil hs
  · exact ⟨⟨hs, hslash⟩, hname.resolve_right (h.noStray n hn s ⟨hs, hslash⟩)⟩

theorem Unambiguous.found (h : Unambiguous E dir) {s : List Byte} (hs : Component s) :
    s ∈ listing dir E ↔ ∃ n ∈ E, NameOf (pathOf dir s) n := by
  unfold listing
  rw [List.mem_filterMap]
  constructor
  · rintro ⟨n, hn, hlisted⟩
    exact ⟨n, hn, (h.listed hn hs.1 hlisted).2⟩
  · rintro ⟨n, hn, hname⟩
    exact ⟨n, hn, listedName_child hs hname⟩

theorem Unambiguous.once (h : Unambiguous E dir) (hE : E.Nodup) :
    (listing dir E).Pairwise fun a b => a ≠ [] → a ≠ b := by
  unfold listing
  rw [List.pairwise_filterMap]
  refine List.Pairwise.imp_of_mem ?_ hE
  rintro n n' hn hn' hne a ha b hb hnil rfl
  obtain ⟨hcomp, hname⟩ := h.listed hn hnil ha
  obtain ⟨-, hname'⟩ := h.listed hn' hnil hb
  rcases hname with rfl | rfl
  · rcases hname' with rfl | rfl
    · exact hne rfl
    · exact h.oneForm a hcomp ⟨hn, hn'⟩
  · rcases hname' with rfl | rfl
    · exact h.oneForm a hcomp ⟨hn', hn⟩
    · exact hne rfl

theorem Unambiguous.front (h : Unambiguous E dir) : (listing dir E).Pairwise fun a b => b ≠ [] → a ≠ [] := by
  unfold listing
  rw [List.pairwise_filterMap]
  refine List.Pairwise.imp_of_mem ?_ h.blankLast
  rintro n n' hn hn' hblank a ha b hb hnil rfl
  obtain ⟨hcomp, hname⟩ := h.listed hn' hnil hb
  obtain ⟨-, ⟨-, hn⟩ | ⟨hne, -⟩⟩ := listedName_cases ha
  · exact hblank hn b hcomp hname
  · exact hne rfl

/-- If no component is listed twice, two names are not listed as the same one. -/
theorem listed_ne (honce : (listing dir E).Pairwise fun a b => a ≠ [] → a ≠ b) {n n' s : List Byte} (hn : n ∈ E)
    (hn' : n' ∈ E) (hs : s ≠ []) (h : listedName dir n = some s) (h' : listedName dir n' = some s) : n = n' := by
  unfold listing at honce
  rw [List.pairwise_filterMap] at honce
  by_contra hne
  have hsymm : Std.Symm fun n n' =>
      ∀ a, listedName dir n = some a → ∀ b, listedName dir n' = some b → a ≠ [] → a ≠ b :=
    ⟨fun n n' hR a ha b hb hnil hab => hR b hb a ha (hab ▸ hnil) hab.symm⟩
  exact honce.forall hn hn' hne s h s h' hs rfl

/-- **The condition is exact.** -/
theorem unambiguous_iff (hE : E.Nodup) (hzero : ∀ n ∈ E, (0 : Byte) ∉ n) :
    ((∀ s : CString, Component s.bytes → (s.bytes ∈ listing dir E ↔ ∃ n ∈ E, NameOf (pathOf dir s.bytes) n)) ∧
      ((listing dir E).Pairwise fun a b => a ≠ [] → a ≠ b) ∧ (listing dir E).Pairwise fun a b => b ≠ [] → a ≠ []) ↔
    Unambiguous E dir := by
  constructor
  · rintro ⟨hfound, honce, hfront⟩
    refine ⟨fun n hn s hs hstray => ?_, fun s hs hboth => ?_, ?_⟩
    · -- a stray is listed, so it would have to be found, as a name that is listed once more
      have hlisted := listedName_stray hs hstray
      obtain ⟨n', hn', hname⟩ :=
        (hfound ⟨s, listedName_nonzero hlisted (hzero n hn)⟩ hs).1 (List.mem_filterMap.2 ⟨n, hn, hlisted⟩)
      obtain rfl := listed_ne honce hn hn' hs.1 hlisted (listedName_child hs hname)
      exact child_not_stray hs hname hstray
    · have hsame := listed_ne honce hboth.1 hboth.2 hs.1 (listedName_child hs (.inl rfl))
        (listedName_child hs (.inr rfl))
      simp at hsame
    · unfold listing at hfront
      rw [List.pairwise_filterMap] at hfront
      apply hfront.imp
      rintro n n' hR rfl s hs hname
      have hblank : listedName dir (dir ++ [slash, slash]) = some [] := by
        rw [listedName, if_pos ⟨_, rfl⟩, List.drop_left]
        rfl
      exact hR [] hblank s (listedName_child hs hname) hs.1 rfl
  · exact fun h => ⟨fun s hs => h.found hs, h.once hE, h.front⟩

end Names

/-! ## The calls -/

/-- `tar_readdir(D, i)` returns `s`. -/
def Returns (device : Ramdisk) (D : TarObj) (i : Word) (s : CString) : Prop :=
  ∃ v, tarReaddir device D i = .ok (some v) ∧ v.name = s

/-- **Listing and lookup agree** in a directory. -/
structure ListingAgrees (device : Ramdisk) (D : TarObj) : Prop where
  /-- The components that are listed are those that are found. -/
  found : ∀ s : CString, Component s.bytes →
    ((∃ i : Word, 2 ≤ i.toNat ∧ Returns device D i s) ↔ ∃ node, tarFinddir device D s = .ok (some node))
  /-- Each is listed for one index. -/
  once : ∀ s : CString, Component s.bytes → ∀ i j : Word, 2 ≤ i.toNat → 2 ≤ j.toNat →
    Returns device D i s → Returns device D j s → i = j
  /-- The indices of components are consecutive from 2. -/
  consecutive : ∃ m, ∀ i : Word, 2 ≤ i.toNat → ((∃ s : CString, Component s.bytes ∧ Returns device D i s) ↔ i.toNat < m)

/-- The names of an archive. -/
def Archive.names (A : Archive) : List (List Byte) := blockNames A.entries

section Calls

variable (A : Archive) (D : TarObj)

theorem Archive.names_nodup : A.names.Nodup := by
  have hinj : Function.Injective CString.bytes := by
    rintro ⟨a, ha⟩ ⟨b, hb⟩ rfl
    rfl
  have hmap : A.names = (A.entries.map (·.name)).map CString.bytes := by
    rw [List.map_map]
    rfl
  rw [hmap]
  exact List.Pairwise.map _ (fun a b hne hab => hne (hinj hab)) A.distinct

theorem Archive.names_nonzero {n : List Byte} (hn : n ∈ A.names) : (0 : Byte) ∉ n := by
  obtain ⟨e, -, rfl⟩ := List.mem_map.1 hn
  exact e.name.nonzero

theorem listedName_nil (dir : List Byte) : listedName dir [] = none := by
  unfold listedName
  split
  · rw [List.drop_nil]
    rfl
  · rfl

/-- The zero blocks are not listed. -/
theorem listing_blocks : listing D.name.bytes (blockNames A.blocks) = listing D.name.bytes A.names := by
  have hzero : (List.replicate A.zeros (zeroBlock.name.bytes)).filterMap (listedName D.name.bytes) = [] := by
    rw [List.filterMap_eq_nil_iff]
    intro n hn
    obtain rfl := List.eq_of_mem_replicate hn
    exact listedName_nil D.name.bytes
  unfold listing blockNames Archive.blocks
  rw [List.map_append, List.filterMap_append, List.map_replicate, hzero, List.append_nil]
  rfl

theorem blocks_not_dotSlash : ∀ e ∈ A.blocks, e.name.bytes ≠ dotSlash.bytes := by
  intro e he hdot
  rcases List.mem_append.1 he with he | he
  · exact A.noDot e he [] [slash] hdot ⟨.inl rfl, .inr rfl⟩
  · obtain rfl := List.eq_of_mem_replicate he
    exact absurd hdot (by decide)

/-- **`tar_readdir`** returns an element of the listing. -/
theorem returns_iff {i : Word} (hi : 2 ≤ i.toNat) (s : CString) :
    Returns A.device D i s ↔ (listing D.name.bytes A.names)[i.toNat - 2]? = some s.bytes := by
  unfold Returns tarReaddir
  rw [if_neg (by rintro rfl; simp at hi), if_neg (by rintro rfl; simp at hi), tarForeach_archive, ← listing_blocks]
  rcases readdirBlocks_eq D.name i.toNat 0 (j := 1) (by omega) (blocks_not_dotSlash A)
    with ⟨hnone, j, hrun⟩ | ⟨name, hsome, hrun⟩
  · rw [show i.toNat - 2 = i.toNat - 1 - 1 by omega, hnone, hrun, ok_bind]
    constructor
    · rintro ⟨v, hv, -⟩
      cases hv
    · intro h
      cases h
  · rw [show i.toNat - 2 = i.toNat - 1 - 1 by omega, hsome, hrun, ok_bind]
    constructor
    · rintro ⟨v, hv, rfl⟩
      cases hv
      rfl
    · intro h
      refine ⟨_, rfl, ?_⟩
      cases name
      cases s
      simpa using h

/-- The object of an entry can be made. -/
theorem tarCreateObj_ok {e : TarBlock} (he : e.name.bytes ≠ []) (off : Nat) :
    ∃ obj, tarCreateObjFromHeader e.header off = .ok obj := by
  have hname : (CString.take (cstringAt e.header) 100).bytes = e.name.bytes := by
    show ((cstringAt e.header).bytes).take 100 = _
    have hle := e.name_le
    unfold strlen at hle
    rw [TarBlock.header, cstringAt_append _ e.name.nonzero, List.take_of_length_le (by omega)]
  unfold tarCreateObjFromHeader
  dsimp only
  split
  · rw [hname]
    cases hlast : e.name.bytes.getLast? with
    | none => exact absurd (List.getLast?_eq_none_iff.1 hlast) he
    | some c =>
      dsimp only
      split
      · exact ⟨_, rfl⟩
      · exact ⟨_, rfl⟩
  · exact ⟨_, rfl⟩

theorem fullPath_bytes (s : CString) : (fullPath D.name s).bytes = pathOf D.name.bytes s.bytes := by
  unfold fullPath pathOf strlen
  by_cases hdir : D.name.bytes = []
  · rw [if_pos hdir, if_neg (by rw [hdir]; simp)]
  · rw [if_neg hdir, if_pos (by simpa using hdir)]

/-- **`tar_finddir`** finds the names of the path. -/
theorem finddir_iff {s : CString} (hs : Component s.bytes) :
    (∃ node, tarFinddir A.device D s = .ok (some node)) ↔ ∃ n ∈ A.names, NameOf (pathOf D.name.bytes s.bytes) n := by
  have hpath := fullPath_bytes D s
  have hne : pathOf D.name.bytes s.bytes ≠ [] := by
    unfold pathOf
    split
    · exact hs.1
    · simp
  rw [← hpath] at hne ⊢
  unfold tarFinddir tarLookup
  by_cases hlen : strlen (fullPath D.name s) > 100 - 2
  · -- no name is as long as the path
    rw [if_pos hlen]
    constructor
    · rintro ⟨node, hnode⟩
      cases hnode
    · rintro ⟨n, hn, hname⟩
      obtain ⟨e, he, rfl⟩ := List.mem_map.1 hn
      obtain ⟨u, hu⟩ := hname.split
      have hle := e.name_le
      unfold strlen at hle hlen
      rw [hu, List.length_append] at hle
      omega
  · rw [if_neg hlen, tarForeach_archive]
    rcases lookupBlocks_eq (fullPath D.name s) A.blocks 0
      with ⟨e, he, hname, off, hrun⟩ | ⟨hno, hrun⟩
    · rcases List.mem_append.1 he with he | he
      · obtain ⟨obj, hobj⟩ := tarCreateObj_ok (A.named e he) off
        rw [hrun]
        simp only [ok_bind]
        refine ⟨fun _ => ⟨_, List.mem_map.2 ⟨e, he, rfl⟩, hname⟩, fun _ => ⟨fsNodeFromTar obj, ?_⟩⟩
        show (do
          let obj2 ← tarCreateObjFromHeader e.header off
          return some (fsNodeFromTar obj2)) = _
        rw [hobj]
        rfl
      · obtain rfl := List.eq_of_mem_replicate he
        obtain ⟨u, hu⟩ := hname.split
        exact absurd (List.append_eq_nil_iff.1 hu.symm).1 hne
    · rw [hrun]
      constructor
      · rintro ⟨node, hnode⟩
        cases hnode
      · rintro ⟨n, hn, hname⟩
        obtain ⟨e, he, rfl⟩ := List.mem_map.1 hn
        exact absurd hname (hno e (List.mem_append_left _ he))

/-- Every index of the listing is one of the calls. -/
theorem listing_length_lt : (listing D.name.bytes A.names).length + 2 < 0x100000000 := by
  have hlisting : (listing D.name.bytes A.names).length ≤ A.names.length := List.length_filterMap_le _ _
  have hnames : A.names.length ≤ A.blocks.length := by
    unfold Archive.names blockNames Archive.blocks
    rw [List.length_map, List.length_append]
    exact Nat.le_add_right _ _
  have hblocks := blocks_length_le A.blocks
  have hfits : (blockBytes A.blocks).length + 512 < 0x100000000 := A.fits
  omega

/-- The call that returns an element of the listing. -/
theorem exists_index {k : Nat} {s : List Byte} (h : (listing D.name.bytes A.names)[k]? = some s) :
    ∃ i : Word, 2 ≤ i.toNat ∧ i.toNat - 2 = k := by
  have hk := (List.getElem?_eq_some_iff.1 h).1
  have hlen := listing_length_lt A D
  have hi : (BitVec.ofNat 32 (k + 2)).toNat = k + 2 := Nat.mod_eq_of_lt (by omega)
  exact ⟨BitVec.ofNat 32 (k + 2), by rw [hi]; omega, by rw [hi]; omega⟩

/-- The elements of a listing are strings, and components if they are not empty. -/
theorem exists_component {s : List Byte} (h : s ∈ listing D.name.bytes A.names) :
    ∃ c : CString, c.bytes = s ∧ (s ≠ [] → Component c.bytes) := by
  obtain ⟨n, hn, hlisted⟩ := List.mem_filterMap.1 h
  refine ⟨⟨s, listedName_nonzero hlisted (A.names_nonzero hn)⟩, rfl, fun hs => ⟨hs, ?_⟩⟩
  exact (listedName_cases hlisted).1

theorem listed_iff (s : CString) :
    (∃ i : Word, 2 ≤ i.toNat ∧ Returns A.device D i s) ↔ s.bytes ∈ listing D.name.bytes A.names := by
  constructor
  · rintro ⟨i, hi, hret⟩
    exact List.mem_of_getElem? ((returns_iff A D hi s).1 hret)
  · intro hmem
    obtain ⟨k, hk⟩ := List.mem_iff_getElem?.1 hmem
    obtain ⟨i, hi, rfl⟩ := exists_index A D hk
    exact ⟨i, hi, (returns_iff A D hi s).2 hk⟩

theorem once_iff :
    (∀ s : CString, Component s.bytes → ∀ i j : Word, 2 ≤ i.toNat → 2 ≤ j.toNat →
      Returns A.device D i s → Returns A.device D j s → i = j) ↔
    (listing D.name.bytes A.names).Pairwise fun a b => a ≠ [] → a ≠ b := by
  constructor
  · intro h
    rw [List.pairwise_iff_getElem]
    intro k l hk hl hkl hne heq
    obtain ⟨c, hc, hcomp⟩ := exists_component A D (List.getElem_mem hk)
    have hgetk : (listing D.name.bytes A.names)[k]? = some c.bytes := by rw [List.getElem?_eq_getElem hk, hc]
    have hgetl : (listing D.name.bytes A.names)[l]? = some c.bytes := by rw [List.getElem?_eq_getElem hl, ← heq, hc]
    obtain ⟨i, hi, rfl⟩ := exists_index A D hgetk
    obtain ⟨j, hj, rfl⟩ := exists_index A D hgetl
    have hij := h c (hcomp hne) i j hi hj ((returns_iff A D hi c).2 hgetk) ((returns_iff A D hj c).2 hgetl)
    rw [hij] at hkl
    exact Nat.lt_irrefl _ hkl
  · intro h s hs i j hi hj hreti hretj
    rw [returns_iff A D hi, List.getElem?_eq_some_iff] at hreti
    rw [returns_iff A D hj, List.getElem?_eq_some_iff] at hretj
    obtain ⟨hilt, hgeti⟩ := hreti
    obtain ⟨hjlt, hgetj⟩ := hretj
    rw [List.pairwise_iff_getElem] at h
    apply BitVec.eq_of_toNat_eq
    rcases Nat.lt_trichotomy (i.toNat - 2) (j.toNat - 2) with hlt | heq | hgt
    · exact absurd (hgeti.trans hgetj.symm) (h _ _ hilt hjlt hlt (hgeti ▸ hs.1))
    · omega
    · exact absurd (hgetj.trans hgeti.symm) (h _ _ hjlt hilt hgt (hgetj ▸ hs.1))

theorem front_iff :
    (∃ m, ∀ i : Word, 2 ≤ i.toNat → ((∃ s : CString, Component s.bytes ∧ Returns A.device D i s) ↔ i.toNat < m)) ↔
    (listing D.name.bytes A.names).Pairwise fun a b => b ≠ [] → a ≠ [] := by
  -- the call for an index returns a component iff the element there is not empty
  have hcall : ∀ i : Word, 2 ≤ i.toNat → ((∃ s : CString, Component s.bytes ∧ Returns A.device D i s) ↔
      ∃ a, (listing D.name.bytes A.names)[i.toNat - 2]? = some a ∧ a ≠ []) := by
    intro i hi
    constructor
    · rintro ⟨s, hs, hret⟩
      exact ⟨s.bytes, (returns_iff A D hi s).1 hret, hs.1⟩
    · rintro ⟨a, ha, hne⟩
      obtain ⟨c, rfl, hcomp⟩ := exists_component A D (List.mem_of_getElem? ha)
      exact ⟨c, hcomp hne, (returns_iff A D hi c).2 ha⟩
  rw [← consecutive_iff fun a : List Byte => a ≠ []]
  constructor
  · rintro ⟨m, hm⟩
    refine ⟨min (m - 2) (listing D.name.bytes A.names).length, fun k => ?_⟩
    have hlen := listing_length_lt A D
    by_cases hk : k < (listing D.name.bytes A.names).length
    · obtain ⟨i, hi, rfl⟩ := exists_index A D (List.getElem?_eq_getElem hk)
      rw [← hcall i hi, hm i hi]
      omega
    · rw [List.getElem?_eq_none (Nat.le_of_not_lt hk)]
      simp only [reduceCtorEq, false_and, exists_false, false_iff]
      omega
  · rintro ⟨m, hm⟩
    refine ⟨m + 2, fun i hi => ?_⟩
    rw [hcall i hi, hm]
    omega

/-- They agree in a directory with unambiguous names. -/
theorem Unambiguous.agrees (h : Unambiguous A.names D.name.bytes) : ListingAgrees A.device D := by
  refine ⟨fun s hs => ?_, (once_iff A D).2 (h.once A.names_nodup), (front_iff A D).2 h.front⟩
  rw [listed_iff, finddir_iff A D hs]
  exact h.found hs

/-- **Listing and lookup agree** exactly in the directories whose names are unambiguous. -/
theorem listing_agrees_iff : ListingAgrees A.device D ↔ Unambiguous A.names D.name.bytes := by
  refine ⟨fun h => ?_, Unambiguous.agrees A D⟩
  rw [← unambiguous_iff A.names_nodup fun n hn => A.names_nonzero hn, ← once_iff, ← front_iff]
  refine ⟨fun s hs => ?_, h.once, h.consecutive⟩
  rw [← listed_iff, ← finddir_iff A D hs]
  exact h.found s hs

/-- **The root** of `mount_tar`: its entries are listed and found alike if no name starts with a `/` and none stands with
and without a `/` behind it. -/
theorem root_agrees (hplain : ∀ n ∈ A.names, n.head? ≠ some slash)
    (hone : ∀ s, Component s → ¬ (s ∈ A.names ∧ s ++ [slash] ∈ A.names)) : ListingAgrees A.device rootObj := by
  apply Unambiguous.agrees
  have hroot : rootObj.name.bytes = [] := rfl
  rw [hroot]
  refine ⟨fun n hn s _ hstray => ?_, hone, List.pairwise_of_forall_mem_list fun n hn n' _ hblank => ?_⟩
  · obtain ⟨u, hu⟩ := hstray.split
    exact hplain n hn (by rw [hu]; rfl)
  · exact absurd (by rw [hblank]; rfl) (hplain n hn)

end Calls

/-! ## A sibling that is listed -/

/-- The bytes of a header behind the name, for an empty file of a type. -/
def emptyRest (name : List Byte) (type : Byte) : List Byte :=
  List.replicate (155 - name.length) 0 ++ type :: List.replicate 355 0

/-- `"bin/"`. -/
def binName : List Byte := [0x62, 0x69, 0x6E, 0x2F]

/-- `"binary"`. -/
def binaryName : List Byte := [0x62, 0x69, 0x6E, 0x61, 0x72, 0x79]

/-- `"ary"`. -/
def ary : CString := ⟨[0x61, 0x72, 0x79], by decide⟩

theorem emptyRest_length {name : List Byte} (h : name.length ≤ 98) (type : Byte) :
    (name ++ 0 :: emptyRest name type).length = 512 := by
  simp only [emptyRest, List.length_append, List.length_cons, List.length_replicate]
  omega

theorem binName_body : ([] : List Byte).length = (fsize (binName ++ 0 :: emptyRest binName 0x35) + 511) / 512 * 512 := by
  decide

theorem binaryName_body :
    ([] : List Byte).length = (fsize (binaryName ++ 0 :: emptyRest binaryName 0x30) + 511) / 512 * 512 := by
  decide

/-- The directory `bin`. -/
def binBlock : TarBlock where
  name := ⟨binName, by decide⟩
  rest := emptyRest binName 0x35
  body := []
  name_le := by decide
  length := emptyRest_length (by decide) 0x35
  body_length := binName_body

/-- The file `binary` beside it. -/
def binaryBlock : TarBlock where
  name := ⟨binaryName, by decide⟩
  rest := emptyRest binaryName 0x30
  body := []
  name_le := by decide
  length := emptyRest_length (by decide) 0x30
  body_length := binaryName_body

theorem noDot_of_not_mem {name : CString} (h : (0x2E : Byte) ∉ name.bytes) : NoDot name := by
  intro a b hab
  rw [hab] at h
  exact absurd (List.mem_append_right a List.mem_cons_self) h

theorem siblings_named : ∀ e ∈ [binBlock, binaryBlock], e.name.bytes ≠ [] := by decide

theorem siblings_distinct : ([binBlock, binaryBlock].map (·.name)).Nodup := by decide

theorem siblings_noDot : ∀ e ∈ [binBlock, binaryBlock], NoDot e.name := by
  intro e he
  apply noDot_of_not_mem
  simp only [List.mem_cons, List.not_mem_nil, or_false] at he
  rcases he with rfl | rfl
  · decide
  · decide

theorem blockBytes_empty {blocks : List TarBlock} (h : ∀ e ∈ blocks, e.body = []) :
    (blockBytes blocks).length = blocks.length * 512 := by
  induction blocks with
  | nil => rfl
  | cons e blocks ih =>
    have hlen : e.header.length = 512 := e.length
    have hrest := ih fun e he => h e (List.mem_cons_of_mem _ he)
    unfold blockBytes at hrest ⊢
    rw [List.flatMap_cons, h e List.mem_cons_self, List.append_nil, List.length_append, hlen, hrest, List.length_cons]
    omega

theorem siblings_fit :
    (blockBytes ([binBlock, binaryBlock] ++ List.replicate 2 zeroBlock)).length + 512 < 0x100000000 := by
  rw [blockBytes_empty (by decide)]
  decide

/-- An archive with the two. -/
def siblings : Archive where
  entries := [binBlock, binaryBlock]
  zeros := 2
  named := siblings_named
  distinct := siblings_distinct
  noDot := siblings_noDot
  fits := siblings_fit

/-- The object of the directory. -/
def binDir : TarObj := ⟨⟨[0x62, 0x69, 0x6E], by decide⟩, 0, .directory, 0⟩

/-- **The directory `bin` lists a file `ary`, which is not found in it.** -/
theorem siblings_listed :
    binBlock ∈ siblings.entries ∧ tarCreateObjFromHeader binBlock.header 0 = .ok binDir ∧ Component ary.bytes ∧
      Returns siblings.device binDir 2#32 ary ∧ (¬ ∃ node, tarFinddir siblings.device binDir ary = .ok (some node)) ∧
      ¬ ListingAgrees siblings.device binDir := by
  have hary : Component ary.bytes := by decide
  have hreturns := (returns_iff siblings binDir (by decide : 2 ≤ (2#32).toNat) ary).2 (by decide)
  have hfind := (not_congr (finddir_iff siblings binDir hary)).2 (by decide)
  refine ⟨List.mem_cons_self, rfl, hary, hreturns, hfind, fun h => ?_⟩
  exact hfind ((h.found ary hary).1 ⟨2#32, by decide, hreturns⟩)

end Myunix.Tar
