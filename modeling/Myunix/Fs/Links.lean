import Myunix.Fs.Trace

/-!
# Where symbolic links lead

A link to a path that starts with `/` leads to that path, any other link to a path from the directory of the link
(`linkLeads`); `canonicalize_path_list` reads paths that way. `findfile_recursive` pushes the target of a link onto the
elements before it in every case, and these are only the elements that the walk through the mount graph has left.

`climb` counts the directories that a path climbs above where it starts; `resolveDots_eq` separates what a path takes away
from what it adds. With it `findfile_links` says which links lead where they should, in every search.
-/

namespace Myunix.Fs

open Lib

variable {σ : Type}

/-! ## Climbing -/

/-- How many directories the components climb above where they start. -/
def climb : List (List Byte) → Nat
  | [] => 0
  | c :: cs => if c = dotdot then climb cs + 1 else if c = dot then climb cs else climb cs - 1

theorem neverAbove_iff (cs : List (List Byte)) : ∀ depth : Nat, NeverAbove depth cs ↔ climb cs ≤ depth := by
  induction cs with
  | nil => exact fun depth => ⟨fun _ => Nat.zero_le _, fun _ => neverAbove_nil _⟩
  | cons c cs ih =>
    intro depth
    rw [climb]
    by_cases hup : c = dotdot
    · subst hup
      rw [neverAbove_dotdot, ih, if_pos rfl]
      omega
    · rw [if_neg hup]
      by_cases hdot : c = dot
      · subst hdot
        rw [neverAbove_dot, ih, if_pos rfl]
      · rw [neverAbove_name (by simp [isName, hup, hdot]), ih, if_neg hdot]
        omega

/-- Components take `climb` names away and add the same names wherever they start. -/
theorem resolveDots_eq (cs : List (List Byte)) : ∀ names : List (List Byte),
    resolveDots names cs = names.take (names.length - climb cs) ++ resolveDots [] cs := by
  induction cs with
  | nil =>
    intro names
    simp [resolveDots, climb]
  | cons c cs ih =>
    intro names
    have hcons : ∀ names, resolveDots names (c :: cs) = resolveDots (resolveStep names c) cs := fun _ => rfl
    rw [hcons, hcons, ih, ih (resolveStep [] c), climb, ← List.append_assoc]
    congr 1
    unfold resolveStep
    by_cases hup : c = dotdot
    · simp only [if_pos hup, List.length_dropLast, List.dropLast_nil, List.length_nil, List.take_nil, List.append_nil]
      rw [List.dropLast_eq_take, List.take_take]
      congr 1
      omega
    · simp only [if_neg hup]
      by_cases hdot : c = dot
      · simp [hdot]
      · simp only [if_neg hdot, List.length_append, List.length_singleton, List.nil_append]
        by_cases hk : climb cs = 0
        · rw [hk]
          simp [List.take_of_length_le]
        · rw [List.take_append_of_le_length (by omega), show 1 - climb cs = 0 by omega, List.take_zero, List.append_nil]
          congr 1
          omega

/-! ## The path behind a link -/

/-- The path starts with `/`. -/
def isAbsolute (target : CString) : Bool := target.bytes.head? = some 0x2F

/-- The path, from the root of the mount graph, that a link stands for in the directory `leading` of the file system
that is mounted at `mounted`. -/
def linkLeads (mounted leading : List CString) (target : CString) : List (List Byte) :=
  resolveDots (if isAbsolute target then [] else (mounted ++ leading).map (·.bytes)) (components target.bytes)

/-- An absolute target climbs exactly to the root of the file system of the link; a link with a relative target is in the
root file system and does not climb above its root. -/
def LinkFits (mounted leading : List CString) (target : CString) : Prop :=
  if isAbsolute target then climb (components target.bytes) = leading.length
  else mounted = [] ∧ climb (components target.bytes) ≤ leading.length

section Next

variable {mounted leading l : List CString} {target : CString}

theorem copyElements_eq (h : ∀ e ∈ leading, e.bytes ≠ []) : copyElements leading = .ok leading := by
  induction leading with
  | nil => rfl
  | cons e leading ih =>
    have he : strlen e + 1 ≠ 1 := by
      have := List.length_pos_iff.2 (h e List.mem_cons_self)
      unfold strlen
      omega
    rw [copyElements, assert_bind he, ih fun x hx => h x (List.mem_cons_of_mem _ hx)]
    rfl

/-- The search goes on where the target leads from `base` exactly when the target does not climb above `leading`, and
leaves the same of the two. -/
theorem linkNext_from (h : ∀ e ∈ leading, e.bytes ≠ []) (base : List (List Byte)) :
    (∃ l, linkNext leading target = .ok l ∧ l.map (·.bytes) = resolveDots base (components target.bytes)) ↔
      climb (components target.bytes) ≤ leading.length ∧
        (leading.map (·.bytes)).take (leading.length - climb (components target.bytes)) =
          base.take (base.length - climb (components target.bytes)) := by
  have hnext : linkNext leading target = canonicalizePathPushPath target leading := by
    rw [linkNext, copyElements_eq h, ok_bind]
  obtain ⟨hok, hstop⟩ := canonicalizePathPushPath_eq target leading
  rw [neverAbove_iff] at hok hstop
  by_cases hle : climb (components target.bytes) ≤ leading.length
  · -- what the target adds is the same in both lists
    obtain ⟨l, hl, hbytes⟩ := hok hle
    rw [resolveDots_eq _ (leading.map (·.bytes)), List.length_map] at hbytes
    rw [hnext, hl, resolveDots_eq _ base]
    constructor
    · rintro ⟨l', hl', heq⟩
      rw [Except.ok.injEq] at hl'
      subst hl'
      rw [hbytes] at heq
      exact ⟨hle, List.append_cancel_right heq⟩
    · rintro ⟨-, heq⟩
      exact ⟨l, rfl, by rw [hbytes, heq]⟩
  · rw [hnext, hstop hle]
    constructor
    · rintro ⟨l, hl, -⟩
      cases hl
    · exact fun h => absurd h.1 hle

/-- The search goes on where the link leads exactly when the link fits. -/
theorem linkNext_iff (h : ∀ e ∈ leading, e.bytes ≠ []) :
    (∃ l, linkNext leading target = .ok l ∧ l.map (·.bytes) = linkLeads mounted leading target) ↔
      LinkFits mounted leading target := by
  unfold linkLeads LinkFits
  rw [linkNext_from h]
  cases isAbsolute target with
  | true =>
    simp only [if_true, List.length_nil, Nat.zero_sub, List.take_zero]
    constructor
    · rintro ⟨hle, heq⟩
      have hlen := congrArg List.length heq
      rw [List.length_take, List.length_map, List.length_nil] at hlen
      omega
    · intro heq
      rw [heq, Nat.sub_self, List.take_zero]
      exact ⟨Nat.le_refl _, rfl⟩
  | false =>
    simp only [Bool.false_eq_true, if_false, List.length_map, List.length_append]
    constructor
    · rintro ⟨hle, heq⟩
      have hlen := congrArg List.length heq
      rw [List.length_take, List.length_take, List.length_map, List.length_map, List.length_append] at hlen
      exact ⟨List.length_eq_zero_iff.1 (by omega), hle⟩
    · rintro ⟨rfl, hle⟩
      rw [List.nil_append, List.length_nil, Nat.zero_add]
      exact ⟨hle, rfl⟩

/-- Names that are left were there or are components. -/
theorem mem_resolveDots {x : List Byte} (cs : List (List Byte)) : ∀ {names : List (List Byte)},
    x ∈ resolveDots names cs → x ∈ names ∨ x ∈ cs := by
  induction cs with
  | nil => exact fun hx => Or.inl hx
  | cons c cs ih =>
    intro names hx
    have hx' : x ∈ resolveDots (resolveStep names c) cs := hx
    rcases ih hx' with hx' | hx'
    · unfold resolveStep at hx'
      split at hx'
      · exact Or.inl ((List.dropLast_sublist names).subset hx')
      · split at hx'
        · exact Or.inl hx'
        · rcases List.mem_append.1 hx' with hx' | hx'
          · exact Or.inl hx'
          · exact Or.inr (List.mem_cons.2 (Or.inl (List.mem_singleton.1 hx')))
    · exact Or.inr (List.mem_cons_of_mem _ hx')

theorem canonicalizePathPushPath_nonempty (h : ∀ e ∈ leading, e.bytes ≠ [])
    (hl : canonicalizePathPushPath target leading = .ok l) : ∀ e ∈ l, e.bytes ≠ [] := by
  obtain ⟨hok, hstop⟩ := canonicalizePathPushPath_eq target leading
  by_cases hnever : NeverAbove leading.length (components target.bytes)
  · obtain ⟨l', hl', hbytes⟩ := hok hnever
    rw [hl, Except.ok.injEq] at hl'
    subst hl'
    intro e he
    have hmem : e.bytes ∈ l.map (·.bytes) := List.mem_map_of_mem he
    rw [hbytes] at hmem
    rcases mem_resolveDots _ hmem with hmem | hmem
    · obtain ⟨x, hx, hxe⟩ := List.mem_map.1 hmem
      rw [← hxe]
      exact h x hx
    · exact (mem_components hmem).1
  · rw [hstop hnever] at hl
    cases hl

theorem linkNext_nonempty (h : ∀ e ∈ leading, e.bytes ≠ []) (hl : linkNext leading target = .ok l) :
    ∀ e ∈ l, e.bytes ≠ [] := by
  rw [linkNext, copyElements_eq h, ok_bind] at hl
  exact canonicalizePathPushPath_nonempty h hl

theorem canonicalizePathList_nonempty {root path : CString} (hl : canonicalizePathList root path = .ok l) :
    ∀ e ∈ l, e.bytes ≠ [] := by
  unfold canonicalizePathList at hl
  split at hl
  · obtain ⟨tokens, htokens, hmap⟩ := bufferTokens_components root
    rw [htokens, ok_bind] at hl
    refine canonicalizePathPushPath_nonempty ?_ hl
    intro e he
    have hmem : e.bytes ∈ tokens.map (·.bytes) := List.mem_map_of_mem he
    rw [hmap] at hmem
    exact (mem_components hmem).1
  · rw [pure_bind] at hl
    exact canonicalizePathPushPath_nonempty (fun e he => absurd he List.not_mem_nil) hl

end Next

/-! ## Searches -/

/-- A walk through some mount graph takes `mounted` off the path and leaves `elements`. -/
def Walked (mounted elements : List CString) : Prop :=
  ∃ (σ : Type) (s : FsState σ) (root mount : MountPtr),
    walkMountGraph s (mounted ++ elements) root = .ok (mount, elements)

/-- Every link is logged with the path at which the search goes on, and its `leading` elements come behind the ones that
a walk through the mount graph took off. -/
def LinksLogged {α : Type} (x : Search α) : Prop :=
  ∀ mounted leading target next, .link mounted leading target next ∈ x.events →
    next = linkNext leading target ∧ (∀ e ∈ leading, e.bytes ≠ []) ∧
      ∃ name rest, Walked mounted (leading ++ name :: rest)

section Searches

variable {mounted leading elements l rest : List CString} {D : Drivers σ} {α β : Type}

theorem walkMountGraph_suffix {s : FsState σ} : ∀ {l : List CString} {m m' : MountPtr} {rest : List CString},
    walkMountGraph s l m = .ok (m', rest) → rest <:+ l := by
  intro l
  induction l with
  | nil =>
    intro m m' rest h
    cases h
    exact List.suffix_refl _
  | cons e l ih =>
    intro m m' rest h
    simp only [walkMountGraph, bind_eq_ok] at h
    obtain ⟨found, -, h⟩ := h
    cases found with
    | none =>
      cases h
      exact List.suffix_refl _
    | some m₂ => exact (ih h).trans (List.suffix_cons e l)

/-- What the walk takes off and what it leaves. -/
theorem mountedPart_append {s : FsState σ} {m m' : MountPtr} (h : walkMountGraph s l m = .ok (m', rest)) :
    mountedPart l rest ++ rest = l := by
  obtain ⟨front, rfl⟩ := walkMountGraph_suffix h
  rw [mountedPart, List.length_append, Nat.add_sub_cancel, List.take_left]

theorem walked_of_walk {s : FsState σ} {m m' : MountPtr} (h : walkMountGraph s l m = .ok (m', rest)) :
    Walked (mountedPart l rest) rest := ⟨σ, s, m, m', by rw [mountedPart_append h]; exact h⟩

theorem linksLogged_of_no_events {x : Search α} (h : x.events = []) : LinksLogged x := by
  intro m l t n hmem
  rw [h] at hmem
  cases hmem

theorem LinksLogged.bind {x : Search α} {f : α → Search β} (hx : LinksLogged x)
    (hf : ∀ a, x.result = .ok a → LinksLogged (f a)) : LinksLogged (x >>= f) := by
  cases hr : x.result with
  | error e =>
    rw [Traced.bind_of_error hr]
    exact hx
  | ok a =>
    rw [Traced.bind_of_ok hr]
    intro m l t n hmem
    rcases List.mem_append.1 hmem with hmem | hmem
    · exact hx m l t n hmem
    · exact hf a hr m l t n hmem

/-- A step of the kernel in front. -/
theorem LinksLogged.kernel_bind {x : Kernel α} {f : α → Search β} (h : ∀ a, x = .ok a → LinksLogged (f a)) :
    LinksLogged (kernel x >>= f) :=
  Traced.lift_bind_of (fun _ _ => linksLogged_of_no_events rfl) h

/-- The loop, when the nested searches log their links. -/
theorem findfileLoopTraced_links
    {recurse : List CString → List CString → NodePtr → FsState σ → Search (Option NodePtr × FsState σ)}
    (hrec : ∀ m l p s, (∀ e ∈ l, e.bytes ≠ []) → Walked m l → LinksLogged (recurse m l p s)) (elements : List CString) :
    ∀ (leading : List CString) (node : NodePtr) (s : FsState σ), (∀ e ∈ leading, e.bytes ≠ []) →
      (∀ e ∈ elements, e.bytes ≠ []) → Walked mounted (leading ++ elements) →
        LinksLogged (findfileLoopTraced D recurse mounted leading elements node s) := by
  induction elements with
  | nil => exact fun _ _ _ _ _ _ => linksLogged_of_no_events rfl
  | cons element rest ih =>
    intro leading node s hleading helements hwalked
    have hleading' : ∀ e ∈ leading ++ [element], e.bytes ≠ [] := by
      intro e he
      rcases List.mem_append.1 he with he | he
      · exact hleading e he
      · rw [List.mem_singleton.1 he]
        exact helements element List.mem_cons_self
    have hnext := fun node s => ih (leading ++ [element]) node s hleading'
      (fun e he => helements e (List.mem_cons_of_mem _ he)) (by rwa [List.append_assoc, List.singleton_append])
    rw [findfileLoopTraced]
    refine LinksLogged.kernel_bind fun found _ => LinksLogged.kernel_bind fun released _ => ?_
    cases found.1 with
    | none => exact linksLogged_of_no_events rfl
    | some next =>
      dsimp only
      split
      · refine LinksLogged.kernel_bind fun link _ => LinksLogged.bind ?_ fun _ _ => ?_
        · intro m l t n hmem
          simp only [Traced.log, List.mem_singleton, SearchEvent.link.injEq] at hmem
          obtain ⟨rfl, rfl, rfl, rfl⟩ := hmem
          exact ⟨rfl, hleading, element, rest, hwalked⟩
        · apply LinksLogged.kernel_bind
          intro l hl
          cases link.2.rootMount with
          | none => exact linksLogged_of_no_events rfl
          | some root =>
            apply LinksLogged.kernel_bind
            intro walked hwalk
            have hl' := linkNext_nonempty hleading hl
            have hleft : ∀ e ∈ walked.2, e.bytes ≠ [] := fun e he => hl' e ((walkMountGraph_suffix hwalk).subset he)
            apply LinksLogged.bind (hrec _ _ _ _ hleft (walked_of_walk hwalk))
            intro found _
            apply LinksLogged.kernel_bind
            intro released _
            cases found.1 with
            | none => exact linksLogged_of_no_events rfl
            | some node => exact hnext node _
      · exact hnext next _

theorem findfileLevel_links (fuel : Nat) : ∀ (level : Nat) (mounted elements : List CString) (rootNode : NodePtr)
    (s : FsState σ), (∀ e ∈ elements, e.bytes ≠ []) → Walked mounted elements →
      LinksLogged (findfileLevel D fuel level mounted elements rootNode s) := by
  induction fuel with
  | zero => exact fun _ _ _ _ _ _ _ => linksLogged_of_no_events rfl
  | succ fuel ih =>
    intro level mounted elements rootNode s helements hwalked
    rw [findfileLevel]
    refine LinksLogged.bind ?_ fun _ _ => ?_
    · intro m l t n hmem
      simp [Traced.log] at hmem
    · split
      · exact linksLogged_of_no_events rfl
      · apply LinksLogged.kernel_bind
        intro s _
        exact findfileLoopTraced_links (fun m l p s => ih (level + 1) m l p s) elements [] rootNode s
          (fun e he => absurd he List.not_mem_nil) helements hwalked

theorem findfileTraced_links (s : FsState σ) (root relativePath : CString) :
    LinksLogged (findfileTraced D s root relativePath) := by
  apply LinksLogged.kernel_bind
  intro l hl
  cases s.rootMount with
  | none => exact linksLogged_of_no_events rfl
  | some rootMount =>
    apply LinksLogged.kernel_bind
    intro walked hwalk
    refine findfileLevel_links 11 0 _ _ _ s (fun e he => ?_) (walked_of_walk hwalk)
    exact canonicalizePathList_nonempty hl e ((walkMountGraph_suffix hwalk).subset he)

end Searches

/-- **Links.** In every search, for every mount graph and file tree, a link behind the elements `leading` of the file
system at `mounted` makes the search go on where the link leads, if and only if the link fits. -/
theorem findfile_links (D : Drivers σ) (s : FsState σ) (root relativePath : CString) :
    ∀ mounted leading target next, .link mounted leading target next ∈ (findfileTraced D s root relativePath).events →
      (∃ name rest, Walked mounted (leading ++ name :: rest)) ∧
        ((∃ l, next = .ok l ∧ l.map (·.bytes) = linkLeads mounted leading target) ↔ LinkFits mounted leading target) := by
  intro mounted leading target next hmem
  obtain ⟨rfl, hleading, hwalked⟩ := findfileTraced_links s root relativePath mounted leading target next hmem
  exact ⟨hwalked, linkNext_iff hleading⟩

/-! A directory `d` with links to `/a`. -/

theorem directoryD_nonzero : (0 : Byte) ∉ [(0x64 : Byte)] := by decide

/-- The name `d`. -/
def directoryD : CString := ⟨[0x64], directoryD_nonzero⟩

theorem slashA_nonzero : (0 : Byte) ∉ [(0x2F : Byte), 0x61] := by decide

/-- The path `/a`. -/
def slashA : CString := ⟨[0x2F, 0x61], slashA_nonzero⟩

theorem inD_nonzero : (0 : Byte) ∉ [(0x2F : Byte), 0x64, 0x2F, 0x61] := by decide

/-- The path `/d/a`. -/
def inD : CString := ⟨[0x2F, 0x64, 0x2F, 0x61], inD_nonzero⟩

/-- The name `d` is a directory, every other name is a link to `/a`. -/
def directoryOfLinks : Drivers PUnit where
  finddir := fun s _ name => .ok (some (if name = directoryD then ⟨true, false, false, false, true, false, 0⟩
    else ⟨false, true, false, false, false, true, 0⟩), s)
  readlink := fun s _ => .ok (strlen slashA, slashA.mem, s)
  opens := fun s _ _ => .ok s
  closes := fun s _ => .ok s

/-- In the root directory, a link to `/a` makes the search go on at `/a`. -/
theorem findfile_link_in_root : .link [] [] slashA (linkNext [] slashA) ∈
      (findfileTraced directoryOfLinks bareRoot rootElement slashA).events ∧
    ∃ l, linkNext [] slashA = .ok l ∧ l.map (·.bytes) = linkLeads [] [] slashA := by
  have hsecond : (findfileTraced directoryOfLinks bareRoot rootElement slashA).events[1]? =
      some (.link [] [] slashA (linkNext [] slashA)) := rfl
  have hmet := List.mem_of_getElem? hsecond
  have hfits : LinkFits [] [] slashA := by
    show climb (components slashA.bytes) = 0
    decide
  exact ⟨hmet, (findfile_links directoryOfLinks bareRoot rootElement slashA _ _ _ _ hmet).2.2 hfits⟩

theorem directoryOfLinks_met : .link [] [directoryD] slashA (linkNext [directoryD] slashA) ∈
    (findfileTraced directoryOfLinks bareRoot rootElement inD).events := by
  have hsecond : (findfileTraced directoryOfLinks bareRoot rootElement inD).events[1]? =
      some (.link [] [directoryD] slashA (linkNext [directoryD] slashA)) := rfl
  exact List.mem_of_getElem? hsecond

/-- In the directory `d`, a link to `/a` makes the search go on at `/d/a`. -/
theorem findfile_link_in_directory : ¬ ∀ mounted leading target next,
    .link mounted leading target next ∈ (findfileTraced directoryOfLinks bareRoot rootElement inD).events →
      ∃ l, next = .ok l ∧ l.map (·.bytes) = linkLeads mounted leading target := by
  intro h
  obtain ⟨l, hl, hbytes⟩ := h _ _ _ _ directoryOfLinks_met
  have hnext : linkNext [directoryD] slashA = .ok [directoryD, elementA] := rfl
  rw [hnext, Except.ok.injEq] at hl
  subst hl
  exact absurd hbytes (by decide)

end Myunix.Fs
