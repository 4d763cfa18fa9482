import Myunix.Fs.Mount
import Myunix.Lib.LongestPrefix
import Mathlib.Data.List.Find
import Mathlib.Data.List.Nodup

/-!
# The mount graph as a table of paths

What the graph is for: a table of mounted paths, each a list of components, searched for the longest prefix of a path.
`Represents s root M` says that the mounts of `s` are the paths of `M`: the submount of `M π` for the element `e` is
`M (π ++ [e])`. `walk_mount_graph` then finds the longest mounted prefix (`walkMountGraph_longest`), and `kmount` adds
one path to the table (`kmount_cases`).
-/

namespace Myunix.Fs

open Lib

variable {σ : Type}

/-- The mounts below `root` are the paths of `M`. -/
structure Represents (s : FsState σ) (root : MountPtr) (M : List CString → Option MountPtr) : Prop where
  root : M [] = some root
  child : ∀ π m e, M π = some m →
    (s.mounts m).mounts.find? (fun c => (s.mounts c).element = e) = M (π ++ [e])
  closed : PrefixClosed M
  injective : ∀ π π' m, M π = some m → M π' = some m → π = π'
  allocated : ∀ π (m : Nat), M π = some m → m < s.nextMount
  children : ∀ π m, M π = some m → ∀ c ∈ (s.mounts m).mounts, c < s.nextMount
  distinct : ∀ π m, M π = some m → ((s.mounts m).mounts.map fun c => (s.mounts c).element).Nodup

/-! ## Walking the graph -/

section Walk

variable {s : FsState σ} {root : MountPtr} {M : List CString → Option MountPtr}

/-- `findmount` is a search for the element. -/
theorem findmount_eq (s : FsState σ) (parent : MountPtr) (e : CString) :
    findmount s parent e = .ok ((s.mounts parent).mounts.find? fun c => (s.mounts c).element = e) := by
  unfold findmount
  induction (s.mounts parent).mounts with
  | nil => rfl
  | cons m ms ih =>
    obtain ⟨r, hr, h0⟩ := CString.memcmp_eq_right (s.mounts m).element e
    rw [findmountIn, hr, ok_bind]
    by_cases heq : (s.mounts m).element = e
    · rw [if_pos (h0.2 heq), List.find?_cons_of_pos (by simpa using heq)]
      rfl
    · rw [if_neg (fun h => heq (h0.1 h)), List.find?_cons_of_neg (by simpa using heq)]
      exact ih

/-- Walking on from a mount stops where the next component is not mounted. -/
theorem walkMountGraph_from (hM : Represents s root M) (q π : List CString) {m : MountPtr} (hm : M π = some m) :
    ∃ pre rest m', walkMountGraph s q m = .ok (m', rest) ∧ q = pre ++ rest ∧ M (π ++ pre) = some m' ∧
      ∀ e, rest.head? = some e → M (π ++ pre ++ [e]) = none := by
  induction q generalizing π m with
  | nil => exact ⟨[], [], m, rfl, rfl, by rwa [List.append_nil], fun e he => by cases he⟩
  | cons e q ih =>
    have hfind : findmount s m e = .ok (M (π ++ [e])) := by rw [findmount_eq, hM.child π m e hm]
    cases hc : M (π ++ [e]) with
    | none =>
      refine ⟨[], e :: q, m, ?_, rfl, by rwa [List.append_nil], fun e' he' => ?_⟩
      · rw [walkMountGraph, hfind, hc]
        rfl
      · cases he'
        rwa [List.append_nil]
    | some c =>
      obtain ⟨pre, rest, m', hwalk, hq, hm', hstop⟩ := ih (π ++ [e]) hc
      refine ⟨e :: pre, rest, m', ?_, by rw [hq]; rfl, ?_, fun e' he' => ?_⟩
      · rw [walkMountGraph, hfind, hc]
        exact hwalk
      · rwa [List.append_cons]
      · have h := hstop e' he'
        rwa [List.append_assoc π [e] pre] at h

/-- **`walk_mount_graph`** finds the longest mounted prefix and leaves the other components. -/
theorem walkMountGraph_longest (hM : Represents s root M) (q : List CString) :
    ∃ pre rest m, walkMountGraph s q root = .ok (m, rest) ∧ Longest M q pre rest m := by
  obtain ⟨pre, rest, m, hwalk, rfl, hm, hstop⟩ := walkMountGraph_from hM q [] hM.root
  exact ⟨pre, rest, m, hwalk, longest_of_stop hM.closed hm hstop⟩

end Walk

/-! ## Adding a mount -/

section Add

variable {s s' : FsState σ} {root parent : MountPtr} {M : List CString → Option MountPtr} {node : NodePtr} {e : CString}

/-- A reference to a node leaves the mounts alone. -/
theorem fsNodeReference_frame (h : fsNodeReference s node = .ok s') :
    s'.mounts = s.mounts ∧ s'.nextMount = s.nextMount ∧ s'.rootMount = s.rootMount := by
  simp only [fsNodeReference, bind_eq_ok] at h
  obtain ⟨-, -, h⟩ := h
  split at h
  · simp only [bind_eq_ok, pure_eq_ok] at h
    obtain ⟨-, -, rfl⟩ := h
    exact ⟨rfl, rfl, rfl⟩
  · rw [pure_eq_ok] at h
    subst h
    exact ⟨rfl, rfl, rfl⟩

theorem fsMountReference_eq {m : MountPtr} (h : (s.mounts m).refcount = 1) :
    fsMountReference s m = s.modifyMount m fun mount => { mount with refcount := 2 } := by
  rw [fsMountReference, if_pos (by rw [h]; decide)]
  simp [FsState.modifyMount, h]

theorem fsMountRelease_eq {m : MountPtr} (h : (s.mounts m).refcount = 2) :
    fsMountRelease s m = .ok (s.modifyMount m fun mount => { mount with refcount := 1 }) := by
  rw [fsMountRelease, assert_bind (by rw [h]; decide), if_pos (by rw [h]; decide), if_neg (by rw [h]; decide)]
  simp [FsState.modifyMount, h, pure, Except.pure]

/-- The mounts after one was added below `parent`. -/
theorem mountBelow_ok {r : Bool} (hp : (parent : Nat) < s.nextMount) (h : mountBelow s parent node e = .ok (r, s')) :
    r = true ∧ s'.rootMount = s.rootMount ∧ s'.nextMount = s.nextMount + 1 ∧
      s'.mounts = Function.update (Function.update s.mounts s.nextMount ⟨e, node, [], 1⟩) parent
        { s.mounts parent with mounts := (s.mounts parent).mounts ++ [s.nextMount] } := by
  simp only [mountBelow, fsMountSubmount, fsMountNew, bind_eq_ok, pure_eq_ok] at h
  obtain ⟨⟨m, s₂⟩, ⟨s₁, href, heq⟩, -, hcount, s₃, hrel, heq'⟩ := h
  obtain ⟨rfl, rfl⟩ := Prod.mk.inj heq'
  obtain ⟨rfl, rfl⟩ := Prod.mk.inj heq
  obtain ⟨hm, hn, hr⟩ := fsNodeReference_frame href
  dsimp only at hm hn hr hrel
  have hne : s.nextMount ≠ parent := Nat.ne_of_gt hp
  rw [fsMountReference_eq (by rw [hm, Function.update_self])] at hrel
  rw [fsMountRelease_eq (by simp [FsState.modifyMount, Function.update_of_ne hne])] at hrel
  rw [Except.ok.injEq] at hrel
  subst hrel
  refine ⟨rfl, hr, hn, ?_⟩
  funext c
  simp only [FsState.modifyMount, hm]
  by_cases hcn : c = s.nextMount
  · subst hcn
    simp [Function.update_of_ne hne]
  · by_cases hcp : c = parent
    · subst hcp
      simp [Function.update_of_ne hcn]
    · simp [Function.update_of_ne hcn, Function.update_of_ne hcp]

/-- A mount of `node` for the element `e` was added below `parent`. -/
structure MountAdded (s : FsState σ) (parent : MountPtr) (node : NodePtr) (e : CString) (s' : FsState σ) : Prop where
  rootMount : s'.rootMount = s.rootMount
  next : s'.nextMount = s.nextMount + 1
  element : ∀ c, (c : Nat) < s.nextMount → (s'.mounts c).element = (s.mounts c).element
  nodes : ∀ c, (c : Nat) < s.nextMount → (s'.mounts c).node = (s.mounts c).node
  children : ∀ c, (c : Nat) < s.nextMount →
    (s'.mounts c).mounts = (s.mounts c).mounts ++ if c = parent then [s.nextMount] else []
  newMount : s'.mounts s.nextMount = ⟨e, node, [], 1⟩

/-- **`kmount`** below a mount that exists. -/
theorem mountBelow_added {r : Bool} (hp : (parent : Nat) < s.nextMount) (h : mountBelow s parent node e = .ok (r, s')) :
    r = true ∧ MountAdded s parent node e s' := by
  obtain ⟨hr, hroot, hnext, hmounts⟩ := mountBelow_ok hp h
  have hold : ∀ c, (c : Nat) < s.nextMount → s'.mounts c =
      { s.mounts c with mounts := (s.mounts c).mounts ++ if c = parent then [s.nextMount] else [] } := by
    intro c hc
    rw [hmounts]
    by_cases hcp : c = parent
    · subst hcp
      rw [Function.update_self, if_pos rfl]
    · rw [Function.update_of_ne hcp, Function.update_of_ne (Nat.ne_of_lt hc), if_neg hcp, List.append_nil]
  refine ⟨hr, hroot, hnext, fun c hc => ?_, fun c hc => ?_, fun c hc => ?_, ?_⟩
  · rw [hold c hc]
  · rw [hold c hc]
  · rw [hold c hc]
  · rw [hmounts, Function.update_of_ne (Nat.ne_of_gt hp), Function.update_self]

theorem MountAdded.newElement (ha : MountAdded s parent node e s') : (s'.mounts s.nextMount).element = e := by
  rw [ha.newMount]

theorem MountAdded.newChildren (ha : MountAdded s parent node e s') : (s'.mounts s.nextMount).mounts = [] := by
  rw [ha.newMount]

/-- A path of the table with one path more is the new one or an old one. -/
theorem Represents.update_cases {q π : List CString} {m : MountPtr} (hM : Represents s root M)
    (h : Function.update M q (some s.nextMount) π = some m) :
    (π = q ∧ m = s.nextMount) ∨ (π ≠ q ∧ M π = some m ∧ (m : Nat) < s.nextMount) := by
  by_cases hπ : π = q
  · subst hπ
    rw [Function.update_self, Option.some.injEq] at h
    exact Or.inl ⟨rfl, h.symm⟩
  · rw [Function.update_of_ne hπ] at h
    exact Or.inr ⟨hπ, h, hM.allocated π m h⟩

/-- The submounts of an old mount, searched after the addition. -/
theorem MountAdded.find {π ρ : List CString} {m : MountPtr} (ha : MountAdded s parent node e s')
    (hM : Represents s root M) (hp : M π = some parent) (hnew : M (π ++ [e]) = none) (hm : M ρ = some m) (x : CString) :
    (s'.mounts m).mounts.find? (fun c => (s'.mounts c).element = x) =
      Function.update M (π ++ [e]) (some s.nextMount) (ρ ++ [x]) := by
  have hold : (s.mounts m).mounts.find? (fun c => (s'.mounts c).element = x) = M (ρ ++ [x]) := by
    rw [← hM.child ρ m x hm]
    refine List.find?_congr fun c hc => ?_
    rw [ha.element c (hM.children ρ m hm c hc)]
  rw [ha.children m (hM.allocated ρ m hm), List.find?_append, hold]
  by_cases hmp : m = parent
  · obtain rfl : ρ = π := hM.injective ρ π parent (hmp ▸ hm) hp
    rw [if_pos hmp]
    by_cases hx : x = e
    · subst hx
      rw [hnew, Function.update_self, List.find?_cons_of_pos (by simpa using ha.newElement)]
      rfl
    · rw [List.find?_cons_of_neg (by simpa [ha.newElement] using Ne.symm hx),
        Function.update_of_ne (by simpa using hx)]
      simp
  · have hρx : ρ ++ [x] ≠ π ++ [e] := by
      intro heq
      obtain ⟨rfl, -⟩ := List.append_inj' heq rfl
      rw [hp, Option.some.injEq] at hm
      exact hmp hm.symm
    rw [if_neg hmp, Function.update_of_ne hρx]
    simp

/-- The elements below an old mount are still distinct: the new one was not among them. -/
theorem MountAdded.distinct {π ρ : List CString} {m : MountPtr} (ha : MountAdded s parent node e s')
    (hM : Represents s root M) (hp : M π = some parent) (hnew : M (π ++ [e]) = none) (hm : M ρ = some m) :
    ((s'.mounts m).mounts.map fun c => (s'.mounts c).element).Nodup := by
  have hold : ((s.mounts m).mounts.map fun c => (s'.mounts c).element) =
      (s.mounts m).mounts.map fun c => (s.mounts c).element :=
    List.map_congr_left fun c hc => ha.element c (hM.children ρ m hm c hc)
  rw [ha.children m (hM.allocated ρ m hm), List.map_append, hold]
  split
  · rename_i hmp
    obtain rfl : ρ = π := hM.injective ρ π parent (hmp ▸ hm) hp
    have hnone := hM.child ρ m e hm
    rw [hnew, List.find?_eq_none] at hnone
    refine List.nodup_append.2 ⟨hM.distinct ρ m hm, List.nodup_singleton _, fun a ha' b hb => ?_⟩
    obtain ⟨c, hc, rfl⟩ := List.mem_map.1 ha'
    rw [List.map_singleton, List.mem_singleton] at hb
    rw [hb, ha.newElement]
    simpa using hnone c hc
  · rw [List.map_nil, List.append_nil]
    exact hM.distinct ρ m hm

/-- **Adding a mount** below `M π` for a new element adds one path to the table. -/
theorem Represents.add {π : List CString} (hM : Represents s root M) (hp : M π = some parent)
    (hnew : M (π ++ [e]) = none) (ha : MountAdded s parent node e s') :
    Represents s' root (Function.update M (π ++ [e]) (some s.nextMount)) := by
  constructor
  case root =>
    rw [Function.update_of_ne (by simp)]
    exact hM.root
  case child =>
    intro ρ m x h
    rcases hM.update_cases h with ⟨rfl, rfl⟩ | ⟨-, hm, -⟩
    · rw [ha.newChildren, Function.update_of_ne (by simp)]
      by_contra hne
      exact hM.closed (π ++ [e]) x (fun h0 => hne (by rw [h0]; rfl)) hnew
    · exact ha.find hM hp hnew hm x
  case closed => exact hM.closed.update (by rw [hp]; simp) _
  case injective =>
    intro ρ ρ' m h h'
    rcases hM.update_cases h with ⟨rfl, rfl⟩ | ⟨-, hm, hlt⟩
    · rcases hM.update_cases h' with ⟨rfl, -⟩ | ⟨-, -, hlt'⟩
      · rfl
      · exact absurd hlt' (Nat.lt_irrefl _)
    · rcases hM.update_cases h' with ⟨-, rfl⟩ | ⟨-, hm', -⟩
      · exact absurd hlt (Nat.lt_irrefl _)
      · exact hM.injective ρ ρ' m hm hm'
  case allocated =>
    intro ρ m h
    rw [ha.next]
    rcases hM.update_cases h with ⟨-, rfl⟩ | ⟨-, -, hlt⟩
    · exact Nat.lt_succ_self _
    · exact Nat.lt_succ_of_lt hlt
  case children =>
    intro ρ m h c hc
    rw [ha.next]
    rcases hM.update_cases h with ⟨-, rfl⟩ | ⟨-, hm, hlt⟩
    · rw [ha.newChildren] at hc
      cases hc
    · rw [ha.children m hlt] at hc
      rcases List.mem_append.1 hc with hc | hc
      · exact Nat.lt_succ_of_lt (hM.children ρ m hm c hc)
      · split at hc
        · rw [List.mem_singleton.1 hc]
          exact Nat.lt_succ_self _
        · cases hc
  case distinct =>
    intro ρ m h
    rcases hM.update_cases h with ⟨-, rfl⟩ | ⟨-, hm, -⟩
    · rw [ha.newChildren]
      exact List.nodup_nil
    · exact ha.distinct hM hp hnew hm

/-- The walk of `kmount` uses up a mounted path, and leaves the last component of a path whose parent is mounted. -/
theorem longest_full {q pre rest : List CString} {m : MountPtr} (h : Longest M q pre rest m) (hq : M q ≠ none) :
    rest = [] := by
  have hle := h.longest q (List.prefix_refl q) hq
  rw [h.split, List.length_append] at hle
  exact List.length_eq_zero_iff.1 (by omega)

/-- **`kmount`**: a mounted path (also the empty one) is refused; otherwise the call that returns has added the path
with its node to the table. -/
theorem kmount_cases (hM : Represents s root M) (hroot : s.rootMount = some root) (path : CString)
    (node : NodePtr) :
    (M (tokenizePathList path) ≠ none ∧ kmount s path node = .ok (false, s)) ∨
    (M (tokenizePathList path) = none ∧ ∀ r s', kmount s path node = .ok (r, s') →
      r = true ∧ s'.rootMount = some root ∧ (s'.mounts s.nextMount).node = node ∧
      (∀ m, (m : Nat) < s.nextMount → (s'.mounts m).node = (s.mounts m).node) ∧
      Represents s' root (Function.update M (tokenizePathList path) (some s.nextMount))) := by
  obtain ⟨pre, rest, parent, hwalk, hlong⟩ := walkMountGraph_longest hM (tokenizePathList path)
  unfold kmount
  cases hlast : (tokenizePathList path).getLast? with
  | none =>
    rw [List.getLast?_eq_none_iff] at hlast
    rw [hlast, hM.root]
    exact Or.inl ⟨by simp, rfl⟩
  | some e =>
    simp only [hlast, hroot, hwalk, ok_bind]
    by_cases hq : M (tokenizePathList path) = none
    swap
    · obtain rfl := longest_full hlong hq
      exact Or.inl ⟨hq, rfl⟩
    refine Or.inr ⟨hq, fun r s' h => ?_⟩
    cases rest with
    | nil =>
      have hit := hlong.hit
      rw [hlong.split, List.append_nil, hit] at hq
      cases hq
    | cons x rest =>
      cases rest with
      | cons y rest => cases h
      | nil =>
        have hpath : tokenizePathList path = pre ++ [x] := hlong.split
        obtain rfl : x = e := by
          rw [hpath, List.getLast?_concat, Option.some.injEq] at hlast
          exact hlast
        have hpn : (parent : Nat) < s.nextMount := hM.allocated pre parent hlong.hit
        obtain ⟨hr, ha⟩ := mountBelow_added hpn h
        rw [hpath] at hq ⊢
        exact ⟨hr, ha.rootMount.trans hroot, by rw [ha.newMount], ha.nodes, hM.add hlong.hit hq ha⟩

end Add

/-! ## Resolution of paths over whole runs -/

/-- What a path resolves to: the node of the mount that `walk_mount_graph` reaches, and the elements left. -/
def resolve (s : FsState σ) (q : List CString) : Kernel (NodePtr × List CString) :=
  match s.rootMount with
  | none => .error .assertion
  | some root => do
    let (m, rest) ← walkMountGraph s q root
    return ((s.mounts m).node, rest)

/-- `kmount` as a step. -/
def kmountStep (s : FsState σ) (call : CString × NodePtr) : Kernel (FsState σ) := do
  let (_, s) ← kmount s call.1 call.2
  return s

/-- The table of mounted paths and their nodes after `fs_mount_root(node)` and some calls of `kmount`: the first call
for a path counts. -/
def mountTable (node : NodePtr) (calls : List (CString × NodePtr)) : List CString → Option NodePtr :=
  calls.foldl
    (fun T call => if T (tokenizePathList call.1) = none then
      Function.update T (tokenizePathList call.1) (some call.2) else T)
    (Function.update (fun _ => none) [] (some node))

/-- The mounts are the paths of the table, with its nodes. -/
structure MountsAre (s : FsState σ) (T : List CString → Option NodePtr) (M : List CString → Option MountPtr) :
    Prop where
  root : ∃ root, s.rootMount = some root ∧ Represents s root M
  table : ∀ π, T π = (M π).map fun m => (s.mounts m).node

section Runs

variable {s s' : FsState σ} {T : List CString → Option NodePtr} {M : List CString → Option MountPtr}

theorem MountsAre.none_iff (h : MountsAre s T M) (π : List CString) : T π = none ↔ M π = none := by
  rw [h.table, Option.map_eq_none_iff]

theorem MountsAre.closed (h : MountsAre s T M) : PrefixClosed T := by
  obtain ⟨root, -, hM⟩ := h.root
  intro p e hne h0
  exact hM.closed p e (fun h1 => hne ((h.none_iff _).2 h1)) ((h.none_iff p).1 h0)

/-- A path resolves to the longest mounted prefix. -/
theorem MountsAre.resolve (h : MountsAre s T M) (q : List CString) :
    ∃ pre rest n, resolve s q = .ok (n, rest) ∧ Longest T q pre rest n := by
  obtain ⟨root, hroot, hM⟩ := h.root
  obtain ⟨pre, rest, m, hwalk, hlong⟩ := walkMountGraph_longest hM q
  refine ⟨pre, rest, (s.mounts m).node, ?_, hlong.split, ?_, fun p hp hT => ?_⟩
  · rw [Fs.resolve, hroot]
    dsimp only
    rw [hwalk]
    rfl
  · rw [h.table, hlong.hit]
    rfl
  · exact hlong.longest p hp fun h0 => hT ((h.none_iff p).2 h0)

/-- One call of `kmount` on a represented table. -/
theorem MountsAre.kmount (h : MountsAre s T M) (path : CString) (node : NodePtr) :
    (T (tokenizePathList path) ≠ none ∧ kmount s path node = .ok (false, s)) ∨
    (T (tokenizePathList path) = none ∧ ∀ r s', Fs.kmount s path node = .ok (r, s') →
      r = true ∧ ∃ M', MountsAre s' (Function.update T (tokenizePathList path) (some node)) M') := by
  obtain ⟨root, hroot, hM⟩ := h.root
  rcases kmount_cases hM hroot path node with ⟨hne, hk⟩ | ⟨heq, hk⟩
  · exact Or.inl ⟨fun h0 => hne ((h.none_iff _).1 h0), hk⟩
  · refine Or.inr ⟨(h.none_iff _).2 heq, fun r s' hs => ?_⟩
    obtain ⟨hr, hroot', hnode, hold, hM'⟩ := hk r s' hs
    refine ⟨hr, _, ⟨root, hroot', hM'⟩, fun π => ?_⟩
    by_cases hπ : π = tokenizePathList path
    · subst hπ
      rw [Function.update_self, Function.update_self, Option.map_some, hnode]
    · rw [Function.update_of_ne hπ, Function.update_of_ne hπ, h.table]
      cases hm : M π with
      | none => rfl
      | some m => rw [Option.map_some, Option.map_some, hold m (hM.allocated π m hm)]

/-- The graph after `fs_mount_root` is the root alone. -/
theorem fsMountRoot_mountsAre {node : NodePtr} (h : fsMountRoot s node = .ok s') :
    ∃ M, MountsAre s' (Function.update (fun _ => none) [] (some node)) M := by
  simp only [fsMountRoot, fsMountNew, bind_eq_ok, pure_eq_ok] at h
  obtain ⟨-, -, s₁, href, rfl⟩ := h
  obtain ⟨hm, hn, -⟩ := fsNodeReference_frame href
  dsimp only at hm hn
  have hroot : ∀ {π : List CString} {m : MountPtr},
      Function.update (fun _ => none) [] (some s.nextMount) π = some m → π = [] ∧ m = s.nextMount := by
    intro π m h
    by_cases hπ : π = []
    · subst hπ
      rw [Function.update_self, Option.some.injEq] at h
      exact ⟨rfl, h.symm⟩
    · rw [Function.update_of_ne hπ] at h
      cases h
  have hnone : ∀ (π : List CString) (e : CString),
      Function.update (fun _ => none) [] (some s.nextMount) (π ++ [e]) = none :=
    fun π e => Function.update_of_ne (by simp) _ _
  have hmount : s₁.mounts s.nextMount = ⟨rootElement, node, [], 1⟩ := by rw [hm, Function.update_self]
  refine ⟨Function.update (fun _ => none) [] (some s.nextMount), ⟨s.nextMount, rfl, ?_⟩, fun π => ?_⟩
  · constructor
    case root => exact Function.update_self ..
    case child =>
      intro π m e h
      obtain ⟨rfl, rfl⟩ := hroot h
      rw [hnone]
      dsimp only
      rw [hmount]
      rfl
    case closed =>
      intro π e h
      exact absurd (hnone π e) h
    case injective =>
      intro π π' m h h'
      rw [(hroot h).1, (hroot h').1]
    case allocated =>
      intro π m h
      rw [(hroot h).2]
      exact Nat.lt_of_lt_of_eq (Nat.lt_succ_self _) hn.symm
    case children =>
      intro π m h c hc
      rw [(hroot h).2] at hc
      dsimp only at hc
      rw [hmount] at hc
      cases hc
    case distinct =>
      intro π m h
      rw [(hroot h).2]
      dsimp only
      rw [hmount]
      exact List.nodup_nil
  · by_cases hπ : π = []
    · subst hπ
      rw [Function.update_self, Function.update_self, Option.map_some, hmount]
    · rw [Function.update_of_ne hπ, Function.update_of_ne hπ]
      rfl

/-- A run of `kmount` calls fills the table. -/
theorem MountsAre.run {calls : List (CString × NodePtr)} (h : MountsAre s T M)
    (hrun : runSteps kmountStep s calls = .ok s') :
    ∃ M', MountsAre s' (calls.foldl (fun T call => if T (tokenizePathList call.1) = none then
      Function.update T (tokenizePathList call.1) (some call.2) else T) T) M' := by
  induction calls generalizing s T M with
  | nil =>
    rw [runSteps, Except.ok.injEq] at hrun
    subst hrun
    exact ⟨M, h⟩
  | cons call calls ih =>
    simp only [runSteps, kmountStep, bind_eq_ok, pure_eq_ok] at hrun
    obtain ⟨s₁, ⟨⟨r, s₂⟩, hk, rfl⟩, hrun⟩ := hrun
    rw [List.foldl_cons]
    rcases h.kmount call.1 call.2 with ⟨hne, hk'⟩ | ⟨heq, hk'⟩
    · rw [hk', Except.ok.injEq, Prod.mk.injEq] at hk
      obtain ⟨-, rfl⟩ := hk
      rw [if_neg hne]
      exact ih h hrun
    · obtain ⟨-, M', hM'⟩ := hk' r s₂ hk
      rw [if_pos heq]
      exact ih hM' hrun

end Runs

/-- **Runs.** After `fs_mount_root` and any `kmount` calls that return, every mount has submounts with distinct elements,
every path resolves to the node at its longest mounted prefix with the other components left over, a further `kmount`
for a mounted path returns false and changes nothing, and one that mounts a path changes the resolution of exactly the
paths that have it as a prefix. -/
theorem mount_runs_resolve {σ : Type} (s₀ s₁ s : FsState σ) (node₀ : NodePtr) (calls : List (CString × NodePtr))
    (hroot : fsMountRoot s₀ node₀ = .ok s₁) (hrun : runSteps kmountStep s₁ calls = .ok s) :
    (∀ q root m rest, s.rootMount = some root → walkMountGraph s q root = .ok (m, rest) →
      ((s.mounts m).mounts.map fun c => (s.mounts c).element).Nodup) ∧
    (∀ q, ∃ pre rest n, resolve s q = .ok (n, rest) ∧ Longest (mountTable node₀ calls) q pre rest n) ∧
    ∀ path node,
      (mountTable node₀ calls (tokenizePathList path) ≠ none → kmount s path node = .ok (false, s)) ∧
      ∀ s', kmount s path node = .ok (true, s') →
        ∀ q, resolve s' q ≠ resolve s q ↔ tokenizePathList path <+: q := by
  obtain ⟨M₀, h₀⟩ := fsMountRoot_mountsAre hroot
  obtain ⟨M, h⟩ := h₀.run hrun
  change MountsAre s (mountTable node₀ calls) M at h
  refine ⟨fun q root m rest hr hwalk => ?_, h.resolve, fun path node => ⟨fun hne => ?_, fun s' hk q => ?_⟩⟩
  · obtain ⟨root', hr', hM⟩ := h.root
    obtain rfl : root' = root := Option.some.inj (hr'.symm.trans hr)
    obtain ⟨pre, rest', m', hwalk', hlong⟩ := walkMountGraph_longest hM q
    rw [hwalk', Except.ok.injEq, Prod.mk.injEq] at hwalk
    obtain ⟨rfl, -⟩ := hwalk
    exact hM.distinct pre m' hlong.hit
  · rcases h.kmount path node with ⟨-, hk⟩ | ⟨heq, -⟩
    · exact hk
    · exact absurd heq hne
  · rcases h.kmount path node with ⟨-, hk'⟩ | ⟨heq, hk'⟩
    · rw [hk'] at hk
      cases hk
    · obtain ⟨-, M', h'⟩ := hk' true s' hk
      obtain ⟨pre, rest, n, hres, hlong⟩ := h.resolve q
      obtain ⟨pre', rest', n', hres', hlong'⟩ := h'.resolve q
      rw [hres, hres']
      constructor
      · intro hne
        by_contra hnp
        obtain ⟨-, rfl, rfl⟩ := hlong'.unique (hlong.update_other hnp node)
        exact hne rfl
      · intro hp heq'
        rw [Except.ok.injEq, Prod.mk.injEq] at heq'
        exact Longest.update_below h.closed heq hp hlong hlong' heq'.2

/-- Ten directory nodes with one reference each, and no mounts. -/
def tenNodes : FsState Unit :=
  ⟨fun _ => ⟨⟨true, false, false, false, true, false, 0⟩, 1⟩, 10, [], [], fun _ => ⟨rootElement, 0, [], 0⟩, 0, none, ()⟩

/-- `"/tmp"`. -/
def tmpPath : CString := ⟨[0x2F, 0x74, 0x6D, 0x70], by decide⟩

/-- `"/tmp/test"`. -/
def tmpTestPath : CString := ⟨[0x2F, 0x74, 0x6D, 0x70, 0x2F, 0x74, 0x65, 0x73, 0x74], by decide⟩

/-- The mounts of `kmain`. -/
theorem mount_runs_resolve_tmp :
    ∃ s₁ s, fsMountRoot tenNodes 1 = .ok s₁ ∧ runSteps kmountStep s₁ [(tmpPath, 2), (tmpTestPath, 3)] = .ok s ∧
      (∀ q, ∃ pre rest n, resolve s q = .ok (n, rest) ∧
        Longest (mountTable 1 [(tmpPath, 2), (tmpTestPath, 3)]) q pre rest n) ∧
      kmount s tmpPath 4 = .ok (false, s) := by
  refine ⟨_, _, rfl, rfl, ?_⟩
  have h := mount_runs_resolve tenNodes _ _ 1 [(tmpPath, 2), (tmpTestPath, 3)] rfl rfl
  exact ⟨h.2.1, (h.2.2 tmpPath 4).1 (by decide)⟩

end Myunix.Fs
