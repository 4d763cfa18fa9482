import Mathlib.Data.List.Nodup
import Myunix.Tmpfs.Dir

/-!
# A directory as a finite map

What a directory is for: a map from names to objects (`DirMap`) with insertion of absent names, lookup and removal
(`dirSpec`). Its children, by name, are its map (`dirMap`).

`tmpfs_finddir` and `tmpfs_unlink` take the first child that has the given name as a prefix, so that with `"ab"` in the
directory a lookup or removal of `"a"` hits `"ab"`. `DirCallOk` says when the first such child has exactly that name.
Under it every call acts on the map as specified (`dirStep_refines`), and so does every run (`dir_runs_refine_maps`).
-/

namespace Myunix.Tmpfs

open Lib

/-! ## The specification -/

/-- A finite map from names to objects with their kind. -/
abbrev DirMap := CString → Option (ObjPtr × NodeFlags)

/-- Add an object under a name that is not taken. -/
def insertSpec (flags : NodeFlags) (m : DirMap) (name : CString) (m' : DirMap) : Prop :=
  (∃ x, m name = some x ∧ m' = m) ∨
    (m name = none ∧ ∃ o, (∀ n k, m n ≠ some (o, k)) ∧ m' = Function.update m name (some (o, flags)))

/-- The calls on a map. -/
def dirSpec (m : DirMap) : DirOp → DirResult → DirMap → Prop
  | .create name, r, m' => insertSpec .file m name m' ∧ r = .unit
  | .mkdir name, r, m' => insertSpec .directory m name m' ∧ r = .unit
  | .unlink name, r, m' => (∃ x, m name = some x ∧ m' = Function.update m name none ∧ r = .code 0) ∨
      (m name = none ∧ m' = m ∧ r = .code (-1))
  | .finddir name, r, m' => m' = m ∧ r = .node ((m name).map fun x => ⟨name.bytes.take 255, x.2, x.1⟩)

/-- The map of a directory. -/
def dirMap (s : TmpfsState) (dir : ObjPtr) : DirMap := fun n =>
  ((s.objs dir).childs.find? fun v => decide ((s.objs v).name = n)).map fun v => (v, (s.objs v).flags)

/-- A directory that only its own operations have worked on: its children have distinct names and are referenced, and
its subdirectories are empty. -/
structure DirInv (s : TmpfsState) (dir : ObjPtr) : Prop where
  isDir : (s.objs dir).flags = .directory
  dir_lt : dir < s.next
  child_lt : ∀ v ∈ (s.objs dir).childs, v < s.next
  child_ne : ∀ v ∈ (s.objs dir).childs, v ≠ dir
  names : ((s.objs dir).childs.map fun v => (s.objs v).name).Nodup
  refs : ∀ v ∈ (s.objs dir).childs, 1 ≤ (s.objs v).refcount
  empty : ∀ v ∈ (s.objs dir).childs, (s.objs v).childs = []

/-- When a call meets the right child: the first child that `name` is a prefix of is called `name`. -/
def DirCallOk (dir : ObjPtr) (s : TmpfsState) : DirOp → Prop
  | .create _ => True
  | .mkdir _ => True
  | .unlink name | .finddir name =>
    ∀ v, (s.objs dir).childs.find? (fun v => name.bytes.isPrefixOf (s.objs v).name.bytes) = some v →
      (s.objs v).name = name

/-! ## Searching the children -/

section Search

variable (s : TmpfsState) (name : CString)

/-- `tmpfs_finddir` and `tmpfs_unlink` find the first child that `name` is a prefix of. -/
theorem searchChilds_prefix (vs : List ObjPtr) : searchChilds s name (strlen name) vs =
    .ok (vs.find? fun v => name.bytes.isPrefixOf (s.objs v).name.bytes) := by
  induction vs with
  | nil => rfl
  | cons v vs ih =>
    obtain ⟨r, hr, h⟩ := name.memcmp_prefix (s.objs v).name
    rw [← List.isPrefixOf_iff_prefix] at h
    by_cases h0 : r = 0
    · simp [searchChilds, hr, h0, h.1 h0, pure, Except.pure]
    · have hp : name.bytes.isPrefixOf (s.objs v).name.bytes = false := by
        rw [Bool.eq_false_iff]; exact fun h' => h0 (h.2 h')
      simp [searchChilds, hr, h0, hp, ih]

/-- `tmpfs_create` and `tmpfs_mkdir` find the child called `name`. -/
theorem searchChilds_eq (vs : List ObjPtr) : searchChilds s name (strlen name + 1) vs =
    .ok (vs.find? fun v => decide ((s.objs v).name = name)) := by
  induction vs with
  | nil => rfl
  | cons v vs ih =>
    obtain ⟨r, hr, h⟩ := name.memcmp_eq (s.objs v).name
    by_cases h0 : r = 0
    · have hp : (s.objs v).name = name := (h.1 h0).symm
      rw [List.find?_cons_of_pos (by simp [hp])]
      simp only [searchChilds, hr, ok_bind, h0, if_true]; rfl
    · have hp : ¬ (s.objs v).name = name := fun h' => h0 (h.2 h'.symm)
      simp [searchChilds, hr, h0, hp, ih]

/-- Where the first prefix match is exact, it is the exact match. -/
theorem find?_prefix_eq (vs : List ObjPtr)
    (hok : ∀ v, vs.find? (fun v => name.bytes.isPrefixOf (s.objs v).name.bytes) = some v → (s.objs v).name = name) :
    vs.find? (fun v => name.bytes.isPrefixOf (s.objs v).name.bytes) =
      vs.find? fun v => decide ((s.objs v).name = name) := by
  induction vs with
  | nil => rfl
  | cons v vs ih =>
    by_cases hv : (s.objs v).name = name
    · rw [List.find?_cons_of_pos (by simp [hv]), List.find?_cons_of_pos (by simp [hv])]
    · have hp : ¬ name.bytes.isPrefixOf (s.objs v).name.bytes = true := fun h =>
        hv (hok v (List.find?_cons_of_pos h))
      have hcons := List.find?_cons_of_neg (p := fun v => name.bytes.isPrefixOf (s.objs v).name.bytes) (l := vs) hp
      rw [hcons, List.find?_cons_of_neg (by simp [hv])]
      exact ih fun w hw => hok w (by rw [hcons]; exact hw)

/-- `tmpfs_unlink` and `tmpfs_finddir` find it as well when it is the first one that has `name` in front. -/
theorem searchChilds_first (vs : List ObjPtr)
    (hok : ∀ v, vs.find? (fun v => name.bytes.isPrefixOf (s.objs v).name.bytes) = some v → (s.objs v).name = name) :
    searchChilds s name (strlen name) vs = .ok (vs.find? fun v => decide ((s.objs v).name = name)) := by
  have hsearch := searchChilds_prefix s name vs
  rw [find?_prefix_eq s name vs hok] at hsearch
  exact hsearch

/-- With distinct names, the child found under a name is the child with that name. -/
theorem find?_name {vs : List ObjPtr} (hn : (vs.map fun v => (s.objs v).name).Nodup) {v : ObjPtr} :
    vs.find? (fun v => decide ((s.objs v).name = name)) = some v ↔ v ∈ vs ∧ (s.objs v).name = name := by
  constructor
  · intro h
    exact ⟨List.mem_of_find?_eq_some h, by simpa using List.find?_some h⟩
  · rintro ⟨hv, hname⟩
    induction vs with
    | nil => cases hv
    | cons w vs ih =>
      rw [List.map_cons, List.nodup_cons] at hn
      rcases List.mem_cons.1 hv with rfl | hv
      · exact List.find?_cons_of_pos (by simp [hname])
      · have hw : ¬ (s.objs w).name = name := fun h =>
          hn.1 (by rw [h, ← hname]; exact List.mem_map_of_mem (f := fun v => (s.objs v).name) hv)
        rw [List.find?_cons_of_neg (by simp [hw])]
        exact ih hn.2 hv

end Search

/-! ## The map after each change -/

section Map

variable {s : TmpfsState} {dir : ObjPtr}

theorem dirMap_eq_some (hinv : DirInv s dir) {name : CString} {x : ObjPtr × NodeFlags} :
    dirMap s dir name = some x ↔
      x.1 ∈ (s.objs dir).childs ∧ (s.objs x.1).name = name ∧ (s.objs x.1).flags = x.2 := by
  simp only [dirMap, Option.map_eq_some_iff, find?_name s name hinv.names]
  constructor
  · rintro ⟨v, ⟨hv, hn⟩, rfl⟩; exact ⟨hv, hn, rfl⟩
  · rintro ⟨hv, hn, hf⟩; exact ⟨x.1, ⟨hv, hn⟩, by rw [hf]⟩

theorem dirMap_eq_none (hinv : DirInv s dir) {name : CString} (h : dirMap s dir name = none) {v : ObjPtr}
    (hv : v ∈ (s.objs dir).childs) : (s.objs v).name ≠ name := by
  intro hn
  have := (dirMap_eq_some hinv (x := (v, (s.objs v).flags))).2 ⟨hv, hn, rfl⟩
  rw [h] at this; cases this

/-- The invariant and the map only depend on the children, their names, kinds and contents. -/
theorem dir_congr (s' : TmpfsState) (hinv : DirInv s dir) (hd : s'.objs dir = s.objs dir) (hnext : s'.next = s.next)
    (hname : ∀ v ∈ (s.objs dir).childs, (s'.objs v).name = (s.objs v).name)
    (hflags : ∀ v ∈ (s.objs dir).childs, (s'.objs v).flags = (s.objs v).flags)
    (hchilds : ∀ v ∈ (s.objs dir).childs, (s'.objs v).childs = (s.objs v).childs)
    (hrefs : ∀ v ∈ (s.objs dir).childs, 1 ≤ (s'.objs v).refcount) :
    DirInv s' dir ∧ dirMap s' dir = dirMap s dir := by
  have hinv' : DirInv s' dir := by
    refine ⟨by rw [hd]; exact hinv.isDir, by rw [hnext]; exact hinv.dir_lt, by rw [hd, hnext]; exact hinv.child_lt,
      by rw [hd]; exact hinv.child_ne, ?_, by rw [hd]; exact hrefs, ?_⟩
    · rw [hd, List.map_congr_left hname]; exact hinv.names
    · rw [hd]
      intro v hv
      rw [hchilds v hv]; exact hinv.empty v hv
  refine ⟨hinv', funext fun n => Option.ext fun x => ?_⟩
  rw [dirMap_eq_some hinv', dirMap_eq_some hinv, hd]
  constructor
  · rintro ⟨hv, h1, h2⟩; exact ⟨hv, by rw [← hname _ hv, h1], by rw [← hflags _ hv, h2]⟩
  · rintro ⟨hv, h1, h2⟩; exact ⟨hv, by rw [hname _ hv, h1], by rw [hflags _ hv, h2]⟩

/-- Appending a new, referenced object with no children under a name that is not taken. -/
theorem dir_insert (s' : TmpfsState) (hinv : DirInv s dir) {name : CString} (flags : NodeFlags)
    (hfree : dirMap s dir name = none)
    (hd : s'.objs dir = { s.objs dir with childs := (s.objs dir).childs ++ [s.next] })
    (hnew : s'.objs s.next = ⟨name, flags, [], [], 1, true⟩) (hnext : s'.next = s.next + 1)
    (hold : ∀ v, v ≠ s.next → v ≠ dir → s'.objs v = s.objs v) :
    DirInv s' dir ∧ dirMap s' dir = Function.update (dirMap s dir) name (some (s.next, flags)) := by
  have hsame : ∀ v ∈ (s.objs dir).childs, s'.objs v = s.objs v := fun v hv =>
    hold v (Nat.ne_of_lt (hinv.child_lt v hv)) (hinv.child_ne v hv)
  have hmem : ∀ v, v ∈ (s'.objs dir).childs ↔ v ∈ (s.objs dir).childs ∨ v = s.next := by
    intro v; rw [hd]; simp
  have hnames : (s'.objs dir).childs.map (fun v => (s'.objs v).name) =
      (s.objs dir).childs.map (fun v => (s.objs v).name) ++ [name] := by
    rw [hd]
    simp only [List.map_append, List.map_cons, List.map_nil, hnew]
    rw [List.map_congr_left fun v hv => by rw [hsame v hv]]
  have hinv' : DirInv s' dir := by
    refine ⟨by rw [hd]; exact hinv.isDir, by rw [hnext]; exact Nat.lt_succ_of_lt hinv.dir_lt, ?_, ?_, ?_, ?_, ?_⟩
    · intro v hv
      rcases (hmem v).1 hv with hv | rfl
      · rw [hnext]; exact Nat.lt_succ_of_lt (hinv.child_lt v hv)
      · rw [hnext]; exact Nat.lt_succ_self _
    · intro v hv
      rcases (hmem v).1 hv with hv | rfl
      · exact hinv.child_ne v hv
      · exact (Nat.ne_of_lt hinv.dir_lt).symm
    · rw [hnames, List.nodup_append]
      refine ⟨hinv.names, by simp, ?_⟩
      intro n hn n' hn' heq
      obtain ⟨v, hv, rfl⟩ := List.mem_map.1 hn
      exact dirMap_eq_none hinv hfree hv (by rw [heq, List.mem_singleton.1 hn'])
    · intro v hv
      rcases (hmem v).1 hv with hv | rfl
      · rw [hsame v hv]; exact hinv.refs v hv
      · simp [hnew]
    · intro v hv
      rcases (hmem v).1 hv with hv | rfl
      · rw [hsame v hv]; exact hinv.empty v hv
      · simp [hnew]
  refine ⟨hinv', funext fun n => Option.ext fun x => ?_⟩
  rw [dirMap_eq_some hinv', hmem]
  by_cases hn : n = name
  · subst hn
    rw [Function.update_self, Option.some.injEq]
    constructor
    · rintro ⟨hv | hv, h1, h2⟩
      · rw [hsame _ hv] at h1
        exact absurd h1 (dirMap_eq_none hinv hfree hv)
      · rw [hv, hnew] at h2
        rw [show flags = x.2 from h2, ← hv]
    · rintro rfl
      exact ⟨Or.inr rfl, by simp [hnew], by simp [hnew]⟩
  · rw [Function.update_of_ne hn, dirMap_eq_some hinv]
    constructor
    · rintro ⟨hv | hv, h1, h2⟩
      · rw [hsame _ hv] at h1 h2; exact ⟨hv, h1, h2⟩
      · rw [hv, hnew] at h1
        exact absurd h1.symm hn
    · rintro ⟨hv, h1, h2⟩
      rw [hsame _ hv]; exact ⟨Or.inl hv, h1, h2⟩

/-- Removing one child. -/
theorem dir_erase (s' : TmpfsState) (hinv : DirInv s dir) {o : ObjPtr} (ho : o ∈ (s.objs dir).childs)
    (hd : s'.objs dir = { s.objs dir with childs := (s.objs dir).childs.erase o }) (hnext : s'.next = s.next)
    (hold : ∀ v, v ≠ o → v ≠ dir → s'.objs v = s.objs v) :
    DirInv s' dir ∧ dirMap s' dir = Function.update (dirMap s dir) (s.objs o).name none := by
  have hnodup : (s.objs dir).childs.Nodup := List.Nodup.of_map _ hinv.names
  have hmem : ∀ v, v ∈ (s'.objs dir).childs ↔ v ≠ o ∧ v ∈ (s.objs dir).childs := by
    intro v; rw [hd]; exact hnodup.mem_erase_iff
  have hsame : ∀ v ∈ (s'.objs dir).childs, s'.objs v = s.objs v := fun v hv =>
    hold v ((hmem v).1 hv).1 (hinv.child_ne v ((hmem v).1 hv).2)
  have hinv' : DirInv s' dir := by
    refine ⟨by rw [hd]; exact hinv.isDir, by rw [hnext]; exact hinv.dir_lt,
      fun v hv => by rw [hnext]; exact hinv.child_lt v ((hmem v).1 hv).2,
      fun v hv => hinv.child_ne v ((hmem v).1 hv).2, ?_,
      fun v hv => by rw [hsame v hv]; exact hinv.refs v ((hmem v).1 hv).2,
      fun v hv => by rw [hsame v hv]; exact hinv.empty v ((hmem v).1 hv).2⟩
    rw [List.map_congr_left fun v hv => by rw [hsame v hv], hd]
    exact hinv.names.sublist ((List.erase_sublist).map _)
  refine ⟨hinv', funext fun n => Option.ext fun x => ?_⟩
  rw [dirMap_eq_some hinv']
  by_cases hn : n = (s.objs o).name
  · subst hn
    rw [Function.update_self]
    constructor
    · rintro ⟨hv, h1, -⟩
      rw [hsame _ hv] at h1
      exact absurd (List.inj_on_of_nodup_map hinv.names ((hmem _).1 hv).2 ho h1) ((hmem _).1 hv).1
    · intro h; cases h
  · rw [Function.update_of_ne hn, dirMap_eq_some hinv]
    constructor
    · rintro ⟨hv, h1, h2⟩
      rw [hsame _ hv] at h1 h2; exact ⟨((hmem _).1 hv).2, h1, h2⟩
    · rintro ⟨hv, h1, h2⟩
      have hv' : x.1 ∈ (s'.objs dir).childs := (hmem _).2 ⟨fun h => hn (by rw [← h1, h]), hv⟩
      rw [hsame _ hv']; exact ⟨hv', h1, h2⟩

end Map

/-! ## One call and whole runs -/

section Calls

variable {s : TmpfsState} {dir : ObjPtr}

@[simp] theorem modify_self (s : TmpfsState) (o : ObjPtr) (f : TmpfsObject → TmpfsObject) :
    (s.modify o f).objs o = f (s.objs o) := by simp [TmpfsState.modify]

@[simp] theorem modify_of_ne {o v : ObjPtr} (h : v ≠ o) (f : TmpfsObject → TmpfsObject) :
    (s.modify o f).objs v = s.objs v := by simp [TmpfsState.modify, h]

@[simp] theorem modify_next (o : ObjPtr) (f : TmpfsObject → TmpfsObject) : (s.modify o f).next = s.next := rfl

/-- `tmpfs_mkdir` and `tmpfs_create`. -/
theorem tmpfsInsert_ok (hinv : DirInv s dir) (flags : NodeFlags) (name : CString) :
    ∃ s', tmpfsInsert flags s dir name = .ok s' ∧ DirInv s' dir ∧
      insertSpec flags (dirMap s dir) name (dirMap s' dir) := by
  have hdir := hinv.isDir
  cases hfind : (s.objs dir).childs.find? (fun v => decide ((s.objs v).name = name)) with
  | some v =>
    refine ⟨s, by simp [tmpfsInsert, hdir, searchChilds_eq, hfind, pure, Except.pure], hinv,
      Or.inl ⟨(v, (s.objs v).flags), by simp [dirMap, hfind], rfl⟩⟩
  | none =>
    have hfree : dirMap s dir name = none := by simp [dirMap, hfind]
    have hne : dir ≠ s.next := Nat.ne_of_lt hinv.dir_lt
    let s' := ((tmpfsCreateObj s name flags).2.modify s.next fun obj => { obj with refcount := obj.refcount + 1 }).modify
      dir fun obj => { obj with childs := obj.childs ++ [s.next] }
    obtain ⟨hinv', hmap⟩ := dir_insert s' hinv flags hfree
      (by simp [s', tmpfsCreateObj, hne]) (by simp [s', tmpfsCreateObj, hne.symm]) rfl
      (fun v h1 h2 => by simp [s', tmpfsCreateObj, h1, h2])
    refine ⟨s', ?_, hinv', Or.inr ⟨hfree, s.next, fun n k h => ?_, hmap⟩⟩
    · simp only [tmpfsInsert, assert_pos hdir, searchChilds_eq, hfind, ok_bind]; rfl
    · exact absurd (hinv.child_lt _ ((dirMap_eq_some hinv).1 h).1) (Nat.lt_irrefl _)

/-- `tmpfs_finddir`. -/
theorem tmpfsFinddir_ok (hinv : DirInv s dir) (name : CString) (hok : DirCallOk dir s (.finddir name)) :
    ∃ s', tmpfsFinddir s dir name =
        .ok ((dirMap s dir name).map fun x => ⟨name.bytes.take 255, x.2, x.1⟩, s') ∧
      DirInv s' dir ∧ dirMap s' dir = dirMap s dir := by
  have hdir := hinv.isDir
  have hsearch := searchChilds_first s name (s.objs dir).childs hok
  cases hfind : (s.objs dir).childs.find? (fun v => decide ((s.objs v).name = name)) with
  | none =>
    rw [hfind] at hsearch
    exact ⟨s, by simp [tmpfsFinddir, hdir, hsearch, dirMap, hfind, pure, Except.pure], hinv, rfl⟩
  | some v =>
    rw [hfind] at hsearch
    obtain ⟨hv, hname⟩ := (find?_name s name hinv.names).1 hfind
    let s' := s.modify v fun obj => { obj with refcount := obj.refcount + 1 }
    have hobj : ∀ w, w ≠ v → s'.objs w = s.objs w := fun w hw => by simp [s', hw]
    obtain ⟨hinv', hmap⟩ := dir_congr s' hinv (hobj dir (hinv.child_ne v hv).symm) rfl
      (fun w _ => by by_cases h : w = v <;> simp [s', h])
      (fun w _ => by by_cases h : w = v <;> simp [s', h])
      (fun w _ => by by_cases h : w = v <;> simp [s', h])
      (fun w hw => by
        by_cases h : w = v
        · subst h; have := hinv.refs w hw; simp [s']; omega
        · rw [hobj w h]; exact hinv.refs w hw)
    refine ⟨s', ?_, hinv', hmap⟩
    simp [tmpfsFinddir, hdir, hsearch, dirMap, hfind, fsNodeFromTmpfs, hname, s', pure, Except.pure]

/-- An unreferenced object without children is destroyed without a failed assertion. -/
theorem tmpfsDestroyObject_ok {v : ObjPtr} (h0 : (s.objs v).refcount = 0) (hempty : (s.objs v).childs = []) :
    tmpfsDestroyObject s v = .ok (s.modify v fun obj => { obj with childs := [], block := [], live := false }) := by
  cases hf : (s.objs v).flags with
  | file => simp [tmpfsDestroyObject, h0, hf, pure, Except.pure]
  | directory => simp [tmpfsDestroyObject, h0, hf, hempty, pure, Except.pure]

/-- Dropping a reference to an object without children only changes that object. -/
theorem dropReference_ok {v : ObjPtr} (hempty : (s.objs v).childs = []) :
    ∃ s', dropReference s v = .ok s' ∧ s'.next = s.next ∧ ∀ w, w ≠ v → s'.objs w = s.objs w := by
  unfold dropReference
  dsimp only
  split
  · rename_i h0
    refine ⟨_, tmpfsDestroyObject_ok h0 (by simp [hempty]), rfl, fun w hw => ?_⟩
    simp [hw]
  · exact ⟨_, rfl, rfl, fun w hw => by simp [hw]⟩

/-- `tmpfs_unlink`: the last reference destroys the object, which has no children. -/
theorem tmpfsUnlink_ok (hinv : DirInv s dir) (name : CString) (hok : DirCallOk dir s (.unlink name)) :
    ∃ r s', tmpfsUnlink s dir (some name) = .ok (r, s') ∧ DirInv s' dir ∧
      dirSpec (dirMap s dir) (.unlink name) (.code r) (dirMap s' dir) := by
  have hdir := hinv.isDir
  have hsearch := searchChilds_first s name (s.objs dir).childs hok
  cases hfind : (s.objs dir).childs.find? (fun v => decide ((s.objs v).name = name)) with
  | none =>
    rw [hfind] at hsearch
    exact ⟨-1, s, by simp [tmpfsUnlink, hdir, hsearch, pure, Except.pure], hinv,
      Or.inr ⟨by simp [dirMap, hfind], rfl, rfl⟩⟩
  | some v =>
    rw [hfind] at hsearch
    obtain ⟨hv, hname⟩ := (find?_name s name hinv.names).1 hfind
    have hne : dir ≠ v := (hinv.child_ne v hv).symm
    obtain ⟨s₂, hs₂, hnext, hobj⟩ := dropReference_ok (hinv.empty v hv)
    let s' := s₂.modify dir fun obj => { obj with childs := obj.childs.erase v }
    obtain ⟨hinv', hmap⟩ := dir_erase s' hinv hv (by simp [s', hobj dir hne]) hnext
      (fun w h1 h2 => by simp [s', h2, hobj w h1])
    refine ⟨0, s', ?_, hinv', Or.inl ⟨(v, (s.objs v).flags), by simp [dirMap, hfind], ?_, rfl⟩⟩
    · simp only [tmpfsUnlink, assert_pos hdir, hsearch, hs₂, ok_bind]; rfl
    · rw [hmap, hname]

/-- **One call** that meets `DirCallOk` returns what the specification says. -/
theorem dirStep_refines (s : TmpfsState) (m : DirMap) (op : DirOp) (hR : DirInv s dir ∧ m = dirMap s dir)
    (hok : DirCallOk dir s op) :
    ∃ r s' m', dirStep dir s op = .ok (r, s') ∧ dirSpec m op r m' ∧ DirInv s' dir ∧ m' = dirMap s' dir := by
  obtain ⟨hinv, rfl⟩ := hR
  cases op with
  | create name =>
    obtain ⟨s', hs', hinv', hspec⟩ := tmpfsInsert_ok hinv .file name
    exact ⟨.unit, s', _, by simp [dirStep, tmpfsCreate, hs', pure, Except.pure], ⟨hspec, rfl⟩, hinv', rfl⟩
  | mkdir name =>
    obtain ⟨s', hs', hinv', hspec⟩ := tmpfsInsert_ok hinv .directory name
    exact ⟨.unit, s', _, by simp [dirStep, tmpfsMkdir, hs', pure, Except.pure], ⟨hspec, rfl⟩, hinv', rfl⟩
  | unlink name =>
    obtain ⟨r, s', hs', hinv', hspec⟩ := tmpfsUnlink_ok hinv name hok
    exact ⟨.code r, s', _, by simp [dirStep, hs', pure, Except.pure], hspec, hinv', rfl⟩
  | finddir name =>
    obtain ⟨s', hs', hinv', hmap⟩ := tmpfsFinddir_ok hinv name hok
    exact ⟨_, s', _, by simp [dirStep, hs', pure, Except.pure], ⟨hmap, rfl⟩, hinv', rfl⟩

end Calls

/-- A directory without children, as `tmpfs_create_obj` makes it. -/
def FreshDir (s : TmpfsState) (dir : ObjPtr) : Prop :=
  (s.objs dir).flags = .directory ∧ dir < s.next ∧ (s.objs dir).childs = []

theorem FreshDir.inv {s : TmpfsState} {dir : ObjPtr} (h : FreshDir s dir) :
    DirInv s dir ∧ (fun _ => none) = dirMap s dir := by
  obtain ⟨h1, h2, h3⟩ := h
  refine ⟨⟨h1, h2, ?_, ?_, ?_, ?_, ?_⟩, by funext n; simp [h3, dirMap]⟩ <;> simp [h3]

/-- **Runs.** From a directory without children, every sequence of calls on it that each meet `DirCallOk` returns,
answers as the finite map does, and leaves a directory that reads as this map. -/
theorem dir_runs_refine_maps (s₀ : TmpfsState) (dir : ObjPtr) (hinit : FreshDir s₀ dir) (ops : List DirOp)
    (hok : Meets (dirStep dir) (DirCallOk dir) s₀ ops) :
    ∃ rs s m, runOps (dirStep dir) s₀ ops = .ok (rs, s) ∧ SpecRun dirSpec (fun _ => none) ops rs m ∧
      m = dirMap s dir := by
  obtain ⟨rs, s, m, hrun, hspec, -, hm⟩ :=
    runOps_refines (R := fun s m => DirInv s dir ∧ m = dirMap s dir) dirStep_refines ops hinit.inv hok
  exact ⟨rs, s, m, hrun, hspec, hm⟩

/-- The object heap before anything is mounted. -/
def emptyHeap : TmpfsState := ⟨fun _ => ⟨rootName, .directory, [], [], 0, false⟩, 0⟩

/-- The name `"a"`. -/
def nameA : CString := ⟨[0x61], by decide⟩

/-- The name `"ab"`. -/
def nameAB : CString := ⟨[0x61, 0x62], by decide⟩

/-- On a new mount, with `"a"` before `"ab"`, both are told apart. -/
theorem dir_runs_refine_maps_mount :
    ∃ rs s m, runOps (dirStep 0) (mountTmpfs emptyHeap).2
        [.create nameA, .mkdir nameAB, .finddir nameA, .unlink nameAB, .unlink nameAB] = .ok (rs, s) ∧
      SpecRun dirSpec (fun _ => none)
        [.create nameA, .mkdir nameAB, .finddir nameA, .unlink nameAB, .unlink nameAB] rs m ∧ m = dirMap s 0 := by
  refine dir_runs_refine_maps (mountTmpfs emptyHeap).2 0 ⟨rfl, by decide, rfl⟩ _ ?_
  refine meets_cons trivial rfl (meets_cons trivial rfl (meets_cons ?_ rfl (meets_cons ?_ rfl (meets_cons ?_ rfl trivial))))
  · rintro v ⟨⟩; rfl
  · rintro v ⟨⟩; rfl
  · rintro v ⟨⟩

/-- With only `"ab"` in the directory, `tmpfs_unlink("a")` returns 0 and removes it. -/
theorem tmpfs_unlink_prefix :
    ∃ s, runOps (dirStep 0) (mountTmpfs emptyHeap).2 [.create nameAB, .unlink nameA] = .ok ([.unit, .code 0], s) ∧
      ¬ ∃ m, SpecRun dirSpec (fun _ => none) [.create nameAB, .unlink nameA] [.unit, .code 0] m := by
  refine ⟨_, rfl, ?_⟩
  rintro ⟨m, r, rs, u, hr, ⟨hins, -⟩, r', rs', u', hr', hun, -⟩
  obtain ⟨-, rfl⟩ := List.cons.inj hr
  cases hr'
  have hnone : u nameA = none := by
    rcases hins with ⟨x, hx, -⟩ | ⟨-, o, -, rfl⟩
    · cases hx
    · exact Function.update_of_ne (by decide) _ _
  rcases hun with ⟨x, hx, -⟩ | ⟨-, -, h⟩
  · rw [hnone] at hx; cases hx
  · cases h

end Myunix.Tmpfs
