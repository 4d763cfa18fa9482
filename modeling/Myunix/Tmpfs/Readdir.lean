import Myunix.Lib.Cursor
import Myunix.Tmpfs.DirMap

/-!
# Listing a directory of the temporary filesystem (`tmpfs.c`, `kmain.c`)

`tmpfs_readdir` gives the entry with a number, and whoever lists a directory asks for one number after the other, as
`kmain_ls` does. Nothing keeps other tasks from working on the directory between two of these calls.

* `dirStep_effect` is what a call on any directory does to the list of entries of any other or the same one.
* **`readdir_lists`** says what a listing has got, over all interleavings: no file twice, and at its end it has missed
  at most as many files as were unlinked after the listing had passed them. A listing that had passed none of them is
  the directory.
-/

namespace Myunix.Tmpfs

open Lib

/-! ## The code -/

/-- `struct dirent`; nobody fills in its type. -/
structure Dirent where
  ino : Word
  name : List Byte
deriving DecidableEq, Repr

/-- `strncpy(v->name, name, n)` into the 256 bytes that `kcalloc` has cleared. -/
def direntName (name : CString) (n : Nat) : List Byte :=
  name.bytes.take n ++ List.replicate (256 - (name.bytes.take n).length) 0

theorem dotName_nonzero : (0 : Byte) ∉ [(0x2E : Byte)] := by decide

/-- The name `"."`. -/
def dotName : CString := ⟨[0x2E], dotName_nonzero⟩

theorem dotdotName_nonzero : (0 : Byte) ∉ [(0x2E : Byte), 0x2E] := by decide

/-- The name `".."`. -/
def dotdotName : CString := ⟨[0x2E, 0x2E], dotdotName_nonzero⟩

/-- The loop of `tmpfs_readdir`, with its `int j`. -/
def readdirChilds (s : TmpfsState) (i : Word) : Int → List ObjPtr → Option Dirent
  | _, [] => none
  | j, v :: vs => if j = 0 then some ⟨i, direntName (s.objs v).name 256⟩ else readdirChilds s i (j - 1) vs

/-- `tmpfs_readdir`. -/
def tmpfsReaddir (s : TmpfsState) (dir : ObjPtr) (i : Word) : Kernel (Option Dirent) :=
  if i = 0#32 then return some ⟨i, direntName dotName 255⟩
  else if i = 1#32 then return some ⟨i, direntName dotdotName 255⟩
  else do
    kassert ((s.objs dir).flags = .directory)
    return readdirChilds s i (i - 2#32).toInt (s.objs dir).childs

/-! ## Runs -/

/-- A listing of `dir` that asks for the entry `index` next, and what it has got. `passed` counts the calls since its
start that have removed an entry in front of it. -/
structure Listing where
  tmpfs : TmpfsState
  dir : ObjPtr
  index : Word
  dirents : List Dirent
  passed : Nat

/-- What happens next. -/
inductive ListEvent
  /-- A call on any directory. -/
  | call (d : ObjPtr) (op : DirOp)
  /-- A listing of a directory starts. -/
  | start (d : ObjPtr)
  /-- The listing asks for its next entry. -/
  | next

/-- The entries that the listing has passed. -/
def Listing.behind (x : Listing) : List ObjPtr := (x.tmpfs.objs x.dir).childs.take (x.index.toNat - 2)

/-- One event: a call of another task, or one of the listing itself. -/
def listStep (x : Listing) : ListEvent → Kernel Listing
  | .call d op => do
    kassert (d < x.tmpfs.next)
    let (_, s) ← dirStep d x.tmpfs op
    return { x with
      tmpfs := s
      passed := if x.behind.all fun v => decide (v ∈ (s.objs x.dir).childs) then x.passed else x.passed + 1 }
  | .start d => do
    kassert (d < x.tmpfs.next)
    kassert ((x.tmpfs.objs d).flags = .directory)
    return { x with dir := d, index := 0#32, dirents := [], passed := 0 }
  | .next => do
    match ← tmpfsReaddir x.tmpfs x.dir x.index with
    | none => return x
    | some v =>
      kassert (v.ino = x.index)
      return { x with index := x.index + 1#32, dirents := x.dirents ++ [v] }

/-- A listing of a new mount. -/
def listBoot : Listing := ⟨(mountTmpfs emptyHeap).2, 0, 0#32, [], 0⟩

/-- The names in a directory with the files `vs`. -/
def listedNames (s : TmpfsState) (vs : List ObjPtr) : List (List Byte) :=
  direntName dotName 255 :: direntName dotdotName 255 :: vs.map fun v => direntName (s.objs v).name 256

/-! ## What a call does to the lists of entries -/

/-- How the entries `xs` of a directory can change between `s` and `s'`. -/
def Changes (s s' : TmpfsState) (xs xs' : List ObjPtr) : Prop :=
  xs' = xs ∨ (xs' = xs ++ [s.next] ∧ s.next < s'.next) ∨ ∃ w ∈ xs, xs' = xs.erase w

/-- The effect of a call on the objects. -/
structure Effect (s s' : TmpfsState) : Prop where
  next : s.next ≤ s'.next
  name : ∀ v < s.next, (s'.objs v).name = (s.objs v).name
  flags : ∀ v < s.next, (s'.objs v).flags = (s.objs v).flags
  childs : ∀ v < s.next, (s.objs v).flags = .directory → Changes s s' (s.objs v).childs (s'.objs v).childs
  fresh : ∀ v, s.next ≤ v → v < s'.next → (s'.objs v).childs = []

section Effect

variable {s s' : TmpfsState} {d o : ObjPtr} {name : CString}

/-- Directories keep their entries. -/
structure Keeps (s s' : TmpfsState) : Prop where
  next : s'.next = s.next
  name : ∀ v, (s'.objs v).name = (s.objs v).name
  flags : ∀ v, (s'.objs v).flags = (s.objs v).flags
  childs : ∀ v, (s.objs v).flags = .directory → (s'.objs v).childs = (s.objs v).childs

theorem Keeps.effect (h : Keeps s s') : Effect s s' := by
  refine ⟨Nat.le_of_eq h.next.symm, fun v _ => h.name v, fun v _ => h.flags v,
    fun v _ hdir => Or.inl (h.childs v hdir), fun v hle hlt => ?_⟩
  rw [h.next] at hlt
  exact absurd hlt (Nat.not_lt.2 hle)

theorem keeps_refl : Keeps s s := ⟨rfl, fun _ => rfl, fun _ => rfl, fun _ _ => rfl⟩

/-- An object changes, but not its name, its kind and its entries. -/
theorem keeps_modify (o : ObjPtr) (f : TmpfsObject → TmpfsObject) (hname : (f (s.objs o)).name = (s.objs o).name)
    (hflags : (f (s.objs o)).flags = (s.objs o).flags)
    (hchilds : (s.objs o).flags = .directory → (f (s.objs o)).childs = (s.objs o).childs) : Keeps s (s.modify o f) := by
  refine ⟨rfl, fun v => ?_, fun v => ?_, fun v hdir => ?_⟩
  · by_cases h : v = o
    · rw [h, modify_self, hname]
    · rw [modify_of_ne h]
  · by_cases h : v = o
    · rw [h, modify_self, hflags]
    · rw [modify_of_ne h]
  · by_cases h : v = o
    · subst h
      rw [modify_self, hchilds hdir]
    · rw [modify_of_ne h]

theorem Keeps.trans {s₁ s₂ : TmpfsState} (h : Keeps s s₁) (h' : Keeps s₁ s₂) : Keeps s s₂ :=
  ⟨h'.next.trans h.next, fun v => (h'.name v).trans (h.name v), fun v => (h'.flags v).trans (h.flags v),
    fun v hdir => (h'.childs v ((h.flags v).trans hdir)).trans (h.childs v hdir)⟩

/-- Only a directory without entries is destroyed. -/
theorem tmpfsDestroyObject_keeps (hrun : tmpfsDestroyObject s o = .ok s') : Keeps s s' := by
  rw [tmpfsDestroyObject, bind_eq_ok] at hrun
  obtain ⟨-, -, hrun⟩ := hrun
  cases hflags : (s.objs o).flags with
  | file =>
    simp only [hflags, pure_eq_ok] at hrun
    subst hrun
    refine keeps_modify o _ rfl rfl fun hdir => ?_
    rw [hflags] at hdir
    cases hdir
  | directory =>
    simp only [hflags, bind_eq_ok, assert_eq_ok, pure_eq_ok] at hrun
    obtain ⟨-, hempty, rfl⟩ := hrun
    exact keeps_modify o _ rfl rfl fun _ => (List.length_eq_zero_iff.1 hempty).symm

theorem dropReference_keeps (hrun : dropReference s o = .ok s') : Keeps s s' := by
  have hdrop : Keeps s (s.modify o fun obj => { obj with refcount := obj.refcount - 1 }) :=
    keeps_modify o _ rfl rfl fun _ => rfl
  unfold dropReference at hrun
  dsimp only at hrun
  split at hrun
  · exact hdrop.trans (tmpfsDestroyObject_keeps hrun)
  · rw [Except.ok.injEq] at hrun
    exact hrun ▸ hdrop

/-- `tmpfs_create` and `tmpfs_mkdir` put a new entry behind the others. -/
theorem tmpfsInsert_effect (hd : d < s.next) {flags : NodeFlags} (hrun : tmpfsInsert flags s d name = .ok s') :
    Effect s s' := by
  simp only [tmpfsInsert, bind_eq_ok, searchChilds_eq, Except.ok.injEq] at hrun
  obtain ⟨-, -, found, rfl, hrun⟩ := hrun
  cases hfind : (s.objs d).childs.find? (fun v => decide ((s.objs v).name = name)) with
  | some v =>
    rw [hfind] at hrun
    rw [pure_eq_ok] at hrun
    exact hrun ▸ keeps_refl.effect
  | none =>
    rw [hfind] at hrun
    simp only [tmpfsCreateObj, pure_eq_ok] at hrun
    have hnext : s'.next = s.next + 1 := by rw [← hrun]; rfl
    have hself : s'.objs d = { s.objs d with childs := (s.objs d).childs ++ [s.next] } := by
      rw [← hrun]
      simp [Nat.ne_of_lt hd]
    have hold : ∀ v, v ≠ s.next → v ≠ d → s'.objs v = s.objs v := fun v hv hne => by
      rw [← hrun]
      simp [hv, hne]
    have hnew : (s'.objs s.next).childs = [] := by
      rw [← hrun]
      simp [(Nat.ne_of_lt hd).symm]
    refine ⟨by rw [hnext]; exact Nat.le_succ _, fun v hv => ?_, fun v hv => ?_, fun v hv _ => ?_, fun v hle hlt => ?_⟩
    · by_cases h : v = d
      · rw [h, hself]
      · rw [hold v (Nat.ne_of_lt hv) h]
    · by_cases h : v = d
      · rw [h, hself]
      · rw [hold v (Nat.ne_of_lt hv) h]
    · by_cases h : v = d
      · rw [h, hself]
        exact Or.inr (Or.inl ⟨rfl, by rw [hnext]; exact Nat.lt_succ_self _⟩)
      · rw [hold v (Nat.ne_of_lt hv) h]
        exact Or.inl rfl
    · rw [hnext] at hlt
      rw [Nat.le_antisymm (Nat.le_of_lt_succ hlt) hle]
      exact hnew

/-- `tmpfs_unlink` takes out an entry. -/
theorem tmpfsUnlink_effect {r : Int} (hrun : tmpfsUnlink s d (some name) = .ok (r, s')) : Effect s s' := by
  simp only [tmpfsUnlink, bind_eq_ok, searchChilds_prefix, Except.ok.injEq, assert_eq_ok] at hrun
  obtain ⟨-, hdir, found, rfl, hrun⟩ := hrun
  cases hfind : (s.objs d).childs.find? (fun v => name.bytes.isPrefixOf (s.objs v).name.bytes) with
  | none =>
    rw [hfind] at hrun
    simp only [pure_eq_ok, Prod.mk.injEq] at hrun
    exact hrun.2 ▸ keeps_refl.effect
  | some w =>
    rw [hfind] at hrun
    simp only [bind_eq_ok, pure_eq_ok, Prod.mk.injEq] at hrun
    obtain ⟨s₂, hdrop, -, rfl⟩ := hrun
    have hkeeps := dropReference_keeps hdrop
    refine ⟨Nat.le_of_eq hkeeps.next.symm, fun v _ => ?_, fun v _ => ?_, fun v _ hv => ?_, fun v hle hlt => ?_⟩
    · by_cases h : v = d
      · rw [h, modify_self, hkeeps.name]
      · rw [modify_of_ne h, hkeeps.name]
    · by_cases h : v = d
      · rw [h, modify_self, hkeeps.flags]
      · rw [modify_of_ne h, hkeeps.flags]
    · by_cases h : v = d
      · subst h
        rw [modify_self, hkeeps.childs v hdir]
        exact Or.inr (Or.inr ⟨w, List.mem_of_find?_eq_some hfind, rfl⟩)
      · rw [modify_of_ne h, hkeeps.childs v hv]
        exact Or.inl rfl
    · rw [modify_next, hkeeps.next] at hlt
      exact absurd hlt (Nat.not_lt.2 hle)

/-- `tmpfs_finddir` counts a reference. -/
theorem tmpfsFinddir_effect {node : Option TmpfsNode} (hrun : tmpfsFinddir s d name = .ok (node, s')) :
    Effect s s' := by
  simp only [tmpfsFinddir, bind_eq_ok, searchChilds_prefix, Except.ok.injEq] at hrun
  obtain ⟨-, -, found, rfl, hrun⟩ := hrun
  cases hfind : (s.objs d).childs.find? (fun v => name.bytes.isPrefixOf (s.objs v).name.bytes) with
  | none =>
    rw [hfind] at hrun
    simp only [pure_eq_ok, Prod.mk.injEq] at hrun
    exact hrun.2 ▸ keeps_refl.effect
  | some w =>
    rw [hfind] at hrun
    simp only [fsNodeFromTmpfs, pure_eq_ok, Prod.mk.injEq] at hrun
    rw [← hrun.2]
    exact (keeps_modify w _ rfl rfl fun _ => rfl).effect

/-- **A call** on an object changes the entries of a directory by one at most. -/
theorem dirStep_effect {op : DirOp} {r : DirResult} (hd : d < s.next) (hrun : dirStep d s op = .ok (r, s')) :
    Effect s s' := by
  cases op with
  | create name =>
    simp only [dirStep, tmpfsCreate, bind_eq_ok, pure_eq_ok, Prod.mk.injEq] at hrun
    obtain ⟨s₁, hrun, -, rfl⟩ := hrun
    exact tmpfsInsert_effect hd hrun
  | mkdir name =>
    simp only [dirStep, tmpfsMkdir, bind_eq_ok, pure_eq_ok, Prod.mk.injEq] at hrun
    obtain ⟨s₁, hrun, -, rfl⟩ := hrun
    exact tmpfsInsert_effect hd hrun
  | unlink name =>
    simp only [dirStep, bind_eq_ok, pure_eq_ok, Prod.mk.injEq] at hrun
    obtain ⟨⟨code, s₁⟩, hrun, -, rfl⟩ := hrun
    exact tmpfsUnlink_effect hrun
  | finddir name =>
    simp only [dirStep, bind_eq_ok, pure_eq_ok, Prod.mk.injEq] at hrun
    obtain ⟨⟨node, s₁⟩, hrun, -, rfl⟩ := hrun
    exact tmpfsFinddir_effect hrun

end Effect

/-! ## A listing -/

/-- The entries of every directory are different objects. -/
def DirsSound (s : TmpfsState) : Prop :=
  ∀ d < s.next, (s.objs d).flags = .directory → (s.objs d).childs.Nodup ∧ ∀ v ∈ (s.objs d).childs, v < s.next

/-- **The invariant of a listing** that has got the files `seen`. -/
structure ListSound (x : Listing) (seen : List ObjPtr) : Prop where
  dirs : DirsSound x.tmpfs
  dir_lt : x.dir < x.tmpfs.next
  isDir : (x.tmpfs.objs x.dir).flags = .directory
  seen_lt : ∀ v ∈ seen, v < x.tmpfs.next
  cursor : Cursor (x.tmpfs.objs x.dir).childs (x.index.toNat - 2) seen x.passed
  index_le : x.index.toNat ≤ 0x80000002
  count : seen.length = x.index.toNat - 2
  names : x.dirents.map Dirent.name = (listedNames x.tmpfs seen).take x.index.toNat

section Listing

variable {s s' : TmpfsState} {x x' : Listing} {seen : List ObjPtr} {dir : ObjPtr} {i : Word}

theorem DirsSound.effect (h : DirsSound s) (he : Effect s s') : DirsSound s' := by
  intro d hd hdir
  by_cases hold : d < s.next
  · rw [he.flags d hold] at hdir
    obtain ⟨hnodup, hlt⟩ := h d hold hdir
    rcases he.childs d hold hdir with heq | ⟨heq, hnext⟩ | ⟨w, -, heq⟩
    · rw [heq]
      exact ⟨hnodup, fun v hv => Nat.lt_of_lt_of_le (hlt v hv) he.next⟩
    · rw [heq]
      refine ⟨List.nodup_append.2 ⟨hnodup, List.nodup_singleton _, fun v hv w hw hvw => ?_⟩, fun v hv => ?_⟩
      · rw [List.mem_singleton.1 hw] at hvw
        exact Nat.ne_of_lt (hlt v hv) hvw
      · rcases List.mem_append.1 hv with hv | hv
        · exact Nat.lt_of_lt_of_le (hlt v hv) he.next
        · rw [List.mem_singleton.1 hv]
          exact hnext
    · rw [heq]
      exact ⟨hnodup.erase w, fun v hv => Nat.lt_of_lt_of_le (hlt v (List.mem_of_mem_erase hv)) he.next⟩
  · rw [he.fresh d (Nat.le_of_not_lt hold) hd]
    exact ⟨List.nodup_nil, fun v hv => absurd hv List.not_mem_nil⟩

theorem listedNames_congr (h : ∀ v ∈ seen, (s'.objs v).name = (s.objs v).name) :
    listedNames s' seen = listedNames s seen := by
  rw [listedNames, listedNames, List.map_congr_left fun v hv => by rw [h v hv]]

/-- A call moves entries under the listing. -/
theorem call_sound (h : ListSound x seen) {d : ObjPtr} {op : DirOp} (hrun : listStep x (.call d op) = .ok x') :
    ListSound x' seen := by
  simp only [listStep, bind_eq_ok, assert_eq_ok, pure_eq_ok] at hrun
  obtain ⟨-, hd, ⟨r, s⟩, hcall, rfl⟩ := hrun
  have he := dirStep_effect hd hcall
  have hnames := listedNames_congr fun v hv => he.name v (h.seen_lt v hv)
  refine ⟨h.dirs.effect he, Nat.lt_of_lt_of_le h.dir_lt he.next, (he.flags _ h.dir_lt).trans h.isDir,
    fun v hv => Nat.lt_of_lt_of_le (h.seen_lt v hv) he.next, ?_, h.index_le, h.count, hnames ▸ h.names⟩
  have hcursor := h.cursor
  obtain ⟨-, hlt⟩ := h.dirs _ h.dir_lt h.isDir
  rcases he.childs _ h.dir_lt h.isDir with heq | ⟨heq, -⟩ | ⟨w, hw, heq⟩
  · have hall : (x.behind.all fun v => decide (v ∈ (s.objs x.dir).childs)) = true := by
      rw [List.all_eq_true]
      exact fun v hv => decide_eq_true (heq ▸ List.mem_of_mem_take hv)
    simp only [hall, if_true]
    rw [heq]
    exact hcursor
  · have hall : (x.behind.all fun v => decide (v ∈ (s.objs x.dir).childs)) = true := by
      rw [List.all_eq_true]
      exact fun v hv => decide_eq_true (heq ▸ List.mem_append_left _ (List.mem_of_mem_take hv))
    simp only [hall, if_true]
    rw [heq]
    exact hcursor.push (fun hmem => Nat.lt_irrefl _ (hlt _ hmem)) fun hmem => Nat.lt_irrefl _ (h.seen_lt _ hmem)
  · by_cases hpassed : w ∈ x.behind
    · have hall : (x.behind.all fun v => decide (v ∈ (s.objs x.dir).childs)) = false := by
        rw [List.all_eq_false]
        exact ⟨w, hpassed, by rw [heq]; simp [hcursor.nodup.mem_erase_iff]⟩
      simp only [hall, Bool.false_eq_true, if_false]
      rw [heq]
      exact hcursor.erase_passed hpassed
    · have hall : (x.behind.all fun v => decide (v ∈ (s.objs x.dir).childs)) = true := by
        rw [List.all_eq_true]
        refine fun v hv => decide_eq_true ?_
        rw [heq, hcursor.nodup.mem_erase_iff]
        exact ⟨fun hvw => hpassed (hvw ▸ hv), List.mem_of_mem_take hv⟩
      simp only [hall, if_true]
      rw [heq]
      exact hcursor.erase_ahead hw hpassed

theorem start_sound (h : ListSound x seen) {d : ObjPtr} (hrun : listStep x (.start d) = .ok x') : ListSound x' [] := by
  simp only [listStep, bind_eq_ok, assert_eq_ok, pure_eq_ok] at hrun
  obtain ⟨-, hd, -, hdir, rfl⟩ := hrun
  exact ⟨h.dirs, hd, hdir, fun v hv => absurd hv List.not_mem_nil, cursor_start (h.dirs d hd hdir).1,
    Nat.zero_le _, rfl, rfl⟩

/-- The loop counts down to the entry. -/
theorem readdirChilds_eq (vs : List ObjPtr) (j : Int) : readdirChilds s i j vs =
    if 0 ≤ j then vs[j.toNat]?.map fun v => ⟨i, direntName (s.objs v).name 256⟩ else none := by
  induction vs generalizing j with
  | nil => simp [readdirChilds]
  | cons v vs ih =>
    rw [readdirChilds]
    by_cases hzero : j = 0
    · subst hzero
      rfl
    · rw [if_neg hzero, ih]
      by_cases hpos : 0 ≤ j
      · rw [if_pos hpos, if_pos (by omega), show j.toNat = (j - 1).toNat + 1 by omega, List.getElem?_cons_succ]
      · rw [if_neg hpos, if_neg (by omega)]

/-- `tmpfs_readdir` behind the two entries that every directory has. -/
theorem tmpfsReaddir_eq (hdir : (s.objs dir).flags = .directory) (hi : 2 ≤ i.toNat) : tmpfsReaddir s dir i =
    .ok (if i.toNat < 0x80000002 then
      (s.objs dir).childs[i.toNat - 2]?.map fun v => ⟨i, direntName (s.objs v).name 256⟩ else none) := by
  have hne₀ : i ≠ 0#32 := fun h => by rw [h] at hi; exact absurd hi (by decide)
  have hne₁ : i ≠ 1#32 := fun h => by rw [h] at hi; exact absurd hi (by decide)
  rw [tmpfsReaddir, if_neg hne₀, if_neg hne₁, assert_bind hdir, readdirChilds_eq]
  have hsub : (i - 2#32).toNat = i.toNat - 2 := by bv_omega
  by_cases hlt : i.toNat < 0x80000002
  · have hint : (i - 2#32).toInt = ((i.toNat - 2 : Nat) : Int) := by
      rw [BitVec.toInt_eq_toNat_of_lt (by omega), hsub]
    rw [if_pos hlt, hint, if_pos (Int.natCast_nonneg _), Int.toNat_natCast]
    rfl
  · have hint : ¬ 0 ≤ (i - 2#32).toInt := by
      rw [BitVec.toInt_eq_toNat_cond, hsub, if_neg (by omega)]
      have := i.isLt
      omega
    rw [if_neg hlt, if_neg hint]
    rfl

theorem listedNames_append (v : ObjPtr) :
    listedNames s (seen ++ [v]) = listedNames s seen ++ [direntName (s.objs v).name 256] := by
  rw [listedNames, List.map_append]
  rfl

theorem listedNames_length : (listedNames s seen).length = seen.length + 2 := by
  rw [listedNames, List.length_cons, List.length_cons, List.length_map]

/-- One of the two entries that every directory has. -/
theorem ListSound.dots (h : ListSound x []) (hi : x.index.toNat < 2) (v : Dirent)
    (hv : (listedNames x.tmpfs [])[x.index.toNat]? = some v.name) :
    ListSound { x with index := x.index + 1#32, dirents := x.dirents ++ [v] } [] := by
  have hsucc : (x.index + 1#32).toNat = x.index.toNat + 1 := by bv_omega
  have hcursor := h.cursor
  refine ⟨h.dirs, h.dir_lt, h.isDir, h.seen_lt, ?_, ?_, ?_, ?_⟩
  · rw [hsucc, show x.index.toNat + 1 - 2 = x.index.toNat - 2 by omega]
    exact hcursor
  · rw [hsucc]
    omega
  · rw [hsucc, List.length_nil]
    omega
  · rw [hsucc, List.map_append, h.names, List.take_add_one, hv]
    rfl

/-- The listing gets an entry more, or finds the end. -/
theorem next_sound (h : ListSound x seen) (hrun : listStep x .next = .ok x') : ∃ seen', ListSound x' seen' := by
  simp only [listStep, bind_eq_ok] at hrun
  obtain ⟨found, hread, hrun⟩ := hrun
  cases found with
  | none =>
    rw [pure_eq_ok] at hrun
    exact ⟨seen, hrun ▸ h⟩
  | some v =>
    simp only [bind_eq_ok, assert_eq_ok, pure_eq_ok] at hrun
    obtain ⟨-, -, rfl⟩ := hrun
    have hle := h.index_le
    have hcount := h.count
    have hsucc : (x.index + 1#32).toNat = x.index.toNat + 1 := by bv_omega
    by_cases hi : 2 ≤ x.index.toNat
    · rw [tmpfsReaddir_eq h.isDir hi, Except.ok.injEq] at hread
      split at hread
      · obtain ⟨w, hw, rfl⟩ := Option.map_eq_some_iff.1 hread
        have hmem := List.mem_of_getElem? hw
        refine ⟨seen ++ [w], h.dirs, h.dir_lt, h.isDir, fun v hv => ?_, ?_, ?_, ?_, ?_⟩
        · rcases List.mem_append.1 hv with hv | hv
          · exact h.seen_lt v hv
          · rw [List.mem_singleton.1 hv]
            exact (h.dirs _ h.dir_lt h.isDir).2 w hmem
        · rw [hsucc, show x.index.toNat + 1 - 2 = x.index.toNat - 2 + 1 by omega]
          exact h.cursor.next hw
        · rw [hsucc]
          omega
        · rw [List.length_append, List.length_singleton, hsucc]
          omega
        · rw [List.map_append, h.names, listedNames_append, hsucc,
            List.take_of_length_le (by rw [listedNames_length]; omega),
            List.take_of_length_le (by rw [List.length_append, listedNames_length, List.length_singleton]; omega)]
          rfl
      · cases hread
    · obtain rfl : seen = [] := List.length_eq_zero_iff.1 (by omega)
      rcases (by bv_omega : x.index = 0#32 ∨ x.index = 1#32) with hindex | hindex
      · rw [hindex, tmpfsReaddir, if_pos rfl, pure_eq_ok] at hread
        exact ⟨[], h.dots (by omega) v (by rw [hindex, ← Option.some.inj hread]; rfl)⟩
      · rw [hindex, tmpfsReaddir, if_neg (by decide), if_pos rfl, pure_eq_ok] at hread
        exact ⟨[], h.dots (by omega) v (by rw [hindex, ← Option.some.inj hread]; rfl)⟩

theorem listRun_sound (es : List ListEvent) (h : ListSound x seen) (hrun : runSteps listStep x es = .ok x') :
    ∃ seen', ListSound x' seen' := by
  refine runSteps_holds (I := fun _ x => ∃ seen, ListSound x seen) (fun _ x e x' hx hstep => ?_) es [] ⟨seen, h⟩ hrun
  obtain ⟨seen, h⟩ := hx
  cases e with
  | call d op => exact ⟨seen, call_sound h hstep⟩
  | start d => exact ⟨[], start_sound h hstep⟩
  | next => exact next_sound h hstep

theorem listBoot_sound : ListSound listBoot [] := by
  have hnil : (listBoot.tmpfs.objs 0).childs = [] := rfl
  refine ⟨fun d hd _ => ?_, Nat.zero_lt_one, rfl, fun v hv => absurd hv List.not_mem_nil, cursor_start ?_,
    Nat.zero_le _, rfl, rfl⟩
  · rw [Nat.lt_one_iff.1 hd, hnil]
    exact ⟨List.nodup_nil, fun v hv => absurd hv List.not_mem_nil⟩
  · exact hnil ▸ List.nodup_nil

/-- The end of the directory. -/
theorem ListSound.at_end (h : ListSound x seen) (hend : tmpfsReaddir x.tmpfs x.dir x.index = .ok none)
    (hlen : (x.tmpfs.objs x.dir).childs.length ≤ 0x80000000) :
    (x.tmpfs.objs x.dir).childs[x.index.toNat - 2]? = none := by
  have hle := h.index_le
  by_cases hi : 2 ≤ x.index.toNat
  · rw [tmpfsReaddir_eq h.isDir hi, Except.ok.injEq] at hend
    split at hend
    · exact Option.map_eq_none_iff.1 hend
    · exact List.getElem?_eq_none_iff.2 (by omega)
  · rcases (by bv_omega : x.index = 0#32 ∨ x.index = 1#32) with hindex | hindex
    · rw [hindex, tmpfsReaddir, if_pos rfl, pure_eq_ok] at hend
      cases hend
    · rw [hindex, tmpfsReaddir, if_neg (by decide), if_pos rfl, pure_eq_ok] at hend
      cases hend

/-- **Listing a directory**, in every interleaving with calls on any directories: a listing gets the names of different
files of the filesystem behind `"."` and `".."`. When it finds the end, the files of the directory that it has missed are
at most as many as were removed after it had passed them; if there are none, it has got exactly the files of the
directory. -/
theorem readdir_lists (es : List ListEvent) (hrun : runSteps listStep listBoot es = .ok x) :
    ∃ seen : List ObjPtr, seen.Nodup ∧ (∀ v ∈ seen, v < x.tmpfs.next) ∧ seen.length = x.index.toNat - 2 ∧
      x.dirents.map Dirent.name = (listedNames x.tmpfs seen).take x.index.toNat ∧
      (tmpfsReaddir x.tmpfs x.dir x.index = .ok none → (x.tmpfs.objs x.dir).childs.length ≤ 0x80000000 →
        (missing seen (x.tmpfs.objs x.dir).childs).length ≤ x.passed ∧
          (x.passed = 0 → seen = (x.tmpfs.objs x.dir).childs)) := by
  obtain ⟨seen, h⟩ := listRun_sound es listBoot_sound hrun
  refine ⟨seen, h.cursor.once, h.seen_lt, h.count, h.names, fun hend hlen => ?_⟩
  have hnone := h.at_end hend hlen
  refine ⟨h.cursor.missed hnone, fun hzero => ?_⟩
  have hcursor := h.cursor
  rw [hzero] at hcursor
  exact hcursor.complete hnone

end Listing

/-- The first of two files is unlinked after the listing has passed it: the listing ends without the second one. -/
theorem readdir_lists_unlink : ∃ (x : Listing) (seen : List ObjPtr),
    runSteps listStep listBoot [.call 0 (.create nameA), .call 0 (.create nameAB), .next, .next, .next,
      .call 0 (.unlink nameA)] = .ok x ∧ x.passed = 1 ∧
    (∀ v ∈ seen, v < x.tmpfs.next) ∧ x.dirents.map Dirent.name = (listedNames x.tmpfs seen).take 3 ∧
    (missing seen (x.tmpfs.objs x.dir).childs).length ≤ 1 := by
  have hrun : runSteps listStep listBoot [.call 0 (.create nameA), .call 0 (.create nameAB),
      .next, .next, .next, .call 0 (.unlink nameA)] = .ok _ := rfl
  obtain ⟨seen, -, hfiles, -, hnames, hend⟩ := readdir_lists _ hrun
  exact ⟨_, seen, hrun, rfl, hfiles, hnames, (hend rfl (by decide)).1⟩

end Myunix.Tmpfs
