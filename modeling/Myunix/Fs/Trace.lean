import Myunix.Fs.PushPath
import Myunix.Lib.Traced

/-!
# The calls of `findfile_recursive`

A symbolic link replaces the work that is left by a new path, which may be longer and may have further links. What bounds
the search is its `level`. Here `findfile_recursive` has the level as the source does, with fuel for the depth of the
calls, and logs its calls and the links it meets (`SearchEvent`).

* `findfileLevel_erases`: without the events, and with fuel for eleven calls, it is `findfileRecursive`.
* `findfile_recursive_levels`: it never runs out of that fuel, no call is deeper than level 10, and a search that got
  there returns `NULL`.
-/

namespace Myunix.Fs

open Lib

variable {σ : Type}

/-- Why the search does not return. -/
inductive Halt
  /-- More nested calls than there is fuel for. -/
  | fuel
  /-- The kernel stops. -/
  | failure (f : Failure)
deriving DecidableEq, Repr

/-- What the search logs. -/
inductive SearchEvent
  /-- A call of `findfile_recursive`. -/
  | call (level : Nat)
  /-- A link to `target` behind the elements `leading`, in the file system that is mounted at `mounted`, and the path at
  which the search goes on. -/
  | link (mounted leading : List CString) (target : CString) (next : Kernel (List CString))

/-- The search with its events. -/
abbrev Search (α : Type) := Traced SearchEvent Halt α

/-- A step of the kernel in the search. -/
def kernel {α : Type} (x : Kernel α) : Search α := Traced.lift .failure x

/-- The elements that the walk through the mount graph has removed from `l`, when it leaves `rest`. -/
def mountedPart (l rest : List CString) : List CString := l.take (l.length - rest.length)

/-- The target of the link at `node`. -/
def linkTarget (D : Drivers σ) (s : FsState σ) (node : NodePtr) : Kernel (CString × FsState σ) := do
  let (len, buf, s) ← fsReadlink D s node
  kassert (0 ≤ len)
  match buf[len.toNat]? with
  | none => throw .bounds
  | some c =>
    kassert (c = 0)
    return (cstringAt buf, s)

/-- The path at which the search goes on behind a link. -/
def linkNext (leading : List CString) (target : CString) : Kernel (List CString) := do
  let l ← copyElements leading
  canonicalizePathPushPath target l

/-- The loop of `findfile_recursive`, with its events. -/
def findfileLoopTraced (D : Drivers σ)
    (recurse : List CString → List CString → NodePtr → FsState σ → Search (Option NodePtr × FsState σ))
    (mounted leading : List CString) :
    List CString → NodePtr → FsState σ → Search (Option NodePtr × FsState σ)
  | [], node, s => pure (some node, s)
  | element :: rest, node, s => do
    let (nextNode, s) ← kernel (fsFinddir D s node element)
    let (_, s) ← kernel (fsNodeRelease D s node)
    match nextNode with
    | none => return (none, s)
    | some node =>
      if (s.nodes node).info.symlink then
        let (target, s) ← kernel (linkTarget D s node)
        Traced.log (.link mounted leading target (linkNext leading target))
        let l ← kernel (linkNext leading target)
        match s.rootMount with
        | none => kernel (throw .assertion)
        | some root =>
          let (mount, left) ← kernel (walkMountGraph s l root)
          let (nextNode, s) ← recurse (mountedPart l left) left (s.mounts mount).node s
          let (_, s) ← kernel (fsNodeRelease D s node)
          match nextNode with
          | none => return (none, s)
          | some node => findfileLoopTraced D recurse mounted (leading ++ [element]) rest node s
      else findfileLoopTraced D recurse mounted (leading ++ [element]) rest node s

/-- `findfile_recursive` at `level`. -/
def findfileLevel (D : Drivers σ) : Nat → Nat → List CString → List CString → NodePtr → FsState σ →
    Search (Option NodePtr × FsState σ)
  | 0, _, _, _, _, _ => Traced.stop .fuel
  | fuel + 1, level, mounted, elements, rootNode, s => do
    Traced.log (.call level)
    if 10 ≤ level then return (none, s)
    else
      let s ← kernel (fsNodeReference s rootNode)
      findfileLoopTraced D (findfileLevel D fuel (level + 1)) mounted [] elements rootNode s

/-- `findfile`, with its events. -/
def findfileTraced (D : Drivers σ) (s : FsState σ) (root relativePath : CString) :
    Search (Option NodePtr × FsState σ) := do
  let l ← kernel (canonicalizePathList root relativePath)
  match s.rootMount with
  | none => kernel (throw .assertion)
  | some rootMount =>
    let (mount, left) ← kernel (walkMountGraph s l rootMount)
    findfileLevel D 11 0 (mountedPart l left) left (s.mounts mount).node s

/-! ## Without the events -/

section Erase

variable {α β : Type}

theorem kernel_result (x : Kernel α) : (kernel x).result = x.mapError .failure := rfl

theorem linkElements_eq (D : Drivers σ) (s : FsState σ) (node : NodePtr) (leading : List CString) :
    linkElements D s node leading = (do
      let (target, s) ← linkTarget D s node
      let l ← linkNext leading target
      return (l, s)) := by
  unfold linkElements linkTarget linkNext
  simp only [bind_assoc]
  refine bind_congr fun r => bind_congr fun _ => ?_
  cases r.2.1[r.1.toNat]? with
  | none => rfl
  | some c => simp only [bind_assoc, pure_bind]

theorem findfileLoopTraced_erases (D : Drivers σ)
    {recurse : List CString → List CString → NodePtr → FsState σ → Search (Option NodePtr × FsState σ)}
    {recurse' : List CString → NodePtr → FsState σ → Kernel (Option NodePtr × FsState σ)}
    (hrec : ∀ m l p s, (recurse m l p s).result = (recurse' l p s).mapError .failure) (mounted elements : List CString) :
    ∀ (leading : List CString) (node : NodePtr) (s : FsState σ),
      (findfileLoopTraced D recurse mounted leading elements node s).result =
        (findfileLoop D recurse' leading elements node s).mapError .failure := by
  induction elements with
  | nil => exact fun _ _ _ => rfl
  | cons element rest ih =>
    intro leading node s
    simp only [findfileLoopTraced, findfileLoop, Traced.result_bind, Traced.mapError_bind, kernel_result]
    refine bind_congr fun found => bind_congr fun released => ?_
    cases found.1 with
    | none => rfl
    | some next =>
      dsimp only
      split
      · rw [linkElements_eq]
        simp only [Traced.result_bind, Traced.mapError_bind, Traced.log_bind, kernel_result, bind_assoc]
        refine bind_congr fun link => bind_congr fun l => ?_
        show _ = Except.ok (l, link.2) >>= _
        rw [ok_bind]
        cases link.2.rootMount with
        | none => rfl
        | some root =>
          simp only [Traced.result_bind, Traced.mapError_bind, kernel_result, hrec]
          refine bind_congr fun walked => bind_congr fun target => bind_congr fun released => ?_
          cases target.1 with
          | none => rfl
          | some node => exact ih _ _ _
      · exact ih _ _ _

/-- **Without the events** the search is `findfile_recursive`, when there is fuel for the levels that are left. -/
theorem findfileLevel_erases (D : Drivers σ) (fuel : Nat) : ∀ {level : Nat}, level ≤ 10 → 11 ≤ fuel + level →
    ∀ (mounted elements : List CString) (rootNode : NodePtr) (s : FsState σ),
      (findfileLevel D fuel level mounted elements rootNode s).result =
        (findfileRecursive D (10 - level) elements rootNode s).mapError .failure := by
  induction fuel with
  | zero => exact fun hlevel hfuel => absurd hfuel (by omega)
  | succ fuel ih =>
    intro level hlevel hfuel mounted elements rootNode s
    rw [findfileLevel, Traced.log_bind]
    dsimp only
    split
    · next hend =>
      rw [show 10 - level = 0 by omega]
      rfl
    · next hend =>
      rw [show 10 - level = 10 - (level + 1) + 1 by omega, findfileRecursive, Traced.result_bind, Traced.mapError_bind]
      exact bind_congr fun s => findfileLoopTraced_erases D (ih (by omega) (by omega)) mounted elements [] rootNode s

theorem findfileTraced_erases (D : Drivers σ) (s : FsState σ) (root relativePath : CString) :
    (findfileTraced D s root relativePath).result = (findfile D s root relativePath).mapError .failure := by
  simp only [findfileTraced, findfile, Traced.result_bind, Traced.mapError_bind, kernel_result]
  apply bind_congr
  intro l
  cases s.rootMount with
  | none => rfl
  | some root =>
    simp only [Traced.result_bind, Traced.mapError_bind, kernel_result]
    exact bind_congr fun walked => findfileLevel_erases D 11 (by omega) (by omega) _ _ _ s

end Erase

/-! ## Levels -/

/-- The events of a search keep to the levels: there was fuel, no call is deeper than level 10, and if a call is at
level 10 then the search returns `NULL`, unless the driver stops the kernel when a node is closed. -/
structure KeepsLevels (D : Drivers σ) (x : Search (Option NodePtr × FsState σ)) : Prop where
  fuel : x.result ≠ .error .fuel
  levels : ∀ level, .call level ∈ x.events → level ≤ 10
  null : .call 10 ∈ x.events → (∃ s, x.result = .ok (none, s)) ∨
    ∃ f driver info, x.result = .error (.failure f) ∧ D.closes driver info = .error f

section Levels

variable {D : Drivers σ}

/-- Releasing a node stops only in the driver. -/
theorem fsNodeRelease_error {s : FsState σ} {p : NodePtr} {f : Failure} (h : fsNodeRelease D s p = .error f) :
    ∃ driver info, D.closes driver info = .error f := by
  unfold fsNodeRelease at h
  split at h
  · dsimp only at h
    split at h
    · next hzero =>
      unfold fsNodeFree at h
      rw [assert_bind hzero] at h
      split at h
      · cases hc : D.closes (s.setRefcount p ((s.nodes p).refcount - 1)).driver
            ((s.setRefcount p ((s.nodes p).refcount - 1)).nodes p).info with
        | ok d =>
          rw [hc] at h
          cases h
        | error e =>
          rw [hc] at h
          cases h
          exact ⟨_, _, hc⟩
      · cases h
    · cases h
  · cases h

theorem keepsLevels_stop (f : Failure) : KeepsLevels D (Traced.stop (.failure f)) := by
  refine ⟨?_, ?_, ?_⟩
  · intro h
    cases h
  · intro level h
    cases h
  · intro h
    cases h

theorem keepsLevels_pure (r : Option NodePtr × FsState σ) : KeepsLevels D (pure r) := by
  refine ⟨?_, ?_, ?_⟩
  · intro h
    cases h
  · intro level h
    cases h
  · intro h
    cases h

/-- A step of the kernel in front. -/
theorem KeepsLevels.kernel_bind {α : Type} {x : Kernel α} {f : α → Search (Option NodePtr × FsState σ)}
    (h : ∀ a, x = .ok a → KeepsLevels D (f a)) : KeepsLevels D (kernel x >>= f) :=
  Traced.lift_bind_of (fun e _ => keepsLevels_stop e) h

/-- A nested search: with `NULL` the search is over, else it has not been at level 10. -/
theorem KeepsLevels.recurse_bind {x : Search (Option NodePtr × FsState σ)}
    {f : Option NodePtr × FsState σ → Search (Option NodePtr × FsState σ)} (hx : KeepsLevels D x)
    (hnone : ∀ s, (f (none, s)).events = [] ∧ ((∃ s', (f (none, s)).result = .ok (none, s')) ∨
      ∃ e driver info, (f (none, s)).result = .error (.failure e) ∧ D.closes driver info = .error e))
    (hsome : ∀ p s, KeepsLevels D (f (some p, s))) : KeepsLevels D (x >>= f) := by
  cases hr : x.result with
  | error e =>
    rw [Traced.bind_of_error hr]
    refine ⟨fun h => hx.fuel (hr.trans h), hx.levels, fun h => ?_⟩
    have hnull := hx.null h
    rwa [hr] at hnull
  | ok r =>
    obtain ⟨p, s⟩ := r
    rw [Traced.bind_of_ok hr]
    cases p with
    | none =>
      obtain ⟨hevents, hnull⟩ := hnone s
      rw [hevents, List.append_nil]
      refine ⟨fun h => ?_, hx.levels, fun _ => hnull⟩
      rcases hnull with ⟨s', hs'⟩ | ⟨e, -, -, he, -⟩
      · rw [hs'] at h
        cases h
      · rw [he] at h
        cases h
    | some p =>
      have hrest := hsome p s
      have hno : SearchEvent.call 10 ∉ x.events := by
        intro h
        rcases hx.null h with ⟨s', hs'⟩ | ⟨e, -, -, he, -⟩
        · rw [hr] at hs'
          cases hs'
        · rw [hr] at he
          cases he
      refine ⟨hrest.fuel, fun level h => ?_, fun h => ?_⟩
      · rcases List.mem_append.1 h with h | h
        · exact hx.levels level h
        · exact hrest.levels level h
      · exact hrest.null ((List.mem_append.1 h).resolve_left hno)

/-- An event that is no call. -/
theorem KeepsLevels.cons_link {x : Search (Option NodePtr × FsState σ)} (hx : KeepsLevels D x) {m l : List CString}
    {t : CString} {n : Kernel (List CString)} : KeepsLevels D ⟨.link m l t n :: x.events, x.result⟩ := by
  refine ⟨hx.fuel, fun level h => hx.levels level ?_, fun h => hx.null ?_⟩
  · simpa using h
  · simpa using h

theorem findfileLoopTraced_levels
    {recurse : List CString → List CString → NodePtr → FsState σ → Search (Option NodePtr × FsState σ)}
    (hrec : ∀ m l p s, KeepsLevels D (recurse m l p s)) (mounted elements : List CString) :
    ∀ (leading : List CString) (node : NodePtr) (s : FsState σ),
      KeepsLevels D (findfileLoopTraced D recurse mounted leading elements node s) := by
  induction elements with
  | nil => exact fun _ _ _ => keepsLevels_pure _
  | cons element rest ih =>
    intro leading node s
    rw [findfileLoopTraced]
    refine KeepsLevels.kernel_bind fun found _ => KeepsLevels.kernel_bind fun released _ => ?_
    cases found.1 with
    | none => exact keepsLevels_pure _
    | some next =>
      dsimp only
      split
      · apply KeepsLevels.kernel_bind
        intro link _
        rw [Traced.log_bind]
        refine KeepsLevels.cons_link (KeepsLevels.kernel_bind fun l _ => ?_)
        cases link.2.rootMount with
        | none => exact keepsLevels_stop _
        | some root =>
          apply KeepsLevels.kernel_bind
          intro walked _
          refine KeepsLevels.recurse_bind (hrec _ _ _ _) (fun s => ?_) (fun p s => ?_)
          · -- the link is released, and `NULL` is passed on
            dsimp only
            cases hrel : fsNodeRelease D s next with
            | error e =>
              obtain ⟨driver, info, hcloses⟩ := fsNodeRelease_error hrel
              exact ⟨rfl, Or.inr ⟨e, driver, info, rfl, hcloses⟩⟩
            | ok r => exact ⟨rfl, Or.inl ⟨r.2, rfl⟩⟩
          · exact KeepsLevels.kernel_bind fun released _ => ih _ _ _
      · exact ih _ _ _

/-- **Levels of the search**, by induction on the fuel: a nested call has one level more and one unit of fuel less. -/
theorem findfileLevel_keepsLevels (fuel : Nat) : ∀ {level : Nat}, level ≤ 10 → 11 ≤ fuel + level →
    ∀ (mounted elements : List CString) (rootNode : NodePtr) (s : FsState σ),
      KeepsLevels D (findfileLevel D fuel level mounted elements rootNode s) := by
  induction fuel with
  | zero => exact fun hlevel hfuel => absurd hfuel (by omega)
  | succ fuel ih =>
    intro level hlevel hfuel mounted elements rootNode s
    rw [findfileLevel, Traced.log_bind]
    split
    · refine ⟨?_, fun l hl => ?_, fun _ => Or.inl ⟨s, rfl⟩⟩
      · intro h
        cases h
      · rw [List.mem_cons] at hl
        rcases hl with hl | hl
        · cases hl
          exact hlevel
        · cases hl
    · next hend =>
      have hrest : KeepsLevels D (kernel (fsNodeReference s rootNode) >>= fun s =>
          findfileLoopTraced D (findfileLevel D fuel (level + 1)) mounted [] elements rootNode s) :=
        KeepsLevels.kernel_bind fun s _ =>
          findfileLoopTraced_levels (ih (by omega) (by omega)) mounted elements [] rootNode s
      refine ⟨hrest.fuel, fun l hl => ?_, fun h => hrest.null ?_⟩
      · rcases List.mem_cons.1 hl with hl | hl
        · cases hl
          exact hlevel
        · exact hrest.levels l hl
      · apply (List.mem_cons.1 h).resolve_left
        intro heq
        cases heq
        exact hend (Nat.le_refl 10)

end Levels

/-- **The search ends.** For every mount graph, every file tree and every path, with fuel for eleven nested calls or
more, `findfile_recursive` at level 0 does not run out of it and does what `findfileRecursive` does; no nested call is
deeper than level 10; and when a link leads to a call at level 10, the whole search returns `NULL`, unless the kernel
stops in the `close` callback of a driver. -/
theorem findfile_recursive_levels (D : Drivers σ) (fuel : Nat) (mounted elements : List CString) (rootNode : NodePtr)
    (s : FsState σ) : KeepsLevels D (findfileLevel D (fuel + 11) 0 mounted elements rootNode s) ∧
      (findfileLevel D (fuel + 11) 0 mounted elements rootNode s).result =
        (findfileRecursive D 10 elements rootNode s).mapError .failure :=
  ⟨findfileLevel_keepsLevels (fuel + 11) (by omega) (by omega) mounted elements rootNode s,
    findfileLevel_erases D (fuel + 11) (by omega) (by omega) mounted elements rootNode s⟩

end Myunix.Fs
