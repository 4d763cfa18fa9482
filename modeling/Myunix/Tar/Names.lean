import Myunix.Fs.Tokens
import Myunix.Tar.Archive

/-!
# The name of a node (`tar.c`)

`fs_node_from_tar` copies the name of an object to the 256 bytes of a new node, one component after the other, each to the
start. It goes on with the next component while the byte behind the copy is not NUL. As a new node is zeroed, that byte is
NUL behind the first component already.

`nodeName_eq` says what is copied, and that no access is outside of the two strings; `fs_node_from_tar_iff` says for
which names this is the last component.
-/

namespace Myunix.Tar

open Lib Fs

/-! ## The code -/

/-- The inner loop: `s` is the position in the name of the object, `d` the one in the name of the node. -/
def copyComponent (src : List Byte) : (rounds s d : Nat) → List Byte → Kernel (Nat × Nat × List Byte)
  | 0, _, _, _ => throw .bounds
  | rounds + 1, s, d, name => do
    let c ← load .bounds src s
    if c ≠ slash ∧ c ≠ 0 then
      let name ← store .bounds name d c
      copyComponent src rounds (s + 1) (d + 1) name
    else return (s, d, name)

/-- The `do` loop. -/
def copyComponents (src : List Byte) : (rounds s : Nat) → List Byte → Kernel (List Byte)
  | 0, _, _ => throw .bounds
  | rounds + 1, s, name => do
    let (s, d, name) ← copyComponent src src.length s 0 name
    let c ← load .bounds name d
    if c ≠ 0 then copyComponents src rounds (s + 1) name else return name

/-- The name that `fs_node_from_tar` gives to the node. There are no more rounds than bytes of the name. -/
def nodeName (name : CString) : Kernel (List Byte) :=
  copyComponents name.mem name.mem.length 0 (List.replicate 256 0)

/-! ## The copy -/

section Copy

variable {p q comp : List Byte} {c : Byte} {rounds : Nat}

/-- **The inner loop** copies up to the next `/` or NUL, behind what is in the name of the node. -/
theorem copyComponent_eq (hcomp : ∀ b ∈ comp, b ≠ slash ∧ b ≠ 0) (hc : c = slash ∨ c = 0)
    (start rest : List Byte) (hq : comp.length ≤ q.length) (hrounds : comp.length < rounds) :
    copyComponent (start ++ (comp ++ c :: rest)) rounds start.length p.length (p ++ q) =
      .ok (start.length + comp.length, p.length + comp.length, p ++ (comp ++ q.drop comp.length)) := by
  induction comp generalizing start p q rounds with
  | nil =>
    obtain ⟨rounds, rfl⟩ := Nat.exists_eq_succ_of_ne_zero (Nat.ne_of_gt hrounds)
    have hstop : ¬ (c ≠ slash ∧ c ≠ 0) := by
      rintro ⟨h1, h2⟩
      exact hc.elim h1 h2
    rw [copyComponent, List.nil_append, load_append rfl, ok_bind, if_neg hstop]
    rfl
  | cons b comp ih =>
    obtain ⟨rounds, rfl⟩ := Nat.exists_eq_succ_of_ne_zero (Nat.ne_of_gt (Nat.lt_of_le_of_lt (Nat.zero_le _) hrounds))
    obtain ⟨hb, hcomp⟩ := List.forall_mem_cons.1 hcomp
    cases q with
    | nil => simp at hq
    | cons e q =>
      have hround := ih (p := p ++ [b]) (q := q) hcomp (start ++ [b]) (Nat.le_of_succ_le_succ hq)
        (Nat.lt_of_succ_lt_succ hrounds)
      rw [List.length_append, List.length_singleton, List.length_append, List.length_singleton, List.append_assoc,
        List.append_assoc, List.append_assoc] at hround
      rw [copyComponent, List.cons_append, load_append rfl, ok_bind, if_pos hb, store_append rfl, ok_bind]
      refine hround.trans (congrArg Except.ok ?_)
      simp only [List.length_cons, List.drop_succ_cons, List.cons_append, List.nil_append, Prod.mk.injEq]
      exact ⟨by omega, by omega, trivial⟩

end Copy

/-! ## The name -/

/-- The components of a name, between its `/`. -/
def nameComponents (name : CString) : List (List Byte) := name.bytes.splitOnP (· = slash)

section Name

variable {name : CString}

/-- The first component. -/
theorem nameComponents_head (name : CString) : (nameComponents name).head? = some (pathElement name.bytes) := by
  obtain ⟨hslash, hpath | ⟨post, hpath⟩⟩ := pathElement_split name.bytes
  · have hno : ∀ b ∈ name.bytes, decide (b = slash) = false := fun b hb => by
      rw [hpath] at hb
      exact decide_eq_false (ne_of_mem_of_not_mem hb hslash)
    rw [nameComponents, List.splitOnP_eq_singleton hno, ← hpath]
    rfl
  · have hno : ∀ b ∈ pathElement name.bytes, decide (b = slash) = false := fun b hb =>
      decide_eq_false (ne_of_mem_of_not_mem hb hslash)
    rw [nameComponents, congrArg (List.splitOnP _) hpath,
      List.splitOnP_append_cons_of_forall_mem hno 0x2F (decide_eq_true rfl) post]
    rfl

/-- **The name of a node** is the first component, and the rest of its bytes stay NUL. -/
theorem nodeName_eq (hshort : ∀ c ∈ nameComponents name, c.length < 256) :
    nodeName name = .ok (pathElement name.bytes ++ List.replicate (256 - (pathElement name.bytes).length) 0) := by
  obtain ⟨hslash, hpath⟩ := pathElement_split name.bytes
  have hlt : (pathElement name.bytes).length < 256 := hshort _ (List.mem_of_head? (nameComponents_head name))
  have hzero := pathElement_nonzero name.nonzero
  -- the component in the string of the object
  obtain ⟨c, rest, hc, hmem⟩ : ∃ c rest, (c = slash ∨ c = 0) ∧ name.mem = [] ++ (pathElement name.bytes ++ c :: rest) := by
    rcases hpath with hpath | ⟨post, hpath⟩
    · exact ⟨0, [], Or.inr rfl, congrArg (· ++ [0]) hpath⟩
    · refine ⟨slash, post ++ [0], Or.inl rfl, ?_⟩
      rw [CString.mem, congrArg (· ++ [0]) hpath]
      simp [slash]
  generalize hcomp : pathElement name.bytes = comp at *
  have hbytes : ∀ b ∈ comp, b ≠ slash ∧ b ≠ 0 := fun b hb =>
    ⟨ne_of_mem_of_not_mem hb hslash, ne_of_mem_of_not_mem hb hzero⟩
  have hlength : comp.length < name.mem.length := by
    rw [hmem]
    simp
  obtain ⟨rounds, hrounds⟩ : ∃ rounds, name.mem.length = rounds + 1 := ⟨name.mem.length - 1, by omega⟩
  have hround : copyComponent name.mem name.mem.length 0 0 (List.replicate 256 0) =
      .ok (comp.length, comp.length, comp ++ List.replicate (256 - comp.length) 0) := by
    have hcopy := copyComponent_eq (p := []) (q := List.replicate 256 0) hbytes hc [] rest
      (by rw [List.length_replicate]; omega) hlength
    rw [← hmem, List.drop_replicate] at hcopy
    simp only [List.length_nil, List.nil_append, Nat.zero_add] at hcopy
    exact hcopy
  -- the byte behind it is still NUL
  obtain ⟨m, hm⟩ : ∃ m, 256 - comp.length = m + 1 := ⟨255 - comp.length, by omega⟩
  have hzeros : List.replicate (256 - comp.length) (0 : Byte) = 0 :: List.replicate m 0 := by
    rw [hm]
    rfl
  rw [hzeros] at hround ⊢
  rw [nodeName, hrounds, copyComponents, hround, ok_bind]
  simp only [load_append, ok_bind]
  rfl

/-- **`fs_node_from_tar`** gives a node the last component of a name, within the two strings, if and only if that is also
the first component. -/
theorem fs_node_from_tar_iff (name : CString) (hshort : ∀ c ∈ nameComponents name, c.length < 256) :
    (∃ buf, nodeName name = .ok buf ∧ buf.length = 256 ∧
        (nameComponents name).getLast? = some (cstringAt buf).bytes) ↔
      (nameComponents name).head? = (nameComponents name).getLast? := by
  have hlt : (pathElement name.bytes).length < 256 := hshort _ (List.mem_of_head? (nameComponents_head name))
  obtain ⟨m, hm⟩ : ∃ m, 256 - (pathElement name.bytes).length = m + 1 :=
    ⟨255 - (pathElement name.bytes).length, by omega⟩
  have hname := nodeName_eq hshort
  have hstring : (cstringAt (pathElement name.bytes ++ List.replicate (256 - (pathElement name.bytes).length) 0)).bytes =
      pathElement name.bytes := by
    rw [hm, List.replicate_succ]
    exact cstringAt_append _ (pathElement_nonzero name.nonzero)
  rw [nameComponents_head]
  constructor
  · rintro ⟨buf, hbuf, -, hlast⟩
    rw [hname, Except.ok.injEq] at hbuf
    subst hbuf
    rw [hlast, hstring]
  · intro hsame
    refine ⟨_, hname, ?_, by rw [← hsame, hstring]⟩
    rw [List.length_append, List.length_replicate]
    omega

/-- The name that the byte loops copy is the one of `fsNodeFromTar`. -/
theorem nodeName_fsNodeFromTar {obj : TarObj} (hshort : ∀ c ∈ nameComponents obj.name, c.length < 256) :
    nodeName obj.name = .ok ((fsNodeFromTar obj).name ++ List.replicate (256 - (fsNodeFromTar obj).name.length) 0) :=
  nodeName_eq hshort

end Name

theorem nestedName_nonzero : (0 : Byte) ∉ [0x61, 0x2F, 0x62, 0x2F, 0x61] := by decide

/-- The name `a/b/a`. -/
def nestedName : CString := ⟨[0x61, 0x2F, 0x62, 0x2F, 0x61], nestedName_nonzero⟩

/-- The name `a/b/a` has three components, and the node gets the last one. -/
theorem fs_node_from_tar_iff_nested : (nameComponents nestedName).length = 3 ∧
    ∃ buf, nodeName nestedName = .ok buf ∧ buf.length = 256 ∧
      (nameComponents nestedName).getLast? = some (cstringAt buf).bytes :=
  ⟨by decide, (fs_node_from_tar_iff nestedName (by decide)).2 (by decide)⟩

theorem pathName_nonzero : (0 : Byte) ∉ [0x64, 0x2F, 0x66] := by decide

/-- The name `d/f`: the node is called `d`. -/
theorem fs_node_from_tar_path : ¬ ∃ buf, nodeName ⟨[0x64, 0x2F, 0x66], pathName_nonzero⟩ = .ok buf ∧
    (nameComponents ⟨[0x64, 0x2F, 0x66], pathName_nonzero⟩).getLast? = some (cstringAt buf).bytes := by
  rintro ⟨buf, hbuf, hlast⟩
  rw [nodeName_eq (by decide), Except.ok.injEq] at hbuf
  subst hbuf
  exact absurd hlast (by decide)

end Myunix.Tar
