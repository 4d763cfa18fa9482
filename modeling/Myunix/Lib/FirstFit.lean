import Mathlib.Data.Nat.Find
import Mathlib.Tactic.Common

/-!
# First-fit scans

A scan looks for `n` consecutive free cells of a bounded space. From a free cell it probes forward (`Probe`); a run that
is too short is passed over up to the cell in use behind it.

A scan may be made for part of the cells only: it starts probes below `whole`, and behind it only when a run that is too
short has led it there (`leads`). `Scan pos r` says what a scan from `pos` on returns, in terms of the cells alone. The
lemmas `Scan.skip_used`, `Scan.skip_run` and `Scan.enter` move `pos` forward; `Scan.found`, `Scan.out` and `Scan.done`
end the scan. `Scan.first_fit` says when the result is the first fit.
-/

namespace Myunix.Lib

/-- Cells `0`, …, `size - 1`, and which of them are free. -/
structure Cells where
  free : Nat → Bool
  size : Nat

/-- Cells `s`, …, `s + n - 1` are below the size and free. -/
def Fit (c : Cells) (n s : Nat) : Prop := ∀ k < n, s + k < c.size ∧ c.free (s + k) = true

/-- Cell `b` is free and so are all cells behind it. -/
def TailFree (c : Cells) (b : Nat) : Prop := c.free b = true ∧ ∀ k, b ≤ k → k < c.size → c.free k = true

/-- Cells, and how a scan of them treats those behind `whole`: `leads t e` is that a run that is too short, from `t` to
the cell in use `e` behind `whole`, makes the scan go on behind `e`; `ends` is that a scan which goes on there and finds
nothing leaves the space. -/
structure ScanMap extends Cells where
  whole : Nat
  leads : Nat → Nat → Prop
  ends : Prop

/-- Cells `t` to `e` are a run with cells in use on both sides, which leads the scan behind `whole`. -/
structure EntersAt (m : ScanMap) (t e : Nat) : Prop where
  start : t < m.whole
  stop : m.whole ≤ e
  below : e < m.size
  before : m.free (t - 1) = false
  run : ∀ b, t ≤ b → b < e → m.free b = true
  behind : m.free e = false
  leads : m.leads t e

/-- Such a run starts at `pos` or later. -/
def Enters (m : ScanMap) (pos : Nat) : Prop := ∃ t e, pos ≤ t ∧ EntersAt m t e

/-- The probe from some free cell at `pos` or later leaves the space. -/
def RunsOut (m : ScanMap) (pos : Nat) : Prop :=
  (∃ b, pos ≤ b ∧ b < m.whole ∧ TailFree m.toCells b) ∨ Enters m pos ∧ m.ends

section Probe

variable {ε : Type*} {c : Cells} {n pos len : Nat} {err : ε} {r : Except ε Nat}

/-- What a probe for `n` cells at `pos` returns when `len` of them have been counted. -/
inductive Probe (c : Cells) (n : Nat) (err : ε) (pos : Nat) : Nat → Except ε Nat → Prop
  | done : Probe c n err pos n (.ok n)
  | stop {len : Nat} : len < n → pos + len < c.size → c.free (pos + len) = false → Probe c n err pos len (.ok len)
  | out {len : Nat} : len < n → c.size ≤ pos + len → Probe c n err pos len (.error err)
  | more {len : Nat} {r : Except ε Nat} : len < n → pos + len < c.size → c.free (pos + len) = true →
    Probe c n err pos (len + 1) r → Probe c n err pos len r

/-- Cells `pos` to `e` are a run that is too short, with a cell in use behind it. -/
structure ShortRun (c : Cells) (n pos e : Nat) : Prop where
  le : pos ≤ e
  short : e - pos < n
  below : e < c.size
  run : ∀ b, pos ≤ b → b < e → c.free b = true
  behind : c.free e = false

/-- A probe finds a fit, a run that is too short, or the end of the space. -/
theorem Probe.cases (h : Probe c n err pos len r) (hrun : ∀ b, pos ≤ b → b < pos + len → c.free b = true)
    (hlen : len < n ∨ pos + len ≤ c.size) :
    (Fit c n pos ∧ r = .ok n) ∨ (∃ e, ShortRun c n pos e ∧ pos + len ≤ e ∧ r = .ok (e - pos)) ∨
      ((∀ b, pos ≤ b → b < c.size → c.free b = true) ∧ c.size < pos + n ∧ r = .error err) := by
  induction h with
  | done =>
    refine Or.inl ⟨fun k hk => ⟨by omega, hrun (pos + k) (by omega) (by omega)⟩, rfl⟩
  | @stop len hlt hbelow hused =>
    refine Or.inr (Or.inl ⟨pos + len, ⟨by omega, by omega, hbelow, hrun, hused⟩, Nat.le_refl _, ?_⟩)
    rw [Nat.add_sub_cancel_left]
  | @out len hlt hout =>
    exact Or.inr (Or.inr ⟨fun b h1 h2 => hrun b h1 (by omega), by omega, rfl⟩)
  | @more len r hlt hbelow hfree _ ih =>
    have hrun' : ∀ b, pos ≤ b → b < pos + (len + 1) → c.free b = true := by
      intro b h1 h2
      rcases Nat.lt_or_ge b (pos + len) with h | h
      · exact hrun b h1 h
      · rwa [show b = pos + len by omega]
    rcases ih hrun' (Or.inr (by omega)) with hfit | ⟨e, hshort, hle, hr⟩ | hout
    · exact Or.inl hfit
    · exact Or.inr (Or.inl ⟨e, hshort, by omega, hr⟩)
    · exact Or.inr (Or.inr hout)

end Probe

section Scan

variable {ε : Type*} {m : ScanMap} {n pos q e : Nat} {err : ε} {r : Except ε Nat}

/-- What a scan from `pos` on returns. -/
def Scan (m : ScanMap) (n : Nat) (err : ε) (pos : Nat) (r : Except ε Nat) : Prop :=
  (∃ s, pos ≤ s ∧ Fit m.toCells n s ∧ (∀ t, pos ≤ t → t < s → ¬ Fit m.toCells n t) ∧ (s < m.whole ∨ Enters m pos) ∧
    r = .ok s) ∨
  ((∀ s, pos ≤ s → Fit m.toCells n s → m.whole ≤ s ∧ ¬ Enters m pos) ∧ ¬ RunsOut m pos ∧ r = .ok 0) ∨
  ((∀ s, pos ≤ s → ¬ Fit m.toCells n s) ∧ RunsOut m pos ∧ r = .error err)

/-- What a scan of the cells behind `whole` returns from `pos` on. -/
def ScanLast (m : ScanMap) (n : Nat) (err : ε) (pos : Nat) (r : Except ε Nat) : Prop :=
  (∃ s, pos ≤ s ∧ Fit m.toCells n s ∧ (∀ t, pos ≤ t → t < s → ¬ Fit m.toCells n t) ∧ r = .ok s) ∨
  ((∀ s, pos ≤ s → ¬ Fit m.toCells n s) ∧ ¬ m.ends ∧ r = .ok 0) ∨
  ((∀ s, pos ≤ s → ¬ Fit m.toCells n s) ∧ m.ends ∧ r = .error err)

theorem Fit.free_at {c : Cells} {s : Nat} (hf : Fit c n s) (hs : s ≤ e) (he : e < s + n) : c.free e = true := by
  have := (hf (e - s) (by omega)).2
  rwa [show s + (e - s) = e by omega] at this

/-! ## Moving forward -/

/-- No fit starts from `pos` to `q`, and no run to the end of the space. -/
structure PassedOver (c : Cells) (n pos q : Nat) : Prop where
  le : pos ≤ q
  no_fit : ∀ s, pos ≤ s → s < q → ¬ Fit c n s
  no_tail : ∀ b, pos ≤ b → b < q → ¬ TailFree c b

theorem PassedOver.le_of_fit {c : Cells} {s : Nat} (h : PassedOver c n pos q) (hs : pos ≤ s) (hf : Fit c n s) : q ≤ s :=
  Nat.le_of_not_lt fun hlt => h.no_fit s hs hlt hf

theorem Scan.pass (h : Scan m n err q r) (hp : PassedOver m.toCells n pos q)
    (he : ∀ t e, pos ≤ t → t < q → ¬ EntersAt m t e) : Scan m n err pos r := by
  have henters : Enters m pos ↔ Enters m q := by
    constructor
    · rintro ⟨t, e, ht, hte⟩
      exact ⟨t, e, Nat.le_of_not_lt fun hlt => he t e ht hlt hte, hte⟩
    · rintro ⟨t, e, ht, hte⟩
      exact ⟨t, e, Nat.le_trans hp.le ht, hte⟩
  have hruns : RunsOut m pos ↔ RunsOut m q := by
    unfold RunsOut
    rw [henters]
    refine or_congr_left ⟨?_, ?_⟩
    · rintro ⟨b, hb, hlt, htail⟩
      exact ⟨b, Nat.le_of_not_lt fun h => hp.no_tail b hb h htail, hlt, htail⟩
    · rintro ⟨b, hb, hlt, htail⟩
      exact ⟨b, Nat.le_trans hp.le hb, hlt, htail⟩
  have hle : ∀ s, pos ≤ s → Fit m.toCells n s → q ≤ s := fun s hs hf => hp.le_of_fit hs hf
  unfold Scan
  rw [henters, hruns]
  rcases h with ⟨s, hs, hf, hfirst, hend, hr⟩ | ⟨hall, hout, hr⟩ | ⟨hno, hout, hr⟩
  · refine Or.inl ⟨s, Nat.le_trans hp.le hs, hf, fun t ht hts hft => ?_, hend, hr⟩
    exact hfirst t (hle t ht hft) hts hft
  · exact Or.inr (Or.inl ⟨fun s hs hf => hall s (hle s hs hf) hf, hout, hr⟩)
  · exact Or.inr (Or.inr ⟨fun s hs hf => hno s (hle s hs hf) hf, hout, hr⟩)

theorem ScanLast.pass (h : ScanLast m n err q r) (hp : PassedOver m.toCells n pos q) : ScanLast m n err pos r := by
  have hle : ∀ s, pos ≤ s → Fit m.toCells n s → q ≤ s := fun s hs hf => hp.le_of_fit hs hf
  rcases h with ⟨s, hs, hf, hfirst, hr⟩ | ⟨hno, hout, hr⟩ | ⟨hno, hout, hr⟩
  · refine Or.inl ⟨s, Nat.le_trans hp.le hs, hf, fun t ht hts hft => ?_, hr⟩
    exact hfirst t (hle t ht hft) hts hft
  · exact Or.inr (Or.inl ⟨fun s hs hf => hno s (hle s hs hf) hf, hout, hr⟩)
  · exact Or.inr (Or.inr ⟨fun s hs hf => hno s (hle s hs hf) hf, hout, hr⟩)

theorem passedOver_used {c : Cells} (hn : n ≠ 0) (hu : c.free pos = false) : PassedOver c n pos (pos + 1) := by
  refine ⟨by omega, fun s h1 h2 hf => ?_, fun b h1 h2 ht => ?_⟩
  · have hfree := hf.free_at (e := pos) (by omega) (by omega)
    rw [hu] at hfree
    cases hfree
  · have hfree := ht.1
    rw [show b = pos by omega, hu] at hfree
    cases hfree

/-- A run that is too short, up to the cell in use behind it. -/
theorem ShortRun.passedOver {c : Cells} (h : ShortRun c n pos e) (hle : pos ≤ q) (hq : q ≤ e + 1) :
    PassedOver c n pos q := by
  have hshort := h.short
  refine ⟨hle, fun s h1 h2 hf => ?_, fun b h1 h2 ht => ?_⟩
  · have hfree := hf.free_at (e := e) (by omega) (by omega)
    rw [h.behind] at hfree
    cases hfree
  · have hfree := ht.2 e (by omega) h.below
    rw [h.behind] at hfree
    cases hfree

/-- Behind the first cell of a run no other run starts. -/
theorem ShortRun.not_entersAt {t e' : Nat} (h : ShortRun m.toCells n pos e) (hlt : pos < t) (hte : t ≤ e) :
    ¬ EntersAt m t e' := by
  intro henter
  have hused := henter.before
  rw [h.run (t - 1) (by omega) (by omega)] at hused
  cases hused

/-- A run has one end. -/
theorem EntersAt.unique {e' : Nat} (h : EntersAt m pos e') (hrun : ShortRun m.toCells n pos e) : e = e' := by
  rcases Nat.lt_trichotomy e e' with hlt | heq | hlt
  · have := h.run e hrun.le hlt
    rw [hrun.behind] at this
    cases this
  · exact heq
  · have hb := h.behind
    rw [hrun.run e' (by have := h.start; have := h.stop; omega) hlt] at hb
    cases hb

/-- Over a cell in use. -/
theorem Scan.skip_used (h : Scan m n err (pos + 1) r) (hn : n ≠ 0) (hu : m.free pos = false) : Scan m n err pos r := by
  refine h.pass (passedOver_used hn hu) fun t e h1 h2 henter => ?_
  have hfree := henter.run t (Nat.le_refl t) (Nat.lt_of_lt_of_le henter.start henter.stop)
  rw [show t = pos by omega, hu] at hfree
  cases hfree

/-- Over a stretch of cells in use. -/
theorem Scan.skip_all_used (hle : pos ≤ q) (h : Scan m n err q r) (hn : n ≠ 0)
    (hu : ∀ b, pos ≤ b → b < q → m.free b = false) : Scan m n err pos r := by
  induction q, hle using Nat.le_induction with
  | base => exact h
  | succ q hle ih =>
    exact ih (h.skip_used hn (hu q hle (Nat.lt_succ_self q))) fun b h1 h2 => hu b h1 (by omega)

/-- Over a run that is too short and does not lead behind `whole`. -/
theorem Scan.skip_run (h : Scan m n err q r) (hrun : ShortRun m.toCells n pos e) (hle : pos ≤ q) (hq : q ≤ e + 1)
    (hlead : e < m.whole ∨ ¬ m.leads pos e) : Scan m n err pos r := by
  refine h.pass (hrun.passedOver hle hq) fun t e' h1 h2 henter => ?_
  rcases Nat.eq_or_lt_of_le h1 with rfl | hlt
  · obtain rfl := henter.unique hrun
    rcases hlead with hlt | hnot
    · have := henter.stop
      omega
    · exact hnot henter.leads
  · exact hrun.not_entersAt hlt (by omega) henter

/-! ## Ends of a scan -/

/-- A fit at the position. -/
theorem Scan.found (hf : Fit m.toCells n pos) (hlt : pos < m.whole) : Scan m n err pos (.ok pos) :=
  Or.inl ⟨pos, Nat.le_refl pos, hf, fun t h1 h2 => by omega, Or.inl hlt, rfl⟩

theorem ScanLast.found (hf : Fit m.toCells n pos) : ScanLast m n err pos (.ok pos) :=
  Or.inl ⟨pos, Nat.le_refl pos, hf, fun t h1 h2 => by omega, rfl⟩

/-- Less than `n` cells are left. -/
theorem no_fit_of_size_lt {c : Cells} (hsize : c.size < pos + n) (hn : n ≠ 0) (s : Nat) (hs : pos ≤ s) :
    ¬ Fit c n s := by
  intro hf
  have := (hf (n - 1) (by omega)).1
  omega

/-- A run to the end of the space. -/
theorem Scan.out (htail : TailFree m.toCells pos) (hlt : pos < m.whole) (hsize : m.size < pos + n) (hn : n ≠ 0) :
    Scan m n err pos (.error err) :=
  Or.inr (Or.inr ⟨no_fit_of_size_lt hsize hn, Or.inl ⟨pos, Nat.le_refl pos, hlt, htail⟩, rfl⟩)

/-- A position behind `whole` to which no run has led. -/
theorem Scan.done (hle : m.whole ≤ pos) : Scan m n err pos (.ok 0) := by
  have hnot : ¬ Enters m pos := by
    rintro ⟨t, e, ht, henter⟩
    have := henter.start
    omega
  refine Or.inr (Or.inl ⟨fun s hs _ => ⟨Nat.le_trans hle hs, hnot⟩, ?_, rfl⟩)
  rintro (⟨b, hb, hlt, -⟩ | ⟨henter, -⟩)
  · omega
  · exact hnot henter

/-- A run that leads behind `whole`. -/
theorem Scan.enter (h : ScanLast m n err (e + 1) r) (hrun : ShortRun m.toCells n pos e) (henter : EntersAt m pos e) :
    Scan m n err pos r := by
  have hpass := hrun.passedOver (q := e + 1) (by have := hrun.le; omega) (Nat.le_refl _)
  have hle : ∀ s, pos ≤ s → Fit m.toCells n s → e + 1 ≤ s := fun s hs hf => hpass.le_of_fit hs hf
  have hin : Enters m pos := ⟨pos, e, Nat.le_refl pos, henter⟩
  have hstop := henter.stop
  have htail : ∀ b, pos ≤ b → b < m.whole → ¬ TailFree m.toCells b :=
    fun b h1 h2 => hpass.no_tail b h1 (by omega)
  rcases h with ⟨s, hs, hf, hfirst, hr⟩ | ⟨hno, hout, hr⟩ | ⟨hno, hout, hr⟩
  · refine Or.inl ⟨s, by have := hrun.le; omega, hf, fun t ht hts hft => ?_, Or.inr hin, hr⟩
    exact hfirst t (hle t ht hft) hts hft
  · refine Or.inr (Or.inl ⟨fun s hs hf => absurd hf (hno s (hle s hs hf)), ?_, hr⟩)
    rintro (⟨b, hb, hlt, ht⟩ | ⟨-, hends⟩)
    · exact htail b hb hlt ht
    · exact hout hends
  · exact Or.inr (Or.inr ⟨fun s hs hf => hno s (hle s hs hf) hf, Or.inr ⟨hin, hout⟩, hr⟩)

/-! ## First fit -/

/-- **The first fit.** A scan from cell 0, which is in use, returns the first fit, or 0 when there is none, exactly when
the first fit starts below `whole` or a run leads behind it, and no probe leaves the space when there is no fit. -/
theorem Scan.first_fit (h : Scan m n err 0 r) (hn : n ≠ 0) (hzero : m.free 0 = false) :
    ((∃ s, Fit m.toCells n s ∧ (∀ t < s, ¬ Fit m.toCells n t) ∧ r = .ok s) ∨
        ((∀ s, ¬ Fit m.toCells n s) ∧ r = .ok 0)) ↔
      (∀ s, Fit m.toCells n s → (∀ t < s, ¬ Fit m.toCells n t) → s < m.whole ∨ Enters m 0) ∧
        ((∀ s, ¬ Fit m.toCells n s) → ¬ RunsOut m 0) := by
  have hne : ∀ s, Fit m.toCells n s → s ≠ 0 := by
    rintro s hf rfl
    have hfree := hf.free_at (e := 0) (Nat.le_refl 0) (by omega)
    rw [hzero] at hfree
    cases hfree
  have hunique : ∀ s t, Fit m.toCells n s → (∀ u < s, ¬ Fit m.toCells n u) → Fit m.toCells n t →
      (∀ u < t, ¬ Fit m.toCells n u) → s = t := by
    intro s t hs hs' ht ht'
    rcases Nat.lt_trichotomy s t with hlt | heq | hlt
    · exact absurd hs (ht' s hlt)
    · exact heq
    · exact absurd ht (hs' t hlt)
  rcases h with ⟨s, -, hf, hfirst, hend, rfl⟩ | ⟨hall, hout, rfl⟩ | ⟨hno, hout, rfl⟩
  · have hfirst' : ∀ t < s, ¬ Fit m.toCells n t := fun t ht => hfirst t (Nat.zero_le t) ht
    refine iff_of_true (Or.inl ⟨s, hf, hfirst', rfl⟩) ⟨fun t ht ht' => ?_, fun hno => absurd hf (hno s)⟩
    rwa [hunique t s ht ht' hf hfirst']
  · constructor
    · rintro (⟨s, hf, -, hr⟩ | ⟨hno, -⟩)
      · exact absurd (Except.ok.inj hr).symm (hne s hf)
      · exact ⟨fun s hf => absurd hf (hno s), fun _ => hout⟩
    · rintro ⟨hend, -⟩
      refine Or.inr ⟨fun s hf => ?_, rfl⟩
      -- the first fit would have to start below `whole`
      classical
      have hex : ∃ s, Fit m.toCells n s := ⟨s, hf⟩
      have hfind := Nat.find_spec hex
      obtain ⟨hle, hnot⟩ := hall _ (Nat.zero_le _) hfind
      rcases hend _ hfind fun t ht => Nat.find_min hex ht with hlt | henter
      · omega
      · exact hnot henter
  · refine iff_of_false ?_ fun hcond => hcond.2 (fun s => hno s (Nat.zero_le s)) hout
    rintro (⟨s, -, -, hr⟩ | ⟨-, hr⟩)
    · cases hr
    · cases hr

/-- A fit that a scan from cell 0 returns is the first. -/
theorem Scan.is_first {s : Nat} (h : Scan m n err 0 (.ok s)) (hn : n ≠ 0) (hzero : m.free 0 = false)
    (hf : Fit m.toCells n s) : ∀ t < s, ¬ Fit m.toCells n t := by
  rcases h with ⟨s', -, -, hfirst, -, hr⟩ | ⟨-, -, hr⟩ | ⟨-, -, hr⟩
  · obtain rfl := Except.ok.inj hr
    exact fun t ht => hfirst t (Nat.zero_le t) ht
  · obtain rfl := Except.ok.inj hr
    have hfree := hf.free_at (e := 0) (Nat.le_refl 0) (by omega)
    rw [hzero] at hfree
    cases hfree
  · cases hr

end Scan

end Myunix.Lib
