import Mathlib.Logic.Function.Basic
import Mathlib.Logic.Relation

/-!
# Computations that can stop, and their loops

An operation of a program that checks its own assumptions either returns or stops for good. `Outcome ε` is the monad
of such operations; the simp lemma `bind_eq_ok` takes a computation that returned apart, one statement at a time.

* `assert` is the statement that stops unless its condition holds (`assert_eq_ok`).
* `forRange` is a counting loop over a state; `forRange_inv` is its invariant rule, `forRange_ok` its total
  correctness rule.
* `runOps` runs a list of operations one after the other and collects their results. `SpecRun` is the same for a
  specification given as a relation, and `runOps_refines` carries a step-wise simulation to whole runs.
* `runSteps` runs operations for the state they end in; `runSteps_inv` is the invariant rule of such runs, and
  `runSteps_holds` the one for steps that may stop.
* `Yields` says what a computation returns and with which errors it may stop; `Yields.bind` and `runSteps_yields` carry
  it through sequences and runs.
* `InStep` says that two computations return related results; `InStep.bind`, `InStep.forRange` and `InStep.runSteps`
  compare them statement by statement.
-/

namespace Myunix.Lib

universe u v w

/-- A computation that returns a value or stops with an error. -/
abbrev Outcome (ε : Type u) (α : Type v) := Except ε α

section Bind

variable {ε : Type u} {α β : Type v}

@[simp] theorem bind_eq_ok {x : Outcome ε α} {f : α → Outcome ε β} {b : β} :
    x >>= f = .ok b ↔ ∃ a, x = .ok a ∧ f a = .ok b := by
  cases x with
  | error e => simp [bind, Except.bind]
  | ok a => simp [bind, Except.bind]

@[simp] theorem ok_bind (a : α) (f : α → Outcome ε β) : (Except.ok a >>= f : Outcome ε β) = f a := rfl

@[simp] theorem error_bind (e : ε) (f : α → Outcome ε β) : (Except.error e >>= f : Outcome ε β) = .error e := rfl

@[simp] theorem pure_eq_ok {a b : α} : (pure a : Outcome ε α) = .ok b ↔ a = b := by
  simp [pure, Except.pure]

@[simp] theorem throw_ne_ok {e : ε} {a : α} : ¬ (throw e : Outcome ε α) = .ok a := by
  simp [throw, throwThe, MonadExceptOf.throw]

theorem exists_ok {x : Outcome ε α} (h : x.toBool = true) : ∃ a, x = .ok a := by
  cases x with
  | error e => cases h
  | ok a => exact ⟨a, rfl⟩

end Bind

/-! ## Assertions -/

/-- Stop with `e` unless `p` holds. -/
def assert {ε : Type u} (e : ε) (p : Prop) [Decidable p] : Outcome ε PUnit := if p then .ok ⟨⟩ else .error e

section Assert

variable {ε : Type u} {e : ε} {p : Prop} [Decidable p]

@[simp] theorem assert_eq_ok {x : PUnit} : assert e p = .ok x ↔ p := by
  unfold assert
  split <;> simp_all

theorem assert_pos (h : p) : assert e p = .ok ⟨⟩ := if_pos h

theorem assert_neg (h : ¬ p) : assert e p = .error e := if_neg h

theorem assert_bind {β : Type v} {f : PUnit → Outcome ε β} (h : p) : assert e p >>= f = f ⟨⟩ := by
  rw [assert_pos h, ok_bind]

end Assert

/-! ## Partial correctness with errors -/

/-- The computation returns a value with `P` or stops with an error in `E`. -/
def Yields {ε : Type u} {α : Type v} (x : Outcome ε α) (P : α → Prop) (E : ε → Prop) : Prop :=
  match x with
  | .ok a => P a
  | .error e => E e

section Yields

variable {ε : Type u} {α β : Type v} {E : ε → Prop}

theorem Yields.bind {x : Outcome ε α} {f : α → Outcome ε β} {P : α → Prop} {Q : β → Prop} (hx : Yields x P E)
    (hf : ∀ a, P a → Yields (f a) Q E) : Yields (x >>= f) Q E := by
  cases x with
  | error e => exact hx
  | ok a => exact hf a hx

theorem Yields.imp {x : Outcome ε α} {P Q : α → Prop} (h : Yields x P E) (hPQ : ∀ a, P a → Q a) : Yields x Q E := by
  cases x with
  | error e => exact h
  | ok a => exact hPQ a h

theorem yields_assert {e : ε} {p : Prop} [Decidable p] (he : E e) : Yields (assert e p) (fun _ => p) E := by
  unfold assert
  split
  · assumption
  · exact he

end Yields

/-! ## Leaving out a part of the result -/

section Map

variable {ε : Type u} {α α' β β' : Type v}

/-- **Rule of a bind**: when `x'` is `x` with a part of its result left out, and the rest does not need that part. -/
theorem map_bind_of {x : Outcome ε α} {x' : Outcome ε α'} {f : α → Outcome ε β} {f' : α' → Outcome ε β'} {e : α → α'}
    {g : β → β'} (hx : x.map e = x') (hf : ∀ a, (f a).map g = f' (e a)) : (x >>= f).map g = x' >>= f' := by
  subst hx
  cases x with
  | ok a => exact hf a
  | error _ => rfl

/-- When the rest only changes that part. -/
theorem map_bind_last {x : Outcome ε α} {f : α → Outcome ε β} {e : α → β'} {g : β → β'}
    (hf : ∀ a, (f a).map g = .ok (e a)) : (x >>= f).map g = x.map e := by
  cases x with
  | ok a => exact hf a
  | error _ => rfl

/-- A step that both have. -/
theorem map_bind_same {x : Outcome ε α} {f : α → Outcome ε β} {f' : α → Outcome ε β'} {g : β → β'}
    (hf : ∀ a, (f a).map g = f' a) : (x >>= f).map g = x >>= f' := by
  cases x with
  | ok a => exact hf a
  | error _ => rfl

end Map

/-! ## Counting loops -/

/-- `for (i = start; i < start + n; i++) s = body(i, s)`. -/
def forRange {ε : Type u} {σ : Type v} (body : Nat → σ → Outcome ε σ) : Nat → Nat → σ → Outcome ε σ
  | _, 0, s => .ok s
  | i, n + 1, s => body i s >>= forRange body (i + 1) n

section Loops

variable {ε : Type u} {σ : Type v} {body : Nat → σ → Outcome ε σ}

/-- **The invariant rule**: what the body takes from `i` to `i + 1`, the loop takes from its start to its end. -/
theorem forRange_inv {P : Nat → σ → Prop} {n i : Nat} {s t : σ}
    (hstep : ∀ j s t, i ≤ j → j < i + n → P j s → body j s = .ok t → P (j + 1) t)
    (h : forRange body i n s = .ok t) (hp : P i s) : P (i + n) t := by
  induction n generalizing i s with
  | zero =>
    simp only [forRange, Except.ok.injEq] at h
    subst h; exact hp
  | succ n ih =>
    simp only [forRange, bind_eq_ok] at h
    obtain ⟨u, hu, h⟩ := h
    have hp' := hstep i s u (Nat.le_refl i) (by omega) hp hu
    have hend := ih (fun j s t hj hj' => hstep j s t (by omega) (by omega)) h hp'
    rwa [show i + 1 + n = i + (n + 1) by omega] at hend

/-- An invariant that does not count the rounds. -/
theorem forRange_keeps {I : σ → Prop} {n i : Nat} {s t : σ}
    (hstep : ∀ j s t, i ≤ j → j < i + n → I s → body j s = .ok t → I t) (h : forRange body i n s = .ok t) (hI : I s) :
    I t :=
  forRange_inv (P := fun _ u => I u) hstep h hI

/-- **Total correctness**: a body that returns under the invariant and keeps it gives a loop that returns. -/
theorem forRange_ok {P : Nat → σ → Prop} {n i : Nat} {s : σ}
    (hstep : ∀ j s, i ≤ j → j < i + n → P j s → ∃ t, body j s = .ok t ∧ P (j + 1) t) (hp : P i s) :
    ∃ t, forRange body i n s = .ok t ∧ P (i + n) t := by
  induction n generalizing i s with
  | zero => exact ⟨s, rfl, hp⟩
  | succ n ih =>
    obtain ⟨u, hu, hp'⟩ := hstep i s (Nat.le_refl i) (by omega) hp
    obtain ⟨t, ht, hq⟩ := ih (fun j s hj hj' => hstep j s (by omega) (by omega)) hp'
    exact ⟨t, by simp only [forRange, hu, ok_bind, ht], by rwa [show i + (n + 1) = i + 1 + n by omega]⟩

/-- Total correctness of a loop from 0. -/
theorem forRange_zero_ok {P : Nat → σ → Prop} {n : Nat} {s : σ}
    (hstep : ∀ j s, j < n → P j s → ∃ t, body j s = .ok t ∧ P (j + 1) t) (hp : P 0 s) :
    ∃ t, forRange body 0 n s = .ok t ∧ P n t := by
  have h := forRange_ok (n := n) (i := 0) (fun j s _ hj => hstep j s (by omega)) hp
  rwa [Nat.zero_add] at h

/-- A body that returns with the invariant or stops with an error in `E` gives a loop that does. -/
theorem forRange_yields {I : σ → Prop} {E : ε → Prop} (hstep : ∀ j s, I s → Yields (body j s) I E) (n i : Nat) {s : σ}
    (hI : I s) : Yields (forRange body i n s) I E := by
  induction n generalizing i s with
  | zero => exact hI
  | succ n ih => exact (hstep i s hI).bind fun t ht => ih (i + 1) ht

theorem forRange_succ (i n : Nat) (s : σ) : forRange body i (n + 1) s = body i s >>= forRange body (i + 1) n := rfl

/-- Rounds that do nothing. -/
theorem forRange_idle {n i : Nat} {s : σ} (h : ∀ j, i ≤ j → j < i + n → body j s = .ok s) :
    forRange body i n s = .ok s := by
  induction n generalizing i with
  | zero => rfl
  | succ n ih =>
    rw [forRange_succ, h i (Nat.le_refl i) (by omega), ok_bind]
    exact ih fun j hj hj' => h j (by omega) (by omega)

/-- A loop is its first rounds and then the others. -/
theorem forRange_add (m n i : Nat) (s : σ) :
    forRange body i (m + n) s = forRange body i m s >>= forRange body (i + m) n := by
  induction m generalizing i s with
  | zero =>
    rw [Nat.zero_add]
    rfl
  | succ m ih =>
    rw [show m + 1 + n = m + n + 1 by omega, forRange_succ, forRange_succ]
    cases hbody : body i s with
    | error e => rfl
    | ok t =>
      rw [ok_bind, ok_bind, ih, show i + 1 + m = i + (m + 1) by omega]

/-- Every round of the loop meets `ok` in the state it starts in. -/
def ForMeets (body : Nat → σ → Outcome ε σ) (ok : Nat → σ → Prop) : Nat → Nat → σ → Prop
  | _, 0, _ => True
  | i, n + 1, s => ok i s ∧ ∀ t, body i s = .ok t → ForMeets body ok (i + 1) n t

theorem forMeets_idle {ok : Nat → σ → Prop} {n i : Nat} {s : σ}
    (h : ∀ j, i ≤ j → j < i + n → ok j s ∧ body j s = .ok s) : ForMeets body ok i n s := by
  induction n generalizing i with
  | zero => trivial
  | succ n ih =>
    obtain ⟨hok, hb⟩ := h i (Nat.le_refl i) (by omega)
    refine ⟨hok, fun t ht => ?_⟩
    rw [hb, Except.ok.injEq] at ht
    subst ht
    exact ih fun j hj hj' => h j (by omega) (by omega)

/-- The invariant rule for a loop whose rounds meet a condition. -/
theorem forRange_inv_meets {P ok : Nat → σ → Prop} {n i : Nat} {s t : σ}
    (hstep : ∀ j s t, i ≤ j → j < i + n → P j s → ok j s → body j s = .ok t → P (j + 1) t)
    (hm : ForMeets body ok i n s) (h : forRange body i n s = .ok t) (hp : P i s) : P (i + n) t := by
  induction n generalizing i s with
  | zero =>
    simp only [forRange, Except.ok.injEq] at h
    subst h; exact hp
  | succ n ih =>
    simp only [forRange, bind_eq_ok] at h
    obtain ⟨u, hu, h⟩ := h
    have hp' := hstep i s u (Nat.le_refl i) (by omega) hp hm.1 hu
    have hend := ih (fun j s t hj hj' => hstep j s t (by omega) (by omega)) (hm.2 u hu) h hp'
    rwa [show i + 1 + n = i + (n + 1) by omega] at hend

/-- Total correctness of a loop whose rounds meet a condition. -/
theorem forRange_ok_meets {P ok : Nat → σ → Prop} {n i : Nat} {s : σ}
    (hstep : ∀ j s, i ≤ j → j < i + n → P j s → ok j s → ∃ t, body j s = .ok t ∧ P (j + 1) t)
    (hm : ForMeets body ok i n s) (hp : P i s) : ∃ t, forRange body i n s = .ok t ∧ P (i + n) t := by
  induction n generalizing i s with
  | zero => exact ⟨s, rfl, hp⟩
  | succ n ih =>
    obtain ⟨u, hu, hp'⟩ := hstep i s (Nat.le_refl i) (by omega) hp hm.1
    obtain ⟨t, ht, hq⟩ := ih (fun j s hj hj' => hstep j s (by omega) (by omega)) (hm.2 u hu) hp'
    exact ⟨t, by simp only [forRange, hu, ok_bind, ht], by rwa [show i + (n + 1) = i + 1 + n by omega]⟩

end Loops

/-! ## Runs of operations -/

/-- Run the operations `ops` from `s`, collecting what they return. -/
def runOps {ε : Type u} {σ α ρ : Type v} (step : σ → α → Outcome ε (ρ × σ)) : σ → List α → Outcome ε (List ρ × σ)
  | s, [] => .ok ([], s)
  | s, a :: as => do
    let (r, s') ← step s a
    let (rs, t) ← runOps step s' as
    return (r :: rs, t)

/-- Every operation of the run meets `ok` in the state it is called in. -/
def Meets {ε : Type u} {σ α ρ : Type v} (step : σ → α → Outcome ε (ρ × σ)) (ok : σ → α → Prop) : σ → List α → Prop
  | _, [] => True
  | s, a :: as => ok s a ∧ ∀ r s', step s a = .ok (r, s') → Meets step ok s' as

/-- A run of a specification: each operation relates a state, a result and a next state. -/
def SpecRun {τ α ρ : Type v} (spec : τ → α → ρ → τ → Prop) : τ → List α → List ρ → τ → Prop
  | t, [], rs, t' => rs = [] ∧ t' = t
  | t, a :: as, rs, t' => ∃ r rs' u, rs = r :: rs' ∧ spec t a r u ∧ SpecRun spec u as rs' t'

section Runs

variable {ε : Type u} {σ τ α ρ : Type v} {step : σ → α → Outcome ε (ρ × σ)} {spec : τ → α → ρ → τ → Prop}

theorem runOps_nil {s : σ} : runOps step s [] = .ok ([], s) := rfl

theorem runOps_cons_ok {s t : σ} {a : α} {as : List α} {rs : List ρ} :
    runOps step s (a :: as) = .ok (rs, t) ↔
      ∃ r u rs', step s a = .ok (r, u) ∧ runOps step u as = .ok (rs', t) ∧ rs = r :: rs' := by
  simp only [runOps, bind_eq_ok, pure_eq_ok, Prod.exists, Prod.mk.injEq]
  constructor
  · rintro ⟨r, u, hs, rs', t', hr, rfl, rfl⟩
    exact ⟨r, u, rs', hs, hr, rfl⟩
  · rintro ⟨r, u, rs', hs, hr, rfl⟩
    exact ⟨r, u, hs, rs', t, hr, rfl, rfl⟩

/-- A call that meets `ok` and returns, followed by a run that meets it. -/
theorem meets_cons {ok : σ → α → Prop} {s s' : σ} {a : α} {as : List α} {r : ρ} (hok : ok s a)
    (hstep : step s a = .ok (r, s')) (h : Meets step ok s' as) : Meets step ok s (a :: as) := by
  refine ⟨hok, fun r' s'' h' => ?_⟩
  rw [hstep, Except.ok.injEq, Prod.mk.injEq] at h'
  rw [← h'.2]; exact h

/-- **Refinement of runs.** If under `ok` each step returns, answers as the specification does and keeps the relation
`R`, then every run whose operations meet `ok` returns and is a run of the specification. -/
theorem runOps_refines {R : σ → τ → Prop} {ok : σ → α → Prop}
    (hsim : ∀ s t a, R s t → ok s a → ∃ r s' t', step s a = .ok (r, s') ∧ spec t a r t' ∧ R s' t')
    (as : List α) {s : σ} {t : τ} (hR : R s t) (hok : Meets step ok s as) :
    ∃ rs s' t', runOps step s as = .ok (rs, s') ∧ SpecRun spec t as rs t' ∧ R s' t' := by
  induction as generalizing s t with
  | nil => exact ⟨[], s, t, rfl, ⟨rfl, rfl⟩, hR⟩
  | cons a as ih =>
    obtain ⟨r, s₁, t₁, hstep, hspec, hR₁⟩ := hsim s t a hR hok.1
    obtain ⟨rs, s', t', hrun, hsrun, hR'⟩ := ih hR₁ (hok.2 r s₁ hstep)
    exact ⟨r :: rs, s', t', runOps_cons_ok.2 ⟨r, s₁, rs, hstep, hrun, rfl⟩, ⟨r, rs, t₁, rfl, hspec, hsrun⟩, hR'⟩

end Runs

/-! ## Runs for their last state -/

/-- Run the operations `as` from `s` and return the state they end in. -/
def runSteps {ε : Type u} {σ : Type v} {α : Type w} (step : σ → α → Outcome ε σ) : σ → List α → Outcome ε σ
  | s, [] => .ok s
  | s, a :: as => step s a >>= fun s' => runSteps step s' as

/-- Every operation of the run meets `ok` in the state it is called in. -/
def StepsMeet {ε : Type u} {σ : Type v} {α : Type w} (step : σ → α → Outcome ε σ) (ok : σ → α → Prop) :
    σ → List α → Prop
  | _, [] => True
  | s, a :: as => ok s a ∧ ∀ s', step s a = .ok s' → StepsMeet step ok s' as

section Steps

variable {ε : Type u} {σ : Type v} {α : Type w} {step : σ → α → Outcome ε σ} {ok : σ → α → Prop}

theorem runSteps_cons {s s' : σ} {a : α} {as : List α} (h : step s a = .ok s') :
    runSteps step s (a :: as) = runSteps step s' as := by
  rw [runSteps, h, ok_bind]

theorem stepsMeet_cons {s s' : σ} {a : α} {as : List α} (hok : ok s a) (hstep : step s a = .ok s')
    (h : StepsMeet step ok s' as) : StepsMeet step ok s (a :: as) := by
  refine ⟨hok, fun s'' hstep' => ?_⟩
  rw [hstep, Except.ok.injEq] at hstep'
  rw [← hstep']; exact h

/-- The first operations of a run that meets `ok`. -/
theorem StepsMeet.append_left {as bs : List α} : ∀ {s : σ}, StepsMeet step ok s (as ++ bs) → StepsMeet step ok s as := by
  induction as with
  | nil => exact fun _ => trivial
  | cons a as ih => exact fun h => ⟨h.1, fun s' hs' => ih (h.2 s' hs')⟩

theorem stepsMeet_and {ok' : σ → α → Prop} {as : List α} : ∀ {s : σ}, StepsMeet step ok s as →
    StepsMeet step ok' s as → StepsMeet step (fun s a => ok s a ∧ ok' s a) s as := by
  induction as with
  | nil => exact fun _ _ => trivial
  | cons a as ih => exact fun h h' => ⟨⟨h.1, h'.1⟩, fun s' hs' => ih (h.2 s' hs') (h'.2 s' hs')⟩

/-- **Invariants of runs.** If under `ok` each step returns and keeps the invariant, which may speak of the operations
made so far, then every run whose operations meet `ok` returns and ends in a state with the invariant. -/
theorem runSteps_inv {I : List α → σ → Prop}
    (hstep : ∀ as s a, I as s → ok s a → ∃ s', step s a = .ok s' ∧ I (as ++ [a]) s')
    (as done : List α) {s : σ} (hI : I done s) (hok : StepsMeet step ok s as) :
    ∃ s', runSteps step s as = .ok s' ∧ I (done ++ as) s' := by
  induction as generalizing s done with
  | nil => exact ⟨s, rfl, by rw [List.append_nil]; exact hI⟩
  | cons a as ih =>
    obtain ⟨s₁, hs₁, hI₁⟩ := hstep done s a hI hok.1
    obtain ⟨s', hrun, hI'⟩ := ih (done ++ [a]) hI₁ (hok.2 s₁ hs₁)
    refine ⟨s', (runSteps_cons hs₁).trans hrun, ?_⟩
    rw [List.append_assoc] at hI'
    exact hI'

/-- The same for steps that may stop: the invariant holds in every state that a run reaches. -/
theorem runSteps_keeps {I : σ → Prop} (hstep : ∀ s a s', I s → ok s a → step s a = .ok s' → I s') (as : List α)
    {s s' : σ} (hI : I s) (hok : StepsMeet step ok s as) (hrun : runSteps step s as = .ok s') : I s' := by
  induction as generalizing s with
  | nil =>
    rw [runSteps, Except.ok.injEq] at hrun
    subst hrun; exact hI
  | cons a as ih =>
    rw [runSteps, bind_eq_ok] at hrun
    obtain ⟨s₁, hs₁, hrun⟩ := hrun
    exact ih (hstep s a s₁ hI hok.1 hs₁) (hok.2 s₁ hs₁) hrun

/-- What holds of every run that returns, whatever its operations are, when each step that returns keeps it. -/
theorem runSteps_holds {I : List α → σ → Prop}
    (hstep : ∀ done s a s', I done s → step s a = .ok s' → I (done ++ [a]) s') (as done : List α) {s s' : σ}
    (hI : I done s) (hrun : runSteps step s as = .ok s') : I (done ++ as) s' := by
  induction as generalizing s done with
  | nil =>
    rw [runSteps, Except.ok.injEq] at hrun
    subst hrun
    rw [List.append_nil]
    exact hI
  | cons a as ih =>
    rw [runSteps, bind_eq_ok] at hrun
    obtain ⟨s₁, hs₁, hrun⟩ := hrun
    have hI' := ih (done ++ [a]) (hstep done s a s₁ hI hs₁) hrun
    rw [List.append_assoc] at hI'
    exact hI'

/-- The same with the errors a step may stop with. -/
theorem runSteps_yields {I : σ → Prop} {E : ε → Prop} (hstep : ∀ s a, I s → ok s a → Yields (step s a) I E)
    (as : List α) {s : σ} (hI : I s) (hok : StepsMeet step ok s as) : Yields (runSteps step s as) I E := by
  induction as generalizing s with
  | nil => exact hI
  | cons a as ih =>
    have h := hstep s a hI hok.1
    rw [runSteps]
    cases hs : step s a with
    | error e =>
      rw [hs] at h
      exact h
    | ok s₁ =>
      rw [hs] at h
      exact ih h (hok.2 s₁ hs)

end Steps

/-! ## Two computations in step -/

/-- Both computations return, and their results are related by `R`. -/
def InStep {ε ε' : Type u} {α β : Type v} (x : Outcome ε α) (y : Outcome ε' β) (R : α → β → Prop) : Prop :=
  ∃ a b, x = .ok a ∧ y = .ok b ∧ R a b

section InStep

variable {ε ε' : Type u} {α β γ δ : Type v}

theorem InStep.pure {R : α → β → Prop} {a : α} {b : β} (h : R a b) :
    InStep (Pure.pure a : Outcome ε α) (Pure.pure b : Outcome ε' β) R := ⟨a, b, rfl, rfl, h⟩

theorem InStep.bind {x : Outcome ε α} {y : Outcome ε' β} {f : α → Outcome ε γ} {g : β → Outcome ε' δ}
    {R : α → β → Prop} {S : γ → δ → Prop} (h : InStep x y R) (hfg : ∀ a b, R a b → InStep (f a) (g b) S) :
    InStep (x >>= f) (y >>= g) S := by
  obtain ⟨a, b, rfl, rfl, hR⟩ := h
  exact hfg a b hR

theorem InStep.imp {x : Outcome ε α} {y : Outcome ε' β} {R S : α → β → Prop} (h : InStep x y R)
    (hRS : ∀ a b, R a b → S a b) : InStep x y S := by
  obtain ⟨a, b, hx, hy, hR⟩ := h
  exact ⟨a, b, hx, hy, hRS a b hR⟩

/-- Two loops whose bodies keep a relation. -/
theorem InStep.forRange {body : Nat → α → Outcome ε α} {body' : Nat → β → Outcome ε' β} {R : α → β → Prop} {n i : Nat}
    {a : α} {b : β} (hstep : ∀ j a b, i ≤ j → j < i + n → R a b → InStep (body j a) (body' j b) R) (h : R a b) :
    InStep (Lib.forRange body i n a) (Lib.forRange body' i n b) R := by
  induction n generalizing i a b with
  | zero => exact ⟨a, b, rfl, rfl, h⟩
  | succ n ih =>
    apply (hstep i a b (Nat.le_refl i) (by omega) h).bind
    intro a' b' h'
    exact ih (fun j a b h1 h2 => hstep j a b (by omega) (by omega)) h'

/-- Two runs of the same operations whose steps keep a relation. -/
theorem InStep.runSteps {ι : Type w} {step : α → ι → Outcome ε α} {step' : β → ι → Outcome ε' β} {R : α → β → Prop}
    (hstep : ∀ a b i, R a b → InStep (step a i) (step' b i) R) (is : List ι) {a : α} {b : β} (h : R a b) :
    InStep (Lib.runSteps step a is) (Lib.runSteps step' b is) R := by
  induction is generalizing a b with
  | nil => exact ⟨a, b, rfl, rfl, h⟩
  | cons i is ih => exact (hstep a b i h).bind fun a' b' h' => ih h'

end InStep

end Myunix.Lib
