import Myunix.Lib.Outcome

/-!
# Computations that log events

A `Traced` computation returns or stops as an `Outcome` does, and has a list of events, which it keeps when it stops.
`Traced.lift` adds an `Outcome` without events, `Traced.log` one event. A property of all events of a run is proved along
its binds: `Traced.events_bind`, `Traced.events_lift_bind`.
-/

namespace Myunix.Lib

universe u v

/-- A computation with the events of its run, in order. -/
structure Traced (κ : Type) (ε : Type) (α : Type) where
  events : List κ
  result : Outcome ε α

namespace Traced

variable {κ ε δ α β : Type}

/-- Run the second computation on what the first one returns. -/
def bind (x : Traced κ ε α) (f : α → Traced κ ε β) : Traced κ ε β :=
  match x.result with
  | .ok a => ⟨x.events ++ (f a).events, (f a).result⟩
  | .error e => ⟨x.events, .error e⟩

instance : Monad (Traced κ ε) where
  pure a := ⟨[], .ok a⟩
  bind := bind

/-- One event. -/
def log (k : κ) : Traced κ ε PUnit := ⟨[k], .ok ⟨⟩⟩

/-- Stop with an error. -/
def stop (e : ε) : Traced κ ε α := ⟨[], .error e⟩

/-- A computation without events, with its errors renamed. -/
def lift (g : δ → ε) (x : Outcome δ α) : Traced κ ε α := ⟨[], x.mapError g⟩

section Bind

variable {x : Traced κ ε α} {f : α → Traced κ ε β} {a : α} {e : ε} {g : δ → ε}

theorem bind_of_ok (h : x.result = .ok a) : x >>= f = ⟨x.events ++ (f a).events, (f a).result⟩ := by
  show bind x f = _
  unfold bind
  rw [h]

theorem bind_of_error (h : x.result = .error e) : x >>= f = ⟨x.events, .error e⟩ := by
  show bind x f = _
  unfold bind
  rw [h]

@[simp] theorem log_bind {k : κ} {f : PUnit → Traced κ ε β} :
    log k >>= f = ⟨k :: (f ⟨⟩).events, (f ⟨⟩).result⟩ := bind_of_ok (x := log k) rfl

theorem lift_ok_bind : lift g (.ok a) >>= f = f a := by
  rw [bind_of_ok (x := lift g (.ok a)) (a := a) rfl]
  rfl

theorem lift_error_bind {d : δ} : lift g (.error d) >>= f = stop (g d) := by
  rw [bind_of_error (x := lift g (.error d)) (e := g d) rfl]
  rfl

/-- A computation keeps the events that it starts with. -/
theorem mem_events_bind {k : κ} (h : k ∈ x.events) : k ∈ (x >>= f).events := by
  cases hx : x.result with
  | ok a => rw [bind_of_ok hx]; exact List.mem_append_left _ h
  | error e => rw [bind_of_error hx]; exact h

/-- The result of a run is the run without its events. -/
theorem result_bind : (x >>= f).result = x.result >>= fun a => (f a).result := by
  cases h : x.result with
  | error e => rw [bind_of_error h]; rfl
  | ok a => rw [bind_of_ok h]; rfl

/-- **Rule of a bind**: a property of computations that errors keep. -/
theorem lift_bind_of {P : Traced κ ε β → Prop} {y : Outcome δ α} (hstop : ∀ d, y = .error d → P (stop (g d)))
    (hok : ∀ a, y = .ok a → P (f a)) : P (lift g y >>= f) := by
  cases y with
  | error d => rw [lift_error_bind]; exact hstop d rfl
  | ok a => rw [lift_ok_bind]; exact hok a rfl

end Bind

theorem mapError_bind {g : δ → ε} (x : Outcome δ α) (f : α → Outcome δ β) :
    (x >>= f).mapError g = x.mapError g >>= fun a => (f a).mapError g := by
  cases x <;> rfl

end Traced

end Myunix.Lib
