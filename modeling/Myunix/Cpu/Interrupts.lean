import Myunix.Base

/-!
# Interrupts (`isr.c`, `irq.c`)

`handle_isr` calls the function in the table of interrupt vectors. For the sixteen lines of the interrupt controllers
this is `irq_handler`, and drivers that share a line are asked one after the other, until one of them has handled the
interrupt. What the handlers do is a parameter, and so is what they work on, which the rest of the kernel changes
between interrupts. A handler does not register handlers.

* `chain` and `vector` are what a run has registered; `Registered` says that the tables hold it.
* **`dispatch_runs`** says for every run which calls return, and what they do to the world.
-/

namespace Myunix.Cpu

open Lib

/-! ## The code -/

/-- `irq_entry_t`, where its handler is not `NULL`. -/
structure IrqEntry (η : Type) where
  handler : η
  extra : Option Word
deriving DecidableEq, Repr

/-- `isr_handler`: `irq_handler` or another function. -/
inductive IsrHandler (γ : Type)
  | irqHandler
  | other (handler : γ)
deriving DecidableEq, Repr

/-- The fields of `registers_t` that the dispatch reads. -/
structure IsrRegs where
  isrNum : Word
  errCode : Word
deriving DecidableEq, Repr

/-- The code of the handlers: those of interrupt lines return a status, others nothing. -/
structure HandlerCode (η γ σ : Type) where
  irq : η → Word → Option Word → σ → Kernel (Word × σ)
  isr : γ → IsrRegs → σ → Kernel σ

/-- The tables `isr_handlers` and `irq_handlers`, and what the handlers work on. -/
structure Dispatch (η γ σ : Type) where
  isrHandlers : List (Option (IsrHandler γ))
  irqHandlers : List (List (Option (IrqEntry η)))
  world : σ

section Code

variable {η γ σ : Type}

/-- `isr_from_irq`. -/
def isrFromIrq (irq : Word) : Word := irq + 32#32

/-- `IRQ_IGNORED`. -/
def irqIgnored : Word := 0#32

/-- The loop of `irq_set_handler`: the first entry without a handler. -/
def placeEntry (entry : IrqEntry η) : List (Option (IrqEntry η)) → Kernel (List (Option (IrqEntry η)))
  | [] => throw .assertion
  | none :: entries => return some entry :: entries
  | some e :: entries => do
    let entries ← placeEntry entry entries
    return some e :: entries

/-- `irq_set_handler`. -/
def irqSetHandler (d : Dispatch η γ σ) (irq : Word) (handler : Option η) (extra : Option Word) :
    Kernel (Dispatch η γ σ) :=
  match handler with
  | none => throw .assertion
  | some handler =>
    match d.irqHandlers[irq.toNat]? with
    | none => throw .bounds
    | some entries => do
      let entries ← placeEntry ⟨handler, extra⟩ entries
      return { d with irqHandlers := d.irqHandlers.set irq.toNat entries }

/-- `isr_set_handler`. -/
def isrSetHandler (d : Dispatch η γ σ) (i : BitVec 8) (handler : Option (IsrHandler γ)) : Kernel (Dispatch η γ σ) :=
  match d.isrHandlers[i.toNat]? with
  | none => throw .bounds
  | some old => do
    kassert (old.isNone = true)
    return { d with isrHandlers := d.isrHandlers.set i.toNat handler }

/-- `irq_init`. -/
def irqInit (d : Dispatch η γ σ) : Kernel (Dispatch η γ σ) :=
  forRange (fun i d => isrSetHandler d ((isrFromIrq (BitVec.ofNat 32 i)).setWidth 8) (some .irqHandler)) 0 16 d

/-- The loop of `irq_handler` over the entries of a line: whether a handler has handled the interrupt. -/
def askEntries (code : HandlerCode η γ σ) (irq : Word) : List (Option (IrqEntry η)) → σ → Kernel (Bool × σ)
  | [], x => return (false, x)
  | none :: _, x => return (false, x)
  | some entry :: entries, x => do
    let (status, x) ← code.irq entry.handler irq entry.extra x
    if status ≠ irqIgnored then return (true, x) else askEntries code irq entries x

/-- `irq_handler`. An interrupt that nobody handles halts the kernel, unless it can be a spurious one. -/
def irqHandler (code : HandlerCode η γ σ) (d : Dispatch η γ σ) (regs : IsrRegs) : Kernel σ := do
  kassert (isrFromIrq 0#32 ≤ regs.isrNum ∧ regs.isrNum ≤ isrFromIrq 16#32)
  match d.irqHandlers[regs.errCode.toNat]? with
  | none => throw .bounds
  | some entries => do
    let (handled, x) ← askEntries code regs.errCode entries d.world
    if handled then return x
    else if regs.errCode = 7#32 then return x
    else if regs.errCode = 15#32 then return x
    else throw .assertion

/-- `handle_isr`. Without a handler an exception halts the kernel, and any other interrupt fails an assertion. -/
def handleIsr (code : HandlerCode η γ σ) (d : Dispatch η γ σ) (regs : IsrRegs) : Kernel (Dispatch η γ σ) :=
  match d.isrHandlers[regs.isrNum.toNat]? with
  | none => throw .bounds
  | some none => throw .assertion
  | some (some .irqHandler) => do
    let x ← irqHandler code d regs
    return { d with world := x }
  | some (some (.other handler)) => do
    let x ← code.isr handler regs d.world
    return { d with world := x }

end Code

/-! ## Runs -/

/-- What happens next. -/
inductive DispatchEvent (η γ σ : Type)
  /-- A driver calls `irq_set_handler`. -/
  | irqSetHandler (irq : Word) (handler : Option η) (extra : Option Word)
  /-- `isr_set_handler`. -/
  | isrSetHandler (i : BitVec 8) (handler : Option (IsrHandler γ))
  /-- `irq_init`. -/
  | irqInit
  /-- An interrupt or an exception. -/
  | handleIsr (regs : IsrRegs)
  /-- The rest of the kernel leaves the world like this. -/
  | kernel (x : σ)

section Runs

variable {η γ σ : Type}

/-- One event; `code` is what the handlers do. -/
def dispatchStep (code : HandlerCode η γ σ) (d : Dispatch η γ σ) : DispatchEvent η γ σ → Kernel (Dispatch η γ σ)
  | .irqSetHandler irq handler extra => irqSetHandler d irq handler extra
  | .isrSetHandler i handler => isrSetHandler d i handler
  | .irqInit => irqInit d
  | .handleIsr regs => handleIsr code d regs
  | .kernel x => return { d with world := x }

/-- The tables when the kernel starts. -/
def dispatchBoot (x : σ) : Dispatch η γ σ := ⟨List.replicate 256 none, List.replicate 16 (List.replicate 8 none), x⟩

/-- The entries that were registered for a line, in this order. -/
def chain (irq : Nat) (es : List (DispatchEvent η γ σ)) : List (IrqEntry η) :=
  es.filterMap fun
    | .irqSetHandler i (some handler) extra => if i.toNat = irq then some ⟨handler, extra⟩ else none
    | _ => none

/-- The function that was registered for a vector. -/
def vector (v : Nat) (es : List (DispatchEvent η γ σ)) : Option (IsrHandler γ) :=
  es.findSome? fun
    | .isrSetHandler i handler => if i.toNat = v then handler else none
    | .irqInit => if 32 ≤ v ∧ v < 48 then some .irqHandler else none
    | _ => none

/-- All the handlers are called and return `IRQ_IGNORED`; the world is `y` then. -/
def Ignored (code : HandlerCode η γ σ) (irq : Word) : List (IrqEntry η) → σ → σ → Prop
  | [], x, y => x = y
  | entry :: entries, x, y => ∃ x', code.irq entry.handler irq entry.extra x = .ok (irqIgnored, x') ∧
      Ignored code irq entries x' y

/-- Some handler takes the interrupt, and all those before it have ignored it. -/
def Taken (code : HandlerCode η γ σ) (irq : Word) (entries : List (IrqEntry η)) (x y : σ) : Prop :=
  ∃ before entry after x' status, entries = before ++ entry :: after ∧ Ignored code irq before x x' ∧
    code.irq entry.handler irq entry.extra x' = .ok (status, y) ∧ status ≠ irqIgnored

/-- What an interrupt does to the world, with what the run `es` has registered. -/
def Handled (code : HandlerCode η γ σ) (es : List (DispatchEvent η γ σ)) (regs : IsrRegs) (x y : σ) : Prop :=
  match vector regs.isrNum.toNat es with
  | none => False
  | some (.other handler) => code.isr handler regs x = .ok y
  | some .irqHandler => 32 ≤ regs.isrNum.toNat ∧ regs.isrNum.toNat ≤ 48 ∧ regs.errCode.toNat < 16 ∧
      (Taken code regs.errCode (chain regs.errCode.toNat es) x y ∨
        (regs.errCode = 7#32 ∨ regs.errCode = 15#32) ∧ Ignored code regs.errCode (chain regs.errCode.toNat es) x y)

/-- When a call returns after the run `es`, and what it does to the world. -/
def Returns (code : HandlerCode η γ σ) (es : List (DispatchEvent η γ σ)) (x y : σ) : DispatchEvent η γ σ → Prop
  | .irqSetHandler irq handler _ => (∃ h, handler = some h) ∧ irq.toNat < 16 ∧ (chain irq.toNat es).length < 8 ∧ y = x
  | .isrSetHandler i _ => vector i.toNat es = none ∧ y = x
  | .irqInit => (∀ v, 32 ≤ v → v < 48 → vector v es = none) ∧ y = x
  | .handleIsr regs => Handled code es regs x y
  | .kernel z => y = z

/-- **The invariant**: the tables hold what was registered. -/
structure Registered (d : Dispatch η γ σ) (es : List (DispatchEvent η γ σ)) : Prop where
  isrSize : d.isrHandlers.length = 256
  irqSize : d.irqHandlers.length = 16
  vectors : ∀ v < 256, d.isrHandlers[v]? = some (vector v es)
  chains : ∀ irq < 16, ∃ free, (chain irq es).length + free = 8 ∧
    d.irqHandlers[irq]? = some ((chain irq es).map some ++ List.replicate free none)

/-! ## The loops -/

section Loops

variable {code : HandlerCode η γ σ} {irq : Word} {x y : σ}

/-- An entry goes behind the others, if there is a free one. -/
theorem placeEntry_ok {entry : IrqEntry η} {entries : List (IrqEntry η)} {free : Nat}
    {entries' : List (Option (IrqEntry η))} :
    placeEntry entry (entries.map some ++ List.replicate free none) = .ok entries' ↔
      0 < free ∧ entries' = (entries ++ [entry]).map some ++ List.replicate (free - 1) none := by
  induction entries generalizing entries' with
  | nil =>
    cases free with
    | zero => simp [placeEntry]
    | succ free =>
      rw [List.map_nil, List.nil_append, List.replicate_succ, placeEntry, pure_eq_ok, eq_comm]
      simp
  | cons e entries ih =>
    simp only [List.map_cons, List.cons_append, placeEntry, bind_eq_ok, pure_eq_ok]
    constructor
    · rintro ⟨rest, hrest, rfl⟩
      obtain ⟨hfree, rfl⟩ := ih.1 hrest
      exact ⟨hfree, rfl⟩
    · rintro ⟨hfree, rfl⟩
      exact ⟨_, ih.2 ⟨hfree, rfl⟩, rfl⟩

/-- No handler has handled the interrupt. -/
theorem askEntries_false {entries : List (IrqEntry η)} {free : Nat} :
    askEntries code irq (entries.map some ++ List.replicate free none) x = .ok (false, y) ↔
      Ignored code irq entries x y := by
  induction entries generalizing x with
  | nil => cases free <;> simp [askEntries, Ignored, List.replicate_succ]
  | cons entry entries ih =>
    simp only [List.map_cons, List.cons_append, askEntries, bind_eq_ok, Ignored]
    constructor
    · rintro ⟨⟨status, x'⟩, hcall, hrest⟩
      by_cases hstatus : status ≠ irqIgnored
      · simp [hstatus] at hrest
      · simp only [if_neg hstatus] at hrest
        rw [not_not.1 hstatus] at hcall
        exact ⟨x', hcall, ih.1 hrest⟩
    · rintro ⟨x', hcall, hrest⟩
      exact ⟨(irqIgnored, x'), hcall, by simpa using ih.2 hrest⟩

/-- The first handler that does not ignore the interrupt ends the loop. -/
theorem askEntries_true {entries : List (IrqEntry η)} {free : Nat} :
    askEntries code irq (entries.map some ++ List.replicate free none) x = .ok (true, y) ↔
      Taken code irq entries x y := by
  induction entries generalizing x with
  | nil => cases free <;> simp [askEntries, Taken, List.replicate_succ]
  | cons entry entries ih =>
    simp only [List.map_cons, List.cons_append, askEntries, bind_eq_ok]
    constructor
    · rintro ⟨⟨status, x'⟩, hcall, hrest⟩
      by_cases hstatus : status ≠ irqIgnored
      · simp only [if_pos hstatus, pure_eq_ok, Prod.mk.injEq, true_and] at hrest
        exact ⟨[], entry, entries, x, status, rfl, rfl, hrest ▸ hcall, hstatus⟩
      · simp only [if_neg hstatus] at hrest
        rw [not_not.1 hstatus] at hcall
        obtain ⟨before, e, after, x₁, s, rfl, hbefore, htaken⟩ := ih.1 hrest
        exact ⟨entry :: before, e, after, x₁, s, rfl, ⟨x', hcall, hbefore⟩, htaken⟩
    · rintro ⟨before, e, after, x₁, status, hsplit, hbefore, hcall, hstatus⟩
      cases before with
      | nil =>
        obtain ⟨rfl, rfl⟩ := List.cons.inj hsplit
        obtain rfl : x = x₁ := hbefore
        exact ⟨_, hcall, by simp [hstatus]⟩
      | cons first before =>
        obtain ⟨rfl, rfl⟩ := List.cons.inj hsplit
        obtain ⟨x', hfirst, hbefore⟩ := hbefore
        have hrest := ih.2 ⟨before, e, after, x₁, status, rfl, hbefore, hcall, hstatus⟩
        exact ⟨_, hfirst, by simpa using hrest⟩

end Loops

/-! ## The tables -/

section Tables

variable {code : HandlerCode η γ σ} {d d' : Dispatch η γ σ} {es : List (DispatchEvent η γ σ)} {x y : σ}

theorem dispatchBoot_registered (x : σ) : Registered (dispatchBoot x : Dispatch η γ σ) [] := by
  refine ⟨List.length_replicate, List.length_replicate, fun v hv => ?_, fun irq hirq => ⟨8, rfl, ?_⟩⟩
  · exact List.getElem?_replicate_of_lt hv
  · exact List.getElem?_replicate_of_lt hirq

theorem chain_append (irq : Nat) (e : DispatchEvent η γ σ) : chain irq (es ++ [e]) = chain irq es ++ chain irq [e] :=
  List.filterMap_append

theorem vector_append (v : Nat) (e : DispatchEvent η γ σ) : vector v (es ++ [e]) = (vector v es).or (vector v [e]) :=
  List.findSome?_append

/-- There are 256 vectors. -/
theorem vector_ge {v : Nat} (hv : 256 ≤ v) : vector v es = none := by
  rw [vector, List.findSome?_eq_none_iff]
  intro e _
  cases e with
  | isrSetHandler i handler => exact if_neg (by have := i.isLt; omega)
  | irqInit => exact if_neg (by omega)
  | irqSetHandler | handleIsr | kernel => rfl

/-- An event that registers nothing for a line. -/
theorem Registered.chains_append (h : Registered d es) {e : DispatchEvent η γ σ} (hchain : ∀ irq, chain irq [e] = []) :
    ∀ irq < 16, ∃ free, (chain irq (es ++ [e])).length + free = 8 ∧
      d.irqHandlers[irq]? = some ((chain irq (es ++ [e])).map some ++ List.replicate free none) := by
  intro irq hirq
  rw [chain_append, hchain, List.append_nil]
  exact h.chains irq hirq

/-- An event that registers nothing. -/
theorem Registered.silent (h : Registered d es) {e : DispatchEvent η γ σ} (hchain : ∀ irq, chain irq [e] = [])
    (hvector : ∀ v, vector v [e] = none) (y : σ) : Registered { d with world := y } (es ++ [e]) := by
  refine ⟨h.isrSize, h.irqSize, fun v hv => ?_, h.chains_append hchain⟩
  rw [vector_append, hvector, Option.or_none]
  exact h.vectors v hv

/-- A line has eight entries. -/
theorem irqSetHandler_ok (h : Registered d es) (irq : Word) (handler : Option η) (extra : Option Word) :
    irqSetHandler d irq handler extra = .ok d' → Registered d' (es ++ [.irqSetHandler irq handler extra]) ∧
      d'.world = d.world := by
  cases handler with
  | none => simp [irqSetHandler]
  | some handler =>
    intro hrun
    have hirq : irq.toNat < 16 := by
      by_contra hge
      rw [irqSetHandler, List.getElem?_eq_none (by rw [h.irqSize]; omega)] at hrun
      cases hrun
    obtain ⟨free, hfree, hrow⟩ := h.chains irq.toNat hirq
    simp only [irqSetHandler, hrow, bind_eq_ok, placeEntry_ok, pure_eq_ok] at hrun
    obtain ⟨entries, ⟨hpos, rfl⟩, rfl⟩ := hrun
    refine ⟨⟨h.isrSize, by rw [List.length_set]; exact h.irqSize, fun v hv => ?_, fun i hi => ?_⟩, rfl⟩
    · rw [vector_append]
      exact (h.vectors v hv).trans (congrArg some Option.or_none.symm)
    · rw [chain_append]
      by_cases heq : irq.toNat = i
      · subst heq
        have hchain : chain irq.toNat [DispatchEvent.irqSetHandler (γ := γ) (σ := σ) irq (some handler) extra] =
            [⟨handler, extra⟩] := by simp [chain]
        rw [hchain, List.getElem?_set_self (by rw [h.irqSize]; exact hi)]
        exact ⟨free - 1, by rw [List.length_append, List.length_singleton]; omega, rfl⟩
      · have hchain : chain i [DispatchEvent.irqSetHandler (γ := γ) (σ := σ) irq (some handler) extra] = [] := by
          simp [chain, heq]
        rw [hchain, List.append_nil, List.getElem?_set_ne heq]
        exact h.chains i hi

theorem irqSetHandler_returns (h : Registered d es) (irq : Word) (handler : Option η) (extra : Option Word) :
    (∃ d', irqSetHandler d irq handler extra = .ok d') ↔
      (∃ hd, handler = some hd) ∧ irq.toNat < 16 ∧ (chain irq.toNat es).length < 8 := by
  cases handler with
  | none => simp [irqSetHandler]
  | some handler =>
    by_cases hirq : irq.toNat < 16
    · obtain ⟨free, hfree, hrow⟩ := h.chains irq.toNat hirq
      simp only [irqSetHandler, hrow, bind_eq_ok, placeEntry_ok, pure_eq_ok]
      constructor
      · rintro ⟨-, -, ⟨hpos, -⟩, -⟩
        exact ⟨⟨_, rfl⟩, hirq, by omega⟩
      · rintro ⟨-, -, hlen⟩
        exact ⟨_, _, ⟨by omega, rfl⟩, rfl⟩
    · have hnone : d.irqHandlers[irq.toNat]? = none := List.getElem?_eq_none (by rw [h.irqSize]; omega)
      simp [irqSetHandler, hnone, hirq]

/-- A vector is set once. -/
theorem isrSetHandler_eq {i : BitVec 8} {handler old : Option (IsrHandler γ)}
    (hold : d.isrHandlers[i.toNat]? = some old) : isrSetHandler d i handler = .ok d' ↔
      old = none ∧ d' = { d with isrHandlers := d.isrHandlers.set i.toNat handler } := by
  simp only [isrSetHandler, hold, bind_eq_ok, assert_eq_ok, pure_eq_ok, Option.isNone_iff_eq_none]
  constructor
  · rintro ⟨-, hnone, hd⟩
    exact ⟨hnone, hd.symm⟩
  · rintro ⟨hnone, hd⟩
    exact ⟨⟨⟩, hnone, hd.symm⟩

theorem isrSetHandler_ok (h : Registered d es) (i : BitVec 8) (handler : Option (IsrHandler γ))
    (hrun : isrSetHandler d i handler = .ok d') :
    Registered d' (es ++ [.isrSetHandler i handler]) ∧ d'.world = d.world := by
  obtain ⟨hnone, rfl⟩ := (isrSetHandler_eq (h.vectors _ i.isLt)).1 hrun
  have hchains := h.chains_append (e := .isrSetHandler i handler) fun _ => rfl
  refine ⟨⟨by rw [List.length_set]; exact h.isrSize, h.irqSize, fun v hv => ?_, hchains⟩, rfl⟩
  rw [vector_append]
  by_cases heq : i.toNat = v
  · subst heq
    rw [List.getElem?_set_self (by rw [h.isrSize]; exact hv), hnone]
    simp [vector]
  · rw [List.getElem?_set_ne heq, h.vectors v hv]
    simp [vector, heq]

/-- The vectors after the first `n` lines. -/
structure FirstLines (d : Dispatch η γ σ) (es : List (DispatchEvent η γ σ)) (n : Nat) (d' : Dispatch η γ σ) : Prop where
  isrSize : d'.isrHandlers.length = 256
  irqs : d'.irqHandlers = d.irqHandlers
  world : d'.world = d.world
  unset : ∀ v, 32 ≤ v → v < 32 + n → vector v es = none
  vectors : ∀ v < 256, d'.isrHandlers[v]? = some (if 32 ≤ v ∧ v < 32 + n then some .irqHandler else vector v es)

theorem isrFromIrq_toNat {n : Nat} (hn : n < 16) : ((isrFromIrq (BitVec.ofNat 32 n)).setWidth 8).toNat = 32 + n := by
  rw [isrFromIrq, BitVec.toNat_setWidth, BitVec.toNat_add, BitVec.toNat_ofNat]
  simp only [BitVec.toNat_ofNat]
  omega

/-- A line more. -/
theorem FirstLines.step {n : Nat} (h : FirstLines d es n d') (hn : n < 16) {d'' : Dispatch η γ σ} :
    isrSetHandler d' ((isrFromIrq (BitVec.ofNat 32 n)).setWidth 8) (some .irqHandler) = .ok d'' ↔
      vector (32 + n) es = none ∧ d'' = { d' with isrHandlers := d'.isrHandlers.set (32 + n) (some .irqHandler) } := by
  have hold := h.vectors (32 + n) (by omega)
  rw [if_neg (by omega), ← isrFromIrq_toNat hn] at hold
  rw [isrSetHandler_eq hold, isrFromIrq_toNat hn]

theorem FirstLines.next {n : Nat} (h : FirstLines d es n d') (hn : n < 16) (hunset : vector (32 + n) es = none) :
    FirstLines d es (n + 1) { d' with isrHandlers := d'.isrHandlers.set (32 + n) (some .irqHandler) } := by
  refine ⟨by rw [List.length_set]; exact h.isrSize, h.irqs, h.world, fun v hlow hhigh => ?_, fun v hv => ?_⟩
  · by_cases heq : v = 32 + n
    · rw [heq]
      exact hunset
    · exact h.unset v hlow (by omega)
  · by_cases heq : 32 + n = v
    · subst heq
      rw [List.getElem?_set_self (by rw [h.isrSize]; exact hv), if_pos (by omega)]
    · rw [List.getElem?_set_ne heq, h.vectors v hv]
      congr 1
      exact if_congr (by omega) rfl rfl

theorem Registered.noLines (h : Registered d es) : FirstLines d es 0 d := by
  refine ⟨h.isrSize, rfl, rfl, fun v hlow hhigh => by omega, fun v hv => ?_⟩
  rw [if_neg (by omega)]
  exact h.vectors v hv

theorem irqInit_ok (h : Registered d es) (hrun : irqInit d = .ok d') : FirstLines d es 16 d' := by
  have hend := forRange_inv (P := FirstLines d es) (fun n d₁ d₂ _ hn h₁ hstep => by
    obtain ⟨hunset, rfl⟩ := (h₁.step (by omega)).1 hstep
    exact h₁.next (by omega) hunset) hrun h.noLines
  exact hend

theorem irqInit_returns (h : Registered d es) :
    (∃ d', irqInit d = .ok d') ↔ ∀ v, 32 ≤ v → v < 48 → vector v es = none := by
  constructor
  · rintro ⟨d', hrun⟩
    exact (irqInit_ok h hrun).unset
  · intro hunset
    obtain ⟨d', hrun, -⟩ := forRange_zero_ok (n := 16) (P := FirstLines d es) (fun n d₁ hn h₁ =>
      have hv := hunset (32 + n) (by omega) (by omega)
      ⟨_, (h₁.step hn).2 ⟨hv, rfl⟩, h₁.next hn hv⟩) h.noLines
    exact ⟨d', hrun⟩

theorem FirstLines.registered (h : Registered d es) (hlines : FirstLines d es 16 d') :
    Registered d' (es ++ [.irqInit]) := by
  have hchains := h.chains_append (e := .irqInit) fun _ => rfl
  rw [← hlines.irqs] at hchains
  refine ⟨hlines.isrSize, by rw [hlines.irqs]; exact h.irqSize, fun v hv => ?_, hchains⟩
  rw [vector_append, hlines.vectors v hv]
  by_cases hline : 32 ≤ v ∧ v < 48
  · rw [if_pos hline, hlines.unset v hline.1 hline.2]
    simp [vector, hline]
  · rw [if_neg hline]
    simp [vector, hline]

/-- `irq_handler` asks the drivers of a line. -/
theorem irqHandler_ok (h : Registered d es) (regs : IsrRegs) : irqHandler code d regs = .ok y ↔
    32 ≤ regs.isrNum.toNat ∧ regs.isrNum.toNat ≤ 48 ∧ regs.errCode.toNat < 16 ∧
      (Taken code regs.errCode (chain regs.errCode.toNat es) d.world y ∨
        (regs.errCode = 7#32 ∨ regs.errCode = 15#32) ∧
          Ignored code regs.errCode (chain regs.errCode.toNat es) d.world y) := by
  have hrange : (isrFromIrq 0#32 ≤ regs.isrNum ∧ regs.isrNum ≤ isrFromIrq 16#32) ↔
      32 ≤ regs.isrNum.toNat ∧ regs.isrNum.toNat ≤ 48 := Iff.rfl
  unfold irqHandler
  rw [bind_eq_ok]
  simp only [assert_eq_ok, hrange, and_assoc]
  by_cases hirq : regs.errCode.toNat < 16
  · obtain ⟨free, -, hrow⟩ := h.chains _ hirq
    simp only [hrow, bind_eq_ok, hirq, true_and]
    constructor
    · rintro ⟨-, hlow, hhigh, ⟨handled, x⟩, hask, hrest⟩
      refine ⟨hlow, hhigh, ?_⟩
      cases handled with
      | true =>
        obtain rfl : x = y := by simpa using hrest
        exact Or.inl (askEntries_true.1 hask)
      | false =>
        simp only [Bool.false_eq_true, if_false] at hrest
        by_cases h7 : regs.errCode = 7#32
        · obtain rfl : x = y := by simpa [h7] using hrest
          exact Or.inr ⟨Or.inl h7, askEntries_false.1 hask⟩
        · by_cases h15 : regs.errCode = 15#32
          · obtain rfl : x = y := by simpa [h15] using hrest
            exact Or.inr ⟨Or.inr h15, askEntries_false.1 hask⟩
          · simp [h7, h15] at hrest
    · rintro ⟨hlow, hhigh, htaken | ⟨hline, hignored⟩⟩
      · exact ⟨⟨⟩, hlow, hhigh, (true, y), askEntries_true.2 htaken, rfl⟩
      · refine ⟨⟨⟩, hlow, hhigh, (false, y), askEntries_false.2 hignored, ?_⟩
        rcases hline with hline | hline <;> simp [hline]
  · have hnone : d.irqHandlers[regs.errCode.toNat]? = none := List.getElem?_eq_none (by rw [h.irqSize]; omega)
    simp [hnone, hirq]

/-- **`handle_isr`** leaves the tables alone. -/
theorem handleIsr_ok (h : Registered d es) (regs : IsrRegs) : handleIsr code d regs = .ok d' ↔
    Handled code es regs d.world d'.world ∧ d' = { d with world := d'.world } := by
  unfold handleIsr Handled
  by_cases hv : regs.isrNum.toNat < 256
  · rw [h.vectors _ hv]
    cases vector regs.isrNum.toNat es with
    | none => simp
    | some handler =>
      cases handler with
      | irqHandler =>
        simp only [bind_eq_ok, pure_eq_ok, ← irqHandler_ok h]
        constructor
        · rintro ⟨x, hrun, rfl⟩
          exact ⟨hrun, rfl⟩
        · rintro ⟨hrun, hd⟩
          exact ⟨_, hrun, hd.symm⟩
      | other handler =>
        simp only [bind_eq_ok, pure_eq_ok]
        constructor
        · rintro ⟨x, hrun, rfl⟩
          exact ⟨hrun, rfl⟩
        · rintro ⟨hrun, hd⟩
          exact ⟨_, hrun, hd.symm⟩
  · rw [List.getElem?_eq_none (by rw [h.isrSize]; omega), vector_ge (by omega)]
    simp

/-! ## Runs of the dispatch -/

theorem dispatchStep_registered (h : Registered d es) (e : DispatchEvent η γ σ)
    (hrun : dispatchStep code d e = .ok d') : Registered d' (es ++ [e]) := by
  cases e with
  | irqSetHandler irq handler extra => exact (irqSetHandler_ok h irq handler extra hrun).1
  | isrSetHandler i handler => exact (isrSetHandler_ok h i handler hrun).1
  | irqInit => exact (irqInit_ok h hrun).registered h
  | handleIsr regs =>
    rw [((handleIsr_ok h regs).1 hrun).2]
    exact h.silent (fun _ => rfl) (fun _ => rfl) _
  | kernel x =>
    rw [dispatchStep, pure_eq_ok] at hrun
    subst hrun
    exact h.silent (fun _ => rfl) (fun _ => rfl) x

/-- A call that returns without a change of the world. -/
theorem exists_ok_world {run : Kernel (Dispatch η γ σ)} {p : Prop} (hret : (∃ d', run = .ok d') ↔ p)
    (hworld : ∀ d', run = .ok d' → d'.world = x) : (∃ d', run = .ok d' ∧ d'.world = y) ↔ p ∧ y = x := by
  constructor
  · rintro ⟨d', hrun, rfl⟩
    exact ⟨hret.1 ⟨d', hrun⟩, hworld d' hrun⟩
  · rintro ⟨hp, rfl⟩
    obtain ⟨d', hrun⟩ := hret.2 hp
    exact ⟨d', hrun, hworld d' hrun⟩

theorem dispatchStep_returns (h : Registered d es) (e : DispatchEvent η γ σ) :
    (∃ d', dispatchStep code d e = .ok d' ∧ d'.world = y) ↔ Returns code es d.world y e := by
  cases e with
  | irqSetHandler irq handler extra =>
    have hret := exists_ok_world (y := y) (irqSetHandler_returns h irq handler extra) fun d' hrun =>
      (irqSetHandler_ok h irq handler extra hrun).2
    rw [and_assoc, and_assoc] at hret
    exact hret
  | isrSetHandler i handler =>
    refine exists_ok_world ⟨?_, fun hnone => ?_⟩ fun d' hrun => (isrSetHandler_ok h i handler hrun).2
    · rintro ⟨d', hrun⟩
      exact ((isrSetHandler_eq (h.vectors _ i.isLt)).1 hrun).1
    · exact ⟨_, (isrSetHandler_eq (h.vectors _ i.isLt)).2 ⟨hnone, rfl⟩⟩
  | irqInit => exact exists_ok_world (irqInit_returns h) fun d' hrun => (irqInit_ok h hrun).world
  | handleIsr regs =>
    constructor
    · rintro ⟨d', hrun, rfl⟩
      exact ((handleIsr_ok h regs).1 hrun).1
    · intro hhandled
      exact ⟨{ d with world := y }, (handleIsr_ok h regs).2 ⟨hhandled, rfl⟩, rfl⟩
  | kernel x =>
    constructor
    · rintro ⟨d', hrun, rfl⟩
      rw [dispatchStep, pure_eq_ok] at hrun
      exact hrun ▸ rfl
    · rintro rfl
      exact ⟨_, rfl, rfl⟩

theorem dispatchRun_registered (es' : List (DispatchEvent η γ σ)) (h : Registered d es)
    (hrun : runSteps (dispatchStep code) d es' = .ok d') : Registered d' (es ++ es') :=
  runSteps_holds (I := fun es d => Registered d es) (fun _ _ e _ h hstep => dispatchStep_registered h e hstep) es' es h
    hrun

/-- **Dispatch of interrupts**, after every run of registrations and interrupts: a handler can be registered exactly
while fewer than eight are registered for its line, and a vector that has no function yet. An interrupt of a line asks
the handlers in the order in which they were registered, up to the first one that does not ignore it. It stops the
kernel exactly when a handler does, or when all ignore it and it cannot be spurious. -/
theorem dispatch_runs (code : HandlerCode η γ σ) (x₀ : σ) (es : List (DispatchEvent η γ σ))
    (hrun : runSteps (dispatchStep code) (dispatchBoot x₀) es = .ok d) (e : DispatchEvent η γ σ) (y : σ) :
    (∃ d', dispatchStep code d e = .ok d' ∧ d'.world = y) ↔ Returns code es d.world y e :=
  dispatchStep_returns (dispatchRun_registered es (dispatchBoot_registered x₀) hrun) e

end Tables

end Runs

/-- Handlers that note their own number and return it as their status. -/
def notingCode : HandlerCode Word Unit (List Word) where
  irq handler _ _ x := .ok (handler, x ++ [handler])
  isr _ _ x := .ok x

/-- Two drivers share a line, and the second one handles the interrupt. -/
theorem dispatch_runs_shared : ∃ d, runSteps (dispatchStep notingCode) (dispatchBoot [])
      [.irqInit, .irqSetHandler 11#32 (some 0#32) none, .irqSetHandler 11#32 (some 1#32) none] = .ok d ∧
    ∃ d', dispatchStep notingCode d (.handleIsr ⟨43#32, 11#32⟩) = .ok d' ∧ d'.world = d.world ++ [0#32] ++ [1#32] := by
  obtain ⟨d, hrun⟩ := exists_ok (x := runSteps (dispatchStep notingCode) (dispatchBoot [])
    [.irqInit, .irqSetHandler 11#32 (some 0#32) none, .irqSetHandler 11#32 (some 1#32) none]) (by decide +kernel)
  refine ⟨d, hrun, (dispatch_runs notingCode [] _ hrun _ _).2 ?_⟩
  refine ⟨by decide, by decide, by decide, Or.inl ?_⟩
  exact ⟨[⟨0#32, none⟩], ⟨1#32, none⟩, [], d.world ++ [0#32], 1#32, rfl, ⟨_, rfl, rfl⟩, rfl, by decide⟩

end Myunix.Cpu
