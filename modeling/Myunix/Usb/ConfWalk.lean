import Myunix.Usb.Device

/-!
# The walk over the descriptors of a configuration

A device may answer the two requests for a configuration differently, and the walk takes its end, its start and its
steps from the second answer. `DescAt` are the places it comes to; `confWalk_lt` says what it reads there. The walk
always ends (`confWalk_ends`), as a step is at least 2.

`usbDevInit_ok` follows the requests of `usb_dev_init` through the answers of a device, and `usb_conf_walk_iff` says for
which answers no walk reads beyond the `total_length` that was checked.
-/

namespace Myunix.Usb

open Lib

/-! ## One walk -/

/-- The walk from `p` comes to a descriptor at `q`, before `stop`. -/
inductive DescAt (buf : Nat → Byte) (stop : Nat) : Nat → Nat → Prop
  | here {p : Nat} : p < stop → DescAt buf stop p p
  | next {p q : Nat} : p < stop → 2 ≤ (buf p).toNat → DescAt buf stop (p + (buf p).toNat) q → DescAt buf stop p q

/-- The number of bytes that are read of a descriptor at `p`: two of one that ends the walk, else as many as the fields
of its type take. -/
def descRoom (buf : Nat → Byte) (p : Nat) : Nat :=
  if (buf p).toNat < 2 then 2 else if buf (p + 1) = 0x04 then 8 else if buf (p + 1) = 0x05 then 7 else 2

section Walk

variable {buf : Nat → Byte} {stop rounds data limit p : Nat} {reads : List Nat} {type : Byte}

theorem descAt_stop (h : ¬ data < stop) : ¬ DescAt buf stop data p := by
  intro hd
  cases hd with
  | here hlt => exact h hlt
  | next hlt _ _ => exact h hlt

/-- A walk ends at a descriptor of length 0 or 1. -/
theorem descAt_last (h : data < stop) (hlen : (buf data).toNat < 2) : DescAt buf stop data p ↔ p = data := by
  constructor
  · intro hd
    cases hd with
    | here _ => rfl
    | next _ h2 _ => omega
  · rintro rfl
    exact .here h

theorem descAt_more (h : data < stop) (hlen : ¬ (buf data).toNat < 2) :
    DescAt buf stop data p ↔ p = data ∨ DescAt buf stop (data + (buf data).toNat) p := by
  constructor
  · intro hd
    cases hd with
    | here _ => exact Or.inl rfl
    | next _ _ hnext => exact Or.inr hnext
  · rintro (rfl | hnext)
    · exact .here h
    · exact .next h (by omega) hnext

/-- The fields of a type are inside its room. -/
theorem fieldReads_lt (hlen : ¬ (buf data).toNat < 2) :
    (∀ r ∈ [data, data + 1] ++ fieldReads (buf (data + 1)) data, r < limit) ↔ data + descRoom buf data ≤ limit := by
  unfold descRoom fieldReads
  rw [if_neg hlen]
  by_cases h4 : buf (data + 1) = 0x04
  · rw [if_pos h4, if_pos h4]
    simp only [List.cons_append, List.nil_append, List.forall_mem_cons, List.not_mem_nil, false_implies, implies_true,
      and_true]
    omega
  · rw [if_neg h4, if_neg h4]
    by_cases h5 : buf (data + 1) = 0x05
    · rw [if_pos h5, if_pos h5]
      simp only [List.cons_append, List.nil_append, List.forall_mem_cons, List.not_mem_nil, false_implies, implies_true,
        and_true]
      omega
    · rw [if_neg h5, if_neg h5]
      simp only [List.append_nil, List.forall_mem_cons, List.not_mem_nil, false_implies, implies_true, and_true]
      omega

/-- **What a walk reads** is below a limit when the descriptors it comes to are, each with its room. -/
theorem confWalk_lt (h : confWalk buf stop rounds data = some reads) :
    (∀ r ∈ reads, r < limit) ↔ ∀ p, DescAt buf stop data p → p + descRoom buf p ≤ limit := by
  induction rounds generalizing data reads with
  | zero => simp [confWalk] at h
  | succ rounds ih =>
    rw [confWalk] at h
    by_cases hlt : data < stop
    · simp only [if_pos hlt] at h
      by_cases hlen : (buf data).toNat < 2
      · rw [if_pos hlen, Option.some.injEq] at h
        have hroom : descRoom buf data = 2 := if_pos hlen
        simp only [← h, descAt_last hlt hlen, forall_eq, hroom, List.forall_mem_cons, List.not_mem_nil, false_implies,
          implies_true, and_true]
        omega
      · rw [if_neg hlen, Option.map_eq_some_iff] at h
        obtain ⟨rest, hrest, rfl⟩ := h
        simp only [descAt_more hlt hlen]
        rw [List.forall_mem_append, fieldReads_lt hlen, ih hrest]
        constructor
        · rintro ⟨hhere, hnext⟩ p (rfl | hp)
          · exact hhere
          · exact hnext p hp
        · exact fun hall => ⟨hall data (Or.inl rfl), fun p hp => hall p (Or.inr hp)⟩
    · rw [if_neg hlt, Option.some.injEq] at h
      subst h
      exact ⟨fun _ p hp => absurd hp (descAt_stop hlt), fun _ r hr => absurd hr List.not_mem_nil⟩

/-- **The walk ends**, as each step is at least 2. -/
theorem confWalk_ends (h : stop - data < rounds) : ∃ reads, confWalk buf stop rounds data = some reads := by
  induction rounds generalizing data with
  | zero => exact absurd h (Nat.not_lt_zero _)
  | succ rounds ih =>
    rw [confWalk]
    by_cases hlt : data < stop
    · simp only [if_pos hlt]
      by_cases hlen : (buf data).toNat < 2
      · rw [if_pos hlen]
        exact ⟨_, rfl⟩
      · obtain ⟨rest, hrest⟩ : ∃ rest, confWalk buf stop rounds (data + (buf data).toNat) = some rest := ih (by omega)
        rw [if_neg hlen, hrest]
        exact ⟨_, rfl⟩
    · rw [if_neg hlt]
      exact ⟨[], rfl⟩

end Walk

/-! ## The answers of a device -/

/-- A device that answers the `k`-th request with `responses k`. -/
def answering (responses : Nat → Response) : HcControl Nat := fun _ _ k => .ok (responses k, k + 1)

/-- `usb_dev_init` between two configurations: the number of answers it has had, and what is in `buf`. -/
structure ConfPoint where
  answers : Nat
  buf : Nat → Byte

section Answers

variable (responses : Nat → Response)

/-- The device descriptor. -/
def answeredDesc : Nat → Byte := storeBytes (fun _ => 0) ((responses 0).bytes.take 18)

/-- The device descriptor has its length and a packet size of USB. -/
def DescAccepted : Prop :=
  answeredDesc responses 0 = 18 ∧ (answeredDesc responses 7 = 8 ∨ answeredDesc responses 7 = 16 ∨
    answeredDesc responses 7 = 32 ∨ answeredDesc responses 7 = 64)

/-- `buf` after the first answer. -/
def headBuf (c : ConfPoint) : Nat → Byte := storeBytes c.buf ((responses c.answers).bytes.take 4)

/-- The `total_length` that is checked. -/
def checkedLength (c : ConfPoint) : Nat := (le16 (headBuf responses c) 2).toNat

/-- The device is asked for the whole configuration. -/
def Asked (c : ConfPoint) : Prop := (responses c.answers).success = true ∧ checkedLength responses c ≤ 4096

instance (c : ConfPoint) : Decidable (Asked responses c) := inferInstanceAs (Decidable (_ ∧ _))

/-- `buf` after the second answer. -/
def fullBuf (c : ConfPoint) : Nat → Byte :=
  storeBytes (headBuf responses c) ((responses (c.answers + 1)).bytes.take (checkedLength responses c))

/-- Where `usb_dev_init` is when it comes to configuration `i`. -/
def confPoint (buf : Nat → Byte) : Nat → ConfPoint
  | 0 => ⟨1, buf⟩
  | i + 1 =>
    let c := confPoint buf i
    if Asked responses c then ⟨c.answers + 2, fullBuf responses c⟩ else ⟨c.answers + 1, headBuf responses c⟩

/-- The descriptors behind a configuration descriptor, as far as its walk goes, are inside what was asked for. -/
def WalkInside (c : ConfPoint) : Prop :=
  Asked responses c → (responses (c.answers + 1)).success = true →
    ∀ p, DescAt (fullBuf responses c) (le16 (fullBuf responses c) 2).toNat (fullBuf responses c 0).toNat p →
      p + descRoom (fullBuf responses c) p ≤ checkedLength responses c

/-- The configuration descriptor is, too. -/
def HeadInside (c : ConfPoint) : Prop :=
  Asked responses c → (responses (c.answers + 1)).success = true → 9 ≤ checkedLength responses c

end Answers

/-- A read inside `buf` and inside what was asked for. -/
def BufRead.Inside (r : BufRead) : Prop := r.index < 4096 ∧ r.index < r.validated

section Requests

variable {responses : Nat → Response} {loc : Locals} {dev : UsbDevice} {value len : BitVec 16} {data : Word} {k : Nat}

theorem getDescriptor_answering (h : data ≠ 0#32) :
    getDescriptor (answering responses) loc dev value len data k =
      .ok (⟨(responses k).success, (responses k).bytes.take len.toNat⟩, k + 1) := by
  unfold getDescriptor usbDevReq
  rw [assert_pos h, ok_bind]
  rfl

/-- The state of `usb_dev_init` before configuration `i`, with `stack` in `buf` at first. -/
structure ConfsRead (responses : Nat → Response) (stack : Nat → Byte) (i : Nat) (x : InitState Nat) : Prop where
  host : x.host = (confPoint responses stack i).answers
  buf : x.buf = (confPoint responses stack i).buf
  walks : (∀ r ∈ x.reads, r.walk = true → r.Inside) ↔ ∀ j < i, WalkInside responses (confPoint responses stack j)
  heads : (∀ r ∈ x.reads, r.walk = false → r.Inside) ↔ ∀ j < i, HeadInside responses (confPoint responses stack j)

variable {stack : Nat → Byte} {i rounds : Nat} {x x' : InitState Nat} {new : List BufRead}

/-- One more configuration, with the reads `new`. -/
theorem ConfsRead.next (h : ConfsRead responses stack i x)
    (hhost : x'.host = (confPoint responses stack (i + 1)).answers)
    (hbuf : x'.buf = (confPoint responses stack (i + 1)).buf) (hreads : x'.reads = x.reads ++ new)
    (hwalk : (∀ r ∈ new, r.walk = true → r.Inside) ↔ WalkInside responses (confPoint responses stack i))
    (hhead : (∀ r ∈ new, r.walk = false → r.Inside) ↔ HeadInside responses (confPoint responses stack i)) :
    ConfsRead responses stack (i + 1) x' := by
  refine ⟨hhost, hbuf, ?_, ?_⟩
  · rw [hreads, List.forall_mem_append, h.walks, hwalk, Nat.forall_lt_succ_right]
  · rw [hreads, List.forall_mem_append, h.heads, hhead, Nat.forall_lt_succ_right]

/-- A configuration that is not walked through reads nothing. -/
theorem ConfsRead.skip (h : ConfsRead responses stack i x)
    (hhost : x'.host = (confPoint responses stack (i + 1)).answers)
    (hbuf : x'.buf = (confPoint responses stack (i + 1)).buf) (hreads : x'.reads = x.reads)
    (hnot : ¬ (Asked responses (confPoint responses stack i) ∧
      (responses ((confPoint responses stack i).answers + 1)).success = true)) :
    ConfsRead responses stack (i + 1) x' := by
  have hnone : x'.reads = x.reads ++ [] := by rw [hreads, List.append_nil]
  refine h.next hhost hbuf hnone ?_ ?_
  · exact ⟨fun _ ha hs => absurd ⟨ha, hs⟩ hnot, fun _ r hr => absurd hr List.not_mem_nil⟩
  · exact ⟨fun _ ha hs => absurd ⟨ha, hs⟩ hnot, fun _ r hr => absurd hr List.not_mem_nil⟩

theorem confPoint_asked (h : Asked responses (confPoint responses stack i)) :
    confPoint responses stack (i + 1) =
      ⟨(confPoint responses stack i).answers + 2, fullBuf responses (confPoint responses stack i)⟩ := if_pos h

theorem confPoint_not_asked (h : ¬ Asked responses (confPoint responses stack i)) :
    confPoint responses stack (i + 1) =
      ⟨(confPoint responses stack i).answers + 1, headBuf responses (confPoint responses stack i)⟩ := if_neg h

/-- A configuration that is walked through. -/
theorem walkConf_ok {σ : Type} {walk : List Nat} (x : InitState σ) (i validated : Nat)
    (h : confWalk x.buf (le16 x.buf 2).toNat rounds (x.buf 0).toNat = some walk) :
    ∃ x', walkConf rounds i validated x = .ok x' ∧ x'.host = x.host ∧ x'.buf = x.buf ∧ x'.reads = x.reads ++
        (confReads.map (BufRead.mk · validated false) ++ walk.map (BufRead.mk · validated true)) ∧
      ∃ confs, x'.dev = { x.dev with confs } := by
  unfold walkConf
  simp only [h]
  exact ⟨_, rfl, rfl, rfl, rfl, _, rfl⟩

section Conf

variable {c : ConfPoint} (hhost : x.host = c.answers) (hbuf : x.buf = c.buf)
include hhost hbuf

theorem readConf_unasked (h : ¬ Asked responses c) :
    readConf (answering responses) loc rounds i x =
      .ok { x with buf := headBuf responses c, host := c.answers + 1 } := by
  unfold readConf
  simp only [getDescriptor_answering loc.buf_ne, ok_bind, hhost, hbuf]
  by_cases hsuccess : (responses c.answers).success = false
  · rw [if_pos hsuccess]
    rfl
  · have hlong : (le16 (headBuf responses c) 2).toNat > 4096 :=
      Nat.lt_of_not_le fun hle => h ⟨by simpa using hsuccess, hle⟩
    rw [if_neg hsuccess]
    exact if_pos hlong

theorem readConf_asked (h : Asked responses c) :
    readConf (answering responses) loc rounds i x =
      if (responses (c.answers + 1)).success = false then
        .ok { x with buf := fullBuf responses c, host := c.answers + 2 }
      else
        walkConf rounds i (checkedLength responses c) { x with buf := fullBuf responses c, host := c.answers + 2 } := by
  have hshort : ¬ (le16 (headBuf responses c) 2).toNat > 4096 := Nat.not_lt_of_le h.2
  unfold readConf
  simp only [getDescriptor_answering loc.buf_ne, ok_bind, hhost, hbuf]
  rw [if_neg (by simp [h.1])]
  exact if_neg hshort

end Conf

/-- The reads of a configuration of which `validated` bytes were asked for. -/
theorem newReads_inside {validated : Nat} (walk : List Nat) (hv : validated ≤ 4096) :
    let new := confReads.map (BufRead.mk · validated false) ++ walk.map (BufRead.mk · validated true)
    ((∀ r ∈ new, r.walk = true → r.Inside) ↔ ∀ r ∈ walk, r < validated) ∧
      ((∀ r ∈ new, r.walk = false → r.Inside) ↔ 9 ≤ validated) := by
  simp only [List.forall_mem_append, List.forall_mem_map, confReads, List.forall_mem_cons, List.not_mem_nil,
    false_implies, implies_true, and_true, true_and, BufRead.Inside, Bool.false_eq_true, Bool.true_eq_false, forall_const]
  constructor
  · exact ⟨fun h r hr => (h r hr).2, fun h r hr => ⟨Nat.lt_of_lt_of_le (h r hr) hv, h r hr⟩⟩
  · omega

/-- **One configuration.** -/
theorem readConf_ok (hrounds : 0x10000 ≤ rounds) (h : ConfsRead responses stack i x) :
    ∃ x', readConf (answering responses) loc rounds i x = .ok x' ∧ ConfsRead responses stack (i + 1) x' := by
  by_cases hasked : Asked responses (confPoint responses stack i)
  · cases hsecond : (responses ((confPoint responses stack i).answers + 1)).success with
    | false =>
      refine ⟨_, (readConf_asked h.host h.buf hasked).trans (if_pos hsecond), h.skip ?_ ?_ rfl (by simp [hsecond])⟩
      · rw [confPoint_asked hasked]
      · rw [confPoint_asked hasked]
    | true =>
      have hstop := (le16 (fullBuf responses (confPoint responses stack i)) 2).isLt
      obtain ⟨walk, hwalk⟩ : ∃ walk, confWalk (fullBuf responses (confPoint responses stack i))
          (le16 (fullBuf responses (confPoint responses stack i)) 2).toNat rounds
          (fullBuf responses (confPoint responses stack i) 0).toNat = some walk := confWalk_ends (by omega)
      let y : InitState Nat := { x with
        buf := fullBuf responses (confPoint responses stack i)
        host := (confPoint responses stack i).answers + 2 }
      obtain ⟨x', hx', hhost, hbuf, hreads, -⟩ := walkConf_ok y i (checkedLength responses (confPoint responses stack i)) hwalk
      obtain ⟨hwalks, hheads⟩ := newReads_inside walk hasked.2
      refine ⟨x', (readConf_asked h.host h.buf hasked).trans ((if_neg (by simp [hsecond])).trans hx'),
        h.next ?_ ?_ hreads ?_ ?_⟩
      · rw [confPoint_asked hasked, hhost]
      · rw [confPoint_asked hasked, hbuf]
      · rw [hwalks, confWalk_lt hwalk]
        exact ⟨fun hin _ _ => hin, fun hin => hin hasked hsecond⟩
      · rw [hheads]
        exact ⟨fun hin _ _ => hin, fun hin => hin hasked hsecond⟩
  · refine ⟨_, readConf_unasked h.host h.buf hasked, h.skip ?_ ?_ rfl fun ha => hasked ha.1⟩
    · rw [confPoint_not_asked hasked]
    · rw [confPoint_not_asked hasked]

/-- The configurations of an accepted device. -/
def numConfs (responses : Nat → Response) : Nat := (answeredDesc responses 17).toNat

section Descriptor

variable {σ : Type} {control : HcControl σ} {host host' : σ} {b : Bool}
  (hfirst : getDescriptor control loc { dev with maxPacketSize := 8 } 0x100#16 18#16 loc.devDesc host =
    .ok (⟨b, (responses 0).bytes.take 18⟩, host'))
include hfirst

/-- A device that is not accepted has its descriptor read only. -/
theorem usbDevInit_refused (stack : Nat → Byte) (rounds : Nat) (h : ¬ DescAccepted responses) :
    ∃ x, usbDevInit control loc rounds dev stack host = .ok (false, x) ∧ x.reads = [] := by
  unfold usbDevInit
  simp only [hfirst, ok_bind]
  by_cases hzero : answeredDesc responses 0 = 0
  · exact ⟨_, if_neg (not_not.2 hzero), rfl⟩
  by_cases hsize : answeredDesc responses 0 = 18
  · have hmax : answeredDesc responses 7 ≠ 8 ∧ answeredDesc responses 7 ≠ 16 ∧ answeredDesc responses 7 ≠ 32 ∧
        answeredDesc responses 7 ≠ 64 := by
      simpa only [DescAccepted, hsize, true_and, not_or] using h
    exact ⟨_, (if_pos hzero).trans ((if_neg (not_not.2 hsize)).trans (if_pos hmax)), rfl⟩
  · exact ⟨_, (if_pos hzero).trans (if_pos hsize), rfl⟩

/-- A device that is accepted has its configurations read. -/
theorem usbDevInit_accepted (stack : Nat → Byte) (rounds : Nat) (h : DescAccepted responses) :
    usbDevInit control loc rounds dev stack host =
      forRange (readConf control loc rounds) 0 (numConfs responses)
        ⟨acceptedDev dev (answeredDesc responses), stack, host', []⟩ >>= fun x => pure (true, x) := by
  obtain ⟨hsize, hmax⟩ := h
  have hzero : answeredDesc responses 0 ≠ 0 := by
    rw [hsize]
    decide
  have hmax' : ¬ (answeredDesc responses 7 ≠ 8 ∧ answeredDesc responses 7 ≠ 16 ∧ answeredDesc responses 7 ≠ 32 ∧
      answeredDesc responses 7 ≠ 64) := by
    simpa only [← not_or, not_not] using hmax
  unfold usbDevInit
  simp only [hfirst, ok_bind]
  exact (if_pos hzero).trans ((if_neg (not_not.2 hsize)).trans (if_neg hmax'))

end Descriptor

/-- **All requests of `usb_dev_init`**: it returns, and its reads are those of the configurations of a device that it
accepts. -/
theorem usbDevInit_ok (responses : Nat → Response) (loc : Locals) (dev : UsbDevice) (stack : Nat → Byte)
    (hrounds : 0x10000 ≤ rounds) :
    ∃ r x, usbDevInit (answering responses) loc rounds dev stack 0 = .ok (r, x) ∧
      ((∀ r ∈ x.reads, r.walk = true → r.Inside) ↔ (DescAccepted responses →
        ∀ i < numConfs responses, WalkInside responses (confPoint responses stack i))) ∧
      ((∀ r ∈ x.reads, r.walk = false → r.Inside) ↔ (DescAccepted responses →
        ∀ i < numConfs responses, HeadInside responses (confPoint responses stack i))) := by
  have hfirst : getDescriptor (answering responses) loc { dev with maxPacketSize := 8 } 0x100#16 18#16 loc.devDesc 0 =
      .ok (⟨(responses 0).success, (responses 0).bytes.take 18⟩, 1) := getDescriptor_answering loc.devDesc_ne
  by_cases haccepted : DescAccepted responses
  · have hstart : ConfsRead responses stack 0 ⟨acceptedDev dev (answeredDesc responses), stack, 1, []⟩ :=
      ⟨rfl, rfl, by simp, by simp⟩
    obtain ⟨x, hx, hread⟩ : ∃ x, forRange (readConf (answering responses) loc rounds) 0 (numConfs responses)
        ⟨acceptedDev dev (answeredDesc responses), stack, 1, []⟩ = .ok x ∧
        ConfsRead responses stack (numConfs responses) x :=
      forRange_zero_ok (fun i x _ hx => readConf_ok hrounds hx) hstart
    have hinit : usbDevInit (answering responses) loc rounds dev stack 0 = .ok (true, x) := by
      rw [usbDevInit_accepted hfirst stack rounds haccepted, hx]
      rfl
    exact ⟨true, x, hinit, hread.walks.trans ⟨fun h _ => h, fun h => h haccepted⟩,
      hread.heads.trans ⟨fun h _ => h, fun h => h haccepted⟩⟩
  · obtain ⟨x, hx, hnone⟩ := usbDevInit_refused hfirst stack rounds haccepted
    refine ⟨false, x, hx, ?_, ?_⟩
    · exact ⟨fun _ h => absurd h haccepted, fun _ r hr => absurd (hnone ▸ hr) List.not_mem_nil⟩
    · exact ⟨fun _ h => absurd h haccepted, fun _ r hr => absurd (hnone ▸ hr) List.not_mem_nil⟩

end Requests

/-- **The walk stays inside.** For every sequence of answers of a device, `usb_dev_init` returns after at most 65536
rounds of each walk. Its walks read only inside `buf` and inside the `total_length` that was checked if and only if the
descriptors that they come to are, each with the bytes that are read of it. -/
theorem usb_conf_walk_iff (responses : Nat → Response) (loc : Locals) (dev : UsbDevice) (stack : Nat → Byte) :
    (∀ rounds ≥ 0x10000, ∃ r x, usbDevInit (answering responses) loc rounds dev stack 0 = .ok (r, x) ∧
      ∀ r ∈ x.reads, r.walk = true → r.index < 4096 ∧ r.index < r.validated) ↔
    (DescAccepted responses → ∀ i < numConfs responses, WalkInside responses (confPoint responses stack i)) := by
  constructor
  · intro h
    obtain ⟨r, x, hx, hin⟩ := h 0x10000 (Nat.le_refl _)
    obtain ⟨r', x', hx', hwalks, -⟩ := usbDevInit_ok responses loc dev stack (Nat.le_refl 0x10000)
    rw [hx, Except.ok.injEq, Prod.mk.injEq] at hx'
    rw [hx'.2] at hin
    exact hwalks.1 hin
  · intro h rounds hrounds
    obtain ⟨r, x, hx, hwalks, -⟩ := usbDevInit_ok responses loc dev stack hrounds
    exact ⟨r, x, hx, hwalks.2 h⟩

/-- A device that says 9 at first, and 65535 with the whole configuration. -/
def lyingDevice (k : Nat) : Response :=
  if k = 0 then ⟨true, [18, 1, 0x10, 1, 0, 0, 0, 8, 0, 0, 0, 0, 0, 0, 0, 0, 0, 1]⟩
  else if k = 1 then ⟨true, [9, 2, 9, 0]⟩
  else ⟨true, [9, 2, 0xFF, 0xFF, 1, 1, 0, 0x80, 50]⟩

/-- A stack with `0xFF` in `buf`. -/
def fullStack (i : Nat) : Byte := if i < 4096 then 0xFF else 0

theorem lyingDevice_outside : ∃ x,
    usbDevInit (answering lyingDevice) someLocals 0x10000 zeroDevice fullStack 0 = .ok (true, x) ∧
      ∃ r ∈ x.reads, r.walk = true ∧ 4096 ≤ r.index ∧ r.validated ≤ r.index :=
  ⟨_, rfl, ⟨4344, 9, true⟩, by decide, rfl, by decide, by decide⟩

/-- The fields of the configuration descriptor itself are read whatever was asked for: they are inside if and only if at
least 9 bytes were. -/
theorem usb_conf_head_iff (responses : Nat → Response) (loc : Locals) (dev : UsbDevice) (stack : Nat → Byte) :
    ∃ r x, usbDevInit (answering responses) loc 0x10000 dev stack 0 = .ok (r, x) ∧
      ((∀ r ∈ x.reads, r.walk = false → r.Inside) ↔
        (DescAccepted responses → ∀ i < numConfs responses, HeadInside responses (confPoint responses stack i))) := by
  obtain ⟨r, x, hx, -, hheads⟩ := usbDevInit_ok responses loc dev stack (Nat.le_refl 0x10000)
  exact ⟨r, x, hx, hheads⟩

end Myunix.Usb
