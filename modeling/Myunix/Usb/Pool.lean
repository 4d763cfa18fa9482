import Myunix.Usb.ConfWalk
import Myunix.Usb.Control

/-!
# The descriptors that a device needs

A device names its packet size and the length of a configuration, and `usb_dev_init` bounds each of them; the pool of the
host controller bounds the number of packets of one request. `uhciControl` is the host controller that a device answers
through. Between two requests it is `Idle`: everything is in the pool but the first queue head.

`usb_noTd_iff` says for which answers the pool has a descriptor each time one is taken.
-/

namespace Myunix.Usb

open Lib

/-! ## Requests of a device -/

/-- What happens with one request: what the controller does while the driver polls, and what the device sends. -/
structure Answer where
  steps : List HwStep
  bytes : List Byte

/-- `hc_control` of a device on the controller, with the transfer at `trans`. The `k`-th request gets `answers k`. -/
def uhciControl (answers : Nat → Answer) (trans : Word) : HcControl (Uhci × Nat) := fun dev t host => do
  let hc ← uhciDevControl (host.1.setTransfer trans fun _ => t) dev trans (answers host.2).steps
  return (⟨(hc.transfers trans).success, (answers host.2).bytes⟩, hc, host.2 + 1)

/-- No transfer is in progress: all descriptors are in the pool, and `q` is the queue head that comes next. -/
structure Idle (l : List Word) (q : Word) (hc : Uhci) : Prop where
  ready : Ready hc l
  tds : inactiveTds hc = maxTd
  next : freeQh hc = some q

section Submit

variable {hc₀ : Uhci} {l : List Word}

/-- **Too few descriptors.** -/
theorem Ready.submit_noTd (h : Ready hc₀ l) {dev : UsbDevice} (trans : Word) (hpos : 0 < dev.maxPacketSize.toNat)
    (hmax : dev.maxPacketSize.toNat ≤ 64) (haddr : dev.addr.setWidth 8 &&& ~~~ 0x7F = (0 : Byte))
    (hfew : inactiveTds hc₀ < dataCount (hc₀.transfers trans).req dev.maxPacketSize.toNat + 2) :
    uhciSubmit hc₀ dev trans = .error .noTd := by
  by_cases hnone : inactiveTds hc₀ = 0
  · unfold uhciSubmit
    simp only [takeTd_none hnone, error_bind]
  obtain ⟨m, hm⟩ : ∃ m, inactiveTds hc₀ = m + 1 := Nat.exists_eq_succ_of_ne_zero hnone
  -- the loop, or as many rounds of it as there are descriptors for
  have hle : m ≤ dataCount (hc₀.transfers trans).req dev.maxPacketSize.toNat := by omega
  obtain ⟨head, hc₁, hc₂, datas, x, htake, hsetup, hdata, hlen, -, hbuilt⟩ := h.front hpos hmax haddr hle (by omega)
  have hcount := hbuilt.count
  rw [List.length_cons, hlen] at hcount
  have hempty : takeTd x.hc = .error .noTd := takeTd_none (by omega)
  unfold uhciSubmit
  simp only [htake, hsetup, ok_bind]
  obtain ⟨k, hk⟩ := Nat.exists_eq_add_of_le hle
  have hloop : forRange (dataTd dev.speed (dev.addr.setWidth 8) (dataPid (hc₀.transfers trans).req)
      dev.maxPacketSize.toNat (hc₀.transfers trans).req.length.toNat (hc₀.transfers trans).data) 0
      (dataCount (hc₀.transfers trans).req dev.maxPacketSize.toNat) ⟨hc₂, head, 0⟩ =
      forRange (dataTd dev.speed (dev.addr.setWidth 8) (dataPid (hc₀.transfers trans).req)
        dev.maxPacketSize.toNat (hc₀.transfers trans).req.length.toNat (hc₀.transfers trans).data) (0 + m) k x := by
    rw [hk, forRange_add, hdata, ok_bind]
  cases k with
  | zero =>
    refine (congrArg (· >>= _) hloop).trans ?_
    simp only [forRange, ok_bind, hempty, error_bind]
  | succ k =>
    rw [forRange_succ] at hloop
    have hbody : dataTd dev.speed (dev.addr.setWidth 8) (dataPid (hc₀.transfers trans).req) dev.maxPacketSize.toNat
        (hc₀.transfers trans).req.length.toNat (hc₀.transfers trans).data (0 + m) x = .error .noTd := by
      unfold dataTd
      simp only [hempty, error_bind]
    rw [hbody, error_bind] at hloop
    exact congrArg (· >>= _) hloop

end Submit

section Idle

variable {l : List Word} {q trans : Word} {hc hc' : Uhci} {dev : UsbDevice} {t : UsbTransfer} {answers : Nat → Answer}
  {k : Nat}

theorem Idle.setTransfer (h : Idle l q hc) (p : Word) (f : UsbTransfer → UsbTransfer) : Idle l q (hc.setTransfer p f) :=
  ⟨⟨h.ready.tds, h.ready.qhs, h.ready.list.congr rfl rfl fun _ _ => ⟨rfl, rfl, rfl⟩, h.ready.active⟩, h.tds, h.next⟩

/-- After a request that was finished, no transfer is in progress again. -/
theorem Idle.finished (h : Idle l q hc) (hf : Finished hc l hc') : Idle l q hc' := by
  refine ⟨⟨?_, ?_, hf.list, fun c hm => ?_⟩, ?_, ?_⟩
  · rw [hf.tdBase]
    exact h.ready.tds
  · rw [hf.qhBase]
    exact h.ready.qhs
  · rw [hf.qhActive]
    exact h.ready.active c hm
  · rw [inactiveTds_congr hf.tdBase hf.tdActive]
    exact h.tds
  · rw [freeQh_congr hf.qhBase hf.qhActive]
    exact h.next

/-- The controller after its initialisation. -/
theorem controllerInit_idle {qhBlock tdBlock : Nat} {transfers : Word → UsbTransfer}
    (h : uhciControllerInit qhBlock tdBlock transfers = .ok hc) :
    ∃ q, Idle [BitVec.ofNat 32 (qhBlock * 4096)] q hc := by
  obtain ⟨hready, htds, hqh⟩ := controllerInit_ready h
  obtain ⟨q, hq⟩ := freeQh_isSome hqh
  exact ⟨q, hready, htds, hq⟩

/-- A device that `uhci_dev_control` works for. -/
structure Usable (dev : UsbDevice) : Prop where
  pos : 0 < dev.maxPacketSize.toNat
  max : dev.maxPacketSize.toNat ≤ 64
  addr : dev.addr.setWidth 8 &&& ~~~ 0x7F = (0 : Byte)

/-- A request of more packets than there are descriptors. -/
theorem Idle.control_noTd (h : Idle l q hc) (hdev : Usable dev)
    (hbig : maxTd < dataCount t.req dev.maxPacketSize.toNat + 2) :
    uhciControl answers trans dev t (hc, k) = .error .noTd := by
  have ht : (hc.setTransfer trans fun _ => t).transfers trans = t := Function.update_self ..
  have hsubmit := (h.setTransfer trans fun _ => t).ready.submit_noTd trans hdev.pos hdev.max hdev.addr
    (by rw [ht, (h.setTransfer trans fun _ => t).tds]; exact hbig)
  unfold uhciControl uhciDevControl
  simp only [hsubmit, error_bind]

/-- A request that there are descriptors for. -/
theorem Idle.control (h : Idle l q hc) (hdev : Usable dev) (htrans : trans ≠ 0#32)
    (hfits : dataCount t.req dev.maxPacketSize.toNat + 2 ≤ maxTd) (hopen : t.complete = false)
    (hfailed : t.success = false) :
    (outcome q (answers k).steps = none → uhciControl answers trans dev t (hc, k) = .error .polling) ∧
      ∀ b, outcome q (answers k).steps = some b → ∃ hc',
        uhciControl answers trans dev t (hc, k) = .ok (⟨b, (answers k).bytes⟩, hc', k + 1) ∧ Idle l q hc' := by
  have ht : (hc.setTransfer trans fun _ => t).transfers trans = t := Function.update_self ..
  have hidle := h.setTransfer trans fun _ => t
  obtain ⟨hnone, hsome⟩ := hidle.ready.control hdev.pos hdev.max hdev.addr htrans (by rw [ht]; exact hopen)
    (by rw [ht, hidle.tds]; exact hfits) hidle.next (answers k).steps
  unfold uhciControl
  refine ⟨fun hout => by simp only [hnone hout, error_bind], fun b hout => ?_⟩
  obtain ⟨hc', hcall, hfinished, hsuccess⟩ := hsome b hout
  refine ⟨hc', ?_, hidle.finished hfinished⟩
  simp only [hcall, ok_bind, hsuccess (by rw [ht]; exact hfailed)]
  rfl

end Idle

/-! ## The requests of `usb_dev_init` -/

section Requests

variable {l : List Word} {q data : Word} {hc : Uhci} {dev : UsbDevice} {answers : Nat → Answer} {k : Nat} {loc : Locals}
  {value len : BitVec 16}

/-- The packets of a request, against the 126 that a setup and a status packet leave. -/
theorem packets_fit {maxLen len : Nat} (hpos : 0 < maxLen) :
    (len + maxLen - 1) / maxLen + 2 ≤ maxTd ↔ len ≤ 126 * maxLen := by
  rw [show maxTd = 126 + 2 by rfl, Nat.add_le_add_iff_right, Nat.div_le_iff_le_mul_add_pred hpos]
  rw [Nat.mul_comm]
  omega

theorem request_noTd (h : Idle l q hc) (hdev : Usable dev) (hdata : data ≠ 0#32)
    (hbig : 126 * dev.maxPacketSize.toNat < len.toNat) :
    getDescriptor (uhciControl answers loc.trans) loc dev value len data (hc, k) = .error .noTd := by
  unfold getDescriptor usbDevReq
  rw [assert_pos hdata, ok_bind, h.control_noTd hdev]
  · rfl
  · exact Nat.lt_of_not_le fun hle => absurd ((packets_fit hdev.pos).1 hle) (Nat.not_le_of_lt hbig)

theorem request_polling (h : Idle l q hc) (hdev : Usable dev) (hdata : data ≠ 0#32)
    (hfits : len.toNat ≤ 126 * dev.maxPacketSize.toNat) (hout : outcome q (answers k).steps = none) :
    getDescriptor (uhciControl answers loc.trans) loc dev value len data (hc, k) = .error .polling := by
  unfold getDescriptor usbDevReq
  rw [assert_pos hdata, ok_bind, (h.control hdev loc.trans_ne ((packets_fit hdev.pos).2 hfits) rfl rfl).1 hout]
  rfl

theorem request_ok (value : BitVec 16) {b : Bool} (h : Idle l q hc) (hdev : Usable dev) (hdata : data ≠ 0#32)
    (hfits : len.toNat ≤ 126 * dev.maxPacketSize.toNat) (hout : outcome q (answers k).steps = some b) :
    ∃ hc', getDescriptor (uhciControl answers loc.trans) loc dev value len data (hc, k) =
      .ok (⟨b, (answers k).bytes.take len.toNat⟩, hc', k + 1) ∧ Idle l q hc' := by
  obtain ⟨hc', hcall, hidle⟩ : ∃ hc', uhciControl answers loc.trans dev
      ⟨loc.req, ⟨0x80, 0x06, value, 0, len⟩, data, len.setWidth 32, false, false⟩ (hc, k) =
        .ok (⟨b, (answers k).bytes⟩, hc', k + 1) ∧ Idle l q hc' :=
    (h.control hdev loc.trans_ne ((packets_fit hdev.pos).2 hfits) rfl rfl).2 b hout
  refine ⟨hc', ?_, hidle⟩
  unfold getDescriptor usbDevReq
  rw [assert_pos hdata, ok_bind, hcall]
  rfl

variable (q answers)

/-- The answers, as far as `usb_dev_init` sees them. -/
def responded (k : Nat) : Response := ⟨(outcome q (answers k).steps).getD false, (answers k).bytes⟩

/-- Request `k` comes to an end. -/
def Completes (k : Nat) : Prop := (outcome q (answers k).steps).isSome = true

/-- All requests before the whole configuration behind `c` come to an end, and it takes more than 126 packets. -/
def TooLong (c : ConfPoint) : Prop :=
  Asked (responded q answers) c ∧ (∀ k ≤ c.answers, Completes q answers k) ∧
    126 * (answeredDesc (responded q answers) 7).toNat < checkedLength (responded q answers) c

variable {q answers} {stack : Nat → Byte} {i rounds : Nat} {x : InitState (Uhci × Nat)}

/-- `usb_dev_init` before configuration `i`. -/
structure AtConf (l : List Word) (q : Word) (answers : Nat → Answer) (stack : Nat → Byte) (i : Nat)
    (x : InitState (Uhci × Nat)) : Prop where
  idle : Idle l q x.host.1
  host : x.host.2 = (confPoint (responded q answers) stack i).answers
  buf : x.buf = (confPoint (responded q answers) stack i).buf
  dev : Usable x.dev
  size : x.dev.maxPacketSize = answeredDesc (responded q answers) 7
  done : ∀ k < (confPoint (responded q answers) stack i).answers, Completes q answers k

theorem confPoint_lt (responses : Nat → Response) (stack : Nat → Byte) {i j : Nat} (h : i < j) :
    (confPoint responses stack i).answers < (confPoint responses stack j).answers := by
  induction j with
  | zero => exact absurd h (Nat.not_lt_zero i)
  | succ j ih =>
    have hstep : (confPoint responses stack j).answers < (confPoint responses stack (j + 1)).answers := by
      by_cases hasked : Asked responses (confPoint responses stack j)
      · rw [confPoint_asked hasked]
        exact Nat.lt_add_of_pos_right (by decide)
      · rw [confPoint_not_asked hasked]
        exact Nat.lt_add_of_pos_right (by decide)
    rcases Nat.lt_succ_iff_lt_or_eq.1 h with hlt | rfl
    · exact Nat.lt_trans (ih hlt) hstep
    · exact hstep

/-- A configuration that is not asked for as a whole. -/
theorem readConf_head {c : ConfPoint} {hc hc' : Uhci} {b : Bool} {reads : List BufRead}
    (hhead : getDescriptor (uhciControl answers loc.trans) loc dev (0x200#16 ||| BitVec.ofNat 16 i) 4#16 loc.buf
      (hc, c.answers) = .ok (⟨b, (answers c.answers).bytes.take 4⟩, hc', c.answers + 1))
    (hb : outcome q (answers c.answers).steps = some b) :
    readConf (uhciControl answers loc.trans) loc rounds i ⟨dev, c.buf, (hc, c.answers), reads⟩ =
      if Asked (responded q answers) c then
        getDescriptor (uhciControl answers loc.trans) loc dev (0x200#16 ||| BitVec.ofNat 16 i)
          (le16 (headBuf (responded q answers) c) 2) loc.buf (hc', c.answers + 1) >>= fun r =>
        if r.1.success = false then
          .ok ⟨dev, storeBytes (headBuf (responded q answers) c) r.1.bytes, r.2, reads⟩
        else walkConf rounds i (checkedLength (responded q answers) c)
          ⟨dev, storeBytes (headBuf (responded q answers) c) r.1.bytes, r.2, reads⟩
      else .ok ⟨dev, headBuf (responded q answers) c, (hc', c.answers + 1), reads⟩ := by
  have hsuccess : (responded q answers c.answers).success = b := by
    rw [responded, hb]
    rfl
  unfold readConf
  simp only [hhead, ok_bind]
  by_cases hfail : b = false
  · have hnot : ¬ Asked (responded q answers) c := fun ha => by
      rw [Asked, hsuccess, hfail] at ha
      exact absurd ha.1 (by decide)
    rw [if_pos hfail, if_neg hnot]
    rfl
  · rw [if_neg hfail]
    by_cases hlong : (le16 (headBuf (responded q answers) c) 2).toNat > 4096
    · have hnot : ¬ Asked (responded q answers) c := fun ha => absurd ha.2 (Nat.not_le_of_lt hlong)
      rw [if_neg hnot]
      exact if_pos hlong
    · have hasked : Asked (responded q answers) c := ⟨hsuccess.trans (by simpa using hfail), Nat.le_of_not_lt hlong⟩
      rw [if_pos hasked]
      exact if_neg hlong

/-- **One configuration**: it is read, or there are too few descriptors, or a request never comes to an end. -/
theorem AtConf.readConf (h : AtConf l q answers stack i x) (loc : Locals) (hrounds : 0x10000 ≤ rounds) :
    (∃ x', readConf (uhciControl answers loc.trans) loc rounds i x = .ok x' ∧ AtConf l q answers stack (i + 1) x' ∧
      ¬ TooLong q answers (confPoint (responded q answers) stack i)) ∨
    (Usb.readConf (uhciControl answers loc.trans) loc rounds i x = .error .noTd ∧
      TooLong q answers (confPoint (responded q answers) stack i)) ∨
    (Usb.readConf (uhciControl answers loc.trans) loc rounds i x = .error .polling ∧
      ¬ TooLong q answers (confPoint (responded q answers) stack i) ∧
      ∃ k < (confPoint (responded q answers) stack (i + 1)).answers, ¬ Completes q answers k) := by
  obtain ⟨dev, buf, ⟨hc, k⟩, reads⟩ := x
  obtain ⟨hidle, hhost, hbuf, hdev, hsize, hdone⟩ := h
  dsimp only at hidle hhost hbuf hdev hsize
  subst hhost hbuf
  have hfour : (4#16).toNat ≤ 126 * dev.maxPacketSize.toNat := by
    have hpos := hdev.pos
    show 4 ≤ _
    omega
  -- the first 4 bytes
  cases hout : outcome q (answers (confPoint (responded q answers) stack i).answers).steps with
  | none =>
    have hstuck : ¬ Completes q answers (confPoint (responded q answers) stack i).answers := by
      rw [Completes, hout]
      decide
    refine Or.inr (Or.inr ⟨?_, fun ht => hstuck (ht.2.1 _ (Nat.le_refl _)), _, confPoint_lt _ _ (Nat.lt_succ_self i), hstuck⟩)
    have hhead : getDescriptor (uhciControl answers loc.trans) loc dev (0x200#16 ||| BitVec.ofNat 16 i) 4#16 loc.buf
        (hc, (confPoint (responded q answers) stack i).answers) = .error .polling :=
      request_polling hidle hdev loc.buf_ne hfour hout
    unfold Usb.readConf
    simp only [hhead, error_bind]
  | some b =>
    obtain ⟨hc₁, hhead, hidle₁⟩ := request_ok (0x200#16 ||| BitVec.ofNat 16 i) hidle hdev loc.buf_ne hfour hout
    have hdone₁ : ∀ k ≤ (confPoint (responded q answers) stack i).answers, Completes q answers k := by
      intro k hk
      rcases Nat.lt_or_eq_of_le hk with hlt | rfl
      · exact hdone k hlt
      · rw [Completes, hout]
        rfl
    rw [readConf_head hhead hout]
    by_cases hasked : Asked (responded q answers) (confPoint (responded q answers) stack i)
    · rw [if_pos hasked]
      by_cases hfits : checkedLength (responded q answers) (confPoint (responded q answers) stack i) ≤
          126 * dev.maxPacketSize.toNat
      · have hnot : ¬ TooLong q answers (confPoint (responded q answers) stack i) := by
          rintro ⟨-, -, hlong⟩
          rw [← hsize] at hlong
          exact absurd hfits (Nat.not_le_of_lt hlong)
        -- all of it
        cases hout₁ : outcome q (answers ((confPoint (responded q answers) stack i).answers + 1)).steps with
        | none =>
          refine Or.inr (Or.inr ⟨?_, hnot, (confPoint (responded q answers) stack i).answers + 1, ?_, ?_⟩)
          · rw [request_polling hidle₁ hdev loc.buf_ne hfits hout₁, error_bind]
          · rw [confPoint_asked hasked]
            exact Nat.lt_succ_self _
          · rw [Completes, hout₁]
            decide
        | some b₁ =>
          left
          obtain ⟨hc₂, hfull, hidle₂⟩ := request_ok (0x200#16 ||| BitVec.ofNat 16 i) hidle₁ hdev loc.buf_ne hfits
            hout₁
          have hdone₂ : ∀ k < (confPoint (responded q answers) stack i).answers + 2, Completes q answers k := by
            intro k hk
            rcases Nat.lt_succ_iff_lt_or_eq.1 hk with hlt | rfl
            · exact hdone₁ k (Nat.le_of_lt_succ hlt)
            · rw [Completes, hout₁]
              rfl
          rw [hfull, ok_bind]
          by_cases hfail : b₁ = false
          · refine ⟨_, if_pos hfail, ⟨hidle₂, ?_, ?_, hdev, hsize, ?_⟩, hnot⟩
            · rw [confPoint_asked hasked]
            · rw [confPoint_asked hasked]
              rfl
            · rw [confPoint_asked hasked]
              exact hdone₂
          · have hstop := (le16 (fullBuf (responded q answers) (confPoint (responded q answers) stack i)) 2).isLt
            obtain ⟨walk, hwalk⟩ : ∃ walk, confWalk (fullBuf (responded q answers) (confPoint (responded q answers) stack i))
                (le16 (fullBuf (responded q answers) (confPoint (responded q answers) stack i)) 2).toNat rounds
                (fullBuf (responded q answers) (confPoint (responded q answers) stack i) 0).toNat = some walk :=
              confWalk_ends (by omega)
            let y : InitState (Uhci × Nat) := ⟨dev, fullBuf (responded q answers) (confPoint (responded q answers) stack i),
              (hc₂, (confPoint (responded q answers) stack i).answers + 2), reads⟩
            obtain ⟨x', hx', hhost, hbuf, -, confs, hdev'⟩ :=
              walkConf_ok y i (checkedLength (responded q answers) (confPoint (responded q answers) stack i)) hwalk
            refine ⟨x', (if_neg hfail).trans hx', ⟨?_, ?_, ?_, ?_, ?_, ?_⟩, hnot⟩
            · rw [hhost]
              exact hidle₂
            · rw [confPoint_asked hasked, hhost]
            · rw [confPoint_asked hasked, hbuf]
            · rw [hdev']
              exact ⟨hdev.pos, hdev.max, hdev.addr⟩
            · rw [hdev']
              exact hsize
            · rw [confPoint_asked hasked]
              exact hdone₂
      · refine Or.inr (Or.inl ⟨?_, hasked, hdone₁, ?_⟩)
        · rw [request_noTd hidle₁ hdev loc.buf_ne (Nat.lt_of_not_le hfits), error_bind]
        · rw [← hsize]
          exact Nat.lt_of_not_le hfits
    · refine Or.inl ⟨_, if_neg hasked, ⟨hidle₁, ?_, ?_, hdev, hsize, ?_⟩, fun ht => hasked ht.1⟩
      · rw [confPoint_not_asked hasked]
      · rw [confPoint_not_asked hasked]
      · rw [confPoint_not_asked hasked]
        exact fun k hk => hdone₁ k (Nat.le_of_lt_succ hk)

/-- **All configurations.** -/
theorem AtConf.loop (loc : Locals) (hrounds : 0x10000 ≤ rounds) (n : Nat) : ∀ {i : Nat} {x : InitState (Uhci × Nat)},
    AtConf l q answers stack i x →
      (forRange (Usb.readConf (uhciControl answers loc.trans) loc rounds) i n x = .error .noTd ↔
        ∃ j, i ≤ j ∧ j < i + n ∧ TooLong q answers (confPoint (responded q answers) stack j)) := by
  induction n with
  | zero =>
    intro i x _
    refine ⟨fun h => by simp [forRange] at h, ?_⟩
    rintro ⟨j, hle, hlt, -⟩
    omega
  | succ n ih =>
    intro i x h
    rw [forRange_succ]
    obtain ⟨x', hbody, hnext, hfits⟩ | ⟨hbody, hlong⟩ | ⟨hbody, hfits, k, hk, hstuck⟩ := h.readConf loc hrounds
    · -- it is read
      rw [hbody, ok_bind, ih hnext]
      constructor
      · rintro ⟨j, hle, hlt, hj⟩
        exact ⟨j, by omega, by omega, hj⟩
      · rintro ⟨j, hle, hlt, hj⟩
        rcases Nat.lt_or_eq_of_le hle with hij | rfl
        · exact ⟨j, hij, by omega, hj⟩
        · exact absurd hj hfits
    · rw [hbody, error_bind]
      exact ⟨fun _ => ⟨i, Nat.le_refl i, by omega, hlong⟩, fun _ => rfl⟩
    · -- no later configuration is reached
      rw [hbody, error_bind]
      refine ⟨fun he => by simp at he, ?_⟩
      rintro ⟨j, hle, -, hj⟩
      rcases Nat.lt_or_eq_of_le hle with hij | rfl
      · have hmono : (confPoint (responded q answers) stack (i + 1)).answers ≤
            (confPoint (responded q answers) stack j).answers := by
          rcases Nat.lt_or_eq_of_le (Nat.succ_le_of_lt hij) with hlt | he
          · exact Nat.le_of_lt (confPoint_lt _ _ hlt)
          · subst he
            exact Nat.le_refl _
        exact absurd (hj.2.1 k (by omega)) hstuck
      · exact absurd hj hfits

/-- **A device**: a descriptor is missing for one of its configurations, if it is accepted. -/
theorem usbDevInit_noTd (h : Idle l q hc) (dev : UsbDevice) (haddr : dev.addr.setWidth 8 &&& ~~~ 0x7F = (0 : Byte))
    (stack : Nat → Byte) (hrounds : 0x10000 ≤ rounds) :
    usbDevInit (uhciControl answers loc.trans) loc rounds dev stack (hc, 0) = .error .noTd ↔
      DescAccepted (responded q answers) ∧ ∃ i < numConfs (responded q answers),
        TooLong q answers (confPoint (responded q answers) stack i) := by
  have hdev : Usable { dev with maxPacketSize := 8 } :=
    ⟨show 0 < 8 by decide, show 8 ≤ 64 by decide, haddr⟩
  have hdesc : (18#16).toNat ≤ 126 * ({ dev with maxPacketSize := 8 } : UsbDevice).maxPacketSize.toNat := by
    show 18 ≤ 126 * 8
    decide
  cases hout : outcome q (answers 0).steps with
  | none =>
    have hfirst : getDescriptor (uhciControl answers loc.trans) loc { dev with maxPacketSize := 8 } 0x100#16 18#16
        loc.devDesc (hc, 0) = .error .polling := request_polling h hdev loc.devDesc_ne hdesc hout
    unfold usbDevInit
    simp only [hfirst, error_bind]
    refine ⟨fun he => by simp at he, ?_⟩
    rintro ⟨-, i, -, -, hdone, -⟩
    have hzero := hdone 0 (Nat.zero_le _)
    rw [Completes, hout] at hzero
    exact absurd hzero (by decide)
  | some b =>
    obtain ⟨hc', hfirst, hidle⟩ : ∃ hc', getDescriptor (uhciControl answers loc.trans) loc
        { dev with maxPacketSize := 8 } 0x100#16 18#16 loc.devDesc (hc, 0) =
          .ok (⟨b, (responded q answers 0).bytes.take 18⟩, hc', 1) ∧ Idle l q hc' :=
      request_ok 0x100#16 h hdev loc.devDesc_ne hdesc hout
    by_cases haccepted : DescAccepted (responded q answers)
    · have hsize : 0 < (answeredDesc (responded q answers) 7).toNat ∧ (answeredDesc (responded q answers) 7).toNat ≤ 64 := by
        obtain hs | hs | hs | hs := haccepted.2 <;> simp [hs]
      have hstart : AtConf l q answers stack 0
          ⟨acceptedDev dev (answeredDesc (responded q answers)), stack, (hc', 1), []⟩ := by
        refine ⟨hidle, rfl, rfl, ⟨hsize.1, hsize.2, haddr⟩, rfl, fun k hk => ?_⟩
        obtain rfl : k = 0 := Nat.lt_one_iff.1 hk
        rw [Completes, hout]
        rfl
      have hloop := hstart.loop loc hrounds (numConfs (responded q answers))
      rw [usbDevInit_accepted hfirst stack rounds haccepted]
      simp only [haccepted, true_and]
      refine Iff.trans ?_ (hloop.trans ⟨fun ⟨j, _, hj, hlong⟩ => ⟨j, by omega, hlong⟩,
        fun ⟨j, hj, hlong⟩ => ⟨j, Nat.zero_le j, by omega, hlong⟩⟩)
      cases forRange (Usb.readConf (uhciControl answers loc.trans) loc rounds) 0 (numConfs (responded q answers))
          ⟨acceptedDev dev (answeredDesc (responded q answers)), stack, (hc', 1), []⟩ with
      | error e => simp
      | ok x => simp [pure, Except.pure]
    · obtain ⟨x, hx, -⟩ := usbDevInit_refused hfirst stack rounds haccepted
      rw [hx]
      exact ⟨fun he => by simp at he, fun he => absurd he.1 haccepted⟩

end Requests

/-- **The pool is large enough** for a device, in every call of `usb_dev_init` that starts with no transfer in progress, if
and only if no configuration that is asked for as a whole takes more than 126 packets, of the packet size that the device
named. -/
theorem usb_noTd_iff (answers : Nat → Answer) (l : List Word) (q : Word) (hc : Uhci) (h : Idle l q hc) (loc : Locals)
    (dev : UsbDevice) (haddr : dev.addr.setWidth 8 &&& ~~~ 0x7F = (0 : Byte)) (stack : Nat → Byte) :
    (∀ rounds ≥ 0x10000, usbDevInit (uhciControl answers loc.trans) loc rounds dev stack (hc, 0) ≠ .error .noTd) ↔
      (DescAccepted (responded q answers) → ∀ i < numConfs (responded q answers),
        Asked (responded q answers) (confPoint (responded q answers) stack i) →
        (∀ k ≤ (confPoint (responded q answers) stack i).answers, Completes q answers k) →
        checkedLength (responded q answers) (confPoint (responded q answers) stack i) ≤
          126 * (answeredDesc (responded q answers) 7).toNat) := by
  constructor
  · intro hruns haccepted i hi hasked hdone
    refine Nat.le_of_not_lt fun hlong => hruns 0x10000 (Nat.le_refl _) ?_
    exact (usbDevInit_noTd h dev haddr stack (Nat.le_refl _)).2 ⟨haccepted, i, hi, hasked, hdone, hlong⟩
  · intro hfits rounds hrounds hnoTd
    obtain ⟨haccepted, i, hi, hasked, hdone, hlong⟩ := (usbDevInit_noTd h dev haddr stack hrounds).1 hnoTd
    exact absurd (hfits haccepted i hi hasked hdone) (Nat.not_le_of_lt hlong)

/-- A device with one configuration, of the length in `lo` and `hi`, that answers each request at once. -/
def oneConf (lo hi : Byte) (k : Nat) : Answer :=
  ⟨[⟨fun _ => 0#32, fun _ => 0#32⟩],
    if k = 0 then [18, 1, 0x10, 1, 0, 0, 0, 8, 0, 0, 0, 0, 0, 0, 0, 0, 0, 1] else [9, 2, lo, hi, 1, 1, 0, 0x80, 50]⟩

theorem oneConf_outcome (lo hi : Byte) (q : Word) (k : Nat) : outcome q (oneConf lo hi k).steps = some true := by
  simp [outcome, HwStep.outcome, oneConf]

theorem oneConf_responded (lo hi : Byte) (q : Word) :
    responded q (oneConf lo hi) = fun k => ⟨true, (oneConf lo hi k).bytes⟩ := by
  funext k
  rw [responded, oneConf_outcome]
  rfl

theorem usb_noTd_iff_short : ∃ hc, uhciControllerInit 3 4 (fun _ => noTransfer) = .ok hc ∧ ∀ rounds ≥ 0x10000,
    usbDevInit (uhciControl (oneConf 0xF0 3) someLocals.trans) someLocals rounds zeroDevice (fun _ => 0) (hc, 0) ≠
      .error .noTd := by
  obtain ⟨q, hidle⟩ := controllerInit_idle (rfl : uhciControllerInit 3 4 (fun _ => noTransfer) = .ok _)
  refine ⟨_, rfl, (usb_noTd_iff (oneConf 0xF0 3) _ q _ hidle someLocals zeroDevice (by decide) fun _ => 0).2 ?_⟩
  rw [oneConf_responded]
  intro _ i hi _ _
  obtain rfl : i = 0 := Nat.lt_one_iff.1 hi
  decide

/-- A configuration of 1009 bytes in packets of 8. -/
theorem oneConf_noTd : ∃ hc, uhciControllerInit 3 4 (fun _ => noTransfer) = .ok hc ∧
    usbDevInit (uhciControl (oneConf 0xF1 3) someLocals.trans) someLocals 0x10000 zeroDevice (fun _ => 0) (hc, 0) =
      .error .noTd := by
  obtain ⟨q, hidle⟩ := controllerInit_idle (rfl : uhciControllerInit 3 4 (fun _ => noTransfer) = .ok _)
  refine ⟨_, rfl, (usbDevInit_noTd hidle zeroDevice (by decide) (fun _ => 0) (Nat.le_refl _)).2 ?_⟩
  refine ⟨?_, 0, ?_, ?_, fun k _ => ?_, ?_⟩
  · rw [oneConf_responded]
    exact ⟨rfl, Or.inl rfl⟩
  · rw [oneConf_responded]
    decide
  · rw [oneConf_responded]
    decide
  · rw [Completes, oneConf_outcome]
    rfl
  · rw [oneConf_responded]
    decide

end Myunix.Usb
