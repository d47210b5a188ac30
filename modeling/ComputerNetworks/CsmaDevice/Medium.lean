import ComputerNetworks.CsmaDevice.Transmitter

/-! # Any number of devices on one channel

The transmitter asks the channel for its state, hands it a packet and tells it when the packet is through;
the channel is shared with the other devices, and one assertion of the transmitter is about it. What the
devices rely on of the channel are the laws of `CsmaChannel`; its delays only order the events.

`medium_exclusive` says that the devices take turns, whatever is sent and whenever their events fire: the
channel transmits exactly while one device is busy, and then its packet. `medium_delivers` says what
arrives where, and in which order.
-/
namespace ComputerNetworks.CsmaDevice
open Runs
set_option autoImplicit false

variable {ι π σ : Type}

/-! ## The channel -/

/-- `CsmaChannel` for devices `ι` and packets `π`, in states `σ`. `accepts` is the answer of
`TransmitStart`, `started` its effect when it returns true, `current` holds `m_currentSrc` and
`m_currentPkt`, and `delivers` are the `Receive` calls that `TransmitEnd` schedules for a device: the
packet on the channel goes to all. -/
structure CsmaChannel (ι π σ : Type) where
  getState : σ → WireState
  accepts : σ → ι → Bool
  started : σ → ι → π → σ
  transmitEnd : σ → σ
  propagationCompleteEvent : σ → σ
  current : σ → Option (ι × π)
  delivers : σ → ι → List (ι × π)
  idle_of_accepts : ∀ c i, accepts c i = true → getState c = .idle
  getState_started : ∀ c i packet, accepts c i = true → getState (started c i packet) = .transmitting
  current_started : ∀ c i packet, accepts c i = true → current (started c i packet) = some (i, packet)
  getState_transmitEnd : ∀ c, getState c = .transmitting → getState (transmitEnd c) = .propagating
  getState_propagation : ∀ c, getState c = .propagating →
    getState (propagationCompleteEvent c) = .idle
  delivers_current : ∀ c m, getState c = .transmitting → current c = some m → ∀ j, delivers c j = [m]

/-- What device `i` hears of the channel in one event: nothing changes before its packet is accepted,
and then it asks no more. -/
def CsmaChannel.answer (C : CsmaChannel ι π σ) (c : σ) (i : ι) : ChannelAnswer :=
  ⟨C.getState c, C.accepts c i⟩

def Event.Hears (a : ChannelAnswer) : Event π → Prop
  | .sendFrom _ _ answers => answers = fun _ => a
  | .setSendEnable _ => True
  | .fire _ answers => answers = fun _ => a

/-! ## The medium -/

/-- `arriving` are the scheduled `Receive` calls of a device. The last two fields are records of the
past: what every device received, and what the channel carried to its end. -/
structure Medium (ι π σ : Type) where
  channel : σ
  device : ι → Device π
  arriving : ι → List (ι × π)
  received : ι → List (ι × π)
  carried : List (ι × π)

inductive MediumEvent (ι π : Type) where
  | device (i : ι) (e : Event π)
  | propagationComplete
  | receive (j : ι)

section
variable [DecidableEq ι]

/-- The calls on the channel are in the trace of the device: `phyTxBegin` after a `TransmitStart` that
returned true, `phyTxEnd` after `TransmitEnd`. -/
def Medium.call (C : CsmaChannel ι π σ) (i : ι) (s : Medium ι π σ) : Trace π → Medium ι π σ
  | .phyTxBegin packet => { s with channel := C.started s.channel i packet }
  | .phyTxEnd _ =>
      { s with
        channel := C.transmitEnd s.channel
        arriving := fun j => s.arriving j ++ C.delivers s.channel j
        carried := s.carried ++ (C.current s.channel).toList }
  | _ => s

/-- The medium after an event that took device `i` to `d`. -/
def Medium.after (C : CsmaChannel ι π σ) (s : Medium ι π σ) (i : ι) (d : Device π) : Medium ι π σ :=
  let calls := d.traced.drop (s.device i).traced.length
  { calls.foldl (Medium.call C i) s with device := Function.update s.device i d }

/-- A device receives in the order in which the channel delivers. -/
inductive MediumStep (C : CsmaChannel ι π σ) : Medium ι π σ → MediumEvent ι π → Medium ι π σ → Prop
  | device {s : Medium ι π σ} {i : ι} {e : Event π} {d : Device π} :
      Step (s.device i) e d → e.Hears (C.answer s.channel i) →
      MediumStep C s (.device i e) (s.after C i d)
  | propagationComplete {s : Medium ι π σ} : C.getState s.channel = .propagating →
      MediumStep C s .propagationComplete
        { s with channel := C.propagationCompleteEvent s.channel }
  | receive {s : Medium ι π σ} {j : ι} {m : ι × π} {rest : List (ι × π)} : s.arriving j = m :: rest →
      MediumStep C s (.receive j)
        { s with
          arriving := Function.update s.arriving j rest
          received := Function.update s.received j (s.received j ++ [m]) }

end

/-- Devices before their first packets, with any settings, on an idle channel. -/
def Medium.init (c : σ) (sendEnable : ι → Bool) (b : ι → Backoff) : Medium ι π σ where
  channel := c
  device i := attached (sendEnable i) (b i)
  arriving _ := []
  received _ := []
  carried := []

/-! ## What an event does to the channel -/

def Trace.onWire : Trace π → Bool
  | .phyTxBegin _ => true
  | .phyTxEnd _ => true
  | _ => false

def Trace.ends : Trace π → Option π
  | .phyTxEnd packet => some packet
  | _ => none

def Device.ended (d : Device π) : List π := d.traced.filterMap Trace.ends

/-- The packet on its way, if the device is transmitting. -/
def Device.onAir (d : Device π) : Option π :=
  if d.m_txMachineState = .busy then d.m_currentPkt else none

/-- An event leaves the channel alone, or puts a packet on it, or takes the packet off it. `t` is what
it traced. -/
inductive WireEffect (a : ChannelAnswer) (d : Device π) (t : List (Trace π)) (d' : Device π) : Prop
  | quiet : t.filter Trace.onWire = [] → d'.onAir = d.onAir →
      (d'.m_txMachineState = .busy ↔ d.m_txMachineState = .busy) → WireEffect a d t d'
  | begins (packet : π) : t.filter Trace.onWire = [.phyTxBegin packet] →
      d.m_txMachineState ≠ .busy → d'.m_txMachineState = .busy → d'.m_currentPkt = some packet →
      a.accepts = true → WireEffect a d t d'
  | ends (packet : π) : t.filter Trace.onWire = [.phyTxEnd packet] →
      d.m_txMachineState = .busy → d.m_currentPkt = some packet → d'.m_txMachineState = .gap →
      WireEffect a d t d'

theorem WireEffect.idle {a : ChannelAnswer} {d d' : Device π} {t : List (Trace π)}
    (ht : t.filter Trace.onWire = []) (hd : d.m_txMachineState ≠ .busy)
    (hd' : d'.m_txMachineState ≠ .busy) : WireEffect a d t d' := by
  refine .quiet ht ?_ (iff_of_false hd' hd)
  rw [Device.onAir, Device.onAir, if_neg hd', if_neg hd]

/-- Before a device that is not busy calls the channel, it may trace what it likes. -/
theorem WireEffect.prepend {a : ChannelAnswer} {d d₁ d' : Device π} {t₁ t : List (Trace π)}
    (h : WireEffect a d₁ t d') (ht₁ : t₁.filter Trace.onWire = []) (hd : d.m_txMachineState ≠ .busy)
    (hd₁ : d₁.m_txMachineState ≠ .busy) : WireEffect a d (t₁ ++ t) d' := by
  cases h with
  | quiet ht hair hbusy =>
    exact .idle (by rw [List.filter_append, ht₁, ht]; rfl) hd fun hd' => hd₁ (hbusy.mp hd')
  | begins packet ht _ hd' hcur hacc =>
    exact .begins packet (by rw [List.filter_append, ht₁, ht]; rfl) hd hd' hcur hacc
  | ends packet _ hbusy => exact absurd hbusy hd₁

theorem Starts.wire {a : ChannelAnswer} {answers : ℕ → ChannelAnswer} {d d' : Device π}
    (h : Starts answers d d') (ha : ∀ k, answers k = a) (hd : d.m_txMachineState ≠ .busy) :
    ∃ t, d'.traced = d.traced ++ t ∧ WireEffect a d t d' := by
  induction h with
  | disabled => exact ⟨_, rfl, .idle rfl hd hd⟩
  | backedOff => exact ⟨_, rfl, .idle rfl hd TxMachineState.noConfusion⟩
  | abortedLast => exact ⟨_, rfl, .idle rfl hd TxMachineState.noConfusion⟩
  | refused => exact ⟨_, rfl, .idle rfl hd TxMachineState.noConfusion⟩
  | @begun answers d packet hcur _ _ hacc =>
    rw [ha] at hacc
    exact ⟨_, rfl, .begins packet rfl hd rfl hcur hacc⟩
  | @aborted answers d d' packet next queue _ _ _ _ _ _ ih =>
    obtain ⟨t, ht, heffect⟩ := ih (fun k => ha (k + 1)) TxMachineState.noConfusion
    have hquiet : [Trace.phyTxDrop packet, .sniffer next, .promiscSniffer next].filter
        Trace.onWire = [] := rfl
    refine ⟨_, ?_, heffect.prepend hquiet hd TxMachineState.noConfusion⟩
    rw [ht]
    simp [Device.dequeue, Device.drop, Device.trace]

/-- `TransmitStart`, called on a packet that was just taken from the queue. -/
theorem transmitStart_wire {a : ChannelAnswer} {d d₁ d' : Device π} {packet : π} {t₁ : List (Trace π)}
    (hloaded : Loaded d₁ packet) (hd₁ : d₁.m_txMachineState ≠ .busy)
    (htraced : d₁.traced = d.traced ++ t₁) (ht₁ : t₁.filter Trace.onWire = [])
    (hd : d.m_txMachineState ≠ .busy) (h : transmitStart (fun _ => a) d₁ = .ok d') :
    ∃ t, d'.traced = d.traced ++ t ∧ WireEffect a d t d' := by
  obtain ⟨d'', hok, hstarts⟩ := transmitStart_total (fun _ => a) hloaded
  obtain rfl := Except.ok.inj (h.symm.trans hok)
  obtain ⟨t, ht, heffect⟩ := hstarts.wire (fun _ => rfl) hd₁
  exact ⟨t₁ ++ t, by rw [ht, htraced, List.append_assoc], heffect.prepend ht₁ hd hd₁⟩

theorem sendFrom_wire {a : ChannelAnswer} {d d' : Device π} (hd : Inv d) {packet : π} {enqueued : Bool}
    (h : handle (.sendFrom packet enqueued fun _ => a) d = .ok d') :
    ∃ t, d'.traced = d.traced ++ t ∧ WireEffect a d t d' := by
  rw [handle, sendFrom, if_neg (by rw [hd.linkUp]; exact Bool.noConfusion)] at h
  by_cases henable : d.m_sendEnable = false
  · rw [if_pos henable] at h
    obtain rfl := Except.ok.inj h
    exact ⟨_, rfl, .quiet rfl rfl Iff.rfl⟩
  rw [if_neg henable] at h
  simp only at h
  by_cases hfull : enqueued = false
  · rw [if_pos hfull] at h
    obtain rfl := Except.ok.inj h
    exact ⟨[.macTx packet, .macTxDrop packet], by simp [Device.trace], .quiet rfl rfl Iff.rfl⟩
  rw [if_neg hfull] at h
  by_cases hready : d.m_txMachineState = .ready
  · obtain ⟨next, queue, hnext⟩ := List.exists_cons_of_ne_nil
      (List.append_ne_nil_of_right_ne_nil d.m_queue (List.cons_ne_nil packet []))
    have hloaded : Loaded ((d.enqueue packet).dequeue next queue
        [.promiscSniffer next, .sniffer next]) next := hd.loaded_sent hready hnext rfl
    have hidle : d.m_txMachineState ≠ .busy := by simp [hready]
    have hstart : transmitStart (fun _ => a) ((d.enqueue packet).dequeue next queue
        [.promiscSniffer next, .sniffer next]) = .ok d' := by
      simp only [Device.trace, hready, if_true, hnext] at h
      simp only [Device.enqueue, Device.trace, hnext, hready] at h ⊢
      revert h
      cases transmitStart (fun _ => a) _ with
      | error e => exact fun h => by cases h
      | ok d'' => exact fun h => by rw [← Except.ok.inj h]
    have hquiet : [Trace.macTx packet, .promiscSniffer next, .sniffer next].filter
        Trace.onWire = [] := rfl
    refine transmitStart_wire hloaded hidle ?_ hquiet hidle hstart
    simp [Device.enqueue, Device.dequeue, Device.trace]
  · have hother : (d.trace [.macTx packet]).m_txMachineState ≠ .ready := hready
    simp only [Device.trace, hready, if_false] at h
    obtain rfl := Except.ok.inj h
    exact ⟨_, rfl, .quiet rfl rfl Iff.rfl⟩

theorem transmitReadyEvent_wire {a : ChannelAnswer} {d d' : Device π} (hd : Inv d)
    (hs : Step d (.fire .transmitReadyEvent fun _ => a) d') :
    ∃ t, d'.traced = d.traced ++ t ∧ WireEffect a d t d' := by
  cases hs.outcome hd with
  | idled hgap _ _ =>
    exact ⟨[], (List.append_nil _).symm, .idle rfl (by simp [hgap]) TxMachineState.noConfusion⟩
  | followed hgap hq _ _ =>
    obtain ⟨hcur, -⟩ : d.m_currentPkt = none ∧ d.scheduled = [.transmitReadyEvent] := by
      have hshape := hd.shape
      rwa [Shape, hgap] at hshape
    have hidle : d.m_txMachineState ≠ .busy := by simp [hgap]
    obtain ⟨hp, hok⟩ := hs
    obtain hsched : d.scheduled.erase .transmitReadyEvent = [] := by
      have hshape := hd.shape
      rw [Shape, hgap] at hshape
      simp [hshape.2]
    simp only [handle, handler, transmitReadyEvent, hgap, hcur, hq, hsched, ne_eq,
      not_true_eq_false, if_false] at hok
    exact transmitStart_wire (hd.loaded_followed hgap hcur hq rfl) TxMachineState.noConfusion rfl
      rfl hidle hok

theorem Step.wire {a : ChannelAnswer} {d d' : Device π} {e : Event π} (hd : Inv d)
    (hs : Step d e d') (he : e.Hears a) :
    ∃ t, d'.traced = d.traced ++ t ∧ WireEffect a d t d' := by
  cases e with
  | setSendEnable sendEnable =>
    obtain rfl := Except.ok.inj hs.2
    exact ⟨[], (List.append_nil _).symm, .quiet rfl rfl Iff.rfl⟩
  | sendFrom packet enqueued answers =>
    obtain rfl : answers = fun _ => a := he
    exact sendFrom_wire hd hs.2
  | fire e answers =>
    obtain rfl : answers = fun _ => a := he
    cases e with
    | transmitReadyEvent => exact transmitReadyEvent_wire hd hs
    | transmitStart =>
      cases hs.outcome hd with
      | retried hbackoff _ hstarts =>
        have hidle : d.m_txMachineState ≠ .busy := by simp [hbackoff]
        obtain ⟨t, ht, heffect⟩ := hstarts.wire (fun _ => rfl) hidle
        exact ⟨[] ++ t, ht, heffect.prepend rfl hidle hidle⟩
    | transmitCompleteEvent =>
      cases hs.outcome hd with
      | completed hbusy hcur => exact ⟨_, rfl, .ends _ rfl hbusy hcur rfl⟩

/-! ## What a step of the medium does -/

theorem Medium.foldl_call (C : CsmaChannel ι π σ) (i : ι) (t : List (Trace π)) (s : Medium ι π σ) :
    t.foldl (Medium.call C i) s = (t.filter Trace.onWire).foldl (Medium.call C i) s := by
  induction t generalizing s with
  | nil => rfl
  | cons a t ih =>
    cases a with
    | phyTxBegin packet | phyTxEnd packet => exact ih _
    | macTx packet | macTxDrop packet | macTxBackoff packet | phyTxDrop packet | sniffer packet
    | promiscSniffer packet => exact ih _

section
variable [DecidableEq ι]

theorem Medium.after_eq (C : CsmaChannel ι π σ) (s : Medium ι π σ) (i : ι) {d : Device π}
    {t : List (Trace π)} (ht : d.traced = (s.device i).traced ++ t) :
    s.after C i d = { (t.filter Trace.onWire).foldl (Medium.call C i) s with
      device := Function.update s.device i d } := by
  rw [Medium.after, ht, List.drop_left, Medium.foldl_call]

/-- The packets of device `i` among what the channel carried. -/
def sentBy (i : ι) (carried : List (ι × π)) : List π :=
  carried.filterMap fun m => if m.1 = i then some m.2 else none

structure MediumInv (C : CsmaChannel ι π σ) (s : Medium ι π σ) : Prop where
  device : ∀ i, Inv (s.device i)
  onAir : ∀ i packet, (s.device i).onAir = some packet ↔
    C.getState s.channel = .transmitting ∧ C.current s.channel = some (i, packet)
  current : C.getState s.channel = .transmitting → C.current s.channel ≠ none
  ended : ∀ i, sentBy i s.carried = (s.device i).ended
  begun : ∀ i, (s.device i).begun = (s.device i).ended ++ (s.device i).onAir.toList
  arrived : ∀ j, s.received j ++ s.arriving j = s.carried

end

/-! ## The invariant -/

theorem onAir_eq_some {d : Device π} {packet : π} :
    d.onAir = some packet ↔ d.m_txMachineState = .busy ∧ d.m_currentPkt = some packet := by
  rw [Device.onAir]
  split <;> simp [*]

theorem Inv.busy_iff {d : Device π} (h : Inv d) :
    d.m_txMachineState = .busy ↔ ∃ packet, d.onAir = some packet := by
  simp only [onAir_eq_some]
  refine ⟨fun hbusy => ?_, fun ⟨_, hbusy, _⟩ => hbusy⟩
  have hshape := h.shape
  rw [Shape, hbusy] at hshape
  obtain ⟨packet, hcur⟩ := Option.ne_none_iff_exists'.mp hshape.1
  exact ⟨packet, hbusy, hcur⟩

theorem filterMap_onWire {f : Trace π → Option π} (hf : ∀ a, Trace.onWire a = false → f a = none)
    (t : List (Trace π)) : (t.filter Trace.onWire).filterMap f = t.filterMap f := by
  induction t with
  | nil => rfl
  | cons a t ih =>
    cases ha : Trace.onWire a with
    | false => rw [List.filter_cons_of_neg (by simp [ha]), List.filterMap_cons_none (hf a ha), ih]
    | true => rw [List.filter_cons_of_pos ha, List.filterMap_cons, List.filterMap_cons, ih]

theorem ended_append {d d' : Device π} {t : List (Trace π)} (ht : d'.traced = d.traced ++ t) :
    d'.ended = d.ended ++ (t.filter Trace.onWire).filterMap Trace.ends := by
  rw [Device.ended, ht, List.filterMap_append, filterMap_onWire]
  · rfl
  · rintro (_ | _ | _ | _ | _ | _ | _ | _) h <;> first | rfl | cases h

theorem begun_append {d d' : Device π} {t : List (Trace π)} (ht : d'.traced = d.traced ++ t) :
    d'.begun = d.begun ++ (t.filter Trace.onWire).filterMap Trace.begins := by
  rw [Device.begun, ht, List.filterMap_append, filterMap_onWire]
  · rfl
  · rintro (_ | _ | _ | _ | _ | _ | _ | _) h <;> first | rfl | cases h

section
variable [DecidableEq ι] {C : CsmaChannel ι π σ} {s : Medium ι π σ}

theorem mediumInv_init {c : σ} (hc : C.getState c = .idle) (sendEnable : ι → Bool) (b : ι → Backoff) :
    MediumInv C (Medium.init c sendEnable b : Medium ι π σ) where
  device i := inv_attached (sendEnable i) (b i)
  onAir i packet := by simp [Medium.init, attached, Device.onAir, hc]
  current h := by simp [Medium.init, hc] at h
  ended i := rfl
  begun i := rfl
  arrived j := rfl

/-- A device that is not busy when the channel is not transmitting, and the one it transmits for. -/
theorem MediumInv.not_transmitting (h : MediumInv C s) {i : ι}
    (hidle : C.getState s.channel ≠ .transmitting) : (s.device i).onAir = none := by
  cases hair : (s.device i).onAir with
  | none => rfl
  | some packet => exact absurd ((h.onAir i packet).mp hair).1 hidle

theorem MediumInv.others_idle (h : MediumInv C s) {i j : ι} {packet : π}
    (hair : (s.device i).onAir = some packet) (hne : j ≠ i) : (s.device j).onAir = none := by
  cases hother : (s.device j).onAir with
  | none => rfl
  | some packet' =>
    have hi := ((h.onAir i packet).mp hair).2
    have hj := ((h.onAir j packet').mp hother).2
    rw [hi, Option.some.injEq, Prod.mk.injEq] at hj
    exact absurd hj.1.symm hne

theorem MediumInv.quiet (h : MediumInv C s) {i : ι} {d : Device π} {t : List (Trace π)} (hd : Inv d)
    (ht : d.traced = (s.device i).traced ++ t) (hwire : t.filter Trace.onWire = [])
    (hair : d.onAir = (s.device i).onAir) :
    MediumInv C { s with device := Function.update s.device i d } := by
  have hended : d.ended = (s.device i).ended := by
    rw [ended_append ht, hwire, List.filterMap_nil, List.append_nil]
  have hbegun : d.begun = (s.device i).begun := by
    rw [begun_append ht, hwire, List.filterMap_nil, List.append_nil]
  refine ⟨?_, ?_, h.current, ?_, ?_, h.arrived⟩ <;> intro j <;> by_cases hj : j = i
  · simpa [hj] using hd
  · simpa [hj] using h.device j
  · simpa [hj, hair] using h.onAir i
  · simpa [hj] using h.onAir j
  · subst hj
    simpa [hended] using h.ended j
  · simpa [hj] using h.ended j
  · subst hj
    simpa [hbegun, hended, hair] using h.begun j
  · simpa [hj] using h.begun j

theorem MediumInv.begins (h : MediumInv C s) {i : ι} {d : Device π} {t : List (Trace π)} {packet : π}
    (hd : Inv d) (ht : d.traced = (s.device i).traced ++ t)
    (hwire : t.filter Trace.onWire = [.phyTxBegin packet])
    (hair : d.onAir = some packet) (hacc : C.accepts s.channel i = true) :
    MediumInv C { s with
      channel := C.started s.channel i packet
      device := Function.update s.device i d } := by
  have hidle : C.getState s.channel ≠ .transmitting := by
    simp [C.idle_of_accepts s.channel i hacc]
  have hended : d.ended = (s.device i).ended := by
    rw [ended_append ht, hwire]
    exact List.append_nil _
  have hbegun : d.begun = (s.device i).begun ++ [packet] := by
    rw [begun_append ht, hwire]
    rfl
  refine ⟨?_, ?_, ?_, ?_, ?_, h.arrived⟩
  · intro j
    by_cases hj : j = i
    · simpa [hj] using hd
    · simpa [hj] using h.device j
  · intro j packet'
    simp only [C.getState_started s.channel i packet hacc, C.current_started s.channel i packet hacc,
      true_and, Option.some.injEq, Prod.mk.injEq]
    by_cases hj : j = i
    · simp [hj, hair]
    · simp [hj, h.not_transmitting hidle, Ne.symm hj]
  · rw [C.current_started s.channel i packet hacc]
    exact fun _ => Option.some_ne_none _
  · intro j
    by_cases hj : j = i
    · subst hj
      simpa [hended] using h.ended j
    · simpa [hj] using h.ended j
  · intro j
    by_cases hj : j = i
    · subst hj
      simp [hbegun, hended, hair, h.begun j, h.not_transmitting hidle]
    · simpa [hj] using h.begun j

theorem MediumInv.ends (h : MediumInv C s) {i : ι} {d : Device π} {t : List (Trace π)} {packet : π}
    (hd : Inv d) (ht : d.traced = (s.device i).traced ++ t)
    (hwire : t.filter Trace.onWire = [.phyTxEnd packet])
    (hair : (s.device i).onAir = some packet) (hair' : d.onAir = none) :
    MediumInv C { s with
      channel := C.transmitEnd s.channel
      device := Function.update s.device i d
      arriving := fun j => s.arriving j ++ [(i, packet)]
      carried := s.carried ++ [(i, packet)] } := by
  obtain ⟨hbusy, hcurrent⟩ := (h.onAir i packet).mp hair
  have hended : d.ended = (s.device i).ended ++ [packet] := by
    rw [ended_append ht, hwire]
    rfl
  have hbegun : d.begun = (s.device i).begun := by
    rw [begun_append ht, hwire]
    exact List.append_nil _
  have hstate : C.getState (C.transmitEnd s.channel) ≠ .transmitting := by
    simp [C.getState_transmitEnd s.channel hbusy]
  refine ⟨?_, ?_, fun hbusy => absurd hbusy hstate, ?_, ?_, ?_⟩
  · intro j
    by_cases hj : j = i
    · simpa [hj] using hd
    · simpa [hj] using h.device j
  · intro j packet'
    refine iff_of_false ?_ fun hbusy => hstate hbusy.1
    by_cases hj : j = i
    · simp [hj, hair']
    · simp [hj, h.others_idle hair hj]
  · intro j
    have hold := h.ended j
    rw [sentBy] at hold ⊢
    rw [List.filterMap_append, hold]
    by_cases hj : j = i
    · subst hj
      simp [hended]
    · simp [hj, Ne.symm hj]
  · intro j
    by_cases hj : j = i
    · subst hj
      simp [hended, hbegun, hair', h.begun j, hair]
    · simpa [hj] using h.begun j
  · intro j
    rw [← List.append_assoc, h.arrived j]

theorem MediumStep.inv {e : MediumEvent ι π} {s' : Medium ι π σ} (h : MediumInv C s)
    (hs : MediumStep C s e s') : MediumInv C s' := by
  cases hs with
  | @device i e d hstep hhears =>
    have hd : Inv d := (hstep.outcome (h.device i)).inv (h.device i)
    obtain ⟨t, ht, heffect⟩ := hstep.wire (h.device i) hhears
    rw [Medium.after_eq C s i ht]
    cases heffect with
    | quiet hwire hair _ =>
      rw [hwire]
      exact h.quiet hd ht hwire hair
    | begins packet hwire _ hbusy hcur hacc =>
      rw [hwire]
      exact h.begins hd ht hwire (onAir_eq_some.mpr ⟨hbusy, hcur⟩) hacc
    | ends packet hwire hbusy hcur hgap =>
      have hair := onAir_eq_some.mpr ⟨hbusy, hcur⟩
      have hair' : d.onAir = none := by simp [Device.onAir, hgap]
      obtain ⟨hstate, hcurrent⟩ := (h.onAir i packet).mp hair
      have hdelivers := C.delivers_current s.channel (i, packet) hstate hcurrent
      rw [hwire]
      simpa [Medium.call, hcurrent, hdelivers] using h.ends hd ht hwire hair hair'
  | propagationComplete hstate =>
    have hidle := C.getState_propagation s.channel hstate
    have hquiet : C.getState s.channel ≠ .transmitting := by simp [hstate]
    refine ⟨h.device, fun i packet => ?_, fun hbusy => ?_, h.ended, h.begun, h.arrived⟩
    · simp [h.not_transmitting hquiet, hidle]
    · simp [hidle] at hbusy
  | @receive j m rest harriving =>
    refine ⟨h.device, h.onAir, h.current, h.ended, h.begun, fun k => ?_⟩
    by_cases hk : k = j
    · subst hk
      simp only [Function.update_self]
      rw [List.append_assoc, List.singleton_append, ← harriving, h.arrived k]
    · simpa [hk] using h.arrived k

theorem mediumRun_inv {c : σ} (hc : C.getState c = .idle) {sendEnable : ι → Bool} {b : ι → Backoff}
    {past : List (Medium ι π σ × MediumEvent ι π)}
    (h : Run (MediumStep C) (Medium.init c sendEnable b) past s) : MediumInv C s :=
  h.invariant (mediumInv_init hc sendEnable b) fun _ _ _ hs hstep => hstep.inv hs

/-- A device that is to complete a transmission is the one the channel transmits for, so its assertion
on the channel holds. -/
theorem MediumInv.handled (h : MediumInv C s) {i : ι} {e : Event π} (hp : Possible (s.device i) e)
    (hhears : e.Hears (C.answer s.channel i)) : ∃ d, handle e (s.device i) = .ok d := by
  cases e with
  | sendFrom packet enqueued answers =>
    obtain ⟨d, hok, -⟩ := sendFrom_outcome (h.device i) packet enqueued answers
    exact ⟨d, hok⟩
  | setSendEnable sendEnable => exact ⟨_, rfl⟩
  | fire e answers =>
    cases e with
    | transmitStart =>
      obtain ⟨d, hok, -⟩ := transmitStart_outcome (h.device i) answers hp
      exact ⟨d, hok⟩
    | transmitReadyEvent =>
      obtain ⟨d, hok, -⟩ := transmitReadyEvent_outcome (h.device i) answers hp
      exact ⟨d, hok⟩
    | transmitCompleteEvent =>
      obtain ⟨d, hok, -⟩ | herr := transmitCompleteEvent_outcome (h.device i) answers hp
      · exact ⟨d, hok⟩
      · obtain rfl : answers = fun _ => C.answer s.channel i := hhears
        simp only [handle, handler, transmitCompleteEvent] at herr
        split at herr
        · cases herr
        · rename_i hbusy
          obtain ⟨packet, hair⟩ := (h.device i).busy_iff.mp (not_not.mp hbusy)
          have hstate : (C.answer s.channel i).state = .transmitting :=
            ((h.onAir i packet).mp hair).1
          rw [if_neg (not_not.mpr hstate), (onAir_eq_some.mp hair).2] at herr
          cases herr

/-! ## In every run -/

/-- However many devices share the channel and however their events interleave: at most one is busy,
the channel transmits exactly when one is, and it carries the packet in the `m_currentPkt` of the busy
device. No assertion of any device fails at whichever event comes next, that on the state of the
channel included. -/
theorem medium_exclusive {c : σ} (hc : C.getState c = .idle) {sendEnable : ι → Bool}
    {b : ι → Backoff} {past : List (Medium ι π σ × MediumEvent ι π)}
    (h : Run (MediumStep C) (Medium.init c sendEnable b) past s) :
    (∀ i j, (s.device i).m_txMachineState = .busy → (s.device j).m_txMachineState = .busy → i = j) ∧
    (C.getState s.channel = .transmitting ↔ ∃ i, (s.device i).m_txMachineState = .busy) ∧
    (∀ i, (s.device i).m_txMachineState = .busy → ∃ packet,
      C.current s.channel = some (i, packet) ∧ (s.device i).m_currentPkt = some packet) ∧
    ∀ i e, Possible (s.device i) e → e.Hears (C.answer s.channel i) →
      ∃ d, handle e (s.device i) = .ok d := by
  have hinv := mediumRun_inv hc h
  refine ⟨fun i j hi hj => ?_, ⟨fun hbusy => ?_, ?_⟩, fun i hi => ?_,
    fun i e hp hhears => hinv.handled hp hhears⟩
  · obtain ⟨packet, hair⟩ := (hinv.device i).busy_iff.mp hi
    obtain ⟨packet', hair'⟩ := (hinv.device j).busy_iff.mp hj
    by_contra hne
    rw [hinv.others_idle hair (Ne.symm hne)] at hair'
    cases hair'
  · obtain ⟨⟨i, packet⟩, hcurrent⟩ := Option.ne_none_iff_exists'.mp (hinv.current hbusy)
    exact ⟨i, (onAir_eq_some.mp ((hinv.onAir i packet).mpr ⟨hbusy, hcurrent⟩)).1⟩
  · rintro ⟨i, hi⟩
    obtain ⟨packet, hair⟩ := (hinv.device i).busy_iff.mp hi
    exact ((hinv.onAir i packet).mp hair).1
  · obtain ⟨packet, hair⟩ := (hinv.device i).busy_iff.mp hi
    exact ⟨packet, ((hinv.onAir i packet).mp hair).2, (onAir_eq_some.mp hair).2⟩

/-- However the events interleave, every device gets every packet that the channel carried, once and in
the same order. Of each device these are the packets it began, in the order in which its queue
accepted them, all but the one it still transmits. -/
theorem medium_delivers {c : σ} (hc : C.getState c = .idle) {sendEnable : ι → Bool}
    {b : ι → Backoff} {past : List (Medium ι π σ × MediumEvent ι π)}
    (h : Run (MediumStep C) (Medium.init c sendEnable b) past s) :
    (∀ j, s.received j ++ s.arriving j = s.carried) ∧
    ∀ i, (s.device i).begun = sentBy i s.carried ++ (s.device i).onAir.toList ∧
      (s.device i).begun.Sublist (s.device i).accepted := by
  have hinv := mediumRun_inv hc h
  refine ⟨hinv.arrived, fun i => ⟨?_, ?_⟩⟩
  · rw [hinv.ended i]
    exact hinv.begun i
  · have horder := (hinv.device i).conserved.order
    rw [List.append_assoc] at horder
    exact (List.sublist_append_left _ _).trans horder

end

/-! ## Two devices -/

/-- The channel of the simulator, with all its devices active. -/
def sharedChannel : CsmaChannel ι π (WireState × Option (ι × π)) where
  getState c := c.1
  accepts c _ := c.1 = .idle
  started _ i packet := (.transmitting, some (i, packet))
  transmitEnd c := if c.1 = .transmitting then (.propagating, c.2) else c
  propagationCompleteEvent c := if c.1 = .propagating then (.idle, c.2) else c
  current c := c.2
  delivers c _ := c.2.toList
  idle_of_accepts _ _ h := of_decide_eq_true h
  getState_started _ _ _ _ := rfl
  current_started _ _ _ _ := rfl
  getState_transmitEnd c h := by rw [if_pos h]
  getState_propagation c h := by rw [if_pos h]
  delivers_current c m _ h _ := by rw [h]; rfl

section
variable (packet : π)

/-- A device that put its first packet on the channel, and the same after the transmission. -/
def transmitting : Device π where
  m_linkUp := true
  m_sendEnable := true
  m_txMachineState := .busy
  m_currentPkt := some packet
  m_queue := []
  m_backoff := .standard
  scheduled := [.transmitCompleteEvent]
  traced := [.macTx packet, .promiscSniffer packet, .sniffer packet, .phyTxBegin packet]
  accepted := [packet]

def transmitted : Device π :=
  { transmitting packet with
    m_txMachineState := .gap
    m_currentPkt := none
    scheduled := [.transmitReadyEvent]
    traced := [.macTx packet, .promiscSniffer packet, .sniffer packet, .phyTxBegin packet,
      .phyTxEnd packet] }

def twoDevices : Medium Bool π (WireState × Option (Bool × π)) :=
  .init (.idle, none) (fun _ => true) fun _ => .standard

def packetOnAir : Medium Bool π (WireState × Option (Bool × π)) :=
  twoDevices.after sharedChannel true (transmitting packet)

def packetArriving : Medium Bool π (WireState × Option (Bool × π)) :=
  (packetOnAir packet).after sharedChannel true (transmitted packet)

theorem run_packetOnAir : Run (MediumStep sharedChannel) twoDevices
    [(twoDevices, .device true (.sendFrom packet true idleChannel))] (packetOnAir packet) := by
  have hstep : Step (twoDevices.device true) (.sendFrom packet true idleChannel)
      (transmitting packet) := ⟨trivial, rfl⟩
  exact .next .start (.device hstep rfl)

theorem run_packetArriving : Run (MediumStep sharedChannel) twoDevices
    [(packetOnAir packet, .device true (.fire .transmitCompleteEvent busyChannel)),
      (twoDevices, .device true (.sendFrom packet true idleChannel))] (packetArriving packet) := by
  have hstep : Step ((packetOnAir packet).device true) (.fire .transmitCompleteEvent busyChannel)
      (transmitted packet) := ⟨List.mem_singleton.mpr rfl, rfl⟩
  exact (run_packetOnAir packet).next (.device hstep rfl)

end

/-! ## Both send -/

/-- The other device has a packet too, finds the channel busy and backs off. -/
def contended : Medium Bool ℕ (WireState × Option (Bool × ℕ)) :=
  (packetOnAir 8).after sharedChannel false backedOffDevice

/-- It tries again when the first packet is through. -/
def retriedAlone : Device ℕ :=
  { backedOffDevice with
    m_txMachineState := .busy
    m_backoff := .standard
    scheduled := [.transmitCompleteEvent]
    traced := backedOffDevice.traced ++ [.phyTxBegin 7] }

def completedAlone : Device ℕ :=
  { retriedAlone with
    m_txMachineState := .gap
    m_currentPkt := none
    scheduled := [.transmitReadyEvent]
    traced := retriedAlone.traced ++ [.phyTxEnd 7] }

def firstSent : Medium Bool ℕ (WireState × Option (Bool × ℕ)) :=
  contended.after sharedChannel true (transmitted 8)

def firstPropagated : Medium Bool ℕ (WireState × Option (Bool × ℕ)) :=
  { firstSent with channel := (.idle, some (true, 8)) }

def secondOnAir : Medium Bool ℕ (WireState × Option (Bool × ℕ)) :=
  firstPropagated.after sharedChannel false retriedAlone

def bothSent : Medium Bool ℕ (WireState × Option (Bool × ℕ)) :=
  secondOnAir.after sharedChannel false completedAlone

def contention : List (Medium Bool ℕ (WireState × Option (Bool × ℕ)) × MediumEvent Bool ℕ) :=
  [(packetOnAir 8, .device false (.sendFrom 7 true busyChannel)),
    (twoDevices, .device true (.sendFrom 8 true idleChannel))]

def bothSends : List (Medium Bool ℕ (WireState × Option (Bool × ℕ)) × MediumEvent Bool ℕ) :=
  [(secondOnAir, .device false (.fire .transmitCompleteEvent busyChannel)),
    (firstPropagated, .device false (.fire .transmitStart idleChannel)),
    (firstSent, .propagationComplete),
    (contended, .device true (.fire .transmitCompleteEvent busyChannel))] ++ contention

theorem run_contended : Run (MediumStep sharedChannel) twoDevices contention contended := by
  have hstep : Step ((packetOnAir 8).device false) (.sendFrom 7 true busyChannel)
      backedOffDevice := ⟨trivial, rfl⟩
  exact (run_packetOnAir 8).next (.device hstep rfl)

theorem run_bothSent : Run (MediumStep sharedChannel) twoDevices bothSends bothSent := by
  have hfirst : Step (contended.device true) (.fire .transmitCompleteEvent busyChannel)
      (transmitted 8) := ⟨List.mem_singleton.mpr rfl, rfl⟩
  have hretry : Step (firstPropagated.device false) (.fire .transmitStart idleChannel)
      retriedAlone := ⟨List.mem_singleton.mpr rfl, rfl⟩
  have hsecond : Step (secondOnAir.device false) (.fire .transmitCompleteEvent busyChannel)
      completedAlone := ⟨List.mem_singleton.mpr rfl, rfl⟩
  have hsent := Run.next (t := firstSent) run_contended (.device hfirst rfl)
  have hpropagated := Run.next (t := firstPropagated) hsent (.propagationComplete rfl)
  have hretried := Run.next (t := secondOnAir) hpropagated (.device hretry rfl)
  exact Run.next (t := bothSent) hretried (.device hsecond rfl)

theorem exclusive_contended :
    (∀ i j, (contended.device i).m_txMachineState = .busy →
      (contended.device j).m_txMachineState = .busy → i = j) ∧
    (sharedChannel.getState contended.channel = .transmitting ↔
      ∃ i, (contended.device i).m_txMachineState = .busy) ∧
    (∀ i, (contended.device i).m_txMachineState = .busy → ∃ packet,
      sharedChannel.current contended.channel = some (i, packet) ∧
        (contended.device i).m_currentPkt = some packet) ∧
    ∀ i e, Possible (contended.device i) e → e.Hears (sharedChannel.answer contended.channel i) →
      ∃ d, handle e (contended.device i) = .ok d :=
  medium_exclusive rfl run_contended

theorem delivers_bothSent :
    (∀ j, bothSent.received j ++ bothSent.arriving j = [(true, 8), (false, 7)]) ∧
    ∀ i, (bothSent.device i).begun =
        sentBy i [(true, 8), (false, 7)] ++ (bothSent.device i).onAir.toList ∧
      (bothSent.device i).begun.Sublist (bothSent.device i).accepted :=
  medium_delivers rfl run_bothSent

end ComputerNetworks.CsmaDevice
