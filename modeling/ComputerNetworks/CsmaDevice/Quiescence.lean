import ComputerNetworks.CsmaDevice.Medium
import ComputerNetworks.CsmaDevice.Retries

/-! # The network comes to rest

A packet in backoff schedules itself again, and on a busy channel so do many. `medium_comes_to_rest`
bounds the events that the simulator fires by the packets accepted, whatever the channel answers and
whatever `m_numBackoffRetries` was at first: the retries that are counted may belong to another packet,
but a packet is never backed off more often than the counter says. `medium_at_rest` says what has
happened when no event is left.
-/
namespace ComputerNetworks.CsmaDevice
open Runs
set_option autoImplicit false

variable {ι π σ : Type}

/-! ## What is still to fire -/

/-- The events that a packet in the queue can cause: a `TransmitStart` for each retry,
`TransmitCompleteEvent`, `TransmitReadyEvent`, and `others` outside the device after the second. -/
def Backoff.events (b : Backoff) (others : ℕ) : ℕ := b.m_maxRetries.toNat + 2 + others

def Device.currentEvents (d : Device π) (others : ℕ) : ℕ :=
  match d.m_txMachineState with
  | .ready => 0
  | .busy => 2 + others
  | .gap => 1
  | .backoff => if d.m_currentPkt.isSome then d.m_backoff.events others + 1 - d.backoffs else 0

def Device.eventsLeft (d : Device π) (others : ℕ) : ℕ :=
  d.m_queue.length * d.m_backoff.events others + d.currentEvents others

def Event.cost (others : ℕ) : Event π → ℕ
  | .sendFrom _ _ _ => 0
  | .setSendEnable _ => 0
  | .fire .transmitCompleteEvent _ => 1 + others
  | .fire _ _ => 1

/-- At a call of `TransmitStart`. -/
structure CountsEnough (d : Device π) : Prop where
  counted : d.backoffs ≤ d.m_backoff.m_numBackoffRetries.toNat
  limited : d.backoffs ≤ d.m_backoff.m_maxRetries.toNat

/-- Between two events. -/
def BacksOffWithin (d : Device π) : Prop :=
  d.m_txMachineState = .backoff → d.m_currentPkt ≠ none → CountsEnough d

/-- What the calls of `TransmitStart` that began in `d` leave to do in `d'`. -/
structure Spends (d d' : Device π) (others : ℕ) : Prop where
  within : BacksOffWithin d'
  maxRetries : d'.m_backoff.m_maxRetries = d.m_backoff.m_maxRetries
  accepted : d'.accepted = d.accepted
  left : d.backoffs + d'.eventsLeft others ≤ (d.m_queue.length + 1) * d.m_backoff.events others

section
variable {d : Device π}

theorem eventsLeft_of_ready (h : d.m_txMachineState = .ready) (others : ℕ) :
    d.eventsLeft others = d.m_queue.length * d.m_backoff.events others := by
  rw [Device.eventsLeft, Device.currentEvents, h]
  rfl

theorem eventsLeft_of_busy (h : d.m_txMachineState = .busy) (others : ℕ) :
    d.eventsLeft others = d.m_queue.length * d.m_backoff.events others + (2 + others) := by
  rw [Device.eventsLeft, Device.currentEvents, h]

theorem eventsLeft_of_gap (h : d.m_txMachineState = .gap) (others : ℕ) :
    d.eventsLeft others = d.m_queue.length * d.m_backoff.events others + 1 := by
  rw [Device.eventsLeft, Device.currentEvents, h]

theorem eventsLeft_of_backoff (h : d.m_txMachineState = .backoff) {packet : π}
    (hcur : d.m_currentPkt = some packet) (others : ℕ) :
    d.eventsLeft others = d.m_queue.length * d.m_backoff.events others +
      (d.m_backoff.events others + 1 - d.backoffs) := by
  rw [Device.eventsLeft, Device.currentEvents, h, hcur]
  rfl

end

theorem countsEnough_of_zero {d : Device π} (h : d.backoffs = 0) : CountsEnough d := by
  refine ⟨?_, ?_⟩ <;>
  · rw [h]
    exact Nat.zero_le _

theorem countsEnough_dequeue (d : Device π) (next : π) (queue : List π) :
    CountsEnough (d.dequeue next queue [.sniffer next, .promiscSniffer next]) :=
  countsEnough_of_zero (backoffs_dequeue d next queue)

/-! ## One call of `TransmitStart` -/

theorem toNat_incrNumRetries {b : Backoff} (h : b.maxRetriesReached = false) :
    b.incrNumRetries.m_numBackoffRetries.toNat = b.m_numBackoffRetries.toNat + 1 ∧
      b.m_numBackoffRetries.toNat < b.m_maxRetries.toNat := by
  have hless : b.m_numBackoffRetries.toNat < b.m_maxRetries.toNat := by
    rw [← UInt32.lt_iff_toNat_lt, ← UInt32.not_le]
    exact of_decide_eq_false h
  refine ⟨?_, hless⟩
  have hbound := b.m_maxRetries.toNat_lt
  rw [Backoff.incrNumRetries, UInt32.toNat_add]
  exact Nat.mod_eq_of_lt (by simp; omega)

theorem events_congr {b b' : Backoff} (h : b'.m_maxRetries = b.m_maxRetries) (others : ℕ) :
    b'.events others = b.events others := by
  rw [Backoff.events, Backoff.events, h]

/-- A call that ends with the packet it was made for. -/
theorem spends_of_current {d d' : Device π} {others : ℕ} (hwithin : BacksOffWithin d')
    (hretries : d'.m_backoff.m_maxRetries = d.m_backoff.m_maxRetries)
    (hacc : d'.accepted = d.accepted) (hq : d'.m_queue = d.m_queue)
    (hleft : d.backoffs + d'.currentEvents others ≤ d.m_backoff.events others) :
    Spends d d' others := by
  refine ⟨hwithin, hretries, hacc, ?_⟩
  rw [Device.eventsLeft, hq, events_congr hretries, Nat.succ_mul]
  omega

theorem CountsEnough.le_events {d : Device π} (h : CountsEnough d) (others : ℕ) :
    d.backoffs + (2 + others) ≤ d.m_backoff.events others := by
  have hlimited := h.limited
  rw [Backoff.events]
  omega

theorem Starts.spends {answers : ℕ → ChannelAnswer} {d d' : Device π} (hs : Starts answers d d')
    (others : ℕ) {packet : π} (hl : Loaded d packet) (hc : CountsEnough d) : Spends d d' others := by
  have hle := hc.le_events others
  induction hs generalizing packet with
  | @disabled answers d packet' hcur hdis =>
    refine spends_of_current (fun _ hnone => absurd rfl hnone) rfl rfl rfl ?_
    have hnone : (d.drop packet').currentEvents others = 0 := by
      obtain hready | hback := hl.state <;> simp [Device.currentEvents, Device.drop, Device.trace, *]
    rw [hnone]
    omega
  | @backedOff answers d packet' hcur hen hbusy hmax =>
    obtain ⟨hincr, hless⟩ := toNat_incrNumRetries hmax
    have hback : backoffs (d.traced ++ [.macTxBackoff packet']) = d.backoffs + 1 :=
      backoffs_macTxBackoff d.traced packet'
    have hcounted := hc.counted
    refine spends_of_current (fun _ _ => ⟨?_, ?_⟩) rfl rfl rfl ?_
    · show backoffs (d.traced ++ [.macTxBackoff packet']) ≤
        d.m_backoff.incrNumRetries.m_numBackoffRetries.toNat
      omega
    · show backoffs (d.traced ++ [.macTxBackoff packet']) ≤ d.m_backoff.m_maxRetries.toNat
      omega
    · show d.backoffs + (if d.m_currentPkt.isSome then
          d.m_backoff.events others + 1 - backoffs (d.traced ++ [.macTxBackoff packet'])
        else 0) ≤ _
      rw [hcur, if_pos Option.isSome_some, hback]
      omega
  | abortedLast _ _ _ _ _ =>
    exact spends_of_current (fun _ hnone => absurd rfl hnone) rfl rfl rfl (by
      show _ + 0 ≤ _
      omega)
  | @aborted answers d d' packet' next queue hcur hen hbusy hmax hq _ ih =>
    obtain rfl := Option.some.inj (hcur.symm.trans hl.current)
    obtain ⟨hwithin, hretries, hacc, hleft⟩ := ih (hl.aborted hq _ _ rfl)
      (countsEnough_dequeue _ _ _) ((countsEnough_dequeue _ _ _).le_events others)
    refine ⟨hwithin, hretries, hacc, ?_⟩
    rw [backoffs_dequeue, Nat.zero_add] at hleft
    have hrest : d'.eventsLeft others ≤ (queue.length + 1) * d.m_backoff.events others := hleft
    rw [hq, List.length_cons, Nat.succ_mul]
    omega
  | refused _ _ _ _ =>
    exact spends_of_current (fun _ hnone => absurd rfl hnone) rfl rfl rfl (by
      show _ + 0 ≤ _
      omega)
  | begun _ _ _ _ =>
    exact spends_of_current (fun h => absurd h TxMachineState.noConfusion) rfl rfl rfl hle

/-! ## One event of a device -/

/-- What the event costs, and what it leaves to do, was left to do before or came with a packet. -/
structure Pays (d : Device π) (e : Event π) (d' : Device π) (others : ℕ) : Prop where
  within : BacksOffWithin d'
  maxRetries : d'.m_backoff.m_maxRetries = d.m_backoff.m_maxRetries
  left : e.cost others + d'.eventsLeft others + d.accepted.length * d.m_backoff.events others ≤
    d.eventsLeft others + d'.accepted.length * d.m_backoff.events others

theorem Entry.countsEnough {d s : Device π} {e : Event π} {answers : ℕ → ChannelAnswer} (hd : Inv d)
    (hw : BacksOffWithin d) (h : Entry d e answers s) : CountsEnough s := by
  obtain ⟨packet, hl⟩ := h.loaded hd
  cases h with
  | sendFrom _ _ _ _ => exact countsEnough_of_zero (backoffs_dequeue_sent _ _ _)
  | ready _ _ _ _ => exact countsEnough_dequeue _ _ _
  | retry hsched =>
    have hcur : d.m_currentPkt = some packet := hl.current
    obtain ⟨hcounted, hlimited⟩ := hw (hd.backoff_of_scheduled hsched) (by simp [hcur])
    exact ⟨hcounted, hlimited⟩

theorem Entry.pays {d d' s : Device π} {e : Event π} {answers : ℕ → ChannelAnswer} (hd : Inv d)
    (hw : BacksOffWithin d) (h : Entry d e answers s) (hstep : Step d e d') (others : ℕ) :
    Pays d e d' others := by
  obtain ⟨packet, hl⟩ := h.loaded hd
  have hcount := h.countsEnough hd hw
  obtain ⟨hwithin, hretries, hacc, hleft⟩ := (h.starts hd hstep).spends others hl hcount
  cases h with
  | @sendFrom packet' next queue _ _ _ hready hnext =>
    refine ⟨hwithin, hretries, ?_⟩
    have hlen : queue.length = d.m_queue.length := by
      have hlength := congrArg List.length hnext
      simp only [List.length_append, List.length_cons, List.length_nil] at hlength
      omega
    have hacc' : d'.accepted.length = d.accepted.length + 1 := by
      rw [hacc]
      exact List.length_append
    have hleft' : _ + d'.eventsLeft others ≤ (queue.length + 1) * d.m_backoff.events others := hleft
    rw [hlen, Nat.succ_mul] at hleft'
    rw [hacc', Nat.succ_mul, eventsLeft_of_ready hready]
    show 0 + _ + _ ≤ _
    omega
  | retry hsched =>
    refine ⟨hwithin, hretries, ?_⟩
    have hcur : d.m_currentPkt = some packet := hl.current
    have hlim := hcount.le_events others
    have hleft' : d.backoffs + d'.eventsLeft others ≤
        (d.m_queue.length + 1) * d.m_backoff.events others := hleft
    have hlim' : d.backoffs + (2 + others) ≤ d.m_backoff.events others := hlim
    rw [Nat.succ_mul] at hleft'
    have hacc' : d'.accepted = d.accepted := hacc
    rw [hacc', eventsLeft_of_backoff (hd.backoff_of_scheduled hsched) hcur]
    show 1 + _ + _ ≤ _
    omega
  | @ready next queue _ hsched hgap hcur hq =>
    refine ⟨hwithin, hretries, ?_⟩
    have hleft' : _ + d'.eventsLeft others ≤ (queue.length + 1) * d.m_backoff.events others := hleft
    have hacc' : d'.accepted = d.accepted := hacc
    rw [hacc', eventsLeft_of_gap hgap, hq, List.length_cons]
    show 1 + _ + _ ≤ _
    omega

/-- An event that does not touch the current packet. -/
theorem pays_aside {d d' : Device π} {e : Event π} {others : ℕ} (hw : BacksOffWithin d)
    (hstate : d'.m_txMachineState = d.m_txMachineState) (hcur : d'.m_currentPkt = d.m_currentPkt)
    (hbackoff : d'.m_backoff = d.m_backoff) (hback : d'.backoffs = d.backoffs)
    (hcost : e.cost others = 0)
    (hqueue : d'.m_queue.length + d.accepted.length = d.m_queue.length + d'.accepted.length) :
    Pays d e d' others := by
  refine ⟨fun hs hc => ?_, by rw [hbackoff], ?_⟩
  · obtain ⟨hcounted, hlimited⟩ := hw (hstate ▸ hs) (hcur ▸ hc)
    exact ⟨by rwa [hback, hbackoff], by rwa [hback, hbackoff]⟩
  · have hsame : d'.currentEvents others = d.currentEvents others := by
      rw [Device.currentEvents, Device.currentEvents, hstate, hcur, hbackoff, hback]
    have hmul := congrArg (· * d.m_backoff.events others) hqueue
    simp only [Nat.add_mul] at hmul
    rw [Device.eventsLeft, Device.eventsLeft, hsame, hbackoff, hcost]
    omega

theorem Step.pays {d d' : Device π} {e : Event π} (hd : Inv d) (hw : BacksOffWithin d)
    (hstep : Step d e d') (others : ℕ) : Pays d e d' others := by
  cases hstep.outcome hd with
  | notEnabled _ =>
    exact pays_aside hw rfl rfl rfl (by simp [Device.backoffs, Device.trace, backoffs]) rfl rfl
  | queueFull _ =>
    exact pays_aside hw rfl rfl rfl (by simp [Device.backoffs, Device.trace, backoffs]) rfl rfl
  | queued _ _ =>
    refine pays_aside hw rfl rfl rfl ?_ rfl ?_
    · simp [Device.backoffs, Device.enqueue, Device.trace, backoffs]
    · simp only [Device.enqueue, List.length_append]
      omega
  | setSendEnable sendEnable => exact pays_aside hw rfl rfl rfl rfl rfl rfl
  | sent hen hready hnext _ _ =>
    exact (Entry.sendFrom hd.linkUp hen hready hnext).pays hd hw hstep others
  | retried _ _ _ => exact (Entry.retry hstep.1).pays hd hw hstep others
  | followed hgap hq _ _ =>
    have hshape := hd.shape
    rw [Shape, hgap] at hshape
    exact (Entry.ready hstep.1 hgap hshape.1 hq).pays hd hw hstep others
  | completed hbusy _ =>
    refine ⟨fun h => absurd h TxMachineState.noConfusion, rfl, ?_⟩
    rw [eventsLeft_of_busy hbusy]
    show 1 + others + (d.m_queue.length * d.m_backoff.events others + 1) + _ ≤
      _ + d.accepted.length * d.m_backoff.events others
    omega
  | idled hgap _ hq =>
    refine ⟨fun h => absurd h TxMachineState.noConfusion, rfl, ?_⟩
    rw [eventsLeft_of_gap hgap]
    show 1 + (d.m_queue.length * d.m_backoff.events others + 0) + _ ≤
      _ + d.accepted.length * d.m_backoff.events others
    omega

/-! ## One event of the network -/

/-- Whether the simulator fires the event by itself. The others are calls from above. -/
def MediumEvent.fired : MediumEvent ι π → Bool
  | .device _ (.fire _ _) => true
  | .device _ _ => false
  | .propagationComplete => true
  | .receive _ => true

theorem Step.cost_of_ends {d d' : Device π} {e : Event π} (hd : Inv d) (hstep : Step d e d')
    (hbusy : d.m_txMachineState = .busy) (hgap : d'.m_txMachineState = .gap) (others : ℕ) :
    e.cost others = 1 + others := by
  cases hstep.outcome hd with
  | completed _ _ => rfl
  | notEnabled _ => exact absurd (hbusy.symm.trans hgap) TxMachineState.noConfusion
  | queueFull _ => exact absurd (hbusy.symm.trans hgap) TxMachineState.noConfusion
  | queued _ _ => exact absurd (hbusy.symm.trans hgap) TxMachineState.noConfusion
  | setSendEnable _ => exact absurd (hbusy.symm.trans hgap) TxMachineState.noConfusion
  | sent _ hready _ _ _ => exact absurd (hbusy.symm.trans hready) TxMachineState.noConfusion
  | retried hback _ _ => exact absurd (hbusy.symm.trans hback) TxMachineState.noConfusion
  | idled h _ _ => exact absurd (hbusy.symm.trans h) TxMachineState.noConfusion
  | followed h _ _ _ => exact absurd (hbusy.symm.trans h) TxMachineState.noConfusion

theorem fired_le_cost (i : ι) (e : Event π) (others : ℕ) :
    (MediumEvent.device i e).fired.toNat ≤ e.cost others := by
  cases e with
  | sendFrom | setSendEnable => exact Nat.le_refl _
  | fire e answers =>
    cases e with
    | transmitStart | transmitReadyEvent => exact Nat.le_refl _
    | transmitCompleteEvent => exact Nat.le_add_right 1 others

def CsmaChannel.propagating (C : CsmaChannel ι π σ) (c : σ) : ℕ :=
  if C.getState c = .propagating then 1 else 0

theorem propagating_eq_zero {C : CsmaChannel ι π σ} {c : σ} (h : C.getState c ≠ .propagating) : C.propagating c = 0 :=
  if_neg h

theorem propagating_le_one (C : CsmaChannel ι π σ) (c : σ) : C.propagating c ≤ 1 := by
  rw [CsmaChannel.propagating]
  split <;> simp

section
variable [Fintype ι]

/-- The end of a transmission makes the channel complete the propagation and every device receive. -/
def deliveryEvents (ι : Type) [Fintype ι] : ℕ := 1 + Fintype.card ι

def Medium.eventsLeft (C : CsmaChannel ι π σ) (s : Medium ι π σ) : ℕ :=
  ∑ i, (s.device i).eventsLeft (deliveryEvents ι) + ∑ j, (s.arriving j).length +
    C.propagating s.channel

/-- All the events that the packets accepted so far can cause. -/
def Medium.events (b : ι → Backoff) (s : Medium ι π σ) : ℕ :=
  ∑ i, (s.device i).accepted.length * (b i).events (deliveryEvents ι)

theorem eventsLeft_init {C : CsmaChannel ι π σ} {c : σ} (hc : C.getState c = .idle) (sendEnable : ι → Bool)
    (b : ι → Backoff) : (Medium.init c sendEnable b : Medium ι π σ).eventsLeft C = 0 := by
  have hquiet : C.propagating c = 0 := if_neg (by rw [hc]; exact WireState.noConfusion)
  have hdevice : ∀ i, (attached (sendEnable i) (b i) : Device π).eventsLeft (deliveryEvents ι) = 0 :=
    fun i => (eventsLeft_of_ready rfl _).trans (Nat.zero_mul _)
  simp [Medium.eventsLeft, Medium.init, hquiet, hdevice]

end

section
variable [DecidableEq ι] {C : CsmaChannel ι π σ}

structure QuiescenceInv (C : CsmaChannel ι π σ) (b : ι → Backoff) (s : Medium ι π σ) : Prop where
  medium : MediumInv C s
  within : ∀ i, BacksOffWithin (s.device i)
  maxRetries : ∀ i, (s.device i).m_backoff.m_maxRetries = (b i).m_maxRetries

theorem quiescenceInv_init {c : σ} (hc : C.getState c = .idle) (sendEnable : ι → Bool)
    (b : ι → Backoff) : QuiescenceInv C b (Medium.init c sendEnable b : Medium ι π σ) :=
  ⟨mediumInv_init hc sendEnable b, fun _ hback => absurd hback TxMachineState.noConfusion,
    fun _ => rfl⟩

variable [Fintype ι]

theorem deviceEvent_paid {b : ι → Backoff} {s s' : Medium ι π σ} (h : QuiescenceInv C b s) {i : ι}
    {e : Event π} {d : Device π} (hstep : Step (s.device i) e d) {fired : ℕ}
    (hdevice : s'.device = Function.update s.device i d)
    (hwire : fired + ∑ j, (s'.arriving j).length + C.propagating s'.channel ≤
      e.cost (deliveryEvents ι) + ∑ j, (s.arriving j).length + C.propagating s.channel) :
    fired + s'.eventsLeft C + s.events b ≤ s.eventsLeft C + s'.events b := by
  have hpays := hstep.pays (h.medium.device i) (h.within i) (deliveryEvents ι)
  have hleft := hpays.left
  rw [events_congr (h.maxRetries i)] at hleft
  have hevents := sum_update_add (fun _ (d : Device π) => d.eventsLeft (deliveryEvents ι)) s.device i d
  have hcredit := sum_update_add
    (fun j (d : Device π) => d.accepted.length * (b j).events (deliveryEvents ι)) s.device i d
  rw [Medium.eventsLeft, Medium.eventsLeft, Medium.events, Medium.events, hdevice]
  omega

theorem MediumStep.paid {b : ι → Backoff} {s s' : Medium ι π σ} (h : QuiescenceInv C b s)
    {e : MediumEvent ι π} (hs : MediumStep C s e s') :
    QuiescenceInv C b s' ∧
      e.fired.toNat + s'.eventsLeft C + s.events b ≤ s.eventsLeft C + s'.events b := by
  have hmedium := hs.inv h.medium
  cases hs with
  | @device i e d hstep hhears =>
    have hpays := hstep.pays (h.medium.device i) (h.within i) 0
    obtain ⟨t, ht, heffect⟩ := hstep.wire (h.medium.device i) hhears
    have hdevice : (s.after C i d).device = Function.update s.device i d := by
      rw [Medium.after_eq C s i ht]
    have hfired := fired_le_cost i e (deliveryEvents ι)
    refine ⟨⟨hmedium, fun j => ?_, fun j => ?_⟩, deviceEvent_paid h hstep hdevice ?_⟩
    · rw [hdevice]
      by_cases hj : j = i
      · subst hj
        simpa using hpays.within
      · simpa [hj] using h.within j
    · rw [hdevice]
      by_cases hj : j = i
      · subst hj
        simpa using hpays.maxRetries.trans (h.maxRetries j)
      · simpa [hj] using h.maxRetries j
    · rw [Medium.after_eq C s i ht]
      cases heffect with
      | quiet hwire _ _ =>
        rw [hwire]
        show _ + ∑ j, (s.arriving j).length + C.propagating s.channel ≤ _
        omega
      | begins packet hwire _ _ _ hacc =>
        rw [hwire]
        have hafter := propagating_eq_zero (C := C) (c := C.started s.channel i packet) (by
          rw [C.getState_started s.channel i packet hacc]
          exact WireState.noConfusion)
        show _ + ∑ j, (s.arriving j).length + C.propagating (C.started s.channel i packet) ≤ _
        omega
      | ends packet hwire hbusy hcur hgap =>
        rw [hwire]
        obtain ⟨hstate, hcurrent⟩ :=
          (h.medium.onAir i packet).mp (onAir_eq_some.mpr ⟨hbusy, hcur⟩)
        have hcost := hstep.cost_of_ends (h.medium.device i) hbusy hgap (deliveryEvents ι)
        have hone := propagating_le_one C (C.transmitEnd s.channel)
        have hreach : ∑ j, (s.arriving j ++ C.delivers s.channel j).length =
            ∑ j, (s.arriving j).length + Fintype.card ι := by
          simp [C.delivers_current s.channel (i, packet) hstate hcurrent, Finset.sum_add_distrib]
        have hsimulator : (MediumEvent.device i e : MediumEvent ι π).fired.toNat ≤ 1 :=
          Bool.toNat_le _
        show _ + ∑ j, (s.arriving j ++ C.delivers s.channel j).length +
          C.propagating (C.transmitEnd s.channel) ≤ _
        rw [hcost, hreach, deliveryEvents]
        omega
  | propagationComplete hstate =>
    refine ⟨⟨hmedium, h.within, h.maxRetries⟩, ?_⟩
    have hbefore : C.propagating s.channel = 1 := if_pos hstate
    have hafter := propagating_eq_zero (C := C) (c := C.propagationCompleteEvent s.channel) (by
      rw [C.getState_propagation s.channel hstate]
      exact WireState.noConfusion)
    rw [Medium.eventsLeft, Medium.eventsLeft, hbefore]
    show 1 + (_ + C.propagating (C.propagationCompleteEvent s.channel)) + _ ≤ _ + s.events b
    rw [hafter]
    show 1 + (∑ i, (s.device i).eventsLeft (deliveryEvents ι) + ∑ j, (s.arriving j).length + 0) + _ ≤ _
    omega
  | @receive j m rest harriving =>
    refine ⟨⟨hmedium, h.within, h.maxRetries⟩, ?_⟩
    have harrive := sum_update_add (fun _ (l : List (ι × π)) => l.length) s.arriving j rest
    simp only [harriving, List.length_cons] at harrive
    rw [Medium.eventsLeft, Medium.eventsLeft]
    show 1 + (∑ i, (s.device i).eventsLeft (deliveryEvents ι) +
      ∑ k, (Function.update s.arriving j rest k).length + C.propagating s.channel) + s.events b ≤
      _ + s.events b
    omega

/-- However the events interleave, and for any retry limits and initial retry counters: for each packet
a device accepted the simulator fires at most as many events as the device has retries, three more,
and one for each device. The other events are calls from above. -/
theorem medium_comes_to_rest {c : σ} (hc : C.getState c = .idle) {sendEnable : ι → Bool}
    {b : ι → Backoff} {past : List (Medium ι π σ × MediumEvent ι π)} {s : Medium ι π σ}
    (h : Run (MediumStep C) (Medium.init c sendEnable b) past s) :
    past.countP (fun p => p.2.fired) ≤
      ∑ i, (s.device i).accepted.length * ((b i).m_maxRetries.toNat + 3 + Fintype.card ι) := by
  have hpaid := h.amortized (quiescenceInv_init hc sendEnable b)
    fun _ _ _ hs hstep => MediumStep.paid hs hstep
  have hcount : (past.map fun p => p.2.fired.toNat).sum = past.countP (fun p => p.2.fired) := by
    clear h hpaid
    induction past with
    | nil => rfl
    | cons p past ih => cases hp : p.2.fired <;> simp [hp, ih, Nat.add_comm]
  rw [eventsLeft_init hc, hcount] at hpaid
  have hevents : s.events b =
      ∑ i, (s.device i).accepted.length * ((b i).m_maxRetries.toNat + 3 + Fintype.card ι) := by
    refine Finset.sum_congr rfl fun i _ => ?_
    rw [Backoff.events, deliveryEvents]
    ring
  omega

end

/-! ## When nothing is left to fire -/

section
variable [DecidableEq ι] {C : CsmaChannel ι π σ} {s : Medium ι π σ}

theorem MediumInv.not_scheduled (h : MediumInv C s)
    (hrest : ∀ e s', MediumStep C s e s' → e.fired = false) (i : ι) :
    (s.device i).scheduled = [] := by
  refine List.eq_nil_iff_forall_not_mem.mpr fun e he => ?_
  have hp : Possible (s.device i) (.fire e fun _ => C.answer s.channel i) := he
  obtain ⟨d, hok⟩ := h.handled hp rfl
  cases hrest _ _ (.device ⟨hp, hok⟩ rfl)

theorem not_arriving
    (hrest : ∀ e s', MediumStep C s e s' → e.fired = false) (j : ι) : s.arriving j = [] := by
  cases harriving : s.arriving j with
  | nil => rfl
  | cons m rest => cases hrest _ _ (.receive harriving)

theorem Inv.at_rest {d : Device π} (h : Inv d) (hsched : d.scheduled = []) :
    d.m_currentPkt = none ∧ d.m_txMachineState ≠ .busy := by
  have hshape := h.shape
  unfold Shape at hshape
  cases hstate : d.m_txMachineState with
  | ready =>
    rw [hstate] at hshape
    exact ⟨hshape.1, TxMachineState.noConfusion⟩
  | busy | gap =>
    rw [hstate, hsched] at hshape
    cases hshape.2
  | backoff =>
    rw [hstate, hsched] at hshape
    obtain ⟨-, hne⟩ | ⟨hcur, -⟩ := hshape
    · cases hne
    · exact ⟨hcur, TxMachineState.noConfusion⟩

/-- When the simulator has no event left, the channel is idle and every packet that was begun has come
to every device, each sender's in the order in which it accepted them. Every other packet was dropped
or is still in its queue. -/
theorem medium_at_rest {c : σ} (hc : C.getState c = .idle) {sendEnable : ι → Bool} {b : ι → Backoff}
    {past : List (Medium ι π σ × MediumEvent ι π)}
    (h : Run (MediumStep C) (Medium.init c sendEnable b) past s)
    (hrest : ∀ e s', MediumStep C s e s' → e.fired = false) :
    C.getState s.channel = .idle ∧
    (∀ i j, sentBy i (s.received j) = (s.device i).begun) ∧
    ∀ i, ((s.device i).begun ++ (s.device i).dropped ++ (s.device i).m_queue).Perm
      (s.device i).accepted := by
  have hinv := mediumRun_inv hc h
  have hdevice := fun i => (hinv.device i).at_rest (hinv.not_scheduled hrest i)
  refine ⟨?_, fun i j => ?_, fun i => ?_⟩
  · cases hstate : C.getState s.channel with
    | idle => rfl
    | transmitting =>
      obtain ⟨⟨i, packet⟩, hcurrent⟩ := Option.ne_none_iff_exists'.mp (hinv.current hstate)
      have hair := (hinv.onAir i packet).mpr ⟨hstate, hcurrent⟩
      exact absurd (onAir_eq_some.mp hair).1 (hdevice i).2
    | propagating => cases hrest _ _ (.propagationComplete hstate)
  · have harrived := hinv.arrived j
    rw [not_arriving hrest j, List.append_nil] at harrived
    rw [harrived, hinv.ended i, hinv.begun i, Device.onAir, if_neg (hdevice i).2]
    exact (List.append_nil _).symm
  · have honce := (hinv.device i).conserved.once
    rwa [Device.waiting, if_neg (hdevice i).2, (hdevice i).1, Option.toList_none,
      List.append_nil] at honce

end

/-! ## Two devices -/

theorem comes_to_rest_bothSent :
    bothSends.countP (fun p => p.2.fired) ≤
      ∑ i, (bothSent.device i).accepted.length *
        (Backoff.standard.m_maxRetries.toNat + 3 + Fintype.card Bool) :=
  medium_comes_to_rest rfl run_bothSent

/-- A device after the gap behind its packet, with nothing queued. -/
def readied (d : Device ℕ) : Device ℕ := { d with m_txMachineState := .ready, scheduled := [] }

def bothPropagated : Medium Bool ℕ (WireState × Option (Bool × ℕ)) :=
  { bothSent with channel := (.idle, some (false, 7)) }

def firstReady : Medium Bool ℕ (WireState × Option (Bool × ℕ)) :=
  bothPropagated.after sharedChannel true (readied (transmitted 8))

def bothReady : Medium Bool ℕ (WireState × Option (Bool × ℕ)) :=
  firstReady.after sharedChannel false (readied completedAlone)

/-- A device receives both packets. -/
def receivesBoth (s : Medium Bool ℕ (WireState × Option (Bool × ℕ))) (j : Bool) :
    Medium Bool ℕ (WireState × Option (Bool × ℕ)) :=
  { s with
    arriving := Function.update s.arriving j []
    received := Function.update s.received j (s.received j ++ [(true, 8), (false, 7)]) }

def bothDelivered : Medium Bool ℕ (WireState × Option (Bool × ℕ)) :=
  receivesBoth (receivesBoth bothReady true) false

theorem run_receivesBoth (s : Medium Bool ℕ (WireState × Option (Bool × ℕ))) {j : Bool}
    (h : s.arriving j = [(true, 8), (false, 7)]) :
    ∃ past, Run (MediumStep sharedChannel) s past (receivesBoth s j) := by
  have hrest : Function.update s.arriving j [(false, 7)] j = [(false, 7)] := Function.update_self ..
  have hone := Run.start.next (MediumStep.receive (C := sharedChannel) h)
  have htwo := hone.next (.receive hrest)
  simp only [Function.update_idem, Function.update_self, List.append_assoc, List.cons_append,
    List.nil_append] at htwo
  exact ⟨_, htwo⟩

theorem run_bothReady : ∃ past, Run (MediumStep sharedChannel) twoDevices past bothReady := by
  have hfirst : Step (bothPropagated.device true) (.fire .transmitReadyEvent idleChannel)
      (readied (transmitted 8)) := ⟨List.mem_singleton.mpr rfl, rfl⟩
  have hsecond : Step (firstReady.device false) (.fire .transmitReadyEvent idleChannel)
      (readied completedAlone) := ⟨List.mem_singleton.mpr rfl, rfl⟩
  have hpropagated := Run.next (t := bothPropagated) run_bothSent (.propagationComplete rfl)
  have hgap := Run.next (t := firstReady) hpropagated (.device hfirst rfl)
  exact ⟨_, Run.next (t := bothReady) hgap (.device hsecond rfl)⟩

theorem run_bothDelivered : ∃ past, Run (MediumStep sharedChannel) twoDevices past bothDelivered := by
  obtain ⟨past, hready⟩ := run_bothReady
  obtain ⟨past₁, hfirst⟩ := run_receivesBoth bothReady (j := true) rfl
  obtain ⟨past₂, hsecond⟩ := run_receivesBoth (receivesBoth bothReady true) (j := false) rfl
  exact ⟨_, (hready.trans hfirst).trans hsecond⟩

theorem bothDelivered_rests (e : MediumEvent Bool ℕ)
    (s' : Medium Bool ℕ (WireState × Option (Bool × ℕ)))
    (h : MediumStep sharedChannel bothDelivered e s') : e.fired = false := by
  cases h with
  | @device i e d hstep hhears =>
    cases e with
    | sendFrom | setSendEnable => rfl
    | fire e answers =>
      have hempty : (bothDelivered.device i).scheduled = [] := by cases i <;> rfl
      have hmem : e ∈ (bothDelivered.device i).scheduled := hstep.1
      rw [hempty] at hmem
      cases hmem
  | propagationComplete hstate => cases hstate
  | @receive j m rest harriving =>
    have hempty : bothDelivered.arriving j = [] := by cases j <;> rfl
    rw [hempty] at harriving
    cases harriving

theorem at_rest_bothDelivered :
    sharedChannel.getState bothDelivered.channel = .idle ∧
    (∀ i j, sentBy i (bothDelivered.received j) = (bothDelivered.device i).begun) ∧
    ∀ i, ((bothDelivered.device i).begun ++ (bothDelivered.device i).dropped ++
      (bothDelivered.device i).m_queue).Perm (bothDelivered.device i).accepted := by
  obtain ⟨past, hrun⟩ := run_bothDelivered
  exact medium_at_rest rfl hrun bothDelivered_rests

end ComputerNetworks.CsmaDevice
