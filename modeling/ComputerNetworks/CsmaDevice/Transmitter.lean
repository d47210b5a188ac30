import ComputerNetworks.CsmaDevice.Device

/-! # Packets are neither lost nor reordered

What one call of `TransmitStart` can do is said once, by the relation `Starts`; the bound on the
nested calls is never reached, because each of them takes a packet from the queue. From it follows the
invariant of the device: the machine state determines `m_currentPkt` and the pending event, and the
packets settled so far, the current one and the queue are the accepted packets in their order
(`run_conserved`).
-/
namespace ComputerNetworks.CsmaDevice
open Runs
set_option autoImplicit false

variable {π : Type}

/-! ## Where the accepted packets are -/

/-- A packet that was begun on the channel or reported as dropped there. -/
def Trace.settles : Trace π → Option π
  | .phyTxBegin packet => some packet
  | .phyTxDrop packet => some packet
  | _ => none

def Trace.begins : Trace π → Option π
  | .phyTxBegin packet => some packet
  | _ => none

def Trace.drops : Trace π → Option π
  | .phyTxDrop packet => some packet
  | _ => none

def Device.settled (d : Device π) : List π := d.traced.filterMap Trace.settles

def Device.begun (d : Device π) : List π := d.traced.filterMap Trace.begins

def Device.dropped (d : Device π) : List π := d.traced.filterMap Trace.drops

/-- The current packet as long as it is not begun. -/
def Device.waiting (d : Device π) : List π :=
  if d.m_txMachineState = .busy then [] else d.m_currentPkt.toList

/-- Every accepted packet is in exactly one place, packets are begun in the order in which they were
accepted, and at most one event of the device is pending. -/
structure Conserved (d : Device π) : Prop where
  once : (d.begun ++ d.dropped ++ d.waiting ++ d.m_queue).Perm d.accepted
  order : (d.begun ++ d.waiting ++ d.m_queue).Sublist d.accepted
  one_event : d.scheduled.length ≤ 1

/-! ## The invariant -/

/-- What the machine state says about the current packet and the pending event. A device in backoff
without a packet and without an event is one that `TransmitStart` left while sending was disabled. -/
def Shape (d : Device π) : Prop :=
  match d.m_txMachineState with
  | .ready => d.m_currentPkt = none ∧ d.scheduled = []
  | .busy => d.m_currentPkt ≠ none ∧ d.scheduled = [.transmitCompleteEvent]
  | .gap => d.m_currentPkt = none ∧ d.scheduled = [.transmitReadyEvent]
  | .backoff => (d.m_currentPkt ≠ none ∧ d.scheduled = [.transmitStart]) ∨
      (d.m_currentPkt = none ∧ d.scheduled = [])

structure Inv (d : Device π) : Prop where
  linkUp : d.m_linkUp = true
  shape : Shape d
  accounted : d.accepted = d.settled ++ d.waiting ++ d.m_queue

/-- A device whose handlers may call `TransmitStart`. -/
structure Loaded (d : Device π) (packet : π) : Prop where
  linkUp : d.m_linkUp = true
  current : d.m_currentPkt = some packet
  state : d.m_txMachineState = .ready ∨ d.m_txMachineState = .backoff
  scheduled : d.scheduled = []
  accounted : d.accepted = d.settled ++ packet :: d.m_queue

theorem filterMap_begins_perm (t : List (Trace π)) :
    (t.filterMap Trace.begins ++ t.filterMap Trace.drops).Perm (t.filterMap Trace.settles) := by
  induction t with
  | nil => exact List.Perm.refl _
  | cons a t ih =>
    cases a with
    | phyTxBegin packet => exact ih.cons packet
    | phyTxDrop packet => exact List.perm_middle.trans (ih.cons packet)
    | macTx | macTxDrop | macTxBackoff | phyTxEnd | sniffer | promiscSniffer => exact ih

theorem filterMap_begins_sublist (t : List (Trace π)) :
    (t.filterMap Trace.begins).Sublist (t.filterMap Trace.settles) := by
  induction t with
  | nil => exact List.Sublist.refl _
  | cons a t ih =>
    cases a with
    | phyTxBegin packet => exact ih.cons_cons packet
    | phyTxDrop packet => exact ih.cons packet
    | macTx | macTxDrop | macTxBackoff | phyTxEnd | sniffer | promiscSniffer => exact ih

theorem Inv.conserved {d : Device π} (h : Inv d) : Conserved d := by
  refine ⟨?_, ?_, ?_⟩
  · rw [h.accounted, List.append_assoc _ d.waiting, List.append_assoc _ d.waiting]
    exact (filterMap_begins_perm d.traced).append_right _
  · rw [h.accounted, List.append_assoc _ d.waiting, List.append_assoc _ d.waiting]
    exact (filterMap_begins_sublist d.traced).append_right _
  · have hshape := h.shape
    unfold Shape at hshape
    cases hs : d.m_txMachineState with
    | ready | busy | gap =>
      rw [hs] at hshape
      simp [hshape.2]
    | backoff =>
      rw [hs] at hshape
      obtain ⟨-, hsched⟩ | ⟨-, hsched⟩ := hshape <;> simp [hsched]

/-! ## What `TransmitStart` can do -/

/-- `Starts answers d d'`: called on `d` with a packet in `m_currentPkt`, `TransmitStart` ends in
`d'`. An abort with a packet behind it goes on with that packet. -/
inductive Starts : (ℕ → ChannelAnswer) → Device π → Device π → Prop
  | disabled {answers : ℕ → ChannelAnswer} {d : Device π} {packet : π} :
      d.m_currentPkt = some packet → d.m_sendEnable = false → Starts answers d (d.drop packet)
  | backedOff {answers : ℕ → ChannelAnswer} {d : Device π} {packet : π} :
      d.m_currentPkt = some packet → d.m_sendEnable = true → (answers 0).state ≠ .idle →
        d.m_backoff.maxRetriesReached = false →
        Starts answers d (({ d.trace [.macTxBackoff packet] with
          m_txMachineState := .backoff
          m_backoff := d.m_backoff.incrNumRetries }).schedule .transmitStart)
  | abortedLast {answers : ℕ → ChannelAnswer} {d : Device π} {packet : π} :
      d.m_currentPkt = some packet → d.m_sendEnable = true → (answers 0).state ≠ .idle →
        d.m_backoff.maxRetriesReached = true → d.m_queue = [] →
        Starts answers d { d.drop packet with
          m_backoff := d.m_backoff.resetBackoffTime, m_txMachineState := .ready }
  | aborted {answers : ℕ → ChannelAnswer} {d d' : Device π} {packet next : π} {queue : List π} :
      d.m_currentPkt = some packet → d.m_sendEnable = true → (answers 0).state ≠ .idle →
        d.m_backoff.maxRetriesReached = true → d.m_queue = next :: queue →
        Starts (fun k => answers (k + 1)) (({ d.drop packet with
          m_backoff := d.m_backoff.resetBackoffTime, m_txMachineState := .ready }).dequeue next queue
            [.sniffer next, .promiscSniffer next]) d' →
        Starts answers d d'
  | refused {answers : ℕ → ChannelAnswer} {d : Device π} {packet : π} :
      d.m_currentPkt = some packet → d.m_sendEnable = true → (answers 0).state = .idle →
        (answers 0).accepts = false →
        Starts answers d { d.drop packet with m_txMachineState := .ready }
  | begun {answers : ℕ → ChannelAnswer} {d : Device π} {packet : π} :
      d.m_currentPkt = some packet → d.m_sendEnable = true → (answers 0).state = .idle →
        (answers 0).accepts = true →
        Starts answers d (({ d.trace [.phyTxBegin packet] with
          m_backoff := d.m_backoff.resetBackoffTime
          m_txMachineState := .busy }).schedule .transmitCompleteEvent)

theorem Loaded.aborted {d : Device π} {packet next : π} {queue : List π} (h : Loaded d packet)
    (hq : d.m_queue = next :: queue) (b : Backoff) (t : List (Trace π))
    (ht : t.filterMap Trace.settles = []) :
    Loaded (({ d.drop packet with m_backoff := b, m_txMachineState := .ready }).dequeue next queue t)
      next where
  linkUp := h.linkUp
  current := rfl
  state := Or.inl rfl
  scheduled := h.scheduled
  accounted := by
    have hacc := h.accounted
    rw [hq] at hacc
    simp only [Device.settled, Device.dequeue, Device.drop, Device.trace, List.filterMap_append, ht,
      List.append_nil] at hacc ⊢
    rw [hacc]
    simp [Trace.settles]

/-- With one call more than there are packets in the queue, `TransmitStart` returns and no assertion
fails. -/
theorem transmitStartWithin_starts {calls : ℕ} (answers : ℕ → ChannelAnswer) {d : Device π}
    {packet : π} (h : Loaded d packet) (hcalls : d.m_queue.length < calls) :
    ∃ d', transmitStartWithin calls answers d = .ok d' ∧ Starts answers d d' := by
  induction calls generalizing answers d packet with
  | zero => exact absurd hcalls (Nat.not_lt_zero _)
  | succ calls ih =>
    have hl := h
    obtain ⟨linkUp, enable, state, current, queue, backoff, scheduled, traced, accepted⟩ := d
    obtain ⟨hlink, hcur, hstate, hsched, -⟩ := h
    simp only at hlink hcur hstate hsched hcalls
    subst hcur
    have hnot : ¬ (state ≠ .ready ∧ state ≠ .backoff) := fun hne => hstate.elim hne.1 hne.2
    cases enable with
    | false => exact ⟨_, rfl, .disabled rfl rfl⟩
    | true =>
      simp only [transmitStartWithin, Bool.true_eq_false, if_false, hnot]
      by_cases hidle : (answers 0).state = .idle
      · simp only [hidle, ne_eq, not_true_eq_false, if_false]
        cases hacc : (answers 0).accepts with
        | false => exact ⟨_, rfl, .refused rfl rfl hidle hacc⟩
        | true => exact ⟨_, rfl, .begun rfl rfl hidle hacc⟩
      · simp only [ne_eq, hidle, not_false_eq_true, if_true]
        cases hmax : backoff.maxRetriesReached with
        | false => exact ⟨_, rfl, .backedOff rfl rfl hidle hmax⟩
        | true =>
          cases queue with
          | nil => exact ⟨_, rfl, .abortedLast rfl rfl hidle hmax rfl⟩
          | cons next queue =>
            obtain ⟨d', hd', hstarts⟩ := ih (fun k => answers (k + 1))
              (hl.aborted rfl backoff.resetBackoffTime [.sniffer next, .promiscSniffer next] rfl)
              (Nat.lt_of_succ_lt_succ hcalls)
            exact ⟨d', hd', .aborted rfl rfl hidle hmax rfl hstarts⟩

theorem transmitStart_total (answers : ℕ → ChannelAnswer) {d : Device π} {packet : π}
    (h : Loaded d packet) : ∃ d', transmitStart answers d = .ok d' ∧ Starts answers d d' :=
  transmitStartWithin_starts answers h (Nat.lt_succ_self _)

theorem settled_trace (d : Device π) (t : List (Trace π)) :
    (d.trace t).settled = d.settled ++ t.filterMap Trace.settles := by
  simp [Device.settled, Device.trace]

theorem Starts.inv {answers : ℕ → ChannelAnswer} {d d' : Device π} (hs : Starts answers d d')
    {packet : π} (h : Loaded d packet) : Inv d' := by
  induction hs generalizing packet with
  | aborted hcur _ _ _ hq _ ih =>
    obtain rfl := Option.some.inj (hcur.symm.trans h.current)
    exact ih (h.aborted hq _ _ rfl)
  | disabled hcur | refused hcur | abortedLast hcur | backedOff hcur | begun hcur =>
    obtain rfl := Option.some.inj (hcur.symm.trans h.current)
    obtain ⟨hlink, -, hstate, hsched, hacc⟩ := h
    refine ⟨hlink, ?_, ?_⟩
    · obtain hst | hst := hstate <;>
        simp [Shape, Device.drop, Device.trace, Device.schedule, hst, hcur, hsched]
    · obtain hst | hst := hstate <;>
        simp_all [Device.settled, Device.waiting, Device.drop, Device.trace, Device.schedule,
          Trace.settles]

/-! ## What an event can do -/

/-- `SendFrom` up to the point where the packet is in the queue. -/
def Device.enqueue (d : Device π) (packet : π) : Device π :=
  { d.trace [.macTx packet] with
    m_queue := d.m_queue ++ [packet], accepted := d.accepted ++ [packet] }

/-- `Outcome d e d'`: the event `e` takes a device that keeps the invariant from `d` to `d'`. -/
inductive Outcome (d : Device π) : Event π → Device π → Prop
  | notEnabled {packet : π} {enqueued : Bool} {answers : ℕ → ChannelAnswer} :
      d.m_sendEnable = false →
        Outcome d (.sendFrom packet enqueued answers) (d.trace [.macTxDrop packet])
  | queueFull {packet : π} {answers : ℕ → ChannelAnswer} :
      d.m_sendEnable = true →
        Outcome d (.sendFrom packet false answers)
          ((d.trace [.macTx packet]).trace [.macTxDrop packet])
  | queued {packet : π} {answers : ℕ → ChannelAnswer} :
      d.m_sendEnable = true → d.m_txMachineState ≠ .ready →
        Outcome d (.sendFrom packet true answers) (d.enqueue packet)
  | sent {packet next : π} {queue : List π} {answers : ℕ → ChannelAnswer} {t : List (Trace π)}
      {d' : Device π} :
      d.m_sendEnable = true → d.m_txMachineState = .ready → d.m_queue ++ [packet] = next :: queue →
        Loaded ((d.enqueue packet).dequeue next queue t) next →
        Starts answers ((d.enqueue packet).dequeue next queue t) d' →
        Outcome d (.sendFrom packet true answers) d'
  | setSendEnable (sendEnable : Bool) :
      Outcome d (.setSendEnable sendEnable) (d.setSendEnable sendEnable)
  | retried {packet : π} {answers : ℕ → ChannelAnswer} {d' : Device π} :
      d.m_txMachineState = .backoff → Loaded { d with scheduled := [] } packet →
        Starts answers { d with scheduled := [] } d' →
        Outcome d (.fire .transmitStart answers) d'
  | completed {packet : π} {answers : ℕ → ChannelAnswer} :
      d.m_txMachineState = .busy → d.m_currentPkt = some packet →
        Outcome d (.fire .transmitCompleteEvent answers)
          { d.trace [.phyTxEnd packet] with
            m_currentPkt := none, m_txMachineState := .gap, scheduled := [.transmitReadyEvent] }
  | idled {answers : ℕ → ChannelAnswer} :
      d.m_txMachineState = .gap → d.m_currentPkt = none → d.m_queue = [] →
        Outcome d (.fire .transmitReadyEvent answers)
          { d with m_txMachineState := .ready, scheduled := [] }
  | followed {next : π} {queue : List π} {answers : ℕ → ChannelAnswer} {t : List (Trace π)}
      {d' : Device π} :
      d.m_txMachineState = .gap → d.m_queue = next :: queue →
        Loaded (({ d with m_txMachineState := .ready, scheduled := [] }).dequeue next queue t) next →
        Starts answers (({ d with m_txMachineState := .ready, scheduled := [] }).dequeue next queue t)
          d' →
        Outcome d (.fire .transmitReadyEvent answers) d'

theorem loaded_dequeue {d : Device π} (hlink : d.m_linkUp = true) (hready : d.m_txMachineState = .ready)
    (hsched : d.scheduled = []) {next : π} {queue : List π}
    (hacc : d.accepted = d.settled ++ next :: queue) {t : List (Trace π)}
    (ht : t.filterMap Trace.settles = []) : Loaded (d.dequeue next queue t) next where
  linkUp := hlink
  current := rfl
  state := Or.inl hready
  scheduled := hsched
  accounted := by
    simp only [Device.settled, Device.dequeue, Device.trace, List.filterMap_append, ht,
      List.append_nil] at hacc ⊢
    exact hacc

/-! ## The calls of `TransmitStart` -/

theorem Inv.loaded_sent {d : Device π} (h : Inv d) (hready : d.m_txMachineState = .ready)
    {packet next : π} {queue : List π} (hnext : d.m_queue ++ [packet] = next :: queue)
    {t : List (Trace π)} (ht : t.filterMap Trace.settles = []) :
    Loaded ((d.enqueue packet).dequeue next queue t) next := by
  have hshape := h.shape
  have hacc := h.accounted
  have hlink : (d.enqueue packet).m_linkUp = true := h.linkUp
  rw [Shape, hready] at hshape
  refine loaded_dequeue hlink hready hshape.2 ?_ ht
  simp only [Device.waiting, hready, hshape.1, reduceCtorEq, if_false, Option.toList_none,
    List.append_nil] at hacc
  have hsettled : (d.enqueue packet).settled = d.settled := by
    simp [Device.enqueue, Device.settled, Device.trace, List.filterMap_cons, Trace.settles]
  rw [← hnext]
  show d.accepted ++ [packet] = (d.enqueue packet).settled ++ (d.m_queue ++ [packet])
  rw [hsettled, hacc, List.append_assoc]

theorem Inv.loaded_retried {d : Device π} (h : Inv d) (hstate : d.m_txMachineState = .backoff)
    {packet : π} (hcur : d.m_currentPkt = some packet) :
    Loaded { d with scheduled := [] } packet := by
  have hacc := h.accounted
  simp only [Device.waiting, hstate, hcur, reduceCtorEq, if_false, Option.toList_some,
    List.append_assoc] at hacc
  exact ⟨h.linkUp, hcur, Or.inr hstate, rfl, hacc⟩

theorem Inv.loaded_followed {d : Device π} (h : Inv d) (hgap : d.m_txMachineState = .gap)
    (hcur : d.m_currentPkt = none) {next : π} {queue : List π} (hq : d.m_queue = next :: queue)
    {t : List (Trace π)} (ht : t.filterMap Trace.settles = []) :
    Loaded (({ d with m_txMachineState := .ready, scheduled := [] }).dequeue next queue t) next := by
  have hacc := h.accounted
  simp only [Device.waiting, hgap, hcur, hq, reduceCtorEq, if_false, Option.toList_none,
    List.append_nil] at hacc
  have hlink : { d with m_txMachineState := .ready, scheduled := [] }.m_linkUp = true := h.linkUp
  exact loaded_dequeue hlink rfl rfl hacc ht

/-! ## What each handler does -/

theorem sendFrom_outcome {d : Device π} (h : Inv d) (packet : π) (enqueued : Bool)
    (answers : ℕ → ChannelAnswer) :
    ∃ d', handle (.sendFrom packet enqueued answers) d = .ok d' ∧
      Outcome d (.sendFrom packet enqueued answers) d' := by
  obtain ⟨linkUp, enable, state, current, queue, backoff, scheduled, traced, accepted⟩ := d
  have hlink : linkUp = true := h.linkUp
  have hshape := h.shape
  subst hlink
  cases enable with
  | false => exact ⟨_, rfl, .notEnabled rfl⟩
  | true =>
    cases enqueued with
    | false => exact ⟨_, rfl, .queueFull rfl⟩
    | true =>
      by_cases hready : state = .ready
      · subst hready
        obtain ⟨hcur, hsched⟩ : current = none ∧ scheduled = [] := hshape
        subst hcur hsched
        obtain ⟨next, rest, hnext⟩ := List.exists_cons_of_ne_nil
          (List.append_ne_nil_of_right_ne_nil queue (List.cons_ne_nil packet []))
        have hloaded : Loaded (((⟨true, true, .ready, none, queue, backoff, [], traced, accepted⟩ :
            Device π).enqueue packet).dequeue next rest [.promiscSniffer next, .sniffer next]) next :=
          h.loaded_sent rfl hnext rfl
        obtain ⟨d', hd', hstarts⟩ := transmitStart_total answers hloaded
        refine ⟨d', ?_, .sent rfl rfl hnext hloaded hstarts⟩
        simp only [handle, sendFrom, Device.trace, hnext, if_true, Bool.true_eq_false, if_false]
        simp only [Device.enqueue, Device.trace, hnext] at hd'
        rw [hd']
        rfl
      · refine ⟨_, ?_, .queued rfl hready⟩
        simp [handle, sendFrom, hready, Device.enqueue, Device.trace, Except.map]

theorem transmitStart_outcome {d : Device π} (h : Inv d) (answers : ℕ → ChannelAnswer)
    (hp : Possible d (.fire .transmitStart answers)) :
    ∃ d', handle (.fire .transmitStart answers) d = .ok d' ∧
      Outcome d (.fire .transmitStart answers) d' := by
  obtain ⟨linkUp, enable, state, current, queue, backoff, scheduled, traced, accepted⟩ := d
  have hshape := h.shape
  simp only [Possible] at hp
  cases state with
  | ready | busy | gap =>
    simp only [Shape] at hshape
    simp [hshape.2] at hp
  | backoff =>
    obtain ⟨hcur, rfl⟩ | ⟨-, rfl⟩ : (current ≠ none ∧ scheduled = [.transmitStart]) ∨
        (current = none ∧ scheduled = []) := hshape
    · obtain ⟨packet, rfl⟩ := Option.ne_none_iff_exists'.mp hcur
      have hloaded := h.loaded_retried rfl rfl
      obtain ⟨d', hd', hstarts⟩ := transmitStart_total answers hloaded
      exact ⟨d', hd', .retried rfl hloaded hstarts⟩
    · simp at hp

/-- The channel's own state is the only thing an assertion can fail on. -/
theorem transmitCompleteEvent_outcome {d : Device π} (h : Inv d) (answers : ℕ → ChannelAnswer)
    (hp : Possible d (.fire .transmitCompleteEvent answers)) :
    (∃ d', handle (.fire .transmitCompleteEvent answers) d = .ok d' ∧
      Outcome d (.fire .transmitCompleteEvent answers) d') ∨
    handle (.fire .transmitCompleteEvent answers) d = .error .channelState := by
  obtain ⟨linkUp, enable, state, current, queue, backoff, scheduled, traced, accepted⟩ := d
  obtain ⟨hlink, hshape, hacc⟩ := h
  simp only [Possible] at hp
  cases state with
  | ready | gap =>
    simp only [Shape] at hshape
    simp [hshape.2] at hp
  | backoff =>
    simp only [Shape] at hshape
    obtain ⟨-, rfl⟩ | ⟨-, rfl⟩ := hshape <;> simp at hp
  | busy =>
    obtain ⟨hcur, rfl⟩ : current ≠ none ∧ scheduled = [.transmitCompleteEvent] := hshape
    obtain ⟨packet, rfl⟩ := Option.ne_none_iff_exists'.mp hcur
    by_cases hwire : (answers 0).state = .transmitting
    · refine Or.inl ⟨_, ?_, .completed rfl rfl⟩
      simp [handle, handler, transmitCompleteEvent, hwire, Device.trace, Device.schedule]
    · refine Or.inr ?_
      simp [handle, handler, transmitCompleteEvent, hwire]

theorem transmitReadyEvent_outcome {d : Device π} (h : Inv d) (answers : ℕ → ChannelAnswer)
    (hp : Possible d (.fire .transmitReadyEvent answers)) :
    ∃ d', handle (.fire .transmitReadyEvent answers) d = .ok d' ∧
      Outcome d (.fire .transmitReadyEvent answers) d' := by
  obtain ⟨linkUp, enable, state, current, queue, backoff, scheduled, traced, accepted⟩ := d
  have hshape := h.shape
  simp only [Possible] at hp
  cases state with
  | ready | busy =>
    simp only [Shape] at hshape
    simp [hshape.2] at hp
  | backoff =>
    simp only [Shape] at hshape
    obtain ⟨-, rfl⟩ | ⟨-, rfl⟩ := hshape <;> simp at hp
  | gap =>
    obtain ⟨rfl, rfl⟩ : current = none ∧ scheduled = [.transmitReadyEvent] := hshape
    cases queue with
    | nil => exact ⟨_, rfl, .idled rfl rfl rfl⟩
    | cons next queue =>
      have hloaded : Loaded ((⟨linkUp, enable, .ready, none, next :: queue, backoff, [], traced,
          accepted⟩ : Device π).dequeue next queue [.sniffer next, .promiscSniffer next]) next :=
        h.loaded_followed rfl rfl rfl rfl
      obtain ⟨d', hd', hstarts⟩ := transmitStart_total answers hloaded
      exact ⟨d', hd', .followed rfl rfl hloaded hstarts⟩

theorem handle_outcome {d : Device π} (h : Inv d) {e : Event π} (hp : Possible d e) :
    (∃ d', handle e d = .ok d' ∧ Outcome d e d') ∨ handle e d = .error .channelState := by
  cases e with
  | sendFrom packet enqueued answers => exact Or.inl (sendFrom_outcome h packet enqueued answers)
  | setSendEnable sendEnable => exact Or.inl ⟨_, rfl, .setSendEnable sendEnable⟩
  | fire e answers =>
    cases e with
    | transmitStart => exact Or.inl (transmitStart_outcome h answers hp)
    | transmitCompleteEvent => exact transmitCompleteEvent_outcome h answers hp
    | transmitReadyEvent => exact Or.inl (transmitReadyEvent_outcome h answers hp)

theorem Step.outcome {d d' : Device π} {e : Event π} (h : Inv d) (hs : Step d e d') :
    Outcome d e d' := by
  obtain ⟨d'', hok, ho⟩ | herr := handle_outcome h hs.1
  · rw [hs.2] at hok
    rwa [Except.ok.inj hok]
  · rw [hs.2] at herr
    cases herr

/-! ## The invariant holds in every run -/

theorem Outcome.inv {d d' : Device π} {e : Event π} (h : Inv d) (ho : Outcome d e d') : Inv d' := by
  obtain ⟨hlink, hshape, hacc⟩ := h
  cases ho with
  | sent _ _ _ hloaded hs => exact hs.inv hloaded
  | retried _ hloaded hs => exact hs.inv hloaded
  | followed _ _ hloaded hs => exact hs.inv hloaded
  | setSendEnable => exact ⟨hlink, hshape, hacc⟩
  | notEnabled | queueFull =>
    refine ⟨hlink, hshape, hacc.trans ?_⟩
    simp only [settled_trace, Trace.settles, List.filterMap_cons, List.filterMap_nil,
      List.append_nil]
    rfl
  | queued =>
    have hsettled : ∀ packet, (d.enqueue packet).settled = d.settled := by
      intro packet
      simp [Device.enqueue, Device.settled, Device.trace, List.filterMap_cons, Trace.settles]
    refine ⟨hlink, hshape, ?_⟩
    rw [hsettled]
    exact (congrArg (· ++ _) hacc).trans (List.append_assoc _ _ _)
  | completed hbusy hcur =>
    refine ⟨hlink, ⟨rfl, rfl⟩, ?_⟩
    simpa [Device.settled, Device.waiting, Device.trace, hbusy, List.filterMap_cons, Trace.settles]
      using hacc
  | idled hgap hcur hq =>
    refine ⟨hlink, ⟨hcur, rfl⟩, ?_⟩
    simpa [Device.settled, Device.waiting, hgap, hcur, hq] using hacc

theorem inv_attached (sendEnable : Bool) (b : Backoff) :
    Inv (attached sendEnable b : Device π) :=
  ⟨rfl, ⟨rfl, rfl⟩, rfl⟩

theorem run_inv {sendEnable : Bool} {b : Backoff} {past : List (Device π × Event π)} {d : Device π}
    (h : Run Step (attached sendEnable b) past d) : Inv d :=
  h.invariant (inv_attached sendEnable b) fun _ _ _ hd hs => (hs.outcome hd).inv hd

/-- In every run, whatever the channel and the queue answer and whatever the retry limit: packets
are conserved, and whichever event comes next, no assertion on the machine state or the current
packet fails. -/
theorem run_conserved {sendEnable : Bool} {b : Backoff} {past : List (Device π × Event π)}
    {d : Device π} (h : Run Step (attached sendEnable b) past d) :
    Conserved d ∧ ∀ (e : Event π) (a : Assertion), Possible d e → handle e d = .error a →
      a = .channelState := by
  refine ⟨(run_inv h).conserved, fun e a hp herr => ?_⟩
  obtain ⟨d', hok, -⟩ | hchannel := handle_outcome (run_inv h) hp
  · rw [herr] at hok
    cases hok
  · rw [herr] at hchannel
    exact Except.error.inj hchannel

/-! ## Two packets and a retry -/

def busyChannel : ℕ → ChannelAnswer := fun _ => ⟨.transmitting, false⟩

def backedOffDevice : Device ℕ where
  m_linkUp := true
  m_sendEnable := true
  m_txMachineState := .backoff
  m_currentPkt := some 7
  m_queue := []
  m_backoff := Backoff.standard.incrNumRetries
  scheduled := [.transmitStart]
  traced := [.macTx 7, .promiscSniffer 7, .sniffer 7, .macTxBackoff 7]
  accepted := [7]

theorem run_backedOff : Run Step (attached true .standard)
    [(attached true .standard, .sendFrom 7 true busyChannel)] backedOffDevice :=
  .next .start ⟨trivial, by decide⟩

/-- A second packet is queued, the first leaves in a retry, and the second is put on the channel. -/
def queuedDevice : Device ℕ :=
  { backedOffDevice with
    m_queue := [8]
    traced := backedOffDevice.traced ++ [.macTx 8]
    accepted := [7, 8] }

def retriedDevice : Device ℕ :=
  { queuedDevice with
    m_txMachineState := .busy
    m_backoff := .standard
    scheduled := [.transmitCompleteEvent]
    traced := queuedDevice.traced ++ [.phyTxBegin 7] }

def completedDevice : Device ℕ :=
  { retriedDevice with
    m_txMachineState := .gap
    m_currentPkt := none
    scheduled := [.transmitReadyEvent]
    traced := retriedDevice.traced ++ [.phyTxEnd 7] }

def secondDevice : Device ℕ :=
  { completedDevice with
    m_txMachineState := .busy
    m_currentPkt := some 8
    m_queue := []
    scheduled := [.transmitCompleteEvent]
    traced := completedDevice.traced ++ [.sniffer 8, .promiscSniffer 8, .phyTxBegin 8] }

def idleChannel : ℕ → ChannelAnswer := fun _ => ⟨.idle, true⟩

def twoPackets : List (Device ℕ × Event ℕ) :=
  [(completedDevice, .fire .transmitReadyEvent idleChannel),
    (retriedDevice, .fire .transmitCompleteEvent busyChannel),
    (queuedDevice, .fire .transmitStart idleChannel),
    (backedOffDevice, .sendFrom 8 true busyChannel),
    (attached true .standard, .sendFrom 7 true busyChannel)]

theorem run_twoPackets : Run Step (attached true .standard) twoPackets secondDevice := by
  have hqueued : Step backedOffDevice (.sendFrom 8 true busyChannel) queuedDevice :=
    ⟨trivial, by decide⟩
  have hretried : Step queuedDevice (.fire .transmitStart idleChannel) retriedDevice :=
    ⟨List.mem_cons_self, by decide⟩
  have hcompleted : Step retriedDevice (.fire .transmitCompleteEvent busyChannel) completedDevice :=
    ⟨List.mem_cons_self, by decide⟩
  have hsecond : Step completedDevice (.fire .transmitReadyEvent idleChannel) secondDevice :=
    ⟨List.mem_cons_self, by decide⟩
  exact (((run_backedOff.next hqueued).next hretried).next hcompleted).next hsecond

theorem conserved_twoPackets :
    Conserved secondDevice ∧ ∀ (e : Event ℕ) (a : Assertion), Possible secondDevice e →
      handle e secondDevice = .error a → a = .channelState :=
  run_conserved run_twoPackets

end ComputerNetworks.CsmaDevice
