import ComputerNetworks.CsmaDevice.Transmitter

/-! # When the transmitter stalls

A device with work to do should have one event pending, and a device without a pending event should
be ready. Three early ends break this: `TransmitStart` that finds sending disabled leaves a device
in backoff without an event, a refusal by the channel leaves the rest of the queue without one, and
enabling a ready device does not look at the queue. `neverStalls_iff` says that there is nothing
else.
-/
namespace ComputerNetworks.CsmaDevice
open Runs
set_option autoImplicit false

variable {π : Type}

/-- With sending enabled and a packet waiting exactly one event is pending, and a device without a
pending event is ready. -/
structure Live (d : Device π) : Prop where
  one_event : d.m_sendEnable = true → d.m_currentPkt ≠ none ∨ d.m_queue ≠ [] →
    d.scheduled.length = 1
  ready : d.scheduled = [] → d.m_txMachineState = .ready

/-- In the call of `TransmitStart` for the current packet, or in one that an abort makes for a packet
behind it, the idle channel refuses the packet while the queue is not empty. The calls before find
the channel busy and the retries used up; each abort resets them. -/
def RefusedBeforeOthers (b : Backoff) (queue : List π) (answers : ℕ → ChannelAnswer) : Prop :=
  ∃ i < queue.length, (answers i).state = .idle ∧ (answers i).accepts = false ∧
    ∀ j < i, (answers j).state ≠ .idle ∧
      b.m_maxRetries ≤ if j = 0 then b.m_numBackoffRetries else 0

def KeepsGoing (d : Device π) : Event π → Prop
  | .sendFrom _ _ _ => True
  | .setSendEnable sendEnable =>
      sendEnable = true → d.m_txMachineState = .ready → d.m_queue = []
  | .fire .transmitStart answers =>
      d.m_sendEnable = true ∧ ¬ RefusedBeforeOthers d.m_backoff d.m_queue answers
  | .fire .transmitCompleteEvent _ => True
  | .fire .transmitReadyEvent answers =>
      d.m_sendEnable = true → ¬ RefusedBeforeOthers d.m_backoff d.m_queue.tail answers

/-! ## One call of `TransmitStart` -/

theorem refusedBeforeOthers_zero {b : Backoff} {queue : List π} {answers : ℕ → ChannelAnswer}
    (hidle : (answers 0).state = .idle) :
    RefusedBeforeOthers b queue answers ↔ queue ≠ [] ∧ (answers 0).accepts = false := by
  constructor
  · rintro ⟨i, hi, hstate, hacc, hbefore⟩
    obtain rfl : i = 0 := by
      by_contra hne
      exact (hbefore 0 (Nat.pos_of_ne_zero hne)).1 hidle
    exact ⟨List.length_pos_iff.mp hi, hacc⟩
  · rintro ⟨hne, hacc⟩
    exact ⟨0, List.length_pos_iff.mpr hne, hidle, hacc, fun j hj => absurd hj (Nat.not_lt_zero j)⟩

theorem not_refusedBeforeOthers_backoff {b : Backoff} {queue : List π}
    {answers : ℕ → ChannelAnswer} (hbusy : (answers 0).state ≠ .idle)
    (hmax : b.maxRetriesReached = false) : ¬ RefusedBeforeOthers b queue answers := by
  rintro ⟨i, -, hstate, -, hbefore⟩
  obtain rfl | hi := Nat.eq_zero_or_pos i
  · exact hbusy hstate
  · have hle := (hbefore 0 hi).2
    rw [if_pos rfl] at hle
    unfold Backoff.maxRetriesReached at hmax
    exact of_decide_eq_false hmax hle

theorem refusedBeforeOthers_abort {b : Backoff} {next : π} {queue : List π}
    {answers : ℕ → ChannelAnswer} (hbusy : (answers 0).state ≠ .idle)
    (hmax : b.maxRetriesReached = true) :
    RefusedBeforeOthers b (next :: queue) answers ↔
      RefusedBeforeOthers b.resetBackoffTime queue fun k => answers (k + 1) := by
  have hmax' : b.m_maxRetries ≤ b.m_numBackoffRetries := of_decide_eq_true hmax
  constructor
  · rintro ⟨i, hi, hstate, hacc, hbefore⟩
    cases i with
    | zero => exact absurd hstate hbusy
    | succ i =>
      refine ⟨i, Nat.lt_of_succ_lt_succ hi, hstate, hacc, fun j hj => ?_⟩
      have h := hbefore (j + 1) (Nat.succ_lt_succ hj)
      rw [if_neg (Nat.succ_ne_zero j)] at h
      exact ⟨h.1, by simpa [Backoff.resetBackoffTime] using h.2⟩
  · rintro ⟨i, hi, hstate, hacc, hbefore⟩
    refine ⟨i + 1, Nat.succ_lt_succ hi, hstate, hacc, fun j hj => ?_⟩
    cases j with
    | zero => exact ⟨hbusy, by rwa [if_pos rfl]⟩
    | succ j =>
      have h := hbefore j (Nat.lt_of_succ_lt_succ hj)
      rw [if_neg (Nat.succ_ne_zero j)]
      exact ⟨h.1, by simpa [Backoff.resetBackoffTime] using h.2⟩

theorem not_refusedBeforeOthers_nil {b : Backoff} {answers : ℕ → ChannelAnswer} :
    ¬ RefusedBeforeOthers b ([] : List π) answers := by
  rintro ⟨i, hi, -⟩
  exact Nat.not_lt_zero i hi

theorem Starts.live_iff {answers : ℕ → ChannelAnswer} {d d' : Device π}
    (hs : Starts answers d d') {packet : π} (h : Loaded d packet) (hen : d.m_sendEnable = true) :
    Live d' ↔ ¬ RefusedBeforeOthers d.m_backoff d.m_queue answers := by
  induction hs generalizing packet with
  | disabled _ hdis =>
    rw [hen] at hdis
    cases hdis
  | backedOff hcur _ hbusy hmax =>
    refine iff_of_true ⟨fun _ _ => ?_, fun hnil => ?_⟩ (not_refusedBeforeOthers_backoff hbusy hmax)
    · simp [Device.schedule, Device.trace, h.scheduled]
    · simp [Device.schedule] at hnil
  | abortedLast hcur _ hbusy hmax hq =>
    rw [hq]
    refine iff_of_true ⟨fun _ hwork => ?_, fun _ => rfl⟩ not_refusedBeforeOthers_nil
    simp [Device.drop, Device.trace, hq] at hwork
  | aborted hcur _ hbusy hmax hq _ ih =>
    obtain rfl := Option.some.inj (hcur.symm.trans h.current)
    rw [hq, refusedBeforeOthers_abort hbusy hmax]
    exact ih (h.aborted hq _ _ rfl) hen
  | @refused _ d packet' hcur _ hidle hacc =>
    rw [refusedBeforeOthers_zero hidle]
    constructor
    · rintro hlive ⟨hne, -⟩
      have hone := hlive.one_event hen (Or.inr hne)
      simp [Device.drop, Device.trace, h.scheduled] at hone
    · intro hnot
      have hq : d.m_queue = [] := by
        by_contra hne
        exact hnot ⟨hne, hacc⟩
      refine ⟨fun _ hwork => ?_, fun _ => rfl⟩
      simp [Device.drop, Device.trace, hq] at hwork
  | begun hcur _ hidle hacc =>
    refine iff_of_true ⟨fun _ _ => ?_, fun hnil => ?_⟩ ?_
    · simp [Device.schedule, Device.trace, h.scheduled]
    · simp [Device.schedule] at hnil
    · rw [refusedBeforeOthers_zero hidle, hacc]
      simp

theorem Starts.eq_drop {answers : ℕ → ChannelAnswer} {d d' : Device π} (hs : Starts answers d d')
    {packet : π} (hcur : d.m_currentPkt = some packet) (hdis : d.m_sendEnable = false) :
    d' = d.drop packet := by
  cases hs with
  | disabled hcur' _ => rw [Option.some.inj (hcur'.symm.trans hcur)]
  | backedOff _ hen | abortedLast _ hen | aborted _ hen | refused _ hen | begun _ hen =>
    rw [hdis] at hen
    cases hen

/-! ## One event -/

theorem Inv.scheduled_length {d : Device π} (h : Inv d) (hne : d.scheduled ≠ []) :
    d.scheduled.length = 1 :=
  le_antisymm h.conserved.one_event (List.length_pos_iff.mpr hne)

theorem Inv.ready_shape {d : Device π} (h : Inv d) (hready : d.m_txMachineState = .ready) :
    d.m_currentPkt = none ∧ d.scheduled = [] := by
  have hshape := h.shape
  rwa [Shape, hready] at hshape

theorem Live.queue_nil {d : Device π} (hlive : Live d) (h : Inv d)
    (hready : d.m_txMachineState = .ready) (hen : d.m_sendEnable = true) : d.m_queue = [] := by
  by_contra hne
  have hone := hlive.one_event hen (Or.inr hne)
  rw [(h.ready_shape hready).2] at hone
  cases hone

theorem Live.scheduled_length {d : Device π} (hlive : Live d) (h : Inv d)
    (hready : d.m_txMachineState ≠ .ready) : d.scheduled.length = 1 :=
  h.scheduled_length fun hnil => hready (hlive.ready hnil)

theorem Outcome.live_iff {d d' : Device π} {e : Event π} (h : Inv d) (hlive : Live d)
    (ho : Outcome d e d') : Live d' ↔ KeepsGoing d e := by
  have hinv := ho.inv h
  cases ho with
  | notEnabled | queueFull => exact iff_of_true ⟨hlive.one_event, hlive.ready⟩ trivial
  | queued hen hready =>
    exact iff_of_true ⟨fun _ _ => hlive.scheduled_length h hready, hlive.ready⟩ trivial
  | sent hen hready hnext hloaded hs =>
    rw [hlive.queue_nil h hready hen] at hnext
    obtain ⟨rfl, rfl⟩ := List.cons.inj hnext
    exact iff_of_true ((hs.live_iff hloaded hen).mpr not_refusedBeforeOthers_nil) trivial
  | setSendEnable sendEnable =>
    constructor
    · intro hlive' hen hready
      exact hlive'.queue_nil hinv hready hen
    · intro hgo
      refine ⟨fun hen hwork => ?_, hlive.ready⟩
      by_cases hready : d.m_txMachineState = .ready
      · obtain hcur | hq := hwork
        · exact absurd (h.ready_shape hready).1 hcur
        · exact absurd (hgo hen hready) hq
      · exact hlive.scheduled_length h hready
  | retried hbackoff hloaded hs =>
    cases hen : d.m_sendEnable with
    | true =>
      rw [hs.live_iff hloaded hen]
      exact ⟨fun hnot => ⟨hen, hnot⟩, And.right⟩
    | false =>
      rw [hs.eq_drop hloaded.current hen]
      constructor
      · intro hlive'
        have hready : d.m_txMachineState = .ready := hlive'.ready rfl
        rw [hbackoff] at hready
        cases hready
      · rintro ⟨hen', -⟩
        rw [hen] at hen'
        cases hen'
  | completed =>
    refine iff_of_true ⟨fun _ _ => rfl, fun hnil => ?_⟩ trivial
    cases hnil
  | idled hgap hcur hq =>
    refine iff_of_true ⟨fun _ hwork => ?_, fun _ => rfl⟩ fun _ => ?_
    · exact absurd hwork (by simp [hcur, hq])
    · rw [hq]
      exact not_refusedBeforeOthers_nil
  | @followed next queue _ _ _ hgap hq hloaded hs =>
    have htail : d.m_queue.tail = queue := by rw [hq, List.tail_cons]
    cases hen : d.m_sendEnable with
    | true =>
      rw [hs.live_iff hloaded hen, KeepsGoing, htail]
      exact ⟨fun hnot _ => hnot, fun hgo => hgo hen⟩
    | false =>
      rw [hs.eq_drop hloaded.current hen]
      refine iff_of_true ⟨fun hen' _ => ?_, fun _ => rfl⟩ fun hen' => ?_
      · exact absurd (hen.symm.trans hen') Bool.false_ne_true
      · exact absurd (hen.symm.trans hen') Bool.false_ne_true

/-! ## Whole runs -/

/-- In a run the device is live all the time if and only if sending is never disabled when a retry
fires, never enabled on a ready device with packets in its queue, and the channel refuses no packet
ahead of others. -/
theorem neverStalls_iff {sendEnable : Bool} {b : Backoff} {past : List (Device π × Event π)}
    {d : Device π} (h : Run Step (attached sendEnable b) past d) :
    Always Live past d ↔ Guarded KeepsGoing past := by
  have hstart : Live (attached sendEnable b : Device π) :=
    ⟨fun _ hwork => by simp [attached] at hwork, fun _ => rfl⟩
  refine h.always_iff (inv_attached sendEnable b) hstart fun s e t hs hstep => ?_
  have ho := hstep.outcome hs
  exact ⟨ho.inv hs, fun hlive => ho.live_iff hs hlive⟩

/-! ## A device that goes on, and one that stalls -/

theorem neverStalls_twoPackets : Always Live twoPackets secondDevice :=
  (neverStalls_iff run_twoPackets).mpr (by
    simp [twoPackets, KeepsGoing, RefusedBeforeOthers, idleChannel, queuedDevice, retriedDevice,
      completedDevice, backedOffDevice])

/-- The retry fires while sending is disabled: the device stays in backoff for good. -/
def stalledDevice : Device ℕ :=
  { backedOffDevice with
    m_sendEnable := false, m_currentPkt := none, scheduled := []
    traced := backedOffDevice.traced ++ [.phyTxDrop 7] }

theorem disabled_retry_stalls :
    ¬ ∀ (sendEnable : Bool) (b : Backoff) (past : List (Device ℕ × Event ℕ)) (d : Device ℕ),
      Run Step (attached sendEnable b) past d → Live d := by
  intro h
  have hoff : Step backedOffDevice (.setSendEnable false) (backedOffDevice.setSendEnable false) :=
    ⟨trivial, rfl⟩
  have hfire : Step (backedOffDevice.setSendEnable false) (.fire .transmitStart busyChannel)
      stalledDevice := ⟨List.mem_cons_self, by decide⟩
  have hready := (h true .standard _ _ ((run_backedOff.next hoff).next hfire)).ready rfl
  cases hready

end ComputerNetworks.CsmaDevice
