import ComputerNetworks.CsmaDevice.Transmitter

/-! # Whose retries are counted

`m_numBackoffRetries` should count the retries of the current packet, and so be 0 whenever a packet
becomes current. It is reset when a packet is begun and when one is aborted, but not when the channel
refuses one that was backed off before, and the constructor of `Backoff` with arguments does not set
it at all. `ownRetries_iff` says that there is nothing else.
-/
namespace ComputerNetworks.CsmaDevice
open Runs
set_option autoImplicit false

variable {π : Type}

/-! ## The calls of `TransmitStart` -/

/-- The retries since a packet was taken from the queue last, which is traced by the sniffer. -/
def backoffs : List (Trace π) → ℕ :=
  List.foldl (fun n t =>
    match t with
    | .sniffer _ => 0
    | .macTxBackoff _ => n + 1
    | _ => n) 0

def Device.backoffs (d : Device π) : ℕ := CsmaDevice.backoffs d.traced

/-- The event `e` makes the device `d` call `TransmitStart` on `s`. -/
inductive Entry (d : Device π) : Event π → (ℕ → ChannelAnswer) → Device π → Prop
  | sendFrom {packet next : π} {queue : List π} {answers : ℕ → ChannelAnswer} :
      d.m_linkUp = true → d.m_sendEnable = true → d.m_txMachineState = .ready →
        d.m_queue ++ [packet] = next :: queue →
        Entry d (.sendFrom packet true answers) answers
          ((d.enqueue packet).dequeue next queue [.promiscSniffer next, .sniffer next])
  | retry {answers : ℕ → ChannelAnswer} : .transmitStart ∈ d.scheduled →
      Entry d (.fire .transmitStart answers) answers
        { d with scheduled := d.scheduled.erase .transmitStart }
  | ready {next : π} {queue : List π} {answers : ℕ → ChannelAnswer} :
      .transmitReadyEvent ∈ d.scheduled → d.m_txMachineState = .gap → d.m_currentPkt = none →
        d.m_queue = next :: queue →
        Entry d (.fire .transmitReadyEvent answers) answers
          (({ d with
              m_txMachineState := .ready
              scheduled := d.scheduled.erase .transmitReadyEvent }).dequeue next queue
            [.sniffer next, .promiscSniffer next])

/-- `TransmitStart` on `d` is a call on `s` itself, or makes one through `TransmitAbort`. -/
inductive Calls : (ℕ → ChannelAnswer) → Device π → Device π → Prop
  | here {answers : ℕ → ChannelAnswer} {d : Device π} : Calls answers d d
  | behind {answers : ℕ → ChannelAnswer} {d s : Device π} {packet next : π} {queue : List π} :
      d.m_currentPkt = some packet → d.m_sendEnable = true → (answers 0).state ≠ .idle →
        d.m_backoff.maxRetriesReached = true → d.m_queue = next :: queue →
        Calls (fun k => answers (k + 1)) (({ d.drop packet with
          m_backoff := d.m_backoff.resetBackoffTime, m_txMachineState := .ready }).dequeue next queue
            [.sniffer next, .promiscSniffer next]) s →
        Calls answers d s

/-- At a call of `TransmitStart` the retries counted are those of the current packet, none of them
if it was just taken from the queue. So it is backed off up to `m_maxRetries` times and aborted when
the channel is busy once more. -/
structure OwnRetries (d : Device π) : Prop where
  counted : d.m_backoff.m_numBackoffRetries.toNat = d.backoffs
  limited : d.backoffs ≤ d.m_backoff.m_maxRetries.toNat
  taken : d.m_txMachineState = .ready → d.m_backoff.m_numBackoffRetries = 0
  sensed : ∀ (calls : ℕ) (answers : ℕ → ChannelAnswer) (packet : π),
    d.m_currentPkt = some packet → d.m_sendEnable = true → (answers 0).state ≠ .idle →
    transmitStartWithin (calls + 1) answers d =
      if d.backoffs < d.m_backoff.m_maxRetries.toNat then
        .ok (({ d.trace [.macTxBackoff packet] with
          m_txMachineState := .backoff
          m_backoff := d.m_backoff.incrNumRetries }).schedule .transmitStart)
      else transmitAbort (transmitStartWithin calls fun k => answers (k + 1))
        { d with m_txMachineState := .backoff }

/-- Whichever event comes next, with or without a `SetSendEnable` before it, its calls of
`TransmitStart` count the retries of their own packet. -/
def CountsOwn (d : Device π) : Prop :=
  ∀ sendEnable e answers s s', Entry (d.setSendEnable sendEnable) e answers s →
    Calls answers s s' → OwnRetries s'

/-- The step is not one in which the idle channel refuses a packet that was backed off. -/
def KeepsCount (d : Device π) : Event π → Prop
  | .fire .transmitStart answers =>
      ¬ (d.m_sendEnable = true ∧ (answers 0).state = .idle ∧ (answers 0).accepts = false)
  | _ => True

/-! ## What is counted -/

theorem backoffs_append_sniffer (t u : List (Trace π)) (packet : π) :
    backoffs (t ++ .sniffer packet :: u) = backoffs u := by
  unfold backoffs
  rw [List.foldl_append, List.foldl_cons]

theorem backoffs_macTxBackoff (t : List (Trace π)) (packet : π) :
    backoffs (t ++ [.macTxBackoff packet]) = backoffs t + 1 := by
  unfold backoffs
  rw [List.foldl_append]
  rfl

theorem backoffs_dequeue_sent (d : Device π) (next : π) (queue : List π) :
    (d.dequeue next queue [.promiscSniffer next, .sniffer next]).backoffs = 0 := by
  have h := backoffs_append_sniffer (d.traced ++ [.promiscSniffer next]) [] next
  rw [List.append_assoc] at h
  exact h

theorem backoffs_dequeue (d : Device π) (next : π) (queue : List π) :
    (d.dequeue next queue [.sniffer next, .promiscSniffer next]).backoffs = 0 :=
  backoffs_append_sniffer d.traced [.promiscSniffer next] next

/-- What the counter holds in each machine state. -/
structure Counted (d : Device π) : Prop where
  other : d.m_txMachineState ≠ .backoff → d.m_backoff.m_numBackoffRetries = 0
  backoff : d.m_txMachineState = .backoff → d.m_currentPkt ≠ none →
    d.m_backoff.m_numBackoffRetries.toNat = d.backoffs ∧ 1 ≤ d.backoffs ∧
      d.backoffs ≤ d.m_backoff.m_maxRetries.toNat

theorem counted_of_zero {d : Device π} (hstate : d.m_txMachineState ≠ .backoff)
    (hcount : d.m_backoff.m_numBackoffRetries = 0) : Counted d :=
  ⟨fun _ => hcount, fun h => absurd h hstate⟩

/-- The same at a call of `TransmitStart`. -/
structure CountedCall (d : Device π) : Prop where
  counted : d.m_backoff.m_numBackoffRetries.toNat = d.backoffs
  limited : d.backoffs ≤ d.m_backoff.m_maxRetries.toNat
  taken : d.m_txMachineState = .ready → d.m_backoff.m_numBackoffRetries = 0

theorem countedCall_taken {d : Device π} (hcount : d.m_backoff.m_numBackoffRetries = 0)
    (hback : d.backoffs = 0) : CountedCall d := by
  refine ⟨?_, ?_, fun _ => hcount⟩
  · rw [hcount, hback]
    rfl
  · rw [hback]
    exact Nat.zero_le _

theorem maxRetriesReached_iff {d : Device π} (h : CountedCall d) :
    d.m_backoff.maxRetriesReached = true ↔ ¬ d.backoffs < d.m_backoff.m_maxRetries.toNat := by
  rw [Nat.not_lt, ← h.counted, ← UInt32.le_iff_toNat_le]
  exact decide_eq_true_iff

theorem CountedCall.ownRetries {d : Device π} {packet : π} (h : CountedCall d)
    (hl : Loaded d packet) : OwnRetries d := by
  refine ⟨h.counted, h.limited, h.taken, fun calls answers packet' hcur hen hbusy => ?_⟩
  have hnot : ¬ (d.m_txMachineState ≠ .ready ∧ d.m_txMachineState ≠ .backoff) := fun hne =>
    hl.state.elim hne.1 hne.2
  have hmax := maxRetriesReached_iff h
  generalize d.backoffs = n at hmax ⊢
  obtain ⟨linkUp, enable, state, current, queue, backoff, scheduled, traced, accepted⟩ := d
  simp only at hcur hen hnot hmax ⊢
  subst hcur hen
  simp only [transmitStartWithin, Bool.true_eq_false, if_false, hnot, ne_eq, hbusy,
    not_false_eq_true, if_true]
  by_cases hless : n < backoff.m_maxRetries.toNat
  · rw [if_pos hless, if_neg fun h => hmax.mp h hless]
    rfl
  · rw [if_neg hless, if_pos (hmax.mpr hless)]

/-! ## From an event to its calls -/

theorem Entry.handle_eq {d s : Device π} {e : Event π} {answers : ℕ → ChannelAnswer}
    (h : Entry d e answers s) : handle e d = transmitStart answers s := by
  cases h with
  | @sendFrom packet next queue _ hlink hen hready hnext =>
    obtain ⟨linkUp, enable, state, current, queue, backoff, scheduled, traced, accepted⟩ := d
    simp only at hlink hen hready hnext
    subst hlink hen hready
    simp only [handle, CsmaDevice.sendFrom, Device.enqueue, Device.trace, hnext, if_true,
      Bool.true_eq_false, if_false]
    cases transmitStart answers _ <;> rfl
  | retry _ => rfl
  | ready _ hgap hcur hq =>
    obtain ⟨linkUp, enable, state, current, queue, backoff, scheduled, traced, accepted⟩ := d
    simp only at hgap hcur hq
    subst hgap hcur hq
    rfl

theorem Inv.backoff_of_scheduled {d : Device π} (hd : Inv d) (h : .transmitStart ∈ d.scheduled) :
    d.m_txMachineState = .backoff := by
  have hshape := hd.shape
  cases hs : d.m_txMachineState with
  | backoff => rfl
  | ready | busy | gap =>
    rw [Shape, hs] at hshape
    rw [hshape.2] at h
    simp at h

theorem Entry.loaded {d s : Device π} {e : Event π} {answers : ℕ → ChannelAnswer} (hd : Inv d)
    (h : Entry d e answers s) : ∃ packet, Loaded s packet := by
  have hshape := hd.shape
  cases h with
  | sendFrom _ _ hready hnext => exact ⟨_, hd.loaded_sent hready hnext rfl⟩
  | retry hsched =>
    have hstate := hd.backoff_of_scheduled hsched
    rw [Shape, hstate] at hshape
    obtain ⟨hcur, hlist⟩ | ⟨-, hlist⟩ := hshape
    · obtain ⟨packet, hpacket⟩ := Option.ne_none_iff_exists'.mp hcur
      rw [hlist]
      exact ⟨packet, hd.loaded_retried hstate hpacket⟩
    · rw [hlist] at hsched
      cases hsched
  | ready _ hgap hcur hq =>
    rw [Shape, hgap] at hshape
    rw [hshape.2]
    exact ⟨_, hd.loaded_followed hgap hcur hq rfl⟩

theorem Entry.starts {d d' s : Device π} {e : Event π} {answers : ℕ → ChannelAnswer} (hd : Inv d)
    (h : Entry d e answers s) (hstep : Step d e d') : Starts answers s d' := by
  obtain ⟨packet, hl⟩ := h.loaded hd
  obtain ⟨d'', hstart, hstarts⟩ := transmitStart_total answers hl
  have hsame := hstep.2
  rw [h.handle_eq, hstart] at hsame
  rwa [← Except.ok.inj hsame]

theorem Entry.counted {d s : Device π} {e : Event π} {answers : ℕ → ChannelAnswer} (hd : Inv d)
    (hc : Counted d) (h : Entry d e answers s) : CountedCall s := by
  obtain ⟨packet, hl⟩ := h.loaded hd
  cases h with
  | sendFrom _ _ hready _ =>
    have hcount := hc.other (by rw [hready]; exact TxMachineState.noConfusion)
    exact countedCall_taken hcount (backoffs_dequeue_sent _ _ _)
  | ready _ hgap _ _ =>
    have hcount := hc.other (by rw [hgap]; exact TxMachineState.noConfusion)
    exact countedCall_taken hcount (backoffs_dequeue _ _ _)
  | retry hsched =>
    have hstate := hd.backoff_of_scheduled hsched
    have hcur : d.m_currentPkt = some packet := hl.current
    obtain ⟨hcount, -, hle⟩ := hc.backoff hstate (by simp [hcur])
    refine ⟨hcount, hle, fun hready => ?_⟩
    have hready' : d.m_txMachineState = .ready := hready
    rw [hstate] at hready'
    cases hready'

theorem Calls.counted {answers : ℕ → ChannelAnswer} {d s : Device π} (h : Calls answers d s)
    {packet : π} (hl : Loaded d packet) (hc : CountedCall d) :
    ∃ packet', Loaded s packet' ∧ CountedCall s := by
  induction h generalizing packet with
  | here => exact ⟨packet, hl, hc⟩
  | behind hcur _ _ _ hq _ ih =>
    obtain rfl := Option.some.inj (hcur.symm.trans hl.current)
    exact ih (hl.aborted hq _ _ rfl) (countedCall_taken rfl (backoffs_dequeue _ _ _))

theorem Counted.countsOwn {d : Device π} (hd : Inv d) (hc : Counted d) : CountsOwn d := by
  intro sendEnable e answers s s' hentry hcalls
  have hd' : Inv (d.setSendEnable sendEnable) := ⟨hd.linkUp, hd.shape, hd.accounted⟩
  have hc' : Counted (d.setSendEnable sendEnable) := ⟨hc.other, hc.backoff⟩
  obtain ⟨packet, hl⟩ := hentry.loaded hd'
  obtain ⟨packet', hl', hcall⟩ := hcalls.counted hl (hentry.counted hd' hc')
  exact hcall.ownRetries hl'

/-! ## What a step does to the count -/

/-- Only a refusal can leave a count behind, and only the count it found. -/
theorem Starts.counted {answers : ℕ → ChannelAnswer} {d d' : Device π} (hs : Starts answers d d')
    {packet : π} (hl : Loaded d packet) (hc : CountedCall d)
    (hkeep : (answers 0).state = .idle → (answers 0).accepts = false → d.m_sendEnable = true →
      d.m_backoff.m_numBackoffRetries = 0) : Counted d' := by
  induction hs generalizing packet with
  | disabled hcur hdis =>
    refine ⟨fun hstate => hc.taken (hl.state.resolve_right hstate), fun _ hnone => ?_⟩
    exact absurd rfl hnone
  | @backedOff _ d packet' hcur hen hbusy hmax =>
    refine ⟨fun hstate => absurd rfl hstate, fun _ _ => ?_⟩
    have hless : d.backoffs < d.m_backoff.m_maxRetries.toNat := by
      by_contra hnot
      rw [(maxRetriesReached_iff hc).mpr hnot] at hmax
      cases hmax
    have hcount : (d.m_backoff.m_numBackoffRetries + 1).toNat = d.backoffs + 1 := by
      have hbound := d.m_backoff.m_maxRetries.toNat_lt
      rw [UInt32.toNat_add, hc.counted]
      exact Nat.mod_eq_of_lt (by simp; omega)
    have hback : backoffs (d.traced ++ [.macTxBackoff packet']) = d.backoffs + 1 :=
      backoffs_macTxBackoff d.traced packet'
    refine ⟨hcount.trans hback.symm, ?_, ?_⟩
    · show 1 ≤ backoffs (d.traced ++ [.macTxBackoff packet'])
      omega
    · show backoffs (d.traced ++ [.macTxBackoff packet']) ≤ d.m_backoff.m_maxRetries.toNat
      omega
  | abortedLast _ _ _ _ _ => exact counted_of_zero TxMachineState.noConfusion rfl
  | aborted hcur _ _ _ hq _ ih =>
    obtain rfl := Option.some.inj (hcur.symm.trans hl.current)
    exact ih (hl.aborted hq _ _ rfl) (countedCall_taken rfl (backoffs_dequeue _ _ _))
      fun _ _ _ => rfl
  | refused _ hen hidle hacc =>
    exact counted_of_zero TxMachineState.noConfusion (hkeep hidle hacc hen)
  | begun _ _ _ _ => exact counted_of_zero TxMachineState.noConfusion rfl

theorem counted_of_entry {d d' s : Device π} {e : Event π} {answers : ℕ → ChannelAnswer}
    (hd : Inv d) (hc : Counted d) (hkeep : KeepsCount d e) (h : Entry d e answers s)
    (hstep : Step d e d') : Counted d' := by
  obtain ⟨packet, hl⟩ := h.loaded hd
  have hcall := h.counted hd hc
  refine (h.starts hd hstep).counted hl hcall fun hidle hacc hen => ?_
  cases h with
  | sendFrom _ _ hready _ => exact hcall.taken hready
  | ready _ _ _ _ => exact hcall.taken rfl
  | retry _ => exact absurd ⟨hen, hidle, hacc⟩ hkeep

theorem counted_step {d d' : Device π} {e : Event π} (hd : Inv d) (hc : Counted d)
    (hkeep : KeepsCount d e) (hstep : Step d e d') : Counted d' := by
  cases hstep.outcome hd with
  | notEnabled _ | queueFull _ | queued _ _ =>
    refine ⟨hc.other, fun hstate hcur => ?_⟩
    obtain ⟨hcount, hone, hle⟩ := hc.backoff hstate hcur
    simp only [Device.backoffs, Device.enqueue, Device.trace, backoffs, List.foldl_append,
      List.foldl_cons, List.foldl_nil] at hcount hone hle ⊢
    exact ⟨hcount, hone, hle⟩
  | setSendEnable => exact ⟨hc.other, hc.backoff⟩
  | sent hen hready hnext _ _ =>
    exact counted_of_entry hd hc hkeep (.sendFrom hd.linkUp hen hready hnext) hstep
  | retried _ _ _ => exact counted_of_entry hd hc hkeep (.retry hstep.1) hstep
  | followed hgap hq _ _ =>
    have hshape := hd.shape
    rw [Shape, hgap] at hshape
    exact counted_of_entry hd hc hkeep (.ready hstep.1 hgap hshape.1 hq) hstep
  | completed hbusy _ =>
    refine counted_of_zero TxMachineState.noConfusion (hc.other ?_)
    rw [hbusy]
    exact TxMachineState.noConfusion
  | idled hgap _ _ =>
    refine counted_of_zero TxMachineState.noConfusion (hc.other ?_)
    rw [hgap]
    exact TxMachineState.noConfusion

/-! ## Whole runs -/

theorem not_countsOwn [Nonempty π] {d : Device π} (hd : Inv d)
    (hready : d.m_txMachineState = .ready) (hne : d.m_backoff.m_numBackoffRetries ≠ 0) :
    ¬ CountsOwn d := by
  intro h
  obtain ⟨packet⟩ := ‹Nonempty π›
  obtain ⟨next, queue, hnext⟩ := List.exists_cons_of_ne_nil
    (List.append_ne_nil_of_right_ne_nil d.m_queue (List.cons_ne_nil packet []))
  have hown := h true (.sendFrom packet true fun _ => ⟨.idle, true⟩) _ _ _
    (.sendFrom hd.linkUp rfl hready hnext) .here
  exact hne (hown.taken hready)

theorem refused_leaves_count {d d' : Device π} {e : Event π} (hd : Inv d) (hc : Counted d)
    (hnot : ¬ KeepsCount d e) (hstep : Step d e d') :
    d'.m_txMachineState = .ready ∧ d'.m_backoff.m_numBackoffRetries ≠ 0 := by
  cases e with
  | sendFrom | setSendEnable => exact absurd trivial hnot
  | fire e answers =>
    cases e with
    | transmitCompleteEvent | transmitReadyEvent => exact absurd trivial hnot
    | transmitStart =>
      obtain ⟨hen, hidle, hacc⟩ := not_not.mp hnot
      have hentry : Entry d (.fire .transmitStart answers) answers _ := .retry hstep.1
      obtain ⟨packet, hl⟩ := hentry.loaded hd
      have hcur : d.m_currentPkt = some packet := hl.current
      obtain ⟨hcount, hone, -⟩ :=
        hc.backoff (hd.backoff_of_scheduled hstep.1) (by simp [hcur])
      cases hentry.starts hd hstep with
      | refused _ _ _ _ =>
        refine ⟨rfl, fun hzero => ?_⟩
        have hzero' : d.m_backoff.m_numBackoffRetries = 0 := hzero
        rw [hzero'] at hcount
        have : (0 : UInt32).toNat = 0 := rfl
        omega
      | disabled _ hdis => exact absurd (hen.symm.trans hdis) Bool.noConfusion
      | begun _ _ _ hacc' => exact absurd (hacc.symm.trans hacc') Bool.noConfusion
      | backedOff _ _ hbusy _ | abortedLast _ _ hbusy _ _ | aborted _ _ hbusy _ _ _ =>
        exact absurd hidle hbusy

theorem run_counted {sendEnable : Bool} {b : Backoff} (h0 : b.m_numBackoffRetries = 0)
    {past : List (Device π × Event π)} {d : Device π}
    (h : Run Step (attached sendEnable b) past d) (hg : Guarded KeepsCount past) : Counted d := by
  have hstart : Counted (attached sendEnable b : Device π) :=
    counted_of_zero TxMachineState.noConfusion h0
  have key : Inv d ∧ Counted d :=
    h.guarded_invariant (I := fun d => Inv d ∧ Counted d) ⟨inv_attached sendEnable b, hstart⟩
      (fun _ _ _ hd hkeep hs =>
        ⟨(hs.outcome hd.1).inv hd.1, counted_step hd.1 hd.2 hkeep hs⟩) hg
  exact key.2

/-- In every state of a run, whatever comes next, the retries counted at every call of
`TransmitStart` are those of the packet it is about, if and only if the constructor left 0 in the
counter and the channel has refused no packet that was backed off before. -/
theorem ownRetries_iff [Nonempty π] {sendEnable : Bool} {b : Backoff}
    {past : List (Device π × Event π)} {d : Device π}
    (h : Run Step (attached sendEnable b) past d) :
    Always CountsOwn past d ↔ b.m_numBackoffRetries = 0 ∧ Guarded KeepsCount past := by
  constructor
  · intro halways
    have h0 : b.m_numBackoffRetries = 0 := by
      by_contra hne
      exact not_countsOwn (inv_attached sendEnable b) rfl hne (h.first_of_always halways)
    refine ⟨h0, ?_⟩
    -- the first step that breaks the condition leaves a state in which the next packet shows it
    induction h with
    | start => exact guarded_nil _
    | @next past s t e hrun hstep ih =>
      have hbefore : Always CountsOwn past s :=
        ⟨halways.2 (s, e) List.mem_cons_self, fun p hp => halways.2 p (List.mem_cons_of_mem _ hp)⟩
      have hg := ih hbefore
      refine (guarded_cons _ _ _ _).mpr ⟨?_, hg⟩
      by_contra hnot
      obtain ⟨hready, hne⟩ :=
        refused_leaves_count (run_inv hrun) (run_counted h0 hrun hg) hnot hstep
      exact not_countsOwn (run_inv (hrun.next hstep)) hready hne halways.1
  · rintro ⟨h0, hg⟩
    exact h.always_of_guarded
      (fun _ _ hrun hg => (run_counted h0 hrun hg).countsOwn (run_inv hrun)) hg

/-! ## An accepted retry, and a refused one -/

theorem ownRetries_twoPackets : Always CountsOwn twoPackets secondDevice :=
  (ownRetries_iff run_twoPackets).mpr
    ⟨rfl, by simp [twoPackets, KeepsCount, idleChannel]⟩

def refusedDevice : Device ℕ :=
  { backedOffDevice with
    m_txMachineState := .ready, m_currentPkt := none, scheduled := []
    traced := backedOffDevice.traced ++ [.phyTxDrop 7] }

/-- Backed off once and then refused: the next packet starts with one retry less. -/
theorem refused_retry_counts :
    ¬ ∀ (sendEnable : Bool) (b : Backoff) (past : List (Device ℕ × Event ℕ)) (d : Device ℕ),
      Run Step (attached sendEnable b) past d → CountsOwn d := by
  intro h
  have hfire : Step backedOffDevice (.fire .transmitStart fun _ => ⟨.idle, false⟩) refusedDevice :=
    ⟨List.mem_cons_self, by decide⟩
  have hown := h true .standard _ _ (run_backedOff.next hfire)
  have hentry : Entry (refusedDevice.setSendEnable true) (.sendFrom 8 true busyChannel) busyChannel _ :=
    .sendFrom rfl rfl rfl rfl
  exact absurd ((hown true _ _ _ _ hentry .here).taken rfl) (by decide)

end ComputerNetworks.CsmaDevice
