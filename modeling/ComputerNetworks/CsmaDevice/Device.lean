import ComputerNetworks.Library.Runs

/-! # The transmitter of the edited `CsmaNetDevice`

`SendFrom`, `SetSendEnable` and the three handlers that the device schedules for itself. A packet is
queued, taken into `m_currentPkt`, put on the channel or dropped; `TransmitAbort` and
`TransmitStart` call each other through the queue when retries run out. What the channel and the
queue answer is part of the event. Delays only order the events of the simulator, and here they fire
in any order; each fires once. A failing `NS_ASSERT` ends the run.
-/
namespace ComputerNetworks.CsmaDevice
open Runs
set_option autoImplicit false

/-! ## The class `Backoff` -/

/-- `m_slotTime` is in the time unit of the simulator. -/
structure Backoff where
  m_slotTime : ℤ
  m_minSlots : UInt32
  m_maxSlots : UInt32
  m_ceiling : UInt32
  m_maxRetries : UInt32
  m_numBackoffRetries : UInt32
  deriving DecidableEq

namespace Backoff

/-- The constructor without arguments; a microsecond is a thousand units. -/
def standard : Backoff where
  m_slotTime := 1000
  m_minSlots := 1
  m_maxSlots := 1000
  m_ceiling := 10
  m_maxRetries := 1000
  m_numBackoffRetries := 0

/-- The constructor with arguments. It leaves `m_numBackoffRetries` as the memory was. -/
def configured (slotTime : ℤ) (minSlots maxSlots ceiling maxRetries uninitialized : UInt32) :
    Backoff :=
  ⟨slotTime, minSlots, maxSlots, ceiling, maxRetries, uninitialized⟩

def resetBackoffTime (b : Backoff) : Backoff := { b with m_numBackoffRetries := 0 }

def maxRetriesReached (b : Backoff) : Bool := b.m_maxRetries ≤ b.m_numBackoffRetries

def incrNumRetries (b : Backoff) : Backoff :=
  { b with m_numBackoffRetries := b.m_numBackoffRetries + 1 }

end Backoff

/-! ## The device -/

inductive TxMachineState where
  | ready
  | busy
  | gap
  | backoff
  deriving DecidableEq

inductive TxEvent where
  | transmitStart
  | transmitCompleteEvent
  | transmitReadyEvent
  deriving DecidableEq

inductive Trace (π : Type) where
  | macTx (packet : π)
  | macTxDrop (packet : π)
  | macTxBackoff (packet : π)
  | phyTxBegin (packet : π)
  | phyTxEnd (packet : π)
  | phyTxDrop (packet : π)
  | sniffer (packet : π)
  | promiscSniffer (packet : π)
  deriving DecidableEq

/-- The fields the transmitter uses, the events of the simulator that are still to fire, and two
records of the past: what was traced, and the packets `m_queue->Enqueue` accepted. -/
structure Device (π : Type) where
  m_linkUp : Bool
  m_sendEnable : Bool
  m_txMachineState : TxMachineState
  m_currentPkt : Option π
  m_queue : List π
  m_backoff : Backoff
  scheduled : List TxEvent
  traced : List (Trace π)
  accepted : List π
  deriving DecidableEq

/-- `CsmaChannel::GetState`. -/
inductive WireState where
  | idle
  | transmitting
  | propagating
  deriving DecidableEq

/-- What the channel says to one call of `TransmitStart`: its state, and whether it takes the packet
when asked to. -/
structure ChannelAnswer where
  state : WireState
  accepts : Bool
  deriving DecidableEq

/-- The assertions of the handlers. `recursion` stands for a `TransmitStart` that does not return. -/
inductive Assertion where
  | currentPkt
  | txMachineState
  | channelState
  | linkUp
  | recursion
  deriving DecidableEq

section Handlers
variable {π : Type}

def Device.trace (d : Device π) (t : List (Trace π)) : Device π := { d with traced := d.traced ++ t }

def Device.schedule (d : Device π) (e : TxEvent) : Device π :=
  { d with scheduled := d.scheduled ++ [e] }

/-- `m_currentPkt = m_queue->Dequeue ()`, and what is traced after it. -/
def Device.dequeue (d : Device π) (packet : π) (queue : List π) (t : List (Trace π)) : Device π :=
  ({ d with m_currentPkt := some packet, m_queue := queue }).trace t

/-- `m_phyTxDropTrace (m_currentPkt); m_currentPkt = 0;` -/
def Device.drop (d : Device π) (packet : π) : Device π :=
  { d.trace [.phyTxDrop packet] with m_currentPkt := none }

def Device.setSendEnable (d : Device π) (sendEnable : Bool) : Device π :=
  { d with m_sendEnable := sendEnable }

/-- `TransmitAbort`, with the `TransmitStart` it calls at its end. -/
def transmitAbort (transmitStart : Device π → Except Assertion (Device π)) (d : Device π) :
    Except Assertion (Device π) :=
  match d.m_currentPkt with
  | none => .error .currentPkt
  | some packet =>
      let d := d.drop packet
      if d.m_txMachineState ≠ .backoff then .error .txMachineState
      else
        let d := { d with
          m_backoff := d.m_backoff.resetBackoffTime, m_txMachineState := .ready }
        match d.m_queue with
        | [] => .ok d
        | packet :: queue =>
            transmitStart (d.dequeue packet queue [.sniffer packet, .promiscSniffer packet])

/-- `TransmitStart`. The first argument bounds the calls nested through `TransmitAbort`, and
`answers k` is what the channel says to the `k`-th of them. -/
def transmitStartWithin : ℕ → (ℕ → ChannelAnswer) → Device π → Except Assertion (Device π)
  | 0, _, _ => .error .recursion
  | calls + 1, answers, d =>
      match d.m_currentPkt with
      | none => .error .currentPkt
      | some packet =>
          if d.m_sendEnable = false then
            .ok (d.drop packet)
          else if d.m_txMachineState ≠ .ready ∧ d.m_txMachineState ≠ .backoff then
            .error .txMachineState
          else if (answers 0).state ≠ .idle then
            let d := { d with m_txMachineState := .backoff }
            if d.m_backoff.maxRetriesReached then
              transmitAbort (transmitStartWithin calls fun k => answers (k + 1)) d
            else
              .ok (({ d.trace [.macTxBackoff packet] with
                m_backoff := d.m_backoff.incrNumRetries }).schedule .transmitStart)
          else if (answers 0).accepts = false then
            .ok { d.drop packet with m_txMachineState := .ready }
          else
            .ok (({ d.trace [.phyTxBegin packet] with
              m_backoff := d.m_backoff.resetBackoffTime
              m_txMachineState := .busy }).schedule .transmitCompleteEvent)

/-- Every nested call takes a packet from the queue (`transmitStart_total`). -/
def transmitStart (answers : ℕ → ChannelAnswer) (d : Device π) : Except Assertion (Device π) :=
  transmitStartWithin (d.m_queue.length + 1) answers d

def transmitCompleteEvent (answers : ℕ → ChannelAnswer) (d : Device π) :
    Except Assertion (Device π) :=
  if d.m_txMachineState ≠ .busy then .error .txMachineState
  else if (answers 0).state ≠ .transmitting then .error .channelState
  else
    match d.m_currentPkt with
    | none => .error .currentPkt
    | some packet =>
        .ok (({ d.trace [.phyTxEnd packet] with
          m_currentPkt := none, m_txMachineState := .gap }).schedule .transmitReadyEvent)

def transmitReadyEvent (answers : ℕ → ChannelAnswer) (d : Device π) :
    Except Assertion (Device π) :=
  if d.m_txMachineState ≠ .gap then .error .txMachineState
  else
    let d := { d with m_txMachineState := .ready }
    match d.m_currentPkt with
    | some _ => .error .currentPkt
    | none =>
        match d.m_queue with
        | [] => .ok d
        | packet :: queue =>
            transmitStart answers (d.dequeue packet queue [.sniffer packet, .promiscSniffer packet])

/-- `SendFrom` with its return value. `enqueued` is the answer of `m_queue->Enqueue`. -/
def sendFrom (packet : π) (enqueued : Bool) (answers : ℕ → ChannelAnswer) (d : Device π) :
    Except Assertion (Bool × Device π) :=
  if d.m_linkUp = false then .error .linkUp
  else if d.m_sendEnable = false then .ok (false, d.trace [.macTxDrop packet])
  else
    let d := d.trace [.macTx packet]
    if enqueued = false then .ok (false, d.trace [.macTxDrop packet])
    else
      let d := { d with m_queue := d.m_queue ++ [packet], accepted := d.accepted ++ [packet] }
      if d.m_txMachineState = .ready then
        match d.m_queue with
        | [] => .ok (true, d)
        | packet :: queue =>
            let d := d.dequeue packet queue [.promiscSniffer packet, .sniffer packet]
            (transmitStart answers d).map fun d => (true, d)
      else .ok (true, d)

end Handlers

/-! ## Runs -/

inductive Event (π : Type) where
  | sendFrom (packet : π) (enqueued : Bool) (answers : ℕ → ChannelAnswer)
  | setSendEnable (sendEnable : Bool)
  | fire (e : TxEvent) (answers : ℕ → ChannelAnswer)

section
variable {π : Type}

def handler : TxEvent → (ℕ → ChannelAnswer) → Device π → Except Assertion (Device π)
  | .transmitStart => transmitStart
  | .transmitCompleteEvent => transmitCompleteEvent
  | .transmitReadyEvent => transmitReadyEvent

/-- One event of the simulation. An event of the simulator is gone once it fires. -/
def handle : Event π → Device π → Except Assertion (Device π)
  | .sendFrom packet enqueued answers, d => (sendFrom packet enqueued answers d).map Prod.snd
  | .setSendEnable sendEnable, d => .ok (d.setSendEnable sendEnable)
  | .fire e answers, d => handler e answers { d with scheduled := d.scheduled.erase e }

def Possible (d : Device π) : Event π → Prop
  | .fire e _ => e ∈ d.scheduled
  | _ => True

def Step (d : Device π) (e : Event π) (d' : Device π) : Prop := Possible d e ∧ handle e d = .ok d'

/-- A device before its first packet, with either constructor of its `Backoff`. -/
def attached (sendEnable : Bool) (b : Backoff) : Device π where
  m_linkUp := true
  m_sendEnable := sendEnable
  m_txMachineState := .ready
  m_currentPkt := none
  m_queue := []
  m_backoff := b
  scheduled := []
  traced := []
  accepted := []

end

end ComputerNetworks.CsmaDevice
