import ComputerNetworks.Library.Runs
import ComputerNetworks.PeerRing.Bootstrap

/-! # A loop of `__recvinfo` calls

Each call creates a socket, binds the port, reads one datagram and closes the socket. A datagram for
the bound port joins the queue of the socket, one for an unbound port is discarded, and closing the
socket discards its queue. `ReceiveStep` interleaves a receiver that calls `__recvinfo` for ever (the
registration loop of the bootstrap, the service loop of a peer) with datagrams arriving at any time.

A datagram is safe only if it finds a call waiting with nothing queued: `nothingLost_iff` says that
nothing is lost exactly in the runs where every datagram does.
-/
namespace ComputerNetworks.PeerRing
open Runs
set_option autoImplicit false

/-! ## The receiver -/

/-- Where the receiver is: between two calls, in `recvfrom` with the queue of its socket, or between
`recvfrom` and `close` with the datagram it has read. -/
inductive CallPhase where
  | idle
  | bound (queue : List Str)
  | read (mesg : Str) (queue : List Str)
  deriving DecidableEq

/-- `arrivals` counts from the first `bind` on; `returned` is what the calls have returned so far. -/
structure Receiver where
  phase : CallPhase
  started : Bool
  arrivals : List Str
  returned : List Str
  deriving DecidableEq

inductive ReceiveEvent where
  | bind
  | arrive (payload : Str)
  | recvfrom
  | close
  deriving DecidableEq

def Receiver.init : Receiver := ⟨.idle, false, [], []⟩

def CallPhase.held : CallPhase → List Str
  | .idle => []
  | .bound queue => queue
  | .read mesg queue => mesg :: queue

def CallPhase.deliver (payload : Str) : CallPhase → CallPhase
  | .idle => .idle
  | .bound queue => .bound (queue ++ [payload])
  | .read mesg queue => .read mesg (queue ++ [payload])

def Receiver.arrive (s : Receiver) (payload : Str) : Receiver :=
  { s with
    phase := s.phase.deliver payload
    arrivals := if s.started then s.arrivals ++ [payload] else s.arrivals }

def Receiver.close (s : Receiver) (mesg : Str) : Receiver :=
  { s with phase := .idle, returned := s.returned ++ [recvinfo mesg] }

inductive ReceiveStep : Receiver → ReceiveEvent → Receiver → Prop
  | bind {s : Receiver} :
      s.phase = .idle → ReceiveStep s .bind { s with phase := .bound [], started := true }
  | arrive {s : Receiver} (payload : Str) : ReceiveStep s (.arrive payload) (s.arrive payload)
  | recvfrom {s : Receiver} {mesg : Str} {queue : List Str} :
      s.phase = .bound (mesg :: queue) →
      ReceiveStep s .recvfrom { s with phase := .read mesg queue }
  | close {s : Receiver} {mesg : Str} {queue : List Str} :
      s.phase = .read mesg queue → ReceiveStep s .close (s.close mesg)

/-! ## What is lost -/

/-- The first datagram to arrive is returned by the first call, the second by the second, and so
on; what no call has returned yet is still at the socket. -/
def NothingLost (s : Receiver) : Prop :=
  s.returned ++ s.phase.held.map recvinfo = s.arrivals.map recvinfo

/-- A datagram finds a call in `recvfrom` and nothing in the queue. Before the first `bind` there is
nothing to find. -/
def FindsWaiting (s : Receiver) : ReceiveEvent → Prop
  | .arrive _ => s.started = true → s.phase = .bound []
  | _ => True

def Uncrowded (s : Receiver) : Prop := s.phase.held.length ≤ 1

structure ReceiveInv (s : Receiver) : Prop where
  fresh : s.started = false → s.phase = .idle ∧ s.arrivals = []
  count : s.returned.length + s.phase.held.length ≤ s.arrivals.length

theorem NothingLost.length {s : Receiver} (h : NothingLost s) :
    s.returned.length + s.phase.held.length = s.arrivals.length := by
  have := congrArg List.length h
  simpa using this

theorem held_deliver {phase : CallPhase} (h : phase ≠ .idle) (payload : Str) :
    (phase.deliver payload).held = phase.held ++ [payload] := by
  cases phase with
  | idle => exact absurd rfl h
  | bound queue => rfl
  | read mesg queue => rfl

theorem close_safe_iff {s : Receiver} {mesg : Str} {queue : List Str} (hI : ReceiveInv s)
    (hphase : s.phase = .read mesg queue) :
    ReceiveInv (s.close mesg) ∧ (NothingLost (s.close mesg) ∧ Uncrowded (s.close mesg) ↔
      NothingLost s ∧ Uncrowded s) := by
  have hcount := hI.count
  have hheld : s.phase.held = mesg :: queue := by rw [hphase]; rfl
  rw [hheld, List.length_cons] at hcount
  have hlen : (s.close mesg).returned.length = s.returned.length + 1 := by simp [Receiver.close]
  refine ⟨⟨fun hs => ?_, ?_⟩, ?_⟩
  · have := (hI.fresh hs).1
    simp [hphase] at this
  · show (s.close mesg).returned.length + 0 ≤ s.arrivals.length
    omega
  · cases queue with
    | nil => simp [NothingLost, Uncrowded, Receiver.close, hphase, CallPhase.held]
    | cons q queue =>
      refine iff_of_false (fun ht => ?_) (fun hs => ?_)
      · have hall : (s.close mesg).returned.length + 0 = s.arrivals.length := ht.1.length
        rw [List.length_cons] at hcount
        omega
      · have := hs.2
        simp [Uncrowded, hheld] at this

theorem arrive_unstarted {s : Receiver} (hI : ReceiveInv s) (hs : s.started = false)
    (payload : Str) : s.arrive payload = s := by
  have hphase := (hI.fresh hs).1
  cases s
  simp_all [Receiver.arrive, CallPhase.deliver]

theorem arrivals_arrive {s : Receiver} (hs : s.started = true) (payload : Str) :
    (s.arrive payload).arrivals = s.arrivals ++ [payload] := by
  simp [Receiver.arrive, hs]

theorem arrive_fresh {s : Receiver} (hs : s.started = true) (payload : Str) :
    (s.arrive payload).started = false →
      (s.arrive payload).phase = .idle ∧ (s.arrive payload).arrivals = [] := by
  intro hf
  exact absurd hf (by simp [Receiver.arrive, hs])

/-- Between two calls nobody has the port: the datagram is discarded. -/
theorem arrive_unbound {s : Receiver} (hI : ReceiveInv s) (hs : s.started = true)
    (hidle : s.phase = .idle) (payload : Str) :
    ReceiveInv (s.arrive payload) ∧ ¬ NothingLost (s.arrive payload) := by
  have hcount := hI.count
  have hheld : s.phase.held = [] := by rw [hidle]; rfl
  have hheld' : (s.arrive payload).phase.held = [] := by
    unfold Receiver.arrive
    rw [hidle]
    rfl
  have hret : (s.arrive payload).returned = s.returned := rfl
  rw [hheld, List.length_nil] at hcount
  refine ⟨⟨arrive_fresh hs payload, ?_⟩, fun hall => ?_⟩
  · rw [hheld', arrivals_arrive hs, hret, List.length_append, List.length_nil]
    omega
  · have hlen := hall.length
    rw [hheld', arrivals_arrive hs, hret, List.length_append, List.length_singleton,
      List.length_nil] at hlen
    omega

theorem arrive_queued {s : Receiver} (hI : ReceiveInv s) (hs : s.started = true)
    (hbound : s.phase ≠ .idle) (payload : Str) :
    ReceiveInv (s.arrive payload) ∧ (NothingLost (s.arrive payload) ↔ NothingLost s) ∧
      (Uncrowded (s.arrive payload) ↔ s.phase.held = []) := by
  have hcount := hI.count
  have hheld : (s.arrive payload).phase.held = s.phase.held ++ [payload] :=
    held_deliver hbound payload
  have hret : (s.arrive payload).returned = s.returned := rfl
  refine ⟨⟨arrive_fresh hs payload, ?_⟩, ?_, ?_⟩
  · rw [hheld, arrivals_arrive hs, hret, List.length_append, List.length_append]
    omega
  · unfold NothingLost
    rw [hheld, arrivals_arrive hs, hret, List.map_append, List.map_append, ← List.append_assoc,
      List.append_left_inj]
  · unfold Uncrowded
    simp [hheld]

theorem findsWaiting_iff {s : Receiver} (hs : s.started = true) (hbound : s.phase ≠ .idle)
    (payload : Str) : FindsWaiting s (.arrive payload) ↔ s.phase.held = [] := by
  simp only [FindsWaiting, hs, forall_const]
  cases hp : s.phase with
  | idle => exact absurd hp hbound
  | bound queue => simp [CallPhase.held]
  | read mesg queue => simp [CallPhase.held]

theorem arrive_safe_iff {s : Receiver} (hI : ReceiveInv s) (payload : Str) :
    ReceiveInv (s.arrive payload) ∧
      (NothingLost (s.arrive payload) ∧ Uncrowded (s.arrive payload) ↔
        (NothingLost s ∧ Uncrowded s) ∧ FindsWaiting s (.arrive payload)) := by
  cases hs : s.started with
  | false =>
    rw [arrive_unstarted hI hs]
    exact ⟨hI, by simp [FindsWaiting, hs]⟩
  | true =>
    by_cases hidle : s.phase = .idle
    · obtain ⟨hinv, hlost⟩ := arrive_unbound hI hs hidle payload
      refine ⟨hinv, iff_of_false (fun ht => hlost ht.1) (fun ht => ?_)⟩
      have hwaiting := ht.2 hs
      rw [hidle] at hwaiting
      cases hwaiting
    · obtain ⟨hinv, hlost, hcrowd⟩ := arrive_queued hI hs hidle payload
      refine ⟨hinv, ?_⟩
      rw [hlost, hcrowd, findsWaiting_iff hs hidle]
      constructor
      · rintro ⟨hall, hnil⟩
        exact ⟨⟨hall, by simp [Uncrowded, hnil]⟩, hnil⟩
      · rintro ⟨⟨hall, -⟩, hnil⟩
        exact ⟨hall, hnil⟩

/-- One step: it keeps `ReceiveInv`, and it keeps everything safe exactly if a datagram that arrives
finds a call waiting. -/
theorem ReceiveStep.safe_iff {s t : Receiver} {e : ReceiveEvent} (hI : ReceiveInv s)
    (h : ReceiveStep s e t) :
    ReceiveInv t ∧ (NothingLost t ∧ Uncrowded t ↔
      (NothingLost s ∧ Uncrowded s) ∧ FindsWaiting s e) := by
  have hcount := hI.count
  cases h with
  | bind hphase =>
    have hheld : s.phase.held = [] := by rw [hphase]; rfl
    rw [hheld] at hcount
    refine ⟨⟨by simp, hcount⟩, ?_⟩
    simp only [NothingLost, Uncrowded, FindsWaiting, CallPhase.held, hphase, and_true]
  | @recvfrom mesg queue hphase =>
    have hheld : s.phase.held = mesg :: queue := by rw [hphase]; rfl
    rw [hheld] at hcount
    refine ⟨⟨fun hs => ?_, hcount⟩, ?_⟩
    · have := (hI.fresh hs).1
      simp [hphase] at this
    · simp only [NothingLost, Uncrowded, FindsWaiting, CallPhase.held, hphase, and_true]
  | close hphase =>
    obtain ⟨hinv, hiff⟩ := close_safe_iff hI hphase
    exact ⟨hinv, hiff.trans (and_iff_left trivial).symm⟩
  | arrive payload => exact arrive_safe_iff hI payload

/-! ## Every run -/

section
variable {past : List (Receiver × ReceiveEvent)} {s : Receiver}

theorem safe_iff (h : Run ReceiveStep Receiver.init past s) :
    NothingLost s ∧ Uncrowded s ↔ Guarded FindsWaiting past :=
  h.good_iff (I := ReceiveInv) (G := fun s => NothingLost s ∧ Uncrowded s)
    ⟨fun _ => ⟨rfl, rfl⟩, Nat.zero_le _⟩
    (show NothingLost Receiver.init ∧ Uncrowded Receiver.init from ⟨rfl, Nat.zero_le 1⟩)
    fun _ _ _ hI hstep => hstep.safe_iff hI

/-- If every datagram finds a call waiting, nothing is lost in any state; and between two calls
nothing has been lost only if every datagram did. -/
theorem nothingLost_iff (h : Run ReceiveStep Receiver.init past s) :
    (Guarded FindsWaiting past → NothingLost s) ∧
      (s.phase = .idle → (NothingLost s ↔ Guarded FindsWaiting past)) := by
  refine ⟨fun hg => ((safe_iff h).mpr hg).1, fun hidle => ?_⟩
  have huncrowded : Uncrowded s := by simp [Uncrowded, hidle, CallPhase.held]
  rw [← safe_iff h]
  exact ⟨fun hs => ⟨hs, huncrowded⟩, And.left⟩

/-- A registration loop that loses nothing reads exactly the registrations that arrived. -/
theorem registrations_returned (hs : NothingLost s) (hidle : s.phase = .idle) :
    s.returned.mapM readRegistration = registrations s.arrivals := by
  have hall : s.returned = s.arrivals.map recvinfo := by
    simpa [NothingLost, hidle, CallPhase.held] using hs
  rw [hall, registrations, List.mapM_map]
  rfl

end

/-! ## One and two senders -/

/-- Two registrations, each of which finds a call in `recvfrom`. -/
theorem nothingLost_two : ∃ past, Guarded FindsWaiting past ∧
    NothingLost ⟨.idle, true, [bytes "10.0.0.1 8001 0 ", bytes "10.0.0.2 8002 0 "],
      [recvinfo (bytes "10.0.0.1 8001 0 "), recvinfo (bytes "10.0.0.2 8002 0 ")]⟩ ∧
    past.length = 8 := by
  set msg := bytes "10.0.0.1 8001 0 "
  set msg' := bytes "10.0.0.2 8002 0 "
  have hbind : ReceiveStep Receiver.init .bind ⟨.bound [], true, [], []⟩ := .bind rfl
  have harrive : ReceiveStep ⟨.bound [], true, [], []⟩ (.arrive msg)
      ⟨.bound [msg], true, [msg], []⟩ := .arrive msg
  have hrecv : ReceiveStep ⟨.bound [msg], true, [msg], []⟩ .recvfrom
      ⟨.read msg [], true, [msg], []⟩ := .recvfrom rfl
  have hclose : ReceiveStep ⟨.read msg [], true, [msg], []⟩ .close
      ⟨.idle, true, [msg], [recvinfo msg]⟩ := .close rfl
  have hbind' : ReceiveStep ⟨.idle, true, [msg], [recvinfo msg]⟩ .bind
      ⟨.bound [], true, [msg], [recvinfo msg]⟩ := .bind rfl
  have harrive' : ReceiveStep ⟨.bound [], true, [msg], [recvinfo msg]⟩ (.arrive msg')
      ⟨.bound [msg'], true, [msg, msg'], [recvinfo msg]⟩ := .arrive msg'
  have hrecv' : ReceiveStep ⟨.bound [msg'], true, [msg, msg'], [recvinfo msg]⟩ .recvfrom
      ⟨.read msg' [], true, [msg, msg'], [recvinfo msg]⟩ := .recvfrom rfl
  have hclose' : ReceiveStep ⟨.read msg' [], true, [msg, msg'], [recvinfo msg]⟩ .close
      ⟨.idle, true, [msg, msg'], [recvinfo msg, recvinfo msg']⟩ := .close rfl
  have hrun := (((((((Run.start.next hbind).next harrive).next hrecv).next hclose).next hbind').next
    harrive').next hrecv').next hclose'
  have hfinds := ((nothingLost_iff hrun).2 rfl).mp rfl
  exact ⟨_, hfinds, (nothingLost_iff hrun).1 hfinds, rfl⟩

/-- Two registrations that arrive during one call: closing the socket discards the second. -/
theorem second_registration_lost :
    ¬ ∀ (past : List (Receiver × ReceiveEvent)) (s : Receiver),
      Run ReceiveStep Receiver.init past s → NothingLost s := by
  intro h
  have hbind : ReceiveStep Receiver.init .bind ⟨.bound [], true, [], []⟩ := .bind rfl
  have hfirst : ReceiveStep ⟨.bound [], true, [], []⟩ (.arrive (bytes "a"))
      ⟨.bound [bytes "a"], true, [bytes "a"], []⟩ := .arrive _
  have hsecond : ReceiveStep ⟨.bound [bytes "a"], true, [bytes "a"], []⟩ (.arrive (bytes "b"))
      ⟨.bound [bytes "a", bytes "b"], true, [bytes "a", bytes "b"], []⟩ := .arrive _
  have hrecv : ReceiveStep ⟨.bound [bytes "a", bytes "b"], true, [bytes "a", bytes "b"], []⟩
      .recvfrom ⟨.read (bytes "a") [bytes "b"], true, [bytes "a", bytes "b"], []⟩ := .recvfrom rfl
  have hclose : ReceiveStep ⟨.read (bytes "a") [bytes "b"], true, [bytes "a", bytes "b"], []⟩
      .close ⟨.idle, true, [bytes "a", bytes "b"], [recvinfo (bytes "a")]⟩ := .close rfl
  have := (h _ _ (((((Run.start.next hbind).next hfirst).next hsecond).next hrecv).next
    hclose)).length
  simp [CallPhase.held] at this

end ComputerNetworks.PeerRing
