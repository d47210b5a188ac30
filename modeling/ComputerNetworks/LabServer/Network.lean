import ComputerNetworks.LabServer.SelectLoop
import ComputerNetworks.LabServer.GetFile

/-! # Clients and server, `get_file` against `server2.cpp`

Any number of clients run `get_file` against the select loop. A client sends a name, reads a header,
and then reads until the stream ends; `readAll_getFile` says that its calls, one by one, come to
what `getFile` computes.

The server handles a request in one step, and what it writes is on its way from then on. Connections
are numbered in the order of `connect`, which is the order in which `accept` takes them. A step of
the server is one of `ServerStep`, when the clients have done what it needs.
-/
namespace ComputerNetworks.LabServer
open Runs
set_option autoImplicit false

/-! ## The client, call by call -/

/-- Where a client is: it has connected and not sent the name; in the `read` of the header; in the
receive loop, with the announced size, the count of bytes it has read there (a ghost) and `total`;
back from `get_file`; or ended before that. -/
inductive Phase where
  | connected
  | header
  | body (file_size : ℤ) (received : ℕ) (total : ℤ)
  | returned
  | killed
  deriving DecidableEq

def Phase.reading : Phase → Bool
  | .header => true
  | .body _ _ _ => true
  | _ => false

/-- The process is over and its end of the connection closed. -/
def Phase.closed : Phase → Bool
  | .returned => true
  | .killed => true
  | _ => false

/-- A `read` that returned `seg`, and what follows it up to the next `read`; `d` is what the `write`
to the local file returned, `none` for -1. A `read` that fails goes like one that returns 0 bytes
with a `write` that fails. -/
def Phase.read : Phase → Str → Option ℕ → Phase
  | .header, seg, _ => .body (atoi seg) 0 0
  | .body file_size received total, seg, none =>
      if seg = [] then .returned else .body file_size (received + seg.length) total
  | .body file_size received total, seg, some d =>
      let total := toInt (total + d)
      match percent total file_size with
      | none => .killed
      | some _ => if seg = [] then .returned else .body file_size (received + seg.length) total
  | phase, _, _ => phase

def Phase.Complete : Phase → Prop
  | .body file_size received _ => file_size ≤ received
  | _ => False

def Phase.Completes : Phase → Str → Prop
  | .header, seg => atoi seg ≤ 0
  | .body file_size received _, seg => file_size ≤ (received + seg.length : ℕ)
  | _, _ => False

def Phase.Traps : Phase → Option ℕ → Prop
  | .body file_size _ total, some d => percent (toInt (total + d)) file_size = none
  | _, _ => False

theorem Phase.complete_read (phase : Phase) {seg : Str} (hseg : seg ≠ []) (d : Option ℕ) :
    (phase.read seg d).Complete ↔ phase.Completes seg ∧ ¬ phase.Traps d := by
  cases phase with
  | connected => simp [Phase.read, Phase.Complete, Phase.Completes]
  | header => simp [Phase.read, Phase.Complete, Phase.Completes, Phase.Traps]
  | body file_size received total =>
    cases d with
    | none => simp [Phase.read, Phase.Complete, Phase.Completes, Phase.Traps, hseg]
    | some d =>
      unfold Phase.read
      cases hp : percent (toInt (total + d)) file_size with
      | none => simp [Phase.Complete, Phase.Traps, hp]
      | some p => simp [Phase.Complete, Phase.Completes, Phase.Traps, hp, hseg]
  | returned => simp [Phase.read, Phase.Complete, Phase.Completes]
  | killed => simp [Phase.read, Phase.Complete, Phase.Completes]

theorem Phase.Complete.completes {phase : Phase} (h : phase.Complete) (seg : Str) :
    phase.Completes seg := by
  cases phase with
  | body file_size received total =>
    have hsize : file_size ≤ received := h
    show file_size ≤ (received + seg.length : ℕ)
    omega
  | connected => exact h
  | header => exact h.elim
  | returned => exact h
  | killed => exact h

theorem Phase.Traps.read {phase : Phase} {d : Option ℕ} (h : phase.Traps d) (seg : Str) :
    phase.read seg d = .killed := by
  cases phase with
  | body file_size received total =>
    cases d with
    | none => exact h.elim
    | some d =>
      have hp : percent (toInt (total + d)) file_size = none := h
      simp only [Phase.read, hp]
  | connected => exact h.elim
  | header => exact h.elim
  | returned => exact h.elim
  | killed => exact h.elim

theorem toInt_toInt (x : ℤ) : toInt (toInt x) = toInt x :=
  toInt_of_mem (toInt_bounds x).1 (toInt_bounds x).2

def Phase.readAll (phase : Phase) (segs : List Str) : Phase :=
  segs.foldl (fun (phase : Phase) seg => phase.read seg (some seg.length)) phase

theorem readAll_killed (segs : List Str) : Phase.killed.readAll segs = .killed := by
  induction segs with
  | nil => rfl
  | cons seg segs ih => exact ih

/-- Call by call, the receive loop is `receive`. -/
theorem readAll_receive (file_size : ℤ) (segs : List Str) (hne : ∀ seg ∈ segs, seg ≠ [])
    (received : ℕ) {total : ℤ} (htotal : toInt total = total) (dl : Download) :
    (Phase.body file_size received total).readAll (segs ++ [[]]) =
      if (receive file_size segs total dl).isSome then .returned else .killed := by
  induction segs generalizing received total dl with
  | nil =>
    cases hp : percent total file_size with
    | none => simp [Phase.readAll, Phase.read, receive, htotal, hp]
    | some p => simp [Phase.readAll, Phase.read, receive, htotal, hp]
  | cons seg segs ih =>
    obtain ⟨hseg, hsegs⟩ := List.forall_mem_cons.mp hne
    have hcons : (Phase.body file_size received total).readAll (seg :: segs ++ [[]]) =
        ((Phase.body file_size received total).read seg (some seg.length)).readAll
          (segs ++ [[]]) := rfl
    rw [hcons, receive]
    simp only [Phase.read]
    cases percent (toInt (total + seg.length)) file_size with
    | none => exact readAll_killed _
    | some p =>
      simp only [if_neg hseg, Option.bind_some]
      exact ih hsegs (received + seg.length) (toInt_toInt _) _

theorem readAll_getFile (first : Str) (segs : List Str) (hne : ∀ seg ∈ segs, seg ≠ []) :
    Phase.header.readAll (first :: (segs ++ [[]])) =
      if (getFile (first :: segs)).isSome then .returned else .killed :=
  readAll_receive (atoi first) segs hne 0 rfl _

/-! ## Clients and server -/

/-- A client, and the bytes on their way in both directions of its connection. -/
structure Client where
  name : Str
  phase : Phase
  toServer : Str
  toClient : Str
  deriving DecidableEq

def Client.idle : Client := ⟨[], .connected, [], []⟩

/-- `write(sockfd,name,strlen(name))`. -/
def Client.send (client : Client) : Client :=
  { client with phase := .header, toServer := client.name }

/-- A `read` that returns `k` bytes. What is on its way to a closed connection is lost. -/
def Client.read (client : Client) (k : ℕ) (d : Option ℕ) : Client :=
  let phase := client.phase.read (client.toClient.take k) d
  { client with phase := phase, toClient := if phase.closed then [] else client.toClient.drop k }

/-- `error`, or a signal. -/
def Client.stop (client : Client) : Client :=
  { client with phase := .killed, toClient := [] }

def Client.deliver (client : Client) (data : Str) : Client :=
  if client.phase.closed then client else { client with toClient := client.toClient ++ data }

/-- Client `c` has connection `c`; the first `connected` of them are there. -/
@[ext] structure Network where
  server : Server
  client : ℕ → Client
  connected : ℕ

inductive NetworkEvent where
  | connect (name : Str)
  | send (c : ℕ)
  | read (c k : ℕ) (d : Option ℕ)
  | stop (c : ℕ)
  | server (e : ServerEvent)

def Network.init (listener : ℕ) : Network := ⟨Server.init listener, fun _ => Client.idle, 0⟩

def Status.gone : Status → Bool
  | .exited => true
  | .killed => true
  | .undefined => true
  | _ => false

def Server.Closed (s : Server) (c : ℕ) : Prop :=
  s.status.gone ∨ (c < s.accepted ∧ ∀ fd, s.conns fd ≠ some c)

def Server.asked (s : Server) : Option ℕ := s.current.bind s.conns

/-- The bytes for connection `c` in the `write` calls between two states. -/
def Server.sent (s t : Server) (c : ℕ) : Str :=
  (t.log.drop s.log.length).flatMap fun w => if s.conns w.target = some c then w.data else []

def Network.setClient (n : Network) (c : ℕ) (client : Client) : Network :=
  { n with client := Function.update n.client c client }

/-- A `read` of the server takes what it returns off the stream. -/
def Network.consume (n : Network) : ServerEvent → ℕ → Client
  | .request buffer _ _, c =>
      if n.server.asked = some c then
        { n.client c with toServer := (n.client c).toServer.drop buffer.length }
      else n.client c
  | _, c => n.client c

def Network.serve (n : Network) (e : ServerEvent) (t : Server) : Network :=
  { n with server := t, client := fun c => (n.consume e c).deliver (n.server.sent t c) }

/-- `select` reports a waiting connection, bytes, or the end of a stream. -/
def Network.Readable (n : Network) (fd : ℕ) : Prop :=
  (fd = n.server.listener ∧ n.server.accepted < n.connected) ∨
    ∃ c, n.server.conns fd = some c ∧ ((n.client c).toServer ≠ [] ∨ (n.client c).phase.closed)

/-- What the clients must have done for the server to take a step. -/
def Network.Possible (n : Network) : ServerEvent → Prop
  | .select ready => ∀ fd ∈ ready, n.Readable fd
  | .accept _ => n.server.accepted < n.connected
  | .hangUp => ∃ c, n.server.asked = some c ∧ (n.client c).phase.closed ∧
      (n.client c).toServer = []
  | .request buffer _ _ => ∃ c, n.server.asked = some c ∧ buffer <+: (n.client c).toServer
  | _ => True

inductive NetworkStep : Network → NetworkEvent → Network → Prop
  | connect {n : Network} {name : Str} : n.server.status.gone = false →
      NetworkStep n (.connect name)
        { n.setClient n.connected { Client.idle with name := name } with
          connected := n.connected + 1 }
  | send {n : Network} {c : ℕ} : c < n.connected → (n.client c).phase = .connected →
      NetworkStep n (.send c) (n.setClient c (n.client c).send)
  | read {n : Network} {c k : ℕ} {d : Option ℕ} : (n.client c).phase.reading → k ≤ BUFFER →
      k ≤ (n.client c).toClient.length →
      (k = 0 → (n.client c).toClient = [] ∧ n.server.Closed c) → (∀ w, d = some w → w ≤ k) →
      NetworkStep n (.read c k d) (n.setClient c ((n.client c).read k d))
  | stop {n : Network} {c : ℕ} : c < n.connected → (n.client c).phase.closed = false →
      NetworkStep n (.stop c) (n.setClient c (n.client c).stop)
  | server {n : Network} {e : ServerEvent} {t : Server} : ServerStep n.server e t →
      n.Possible e → NetworkStep n (.server e) (n.serve e t)

end ComputerNetworks.LabServer
