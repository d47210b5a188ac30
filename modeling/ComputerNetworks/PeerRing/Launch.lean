import ComputerNetworks.PeerRing.Deployment
import ComputerNetworks.PeerRing.ReceiveLoop

/-! # The launch of the ring on its sockets

`Deployment` follows the texts from the prompts to the peers that serve. Here the datagrams that carry
them fly, and every party is there for a datagram only while it is in a call of `__recvinfo`: the
bootstrap makes `n` calls one after the other, a peer makes one when it has registered, and what comes
for a port that nobody has bound, or is queued when a call closes its socket, is discarded. The runs end
where the first user types a command (`Startup` has what commands do to peers that still wait).

What is discarded is not sent again. `launch_sound` says that no peer is misled by that, `launch_steps`
that every run ends, and `launch_at_rest` who is left waiting.
-/
namespace ComputerNetworks.PeerRing
open Runs
set_option autoImplicit false

/-- Where a peer is: at its prompts, in or before its call of `__recvinfo`, or behind it. -/
inductive Joining where
  | entering
  | waiting
  | serving (nd : Node)
  deriving DecidableEq

/-- The sockets are those of the bootstrap, `none`, and of the peers. `received` is what the calls of the
bootstrap took from its socket. `replying` is `none` until it has computed the ring, and then the nodes
that the sending loop has yet to come to; `lost` is a record of what the sockets did not keep. -/
structure Launch (n : ℕ) where
  peer : Fin n → Joining
  call : Option (Fin n) → CallPhase
  flying : Multiset Datagram
  received : List Str
  replying : Option (List Node)
  lost : Multiset Datagram

inductive LaunchEvent (n : ℕ) where
  | register (k : Fin n)
  | arrive (p : Option (Fin n)) (d : Datagram)
  | bind (p : Option (Fin n))
  | recvfrom (p : Option (Fin n))
  | close (p : Option (Fin n))
  | sort
  | reply

namespace Launch
variable {n : ℕ}

def init (n : ℕ) : Launch n := ⟨fun _ => .entering, fun _ => .idle, 0, [], none, 0⟩

/-- The party makes another call of `__recvinfo`. -/
def Calls (s : Launch n) : Option (Fin n) → Prop
  | none => s.replying = none ∧ s.received.length < n
  | some k => s.peer k = .waiting

def setCall (s : Launch n) (p : Option (Fin n)) (c : CallPhase) : Launch n :=
  { s with call := Function.update s.call p c }

def setPeer (s : Launch n) (k : Fin n) (j : Joining) : Launch n :=
  { s with peer := Function.update s.peer k j }

def send (s : Launch n) (d : Datagram) : Launch n := { s with flying := d ::ₘ s.flying }

def receive (s : Launch n) (mesg : Str) : Launch n := { s with received := s.received ++ [mesg] }

def setReplying (s : Launch n) (rest : List Node) : Launch n := { s with replying := some rest }

def lose (s : Launch n) (ds : Multiset Datagram) : Launch n := { s with lost := s.lost + ds }

/-- A datagram comes to a socket, if anyone has the port. -/
def arrive (s : Launch n) (p : Option (Fin n)) (d : Datagram) : Launch n :=
  match s.call p with
  | .idle => { s with flying := s.flying.erase d }.lose {d}
  | c => { s.setCall p (c.deliver d.payload) with flying := s.flying.erase d }

end Launch

section
variable (inet_addr : Str → UInt32) (users : List Entered)

/-- Where the bootstrap receives, and where a peer does. -/
def socketAddr : Option (Fin users.length) → SockAddr
  | none => sockAddr inet_addr (bytes "127.0.0.1") 9090
  | some k => sockAddr inet_addr (users.get k).ip (atoi (users.get k).port)

/-- The port that `__recvinfo` binds: the socket takes what comes for any address of the one host on which
all parties run. -/
def socketPort : Option (Fin users.length) → UInt16
  | none => 9090
  | some k => UInt16.ofInt (atoi (users.get k).port)

/-- What lies at a socket, as it was sent. -/
def addressed (p : Option (Fin users.length)) (payloads : List Str) : Multiset Datagram :=
  ↑(payloads.map fun payload => (⟨socketAddr inet_addr users p, payload⟩ : Datagram))

/-- `bind`, `recvfrom` and `close` are those of `__recvinfo`; behind the `close` the bootstrap goes on to
its next call, and a peer reads the message and serves. `sort` is all that the bootstrap makes of what it
received, up to its first reply; the number of nodes entered there is the number of users. -/
inductive LaunchStep :
    Launch users.length → LaunchEvent users.length → Launch users.length → Prop
  | register {s : Launch users.length} {k : Fin users.length} {d : Datagram} :
      s.peer k = .entering → (users.get k).register inet_addr = some d →
      LaunchStep s (.register k) ((s.setPeer k .waiting).send d)
  | arrive {s : Launch users.length} {p : Option (Fin users.length)} {d : Datagram} :
      d ∈ s.flying → socketAddr inet_addr users p = d.dest →
      LaunchStep s (.arrive p d) (s.arrive p d)
  | bind {s : Launch users.length} {p : Option (Fin users.length)} :
      s.Calls p → s.call p = .idle → LaunchStep s (.bind p) (s.setCall p (.bound []))
  | recvfrom {s : Launch users.length} {p : Option (Fin users.length)} {mesg : Str}
      {queue : List Str} :
      s.call p = .bound (mesg :: queue) →
      LaunchStep s (.recvfrom p) (s.setCall p (.read mesg queue))
  | collect {s : Launch users.length} {mesg : Str} {queue : List Str} :
      s.call none = .read mesg queue →
      LaunchStep s (.close none)
        (((s.setCall none .idle).lose (addressed inet_addr users none queue)).receive mesg)
  | start {s : Launch users.length} {k : Fin users.length} {mesg : Str} {queue : List Str}
      {my_node : Node} :
      s.call (some k) = .read mesg queue → (users.get k).myNode = some my_node →
      LaunchStep s (.close (some k))
        (((s.setCall (some k) .idle).lose (addressed inet_addr users (some k) queue)).setPeer k
          (.serving (parseStartup my_node (recvinfo mesg))))
  | sort {s : Launch users.length} (B : BootstrapRun s.received) :
      s.replying = none → s.received.length = users.length →
      LaunchStep s .sort (s.setReplying B.peers)
  | reply {s : Launch users.length} {nd : Node} {rest : List Node} {d : Datagram} :
      s.replying = some (nd :: rest) → sendReply inet_addr nd = some d →
      LaunchStep s .reply ((s.setReplying rest).send d)

/-- Whatever the order in which the bootstrap hears of the users, no reply is longer than what a peer
reads but for its last separator. -/
def RepliesFit : Prop :=
  ∀ payloads : List Str, payloads.Perm (users.map Entered.registrationText) →
    ∀ B : BootstrapRun payloads, ∀ i < B.all_info.length, replyLength B.all_info i ≤ recvLen + 1

/-- The datagram with which a peer registers. -/
def registrationOf (k : Fin users.length) : Datagram :=
  ⟨socketAddr inet_addr users none, (users.get k).registrationText⟩

/-- The datagram with which the bootstrap replies to it. -/
def replyOf (nd : Node) : Datagram := ⟨sockAddr inet_addr nd.ip (atoi nd.port), replyText nd⟩

end

/-! ## What is sent -/

section
variable {inet_addr : Str → UInt32} {users : List Entered} {payloads : List Str} {B : BootstrapRun payloads}

theorem sin_port_socketAddr (p : Option (Fin users.length)) :
    (socketAddr inet_addr users p).sin_port = socketPort users p := by
  cases p with
  | none => rfl
  | some k => rfl

/-- Where no two parties bind one port, no two have one address. -/
theorem socketAddr_injective (hports : Function.Injective (socketPort users)) :
    Function.Injective (socketAddr inet_addr users) := by
  intro p q hpq
  have hport := congrArg SockAddr.sin_port hpq
  rw [sin_port_socketAddr, sin_port_socketAddr] at hport
  exact hports hport

theorem register_eq {k : Fin users.length} {d : Datagram} (h : (users.get k).Sound)
    (hd : (users.get k).register inet_addr = some d) : d = registrationOf inet_addr users k := by
  obtain ⟨-, rfl⟩ := sendreq_eq_some inet_addr hd
  rw [cstr_of_notMem h.nul_notMem]
  rfl

variable (inet_addr) in
theorem sendReply_eq (hp : payloads.Perm (users.map Entered.registrationText)) (hfit : RepliesFit users)
    {nd : Node} (hnd : nd ∈ B.peers) : sendReply inet_addr nd = some (replyOf inet_addr nd) := by
  obtain ⟨i, hi⟩ := List.mem_iff_getElem?.mp hnd
  have hlen := hfit payloads hp B i (BootstrapRun.peer_lt hi)
  rw [← length_replyText_peer hi] at hlen
  exact sendreq_of_lt inet_addr _ _ (nul_notMem_replyText hi) (hlen.trans_lt (by decide))

theorem dest_replyOf {i : ℕ} {nd : Node} (hnd : B.peers[i]? = some nd) :
    (replyOf inet_addr nd).dest = addrOf inet_addr nd.ip_port := by
  rw [BootstrapRun.getElem?_peers, Option.map_eq_some_iff] at hnd
  obtain ⟨my_node, hmy, rfl⟩ := hnd
  have hdest : sockAddr inet_addr my_node.ip (atoi my_node.port) = addrOf inet_addr my_node.ip_port :=
    addrOf_registered (B.all_info_registered my_node (List.mem_of_getElem? hmy))
  exact hdest

theorem map_dest_replyOf : B.peers.map (fun nd => (replyOf inet_addr nd).dest) =
    B.all_info.map fun nd => addrOf inet_addr nd.ip_port := by
  refine List.ext_getElem? fun i => ?_
  rw [List.getElem?_map, List.getElem?_map]
  have hnd := BootstrapRun.getElem?_peers B i
  cases hmy : B.all_info[i]? with
  | none => rw [hnd, hmy, Option.map_none, Option.map_none, Option.map_none]
  | some my_node =>
    rw [hmy, Option.map_some] at hnd
    rw [hnd, Option.map_some, Option.map_some, dest_replyOf hnd]

theorem map_socketAddr (h : ∀ e ∈ users, e.Sound) :
    ((List.finRange users.length).map fun k => socketAddr inet_addr users (some k)) =
      users.map fun e => addrOf inet_addr e.ip_port := by
  conv_rhs => rw [← List.map_get_finRange users, List.map_map]
  refine List.map_congr_left fun k _ => ?_
  exact (h _ (List.get_mem users k)).addrOf_ip_port.symm

variable (inet_addr) in
/-- A node of the ring is that of a user, and the reply to it goes where the peer of that user receives. -/
theorem exists_user (h : ∀ e ∈ users, e.Sound)
    (hp : payloads.Perm (users.map Entered.registrationText)) {i : ℕ} {nd : Node}
    (hnd : B.peers[i]? = some nd) :
    ∃ (k : Fin users.length) (my_node : Node), B.all_info[i]? = some my_node ∧
      (users.get k).myNode = some my_node ∧ nd.ip_port = (users.get k).ip_port ∧
      (replyOf inet_addr nd).dest = socketAddr inet_addr users (some k) := by
  have hpeer := hnd
  rw [BootstrapRun.getElem?_peers, Option.map_eq_some_iff] at hpeer
  obtain ⟨my_node, hmy, rfl⟩ := hpeer
  have hmem : some my_node ∈ users.map Entered.myNode :=
    (B.all_info_perm h hp).subset (List.mem_map_of_mem (List.mem_of_getElem? hmy))
  obtain ⟨e, he, hnode⟩ := List.mem_map.mp hmem
  obtain ⟨k, rfl⟩ := List.get_of_mem he
  obtain ⟨my_node', hnode', hip⟩ := (h _ he).myNode
  obtain rfl : my_node = my_node' := Option.some.inj (hnode.symm.trans hnode')
  refine ⟨k, my_node, hmy, hnode, hip, ?_⟩
  rw [dest_replyOf hnd]
  exact (congrArg (addrOf inet_addr) hip).trans (h _ he).addrOf_ip_port

variable (inet_addr) in
/-- Two replies never go to one peer, and one goes to each. -/
theorem dests_perm (h : ∀ e ∈ users, e.Sound)
    (hp : payloads.Perm (users.map Entered.registrationText)) :
    (B.peers.map fun nd => (replyOf inet_addr nd).dest).Perm
      ((List.finRange users.length).map fun k => socketAddr inet_addr users (some k)) := by
  have hmapped := (B.all_info_perm h hp).map (Option.map fun nd => addrOf inet_addr nd.ip_port)
  have hnodes : (users.map Entered.myNode).map (Option.map fun nd => addrOf inet_addr nd.ip_port) =
      (users.map fun e => addrOf inet_addr e.ip_port).map some := by
    rw [List.map_map, List.map_map]
    refine List.map_congr_left fun e he => ?_
    obtain ⟨my_node, hmy, hip⟩ := (h e he).myNode
    rw [Function.comp_apply, hmy, Option.map_some, hip]
    rfl
  rw [hnodes, List.map_map] at hmapped
  rw [map_dest_replyOf, map_socketAddr h, ← List.map_perm_map_iff (Option.some_injective _),
    List.map_map]
  exact hmapped

/-- A peer makes the node of the ring out of the reply that comes to it. -/
theorem started_peer (haddr : Function.Injective (socketAddr inet_addr users))
    (h : ∀ e ∈ users, e.Sound) (hfit : RepliesFit users)
    (hp : payloads.Perm (users.map Entered.registrationText)) {k : Fin users.length}
    {my_node nd : Node} {mesg : Str} (hmy : (users.get k).myNode = some my_node) (hnd : nd ∈ B.peers)
    (hreply : replyOf inet_addr nd = ⟨socketAddr inet_addr users (some k), mesg⟩) :
    parseStartup my_node (recvinfo mesg) = nd ∧ nd.ip_port = (users.get k).ip_port := by
  obtain ⟨i, hi⟩ := List.mem_iff_getElem?.mp hnd
  obtain ⟨j, m, hall, hnode, hip, hdest⟩ := exists_user inet_addr h hp hi
  rw [hreply] at hdest
  obtain rfl : k = j := Option.some.inj (haddr hdest)
  obtain rfl : my_node = m := Option.some.inj (hmy.symm.trans hnode)
  have hsent : sendReply inet_addr nd = some ⟨socketAddr inet_addr users (some k), mesg⟩ :=
    hreply ▸ sendReply_eq inet_addr hp hfit hnd
  exact ⟨(started_eq hi hall hsent (hfit payloads hp B i (BootstrapRun.peer_lt hi))).1, hip⟩

end

/-! ## The sockets -/

namespace Launch
variable {n : ℕ}

@[simp] theorem setCall_call_self (s : Launch n) (p : Option (Fin n)) (c : CallPhase) :
    (s.setCall p c).call p = c := Function.update_self _ _ _

theorem setCall_call_of_ne (s : Launch n) {p q : Option (Fin n)} (h : q ≠ p) (c : CallPhase) :
    (s.setCall p c).call q = s.call q := Function.update_of_ne h _ _

theorem mem_send (s : Launch n) (d : Datagram) : d ∈ (s.send d).flying := Multiset.mem_cons_self d s.flying

theorem arrive_of_idle {s : Launch n} {p : Option (Fin n)} {d : Datagram} (h : s.call p = .idle) :
    s.arrive p d = { s with flying := s.flying.erase d }.lose {d} := by
  rw [arrive, h]

theorem arrive_of_ne_idle {s : Launch n} {p : Option (Fin n)} {d : Datagram} (h : s.call p ≠ .idle) :
    s.arrive p d =
      { s.setCall p ((s.call p).deliver d.payload) with flying := s.flying.erase d } := by
  cases hc : s.call p with
  | idle => exact absurd hc h
  | bound queue | read mesg queue => rw [arrive, hc]

theorem arrive_call (s : Launch n) (p : Option (Fin n)) (d : Datagram) :
    (s.arrive p d).call = Function.update s.call p ((s.call p).deliver d.payload) := by
  cases hcall : s.call p with
  | idle =>
    rw [arrive_of_idle hcall]
    exact (Function.update_eq_self_iff.mpr hcall.symm).symm
  | bound queue | read mesg queue =>
    rw [arrive_of_ne_idle (hcall ▸ CallPhase.noConfusion), hcall]
    rfl

theorem arrive_peer (s : Launch n) (p : Option (Fin n)) (d : Datagram) :
    (s.arrive p d).peer = s.peer := by
  unfold arrive
  split <;> rfl

theorem arrive_received (s : Launch n) (p : Option (Fin n)) (d : Datagram) :
    (s.arrive p d).received = s.received := by
  unfold arrive
  split <;> rfl

theorem arrive_replying (s : Launch n) (p : Option (Fin n)) (d : Datagram) :
    (s.arrive p d).replying = s.replying := by
  unfold arrive
  split <;> rfl

@[simp] theorem setPeer_peer_self (s : Launch n) (k : Fin n) (j : Joining) :
    (s.setPeer k j).peer k = j := Function.update_self _ _ _

theorem setPeer_peer_of_ne (s : Launch n) {k i : Fin n} (h : i ≠ k) (j : Joining) :
    (s.setPeer k j).peer i = s.peer i := Function.update_of_ne h _ _

end Launch

/-! ## The bootstrap's calls are a loop of `__recvinfo` calls -/

def LaunchEvent.collecting {n : ℕ} : LaunchEvent n → Option ReceiveEvent
  | .arrive none d => some (.arrive d.payload)
  | .bind none => some .bind
  | .recvfrom none => some .recvfrom
  | .close none => some .close
  | _ => none

/-- The bootstrap's socket as `ReceiveLoop` sees it. -/
structure Collects {n : ℕ} (s : Launch n) (r : Receiver) : Prop where
  phase : r.phase = s.call none
  returned : r.returned = s.received.map recvinfo

section
variable {inet_addr : Str → UInt32} {users : List Entered} {s t : Launch users.length}

theorem Collects.setCall_some {r : Receiver} (hr : Collects s r) (k : Fin users.length) (c : CallPhase) :
    Collects (s.setCall (some k) c) r :=
  ⟨hr.phase.trans (s.setCall_call_of_ne (Option.some_ne_none k).symm c).symm, hr.returned⟩

theorem LaunchStep.collects {e : LaunchEvent users.length} {r : Receiver} (hr : Collects s r)
    (h : LaunchStep inet_addr users s e t) :
    e.collecting = none ∧ Collects t r ∨
      ∃ d r', e.collecting = some d ∧ ReceiveStep r d r' ∧ Collects t r' := by
  have hphase := hr.phase
  cases h with
  | register _ _ => exact Or.inl ⟨rfl, hr.phase, hr.returned⟩
  | @arrive p d _ _ =>
    have hcall := s.arrive_call p d
    have hreceived := s.arrive_received p d
    cases p with
    | none =>
      refine Or.inr ⟨_, _, rfl, .arrive d.payload, ?_, hreceived ▸ hr.returned⟩
      show r.phase.deliver d.payload = _
      rw [hcall, Function.update_self, hphase]
    | some k =>
      refine Or.inl ⟨rfl, ?_, hreceived ▸ hr.returned⟩
      rw [hcall, Function.update_of_ne (Option.some_ne_none k).symm, hphase]
  | @bind p _ hidle =>
    cases p with
    | none => exact Or.inr ⟨_, _, rfl, .bind (hphase.trans hidle), rfl, hr.returned⟩
    | some k => exact Or.inl ⟨rfl, hr.setCall_some k _⟩
  | @recvfrom p mesg queue hbound =>
    cases p with
    | none => exact Or.inr ⟨_, _, rfl, .recvfrom (hphase.trans hbound), rfl, hr.returned⟩
    | some k => exact Or.inl ⟨rfl, hr.setCall_some k _⟩
  | @collect mesg queue hread =>
    refine Or.inr ⟨_, _, rfl, .close (hphase.trans hread), rfl, ?_⟩
    show r.returned ++ [recvinfo mesg] = (s.received ++ [mesg]).map recvinfo
    rw [hr.returned, List.map_append, List.map_singleton]
  | @start k mesg queue my_node _ _ =>
    have hset := hr.setCall_some k .idle
    exact Or.inl ⟨rfl, hset.phase, hset.returned⟩
  | sort B _ _ => exact Or.inl ⟨rfl, hr.phase, hr.returned⟩
  | reply _ _ => exact Or.inl ⟨rfl, hr.phase, hr.returned⟩

/-- In every run, what happens at the socket of the bootstrap is a run of a loop of `__recvinfo` calls, and
what the calls return is what it reads the registrations from. -/
theorem run_collects {past : List (Launch users.length × LaunchEvent users.length)}
    (hrun : Run (LaunchStep inet_addr users) (Launch.init users.length) past s) :
    ∃ rpast r, Run ReceiveStep Receiver.init rpast r ∧ Collects s r ∧
      rpast.map Prod.snd = past.filterMap fun x => x.2.collecting :=
  hrun.simulate_stuttering LaunchEvent.collecting ⟨rfl, rfl⟩ fun _ _ _ _ hr hstep => hstep.collects hr

end

/-! ## Where the datagrams are -/

section
variable (inet_addr : Str → UInt32) {users : List Entered}

/-- Every datagram that was sent and that no call has returned. -/
def Launch.everything (s : Launch users.length) : Multiset Datagram :=
  s.flying + ∑ p, addressed inet_addr users p (s.call p).held + s.lost

theorem addressed_cons (p : Option (Fin users.length)) (mesg : Str) (queue : List Str) :
    addressed inet_addr users p (mesg :: queue) =
      {⟨socketAddr inet_addr users p, mesg⟩} + addressed inet_addr users p queue := by
  rw [Multiset.singleton_add]
  rfl

theorem addressed_singleton (p : Option (Fin users.length)) (mesg : Str) :
    addressed inet_addr users p [mesg] = {⟨socketAddr inet_addr users p, mesg⟩} := rfl

theorem addressed_append (p : Option (Fin users.length)) (l l' : List Str) :
    addressed inet_addr users p (l ++ l') =
      addressed inet_addr users p l + addressed inet_addr users p l' := by
  rw [addressed, List.map_append, ← Multiset.coe_add]
  rfl

variable {inet_addr} {s : Launch users.length}

variable (inet_addr) in
theorem everything_setCall (p : Option (Fin users.length)) (c : CallPhase) :
    (s.setCall p c).everything inet_addr + addressed inet_addr users p (s.call p).held =
      s.everything inet_addr + addressed inet_addr users p c.held := by
  have hsum := sum_update_add (fun q c => addressed inet_addr users q (CallPhase.held c)) s.call p c
  show s.flying + ∑ q, addressed inet_addr users q (Function.update s.call p c q).held + s.lost + _ =
    s.flying + ∑ q, addressed inet_addr users q (s.call q).held + s.lost + _
  rw [add_right_comm _ s.lost, add_assoc s.flying, hsum, ← add_assoc]
  exact add_right_comm _ _ _

/-- A call that is made, or reads, moves nothing. -/
theorem everything_setCall_of_held {p : Option (Fin users.length)} {c : CallPhase}
    (h : c.held = (s.call p).held) : (s.setCall p c).everything inet_addr = s.everything inet_addr := by
  have hmove := everything_setCall inet_addr (s := s) p c
  rw [h] at hmove
  exact add_right_cancel hmove

/-- A call that returns takes one datagram. -/
theorem everything_close {p : Option (Fin users.length)} {mesg : Str} {queue : List Str}
    (h : s.call p = .read mesg queue) :
    ((s.setCall p .idle).lose (addressed inet_addr users p queue)).everything inet_addr +
      {⟨socketAddr inet_addr users p, mesg⟩} = s.everything inet_addr := by
  have hmove := everything_setCall inet_addr (s := s) p .idle
  rw [h] at hmove
  have hheld : addressed inet_addr users p (CallPhase.read mesg queue).held =
      {⟨socketAddr inet_addr users p, mesg⟩} + addressed inet_addr users p queue :=
    addressed_cons inet_addr p mesg queue
  have hlose : ((s.setCall p .idle).lose (addressed inet_addr users p queue)).everything inet_addr =
      (s.setCall p .idle).everything inet_addr + addressed inet_addr users p queue :=
    (add_assoc _ _ _).symm
  rw [hlose, add_assoc, add_comm (addressed inet_addr users p queue), ← hheld, hmove]
  exact add_zero _

theorem everything_erase {d : Datagram} (hd : d ∈ s.flying) :
    ({ s with flying := s.flying.erase d } : Launch users.length).everything inet_addr + {d} =
      s.everything inet_addr := by
  have herase : s.flying.erase d + {d} = s.flying := by
    rw [add_comm, Multiset.singleton_add, Multiset.cons_erase hd]
  show s.flying.erase d + ∑ p, addressed inet_addr users p (s.call p).held + s.lost + {d} =
    s.flying + ∑ p, addressed inet_addr users p (s.call p).held + s.lost
  rw [add_right_comm _ s.lost, add_right_comm (s.flying.erase d), herase]

/-- A datagram that arrives is queued or discarded. -/
theorem everything_arrive {p : Option (Fin users.length)} {d : Datagram} (hd : d ∈ s.flying)
    (hdest : socketAddr inet_addr users p = d.dest) :
    (s.arrive p d).everything inet_addr = s.everything inet_addr := by
  obtain hidle | hcall := eq_or_ne (s.call p) .idle
  · rw [Launch.arrive_of_idle hidle]
    exact (add_assoc _ _ _).symm.trans (everything_erase hd)
  · rw [Launch.arrive_of_ne_idle hcall]
    have hmove := everything_setCall inet_addr (s := s) p
      ((s.call p).deliver d.payload)
    have hone : addressed inet_addr users p [d.payload] = {d} := by
      rw [addressed_singleton, hdest]
    rw [held_deliver hcall, addressed_append, hone, ← add_assoc, add_right_comm] at hmove
    have hqueued := add_right_cancel hmove
    rw [← everything_erase (s := s.setCall p _) hd] at hqueued
    exact add_right_cancel hqueued

end

/-! ## What holds in every run -/

/-- What a peer has sent. -/
def Joining.registered (d : Datagram) : Joining → Multiset Datagram
  | .entering => 0
  | .waiting | .serving _ => {d}

def Joining.served : Joining → Multiset Node
  | .entering | .waiting => 0
  | .serving nd => {nd}

/-- Only who makes a call has a socket. -/
structure Attended {n : ℕ} (s : Launch n) : Prop where
  away : ∀ k, s.peer k ≠ .waiting → s.call (some k) = .idle
  collects : s.call none ≠ .idle → s.Calls none
  received_le : s.received.length ≤ n

section
variable (inet_addr : Str → UInt32) {users : List Entered} {payloads : List Str}

/-- Until the ring is computed: a registration that was sent was received, discarded, or is on its way. -/
structure Gathers (s : Launch users.length) : Prop where
  replying : s.replying = none
  notServing : ∀ k nd, s.peer k ≠ .serving nd
  conserved : s.everything inet_addr + addressed inet_addr users none s.received =
    ∑ k, (s.peer k).registered (registrationOf inet_addr users k)

/-- From then on all registrations have been received, and the reply to a node is yet to be sent, was
taken by its peer, was discarded, or is on its way. -/
structure Answers (s : Launch users.length) (B : BootstrapRun payloads) (rest : List Node) : Prop where
  received : s.received = payloads
  perm : payloads.Perm (users.map Entered.registrationText)
  replying : s.replying = some rest
  suffix : rest <:+ B.peers
  registered : ∀ k, s.peer k ≠ .entering
  serving : ∀ k nd, s.peer k = .serving nd → nd ∈ B.peers ∧ nd.ip_port = (users.get k).ip_port
  conserved : s.everything inet_addr +
      (↑rest + ∑ k, (s.peer k).served : Multiset Node).map (replyOf inet_addr) =
    (B.peers : Multiset Node).map (replyOf inet_addr)

def LaunchInv (s : Launch users.length) : Prop :=
  Attended s ∧ (Gathers inet_addr s ∨
    ∃ (payloads : List Str) (B : BootstrapRun payloads) (rest : List Node), Answers inet_addr s B rest)

/-- A step that only moves datagrams. -/
structure Moves (s t : Launch users.length) : Prop where
  peer : t.peer = s.peer
  received : t.received = s.received
  replying : t.replying = s.replying
  everything : t.everything inet_addr = s.everything inet_addr

end

theorem attended_init (n : ℕ) : Attended (Launch.init n) :=
  ⟨fun _ _ => rfl, fun hidle => absurd rfl hidle, Nat.zero_le n⟩

theorem Attended.calls {n : ℕ} {s : Launch n} (h : Attended s) {p : Option (Fin n)}
    (hp : s.call p ≠ .idle) : s.Calls p := by
  cases p with
  | none => exact h.collects hp
  | some k =>
    by_contra hk
    exact hp (h.away k hk)

theorem Attended.setCall {n : ℕ} {s : Launch n} (h : Attended s) {p : Option (Fin n)} {c : CallPhase}
    (hc : c ≠ .idle → s.Calls p) : Attended (s.setCall p c) := by
  have hcall : ∀ q, (s.setCall p c).call q ≠ .idle → s.Calls q := by
    intro q hq
    by_cases hqp : q = p
    · subst hqp
      rw [s.setCall_call_self] at hq
      exact hc hq
    · rw [s.setCall_call_of_ne hqp] at hq
      exact h.calls hq
  refine ⟨fun k hk => ?_, hcall none, h.received_le⟩
  by_contra hidle
  exact hk (hcall (some k) hidle)

section
variable {inet_addr : Str → UInt32} {users : List Entered} {payloads : List Str}
  {B : BootstrapRun payloads} {rest : List Node} {s t : Launch users.length}

theorem LaunchStep.attended {e : LaunchEvent users.length} (hs : Attended s)
    (h : LaunchStep inet_addr users s e t) : Attended t := by
  cases h with
  | @register k d hk _ =>
    refine ⟨fun i hi => ?_, hs.collects, hs.received_le⟩
    by_cases hik : i = k
    · subst hik
      exact absurd (s.setPeer_peer_self i .waiting) hi
    · exact hs.away i fun hw => hi ((s.setPeer_peer_of_ne hik .waiting).trans hw)
  | @arrive p d _ _ =>
    obtain hidle | hcall := eq_or_ne (s.call p) .idle
    · rw [Launch.arrive_of_idle hidle]
      exact ⟨hs.away, hs.collects, hs.received_le⟩
    · rw [Launch.arrive_of_ne_idle hcall]
      have hset := hs.setCall (p := p) (c := (s.call p).deliver d.payload) fun _ => hs.calls hcall
      exact ⟨hset.away, hset.collects, hset.received_le⟩
  | bind hcalls _ => exact hs.setCall fun _ => hcalls
  | recvfrom hbound => exact hs.setCall fun _ => hs.calls (hbound ▸ CallPhase.noConfusion)
  | @collect mesg queue hread =>
    have hset := hs.setCall (p := none) (c := .idle) fun hidle => absurd rfl hidle
    have hlt := (hs.collects (hread ▸ CallPhase.noConfusion)).2
    refine ⟨hset.away, fun hidle => absurd (s.setCall_call_self none .idle) hidle, ?_⟩
    show (s.received ++ [mesg]).length ≤ users.length
    rw [List.length_append, List.length_singleton]
    exact hlt
  | @start k mesg queue my_node hread _ =>
    have hset := hs.setCall (p := some k) (c := .idle) fun hidle => absurd rfl hidle
    refine ⟨fun i hi => ?_, hset.collects, hset.received_le⟩
    by_cases hik : i = k
    · subst hik
      exact s.setCall_call_self (some i) .idle
    · exact hset.away i fun hw => hi ((Launch.setPeer_peer_of_ne _ hik _).trans hw)
  | sort B _ hall =>
    refine ⟨hs.away, fun hcall => ?_, hs.received_le⟩
    exact absurd hall (hs.collects hcall).2.ne
  | reply hrest _ =>
    refine ⟨hs.away, fun hcall => ?_, hs.received_le⟩
    have hnone := (hs.collects hcall).1
    rw [hrest] at hnone
    cases hnone

theorem Moves.arrive {p : Option (Fin users.length)} {d : Datagram} (hd : d ∈ s.flying)
    (hdest : socketAddr inet_addr users p = d.dest) : Moves inet_addr s (s.arrive p d) :=
  ⟨s.arrive_peer p d, s.arrive_received p d, s.arrive_replying p d, everything_arrive hd hdest⟩

theorem Moves.setCall {p : Option (Fin users.length)} {c : CallPhase}
    (h : c.held = (s.call p).held) : Moves inet_addr s (s.setCall p c) :=
  ⟨rfl, rfl, rfl, everything_setCall_of_held h⟩

theorem Moves.gathers (h : Moves inet_addr s t) (hs : Gathers inet_addr s) : Gathers inet_addr t := by
  refine ⟨h.replying ▸ hs.replying, h.peer ▸ hs.notServing, ?_⟩
  rw [h.everything, h.received, h.peer]
  exact hs.conserved

theorem Moves.answers (h : Moves inet_addr s t) (hs : Answers inet_addr s B rest) :
    Answers inet_addr t B rest := by
  refine ⟨h.received ▸ hs.received, hs.perm, h.replying ▸ hs.replying, hs.suffix,
    h.peer ▸ hs.registered, h.peer ▸ hs.serving, ?_⟩
  rw [h.everything, h.peer]
  exact hs.conserved

theorem sum_setPeer {M : Type} [AddCommMonoid M] (f : Fin users.length → Joining → M)
    (k : Fin users.length) (j : Joining) :
    ∑ i, f i ((s.setPeer k j).peer i) + f k (s.peer k) = ∑ i, f i (s.peer i) + f k j :=
  sum_update_add f s.peer k j

theorem everything_send (d : Datagram) :
    (s.send d).everything inet_addr = {d} + s.everything inet_addr := by
  show d ::ₘ s.flying + ∑ p, addressed inet_addr users p (s.call p).held + s.lost = _
  rw [← Multiset.singleton_add, add_assoc, add_assoc, Launch.everything, add_assoc]

theorem mem_everything {p : Option (Fin users.length)} {mesg : Str} (h : mesg ∈ (s.call p).held) :
    (⟨socketAddr inet_addr users p, mesg⟩ : Datagram) ∈ s.everything inet_addr := by
  have haddressed : (⟨socketAddr inet_addr users p, mesg⟩ : Datagram) ∈
      addressed inet_addr users p (s.call p).held := Multiset.mem_coe.mpr (List.mem_map_of_mem h)
  have hsum : (⟨socketAddr inet_addr users p, mesg⟩ : Datagram) ∈
      ∑ q, addressed inet_addr users q (s.call q).held :=
    Multiset.mem_sum.mpr ⟨p, Finset.mem_univ p, haddressed⟩
  exact Multiset.mem_add.mpr (Or.inl (Multiset.mem_add.mpr (Or.inr hsum)))

theorem Gathers.registration (hs : Gathers inet_addr s) {d : Datagram}
    (hd : d ∈ s.everything inet_addr) : ∃ k, d = registrationOf inet_addr users k := by
  have hmem := Multiset.mem_add.mpr (Or.inl hd : _ ∨ d ∈ addressed inet_addr users none s.received)
  rw [hs.conserved] at hmem
  obtain ⟨k, -, hk⟩ := Multiset.mem_sum.mp hmem
  refine ⟨k, ?_⟩
  cases hp : s.peer k with
  | entering =>
    rw [hp] at hk
    exact absurd hk (Multiset.notMem_zero d)
  | waiting | serving _ =>
    rw [hp] at hk
    exact Multiset.mem_singleton.mp hk

theorem Gathers.register (hs : Gathers inet_addr s) {k : Fin users.length} (hk : s.peer k = .entering) :
    Gathers inet_addr ((s.setPeer k .waiting).send (registrationOf inet_addr users k)) := by
  have hsum := sum_setPeer (s := s) (fun i j => j.registered (registrationOf inet_addr users i)) k .waiting
  rw [hk] at hsum
  have hserving : ∀ i nd, (s.setPeer k .waiting).peer i ≠ .serving nd := by
    intro i nd hi
    by_cases hik : i = k
    · subst hik
      rw [s.setPeer_peer_self] at hi
      cases hi
    · exact hs.notServing i nd ((s.setPeer_peer_of_ne hik _).symm.trans hi)
  refine ⟨hs.replying, hserving, ?_⟩
  rw [everything_send, add_assoc]
  show _ + (s.everything inet_addr + addressed inet_addr users none s.received) =
    ∑ i, ((s.setPeer k .waiting).peer i).registered (registrationOf inet_addr users i)
  rw [hs.conserved, add_comm]
  exact hsum.symm.trans (add_zero _)

theorem Gathers.collect (hs : Gathers inet_addr s) {mesg : Str} {queue : List Str}
    (hread : s.call none = .read mesg queue) :
    Gathers inet_addr
      (((s.setCall none .idle).lose (addressed inet_addr users none queue)).receive mesg) := by
  refine ⟨hs.replying, hs.notServing, ?_⟩
  have hclose : ((s.setCall none .idle).lose (addressed inet_addr users none queue)).everything inet_addr +
      {⟨socketAddr inet_addr users none, mesg⟩} = s.everything inet_addr := everything_close hread
  show ((s.setCall none .idle).lose _).everything inet_addr +
    addressed inet_addr users none (s.received ++ [mesg]) = _
  rw [addressed_append, add_comm (addressed inet_addr users none s.received), ← add_assoc,
    addressed_singleton, hclose]
  exact hs.conserved

/-- When the bootstrap has received `n` messages, these are the registrations of all peers. -/
theorem Gathers.perm (hs : Gathers inet_addr s) (hall : s.received.length = users.length) :
    s.everything inet_addr = 0 ∧ (∀ k, s.peer k = .waiting) ∧
      s.received.Perm (users.map Entered.registrationText) := by
  have hone : ∀ k, ((s.peer k).registered (registrationOf inet_addr users k)).card ≤ 1 := by
    intro k
    cases s.peer k with
    | entering => exact Nat.zero_le 1
    | waiting | serving _ => exact le_rfl
  have hcard := congrArg Multiset.card hs.conserved
  have hreceived : (addressed inet_addr users none s.received).card = users.length := by
    rw [addressed, Multiset.coe_card, List.length_map, hall]
  rw [Multiset.card_add, hreceived, Multiset.card_sum] at hcard
  have hle : ∑ k, ((s.peer k).registered (registrationOf inet_addr users k)).card ≤
      ∑ _k : Fin users.length, 1 := Finset.sum_le_sum fun k _ => hone k
  have hn : ∑ _k : Fin users.length, 1 = users.length := by simp
  have hnone : s.everything inet_addr = 0 := Multiset.card_eq_zero.mp (by omega)
  have hsum : ∑ k, ((s.peer k).registered (registrationOf inet_addr users k)).card =
      ∑ _k : Fin users.length, 1 := by omega
  have hsent := (Finset.sum_eq_sum_iff_of_le fun k _ => hone k).mp hsum
  have hwaiting : ∀ k, s.peer k = .waiting := by
    intro k
    have hk := hsent k (Finset.mem_univ k)
    cases hp : s.peer k with
    | entering =>
      rw [hp] at hk
      cases hk
    | waiting => rfl
    | serving nd => exact absurd hp (hs.notServing k nd)
  refine ⟨hnone, hwaiting, ?_⟩
  have hall := hs.conserved
  simp only [hnone, hwaiting, zero_add, Joining.registered, sum_singletons] at hall
  have hpayloads := (Multiset.coe_eq_coe.mp hall).map Datagram.payload
  rw [List.map_map, List.map_map] at hpayloads
  have hleft : s.received.map (Datagram.payload ∘ fun payload =>
      (⟨socketAddr inet_addr users none, payload⟩ : Datagram)) = s.received := List.map_id _
  have hright : (List.finRange users.length).map
      (Datagram.payload ∘ registrationOf inet_addr users) = users.map Entered.registrationText := by
    conv_rhs => rw [← List.map_get_finRange users, List.map_map]
    rfl
  rw [hleft, hright] at hpayloads
  exact hpayloads

theorem Gathers.answers (hs : Gathers inet_addr s) (hall : s.received.length = users.length)
    (B : BootstrapRun s.received) :
    Answers inet_addr (s.setReplying B.peers) B B.peers := by
  obtain ⟨hnone, hwaiting, hperm⟩ := hs.perm hall
  have hentering : ∀ k, s.peer k ≠ .entering := fun k hk => by
    rw [hwaiting k] at hk
    cases hk
  refine ⟨rfl, hperm, rfl, List.suffix_rfl, hentering,
    fun k nd hk => absurd hk (hs.notServing k nd), ?_⟩
  have hserved : ∑ k, (s.peer k).served = 0 := Finset.sum_eq_zero fun k _ => by
    rw [hwaiting k]
    rfl
  show s.everything inet_addr + (↑B.peers + ∑ k, (s.peer k).served).map _ = _
  rw [hnone, hserved, zero_add, add_zero]

theorem Answers.start (haddr : Function.Injective (socketAddr inet_addr users))
    (h : ∀ e ∈ users, e.Sound) (hfit : RepliesFit users) (hatt : Attended s)
    (hs : Answers inet_addr s B rest) {k : Fin users.length} {mesg : Str} {queue : List Str}
    {my_node : Node} (hread : s.call (some k) = .read mesg queue)
    (hmy : (users.get k).myNode = some my_node) :
    Answers inet_addr
      (((s.setCall (some k) .idle).lose (addressed inet_addr users (some k) queue)).setPeer k
        (.serving (parseStartup my_node (recvinfo mesg)))) B rest := by
  set t := (s.setCall (some k) .idle).lose (addressed inet_addr users (some k) queue) with ht
  have hclose : t.everything inet_addr + {⟨socketAddr inet_addr users (some k), mesg⟩} =
      s.everything inet_addr := everything_close hread
  have hmem : (⟨socketAddr inet_addr users (some k), mesg⟩ : Datagram) ∈
      (B.peers : Multiset Node).map (replyOf inet_addr) := by
    rw [← hs.conserved, ← hclose]
    exact Multiset.mem_add.mpr (Or.inl (Multiset.mem_add.mpr (Or.inr (Multiset.mem_singleton_self _))))
  obtain ⟨nd, hnd, hreply⟩ := Multiset.mem_map.mp hmem
  obtain ⟨hstarted, hip⟩ := started_peer haddr h hfit hs.perm hmy (Multiset.mem_coe.mp hnd) hreply
  rw [hstarted]
  have hcall : s.call (some k) ≠ .idle := hread ▸ CallPhase.noConfusion
  have hwaiting : s.peer k = .waiting := hatt.calls hcall
  refine ⟨hs.received, hs.perm, hs.replying, hs.suffix, fun i hi => ?_, fun i nd' hi => ?_, ?_⟩
  · by_cases hik : i = k
    · subst hik
      rw [t.setPeer_peer_self] at hi
      cases hi
    · exact hs.registered i ((t.setPeer_peer_of_ne hik _).symm.trans hi)
  · by_cases hik : i = k
    · subst hik
      rw [t.setPeer_peer_self] at hi
      obtain rfl := Joining.serving.inj hi
      exact ⟨Multiset.mem_coe.mp hnd, hip⟩
    · exact hs.serving i nd' ((t.setPeer_peer_of_ne hik _).symm.trans hi)
  · have hsum : ∑ i, ((t.setPeer k (.serving nd)).peer i).served + (t.peer k).served =
        ∑ i, (t.peer i).served + {nd} := sum_setPeer (s := t) (fun _ => Joining.served) k (.serving nd)
    have hserved : ∑ i, ((t.setPeer k (.serving nd)).peer i).served =
        ∑ i, (s.peer i).served + {nd} := by
      rw [show t.peer k = .waiting from hwaiting] at hsum
      exact (add_zero _).symm.trans hsum
    show t.everything inet_addr + (↑rest + ∑ i, ((t.setPeer k (.serving nd)).peer i).served).map _ = _
    rw [hserved, ← add_assoc, Multiset.map_add, Multiset.map_singleton, hreply, ← add_assoc,
      add_right_comm, hclose]
    exact hs.conserved

theorem Answers.reply (hfit : RepliesFit users) {nd : Node} {d : Datagram}
    (hs : Answers inet_addr s B (nd :: rest)) (hd : sendReply inet_addr nd = some d) :
    Answers inet_addr ((s.setReplying rest).send d) B rest := by
  have hnd : nd ∈ B.peers := hs.suffix.subset List.mem_cons_self
  obtain rfl : d = replyOf inet_addr nd :=
    Option.some.inj (hd.symm.trans (sendReply_eq inet_addr hs.perm hfit hnd))
  refine ⟨hs.received, hs.perm, rfl, (List.suffix_cons nd rest).trans hs.suffix, hs.registered,
    hs.serving, ?_⟩
  show (s.send (replyOf inet_addr nd)).everything inet_addr +
    (↑rest + ∑ k, (s.peer k).served : Multiset Node).map (replyOf inet_addr) = _
  have hconserved := hs.conserved
  rw [← Multiset.cons_coe, Multiset.cons_add, Multiset.map_cons, ← Multiset.singleton_add,
    add_left_comm, ← add_assoc] at hconserved
  rw [everything_send]
  exact hconserved

theorem LaunchStep.inv (haddr : Function.Injective (socketAddr inet_addr users))
    (h : ∀ e ∈ users, e.Sound) (hfit : RepliesFit users) {e : LaunchEvent users.length}
    (hs : LaunchInv inet_addr s) (hstep : LaunchStep inet_addr users s e t) : LaunchInv inet_addr t := by
  obtain ⟨hatt, hphase⟩ := hs
  refine ⟨hstep.attended hatt, ?_⟩
  have hmoves : Moves inet_addr s t → Gathers inet_addr t ∨ ∃ (payloads : List Str)
      (B : BootstrapRun payloads) (rest : List Node), Answers inet_addr t B rest := by
    intro hmove
    obtain hs | ⟨payloads, B, rest, hs⟩ := hphase
    · exact Or.inl (hmove.gathers hs)
    · exact Or.inr ⟨payloads, B, rest, hmove.answers hs⟩
  cases hstep with
  | @register k d hk hd =>
    obtain hs | ⟨payloads, B, rest, hs⟩ := hphase
    · rw [register_eq (h _ (List.get_mem users k)) hd]
      exact Or.inl (hs.register hk)
    · exact absurd hk (hs.registered k)
  | arrive hd hdest => exact hmoves (.arrive hd hdest)
  | bind _ hidle => exact hmoves (.setCall (by rw [hidle]; rfl))
  | recvfrom hbound => exact hmoves (.setCall (by rw [hbound]; rfl))
  | collect hread =>
    obtain hs | ⟨payloads, B, rest, hs⟩ := hphase
    · exact Or.inl (hs.collect hread)
    · -- the bootstrap makes no more calls
      have hnone := (hatt.collects (hread ▸ CallPhase.noConfusion)).1
      rw [hs.replying] at hnone
      cases hnone
  | @start k mesg queue my_node hread hmy =>
    obtain hs | ⟨payloads, B, rest, hs⟩ := hphase
    · have hheld : mesg ∈ (s.call (some k)).held := by
        rw [hread]
        exact List.mem_cons_self
      obtain ⟨j, hj⟩ := hs.registration (mem_everything hheld)
      -- only registrations are under way, and none of them was sent to a peer
      have hdest : socketAddr inet_addr users (some k) = socketAddr inet_addr users none :=
        congrArg Datagram.dest hj
      cases haddr hdest
    · exact Or.inr ⟨payloads, B, rest, hs.start haddr h hfit hatt hread hmy⟩
  | sort B hnone hall =>
    obtain hs | ⟨payloads, B', rest, hs⟩ := hphase
    · exact Or.inr ⟨_, B, B.peers, hs.answers hall B⟩
    · rw [hs.replying] at hnone
      cases hnone
  | @reply nd rest d hrest hd =>
    obtain hs | ⟨payloads, B, rest', hs⟩ := hphase
    · rw [hs.replying] at hrest
      cases hrest
    · obtain rfl : rest' = nd :: rest := Option.some.inj (hs.replying.symm.trans hrest)
      exact Or.inr ⟨payloads, B, rest, hs.reply hfit hd⟩

variable {past : List (Launch users.length × LaunchEvent users.length)}

theorem run_launchInv (haddr : Function.Injective (socketAddr inet_addr users))
    (h : ∀ e ∈ users, e.Sound) (hfit : RepliesFit users)
    (hrun : Run (LaunchStep inet_addr users) (Launch.init users.length) past s) :
    LaunchInv inet_addr s := by
  refine hrun.invariant (I := LaunchInv inet_addr) ?_ fun _ _ _ hs hstep => hstep.inv haddr h hfit hs
  refine ⟨attended_init users.length, Or.inl ⟨rfl, nofun, ?_⟩⟩
  simp [Launch.everything, Launch.init, CallPhase.held, addressed, Joining.registered]

/-! ## Nobody is misled -/

theorem Answers.mem_total (hs : Answers inet_addr s B rest) {d : Datagram}
    (hd : d ∈ s.everything inet_addr) : ∃ nd ∈ B.peers, replyOf inet_addr nd = d := by
  have hmem := Multiset.mem_add.mpr (Or.inl hd : _ ∨ d ∈
    (↑rest + ∑ k, (s.peer k).served : Multiset Node).map (replyOf inet_addr))
  rw [hs.conserved] at hmem
  obtain ⟨nd, hnd, hreply⟩ := Multiset.mem_map.mp hmem
  exact ⟨nd, Multiset.mem_coe.mp hnd, hreply⟩

/-- What is on its way, at a socket or discarded while the bootstrap replies was sent to a peer. -/
theorem Answers.dest (h : ∀ e ∈ users, e.Sound) (hs : Answers inet_addr s B rest) {d : Datagram}
    (hd : d ∈ s.everything inet_addr) : ∃ k, d.dest = socketAddr inet_addr users (some k) := by
  obtain ⟨nd, hnd, rfl⟩ := hs.mem_total hd
  obtain ⟨i, hi⟩ := List.mem_iff_getElem?.mp hnd
  obtain ⟨k, -, -, -, -, hdest⟩ := exists_user inet_addr h hs.perm hi
  exact ⟨k, hdest⟩

theorem mem_everything_of_lost {d : Datagram} (hd : d ∈ s.lost) : d ∈ s.everything inet_addr :=
  Multiset.mem_add.mpr (Or.inr hd)

/-- In every run, whatever is discarded: while any registration is missing nobody serves, and afterwards
those who serve are nodes of one ring, the ring of all users, each at the address that its user entered. -/
theorem launch_sound (hne : users ≠ []) (hports : Function.Injective (socketPort users))
    (h : ∀ e ∈ users, e.Sound) (hfit : RepliesFit users)
    (hrun : Run (LaunchStep inet_addr users) (Launch.init users.length) past s) :
    (s.received.length < users.length ∧ ∀ k nd, s.peer k ≠ .serving nd) ∨
      (∀ d ∈ s.lost, d.dest ≠ socketAddr inet_addr users none) ∧
      ∃ B : BootstrapRun s.received, (B.all_info.map some).Perm (users.map Entered.myNode) ∧
        ∀ k nd, s.peer k = .serving nd → nd ∈ B.peers ∧ nd.ip_port = (users.get k).ip_port := by
  have haddr : Function.Injective (socketAddr inet_addr users) := socketAddr_injective hports
  obtain ⟨hatt, hs | ⟨payloads, B, rest, hs⟩⟩ := run_launchInv haddr h hfit hrun
  · obtain hlt | hall := hatt.received_le.lt_or_eq
    · exact Or.inl ⟨hlt, hs.notServing⟩
    · -- the last registration has come, and the ring is not computed yet
      obtain ⟨hnone, -, hperm⟩ := hs.perm hall
      obtain ⟨B⟩ := exists_bootstrapRun hne h hperm
      refine Or.inr ⟨fun d hd => ?_, B, B.all_info_perm h hperm,
        fun _ _ hk => absurd hk (hs.notServing _ _)⟩
      have hmem : d ∈ s.everything inet_addr := mem_everything_of_lost hd
      rw [hnone] at hmem
      exact absurd hmem (Multiset.notMem_zero d)
  · obtain rfl := hs.received
    refine Or.inr ⟨fun d hd hnone => ?_, B, B.all_info_perm h hs.perm, hs.serving⟩
    obtain ⟨k, hk⟩ := hs.dest h (mem_everything_of_lost hd)
    cases haddr (hk.symm.trans hnone)

end

/-! ## Every run ends -/

/-- The steps of a peer, with the arrival of its registration and without those of an unfinished call. -/
def Joining.spent : Joining → ℕ
  | .entering => 0
  | .waiting => 2
  | .serving _ => 5

def CallPhase.spent : CallPhase → ℕ
  | .idle => 0
  | .bound _ => 1
  | .read _ _ => 2

/-- The steps that were taken, when what flies has arrived and the sending loop is done. -/
def Launch.spent {n : ℕ} (s : Launch n) : ℕ :=
  ∑ k, (s.peer k).spent + ∑ p, (s.call p).spent + 3 * s.received.length +
    if s.replying.isSome then 2 * n + 1 else 0

def Launch.owed {n : ℕ} (s : Launch n) : ℕ := s.flying.card + 2 * (s.replying.getD []).length

section
variable {inet_addr : Str → UInt32} {users : List Entered} {s t : Launch users.length}
  {past : List (Launch users.length × LaunchEvent users.length)}

theorem spent_setCall (p : Option (Fin users.length)) (c : CallPhase) :
    (s.setCall p c).spent + (s.call p).spent = s.spent + c.spent := by
  have hsum := sum_update_add (fun _ => CallPhase.spent) s.call p c
  show ∑ k, (s.peer k).spent + ∑ q, (Function.update s.call p c q).spent + 3 * s.received.length +
      (if s.replying.isSome then 2 * users.length + 1 else 0) + _ =
    ∑ k, (s.peer k).spent + ∑ q, (s.call q).spent + 3 * s.received.length +
      (if s.replying.isSome then 2 * users.length + 1 else 0) + _
  omega

theorem spent_setPeer (k : Fin users.length) (j : Joining) :
    (s.setPeer k j).spent + (s.peer k).spent = s.spent + j.spent := by
  have hsum := sum_setPeer (s := s) (fun _ => Joining.spent) k j
  show ∑ i, ((s.setPeer k j).peer i).spent + ∑ q, (s.call q).spent + 3 * s.received.length +
      (if s.replying.isSome then 2 * users.length + 1 else 0) + _ =
    ∑ i, (s.peer i).spent + ∑ q, (s.call q).spent + 3 * s.received.length +
      (if s.replying.isSome then 2 * users.length + 1 else 0) + _
  omega

theorem CallPhase.spent_deliver (c : CallPhase) (payload : Str) : (c.deliver payload).spent = c.spent := by
  cases c <;> rfl

theorem owed_send (d : Datagram) : (s.send d).owed = s.owed + 1 := by
  show (d ::ₘ s.flying).card + 2 * (s.replying.getD []).length = s.flying.card + _ + 1
  rw [Multiset.card_cons, add_right_comm]

theorem spent_arrive {p : Option (Fin users.length)} {d : Datagram} (hd : d ∈ s.flying) :
    (s.arrive p d).spent = s.spent ∧ (s.arrive p d).owed + 1 = s.owed := by
  have hcard := Multiset.card_erase_add_one hd
  have howed : (s.flying.erase d).card + 2 * (s.replying.getD []).length + 1 = s.owed := by
    rw [Launch.owed, ← hcard, add_right_comm]
  obtain hidle | hcall := eq_or_ne (s.call p) .idle
  · rw [Launch.arrive_of_idle hidle]
    exact ⟨rfl, howed⟩
  · rw [Launch.arrive_of_ne_idle hcall]
    have hmove := spent_setCall (s := s) p ((s.call p).deliver d.payload)
    rw [CallPhase.spent_deliver] at hmove
    exact ⟨add_right_cancel hmove, howed⟩

theorem spent_receive (mesg : Str) : (s.receive mesg).spent = s.spent + 3 := by
  show ∑ k, (s.peer k).spent + ∑ q, (s.call q).spent + 3 * (s.received ++ [mesg]).length +
      (if s.replying.isSome then 2 * users.length + 1 else 0) =
    ∑ k, (s.peer k).spent + ∑ q, (s.call q).spent + 3 * s.received.length +
      (if s.replying.isSome then 2 * users.length + 1 else 0) + 3
  rw [List.length_append, List.length_singleton]
  omega

/-- A step is paid for by the party that takes it, or by the datagram that arrives. -/
theorem LaunchStep.spent {e : LaunchEvent users.length} (hatt : Attended s)
    (h : LaunchStep inet_addr users s e t) : t.spent + s.owed = s.spent + t.owed + 1 := by
  cases h with
  | @register k d hk _ =>
    have hpeer := spent_setPeer (s := s) k .waiting
    rw [hk] at hpeer
    have htwo : (s.setPeer k .waiting).spent + 0 = s.spent + 2 := hpeer
    rw [owed_send]
    show (s.setPeer k .waiting).spent + s.owed = s.spent + (s.owed + 1) + 1
    omega
  | @arrive p d hd _ =>
    obtain ⟨hspent, howed⟩ := spent_arrive (p := p) hd
    omega
  | @bind p _ hidle =>
    have hcall := spent_setCall (s := s) p (.bound [])
    rw [hidle] at hcall
    have hone : (s.setCall p (.bound [])).spent + 0 = s.spent + 1 := hcall
    show (s.setCall p (.bound [])).spent + s.owed = s.spent + s.owed + 1
    omega
  | @recvfrom p mesg queue hbound =>
    have hcall := spent_setCall (s := s) p (.read mesg queue)
    rw [hbound] at hcall
    have hone : (s.setCall p (.read mesg queue)).spent + 1 = s.spent + 2 := hcall
    show (s.setCall p (.read mesg queue)).spent + s.owed = s.spent + s.owed + 1
    omega
  | @collect mesg queue hread =>
    have hcall := spent_setCall (s := s) none .idle
    rw [hread] at hcall
    have htwo : (s.setCall none .idle).spent + 2 = s.spent + 0 := hcall
    have hthree := spent_receive (s := s.setCall none .idle) mesg
    show ((s.setCall none .idle).receive mesg).spent + s.owed = s.spent + s.owed + 1
    omega
  | @start k mesg queue my_node hread _ =>
    have hcall := spent_setCall (s := s) (some k) .idle
    rw [hread] at hcall
    have htwo : (s.setCall (some k) .idle).spent + 2 = s.spent + 0 := hcall
    have hbusy : s.call (some k) ≠ .idle := hread ▸ CallPhase.noConfusion
    have hwaiting : s.peer k = .waiting := hatt.calls hbusy
    have hpeer := spent_setPeer (s := s.setCall (some k) .idle) k
      (.serving (parseStartup my_node (recvinfo mesg)))
    rw [show (s.setCall (some k) .idle).peer k = .waiting from hwaiting] at hpeer
    have hthree : ((s.setCall (some k) .idle).setPeer k
        (.serving (parseStartup my_node (recvinfo mesg)))).spent + 2 =
      (s.setCall (some k) .idle).spent + 5 := hpeer
    show ((s.setCall (some k) .idle).setPeer k
      (.serving (parseStartup my_node (recvinfo mesg)))).spent + s.owed = s.spent + s.owed + 1
    omega
  | sort B hnone hall =>
    have hlen : B.peers.length = users.length := by rw [B.length_peers, B.length_all_info, hall]
    simp only [Launch.spent, Launch.owed, Launch.setReplying, hnone, Option.isSome_some,
      Option.isSome_none, if_true, Option.getD_some, Option.getD_none, hlen, List.length_nil, Bool.false_eq_true, if_false]
    omega
  | @reply nd rest d hrest _ =>
    simp only [Launch.spent, Launch.owed, Launch.setReplying, Launch.send, hrest, Option.isSome_some, if_true,
      Option.getD_some, List.length_cons, Multiset.card_cons]
    omega

/-- Until everything has arrived and the bootstrap is done, some steps are owed. -/
theorem run_spent (hrun : Run (LaunchStep inet_addr users) (Launch.init users.length) past s) :
    Attended s ∧ past.length + s.owed = s.spent := by
  induction hrun with
  | start =>
    refine ⟨attended_init users.length, ?_⟩
    simp [Launch.owed, Launch.spent, Launch.init, Joining.spent, CallPhase.spent]
  | @next past s t e _ hstep ih =>
    obtain ⟨hatt, hlen⟩ := ih
    have hpaid := hstep.spent hatt
    refine ⟨hstep.attended hatt, ?_⟩
    rw [List.length_cons]
    omega

theorem Attended.spent_peer (hatt : Attended s) (k : Fin users.length) :
    (s.peer k).spent + (s.call (some k)).spent ≤ 5 ∧
      ((s.peer k).spent + (s.call (some k)).spent = 5 ↔ ∃ nd, s.peer k = .serving nd) := by
  cases hp : s.peer k with
  | entering =>
    rw [hatt.away k (hp ▸ Joining.noConfusion)]
    simp [Joining.spent, CallPhase.spent]
  | waiting => cases s.call (some k) <;> simp [Joining.spent, CallPhase.spent]
  | serving nd =>
    rw [hatt.away k (hp ▸ Joining.noConfusion)]
    simp [Joining.spent, CallPhase.spent]

theorem Launch.spent_eq : s.spent = ∑ k, ((s.peer k).spent + (s.call (some k)).spent) +
    ((s.call none).spent + 3 * s.received.length) +
    if s.replying.isSome then 2 * users.length + 1 else 0 := by
  rw [Launch.spent, Fintype.sum_option, Finset.sum_add_distrib]
  omega

theorem Attended.spent_bootstrap (hatt : Attended s) :
    (s.call none).spent + 3 * s.received.length ≤ 3 * users.length := by
  have hle := hatt.received_le
  have hlt : s.call none ≠ .idle → s.received.length < users.length := fun hcall =>
    (hatt.collects hcall).2
  cases hc : s.call none with
  | idle =>
    show 0 + 3 * s.received.length ≤ 3 * users.length
    omega
  | bound queue =>
    have := hlt (hc ▸ CallPhase.noConfusion)
    show 1 + 3 * s.received.length ≤ 3 * users.length
    omega
  | read mesg queue =>
    have := hlt (hc ▸ CallPhase.noConfusion)
    show 2 + 3 * s.received.length ≤ 3 * users.length
    omega

/-- When everybody serves, nothing is left. -/
theorem Answers.all_serving {payloads : List Str} {B : BootstrapRun payloads} {rest : List Node}
    (hs : Answers inet_addr s B rest) (hall : ∀ k, ∃ nd, s.peer k = .serving nd) :
    s.everything inet_addr = 0 ∧ rest = [] := by
  have hone : ∀ k, (s.peer k).served.card = 1 := by
    intro k
    obtain ⟨nd, hk⟩ := hall k
    rw [hk]
    rfl
  have hlen : B.peers.length = users.length := by
    rw [B.length_peers, B.length_all_info, hs.perm.length_eq, List.length_map]
  have hcard := congrArg Multiset.card hs.conserved
  rw [Multiset.card_add, Multiset.card_map, Multiset.card_map, Multiset.card_add, Multiset.coe_card,
    Multiset.coe_card, Multiset.card_sum, Finset.sum_congr rfl fun k _ => hone k, hlen] at hcard
  have hn : ∑ _k : Fin users.length, 1 = users.length := by simp
  rw [hn] at hcard
  exact ⟨Multiset.card_eq_zero.mp (by omega), List.length_eq_zero_iff.mp (by omega)⟩

theorem Attended.spent_le (hatt : Attended s) : s.spent ≤ 10 * users.length + 1 ∧
    (s.spent = 10 * users.length + 1 → ∀ k, ∃ nd, s.peer k = .serving nd) := by
  have hboot := hatt.spent_bootstrap
  have hfive : ∑ _k : Fin users.length, 5 = 5 * users.length := by simp [Nat.mul_comm]
  have hle : ∀ k ∈ Finset.univ, (s.peer k).spent + (s.call (some k)).spent ≤ 5 := fun k _ =>
    (hatt.spent_peer k).1
  have hpeers := Finset.sum_le_sum hle
  have hsort : (if s.replying.isSome then 2 * users.length + 1 else 0) ≤ 2 * users.length + 1 := by
    split_ifs <;> omega
  rw [Launch.spent_eq]
  refine ⟨by omega, fun hspent k => ?_⟩
  have hsum : ∑ k, ((s.peer k).spent + (s.call (some k)).spent) = ∑ _k : Fin users.length, 5 := by
    omega
  exact (hatt.spent_peer k).2.mp ((Finset.sum_eq_sum_iff_of_le hle).mp hsum k (Finset.mem_univ k))

theorem Answers.spent {payloads : List Str} {B : BootstrapRun payloads} {rest : List Node}
    (hatt : Attended s) (hs : Answers inet_addr s B rest)
    (hall : ∀ k, ∃ nd, s.peer k = .serving nd) : s.spent = 10 * users.length + 1 ∧ s.owed = 0 := by
  obtain ⟨hnone, rfl⟩ := hs.all_serving hall
  have hflying : s.flying = 0 := (add_eq_zero.mp (add_eq_zero.mp hnone).1).1
  have hidle : s.call none = .idle := by
    by_contra hcall
    have hcollects := (hatt.collects hcall).1
    rw [hs.replying] at hcollects
    cases hcollects
  have hreceived : s.received.length = users.length := by
    rw [hs.received, hs.perm.length_eq, List.length_map]
  have hsum : ∑ k, ((s.peer k).spent + (s.call (some k)).spent) = 5 * users.length := by
    rw [Finset.sum_congr rfl fun k _ => (hatt.spent_peer k).2.mpr (hall k)]
    simp [Nat.mul_comm]
  constructor
  · rw [Launch.spent_eq, hsum, hidle, hreceived, hs.replying]
    simp only [CallPhase.spent, Option.isSome_some, if_true]
    omega
  · rw [Launch.owed, hflying, hs.replying]
    rfl

/-- Every run ends, after at most ten steps for each peer and one of the bootstrap; and a run has that many
exactly if every peer serves. -/
theorem launch_steps (hne : users ≠ []) (hports : Function.Injective (socketPort users))
    (h : ∀ e ∈ users, e.Sound) (hfit : RepliesFit users)
    (hrun : Run (LaunchStep inet_addr users) (Launch.init users.length) past s) :
    past.length ≤ 10 * users.length + 1 ∧
      (past.length = 10 * users.length + 1 ↔ ∀ k, ∃ nd, s.peer k = .serving nd) := by
  obtain ⟨hatt, hpast⟩ := run_spent hrun
  obtain ⟨hle, hserving⟩ := hatt.spent_le
  refine ⟨by omega, fun hlen => hserving (by omega), fun hall => ?_⟩
  obtain ⟨-, hs | ⟨payloads, B, rest, hs⟩⟩ :=
    run_launchInv (socketAddr_injective hports) h hfit hrun
  · obtain ⟨nd, hk⟩ := hall ⟨0, List.length_pos_iff.mpr hne⟩
    exact absurd hk (hs.notServing _ nd)
  · obtain ⟨hspent, howed⟩ := hs.spent hatt hall
    omega

end

/-! ## At rest -/

/-- A datagram finds the call of its party in `recvfrom`, with nothing queued. -/
def FindsCall {n : ℕ} (s : Launch n) : LaunchEvent n → Prop
  | .arrive p _ => s.call p = .bound []
  | _ => True

/-- Nothing is discarded, and no socket has more than the datagram of its call. -/
def Launch.Kept {n : ℕ} (s : Launch n) : Prop := s.lost = 0 ∧ ∀ p, (s.call p).held.length ≤ 1

namespace Launch
variable {n : ℕ}

theorem kept_setCall (s : Launch n) (p : Option (Fin n)) (c : CallPhase) :
    (s.setCall p c).Kept ↔
      s.lost = 0 ∧ c.held.length ≤ 1 ∧ ∀ q, q ≠ p → (s.call q).held.length ≤ 1 :=
  and_congr_right fun _ => Function.forall_update_iff s.call (p := fun _ c => c.held.length ≤ 1)

theorem kept_iff (s : Launch n) (p : Option (Fin n)) :
    s.Kept ↔ s.lost = 0 ∧ (s.call p).held.length ≤ 1 ∧
      ∀ q, q ≠ p → (s.call q).held.length ≤ 1 := by
  rw [← s.kept_setCall p, setCall, Function.update_eq_self]

theorem kept_setCall_iff (s : Launch n) {p : Option (Fin n)} {c : CallPhase}
    (h : c.held.length ≤ 1 ↔ (s.call p).held.length ≤ 1) : (s.setCall p c).Kept ↔ s.Kept := by
  rw [s.kept_setCall, h, ← s.kept_iff p]

theorem kept_init (n : ℕ) : (init n).Kept := ⟨rfl, fun _ => Nat.zero_le 1⟩

/-- A call that returns discards what is queued behind its datagram. -/
theorem kept_close (s : Launch n) {p : Option (Fin n)} {mesg : Str} {queue : List Str}
    (hread : s.call p = .read mesg queue) {ds : Multiset Datagram} (hds : ds = 0 ↔ queue = []) :
    ((s.setCall p .idle).lose ds).Kept ↔ s.Kept := by
  have hlose : ((s.setCall p .idle).lose ds).Kept ↔ queue = [] ∧ (s.setCall p .idle).Kept := by
    show s.lost + ds = 0 ∧ _ ↔ queue = [] ∧ s.lost = 0 ∧ _
    rw [add_eq_zero, hds, and_comm (a := s.lost = 0), and_assoc]
    exact Iff.rfl
  rw [hlose, s.kept_setCall, s.kept_iff p, hread]
  cases queue with
  | nil => simp [CallPhase.held]
  | cons q queue => simp [CallPhase.held]

/-- A datagram that is discarded or queued behind another is one that did not find its call. -/
theorem kept_arrive (s : Launch n) (p : Option (Fin n)) (d : Datagram) :
    (s.arrive p d).Kept ↔ s.Kept ∧ s.call p = .bound [] := by
  cases hcall : s.call p with
  | idle =>
    rw [arrive_of_idle hcall]
    refine iff_of_false (fun h => ?_) fun h => CallPhase.noConfusion h.2
    exact Multiset.singleton_ne_zero d (add_eq_zero.mp h.1).2
  | bound queue =>
    rw [arrive_of_ne_idle (hcall ▸ CallPhase.noConfusion), s.kept_iff p, hcall]
    refine (s.kept_setCall p (.bound (queue ++ [d.payload]))).trans ?_
    cases queue with
    | nil => simp [CallPhase.held]
    | cons q queue => simp [CallPhase.held]
  | read mesg queue =>
    rw [arrive_of_ne_idle (hcall ▸ CallPhase.noConfusion), hcall]
    refine iff_of_false (fun h => ?_) fun h => CallPhase.noConfusion h.2
    have hlen := ((s.kept_setCall p (.read mesg (queue ++ [d.payload]))).mp h).2.1
    simp [CallPhase.held] at hlen

end Launch

section
variable {inet_addr : Str → UInt32} {users : List Entered} {s t : Launch users.length}
  {past : List (Launch users.length × LaunchEvent users.length)}

theorem addressed_eq_zero (p : Option (Fin users.length)) (queue : List Str) :
    addressed inet_addr users p queue = 0 ↔ queue = [] := by
  rw [addressed, Multiset.coe_eq_zero, List.map_eq_nil_iff]

theorem LaunchStep.kept_iff {e : LaunchEvent users.length} (h : LaunchStep inet_addr users s e t) :
    t.Kept ↔ s.Kept ∧ FindsCall s e := by
  cases h with
  | register _ _ => exact (and_iff_left trivial).symm
  | @arrive p d _ _ => exact s.kept_arrive p d
  | bind _ hidle => exact (s.kept_setCall_iff (hidle ▸ Iff.rfl)).trans (and_iff_left trivial).symm
  | @recvfrom p mesg queue hbound =>
    refine (s.kept_setCall_iff ?_).trans (and_iff_left trivial).symm
    rw [hbound]
    rfl
  | @collect mesg queue hread =>
    exact (s.kept_close hread (addressed_eq_zero none queue)).trans (and_iff_left trivial).symm
  | @start k mesg queue my_node hread _ =>
    exact (s.kept_close hread (addressed_eq_zero (some k) queue)).trans (and_iff_left trivial).symm
  | sort B _ _ => exact (and_iff_left trivial).symm
  | reply _ _ => exact (and_iff_left trivial).symm

theorem run_findsCall (hrun : Run (LaunchStep inet_addr users) (Launch.init users.length) past s) :
    s.Kept ↔ Guarded FindsCall past :=
  hrun.good_iff (I := fun _ => True) (G := Launch.Kept) trivial (Launch.kept_init users.length)
    fun _ _ _ _ hstep => ⟨trivial, hstep.kept_iff⟩

theorem LaunchInv.everything_at_rest (h : ∀ e ∈ users, e.Sound) (hs : LaunchInv inet_addr s)
    (hrest : ∀ e t, ¬ LaunchStep inet_addr users s e t) :
    s.everything inet_addr = s.lost ∧ ∀ p, (s.call p).held = [] := by
  have hheld : ∀ p, (s.call p).held = [] := by
    intro p
    cases hcall : s.call p with
    | idle => rfl
    | bound queue =>
      cases queue with
      | nil => rfl
      | cons mesg queue => exact absurd (.recvfrom hcall) (hrest _ _)
    | read mesg queue =>
      cases p with
      | none => exact absurd (.collect hcall) (hrest _ _)
      | some k =>
        obtain ⟨my_node, hmy, -⟩ := (h _ (List.get_mem users k)).myNode
        exact absurd (.start hcall hmy) (hrest _ _)
  have hflying : s.flying = 0 := by
    refine Multiset.eq_zero_of_forall_notMem fun d hd => ?_
    have hmem : d ∈ s.everything inet_addr :=
      Multiset.mem_add.mpr (Or.inl (Multiset.mem_add.mpr (Or.inl hd)))
    have hdest : ∃ p, socketAddr inet_addr users p = d.dest := by
      obtain ⟨-, hs | ⟨payloads, B, rest, hs⟩⟩ := hs
      · obtain ⟨k, rfl⟩ := hs.registration hmem
        exact ⟨none, rfl⟩
      · obtain ⟨k, hk⟩ := hs.dest h hmem
        exact ⟨some k, hk.symm⟩
    obtain ⟨p, hp⟩ := hdest
    exact hrest _ _ (.arrive hd hp)
  refine ⟨?_, hheld⟩
  have hsum : ∑ p, addressed inet_addr users p (s.call p).held = 0 :=
    Finset.sum_eq_zero fun p _ => (addressed_eq_zero p _).mpr (hheld p)
  rw [Launch.everything, hflying, hsum, zero_add, zero_add]

/-- If the bootstrap still waits, it is for a registration that was discarded. -/
theorem Gathers.at_rest (hne : users ≠ []) (h : ∀ e ∈ users, e.Sound) (hatt : Attended s)
    (hs : Gathers inet_addr s) (hlost : s.everything inet_addr = s.lost)
    (hrest : ∀ e t, ¬ LaunchStep inet_addr users s e t) :
    ∃ d ∈ s.lost, d.dest = socketAddr inet_addr users none := by
  have hsent : ∀ k, ((s.peer k).registered (registrationOf inet_addr users k)).card = 1 := by
    intro k
    cases hk : s.peer k with
    | entering =>
      obtain ⟨dest, hd⟩ : ∃ dest, (users.get k).register inet_addr =
          some ⟨dest, (users.get k).registrationText⟩ := (h _ (List.get_mem users k)).register
      exact absurd (.register hk hd) (hrest _ _)
    | waiting | serving _ => rfl
  have hreceived : s.received.length ≠ users.length := by
    intro hall
    obtain ⟨B⟩ := exists_bootstrapRun hne h (hs.perm hall).2.2
    exact hrest _ _ (.sort B hs.replying hall)
  have hcard := congrArg Multiset.card hs.conserved
  have hlen : (addressed inet_addr users none s.received).card = s.received.length := by
    rw [addressed, Multiset.coe_card, List.length_map]
  have hn : ∑ _k : Fin users.length, 1 = users.length := by simp
  rw [Multiset.card_add, hlen, Multiset.card_sum, Finset.sum_congr rfl fun k _ => hsent k, hn,
    hlost] at hcard
  have hle := hatt.received_le
  obtain ⟨d, hd⟩ := Multiset.card_pos_iff_exists_mem.mp (show 0 < s.lost.card by omega)
  obtain ⟨k, rfl⟩ := hs.registration (hlost ▸ hd)
  exact ⟨_, hd, rfl⟩

variable {payloads : List Str} {B : BootstrapRun payloads} {rest : List Node}

theorem Answers.dest_serving (h : ∀ e ∈ users, e.Sound) (hs : Answers inet_addr s B rest)
    {k : Fin users.length} {nd : Node} (hk : s.peer k = .serving nd) :
    (replyOf inet_addr nd).dest = socketAddr inet_addr users (some k) := by
  obtain ⟨hnd, hip⟩ := hs.serving k nd hk
  obtain ⟨i, hi⟩ := List.mem_iff_getElem?.mp hnd
  rw [dest_replyOf hi, hip]
  exact (h _ (List.get_mem users k)).addrOf_ip_port

theorem mem_served {nd : Node} : nd ∈ ∑ k, (s.peer k).served ↔ ∃ k, s.peer k = .serving nd := by
  rw [Multiset.mem_sum]
  constructor
  · rintro ⟨k, -, hnd⟩
    refine ⟨k, ?_⟩
    cases hk : s.peer k with
    | entering | waiting =>
      rw [hk] at hnd
      exact absurd hnd (Multiset.notMem_zero nd)
    | serving nd' =>
      rw [hk] at hnd
      rw [Multiset.mem_singleton.mp hnd]
  · rintro ⟨k, hk⟩
    refine ⟨k, Finset.mem_univ k, ?_⟩
    rw [hk]
    exact Multiset.mem_singleton_self nd

/-- If the bootstrap has replied, a peer still waits if its reply was discarded. -/
theorem Answers.at_rest (haddr : Function.Injective (socketAddr inet_addr users))
    (h : ∀ e ∈ users, e.Sound) (hfit : RepliesFit users) (hs : Answers inet_addr s B rest)
    (hlost : s.everything inet_addr = s.lost)
    (hrest : ∀ e t, ¬ LaunchStep inet_addr users s e t) (k : Fin users.length) :
    (∃ nd, s.peer k = .serving nd) ↔
      ∀ d ∈ s.lost, d.dest ≠ socketAddr inet_addr users (some k) := by
  have hdone : rest = [] := by
    cases rest with
    | nil => rfl
    | cons nd rest =>
      have hd := sendReply_eq inet_addr hs.perm hfit (hs.suffix.subset List.mem_cons_self)
      exact absurd (.reply hs.replying hd) (hrest _ _)
  have hconserved := hs.conserved
  rw [hlost, hdone, Multiset.coe_nil, zero_add] at hconserved
  have hdests : (s.lost.map Datagram.dest + (∑ k, (s.peer k).served).map
      fun nd => (replyOf inet_addr nd).dest) =
      ↑(B.peers.map fun nd => (replyOf inet_addr nd).dest) := by
    have hmap := congrArg (Multiset.map Datagram.dest) hconserved
    rw [Multiset.map_add, Multiset.map_map, Multiset.map_map] at hmap
    exact hmap
  have hperm := dests_perm inet_addr (B := B) h hs.perm
  constructor
  · rintro ⟨nd, hk⟩ d hd hdest
    have hnodup : (B.peers.map fun nd => (replyOf inet_addr nd).dest).Nodup :=
      hperm.nodup_iff.mpr ((List.nodup_finRange _).map (haddr.comp (Option.some_injective _)))
    -- the reply that the peer took and the one that was discarded would be two for one address
    rw [← Multiset.coe_nodup, ← hdests] at hnodup
    have hdisjoint := (Multiset.nodup_add.mp hnodup).2.2
    have hserved : (replyOf inet_addr nd).dest ∈ (∑ k, (s.peer k).served).map
        fun nd => (replyOf inet_addr nd).dest :=
      Multiset.mem_map_of_mem (fun nd => (replyOf inet_addr nd).dest) (mem_served.mpr ⟨k, hk⟩)
    rw [hs.dest_serving h hk, ← hdest] at hserved
    exact Multiset.disjoint_left.mp hdisjoint (Multiset.mem_map_of_mem _ hd) hserved
  · intro hkept
    have hmem : socketAddr inet_addr users (some k) ∈
        s.lost.map Datagram.dest + (∑ k, (s.peer k).served).map
          fun nd => (replyOf inet_addr nd).dest := by
      rw [hdests, Multiset.mem_coe, hperm.mem_iff]
      exact List.mem_map_of_mem (List.mem_finRange k)
    -- the reply to the peer was taken, and by nobody else
    obtain hlost | hserved := Multiset.mem_add.mp hmem
    · obtain ⟨d, hd, hdest⟩ := Multiset.mem_map.mp hlost
      exact absurd hdest (hkept d hd)
    · obtain ⟨nd, hnd, hdest⟩ := Multiset.mem_map.mp hserved
      obtain ⟨j, hj⟩ := mem_served.mp hnd
      rw [hs.dest_serving h hj] at hdest
      obtain rfl : j = k := Option.some.inj (haddr hdest)
      exact ⟨nd, hj⟩

/-- When nothing is left to do: a peer serves exactly if no registration was discarded, nor its own reply;
and all serve exactly if every datagram found the call of its party in `recvfrom`, with nothing queued. -/
theorem launch_at_rest (hne : users ≠ []) (hports : Function.Injective (socketPort users))
    (h : ∀ e ∈ users, e.Sound) (hfit : RepliesFit users)
    (hrun : Run (LaunchStep inet_addr users) (Launch.init users.length) past s)
    (hrest : ∀ e t, ¬ LaunchStep inet_addr users s e t) :
    (∀ k, (∃ nd, s.peer k = .serving nd) ↔ ∀ d ∈ s.lost,
      d.dest ≠ socketAddr inet_addr users none ∧ d.dest ≠ socketAddr inet_addr users (some k)) ∧
    ((∀ k, ∃ nd, s.peer k = .serving nd) ↔ Guarded FindsCall past) := by
  have haddr : Function.Injective (socketAddr inet_addr users) := socketAddr_injective hports
  have hinv := run_launchInv haddr h hfit hrun
  obtain ⟨hlost, hheld⟩ := hinv.everything_at_rest h hrest
  have hkept : s.Kept ↔ s.lost = 0 := and_iff_left fun p => by
    rw [hheld p]
    exact Nat.zero_le 1
  rw [← run_findsCall hrun, hkept]
  obtain ⟨hatt, hs | ⟨payloads, B, rest, hs⟩⟩ := hinv
  · obtain ⟨d, hd, hdest⟩ := hs.at_rest hne h hatt hlost hrest
    refine ⟨fun k => iff_of_false (fun hk => ?_) fun hall => (hall d hd).1 hdest,
      iff_of_false (fun hall => ?_) fun hzero => ?_⟩
    · obtain ⟨nd, hk⟩ := hk
      exact hs.notServing k nd hk
    · obtain ⟨nd, hk⟩ := hall ⟨0, List.length_pos_iff.mpr hne⟩
      exact hs.notServing _ nd hk
    · rw [hzero] at hd
      exact Multiset.notMem_zero d hd
  · have hpeer := hs.at_rest haddr h hfit hlost hrest
    refine ⟨fun k => (hpeer k).trans ⟨fun hall d hd => ⟨fun hnone => ?_, hall d hd⟩,
      fun hall d hd => (hall d hd).2⟩, fun hall => ?_, fun hzero k => (hpeer k).mpr ?_⟩
    · obtain ⟨j, hj⟩ := hs.dest h (mem_everything_of_lost hd)
      cases haddr (hj.symm.trans hnone)
    · rw [← hlost]
      exact (hs.all_serving hall).1
    · rw [hzero]
      exact fun d hd => absurd hd (Multiset.notMem_zero d)

end

/-! ## A ring of two -/

theorem socketPort_pair : Function.Injective (socketPort pairUsers) := by decide +kernel

theorem pairUsers_fit : RepliesFit pairUsers := by
  intro payloads hp B i hi
  have hnodes : pairUsers.map Entered.myNode = pairNodes.map some := by decide +kernel
  have hall : B.all_info.Perm pairNodes := by
    have hperm := B.all_info_perm pairUsers_sound hp
    rw [hnodes] at hperm
    exact (List.map_perm_map_iff (Option.some_injective _)).mp hperm
  have hlen : ∀ all_info ∈ pairNodes.permutations', ∀ i < all_info.length,
      replyLength all_info i ≤ recvLen + 1 := by decide +kernel
  exact hlen _ (List.mem_permutations'.mpr hall) i hi

/-- The user to whom the bootstrap replies first, and the other. -/
def pairReplied : Fin pairUsers.length := ⟨1, by decide⟩

def pairLate : Fin pairUsers.length := ⟨0, by decide⟩

def pairRegistration (text : Str) : Datagram := ⟨socketAddr dottedQuad pairUsers none, text⟩

/-- One peer serves, and the other waits for a reply that was discarded. -/
structure LeftWaiting (s : Launch pairUsers.length) : Prop where
  serving : ∃ nd, s.peer pairReplied = .serving nd
  waiting : s.peer pairLate = .waiting
  lost : replyOf dottedQuad (pairRun.peers.tail.headD {}) ∈ s.lost
  flying : s.flying = 0
  replying : s.replying = some []
  bootstrap : s.call none = .idle
  replied : s.call (some pairReplied) = .idle
  late : s.call (some pairLate) = .bound []

/-- Both registrations find the bootstrap in its calls. The reply that is sent last comes before its peer
has bound the port, and is discarded. -/
theorem run_pair : ∃ (past : List (Launch pairUsers.length × LaunchEvent pairUsers.length))
    (s : Launch pairUsers.length),
    Run (LaunchStep dottedQuad pairUsers) (Launch.init pairUsers.length) past s ∧ past.length = 19 ∧
      LeftWaiting s := by
  obtain ⟨my_node, hmy, -⟩ := (pairUsers_sound _ (List.get_mem pairUsers pairReplied)).myNode
  have hlate : (pairUsers.get pairLate).register dottedQuad =
      some (pairRegistration (bytes "10.0.0.1 8001 1 a ")) := by decide +kernel
  have hfirst : (pairUsers.get pairReplied).register dottedQuad =
      some (pairRegistration (bytes "10.0.0.2 8002 1 b ")) := by decide +kernel
  have hpeers : pairRun.peers = [pairRun.peers.headD {}, pairRun.peers.tail.headD {}] := by
    decide +kernel
  have hreply : sendReply dottedQuad (pairRun.peers.headD {}) =
      some (replyOf dottedQuad (pairRun.peers.headD {})) := by decide +kernel
  have hreply' : sendReply dottedQuad (pairRun.peers.tail.headD {}) =
      some (replyOf dottedQuad (pairRun.peers.tail.headD {})) := by decide +kernel
  have hdest : socketAddr dottedQuad pairUsers (some pairReplied) =
      (replyOf dottedQuad (pairRun.peers.headD {})).dest := by decide +kernel
  have hdest' : socketAddr dottedQuad pairUsers (some pairLate) =
      (replyOf dottedQuad (pairRun.peers.tail.headD {})).dest := by decide +kernel
  have h1 := Run.start.next (LaunchStep.bind (s := Launch.init pairUsers.length) (p := none)
    ⟨rfl, Nat.zero_lt_two⟩ rfl : LaunchStep dottedQuad pairUsers _ _ _)
  have h2 := h1.next (.register rfl hlate)
  have h3 := h2.next (.arrive (p := none) (Launch.mem_send _ _) rfl)
  have h4 := h3.next (.recvfrom (p := none) rfl)
  have h5 := h4.next (.collect rfl)
  have h6 := h5.next (.bind (p := none) ⟨rfl, Nat.one_lt_two⟩ rfl)
  have h7 := h6.next (.register rfl hfirst)
  have h8 := h7.next (.arrive (p := none) (Launch.mem_send _ _) rfl)
  have h9 := h8.next (.recvfrom (p := none) rfl)
  have h10 := h9.next (.collect rfl)
  have h11 := h10.next (.sort pairRun rfl rfl)
  have h12 := h11.next (.bind (p := some pairReplied) rfl rfl)
  have h13 := h12.next (.reply (congrArg some hpeers) hreply)
  have h14 := h13.next (.arrive (p := some pairReplied) (Launch.mem_send _ _) hdest)
  have h15 := h14.next (.recvfrom (p := some pairReplied) rfl)
  have h16 := h15.next (.start rfl hmy)
  have h17 := h16.next (.reply rfl hreply')
  have h18 := h17.next (.arrive (p := some pairLate) (Launch.mem_send _ _) hdest')
  have h19 := h18.next (.bind (p := some pairLate) rfl rfl)
  refine ⟨_, _, h19, rfl, ⟨_, rfl⟩, rfl, ?_, ?_, rfl, rfl, rfl, rfl⟩
  · exact Multiset.mem_add.mpr (Or.inr (Multiset.mem_singleton_self _))
  · rfl

theorem pair_parties (p : Option (Fin pairUsers.length)) :
    p = none ∨ p = some pairReplied ∨ p = some pairLate := by
  revert p
  decide +kernel

/-- After that nothing is left to do: the late peer is in `recvfrom`, and nothing is sent again. -/
theorem LeftWaiting.rests {s : Launch pairUsers.length} (hs : LeftWaiting s)
    (e : LaunchEvent pairUsers.length) (t : Launch pairUsers.length) :
    ¬ LaunchStep dottedQuad pairUsers s e t := by
  obtain ⟨nd, hserving⟩ := hs.serving
  have hentering : ∀ k, s.peer k ≠ .entering := by
    intro k hk
    obtain hnone | heq | heq := pair_parties (some k)
    · cases hnone
    · rw [Option.some.inj heq, hserving] at hk
      cases hk
    · rw [Option.some.inj heq, hs.waiting] at hk
      cases hk
  have hheld : ∀ p, (s.call p).held = [] := by
    intro p
    obtain rfl | rfl | rfl := pair_parties p
    · rw [hs.bootstrap]
      rfl
    · rw [hs.replied]
      rfl
    · rw [hs.late]
      rfl
  intro hstep
  cases hstep with
  | register hk _ => exact hentering _ hk
  | arrive hd _ =>
    rw [hs.flying] at hd
    exact Multiset.notMem_zero _ hd
  | @bind p hcalls hidle =>
    obtain rfl | rfl | rfl := pair_parties p
    · have hreplying : s.replying = none := hcalls.1
      rw [hs.replying] at hreplying
      cases hreplying
    · have hpeer : s.peer pairReplied = .waiting := hcalls
      rw [hserving] at hpeer
      cases hpeer
    · rw [hs.late] at hidle
      cases hidle
  | @recvfrom p mesg queue hbound =>
    have hp := hheld p
    rw [hbound] at hp
    cases hp
  | collect hread =>
    have hp := hheld none
    rw [hread] at hp
    cases hp
  | @start k mesg queue my_node hread _ =>
    have hp := hheld (some k)
    rw [hread] at hp
    cases hp
  | sort B hreplying _ =>
    rw [hs.replying] at hreplying
    cases hreplying
  | reply hreplying _ =>
    rw [hs.replying] at hreplying
    cases hreplying

theorem LeftWaiting.lost_ne_zero {s : Launch pairUsers.length} (hs : LeftWaiting s) : s.lost ≠ 0 := by
  intro hzero
  have hlost := hs.lost
  rw [hzero] at hlost
  exact Multiset.notMem_zero _ hlost

theorem launch_sound_pair : ∃ s : Launch pairUsers.length, (∃ nd, s.peer pairReplied = .serving nd) ∧
    s.lost ≠ 0 ∧
    ((s.received.length < pairUsers.length ∧ ∀ k nd, s.peer k ≠ .serving nd) ∨
      (∀ d ∈ s.lost, d.dest ≠ socketAddr dottedQuad pairUsers none) ∧
      ∃ B : BootstrapRun s.received, (B.all_info.map some).Perm (pairUsers.map Entered.myNode) ∧
        ∀ k nd, s.peer k = .serving nd → nd ∈ B.peers ∧
          nd.ip_port = (pairUsers.get k).ip_port) := by
  obtain ⟨past, s, hrun, -, hs⟩ := run_pair
  exact ⟨s, hs.serving, hs.lost_ne_zero, launch_sound (List.cons_ne_nil _ _) socketPort_pair
    pairUsers_sound pairUsers_fit hrun⟩

theorem launch_steps_pair : ∃ (past : List (Launch pairUsers.length × LaunchEvent pairUsers.length))
    (s : Launch pairUsers.length), past.length = 19 ∧ s.lost ≠ 0 ∧
      past.length ≤ 10 * pairUsers.length + 1 ∧
      (past.length = 10 * pairUsers.length + 1 ↔ ∀ k, ∃ nd, s.peer k = .serving nd) := by
  obtain ⟨past, s, hrun, hlen, hs⟩ := run_pair
  exact ⟨past, s, hlen, hs.lost_ne_zero, launch_steps (List.cons_ne_nil _ _) socketPort_pair
    pairUsers_sound pairUsers_fit hrun⟩

theorem launch_at_rest_pair :
    ∃ (past : List (Launch pairUsers.length × LaunchEvent pairUsers.length))
      (s : Launch pairUsers.length), (∃ nd, s.peer pairReplied = .serving nd) ∧
      s.peer pairLate = .waiting ∧
      (∀ k, (∃ nd, s.peer k = .serving nd) ↔ ∀ d ∈ s.lost,
        d.dest ≠ socketAddr dottedQuad pairUsers none ∧
          d.dest ≠ socketAddr dottedQuad pairUsers (some k)) ∧
      ((∀ k, ∃ nd, s.peer k = .serving nd) ↔ Guarded FindsCall past) := by
  obtain ⟨past, s, hrun, -, hs⟩ := run_pair
  exact ⟨past, s, hs.serving, hs.waiting, launch_at_rest (List.cons_ne_nil _ _) socketPort_pair
    pairUsers_sound pairUsers_fit hrun hs.rests⟩

end ComputerNetworks.PeerRing
