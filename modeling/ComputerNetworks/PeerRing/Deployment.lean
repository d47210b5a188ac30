import ComputerNetworks.PeerRing.Registration
import ComputerNetworks.PeerRing.Startup

/-! # From what the users enter to a ring that serves

The users of the peers enter addresses and file names, every peer registers, the bootstrap collects the
registrations in whatever order they come, and each peer takes the reply to it for its start-up message.
`deployment_starts` follows the texts through the four functions that print and read them: the peers
serve as the nodes of the bootstrap's ring, which are the nodes that the peers made of themselves.
-/
namespace ComputerNetworks.PeerRing
set_option autoImplicit false

/-! ## Registering -/

/-- What the program needs of the words that a user enters: the address is taken apart at the first colon,
and the registration passes through a buffer and a `recvfrom`. -/
structure Entered.Sound (e : Entered) : Prop where
  nul_notMem : (0 : Byte) ∉ e.registrationText
  colon_notMem : colon ∉ e.ip
  length_le : e.registrationText.length ≤ recvLen

/-- The registration as a peer sends it. -/
def Entered.register (inet_addr : Str → UInt32) (e : Entered) : Option Datagram :=
  sendreq inet_addr (bytes "127.0.0.1") 9090 e.registrationText

/-- The replies of the bootstrap, read by the peers that the nodes in `all_info` are. -/
def startAll (all_info : List Node) (replies : List Datagram) : List Node :=
  List.zipWith (fun my_node d => parseStartup my_node (recvinfo d.payload)) all_info replies

section
variable {inet_addr : Str → UInt32}

theorem Entered.Sound.register {e : Entered} (h : e.Sound) :
    ∃ dest, e.register inet_addr = some ⟨dest, e.registrationText⟩ :=
  ⟨_, sendreq_of_lt inet_addr _ _ h.nul_notMem (h.length_le.trans_lt (by decide))⟩

theorem Entered.mem_registrationText (e : Entered) {b : Byte} (hb : b ∈ e.ip_port) (hcolon : b ≠ colon) :
    b ∈ e.registrationText := by
  rw [Entered.ip_port, List.mem_append, List.mem_cons] at hb
  rw [e.registrationText_eq, List.mem_append, List.mem_cons, List.mem_append]
  tauto

theorem Entered.Sound.myNode {e : Entered} (h : e.Sound) :
    ∃ my_node, e.myNode = some my_node ∧ my_node.ip_port = e.ip_port := by
  have h0 : (0 : Byte) ∉ e.ip_port := fun hmem =>
    h.nul_notMem (e.mem_registrationText hmem (by decide))
  have hlen : e.ip_port.length < LEN := by
    have htext := h.length_le
    rw [e.registrationText_eq] at htext
    simp only [List.length_append, List.length_cons] at htext
    rw [Entered.ip_port, List.length_append, List.length_cons]
    exact (show _ ≤ recvLen by omega).trans_lt (by decide)
  rw [Entered.myNode, Node.setIpPort_default h0 hlen]
  exact ⟨_, rfl, rfl⟩

/-- The address behind which the others look for the peer is the one where it waits: `my_port` is read off
the port as entered. -/
theorem Entered.Sound.addrOf_ip_port {e : Entered} (h : e.Sound) :
    addrOf inet_addr e.ip_port = sockAddr inet_addr e.ip (atoi e.port) := by
  have h0 : (0 : Byte) ∉ e.port := by
    have htext := h.nul_notMem
    rw [e.registrationText_eq, List.mem_append, List.mem_cons, List.mem_append] at htext
    tauto
  rw [addrOf, splitAddr, istringstream, Entered.ip_port, getline_append h.colon_notMem]
  obtain ⟨hport, -⟩ | ⟨w, r, hw, hport, -⟩ := splitOn_cases colon e.port
  · simp only [getline_notMem hport]
  · rw [hport] at h0 ⊢
    simp only [getline_append hw]
    rw [atoi_append_cons (by decide) h0]

/-- The bootstrap makes the same node of a registration as the peer made of the words. -/
theorem Entered.Sound.readRegistration {e : Entered} (h : e.Sound) :
    readRegistration (recvinfo e.registrationText) = e.myNode := by
  rw [recvinfo_of_le h.nul_notMem h.length_le]
  exact readRegistration_eq e.registrationFields_registrationText

theorem registrations_of_perm {users : List Entered} (h : ∀ e ∈ users, e.Sound) {payloads : List Str}
    (hp : payloads.Perm (users.map Entered.registrationText)) :
    ∃ nodes, registrations payloads = some nodes ∧ (nodes.map some).Perm (users.map Entered.myNode) := by
  have hread := hp.map fun payload => readRegistration (recvinfo payload)
  have hmap : (users.map Entered.registrationText).map
      (fun payload => readRegistration (recvinfo payload)) = users.map Entered.myNode := by
    rw [List.map_map]
    exact List.map_congr_left fun e he => (h e he).readRegistration
  rw [hmap] at hread
  have hsome : ∀ r ∈ payloads.map (fun payload => readRegistration (recvinfo payload)), r.isSome := by
    intro r hr
    obtain ⟨e, he, rfl⟩ := List.mem_map.mp (hread.mem_iff.mp hr)
    obtain ⟨my_node, hmy, -⟩ := (h e he).myNode
    rw [hmy]
    rfl
  obtain ⟨nodes, hnodes⟩ := exists_eq_map_some hsome
  exact ⟨nodes, registrations_eq_some.mpr hnodes, hnodes ▸ hread⟩

/-- Whatever the order in which the registrations come, the bootstrap's nodes are the nodes that the peers
made of themselves. -/
theorem BootstrapRun.all_info_perm {payloads : List Str} (B : BootstrapRun payloads) {users : List Entered}
    (h : ∀ e ∈ users, e.Sound) (hp : payloads.Perm (users.map Entered.registrationText)) :
    (B.all_info.map some).Perm (users.map Entered.myNode) := by
  obtain ⟨nodes, hreg, hnodes⟩ := registrations_of_perm h hp
  obtain rfl : nodes = B.nodes := Option.some.inj (hreg.symm.trans B.registered)
  exact (B.stdSort.perm.map some).trans hnodes

theorem exists_bootstrapRun {payloads : List Str} {users : List Entered} (hne : users ≠ [])
    (h : ∀ e ∈ users, e.Sound) (hp : payloads.Perm (users.map Entered.registrationText)) :
    Nonempty (BootstrapRun payloads) := by
  obtain ⟨nodes, hreg, -⟩ := registrations_of_perm h hp
  obtain ⟨all_info, hsort⟩ := exists_stdSort nodes
  have hne' : payloads ≠ [] := by
    rintro rfl
    exact hne (List.map_eq_nil_iff.mp (List.nil_perm.mp hp))
  exact ⟨⟨hne', nodes, hreg, all_info, hsort⟩⟩

/-! ## Starting -/

variable {payloads : List Str} {B : BootstrapRun payloads}

theorem addrOf_registered {nd : Node} (h : nd.Registered) :
    sockAddr inet_addr nd.ip (atoi nd.port) = addrOf inet_addr nd.ip_port := by
  rw [h.ip_eq, h.port_eq]
  rfl

/-- A reply that is read whole but for its last separator makes the peer the node of the ring. -/
theorem started_eq {i : ℕ} {nd my_node : Node} {d : Datagram} (hnd : B.peers[i]? = some nd)
    (hmy : B.all_info[i]? = some my_node) (hd : sendReply inet_addr nd = some d)
    (hlen : replyLength B.all_info i ≤ recvLen + 1) :
    parseStartup my_node (recvinfo d.payload) = nd ∧ d.dest = addrOf inet_addr my_node.ip_port := by
  have hreg := B.all_info_registered my_node (List.mem_of_getElem? hmy)
  have hpeer := B.getElem?_peers i
  rw [hmy, hnd, Option.map_some, Option.some.injEq] at hpeer
  constructor
  · rw [parseStartup_reply hnd hd (Or.inl hlen) hreg, hpeer]
    rfl
  · obtain ⟨-, rfl⟩ := sendreq_eq_some inet_addr hd
    rw [← addrOf_registered hreg, hpeer]

theorem sendReply_isSome {i : ℕ} {nd : Node} (hnd : B.peers[i]? = some nd)
    (hlen : replyLength B.all_info i ≤ recvLen + 1) : ∃ d, sendReply inet_addr nd = some d := by
  rw [← length_replyText_peer hnd] at hlen
  exact ⟨_, sendreq_of_lt inet_addr _ _ (nul_notMem_replyText hnd) (hlen.trans_lt (by decide))⟩

theorem startAll_eq (hlen : ∀ i < B.all_info.length, replyLength B.all_info i ≤ recvLen + 1) :
    ∃ replies : List Datagram, B.peers.map (sendReply inet_addr) = replies.map some ∧
      replies.map Datagram.dest = B.all_info.map (fun nd => addrOf inet_addr nd.ip_port) ∧
      startAll B.all_info replies = B.peers := by
  have hsome : ∀ r ∈ B.peers.map (sendReply inet_addr), r.isSome := by
    intro r hr
    obtain ⟨nd, hnd, rfl⟩ := List.mem_map.mp hr
    obtain ⟨i, hi⟩ := List.mem_iff_getElem?.mp hnd
    obtain ⟨d, hd⟩ : ∃ d, sendReply inet_addr nd = some d :=
      sendReply_isSome hi (hlen i (BootstrapRun.peer_lt hi))
    rw [hd]
    rfl
  obtain ⟨replies, hreplies⟩ := exists_eq_map_some hsome
  have hlength : replies.length = B.all_info.length := by
    rw [← B.length_peers, ← List.length_map (f := some), ← hreplies, List.length_map]
  have hat : ∀ i : ℕ, (replies[i]? = none ∧ B.all_info[i]? = none ∧ B.peers[i]? = none) ∨
      ∃ (d : Datagram) (my_node nd : Node),
        replies[i]? = some d ∧ B.all_info[i]? = some my_node ∧ B.peers[i]? = some nd ∧
        parseStartup my_node (recvinfo d.payload) = nd ∧ d.dest = addrOf inet_addr my_node.ip_port := by
    intro i
    rcases Nat.lt_or_ge i B.all_info.length with hi | hi
    · obtain ⟨nd, hnd⟩ := BootstrapRun.exists_peer hi
      obtain ⟨d, hd⟩ : ∃ d, sendReply inet_addr nd = some d := sendReply_isSome hnd (hlen i hi)
      have hmy := List.getElem?_eq_getElem hi
      have hreply := congrArg (fun l => l[i]?) hreplies
      simp only [List.getElem?_map, hnd, Option.map_some, hd] at hreply
      obtain ⟨d', hd', hsome'⟩ := Option.map_eq_some_iff.mp hreply.symm
      obtain rfl := Option.some.inj hsome'
      exact Or.inr ⟨d', _, nd, hd', hmy, hnd, started_eq hnd hmy hd (hlen i hi)⟩
    · exact Or.inl ⟨List.getElem?_eq_none (hlength ▸ hi), List.getElem?_eq_none hi,
        List.getElem?_eq_none (B.length_peers.symm ▸ hi)⟩
  refine ⟨replies, hreplies, List.ext_getElem? fun i => ?_, List.ext_getElem? fun i => ?_⟩
  · rw [List.getElem?_map, List.getElem?_map]
    obtain ⟨hd, hmy, -⟩ | ⟨d, my_node, nd, hd, hmy, -, -, hdest⟩ := hat i
    · rw [hd, hmy]
      rfl
    · rw [hd, hmy, Option.map_some, Option.map_some, hdest]
  · rw [startAll, List.getElem?_zipWith]
    obtain ⟨hd, hmy, hnd⟩ | ⟨d, my_node, nd, hd, hmy, hnd, hstart, -⟩ := hat i
    · rw [hd, hmy, hnd]
    · rw [hd, hmy, hnd]
      exact congrArg some hstart

/-- Whatever the users enter and in whatever order the registrations come: each peer waits at the
address of its node, the bootstrap's nodes are the nodes of the peers, and if no reply is longer than
what is read but for its last separator, every reply goes to its peer, and the peers that have read
them are the bootstrap's ring. -/
theorem deployment_starts (inet_addr : Str → UInt32) {users : List Entered} (hne : users ≠ [])
    (h : ∀ e ∈ users, e.Sound) :
    (∀ e ∈ users, ∃ my_node, e.myNode = some my_node ∧
      addrOf inet_addr my_node.ip_port = sockAddr inet_addr e.ip (atoi e.port)) ∧
    ∃ sent : List Datagram, users.map (Entered.register inet_addr) = sent.map some ∧
      ∀ payloads : List Str, payloads.Perm (sent.map Datagram.payload) →
        Nonempty (BootstrapRun payloads) ∧ ∀ B : BootstrapRun payloads,
          (B.all_info.map some).Perm (users.map Entered.myNode) ∧
          ((∀ i < B.all_info.length, replyLength B.all_info i ≤ recvLen + 1) →
            ∃ replies : List Datagram, B.peers.map (sendReply inet_addr) = replies.map some ∧
              replies.map Datagram.dest = B.all_info.map (fun nd => addrOf inet_addr nd.ip_port) ∧
              startAll B.all_info replies = B.peers) := by
  have hsome : ∀ r ∈ users.map (Entered.register inet_addr), r.isSome := by
    intro r hr
    obtain ⟨e, he, rfl⟩ := List.mem_map.mp hr
    obtain ⟨dest, hdest⟩ : ∃ dest, e.register inet_addr = some ⟨dest, e.registrationText⟩ :=
      (h e he).register
    rw [hdest]
    rfl
  obtain ⟨sent, hsent⟩ := exists_eq_map_some hsome
  have htexts : sent.map Datagram.payload = users.map Entered.registrationText := by
    have hpayloads := congrArg (List.map (Option.map Datagram.payload)) hsent
    rw [List.map_map, List.map_map] at hpayloads
    apply (List.map_injective_iff.mpr (Option.some_injective Str))
    rw [List.map_map, List.map_map]
    refine hpayloads.symm.trans (List.map_congr_left fun e he => ?_)
    obtain ⟨dest, hdest⟩ : ∃ dest, e.register inet_addr = some ⟨dest, e.registrationText⟩ :=
      (h e he).register
    rw [Function.comp_apply, hdest]
    rfl
  have haddr : ∀ e ∈ users, ∃ my_node, e.myNode = some my_node ∧
      addrOf inet_addr my_node.ip_port = sockAddr inet_addr e.ip (atoi e.port) := by
    intro e he
    obtain ⟨my_node, hmy, hip⟩ := (h e he).myNode
    exact ⟨my_node, hmy, hip ▸ (h e he).addrOf_ip_port⟩
  refine ⟨haddr, sent, hsent, fun payloads hp => ?_⟩
  rw [htexts] at hp
  exact ⟨exists_bootstrapRun hne h hp, fun B => ⟨B.all_info_perm h hp, startAll_eq⟩⟩

end

/-! ## Two users -/

def pairUsers : List Entered :=
  [{ pairEntered with files := [bytes "a"], file_word := by decide +kernel, nf_lt := by decide },
   { ip := bytes "10.0.0.2", port := bytes "8002", files := [bytes "b"]
     ip_no_space := by decide +kernel, port_no_space := by decide +kernel
     file_word := by decide +kernel, nf_lt := by decide }]

theorem pairUsers_sound : ∀ e ∈ pairUsers, e.Sound := by
  intro e he
  have hall : ∀ e ∈ pairUsers, (0 : Byte) ∉ e.registrationText ∧ colon ∉ e.ip ∧
      e.registrationText.length ≤ recvLen := by decide +kernel
  obtain ⟨h0, hcolon, hlen⟩ := hall e he
  exact ⟨h0, hcolon, hlen⟩

theorem deployment_starts_pair :
    (∀ e ∈ pairUsers, ∃ my_node, e.myNode = some my_node ∧
      addrOf dottedQuad my_node.ip_port = sockAddr dottedQuad e.ip (atoi e.port)) ∧
    ∃ sent : List Datagram, pairUsers.map (Entered.register dottedQuad) = sent.map some ∧
      ∀ payloads : List Str, payloads.Perm (sent.map Datagram.payload) →
        Nonempty (BootstrapRun payloads) ∧ ∀ B : BootstrapRun payloads,
          (B.all_info.map some).Perm (pairUsers.map Entered.myNode) ∧
          ((∀ i < B.all_info.length, replyLength B.all_info i ≤ recvLen + 1) →
            ∃ replies : List Datagram, B.peers.map (sendReply dottedQuad) = replies.map some ∧
              replies.map Datagram.dest = B.all_info.map (fun nd => addrOf dottedQuad nd.ip_port) ∧
              startAll B.all_info replies = B.peers) :=
  deployment_starts dottedQuad (List.cons_ne_nil _ _) pairUsers_sound

end ComputerNetworks.PeerRing
