import ComputerNetworks.Library.TokenRing
import ComputerNetworks.PeerRing.Placement
import ComputerNetworks.PeerRing.Peer

/-! # Concurrent searches on the ring

Any number of searches run at once on the ring the bootstrap built. The network is the list of
datagrams in flight; a step is one user issuing a search or one peer running `search_func` on one
search datagram addressed to it, whichever it is. Every datagram carries two ghost fields, the
search it belongs to and how often it has been forwarded.

The abstract view is a set of tokens walking the ring (`TokenRing`): `netStep_simulates` shows that
each step of the network is one move of one token, `Represents` being the relation between the two.
`search_conserved` reads the outcome back from the tokens.
-/
namespace ComputerNetworks.PeerRing
open ConsistentHash Runs TokenRing
set_option autoImplicit false

/-! ## The network -/

/-- A search datagram in flight, with the search it belongs to and how often it was forwarded. -/
structure Packet where
  search : ℕ
  forwards : ℕ
  datagram : Datagram
  deriving DecidableEq

structure NetState where
  issued : List (ℕ × Str)
  pending : List Packet
  replies : List (ℕ × Datagram)
  deriving DecidableEq

def Sent.packets (search forwards : ℕ) : Sent → List Packet
  | .forward d => [⟨search, forwards + 1, d⟩]
  | .reply _ => []

def Sent.answers (search : ℕ) : Sent → List (ℕ × Datagram)
  | .forward _ => []
  | .reply d => [(search, d)]

def NetState.emit (s : NetState) (search forwards : ℕ) (out : Sent) : NetState :=
  { s with
    pending := s.pending ++ out.packets search forwards
    replies := s.replies ++ out.answers search }

inductive NetEvent where
  | issue (peer : ℕ) (file : Str)
  | handle (search peer : ℕ)

def searchLine (f : Str) : Str := bytes "search " ++ f

section
variable (inet_addr : Str → UInt32)

/-- One step on the ring `peers`: a search for a registered file, or `search_func` at the peer a
search datagram is addressed to. Datagrams are taken in any order. -/
inductive NetStep (peers : List Node) : NetState → NetEvent → NetState → Prop
  | issue {s : NetState} {i : ℕ} {f : Str} {nd : Node} {out : Sent} :
      peers[i]? = some nd → IsRegistered peers f →
      userCommand inet_addr nd (searchLine f) = some [out] →
      NetStep peers s (.issue i f)
        ({ s with issued := s.issued ++ [(i, f)] }.emit s.issued.length 0 out)
  | handle {s : NetState} {l r : List Packet} {pk : Packet} {j : ℕ} {nd : Node} {out : Sent} :
      s.pending = l ++ pk :: r → peers[j]? = some nd →
      addrOf inet_addr nd.ip_port = pk.datagram.dest →
      searchFunc inet_addr pk.datagram.payload nd = some out →
      NetStep peers s (.handle pk.search j)
        ({ s with pending := l ++ r }.emit pk.search pk.forwards out)

theorem userCommand_searchLine (nd : Node) (f : Str) :
    userCommand inet_addr nd (searchLine f) =
      (searchFunc inet_addr (requestText f nd.ip_port) nd).map fun out => [out] := by
  have h6 : (searchLine f).take 6 = bytes "search" := by
    have hsix : (bytes "search").length = 6 := by decide
    rw [searchLine, bytes_search_space, List.append_assoc, List.take_append, hsix]
    simp [hsix]
  rw [userCommand, if_pos h6]
  rfl

end

/-! ## One visit -/

section
variable {payloads : List Str} (B : BootstrapRun payloads) (inet_addr : Str → UInt32)

def Takes (t : ℕ × Str) (q : ℕ) : Prop :=
  ∃ nd owner, B.peers[q]? = some nd ∧ nd.myFileInfo.find? t.2 = some owner

theorem exists_takes {t : ℕ × Str} (h : IsRegistered B.all_info t.2) :
    ∃ q < B.all_info.length, Takes B t q := by
  have hlt := B.home_lt (oatHash t.2)
  rw [B.length_peers] at hlt
  obtain ⟨nd, hnd⟩ := BootstrapRun.exists_peer hlt
  obtain ⟨owner, howner⟩ := Option.ne_none_iff_exists'.mp (directory_find?_ne_none.mpr h)
  exact ⟨_, hlt, nd, owner, hnd, by rw [B.find?_peer hnd, if_pos rfl, howner]⟩

def tokenPackets (k : ℕ) : (ℕ × Str) × Token → List Packet
  | ((i, f), .walking d) =>
      [⟨k, d, ⟨addrOf inet_addr (B.addr ((i + d) % B.all_info.length)), requestText f (B.addr i)⟩⟩]
  | (_, .settled _) => []

def tokenReplies (k : ℕ) : (ℕ × Str) × Token → List (ℕ × Datagram)
  | (_, .walking _) => []
  | ((i, f), .settled _) =>
      [(k, ⟨addrOf inet_addr (B.addr i),
        ownerText f (((directory B.all_info).find? f).getD [])⟩)]

variable {B}

theorem requestText_fits {i : ℕ} (hi : i < B.all_info.length) {f : Str}
    (hf : IsRegistered B.all_info f) :
    (0 : Byte) ∉ requestText f (B.addr i) ∧ (requestText f (B.addr i)).length < LEN := by
  obtain ⟨hf0, -, hflen⟩ := BootstrapRun.registered_file hf
  obtain ⟨nd, -, hnd, haddr⟩ := BootstrapRun.addr_registered hi
  have hlen := hnd.length_le
  rw [haddr, length_requestText]
  simp only [recvLen] at hflen hlen
  refine ⟨nul_notMem_requestText hf0 hnd.nul_notMem, ?_⟩
  unfold LEN
  omega

theorem ownerText_fits {f owner : Str} (h : (directory B.all_info).find? f = some owner) :
    (0 : Byte) ∉ ownerText f owner ∧ (ownerText f owner).length < LEN := by
  obtain ⟨nd, -, hnd, hfile, rfl⟩ := BootstrapRun.owner_registered h
  obtain ⟨hf0, -, hflen⟩ := hnd.file f hfile
  exact ownerText_lt hf0 hflen hnd.nul_notMem hnd.length_le

/-- `search_func` on the request of a search, at any peer: it answers if the peer has the file and
forwards the request to the next position if not. It never overruns its send buffer. -/
theorem searchFunc_visit {i d : ℕ} {f : Str} {nd : Node} (hi : i < B.all_info.length)
    (hf : IsRegistered B.all_info f)
    (hnd : B.peers[(i + d) % B.all_info.length]? = some nd) :
    ∃ out o, searchFunc inet_addr (requestText f (B.addr i)) nd = some out ∧
      Visit B.all_info.length Prod.fst (Takes B) (i, f) d o ∧
      ∀ k, out.packets k d = tokenPackets B inet_addr k ((i, f), o) ∧
        out.answers k = tokenReplies B inet_addr k ((i, f), o) := by
  obtain ⟨hr0, hrlen⟩ := requestText_fits hi hf
  obtain ⟨-, hfsp, -⟩ := BootstrapRun.registered_file hf
  obtain ⟨_, -, hreg, haddr⟩ := BootstrapRun.addr_registered hi
  have hasp : space ∉ B.addr i := haddr ▸ hreg.space_notMem
  cases hfind : nd.myFileInfo.find? f with
  | some owner =>
    have hdir := BootstrapRun.find?_peer_eq_some hnd hfind
    obtain ⟨ho0, holen⟩ := ownerText_fits hdir
    refine ⟨.reply ⟨addrOf inet_addr (B.addr i), ownerText f owner⟩,
      .settled ((i + d) % B.all_info.length), ?_, .take ⟨nd, owner, hnd, hfind⟩, fun k => ?_⟩
    · rw [searchFunc_reply hfsp hasp hfind, sendreq_of_lt _ _ _ ho0 holen]
      rfl
    · exact ⟨rfl, by simp [Sent.answers, tokenReplies, hdir]⟩
  | none =>
    have hnot : ¬ Takes B (i, f) ((i + d) % B.all_info.length) := by
      rintro ⟨nd', owner, hnd', hfind'⟩
      obtain rfl : nd = nd' := Option.some.inj (hnd.symm.trans hnd')
      rw [hfind] at hfind'
      cases hfind'
    refine ⟨.forward ⟨addrOf inet_addr (B.addr ((i + (d + 1)) % B.all_info.length)),
      requestText f (B.addr i)⟩, .walking (d + 1), ?_, .pass hnot, fun k => ⟨rfl, rfl⟩⟩
    have hname : nd.myFileInfo.find? (requestName (requestText f (B.addr i))).1 = none := by
      rw [requestName_requestText hfsp]
      exact hfind
    rw [searchFunc_forward hname, sendreq_of_lt _ _ _ hr0 hrlen, BootstrapRun.peer_scr hnd,
      Nat.mod_add_mod, Nat.add_assoc]
    rfl

theorem userCommand_visit {i : ℕ} {f : Str} {nd : Node} (hnd : B.peers[i]? = some nd)
    (hf : IsRegistered B.all_info f) :
    ∃ out o, userCommand inet_addr nd (searchLine f) = some [out] ∧
      Visit B.all_info.length Prod.fst (Takes B) (i, f) 0 o ∧
      ∀ k, out.packets k 0 = tokenPackets B inet_addr k ((i, f), o) ∧
        out.answers k = tokenReplies B inet_addr k ((i, f), o) := by
  have hi := BootstrapRun.peer_lt hnd
  have hnd0 : B.peers[(i + 0) % B.all_info.length]? = some nd := by
    rw [Nat.add_zero, Nat.mod_eq_of_lt hi, hnd]
  obtain ⟨out, o, hout, hvisit, hmatch⟩ := searchFunc_visit inet_addr hi hf hnd0
  refine ⟨out, o, ?_, hvisit, hmatch⟩
  rw [userCommand_searchLine, BootstrapRun.peer_ip_port hnd, hout]
  rfl

end

/-! ## Simulation by tokens -/

section
variable {payloads : List Str} (B : BootstrapRun payloads) (inet_addr : Str → UInt32)

/-- The network shows exactly the datagrams of its tokens. -/
structure Represents (s : NetState) (a : List ((ℕ × Str) × Token)) : Prop where
  issued : s.issued = a.map Prod.fst
  valid : ∀ p ∈ a, p.1.1 < B.all_info.length ∧ IsRegistered B.all_info p.1.2
  pending : ∀ k, (s.pending.filter fun pk => pk.search = k) =
    (a[k]?.map (tokenPackets B inet_addr k)).getD []
  replies : ∀ k, (s.replies.filter fun r => r.1 = k) =
    (a[k]?.map (tokenReplies B inet_addr k)).getD []

variable {B inet_addr}

theorem filter_packets (out : Sent) (k d j : ℕ) :
    ((out.packets k d).filter fun pk => pk.search = j) = if k = j then out.packets k d else [] := by
  cases out <;> simp [Sent.packets, List.filter_singleton]

theorem filter_answers (out : Sent) (k j : ℕ) :
    ((out.answers k).filter fun r => r.1 = j) = if k = j then out.answers k else [] := by
  cases out <;> simp [Sent.answers, List.filter_singleton]

theorem Represents.emit {s : NetState} {a a' : List ((ℕ × Str) × Token)} {k d : ℕ} {out : Sent}
    {p : (ℕ × Str) × Token}
    (hissued : s.issued = a'.map Prod.fst)
    (hvalid : ∀ q ∈ a', q.1.1 < B.all_info.length ∧ IsRegistered B.all_info q.1.2)
    (hk : a'[k]? = some p) (hother : ∀ j, j ≠ k → a'[j]? = a[j]?)
    (hpend : ∀ j, (s.pending.filter fun pk => pk.search = j) =
      if k = j then [] else (a[j]?.map (tokenPackets B inet_addr j)).getD [])
    (hrepl : ∀ j, (s.replies.filter fun r => r.1 = j) =
      if k = j then [] else (a[j]?.map (tokenReplies B inet_addr j)).getD [])
    (hout : out.packets k d = tokenPackets B inet_addr k p ∧
      out.answers k = tokenReplies B inet_addr k p) :
    Represents B inet_addr (s.emit k d out) a' := by
  refine ⟨hissued, hvalid, fun j => ?_, fun j => ?_⟩
  · rw [NetState.emit, List.filter_append, hpend, filter_packets]
    by_cases hj : k = j
    · subst hj
      simp [hk, hout.1]
    · simp [hj, hother j (Ne.symm hj)]
  · rw [NetState.emit, List.filter_append, hrepl, filter_answers]
    by_cases hj : k = j
    · subst hj
      simp [hk, hout.2]
    · simp [hj, hother j (Ne.symm hj)]

def tokenEvent : NetEvent → Event (ℕ × Str)
  | .issue i f => .issue (i, f)
  | .handle k _ => .move k

theorem Represents.pending_split {s : NetState} {a : List ((ℕ × Str) × Token)}
    (h : Represents B inet_addr s a) {l r : List Packet} {pk : Packet}
    (hs : s.pending = l ++ pk :: r) :
    ∃ i f d, a[pk.search]? = some ((i, f), .walking d) ∧
      tokenPackets B inet_addr pk.search ((i, f), .walking d) = [pk] ∧
      ∀ j, ((l ++ r).filter fun q => q.search = j) =
        if pk.search = j then [] else (a[j]?.map (tokenPackets B inet_addr j)).getD [] := by
  have hk := h.pending pk.search
  rw [hs] at hk
  obtain ⟨i, f, d, ha, hone⟩ : ∃ i f d, a[pk.search]? = some ((i, f), .walking d) ∧
      tokenPackets B inet_addr pk.search ((i, f), .walking d) = [pk] ∧
      (l.filter fun q => q.search = pk.search) = [] ∧
      (r.filter fun q => q.search = pk.search) = [] := by
    match ha : a[pk.search]? with
    | none => simp [ha] at hk
    | some ((i, f), .settled q) => simp [ha, tokenPackets] at hk
    | some ((i, f), .walking d) =>
      simp only [ha, Option.map_some, Option.getD_some, List.filter_append, List.filter_cons,
        decide_true, if_true] at hk
      have hlen := congrArg List.length hk
      simp only [tokenPackets, List.length_append, List.length_cons, List.length_nil] at hlen
      have hl : (l.filter fun q => q.search = pk.search) = [] :=
        List.length_eq_zero_iff.mp (by omega)
      have hr : (r.filter fun q => q.search = pk.search) = [] :=
        List.length_eq_zero_iff.mp (by omega)
      exact ⟨i, f, d, rfl, by rw [← hk, hl, hr]; rfl, hl, hr⟩
  refine ⟨i, f, d, ha, hone.1, fun j => ?_⟩
  by_cases hj : pk.search = j
  · subst hj
    simp [hone.2.1, hone.2.2]
  · rw [if_neg hj, ← h.pending j, hs]
    simp [hj]

theorem addr_inj (haddr : (B.peers.map fun nd => addrOf inet_addr nd.ip_port).Nodup) {i j : ℕ}
    (hi : i < B.all_info.length) (hj : j < B.all_info.length)
    (h : addrOf inet_addr (B.addr i) = addrOf inet_addr (B.addr j)) : i = j := by
  obtain ⟨nd, hnd⟩ := BootstrapRun.exists_peer hi
  obtain ⟨nd', hnd'⟩ := BootstrapRun.exists_peer hj
  refine (List.getElem?_inj (by simpa using hi) haddr).mp ?_
  rw [List.getElem?_map, List.getElem?_map, hnd, hnd', Option.map_some, Option.map_some,
    BootstrapRun.peer_ip_port hnd, BootstrapRun.peer_ip_port hnd', h]

theorem Represents.issue {s : NetState} {a : List ((ℕ × Str) × Token)}
    (hR : Represents B inet_addr s a) {i : ℕ} {f : Str} {o : Token} {out : Sent}
    (hi : i < B.all_info.length) (hf : IsRegistered B.all_info f)
    (hout : ∀ k, out.packets k 0 = tokenPackets B inet_addr k ((i, f), o) ∧
      out.answers k = tokenReplies B inet_addr k ((i, f), o)) :
    Represents B inet_addr
      ({ s with issued := s.issued ++ [(i, f)] }.emit s.issued.length 0 out)
      (a ++ [((i, f), o)]) := by
  have hlen : s.issued.length = a.length := by rw [hR.issued, List.length_map]
  have hnew : ∀ j, s.issued.length = j → a[j]? = none := by
    intro j hj
    rw [List.getElem?_eq_none (hlen ▸ hj.le)]
  refine Represents.emit (a := a) (by simp [hR.issued]) ?_ (by rw [hlen]; simp) ?_ ?_ ?_ (hout _)
  · intro q hq
    cases List.mem_append.mp hq with
    | inl hq => exact hR.valid q hq
    | inr hq =>
      rw [List.mem_singleton.mp hq]
      exact ⟨hi, hf⟩
  · intro j hj
    cases Nat.lt_or_gt_of_ne (hlen ▸ hj) with
    | inl hj => rw [List.getElem?_append_left hj]
    | inr hj => rw [List.getElem?_eq_none (by simp; omega), List.getElem?_eq_none hj.le]
  · intro j
    rw [hR.pending]
    split_ifs with hj
    · rw [hnew j hj]
      rfl
    · rfl
  · intro j
    rw [hR.replies]
    split_ifs with hj
    · rw [hnew j hj]
      rfl
    · rfl

theorem Represents.handle {s : NetState} {a : List ((ℕ × Str) × Token)}
    (hR : Represents B inet_addr s a) {l r : List Packet} {k i d : ℕ} {f : Str} {o : Token}
    {out : Sent} (ha : a[k]? = some ((i, f), .walking d))
    (hrest : ∀ j, ((l ++ r).filter fun q => q.search = j) =
      if k = j then [] else (a[j]?.map (tokenPackets B inet_addr j)).getD [])
    (hout : out.packets k d = tokenPackets B inet_addr k ((i, f), o) ∧
      out.answers k = tokenReplies B inet_addr k ((i, f), o)) :
    Represents B inet_addr ({ s with pending := l ++ r }.emit k d out)
      (a.set k ((i, f), o)) := by
  have hvalid := hR.valid _ (List.mem_of_getElem? ha)
  have hlt := (List.getElem?_eq_some_iff.mp ha).1
  refine Represents.emit (a := a) (p := ((i, f), o)) ?_ ?_ ?_ ?_ hrest ?_ hout
  · have hissue : (a.map Prod.fst)[k]? = some (i, f) := by
      rw [List.getElem?_map, ha]
      rfl
    obtain ⟨hlt', heq⟩ := List.getElem?_eq_some_iff.mp hissue
    rw [hR.issued, List.map_set, ← heq, List.set_getElem_self]
  · intro q hq
    obtain hq | rfl := List.mem_or_eq_of_mem_set hq
    · exact hR.valid q hq
    · exact hvalid
  · rw [List.getElem?_set_self hlt]
  · intro q hq
    rw [List.getElem?_set_ne (Ne.symm hq)]
  · intro q
    rw [hR.replies]
    split_ifs with hq
    · -- a walking token has no reply yet
      rw [← hq, ha]
      rfl
    · rfl

theorem netStep_simulates (haddr : (B.peers.map fun nd => addrOf inet_addr nd.ip_port).Nodup)
    {s t : NetState} {e : NetEvent} {a : List ((ℕ × Str) × Token)}
    (hR : Represents B inet_addr s a) (h : NetStep inet_addr B.peers s e t) :
    ∃ b, Step B.all_info.length Prod.fst (Takes B) a (tokenEvent e) b ∧
      Represents B inet_addr t b := by
  cases h with
  | @issue i f nd out hnd hreg hcmd =>
    have hf := BootstrapRun.isRegistered_peers.mp hreg
    obtain ⟨out', o, hout', hvisit, hmatch⟩ := userCommand_visit inet_addr hnd hf
    obtain rfl : out' = out := by simpa [hout'] using hcmd
    exact ⟨_, .issue hvisit, hR.issue (BootstrapRun.peer_lt hnd) hf hmatch⟩
  | @handle l r pk j nd out hs hnd hdest hsearch =>
    obtain ⟨i, f, d, ha, hpk, hrest⟩ := hR.pending_split hs
    obtain ⟨hi, hf⟩ := hR.valid _ (List.mem_of_getElem? ha)
    have hj := BootstrapRun.peer_lt hnd
    have hpk' : pk = ⟨pk.search, d, ⟨addrOf inet_addr (B.addr ((i + d) % B.all_info.length)),
        requestText f (B.addr i)⟩⟩ := by
      simpa [tokenPackets] using hpk.symm
    have hforwards : pk.forwards = d := by rw [hpk']
    have hpayload : pk.datagram.payload = requestText f (B.addr i) := by rw [hpk']
    have hplace : j = (i + d) % B.all_info.length := by
      apply addr_inj haddr hj (Nat.mod_lt _ (Nat.zero_lt_of_lt hj))
      rw [← BootstrapRun.peer_ip_port hnd, hdest, hpk']
    rw [hplace] at hnd
    obtain ⟨out', o, hout', hvisit, hmatch⟩ := searchFunc_visit inet_addr hi hf hnd
    rw [hpayload, hout'] at hsearch
    obtain rfl : out' = out := Option.some.inj hsearch
    rw [hforwards]
    exact ⟨_, .move ha hvisit, hR.handle ha hrest (hmatch _)⟩

end

/-! ## Conservation -/

section
variable (inet_addr : Str → UInt32)

/-- A search datagram on its way: its text is the request as issued, and it is addressed to a peer
where `search_func` handles it. -/
structure Packet.OnItsWay (peers : List Node) (i : ℕ) (f : Str) (pk : Packet) : Prop where
  forwards_le : pk.forwards ≤ peers.length - 1
  request : ∃ nd, peers[i]? = some nd ∧ pk.datagram.payload = requestText f nd.ip_port
  handled : ∃ (j : ℕ) (nd : Node) (out : Sent), peers[j]? = some nd ∧
    addrOf inet_addr nd.ip_port = pk.datagram.dest ∧
      searchFunc inet_addr pk.datagram.payload nd = some out

/-- An answer to the search for `f` issued at position `i`: it goes to the address of the issuer
and names the file and a peer that shares it. -/
def AnswerTo (peers : List Node) (i : ℕ) (f : Str) (d : Datagram) : Prop :=
  ∃ nd, peers[i]? = some nd ∧ d.dest = addrOf inet_addr nd.ip_port ∧
    ∃ owner ∈ peers, f ∈ owner.myFile ∧ d.payload = ownerText f owner.ip_port

/-- Every issued search is one datagram on its way or one answer, and nothing else is there. -/
structure Conserved (peers : List Node) (s : NetState) : Prop where
  issuable : ∀ (i : ℕ) (nd : Node) (f : Str), peers[i]? = some nd → IsRegistered peers f →
    ∃ out, userCommand inet_addr nd (searchLine f) = some [out]
  one : ∀ (k i : ℕ) (f : Str), s.issued[k]? = some (i, f) →
    (∃ pk, (s.pending.filter fun pk => pk.search = k) = [pk] ∧
      (s.replies.filter fun r => r.1 = k) = [] ∧ pk.OnItsWay inet_addr peers i f) ∨
    (∃ d, (s.pending.filter fun pk => pk.search = k) = [] ∧
      (s.replies.filter fun r => r.1 = k) = [(k, d)] ∧ AnswerTo inet_addr peers i f d)
  pending_issued : ∀ pk ∈ s.pending, pk.search < s.issued.length
  replies_issued : ∀ r ∈ s.replies, r.1 < s.issued.length

end

section
variable {payloads : List Str} {B : BootstrapRun payloads} {inet_addr : Str → UInt32}

theorem represents_empty : Represents B inet_addr ⟨[], [], []⟩ [] :=
  ⟨rfl, by simp, by simp, by simp⟩

theorem onItsWay_walking {i d : ℕ} {f : Str} (hi : i < B.all_info.length)
    (hf : IsRegistered B.all_info f) (hd : d < B.all_info.length) (k : ℕ) :
    Packet.OnItsWay inet_addr B.peers i f
      ⟨k, d, ⟨addrOf inet_addr (B.addr ((i + d) % B.all_info.length)),
        requestText f (B.addr i)⟩⟩ := by
  obtain ⟨ndi, hndi⟩ := BootstrapRun.exists_peer hi
  obtain ⟨nd, hnd⟩ := BootstrapRun.exists_peer (B := B)
    (Nat.mod_lt (i + d) (Nat.zero_lt_of_lt hi))
  obtain ⟨out, -, hout, -⟩ := searchFunc_visit inet_addr hi hf hnd
  refine ⟨?_, ⟨ndi, hndi, by rw [BootstrapRun.peer_ip_port hndi]⟩,
    ⟨_, nd, out, hnd, by rw [BootstrapRun.peer_ip_port hnd], hout⟩⟩
  rw [B.length_peers]
  show d ≤ _
  omega

theorem answerTo_settled {i : ℕ} {f : Str} (hi : i < B.all_info.length)
    (hf : IsRegistered B.all_info f) :
    AnswerTo inet_addr B.peers i f
      ⟨addrOf inet_addr (B.addr i), ownerText f (((directory B.all_info).find? f).getD [])⟩ := by
  obtain ⟨ndi, hndi⟩ := BootstrapRun.exists_peer hi
  refine ⟨ndi, hndi, by rw [BootstrapRun.peer_ip_port hndi], ?_⟩
  obtain ⟨owner, howner⟩ := Option.ne_none_iff_exists'.mp (directory_find?_ne_none.mpr hf)
  obtain ⟨nd, hmem, -, hfile, haddr⟩ := BootstrapRun.owner_registered howner
  obtain ⟨q, hq⟩ := List.mem_iff_getElem?.mp hmem
  obtain ⟨ndq, hndq⟩ := BootstrapRun.exists_peer (B := B) (List.getElem?_eq_some_iff.mp hq).1
  have hndq' := hndq
  rw [BootstrapRun.getElem?_peers, hq, Option.map_some] at hndq'
  refine ⟨ndq, List.mem_of_getElem? hndq, ?_, ?_⟩
  · rw [← Option.some.inj hndq']
    exact hfile
  · rw [howner, ← Option.some.inj hndq', ← haddr]
    rfl

theorem Represents.conserved {s : NetState} {a : List ((ℕ × Str) × Token)}
    (hR : Represents B inet_addr s a)
    (hsound : ∀ p ∈ a, Sound B.all_info.length Prod.fst (Takes B) p) :
    Conserved inet_addr B.peers s := by
  have hstray : ∀ k, a.length ≤ k → a[k]? = none := fun k hk => List.getElem?_eq_none hk
  have hlen : s.issued.length = a.length := by rw [hR.issued, List.length_map]
  refine ⟨fun i nd f hnd hf => ?_, ?_, fun pk hpk => ?_, fun r hr => ?_⟩
  · obtain ⟨out, -, hout, -⟩ :=
      userCommand_visit inet_addr hnd (BootstrapRun.isRegistered_peers.mp hf)
    exact ⟨out, hout⟩
  · intro k i f hk
    rw [hR.issued, List.getElem?_map, Option.map_eq_some_iff] at hk
    obtain ⟨⟨t, o⟩, hak, rfl⟩ := hk
    obtain ⟨hi, hf⟩ := hR.valid _ (List.mem_of_getElem? hak)
    rw [hR.pending, hR.replies, hak]
    cases o with
    | walking d =>
      have hd := walking_lt (hsound _ (List.mem_of_getElem? hak)) (exists_takes B hf)
      exact Or.inl ⟨_, rfl, rfl, onItsWay_walking hi hf hd k⟩
    | settled q => exact Or.inr ⟨_, rfl, rfl, answerTo_settled hi hf⟩
  · by_contra hge
    have hmem : pk ∈ s.pending.filter fun q => q.search = pk.search := by simp [hpk]
    rw [hR.pending, hstray _ (by omega)] at hmem
    simp at hmem
  · by_contra hge
    have hmem : r ∈ s.replies.filter fun q => q.1 = r.1 := by simp [hr]
    rw [hR.replies, hstray _ (by omega)] at hmem
    simp at hmem

/-- On every ring a bootstrap run builds from distinct addresses, every run of the network keeps
every search: one datagram that has not come round, or one right answer. The peers are what the placement
loop leaves of the linked nodes. -/
theorem search_conserved (haddr : (B.peers.map fun nd => addrOf inet_addr nd.ip_port).Nodup)
    {past : List (NetState × NetEvent)} {s : NetState}
    (h : Run (NetStep inet_addr B.peers) ⟨[], [], []⟩ past s) :
    placeFiles (link B.all_info) = some B.peers ∧ Conserved inet_addr B.peers s := by
  obtain ⟨_, a, hrun, hR⟩ := h.simulate tokenEvent represents_empty
    fun _ _ _ _ hR hstep => netStep_simulates haddr hR hstep
  exact ⟨B.placeFiles_eq, hR.conserved (run_sound hrun)⟩

end

def pairRequest : Datagram :=
  ⟨addrOf dottedQuad (bytes "10.0.0.2:8002"), requestText (bytes "a") (bytes "10.0.0.1:8001")⟩

def pairAnswer : Datagram :=
  ⟨addrOf dottedQuad (bytes "10.0.0.1:8001"), ownerText (bytes "a") (bytes "10.0.0.1:8001")⟩

theorem search_conserved_pair : placeFiles (link pairRun.all_info) = some pairRun.peers ∧
    Conserved dottedQuad pairRun.peers ⟨[(1, bytes "a")], [], [(0, pairAnswer)]⟩ := by
  have h0 : pairRun.peers[0]? = some (pairRun.peers.headD {}) := by decide +kernel
  have h1 : pairRun.peers[1]? = some (pairRun.peers.tail.headD {}) := by decide +kernel
  have hreg : IsRegistered pairRun.peers (bytes "a") :=
    BootstrapRun.isRegistered_peers.mpr ⟨pairNodes.headD {}, by decide +kernel, by decide +kernel⟩
  have hcmd : userCommand dottedQuad (pairRun.peers.tail.headD {}) (searchLine (bytes "a")) =
      some [.forward pairRequest] := by decide +kernel
  have hsearch : searchFunc dottedQuad pairRequest.payload (pairRun.peers.headD {}) =
      some (.reply pairAnswer) := by decide +kernel
  have hdest : addrOf dottedQuad (pairRun.peers.headD {}).ip_port = pairRequest.dest := by
    decide +kernel
  have hissue : NetStep dottedQuad pairRun.peers ⟨[], [], []⟩ (.issue 1 (bytes "a"))
      ⟨[(1, bytes "a")], [⟨0, 1, pairRequest⟩], []⟩ :=
    NetStep.issue h1 hreg hcmd
  have hhandle : NetStep dottedQuad pairRun.peers
      ⟨[(1, bytes "a")], [⟨0, 1, pairRequest⟩], []⟩ (.handle 0 0)
      ⟨[(1, bytes "a")], [], [(0, pairAnswer)]⟩ := by
    have hpending : (⟨[(1, bytes "a")], [⟨0, 1, pairRequest⟩], []⟩ : NetState).pending =
        [] ++ (⟨0, 1, pairRequest⟩ : Packet) :: [] := rfl
    have h := NetStep.handle hpending h0 hdest hsearch
    exact h
  exact search_conserved (by decide +kernel) ((Run.start.next hissue).next hhandle)

end ComputerNetworks.PeerRing
