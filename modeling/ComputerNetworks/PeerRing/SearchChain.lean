import ComputerNetworks.Library.TokenRing
import ComputerNetworks.PeerRing.Replies
import ComputerNetworks.PeerRing.Dispatch

/-! # The chain of one search

A search starts with the request as typed and continues at the successor each time it is forwarded.
A request has no hop count, so nothing but a table or the dispatch of the service loop can end the
chain. After one hop the request is what `__recvinfo` leaves of it and does not change any more
(`Arrived.recvinfo_eq`): the chain either stops on the first turn round the ring or never
(`chain_circulates`). `leavesNetwork_iff` is the exact condition, on rings with arbitrary tables.
-/
namespace ComputerNetworks.PeerRing
open ConsistentHash TokenRing
set_option autoImplicit false

/-! ## Rings -/

/-- What a table can hold: names and addresses that came in one message of at most 1000 bytes, or
were put together from one. -/
def SmallTable (myFileInfo : StrMap) : Prop :=
  ∀ it ∈ myFileInfo.toList, ((0 : Byte) ∉ it.1 ∧ it.1.length ≤ recvLen) ∧
    (0 : Byte) ∉ it.2 ∧ it.2.length ≤ recvLen + 1

def Received (t : Str) : Prop := (0 : Byte) ∉ t ∧ t.length ≤ recvLen

theorem Received.getline {iss : IStringStream} {str : Str} (hiss : Received iss.rest)
    (hstr : Received str) (d : Byte) :
    Received (getline iss str d).1 ∧ Received (getline iss str d).2.rest := by
  have hsuf := getline_rest_suffix iss str d
  refine ⟨?_, fun h => hiss.1 (hsuf.subset h), hsuf.length_le.trans hiss.2⟩
  cases getline_eq_or_prefix iss str d with
  | inl heq =>
    rw [heq]
    exact hstr
  | inr hpre => exact ⟨fun h => hiss.1 (hpre.subset h), hpre.length_le.trans hiss.2⟩

theorem SmallTable.readEntries {fuel : ℕ} {iss : IStringStream} {key val : Str} {m : StrMap}
    (hm : SmallTable m) (hiss : Received iss.rest) (hkey : Received key) (hval : Received val) :
    SmallTable (readEntries fuel iss key val m) := by
  induction fuel generalizing iss key val m with
  | zero => exact hm
  | succ fuel ih =>
    obtain ⟨hkey', hiss'⟩ := hiss.getline hkey space
    obtain ⟨hval', hiss''⟩ := hiss'.getline hval space
    rw [PeerRing.readEntries]
    simp only
    split_ifs
    · exact hm
    · refine ih ?_ hiss'' hkey' hval'
      intro it hit
      obtain rfl | hit := SortedMap.mem_insertList hit
      · exact ⟨hkey', hval'.1, hval'.2.trans (Nat.le_succ _)⟩
      · exact hm it hit

theorem SmallTable.parseStartup {my_node : Node} (hm : SmallTable my_node.myFileInfo)
    (payload : Str) : SmallTable (parseStartup my_node (recvinfo payload)).myFileInfo := by
  have hmsg : Received (istringstream (recvinfo payload)).rest :=
    ⟨nul_notMem_recvinfo _, recvinfo_length_le _⟩
  have hnil : Received [] := ⟨List.not_mem_nil, Nat.zero_le _⟩
  have hscr := getline_rest_suffix (istringstream (recvinfo payload)) my_node.scr space
  have hpdr := (getline_rest_suffix (getline (istringstream (recvinfo payload)) my_node.scr
    space).2 my_node.pdr space).trans hscr
  exact hm.readEntries ⟨fun h => hmsg.1 (hpdr.subset h), hpdr.length_le.trans hmsg.2⟩ hnil hnil

/-- Peers linked into a ring, with any tables. -/
structure Ring where
  peers : List Node
  nonempty : 0 < peers.length
  successor : ∀ (i : ℕ) (nd : Node), peers[i]? = some nd →
    nd.scr = ipPortAt peers ((i + 1) % peers.length)
  address : ∀ nd ∈ peers, (0 : Byte) ∉ nd.ip_port ∧ space ∉ nd.ip_port ∧
    nd.ip_port.length ≤ recvLen + 1
  small : ∀ nd ∈ peers, SmallTable nd.myFileInfo

def Ring.node (R : Ring) (i : Fin R.peers.length) : Node := R.peers.get i

theorem Ring.node_mem (R : Ring) (i : Fin R.peers.length) : R.node i ∈ R.peers := List.get_mem _ _

theorem Ring.getElem?_node (R : Ring) (i : Fin R.peers.length) : R.peers[(i : ℕ)]? = some (R.node i) :=
  List.getElem?_eq_getElem i.isLt

def BootstrapRun.ring {payloads : List Str} (B : BootstrapRun payloads) : Ring where
  peers := B.peers
  nonempty := by
    rw [B.length_peers, List.length_pos_iff]
    exact B.all_info_ne_nil
  successor := by
    intro i nd h
    have hi := Nat.mod_lt (i + 1) (Nat.zero_lt_of_lt (peer_lt h))
    obtain ⟨nd', hnd'⟩ := exists_peer hi
    rw [peer_scr h, B.length_peers, ipPortAt, hnd', ← peer_ip_port hnd']
    rfl
  address := by
    intro nd hnd
    obtain ⟨i, hi⟩ := List.mem_iff_getElem?.mp hnd
    obtain ⟨m, -, hm, heq⟩ := addr_registered (peer_lt hi)
    rw [peer_ip_port hi, heq]
    exact ⟨hm.nul_notMem, hm.space_notMem, hm.length_le⟩
  small := by
    intro nd hnd it hit
    obtain ⟨i, hi⟩ := List.mem_iff_getElem?.mp hnd
    obtain ⟨-, owner, -, hreg, hfile, howner⟩ := entry_registered hi hit
    obtain ⟨h0, -, hlen⟩ := hreg.file _ hfile
    exact ⟨⟨h0, hlen⟩, howner ▸ hreg.nul_notMem, howner ▸ hreg.length_le⟩

/-! ## The chain -/

/-- How a chain stops, and after how many forwards. `overflow` is a request or an answer that does
not fit the send buffer. -/
inductive ChainEnd where
  | replied (forwards : ℕ)
  | dropped (forwards : ℕ)
  | overflow (forwards : ℕ)
  deriving DecidableEq

section
variable (inet_addr : Str → UInt32) (R : Ring)

/-- The chain from the call of `search_func` with `req` at position `i` (modulo the length of the
ring) on, after `k` forwards. Without fuel for all calls there is no result. -/
def chain : ℕ → ℕ → ℕ → Str → Option ChainEnd
  | 0, _, _, _ => none
  | fuel + 1, k, i, req =>
      match R.peers[i % R.peers.length]? with
      | none => none
      | some nd =>
        match searchFunc inet_addr req nd with
        | none => some (.overflow k)
        | some (.reply _) => some (.replied k)
        | some (.forward d) =>
            match dispatch (recvinfo d.payload) with
            | .searched => chain fuel (k + 1) (i + 1) (recvinfo d.payload)
            | _ => some (.dropped (k + 1))

def searchChain (fuel : ℕ) (i : Fin R.peers.length) (f : Str) : Option ChainEnd :=
  chain inet_addr R fuel 0 i (requestText f (R.node i).ip_port)

/-- The chain makes at most one turn and stops with a reply or by being dropped. -/
def LeavesNetwork (i : Fin R.peers.length) (f : Str) : Prop :=
  ∃ fuel, ∃ k ≤ R.peers.length, searchChain inet_addr R fuel i f = some (.replied k) ∨
    searchChain inet_addr R fuel i f = some (.dropped k)

end

section
variable (inet_addr : Str → UInt32) {R : Ring}

theorem Ring.exists_at (R : Ring) (i : ℕ) :
    ∃ nd, R.peers[i % R.peers.length]? = some nd ∧ nd ∈ R.peers := by
  have hlt := Nat.mod_lt i R.nonempty
  exact ⟨_, List.getElem?_eq_getElem hlt, List.getElem_mem hlt⟩

theorem searchFunc_forward_dest {i : ℕ} {nd next : Node} {req : Str} {d : Datagram}
    (hnd : R.peers[i % R.peers.length]? = some nd)
    (hnext : R.peers[(i + 1) % R.peers.length]? = some next)
    (h : searchFunc inet_addr req nd = some (.forward d)) :
    d.dest = addrOf inet_addr next.ip_port ∧ d.payload = cstr req := by
  cases hfind : nd.myFileInfo.find? (requestName req).1 with
  | some owner => simp [searchFunc, hfind] at h
  | none =>
    rw [searchFunc_forward hfind, Option.map_eq_some_iff] at h
    obtain ⟨d', hd', hdd⟩ := h
    obtain rfl : d' = d := by simpa using hdd
    obtain ⟨-, rfl⟩ := sendreq_eq_some inet_addr hd'
    have hscr : nd.scr = next.ip_port := by
      rw [R.successor _ _ hnd, Nat.mod_add_mod, ipPortAt, hnext]
      rfl
    exact ⟨by rw [addrOf, hscr], rfl⟩

theorem searchFunc_hit {nd : Node} (hnd : nd ∈ R.peers) {req f owner : Str}
    (hname : (requestName req).1 = f) (h : nd.myFileInfo.find? f = some owner) :
    ∃ d, searchFunc inet_addr req nd = some (.reply d) := by
  obtain ⟨⟨hf0, hflen⟩, ho0, holen⟩ := R.small nd hnd _ ((nd.myFileInfo.find?_eq_some f owner).mp h)
  obtain ⟨h0, hlen⟩ := ownerText_lt hf0 hflen ho0 holen
  exact ⟨_, by simp only [searchFunc, hname, h, sendreq_of_lt inet_addr _ _ h0 hlen]; rfl⟩

theorem searchFunc_miss {nd : Node} {req : Str} (h0 : (0 : Byte) ∉ req)
    (hlen : req.length < LEN) (h : nd.myFileInfo.find? (requestName req).1 = none) :
    ∃ dest, searchFunc inet_addr req nd = some (.forward ⟨dest, req⟩) :=
  ⟨_, by rw [searchFunc_forward h, sendreq_of_lt inet_addr _ _ h0 hlen]; rfl⟩

/-! ## After the first hop -/

/-- A request that stays as it is when it is received again and is taken for a request. -/
structure Arrived (req : Str) : Prop where
  nul_notMem : (0 : Byte) ∉ req
  length_le : req.length ≤ recvLen
  searched : dispatch req = .searched

theorem Arrived.recvinfo_eq {req : Str} (h : Arrived req) : recvinfo req = req :=
  recvinfo_of_le h.nul_notMem h.length_le

theorem arrived_recvinfo {payload : Str} (h : dispatch (recvinfo payload) = .searched) :
    Arrived (recvinfo payload) :=
  ⟨nul_notMem_recvinfo _, recvinfo_length_le _, h⟩

def Ring.Has (R : Ring) (f : Str) (q : ℕ) : Prop :=
  ∃ nd, R.peers[q]? = some nd ∧ nd.myFileInfo.find? f ≠ none

theorem chain_arrived {req : Str} (hreq : Arrived req) (fuel k i : ℕ) :
    (R.Has (requestName req).1 (i % R.peers.length) ∧
        chain inet_addr R (fuel + 1) k i req = some (.replied k)) ∨
      (¬ R.Has (requestName req).1 (i % R.peers.length) ∧
        chain inet_addr R (fuel + 1) k i req = chain inet_addr R fuel (k + 1) (i + 1) req) := by
  obtain ⟨nd, hnd, hmem⟩ := R.exists_at i
  cases hfind : nd.myFileInfo.find? (requestName req).1 with
  | some owner =>
    obtain ⟨d, hd⟩ := searchFunc_hit inet_addr hmem rfl hfind
    refine Or.inl ⟨⟨nd, hnd, by simp [hfind]⟩, ?_⟩
    simp only [chain, hnd, hd]
  | none =>
    obtain ⟨dest, hd⟩ := searchFunc_miss inet_addr hreq.nul_notMem
      (hreq.length_le.trans_lt (by decide)) hfind
    refine Or.inr ⟨?_, ?_⟩
    · rintro ⟨nd', hnd', hne⟩
      obtain rfl : nd = nd' := Option.some.inj (hnd.symm.trans hnd')
      exact hne hfind
    · simp only [chain, hnd, hd, hreq.recvinfo_eq, hreq.searched]

theorem chain_first {req : Str} (hreq : Arrived req) {d k i : ℕ}
    (hbefore : ∀ e < d, ¬ R.Has (requestName req).1 ((i + e) % R.peers.length))
    (hat : R.Has (requestName req).1 ((i + d) % R.peers.length)) :
    chain inet_addr R (d + 1) k i req = some (.replied (k + d)) := by
  induction d generalizing k i with
  | zero =>
    obtain ⟨-, h⟩ | ⟨hnot, -⟩ := chain_arrived inet_addr hreq 0 k i
    · exact h
    · exact absurd hat hnot
  | succ d ih =>
    obtain ⟨hhas, -⟩ | ⟨-, h⟩ := chain_arrived inet_addr hreq (d + 1) k i
    · exact absurd hhas (hbefore 0 (Nat.succ_pos d))
    · have hshift : ∀ e, i + 1 + e = i + (e + 1) := fun e => by omega
      rw [h, ih (fun e he => by rw [hshift]; exact hbefore (e + 1) (by omega))
        (by rw [hshift]; exact hat)]
      congr 2
      omega

/-- Without the file on any peer the request goes round for ever. -/
theorem chain_never {req : Str} (hreq : Arrived req)
    (hnone : ∀ q, ¬ R.Has (requestName req).1 q) (fuel k i : ℕ) :
    chain inet_addr R fuel k i req = none := by
  induction fuel generalizing k i with
  | zero => rfl
  | succ fuel ih =>
    obtain ⟨hhas, -⟩ | ⟨-, h⟩ := chain_arrived inet_addr hreq fuel k i
    · exact absurd hhas (hnone _)
    · rw [h, ih]

/-- With the file on some peer the request is answered before it has gone round. -/
theorem chain_within {req : Str} (hreq : Arrived req) {q : ℕ}
    (hq : R.Has (requestName req).1 q) (k i : ℕ) :
    ∃ d < R.peers.length, chain inet_addr R (d + 1) k i req = some (.replied (k + d)) := by
  classical
  have hlt : q < R.peers.length := by
    obtain ⟨nd, hnd, -⟩ := hq
    exact (List.getElem?_eq_some_iff.mp hnd).1
  obtain ⟨e, he, hplace⟩ := exists_place (fun _ : Unit => i) () hlt
  have hex : ∃ e, R.Has (requestName req).1 ((i + e) % R.peers.length) :=
    ⟨e, by rw [show (i + e) % R.peers.length = q from hplace]; exact hq⟩
  have hmin : Nat.find hex ≤ e :=
    Nat.find_min' hex (by rw [show (i + e) % R.peers.length = q from hplace]; exact hq)
  exact ⟨Nat.find hex, hmin.trans_lt he,
    chain_first inet_addr hreq (fun _ h => Nat.find_min hex h) (Nat.find_spec hex)⟩

/-! ## The first call -/

theorem arrived_of_not_owner_of {f a : Str}
    (h : ¬ bytes "owner_of" <:+: recvinfo (requestText f a)) :
    Arrived (recvinfo (requestText f a)) :=
  arrived_recvinfo (by rw [dispatch, if_neg h, if_pos (search_infix_recvinfo f a)])

theorem requestName_recvinfo (f : Word) {a : Str} (ha : (0 : Byte) ∉ a) :
    (requestName (recvinfo (requestText f.val a))).1 = f.val.take 993 := by
  rw [recvinfo_of_notMem (nul_notMem_requestText f.no_nul ha)]
  exact requestName_take f.space_notMem a 993

theorem Ring.getElem?_mod (R : Ring) (i : Fin R.peers.length) :
    R.peers[(i : ℕ) % R.peers.length]? = some (R.node i) := by
  rw [Nat.mod_eq_of_lt i.isLt, R.getElem?_node]

theorem find?_requestName_of_miss {i : Fin R.peers.length} {f : Word} (hmiss : ¬ R.Has f.val i) :
    (R.node i).myFileInfo.find? (requestName (requestText f.val (R.node i).ip_port)).1 = none := by
  rw [requestName_requestText f.space_notMem]
  by_contra hne
  exact hmiss ⟨_, R.getElem?_node i, hne⟩

/-- A request that fits leaves the issuer unless the issuer has the file; the next peer drops it or
takes what it has read of it for a request. -/
theorem searchChain_forwarded {i : Fin R.peers.length} {f : Word} (hmiss : ¬ R.Has f.val i)
    (hlen : (requestText f.val (R.node i).ip_port).length < LEN) (fuel : ℕ) :
    searchChain inet_addr R (fuel + 1) i f.val =
      if bytes "owner_of" <:+: recvinfo (requestText f.val (R.node i).ip_port)
        then some (.dropped 1)
        else chain inet_addr R fuel 1 (i + 1)
          (recvinfo (requestText f.val (R.node i).ip_port)) := by
  have h0 : (0 : Byte) ∉ requestText f.val (R.node i).ip_port :=
    nul_notMem_requestText f.no_nul (R.address _ (R.node_mem i)).1
  have hsearch := search_infix_recvinfo f.val (R.node i).ip_port
  obtain ⟨dest, hd⟩ := searchFunc_miss inet_addr h0 hlen (find?_requestName_of_miss hmiss)
  simp only [searchChain, chain, R.getElem?_mod, hd]
  rw [dispatch]
  split_ifs with howner
  · rfl
  · rfl

theorem searchChain_overflow {i : Fin R.peers.length} {f : Word} (hmiss : ¬ R.Has f.val i)
    (hlen : LEN ≤ (requestText f.val (R.node i).ip_port).length) (fuel : ℕ) :
    searchChain inet_addr R fuel i f.val = none ∨
      searchChain inet_addr R fuel i f.val = some (.overflow 0) := by
  cases fuel with
  | zero => exact Or.inl rfl
  | succ fuel =>
    have h0 := nul_notMem_requestText f.no_nul (R.address _ (R.node_mem i)).1
    have hnone : searchFunc inet_addr (requestText f.val (R.node i).ip_port) (R.node i) = none := by
      rw [searchFunc_forward (find?_requestName_of_miss hmiss), sendreq, strcpy,
        cstr_of_notMem h0, if_neg (not_lt.mpr hlen)]
      rfl
    refine Or.inr ?_
    simp only [searchChain, chain, R.getElem?_mod, hnone]

/-- The chain of a search goes on for ever if the request fits, is taken for a request, and no peer
has what is left of the name after the first hop. -/
theorem chain_circulates {i : Fin R.peers.length} {f : Word} (hmiss : ¬ R.Has f.val i)
    (hlen : (requestText f.val (R.node i).ip_port).length < LEN)
    (howner : ¬ bytes "owner_of" <:+: recvinfo (requestText f.val (R.node i).ip_port))
    (hnone : ∀ q, ¬ R.Has (f.val.take 993) q) (fuel : ℕ) :
    searchChain inet_addr R fuel i f.val = none := by
  cases fuel with
  | zero => rfl
  | succ fuel =>
    have harr := arrived_of_not_owner_of howner
    rw [searchChain_forwarded inet_addr hmiss hlen, if_neg howner]
    refine chain_never inet_addr harr (fun q => ?_) _ _ _
    rw [requestName_recvinfo f (R.address _ (R.node_mem i)).1]
    exact hnone q

/-- What the placement loop makes of linked nodes is a ring, and on every ring a search leaves the network
within one turn exactly if the issuer has the file, or the request fits the send buffer and either reads as
an answer on arrival or names a file some peer has. -/
theorem leavesNetwork_iff :
    (∀ (payloads : List Str) (B : BootstrapRun payloads),
      placeFiles (link B.all_info) = some B.ring.peers) ∧
    ∀ (R : Ring) (i : Fin R.peers.length) (f : Word), LeavesNetwork inet_addr R i f.val ↔
      R.Has f.val i ∨ (requestText f.val (R.node i).ip_port).length < LEN ∧
        (bytes "owner_of" <:+: recvinfo (requestText f.val (R.node i).ip_port) ∨
          ∃ q, R.Has (f.val.take 993) q) := by
  refine ⟨fun _ B => B.placeFiles_eq, fun R i f => ?_⟩
  have haddr := (R.address _ (R.node_mem i)).1
  have hmod : (i : ℕ) % R.peers.length = i := Nat.mod_eq_of_lt i.isLt
  by_cases hhit : R.Has f.val i
  · obtain ⟨nd, hnd, hne⟩ := hhit
    obtain ⟨owner, howner⟩ := Option.ne_none_iff_exists'.mp hne
    have hname : (requestName (requestText f.val (R.node i).ip_port)).1 = f.val := by
      rw [requestName_requestText f.space_notMem]
    obtain ⟨d, hd⟩ := searchFunc_hit inet_addr (List.mem_of_getElem? hnd) hname
      howner
    refine iff_of_true ⟨1, 0, Nat.zero_le _, Or.inl ?_⟩ (Or.inl ⟨nd, hnd, hne⟩)
    simp only [searchChain, chain, hmod, hnd, hd]
  · by_cases hlen : (requestText f.val (R.node i).ip_port).length < LEN
    · by_cases howner : bytes "owner_of" <:+: recvinfo (requestText f.val (R.node i).ip_port)
      · refine iff_of_true ⟨1, 1, R.nonempty, Or.inr ?_⟩ (Or.inr ⟨hlen, Or.inl howner⟩)
        rw [searchChain_forwarded inet_addr hhit hlen, if_pos howner]
      · by_cases hsome : ∃ q, R.Has (f.val.take 993) q
        · obtain ⟨q, hq⟩ := hsome
          rw [← requestName_recvinfo f haddr] at hq
          obtain ⟨d, hd, hchain⟩ :=
            chain_within inet_addr (arrived_of_not_owner_of howner) hq 1 (i + 1)
          refine iff_of_true ⟨d + 1 + 1, 1 + d, by omega, Or.inl ?_⟩
            (Or.inr ⟨hlen, Or.inr ⟨q, by rwa [requestName_recvinfo f haddr] at hq⟩⟩)
          rw [searchChain_forwarded inet_addr hhit hlen, if_neg howner, hchain]
        · refine iff_of_false ?_ ?_
          · rintro ⟨fuel, k, -, h⟩
            rw [chain_circulates inet_addr hhit hlen howner (fun q hq => hsome ⟨q, hq⟩)] at h
            simp at h
          · rintro (h | ⟨-, h | h⟩)
            · exact hhit h
            · exact howner h
            · exact hsome h
    · refine iff_of_false ?_ (by rintro (h | h); exacts [hhit h, hlen h.1])
      rintro ⟨fuel, k, -, h⟩
      cases searchChain_overflow inet_addr hhit (not_lt.mp hlen) fuel with
      | inl hc =>
        rw [hc] at h
        simp at h
      | inr hc =>
        rw [hc] at h
        simp at h

theorem pairRun_circulates :
    ¬ ∀ (R : Ring) (i : Fin R.peers.length) (f : Word), LeavesNetwork dottedQuad R i f.val := by
  intro h
  let i : Fin pairRun.ring.peers.length := ⟨0, pairRun.ring.nonempty⟩
  let f : Word := ⟨bytes "zzz", by decide +kernel, by decide +kernel, by decide +kernel⟩
  have hnone : ∀ q, ¬ pairRun.ring.Has f.val q := by
    rintro q ⟨nd, hnd, hne⟩
    have hall : ∀ nd ∈ pairRun.ring.peers, nd.myFileInfo.find? (bytes "zzz") = none := by
      decide +kernel
    exact hne (hall nd (List.mem_of_getElem? hnd))
  obtain ⟨fuel, k, -, hstop⟩ := h pairRun.ring i f
  rw [chain_circulates dottedQuad (hnone i) (by decide +kernel) (by decide +kernel) hnone] at hstop
  simp at hstop

end

end ComputerNetworks.PeerRing
