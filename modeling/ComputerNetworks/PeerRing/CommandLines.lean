import ComputerNetworks.PeerRing.Dispatch

/-! # Where the answer to a command goes

A search command is sent round the ring as it was typed, with the address of the peer behind it, and
every peer that reads the request takes the name and the address out again by their places between
single spaces. `repliesRight_iff` says for which lines these are the right ones.
-/
namespace ComputerNetworks.PeerRing
set_option autoImplicit false

/-- The first word of a text, as `cin >> s` reads it. -/
def firstWord (s : Str) : Option Str :=
  match (s.dropWhile isspace).takeWhile fun b => !isspace b with
  | [] => none
  | b :: w => some (b :: w)

def typedRequest (L a : Str) : Str := L ++ bytes " for " ++ a

/-- The requests that `search_func` is called on when `L` is typed at `a`: by the peer itself, and
by a peer behind it that takes what it has read for a request. -/
inductive Reaches (L a : Str) : Str → Prop
  | typed : Reaches L a (typedRequest L a)
  | forwarded {req payload : Str} : Reaches L a req → strcpy LEN req = some payload →
      dispatch (recvinfo payload) = .searched → Reaches L a (recvinfo payload)

/-- To whom `search_func` sends the owner of the file, and the text of the answer, if the peer knows
the owner. -/
def answerOf (req : Str) (node : Node) : Option (Str × Str) :=
  let (fileName, iss) := requestName req
  (node.myFileInfo.find? fileName).map fun owner => (requestOrigin iss, ownerText fileName owner)

/-- What typing `L` at `a` should come to. -/
structure RepliesRight (inet_addr : Str → UInt32) (L a : Str) : Prop where
  rejected : firstWord (L.drop 6) = none → ∀ my_node : Node, my_node.ip_port = a →
    userCommand inet_addr my_node L = some []
  answered : ∀ file, firstWord (L.drop 6) = some file → ∀ req, Reaches L a req →
    ∀ (node : Node) (q_ip_port text : Str), answerOf req node = some (q_ip_port, text) →
      addrOf inet_addr q_ip_port = addrOf inet_addr a ∧
        ∃ owner, node.myFileInfo.find? file = some owner ∧ text = ownerText file owner

/-! ## What `search_func` reads -/

theorem searchFunc_eq {inet_addr : Str → UInt32} (req : Str) (node : Node) :
    searchFunc inet_addr req node =
      match answerOf req node with
      | some (q_ip_port, text) =>
          (sendreq inet_addr (splitAddr q_ip_port).1 (atoi (splitAddr q_ip_port).2) text).map .reply
      | none =>
          (sendreq inet_addr (splitAddr node.scr).1 (atoi (splitAddr node.scr).2) req).map
            .forward := by
  unfold searchFunc answerOf
  cases hfind : node.myFileInfo.find? (requestName req).1 <;> simp only [hfind] <;> rfl

theorem searchFunc_eq_reply {inet_addr : Str → UInt32} {req : Str} {node : Node} {d : Datagram}
    (h : searchFunc inet_addr req node = some (.reply d)) :
    ∃ q_ip_port text, answerOf req node = some (q_ip_port, text) ∧
      d = ⟨addrOf inet_addr q_ip_port, cstr text⟩ := by
  rw [searchFunc_eq] at h
  cases hans : answerOf req node with
  | none =>
    simp only [hans] at h
    obtain ⟨d', -, hd'⟩ := Option.map_eq_some_iff.mp h
    cases hd'
  | some ans =>
    obtain ⟨q_ip_port, text⟩ := ans
    simp only [hans] at h
    obtain ⟨d', hsend, hd'⟩ := Option.map_eq_some_iff.mp h
    obtain rfl := Sent.reply.inj hd'
    exact ⟨q_ip_port, text, rfl, (sendreq_eq_some inet_addr hsend).2⟩

/-- The fields of a request between single spaces: the name is the second one, and the address the
fourth. A `getline` at the end of the text leaves the field before in its place. -/
theorem request_fields (req : Str) :
    (requestName req).1 = ((req.splitOn space)[1]?).getD ((req.splitOn space).headD []) ∧
      requestOrigin (requestName req).2 =
        ((req.splitOn space)[3]?).getD (((req.splitOn space)[2]?).getD []) := by
  unfold requestName requestOrigin istringstream
  obtain ⟨h0, hs0⟩ | ⟨w0, r0, h0, rfl, hs0⟩ := splitOn_cases space req
  · simp [hs0, getline_notMem h0]
  rw [hs0, getline_append h0]
  obtain ⟨h1, hs1⟩ | ⟨w1, r1, h1, rfl, hs1⟩ := splitOn_cases space r0
  · simp [hs1, getline_notMem h1]
  simp only [hs1, getline_append h1]
  obtain ⟨h2, hs2⟩ | ⟨w2, r2, h2, rfl, hs2⟩ := splitOn_cases space r1
  · simp [hs2, getline_notMem h2]
  simp only [hs2, getline_append h2]
  obtain ⟨h3, hs3⟩ | ⟨w3, r3, h3, rfl, hs3⟩ := splitOn_cases space r2
  · simp [hs3, getline_notMem h3]
  · simp [hs3, getline_append h3]

/-! ## What the request asks for -/

/-- Between its single spaces the request has the name and the address `a` in the places where
`search_func` looks for them. -/
def Asks (inet_addr : Str → UInt32) (req file a : Str) : Prop :=
  ((req.splitOn space)[1]?).getD ((req.splitOn space).headD []) = file ∧
    addrOf inet_addr (((req.splitOn space)[3]?).getD (((req.splitOn space)[2]?).getD [])) =
      addrOf inet_addr a

/-- The request as the other peers read it. -/
def passedOn (L a : Str) : Str := recvinfo (cstr (typedRequest L a))

/-- However far it goes, the request is the one that was typed or the one that was passed on first. -/
theorem Reaches.cases {L a req : Str} (h : Reaches L a req) :
    req = typedRequest L a ∨
      (req = passedOn L a ∧ (cstr (typedRequest L a)).length < LEN ∧
        dispatch (passedOn L a) = .searched) := by
  induction h with
  | typed => exact Or.inl rfl
  | @forwarded req payload _ hcopy hsearched ih =>
    refine Or.inr ?_
    obtain rfl | ⟨rfl, hlen, hfirst⟩ := ih
    · obtain rfl := strcpy_eq_some hcopy
      rw [strcpy] at hcopy
      split_ifs at hcopy with hlen
      exact ⟨rfl, hlen, hsearched⟩
    · -- what was read once is not cut again
      obtain rfl := strcpy_eq_some hcopy
      have hnul := nul_notMem_recvinfo (cstr (typedRequest L a))
      have hsame : recvinfo (cstr (passedOn L a)) = passedOn L a := by
        unfold passedOn
        rw [cstr_of_notMem hnul, recvinfo_of_le hnul (recvinfo_length_le _)]
      rw [hsame]
      exact ⟨rfl, hlen, hfirst⟩

theorem Reaches.passedOn {L a : Str} (hlen : (cstr (typedRequest L a)).length < LEN)
    (h : dispatch (PeerRing.passedOn L a) = .searched) : Reaches L a (PeerRing.passedOn L a) :=
  .forwarded .typed (if_pos hlen) h

theorem answerOf_eq_some {req q_ip_port text : Str} {node : Node}
    (h : answerOf req node = some (q_ip_port, text)) :
    q_ip_port = requestOrigin (requestName req).2 ∧
      ∃ owner, node.myFileInfo.find? (requestName req).1 = some owner ∧
        text = ownerText (requestName req).1 owner := by
  obtain ⟨owner, hfind, hans⟩ := Option.map_eq_some_iff.mp h
  obtain ⟨rfl, rfl⟩ := Prod.mk.inj hans
  exact ⟨rfl, owner, hfind, rfl⟩

theorem answers_iff {inet_addr : Str → UInt32} (req file a : Str) :
    (∀ (node : Node) (q_ip_port text : Str), answerOf req node = some (q_ip_port, text) →
      addrOf inet_addr q_ip_port = addrOf inet_addr a ∧
        ∃ owner, node.myFileInfo.find? file = some owner ∧ text = ownerText file owner) ↔
    Asks inet_addr req file a := by
  obtain ⟨hname, horigin⟩ := request_fields req
  unfold Asks
  rw [← hname, ← horigin]
  constructor
  · intro h
    -- a peer that knows the owner of this one file only
    let node : Node := { myFileInfo := (∅ : StrMap).insert (requestName req).1 [] }
    have hfind : node.myFileInfo.find? (requestName req).1 = some [] := by
      rw [SortedMap.find?_insert, if_pos rfl]
    have hother : ∀ f, f ≠ (requestName req).1 → node.myFileInfo.find? f = none := by
      intro f hf
      rw [SortedMap.find?_insert, if_neg hf, SortedMap.find?_empty]
    have hans : answerOf req node =
        some (requestOrigin (requestName req).2, ownerText (requestName req).1 []) := by
      unfold answerOf
      simp only [hfind, Option.map_some]
    obtain ⟨haddr, owner, howner, -⟩ := h node _ _ hans
    refine ⟨?_, haddr⟩
    by_contra hne
    rw [hother file (Ne.symm hne)] at howner
    cases howner
  · rintro ⟨rfl, haddr⟩ node q_ip_port text hans
    obtain ⟨rfl, owner, hfind, rfl⟩ := answerOf_eq_some hans
    exact ⟨haddr, owner, hfind, rfl⟩

/-- A line gets its answers right exactly if it names a file, and the request made of it has the
name and the address in their places, also in the part of it that other peers read. -/
theorem repliesRight_iff {inet_addr : Str → UInt32} {L : Str} (hL : L.take 6 = bytes "search")
    (a : Str) :
    RepliesRight inet_addr L a ↔
      ∃ file, firstWord (L.drop 6) = some file ∧ Asks inet_addr (typedRequest L a) file a ∧
        ((cstr (typedRequest L a)).length < LEN → dispatch (passedOn L a) = .searched →
          Asks inet_addr (passedOn L a) file a) := by
  constructor
  · rintro ⟨hrejected, hanswered⟩
    cases hfirst : firstWord (L.drop 6) with
    | none =>
      have hnothing := hrejected hfirst { ip_port := a } rfl
      rw [userCommand, if_pos hL] at hnothing
      obtain ⟨out, -, hout⟩ := Option.map_eq_some_iff.mp hnothing
      cases hout
    | some file =>
      refine ⟨file, rfl, (answers_iff _ _ _).mp (hanswered file hfirst _ .typed), ?_⟩
      intro hlen hsearched
      exact (answers_iff _ _ _).mp (hanswered file hfirst _ (.passedOn hlen hsearched))
  · rintro ⟨file, hfirst, htyped, hpassed⟩
    refine ⟨fun hnone => ?_, fun file' hfirst' req hreq => ?_⟩
    · rw [hfirst] at hnone
      cases hnone
    · obtain rfl : file = file' := Option.some.inj (hfirst.symm.trans hfirst')
      obtain rfl | ⟨rfl, hlen, hsearched⟩ := hreq.cases
      · exact (answers_iff _ _ _).mpr htyped
      · exact (answers_iff _ _ _).mpr (hpassed hlen hsearched)

/-! ## The usual line, and one with a space at its end -/

/-- `search`, one space, a name and nothing else, short enough to be read whole. -/
theorem asks_requestText {inet_addr : Str → UInt32} {file a : Str} (hfile : space ∉ file)
    (ha : space ∉ a) : Asks inet_addr (requestText file a) file a := by
  have hfields : (requestText file a).splitOn space = [bytes "search", file, bytes "for", a] := by
    rw [requestText_eq, List.splitOn_append_cons_self_of_not_mem space_notMem_search,
      List.splitOn_append_cons_self_of_not_mem hfile,
      List.splitOn_append_cons_self_of_not_mem space_notMem_for, List.splitOn_eq_singleton ha]
  unfold Asks
  rw [hfields]
  exact ⟨rfl, rfl⟩

theorem repliesRight_search_a : RepliesRight dottedQuad (bytes "search a") (bytes "10.0.0.1:8001") := by
  refine (repliesRight_iff (by decide) _).mpr ⟨bytes "a", by decide, ?_, fun _ _ => ?_⟩
  · exact (asks_requestText (by decide) (by decide) :
      Asks dottedQuad (requestText (bytes "a") (bytes "10.0.0.1:8001")) (bytes "a") _)
  · have hpassed : passedOn (bytes "search a") (bytes "10.0.0.1:8001") =
        requestText (bytes "a") (bytes "10.0.0.1:8001") := by decide +kernel
    rw [hpassed]
    exact asks_requestText (by decide) (by decide)

/-- With a space behind the name, the answer goes to port 0 of a host called `for`. -/
theorem trailing_space_misdirects :
    ¬ ∀ (inet_addr : Str → UInt32) (L : Str) (ip port : Word), L.take 6 = bytes "search" →
      RepliesRight inet_addr L (ip.val ++ colon :: port.val) := by
  intro h
  let ip : Word := ⟨bytes "10.0.0.1", by decide +kernel, by decide +kernel, by decide +kernel⟩
  let port : Word := ⟨bytes "8001", by decide +kernel, by decide +kernel, by decide +kernel⟩
  have hright := h dottedQuad (bytes "search a ") ip port (by decide)
  have hanswered := hright.answered (bytes "a") (by decide) _ .typed
  have hasks := (answers_iff _ _ _).mp hanswered
  exact absurd hasks.2 (by decide +kernel)

end ComputerNetworks.PeerRing
