import ComputerNetworks.PeerRing.Node

/-! # A peer, `server.cpp`

The text protocol of a running peer: the parser of the start-up message, `search_func`, the search
command typed by a user, and the UDP service loop, which tells messages apart by substring search.
Every function follows the source's `getline` calls, including what a variable keeps when a call
fails. The lemmas describe them on the texts the program itself builds (`requestText`), whole or cut
short by the 1000-byte read of `__recvinfo`.
-/
namespace ComputerNetworks.PeerRing
set_option autoImplicit false

/-! ## The start-up message -/

/-- The loop `while(getline(iss_1,key,' '))`. Every turn that stores an entry reads at least one
byte, so the text bounds the number of turns (`readEntries_stable`). -/
def readEntries : ℕ → IStringStream → Str → Str → StrMap → StrMap
  | 0, _, _, _, myFileInfo => myFileInfo
  | fuel + 1, iss_1, key, val, myFileInfo =>
      let (key, iss_1) := getline iss_1 key space
      if iss_1.fail then myFileInfo
      else
        let (val, iss_1) := getline iss_1 val space
        readEntries fuel iss_1 key val (myFileInfo.insert key val)

/-- What `main` does with the first datagram it receives. -/
def parseStartup (my_node : Node) (msg3 : Str) : Node :=
  let (scr, iss_1) := getline (istringstream msg3) my_node.scr space
  let (pdr, iss_1) := getline iss_1 my_node.pdr space
  { my_node with
    scr := scr, pdr := pdr
    myFileInfo := readEntries (msg3.length + 1) iss_1 [] [] my_node.myFileInfo }

/-! ## Searching -/

/-- What a call of `search_func` sends: an answer to the requester, or the request itself to the
successor. -/
inductive Sent where
  | reply (d : Datagram)
  | forward (d : Datagram)
  deriving DecidableEq

def ownerText (fileName owner : Str) : Str :=
  bytes "owner_of " ++ fileName ++ bytes " is " ++ owner

/-- `fileName` after the first two `getline` calls of `search_func`, and the stream they leave. -/
def requestName (req : Str) : Str × IStringStream :=
  let (fileName, iss) := getline (istringstream req) [] space
  getline iss fileName space

def requestOrigin (iss : IStringStream) : Str :=
  let (q_ip_port, iss) := getline iss [] space
  (getline iss q_ip_port space).1

section
variable (inet_addr : Str → UInt32)

def searchFunc (req : Str) (node : Node) : Option Sent :=
  let (fileName, iss) := requestName req
  let q_ip_port := requestOrigin iss
  match node.myFileInfo.find? fileName with
  | some owner =>
      let (ip, port) := splitAddr q_ip_port
      (sendreq inet_addr ip (atoi port) (ownerText fileName owner)).map .reply
  | none =>
      let (ip, port) := splitAddr node.scr
      (sendreq inet_addr ip (atoi port) req).map .forward

/-- A line typed at the prompt. Only a search command sends a datagram. -/
def userCommand (my_node : Node) (req : Str) : Option (List Sent) :=
  if req.take 6 = bytes "search" then
    (searchFunc inet_addr (req ++ bytes " for " ++ my_node.ip_port) my_node).map fun out => [out]
  else some []

end

/-! ## The service loop -/

inductive Handling where
  | printed
  | searched
  | ignored
  deriving DecidableEq

/-- The two `find` tests of the loop, in their order. -/
def dispatch (req : Str) : Handling :=
  if bytes "owner_of" <:+: req then .printed
  else if bytes "search" <:+: req then .searched
  else .ignored

/-- One turn of the UDP service loop on a datagram: how the message is handled and what is sent. -/
def serviceTurn (inet_addr : Str → UInt32) (my_node : Node) (payload : Str) :
    Option (Handling × List Sent) :=
  let req := recvinfo payload
  match dispatch req with
  | .searched => (searchFunc inet_addr req my_node).map fun out => (.searched, [out])
  | h => some (h, [])

/-! ## Requests -/

/-- The request made of the command `search f` typed at the peer with address `a`. -/
def requestText (f a : Str) : Str := bytes "search " ++ f ++ bytes " for " ++ a

theorem bytes_search_space : bytes "search " = bytes "search" ++ [space] := by decide

theorem requestText_eq (f a : Str) :
    requestText f a = bytes "search" ++ space :: (f ++ space :: (bytes "for" ++ space :: a)) := by
  have hfor : bytes " for " = space :: (bytes "for" ++ [space]) := by decide
  simp [requestText, bytes_search_space, hfor]

theorem nul_notMem_requestText {f a : Str} (hf : (0 : Byte) ∉ f) (ha : (0 : Byte) ∉ a) :
    (0 : Byte) ∉ requestText f a := by
  have hsearch : (0 : Byte) ∉ bytes "search " := by decide
  have hfor : (0 : Byte) ∉ bytes " for " := by decide
  simp [requestText, hf, ha, hsearch, hfor]

theorem length_requestText (f a : Str) :
    (requestText f a).length = f.length + a.length + 12 := by
  have h7 : (bytes "search ").length = 7 := by decide
  have h5 : (bytes " for ").length = 5 := by decide
  unfold requestText
  simp only [List.length_append, h7, h5]
  omega

theorem space_notMem_search : space ∉ bytes "search" := by decide

theorem space_notMem_for : space ∉ bytes "for" := by decide

theorem requestName_requestText {f : Str} (hf : space ∉ f) (a : Str) :
    requestName (requestText f a) = (f, ⟨bytes "for" ++ space :: a, false, false⟩) := by
  rw [requestName, istringstream, requestText_eq, getline_append space_notMem_search]
  exact getline_append hf _ _

theorem requestOrigin_for {a : Str} (ha : space ∉ a) :
    requestOrigin ⟨bytes "for" ++ space :: a, false, false⟩ = a := by
  rw [requestOrigin, getline_append space_notMem_for]
  cases a with
  | nil => rfl
  | cons b a => exact congrArg Prod.fst (getline_last ha (by simp) _)

theorem requestName_take {f : Str} (hf : space ∉ f) (a : Str) (k : ℕ) :
    (requestName ((requestText f a).take (k + 7))).1 = f.take k := by
  have htake : (requestText f a).take (k + 7) =
      bytes "search" ++ space :: ((f ++ space :: (bytes "for" ++ space :: a)).take k) := by
    have h7 : (bytes "search" ++ [space]).length = 7 := by decide
    rw [requestText_eq, List.append_cons, List.take_append, h7, Nat.add_sub_cancel,
      List.take_of_length_le (by omega)]
    simp
  rw [requestName, istringstream, htake, getline_append space_notMem_search]
  have hsp : space ∉ f.take k := fun h => hf (List.mem_of_mem_take h)
  cases Nat.lt_or_ge f.length k with
  | inl hk =>
    have : (f ++ space :: (bytes "for" ++ space :: a)).take k =
        f ++ space :: ((bytes "for" ++ space :: a).take (k - f.length - 1)) := by
      rw [List.take_append, List.take_of_length_le hk.le]
      congr 1
      obtain ⟨j, hj⟩ : ∃ j, k - f.length = j + 1 := ⟨k - f.length - 1, by omega⟩
      rw [hj, List.take_succ_cons, Nat.add_sub_cancel]
    rw [this, List.take_of_length_le hk.le]
    simp only [getline_append hf]
  | inr hk =>
    have : (f ++ space :: (bytes "for" ++ space :: a)).take k = f.take k := by
      rw [List.take_append, Nat.sub_eq_zero_of_le hk]
      simp
    rw [this]
    cases eq_or_ne (f.take k) [] with
    | inl hnil => rw [hnil]; rfl
    | inr hne => simp only [getline_last hsp hne]

theorem ownerText_lt {f owner : Str} (hf0 : (0 : Byte) ∉ f) (hf : f.length ≤ recvLen)
    (ho0 : (0 : Byte) ∉ owner) (ho : owner.length ≤ recvLen + 1) :
    (0 : Byte) ∉ ownerText f owner ∧ (ownerText f owner).length < LEN := by
  have h9 : (bytes "owner_of ").length = 9 := by decide
  have h4 : (bytes " is ").length = 4 := by decide
  have h0 : (0 : Byte) ∉ bytes "owner_of " := by decide
  have h0' : (0 : Byte) ∉ bytes " is " := by decide
  unfold ownerText
  constructor
  · simp only [List.mem_append, h0, h0', hf0, ho0, or_false, not_false_eq_true]
  · simp only [recvLen] at hf ho
    simp only [List.length_append, h9, h4, LEN]
    omega

section
variable {inet_addr : Str → UInt32}

theorem searchFunc_reply {f a owner : Str} {nd : Node} (hf : space ∉ f) (ha : space ∉ a)
    (h : nd.myFileInfo.find? f = some owner) :
    searchFunc inet_addr (requestText f a) nd =
      (sendreq inet_addr (splitAddr a).1 (atoi (splitAddr a).2) (ownerText f owner)).map .reply := by
  simp only [searchFunc, requestName_requestText hf, requestOrigin_for ha, h]

theorem searchFunc_forward {req : Str} {nd : Node}
    (h : nd.myFileInfo.find? (requestName req).1 = none) :
    searchFunc inet_addr req nd =
      (sendreq inet_addr (splitAddr nd.scr).1 (atoi (splitAddr nd.scr).2) req).map .forward := by
  simp only [searchFunc, h]

end

end ComputerNetworks.PeerRing
