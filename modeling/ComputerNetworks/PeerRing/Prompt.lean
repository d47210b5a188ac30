import ComputerNetworks.PeerRing.Placement
import ComputerNetworks.PeerRing.Peer

/-! # The prompt of a peer

The command loop of `server.cpp`: a line is a search, a download or nothing. The arguments of a
download are taken out of the line with five `getline` calls into three strings, and the address goes
to the socket by way of another buffer than that of a datagram. `download_reaches_owner` ties the
command to what an answer to a search says.
-/
namespace ComputerNetworks.PeerRing
set_option autoImplicit false

/-! ## Commands -/

/-- `file`, `ip` and `port` of a line that starts with `download`. -/
def downloadArgs (req : Str) : Str × Str × ℤ :=
  let (dum, she) := getline (istringstream req) [] space
  let (file, she) := getline she [] space
  let (dum, she) := getline she dum space
  let (ip, she) := getline she [] colon
  let (dum, _) := getline she dum colon
  (file, ip, atoi dum)

inductive Command where
  | search (req : Str)
  | download (file ip : Str) (port : ℤ)
  | invalid
  deriving DecidableEq

def command (my_node : Node) (req : Str) : Command :=
  if req.take 6 = bytes "search" then .search (req ++ bytes " for " ++ my_node.ip_port)
  else if req.take 8 = bytes "download" then
    let (file, ip, port) := downloadArgs req
    .download file ip port
  else .invalid

inductive ConnectFault where
  | overflow
  | inet_aton
  deriving DecidableEq

/-- `download_func` up to the `write` of the request: where it connects to, and what it writes. -/
def downloadRequest (inet_aton : Str → Option UInt32) (file ip : Str) (port : ℤ) :
    Except ConnectFault (SockAddr × Str) :=
  match strcpy LEN file, strcpy 100 ip with
  | some file_name, some ip_arr =>
      match inet_aton ip_arr with
      | none => .error .inet_aton
      | some sin_addr => .ok (⟨sin_addr, UInt16.ofInt port⟩, file_name)
  | _, _ => .error .overflow

/-- The port on which the TCP server of a peer listens. -/
def serverPort (my_node : Node) : UInt16 := UInt16.ofInt (atoi my_node.port)

def downloadLine (f a : Str) : Str := bytes "download " ++ f ++ bytes " from " ++ a

/-! ## What a line is taken for -/

/-- Only a search leaves the prompt as a datagram. -/
theorem userCommand_eq (inet_addr : Str → UInt32) (my_node : Node) (req : Str) :
    userCommand inet_addr my_node req =
      match command my_node req with
      | .search req => (searchFunc inet_addr req my_node).map fun out => [out]
      | _ => some [] := by
  rw [userCommand, command]
  split_ifs <;> rfl

theorem downloadLine_eq (f a : Str) :
    downloadLine f a = bytes "download" ++ space :: (f ++ space :: (bytes "from" ++ space :: a)) := by
  have hdownload : bytes "download " = bytes "download" ++ [space] := by decide
  have hfrom : bytes " from " = space :: (bytes "from" ++ [space]) := by decide
  simp [downloadLine, hdownload, hfrom]

theorem downloadArgs_downloadLine {f a : Str} (hf : space ∉ f) (ha : colon ∈ a) :
    downloadArgs (downloadLine f a) = (f, (splitAddr a).1, atoi (splitAddr a).2) := by
  have hdownload : space ∉ bytes "download" := by decide
  have hfrom : space ∉ bytes "from" := by decide
  obtain ⟨ip, rest, rfl, hip⟩ := List.eq_append_cons_of_mem ha
  simp only [downloadArgs, istringstream, downloadLine_eq, getline_append hdownload, getline_append hf,
    getline_append hfrom, splitAddr, getline_append hip]
  -- behind the colon nothing of an earlier field is left
  rcases splitOn_cases colon rest with ⟨hrest, -⟩ | ⟨port, rest, hport, rfl, -⟩
  · simp only [getline_notMem hrest]
  · simp only [getline_append hport]

theorem command_downloadLine (my_node : Node) {f a : Str} (hf : space ∉ f) (ha : colon ∈ a) :
    command my_node (downloadLine f a) = .download f (splitAddr a).1 (atoi (splitAddr a).2) := by
  have hsix : (downloadLine f a).take 6 ≠ bytes "search" := by
    rw [downloadLine_eq, List.take_append_of_le_length (by decide)]
    decide
  have height : (downloadLine f a).take 8 = bytes "download" := by
    rw [downloadLine_eq, List.take_append_of_le_length (by decide)]
    decide
  rw [command, if_neg hsix, if_pos height, downloadArgs_downloadLine hf ha]

theorem mem_splitAddr_fst {a : Str} {b : Byte} (hb : b ∈ (splitAddr a).1) : b ∈ a := by
  have h : (splitAddr a).1 = (getline (istringstream a) [] colon).1 := rfl
  exact (getline_subset (h ▸ hb)).resolve_left List.not_mem_nil

/-! ## From an answer to the owner -/

theorem downloadRequest_iff {inet_aton : Str → Option UInt32} {f ip : Str} {port : ℤ} {sin_addr : UInt32}
    (hf0 : (0 : Byte) ∉ f) (hf : f.length < LEN) (hip0 : (0 : Byte) ∉ ip) :
    downloadRequest inet_aton f ip port = .ok (⟨sin_addr, UInt16.ofInt port⟩, f) ↔
      ip.length < 100 ∧ inet_aton ip = some sin_addr := by
  have hcstr : cstr ip = ip := cstr_of_notMem hip0
  rw [downloadRequest, strcpy_of_lt hf0 hf]
  by_cases hlen : ip.length < 100
  · rw [strcpy_of_lt hip0 hlen]
    cases haddr : inet_aton ip with
    | none => simp [haddr]
    | some x => simp [haddr, hlen]
  · have hnone : strcpy 100 ip = none := by rw [strcpy, hcstr, if_neg hlen]
    rw [hnone]
    simp [hlen]

/-- After any bootstrap run: what a search for `f` names is the address of a peer that shares `f`, and
the command with this name and this address, at whatever peer, asks for `f` at the port where the
server of that peer listens, exactly if the address text has less than 100 bytes and `inet_aton` reads
it as `inet_addr` does. -/
theorem download_reaches_owner {payloads : List Str} (B : BootstrapRun payloads)
    (inet_addr : Str → UInt32) (inet_aton : Str → Option UInt32) (my_node : Node) {f owner : Str}
    (h : LastOwner B.all_info f owner) :
    ∃ nd ∈ B.peers, nd.ip_port = owner ∧ f ∈ nd.myFile ∧
      (addrOf inet_addr owner).sin_port = serverPort nd ∧
      ∃ ip port, command my_node (downloadLine f owner) = .download f ip port ∧
        (downloadRequest inet_aton f ip port = .ok (addrOf inet_addr owner, f) ↔
          ip.length < 100 ∧ inet_aton ip = some (inet_addr ip)) := by
  obtain ⟨pre, nd, post, hA, hf, rfl, -⟩ := h
  have hmem : nd ∈ B.all_info := hA ▸ List.mem_append_right _ List.mem_cons_self
  have hreg := B.all_info_registered nd hmem
  obtain ⟨i, hi⟩ := List.mem_iff_getElem?.mp hmem
  obtain ⟨hf0, hfsp, hflen⟩ := hreg.file f hf
  have hip0 : (0 : Byte) ∉ (splitAddr nd.ip_port).1 := fun h0 => hreg.nul_notMem (mem_splitAddr_fst h0)
  have hpeer := B.getElem?_peers i
  rw [hi, Option.map_some] at hpeer
  refine ⟨_, List.mem_of_getElem? hpeer, rfl, hf, ?_, _, _,
    command_downloadLine my_node hfsp hreg.colon_mem, ?_⟩
  · rw [serverPort, hreg.port_eq]
    rfl
  · have hlt : f.length < LEN := hflen.trans_lt (by decide)
    have haddr : addrOf inet_addr nd.ip_port =
        ⟨inet_addr (splitAddr nd.ip_port).1, UInt16.ofInt (atoi (splitAddr nd.ip_port).2)⟩ := by
      rw [addrOf, sockAddr, cstr_of_notMem hip0]
    rw [haddr]
    exact downloadRequest_iff hf0 hlt hip0

theorem lastOwner_pair : LastOwner pairRun.all_info (bytes "a") (bytes "10.0.0.1:8001") :=
  directory_find?_eq_some.mp (by decide +kernel)

theorem download_reaches_owner_pair :
    ∃ nd ∈ pairRun.peers, nd.ip_port = bytes "10.0.0.1:8001" ∧ bytes "a" ∈ nd.myFile ∧
      (addrOf dottedQuad (bytes "10.0.0.1:8001")).sin_port = serverPort nd ∧
      ∃ ip port, command {} (downloadLine (bytes "a") (bytes "10.0.0.1:8001")) =
          .download (bytes "a") ip port ∧
        (downloadRequest (fun s => some (dottedQuad s)) (bytes "a") ip port =
            .ok (addrOf dottedQuad (bytes "10.0.0.1:8001"), bytes "a") ↔
          ip.length < 100 ∧ some (dottedQuad ip) = some (dottedQuad ip)) :=
  download_reaches_owner pairRun dottedQuad (fun s => some (dottedQuad s)) {} lastOwner_pair

end ComputerNetworks.PeerRing
