import ComputerNetworks.PeerRing.Placement
import ComputerNetworks.PeerRing.Peer

/-! # The bootstrap's replies and what a peer reads from them

`__init.cpp` prints a node's neighbours and table as one line of fields, each ended by a space;
`server.cpp` reads the line back field by field. On the whole text this is a round trip
(`parseStartup_replyText`), and `wholeReply_iff` turns it into the exact condition on the registrations
under which no peer loses anything: the text of no peer exceeds the 1000 bytes `__recvinfo` reads.
-/
namespace ComputerNetworks.PeerRing
open ConsistentHash
set_option autoImplicit false

/-! ## The reading loop ends with the text -/

theorem getline_rest_lt {iss : IStringStream} {str : Str} {d : Byte}
    (h : (getline iss str d).2.fail = false) :
    (getline iss str d).2.rest.length < iss.rest.length := by
  rw [getline] at h ⊢
  split_ifs at h ⊢
  split at h
  · cases hrest : iss.rest with
    | nil => simp [hrest] at h
    | cons b r => simp
  · rename_i heq
    have hsuf := List.dropWhile_suffix (l := iss.rest) (· ≠ d)
    rw [heq] at hsuf
    exact (Nat.lt_succ_self _).trans_le hsuf.length_le

theorem readEntries_stable {fuel fuel' : ℕ} {iss : IStringStream} (key val : Str) (m : StrMap)
    (h : iss.rest.length < fuel) (h' : iss.rest.length < fuel') :
    readEntries fuel iss key val m = readEntries fuel' iss key val m := by
  induction fuel generalizing fuel' iss key val m with
  | zero => omega
  | succ fuel ih =>
    obtain ⟨fuel', rfl⟩ : ∃ k, fuel' = k + 1 := ⟨fuel' - 1, by omega⟩
    rw [readEntries, readEntries]
    simp only
    split_ifs with hfail
    · rfl
    · have hlt := getline_rest_lt (Bool.eq_false_iff.mpr hfail)
      have hle := (getline_rest_suffix (getline iss key space).2 val space).length_le
      exact ih _ _ _ (by omega) (by omega)

/-! ## The text of a table -/

def entriesText (l : List (Str × Str)) : Str :=
  l.flatMap fun it => it.1 ++ space :: (it.2 ++ [space])

@[simp] theorem entriesText_nil : entriesText [] = [] := rfl

theorem entriesText_cons (it : Str × Str) (l : List (Str × Str)) :
    entriesText (it :: l) = it.1 ++ space :: (it.2 ++ space :: entriesText l) := by
  simp [entriesText]

theorem length_entriesText (l : List (Str × Str)) :
    (entriesText l).length = (l.map fun it => it.1.length + it.2.length + 2).sum := by
  rw [entriesText, List.length_flatMap]
  congr 1
  apply List.map_congr_left
  intro it _
  simp only [List.length_append, List.length_cons, List.length_nil]
  omega

theorem replyText_eq (nd : Node) :
    replyText nd = nd.scr ++ space :: (nd.pdr ++ space :: entriesText nd.myFileInfo.toList) := by
  have hfold : ∀ (l : List (Str × Str)) (msg : Str),
      l.foldl (fun msg it => msg ++ it.1 ++ [space] ++ it.2 ++ [space]) msg =
        msg ++ entriesText l := by
    intro l
    induction l with
    | nil => simp
    | cons it l ih =>
      intro msg
      rw [List.foldl_cons, ih, entriesText_cons]
      simp
  show nd.scr ++ [space] ++ nd.pdr ++ [space] ++ nd.myFileInfo.toList.foldl _ [] = _
  rw [hfold]
  simp

def Separable (it : Str × Str) : Prop := space ∉ it.1 ∧ space ∉ it.2 ∧ it.2 ≠ []

theorem readEntries_cons {it : Str × Str} (h : Separable it) (fuel : ℕ) (r key val : Str)
    (m : StrMap) :
    readEntries (fuel + 1) ⟨it.1 ++ space :: (it.2 ++ space :: r), false, false⟩ key val m =
      readEntries fuel ⟨r, false, false⟩ it.1 it.2 (m.insert it.1 it.2) := by
  simp only [readEntries, getline_append h.1, getline_append h.2.1, Bool.false_eq_true, if_false]

theorem readEntries_entriesText {l : List (Str × Str)} (h : ∀ it ∈ l, Separable it) {fuel : ℕ}
    (hfuel : l.length < fuel) (key val : Str) (m : StrMap) :
    readEntries fuel ⟨entriesText l, false, false⟩ key val m = m.assignAll l := by
  induction l generalizing fuel key val m with
  | nil =>
    obtain ⟨fuel, rfl⟩ : ∃ k, fuel = k + 1 := ⟨fuel - 1, by simp at hfuel; omega⟩
    rfl
  | cons it l ih =>
    obtain ⟨fuel, rfl⟩ : ∃ k, fuel = k + 1 := ⟨fuel - 1, by simp at hfuel; omega⟩
    rw [entriesText_cons, readEntries_cons (h it List.mem_cons_self),
      ih (fun q hq => h q (List.mem_cons_of_mem _ hq)) (by simpa using hfuel),
      SortedMap.assignAll_cons]

/-! ## Round trip -/

structure Node.Printable (nd : Node) : Prop where
  scr : space ∉ nd.scr
  pdr : space ∉ nd.pdr
  pdr_ne_nil : nd.pdr ≠ []
  entries : ∀ it ∈ nd.myFileInfo.toList, Separable it

def Node.startedAs (my_node nd : Node) : Node :=
  { my_node with scr := nd.scr, pdr := nd.pdr, myFileInfo := nd.myFileInfo }

theorem length_le_entriesText (l : List (Str × Str)) : l.length ≤ (entriesText l).length := by
  induction l with
  | nil => simp
  | cons it l ih =>
    simp only [entriesText_cons, List.length_append, List.length_cons]
    omega

theorem length_replyText (nd : Node) :
    (replyText nd).length =
      nd.scr.length + nd.pdr.length + 2 + (entriesText nd.myFileInfo.toList).length := by
  simp only [replyText_eq, List.length_append, List.length_cons]
  omega

/-- A peer that reads the whole reply starts as the bootstrap wants it to. -/
theorem parseStartup_replyText {nd my_node : Node} (h : nd.Printable)
    (hmy : my_node.myFileInfo = ∅) :
    parseStartup my_node (replyText nd) = my_node.startedAs nd := by
  have hfuel : nd.myFileInfo.toList.length < (replyText nd).length + 1 := by
    have := length_le_entriesText nd.myFileInfo.toList
    rw [length_replyText]
    omega
  have hentries := readEntries_entriesText h.entries hfuel [] [] ∅
  rw [SortedMap.assignAll_toList] at hentries
  rw [← hmy] at hentries
  rw [parseStartup, replyText_eq, istringstream]
  rw [replyText_eq] at hentries
  simp only [getline_append h.scr, getline_append h.pdr, hentries]
  rfl

/-- Every pair of addresses and every table survive the trip through the text. -/
theorem startup_roundtrip {nd my_node : Node} (hscr : nd.scr ≠ [] ∧ space ∉ nd.scr)
    (hpdr : nd.pdr ≠ [] ∧ space ∉ nd.pdr)
    (hentries : ∀ key val, nd.myFileInfo.find? key = some val →
      space ∉ key ∧ val ≠ [] ∧ space ∉ val)
    (hmy : my_node.myFileInfo = ∅) :
    (parseStartup my_node (replyText nd)).scr = nd.scr ∧
      (parseStartup my_node (replyText nd)).pdr = nd.pdr ∧
        (parseStartup my_node (replyText nd)).myFileInfo = nd.myFileInfo := by
  have hprint : nd.Printable := by
    refine ⟨hscr.2, hpdr.2, hpdr.1, fun it hit => ?_⟩
    obtain ⟨hkey, hne, hval⟩ := hentries it.1 it.2 ((nd.myFileInfo.find?_eq_some _ _).mpr hit)
    exact ⟨hkey, hval, hne⟩
  rw [parseStartup_replyText hprint hmy]
  exact ⟨rfl, rfl, rfl⟩

def pairTable : Node where
  scr := bytes "10.0.0.1:8001"
  pdr := bytes "10.0.0.2:8002"
  myFileInfo := SortedMap.assignAll ∅ [([], bytes "10.0.0.1:8001"), (bytes "a", bytes "10.0.0.2:8002")]

theorem startup_roundtrip_pair :
    (parseStartup {} (replyText pairTable)).scr = pairTable.scr ∧
      (parseStartup {} (replyText pairTable)).pdr = pairTable.pdr ∧
        (parseStartup {} (replyText pairTable)).myFileInfo = pairTable.myFileInfo := by
  refine startup_roundtrip (by decide) (by decide) (fun key val h => ?_) rfl
  have hit := (pairTable.myFileInfo.find?_eq_some key val).mp h
  have hall : ∀ it ∈ pairTable.myFileInfo.toList, space ∉ it.1 ∧ it.2 ≠ [] ∧ space ∉ it.2 := by
    decide +kernel
  exact hall _ hit

/-! ## The length of a reply -/

def ownerOf (all_info : List Node) (f : Str) : Str :=
  ((all_info.reverse.find? fun nd => f ∈ nd.myFile).map Node.ip_port).getD []

def registeredNames (all_info : List Node) : Finset Str := (all_info.flatMap Node.myFile).toFinset

/-- How long the reply to position `i` gets: the addresses of the two neighbours, and every name
that lives at `i` with the address of its owner, each with a separator. -/
def replyLength (all_info : List Node) (i : ℕ) : ℕ :=
  let n := all_info.length
  (ipPortAt all_info ((i + 1) % n)).length + (ipPortAt all_info ((i + n - 1) % n)).length + 2 +
    ∑ f ∈ (registeredNames all_info).filter fun f =>
        home (all_info.map Node.node_id) (oatHash f) = i,
      (f.length + (ownerOf all_info f).length + 2)

theorem mem_registeredNames {A : List Node} {f : Str} :
    f ∈ registeredNames A ↔ IsRegistered A f := by
  simp [registeredNames, IsRegistered]

theorem directory_eq_ownerOf (A : List Node) {f : Str} (hf : IsRegistered A f) :
    (directory A).find? f = some (ownerOf A f) := by
  induction A using List.reverseRecOn with
  | nil => simp [IsRegistered] at hf
  | append_singleton A nd ih =>
    rw [directory_concat, ownerOf, List.reverse_append, List.reverse_singleton,
      List.singleton_append, List.find?_cons]
    by_cases hnd : f ∈ nd.myFile
    · simp [hnd]
    · have hA : IsRegistered A f := by
        obtain ⟨nd', hmem, hfile⟩ := hf
        cases List.mem_append.mp hmem with
        | inl hmem => exact ⟨nd', hmem, hfile⟩
        | inr hmem =>
          rw [List.mem_singleton.mp hmem] at hfile
          exact absurd hfile hnd
      simp only [hnd, if_false, decide_false]
      exact ih hA

section
variable {payloads : List Str} {B : BootstrapRun payloads}

theorem BootstrapRun.entry_registered {i : ℕ} {nd : Node} (h : B.peers[i]? = some nd)
    {it : Str × Str} (hit : it ∈ nd.myFileInfo.toList) :
    (directory B.all_info).find? it.1 = some it.2 ∧
      ∃ owner ∈ B.all_info, owner.Registered ∧ it.1 ∈ owner.myFile ∧ owner.ip_port = it.2 := by
  have hfind := find?_peer_eq_some h ((nd.myFileInfo.find?_eq_some _ _).mpr hit)
  exact ⟨hfind, owner_registered hfind⟩

theorem BootstrapRun.neighbours_registered {i : ℕ} {nd : Node} (h : B.peers[i]? = some nd) :
    (∃ s ∈ B.all_info, s.Registered ∧ nd.scr = s.ip_port) ∧
      ∃ p ∈ B.all_info, p.Registered ∧ nd.pdr = p.ip_port := by
  have hpos := Nat.zero_lt_of_lt (peer_lt h)
  rw [getElem?_peers, Option.map_eq_some_iff] at h
  obtain ⟨nd', -, rfl⟩ := h
  exact ⟨addr_registered (Nat.mod_lt _ hpos), addr_registered (Nat.mod_lt _ hpos)⟩

theorem BootstrapRun.peer_printable {i : ℕ} {nd : Node} (h : B.peers[i]? = some nd) :
    nd.Printable := by
  obtain ⟨⟨s, -, hs, hscr⟩, p, -, hp, hpdr⟩ := neighbours_registered h
  refine ⟨hscr ▸ hs.space_notMem, hpdr ▸ hp.space_notMem,
    hpdr ▸ List.ne_nil_of_mem hp.colon_mem, fun it hit => ?_⟩
  obtain ⟨-, owner, -, hreg, hfile, howner⟩ := entry_registered h hit
  rw [Separable, ← howner]
  exact ⟨(hreg.file _ hfile).2.1, hreg.space_notMem, List.ne_nil_of_mem hreg.colon_mem⟩

theorem nul_notMem_replyText {i : ℕ} {nd : Node} (h : B.peers[i]? = some nd) :
    (0 : Byte) ∉ replyText nd := by
  obtain ⟨⟨s, -, hs, hscr⟩, p, -, hp, hpdr⟩ := BootstrapRun.neighbours_registered h
  have h0 : (0 : Byte) ≠ space := by decide
  simp only [replyText_eq, entriesText, List.mem_append, List.mem_cons, List.mem_flatMap, hscr,
    hpdr, hs.nul_notMem, hp.nul_notMem, h0, false_or, List.not_mem_nil, or_false, not_exists,
    not_and]
  intro it hit hmem
  obtain ⟨-, owner, -, hreg, hfile, howner⟩ := BootstrapRun.entry_registered h hit
  exact hmem.elim (hreg.file _ hfile).1 (howner ▸ hreg.nul_notMem)

theorem length_replyText_peer {i : ℕ} {nd : Node} (h : B.peers[i]? = some nd) :
    (replyText nd).length = replyLength B.all_info i := by
  have hkeys : (nd.myFileInfo.toList.map Prod.fst).toFinset =
      (registeredNames B.all_info).filter fun f =>
        home (B.all_info.map Node.node_id) (oatHash f) = i := by
    ext f
    rw [List.mem_toFinset, ← SortedMap.find?_ne_none, B.find?_peer h, Finset.mem_filter,
      mem_registeredNames, ← directory_find?_ne_none]
    show _ ↔ _ ∧ home B.ids (oatHash f) = i
    split_ifs with hhome
    · simp [hhome]
    · simp [hhome]
  have hsum : (entriesText nd.myFileInfo.toList).length =
      ∑ f ∈ (registeredNames B.all_info).filter fun f =>
          home (B.all_info.map Node.node_id) (oatHash f) = i,
        (f.length + (ownerOf B.all_info f).length + 2) := by
    rw [length_entriesText, ← hkeys, List.sum_toFinset _ nd.myFileInfo.keys_nodup, List.map_map]
    congr 1
    apply List.map_congr_left
    intro it hit
    obtain ⟨hfind, owner, hmem, -, hfile, -⟩ := BootstrapRun.entry_registered h hit
    have howner := hfind.symm.trans (directory_eq_ownerOf _ ⟨owner, hmem, hfile⟩)
    rw [Option.some.inj howner]
    rfl
  rw [length_replyText, hsum, replyLength]
  rw [BootstrapRun.getElem?_peers, Option.map_eq_some_iff] at h
  obtain ⟨nd', -, rfl⟩ := h
  rfl

end

/-! ## Replies that arrive whole -/

section
variable (inet_addr : Str → UInt32)

/-- The reply to `nd` fits the buffer of `__sendreq`, `__recvinfo` returns it whole, and the peer
starts from it with the neighbours and the table of `nd`. -/
def WholeReply (nd : Node) : Prop :=
  ∃ d, sendReply inet_addr nd = some d ∧ recvinfo d.payload = replyText nd ∧
    ∀ my_node : Node, my_node.myFileInfo = ∅ →
      parseStartup my_node (recvinfo d.payload) = my_node.startedAs nd

theorem WholeReply.length_le {nd : Node} (h : WholeReply inet_addr nd) :
    (replyText nd).length ≤ recvLen := by
  obtain ⟨d, -, hd, -⟩ := h
  rw [← hd]
  exact recvinfo_length_le _

/-- No entry of the tables that the placement loop fills is lost exactly if no reply is longer than what
`__recvinfo` reads. -/
theorem wholeReply_iff {payloads : List Str} (B : BootstrapRun payloads) :
    ∃ placed, placeFiles (link B.all_info) = some placed ∧
      ((∀ (i : ℕ) (nd : Node), placed[i]? = some nd → WholeReply inet_addr nd) ↔
        ∀ i < B.all_info.length, replyLength B.all_info i ≤ recvLen) := by
  refine ⟨B.peers, B.placeFiles_eq, ?_⟩
  constructor
  · intro h i hi
    obtain ⟨nd, hnd⟩ := BootstrapRun.exists_peer hi
    rw [← length_replyText_peer hnd]
    exact (h i nd hnd).length_le
  · intro h i nd hnd
    have hlen := h i (BootstrapRun.peer_lt hnd)
    rw [← length_replyText_peer hnd] at hlen
    have h0 := nul_notMem_replyText hnd
    refine ⟨_, sendreq_of_lt inet_addr _ _ h0 (hlen.trans_lt (by decide)), ?_, ?_⟩
    · exact recvinfo_of_le h0 hlen
    · intro my_node hmy
      rw [recvinfo_of_le h0 hlen]
      exact parseStartup_replyText (BootstrapRun.peer_printable hnd) hmy

end

/-! ## A crowded peer -/

def crowdedFiles : List Str :=
  (List.range 50).map fun k => bytes "file" ++ [(48 + k / 10).toUInt8, (48 + k % 10).toUInt8]

def crowdedPayloads : List Str :=
  [bytes "10.0.0.1 8001 50 " ++ crowdedFiles.flatMap fun f => f ++ [space]]

def crowdedNode : Node where
  ip := bytes "10.0.0.1"
  port := bytes "8001"
  ip_port := bytes "10.0.0.1:8001"
  node_id := oatHash (bytes "10.0.0.1:8001")
  myFile := crowdedFiles

def crowdedRun : BootstrapRun crowdedPayloads where
  nonempty := by decide
  nodes := [crowdedNode]
  registered := by decide +kernel
  all_info := [crowdedNode]
  stdSort := ⟨List.Perm.refl _, List.pairwise_singleton _ _⟩

/-- A registration of 367 bytes makes a reply of 1078. -/
theorem crowdedRun_not_whole :
    ¬ ∀ (payloads : List Str) (B : BootstrapRun payloads), (∀ p ∈ payloads, p.length ≤ recvLen) →
      ∀ placed, placeFiles (link B.all_info) = some placed →
        ∀ (i : ℕ) (nd : Node), placed[i]? = some nd → WholeReply dottedQuad nd := by
  intro h
  have hshort : ∀ p ∈ crowdedPayloads, p.length ≤ recvLen := by decide +kernel
  obtain ⟨nd, hnd⟩ := BootstrapRun.exists_peer (B := crowdedRun) (i := 0) Nat.zero_lt_one
  have hlen : replyLength crowdedRun.all_info 0 = 1078 := by decide +kernel
  have hread := (h _ crowdedRun hshort _ crowdedRun.placeFiles_eq 0 nd hnd).length_le
  rw [length_replyText_peer hnd, hlen] at hread
  exact absurd hread (by decide)

end ComputerNetworks.PeerRing
