import ComputerNetworks.PeerRing.Bootstrap

/-! # One run of the bootstrap, and where it puts the files

The purpose of the tables is one directory: every registered name belongs to the last node, in
sorted order, that registered it (`LastOwner`). `BootstrapRun.placeFiles_eq` says that the program
computes this directory spread over the ring by consistent hashing, and `placement_exact` spells
out what that means for the tables.
-/
namespace ComputerNetworks.PeerRing
open ConsistentHash
set_option autoImplicit false

/-! ## What a registration leaves in a node -/

/-- The facts about a node that the registration loop establishes. The lengths are bounded because
`__recvinfo` never returns more than 1000 bytes. -/
structure Node.Registered (nd : Node) : Prop where
  nul_notMem : (0 : Byte) ∉ nd.ip_port
  space_notMem : space ∉ nd.ip_port
  colon_mem : colon ∈ nd.ip_port
  length_le : nd.ip_port.length ≤ recvLen + 1
  ip_eq : nd.ip = (splitAddr nd.ip_port).1
  port_eq : nd.port = (splitAddr nd.ip_port).2
  node_id_eq : nd.node_id = oatHash nd.ip_port
  file : ∀ f ∈ nd.myFile, (0 : Byte) ∉ f ∧ space ∉ f ∧ f.length ≤ recvLen
  table : nd.myFileInfo = ∅
  pdr : nd.pdr = []

theorem readFiles_mem {nf : ℕ} {iss : IStringStream} {f : Str} (hf : f ∈ readFiles nf iss) :
    space ∉ f ∧ (∀ b ∈ f, b ∈ iss.rest) ∧ f.length ≤ iss.rest.length := by
  induction nf generalizing iss with
  | zero => simp [readFiles] at hf
  | succ nf ih =>
    rw [readFiles] at hf
    obtain rfl | hf := List.mem_cons.mp hf
    · refine ⟨delim_notMem_getline iss space, fun b hb => ?_, ?_⟩
      · exact (getline_subset hb).resolve_left (by simp)
      · exact (Nat.le_add_right _ _).trans (getline_length iss space)
    · obtain ⟨hsp, hsub, hlen⟩ := ih hf
      have hsuf := getline_rest_suffix iss [] space
      exact ⟨hsp, fun b hb => hsuf.subset (hsub b hb), hlen.trans hsuf.length_le⟩

theorem readRegistration_registered {msg : Str} {nd : Node} (h0 : (0 : Byte) ∉ msg)
    (hlen : msg.length ≤ recvLen) (h : readRegistration msg = some nd) : nd.Registered := by
  set r1 := getline (istringstream msg) [] space with hr1
  set r2 := getline r1.2 [] space with hr2
  set r3 := getline r2.2 [] space with hr3
  have hsuf1 : r1.2.rest <:+ msg := getline_rest_suffix _ _ _
  have hsuf3 : r3.2.rest <:+ msg :=
    (getline_rest_suffix _ _ _).trans ((getline_rest_suffix _ _ _).trans hsuf1)
  have hip : ∀ b ∈ r1.1, b ∈ msg := fun b hb => (getline_subset hb).resolve_left (by simp)
  have hport : ∀ b ∈ r2.1, b ∈ msg := fun b hb =>
    hsuf1.subset ((getline_subset hb).resolve_left (by simp))
  have hip_port : ∀ b ∈ r1.1 ++ colon :: r2.1, b = colon ∨ b ∈ msg := by
    intro b hb
    simp only [List.mem_append, List.mem_cons] at hb
    obtain hb | hb | hb := hb
    · exact Or.inr (hip b hb)
    · exact Or.inl hb
    · exact Or.inr (hport b hb)
  have hnul : (0 : Byte) ∉ r1.1 ++ colon :: r2.1 := fun hb =>
    (hip_port 0 hb).elim (by simp [colon]) h0
  have hspace : space ∉ r1.1 ++ colon :: r2.1 := by
    have h1 : space ∉ r1.1 := delim_notMem_getline _ _
    have h2 : space ∉ r2.1 := delim_notMem_getline _ _
    simp only [List.mem_append, List.mem_cons, h1, h2, or_false, false_or]
    decide
  have hlen1 : r1.1.length + r1.2.rest.length ≤ msg.length := getline_length _ _
  have hlen2 : r2.1.length + r2.2.rest.length ≤ r1.2.rest.length := getline_length _ _
  have hbound : (r1.1 ++ colon :: r2.1).length ≤ recvLen + 1 := by
    simp only [List.length_append, List.length_cons]
    omega
  have hset := Node.setIpPort_default hnul (hbound.trans_lt (by simp [recvLen, LEN]))
  have hread : readRegistration msg = (Node.setIpPort {} (r1.1 ++ colon :: r2.1)).bind fun nd =>
      (sscanfD r3.1).bind fun nf => some { nd with myFile := readFiles nf.toNat r3.2 } := rfl
  rw [hread, hset, Option.bind_some, Option.bind_eq_some_iff] at h
  obtain ⟨nf, -, hnd⟩ := h
  simp only [Option.some.injEq] at hnd
  subst hnd
  refine ⟨hnul, hspace, by simp, hbound, rfl, rfl, rfl, fun f hf => ?_, rfl, rfl⟩
  obtain ⟨hfsp, hfsub, hflen⟩ := readFiles_mem hf
  exact ⟨fun hb => h0 (hsuf3.subset (hfsub _ hb)), hfsp, hflen.trans (hsuf3.length_le.trans hlen)⟩

theorem mapM_eq_some {α β : Type} {f : α → Option β} {l : List α} {l' : List β}
    (h : l.mapM f = some l') : List.Forall₂ (fun a b => f a = some b) l l' := by
  induction l generalizing l' with
  | nil =>
    obtain rfl : [] = l' := by simpa using h
    exact .nil
  | cons a l ih =>
    simp only [List.mapM_cons, Option.pure_def, Option.bind_eq_bind, Option.bind_eq_some_iff,
      Option.some.injEq] at h
    obtain ⟨b, hb, bs, hbs, rfl⟩ := h
    exact .cons hb (ih hbs)

theorem registrations_length {payloads : List Str} {nodes : List Node}
    (h : registrations payloads = some nodes) : nodes.length = payloads.length :=
  (mapM_eq_some h).length_eq.symm

theorem registrations_registered {payloads : List Str} {nodes : List Node}
    (h : registrations payloads = some nodes) : ∀ nd ∈ nodes, nd.Registered := by
  intro nd hnd
  obtain ⟨i, hi, rfl⟩ := List.getElem_of_mem hnd
  have hp := (mapM_eq_some h).get (registrations_length h ▸ hi) hi
  exact readRegistration_registered (nul_notMem_recvinfo _) (recvinfo_length_le _) hp

/-! ## One run -/

/-- A run of `__init.cpp` up to the linking loop: the datagrams received on port 9090, the nodes
they register, and an order `std::sort` may leave them in. -/
structure BootstrapRun (payloads : List Str) where
  nonempty : payloads ≠ []
  nodes : List Node
  registered : registrations payloads = some nodes
  all_info : List Node
  stdSort : StdSort nodes all_info

variable {payloads : List Str} (B : BootstrapRun payloads)

namespace BootstrapRun

theorem length_all_info : B.all_info.length = payloads.length :=
  B.stdSort.perm.length_eq.trans (registrations_length B.registered)

theorem all_info_ne_nil : B.all_info ≠ [] := by
  rw [← List.length_pos_iff, B.length_all_info, List.length_pos_iff]
  exact B.nonempty

theorem all_info_registered : ∀ nd ∈ B.all_info, nd.Registered := fun nd hnd =>
  registrations_registered B.registered nd (B.stdSort.perm.mem_iff.mp hnd)

def ids : List UInt64 := B.all_info.map Node.node_id

end BootstrapRun

/-! ## Linking changes neither names nor identifiers -/

theorem getElem?_link (A : List Node) (i : ℕ) :
    (link A)[i]? = A[i]?.map fun nd =>
      { nd with
        scr := ipPortAt A ((i + 1) % A.length), pdr := ipPortAt A ((i + A.length - 1) % A.length) } := by
  simp only [link, List.getElem?_mapIdx]
  rfl

@[simp] theorem length_link (A : List Node) : (link A).length = A.length := by simp [link]

theorem map_link {γ : Type} (f : Node → γ)
    (hf : ∀ nd s p, f { nd with scr := s, pdr := p } = f nd) (A : List Node) :
    (link A).map f = A.map f := by
  apply List.ext_getElem?
  intro i
  rw [List.getElem?_map, List.getElem?_map, getElem?_link, Option.map_map]
  congr 1
  funext nd
  exact hf nd _ _

theorem writes_eq_of_map {A A' : List Node}
    (h : A.map (fun nd => (nd.myFile, nd.ip_port)) = A'.map fun nd => (nd.myFile, nd.ip_port)) :
    writes A = writes A' := by
  have key : ∀ A : List Node, writes A = (A.map fun nd => (nd.myFile, nd.ip_port)).flatMap
      fun p => p.1.map fun file => (file, p.2) := by
    intro A
    rw [writes, List.flatMap_map]
  rw [key, key, h]

theorem writes_link (A : List Node) : writes (link A) = writes A :=
  writes_eq_of_map (map_link _ (fun _ _ _ => rfl) A)

/-! ## The directory -/

def directory (all_info : List Node) : StrMap := SortedMap.assignAll ∅ (writes all_info)

/-- `owner` is the address of the last node of the list that shares `f`. -/
def LastOwner (all_info : List Node) (f owner : Str) : Prop :=
  ∃ pre nd post, all_info = pre ++ nd :: post ∧ f ∈ nd.myFile ∧ nd.ip_port = owner ∧
    ∀ nd' ∈ post, f ∉ nd'.myFile

theorem directory_concat (A : List Node) (nd : Node) (f : Str) :
    (directory (A ++ [nd])).find? f =
      if f ∈ nd.myFile then some nd.ip_port else (directory A).find? f := by
  have hwrites : writes (A ++ [nd]) = writes A ++ nd.myFile.map fun g => (g, nd.ip_port) := by
    simp [writes]
  rw [directory, hwrites, SortedMap.assignAll_append, SortedMap.find?_assignAll_const, directory]
  split_ifs <;> rfl

theorem lastOwner_concat {A : List Node} {nd : Node} {f owner : Str} :
    LastOwner (A ++ [nd]) f owner ↔
      if f ∈ nd.myFile then nd.ip_port = owner else LastOwner A f owner := by
  constructor
  · rintro ⟨pre, nd', post, hA, hmem, howner, hpost⟩
    obtain rfl | ⟨post', last, rfl⟩ := List.eq_nil_or_concat post
    · obtain ⟨rfl, hnd⟩ := List.append_inj' hA rfl
      obtain rfl : nd = nd' := by simpa using hnd
      rwa [if_pos hmem]
    · rw [List.concat_eq_append, ← List.cons_append, ← List.append_assoc] at hA
      obtain ⟨rfl, hlast⟩ := List.append_inj' hA rfl
      obtain rfl : nd = last := by simpa using hlast
      rw [if_neg (hpost nd (by simp))]
      exact ⟨pre, nd', post', rfl, hmem, howner, fun x hx => hpost x (by simp [hx])⟩
  · split_ifs with hf
    · rintro rfl
      exact ⟨A, nd, [], rfl, hf, rfl, by simp⟩
    · rintro ⟨pre, nd', post, rfl, hmem, howner, hpost⟩
      refine ⟨pre, nd', post ++ [nd], by simp, hmem, howner, fun x hx => ?_⟩
      cases List.mem_append.mp hx with
      | inl hx => exact hpost x hx
      | inr hx => rwa [List.mem_singleton.mp hx]

theorem directory_find?_eq_some {A : List Node} {f owner : Str} :
    (directory A).find? f = some owner ↔ LastOwner A f owner := by
  induction A using List.reverseRecOn with
  | nil => simp [directory, writes, LastOwner]
  | append_singleton A nd ih =>
    rw [directory_concat, lastOwner_concat]
    split_ifs
    · simp
    · exact ih

def IsRegistered (all_info : List Node) (f : Str) : Prop := ∃ nd ∈ all_info, f ∈ nd.myFile

theorem directory_find?_ne_none {A : List Node} {f : Str} :
    (directory A).find? f ≠ none ↔ IsRegistered A f := by
  rw [directory, SortedMap.find?_assignAll_ne_none]
  simp [writes, IsRegistered]

/-! ## Placement -/

namespace BootstrapRun

def peers : List Node :=
  withTables (link B.all_info) (shardTable B.ids oatHash (writes B.all_info))

theorem placeFiles_eq : placeFiles (link B.all_info) = some B.peers := by
  have hlinked : ∀ nd ∈ link B.all_info, ∃ nd' ∈ B.all_info,
      nd.myFile = nd'.myFile ∧ nd.myFileInfo = nd'.myFileInfo := by
    intro nd hnd
    obtain ⟨i, hi⟩ := List.mem_iff_getElem?.mp hnd
    rw [getElem?_link, Option.map_eq_some_iff] at hi
    obtain ⟨nd', hnd', rfl⟩ := hi
    exact ⟨nd', List.mem_of_getElem? hnd', rfl, rfl⟩
  have hfits : ∀ nd ∈ link B.all_info, ∀ f ∈ nd.myFile, Fits f := by
    intro nd hnd f hf
    obtain ⟨nd', hnd', hfile, -⟩ := hlinked nd hnd
    obtain ⟨h0, -, hlen⟩ := (B.all_info_registered nd' hnd').file f (hfile ▸ hf)
    exact ⟨h0, hlen.trans_lt (by simp [recvLen, LEN])⟩
  have hempty : ∀ nd ∈ link B.all_info, nd.myFileInfo = ∅ := by
    intro nd hnd
    obtain ⟨nd', hnd', -, htable⟩ := hlinked nd hnd
    rw [htable, (B.all_info_registered nd' hnd').table]
  rw [PeerRing.placeFiles_eq _ hfits hempty, peers, map_link _ (fun _ _ _ => rfl), writes_link]
  rfl

@[simp] theorem length_peers : B.peers.length = B.all_info.length := by simp [peers]

theorem getElem?_peers (i : ℕ) : B.peers[i]? = B.all_info[i]?.map fun nd =>
    { nd with
      scr := ipPortAt B.all_info ((i + 1) % B.all_info.length)
      pdr := ipPortAt B.all_info ((i + B.all_info.length - 1) % B.all_info.length)
      myFileInfo := shardTable B.ids oatHash (writes B.all_info) i } := by
  rw [peers, getElem?_withTables, getElem?_link, Option.map_map]
  rfl

theorem find?_peer {i : ℕ} {nd : Node} (h : B.peers[i]? = some nd) (f : Str) :
    nd.myFileInfo.find? f =
      if home B.ids (oatHash f) = i then (directory B.all_info).find? f else none := by
  rw [getElem?_peers, Option.map_eq_some_iff] at h
  obtain ⟨nd', -, rfl⟩ := h
  exact find?_shardTable _ _ _ _ _

theorem home_lt (h : UInt64) : home B.ids h < B.peers.length := by
  have hne : B.ids ≠ [] := by simpa [ids] using B.all_info_ne_nil
  simpa [ids] using ConsistentHash.home_lt hne h

end BootstrapRun

/-- The tables of `placed` partition the registered names of `all_info` by clockwise successor. -/
structure ExactPlacement (all_info placed : List Node) : Prop where
  length_eq : placed.length = all_info.length
  never_null : ∀ file_id_x, mapFileToNode file_id_x all_info ≠ none
  /-- A registered name is a key at its home and nowhere else. -/
  at_home : ∀ f, IsRegistered all_info f → ∃ i < placed.length,
    IsHome (all_info.map Node.node_id) (oatHash f) i ∧
      ∀ (j : ℕ) (nd : Node), placed[j]? = some nd → (nd.myFileInfo.find? f ≠ none ↔ j = i)
  registered : ∀ (j : ℕ) (nd : Node) (f : Str), placed[j]? = some nd →
    nd.myFileInfo.find? f ≠ none → IsRegistered all_info f
  owner : ∀ (j : ℕ) (nd : Node) (f owner : Str), placed[j]? = some nd →
    nd.myFileInfo.find? f = some owner → LastOwner all_info f owner

/-- Whatever was registered and however `std::sort` ordered it, placement succeeds and is exact. -/
theorem placement_exact :
    ∃ placed, placeFiles (link B.all_info) = some placed ∧ ExactPlacement B.all_info placed := by
  refine ⟨B.peers, B.placeFiles_eq, B.length_peers, fun h => by simp [mapFileToNode_eq], ?_, ?_, ?_⟩
  · intro f hf
    refine ⟨home B.ids (oatHash f), B.home_lt _, isHome_home _ _, fun j nd hj => ?_⟩
    rw [B.find?_peer hj]
    split_ifs with hi
    · exact ⟨fun _ => hi.symm, fun _ => directory_find?_ne_none.mpr hf⟩
    · exact ⟨fun h => absurd rfl h, fun h => absurd h.symm hi⟩
  · intro j nd f hj hfind
    rw [B.find?_peer hj] at hfind
    split_ifs at hfind
    · exact directory_find?_ne_none.mp hfind
    · exact absurd rfl hfind
  · intro j nd f owner hj hfind
    rw [B.find?_peer hj] at hfind
    split_ifs at hfind
    exact directory_find?_eq_some.mp hfind

/-! ## The peers of a bootstrap run -/

namespace BootstrapRun
def addr (i : ℕ) : Str := ipPortAt B.all_info i

variable {B}

theorem exists_peer {i : ℕ} (hi : i < B.all_info.length) :
    ∃ nd, B.peers[i]? = some nd :=
  ⟨_, List.getElem?_eq_getElem (B.length_peers.symm ▸ hi)⟩

theorem peer_lt {i : ℕ} {nd : Node} (h : B.peers[i]? = some nd) : i < B.all_info.length :=
  B.length_peers ▸ (List.getElem?_eq_some_iff.mp h).1

theorem peer_ip_port {i : ℕ} {nd : Node} (h : B.peers[i]? = some nd) : nd.ip_port = B.addr i := by
  rw [getElem?_peers, Option.map_eq_some_iff] at h
  obtain ⟨nd', hnd', rfl⟩ := h
  simp [addr, ipPortAt, hnd']

theorem peer_scr {i : ℕ} {nd : Node} (h : B.peers[i]? = some nd) :
    nd.scr = B.addr ((i + 1) % B.all_info.length) := by
  rw [getElem?_peers, Option.map_eq_some_iff] at h
  obtain ⟨nd', -, rfl⟩ := h
  rfl

theorem addr_registered {i : ℕ} (hi : i < B.all_info.length) :
    ∃ nd ∈ B.all_info, nd.Registered ∧ B.addr i = nd.ip_port := by
  obtain ⟨nd, hnd⟩ : ∃ nd, B.all_info[i]? = some nd := ⟨_, List.getElem?_eq_getElem hi⟩
  have hmem := List.mem_of_getElem? hnd
  exact ⟨nd, hmem, B.all_info_registered nd hmem, by simp [addr, ipPortAt, hnd]⟩

theorem isRegistered_peers {f : Str} : IsRegistered B.peers f ↔ IsRegistered B.all_info f := by
  have hfiles : B.peers.map Node.myFile = B.all_info.map Node.myFile := by
    apply List.ext_getElem?
    intro i
    rw [List.getElem?_map, List.getElem?_map, getElem?_peers, Option.map_map]
    rfl
  have key : ∀ A : List Node, IsRegistered A f ↔ ∃ files ∈ A.map Node.myFile, f ∈ files := by
    intro A
    simp [IsRegistered]
  rw [key, key, hfiles]

theorem registered_file {f : Str} (h : IsRegistered B.all_info f) :
    (0 : Byte) ∉ f ∧ space ∉ f ∧ f.length ≤ recvLen := by
  obtain ⟨nd, hnd, hf⟩ := h
  exact (B.all_info_registered nd hnd).file f hf

theorem find?_peer_eq_some {i : ℕ} {nd : Node} (h : B.peers[i]? = some nd) {f owner : Str}
    (hfind : nd.myFileInfo.find? f = some owner) :
    (directory B.all_info).find? f = some owner := by
  rw [B.find?_peer h] at hfind
  split_ifs at hfind
  exact hfind

theorem owner_registered {f owner : Str} (h : (directory B.all_info).find? f = some owner) :
    ∃ nd ∈ B.all_info, nd.Registered ∧ f ∈ nd.myFile ∧ nd.ip_port = owner := by
  obtain ⟨pre, nd, post, hA, hf, howner, -⟩ := directory_find?_eq_some.mp h
  have hmem : nd ∈ B.all_info := hA ▸ List.mem_append_right _ List.mem_cons_self
  exact ⟨nd, hmem, B.all_info_registered nd hmem, hf, howner⟩

end BootstrapRun

/-! ## A ring of two -/

def pairPayloads : List Str := [bytes "10.0.0.1 8001 1 a ", bytes "10.0.0.2 8002 1 b "]

def pairNodes : List Node := (registrations pairPayloads).getD []

/-- Two peers that share one file each. The second has the smaller identifier, and both files live
there. -/
def pairRun : BootstrapRun pairPayloads where
  nonempty := by decide
  nodes := pairNodes
  registered := by
    have : (registrations pairPayloads).isSome = true := by decide +kernel
    obtain ⟨nodes, h⟩ := Option.isSome_iff_exists.mp this
    rw [pairNodes, h]
    rfl
  all_info := pairNodes.reverse
  stdSort := ⟨List.reverse_perm _, by decide +kernel⟩

end ComputerNetworks.PeerRing
