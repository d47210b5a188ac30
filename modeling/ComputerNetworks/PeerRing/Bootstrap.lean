import ComputerNetworks.Library.ConsistentHash
import ComputerNetworks.PeerRing.Node

/-! # The bootstrap, `__init.cpp`

`main` collects `n` registrations, sorts the nodes by identifier, links them into a ring, stores
every registered file name at the node its hash maps to, and sends each node its neighbours and its
table. The first part of this file is that program, loop by loop; `std::sort` is any sorted
permutation, since it leaves the order of equal identifiers open. The second part is what it
computes: `placeFiles_eq` collapses the nested placement loop, with its table updates in
place, into one directory of names spread over the ring (`ConsistentHash.shardTable`).
-/
namespace ComputerNetworks.PeerRing
open ConsistentHash
set_option autoImplicit false

instance instLinearOrderId : LinearOrder UInt64 where
  le_refl := UInt64.le_refl
  le_trans _ _ _ := UInt64.le_trans
  lt_iff_le_not_ge a b := by
    simp only [UInt64.lt_iff_toNat_lt, UInt64.le_iff_toNat_le]
    omega
  le_antisymm _ _ := UInt64.le_antisymm
  le_total := UInt64.le_total
  toDecidableLE := inferInstance
  toDecidableLT := inferInstance
  toDecidableEq := inferInstance

/-! ## Registration -/

/-- The loop over the announced number of file names. `file` is a fresh string in every turn, so
a message that ends early yields empty names. -/
def readFiles : ℕ → IStringStream → List Str
  | 0, _ => []
  | nf + 1, iss =>
      let (file, iss) := getline iss [] space
      file :: readFiles nf iss

/-- One turn of the registration loop, after `__recvinfo`. Without a number in the third field
`nf` keeps an indeterminate value, which is `none`. -/
def readRegistration (msg : Str) : Option Node := do
  let (ip, iss) := getline (istringstream msg) [] space
  let (port, iss) := getline iss [] space
  let (nf_s, iss) := getline iss [] space
  let nd ← Node.setIpPort {} (ip ++ colon :: port)
  let nf ← sscanfD nf_s
  some { nd with myFile := readFiles nf.toNat iss }

/-- The registration loop over the datagrams that arrive on port 9090. -/
def registrations (payloads : List Str) : Option (List Node) :=
  payloads.mapM fun payload => readRegistration (recvinfo payload)

/-! ## Sorting and linking -/

/-- What `std::sort` with `operator<` leaves in the array. -/
structure StdSort (nodes all_info : List Node) : Prop where
  perm : all_info.Perm nodes
  sorted : all_info.Pairwise fun a b => ¬ b.node_id < a.node_id

def Node.setSuccessor (nd : Node) (ip : Str) : Node := { nd with scr := ip }

def Node.setPredecessor (nd : Node) (ip : Str) : Node := { nd with pdr := ip }

def ipPortAt (all_info : List Node) (i : ℕ) : Str := (all_info[i]?.map Node.ip_port).getD []

/-- The linking loop. It writes `scr` and `pdr` only and reads `ip_port` only. -/
def link (all_info : List Node) : List Node :=
  let n := all_info.length
  all_info.mapIdx fun i nd =>
    (nd.setSuccessor (ipPortAt all_info ((i + 1) % n))).setPredecessor
      (ipPortAt all_info ((i + n - 1) % n))

/-! ## File placement -/

/-- `map_file_to_node`: the index of the node, `none` for `NULL`. -/
def mapFileToNode (file_id_x : UInt64) (all_info : List Node) : Option ℕ :=
  let poss := (all_info.map Node.node_id).filter fun id => decide (file_id_x ≤ id)
  match poss.insertionSort (· ≤ ·) with
  | [] => some 0
  | p :: _ => all_info.findIdx? fun nd => decide (p = nd.node_id)

/-- The body of the inner placement loop: `dest->myFileInfo[file] = ip_port`. -/
def placeFile (ip_port : Str) (all_info : List Node) (file : Str) : Option (List Node) := do
  let ip_buf ← strcpy LEN file
  let dest ← mapFileToNode (oatHash ip_buf) all_info
  some (all_info.modify dest fun nd => { nd with myFileInfo := nd.myFileInfo.insert file ip_port })

/-- The inner placement loop, over the files of `all_info[i]`. -/
def placeNode (all_info : List Node) (i : ℕ) : Option (List Node) :=
  match all_info[i]? with
  | none => some all_info
  | some nd => nd.myFile.foldlM (placeFile nd.ip_port) all_info

/-- The nested placement loop. `none` is the `error("Hashing fails!")` exit. -/
def placeFiles (all_info : List Node) : Option (List Node) :=
  (List.range all_info.length).foldlM placeNode all_info

/-! ## Replies -/

/-- The text sent to a node: its neighbours, then its table in key order. -/
def replyText (nd : Node) : Str :=
  let msg := nd.myFileInfo.toList.foldl
    (fun msg it => msg ++ it.1 ++ [space] ++ it.2 ++ [space]) []
  nd.scr ++ [space] ++ nd.pdr ++ [space] ++ msg

/-- One turn of the sending loop. -/
def sendReply (inet_addr : Str → UInt32) (nd : Node) : Option Datagram :=
  sendreq inet_addr nd.ip (atoi nd.port) (replyText nd)

/-! ## What placement computes -/

/-- The assignments the placement loops make, in order: the files of the first node, then those of
the second, and so on. -/
def writes (all_info : List Node) : List (Str × Str) :=
  all_info.flatMap fun nd => nd.myFile.map fun file => (file, nd.ip_port)

def withTables (all_info : List Node) (T : ℕ → StrMap) : List Node :=
  all_info.mapIdx fun i nd => { nd with myFileInfo := T i }

@[simp] theorem length_withTables (A : List Node) (T : ℕ → StrMap) :
    (withTables A T).length = A.length := by simp [withTables]

@[simp] theorem getElem?_withTables (A : List Node) (T : ℕ → StrMap) (i : ℕ) :
    (withTables A T)[i]? = A[i]?.map fun nd => { nd with myFileInfo := T i } := by
  simp [withTables]

theorem map_node_id_withTables (A : List Node) (T : ℕ → StrMap) :
    (withTables A T).map Node.node_id = A.map Node.node_id := by
  apply List.ext_getElem?
  intro i
  simp [Function.comp_def]

/-- `map_file_to_node` finds the home of the hash and never returns `NULL`. -/
theorem mapFileToNode_eq (h : UInt64) (A : List Node) :
    mapFileToNode h A = some (home (A.map Node.node_id) h) := by
  set ids := A.map Node.node_id with hids
  have hidx : ∀ p, A.findIdx? (fun nd => decide (p = nd.node_id)) =
      ids.findIdx? fun id => decide (p = id) := by
    intro p
    rw [hids, List.findIdx?_map]
    rfl
  have hperm := List.perm_insertionSort (· ≤ ·) (ids.filter fun id => decide (h ≤ id))
  have hsorted := List.pairwise_insertionSort (· ≤ ·) (ids.filter fun id => decide (h ≤ id))
  simp only [mapFileToNode, hidx, ← hids]
  cases hposs : (ids.filter fun id => decide (h ≤ id)).insertionSort (· ≤ ·) with
  | nil =>
    rw [hposs] at hperm
    have hall : ∀ x ∈ ids, x < h := by
      intro x hx
      simpa using List.filter_eq_nil_iff.mp (List.nil_perm.mp hperm) x hx
    exact congrArg some (isHome_iff.mp (Or.inr ⟨rfl, hall⟩))
  | cons p rest =>
    rw [hposs] at hperm hsorted
    have hpmem : p ∈ ids ∧ h ≤ p := by
      simpa using hperm.subset List.mem_cons_self
    have hcov : Covers ids h p := by
      refine ⟨hpmem.2, fun x hx hhx => ?_⟩
      have hxp : x ∈ p :: rest := hperm.mem_iff.mpr (by simp [hx, hhx])
      obtain rfl | hxr := List.mem_cons.mp hxp
      · exact le_refl _
      · exact (List.pairwise_cons.mp hsorted).1 x hxr
    obtain ⟨k, hk, hidk, hbefore⟩ := findIdx?_unique (p := fun id => decide (p = id)) hpmem.1
      (by simp) fun x _ hx => (of_decide_eq_true hx).symm
    show ids.findIdx? _ = _
    rw [hk, isHome_iff.mp (Or.inl ⟨p, hidk, hcov, hbefore⟩)]

theorem modify_withTables (A : List Node) (T : ℕ → StrMap) (k : ℕ) (file ip_port : Str) :
    ((withTables A T).modify k fun nd =>
      { nd with myFileInfo := nd.myFileInfo.insert file ip_port }) =
      withTables A (Function.update T k ((T k).insert file ip_port)) := by
  apply List.ext_getElem?
  intro i
  rw [List.getElem?_modify, getElem?_withTables, getElem?_withTables]
  by_cases hik : k = i
  · subst hik
    cases A[k]? <;> simp
  · cases A[i]? <;> simp [hik, Function.update_of_ne (Ne.symm hik)]

def Fits (file : Str) : Prop := (0 : Byte) ∉ file ∧ file.length < LEN

theorem placeFile_withTables (A : List Node) (T : ℕ → StrMap) (ip_port : Str) {file : Str}
    (hf : Fits file) :
    placeFile ip_port (withTables A T) file = some (withTables A
      (Function.update T (home (A.map Node.node_id) (oatHash file))
        ((T (home (A.map Node.node_id) (oatHash file))).insert file ip_port))) := by
  simp only [placeFile, strcpy_of_lt hf.1 hf.2, mapFileToNode_eq, map_node_id_withTables,
    Option.bind_eq_bind, Option.bind_some, modify_withTables]

/-- The tables after a sequence of assignments: each goes to the home of its name. -/
def assignShards (ids : List UInt64) (T : ℕ → StrMap) (ws : List (Str × Str)) (i : ℕ) : StrMap :=
  (T i).assignAll (shard ids oatHash ws i)

@[simp] theorem assignShards_nil (ids : List UInt64) (T : ℕ → StrMap) :
    assignShards ids T [] = T := rfl

theorem assignShards_append (ids : List UInt64) (T : ℕ → StrMap) (ws ws' : List (Str × Str)) :
    assignShards ids T (ws ++ ws') = assignShards ids (assignShards ids T ws) ws' := by
  funext i
  simp only [assignShards, shard, List.filter_append, SortedMap.assignAll_append]

theorem assignShards_singleton (ids : List UInt64) (T : ℕ → StrMap) (file ip_port : Str) :
    assignShards ids T [(file, ip_port)] = Function.update T (home ids (oatHash file))
      ((T (home ids (oatHash file))).insert file ip_port) := by
  funext i
  by_cases hi : home ids (oatHash file) = i
  · subst hi
    simp [assignShards, shard]
  · simp [assignShards, shard, hi, Function.update_of_ne (Ne.symm hi)]

theorem foldlM_placeFile (A : List Node) (ip_port : Str) (files : List Str)
    (hf : ∀ f ∈ files, Fits f) (T : ℕ → StrMap) :
    files.foldlM (placeFile ip_port) (withTables A T) = some (withTables A
      (assignShards (A.map Node.node_id) T (files.map fun f => (f, ip_port)))) := by
  induction files generalizing T with
  | nil => simp
  | cons f files ih =>
    rw [List.foldlM_cons, placeFile_withTables A T ip_port (hf f List.mem_cons_self),
      Option.bind_eq_bind, Option.bind_some, ih fun g hg => hf g (List.mem_cons_of_mem _ hg),
      ← assignShards_singleton, ← assignShards_append, List.map_cons, List.singleton_append]

theorem foldlM_placeNode (A : List Node) (hf : ∀ nd ∈ A, ∀ f ∈ nd.myFile, Fits f)
    (T : ℕ → StrMap) (k : ℕ) (hk : k ≤ A.length) :
    (List.range k).foldlM placeNode (withTables A T) = some (withTables A
      (assignShards (A.map Node.node_id) T (writes (A.take k)))) := by
  induction k with
  | zero => simp [writes]
  | succ k ih =>
    obtain ⟨nd, hnd⟩ : ∃ nd, A[k]? = some nd := ⟨_, List.getElem?_eq_getElem hk⟩
    have hwrites : writes (A.take (k + 1)) =
        writes (A.take k) ++ nd.myFile.map fun f => (f, nd.ip_port) := by
      rw [writes, writes, List.take_add_one, hnd]
      simp
    rw [List.range_succ, List.foldlM_append, ih (Nat.le_of_succ_le hk), Option.bind_eq_bind,
      Option.bind_some]
    simp only [List.foldlM_cons, List.foldlM_nil, bind_pure]
    rw [placeNode, getElem?_withTables, hnd, Option.map_some]
    simp only [foldlM_placeFile A nd.ip_port nd.myFile (hf nd (List.mem_of_getElem? hnd)),
      hwrites, assignShards_append]

/-- The nested placement loop spreads the directory of all names over the nodes. -/
theorem placeFiles_eq (A : List Node) (hf : ∀ nd ∈ A, ∀ f ∈ nd.myFile, Fits f)
    (hempty : ∀ nd ∈ A, nd.myFileInfo = ∅) :
    placeFiles A = some (withTables A (shardTable (A.map Node.node_id) oatHash (writes A))) := by
  have hstart : withTables A (fun _ => ∅) = A := by
    apply List.ext_getElem?
    intro i
    rw [getElem?_withTables]
    cases hi : A[i]? with
    | none => rfl
    | some nd =>
      have := hempty nd (List.mem_of_getElem? hi)
      simp [← this]
  have h := foldlM_placeNode A hf (fun _ => ∅) A.length le_rfl
  rw [hstart, List.take_length] at h
  exact h

end ComputerNetworks.PeerRing
