import ComputerNetworks.PeerRing.Placement

/-! # The links form one ring

`scr` and `pdr` hold addresses, not positions, so a link leads to whichever node has that address.
With distinct addresses the links of the bootstrap lead through all nodes in sorted order and back to
the start, and the two directions undo each other.
-/
namespace ComputerNetworks.PeerRing
set_option autoImplicit false

/-! ## Following links -/

def nodeAt (linked : List Node) (addr : Str) : Option Node :=
  linked.find? fun nd => nd.ip_port = addr

def follow (linked : List Node) : ℕ → Node → Option Node
  | 0, nd => some nd
  | k + 1, nd => (nodeAt linked nd.scr).bind (follow linked k)

theorem nodeAt_of_getElem? {linked : List Node} (hdist : (linked.map Node.ip_port).Nodup) {i : ℕ}
    {nd : Node} (h : linked[i]? = some nd) : nodeAt linked nd.ip_port = some nd := by
  have hmem := List.mem_of_getElem? h
  obtain ⟨nd', hnd'⟩ : ∃ nd', nodeAt linked nd.ip_port = some nd' :=
    Option.isSome_iff_exists.mp (List.find?_isSome.mpr ⟨nd, hmem, by simp⟩)
  have haddr : nd'.ip_port = nd.ip_port := by
    have hfound := List.find?_some hnd'
    simpa using hfound
  rw [hnd', List.inj_on_of_nodup_map hdist (List.mem_of_find?_eq_some hnd') hmem haddr]

section
variable {all_info : List Node}

theorem exists_getElem?_link {i : ℕ} (hi : i < all_info.length) :
    ∃ nd, (link all_info)[i]? = some nd :=
  ⟨_, List.getElem?_eq_getElem (by rwa [length_link])⟩

theorem ipPortAt_eq {i : ℕ} {nd : Node} (h : (link all_info)[i]? = some nd) :
    ipPortAt all_info i = nd.ip_port := by
  rw [getElem?_link, Option.map_eq_some_iff] at h
  obtain ⟨nd', hnd', rfl⟩ := h
  simp [ipPortAt, hnd']

theorem scr_link {i j : ℕ} {nd nd' : Node} (h : (link all_info)[i]? = some nd)
    (h' : (link all_info)[j]? = some nd') (hij : j = (i + 1) % all_info.length) :
    nd.scr = nd'.ip_port := by
  rw [← ipPortAt_eq h', hij]
  rw [getElem?_link, Option.map_eq_some_iff] at h
  obtain ⟨nd₀, -, rfl⟩ := h
  rfl

theorem pdr_link {i j : ℕ} {nd nd' : Node} (h : (link all_info)[i]? = some nd)
    (h' : (link all_info)[j]? = some nd') (hij : j = (i + all_info.length - 1) % all_info.length) :
    nd.pdr = nd'.ip_port := by
  rw [← ipPortAt_eq h', hij]
  rw [getElem?_link, Option.map_eq_some_iff] at h
  obtain ⟨nd₀, -, rfl⟩ := h
  rfl

/-- One step back undoes one step forward, also in rings of one and two nodes. -/
theorem pred_succ_mod {i n : ℕ} (hi : i < n) : ((i + 1) % n + n - 1) % n = i := by
  obtain h | h : i + 1 < n ∨ i + 1 = n := by omega
  · rw [Nat.mod_eq_of_lt h, show i + 1 + n - 1 = i + n by omega, Nat.add_mod_right,
      Nat.mod_eq_of_lt hi]
  · rw [h, Nat.mod_self, Nat.zero_add, Nat.mod_eq_of_lt (by omega)]
    omega

theorem succ_pred_mod {i n : ℕ} (hi : i < n) : ((i + n - 1) % n + 1) % n = i := by
  rw [Nat.mod_add_mod, show i + n - 1 + 1 = i + n by omega, Nat.add_mod_right, Nat.mod_eq_of_lt hi]

theorem link_distinct (hdist : (all_info.map Node.ip_port).Nodup) :
    ((link all_info).map Node.ip_port).Nodup := by
  rwa [map_link Node.ip_port fun _ _ _ => rfl]

theorem lt_of_getElem?_link {i : ℕ} {nd : Node} (h : (link all_info)[i]? = some nd) :
    i < all_info.length := by
  have hlt := (List.getElem?_eq_some_iff.mp h).1
  rwa [length_link] at hlt

/-- Following `k` links from position `i` leads to position `i + k`, counted around the ring. -/
theorem follow_link (hdist : (all_info.map Node.ip_port).Nodup) {i k : ℕ} {nd : Node}
    (h : (link all_info)[i]? = some nd) :
    follow (link all_info) k nd = (link all_info)[(i + k) % all_info.length]? := by
  induction k generalizing i nd with
  | zero =>
    rw [Nat.add_zero, Nat.mod_eq_of_lt (lt_of_getElem?_link h), h]
    rfl
  | succ k ih =>
    have hpos := Nat.zero_lt_of_lt (lt_of_getElem?_link h)
    obtain ⟨nd', hnd'⟩ := exists_getElem?_link (Nat.mod_lt (i + 1) hpos)
    rw [follow, scr_link h hnd' rfl, nodeAt_of_getElem? (link_distinct hdist) hnd', Option.bind_some,
      ih hnd', Nat.mod_add_mod]
    congr 2
    omega

theorem map_follow_link (hdist : (all_info.map Node.ip_port).Nodup) {i : ℕ} {nd : Node}
    (h : (link all_info)[i]? = some nd) :
    ((List.range (link all_info).length).map fun k => follow (link all_info) k nd) =
      ((link all_info).rotate i).map some := by
  apply List.ext_getElem?
  intro k
  rw [List.getElem?_map, List.getElem?_map]
  by_cases hk : k < (link all_info).length
  · have hpos := Nat.zero_lt_of_lt (lt_of_getElem?_link h)
    obtain ⟨nd', hnd'⟩ := exists_getElem?_link (Nat.mod_lt (i + k) hpos)
    rw [List.getElem?_range hk, List.getElem?_rotate hk, Option.map_some, follow_link hdist h,
      length_link, Nat.add_comm k i, hnd']
    rfl
  · rw [List.getElem?_eq_none (by simpa using hk), List.getElem?_eq_none (by simpa using hk)]
    rfl

theorem exists_pdr_of_scr (hdist : (all_info.map Node.ip_port).Nodup) {i : ℕ} {nd : Node}
    (h : (link all_info)[i]? = some nd) :
    ∃ nd', nodeAt (link all_info) nd.scr = some nd' ∧ nd'.pdr = nd.ip_port := by
  have hi := lt_of_getElem?_link h
  obtain ⟨nd', hnd'⟩ := exists_getElem?_link (Nat.mod_lt (i + 1) (Nat.zero_lt_of_lt hi))
  refine ⟨nd', ?_, pdr_link hnd' h (pred_succ_mod hi).symm⟩
  rw [scr_link h hnd' rfl]
  exact nodeAt_of_getElem? (link_distinct hdist) hnd'

theorem exists_scr_of_pdr (hdist : (all_info.map Node.ip_port).Nodup) {i : ℕ} {nd : Node}
    (h : (link all_info)[i]? = some nd) :
    ∃ nd', nodeAt (link all_info) nd.pdr = some nd' ∧ nd'.scr = nd.ip_port := by
  have hi := lt_of_getElem?_link h
  obtain ⟨nd', hnd'⟩ :=
    exists_getElem?_link (Nat.mod_lt (i + all_info.length - 1) (Nat.zero_lt_of_lt hi))
  refine ⟨nd', ?_, scr_link hnd' h (succ_pred_mod hi).symm⟩
  rw [pdr_link h hnd' rfl]
  exact nodeAt_of_getElem? (link_distinct hdist) hnd'

theorem node_id_le_of_scr {nodes : List Node} (hsort : StdSort nodes all_info)
    (hdist : (all_info.map Node.ip_port).Nodup) {i : ℕ} (hi : i + 1 < all_info.length)
    {nd nd' : Node} (h : (link all_info)[i]? = some nd)
    (hnext : nodeAt (link all_info) nd.scr = some nd') : nd.node_id ≤ nd'.node_id := by
  obtain ⟨nd'', hnd''⟩ := exists_getElem?_link hi
  rw [scr_link h hnd'' (Nat.mod_eq_of_lt hi).symm,
    nodeAt_of_getElem? (link_distinct hdist) hnd''] at hnext
  obtain rfl := Option.some.inj hnext
  -- linking leaves the identifiers of the sorted nodes as they are
  rw [getElem?_link, Option.map_eq_some_iff] at h hnd''
  obtain ⟨a, ha, rfl⟩ := h
  obtain ⟨b, hb, rfl⟩ := hnd''
  obtain ⟨hi', rfl⟩ := List.getElem?_eq_some_iff.mp ha
  obtain ⟨hi'', rfl⟩ := List.getElem?_eq_some_iff.mp hb
  have hle := List.pairwise_iff_getElem.mp hsort.sorted i (i + 1) hi' hi'' (Nat.lt_succ_self i)
  exact not_lt.mp hle

end

/-! ## One ring -/

/-- The links of `linked` visit every node once and return, `pdr` undoes `scr` and `scr` undoes
`pdr`, and identifiers do not decrease along `scr` before the last position. -/
structure OneRing (linked : List Node) : Prop where
  visits : ∀ nd ∈ linked,
    ((List.range linked.length).map fun k => follow linked k nd).Perm (linked.map some)
  returns : ∀ nd ∈ linked, follow linked linked.length nd = some nd
  pdr_scr : ∀ nd ∈ linked, ∃ nd', nodeAt linked nd.scr = some nd' ∧ nd'.pdr = nd.ip_port
  scr_pdr : ∀ nd ∈ linked, ∃ nd', nodeAt linked nd.pdr = some nd' ∧ nd'.scr = nd.ip_port
  ascending : ∀ (i : ℕ) (nd nd' : Node), i + 1 < linked.length → linked[i]? = some nd →
    nodeAt linked nd.scr = some nd' → nd.node_id ≤ nd'.node_id

/-- Sorting and linking nodes with distinct addresses makes one ring of them. -/
theorem link_oneRing {nodes all_info : List Node} (hsort : StdSort nodes all_info)
    (hdist : (nodes.map Node.ip_port).Nodup) :
    (link all_info).length = nodes.length ∧ OneRing (link all_info) := by
  have hdist' : (all_info.map Node.ip_port).Nodup :=
    (hsort.perm.map Node.ip_port).nodup_iff.mpr hdist
  refine ⟨(length_link all_info).trans hsort.perm.length_eq, ?_, ?_, ?_, ?_, ?_⟩
  · intro nd hnd
    obtain ⟨i, hi⟩ := List.mem_iff_getElem?.mp hnd
    rw [map_follow_link hdist' hi]
    exact (List.rotate_perm _ i).map some
  · intro nd hnd
    obtain ⟨i, hi⟩ := List.mem_iff_getElem?.mp hnd
    rw [follow_link hdist' hi, length_link, Nat.add_mod_right,
      Nat.mod_eq_of_lt (lt_of_getElem?_link hi), hi]
  · intro nd hnd
    obtain ⟨i, hi⟩ := List.mem_iff_getElem?.mp hnd
    exact exists_pdr_of_scr hdist' hi
  · intro nd hnd
    obtain ⟨i, hi⟩ := List.mem_iff_getElem?.mp hnd
    exact exists_scr_of_pdr hdist' hi
  · intro i nd nd' hi hnd hnext
    rw [length_link] at hi
    exact node_id_le_of_scr hsort hdist' hi hnd hnext

theorem link_oneRing_pair :
    (link pairRun.all_info).length = pairRun.nodes.length ∧ OneRing (link pairRun.all_info) :=
  link_oneRing pairRun.stdSort (by decide +kernel)

end ComputerNetworks.PeerRing
