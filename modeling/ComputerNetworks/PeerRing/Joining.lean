import ComputerNetworks.PeerRing.Registration

/-! # One peer more

The bootstrap starts from nothing every time it runs. `joining_moves` compares a run with one in which one
more peer registers, at any place among the others: between its two neighbours the newcomer is linked in,
and of the names it does not share itself it takes over some of its successor's, with their owners.
Nothing else changes for the peers that were there before.
-/
namespace ComputerNetworks.PeerRing
open ConsistentHash
set_option autoImplicit false

/-! ## The sorted nodes -/

section
variable {payloads payloads' : List Str} {registration : Str}

theorem exists_newcomer (B : BootstrapRun payloads) (B' : BootstrapRun payloads')
    (hp : payloads'.Perm (registration :: payloads)) (hids : (B'.nodes.map Node.node_id).Nodup) :
    ∃ pre newcomer post, B'.all_info = pre ++ newcomer :: post ∧ B.all_info = pre ++ post ∧
      readRegistration (recvinfo registration) = some newcomer := by
  have hread := hp.map fun payload => readRegistration (recvinfo payload)
  rw [registrations_eq_some.mp B'.registered, List.map_cons,
    registrations_eq_some.mp B.registered] at hread
  obtain ⟨newcomer, -, hnew⟩ := List.mem_map.mp (hread.mem_iff.mpr List.mem_cons_self)
  rw [← hnew, ← List.map_cons, List.map_perm_map_iff (Option.some_injective Node)] at hread
  have hall : B'.all_info.Perm (newcomer :: B.all_info) :=
    (B'.stdSort.perm.trans hread).trans (B.stdSort.perm.symm.cons newcomer)
  obtain ⟨pre, post, hsplit⟩ := List.append_of_mem (hall.mem_iff.mpr List.mem_cons_self)
  rw [hsplit] at hall
  have hrest : (pre ++ post).Perm B.all_info := (List.perm_middle.symm.trans hall).cons_inv
  have hsort : StdSort B.nodes (pre ++ post) := by
    refine ⟨hrest.trans B.stdSort.perm, ?_⟩
    have hsorted := B'.stdSort.sorted
    rw [hsplit] at hsorted
    exact hsorted.sublist ((List.sublist_cons_self newcomer post).append_left pre)
  have hids' : (B.nodes.map Node.node_id).Nodup :=
    (List.nodup_cons.mp ((hread.map Node.node_id).nodup_iff.mp hids)).2
  exact ⟨pre, newcomer, post, hsplit,
    (hsort.unique B.stdSort (List.Perm.refl _) hids').symm, hnew.symm⟩

theorem ids_strictly_sorted (B : BootstrapRun payloads) (hids : (B.nodes.map Node.node_id).Nodup) :
    B.ids.Pairwise (· < ·) := by
  have hnodup : B.ids.Nodup := (B.stdSort.perm.map Node.node_id).nodup_iff.mpr hids
  have hsorted : B.ids.Pairwise (· ≤ ·) :=
    List.pairwise_map.mpr (B.stdSort.sorted.imp fun hab => not_lt.mp hab)
  exact hsorted.imp₂ (fun _ _ hle hne => lt_of_le_of_ne hle hne) hnodup

end

/-! ## Positions -/

theorem skip_cases (p i : ℕ) : i < p ∧ skip p i = i ∨ p ≤ i ∧ skip p i = i + 1 := by
  rw [skip]
  split_ifs with h
  · exact Or.inl ⟨h, rfl⟩
  · exact Or.inr ⟨not_lt.mp h, rfl⟩

theorem skip_injective (p : ℕ) : Function.Injective (skip p) := by
  intro i j h
  have hi := skip_cases p i
  have hj := skip_cases p j
  omega

theorem skip_ne (p i : ℕ) : skip p i ≠ p := by
  have hi := skip_cases p i
  omega

theorem writes_append (A A' : List Node) : writes (A ++ A') = writes A ++ writes A' := by
  simp [writes]

/-- The owner of a name that the newcomer does not share. -/
theorem directory_insert {pre post : List Node} {newcomer : Node} {f : Str} (hf : f ∉ newcomer.myFile) :
    (directory (pre ++ newcomer :: post)).find? f = (directory (pre ++ post)).find? f := by
  have hnot : f ∉ (writes [newcomer]).map Prod.fst := by
    simpa [writes] using hf
  have hsplit : writes (pre ++ newcomer :: post) = writes pre ++ writes [newcomer] ++ writes post := by
    rw [List.append_cons, writes_append, writes_append]
  rw [directory, directory, hsplit, SortedMap.find?_assignAll_middle hnot, writes_append]

theorem mod_cases {a n : ℕ} (h : a ≤ n) : a = n ∧ a % n = 0 ∨ a < n ∧ a % n = a := by
  obtain rfl | hlt := Nat.eq_or_lt_of_le h
  · exact Or.inl ⟨rfl, Nat.mod_self a⟩
  · exact Or.inr ⟨hlt, Nat.mod_eq_of_lt hlt⟩

theorem pred_mod_cases {a n : ℕ} (h : a < n) :
    a = 0 ∧ (a + n - 1) % n = n - 1 ∨ 0 < a ∧ (a + n - 1) % n = a - 1 := by
  obtain rfl | hpos := Nat.eq_zero_or_pos a
  · exact Or.inl ⟨rfl, by rw [Nat.zero_add, Nat.mod_eq_of_lt (by omega)]⟩
  · refine Or.inr ⟨hpos, ?_⟩
    rw [show a + n - 1 = a - 1 + n by omega, Nat.add_mod_right, Nat.mod_eq_of_lt (by omega)]

/-- The position after an old one, in the bigger ring. -/
theorem skip_succ_mod {p n i : ℕ} (hp : p ≤ n) (hi : i < n) :
    (skip p i + 1) % (n + 1) = if (i + 1) % n = p % n then p else skip p ((i + 1) % n) := by
  have hskip := skip_cases p i
  have hnext := skip_cases p ((i + 1) % n)
  have hsucc' := mod_cases (show skip p i + 1 ≤ n + 1 by omega)
  have hsucc := mod_cases (show i + 1 ≤ n by omega)
  have hnew := mod_cases hp
  split_ifs <;> omega

/-- The position before an old one, in the bigger ring. -/
theorem skip_pred_mod {p n i : ℕ} (hp : p ≤ n) (hi : i < n) :
    (skip p i + (n + 1) - 1) % (n + 1) = if i = p % n then p else skip p ((i + n - 1) % n) := by
  have hskip := skip_cases p i
  have hprevious := skip_cases p ((i + n - 1) % n)
  have hpred' := pred_mod_cases (show skip p i < n + 1 by omega)
  have hpred := pred_mod_cases hi
  have hnew := mod_cases hp
  split_ifs <;> omega

section
variable (pre post : List Node) (newcomer : Node)

theorem ipPortAt_skip (i : ℕ) :
    ipPortAt (pre ++ newcomer :: post) (skip pre.length i) = ipPortAt (pre ++ post) i := by
  rw [ipPortAt, getElem?_skip, ipPortAt]

theorem ipPortAt_new : ipPortAt (pre ++ newcomer :: post) pre.length = newcomer.ip_port := by
  rw [ipPortAt, getElem?_new]
  rfl

theorem ipPortAt_succ_insert {i : ℕ} (hi : i < (pre ++ post).length) :
    ipPortAt (pre ++ newcomer :: post) ((skip pre.length i + 1) % (pre ++ newcomer :: post).length) =
      if (i + 1) % (pre ++ post).length = pre.length % (pre ++ post).length then newcomer.ip_port
      else ipPortAt (pre ++ post) ((i + 1) % (pre ++ post).length) := by
  have hlength : (pre ++ newcomer :: post).length = (pre ++ post).length + 1 := by simp; omega
  rw [hlength, skip_succ_mod (by simp) hi]
  split_ifs
  · exact ipPortAt_new pre post newcomer
  · exact ipPortAt_skip pre post newcomer _

theorem ipPortAt_pred_insert {i : ℕ} (hi : i < (pre ++ post).length) :
    ipPortAt (pre ++ newcomer :: post)
        ((skip pre.length i + (pre ++ newcomer :: post).length - 1) %
          (pre ++ newcomer :: post).length) =
      if i = pre.length % (pre ++ post).length then newcomer.ip_port
      else ipPortAt (pre ++ post) ((i + (pre ++ post).length - 1) % (pre ++ post).length) := by
  have hlength : (pre ++ newcomer :: post).length = (pre ++ post).length + 1 := by simp; omega
  rw [hlength, skip_pred_mod (by simp) hi]
  split_ifs
  · exact ipPortAt_new pre post newcomer
  · exact ipPortAt_skip pre post newcomer _

end

/-! ## The tables -/

section
variable {payloads payloads' : List Str} {registration : Str} {B : BootstrapRun payloads}
  {B' : BootstrapRun payloads'}

/-- An old peer keeps an entry, or is the newcomer's successor and hands it over. -/
theorem find?_insert_peer {pre post : List Node} {newcomer : Node}
    (hB' : B'.all_info = pre ++ newcomer :: post) (hB : B.all_info = pre ++ post)
    (hsorted : B'.ids.Pairwise (· < ·)) {f : Str} (hf : f ∉ newcomer.myFile) {i : ℕ} {nd nd' new : Node}
    (hnd : B.peers[i]? = some nd) (hnd' : B'.peers[skip pre.length i]? = some nd')
    (hnew : B'.peers[pre.length]? = some new) :
    (nd'.myFileInfo.find? f = nd.myFileInfo.find? f ∧
        (i = pre.length % B.all_info.length → new.myFileInfo.find? f = none)) ∨
      i = pre.length % B.all_info.length ∧ nd'.myFileInfo.find? f = none ∧
        new.myFileInfo.find? f = nd.myFileInfo.find? f := by
  have hids' : B'.ids = pre.map Node.node_id ++ newcomer.node_id :: post.map Node.node_id := by
    rw [BootstrapRun.ids, hB', List.map_append, List.map_cons]
  have hids : B.ids = pre.map Node.node_id ++ post.map Node.node_id := by
    rw [BootstrapRun.ids, hB, List.map_append]
  have hlength : B.ids.length = B.all_info.length := List.length_map _
  have hdir : (directory B'.all_info).find? f = (directory B.all_info).find? f := by
    rw [hB', hB]
    exact directory_insert hf
  have hhome := home_insert (hids' ▸ hsorted) (oatHash f)
  rw [List.length_map, ← hids, ← hids', hlength] at hhome
  rw [B.find?_peer hnd, B'.find?_peer hnd', B'.find?_peer hnew, hdir]
  obtain hstay | ⟨htake, hsucc⟩ := hhome
  · left
    rw [hstay]
    refine ⟨?_, fun _ => if_neg (skip_ne _ _)⟩
    by_cases hi : home B.ids (oatHash f) = i
    · rw [if_pos hi, if_pos (congrArg _ hi)]
    · rw [if_neg hi, if_neg fun h => hi (skip_injective _ h)]
  · rw [htake, if_neg (skip_ne _ _).symm, if_pos rfl, hsucc]
    by_cases hi : i = pre.length % B.all_info.length
    · exact Or.inr ⟨hi, rfl, (if_pos hi.symm).symm⟩
    · exact Or.inl ⟨(if_neg (Ne.symm hi)).symm, fun h => absurd h hi⟩

/-- One more registration, at whatever place among the others, when no two identifiers are equal: the
old peers keep their order, the newcomer stands between two of them and only their links change, and a
name that the newcomer does not share stays where it is with its owner, or goes from the newcomer's
successor to the newcomer. -/
theorem joining_moves (B : BootstrapRun payloads) (B' : BootstrapRun payloads')
    (hp : payloads'.Perm (registration :: payloads)) (hids : (B'.nodes.map Node.node_id).Nodup) :
    ∃ p newcomer new, readRegistration (recvinfo registration) = some newcomer ∧
      B'.peers.length = B.peers.length + 1 ∧ B'.peers[p]? = some new ∧
      new.ip_port = newcomer.ip_port ∧ new.myFile = newcomer.myFile ∧
      ∀ (i : ℕ) (nd : Node), B.peers[i]? = some nd → ∃ nd', B'.peers[skip p i]? = some nd' ∧
        nd'.ip_port = nd.ip_port ∧ nd'.myFile = nd.myFile ∧
        nd'.scr = (if (i + 1) % B.peers.length = p % B.peers.length then new.ip_port else nd.scr) ∧
        nd'.pdr = (if i = p % B.peers.length then new.ip_port else nd.pdr) ∧
        ∀ f, f ∉ new.myFile →
          (nd'.myFileInfo.find? f = nd.myFileInfo.find? f ∧
            (i = p % B.peers.length → new.myFileInfo.find? f = none)) ∨
          i = p % B.peers.length ∧ nd'.myFileInfo.find? f = none ∧
            new.myFileInfo.find? f = nd.myFileInfo.find? f := by
  obtain ⟨pre, newcomer, post, hB', hB, hread⟩ := exists_newcomer B B' hp hids
  have hsorted := ids_strictly_sorted B' hids
  have hnew : B'.all_info[pre.length]? = some newcomer := by
    rw [hB']
    exact getElem?_new pre post newcomer
  have hpeer := B'.getElem?_peers pre.length
  rw [hnew, Option.map_some] at hpeer
  refine ⟨pre.length, newcomer, _, hread, ?_, hpeer, rfl, rfl, fun i nd hnd => ?_⟩
  · rw [B'.length_peers, B.length_peers, hB', hB]
    simp only [List.length_append, List.length_cons]
    omega
  have hi := BootstrapRun.peer_lt hnd
  obtain ⟨my_node, hmy⟩ : ∃ my_node, B.all_info[i]? = some my_node :=
    ⟨_, List.getElem?_eq_getElem hi⟩
  have hmy' : B'.all_info[skip pre.length i]? = some my_node := by
    rw [hB', getElem?_skip, ← hB, hmy]
  have hnd' := B'.getElem?_peers (skip pre.length i)
  rw [hmy', Option.map_some] at hnd'
  have hold := B.getElem?_peers i
  rw [hnd, hmy, Option.map_some, Option.some.injEq] at hold
  rw [B.length_peers]
  refine ⟨_, hnd', ?_, ?_, ?_, ?_, fun f hf => find?_insert_peer hB' hB hsorted hf hnd hnd' hpeer⟩
  · rw [hold]
  · rw [hold]
  · have hlink := ipPortAt_succ_insert pre post newcomer (hB ▸ hi)
    rw [← hB', ← hB] at hlink
    rw [hold]
    exact hlink
  · have hlink := ipPortAt_pred_insert pre post newcomer (hB ▸ hi)
    rw [← hB', ← hB] at hlink
    rw [hold]
    exact hlink

end

/-! ## A third peer -/

def thirdRegistration : Str := bytes "10.0.0.3 8003 1 c "

theorem exists_tripleRun : ∃ B' : BootstrapRun (thirdRegistration :: pairPayloads),
    (B'.nodes.map Node.node_id).Nodup := by
  have hregistered : (registrations (thirdRegistration :: pairPayloads)).isSome := by decide +kernel
  obtain ⟨nodes, hnodes⟩ := Option.isSome_iff_exists.mp hregistered
  obtain ⟨all_info, hsort⟩ := exists_stdSort nodes
  refine ⟨⟨List.cons_ne_nil _ _, nodes, hnodes, all_info, hsort⟩, ?_⟩
  have hids : (((registrations (thirdRegistration :: pairPayloads)).getD []).map Node.node_id).Nodup := by
    decide +kernel
  rw [hnodes] at hids
  exact hids

theorem joining_moves_third : ∃ B' : BootstrapRun (thirdRegistration :: pairPayloads),
    ∃ p newcomer new, readRegistration (recvinfo thirdRegistration) = some newcomer ∧
      B'.peers.length = pairRun.peers.length + 1 ∧ B'.peers[p]? = some new ∧
      new.ip_port = newcomer.ip_port ∧ new.myFile = newcomer.myFile ∧
      ∀ (i : ℕ) (nd : Node), pairRun.peers[i]? = some nd → ∃ nd', B'.peers[skip p i]? = some nd' ∧
        nd'.ip_port = nd.ip_port ∧ nd'.myFile = nd.myFile ∧
        nd'.scr = (if (i + 1) % pairRun.peers.length = p % pairRun.peers.length then new.ip_port
          else nd.scr) ∧
        nd'.pdr = (if i = p % pairRun.peers.length then new.ip_port else nd.pdr) ∧
        ∀ f, f ∉ new.myFile →
          (nd'.myFileInfo.find? f = nd.myFileInfo.find? f ∧
            (i = p % pairRun.peers.length → new.myFileInfo.find? f = none)) ∨
          i = p % pairRun.peers.length ∧ nd'.myFileInfo.find? f = none ∧
            new.myFileInfo.find? f = nd.myFileInfo.find? f := by
  obtain ⟨B', hids⟩ := exists_tripleRun
  exact ⟨B', joining_moves pairRun B' (List.Perm.refl _) hids⟩

end ComputerNetworks.PeerRing
