import ComputerNetworks.PeerRing.SearchNetwork

/-! # How a search ends

`search_conserved` follows a search while it runs. Here is what becomes of it: a search is answered once
it was handled as often as the home of its file is away from the peer that issued it
(`Represents.token`), so the datagrams in flight only have to be handled for all searches to end.
`searches_drain` counts them.
-/
namespace ComputerNetworks.PeerRing
open ConsistentHash Runs TokenRing
set_option autoImplicit false

def NetEvent.handles (k : ℕ) : NetEvent → Bool
  | .issue _ _ => false
  | .handle search _ => search = k

/-- How often a datagram of search `k` was handled, the visit at the peer that issued it apart. -/
def handled (k : ℕ) (past : List (NetState × NetEvent)) : ℕ := past.countP fun x => x.2.handles k

@[simp] theorem handled_issue (k i : ℕ) (f : Str) (s : NetState) (past : List (NetState × NetEvent)) :
    handled k ((s, .issue i f) :: past) = handled k past := List.countP_cons_of_neg Bool.false_ne_true

@[simp] theorem handled_handle (k search j : ℕ) (s : NetState) (past : List (NetState × NetEvent)) :
    handled k ((s, .handle search j) :: past) = handled k past + if search = k then 1 else 0 := by
  rw [handled, List.countP_cons]
  simp [NetEvent.handles, handled]

theorem moves_tokenEvent (k : ℕ) (past : List (NetState × NetEvent)) :
    moves k (past.map fun x => tokenEvent x.2) = handled k past := by
  induction past with
  | nil => rfl
  | cons x past ih =>
    obtain ⟨s, e⟩ := x
    cases e with
    | issue i f => rw [List.map_cons, tokenEvent, moves_issue, handled_issue, ih]
    | handle search j => rw [List.map_cons, tokenEvent, moves_move, handled_handle, ih]

section
variable {payloads : List Str} {B : BootstrapRun payloads} {inet_addr : Str → UInt32}

variable (B) in
/-- The way of a search for `f` from position `i` to the home of `f`. -/
def hops (i : ℕ) (f : Str) : ℕ := distance B.all_info.length i (home B.ids (oatHash f))

theorem takes_iff {i q : ℕ} {f : Str} (hf : IsRegistered B.all_info f) (hq : q < B.all_info.length) :
    Takes B (i, f) q ↔ q = home B.ids (oatHash f) := by
  obtain ⟨nd, hnd⟩ := BootstrapRun.exists_peer hq
  have hfind := B.find?_peer hnd f
  constructor
  · rintro ⟨nd', owner, hnd', howner⟩
    obtain rfl := Option.some.inj (hnd.symm.trans hnd')
    rw [howner] at hfind
    split_ifs at hfind with hhome
    exact hhome.symm
  · rintro rfl
    rw [if_pos rfl] at hfind
    obtain ⟨owner, howner⟩ := Option.ne_none_iff_exists'.mp (directory_find?_ne_none.mpr hf)
    exact ⟨nd, owner, hnd, hfind.trans howner⟩

theorem run_tokens (haddr : (B.peers.map fun nd => addrOf inet_addr nd.ip_port).Nodup)
    {past : List (NetState × NetEvent)} {s : NetState}
    (h : Run (NetStep inet_addr B.peers) ⟨[], [], []⟩ past s) :
    ∃ a, Represents B inet_addr s a ∧
      (∀ p ∈ a, Sound B.all_info.length Prod.fst (Takes B) p) ∧
      ∀ (k : ℕ) (p : (ℕ × Str) × Token), a[k]? = some p →
        Walked B.all_info.length Prod.fst (Takes B) p (handled k past) := by
  obtain ⟨apast, a, hrun, hR, hevents⟩ := h.simulate_events tokenEvent represents_empty
    fun _ _ _ _ hR hstep => netStep_simulates haddr hR hstep
  refine ⟨a, hR, run_sound hrun, fun k p hk => ?_⟩
  have hwalked := (run_walked hrun).2 k p hk
  rwa [hevents, moves_tokenEvent] at hwalked

/-- A search is on its way for as long as it was handled less often than its home is away. -/
theorem Represents.token {s : NetState} {a : List ((ℕ × Str) × Token)} {k i m : ℕ} {f : Str}
    (hR : Represents B inet_addr s a) (hk : s.issued[k]? = some (i, f))
    (hwalked : ∀ p, a[k]? = some p → Walked B.all_info.length Prod.fst (Takes B) p m) :
    ∃ o, a[k]? = some ((i, f), o) ∧ IsRegistered B.all_info f ∧
      o.OnTime B.all_info.length i (home B.ids (oatHash f)) m := by
  rw [hR.issued, List.getElem?_map, Option.map_eq_some_iff] at hk
  obtain ⟨⟨t, o⟩, hak, rfl⟩ := hk
  obtain ⟨hi, hf⟩ := hR.valid _ (List.mem_of_getElem? hak)
  have hhome : home B.ids (oatHash f) < B.all_info.length := B.length_peers ▸ B.home_lt _
  exact ⟨o, hak, hf, (hwalked _ hak).onTime hi hhome fun q hq => takes_iff hf hq⟩

/-! ## All searches end -/

variable (B) in
/-- The forwards that are still to come: of each issued search, what is left of its way. -/
def forwardsLeft (issued : List (ℕ × Str)) (past : List (NetState × NetEvent)) : ℕ :=
  ∑ k ∈ Finset.range issued.length,
    ((issued[k]?.map fun t => hops B t.1 t.2).getD 0 - handled k past)

theorem forwardsLeft_handle {issued : List (ℕ × Str)} {s : NetState}
    {past : List (NetState × NetEvent)} {k j i : ℕ} {f : Str} (hk : issued[k]? = some (i, f))
    (hless : handled k past < hops B i f) :
    forwardsLeft B issued past = forwardsLeft B issued ((s, .handle k j) :: past) + 1 := by
  have hlt := (List.getElem?_eq_some_iff.mp hk).1
  have hone : ∑ k' ∈ Finset.range issued.length, (if k = k' then 1 else 0) = 1 := by
    rw [Finset.sum_ite_eq, if_pos (Finset.mem_range.mpr hlt)]
  rw [forwardsLeft, forwardsLeft, ← hone, ← Finset.sum_add_distrib]
  refine Finset.sum_congr rfl fun k' _ => ?_
  rw [handled_handle]
  by_cases hkk : k = k'
  · subst hkk
    rw [hk, Option.map_some, Option.getD_some, if_pos rfl]
    show hops B i f - _ = hops B i f - _ + 1
    omega
  · rw [if_neg hkk]
    rfl

/-- Whatever is in flight can be handled where it is addressed to. -/
theorem Represents.exists_handle {s : NetState} {a : List ((ℕ × Str) × Token)}
    (hR : Represents B inet_addr s a)
    (hsound : ∀ p ∈ a, Sound B.all_info.length Prod.fst (Takes B) p) (hne : s.pending ≠ []) :
    ∃ k j i f t, NetStep inet_addr B.peers s (.handle k j) t ∧ t.issued = s.issued ∧
      s.issued[k]? = some (i, f) ∧ ∃ d, a[k]? = some ((i, f), .walking d) := by
  obtain ⟨pk, rest, hpending⟩ := List.exists_cons_of_ne_nil hne
  have hsplit : s.pending = [] ++ pk :: rest := hpending
  obtain ⟨i, f, d, ha, hpk, -⟩ := hR.pending_split hsplit
  have hissued : s.issued[pk.search]? = some (i, f) := by
    rw [hR.issued, List.getElem?_map, ha]
    rfl
  obtain ⟨hi, hf⟩ := hR.valid _ (List.mem_of_getElem? ha)
  have hd := walking_lt (hsound _ (List.mem_of_getElem? ha)) (exists_takes B hf)
  obtain ⟨-, -, j, nd, out, hnd, hdest, hsearch⟩ :=
    @onItsWay_walking payloads B inet_addr i d f hi hf hd pk.search
  have hsame := congrArg Packet.datagram (List.singleton_inj.mp hpk)
  have hdest' := hdest.trans (congrArg Datagram.dest hsame)
  have hsearch' : searchFunc inet_addr pk.datagram.payload nd = some out := by
    rw [← hsame]
    exact hsearch
  exact ⟨_, j, i, f, _, NetStep.handle hsplit hnd hdest' hsearch', rfl, hissued, d, ha⟩

theorem forwardsLeft_eq_zero_iff (haddr : (B.peers.map fun nd => addrOf inet_addr nd.ip_port).Nodup)
    {past : List (NetState × NetEvent)} {s : NetState}
    (h : Run (NetStep inet_addr B.peers) ⟨[], [], []⟩ past s) :
    forwardsLeft B s.issued past = 0 ↔ s.pending = [] := by
  obtain ⟨a, hR, hsound, hwalked⟩ := run_tokens haddr h
  constructor
  · intro hzero
    by_contra hne
    obtain ⟨k, j, i, f, t, -, -, hk, d, ha⟩ := hR.exists_handle hsound hne
    obtain ⟨o, hak, -, hm⟩ := hR.token hk (hwalked k)
    obtain ⟨-, rfl⟩ := Prod.mk.inj (Option.some.inj (hak.symm.trans ha))
    have hmore := forwardsLeft_handle (s := s) (j := j) hk hm
    omega
  · intro hnil
    refine Finset.sum_eq_zero fun k hk => ?_
    obtain ⟨⟨i, f⟩, hki⟩ : ∃ t, s.issued[k]? = some t :=
      ⟨_, List.getElem?_eq_getElem (Finset.mem_range.mp hk)⟩
    obtain ⟨o, hak, -, hm⟩ := hR.token hki (hwalked k)
    rw [hki, Option.map_some, Option.getD_some]
    cases o with
    | settled q => exact Nat.sub_eq_zero_of_le hm.2.ge
    | walking d =>
      have hfilter := hR.pending k
      rw [hnil, hak] at hfilter
      cases hfilter

/-- Handling a datagram takes one from the forwards that are left. -/
theorem forwardsLeft_step (haddr : (B.peers.map fun nd => addrOf inet_addr nd.ip_port).Nodup)
    {past : List (NetState × NetEvent)} {s t : NetState}
    (h : Run (NetStep inet_addr B.peers) ⟨[], [], []⟩ past s) {k j : ℕ}
    (hstep : NetStep inet_addr B.peers s (.handle k j) t) :
    t.issued = s.issued ∧
    forwardsLeft B s.issued past = forwardsLeft B t.issued ((s, .handle k j) :: past) + 1 := by
  obtain ⟨a, hR, -, hwalked⟩ := run_tokens haddr h
  cases hstep with
  | @handle l r pk _ nd out hs hnd hdest hsearch =>
    obtain ⟨i, f, d, ha, -, -⟩ := hR.pending_split hs
    have hissued : s.issued[pk.search]? = some (i, f) := by
      rw [hR.issued, List.getElem?_map, ha]
      rfl
    obtain ⟨o, hak, -, hm⟩ := hR.token hissued (hwalked pk.search)
    obtain ⟨-, rfl⟩ := Prod.mk.inj (Option.some.inj (hak.symm.trans ha))
    exact ⟨rfl, forwardsLeft_handle hissued hm⟩

def OnlyHandles (later : List (NetState × NetEvent)) : Prop := ∀ x ∈ later, ∃ k j, x.2 = .handle k j

theorem forwardsLeft_later (haddr : (B.peers.map fun nd => addrOf inet_addr nd.ip_port).Nodup)
    {past later : List (NetState × NetEvent)} {s s' : NetState}
    (h : Run (NetStep inet_addr B.peers) ⟨[], [], []⟩ past s)
    (hlater : Run (NetStep inet_addr B.peers) s later s') (hhandles : OnlyHandles later) :
    s'.issued = s.issued ∧
    forwardsLeft B s.issued past = forwardsLeft B s'.issued (later ++ past) + later.length := by
  induction hlater with
  | start => exact ⟨rfl, rfl⟩
  | @next later t u e hrun hstep ih =>
    obtain ⟨⟨k, j, rfl⟩, hbefore⟩ := List.forall_mem_cons.mp hhandles
    obtain ⟨hsame, hleft⟩ := ih hbefore
    obtain ⟨hsame', hone⟩ := forwardsLeft_step haddr (h.trans hrun) hstep
    refine ⟨hsame'.trans hsame, ?_⟩
    rw [hleft, hone, List.length_cons, List.cons_append]
    omega

theorem exists_drained (haddr : (B.peers.map fun nd => addrOf inet_addr nd.ip_port).Nodup)
    {past : List (NetState × NetEvent)} {s : NetState}
    (h : Run (NetStep inet_addr B.peers) ⟨[], [], []⟩ past s) :
    ∃ later s', Run (NetStep inet_addr B.peers) s later s' ∧ OnlyHandles later ∧ s'.pending = [] := by
  generalize hn : forwardsLeft B s.issued past = n
  induction n generalizing s past with
  | zero =>
    exact ⟨[], s, .start, fun x hx => absurd hx List.not_mem_nil,
      (forwardsLeft_eq_zero_iff haddr h).mp hn⟩
  | succ n ih =>
    obtain ⟨a, hR, hsound, -⟩ := run_tokens haddr h
    have hne : s.pending ≠ [] := by
      intro hnil
      rw [(forwardsLeft_eq_zero_iff haddr h).mpr hnil] at hn
      cases hn
    obtain ⟨k, j, -, -, t, hstep, -⟩ := hR.exists_handle hsound hne
    obtain ⟨-, hone⟩ := forwardsLeft_step haddr h hstep
    obtain ⟨later, s', hrun, hhandles, hpending⟩ := ih (h.next hstep) (by omega)
    refine ⟨later ++ [(s, .handle k j)], s', (Run.start.next hstep).trans hrun, fun x hx => ?_,
      hpending⟩
    obtain hx | hx := List.mem_append.mp hx
    · exact hhandles x hx
    · obtain rfl := List.mem_singleton.mp hx
      exact ⟨k, j, rfl⟩

end

/-! ## A search on the ring of two -/

/-- The search for `a` from the second position, which is not its home. -/
def pairSearching : NetState := ⟨[(1, bytes "a")], [⟨0, 1, pairRequest⟩], []⟩

theorem pairPeer_one : pairRun.peers[1]? = some (pairRun.peers.tail.headD {}) := by decide +kernel

theorem pairRegistered : IsRegistered pairRun.peers (bytes "a") :=
  BootstrapRun.isRegistered_peers.mpr ⟨pairNodes.headD {}, by decide +kernel, by decide +kernel⟩

theorem pairCommand : userCommand dottedQuad (pairRun.peers.tail.headD {}) (searchLine (bytes "a")) =
    some [.forward pairRequest] := by decide +kernel

theorem pairAddresses :
    (pairRun.peers.map fun nd => addrOf dottedQuad nd.ip_port).Nodup := by decide +kernel

theorem run_pairSearching : Run (NetStep dottedQuad pairRun.peers) ⟨[], [], []⟩
    [(⟨[], [], []⟩, .issue 1 (bytes "a"))] pairSearching :=
  Run.start.next (NetStep.issue pairPeer_one pairRegistered pairCommand)

end ComputerNetworks.PeerRing
