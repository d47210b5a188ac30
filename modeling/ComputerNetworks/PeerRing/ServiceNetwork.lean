import ComputerNetworks.PeerRing.SearchOutcome
import ComputerNetworks.PeerRing.Dispatch

/-! # The service loops on the ring

The network of the searches with all of the service loop in it: a peer takes whichever datagram comes,
reads it with `__recvinfo`, tells an answer from a request by its text, and prints the one and runs
`search_func` on the other. As long as the texts are read whole and tell themselves apart (`Clear`),
this refines the network of `SearchNetwork` (`Shows`), with a turn in between in which an answer is
printed. `service_exact` is what the users see of it, as long as no datagram comes while nobody has the
port.
-/
namespace ComputerNetworks.PeerRing
open ConsistentHash Runs TokenRing
set_option autoImplicit false

/-- A datagram in flight with the search it belongs to. -/
inductive Flying where
  | request (pk : Packet)
  | answer (search : ℕ) (d : Datagram)
  deriving DecidableEq

def Flying.search : Flying → ℕ
  | .request pk => pk.search
  | .answer search _ => search

def Flying.forwards : Flying → ℕ
  | .request pk => pk.forwards
  | .answer _ _ => 0

def Flying.datagram : Flying → Datagram
  | .request pk => pk.datagram
  | .answer _ d => d

def Flying.request? : Flying → Option Packet
  | .request pk => some pk
  | .answer _ _ => none

def Flying.answer? : Flying → Option (ℕ × Datagram)
  | .request _ => none
  | .answer search d => some (search, d)

def Sent.flying (search forwards : ℕ) : Sent → Flying
  | .forward d => .request ⟨search, forwards + 1, d⟩
  | .reply d => .answer search d

/-- A text on the terminal of a peer. `search` is a record of which search it came from. -/
structure Printed where
  search : ℕ
  peer : ℕ
  text : Str
  deriving DecidableEq

structure Service where
  issued : List (ℕ × Str)
  flying : List Flying
  printed : List Printed
  deriving DecidableEq

inductive ServiceEvent where
  | issue (peer : ℕ) (file : Str)
  | turn (search peer : ℕ)

def ServiceEvent.turns (k : ℕ) : ServiceEvent → Bool
  | .issue _ _ => false
  | .turn search _ => search = k

def ServiceEvent.isTurn : ServiceEvent → Bool
  | .issue _ _ => false
  | .turn _ _ => true

/-- The search that a turn is for. -/
def ServiceEvent.search : ServiceEvent → ℕ
  | .issue _ _ => 0
  | .turn search _ => search

/-- How many turns of service loops search `k` took. -/
def turns (k : ℕ) (past : List (Service × ServiceEvent)) : ℕ := past.countP fun x => x.2.turns k

@[simp] theorem turns_issue (k i : ℕ) (f : Str) (s : Service) (past : List (Service × ServiceEvent)) :
    turns k ((s, .issue i f) :: past) = turns k past := List.countP_cons_of_neg Bool.false_ne_true

@[simp] theorem turns_turn (k search j : ℕ) (s : Service) (past : List (Service × ServiceEvent)) :
    turns k ((s, .turn search j) :: past) = turns k past + if search = k then 1 else 0 := by
  rw [turns, List.countP_cons]
  simp [ServiceEvent.turns, turns]

/-- A search command at a prompt, or a turn of the service loop of the peer a datagram is addressed to. -/
inductive ServiceStep (inet_addr : Str → UInt32) (peers : List Node) :
    Service → ServiceEvent → Service → Prop
  | issue {s : Service} {i : ℕ} {f : Str} {nd : Node} {out : Sent} :
      peers[i]? = some nd → IsRegistered peers f →
      userCommand inet_addr nd (searchLine f) = some [out] →
      ServiceStep inet_addr peers s (.issue i f) { s with
        issued := s.issued ++ [(i, f)]
        flying := s.flying ++ [out.flying s.issued.length 0] }
  | turn {s : Service} {l r : List Flying} {fl : Flying} {j : ℕ} {nd : Node} {handling : Handling}
      {outs : List Sent} :
      s.flying = l ++ fl :: r → peers[j]? = some nd →
      addrOf inet_addr nd.ip_port = fl.datagram.dest →
      serviceTurn inet_addr nd fl.datagram.payload = some (handling, outs) →
      ServiceStep inet_addr peers s (.turn fl.search j) { s with
        flying := l ++ r ++ outs.map (Sent.flying fl.search fl.forwards)
        printed := s.printed ++
          if handling = .printed then [⟨fl.search, j, recvinfo fl.datagram.payload⟩] else [] }

section
variable {payloads : List Str} (B : BootstrapRun payloads) (inet_addr : Str → UInt32)

/-- Every request that the peers can make is read whole and taken for a request. -/
def Clear : Prop := ∀ i < B.all_info.length, ∀ f, IsRegistered B.all_info f →
  (requestText f (B.addr i)).length ≤ recvLen ∧ Recognised f (B.addr i)

/-- The requests in flight are the pending datagrams of `n`, and its replies are in flight or printed;
`done` are the printed ones. -/
structure Shows (s : Service) (n : NetState) (done : List (ℕ × Datagram)) : Prop where
  issued : n.issued = s.issued
  requests : s.flying.filterMap Flying.request? = n.pending
  answers : (s.flying.filterMap Flying.answer? ++ done).Perm n.replies
  printed : List.Forall₂ (fun p d => p.search = d.1 ∧ p.text = recvinfo d.2.payload ∧
    ∃ nd, B.peers[p.peer]? = some nd ∧ addrOf inet_addr nd.ip_port = d.2.dest) s.printed done

variable {B inet_addr}

theorem filterMap_request?_flying (out : Sent) (k d : ℕ) :
    [out.flying k d].filterMap Flying.request? = out.packets k d := by
  cases out <;> rfl

theorem filterMap_answer?_flying (out : Sent) (k d : ℕ) :
    [out.flying k d].filterMap Flying.answer? = out.answers k := by
  cases out <;> rfl

theorem search_flying (out : Sent) (k d : ℕ) : (out.flying k d).search = k := by
  cases out <;> rfl

theorem countP_flying (k : ℕ) (fls : List Flying) :
    fls.countP (fun fl => fl.search = k) =
      ((fls.filterMap Flying.request?).filter fun pk => pk.search = k).length +
        ((fls.filterMap Flying.answer?).filter fun d => d.1 = k).length := by
  rw [← List.countP_eq_length_filter, ← List.countP_eq_length_filter]
  induction fls with
  | nil => rfl
  | cons fl fls ih =>
    cases fl with
    | request pk =>
      simp only [List.countP_cons, List.filterMap_cons, Flying.request?, Flying.answer?, ih]
      exact Nat.add_right_comm _ _ _
    | answer search d =>
      simp only [List.countP_cons, List.filterMap_cons, Flying.request?, Flying.answer?, ih]
      exact Nat.add_assoc _ _ _

theorem Represents.request_pending {n : NetState} {a : List ((ℕ × Str) × Token)}
    (hR : Represents B inet_addr n a) {pk : Packet} (hpk : pk ∈ n.pending) :
    ∃ i f, i < B.all_info.length ∧ IsRegistered B.all_info f ∧
      pk.datagram.payload = requestText f (B.addr i) := by
  obtain ⟨l, r, hs⟩ := List.append_of_mem hpk
  obtain ⟨i, f, d, ha, hone, -⟩ := hR.pending_split hs
  obtain ⟨hi, hf⟩ := hR.valid _ (List.mem_of_getElem? ha)
  have hpayload := congrArg (fun pk : Packet => pk.datagram.payload) (List.singleton_inj.mp hone)
  exact ⟨i, f, hi, hf, hpayload.symm⟩

theorem Represents.answer_reply {n : NetState} {a : List ((ℕ × Str) × Token)}
    (hR : Represents B inet_addr n a) {k : ℕ} {d : Datagram} (hd : (k, d) ∈ n.replies) :
    ∃ i f owner, n.issued[k]? = some (i, f) ∧ i < B.all_info.length ∧
      d = ⟨addrOf inet_addr (B.addr i), ownerText f owner⟩ := by
  have hmem : (k, d) ∈ n.replies.filter fun r => r.1 = k := by simpa using hd
  rw [hR.replies k] at hmem
  match ha : a[k]? with
  | none => simp [ha] at hmem
  | some ((i, f), .walking e) => simp [ha, tokenReplies] at hmem
  | some ((i, f), .settled q) =>
    obtain ⟨hi, -⟩ := hR.valid _ (List.mem_of_getElem? ha)
    rw [ha, Option.map_some, Option.getD_some, tokenReplies, List.mem_singleton] at hmem
    refine ⟨i, f, _, ?_, hi, (Prod.mk.inj hmem).2⟩
    rw [hR.issued, List.getElem?_map, ha]
    rfl

theorem Shows.issue {s : Service} {n : NetState} {done : List (ℕ × Datagram)}
    (h : Shows B inet_addr s n done) {i : ℕ} {f : Str} {out : Sent} :
    Shows B inet_addr
      { s with
        issued := s.issued ++ [(i, f)]
        flying := s.flying ++ [out.flying s.issued.length 0] }
      ({ n with issued := n.issued ++ [(i, f)] }.emit n.issued.length 0 out) done := by
  refine ⟨?_, ?_, ?_, h.printed⟩
  · rw [← h.issued]
    rfl
  · rw [List.filterMap_append, h.requests, filterMap_request?_flying, ← h.issued]
    rfl
  · rw [List.filterMap_append, filterMap_answer?_flying, ← h.issued, List.append_assoc]
    exact (List.perm_append_comm_assoc _ _ _).trans
      ((h.answers.append_left _).trans List.perm_append_comm)

theorem Shows.forwarded {s : Service} {n : NetState} {done : List (ℕ × Datagram)}
    (h : Shows B inet_addr s n done) {l r : List Flying} {pk : Packet}
    (hs : s.flying = l ++ .request pk :: r) (out : Sent) :
    Shows B inet_addr { s with flying := l ++ r ++ [out.flying pk.search pk.forwards] }
      ({ n with pending := l.filterMap Flying.request? ++ r.filterMap Flying.request? }.emit
        pk.search pk.forwards out) done := by
  refine ⟨h.issued, ?_, ?_, h.printed⟩
  · rw [List.filterMap_append, List.filterMap_append, filterMap_request?_flying]
    rfl
  · have hanswers := h.answers
    rw [hs, List.filterMap_append, List.filterMap_cons_none rfl, ← List.filterMap_append] at hanswers
    rw [List.filterMap_append, filterMap_answer?_flying, List.append_assoc]
    exact (List.perm_append_comm_assoc _ _ _).trans
      ((hanswers.append_left _).trans List.perm_append_comm)

theorem perm_move_to_end {α : Type} (a b c : List α) (x : α) :
    (a ++ b ++ (c ++ [x])).Perm (a ++ x :: b ++ c) := by
  rw [← List.append_assoc, List.append_assoc a b c, List.append_assoc a (x :: b) c, List.cons_append]
  exact (List.perm_append_singleton x _).trans List.perm_middle.symm

theorem Shows.answered {s : Service} {n : NetState} {done : List (ℕ × Datagram)}
    (h : Shows B inet_addr s n done) {l r : List Flying} {k j : ℕ} {d : Datagram} {nd : Node}
    (hs : s.flying = l ++ .answer k d :: r) (hnd : B.peers[j]? = some nd)
    (hdest : addrOf inet_addr nd.ip_port = d.dest) :
    Shows B inet_addr
      { s with flying := l ++ r, printed := s.printed ++ [⟨k, j, recvinfo d.payload⟩] } n
      (done ++ [(k, d)]) := by
  refine ⟨h.issued, ?_, ?_, ?_⟩
  · have hrequests := h.requests
    rw [hs, List.filterMap_append, List.filterMap_cons_none rfl, ← List.filterMap_append] at hrequests
    exact hrequests
  · have hanswers := h.answers
    have hcons : (Flying.answer k d :: r).filterMap Flying.answer? =
        (k, d) :: r.filterMap Flying.answer? := rfl
    rw [hs, List.filterMap_append, hcons] at hanswers
    rw [List.filterMap_append]
    exact (perm_move_to_end _ _ _ _).trans hanswers
  · exact List.rel_append h.printed (.cons ⟨rfl, rfl, nd, hnd, hdest⟩ .nil)

theorem serviceTurn_ownerText (nd : Node) (f owner : Str) :
    serviceTurn inet_addr nd (ownerText f owner) = some (.printed, []) := by
  simp only [serviceTurn, dispatch_ownerText]

theorem serviceTurn_request {i : ℕ} {f : Str} (hclear : Clear B) (hi : i < B.all_info.length)
    (hf : IsRegistered B.all_info f) (nd : Node) :
    serviceTurn inet_addr nd (requestText f (B.addr i)) =
      (searchFunc inet_addr (requestText f (B.addr i)) nd).map fun out => (.searched, [out]) := by
  obtain ⟨hlen, hrec⟩ := hclear i hi f hf
  obtain ⟨hf0, -, -⟩ := BootstrapRun.registered_file hf
  obtain ⟨_, -, hreg, haddr⟩ := BootstrapRun.addr_registered hi
  exact serviceTurn_requestText hf0 (haddr ▸ hreg.nul_notMem) hlen hrec

/-! ## Refinement -/

/-- A turn of the service loops is a step of the searches, or prints an answer that is in flight. -/
theorem ServiceStep.shows (hclear : Clear B) {s t : Service} {e : ServiceEvent} {n : NetState}
    {a : List ((ℕ × Str) × Token)} {done : List (ℕ × Datagram)} (hR : Represents B inet_addr n a)
    (h : Shows B inet_addr s n done) (hstep : ServiceStep inet_addr B.peers s e t) :
    (∃ i f m, e = .issue i f ∧ NetStep inet_addr B.peers n (.issue i f) m ∧
      Shows B inet_addr t m done) ∨
    (∃ k j m, e = .turn k j ∧ NetStep inet_addr B.peers n (.handle k j) m ∧
      Shows B inet_addr t m done) ∨
    ∃ k j d, e = .turn k j ∧ Shows B inet_addr t n (done ++ [(k, d)]) := by
  cases hstep with
  | @issue i f nd out hnd hreg hcmd => exact Or.inl ⟨i, f, _, rfl, .issue hnd hreg hcmd, h.issue⟩
  | @turn l r fl j nd handling outs hs hnd hdest hturn =>
    refine Or.inr ?_
    cases fl with
    | request pk =>
      have hpending : n.pending =
          l.filterMap Flying.request? ++ pk :: r.filterMap Flying.request? := by
        rw [← h.requests, hs, List.filterMap_append]
        rfl
      obtain ⟨i, f, hi, hf, hpayload⟩ :=
        hR.request_pending (hpending ▸ List.mem_append_right _ List.mem_cons_self)
      have hturn' : serviceTurn inet_addr nd pk.datagram.payload = some (handling, outs) := hturn
      rw [hpayload, serviceTurn_request hclear hi hf] at hturn'
      obtain ⟨out, hsearch, heq⟩ := Option.map_eq_some_iff.mp hturn'
      obtain ⟨rfl, rfl⟩ := Prod.mk.inj heq
      rw [← hpayload] at hsearch
      refine Or.inl ⟨pk.search, j, _, rfl, .handle hpending hnd hdest hsearch, ?_⟩
      simpa [Flying.search, Flying.forwards] using h.forwarded hs out
    | answer k d =>
      have hreply : (k, d) ∈ n.replies := by
        refine h.answers.subset (List.mem_append_left _ ?_)
        rw [hs]
        exact List.mem_filterMap.mpr ⟨.answer k d, by simp, rfl⟩
      obtain ⟨i, f, owner, -, -, hd⟩ := hR.answer_reply hreply
      have hturn' : serviceTurn inet_addr nd d.payload = some (handling, outs) := hturn
      rw [hd, serviceTurn_ownerText] at hturn'
      obtain ⟨rfl, rfl⟩ := Prod.mk.inj (Option.some.inj hturn')
      refine Or.inr ⟨k, j, d, rfl, ?_⟩
      simpa [Flying.search, Flying.datagram] using h.answered hs hnd hdest

/-- Behind every run of the service loops there is a run of the searches, with the same turns apart from
those that print. -/
theorem run_shows (haddr : (B.peers.map fun nd => addrOf inet_addr nd.ip_port).Nodup)
    (hclear : Clear B) {past : List (Service × ServiceEvent)} {s : Service}
    (h : Run (ServiceStep inet_addr B.peers) ⟨[], [], []⟩ past s) :
    ∃ npast n done, Run (NetStep inet_addr B.peers) ⟨[], [], []⟩ npast n ∧
      Shows B inet_addr s n done ∧
      ∀ k, turns k past = handled k npast + done.countP fun d => d.1 = k := by
  induction h with
  | start => exact ⟨[], ⟨[], [], []⟩, [], .start, ⟨rfl, rfl, List.Perm.refl _, .nil⟩, fun _ => rfl⟩
  | next _ hstep ih =>
    obtain ⟨npast, n, done, hrun, hshows, hcount⟩ := ih
    obtain ⟨a, hR, -, -⟩ := run_tokens haddr hrun
    obtain ⟨i, f, m, rfl, hnet, hshows'⟩ | ⟨k, j, m, rfl, hnet, hshows'⟩ | ⟨k, j, d, rfl, hshows'⟩ :=
      hstep.shows hclear hR hshows
    · exact ⟨_, m, done, hrun.next hnet, hshows', fun k => by
        rw [turns_issue, handled_issue, hcount]⟩
    · refine ⟨_, m, done, hrun.next hnet, hshows', fun k' => ?_⟩
      rw [turns_turn, handled_handle, hcount]
      omega
    · refine ⟨npast, n, done ++ [(k, d)], hrun, hshows', fun k' => ?_⟩
      rw [turns_turn, hcount, List.countP_append, List.countP_singleton, Nat.add_assoc]
      simp

/-! ## What the users see -/

theorem Shows.printed_filter {s : Service} {n : NetState} {done : List (ℕ × Datagram)}
    (h : Shows B inet_addr s n done) (k : ℕ) :
    List.Forall₂ (fun p d => p.search = d.1 ∧ p.text = recvinfo d.2.payload ∧
      ∃ nd, B.peers[p.peer]? = some nd ∧ addrOf inet_addr nd.ip_port = d.2.dest)
      (s.printed.filter fun p => p.search = k) (done.filter fun d => d.1 = k) :=
  List.rel_filter (fun p d hpd => by simp [hpd.1]) h.printed

theorem Shows.answers_filter {s : Service} {n : NetState} {done : List (ℕ × Datagram)}
    (h : Shows B inet_addr s n done) (k : ℕ) :
    ((s.flying.filterMap Flying.answer?).filter (fun d => d.1 = k) ++
      done.filter fun d => d.1 = k).Perm (n.replies.filter fun r => r.1 = k) := by
  rw [← List.filter_append]
  exact h.answers.filter _

/-- What is printed of a search whose answer was handed out. -/
theorem Shows.printed_answer (haddr : (B.peers.map fun nd => addrOf inet_addr nd.ip_port).Nodup)
    {s : Service} {n : NetState} {done : List (ℕ × Datagram)} (h : Shows B inet_addr s n done)
    {k i : ℕ} {text : Str} (hi : i < B.all_info.length)
    (hdone : (done.filter fun d => d.1 = k) = [(k, ⟨addrOf inet_addr (B.addr i), text⟩)]) :
    (s.printed.filter fun p => p.search = k) = [⟨k, i, recvinfo text⟩] := by
  have hfilter := h.printed_filter k
  rw [hdone] at hfilter
  obtain ⟨⟨search, peer, printed⟩, rest, ⟨hsearch, htext, nd, hnd, hdest⟩, hrest, hlist⟩ :=
    List.forall₂_cons_right_iff.mp hfilter
  obtain rfl := List.forall₂_nil_right_iff.mp hrest
  rw [BootstrapRun.peer_ip_port hnd] at hdest
  obtain rfl : peer = i := addr_inj haddr (BootstrapRun.peer_lt hnd) hi hdest
  rw [hlist]
  simp only at hsearch htext
  rw [hsearch, htext]

theorem run_issued {peers : List Node} {past : List (Service × ServiceEvent)} {s : Service}
    (h : Run (ServiceStep inet_addr peers) ⟨[], [], []⟩ past s) :
    (∀ fl ∈ s.flying, fl.search < s.issued.length) ∧
      (∀ p ∈ s.printed, p.search < s.issued.length) ∧
      ∀ x ∈ past.filter fun x => x.2.isTurn, x.2.search < s.issued.length := by
  induction h with
  | start => simp
  | next _ hstep ih =>
    obtain ⟨hflying, hprinted, hturns⟩ := ih
    cases hstep with
    | @issue i f nd out _ _ _ =>
      rw [List.length_append, List.length_singleton]
      refine ⟨fun fl hfl => ?_, fun p hp => Nat.lt_succ_of_lt (hprinted p hp),
        fun x hx => Nat.lt_succ_of_lt (hturns x hx)⟩
      obtain hfl | hfl := List.mem_append.mp hfl
      · exact Nat.lt_succ_of_lt (hflying fl hfl)
      · rw [List.mem_singleton.mp hfl, search_flying]
        exact Nat.lt_succ_self _
    | @turn l r fl j nd handling outs hs _ _ _ =>
      have hsearch : fl.search < _ := hflying fl (hs ▸ List.mem_append_right l List.mem_cons_self)
      refine ⟨fun fl' hfl' => ?_, fun p hp => ?_, fun x hx => ?_⟩
      · obtain hfl' | hfl' := List.mem_append.mp hfl'
        · refine hflying fl' (hs ▸ ?_)
          exact (List.Sublist.append_left (List.sublist_cons_self fl r) l).subset hfl'
        · obtain ⟨out, -, rfl⟩ := List.mem_map.mp hfl'
          rwa [search_flying]
      · obtain hp | hp := List.mem_append.mp hp
        · exact hprinted p hp
        · split_ifs at hp with hhandling
          · rwa [List.mem_singleton.mp hp]
          · cases hp
      · obtain ⟨hmem, hturn⟩ := List.mem_filter.mp hx
        obtain rfl | hmem := List.mem_cons.mp hmem
        · exact hsearch
        · exact hturns x (List.mem_filter.mpr ⟨hmem, hturn⟩)

section
variable (haddr : (B.peers.map fun nd => addrOf inet_addr nd.ip_port).Nodup) (hclear : Clear B)
  {past : List (Service × ServiceEvent)} {s : Service}
  (h : Run (ServiceStep inet_addr B.peers) ⟨[], [], []⟩ past s)
include haddr hclear h

/-- Whatever is in flight is addressed to some peer, and the service loop there can make a turn with it. -/
theorem exists_turn {fl : Flying} (hfl : fl ∈ s.flying) :
    ∃ (j : ℕ) (nd : Node) (handling : Handling) (outs : List Sent), B.peers[j]? = some nd ∧
      addrOf inet_addr nd.ip_port = fl.datagram.dest ∧
      serviceTurn inet_addr nd fl.datagram.payload = some (handling, outs) := by
  obtain ⟨npast, n, done, hrun, hshows, -⟩ := run_shows haddr hclear h
  obtain ⟨a, hR, hsound, -⟩ := run_tokens haddr hrun
  cases fl with
  | request pk =>
    have hmem : pk ∈ n.pending := by
      rw [← hshows.requests]
      exact List.mem_filterMap.mpr ⟨_, hfl, rfl⟩
    obtain ⟨l', r', hpending⟩ := List.append_of_mem hmem
    obtain ⟨i, f, d, ha, hone, -⟩ := hR.pending_split hpending
    obtain ⟨hi, hf⟩ := hR.valid _ (List.mem_of_getElem? ha)
    have hd := walking_lt (hsound _ (List.mem_of_getElem? ha)) (exists_takes B hf)
    obtain ⟨-, -, j, nd, out, hnd, hdest, hsearch⟩ :=
      @onItsWay_walking payloads B inet_addr i d f hi hf hd pk.search
    have hsame := congrArg Packet.datagram (List.singleton_inj.mp hone)
    have hturn : serviceTurn inet_addr nd pk.datagram.payload = some (.searched, [out]) := by
      rw [← hsame]
      show serviceTurn inet_addr nd (requestText f (B.addr i)) = _
      rw [serviceTurn_request hclear hi hf, hsearch]
      rfl
    exact ⟨j, nd, _, _, hnd, hdest.trans (congrArg Datagram.dest hsame), hturn⟩
  | answer k d =>
    have hreply : (k, d) ∈ n.replies :=
      hshows.answers.subset (List.mem_append_left _ (List.mem_filterMap.mpr ⟨_, hfl, rfl⟩))
    obtain ⟨i, f, owner, -, hi, hd⟩ := hR.answer_reply hreply
    obtain ⟨nd, hnd⟩ := BootstrapRun.exists_peer hi
    have hdest : addrOf inet_addr nd.ip_port = d.dest := by rw [BootstrapRun.peer_ip_port hnd, hd]
    have hturn : serviceTurn inet_addr nd d.payload = some (.printed, []) := by
      rw [hd]
      exact serviceTurn_ownerText nd f owner
    exact ⟨i, nd, _, _, hnd, hdest, hturn⟩

/-- A search has one datagram in flight for as many turns as the home of the file is away and one more;
then it has none, and its answer is printed. -/
theorem run_search {k i : ℕ} {f : Str} (hk : s.issued[k]? = some (i, f)) :
    ∃ owner, LastOwner B.all_info f owner ∧
      (turns k past ≤ hops B i f ∧ s.flying.countP (fun fl => fl.search = k) = 1 ∧
          (s.printed.filter fun p => p.search = k) = [] ∨
        turns k past = hops B i f + 1 ∧ s.flying.countP (fun fl => fl.search = k) = 0 ∧
          (s.printed.filter fun p => p.search = k) = [⟨k, i, recvinfo (ownerText f owner)⟩]) := by
  obtain ⟨npast, n, done, hrun, hshows, hcount⟩ := run_shows haddr hclear h
  obtain ⟨a, hR, -, hwalked⟩ := run_tokens haddr hrun
  obtain ⟨o, hak, hf, hm⟩ := hR.token (hshows.issued.symm ▸ hk) (hwalked k)
  obtain ⟨hi, -⟩ := hR.valid _ (List.mem_of_getElem? hak)
  obtain ⟨owner, howner⟩ := Option.ne_none_iff_exists'.mp (directory_find?_ne_none.mpr hf)
  refine ⟨owner, directory_find?_eq_some.mp howner, ?_⟩
  have hanswers := hshows.answers_filter k
  rw [hR.replies k, hak, Option.map_some, Option.getD_some] at hanswers
  have hrequests : ((s.flying.filterMap Flying.request?).filter fun pk => pk.search = k) =
      tokenPackets B inet_addr k ((i, f), o) := by
    rw [hshows.requests, hR.pending k, hak, Option.map_some, Option.getD_some]
  rw [countP_flying, hrequests, hcount, List.countP_eq_length_filter]
  have hnone : (done.filter fun d => d.1 = k) = [] →
      (s.printed.filter fun p => p.search = k) = [] := by
    intro hdone
    have hfilter := hshows.printed_filter k
    rw [hdone] at hfilter
    exact List.forall₂_nil_right_iff.mp hfilter
  cases o with
  | walking d =>
    have hless : handled k npast < hops B i f := hm
    obtain ⟨hflying, hdone⟩ := List.append_eq_nil_iff.mp (List.perm_nil.mp hanswers)
    rw [hflying, hdone]
    exact Or.inl ⟨hless.le, rfl, hnone hdone⟩
  | settled q =>
    obtain ⟨-, heq⟩ : q = home B.ids (oatHash f) ∧ handled k npast = hops B i f := hm
    rw [tokenReplies, howner, Option.getD_some] at hanswers
    obtain ⟨hflying, hdone⟩ | ⟨hflying, hdone⟩ :=
      List.append_eq_singleton_iff.mp (List.perm_singleton.mp hanswers)
    · rw [hflying, hdone]
      refine Or.inr ⟨congrArg (· + 1) heq, rfl, hshows.printed_answer haddr hi hdone⟩
    · rw [hflying, hdone]
      exact Or.inl ⟨heq.le, rfl, hnone hdone⟩

/-- All turns together: as many as there are datagrams to send at most, and one less for each search that
has no answer yet. -/
theorem run_turns_le :
    past.countP (fun x => x.2.isTurn) + s.issued.length ≤
      s.printed.length + (s.issued.map fun t => hops B t.1 t.2 + 1).sum := by
  obtain ⟨-, hprinted, hturns⟩ := run_issued h
  have hturn : ∀ k, (past.filter fun x => x.2.isTurn).countP (fun x => x.2.search = k) =
      turns k past := by
    intro k
    rw [List.countP_filter, turns]
    refine List.countP_congr fun x _ => ?_
    cases x.2 with
    | issue i f => simp [ServiceEvent.isTurn, ServiceEvent.turns]
    | turn search j => exact Bool.eq_iff_iff.mp (Bool.and_true (decide (search = k)))
  have hall : past.countP (fun x => x.2.isTurn) + s.issued.length =
      ∑ k ∈ Finset.range s.issued.length, (turns k past + 1) := by
    rw [Finset.sum_add_distrib, List.countP_eq_length_filter, ← sum_countP_eq_length hturns]
    simp [hturn]
  have hissued : (s.issued.map fun t => hops B t.1 t.2 + 1).sum = ∑ k ∈ Finset.range s.issued.length,
      ((s.issued[k]?.map fun t => hops B t.1 t.2 + 1).getD 0) := by
    rw [Finset.sum_range, ← Fin.sum_univ_fun_getElem]
    exact Finset.sum_congr rfl fun k _ => by simp
  rw [hall, hissued, ← sum_countP_eq_length hprinted, ← Finset.sum_add_distrib]
  refine Finset.sum_le_sum fun k hk => ?_
  obtain ⟨⟨i, f⟩, hkf⟩ : ∃ t, s.issued[k]? = some t :=
    ⟨_, List.getElem?_eq_getElem (Finset.mem_range.mp hk)⟩
  obtain ⟨owner, -, ⟨hle, -, hnil⟩ | ⟨hdone, -, hone⟩⟩ := run_search haddr hclear h hkf
  · rw [hkf, List.countP_eq_length_filter, hnil]
    show turns k past + 1 ≤ 0 + (hops B i f + 1)
    omega
  · rw [hkf, List.countP_eq_length_filter, hone, hdone]
    show hops B i f + 1 + 1 ≤ 1 + (hops B i f + 1)
    omega

end

end

/-! ## The ring of two -/

theorem clear_pairRun : Clear pairRun := by
  have hall : ∀ nd ∈ pairRun.all_info, ∀ f ∈ nd.myFile, ∀ i < 2,
      (requestText f (pairRun.addr i)).length ≤ recvLen ∧ Recognised f (pairRun.addr i) := by
    decide +kernel
  rintro i hi f ⟨nd, hnd, hf⟩
  exact hall nd hnd f hf i hi

def pairServing : Service := ⟨[(1, bytes "a")], [.request ⟨0, 1, pairRequest⟩], []⟩

theorem run_pairServing : Run (ServiceStep dottedQuad pairRun.peers) ⟨[], [], []⟩
    [(⟨[], [], []⟩, .issue 1 (bytes "a"))] pairServing :=
  Run.start.next (ServiceStep.issue pairPeer_one pairRegistered pairCommand)

end ComputerNetworks.PeerRing
