import ComputerNetworks.Library.Runs
import ComputerNetworks.PeerRing.CutReplies

/-! # Start-up of the ring

The bootstrap sends its replies one after another, while peers that have theirs already serve users
and forward searches. A peer that still waits takes whatever datagram reaches its port first for its
start-up message. `StartupStep` interleaves all of this and loses nothing; the ghost `Origin` of a
datagram says who sent it. `started_of_ownReply` is about every run in which each waiting peer
receives the bootstrap's reply to it first, and `pairRun_misled` is a run in which one does not.
-/
namespace ComputerNetworks.PeerRing
open Runs
set_option autoImplicit false

/-! ## The system -/

/-- Who sent a datagram: the bootstrap, in reply to the node at a position, or a peer. -/
inductive Origin where
  | bootstrap (i : ℕ)
  | peer
  deriving DecidableEq

/-- `sent` counts the replies of the bootstrap. A peer is `none` until it has parsed a start-up
message; then it is the node it serves with. -/
structure StartupState where
  sent : ℕ
  net : List (Origin × Datagram)
  peers : List (Option Node)
  deriving DecidableEq

inductive StartupEvent where
  | reply
  | start (j : ℕ) (o : Origin) (d : Datagram)
  | serve (j : ℕ) (d : Datagram)
  | command (j : ℕ) (line : Str)

def Sent.datagram : Sent → Datagram
  | .reply d => d
  | .forward d => d

def fromPeer (out : List Sent) : List (Origin × Datagram) := out.map fun m => (.peer, m.datagram)

section
variable (inet_addr : Str → UInt32) {payloads : List Str} (B : BootstrapRun payloads)

def StartupState.init : StartupState := ⟨0, [], B.all_info.map fun _ => none⟩

inductive StartupStep : StartupState → StartupEvent → StartupState → Prop
  /-- The next turn of the bootstrap's sending loop. -/
  | reply {s : StartupState} {nd : Node} {d : Datagram} :
      B.peers[s.sent]? = some nd → sendReply inet_addr nd = some d →
      StartupStep s .reply { s with sent := s.sent + 1, net := s.net ++ [(.bootstrap s.sent, d)] }
  /-- A waiting peer receives its first datagram. -/
  | start {s : StartupState} {l r : List (Origin × Datagram)} {o : Origin} {d : Datagram} {j : ℕ}
      {my_node : Node} :
      s.net = l ++ (o, d) :: r → s.peers[j]? = some none → B.all_info[j]? = some my_node →
      addrOf inet_addr my_node.ip_port = d.dest →
      StartupStep s (.start j o d)
        { s with
          net := l ++ r
          peers := s.peers.set j (some (parseStartup my_node (recvinfo d.payload))) }
  /-- A turn of the service loop. -/
  | serve {s : StartupState} {l r : List (Origin × Datagram)} {o : Origin} {d : Datagram} {j : ℕ}
      {nd : Node} {how : Handling} {out : List Sent} :
      s.net = l ++ (o, d) :: r → s.peers[j]? = some (some nd) →
      addrOf inet_addr nd.ip_port = d.dest →
      serviceTurn inet_addr nd d.payload = some (how, out) →
      StartupStep s (.serve j d) { s with net := l ++ r ++ fromPeer out }
  /-- A line typed by the user of a serving peer. -/
  | command {s : StartupState} {j : ℕ} {nd : Node} {line : Str} {out : List Sent} :
      s.peers[j]? = some (some nd) → userCommand inet_addr nd line = some out →
      StartupStep s (.command j line) { s with net := s.net ++ fromPeer out }

/-- Every serving peer has the neighbours and the table the bootstrap computed for it. -/
def Started (s : StartupState) : Prop :=
  ∀ (j : ℕ) (nd target : Node), s.peers[j]? = some (some nd) → B.peers[j]? = some target →
    nd.scr = target.scr ∧ nd.pdr = target.pdr ∧ nd.myFileInfo = target.myFileInfo

/-- The peer at the position misses nothing of the reply to it but the last separator, or an address that
its reading loop still has from the entry before. -/
def ReadRight (j : ℕ) : Prop :=
  replyLength B.all_info j ≤ recvLen + 1 ∨ ∃ nd, B.peers[j]? = some nd ∧
    nd.headLength ≤ recvLen ∧ EndsInName nd.myFileInfo.toList (recvLen - nd.headLength)

/-- What a waiting peer receives is the bootstrap's reply to it, and the cut does no harm. -/
def OwnReply (_ : StartupState) : StartupEvent → Prop
  | .start j o _ => o = .bootstrap j ∧ ReadRight B j
  | _ => True

def RepliesGenuine (s : StartupState) : Prop :=
  ∀ (j : ℕ) (d : Datagram), (Origin.bootstrap j, d) ∈ s.net →
    ∃ nd, B.peers[j]? = some nd ∧ sendReply inet_addr nd = some d

end

/-! ## What a reply leaves in a peer -/

section
variable {inet_addr : Str → UInt32} {payloads : List Str} {B : BootstrapRun payloads}

theorem bootstrap_notMem_fromPeer (j : ℕ) (d : Datagram) (out : List Sent) :
    (Origin.bootstrap j, d) ∉ fromPeer out := by
  simp [fromPeer]

theorem parseStartup_reply {j : ℕ} {nd my_node : Node} {d : Datagram} (hnd : B.peers[j]? = some nd)
    (hd : sendReply inet_addr nd = some d) (hread : ReadRight B j) (hmy : my_node.Registered) :
    parseStartup my_node (recvinfo d.payload) = my_node.startedAs nd := by
  rw [recvinfo_reply hnd hd, parseStartup_take_eq_iff (BootstrapRun.peer_printable hnd) hmy.table hmy.pdr,
    length_replyText_peer hnd]
  obtain hlen | ⟨nd', hnd', hcut⟩ := hread
  · exact Or.inl hlen
  · obtain rfl : nd = nd' := Option.some.inj (hnd.symm.trans hnd')
    exact Or.inr hcut

/-! ## Every run -/

theorem StartupStep.genuine {s t : StartupState} {e : StartupEvent}
    (hs : RepliesGenuine inet_addr B s) (h : StartupStep inet_addr B s e t) :
    RepliesGenuine inet_addr B t := by
  intro j d hmem
  cases h with
  | reply hnd hd =>
    cases List.mem_append.mp hmem with
    | inl hmem => exact hs j d hmem
    | inr hmem =>
      simp only [List.mem_singleton, Prod.mk.injEq, Origin.bootstrap.injEq] at hmem
      obtain ⟨rfl, rfl⟩ := hmem
      exact ⟨_, hnd, hd⟩
  | @start l r o d' _ _ hnet _ _ _ =>
    have hsub := (List.sublist_cons_self (o, d') r).append_left l
    exact hs j d (hnet ▸ hsub.subset hmem)
  | @serve l r o d' _ _ _ _ hnet _ _ _ =>
    have hsub := (List.sublist_cons_self (o, d') r).append_left l
    cases List.mem_append.mp hmem with
    | inl hmem => exact hs j d (hnet ▸ hsub.subset hmem)
    | inr hmem => exact absurd hmem (bootstrap_notMem_fromPeer _ _ _)
  | command _ _ =>
    cases List.mem_append.mp hmem with
    | inl hmem => exact hs j d hmem
    | inr hmem => exact absurd hmem (bootstrap_notMem_fromPeer _ _ _)

theorem StartupStep.started {s t : StartupState} {e : StartupEvent}
    (hgen : RepliesGenuine inet_addr B s) (hs : Started B s) (hok : OwnReply B s e)
    (h : StartupStep inet_addr B s e t) : Started B t := by
  cases h with
  | reply _ _ => exact hs
  | @start l r o d j my_node hnet hwait hmy hdest =>
    obtain ⟨rfl, hread⟩ := hok
    intro i nd target hi htarget
    obtain ⟨src, hsrc, hd⟩ := hgen j d (hnet ▸ by simp)
    have hreg := B.all_info_registered my_node (List.mem_of_getElem? hmy)
    obtain rfl | hne := eq_or_ne j i
    · rw [List.getElem?_set_self (List.getElem?_eq_some_iff.mp hwait).1,
        parseStartup_reply hsrc hd hread hreg] at hi
      obtain rfl : src = target := Option.some.inj (hsrc.symm.trans htarget)
      obtain rfl : my_node.startedAs src = nd := Option.some.inj (Option.some.inj hi)
      exact ⟨rfl, rfl, rfl⟩
    · rw [List.getElem?_set_ne hne] at hi
      exact hs i nd target hi htarget
  | serve _ _ _ _ => exact hs
  | command _ _ => exact hs

/-- In every run in which each waiting peer receives the bootstrap's reply to it first, and the cut at what
is read does no harm, every serving peer has what the bootstrap computed for it. -/
theorem started_of_ownReply {past : List (StartupState × StartupEvent)} {s : StartupState}
    (h : Run (StartupStep inet_addr B) (StartupState.init B) past s)
    (hok : Guarded (OwnReply B) past) :
    placeFiles (link B.all_info) = some B.peers ∧ Started B s := by
  have hinit : RepliesGenuine inet_addr B (StartupState.init B) ∧
      Started B (StartupState.init B) := by
    constructor
    · intro j d hmem
      exact absurd hmem List.not_mem_nil
    · intro j nd target hj
      rw [StartupState.init, List.getElem?_map] at hj
      cases hB : B.all_info[j]? <;> simp [hB] at hj
  have key := h.guarded_invariant (I := fun s => RepliesGenuine inet_addr B s ∧ Started B s) hinit
    (fun _ _ _ hI hg hstep => ⟨hstep.genuine hI.1, hstep.started hI.1 hI.2 hg⟩) hok
  exact ⟨B.placeFiles_eq, key.2⟩

end

/-! ## Two runs on the ring of two -/

def pairReply : Datagram :=
  ⟨addrOf dottedQuad (bytes "10.0.0.2:8002"), replyText (pairRun.peers.headD {})⟩

def pairFirst : Node := parseStartup (pairRun.all_info.headD {}) (recvinfo pairReply.payload)

theorem pairRun_replied : StartupStep dottedQuad pairRun (StartupState.init pairRun) .reply
    ⟨1, [(.bootstrap 0, pairReply)], [none, none]⟩ := by
  have hpeer : pairRun.peers[0]? = some (pairRun.peers.headD {}) := by decide +kernel
  exact StartupStep.reply (s := StartupState.init pairRun) hpeer (by decide +kernel)

theorem pairRun_first_started : StartupStep dottedQuad pairRun
    ⟨1, [(.bootstrap 0, pairReply)], [none, none]⟩ (.start 0 (.bootstrap 0) pairReply)
    ⟨1, [], [some pairFirst, none]⟩ := by
  have hnode : pairRun.all_info[0]? = some (pairRun.all_info.headD {}) := by decide +kernel
  exact StartupStep.start (l := []) (r := []) rfl rfl hnode (by decide +kernel)

theorem started_of_ownReply_pair : placeFiles (link pairRun.all_info) = some pairRun.peers ∧
    Started pairRun ⟨1, [], [some pairFirst, none]⟩ := by
  refine started_of_ownReply ((Run.start.next pairRun_replied).next pairRun_first_started) ?_
  have hlen : replyLength pairRun.all_info 0 ≤ recvLen + 1 := by decide +kernel
  rw [guarded_cons, guarded_cons]
  exact ⟨⟨rfl, Or.inl hlen⟩, trivial, guarded_nil _⟩

def pairStray : Datagram :=
  ⟨addrOf dottedQuad (bytes "10.0.0.1:8001"), requestText (bytes "zzz") (bytes "10.0.0.2:8002")⟩

/-- The first peer has its reply and forwards a search to the second, which takes it for its
start-up message: its successor is now called `search`. -/
theorem pairRun_misled :
    ¬ ∀ (past : List (StartupState × StartupEvent)) (s : StartupState),
      Run (StartupStep dottedQuad pairRun) (StartupState.init pairRun) past s →
        Started pairRun s := by
  intro h
  have hcommand : StartupStep dottedQuad pairRun ⟨1, [], [some pairFirst, none]⟩
      (.command 0 (bytes "search zzz")) ⟨1, [(.peer, pairStray)], [some pairFirst, none]⟩ := by
    have hout : userCommand dottedQuad pairFirst (bytes "search zzz") =
        some [.forward pairStray] := by decide +kernel
    have hstep := StartupStep.command (B := pairRun) (s := ⟨1, [], [some pairFirst, none]⟩)
      (j := 0) rfl hout
    exact hstep
  have hnode : pairRun.all_info[1]? = some (pairRun.all_info.tail.headD {}) := by decide +kernel
  have hstart : StartupStep dottedQuad pairRun ⟨1, [(.peer, pairStray)], [some pairFirst, none]⟩
      (.start 1 .peer pairStray)
      ⟨1, [], [some pairFirst,
        some (parseStartup (pairRun.all_info.tail.headD {}) (recvinfo pairStray.payload))]⟩ :=
    StartupStep.start (l := []) (r := []) rfl rfl hnode (by decide +kernel)
  have hpeer : pairRun.peers[1]? = some (pairRun.peers.tail.headD {}) := by decide +kernel
  have hrun := (((Run.start.next pairRun_replied).next pairRun_first_started).next hcommand).next
    hstart
  have hscr := (h _ _ hrun 1 _ _ rfl hpeer).1
  exact absurd hscr (by decide +kernel)

end ComputerNetworks.PeerRing
