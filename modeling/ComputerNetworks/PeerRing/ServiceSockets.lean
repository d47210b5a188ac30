import ComputerNetworks.PeerRing.ReceiveLoop
import ComputerNetworks.PeerRing.ServiceNetwork

/-! # The service loops on their sockets

In `ServiceNetwork` a datagram waits until a loop takes it. On the sockets of `__recvinfo` it does not:
the port is bound for one datagram at a time, what comes between two calls is discarded, and so is what
is queued behind the datagram of a call when the call closes its socket (`ReceiveLoop`). Here all the
loops run on such sockets.

A discarded datagram is one that never comes, so that every run is also a run of `ServiceNetwork`
(`run_backs`), and nothing false is printed for it. `sockets_at_rest` says what is missing.
-/
namespace ComputerNetworks.PeerRing
open Runs
set_option autoImplicit false

/-- Where the service loop of a peer is: at its top, in a call of `__recvinfo` before or behind the
`recvfrom`, each time with what is queued, or at work on what the call returned. -/
inductive Loop where
  | top
  | bound (queue : List Flying)
  | read (fl : Flying) (queue : List Flying)
  | serving (fl : Flying)
  deriving DecidableEq

/-- What the socket and the loop have got. -/
def Loop.contents : Loop → Multiset Flying
  | .top => 0
  | .bound queue => queue
  | .read fl queue => fl ::ₘ queue
  | .serving fl => {fl}

/-- The loop after a datagram for its port came, if anyone has the port. -/
def Loop.deliver (fl : Flying) : Loop → Option Loop
  | .top | .serving _ => none
  | .bound queue => some (.bound (queue ++ [fl]))
  | .read mesg queue => some (.read mesg (queue ++ [fl]))

/-- As in `Service`; `discarded` is a record of what the sockets did not keep. -/
structure Sockets (n : ℕ) where
  issued : List (ℕ × Str)
  flying : Multiset Flying
  loop : Fin n → Loop
  printed : List Printed
  discarded : Multiset Flying

inductive SocketEvent (n : ℕ) where
  | issue (peer : Fin n) (file : Str)
  | arrive (peer : Fin n) (fl : Flying)
  | bind (peer : Fin n)
  | recvfrom (peer : Fin n)
  | close (peer : Fin n)
  | serve (peer : Fin n) (search : ℕ)

def SocketEvent.issues {n : ℕ} : SocketEvent n → Bool
  | .issue _ _ => true
  | _ => false

def Sockets.init (n : ℕ) : Sockets n := ⟨[], 0, fun _ => .top, [], 0⟩

def Sockets.setLoop {n : ℕ} (s : Sockets n) (j : Fin n) (l : Loop) : Sockets n :=
  { s with loop := Function.update s.loop j l }

def Sockets.discard {n : ℕ} (s : Sockets n) (fls : Multiset Flying) : Sockets n :=
  { s with discarded := s.discarded + fls }

@[simp] theorem Sockets.setLoop_issued {n : ℕ} (s : Sockets n) (j : Fin n) (l : Loop) :
    (s.setLoop j l).issued = s.issued := rfl

@[simp] theorem Sockets.setLoop_printed {n : ℕ} (s : Sockets n) (j : Fin n) (l : Loop) :
    (s.setLoop j l).printed = s.printed := rfl

@[simp] theorem Sockets.discard_issued {n : ℕ} (s : Sockets n) (fls : Multiset Flying) :
    (s.discard fls).issued = s.issued := rfl

@[simp] theorem Sockets.discard_printed {n : ℕ} (s : Sockets n) (fls : Multiset Flying) :
    (s.discard fls).printed = s.printed := rfl

def Sockets.arrive {n : ℕ} (s : Sockets n) (j : Fin n) (fl : Flying) : Sockets n :=
  match (s.loop j).deliver fl with
  | some l => { s.setLoop j l with flying := s.flying.erase fl }
  | none => { s with flying := s.flying.erase fl }.discard {fl}

/-- `bind`, `recvfrom` and `close` are those of the call of `__recvinfo` that the loop is in. -/
inductive SocketStep (inet_addr : Str → UInt32) (peers : List Node) :
    Sockets peers.length → SocketEvent peers.length → Sockets peers.length → Prop
  | issue {s : Sockets peers.length} {i : Fin peers.length} {f : Str} {out : Sent} :
      IsRegistered peers f → userCommand inet_addr (peers.get i) (searchLine f) = some [out] →
      SocketStep inet_addr peers s (.issue i f) { s with
        issued := s.issued ++ [(i.val, f)]
        flying := out.flying s.issued.length 0 ::ₘ s.flying }
  | arrive {s : Sockets peers.length} {j : Fin peers.length} {fl : Flying} :
      fl ∈ s.flying → addrOf inet_addr (peers.get j).ip_port = fl.datagram.dest →
      SocketStep inet_addr peers s (.arrive j fl) (s.arrive j fl)
  | bind {s : Sockets peers.length} {j : Fin peers.length} :
      s.loop j = .top → SocketStep inet_addr peers s (.bind j) (s.setLoop j (.bound []))
  | recvfrom {s : Sockets peers.length} {j : Fin peers.length} {fl : Flying} {queue : List Flying} :
      s.loop j = .bound (fl :: queue) →
      SocketStep inet_addr peers s (.recvfrom j) (s.setLoop j (.read fl queue))
  | close {s : Sockets peers.length} {j : Fin peers.length} {fl : Flying} {queue : List Flying} :
      s.loop j = .read fl queue →
      SocketStep inet_addr peers s (.close j) ((s.setLoop j (.serving fl)).discard queue)
  | serve {s : Sockets peers.length} {j : Fin peers.length} {fl : Flying} {handling : Handling}
      {outs : List Sent} :
      s.loop j = .serving fl →
      serviceTurn inet_addr (peers.get j) fl.datagram.payload = some (handling, outs) →
      SocketStep inet_addr peers s (.serve j fl.search) { s.setLoop j .top with
        flying := s.flying + ↑(outs.map (Sent.flying fl.search fl.forwards))
        printed := s.printed ++
          if handling = .printed then [⟨fl.search, j.val, recvinfo fl.datagram.payload⟩] else [] }

section
variable {n : ℕ}

/-- The datagrams that can still be served. -/
def Sockets.underWay (s : Sockets n) : Multiset Flying := s.flying + ∑ j, (s.loop j).contents

/-- A datagram finds the loop of its peer in `recvfrom`, with nothing queued. -/
def FindsLoop (s : Sockets n) : SocketEvent n → Prop
  | .arrive j _ => s.loop j = .bound []
  | _ => True

theorem sum_contents_setLoop (s : Sockets n) (j : Fin n) (l : Loop) :
    ∑ i, ((s.setLoop j l).loop i).contents + (s.loop j).contents =
      ∑ i, (s.loop i).contents + l.contents :=
  sum_update_add (fun _ => Loop.contents) s.loop j l

theorem Loop.contents_deliver {l l' : Loop} {fl : Flying} (h : l.deliver fl = some l') :
    l'.contents = l.contents + {fl} := by
  cases l with
  | top | serving _ => cases h
  | bound queue =>
    obtain rfl := Option.some.inj h
    exact (Multiset.coe_add queue [fl]).symm
  | read mesg queue =>
    obtain rfl := Option.some.inj h
    show mesg ::ₘ ((queue ++ [fl] : List Flying) : Multiset Flying) = mesg ::ₘ ↑queue + {fl}
    rw [Multiset.cons_add]
    exact congrArg _ (Multiset.coe_add queue [fl]).symm

/-- A datagram that arrives is queued or discarded. -/
theorem Sockets.arrive_everything (s : Sockets n) (j : Fin n) {fl : Flying} (hfl : fl ∈ s.flying) :
    (s.arrive j fl).underWay + (s.arrive j fl).discarded = s.underWay + s.discarded := by
  have herase : s.flying.erase fl + {fl} = s.flying := by
    rw [add_comm, Multiset.singleton_add, Multiset.cons_erase hfl]
  unfold Sockets.arrive
  cases hdeliver : (s.loop j).deliver fl with
  | none =>
    show s.flying.erase fl + ∑ i, (s.loop i).contents + (s.discarded + {fl}) =
      s.flying + ∑ i, (s.loop i).contents + s.discarded
    rw [← add_assoc, add_right_comm, add_right_comm (s.flying.erase fl), herase]
  | some l =>
    have hsum := sum_contents_setLoop s j l
    rw [Loop.contents_deliver hdeliver, ← add_assoc, add_right_comm] at hsum
    have hall := add_right_cancel hsum
    show s.flying.erase fl + ∑ i, ((s.setLoop j l).loop i).contents + s.discarded =
      s.flying + ∑ i, (s.loop i).contents + s.discarded
    rw [hall, ← add_assoc, add_right_comm (s.flying.erase fl), herase]

end

/-! ## Each loop is a loop of `__recvinfo` calls -/

/-- The socket as `ReceiveLoop` sees it. -/
def Loop.phase : Loop → CallPhase
  | .top | .serving _ => .idle
  | .bound queue => .bound (queue.map fun fl => fl.datagram.payload)
  | .read fl queue => .read fl.datagram.payload (queue.map fun fl => fl.datagram.payload)

def SocketEvent.received {n : ℕ} (j : Fin n) : SocketEvent n → Option ReceiveEvent
  | .issue _ _ | .serve _ _ => none
  | .arrive i fl => if i = j then some (.arrive fl.datagram.payload) else none
  | .bind i => if i = j then some .bind else none
  | .recvfrom i => if i = j then some .recvfrom else none
  | .close i => if i = j then some .close else none

theorem Sockets.setLoop_self {n : ℕ} (s : Sockets n) (j : Fin n) (l : Loop) :
    (s.setLoop j l).loop j = l := Function.update_self _ _ _

theorem Sockets.setLoop_of_ne {n : ℕ} (s : Sockets n) {i j : Fin n} (h : i ≠ j) (l : Loop) :
    (s.setLoop i l).loop j = s.loop j := Function.update_of_ne (Ne.symm h) _ _

theorem Loop.phase_deliver {l : Loop} (fl : Flying) :
    l.phase.deliver fl.datagram.payload = ((l.deliver fl).getD l).phase := by
  cases l <;> simp [Loop.phase, Loop.deliver, CallPhase.deliver]

theorem Sockets.arrive_issued {n : ℕ} (s : Sockets n) (j : Fin n) (fl : Flying) :
    (s.arrive j fl).issued = s.issued := by
  unfold Sockets.arrive
  split <;> rfl

theorem Sockets.arrive_printed {n : ℕ} (s : Sockets n) (j : Fin n) (fl : Flying) :
    (s.arrive j fl).printed = s.printed := by
  unfold Sockets.arrive
  split <;> rfl

theorem Sockets.arrive_loop {n : ℕ} (s : Sockets n) (j : Fin n) (fl : Flying) :
    (s.arrive j fl).loop = Function.update s.loop j (((s.loop j).deliver fl).getD (s.loop j)) := by
  unfold Sockets.arrive
  cases hdeliver : (s.loop j).deliver fl with
  | none => exact (Function.update_eq_self j s.loop).symm
  | some l => rfl

section
variable {inet_addr : Str → UInt32} {peers : List Node} {past : List (Sockets peers.length ×
  SocketEvent peers.length)} {s t : Sockets peers.length}

/-- A step is a step of `j`'s calls, or leaves its socket as it was. -/
theorem SocketStep.receives {e : SocketEvent peers.length} (j : Fin peers.length) {r : Receiver}
    (hr : r.phase = (s.loop j).phase) (h : SocketStep inet_addr peers s e t) :
    e.received j = none ∧ r.phase = (t.loop j).phase ∨
      ∃ d r', e.received j = some d ∧ ReceiveStep r d r' ∧ r'.phase = (t.loop j).phase := by
  cases h with
  | issue => exact Or.inl ⟨rfl, hr⟩
  | @arrive i fl =>
    by_cases hij : i = j
    · subst hij
      refine Or.inr ⟨_, _, if_pos rfl, .arrive fl.datagram.payload, ?_⟩
      show r.phase.deliver _ = _
      rw [hr, Loop.phase_deliver, Sockets.arrive_loop, Function.update_self]
    · refine Or.inl ⟨if_neg hij, ?_⟩
      rw [hr, Sockets.arrive_loop, Function.update_of_ne (Ne.symm hij)]
  | @bind i htop =>
    by_cases hij : i = j
    · subst hij
      rw [htop] at hr
      exact Or.inr ⟨_, _, if_pos rfl, .bind hr, by rw [s.setLoop_self]; rfl⟩
    · exact Or.inl ⟨if_neg hij, by rw [hr, s.setLoop_of_ne hij]⟩
  | @recvfrom i fl queue hbound =>
    by_cases hij : i = j
    · subst hij
      rw [hbound] at hr
      exact Or.inr ⟨_, _, if_pos rfl, .recvfrom hr, by rw [s.setLoop_self]; rfl⟩
    · exact Or.inl ⟨if_neg hij, by rw [hr, s.setLoop_of_ne hij]⟩
  | @close i fl queue hread =>
    by_cases hij : i = j
    · subst hij
      rw [hread] at hr
      refine Or.inr ⟨_, _, if_pos rfl, .close hr, ?_⟩
      show CallPhase.idle = ((s.setLoop i (.serving fl)).loop i).phase
      rw [s.setLoop_self]
      rfl
    · refine Or.inl ⟨if_neg hij, ?_⟩
      show r.phase = ((s.setLoop i (.serving fl)).loop j).phase
      rw [hr, s.setLoop_of_ne hij]
  | @serve i fl handling outs hserving =>
    refine Or.inl ⟨rfl, ?_⟩
    show r.phase = ((s.setLoop i .top).loop j).phase
    by_cases hij : i = j
    · subst hij
      rw [hr, hserving, s.setLoop_self]
      rfl
    · rw [hr, s.setLoop_of_ne hij]

/-- In every run, what happens at the socket of one peer is a run of a loop of `__recvinfo` calls. -/
theorem run_receives (h : Run (SocketStep inet_addr peers) (Sockets.init peers.length) past s)
    (j : Fin peers.length) :
    ∃ rpast r, Run ReceiveStep Receiver.init rpast r ∧ r.phase = (s.loop j).phase ∧
      rpast.map Prod.snd = past.filterMap fun x => x.2.received j :=
  h.simulate_stuttering (R := fun s (r : Receiver) => r.phase = (s.loop j).phase) (SocketEvent.received j) rfl
    fun _ _ _ _ hr hstep => hstep.receives j hr

/-! ## Discarded is as if it never came -/

variable (inet_addr) in
/-- What is at a socket was sent there. -/
def Addressed (s : Sockets peers.length) : Prop :=
  ∀ j, ∀ fl ∈ (s.loop j).contents, addrOf inet_addr (peers.get j).ip_port = fl.datagram.dest

theorem Addressed.setLoop (h : Addressed inet_addr s) {j : Fin peers.length} {l : Loop}
    (hl : ∀ fl ∈ l.contents, addrOf inet_addr (peers.get j).ip_port = fl.datagram.dest) :
    Addressed inet_addr (s.setLoop j l) := by
  intro i fl hfl
  by_cases hij : j = i
  · subst hij
    rw [s.setLoop_self] at hfl
    exact hl fl hfl
  · rw [s.setLoop_of_ne hij] at hfl
    exact h i fl hfl

theorem Addressed.arrive (h : Addressed inet_addr s) {j : Fin peers.length} {fl : Flying}
    (hdest : addrOf inet_addr (peers.get j).ip_port = fl.datagram.dest) :
    Addressed inet_addr (s.arrive j fl) := by
  unfold Sockets.arrive
  cases hdeliver : (s.loop j).deliver fl with
  | none => exact h
  | some l =>
    refine h.setLoop fun fl' hfl' => ?_
    rw [Loop.contents_deliver hdeliver] at hfl'
    obtain hold | hnew := Multiset.mem_add.mp hfl'
    · exact h j fl' hold
    · rw [Multiset.mem_singleton.mp hnew]
      exact hdest

variable (inet_addr) in
/-- The service loops that have everything in flight that is not printed, what was discarded included. -/
structure Backs (s : Sockets peers.length) (a : Service) : Prop where
  issued : a.issued = s.issued
  printed : a.printed = s.printed
  flying : (a.flying : Multiset Flying) = s.underWay + s.discarded
  addressed : Addressed inet_addr s

def SocketEvent.turn {n : ℕ} : SocketEvent n → Option ServiceEvent
  | .issue i f => some (.issue i.val f)
  | .serve j k => some (.turn k j.val)
  | _ => none

theorem Backs.of_setLoop {a : Service} (h : Backs inet_addr s a) {j : Fin peers.length} {l : Loop}
    (hsame : l.contents = (s.loop j).contents) : Backs inet_addr (s.setLoop j l) a := by
  have hsum := sum_contents_setLoop s j l
  rw [hsame] at hsum
  refine ⟨h.issued, h.printed, ?_, h.addressed.setLoop (hsame ▸ h.addressed j)⟩
  show _ = s.flying + ∑ i, ((s.setLoop j l).loop i).contents + s.discarded
  rw [add_right_cancel hsum]
  exact h.flying

theorem Backs.close {a : Service} (h : Backs inet_addr s a) {j : Fin peers.length} {fl : Flying}
    {queue : List Flying} (hread : s.loop j = .read fl queue) :
    Backs inet_addr ((s.setLoop j (.serving fl)).discard queue) a := by
  have hsum := sum_contents_setLoop s j (.serving fl)
  have hcontents : (Loop.read fl queue).contents = (Loop.serving fl).contents + queue :=
    (Multiset.singleton_add fl queue).symm
  rw [hread, hcontents, ← add_assoc, add_right_comm] at hsum
  have hall := add_right_cancel hsum
  have hdest := h.addressed j
  rw [hread, hcontents] at hdest
  refine ⟨h.issued, h.printed, ?_,
    h.addressed.setLoop fun fl hfl => hdest fl (Multiset.mem_add.mpr (Or.inl hfl))⟩
  rw [h.flying]
  show s.flying + ∑ i, (s.loop i).contents + s.discarded =
    s.flying + ∑ i, ((s.setLoop j (.serving fl)).loop i).contents + (s.discarded + queue)
  rw [← hall, ← add_assoc, ← add_assoc]
  exact add_right_comm _ _ _

theorem Backs.serve {a : Service} (h : Backs inet_addr s a) {j : Fin peers.length} {fl : Flying}
    {l r : List Flying} {outs : List Flying} {printed : List Printed}
    (hserving : s.loop j = .serving fl) (ha : a.flying = l ++ fl :: r) :
    Backs inet_addr { s.setLoop j .top with
        flying := s.flying + outs
        printed := s.printed ++ printed }
      { a with flying := l ++ r ++ outs, printed := a.printed ++ printed } := by
  have hsum := sum_contents_setLoop s j .top
  rw [hserving] at hsum
  have hall : ∑ i, (s.loop i).contents = ∑ i, ((s.setLoop j .top).loop i).contents + {fl} :=
    (hsum.trans (add_zero _)).symm
  have hflying := h.flying
  have hmiddle : ((l ++ fl :: r : List Flying) : Multiset Flying) = ↑(l ++ r) + {fl} := by
    rw [add_comm]
    exact Multiset.coe_eq_coe.mpr List.perm_middle
  rw [ha, hmiddle, Sockets.underWay, hall, ← add_assoc, add_right_comm] at hflying
  have hrest := add_right_cancel hflying
  refine ⟨h.issued, congrArg (· ++ printed) h.printed, ?_, h.addressed.setLoop (by simp [Loop.contents])⟩
  show ((l ++ r ++ outs : List Flying) : Multiset Flying) =
    s.flying + ↑outs + ∑ i, ((s.setLoop j .top).loop i).contents + s.discarded
  rw [← Multiset.coe_add, hrest]
  abel

theorem SocketStep.backs {e : SocketEvent peers.length} {a : Service} (ha : Backs inet_addr s a)
    (h : SocketStep inet_addr peers s e t) :
    e.turn = none ∧ Backs inet_addr t a ∨
      ∃ d b, e.turn = some d ∧ ServiceStep inet_addr peers a d b ∧ Backs inet_addr t b := by
  cases h with
  | @issue i f out hreg hcmd =>
    have hi : peers[i.val]? = some (peers.get i) := List.getElem?_eq_getElem i.isLt
    refine Or.inr ⟨_, _, rfl, .issue hi hreg hcmd, congrArg (· ++ [(i.val, f)]) ha.issued,
      ha.printed, ?_, ha.addressed⟩
    show ((a.flying ++ [out.flying a.issued.length 0] : List Flying) : Multiset Flying) =
      out.flying s.issued.length 0 ::ₘ s.flying + _ + s.discarded
    rw [← Multiset.coe_add, ha.flying, ha.issued, Multiset.cons_add, Multiset.cons_add, add_comm]
    exact Multiset.singleton_add _ _
  | @arrive i fl hfl hdest =>
    refine Or.inl ⟨rfl, ?_, ?_, ?_, ?_⟩
    · rw [ha.issued, Sockets.arrive_issued]
    · rw [ha.printed, Sockets.arrive_printed]
    · rw [ha.flying, s.arrive_everything i hfl]
    · exact ha.addressed.arrive hdest
  | @bind i htop =>
    refine Or.inl ⟨rfl, ha.of_setLoop ?_⟩
    rw [htop]
    rfl
  | @recvfrom i fl queue hbound =>
    refine Or.inl ⟨rfl, ha.of_setLoop ?_⟩
    rw [hbound]
    rfl
  | @close i fl queue hread => exact Or.inl ⟨rfl, ha.close hread⟩
  | @serve i fl handling outs hserving hturn =>
    have hi : peers[i.val]? = some (peers.get i) := List.getElem?_eq_getElem i.isLt
    have hcontents : fl ∈ (s.loop i).contents := by
      rw [hserving]
      exact Multiset.mem_singleton_self fl
    have hloop : fl ∈ ∑ i, (s.loop i).contents :=
      Multiset.mem_sum.mpr ⟨i, Finset.mem_univ i, hcontents⟩
    have hdest := ha.addressed i fl hcontents
    have hmem : fl ∈ (a.flying : Multiset Flying) := by
      rw [ha.flying]
      exact Multiset.mem_add.mpr (Or.inl (Multiset.mem_add.mpr (Or.inr hloop)))
    obtain ⟨l, r, hlist⟩ := List.append_of_mem (Multiset.mem_coe.mp hmem)
    exact Or.inr ⟨_, _, rfl, .turn hlist hi hdest hturn, ha.serve hserving hlist⟩

/-- Every run on the sockets is a run of the service loops in which what was discarded stays in flight. -/
theorem run_backs (h : Run (SocketStep inet_addr peers) (Sockets.init peers.length) past s) :
    ∃ apast a, Run (ServiceStep inet_addr peers) ⟨[], [], []⟩ apast a ∧ Backs inet_addr s a ∧
      apast.map Prod.snd = past.filterMap fun x => x.2.turn := by
  have hempty : (Sockets.init peers.length).underWay + (Sockets.init peers.length).discarded = 0 := by
    simp [Sockets.underWay, Sockets.init, Loop.contents]
  have hnobody : Addressed inet_addr (Sockets.init peers.length) := fun j fl hfl =>
    absurd hfl (Multiset.notMem_zero fl)
  exact h.simulate_stuttering SocketEvent.turn ⟨rfl, rfl, hempty.symm, hnobody⟩
    fun _ _ _ _ ha hstep => hstep.backs ha

end

section
variable {payloads : List Str} {B : BootstrapRun payloads} {inet_addr : Str → UInt32}
  {past : List (Sockets B.peers.length × SocketEvent B.peers.length)} {s : Sockets B.peers.length}

theorem run_search_sockets (haddr : (B.peers.map fun nd => addrOf inet_addr nd.ip_port).Nodup)
    (hclear : Clear B)
    (h : Run (SocketStep inet_addr B.peers) (Sockets.init B.peers.length) past s)
    {k i : ℕ} {f : Str} (hk : s.issued[k]? = some (i, f)) :
    ∃ owner, LastOwner B.all_info f owner ∧
      ((s.underWay + s.discarded).countP (fun fl => fl.search = k) = 1 ∧
          (s.printed.filter fun p => p.search = k) = [] ∨
        (s.underWay + s.discarded).countP (fun fl => fl.search = k) = 0 ∧
          (s.printed.filter fun p => p.search = k) = [⟨k, i, recvinfo (ownerText f owner)⟩]) := by
  obtain ⟨apast, a, hrun, hbacks, -⟩ := run_backs h
  obtain ⟨owner, howner, hcases⟩ := run_search haddr hclear hrun (hbacks.issued.symm ▸ hk)
  have hcount : a.flying.countP (fun fl => fl.search = k) =
      (s.underWay + s.discarded).countP (fun fl => fl.search = k) := by
    rw [← hbacks.flying, Multiset.coe_countP]
  rw [hcount, hbacks.printed] at hcases
  refine ⟨owner, howner, ?_⟩
  obtain ⟨-, hone⟩ | ⟨-, hzero⟩ := hcases
  · exact Or.inl hone
  · exact Or.inr hzero

end

/-! ## Every run ends -/

/-- The steps before the loop is in `recvfrom` with nothing queued. -/
def Loop.stepsLeft : Loop → ℕ
  | .top => 1
  | .bound queue => 4 * queue.length
  | .read _ queue => 3 + 4 * queue.length
  | .serving _ => 2

def Sockets.stepsLeft {n : ℕ} (s : Sockets n) : ℕ :=
  5 * s.flying.card + ∑ j, (s.loop j).stepsLeft

def SocketEvent.serves {n : ℕ} : SocketEvent n → Bool
  | .serve _ _ => true
  | _ => false

section
variable {inet_addr : Str → UInt32} {peers : List Node}
  {past : List (Sockets peers.length × SocketEvent peers.length)} {s t : Sockets peers.length}

theorem Sockets.stepsLeft_discard {n : ℕ} (s : Sockets n) (fls : Multiset Flying) :
    (s.discard fls).stepsLeft = s.stepsLeft := rfl

theorem length_serviceTurn {nd : Node} {payload : Str} {handling : Handling} {outs : List Sent}
    (h : serviceTurn inet_addr nd payload = some (handling, outs)) :
    outs.length + (if handling = .printed then 1 else 0) ≤ 1 := by
  simp only [serviceTurn] at h
  split at h
  · obtain ⟨out, -, heq⟩ := Option.map_eq_some_iff.mp h
    obtain ⟨rfl, rfl⟩ := Prod.mk.inj heq
    exact le_rfl
  · obtain ⟨rfl, rfl⟩ := Prod.mk.inj (Option.some.inj h)
    rw [List.length_nil]
    split_ifs <;> omega

theorem sum_stepsLeft_setLoop {n : ℕ} (s : Sockets n) (j : Fin n) (l : Loop) :
    ∑ i, ((s.setLoop j l).loop i).stepsLeft + (s.loop j).stepsLeft =
      ∑ i, (s.loop i).stepsLeft + l.stepsLeft :=
  sum_update_add (fun _ => Loop.stepsLeft) s.loop j l

theorem Sockets.stepsLeft_setLoop {n : ℕ} (s : Sockets n) {j : Fin n} {l : Loop}
    (hless : 1 + l.stepsLeft ≤ (s.loop j).stepsLeft) : 1 + (s.setLoop j l).stepsLeft ≤ s.stepsLeft := by
  have hsum := sum_stepsLeft_setLoop s j l
  show 1 + (5 * s.flying.card + ∑ i, ((s.setLoop j l).loop i).stepsLeft) ≤
    5 * s.flying.card + ∑ i, (s.loop i).stepsLeft
  omega

theorem Loop.stepsLeft_deliver {l l' : Loop} {fl : Flying} (h : l.deliver fl = some l') :
    l'.stepsLeft = l.stepsLeft + 4 := by
  cases l with
  | top | serving _ => cases h
  | bound queue | read _ queue =>
    obtain rfl := Option.some.inj h
    simp only [Loop.stepsLeft, List.length_append, List.length_singleton]
    omega

theorem Sockets.stepsLeft_arrive {n : ℕ} (s : Sockets n) (j : Fin n) {fl : Flying}
    (hfl : fl ∈ s.flying) : 1 + (s.arrive j fl).stepsLeft ≤ s.stepsLeft := by
  have hcard := Multiset.card_erase_add_one hfl
  unfold Sockets.arrive
  cases hdeliver : (s.loop j).deliver fl with
  | none =>
    show 1 + (5 * (s.flying.erase fl).card + ∑ i, (s.loop i).stepsLeft) ≤
      5 * s.flying.card + ∑ i, (s.loop i).stepsLeft
    omega
  | some l =>
    have hsum := sum_stepsLeft_setLoop s j l
    rw [Loop.stepsLeft_deliver hdeliver] at hsum
    show 1 + (5 * (s.flying.erase fl).card + ∑ i, ((s.setLoop j l).loop i).stepsLeft) ≤
      5 * s.flying.card + ∑ i, (s.loop i).stepsLeft
    omega

/-- A step that is no command is one step less to go; a datagram that is sent is five more. -/
theorem SocketStep.paid {e : SocketEvent peers.length} (h : SocketStep inet_addr peers s e t) :
    (!e.issues).toNat + t.stepsLeft + 5 * t.printed.length + 5 * s.issued.length ≤
      s.stepsLeft + 5 * s.printed.length + 5 * t.issued.length + 5 * e.serves.toNat := by
  cases h with
  | @issue i f out _ _ =>
    simp only [SocketEvent.issues, SocketEvent.serves, Bool.not_true, Bool.toNat_false,
      Sockets.stepsLeft, Multiset.card_cons, List.length_append, List.length_singleton]
    omega
  | @arrive i fl hfl _ =>
    have hpaid := s.stepsLeft_arrive i hfl
    simp only [SocketEvent.issues, SocketEvent.serves, Bool.not_false, Bool.toNat_true,
      Bool.toNat_false, s.arrive_issued, s.arrive_printed]
    omega
  | @bind i htop =>
    have hpaid : 1 + (s.setLoop i (.bound [])).stepsLeft ≤ s.stepsLeft :=
      s.stepsLeft_setLoop (htop ▸ le_rfl)
    simp only [SocketEvent.issues, SocketEvent.serves, Bool.not_false, Bool.toNat_true,
      Bool.toNat_false, Sockets.setLoop_issued, Sockets.setLoop_printed]
    omega
  | @recvfrom i fl queue hbound =>
    have hless : 1 + (Loop.read fl queue).stepsLeft ≤ (s.loop i).stepsLeft := by
      rw [hbound]
      show 1 + (3 + 4 * queue.length) ≤ 4 * (queue.length + 1)
      omega
    have hpaid := s.stepsLeft_setLoop hless
    simp only [SocketEvent.issues, SocketEvent.serves, Bool.not_false, Bool.toNat_true,
      Bool.toNat_false, Sockets.setLoop_issued, Sockets.setLoop_printed]
    omega
  | @close i fl queue hread =>
    have hless : 1 + (Loop.serving fl).stepsLeft ≤ (s.loop i).stepsLeft := by
      rw [hread]
      exact Nat.le_add_right 3 _
    have hpaid := s.stepsLeft_setLoop hless
    simp only [SocketEvent.issues, SocketEvent.serves, Bool.not_false, Bool.toNat_true,
      Bool.toNat_false, Sockets.discard_issued, Sockets.discard_printed, Sockets.stepsLeft_discard,
      Sockets.setLoop_issued, Sockets.setLoop_printed]
    omega
  | @serve i fl handling outs hserving hturn =>
    have hlen := length_serviceTurn hturn
    have hsum : ∑ j, ((s.setLoop i .top).loop j).stepsLeft + 2 = ∑ j, (s.loop j).stepsLeft + 1 := by
      have hloop := sum_stepsLeft_setLoop s i .top
      rwa [hserving] at hloop
    have hprinted : (if handling = .printed then
        [(⟨fl.search, i.val, recvinfo fl.datagram.payload⟩ : Printed)] else []).length =
        if handling = .printed then 1 else 0 := by
      split_ifs <;> rfl
    simp only [SocketEvent.issues, SocketEvent.serves, Bool.not_false, Bool.toNat_true,
      Sockets.setLoop_issued, Sockets.stepsLeft, Multiset.card_add, Multiset.coe_card,
      List.length_map, List.length_append, hprinted]
    omega

/-- In every run, all steps but the commands, and the steps that are left. -/
theorem run_paid (h : Run (SocketStep inet_addr peers) (Sockets.init peers.length) past s) :
    past.countP (fun x => !x.2.issues) + s.stepsLeft + 5 * s.printed.length ≤
      peers.length + 5 * s.issued.length + 5 * past.countP (fun x => x.2.serves) := by
  induction h with
  | start => simp [Sockets.stepsLeft, Sockets.init, Loop.stepsLeft]
  | @next past s t e _ hstep ih =>
    have hpaid := hstep.paid
    have hstepped : (if (!e.issues) = true then 1 else 0) = (!e.issues).toNat := by
      cases e.issues <;> rfl
    have hserved : (if e.serves = true then 1 else 0) = e.serves.toNat := by
      cases e.serves <;> rfl
    rw [List.countP_cons, List.countP_cons, hstepped, hserved]
    omega

end

section
variable {payloads : List Str} {B : BootstrapRun payloads} {inet_addr : Str → UInt32}
  {past : List (Sockets B.peers.length × SocketEvent B.peers.length)} {s : Sockets B.peers.length}

theorem countP_serves (past : List (Sockets B.peers.length × SocketEvent B.peers.length)) :
    ((past.filterMap fun x => x.2.turn).countP fun e => e.isTurn) =
      past.countP fun x => x.2.serves := by
  induction past with
  | nil => rfl
  | cons x past ih =>
    rw [List.countP_cons, ← ih, List.filterMap_cons]
    cases x.2 with
    | issue i f => exact List.countP_cons_of_neg Bool.false_ne_true
    | serve j k => exact List.countP_cons_of_pos rfl
    | arrive | bind | recvfrom | close => rfl

/-- When only commands are left to do, nothing is on its way. -/
theorem underWay_at_rest (haddr : (B.peers.map fun nd => addrOf inet_addr nd.ip_port).Nodup)
    (hclear : Clear B)
    (h : Run (SocketStep inet_addr B.peers) (Sockets.init B.peers.length) past s)
    (hrest : ∀ e t, SocketStep inet_addr B.peers s e t → e.issues = true) : s.underWay = 0 := by
  obtain ⟨apast, a, hrun, hbacks, -⟩ := run_backs h
  have hmem : ∀ fl ∈ s.underWay, fl ∈ a.flying := by
    intro fl hfl
    have hall : fl ∈ (a.flying : Multiset Flying) :=
      hbacks.flying ▸ Multiset.mem_add.mpr (Or.inl hfl)
    exact Multiset.mem_coe.mp hall
  have hflying : s.flying = 0 := by
    refine Multiset.eq_zero_of_forall_notMem fun fl hfl => ?_
    obtain ⟨j, nd, -, -, hnd, hdest, -⟩ :=
      exists_turn haddr hclear hrun (hmem fl (Multiset.mem_add.mpr (Or.inl hfl)))
    obtain ⟨hj, rfl⟩ := List.getElem?_eq_some_iff.mp hnd
    cases hrest _ _ (SocketStep.arrive (j := ⟨j, hj⟩) hfl hdest)
  have hloop : ∀ j, (s.loop j).contents = 0 := by
    intro j
    cases hl : s.loop j with
    | top => rfl
    | bound queue =>
      cases queue with
      | nil => rfl
      | cons fl queue => cases hrest _ _ (.recvfrom hl)
    | read fl queue => cases hrest _ _ (.close hl)
    | serving fl =>
      have hcontents : fl ∈ (s.loop j).contents := by
        rw [hl]
        exact Multiset.mem_singleton_self fl
      have hway : fl ∈ s.underWay := Multiset.mem_add.mpr
        (Or.inr (Multiset.mem_sum.mpr ⟨j, Finset.mem_univ j, hcontents⟩))
      obtain ⟨j', nd, handling, outs, hnd, hdest, hturn⟩ :=
        exists_turn haddr hclear hrun (hmem fl hway)
      obtain ⟨hj', rfl⟩ := List.getElem?_eq_some_iff.mp hnd
      -- the datagram is at the peer that it is addressed to
      have hj : B.peers[j.val]? = some (B.peers.get j) := List.getElem?_eq_getElem j.isLt
      obtain rfl : j' = j.val := by
        refine addr_inj haddr (BootstrapRun.peer_lt hnd) (BootstrapRun.peer_lt hj) ?_
        rw [← BootstrapRun.peer_ip_port hnd, ← BootstrapRun.peer_ip_port hj, hdest]
        exact (hbacks.addressed j fl hcontents).symm
      cases hrest _ _ (.serve hl hturn)
  rw [Sockets.underWay, hflying, Finset.sum_eq_zero fun j _ => hloop j]
  rfl

/-- Nothing is discarded, and no socket has more than the datagram of its call. -/
def Sockets.Kept {n : ℕ} (s : Sockets n) : Prop :=
  s.discarded = 0 ∧ ∀ j, (s.loop j).phase.held.length ≤ 1

theorem Sockets.kept_setLoop {n : ℕ} (s : Sockets n) (j : Fin n) (l : Loop) :
    (s.setLoop j l).Kept ↔
      s.discarded = 0 ∧ l.phase.held.length ≤ 1 ∧ ∀ i, i ≠ j → (s.loop i).phase.held.length ≤ 1 :=
  and_congr_right fun _ => Function.forall_update_iff s.loop (p := fun _ l => l.phase.held.length ≤ 1)

theorem Sockets.kept_iff {n : ℕ} (s : Sockets n) (j : Fin n) :
    s.Kept ↔ s.discarded = 0 ∧ (s.loop j).phase.held.length ≤ 1 ∧
      ∀ i, i ≠ j → (s.loop i).phase.held.length ≤ 1 := by
  rw [← s.kept_setLoop j, Sockets.setLoop, Function.update_eq_self]

theorem Sockets.kept_setLoop_iff {n : ℕ} (s : Sockets n) {j : Fin n} {l : Loop}
    (h : l.phase.held.length ≤ 1 ↔ (s.loop j).phase.held.length ≤ 1) :
    (s.setLoop j l).Kept ↔ s.Kept := by
  rw [s.kept_setLoop, h, ← s.kept_iff j]

/-- A datagram that is discarded or queued behind another is one that did not find its loop. -/
theorem Sockets.kept_arrive_iff {n : ℕ} (s : Sockets n) (j : Fin n) (fl : Flying) :
    (s.arrive j fl).Kept ↔ s.Kept ∧ s.loop j = .bound [] := by
  have hlost : ∀ t : Sockets n, ¬ (t.discard {fl}).Kept := fun t h =>
    Multiset.singleton_ne_zero fl (add_eq_zero.mp h.1).2
  unfold Sockets.arrive
  cases hl : s.loop j with
  | top | serving _ => exact iff_of_false (hlost _) fun h => Loop.noConfusion h.2
  | bound queue =>
    have hkept := s.kept_iff j
    have harrived : _ ↔ _ := s.kept_setLoop j (.bound (queue ++ [fl]))
    rw [hl] at hkept
    rw [hkept]
    refine harrived.trans ?_
    cases queue with
    | nil => simp [Loop.phase, CallPhase.held]
    | cons fl' queue => simp [Loop.phase, CallPhase.held]
  | read mesg queue =>
    refine iff_of_false (fun h => ?_) fun h => Loop.noConfusion h.2
    have hlen := ((s.kept_setLoop j (.read mesg (queue ++ [fl]))).mp h).2.1
    simp [Loop.phase, CallPhase.held] at hlen

/-- A step keeps everything exactly if a datagram that arrives finds its loop. -/
theorem SocketStep.kept_iff {peers : List Node} {s t : Sockets peers.length}
    {e : SocketEvent peers.length} (h : SocketStep inet_addr peers s e t) :
    t.Kept ↔ s.Kept ∧ FindsLoop s e := by
  cases h with
  | issue _ _ => exact (and_iff_left trivial).symm
  | @arrive j fl _ _ => exact s.kept_arrive_iff j fl
  | @bind j htop => exact (s.kept_setLoop_iff (htop ▸ Iff.rfl)).trans (and_iff_left trivial).symm
  | @recvfrom j fl queue hbound =>
    refine (s.kept_setLoop_iff ?_).trans (and_iff_left trivial).symm
    rw [hbound]
    rfl
  | @close j fl queue hread =>
    refine Iff.trans ?_ (and_iff_left trivial).symm
    have hkept := s.kept_iff j
    rw [hread] at hkept
    rw [hkept]
    have hdiscard : ((s.setLoop j (.serving fl)).discard queue).Kept ↔
        queue = [] ∧ (s.setLoop j (.serving fl)).Kept := by
      have hzero : s.discarded + (queue : Multiset Flying) = 0 ↔ s.discarded = 0 ∧ queue = [] := by
        rw [add_eq_zero, Multiset.coe_eq_zero]
      exact (and_congr_left fun _ => hzero).trans ⟨fun h => ⟨h.1.2, h.1.1, h.2⟩, fun h => ⟨⟨h.2.1, h.1⟩, h.2.2⟩⟩
    rw [hdiscard, s.kept_setLoop]
    cases queue with
    | nil => simp [Loop.phase, CallPhase.held]
    | cons fl' queue => simp [Loop.phase, CallPhase.held]
  | @serve j fl handling outs hserving _ =>
    refine Iff.trans ?_ (and_iff_left trivial).symm
    exact s.kept_setLoop_iff (hserving ▸ Iff.rfl)

theorem kept_init (n : ℕ) : (Sockets.init n).Kept := ⟨rfl, fun _ => Nat.zero_le 1⟩

theorem run_kept_iff {peers : List Node}
    {past : List (Sockets peers.length × SocketEvent peers.length)} {s : Sockets peers.length}
    (h : Run (SocketStep inet_addr peers) (Sockets.init peers.length) past s) :
    s.Kept ↔ Guarded FindsLoop past :=
  h.good_iff (I := fun _ => True) (G := Sockets.Kept) trivial (kept_init peers.length)
    fun _ _ _ _ hstep => ⟨trivial, hstep.kept_iff⟩

theorem Loop.held_of_contents {l : Loop} (h : l.contents = 0) : l.phase.held = [] := by
  cases l with
  | top | serving _ => rfl
  | bound queue =>
    rw [(Multiset.coe_eq_zero queue).mp h]
    rfl
  | read fl queue =>
    have hcons : fl ::ₘ (queue : Multiset Flying) = 0 := h
    exact absurd hcons Multiset.cons_ne_zero

end

/-! ## A request that finds no loop -/

def pairHome : Fin pairRun.peers.length := ⟨0, by decide +kernel⟩

def pairAsker : Fin pairRun.peers.length := ⟨1, by decide +kernel⟩

/-- The request for `a` is in flight, and the loops are in the calls of `__recvinfo` that `loop` says. -/
def pairSent (loop : Fin pairRun.peers.length → Loop) : Sockets pairRun.peers.length :=
  ⟨[(1, bytes "a")], {.request ⟨0, 1, pairRequest⟩}, loop, [], 0⟩

/-- It came to its home before the loop there was in a call. -/
def pairDiscarded (loop : Fin pairRun.peers.length → Loop) : Sockets pairRun.peers.length :=
  ⟨[(1, bytes "a")], 0, loop, [], {.request ⟨0, 1, pairRequest⟩}⟩

theorem pairPeer_cases (j : Fin pairRun.peers.length) : j = pairHome ∨ j = pairAsker := by
  have hlen : pairRun.peers.length = 2 := by decide +kernel
  have hlt := j.isLt
  obtain hj | hj : j.val = 0 ∨ j.val = 1 := by omega
  · exact Or.inl (Fin.ext hj)
  · exact Or.inr (Fin.ext hj)

theorem pairLoops : Function.update (Function.update (fun _ => Loop.top) pairHome (.bound [])) pairAsker
    (.bound []) = fun _ => .bound [] := by
  funext j
  obtain rfl | rfl := pairPeer_cases j <;> rfl

def pairAtRest : Sockets pairRun.peers.length := pairDiscarded fun _ => .bound []

theorem run_pairAtRest : ∃ past, Run (SocketStep dottedQuad pairRun.peers)
    (Sockets.init pairRun.peers.length) past pairAtRest := by
  have hcmd : userCommand dottedQuad (pairRun.peers.get pairAsker) (searchLine (bytes "a")) =
      some [.forward pairRequest] := by decide +kernel
  have hdest : addrOf dottedQuad (pairRun.peers.get pairHome).ip_port = pairRequest.dest := by
    decide +kernel
  have hissue : SocketStep dottedQuad pairRun.peers (Sockets.init pairRun.peers.length)
      (.issue pairAsker (bytes "a")) (pairSent fun _ => .top) := .issue pairRegistered hcmd
  have hlost : (pairSent fun _ => .top).arrive pairHome (.request ⟨0, 1, pairRequest⟩) =
      pairDiscarded fun _ => .top := by
    simp [pairSent, pairDiscarded, Sockets.arrive, Loop.deliver, Sockets.discard]
  have harrive : SocketStep dottedQuad pairRun.peers (pairSent fun _ => .top)
      (.arrive pairHome (.request ⟨0, 1, pairRequest⟩)) (pairDiscarded fun _ => .top) :=
    hlost ▸ .arrive (Multiset.mem_singleton_self _) hdest
  have hbind : SocketStep dottedQuad pairRun.peers (pairDiscarded fun _ => .top) (.bind pairHome)
      (pairDiscarded (Function.update (fun _ => .top) pairHome (.bound []))) := .bind rfl
  have hlast : SocketStep dottedQuad pairRun.peers
      (pairDiscarded (Function.update (fun _ => .top) pairHome (.bound []))) (.bind pairAsker)
      pairAtRest := by
    rw [pairAtRest, ← pairLoops]
    exact .bind rfl
  exact ⟨_, (((Run.start.next hissue).next harrive).next hbind).next hlast⟩

theorem pairAtRest_rests : ∀ e t, SocketStep dottedQuad pairRun.peers pairAtRest e t →
    e.issues = true := by
  intro e t h
  cases h with
  | issue _ _ => rfl
  | arrive hfl _ => exact absurd hfl (Multiset.notMem_zero _)
  | bind hloop | recvfrom hloop | close hloop | serve hloop _ => cases hloop

end ComputerNetworks.PeerRing
