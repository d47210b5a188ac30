import ComputerNetworks.LabServer.Network

/-! # The end of a transfer, `get_file` against `server2.cpp`

A client leaves its receive loop when a `read` returns nothing more, so at the end of the stream;
the server closes a connection when a `read` from it returns nothing, so after the client has left.
`Paired` is this second half, and holds in every run. `notStuck_iff` says what follows for a
complete transfer: in which runs the server is back in `select`, nothing is on the way, and a client
that has all it was announced still waits. Where no transfer completes, none does (`neverStuck`).
-/
namespace ComputerNetworks.LabServer
open Runs
set_option autoImplicit false

/-! ## What a step changes -/

@[simp] theorem deliver_phase (client : Client) (data : Str) :
    (client.deliver data).phase = client.phase := by
  unfold Client.deliver
  split_ifs <;> rfl

@[simp] theorem consume_phase (n : Network) (e : ServerEvent) (c : ℕ) :
    (n.consume e c).phase = (n.client c).phase := by
  cases e with
  | request buffer found fault =>
    by_cases hasked : n.server.asked = some c
    · simp only [Network.consume, if_pos hasked]
    · simp only [Network.consume, if_neg hasked]
  | _ => rfl

@[simp] theorem serve_phase (n : Network) (e : ServerEvent) (t : Server) (c : ℕ) :
    ((n.serve e t).client c).phase = (n.client c).phase := by
  unfold Network.serve
  rw [deliver_phase, consume_phase]

theorem setClient_same (n : Network) (c : ℕ) (client : Client) :
    (n.setClient c client).client c = client :=
  Function.update_self _ _ _

theorem setClient_other (n : Network) {c c' : ℕ} (h : c' ≠ c) (client : Client) :
    (n.setClient c client).client c' = n.client c' :=
  Function.update_of_ne h _ _

/-- Connections are opened by `accept` and closed by `hangUp`, and by nothing else. -/
theorem ServerStep.conns_cases {s t : Server} {e : ServerEvent} (h : ServerStep s e t) :
    (t.conns = s.conns ∧ t.accepted = s.accepted) ∨
    (∃ fd, e = .accept fd ∧ s.conns fd = none ∧
      t.conns = Function.update s.conns fd (some s.accepted) ∧ t.accepted = s.accepted + 1) ∨
    (∃ i, e = .hangUp ∧ s.current = some i ∧ t.conns = Function.update s.conns i none ∧
      t.accepted = s.accepted) := by
  cases h with
  | select _ _ _ => exact Or.inl ⟨rfl, rfl⟩
  | selectFails _ _ => exact Or.inl ⟨rfl, rfl⟩
  | skip _ _ _ _ => exact Or.inl ⟨rfl, rfl⟩
  | endPass _ _ _ => exact Or.inl ⟨rfl, rfl⟩
  | @accept read_fds fd _ _ _ _ _ hfree =>
    unfold Server.accept
    split_ifs with hlt
    · exact Or.inr (Or.inl ⟨fd, rfl, hfree, rfl, rfl⟩)
    · exact Or.inl ⟨rfl, rfl⟩
  | acceptFails _ _ _ _ => exact Or.inl ⟨rfl, rfl⟩
  | @hangUp i read_fds _ hpass _ _ _ =>
    refine Or.inr (Or.inr ⟨i, rfl, ?_, rfl, rfl⟩)
    unfold Server.current
    rw [hpass]
    rfl
  | readFails _ _ _ _ _ => exact Or.inl ⟨rfl, rfl⟩
  | @request i read_fds buffer found fault _ _ _ _ _ _ _ =>
    have hout := request_outcome s i read_fds buffer found fault
    generalize s.request i read_fds buffer found fault = t at hout ⊢
    cases hout with
    | stops _ _ => exact Or.inl ⟨rfl, rfl⟩
    | answers _ _ _ _ => exact Or.inl ⟨rfl, rfl⟩
    | cutShort _ _ _ _ _ => exact Or.inl ⟨rfl, rfl⟩

/-! ## Connections and clients -/

/-- The server closes a connection, or loses sight of it, only after its client is gone. -/
structure Paired (n : Network) : Prop where
  fresh : ∀ c, n.connected ≤ c → (n.client c).phase = .connected
  accepted : n.server.accepted ≤ n.connected
  closed : n.server.status.gone = false → ∀ c, n.server.Closed c → (n.client c).phase.closed

theorem paired_init (listener : ℕ) : Paired (Network.init listener) := by
  refine ⟨fun _ _ => rfl, le_refl _, fun _ c hc => ?_⟩
  obtain hgone | ⟨hlt, -⟩ := hc
  · cases hgone
  · exact absurd hlt (Nat.not_lt_zero c)

theorem Paired.setClient {n : Network} (hn : Paired n) {c : ℕ} (hc : c < n.connected)
    {client : Client} (hclosed : (n.client c).phase.closed → client.phase.closed) :
    Paired (n.setClient c client) := by
  refine ⟨fun c' hc' => ?_, hn.accepted, fun hrun c' hc' => ?_⟩
  · have hne : c' ≠ c := by
      have hle : n.connected ≤ c' := hc'
      omega
    rw [setClient_other n hne]
    exact hn.fresh c' hc'
  · have hold := hn.closed hrun c' hc'
    obtain rfl | hne := eq_or_ne c' c
    · rw [setClient_same]
      exact hclosed hold
    · rw [setClient_other n hne]
      exact hold

theorem Paired.connect {n : Network} (hn : Paired n) (client : Client) :
    Paired { n.setClient n.connected client with connected := n.connected + 1 } := by
  have hother : ∀ c, c ≠ n.connected →
      (n.setClient n.connected client).client c = n.client c :=
    fun c hne => setClient_other n hne client
  refine ⟨fun c hc => ?_, Nat.le_succ_of_le hn.accepted, fun hrun c hc => ?_⟩
  · have hle : n.connected + 1 ≤ c := hc
    show ((n.setClient n.connected client).client c).phase = .connected
    rw [hother c (by omega)]
    exact hn.fresh c (by omega)
  · have hold := hn.closed hrun c hc
    have hne : c ≠ n.connected := by
      rintro rfl
      rw [hn.fresh n.connected (le_refl _)] at hold
      cases hold
    show ((n.setClient n.connected client).client c).phase.closed
    rw [hother c hne]
    exact hold

theorem ServerStep.not_gone {s t : Server} {e : ServerEvent} (h : ServerStep s e t) :
    s.status.gone = false := by
  rw [h.running]
  rfl

/-- A server that goes on closes the connection it is at, when it hangs up, and no other. -/
theorem ServerStep.closed_cases {s t : Server} {e : ServerEvent} (h : ServerStep s e t)
    (hgone : t.status.gone = false) {c : ℕ} (hc : t.Closed c) :
    s.Closed c ∨ (e = .hangUp ∧ s.asked = some c) := by
  obtain ⟨hlt, hnone⟩ : c < t.accepted ∧ ∀ fd, t.conns fd ≠ some c := by
    apply hc.resolve_left
    rw [hgone]
    exact Bool.false_ne_true
  obtain ⟨hconns, hacc⟩ | ⟨fd, rfl, hfree, hconns, hacc⟩ | ⟨i, rfl, hcur, hconns, hacc⟩ :=
    h.conns_cases
  · rw [hacc] at hlt
    rw [hconns] at hnone
    exact Or.inl (Or.inr ⟨hlt, hnone⟩)
  · -- the new connection has a descriptor, and every other one keeps its own
    rw [hconns] at hnone
    have hne : c ≠ s.accepted := by
      rintro rfl
      exact hnone fd (Function.update_self _ _ _)
    refine Or.inl (Or.inr ⟨by omega, fun fd' hfd' => ?_⟩)
    have hfd : fd' ≠ fd := by
      rintro rfl
      rw [hfree] at hfd'
      cases hfd'
    apply hnone fd'
    rw [Function.update_of_ne hfd]
    exact hfd'
  · -- only the connection that the loop is at loses its descriptor
    rw [hconns] at hnone
    rw [hacc] at hlt
    by_cases hi : s.conns i = some c
    · refine Or.inr ⟨rfl, ?_⟩
      unfold Server.asked
      rw [hcur]
      exact hi
    · refine Or.inl (Or.inr ⟨hlt, fun fd h => ?_⟩)
      have hfd : fd ≠ i := by
        rintro rfl
        exact hi h
      apply hnone fd
      rw [Function.update_of_ne hfd]
      exact h

theorem ServerStep.accepted_le {n : Network} {e : ServerEvent} {t : Server}
    (h : ServerStep n.server e t) (hpossible : n.Possible e)
    (hle : n.server.accepted ≤ n.connected) : t.accepted ≤ n.connected := by
  obtain ⟨-, hacc⟩ | ⟨fd, rfl, -, -, hacc⟩ | ⟨i, -, -, -, hacc⟩ := h.conns_cases
  · omega
  · have hlt : n.server.accepted < n.connected := hpossible
    omega
  · omega

theorem Paired.serve {n : Network} (hn : Paired n) {e : ServerEvent} {t : Server}
    (hstep : ServerStep n.server e t) (hpossible : n.Possible e) : Paired (n.serve e t) := by
  refine ⟨fun c hc => ?_, hstep.accepted_le hpossible hn.accepted, fun hgone c hc => ?_⟩
  · rw [serve_phase]
    exact hn.fresh c hc
  · rw [serve_phase]
    obtain hc | ⟨rfl, hasked⟩ := hstep.closed_cases hgone hc
    · exact hn.closed hstep.not_gone c hc
    · obtain ⟨c', hasked', hclosed, -⟩ : ∃ c', n.server.asked = some c' ∧
        (n.client c').phase.closed ∧ (n.client c').toServer = [] := hpossible
      obtain rfl := Option.some.inj (hasked.symm.trans hasked')
      exact hclosed

theorem Phase.reading_not_closed {phase : Phase} (h : phase.reading) : phase.closed = false := by
  cases phase <;> first | rfl | cases h

theorem Paired.lt_of_reading {n : Network} (hn : Paired n) {c : ℕ}
    (h : (n.client c).phase.reading) : c < n.connected := by
  by_contra hnot
  rw [hn.fresh c (by omega)] at h
  cases h

theorem NetworkStep.paired {n m : Network} {e : NetworkEvent} (hn : Paired n)
    (h : NetworkStep n e m) : Paired m := by
  cases h with
  | connect _ => exact hn.connect _
  | send hc hphase =>
    refine hn.setClient hc fun h => ?_
    rw [hphase] at h
    cases h
  | read hreading _ _ _ _ =>
    refine hn.setClient (hn.lt_of_reading hreading) fun h => ?_
    rw [Phase.reading_not_closed hreading] at h
    cases h
  | stop hc _ => exact hn.setClient hc fun _ => rfl
  | server hstep hpossible => exact hn.serve hstep hpossible

theorem run_paired {listener : ℕ} {past : List (Network × NetworkEvent)} {n : Network}
    (h : Run NetworkStep (Network.init listener) past n) : Paired n :=
  h.invariant (paired_init listener) fun _ _ _ hn hstep => hstep.paired hn

/-! ## Who waits at the end -/

/-- Client `c` reads the last byte it was announced. -/
def Completes (c : ℕ) (n : Network) : NetworkEvent → Prop
  | .read c' k _ => c' = c ∧ (n.client c).phase.Completes ((n.client c).toClient.take k)
  | _ => False

/-- Client `c` ends in the middle of `get_file`: its division traps, or it is stopped. -/
def Dies (c : ℕ) (n : Network) : NetworkEvent → Prop
  | .read c' _ d => c' = c ∧ (n.client c).phase.Traps d
  | .stop c' => c' = c
  | _ => False

/-- The server waits in `select`, and no bytes are on their way. -/
structure AtRest (n : Network) : Prop where
  running : n.server.status = .running
  waiting : n.server.pass = none
  delivered : ∀ c, (n.client c).toServer = [] ∧ (n.client c).toClient = []

/-- In a network at rest, a client has read as much as was announced and waits in its receive loop
for more, on a connection that is open. -/
structure Stuck (n : Network) : Prop where
  rest : AtRest n
  waits : ∃ c, (n.client c).phase.Complete ∧ ¬ n.server.Closed c

theorem NetworkStep.running {n m : Network} {e : NetworkEvent} (h : NetworkStep n e m)
    (hrun : m.server.status = .running) : n.server.status = .running := by
  cases h with
  | server hstep _ => exact hstep.running
  | _ => exact hrun

/-- While the server runs, a `read` returns bytes: it does not close a connection first. -/
theorem Paired.take_ne_nil {n : Network} (hn : Paired n) (hrun : n.server.status = .running)
    {c k : ℕ} (hreading : (n.client c).phase.reading) (hle : k ≤ (n.client c).toClient.length)
    (heof : k = 0 → (n.client c).toClient = [] ∧ n.server.Closed c) :
    (n.client c).toClient.take k ≠ [] := by
  have hpos : k ≠ 0 := by
    intro hk
    have hclosed := hn.closed (by rw [hrun]; rfl) c (heof hk).2
    rw [Phase.reading_not_closed hreading] at hclosed
    cases hclosed
  intro h
  have hlen := congrArg List.length h
  rw [List.length_take, List.length_nil] at hlen
  omega

/-- What a step does to the phase of client `c`. -/
inductive PhaseOutcome (n : Network) (c : ℕ) : NetworkEvent → Phase → Prop
  | same {e : NetworkEvent} : ¬ Completes c n e → ¬ Dies c n e →
      PhaseOutcome n c e (n.client c).phase
  | sent : (n.client c).phase = .connected → PhaseOutcome n c (.send c) .header
  | received {k : ℕ} {d : Option ℕ} : (n.client c).phase.reading →
      k ≤ (n.client c).toClient.length →
      (k = 0 → (n.client c).toClient = [] ∧ n.server.Closed c) →
      PhaseOutcome n c (.read c k d) ((n.client c).phase.read ((n.client c).toClient.take k) d)
  | stopped : PhaseOutcome n c (.stop c) .killed

theorem NetworkStep.phaseOutcome {n m : Network} {e : NetworkEvent} (hn : Paired n)
    (h : NetworkStep n e m) (c : ℕ) : PhaseOutcome n c e (m.client c).phase := by
  -- a step of another client, or one that leaves the phase as it is
  have hsame : ∀ phase, phase = (n.client c).phase → ¬ Completes c n e → ¬ Dies c n e →
      PhaseOutcome n c e phase := by
    rintro phase rfl hcomp hdies
    exact .same hcomp hdies
  cases h with
  | @connect name _ =>
    apply hsame _ _ not_false not_false
    show ((n.setClient n.connected _).client c).phase = _
    by_cases hc : c = n.connected
    · rw [hc, setClient_same, hn.fresh _ (le_refl _)]
      rfl
    · rw [setClient_other n hc]
  | @send c' _ hphase =>
    by_cases hc : c = c'
    · subst hc
      rw [setClient_same]
      exact .sent hphase
    · rw [setClient_other n hc]
      exact hsame _ rfl not_false not_false
  | @read c' k d hreading _ hle heof _ =>
    by_cases hc : c = c'
    · subst hc
      rw [setClient_same]
      exact .received hreading hle heof
    · rw [setClient_other n hc]
      exact hsame _ rfl (fun h => hc h.1.symm) (fun h => hc h.1.symm)
  | @stop c' _ _ =>
    by_cases hc : c = c'
    · subst hc
      rw [setClient_same]
      exact .stopped
    · rw [setClient_other n hc]
      exact hsame _ rfl not_false fun h => hc h.symm
  | server _ _ => exact hsame _ (serve_phase _ _ _ _) not_false not_false

theorem NetworkStep.complete_iff {n m : Network} {e : NetworkEvent} (hn : Paired n)
    (h : NetworkStep n e m) (hrun : m.server.status = .running) (c : ℕ) :
    (m.client c).phase.Complete ↔
      ((n.client c).phase.Complete ∨ Completes c n e) ∧ ¬ Dies c n e := by
  have hrun' := h.running hrun
  have hout := h.phaseOutcome hn c
  generalize (m.client c).phase = phase at hout ⊢
  cases hout with
  | same hcomp hdies => simp [hcomp, hdies]
  | sent hphase => simp [hphase, Phase.Complete, Completes]
  | received hreading hle heof =>
    rw [Phase.complete_read _ (hn.take_ne_nil hrun' hreading hle heof)]
    simp only [Completes, Dies, true_and]
    rw [or_iff_right_of_imp fun h => h.completes _]
  | stopped => simp [Phase.Complete, Dies]

theorem NetworkStep.killed {n m : Network} {e : NetworkEvent} (hn : Paired n)
    (h : NetworkStep n e m) {c : ℕ} (hc : Dies c n e ∨ (n.client c).phase = .killed) :
    (m.client c).phase = .killed := by
  have hout := h.phaseOutcome hn c
  generalize (m.client c).phase = phase at hout ⊢
  cases hout with
  | same _ hdies => exact hc.resolve_left hdies
  | sent hphase =>
    have hkilled := hc.resolve_left not_false
    rw [hphase] at hkilled
    cases hkilled
  | received hreading _ _ =>
    obtain hdies | hkilled := hc
    · exact hdies.2.read _
    · rw [hkilled] at hreading
      cases hreading
  | stopped => rfl

theorem not_completes_of_killed {c : ℕ} {n : Network} (h : (n.client c).phase = .killed)
    (e : NetworkEvent) : ¬ Completes c n e := by
  cases e with
  | read c' k d =>
    rintro ⟨-, hcomp⟩
    rw [h] at hcomp
    exact hcomp
  | _ => exact not_false

/-- While the server runs, the clients that have all they were announced and are still in the
receive loop are those that once read the last byte and have not died. -/
theorem run_complete_iff {listener : ℕ} {past : List (Network × NetworkEvent)} {n : Network}
    (h : Run NetworkStep (Network.init listener) past n) (hrun : n.server.status = .running)
    (c : ℕ) : (n.client c).phase.Complete ↔
      (∃ p ∈ past, Completes c p.1 p.2) ∧ ¬ ∃ p ∈ past, Dies c p.1 p.2 :=
  h.latched_iff (L := fun n => n.server.status = .running)
    (W := fun n => (n.client c).phase.Complete) (K := fun n => (n.client c).phase = .killed)
    not_false
    (fun _ _ _ _ hpast hstep hrun => ⟨hstep.running hrun,
      hstep.complete_iff (run_paired hpast) hrun c, hstep.killed (run_paired hpast),
      fun hkilled => not_completes_of_killed hkilled _⟩) hrun

theorem Phase.Complete.not_closed {phase : Phase} (h : phase.Complete) : phase.closed = false := by
  cases phase <;> first | rfl | exact h.elim

theorem run_stuck_iff {listener : ℕ} {past : List (Network × NetworkEvent)} {n : Network}
    (h : Run NetworkStep (Network.init listener) past n) :
    Stuck n ↔ AtRest n ∧ ∃ c, (∃ p ∈ past, Completes c p.1 p.2) ∧
      ¬ ∃ p ∈ past, Dies c p.1 p.2 := by
  constructor
  · rintro ⟨hrest, c, hcomplete, -⟩
    exact ⟨hrest, c, (run_complete_iff h hrest.running c).mp hcomplete⟩
  · rintro ⟨hrest, c, hhistory⟩
    have hcomplete := (run_complete_iff h hrest.running c).mpr hhistory
    refine ⟨hrest, c, hcomplete, fun hclosed => ?_⟩
    have hgone := (run_paired h).closed (by rw [hrest.running]; rfl) c hclosed
    rw [hcomplete.not_closed] at hgone
    cases hgone

/-- In every run, a network at rest has no client waiting after a complete transfer exactly if each
client that read the last byte it was announced has died since. -/
theorem notStuck_iff {listener : ℕ} {past : List (Network × NetworkEvent)} {n : Network}
    (h : Run NetworkStep (Network.init listener) past n) :
    ¬ Stuck n ↔ (AtRest n → ∀ c, (∃ p ∈ past, Completes c p.1 p.2) →
      ∃ p ∈ past, Dies c p.1 p.2) := by
  constructor
  · intro hnot hrest c hcomp
    by_contra hdies
    exact hnot ((run_stuck_iff h).mpr ⟨hrest, c, hcomp, hdies⟩)
  · intro hall hstuck
    obtain ⟨hrest, c, hcomp, hdies⟩ := (run_stuck_iff h).mp hstuck
    exact hdies (hall hrest c hcomp)

/-- A run in which no transfer completes passes through no such state. -/
theorem neverStuck {listener : ℕ} {past : List (Network × NetworkEvent)} {n : Network}
    (h : Run NetworkStep (Network.init listener) past n)
    (hnone : Guarded (fun n e => ∀ c, ¬ Completes c n e) past) :
    Always (fun n => ¬ Stuck n) past n := by
  refine h.always_of_guarded (fun past n hrun hnone hstuck => ?_) hnone
  obtain ⟨-, c, ⟨p, hp, hcomp⟩, -⟩ := (run_stuck_iff hrun).mp hstuck
  exact hnone p hp c hcomp

/-! ## One client and a file of one byte -/

theorem deliver_nil (client : Client) : client.deliver [] = client := by
  unfold Client.deliver
  rw [List.append_nil]
  split_ifs <;> rfl

theorem ServerStep.log_of_quiet {s t : Server} {e : ServerEvent} (h : ServerStep s e t)
    (he : Quiet e ∨ e = .hangUp) : t.log = s.log := by
  cases h with
  | accept _ _ _ _ _ _ =>
    unfold Server.accept
    split_ifs <;> rfl
  | request _ _ _ _ _ _ _ =>
    obtain he | he := he
    · exact he.elim
    · cases he
  | _ => rfl

theorem serve_quiet (n : Network) {e : ServerEvent} {t : Server} (h : ServerStep n.server e t)
    (he : Quiet e ∨ e = .hangUp) : n.serve e t = { n with server := t } := by
  have hsent : ∀ c, n.server.sent t c = [] := by
    intro c
    unfold Server.sent
    rw [h.log_of_quiet he, List.drop_length]
    rfl
  have hconsume : ∀ c, n.consume e c = n.client c := by
    intro c
    cases e with
    | request _ _ _ =>
      obtain he | he := he
      · exact he.elim
      · cases he
    | _ => rfl
  unfold Network.serve
  simp only [hsent, deliver_nil, hconsume]

theorem run_quiet (n : Network) {past : List (Server × ServerEvent)} {t : Server}
    (h : Run ServerStep n.server past t)
    (hquiet : ∀ p ∈ past, (Quiet p.2 ∨ p.2 = .hangUp) ∧
      ({ n with server := p.1 } : Network).Possible p.2) :
    ∃ past', Run NetworkStep n past' { n with server := t } := by
  induction h with
  | start => exact ⟨[], .start⟩
  | @next past s t e _ hstep ih =>
    obtain ⟨⟨he, hpossible⟩, hpast⟩ := List.forall_mem_cons.mp hquiet
    obtain ⟨past', hrun⟩ := ih hpast
    have hnext := NetworkStep.server (n := { n with server := s }) hstep hpossible
    rw [serve_quiet _ hstep he] at hnext
    exact ⟨_, hrun.next hnext⟩

/-- The server accepts a connection that waits. -/
theorem Network.run_connected (n : Network) (hs : Watching n.server) (hpass : n.server.pass = none)
    (fd : ℕ) (hne : fd ≠ n.server.listener) (hfree : n.server.conns fd = none) (hlt : fd < FD_SETSIZE)
    (hwaiting : n.server.accepted < n.connected) :
    ∃ past, Run NetworkStep n past { n with server := n.server.connected fd } := by
  obtain ⟨connecting, hconnected, hsteps⟩ := LabServer.run_connected hs hpass fd hne hfree hlt
  refine run_quiet n hconnected fun p hp => ⟨Or.inl (quiet_of_connecting hlt (hsteps p hp)), ?_⟩
  obtain h | h | rfl | rfl := hsteps p hp
  · rw [h]
    trivial
  · rw [h]
    trivial
  · intro fd hfd
    exact Or.inl ⟨Finset.mem_singleton.mp hfd, hwaiting⟩
  · exact hwaiting

/-- The server closes the connection of a client that is gone, when it has read all that was sent. -/
theorem Network.run_hungUp (n : Network) (hs : Watching n.server) (hpass : n.server.pass = none)
    (fd c : ℕ) (hconn : n.server.conns fd = some c) (hne : fd ≠ n.server.listener)
    (hclosed : (n.client c).phase.closed) (hread : (n.client c).toServer = []) :
    ∃ past, Run NetworkStep n past { n with server := n.server.hungUp fd } := by
  have hopen : n.server.conns fd ≠ none := hconn ▸ Option.some_ne_none c
  obtain ⟨hanging, hhungUp, hsteps⟩ := LabServer.run_hungUp hs hpass fd hopen hne
  refine run_quiet n hhungUp fun p hp => ⟨quiet_of_hangingUp (hsteps p hp), ?_⟩
  obtain h | h | rfl | rfl := hsteps p hp
  · rw [h]
    trivial
  · rw [h]
    trivial
  · intro fd' hfd
    rw [Finset.mem_singleton.mp hfd]
    exact Or.inr ⟨c, hconn, Or.inr hclosed⟩
  · exact ⟨c, hconn, hclosed, hread⟩

def oneByteFound : Found := servedFile oneByte

def named : Network where
  server := Server.init 3
  client := Function.update (fun _ => Client.idle) 0 { Client.idle with name := bytes "a" }
  connected := 1

def asking (s : Server) : Network where
  server := s
  client := Function.update (fun _ => Client.idle) 0 ⟨bytes "a", .header, bytes "a", []⟩
  connected := 1

def answered : Network where
  server :=
    { (Server.init 3).connected 4 with
      atSelect := ((Server.init 3).connected 4).conns
      log := answer 4 4 oneByteFound }
  client := Function.update (fun _ => Client.idle) 0
    ⟨bytes "a", .header, [], sizeHeader 1 ++ oneByteFile⟩
  connected := 1

theorem run_asking : ∃ past, Run NetworkStep (Network.init 3) past (asking (Server.init 3)) := by
  have hconnect : NetworkStep (Network.init 3) (.connect (bytes "a")) named := .connect rfl
  have hsend : NetworkStep named (.send 0) (named.setClient 0 (named.client 0).send) :=
    .send Nat.zero_lt_one rfl
  have hasking : named.setClient 0 (named.client 0).send = asking (Server.init 3) :=
    Network.ext rfl (Function.update_idem _ _ _) rfl
  rw [hasking] at hsend
  exact ⟨_, (Run.start.next hconnect).next hsend⟩

theorem run_reached : ∃ past, Run NetworkStep (Network.init 3) past
    (asking (((Server.init 3).connected 4).reading 4)) := by
  obtain ⟨past, hasking⟩ := run_asking
  have hwatching : Watching (Server.init 3) := (bookkeeping_init 3).watching_iff.mpr rfl
  obtain ⟨past₁, hrun₁⟩ := (asking (Server.init 3)).run_connected hwatching rfl 4 (by decide) rfl
    (by decide) Nat.zero_lt_one
  obtain ⟨reading, hreading, hreads⟩ := run_reading (s := (Server.init 3).connected 4) rfl rfl
    (i := 4) (Finset.mem_insert_self _ _) (le_max_right _ _)
  obtain ⟨past₂, hrun₂⟩ := run_quiet (asking ((Server.init 3).connected 4)) hreading fun p hp => by
    refine ⟨Or.inl (quiet_of_reading (hreads p hp)), ?_⟩
    obtain h | rfl := hreads p hp
    · rw [h]
      trivial
    · intro fd hfd
      rw [Finset.mem_singleton.mp hfd]
      exact Or.inr ⟨0, rfl, Or.inl (by decide)⟩
  exact ⟨_, (hasking.trans hrun₁).trans hrun₂⟩

theorem run_answered : ∃ past, Run NetworkStep (Network.init 3) past answered := by
  obtain ⟨past, hreached⟩ := run_reached
  have hrequest : ServerStep (((Server.init 3).connected 4).reading 4)
      (.request (bytes "a") (some oneByteFound) none)
      { answered.server with pass := some (5, {4}) } :=
    .request rfl rfl (le_max_right _ _) (Finset.mem_singleton_self _) (by decide) (by decide)
      (by decide)
  have hserve : (asking (((Server.init 3).connected 4).reading 4)).serve
      (.request (bytes "a") (some oneByteFound) none)
      { answered.server with pass := some (5, {4}) } =
      { answered with server := { answered.server with pass := some (5, {4}) } } := by
    refine Network.ext rfl (funext fun c => ?_) rfl
    obtain rfl | hne := eq_or_ne c 0
    · decide +kernel
    · -- nothing is read from another client, and nothing written to it
      have hother : ∀ client : Client, Function.update (fun _ => Client.idle) 0 client c =
          Client.idle := fun client => Function.update_of_ne hne _ _
      have hasked : (asking (((Server.init 3).connected 4).reading 4)).server.asked ≠ some c :=
        fun h => hne (Option.some.inj h).symm
      have hsent : (((Server.init 3).connected 4).reading 4).sent answered.server c = [] := by
        refine List.flatMap_eq_nil_iff.mpr fun w hw => ?_
        obtain ⟨data, -, rfl⟩ := List.mem_map.mp (List.mem_of_mem_drop hw)
        exact if_neg fun h => hne (Option.some.inj h).symm
      show ((asking _).consume _ c).deliver
        ((((Server.init 3).connected 4).reading 4).sent answered.server c) = _
      rw [hsent, deliver_nil, Network.consume, if_neg hasked]
      exact (hother _).trans (hother _).symm
  have hstep := NetworkStep.server (n := asking (((Server.init 3).connected 4).reading 4)) hrequest
    ⟨0, rfl, List.prefix_refl _⟩
  rw [hserve] at hstep
  obtain ⟨past', hend⟩ := run_quiet
    { answered with server := { answered.server with pass := some (5, {4}) } }
    (Run.start.next (.endPass (i := 5) (by rfl) (by rfl) (by decide))) (by
      intro p hp
      rw [List.mem_singleton.mp hp]
      exact ⟨Or.inl trivial, trivial⟩)
  exact ⟨_, (hreached.next hstep).trans hend⟩

def atBody (received : ℕ) (total : ℤ) (toClient : Str) : Network :=
  answered.setClient 0 ⟨bytes "a", .body 1 received total, [], toClient⟩

theorem run_atBody_zero :
    ∃ past, Run NetworkStep (Network.init 3) past (atBody 0 0 oneByteFile) := by
  obtain ⟨past, hanswered⟩ := run_answered
  have hread : NetworkStep answered (.read 0 BUFFER none) _ :=
    .read rfl (le_refl _) (by decide +kernel) (fun h => by cases h) (fun w hw => by cases hw)
  have hclient : (answered.client 0).read BUFFER none =
      ⟨bytes "a", .body 1 0 0, [], oneByteFile⟩ := by decide +kernel
  rw [hclient] at hread
  exact ⟨_, hanswered.next hread⟩

theorem run_atBody_one : ∃ past, Run NetworkStep (Network.init 3) past (atBody 1 1 []) := by
  obtain ⟨past, hzero⟩ := run_atBody_zero
  have hread : NetworkStep (atBody 0 0 oneByteFile) (.read 0 1 (some 1)) _ :=
    .read rfl (by decide) (by decide) (fun h => by cases h)
      (fun w hw => (Option.some.inj hw).symm.le)
  have hclient : ((atBody 0 0 oneByteFile).client 0).read 1 (some 1) =
      ⟨bytes "a", .body 1 1 1, [], []⟩ := by decide +kernel
  rw [hclient] at hread
  have hagain : (atBody 0 0 oneByteFile).setClient 0 ⟨bytes "a", .body 1 1 1, [], []⟩ =
      atBody 1 1 [] := Network.ext rfl (Function.update_idem _ _ _) rfl
  rw [hagain] at hread
  exact ⟨_, hzero.next hread⟩

/-- The client of the complete transfer is stopped, another one connects, and the server closes the
first connection and accepts the second, on the same descriptor. -/
def replaced (s : Server) : Network where
  server := s
  client := Function.update
    (Function.update (fun _ => Client.idle) 0 ⟨bytes "a", .killed, [], []⟩) 1
    { Client.idle with name := bytes "b" }
  connected := 2

theorem run_bookkeeping_server {listener : ℕ} {past : List (Network × NetworkEvent)} {n : Network}
    (h : Run NetworkStep (Network.init listener) past n) : Bookkeeping n.server :=
  h.invariant (I := fun n => Bookkeeping n.server) (bookkeeping_init listener)
    fun n e m hn hstep => by
      cases hstep with
      | server hserver _ => exact hserver.bookkeeping hn
      | _ => exact hn

theorem run_replaced : ∃ past, Run NetworkStep (Network.init 3) past
    (replaced ((answered.server.hungUp 4).connected 4)) ∧ ∃ p ∈ past, Completes 0 p.1 p.2 := by
  obtain ⟨past, hone⟩ := run_atBody_one
  have hcomplete := ((run_complete_iff hone rfl 0).mp (le_refl (1 : ℤ))).1
  have hstop : NetworkStep (atBody 1 1 []) (.stop 0) _ := .stop Nat.zero_lt_one rfl
  have hconnect : NetworkStep ((atBody 1 1 []).setClient 0 ((atBody 1 1 []).client 0).stop)
      (.connect (bytes "b")) (replaced answered.server) := by
    have hclients : ({ ((atBody 1 1 []).setClient 0 ((atBody 1 1 []).client 0).stop).setClient 1
        { Client.idle with name := bytes "b" } with connected := 2 } : Network) =
        replaced answered.server := by
      refine Network.ext rfl ?_ rfl
      show Function.update (Function.update (Function.update (Function.update _ 0 _) 0 _) 0 _) 1 _ = _
      rw [Function.update_idem, Function.update_idem]
      rfl
    rw [← hclients]
    exact .connect rfl
  have hstopped := (hone.next hstop).next hconnect
  have hwatching : Watching answered.server := (run_bookkeeping_server hstopped).watching_iff.mpr rfl
  obtain ⟨past₁, hrun₁⟩ := (replaced answered.server).run_hungUp hwatching rfl 4 0 rfl
    (by decide) rfl rfl
  have hclosed := hstopped.trans hrun₁
  have hwatching' : Watching (answered.server.hungUp 4) :=
    (run_bookkeeping_server hclosed).watching_iff.mpr rfl
  obtain ⟨past₂, hrun₂⟩ := (replaced (answered.server.hungUp 4)).run_connected hwatching' rfl 4
    (by decide) rfl (by decide) Nat.one_lt_two
  obtain ⟨p, hp, hcomp⟩ := hcomplete
  refine ⟨_, hclosed.trans hrun₂, p, ?_, hcomp⟩
  simp only [List.mem_append, List.mem_cons, hp, or_true]

theorem notStuck_replaced : ∃ past n, Run NetworkStep (Network.init 3) past n ∧ AtRest n ∧
    n.server.accepted = 2 ∧ (∃ p ∈ past, Completes 0 p.1 p.2) ∧ ¬ Stuck n := by
  obtain ⟨past, hrun, hcomplete⟩ := run_replaced
  have hclient : ∀ c, ((replaced ((answered.server.hungUp 4).connected 4)).client c).toServer = [] ∧
      ((replaced ((answered.server.hungUp 4).connected 4)).client c).toClient = [] ∧
      ¬ ((replaced ((answered.server.hungUp 4).connected 4)).client c).phase.Complete := by
    intro c
    match c with
    | 0 => exact ⟨rfl, rfl, not_false⟩
    | 1 => exact ⟨rfl, rfl, not_false⟩
    | c + 2 => exact ⟨rfl, rfl, not_false⟩
  refine ⟨past, _, hrun, ⟨rfl, rfl, fun c => ⟨(hclient c).1, (hclient c).2.1⟩⟩, rfl, hcomplete,
    (notStuck_iff hrun).mpr fun _ c hcomp => ?_⟩
  by_contra hdies
  exact (hclient c).2.2 ((run_complete_iff hrun rfl c).mpr ⟨hcomp, hdies⟩)

/-- The client has the one byte it was announced, and both sides wait for the other to close. -/
theorem complete_transfer_stuck :
    ¬ ∀ (past : List (Network × NetworkEvent)) (n : Network),
      Run NetworkStep (Network.init 3) past n → ¬ Stuck n := by
  intro h
  obtain ⟨past, hrun⟩ := run_atBody_one
  refine h _ _ hrun ⟨⟨rfl, rfl, fun c => ?_⟩, 0, ?_, ?_⟩
  · obtain rfl | hne := eq_or_ne c 0
    · exact ⟨rfl, rfl⟩
    · have hidle : (atBody 1 1 []).client c = Client.idle := by
        unfold atBody
        rw [setClient_other _ hne]
        exact Function.update_of_ne hne _ (fun _ => Client.idle)
      rw [hidle]
      exact ⟨rfl, rfl⟩
  · show (1 : ℤ) ≤ (1 : ℕ)
    decide
  · rintro (hgone | ⟨-, hnone⟩)
    · cases hgone
    · exact hnone 4 rfl

end ComputerNetworks.LabServer
