import ComputerNetworks.Library.Runs
import ComputerNetworks.LabServer.Response

/-! # The select loop, `server2.cpp`

One process serves all clients. A pass of the loop copies `master`, waits in `select` until some of
its descriptors are readable, and then goes through the descriptors from 0 to `fdmax`: the listener
yields a new connection, any other readable descriptor a hang-up, an error or a request. The
operating system decides which descriptors are readable, which number a new connection gets, what a
`read` returns, what `stat` says and what becomes of a `write`, and a shell what becomes of the
`md5sum` command with the requested name in it; all of this is in the events.

`ServerStep.bookkeeping` is what the loop knows about its descriptors in every state. The two main
results look at the response and at the error paths: `answersAsker_iff` says in which runs every
answer goes to the client that asked, `healthy_iff` in which runs the server goes on serving all.
-/
namespace ComputerNetworks.LabServer
open Runs
set_option autoImplicit false

def FD_SETSIZE : ℕ := 1024

/-! ## The loop -/

/-- Whether the process is in its loop, has left it by `exit`, has been killed by a signal, waits
for ever in a call, or has overrun a buffer. -/
inductive Status where
  | running
  | exited
  | killed
  | blocked
  | undefined
  deriving DecidableEq

/-- A `write` call made for a request: the descriptor the request was read from, the descriptor
written to, and the bytes. -/
structure WriteCall where
  request : ℕ
  target : ℕ
  data : Str
  deriving DecidableEq

/-- `pass` is `none` before `select`, and `i` with `read_fds` in the loop over the descriptors. The
last fields are ghosts: the connection behind each open client descriptor, now and at the last
`select`, the number of connections so far, and all `write` calls. -/
structure Server where
  status : Status
  pass : Option (ℕ × Finset ℕ)
  master : Finset ℕ
  fdmax : ℕ
  newsockfd : Option ℕ
  listener : ℕ
  conns : ℕ → Option ℕ
  atSelect : ℕ → Option ℕ
  accepted : ℕ
  log : List WriteCall

/-- A signal, such as the `SIGPIPE` of a `write` to a closed connection, or a call that never
returns, such as a `write` to a client that does not read. -/
inductive Stop where
  | killed
  | blocked
  deriving DecidableEq

def Stop.status : Stop → Status
  | .killed => .killed
  | .blocked => .blocked

/-- Where the handling of a request stops: in `system`, or in the `write` call number `k`, counted
from 0. -/
inductive Fault where
  | system (stop : Stop)
  | write (k : ℕ) (stop : Stop)
  deriving DecidableEq

/-- `found` is what the file system holds under the requested name. -/
inductive ServerEvent where
  | select (ready : Finset ℕ)
  | selectFails
  | skip
  | endPass
  | accept (fd : ℕ)
  | acceptFails
  | hangUp
  | readFails
  | request (buffer : Str) (found : Option Found) (fault : Option Fault)

def Server.init (listener : ℕ) : Server where
  status := .running
  pass := none
  master := {listener}
  fdmax := listener
  newsockfd := none
  listener := listener
  conns := fun _ => none
  atSelect := fun _ => none
  accepted := 0
  log := []

def Server.accept (s : Server) (read_fds : Finset ℕ) (fd : ℕ) : Server :=
  if fd < FD_SETSIZE then
    { s with
      pass := some (s.listener + 1, read_fds)
      newsockfd := some fd
      master := insert fd s.master
      fdmax := max s.fdmax fd
      conns := Function.update s.conns fd (some s.accepted)
      accepted := s.accepted + 1 }
  else { s with status := .undefined }

/-- `close(i)` and `FD_CLR(i, &master)`. -/
def Server.hangUp (s : Server) (i : ℕ) (read_fds : Finset ℕ) : Server :=
  { s with
    pass := some (i + 1, read_fds)
    master := s.master.erase i
    conns := Function.update s.conns i none }

/-- The `write` calls that answer a request read from `i`. -/
def answer (i newsockfd : ℕ) (file : Found) : List WriteCall :=
  (response file).map fun data => ⟨i, newsockfd, data⟩

/-- Handling a request: `strcpy`, `stat`, `system`, and the `write` calls. -/
def Server.request (s : Server) (i : ℕ) (read_fds : Finset ℕ) (buffer : Str)
    (found : Option Found) (fault : Option Fault) : Server :=
  match copyName buffer, found, fault, s.newsockfd with
  | none, _, _, _ => { s with status := .undefined }
  | some _, none, _, _ => { s with status := .exited }
  | some _, some _, some (.system stop), _ => { s with status := stop.status }
  | some _, some _, _, none => { s with status := .undefined }
  | some _, some file, none, some newsockfd =>
      { s with pass := some (i + 1, read_fds), log := s.log ++ answer i newsockfd file }
  | some _, some file, some (.write k stop), some newsockfd =>
      { s with status := stop.status, log := s.log ++ (answer i newsockfd file).take (k + 1) }

inductive ServerStep : Server → ServerEvent → Server → Prop
  | select {s : Server} {ready : Finset ℕ} :
      s.status = .running → s.pass = none → ready ⊆ s.master →
      ServerStep s (.select ready) { s with pass := some (0, ready), atSelect := s.conns }
  | selectFails {s : Server} :
      s.status = .running → s.pass = none →
      ServerStep s .selectFails { s with status := .exited }
  | skip {s : Server} {i : ℕ} {read_fds : Finset ℕ} :
      s.status = .running → s.pass = some (i, read_fds) → i ≤ s.fdmax → i ∉ read_fds →
      ServerStep s .skip { s with pass := some (i + 1, read_fds) }
  | endPass {s : Server} {i : ℕ} {read_fds : Finset ℕ} :
      s.status = .running → s.pass = some (i, read_fds) → s.fdmax < i →
      ServerStep s .endPass { s with pass := none }
  | accept {s : Server} {read_fds : Finset ℕ} {fd : ℕ} :
      s.status = .running → s.pass = some (s.listener, read_fds) → s.listener ≤ s.fdmax →
      s.listener ∈ read_fds → fd ≠ s.listener → s.conns fd = none →
      ServerStep s (.accept fd) (s.accept read_fds fd)
  | acceptFails {s : Server} {read_fds : Finset ℕ} :
      s.status = .running → s.pass = some (s.listener, read_fds) → s.listener ≤ s.fdmax →
      s.listener ∈ read_fds → ServerStep s .acceptFails { s with status := .exited }
  | hangUp {s : Server} {i : ℕ} {read_fds : Finset ℕ} :
      s.status = .running → s.pass = some (i, read_fds) → i ≤ s.fdmax → i ∈ read_fds →
      i ≠ s.listener → ServerStep s .hangUp (s.hangUp i read_fds)
  | readFails {s : Server} {i : ℕ} {read_fds : Finset ℕ} :
      s.status = .running → s.pass = some (i, read_fds) → i ≤ s.fdmax → i ∈ read_fds →
      i ≠ s.listener → ServerStep s .readFails { s with status := .exited }
  | request {s : Server} {i : ℕ} {read_fds : Finset ℕ} {buffer : Str} {found : Option Found}
      {fault : Option Fault} :
      s.status = .running → s.pass = some (i, read_fds) → i ≤ s.fdmax → i ∈ read_fds →
      i ≠ s.listener → buffer ≠ [] → buffer.length ≤ BUFFER →
      ServerStep s (.request buffer found fault) (s.request i read_fds buffer found fault)

/-! ## What a request changes -/

def Answered (buffer : Str) (found : Option Found) (fault : Option Fault) : Prop :=
  copyName buffer ≠ none ∧ found ≠ none ∧ ∀ stop, fault ≠ some (.system stop)

def Writes (i newsockfd : ℕ) (writes : List WriteCall) : Prop :=
  writes ≠ [] ∧ ∀ w ∈ writes, w.request = i ∧ w.target = newsockfd

inductive RequestOutcome (s : Server) (i : ℕ) (read_fds : Finset ℕ) (buffer : Str)
    (found : Option Found) (fault : Option Fault) : Server → Prop
  | stops {status : Status} : ¬ Answered buffer found fault ∨ s.newsockfd = none →
      status ≠ .running → RequestOutcome s i read_fds buffer found fault { s with status := status }
  | answers {newsockfd : ℕ} {writes : List WriteCall} : Answered buffer found fault →
      s.newsockfd = some newsockfd → Writes i newsockfd writes → fault = none →
      RequestOutcome s i read_fds buffer found fault
        { s with pass := some (i + 1, read_fds), log := s.log ++ writes }
  | cutShort {newsockfd : ℕ} {writes : List WriteCall} {status : Status} :
      Answered buffer found fault → s.newsockfd = some newsockfd → Writes i newsockfd writes →
      fault ≠ none → status ≠ .running →
      RequestOutcome s i read_fds buffer found fault
        { s with status := status, log := s.log ++ writes }

theorem writes_answer (i newsockfd : ℕ) (file : Found) :
    Writes i newsockfd (answer i newsockfd file) := by
  refine ⟨by simp [answer, response_ne_nil], fun w hw => ?_⟩
  obtain ⟨data, -, rfl⟩ := List.mem_map.mp hw
  exact ⟨rfl, rfl⟩

theorem Writes.take_succ {i newsockfd : ℕ} {writes : List WriteCall}
    (h : Writes i newsockfd writes) (k : ℕ) : Writes i newsockfd (writes.take (k + 1)) :=
  ⟨by simp [h.1], fun w hw => h.2 w (List.mem_of_mem_take hw)⟩

theorem Stop.status_ne_running (stop : Stop) : stop.status ≠ .running := by
  cases stop <;> simp [Stop.status]

theorem request_outcome (s : Server) (i : ℕ) (read_fds : Finset ℕ) (buffer : Str)
    (found : Option Found) (fault : Option Fault) :
    RequestOutcome s i read_fds buffer found fault (s.request i read_fds buffer found fault) := by
  have stops : ∀ status, s.request i read_fds buffer found fault = { s with status := status } →
      (¬ Answered buffer found fault ∨ s.newsockfd = none) → status ≠ .running →
      RequestOutcome s i read_fds buffer found fault
        (s.request i read_fds buffer found fault) := by
    intro status heq hnot hstop
    rw [heq]
    exact .stops hnot hstop
  cases hname : copyName buffer with
  | none =>
    exact stops .undefined (by simp only [Server.request, hname]) (Or.inl fun h => h.1 hname)
      Status.noConfusion
  | some name =>
    cases hfound : found with
    | none =>
      subst hfound
      exact stops .exited (by simp only [Server.request, hname]) (Or.inl fun h => h.2.1 rfl)
        Status.noConfusion
    | some file =>
      subst hfound
      by_cases hsystem : ∃ stop, fault = some (.system stop)
      · obtain ⟨stop, rfl⟩ := hsystem
        exact stops stop.status (by simp only [Server.request, hname])
          (Or.inl fun h => h.2.2 stop rfl) stop.status_ne_running
      · have hans : Answered buffer (some file) fault :=
          ⟨by simp [hname], by simp, fun stop h => hsystem ⟨stop, h⟩⟩
        cases hnew : s.newsockfd with
        | none =>
          refine stops .undefined ?_ (Or.inr hnew) Status.noConfusion
          cases fault with
          | none => simp only [Server.request, hname, hnew]
          | some f =>
            cases f with
            | system stop => exact absurd ⟨stop, rfl⟩ hsystem
            | write k stop => simp only [Server.request, hname, hnew]
        | some newsockfd =>
          have hw := writes_answer i newsockfd file
          cases fault with
          | none =>
            have heq : s.request i read_fds buffer (some file) none =
                { s with
                  pass := some (i + 1, read_fds)
                  log := s.log ++ answer i newsockfd file } := by
              simp only [Server.request, hname, hnew]
            rw [heq]
            exact .answers hans hnew hw rfl
          | some f =>
            cases f with
            | system stop => exact absurd ⟨stop, rfl⟩ hsystem
            | write k stop =>
              have heq : s.request i read_fds buffer (some file) (some (.write k stop)) =
                  { s with
                    status := stop.status
                    log := s.log ++ (answer i newsockfd file).take (k + 1) } := by
                simp only [Server.request, hname, hnew]
              rw [heq]
              exact .cutShort hans hnew (hw.take_succ k) (by simp) stop.status_ne_running

/-! ## Bookkeeping -/

structure Bookkeeping (s : Server) : Prop where
  /-- `master` holds the listener and the open client descriptors, all of them at most `fdmax`. -/
  master : ∀ fd, fd ∈ s.master ↔ fd = s.listener ∨ s.conns fd ≠ none
  listener : s.conns s.listener = none
  fdmax : ∀ fd ∈ s.master, fd ≤ s.fdmax
  /-- A descriptor still to be visited in this pass has the connection `select` reported. -/
  reported : ∀ i read_fds, s.pass = some (i, read_fds) → ∀ j ∈ read_fds, i ≤ j →
    j ∈ s.master ∧ s.conns j = s.atSelect j
  accepted : ∀ fd c, s.conns fd = some c → c < s.accepted
  /-- Among the open descriptors, `newsockfd` is the one with the last connection. -/
  newsockfd : ∀ fd, s.conns fd ≠ none →
    s.newsockfd ≠ none ∧ (s.newsockfd = some fd ↔ s.conns fd = some (s.accepted - 1))

theorem bookkeeping_init (listener : ℕ) : Bookkeeping (Server.init listener) := by
  refine ⟨fun fd => by simp [Server.init], rfl, fun fd hfd => ?_, fun i r h => ?_, fun fd c h => ?_,
    fun fd h => absurd rfl h⟩
  · rw [Finset.mem_singleton.mp hfd]
    exact le_refl _
  · simp [Server.init] at h
  · simp [Server.init] at h

theorem Bookkeeping.stop {s : Server} (hs : Bookkeeping s) (status : Status)
    (log : List WriteCall) : Bookkeeping { s with status := status, log := log } :=
  ⟨hs.master, hs.listener, hs.fdmax, hs.reported, hs.accepted, hs.newsockfd⟩

theorem Bookkeeping.advance {s : Server} (hs : Bookkeeping s) {i : ℕ} {read_fds : Finset ℕ}
    (hpass : s.pass = some (i, read_fds)) (status : Status) (log : List WriteCall) :
    Bookkeeping { s with status := status, pass := some (i + 1, read_fds), log := log } := by
  refine ⟨hs.master, hs.listener, hs.fdmax, fun i' r' h j hj hij => ?_, hs.accepted, hs.newsockfd⟩
  simp only [Option.some.injEq, Prod.mk.injEq] at h
  obtain ⟨rfl, rfl⟩ := h
  exact hs.reported i read_fds hpass j hj (by omega)

theorem Bookkeeping.accept {s : Server} (hs : Bookkeeping s) {read_fds : Finset ℕ} {fd : ℕ}
    (hpass : s.pass = some (s.listener, read_fds)) (hne : fd ≠ s.listener)
    (hfree : s.conns fd = none) : Bookkeeping (s.accept read_fds fd) := by
  rw [Server.accept]
  split_ifs
  · refine ⟨fun fd' => ?_, ?_, fun fd' hfd' => ?_, fun i' r' h j hj hij => ?_,
      fun fd' c hc => ?_, fun fd' hopen => ⟨by simp, ?_⟩⟩
    · obtain rfl | hfd' := eq_or_ne fd' fd
      · simp
      · simp [hfd', hs.master fd']
    · simp only [Function.update_of_ne hne.symm]
      exact hs.listener
    · obtain rfl | hfd' := Finset.mem_insert.mp hfd'
      · exact le_max_right _ _
      · exact (hs.fdmax fd' hfd').trans (le_max_left _ _)
    · simp only [Option.some.injEq, Prod.mk.injEq] at h
      obtain ⟨rfl, rfl⟩ := h
      obtain ⟨hmem, hsame⟩ := hs.reported _ _ hpass j hj (by omega)
      -- `j` is open already, so its number cannot be given to the new connection
      have hj' : j ≠ fd := by
        rintro rfl
        obtain rfl | hopen := (hs.master j).mp hmem
        · exact hne rfl
        · exact hopen hfree
      refine ⟨Finset.mem_insert_of_mem hmem, ?_⟩
      simp only [Function.update_of_ne hj']
      exact hsame
    · show c < s.accepted + 1
      obtain rfl | hfd' := eq_or_ne fd' fd
      · simp only [Function.update_self, Option.some.injEq] at hc
        omega
      · simp only [Function.update_of_ne hfd'] at hc
        have := hs.accepted fd' c hc
        omega
    · obtain rfl | hfd' := eq_or_ne fd' fd
      · simp
      · -- an older connection has a smaller number
        simp only [Function.update_of_ne hfd', Nat.add_sub_cancel]
        refine iff_of_false (fun h => hfd' (Option.some.inj h).symm) fun h => ?_
        exact absurd (hs.accepted fd' _ h) (lt_irrefl _)
  · exact hs.stop _ _

theorem Bookkeeping.hangUp {s : Server} (hs : Bookkeeping s) {i : ℕ} {read_fds : Finset ℕ}
    (hpass : s.pass = some (i, read_fds)) (hne : i ≠ s.listener) :
    Bookkeeping (s.hangUp i read_fds) := by
  refine ⟨fun fd => ?_, ?_, fun fd hfd => hs.fdmax fd (Finset.mem_of_mem_erase hfd),
    fun i' r' h j hj hij => ?_, fun fd c hc => ?_, fun fd hopen => ?_⟩
  · obtain rfl | hfd := eq_or_ne fd i
    · simp [Server.hangUp, hne]
    · simp [Server.hangUp, hfd, hs.master fd]
  · simp only [Server.hangUp, Function.update_of_ne hne.symm]
    exact hs.listener
  · simp only [Server.hangUp, Option.some.injEq, Prod.mk.injEq] at h
    obtain ⟨rfl, rfl⟩ := h
    obtain ⟨hmem, hsame⟩ := hs.reported _ _ hpass j hj (by omega)
    have hj' : j ≠ i := by omega
    refine ⟨Finset.mem_erase.mpr ⟨hj', hmem⟩, ?_⟩
    simp only [Server.hangUp, Function.update_of_ne hj']
    exact hsame
  · obtain rfl | hfd := eq_or_ne fd i
    · simp [Server.hangUp] at hc
    · simp only [Server.hangUp, Function.update_of_ne hfd] at hc
      exact hs.accepted fd c hc
  · obtain rfl | hfd := eq_or_ne fd i
    · simp [Server.hangUp] at hopen
    · simp only [Server.hangUp, Function.update_of_ne hfd] at hopen ⊢
      exact hs.newsockfd fd hopen

theorem ServerStep.bookkeeping {s t : Server} {e : ServerEvent} (hs : Bookkeeping s)
    (h : ServerStep s e t) : Bookkeeping t := by
  cases h with
  | select _ _ hready =>
    refine ⟨hs.master, hs.listener, hs.fdmax, fun i' r' h j hj hij => ?_, hs.accepted, hs.newsockfd⟩
    simp only [Option.some.injEq, Prod.mk.injEq] at h
    obtain ⟨rfl, rfl⟩ := h
    exact ⟨hready hj, rfl⟩
  | selectFails _ _ => exact hs.stop _ _
  | skip _ hpass _ _ => exact hs.advance hpass _ _
  | endPass _ _ _ =>
    exact ⟨hs.master, hs.listener, hs.fdmax, fun i' r' h => by simp at h, hs.accepted,
      hs.newsockfd⟩
  | accept _ hpass _ _ hne hfree => exact hs.accept hpass hne hfree
  | acceptFails _ _ _ _ => exact hs.stop _ _
  | hangUp _ hpass _ _ hne => exact hs.hangUp hpass hne
  | readFails _ _ _ _ _ => exact hs.stop _ _
  | @request i read_fds buffer found fault _ hpass _ _ _ _ _ =>
    have hout := request_outcome s i read_fds buffer found fault
    generalize s.request i read_fds buffer found fault = t at hout ⊢
    cases hout with
    | stops _ _ => exact hs.stop _ _
    | answers _ _ _ _ => exact hs.advance hpass _ _
    | cutShort _ _ _ _ _ => exact hs.stop _ _

theorem run_bookkeeping {listener : ℕ} {past : List (Server × ServerEvent)} {s : Server}
    (h : Run ServerStep (Server.init listener) past s) : Bookkeeping s :=
  h.invariant (bookkeeping_init listener) fun _ _ _ hs hstep => hstep.bookkeeping hs

/-- A descriptor the loop reads from is an open connection, the one `select` reported. -/
theorem Bookkeeping.visited {s : Server} (hs : Bookkeeping s) {i : ℕ} {read_fds : Finset ℕ}
    (hpass : s.pass = some (i, read_fds)) (hi : i ∈ read_fds) (hne : i ≠ s.listener) :
    s.conns i ≠ none ∧ s.conns i = s.atSelect i := by
  obtain ⟨hmem, hsame⟩ := hs.reported i read_fds hpass i hi (le_refl _)
  exact ⟨((hs.master i).mp hmem).resolve_left hne, hsame⟩

/-! ## Who gets the answer -/

def Server.current (s : Server) : Option ℕ := s.pass.map Prod.fst

def AnswersAsker (s : Server) : Prop := ∀ w ∈ s.log, w.target = w.request

def AskedLast (s : Server) : ServerEvent → Prop
  | .request buffer found fault => Answered buffer found fault →
      ∃ i, s.current = some i ∧ s.conns i = some (s.accepted - 1)
  | _ => True

theorem answersAsker_append {s : Server} {i newsockfd : ℕ} {writes : List WriteCall}
    (h : Writes i newsockfd writes) :
    (∀ w ∈ s.log ++ writes, w.target = w.request) ↔ AnswersAsker s ∧ newsockfd = i := by
  obtain ⟨hne, hw⟩ := h
  rw [List.forall_mem_append]
  constructor
  · rintro ⟨hold, hall⟩
    obtain ⟨w, rest, hcons⟩ := List.exists_cons_of_ne_nil hne
    have hmem : w ∈ writes := hcons ▸ List.mem_cons_self
    refine ⟨hold, ?_⟩
    rw [← (hw w hmem).2, hall w hmem, (hw w hmem).1]
  · rintro ⟨hold, rfl⟩
    refine ⟨hold, fun w hmem => ?_⟩
    rw [(hw w hmem).1, (hw w hmem).2]

theorem request_answersAsker {s : Server} (hs : Bookkeeping s) {i : ℕ} {read_fds : Finset ℕ}
    {buffer : Str} {found : Option Found} {fault : Option Fault}
    (hpass : s.pass = some (i, read_fds)) (hopen : s.conns i ≠ none) :
    AnswersAsker (s.request i read_fds buffer found fault) ↔
      AnswersAsker s ∧ AskedLast s (.request buffer found fault) := by
  obtain ⟨hnew, hlast⟩ := hs.newsockfd i hopen
  have hcurrent : s.current = some i := by
    unfold Server.current
    rw [hpass]
    rfl
  have hask : ∀ newsockfd, Answered buffer found fault → s.newsockfd = some newsockfd →
      (AskedLast s (.request buffer found fault) ↔ newsockfd = i) := by
    intro newsockfd hans hsome
    rw [← Option.some_inj, ← hsome, hlast]
    refine ⟨fun h => ?_, fun h _ => ⟨i, hcurrent, h⟩⟩
    obtain ⟨j, hj, hconn⟩ := h hans
    rwa [← Option.some.inj (hcurrent.symm.trans hj)] at hconn
  have hout := request_outcome s i read_fds buffer found fault
  generalize s.request i read_fds buffer found fault = t at hout ⊢
  cases hout with
  | stops hnot _ =>
    have hvoid : AskedLast s (.request buffer found fault) :=
      fun h => absurd h (hnot.resolve_right hnew)
    rw [and_iff_left hvoid]
    rfl
  | answers hans hsome hw _ =>
    rw [hask _ hans hsome]
    exact answersAsker_append hw
  | cutShort hans hsome hw _ _ =>
    rw [hask _ hans hsome]
    exact answersAsker_append hw

theorem ServerStep.answersAsker_step {s t : Server} {e : ServerEvent} (hs : Bookkeeping s)
    (h : ServerStep s e t) : AnswersAsker t ↔ AnswersAsker s ∧ AskedLast s e := by
  have hsame : ∀ t : Server, t.log = s.log → (AnswersAsker t ↔ AnswersAsker s ∧ True) := by
    intro t ht
    rw [AnswersAsker, AnswersAsker, ht, and_true]
  cases h with
  | select _ _ _ => exact hsame _ rfl
  | selectFails _ _ => exact hsame _ rfl
  | skip _ _ _ _ => exact hsame _ rfl
  | endPass _ _ _ => exact hsame _ rfl
  | accept _ _ _ _ _ _ =>
    refine hsame _ ?_
    rw [Server.accept]
    split_ifs <;> rfl
  | acceptFails _ _ _ _ => exact hsame _ rfl
  | hangUp _ _ _ _ _ => exact hsame _ rfl
  | readFails _ _ _ _ _ => exact hsame _ rfl
  | request _ hpass _ hi hne _ _ =>
    exact request_answersAsker hs hpass (hs.visited hpass hi hne).1

/-- In every run, each answer goes to the client that asked exactly if every request that was
answered came from the connection accepted last. -/
theorem answersAsker_iff {listener : ℕ} {past : List (Server × ServerEvent)} {s : Server}
    (h : Run ServerStep (Server.init listener) past s) :
    AnswersAsker s ↔ Guarded AskedLast past :=
  h.good_iff (I := Bookkeeping) (G := AnswersAsker) (bookkeeping_init listener)
    (fun _ hw => absurd hw List.not_mem_nil)
    fun _ _ _ hs hstep => ⟨hstep.bookkeeping hs, hstep.answersAsker_step hs⟩

/-! ## Staying up -/

/-- The process is in its loop, and `select` watches the listener and every open connection. -/
structure Watching (s : Server) : Prop where
  running : s.status = .running
  watched : ∀ fd, fd = s.listener ∨ s.conns fd ≠ none → fd ∈ s.master ∧ fd ≤ s.fdmax

/-- What a turn owes: a request is to be answered in full, on the connection it came from. -/
def owed (p : Server × ServerEvent) : List WriteCall :=
  match p.2, p.1.current with
  | .request _ (some file) _, some i => answer i i file
  | _, _ => []

/-- The server watches all its clients, and every request it has read is answered to its client. -/
structure Healthy (past : List (Server × ServerEvent)) (s : Server) : Prop extends Watching s where
  served : s.log = past.reverse.flatMap owed

/-- No system call of the loop fails, a new descriptor fits an `fd_set`, and a request names an
existing file with less than 100 bytes and is handled to the end. -/
def Harmless (_ : Server) : ServerEvent → Prop
  | .selectFails => False
  | .accept fd => fd < FD_SETSIZE
  | .acceptFails => False
  | .readFails => False
  | .request buffer found fault => (cstr buffer).length < 100 ∧ found ≠ none ∧ fault = none
  | _ => True

theorem answered_of_harmless {buffer : Str} {found : Option Found} {fault : Option Fault}
    (hname : (cstr buffer).length < 100) (hfound : found ≠ none) (hfault : fault = none) :
    Answered buffer found fault := by
  refine ⟨?_, hfound, fun stop h => ?_⟩
  · rw [copyName, strcpy, if_pos hname]
    exact Option.some_ne_none _
  · rw [hfault] at h
    cases h

theorem Answered.length_lt {buffer : Str} {found : Option Found} {fault : Option Fault}
    (h : Answered buffer found fault) : (cstr buffer).length < 100 := by
  by_contra hnot
  exact h.1 (by rw [copyName, strcpy, if_neg hnot])

theorem ServerStep.running {s t : Server} {e : ServerEvent} (h : ServerStep s e t) :
    s.status = .running := by
  cases h <;> assumption

theorem ServerStep.running_iff {s t : Server} {e : ServerEvent} (hs : Bookkeeping s)
    (h : ServerStep s e t) : t.status = .running ↔ s.status = .running ∧ Harmless s e := by
  have hrun := h.running
  cases h with
  | select _ _ _ => exact (and_iff_left trivial).symm
  | selectFails _ _ => simp [Harmless]
  | skip _ _ _ _ => exact (and_iff_left trivial).symm
  | endPass _ _ _ => exact (and_iff_left trivial).symm
  | accept _ _ _ _ _ _ =>
    rw [Server.accept]
    split_ifs with hlt
    · simp [Harmless, hlt]
    · simp [Harmless, hlt]
  | acceptFails _ _ _ _ => simp [Harmless]
  | hangUp _ _ _ _ _ => exact (and_iff_left trivial).symm
  | readFails _ _ _ _ _ => simp [Harmless]
  | @request i read_fds buffer found fault _ hpass _ hi hne _ _ =>
    have hnew := (hs.newsockfd i (hs.visited hpass hi hne).1).1
    show _ ↔ s.status = .running ∧ ((cstr buffer).length < 100 ∧ found ≠ none ∧ fault = none)
    have hout := request_outcome s i read_fds buffer found fault
    generalize s.request i read_fds buffer found fault = t at hout ⊢
    cases hout with
    | stops hnot hstop =>
      refine iff_of_false hstop ?_
      rintro ⟨-, hname, hfound, hfault⟩
      exact hnot.resolve_right hnew (answered_of_harmless hname hfound hfault)
    | answers hans _ _ hfault => exact iff_of_true hrun ⟨hrun, hans.length_lt, hans.2.1, hfault⟩
    | cutShort _ _ _ hfault hstop => exact iff_of_false hstop fun h => hfault h.2.2.2

theorem Bookkeeping.watching_iff {s : Server} (hs : Bookkeeping s) :
    Watching s ↔ s.status = .running := by
  refine ⟨Watching.running, fun h => ⟨h, fun fd hfd => ?_⟩⟩
  have hmem := (hs.master fd).mpr hfd
  exact ⟨hmem, hs.fdmax fd hmem⟩

def WriteCall.toAsker (w : WriteCall) : WriteCall := { w with target := w.request }

theorem map_toAsker_answer (i newsockfd : ℕ) (file : Found) :
    (answer i newsockfd file).map WriteCall.toAsker = answer i i file := by
  rw [answer, List.map_map, answer]
  rfl

theorem answersAsker_iff_map (s : Server) :
    AnswersAsker s ↔ s.log.map WriteCall.toAsker = s.log := by
  have hmap := List.map_inj_left (f := WriteCall.toAsker) (g := id) (l := s.log)
  rw [List.map_id] at hmap
  rw [hmap]
  refine forall₂_congr fun w _ => ?_
  rw [id_eq, WriteCall.toAsker, WriteCall.mk.injEq]
  simp [eq_comm]

/-- A harmless request is answered in full, on `newsockfd`. -/
theorem request_of_harmless {s : Server} {newsockfd : ℕ} (i : ℕ) (read_fds : Finset ℕ) {buffer : Str}
    {found : Option Found} {fault : Option Fault} (hnew : s.newsockfd = some newsockfd)
    (he : Harmless s (.request buffer found fault)) :
    ∃ file, found = some file ∧ s.request i read_fds buffer found fault =
      { s with pass := some (i + 1, read_fds), log := s.log ++ answer i newsockfd file } := by
  obtain ⟨hname, hfound, rfl⟩ := he
  obtain ⟨file, rfl⟩ := Option.ne_none_iff_exists'.mp hfound
  have hcopy : copyName buffer = some (cstr buffer) := by rw [copyName, strcpy, if_pos hname]
  exact ⟨file, rfl, by simp only [Server.request, hcopy, hnew]⟩

/-- What a harmless step writes is what it owes, up to the connection that gets it. -/
theorem ServerStep.map_toAsker {s t : Server} {e : ServerEvent} (hs : Bookkeeping s)
    (h : ServerStep s e t) (he : Harmless s e) :
    t.log.map WriteCall.toAsker = s.log.map WriteCall.toAsker ++ owed (s, e) := by
  have hsame : ∀ t : Server, t.log = s.log →
      t.log.map WriteCall.toAsker = s.log.map WriteCall.toAsker ++ [] := by
    intro t ht
    rw [ht, List.append_nil]
  cases h with
  | select _ _ _ => exact hsame _ rfl
  | selectFails _ _ => exact hsame _ rfl
  | skip _ _ _ _ => exact hsame _ rfl
  | endPass _ _ _ => exact hsame _ rfl
  | accept _ _ _ _ _ _ =>
    refine hsame _ ?_
    rw [Server.accept]
    split_ifs <;> rfl
  | acceptFails _ _ _ _ => exact hsame _ rfl
  | hangUp _ _ _ _ _ => exact hsame _ rfl
  | readFails _ _ _ _ _ => exact hsame _ rfl
  | @request i read_fds buffer found fault _ hpass _ hi hne _ _ =>
    obtain ⟨newsockfd, hnew⟩ :=
      Option.ne_none_iff_exists'.mp (hs.newsockfd i (hs.visited hpass hi hne).1).1
    obtain ⟨file, rfl, heq⟩ := request_of_harmless i read_fds hnew he
    have howed : owed (s, .request buffer (some file) fault) = answer i i file := by
      simp only [owed, Server.current, hpass, Option.map_some]
    rw [heq, howed, List.map_append, map_toAsker_answer]

theorem run_map_toAsker {listener : ℕ} {past : List (Server × ServerEvent)} {s : Server}
    (h : Run ServerStep (Server.init listener) past s) (hrun : s.status = .running) :
    s.log.map WriteCall.toAsker = past.reverse.flatMap owed := by
  induction h with
  | start => rfl
  | @next past s t e hpast ht ih =>
    have hs := run_bookkeeping hpast
    obtain ⟨hrun', he⟩ := (ht.running_iff hs).mp hrun
    rw [ht.map_toAsker hs he, ih hrun', List.reverse_cons, List.flatMap_append,
      List.flatMap_singleton]

def Quiet : ServerEvent → Prop
  | .select _ => True
  | .skip => True
  | .endPass => True
  | .accept fd => fd < FD_SETSIZE
  | _ => False

theorem Quiet.askedLast {e : ServerEvent} (he : Quiet e) (s : Server) : AskedLast s e := by
  cases e <;> first | exact trivial | exact he.elim

theorem Quiet.harmless {e : ServerEvent} (he : Quiet e) (s : Server) : Harmless s e := by
  cases e <;> first | exact trivial | exact he | exact he.elim

theorem run_skip {s : Server} (hrun : s.status = .running) {i j : ℕ} (read_fds : Finset ℕ)
    (hij : i ≤ j) (hj : j ≤ s.fdmax + 1) (hnot : ∀ k, i ≤ k → k < j → k ∉ read_fds) :
    ∃ past, Run ServerStep { s with pass := some (i, read_fds) } past
      { s with pass := some (j, read_fds) } ∧ ∀ p ∈ past, p.2 = .skip := by
  induction j, hij using Nat.le_induction with
  | base => exact ⟨[], .start, by simp⟩
  | succ j hij ih =>
    obtain ⟨past, hpast, hskip⟩ := ih (by omega) fun k hik hkj => hnot k hik (by omega)
    exact ⟨_, hpast.next (.skip hrun rfl (by show j ≤ s.fdmax; omega) (hnot j hij (by omega))),
      List.forall_mem_cons.mpr ⟨rfl, hskip⟩⟩

def Server.reading (s : Server) (i : ℕ) : Server :=
  { s with pass := some (i, {i}), atSelect := s.conns }

theorem run_reading {s : Server} (hrun : s.status = .running) (hpass : s.pass = none) {i : ℕ}
    (hmem : i ∈ s.master) (hle : i ≤ s.fdmax) :
    ∃ past, Run ServerStep s past (s.reading i) ∧
      ∀ p ∈ past, p.2 = .skip ∨ p = (s, .select {i}) := by
  have hselect : ServerStep s (.select {i}) { s with pass := some (0, {i}), atSelect := s.conns } :=
    .select hrun hpass (Finset.singleton_subset_iff.mpr hmem)
  obtain ⟨past, hrun', hskip⟩ := run_skip (s := { s with atSelect := s.conns }) hrun
    {i} (Nat.zero_le i) (by show i ≤ s.fdmax + 1; omega)
    (fun k _ hk => by simp; omega)
  refine ⟨_, (Run.start.next hselect).trans hrun', ?_⟩
  refine List.forall_mem_append.mpr ⟨fun p hp => Or.inl (hskip p hp), ?_⟩
  simp

theorem quiet_of_reading {s : Server} {i : ℕ} {p : Server × ServerEvent}
    (h : p.2 = .skip ∨ p = (s, .select {i})) : Quiet p.2 := by
  obtain h | rfl := h
  · rw [h]
    trivial
  · trivial

/-- A server that watches, at `select`, reads from any open connection that becomes readable. -/
theorem Watching.reaches {s : Server} (hs : Watching s) (hpass : s.pass = none) {fd : ℕ}
    (hfd : s.conns fd ≠ none) : ∃ past, Run ServerStep s past (s.reading fd) := by
  obtain ⟨hmem, hle⟩ := hs.watched fd (Or.inr hfd)
  obtain ⟨past, hrun, -⟩ := run_reading hs.running hpass hmem hle
  exact ⟨past, hrun⟩

def Server.connected (s : Server) (fd : ℕ) : Server :=
  { s with
    newsockfd := some fd
    master := insert fd s.master
    fdmax := max s.fdmax fd
    conns := Function.update s.conns fd (some s.accepted)
    atSelect := s.conns
    accepted := s.accepted + 1 }

theorem run_connected {s : Server} (hs : Watching s) (hpass : s.pass = none) (fd : ℕ)
    (hne : fd ≠ s.listener) (hfree : s.conns fd = none) (hlt : fd < FD_SETSIZE) :
    ∃ past, Run ServerStep s past (s.connected fd) ∧
      ∀ p ∈ past, p.2 = .skip ∨ p.2 = .endPass ∨ p = (s, .select {s.listener}) ∨
        p = (s.reading s.listener, .accept fd) := by
  have hrun := hs.running
  obtain ⟨hmem, hle⟩ := hs.watched s.listener (Or.inl rfl)
  obtain ⟨past, hread, hpast⟩ := run_reading hrun hpass hmem hle
  have haccept : ServerStep (s.reading s.listener) (.accept fd)
      { s.connected fd with pass := some (s.listener + 1, {s.listener}) } := by
    have h : ServerStep (s.reading s.listener) (.accept fd)
        ((s.reading s.listener).accept {s.listener} fd) :=
      .accept hrun rfl hle (Finset.mem_singleton_self _) hne hfree
    rwa [Server.accept, if_pos hlt] at h
  obtain ⟨skips, hskip, hskips⟩ := run_skip (s := s.connected fd) hrun
    (i := s.listener + 1) (j := max s.fdmax fd + 1) {s.listener}
    (by have := le_max_left s.fdmax fd; omega) (le_refl _) (fun k hk _ => by simp; omega)
  have hend : ServerStep
      { s.connected fd with pass := some (max s.fdmax fd + 1, {s.listener}) } .endPass
      { s.connected fd with pass := none } := .endPass hrun rfl (Nat.lt_succ_self _)
  have hnone : { s.connected fd with pass := none } = s.connected fd := by
    rw [← hpass]
    rfl
  rw [hnone] at hend
  refine ⟨_, ((hread.next haccept).trans hskip).next hend, ?_⟩
  rw [List.forall_mem_cons, List.forall_mem_append, List.forall_mem_cons]
  refine ⟨Or.inr (Or.inl rfl), fun p hp => Or.inl (hskips p hp),
    Or.inr (Or.inr (Or.inr rfl)), fun p hp => ?_⟩
  obtain hp | hp := hpast p hp
  · exact Or.inl hp
  · exact Or.inr (Or.inr (Or.inl hp))

theorem quiet_of_connecting {s : Server} {fd : ℕ} (hlt : fd < FD_SETSIZE)
    {p : Server × ServerEvent} (h : p.2 = .skip ∨ p.2 = .endPass ∨
      p = (s, .select {s.listener}) ∨ p = (s.reading s.listener, .accept fd)) : Quiet p.2 := by
  obtain h | h | rfl | rfl := h
  · rw [h]
    trivial
  · rw [h]
    trivial
  · trivial
  · exact hlt

def Server.hungUp (s : Server) (fd : ℕ) : Server :=
  { s with
    master := s.master.erase fd
    conns := Function.update s.conns fd none
    atSelect := s.conns }

theorem run_hungUp {s : Server} (hs : Watching s) (hpass : s.pass = none) (fd : ℕ)
    (hopen : s.conns fd ≠ none) (hne : fd ≠ s.listener) :
    ∃ past, Run ServerStep s past (s.hungUp fd) ∧
      ∀ p ∈ past, p.2 = .skip ∨ p.2 = .endPass ∨ p = (s, .select {fd}) ∨
        p = (s.reading fd, .hangUp) := by
  have hrun := hs.running
  obtain ⟨hmem, hle⟩ := hs.watched fd (Or.inr hopen)
  obtain ⟨past, hread, hpast⟩ := run_reading hrun hpass hmem hle
  have hstep : ServerStep (s.reading fd) .hangUp
      { s.hungUp fd with pass := some (fd + 1, {fd}) } :=
    .hangUp hrun rfl hle (Finset.mem_singleton_self _) hne
  obtain ⟨skips, hskip, hskips⟩ := run_skip (s := s.hungUp fd) hrun (i := fd + 1)
    (j := s.fdmax + 1) {fd} (by omega) (le_refl _) (fun k hk _ => by simp; omega)
  have hend : ServerStep { s.hungUp fd with pass := some (s.fdmax + 1, {fd}) } .endPass
      { s.hungUp fd with pass := none } := .endPass hrun rfl (Nat.lt_succ_self _)
  have hnone : { s.hungUp fd with pass := none } = s.hungUp fd := by
    rw [← hpass]
    rfl
  rw [hnone] at hend
  refine ⟨_, ((hread.next hstep).trans hskip).next hend, ?_⟩
  rw [List.forall_mem_cons, List.forall_mem_append, List.forall_mem_cons]
  refine ⟨Or.inr (Or.inl rfl), fun p hp => Or.inl (hskips p hp),
    Or.inr (Or.inr (Or.inr rfl)), fun p hp => ?_⟩
  obtain hp | hp := hpast p hp
  · exact Or.inl hp
  · exact Or.inr (Or.inr (Or.inl hp))

theorem quiet_of_hangingUp {s : Server} {fd : ℕ} {p : Server × ServerEvent}
    (h : p.2 = .skip ∨ p.2 = .endPass ∨ p = (s, .select {fd}) ∨ p = (s.reading fd, .hangUp)) :
    Quiet p.2 ∨ p.2 = .hangUp := by
  obtain h | h | rfl | rfl := h
  · rw [h]
    exact Or.inl trivial
  · rw [h]
    exact Or.inl trivial
  · exact Or.inl trivial
  · exact Or.inr rfl

/-! ## Two clients -/

def twoClients : Server := ((Server.init 3).connected 4).connected 5

/-- The first client hangs up, and a third gets its descriptor. -/
def returned : Server := (twoClients.hungUp 4).connected 4

theorem run_connect {past : List (Server × ServerEvent)} {s : Server}
    (h : Run ServerStep (Server.init 3) past s) (hrun : s.status = .running)
    (hpass : s.pass = none) (fd : ℕ) (hne : fd ≠ 3) (hlistener : s.listener = 3)
    (hfree : s.conns fd = none) (hlt : fd < FD_SETSIZE) :
    ∃ past', Run ServerStep (Server.init 3) (past' ++ past) (s.connected fd) ∧
      ∀ p ∈ past', Quiet p.2 := by
  have hwatching := (run_bookkeeping h).watching_iff.mpr hrun
  obtain ⟨past', hrun', hpast'⟩ :=
    run_connected hwatching hpass fd (by rwa [hlistener]) hfree hlt
  exact ⟨past', h.trans hrun', fun p hp => quiet_of_connecting hlt (hpast' p hp)⟩

theorem run_twoClients : ∃ past, Run ServerStep (Server.init 3) past twoClients ∧
    ∀ p ∈ past, Quiet p.2 := by
  obtain ⟨past, hrun, hpast⟩ := run_connect .start rfl rfl 4 (by decide) rfl rfl (by decide)
  obtain ⟨past', hrun', hpast'⟩ := run_connect hrun rfl rfl 5 (by decide) rfl rfl (by decide)
  exact ⟨_, hrun', List.forall_mem_append.mpr ⟨hpast', List.forall_mem_append.mpr ⟨hpast, by simp⟩⟩⟩

theorem run_returned : ∃ past, Run ServerStep (Server.init 3) past returned ∧
    ∀ p ∈ past, Quiet p.2 ∨ p.2 = .hangUp := by
  obtain ⟨past, hrun, hpast⟩ := run_twoClients
  have hwatching := (run_bookkeeping hrun).watching_iff.mpr rfl
  obtain ⟨past', hrun', hpast'⟩ :=
    run_hungUp hwatching rfl 4 (by decide) (by decide)
  obtain ⟨past'', hrun'', hpast''⟩ :=
    run_connect (hrun.trans hrun') rfl rfl 4 (by decide) rfl rfl (by decide)
  refine ⟨_, hrun'', List.forall_mem_append.mpr ⟨fun p hp => Or.inl (hpast'' p hp), ?_⟩⟩
  exact List.forall_mem_append.mpr ⟨fun p hp => quiet_of_hangingUp (hpast' p hp),
    fun p hp => Or.inl (hpast p hp)⟩

def greeting : Found := ⟨2, [bytes "hi"]⟩

/-- The client on descriptor 4 sends the name `a`. -/
def Server.requestA (s : Server) (found : Option Found) : Server :=
  (s.reading 4).request 4 {4} (bytes "a") found none

theorem run_requestA {s : Server} {past : List (Server × ServerEvent)}
    (h : Run ServerStep (Server.init 3) past s) (hrun : s.status = .running) (hpass : s.pass = none)
    (hconn : s.conns 4 ≠ none) (hlistener : s.listener = 3) (found : Option Found) :
    ∃ past', Run ServerStep (Server.init 3)
        (((s.reading 4), .request (bytes "a") found none) :: (past' ++ past)) (s.requestA found) ∧
      ∀ p ∈ past', Quiet p.2 := by
  obtain ⟨hmem, hle⟩ := ((run_bookkeeping h).watching_iff.mpr hrun).watched 4 (Or.inr hconn)
  obtain ⟨past', hread, hpast'⟩ := run_reading hrun hpass hmem hle
  refine ⟨past', (h.trans hread).next ?_, fun p hp => quiet_of_reading (hpast' p hp)⟩
  refine .request hrun rfl hle (Finset.mem_singleton_self _) ?_ (by decide) (by decide)
  show 4 ≠ s.listener
  rw [hlistener]
  decide

theorem run_twoClients_requestA (found : Option Found) :
    ∃ past, Run ServerStep (Server.init 3) past (twoClients.requestA found) := by
  obtain ⟨past, hrun, -⟩ := run_twoClients
  obtain ⟨past', hrun', -⟩ := run_requestA hrun rfl rfl (by decide) rfl found
  exact ⟨_, hrun'⟩

theorem run_returned_requestA : ∃ past, Run ServerStep (Server.init 3)
    ((returned.reading 4, .request (bytes "a") (some greeting) none) :: past)
      (returned.requestA (some greeting)) ∧
    ∀ p ∈ past, Quiet p.2 ∨ p.2 = .hangUp := by
  obtain ⟨past, hrun, hpast⟩ := run_returned
  obtain ⟨past', hrun', hpast'⟩ := run_requestA hrun rfl rfl (by decide) rfl (some greeting)
  exact ⟨_, hrun', List.forall_mem_append.mpr ⟨fun p hp => Or.inl (hpast' p hp), hpast⟩⟩

theorem answersAsker_returned : returned.conns 5 ≠ none ∧
    (returned.requestA (some greeting)).log = answer 4 4 greeting ∧
    AnswersAsker (returned.requestA (some greeting)) := by
  obtain ⟨past, hrun, hquiet⟩ := run_returned_requestA
  refine ⟨by decide, rfl, (answersAsker_iff hrun).mpr ?_⟩
  refine (guarded_cons _ _ _ _).mpr ⟨fun _ => ⟨4, rfl, rfl⟩, fun p hp => ?_⟩
  obtain h | h := hquiet p hp
  · exact h.askedLast p.1
  · rw [h]
    trivial

/-- With clients on descriptors 4 and 5, the answer to the first goes to the second. -/
theorem twoClients_answer_other :
    ¬ ∀ (past : List (Server × ServerEvent)) (s : Server),
      Run ServerStep (Server.init 3) past s → AnswersAsker s := by
  intro h
  obtain ⟨past, hrun⟩ := run_twoClients_requestA (some greeting)
  have hmem : (⟨4, 5, bytes "hi"⟩ : WriteCall) ∈ (twoClients.requestA (some greeting)).log := by
    decide +kernel
  exact absurd (h _ _ hrun _ hmem) (by decide)

end ComputerNetworks.LabServer
