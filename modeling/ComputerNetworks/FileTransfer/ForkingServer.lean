import ComputerNetworks.FileTransfer.CopyLoop
import ComputerNetworks.LabServer.Response
import ComputerNetworks.Library.Runs

/-! # A child for every connection

`Peer_Server.cpp`, the TCP server of `server.cpp` and `server1.cpp` run the same loop: `accept`, `fork`,
and the parent closes its copy of the connection while the child answers one request and exits. A child
gets a copy of the parent's descriptor table, so which connections a process can reach depends on what
was open when it was forked. `connections_isolated` says who holds what in every run, and what each
client is sent; `child_finishes` that no client has to wait for another one.

The child of `server1.cpp` has `system` run `md5sum` before it answers. The shell inherits the
connection: it may outlive a child that is killed, it need not return, and nothing keeps what it runs
from writing on the connection. A child that used a name without an end may do anything with the
descriptors it has. A `write` to a client that is gone, like any signal, kills the child alone.
-/
namespace ComputerNetworks.FileTransfer
open Runs
set_option autoImplicit false

/-! ## Descriptor tables -/

inductive Socket where
  | listener
  | connection (c : ℕ)
  deriving DecidableEq

/-- The sockets behind the descriptors of a process. -/
abbrev Table := ℕ → Option Socket

def Table.Holds (t : Table) (c : ℕ) : Prop := ∃ fd, t fd = some (.connection c)

def Table.closed : Table := fun _ => none

def Table.listening (sockfd : ℕ) : Table := Function.update Table.closed sockfd (some .listener)

/-- The listener and one connection. -/
def Table.serving (sockfd newsockfd c : ℕ) : Table :=
  Function.update (Table.listening sockfd) newsockfd (some (.connection c))

/-! ## What a child answers -/

/-- What a child does after it read a request: whether it calls `system` first, and its `write`
calls. -/
structure Reply where
  system : Bool
  writes : List Str
  deriving DecidableEq

/-- The reply to a request, for what the file system holds under the name, which is of type `φ`. With
`none` the name is used without an end. -/
abbrev Answer (φ : Type) := Str → φ → Option Reply

/-- `Peer_Server.cpp` and the TCP server of `server.cpp`. -/
def peerAnswer : Answer (Option (List Str)) := fun request file =>
  (serveChild (fun _ => file) request).map (Reply.mk false)

/-- `server1.cpp`, where the child exits if `stat` fails, and has `md5sum` run if not. -/
def labAnswer : Answer (Option LabServer.Found) := fun request found =>
  (LabServer.copyName request).map fun _ =>
    found.elim ⟨false, []⟩ fun file => ⟨true, LabServer.response file⟩

variable {φ : Type} {answer : Answer φ}

/-! ## The processes -/

/-- Where the parent is in its loop. -/
inductive Parent where
  | accepting
  | forking (newsockfd : ℕ)
  | closing (newsockfd : ℕ)
  | exited
  deriving DecidableEq

/-- Where a child is: before its `read`, in `system` or past it with these `write` calls to go, past a
use of the name that is undefined, or no more. -/
inductive Phase where
  | reading
  | waiting (writes : List Str)
  | copying (writes : List Str)
  | undefined
  | exited
  | failed
  | killed
  deriving DecidableEq

def Phase.over : Phase → Bool
  | .exited => true
  | .failed => true
  | .killed => true
  | _ => false

/-- `command` is the descriptor table of the processes that `system` started, until the last of them
ends. `connection`, `request` and `meddled` are records: for which connection the child was forked,
what it read, with what was under that name, and whether the command wrote on the connection. -/
structure Process (φ : Type) where
  newsockfd : ℕ
  table : Table
  phase : Phase
  command : Option Table
  connection : ℕ
  request : Option (Str × φ)
  meddled : Bool

inductive ChildEvent (φ : Type) where
  | request (request : Str) (file : φ)
  | requestFails
  | resumes
  | write
  | exit
  | killed
  | stray (fd : ℕ) (data : Str)
  | commandWrites (fd : ℕ) (data : Str)
  | commandEnds

namespace Process

/-- A process that ended holds nothing; what it started may go on. -/
def ended (p : Process φ) (phase : Phase) : Process φ := { p with table := Table.closed, phase := phase }

/-- The child, or what it started, has a descriptor of the connection. -/
def Holds (p : Process φ) (c : ℕ) : Prop :=
  p.table.Holds c ∨ ∃ t, p.command = some t ∧ t.Holds c

/-- The child with the request in its buffer. Once the name is used without an end, it may also start
other processes. -/
def asked (answer : Answer φ) (p : Process φ) (request : Str) (file : φ) : Process φ :=
  let p := { p with request := some (request, file) }
  match answer request file with
  | none => { p with phase := .undefined, command := some p.table }
  | some ⟨true, writes⟩ => { p with phase := .waiting writes, command := some p.table }
  | some ⟨false, writes⟩ => { p with phase := .copying writes }

/-- The child after an event, and what was written to which socket. `system` returns when the shell is
gone; what the shell started may still be there. -/
def step (answer : Answer φ) (p : Process φ) :
    ChildEvent φ → Option (Process φ × Option (Option Socket × Str))
  | .request request file =>
      if p.phase = .reading then some (p.asked answer request file, none) else none
  | .requestFails => if p.phase = .reading then some (p.ended .failed, none) else none
  | .resumes =>
      match p.phase with
      | .waiting writes => some ({ p with phase := .copying writes }, none)
      | _ => none
  | .write =>
      match p.phase with
      | .copying (data :: writes) =>
          some ({ p with phase := .copying writes }, some (p.table p.newsockfd, data))
      | _ => none
  | .exit => if p.phase = .copying [] then some (p.ended .exited, none) else none
  | .killed => if p.phase.over = false then some (p.ended .killed, none) else none
  | .stray fd data => if p.phase = .undefined then some (p, some (p.table fd, data)) else none
  | .commandWrites fd data =>
      p.command.map fun t =>
        ({ p with meddled := p.meddled || t fd = some (.connection p.connection) },
          some (t fd, data))
  | .commandEnds => p.command.map fun _ => ({ p with command := none }, none)

end Process

/-- A child that was just forked. -/
def forkedChild (newsockfd : ℕ) (table : Table) (connection : ℕ) : Process φ where
  newsockfd := newsockfd
  table := table
  phase := .reading
  command := none
  connection := connection
  request := none
  meddled := false

/-- The parent with its table, its children by their process numbers, and two records: how many
connections were accepted, and what was written on each. -/
structure ForkingServer (φ : Type) where
  sockfd : ℕ
  parent : Parent
  table : Table
  child : ℕ → Option (Process φ)
  accepted : ℕ
  sent : ℕ → Str

inductive ForkEvent (φ : Type) where
  | accept (newsockfd : ℕ)
  | acceptFails
  | fork (pid : ℕ)
  | forkFails
  | close
  | child (pid : ℕ) (e : ChildEvent φ)

/-- The connections after a `write`. -/
def afterWrite (sent : ℕ → Str) : Option (Option Socket × Str) → ℕ → Str
  | some (some (.connection c), data) => Function.update sent c (sent c ++ data)
  | _ => sent

/-- A turn of the parent or of a child. When `fork` fails, the parent goes on as after a `fork`. -/
inductive ForkStep (answer : Answer φ) :
    ForkingServer φ → ForkEvent φ → ForkingServer φ → Prop
  | accept {s : ForkingServer φ} {newsockfd : ℕ} : s.parent = .accepting → s.table newsockfd = none →
      ForkStep answer s (.accept newsockfd) { s with
        parent := .forking newsockfd
        table := Function.update s.table newsockfd (some (.connection s.accepted))
        accepted := s.accepted + 1 }
  | acceptFails {s : ForkingServer φ} : s.parent = .accepting →
      ForkStep answer s .acceptFails { s with parent := .exited, table := Table.closed }
  | fork {s : ForkingServer φ} {newsockfd pid : ℕ} {c : ℕ} : s.parent = .forking newsockfd →
      s.table newsockfd = some (.connection c) → s.child pid = none →
      ForkStep answer s (.fork pid) { s with
        parent := .closing newsockfd
        child := Function.update s.child pid (some (forkedChild newsockfd s.table c)) }
  | forkFails {s : ForkingServer φ} {newsockfd : ℕ} : s.parent = .forking newsockfd →
      ForkStep answer s .forkFails { s with parent := .closing newsockfd }
  | close {s : ForkingServer φ} {newsockfd : ℕ} : s.parent = .closing newsockfd →
      ForkStep answer s .close { s with
        parent := .accepting, table := Function.update s.table newsockfd none }
  | child {s : ForkingServer φ} {pid : ℕ} {p p' : Process φ} {e : ChildEvent φ}
      {out : Option (Option Socket × Str)} :
      s.child pid = some p → p.step answer e = some (p', out) →
      ForkStep answer s (.child pid e) { s with
        child := Function.update s.child pid (some p'), sent := afterWrite s.sent out }

namespace ForkingServer

def init (sockfd : ℕ) : ForkingServer φ where
  sockfd := sockfd
  parent := .accepting
  table := Table.listening sockfd
  child _ := none
  accepted := 0
  sent _ := []

/-- A client gets to the end of the stream when no process holds the connection any more. -/
def Ended (s : ForkingServer φ) (c : ℕ) : Prop :=
  ¬ s.table.Holds c ∧ ∀ pid p, s.child pid = some p → ¬ p.Holds c

end ForkingServer

theorem Table.not_holds_closed (c : ℕ) : ¬ Table.closed.Holds c := by
  rintro ⟨fd, hfd⟩
  cases hfd

theorem Table.holds_of_update {t : Table} {fd c c' : ℕ}
    (h : Table.Holds (Function.update t fd (some (.connection c'))) c) : c = c' ∨ t.Holds c := by
  obtain ⟨fd', hfd'⟩ := h
  rw [Function.update_apply] at hfd'
  split_ifs at hfd'
  · cases hfd'
    exact Or.inl rfl
  · exact Or.inr ⟨fd', hfd'⟩

theorem Table.holds_of_update_none {t : Table} {fd c : ℕ}
    (h : Table.Holds (Function.update t fd none) c) : t.Holds c := by
  obtain ⟨fd', hfd'⟩ := h
  rw [Function.update_apply] at hfd'
  split_ifs at hfd'
  exact ⟨fd', hfd'⟩

theorem Table.listening_ne_connection (sockfd fd c : ℕ) :
    Table.listening sockfd fd ≠ some (.connection c) := by
  rw [Table.listening, Function.update_apply]
  split_ifs <;> simp [Table.closed]

theorem Table.not_holds_listening (sockfd c : ℕ) : ¬ (Table.listening sockfd).Holds c :=
  fun ⟨fd, hfd⟩ => Table.listening_ne_connection sockfd fd c hfd

theorem Table.serving_eq_connection {sockfd newsockfd fd c c' : ℕ}
    (h : Table.serving sockfd newsockfd c fd = some (.connection c')) : c' = c := by
  rw [Table.serving, Function.update_apply] at h
  split_ifs at h
  · cases h
    rfl
  · exact absurd h (Table.listening_ne_connection sockfd fd c')

theorem Table.serving_self (sockfd newsockfd c : ℕ) :
    Table.serving sockfd newsockfd c newsockfd = some (.connection c) := Function.update_self ..

@[simp] theorem Table.holds_serving {sockfd newsockfd c c' : ℕ} :
    (Table.serving sockfd newsockfd c).Holds c' ↔ c' = c := by
  constructor
  · rintro ⟨fd, hfd⟩
    exact Table.serving_eq_connection hfd
  · rintro rfl
    exact ⟨newsockfd, Table.serving_self sockfd newsockfd c'⟩

theorem afterWrite_of_ne {sent : ℕ → Str} {out : Option (Option Socket × Str)} {c : ℕ}
    (h : ∀ data, out ≠ some (some (.connection c), data)) : afterWrite sent out c = sent c := by
  obtain _ | ⟨_ | _ | c', data⟩ := out
  · rfl
  · rfl
  · rfl
  · have hne : c ≠ c' := by
      rintro rfl
      exact h data rfl
    rw [afterWrite, Function.update_of_ne hne]

/-- Nobody writes but on what it holds. -/
theorem Process.holds_of_out {p p' : Process φ} {e : ChildEvent φ} {c : ℕ} {data : Str}
    (hs : p.step answer e = some (p', some (some (.connection c), data))) : p.Holds c := by
  cases e with
  | request | requestFails | exit | killed =>
    simp only [Process.step] at hs
    split_ifs at hs
    simp at hs
  | resumes =>
    simp only [Process.step] at hs
    split at hs <;> simp at hs
  | write =>
    simp only [Process.step] at hs
    split at hs
    · simp only [Option.some.injEq, Prod.mk.injEq] at hs
      exact Or.inl ⟨p.newsockfd, hs.2.1⟩
    · cases hs
  | stray fd data' =>
    simp only [Process.step] at hs
    split_ifs at hs
    simp only [Option.some.injEq, Prod.mk.injEq] at hs
    exact Or.inl ⟨fd, hs.2.1⟩
  | commandWrites fd data' =>
    obtain ⟨t, ht, hs⟩ := Option.map_eq_some_iff.mp hs
    simp only [Prod.mk.injEq, Option.some.injEq] at hs
    exact Or.inr ⟨t, ht, fd, hs.2.1⟩
  | commandEnds =>
    obtain ⟨t, -, hs⟩ := Option.map_eq_some_iff.mp hs
    simp at hs

theorem Process.afterWrite_of_not_holds {p p' : Process φ} {e : ChildEvent φ}
    {out : Option (Option Socket × Str)} (hs : p.step answer e = some (p', out)) {sent : ℕ → Str}
    {c : ℕ} (h : ¬ p.Holds c) : afterWrite sent out c = sent c :=
  afterWrite_of_ne fun _ hout => h (Process.holds_of_out (hout ▸ hs))

/-! ## One child -/

/-- What was written on the connection of a child, by its phase and what it read. -/
inductive Serving (answer : Answer φ) (sent : Str) (meddled : Bool) : Phase → Option (Str × φ) → Prop
  | reading : sent = [] → Serving answer sent meddled .reading none
  | failed : sent = [] → Serving answer sent meddled .failed none
  | unasked : sent = [] → Serving answer sent meddled .killed none
  | waiting {request : Str} {file : φ} {reply : Reply} :
      answer request file = some reply → sent = [] →
      Serving answer sent meddled (.waiting reply.writes) (some (request, file))
  | copying {request : Str} {file : φ} {reply : Reply} {left : List Str} :
      answer request file = some reply → sent ++ left.flatten = reply.writes.flatten →
      Serving answer sent meddled (.copying left) (some (request, file))
  | exited {request : Str} {file : φ} {reply : Reply} :
      answer request file = some reply → sent = reply.writes.flatten →
      Serving answer sent meddled .exited (some (request, file))
  | cut {request : Str} {file : φ} {reply : Reply} :
      answer request file = some reply → sent <+: reply.writes.flatten →
      Serving answer sent meddled .killed (some (request, file))
  | undefined {request : Str} {file : φ} :
      answer request file = none → Serving answer sent meddled .undefined (some (request, file))
  | strayed {request : Str} {file : φ} :
      answer request file = none → Serving answer sent meddled .killed (some (request, file))
  | mixed {phase : Phase} {request : Str} {file : φ} :
      meddled = true → phase ≠ .reading → phase ≠ .undefined →
      Serving answer sent meddled phase (some (request, file))

/-- The child has read a request, and if it is one to reply to, it calls `system` before. -/
def Process.Calls (answer : Answer φ) (p : Process φ) : Prop :=
  ∃ request file, p.request = some (request, file) ∧
    ∀ reply, answer request file = some reply → reply.system = true

structure Process.Inv (answer : Answer φ) (sockfd : ℕ) (sent : Str) (p : Process φ) : Prop where
  table : p.table =
    if p.phase.over then Table.closed else Table.serving sockfd p.newsockfd p.connection
  command : ∀ t, p.command = some t → t = Table.serving sockfd p.newsockfd p.connection
  calls : p.command ≠ none ∨ p.meddled = true → p.Calls answer
  serving : Serving answer sent p.meddled p.phase p.request

theorem Process.Inv.holds_iff {sockfd : ℕ} {sent : Str} {p : Process φ}
    (h : p.Inv answer sockfd sent) {c : ℕ} :
    p.Holds c ↔ c = p.connection ∧ (p.phase.over = false ∨ p.command ≠ none) := by
  have hown : p.table.Holds c ↔ c = p.connection ∧ p.phase.over = false := by
    rw [h.table]
    cases hover : p.phase.over with
    | false => simp
    | true => simp [Table.not_holds_closed]
  have hcommand : (∃ t, p.command = some t ∧ t.Holds c) ↔ c = p.connection ∧ p.command ≠ none := by
    constructor
    · rintro ⟨t, ht, hholds⟩
      rw [h.command t ht] at hholds
      exact ⟨Table.holds_serving.mp hholds, ht ▸ Option.some_ne_none t⟩
    · rintro ⟨hc, hne⟩
      obtain ⟨t, ht⟩ := Option.ne_none_iff_exists'.mp hne
      exact ⟨t, ht, h.command t ht ▸ Table.holds_serving.mpr hc⟩
  rw [Process.Holds, hown, hcommand, and_or_left]

theorem Serving.sent {sent : Str} {phase : Phase} {request : Str} {file : φ}
    (h : Serving answer sent false phase (some (request, file))) {reply : Reply}
    (hserve : answer request file = some reply) :
    sent <+: reply.writes.flatten ∧ (phase = .exited → sent = reply.writes.flatten) := by
  cases h with
  | waiting _ hnil => exact ⟨hnil ▸ List.nil_prefix, fun hexit => by cases hexit⟩
  | copying hserve' hsent =>
    obtain rfl := Option.some.inj (hserve.symm.trans hserve')
    exact ⟨⟨_, hsent⟩, fun hexit => by cases hexit⟩
  | exited hserve' hsent =>
    obtain rfl := Option.some.inj (hserve.symm.trans hserve')
    exact ⟨hsent ▸ List.prefix_refl _, fun _ => hsent⟩
  | cut hserve' hsent =>
    obtain rfl := Option.some.inj (hserve.symm.trans hserve')
    exact ⟨hsent, fun hexit => by cases hexit⟩
  | undefined hnone | strayed hnone => cases hserve.symm.trans hnone
  | mixed hmeddled => cases hmeddled

theorem Serving.killed {sent : Str} {meddled : Bool} {phase : Phase} {request : Option (Str × φ)}
    (h : Serving answer sent meddled phase request) (hgoes : phase.over = false) :
    Serving answer sent meddled .killed request := by
  cases h with
  | reading hnil => exact .unasked hnil
  | waiting hserve hnil => exact .cut hserve (hnil ▸ List.nil_prefix)
  | copying hserve hsent => exact .cut hserve ⟨_, hsent⟩
  | undefined hserve => exact .strayed hserve
  | mixed hmeddled => exact .mixed hmeddled Phase.noConfusion Phase.noConfusion
  | failed | unasked | exited | cut | strayed => cases hgoes

/-- Nothing is known of a connection on which the command of the child wrote. -/
theorem Serving.meddle {sent sent' : Str} {meddled : Bool} {phase : Phase} {request : Str} {file : φ}
    (h : Serving answer sent meddled phase (some (request, file))) :
    Serving answer sent' true phase (some (request, file)) := by
  cases h with
  | undefined hserve => exact .undefined hserve
  | mixed _ hreading hundefined => exact .mixed rfl hreading hundefined
  | waiting | copying | exited | cut | strayed =>
    exact .mixed rfl Phase.noConfusion Phase.noConfusion

theorem Process.Calls.of_request {p p' : Process φ} (h : p.Calls answer)
    (heq : p'.request = p.request) : p'.Calls answer := by
  obtain ⟨request, file, hrequest, hsystem⟩ := h
  exact ⟨request, file, heq.trans hrequest, hsystem⟩

/-- A child that does not call `system` leaves nothing behind. -/
theorem Process.Inv.alone {sockfd : ℕ} {sent : Str} {p : Process φ} (h : p.Inv answer sockfd sent)
    {request : Str} {file : φ} (hrequest : p.request = some (request, file)) {reply : Reply}
    (hanswer : answer request file = some reply) (hsystem : reply.system = false) :
    p.command = none ∧ p.meddled = false := by
  have hquiet : ¬ (p.command ≠ none ∨ p.meddled = true) := by
    intro hcalled
    obtain ⟨request', file', hrequest', hcalls⟩ := h.calls hcalled
    obtain ⟨rfl, rfl⟩ := Prod.mk.inj (Option.some.inj (hrequest.symm.trans hrequest'))
    have htrue := hcalls reply hanswer
    rw [hsystem] at htrue
    cases htrue
  simpa using hquiet

theorem Process.Inv.asked {sockfd : ℕ} {sent : Str} {p : Process φ} (h : p.Inv answer sockfd sent)
    (hreading : p.phase = .reading) (request : Str) (file : φ) :
    (p.asked answer request file).connection = p.connection ∧
      (p.asked answer request file).Inv answer sockfd sent := by
  obtain ⟨newsockfd, table, phase, command, connection, request', meddled⟩ := p
  obtain rfl : phase = .reading := hreading
  obtain ⟨htable, -, hcalls, hserving⟩ := h
  have htable' : table = Table.serving sockfd newsockfd connection := htable
  have hnew : request' = none ∧ sent = [] := by
    cases hserving with
    | reading hnil => exact ⟨rfl, hnil⟩
    | mixed _ hne => exact absurd rfl hne
  obtain ⟨rfl, hnil⟩ := hnew
  have hquiet : ¬ (command ≠ none ∨ meddled = true) := by
    intro hcalled
    obtain ⟨_, _, hrequest, -⟩ := hcalls hcalled
    cases hrequest
  obtain ⟨hcommand, hmeddled⟩ := not_or.mp hquiet
  obtain rfl := not_not.mp hcommand
  obtain rfl := Bool.not_eq_true _ ▸ hmeddled
  simp only [Process.asked]
  split
  · rename_i hserve
    refine ⟨rfl, htable', fun t ht => ?_, fun _ => ⟨request, file, rfl, fun reply hreply => ?_⟩,
      .undefined hserve⟩
    · exact (Option.some.inj ht).symm.trans htable'
    · cases hserve.symm.trans hreply
  · rename_i writes hserve
    refine ⟨rfl, htable', fun t ht => ?_, fun _ => ⟨request, file, rfl, fun reply hreply => ?_⟩,
      .waiting hserve hnil⟩
    · exact (Option.some.inj ht).symm.trans htable'
    · rw [← Option.some.inj (hserve.symm.trans hreply)]
  · rename_i writes hserve
    refine ⟨rfl, htable', nofun, fun hcalled => absurd hcalled hquiet, .copying hserve ?_⟩
    rw [hnil, List.nil_append]

/-- A child, or what it started, writes on its own connection, if at all; the invariant is kept. -/
theorem Process.Inv.step {sockfd : ℕ} {sent : ℕ → Str} {p p' : Process φ} {e : ChildEvent φ}
    {out : Option (Option Socket × Str)} (h : p.Inv answer sockfd (sent p.connection))
    (hs : p.step answer e = some (p', out)) :
    p'.connection = p.connection ∧ (∀ c, c ≠ p.connection → afterWrite sent out c = sent c) ∧
    p'.Inv answer sockfd (afterWrite sent out p.connection) := by
  have hother : ∀ c, c ≠ p.connection → afterWrite sent out c = sent c := fun c hne =>
    Process.afterWrite_of_not_holds hs fun hholds => hne (h.holds_iff.mp hholds).1
  cases e with
  | request request file =>
    simp only [Process.step] at hs
    split_ifs at hs with hreading
    obtain ⟨rfl, rfl⟩ := Prod.mk.inj (Option.some.inj hs)
    obtain ⟨hconn, hinv⟩ := h.asked hreading request file
    exact ⟨hconn, hother, hinv⟩
  | requestFails =>
    simp only [Process.step] at hs
    split_ifs at hs with hreading
    obtain ⟨rfl, rfl⟩ := Prod.mk.inj (Option.some.inj hs)
    have hserving := h.serving
    rw [hreading] at hserving
    refine ⟨rfl, hother, rfl, h.command, fun hcalled => (h.calls hcalled).of_request rfl, ?_⟩
    show Serving answer (sent p.connection) p.meddled .failed p.request
    generalize p.request = request at hserving ⊢
    cases hserving with
    | reading hnil => exact .failed hnil
    | mixed _ hne => exact absurd rfl hne
  | resumes =>
    simp only [Process.step] at hs
    split at hs
    · rename_i writes hwaiting
      obtain ⟨rfl, rfl⟩ := Prod.mk.inj (Option.some.inj hs)
      have htable := h.table
      have hserving := h.serving
      rw [hwaiting] at htable hserving
      refine ⟨rfl, hother, htable, h.command, fun hcalled => (h.calls hcalled).of_request rfl, ?_⟩
      show Serving answer (sent p.connection) p.meddled (.copying writes) p.request
      generalize p.request = request at hserving ⊢
      cases hserving with
      | waiting hserve hnil => exact .copying hserve (by rw [hnil, List.nil_append])
      | mixed hmeddled => exact .mixed hmeddled Phase.noConfusion Phase.noConfusion
    · cases hs
  | write =>
    simp only [Process.step] at hs
    split at hs
    · rename_i data writes hcopying
      obtain ⟨rfl, rfl⟩ := Prod.mk.inj (Option.some.inj hs)
      have htable := h.table
      have hserving := h.serving
      rw [hcopying] at htable hserving
      have hfd : p.table p.newsockfd = some (.connection p.connection) :=
        (congrFun htable p.newsockfd).trans (Table.serving_self sockfd p.newsockfd p.connection)
      refine ⟨rfl, hother, htable, h.command, fun hcalled => (h.calls hcalled).of_request rfl, ?_⟩
      show Serving answer (afterWrite sent (some (p.table p.newsockfd, data)) p.connection) p.meddled
        (.copying writes) p.request
      rw [hfd, afterWrite, Function.update_self]
      generalize p.request = request at hserving ⊢
      cases hserving with
      | copying hserve hsent => exact .copying hserve (by rwa [List.append_assoc])
      | mixed hmeddled => exact .mixed hmeddled Phase.noConfusion Phase.noConfusion
    · cases hs
  | exit =>
    simp only [Process.step] at hs
    split_ifs at hs with hdone
    obtain ⟨rfl, rfl⟩ := Prod.mk.inj (Option.some.inj hs)
    have hserving := h.serving
    rw [hdone] at hserving
    refine ⟨rfl, hother, rfl, h.command, fun hcalled => (h.calls hcalled).of_request rfl, ?_⟩
    show Serving answer (sent p.connection) p.meddled .exited p.request
    generalize p.request = request at hserving ⊢
    cases hserving with
    | copying hserve hsent => exact .exited hserve (by simpa using hsent)
    | mixed hmeddled => exact .mixed hmeddled Phase.noConfusion Phase.noConfusion
  | killed =>
    simp only [Process.step] at hs
    split_ifs at hs with hgoes
    obtain ⟨rfl, rfl⟩ := Prod.mk.inj (Option.some.inj hs)
    exact ⟨rfl, hother, rfl, h.command, fun hcalled => (h.calls hcalled).of_request rfl,
      h.serving.killed hgoes⟩
  | stray fd data =>
    simp only [Process.step] at hs
    split_ifs at hs with hundefined
    obtain ⟨rfl, rfl⟩ := Prod.mk.inj (Option.some.inj hs)
    have hserving := h.serving
    rw [hundefined] at hserving
    refine ⟨rfl, hother, h.table, h.command, h.calls, ?_⟩
    rw [hundefined]
    generalize p.request = request at hserving ⊢
    cases hserving with
    | undefined hserve => exact .undefined hserve
    | mixed _ _ hne => exact absurd rfl hne
  | commandWrites fd data =>
    obtain ⟨t, ht, hs⟩ := Option.map_eq_some_iff.mp hs
    obtain ⟨rfl, rfl⟩ := Prod.mk.inj hs
    have hcalls := h.calls (Or.inl (ht ▸ Option.some_ne_none t))
    refine ⟨rfl, hother, h.table, h.command, fun _ => hcalls.of_request rfl, ?_⟩
    obtain ⟨request, file, hrequest, -⟩ := hcalls
    have hserving := h.serving
    rw [hrequest] at hserving
    show Serving answer _ (p.meddled || decide (t fd = some (.connection p.connection))) p.phase p.request
    rw [hrequest]
    by_cases hfd : t fd = some (.connection p.connection)
    · rw [decide_eq_true hfd, Bool.or_true]
      exact hserving.meddle
    · rw [decide_eq_false hfd, Bool.or_false]
      have hsame : afterWrite sent (some (t fd, data)) p.connection = sent p.connection :=
        afterWrite_of_ne fun _ hout => hfd (Prod.mk.inj (Option.some.inj hout)).1
      rwa [hsame]
  | commandEnds =>
    obtain ⟨t, ht, hs⟩ := Option.map_eq_some_iff.mp hs
    obtain ⟨rfl, rfl⟩ := Prod.mk.inj hs
    exact ⟨rfl, hother, h.table, nofun,
      fun _ => (h.calls (Or.inl (ht ▸ Option.some_ne_none t))).of_request rfl, h.serving⟩

/-! ## The server -/

namespace ForkingServer

/-- What the parent's place in its loop says about its table. -/
def AtParent (s : ForkingServer φ) : Prop :=
  match s.parent with
  | .accepting => s.table = Table.listening s.sockfd
  | .forking newsockfd => Table.listening s.sockfd newsockfd = none ∧ ∃ c, s.accepted = c + 1 ∧
      s.table = Table.serving s.sockfd newsockfd c ∧
      ∀ pid p, s.child pid = some p → p.connection ≠ c
  | .closing newsockfd => Table.listening s.sockfd newsockfd = none ∧ ∃ c, s.accepted = c + 1 ∧
      s.table = Table.serving s.sockfd newsockfd c
  | .exited => s.table = Table.closed

structure Inv (answer : Answer φ) (s : ForkingServer φ) : Prop where
  parent : s.AtParent
  accepted : ∀ pid p, s.child pid = some p → p.connection < s.accepted
  distinct : ∀ pid pid' p p', s.child pid = some p → s.child pid' = some p' →
    p.connection = p'.connection → pid = pid'
  child : ∀ pid p, s.child pid = some p → p.Inv answer s.sockfd (s.sent p.connection)
  silent : ∀ c, (∀ pid p, s.child pid = some p → p.connection ≠ c) → s.sent c = []

theorem inv_init (sockfd : ℕ) : (init sockfd : ForkingServer φ).Inv answer where
  parent := rfl
  accepted _ _ h := by cases h
  distinct _ _ _ _ h := by cases h
  child _ _ h := by cases h
  silent _ _ := rfl

theorem update_child {child : ℕ → Option (Process φ)} {pid pid' : ℕ} {p p' : Process φ}
    (h : Function.update child pid (some p) pid' = some p') :
    pid' = pid ∧ p' = p ∨ pid' ≠ pid ∧ child pid' = some p' := by
  rw [Function.update_apply] at h
  split_ifs at h with heq
  · exact Or.inl ⟨heq, (Option.some.inj h).symm⟩
  · exact Or.inr ⟨heq, h⟩

theorem Inv.fork {s : ForkingServer φ} (h : s.Inv answer) {newsockfd pid c : ℕ}
    (hparent : s.parent = .forking newsockfd) (hfd : s.table newsockfd = some (.connection c))
    (hpid : s.child pid = none) :
    Inv answer { s with
      parent := .closing newsockfd
      child := Function.update s.child pid (some (forkedChild newsockfd s.table c)) } := by
  have hat := h.parent
  rw [AtParent, hparent] at hat
  obtain ⟨hfree, c', haccepted, htable, hnew⟩ := hat
  obtain rfl : c = c' := by
    rw [htable] at hfd
    exact Table.serving_eq_connection hfd
  refine ⟨⟨hfree, c, haccepted, htable⟩, ?_, ?_, ?_, ?_⟩
  · intro pid' p hp
    obtain ⟨-, rfl⟩ | ⟨-, hold⟩ := update_child hp
    · exact haccepted ▸ Nat.lt_succ_self c
    · exact h.accepted pid' p hold
  · intro pid₁ pid₂ p₁ p₂ hp₁ hp₂ hsame
    obtain ⟨rfl, rfl⟩ | ⟨-, hold₁⟩ := update_child hp₁ <;>
      obtain ⟨rfl, rfl⟩ | ⟨-, hold₂⟩ := update_child hp₂
    · rfl
    · exact absurd hsame.symm (hnew _ _ hold₂)
    · exact absurd hsame (hnew _ _ hold₁)
    · exact h.distinct _ _ _ _ hold₁ hold₂ hsame
  · intro pid' p hp
    obtain ⟨-, rfl⟩ | ⟨-, hold⟩ := update_child hp
    · exact ⟨htable, nofun, fun hcalled => absurd hcalled (by simp [forkedChild]),
        .reading (h.silent c hnew)⟩
    · exact h.child pid' p hold
  · intro c' hnone
    refine h.silent c' fun pid' p hp => ?_
    have hne : pid' ≠ pid := by
      rintro rfl
      rw [hpid] at hp
      cases hp
    exact hnone pid' p ((Function.update_of_ne hne _ _).trans hp)

theorem Inv.child_step {s : ForkingServer φ} (h : s.Inv answer) {pid : ℕ} {p p' : Process φ}
    {e : ChildEvent φ} {out : Option (Option Socket × Str)} (hp : s.child pid = some p)
    (hs : p.step answer e = some (p', out)) :
    Inv answer { s with
      child := Function.update s.child pid (some p'), sent := afterWrite s.sent out } := by
  obtain ⟨hconn, hother, hinv⟩ := (h.child pid p hp).step hs
  refine ⟨?_, ?_, ?_, ?_, ?_⟩
  · have hat := h.parent
    unfold AtParent at hat ⊢
    cases hparent : s.parent with
    | accepting | closing newsockfd | exited =>
      rw [hparent] at hat
      exact hat
    | forking newsockfd =>
      rw [hparent] at hat
      obtain ⟨hfree, c, haccepted, htable, hnew⟩ := hat
      refine ⟨hfree, c, haccepted, htable, fun pid' q hq => ?_⟩
      obtain ⟨-, rfl⟩ | ⟨-, hold⟩ := update_child hq
      · rw [hconn]
        exact hnew pid p hp
      · exact hnew pid' q hold
  · intro pid' q hq
    obtain ⟨-, rfl⟩ | ⟨-, hold⟩ := update_child hq
    · rw [hconn]
      exact h.accepted pid p hp
    · exact h.accepted pid' q hold
  · intro pid₁ pid₂ p₁ p₂ hp₁ hp₂ hsame
    obtain ⟨rfl, rfl⟩ | ⟨hne₁, hold₁⟩ := update_child hp₁ <;>
      obtain ⟨rfl, rfl⟩ | ⟨hne₂, hold₂⟩ := update_child hp₂
    · rfl
    · exact h.distinct _ _ _ _ hp hold₂ (hconn ▸ hsame)
    · exact h.distinct _ _ _ _ hold₁ hp (hconn ▸ hsame)
    · exact h.distinct _ _ _ _ hold₁ hold₂ hsame
  · intro pid' q hq
    obtain ⟨-, rfl⟩ | ⟨hne, hold⟩ := update_child hq
    · rw [hconn]
      exact hinv
    · have hdiff : q.connection ≠ p.connection := fun hsame =>
        hne (h.distinct _ _ _ _ hold hp hsame)
      show q.Inv answer s.sockfd (afterWrite s.sent out q.connection)
      rw [hother q.connection hdiff]
      exact h.child pid' q hold
  · intro c hnone
    have hne : c ≠ p.connection := by
      rintro rfl
      exact hnone pid p' (Function.update_self ..) hconn
    show afterWrite s.sent out c = []
    rw [hother c hne]
    refine h.silent c fun pid' q hq => ?_
    by_cases heq : pid' = pid
    · subst heq
      obtain rfl := Option.some.inj (hp.symm.trans hq)
      exact hne.symm
    · exact hnone pid' q ((Function.update_of_ne heq _ _).trans hq)

theorem Inv.step {s s' : ForkingServer φ} {e : ForkEvent φ} (h : s.Inv answer)
    (hs : ForkStep answer s e s') : s'.Inv answer := by
  have hat := h.parent
  cases hs with
  | accept hparent hfree =>
    rw [AtParent, hparent] at hat
    simp only at hat
    rw [hat] at hfree
    refine ⟨⟨hfree, s.accepted, rfl, by rw [hat]; rfl, fun pid p hp => ?_⟩, ?_, h.distinct, h.child,
      h.silent⟩
    · exact (h.accepted pid p hp).ne
    · exact fun pid p hp => (h.accepted pid p hp).trans (Nat.lt_succ_self _)
  | acceptFails hparent => exact ⟨rfl, h.accepted, h.distinct, h.child, h.silent⟩
  | fork hparent hfd hpid => exact h.fork hparent hfd hpid
  | forkFails hparent =>
    rw [AtParent, hparent] at hat
    obtain ⟨hfree, c, haccepted, htable, -⟩ := hat
    exact ⟨⟨hfree, c, haccepted, htable⟩, h.accepted, h.distinct, h.child, h.silent⟩
  | close hparent =>
    rw [AtParent, hparent] at hat
    obtain ⟨hfree, c, -, htable⟩ := hat
    refine ⟨?_, h.accepted, h.distinct, h.child, h.silent⟩
    show Function.update s.table _ none = Table.listening s.sockfd
    rw [htable, Table.serving, Function.update_idem, ← hfree, Function.update_eq_self]
  | child hp hstep => exact h.child_step hp hstep

theorem run_inv {sockfd : ℕ} {past : List (ForkingServer φ × ForkEvent φ)} {s : ForkingServer φ}
    (h : Run (ForkStep answer) (init sockfd) past s) : s.Inv answer :=
  h.invariant (inv_init sockfd) fun _ _ _ hs hstep => hs.step hstep

theorem Inv.sent_eq_nil {s : ForkingServer φ} (h : s.Inv answer) {c : ℕ}
    (hnone : ∀ pid p, s.child pid = some p → p.connection = c → p.request = none) : s.sent c = [] := by
  by_cases hchild : ∃ pid p, s.child pid = some p ∧ p.connection = c
  · obtain ⟨pid, p, hp, rfl⟩ := hchild
    have hserving := (h.child pid p hp).serving
    rw [hnone pid p hp rfl] at hserving
    generalize p.phase = phase at hserving
    cases hserving with
    | reading hnil | failed hnil | unasked hnil => exact hnil
  · exact h.silent c fun pid p hp hc => hchild ⟨pid, p, hp, hc⟩

theorem Inv.ended_iff {s : ForkingServer φ} (h : s.Inv answer) {pid : ℕ} {p : Process φ}
    (hp : s.child pid = some p) (hparent : ¬ s.table.Holds p.connection) :
    s.Ended p.connection ↔ p.phase.over = true ∧ p.command = none := by
  have hown := (h.child pid p hp).holds_iff (c := p.connection)
  constructor
  · rintro ⟨-, hended⟩
    have hnot := mt hown.mpr (hended pid p hp)
    simpa using hnot
  · rintro ⟨hover, hcommand⟩
    refine ⟨hparent, fun pid' q hq hc => ?_⟩
    obtain ⟨hsame, hgoes⟩ := (h.child pid' q hq).holds_iff.mp hc
    obtain rfl := h.distinct _ _ _ _ hp hq hsame
    obtain rfl := Option.some.inj (hp.symm.trans hq)
    rw [hover, hcommand] at hgoes
    simp at hgoes

/-- In every run, whatever the processes do in which order, which `fork` calls fail and which children
are killed: every connection has at most one child, no other child and no command of another child
holds it, and the parent holds none between its turns. On a connection nothing is written before its
child read, and then, if no command wrote on it, nothing but what the child answers to what it read,
from the start; all of it if the child exits normally. Behind the parent's `close`, the stream of a
client ends exactly when its own child is gone, with what it started; and it starts nothing unless it
calls `system` for this request. -/
theorem connections_isolated {sockfd : ℕ} {past : List (ForkingServer φ × ForkEvent φ)}
    {s : ForkingServer φ} (h : Run (ForkStep answer) (init sockfd) past s) :
    (∀ pid p c, s.child pid = some p → p.Holds c → c = p.connection) ∧
    (∀ pid pid' p p', s.child pid = some p → s.child pid' = some p' →
      p.connection = p'.connection → pid = pid') ∧
    (s.parent = .accepting → ∀ c, ¬ s.table.Holds c) ∧
    (∀ c, (∀ pid p, s.child pid = some p → p.connection = c → p.request = none) → s.sent c = []) ∧
    (∀ pid p request file reply, s.child pid = some p → p.request = some (request, file) →
      answer request file = some reply → p.meddled = false →
        s.sent p.connection <+: reply.writes.flatten ∧
        (p.phase = .exited → s.sent p.connection = reply.writes.flatten)) ∧
    (∀ pid p, s.child pid = some p → p.command ≠ none ∨ p.meddled = true → p.Calls answer) ∧
    ∀ pid p, s.child pid = some p → ¬ s.table.Holds p.connection →
      (s.Ended p.connection ↔ p.phase.over = true ∧ p.command = none) := by
  have hinv := run_inv h
  refine ⟨fun pid p c hp hc => ?_, hinv.distinct, fun hparent c => ?_, fun c hnone => ?_,
    fun pid p request file reply hp hrequest hserve hmeddled => ?_,
    fun pid p hp hcalled => (hinv.child pid p hp).calls hcalled,
    fun pid p hp hparent => hinv.ended_iff hp hparent⟩
  · exact ((hinv.child pid p hp).holds_iff.mp hc).1
  · have hat := hinv.parent
    rw [AtParent, hparent] at hat
    simp only at hat
    rw [hat]
    exact Table.not_holds_listening s.sockfd c
  · exact hinv.sent_eq_nil hnone
  · have hserving := (hinv.child pid p hp).serving
    rw [hrequest, hmeddled] at hserving
    exact hserving.sent hserve

/-! ## Turns of one child -/

/-- `s'` differs from `s` in the child `pid` and on its connection only. -/
structure Apart (pid c : ℕ) (s s' : ForkingServer φ) : Prop where
  parent : s'.parent = s.parent
  table : s'.table = s.table
  child : ∀ pid', pid' ≠ pid → s'.child pid' = s.child pid'
  sent : ∀ c', c' ≠ c → s'.sent c' = s.sent c'

theorem Apart.trans {pid c : ℕ} {s t u : ForkingServer φ} (h : Apart pid c s t)
    (h' : Apart pid c t u) : Apart pid c s u where
  parent := h'.parent.trans h.parent
  table := h'.table.trans h.table
  child pid' hne := (h'.child pid' hne).trans (h.child pid' hne)
  sent c' hne := (h'.sent c' hne).trans (h.sent c' hne)

theorem Inv.apart {s : ForkingServer φ} (h : s.Inv answer) {pid : ℕ} {p p' : Process φ}
    {e : ChildEvent φ} {out : Option (Option Socket × Str)} (hp : s.child pid = some p)
    (hs : p.step answer e = some (p', out)) :
    Apart pid p.connection s { s with
      child := Function.update s.child pid (some p'), sent := afterWrite s.sent out } where
  parent := rfl
  table := rfl
  child _ hne := Function.update_of_ne hne _ _
  sent c' hne := ((h.child pid p hp).step hs).2.1 c' hne

theorem Inv.finishes {s : ForkingServer φ} (h : s.Inv answer) {pid : ℕ} {p : Process φ}
    (hp : s.child pid = some p) {left : List Str} (hcopying : p.phase = .copying left) :
    ∃ later s', Run (ForkStep answer) s later s' ∧ later.length = left.length + 1 ∧
      (∀ turn ∈ later, turn.2 = .child pid .write ∨ turn.2 = .child pid .exit) ∧
      s'.child pid = some (p.ended .exited) ∧
      s'.sent p.connection = s.sent p.connection ++ left.flatten ∧ Apart pid p.connection s s' := by
  induction left generalizing s p with
  | nil =>
    have hstep : p.step answer .exit = some (p.ended .exited, none) := if_pos hcopying
    refine ⟨_, _, Run.start.next (.child hp hstep), rfl, fun turn hturn => ?_,
      Function.update_self .., (List.append_nil _).symm, h.apart hp hstep⟩
    obtain rfl := List.mem_singleton.mp hturn
    exact Or.inr rfl
  | cons data left ih =>
    have hstep : p.step answer .write =
        some ({ p with phase := .copying left }, some (p.table p.newsockfd, data)) := by
      rw [Process.step, hcopying]
    have hfd : p.table p.newsockfd = some (.connection p.connection) := by
      rw [(h.child pid p hp).table, hcopying]
      exact Table.serving_self ..
    have hnext := h.child_step hp hstep
    have hchild : Function.update s.child pid (some { p with phase := .copying left }) pid =
        some { p with phase := .copying left } := Function.update_self ..
    obtain ⟨later, s', hrun, hlen, hown, hexit, hsent, hapart⟩ := ih hnext hchild rfl
    refine ⟨later ++ [(s, .child pid .write)], s', (Run.start.next (.child hp hstep)).trans hrun, ?_,
      fun turn hturn => ?_, hexit, ?_, (h.apart hp hstep).trans hapart⟩
    · rw [List.length_append, hlen]
      rfl
    · obtain hlater | hfirst := List.mem_append.mp hturn
      · exact hown turn hlater
      · obtain rfl := List.mem_singleton.mp hfirst
        exact Or.inl rfl
    · rw [hsent]
      show afterWrite s.sent (some (p.table p.newsockfd, data)) p.connection ++ left.flatten = _
      rw [hfd, afterWrite, Function.update_self, List.append_assoc, List.flatten_cons]

end ForkingServer

/-! ## Two connections -/

/-- The next client is accepted, and gets a child. -/
def ForkingServer.connected (s : ForkingServer φ) (newsockfd pid : ℕ) : ForkingServer φ :=
  { s with
    child := Function.update s.child pid
      (some (forkedChild newsockfd (Table.serving s.sockfd newsockfd s.accepted) s.accepted))
    accepted := s.accepted + 1 }

/-- A turn of a child in which nothing is written. -/
def ForkingServer.turned (s : ForkingServer φ) (pid : ℕ) (p : Process φ) : ForkingServer φ :=
  { s with child := Function.update s.child pid (some p) }

theorem run_accepted {s : ForkingServer φ} (hparent : s.parent = .accepting)
    (htable : s.table = Table.listening s.sockfd) (newsockfd pid : ℕ)
    (hfree : Table.listening s.sockfd newsockfd = none) (hpid : s.child pid = none) :
    ∃ later, Run (ForkStep answer) s later (s.connected newsockfd pid) ∧
      ∀ turn ∈ later, ∀ pid request file, turn.2 ≠ .child pid (.request request file) := by
  obtain ⟨sockfd, parent, table, child, accepted, sent⟩ := s
  obtain rfl : parent = .accepting := hparent
  obtain rfl : table = Table.listening sockfd := htable
  have haccept := Run.start.next (@ForkStep.accept _ answer
    ⟨sockfd, .accepting, Table.listening sockfd, child, accepted, sent⟩ newsockfd rfl hfree)
  have hfork := haccept.next (@ForkStep.fork _ answer _ newsockfd pid accepted rfl
    (Function.update_self ..) hpid)
  have hclose := hfork.next (@ForkStep.close _ answer _ newsockfd rfl)
  have hback : Function.update (Function.update (Table.listening sockfd) newsockfd
      (some (.connection accepted))) newsockfd none = Table.listening sockfd := by
    rw [Function.update_idem, ← hfree, Function.update_eq_self]
  simp only [hback] at hclose
  refine ⟨_, hclose, fun turn hturn pid request file => ?_⟩
  simp only [List.mem_cons, List.not_mem_nil, or_false] at hturn
  obtain rfl | rfl | rfl := hturn <;> exact nofun

theorem step_turned {s : ForkingServer φ} {pid : ℕ} {p p' : Process φ} {e : ChildEvent φ}
    (hp : s.child pid = some p) (hs : p.step answer e = some (p', none)) :
    ForkStep answer s (.child pid e) (s.turned pid p') := .child hp hs

/-- Two clients with their children, 100 and 101. Both children have descriptor 4. -/
def forkedTwo (φ : Type) : ForkingServer φ := ((ForkingServer.init 3).connected 4 100).connected 4 101

theorem run_forkedTwo : ∃ past, Run (ForkStep answer) (ForkingServer.init 3) past (forkedTwo φ) ∧
    ∀ turn ∈ past, ∀ pid request file, turn.2 ≠ .child pid (.request request file) := by
  obtain ⟨past, hrun, hpast⟩ := @run_accepted _ answer (ForkingServer.init 3) rfl rfl 4 100
    rfl rfl
  obtain ⟨later, hlater, hown⟩ := @run_accepted _ answer ((ForkingServer.init 3).connected 4 100) rfl
    rfl 4 101 rfl rfl
  refine ⟨_, hrun.trans hlater, fun turn hturn => ?_⟩
  obtain hturn | hturn := List.mem_append.mp hturn
  · exact hown turn hturn
  · exact hpast turn hturn

/-- Both read the name `a`. -/
def askedTwo (answer : Answer φ) (file : φ) : ForkingServer φ :=
  ((forkedTwo φ).turned 100 ((forkedChild 4 (Table.serving 3 4 0) 0).asked answer [97] file)).turned 101
    ((forkedChild 4 (Table.serving 3 4 1) 1).asked answer [97] file)

theorem steps_askedTwo (file : φ) :
    ForkStep answer (forkedTwo φ) (.child 100 (.request [97] file)) ((forkedTwo φ).turned 100
      ((forkedChild 4 (Table.serving 3 4 0) 0).asked answer [97] file)) ∧
    ForkStep answer ((forkedTwo φ).turned 100
      ((forkedChild 4 (Table.serving 3 4 0) 0).asked answer [97] file))
      (.child 101 (.request [97] file)) (askedTwo answer file) :=
  ⟨step_turned (p := forkedChild 4 (Table.serving 3 4 0) 0) rfl rfl,
    step_turned (p := forkedChild 4 (Table.serving 3 4 1) 1) rfl rfl⟩

theorem run_askedTwo (file : φ) :
    ∃ past, Run (ForkStep answer) (ForkingServer.init 3) past (askedTwo answer file) := by
  obtain ⟨past, hrun, -⟩ := run_forkedTwo
  exact ⟨_, (hrun.next (steps_askedTwo file).1).next (steps_askedTwo file).2⟩

/-- A file of one byte, and the children that serve it: 101 has written it. -/
def peerFile : Option (List Str) := some [[104]]

def peerChild (c : ℕ) (left : List Str) : Process (Option (List Str)) :=
  { (forkedChild 4 (Table.serving 3 4 c) c : Process (Option (List Str))) with
    phase := .copying left, request := some ([97], peerFile) }

def servingTwo : ForkingServer (Option (List Str)) :=
  { askedTwo peerAnswer peerFile with
    child := Function.update (askedTwo peerAnswer peerFile).child 101 (some (peerChild 1 [[]]))
    sent := Function.update (fun _ => []) 1 [104] }

theorem asked_peerAnswer (c : ℕ) :
    (forkedChild 4 (Table.serving 3 4 c) c).asked peerAnswer [97] peerFile =
      peerChild c [[104], []] := by
  have hanswer : peerAnswer [97] peerFile = some ⟨false, [[104], []]⟩ := by decide
  simp only [Process.asked, hanswer]
  rfl

theorem step_servingTwo :
    ForkStep peerAnswer (askedTwo peerAnswer peerFile) (.child 101 .write) servingTwo := by
  have hchild : (askedTwo peerAnswer peerFile).child 101 = some (peerChild 1 [[104], []]) := by
    rw [← asked_peerAnswer 1]
    rfl
  have hstep : (peerChild 1 [[104], []]).step peerAnswer .write =
      some (peerChild 1 [[]], some (some (.connection 1), [104])) := rfl
  exact .child hchild hstep

theorem run_servingTwo :
    ∃ past, Run (ForkStep peerAnswer) (ForkingServer.init 3) past servingTwo := by
  obtain ⟨past, hrun⟩ := run_askedTwo peerFile
  exact ⟨_, hrun.next step_servingTwo⟩

theorem child_servingTwo : servingTwo.child 100 = some (peerChild 0 [[104], []]) := by
  rw [← asked_peerAnswer 0]
  rfl

theorem isolated_servingTwo :
    (∀ pid p c, servingTwo.child pid = some p → p.Holds c → c = p.connection) ∧
    (∀ pid pid' p p', servingTwo.child pid = some p → servingTwo.child pid' = some p' →
      p.connection = p'.connection → pid = pid') ∧
    (servingTwo.parent = .accepting → ∀ c, ¬ servingTwo.table.Holds c) ∧
    (∀ c, (∀ pid p, servingTwo.child pid = some p → p.connection = c → p.request = none) →
      servingTwo.sent c = []) ∧
    (∀ pid p request file reply, servingTwo.child pid = some p → p.request = some (request, file) →
      peerAnswer request file = some reply → p.meddled = false →
        servingTwo.sent p.connection <+: reply.writes.flatten ∧
        (p.phase = .exited → servingTwo.sent p.connection = reply.writes.flatten)) ∧
    (∀ pid p, servingTwo.child pid = some p → p.command ≠ none ∨ p.meddled = true →
      p.Calls peerAnswer) ∧
    ∀ pid p, servingTwo.child pid = some p → ¬ servingTwo.table.Holds p.connection →
      (servingTwo.Ended p.connection ↔ p.phase.over = true ∧ p.command = none) := by
  obtain ⟨past, hrun⟩ := run_servingTwo
  exact ForkingServer.connections_isolated hrun

end ComputerNetworks.FileTransfer
