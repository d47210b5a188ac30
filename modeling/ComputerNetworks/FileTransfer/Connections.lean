import ComputerNetworks.FileTransfer.ForkingServer

/-! # Clients on the connections of a forking server

A client writes its request and then reads what comes until its program stops reading; a `read` returns
0 bytes when nothing is left and no process holds the other end any more. What the client does with the
bytes is a `Reader`. `connections_inv` is what holds in every run of a forking server with any number of
clients, whatever its children answer and whatever the clients do.
-/
namespace ComputerNetworks.FileTransfer
open Runs
set_option autoImplicit false

variable {φ κ : Type} {answer : Answer φ}

/-! ## Connections only grow until they end -/

theorem prefix_afterWrite (sent : ℕ → Str) (out : Option (Option Socket × Str)) (c : ℕ) :
    sent c <+: afterWrite sent out c := by
  by_cases hout : ∃ data, out = some (some (.connection c), data)
  · obtain ⟨data, rfl⟩ := hout
    rw [afterWrite, Function.update_self]
    exact List.prefix_append _ _
  · rw [afterWrite_of_ne fun data heq => hout ⟨data, heq⟩]

/-- A child keeps its table or loses it, and shares it with what it starts. -/
theorem Process.holds_of_step {p p' : Process φ} {e : ChildEvent φ}
    {out : Option (Option Socket × Str)} (hs : p.step answer e = some (p', out)) {c : ℕ}
    (h : p'.Holds c) : p.Holds c := by
  cases e with
  | request request file =>
    simp only [Process.step] at hs
    split_ifs at hs
    obtain ⟨rfl, rfl⟩ := Prod.mk.inj (Option.some.inj hs)
    simp only [Process.asked] at h
    split at h
    · obtain h | ⟨t, ht, h⟩ := h
      · exact Or.inl h
      · exact Or.inl (Option.some.inj ht ▸ h)
    · obtain h | ⟨t, ht, h⟩ := h
      · exact Or.inl h
      · exact Or.inl (Option.some.inj ht ▸ h)
    · exact h
  | requestFails | exit | killed =>
    simp only [Process.step] at hs
    split_ifs at hs
    obtain ⟨rfl, rfl⟩ := Prod.mk.inj (Option.some.inj hs)
    exact Or.inr (h.resolve_left (Table.not_holds_closed c))
  | stray fd data =>
    simp only [Process.step] at hs
    split_ifs at hs
    obtain ⟨rfl, rfl⟩ := Prod.mk.inj (Option.some.inj hs)
    exact h
  | resumes | write =>
    simp only [Process.step] at hs
    split at hs
    · obtain ⟨rfl, rfl⟩ := Prod.mk.inj (Option.some.inj hs)
      exact h
    · cases hs
  | commandWrites fd data =>
    obtain ⟨t, -, hs⟩ := Option.map_eq_some_iff.mp hs
    obtain ⟨rfl, rfl⟩ := Prod.mk.inj hs
    exact h
  | commandEnds =>
    obtain ⟨t, -, hs⟩ := Option.map_eq_some_iff.mp hs
    obtain ⟨rfl, rfl⟩ := Prod.mk.inj hs
    obtain h | ⟨t, ht, -⟩ := h
    · exact Or.inl h
    · cases ht

section
variable {s s' : ForkingServer φ} {e : ForkEvent φ}

theorem ForkStep.prefix_sent (hs : ForkStep answer s e s') (c : ℕ) : s.sent c <+: s'.sent c := by
  cases hs with
  | accept | acceptFails | fork | forkFails | close => exact List.prefix_refl _
  | child => exact prefix_afterWrite _ _ _

theorem ForkStep.accepted_le (hs : ForkStep answer s e s') : s.accepted ≤ s'.accepted := by
  cases hs with
  | accept => exact Nat.le_succ _
  | acceptFails | fork | forkFails | close | child => exact le_rfl

/-- After the end of a stream nothing is written on it. -/
theorem ForkStep.ended (hs : ForkStep answer s e s') {c : ℕ} (hc : c < s.accepted) (h : s.Ended c) :
    s'.Ended c ∧ s'.sent c = s.sent c := by
  obtain ⟨hparent, hchild⟩ := h
  cases hs with
  | accept =>
    refine ⟨⟨fun hholds => ?_, hchild⟩, rfl⟩
    obtain rfl | hold := Table.holds_of_update hholds
    · exact lt_irrefl _ hc
    · exact hparent hold
  | acceptFails => exact ⟨⟨Table.not_holds_closed c, hchild⟩, rfl⟩
  | fork =>
    refine ⟨⟨hparent, fun pid' p hp => ?_⟩, rfl⟩
    obtain ⟨-, rfl⟩ | ⟨-, hold⟩ := ForkingServer.update_child hp
    · exact fun h => hparent (h.resolve_right nofun)
    · exact hchild pid' p hold
  | forkFails => exact ⟨⟨hparent, hchild⟩, rfl⟩
  | close => exact ⟨⟨fun h => hparent (Table.holds_of_update_none h), hchild⟩, rfl⟩
  | child hp hstep =>
    refine ⟨⟨hparent, fun pid' q hq => ?_⟩, Process.afterWrite_of_not_holds hstep (hchild _ _ hp)⟩
    obtain ⟨-, rfl⟩ | ⟨-, hold⟩ := ForkingServer.update_child hq
    · exact fun h => hchild _ _ hp (Process.holds_of_step hstep h)
    · exact hchild pid' q hold

end

/-! ## What the children read -/

/-- Every request that a child has read on its connection is one it may read there. -/
def ForkingServer.Heard (hears : ℕ → Str → φ → Prop) (s : ForkingServer φ) : Prop :=
  ∀ pid p request file, s.child pid = some p → p.request = some (request, file) →
    hears p.connection request file

/-- The same of the request that is read in a step. -/
def ForkEvent.Hears (hears : ℕ → Str → φ → Prop) (s : ForkingServer φ) (e : ForkEvent φ) : Prop :=
  ∀ pid p request file, e = .child pid (.request request file) → s.child pid = some p →
    hears p.connection request file

theorem Process.request_asked (p : Process φ) (request : Str) (file : φ) :
    (p.asked answer request file).connection = p.connection ∧
      (p.asked answer request file).request = some (request, file) := by
  simp only [Process.asked]
  split <;> exact ⟨rfl, rfl⟩

/-- A child reads one request, and the record stays. -/
theorem Process.request_of_step {p p' : Process φ} {e : ChildEvent φ}
    {out : Option (Option Socket × Str)} (hs : p.step answer e = some (p', out)) :
    p'.connection = p.connection ∧ (p'.request = p.request ∨ ∃ request file,
      e = .request request file ∧ p'.request = some (request, file)) := by
  cases e with
  | request request file =>
    simp only [Process.step] at hs
    split_ifs at hs
    obtain ⟨rfl, -⟩ := Prod.mk.inj (Option.some.inj hs)
    obtain ⟨hconn, hrequest⟩ := @Process.request_asked _ answer p request file
    exact ⟨hconn, Or.inr ⟨request, file, rfl, hrequest⟩⟩
  | requestFails | exit | killed | stray =>
    simp only [Process.step] at hs
    split_ifs at hs
    obtain ⟨rfl, -⟩ := Prod.mk.inj (Option.some.inj hs)
    exact ⟨rfl, Or.inl rfl⟩
  | resumes | write =>
    simp only [Process.step] at hs
    split at hs
    · obtain ⟨rfl, -⟩ := Prod.mk.inj (Option.some.inj hs)
      exact ⟨rfl, Or.inl rfl⟩
    · cases hs
  | commandWrites | commandEnds =>
    obtain ⟨t, -, hs⟩ := Option.map_eq_some_iff.mp hs
    obtain ⟨rfl, -⟩ := Prod.mk.inj hs
    exact ⟨rfl, Or.inl rfl⟩

theorem ForkStep.heard {hears : ℕ → Str → φ → Prop} {s s' : ForkingServer φ} {e : ForkEvent φ}
    (hs : ForkStep answer s e s') (h : s.Heard hears) (he : e.Hears hears s) : s'.Heard hears := by
  cases hs with
  | accept | acceptFails | forkFails | close => exact h
  | fork =>
    intro pid' q request file hq hrequest
    obtain ⟨-, rfl⟩ | ⟨-, hold⟩ := ForkingServer.update_child hq
    · cases hrequest
    · exact h pid' q request file hold hrequest
  | @child pid p p' e' out hp hstep =>
    intro pid' q request file hq hrequest
    obtain ⟨-, rfl⟩ | ⟨-, hold⟩ := ForkingServer.update_child hq
    · obtain ⟨hconn, hsame | ⟨request', file', rfl, hnew⟩⟩ := Process.request_of_step hstep
      · rw [hconn]
        exact h pid p request file hp (hsame ▸ hrequest)
      · obtain ⟨rfl, rfl⟩ := Prod.mk.inj (Option.some.inj (hnew.symm.trans hrequest))
        rw [hconn]
        exact he pid p request' file' rfl hp
    · exact h pid' q request file hold hrequest

/-! ## Clients -/

/-- A program in a state `κ` before each `read` of up to `cap` bytes. -/
structure Reader (κ : Type) where
  start : κ
  turn : κ → Str → κ
  running : κ → Bool
  cap : ℕ

/-- `reads c` is a record of what the `read` calls on connection `c` returned. -/
structure Connections (φ κ : Type) where
  server : ForkingServer φ
  client : ℕ → κ
  reads : ℕ → List Str

inductive ConnectionEvent (φ : Type) where
  | server (e : ForkEvent φ)
  | client (c num : ℕ)

namespace Connections

/-- What was written to the client of connection `c` and not yet read. -/
def available (s : Connections φ κ) (c : ℕ) : Str :=
  (s.server.sent c).drop (s.reads c).flatten.length

/-- A client reads some of what is there, and 0 bytes only at the end of the stream. -/
structure MayRead (R : Reader κ) (s : Connections φ κ) (c num : ℕ) : Prop where
  connected : c < s.server.accepted
  running : R.running (s.client c) = true
  length_le : num ≤ R.cap
  available_le : num ≤ (s.available c).length
  ended : num = 0 → s.available c = [] ∧ s.server.Ended c

def read (R : Reader κ) (s : Connections φ κ) (c num : ℕ) : Connections φ κ :=
  let seg := (s.available c).take num
  { s with
    client := Function.update s.client c (R.turn (s.client c) seg)
    reads := Function.update s.reads c (s.reads c ++ [seg]) }

def init (R : Reader κ) (sockfd : ℕ) : Connections φ κ := ⟨.init sockfd, fun _ => R.start, fun _ => []⟩

end Connections

/-- `hears c request file` says which requests a child may read on connection `c`. -/
inductive ConnectionStep (answer : Answer φ) (R : Reader κ) (hears : ℕ → Str → φ → Prop) :
    Connections φ κ → ConnectionEvent φ → Connections φ κ → Prop
  | server {s : Connections φ κ} {e : ForkEvent φ} {server : ForkingServer φ} :
      ForkStep answer s.server e server → e.Hears hears s.server →
      ConnectionStep answer R hears s (.server e) { s with server := server }
  | client {s : Connections φ κ} {c num : ℕ} : s.MayRead R c num →
      ConnectionStep answer R hears s (.client c num) (s.read R c num)

/-! ## What holds in every run -/

structure ConnectionsInv (answer : Answer φ) (R : Reader κ) (hears : ℕ → Str → φ → Prop)
    (s : Connections φ κ) : Prop where
  server : s.server.Inv answer
  heard : s.server.Heard hears
  client : ∀ c, s.client c = (s.reads c).foldl R.turn R.start
  ran : ∀ c before seg after, s.reads c = before ++ seg :: after →
    R.running (before.foldl R.turn R.start) = true
  length_le : ∀ c, ∀ seg ∈ s.reads c, seg.length ≤ R.cap
  stored : ∀ c, (s.reads c).flatten <+: s.server.sent c
  ended : ∀ c, [] ∈ s.reads c →
    c < s.server.accepted ∧ s.server.Ended c ∧ (s.reads c).flatten = s.server.sent c

section
variable {R : Reader κ} {hears : ℕ → Str → φ → Prop}

theorem connectionsInv_init (sockfd : ℕ) :
    ConnectionsInv answer R hears (Connections.init R sockfd) where
  server := ForkingServer.inv_init sockfd
  heard _ _ _ _ h := by cases h
  client _ := rfl
  ran _ before seg after h := by simp [Connections.init] at h
  length_le _ _ h := by cases h
  stored _ := List.nil_prefix
  ended _ h := by cases h

theorem prefix_append_take {stored stream : Str} (h : stored <+: stream) (num : ℕ) :
    stored ++ (stream.drop stored.length).take num <+: stream := by
  obtain ⟨rest, rfl⟩ := h
  rw [List.drop_left]
  exact List.prefix_append_right_inj stored |>.mpr (List.take_prefix num rest)

theorem ConnectionsInv.eq_of_available {s : Connections φ κ} (h : ConnectionsInv answer R hears s)
    {c : ℕ} (hnil : s.available c = []) : (s.reads c).flatten = s.server.sent c := by
  obtain ⟨rest, hrest⟩ := h.stored c
  have hdrop : s.available c = rest := by rw [Connections.available, ← hrest, List.drop_left]
  rw [← hrest, ← hdrop, hnil, List.append_nil]

theorem ConnectionsInv.read {s : Connections φ κ} (h : ConnectionsInv answer R hears s) {c num : ℕ}
    (hread : s.MayRead R c num) : ConnectionsInv answer R hears (s.read R c num) := by
  have hle := hread.available_le
  have hlen : ((s.available c).take num).length = num := by
    rw [List.length_take]
    omega
  refine ⟨h.server, h.heard, fun c' => ?_, fun c' before seg after hreads => ?_, fun c' => ?_,
    fun c' => ?_, fun c' => ?_⟩ <;> by_cases hc : c' = c
  · subst hc
    simp [Connections.read, List.foldl_append, h.client c']
  · simpa [Connections.read, hc] using h.client c'
  · subst hc
    simp only [Connections.read, Function.update_self] at hreads
    cases after using List.reverseRecOn with
    | nil =>
      obtain ⟨rfl, -⟩ := List.append_inj' hreads rfl
      rw [← h.client c']
      exact hread.running
    | append_singleton after last =>
      rw [← List.cons_append, ← List.append_assoc] at hreads
      exact h.ran c' before seg after (List.append_inj' hreads rfl).1
  · exact h.ran c' before seg after (by simpa [Connections.read, hc] using hreads)
  · subst hc
    intro seg hseg
    simp only [Connections.read, Function.update_self, List.mem_append, List.mem_singleton] at hseg
    obtain hseg | rfl := hseg
    · exact h.length_le c' seg hseg
    · exact hlen.trans_le hread.length_le
  · simpa [Connections.read, hc] using h.length_le c'
  · subst hc
    simp only [Connections.read, Function.update_self, List.flatten_append, List.flatten_singleton]
    exact prefix_append_take (h.stored c') num
  · simpa [Connections.read, hc] using h.stored c'
  · subst hc
    simp only [Connections.read, Function.update_self, List.flatten_append, List.flatten_singleton,
      List.mem_append, List.mem_singleton]
    rintro (hbefore | hnil)
    · obtain ⟨-, hended, hstored⟩ := h.ended c' hbefore
      refine ⟨hread.connected, hended, ?_⟩
      rw [Connections.available, ← hstored, List.drop_length, List.take_nil, List.append_nil]
    · rw [← hnil, List.length_nil] at hlen
      obtain ⟨havailable, hended⟩ := hread.ended hlen.symm
      refine ⟨hread.connected, hended, ?_⟩
      rw [havailable, List.take_nil, List.append_nil]
      exact h.eq_of_available havailable
  · simpa [Connections.read, hc] using h.ended c'

theorem ConnectionsInv.step {s s' : Connections φ κ} {e : ConnectionEvent φ}
    (h : ConnectionsInv answer R hears s) (hs : ConnectionStep answer R hears s e s') :
    ConnectionsInv answer R hears s' := by
  cases hs with
  | client hread => exact h.read hread
  | server hstep hhears =>
    refine ⟨h.server.step hstep, hstep.heard h.heard hhears, h.client, h.ran, h.length_le,
      fun c => ?_, fun c hnil => ?_⟩
    · exact (h.stored c).trans (hstep.prefix_sent c)
    · obtain ⟨hc, hended, hstored⟩ := h.ended c hnil
      obtain ⟨hended', hsent⟩ := hstep.ended hc hended
      exact ⟨hc.trans_le hstep.accepted_le, hended', hstored.trans hsent.symm⟩

theorem connections_inv {sockfd : ℕ} {past : List (Connections φ κ × ConnectionEvent φ)}
    {s : Connections φ κ} (h : Run (ConnectionStep answer R hears) (.init R sockfd) past s) :
    ConnectionsInv answer R hears s :=
  h.invariant (connectionsInv_init sockfd) fun _ _ _ hs hstep => hs.step hstep

/-- What a child answered to a request, and what its client has read of it. -/
theorem ConnectionsInv.served {s : Connections φ κ} (h : ConnectionsInv answer R hears s) {pid : ℕ}
    {p : Process φ} (hp : s.server.child pid = some p) {request : Str} {file : φ}
    (hrequest : p.request = some (request, file)) {reply : Reply}
    (hanswer : answer request file = some reply) (hmeddled : p.meddled = false) :
    hears p.connection request file ∧ (s.reads p.connection).flatten <+: reply.writes.flatten ∧
    ([] ∈ s.reads p.connection → p.phase.over = true ∧
      (p.phase = .exited → (s.reads p.connection).flatten = reply.writes.flatten)) := by
  have hserving := (h.server.child pid p hp).serving
  rw [hrequest, hmeddled] at hserving
  obtain ⟨hsent, hexit⟩ := hserving.sent hanswer
  refine ⟨h.heard pid p request file hp hrequest, (h.stored p.connection).trans hsent,
    fun hnil => ?_⟩
  obtain ⟨-, hended, hstored⟩ := h.ended p.connection hnil
  refine ⟨((h.server.ended_iff hp hended.1).mp hended).1, fun hexited => ?_⟩
  rw [hstored, hexit hexited]

/-- A client whose child has read nothing has read nothing either. -/
theorem ConnectionsInv.unserved {s : Connections φ κ} (h : ConnectionsInv answer R hears s) {c : ℕ}
    (hnone : ∀ pid p, s.server.child pid = some p → p.connection = c → p.request = none) :
    (s.reads c).flatten = [] := by
  have hstored := h.stored c
  rw [h.server.sent_eq_nil hnone] at hstored
  exact List.prefix_nil.mp hstored

/-- A turn of the child `pid`, or of the client of connection `c`. -/
def ConnectionEvent.Of (pid c : ℕ) : ConnectionEvent φ → Prop
  | .server e => e = .child pid .write ∨ e = .child pid .exit
  | .client c' _ => c' = c

variable (R hears) in
/-- What the server does without reading a request, the clients can watch. -/
theorem Connections.run_server (s : Connections φ κ) {later : List (ForkingServer φ × ForkEvent φ)}
    {server : ForkingServer φ} (h : Run (ForkStep answer) s.server later server)
    (hown : ∀ turn ∈ later, ∀ pid request file, turn.2 ≠ .child pid (.request request file)) :
    ∃ past, Run (ConnectionStep answer R hears) s past { s with server := server } ∧
      past.map Prod.snd = later.map fun turn => .server turn.2 := by
  induction h with
  | start => exact ⟨[], .start, rfl⟩
  | @next later t u e _ hstep ih =>
    obtain ⟨past, hrun, hevents⟩ := ih fun turn hturn => hown turn (List.mem_cons_of_mem _ hturn)
    have hhears : e.Hears hears t := fun pid p request file he _ =>
      absurd he (hown _ List.mem_cons_self pid request file)
    exact ⟨_, hrun.next (.server hstep hhears), by rw [List.map_cons, hevents, List.map_cons]⟩

/-- At the end of the stream a client may read what is left in any pieces, and then that nothing is
left, as long as its program goes on. -/
theorem Connections.run_reads {s : Connections φ κ} {c : ℕ} (hc : c < s.server.accepted)
    (hended : s.server.Ended c) (S : Segmentation R.cap (s.available c))
    (hran : ∀ before, before <+: S.segments → R.running (before.foldl R.turn (s.client c)) = true) :
    ∃ past s', Run (ConnectionStep answer R hears) s past s' ∧ s'.server = s.server ∧
      past.length = S.segments.length + 1 ∧ (∀ turn ∈ past, ∃ num, turn.2 = .client c num) ∧
      s'.reads c = s.reads c ++ (S.segments ++ [[]]) ∧
      ∀ c', c' ≠ c → s'.client c' = s.client c' := by
  obtain ⟨segs, hne, hlen, hflatten⟩ := S
  simp only at hran ⊢
  induction segs generalizing s with
  | nil =>
    have hnil : s.available c = [] := hflatten.symm
    have hread : s.MayRead R c 0 :=
      ⟨hc, hran [] List.nil_prefix, Nat.zero_le _, Nat.zero_le _, fun _ => ⟨hnil, hended⟩⟩
    refine ⟨_, _, Run.start.next (.client hread), rfl, rfl, fun turn hturn => ?_,
      Function.update_self .., fun c' hne => ?_⟩
    · rw [List.mem_singleton.mp hturn]
      exact ⟨0, rfl⟩
    · exact Function.update_of_ne hne _ _
  | cons seg segs ih =>
    obtain ⟨hseg, hsegs⟩ := List.forall_mem_cons.mp hne
    obtain ⟨hfits, hrest⟩ := List.forall_mem_cons.mp hlen
    have havailable : s.available c = seg ++ segs.flatten := hflatten.symm
    have hread : s.MayRead R c seg.length := by
      refine ⟨hc, hran [] List.nil_prefix, hfits, ?_, fun hzero => ?_⟩
      · rw [havailable, List.length_append]
        exact Nat.le_add_right _ _
      · exact absurd (List.eq_nil_of_length_eq_zero hzero) hseg
    have htake : (s.available c).take seg.length = seg := by
      rw [havailable, List.take_left]
    have hreads : (s.read R c seg.length).reads c = s.reads c ++ [seg] := by
      simp [Connections.read, htake]
    have hclient : (s.read R c seg.length).client c = R.turn (s.client c) seg := by
      simp [Connections.read, htake]
    have hleft : segs.flatten = (s.read R c seg.length).available c := by
      rw [Connections.available, hreads, List.flatten_append, List.flatten_singleton,
        List.length_append, ← List.drop_drop]
      show _ = ((s.available c).drop seg.length)
      rw [havailable, List.drop_left]
    obtain ⟨past, s', hrun, hserver, hcount, hown, hall, hother⟩ :=
      ih (s := s.read R c seg.length) hc hended hsegs hrest hleft fun before hbefore => by
        rw [hclient]
        exact hran (seg :: before) ((List.prefix_cons_inj seg).mpr hbefore)
    refine ⟨_, s', (Run.start.next (.client hread)).trans hrun, hserver, ?_, fun turn hturn => ?_, ?_,
      fun c' hne' => ?_⟩
    · rw [List.length_append, hcount]
      rfl
    · obtain hlater | hfirst := List.mem_append.mp hturn
      · exact hown turn hlater
      · rw [List.mem_singleton.mp hfirst]
        exact ⟨seg.length, rfl⟩
    · rw [hall, hreads, List.append_assoc]
      rfl
    · rw [hother c' hne']
      exact Function.update_of_ne hne' _ _

/-- From every reachable state: once a child has its answer to write, nothing that it started is left,
and the parent has closed its copy of the connection, the turns of that child, and then those of its
client, are enough for the client to read the rest of the answer, in any pieces. -/
theorem ConnectionsInv.finishes {s : Connections φ κ} (h : ConnectionsInv answer R hears s) {pid : ℕ}
    {p : Process φ} (hp : s.server.child pid = some p) {left : List Str}
    (hcopying : p.phase = .copying left) (hcommand : p.command = none)
    (hparent : ¬ s.server.table.Holds p.connection)
    (S : Segmentation R.cap (s.available p.connection ++ left.flatten))
    (hran : ∀ before, before <+: S.segments →
      R.running (before.foldl R.turn (s.client p.connection)) = true) :
    ∃ later s', Run (ConnectionStep answer R hears) s later s' ∧
      later.length = left.length + S.segments.length + 2 ∧
      (∀ turn ∈ later, turn.2.Of pid p.connection) ∧
      s'.server.child pid = some (p.ended .exited) ∧
      s'.reads p.connection = s.reads p.connection ++ (S.segments ++ [[]]) ∧
      ∀ c, c ≠ p.connection →
        s'.client c = s.client c ∧ s'.server.sent c = s.server.sent c := by
  -- the child writes the rest and exits
  obtain ⟨turns, server, hserver, hlen, hown, hchild, hsent, hapart⟩ := h.server.finishes hp hcopying
  obtain ⟨turns', hturns, hevents⟩ := s.run_server R hears hserver
    fun turn hturn pid' request' file' he => by
      obtain hwrite | hexit := hown turn hturn
      · cases he.symm.trans hwrite
      · cases he.symm.trans hexit
  have hlen' : turns'.length = turns.length := by
    simpa using congrArg List.length hevents
  have h' : ConnectionsInv answer R hears { s with server := server } :=
    hturns.invariant h fun _ _ _ hs hstep => hs.step hstep
  have haccepted : p.connection < server.accepted :=
    h'.server.accepted pid (p.ended .exited) hchild
  have hholds : ¬ server.table.Holds p.connection := by
    rw [hapart.table]
    exact hparent
  have hended : server.Ended p.connection :=
    (h'.server.ended_iff hchild hholds).mpr ⟨rfl, hcommand⟩
  have havailable : s.available p.connection ++ left.flatten =
      Connections.available { s with server := server } p.connection := by
    obtain ⟨rest, hrest⟩ := h.stored p.connection
    rw [Connections.available, Connections.available, hsent, ← hrest, List.append_assoc,
      List.drop_left, List.drop_left]
  -- and the client reads it
  obtain ⟨reads, s', hreads, hsame, hcount, hclient, hall, hother⟩ :=
    @Connections.run_reads _ _ answer R hears { s with server := server } _ haccepted hended
      ⟨S.segments, S.ne_nil, S.length_le, S.flatten_eq.trans havailable⟩ hran
  refine ⟨reads ++ turns', s', hturns.trans hreads, ?_, fun turn hturn => ?_, ?_, hall,
    fun c hne => ⟨hother c hne, ?_⟩⟩
  · have hcount' : reads.length = S.segments.length + 1 := hcount
    rw [List.length_append, hcount', hlen', hlen]
    omega
  · obtain hread | hturn := List.mem_append.mp hturn
    · obtain ⟨num, hnum⟩ := hclient turn hread
      rw [hnum]
      rfl
    · have hmem : turn.2 ∈ turns'.map Prod.snd := List.mem_map_of_mem hturn
      rw [hevents] at hmem
      obtain ⟨turn', hturn', heq⟩ := List.mem_map.mp hmem
      rw [← heq]
      exact hown turn' hturn'
  · rw [hsame]
    exact hchild
  · rw [hsame]
    exact hapart.sent c hne

/-! ## Two connections -/

theorem run_askedBoth (R : Reader κ) (file : φ) (hhears : ∀ c, hears c [97] file) :
    ∃ past, Run (ConnectionStep answer R hears) (.init R 3) past
      ⟨askedTwo answer file, fun _ => R.start, fun _ => []⟩ := by
  obtain ⟨past, hrun, hown⟩ := @run_forkedTwo φ answer
  obtain ⟨past', hrun', -⟩ := (Connections.init R 3).run_server R hears hrun hown
  obtain ⟨hfirst, hsecond⟩ := @steps_askedTwo φ answer file
  have hasked : ∀ (s : ForkingServer φ) (pid : ℕ),
      ForkEvent.Hears hears s (.child pid (.request [97] file)) := by
    rintro s pid _ p _ _ ⟨⟩ -
    exact hhears p.connection
  exact ⟨_, (hrun'.next (.server hfirst (hasked _ _))).next (.server hsecond (hasked _ _))⟩

end

end ComputerNetworks.FileTransfer
