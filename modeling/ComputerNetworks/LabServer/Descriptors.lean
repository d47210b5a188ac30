import ComputerNetworks.LabServer.SelectLoop

/-! # Which descriptors the select loop reads

The loop walks over a copy of `master` that its own turns outdate: a connection is accepted, one hangs
up, and the operating system hands the number of a closed descriptor out again. `descriptors_exact`
says that `master` and `fdmax` are nevertheless right in every state, and that every `read` is made on
a connection that was open and reported by the `select` of the same pass. Numbers are reused, but the
connections behind them are counted, so no two of them are confused.
-/
namespace ComputerNetworks.LabServer
open Runs
set_option autoImplicit false

structure MasterExact (listener : ℕ) (s : Server) : Prop where
  members : ∀ fd, fd ∈ s.master ↔ fd = listener ∨ s.conns fd ≠ none
  fdmax : ∀ fd ∈ s.master, fd ≤ s.fdmax

/-- The events in which the loop has called `read (i, buffer, BUFFER)`. -/
def Reads : ServerEvent → Prop
  | .hangUp => True
  | .readFails => True
  | .request _ _ _ => True
  | _ => False

/-- In the history `earlier`, the last `select` reported `i` for the connection that is behind `i` in
`s`, and it was behind `i` ever since. -/
def ReadyFor (earlier : List (Server × ServerEvent)) (s : Server) (i : ℕ) : Prop :=
  ∃ conn ready s₀ since before, earlier = since ++ (s₀, .select ready) :: before ∧
    (∀ q ∈ since, ∀ ready', q.2 ≠ .select ready') ∧ i ∈ ready ∧
    s.conns i = some conn ∧ s₀.conns i = some conn ∧ ∀ q ∈ since, q.1.conns i = some conn

/-! ## Steps within a pass -/

/-- Only `select` starts a pass, and a pass goes through the descriptors upwards. -/
theorem ServerStep.pass_cases {s t : Server} {e : ServerEvent} (h : ServerStep s e t) :
    t.listener = s.listener ∧
    ((∃ ready, e = .select ready ∧ t.pass = some (0, ready) ∧ t.atSelect = s.conns) ∨
      (∀ ready, e ≠ .select ready) ∧ t.atSelect = s.atSelect ∧
        ∀ i read_fds, t.pass = some (i, read_fds) →
          ∃ i', s.pass = some (i', read_fds) ∧ i' ≤ i) := by
  have advance : ∀ {i : ℕ} {read_fds : Finset ℕ}, s.pass = some (i, read_fds) →
      ∀ j read_fds', some (i + 1, read_fds) = some (j, read_fds') →
        ∃ i', s.pass = some (i', read_fds') ∧ i' ≤ j := by
    intro i read_fds hpass j read_fds' h
    simp only [Option.some.injEq, Prod.mk.injEq] at h
    obtain ⟨rfl, rfl⟩ := h
    exact ⟨i, hpass, by omega⟩
  have stay : ∀ i read_fds, s.pass = some (i, read_fds) →
      ∃ i', s.pass = some (i', read_fds) ∧ i' ≤ i := fun i _ hpass => ⟨i, hpass, le_refl _⟩
  cases h with
  | select _ _ _ => exact ⟨rfl, Or.inl ⟨_, rfl, rfl, rfl⟩⟩
  | selectFails _ _ => exact ⟨rfl, Or.inr ⟨by simp, rfl, stay⟩⟩
  | skip _ hpass _ _ => exact ⟨rfl, Or.inr ⟨by simp, rfl, advance hpass⟩⟩
  | endPass _ _ _ => exact ⟨rfl, Or.inr ⟨by simp, rfl, by simp⟩⟩
  | accept _ hpass _ _ _ _ =>
    rw [Server.accept]
    split_ifs
    · exact ⟨rfl, Or.inr ⟨by simp, rfl, advance hpass⟩⟩
    · exact ⟨rfl, Or.inr ⟨by simp, rfl, stay⟩⟩
  | acceptFails _ _ _ _ => exact ⟨rfl, Or.inr ⟨by simp, rfl, stay⟩⟩
  | hangUp _ hpass _ _ _ => exact ⟨rfl, Or.inr ⟨by simp, rfl, advance hpass⟩⟩
  | readFails _ _ _ _ _ => exact ⟨rfl, Or.inr ⟨by simp, rfl, stay⟩⟩
  | @request i read_fds buffer found fault _ hpass _ _ _ _ _ =>
    have hout := request_outcome s i read_fds buffer found fault
    generalize s.request i read_fds buffer found fault = t at hout ⊢
    cases hout with
    | stops _ _ => exact ⟨rfl, Or.inr ⟨by simp, rfl, stay⟩⟩
    | answers _ _ _ _ => exact ⟨rfl, Or.inr ⟨by simp, rfl, advance hpass⟩⟩
    | cutShort _ _ _ _ _ => exact ⟨rfl, Or.inr ⟨by simp, rfl, stay⟩⟩

def InPass (past : List (Server × ServerEvent)) (s : Server) : Prop :=
  ∀ i read_fds, s.pass = some (i, read_fds) →
    ∃ s₀ since before, past = since ++ (s₀, .select read_fds) :: before ∧
      (∀ q ∈ since, ∀ ready', q.2 ≠ .select ready') ∧ s.atSelect = s₀.conns ∧
      ∀ q ∈ since, q.1.atSelect = s₀.conns ∧ ∃ i', q.1.pass = some (i', read_fds) ∧ i' ≤ i

theorem inPass_step {past : List (Server × ServerEvent)} {s t : Server} {e : ServerEvent}
    (hs : InPass past s) (h : ServerStep s e t) : InPass ((s, e) :: past) t := by
  intro i read_fds hpass
  obtain ⟨-, ⟨ready, rfl, hstart, hat⟩ | ⟨hother, hat, hback⟩⟩ := h.pass_cases
  · rw [hstart] at hpass
    simp only [Option.some.injEq, Prod.mk.injEq] at hpass
    obtain ⟨-, rfl⟩ := hpass
    exact ⟨s, [], past, rfl, by simp, hat, by simp⟩
  · obtain ⟨i', hpass', hle⟩ := hback i read_fds hpass
    obtain ⟨s₀, since, before, rfl, hnone, hat₀, hsince⟩ := hs i' read_fds hpass'
    refine ⟨s₀, (s, e) :: since, before, rfl, ?_, hat.trans hat₀, ?_⟩
    · exact List.forall_mem_cons.mpr ⟨hother, hnone⟩
    · refine List.forall_mem_cons.mpr ⟨⟨hat₀, i', hpass', hle⟩, fun q hq => ?_⟩
      obtain ⟨hatq, j, hj, hjle⟩ := hsince q hq
      exact ⟨hatq, j, hj, hjle.trans hle⟩

theorem run_inPass {listener : ℕ} {past : List (Server × ServerEvent)} {s : Server}
    (h : Run ServerStep (Server.init listener) past s) : InPass past s := by
  induction h with
  | start =>
    intro i read_fds hpass
    simp [Server.init] at hpass
  | next _ ht ih => exact inPass_step ih ht

theorem run_listener {listener : ℕ} {past : List (Server × ServerEvent)} {s : Server}
    (h : Run ServerStep (Server.init listener) past s) : s.listener = listener :=
  h.invariant (I := fun s => s.listener = listener) rfl fun _ _ _ hs hstep =>
    hstep.pass_cases.1.trans hs

/-! ## Runs -/

theorem run_masterExact {listener : ℕ} {past : List (Server × ServerEvent)} {s : Server}
    (h : Run ServerStep (Server.init listener) past s) : MasterExact listener s := by
  have hs := run_bookkeeping h
  refine ⟨fun fd => ?_, hs.fdmax⟩
  rw [hs.master, run_listener h]

theorem ServerStep.reads {s t : Server} {e : ServerEvent} (h : ServerStep s e t) (he : Reads e) :
    ∃ i read_fds, s.pass = some (i, read_fds) ∧ i ∈ read_fds ∧ i ≠ s.listener := by
  cases h with
  | hangUp _ hpass _ hi hne => exact ⟨_, _, hpass, hi, hne⟩
  | readFails _ hpass _ hi hne => exact ⟨_, _, hpass, hi, hne⟩
  | request _ hpass _ hi hne _ _ => exact ⟨_, _, hpass, hi, hne⟩
  | _ => exact absurd he id

/-- What is in the history since the `select` of the pass had the bookkeeping right, so the
descriptors not yet visited have kept their connections. -/
theorem readyFor_of_run {listener : ℕ} {past : List (Server × ServerEvent)} {s : Server}
    (h : Run ServerStep (Server.init listener) past s) {i : ℕ} {read_fds : Finset ℕ}
    (hpass : s.pass = some (i, read_fds)) (hi : i ∈ read_fds) (hne : i ≠ s.listener) :
    ReadyFor past s i := by
  have halways : Always Bookkeeping past s :=
    h.always fun _ _ hrun => run_bookkeeping hrun
  obtain ⟨hopen, hsame⟩ := halways.1.visited hpass hi hne
  obtain ⟨conn, hconn⟩ := Option.ne_none_iff_exists'.mp hopen
  obtain ⟨s₀, since, before, rfl, hnone, hat, hsince⟩ := run_inPass h i read_fds hpass
  have hconn₀ : s₀.conns i = some conn := by rw [← hat, ← hsame, hconn]
  refine ⟨conn, read_fds, s₀, since, before, rfl, hnone, hi, hconn, hconn₀, fun q hq => ?_⟩
  obtain ⟨hatq, j, hj, hle⟩ := hsince q hq
  have hq' := halways.2 q (List.mem_append_left _ hq)
  rw [(hq'.reported j read_fds hj i hi hle).2, hatq, hconn₀]

/-- In every state of every run `master` holds exactly the listener and the open connections, none
above `fdmax`; and every `read` was made on a descriptor whose connection was open and is the one
that the last `select` reported. -/
theorem descriptors_exact {listener : ℕ} {past : List (Server × ServerEvent)} {s : Server}
    (h : Run ServerStep (Server.init listener) past s) :
    Always (MasterExact listener) past s ∧
    ∀ later p earlier, past = later ++ p :: earlier → Reads p.2 →
      ∃ i, p.1.current = some i ∧ ReadyFor earlier p.1 i := by
  refine ⟨h.always fun _ _ hrun => run_masterExact hrun, ?_⟩
  induction h with
  | start => simp
  | @next past s t e hrun ht ih =>
    intro later p earlier hsplit hreads
    cases later with
    | nil =>
      obtain ⟨rfl, rfl⟩ := List.cons.inj hsplit
      obtain ⟨i, read_fds, hpass, hi, hne⟩ := ht.reads hreads
      exact ⟨i, by rw [Server.current, hpass]; rfl, readyFor_of_run hrun hpass hi hne⟩
    | cons q later =>
      rw [List.cons_append, List.cons.injEq] at hsplit
      exact ih later p earlier hsplit.2 hreads

/-! ## A run with a reused descriptor -/

theorem descriptors_exact_returned : ∃ past p s, Run ServerStep (Server.init 3) (p :: past) s ∧
    p.1.conns 4 = some 2 ∧ Reads p.2 ∧ Always (MasterExact 3) (p :: past) s ∧
    ∃ i, p.1.current = some i ∧ ReadyFor past p.1 i := by
  obtain ⟨past, hrun, -⟩ := run_returned_requestA
  obtain ⟨halways, hreads⟩ := descriptors_exact hrun
  exact ⟨_, _, _, hrun, rfl, trivial, halways, hreads [] _ _ rfl trivial⟩

end ComputerNetworks.LabServer
