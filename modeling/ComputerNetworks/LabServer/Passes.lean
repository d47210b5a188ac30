import ComputerNetworks.LabServer.Descriptors

/-! # What a pass of the select loop does

A pass goes through the descriptors while its own turns accept connections and close them, and `fdmax`
grows on the way. `pass_exact` says that it nevertheless serves what `select` reported: every ready
descriptor once, in ascending order, for the connection that was ready, and nothing else, so that no
client waits for more than one turn of each other client.
-/
namespace ComputerNetworks.LabServer
open Runs
set_option autoImplicit false

/-! ## The turns of a pass -/

def ServerEvent.isSelect : ServerEvent → Bool
  | .select _ => true
  | _ => false

/-- The turns in which the loop accepts a connection or calls `read` and goes on. -/
def ServerEvent.handles : ServerEvent → Bool
  | .accept _ => true
  | .hangUp => true
  | .request _ _ _ => true
  | _ => false

/-- The turns since the last `select`, latest first. -/
def sinceSelect (past : List (Server × ServerEvent)) : List (Server × ServerEvent) :=
  past.takeWhile fun p => !p.2.isSelect

/-- The descriptors handled in these turns. -/
def handled (turns : List (Server × ServerEvent)) : List ℕ :=
  turns.filterMap fun p => if p.2.handles then p.1.current else none

/-- The pass has handled the ready descriptors below the one it has come to. -/
def PassTurns (past : List (Server × ServerEvent)) (s : Server) : Prop :=
  s.status = .running → ∀ i read_fds, s.pass = some (i, read_fds) →
    (sinceSelect past).length = i ∧ i ≤ s.fdmax + 1 ∧
      handled (sinceSelect past) = (read_fds.filter fun fd => fd < i).sort (· ≥ ·)

theorem sinceSelect_cons {past : List (Server × ServerEvent)} {s : Server} {e : ServerEvent}
    (h : e.isSelect = false) : sinceSelect ((s, e) :: past) = (s, e) :: sinceSelect past := by
  rw [sinceSelect, List.takeWhile_cons_of_pos (by simp [h]), sinceSelect]

theorem handled_cons_of_handles {turns : List (Server × ServerEvent)} {s : Server} {e : ServerEvent}
    {i : ℕ} {read_fds : Finset ℕ} (h : e.handles = true) (hpass : s.pass = some (i, read_fds)) :
    handled ((s, e) :: turns) = i :: handled turns := by
  rw [handled, List.filterMap_cons_some (b := i) (by simp [h, Server.current, hpass]), handled]

theorem handled_cons_of_not {turns : List (Server × ServerEvent)} {s : Server} {e : ServerEvent}
    (h : e.handles = false) : handled ((s, e) :: turns) = handled turns := by
  rw [handled, List.filterMap_cons_none (by simp [h]), handled]

theorem filter_lt_succ_of_mem {read_fds : Finset ℕ} {i : ℕ} (h : i ∈ read_fds) :
    (read_fds.filter fun fd => fd < i + 1).sort (· ≥ ·) =
      i :: (read_fds.filter fun fd => fd < i).sort (· ≥ ·) := by
  have hsplit : (read_fds.filter fun fd => fd < i + 1) =
      insert i (read_fds.filter fun fd => fd < i) := by
    ext fd
    simp only [Finset.mem_filter, Finset.mem_insert]
    constructor
    · rintro ⟨hmem, hlt⟩
      obtain rfl | hlt := Nat.eq_or_lt_of_le (Nat.le_of_lt_succ hlt)
      · exact Or.inl rfl
      · exact Or.inr ⟨hmem, hlt⟩
    · rintro (rfl | ⟨hmem, hlt⟩)
      · exact ⟨h, Nat.lt_succ_self _⟩
      · exact ⟨hmem, hlt.trans (Nat.lt_succ_self i)⟩
  rw [hsplit, Finset.sort_insert]
  · intro fd hfd
    exact (Finset.mem_filter.mp hfd).2.le
  · simp

theorem filter_lt_succ_of_notMem {read_fds : Finset ℕ} {i : ℕ} (h : i ∉ read_fds) :
    (read_fds.filter fun fd => fd < i + 1) = read_fds.filter fun fd => fd < i := by
  apply Finset.filter_congr
  intro fd hfd
  have hne : fd ≠ i := fun heq => h (heq ▸ hfd)
  omega

/-- A turn that handles a ready descriptor and goes on to the next. -/
theorem PassTurns.handle {past : List (Server × ServerEvent)} {s : Server} {e : ServerEvent} {i : ℕ}
    {read_fds : Finset ℕ} (hs : PassTurns past s) (hrun : s.status = .running)
    (hpass : s.pass = some (i, read_fds)) (hle : i ≤ s.fdmax) (hi : i ∈ read_fds)
    (hselect : e.isSelect = false) (hhandles : e.handles = true) {t : Server}
    (ht : t.pass = some (i + 1, read_fds)) (hmax : s.fdmax ≤ t.fdmax) :
    PassTurns ((s, e) :: past) t := by
  intro _ i' read_fds' hpass'
  rw [ht] at hpass'
  simp only [Option.some.injEq, Prod.mk.injEq] at hpass'
  obtain ⟨rfl, rfl⟩ := hpass'
  obtain ⟨hlen, -, hhandled⟩ := hs hrun i read_fds hpass
  rw [sinceSelect_cons hselect, handled_cons_of_handles hhandles hpass, hhandled,
    filter_lt_succ_of_mem hi, List.length_cons, hlen]
  exact ⟨rfl, by omega, rfl⟩

theorem passTurns_step {past : List (Server × ServerEvent)} {s t : Server} {e : ServerEvent}
    (hs : PassTurns past s) (h : ServerStep s e t) : PassTurns ((s, e) :: past) t := by
  cases h with
  | select _ _ _ =>
    intro _ i read_fds hpass
    simp only [Option.some.injEq, Prod.mk.injEq] at hpass
    obtain ⟨rfl, rfl⟩ := hpass
    simp [sinceSelect, ServerEvent.isSelect, handled]
  | selectFails _ _ => exact fun hrun => absurd hrun (by simp)
  | skip hrun hpass hle hi =>
    intro _ i' read_fds' hpass'
    simp only [Option.some.injEq, Prod.mk.injEq] at hpass'
    obtain ⟨rfl, rfl⟩ := hpass'
    obtain ⟨hlen, -, hhandled⟩ := hs hrun _ _ hpass
    rw [sinceSelect_cons rfl, handled_cons_of_not rfl, hhandled, filter_lt_succ_of_notMem hi,
      List.length_cons, hlen]
    exact ⟨rfl, Nat.succ_le_succ hle, rfl⟩
  | endPass _ _ _ => exact fun _ _ _ hpass => absurd hpass (by simp)
  | accept hrun hpass hle hi _ _ =>
    rw [Server.accept]
    split_ifs
    · exact hs.handle hrun hpass hle hi rfl rfl rfl (le_max_left _ _)
    · exact fun hrun => absurd hrun (by simp)
  | acceptFails _ _ _ _ => exact fun hrun => absurd hrun (by simp)
  | hangUp hrun hpass hle hi _ => exact hs.handle hrun hpass hle hi rfl rfl rfl (le_refl _)
  | readFails _ _ _ _ _ => exact fun hrun => absurd hrun (by simp)
  | @request i read_fds buffer found fault hrun hpass hle hi _ _ _ =>
    have hout := request_outcome s i read_fds buffer found fault
    generalize s.request i read_fds buffer found fault = t at hout ⊢
    cases hout with
    | stops _ hstop => exact fun hrun => absurd hrun hstop
    | answers _ _ _ _ => exact hs.handle hrun hpass hle hi rfl rfl rfl (le_refl _)
    | cutShort _ _ _ _ hstop => exact fun hrun => absurd hrun hstop

theorem run_passTurns {listener : ℕ} {past : List (Server × ServerEvent)} {s : Server}
    (h : Run ServerStep (Server.init listener) past s) : PassTurns past s := by
  induction h with
  | start =>
    intro _ i read_fds hpass
    simp [Server.init] at hpass
  | next _ ht ih => exact passTurns_step ih ht

/-! ## A whole pass -/

/-- The history splits at the last `select`. -/
theorem sinceSelect_eq {past since before : List (Server × ServerEvent)} {s₀ : Server}
    {ready : Finset ℕ} (hpast : past = since ++ (s₀, .select ready) :: before)
    (hnone : ∀ q ∈ since, ∀ ready', q.2 ≠ .select ready') : sinceSelect past = since := by
  have hall : ∀ q ∈ since, (!q.2.isSelect) = true := by
    intro q hq
    have hq' := hnone q hq
    cases hq2 : q.2 with
    | select ready' => exact absurd hq2 (hq' ready')
    | _ => rfl
  rw [hpast, sinceSelect, List.takeWhile_append_of_pos hall,
    List.takeWhile_cons_of_neg (by simp [ServerEvent.isSelect]), List.append_nil]

/-- When a pass ends, its `fdmax + 1` turns have handled the descriptors that `select` reported, each of them
once and in ascending order, and each turn but that of the listener for the connection that was ready. -/
theorem pass_exact {listener : ℕ} {past : List (Server × ServerEvent)} {s t : Server}
    (h : Run ServerStep (Server.init listener) past s) (hend : ServerStep s .endPass t) :
    ∃ s₀ ready before, past = sinceSelect past ++ (s₀, .select ready) :: before ∧
      (sinceSelect past).length = s.fdmax + 1 ∧ handled (sinceSelect past) = ready.sort (· ≥ ·) ∧
      ∀ p ∈ sinceSelect past, Reads p.2 → ∃ i ∈ ready, p.1.current = some i ∧ i ≠ listener ∧
        p.1.conns i ≠ none ∧ p.1.conns i = s₀.conns i := by
  cases hend with
  | @endPass i read_fds hrun hpass hlt =>
  have hbook := run_bookkeeping h
  obtain ⟨hlen, hle, hhandled⟩ := run_passTurns h hrun i read_fds hpass
  obtain ⟨s₀, since, before, hpast, hnone, -, hsince⟩ := run_inPass h i read_fds hpass
  have hsame := sinceSelect_eq hpast hnone
  have hall : (read_fds.filter fun fd => fd < i) = read_fds := by
    apply Finset.filter_true_of_mem
    intro fd hfd
    by_contra hge
    -- what is reported and not yet visited is in `master`, which ends at `fdmax`
    obtain ⟨hmem, -⟩ := hbook.reported i read_fds hpass fd hfd (not_lt.mp hge)
    have hbound := hbook.fdmax fd hmem
    omega
  have halways : Always Bookkeeping past s := h.always fun _ _ hrun => run_bookkeeping hrun
  have hlistener : Always (fun s => s.listener = listener) past s :=
    h.always fun _ _ hrun => run_listener hrun
  refine ⟨s₀, read_fds, before, hsame.symm ▸ hpast, by omega, hhandled.trans (by rw [hall]),
    fun p hp hreads => ?_⟩
  rw [hsame] at hp
  have hmem : p ∈ past := hpast ▸ List.mem_append_left _ hp
  obtain ⟨u, hstep⟩ := h.taken p hmem
  obtain ⟨j, read_fds', hpassp, hj, hne⟩ := hstep.reads hreads
  obtain ⟨hat, j', hpassp', -⟩ := hsince p hp
  rw [hpassp'] at hpassp
  simp only [Option.some.injEq, Prod.mk.injEq] at hpassp
  obtain ⟨rfl, rfl⟩ := hpassp
  obtain ⟨hopen, hconn⟩ := (halways.2 p hmem).visited hpassp' hj hne
  refine ⟨j', hj, by rw [Server.current, hpassp']; rfl, ?_, hopen, hconn.trans (by rw [hat])⟩
  rw [← hlistener.2 p hmem]
  exact hne

/-! ## A pass with a connection, a hang-up and a request -/

/-- `select` has reported the listener and both clients, and the pass has come to the listener. -/
def atListener : Server :=
  { twoClients with pass := some (3, {3, 4, 5}), atSelect := twoClients.conns }

/-- The client on descriptor 5 has asked, and the answer has gone to the new one, on descriptor 6. -/
def passed : Server :=
  ((atListener.accept {3, 4, 5} 6).hangUp 4 {3, 4, 5}).request 5 {3, 4, 5} (bytes "a")
    (some greeting) none

theorem run_passed : ∃ past, Run ServerStep (Server.init 3) past
    { passed with pass := some (7, {3, 4, 5}) } := by
  obtain ⟨past, hrun, -⟩ := run_twoClients
  have hselect : ServerStep twoClients (.select {3, 4, 5})
      { twoClients with pass := some (0, {3, 4, 5}), atSelect := twoClients.conns } :=
    .select rfl rfl (by decide)
  obtain ⟨skips, hskips, -⟩ := run_skip
    (s := { twoClients with atSelect := twoClients.conns }) rfl (i := 0) (j := 3) {3, 4, 5}
    (by decide) (by decide) (by decide)
  have haccept : ServerStep atListener (.accept 6) (atListener.accept {3, 4, 5} 6) :=
    .accept rfl rfl (by decide) (by decide) (by decide) rfl
  have hhangUp : ServerStep (atListener.accept {3, 4, 5} 6) .hangUp
      ((atListener.accept {3, 4, 5} 6).hangUp 4 {3, 4, 5}) :=
    .hangUp rfl rfl (by decide) (by decide) (by decide)
  have hrequest : ServerStep ((atListener.accept {3, 4, 5} 6).hangUp 4 {3, 4, 5})
      (.request (bytes "a") (some greeting) none) passed :=
    .request rfl rfl (by decide) (by decide) (by decide) (by decide) (by decide)
  have hskip : ServerStep passed .skip { passed with pass := some (7, {3, 4, 5}) } :=
    .skip rfl rfl (by decide) (by decide)
  have hready := (hrun.next hselect).trans hskips
  exact ⟨_, (((hready.next haccept).next hhangUp).next hrequest).next hskip⟩

theorem pass_exact_passed : ∃ past s₀ before,
    Run ServerStep (Server.init 3) past { passed with pass := some (7, {3, 4, 5}) } ∧
    past = sinceSelect past ++ (s₀, .select {3, 4, 5}) :: before ∧
      (sinceSelect past).length = 7 ∧ handled (sinceSelect past) = Finset.sort {3, 4, 5} (· ≥ ·) ∧
      ∀ p ∈ sinceSelect past, Reads p.2 → ∃ i ∈ ({3, 4, 5} : Finset ℕ), p.1.current = some i ∧
        i ≠ 3 ∧ p.1.conns i ≠ none ∧ p.1.conns i = s₀.conns i := by
  obtain ⟨past, hrun⟩ := run_passed
  obtain ⟨s₀, ready, before, hpast, hlen, hhandled, hreads⟩ :=
    pass_exact hrun (ServerStep.endPass rfl rfl (by decide : 6 < 7))
  -- the descriptors the pass goes through are those that `select` reported
  have hsort := (run_passTurns hrun rfl 7 {3, 4, 5} rfl).2.2
  rw [hhandled, show Finset.filter (fun fd => fd < 7) {3, 4, 5} = ({3, 4, 5} : Finset ℕ) by decide]
    at hsort
  have hready : ready = {3, 4, 5} := by
    rw [← Finset.sort_toFinset ready (· ≥ ·), hsort, Finset.sort_toFinset]
  subst hready
  exact ⟨past, s₀, before, hrun, hpast, hlen, hhandled, hreads⟩

end ComputerNetworks.LabServer
