import Mathlib

/-! # Runs of a labelled transition relation

A system is a relation `step : σ → ε → σ → Prop` and an initial state. A run keeps its history:
every event together with the state in which it was taken, latest first. Six rules turn facts
about one step into facts about whole runs:

* `Run.invariant`: what every step preserves holds in every state reached.
* `Run.good_iff`: when a step keeps a property exactly if a condition on its start holds, the
  property holds at the end of a run exactly if every step of the run met the condition.
* `Run.always_iff`: the same for a property of all states the run passes through, when later steps
  may restore it; `Run.always_of_guarded` is the half that needs no such step rule.
* `Run.latched_iff`: a property that some steps switch on and others switch off for good holds at
  the end exactly if a step of the run switched it on and none switched it off.
* `Run.simulate`: a step-by-step simulation carries a run of one system to a run of another;
  in `Run.simulate_stuttering` some steps do nothing there.
* `Run.amortized`: when every step is paid for, by work it does or by credit it brings, so is the run.
-/
namespace ComputerNetworks.Runs
set_option autoImplicit false

variable {σ τ ε δ : Type}

/-- `Run step s₀ past s`: the events of `past` (latest first, each with the state it was taken in)
lead from `s₀` to `s`. -/
inductive Run (step : σ → ε → σ → Prop) (s₀ : σ) : List (σ × ε) → σ → Prop
  | start : Run step s₀ [] s₀
  | next {past : List (σ × ε)} {s t : σ} {e : ε} :
      Run step s₀ past s → step s e t → Run step s₀ ((s, e) :: past) t

/-- Every step of the history was taken in a state that met the condition. -/
def Guarded (ok : σ → ε → Prop) (past : List (σ × ε)) : Prop := ∀ p ∈ past, ok p.1 p.2

/-- Every state of the run, the last one included, has the property. -/
def Always (P : σ → Prop) (past : List (σ × ε)) (s : σ) : Prop := P s ∧ ∀ p ∈ past, P p.1

@[simp] theorem guarded_nil (ok : σ → ε → Prop) : Guarded ok [] := by simp [Guarded]

@[simp] theorem guarded_cons (ok : σ → ε → Prop) (s : σ) (e : ε) (past : List (σ × ε)) :
    Guarded ok ((s, e) :: past) ↔ ok s e ∧ Guarded ok past := by
  simp [Guarded]

section Rules
variable {step : σ → ε → σ → Prop} {s₀ : σ}

theorem Run.trans {s t : σ} {past later : List (σ × ε)} (h : Run step s₀ past s)
    (h' : Run step s later t) : Run step s₀ (later ++ past) t := by
  induction h' with
  | start => exact h
  | next _ ht ih => exact ih.next ht

/-- Every entry of the history is a step that was taken. -/
theorem Run.taken {past : List (σ × ε)} {s : σ} (h : Run step s₀ past s) :
    ∀ p ∈ past, ∃ t, step p.1 p.2 t := by
  induction h with
  | start => simp
  | next _ ht ih => exact List.forall_mem_cons.mpr ⟨⟨_, ht⟩, ih⟩

theorem exists_run_of_foldlM {f : σ → ε → Option σ} {es : List ε} {s t : σ}
    (h : es.foldlM f s = some t) : ∃ past, Run (fun s e t => f s e = some t) s past t := by
  induction es generalizing s with
  | nil =>
    obtain rfl : s = t := Option.some.inj h
    exact ⟨[], .start⟩
  | cons e es ih =>
    rw [List.foldlM_cons] at h
    obtain ⟨u, hu, hes⟩ := Option.bind_eq_some_iff.mp h
    obtain ⟨past, hrun⟩ := ih hes
    have hfirst : Run (fun s e t => f s e = some t) s [(s, e)] u := Run.start.next hu
    exact ⟨_, hfirst.trans hrun⟩

theorem Run.invariant {I : σ → Prop} (h0 : I s₀) (hs : ∀ s e t, I s → step s e t → I t)
    {past : List (σ × ε)} {s : σ} (h : Run step s₀ past s) : I s := by
  induction h with
  | start => exact h0
  | next _ ht ih => exact hs _ _ _ ih ht

theorem Run.guarded_invariant {I : σ → Prop} {ok : σ → ε → Prop} (h0 : I s₀)
    (hs : ∀ s e t, I s → ok s e → step s e t → I t)
    {past : List (σ × ε)} {s : σ} (h : Run step s₀ past s) (hg : Guarded ok past) : I s := by
  induction h with
  | start => exact h0
  | next _ ht ih =>
    obtain ⟨hok, hpast⟩ := (guarded_cons _ _ _ _).mp hg
    exact hs _ _ _ (ih hpast) hok ht

theorem Run.first_of_always {P : σ → Prop} {past : List (σ × ε)} {s : σ} (h : Run step s₀ past s)
    (ha : Always P past s) : P s₀ := by
  induction h with
  | start => exact ha.1
  | @next past s t e _ _ ih =>
    exact ih ⟨ha.2 (s, e) List.mem_cons_self, fun p hp => ha.2 p (List.mem_cons_of_mem _ hp)⟩

/-- A property that a step keeps exactly when `ok` holds of the state and the event, and that no
step restores, holds at the end of a run exactly when `ok` held at every step. -/
theorem Run.good_iff {I G : σ → Prop} {ok : σ → ε → Prop} (hI : I s₀) (h0 : G s₀)
    (hs : ∀ s e t, I s → step s e t → I t ∧ (G t ↔ G s ∧ ok s e))
    {past : List (σ × ε)} {s : σ} (h : Run step s₀ past s) : G s ↔ Guarded ok past := by
  have key : I s ∧ (G s ↔ Guarded ok past) := by
    induction h with
    | start => exact ⟨hI, by simp [h0]⟩
    | next _ ht ih =>
      obtain ⟨hIs, hgood⟩ := ih
      obtain ⟨hIt, hstep⟩ := hs _ _ _ hIs ht
      refine ⟨hIt, ?_⟩
      rw [hstep, guarded_cons, hgood, and_comm]
  exact key.2

/-- A step from a good state leads to a good state exactly when `ok` holds of it: then a run passes
through good states only exactly when `ok` held at every step. -/
theorem Run.always_iff {I P : σ → Prop} {ok : σ → ε → Prop} (hI : I s₀) (hP : P s₀)
    (hs : ∀ s e t, I s → step s e t → I t ∧ (P s → (P t ↔ ok s e)))
    {past : List (σ × ε)} {s : σ} (h : Run step s₀ past s) :
    Always P past s ↔ Guarded ok past := by
  have key : I s ∧ (Always P past s ↔ Guarded ok past) := by
    induction h with
    | start => exact ⟨hI, by simp [Always, hP]⟩
    | @next past s t e _ ht ih =>
      obtain ⟨hIs, halways⟩ := ih
      obtain ⟨hIt, hstep⟩ := hs _ _ _ hIs ht
      refine ⟨hIt, ?_⟩
      rw [guarded_cons, ← halways]
      constructor
      · rintro ⟨hPt, hpast⟩
        have hPs : P s := hpast (s, e) List.mem_cons_self
        exact ⟨(hstep hPs).mp hPt, hPs, fun p hp => hpast p (List.mem_cons_of_mem _ hp)⟩
      · rintro ⟨hok, hPs, hpast⟩
        refine ⟨(hstep hPs).mpr hok, fun p hp => ?_⟩
        obtain rfl | hp := List.mem_cons.mp hp
        · exact hPs
        · exact hpast p hp
  exact key.2

/-- What holds at the end of every run whose steps meet a condition holds throughout such a run. -/
theorem Run.always_of_guarded {P : σ → Prop} {ok : σ → ε → Prop}
    (hP : ∀ past s, Run step s₀ past s → Guarded ok past → P s)
    {past : List (σ × ε)} {s : σ} (h : Run step s₀ past s) (hg : Guarded ok past) :
    Always P past s := by
  induction h with
  | start => exact ⟨hP _ _ .start hg, by simp⟩
  | @next past s t e hrun ht ih =>
    obtain ⟨-, hpast⟩ := (guarded_cons _ _ _ _).mp hg
    obtain ⟨hPs, hbefore⟩ := ih hpast
    exact ⟨hP _ _ (hrun.next ht) hg, List.forall_mem_cons.mpr ⟨hPs, hbefore⟩⟩

theorem Run.always {P : σ → Prop} (hP : ∀ past s, Run step s₀ past s → P s)
    {past : List (σ × ε)} {s : σ} (h : Run step s₀ past s) : Always P past s := by
  have hg : Guarded (fun _ _ => True) past := fun _ _ => trivial
  exact h.always_of_guarded (fun past s hrun _ => hP past s hrun) hg

/-- A property that a step switches on or, for good, off. `K` marks the states after it was switched
off; `L` is lost for ever when it is lost, and the rule speaks of runs that keep it. -/
theorem Run.latched_iff {L W K : σ → Prop} {on off : σ → ε → Prop} (hW : ¬ W s₀)
    (hs : ∀ past s e t, Run step s₀ past s → step s e t → L t → L s ∧
      (W t ↔ (W s ∨ on s e) ∧ ¬ off s e) ∧ (off s e ∨ K s → K t) ∧ (K s → ¬ on s e))
    {past : List (σ × ε)} {s : σ} (h : Run step s₀ past s) (hL : L s) :
    W s ↔ (∃ p ∈ past, on p.1 p.2) ∧ ¬ ∃ p ∈ past, off p.1 p.2 := by
  have key : ((∃ p ∈ past, off p.1 p.2) → K s) ∧
      (W s ↔ (∃ p ∈ past, on p.1 p.2) ∧ ¬ ∃ p ∈ past, off p.1 p.2) := by
    induction h with
    | start => simp [hW]
    | @next past s t e hrun ht ih =>
      obtain ⟨hLs, hstep, hmark, hnot⟩ := hs _ _ _ _ hrun ht hL
      obtain ⟨hK, hpast⟩ := ih hLs
      refine ⟨?_, ?_⟩
      · rintro ⟨p, hp, hoff⟩
        obtain rfl | hp := List.mem_cons.mp hp
        · exact hmark (Or.inl hoff)
        · exact hmark (Or.inr (hK ⟨p, hp, hoff⟩))
      · rw [hstep, hpast, List.exists_mem_cons_iff, List.exists_mem_cons_iff]
        by_cases hoff : ∃ p ∈ past, off p.1 p.2
        · -- after `off` has happened, `on` cannot
          have hon : ¬ on s e := hnot (hK hoff)
          simp [hoff, hon]
        · simp only [hoff, not_false_eq_true, and_true, or_false]
          rw [or_comm]
  exact key.2

/-- A simulation relation that every step of the concrete system preserves carries a whole run to
a run of the abstract system, under a translation of the events. -/
theorem Run.simulate {abs : τ → δ → τ → Prop} {a₀ : τ} {R : σ → τ → Prop} (f : ε → δ)
    (h0 : R s₀ a₀) (hs : ∀ s e t a, R s a → step s e t → ∃ b, abs a (f e) b ∧ R t b)
    {past : List (σ × ε)} {s : σ} (h : Run step s₀ past s) :
    ∃ apast a, Run abs a₀ apast a ∧ R s a := by
  induction h with
  | start => exact ⟨[], a₀, .start, h0⟩
  | next _ ht ih =>
    obtain ⟨apast, a, hrun, hR⟩ := ih
    obtain ⟨b, hab, hRb⟩ := hs _ _ _ _ hR ht
    exact ⟨_, b, hrun.next hab, hRb⟩

/-- The same, with the events of the two runs side by side. -/
theorem Run.simulate_events {abs : τ → δ → τ → Prop} {a₀ : τ} {R : σ → τ → Prop} (f : ε → δ)
    (h0 : R s₀ a₀) (hs : ∀ s e t a, R s a → step s e t → ∃ b, abs a (f e) b ∧ R t b)
    {past : List (σ × ε)} {s : σ} (h : Run step s₀ past s) :
    ∃ apast a, Run abs a₀ apast a ∧ R s a ∧ apast.map Prod.snd = past.map fun x => f x.2 := by
  induction h with
  | start => exact ⟨[], a₀, .start, h0, rfl⟩
  | next _ ht ih =>
    obtain ⟨apast, a, hrun, hR, hevents⟩ := ih
    obtain ⟨b, hab, hRb⟩ := hs _ _ _ _ hR ht
    exact ⟨_, b, hrun.next hab, hRb, by rw [List.map_cons, List.map_cons, hevents]⟩

/-- Some steps of the concrete system do nothing in the abstract one. -/
theorem Run.simulate_stuttering {abs : τ → δ → τ → Prop} {a₀ : τ} {R : σ → τ → Prop}
    (f : ε → Option δ) (h0 : R s₀ a₀)
    (hs : ∀ s e t a, R s a → step s e t →
      f e = none ∧ R t a ∨ ∃ d b, f e = some d ∧ abs a d b ∧ R t b)
    {past : List (σ × ε)} {s : σ} (h : Run step s₀ past s) :
    ∃ apast a, Run abs a₀ apast a ∧ R s a ∧
      apast.map Prod.snd = past.filterMap fun x => f x.2 := by
  induction h with
  | start => exact ⟨[], a₀, .start, h0, rfl⟩
  | @next past s t e _ ht ih =>
    obtain ⟨apast, a, hrun, hR, hevents⟩ := ih
    obtain ⟨hnone, hRt⟩ | ⟨d, b, hsome, hab, hRb⟩ := hs _ _ _ _ hR ht
    · exact ⟨apast, a, hrun, hRt, by rw [hevents, List.filterMap_cons, hnone]⟩
    · exact ⟨_, b, hrun.next hab, hRb, by
        rw [List.map_cons, hevents, List.filterMap_cons, hsome]⟩

/-- The potential method. `work` bounds what a state can still cost, `credit` counts what came in. -/
theorem Run.amortized {cost : ε → ℕ} {work credit : σ → ℕ} {I : σ → Prop} (h0 : I s₀)
    (hs : ∀ s e t, I s → step s e t → I t ∧ cost e + work t + credit s ≤ work s + credit t)
    {past : List (σ × ε)} {s : σ} (h : Run step s₀ past s) :
    (past.map fun p => cost p.2).sum + work s + credit s₀ ≤ work s₀ + credit s := by
  have key : I s ∧ (past.map fun p => cost p.2).sum + work s + credit s₀ ≤ work s₀ + credit s := by
    induction h with
    | start => exact ⟨h0, by simp⟩
    | @next past s t e _ ht ih =>
      obtain ⟨hI, hpaid⟩ := ih
      obtain ⟨hIt, hstep⟩ := hs s e t hI ht
      refine ⟨hIt, ?_⟩
      rw [List.map_cons, List.sum_cons]
      show cost e + _ + _ + _ ≤ _
      omega
  exact key.2

end Rules

/-! ## Sums over parties -/

/-- Entries counted party by party. -/
theorem sum_countP_eq_length {α : Type} {f : α → ℕ} {n : ℕ} {l : List α} (h : ∀ x ∈ l, f x < n) :
    ∑ k ∈ Finset.range n, l.countP (fun x => f x = k) = l.length := by
  induction l with
  | nil => simp
  | cons x l ih =>
    obtain ⟨hx, hl⟩ := List.forall_mem_cons.mp h
    have hone : ∑ k ∈ Finset.range n, (if decide (f x = k) = true then 1 else 0) = 1 := by
      simp [hx]
    simp only [List.countP_cons, Finset.sum_add_distrib]
    rw [ih hl, hone, List.length_cons]

/-- One entry of each party. -/
theorem sum_singletons {α : Type} {n : ℕ} (f : Fin n → α) :
    ∑ k, ({f k} : Multiset α) = ↑((List.finRange n).map f) := by
  have hmap : ∑ k, ({f k} : Multiset α) = ((Finset.univ.val.map f).map fun a => {a}).sum := by
    rw [Multiset.map_map]
    rfl
  rw [hmap, Multiset.sum_map_singleton]
  rfl

/-- In a system of many parties, what the step of one of them changes in a sum over all. -/
theorem sum_update_add {ι α M : Type} [Fintype ι] [DecidableEq ι] [AddCommMonoid M]
    (f : ι → α → M) (g : ι → α) (i : ι) (a : α) :
    ∑ j, f j (Function.update g i a j) + f i (g i) = ∑ j, f j (g j) + f i a := by
  have hrest : ∑ j ∈ Finset.univ.erase i, f j (Function.update g i a j) =
      ∑ j ∈ Finset.univ.erase i, f j (g j) :=
    Finset.sum_congr rfl fun j hj => by rw [Function.update_of_ne (Finset.ne_of_mem_erase hj)]
  rw [← Finset.add_sum_erase _ _ (Finset.mem_univ i),
    ← Finset.add_sum_erase Finset.univ (fun j => f j (g j)) (Finset.mem_univ i), hrest,
    Function.update_self, add_right_comm, add_comm (f i a), add_right_comm]

end ComputerNetworks.Runs
