import ComputerNetworks.TraceAnalysis.Figures

/-! # Which traces have figures, and which

`data` is three nested loops, every exception of which ends in the same `except`. `data_eq_some_iff` says
for which traces none is raised, and gives the figures in closed form. The order of the lines enters
there in two places only, so that lines may be logged in another order without a change in the
figures (`data_reordered`).
-/
namespace ComputerNetworks.TraceAnalysis
open Statistics
set_option autoImplicit false

section
variable (float : Str → Option ℚ)

/-- The second field of the line is a number. -/
def timed (x : Line) : Prop := (item x 1).bind float ≠ none

/-- The traces on which `data` raises nothing. -/
structure Analysable (l : List Line) : Prop where
  sizes : ∀ y ∈ select "r" l, payloadSize y ≠ none
  enqueued : ∀ x ∈ select "+" l, packetKey x ≠ none
  others : ∀ y ∈ select "r" l ++ select "-" l, packetKey y ≠ none
  times : ∀ x ∈ select "+" l, ∀ y ∈ select "r" l ++ select "-" l, packetKey y = packetKey x →
    timed float y ∧ timed float x
  delivered : ∃ x ∈ select "+" l, ∃ y ∈ select "r" l, packetKey y = packetKey x
  last : ∃ y, (select "r" l).getLast? = some y ∧ timed float y ∧ time float y ≠ 2

/-- The number of joined pairs. -/
def pairCount (l : List Line) : ℕ :=
  ((select "+" l).map fun x => (sameKey (select "r" l) x).length).sum

def delayList (l : List Line) : List ℚ :=
  (select "+" l).map (joinedDelay float (select "r" l) (select "-" l))

def evaluation (l : List Line) : Figures :=
  let received := ((select "r" l).map fun y => (payloadSize y).getD 0).sum
  let end_time := (((select "r" l).getLast?).map (time float)).getD 0
  let forwarding_delay := (delayList float l).sum / pairCount l
  ⟨received / (end_time - 2), forwarding_delay,
    squares forwarding_delay (delayList float l) / (delayList float l).length⟩

/-! ## One loop for both inner loops -/

/-- The body of an inner loop, which puts the time between two lines with one key into what it
accumulates. -/
def joinStep {α : Type} (key : Str × Str) (t1 : Str) (put : α → ℚ → α) (acc : α) (x : Line) :
    Option α := do
  let k ← packetKey x
  let t ← item x 1
  if key = k then
    let v ← float t
    let v1 ← float t1
    some (put acc (v - v1))
  else some acc

end

variable {float : Str → Option ℚ}

theorem receivedLoop_eq_foldlM (key : Str × Str) (t1 : Str) (ys : List Line) (delay : ℚ) (n : ℕ) :
    receivedLoop float key t1 ys delay n =
      ys.foldlM (joinStep float key t1 fun acc d => (d, acc.2 + 1)) (delay, n) := by
  induction ys generalizing delay n with
  | nil => rfl
  | cons y ys ih =>
    rw [receivedLoop, List.foldlM_cons, joinStep]
    cases packetKey y with
    | none => rfl
    | some k =>
      cases item y 1 with
      | none => rfl
      | some t =>
        simp only [Option.bind_eq_bind, Option.bind_some]
        split_ifs
        · cases float t with
          | none => rfl
          | some v =>
            cases float t1 with
            | none => rfl
            | some v1 => exact ih _ _
        · exact ih _ _

theorem dequeueLoop_eq_foldlM (key : Str × Str) (t1 : Str) (ys : List Line) (delay : ℚ) :
    dequeueLoop float key t1 ys delay =
      ys.foldlM (joinStep float key t1 fun acc d => acc + d) delay := by
  induction ys generalizing delay with
  | nil => rfl
  | cons y ys ih =>
    rw [dequeueLoop, List.foldlM_cons, joinStep]
    cases packetKey y with
    | none => rfl
    | some k =>
      cases item y 1 with
      | none => rfl
      | some t =>
        simp only [Option.bind_eq_bind, Option.bind_some]
        split_ifs
        · cases float t with
          | none => rfl
          | some v =>
            cases float t1 with
            | none => rfl
            | some v1 => exact ih _
        · exact ih _

/-- An inner loop for the line `x` raises nothing if every line has a key, and those with the key of `x` have
a number where `x` has one too. -/
def Joinable (float : Str → Option ℚ) (x : Line) (ys : List Line) : Prop :=
  ∀ y ∈ ys, packetKey y ≠ none ∧ (packetKey y = packetKey x → timed float y ∧ timed float x)

theorem foldlM_joinStep_isSome {α : Type} {x : Line} {key : Str × Str} {t1 : Str}
    (hkey : packetKey x = some key) (ht1 : item x 1 = some t1) (put : α → ℚ → α) {ys : List Line}
    (hys : ∀ y ∈ ys, item y 1 ≠ none) (acc : α) :
    (ys.foldlM (joinStep float key t1 put) acc).isSome ↔ Joinable float x ys := by
  have htimed : timed float x ↔ float t1 ≠ none := by rw [timed, ht1, Option.bind_some]
  induction ys generalizing acc with
  | nil => simp [Joinable]
  | cons y ys ih =>
    have ih := ih (fun z hz => hys z (List.mem_cons_of_mem _ hz))
    obtain ⟨t, ht⟩ := Option.ne_none_iff_exists'.mp (hys y List.mem_cons_self)
    have hsplit : Joinable float x (y :: ys) ↔
        (packetKey y ≠ none ∧ (packetKey y = packetKey x → timed float y ∧ timed float x)) ∧
          Joinable float x ys := List.forall_mem_cons
    have hy : timed float y ↔ float t ≠ none := by rw [timed, ht, Option.bind_some]
    rw [hsplit, hy, htimed, List.foldlM_cons, joinStep, ht, hkey]
    cases hk : packetKey y with
    | none => simp
    | some k =>
      simp only [Option.bind_eq_bind, Option.bind_some, ne_eq, reduceCtorEq, not_false_eq_true,
        true_and, Option.some.injEq]
      by_cases heq : k = key
      · subst heq
        rw [if_pos rfl]
        cases hv : float t with
        | none => simp
        | some v =>
          cases hv1 : float t1 with
          | none => simp
          | some v1 => simpa using ih _
      · rw [if_neg (Ne.symm heq)]
        simpa [heq] using ih acc

/-! ## When the loops raise nothing -/

/-- A line of a kind has a second field. -/
theorem item_one_of_select {sign : String} (hsign : bytes sign ≠ udpHeader) {l : List Line} {x : Line}
    (h : x ∈ select sign l) : item x 1 ≠ none := by
  obtain ⟨-, hx⟩ := List.mem_filter.mp h
  simp only [Bool.and_eq_true, decide_eq_true_eq, List.contains_iff_mem] at hx
  obtain ⟨hhead, hudp⟩ := hx
  cases x with
  | nil => simp at hudp
  | cons b x =>
    obtain rfl := Option.some.inj hhead
    cases x with
    | nil => exact absurd (List.mem_singleton.mp hudp).symm hsign
    | cons c x => simp [item]

theorem enqueueLoop_isSome {r q xs : List Line} (hr : ∀ y ∈ r, item y 1 ≠ none)
    (hq : ∀ y ∈ q, item y 1 ≠ none) (hxs : ∀ x ∈ xs, item x 1 ≠ none) (count : ℚ) (n : ℕ)
    (delays : List ℚ) :
    (enqueueLoop float r q xs count n delays).isSome ↔
      ∀ x ∈ xs, packetKey x ≠ none ∧ Joinable float x (r ++ q) := by
  induction xs generalizing count n delays with
  | nil => simp [enqueueLoop]
  | cons x xs ih =>
    have ih := ih (fun z hz => hxs z (List.mem_cons_of_mem _ hz))
    obtain ⟨t1, ht1⟩ := Option.ne_none_iff_exists'.mp (hxs x List.mem_cons_self)
    have hboth : Joinable float x (r ++ q) ↔ Joinable float x r ∧ Joinable float x q :=
      List.forall_mem_append
    rw [List.forall_mem_cons, hboth, enqueueLoop, ht1]
    cases hkey : packetKey x with
    | none => simp
    | some key =>
      simp only [Option.bind_eq_bind, Option.bind_some, ne_eq, reduceCtorEq, not_false_eq_true,
        true_and]
      rw [receivedLoop_eq_foldlM, ← foldlM_joinStep_isSome hkey ht1 (fun acc d => (d, acc.2 + 1)) hr
        ((0 : ℚ), n)]
      cases hrec : r.foldlM (joinStep float key t1 fun acc d => (d, acc.2 + 1)) ((0 : ℚ), n) with
      | none => simp
      | some out =>
        simp only [Option.bind_some, Option.isSome_some, true_and]
        rw [dequeueLoop_eq_foldlM, ← foldlM_joinStep_isSome hkey ht1 (fun acc d => acc + d) hq out.1]
        cases q.foldlM (joinStep float key t1 fun acc d => acc + d) out.1 with
        | none => simp
        | some delay => simpa using ih _ _ _

theorem mapM_eq_some_iff {l : List Line} {ns : List ℕ} :
    l.mapM payloadSize = some ns ↔
      (∀ y ∈ l, payloadSize y ≠ none) ∧ ns = l.map fun y => (payloadSize y).getD 0 := by
  induction l generalizing ns with
  | nil => simp [eq_comm]
  | cons y l ih =>
    rw [List.mapM_cons, List.forall_mem_cons, List.map_cons]
    cases payloadSize y with
    | none => simp
    | some n =>
      simp only [Option.pure_def, Option.bind_eq_bind, Option.bind_some, Option.bind_eq_some_iff,
        Option.some.injEq, ih]
      constructor
      · rintro ⟨ns', ⟨hall, rfl⟩, rfl⟩
        exact ⟨⟨by simp, hall⟩, rfl⟩
      · rintro ⟨⟨-, hall⟩, rfl⟩
        exact ⟨_, ⟨hall, rfl⟩, rfl⟩

/-! ## `data` in closed form -/

theorem joinable_iff_analysable {l : List Line} (hne : select "+" l ≠ []) :
    (∀ x ∈ select "+" l, packetKey x ≠ none ∧ Joinable float x (select "r" l ++ select "-" l)) ↔
      (∀ x ∈ select "+" l, packetKey x ≠ none) ∧
      (∀ y ∈ select "r" l ++ select "-" l, packetKey y ≠ none) ∧
      ∀ x ∈ select "+" l, ∀ y ∈ select "r" l ++ select "-" l, packetKey y = packetKey x →
        timed float y ∧ timed float x := by
  constructor
  · intro h
    obtain ⟨x, hx⟩ := List.exists_mem_of_ne_nil _ hne
    exact ⟨fun x hx => (h x hx).1, fun y hy => ((h x hx).2 y hy).1,
      fun x hx y hy => ((h x hx).2 y hy).2⟩
  · rintro ⟨hkeys, hothers, htimes⟩ x hx
    exact ⟨hkeys x hx, fun y hy => ⟨hothers y hy, htimes x hx y hy⟩⟩

theorem pairCount_ne_zero_iff (l : List Line) :
    pairCount l ≠ 0 ↔ ∃ x ∈ select "+" l, ∃ y ∈ select "r" l, packetKey y = packetKey x := by
  rw [pairCount, ← Nat.pos_iff_ne_zero, List.sum_pos_iff_exists_pos_nat]
  simp only [List.mem_map, sameKey]
  constructor
  · rintro ⟨-, ⟨x, hx, rfl⟩, hpos⟩
    obtain ⟨y, hy⟩ := List.exists_mem_of_length_pos hpos
    obtain ⟨hmem, hkey⟩ := List.mem_filter.mp hy
    exact ⟨x, hx, y, hmem, of_decide_eq_true hkey⟩
  · rintro ⟨x, hx, y, hy, hkey⟩
    exact ⟨_, ⟨x, hx, rfl⟩, List.length_pos_of_mem (List.mem_filter.mpr ⟨hy, decide_eq_true hkey⟩)⟩

/-- The loops of `data` together. -/
theorem enqueueLoop_eq_some_iff {l : List Line} (hne : select "+" l ≠ []) {count : ℚ}
    {packet_count : ℕ} {delay_list : List ℚ} :
    enqueueLoop float (select "r" l) (select "-" l) (select "+" l) 0 0 [] =
        some (count, packet_count, delay_list) ↔
      ((∀ x ∈ select "+" l, packetKey x ≠ none) ∧
        (∀ y ∈ select "r" l ++ select "-" l, packetKey y ≠ none) ∧
        ∀ x ∈ select "+" l, ∀ y ∈ select "r" l ++ select "-" l, packetKey y = packetKey x →
          timed float y ∧ timed float x) ∧
      count = (delayList float l).sum ∧ packet_count = pairCount l ∧ delay_list = delayList float l := by
  have hplus : bytes "+" ≠ udpHeader := by decide
  have hminus : bytes "-" ≠ udpHeader := by decide
  have hr : bytes "r" ≠ udpHeader := by decide
  have hsome : (enqueueLoop float (select "r" l) (select "-" l) (select "+" l) 0 0 []).isSome ↔ _ :=
    enqueueLoop_isSome (fun y => item_one_of_select hr) (fun y => item_one_of_select hminus)
      (fun x => item_one_of_select hplus) 0 0 []
  rw [joinable_iff_analysable hne] at hsome
  rw [← hsome]
  constructor
  · intro h
    obtain ⟨hc, hm, hds⟩ := enqueueLoop_eq h
    rw [zero_add] at hc hm
    exact ⟨by rw [h]; rfl, hc, hm, hds⟩
  · rintro ⟨hs, rfl, rfl, rfl⟩
    obtain ⟨⟨c, m, ds⟩, hloop⟩ := Option.isSome_iff_exists.mp hs
    obtain ⟨rfl, rfl, rfl⟩ := enqueueLoop_eq hloop
    rw [hloop, zero_add, zero_add, List.nil_append]
    rfl

/-- What `data` returned. -/
theorem analysable_of_data {lines : List Str} {figs : Figures} (h : data float lines = some figs) :
    Analysable float (fields lines) ∧ figs = evaluation float (fields lines) := by
  set l := fields lines with hl
  simp only [data, Option.bind_eq_bind, Option.bind_eq_some_iff, ← hl] at h
  obtain ⟨sizes, hsizes, last, hlast, t, ht, v, hv, h⟩ := h
  split_ifs at h with hzero
  obtain ⟨⟨count, packet_count, delay_list⟩, hloop, h⟩ := Option.bind_eq_some_iff.mp h
  simp only at h
  split_ifs at h with hcount
  obtain rfl := Option.some.inj h
  obtain ⟨hsome, rfl⟩ := mapM_eq_some_iff.mp hsizes
  have hpairs : packet_count = pairCount l := by
    rw [(enqueueLoop_eq hloop).2.1, Nat.zero_add, pairCount]
  have hdelivered := (pairCount_ne_zero_iff l).mp (hpairs ▸ hcount)
  have hne : select "+" l ≠ [] := by
    obtain ⟨x, hx, -⟩ := hdelivered
    exact List.ne_nil_of_mem hx
  obtain ⟨⟨hkeys, hothers, htimes⟩, rfl, -, rfl⟩ := (enqueueLoop_eq_some_iff hne).mp hloop
  have htime : time float last = v := time_eq ht hv
  refine ⟨⟨hsome, hkeys, hothers, htimes, hdelivered, last, hlast, ?_, ?_⟩, ?_⟩
  · rw [timed, ht, Option.bind_some, hv]
    simp
  · rw [htime]
    exact fun h2 => hzero (by rw [h2]; norm_num)
  · rw [evaluation, hlast, Option.map_some, Option.getD_some, htime, ← hpairs, foldl_squares, zero_add]

/-- No step of `data` raises anything on a trace that can be analysed. -/
theorem Analysable.data_eq {lines : List Str} (h : Analysable float (fields lines)) :
    data float lines = some (evaluation float (fields lines)) := by
  set l := fields lines with hl
  obtain ⟨last, hlast, htimed, htwo⟩ := h.last
  obtain ⟨v, hv⟩ := Option.ne_none_iff_exists'.mp htimed
  obtain ⟨t, ht, hv⟩ := Option.bind_eq_some_iff.mp hv
  have htime : time float last = v := time_eq ht hv
  have hne : select "+" l ≠ [] := by
    obtain ⟨x, hx, -⟩ := h.delivered
    exact List.ne_nil_of_mem hx
  have hzero : v - 2 ≠ 0 := by
    rw [← htime]
    exact sub_ne_zero.mpr htwo
  simp only [data, Option.bind_eq_bind, ← hl, mapM_eq_some_iff.mpr ⟨h.sizes, rfl⟩, hlast, ht, hv,
    Option.bind_some, if_neg hzero, (enqueueLoop_eq_some_iff hne).mpr
      ⟨⟨h.enqueued, h.others, h.times⟩, rfl, rfl, rfl⟩,
    if_neg ((pairCount_ne_zero_iff l).mpr h.delivered), foldl_squares, zero_add, evaluation,
    Option.map_some, Option.getD_some, htime]

/-- `data` has a result exactly on the traces that can be analysed, and this is it. -/
theorem data_eq_some_iff {lines : List Str} {figs : Figures} :
    data float lines = some figs ↔
      Analysable float (fields lines) ∧ figs = evaluation float (fields lines) := by
  constructor
  · intro h
    exact analysable_of_data h
  · rintro ⟨h, rfl⟩
    exact h.data_eq

/-! ## Another order of the lines -/

theorem fields_perm {lines₁ lines₂ : List Str} (h : lines₁.Perm lines₂) (sign : String) :
    (select sign (fields lines₁)).Perm (select sign (fields lines₂)) :=
  (h.map _).filter _

/-- What a packet's delay is computed from does not depend on the order of the lines, but for the receptions
with its key. -/
theorem joinedDelay_reordered {r₁ r₂ q₁ q₂ : List Line} (hr : ∀ x, sameKey r₁ x = sameKey r₂ x)
    (hq : q₁.Perm q₂) (x : Line) : joinedDelay float r₁ q₁ x = joinedDelay float r₂ q₂ x := by
  have hsum := ((hq.filter fun y => packetKey y = packetKey x).map fun y =>
    time float y - time float x).sum_eq
  rw [joinedDelay, joinedDelay, hr x]
  exact congrArg _ hsum

theorem Analysable.reordered {l₁ l₂ : List Line} (h : Analysable float l₁)
    (hperm : ∀ sign : String, (select sign l₁).Perm (select sign l₂))
    (hlast : (select "r" l₁).getLast? = (select "r" l₂).getLast?) : Analysable float l₂ := by
  have hothers := (hperm "r").append (hperm "-")
  refine ⟨fun y hy => h.sizes y ((hperm "r").mem_iff.mpr hy),
    fun x hx => h.enqueued x ((hperm "+").mem_iff.mpr hx),
    fun y hy => h.others y (hothers.mem_iff.mpr hy),
    fun x hx y hy => h.times x ((hperm "+").mem_iff.mpr hx) y (hothers.mem_iff.mpr hy), ?_,
    hlast ▸ h.last⟩
  obtain ⟨x, hx, y, hy, hkey⟩ := h.delivered
  exact ⟨x, (hperm "+").mem_iff.mp hx, y, (hperm "r").mem_iff.mp hy, hkey⟩

theorem evaluation_reordered {l₁ l₂ : List Line}
    (hperm : ∀ sign : String, (select sign l₁).Perm (select sign l₂))
    (hr : ∀ x, sameKey (select "r" l₁) x = sameKey (select "r" l₂) x)
    (hlast : (select "r" l₁).getLast? = (select "r" l₂).getLast?) :
    evaluation float l₁ = evaluation float l₂ := by
  have hsizes := ((hperm "r").map fun y => (payloadSize y).getD 0).sum_eq
  have hpairs : pairCount l₁ = pairCount l₂ := by
    have hsum := ((hperm "+").map fun x => (sameKey (select "r" l₁) x).length).sum_eq
    rw [pairCount, hsum, pairCount]
    simp only [hr]
  have hdelays : (delayList float l₁).Perm (delayList float l₂) := by
    rw [delayList, delayList, funext (joinedDelay_reordered hr (hperm "-"))]
    exact (hperm "+").map _
  simp only [evaluation, hsizes, hlast, hpairs, hdelays.sum_eq, squares_perm hdelays,
    hdelays.length_eq]

/-- Lines may be logged in another order without a change in the result, if the last reception stays the
last one, and receptions with one key stay in order. -/
theorem data_reordered {lines₁ lines₂ : List Str} (hperm : lines₁.Perm lines₂)
    (hr : ∀ x, sameKey (select "r" (fields lines₁)) x = sameKey (select "r" (fields lines₂)) x)
    (hlast : (select "r" (fields lines₁)).getLast? = (select "r" (fields lines₂)).getLast?) :
    data float lines₁ = data float lines₂ := by
  have hselect : ∀ sign : String, (select sign (fields lines₁)).Perm (select sign (fields lines₂)) :=
    fields_perm hperm
  have hother : ∀ sign : String, (select sign (fields lines₂)).Perm (select sign (fields lines₁)) :=
    fun sign => (hselect sign).symm
  have heval : evaluation float (fields lines₁) = evaluation float (fields lines₂) :=
    evaluation_reordered hselect hr hlast
  apply Option.ext
  intro figs
  constructor
  · intro hdata
    obtain ⟨h, rfl⟩ := analysable_of_data hdata
    rw [(h.reordered hselect hlast).data_eq, heval]
  · intro hdata
    obtain ⟨h, rfl⟩ := analysable_of_data hdata
    rw [(h.reordered hother hlast.symm).data_eq, heval]

/-- The second packet is enqueued before the first. -/
def swappedTrace : List Str :=
  [traceLine "+" "3" "1", traceLine "+" "3" "2", traceLine "-" "5" "2", traceLine "-" "4" "1",
    traceLine "r" "6" "1"]

theorem data_reordered_lossy : data floatNat lossyTrace = data floatNat swappedTrace := by
  have hsame : select "r" (fields lossyTrace) = select "r" (fields swappedTrace) := by decide +kernel
  exact data_reordered (by decide +kernel) (fun x => by rw [hsame]) (by rw [hsame])

end ComputerNetworks.TraceAnalysis
