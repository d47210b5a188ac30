import ComputerNetworks.TraceAnalysis.Figures

/-! # Ten traces, `more_data` of `no.py`

Both scripts average the figures of ten traces and report how they deviate. The script of assignment 4
divides the sums of squares by ten before it takes the root; in the one of assignment 3 these three
lines are commented out. `moreData_agree_iff` says for which traces this makes no difference.
-/
namespace ComputerNetworks.TraceAnalysis
open Statistics
set_option autoImplicit false

/-- What `more_data` returns; of each `sd` the value under the root. -/
structure AvgAns where
  average_throughput : ℚ
  forwarding_delay : ℚ
  jitter : ℚ
  average_throughput_sd_sq : ℚ
  forwarding_delay_sd_sq : ℚ
  jitter_sd_sq : ℚ
  deriving DecidableEq

/-- `"ans"+ch+"_"+str(i+1)+".tr"`. -/
def traceName (ch : Str) (i : ℕ) : Str :=
  bytes "ans" ++ ch ++ bytes "_" ++ decimalDigits (i + 1) ++ bytes ".tr"

section
variable (float : Str → Option ℚ) (sqrt : ℚ → ℚ) (readlines : Str → Option (List Str))

/-- The datasets of the first loop. A `data` that failed returned `None`, which has no items. -/
def datasets (ch : Str) : Option (List Figures) :=
  (List.range 10).mapM fun i => (readlines (traceName ch i)).bind (data float)

/-- `l1`, `l2` and `l3`. -/
def throughputs (sets : List Figures) : List ℚ := sets.map Figures.average_throughput

def delays (sets : List Figures) : List ℚ := sets.map Figures.forwarding_delay

def jitters (sets : List Figures) : List ℚ := sets.map fun dataset => sqrt dataset.jitter_sq

/-- `more_data`; `scale` is what becomes of the three sums before `math.sqrt`. -/
def moreData (scale : ℚ → ℚ) (ch : Str) : Option AvgAns := do
  let sets ← datasets float readlines ch
  let l1 := throughputs sets
  let l2 := delays sets
  let l3 := jitters sqrt sets
  let t := l1.foldl (fun t x => t + x) 0 / 10
  let fd := l2.foldl (fun fd x => fd + x) 0 / 10
  let j := l3.foldl (fun j x => j + x) 0 / 10
  let sum1 := l1.foldl (fun sum x => sum + (x - t) * (x - t)) 0
  let sum2 := l2.foldl (fun sum x => sum + (x - fd) * (x - fd)) 0
  let sum3 := l3.foldl (fun sum x => sum + (x - j) * (x - j)) 0
  some ⟨t, fd, j, scale sum1, scale sum2, scale sum3⟩

/-- `more_data` of assignment 3. -/
def moreData3 (ch : Str) : Option AvgAns := moreData float sqrt readlines id ch

/-- `more_data` of assignment 4. -/
def moreData4 (ch : Str) : Option AvgAns := moreData float sqrt readlines (fun sum => sum / 10) ch

end

variable {float : Str → Option ℚ} {sqrt : ℚ → ℚ} {readlines : Str → Option (List Str)}

/-! ## The figures of ten traces -/

theorem length_of_mapM {α β : Type} {f : α → Option β} {xs : List α} {ys : List β}
    (h : xs.mapM f = some ys) : ys.length = xs.length := by
  induction xs generalizing ys with
  | nil =>
    obtain rfl : [] = ys := Option.some.inj h
    rfl
  | cons x xs ih =>
    rw [List.mapM_cons] at h
    obtain ⟨y, -, h⟩ := Option.bind_eq_some_iff.mp h
    obtain ⟨ys', hys, h⟩ := Option.bind_eq_some_iff.mp h
    obtain rfl := Option.some.inj h
    rw [List.length_cons, List.length_cons, ih hys]

theorem foldl_mean {xs : List ℚ} (h : xs.length = 10) :
    xs.foldl (fun s x => s + x) 0 / 10 = mean xs := by
  rw [mean, h, List.sum_eq_foldl]
  norm_num

theorem moreData_eq {sets : List Figures} {ch : Str} (h : datasets float readlines ch = some sets)
    (scale : ℚ → ℚ) :
    moreData float sqrt readlines scale ch = some
      { average_throughput := mean (throughputs sets)
        forwarding_delay := mean (delays sets)
        jitter := mean (jitters sqrt sets)
        average_throughput_sd_sq := scale (squares (mean (throughputs sets)) (throughputs sets))
        forwarding_delay_sd_sq := scale (squares (mean (delays sets)) (delays sets))
        jitter_sd_sq := scale (squares (mean (jitters sqrt sets)) (jitters sqrt sets)) } := by
  have hlen : sets.length = 10 := by
    rw [length_of_mapM h, List.length_range]
  have h1 : (throughputs sets).length = 10 := by rw [throughputs, List.length_map, hlen]
  have h2 : (delays sets).length = 10 := by rw [delays, List.length_map, hlen]
  have h3 : (jitters sqrt sets).length = 10 := by rw [jitters, List.length_map, hlen]
  simp only [moreData, h, Option.bind_eq_bind, Option.bind_some, foldl_mean h1, foldl_mean h2,
    foldl_mean h3, foldl_squares, zero_add]

/-- The two scripts return the same, and the squares of what they call `sd` are the variances of the
ten values. -/
structure Agree (sqrt : ℚ → ℚ) (sets : List Figures) (ans3 ans4 : AvgAns) : Prop where
  same : ans3 = ans4
  throughput : ans3.average_throughput_sd_sq = variance (throughputs sets)
  delay : ans3.forwarding_delay_sd_sq = variance (delays sets)
  jitter : ans3.jitter_sd_sq = variance (jitters sqrt sets)

def AllEqual (xs : List ℚ) : Prop := ∀ x ∈ xs, ∀ y ∈ xs, x = y

theorem undivided_iff (xs : List ℚ) :
    squares (mean xs) xs = squares (mean xs) xs / 10 ↔ AllEqual xs := by
  rw [AllEqual, ← squares_mean_eq_zero_iff]
  constructor
  · intro h
    linarith
  · intro h
    rw [h, zero_div]

/-- Whenever all ten traces can be analysed, the scripts agree if and only if the ten traces have the
same throughput, the same delay and the same jitter. -/
theorem moreData_agree_iff {sets : List Figures} {ch : Str}
    (h : datasets float readlines ch = some sets) :
    ∃ ans3 ans4, moreData3 float sqrt readlines ch = some ans3 ∧
      moreData4 float sqrt readlines ch = some ans4 ∧
      (Agree sqrt sets ans3 ans4 ↔
        AllEqual (throughputs sets) ∧ AllEqual (delays sets) ∧ AllEqual (jitters sqrt sets)) := by
  refine ⟨_, _, moreData_eq h id, moreData_eq h _, ?_⟩
  have hlen : sets.length = 10 := by
    rw [length_of_mapM h, List.length_range]
  have hvariance : ∀ xs : List ℚ, xs.length = 10 → variance xs = squares (mean xs) xs / 10 := by
    intro xs hxs
    rw [variance, hxs]
    norm_num
  constructor
  · intro hagree
    have hsame := hagree.same
    simp only [AvgAns.mk.injEq, id, true_and] at hsame
    exact ⟨(undivided_iff _).mp hsame.1, (undivided_iff _).mp hsame.2.1,
      (undivided_iff _).mp hsame.2.2⟩
  · rintro ⟨h1, h2, h3⟩
    have h1' := (undivided_iff _).mpr h1
    have h2' := (undivided_iff _).mpr h2
    have h3' := (undivided_iff _).mpr h3
    refine ⟨?_, ?_, ?_, ?_⟩
    · simp only [AvgAns.mk.injEq, id, true_and]
      exact ⟨h1', h2', h3'⟩
    · rw [hvariance _ (by rw [throughputs, List.length_map, hlen])]
      exact h1'
    · rw [hvariance _ (by rw [delays, List.length_map, hlen])]
      exact h2'
    · rw [hvariance _ (by rw [jitters, List.length_map, hlen])]
      exact h3'

/-! ## Nine traces alike and one that differs -/

def sameTraces : Str → Option (List Str) := fun _ => some deliveredTrace

theorem datasets_same : datasets floatNat sameTraces (bytes "1") =
    some (List.replicate 10 ⟨2, 4, 0⟩) := by
  decide +kernel

theorem agree_same : ∃ ans3 ans4,
    moreData3 floatNat Rat.sqrt sameTraces (bytes "1") = some ans3 ∧
    moreData4 floatNat Rat.sqrt sameTraces (bytes "1") = some ans4 ∧
    (Agree Rat.sqrt (List.replicate 10 ⟨2, 4, 0⟩) ans3 ans4 ↔
      AllEqual (throughputs (List.replicate 10 ⟨2, 4, 0⟩)) ∧
      AllEqual (delays (List.replicate 10 ⟨2, 4, 0⟩)) ∧
      AllEqual (jitters Rat.sqrt (List.replicate 10 ⟨2, 4, 0⟩))) :=
  moreData_agree_iff datasets_same

def earlyTrace : List Str := [traceLine "+" "3" "1", traceLine "-" "3" "1", traceLine "r" "4" "1"]

def mixedTraces : Str → Option (List Str) := fun name =>
  some (if name = traceName (bytes "1") 0 then earlyTrace else deliveredTrace)

theorem datasets_mixed : datasets floatNat mixedTraces (bytes "1") =
    some (⟨4, 1, 0⟩ :: List.replicate 9 ⟨2, 4, 0⟩) := by
  decide +kernel

/-- The sums of squares of one script are ten times those of the other. -/
theorem undivided_sums_differ :
    ¬ ∀ (readlines : Str → Option (List Str)) (ch : Str) (sets : List Figures) (ans3 ans4 : AvgAns),
      datasets floatNat readlines ch = some sets →
      moreData3 floatNat Rat.sqrt readlines ch = some ans3 →
      moreData4 floatNat Rat.sqrt readlines ch = some ans4 → Agree Rat.sqrt sets ans3 ans4 := by
  intro h
  have hsame := (h mixedTraces (bytes "1") _ _ _ datasets_mixed (moreData_eq datasets_mixed id)
    (moreData_eq datasets_mixed _)).same
  simp only [AvgAns.mk.injEq, id, true_and] at hsame
  have hall := (undivided_iff _).mp hsame.1
  have hfirst : (4 : ℚ) = 2 := hall 4 (by simp [throughputs]) 2 (by simp [throughputs])
  exact absurd hfirst (by norm_num)

end ComputerNetworks.TraceAnalysis
