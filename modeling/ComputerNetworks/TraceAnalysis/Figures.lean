import ComputerNetworks.Library.KeyedJoin
import ComputerNetworks.Library.Statistics
import ComputerNetworks.TraceAnalysis.Data

/-! # What the figures are figures of

The report defines the forwarding delay and the jitter per packet: the mean and the deviation of the
time a packet spends queued and on the way. `data` collects a delay for every enqueued packet, also for
those that were never received, but counts the received ones. `figures_iff` says when the lost
packets do not show.
-/
namespace ComputerNetworks.TraceAnalysis
open KeyedJoin Statistics
set_option autoImplicit false

section
variable (float : Str → Option ℚ)

/-- The time of a line, which is a number wherever `data` uses it. -/
def time (x : Line) : ℚ := ((item x 1).bind float).getD 0

/-- The time of the line of `xs` with the key of the packet enqueued in `x`. -/
def timeIn (xs : List Line) (x : Line) : Option ℚ :=
  (xs.find? fun y => packetKey x = packetKey y).map (time float)

/-- How long the packet enqueued in `x` was queued, 0 if it was never dequeued. -/
def queueDelay (l_dequeue : List Line) (x : Line) : ℚ :=
  ((timeIn float l_dequeue x).map fun t => t - time float x).getD 0

/-- The delay of the packet enqueued in `x`: from enqueueing to reception, and in the queue. -/
def packetDelay (l_received l_dequeue : List Line) (x : Line) : ℚ :=
  ((timeIn float l_received x).map fun t => t - time float x).getD 0 + queueDelay float l_dequeue x

def isDelivered (l_received : List Line) (x : Line) : Bool :=
  l_received.any fun y => packetKey x = packetKey y

def deliveredDelays (l : List Line) : List ℚ :=
  ((select "+" l).filter (isDelivered (select "r" l))).map
    (packetDelay float (select "r" l) (select "-" l))

def lostDelays (l : List Line) : List ℚ :=
  ((select "+" l).filter fun x => !isDelivered (select "r" l) x).map (queueDelay float (select "-" l))

end

variable {float : Str → Option ℚ}

/-! ## The loops -/

theorem time_eq {x : Line} {t : Str} {v : ℚ} (ht : item x 1 = some t) (hv : float t = some v) :
    time float x = v := by
  rw [time, ht, Option.bind_some, hv, Option.getD_some]

/-- The lines of `ys` that the loops join with `x`. -/
def sameKey (ys : List Line) (x : Line) : List Line := ys.filter fun y => packetKey y = packetKey x

theorem sameKey_cons_of_eq {x y : Line} {ys : List Line} (h : packetKey y = packetKey x) :
    sameKey (y :: ys) x = y :: sameKey ys x :=
  List.filter_cons_of_pos (by simpa using h)

theorem sameKey_cons_of_ne {x y : Line} {ys : List Line} (h : packetKey y ≠ packetKey x) :
    sameKey (y :: ys) x = sameKey ys x :=
  List.filter_cons_of_neg (by simpa using h)

/-- The delay that the loops compute for `x`: up to the last reception that is joined with it, and all
times it was dequeued. -/
def joinedDelay (float : Str → Option ℚ) (l_received l_dequeue : List Line) (x : Line) : ℚ :=
  ((sameKey l_received x).getLast?.map fun y => time float y - time float x).getD 0 +
    ((sameKey l_dequeue x).map fun y => time float y - time float x).sum

/-- Every line with the key is counted, and the last one stays in `delay`. -/
theorem receivedLoop_eq {x : Line} {key : Str × Str} {t1 : Str} (hkey : packetKey x = some key)
    (ht1 : item x 1 = some t1) {ys : List Line} {delay d : ℚ} {n m : ℕ}
    (h : receivedLoop float key t1 ys delay n = some (d, m)) :
    d = ((sameKey ys x).getLast?.map fun y => time float y - time float x).getD delay ∧
      m = n + (sameKey ys x).length := by
  induction ys generalizing delay n with
  | nil =>
    simp only [receivedLoop, Option.some.injEq, Prod.mk.injEq] at h
    obtain ⟨rfl, rfl⟩ := h
    exact ⟨rfl, rfl⟩
  | cons y ys ih =>
    simp only [receivedLoop, Option.bind_eq_bind, Option.bind_eq_some_iff] at h
    obtain ⟨k, hk, t2, ht2, h⟩ := h
    split_ifs at h with heq
    · obtain ⟨v2, hv2, v1, hv1, h⟩ := by simpa only [Option.bind_eq_some_iff] using h
      have hsame : packetKey y = packetKey x := by rw [hkey, hk, heq]
      obtain ⟨hd, hm⟩ := ih h
      rw [sameKey_cons_of_eq hsame]
      refine ⟨?_, ?_⟩
      · rw [hd, List.getLast?_cons, ← time_eq ht2 hv2, ← time_eq ht1 hv1]
        cases (sameKey ys x).getLast? <;> rfl
      · rw [hm, List.length_cons]
        omega
    · have hne : packetKey y ≠ packetKey x := by
        rw [hkey, hk]
        simpa using Ne.symm heq
      rw [sameKey_cons_of_ne hne]
      exact ih h

theorem dequeueLoop_eq {x : Line} {key : Str × Str} {t1 : Str} (hkey : packetKey x = some key)
    (ht1 : item x 1 = some t1) {ys : List Line} {delay d : ℚ}
    (h : dequeueLoop float key t1 ys delay = some d) :
    d = delay + ((sameKey ys x).map fun y => time float y - time float x).sum := by
  induction ys generalizing delay with
  | nil =>
    simp only [dequeueLoop, Option.some.injEq] at h
    rw [← h]
    exact (add_zero delay).symm
  | cons y ys ih =>
    simp only [dequeueLoop, Option.bind_eq_bind, Option.bind_eq_some_iff] at h
    obtain ⟨k, hk, t3, ht3, h⟩ := h
    split_ifs at h with heq
    · obtain ⟨v3, hv3, v1, hv1, h⟩ := by simpa only [Option.bind_eq_some_iff] using h
      have hsame : packetKey y = packetKey x := by rw [hkey, hk, heq]
      rw [sameKey_cons_of_eq hsame, List.map_cons, List.sum_cons, ih h, time_eq ht3 hv3,
        time_eq ht1 hv1, add_assoc]
    · have hne : packetKey y ≠ packetKey x := by
        rw [hkey, hk]
        simpa using Ne.symm heq
      rw [sameKey_cons_of_ne hne]
      exact ih h

/-- `delay_list` holds a delay for every enqueued packet, `packet_count` counts the joined pairs. -/
theorem enqueueLoop_eq {r q xs : List Line} {count c : ℚ} {n m : ℕ} {delays ds : List ℚ}
    (h : enqueueLoop float r q xs count n delays = some (c, m, ds)) :
    c = count + (xs.map (joinedDelay float r q)).sum ∧
      m = n + (xs.map fun x => (sameKey r x).length).sum ∧
        ds = delays ++ xs.map (joinedDelay float r q) := by
  induction xs generalizing count n delays with
  | nil =>
    simp only [enqueueLoop, Option.some.injEq, Prod.mk.injEq] at h
    obtain ⟨rfl, rfl, rfl⟩ := h
    simp
  | cons x xs ih =>
    simp only [enqueueLoop, Option.bind_eq_bind, Option.bind_eq_some_iff] at h
    obtain ⟨key, hkey, t1, ht1, ⟨d, n'⟩, hrec, d', hdeq, h⟩ := h
    obtain ⟨hd, hn⟩ := receivedLoop_eq hkey ht1 hrec
    have hd' := dequeueLoop_eq hkey ht1 hdeq
    have hdelay : d' = joinedDelay float r q x := by rw [hd', hd, joinedDelay]
    obtain ⟨hc, hm, hds⟩ := ih h
    refine ⟨?_, ?_, ?_⟩
    · rw [hc, hdelay, List.map_cons, List.sum_cons, add_assoc]
    · rw [hm, hn, List.map_cons, List.sum_cons, add_assoc]
    · rw [hds, hdelay, List.map_cons, List.append_assoc, List.singleton_append]

/-! ## Keys that occur once -/

theorem sameKey_of_nodup {ys : List Line} (h : (ys.map packetKey).Nodup) (x : Line) :
    sameKey ys x = (ys.find? fun y => packetKey x = packetKey y).toList := by
  induction ys with
  | nil => rfl
  | cons y ys ih =>
    rw [List.map_cons, List.nodup_cons] at h
    by_cases hkey : packetKey x = packetKey y
    · have hlater : sameKey ys x = [] := by
        rw [sameKey, List.filter_eq_nil_iff]
        intro z hz heq
        have hsame : packetKey z = packetKey y := (of_decide_eq_true heq).trans hkey
        exact h.1 (List.mem_map.mpr ⟨z, hz, hsame⟩)
      rw [sameKey_cons_of_eq hkey.symm, hlater, List.find?_cons_of_pos (by simpa using hkey)]
      rfl
    · rw [sameKey_cons_of_ne (Ne.symm hkey), List.find?_cons_of_neg (by simpa using hkey), ih h.2]

theorem length_sameKey {r : List Line} (hr : (r.map packetKey).Nodup) (x : Line) :
    (sameKey r x).length = if isDelivered r x then 1 else 0 := by
  have hfound : isDelivered r x = (r.find? fun y => packetKey x = packetKey y).isSome :=
    List.isSome_find?.symm
  rw [sameKey_of_nodup hr, hfound]
  cases r.find? fun y => packetKey x = packetKey y <;> rfl

theorem sum_length_sameKey {r : List Line} (hr : (r.map packetKey).Nodup) (xs : List Line) :
    (xs.map fun x => (sameKey r x).length).sum = (xs.filter (isDelivered r)).length := by
  simp only [length_sameKey hr]
  rw [sum_indicator]
  simp

theorem joinedDelay_eq {r q : List Line} (hr : (r.map packetKey).Nodup)
    (hq : (q.map packetKey).Nodup) (x : Line) :
    joinedDelay float r q x = packetDelay float r q x := by
  rw [joinedDelay, sameKey_of_nodup hr, sameKey_of_nodup hq, packetDelay, queueDelay, timeIn, timeIn]
  refine congrArg₂ (· + ·) ?_ ?_
  · cases r.find? fun y => packetKey x = packetKey y <;> rfl
  · cases q.find? fun y => packetKey x = packetKey y with
    | none => rfl
    | some y => exact add_zero _

theorem packetDelay_of_lost {r q : List Line} {x : Line} (h : isDelivered r x = false) :
    packetDelay float r q x = queueDelay float q x := by
  have hnone : timeIn float r x = none := by
    rw [timeIn, Option.map_eq_none_iff, List.find?_eq_none]
    exact List.any_eq_false.mp h
  rw [packetDelay, hnone, Option.map_none, Option.getD_none, zero_add]

theorem foldl_squares (m : ℚ) (xs : List ℚ) (s : ℚ) :
    xs.foldl (fun sum delay => sum + (delay - m) * (delay - m)) s = s + squares m xs := by
  induction xs generalizing s with
  | nil => simp [squares]
  | cons x xs ih =>
    rw [List.foldl_cons, ih, squares, squares, List.map_cons, List.sum_cons, add_assoc]

/-! ## The figures -/

/-- What the report says the figures are: the mean and the deviation over the delivered packets. -/
def OfDelivered (float : Str → Option ℚ) (l : List Line) (figs : Figures) : Prop :=
  figs.forwarding_delay = mean (deliveredDelays float l) ∧
    figs.jitter_sq = variance (deliveredDelays float l)

/-- What `data` computes: the sum over all enqueued packets divided by the number of the delivered
ones, and the mean squared deviation of all enqueued packets from it. -/
theorem data_eq {lines : List Str} {figs : Figures} (h : data float lines = some figs)
    (hr : ((select "r" (fields lines)).map packetKey).Nodup)
    (hq : ((select "-" (fields lines)).map packetKey).Nodup) :
    let l := fields lines
    let delays := deliveredDelays float l ++ lostDelays float l
    deliveredDelays float l ≠ [] ∧
      figs.forwarding_delay = delays.sum / (deliveredDelays float l).length ∧
        figs.jitter_sq = squares figs.forwarding_delay delays / delays.length := by
  intro l delays
  simp only [data, Option.bind_eq_bind, Option.bind_eq_some_iff] at h
  obtain ⟨sizes, -, last, -, t, -, total_time, -, h⟩ := h
  split_ifs at h
  obtain ⟨⟨count, packet_count, delay_list⟩, hloop, h⟩ := Option.bind_eq_some_iff.mp h
  simp only at h
  split_ifs at h with hcount
  obtain rfl := Option.some.inj h
  obtain ⟨hc, hn, hds⟩ := enqueueLoop_eq hloop
  have hdelays : joinedDelay float (select "r" (fields lines)) (select "-" (fields lines)) =
      packetDelay float (select "r" (fields lines)) (select "-" (fields lines)) :=
    funext (joinedDelay_eq hr hq)
  rw [zero_add] at hc hn
  rw [sum_length_sameKey hr] at hn
  rw [hdelays] at hc hds
  rw [List.nil_append] at hds
  have hperm : delay_list.Perm delays := by
    rw [hds]
    show List.Perm _ (deliveredDelays float l ++ lostDelays float l)
    have hlost : lostDelays float l =
        ((select "+" l).filter fun x => !isDelivered (select "r" l) x).map
          (packetDelay float (select "r" l) (select "-" l)) := by
      apply List.map_congr_left
      intro x hx
      have hnot := (List.mem_filter.mp hx).2
      exact (packetDelay_of_lost (by simpa using hnot)).symm
    rw [deliveredDelays, hlost, ← List.map_append]
    exact (List.filter_append_perm _ _).symm.map _
  have hlen : packet_count = (deliveredDelays float l).length := by
    rw [hn, deliveredDelays, List.length_map]
  refine ⟨?_, ?_, ?_⟩
  · intro hnil
    rw [hnil] at hlen
    exact hcount hlen
  · rw [hc, ← hds, hperm.sum_eq, hlen]
  · rw [foldl_squares, zero_add, squares_perm hperm, hperm.length_eq]

/-- The figures are those of the delivered packets if and only if the queueing delays of the lost
packets sum to zero, and deviate from the delivered mean as much as the delivered delays do. -/
theorem figures_iff {lines : List Str} {figs : Figures} (h : data float lines = some figs)
    (hr : ((select "r" (fields lines)).map packetKey).Nodup)
    (hq : ((select "-" (fields lines)).map packetKey).Nodup) :
    let l := fields lines
    let m := mean (deliveredDelays float l)
    OfDelivered float l figs ↔
      (lostDelays float l).sum = 0 ∧
        (deliveredDelays float l).length * squares m (lostDelays float l) =
          (lostDelays float l).length * squares m (deliveredDelays float l) := by
  intro l m
  obtain ⟨hne, hforward, hjitter⟩ := data_eq h hr hq
  have hmean : figs.forwarding_delay = m ↔ (lostDelays float l).sum = 0 := by
    rw [hforward]
    exact mean_mixed_iff hne
  constructor
  · rintro ⟨hfd, hj⟩
    refine ⟨hmean.mp hfd, (variance_mixed_iff hne).mp ?_⟩
    rw [← hj, hjitter, hfd]
  · rintro ⟨hsum, hsq⟩
    have hfd := hmean.mpr hsum
    refine ⟨hfd, ?_⟩
    rw [hjitter, hfd]
    exact (variance_mixed_iff hne).mpr hsq

/-! ## Packets delivered, and packets lost in the queue -/

def floatNat (s : Str) : Option ℚ :=
  if s ≠ [] ∧ s.all isdigit then some (decimalValue s) else none

def traceLine (sign t id : String) : Str :=
  bytes sign ++ space :: (bytes t ++ bytes " /NodeList/0 id " ++ bytes id ++
    bytes " 10.1.1.1 > 10.1.1.2) ns3::UdpHeader Payload (size=8)")

def deliveredTrace : List Str := [traceLine "+" "3" "1", traceLine "-" "4" "1", traceLine "r" "6" "1"]

def lossyTrace : List Str := traceLine "+" "3" "2" :: traceLine "-" "5" "2" :: deliveredTrace

/-- Two packets arrive, the one at once, and a third is never dequeued: the delays are 0, 8 and 0. -/
def balancedTrace : List Str :=
  [traceLine "+" "3" "1", traceLine "r" "3" "1", traceLine "+" "3" "2", traceLine "-" "5" "2",
    traceLine "+" "6" "3", traceLine "r" "9" "2"]

theorem data_balanced : data floatNat balancedTrace = some ⟨16 / 7, 4, 16⟩ := by decide +kernel

theorem data_lossy : data floatNat lossyTrace = some ⟨2, 6, 10⟩ := by decide +kernel

theorem figures_iff_balanced :
    OfDelivered floatNat (fields balancedTrace) ⟨16 / 7, 4, 16⟩ ∧
      lostDelays floatNat (fields balancedTrace) = [0] ∧
      ¬ OfDelivered floatNat (fields lossyTrace) ⟨2, 6, 10⟩ := by
  refine ⟨(figures_iff data_balanced (by decide +kernel) (by decide +kernel)).mpr ?_,
    by decide +kernel, fun hof => ?_⟩
  · exact ⟨by decide +kernel, by decide +kernel⟩
  · have hsum := ((figures_iff data_lossy (by decide +kernel) (by decide +kernel)).mp hof).1
    exact absurd hsum (by decide +kernel)

/-- The delay of the delivered packet is 4; with the 2 that the lost one was queued it becomes 6. -/
theorem lost_packet_counted :
    ¬ ∀ (lines : List Str) (figs : Figures), data floatNat lines = some figs →
      (∀ sign ∈ ["+", "-", "r"],
        ((select sign (fields lines)).map packetKey).Nodup) →
      OfDelivered floatNat (fields lines) figs := by
  intro h
  have hfour : mean (deliveredDelays floatNat (fields lossyTrace)) = 4 := by
    decide +kernel
  have hmean := (h lossyTrace ⟨2, 6, 10⟩ data_lossy (by decide +kernel)).1
  rw [hfour] at hmean
  exact absurd hmean (by decide)

end ComputerNetworks.TraceAnalysis
