import ComputerNetworks.TraceAnalysis.Figures

/-! # Which lines `data` joins

`data` joins every enqueued packet with every received one that has the same IP id and addresses. An id
is used again after 65536 packets, and a packet that is forwarded is enqueued and received once more
on the way, so a key may stand for several packets. `matchedOnce_iff` says for which traces each
reception is nevertheless joined with its own enqueueing alone.
-/
namespace ComputerNetworks.TraceAnalysis
open KeyedJoin
set_option autoImplicit false

/-- The lines of one kind with their places in the trace. -/
def selectAt (sign : String) (l : List Line) : List (Line × ℕ) :=
  l.zipIdx.filter fun x => decide (x.1.head? = some (bytes sign)) && x.1.contains udpHeader

section
variable (float : Str → Option ℚ)

/-- `count`, `packet_count` and `delay_list` after the loops of `data`. -/
def joined (l : List Line) : Option (ℚ × ℕ × List ℚ) :=
  enqueueLoop float (select "r" l) (select "-" l) (select "+" l) 0 0 []

def queueing (l : List Line) (x : Line) : ℚ :=
  (((select "-" l).filter fun y => packetKey y = packetKey x).map fun y =>
    time float y - time float x).sum

def delayTo (l : List Line) (x : Line) (y : Option (Line × ℕ)) : ℚ :=
  (y.map fun y => time float y.1 - time float x).getD 0 + queueing float l x

/-- Every reception of a packet that was enqueued before is counted once and joined with just the
latest line that enqueued it, and the delay of a packet ends with a reception of its own. -/
structure MatchedOnce (l : List Line) (packet_count : ℕ) (delay_list : List ℚ) : Prop where
  count : packet_count =
    ((selectAt "r" l).filter fun y => (latestBefore packetKey (selectAt "+" l) y).isSome).length
  once : ∀ y ∈ selectAt "r" l,
    matching packetKey (selectAt "+" l) (packetKey y.1) =
      (latestBefore packetKey (selectAt "+" l) y).toList
  delays : delay_list = (selectAt "+" l).map fun x => delayTo float l x.1
    ((selectAt "r" l).filter fun y =>
      latestBefore packetKey (selectAt "+" l) y = some x).getLast?

end

variable {float : Str → Option ℚ}

theorem nodup_selectAt (sign : String) (l : List Line) : (selectAt sign l).Nodup :=
  (List.Nodup.of_map _ (List.nodup_zipIdx_map_snd l)).filter _

theorem map_fst_selectAt (sign : String) (l : List Line) :
    (selectAt sign l).map Prod.fst = select sign l := by
  have h := List.filter_map (l := l.zipIdx) (f := Prod.fst)
    (p := fun x : Line => decide (x.head? = some (bytes sign)) && x.contains udpHeader)
  rw [List.zipIdx_map_fst] at h
  exact h.symm

/-! ## What is joined -/

theorem sameKey_select (sign : String) (l : List Line) (x : Line) :
    sameKey (select sign l) x =
      (matching packetKey (selectAt sign l) (packetKey x)).map Prod.fst := by
  rw [sameKey, ← map_fst_selectAt, List.filter_map]
  rfl

/-- `packet_count` counts the joined pairs, and the delay of a packet ends with the last line it is
joined with. -/
theorem joined_eq {l : List Line} {count : ℚ} {packet_count : ℕ} {delay_list : List ℚ}
    (h : joined float l = some (count, packet_count, delay_list)) :
    packet_count = ((selectAt "r" l).map fun y =>
      (matching packetKey (selectAt "+" l) (packetKey y.1)).length).sum ∧
    delay_list = (selectAt "+" l).map fun x =>
      delayTo float l x.1 (matching packetKey (selectAt "r" l) (packetKey x.1)).getLast? := by
  obtain ⟨-, hm, hds⟩ := enqueueLoop_eq h
  refine ⟨?_, ?_⟩
  · rw [hm, Nat.zero_add, ← map_fst_selectAt "+", List.map_map, ← sum_length_matching]
    apply congrArg List.sum
    apply List.map_congr_left
    intro x _
    rw [Function.comp_apply, sameKey_select, List.length_map]
  · rw [hds, List.nil_append, ← map_fst_selectAt "+", List.map_map]
    apply List.map_congr_left
    intro x _
    rw [Function.comp_apply, joinedDelay, sameKey_select, List.getLast?_map, Option.map_map, delayTo,
      queueing]
    rfl

/-- Each reception is matched once if and only if no key of a received packet is used for two
enqueued packets, or for one that is enqueued after the reception. -/
theorem matchedOnce_iff {lines : List Str} {figs : Figures} (h : data float lines = some figs) :
    ∃ count packet_count delay_list,
      joined float (fields lines) = some (count, packet_count, delay_list) ∧
      figs.forwarding_delay = count / packet_count ∧
      (MatchedOnce float (fields lines) packet_count delay_list ↔
        KeyedOnce packetKey (selectAt "+" (fields lines)) (selectAt "r" (fields lines))) := by
  simp only [data, Option.bind_eq_bind, Option.bind_eq_some_iff] at h
  obtain ⟨sizes, -, last, -, t, -, total_time, -, h⟩ := h
  split_ifs at h
  obtain ⟨⟨count, packet_count, delay_list⟩, hloop, h⟩ := Option.bind_eq_some_iff.mp h
  simp only at h
  split_ifs at h
  obtain rfl := Option.some.inj h
  refine ⟨count, packet_count, delay_list, hloop, rfl, ?_⟩
  have hnodup := nodup_selectAt "+" (fields lines)
  obtain ⟨hcount, hdelays⟩ := joined_eq hloop
  constructor
  · exact fun honce => (matching_eq_iff hnodup).mp honce.once
  · intro honce
    refine ⟨?_, (matching_eq_iff hnodup).mpr honce, ?_⟩
    · rw [hcount, honce.sum_length hnodup]
    · rw [hdelays]
      apply List.map_congr_left
      intro x hx
      rw [honce.matching_eq hnodup hx]

/-! ## Ids that are used once, and one that is used again -/

theorem matchedOnce_balanced : MatchedOnce floatNat (fields balancedTrace) 2 [0, 8, 0] := by
  obtain ⟨count, packet_count, delay_list, hjoined, -, honce⟩ := matchedOnce_iff data_balanced
  have heval : joined floatNat (fields balancedTrace) = some (8, 2, [0, 8, 0]) := by decide +kernel
  obtain ⟨-, rfl, rfl⟩ : count = 8 ∧ packet_count = 2 ∧ delay_list = [0, 8, 0] := by
    simpa using hjoined.symm.trans heval
  refine honce.mpr ?_
  unfold KeyedOnce
  decide +kernel

def reusedTrace : List Str :=
  [traceLine "+" "3" "1", traceLine "r" "6" "1", traceLine "+" "7" "1", traceLine "r" "8" "1"]

/-- Two packets with one key: four pairs are counted. -/
theorem reused_key_counted :
    ¬ ∀ (lines : List Str) (figs : Figures) (count : ℚ) (packet_count : ℕ) (delay_list : List ℚ),
      ((fields lines).map (time floatNat)).Pairwise (· ≤ ·) → data floatNat lines = some figs →
      joined floatNat (fields lines) = some (count, packet_count, delay_list) →
      MatchedOnce floatNat (fields lines) packet_count delay_list := by
  intro h
  have hdata : data floatNat reusedTrace = some ⟨8 / 3, 3 / 2, 25 / 4⟩ := by decide +kernel
  have hjoined : joined floatNat (fields reusedTrace) = some (6, 4, [5, 1]) := by decide +kernel
  have hcount := (h reusedTrace _ 6 4 [5, 1] (by decide +kernel) hdata hjoined).count
  exact absurd hcount (by decide +kernel)

end ComputerNetworks.TraceAnalysis
