import ComputerNetworks.Library.WordMixing
import ComputerNetworks.PeerRing.Registration

/-! # Identifiers that cannot collide

The identifier of a node is the hash of its address. `oat_hash` starts from 0 for every key, takes one
byte after the other into its state, and mixes the last state once more; none of these steps loses
anything. `oatHash_tells_apart` draws the consequences for keys with a common suffix and for keys that
differ in one byte, such as the addresses of peers on one host whose ports differ in a digit.
-/
namespace ComputerNetworks.PeerRing
open WordMixing
set_option autoImplicit false

/-- The statements of `oat_hash` after its loop. -/
def oatFinish (h : UInt64) : UInt64 :=
  let h := h + (h <<< 3)
  let h := h ^^^ (h >>> 11)
  h + (h <<< 15)

theorem oatHash_eq (p : Str) : oatHash p = oatFinish (p.foldl oatStep 0) := rfl

/-! ## One step -/

theorem toBitVec_oatStep (h : UInt64) (b : Byte) :
    (oatStep h b).toBitVec =
      xorShift 6 (addShift 10 (h.toBitVec + b.toBitVec.signExtend 64)) := rfl

theorem toBitVec_oatFinish (h : UInt64) :
    (oatFinish h).toBitVec = addShift 15 (xorShift 11 (addShift 3 h.toBitVec)) := rfl

/-- A step is told apart by what it adds to the state. -/
theorem oatStep_eq_iff {h h' : UInt64} {b b' : Byte} :
    oatStep h b = oatStep h' b' ↔
      h.toBitVec + b.toBitVec.signExtend 64 = h'.toBitVec + b'.toBitVec.signExtend 64 := by
  rw [← UInt64.toBitVec_inj, toBitVec_oatStep, toBitVec_oatStep]
  have hxor : Function.Injective (xorShift (w := 64) 6) := xorShift_injective (by decide)
  have hadd : Function.Injective (addShift (w := 64) 10) := addShift_injective (by decide)
  rw [hxor.eq_iff, hadd.eq_iff]

theorem oatStep_state_injective (b : Byte) : Function.Injective fun h => oatStep h b := by
  intro h h' heq
  have hsum := oatStep_eq_iff.mp heq
  exact UInt64.toBitVec_inj.mp ((BitVec.add_left_inj _).mp hsum)

theorem oatStep_byte_injective (h : UInt64) : Function.Injective (oatStep h) := by
  intro b b' heq
  have hsum := oatStep_eq_iff.mp heq
  have hextended := (BitVec.add_right_inj _).mp hsum
  exact UInt8.toBitVec_inj.mp (signExtend_injective (by decide) hextended)

theorem oatFinish_injective : Function.Injective oatFinish := by
  intro h h' heq
  have hwords := congrArg UInt64.toBitVec heq
  rw [toBitVec_oatFinish, toBitVec_oatFinish] at hwords
  have hlast := addShift_injective (by decide) hwords
  have hmiddle := xorShift_injective (by decide) hlast
  exact UInt64.toBitVec_inj.mp (addShift_injective (by decide) hmiddle)

/-! ## Whole keys -/

theorem oatHash_ne {p q : Str} (h : DifferOnce p q) : oatHash p ≠ oatHash q := by
  intro heq
  rw [oatHash_eq, oatHash_eq] at heq
  have hstate := oatFinish_injective heq
  exact foldl_ne oatStep_state_injective oatStep_byte_injective h 0 hstate

/-- What a suffix and the final mixing make of two states is equal only if the states are, and the
hashes of two keys that differ in one byte are different. -/
theorem oatHash_tells_apart :
    (∀ (suffix : Str) (h h' : UInt64),
      oatFinish (suffix.foldl oatStep h) = oatFinish (suffix.foldl oatStep h') → h = h') ∧
    ∀ p q : Str, p.length = q.length → (∃! i : ℕ, p[i]? ≠ q[i]?) → oatHash p ≠ oatHash q := by
  refine ⟨fun suffix h h' heq => ?_, fun p q hlen hone => oatHash_ne ⟨hlen, hone⟩⟩
  have hstate := oatFinish_injective heq
  exact foldl_injective oatStep_state_injective suffix hstate

theorem differOnce_ports : DifferOnce (bytes "10.0.0.1:8001") (bytes "10.0.0.1:8002") := by
  have hlen : (bytes "10.0.0.1:8001").length = 13 ∧ (bytes "10.0.0.1:8002").length = 13 := by
    decide +kernel
  refine ⟨hlen.1.trans hlen.2.symm, 12, by decide +kernel, fun j hne => ?_⟩
  have hsame : ∀ j < 13, j ≠ 12 → (bytes "10.0.0.1:8001")[j]? = (bytes "10.0.0.1:8002")[j]? := by
    decide +kernel
  by_contra hj
  apply hne
  by_cases hin : j < 13
  · exact hsame j hin hj
  · rw [List.getElem?_eq_none (by omega), List.getElem?_eq_none (by omega)]

theorem oatHash_tells_apart_ports :
    oatFinish ((bytes "8001").foldl oatStep 0) ≠ oatFinish ((bytes "8001").foldl oatStep 1) ∧
      oatHash (bytes "10.0.0.1:8001") ≠ oatHash (bytes "10.0.0.1:8002") :=
  ⟨fun heq => absurd (oatHash_tells_apart.1 (bytes "8001") 0 1 heq) (by decide),
    oatHash_tells_apart.2 _ _ differOnce_ports.1 differOnce_ports.2⟩

/-! ## Rings -/

theorem Node.Registered.node_id_ne {nd nd' : Node} (h : nd.Registered) (h' : nd'.Registered)
    (hdiffer : DifferOnce nd.ip_port nd'.ip_port) : nd.node_id ≠ nd'.node_id := by
  rw [h.node_id_eq, h'.node_id_eq]
  exact oatHash_ne hdiffer

theorem nodup_node_id {nodes : List Node} (hreg : ∀ nd ∈ nodes, nd.Registered)
    (hdiffer : nodes.Pairwise fun nd nd' => DifferOnce nd.ip_port nd'.ip_port) :
    (nodes.map Node.node_id).Nodup := by
  apply List.pairwise_map.mpr
  refine hdiffer.imp_of_mem fun hnd hnd' hne => ?_
  exact (hreg _ hnd).node_id_ne (hreg _ hnd') hne

/-- Peers whose addresses differ in one character from each other, such as neighbouring ports of one
host, form the same ring in whatever order they register. -/
theorem BootstrapRun.all_info_unique {p₁ p₂ : List Str} (B₁ : BootstrapRun p₁) (B₂ : BootstrapRun p₂)
    (hnodes : B₁.nodes.Perm B₂.nodes)
    (hdiffer : B₁.nodes.Pairwise fun nd nd' => DifferOnce nd.ip_port nd'.ip_port) :
    B₁.all_info = B₂.all_info := by
  have hreg := registrations_registered B₁.registered
  exact B₁.stdSort.unique B₂.stdSort hnodes (nodup_node_id hreg hdiffer)

end ComputerNetworks.PeerRing
