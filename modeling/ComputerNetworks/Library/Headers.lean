import Mathlib

/-! # Headers and trailers of packets

A packet is a list of bytes. A protocol layer puts a header of a fixed size in front of it, or a checksum
behind it, and the same layer of the receiver takes them off again. The formats are structures that
carry what makes them formats: a header is read back whatever follows it, and reading one takes off as
many bytes as writing one puts on; a trailer passes the check of the packet it was computed for.
-/
namespace ComputerNetworks.Headers
set_option autoImplicit false

variable {β η : Type}

/-- `deserialize` takes a header off a packet, and is `none` on a packet without one. -/
structure Header (β η : Type) where
  size : ℕ
  size_pos : 0 < size
  serialize : η → List β
  deserialize : List β → Option (η × List β)
  deserialize_serialize : ∀ h p, deserialize (serialize h ++ p) = some (h, p)
  length_eq : ∀ p h rest, deserialize p = some (h, rest) → p.length = size + rest.length

/-- The last `size` bytes of a packet, computed from the bytes before them. -/
structure Trailer (β : Type) where
  size : ℕ
  compute : List β → List β
  length_compute : ∀ p, (compute p).length = size
  check : List β → List β → Bool
  check_compute : ∀ p, check (compute p) p = true

namespace Header

theorem length_serialize (H : Header β η) (h : η) : (H.serialize h).length = H.size := by
  have hread := H.deserialize_serialize h []
  have hlen := H.length_eq _ _ _ hread
  rw [List.append_nil] at hlen
  exact hlen

theorem length_rest_lt (H : Header β η) {p rest : List β} {h : η}
    (hread : H.deserialize p = some (h, rest)) : rest.length < p.length := by
  have hpos := H.size_pos
  have hlen := H.length_eq _ _ _ hread
  omega

end Header

namespace Trailer

def add (T : Trailer β) (p : List β) : List β := p ++ T.compute p

/-- The packet and its trailer, `none` if it is shorter than that. -/
def remove (T : Trailer β) (p : List β) : Option (List β × List β) :=
  if T.size ≤ p.length then some (p.take (p.length - T.size), p.drop (p.length - T.size)) else none

theorem remove_add (T : Trailer β) (p : List β) : T.remove (T.add p) = some (p, T.compute p) := by
  have hlen : (T.add p).length = p.length + T.size := by
    rw [add, List.length_append, T.length_compute]
  rw [remove, hlen, if_pos (Nat.le_add_left _ _), Nat.add_sub_cancel, add, List.take_left,
    List.drop_left]

end Trailer

end ComputerNetworks.Headers
