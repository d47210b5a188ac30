import Mathlib

/-! # Ways to read a stream

A byte stream has no message boundaries: successive `read` calls that ask for up to `cap` bytes
return it in non-empty pieces of at most that length, cut wherever the network pleases, until the
stream ends. A `Segmentation` is one such sequence of pieces.
-/
namespace ComputerNetworks
set_option autoImplicit false

variable {α : Type}

/-- The pieces in which a stream is read with calls that ask for at most `cap` elements. -/
structure Segmentation (cap : ℕ) (stream : List α) where
  segments : List (List α)
  ne_nil : ∀ seg ∈ segments, seg ≠ []
  length_le : ∀ seg ∈ segments, seg.length ≤ cap
  flatten_eq : segments.flatten = stream

namespace Segmentation
variable {cap : ℕ} {stream : List α}

/-- A stream can always be read, at worst one element at a time. -/
def singly (stream : List α) (hcap : 0 < cap) : Segmentation cap stream where
  segments := stream.map fun a => [a]
  ne_nil := by simp
  length_le := by
    intro seg hseg
    obtain ⟨a, -, rfl⟩ := List.mem_map.mp hseg
    exact hcap
  flatten_eq := List.flatMap_singleton' stream

theorem exists_first (S : Segmentation cap stream) (h : stream ≠ []) :
    ∃ first rest, S.segments = first :: rest ∧ first ++ rest.flatten = stream ∧ first ≠ [] ∧
      first.length ≤ cap := by
  have hne : S.segments ≠ [] := by
    intro hnil
    apply h
    rw [← S.flatten_eq, hnil]
    rfl
  obtain ⟨first, rest, hseg⟩ := List.exists_cons_of_ne_nil hne
  have hmem : first ∈ S.segments := hseg ▸ List.mem_cons_self
  refine ⟨first, rest, hseg, ?_, S.ne_nil first hmem, S.length_le first hmem⟩
  rw [← S.flatten_eq, hseg, List.flatten_cons]

theorem first_eq_iff {first rest front tail : List α} (h : first ++ rest = front ++ tail) :
    first.length = front.length ↔ first = front ∧ rest = tail := by
  constructor
  · exact fun hlen => List.append_inj h hlen
  · rintro ⟨rfl, -⟩
    rfl

end Segmentation

end ComputerNetworks
