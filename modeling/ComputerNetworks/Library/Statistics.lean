import Mathlib

/-! # Mean and variance of a list

Sums of values and of squared deviations over lists of rationals, and what happens to a mean and a
variance when values that do not belong to the sample are mixed in: `mean_mixed_iff` and
`variance_mixed_iff` say when this goes unnoticed. `squares_mean_eq_zero_iff` says which samples do
not vary.
-/
namespace ComputerNetworks.Statistics
set_option autoImplicit false

def mean (xs : List ℚ) : ℚ := xs.sum / xs.length

def squares (m : ℚ) (xs : List ℚ) : ℚ := (xs.map fun x => (x - m) * (x - m)).sum

def variance (xs : List ℚ) : ℚ := squares (mean xs) xs / xs.length

theorem squares_append (m : ℚ) (xs ys : List ℚ) :
    squares m (xs ++ ys) = squares m xs + squares m ys := by
  simp [squares]

theorem squares_perm {m : ℚ} {xs ys : List ℚ} (h : xs.Perm ys) : squares m xs = squares m ys :=
  (h.map _).sum_eq

/-- Counting only the sample, other values leave the mean alone exactly if they sum to zero. -/
theorem mean_mixed_iff {xs ys : List ℚ} (hne : xs ≠ []) :
    (xs ++ ys).sum / xs.length = mean xs ↔ ys.sum = 0 := by
  have hlen : (xs.length : ℚ) ≠ 0 := by
    exact_mod_cast List.length_pos_iff.mpr hne |>.ne'
  rw [mean, List.sum_append, div_left_inj' hlen]
  constructor
  · intro h
    linarith
  · intro h
    rw [h, add_zero]

/-- Other values leave the variance alone exactly if their mean squared deviation is the same. -/
theorem variance_mixed_iff {xs ys : List ℚ} (hne : xs ≠ []) :
    squares (mean xs) (xs ++ ys) / (xs ++ ys).length = variance xs ↔
      xs.length * squares (mean xs) ys = ys.length * squares (mean xs) xs := by
  have hpos : (0 : ℚ) < xs.length := by exact_mod_cast List.length_pos_iff.mpr hne
  have hlen : (xs.length : ℚ) ≠ 0 := hpos.ne'
  have hsum : (xs.length : ℚ) + ys.length ≠ 0 := by positivity
  rw [variance, squares_append, List.length_append, Nat.cast_add, div_eq_div_iff hsum hlen]
  constructor
  · intro h
    linarith
  · intro h
    linarith

theorem squares_eq_zero_iff (m : ℚ) (xs : List ℚ) : squares m xs = 0 ↔ ∀ x ∈ xs, x = m := by
  induction xs with
  | nil => simp [squares]
  | cons x xs ih =>
    have hnonneg : 0 ≤ squares m xs := by
      refine List.sum_nonneg fun y hy => ?_
      obtain ⟨z, -, rfl⟩ := List.mem_map.mp hy
      exact mul_self_nonneg _
    have hsplit : squares m (x :: xs) = (x - m) * (x - m) + squares m xs := rfl
    rw [hsplit, add_eq_zero_iff_of_nonneg (mul_self_nonneg _) hnonneg, mul_self_eq_zero, sub_eq_zero,
      ih, List.forall_mem_cons]

/-- Only equal values do not deviate from their mean. -/
theorem squares_mean_eq_zero_iff (xs : List ℚ) :
    squares (mean xs) xs = 0 ↔ ∀ x ∈ xs, ∀ y ∈ xs, x = y := by
  rw [squares_eq_zero_iff]
  constructor
  · intro h x hx y hy
    rw [h x hx, h y hy]
  · intro h x hx
    have hsum : xs.sum = xs.length * x := by
      have hall : xs = List.replicate xs.length x :=
        List.eq_replicate_of_mem fun y hy => h y hy x hx
      rw [hall, List.sum_replicate, List.length_replicate, nsmul_eq_mul]
    have hlen : (xs.length : ℚ) ≠ 0 := by exact_mod_cast (List.length_pos_of_mem hx).ne'
    rw [mean, hsum, mul_div_cancel_left₀ _ hlen]

end ComputerNetworks.Statistics
