import ComputerNetworks.CsmaDevice.Device

/-! # The backoff window

`Backoff::GetBackoffTime` draws a number of slots between `m_minSlots` and an upper end that doubles
with every retry, up to `m_maxSlots`. `window_iff` says for which parameters and retries this is a
window at all: the power of two has to fit 32 bits before it is capped, and nothing keeps the upper
end above the lower one.
-/
namespace ComputerNetworks.CsmaDevice
set_option autoImplicit false

/-- `m_rng`: `GetValue (a, b)` is some number between `a` and `b`. -/
structure UniformRandomVariable where
  getValue : ℕ → ℕ → ℚ
  min_le : ∀ a b : ℕ, (min a b : ℚ) ≤ getValue a b
  le_max : ∀ a b : ℕ, getValue a b ≤ (max a b : ℚ)

namespace Backoff

/-- The local variable `ceiling` of `GetBackoffTime`. -/
def ceiling (b : Backoff) : UInt32 :=
  if b.m_ceiling > 0 ∧ b.m_numBackoffRetries > b.m_ceiling then b.m_ceiling
  else b.m_numBackoffRetries

/-- `(uint32_t) pow (2, ceiling) - 1`, capped by `m_maxSlots`. The conversion of a power that does
not fit is undefined. -/
def maxSlot (b : Backoff) : Option UInt32 :=
  if 2 ^ b.ceiling.toNat < UInt32.size then
    let maxSlot := UInt32.ofNat (2 ^ b.ceiling.toNat) - 1
    some (if maxSlot > b.m_maxSlots then b.m_maxSlots else maxSlot)
  else none

def backoffSlots (rng : UniformRandomVariable) (b : Backoff) : Option UInt32 :=
  b.maxSlot.map fun maxSlot =>
    UInt32.ofNat ⌊rng.getValue b.m_minSlots.toNat maxSlot.toNat⌋.toNat

def getBackoffTime (rng : UniformRandomVariable) (b : Backoff) : Option ℤ :=
  (b.backoffSlots rng).map fun backoffSlots => backoffSlots.toNat * b.m_slotTime

def retry (b : Backoff) (n : UInt32) : Backoff := { b with m_numBackoffRetries := n }

/-- The exponent of the window at the current retry: the number of the retry, up to the ceiling if
there is one. -/
def exponent (b : Backoff) : ℕ :=
  if b.m_ceiling = 0 then b.m_numBackoffRetries.toNat
  else min b.m_numBackoffRetries.toNat b.m_ceiling.toNat

structure Window (b : Backoff) : Prop where
  upper : ∃ maxSlot, b.maxSlot = some maxSlot ∧
    maxSlot.toNat = min (2 ^ b.exponent - 1) b.m_maxSlots.toNat ∧ b.m_minSlots ≤ maxSlot ∧
    ∀ n, 1 ≤ n → n ≤ b.m_numBackoffRetries →
      ∃ earlier, (b.retry n).maxSlot = some earlier ∧ earlier ≤ maxSlot
  drawn : ∀ rng, ∃ slots, b.backoffSlots rng = some slots ∧ b.m_minSlots ≤ slots ∧
    slots ≤ b.m_maxSlots

/-! ## The two ends -/

theorem ceiling_toNat (b : Backoff) : b.ceiling.toNat = b.exponent := by
  unfold ceiling exponent
  by_cases h0 : b.m_ceiling = 0
  · rw [if_pos h0, if_neg fun h => ?_]
    rw [h0] at h
    exact absurd h.1 (by decide)
  · have hpos : b.m_ceiling > 0 := UInt32.pos_iff_ne_zero.mpr h0
    rw [if_neg h0]
    by_cases hgt : b.m_numBackoffRetries > b.m_ceiling
    · rw [if_pos ⟨hpos, hgt⟩]
      exact (Nat.min_eq_right (UInt32.lt_iff_toNat_lt.mp hgt).le).symm
    · rw [if_neg fun h => hgt h.2]
      exact (Nat.min_eq_left (UInt32.le_iff_toNat_le.mp (UInt32.not_lt.mp hgt))).symm

theorem exponent_retry_le (b : Backoff) {n : UInt32} (h : n ≤ b.m_numBackoffRetries) :
    (b.retry n).exponent ≤ b.exponent := by
  have hle := UInt32.le_iff_toNat_le.mp h
  unfold exponent retry
  by_cases h0 : b.m_ceiling = 0
  · simp only [h0, if_true]
    exact hle
  · simp only [h0, if_false]
    exact min_le_min hle (le_refl _)

theorem maxSlot_isSome_iff (b : Backoff) : b.maxSlot.isSome ↔ b.exponent ≤ 31 := by
  rw [maxSlot, ceiling_toNat]
  by_cases h : b.exponent ≤ 31
  · have hfits : 2 ^ b.exponent < UInt32.size :=
      Nat.pow_lt_pow_right (by decide : 1 < 2) (Nat.lt_succ_of_le h)
    rw [if_pos hfits]
    exact iff_of_true rfl h
  · have hlarge : UInt32.size ≤ 2 ^ b.exponent :=
      Nat.pow_le_pow_right (by decide : 0 < 2) (Nat.lt_of_not_le h)
    rw [if_neg (Nat.not_lt.mpr hlarge)]
    exact iff_of_false (by simp) h

theorem maxSlot_toNat {b : Backoff} {maxSlot : UInt32} (h : b.maxSlot = some maxSlot) :
    maxSlot.toNat = min (2 ^ b.exponent - 1) b.m_maxSlots.toNat := by
  rw [Backoff.maxSlot, ceiling_toNat] at h
  by_cases hfits : 2 ^ b.exponent < UInt32.size
  · rw [if_pos hfits] at h
    obtain rfl := Option.some.inj h
    have hone : 1 ≤ 2 ^ b.exponent := Nat.one_le_two_pow
    have hpower : (UInt32.ofNat (2 ^ b.exponent) - 1).toNat = 2 ^ b.exponent - 1 := by
      rw [UInt32.toNat_sub_of_le]
      · rw [UInt32.toNat_ofNat_of_lt' hfits]
        rfl
      · rw [UInt32.le_iff_toNat_le, UInt32.toNat_ofNat_of_lt' hfits]
        exact hone
    by_cases hgt : UInt32.ofNat (2 ^ b.exponent) - 1 > b.m_maxSlots
    · have hlt := UInt32.lt_iff_toNat_lt.mp hgt
      rw [if_pos hgt]
      rw [hpower] at hlt
      exact (Nat.min_eq_right hlt.le).symm
    · have hle := UInt32.le_iff_toNat_le.mp (UInt32.not_lt.mp hgt)
      rw [if_neg hgt, hpower]
      rw [hpower] at hle
      exact (Nat.min_eq_left hle).symm
  · rw [if_neg hfits] at h
    cases h

theorem floor_getValue (rng : UniformRandomVariable) {a b : ℕ} (hle : a ≤ b) (hb : b < UInt32.size) :
    a ≤ (UInt32.ofNat ⌊rng.getValue a b⌋.toNat).toNat ∧
      (UInt32.ofNat ⌊rng.getValue a b⌋.toNat).toNat ≤ b := by
  have hlo := rng.min_le a b
  have hhi := rng.le_max a b
  rw [min_eq_left (Nat.cast_le.mpr hle)] at hlo
  rw [max_eq_right (Nat.cast_le.mpr hle)] at hhi
  have hfloor : (a : ℤ) ≤ ⌊rng.getValue a b⌋ := Int.le_floor.mpr (by exact_mod_cast hlo)
  have hceil : ⌊rng.getValue a b⌋ ≤ (b : ℤ) := by
    have hcast : (⌊rng.getValue a b⌋ : ℚ) ≤ (b : ℚ) := (Int.floor_le _).trans hhi
    exact_mod_cast hcast
  have hfits : ⌊rng.getValue a b⌋.toNat < UInt32.size := by omega
  rw [UInt32.toNat_ofNat_of_lt' hfits]
  omega

/-- For every configuration and every retry the window is well formed exactly if
its power of two fits 32 bits and reaches the lower end. -/
theorem window_iff {b : Backoff} (hconfig : b.m_minSlots ≤ b.m_maxSlots) :
    b.Window ↔ b.exponent ≤ 31 ∧ b.m_minSlots.toNat ≤ 2 ^ b.exponent - 1 := by
  have hslots := UInt32.le_iff_toNat_le.mp hconfig
  constructor
  · rintro ⟨⟨maxSlot, hmax, hupper, hlower, -⟩, -⟩
    refine ⟨(maxSlot_isSome_iff b).mp (by rw [hmax]; rfl), ?_⟩
    have hle := UInt32.le_iff_toNat_le.mp hlower
    rw [hupper] at hle
    exact hle.trans (Nat.min_le_left _ _)
  · rintro ⟨hfits, hreach⟩
    obtain ⟨maxSlot, hmax⟩ := Option.isSome_iff_exists.mp ((maxSlot_isSome_iff b).mpr hfits)
    have hupper := maxSlot_toNat hmax
    have hlower : b.m_minSlots.toNat ≤ maxSlot.toNat := by
      rw [hupper]
      exact Nat.le_min.mpr ⟨hreach, hslots⟩
    refine ⟨⟨maxSlot, hmax, hupper, UInt32.le_iff_toNat_le.mpr hlower, fun n hn hle => ?_⟩,
      fun rng => ?_⟩
    · have hexp := exponent_retry_le b hle
      obtain ⟨earlier, hearlier⟩ := Option.isSome_iff_exists.mp
        ((maxSlot_isSome_iff (b.retry n)).mpr (hexp.trans hfits))
      refine ⟨earlier, hearlier, UInt32.le_iff_toNat_le.mpr ?_⟩
      rw [maxSlot_toNat hearlier, hupper]
      have hpow : 2 ^ (b.retry n).exponent ≤ 2 ^ b.exponent := Nat.pow_le_pow_right (by decide) hexp
      exact min_le_min (Nat.sub_le_sub_right hpow 1) (le_refl _)
    · obtain ⟨hlo, hhi⟩ := floor_getValue rng hlower maxSlot.toNat_lt
      refine ⟨_, by rw [backoffSlots, hmax]; rfl, UInt32.le_iff_toNat_le.mpr hlo, ?_⟩
      rw [UInt32.le_iff_toNat_le]
      have hcap := Nat.min_le_right (2 ^ b.exponent - 1) b.m_maxSlots.toNat
      omega

/-! ## Two retries -/

theorem window_standard : (Backoff.standard.retry 3).Window :=
  (window_iff (by decide)).mpr (by decide)

/-- With at least five slots asked for, the first retry draws from a window that ends at 1. -/
theorem first_window_empty :
    ¬ ∀ b : Backoff, b.m_minSlots ≤ b.m_maxSlots → 1 ≤ b.m_numBackoffRetries → b.Window := by
  intro h
  obtain ⟨maxSlot, hmax, -, hlower, -⟩ :=
    (h ((Backoff.configured 1000 5 1000 10 1000 0).retry 1) (by decide) (by decide)).upper
  have hone : ((Backoff.configured 1000 5 1000 10 1000 0).retry 1).maxSlot = some 1 := by decide
  obtain rfl := Option.some.inj (hone.symm.trans hmax)
  exact absurd hlower (by decide)

end Backoff

end ComputerNetworks.CsmaDevice
