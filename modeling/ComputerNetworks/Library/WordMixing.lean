import Mathlib

/-! # Steps of hash functions that lose nothing

Hash functions for short keys fold a mixing step over the key and mix the final state once more. The
steps add a shifted copy of the word to it, which multiplies it by an odd number, or combine it with a
copy shifted to the right by exclusive or. Both are injective on words of any width, and so are their
compositions and folds. `foldl_ne` says what follows for keys: two that differ in one place only are
told apart, if one step tells the two elements apart.
-/
namespace ComputerNetworks.WordMixing
set_option autoImplicit false

section Words
variable {w : ℕ}

def addShift (k : ℕ) (x : BitVec w) : BitVec w := x + (x <<< k)

def xorShift (k : ℕ) (x : BitVec w) : BitVec w := x ^^^ (x >>> k)

theorem toNat_addShift (k : ℕ) (x : BitVec w) :
    (addShift k x).toNat = x.toNat * (1 + 2 ^ k) % 2 ^ w := by
  rw [addShift, BitVec.toNat_add, BitVec.toNat_shiftLeft, Nat.shiftLeft_eq, Nat.add_mod_mod,
    Nat.mul_add, Nat.mul_one]

theorem coprime_two_pow {k : ℕ} (hk : 0 < k) : Nat.gcd (2 ^ w) (1 + 2 ^ k) = 1 := by
  have hodd : Odd (1 + 2 ^ k) := by
    have heven : Even (2 ^ k) := (Nat.even_pow.mpr ⟨even_two, hk.ne'⟩)
    rw [Nat.add_comm]
    exact heven.add_one
  exact Nat.Coprime.pow_left w (Nat.coprime_two_left.mpr hodd)

theorem addShift_injective {k : ℕ} (hk : 0 < k) : Function.Injective (addShift (w := w) k) := by
  intro x y h
  have hmod : x.toNat * (1 + 2 ^ k) ≡ y.toNat * (1 + 2 ^ k) [MOD 2 ^ w] := by
    have hnat := congrArg BitVec.toNat h
    rwa [toNat_addShift, toNat_addShift] at hnat
  have hsame := Nat.ModEq.cancel_right_of_coprime (coprime_two_pow hk) hmod
  apply BitVec.eq_of_toNat_eq
  exact Nat.ModEq.eq_of_lt_of_lt hsame x.isLt y.isLt

/-- A word that is its own copy shifted to the right is zero. -/
theorem eq_zero_of_shiftRight {k : ℕ} (hk : 0 < k) {z : BitVec w} (h : z = z >>> k) : z = 0 := by
  have hnat : z.toNat = z.toNat / 2 ^ k := by
    have hshift := congrArg BitVec.toNat h
    rwa [BitVec.toNat_ushiftRight, Nat.shiftRight_eq_div_pow] at hshift
  apply BitVec.eq_of_toNat_eq
  by_contra hne
  have hpos : 0 < z.toNat := Nat.pos_of_ne_zero hne
  have hless : z.toNat / 2 ^ k < z.toNat := Nat.div_lt_self hpos (Nat.one_lt_two_pow hk.ne')
  omega

theorem xorShift_injective {k : ℕ} (hk : 0 < k) : Function.Injective (xorShift (w := w) k) := by
  intro x y h
  have hfixed : x ^^^ y = (x ^^^ y) >>> k := by
    have hzero : (x ^^^ (x >>> k)) ^^^ (y ^^^ (y >>> k)) = 0#w := BitVec.xor_eq_zero_iff.mpr h
    rw [BitVec.ushiftRight_xor_distrib]
    apply BitVec.xor_eq_zero_iff.mp
    rw [← hzero]
    ac_rfl
  exact BitVec.xor_eq_zero_iff.mp (eq_zero_of_shiftRight hk hfixed)

theorem signExtend_injective {v : ℕ} (h : w ≤ v) :
    Function.Injective fun x : BitVec w => x.signExtend v := by
  intro x y hxy
  apply BitVec.eq_of_toInt_eq
  have hint := congrArg BitVec.toInt hxy
  simp only [BitVec.toInt_signExtend_of_le h] at hint
  exact hint

end Words

/-! ## Folds -/

section Folds
variable {σ α : Type} {step : σ → α → σ}

theorem foldl_injective (hstep : ∀ a, Function.Injective fun s => step s a) (as : List α) :
    Function.Injective fun s => as.foldl step s := by
  induction as with
  | nil => exact Function.injective_id
  | cons a as ih => exact ih.comp (hstep a)

/-- Two lists of one length that differ in just one place. -/
def DifferOnce (xs ys : List α) : Prop := xs.length = ys.length ∧ ∃! i : ℕ, xs[i]? ≠ ys[i]?

theorem DifferOnce.exists_split {xs ys : List α} (h : DifferOnce xs ys) :
    ∃ front a b back, a ≠ b ∧ xs = front ++ a :: back ∧ ys = front ++ b :: back := by
  obtain ⟨hlen, i, hne, honly⟩ := h
  have hsame : ∀ j, j ≠ i → xs[j]? = ys[j]? := by
    intro j hj
    by_contra hdiffer
    exact hj (honly j hdiffer)
  have hi : i < xs.length := by
    by_contra hout
    apply hne
    rw [List.getElem?_eq_none (by omega), List.getElem?_eq_none (by omega)]
  have hi' : i < ys.length := hlen ▸ hi
  have hfront : xs.take i = ys.take i := by
    apply List.ext_getElem?
    intro j
    rw [List.getElem?_take, List.getElem?_take]
    split_ifs with hj
    · exact hsame j (by omega)
    · rfl
  have hback : xs.drop (i + 1) = ys.drop (i + 1) := by
    apply List.ext_getElem?
    intro j
    rw [List.getElem?_drop, List.getElem?_drop]
    exact hsame _ (by omega)
  refine ⟨xs.take i, xs[i], ys[i], xs.drop (i + 1), ?_, ?_, ?_⟩
  · intro heq
    apply hne
    rw [List.getElem?_eq_getElem hi, List.getElem?_eq_getElem hi', heq]
  · rw [List.getElem_cons_drop, List.take_append_drop]
  · rw [hfront, hback, List.getElem_cons_drop, List.take_append_drop]

/-- Keys that differ once have different states after the fold. -/
theorem foldl_ne (hstep : ∀ a, Function.Injective fun s => step s a)
    (hkey : ∀ s, Function.Injective (step s)) {xs ys : List α} (h : DifferOnce xs ys) (s : σ) :
    xs.foldl step s ≠ ys.foldl step s := by
  obtain ⟨front, a, b, back, hne, rfl, rfl⟩ := h.exists_split
  rw [List.foldl_append, List.foldl_append, List.foldl_cons, List.foldl_cons]
  intro heq
  have hstate := foldl_injective hstep back heq
  exact hne (hkey _ hstate)

end Folds

end ComputerNetworks.WordMixing
