import Mathlib

/-! # Joining two kinds of log entries on a key

Entries of a log carry their position. The entries `ys` of one kind are joined with the entries `xs` of
another that have the same key. A nested loop joins all of them; what is wanted is often the latest
entry before, and none otherwise. The two agree exactly if every key of a `y` occurs on at most one
`x`, and there before all these `y` (`matching_eq_iff`).
-/
namespace ComputerNetworks.KeyedJoin
set_option autoImplicit false

variable {α κ : Type} [DecidableEq κ] (key : α → κ)

def matching (xs : List (α × ℕ)) (k : κ) : List (α × ℕ) := xs.filter fun x => key x.1 = k

def latestBefore (xs : List (α × ℕ)) (y : α × ℕ) : Option (α × ℕ) :=
  ((matching key xs (key y.1)).filter fun x => x.2 < y.2).getLast?

def KeyedOnce (xs ys : List (α × ℕ)) : Prop :=
  ∀ y ∈ ys, ∀ x ∈ xs, key x.1 = key y.1 →
    x.2 < y.2 ∧ ∀ x' ∈ xs, key x'.1 = key y.1 → x' = x

variable {key}

theorem mem_matching {xs : List (α × ℕ)} {k : κ} {x : α × ℕ} :
    x ∈ matching key xs k ↔ x ∈ xs ∧ key x.1 = k := by
  simp [matching]

theorem latestBefore_eq_some {xs : List (α × ℕ)} {x y : α × ℕ} (h : latestBefore key xs y = some x) :
    x ∈ xs ∧ key x.1 = key y.1 ∧ x.2 < y.2 := by
  have hmem := List.mem_filter.mp (List.mem_of_getLast? h)
  obtain ⟨hx, hkey⟩ := mem_matching.mp hmem.1
  exact ⟨hx, hkey, of_decide_eq_true hmem.2⟩

theorem matching_of_once {xs : List (α × ℕ)} (hx : xs.Nodup) {x y : α × ℕ} (hmem : x ∈ xs)
    (hkey : key x.1 = key y.1) (hlt : x.2 < y.2)
    (honce : ∀ x' ∈ xs, key x'.1 = key y.1 → x' = x) :
    matching key xs (key y.1) = [x] ∧ latestBefore key xs y = some x := by
  have hmatching : matching key xs (key y.1) = [x] := by
    have hnodup : (matching key xs (key y.1)).Nodup := hx.filter _
    have hall : ∀ x' ∈ matching key xs (key y.1), x' = x := fun x' hx' =>
      honce x' (mem_matching.mp hx').1 (mem_matching.mp hx').2
    have hin : x ∈ matching key xs (key y.1) := mem_matching.mpr ⟨hmem, hkey⟩
    obtain ⟨n, hn⟩ : ∃ n, matching key xs (key y.1) = List.replicate n x :=
      ⟨_, List.eq_replicate_of_mem hall⟩
    rw [hn] at hnodup hin
    have hle := List.nodup_replicate.mp hnodup
    have hne : n ≠ 0 := (List.mem_replicate.mp hin).1
    obtain rfl : n = 1 := by omega
    exact hn
  refine ⟨hmatching, ?_⟩
  rw [latestBefore, hmatching]
  simp [hlt]

theorem matching_eq_iff {xs ys : List (α × ℕ)} (hx : xs.Nodup) :
    (∀ y ∈ ys, matching key xs (key y.1) = (latestBefore key xs y).toList) ↔
      KeyedOnce key xs ys := by
  constructor
  · intro h y hy x hmem hkey
    have hlatest : ∀ x' ∈ xs, key x'.1 = key y.1 → latestBefore key xs y = some x' := by
      intro x' hx' hkey'
      have hin := mem_matching.mpr ⟨hx', hkey'⟩
      rw [h y hy] at hin
      exact Option.mem_toList.mp hin
    have hx' := hlatest x hmem hkey
    refine ⟨(latestBefore_eq_some hx').2.2, fun x' hmem' hkey' => ?_⟩
    exact Option.some.inj ((hlatest x' hmem' hkey').symm.trans hx')
  · intro h y hy
    by_cases hex : ∃ x ∈ xs, key x.1 = key y.1
    · obtain ⟨x, hmem, hkey⟩ := hex
      obtain ⟨hlt, honce⟩ := h y hy x hmem hkey
      obtain ⟨hmatching, hlatest⟩ := matching_of_once hx hmem hkey hlt honce
      rw [hmatching, hlatest, Option.toList_some]
    · have hnil : matching key xs (key y.1) = [] := by
        rw [matching, List.filter_eq_nil_iff]
        intro x hmem hkey
        exact hex ⟨x, hmem, of_decide_eq_true hkey⟩
      rw [latestBefore, hnil]
      rfl

theorem sum_indicator {β : Type} (p : β → Prop) [DecidablePred p] (ys : List β) :
    (ys.map fun y => if p y then 1 else 0).sum = (ys.filter fun y => p y).length := by
  induction ys with
  | nil => rfl
  | cons y ys ih =>
    rw [List.map_cons, List.sum_cons, ih, List.filter_cons]
    by_cases h : p y
    · simp [h, Nat.add_comm]
    · simp [h]

/-- The pairs of a join, counted from either side. -/
theorem sum_length_matching (xs ys : List (α × ℕ)) :
    (xs.map fun x => (matching key ys (key x.1)).length).sum =
      (ys.map fun y => (matching key xs (key y.1)).length).sum := by
  induction xs with
  | nil => simp [matching]
  | cons x xs ih =>
    have hsplit : ∀ y : α × ℕ, (matching key (x :: xs) (key y.1)).length =
        (if key x.1 = key y.1 then 1 else 0) + (matching key xs (key y.1)).length := by
      intro y
      by_cases hkey : key x.1 = key y.1
      · rw [matching, List.filter_cons_of_pos (by simpa using hkey), if_pos hkey, List.length_cons,
          Nat.add_comm, matching]
      · rw [matching, List.filter_cons_of_neg (by simpa using hkey), if_neg hkey, Nat.zero_add,
          matching]
    have hfirst : (matching key ys (key x.1)).length =
        (ys.map fun y => if key x.1 = key y.1 then 1 else 0).sum := by
      rw [sum_indicator, matching]
      simp only [eq_comm]
    rw [List.map_cons, List.sum_cons, ih, hfirst]
    simp only [hsplit, List.sum_map_add]

theorem KeyedOnce.sum_length {xs ys : List (α × ℕ)} (hx : xs.Nodup) (h : KeyedOnce key xs ys) :
    (ys.map fun y => (matching key xs (key y.1)).length).sum =
      (ys.filter fun y => (latestBefore key xs y).isSome).length := by
  have hones : (ys.map fun y => (matching key xs (key y.1)).length) =
      ys.map fun y => if (latestBefore key xs y).isSome then 1 else 0 := by
    apply List.map_congr_left
    intro y hy
    rw [(matching_eq_iff hx).mpr h y hy]
    cases latestBefore key xs y <;> rfl
  rw [hones, sum_indicator]
  simp

theorem KeyedOnce.matching_eq [DecidableEq α] {xs ys : List (α × ℕ)} (hx : xs.Nodup)
    (h : KeyedOnce key xs ys) {x : α × ℕ} (hmem : x ∈ xs) :
    matching key ys (key x.1) = ys.filter fun y => latestBefore key xs y = some x := by
  apply List.filter_congr
  intro y hy
  rw [decide_eq_decide]
  constructor
  · intro hkey
    obtain ⟨hlt, honce⟩ := h y hy x hmem hkey.symm
    exact (matching_of_once hx hmem hkey.symm hlt honce).2
  · intro hlatest
    exact (latestBefore_eq_some hlatest).2.1.symm

end ComputerNetworks.KeyedJoin
