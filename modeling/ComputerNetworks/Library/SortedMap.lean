import Mathlib

/-! # Finite maps kept in key order

The `std::map` of the standard library as a value: an association list whose keys strictly
increase, which is also the order in which an iterator visits the entries. Because the
representation is canonical, two maps with the same lookups are equal (`ext_find`).
The last section is about maps filled by a sequence of assignments: the last writer of a key wins
(`find?_assignAll`), and the assignments of a map's own entries rebuild the map (`assignAll_toList`).
-/
namespace ComputerNetworks
set_option autoImplicit false

variable {α β : Type} [LinearOrder α]

/-- An association list whose keys strictly increase. -/
structure SortedMap (α β : Type) [LinearOrder α] where
  toList : List (α × β)
  sorted : toList.Pairwise fun a b => a.1 < b.1

namespace SortedMap

instance [DecidableEq β] : DecidableEq (SortedMap α β) := fun m m' =>
  decidable_of_iff (m.toList = m'.toList) (by cases m; cases m'; simp)

instance : EmptyCollection (SortedMap α β) := ⟨⟨[], List.Pairwise.nil⟩⟩

@[simp] theorem toList_empty : (∅ : SortedMap α β).toList = [] := rfl

/-! ## Insertion -/

def insertList (k : α) (v : β) : List (α × β) → List (α × β)
  | [] => [(k, v)]
  | (k', v') :: rest =>
      if k < k' then (k, v) :: (k', v') :: rest
      else if k = k' then (k, v) :: rest
      else (k', v') :: insertList k v rest

theorem mem_insertList {k : α} {v : β} {p : α × β} {l : List (α × β)}
    (h : p ∈ insertList k v l) : p = (k, v) ∨ p ∈ l := by
  induction l with
  | nil => simpa [insertList] using h
  | cons q rest ih =>
    obtain ⟨k', v'⟩ := q
    rw [insertList] at h
    split_ifs at h with hlt heq
    · simpa using h
    · cases List.mem_cons.mp h with
      | inl h => exact Or.inl h
      | inr h => exact Or.inr (List.mem_cons_of_mem _ h)
    · cases List.mem_cons.mp h with
      | inl h => exact Or.inr (h ▸ List.mem_cons_self)
      | inr h => exact (ih h).imp_right (List.mem_cons_of_mem _)

theorem insertList_sorted (k : α) (v : β) {l : List (α × β)}
    (h : l.Pairwise fun a b => a.1 < b.1) : (insertList k v l).Pairwise fun a b => a.1 < b.1 := by
  induction l with
  | nil => simp [insertList]
  | cons q rest ih =>
    obtain ⟨k', v'⟩ := q
    obtain ⟨hhead, htail⟩ := List.pairwise_cons.mp h
    rw [insertList]
    split_ifs with hlt heq
    · refine List.pairwise_cons.mpr ⟨?_, h⟩
      intro p hp
      obtain rfl | hp := List.mem_cons.mp hp
      · exact hlt
      · exact hlt.trans (hhead p hp)
    · subst heq
      exact List.pairwise_cons.mpr ⟨hhead, htail⟩
    · refine List.pairwise_cons.mpr ⟨?_, ih htail⟩
      intro p hp
      obtain rfl | hp := mem_insertList hp
      · exact lt_of_le_of_ne (not_lt.mp hlt) (Ne.symm heq)
      · exact hhead p hp

/-- `m[k] = v`. -/
def insert (m : SortedMap α β) (k : α) (v : β) : SortedMap α β :=
  ⟨insertList k v m.toList, insertList_sorted k v m.sorted⟩

/-! ## Lookup -/

def findList (k : α) : List (α × β) → Option β
  | [] => none
  | (k', v) :: rest => if k = k' then some v else findList k rest

def find? (m : SortedMap α β) (k : α) : Option β := findList k m.toList

@[simp] theorem find?_empty (k : α) : (∅ : SortedMap α β).find? k = none := rfl

theorem findList_insertList (k j : α) (v : β) (l : List (α × β)) :
    findList j (insertList k v l) = if j = k then some v else findList j l := by
  induction l with
  | nil => simp [insertList, findList]
  | cons q rest ih =>
    obtain ⟨k', v'⟩ := q
    rw [insertList]
    by_cases hlt : k < k'
    · simp [hlt, findList]
    · by_cases heq : k = k'
      · subst heq
        by_cases hj : j = k <;> simp [findList, hj]
      · rw [if_neg hlt, if_neg heq, findList, ih]
        by_cases hj : j = k
        · subst hj
          simp [heq]
        · simp [findList, hj]

@[simp] theorem find?_insert (m : SortedMap α β) (k j : α) (v : β) :
    (m.insert k v).find? j = if j = k then some v else m.find? j :=
  findList_insertList k j v m.toList

theorem findList_eq_some {l : List (α × β)} (h : l.Pairwise fun a b => a.1 < b.1) (k : α) (v : β) :
    findList k l = some v ↔ (k, v) ∈ l := by
  induction l with
  | nil => simp [findList]
  | cons q rest ih =>
    obtain ⟨k', v'⟩ := q
    obtain ⟨hhead, htail⟩ := List.pairwise_cons.mp h
    by_cases hk : k = k'
    · subst hk
      have hnot : (k, v) ∉ rest := fun hm => lt_irrefl k (hhead _ hm)
      simp [findList, hnot, eq_comm]
    · simp [findList, hk, ih htail]

theorem find?_eq_some (m : SortedMap α β) (k : α) (v : β) :
    m.find? k = some v ↔ (k, v) ∈ m.toList := findList_eq_some m.sorted k v

theorem find?_ne_none (m : SortedMap α β) (k : α) :
    m.find? k ≠ none ↔ k ∈ m.toList.map Prod.fst := by
  rw [Option.ne_none_iff_exists']
  simp [find?_eq_some]

theorem keys_nodup (m : SortedMap α β) : (m.toList.map Prod.fst).Nodup :=
  List.Pairwise.map _ (fun _ _ => ne_of_lt) m.sorted

theorem ext_find {m m' : SortedMap α β} (h : ∀ k, m.find? k = m'.find? k) : m = m' := by
  have hmem : ∀ p, p ∈ m.toList ↔ p ∈ m'.toList := by
    rintro ⟨k, v⟩
    rw [← find?_eq_some, ← find?_eq_some, h]
  have hperm : m.toList.Perm m'.toList :=
    (List.perm_ext_iff_of_nodup m.keys_nodup.of_map m'.keys_nodup.of_map).mpr hmem
  have hlist : m.toList = m'.toList :=
    hperm.eq_of_pairwise (fun _ _ _ _ hab hba => absurd hab (not_lt.mpr hba.le)) m.sorted m'.sorted
  cases m
  cases m'
  congr

/-! ## Sequences of assignments -/

def assignAll (m : SortedMap α β) (ws : List (α × β)) : SortedMap α β :=
  ws.foldl (fun m w => m.insert w.1 w.2) m

@[simp] theorem assignAll_nil (m : SortedMap α β) : m.assignAll [] = m := rfl

@[simp] theorem assignAll_cons (m : SortedMap α β) (w : α × β) (ws : List (α × β)) :
    m.assignAll (w :: ws) = (m.insert w.1 w.2).assignAll ws := rfl

theorem assignAll_append (m : SortedMap α β) (ws ws' : List (α × β)) :
    m.assignAll (ws ++ ws') = (m.assignAll ws).assignAll ws' := by
  simp [assignAll]

theorem find?_assignAll (m : SortedMap α β) (ws : List (α × β)) (k : α) :
    (m.assignAll ws).find? k =
      ((ws.reverse.find? fun w => k = w.1).map Prod.snd).or (m.find? k) := by
  induction ws generalizing m with
  | nil => simp
  | cons w ws ih =>
    rw [assignAll_cons, ih, find?_insert, List.reverse_cons, List.find?_append]
    by_cases hk : k = w.1
    · cases ws.reverse.find? (fun w => decide (k = w.1)) <;> simp [hk]
    · cases ws.reverse.find? (fun w => decide (k = w.1)) <;> simp [hk]

theorem find?_assignAll_ne_none (ws : List (α × β)) (k : α) :
    (assignAll ∅ ws).find? k ≠ none ↔ k ∈ ws.map Prod.fst := by
  rw [find?_assignAll, find?_empty, Option.or_none, Ne, Option.map_eq_none_iff, List.find?_eq_none]
  simp [eq_comm]

theorem find?_assignAll_of_notMem {m : SortedMap α β} {ws : List (α × β)} {k : α}
    (h : k ∉ ws.map Prod.fst) : (m.assignAll ws).find? k = m.find? k := by
  rw [find?_assignAll, List.find?_eq_none.mpr, Option.map_none, Option.none_or]
  intro w hw hdec
  rw [of_decide_eq_true hdec] at h
  exact h (List.mem_map_of_mem (List.mem_reverse.mp hw))

/-- Assignments to other keys make no difference, wherever they stand. -/
theorem find?_assignAll_middle {m : SortedMap α β} {ws us vs : List (α × β)} {k : α}
    (h : k ∉ us.map Prod.fst) :
    (m.assignAll (ws ++ us ++ vs)).find? k = (m.assignAll (ws ++ vs)).find? k := by
  rw [assignAll_append, assignAll_append, assignAll_append, find?_assignAll _ vs,
    find?_assignAll _ vs, find?_assignAll_of_notMem h]

theorem find?_assignAll_const (m : SortedMap α β) (ks : List α) (v : β) (k : α) :
    (m.assignAll (ks.map fun j => (j, v))).find? k = if k ∈ ks then some v else m.find? k := by
  induction ks generalizing m with
  | nil => simp
  | cons j ks ih =>
    rw [List.map_cons, assignAll_cons, ih, find?_insert]
    by_cases hk : k ∈ ks
    · simp [hk]
    · simp [hk]

/-- Assigning the entries of a map, in any order, to the empty map rebuilds the map. -/
theorem assignAll_toList (m : SortedMap α β) : assignAll ∅ m.toList = m := by
  apply ext_find
  intro k
  rw [find?_assignAll, find?_empty, Option.or_none]
  cases hm : m.find? k with
  | none =>
    have hk : k ∉ m.toList.map Prod.fst := fun h => (m.find?_ne_none k).mpr h hm
    have hnone : m.toList.reverse.find? (fun w => decide (k = w.1)) = none := by
      rw [List.find?_eq_none]
      intro w hw hdec
      exact hk (by rw [of_decide_eq_true hdec]; exact List.mem_map_of_mem (List.mem_reverse.mp hw))
    simp [hnone]
  | some v =>
    have hmem := (m.find?_eq_some k v).mp hm
    obtain ⟨w, hw⟩ : ∃ w, m.toList.reverse.find? (fun w => decide (k = w.1)) = some w := by
      rw [← Option.isSome_iff_exists, List.find?_isSome]
      exact ⟨(k, v), List.mem_reverse.mpr hmem, by simp⟩
    have hkw : k = w.1 := by simpa using List.find?_some hw
    have hwmem : (k, w.2) ∈ m.toList := by
      rw [hkw]
      exact List.mem_reverse.mp (List.mem_of_find?_eq_some hw)
    have hv : m.find? k = some w.2 := (m.find?_eq_some k w.2).mpr hwmem
    rw [hm] at hv
    rw [hw]
    exact hv.symm

end SortedMap

end ComputerNetworks
