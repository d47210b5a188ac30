import ComputerNetworks.Library.SortedMap

/-! # Consistent hashing on a ring of identifiers

A ring is a list of node identifiers. The home of a hash value is the first position that holds the
least identifier not below it, or position 0 when every identifier is smaller (the wrap-around).
A directory, one map from names to values, is spread over the ring by sending every assignment to
the home of its name: `find?_shardTable` says that the shards partition the directory, so that a
lookup at the home of a name is a lookup in the directory and a lookup anywhere else finds nothing.
`home_insert` is what the scheme is for: an identifier that joins a sorted ring takes over values of the
position behind it only.
-/
namespace ComputerNetworks.ConsistentHash
set_option autoImplicit false

variable {κ : Type} [LinearOrder κ]

/-- `id` is the least identifier of the ring that is not below `h`. -/
def Covers (ids : List κ) (h id : κ) : Prop := h ≤ id ∧ ∀ x ∈ ids, h ≤ x → id ≤ x

instance (ids : List κ) (h id : κ) : Decidable (Covers ids h id) :=
  inferInstanceAs (Decidable (h ≤ id ∧ ∀ x ∈ ids, h ≤ x → id ≤ x))

/-- Position `i` is the first with the least identifier not below `h`, or 0 when there is none. -/
def IsHome (ids : List κ) (h : κ) (i : ℕ) : Prop :=
  (∃ id, ids[i]? = some id ∧ Covers ids h id ∧ ∀ j < i, ids[j]? ≠ some id) ∨
    (i = 0 ∧ ∀ x ∈ ids, x < h)

def home (ids : List κ) (h : κ) : ℕ :=
  (ids.findIdx? fun id => decide (Covers ids h id)).getD 0

theorem Covers.unique {ids : List κ} {h a b : κ} (ha : Covers ids h a) (hb : Covers ids h b)
    (hma : a ∈ ids) (hmb : b ∈ ids) : a = b :=
  le_antisymm (ha.2 b hmb hb.1) (hb.2 a hma ha.1)

theorem exists_covers {ids : List κ} {h : κ} (hex : ∃ x ∈ ids, h ≤ x) :
    ∃ id ∈ ids, Covers ids h id := by
  obtain ⟨x, hx, hhx⟩ := hex
  obtain ⟨id, hid, hmin⟩ := Finset.exists_min_image
    ((ids.filter fun x => decide (h ≤ x)).toFinset) id ⟨x, by simp [hx, hhx]⟩
  simp only [List.mem_toFinset, List.mem_filter, decide_eq_true_eq, id_eq] at hid hmin
  exact ⟨id, hid.1, hid.2, fun y hy hhy => hmin y ⟨hy, hhy⟩⟩

theorem findIdx?_unique {γ : Type} {l : List γ} {p : γ → Bool} {x : γ} (hx : x ∈ l)
    (hp : p x = true) (huniq : ∀ y ∈ l, p y = true → y = x) :
    ∃ k, l.findIdx? p = some k ∧ l[k]? = some x ∧ ∀ j < k, l[j]? ≠ some x := by
  obtain ⟨k, hk⟩ : ∃ k, l.findIdx? p = some k :=
    ⟨_, List.findIdx?_eq_some_of_exists ⟨x, hx, hp⟩⟩
  obtain ⟨hlt, hpk, hfirst⟩ := List.findIdx?_eq_some_iff_getElem.mp hk
  have hxk : l[k] = x := huniq _ (List.getElem_mem hlt) hpk
  refine ⟨k, hk, ?_, ?_⟩
  · rw [List.getElem?_eq_getElem hlt, hxk]
  · intro j hj hjx
    obtain ⟨hjlt, hjeq⟩ := List.getElem?_eq_some_iff.mp hjx
    have hpj := hfirst j hj
    rw [hjeq] at hpj
    exact hpj hp

/-- A covering identifier pins the home: it is unique, and so is the first position with it. -/
theorem isHome_iff_of_covers {ids : List κ} {h id : κ} (hid : id ∈ ids) (hcov : Covers ids h id)
    {i : ℕ} : IsHome ids h i ↔ i = home ids h := by
  obtain ⟨k, hk, hkid, hbefore⟩ := findIdx?_unique (p := fun id => decide (Covers ids h id)) hid
    (decide_eq_true hcov) fun x hx hcx => (of_decide_eq_true hcx).unique hcov hx hid
  unfold home
  rw [hk, Option.getD_some]
  constructor
  · rintro (⟨id', hi, hcov', hfirst⟩ | ⟨-, hall⟩)
    · obtain rfl : id' = id := hcov'.unique hcov (List.mem_of_getElem? hi) hid
      obtain hik | hik | hik := lt_trichotomy i k
      · exact absurd hi (hbefore i hik)
      · exact hik
      · exact absurd hkid (hfirst k hik)
    · exact absurd (hall id hid) (not_lt.mpr hcov.1)
  · rintro rfl
    exact Or.inl ⟨id, hkid, hcov, hbefore⟩

/-- The wrap-around: nothing covers a value above all identifiers. -/
theorem isHome_iff_of_forall_lt {ids : List κ} {h : κ} (hall : ∀ x ∈ ids, x < h) {i : ℕ} :
    IsHome ids h i ↔ i = home ids h := by
  have hnone : ids.findIdx? (fun id => decide (Covers ids h id)) = none := by
    rw [List.findIdx?_eq_none_iff]
    intro x hx
    simpa using fun hc : Covers ids h x => absurd (hall x hx) (not_lt.mpr hc.1)
  unfold home
  rw [hnone, Option.getD_none]
  constructor
  · rintro (⟨id, hi, hcov, -⟩ | ⟨hi, -⟩)
    · exact absurd (hall id (List.mem_of_getElem? hi)) (not_lt.mpr hcov.1)
    · exact hi
  · intro hi
    exact Or.inr ⟨hi, hall⟩

theorem isHome_iff {ids : List κ} {h : κ} {i : ℕ} : IsHome ids h i ↔ i = home ids h := by
  by_cases hex : ∃ x ∈ ids, h ≤ x
  · obtain ⟨id, hid, hcov⟩ := exists_covers hex
    exact isHome_iff_of_covers hid hcov
  · exact isHome_iff_of_forall_lt fun x hx => not_le.mp fun hle => hex ⟨x, hx, hle⟩

theorem isHome_home (ids : List κ) (h : κ) : IsHome ids h (home ids h) := isHome_iff.mpr rfl

theorem home_lt {ids : List κ} (hne : ids ≠ []) (h : κ) : home ids h < ids.length := by
  obtain ⟨id, hi, -⟩ | ⟨hi, -⟩ := isHome_home ids h
  · exact (List.getElem?_eq_some_iff.mp hi).1
  · rw [hi]
    exact List.length_pos_iff.mpr hne

/-! ## One more identifier -/

/-- How many identifiers are below `h`. -/
def below (ids : List κ) (h : κ) : ℕ := ids.countP fun x => x < h

theorem sorted_split {ids : List κ} (hsorted : ids.Pairwise (· ≤ ·)) (h : κ) :
    ∃ pre post, ids = pre ++ post ∧ (∀ x ∈ pre, x < h) ∧ ∀ x ∈ post, h ≤ x := by
  induction ids with
  | nil => exact ⟨[], [], rfl, by simp, by simp⟩
  | cons y ids ih =>
    obtain ⟨hle, hsorted⟩ := List.pairwise_cons.mp hsorted
    rcases lt_or_ge y h with hy | hy
    · obtain ⟨pre, post, rfl, hpre, hpost⟩ := ih hsorted
      exact ⟨y :: pre, post, rfl, List.forall_mem_cons.mpr ⟨hy, hpre⟩, hpost⟩
    · exact ⟨[], y :: ids, rfl, by simp,
        List.forall_mem_cons.mpr ⟨hy, fun x hx => hy.trans (hle x hx)⟩⟩

theorem below_append {pre post : List κ} {h : κ} (hpre : ∀ x ∈ pre, x < h)
    (hpost : ∀ x ∈ post, h ≤ x) : below (pre ++ post) h = pre.length := by
  have hin : pre.countP (fun x => decide (x < h)) = pre.length :=
    List.countP_eq_length.mpr fun x hx => decide_eq_true (hpre x hx)
  have hout : post.countP (fun x => decide (x < h)) = 0 :=
    List.countP_eq_zero.mpr fun x hx => by simpa using hpost x hx
  rw [below, List.countP_append, hin, hout, Nat.add_zero]

/-- In a sorted ring the home is the position behind the smaller identifiers, counted around the ring. -/
theorem home_eq_below_mod {ids : List κ} (hsorted : ids.Pairwise (· ≤ ·)) (h : κ) :
    home ids h = below ids h % ids.length := by
  obtain ⟨pre, post, rfl, hpre, hpost⟩ := sorted_split hsorted h
  rw [below_append hpre hpost, eq_comm, ← isHome_iff]
  cases post with
  | nil =>
    rw [List.append_nil, Nat.mod_self]
    exact Or.inr ⟨rfl, hpre⟩
  | cons y post =>
    have hle := (List.pairwise_cons.mp (List.pairwise_append.mp hsorted).2.1).1
    rw [Nat.mod_eq_of_lt (by simp)]
    refine Or.inl ⟨y, by simp, ⟨hpost y List.mem_cons_self, fun x hx hhx => ?_⟩, fun j hj hjy => ?_⟩
    · rcases List.mem_append.mp hx with hx | hx
      · exact absurd (hpre x hx) (not_lt.mpr hhx)
      · rcases List.mem_cons.mp hx with rfl | hx
        · exact le_refl _
        · exact hle x hx
    · rw [List.getElem?_append_left hj] at hjy
      exact absurd (hpre y (List.mem_of_getElem? hjy)) (not_lt.mpr (hpost y List.mem_cons_self))

/-- Where position `i` goes when one more element comes to position `p`. -/
def skip (p i : ℕ) : ℕ := if i < p then i else i + 1

theorem getElem?_skip {γ : Type} (pre post : List γ) (x : γ) (i : ℕ) :
    (pre ++ x :: post)[skip pre.length i]? = (pre ++ post)[i]? := by
  rw [skip]
  split_ifs with hi
  · rw [List.getElem?_append_left hi, List.getElem?_append_left hi]
  · rw [List.getElem?_append_right (by omega), List.getElem?_append_right (by omega),
      show i + 1 - pre.length = i - pre.length + 1 by omega, List.getElem?_cons_succ]

theorem getElem?_new {γ : Type} (pre post : List γ) (x : γ) :
    (pre ++ x :: post)[pre.length]? = some x := by simp

/-- A new identifier takes values from the position behind it, and leaves all others where they are. -/
theorem home_insert {pre post : List κ} {x : κ} (hsorted : (pre ++ x :: post).Pairwise (· < ·)) (h : κ) :
    home (pre ++ x :: post) h = skip pre.length (home (pre ++ post) h) ∨
      home (pre ++ x :: post) h = pre.length ∧
        home (pre ++ post) h = pre.length % (pre ++ post).length := by
  have hsorted' : (pre ++ post).Pairwise (· < ·) :=
    hsorted.sublist ((List.sublist_cons_self x post).append_left pre)
  have hpre : ∀ y ∈ pre, y < x := fun y hy =>
    (List.pairwise_append.mp hsorted).2.2 y hy x List.mem_cons_self
  have hpost : ∀ y ∈ post, x < y :=
    (List.pairwise_cons.mp (List.pairwise_append.mp hsorted).2.1).1
  rw [home_eq_below_mod (hsorted.imp le_of_lt), home_eq_below_mod (hsorted'.imp le_of_lt)]
  have hlength : (pre ++ x :: post).length = (pre ++ post).length + 1 := by simp; omega
  have hcount : below (pre ++ x :: post) h = below (pre ++ post) h + if x < h then 1 else 0 := by
    simp only [below, List.countP_append, List.countP_cons, decide_eq_true_eq]
    omega
  have hle : below (pre ++ post) h ≤ (pre ++ post).length := List.countP_le_length
  rw [hlength, hcount]
  split_ifs with hx
  · -- the smaller identifiers and the new one are below `h`
    have hge : pre.length ≤ below (pre ++ post) h := by
      have hall : pre.countP (fun y => decide (y < h)) = pre.length :=
        List.countP_eq_length.mpr fun y hy => decide_eq_true ((hpre y hy).trans hx)
      rw [below, List.countP_append, hall]
      omega
    rcases Nat.lt_or_ge (below (pre ++ post) h) (pre ++ post).length with hlt | hge'
    · left
      rw [Nat.mod_eq_of_lt (by omega), Nat.mod_eq_of_lt hlt, skip, if_neg (by omega)]
    · have hall : below (pre ++ post) h = (pre ++ post).length := by omega
      rw [hall, Nat.mod_self, Nat.mod_self, skip]
      split_ifs with hpos
      · exact Or.inl rfl
      · have hzero : pre.length = 0 := by omega
        exact Or.inr ⟨hzero.symm, by rw [hzero, Nat.zero_mod]⟩
  · -- the new identifier and the greater ones are not
    have hpost' : below (pre ++ post) h ≤ pre.length := by
      have hnone : post.countP (fun y => decide (y < h)) = 0 :=
        List.countP_eq_zero.mpr fun y hy => by
          simpa using (not_lt.mp hx).trans (hpost y hy).le
      rw [below, List.countP_append, hnone, Nat.add_zero]
      exact List.countP_le_length
    rw [Nat.add_zero, Nat.mod_eq_of_lt (by omega)]
    rcases Nat.lt_or_ge (below (pre ++ post) h) pre.length with hlt | hge
    · left
      have hlt' : below (pre ++ post) h < (pre ++ post).length := by
        rw [List.length_append]
        omega
      rw [Nat.mod_eq_of_lt hlt', skip, if_pos hlt]
    · have heq : below (pre ++ post) h = pre.length := by omega
      exact Or.inr ⟨heq, by rw [heq]⟩

/-! ## A directory spread over the ring -/

section Shards
variable {α β : Type} [LinearOrder α] (ids : List κ) (hash : α → κ) (ws : List (α × β))

def shard (i : ℕ) : List (α × β) := ws.filter fun w => home ids (hash w.1) = i

def shardTable (i : ℕ) : SortedMap α β := SortedMap.assignAll ∅ (shard ids hash ws i)

theorem find?_reverse_shard (i : ℕ) (a : α) :
    (shard ids hash ws i).reverse.find? (fun w => a = w.1) =
      if home ids (hash a) = i then ws.reverse.find? (fun w => a = w.1) else none := by
  unfold shard
  rw [← List.filter_reverse, List.find?_filter]
  split_ifs with h
  · congr 1
    funext w
    by_cases ha : a = w.1
    · simp [← ha, h]
    · simp [ha]
  · rw [List.find?_eq_none]
    intro w _
    by_cases ha : a = w.1
    · simp [← ha, h]
    · simp [ha]

theorem find?_shardTable (i : ℕ) (a : α) :
    (shardTable ids hash ws i).find? a =
      if home ids (hash a) = i then (SortedMap.assignAll ∅ ws).find? a else none := by
  rw [shardTable, SortedMap.find?_assignAll, find?_reverse_shard, SortedMap.find?_assignAll]
  split_ifs <;> simp

end Shards

end ComputerNetworks.ConsistentHash
