import ComputerNetworks.LabServer.GetFile

/-! # The progress `get_file` prints

The size of a file reaches the client as an `int` in decimal, and the client prints
`(total*100)/file_size` after every `read`, the last one included, which returns 0. `progress_iff`
says for which sizes all of this arithmetic is right.
-/
namespace ComputerNetworks.LabServer
set_option autoImplicit false

/-- `total` at every evaluation of `(total*100)/file_size`. -/
def totals : ℤ → List Str → List ℤ
  | total, [] => [total]
  | total, seg :: segs =>
      let total := toInt (total + seg.length)
      total :: totals total segs

/-- The size the client takes from the header for a file of `st_size` bytes. -/
def announced (st_size : ℕ) : ℤ := atoi (sizeHeader (toInt st_size))

/-- The arithmetic of a download of `content`, read in the pieces `segs`, is safe and right. -/
structure Progress (content : Str) (segs : List Str) : Prop where
  size : announced content.length = content.length
  nonzero : announced content.length ≠ 0
  product : ∀ total ∈ totals 0 segs, -2 ^ 31 ≤ total * 100 ∧ total * 100 < 2 ^ 31
  percents : ∃ dl, getFile (sizeHeader (toInt content.length) :: segs) = some dl ∧
    dl.percents.Pairwise (· ≤ ·) ∧ (∀ p ∈ dl.percents, 0 ≤ p ∧ p ≤ 100) ∧
    dl.percents.getLast? = some 100

theorem announced_of_lt {n : ℕ} (h : n < 2 ^ 31) : announced n = n := by
  have hint : toInt n = n := toInt_of_mem (by omega) (by omega)
  rw [announced, hint, atoi_sizeHeader h]

theorem announced_eq_iff (n : ℕ) : announced n = n ↔ n < 2 ^ 31 := by
  refine ⟨fun h => ?_, announced_of_lt⟩
  have hbound : announced n < 2 ^ 31 := by
    unfold announced atoi
    exact (toInt_bounds _).2
  omega

/-! ## The running total -/

theorem totals_bounds (segs : List Str) {total : ℤ} (hpos : 0 ≤ total)
    (hsum : total + segs.flatten.length < 2 ^ 31) :
    (∀ x ∈ totals total segs, total ≤ x ∧ x ≤ total + segs.flatten.length) ∧
    (totals total segs).Pairwise (· ≤ ·) ∧
    (totals total segs).getLast? = some (total + segs.flatten.length) := by
  induction segs generalizing total with
  | nil => simp [totals]
  | cons seg segs ih =>
    rw [List.flatten_cons, List.length_append, Nat.cast_add, ← add_assoc] at hsum ⊢
    have hnext : toInt (total + seg.length) = total + seg.length :=
      toInt_of_mem (by omega) (by omega)
    have hpos' : 0 ≤ total + (seg.length : ℤ) := by omega
    obtain ⟨hall, hsorted, hlast⟩ := ih hpos' hsum
    rw [totals, hnext]
    refine ⟨?_, ?_, ?_⟩
    · intro x hx
      obtain rfl | hx := List.mem_cons.mp hx
      · omega
      · have := hall x hx
        omega
    · exact List.pairwise_cons.mpr ⟨fun x hx => (hall x hx).1, hsorted⟩
    · rw [List.getLast?_cons, hlast, Option.getD_some]

/-! ## The percentages -/

theorem percent_of_le {total size : ℤ} (hpos : 0 ≤ total) (hle : total ≤ size) (hsize : 0 < size)
    (hfits : size * 100 < 2 ^ 31) : percent total size = some (total * 100 / size) := by
  have hproduct : toInt (total * 100) = total * 100 := toInt_of_mem (by omega) (by omega)
  have hquot : total * 100 / size ≤ total * 100 := Int.ediv_le_self _ (by omega)
  rw [percent, hproduct, Int.tdiv_eq_ediv_of_nonneg (by omega)]
  exact if_neg (by omega)

theorem receive_percents {size : ℤ} (hsize : 0 < size) (hfits : size * 100 < 2 ^ 31)
    {segs : List Str} {total : ℤ} (h : ∀ x ∈ totals total segs, 0 ≤ x ∧ x ≤ size) (dl : Download) :
    ∃ r, receive size segs total dl = some r ∧
      r.percents = dl.percents ++ (totals total segs).map fun x => x * 100 / size := by
  induction segs generalizing total dl with
  | nil =>
    obtain ⟨hpos, hle⟩ := h total (List.mem_singleton_self _)
    refine ⟨{ dl with percents := dl.percents ++ [total * 100 / size] }, ?_, rfl⟩
    rw [receive, percent_of_le hpos hle hsize hfits]
    rfl
  | cons seg segs ih =>
    rw [totals] at h
    obtain ⟨⟨hpos, hle⟩, hrest⟩ := List.forall_mem_cons.mp h
    obtain ⟨r, hr, hpercents⟩ := ih hrest
      { dl with
        percents := dl.percents ++ [toInt (total + seg.length) * 100 / size]
        content := dl.content ++ seg }
    refine ⟨r, ?_, ?_⟩
    · simp only [receive]
      rw [percent_of_le hpos hle hsize hfits, Option.bind_some, hr]
    · rw [hpercents, totals, List.map_cons, List.append_assoc, List.singleton_append]

theorem quotient_bounds {x size : ℤ} (hpos : 0 ≤ x) (hle : x ≤ size) (hsize : 0 < size) :
    0 ≤ x * 100 / size ∧ x * 100 / size ≤ 100 := by
  refine ⟨Int.ediv_nonneg (by omega) hsize.le, ?_⟩
  exact Int.ediv_le_of_le_mul hsize (by omega)

theorem getFile_cons (first : Str) (segs : List Str) :
    getFile (first :: segs) = receive (atoi first) segs 0 ⟨atoi first, [], []⟩ := rfl

/-- The announced size is the file's, no division traps, no product leaves the range of `int` and the
percentages rise to 100 exactly for the files with at least one byte and fewer than 21474837. -/
theorem progress_iff {content : Str} (S : Segmentation BUFFER content) :
    Progress content S.segments ↔ content ≠ [] ∧ content.length * 100 < 2 ^ 31 := by
  have hflatten : S.segments.flatten.length = content.length := by rw [S.flatten_eq]
  constructor
  · rintro ⟨hsize, hnonzero, hproduct, -⟩
    have hlt := (announced_eq_iff _).mp hsize
    refine ⟨?_, ?_⟩
    · rintro rfl
      exact hnonzero hsize
    · -- no total wraps around before the product has, so the last one is the size
      obtain ⟨-, -, hlast⟩ := totals_bounds S.segments (le_refl 0) (by omega)
      rw [hflatten, zero_add] at hlast
      have hall := (hproduct _ (List.mem_of_getLast? hlast)).2
      omega
  · rintro ⟨hne, hfits⟩
    have hpos : 0 < content.length := List.length_pos_iff.mpr hne
    have hlt : content.length < 2 ^ 31 := by omega
    have hsize := announced_of_lt hlt
    obtain ⟨hall, hsorted, hlast⟩ := totals_bounds S.segments (le_refl 0) (by omega)
    rw [hflatten, zero_add] at hall hlast
    refine ⟨hsize, by omega, ?_, ?_⟩
    · intro x hx
      have := hall x hx
      omega
    · obtain ⟨dl, hdl, hpercents⟩ := receive_percents (by omega) (by omega) hall
        ⟨content.length, [], []⟩
      rw [List.nil_append] at hpercents
      have hget : getFile (sizeHeader (toInt content.length) :: S.segments) = some dl := by
        have hatoi : atoi (sizeHeader (toInt content.length)) = content.length := hsize
        rw [getFile_cons]
        rw [hatoi]
        exact hdl
      refine ⟨dl, hget, ?_, ?_, ?_⟩
      · rw [hpercents, List.pairwise_map]
        refine hsorted.imp fun hle => ?_
        exact Int.ediv_le_ediv (by omega) (by omega)
      · rw [hpercents]
        intro p hp
        obtain ⟨x, hx, rfl⟩ := List.mem_map.mp hp
        exact quotient_bounds (hall x hx).1 (hall x hx).2 (by omega)
      · rw [hpercents, List.getLast?_map, hlast, Option.map_some]
        exact congrArg some (Int.mul_ediv_cancel_left _ (by omega))

/-! ## The empty file -/

def emptyContent : Segmentation BUFFER ([] : Str) := ⟨[], by simp, by simp, rfl⟩

/-- The announced size 0 is divided by after the first `read`. -/
theorem empty_file_traps :
    ¬ ∀ (content : Str) (S : Segmentation BUFFER content), Progress content S.segments := by
  intro h
  have hnonzero := (h [] emptyContent).nonzero
  exact hnonzero (announced_of_lt (by decide))

end ComputerNetworks.LabServer
