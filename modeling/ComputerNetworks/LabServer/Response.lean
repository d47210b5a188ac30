import ComputerNetworks.Library.CStrings

/-! # Answering a request, `server1.cpp` and `server2.cpp`

Both servers treat what they have read of a request alike: they copy it into a buffer of 100 bytes,
ask `stat` for the size of the file of that name, and write a header of `BUFFER` bytes with the size
in decimal, followed by the file in the pieces in which they read it.
-/
namespace ComputerNetworks.LabServer
set_option autoImplicit false

def BUFFER : ℕ := 1024

/-- `strcpy(file_name, buffer)`, where `buffer` was cleared before the read. -/
def copyName (buffer : Str) : Option Str := strcpy 100 buffer

/-- What the file system holds under a name: the size `stat` reports, and the pieces in which the
file is read. A file that cannot be opened gives no piece. -/
structure Found where
  st_size : ℕ
  chunks : List Str
  deriving DecidableEq

/-- `sprintf(buffer, "%d\n", file_size)` in a cleared buffer. -/
def sizeHeader (file_size : ℤ) : Str :=
  let text := sprintfD file_size ++ [10]
  text ++ List.replicate (BUFFER - text.length) 0

/-- The `write` calls of an answer, in order. The copy loop writes the count of its last `read` as
well, which is no byte. -/
def response (file : Found) : List Str :=
  sizeHeader (toInt file.st_size) :: (file.chunks ++ [[]])

theorem response_ne_nil (file : Found) : response file ≠ [] := List.cons_ne_nil _ _

theorem flatten_response (file : Found) :
    (response file).flatten = sizeHeader (toInt file.st_size) ++ file.chunks.flatten := by
  simp [response]

theorem length_decimalDigits_le {n k : ℕ} (hk : 0 < k) (h : n < 10 ^ k) :
    (decimalDigits n).length ≤ k := by
  rw [decimalDigits]
  split_ifs with hn
  · exact hk
  · rw [List.length_map, List.length_reverse]
    exact (Nat.digits_length_le_iff (by norm_num) n).mpr h

theorem length_sizeHeader (x : ℤ) : (sizeHeader (toInt x)).length = BUFFER := by
  obtain ⟨hlo, hhi⟩ := toInt_bounds x
  have habs : (toInt x).natAbs < 10 ^ 10 := by omega
  have hdigits := length_decimalDigits_le (by norm_num) habs
  have htext : (sprintfD (toInt x) ++ [10]).length ≤ BUFFER := by
    rw [List.length_append, List.length_singleton, sprintfD, BUFFER]
    split_ifs
    · rw [List.length_cons]
      omega
    · omega
  rw [sizeHeader, List.length_append, List.length_replicate]
  omega

theorem atoi_sizeHeader {n : ℕ} (h : n < 2 ^ 31) : atoi (sizeHeader n) = n := by
  have hprint : sprintfD (n : ℤ) = decimalDigits n := by
    rw [sprintfD, if_neg (by omega), Int.natAbs_natCast]
  rw [sizeHeader, hprint]
  show atoi (decimalDigits n ++ [10] ++ _) = n
  rw [List.append_assoc]
  refine atoi_decimalDigits h fun b hb => ?_
  obtain rfl : b = 10 := by simpa [cstr] using hb.symm
  rfl

end ComputerNetworks.LabServer
