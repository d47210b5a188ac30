import ComputerNetworks.Library.CStrings

/-! # Which files are offered, `list_of_files` of `FIS_Server.cpp`

The file index server goes through its directory and looks for names with one of four suffixes. For
each name it goes back from the end to a dot, without a bound, and copies what follows into a buffer of
100 bytes, without a bound either. `scanRight_iff` says for which directories both stay inside the name
and the buffer; then the four suffixes decide. The insertion into the table is left unfinished in the
source, so the entries that get there are all there is to say about it.
-/
namespace ComputerNetworks.FileTransfer
set_option autoImplicit false

def dot : Byte := 46

/-- A legal file name. -/
structure FileName where
  val : Str
  ne_nil : val ≠ []
  no_nul : (0 : Byte) ∉ val
  no_slash : (47 : Byte) ∉ val
  length_le : val.length ≤ 255

structure Dirent where
  d_type : UInt8
  d_name : FileName

def txt : Str := bytes ".txt"

def cpp : Str := bytes ".cpp"

def py : Str := bytes ".py"

def c_prog : Str := bytes ".c"

/-- The two tests before the scan: the name is not hidden, and the entry no directory. -/
def Dirent.considered (dir : Dirent) : Bool := dir.d_name.val.head? ≠ some dot && dir.d_type ≠ 4

/-- `while(d_name[i] != '.') i--`, from `i = n - 1` on. Without a dot it reads `d_name[-1]`. -/
def scanBack (d_name : Str) : ℕ → Option ℕ
  | 0 => none
  | i + 1 => if d_name[i]? = some dot then some i else scanBack d_name i

def typeLen : ℕ := 100

/-- `while(i < len)` with the terminator behind it, where `file_type` holds what was copied so far. A
byte behind the end of the buffer is undefined. -/
def copyType (file_type : Str) : Str → Option Str
  | [] => if file_type.length < typeLen then some file_type else none
  | b :: rest =>
      if file_type.length < typeLen then copyType (file_type ++ [b]) rest else none

def fileType (d_name : Str) : Option Str := do
  let i ← scanBack d_name d_name.length
  copyType [] (d_name.drop i)

/-- The four `strcmp` calls. There is no NUL byte in `file_type`. -/
def offered (file_type : Str) : Bool :=
  file_type = txt || file_type = cpp || file_type = py || file_type = c_prog

/-- The entries that reach `table.insert`, of those that `readdir` returns. -/
def readdirLoop : List Dirent → Option (List Dirent)
  | [] => some []
  | dir :: rest =>
      if dir.considered then do
        let file_type ← fileType dir.d_name.val
        let inserted ← readdirLoop rest
        some (if offered file_type then dir :: inserted else inserted)
      else readdirLoop rest

/-- A directory that cannot be opened is not read. -/
def listOfFiles (d : Option (List Dirent)) : Option (List Dirent) := d.elim (some []) readdirLoop

/-! ## What the scan is for -/

/-- The entry is considered, and the text from the last dot of its name to the end is one of the four
suffixes. -/
def Dirent.Selected (dir : Dirent) : Prop :=
  dir.considered = true ∧ ∃ ext ∈ [txt, cpp, py, c_prog], strrchr dot dir.d_name.val = some ext

instance instDecidableSelected (dir : Dirent) : Decidable dir.Selected := by
  unfold Dirent.Selected
  infer_instance

def IsLastDot (d_name : Str) (i : ℕ) : Prop :=
  d_name[i]? = some dot ∧ ∀ k, i < k → d_name[k]? ≠ some dot

/-- In a directory with these entries, every scan ends at the last dot, every copy fits and is the text
from there to the end, and the selected entries are those that reach the insertion. -/
structure ScanRight (entries : List Dirent) : Prop where
  ends : ∀ dir ∈ entries, dir.considered = true →
    ∃ i, scanBack dir.d_name.val dir.d_name.val.length = some i ∧ IsLastDot dir.d_name.val i
  fits : ∀ dir ∈ entries, dir.considered = true →
    ∃ ext, strrchr dot dir.d_name.val = some ext ∧ fileType dir.d_name.val = some ext
  selects : listOfFiles (some entries) = some (entries.filter fun dir => dir.Selected)

/-- The name has a dot, and the text from the last one to the end leaves room for a terminator in
`file_type`. -/
def Dirent.Safe (dir : Dirent) : Prop :=
  ∃ ext, strrchr dot dir.d_name.val = some ext ∧ ext.length < typeLen

/-! ## One name -/

theorem scanBack_of_notMem {d_name : Str} (h : dot ∉ d_name) (n : ℕ) : scanBack d_name n = none := by
  induction n with
  | zero => rfl
  | succ i ih =>
    have hother : d_name[i]? ≠ some dot := fun hdot => h (List.mem_of_getElem? hdot)
    rw [scanBack, if_neg hother, ih]

/-- From any place behind the last dot the scan goes back to it. -/
theorem scanBack_append {rest : Str} (h : dot ∉ rest) (stem : Str) (k : ℕ) :
    scanBack (stem ++ dot :: rest) (stem.length + 1 + k) = some stem.length := by
  induction k with
  | zero =>
    have hdot : (stem ++ dot :: rest)[stem.length]? = some dot := by simp
    rw [Nat.add_zero, scanBack, if_pos hdot]
  | succ k ih =>
    have hother : (stem ++ dot :: rest)[stem.length + 1 + k]? ≠ some dot := by
      rw [List.getElem?_append_right (by omega)]
      have hplace : stem.length + 1 + k - stem.length = k + 1 := by omega
      rw [hplace, List.getElem?_cons_succ]
      exact fun hdot => h (List.mem_of_getElem? hdot)
    rw [← Nat.add_assoc, scanBack, if_neg hother, ih]

theorem scanBack_length {rest : Str} (h : dot ∉ rest) (stem : Str) :
    scanBack (stem ++ dot :: rest) (stem ++ dot :: rest).length = some stem.length := by
  have hlen : (stem ++ dot :: rest).length = stem.length + 1 + rest.length := by
    rw [List.length_append, List.length_cons]
    omega
  rw [hlen]
  exact scanBack_append h stem rest.length

theorem isLastDot_append {rest : Str} (h : dot ∉ rest) (stem : Str) :
    IsLastDot (stem ++ dot :: rest) stem.length := by
  refine ⟨by simp, fun k hk hdot => ?_⟩
  rw [List.getElem?_append_right hk.le] at hdot
  obtain ⟨j, hj⟩ : ∃ j, k - stem.length = j + 1 := ⟨k - stem.length - 1, by omega⟩
  rw [hj, List.getElem?_cons_succ] at hdot
  exact h (List.mem_of_getElem? hdot)

theorem copyType_eq (file_type rest : Str) :
    copyType file_type rest =
      if (file_type ++ rest).length < typeLen then some (file_type ++ rest) else none := by
  induction rest generalizing file_type with
  | nil => rw [copyType, List.append_nil]
  | cons b rest ih =>
    rw [copyType, ih, List.append_assoc, List.singleton_append]
    by_cases hfits : file_type.length < typeLen
    · rw [if_pos hfits]
    · have hlong : ¬ (file_type ++ b :: rest).length < typeLen := by
        rw [List.length_append]
        omega
      rw [if_neg hfits, if_neg hlong]

/-- The copy is the text from the last dot on, if there is one and it leaves room for the
terminator. -/
theorem fileType_eq (d_name : Str) :
    fileType d_name =
      (strrchr dot d_name).bind fun ext => if ext.length < typeLen then some ext else none := by
  obtain ⟨hnone, hext⟩ | ⟨stem, rest, hrest, rfl, hext⟩ := strrchr_cases dot d_name
  · rw [fileType, scanBack_of_notMem hnone, hext]
    rfl
  · have hdrop : (stem ++ dot :: rest).drop stem.length = dot :: rest := List.drop_left
    rw [hext, fileType, scanBack_length hrest]
    simp only [Option.bind_eq_bind, Option.bind_some, hdrop]
    rw [copyType_eq, List.nil_append]

theorem fileType_eq_some_iff (d_name ext : Str) :
    fileType d_name = some ext ↔ strrchr dot d_name = some ext ∧ ext.length < typeLen := by
  rw [fileType_eq, Option.bind_eq_some_iff]
  constructor
  · rintro ⟨ext', hext, hcopy⟩
    split_ifs at hcopy with hfits
    obtain rfl := Option.some.inj hcopy
    exact ⟨hext, hfits⟩
  · rintro ⟨hext, hfits⟩
    exact ⟨ext, hext, if_pos hfits⟩

theorem ends_of_strrchr {d_name ext : Str} (h : strrchr dot d_name = some ext) :
    ∃ i, scanBack d_name d_name.length = some i ∧ IsLastDot d_name i := by
  obtain ⟨-, hnone⟩ | ⟨stem, rest, hrest, rfl, -⟩ := strrchr_cases dot d_name
  · rw [hnone] at h
    cases h
  · exact ⟨stem.length, scanBack_length hrest stem, isLastDot_append hrest stem⟩

theorem offered_iff (file_type : Str) : offered file_type = true ↔ file_type ∈ [txt, cpp, py, c_prog] := by
  simp [offered, or_assoc]

/-! ## Whole directories -/

theorem selected_iff {dir : Dirent} {ext : Str} (hdir : dir.considered = true)
    (hext : strrchr dot dir.d_name.val = some ext) : dir.Selected ↔ offered ext = true := by
  rw [offered_iff]
  constructor
  · rintro ⟨-, ext', hmem, hext'⟩
    obtain rfl := Option.some.inj (hext'.symm.trans hext)
    exact hmem
  · intro hmem
    exact ⟨hdir, ext, hmem, hext⟩

theorem readdirLoop_eq {entries : List Dirent}
    (h : ∀ dir ∈ entries, dir.considered = true → dir.Safe) :
    readdirLoop entries = some (entries.filter fun dir => dir.Selected) := by
  induction entries with
  | nil => rfl
  | cons dir rest ih =>
    obtain ⟨hdir, hrest⟩ := List.forall_mem_cons.mp h
    rw [readdirLoop, ih hrest]
    by_cases hconsidered : dir.considered = true
    · obtain ⟨ext, hext, hfits⟩ := hdir hconsidered
      have hcopy := (fileType_eq_some_iff _ _).mpr ⟨hext, hfits⟩
      have hselected := selected_iff hconsidered hext
      simp only [if_pos hconsidered, hcopy, Option.bind_eq_bind, Option.bind_some]
      by_cases hoffered : offered ext = true
      · rw [if_pos hoffered, List.filter_cons_of_pos (by simpa using hselected.mpr hoffered)]
      · have hnot : ¬ dir.Selected := fun hs => hoffered (hselected.mp hs)
        rw [if_neg hoffered, List.filter_cons_of_neg (by simpa using hnot)]
    · have hnot : ¬ dir.Selected := fun hs => hconsidered hs.1
      rw [if_neg hconsidered, List.filter_cons_of_neg (by simpa using hnot)]

/-- The scan of a directory is right exactly if every name that is not hidden and no directory's has a
dot, and at most 99 bytes from the last one to the end. -/
theorem scanRight_iff (entries : List Dirent) :
    ScanRight entries ↔ ∀ dir ∈ entries, dir.considered = true → dir.Safe := by
  constructor
  · intro hright dir hmem hconsidered
    obtain ⟨ext, -, hcopy⟩ := hright.fits dir hmem hconsidered
    exact ⟨ext, (fileType_eq_some_iff _ _).mp hcopy⟩
  · intro hsafe
    refine ⟨fun dir hmem hconsidered => ?_, fun dir hmem hconsidered => ?_, readdirLoop_eq hsafe⟩
    · obtain ⟨ext, hext, -⟩ := hsafe dir hmem hconsidered
      exact ends_of_strrchr hext
    · obtain ⟨ext, hext, hfits⟩ := hsafe dir hmem hconsidered
      exact ⟨ext, hext, (fileType_eq_some_iff _ _).mpr ⟨hext, hfits⟩⟩

/-! ## A name without a dot -/

def makefile : Dirent := ⟨8, bytes "Makefile", by decide +kernel, by decide +kernel,
  by decide +kernel, by decide +kernel⟩

/-- The scan of `Makefile` goes past the start of the name. -/
theorem no_dot_underruns : ¬ ∀ entries : List Dirent, ScanRight entries := by
  intro h
  obtain ⟨i, hscan, -⟩ := (h [makefile]).ends makefile List.mem_cons_self (by decide +kernel)
  have hnone : scanBack (bytes "Makefile") (bytes "Makefile").length = none := by decide +kernel
  cases hnone.symm.trans hscan

end ComputerNetworks.FileTransfer
