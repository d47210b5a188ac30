import Mathlib

/-! # Byte strings, C strings and string streams

The part of the C and C++ libraries that text protocols over sockets rest on, on plain lists of
bytes: NUL-terminated strings and bounded copies, `int` values and their decimal text, the
`istringstream` with its state bits and `getline`, and substring search. A copy past the end of a
buffer is undefined behaviour and is `none`.
-/
namespace ComputerNetworks
set_option autoImplicit false

abbrev Byte := UInt8

abbrev Str := List Byte

instance instLinearOrderByte : LinearOrder UInt8 where
  le_refl := UInt8.le_refl
  le_trans _ _ _ := UInt8.le_trans
  lt_iff_le_not_ge a b := by
    simp only [UInt8.lt_iff_toNat_lt, UInt8.le_iff_toNat_le]
    omega
  le_antisymm _ _ := UInt8.le_antisymm
  le_total := UInt8.le_total
  toDecidableLE := inferInstance
  toDecidableLT := inferInstance
  toDecidableEq := inferInstance

def bytes (s : String) : Str := s.toList.map fun c => c.toNat.toUInt8

def space : Byte := 32

def isspace (b : Byte) : Bool := b = 32 || (9 ≤ b && b ≤ 13)

/-- A word as `cin >> s` yields it and a file system can hold it: not empty, no whitespace and no
NUL byte. -/
structure Word where
  val : Str
  ne_nil : val ≠ []
  no_space : ∀ b ∈ val, isspace b = false
  no_nul : (0 : Byte) ∉ val

theorem Word.space_notMem (w : Word) : space ∉ w.val := fun h => by
  have := w.no_space _ h
  simp [isspace, space] at this

/-! ## C strings -/

/-- What a `const char *` argument denotes: the bytes before the first NUL. -/
def cstr (s : Str) : Str := s.takeWhile (· ≠ 0)

theorem cstr_of_notMem {s : Str} (h : (0 : Byte) ∉ s) : cstr s = s := by
  rw [cstr, List.takeWhile_eq_self_iff]
  intro b hb
  simpa using fun h0 : b = 0 => h (h0 ▸ hb)

theorem nul_notMem_cstr (s : Str) : (0 : Byte) ∉ cstr s := by
  intro h
  simpa using List.mem_takeWhile_imp h

theorem cstr_length_le (s : Str) : (cstr s).length ≤ s.length :=
  (List.takeWhile_prefix _).length_le

/-- `strcpy` of `s` into a buffer of `cap` bytes; the terminator has to fit as well. -/
def strcpy (cap : ℕ) (s : Str) : Option Str :=
  if (cstr s).length < cap then some (cstr s) else none

theorem strcpy_of_lt {cap : ℕ} {s : Str} (h0 : (0 : Byte) ∉ s) (h : s.length < cap) :
    strcpy cap s = some s := by
  rw [strcpy, cstr_of_notMem h0, if_pos h]

theorem strcpy_eq_some {cap : ℕ} {s t : Str} (h : strcpy cap s = some t) : t = cstr s := by
  rw [strcpy] at h
  split_ifs at h
  exact (Option.some.inj h).symm

/-- `strrchr(s, b)`: the text from the last `b` on. -/
def strrchr (b : Byte) : Str → Option Str
  | [] => none
  | c :: s => (strrchr b s).or (if c = b then some (c :: s) else none)

theorem strrchr_of_notMem {b : Byte} {s : Str} (h : b ∉ s) : strrchr b s = none := by
  induction s with
  | nil => rfl
  | cons c s ih =>
    rw [List.mem_cons, not_or] at h
    rw [strrchr, ih h.2, if_neg (Ne.symm h.1)]
    rfl

theorem strrchr_append {b : Byte} {rest : Str} (h : b ∉ rest) (stem : Str) :
    strrchr b (stem ++ b :: rest) = some (b :: rest) := by
  induction stem with
  | nil =>
    rw [List.nil_append, strrchr, strrchr_of_notMem h, if_pos rfl]
    rfl
  | cons c stem ih =>
    rw [List.cons_append, strrchr, ih]
    rfl

theorem strrchr_cases (b : Byte) (s : Str) :
    (b ∉ s ∧ strrchr b s = none) ∨
      ∃ stem rest, b ∉ rest ∧ s = stem ++ b :: rest ∧ strrchr b s = some (b :: rest) := by
  by_cases h : b ∈ s
  · obtain ⟨w, r, hw, hsplit⟩ := List.eq_append_cons_of_mem (List.mem_reverse.mpr h)
    have hs : s = r.reverse ++ b :: w.reverse := by
      rw [← List.reverse_reverse s, hw]
      simp
    have hrest : b ∉ w.reverse := fun hmem => hsplit (List.mem_reverse.mp hmem)
    exact Or.inr ⟨r.reverse, w.reverse, hrest, hs, hs ▸ strrchr_append hrest _⟩
  · exact Or.inl ⟨h, strrchr_of_notMem h⟩

/-! ## Decimal text of an `int` -/

def toInt (x : ℤ) : ℤ := x.bmod (2 ^ 32)

theorem toInt_of_mem {x : ℤ} (hlo : -2 ^ 31 ≤ x) (hhi : x < 2 ^ 31) : toInt x = x := by
  rw [toInt, Int.bmod_eq_of_le] <;> omega

theorem toInt_bounds (x : ℤ) : -2 ^ 31 ≤ toInt x ∧ toInt x < 2 ^ 31 := by
  have hlo := Int.le_bmod (x := x) (m := 2 ^ 32) (by norm_num)
  have hhi := Int.bmod_lt (x := x) (m := 2 ^ 32) (by norm_num)
  constructor <;> simp only [toInt] <;> omega

def isdigit (b : Byte) : Bool := 48 ≤ b && b ≤ 57

def digitValue (b : Byte) : ℕ := b.toNat - 48

def decimalValue (s : Str) : ℕ := s.foldl (fun n b => 10 * n + digitValue b) 0

def splitSign : Str → Bool × Str
  | 45 :: r => (true, r)
  | 43 :: r => (false, r)
  | t => (false, t)

/-- `strtol` in base ten, `none` when there is no digit to convert. Values outside `long` are
clamped to its ends. -/
def strtol (s : Str) : Option ℤ :=
  let signed := splitSign (s.dropWhile isspace)
  let ds := signed.2.takeWhile isdigit
  if ds = [] then none
  else
    let v : ℤ := if signed.1 then -(decimalValue ds : ℤ) else decimalValue ds
    some (max (-2 ^ 63) (min (2 ^ 63 - 1) v))

def atoi (s : Str) : ℤ := toInt ((strtol (cstr s)).getD 0)

/-- `sscanf(s, "%d", &x)`: `none` leaves `x` as it was. -/
def sscanfD (s : Str) : Option ℤ := (strtol (cstr s)).map toInt

/-- `inet_addr` on four decimal fields: the first is the least significant byte of the result. -/
def dottedQuad (s : Str) : UInt32 :=
  ((s.splitOn 46).map fun f => (decimalValue f).toUInt32).foldr (fun q acc => (acc <<< 8) ||| q) 0

def decimalDigits (n : ℕ) : Str :=
  if n = 0 then [48] else (Nat.digits 10 n).reverse.map fun d => (48 + d).toUInt8

def sprintfD (x : ℤ) : Str :=
  if x < 0 then 45 :: decimalDigits x.natAbs else decimalDigits x.natAbs

theorem digitValue_digit {d : ℕ} (h : d < 10) : digitValue (48 + d).toUInt8 = d := by
  have : (48 + d) % 256 = 48 + d := Nat.mod_eq_of_lt (by omega)
  simp [digitValue, this]

theorem isdigit_digit {d : ℕ} (h : d < 10) : isdigit (48 + d).toUInt8 = true := by
  have : (48 + d) % 256 = 48 + d := Nat.mod_eq_of_lt (by omega)
  simp [isdigit, UInt8.le_iff_toNat_le, this]
  omega

theorem decimalValue_decimalDigits (n : ℕ) : decimalValue (decimalDigits n) = n := by
  rw [decimalDigits]
  split_ifs with h
  · subst h; rfl
  · have hfold : ∀ ds : List ℕ, (∀ d ∈ ds, d < 10) →
        (ds.map fun d => (48 + d).toUInt8).foldr (fun b n => 10 * n + digitValue b) 0 =
          Nat.ofDigits 10 ds := by
      intro ds hds
      induction ds with
      | nil => rfl
      | cons d ds ih =>
        rw [List.map_cons, List.foldr_cons, ih fun x hx => hds x (List.mem_cons_of_mem _ hx),
          digitValue_digit (hds d List.mem_cons_self), Nat.ofDigits_cons]
        omega
    rw [decimalValue, List.map_reverse, List.foldl_reverse,
      hfold _ fun d hd => Nat.digits_lt_base (by norm_num) hd, Nat.ofDigits_digits]

theorem isdigit_of_mem_decimalDigits {n : ℕ} {b : Byte} (h : b ∈ decimalDigits n) :
    isdigit b = true := by
  rw [decimalDigits] at h
  split_ifs at h with hn
  · rw [List.mem_singleton.mp h]; rfl
  · obtain ⟨d, hd, rfl⟩ := List.mem_map.mp h
    exact isdigit_digit (Nat.digits_lt_base (by norm_num) (List.mem_reverse.mp hd))

theorem decimalDigits_ne_nil (n : ℕ) : decimalDigits n ≠ [] := by
  rw [decimalDigits]
  split_ifs with h
  · simp
  · simpa using Nat.digits_ne_nil_iff_ne_zero.mpr h

theorem isdigit_bounds {b : Byte} (h : isdigit b = true) : 48 ≤ b.toNat ∧ b.toNat ≤ 57 := by
  simpa [isdigit, UInt8.le_iff_toNat_le] using h

theorem isspace_of_isdigit {b : Byte} (h : isdigit b = true) : isspace b = false := by
  obtain ⟨hlo, hhi⟩ := isdigit_bounds h
  have h32 : b ≠ 32 := fun e => by rw [e] at hlo; simp at hlo
  simp only [isspace, h32, decide_false, Bool.false_or, UInt8.le_iff_toNat_le]
  simp
  omega

theorem splitSign_cons {c : Byte} (h : isdigit c = true) (r : Str) :
    splitSign (c :: r) = (false, c :: r) := by
  have hb := isdigit_bounds h
  have h45 : c ≠ 45 := by rintro rfl; simp at hb
  have h43 : c ≠ 43 := by rintro rfl; simp at hb
  rw [splitSign] <;> simp [h45, h43]

theorem cstr_decimalDigits_append (n : ℕ) (rest : Str) :
    cstr (decimalDigits n ++ rest) = decimalDigits n ++ cstr rest := by
  rw [cstr, List.takeWhile_append_of_pos]
  · rfl
  · intro b hb
    have := isdigit_bounds (isdigit_of_mem_decimalDigits hb)
    simp only [ne_eq, decide_not, Bool.not_eq_eq_eq_not, Bool.not_true, decide_eq_false_iff_not]
    rintro rfl
    simp at this

theorem strtol_decimalDigits {n : ℕ} (hn : n < 2 ^ 63) (rest : Str)
    (hrest : ∀ b ∈ rest.head?, isdigit b = false) :
    strtol (decimalDigits n ++ rest) = some (n : ℤ) := by
  obtain ⟨c, cs, hc⟩ := List.exists_cons_of_ne_nil (decimalDigits_ne_nil n)
  have hcd : isdigit c = true := isdigit_of_mem_decimalDigits (n := n) (by simp [hc])
  have hdrop : (decimalDigits n ++ rest).dropWhile isspace = decimalDigits n ++ rest := by
    rw [hc, List.cons_append, List.dropWhile_cons, isspace_of_isdigit hcd]
    rfl
  have hsign : splitSign (decimalDigits n ++ rest) = (false, decimalDigits n ++ rest) := by
    rw [hc, List.cons_append, splitSign_cons hcd]
  have htake : (decimalDigits n ++ rest).takeWhile isdigit = decimalDigits n := by
    rw [List.takeWhile_append_of_pos fun b hb => isdigit_of_mem_decimalDigits hb]
    cases hr : rest with
    | nil => simp
    | cons b r =>
      have := hrest b (by rw [hr]; rfl)
      simp [this]
  have hclamp : max (-2 ^ 63) (min (2 ^ 63 - 1) (n : ℤ)) = n := by omega
  simp only [strtol, hdrop, hsign, htake, decimalDigits_ne_nil, if_false,
    decimalValue_decimalDigits, Bool.false_eq_true, hclamp]

theorem atoi_decimalDigits {n : ℕ} (hn : n < 2 ^ 31) {rest : Str}
    (hrest : ∀ b ∈ (cstr rest).head?, isdigit b = false) :
    atoi (decimalDigits n ++ rest) = n := by
  rw [atoi, cstr_decimalDigits_append, strtol_decimalDigits (by omega) _ hrest, Option.getD_some]
  exact toInt_of_mem (by omega) (by exact_mod_cast hn)

theorem sscanfD_sprintfD {n : ℕ} (hn : n < 2 ^ 31) : sscanfD (sprintfD n) = some (n : ℤ) := by
  have hprint : sprintfD n = decimalDigits n ++ [] := by simp [sprintfD]
  rw [sscanfD, hprint, cstr_decimalDigits_append,
    strtol_decimalDigits (by omega) (cstr []) (by simp [cstr]), Option.map_some]
  exact congrArg some (toInt_of_mem (by omega) (by exact_mod_cast hn))

/-! ## Numbers that end in a text -/

/-- A byte that ends a number wherever it stands: no blank, no sign and no digit. -/
def stopsNumber (d : Byte) : Bool := !isspace d && !isdigit d && d ≠ 43 && d ≠ 45

theorem splitSign_append_cons {d : Byte} (hd : stopsNumber d) (t r : Str) :
    splitSign (t ++ d :: r) = ((splitSign t).1, (splitSign t).2 ++ d :: r) := by
  simp only [stopsNumber, Bool.and_eq_true, decide_eq_true_eq] at hd
  obtain ⟨⟨-, hplus⟩, hminus⟩ := hd
  cases t with
  | nil => 
    rw [List.nil_append]
    unfold splitSign
    split <;> simp_all
  | cons b t =>
    rw [List.cons_append]
    unfold splitSign
    split <;> simp_all

theorem dropWhile_append_cons {p : Byte → Bool} {d : Byte} (hd : p d = false) (t r : Str) :
    (t ++ d :: r).dropWhile p = t.dropWhile p ++ d :: r := by
  rw [List.dropWhile_append]
  split_ifs with h
  · rw [List.isEmpty_iff.mp h, List.dropWhile_cons_of_neg (by simp [hd]), List.nil_append]
  · rfl

theorem takeWhile_append_cons {p : Byte → Bool} {d : Byte} (hd : p d = false) (t r : Str) :
    (t ++ d :: r).takeWhile p = t.takeWhile p := by
  induction t with
  | nil => rw [List.nil_append, List.takeWhile_cons_of_neg (by simp [hd]), List.takeWhile_nil]
  | cons b t ih =>
    rw [List.cons_append, List.takeWhile_cons, List.takeWhile_cons, ih]

theorem strtol_append_cons {d : Byte} (hd : stopsNumber d) (t r : Str) :
    strtol (t ++ d :: r) = strtol t := by
  have hstop := hd
  simp only [stopsNumber, Bool.and_eq_true, Bool.not_eq_true'] at hstop
  unfold strtol
  rw [dropWhile_append_cons hstop.1.1.1]
  simp only [splitSign_append_cons hd, takeWhile_append_cons hstop.1.1.2]

theorem atoi_append_cons {d : Byte} (hd : stopsNumber d) {t r : Str} (h0 : (0 : Byte) ∉ t ++ d :: r) :
    atoi (t ++ d :: r) = atoi t := by
  have ht : (0 : Byte) ∉ t := fun h => h0 (List.mem_append_left _ h)
  rw [atoi, cstr_of_notMem h0, strtol_append_cons hd, atoi, cstr_of_notMem ht]

/-! ## String streams -/

/-- An `istringstream`: what is left to read, and the end-of-file and failure bits. -/
structure IStringStream where
  rest : Str
  eof : Bool
  fail : Bool

def istringstream (s : Str) : IStringStream := ⟨s, false, false⟩

/-- `getline(iss, str, delim)`. A stream that is not good fails and leaves `str` as it was;
otherwise `str` receives the bytes up to the delimiter, which is read and dropped, or up to the
end, and reading nothing at all is a failure. -/
def getline (iss : IStringStream) (str : Str) (delim : Byte) : Str × IStringStream :=
  if iss.eof || iss.fail then (str, { iss with fail := true })
  else
    match iss.rest.dropWhile (· ≠ delim) with
    | [] => (iss.rest, ⟨[], true, iss.rest.isEmpty⟩)
    | _ :: rest => (iss.rest.takeWhile (· ≠ delim), ⟨rest, false, false⟩)

theorem takeWhile_ne_append {d : Byte} {w : Str} (h : d ∉ w) (r : Str) :
    (w ++ d :: r).takeWhile (· ≠ d) = w := by
  rw [List.takeWhile_append_of_pos]
  · simp
  · intro b hb
    simpa using fun e : b = d => h (e ▸ hb)

theorem dropWhile_ne_append {d : Byte} {w : Str} (h : d ∉ w) (r : Str) :
    (w ++ d :: r).dropWhile (· ≠ d) = d :: r := by
  rw [List.dropWhile_append_of_pos]
  · simp
  · intro b hb
    simpa using fun e : b = d => h (e ▸ hb)

theorem dropWhile_ne_of_notMem {d : Byte} {w : Str} (h : d ∉ w) : w.dropWhile (· ≠ d) = [] := by
  rw [List.dropWhile_eq_nil_iff]
  intro b hb
  simpa using fun e : b = d => h (e ▸ hb)

theorem splitOn_cases (d : Byte) (s : Str) :
    (d ∉ s ∧ s.splitOn d = [s]) ∨
      ∃ w r, d ∉ w ∧ s = w ++ d :: r ∧ s.splitOn d = w :: r.splitOn d := by
  by_cases h : d ∈ s
  · obtain ⟨w, r, rfl, hw⟩ := List.eq_append_cons_of_mem h
    exact Or.inr ⟨w, r, hw, rfl, List.splitOn_append_cons_self_of_not_mem hw r⟩
  · exact Or.inl ⟨h, List.splitOn_eq_singleton h⟩

theorem getline_append {d : Byte} {w : Str} (h : d ∉ w) (r str : Str) :
    getline ⟨w ++ d :: r, false, false⟩ str d = (w, ⟨r, false, false⟩) := by
  simp only [getline, Bool.or_self, Bool.false_eq_true, if_false, dropWhile_ne_append h,
    takeWhile_ne_append h]

theorem getline_notMem {d : Byte} {w : Str} (h : d ∉ w) (str : Str) :
    getline ⟨w, false, false⟩ str d = (w, ⟨[], true, w.isEmpty⟩) := by
  simp only [getline, Bool.or_self, Bool.false_eq_true, if_false, dropWhile_ne_of_notMem h]

theorem getline_last {d : Byte} {w : Str} (h : d ∉ w) (hne : w ≠ []) (str : Str) :
    getline ⟨w, false, false⟩ str d = (w, ⟨[], true, false⟩) := by
  rw [getline_notMem h]
  simp [hne]

@[simp] theorem getline_nil (d : Byte) (str : Str) :
    getline ⟨[], false, false⟩ str d = ([], ⟨[], true, true⟩) := rfl

@[simp] theorem getline_eof (d : Byte) (r str : Str) (fail : Bool) :
    getline ⟨r, true, fail⟩ str d = (str, ⟨r, true, true⟩) := rfl

theorem getline_eq_or_prefix (iss : IStringStream) (str : Str) (d : Byte) :
    (getline iss str d).1 = str ∨ (getline iss str d).1 <+: iss.rest := by
  rw [getline]
  split_ifs
  · exact Or.inl rfl
  · split
    · exact Or.inr (List.prefix_refl _)
    · exact Or.inr (List.takeWhile_prefix _)

theorem getline_subset {iss : IStringStream} {str : Str} {d b : Byte}
    (h : b ∈ (getline iss str d).1) : b ∈ str ∨ b ∈ iss.rest := by
  cases getline_eq_or_prefix iss str d with
  | inl heq => exact Or.inl (heq ▸ h)
  | inr hpre => exact Or.inr (hpre.subset h)

theorem getline_rest_suffix (iss : IStringStream) (str : Str) (d : Byte) :
    (getline iss str d).2.rest <:+ iss.rest := by
  rw [getline]
  split_ifs
  · exact List.suffix_refl _
  · split
    · exact List.nil_suffix
    · rename_i heq
      exact (heq ▸ List.suffix_cons _ _).trans (List.dropWhile_suffix _)

theorem getline_length (iss : IStringStream) (d : Byte) :
    (getline iss [] d).1.length + (getline iss [] d).2.rest.length ≤ iss.rest.length := by
  rw [getline]
  split_ifs
  · simp
  · split
    · simp
    · rename_i heq
      have hsplit := congrArg List.length (List.takeWhile_append_dropWhile (p := (· ≠ d)) (l := iss.rest))
      rw [heq] at hsplit
      simp only [List.length_append, List.length_cons] at hsplit ⊢
      omega

theorem delim_notMem_getline (iss : IStringStream) (d : Byte) : d ∉ (getline iss [] d).1 := by
  rw [getline]
  split_ifs
  · simp
  · split
    · rename_i heq
      intro h
      simpa using List.dropWhile_eq_nil_iff.mp heq d h
    · intro h
      simpa using List.mem_takeWhile_imp h

/-! ## Substring search -/

/-- A text without the separator occurs in a separated pair exactly if it occurs in one half. -/
theorem infix_append_cons_iff {d : Byte} {w : Str} (h : d ∉ w) (x y : Str) :
    w <:+: x ++ d :: y ↔ w <:+: x ∨ w <:+: y := by
  constructor
  · rintro ⟨p, s, hps⟩
    obtain ⟨a, hx, -⟩ | ⟨a, hpw, hdy⟩ := List.append_eq_append_iff.mp hps
    · exact Or.inl ⟨p, a, hx.symm⟩
    · cases a with
      | nil => exact Or.inl ⟨p, [], by simpa using hpw⟩
      | cons c a =>
        obtain ⟨rfl, hy⟩ : d = c ∧ y = a ++ s := by simpa using hdy
        rw [List.append_cons] at hpw
        obtain ⟨b, hxb, hw⟩ | ⟨b, hpb, hab⟩ := List.append_eq_append_iff.mp hpw
        · obtain rfl | ⟨b', c, rfl⟩ := List.eq_nil_or_concat b
          · exact Or.inr ⟨[], s, by simpa [hy] using hw⟩
          · rw [List.concat_eq_append, ← List.append_assoc] at hxb
            have hc := (List.append_inj' hxb rfl).2
            simp only [List.cons.injEq, and_true] at hc
            exact absurd (by rw [hw, hc]; simp) h
        · exact Or.inr ⟨b, s, by rw [hy, hab]⟩
  · rintro (⟨p, s, rfl⟩ | ⟨p, s, rfl⟩)
    · exact ⟨p, s ++ d :: y, by simp⟩
    · exact ⟨x ++ d :: p, s, by simp⟩

theorem infix_take_append_cons_iff {d : Byte} {w : Str} (h : d ∉ w) (hne : w ≠ []) (x y : Str)
    (k : ℕ) :
    w <:+: (x ++ d :: y).take k ↔ w <:+: x.take k ∨ w <:+: y.take (k - x.length - 1) := by
  cases Nat.lt_or_ge x.length k with
  | inl hk =>
    have htake : (x ++ d :: y).take k = x ++ d :: y.take (k - x.length - 1) := by
      obtain ⟨j, hj⟩ : ∃ j, k - x.length = j + 1 := ⟨k - x.length - 1, by omega⟩
      rw [List.take_append, List.take_of_length_le hk.le, hj, List.take_succ_cons,
        Nat.add_sub_cancel]
    rw [htake, infix_append_cons_iff h, List.take_of_length_le hk.le]
  | inr hk =>
    have htake : (x ++ d :: y).take k = x.take k := by
      rw [List.take_append, Nat.sub_eq_zero_of_le hk, List.take_zero, List.append_nil]
    have hzero : k - x.length - 1 = 0 := by omega
    rw [htake, hzero, List.take_zero, List.infix_nil]
    exact ⟨Or.inl, fun hor => hor.resolve_right hne⟩

end ComputerNetworks
