import ComputerNetworks.Library.CStrings

/-! # Simple commands of a shell

How a POSIX shell reads a command line that is one simple command: the bytes are split into words at
blanks, quotes and backslashes keep bytes from being special, `$` and the backquote introduce
expansions, and the words are then expanded to the arguments. A line with an operator, whether it
separates commands or redirects one, or with a second command on another line, is more than one simple
command. What an expansion extends over and what the words expand to depends on the shell and its
environment, and is a parameter; the first word is taken to be no keyword. `literal_of_exact` says
which texts a shell takes literally: those that consist of ordinary bytes alone.
-/
namespace ComputerNetworks.ShellCommand
set_option autoImplicit false

/-! ## Words -/

/-- What a word consists of: bytes that stand for themselves, quoted or not, and expansions. -/
inductive Piece where
  | char (b : Byte) (quoted : Bool)
  | expansion (text : Str) (quoted : Bool)
  deriving DecidableEq

abbrev Word := List Piece

def chars (s : Str) : Word := s.map fun b => .char b false

def Piece.char? : Piece → Option Byte
  | .char b _ => some b
  | .expansion _ _ => none

def removeQuotes (w : Word) : Str := w.filterMap Piece.char?

/-- The patterns of pathname expansion, `*`, `?` and `[`, and the expansions with `$` and the
backquote. -/
def Piece.expands : Piece → Bool
  | .char b quoted => !quoted && [42, 63, 91].contains b
  | .expansion _ _ => true

/-- A word that may expand to something else than its own bytes; a `~` does so at its start. -/
def Active (w : Word) : Prop :=
  (∃ p ∈ w, p.expands = true) ∨ w.head? = some (.char 126 false)

/-- A shell in some environment. `extent b rest` is how many bytes lie between the byte `b`, which
introduces an expansion, and the byte of `rest` that ends it. -/
structure Shell where
  extent : Byte → Str → Option ℕ
  expand : Word → List Str
  expand_inactive : ∀ w, ¬ Active w → expand w = [removeQuotes w]

/-! ## Reading -/

def isBlank (b : Byte) : Bool := b = 32 || b = 9

/-- `;`, `&`, `|`, `<`, `>` and the parentheses, which start operators. -/
def isOperator (b : Byte) : Bool := [59, 38, 124, 60, 62, 40, 41].contains b

/-- Whether a `$` before `rest` introduces an expansion: of a name, of a positional or special
parameter, or one in brackets. -/
def introduces (rest : Str) : Bool :=
  match rest with
  | [] => false
  | b :: _ =>
      isdigit b || (65 ≤ b && b ≤ 90) || (97 ≤ b && b ≤ 122) ||
        [95, 64, 42, 35, 63, 45, 36, 33, 123, 40].contains b

inductive Mode where
  | plain
  | escape
  | single
  | double
  | escapeDouble
  | expansion (remaining : ℕ) (text : Str) (quoted : Bool)
  | comment
  | ended
  deriving DecidableEq

/-- The words read so far, and the one that is being read, if one is. -/
structure Reader where
  mode : Mode
  word : Option Word
  words : List Word
  deriving DecidableEq

namespace Reader

def start (r : Reader) : Reader := { r with word := some (r.word.getD []) }

def add (r : Reader) (p : Piece) : Reader := { r with word := some (r.word.getD [] ++ [p]) }

def close (r : Reader) : Reader := { r with word := none, words := r.words ++ r.word.toList }

end Reader

namespace Shell

/-- One byte, with the bytes that follow it. -/
def step (sh : Shell) (r : Reader) (b : Byte) (rest : Str) : Option Reader :=
  match r.mode with
  | .plain =>
      if isBlank b then some r.close
      else if b = 10 then
        some { r.close with mode := if r.close.words = [] then .plain else .ended }
      else if isOperator b then none
      else if b = 39 then some { r.start with mode := .single }
      else if b = 34 then some { r.start with mode := .double }
      -- a backslash at the very end stands for itself
      else if b = 92 ∧ rest ≠ [] then some { r with mode := .escape }
      else if b = 35 ∧ r.word = none then some { r with mode := .comment }
      else if b = 96 ∨ b = 36 ∧ introduces rest = true then
        (sh.extent b rest).map fun n => { r.start with mode := .expansion n [b] false }
      else some (r.add (.char b false))
  | .escape =>
      -- a newline after a backslash only continues the line
      if b = 10 then some { r with mode := .plain }
      else some { r.add (.char b true) with mode := .plain }
  | .single =>
      if b = 39 then some { r with mode := .plain } else some (r.add (.char b true))
  | .double =>
      if b = 34 then some { r with mode := .plain }
      else if b = 92 ∧ (rest.head?.any fun c => [36, 96, 34, 92, 10].contains c) = true then
        some { r with mode := .escapeDouble }
      else if b = 96 ∨ b = 36 ∧ introduces rest = true then
        (sh.extent b rest).map fun n => { r with mode := .expansion n [b] true }
      else some (r.add (.char b true))
  | .escapeDouble =>
      if b = 10 then some { r with mode := .double }
      else some { r.add (.char b true) with mode := .double }
  | .expansion remaining text quoted =>
      match remaining with
      | 0 =>
          some { r.add (.expansion (text ++ [b]) quoted) with
            mode := if quoted then .double else .plain }
      | n + 1 => some { r with mode := .expansion n (text ++ [b]) quoted }
  | .comment =>
      if b = 10 then some { r with mode := if r.words = [] then .plain else .ended } else some r
  | .ended =>
      if isBlank b ∨ b = 10 then some r
      else if b = 35 then some { r with mode := .comment }
      else none

/-- The end of the text. A quote or an expansion that is still open is an error. -/
def finish (r : Reader) : Option (List Word) :=
  match r.mode with
  | .plain | .comment | .ended => some r.close.words
  | _ => none

def read (sh : Shell) : Reader → Str → Option (List Word)
  | r, [] => finish r
  | r, b :: rest => (sh.step r b rest).bind fun r => sh.read r rest

def words (sh : Shell) (text : Str) : Option (List Word) := sh.read ⟨.plain, none, []⟩ text

def arguments (sh : Shell) (text : Str) : Option (List Str) :=
  (sh.words text).map fun words => words.flatMap sh.expand

end Shell

/-! ## Ordinary bytes -/

/-- An unquoted byte that the shell takes for itself, before the bytes `rest`. -/
def ordinary (b : Byte) (rest : Str) : Bool :=
  !isBlank b && b ≠ 10 && !isOperator b && b ≠ 39 && b ≠ 34 && (b ≠ 92 || rest.isEmpty) && b ≠ 96 &&
    (b ≠ 36 || !introduces rest)

def literal : Str → Bool
  | [] => true
  | b :: rest => ordinary b rest && literal rest

/-- A text that a shell in every environment reads as one word and passes on as it is. -/
structure Verbatim (t : Str) : Prop where
  ne_nil : t ≠ []
  no_comment : t.head? ≠ some 35
  literal : literal t = true
  inactive : ¬ Active (chars t)

def size (words : List Word) : ℕ := (words.map fun w => (removeQuotes w).length).sum

namespace Reader

def size (r : Reader) : ℕ := ShellCommand.size r.words + (removeQuotes (r.word.getD [])).length

@[simp] theorem size_start (r : Reader) : r.start.size = r.size := by
  simp [start, size]

@[simp] theorem size_add_char (r : Reader) (b : Byte) (quoted : Bool) :
    (r.add (.char b quoted)).size = r.size + 1 := by
  simp only [add, size, Option.getD_some, removeQuotes, List.filterMap_append, List.length_append]
  rfl

@[simp] theorem size_add_expansion (r : Reader) (text : Str) (quoted : Bool) :
    (r.add (.expansion text quoted)).size = r.size := by
  simp only [add, size, Option.getD_some, removeQuotes, List.filterMap_append, List.length_append]
  rfl

@[simp] theorem size_close (r : Reader) : r.close.size = r.size := by
  cases hword : r.word <;> simp [close, size, ShellCommand.size, hword, removeQuotes]

end Reader

namespace Shell
variable {sh : Shell}

theorem prefix_close (r : Reader) : r.words <+: r.close.words := List.prefix_append _ _

/-- Outside quotes only an ordinary byte is taken for itself, and nothing else happens with it. -/
theorem step_plain {r r' : Reader} {b : Byte} {rest : Str} (hmode : r.mode = .plain)
    (h : sh.step r b rest = some r') :
    (r'.size ≤ r.size ∧ r.words <+: r'.words) ∨
      (ordinary b rest = true ∧ (r.word = none → b ≠ 35) ∧ r' = r.add (.char b false)) := by
  simp only [step, hmode] at h
  by_cases hblank : isBlank b = true
  · rw [if_pos hblank] at h
    obtain rfl := Option.some.inj h
    exact Or.inl ⟨(Reader.size_close r).le, prefix_close r⟩
  rw [if_neg hblank] at h
  by_cases hnewline : b = 10
  · rw [if_pos hnewline] at h
    obtain rfl := Option.some.inj h
    exact Or.inl ⟨(Reader.size_close r).le, prefix_close r⟩
  rw [if_neg hnewline] at h
  by_cases hoperator : isOperator b = true
  · rw [if_pos hoperator] at h
    cases h
  rw [if_neg hoperator] at h
  by_cases hsingle : b = 39
  · rw [if_pos hsingle] at h
    obtain rfl := Option.some.inj h
    exact Or.inl ⟨(Reader.size_start r).le, List.prefix_refl _⟩
  rw [if_neg hsingle] at h
  by_cases hdouble : b = 34
  · rw [if_pos hdouble] at h
    obtain rfl := Option.some.inj h
    exact Or.inl ⟨(Reader.size_start r).le, List.prefix_refl _⟩
  rw [if_neg hdouble] at h
  by_cases hescape : b = 92 ∧ rest ≠ []
  · rw [if_pos hescape] at h
    obtain rfl := Option.some.inj h
    exact Or.inl ⟨le_refl _, List.prefix_refl _⟩
  rw [if_neg hescape] at h
  by_cases hcomment : b = 35 ∧ r.word = none
  · rw [if_pos hcomment] at h
    obtain rfl := Option.some.inj h
    exact Or.inl ⟨le_refl _, List.prefix_refl _⟩
  rw [if_neg hcomment] at h
  by_cases hexpansion : b = 96 ∨ b = 36 ∧ introduces rest = true
  · rw [if_pos hexpansion] at h
    obtain ⟨n, -, rfl⟩ := Option.map_eq_some_iff.mp h
    exact Or.inl ⟨(Reader.size_start r).le, List.prefix_refl _⟩
  rw [if_neg hexpansion] at h
  refine Or.inr ⟨?_, fun hnone hb => hcomment ⟨hb, hnone⟩, (Option.some.inj h).symm⟩
  rw [not_or, not_and] at hexpansion
  rw [not_and, not_not] at hescape
  have hbackslash : b ≠ 92 ∨ rest = [] := by
    by_cases hb : b = 92
    · exact Or.inr (hescape hb)
    · exact Or.inl hb
  have hdollar : b ≠ 36 ∨ introduces rest = false := by
    by_cases hb : b = 36
    · exact Or.inr (by simpa using hexpansion.2 hb)
    · exact Or.inl hb
  simp [ordinary, hblank, hnewline, hoperator, hsingle, hdouble, hbackslash, hexpansion.1, hdollar]

theorem step_size {r r' : Reader} {b : Byte} {rest : Str} (h : sh.step r b rest = some r') :
    r'.size ≤ r.size + 1 ∧ r.words <+: r'.words := by
  have added : ∀ (quoted : Bool) (mode : Mode),
      ({ r.add (.char b quoted) with mode := mode } : Reader).size ≤ r.size + 1 := fun quoted mode =>
    (Reader.size_add_char r b quoted).le
  have kept : ∀ mode : Mode, ({ r with mode := mode } : Reader).size ≤ r.size + 1 := fun mode =>
    Nat.le_succ r.size
  cases hmode : r.mode with
  | plain =>
    obtain ⟨hsize, hwords⟩ | ⟨-, -, rfl⟩ := step_plain hmode h
    · exact ⟨by omega, hwords⟩
    · exact ⟨(Reader.size_add_char r b false).le, List.prefix_refl _⟩
  | escape | escapeDouble =>
    simp only [step, hmode] at h
    split_ifs at h
    · obtain rfl := Option.some.inj h
      exact ⟨kept _, List.prefix_refl _⟩
    · obtain rfl := Option.some.inj h
      exact ⟨added true _, List.prefix_refl _⟩
  | single =>
    simp only [step, hmode] at h
    split_ifs at h
    · obtain rfl := Option.some.inj h
      exact ⟨kept _, List.prefix_refl _⟩
    · obtain rfl := Option.some.inj h
      exact ⟨(Reader.size_add_char r b true).le, List.prefix_refl _⟩
  | double =>
    simp only [step, hmode] at h
    split_ifs at h
    · obtain rfl := Option.some.inj h
      exact ⟨kept _, List.prefix_refl _⟩
    · obtain rfl := Option.some.inj h
      exact ⟨kept _, List.prefix_refl _⟩
    · obtain ⟨n, -, rfl⟩ := Option.map_eq_some_iff.mp h
      exact ⟨kept _, List.prefix_refl _⟩
    · obtain rfl := Option.some.inj h
      exact ⟨(Reader.size_add_char r b true).le, List.prefix_refl _⟩
  | expansion remaining text quoted =>
    simp only [step, hmode] at h
    cases remaining with
    | zero =>
      obtain rfl := Option.some.inj h
      exact ⟨(Reader.size_add_expansion r _ quoted).le.trans (Nat.le_succ _), List.prefix_refl _⟩
    | succ n =>
      obtain rfl := Option.some.inj h
      exact ⟨kept _, List.prefix_refl _⟩
  | comment =>
    simp only [step, hmode] at h
    split_ifs at h
    · obtain rfl := Option.some.inj h
      exact ⟨kept _, List.prefix_refl _⟩
    · obtain rfl := Option.some.inj h
      exact ⟨Nat.le_succ _, List.prefix_refl _⟩
    · obtain rfl := Option.some.inj h
      exact ⟨Nat.le_succ _, List.prefix_refl _⟩
  | ended =>
    simp only [step, hmode] at h
    split_ifs at h
    · obtain rfl := Option.some.inj h
      exact ⟨Nat.le_succ _, List.prefix_refl _⟩
    · obtain rfl := Option.some.inj h
      exact ⟨kept _, List.prefix_refl _⟩

/-! ## Whole texts -/

theorem finish_eq {r : Reader} {words : List Word} (h : finish r = some words) :
    words = r.close.words := by
  unfold finish at h
  split at h
  · exact (Option.some.inj h).symm
  · exact (Option.some.inj h).symm
  · exact (Option.some.inj h).symm
  · cases h

theorem size_words_close (r : Reader) : size r.close.words = r.size := by
  have h := Reader.size_close r
  simpa [Reader.size, Reader.close, removeQuotes] using h

theorem read_size {r : Reader} {t : Str} {words : List Word} (h : sh.read r t = some words) :
    size words ≤ r.size + t.length ∧ r.words <+: words := by
  induction t generalizing r with
  | nil =>
    obtain rfl := finish_eq h
    exact ⟨(size_words_close r).le, prefix_close r⟩
  | cons b rest ih =>
    obtain ⟨r', hstep, hread⟩ := Option.bind_eq_some_iff.mp h
    obtain ⟨hsize, hwords⟩ := step_size hstep
    obtain ⟨hsize', hwords'⟩ := ih hread
    rw [List.length_cons]
    exact ⟨by omega, hwords.trans hwords'⟩

/-- A text that loses no byte to the shell is literal, and is one word with what was read of it. -/
theorem literal_of_exact {r : Reader} {t : Str} {words : List Word} (hmode : r.mode = .plain)
    (h : sh.read r t = some words) (hsize : size words = r.size + t.length) :
    literal t = true ∧ (r.word = none → t.head? ≠ some 35) ∧
      words = (t.foldl (fun r b => r.add (.char b false)) r).close.words := by
  induction t generalizing r with
  | nil => exact ⟨rfl, by simp, finish_eq h⟩
  | cons b rest ih =>
    obtain ⟨r', hstep, hread⟩ := Option.bind_eq_some_iff.mp h
    have hrest := (read_size hread).1
    rw [List.length_cons] at hsize
    obtain ⟨hless, -⟩ | ⟨hordinary, hcomment, rfl⟩ := step_plain hmode hstep
    · omega
    · rw [Reader.size_add_char] at hrest
      obtain ⟨hliteral, -, hwords⟩ := ih (r := r.add (.char b false)) hmode hread
        (by rw [Reader.size_add_char]; omega)
      refine ⟨?_, fun hnone => ?_, hwords⟩
      · rw [literal, hordinary, hliteral]
        rfl
      · simpa using hcomment hnone

theorem step_ordinary {r : Reader} {b : Byte} {rest : Str} (hmode : r.mode = .plain)
    (hb : ordinary b rest = true) (hcomment : r.word = none → b ≠ 35) :
    sh.step r b rest = some (r.add (.char b false)) := by
  simp only [ordinary, Bool.and_eq_true, Bool.or_eq_true, Bool.not_eq_true', decide_eq_true_eq,
    List.isEmpty_iff] at hb
  obtain ⟨⟨⟨⟨⟨⟨⟨hblank, hnewline⟩, hoperator⟩, hsingle⟩, hdouble⟩, hescape⟩, hquote⟩, hdollar⟩ := hb
  have hexpansion : ¬ (b = 96 ∨ b = 36 ∧ introduces rest = true) := by
    rintro (h | ⟨h, hintro⟩)
    · exact hquote h
    · rw [hdollar.resolve_left fun hne => hne h] at hintro
      cases hintro
  simp only [step, hmode]
  rw [if_neg (by simp [hblank]), if_neg hnewline, if_neg (by simp [hoperator]), if_neg hsingle,
    if_neg hdouble, if_neg fun h => hescape.elim (fun hne => hne h.1) fun hnil => h.2 hnil,
    if_neg fun h => hcomment h.2 h.1, if_neg hexpansion]

theorem read_literal {r : Reader} {t : Str} (hmode : r.mode = .plain) (ht : literal t = true)
    (hcomment : r.word = none → t.head? ≠ some 35) :
    sh.read r t = some (t.foldl (fun r b => r.add (.char b false)) r).close.words := by
  induction t generalizing r with
  | nil =>
    rw [read, finish, hmode]
    rfl
  | cons b rest ih =>
    rw [literal, Bool.and_eq_true] at ht
    have hstep := sh.step_ordinary hmode ht.1 fun hnone => by simpa using hcomment hnone
    rw [read, hstep, Option.bind_some, List.foldl_cons]
    exact ih hmode ht.2 fun hnone => by simp [Reader.add] at hnone

/-! ## The last argument -/

theorem close_foldl_add (words : List Word) {t : Str} (h : t ≠ []) :
    (t.foldl (fun r b => r.add (.char b false)) (⟨.plain, none, words⟩ : Reader)).close.words =
      words ++ [chars t] := by
  have hfold : ∀ (t : Str) (w : Word),
      t.foldl (fun r b => r.add (.char b false)) (⟨.plain, some w, words⟩ : Reader) =
        ⟨.plain, some (w ++ chars t), words⟩ := by
    intro t
    induction t with
    | nil => simp [chars]
    | cons b t ih =>
      intro w
      rw [List.foldl_cons]
      show t.foldl _ (⟨.plain, some (w ++ [.char b false]), words⟩ : Reader) = _
      rw [ih, List.append_assoc]
      rfl
  obtain ⟨b, rest, rfl⟩ := List.exists_cons_of_ne_nil h
  rw [List.foldl_cons]
  show (rest.foldl _ (⟨.plain, some [.char b false], words⟩ : Reader)).close.words = _
  rw [hfold]
  rfl

theorem removeQuotes_chars (t : Str) : removeQuotes (chars t) = t := by
  induction t with
  | nil => rfl
  | cons b t ih => exact congrArg (b :: ·) ih

theorem flatMap_expand_inactive {words : List Word} (h : ∀ w ∈ words, ¬ Active w) :
    words.flatMap sh.expand = words.map removeQuotes := by
  induction words with
  | nil => rfl
  | cons w words ih =>
    obtain ⟨hw, hrest⟩ := List.forall_mem_cons.mp h
    rw [List.flatMap_cons, sh.expand_inactive w hw, ih hrest]
    rfl

/-- What follows the words read so far becomes the one argument `t` exactly if it is verbatim, or
contains expansions that happen to yield it. -/
theorem read_argument_iff (words : List Word) (t : Str) :
    (∃ more, sh.read ⟨.plain, none, words⟩ t = some (words ++ more) ∧
        more.flatMap sh.expand = [t]) ↔
      Verbatim t ∨ ∃ more, sh.read ⟨.plain, none, words⟩ t = some (words ++ more) ∧
        (∃ w ∈ more, Active w) ∧ more.flatMap sh.expand = [t] := by
  constructor
  · rintro ⟨more, hread, hargs⟩
    by_cases hactive : ∃ w ∈ more, Active w
    · exact Or.inr ⟨more, hread, hactive, hargs⟩
    · have hinactive : ∀ w ∈ more, ¬ Active w := fun w hw ha => hactive ⟨w, hw, ha⟩
      rw [flatMap_expand_inactive hinactive] at hargs
      obtain ⟨w, rfl, hw⟩ := List.map_eq_singleton_iff.mp hargs
      -- no byte of `t` was lost, so none of them was special
      have hsize : size (words ++ [w]) = (⟨.plain, none, words⟩ : Reader).size + t.length := by
        rw [← hw]
        simp [size, Reader.size, removeQuotes]
      obtain ⟨hliteral, hcomment, heq⟩ := literal_of_exact rfl hread hsize
      have hne : t ≠ [] := by
        rintro rfl
        have hnil : words ++ [w] = words ++ [] := heq
        simp at hnil
      rw [close_foldl_add words hne] at heq
      obtain rfl := List.singleton_inj.mp (List.append_cancel_left heq)
      exact Or.inl ⟨hne, hcomment rfl, hliteral, hinactive _ (List.mem_singleton_self _)⟩
  · rintro (⟨hne, hcomment, hliteral, hinactive⟩ | ⟨more, hread, -, hargs⟩)
    · refine ⟨[chars t], ?_, ?_⟩
      · rw [read_literal rfl hliteral fun _ => hcomment, close_foldl_add words hne]
      · rw [List.flatMap_singleton, sh.expand_inactive _ hinactive, removeQuotes_chars]
    · exact ⟨more, hread, hargs⟩

end Shell

end ComputerNetworks.ShellCommand
