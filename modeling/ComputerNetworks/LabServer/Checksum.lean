import ComputerNetworks.LabServer.Response
import ComputerNetworks.Library.ShellCommand

/-! # The checksum command

Before they send a file, `server1.cpp` and `server2.cpp` have a shell run `md5sum` on it, with the name
as it came from the client in the command line. `runsMd5sum_iff` says for which names the shell sees
that name and nothing else.
-/
namespace ComputerNetworks.LabServer
open ShellCommand
set_option autoImplicit false

/-- `string s = "md5sum "; s = s + string(file_name);`, which goes to `system`. -/
def md5sumCommand (file_name : Str) : Str := bytes "md5sum " ++ file_name

/-- The shell reads one simple command, whose arguments are `md5sum` and the name. -/
def RunsMd5sum (sh : Shell) (file_name : Str) : Prop :=
  sh.arguments (md5sumCommand file_name) = some [bytes "md5sum", file_name]

theorem words_md5sumCommand (sh : Shell) (file_name : Str) :
    sh.words (md5sumCommand file_name) =
      sh.read ⟨.plain, none, [chars (bytes "md5sum")]⟩ file_name := rfl

theorem not_active_md5sum : ¬ Active (chars (bytes "md5sum")) := by
  unfold Active
  decide

theorem runsMd5sum_eq (sh : Shell) (file_name : Str) :
    RunsMd5sum sh file_name ↔
      ∃ more, sh.words (md5sumCommand file_name) = some (chars (bytes "md5sum") :: more) ∧
        more.flatMap sh.expand = [file_name] := by
  have hfirst : sh.expand (chars (bytes "md5sum")) = [bytes "md5sum"] := by
    rw [sh.expand_inactive _ not_active_md5sum, Shell.removeQuotes_chars]
  rw [RunsMd5sum, Shell.arguments, Option.map_eq_some_iff]
  constructor
  · rintro ⟨words, hwords, hargs⟩
    obtain ⟨more, rfl⟩ := (Shell.read_size (words_md5sumCommand sh file_name ▸ hwords)).2
    rw [List.flatMap_append, List.flatMap_singleton, hfirst] at hargs
    exact ⟨more, hwords, (List.cons.inj hargs).2⟩
  · rintro ⟨more, hwords, hargs⟩
    refine ⟨_, hwords, ?_⟩
    rw [List.flatMap_cons, hfirst, hargs]
    rfl

/-- The shell runs `md5sum` on just the requested name exactly if the name is verbatim, or contains
expansions which the shell, where the server runs, expands to the name itself. -/
theorem runsMd5sum_iff (sh : Shell) (file_name : Str) :
    RunsMd5sum sh file_name ↔
      Verbatim file_name ∨
      ∃ more, sh.words (md5sumCommand file_name) = some (chars (bytes "md5sum") :: more) ∧
        (∃ w ∈ more, Active w) ∧ more.flatMap sh.expand = [file_name] := by
  rw [runsMd5sum_eq, words_md5sumCommand]
  exact Shell.read_argument_iff [chars (bytes "md5sum")] file_name

def isPortable (b : Byte) : Bool :=
  isdigit b || (65 ≤ b && b ≤ 90) || (97 ≤ b && b ≤ 122) || [46, 95, 45].contains b

def specials : Str :=
  [32, 9, 10, 59, 38, 124, 60, 62, 40, 41, 39, 34, 92, 96, 36, 42, 63, 91, 126, 35]

theorem ne_of_isPortable {b c : Byte} (hb : isPortable b = true) (hc : c ∈ specials) : b ≠ c := by
  have hnone : ∀ c ∈ specials, isPortable c = false := by decide +kernel
  rintro rfl
  rw [hnone b hc] at hb
  cases hb

theorem ordinary_of_isPortable {b : Byte} (hb : isPortable b = true) (rest : Str) :
    ordinary b rest = true := by
  have hne : ∀ c ∈ specials, b ≠ c := fun c hc => ne_of_isPortable hb hc
  simp only [specials, List.forall_mem_cons] at hne
  simp [ordinary, isBlank, isOperator, hne]

/-- Names of letters, digits, dots, underscores and dashes are safe, a leading dash included. -/
theorem verbatim_of_isPortable {file_name : Str} (hne : file_name ≠ [])
    (h : ∀ b ∈ file_name, isPortable b = true) : Verbatim file_name := by
  refine ⟨hne, fun hhead => ?_, ?_, ?_⟩
  · exact ne_of_isPortable (h 35 (List.mem_of_head? hhead)) (by decide) rfl
  · clear hne
    induction file_name with
    | nil => rfl
    | cons b rest ih =>
      obtain ⟨hb, hrest⟩ := List.forall_mem_cons.mp h
      rw [literal, ordinary_of_isPortable hb, ih hrest]
      rfl
  · rintro (⟨p, hp, hexpands⟩ | hhead)
    · obtain ⟨b, hb, rfl⟩ := List.mem_map.mp hp
      have hglob : b ∈ ([42, 63, 91] : Str) := by simpa [Piece.expands] using hexpands
      have hspecial : b ∈ specials := by
        revert hglob
        simp only [specials, List.mem_cons]
        tauto
      exact ne_of_isPortable (h b hb) hspecial rfl
    · rw [chars, List.head?_map, Option.map_eq_some_iff] at hhead
      obtain ⟨b, hb, htilde⟩ := hhead
      obtain rfl : b = 126 := by simpa using htilde
      exact ne_of_isPortable (h 126 (List.mem_of_head? hb)) (by decide) rfl

/-! ## A file called `a;id` -/

def inertShell : Shell where
  extent _ _ := none
  expand w := [removeQuotes w]
  expand_inactive _ _ := rfl

/-- The existence check lets a name through that makes the shell run a second command. -/
theorem separator_in_name :
    ¬ ∀ (sh : Shell) (stat : Str → Option Found) (buffer file_name : Str),
      copyName buffer = some file_name → stat file_name ≠ none → RunsMd5sum sh file_name := by
  intro h
  have hruns := h inertShell (fun path => if path = bytes "a;id" then some ⟨1, []⟩ else none)
    (bytes "a;id") (bytes "a;id") (by decide) (by decide)
  have hnone : inertShell.arguments (md5sumCommand (bytes "a;id")) = none := by decide
  rw [RunsMd5sum, hnone] at hruns
  cases hruns

end ComputerNetworks.LabServer
