import ComputerNetworks.FileTransfer.CopyLoop
import ComputerNetworks.PeerRing.Node

/-! # Which files a peer gives out

The user of `server.cpp` names the files to share, and the program keeps them in `my_node.myFile`. Its
TCP server opens the name it is sent and never looks at this list, so the answer to a request is the
file of that name. `onlyShared_iff` says for which requests this is still within the shared files.
-/
namespace ComputerNetworks.FileTransfer
open PeerRing
set_option autoImplicit false

/-- The regular files a peer could open, by path. `sameFile` says which paths lead to the same file in
every directory tree considered; paths that never lead to a file are aliases of the empty path. -/
structure FileSystem (sameFile : Setoid Str) where
  file : Str → Option Str
  file_same : ∀ path path', sameFile path path' → file path = file path'
  file_nil : file [] = none

/-- Any way in which successive `read` calls of at most 256 bytes return the files. -/
def Readings {sameFile : Setoid Str} (fs : FileSystem sameFile) : Type :=
  ∀ path content, fs.file path = some content → Segmentation bufferLen content

def Readings.openRead {sameFile : Setoid Str} {fs : FileSystem sameFile} (R : Readings fs) (path : Str) :
    Option (List Str) :=
  match h : fs.file path with
  | none => none
  | some content => some (R path content h).segments

/-- The bytes a peer's TCP server writes back. -/
def answer {sameFile : Setoid Str} {fs : FileSystem sameFile} (R : Readings fs) (request : Str) :
    Option Str :=
  (serveChild R.openRead request).map List.flatten

/-- Two file systems that agree on the shared files get the same answer. -/
def OnlyShared (sameFile : Setoid Str) (my_node : Node) (request : Str) : Prop :=
  ∀ (fs₁ fs₂ : FileSystem sameFile) (R₁ : Readings fs₁) (R₂ : Readings fs₂),
    (∀ f ∈ my_node.myFile, fs₁.file f = fs₂.file f) → answer R₁ request = answer R₂ request

section
variable {sameFile : Setoid Str}

theorem flatten_openRead {fs : FileSystem sameFile} (R : Readings fs) (path : Str) :
    (R.openRead path).map List.flatten = fs.file path := by
  unfold Readings.openRead
  split
  · rename_i h
    exact h.symm
  · rename_i content h
    exact (congrArg some (R path content h).flatten_eq).trans h.symm

theorem answer_eq {fs : FileSystem sameFile} (R : Readings fs) {request path : Str}
    (h : openPath request = some path) : answer R request = some ((fs.file path).getD []) := by
  rw [answer, serveChild, h, Option.map_some, Option.map_some, ← flatten_openRead R path]
  cases R.openRead path with
  | none => rw [flatten_copyLoop]; rfl
  | some segments => rw [flatten_copyLoop]; rfl

def FileSystem.single (sameFile : Setoid Str) [DecidableRel sameFile.r] (path content : Str)
    (h : ¬ sameFile.r path []) : FileSystem sameFile where
  file p := if sameFile.r path p then some content else none
  file_same p q hpq := by
    have hiff : sameFile.r path p ↔ sameFile.r path q :=
      ⟨fun hp => sameFile.trans hp hpq, fun hq => sameFile.trans hq (sameFile.symm hpq)⟩
    simp only [hiff]
  file_nil := if_neg h

def FileSystem.empty (sameFile : Setoid Str) : FileSystem sameFile where
  file _ := none
  file_same _ _ _ := rfl
  file_nil := rfl

def Readings.singly (fs : FileSystem sameFile) : Readings fs := fun _ content _ =>
  Segmentation.singly content bufferLen_pos

/-- A peer answers a request with the file of that name, shared or not. So the answer is confined to
the shared files exactly if the name leads to one of them, or never to a file. -/
theorem onlyShared_iff (my_node : Node) {request path : Str} (h : openPath request = some path) :
    (∀ (fs : FileSystem sameFile) (R : Readings fs),
      answer R request = some ((fs.file path).getD [])) ∧
    (OnlyShared sameFile my_node request ↔
      (∃ f ∈ my_node.myFile, sameFile.r path f) ∨ sameFile.r path []) := by
  refine ⟨fun fs R => answer_eq R h, ?_, ?_⟩
  · intro honly
    by_contra hnot
    rw [not_or, not_exists] at hnot
    classical
    have hagree : ∀ f ∈ my_node.myFile,
        (FileSystem.single sameFile path [0] hnot.2).file f = (FileSystem.empty sameFile).file f := by
      intro f hf
      exact if_neg fun hp => hnot.1 f ⟨hf, hp⟩
    have hsame := honly _ _ (Readings.singly (FileSystem.single sameFile path [0] hnot.2))
      (Readings.singly (FileSystem.empty sameFile)) hagree
    rw [answer_eq _ h, answer_eq _ h] at hsame
    have hfound : (FileSystem.single sameFile path [0] hnot.2).file path = some [0] :=
      if_pos (sameFile.refl path)
    rw [hfound] at hsame
    cases hsame
  · rintro hnamed fs₁ fs₂ R₁ R₂ hagree
    rw [answer_eq R₁ h, answer_eq R₂ h]
    congr 2
    obtain ⟨f, hf, hp⟩ | hp := hnamed
    · rw [fs₁.file_same path f hp, fs₂.file_same path f hp, hagree f hf]
    · rw [fs₁.file_same path [] hp, fs₂.file_same path [] hp, fs₁.file_nil, fs₂.file_nil]

end

/-! ## A request for another file -/

def sharingNode : Node := { myFile := [bytes "a"] }

theorem onlyShared_iff_shared :
    (∀ (fs : FileSystem ⊥) (R : Readings fs),
      answer R (bytes "a") = some ((fs.file (bytes "a")).getD [])) ∧
    (OnlyShared ⊥ sharingNode (bytes "a") ↔
      (∃ f ∈ sharingNode.myFile, (⊥ : Setoid Str).r (bytes "a") f) ∨
        (⊥ : Setoid Str).r (bytes "a") []) :=
  onlyShared_iff sharingNode (by decide)

/-- The file of a path outside the shared list, whatever the list is. -/
theorem other_file_given_out :
    ¬ ∀ (sameFile : Setoid Str) (my_node : Node) (request : Str),
      request.length ≤ bufferLen → OnlyShared sameFile my_node request := by
  intro h
  have honly := h ⊥ sharingNode (bytes "../secret") (by decide)
  have hne : ¬ (⊥ : Setoid Str).r (bytes "../secret") [] := by
    intro heq
    exact absurd (show bytes "../secret" = [] from heq) (by decide)
  classical
  have hagree : ∀ f ∈ sharingNode.myFile,
      (FileSystem.single ⊥ (bytes "../secret") (bytes "key") hne).file f =
        (FileSystem.empty ⊥).file f := by
    intro f hf
    obtain rfl : f = bytes "a" := List.mem_singleton.mp hf
    refine if_neg fun heq => ?_
    exact absurd (show bytes "../secret" = bytes "a" from heq) (by decide)
  have hsame := honly _ _ (Readings.singly (FileSystem.single ⊥ (bytes "../secret") (bytes "key") hne))
    (Readings.singly (FileSystem.empty ⊥)) hagree
  have hopen : openPath (bytes "../secret") = some (bytes "../secret") := by decide +kernel
  rw [answer_eq _ hopen, answer_eq _ hopen] at hsame
  have hfound : (FileSystem.single ⊥ (bytes "../secret") (bytes "key") hne).file (bytes "../secret") =
      some (bytes "key") := if_pos rfl
  rw [hfound] at hsame
  exact absurd hsame (by decide)

end ComputerNetworks.FileTransfer
