import ComputerNetworks.FileTransfer.Connections
import ComputerNetworks.FileTransfer.Transfer

/-! # Any number of downloads at once

The file server of a peer with a client on every connection: the client wrote the name of a file and runs
the receive loop of `download_func` and `file_transfer`, the child of that connection reads the name, or
a piece of it, and serves what is stored under it. All of them take their turns as they like.
`downloads_exact` says what a client has stored at any time and when its loop is over, and
`download_completes` whose turns are enough to get it there.
-/
namespace ComputerNetworks.FileTransfer
open Runs
set_option autoImplicit false

/-- The receive loop of `download_func` and `file_transfer`. -/
def downloadLoop : Reader Loop := ⟨{}, Loop.turn, Loop.running, bufferLen⟩

abbrev Downloads := Connections (Option (List Str)) Loop

abbrev DownloadEvent := ConnectionEvent (Option (List Str))

section
variable (files : Str → Option Str) (asked : ℕ → Str)

/-- What reading the file of a name gives: nothing if it cannot be opened or read, else its bytes, in
pieces that fit into the buffer. -/
def ReadsFile (request : Str) (file : Option (List Str)) : Prop :=
  ∀ path, openPath request = some path →
    match files path with
    | none => file = none
    | some content => ∃ F : Segmentation bufferLen content, file = some F.segments

/-- The one `read` of a child returns a piece from the start of what its client wrote. -/
def HearsName (connection : ℕ) (request : Str) (file : Option (List Str)) : Prop :=
  request <+: asked connection ∧ request.length ≤ bufferLen ∧ ReadsFile files request file

def DownloadStep : Downloads → DownloadEvent → Downloads → Prop :=
  ConnectionStep peerAnswer downloadLoop (HearsName files asked)

def Downloads.init (sockfd : ℕ) : Downloads := Connections.init downloadLoop sockfd

end

/-! ## The loop -/

theorem flatten_foldl_turn (reads : List Str) (l : Loop) :
    (reads.foldl Loop.turn l).writes.flatten = l.writes.flatten ++ reads.flatten := by
  induction reads generalizing l with
  | nil => simp
  | cons seg reads ih => rw [List.foldl_cons, ih, Transfer.flatten_turn, List.flatten_cons,
      List.append_assoc]

theorem nil_mem_of_not_running {reads : List Str}
    (h : (reads.foldl Loop.turn {}).running = false) : [] ∈ reads := by
  cases reads using List.reverseRecOn with
  | nil => cases h
  | append_singleton reads seg =>
    rw [List.foldl_append] at h
    have hzero : ¬ seg.length > 0 := of_decide_eq_false h
    have hnil : seg = [] := List.eq_nil_of_length_eq_zero (by omega)
    exact List.mem_append_right _ (List.mem_singleton.mpr hnil.symm)

section
variable {files : Str → Option Str} {asked : ℕ → Str}

abbrev DownloadsInv (files : Str → Option Str) (asked : ℕ → Str) (s : Downloads) : Prop :=
  ConnectionsInv peerAnswer downloadLoop (HearsName files asked) s

theorem ConnectionsInv.flatten_writes {s : Downloads} (h : DownloadsInv files asked s) (c : ℕ) :
    (s.client c).writes.flatten = (s.reads c).flatten := by
  rw [h.client c]
  exact flatten_foldl_turn (s.reads c) {}

theorem ConnectionsInv.nil_mem {s : Downloads} (h : DownloadsInv files asked s) {c : ℕ}
    (hover : (s.client c).running = false) : [] ∈ s.reads c :=
  nil_mem_of_not_running ((congrArg Loop.running (h.client c)).symm.trans hover)

theorem ReadsFile.peerAnswer {request path : Str} {file : Option (List Str)}
    (h : ReadsFile files request file) (hpath : openPath request = some path) :
    ∃ reply, FileTransfer.peerAnswer request file = some reply ∧ reply.system = false ∧
      reply.writes.flatten = (files path).getD [] := by
  have hfile := h path hpath
  refine ⟨_, by rw [FileTransfer.peerAnswer, serveChild, hpath, Option.map_some, Option.map_some],
    rfl, ?_⟩
  cases hcontent : files path with
  | none =>
    rw [hcontent] at hfile
    obtain rfl : file = none := hfile
    exact flatten_copyLoop [] .failed
  | some content =>
    rw [hcontent] at hfile
    obtain ⟨F, rfl⟩ : ∃ F : Segmentation bufferLen content, file = some F.segments := hfile
    exact (flatten_copyLoop F.segments .eof).trans F.flatten_eq

theorem running_foldl_turn {l : Loop} (hrun : l.running = true) {segs : List Str}
    (hne : ∀ seg ∈ segs, seg ≠ []) : (segs.foldl Loop.turn l).running = true := by
  cases segs using List.reverseRecOn with
  | nil => exact hrun
  | append_singleton segs seg =>
    have hseg := List.length_pos_iff.mpr
      (hne seg (List.mem_append_right _ (List.mem_singleton.mpr rfl)))
    rw [List.foldl_append]
    exact decide_eq_true hseg

/-- From every reachable state: once a child has read the name and the parent has closed its copy, turns
of that child and of its client alone are enough for the client to have the whole file, whatever the
parent, the other children and the other clients wait for. -/
theorem download_completes {sockfd : ℕ} {past : List (Downloads × DownloadEvent)} {s : Downloads}
    (h : Run (DownloadStep files asked) (Downloads.init sockfd) past s) {pid : ℕ}
    {p : Process (Option (List Str))} (hp : s.server.child pid = some p) {request path : Str}
    {file : Option (List Str)} (hrequest : p.request = some (request, file))
    (hpath : openPath request = some path) {left : List Str} (hcopying : p.phase = .copying left)
    (hparent : ¬ s.server.table.Holds p.connection) :
    ∃ later s', Run (DownloadStep files asked) s later s' ∧
      later.length = left.length + (s.available p.connection ++ left.flatten).length + 2 ∧
      (∀ turn ∈ later, turn.2.Of pid p.connection) ∧
      (s'.client p.connection).running = false ∧
      (s'.client p.connection).writes.flatten = (files path).getD [] ∧
      ∀ c, c ≠ p.connection →
        s'.client c = s.client c ∧ s'.server.sent c = s.server.sent c := by
  have hinv : DownloadsInv files asked s := connections_inv h
  have hrun : (s.client p.connection).running = true := by
    by_contra hover
    obtain ⟨-, hended, -⟩ := hinv.ended p.connection (hinv.nil_mem (Bool.not_eq_true _ ▸ hover))
    have hgone := ((hinv.server.ended_iff hp hparent).mp hended).1
    rw [hcopying] at hgone
    cases hgone
  obtain ⟨-, -, hfile⟩ := hinv.heard pid p request file hp hrequest
  obtain ⟨reply, hanswer, hsystem, hflatten⟩ := hfile.peerAnswer hpath
  obtain ⟨hcommand, hmeddled⟩ := (hinv.server.child pid p hp).alone hrequest hanswer hsystem
  set S : Segmentation bufferLen (s.available p.connection ++ left.flatten) :=
    .singly _ bufferLen_pos with hS
  obtain ⟨later, s', hlater, hlen, hown, hchild, hreads, hother⟩ :=
    hinv.finishes hp hcopying hcommand hparent S
      fun before hbefore => running_foldl_turn hrun fun seg hseg => S.ne_nil seg (hbefore.subset hseg)
  have hinv' : DownloadsInv files asked s' :=
    hlater.invariant hinv fun _ _ _ hs hstep => hs.step hstep
  obtain ⟨-, -, hdone⟩ := hinv'.served hchild hrequest hanswer hmeddled
  have hnil : [] ∈ s'.reads p.connection := by simp [hreads]
  refine ⟨later, s', hlater, ?_, hown, ?_, ?_, hother⟩
  · rw [hlen, hS, Segmentation.singly, List.length_map]
  · rw [hinv'.client p.connection, hreads, ← List.append_assoc, List.foldl_append]
    rfl
  · rw [hinv'.flatten_writes, ← hflatten]
    exact (hdone hnil).2 rfl

end

/-! ## Two downloads -/

/-- A file of one byte under the name `a`, and clients that all ask for it. -/
def oneFile (path : Str) : Option Str := if path = [97] then some [104] else none

def askedA : ℕ → Str := fun _ => [97]

/-- The child of the second client has written the file, and that of the first has read the name. -/
def downloadingTwo : Downloads := ⟨servingTwo, fun _ => {}, fun _ => []⟩

theorem readsFile_oneFile : ReadsFile oneFile [97] peerFile := by
  intro path hpath
  obtain rfl : path = [97] := Option.some.inj (hpath.symm.trans (by decide))
  exact ⟨⟨[[104]], by decide, by decide, rfl⟩, rfl⟩

theorem run_downloadingTwo :
    ∃ past, Run (DownloadStep oneFile askedA) (Downloads.init 3) past downloadingTwo := by
  obtain ⟨past, hrun⟩ := @run_askedBoth _ _ peerAnswer (HearsName oneFile askedA) downloadLoop peerFile
    fun c => ⟨List.prefix_refl _, by decide, readsFile_oneFile⟩
  exact ⟨_, hrun.next (.server step_servingTwo nofun)⟩

theorem completes_downloadingTwo :
    ∃ later s', Run (DownloadStep oneFile askedA) downloadingTwo later s' ∧
      later.length = 2 + (downloadingTwo.available 0 ++ [104]).length + 2 ∧
      (∀ turn ∈ later, turn.2.Of 100 0) ∧
      (s'.client 0).running = false ∧ (s'.client 0).writes.flatten = [104] ∧
      ∀ c, c ≠ 0 →
        s'.client c = downloadingTwo.client c ∧ s'.server.sent c = downloadingTwo.server.sent c := by
  obtain ⟨past, hrun⟩ := run_downloadingTwo
  have hpath : openPath [97] = some [97] := by decide
  have hparent : ¬ downloadingTwo.server.table.Holds 0 := Table.not_holds_listening 3 0
  exact download_completes hrun child_servingTwo rfl hpath rfl hparent

end ComputerNetworks.FileTransfer
