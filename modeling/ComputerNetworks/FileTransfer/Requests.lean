import ComputerNetworks.FileTransfer.CopyLoop
import ComputerNetworks.LabServer.Response

/-! # Which name a server opens

A client writes the bare name of the file it wants, without length or terminator, and each of the four
servers takes what one `read` returns for that name. `opensRequested_iff` says for which pieces of the
stream and which names this is right.
-/
namespace ComputerNetworks.FileTransfer
set_option autoImplicit false

/-- A name as `write (sockfd, name, strlen (name))` sends it. -/
structure RequestName where
  val : Str
  ne_nil : val ≠ []
  no_nul : (0 : Byte) ∉ val

/-- `Peer_Server.cpp`, the TCP server of `server.cpp`, `server1.cpp` and `server2.cpp`. -/
inductive FileServer where
  | peer_server
  | server
  | server1
  | server2
  deriving DecidableEq

namespace FileServer

def readLen : FileServer → ℕ
  | peer_server => bufferLen
  | server => bufferLen
  | server1 => LabServer.BUFFER
  | server2 => LabServer.BUFFER

/-- The name that `open` gets after a `read` that returned `request`; `server1.cpp` and
`server2.cpp` copy it to `file_name` and hand it to `stat` before. -/
def opened : FileServer → Str → Option Str
  | peer_server => openPath
  | server => openPath
  | server1 => LabServer.copyName
  | server2 => LabServer.copyName

/-- The bytes that the buffer of a name holds, the terminator included. -/
def nameLen : FileServer → ℕ
  | peer_server => bufferLen
  | server => bufferLen
  | server1 => 100
  | server2 => 100

/-- The requests that are handled on one connection. A forked child handles one; the loop of
`server2.cpp` goes on for as many turns as it gets. -/
def handled {α : Type} : FileServer → ℕ → List α → List α
  | peer_server, _ => List.take 1
  | server, _ => List.take 1
  | server1, _ => List.take 1
  | server2, turns => List.take turns

theorem handled_subset {α : Type} (srv : FileServer) (turns : ℕ) (xs : List α) :
    srv.handled turns xs ⊆ xs := by
  cases srv <;> exact List.take_subset _ _

theorem opened_eq_some {srv : FileServer} {request name : Str} (h : (0 : Byte) ∉ request) :
    srv.opened request = some name ↔ request = name ∧ name.length < srv.nameLen := by
  have hcstr : cstr request = request := cstr_of_notMem h
  cases srv with
  | peer_server | server =>
    show openPath request = some name ↔ _ ∧ name.length < bufferLen
    rw [openPath_eq_some, hcstr]
    constructor
    · rintro ⟨hfits, rfl⟩
      exact ⟨rfl, hfits.resolve_left h⟩
    · rintro ⟨rfl, hfits⟩
      exact ⟨Or.inr hfits, rfl⟩
  | server1 | server2 =>
    show strcpy 100 request = some name ↔ _ ∧ name.length < 100
    rw [strcpy, hcstr]
    by_cases hfits : request.length < 100
    · rw [if_pos hfits, Option.some.injEq]
      constructor
      · rintro rfl
        exact ⟨rfl, hfits⟩
      · exact And.left
    · rw [if_neg hfits]
      constructor
      · rintro ⟨⟩
      · rintro ⟨rfl, hless⟩
        exact absurd hless hfits

end FileServer

theorem map_opened_iff {srv : FileServer} {requests names : List Str}
    (h : ∀ request ∈ requests, (0 : Byte) ∉ request) :
    requests.map srv.opened = names.map some ↔
      requests = names ∧ ∀ name ∈ names, name.length < srv.nameLen := by
  induction requests generalizing names with
  | nil => cases names <;> simp
  | cons request requests ih =>
    obtain ⟨hrequest, hrest⟩ := List.forall_mem_cons.mp h
    cases names with
    | nil => simp
    | cons name names =>
      rw [List.map_cons, List.map_cons, List.cons.injEq, List.cons.injEq, List.forall_mem_cons,
        ih hrest, FileServer.opened_eq_some hrequest]
      constructor
      · rintro ⟨⟨hname, hfits⟩, hnames, hall⟩
        exact ⟨⟨hname, hnames⟩, hfits, hall⟩
      · rintro ⟨⟨hname, hnames⟩, hfits, hall⟩
        exact ⟨⟨hname, hfits⟩, hnames, hall⟩

theorem nul_notMem_segment {names : List RequestName} {cap : ℕ}
    (S : Segmentation cap (names.map RequestName.val).flatten) {seg : Str} (h : seg ∈ S.segments) :
    (0 : Byte) ∉ seg := by
  intro hzero
  have hstream : (0 : Byte) ∈ (names.map RequestName.val).flatten := by
    rw [← S.flatten_eq]
    exact List.mem_flatten.mpr ⟨seg, h, hzero⟩
  obtain ⟨name, hname, hmem⟩ := List.mem_flatten.mp hstream
  obtain ⟨n, -, rfl⟩ := List.mem_map.mp hname
  exact n.no_nul hmem

def OpensRequested (srv : FileServer) (names : List RequestName) (reads : List Str) (turns : ℕ) :
    Prop :=
  (srv.handled turns reads).map srv.opened =
    (srv.handled turns (names.map RequestName.val)).map some

instance instDecidableOpensRequested (srv : FileServer) (names : List RequestName)
    (reads : List Str) (turns : ℕ) : Decidable (OpensRequested srv names reads turns) := by
  unfold OpensRequested
  infer_instance

/-- Whatever names a client writes on a connection and however TCP delivers them, the server opens
the requested names exactly if every `read` it handles returned just one name, the next one, and
the buffer the name goes through holds it. -/
theorem opensRequested_iff (srv : FileServer) (names : List RequestName)
    (S : Segmentation srv.readLen (names.map RequestName.val).flatten) (turns : ℕ) :
    OpensRequested srv names S.segments turns ↔
      srv.handled turns S.segments = srv.handled turns (names.map RequestName.val) ∧
      ∀ name ∈ srv.handled turns (names.map RequestName.val), name.length < srv.nameLen :=
  map_opened_iff fun _ hseg => nul_notMem_segment S (srv.handled_subset turns _ hseg)

/-! ## A name in two pieces -/

def twoLetters : RequestName := ⟨bytes "ab", by decide, by decide⟩

def inTwo : Segmentation bufferLen ([twoLetters].map RequestName.val).flatten :=
  Segmentation.singly _ bufferLen_pos

/-- Two reads return `a` and `b`: `Peer_Server.cpp` opens `a`. -/
theorem prefix_opened :
    ¬ ∀ (srv : FileServer) (names : List RequestName)
      (S : Segmentation srv.readLen (names.map RequestName.val).flatten) (turns : ℕ),
      OpensRequested srv names S.segments turns := by
  intro h
  have hopened : OpensRequested .peer_server [twoLetters] inTwo.segments 1 :=
    h .peer_server [twoLetters] inTwo 1
  exact absurd hopened (by decide)

end ComputerNetworks.FileTransfer
