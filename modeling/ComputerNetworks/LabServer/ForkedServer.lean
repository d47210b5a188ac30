import ComputerNetworks.FileTransfer.Downloads
import ComputerNetworks.LabServer.Network

/-! # `server1.cpp` and its clients

Where `server2.cpp` selects, `server1.cpp` forks: it is the forking server of the peers with another
child. Each of its clients runs `get_file`, call by call as against `server2.cpp`, and now the stream
ends when the child and the shell that ran `md5sum` for it are gone. `get_file_exact` says what a
client that returns from `get_file` has, `get_file_completes` whose turns are enough to get it there.
-/
namespace ComputerNetworks.LabServer
open Runs FileTransfer
set_option autoImplicit false

/-- `get_file` after it wrote the name. A `write` to the local file takes all the bytes it is given. -/
def getFileLoop : Reader LabServer.Phase where
  start := .header
  turn phase seg := phase.read seg (some seg.length)
  running := LabServer.Phase.reading
  cap := BUFFER

abbrev LabDownloads := Connections (Option Found) LabServer.Phase

abbrev LabEvent := ConnectionEvent (Option Found)

/-- A name that `stat` finds: the size it reports, and the bytes that can then be read, which are none
for a directory and for a file that may not be opened. -/
structure Entry where
  st_size : ℕ
  readable : Str

/-- The header, and what can be read. -/
def Entry.stream (e : Entry) : Str := sizeHeader (toInt e.st_size) ++ e.readable

section
variable (files : Str → Option Entry) (asked : ℕ → Str)

/-- What `stat`, `open` and `read` give for a name. -/
def FindsFile (request : Str) (found : Option Found) : Prop :=
  ∀ path, copyName request = some path →
    match files path with
    | none => found = none
    | some e => ∃ F : Segmentation BUFFER e.readable, found = some ⟨e.st_size, F.segments⟩

/-- The one `read` of a child returns a piece from the start of what its client wrote. -/
def HearsFile (connection : ℕ) (request : Str) (found : Option Found) : Prop :=
  request <+: asked connection ∧ request.length ≤ BUFFER ∧ FindsFile files request found

def LabStep : LabDownloads → LabEvent → LabDownloads → Prop :=
  ConnectionStep labAnswer getFileLoop (HearsFile files asked)

def LabDownloads.init (sockfd : ℕ) : LabDownloads := Connections.init getFileLoop sockfd

end

/-! ## The client -/

theorem foldl_closed {phase : LabServer.Phase} (h : phase.closed = true) (segs : List Str) :
    segs.foldl getFileLoop.turn phase = phase := by
  induction segs with
  | nil => rfl
  | cons seg segs ih =>
    have hstays : getFileLoop.turn phase seg = phase := by
      cases phase with
      | returned | killed => rfl
      | connected | header | body => cases h
    rw [List.foldl_cons, hstays, ih]

/-- A client that returns read 0 bytes once, at the end. -/
theorem reads_of_returned {segs : List Str} {file_size total : ℤ} {received : ℕ}
    (h : segs.foldl getFileLoop.turn (.body file_size received total) = .returned)
    (hran : ∀ before seg after, segs = before ++ seg :: after →
      (before.foldl getFileLoop.turn (.body file_size received total)).reading = true) :
    ∃ pieces, segs = pieces ++ [[]] ∧ ∀ seg ∈ pieces, seg ≠ [] := by
  induction segs generalizing received total with
  | nil => cases h
  | cons seg rest ih =>
    cases hp : percent (toInt (total + seg.length)) file_size with
    | none =>
      have hkilled : getFileLoop.turn (.body file_size received total) seg = .killed := by
        simp only [getFileLoop, Phase.read, hp]
      rw [List.foldl_cons, hkilled, foldl_closed rfl] at h
      cases h
    | some p =>
      by_cases hnil : seg = []
      · have hreturned : getFileLoop.turn (.body file_size received total) seg = .returned := by
          simp only [getFileLoop, Phase.read, hp, if_pos hnil]
        cases rest with
        | nil => exact ⟨[], by rw [hnil]; rfl, by simp⟩
        | cons seg' rest =>
          have hreading := hran [seg] seg' rest rfl
          rw [List.foldl_cons, hreturned] at hreading
          cases hreading
      · have hgoes : getFileLoop.turn (.body file_size received total) seg =
            .body file_size (received + seg.length) (toInt (total + seg.length)) := by
          simp only [getFileLoop, Phase.read, hp, if_neg hnil]
        rw [List.foldl_cons, hgoes] at h
        obtain ⟨pieces, hrest, hne⟩ := ih h fun before seg' after hsplit => by
          have hreading := hran (seg :: before) seg' after (by rw [hsplit]; rfl)
          rwa [List.foldl_cons, hgoes] at hreading
        exact ⟨seg :: pieces, by rw [hrest]; rfl, List.forall_mem_cons.mpr ⟨hnil, hne⟩⟩

/-- Without a header the announced size is 0, and the first division traps. -/
theorem getFile_nil (segs : List Str) : getFile ([] :: segs) = none := by
  have hatoi : atoi [] = 0 := rfl
  have htraps : ∀ total, percent total 0 = none := fun total => by simp [percent]
  rw [getFile, hatoi]
  cases segs with
  | nil => rw [receive, htraps]; rfl
  | cons seg segs => simp only [receive, htraps, Option.bind_none]

theorem foldl_turn_eq (reads : List Str) (phase : LabServer.Phase) :
    reads.foldl getFileLoop.turn phase = phase.readAll reads := rfl

/-- The `read` calls of a client that returned are `getFile` on the pieces before the last. -/
theorem getFile_of_returned {reads : List Str}
    (h : reads.foldl getFileLoop.turn getFileLoop.start = .returned)
    (hran : ∀ before seg after, reads = before ++ seg :: after →
      (before.foldl getFileLoop.turn getFileLoop.start).reading = true) :
    ∃ first rest dl, reads = first :: rest ++ [[]] ∧ (∀ seg ∈ first :: rest, seg ≠ []) ∧
      getFile (first :: rest) = some dl := by
  cases reads with
  | nil => cases h
  | cons first segs =>
    have hbody : segs.foldl getFileLoop.turn (.body (atoi first) 0 0) = .returned := by
      rwa [List.foldl_cons] at h
    obtain ⟨rest, rfl, hne⟩ := reads_of_returned hbody fun before seg after hsplit =>
      hran (first :: before) seg after (by rw [hsplit]; rfl)
    have hget : (getFile (first :: rest)).isSome := by
      rw [foldl_turn_eq, getFileLoop, readAll_getFile first rest hne] at h
      by_contra hnone
      rw [if_neg hnone] at h
      cases h
    obtain ⟨dl, hdl⟩ := Option.isSome_iff_exists.mp hget
    refine ⟨first, rest, dl, rfl, List.forall_mem_cons.mpr ⟨?_, hne⟩, hdl⟩
    rintro rfl
    rw [getFile_nil] at hdl
    cases hdl

/-! ## The child -/

section
variable {files : Str → Option Entry} {asked : ℕ → Str}

theorem FindsFile.labAnswer {request path : Str} {found : Option Found}
    (h : FindsFile files request found) (hpath : copyName request = some path) :
    ∃ reply, FileTransfer.labAnswer request found = some reply ∧
      reply.writes.flatten = ((files path).map Entry.stream).getD [] := by
  have hfile := h path hpath
  refine ⟨_, by rw [FileTransfer.labAnswer, hpath, Option.map_some], ?_⟩
  cases hentry : files path with
  | none =>
    rw [hentry] at hfile
    obtain rfl : found = none := hfile
    rfl
  | some e =>
    rw [hentry] at hfile
    obtain ⟨F, rfl⟩ : ∃ F : Segmentation BUFFER e.readable, found = some ⟨e.st_size, F.segments⟩ :=
      hfile
    rw [Option.elim_some, flatten_response, F.flatten_eq, Option.map_some, Option.getD_some,
      Entry.stream]

/-! ## In every run -/

abbrev LabInv (files : Str → Option Entry) (asked : ℕ → Str) (s : LabDownloads) : Prop :=
  ConnectionsInv labAnswer getFileLoop (HearsFile files asked) s

theorem running_foldl_body {file_size : ℤ} (hpos : 0 < file_size) {segs : List Str}
    (hne : ∀ seg ∈ segs, seg ≠ []) (received : ℕ) (total : ℤ) :
    (segs.foldl getFileLoop.turn (.body file_size received total)).reading = true := by
  induction segs generalizing received total with
  | nil => rfl
  | cons seg segs ih =>
    obtain ⟨hseg, hsegs⟩ := List.forall_mem_cons.mp hne
    obtain ⟨p, hp⟩ := Option.isSome_iff_exists.mp (percent_isSome (toInt (total + seg.length)) hpos)
    have hgoes : getFileLoop.turn (.body file_size received total) seg =
        .body file_size (received + seg.length) (toInt (total + seg.length)) := by
      simp only [getFileLoop, Phase.read, hp, if_neg hseg]
    rw [List.foldl_cons, hgoes]
    exact ih hsegs _ _

/-- The header in one piece, and the rest in pieces of one byte. -/
def wholeHeader (e : Entry) : Segmentation BUFFER e.stream where
  segments := sizeHeader (toInt e.st_size) :: e.readable.map fun b => [b]
  ne_nil := by
    refine List.forall_mem_cons.mpr ⟨fun hnil => ?_, by simp⟩
    have hlen := length_sizeHeader e.st_size
    rw [hnil] at hlen
    cases hlen
  length_le := by
    refine List.forall_mem_cons.mpr ⟨(length_sizeHeader _).le, ?_⟩
    simp only [List.mem_map, forall_exists_index, and_imp, forall_apply_eq_imp_iff₂]
    exact fun _ _ => Nat.succ_le_of_lt (by decide)
  flatten_eq := by
    rw [List.flatten_cons, Entry.stream, ← List.flatMap_def, List.flatMap_singleton']

section
variable {e : Entry}

theorem segments_wholeHeader (e : Entry) : (wholeHeader e).segments =
    sizeHeader (toInt e.st_size) :: e.readable.map fun b => [b] := rfl

theorem getFile_wholeHeader (hpos : 0 < e.st_size) (hfits : e.st_size < 2 ^ 31) :
    ∃ dl, getFile (wholeHeader e).segments = some dl ∧ dl.file_size = e.st_size ∧
      dl.content = e.readable := by
  have hint : toInt e.st_size = e.st_size := toInt_of_mem (by omega) (by omega)
  obtain ⟨dl, hget, hsize, hcontent⟩ := getFile_sizeHeader hpos hfits (e.readable.map fun b => [b])
  refine ⟨dl, by rw [segments_wholeHeader, hint, hget], hsize, ?_⟩
  rw [hcontent, ← List.flatMap_def, List.flatMap_singleton']

theorem returned_wholeHeader (hpos : 0 < e.st_size) (hfits : e.st_size < 2 ^ 31) :
    ((wholeHeader e).segments ++ [[]]).foldl getFileLoop.turn .header = .returned := by
  have hpieces : ∀ seg ∈ e.readable.map fun b => [b], seg ≠ [] := by simp
  obtain ⟨dl, hget, -⟩ := getFile_wholeHeader hpos hfits
  rw [segments_wholeHeader] at hget
  rw [foldl_turn_eq, segments_wholeHeader, List.cons_append, readAll_getFile _ _ hpieces, hget]
  rfl

theorem running_wholeHeader (hpos : 0 < e.st_size) (hfits : e.st_size < 2 ^ 31)
    {before : List Str} (hbefore : before <+: (wholeHeader e).segments) :
    (before.foldl getFileLoop.turn .header).reading = true := by
  have hpieces : ∀ seg ∈ before, seg ≠ [] := fun seg hseg =>
    (wholeHeader e).ne_nil seg (hbefore.subset hseg)
  cases before with
  | nil => rfl
  | cons first rest =>
    rw [segments_wholeHeader] at hbefore
    obtain ⟨hfirst, -⟩ := List.cons_prefix_cons.mp hbefore
    have hint : toInt e.st_size = e.st_size := toInt_of_mem (by omega) (by omega)
    have hsize : 0 < atoi first := by
      rw [hfirst, hint, atoi_sizeHeader hfits]
      exact_mod_cast hpos
    exact running_foldl_body hsize (List.forall_mem_cons.mp hpieces).2 0 0

/-- From every reachable state: once a child has come back from the command for a name with a size
that is positive and an `int`, nothing of the command is left, the parent has closed its copy and the
client is still to read, turns of that child and of its client alone are enough for the client to
return from `get_file` with all that can be read, whatever all the others wait for. -/
theorem get_file_completes {sockfd : ℕ} {past : List (LabDownloads × LabEvent)} {s : LabDownloads}
    (h : Run (LabStep files asked) (LabDownloads.init sockfd) past s) {pid : ℕ}
    {p : Process (Option Found)} (hp : s.server.child pid = some p) {request path : Str}
    {found : Option Found} (hrequest : p.request = some (request, found))
    (hpath : copyName request = some path) (hentry : files path = some e)
    (hpos : 0 < e.st_size) (hfits : e.st_size < 2 ^ 31) {left : List Str}
    (hcopying : p.phase = .copying left) (hcommand : p.command = none)
    (hmeddled : p.meddled = false) (hfresh : s.reads p.connection = [])
    (hparent : ¬ s.server.table.Holds p.connection) :
    ∃ later s' pieces dl, Run (LabStep files asked) s later s' ∧
      later.length = left.length + e.readable.length + 3 ∧
      (∀ turn ∈ later, turn.2.Of pid p.connection) ∧ s'.client p.connection = .returned ∧
      s'.reads p.connection = pieces ++ [[]] ∧ getFile pieces = some dl ∧
      dl.file_size = e.st_size ∧ dl.content = e.readable ∧
      ∀ c, c ≠ p.connection →
        s'.client c = s.client c ∧ s'.server.sent c = s.server.sent c := by
  have hinv : LabInv files asked s := connections_inv h
  obtain ⟨-, -, hfile⟩ := hinv.heard pid p request found hp hrequest
  obtain ⟨reply, hanswer, hflatten⟩ := hfile.labAnswer hpath
  rw [hentry, Option.map_some, Option.getD_some] at hflatten
  have hall : s.available p.connection ++ left.flatten = e.stream := by
    have hserving := (hinv.server.child pid p hp).serving
    rw [hcopying, hrequest, hmeddled] at hserving
    cases hserving with
    | copying hanswer' hsent =>
      obtain rfl := Option.some.inj (hanswer.symm.trans hanswer')
      rw [← hflatten, ← hsent, Connections.available, hfresh]
      rfl
    | mixed hnot => cases hnot
  have hstart : s.client p.connection = .header := by
    rw [hinv.client p.connection, hfresh]
    rfl
  obtain ⟨dl, hget, hsize, hstored⟩ := getFile_wholeHeader hpos hfits
  obtain ⟨later, s', hlater, hlen, hown, -, hreads, hother⟩ :=
    hinv.finishes hp hcopying hcommand hparent
      ⟨(wholeHeader e).segments, (wholeHeader e).ne_nil, (wholeHeader e).length_le,
        (wholeHeader e).flatten_eq.trans hall.symm⟩
      fun before hbefore => by
        rw [hstart]
        exact running_wholeHeader hpos hfits hbefore
  have hinv' : LabInv files asked s' := hlater.invariant hinv fun _ _ _ hs hstep => hs.step hstep
  rw [hfresh, List.nil_append] at hreads
  have hreturned : s'.client p.connection = .returned := by
    have hsame : s'.reads p.connection = (wholeHeader e).segments ++ [[]] := hreads
    have hclient := hinv'.client p.connection
    rw [hclient, hsame]
    exact returned_wholeHeader hpos hfits
  refine ⟨later, s', _, dl, hlater, ?_, hown, hreturned, hreads, hget, hsize, hstored,
    hother⟩
  have hcount : later.length = left.length + (e.readable.length + 1) + 2 := by
    rw [hlen, segments_wholeHeader, List.length_cons, List.length_map]
  omega

end

end

/-! ## Two children -/

/-- A file of one byte under the name `a`. -/
def oneEntry (path : Str) : Option Entry := if path = [97] then some ⟨1, oneByteFile⟩ else none

def labFound : Option Found := some ⟨1, [oneByteFile]⟩

/-- A child after its command, and one that still waits for it. -/
def resumedChild (c : ℕ) : Process (Option Found) :=
  { (forkedChild 4 (Table.serving 3 4 c) c : Process (Option Found)) with
    phase := .copying (response ⟨1, [oneByteFile]⟩), request := some ([97], labFound) }

def waitingChild (c : ℕ) : Process (Option Found) :=
  { resumedChild c with
    phase := .waiting (response ⟨1, [oneByteFile]⟩), command := some (Table.serving 3 4 c) }

def labServingTwo : LabDownloads where
  server := (askedTwo labAnswer labFound).turned 100 (resumedChild 0)
  client _ := .header
  reads _ := []

theorem asked_labAnswer (c : ℕ) : (forkedChild 4 (Table.serving 3 4 c) c).asked labAnswer [97] labFound =
    waitingChild c := by
  have hanswer : labAnswer [97] labFound = some ⟨true, response ⟨1, [oneByteFile]⟩⟩ := rfl
  simp only [Process.asked, hanswer]
  rfl

theorem findsFile_oneEntry : FindsFile oneEntry [97] labFound := by
  intro path hpath
  obtain rfl : path = [97] := Option.some.inj (hpath.symm.trans (by decide))
  exact ⟨oneByte, rfl⟩

theorem run_labServingTwo :
    ∃ past, Run (LabStep oneEntry askedA) (LabDownloads.init 3) past labServingTwo := by
  obtain ⟨past, hrun⟩ := @run_askedBoth _ _ labAnswer (HearsFile oneEntry askedA) getFileLoop labFound
    fun c => ⟨List.prefix_refl _, by decide, findsFile_oneEntry⟩
  have hwaiting : (askedTwo labAnswer labFound).child 100 = some (waitingChild 0) := by
    rw [← asked_labAnswer 0]
    rfl
  have hends : ForkStep labAnswer (askedTwo labAnswer labFound) (.child 100 .commandEnds)
      ((askedTwo labAnswer labFound).turned 100 { waitingChild 0 with command := none }) :=
    step_turned hwaiting rfl
  have hresumes : ForkStep labAnswer
      ((askedTwo labAnswer labFound).turned 100 { waitingChild 0 with command := none })
      (.child 100 .resumes) labServingTwo.server := by
    have hresume : Process.step labAnswer { waitingChild 0 with command := none } .resumes =
        some (resumedChild 0, none) := rfl
    have hstep := @step_turned _ labAnswer
      ((askedTwo labAnswer labFound).turned 100 { waitingChild 0 with command := none }) 100 _ _ _ rfl
      hresume
    rwa [ForkingServer.turned, ForkingServer.turned, Function.update_idem] at hstep
  exact ⟨_, (hrun.next (.server hends nofun)).next (.server hresumes nofun)⟩

theorem completes_labServingTwo :
    ∃ later s' pieces dl, Run (LabStep oneEntry askedA) labServingTwo later s' ∧
      later.length = 3 + 1 + 3 ∧ (∀ turn ∈ later, turn.2.Of 100 0) ∧ s'.client 0 = .returned ∧
      s'.reads 0 = pieces ++ [[]] ∧ getFile pieces = some dl ∧ dl.file_size = 1 ∧
      dl.content = [104] ∧
      ∀ c, c ≠ 0 →
        s'.client c = labServingTwo.client c ∧ s'.server.sent c = labServingTwo.server.sent c := by
  obtain ⟨past, hrun⟩ := run_labServingTwo
  have hchild : labServingTwo.server.child 100 = some (resumedChild 0) := rfl
  have hpath : copyName [97] = some [97] := by decide
  have hentry : oneEntry [97] = some ⟨1, oneByteFile⟩ := rfl
  exact get_file_completes hrun hchild rfl hpath hentry (by decide) (by decide) rfl rfl rfl rfl
    (Table.not_holds_listening 3 0)

end ComputerNetworks.LabServer
