import ComputerNetworks.FileTransfer.CopyLoop
import ComputerNetworks.PeerRing.Node
import ComputerNetworks.LabServer.GetFile

/-! # What a failed download leaves behind

The three clients, `download_func` of `server.cpp`, `file_transfer` of `Peer_Client.cpp` and `get_file`
of `client.cpp`, open their output file with `O_TRUNC` before they read the first byte of it, and treat
the end of the stream, a failing `read` and the end of the file alike. So the output file ends as the
bytes read so far, whatever it held before (`failed_download`).
-/
namespace ComputerNetworks.FileTransfer
set_option autoImplicit false

abbrev Files := Str → Option Str

/-- `open (name, O_WRONLY | O_CREAT | O_TRUNC)` and the `write` calls on it. A file that cannot be
opened stays as it is. -/
def store (files : Files) (opens : Bool) (name : Str) (writes : List Str) : Files :=
  if opens then
    writes.foldl (fun files w => Function.update files name ((files name).map fun c => c ++ w))
      (Function.update files name (some []))
  else files

/-! ## The clients -/

def newFile : Str := bytes "new "

/-- `download_func` once it is connected. The name goes through a buffer of `LEN` bytes and one of
100. -/
def downloadFunc (files : Files) (opens : Bool) (file : Str) (reads : Reads) : Option Files := do
  let file_name ← strcpy PeerRing.LEN file
  let ne ← strcpy 100 (newFile ++ file_name)
  some (store files opens ne (copyLoop reads.segments reads.ending))

/-- `file_transfer` once it is connected. The name goes through two buffers of 100 bytes. -/
def fileTransfer (files : Files) (opens : Bool) (name : Str) (reads : Reads) : Option Files := do
  let name ← strcpy 100 name
  let ne ← strcpy 100 (newFile ++ name)
  some (store files opens ne (copyLoop reads.segments reads.ending))

/-- The receive loop of `get_file` after the header. A `write` that fails is not counted, and no
percentage is computed after it: every `write` on a file that could not be opened, and the one
after a failing `read`. -/
def receiveBody (opens : Bool) (file_size : ℤ) : List Str → ReadEnd → ℤ → Option (List Str)
  | [], .failed, _ => some []
  | [], .eof, total =>
      if opens then (LabServer.percent total file_size).map fun _ => [[]] else some [[]]
  | seg :: segs, ending, total =>
      if opens then
        let total := toInt (total + seg.length)
        (LabServer.percent total file_size).bind fun _ =>
          (receiveBody opens file_size segs ending total).map fun ws => seg :: ws
      else (receiveBody opens file_size segs ending total).map fun ws => seg :: ws

/-- `get_file` once it is connected: one `read` for the header, the rest for the file. A first `read`
that returns no byte leaves the cleared buffer. `none` is a division that traps. -/
def getFileInto (files : Files) (opens : Bool) (name : Str) (reads : Reads) : Option Files :=
  let header := reads.segments.headD []
  let ending := reads.ending
  (receiveBody opens (atoi header) reads.segments.tail ending 0).map fun writes =>
    store files opens (cstr name) writes

inductive Client where
  | download_func
  | file_transfer
  | get_file
  deriving DecidableEq

namespace Client

def run : Client → Files → Bool → Str → Reads → Option Files
  | download_func => downloadFunc
  | file_transfer => fileTransfer
  | get_file => getFileInto

def localName : Client → Str → Str
  | download_func, name => newFile ++ cstr name
  | file_transfer, name => newFile ++ cstr name
  | get_file, name => cstr name

def body : Client → Reads → Str
  | download_func, reads => reads.segments.flatten
  | file_transfer, reads => reads.segments.flatten
  | get_file, reads => reads.segments.tail.flatten

/-- What the server sends before it closes the connection, if nothing goes wrong: a file that it
cannot open is signalled by closing alone. -/
def stream : Client → Option Str → Str
  | _, none => []
  | download_func, some content => content
  | file_transfer, some content => content
  | get_file, some content => LabServer.sizeHeader (toInt content.length) ++ content

/-- The server could not open the file, or the connection ended before all of it had arrived. -/
def Fails (c : Client) (file : Option Str) (reads : Reads) : Prop :=
  reads.segments.flatten <+: c.stream file ∧ (file ≠ none → reads.segments.flatten ≠ c.stream file)

end Client

/-! ## What the servers send -/

theorem serveChild_stream {openRead : Str → Option (List Str)} {request path : Str}
    (h : openPath request = some path) :
    (serveChild openRead request).map List.flatten =
      some (Client.file_transfer.stream ((openRead path).map List.flatten)) := by
  rw [serveChild, h, Option.map_some, Option.map_some]
  cases openRead path <;> exact congrArg some (flatten_copyLoop _ _)

theorem response_stream {content : Str} (F : Segmentation LabServer.BUFFER content) :
    (LabServer.response (LabServer.servedFile F)).flatten =
      Client.get_file.stream (some content) :=
  LabServer.flatten_servedFile F

/-! ## What is in the local file -/

theorem foldl_append {name : Str} {writes : List Str} {files : Files} {c : Str}
    (h : files name = some c) :
    writes.foldl (fun files w => Function.update files name ((files name).map fun c => c ++ w)) files =
      Function.update files name (some (c ++ writes.flatten)) := by
  induction writes generalizing files c with
  | nil =>
    rw [List.foldl_nil, List.flatten_nil, List.append_nil, ← h, Function.update_eq_self]
  | cons w writes ih =>
    have hnext : Function.update files name ((files name).map fun c => c ++ w) name =
        some (c ++ w) := by rw [Function.update_self, h, Option.map_some]
    rw [List.foldl_cons, ih hnext, Function.update_idem, List.flatten_cons, List.append_assoc]

theorem store_eq (files : Files) (opens : Bool) (name : Str) (writes : List Str) :
    store files opens name writes =
      if opens then Function.update files name (some writes.flatten) else files := by
  cases opens with
  | false => rfl
  | true =>
    have h : Function.update files name (some []) name = some [] := Function.update_self _ _ _
    simp only [store, if_true]
    rw [foldl_append h, Function.update_idem, List.nil_append]

theorem receiveBody_flatten {opens : Bool} {file_size : ℤ} {segs : List Str} {ending : ReadEnd}
    {total : ℤ} {writes : List Str}
    (h : receiveBody opens file_size segs ending total = some writes) :
    writes.flatten = segs.flatten := by
  induction segs generalizing total writes with
  | nil =>
    cases ending with
    | failed =>
      obtain rfl := Option.some.inj h
      rfl
    | eof =>
      rw [receiveBody] at h
      split_ifs at h
      · obtain ⟨p, -, rfl⟩ := Option.map_eq_some_iff.mp h
        rfl
      · obtain rfl := Option.some.inj h
        rfl
  | cons seg segs ih =>
    rw [receiveBody] at h
    split_ifs at h
    · obtain ⟨p, -, h⟩ := Option.bind_eq_some_iff.mp h
      obtain ⟨ws, hws, rfl⟩ := Option.map_eq_some_iff.mp h
      rw [List.flatten_cons, List.flatten_cons, ih hws]
    · obtain ⟨ws, hws, rfl⟩ := Option.map_eq_some_iff.mp h
      rw [List.flatten_cons, List.flatten_cons, ih hws]

/-- On a stream that ends without an error this is `get_file` as `LabServer.getFile` has it. -/
theorem receiveBody_eof (file_size : ℤ) (segs : List Str) (total : ℤ) (dl : LabServer.Download) :
    (receiveBody true file_size segs .eof total).map (fun ws => dl.content ++ ws.flatten) =
      (LabServer.receive file_size segs total dl).map LabServer.Download.content := by
  induction segs generalizing total dl with
  | nil =>
    simp only [receiveBody, LabServer.receive, if_true]
    cases LabServer.percent total file_size <;> simp
  | cons seg segs ih =>
    simp only [receiveBody, LabServer.receive, if_true]
    cases LabServer.percent (toInt (total + seg.length)) file_size with
    | none => rfl
    | some p =>
      rw [Option.bind_some, Option.bind_some, Option.map_map, ← ih]
      simp [Function.comp_def]

theorem getFileInto_eof (files : Files) (name : Str) (segs : List Str) :
    getFileInto files true name ⟨segs, .eof⟩ = (LabServer.getFile segs).map fun dl =>
      Function.update files (cstr name) (some dl.content) := by
  have hget : LabServer.getFile segs = LabServer.receive (atoi (segs.headD [])) segs.tail 0
      ⟨atoi (segs.headD []), [], []⟩ := by
    cases segs <;> rfl
  have hbody := receiveBody_eof (atoi (segs.headD [])) segs.tail 0 ⟨atoi (segs.headD []), [], []⟩
  simp only [List.nil_append] at hbody
  rw [hget, getFileInto]
  simp only [store_eq, if_true]
  rw [← Function.comp_def (fun c => Function.update files (cstr name) (some c)) List.flatten,
    ← Option.map_map, hbody, Option.map_map]
  rfl

theorem cstr_newFile_append (s : Str) : cstr (newFile ++ cstr s) = newFile ++ cstr s := by
  refine cstr_of_notMem fun h => ?_
  obtain h | h := List.mem_append.mp h
  · exact absurd h (by decide)
  · exact nul_notMem_cstr s h

/-- Every client leaves the bytes it read in the file, and nothing of what was there before. -/
theorem Client.run_eq (c : Client) {files files' : Files} {opens : Bool} {name : Str} {reads : Reads}
    (h : c.run files opens name reads = some files') :
    files' = if opens then Function.update files (c.localName name) (some (c.body reads))
      else files := by
  cases c with
  | get_file =>
    obtain ⟨writes, hwrites, rfl⟩ := Option.map_eq_some_iff.mp h
    rw [store_eq, receiveBody_flatten hwrites]
    rfl
  | download_func | file_transfer =>
    obtain ⟨file_name, hname, h⟩ := Option.bind_eq_some_iff.mp h
    obtain ⟨ne, hne, h⟩ := Option.bind_eq_some_iff.mp h
    obtain rfl := strcpy_eq_some hname
    obtain rfl := (strcpy_eq_some hne).trans (cstr_newFile_append name)
    obtain rfl := Option.some.inj h
    rw [store_eq, flatten_copyLoop]
    rfl

/-- With a name that fits the buffer for it, `download_func` and `file_transfer` run to the end. -/
theorem Client.run_of_fits (c : Client) (hc : c ∈ [Client.download_func, Client.file_transfer])
    (files : Files) (opens : Bool) {name : Str} (h : (c.localName name).length < 100)
    (reads : Reads) : c.run files opens name reads =
      some (store files opens (c.localName name) (copyLoop reads.segments reads.ending)) := by
  have hnew : (newFile ++ cstr name).length < 100 := by fin_cases hc <;> exact h
  have hlen : (cstr name).length < 100 := by
    rw [List.length_append] at hnew
    omega
  have hne : strcpy 100 (newFile ++ cstr name) = some (newFile ++ cstr name) := by
    rw [strcpy, cstr_newFile_append, if_pos hnew]
  have hname : strcpy PeerRing.LEN name = some (cstr name) := by
    rw [strcpy, if_pos (hlen.trans (by decide))]
  have hname' : strcpy 100 name = some (cstr name) := by rw [strcpy, if_pos hlen]
  fin_cases hc
  · show downloadFunc files opens name reads = _
    rw [downloadFunc, hname, Option.bind_eq_bind, Option.bind_some, hne]
    rfl
  · show fileTransfer files opens name reads = _
    rw [fileTransfer, hname', Option.bind_eq_bind, Option.bind_some, hne]
    rfl

/-! ## Failures -/

theorem Client.body_suffix (c : Client) (reads : Reads) :
    c.body reads <:+ reads.segments.flatten := by
  cases c with
  | download_func | file_transfer => exact List.suffix_refl _
  | get_file =>
    show reads.segments.tail.flatten <:+ _
    cases reads.segments with
    | nil => exact List.suffix_refl _
    | cons seg segs => exact List.suffix_append _ _

/-- After a failed transfer the local file, unless it could not be opened, holds just the bytes that
arrived: none if the server has no such file, and fewer than it had to send otherwise. So it is as
before exactly if it was these bytes before. -/
theorem failed_download (c : Client) {file : Option Str} {reads : Reads} (hfail : c.Fails file reads)
    {files files' : Files} {opens : Bool} {name : Str}
    (h : c.run files opens name reads = some files') :
    files' = (if opens then Function.update files (c.localName name) (some (c.body reads))
        else files) ∧
      (files' (c.localName name) = files (c.localName name) ↔
        opens = false ∨ files (c.localName name) = some (c.body reads)) ∧
      (file = none → c.body reads = []) ∧
      (file ≠ none → (c.body reads).length < (c.stream file).length) := by
  have hsuffix := (c.body_suffix reads).length_le
  have hafter := c.run_eq h
  refine ⟨hafter, ?_, ?_, fun hne => ?_⟩
  · rw [hafter]
    cases opens with
    | false => simp
    | true => simp [eq_comm]
  · rintro rfl
    have hnil : reads.segments.flatten = [] := List.prefix_nil.mp hfail.1
    rw [hnil] at hsuffix
    exact List.eq_nil_of_length_eq_zero (Nat.le_zero.mp hsuffix)
  · have hlt := lt_of_le_of_ne hfail.1.length_le fun hlen =>
      hfail.2 hne (hfail.1.eq_of_length hlen)
    omega

/-! ## A missing file and an older copy -/

def oldCopy : Files := fun _ => some (bytes "old")

theorem fails_missing : Client.file_transfer.Fails none ⟨[], .eof⟩ :=
  ⟨List.nil_prefix, fun hne => absurd rfl hne⟩

theorem run_missing : Client.file_transfer.run oldCopy true (bytes "a") ⟨[], .eof⟩ =
    some (store oldCopy true (bytes "new a") [[]]) := rfl

theorem failed_download_missing :
    store oldCopy true (bytes "new a") [[]] =
        (if true then Function.update oldCopy (bytes "new a") (some []) else oldCopy) ∧
      (store oldCopy true (bytes "new a") [[]] (bytes "new a") = some (bytes "old") ↔
        true = false ∨ some (bytes "old") = some []) :=
  have h := failed_download .file_transfer fails_missing run_missing
  ⟨h.1, h.2.1⟩

theorem missing_file_truncates :
    ¬ ∀ (c : Client) (file : Option Str) (reads : Reads), c.Fails file reads →
      ∀ (files files' : Files) (opens : Bool) (name : Str),
        c.run files opens name reads = some files' →
          files' (c.localName name) = files (c.localName name) := by
  intro h
  have hsame := h _ _ _ fails_missing _ _ _ _ run_missing
  rw [store_eq, if_pos rfl] at hsame
  have hnew : Function.update oldCopy (bytes "new a") (some [[]].flatten) (bytes "new a") =
      some [[]].flatten := Function.update_self _ _ _
  have hold : some [[]].flatten = some (bytes "old") := hnew.symm.trans hsame
  exact absurd hold (by decide)

end ComputerNetworks.FileTransfer
