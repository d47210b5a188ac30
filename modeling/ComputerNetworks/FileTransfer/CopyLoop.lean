import ComputerNetworks.Library.CStrings
import ComputerNetworks.Library.Segmentation

/-! # The file server of a peer and its copy loop

`Peer_Server.cpp` and the TCP server of `server.cpp` serve a file in the same way: a child reads the
request once into a cleared buffer of 256 bytes, opens whatever file the buffer names, and copies it
to the connection until a `read` returns no more bytes. The clients receive with the same loop. A
`write` on a blocking descriptor takes all the bytes it is given.
-/
namespace ComputerNetworks.FileTransfer
set_option autoImplicit false

def bufferLen : ℕ := 256

theorem bufferLen_pos : 0 < bufferLen := by decide

/-- How a sequence of `read` calls ends: the last one returns 0 or -1. -/
inductive ReadEnd where
  | eof
  | failed
  deriving DecidableEq

structure Reads where
  segments : List Str
  ending : ReadEnd
  deriving DecidableEq

/-- The buffer after `bzero` and a `read` that returned `seg`. -/
def filled (seg : Str) : Str := seg ++ List.replicate (bufferLen - seg.length) 0

/-- The bytes that `write (fd, buffer, num)` takes; -1 is no size, and the call fails. -/
def written (buffer : Str) (num : ℤ) : Str := buffer.take num.toNat

/-- `do { bzero; num = read; write } while (num > 0)`: the bytes of every `write`. -/
def copyLoop : List Str → ReadEnd → List Str
  | [], .eof => [written (filled []) 0]
  | [], .failed => [written (filled []) (-1)]
  | seg :: segs, ending => written (filled seg) seg.length :: copyLoop segs ending

theorem written_filled (seg : Str) : written (filled seg) seg.length = seg := by
  simp [written, filled]

theorem flatten_copyLoop (segs : List Str) (ending : ReadEnd) :
    (copyLoop segs ending).flatten = segs.flatten := by
  induction segs with
  | nil => cases ending <;> simp [copyLoop, written]
  | cons seg segs ih => rw [copyLoop, written_filled, List.flatten_cons, ih, List.flatten_cons]

/-- The path that `open (buffer, O_RDONLY)` gets after a `read` that returned `request`. A buffer
without a NUL byte does not end the path, which is undefined. -/
def openPath (request : Str) : Option Str :=
  if (0 : Byte) ∈ filled request then some (cstr (filled request)) else none

/-- The child of the file server after the `read` of a request, with the results of reading the file
that the path opens; without one every `read` fails. The bytes of its `write` calls. -/
def serveChild (openRead : Str → Option (List Str)) (request : Str) : Option (List Str) :=
  (openPath request).map fun path =>
    match openRead path with
    | none => copyLoop [] .failed
    | some segments => copyLoop segments .eof

theorem nul_mem_filled {request : Str} :
    (0 : Byte) ∈ filled request ↔ (0 : Byte) ∈ request ∨ request.length < bufferLen := by
  unfold filled
  rw [List.mem_append, List.mem_replicate]
  constructor
  · rintro (h | ⟨h, -⟩)
    · exact Or.inl h
    · exact Or.inr (by omega)
  · rintro (h | h)
    · exact Or.inl h
    · exact Or.inr ⟨by omega, rfl⟩

theorem cstr_append_zeros (s : Str) (k : ℕ) : cstr (s ++ List.replicate k 0) = cstr s := by
  unfold cstr
  induction s with
  | nil => cases k <;> rfl
  | cons b s ih =>
    rw [List.cons_append, List.takeWhile_cons, List.takeWhile_cons, ih]

theorem openPath_eq_some {request path : Str} :
    openPath request = some path ↔
      ((0 : Byte) ∈ request ∨ request.length < bufferLen) ∧ path = cstr request := by
  have hpath : cstr (filled request) = cstr request := cstr_append_zeros request _
  rw [openPath, hpath, ← nul_mem_filled]
  split_ifs with h
  · simp [h, eq_comm]
  · simp [h]

end ComputerNetworks.FileTransfer
