import ComputerNetworks.Library.Segmentation
import ComputerNetworks.LabServer.Response

/-! # Fetching a file, `get_file` of `client.cpp`

The client takes the header with one `read` and everything after it as the file. TCP may return any
count from 1 on, so this one call decides whether the transfer is right: `reproduces_iff` says that
it is exactly if the call returns the whole header and the size fits an `int`. `int` arithmetic
wraps around; a division that traps ends the program and is `none`.
-/
namespace ComputerNetworks.LabServer
set_option autoImplicit false

/-! ## The client -/

/-- `(total*100)/file_size` on `int`. Dividing by zero and dividing the least `int` by -1 trap. -/
def percent (total file_size : ℤ) : Option ℤ :=
  let q := (toInt (total * 100)).tdiv file_size
  if file_size = 0 ∨ 2 ^ 31 ≤ q then none else some q

structure Download where
  file_size : ℤ
  percents : List ℤ
  content : Str
  deriving DecidableEq

/-- The receive loop on the results of its `read` calls, up to the end of the stream. The last call
returns 0, and the loop body runs on this as well. -/
def receive (file_size : ℤ) : List Str → ℤ → Download → Option Download
  | [], total, dl =>
      (percent total file_size).map fun p => { dl with percents := dl.percents ++ [p] }
  | seg :: segs, total, dl =>
      let total := toInt (total + seg.length)
      (percent total file_size).bind fun p =>
        receive file_size segs total
          { dl with percents := dl.percents ++ [p], content := dl.content ++ seg }

/-- `get_file` on the pieces in which the stream is read. The file is truncated first. -/
def getFile : List Str → Option Download
  | [] =>
      let file_size := atoi []
      receive file_size [] 0 ⟨file_size, [], []⟩
  | first :: segs =>
      let file_size := atoi first
      receive file_size segs 0 ⟨file_size, [], []⟩

/-! ## What it writes -/

theorem percent_isSome (total : ℤ) {file_size : ℤ} (h : 0 < file_size) :
    (percent total file_size).isSome := by
  have hbound := (toInt_bounds (total * 100)).2
  have hq : (toInt (total * 100)).tdiv file_size < 2 ^ 31 := by
    cases Int.le_total 0 (toInt (total * 100)) with
    | inl hpos =>
      rw [Int.tdiv_eq_ediv_of_nonneg hpos]
      exact (Int.ediv_le_self _ hpos).trans_lt hbound
    | inr hneg =>
      have hquot := Int.tdiv_nonneg (Int.neg_nonneg.mpr hneg) h.le
      rw [Int.neg_tdiv] at hquot
      omega
  rw [percent, if_neg (by omega)]
  rfl

/-- Whatever is read after the first piece is the file, and no count changes the parsed size. -/
theorem receive_content {file_size : ℤ} {segs : List Str} {total : ℤ} {dl r : Download}
    (h : receive file_size segs total dl = some r) :
    r.content = dl.content ++ segs.flatten ∧ r.file_size = dl.file_size := by
  induction segs generalizing total dl with
  | nil =>
    rw [receive, Option.map_eq_some_iff] at h
    obtain ⟨p, -, rfl⟩ := h
    simp
  | cons seg segs ih =>
    rw [receive, Option.bind_eq_some_iff] at h
    obtain ⟨p, -, h⟩ := h
    obtain ⟨hcontent, hsize⟩ := ih h
    exact ⟨by rw [hcontent, List.flatten_cons, List.append_assoc], hsize⟩

theorem getFile_content {first : Str} {segs : List Str} {dl : Download}
    (h : getFile (first :: segs) = some dl) :
    dl.content = segs.flatten ∧ dl.file_size = atoi first := by
  rw [getFile] at h
  obtain ⟨hcontent, hsize⟩ := receive_content h
  exact ⟨by rw [hcontent, List.nil_append], hsize⟩

theorem receive_isSome {file_size : ℤ} (hsize : 0 < file_size) (segs : List Str) (total : ℤ)
    (dl : Download) : ∃ r, receive file_size segs total dl = some r := by
  induction segs generalizing total dl with
  | nil =>
    obtain ⟨p, hp⟩ := Option.isSome_iff_exists.mp (percent_isSome total hsize)
    exact ⟨_, by rw [receive, hp]; rfl⟩
  | cons seg segs ih =>
    obtain ⟨p, hp⟩ := Option.isSome_iff_exists.mp
      (percent_isSome (toInt (total + seg.length)) hsize)
    obtain ⟨r, hr⟩ := ih (toInt (total + seg.length))
      { dl with percents := dl.percents ++ [p], content := dl.content ++ seg }
    exact ⟨r, by simp only [receive, hp, Option.bind_some, hr]⟩

theorem getFile_sizeHeader {n : ℕ} (hpos : 0 < n) (hfits : n < 2 ^ 31) (rest : List Str) :
    ∃ dl, getFile (sizeHeader n :: rest) = some dl ∧ dl.file_size = n ∧
      dl.content = rest.flatten := by
  have hatoi : atoi (sizeHeader n) = n := atoi_sizeHeader hfits
  have hsize : 0 < atoi (sizeHeader n) := by omega
  obtain ⟨dl, hdl⟩ := receive_isSome hsize rest 0 ⟨atoi (sizeHeader n), [], []⟩
  have hget : getFile (sizeHeader n :: rest) = some dl := by
    rw [getFile, hdl]
  obtain ⟨hbody, hparsed⟩ := getFile_content hget
  exact ⟨dl, hget, hparsed.trans hatoi, hbody⟩

/-! ## Against the server -/

def Reproduces (content : Str) (reads : List Str) : Prop :=
  ∃ dl, getFile reads = some dl ∧ dl.file_size = content.length ∧ dl.content = content

instance (content : Str) (reads : List Str) : Decidable (Reproduces content reads) :=
  match h : getFile reads with
  | none => isFalse (by rintro ⟨dl, hdl, -⟩; rw [h] at hdl; cases hdl)
  | some dl => decidable_of_iff (dl.file_size = content.length ∧ dl.content = content)
      ⟨fun hdl => ⟨dl, h, hdl⟩, fun ⟨dl', hdl', hr⟩ => by
        obtain rfl : dl = dl' := Option.some.inj (h.symm.trans hdl')
        exact hr⟩

/-- A server that holds `content` and reads it in the given pieces. -/
def servedFile {content : Str} (F : Segmentation BUFFER content) : Found :=
  ⟨content.length, F.segments⟩

theorem flatten_servedFile {content : Str} (F : Segmentation BUFFER content) :
    (response (servedFile F)).flatten = sizeHeader (toInt content.length) ++ content := by
  rw [flatten_response, servedFile, F.flatten_eq]

/-- However the server reads its file and however the network cuts the stream, the client ends with
the size and the file exactly if its first `read` returns the whole header and the size fits. -/
theorem reproduces_iff {content : Str} (hne : content ≠ []) (F : Segmentation BUFFER content)
    (S : Segmentation BUFFER (response (servedFile F)).flatten) :
    Reproduces content S.segments ↔
      (S.segments.head?.map List.length = some BUFFER ∧ content.length < 2 ^ 31) := by
  have hhead : (sizeHeader (toInt content.length)).length = BUFFER := length_sizeHeader _
  have hstream : (response (servedFile F)).flatten ≠ [] := by
    rw [flatten_servedFile]
    simp [hne]
  obtain ⟨first, rest, hseg, hcut, -, -⟩ := S.exists_first hstream
  rw [flatten_servedFile] at hcut
  have hfirst : S.segments.head?.map List.length = some BUFFER ↔ first.length = BUFFER := by
    simp [hseg]
  rw [hfirst, hseg]
  constructor
  · rintro ⟨dl, hdl, hsize, hcontent⟩
    obtain ⟨hbody, hparsed⟩ := getFile_content hdl
    have hrest : rest.flatten = content := by rw [← hcontent, hbody]
    have hlen := congrArg List.length hcut
    rw [List.length_append, List.length_append, hrest, hhead] at hlen
    have hbound : atoi first < 2 ^ 31 := (toInt_bounds _).2
    have hatoi : atoi first = content.length := by rw [← hsize, hparsed]
    exact ⟨by omega, by omega⟩
  · rintro ⟨hlen, hfits⟩
    have hsame : first.length = (sizeHeader (toInt content.length)).length := by rw [hlen, hhead]
    obtain ⟨hfront, hrest⟩ := (Segmentation.first_eq_iff hcut).mp hsame
    rw [hfront]
    have hint : toInt content.length = content.length := toInt_of_mem (by omega) (by omega)
    obtain ⟨dl, hget, hsize, hcontent⟩ :=
      getFile_sizeHeader (List.length_pos_iff.mpr hne) hfits rest
    rw [← hint] at hget
    exact ⟨dl, hget, hsize, hcontent.trans hrest⟩

/-! ## A file of one byte -/

def oneByteFile : Str := [104]

theorem length_sizeHeader_one : (sizeHeader 1).length = BUFFER := length_sizeHeader 1

def oneByte : Segmentation BUFFER oneByteFile where
  segments := [oneByteFile]
  ne_nil := by decide
  length_le := by decide
  flatten_eq := rfl

/-- The stream of a file of one byte, cut after the first `k` bytes of the header and after it. -/
def oneByteCut (k : ℕ) (hk : 0 < k) (hlt : k < BUFFER) :
    Segmentation BUFFER (response (servedFile oneByte)).flatten where
  segments := [(sizeHeader 1).take k, (sizeHeader 1).drop k, oneByteFile]
  ne_nil := by
    simp only [List.mem_cons, List.not_mem_nil, or_false, forall_eq_or_imp, forall_eq, ne_eq,
      ← List.length_eq_zero_iff, List.length_take, List.length_drop, length_sizeHeader_one]
    exact ⟨by omega, by omega, by decide⟩
  length_le := by
    simp only [List.mem_cons, List.not_mem_nil, or_false, forall_eq_or_imp, forall_eq,
      List.length_take, List.length_drop, length_sizeHeader_one]
    exact ⟨by omega, by omega, by decide⟩
  flatten_eq := by
    rw [flatten_servedFile]
    simp only [List.flatten_cons, List.flatten_nil, List.append_nil, ← List.append_assoc,
      List.take_append_drop]
    rfl

def oneByteWhole : Segmentation BUFFER (response (servedFile oneByte)).flatten where
  segments := [sizeHeader 1, oneByteFile]
  ne_nil := by
    simp only [List.mem_cons, List.not_mem_nil, or_false, forall_eq_or_imp, forall_eq, ne_eq,
      ← List.length_eq_zero_iff, length_sizeHeader_one]
    exact ⟨by decide, by decide⟩
  length_le := by
    simp only [List.mem_cons, List.not_mem_nil, or_false, forall_eq_or_imp, forall_eq,
      length_sizeHeader_one]
    exact ⟨le_refl _, by decide⟩
  flatten_eq := by
    rw [flatten_servedFile]
    rfl

theorem reproduces_oneByte : Reproduces oneByteFile [sizeHeader 1, oneByteFile] := by
  refine (reproduces_iff (by decide) oneByte oneByteWhole).mpr ⟨?_, by decide⟩
  show some (sizeHeader 1).length = some BUFFER
  rw [length_sizeHeader_one]

/-- The first `read` returns two bytes of the header: the size is right, and the other 1022 bytes of
the header are in the file. -/
theorem short_header_not_reproduced :
    ¬ ∀ (content : Str), content ≠ [] → ∀ (F : Segmentation BUFFER content)
      (S : Segmentation BUFFER (response (servedFile F)).flatten),
      Reproduces content S.segments := by
  intro h
  obtain ⟨dl, hdl, -, hcontent⟩ :=
    h oneByteFile (by decide) oneByte (oneByteCut 2 (by decide) (by decide))
  have hget : getFile ((sizeHeader 1).take 2 :: [(sizeHeader 1).drop 2, oneByteFile]) = some dl :=
    hdl
  have hbody := (getFile_content hget).1
  rw [hcontent] at hbody
  have hlen := congrArg List.length hbody
  simp only [List.flatten_cons, List.flatten_nil, List.append_nil,
    List.length_append, List.length_drop, length_sizeHeader_one, oneByteFile, List.length_singleton] at hlen
  exact absurd hlen (by decide)

end ComputerNetworks.LabServer
