import ComputerNetworks.FileTransfer.Download
import ComputerNetworks.Library.Runs

/-! # A whole transfer

The send loop of the file server and the receive loop of its client run side by side, coupled by the
bytes on the connection and by its end alone. Their turns interleave as they like: a `read` returns
any number of the bytes that are there, up to the size of the buffer, and waits when there are none
and the other side is still sending. `transfer_exact` says that both loops end and that the client
stores the file, byte for byte.
-/
namespace ComputerNetworks.FileTransfer
open Runs
set_option autoImplicit false

/-- A `do { bzero; num = read; write } while (num > 0)` loop in progress: what its `read` calls
returned and what its `write` calls took so far. -/
structure Loop where
  reads : List Str := []
  writes : List Str := []
  running : Bool := true

def Loop.turn (l : Loop) (seg : Str) : Loop where
  reads := l.reads ++ [seg]
  writes := l.writes ++ [written (filled seg) seg.length]
  running := decide (seg.length > 0)

/-- A transfer in progress: the rest of the server's file, and the bytes that were sent and not yet
received. -/
structure Transfer where
  file : Str
  server : Loop := {}
  wire : Str := []
  client : Loop := {}

/-- The turns of the two loops, with the result of the `read`. -/
inductive Turn where
  | server (num : ℕ)
  | client (num : ℕ)

/-- What `read (fd, buffer, 256)` may return while `available` can be read: some of it, and 0 only
when nothing is left and nothing will follow. -/
def MayReturn (available : Str) (ended : Bool) (num : ℕ) : Prop :=
  num ≤ bufferLen ∧ num ≤ available.length ∧ (num = 0 → available = [] ∧ ended = true)

instance instDecidableMayReturn (available : Str) (ended : Bool) (num : ℕ) :
    Decidable (MayReturn available ended num) := by
  unfold MayReturn
  infer_instance

namespace Transfer

def turn (s : Transfer) : Turn → Option Transfer
  | .server num =>
      if s.server.running = true ∧ MayReturn s.file true num then
        let seg := s.file.take num
        some { s with
          file := s.file.drop num
          server := s.server.turn seg
          wire := s.wire ++ written (filled seg) seg.length }
      else none
  | .client num =>
      -- the server closes the connection when its loop is over
      if s.client.running = true ∧ MayReturn s.wire (!s.server.running) num then
        let seg := s.wire.take num
        some { s with wire := s.wire.drop num, client := s.client.turn seg }
      else none

def Step (s : Transfer) (t : Turn) (s' : Transfer) : Prop := s.turn t = some s'

theorem step_cases {s s' : Transfer} {t : Turn} (h : s.Step t s') :
    (∃ num, t = .server num ∧ s.server.running = true ∧ MayReturn s.file true num ∧
      s' = { s with
        file := s.file.drop num
        server := s.server.turn (s.file.take num)
        wire := s.wire ++ s.file.take num }) ∨
    (∃ num, t = .client num ∧ s.client.running = true ∧
      MayReturn s.wire (!s.server.running) num ∧
      s' = { s with wire := s.wire.drop num, client := s.client.turn (s.wire.take num) }) := by
  cases t with
  | server num =>
    unfold Step turn at h
    simp only [written_filled] at h
    split_ifs at h with hguard
    obtain rfl := Option.some.inj h
    exact Or.inl ⟨num, rfl, hguard.1, hguard.2, rfl⟩
  | client num =>
    unfold Step turn at h
    simp only at h
    split_ifs at h with hguard
    obtain rfl := Option.some.inj h
    exact Or.inr ⟨num, rfl, hguard.1, hguard.2, rfl⟩

end Transfer

/-! ## One loop -/

namespace Loop

/-- A loop writes what it reads, ends with the first empty `read`, and is then `copyLoop`. -/
structure Sound (l : Loop) : Prop where
  writes_eq : l.writes = l.reads
  running_reads : l.running = true → ∀ seg ∈ l.reads, seg ≠ [] ∧ seg.length ≤ bufferLen
  ended_reads : l.running = false → ∃ segs, l.reads = segs ++ [[]] ∧
    ∀ seg ∈ segs, seg ≠ [] ∧ seg.length ≤ bufferLen

theorem sound_start : Sound {} := ⟨rfl, by simp, by simp⟩

theorem Sound.turn {l : Loop} (h : l.Sound) (hrun : l.running = true) {seg : Str}
    (hseg : seg.length ≤ bufferLen) : (l.turn seg).Sound := by
  refine ⟨?_, fun hgoes => ?_, fun hends => ?_⟩
  · show l.writes ++ [written (filled seg) seg.length] = l.reads ++ [seg]
    rw [written_filled, h.writes_eq]
  · have hne : seg ≠ [] := by
      have hpos : seg.length > 0 := of_decide_eq_true hgoes
      exact List.ne_nil_of_length_pos hpos
    intro seg' hmem
    obtain hmem | hmem := List.mem_append.mp hmem
    · exact h.running_reads hrun seg' hmem
    · obtain rfl := List.mem_singleton.mp hmem
      exact ⟨hne, hseg⟩
  · have hnil : seg = [] := by
      have hzero : ¬ seg.length > 0 := of_decide_eq_false hends
      exact List.eq_nil_of_length_eq_zero (by omega)
    exact ⟨l.reads, by rw [Loop.turn, hnil], h.running_reads hrun⟩

theorem copyLoop_eof (segs : List Str) : copyLoop segs .eof = segs ++ [[]] := by
  induction segs with
  | nil => rfl
  | cons seg segs ih => rw [copyLoop, written_filled, ih, List.cons_append]

theorem Sound.exists_segmentation {l : Loop} (h : l.Sound) (hends : l.running = false)
    {stream : Str} (hstream : l.writes.flatten = stream) :
    ∃ S : Segmentation bufferLen stream, l.writes = copyLoop S.segments .eof := by
  obtain ⟨segs, hreads, hsegs⟩ := h.ended_reads hends
  have hwrites : l.writes = segs ++ [[]] := h.writes_eq.trans hreads
  have hflatten : segs.flatten = stream := by
    rw [← hstream, hwrites, List.flatten_append, List.flatten_singleton, List.append_nil]
  exact ⟨⟨segs, fun seg hseg => (hsegs seg hseg).1, fun seg hseg => (hsegs seg hseg).2, hflatten⟩,
    hwrites.trans (copyLoop_eof segs).symm⟩

end Loop

/-! ## Both loops -/

namespace Transfer

/-- Every byte of the file is where it should be: stored, under way or not yet sent, in this order. -/
structure Conserves (content : Str) (s : Transfer) : Prop where
  sent : s.server.writes.flatten ++ s.file = content
  received : s.client.writes.flatten ++ s.wire = s.server.writes.flatten
  server_sound : s.server.Sound
  client_sound : s.client.Sound
  server_ended : s.server.running = false → s.file = []
  client_ended : s.client.running = false → s.wire = [] ∧ s.server.running = false

theorem conserves_start (content : Str) : Conserves content { file := content } :=
  ⟨rfl, rfl, Loop.sound_start, Loop.sound_start, by simp, by simp⟩

theorem take_length_le {s : Str} {ended : Bool} {num : ℕ} (h : MayReturn s ended num) :
    (s.take num).length ≤ bufferLen := by
  rw [List.length_take]
  exact (Nat.min_le_left _ _).trans h.1

theorem flatten_turn (l : Loop) (seg : Str) :
    (l.turn seg).writes.flatten = l.writes.flatten ++ seg := by
  rw [Loop.turn, List.flatten_append, written_filled, List.flatten_singleton]

theorem running_turn (l : Loop) {s : Str} {ended : Bool} {num : ℕ} (h : MayReturn s ended num)
    (hends : (l.turn (s.take num)).running = false) : s = [] ∧ ended = true := by
  have hzero : ¬ (s.take num).length > 0 := of_decide_eq_false hends
  rw [List.length_take] at hzero
  have hle := h.2.1
  exact h.2.2 (by omega)

theorem conserves_step {content : Str} {s s' : Transfer} {t : Turn} (hs : Conserves content s)
    (h : s.Step t s') : Conserves content s' := by
  obtain ⟨num, -, hrun, hread, rfl⟩ | ⟨num, -, hrun, hread, rfl⟩ := step_cases h
  · refine ⟨?_, ?_, hs.server_sound.turn hrun (take_length_le hread), hs.client_sound, ?_, ?_⟩
    · rw [flatten_turn, List.append_assoc, List.take_append_drop]
      exact hs.sent
    · rw [flatten_turn, ← List.append_assoc, hs.received]
    · intro hends
      have hnil := (running_turn _ hread hends).1
      rw [hnil, List.drop_nil]
    · intro hclient
      -- the client cannot have seen the end of a stream that still grows
      have hends := (hs.client_ended hclient).2
      rw [hrun] at hends
      cases hends
  · refine ⟨hs.sent, ?_, hs.server_sound, hs.client_sound.turn hrun (take_length_le hread),
      hs.server_ended, ?_⟩
    · rw [flatten_turn, List.append_assoc, List.take_append_drop]
      exact hs.received
    · intro hends
      obtain ⟨hnil, hclosed⟩ := running_turn _ hread hends
      exact ⟨by rw [hnil, List.drop_nil], by simpa using hclosed⟩

/-- The turns that are left, at most: a byte takes part in two of them. -/
def remaining (s : Transfer) : ℕ :=
  2 * s.file.length + s.wire.length + s.server.running.toNat + s.client.running.toNat

theorem remaining_step {s s' : Transfer} {t : Turn} (h : s.Step t s') :
    s'.remaining < s.remaining := by
  obtain ⟨num, -, hrun, hread, rfl⟩ | ⟨num, -, hrun, hread, rfl⟩ := step_cases h
  · have hlen := hread.2.1
    simp only [remaining, Loop.turn, List.length_append, List.length_take, List.length_drop, hrun]
    by_cases hnum : num = 0
    · have hnil := (hread.2.2 hnum).1
      simp [hnum, hnil]
    · have := Bool.toNat_le (decide (min num s.file.length > 0))
      simp only [Bool.toNat_true]
      omega
  · have hlen := hread.2.1
    simp only [remaining, Loop.turn, List.length_take, List.length_drop, hrun]
    by_cases hnum : num = 0
    · have hnil := (hread.2.2 hnum).1
      simp [hnum, hnil]
    · have := Bool.toNat_le (decide (min num s.wire.length > 0))
      simp only [Bool.toNat_true]
      omega

theorem length_add_remaining {s₀ s : Transfer} {past : List (Transfer × Turn)}
    (h : Run Step s₀ past s) : past.length + s.remaining ≤ s₀.remaining := by
  induction h with
  | start => simp
  | next _ ht ih =>
    have hless := remaining_step ht
    rw [List.length_cons]
    omega

def Done (s : Transfer) : Prop := s.server.running = false ∧ s.client.running = false

theorem exists_mayReturn (available : Str) {ended : Bool} (h : available = [] → ended = true) :
    ∃ num, MayReturn available ended num := by
  by_cases hnil : available = []
  · exact ⟨0, by omega, by omega, fun _ => ⟨hnil, h hnil⟩⟩
  · exact ⟨1, by decide, List.length_pos_iff.mpr hnil, fun h => absurd h (by omega)⟩

theorem exists_step {s : Transfer} (h : ¬ s.Done) : ∃ t s', s.Step t s' := by
  by_cases hserver : s.server.running = true
  · obtain ⟨num, hread⟩ := exists_mayReturn s.file (fun _ => rfl : _ → true = true)
    have hguard := And.intro hserver hread
    exact ⟨.server num, _, if_pos hguard⟩
  · have hclient : s.client.running = true := by
      by_contra hends
      exact h ⟨by simpa using hserver, by simpa using hends⟩
    have hclosed : (!s.server.running) = true := by simpa using hserver
    obtain ⟨num, hread⟩ := exists_mayReturn s.wire fun _ => hclosed
    have hguard := And.intro hclient hread
    exact ⟨.client num, _, if_pos hguard⟩

end Transfer

/-! ## The result -/

open Transfer in
/-- A transfer takes at most two turns for each byte and two more, never gets stuck, and at every
moment the client has stored an initial piece of the file. When both loops are over, the server has
been `serveChild` on one way of reading the file, the client its program on one way of reading the
connection, and the stored file is the server's. -/
theorem transfer_exact {content : Str} {past : List (Transfer × Turn)} {s : Transfer}
    (h : Run Transfer.Step { file := content } past s) :
    past.length ≤ 2 * content.length + 2 ∧ s.client.writes.flatten <+: content ∧
    (¬ s.Done → ∃ t s', s.Step t s') ∧
    (s.Done → ∃ (F C : Segmentation bufferLen content),
      (∀ (openRead : Str → Option (List Str)) (request path : Str),
        openPath request = some path → openRead path = some F.segments →
          serveChild openRead request = some s.server.writes) ∧
      s.client.writes = copyLoop C.segments .eof ∧ s.client.writes.flatten = content ∧
      ∀ c ∈ [Client.download_func, Client.file_transfer], ∀ (files : Files) (name : Str),
        (c.localName name).length < 100 →
          c.run files true name ⟨C.segments, .eof⟩ =
            some (store files true (c.localName name) s.client.writes) ∧
          store files true (c.localName name) s.client.writes (c.localName name) =
            some content) := by
  have hs : Conserves content s :=
    h.invariant (conserves_start content) fun _ _ _ hs ht => conserves_step hs ht
  refine ⟨?_, ?_, exists_step, ?_⟩
  · have hlen := length_add_remaining h
    simp only [remaining, Bool.toNat_true, List.length_nil] at hlen
    omega
  · refine ⟨s.wire ++ s.file, ?_⟩
    rw [← List.append_assoc, hs.received, hs.sent]
  · rintro ⟨hserver, hclient⟩
    have hsent : s.server.writes.flatten = content := by
      rw [← hs.sent, hs.server_ended hserver, List.append_nil]
    have hstored : s.client.writes.flatten = content := by
      rw [← hsent, ← hs.received, (hs.client_ended hclient).1, List.append_nil]
    obtain ⟨F, hF⟩ := hs.server_sound.exists_segmentation hserver hsent
    obtain ⟨C, hC⟩ := hs.client_sound.exists_segmentation hclient hstored
    refine ⟨F, C, ?_, hC, hstored, ?_⟩
    · intro openRead request path hpath hopen
      rw [serveChild, hpath, Option.map_some, hopen, hF]
    · intro c hc files name hfits
      rw [c.run_of_fits hc files true hfits, hC, store_eq, if_pos rfl, Function.update_self, ← hC,
        hstored]
      exact ⟨rfl, rfl⟩

/-! ## A file of two bytes -/

def twoBytes : List Turn := [.server 2, .client 1, .server 0, .client 1, .client 0]

theorem done_twoBytes : ∃ s, twoBytes.foldlM Transfer.turn { file := bytes "ab" } = some s ∧
    s.Done := ⟨_, rfl, rfl, rfl⟩

theorem transfer_exact_twoBytes : ∃ segments, segments.flatten = bytes "ab" ∧
    ∀ c ∈ [Client.download_func, Client.file_transfer],
      ∃ files', c.run oldCopy true (bytes "a") ⟨segments, .eof⟩ = some files' ∧
        files' (bytes "new a") = some (bytes "ab") := by
  obtain ⟨s, hs, hdone⟩ := done_twoBytes
  obtain ⟨past, hrun⟩ := exists_run_of_foldlM hs
  obtain ⟨F, C, -, -, -, hstored⟩ := (transfer_exact hrun).2.2.2 hdone
  refine ⟨C.segments, C.flatten_eq, fun c hc => ?_⟩
  have hname : c.localName (bytes "a") = bytes "new a" := by fin_cases hc <;> rfl
  have hclient := hstored c hc oldCopy (bytes "a") (by rw [hname]; decide)
  rw [hname] at hclient
  exact ⟨_, hclient⟩

end ComputerNetworks.FileTransfer
