import ComputerNetworks.CsmaDevice.Medium
import ComputerNetworks.CsmaDevice.Frames

/-! # From one protocol stack to the others

`SendFrom` queues the frame that `AddHeader` makes of a packet, the channel carries frames, and `Receive`
takes them apart. Here the three meet: over any run of the devices on their channel, `lan_delivers` says
what the protocol stack above a device gets.
-/
namespace ComputerNetworks.CsmaDevice
open Headers Runs
set_option autoImplicit false

variable {α ι σ : Type}

/-- A packet as `SendFrom` queues it: what it was called with, the settings of its device at that time,
and the frame. -/
structure Posted (F : FrameFormats α) where
  m_encapMode : EncapsulationMode
  m_mtu : UInt16
  packet : Str
  source : α
  dest : α
  protocolNumber : UInt16
  frame : Str
  framed : addHeader F m_encapMode m_mtu packet source dest protocolNumber = .ok frame

/-- The settings of a device when a frame arrives, and the answer of its error model. -/
structure Reading (α : Type) where
  reader : Reader α
  corrupt : Bool

section
variable {F : FrameFormats α}

def Posted.Legible (m : Posted F) : Prop :=
  CsmaDevice.Legible F m.m_encapMode m.packet m.protocolNumber

def Posted.handed (m : Posted F) : Str × UInt16 × α :=
  (handedOver m.m_encapMode m.packet, m.protocolNumber, m.source)

variable [DecidableEq α] [DecidableEq ι]

/-- The calls of `m_rxCallback` of device `j` while it receives `ms`, the `k`-th with the settings
`reading k`. -/
def stackGets (j : ι) : (ℕ → Reading α) → List (ι × Posted F) →
    Except FrameAssertion (List (Str × UInt16 × α))
  | _, [] => .ok []
  | reading, m :: ms =>
      match receive F (reading 0).reader (m.1 = j) (reading 0).corrupt m.2.frame with
      | .error a => .error a
      | .ok t => (stackGets j (fun k => reading (k + 1)) ms).map (t.filterMap RxTrace.up ++ ·)

/-- Device `j` takes frames of other devices that are for it, if it receives and they are intact. -/
def Takes (j : ι) (r : Reading α) (m : ι × Posted F) : Prop :=
  m.1 ≠ j ∧ r.reader.m_receiveEnable = true ∧ r.corrupt = false ∧
    packetType F r.reader m.2.dest ≠ .otherHost

instance (j : ι) (r : Reading α) (m : ι × Posted F) : Decidable (Takes j r m) :=
  inferInstanceAs (Decidable (_ ∧ _ ∧ _ ∧ _))

/-- The packets of `ms` that device `j` takes, as `AddHeader` padded them, with protocol and source. -/
def handedTo (j : ι) : (ℕ → Reading α) → List (ι × Posted F) → List (Str × UInt16 × α)
  | _, [] => []
  | reading, m :: ms =>
      (if Takes j (reading 0) m then [m.2.handed] else []) ++ handedTo j (fun k => reading (k + 1)) ms

/-! ## One frame -/

theorem receive_own (r : Reader α) (corrupt : Bool) (packet : Str) :
    receive F r true corrupt packet = .ok [] := if_pos rfl

theorem receive_refused {r : Reader α} {corrupt : Bool}
    (h : ¬ (r.m_receiveEnable = true ∧ corrupt = false)) (packet : Str) :
    receive F r false corrupt packet = .ok [.phyRxEnd packet, .phyRxDrop packet] := by
  rw [receive, if_neg Bool.false_ne_true]
  by_cases hr : r.m_receiveEnable = false
  · rw [if_pos hr]
  · have hcorrupt : corrupt = true := by
      by_contra hnot
      exact h ⟨Bool.not_eq_false _ ▸ hr, Bool.not_eq_true _ ▸ hnot⟩
    rw [if_neg hr, if_pos hcorrupt]

theorem receive_legible {m : Posted F} (h : m.Legible) {r : Reader α} (hr : r.m_receiveEnable = true) :
    receive F r false false m.frame = .ok (.phyRxEnd m.frame ::
      handOn F r m.frame m.source m.dest m.protocolNumber (handedOver m.m_encapMode m.packet)) := by
  obtain ⟨lengthType, q, hframe, hlegible⟩ := addHeader_eq_ok m.framed
  rw [hframe, receive_encapsulate r hr, hlegible.mpr h]
  rfl

theorem up_receive {j : ι} {r : Reading α} {m : ι × Posted F} (h : m.2.Legible) :
    ∃ t, receive F r.reader (m.1 = j) r.corrupt m.2.frame = .ok t ∧
      t.filterMap RxTrace.up = if Takes j r m then [m.2.handed] else [] := by
  by_cases hown : m.1 = j
  · refine ⟨[], ?_, ?_⟩
    · rw [decide_eq_true hown, receive_own]
    · rw [if_neg fun htakes => htakes.1 hown]
      rfl
  rw [decide_eq_false hown]
  by_cases hon : r.reader.m_receiveEnable = true ∧ r.corrupt = false
  · refine ⟨_, by rw [hon.2, receive_legible h hon.1], ?_⟩
    rw [List.filterMap_cons_none rfl, filterMap_up_handOn]
    by_cases hdest : packetType F r.reader m.2.dest = .otherHost
    · rw [if_neg (not_not.mpr hdest), if_neg fun htakes => htakes.2.2.2 hdest]
    · rw [if_pos hdest, if_pos ⟨hown, hon.1, hon.2, hdest⟩]
      rfl
  · refine ⟨_, receive_refused hon _, ?_⟩
    rw [if_neg fun htakes => hon ⟨htakes.2.1, htakes.2.2.1⟩]
    rfl

theorem stackGets_legible {j : ι} {ms : List (ι × Posted F)} (h : ∀ m ∈ ms, m.2.Legible)
    (reading : ℕ → Reading α) : stackGets j reading ms = .ok (handedTo j reading ms) := by
  induction ms generalizing reading with
  | nil => rfl
  | cons m ms ih =>
    obtain ⟨t, hread, hup⟩ := up_receive (h m List.mem_cons_self)
    have hrest := ih (fun m hm => h m (List.mem_cons_of_mem _ hm)) fun k => reading (k + 1)
    rw [stackGets, hread, hrest, handedTo, ← hup]
    rfl

end

/-! ## The whole run -/

section
variable {F : FrameFormats α} [DecidableEq α] [DecidableEq ι] {C : CsmaChannel ι (Posted F) σ}

theorem mem_sentBy {π : Type} {m : ι × π} {carried : List (ι × π)} (h : m ∈ carried) :
    m.2 ∈ sentBy m.1 carried :=
  List.mem_filterMap.mpr ⟨m, h, if_pos rfl⟩

theorem MediumInv.sent_mem_accepted {π : Type} {C : CsmaChannel ι π σ} {s : Medium ι π σ}
    (h : MediumInv C s) {j : ι} {m : ι × π} (hm : m ∈ s.received j) :
    m.2 ∈ (s.device m.1).accepted := by
  have hcarried : m ∈ s.carried := by
    rw [← h.arrived j]
    exact List.mem_append_left _ hm
  have hbegun : m.2 ∈ (s.device m.1).begun := by
    rw [h.begun, ← h.ended]
    exact List.mem_append_left _ (mem_sentBy hcarried)
  have horder := (h.device m.1).conserved.order
  rw [List.append_assoc] at horder
  exact ((List.sublist_append_left _ _).trans horder).subset hbegun

/-- In every run: when the packets that the queues accepted are legible, no assertion of any `Receive`
fails, and the stack above a device gets of what the channel carried so far exactly the packets of the
others that are for it and reach it uncorrupted while it receives, as `AddHeader` padded them, in the
order of the channel. Of each sender these are packets in the order in which it accepted them, and
nothing that it began is missing once the channel and the device are done with it. -/
theorem lan_delivers {c : σ} (hc : C.getState c = .idle) {sendEnable : ι → Bool} {b : ι → Backoff}
    {past : List (Medium ι (Posted F) σ × MediumEvent ι (Posted F))} {s : Medium ι (Posted F) σ}
    (h : Run (MediumStep C) (Medium.init c sendEnable b) past s)
    (hlegible : ∀ i, ∀ m ∈ (s.device i).accepted, m.Legible) (j : ι) :
    (∀ reading, stackGets j reading (s.received j) = .ok (handedTo j reading (s.received j))) ∧
    s.received j <+: s.carried ∧
    ∀ i, (sentBy i (s.received j)).Sublist (s.device i).accepted ∧
      (s.arriving j = [] → (s.device i).m_txMachineState ≠ .busy →
        sentBy i (s.received j) = (s.device i).begun) := by
  have hinv := mediumRun_inv hc h
  have hreceived : s.received j <+: s.carried := ⟨s.arriving j, hinv.arrived j⟩
  refine ⟨fun reading => stackGets_legible (fun m hm => ?_) reading, hreceived, fun i => ⟨?_, ?_⟩⟩
  · exact hlegible m.1 m.2 (hinv.sent_mem_accepted hm)
  · have hcarried : (sentBy i (s.received j)).Sublist (s.device i).begun := by
      rw [hinv.begun i, ← hinv.ended i]
      exact (hreceived.sublist.filterMap _).trans (List.sublist_append_left _ _)
    have horder := (hinv.device i).conserved.order
    rw [List.append_assoc] at horder
    exact hcarried.trans ((List.sublist_append_left _ _).trans horder)
  · intro harriving hidle
    have hreceived : s.received j = s.carried := by
      rw [← hinv.arrived j, harriving, List.append_nil]
    have hair : (s.device i).onAir = none := if_neg hidle
    rw [hreceived, hinv.begun i, hinv.ended i, hair]
    exact (List.append_nil _).symm

end

/-! ## One byte between two devices -/

def postedByte : Posted wireFormats where
  m_encapMode := .llc
  m_mtu := 1500
  packet := [7]
  source := firstMac
  dest := secondMac
  protocolNumber := 2048
  frame := oneByteFrame
  framed := by decide +kernel

theorem lan_delivers_oneByte :
    (∀ reading, stackGets false reading ((packetArriving postedByte).received false) =
      .ok (handedTo false reading ((packetArriving postedByte).received false))) ∧
    (packetArriving postedByte).received false <+: (packetArriving postedByte).carried ∧
    ∀ i, (sentBy i ((packetArriving postedByte).received false)).Sublist
        ((packetArriving postedByte).device i).accepted ∧
      ((packetArriving postedByte).arriving false = [] →
        ((packetArriving postedByte).device i).m_txMachineState ≠ .busy →
          sentBy i ((packetArriving postedByte).received false) =
            ((packetArriving postedByte).device i).begun) := by
  refine lan_delivers rfl (run_packetArriving postedByte) ?_ false
  rintro (_ | _) m hm
  · cases hm
  · obtain rfl := List.mem_singleton.mp hm
    exact (by decide : 8 + 1 ≤ 1500)

end ComputerNetworks.CsmaDevice
