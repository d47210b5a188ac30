import ComputerNetworks.Library.CStrings
import ComputerNetworks.Library.Headers

/-! # Frames of the edited `CsmaNetDevice`

`AddHeader` wraps a packet on its way to the channel and `Receive` unwraps what the channel delivers. One
field of the Ethernet header is a protocol number or a length, depending on `m_encapMode` of the sender;
the receiver goes by its value alone. `receive_addHeader_iff` says for which packets this comes to the
same. The header classes of the simulator are parameters, with the laws of `Headers`.
-/
namespace ComputerNetworks.CsmaDevice
open Headers
set_option autoImplicit false

variable {α : Type}

/-! ## Headers and addresses -/

structure EthernetHeader (α : Type) where
  source : α
  destination : α
  lengthType : UInt16
  deriving DecidableEq

inductive EncapsulationMode where
  | illegal
  | dix
  | llc
  deriving DecidableEq

/-- What the device uses of the classes for headers and addresses `α`. Whether the trailer holds a
checksum is the same for all devices (`Node::ChecksumEnabled`). -/
structure FrameFormats (α : Type) where
  ethernet : Header Byte (EthernetHeader α)
  llcSnap : Header Byte UInt16
  trailer : Trailer Byte
  isBroadcast : α → Bool
  isGroup : α → Bool

/-- The assertions on frames. `shortPacket` is one of the header classes: there is nothing to take off
a packet that ends before the header. -/
inductive FrameAssertion where
  | encapMode
  | mtu
  | shortPacket
  | lengthType
  | padlen
  deriving DecidableEq

/-! ## Sending -/

/-- The padding to a payload of 46 bytes. -/
def padded (p : Str) : Str := p ++ List.replicate (46 - p.length) 0

section
variable (F : FrameFormats α)

def encapsulate (p : Str) (source dest : α) (lengthType : UInt16) : Str :=
  F.trailer.add (F.ethernet.serialize ⟨source, dest, lengthType⟩ ++ p)

/-- `AddHeader`. -/
def addHeader (m_encapMode : EncapsulationMode) (m_mtu : UInt16) (p : Str) (source dest : α)
    (protocolNumber : UInt16) : Except FrameAssertion Str :=
  match m_encapMode with
  | .dix => .ok (encapsulate F (padded p) source dest protocolNumber)
  | .llc =>
      let p := F.llcSnap.serialize protocolNumber ++ p
      let lengthType := UInt16.ofNat p.length
      let p := padded p
      if p.length ≤ m_mtu.toNat then .ok (encapsulate F p source dest lengthType) else .error .mtu
  | .illegal => .error .encapMode

/-! ## Receiving -/

inductive PacketType where
  | host
  | broadcast
  | multicast
  | otherHost
  deriving DecidableEq

/-- The traces and callbacks of the reading side. `rxCallback` is the protocol stack above. -/
inductive RxTrace (α : Type) where
  | phyRxEnd (packet : Str)
  | phyRxDrop (packet : Str)
  | promiscSniffer (packet : Str)
  | macPromiscRx (packet : Str)
  | promiscRxCallback (packet : Str) (protocol : UInt16) (source dest : α) (packetType : PacketType)
  | sniffer (packet : Str)
  | macRx (packet : Str)
  | rxCallback (packet : Str) (protocol : UInt16) (source : α)
  deriving DecidableEq

/-- The fields that the reading side uses, and whether `m_promiscRxCallback` is set. -/
structure Reader (α : Type) where
  m_address : α
  m_receiveEnable : Bool
  promiscuous : Bool
  deriving DecidableEq

/-- The protocol number and the payload behind the Ethernet header. Up to 1500, `lengthType` is a length
and there is an LLC/SNAP header. -/
def readProtocol (lengthType : UInt16) (packet : Str) : Except FrameAssertion (UInt16 × Str) :=
  if lengthType ≤ 1500 then
    if packet.length < lengthType.toNat then .error .lengthType
    else
      let padlen := packet.length - lengthType.toNat
      if 46 < padlen then .error .padlen
      else
        match F.llcSnap.deserialize (packet.take (packet.length - padlen)) with
        | none => .error .shortPacket
        | some (protocol, packet) => .ok (protocol, packet)
  else .ok (lengthType, packet)

variable [DecidableEq α]

def packetType (r : Reader α) (dest : α) : PacketType :=
  if F.isBroadcast dest then .broadcast
  else if F.isGroup dest then .multicast
  else if dest = r.m_address then .host
  else .otherHost

/-- The end of `Receive`: what is handed on of a packet in a frame that was unwrapped. -/
def handOn (r : Reader α) (originalPacket : Str) (source dest : α) (protocol : UInt16) (packet : Str) :
    List (RxTrace α) :=
  .promiscSniffer originalPacket ::
    ((if r.promiscuous then [.macPromiscRx originalPacket,
        .promiscRxCallback packet protocol source dest (packetType F r dest)] else []) ++
      if packetType F r dest ≠ .otherHost then
        [.sniffer originalPacket, .macRx originalPacket, .rxCallback packet protocol source]
      else [])

/-- `Receive`, with its traces and callbacks in their order. `own` says whether the device is the
sender, and `corrupt` is the answer of the error model. -/
def receive (r : Reader α) (own corrupt : Bool) (packet : Str) :
    Except FrameAssertion (List (RxTrace α)) :=
  if own then .ok []
  else if r.m_receiveEnable = false then .ok [.phyRxEnd packet, .phyRxDrop packet]
  else if corrupt then .ok [.phyRxEnd packet, .phyRxDrop packet]
  else
    match F.trailer.remove packet with
    | none => .error .shortPacket
    | some (rest, trailer) =>
        if F.trailer.check trailer rest = false then .ok [.phyRxEnd packet, .phyRxDrop rest]
        else
          match F.ethernet.deserialize rest with
          | none => .error .shortPacket
          | some (header, rest) =>
              (readProtocol F header.lengthType rest).map fun (protocol, rest) =>
                .phyRxEnd packet :: handOn F r packet header.source header.destination protocol rest

end

/-! ## Frames that are read as they were written -/

section
variable (F : FrameFormats α)

/-- A protocol number that is no length, or a payload whose length is no protocol number. -/
def Legible (m_encapMode : EncapsulationMode) (p : Str) (protocolNumber : UInt16) : Prop :=
  match m_encapMode with
  | .dix => 1500 < protocolNumber
  | .llc => F.llcSnap.size + p.length ≤ 1500
  | .illegal => False

/-- The packet as the stack above gets it: only a length tells the padding from the packet. -/
def handedOver (m_encapMode : EncapsulationMode) (p : Str) : Str :=
  match m_encapMode with
  | .dix => padded p
  | _ => p

variable {F}

theorem length_padded (p : Str) : (padded p).length = max 46 p.length := by
  rw [padded, List.length_append, List.length_replicate]
  omega

theorem take_padded (p : Str) : (padded p).take p.length = p := List.take_left

theorem length_llc (p : Str) (protocolNumber : UInt16) :
    (F.llcSnap.serialize protocolNumber ++ p).length = F.llcSnap.size + p.length := by
  rw [List.length_append, F.llcSnap.length_serialize]

/-- A length that the sender wrote makes the receiver take off the padding and the LLC/SNAP header. -/
theorem readProtocol_llc {p : Str} {protocolNumber : UInt16}
    (hlen : F.llcSnap.size + p.length ≤ 1500) :
    readProtocol F (UInt16.ofNat (F.llcSnap.serialize protocolNumber ++ p).length)
      (padded (F.llcSnap.serialize protocolNumber ++ p)) = .ok (protocolNumber, p) := by
  set q := F.llcSnap.serialize protocolNumber ++ p with hq
  have hqlen : q.length ≤ 1500 := by rw [hq, length_llc]; exact hlen
  have hsmall : (UInt16.ofNat q.length).toNat = q.length :=
    UInt16.toNat_ofNat_of_lt' (hqlen.trans_lt (by decide))
  have hle : UInt16.ofNat q.length ≤ 1500 := by
    rw [UInt16.le_iff_toNat_le, hsmall]
    exact hqlen
  have hpad := length_padded q
  have htake : (padded q).take ((padded q).length - ((padded q).length - q.length)) = q := by
    have hback : (padded q).length - ((padded q).length - q.length) = q.length := by omega
    rw [hback, take_padded]
  rw [readProtocol, if_pos hle, hsmall, if_neg (by omega)]
  simp only
  rw [if_neg (by omega), htake, hq, F.llcSnap.deserialize_serialize]

theorem readProtocol_of_lt {lengthType : UInt16} (h : 1500 < lengthType) (packet : Str) :
    readProtocol F lengthType packet = .ok (lengthType, packet) :=
  if_neg (UInt16.not_le.mpr h)

/-- What is read behind a length is shorter than what was there. -/
theorem length_readProtocol_lt {lengthType protocol : UInt16} {packet rest : Str}
    (hle : lengthType ≤ 1500) (h : readProtocol F lengthType packet = .ok (protocol, rest)) :
    rest.length < packet.length := by
  rw [readProtocol, if_pos hle] at h
  simp only at h
  split_ifs at h with hshort hpad
  cases hread : F.llcSnap.deserialize
      (packet.take (packet.length - (packet.length - lengthType.toNat))) with
  | none =>
    rw [hread] at h
    cases h
  | some header =>
    obtain ⟨t, q⟩ := header
    rw [hread] at h
    obtain ⟨-, rfl⟩ := Prod.mk.inj (Except.ok.inj h)
    have hlt := F.llcSnap.length_rest_lt hread
    rw [List.length_take] at hlt
    omega

theorem addHeader_eq_ok {m_encapMode : EncapsulationMode} {m_mtu : UInt16} {p frame : Str}
    {source dest : α} {protocolNumber : UInt16}
    (h : addHeader F m_encapMode m_mtu p source dest protocolNumber = .ok frame) :
    ∃ lengthType q, frame = encapsulate F q source dest lengthType ∧
      (readProtocol F lengthType q = .ok (protocolNumber, handedOver m_encapMode p) ↔
        Legible F m_encapMode p protocolNumber) := by
  cases m_encapMode with
  | illegal => cases h
  | dix =>
    obtain rfl := Except.ok.inj h
    refine ⟨protocolNumber, padded p, rfl, fun hread => ?_, fun hlt => readProtocol_of_lt hlt _⟩
    by_contra hnot
    have hlt := length_readProtocol_lt (UInt16.not_lt.mp hnot) hread
    exact absurd hlt (lt_irrefl _)
  | llc =>
    simp only [addHeader] at h
    split_ifs at h with hmtu
    obtain rfl := Except.ok.inj h
    refine ⟨_, _, rfl, fun hread => ?_, readProtocol_llc⟩
    by_contra hnot
    set q := F.llcSnap.serialize protocolNumber ++ p with hq
    have hlong : 1500 < q.length := by
      rw [hq, length_llc]
      exact not_le.mp hnot
    have hpad := length_padded q
    have hbound : q.length < 65536 := by
      have hmax : m_mtu.toNat < 65536 := m_mtu.toNat_lt
      omega
    -- the length is taken for a protocol number, and the LLC/SNAP header for a part of the packet
    have hsame : (UInt16.ofNat q.length).toNat = q.length := UInt16.toNat_ofNat_of_lt' hbound
    have hlt : 1500 < UInt16.ofNat q.length := by
      rw [UInt16.lt_iff_toNat_lt, hsame]
      exact hlong
    rw [readProtocol_of_lt hlt] at hread
    have hlen := congrArg List.length (Prod.mk.inj (Except.ok.inj hread)).2
    rw [hpad, hq, length_llc] at hlen
    have hpos := F.llcSnap.size_pos
    have hp : (handedOver EncapsulationMode.llc p).length = p.length := rfl
    omega

variable [DecidableEq α]

theorem receive_encapsulate (r : Reader α) (hr : r.m_receiveEnable = true) (q : Str) (source dest : α)
    (lengthType : UInt16) :
    receive F r false false (encapsulate F q source dest lengthType) =
      (readProtocol F lengthType q).map fun (protocol, rest) =>
        .phyRxEnd (encapsulate F q source dest lengthType) ::
          handOn F r (encapsulate F q source dest lengthType) source dest protocol rest := by
  have hon : ¬ r.m_receiveEnable = false := by simp [hr]
  unfold receive
  rw [if_neg Bool.false_ne_true, if_neg hon, if_neg Bool.false_ne_true, encapsulate,
    F.trailer.remove_add]
  simp only [F.trailer.check_compute, Bool.true_eq_false, if_false,
    F.ethernet.deserialize_serialize]

/-- What the protocol stack of a device gets. -/
def RxTrace.up : RxTrace α → Option (Str × UInt16 × α)
  | .rxCallback packet protocol source => some (packet, protocol, source)
  | _ => none

theorem filterMap_up_handOn (r : Reader α) (original packet : Str) (source dest : α)
    (protocol : UInt16) :
    (handOn F r original source dest protocol packet).filterMap RxTrace.up =
      if packetType F r dest ≠ .otherHost then [(packet, protocol, source)] else [] := by
  unfold handOn
  split_ifs <;> rfl

/-- Between a sender in any mode and a receiver that the frame is for, a packet comes through, with its
protocol number and its source, exactly if it is legible. -/
theorem receive_addHeader_iff {m_encapMode : EncapsulationMode} {m_mtu : UInt16} {p frame : Str}
    {source dest : α} {protocolNumber : UInt16} {r : Reader α}
    (h : addHeader F m_encapMode m_mtu p source dest protocolNumber = .ok frame)
    (hr : r.m_receiveEnable = true) (hdest : packetType F r dest ≠ .otherHost) :
    (receive F r false false frame).map (List.filterMap RxTrace.up) =
        .ok [(handedOver m_encapMode p, protocolNumber, source)] ↔
      Legible F m_encapMode p protocolNumber := by
  obtain ⟨lengthType, q, rfl, hlegible⟩ := addHeader_eq_ok h
  rw [receive_encapsulate r hr, ← hlegible]
  cases readProtocol F lengthType q with
  | error a => exact iff_of_false (fun hread => by cases hread) fun hread => by cases hread
  | ok read =>
    obtain ⟨protocol, rest⟩ := read
    have hup : (RxTrace.phyRxEnd (encapsulate F q source dest lengthType) ::
        handOn F r (encapsulate F q source dest lengthType) source dest protocol rest).filterMap
          RxTrace.up = [(rest, protocol, source)] := by
      rw [List.filterMap_cons_none rfl, filterMap_up_handOn, if_pos hdest]
    simp only [Except.map, hup, Except.ok.injEq, List.cons.injEq, Prod.mk.injEq, and_true]
    exact and_comm

end

/-! ## The formats on the wire -/

abbrev Mac48Address := { address : Str // address.length = 6 }

def uint16Bytes (t : UInt16) : Str := [(t >>> 8).toUInt8, t.toUInt8]

def readUInt16 (p : Str) : UInt16 :=
  UInt16.ofNat (256 * (p.getD 0 0).toNat + (p.getD 1 0).toNat)

theorem readUInt16_bytes (t : UInt16) (p : Str) : readUInt16 (uint16Bytes t ++ p) = t := by
  have hlt := t.toNat_lt
  apply UInt16.toNat_inj.mp
  simp [readUInt16, uint16Bytes, Nat.shiftRight_eq_div_pow]
  omega

/-- `EthernetHeader` without its preamble: the destination comes first. -/
def ethernetHeader : Header Byte (EthernetHeader Mac48Address) where
  size := 14
  size_pos := by decide
  serialize h := h.destination.val ++ (h.source.val ++ uint16Bytes h.lengthType)
  deserialize p :=
    if hlen : 14 ≤ p.length then
      some (⟨⟨(p.drop 6).take 6, by simp; omega⟩, ⟨p.take 6, by simp; omega⟩,
        readUInt16 (p.drop 12)⟩, p.drop 14)
    else none
  deserialize_serialize := by
    rintro ⟨⟨source, hs⟩, ⟨dest, hd⟩, t⟩ p
    have h14 : 14 ≤ (dest ++ (source ++ uint16Bytes t) ++ p).length := by
      simp [uint16Bytes, hs, hd]
      omega
    have hsplit : dest ++ (source ++ uint16Bytes t) ++ p =
        dest ++ (source ++ (uint16Bytes t ++ p)) := by simp
    have h6 : (dest ++ (source ++ (uint16Bytes t ++ p))).drop 6 = source ++ (uint16Bytes t ++ p) :=
      List.drop_left' hd
    have h12 : (dest ++ (source ++ (uint16Bytes t ++ p))).drop 12 = uint16Bytes t ++ p := by
      rw [← List.append_assoc]
      exact List.drop_left' (by rw [List.length_append, hs, hd])
    have hrest : (dest ++ (source ++ (uint16Bytes t ++ p))).drop 14 = p := by
      rw [← List.append_assoc, ← List.append_assoc]
      exact List.drop_left' (by simp [uint16Bytes, hs, hd])
    simp only [dif_pos h14]
    simp only [hsplit, h6, h12, hrest, List.take_left' hs, List.take_left' hd, readUInt16_bytes]
  length_eq := by
    intro p h rest hread
    split_ifs at hread with hlen
    obtain ⟨-, rfl⟩ := Prod.mk.inj (Option.some.inj hread)
    rw [List.length_drop]
    omega

def llcSnapBytes : Str := [0xaa, 0xaa, 0x03, 0, 0, 0]

def llcSnapHeader : Header Byte UInt16 where
  size := 8
  size_pos := by decide
  serialize t := llcSnapBytes ++ uint16Bytes t
  deserialize p := if 8 ≤ p.length then some (readUInt16 (p.drop 6), p.drop 8) else none
  deserialize_serialize := by
    intro t p
    have h8 : 8 ≤ (llcSnapBytes ++ uint16Bytes t ++ p).length := by
      simp [llcSnapBytes, uint16Bytes]
    have h6 : (llcSnapBytes ++ uint16Bytes t ++ p).drop 6 = uint16Bytes t ++ p := rfl
    have hrest : (llcSnapBytes ++ uint16Bytes t ++ p).drop 8 = p := rfl
    rw [if_pos h8, h6, hrest, readUInt16_bytes]
  length_eq := by
    intro p h rest hread
    split_ifs at hread with hlen
    obtain ⟨-, rfl⟩ := Prod.mk.inj (Option.some.inj hread)
    rw [List.length_drop]
    omega

/-- The trailer without checksums. -/
def emptyTrailer : Trailer Byte where
  size := 4
  compute _ := List.replicate 4 0
  length_compute _ := rfl
  check _ _ := true
  check_compute _ := rfl

/-- Addresses with the lowest bit of the first byte are group addresses. -/
def wireFormats : FrameFormats Mac48Address where
  ethernet := ethernetHeader
  llcSnap := llcSnapHeader
  trailer := emptyTrailer
  isBroadcast address := address.val = List.replicate 6 0xff
  isGroup address := (address.val.getD 0 0) &&& 1 = 1

def firstMac : Mac48Address := ⟨[0, 0, 0, 0, 0, 1], rfl⟩

def secondMac : Mac48Address := ⟨[0, 0, 0, 0, 0, 2], rfl⟩

/-- The frame of one byte in LLC mode. -/
def oneByteFrame : Str :=
  encapsulate wireFormats (llcSnapBytes ++ [8, 0] ++ [7] ++ List.replicate 37 0) firstMac secondMac 9

theorem receive_addHeader_oneByte :
    (receive wireFormats ⟨secondMac, true, false⟩ false false oneByteFrame).map
        (List.filterMap RxTrace.up) = .ok [([7], 2048, firstMac)] ↔
      8 + 1 ≤ 1500 := by
  have hframe : addHeader wireFormats .llc 1500 [7] firstMac secondMac 2048 = .ok oneByteFrame := by
    decide +kernel
  exact receive_addHeader_iff hframe rfl (by decide)

end ComputerNetworks.CsmaDevice
