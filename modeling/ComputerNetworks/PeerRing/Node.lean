import ComputerNetworks.Library.CStrings
import ComputerNetworks.Library.SortedMap

/-! # Nodes of the file sharing ring and their datagrams

What `__init.cpp` (the bootstrap) and `server.cpp` (a peer) have in common: the hash of names and
addresses, the `Node` class, and the two UDP helpers. `__sendreq` copies the message into a buffer
of `LEN` bytes and sends its C string; `__recvinfo` reads at most 1000 bytes of one datagram into
its own buffer of `LEN` bytes and returns them as a C string. `inet_addr` stays a parameter: nothing
here depends on how an address text becomes an address.
-/
namespace ComputerNetworks.PeerRing
set_option autoImplicit false

def LEN : ℕ := 2048

/-- The byte count `__recvinfo` passes to `recvfrom`. -/
def recvLen : ℕ := 1000

def colon : Byte := 58

/-! ## Hashing -/

/-- `(unsigned long long) p[i]` for a signed `char`. -/
def signExtend (b : Byte) : UInt64 := ⟨b.toBitVec.signExtend 64⟩

/-- The body of the loop of `oat_hash`. -/
def oatStep (h : UInt64) (b : Byte) : UInt64 :=
  let h := h + signExtend b
  let h := h + (h <<< 10)
  h ^^^ (h >>> 6)

def oatHash (p : Str) : UInt64 :=
  let h := p.foldl oatStep 0
  let h := h + (h <<< 3)
  let h := h ^^^ (h >>> 11)
  h + (h <<< 15)

/-! ## The `Node` class -/

abbrev StrMap := SortedMap Str Str

structure Node where
  ip : Str := []
  port : Str := []
  ip_port : Str := []
  node_id : UInt64 := 0
  scr : Str := []
  pdr : Str := []
  myFile : List Str := []
  myFileInfo : StrMap := ∅
  deriving DecidableEq

/-- The two `getline(.., ':')` that take an `ip:port` text apart. -/
def splitAddr (ip_port : Str) : Str × Str :=
  let (ip, iss) := getline (istringstream ip_port) [] colon
  let (port, _) := getline iss [] colon
  (ip, port)

/-- `Node::set_ip_port`. The address is hashed from a copy in a buffer of `LEN` bytes. -/
def Node.setIpPort (nd : Node) (ip_port : Str) : Option Node := do
  let (ip, iss) := getline (istringstream ip_port) nd.ip colon
  let (port, _) := getline iss nd.port colon
  let buf ← strcpy LEN ip_port
  some { nd with
    ip_port := ip_port, ip := ip, port := port, node_id := oatHash buf, scr := [], pdr := [] }

theorem Node.setIpPort_default {ip_port : Str} (h0 : (0 : Byte) ∉ ip_port)
    (hlen : ip_port.length < LEN) :
    Node.setIpPort {} ip_port = some
      { ip_port := ip_port, ip := (splitAddr ip_port).1, port := (splitAddr ip_port).2,
        node_id := oatHash ip_port } := by
  simp only [Node.setIpPort, strcpy_of_lt h0 hlen, Option.bind_eq_bind, Option.bind_some]
  rfl

/-! ## Datagrams -/

structure SockAddr where
  sin_addr : UInt32
  sin_port : UInt16
  deriving DecidableEq

structure Datagram where
  dest : SockAddr
  payload : Str
  deriving DecidableEq

section Transport
variable (inet_addr : Str → UInt32)

/-- The socket address `__sendreq` builds from its arguments; `htons` takes the low 16 bits. -/
def sockAddr (ip : Str) (port : ℤ) : SockAddr := ⟨inet_addr (cstr ip), UInt16.ofInt port⟩

/-- The socket address an `ip:port` text stands for. -/
def addrOf (ip_port : Str) : SockAddr :=
  sockAddr inet_addr (splitAddr ip_port).1 (atoi (splitAddr ip_port).2)

def sendreq (ip : Str) (port : ℤ) (msg : Str) : Option Datagram := do
  let sendline ← strcpy LEN msg
  some ⟨sockAddr inet_addr ip port, sendline⟩

theorem sendreq_of_lt (ip : Str) (port : ℤ) {msg : Str} (h0 : (0 : Byte) ∉ msg)
    (hlen : msg.length < LEN) :
    sendreq inet_addr ip port msg = some ⟨sockAddr inet_addr ip port, msg⟩ := by
  simp [sendreq, strcpy_of_lt h0 hlen]

theorem sendreq_eq_some {ip : Str} {port : ℤ} {msg : Str} {d : Datagram}
    (h : sendreq inet_addr ip port msg = some d) :
    (cstr msg).length < LEN ∧ d = ⟨sockAddr inet_addr ip port, cstr msg⟩ := by
  simp only [sendreq, strcpy, Option.bind_eq_bind] at h
  split_ifs at h with hlt
  · exact ⟨hlt, by simpa using h.symm⟩
  · simp at h

end Transport

def recvinfo (payload : Str) : Str := cstr (payload.take recvLen)

theorem recvinfo_length_le (payload : Str) : (recvinfo payload).length ≤ recvLen :=
  (cstr_length_le _).trans (List.length_take_le _ _)

theorem nul_notMem_recvinfo (payload : Str) : (0 : Byte) ∉ recvinfo payload := nul_notMem_cstr _

theorem recvinfo_of_le {payload : Str} (h0 : (0 : Byte) ∉ payload)
    (hlen : payload.length ≤ recvLen) : recvinfo payload = payload := by
  rw [recvinfo, List.take_of_length_le hlen, cstr_of_notMem h0]

theorem recvinfo_of_notMem {payload : Str} (h0 : (0 : Byte) ∉ payload) :
    recvinfo payload = payload.take recvLen :=
  cstr_of_notMem fun h => h0 (List.mem_of_mem_take h)

end ComputerNetworks.PeerRing
