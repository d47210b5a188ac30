import ComputerNetworks.Library.CStrings

/-! # The trace figures, `data` of `no.py`

The scripts of assignments 3 and 4 contain the same function. It splits every line of a trace at single
spaces, sorts the lines with a UDP header by their first field, and joins the enqueued packets with
the received and the dequeued ones on the IP id and the addresses. Every exception ends in the same
`except` clause and is `none`. `float` is the value of a numeral, here exact.
-/
namespace ComputerNetworks.TraceAnalysis
set_option autoImplicit false

abbrev Line := List Str

/-- `line.split(" ")` for every line. -/
def fields (lines : List Str) : List Line := lines.map fun line => line.splitOn space

/-- `l[i]` of Python, where negative indices count from the end. -/
def item (l : Line) (i : ℤ) : Option Str :=
  if 0 ≤ i then l[i.toNat]?
  else if -i ≤ l.length then l[l.length - i.natAbs]? else none

def udpHeader : Str := bytes "ns3::UdpHeader"

/-- The lines of one kind: its sign is the first field, and there is a UDP header. -/
def select (sign : String) (l : List Line) : List Line :=
  l.filter fun x => decide (x.head? = some (bytes sign)) && x.contains udpHeader

/-- The field after `id`, and the three fields before the UDP header joined. -/
def packetKey (x : Line) : Option (Str × Str) := do
  let a ← x.idxOf? (bytes "id")
  let b ← item x (a + 1)
  let c ← x.idxOf? udpHeader
  let d₁ ← item x (c - 3)
  let d₂ ← item x (c - 2)
  let d₃ ← item x (c - 1)
  some (b, d₁ ++ d₂ ++ d₃)

/-- `int(re.findall(r'[0-9]+', s)[0])`. -/
def firstNumber (s : Str) : Option ℕ :=
  let digits := (s.dropWhile fun b => !isdigit b).takeWhile isdigit
  if digits = [] then none else some (decimalValue digits)

def payloadSize (x : Line) : Option ℕ := do
  let b ← x.idxOf? (bytes "Payload")
  let field ← item x (b + 1)
  firstNumber field

structure Figures where
  average_throughput : ℚ
  forwarding_delay : ℚ
  /-- The value under the root. -/
  jitter_sq : ℚ
  deriving DecidableEq

section
variable (float : Str → Option ℚ)

/-- The inner loop over the received lines: `delay` and `packet_count`. -/
def receivedLoop (key : Str × Str) (t1 : Str) : List Line → ℚ → ℕ → Option (ℚ × ℕ)
  | [], delay, packet_count => some (delay, packet_count)
  | x :: xs, delay, packet_count => do
      let k ← packetKey x
      let t2 ← item x 1
      if key = k then
        let v2 ← float t2
        let v1 ← float t1
        receivedLoop key t1 xs (v2 - v1) (packet_count + 1)
      else receivedLoop key t1 xs delay packet_count

def dequeueLoop (key : Str × Str) (t1 : Str) : List Line → ℚ → Option ℚ
  | [], delay => some delay
  | x :: xs, delay => do
      let k ← packetKey x
      let t3 ← item x 1
      if key = k then
        let v3 ← float t3
        let v1 ← float t1
        dequeueLoop key t1 xs (delay + (v3 - v1))
      else dequeueLoop key t1 xs delay

/-- The loop over the enqueued lines: `count`, `packet_count` and `delay_list`. -/
def enqueueLoop (l_received l_dequeue : List Line) :
    List Line → ℚ → ℕ → List ℚ → Option (ℚ × ℕ × List ℚ)
  | [], count, packet_count, delay_list => some (count, packet_count, delay_list)
  | x :: xs, count, packet_count, delay_list => do
      let key ← packetKey x
      let t1 ← item x 1
      let (delay, packet_count) ← receivedLoop float key t1 l_received 0 packet_count
      let delay ← dequeueLoop float key t1 l_dequeue delay
      enqueueLoop l_received l_dequeue xs (count + delay) packet_count (delay_list ++ [delay])

def data (lines : List Str) : Option Figures := do
  let l := fields lines
  let l_enqueue := select "+" l
  let l_dequeue := select "-" l
  let l_received := select "r" l
  let sizes ← l_received.mapM payloadSize
  let received := sizes.sum
  let last ← l_received.getLast?
  let t ← item last 1
  let total_time ← float t
  let total_time := total_time - 2
  if total_time = 0 then none
  else
    let average_throughput := received / total_time
    let (count, packet_count, delay_list) ← enqueueLoop float l_received l_dequeue l_enqueue 0 0 []
    if packet_count = 0 then none
    else
      let forwarding_delay := count / packet_count
      let sum := delay_list.foldl
        (fun sum delay => sum + (delay - forwarding_delay) * (delay - forwarding_delay)) 0
      some ⟨average_throughput, forwarding_delay, sum / delay_list.length⟩

end

end ComputerNetworks.TraceAnalysis
